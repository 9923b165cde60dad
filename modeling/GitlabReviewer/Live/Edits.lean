import GitlabReviewer.Foundation.Guarantees
import GitlabReviewer.Live.Records

/-! # What everybody but a worker writes back

What a job is to review and how is written when it is scheduled, and whom a run
works for when it is claimed. The queue, its users and the recovery move and
finish both, but they change no word of the order and leave the logs alone.
-/
namespace GitlabReviewer.Live
open Python Foundation Models Scheduling Reviews Lifecycle

/-- A job as it was scheduled. -/
structure Order where
  jobId : ℕ
  mergeRequestId : ℕ
  modelProfileId : ℕ
  promptOverride : Option Text
  extraProjects : List Json
  postToGitlab : Option Bool
  createdAt : Option Timestamp

def orderOf (job : ScheduledJob) : Order :=
  ⟨job.id, job.mergeRequestId, job.modelProfileId, job.promptOverride, job.extraProjects, job.postToGitlab, job.createdAt⟩

def orders (w : World) : List Order := w.jobs.map orderOf

/-- A run and the job it works for. -/
structure Assignment where
  runId : ℕ
  jobId : ℕ
  mergeRequestId : ℕ
  modelProfileId : ℕ

def assignmentOf (run : ReviewRun) : Assignment := ⟨run.id, run.scheduledJobId, run.mergeRequestId, run.modelProfileId⟩

def assignments (w : World) : List Assignment := w.runs.map assignmentOf

def OrderKept (t : Tracked ScheduledJob) : Prop := orderOf t.mem = orderOf t.base
def AssignmentKept (u : Tracked ReviewRun) : Prop := assignmentOf u.mem = assignmentOf u.base

theorem orderOf_merge (b m s : ScheduledJob) (h : orderOf m = orderOf b) : orderOf (Columns.merge b m s) = orderOf s := by
  simp only [orderOf, Order.mk.injEq] at h
  obtain ⟨hid, hmr, hprofile, hprompt, hextras, hpost, hcreated⟩ := h
  simp only [orderOf, Columns.merge, hid, hmr, hprofile, hprompt, hextras, hpost, hcreated, written_self]

theorem assignmentOf_merge (b m s : ReviewRun) (h : assignmentOf m = assignmentOf b) :
    assignmentOf (Columns.merge b m s) = assignmentOf s := by
  simp only [assignmentOf, Assignment.mk.injEq] at h
  obtain ⟨hid, hjob, hmr, hprofile⟩ := h
  simp only [assignmentOf, Columns.merge, hid, hjob, hmr, hprofile, written_self]

/-- The rows another session may write back. -/
structure LeavesLog (u : Tracked ReviewRun) : Prop where
  id : u.mem.id = u.base.id
  mergeRequestId : u.mem.mergeRequestId = u.base.mergeRequestId
  modelProfileId : u.mem.modelProfileId = u.base.modelProfileId
  status : u.mem.status = u.base.status ∨ u.mem.status = .error
  log : u.mem.log = u.base.log
  delivery : (recordOf u.mem).delivery = (recordOf u.base).delivery
  archived : u.mem.archivedAt = u.base.archivedAt ∨ u.mem.archivedAt.isSome = true

theorem orderKept_instances {session : List (Tracked ScheduledJob)} (h : ∀ t ∈ session, OrderKept t) (rows : List ScheduledJob) :
    ∀ t ∈ instances session rows, OrderKept t := by
  intro t ht
  obtain ⟨row, -, rfl⟩ := List.mem_map.mp ht
  cases hrow : held session row.id with
  | none => rfl
  | some t => exact h t (held_mem hrow).1

theorem orderKept_renumber {jobs : List (Tracked ScheduledJob)} (h : ∀ t ∈ jobs, OrderKept t) : ∀ t ∈ renumber jobs, OrderKept t := by
  intro t ht
  obtain ⟨i, hi, rfl⟩ := List.mem_mapIdx.mp ht
  have hkept := h _ (List.getElem_mem hi)
  split
  · exact hkept
  · exact hkept

theorem orderKept_committed (jobs : List (Tracked ScheduledJob)) : ∀ t ∈ jobs.map Tracked.committed, OrderKept t := by
  intro t ht
  obtain ⟨u, -, rfl⟩ := List.mem_map.mp ht
  rfl

theorem orderKept_failInFlight (now : Timestamp) {t : Tracked ScheduledJob} (h : OrderKept t) : OrderKept (failInFlight now t) := by
  unfold failInFlight
  split
  · exact h
  · exact h

theorem leavesLog_cancelled (now : Timestamp) (run : ReviewRun) : LeavesLog (cancelledRun now (Tracked.load run)) :=
  ⟨rfl, rfl, rfl, .inr rfl, rfl, rfl, .inl rfl⟩

theorem leavesLog_crashed (now : Timestamp) (run : ReviewRun) : LeavesLog (crashedRun now (Tracked.load run)) := by
  unfold crashedRun
  split
  · exact ⟨rfl, rfl, rfl, .inr rfl, rfl, rfl, .inl rfl⟩
  · exact ⟨rfl, rfl, rfl, .inl rfl, rfl, rfl, .inl rfl⟩

theorem leavesLog_orphaned (now : Timestamp) (run : ReviewRun) : LeavesLog (orphanedRun now (Tracked.load run)) :=
  ⟨rfl, rfl, rfl, .inr rfl, rfl, rfl, .inl rfl⟩

theorem leavesLog_archived (now : Timestamp) (run : ReviewRun) :
    LeavesLog ((Tracked.load run).set fun r => { r with archivedAt := some now }) :=
  ⟨rfl, rfl, rfl, .inl rfl, rfl, rfl, .inr rfl⟩

/-- The rows are still there, and written back are changes of these kinds. -/
def Edits (w w' : World) : Prop :=
  ∃ jobs runs, (∀ t ∈ jobs, OrderKept t) ∧ (∀ u ∈ runs, AssignmentKept u ∧ LeavesLog u) ∧
    w'.jobs = store jobs w.jobs ∧ w'.runs = store runs w.runs ∧ w'.notes = w.notes

theorem edits_of_tables {w w' : World} (hj : w'.jobs = w.jobs) (hr : w'.runs = w.runs) (hn : w'.notes = w.notes) : Edits w w' :=
  ⟨[], [], List.forall_mem_nil _, List.forall_mem_nil _, hj.trans (store_nil _).symm, hr.trans (store_nil _).symm, hn⟩

abbrev Editing {α : Type} (p : Tx α) : Prop := p.Guarantees (fun _ => True) Edits

section Editing
variable {α β : Type}

theorem editing_select_bind {site : Site} {query : World → α} {f : α → Tx β} (h : ∀ w, Editing (f (query w))) :
    Editing (select site query >>= f) :=
  .atomic_bind fun w _ _ => ⟨edits_of_tables rfl rfl rfl, h w⟩

theorem editing_record {act : World → World} (hj : ∀ w, (act w).jobs = w.jobs) (hr : ∀ w, (act w).runs = w.runs)
    (hn : ∀ w, (act w).notes = w.notes) : Editing (record act) :=
  ⟨fun w _ _ => ⟨edits_of_tables (hj w) (hr w) (hn w), trivial⟩, trivial⟩

theorem editing_commit {site : Site} {jobs : List (Tracked ScheduledJob)} {runs : List (Tracked ReviewRun)}
    (hj : ∀ t ∈ jobs, OrderKept t) (hr : ∀ u ∈ runs, AssignmentKept u ∧ LeavesLog u) : Editing (commit site jobs runs) :=
  .atomic fun _ _ _ => ⟨jobs, runs, hj, hr, rfl, rfl, rfl⟩

theorem editing_commitJobs {site : Site} {jobs : List (Tracked ScheduledJob)} (hj : ∀ t ∈ jobs, OrderKept t) :
    Editing (commit site jobs []) :=
  editing_commit hj (List.forall_mem_nil _)

theorem editing_compactPositions (site : Site) {session : List (Tracked ScheduledJob)} (h : ∀ t ∈ session, OrderKept t) :
    Editing (compactPositions site session) :=
  editing_select_bind fun _ => editing_commitJobs (orderKept_renumber (orderKept_instances h _))

end Editing

theorem editing_rewritePositions {session : List (Tracked ScheduledJob)} (h : ∀ t ∈ session, OrderKept t) (ids : List ℤ) :
    Editing (rewritePositions session ids) := by
  unfold rewritePositions
  dsimp only
  split
  · trivial
  · apply editing_select_bind
    intro w
    split
    · trivial
    · apply editing_select_bind
      intro w'
      split
      · trivial
      · apply editing_commitJobs
        intro t ht
        obtain ⟨u, hu, rfl⟩ := List.mem_map.mp ht
        exact orderKept_instances h _ u hu

theorem editing_reorder (dialect : Dialect) (ids : List ℤ) : Editing (reorder dialect ids) := by
  unfold reorder
  split
  · exact editing_rewritePositions (by simp) ids
  · trivial

theorem editing_moveToTop {t : Tracked ScheduledJob} (h : OrderKept t) : Editing (moveToTop t) := by
  unfold moveToTop
  split
  · trivial
  · exact editing_select_bind fun _ => editing_rewritePositions (by simpa using h) _

theorem editing_moveToBottom {t : Tracked ScheduledJob} (h : OrderKept t) : Editing (moveToBottom t) := by
  unfold moveToBottom
  split
  · trivial
  · exact editing_select_bind fun _ => editing_rewritePositions (by simpa using h) _

theorem editing_enrollNightly {t : Tracked ScheduledJob} (h : OrderKept t) (now : Timestamp) : Editing (enrollNightly t now) := by
  unfold enrollNightly
  split
  · trivial
  · split
    · trivial
    · exact editing_select_bind fun _ => editing_commitJobs (List.forall_mem_singleton.mpr h)

theorem editing_removeNightly {t : Tracked ScheduledJob} (h : OrderKept t) (now : Timestamp) : Editing (removeNightly t now) := by
  unfold removeNightly
  split
  · trivial
  · split
    · trivial
    · exact editing_select_bind fun _ => editing_commitJobs (List.forall_mem_singleton.mpr h)

theorem editing_promoteNightly (now : Timestamp) : Editing (promoteNightly now) := by
  apply editing_select_bind
  intro w
  split
  · trivial
  · apply editing_select_bind
    intro w'
    refine .bind (editing_commitJobs ?_) fun _ => trivial
    intro t ht
    obtain ⟨i, hi, rfl⟩ := List.mem_mapIdx.mp ht
    obtain ⟨row, -, hrow⟩ := List.mem_map.mp (List.getElem_mem hi)
    show orderOf ((List.map Tracked.load _)[i]).mem = orderOf ((List.map Tracked.load _)[i]).base
    rw [← hrow]
    rfl

theorem editing_cancel {t : Tracked ScheduledJob} (h : OrderKept t) (now : Timestamp) : Editing (Scheduling.cancel t now) := by
  unfold Scheduling.cancel
  split
  · trivial
  · exact .bind (editing_commitJobs (List.forall_mem_singleton.mpr h)) fun _ =>
      editing_compactPositions _ (List.forall_mem_singleton.mpr rfl)

theorem editing_cancelInflight {t : Tracked ScheduledJob} (h : OrderKept t) (now : Timestamp) : Editing (cancelInflight t now) := by
  unfold cancelInflight
  split
  · trivial
  · apply editing_select_bind
    intro w
    apply Program.Guarantees.bind
    · refine editing_commit (List.forall_mem_singleton.mpr h) ?_
      intro u hu
      obtain ⟨v, hv, rfl⟩ := Option.map_eq_some_iff.mp (Option.mem_toList.mp hu)
      obtain ⟨run, -, rfl⟩ := Option.map_eq_some_iff.mp hv
      exact ⟨rfl, leavesLog_cancelled now run⟩
    · intro _
      exact .bind (editing_compactPositions _ (List.forall_mem_singleton.mpr rfl)) fun _ => trivial

theorem editing_withJob {i : ℕ} {act : Tracked ScheduledJob → Tx Unit} (h : ∀ t, OrderKept t → Editing (act t)) :
    Editing (withJob i act) := by
  apply editing_select_bind
  intro w
  cases w.job? i with
  | none => trivial
  | some row => exact h _ rfl

/-- No request but `enqueue` touches an order. -/
theorem editing_request {q : Request} (h : ∀ request, q ≠ .enqueue request) : Editing q.prog := by
  cases q with
  | enqueue request => exact absurd rfl (h request)
  | reorder dialect ids => exact editing_reorder dialect ids
  | moveToTop i => exact editing_withJob fun t ht => editing_moveToTop ht
  | moveToBottom i => exact editing_withJob fun t ht => editing_moveToBottom ht
  | cancel i now => exact editing_withJob fun t ht => editing_cancel ht now
  | cancelInflight i now => exact editing_withJob fun t ht => .bind (editing_cancelInflight ht now) fun _ => trivial
  | enrollNightly i now => exact editing_withJob fun t ht => editing_enrollNightly ht now
  | removeNightly i now => exact editing_withJob fun t ht => editing_removeNightly ht now
  | promoteNightly now => exact .bind (editing_promoteNightly now) fun _ => trivial
  | compactPositions => exact editing_compactPositions _ (by simp)

theorem editing_resultsArchive (i : ℕ) (now : Timestamp) : Editing (resultsArchive i now) := by
  apply editing_select_bind
  intro w
  cases w.run? i with
  | none => trivial
  | some run =>
    dsimp only [Option.map_some]
    split
    · exact .bind (editing_commit (by simp) (List.forall_mem_singleton.mpr ⟨rfl, leavesLog_archived now run⟩)) fun _ => trivial
    · trivial

theorem editing_orphanJobs_bind {α : Type} {f : List (Tracked ScheduledJob) → Tx α} (now : Timestamp)
    (hf : ∀ session, (∀ t ∈ session, OrderKept t) → Editing (f session)) (runs : List (Tracked ReviewRun))
    {session : List (Tracked ScheduledJob)} (h : ∀ t ∈ session, OrderKept t) : Editing (orphanJobs now runs session >>= f) := by
  induction runs generalizing session with
  | nil => exact hf session h
  | cons run runs ih =>
    unfold orphanJobs
    split
    · apply ih
      intro t ht
      obtain ⟨u, hu, rfl⟩ := List.mem_map.mp ht
      split
      · exact orderKept_failInFlight now (h u hu)
      · exact h u hu
    · refine ⟨fun w _ _ => ⟨edits_of_tables rfl rfl rfl, ?_⟩, trivial⟩
      dsimp only [Program.bind]
      cases w.job? run.mem.scheduledJobId with
      | none => exact ih h
      | some row =>
        apply ih
        rw [List.forall_mem_append]
        exact ⟨h, List.forall_mem_singleton.mpr (orderKept_failInFlight now rfl)⟩

theorem editing_recoverOrphans (stop : ℕ → Except Text Unit) (now : Timestamp) : Editing (recoverOrphans stop now) := by
  apply editing_select_bind
  intro w
  refine editing_orphanJobs_bind now (fun session hsession => ?_) _ (by simp)
  apply editing_select_bind
  intro w'
  dsimp only
  split
  · trivial
  · refine .bind (editing_commit ?_ ?_) fun _ => .bind (editing_compactPositions _ (orderKept_committed _)) fun _ => trivial
    · rw [List.forall_mem_append]
      refine ⟨?_, hsession⟩
      intro t ht
      obtain ⟨u, hu, rfl⟩ := List.mem_map.mp ht
      exact orderKept_instances hsession _ u hu
    · intro u hu
      obtain ⟨v, hv, rfl⟩ := List.mem_map.mp hu
      obtain ⟨run, -, rfl⟩ := List.mem_map.mp hv
      rw [stopAndFinalize_eq]
      exact ⟨rfl, leavesLog_orphaned now run⟩

theorem editing_abandonClaim (jobId : ℕ) (now : Timestamp) : Editing (abandonClaim jobId now) := by
  unfold abandonClaim
  apply Program.Guarantees.tryCatch
  · apply editing_select_bind
    intro w
    cases w.job? jobId with
    | none => trivial
    | some row =>
      dsimp only [Option.map_some]
      split
      · exact .bind (editing_commitJobs (List.forall_mem_singleton.mpr rfl)) fun _ =>
          editing_compactPositions _ (List.forall_mem_singleton.mpr rfl)
      · trivial
  · intro _
    trivial

theorem editing_releasePermit (jobId : ℕ) : Editing (releasePermit jobId) := editing_record (fun _ => rfl) (fun _ => rfl) fun _ => rfl

theorem editing_finalizeCrashedRun (runId jobId : ℕ) (now : Timestamp) : Editing (finalizeCrashedRun runId jobId now) := by
  unfold finalizeCrashedRun
  apply Program.Guarantees.tryCatch
  · apply editing_select_bind
    intro w
    apply editing_select_bind
    intro w'
    refine .bind (editing_commit ?_ ?_) fun _ => editing_compactPositions _ ?_
    · intro t ht
      obtain ⟨u, hu, rfl⟩ := Option.map_eq_some_iff.mp (Option.mem_toList.mp ht)
      obtain ⟨row, -, rfl⟩ := Option.map_eq_some_iff.mp hu
      exact orderKept_failInFlight now rfl
    · intro u hu
      obtain ⟨v, hv, rfl⟩ := Option.map_eq_some_iff.mp (Option.mem_toList.mp hu)
      obtain ⟨run, -, rfl⟩ := Option.map_eq_some_iff.mp hv
      refine ⟨?_, leavesLog_crashed now run⟩
      unfold crashedRun
      split
      · rfl
      · rfl
    · intro t ht
      obtain ⟨u, -, rfl⟩ := Option.map_eq_some_iff.mp (Option.mem_toList.mp ht)
      rfl
  · intro _
    trivial

end GitlabReviewer.Live
