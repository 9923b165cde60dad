import GitlabReviewer.Queue.Operations

/-! # Workers and cleanups leave the lists alone

A worker writes the row of a job that left the queue when it was claimed, and
closes by renumbering. Whatever raises on the way, and in its cleanup, the two
lists stay.
-/
namespace GitlabReviewer.Queue
open Python Foundation Models Scheduling Reviews Lifecycle

variable {α β : Type} {w : World} {q : Queues}

/-- The program leaves both lists as they are. -/
abbrev KeepsLists (q : Queues) (p : Tx α) : Prop := Program.Keeps mayRaise (fun w => Ordered w q) p

theorem carries_of_keeps (h : Ordered w q) {p : Tx α} (hp : KeepsLists q p) :
    Carries w p fun _ _ q' => q' = q := by
  refine Program.Ensures.mono (hp w h) ?_
  intro x w' hw'
  exact ⟨q, hw', fun _ _ => rfl⟩

theorem Ordered.same_jobs (h : Ordered w q) {w' : World} (hjobs : w'.jobs = w.jobs)
    (hruns : (w'.runs.map (·.id)).Nodup) (hlocked : w'.locked = w.locked) (hclaims : w'.claims = w.claims) :
    Ordered w' q := by
  have hjob : ∀ i, w'.job? i = w.job? i := by
    intro i
    unfold World.job?
    rw [hjobs]
  have hrank : ∀ ty, w'.rank ty = w.rank ty := by
    intro ty
    funext i
    unfold World.rank
    rw [hjob]
  constructor
  · exact ⟨hjobs ▸ h.good.jobIds, hruns⟩
  · rw [hlocked, h.unlocked]
  · intro ty
    rw [hrank ty]
    exact h.ranks ty
  · intro ty
    rw [hrank ty]
    exact h.positive ty
  · intro i hi
    unfold World.jobStatus
    rw [hjob]
    exact h.claimed i (hclaims ▸ hi)

/-- A job outside both lists is not queued. -/
theorem Ordered.status_of_not_mem (h : Ordered w q) {i : ℕ} (hi : ∀ ty, i ∉ q.of ty) :
    w.jobStatus i ≠ some .queued := by
  intro hs
  obtain ⟨row, hrow, hst⟩ := Option.map_eq_some_iff.mp hs
  obtain rfl := job?_id hrow
  exact hi row.scheduleType (mem_of_queuedAs h hrow (queuedAs_iff.mpr ⟨rfl, hst⟩))

theorem Ordered.not_mem_of_status (h : Ordered w q) {i : ℕ} (hi : w.jobStatus i ≠ some .queued)
    (ty : ScheduleType) : i ∉ q.of ty := by
  rw [(h.ranks ty).mem, rank_of_status hi]
  simp

/-- The rows of a session that wrote only jobs outside the lists. -/
structure Outside (q : Queues) (t : Tracked ScheduledJob) : Prop where
  id : t.mem.id = t.base.id
  out : ∀ ty, t.mem.id ∉ q.of ty

theorem Outside.load {row : ScheduledJob} (h : ∀ ty, row.id ∉ q.of ty) : Outside q (Tracked.load row) :=
  ⟨rfl, h⟩
theorem Outside.committed {t : Tracked ScheduledJob} (h : Outside q t) : Outside q t.committed :=
  ⟨rfl, h.out⟩
theorem Outside.setStatus {t : Tracked ScheduledJob} (h : Outside q t) (st : JobStatus) (now : Timestamp) :
    Outside q (setStatus st now t) := ⟨h.id, h.out⟩

theorem keeps_select {site : Site} {query : World → α} {f : α → Tx β}
    (hf : ∀ w, KeepsLists q (f (query w))) : KeepsLists q (select site query >>= f) :=
  .atomic_bind (fun _ h => ⟨rfl, h⟩) fun w _ => hf w

theorem keeps_commit {site : Site} {jobs : List (Tracked ScheduledJob)} {runs : List (Tracked ReviewRun)}
    (hj : ∀ t ∈ jobs, Outside q t) (hq : NeverRequeues jobs) (hr : KeysKept runs) :
    KeepsLists q (commit site jobs runs) := by
  apply Program.Keeps.atomic
  intro w h
  refine ⟨h.ready jobs, h.commit_unqueued (fun t ht => (hj t ht).id) hr hq ?_⟩
  intro t ht
  exact h.status_of_not_mem (hj t ht).out

theorem keeps_compactPositions {site : Site} {session : List (Tracked ScheduledJob)}
    (hs : ∀ t ∈ session, Outside q t) : KeepsLists q (compactPositions site session) := by
  intro w h
  have hcurrent : Current w session :=
    current_of_status fun t ht => h.status_of_not_mem (hs t ht).out
  refine ⟨rfl, ?_, fun _ => h⟩
  dsimp only [Program.ret_bind, id]
  rw [instances_current hcurrent h.good fun row hrow => World.mem_queuedRows.mp hrow]
  exact ⟨h.ready _, h.compacted.1, fun _ => h⟩

theorem keeps_record {act : World → World} (hact : ∀ w, Ordered w q → Ordered (act w) q) :
    KeepsLists q (record act) := by
  intro w h
  exact ⟨rfl, hact w h, fun _ => h⟩

theorem neverRequeues_setStatus {t : Tracked ScheduledJob} {st : JobStatus} (h : st ≠ .queued)
    (now : Timestamp) : NeverRequeues [setStatus st now t] :=
  neverRequeues_singleton fun he => absurd he h

theorem keeps_abandonClaim (jobId : ℕ) (now : Timestamp) : KeepsLists q (abandonClaim jobId now) := by
  refine .tryCatch (.atomic_bind (fun _ h => ⟨rfl, h⟩) ?_) fun _ => .ret ()
  intro w h
  dsimp only
  cases hrow : w.job? jobId with
  | none => exact .ret ()
  | some row =>
    dsimp only [Option.map_some]
    by_cases hst : row.status = .claimed
    · rw [if_pos (show (Tracked.load row).mem.status = .claimed from hst)]
      have hid : row.id = jobId := job?_id hrow
      have hnot : w.jobStatus row.id ≠ some .queued := by
        rw [hid, jobStatus_of hrow, hst]
        decide
      have hout : Outside q (setStatus .failed now (Tracked.load row)) :=
        (Outside.load (h.not_mem_of_status hnot)).setStatus .failed now
      refine .bind (keeps_commit (by simpa using hout) (neverRequeues_setStatus (by decide) now)
        keysKept_nil) ?_
      intro _
      exact keeps_compactPositions (by simpa using hout.committed)
    · rw [if_neg (show ¬ (Tracked.load row).mem.status = .claimed from hst)]
      exact .ret ()

theorem outside_failInFlight {t : Tracked ScheduledJob} (h : Outside q t) (now : Timestamp) :
    Outside q (failInFlight now t) := by
  unfold failInFlight
  split
  · exact h.setStatus .failed now
  · exact h

theorem neverRequeues_failInFlight (t : Tracked ScheduledJob) (h : t.mem.status = t.base.status)
    (now : Timestamp) : NeverRequeues [failInFlight now t] := by
  apply neverRequeues_singleton
  unfold failInFlight
  split
  · intro he
    cases he
  · intro he
    rwa [← h]

theorem keeps_finalizeCrashedRun (runId : ℕ) {jobId : ℕ} (hout : ∀ ty, jobId ∉ q.of ty) (now : Timestamp) :
    KeepsLists q (finalizeCrashedRun runId jobId now) := by
  refine .tryCatch (keeps_select fun w₁ => .atomic_bind (fun _ h => ⟨rfl, h⟩) ?_) fun _ => .ret ()
  intro w₂ _
  dsimp only
  rw [Option.map_map, Option.map_map]
  have hjob : ∀ t ∈ ((w₂.job? jobId).map (failInFlight now ∘ Tracked.load)).toList,
      Outside q t ∧ NeverRequeues [t] := by
    intro t ht
    obtain ⟨row, hrow, rfl⟩ := Option.map_eq_some_iff.mp (Option.mem_toList.mp ht)
    have hrowOut : Outside q (Tracked.load row) := Outside.load (job?_id hrow ▸ hout)
    exact ⟨outside_failInFlight hrowOut now, neverRequeues_failInFlight _ rfl now⟩
  refine .bind (keeps_commit (fun t ht => (hjob t ht).1) ?_ (keysKept_crashedRun now _)) ?_
  · intro t ht
    exact (hjob t ht).2 t (List.mem_singleton_self t)
  · intro _
    apply keeps_compactPositions
    intro t ht
    obtain ⟨u, hu, rfl⟩ := Option.map_eq_some_iff.mp (Option.mem_toList.mp ht)
    exact (hjob u (Option.mem_toList.mpr hu)).1.committed

theorem keeps_flushLogInflight (runId : ℕ) (lines : List Text) (now last : ℤ) :
    KeepsLists q (flushLogInflight runId lines now last) := by
  unfold flushLogInflight
  split
  · exact .ret last
  · refine .tryCatch (keeps_select fun w => ?_) fun _ => .ret last
    cases w.run? runId with
    | none => exact .ret now
    | some run =>
      refine .bind (keeps_commit (by simp) neverRequeues_nil ?_) fun _ => .ret now
      simp

theorem keeps_streamLog (runId : ℕ) (secrets : List Text) (chunks : List LogChunk) (lines : List Text)
    (last : ℤ) : KeepsLists q (streamLog runId secrets chunks lines last) := by
  induction chunks generalizing lines last with
  | nil => exact .ret lines
  | cons chunk chunks ih =>
    refine .bind (keeps_flushLogInflight _ _ _ _) ?_
    intro last'
    exact ih _ last'

theorem finalJobStatus_ne_queued (st : RunStatus) : finalJobStatus st ≠ .queued := by
  cases st <;> decide

/-- The last two commits of an execution, whatever the run then is. -/
theorem keeps_finalCommit {t : Tracked ScheduledJob} (ht : Outside q t) (st : RunStatus) (now : Timestamp)
    {u : Tracked ReviewRun} (hu : u.mem.id = u.base.id) :
    KeepsLists q (do
      commit .execution [setStatus (finalJobStatus st) now t] [u]
      compactPositions .execution [(setStatus (finalJobStatus st) now t).committed]) := by
  have hset : Outside q (setStatus (finalJobStatus st) now t) := ht.setStatus _ now
  refine .bind (keeps_commit (by simpa using hset)
    (neverRequeues_setStatus (finalJobStatus_ne_queued st) now) (by simpa using hu)) ?_
  intro _
  exact keeps_compactPositions (by simpa using hset.committed)

theorem keeps_applyOutcome (ex : Execution) (mrIid : Option ℤ) {run : Tracked ReviewRun}
    (hrun : run.mem.id = run.base.id) {job : Tracked ScheduledJob} (hjob : Outside q job)
    (outcome : RunOutcome) : KeepsLists q (applyOutcome ex mrIid run job outcome) := by
  have hnote : ∀ call, KeepsLists q (record (recordNote call)) := fun call =>
    keeps_record fun w h => h.same_jobs rfl h.good.runIds rfl rfl
  unfold applyOutcome
  dsimp only
  split
  · unfold postToGitlab
    cases mrIid with
    | none => exact keeps_finalCommit hjob _ _ hrun
    | some iid =>
      cases ex.note with
      | error message =>
        simp only [Program.bind_eq, Program.bind_assoc]
        exact .bind (hnote _) fun _ => keeps_finalCommit hjob _ _ hrun
      | ok noteId =>
        simp only [Program.bind_eq, Program.bind_assoc]
        exact .bind (hnote _) fun _ => keeps_finalCommit hjob _ _ hrun
  · exact keeps_finalCommit hjob _ _ hrun

theorem keeps_executeJob (ex : Execution) (run : ReviewRun) {job : Tracked ScheduledJob}
    (hjob : Outside q job) : KeepsLists q (executeJob ex (Tracked.load run) job) := by
  have hrunning : Outside q (setStatus .running ex.startedAt job) := hjob.setStatus _ _
  refine .bind (keeps_commit (by simpa using hrunning) (neverRequeues_setStatus (by decide) _)
    (by simp [started])) ?_
  intro _
  refine keeps_select fun _ => ?_
  split
  · refine .bind (keeps_record fun w h => h.same_jobs rfl h.good.runIds rfl rfl) ?_
    intro _
    refine .bind (keeps_streamLog _ _ _ _ _) ?_
    intro lines
    exact keeps_applyOutcome ex _ rfl hrunning.committed _
  · exact keeps_applyOutcome ex _ rfl hrunning.committed _

theorem keeps_worker (ex : Execution) (runId : ℕ) {jobId : ℕ} (hout : ∀ ty, jobId ∉ q.of ty) :
    KeepsLists q (worker ex runId jobId) := by
  have hopen : ∀ w, Ordered w q → Ordered { w with opened := runId :: w.opened } q := fun w h =>
    h.same_jobs rfl h.good.runIds rfl rfl
  refine .bind (.tryCatch (.atomic_bind (fun w h => ⟨rfl, hopen w h⟩) ?_) ?_) ?_
  · intro w₁ _
    refine .atomic_bind (fun _ h => ⟨rfl, h⟩) ?_
    intro w₂ _
    cases w₁.run? runId with
    | none => exact .ret ()
    | some run =>
      cases hrow : w₂.job? jobId with
      | none => exact .ret ()
      | some row => exact keeps_executeJob ex run (Outside.load (job?_id hrow ▸ hout))
  · intro _
    exact keeps_finalizeCrashedRun runId hout ex.finishedAt
  · intro _
    exact keeps_record fun w h => h.same_jobs rfl h.good.runIds rfl rfl

theorem keeps_createRun (job : ScheduledJob) (now : Timestamp) : KeepsLists q (createRun job now) := by
  apply Program.Keeps.atomic
  intro w h
  exact ⟨rfl, h.same_jobs rfl (good_insertRun _ h.good).runIds rfl rfl⟩

/-- Cancelling a job in flight. -/
theorem carries_cancelInflight (h : Ordered w q) {row : ScheduledJob} (hrow : w.job? row.id = some row)
    (now : Timestamp) : Carries w (cancelInflight (Tracked.load row) now) fun _ _ q' => q' = q := by
  apply carries_of_keeps h
  unfold cancelInflight
  split
  · exact .raise _
  rename_i hflight
  have hnot : w.jobStatus row.id ≠ some .queued := by
    rw [jobStatus_of hrow]
    intro hq
    have hst : row.status = .queued := Option.some.inj hq
    simp [hst, JobStatus.inFlight] at hflight
  have hout : Outside q (setStatus .cancelled now (Tracked.load row)) :=
    (Outside.load (h.not_mem_of_status hnot)).setStatus .cancelled now
  refine keeps_select fun w₁ => ?_
  refine .bind (keeps_commit (by simpa using hout) (neverRequeues_setStatus (by decide) now) ?_) ?_
  · cases runningRun (Tracked.load row).mem.id w₁ <;> simp [cancelledRun]
  · intro _
    exact .bind (keeps_compactPositions (by simpa using hout.committed)) fun _ => .ret _

end GitlabReviewer.Queue
