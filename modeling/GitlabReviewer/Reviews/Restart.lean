import GitlabReviewer.Reviews.Recovery
import GitlabReviewer.Scheduling.Renumbering

/-! # Recovery restores the resting state

Whatever mix of rows a crash left, `recoverOrphans` ends every running run and
every job in flight, and writes nothing else but the positions of the queue.
The rows its first loop loads and the rows its second select finds together are
exactly the jobs in flight, each once.
-/
namespace GitlabReviewer.Reviews
open Python Foundation Models Scheduling

/-- Nothing is in flight. -/
structure Rests (w : World) : Prop where
  runs : ∀ run ∈ w.runs, run.status ≠ .running
  jobs : ∀ job ∈ w.jobs, job.status.inFlight = false

def failedJob (now : Timestamp) (job : ScheduledJob) : ScheduledJob :=
  if job.status.inFlight then { job with status := .failed, updatedAt := some now } else job

def interruptedRun (now : Timestamp) (run : ReviewRun) : ReviewRun :=
  if run.status = .running then
    { run with status := .error, errorMessage := some interruptedMessage, finishedAt := some now }
  else run

/-- The database between the commit of the recovery and its compaction. -/
def interrupted (now : Timestamp) (w : World) : World :=
  { w with jobs := w.jobs.map (failedJob now), runs := w.runs.map (interruptedRun now) }

section Rows
variable {now : Timestamp}

theorem failInFlight_load (row : ScheduledJob) :
    failInFlight now (Tracked.load row) = ⟨row, failedJob now row⟩ := by
  unfold failInFlight failedJob
  by_cases h : row.status.inFlight = true
  · rw [if_pos (show (Tracked.load row).mem.status.inFlight = true from h), if_pos h]
    rfl
  · rw [if_neg (show ¬ (Tracked.load row).mem.status.inFlight = true from h), if_neg h]
    rfl

@[simp] theorem failedJob_id (job : ScheduledJob) : (failedJob now job).id = job.id := by
  unfold failedJob
  split <;> rfl

@[simp] theorem interruptedRun_id (run : ReviewRun) : (interruptedRun now run).id = run.id := by
  unfold interruptedRun
  split <;> rfl

theorem failedJob_not_inFlight (job : ScheduledJob) : (failedJob now job).status.inFlight = false := by
  unfold failedJob
  split
  · rfl
  · rename_i h
    simpa using h

theorem failedJob_of_rests {job : ScheduledJob} (h : job.status.inFlight = false) : failedJob now job = job := by
  simp [failedJob, h]

theorem interruptedRun_not_running (run : ReviewRun) : (interruptedRun now run).status ≠ .running := by
  unfold interruptedRun
  split
  · simp
  · assumption

/-- A second visit of the same job changes nothing. -/
theorem failInFlight_failedJob (row : ScheduledJob) :
    failInFlight now (⟨row, failedJob now row⟩ : Tracked ScheduledJob) = ⟨row, failedJob now row⟩ := by
  have h : (failedJob now row).status.inFlight = false := failedJob_not_inFlight row
  simp [failInFlight, h]

theorem queuedAs_failedJob (ty : ScheduleType) (job : ScheduledJob) :
    queuedAs ty (failedJob now job) = queuedAs ty job := by
  unfold failedJob
  split
  · rename_i h
    have hne : job.status ≠ .queued := by
      intro hq
      rw [hq] at h
      cases h
    have hold : (job.status == .queued) = false := by simpa using hne
    have hnew : (JobStatus.failed == JobStatus.queued) = false := by decide
    simp only [queuedAs, hold, hnew]
  · rfl

theorem failedJob_of_queued {ty : ScheduleType} {job : ScheduledJob} (h : queuedAs ty job = true) :
    failedJob now job = job := by
  apply failedJob_of_rests
  rw [(queuedAs_iff.mp h).2]
  rfl

end Rows

/-- What the session holds after the first loop: rows as they are stored, the
ones in flight marked as failed. -/
def Marked (now : Timestamp) (w : World) (session : List (Tracked ScheduledJob)) : Prop :=
  ∀ t ∈ session, ∃ row, w.job? row.id = some row ∧ t = ⟨row, failedJob now row⟩

section Passes
variable {w : World} {now : Timestamp}

theorem marked_nil : Marked now w [] := by simp [Marked]

theorem Marked.held {session : List (Tracked ScheduledJob)} (h : Marked now w session) {row : ScheduledJob}
    (hrow : w.job? row.id = some row) {t : Tracked ScheduledJob} (ht : held session row.id = some t) :
    t = ⟨row, failedJob now row⟩ := by
  obtain ⟨hmem, hkey⟩ := held_mem ht
  obtain ⟨row', hrow', rfl⟩ := h t hmem
  have hid : row'.id = row.id := (failedJob_id row').symm.trans hkey
  rw [hid, hrow] at hrow'
  rw [Option.some.inj hrow']

/-- The first loop loads the jobs of the orphaned runs and changes no row. -/
theorem orphanJobs_run (runs : List (Tracked ReviewRun)) {session : List (Tracked ScheduledJob)}
    (h : Marked now w session) :
    ∃ session', (orphanJobs now runs session).run w = some (.ok session', w) ∧ Marked now w session' := by
  induction runs generalizing session with
  | nil => exact ⟨session, rfl, h⟩
  | cons run runs ih =>
    unfold orphanJobs
    split
    · apply ih
      intro t ht
      obtain ⟨u, hu, rfl⟩ := List.mem_map.mp ht
      obtain ⟨row, hrow, rfl⟩ := h u hu
      refine ⟨row, hrow, ?_⟩
      rw [failInFlight_failedJob]
      split <;> rfl
    · cases hjob : w.job? run.mem.scheduledJobId with
      | none =>
        obtain ⟨session', hrun, hmarked⟩ := ih h
        refine ⟨session', ?_, hmarked⟩
        rw [Program.bind_eq, Program.run_bind_ok (show (getJob .cleanup _).run w = some (.ok none, w) by
          simp [getJob, select, hjob])]
        exact hrun
      | some row =>
        have hrow : w.job? row.id = some row := by
          rw [job?_id hjob]
          exact hjob
        have hext : Marked now w (session ++ [failInFlight now (Tracked.load row)]) := by
          intro t ht
          rcases List.mem_append.mp ht with ht | ht
          · exact h t ht
          · obtain rfl := List.mem_singleton.mp ht
            exact ⟨row, hrow, failInFlight_load row⟩
        obtain ⟨session', hrun, hmarked⟩ := ih hext
        refine ⟨session', ?_, hmarked⟩
        rw [Program.bind_eq, Program.run_bind_ok (show (getJob .cleanup _).run w =
          some (.ok (some (Tracked.load row)), w) by simp [getJob, select, hjob])]
        exact hrun

/-- The rows the second select finds, in the state the flush left. -/
def leftInFlight (w : World) (session : List (Tracked ScheduledJob)) (runs : List (Tracked ReviewRun)) :
    List ScheduledJob :=
  (w.commitRows session runs).jobs.filter fun job => job.status.inFlight

/-- It finds the jobs in flight that the session does not hold yet. -/
theorem mem_leftInFlight (hw : Good w) {session : List (Tracked ScheduledJob)} (h : Marked now w session)
    (runs : List (Tracked ReviewRun)) {row : ScheduledJob} : row ∈ leftInFlight w session runs ↔
      row ∈ w.jobs ∧ row.status.inFlight = true ∧ held session row.id = none := by
  unfold leftInFlight World.commitRows store
  rw [List.mem_filter, List.mem_map]
  constructor
  · rintro ⟨⟨row', hmem, rfl⟩, hflight⟩
    cases hheld : held session row'.id with
    | none =>
      rw [overlay_none row' hheld] at hflight ⊢
      exact ⟨hmem, hflight, hheld⟩
    | some t =>
      obtain rfl := h.held (job?_of_mem hw hmem) hheld
      rw [overlay_untouched (t := ⟨row', failedJob now row'⟩) hheld, failedJob_not_inFlight] at hflight
      cases hflight
  · rintro ⟨hmem, hflight, hheld⟩
    exact ⟨⟨row, hmem, overlay_none row hheld⟩, hflight⟩

theorem instances_leftInFlight (hw : Good w) {session : List (Tracked ScheduledJob)} (h : Marked now w session)
    (runs : List (Tracked ReviewRun)) :
    instances session (leftInFlight w session runs) = (leftInFlight w session runs).map Tracked.load := by
  refine List.map_congr_left ?_
  intro row hrow
  rw [((mem_leftInFlight hw h runs).mp hrow).2.2]
  rfl

/-- All rows the recovery writes. -/
def recoveredJobs (now : Timestamp) (w : World) (session : List (Tracked ScheduledJob))
    (runs : List (Tracked ReviewRun)) : List (Tracked ScheduledJob) :=
  (instances session (leftInFlight w session runs)).map (setStatus .failed now) ++ session

theorem marked_recoveredJobs (hw : Good w) {session : List (Tracked ScheduledJob)} (h : Marked now w session)
    (runs : List (Tracked ReviewRun)) : Marked now w (recoveredJobs now w session runs) := by
  intro t ht
  unfold recoveredJobs at ht
  rw [instances_leftInFlight hw h] at ht
  rcases List.mem_append.mp ht with ht | ht
  · rw [List.map_map] at ht
    obtain ⟨row, hrow, rfl⟩ := List.mem_map.mp ht
    obtain ⟨hmem, hflight, -⟩ := (mem_leftInFlight hw h runs).mp hrow
    refine ⟨row, job?_of_mem hw hmem, ?_⟩
    rw [← failInFlight_load, failInFlight, if_pos (show (Tracked.load row).mem.status.inFlight = true from hflight)]
    rfl
  · exact h t ht

/-- Every job in flight is among them. -/
theorem held_recoveredJobs (hw : Good w) {session : List (Tracked ScheduledJob)} (h : Marked now w session)
    (runs : List (Tracked ReviewRun)) {row : ScheduledJob} (hmem : row ∈ w.jobs)
    (hflight : row.status.inFlight = true) :
    (held (recoveredJobs now w session runs) row.id).isSome = true := by
  have hin : ∃ t ∈ recoveredJobs now w session runs, t.mem.id = row.id := by
    unfold recoveredJobs
    rw [instances_leftInFlight hw h]
    cases hheld : held session row.id with
    | none =>
      have hrow := (mem_leftInFlight hw h runs).mpr ⟨hmem, hflight, hheld⟩
      exact ⟨_, List.mem_append_left _ (List.mem_map_of_mem (List.mem_map_of_mem hrow)), rfl⟩
    | some t => exact ⟨t, List.mem_append_right _ (held_mem hheld).1, (held_mem hheld).2⟩
  obtain ⟨t, ht, hid⟩ := hin
  unfold held
  rw [List.find?_isSome]
  exact ⟨t, ht, by simpa using hid⟩

theorem store_recoveredJobs (hw : Good w) {session : List (Tracked ScheduledJob)} (h : Marked now w session)
    (runs : List (Tracked ReviewRun)) :
    store (recoveredJobs now w session runs) w.jobs = w.jobs.map (failedJob now) := by
  refine List.map_congr_left ?_
  intro row hmem
  have hrow := job?_of_mem hw hmem
  cases hheld : held (recoveredJobs now w session runs) row.id with
  | none =>
    have hrest : row.status.inFlight = false := by
      by_contra hne
      have hsome := held_recoveredJobs hw h runs hmem (by simpa using hne)
      rw [hheld] at hsome
      cases hsome
    rw [overlay_none row hheld, failedJob_of_rests hrest]
  | some t =>
    obtain rfl := (marked_recoveredJobs hw h runs).held hrow hheld
    exact overlay_untouched (t := ⟨row, failedJob now row⟩) hheld

/-- The running runs, as the recovery writes them. -/
def orphans (w : World) : List (Tracked ReviewRun) :=
  (w.runs.filter fun run => run.status == .running).map Tracked.load

theorem store_orphans (hw : Good w) (stop : ℕ → Except Text Unit) :
    store ((orphans w).map (stopAndFinalize stop now)) w.runs = w.runs.map (interruptedRun now) := by
  refine List.map_congr_left ?_
  intro run hmem
  have hnodup : ((w.runs.filter fun run => run.status == .running).map Columns.key).Nodup :=
    hw.runIds.sublist (List.filter_sublist.map _)
  have hheld : held ((orphans w).map (stopAndFinalize stop now)) run.id =
      (lookup (w.runs.filter fun run => run.status == .running) run.id).map
        fun run => orphanedRun now (Tracked.load run) := by
    unfold orphans
    rw [List.map_map, ← held_map (f := fun run => orphanedRun now (Tracked.load run)) fun _ => rfl]
    congr 1
    refine List.map_congr_left ?_
    intro run' _
    exact stopAndFinalize_eq stop now (Tracked.load run')
  unfold interruptedRun
  by_cases hst : run.status = .running
  · have hlookup : lookup (w.runs.filter fun run => run.status == .running) run.id = some run := by
      rw [lookup_eq_some_iff hnodup, List.mem_filter]
      exact ⟨⟨hmem, by simpa using hst⟩, rfl⟩
    rw [hlookup] at hheld
    rw [if_pos hst]
    exact overlay_untouched (t := orphanedRun now (Tracked.load run)) hheld
  · have hlookup : lookup (w.runs.filter fun run => run.status == .running) run.id = none := by
      cases hl : lookup (w.runs.filter fun run => run.status == .running) run.id with
      | none => rfl
      | some run' =>
        obtain ⟨hmem', hid⟩ := (lookup_eq_some_iff hnodup).mp hl
        have hrun : run' = run := by
          have h' := run?_of_mem hw (List.mem_of_mem_filter hmem')
          have hid' : run'.id = run.id := hid
          rw [hid', run?_of_mem hw hmem] at h'
          exact (Option.some.inj h').symm
        rw [hrun] at hmem'
        exact absurd (by simpa using (List.mem_filter.mp hmem').2) hst
    rw [hlookup] at hheld
    rw [if_neg hst]
    exact overlay_none run hheld

end Passes

section Interrupted
variable {w : World} {now : Timestamp}

theorem good_interrupted (hw : Good w) : Good (interrupted now w) := by
  constructor
  · have hids : (interrupted now w).jobs.map (·.id) = w.jobs.map (·.id) := by
      simp [interrupted, Function.comp_def]
    rw [hids]
    exact hw.jobIds
  · have hids : (interrupted now w).runs.map (·.id) = w.runs.map (·.id) := by
      simp [interrupted, Function.comp_def]
    rw [hids]
    exact hw.runIds

theorem job?_interrupted (w : World) (now : Timestamp) (i : ℕ) :
    (interrupted now w).job? i = (w.job? i).map (failedJob now) := by
  unfold interrupted World.job? lookup
  rw [List.find?_map]
  congr 2
  funext job
  simp

theorem rests_interrupted : Rests (interrupted now w) := by
  constructor
  · intro run hrun
    obtain ⟨run', -, rfl⟩ := List.mem_map.mp hrun
    exact interruptedRun_not_running run'
  · intro job hjob
    obtain ⟨job', -, rfl⟩ := List.mem_map.mp hjob
    exact failedJob_not_inFlight job'

theorem queuedRows_interrupted (w : World) (now : Timestamp) (ty : ScheduleType) :
    (interrupted now w).queuedRows ty = w.queuedRows ty := by
  have hrows : (w.jobs.map (failedJob now)).filter (queuedAs ty) = w.jobs.filter (queuedAs ty) := by
    have hpred : queuedAs ty ∘ failedJob now = queuedAs ty := by
      funext job
      exact queuedAs_failedJob ty job
    rw [List.filter_map, hpred]
    refine (List.map_congr_left ?_).trans (List.map_id _)
    intro job hjob
    exact failedJob_of_queued (List.mem_filter.mp hjob).2
  unfold World.queuedRows interrupted
  rw [hrows]

/-- The session of the recovery is current for the compaction that follows. -/
theorem current_interrupted {jobs : List (Tracked ScheduledJob)} (h : Marked now w jobs) :
    Current (interrupted now w) (jobs.map Tracked.committed) := by
  intro t ht row hrow hq
  obtain ⟨u, hu, rfl⟩ := List.mem_map.mp ht
  obtain ⟨row', hrow', rfl⟩ := h u hu
  have hid : (Tracked.committed (⟨row', failedJob now row'⟩ : Tracked ScheduledJob)).mem.id = row'.id :=
    failedJob_id row'
  rw [hid, job?_interrupted, hrow', Option.map_some] at hrow
  rw [← Option.some.inj hrow]
  rfl

theorem rests_commitRows {jobs : List (Tracked ScheduledJob)} (h : Rests w)
    (hj : ∀ t ∈ jobs, t.mem.status = t.base.status) : Rests (w.commitRows jobs []) := by
  constructor
  · intro run hrun
    have hmem : run ∈ w.runs := by simpa [World.commitRows] using hrun
    exact h.runs run hmem
  · intro job hjob
    obtain ⟨row, hrow, rfl⟩ := List.mem_map.mp hjob
    have hst : (overlay jobs row).status = row.status := by
      cases hheld : held jobs row.id with
      | none => rw [overlay_none row hheld]
      | some t =>
        rw [overlay_held row hheld, merge_job_status, hj t (held_mem hheld).1, written_self]
    rw [hst]
    exact h.jobs row hrow

end Interrupted

section Recovery
variable {w : World}

theorem leftInFlight_of_rests (h : Rests w) : leftInFlight w [] [] = [] := by
  unfold leftInFlight World.commitRows
  rw [store_nil, List.filter_eq_nil_iff]
  intro job hjob
  rw [h.jobs job hjob]
  simp

theorem orphans_eq_nil : orphans w = [] ↔ ∀ run ∈ w.runs, run.status ≠ .running := by
  simp [orphans, List.filter_eq_nil_iff]

theorem length_instances (session : List (Tracked ScheduledJob)) (rows : List ScheduledJob) :
    (instances session rows).length = rows.length := List.length_map _

/-- What follows the two passes. -/
def closing (stop : ℕ → Except Text Unit) (now : Timestamp) (w : World)
    (session : List (Tracked ScheduledJob)) : Tx ℕ :=
  let runs := (orphans w).map (stopAndFinalize stop now)
  let fixed := (orphans w).length + (instances session (leftInFlight w session runs)).length
  if fixed = 0 then .ret fixed
  else do
    commit .cleanup (recoveredJobs now w session runs) runs
    compactPositions .cleanup ((recoveredJobs now w session runs).map Tracked.committed)
    .ret fixed

theorem recoverOrphans_run {session : List (Tracked ScheduledJob)} {now : Timestamp}
    (h : (orphanJobs now (orphans w) []).run w = some (.ok session, w)) (stop : ℕ → Except Text Unit) :
    (recoverOrphans stop now).run w = (closing stop now w session).run w := by
  show (Program.bind (orphanJobs now (orphans w) []) _).run w = _
  rw [Program.run_bind_ok h]
  rfl

/-- With nothing in flight the recovery writes nothing. -/
theorem recoverOrphans_rests (h : Rests w) (stop : ℕ → Except Text Unit) (now : Timestamp) :
    (recoverOrphans stop now).run w = some (.ok 0, w) := by
  have hnone : orphans w = [] := orphans_eq_nil.mpr h.runs
  have hsession : (orphanJobs now (orphans w) []).run w = some (.ok [], w) := by
    rw [hnone]
    rfl
  have hleft := leftInFlight_of_rests h
  rw [recoverOrphans_run hsession, closing, hnone]
  simp only [List.map_nil, hleft]
  rfl

/-- What a recovery leaves of each row. -/
structure Recovered (now : Timestamp) (w w' : World) : Prop where
  runs : w'.runs = w.runs.map (interruptedRun now)
  jobIds : w'.jobs.map (·.id) = w.jobs.map (·.id)
  inFlight : ∀ i job, w.job? i = some job → job.status.inFlight = true →
    w'.job? i = some { job with status := .failed, updatedAt := some now }
  queued : ∀ i job, w.job? i = some job → queuedAs .immediate job = true →
    ∃ p, w'.job? i = some { job with position := p }
  others : ∀ i job, w.job? i = some job → job.status.inFlight = false →
    queuedAs .immediate job = false → w'.job? i = some job

theorem recovered_rests (h : Rests w) (now : Timestamp) : Recovered now w w := by
  constructor
  · refine ((List.map_congr_left ?_).trans (List.map_id _)).symm
    intro run hrun
    simp [interruptedRun, h.runs run hrun]
  · rfl
  · intro i job hjob hflight
    rw [h.jobs job (job?_mem hjob)] at hflight
    cases hflight
  · intro i job hjob _
    exact ⟨job.position, hjob⟩
  · intro i job hjob _ _
    exact hjob

theorem rests_of_nothing_left (hw : Good w) {session : List (Tracked ScheduledJob)} {now : Timestamp}
    (hrun : (orphanJobs now (orphans w) []).run w = some (.ok session, w)) (hmarked : Marked now w session)
    (runs : List (Tracked ReviewRun))
    (h : (orphans w).length + (leftInFlight w session runs).length = 0) : Rests w := by
  have hnone : orphans w = [] := List.eq_nil_of_length_eq_zero (by omega)
  have hleft : leftInFlight w session runs = [] := List.eq_nil_of_length_eq_zero (by omega)
  have hempty : session = [] := by
    rw [hnone] at hrun
    have hpair := Option.some.inj hrun
    exact (Except.ok.inj (congrArg Prod.fst hpair)).symm
  constructor
  · exact orphans_eq_nil.mp hnone
  · intro job hjob
    by_contra hflight
    have hmem : job ∈ leftInFlight w session runs := by
      rw [mem_leftInFlight hw hmarked]
      refine ⟨hjob, by simpa using hflight, ?_⟩
      rw [hempty]
      rfl
    rw [hleft] at hmem
    cases hmem

/-- The database after the compaction that closes a recovery. -/
def recovered (now : Timestamp) (w : World) : World :=
  (interrupted now w).commitRows
    (renumber (((interrupted now w).queuedRows .immediate).map Tracked.load)) []

theorem closing_run (hw : Good w) (hl : w.locked = []) {session : List (Tracked ScheduledJob)}
    {now : Timestamp} (h : Marked now w session) (stop : ℕ → Except Text Unit) {n : ℕ}
    (hn : n = (orphans w).length +
      (leftInFlight w session ((orphans w).map (stopAndFinalize stop now))).length) (hpos : n ≠ 0) :
    (closing stop now w session).run w = some (.ok n, recovered now w) := by
  have hready : w.unlocked (recoveredJobs now w session ((orphans w).map (stopAndFinalize stop now))) = true := by
    simp [World.unlocked, hl]
  have hstore : w.commitRows (recoveredJobs now w session ((orphans w).map (stopAndFinalize stop now)))
      ((orphans w).map (stopAndFinalize stop now)) = interrupted now w := by
    unfold World.commitRows interrupted
    rw [store_recoveredJobs hw h, store_orphans hw]
  have hcommit : (commit .cleanup (recoveredJobs now w session ((orphans w).map (stopAndFinalize stop now)))
      ((orphans w).map (stopAndFinalize stop now))).run w = some (.ok (), interrupted now w) := by
    unfold commit
    rw [Program.run_atomic, if_pos hready, hstore]
  have hgood : Good (interrupted now w) := good_interrupted hw
  have hcompact := run_compactPositions hgood hl .cleanup
    (current_interrupted (marked_recoveredJobs hw h ((orphans w).map (stopAndFinalize stop now))))
  unfold closing
  dsimp only
  rw [length_instances, ← hn, if_neg hpos, Program.bind_eq, Program.run_bind_ok hcommit, Program.bind_eq,
    Program.run_bind_ok hcompact]
  rfl

theorem rests_recovered (hw : Good w) (now : Timestamp) : Rests (recovered now w) := by
  have hgood : Good (interrupted now w) := good_interrupted hw
  have hrenumber := repositions_renumber hgood
  exact rests_commitRows rests_interrupted hrenumber.status

theorem queue_recovered (hw : Good w) (now : Timestamp) :
    (recovered now w).queue .immediate = w.queue .immediate := by
  have hgood : Good (interrupted now w) := good_interrupted hw
  have hrenumber := repositions_renumber hgood
  have hqueue := hrenumber.queue hgood
  unfold recovered
  rw [hqueue, World.queue, queuedRows_interrupted, World.queue]

theorem recovered_recovered (hw : Good w) (now : Timestamp) : Recovered now w (recovered now w) := by
  have hgood : Good (interrupted now w) := good_interrupted hw
  have hrenumber := repositions_renumber hgood
  have hqueued : ∀ {i : ℕ} {job : ScheduledJob}, (interrupted now w).job? i = some job →
      (i ∈ (interrupted now w).queue .immediate ↔ queuedAs .immediate job = true) := by
    intro i job hjob
    rw [mem_queue hgood, rank_of hjob, placeIn]
    split <;> simp_all
  constructor
  · unfold recovered World.commitRows
    rw [store_nil]
    rfl
  · have hkeys := keys_store hrenumber.fresh.keysKept (interrupted now w).jobs
    have hids : (interrupted now w).jobs.map Columns.key = w.jobs.map Columns.key := by
      simp [interrupted, Function.comp_def]
    exact hkeys.trans hids
  · intro i job hjob hflight
    have hint : (interrupted now w).job? i = some { job with status := .failed, updatedAt := some now } := by
      rw [job?_interrupted, hjob, Option.map_some, failedJob, if_pos hflight]
    have hout : i ∉ (interrupted now w).queue .immediate := by
      rw [hqueued hint]
      simp [queuedAs]
    unfold recovered
    rw [hrenumber.job?, if_neg hout, hint]
  · intro i job hjob hq
    have hint : (interrupted now w).job? i = some job := by
      rw [job?_interrupted, hjob, Option.map_some, failedJob_of_queued hq]
    unfold recovered
    rw [hrenumber.job?, if_pos ((hqueued hint).mpr hq), hint]
    exact ⟨_, rfl⟩
  · intro i job hjob hflight hq
    have hint : (interrupted now w).job? i = some job := by
      rw [job?_interrupted, hjob, Option.map_some, failedJob_of_rests hflight]
    have hout : i ∉ (interrupted now w).queue .immediate := by
      rw [hqueued hint]
      simpa using hq
    unfold recovered
    rw [hrenumber.job?, if_neg hout, hint]

end Recovery

theorem recovery_restores {w : World} (hw : Good w) (hl : w.locked = []) (stop : ℕ → Except Text Unit)
    (now : Timestamp) :
    ∃ n w', (recoverOrphans stop now).run w = some (.ok n, w') ∧ Rests w' ∧ Recovered now w w' ∧
      w'.queue .immediate = w.queue .immediate ∧ (n ≠ 0 → Dense w') ∧ (n = 0 ↔ Rests w) ∧
      (n = 0 → w' = w) ∧ ∀ stop' now', (recoverOrphans stop' now').run w' = some (.ok 0, w') := by
  have hnil : Marked now w [] := marked_nil
  obtain ⟨session, hrun, hmarked⟩ := orphanJobs_run (orphans w) hnil
  by_cases hrests : Rests w
  · refine ⟨0, w, recoverOrphans_rests hrests stop now, hrests, recovered_rests hrests now, rfl, ?_, ?_, ?_, ?_⟩
    · intro hne
      exact absurd rfl hne
    · simp [hrests]
    · intro _
      rfl
    · exact recoverOrphans_rests hrests
  · obtain ⟨n, hn⟩ : ∃ n, n = (orphans w).length +
        (leftInFlight w session ((orphans w).map (stopAndFinalize stop now))).length := ⟨_, rfl⟩
    have hpos : n ≠ 0 := by
      intro hzero
      exact hrests (rests_of_nothing_left hw hrun hmarked _ (hn.symm.trans hzero))
    have hafter : Rests (recovered now w) := rests_recovered hw now
    refine ⟨n, recovered now w, ?_, hafter, recovered_recovered hw now, queue_recovered hw now, ?_, ?_, ?_, ?_⟩
    · rw [recoverOrphans_run hrun, closing_run hw hl hmarked stop hn hpos]
    · intro _
      exact (repositions_renumber (good_interrupted hw)).dense (good_interrupted hw)
    · simp [hpos, hrests]
    · intro hzero
      exact absurd hzero hpos
    · exact recoverOrphans_rests hafter

/-- A job with a running run, a claim that got no run yet, and two queued jobs
at one position. -/
def crashedWorld : World :=
  { World.empty with
    jobs :=
      [⟨1, 1, 1, none, [], .immediate, 1, .running, none, none, none⟩,
       ⟨2, 1, 1, none, [], .immediate, 2, .claimed, none, none, none⟩,
       ⟨3, 1, 1, none, [], .immediate, 5, .queued, none, none, none⟩,
       ⟨4, 1, 1, none, [], .immediate, 5, .queued, none, none, none⟩]
    runs :=
      [⟨1, 1, 1, 1, .running, none, none, [], none, none, none, none, none, none, none, none⟩,
       ⟨2, 3, 1, 1, .success, none, some 0, [], none, none, none, none, none, none, none, none⟩] }

theorem recovery_restores_crashed : ∃ w',
    (recoverOrphans (fun _ => .error []) 9).run crashedWorld = some (.ok 2, w') ∧ Rests w' ∧
      w'.queue .immediate = [3, 4] ∧ Dense w' := by
  have hgood : Good crashedWorld := ⟨by decide, by decide⟩
  obtain ⟨n, w', hrun, hrests, -, hqueue, hdense, -⟩ :=
    recovery_restores hgood rfl (fun _ => .error []) 9
  have htwo : ((recoverOrphans (fun _ => .error []) 9).run crashedWorld).map Prod.fst = some (.ok 2) := rfl
  rw [hrun] at htwo
  obtain rfl : n = 2 := Except.ok.inj (Option.some.inj htwo)
  refine ⟨w', hrun, hrests, ?_, hdense (by decide)⟩
  rw [hqueue]
  rfl

end GitlabReviewer.Reviews
