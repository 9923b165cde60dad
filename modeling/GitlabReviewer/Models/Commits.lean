import GitlabReviewer.Models.World

/-! # What a commit does to the rows

The statuses, the queue types and the verdicts of the runs are the parts of the
tables that decide what happens to a job. A commit acts on each of them row by
row, and a row that another transaction has locked is left as it was.
-/
namespace GitlabReviewer.Models
open Python Foundation

/-- The part of a run that its job has to agree with. -/
structure Verdict where
  jobId : ℕ
  status : RunStatus
  exitCode : Option ℤ
  errorMessage : Option Text
  deriving DecidableEq

def ReviewRun.verdict (run : ReviewRun) : Verdict :=
  ⟨run.scheduledJobId, run.status, run.exitCode, run.errorMessage⟩

/-- No two rows of a table have the same primary key. -/
structure Good (w : World) : Prop where
  jobIds : (w.jobs.map (·.id)).Nodup
  runIds : (w.runs.map (·.id)).Nodup

namespace World
variable (w : World) (i : ℕ)

def jobStatus : Option JobStatus := (w.job? i).map (·.status)
def jobType : Option ScheduleType := (w.job? i).map (·.scheduleType)
def verdict : Option Verdict := (w.run? i).map (·.verdict)

end World

theorem good_empty : Good World.empty := ⟨List.nodup_nil, List.nodup_nil⟩

theorem job?_of_mem {w : World} (hw : Good w) {job : ScheduledJob} (h : job ∈ w.jobs) :
    w.job? job.id = some job := lookup_of_mem hw.jobIds h
theorem run?_of_mem {w : World} (hw : Good w) {run : ReviewRun} (h : run ∈ w.runs) :
    w.run? run.id = some run := lookup_of_mem hw.runIds h
theorem job?_id {w : World} {i : ℕ} {job : ScheduledJob} (h : w.job? i = some job) : job.id = i :=
  lookup_key h
theorem run?_id {w : World} {i : ℕ} {run : ReviewRun} (h : w.run? i = some run) : run.id = i :=
  lookup_key h
theorem job?_mem {w : World} {i : ℕ} {job : ScheduledJob} (h : w.job? i = some job) : job ∈ w.jobs :=
  lookup_mem h
theorem run?_mem {w : World} {i : ℕ} {run : ReviewRun} (h : w.run? i = some run) : run ∈ w.runs :=
  lookup_mem h

theorem jobStatus_of {w : World} {i : ℕ} {job : ScheduledJob} (h : w.job? i = some job) :
    w.jobStatus i = some job.status := congrArg (Option.map ScheduledJob.status) h
theorem jobType_of {w : World} {i : ℕ} {job : ScheduledJob} (h : w.job? i = some job) :
    w.jobType i = some job.scheduleType := congrArg (Option.map ScheduledJob.scheduleType) h
theorem verdict_of {w : World} {i : ℕ} {run : ReviewRun} (h : w.run? i = some run) :
    w.verdict i = some run.verdict := congrArg (Option.map ReviewRun.verdict) h

/-- The status and the verdict a commit writes over a stored one. -/
def writtenStatus (held : Option (Tracked ScheduledJob)) (stored : JobStatus) : JobStatus :=
  match held with
  | some t => written t.base.status t.mem.status stored
  | none => stored

def Verdict.merge (base mem stored : Verdict) : Verdict :=
  ⟨written base.jobId mem.jobId stored.jobId, written base.status mem.status stored.status,
    written base.exitCode mem.exitCode stored.exitCode,
    written base.errorMessage mem.errorMessage stored.errorMessage⟩

def writtenVerdict (held : Option (Tracked ReviewRun)) (stored : Verdict) : Verdict :=
  match held with
  | some t => t.base.verdict.merge t.mem.verdict stored
  | none => stored

@[simp] theorem writtenStatus_none (stored : JobStatus) : writtenStatus none stored = stored := rfl
@[simp] theorem writtenStatus_some (t : Tracked ScheduledJob) (stored : JobStatus) :
    writtenStatus (some t) stored = written t.base.status t.mem.status stored := rfl
@[simp] theorem writtenVerdict_none (stored : Verdict) : writtenVerdict none stored = stored := rfl
@[simp] theorem writtenVerdict_some (t : Tracked ReviewRun) (stored : Verdict) :
    writtenVerdict (some t) stored = t.base.verdict.merge t.mem.verdict stored := rfl
@[simp] theorem Verdict.merge_self (base stored : Verdict) : base.merge base stored = stored := by
  simp [Verdict.merge]

/-- `w'` is what the commit of a session stores over `w`. -/
structure Commits (jobs : List (Tracked ScheduledJob)) (runs : List (Tracked ReviewRun)) (w w' : World) :
    Prop where
  stored : w' = w.commitRows jobs runs
  waited : w.unlocked jobs = true
  jobKeys : KeysKept jobs
  runKeys : KeysKept runs

section CommitRows
variable {w : World} {jobs : List (Tracked ScheduledJob)} {runs : List (Tracked ReviewRun)}

theorem good_commitRows (hw : Good w) (hj : KeysKept jobs) (hr : KeysKept runs) :
    Good (w.commitRows jobs runs) :=
  ⟨(keys_store hj w.jobs).symm ▸ hw.jobIds, (keys_store hr w.runs).symm ▸ hw.runIds⟩

theorem job?_commitRows (hj : KeysKept jobs) (i : ℕ) :
    (w.commitRows jobs runs).job? i = (w.job? i).map (overlay jobs) := lookup_store hj w.jobs i
theorem run?_commitRows (hr : KeysKept runs) (i : ℕ) :
    (w.commitRows jobs runs).run? i = (w.run? i).map (overlay runs) := lookup_store hr w.runs i

theorem jobStatus_commitRows (hj : KeysKept jobs) (i : ℕ) :
    (w.commitRows jobs runs).jobStatus i = (w.jobStatus i).map (writtenStatus (held jobs i)) := by
  unfold World.jobStatus
  rw [job?_commitRows hj, Option.map_map, Option.map_map]
  refine Option.map_congr fun job h => ?_
  obtain rfl := job?_id h
  simp only [Function.comp_apply, overlay, key_job]
  cases held jobs job.id with
  | none => rfl
  | some t => rfl

theorem verdict_commitRows (hr : KeysKept runs) (i : ℕ) :
    (w.commitRows jobs runs).verdict i = (w.verdict i).map (writtenVerdict (held runs i)) := by
  unfold World.verdict
  rw [run?_commitRows hr, Option.map_map, Option.map_map]
  refine Option.map_congr fun run h => ?_
  obtain rfl := run?_id h
  simp only [Function.comp_apply, overlay, key_run]
  cases held runs run.id with
  | none => rfl
  | some t => rfl

/-- A commit that waited for the locks leaves every locked job as it is. -/
theorem job?_commitRows_locked (hw : w.unlocked jobs = true) (hj : KeysKept jobs) {i : ℕ}
    (hi : i ∈ w.locked) : (w.commitRows jobs runs).job? i = w.job? i := by
  rw [job?_commitRows hj]
  refine (Option.map_congr fun job h => ?_).trans (congrFun Option.map_id _)
  obtain rfl := job?_id h
  unfold overlay
  split
  · rename_i t ht
    obtain ⟨hmem, hid⟩ := held_mem ht
    have hclean := List.all_eq_true.mp hw t hmem
    have hlock : t.mem.id ∈ w.locked := (show t.mem.id = job.id from hid) ▸ hi
    have hbase : t.mem = t.base := by simpa [hlock, Tracked.dirty] using hclean
    rw [hbase, Columns.merge_self]
    rfl
  · rfl

@[simp] theorem commitRows_locked : (w.commitRows jobs runs).locked = w.locked := rfl
@[simp] theorem commitRows_claims : (w.commitRows jobs runs).claims = w.claims := rfl
@[simp] theorem commitRows_opened : (w.commitRows jobs runs).opened = w.opened := rfl
@[simp] theorem commitRows_reviews : (w.commitRows jobs runs).reviews = w.reviews := rfl
@[simp] theorem commitRows_notes : (w.commitRows jobs runs).notes = w.notes := rfl
@[simp] theorem commitRows_released : (w.commitRows jobs runs).released = w.released := rfl

end CommitRows

section Commits
variable {jobs : List (Tracked ScheduledJob)} {runs : List (Tracked ReviewRun)} {w w' : World}

theorem Commits.good (h : Commits jobs runs w w') (hw : Good w) : Good w' :=
  h.stored ▸ good_commitRows hw h.jobKeys h.runKeys
theorem Commits.jobStatus (h : Commits jobs runs w w') (i : ℕ) :
    w'.jobStatus i = (w.jobStatus i).map (writtenStatus (held jobs i)) :=
  h.stored ▸ jobStatus_commitRows h.jobKeys i
theorem Commits.verdict (h : Commits jobs runs w w') (i : ℕ) :
    w'.verdict i = (w.verdict i).map (writtenVerdict (held runs i)) :=
  h.stored ▸ verdict_commitRows h.runKeys i
theorem Commits.locked_job (h : Commits jobs runs w w') {i : ℕ} (hi : i ∈ w.locked) :
    w'.job? i = w.job? i := h.stored ▸ job?_commitRows_locked h.waited h.jobKeys hi

end Commits

theorem lt_nextKey {keys : List ℕ} {i : ℕ} (h : i ∈ keys) : i < World.nextKey keys := by
  induction keys with
  | nil => simp at h
  | cons k rest ih =>
    unfold World.nextKey at *
    rw [List.foldr_cons]
    rcases List.mem_cons.mp h with rfl | h
    · omega
    · have hi := ih h
      omega

theorem nextKey_not_mem (keys : List ℕ) : World.nextKey keys ∉ keys :=
  fun h => absurd (lt_nextKey h) (lt_irrefl _)

theorem nodup_append_nextKey {keys : List ℕ} (h : keys.Nodup) : (keys ++ [World.nextKey keys]).Nodup :=
  h.append (List.nodup_singleton _) fun _ hi hk =>
    nextKey_not_mem keys (List.mem_singleton.mp hk ▸ hi)

section Insert
variable {w : World} (job : ScheduledJob) (run : ReviewRun) (i : ℕ)

theorem good_insertJob (hw : Good w) : Good (w.insertJob job) := by
  refine ⟨?_, hw.runIds⟩
  simp only [World.insertJob, List.map_append, List.map_cons, List.map_nil]
  exact nodup_append_nextKey hw.jobIds

theorem good_insertRun (hw : Good w) : Good (w.insertRun run) := by
  refine ⟨hw.jobIds, ?_⟩
  simp only [World.insertRun, List.map_append, List.map_cons, List.map_nil]
  exact nodup_append_nextKey hw.runIds

theorem job?_insertJob : (w.insertJob job).job? i = (w.job? i).or
    (if World.nextKey (w.jobs.map (·.id)) = i then
      some { job with id := World.nextKey (w.jobs.map (·.id)) } else none) :=
  lookup_append_singleton w.jobs _ i

theorem run?_insertRun : (w.insertRun run).run? i = (w.run? i).or
    (if World.nextKey (w.runs.map (·.id)) = i then
      some { run with id := World.nextKey (w.runs.map (·.id)) } else none) :=
  lookup_append_singleton w.runs _ i

theorem job?_nextKey : w.job? (World.nextKey (w.jobs.map (·.id))) = none := by
  cases h : w.job? (World.nextKey (w.jobs.map (·.id))) with
  | none => rfl
  | some job =>
    have hmem := List.mem_map_of_mem (f := (·.id)) (job?_mem h)
    exact absurd (job?_id h ▸ hmem) (nextKey_not_mem _)

theorem run?_nextKey : w.run? (World.nextKey (w.runs.map (·.id))) = none := by
  cases h : w.run? (World.nextKey (w.runs.map (·.id))) with
  | none => rfl
  | some run =>
    have hmem := List.mem_map_of_mem (f := (·.id)) (run?_mem h)
    exact absurd (run?_id h ▸ hmem) (nextKey_not_mem _)

@[simp] theorem insertRun_job? : (w.insertRun run).job? i = w.job? i := rfl
@[simp] theorem insertJob_run? : (w.insertJob job).run? i = w.run? i := rfl

end Insert

end GitlabReviewer.Models
