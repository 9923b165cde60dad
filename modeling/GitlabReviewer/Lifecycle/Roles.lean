import GitlabReviewer.Models.Commits
import GitlabReviewer.Reviews.Recovery

/-! # The life of a claim

What a thread of the service may do next depends on how far it got with the job
it claimed. A role names that point together with the rows the thread holds;
the moves are the steps from one role to the next and what each does to the
database. Everything that cannot change what happens to a job is one quiet move.
-/
namespace GitlabReviewer.Lifecycle
open Python Foundation Models Scheduling Reviews

/-- How far the thread that owns a claim has got. -/
inductive Phase where
  | claimed
  | abandoning (job : ScheduledJob)
  | created (runId : ℕ)
  | opened (run : ReviewRun)
  | loaded (run : ReviewRun) (job : ScheduledJob)
  | active (run : ReviewRun)
  | reviewed (run : ReviewRun)
  | crashRead (runId : ℕ) (run : Option ReviewRun)
  | crashLoaded (runId : ℕ) (run : Option ReviewRun) (job : Option ScheduledJob)
  | settled (runId : Option ℕ)
  | vanished (runId : Option ℕ)

/-- The run the worker of this phase would finalize after a crash. -/
def Phase.runId : Phase → Option ℕ
  | claimed => none
  | abandoning _ => none
  | created r => some r
  | opened run => some run.id
  | loaded run _ => some run.id
  | active run => some run.id
  | reviewed run => some run.id
  | crashRead r _ => some r
  | crashLoaded r _ _ => some r
  | settled r => r
  | vanished r => r

/-- The owner still has to bring the job and its run to a terminal status. -/
def Phase.unsettled : Phase → Bool
  | settled _ => false
  | _ => true

inductive Role where
  | requesting
  | cancelling (job : ScheduledJob) (run : Option ReviewRun)
  | recovering
  | idle
  | locking (row : ScheduledJob)
  | owner (job : ℕ) (phase : Phase)

/-- What a family of executions fixes: the database, what the outside answers
during the execution of each run, and which steps may raise. -/
structure Rules where
  dialect : Dialect
  answers : ℕ → Execution
  mayFail : Site → Bool
  outside : mayFail .outside = false

/-- A step that changes no status, no verdict and no history: reads, changes of
position or log, changes of the set a job is queued in, and new queued jobs. -/
structure Quiet (w w' : World) : Prop where
  status : ∀ i, w'.jobStatus i = w.jobStatus i ∨ w.jobStatus i = none ∧ w'.jobStatus i = some .queued
  verdict : ∀ r, w'.verdict r = w.verdict r
  types : ∀ i ∈ w.locked, ∀ ty, w.jobType i = some ty → w'.jobType i = some ty
  good : Good w → Good w'
  locked : w'.locked = w.locked
  claims : w'.claims = w.claims
  opened : w'.opened = w.opened
  reviews : w'.reviews = w.reviews
  notes : w'.notes = w.notes
  released : w'.released = w.released

/-- The verdict `_apply_outcome` gives the run of a job. -/
def finalVerdict (ex : Execution) (jobId : ℕ) : Verdict :=
  ⟨jobId, outcomeStatus ex.outcome, some ex.outcome.exitCode, ex.outcome.error⟩

/-- The rows of the final commit of a worker that loaded `run`. -/
structure Finalizes (ex : Execution) (j : ℕ) (run : ReviewRun) (t : Tracked ScheduledJob)
    (u : Tracked ReviewRun) : Prop where
  jobId : t.mem.id = j
  jobBase : t.base.status = .running
  jobMem : t.mem.status = finalJobStatus (outcomeStatus ex.outcome)
  runId : u.mem.id = run.id
  runBase : u.base.verdict = { run.verdict with status := .running }
  runMem : u.mem.verdict = finalVerdict ex run.scheduledJobId

/-- The rows of the commit of a recovery: nothing goes back to the queue and no
run changes its job. -/
structure Recovers (jobs : List (Tracked ScheduledJob)) (runs : List (Tracked ReviewRun)) : Prop where
  jobs : ∀ t ∈ jobs, t.mem.status = t.base.status ∨ t.mem.status = .failed
  runs : ∀ u ∈ runs, u.mem.scheduledJobId = u.base.scheduledJobId

/-- The moves by which a thread takes something: a lock, a claim, the run of
the job, the right to review it. -/
inductive Take (rules : Rules) : Role → World → Role → World → Prop
  | lock {w : World} {row : ScheduledJob} (hd : rules.dialect = .postgresql) (h : lockable w = some row) :
      Take rules .idle w (.locking row) { w with locked := row.id :: w.locked }
  | unlock {w : World} {row : ScheduledJob} :
      Take rules (.locking row) w .idle { w with locked := w.locked.erase row.id }
  | claimLocked {w : World} {row : ScheduledJob} (now : Timestamp) :
      Take rules (.locking row) w (.owner row.id .claimed)
        (claimLocked (setStatus .claimed now (Tracked.load row)) w)
  | claimFirst {w : World} {row : ScheduledJob} (now : Timestamp) (hd : rules.dialect = .sqlite)
      (h : claimable w = some row) :
      Take rules .idle w (.owner row.id .claimed) (claimRow now row.id w)
  | create {w : World} (job : ScheduledJob) (now : Timestamp) :
      Take rules (.owner job.id .claimed) w
        (.owner job.id (.created (World.nextKey (w.runs.map (·.id))))) (w.insertRun (newRun job now))
  | review {w : World} {j : ℕ} {run : ReviewRun} :
      Take rules (.owner j (.active run)) w (.owner j (.reviewed run)) (recordReview j w)

inductive Move (rules : Rules) : Role → World → Role → World → Prop
  | take {r r' : Role} {w w' : World} (h : Take rules r w r' w') : Move rules r w r' w'
  | quiet {r : Role} {w w' : World} (h : Quiet w w') : Move rules r w r w'
  -- giving a claim up
  | lose {w : World} {j : ℕ} (h : w.job? j = none) :
      Move rules (.owner j .claimed) w (.owner j (.vanished none)) w
  | abandonRead {w : World} {j : ℕ} {row : ScheduledJob} (h : w.job? j = some row)
      (hs : row.status = .claimed) : Move rules (.owner j .claimed) w (.owner j (.abandoning row)) w
  | abandonSpare {w : World} {j : ℕ} (h : ∀ row, w.job? j = some row → row.status ≠ .claimed) :
      Move rules (.owner j .claimed) w (.owner j (.settled none)) w
  | abandon {w w' : World} {row : ScheduledJob} (now : Timestamp) (hs : row.status = .claimed)
      (h : Commits [setStatus .failed now (Tracked.load row)] [] w w') :
      Move rules (.owner row.id (.abandoning row)) w (.owner row.id (.settled none)) w'
  -- the worker
  | openRun {w : World} {j r : ℕ} {run : ReviewRun} (h : w.run? r = some run) :
      Move rules (.owner j (.created r)) w (.owner j (.opened run)) { w with opened := r :: w.opened }
  | openNone {w : World} {j r : ℕ} (h : w.run? r = none) :
      Move rules (.owner j (.created r)) w (.owner j (.vanished (some r)))
        { w with opened := r :: w.opened }
  | loadJob {w : World} {j : ℕ} {run : ReviewRun} {job : ScheduledJob} (h : w.job? j = some job) :
      Move rules (.owner j (.opened run)) w (.owner j (.loaded run job)) w
  | loadNone {w : World} {j : ℕ} {run : ReviewRun} (h : w.job? j = none) :
      Move rules (.owner j (.opened run)) w (.owner j (.vanished (some run.id))) w
  | start {w w' : World} {run : ReviewRun} {job : ScheduledJob}
      (h : Commits [setStatus .running (rules.answers run.id).startedAt (Tracked.load job)]
        [started (rules.answers run.id) (Tracked.load run)] w w') :
      Move rules (.owner job.id (.loaded run job)) w (.owner job.id (.active run)) w'
  | post {w : World} {j : ℕ} {run : ReviewRun} {call : NoteCall} (h : call.jobId = j) :
      Move rules (.owner j (.reviewed run)) w (.owner j (.reviewed run)) (recordNote call w)
  | finish {w w' : World} {j : ℕ} {ph : Phase} {run : ReviewRun} {t : Tracked ScheduledJob}
      {u : Tracked ReviewRun} (hph : ph = .active run ∨ ph = .reviewed run)
      (hf : Finalizes (rules.answers run.id) j run t u) (h : Commits [t] [u] w w') :
      Move rules (.owner j ph) w (.owner j (.settled (some run.id))) w'
  -- the cleanup after a crash of the worker
  | crashRun {w : World} {j r : ℕ} {ph : Phase} (hf : rules.mayFail .execution = true)
      (h : ph.runId = some r) : Move rules (.owner j ph) w (.owner j (.crashRead r (w.run? r))) w
  | crashJob {w : World} {j r : ℕ} {run : Option ReviewRun} :
      Move rules (.owner j (.crashRead r run)) w (.owner j (.crashLoaded r run (w.job? j))) w
  | crashCommit {w w' : World} {j r : ℕ} {run : Option ReviewRun} {job : Option ScheduledJob}
      (now : Timestamp) (hj : ∀ row ∈ job, row.id = j) (hr : ∀ row ∈ run, row.id = r)
      (h : Commits (job.map (failInFlight now ∘ Tracked.load)).toList
        (run.map (crashedRun now ∘ Tracked.load)).toList w w') :
      Move rules (.owner j (.crashLoaded r run job)) w (.owner j (.settled (some r))) w'
  | release {w : World} {j : ℕ} {ph : Phase}
      (h : (∃ r, ph = .settled r) ∨ (∃ r, ph = .vanished r) ∨ rules.mayFail .cleanup = true) :
      Move rules (.owner j ph) w .idle { w with released := j :: w.released }
  -- the user
  | readRunning {w : World} (job : ScheduledJob) :
      Move rules .requesting w (.cancelling job (runningRun job.id w)) w
  | cancelInflight {w w' : World} {job : ScheduledJob} {run : Option ReviewRun} (now : Timestamp)
      (hs : job.status.inFlight = true)
      (hr : ∀ row ∈ run, row.scheduledJobId = job.id ∧ row.status = .running)
      (h : Commits [setStatus .cancelled now (Tracked.load job)]
        (run.map (cancelledRun now ∘ Tracked.load)).toList w w') :
      Move rules (.cancelling job run) w .requesting w'
  | cancelQueued {w w' : World} {job : ScheduledJob} (now : Timestamp) (hs : job.status = .queued)
      (h : Commits [setStatus .cancelled now (Tracked.load job)] [] w w') :
      Move rules .requesting w .requesting w'
  -- startup recovery
  | recover {w w' : World} {jobs : List (Tracked ScheduledJob)} {runs : List (Tracked ReviewRun)}
      (hr : Recovers jobs runs) (h : Commits jobs runs w w') :
      Move rules .recovering w .recovering w'

end GitlabReviewer.Lifecycle
