import GitlabReviewer.Reviews.Execution

/-! # Claiming a job and working it off

The body of the pump for one permit: claim a job, create its run row, and hand
both to a worker thread. A failed creation abandons the claim, a crashed worker
is finalized, and the permit is given back at the end of either.
-/
namespace GitlabReviewer.Reviews
open Python Foundation Models Scheduling

def releasePermit (jobId : ℕ) : Tx Unit :=
  record fun w => { w with released := jobId :: w.released }

def abandonClaim (jobId : ℕ) (now : Timestamp) : Tx Unit :=
  Program.tryCatch
    (do
      let job ← getJob .cleanup jobId
      match job with
      | none => .ret ()
      | some job =>
          if job.mem.status = .claimed then do
            let job := setStatus .failed now job
            commit .cleanup [job] []
            compactPositions .cleanup [job.committed]
          else .ret ())
    (fun _ => .ret ())

def newRun (job : ScheduledJob) (now : Timestamp) : ReviewRun :=
  { id := 0
    scheduledJobId := job.id
    mergeRequestId := job.mergeRequestId
    modelProfileId := job.modelProfileId
    status := .running
    containerId := none
    exitCode := none
    log := []
    resultJson := none
    resultMarkdown := none
    sessionJson := none
    errorMessage := none
    gitlabNoteId := none
    startedAt := some now
    finishedAt := none
    archivedAt := none }

def createRun (job : ScheduledJob) (now : Timestamp) : Tx ℕ :=
  .atomic .creation (fun _ => true) (fun w => w.insertRun (newRun job now))
    (fun w => World.nextKey (w.runs.map (·.id))) .database

/-- Claim the lowest-position queued job and create its review_run row: the ids
of the job and of the run. The reload of `job.id` after the rollback is counted
among the operations of the abandoning. -/
def claimAndCreateRun (dialect : Dialect) (now : Timestamp) : Tx (Option (ℕ × ℕ)) := do
  let job ← claimNext dialect now
  match job with
  | none => .ret none
  | some job =>
      Program.tryCatch
        (do
          let runId ← createRun job now
          .ret (some (job.id, runId)))
        (fun e => do
          abandonClaim job.id now
          releasePermit job.id
          .raise e)

def crashedRun (now : Timestamp) (run : Tracked ReviewRun) : Tracked ReviewRun :=
  if run.mem.status = .running then
    run.set fun r =>
      { r with
        status := .error
        errorMessage := some "worker thread crashed; see app log".toList
        finishedAt := some now }
  else run

def failInFlight (now : Timestamp) (job : Tracked ScheduledJob) : Tracked ScheduledJob :=
  if job.mem.status.inFlight then setStatus .failed now job else job

/-- Best-effort cleanup so a crashed worker cannot stall the queue. -/
def finalizeCrashedRun (runId jobId : ℕ) (now : Timestamp) : Tx Unit :=
  Program.tryCatch
    (do
      let run ← getRun .cleanup runId
      let job ← getJob .cleanup jobId
      let job := job.map (failInFlight now)
      commit .cleanup job.toList (run.map (crashedRun now)).toList
      compactPositions .cleanup (job.map Tracked.committed).toList)
    (fun _ => .ret ())

/-- The worker's own load of its run row. -/
def openRun (runId : ℕ) : Tx (Option (Tracked ReviewRun)) :=
  .atomic .execution (fun _ => true) (fun w => { w with opened := runId :: w.opened })
    (fun w => (w.run? runId).map Tracked.load) .database

def worker (ex : Execution) (runId jobId : ℕ) : Tx Unit := do
  Program.tryCatch
    (do
      let run ← openRun runId
      let job ← getJob .execution jobId
      match run, job with
      | some run, some job => executeJob ex run job
      | _, _ => .ret ())
    (fun _ => finalizeCrashedRun runId jobId ex.finishedAt)
  releasePermit jobId

/-- One permit of the pump: `claim failed; stopping this pump` on an exception,
else the claimed job runs to its end on a worker thread. `answers` is what the
outside answers during the execution of each run. -/
def claimAndWork (dialect : Dialect) (answers : ℕ → Execution) (now : Timestamp) : Tx Unit := do
  let claimed ← Program.tryCatch (claimAndCreateRun dialect now) (fun _ => .ret none)
  match claimed with
  | none => .ret ()
  | some (jobId, runId) => worker (answers runId) runId jobId

end GitlabReviewer.Reviews
