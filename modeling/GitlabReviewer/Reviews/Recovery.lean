import GitlabReviewer.Reviews.Worker

/-! # Startup recovery

`recoverOrphans` finalizes what a previous process left in flight: every running
run with its job, then every job that is still claimed or running.
-/
namespace GitlabReviewer.Reviews
open Python Foundation Models Scheduling

def interruptedMessage : Text :=
  "interrupted: the app restarted while the review was running".toList

def orphanedRun (now : Timestamp) (run : Tracked ReviewRun) : Tracked ReviewRun :=
  run.set fun r =>
    { r with
      status := .error
      errorMessage := some interruptedMessage
      finishedAt := some now }

/-- Stopping the container comes first; an error there is logged and nothing else. -/
def stopAndFinalize (stop : ℕ → Except Text Unit) (now : Timestamp) (run : Tracked ReviewRun) :
    Tracked ReviewRun :=
  match stop run.mem.id with
  | .ok _ => orphanedRun now run
  | .error _ => orphanedRun now run

/-- The jobs of the orphaned runs, as the session holds them when the first loop
ends: a job loaded for an earlier run is not loaded again. -/
def orphanJobs (now : Timestamp) : List (Tracked ReviewRun) → List (Tracked ScheduledJob) →
    Tx (List (Tracked ScheduledJob))
  | [], session => .ret session
  | run :: runs, session =>
      if (held session run.mem.scheduledJobId).isSome then
        orphanJobs now runs (session.map fun t =>
          if t.mem.id = run.mem.scheduledJobId then failInFlight now t else t)
      else do
        let job ← getJob .cleanup run.mem.scheduledJobId
        match job with
        | none => orphanJobs now runs session
        | some t => orphanJobs now runs (session ++ [failInFlight now t])

@[simp] theorem stopAndFinalize_eq (stop : ℕ → Except Text Unit) (now : Timestamp)
    (run : Tracked ReviewRun) : stopAndFinalize stop now run = orphanedRun now run := by
  unfold stopAndFinalize
  cases stop run.mem.id <;> rfl

/-- Jobs without a run that a crash left claimed or running. The select follows
the flush, so it sees what the session changed so far. -/
def stuckJobs (session : List (Tracked ScheduledJob)) (runs : List (Tracked ReviewRun)) :
    Tx (List (Tracked ScheduledJob)) :=
  select .cleanup fun w =>
    instances session ((w.commitRows session runs).jobs.filter fun job => job.status.inFlight)

/-- Finalize in-flight review runs and jobs left behind by a previous process:
the number of rows fixed. `stop` is what stopping each container answers. -/
def recoverOrphans (stop : ℕ → Except Text Unit) (now : Timestamp) : Tx ℕ := do
  let orphans ← select .cleanup fun w =>
    (w.runs.filter fun run => run.status == .running).map Tracked.load
  let runs := orphans.map (stopAndFinalize stop now)
  let session ← orphanJobs now orphans []
  let stuck ← stuckJobs session runs
  let fixed := orphans.length + stuck.length
  if fixed = 0 then .ret fixed
  else do
    let jobs := stuck.map (setStatus .failed now) ++ session
    commit .cleanup jobs runs
    compactPositions .cleanup (jobs.map Tracked.committed)
    .ret fixed

end GitlabReviewer.Reviews
