import GitlabReviewer.Foundation.ChangedColumns
import GitlabReviewer.Python.Json

/-! # The rows of the queue and of its runs

One structure per table, with every column the service code reads or writes.
The position is an integer because the column is one; only reachable states
keep it positive.
-/
namespace GitlabReviewer.Models
open Python Foundation

inductive ScheduleType where
  | immediate
  | nightly
  deriving DecidableEq, Repr

inductive JobStatus where
  | queued
  | claimed
  | running
  | done
  | failed
  | cancelled
  deriving DecidableEq, Repr

inductive RunStatus where
  | running
  | success
  | error
  | timeout
  deriving DecidableEq, Repr

def JobStatus.value : JobStatus → String
  | queued => "queued"
  | claimed => "claimed"
  | running => "running"
  | done => "done"
  | failed => "failed"
  | cancelled => "cancelled"

/-- In flight: taken from the queue and not finished. -/
def JobStatus.inFlight : JobStatus → Bool
  | claimed => true
  | running => true
  | _ => false

abbrev Timestamp := ℕ

structure ScheduledJob where
  id : ℕ
  mergeRequestId : ℕ
  modelProfileId : ℕ
  promptOverride : Option Text
  extraProjects : List Json
  scheduleType : ScheduleType
  position : ℤ
  status : JobStatus
  postToGitlab : Option Bool
  createdAt : Option Timestamp
  updatedAt : Option Timestamp
  deriving DecidableEq

structure ReviewRun where
  id : ℕ
  scheduledJobId : ℕ
  mergeRequestId : ℕ
  modelProfileId : ℕ
  status : RunStatus
  containerId : Option Text
  exitCode : Option ℤ
  log : Text
  resultJson : Option Json
  resultMarkdown : Option Text
  sessionJson : Option Json
  errorMessage : Option Text
  gitlabNoteId : Option ℤ
  startedAt : Option Timestamp
  finishedAt : Option Timestamp
  archivedAt : Option Timestamp
  deriving DecidableEq

instance : Columns ScheduledJob where
  key := ScheduledJob.id
  merge b m s :=
    { id := written b.id m.id s.id
      mergeRequestId := written b.mergeRequestId m.mergeRequestId s.mergeRequestId
      modelProfileId := written b.modelProfileId m.modelProfileId s.modelProfileId
      promptOverride := written b.promptOverride m.promptOverride s.promptOverride
      extraProjects := written b.extraProjects m.extraProjects s.extraProjects
      scheduleType := written b.scheduleType m.scheduleType s.scheduleType
      position := written b.position m.position s.position
      status := written b.status m.status s.status
      postToGitlab := written b.postToGitlab m.postToGitlab s.postToGitlab
      createdAt := written b.createdAt m.createdAt s.createdAt
      updatedAt := written b.updatedAt m.updatedAt s.updatedAt }
  merge_self b s := by simp
  merge_base b m := by simp
  key_merge b m s h := by simp [h]

instance : Columns ReviewRun where
  key := ReviewRun.id
  merge b m s :=
    { id := written b.id m.id s.id
      scheduledJobId := written b.scheduledJobId m.scheduledJobId s.scheduledJobId
      mergeRequestId := written b.mergeRequestId m.mergeRequestId s.mergeRequestId
      modelProfileId := written b.modelProfileId m.modelProfileId s.modelProfileId
      status := written b.status m.status s.status
      containerId := written b.containerId m.containerId s.containerId
      exitCode := written b.exitCode m.exitCode s.exitCode
      log := written b.log m.log s.log
      resultJson := written b.resultJson m.resultJson s.resultJson
      resultMarkdown := written b.resultMarkdown m.resultMarkdown s.resultMarkdown
      sessionJson := written b.sessionJson m.sessionJson s.sessionJson
      errorMessage := written b.errorMessage m.errorMessage s.errorMessage
      gitlabNoteId := written b.gitlabNoteId m.gitlabNoteId s.gitlabNoteId
      startedAt := written b.startedAt m.startedAt s.startedAt
      finishedAt := written b.finishedAt m.finishedAt s.finishedAt
      archivedAt := written b.archivedAt m.archivedAt s.archivedAt }
  merge_self b s := by simp
  merge_base b m := by simp
  key_merge b m s h := by simp [h]

@[simp] theorem key_job (job : ScheduledJob) : Columns.key job = job.id := rfl
@[simp] theorem key_run (run : ReviewRun) : Columns.key run = run.id := rfl

section Merge
variable (b m s : ScheduledJob) (b' m' s' : ReviewRun)

@[simp] theorem merge_job_status :
    (Columns.merge b m s).status = written b.status m.status s.status := rfl
@[simp] theorem merge_job_position :
    (Columns.merge b m s).position = written b.position m.position s.position := rfl
@[simp] theorem merge_job_scheduleType :
    (Columns.merge b m s).scheduleType = written b.scheduleType m.scheduleType s.scheduleType := rfl
@[simp] theorem merge_run_status :
    (Columns.merge b' m' s').status = written b'.status m'.status s'.status := rfl
@[simp] theorem merge_run_scheduledJobId : (Columns.merge b' m' s').scheduledJobId =
    written b'.scheduledJobId m'.scheduledJobId s'.scheduledJobId := rfl
@[simp] theorem merge_run_exitCode :
    (Columns.merge b' m' s').exitCode = written b'.exitCode m'.exitCode s'.exitCode := rfl
@[simp] theorem merge_run_errorMessage : (Columns.merge b' m' s').errorMessage =
    written b'.errorMessage m'.errorMessage s'.errorMessage := rfl

end Merge

end GitlabReviewer.Models
