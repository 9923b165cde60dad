import GitlabReviewer.Foundation.Ddl

/-! # The migrations and the models

The DDL statements of the revisions under `alembic/versions`, in their order,
and the tables registered on `Base.metadata`. Both carry the columns with their
types; constraints and foreign keys are left out.
-/
namespace GitlabReviewer.Database
open Foundation

inductive TableName where
  | settings
  | modelProfile
  | mergeRequest
  | scheduledJob
  | reviewRun
  deriving DecidableEq

inductive SqlType where
  | integer
  | boolean
  | text
  | json
  | dateTime
  | string (length : ℕ)
  deriving DecidableEq

structure Column where
  name : String
  type : SqlType
  nullable : Bool
  deriving DecidableEq

abbrev Tables := Schema TableName Column
abbrev Statement := Ddl TableName Column String

def notNull (name : String) (type : SqlType) : Column := ⟨name, type, false⟩
def nullable (name : String) (type : SqlType) : Column := ⟨name, type, true⟩

structure Migration where
  revision : String
  downRevision : Option String
  upgrade : List Statement

def settingsBaseline : List Column :=
  [notNull "id" .integer, notNull "gitlab_url" (.string 512), notNull "gitlab_project" (.string 512),
    notNull "gitlab_token" .text, notNull "default_review_prompt" .text, notNull "nightly_time" (.string 5),
    notNull "max_concurrent_reviews" .integer, notNull "poll_interval_seconds" .integer,
    notNull "post_results_to_gitlab" .boolean, notNull "known_libraries" .json]

def modelProfileBaseline : List Column :=
  [notNull "id" .integer, notNull "name" (.string 200), notNull "provider" (.string 50),
    notNull "model_id" (.string 300), nullable "base_url" (.string 512), nullable "api_key" (.string 1024),
    nullable "api_key_env" (.string 200), notNull "is_default" .boolean, notNull "extra_opencode_json" .json]

def mergeRequestBaseline : List Column :=
  [notNull "id" .integer, notNull "project" (.string 512), notNull "iid" .integer,
    notNull "title" (.string 1000), notNull "author" (.string 300), notNull "source_branch" (.string 512),
    notNull "target_branch" (.string 512), notNull "sha" (.string 64), notNull "web_url" (.string 1000),
    notNull "state" (.string 50), nullable "updated_at" .dateTime, nullable "last_seen_at" .dateTime]

def scheduledJobBaseline : List Column :=
  [notNull "id" .integer, notNull "merge_request_id" .integer, notNull "model_profile_id" .integer,
    nullable "prompt_override" .text, notNull "extra_projects" .json, notNull "schedule_type" (.string 20),
    notNull "position" .integer, notNull "status" (.string 20), nullable "post_to_gitlab" .boolean,
    nullable "created_at" .dateTime, nullable "updated_at" .dateTime]

def reviewRunBaseline : List Column :=
  [notNull "id" .integer, notNull "scheduled_job_id" .integer, notNull "merge_request_id" .integer,
    notNull "model_profile_id" .integer, notNull "status" (.string 20), nullable "container_id" (.string 120),
    nullable "exit_code" .integer, notNull "log" .text, nullable "result_json" .json,
    nullable "result_markdown" .text, nullable "error_message" .text, nullable "gitlab_note_id" .integer,
    nullable "started_at" .dateTime, nullable "finished_at" .dateTime, nullable "archived_at" .dateTime]

def gitlabDefaultBranch : Column := nullable "gitlab_default_branch" (.string 255)
def contextWindow : Column := nullable "context_window" .integer
def sessionJson : Column := nullable "session_json" .json

def baseline : Migration where
  revision := "0001"
  downRevision := none
  upgrade :=
    [.createTable .settings settingsBaseline,
      .createTable .modelProfile modelProfileBaseline,
      .createTable .mergeRequest mergeRequestBaseline,
      .createTable .scheduledJob scheduledJobBaseline,
      .createIndex "ix_scheduled_job_merge_request_id" .scheduledJob,
      .createIndex "ix_scheduled_job_model_profile_id" .scheduledJob,
      .createTable .reviewRun reviewRunBaseline,
      .createIndex "ix_review_run_scheduled_job_id" .reviewRun,
      .createIndex "ix_review_run_merge_request_id" .reviewRun,
      .createIndex "ix_review_run_model_profile_id" .reviewRun,
      .createIndex "ix_review_run_archived_at" .reviewRun]

def settingsDefaultBranch : Migration :=
  ⟨"0002", some "0001", [.addColumn .settings gitlabDefaultBranch]⟩

def modelProfileContextWindow : Migration :=
  ⟨"0003", some "0002", [.addColumn .modelProfile contextWindow]⟩

def reviewRunSessionJson : Migration :=
  ⟨"0004", some "0003", [.addColumn .reviewRun sessionJson]⟩

/-- `alembic/versions`. -/
def migrations : List Migration :=
  [baseline, settingsDefaultBranch, modelProfileContextWindow, reviewRunSessionJson]

/-- The DDL of the migrations up to a revision, in the order they run. -/
def ddl (scripts : List Migration) : List Statement := scripts.flatMap (·.upgrade)

/-- `ScriptDirectory.get_current_head()`; none where there is no single head. -/
def currentHead (scripts : List Migration) : Option String :=
  match scripts.filter fun m => !scripts.any fun later => later.downRevision = some m.revision with
  | [m] => some m.revision
  | _ => none

theorem currentHead_migrations : currentHead migrations = some "0004" := by decide

/-- The tables as `Base.metadata` creates them, parents first, once the columns
of the later revisions are taken out. -/
def modelsWith (branch window session : Bool) : Tables :=
  [(.settings, settingsBaseline ++ if branch then [gitlabDefaultBranch] else []),
    (.modelProfile, modelProfileBaseline ++ if window then [contextWindow] else []),
    (.mergeRequest, mergeRequestBaseline),
    (.scheduledJob, scheduledJobBaseline),
    (.reviewRun, reviewRunBaseline.take 10 ++ (if session then [sessionJson] else []) ++
      reviewRunBaseline.drop 10)]

/-- The current models. -/
def models : Tables := modelsWith true true true

/-- The models as of the revision that `n` migrations lead to. -/
def modelsAt (n : ℕ) : Tables := modelsWith (2 ≤ n) (3 ≤ n) (4 ≤ n)

end GitlabReviewer.Database
