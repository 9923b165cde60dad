import GitlabReviewer.Results.Render
import GitlabReviewer.Scheduling.Operations
import GitlabReviewer.Secrets.Scrub

/-! # Executing one claimed review

`executeJob` and the functions it calls, with everything the outside answers
during one execution (the container, GitLab, the other tables, the clock) given
in advance: a program quantified over its answers has every behaviour the
answers can cause.
-/
namespace GitlabReviewer.Reviews
open Python Foundation Models Scheduling Secrets

/-- Raw outcome of one review execution. -/
structure RunOutcome where
  exitCode : ℤ
  resultJson : Option Json
  resultMarkdown : Option Text
  sessionJson : Option Json
  error : Option Text
  timedOut : Bool

/-- One streamed line and the monotonic clock, in milliseconds, when it came. -/
structure LogChunk where
  text : Text
  clock : ℤ

/-- What one execution meets outside the two tables. `answer` is the outcome of
`orchestrator.run_review` or the `repr` of the exception it raised, `note` the
result of `post_note` or the text of its exception. `floats` and `strings` are
the interpreter's own renderings. -/
structure Execution where
  floats : FloatFormat
  strings : Results.Strings
  startedAt : Timestamp
  finishedAt : Timestamp
  profileFound : Bool
  mrIid : Option ℤ
  postResultsToGitlab : Bool
  containerEnv : List (Text × Text)
  chunks : List LogChunk
  answer : Except Text RunOutcome
  note : Except Text ℤ

def logFlushMilliseconds : ℤ := 2000

def isLowerHex (c : Char) : Bool := ('0' ≤ c && c ≤ '9') || ('a' ≤ c && c ≤ 'f')

/-- First log line that is a 64-hex container id. -/
def extractContainerId (lines : List Text) : Option Text :=
  (lines.map strip).find? fun candidate => candidate.length == 64 && candidate.all isLowerHex

def joinLog (lines : List Text) : Text := joinLines lines ++ ['\n']

/-- Append one line to the run log, keeping it newline-terminated. -/
def appendLog (log line : Text) : Text :=
  let base := rstripNewlines log
  if base.isEmpty then line ++ ['\n'] else base ++ ['\n'] ++ line ++ ['\n']

/-- `flush_log_inflight`: the new value of `flush_state["last"]`. Its own session
writes the log column only, and its errors are logged and swallowed. -/
def flushLogInflight (runId : ℕ) (lines : List Text) (now last : ℤ) : Tx ℤ :=
  if lines.isEmpty || now - last < logFlushMilliseconds then .ret last
  else Program.tryCatch
    (do
      let row ← getRun .execution runId
      match row with
      | none => .ret now
      | some row => do
          commit .execution [] [row.set fun run => { run with log := joinLog lines }]
          .ret now)
    (fun _ => .ret last)

/-- `log_chunk` for each streamed line, from the lines and flush time so far. -/
def streamLog (runId : ℕ) (secrets : List Text) : List LogChunk → List Text → ℤ → Tx (List Text)
  | [], lines, _ => .ret lines
  | chunk :: chunks, lines, last => do
      let lines := lines ++ [scrubSecrets chunk.text secrets]
      let last ← flushLogInflight runId lines chunk.clock last
      streamLog runId secrets chunks lines last

def crashOutcome (repr : Text) : RunOutcome :=
  { exitCode := 1
    resultJson := none
    resultMarkdown := none
    sessionJson := none
    error := some ("orchestrator crashed: ".toList ++ repr)
    timedOut := false }

def missingOutcome : RunOutcome :=
  { exitCode := 1
    resultJson := none
    resultMarkdown := none
    sessionJson := none
    error := some "merge request or model profile missing".toList
    timedOut := false }

def receivedOutcome : Except Text RunOutcome → RunOutcome
  | .ok outcome => outcome
  | .error repr => crashOutcome repr

/-- Every stored text field of the outcome is scrubbed again; an empty text is
left alone, which changes nothing. -/
def scrubOutcome (secrets : List Text) (outcome : RunOutcome) : RunOutcome :=
  { outcome with
    error := outcome.error.map (scrubSecrets · secrets)
    resultMarkdown := outcome.resultMarkdown.map (scrubSecrets · secrets)
    resultJson := outcome.resultJson.map (scrubJson secrets)
    sessionJson := outcome.sessionJson.map (scrubJson secrets) }

/-- The places where `run_review` of the podman orchestrator returns. -/
inductive PodmanEnd where
  | rowsMissing
  | checkoutFailed (message : Text)
  | podmanFailed (message : Text)
  | exited (timedOut : Bool) (exitCode : ℤ) (resultJson : Option Json) (resultMarkdown : Option Text)
      (sessionJson : Option Json)

/-- `timeout` is the configured number of seconds as the message prints it. -/
def podmanOutcome (timeout : Text) : PodmanEnd → RunOutcome
  | .rowsMissing => ⟨1, none, none, none, some "MR or model profile missing for this job".toList, false⟩
  | .checkoutFailed message =>
      ⟨1, none, none, none, some ("library checkout failed: ".toList ++ message), false⟩
  | .podmanFailed message => ⟨125, none, none, none, some ("podman run failed: ".toList ++ message), false⟩
  | .exited timedOut exitCode resultJson resultMarkdown sessionJson =>
      { exitCode := exitCode
        resultJson := resultJson
        resultMarkdown := resultMarkdown
        sessionJson := sessionJson
        error :=
          if timedOut then some ("review timed out after ".toList ++ timeout ++ ['s'])
          else if exitCode ≠ 0 then
            some ("review container exited with code ".toList ++ (toString exitCode).toList)
          else none
        timedOut := timedOut }

/-- The orchestrator returned one of its outcomes, or something in it raised. -/
def FromPodman (answer : Except Text RunOutcome) : Prop :=
  (∃ timeout e, answer = .ok (podmanOutcome timeout e)) ∨ ∃ repr, answer = .error repr

/-- The outcome that ends up on the run. -/
def Execution.outcome (ex : Execution) : RunOutcome :=
  if ex.profileFound && ex.mrIid.isSome then
    scrubOutcome (secretEnvValues ex.containerEnv) (receivedOutcome ex.answer)
  else missingOutcome

def outcomeStatus (outcome : RunOutcome) : RunStatus :=
  if outcome.timedOut then .timeout
  else if outcome.exitCode = 0 then .success
  else .error

theorem outcomeStatus_success {outcome : RunOutcome} (h : outcomeStatus outcome = .success) :
    outcome.timedOut = false ∧ outcome.exitCode = 0 := by
  unfold outcomeStatus at h
  split at h
  · cases h
  · split at h
    · rename_i ht he
      exact ⟨by simpa using ht, he⟩
    · cases h

/-- A successful review of the podman orchestrator has no error text. -/
theorem error_none_of_success {ex : Execution} (hex : FromPodman ex.answer)
    (h : outcomeStatus ex.outcome = .success) : ex.outcome.error = none := by
  obtain ⟨ht, he⟩ := outcomeStatus_success h
  unfold Execution.outcome at ht he ⊢
  split
  · rename_i hfound
    rw [if_pos hfound] at ht he
    rcases hex with ⟨timeout, e, hans⟩ | ⟨repr, hans⟩
    · rw [hans] at ht he ⊢
      cases e with
      | exited timedOut exitCode =>
        obtain rfl : timedOut = false := ht
        obtain rfl : exitCode = 0 := he
        rfl
      | _ => simp [scrubOutcome, receivedOutcome, podmanOutcome] at he
    · rw [hans] at he
      simp [scrubOutcome, receivedOutcome, crashOutcome] at he
  · rename_i hfound
    rw [if_neg hfound] at he
    simp [missingOutcome] at he

def finalJobStatus : RunStatus → JobStatus
  | .success => .done
  | _ => .failed

def decimal (n : ℤ) : Text := (toString n).toList

def postbackFailedLine (message : Text) : Text := "GitLab post-back failed: ".toList ++ message
def postedLine (iid noteId : ℤ) : Text :=
  "Posted review to GitLab !".toList ++ decimal iid ++ " as note ".toList ++ decimal noteId
def postbackSkippedLine : Text := "GitLab post-back skipped: merge request row missing".toList

def recordNote (call : NoteCall) (w : World) : World := { w with notes := call :: w.notes }

/-- The markdown of an outcome whose run has this error message. -/
def Execution.render (ex : Execution) (outcome : RunOutcome) (errorMessage : Option Text) : Text :=
  Results.renderResultMarkdown ex.floats ex.strings outcome.resultJson outcome.resultMarkdown errorMessage

/-- The body of the note: the error is on the run already. -/
def Execution.noteBody (ex : Execution) : Text := ex.render ex.outcome ex.outcome.error

/-- Post the rendered review as an MR note and store the note id on the run. -/
def postToGitlab (ex : Execution) (outcome : RunOutcome) (mrIid : Option ℤ) (jobId : ℕ) (run : Tracked ReviewRun) :
    Tx (Tracked ReviewRun) :=
  match mrIid with
  | none => .ret (run.set fun r => { r with log := appendLog r.log postbackSkippedLine })
  | some iid =>
      let body := ex.render outcome run.mem.errorMessage
      match ex.note with
      | .error message => do
          record (recordNote ⟨jobId, run.mem.id, body, none⟩)
          .ret (run.set fun r => { r with log := appendLog r.log (postbackFailedLine message) })
      | .ok noteId => do
          record (recordNote ⟨jobId, run.mem.id, body, some noteId⟩)
          .ret (run.set fun r =>
            { r with gitlabNoteId := some noteId, log := appendLog r.log (postedLine iid noteId) })

def withOutcome (outcome : RunOutcome) (finishedAt : Timestamp) (run : Tracked ReviewRun) :
    Tracked ReviewRun :=
  run.set fun r =>
    { r with
      status := outcomeStatus outcome
      exitCode := some outcome.exitCode
      resultJson := outcome.resultJson
      resultMarkdown := outcome.resultMarkdown
      sessionJson := outcome.sessionJson
      errorMessage := outcome.error
      finishedAt := some finishedAt }

/-- Map a RunOutcome onto the run/job rows and commit. -/
def applyOutcome (ex : Execution) (mrIid : Option ℤ) (run : Tracked ReviewRun)
    (job : Tracked ScheduledJob) (outcome : RunOutcome) : Tx Unit := do
  let run := withOutcome outcome ex.finishedAt run
  let job := setStatus (finalJobStatus (outcomeStatus outcome)) ex.finishedAt job
  let post := job.mem.postToGitlab.getD ex.postResultsToGitlab
  let run ←
    if outcomeStatus outcome = .success && post then postToGitlab ex outcome mrIid job.mem.id run
    else .ret run
  commit .execution [job] [run]
  compactPositions .execution [job.committed]

def started (ex : Execution) (run : Tracked ReviewRun) : Tracked ReviewRun :=
  run.set fun r => { r with status := .running, startedAt := r.startedAt <|> some ex.startedAt }

def recordReview (jobId : ℕ) (w : World) : World := { w with reviews := jobId :: w.reviews }

def withLog (lines : List Text) (run : Tracked ReviewRun) : Tracked ReviewRun :=
  run.set fun r =>
    { r with
      containerId := (extractContainerId lines) <|> r.containerId
      log := if lines.isEmpty then r.log else joinLog lines }

/-- Run one claimed job to completion and persist the outcome. -/
def executeJob (ex : Execution) (run : Tracked ReviewRun) (job : Tracked ScheduledJob) : Tx Unit := do
  let run := started ex run
  let job := setStatus .running ex.startedAt job
  commit .execution [job] [run]
  let run := run.committed
  let job := job.committed
  -- the settings row, the profile and the merge request
  let mrIid ← select .execution fun _ => ex.mrIid
  if ex.profileFound && mrIid.isSome then do
    let secrets := secretEnvValues ex.containerEnv
    record (recordReview job.mem.id)
    let lines ← streamLog run.mem.id secrets ex.chunks [] 0
    let outcome := scrubOutcome secrets (receivedOutcome ex.answer)
    applyOutcome ex mrIid (withLog lines run) job outcome
  else applyOutcome ex none run job missingOutcome

/-- The newest running run of a job. -/
def runningRun (jobId : ℕ) (w : World) : Option ReviewRun :=
  ((w.runs.filter fun run => run.scheduledJobId == jobId && run.status == .running).insertionSort
    fun a b => b.id ≤ a.id).head?

theorem runningRun_spec {jobId : ℕ} {w : World} {run : ReviewRun} (h : runningRun jobId w = some run) :
    run ∈ w.runs ∧ run.scheduledJobId = jobId ∧ run.status = .running := by
  have hmem := (List.perm_insertionSort _ _).mem_iff.mp (List.mem_of_head? h)
  simpa using List.mem_filter.mp hmem

def cancelledByUser : Text := "cancelled by user".toList

def cancelledRun (now : Timestamp) (run : Tracked ReviewRun) : Tracked ReviewRun :=
  run.set fun r =>
    { r with
      status := .error
      errorMessage := some cancelledByUser
      finishedAt := some now }

/-- Cancel a claimed/running job and finalize its in-flight run and the job row.
Stopping the container is best effort and touches neither table. -/
def cancelInflight (job : Tracked ScheduledJob) (now : Timestamp) : Tx String :=
  if job.mem.status.inFlight = false then
    .raise (.valueError ("job " ++ toString job.mem.id ++ " is not in flight (status: " ++
      job.mem.status.value ++ ")"))
  else do
    let run ← select .request fun w => (runningRun job.mem.id w).map Tracked.load
    let job := setStatus .cancelled now job
    commit .request [job] (run.map (cancelledRun now)).toList
    compactPositions .request [job.committed]
    .ret (if run.isSome then "Running review cancelled." else "Job cancelled.")

end GitlabReviewer.Reviews
