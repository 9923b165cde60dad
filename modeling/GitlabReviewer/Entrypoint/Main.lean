import GitlabReviewer.Entrypoint.Host

/-! # The run of the container

opencode is run once more if it has rejected a flag. Its output becomes a result
file, or a markdown file where it holds no result, or nothing where it is blank.
Whatever raises on the way, the log ends with the exit code.
-/
namespace GitlabReviewer.Entrypoint
open Python Foundation Orchestrator

variable {σ : Type} (H : Host σ)

def opencodeCommand (extra : List Text) (prompt : Text) : List Text :=
  ["opencode".toList, "run".toList] ++ extra ++
    ["-m".toList, modelName (getenv H.env "OPENCODE_PROVIDER") (getenv H.env "OPENCODE_MODEL"), prompt]

def sayTimedOut (timeout : Python.Float) (timedOut : Bool) : Step σ Unit :=
  if timedOut then
    say H ("TIMED OUT: opencode still running after ".toList ++ H.general timeout ++ "s; partial output kept".toList)
  else pure ()

/-- Run opencode headless once; the exit code and the full output. -/
def runOpencodeOnce (prompt : Text) (timeout : Python.Float) (extra : List Text) : Step σ (ℤ × Text) := do
  let command := opencodeCommand H extra prompt
  say H ("running opencode -m ".toList ++ modelName (getenv H.env "OPENCODE_PROVIDER") (getenv H.env "OPENCODE_MODEL") ++
    " (timeout ".toList ++ H.general timeout ++ "s)".toList)
  match ← onFiles (H.opencode command) with
  | .failed message => do
      .write fun c => { c with attempts := c.attempts ++ [⟨command, none⟩] }
      .raise (.os message)
  | .ended items timedOut code => do
      let kept := items.filterMap Streaming.runOpencodeOnce.keep
      let answer := Streaming.runOpencodeOnce.answer timedOut code kept
      onSinks (logLines H.logger kept)
      sayTimedOut H timeout timedOut
      .write fun c => { c with attempts := c.attempts ++ [⟨command, some answer⟩] }
      pure answer

def isCliUsage (output : Text) : Bool := decide ("Positionals:".toList <:+: output)

/-- `--thinking` is taken for rejected. -/
def rejected (answer : ℤ × Text) : Bool := decide (answer.1 ≠ 0) && decide (answer.1 ≠ 124) && isCliUsage answer.2

def runOpencode (prompt : Text) (timeout : Python.Float) : Step σ (ℤ × Text) := do
  let answer ← runOpencodeOnce H prompt timeout ["--thinking".toList]
  if rejected answer then
    say H ("opencode rejected --thinking (exit ".toList ++ reprInt answer.1 ++ "); retrying without it".toList)
    runOpencodeOnce H prompt (H.remaining timeout) []
  else pure answer

def resultPath : Text := "/out/result.json".toList
def resultMdPath : Text := "/out/result.md".toList

def renderedResult (fields : List (Str × Value)) : Str :=
  Value.dumpValue H.machine.floats 0 (.scrubValue H.logger.secrets (.obj fields)) ++ str "\n"

/-- The scrubbed result, written to the file at `RESULT_PATH`. -/
def writeResult (fields : List (Str × Value)) : Step σ Unit :=
  match H.resultError with
  | some message => .raise (.os message)
  | none =>
      if H.resultStack + 1 < (Value.obj fields).depth then .raise (.other .recursionError)
      else match H.openError with
        | some message => .raise (.os message)
        | none => do
            .write fun c => { c with result := some [] }
            if (renderedResult H fields).all scalar then
              .write fun c => { c with result := some (renderedResult H fields) }
              say H ("wrote structured result -> ".toList ++ resultPath)
            else .raise (.other .unicodeEncodeError)

/-- The scrubbed output, written to the file at `RESULT_MD_PATH`. -/
def writeMarkdown (output : Text) : Step σ Unit :=
  match H.resultError with
  | some message => .raise (.os message)
  | none => match H.openError with
    | some message => .raise (.os message)
    | none => do
        .write fun c => { c with markdown := some (scrub H.logger.secrets (ofText output)) }
        say H ("no valid fenced json block; wrote raw markdown fallback -> ".toList ++ resultMdPath)

def writeOutput (output : Text) : Step σ Unit :=
  match extractResult H.machine output with
  | .error e => .raise (.other e)
  | .ok (some fields) => writeResult H fields
  | .ok none =>
      if (Python.strip output).isEmpty then say H "no valid fenced json block and no output to fall back to".toList
      else writeMarkdown H output

def requiredEnv : List String :=
  ["GITLAB_URL", "TARGET_PROJECT", "MR_IID", "SOURCE_BRANCH", "TARGET_BRANCH", "OPENCODE_PROVIDER", "OPENCODE_MODEL",
    "REVIEW_PROMPT", "REVIEW_TIMEOUT_SECONDS"]

def missingEnv : List Text := (requiredEnv.filter fun key => (getenv H.env key).isEmpty).map String.toList

/-- `except (OSError, RuntimeError)`: the message of what it takes. -/
def Problem.caught : Problem → Option Text
  | .os message => some message
  | .runtime message => some message
  | .other .runtimeError => some (H.text .runtimeError)
  | .other .recursionError => some (H.text .recursionError)
  | .other _ => none

/-- `prepare` under its `try`; none where it has failed. -/
def prepared : Step σ (Option Text) :=
  ((do return some (← prepare H)) : Step σ (Option Text)).attempt fun e => (e.caught H).map fun message => do
    say H ("ERROR: ".toList ++ message)
    pure none

/-- An exit code that is neither success nor the timeout is logged with the end of opencode's log. -/
def reportExit (code : ℤ) : Step σ Unit :=
  if code ≠ 0 ∧ code ≠ 124 then do
    say H ("opencode exited with code ".toList ++ reprInt code)
    let logs ← .read fun c => H.sessionLogs c.files
    onSinks (logOpencodeCrashLog H.logger logs)
  else pure ()

/-- `run` from opencode on. -/
def review (prompt : Text) (timeout : Python.Float) : Step σ ℤ := do
  let answer ← runOpencode H prompt timeout
  reportExit H answer.1
  writeOutput H answer.2
  onSinks (captureSession H.machine H.logger)
  pure answer.1

def run : Step σ ℤ :=
  if !(missingEnv H).isEmpty then do
    say H ("ERROR: missing required environment variables: ".toList ++ List.intercalate ", ".toList (missingEnv H))
    pure 1
  else match H.machine.float (.str (ofText (getenv H.env "REVIEW_TIMEOUT_SECONDS"))) with
    | .error .valueError => do
        say H ("ERROR: REVIEW_TIMEOUT_SECONDS is not a number: ".toList ++ H.reprText (getenv H.env "REVIEW_TIMEOUT_SECONDS"))
        pure 1
    | .error e => .raise (.other e)
    | .ok timeout => do
        match ← prepared H with
        | none => pure 1
        | some prompt => review H prompt timeout

def exitLine (code : ℤ) : Text := "EXIT=".toList ++ reprInt code

/-- `main`: the exit code of the process. -/
def main : Step σ ℤ := do
  let code ← (run H).attempt fun e => some do
    say H ("ERROR: unexpected failure: ".toList ++ H.reprProblem e)
    pure 1
  say H (exitLine code)
  pure code

end GitlabReviewer.Entrypoint
