import GitlabReviewer.Foundation.Statements
import GitlabReviewer.Orchestrator.Stale
import GitlabReviewer.Orchestrator.Stopping
import GitlabReviewer.Reviews.Execution

/-! # One review in a container

Stale containers are purged, the environment is built and the libraries are
checked out; then podman runs the container, and what it has left in a temporary
directory is read. The commands podman is given are recorded in their order.
-/
namespace GitlabReviewer.Orchestrator
open Python Foundation Models Libraries Reviews

/-- The exceptions, by the classes the clauses name, with `str(exc)`. -/
inductive Failure where
  | os (message : Text)
  | subprocess (message : Text)
  | runtime (message : Text)
  | value (message : Text)
  | other (message : Text)

/-- What `subprocess.run` of a short command does. -/
inductive Reply where
  | failed
  | undecodable (message : Text)
  | exited (code : ℤ) (stdout : Text)

/-- What reading a file in the temporary directory gives. -/
inductive FileRead where
  | missing
  | undecodable (message : Text)
  | text (content : Text)

/-- The host the orchestrator runs on. -/
structure Engine (σ : Type) where
  podman : List Text → σ → Reply × σ
  clock : σ → ℚ
  /-- `fromisoformat` and an invalid time. -/
  isoError : Stamp → Text
  /-- `ensure_libraries`. -/
  libraries : σ → Except Failure (List (Text × Text)) × σ
  makeTemp : σ → Except Failure Text × σ
  /-- `_run_streaming`: whether the deadline was reached, and the exit code. -/
  stream : List Text → Env → σ → Except Failure (Bool × ℤ) × σ
  read : Text → σ → FileRead
  /-- `shutil.rmtree(path, ignore_errors=True)`, and whether it got through. -/
  removeTree : Text → σ → Bool × σ

/-- The commands podman was given, the temporary directories, and the rest of the host. -/
structure HostState (σ : Type) where
  commands : List (List Text)
  temps : List Text
  world : σ

/-- Universal newlines. -/
def universalNewlines : Text → Text
  | '\r' :: '\n' :: rest => '\n' :: universalNewlines rest
  | '\r' :: rest => '\n' :: universalNewlines rest
  | c :: rest => c :: universalNewlines rest
  | [] => []

/-- `_read_json`: a missing file, bytes that do not decode, what is no JSON and what is no object are none. -/
def readJson (F : FloatFormat) : FileRead → Option Json
  | .text content => match loads F (universalNewlines content) with
    | some (.obj fields) => some (.obj fields)
    | _ => none
  | _ => none

/-- `_read_text`. -/
def readText : FileRead → Except Failure (Option Text)
  | .missing => .ok none
  | .undecodable message => .error (.value message)
  | .text content => .ok (some (universalNewlines content))

section Engine
variable {σ : Type} (O : PodmanOrchestrator) (N : Engine σ)

abbrev HostStep (σ α : Type) := Statement Failure (HostState σ) α

def onWorld {α : Type} (f : σ → α × σ) : HostStep σ α := .act fun s => ((f s.world).1, { s with world := (f s.world).2 })

theorem onWorld_run {α : Type} (f : σ → α × σ) (s : HostState σ) : onWorld f s = (.ok (f s.world).1, { s with world := (f s.world).2 }) := rfl

def orRaise {α : Type} (f : σ → Except Failure α × σ) : HostStep σ α := do
  match ← onWorld f with
  | .ok a => pure a
  | .error e => .raise e

def issue (argv : List Text) : HostStep σ Unit := .write fun s => { s with commands := s.commands ++ [argv] }

def rmArgv (name : Text) : List Text := [O.podmanBin, "rm".toList, name]

/-- Best-effort `podman rm` for an exited review container. -/
def removeContainer (name : Text) : HostStep σ Unit := do
  issue (rmArgv O name)
  match ← onWorld (N.podman (rmArgv O name)) with
  | .undecodable message => .raise (.value message)
  | _ => pure ()

def psArgv : List Text :=
  [O.podmanBin, "ps".toList, "-a".toList, "--filter".toList, "name=mr-review-".toList, "--filter".toList, "status=exited".toList,
    "--filter".toList, "status=dead".toList, "--format".toList, "\x7b\x7b.ID\x7d\x7d \x7b\x7b.CreatedAt\x7d\x7d".toList]

def staleContainerSeconds : ℚ := 24 * 3600

/-- One round of the loop over the lines. -/
def purgeLine (cutoff : ℚ) (line : Text) : HostStep σ Unit :=
  match matchCreated line with
  | none => pure ()
  | some (id, stamp) =>
      if stamp.Valid then if (stamp.timestamp : ℚ) < cutoff then removeContainer O N id else pure ()
      else .raise (.value (N.isoError stamp))

/-- Remove exited or dead review containers older than 24h. -/
def purgeStaleContainers : HostStep σ Unit := do
  issue (psArgv O)
  match ← onWorld (N.podman (psArgv O)) with
  | .failed => pure ()
  | .undecodable message => .raise (.value message)
  | .exited code stdout =>
      if code ≠ 0 then pure ()
      else do
        let now ← .read fun s => N.clock s.world
        forM (splitLines stdout) (purgeLine O N (now - staleContainerSeconds))

/-- `except (OSError, RuntimeError, subprocess.SubprocessError)`. -/
def Failure.checkout : Failure → Option Text
  | .os message | .runtime message | .subprocess message => some message
  | _ => none

/-- `except (OSError, subprocess.SubprocessError, ValueError)`. -/
def Failure.podman : Failure → Option Text
  | .os message | .subprocess message | .value message => some message
  | _ => none

/-- `tempfile.mkdtemp`. -/
def makeTemp : HostStep σ Text := do
  let dir ← orRaise N.makeTemp
  .write fun s => { s with temps := s.temps ++ [dir] }
  pure dir

def removeTemp (dir : Text) : HostStep σ Unit := do
  let gone ← onWorld (N.removeTree dir)
  .write fun s => { s with temps := if gone then s.temps.erase dir else s.temps }

def outFile (dir : Text) (name : String) : Text := dir ++ '/' :: name.toList

/-- The statements under the `try` with the `finally`. -/
def stream (F : FloatFormat) (argv : List Text) (env : Env) (dir : Text) : HostStep σ PodmanEnd := do
  issue argv
  let (timedOut, exitCode) ← orRaise (N.stream argv env)
  let resultJson ← .read fun s => readJson F (N.read (outFile dir "result.json") s.world)
  let resultMarkdown ← orRaise fun world => (readText (N.read (outFile dir "result.md") world), world)
  let sessionJson ← .read fun s => readJson F (N.read (outFile dir "session.json") s.world)
  pure (.exited timedOut exitCode resultJson resultMarkdown sessionJson)

def inContainer (F : FloatFormat) (argv : List Text) (env : Env) (dir : Text) : HostStep σ PodmanEnd :=
  ((stream N F argv env dir).attempt fun e => e.podman.map fun message => pure (.podmanFailed message)).ensuring (removeTemp N dir)

/-- Nothing is left to inspect of a success. -/
def removeOnSuccess (name : Text) : PodmanEnd → HostStep σ Unit
  | .exited false exitCode _ _ _ => if exitCode = 0 then removeContainer O N name else pure ()
  | _ => pure ()

/-- From the temporary directory on. -/
def runContainer (F : FloatFormat) (env : Env) (name : Text) (mounts : List (Text × Text)) : HostStep σ PodmanEnd := do
  let dir ← makeTemp N
  let ended ← inContainer N F (buildArgv O env dir name mounts) env dir
  removeOnSuccess O N name ended
  pure ended

def libraryMounts : HostStep σ (Except Text (List (Text × Text))) :=
  ((do return .ok (← orRaise N.libraries)) : HostStep σ (Except Text (List (Text × Text)))).attempt fun e =>
    e.checkout.map fun message => pure (.error message)

/-- `run_review`; `environment` is none where `build_env` raises. -/
def runReview (F : FloatFormat) (timeout : Text) (runId : Option ℤ) (token : Token) (rowsFound : Bool) (environment : Option Env) :
    HostStep σ RunOutcome :=
  if rowsFound then do
    purgeStaleContainers O N
    match environment with
    | none => .raise (.other [])
    | some env => do
        match ← libraryMounts N with
        | .error message => pure (podmanOutcome timeout (.checkoutFailed message))
        | .ok mounts => do
            let ended ← runContainer O N F env (containerName runId token) mounts
            pure (podmanOutcome timeout ended)
  else pure (podmanOutcome timeout .rowsMissing)

end Engine

end GitlabReviewer.Orchestrator
