import GitlabReviewer.Entrypoint.CrashLog
import GitlabReviewer.Entrypoint.Result
import GitlabReviewer.Foundation.Statements
import GitlabReviewer.Orchestrator.Container
import GitlabReviewer.Orchestrator.Opencode
import GitlabReviewer.Orchestrator.Podman
import GitlabReviewer.Streaming.Reader

/-! # Preparing the review inside the container

The target is cloned and the head of the merge request checked out, the extra
projects are provided, the configuration is written and the prompt built. What
git, opencode and the file system do is given from outside and may be anything.
-/
namespace GitlabReviewer.Entrypoint
open Python Foundation Libraries Orchestrator

/-- The exceptions, by the clauses that take them. -/
inductive Problem where
  | os (message : Text)
  | runtime (message : Text)
  | other (e : Raised)

/-- What one run of opencode brings: an `OSError`, or the items the output queue
delivered, with the timeout flag and the exit code. -/
inductive Ran where
  | failed (message : Text)
  | ended (items : List Text) (timedOut : Bool) (code : ℤ)

/-- A command that was started, with its exit code and output; none where it could not be. -/
structure Attempt where
  command : List Text
  answer : Option (ℤ × Text)

/-- Everything the container writes: the sinks of the log, the result files, the
configuration, the runs of opencode in their order, and the rest of its files. -/
structure Container (σ : Type) where
  sinks : Sinks
  result : Option Str
  markdown : Option Str
  config : Option Text
  attempts : List Attempt
  files : σ

/-- The outside of a run. Texts that come back are the messages of `OSError`s. -/
structure Host (σ : Type) where
  machine : Machine
  runtime : Runtime
  env : Env
  anchor : Anchor
  console : Console
  writable : Bool
  git : List Text → Option Text → σ → Finished × σ
  makeDirectory : Path → σ → Option Text × σ
  present : Path → σ → Except Text Bool
  removeTree : Path → σ → Option Text × σ
  /-- `_make_read_only`. -/
  makeReadOnly : Path → σ → σ
  templateError : Option Text
  configError : Option Text
  opencode : List Text → σ → Ran × σ
  sessionLogs : σ → Option (List SessionLog)
  /-- Making the directory of a result file, and opening the file. -/
  resultError : Option Text
  openError : Option Text
  /-- Levels of nesting below the first that scrubbing and writing a result get through. -/
  resultStack : ℕ
  /-- The message of the `JSONDecodeError` of a text, and of the exceptions without one of their own. -/
  decodeMessage : Text → Text
  text : Raised → Text
  reprText : Text → Text
  reprJson : Json → Text
  reprProblem : Problem → Text
  /-- `format(timeout, "g")`. -/
  general : Python.Float → Text
  /-- `max(timeout - (time.monotonic() - start), 0.0)`. -/
  remaining : Python.Float → Python.Float

section Host
variable {σ : Type} (H : Host σ)

/-- The process environment for the log. -/
def Host.logger : Logger where
  secrets := runSecrets fun key => (H.env.lookup key.toList).map ofText
  console := H.console
  writable := H.writable

abbrev Step (σ α : Type) := Statement Problem (Container σ) α

def onSinks {α : Type} (x : Run α) : Step σ α :=
  Statement.within (δ := Raised) Container.sinks (fun sinks c => { c with sinks := sinks }) .other x

def say (message : Text) : Step σ Unit := onSinks (log H.logger (ofText message))

def onFiles {α : Type} (f : σ → α × σ) : Step σ α := .act fun c => ((f c.files).1, { c with files := (f c.files).2 })

/-- An operation that may raise an `OSError`. -/
def orOSError (f : σ → Option Text × σ) : Step σ Unit := do
  match ← onFiles f with
  | some message => .raise (.os message)
  | none => pure ()

def target : Path := workDir H.env ++ ["target".toList]

def pathText (path : Path) : Text := strPath H.anchor path

def gitFailed (args : List Text) (code : ℤ) (stdout : Text) : Text :=
  "git ".toList ++ List.intercalate [' '] args ++ " failed (exit ".toList ++ reprInt code ++ "):\n".toList ++ Python.strip stdout

/-- Run a git command; raise on failure. -/
def runGit (args : List Text) (cwd : Option Text) : Step σ Unit := do
  match ← onFiles (H.git args cwd) with
  | .failed message => .raise (.os message)
  | .undecodable => .raise (.other .unicodeDecodeError)
  | .exited code stdout => if code ≠ 0 then .raise (.runtime (gitFailed args code stdout)) else pure ()

def targetRepoUrl : Text :=
  (Python.strip (getenv H.env "GITLAB_URL")).rdropWhile (· == '/') ++ '/' ::
    (stripSlashes (Python.strip (getenv H.env "TARGET_PROJECT")) ++ ".git".toList)

def mrRef : Text := "refs/merge-requests/".toList ++ getenv H.env "MR_IID" ++ "/head".toList

/-- `branch:refs/remotes/origin/branch`. -/
def trackingSpec (branch : Text) : Text := branch ++ ":refs/remotes/origin/".toList ++ branch

/-- `except RuntimeError`; a `RecursionError` is one. -/
def Problem.isRuntimeError : Problem → Bool
  | .runtime _ => true
  | .other .runtimeError => true
  | .other .recursionError => true
  | _ => false

/-- The MR ref, checked out. -/
def checkoutMrRef : Step σ Unit := do
  runGit H ["fetch".toList, "origin".toList, mrRef H] (some (pathText H (target H)))
  runGit H ["checkout".toList, "--detach".toList, "FETCH_HEAD".toList] (some (pathText H (target H)))
  say H ("checked out MR head via ".toList ++ mrRef H)

/-- The source branch, checked out. -/
def checkoutSource : Step σ Unit := do
  let source := getenv H.env "SOURCE_BRANCH"
  say H ("MR ref ".toList ++ mrRef H ++ " unavailable; using branch ".toList ++ source)
  runGit H ["fetch".toList, "origin".toList, trackingSpec source] (some (pathText H (target H)))
  runGit H ["checkout".toList, "--detach".toList, "origin/".toList ++ source] (some (pathText H (target H)))

/-- What an earlier run has left. -/
def removeTarget : Step σ Unit := do
  match ← onFiles fun files => (H.present (target H) files, files) with
  | .error message => .raise (.os message)
  | .ok true => orOSError (H.removeTree (target H))
  | .ok false => pure ()

def cloneTarget : Step σ Unit := do
  let targetBranch := getenv H.env "TARGET_BRANCH"
  removeTarget H
  say H ("cloning ".toList ++ targetRepoUrl H ++ " -> ".toList ++ pathText H (target H))
  runGit H ["clone".toList, targetRepoUrl H, pathText H (target H)] none
  (checkoutMrRef H).attempt fun e => if e.isRuntimeError then some (checkoutSource H) else none
  runGit H ["fetch".toList, "origin".toList, trackingSpec targetBranch] (some (pathText H (target H)))
  say H ("fetched base branch origin/".toList ++ targetBranch)

/-- A library that no mount has put there. -/
def cloneLibrary (url ref : Text) (dest : Path) : Step σ Unit := do
  orOSError (H.makeDirectory dest.dropLast)
  say H ("cloning extra library repo ".toList ++ url ++ " (read-only) -> ".toList ++ pathText H dest)
  let branch := if ref.isEmpty then [] else ["--branch".toList, ref]
  runGit H ("clone".toList :: branch ++ [url, pathText H dest]) none
  onFiles fun files => ((), H.makeReadOnly dest files)

/-- One round of the loop over the entries. -/
def provideEntry : Json → Step σ Unit
  | .obj fields =>
      if (entryUrl H.runtime fields).isEmpty then
        say H ("skipping EXTRA_PROJECTS entry without url: ".toList ++ H.reprJson (.obj fields))
      else match entrypointPath H.runtime fields with
        | none => .raise (.other .valueError)
        | some path =>
            if path.isEmpty then say H ("skipping EXTRA_PROJECTS entry without url/path: ".toList ++ H.reprJson (.obj fields))
            else if (splitOn '/' path).contains dotdot then
              say H ("skipping EXTRA_PROJECTS entry with unsafe path: ".toList ++ H.reprText path)
            else do
              let dest := workDir H.env ++ "lib".toList :: components path
              match ← onFiles fun files => (H.present dest files, files) with
              | .error message => .raise (.os message)
              | .ok true => say H ("using bind-mounted library checkout -> ".toList ++ pathText H dest)
              | .ok false => cloneLibrary H (entryUrl H.runtime fields) (entryRef H.runtime fields) dest
  | entry => say H ("skipping malformed EXTRA_PROJECTS entry: ".toList ++ H.reprJson entry)

def cloneExtraProjects : Step σ Unit := do
  let raw := Python.strip (getenv H.env "EXTRA_PROJECTS")
  if raw.isEmpty then pure ()
  else match Python.loads H.machine.floats raw with
    | none => .raise (.runtime ("EXTRA_PROJECTS is not valid JSON: ".toList ++ H.decodeMessage raw))
    | some (.arr entries) => forM entries (provideEntry H)
    | some _ => .raise (.runtime "EXTRA_PROJECTS must be a JSON list of \x7burl, ref, path\x7d objects".toList)

def renderConfig : Step σ Unit :=
  match H.templateError with
  | some message => .raise (.os message)
  | none => match renderOpencodeConfig H.machine.floats H.env with
    | none => .raise (.other .valueError)
    | some text => match H.configError with
      | some message => .raise (.os message)
      | none => do
          .write fun c => { c with config := some text }
          say H ("rendered opencode config -> ".toList ++ pathText H (workDir H.env ++ ["opencode.json".toList]))

/-- `str.rstrip`. -/
def rstrip (s : Text) : Text := s.rdropWhile isSpace

def buildPrompt : Text :=
  let source := getenv H.env "SOURCE_BRANCH"
  let targetBranch := getenv H.env "TARGET_BRANCH"
  rstrip (getenv H.env "REVIEW_PROMPT") ++ "\n\n".toList ++ joinLines
    [ "## Working tree and diff".toList,
      "- The MR head (".toList ++ source ++ ") is checked out in the current directory.".toList,
      "- The base branch is available as origin/".toList ++ targetBranch ++ ".".toList,
      "- Produce the MR diff with: git diff origin/".toList ++ targetBranch ++ "...HEAD".toList,
      "- Any extra library repos are mounted read-only under /work/lib/.".toList ]

/-- The statements of `run` under its `try`; what comes back is the prompt. -/
def prepare : Step σ Text := do
  orOSError (H.makeDirectory (workDir H.env))
  cloneTarget H
  cloneExtraProjects H
  renderConfig H
  pure (buildPrompt H)

end Host

end GitlabReviewer.Entrypoint
