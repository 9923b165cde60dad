import GitlabReviewer.Entrypoint.Log
import GitlabReviewer.Gitlab.Client
import GitlabReviewer.Python.JsonText

/-! # Capturing the session

The search for the session runs inside a block that catches everything. The
export, its decoding, its parsing and the writing of the file do not: each is
guarded against the errors it was expected to raise.
-/
namespace GitlabReviewer.Entrypoint
open Python Foundation

inductive Value where
  | null
  | bool (b : Bool)
  | int (n : ℤ)
  | float (f : Python.Float)
  | str (s : Str)
  | arr (items : List Value)
  | obj (fields : List (Str × Value))

namespace Value

def truthy : Value → Bool
  | .null => false
  | .bool b => b
  | .int n => n ≠ 0
  | .float (.finite q) => q ≠ 0
  | .float _ => true
  | .str s => !s.isEmpty
  | .arr items => !items.isEmpty
  | .obj fields => !fields.isEmpty

def get (key : String) (fields : List (Str × Value)) : Value := (fields.lookup (Entrypoint.str key)).getD .null

/-- `value or default`. -/
def orElse (value default : Value) : Value := if value.truthy then value else default

/-- `d[key] = value` of a dictionary in insertion order. -/
def setField (fields : List (Str × Value)) (key : Str) (value : Value) : List (Str × Value) :=
  if fields.any (·.1 == key) then fields.map fun f => if f.1 == key then (key, value) else f
  else fields ++ [(key, value)]

theorem setField_eq (fields : List (Str × Value)) (key : Str) (value : Value) :
    setField fields key value = Foundation.setKey fields key value := rfl

mutual
/-- Recursively scrub every string in a parsed JSON structure. -/
def scrubValue (secrets : List Str) : Value → Value
  | .str s => .str (scrub secrets s)
  | .obj fields => .obj (scrubFields secrets [] fields)
  | .arr items => .arr (scrubItems secrets items)
  | .null => .null
  | .bool b => .bool b
  | .int n => .int n
  | .float f => .float f
def scrubItems (secrets : List Str) : List Value → List Value
  | [] => []
  | item :: items => scrubValue secrets item :: scrubItems secrets items
def scrubFields (secrets : List Str) (made : List (Str × Value)) : List (Str × Value) → List (Str × Value)
  | [] => made
  | (key, item) :: fields => scrubFields secrets (setField made (scrub secrets key) (scrubValue secrets item)) fields
end

mutual
/-- How deep lists and objects are nested. -/
def depth : Value → ℕ
  | .arr items => depthItems items + 1
  | .obj fields => depthFields fields + 1
  | _ => 0
def depthItems : List Value → ℕ
  | [] => 0
  | item :: items => max (depth item) (depthItems items)
def depthFields : List (Str × Value) → ℕ
  | [] => 0
  | (_, item) :: fields => max (depth item) (depthFields fields)
end

mutual
/-- Every string and every key can be encoded. -/
def encodable : Value → Bool
  | .str s => s.all scalar
  | .arr items => encodableItems items
  | .obj fields => encodableFields fields
  | _ => true
def encodableItems : List Value → Bool
  | [] => true
  | item :: items => encodable item && encodableItems items
def encodableFields : List (Str × Value) → Bool
  | [] => true
  | (key, item) :: fields => key.all scalar && encodable item && encodableFields fields
end

/-- A lone surrogate is copied, any other character written as in a text. -/
def escapeCode (c : CodePoint) : Str := if scalar c then ofText (escapeChar false (Char.ofNat c.val)) else [c]

def dumpStr (s : Str) : Str := Entrypoint.str "\"" ++ s.flatMap escapeCode ++ Entrypoint.str "\""

def lineGap (level : ℕ) : Str := ofText (gap (some 2) level)
def lineSeparator (level : ℕ) : Str := ofText (separator (some 2) level)

section Dump
variable (F : FloatFormat)

mutual
/-- `json.dumps(value, indent=2, ensure_ascii=False)`, nested `level` deep. -/
def dumpValue : ℕ → Value → Str
  | _, .null => Entrypoint.str "null"
  | _, .bool true => Entrypoint.str "true"
  | _, .bool false => Entrypoint.str "false"
  | _, .int n => ofText (reprInt n)
  | _, .float f => ofText (F.dump f)
  | _, .str s => dumpStr s
  | _, .arr [] => Entrypoint.str "[]"
  | level, .arr (item :: items) =>
      Entrypoint.str "[" ++ lineGap (level + 1) ++ dumpValue (level + 1) item ++ dumpItems level items
  | _, .obj [] => Entrypoint.str "\x7b\x7d"
  | level, .obj ((key, value) :: fields) =>
      Entrypoint.str "\x7b" ++ lineGap (level + 1) ++ dumpStr key ++ Entrypoint.str ": " ++ dumpValue (level + 1) value ++
        dumpFields level fields
def dumpItems : ℕ → List Value → Str
  | level, [] => lineGap level ++ Entrypoint.str "]"
  | level, item :: items => lineSeparator (level + 1) ++ dumpValue (level + 1) item ++ dumpItems level items
def dumpFields : ℕ → List (Str × Value) → Str
  | level, [] => lineGap level ++ Entrypoint.str "\x7d"
  | level, (key, value) :: fields =>
      lineSeparator (level + 1) ++ dumpStr key ++ Entrypoint.str ": " ++ dumpValue (level + 1) value ++ dumpFields level fields
end

theorem all_dumpStr (s : Str) : (dumpStr s).all scalar = s.all scalar := by
  have hbody : (s.flatMap escapeCode).all scalar = s.all scalar := by
    induction s with
    | nil => rfl
    | cons c s ih =>
      rw [List.flatMap_cons, List.all_append, ih, List.all_cons]
      unfold escapeCode
      by_cases h : scalar c = true
      · rw [if_pos h, scalar_ofText, h]
      · rw [if_neg h, List.all_cons, List.all_nil, Bool.and_true]
  simp only [dumpStr, List.all_append, hbody, Entrypoint.str, scalar_ofText, Bool.true_and, Bool.and_true]

mutual
theorem all_dumpValue : (level : ℕ) → (value : Value) → (dumpValue F level value).all scalar = encodable value
  | _, .null => rfl
  | _, .bool true => rfl
  | _, .bool false => rfl
  | _, .int n => scalar_ofText
  | _, .float f => scalar_ofText
  | _, .str s => all_dumpStr s
  | _, .arr [] => rfl
  | level, .arr (item :: items) => by
      simp only [dumpValue, List.all_append, Entrypoint.str, lineGap, scalar_ofText, all_dumpValue (level + 1) item,
        all_dumpItems level items, encodable, encodableItems, Bool.true_and]
  | _, .obj [] => rfl
  | level, .obj ((key, value) :: fields) => by
      simp only [dumpValue, List.all_append, Entrypoint.str, lineGap, scalar_ofText, all_dumpStr,
        all_dumpValue (level + 1) value, all_dumpFields level fields, encodable, encodableFields, Bool.true_and, Bool.and_true]
theorem all_dumpItems : (level : ℕ) → (items : List Value) → (dumpItems F level items).all scalar = encodableItems items
  | level, [] => by
      simp only [dumpItems, List.all_append, Entrypoint.str, lineGap, scalar_ofText, encodableItems, Bool.and_true]
  | level, item :: items => by
      simp only [dumpItems, List.all_append, lineSeparator, scalar_ofText, all_dumpValue (level + 1) item,
        all_dumpItems level items, encodableItems, Bool.true_and]
theorem all_dumpFields : (level : ℕ) → (fields : List (Str × Value)) →
    (dumpFields F level fields).all scalar = encodableFields fields
  | level, [] => by
      simp only [dumpFields, List.all_append, Entrypoint.str, lineGap, scalar_ofText, encodableFields, Bool.and_true]
  | level, (key, value) :: fields => by
      simp only [dumpFields, List.all_append, Entrypoint.str, lineSeparator, scalar_ofText, all_dumpStr,
        all_dumpValue (level + 1) value, all_dumpFields level fields, encodableFields, Bool.true_and, Bool.and_true]
end

end Dump

end Value

/-- A directory, as its components from the last to the first. -/
abbrev Directory := List Text

/-- What `json.loads` does: the message of a `JSONDecodeError` is a text, and
integers that are too long and values that are nested too deep raise otherwise. -/
inductive Loaded where
  | value (v : Value)
  | decodeError (message : Text)
  | raised (e : Raised)

/-- What `subprocess.run` does: an `OSError` or `SubprocessError`, an output that
is no UTF-8, or an exit code with an output. -/
inductive Finished where
  | failed (message : Text)
  | undecodable
  | exited (code : ℤ) (stdout : Text)

structure Machine where
  opencode : Bool
  workDir : Directory
  home : Except Raised Directory
  sessionList : Directory → Finished
  sessionExport : Str → Directory → Finished
  loads : Text → Loaded
  float : Value → Except Raised Python.Float
  str : Value → Except Raised Str
  repr : Raised → Text
  floats : FloatFormat
  /-- Levels of nesting below the first that recursion gets through. -/
  stack : ℕ
  /-- The `OSError` of making the directory, and of opening the file. -/
  mkdirError : Option Text
  openError : Option Text

namespace Run
variable {α : Type}

def ofExcept (x : Except Raised α) : Run α := fun s => (x, s)

/-- `try` with an `except Exception`. -/
def attempt (x : Run α) (handler : Raised → Run α) : Run α := fun s => match x s with
  | (.ok a, s) => (.ok a, s)
  | (.error e, s) => handler e s

end Run

section Capture
variable (M : Machine) (L : Logger)

def sortKey : Value → Except Raised Python.Float
  | .obj fields =>
      let updated := Value.orElse (Value.orElse (Value.get "updated" fields) (Value.get "created" fields)) (.int 0)
      match M.float updated with
      | .ok key => .ok key
      | .error .typeError | .error .valueError => .ok (.finite 0)
      | .error e => .error e
  | _ => .ok (.finite 0)

/-- `max(sessions, key=sort_key, default=None)`. -/
def newest : List (Python.Float × Value) → Option Value
  | [] => none
  | first :: rest => some (rest.foldl (fun best entry => if Gitlab.floatLt best.1 entry.1 then entry else best) first).2

/-- `str.isspace` of one character. -/
def space (c : CodePoint) : Bool := isSpace (Char.ofNat c.val)

def strip (s : Str) : Str := (s.dropWhile space).rdropWhile space

/-- The most recently updated session id of a parsed listing; empty when there is none. -/
def newestSessionId (sessions : List Value) : Except Raised Str := do
  let keyed ← sessions.mapM fun entry => (sortKey M entry).map fun key => (key, entry)
  match newest keyed with
  | some (.obj fields) =>
      let id := Value.get "id" fields
      if id.truthy then match id with
        | .str s => .ok (strip s)
        | other => (M.str other).map strip
      else .ok []
  | _ => .ok []

/-- `_list_opencode_sessions`; none on failure. -/
def listSessions (cwd : Directory) : Run (Option (List Value)) :=
  match M.sessionList cwd with
  | .failed message => do
      log L (ofText ("session capture failed (list): ".toList ++ message))
      pure none
  | .undecodable => .raise .unicodeDecodeError
  | .exited code stdout =>
      if code ≠ 0 then do
        log L (ofText ("session capture failed: `opencode session list` exit ".toList ++ reprInt code))
        pure none
      else match M.loads (if stdout.isEmpty then "[]".toList else stdout) with
        | .decodeError message => do
            log L (ofText ("session capture failed: unparsable session list: ".toList ++ message))
            pure none
        | .raised e => .raise e
        | .value (.arr sessions) => pure (some sessions)
        | .value _ => pure (some [])

def idOf (sessions : List Value) : Run Str :=
  if sessions.isEmpty then pure [] else .ofExcept (newestSessionId M sessions)

/-- From the work dir up to the root, until a session id is found; none where a listing failed. -/
def walkUp : Directory → Run (Option (Str × Directory))
  | [] => do
      match ← listSessions M L [] with
      | none => pure none
      | some sessions =>
          let id ← idOf M sessions
          pure (some (id, []))
  | name :: parent => do
      match ← listSessions M L (name :: parent) with
      | none => pure none
      | some sessions =>
          let id ← idOf M sessions
          if id.isEmpty then walkUp parent else pure (some (id, name :: parent))

/-- The walk, and the most recent session of the global listing as the last resort. -/
def findSession : Run (Option (Str × Directory)) := do
  match ← walkUp M L ("target".toList :: M.workDir) with
  | none => pure none
  | some (id, cwd) =>
      if id.isEmpty then
        let home ← .ofExcept M.home
        match ← listSessions M L home with
        | none => pure (some ([], cwd))
        | some sessions =>
            let id ← idOf M sessions
            pure (some (id, home))
      else pure (some (id, cwd))

def search : Run (Option (Str × Directory)) := (findSession M L).attempt fun e => do
  log L (ofText ("session capture failed: ".toList ++ M.repr e))
  pure none

/-- What an argument of a command can hold: surrogates only where they stand for a byte. -/
def argument (c : CodePoint) : Bool := scalar c || (decide (0xdc80 ≤ c.val) && decide (c.val ≤ 0xdcff))

def sessionPath : Text := "/out/session.json".toList

def cannotWrite (message : Text) : Run Unit :=
  log L (ofText ("session capture: cannot write ".toList ++ sessionPath ++ ": ".toList ++ message))

/-- The scrubbed export, written to the file at `SESSION_PATH`. -/
def writeSession (fields : List (Str × Value)) : Run Unit :=
  match M.mkdirError with
  | some message => cannotWrite L message
  | none =>
      if M.stack + 1 < (Value.obj fields).depth then .raise .recursionError
      else
        let rendered := Value.dumpValue M.floats 0 (.scrubValue L.secrets (.obj fields)) ++ str "\n"
        match M.openError with
        | some message => cannotWrite L message
        | none => do
            .write fun s => { s with session := some [] }
            if rendered.all scalar then
              .write fun s => { s with session := some rendered }
              log L (ofText ("wrote opencode session export -> ".toList ++ sessionPath))
            else .raise .unicodeEncodeError

/-- The raw output in a JSON envelope. -/
def envelope (message raw : Text) : List (Str × Value) :=
  [(str "warning", .str (str "opencode export produced invalid JSON; the raw output is preserved below.")),
    (str "parse_error", .str (ofText message)), (str "raw", .str (ofText raw))]

def exportFailed (id : Str) (code : ℤ) : Str :=
  str "session capture failed: `opencode export " ++ id ++ str "` exit " ++ ofText (reprInt code)

def exportSession (id : Str) (cwd : Directory) : Run Unit :=
  if id.all argument = false then .raise .unicodeEncodeError
  else if (0 : CodePoint) ∈ id then .raise .valueError
  else match M.sessionExport id cwd with
    | .failed message => log L (ofText ("session capture failed (export): ".toList ++ message))
    | .undecodable => .raise .unicodeDecodeError
    | .exited code raw =>
        if code ≠ 0 then log L (exportFailed id code)
        else match M.loads raw with
          | .raised e => .raise e
          | .decodeError message => do
              log L (ofText ("session export was not valid JSON (".toList ++ message ++ "); preserving the raw output".toList))
              writeSession M L (envelope message raw)
          | .value (.obj fields) => writeSession M L fields
          | .value _ => log L (str "session capture: export is not a JSON object")

/-- Export opencode's session for this run into `SESSION_PATH`. -/
def captureSession : Run Unit :=
  if M.opencode = false then log L (str "session capture skipped: opencode not on PATH")
  else do
    match ← search M L with
    | none => pure ()
    | some (id, cwd) =>
        if id.isEmpty then log L (str "session capture: no opencode session found")
        else exportSession M L id cwd

/-- The end of `run`, after opencode has exited with this code and its output has been dealt with. -/
def runEnd (exitCode : ℤ) : Run ℤ := do
  captureSession M L
  pure exitCode

end Capture

end GitlabReviewer.Entrypoint
