import GitlabReviewer.Foundation.TextReplace
import GitlabReviewer.Settings.ProfileForm

/-! # Merge requests as the API returns them

An item of the listing is whatever JSON the server sent. Mapping it onto a
snapshot reads its fields with `get`, so it raises where a value is no object or
no number, and it keeps whatever stands in the text fields.
-/
namespace GitlabReviewer.Gitlab
open Python Foundation Models Settings

/-- The two errors the callers catch, and those they do not. -/
inductive Raised where
  | gitLabError (message : Text)
  | requestException (message : Text)
  | attributeError
  | typeError
  | valueError
  | unicodeError
  | recursionError
  | overflowError
  | databaseError
  deriving DecidableEq

/-- `(GitLabError, requests.RequestException)`, with the message. -/
def Raised.caught : Raised → Option Text
  | .gitLabError message => some message
  | .requestException message => some message
  | _ => none

/-- A wall clock in microseconds since the year 1, with its offset from UTC. -/
structure Aware where
  clock : ℤ
  offset : ℤ
  deriving DecidableEq

/-- What is taken from the standard library as it is. -/
structure Stdlib where
  ints : Interpreter
  float : Text → Option Python.Float
  quote : Text → Text
  fromisoformat : Text → Option (ℤ × Option ℤ)

structure MrSnapshot where
  iid : ℤ
  title : Json
  author : Json
  sourceBranch : Json
  targetBranch : Json
  sha : Json
  webUrl : Json
  state : Json
  updatedAt : Option Aware
  deriving DecidableEq

section Mapping
variable (L : Stdlib)

/-- The number of microseconds in the years 1 to 9999. -/
def clockEnd : ℤ := 3652059 * 86400000000

/-- `astimezone(UTC)`. -/
def Aware.astimezone (time : Aware) : Except Raised Aware :=
  if 0 ≤ time.clock - time.offset ∧ time.clock - time.offset < clockEnd then .ok ⟨time.clock - time.offset, 0⟩
  else .error .overflowError

/-- Parse an ISO-8601 timestamp from GitLab to UTC; None on junk. -/
def parseGitlabDatetime : Json → Except Raised (Option Aware)
  | .str value =>
      if value.isEmpty then .ok none
      else match L.fromisoformat (replaceAll ['Z'] "+00:00".toList value) with
        | none => .ok none
        | some (clock, offset) => (Aware.astimezone ⟨clock, offset.getD 0⟩).map some
  | _ => .ok none

/-- `item.get(key)`. -/
def get (key : String) (fields : List (Text × Json)) : Json := (fields.lookup key.toList).getD .null

/-- `value or default`. -/
def orElse (value default : Json) : Json := if truthyJson value then value else default

def orBlank (value : Json) : Json := orElse value (.str [])

/-- What has a `get` at all. -/
def asDict : Json → Except Raised (List (Text × Json))
  | .obj fields => .ok fields
  | _ => .error .attributeError

/-- `int(value)`. -/
def intOf : Json → Except Raised ℤ
  | .bool b => .ok (if b then 1 else 0)
  | .int n => .ok n
  | .float (.finite q) => .ok (q.num.tdiv q.den)
  | .float (.infinity _) => .error .overflowError
  | .float .nan => .error .valueError
  | .str text => match parseInt L.ints text with
      | some n => .ok n
      | none => .error .valueError
  | _ => .error .typeError

/-- `item.get("sha") or diff_refs.get("head_sha") or ""`. -/
def shaOf (item : List (Text × Json)) (diffRefs : Json) : Except Raised Json :=
  if truthyJson (get "sha" item) then .ok (get "sha" item)
  else (asDict diffRefs).map fun refs => orBlank (get "head_sha" refs)

/-- Map a GitLab MR API object onto a snapshot; missing keys degrade gracefully. -/
def fromGitlab (item : Json) : Except Raised MrSnapshot := do
  let item ← asDict item
  let author := orElse (get "author" item) (.obj [])
  let diffRefs := orElse (get "diff_refs" item) (.obj [])
  let iid ← intOf L (orElse (get "iid" item) (.int 0))
  let author ← asDict author
  let sha ← shaOf item diffRefs
  let updatedAt ← parseGitlabDatetime L (get "updated_at" item)
  .ok
    { iid
      title := orBlank (get "title" item)
      author := orElse (get "username" author) (orBlank (get "name" author))
      sourceBranch := orBlank (get "source_branch" item)
      targetBranch := orBlank (get "target_branch" item)
      sha
      webUrl := orBlank (get "web_url" item)
      state := orElse (get "state" item) (.str "opened".toList)
      updatedAt }

end Mapping

end GitlabReviewer.Gitlab
