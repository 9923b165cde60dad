import GitlabReviewer.Foundation.Dictionary
import GitlabReviewer.Python.Json

/-! # Extra-projects entries and the paths they stand for

An entry names a repository by url, ref and path. A missing path is derived
from the url; a path is made relative to the checkout root by stripping blanks
and slashes, and refused when it is empty or has a `..` segment.
-/
namespace GitlabReviewer.Libraries
open Python

/-- What is taken from the standard library as it is: `str` of a value that is
no string, the checks `urlsplit` makes of a host, and the first six hex digits
of a url's SHA-1. -/
structure Runtime where
  str : Json → Text
  netlocOk : Text → Bool
  digest : Text → Text

def toText (E : Runtime) : Json → Text
  | .str s => s
  | value => E.str value

/-- `str(entry.get(key) or "")`. -/
def field (E : Runtime) (key : String) (fields : List (Text × Json)) : Text :=
  match fields.lookup key.toList with
  | none => []
  | some value => if truthyJson value then toText E value else []

/-- `entry[key] = value`. -/
def setField (key : String) (value : Json) (fields : List (Text × Json)) : List (Text × Json) :=
  if (fields.lookup key.toList).isSome then
    fields.map fun kv => if kv.1 = key.toList then (kv.1, value) else kv
  else fields ++ [(key.toList, value)]

def dot : Text := ['.']
def dotdot : Text := ['.', '.']

/-- `str(entry.get("path") or "").strip().strip("/")`. -/
def explicitPath (E : Runtime) (fields : List (Text × Json)) : Text :=
  stripSlashes (strip (field E "path" fields))

def entryUrl (E : Runtime) (fields : List (Text × Json)) : Text := strip (field E "url" fields)
def entryRef (E : Runtime) (fields : List (Text × Json)) : Text := strip (field E "ref" fields)

/-- The sanitized path for one entry, or none when it has no usable `path`. -/
def libraryRelpath (E : Runtime) : Json → Option Text
  | .obj fields =>
      let path := explicitPath E fields
      if path.isEmpty || (splitOn '/' path).contains dotdot then none else some path
  | _ => none

abbrev Path := List Text

/-- What joining a relative path to a `Path` appends: the segments without the
empty ones and the single dots. -/
def components (relpath : Text) : Path := (splitOn '/' relpath).filter fun s => !s.isEmpty && s != dot

def isAsciiLetter (c : Char) : Bool := ('a' ≤ c && c ≤ 'z') || ('A' ≤ c && c ≤ 'Z')

def isSchemeChar (c : Char) : Bool :=
  isAsciiLetter c || ('0' ≤ c && c ≤ '9') || c == '+' || c == '-' || c == '.'

/-- The url after its scheme, if it has one. -/
def dropScheme (url : Text) : Text :=
  match url.takeWhile (· ≠ ':'), url.dropWhile (· ≠ ':') with
  | c :: scheme, _ :: rest => if isAsciiLetter c && (c :: scheme).all isSchemeChar then rest else url
  | _, _ => url

def isNetlocEnd (c : Char) : Bool := c == '/' || c == '?' || c == '#'

def splitNetloc : Text → Text × Text
  | '/' :: '/' :: rest => (rest.takeWhile fun c => !isNetlocEnd c, rest.dropWhile fun c => !isNetlocEnd c)
  | url => ([], url)

/-- `urlsplit(url).path`; none is the `ValueError` of a bad host. -/
def urlPath (E : Runtime) (url : Text) : Option Text :=
  let url := (url.dropWhile fun c => c.toNat ≤ 0x20).filter fun c => c ≠ '\t' && c ≠ '\r' && c ≠ '\n'
  let (netloc, rest) := splitNetloc (dropScheme url)
  if netloc.contains '[' ≠ netloc.contains ']' || !E.netlocOk netloc then none
  else some ((rest.takeWhile (· ≠ '#')).takeWhile (· ≠ '?'))

/-- The last non-empty segment of the url's path, without a trailing `.git`. -/
def derivePath (E : Runtime) (url : Text) : Option Text :=
  (urlPath E url).map fun path =>
    match ((splitOn '/' path).filter fun s => !s.isEmpty).getLast? with
    | none => []
    | some name => if endsWith name ".git".toList then name.take (name.length - 4) else name

/-- The name of the checkout a url gets next to the names already given. -/
def ownName (E : Runtime) (owner : List (Text × Text)) (url name : Text) : Text :=
  match owner.lookup name with
  | some other => if other ≠ url then name ++ '-' :: E.digest url else name
  | none => name

/-- One pass over the entries; `owner` maps a derived path to its url. -/
def normalizeFrom (E : Runtime) : List (Text × Text) → List Json → Option (List Json)
  | _, [] => some []
  | owner, .obj fields :: rest =>
      let url := entryUrl E fields
      if url.isEmpty || !(explicitPath E fields).isEmpty then
        (normalizeFrom E owner rest).map (.obj fields :: ·)
      else do
        let name ← derivePath E url
        if name.isEmpty || (splitOn '/' name).contains dotdot then
          (normalizeFrom E owner rest).map (.obj fields :: ·)
        else
          let name := ownName E owner url name
          (normalizeFrom E ((name, url) :: owner) rest).map (.obj (setField "path" (.str name) fields) :: ·)
  | owner, entry :: rest => (normalizeFrom E owner rest).map (entry :: ·)

def normalizeExtraProjects (E : Runtime) (entries : List Json) : Option (List Json) :=
  normalizeFrom E [] entries

section Derived
variable {E : Runtime}

theorem derivePath_noSlash {url name : Text} (h : derivePath E url = some name) : '/' ∉ name := by
  obtain ⟨path, -, hname⟩ := Option.map_eq_some_iff.mp h
  subst hname
  split
  · exact List.not_mem_nil
  · rename_i last hlast
    have hmem := List.mem_filter.mp (List.mem_of_getLast? hlast)
    have hout : '/' ∉ last := not_mem_of_mem_splitOn hmem.1
    split
    · exact fun hm => hout (List.mem_of_mem_take hm)
    · exact hout

theorem setField_eq (key : String) (value : Json) (fields : List (Text × Json)) :
    setField key value fields = Foundation.setKey fields key.toList value := by
  have hkey : (fields.lookup key.toList).isSome = fields.any (·.1 == key.toList) := by
    rw [Bool.eq_iff_iff, List.lookup_isSome_iff, List.any_eq_true]
    simp only [beq_iff_eq]
    exact exists_congr fun f => and_congr_right fun _ => eq_comm
  unfold setField Foundation.setKey
  rw [hkey]
  split
  · refine List.map_congr_left fun f _ => ?_
    by_cases hf : f.1 = key.toList <;> simp [hf]
  · rfl

theorem lookup_setField (key : String) (value : Json) (fields : List (Text × Json)) :
    (setField key value fields).lookup key.toList = some value := by
  rw [setField_eq, Foundation.lookup_setKey_self]

/-- A path without slashes is one directory below the root, unless it is a dot. -/
theorem components_of_noSlash {name : Text} (h : '/' ∉ name) :
    components name = if name = [] ∨ name = dot then [] else [name] := by
  unfold components
  rw [splitOn_of_not_mem h]
  by_cases hempty : name = []
  · simp [hempty]
  · by_cases hdot : name = dot
    · simp [hdot]
    · simp [hempty, hdot]

end Derived

end GitlabReviewer.Libraries
