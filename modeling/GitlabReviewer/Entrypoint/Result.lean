import GitlabReviewer.Entrypoint.Session
import GitlabReviewer.Results.Extract

/-! # The result in the output of opencode

The last fenced block, parsed and brought into shape. Its strings may hold lone
surrogates, which a JSON text can escape and no file can be written with.
-/
namespace GitlabReviewer.Entrypoint
open Python Foundation

namespace Value

section Flat
variable (F : FloatFormat)

mutual
/-- `json.dumps(value, ensure_ascii=False)`. -/
def dumpFlat : Value → Str
  | .null => Entrypoint.str "null"
  | .bool true => Entrypoint.str "true"
  | .bool false => Entrypoint.str "false"
  | .int n => ofText (reprInt n)
  | .float f => ofText (F.dump f)
  | .str s => dumpStr s
  | .arr [] => Entrypoint.str "[]"
  | .arr (item :: items) => Entrypoint.str "[" ++ dumpFlat item ++ dumpFlatItems items
  | .obj [] => Entrypoint.str "\x7b\x7d"
  | .obj ((key, value) :: fields) =>
      Entrypoint.str "\x7b" ++ dumpStr key ++ Entrypoint.str ": " ++ dumpFlat value ++ dumpFlatFields fields
def dumpFlatItems : List Value → Str
  | [] => Entrypoint.str "]"
  | item :: items => Entrypoint.str ", " ++ dumpFlat item ++ dumpFlatItems items
def dumpFlatFields : List (Str × Value) → Str
  | [] => Entrypoint.str "\x7d"
  | (key, value) :: fields =>
      Entrypoint.str ", " ++ dumpStr key ++ Entrypoint.str ": " ++ dumpFlat value ++ dumpFlatFields fields
end

end Flat

def isNull : Value → Bool
  | .null => true
  | _ => false

end Value

section Normalize
variable (F : FloatFormat)

/-- Integers beyond the conversion limit, which no JSON text has, are written like the others. -/
def coerceText : Value → Str
  | .null => []
  | .str s => s
  | .arr items => Value.dumpFlat F (.arr items)
  | .obj fields => Value.dumpFlat F (.obj fields)
  | .bool true => str "True"
  | .bool false => str "False"
  | .int n => ofText (reprInt n)
  | .float f => ofText (Results.strFloat F f)

def findingBuckets : List Str := Results.findingBuckets.map ofText

/-- `data.get("findings")` as a dictionary of buckets; none is the `ValueError`. -/
def findingsOf (fields : List (Str × Value)) : Option (List (Str × Value)) :=
  match Value.get "findings" fields with
  | .null => some []
  | .arr items => some [(str "important", .arr items)]
  | .obj findings => some findings
  | _ => none

/-- `findings.get(bucket) or []`. -/
def bucketItems (findings : List (Str × Value)) (bucket : Str) : Option (List Value) :=
  match Value.orElse ((findings.lookup bucket).getD .null) (.arr []) with
  | .arr items => some items
  | _ => none

def normalizeFinding : Value → Value
  | .obj fields => .obj fields
  | item => .obj [(str "description", .str (coerceText F item))]

def normalizeBucket (findings : List (Str × Value)) (bucket : Str) : Option (Str × Value) :=
  (bucketItems findings bucket).map fun items => (bucket, .arr (items.map (normalizeFinding F)))

def questionsOf (fields : List (Str × Value)) : List Value :=
  match Value.get "questions" fields with
  | .null => []
  | .str s => if (strip s).isEmpty then [] else [.str s]
  | .arr questions => questions
  | value => [value]

/-- `_normalize_result`; none is the `ValueError` of data that cannot be a result. -/
def normalizeResult : Value → Option (List (Str × Value))
  | .obj fields =>
      match findingsOf fields with
      | none => none
      | some findings =>
          (findingBuckets.mapM (normalizeBucket F findings)).map fun buckets =>
            [(str "summary", .str (coerceText F (Value.get "summary" fields))), (str "findings", .obj buckets),
              (str "commit_message_review", .str (coerceText F (Value.get "commit_message_review" fields))),
              (str "questions", .arr (((questionsOf fields).filter fun q => !q.isNull).map fun q => .str (coerceText F q)))]
  | _ => none

/-- `_extract_result`; what `json.loads` raises beside a `JSONDecodeError` is not caught. -/
def extractResult (M : Machine) (text : Text) : Except Raised (Option (List (Str × Value))) :=
  match (Results.findFenced text).getLast? with
  | none => .ok none
  | some block => match M.loads block with
    | .decodeError _ => .ok none
    | .raised e => .error e
    | .value v => .ok (normalizeResult M.floats v)

end Normalize

end GitlabReviewer.Entrypoint
