import GitlabReviewer.Python.JsonText

/-! # The result object of a review

The review ends with a JSON object; the entrypoint brings it into the shape the
application stores. Missing keys get defaults and wrong types are coerced.
-/
namespace GitlabReviewer.Results
open Python

variable (F : FloatFormat)

/-- `str` of a float. -/
def strFloat : Python.Float → Text
  | .finite q => F.repr q
  | .infinity false => "inf".toList
  | .infinity true => "-inf".toList
  | .nan => "nan".toList

/-- Integers beyond the conversion limit, which no JSON text has, are written like the others. -/
def coerceText : Json → Text
  | .null => []
  | .str s => s
  | .arr items => dumps F false none (.arr items)
  | .obj fields => dumps F false none (.obj fields)
  | .bool true => "True".toList
  | .bool false => "False".toList
  | .int n => reprInt n
  | .float f => strFloat F f

def findingBuckets : List Text :=
  ["critical".toList, "important".toList, "minor".toList, "positive".toList]

/-- `data.get("findings")` as a dictionary of buckets; none is the `ValueError`. -/
def findingsOf (fields : List (Text × Json)) : Option (List (Text × Json)) :=
  match fields.lookup "findings".toList with
  | none => some []
  | some .null => some []
  | some (.arr items) => some [("important".toList, .arr items)]
  | some (.obj findings) => some findings
  | some _ => none

/-- `findings.get(bucket) or []`. -/
def bucketItems (findings : List (Text × Json)) (bucket : Text) : Option (List Json) :=
  match findings.lookup bucket with
  | none => some []
  | some value =>
      if truthyJson value then
        match value with
        | .arr items => some items
        | _ => none
      else some []

def normalizeFinding : Json → Json
  | .obj fields => .obj fields
  | item => .obj [("description".toList, .str (coerceText F item))]

def normalizeBucket (findings : List (Text × Json)) (bucket : Text) : Option (Text × Json) :=
  (bucketItems findings bucket).map fun items => (bucket, .arr (items.map (normalizeFinding F)))

def questionsOf (fields : List (Text × Json)) : List Json :=
  match fields.lookup "questions".toList with
  | none => []
  | some .null => []
  | some (.str s) => if truthy (strip s) then [.str s] else []
  | some (.arr questions) => questions
  | some value => [value]

/-- `_coerce_text(data.get(key))`. -/
def textField (key : String) (fields : List (Text × Json)) : Text :=
  coerceText F ((fields.lookup key.toList).getD .null)

/-- `_normalize_result`; none is the `ValueError` of data that cannot be a result. -/
def normalizeResult : Json → Option Json
  | .obj fields =>
      match findingsOf fields with
      | none => none
      | some findings =>
          (findingBuckets.mapM (normalizeBucket F findings)).map fun buckets =>
            .obj [("summary".toList, .str (textField F "summary" fields)), ("findings".toList, .obj buckets),
              ("commit_message_review".toList, .str (textField F "commit_message_review" fields)),
              ("questions".toList, .arr (((questionsOf fields).filter (· ≠ .null)).map fun q => .str (coerceText F q)))]
  | _ => none

theorem mapM_cons_eq_some {α β : Type} {f : α → Option β} {a : α} {l : List α} {out : List β}
    (h : (a :: l).mapM f = some out) : ∃ b bs, f a = some b ∧ l.mapM f = some bs ∧ out = b :: bs := by
  rw [List.mapM_cons] at h
  obtain ⟨b, hb, h⟩ := Option.bind_eq_some_iff.mp h
  obtain ⟨bs, hbs, h⟩ := Option.bind_eq_some_iff.mp h
  exact ⟨b, bs, hb, hbs, (Option.some.inj h).symm⟩

/-- The object with the four buckets `items` lists in order. -/
def resultObject (summary : Text) (items : List (List Json)) (review : Text) (questions : List Text) : Json :=
  .obj [("summary".toList, .str summary), ("findings".toList, .obj (findingBuckets.zip (items.map .arr))),
    ("commit_message_review".toList, .str review), ("questions".toList, .arr (questions.map .str))]

variable {F}

/-- A result has its texts as texts and a list of objects in each bucket. -/
theorem normalizeResult_shape {d normalized : Json} (h : normalizeResult F d = some normalized) :
    ∃ fields findings critical important minor positive questions, d = .obj fields ∧
      findingsOf fields = some findings ∧ bucketItems findings "critical".toList = some critical ∧
      bucketItems findings "important".toList = some important ∧ bucketItems findings "minor".toList = some minor ∧
      bucketItems findings "positive".toList = some positive ∧
      normalized = resultObject (textField F "summary" fields)
        (([critical, important, minor, positive].map fun items => items.map (normalizeFinding F)))
        (textField F "commit_message_review" fields) questions := by
  cases d with
  | obj fields =>
    rw [normalizeResult] at h
    split at h
    · cases h
    · rename_i findings hfindings
      obtain ⟨buckets, hbuckets, rfl⟩ := Option.map_eq_some_iff.mp h
      obtain ⟨_, _, hc, hthree, rfl⟩ := mapM_cons_eq_some hbuckets
      obtain ⟨_, _, hi, htwo, rfl⟩ := mapM_cons_eq_some hthree
      obtain ⟨_, _, hm, hone, rfl⟩ := mapM_cons_eq_some htwo
      obtain ⟨_, _, hp, hnone, rfl⟩ := mapM_cons_eq_some hone
      obtain ⟨c, hc', rfl⟩ := Option.map_eq_some_iff.mp hc
      obtain ⟨i, hi', rfl⟩ := Option.map_eq_some_iff.mp hi
      obtain ⟨m, hm', rfl⟩ := Option.map_eq_some_iff.mp hm
      obtain ⟨p, hp', rfl⟩ := Option.map_eq_some_iff.mp hp
      cases hnone
      refine ⟨fields, findings, c, i, m, p, ((questionsOf fields).filter (· ≠ .null)).map (coerceText F), rfl,
        hfindings, hc', hi', hm', hp', ?_⟩
      simp only [resultObject, List.map_map]
      rfl
  | null => cases h
  | bool b => cases h
  | int n => cases h
  | float f => cases h
  | str s => cases h
  | arr items => cases h

end GitlabReviewer.Results
