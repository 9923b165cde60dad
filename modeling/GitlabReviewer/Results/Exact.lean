import GitlabReviewer.Results.Schema
import Mathlib.Data.List.Basic

/-! # The normalized result

Which values the entrypoint refuses, what it makes of the others, and that
normalizing once is enough.
-/
namespace GitlabReviewer.Results
open Python

/-- What cannot be a result. -/
inductive Refused : Json → Prop
  | notObject {d : Json} (h : ∀ fields, d ≠ .obj fields) : Refused d
  | findings {fields : List (Text × Json)} {value : Json} (h : fields.lookup "findings".toList = some value)
      (notNull : value ≠ .null) (notList : ∀ items, value ≠ .arr items) (notObject : ∀ findings, value ≠ .obj findings) :
      Refused (.obj fields)
  | bucket {fields findings : List (Text × Json)} {bucket : Text} {value : Json}
      (h : fields.lookup "findings".toList = some (.obj findings)) (mem : bucket ∈ findingBuckets)
      (lookup : findings.lookup bucket = some value) (truthy : truthyJson value = true)
      (notList : ∀ items, value ≠ .arr items) : Refused (.obj fields)

/-- The items of a list; anything else has none. -/
def listed : Option Json → List Json
  | some (.arr items) => items
  | _ => []

/-- The items of a bucket in the input; an unbucketed list is all important. -/
def inputItems (fields : List (Text × Json)) (bucket : Text) : List Json :=
  match fields.lookup "findings".toList with
  | some (.arr items) => if bucket = "important".toList then items else []
  | some (.obj findings) => listed (findings.lookup bucket)
  | _ => []

/-- An object is recorded as it is, anything else as the description of one. -/
inductive Recorded (F : FloatFormat) : Json → Json → Prop
  | object (fields : List (Text × Json)) : Recorded F (.obj fields) (.obj fields)
  | described {item : Json} (h : ∀ fields, item ≠ .obj fields) :
      Recorded F item (.obj [("description".toList, .str (coerceText F item))])

/-- The fields of a result, with its four buckets. -/
def exactFields (summary : Text) (items : Text → List Json) (review : Text) (questions : List Text) : List (Text × Json) :=
  [("summary".toList, .str summary), ("findings".toList, .obj (findingBuckets.map fun bucket => (bucket, .arr (items bucket)))),
    ("commit_message_review".toList, .str review), ("questions".toList, .arr (questions.map .str))]

section Exact
variable {F : FloatFormat} {fields findings : List (Text × Json)} {bucket : Text}

theorem bucketItems_eq_none_iff : bucketItems findings bucket = none ↔
    ∃ value, findings.lookup bucket = some value ∧ truthyJson value = true ∧ ∀ items, value ≠ .arr items := by
  unfold bucketItems
  cases findings.lookup bucket with
  | none => simp
  | some value =>
    by_cases htruthy : truthyJson value = true
    · cases value <;> simp [htruthy]
    · simp [htruthy]

theorem findingsOf_eq_none_iff : findingsOf fields = none ↔ ∃ value, fields.lookup "findings".toList = some value ∧
    value ≠ .null ∧ (∀ items, value ≠ .arr items) ∧ ∀ findings, value ≠ .obj findings := by
  unfold findingsOf
  cases fields.lookup "findings".toList with
  | none => simp
  | some value => cases value <;> simp

theorem listed_of_bucketItems {items : List Json} (h : bucketItems findings bucket = some items) :
    items = listed (findings.lookup bucket) := by
  unfold bucketItems at h
  cases hlookup : findings.lookup bucket with
  | none =>
    rw [hlookup] at h
    exact (Option.some.inj h).symm
  | some value =>
    rw [hlookup] at h
    by_cases htruthy : truthyJson value = true
    · cases value <;> simp_all [listed]
    · cases value <;> simp_all [listed, truthyJson]

/-- A bucket that is not refused holds what stood in the input. -/
theorem inputItems_of_bucketItems {items : List Json} (hfindings : findingsOf fields = some findings)
    (h : bucketItems findings bucket = some items) : items = inputItems fields bucket := by
  rw [listed_of_bucketItems h]
  unfold findingsOf at hfindings
  unfold inputItems
  split at hfindings
  · rename_i hlookup
    cases hfindings
    rw [hlookup]
    rfl
  · rename_i hlookup
    cases hfindings
    rw [hlookup]
    rfl
  · rename_i important hlookup
    cases hfindings
    rw [hlookup]
    by_cases hbucket : bucket = "important".toList
    · simp [hbucket, listed]
    · have hne : (bucket == "important".toList) = false := beq_eq_false_iff_ne.mpr hbucket
      simp only [List.lookup_cons, hne, List.lookup_nil, listed, if_neg hbucket]
  · rename_i found hlookup
    cases hfindings
    rw [hlookup]
  · cases hfindings

/-- Only an object of buckets has a bucket to refuse. -/
theorem lookup_of_bucketItems_eq_none (hfindings : findingsOf fields = some findings) (h : bucketItems findings bucket = none) :
    fields.lookup "findings".toList = some (.obj findings) := by
  obtain ⟨value, hvalue, -, hlist⟩ := bucketItems_eq_none_iff.mp h
  unfold findingsOf at hfindings
  split at hfindings
  · cases hfindings
    cases hvalue
  · cases hfindings
    cases hvalue
  · rename_i items _
    cases hfindings
    rw [List.lookup_cons] at hvalue
    split at hvalue
    · exact absurd (Option.some.inj hvalue).symm (hlist items)
    · cases hvalue
  · rename_i hlookup
    cases hfindings
    exact hlookup
  · cases hfindings

theorem normalizeResult_obj_eq_none_iff (hfindings : findingsOf fields = some findings) :
    normalizeResult F (.obj fields) = none ↔ ∃ bucket ∈ findingBuckets, bucketItems findings bucket = none := by
  simp only [normalizeResult, hfindings, ← Option.not_isSome_iff_eq_none, mapM_isSome_iff,
    normalizeBucket, Option.isSome_map, not_forall, exists_prop]

theorem normalizeResult_eq_none_iff (d : Json) : normalizeResult F d = none ↔ Refused d := by
  cases d with
  | obj fields =>
    cases hfindings : findingsOf fields with
    | none =>
      obtain ⟨value, hvalue, hnull, hlist, hobject⟩ := findingsOf_eq_none_iff.mp hfindings
      simp only [normalizeResult, hfindings, true_iff]
      exact .findings hvalue hnull hlist hobject
    | some findings =>
      rw [normalizeResult_obj_eq_none_iff hfindings]
      constructor
      · rintro ⟨bucket, hbucket, hnone⟩
        obtain ⟨value, hvalue, htruthy, hlist⟩ := bucketItems_eq_none_iff.mp hnone
        exact .bucket (lookup_of_bucketItems_eq_none hfindings hnone) hbucket hvalue htruthy hlist
      · intro h
        cases h with
        | notObject h => exact absurd rfl (h fields)
        | findings hvalue hnull hlist hobject =>
          rw [findingsOf_eq_none_iff.mpr ⟨_, hvalue, hnull, hlist, hobject⟩] at hfindings
          cases hfindings
        | bucket hlookup hbucket hvalue htruthy hlist =>
          rw [findingsOf, hlookup] at hfindings
          cases hfindings
          exact ⟨_, hbucket, bucketItems_eq_none_iff.mpr ⟨_, hvalue, htruthy, hlist⟩⟩
  | _ => exact ⟨fun _ => .notObject (by simp), fun _ => rfl⟩

theorem recorded_normalizeFinding (item : Json) : Recorded F item (normalizeFinding F item) := by
  cases item with
  | obj fields => exact .object fields
  | _ => exact .described (by simp)

theorem normalizeFinding_of_recorded {item result : Json} (h : Recorded F item result) : normalizeFinding F result = result := by
  cases h <;> rfl

theorem exactFields_of_normalizeResult {d result : Json} (h : normalizeResult F d = some result) : ∃ fields questions, d = .obj fields ∧
    result = .obj (exactFields (textField F "summary" fields) (fun bucket => (inputItems fields bucket).map (normalizeFinding F))
      (textField F "commit_message_review" fields) questions) := by
  obtain ⟨fields, findings, critical, important, minor, positive, questions, rfl, hfindings, hc, hi, hm, hp, rfl⟩ :=
    normalizeResult_shape h
  refine ⟨fields, questions, rfl, ?_⟩
  rw [inputItems_of_bucketItems hfindings hc, inputItems_of_bucketItems hfindings hi, inputItems_of_bucketItems hfindings hm,
    inputItems_of_bucketItems hfindings hp]
  rfl

theorem mapM_eq_some_map {α β : Type} {f : α → Option β} {g : α → β} {l : List α} (h : ∀ a ∈ l, f a = some (g a)) :
    l.mapM f = some (l.map g) := by
  induction l with
  | nil => rfl
  | cons a l ih =>
    rw [List.forall_mem_cons] at h
    rw [List.mapM_cons, h.1, ih h.2]
    rfl

theorem bucketItems_of_lookup {items : List Json} (h : findings.lookup bucket = some (.arr items)) :
    bucketItems findings bucket = some items := by
  cases items <;> simp [bucketItems, h, truthyJson]

/-- Texts, buckets of objects and questions that are texts: nothing is left to coerce. -/
theorem normalizeResult_exactFields (summary review : Text) {items : Text → List Json} (questions : List Text)
    (hitems : ∀ bucket ∈ findingBuckets, ∀ item ∈ items bucket, normalizeFinding F item = item) :
    normalizeResult F (.obj (exactFields summary items review questions)) =
      some (.obj (exactFields summary items review questions)) := by
  have hfindings : findingsOf (exactFields summary items review questions) =
      some (findingBuckets.map fun bucket => (bucket, .arr (items bucket))) := rfl
  have hbuckets : findingBuckets.mapM (normalizeBucket F (findingBuckets.map fun bucket => (bucket, .arr (items bucket)))) =
      some (findingBuckets.map fun bucket => (bucket, .arr (items bucket))) := by
    refine mapM_eq_some_map fun bucket hbucket => ?_
    have hsame : (items bucket).map (normalizeFinding F) = items bucket :=
      (List.map_congr_left (hitems bucket hbucket)).trans (List.map_id _)
    have hlookup := List.lookup_graph (fun bucket => Json.arr (items bucket)) hbucket
    rw [normalizeBucket, bucketItems_of_lookup hlookup, Option.map_some, hsame]
  have hlist : questionsOf (exactFields summary items review questions) = questions.map .str := rfl
  have hquestions : ((questions.map Json.str).filter (· ≠ .null)).map (fun q => Json.str (coerceText F q)) = questions.map .str := by
    rw [List.filter_eq_self.mpr (by simp), List.map_map]
    rfl
  rw [normalizeResult, hfindings]
  dsimp only
  rw [hbuckets, Option.map_some, hlist, hquestions]
  rfl

/-- Normalization refuses exactly what cannot be a result. Anything else becomes
an object with texts, the four buckets with an object for each item of the input,
and questions that are texts, and is not changed by normalizing it again. -/
theorem normalizeResult_exact (d : Json) : (normalizeResult F d = none ↔ Refused d) ∧
    ∀ result, normalizeResult F d = some result →
      (∃ fields items questions, d = .obj fields ∧ result = .obj (exactFields (textField F "summary" fields) items
          (textField F "commit_message_review" fields) questions) ∧
        ∀ bucket ∈ findingBuckets, List.Forall₂ (Recorded F) (inputItems fields bucket) (items bucket)) ∧
      normalizeResult F result = some result := by
  refine ⟨normalizeResult_eq_none_iff d, fun result h => ?_⟩
  obtain ⟨fields, questions, rfl, rfl⟩ := exactFields_of_normalizeResult h
  have hrecorded : ∀ bucket, List.Forall₂ (Recorded F) (inputItems fields bucket) ((inputItems fields bucket).map (normalizeFinding F)) := by
    intro bucket
    rw [List.forall₂_map_right_iff, List.forall₂_same]
    exact fun item _ => recorded_normalizeFinding item
  refine ⟨⟨fields, _, questions, rfl, rfl, fun bucket _ => hrecorded bucket⟩, normalizeResult_exactFields _ _ _ fun bucket _ => ?_⟩
  exact List.forall_mem_map.mpr fun item _ => normalizeFinding_of_recorded (recorded_normalizeFinding item)

end Exact

end GitlabReviewer.Results
