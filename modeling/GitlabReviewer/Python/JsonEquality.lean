import GitlabReviewer.Python.JsonRoundTrip

/-! # Equal documents

Two documents are equal when they differ at most in the order of their keys.
-/
namespace GitlabReviewer.Python

mutual
def Same : Json → Json → Prop
  | .obj a, .obj b => (∀ key, (a.lookup key).isSome = (b.lookup key).isSome) ∧ SameFields a b
  | .arr a, .arr b => SameItems a b
  | .null, w => w = .null
  | .bool b, w => w = .bool b
  | .int n, w => w = .int n
  | .float f, w => w = .float f
  | .str s, w => w = .str s
  | _, _ => False
def SameItems : List Json → List Json → Prop
  | [], [] => True
  | v :: a, w :: b => Same v w ∧ SameItems a b
  | _, _ => False
/-- Every field has an equal one on the other side. -/
def SameFields : List (Text × Json) → List (Text × Json) → Prop
  | [], _ => True
  | (key, v) :: a, b => (∃ w, b.lookup key = some w ∧ Same v w) ∧ SameFields a b
end

theorem sameFields_iff {a b : List (Text × Json)} :
    SameFields a b ↔ ∀ f ∈ a, ∃ w, b.lookup f.1 = some w ∧ Same f.2 w := by
  induction a with
  | nil => simp [SameFields]
  | cons f a ih =>
    obtain ⟨key, v⟩ := f
    simp [SameFields, ih]

section Refl
variable {F : FloatFormat}

mutual
theorem same_refl : (v : Json) → Dumpable F v → Same v v
  | .null, _ => rfl
  | .bool _, _ => rfl
  | .int _, _ => rfl
  | .float _, _ => rfl
  | .str _, _ => rfl
  | .arr items, h => by
      rw [Dumpable] at h
      rw [Same]
      exact sameItems_refl items h
  | .obj fields, h => by
      rw [Dumpable] at h
      rw [Same]
      exact ⟨fun _ => rfl, sameFields_refl fields h.2 fields fun f hf => lookup_of_mem h.1 hf⟩
theorem sameItems_refl : (items : List Json) → DumpableItems F items → SameItems items items
  | [], _ => ⟨⟩
  | v :: items, h => by
      rw [DumpableItems] at h
      exact ⟨same_refl v h.1, sameItems_refl items h.2⟩
theorem sameFields_refl : (fields : List (Text × Json)) → DumpableFields F fields →
    ∀ all : List (Text × Json), (∀ f ∈ fields, all.lookup f.1 = some f.2) → SameFields fields all
  | [], _, _, _ => ⟨⟩
  | (key, v) :: fields, h, all, hall => by
      rw [DumpableFields] at h
      rw [List.forall_mem_cons] at hall
      exact ⟨⟨v, hall.1, same_refl v h.1⟩, sameFields_refl fields h.2 all hall.2⟩
end

end Refl

theorem lookup_insertField (fields : List (Text × Json)) (key : Text) (value : Json) (other : Text) :
    (insertField fields key value).lookup other = if other = key then some value else fields.lookup other := by
  rw [insertField_eq]
  by_cases ho : other = key
  · rw [if_pos ho, ho, Foundation.lookup_setKey_self]
  · rw [if_neg ho, Foundation.lookup_setKey_ne _ _ ho]

end GitlabReviewer.Python
