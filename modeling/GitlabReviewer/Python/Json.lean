import GitlabReviewer.Python.Text
import Mathlib.Data.Rat.Defs

/-! # JSON values as the program holds them

The values `json.loads` produces: integers of any size, floats with the
non-finite ones, and objects as dictionaries in insertion order.
-/
namespace GitlabReviewer.Python

inductive Float where
  | finite (q : ℚ)
  | infinity (negative : Bool)
  | nan
  deriving DecidableEq

inductive Json where
  | null
  | bool (b : Bool)
  | int (n : ℤ)
  | float (f : Float)
  | str (s : Text)
  | arr (items : List Json)
  | obj (fields : List (Text × Json))

namespace Json

mutual
def beq : Json → Json → Bool
  | null, null => true
  | bool a, bool b => a == b
  | int a, int b => a == b
  | float a, float b => decide (a = b)
  | str a, str b => a == b
  | arr a, arr b => beqItems a b
  | obj a, obj b => beqFields a b
  | _, _ => false
def beqItems : List Json → List Json → Bool
  | [], [] => true
  | a :: as, b :: bs => beq a b && beqItems as bs
  | _, _ => false
def beqFields : List (Text × Json) → List (Text × Json) → Bool
  | [], [] => true
  | (k, a) :: as, (l, b) :: bs => k == l && beq a b && beqFields as bs
  | _, _ => false
end

mutual
theorem beq_iff : (a b : Json) → (beq a b = true ↔ a = b)
  | null, b => by cases b <;> simp [beq]
  | bool x, b => by cases b <;> simp [beq]
  | int n, b => by cases b <;> simp [beq]
  | float f, b => by cases b <;> simp [beq]
  | str s, b => by cases b <;> simp [beq]
  | arr items, b => by
      cases b with
      | arr items' => simpa [beq] using beqItems_iff items items'
      | _ => simp [beq]
  | obj fields, b => by
      cases b with
      | obj fields' => simpa [beq] using beqFields_iff fields fields'
      | _ => simp [beq]
theorem beqItems_iff : (as bs : List Json) → (beqItems as bs = true ↔ as = bs)
  | [], bs => by cases bs <;> simp [beqItems]
  | a :: as, [] => by simp [beqItems]
  | a :: as, b :: bs => by
      rw [beqItems, Bool.and_eq_true, beq_iff a b, beqItems_iff as bs, List.cons.injEq]
theorem beqFields_iff : (as bs : List (Text × Json)) → (beqFields as bs = true ↔ as = bs)
  | [], bs => by cases bs <;> simp [beqFields]
  | (k, a) :: as, [] => by simp [beqFields]
  | (k, a) :: as, (l, b) :: bs => by
      rw [beqFields, Bool.and_eq_true, Bool.and_eq_true, beq_iff a b, beqFields_iff as bs,
        List.cons.injEq, Prod.mk.injEq, beq_iff_eq]
end

instance : DecidableEq Json := fun a b => decidable_of_iff _ (beq_iff a b)

end Json

/-- The truth value of a JSON value. -/
def truthyJson : Json → Bool
  | .null => false
  | .bool b => b
  | .int n => n ≠ 0
  | .float (.finite q) => q ≠ 0
  | .float _ => true
  | .str s => !s.isEmpty
  | .arr items => !items.isEmpty
  | .obj fields => !fields.isEmpty

theorem lookup_of_mem {fields : List (Text × Json)} (h : (fields.map (·.1)).Nodup) {f : Text × Json}
    (hf : f ∈ fields) : fields.lookup f.1 = some f.2 := by
  induction fields with
  | nil => cases hf
  | cons g fields ih =>
    rw [List.map_cons, List.nodup_cons] at h
    rcases List.mem_cons.mp hf with rfl | hmem
    · rw [List.lookup_cons, beq_self_eq_true]
    · have hne : (f.1 == g.1) = false := by
        rw [beq_eq_false_iff_ne]
        intro heq
        exact h.1 (heq ▸ List.mem_map_of_mem hmem)
      rw [List.lookup_cons, hne]
      exact ih h.2 hmem

theorem mem_of_lookup {fields : List (Text × Json)} {key : Text} {v : Json} (h : fields.lookup key = some v) :
    (key, v) ∈ fields := by
  obtain ⟨before, after, rfl, -⟩ := List.lookup_eq_some_iff.mp h
  simp

end GitlabReviewer.Python
