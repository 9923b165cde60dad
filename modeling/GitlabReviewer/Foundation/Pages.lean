import Mathlib.Data.List.Basic

/-! # The pages of a list

Page `k` is what `OFFSET` and `LIMIT` leave of a list. The pages one after the
other are the list, once there are enough of them.
-/
namespace Foundation

section Pages
variable {α : Type}

def page (size : ℕ) (l : List α) (k : ℕ) : List α := (l.drop (k * size)).take size

theorem length_page (size : ℕ) (l : List α) (k : ℕ) : (page size l k).length = min size (l.length - k * size) := by
  rw [page, List.length_take, List.length_drop]

theorem flatMap_page (size : ℕ) (l : List α) (count : ℕ) : (List.range count).flatMap (page size l) = l.take (count * size) := by
  induction count with
  | zero => simp
  | succ count ih =>
    rw [List.range_succ, List.flatMap_append, ih, List.flatMap_singleton, page, Nat.add_mul, Nat.one_mul, List.take_add]

theorem flatMap_page_eq {size : ℕ} {l : List α} {count : ℕ} (h : l.length ≤ count * size) :
    (List.range count).flatMap (page size l) = l := by
  rw [flatMap_page, List.take_of_length_le h]

/-- The rows of a page stand in the list from the offset on. -/
theorem getElem?_page {size : ℕ} {l : List α} {k i : ℕ} (h : i < size) : (page size l k)[i]? = l[k * size + i]? := by
  rw [page, List.getElem?_take_of_lt h, List.getElem?_drop]

end Pages

end Foundation
