import Mathlib.Data.List.Infix
import Mathlib.Tactic.Common

/-! # Paragraphs

A text of paragraphs with a blank line between them, that is two separators in a
row, is taken apart again at its blank lines, if no paragraph has one of its own
or ends with a separator.
-/
namespace Foundation
variable {α : Type}

/-- A paragraph that stays whole. -/
structure Solid (sep : α) (p : List α) : Prop where
  noBlank : ¬ [sep, sep] <:+: p
  noEnd : p.getLast? ≠ some sep

section Solid
variable {sep a b : α} {p line : List α}

theorem Solid.tail (h : Solid sep (a :: b :: p)) : Solid sep (b :: p) := by
  constructor
  · intro hin
    exact h.noBlank (hin.trans (List.suffix_cons a (b :: p)).isInfix)
  · have hlast := h.noEnd
    rwa [List.getLast?_cons_cons] at hlast

theorem Solid.not_both (h : Solid sep (a :: b :: p)) : ¬ (a = sep ∧ b = sep) := by
  rintro ⟨rfl, rfl⟩
  exact h.noBlank ⟨[], p, rfl⟩

theorem solid_line (h : sep ∉ line) : Solid sep line := by
  constructor
  · intro hin
    exact h (hin.subset List.mem_cons_self)
  · intro hlast
    exact h (List.mem_of_getLast? hlast)

/-- A line before a paragraph that starts with another line. -/
theorem Solid.line_append (h : Solid sep p) (hline : sep ∉ line) (hne : p ≠ []) (hhead : p.head? ≠ some sep) :
    Solid sep (line ++ sep :: p) := by
  have hstart : ∀ rest, p ≠ sep :: rest := by
    rintro rest rfl
    exact hhead rfl
  constructor
  · rintro ⟨before, after, he⟩
    rw [List.append_assoc] at he
    rcases List.append_eq_append_iff.mp he with ⟨mid, hmid, hafter⟩ | ⟨mid, hmid, hbefore⟩
    · cases mid with
      | nil => exact hstart after (List.cons.inj hafter).2.symm
      | cons d mid =>
        obtain rfl := (List.cons.inj hafter).1
        exact hline (by simp [hmid])
    · cases mid with
      | nil => exact hstart after (List.cons.inj hbefore).2
      | cons d mid => exact h.noBlank ⟨mid, after, by simp [(List.cons.inj hbefore).2]⟩
  · obtain ⟨c, rest, rfl⟩ := List.exists_cons_of_ne_nil hne
    have hlast : (line ++ sep :: c :: rest).getLast? = (c :: rest).getLast? := by simp [List.getLast?_cons]
    rw [hlast]
    exact h.noEnd

/-- Lines that are not empty have no blank line among them. -/
theorem solid_intercalate {lines : List (List α)} (h : ∀ line ∈ lines, line ≠ [] ∧ sep ∉ line) :
    Solid sep (List.intercalate [sep] lines) := by
  induction lines with
  | nil => exact ⟨by simp, by simp⟩
  | cons line lines ih =>
    obtain ⟨-, hline⟩ := h line List.mem_cons_self
    have hrest := ih fun l hl => h l (List.mem_cons_of_mem line hl)
    cases lines with
    | nil =>
      rw [List.intercalate_singleton]
      exact solid_line hline
    | cons next lines =>
      obtain ⟨hnext, hsep⟩ := h next (by simp)
      obtain ⟨c, next, rfl⟩ := List.exists_cons_of_ne_nil hnext
      have hhead : ∃ rest, List.intercalate [sep] ((c :: next) :: lines) = c :: rest := by
        cases lines with
        | nil => exact ⟨next, List.intercalate_singleton⟩
        | cons l ls => exact ⟨_, by rw [List.intercalate_cons_cons, List.append_assoc, List.cons_append]⟩
      obtain ⟨rest, hrest'⟩ := hhead
      rw [List.intercalate_cons_cons, List.append_assoc, List.singleton_append]
      apply hrest.line_append hline
      · simp [hrest']
      · rw [hrest', List.head?_cons]
        rintro ⟨⟩
        exact hsep List.mem_cons_self

end Solid

section Cut
variable [DecidableEq α] (sep : α)

/-- The text is cut at the first two separators in a row, and so on. -/
def paragraphs : List α → List (List α)
  | [] => [[]]
  | [a] => [[a]]
  | a :: b :: rest =>
      if a = sep ∧ b = sep then [] :: paragraphs rest
      else match paragraphs (b :: rest) with
        | [] => [[a]]
        | p :: ps => (a :: p) :: ps

variable {sep} {p : List α}

theorem paragraphs_append (h : Solid sep p) (rest : List α) : paragraphs sep (p ++ sep :: sep :: rest) = p :: paragraphs sep rest := by
  induction p with
  | nil => simp [paragraphs]
  | cons a p ih =>
    cases p with
    | nil =>
      have ha : a ≠ sep := by
        rintro rfl
        exact h.noEnd rfl
      simp [paragraphs, ha]
    | cons b p =>
      have hrest := ih h.tail
      rw [List.cons_append] at hrest
      rw [List.cons_append, List.cons_append, paragraphs, if_neg h.not_both, hrest]

theorem paragraphs_solid (h : Solid sep p) : paragraphs sep p = [p] := by
  induction p with
  | nil => rfl
  | cons a p ih =>
    cases p with
    | nil => rfl
    | cons b p => rw [paragraphs, if_neg h.not_both, ih h.tail]

/-- The paragraphs of a text are read back. -/
theorem paragraphs_intercalate {ps : List (List α)} (hne : ps ≠ []) (h : ∀ p ∈ ps, Solid sep p) :
    paragraphs sep (List.intercalate [sep, sep] ps) = ps := by
  induction ps with
  | nil => exact absurd rfl hne
  | cons p ps ih =>
    cases ps with
    | nil =>
      rw [List.intercalate_singleton]
      exact paragraphs_solid (h p List.mem_cons_self)
    | cons q ps =>
      rw [List.intercalate_cons_cons, List.append_assoc, List.cons_append, List.cons_append, List.nil_append,
        paragraphs_append (h p List.mem_cons_self), ih (List.cons_ne_nil q ps) fun r hr => h r (List.mem_cons_of_mem p hr)]

end Cut

end Foundation
