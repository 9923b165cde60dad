import GitlabReviewer.Python.Text

/-! # Lines of a text

`str.splitlines` ends a line at more characters than the newline, and takes a
carriage return and the newline behind it for one end.
-/
namespace GitlabReviewer.Python

def lineBreak (c : Char) : Bool := [0x0a, 0x0b, 0x0c, 0x0d, 0x1c, 0x1d, 0x1e, 0x85, 0x2028, 0x2029].contains c.toNat

/-- The lines of the rest, where a carriage return may just have ended a line,
and `line` is what the current line has so far. -/
def splitLinesFrom : Bool → Text → Text → List Text
  | _, line, [] => if line.isEmpty then [] else [line]
  | carriage, line, c :: rest =>
      if carriage && c == '\n' then splitLinesFrom false line rest
      else if lineBreak c then line :: splitLinesFrom (c == '\r') [] rest
      else splitLinesFrom false (line ++ [c]) rest

/-- `str.splitlines`. -/
def splitLines (text : Text) : List Text := splitLinesFrom false [] text

section Lines
variable {carriage : Bool} {line u v : Text} {c : Char}

theorem splitLinesFrom_text (hu : ∀ d ∈ u, lineBreak d = false) (rest : Text) :
    splitLinesFrom false line (u ++ rest) = splitLinesFrom false (line ++ u) rest := by
  induction u generalizing line with
  | nil => simp
  | cons d u ih =>
    rw [List.forall_mem_cons] at hu
    rw [List.cons_append, splitLinesFrom, Bool.false_and, if_neg Bool.false_ne_true, if_neg (by simp [hu.1]), ih hu.2,
      List.append_assoc, List.singleton_append]

theorem splitLines_first (hu : ∀ d ∈ u, lineBreak d = false) (hc : lineBreak c = true) (v : Text) :
    splitLines (u ++ c :: v) = u :: splitLinesFrom (c == '\r') [] v := by
  unfold splitLines
  rw [splitLinesFrom_text hu, splitLinesFrom, Bool.false_and, if_neg Bool.false_ne_true, if_pos hc, List.nil_append]

theorem splitLines_single (hu : ∀ d ∈ u, lineBreak d = false) : splitLines u = if u.isEmpty then [] else [u] := by
  have htext := @splitLinesFrom_text [] u hu []
  rwa [List.append_nil, List.nil_append] at htext

/-- The lines behind the end of a line, whatever stands before it. -/
theorem splitLinesFrom_suffix (hc : lineBreak c = true) (w v : Text) (hline : carriage = true → line = []) :
    splitLinesFrom (c == '\r') [] v <:+ splitLinesFrom carriage line (w ++ c :: v) := by
  induction w generalizing carriage line with
  | nil =>
    rw [List.nil_append, splitLinesFrom]
    split
    · rename_i hfeed
      rw [Bool.and_eq_true, beq_iff_eq] at hfeed
      obtain ⟨rfl, rfl⟩ := hfeed
      rw [hline rfl]
      exact List.suffix_refl _
    · exact List.suffix_cons _ _
  | cons d w ih =>
    rw [List.cons_append, splitLinesFrom]
    split
    · exact ih fun h => by cases h
    · split
      · exact (ih fun _ => rfl).trans (List.suffix_cons _ _)
      · exact ih fun h => by cases h

end Lines

/-- A text up to the first end of a line in it. -/
theorem firstLine (text : Text) : (∀ d ∈ text, lineBreak d = false) ∨
    ∃ u c v, text = u ++ c :: v ∧ (∀ d ∈ u, lineBreak d = false) ∧ lineBreak c = true := by
  induction text with
  | nil => simp
  | cons d text ih =>
    by_cases hd : lineBreak d = true
    · exact .inr ⟨[], d, text, rfl, by simp, hd⟩
    · rw [Bool.not_eq_true] at hd
      rcases ih with hnone | ⟨u, c, v, rfl, hu, hc⟩
      · exact .inl (by simpa [hd] using hnone)
      · exact .inr ⟨d :: u, c, v, rfl, by simpa [hd] using hu, hc⟩

example : splitLines "one\r\ntwo\n\nthree\r".toList = ["one".toList, "two".toList, [], "three".toList] := by decide

end GitlabReviewer.Python
