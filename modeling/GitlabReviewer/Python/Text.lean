import Mathlib.Data.List.DropRight
import Mathlib.Data.List.Basic

/-! # The string methods the program uses

A text is its list of code points. The functions follow the methods of the same
names on Python strings.
-/
namespace GitlabReviewer.Python

abbrev Text := List Char

/-- `str.isspace` of one character. -/
def isSpace (c : Char) : Bool :=
  (9 ≤ c.toNat && c.toNat ≤ 13) || (28 ≤ c.toNat && c.toNat ≤ 32) || c.toNat == 0x85 ||
    c.toNat == 0xa0 || c.toNat == 0x1680 || (0x2000 ≤ c.toNat && c.toNat ≤ 0x200a) ||
    c.toNat == 0x2028 || c.toNat == 0x2029 || c.toNat == 0x202f || c.toNat == 0x205f ||
    c.toNat == 0x3000

/-- Both ends stripped of the characters satisfying `p`. -/
def stripBy (p : Char → Bool) (s : Text) : Text := (s.dropWhile p).rdropWhile p

def strip (s : Text) : Text := stripBy isSpace s
def stripSlashes (s : Text) : Text := stripBy (· == '/') s
def rstripNewlines (s : Text) : Text := s.rdropWhile (· == '\n')

/-- `"\n".join(lines)`. -/
def joinLines (lines : List Text) : Text := List.intercalate ['\n'] lines

/-- `s.split(sep)` for a one-character separator. -/
def splitOn (sep : Char) : Text → List Text
  | [] => [[]]
  | c :: rest =>
      if c = sep then [] :: splitOn sep rest
      else match splitOn sep rest with
        | [] => [[c]]
        | head :: tail => (c :: head) :: tail

/-- `s.endswith(suffix)`. -/
def endsWith (s suffix : Text) : Bool := suffix.isSuffixOf s

/-- Truth value of a text: the empty one is false. -/
def truthy (s : Text) : Bool := !s.isEmpty

theorem splitOn_ne_nil (sep : Char) (s : Text) : splitOn sep s ≠ [] := by
  cases s with
  | nil => simp [splitOn]
  | cons c rest =>
    unfold splitOn
    split
    · simp
    · split <;> simp

theorem joinLines_cons_cons (x y : Text) (rest : List Text) :
    joinLines (x :: y :: rest) = x ++ '\n' :: joinLines (y :: rest) := by
  simp [joinLines, List.intercalate]

@[simp] theorem joinLines_singleton (x : Text) : joinLines [x] = x := by
  simp [joinLines, List.intercalate]

theorem joinLines_concat {lines : List Text} (h : lines ≠ []) (x : Text) :
    joinLines (lines ++ [x]) = joinLines lines ++ '\n' :: x := by
  induction lines with
  | nil => exact absurd rfl h
  | cons y rest ih =>
    cases rest with
    | nil => simp [joinLines_cons_cons]
    | cons z rest =>
      rw [List.cons_append, List.cons_append, joinLines_cons_cons, joinLines_cons_cons, ← List.cons_append,
        ih (by simp), List.append_assoc, List.cons_append]

/-- Joining the lines of a text gives the text. -/
theorem joinLines_splitOn (s : Text) : joinLines (splitOn '\n' s) = s := by
  induction s with
  | nil => simp [splitOn]
  | cons c rest ih =>
    unfold splitOn
    cases hrest : splitOn '\n' rest with
    | nil => exact absurd hrest (splitOn_ne_nil _ _)
    | cons head tail =>
      rw [hrest] at ih
      by_cases hc : c = '\n'
      · rw [if_pos hc, joinLines_cons_cons, ih, hc]
        rfl
      · rw [if_neg hc]
        cases tail with
        | nil =>
          rw [joinLines_singleton] at ih
          dsimp only
          rw [joinLines_singleton, ih]
        | cons y tail =>
          rw [joinLines_cons_cons] at ih
          dsimp only
          rw [joinLines_cons_cons, List.cons_append, ih]

theorem not_mem_of_mem_splitOn {sep : Char} {s line : Text} (h : line ∈ splitOn sep s) : sep ∉ line := by
  induction s generalizing line with
  | nil => simp_all [splitOn]
  | cons c rest ih =>
    unfold splitOn at h
    cases hrest : splitOn sep rest with
    | nil => exact absurd hrest (splitOn_ne_nil _ _)
    | cons head tail =>
      rw [hrest] at h ih
      by_cases hc : c = sep
      · rw [if_pos hc] at h
        rcases List.mem_cons.mp h with rfl | h
        · simp
        · exact ih h
      · rw [if_neg hc] at h
        rcases List.mem_cons.mp h with rfl | h
        · have hhead := ih List.mem_cons_self
          simp [hhead, Ne.symm hc]
        · exact ih (List.mem_cons_of_mem _ h)

theorem splitOn_of_not_mem {sep : Char} {s : Text} (h : sep ∉ s) : splitOn sep s = [s] := by
  induction s with
  | nil => rfl
  | cons c rest ih =>
    have hc : c ≠ sep := by
      rintro rfl
      exact h List.mem_cons_self
    have hrest : sep ∉ rest := fun hm => h (List.mem_cons_of_mem c hm)
    simp [splitOn, hc, ih hrest]

/-- Splitting at a separator that stands between two texts. -/
theorem splitOn_append (sep : Char) (a b : Text) : splitOn sep (a ++ sep :: b) = splitOn sep a ++ splitOn sep b := by
  induction a with
  | nil => simp [splitOn]
  | cons c a ih =>
    rw [List.cons_append]
    by_cases hc : c = sep
    · simp [splitOn, hc, ih]
    · obtain ⟨head, tail, hsplit⟩ := List.exists_cons_of_ne_nil (splitOn_ne_nil sep a)
      rw [hsplit, List.cons_append] at ih
      simp [splitOn, hc, hsplit, ih]

theorem mem_of_mem_stripBy {p : Char → Bool} {s : Text} {c : Char} (h : c ∈ stripBy p s) : c ∈ s :=
  List.dropWhile_subset _ ((List.rdropWhile_prefix p _).subset h)

theorem stripBy_of_forall {p : Char → Bool} {s : Text} (h : ∀ c ∈ s, p c = false) : stripBy p s = s := by
  unfold stripBy
  have hleft : s.dropWhile p = s := by
    cases s with
    | nil => rfl
    | cons c rest => rw [List.dropWhile_cons_of_neg (by simp [h c List.mem_cons_self])]
  rw [hleft, List.rdropWhile_eq_self_iff]
  intro hne
  simp [h _ (List.getLast_mem hne)]

/-- A character at which nothing is stripped stays. -/
theorem mem_stripBy {p : Char → Bool} {s : Text} {c : Char} (hc : c ∈ s) (hp : p c = false) : c ∈ stripBy p s := by
  have hleft : c ∈ s.dropWhile p := by
    rw [← List.takeWhile_append_dropWhile (p := p) (l := s)] at hc
    rcases List.mem_append.mp hc with htake | hdrop
    · rw [List.mem_takeWhile_imp htake] at hp
      cases hp
    · exact hdrop
  unfold stripBy
  rw [← List.rdropWhile_append_rtakeWhile (p := p) (l := s.dropWhile p)] at hleft
  rcases List.mem_append.mp hleft with hdrop | htake
  · exact hdrop
  · rw [List.mem_rtakeWhile_imp htake] at hp
    cases hp

theorem stripBy_of_ends {p : Char → Bool} {a b : Char} (ha : p a = false) (hb : p b = false) (s : Text) :
    stripBy p (a :: (s ++ [b])) = a :: (s ++ [b]) := by
  have hnot : ¬ p b = true := by simp [hb]
  unfold stripBy
  rw [List.dropWhile_cons_of_neg (by simp [ha]), ← List.cons_append]
  exact List.rdropWhile_concat_neg p (a :: s) b hnot

theorem strip_append_newline (s : Text) : strip (s ++ ['\n']) = strip s := by
  unfold strip stripBy
  have hnl : isSpace '\n' = true := by decide
  rw [List.dropWhile_append]
  split
  · rename_i hempty
    have hnil : s.dropWhile isSpace = [] := List.isEmpty_iff.mp hempty
    rw [hnil]
    simp [hnl]
  · exact List.rdropWhile_concat_pos _ _ _ hnl

theorem strip_strip (s : Text) : strip (strip s) = strip s := by
  unfold strip
  have hfixed : ∀ t : Text, (∀ ht : t ≠ [], ¬ isSpace (t.head ht) = true) →
      (∀ ht : t ≠ [], ¬ isSpace (t.getLast ht) = true) → stripBy isSpace t = t := by
    intro t hhead hlast
    unfold stripBy
    have hleft : t.dropWhile isSpace = t := by
      cases t with
      | nil => rfl
      | cons c rest =>
        have hc : ¬ isSpace c = true := hhead (List.cons_ne_nil c rest)
        rw [List.dropWhile_cons_of_neg hc]
    rw [hleft, List.rdropWhile_eq_self_iff]
    exact hlast
  apply hfixed
  · intro ht hspace
    have hprefix : stripBy isSpace s <+: s.dropWhile isSpace := List.rdropWhile_prefix _ _
    have hne : s.dropWhile isSpace ≠ [] := by
      intro he
      rw [he, List.prefix_nil] at hprefix
      exact ht hprefix
    have hhead : (stripBy isSpace s).head ht = (s.dropWhile isSpace).head hne := hprefix.head ht
    rw [hhead] at hspace
    have hnot := List.head_dropWhile_not isSpace hne
    rw [hspace] at hnot
    cases hnot
  · intro ht
    exact List.rdropWhile_last_not _ _ ht

end GitlabReviewer.Python
