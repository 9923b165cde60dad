import Mathlib.Data.List.Infix
import Mathlib.Data.List.TakeWhile

/-! # Patterns, and texts without their matches

A pattern is tried the way a backtracking matcher tries it: the ways to match
at the front, in the order of preference. Removing the matches cuts a text into
pieces: letters that are kept and matches that are not. A word that stands in
what is left stood in the text already, or it was interrupted by a match.
-/
namespace Foundation

/-- Classes of letters, their greedy repetition, sequences and alternatives. -/
inductive Regex (α : Type) where
  | one (p : α → Bool)
  | many (p : α → Bool)
  | seq (r s : Regex α)
  | alt (r s : Regex α)

namespace Regex
variable {α : Type}

/-- The words that the whole pattern matches. -/
inductive Matches : Regex α → List α → Prop
  | one {p : α → Bool} {c : α} (h : p c = true) : Matches (.one p) [c]
  | many {p : α → Bool} {s : List α} (h : ∀ c ∈ s, p c = true) : Matches (.many p) s
  | seq {r s : Regex α} {u v : List α} (hr : Matches r u) (hs : Matches s v) : Matches (.seq r s) (u ++ v)
  | left {r s : Regex α} {u : List α} (h : Matches r u) : Matches (.alt r s) u
  | right {r s : Regex α} {u : List α} (h : Matches s u) : Matches (.alt r s) u

theorem Matches.of_one {p : α → Bool} {s : List α} (h : Matches (.one p) s) : ∃ c, s = [c] ∧ p c = true := by
  cases h with
  | one hc => exact ⟨_, rfl, hc⟩

theorem Matches.of_seq {r t : Regex α} {s : List α} (h : Matches (.seq r t) s) : ∃ u v, s = u ++ v ∧ Matches r u ∧ Matches t v := by
  cases h with
  | seq hr ht => exact ⟨_, _, rfl, hr, ht⟩

/-- A class in front of a pattern. -/
theorem Matches.of_one_seq {p : α → Bool} {r : Regex α} {s : List α} (h : Matches (.seq (.one p) r) s) :
    ∃ c v, s = c :: v ∧ p c = true ∧ Matches r v := by
  obtain ⟨u, v, rfl, hu, hv⟩ := h.of_seq
  obtain ⟨c, rfl, hc⟩ := hu.of_one
  exact ⟨c, v, rfl, hc, hv⟩

def manyRests (p : α → Bool) : List α → List (List α)
  | [] => [[]]
  | c :: rest => if p c then manyRests p rest ++ [c :: rest] else [c :: rest]

def oneRest (p : α → Bool) : List α → List (List α)
  | [] => []
  | c :: rest => if p c then [rest] else []

/-- What is left behind each match at the front, the preferred match first. -/
def rests : Regex α → List α → List (List α)
  | .one p, text => oneRest p text
  | .many p, text => manyRests p text
  | .seq r s, text => (rests r text).flatMap (rests s)
  | .alt r s, text => rests r text ++ rests s text

/-- The length of the match at the front, if there is one. -/
def find (r : Regex α) (text : List α) : Option ℕ :=
  (rests r text).head?.map fun rest => text.length - rest.length

theorem mem_oneRest {p : α → Bool} {text rest : List α} : rest ∈ oneRest p text ↔ ∃ c, p c = true ∧ text = [c] ++ rest := by
  cases text with
  | nil => simp [oneRest]
  | cons c more =>
    rw [oneRest]
    by_cases h : p c = true
    · rw [if_pos h, List.mem_singleton]
      constructor
      · rintro rfl
        exact ⟨c, h, rfl⟩
      · rintro ⟨d, -, heq⟩
        exact (List.cons.inj heq).2.symm
    · rw [if_neg h]
      refine iff_of_false (by simp) ?_
      rintro ⟨d, hd, heq⟩
      rw [(List.cons.inj heq).1] at h
      exact h hd

theorem mem_manyRests {p : α → Bool} {text rest : List α} :
    rest ∈ manyRests p text ↔ ∃ s, (∀ c ∈ s, p c = true) ∧ text = s ++ rest := by
  induction text with
  | nil =>
    rw [manyRests, List.mem_singleton]
    constructor
    · rintro rfl
      exact ⟨[], by simp, rfl⟩
    · rintro ⟨s, -, heq⟩
      exact (List.append_eq_nil_iff.mp heq.symm).2
  | cons c more ih =>
    have hself : ∃ s, (∀ d ∈ s, p d = true) ∧ c :: more = s ++ c :: more := ⟨[], by simp, rfl⟩
    rw [manyRests]
    by_cases h : p c = true
    · rw [if_pos h, List.mem_append, List.mem_singleton, ih]
      constructor
      · rintro (⟨s, hs, rfl⟩ | rfl)
        · exact ⟨c :: s, List.forall_mem_cons.mpr ⟨h, hs⟩, rfl⟩
        · exact hself
      · rintro ⟨s, hs, heq⟩
        cases s with
        | nil => exact .inr heq.symm
        | cons d s =>
          obtain ⟨rfl, hmore⟩ := List.cons.inj heq
          exact .inl ⟨s, (List.forall_mem_cons.mp hs).2, hmore⟩
    · rw [if_neg h, List.mem_singleton]
      constructor
      · rintro rfl
        exact hself
      · rintro ⟨s, hs, heq⟩
        cases s with
        | nil => exact heq.symm
        | cons d s =>
          obtain ⟨rfl, -⟩ := List.cons.inj heq
          exact absurd (hs c List.mem_cons_self) h

/-- The matcher finds every match, and nothing else. -/
theorem mem_rests {r : Regex α} {text rest : List α} : rest ∈ rests r text ↔ ∃ s, Matches r s ∧ text = s ++ rest := by
  induction r generalizing text rest with
  | one p =>
    rw [rests, mem_oneRest]
    constructor
    · rintro ⟨c, hc, heq⟩
      exact ⟨[c], .one hc, heq⟩
    · rintro ⟨s, hs, heq⟩
      cases hs with
      | one hc => exact ⟨_, hc, heq⟩
  | many p =>
    rw [rests, mem_manyRests]
    constructor
    · rintro ⟨s, hs, heq⟩
      exact ⟨s, .many hs, heq⟩
    · rintro ⟨s, hs, heq⟩
      cases hs with
      | many hs => exact ⟨s, hs, heq⟩
  | seq r s ihr ihs =>
    rw [rests, List.mem_flatMap]
    constructor
    · rintro ⟨middle, hmiddle, hrest⟩
      obtain ⟨u, hu, rfl⟩ := ihr.mp hmiddle
      obtain ⟨v, hv, rfl⟩ := ihs.mp hrest
      exact ⟨u ++ v, .seq hu hv, (List.append_assoc u v rest).symm⟩
    · rintro ⟨w, hw, rfl⟩
      cases hw with
      | @seq _ _ u v hu hv => exact ⟨v ++ rest, ihr.mpr ⟨u, hu, List.append_assoc u v rest⟩, ihs.mpr ⟨v, hv, rfl⟩⟩
  | alt r s ihr ihs =>
    rw [rests, List.mem_append, ihr, ihs]
    constructor
    · rintro (⟨u, hu, heq⟩ | ⟨u, hu, heq⟩)
      · exact ⟨u, .left hu, heq⟩
      · exact ⟨u, .right hu, heq⟩
    · rintro ⟨u, hu, heq⟩
      cases hu with
      | left hu => exact .inl ⟨u, hu, heq⟩
      | right hu => exact .inr ⟨u, hu, heq⟩

theorem find_none {r : Regex α} {text : List α} : find r text = none ↔ ∀ s, Matches r s → ¬ s <+: text := by
  unfold find
  rw [Option.map_eq_none_iff, List.head?_eq_none_iff]
  constructor
  · rintro hnil s hs ⟨rest, rfl⟩
    have hmem : rest ∈ rests r (s ++ rest) := mem_rests.mpr ⟨s, hs, rfl⟩
    rw [hnil] at hmem
    cases hmem
  · intro hall
    refine List.eq_nil_iff_forall_not_mem.mpr fun rest hrest => ?_
    obtain ⟨s, hs, rfl⟩ := mem_rests.mp hrest
    exact hall s hs (List.prefix_append s rest)

theorem find_some {r : Regex α} {text : List α} {n : ℕ} (h : find r text = some n) :
    n ≤ text.length ∧ Matches r (text.take n) := by
  obtain ⟨rest, hrest, rfl⟩ := Option.map_eq_some_iff.mp h
  obtain ⟨s, hs, rfl⟩ := mem_rests.mp (List.mem_of_mem_head? hrest)
  refine ⟨Nat.sub_le _ _, ?_⟩
  rw [List.length_append, Nat.add_sub_cancel, List.take_left]
  exact hs

/-- A repetition before something that starts otherwise takes all it can. -/
theorem rests_many_seq {p : α → Bool} {r : Regex α} (h : ∀ c rest, p c = true → rests r (c :: rest) = []) (text : List α) :
    rests (.seq (.many p) r) text = rests r (text.dropWhile p) := by
  rw [rests, rests]
  induction text with
  | nil => simp [manyRests]
  | cons c rest ih =>
    rw [manyRests]
    by_cases hc : p c = true
    · rw [if_pos hc, List.flatMap_append, ih, List.flatMap_singleton, h c rest hc, List.append_nil,
        List.dropWhile_cons_of_pos hc]
    · rw [if_neg hc, List.flatMap_singleton, List.dropWhile_cons_of_neg hc]

end Regex

inductive Piece (α : Type) where
  | kept (c : α)
  | removed (s : List α)

namespace Piece
variable {α : Type}

def text : Piece α → List α
  | kept c => [c]
  | removed s => s

def left : Piece α → List α
  | kept c => [c]
  | removed _ => []

end Piece

namespace Regex
variable {α : Type} (r : Regex α)

/-- The scan from the left; the first `skip` letters belong to the last match. -/
def piecesFrom : ℕ → List α → List (Piece α)
  | _, [] => []
  | skip + 1, _ :: rest => piecesFrom skip rest
  | 0, c :: rest => match find r (c :: rest) with
      | some n => .removed ((c :: rest).take n) :: piecesFrom (n - 1) rest
      | none => .kept c :: piecesFrom 0 rest

def pieces (text : List α) : List (Piece α) := piecesFrom r 0 text

/-- `sub` with nothing as the replacement. -/
def without (text : List α) : List α := (pieces r text).flatMap Piece.left

/-- A cut of the text into matches and letters at which nothing matches. -/
inductive Cut : List (Piece α) → List α → Prop
  | nil : Cut [] []
  | kept {c : α} {ps : List (Piece α)} {rest : List α} (h : ∀ s, Matches r s → ¬ s <+: c :: rest) (hrest : Cut ps rest) :
      Cut (.kept c :: ps) (c :: rest)
  | removed {s : List α} {ps : List (Piece α)} {rest : List α} (h : Matches r s) (hrest : Cut ps rest) :
      Cut (.removed s :: ps) (s ++ rest)

/-- The word is spelled by kept letters with a match between them. -/
def Interrupted (text p : List α) : Prop := ∃ before a mid b after,
  pieces r text = before ++ .kept a :: (mid ++ .kept b :: after) ∧ (∃ s, .removed s ∈ mid) ∧
    a :: (mid.flatMap Piece.left ++ [b]) = p

variable {r}

theorem piecesFrom_eq_drop (k : ℕ) (text : List α) : piecesFrom r k text = piecesFrom r 0 (text.drop k) := by
  induction text generalizing k with
  | nil => simp [piecesFrom]
  | cons c rest ih =>
    cases k with
    | zero => rfl
    | succ k =>
      rw [piecesFrom, List.drop_succ_cons]
      exact ih k

theorem cut_pieces (hne : ¬ Matches r []) (text : List α) : Cut r (pieces r text) text := by
  unfold pieces
  induction hlen : text.length using Nat.strong_induction_on generalizing text with
  | _ len ih =>
    subst hlen
    cases text with
    | nil => exact .nil
    | cons c rest =>
      rw [piecesFrom]
      cases hfind : find r (c :: rest) with
      | none => exact .kept (find_none.mp hfind) (ih rest.length (by simp) rest rfl)
      | some n =>
        obtain ⟨hn, hmatch⟩ := find_some hfind
        have hpos : n ≠ 0 := by
          rintro rfl
          exact hne hmatch
        obtain ⟨n, rfl⟩ := Nat.exists_eq_succ_of_ne_zero hpos
        have hshort : (rest.drop n).length < (c :: rest).length := by
          rw [List.length_drop, List.length_cons]
          omega
        have hrest := ih (rest.drop n).length hshort (rest.drop n) rfl
        have hcut := Cut.removed hmatch hrest
        rw [show (c :: rest).take (n + 1) ++ rest.drop n = c :: rest by simp] at hcut
        dsimp only
        rw [Nat.succ_sub_one, piecesFrom_eq_drop]
        exact hcut

theorem Cut.text {ps : List (Piece α)} {text : List α} (h : Cut r ps text) : ps.flatMap Piece.text = text := by
  induction h with
  | nil => rfl
  | kept _ _ ih => exact congrArg (_ :: ·) ih
  | removed _ _ ih => exact congrArg (_ ++ ·) ih

theorem Cut.mem_left {ps : List (Piece α)} {text : List α} (h : Cut r ps text) {c : α} (hc : c ∈ ps.flatMap Piece.left) :
    c ∈ text := by
  induction h with
  | nil => cases hc
  | kept _ _ ih =>
    rcases List.mem_cons.mp hc with rfl | hc
    · exact List.mem_cons_self
    · exact List.mem_cons_of_mem _ (ih hc)
  | removed _ _ ih => exact List.mem_append_right _ (ih hc)

/-- No match begins at a kept letter. -/
theorem Cut.kept_at {before after : List (Piece α)} {c : α} {text : List α} (h : Cut r (before ++ .kept c :: after) text) :
    ∀ s, Matches r s → ¬ s <+: c :: after.flatMap Piece.text := by
  induction before generalizing text with
  | nil =>
    cases h with
    | kept hno hrest =>
      rw [hrest.text]
      exact hno
  | cons piece before ih =>
    cases h with
    | kept _ hrest => exact ih hrest
    | removed _ hrest => exact ih hrest

/-- Nothing is left of a text only where matches make it up. -/
theorem Cut.parts {ps : List (Piece α)} {text : List α} (h : Cut r ps text) (hnil : ps.flatMap Piece.left = []) :
    ∃ parts : List (List α), (∀ s ∈ parts, Matches r s) ∧ text = parts.flatten := by
  induction h with
  | nil => exact ⟨[], by simp, rfl⟩
  | kept => cases hnil
  | removed hs _ ih =>
    obtain ⟨parts, hparts, rfl⟩ := ih hnil
    exact ⟨_ :: parts, List.forall_mem_cons.mpr ⟨hs, hparts⟩, rfl⟩

theorem without_of_find {c : α} {rest : List α} {n : ℕ} (h : find r (c :: rest) = some (n + 1)) :
    without r (c :: rest) = without r (rest.drop n) := by
  unfold without pieces
  rw [piecesFrom, h]
  dsimp only
  rw [Nat.add_sub_cancel, List.flatMap_cons, piecesFrom_eq_drop]
  rfl

/-- A text that holds no match stays as it is. -/
theorem without_eq_self {text : List α} (h : ∀ s, Matches r s → ¬ s <:+: text) : without r text = text := by
  unfold without pieces
  induction text with
  | nil => rfl
  | cons c rest ih =>
    have hnone : find r (c :: rest) = none := find_none.mpr fun s hs hfront => h s hs hfront.isInfix
    rw [piecesFrom, hnone]
    have hrest := ih fun s hs hwithin => h s hs (hwithin.trans (List.suffix_cons c rest).isInfix)
    exact congrArg (c :: ·) hrest

theorem left_split {ps : List (Piece α)} {u w : List α} {a : α} (h : ps.flatMap Piece.left = u ++ a :: w) :
    ∃ before after, ps = before ++ .kept a :: after ∧ before.flatMap Piece.left = u ∧ after.flatMap Piece.left = w := by
  induction ps generalizing u with
  | nil => simp at h
  | cons piece ps ih =>
    cases piece with
    | removed s =>
      obtain ⟨before, after, rfl, hu, hw⟩ := ih h
      exact ⟨.removed s :: before, after, rfl, hu, hw⟩
    | kept c =>
      cases u with
      | nil =>
        obtain ⟨rfl, hw⟩ := List.cons.inj h
        exact ⟨[], ps, rfl, rfl, hw⟩
      | cons d u =>
        obtain ⟨rfl, htail⟩ := List.cons.inj h
        obtain ⟨before, after, rfl, hu, hw⟩ := ih htail
        exact ⟨.kept c :: before, after, rfl, congrArg (c :: ·) hu, hw⟩

theorem eq_map_kept {ps : List (Piece α)} (h : ∀ s, .removed s ∉ ps) : ps = (ps.flatMap Piece.left).map Piece.kept := by
  induction ps with
  | nil => rfl
  | cons piece ps ih =>
    cases piece with
    | removed s => exact absurd List.mem_cons_self (h s)
    | kept c => exact congrArg (Piece.kept c :: ·) (ih fun s hs => h s (List.mem_cons_of_mem _ hs))

theorem infix_of_interrupted {text p : List α} (h : Interrupted r text p) : p <:+: without r text := by
  obtain ⟨before, a, mid, b, after, hpieces, -, rfl⟩ := h
  refine ⟨before.flatMap Piece.left, after.flatMap Piece.left, ?_⟩
  unfold without
  rw [hpieces]
  simp [Piece.left]

/-- What stands in the rest was interrupted, or was copied letter by letter. -/
theorem interrupted_or_copied {text p : List α} (hne : p ≠ []) (h : p <:+: without r text) :
    Interrupted r text p ∨ ∃ before after, pieces r text = before ++ (p.map Piece.kept ++ after) := by
  obtain ⟨u, v, heq⟩ := h
  obtain ⟨a, q, rfl⟩ := List.exists_cons_of_ne_nil hne
  unfold without at heq
  rw [List.append_assoc, List.cons_append] at heq
  obtain ⟨before, after, hpieces, -, hafter⟩ := left_split heq.symm
  rcases List.eq_nil_or_concat' q with rfl | ⟨q, b, rfl⟩
  · exact .inr ⟨before, after, hpieces⟩
  rw [List.append_assoc, List.singleton_append] at hafter
  obtain ⟨mid, after, rfl, hmid, -⟩ := left_split hafter
  by_cases hbroken : ∃ s, .removed s ∈ mid
  · exact .inl ⟨before, a, mid, b, after, hpieces, hbroken, by rw [hmid]⟩
  · refine .inr ⟨before, after, ?_⟩
    have hkept := eq_map_kept fun s hs => hbroken ⟨s, hs⟩
    rw [hmid] at hkept
    rw [hpieces, hkept]
    simp

variable {text p : List α} (hr : ¬ Matches r [])
include hr

/-- A word that is not in the text is left behind where it was interrupted. -/
theorem infix_without_iff (hp : ¬ p <:+: text) : p <:+: without r text ↔ Interrupted r text p := by
  refine ⟨fun h => ?_, infix_of_interrupted⟩
  have hne : p ≠ [] := by
    rintro rfl
    exact hp (List.nil_infix)
  refine (interrupted_or_copied hne h).resolve_right ?_
  rintro ⟨before, after, hpieces⟩
  have htext := (cut_pieces hr text).text
  rw [hpieces] at htext
  refine hp ⟨before.flatMap Piece.text, after.flatMap Piece.text, ?_⟩
  have hsame : (p.map Piece.kept).flatMap Piece.text = p := by
    induction p with
    | nil => rfl
    | cons c p ih => simp [Piece.text, List.flatMap_map]
  rw [← htext, List.flatMap_append, List.flatMap_append, hsame, List.append_assoc]

/-- The same for a match of the pattern itself. -/
theorem match_without_iff (hp : Matches r p) : p <:+: without r text ↔ Interrupted r text p := by
  refine ⟨fun h => ?_, infix_of_interrupted⟩
  have hne : p ≠ [] := by
    rintro rfl
    exact hr hp
  refine (interrupted_or_copied hne h).resolve_right ?_
  rintro ⟨before, after, hpieces⟩
  obtain ⟨c, q, rfl⟩ := List.exists_cons_of_ne_nil hne
  have hcut := cut_pieces hr text
  rw [hpieces, List.map_cons, List.cons_append] at hcut
  refine hcut.kept_at (c :: q) hp ?_
  rw [List.cons_prefix_cons]
  refine ⟨rfl, after.flatMap Piece.text, ?_⟩
  simp [Piece.text, List.flatMap_map]

end Regex

end Foundation
