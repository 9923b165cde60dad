import Mathlib.Data.List.Infix
import Mathlib.Tactic.Common

/-! # UTF-8 with replacement characters

A byte that begins no sequence becomes a replacement character, and so does the
longest beginning of a sequence that is cut short. No sequence reaches across a
byte that is no continuation byte, so decoding can begin anew at each of them.
-/
namespace Foundation.Utf8

def replacement : Char := Char.ofNat 0xfffd

def continuation (b : UInt8) : Bool := decide (0x80 ≤ b.toNat) && decide (b.toNat ≤ 0xbf)

/-- How many bytes follow a lead byte, the range of the first of them, and the bits of the lead byte. -/
structure Lead where
  more : ℕ
  low : ℕ
  high : ℕ
  bits : ℕ

def lead (n : ℕ) : Option Lead :=
  if 0xc2 ≤ n ∧ n ≤ 0xdf then some ⟨1, 0x80, 0xbf, n - 0xc0⟩
  else if n = 0xe0 then some ⟨2, 0xa0, 0xbf, 0⟩
  else if n = 0xed then some ⟨2, 0x80, 0x9f, 0xd⟩
  else if 0xe1 ≤ n ∧ n ≤ 0xef then some ⟨2, 0x80, 0xbf, n - 0xe0⟩
  else if n = 0xf0 then some ⟨3, 0x90, 0xbf, 0⟩
  else if 0xf1 ≤ n ∧ n ≤ 0xf3 then some ⟨3, 0x80, 0xbf, n - 0xf0⟩
  else if n = 0xf4 then some ⟨3, 0x80, 0x8f, 4⟩
  else none

/-- The code point once all the bytes have followed, and what is left; none where the sequence is cut short. -/
def follow : ℕ → ℕ → ℕ → ℕ → List UInt8 → Option ℕ × List UInt8
  | 0, _, _, bits, rest => (some bits, rest)
  | _ + 1, _, _, _, [] => (none, [])
  | more + 1, low, high, bits, b :: rest =>
      if low ≤ b.toNat ∧ b.toNat ≤ high then follow more 0x80 0xbf (64 * bits + (b.toNat - 0x80)) rest else (none, b :: rest)

/-- One character, and what is left. -/
def next (b : UInt8) (rest : List UInt8) : Char × List UInt8 :=
  if b.toNat < 0x80 then (Char.ofNat b.toNat, rest)
  else match lead b.toNat with
    | none => (replacement, rest)
    | some l => ((follow l.more l.low l.high l.bits rest).1.elim replacement Char.ofNat, (follow l.more l.low l.high l.bits rest).2)

theorem follow_suffix (more low high bits : ℕ) (rest : List UInt8) : (follow more low high bits rest).2 <:+ rest := by
  induction rest generalizing more low high bits with
  | nil => cases more <;> simp [follow]
  | cons b rest ih =>
    cases more with
    | zero => simp [follow]
    | succ more =>
      rw [follow]
      split
      · exact (ih _ _ _ _).trans (List.suffix_cons b rest)
      · exact List.suffix_refl _

theorem next_suffix (b : UInt8) (rest : List UInt8) : (next b rest).2 <:+ rest := by
  unfold next
  split
  · exact List.suffix_refl _
  · split
    · exact List.suffix_refl _
    · exact follow_suffix _ _ _ _ _

def decode : List UInt8 → List Char
  | [] => []
  | b :: rest => (next b rest).1 :: decode (next b rest).2
termination_by bytes => bytes.length
decreasing_by
  have hsuffix := (next_suffix b rest).length_le
  simp only [List.length_cons]
  omega

@[simp] theorem decode_nil : decode [] = [] := by rw [decode]
theorem decode_cons (b : UInt8) (rest : List UInt8) : decode (b :: rest) = (next b rest).1 :: decode (next b rest).2 := by
  rw [decode]

section Anew
variable {b c : UInt8} {x y : List UInt8}

theorem lead_range {n : ℕ} {l : Lead} (h : lead n = some l) : 0xc2 ≤ n ∧ 0x80 ≤ l.low ∧ l.high ≤ 0xbf := by
  unfold lead at h
  split_ifs at h <;> cases h <;> simp <;> omega

theorem follow_append (hb : continuation b = false) {more low high bits : ℕ} (hlow : 0x80 ≤ low) (hhigh : high ≤ 0xbf) :
    follow more low high bits (x ++ b :: y) = ((follow more low high bits x).1, (follow more low high bits x).2 ++ b :: y) := by
  induction x generalizing more low high bits with
  | nil =>
    cases more with
    | zero => rfl
    | succ more =>
      have hout : ¬ (low ≤ b.toNat ∧ b.toNat ≤ high) := by
        rintro ⟨hge, hle⟩
        simp only [continuation, Bool.and_eq_false_iff, decide_eq_false_iff_not] at hb
        omega
      simp [follow, hout]
  | cons a x ih =>
    cases more with
    | zero => rfl
    | succ more =>
      rw [List.cons_append, follow, follow]
      split
      · exact ih (le_refl _) (le_refl _)
      · rfl

theorem next_append (hb : continuation b = false) (c : UInt8) (x y : List UInt8) :
    next c (x ++ b :: y) = ((next c x).1, (next c x).2 ++ b :: y) := by
  unfold next
  split
  · rfl
  · cases hlead : lead c.toNat with
    | none => rfl
    | some l =>
      obtain ⟨-, hlow, hhigh⟩ := lead_range hlead
      dsimp only
      rw [follow_append hb hlow hhigh]

theorem decode_append (hb : continuation b = false) (x y : List UInt8) : decode (x ++ b :: y) = decode x ++ decode (b :: y) := by
  induction hlen : x.length using Nat.strong_induction_on generalizing x with
  | _ len ih =>
    subst hlen
    cases x with
    | nil => simp
    | cons c x =>
      have hshort := (next_suffix c x).length_le
      rw [List.cons_append, decode_cons, decode_cons c x, next_append hb, List.cons_append,
        ih (next c x).2.length (by simp only [List.length_cons]; omega) _ rfl]

/-- What is no replacement character comes from a byte that is no continuation byte. -/
theorem not_continuation_of_next (h : (next c x).1 ≠ replacement) : continuation c = false := by
  unfold next at h
  simp only [continuation, Bool.and_eq_false_iff, decide_eq_false_iff_not]
  split at h
  · omega
  · cases hlead : lead c.toNat with
    | none =>
      rw [hlead] at h
      exact absurd rfl h
    | some l =>
      obtain ⟨hge, -⟩ := lead_range hlead
      omega

/-- Where a character that is no replacement character stands, the bytes can be cut. -/
theorem decode_split {bytes : List UInt8} {u v : List Char} {d : Char} (h : decode bytes = u ++ d :: v) (hd : d ≠ replacement) :
    ∃ x b y, bytes = x ++ b :: y ∧ continuation b = false ∧ decode x = u ∧ decode (b :: y) = d :: v := by
  induction hlen : bytes.length using Nat.strong_induction_on generalizing bytes u with
  | _ len ih =>
    subst hlen
    cases bytes with
    | nil => simp at h
    | cons c rest =>
      rw [decode_cons] at h
      cases u with
      | nil =>
        obtain ⟨hhead, htail⟩ := List.cons.inj h
        refine ⟨[], c, rest, rfl, not_continuation_of_next (hhead ▸ hd), decode_nil, ?_⟩
        rw [decode_cons, hhead, htail]
      | cons e u =>
        obtain ⟨hhead, htail⟩ := List.cons.inj h
        have hshort := (next_suffix c rest).length_le
        obtain ⟨x, b, y, hrest, hb, hx, hy⟩ := ih _ (by simp only [List.length_cons]; omega) htail rfl
        obtain ⟨consumed, hconsumed⟩ := next_suffix c rest
        rw [hrest] at hconsumed
        have hbytes : c :: rest = (c :: consumed ++ x) ++ b :: y := by
          rw [← hconsumed, List.cons_append, List.cons_append, List.append_assoc]
        refine ⟨c :: consumed ++ x, b, y, hbytes, hb, ?_, hy⟩
        -- both ways of decoding end with what the rest brings
        have hboth : decode (c :: consumed ++ x) ++ decode (b :: y) = (e :: u) ++ decode (b :: y) := by
          rw [← decode_append hb, ← hbytes, decode_cons, hhead, hrest, decode_append hb, hx]
          rfl
        exact List.append_cancel_right hboth

end Anew

end Foundation.Utf8
