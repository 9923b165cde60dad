import Mathlib.Tactic.Common
import Mathlib.Data.List.Count
import Mathlib.Data.List.Perm.Basic
import Mathlib.Logic.Function.Basic

/-! # Semaphores opened one after the other

A dispatcher opens a semaphore of a fixed capacity in each of its rounds, takes
a permit before it dispatches, and hands the permit to what it dispatched, which
gives it back to the same semaphore at its end. What is dispatched may outlive
the round, so the holders of several rounds can meet.
-/
namespace Foundation

inductive Round where
  | over
  | opened
  | holding
  deriving DecidableEq

/-- `free k` is the value of the semaphore of round `k`; a holder is known by
the round it was dispatched in. -/
structure Ledger where
  rounds : ℕ
  free : ℕ → ℕ
  round : Round
  holders : List ℕ

def takePermit (k : ℕ) (free : ℕ → ℕ) : ℕ → ℕ := Function.update free k (free k - 1)
def givePermit (k : ℕ) (free : ℕ → ℕ) : ℕ → ℕ := Function.update free k (free k + 1)

namespace Ledger

def initial : Ledger := ⟨0, fun _ => 0, .over, []⟩

inductive Step (c : ℕ) : Ledger → Ledger → Prop
  | stay (L : Ledger) : Step c L L
  | begin {L : Ledger} (h : L.round = .over) :
      Step c L ⟨L.rounds + 1, Function.update L.free (L.rounds + 1) c, .opened, L.holders⟩
  | take {L : Ledger} (h : L.round = .opened) (hfree : 0 < L.free L.rounds) :
      Step c L ⟨L.rounds, takePermit L.rounds L.free, .holding, L.holders⟩
  | close {L : Ledger} (h : L.round = .holding) :
      Step c L ⟨L.rounds, givePermit L.rounds L.free, .over, L.holders⟩
  | lose {L : Ledger} (h : L.round = .holding) : Step c L ⟨L.rounds, L.free, .over, L.holders⟩
  | dispatch {L : Ledger} (holders : List ℕ) (h : L.round = .holding)
      (hp : holders.Perm (L.rounds :: L.holders)) : Step c L ⟨L.rounds, L.free, .opened, holders⟩
  | leave {L : Ledger} (holders : List ℕ) (k : ℕ) (hp : L.holders.Perm (k :: holders)) :
      Step c L ⟨L.rounds, givePermit k L.free, L.round, holders⟩

/-- The permit the dispatcher itself has in its hand. -/
def inHand (L : Ledger) (k : ℕ) : ℕ := if k = L.rounds ∧ L.round = .holding then 1 else 0

/-- No permit is made up, and a round that is over left its last one unused. -/
structure Balanced (c : ℕ) (L : Ledger) : Prop where
  account : ∀ k, L.free k + L.holders.count k + L.inHand k ≤ c
  future : ∀ k, L.rounds < k → L.holders.count k = 0
  past : ∀ k, k ≤ L.rounds → (k = L.rounds → L.round = .over) → L.holders.count k < c

variable {c : ℕ} {L L' : Ledger}

theorem balanced_initial (hc : 0 < c) : Balanced c initial := by
  constructor
  · intro k
    simp [initial, inHand]
  · intro k _
    rfl
  · intro k _ _
    exact hc

theorem inHand_of_ne {k : ℕ} (h : L.round ≠ .holding) : L.inHand k = 0 := by
  unfold inHand
  rw [if_neg]
  exact fun hk => h hk.2

theorem inHand_of_holding (h : L.round = .holding) (k : ℕ) : L.inHand k = if k = L.rounds then 1 else 0 := by
  unfold inHand
  simp [h]

theorem givePermit_apply (free : ℕ → ℕ) (j k : ℕ) :
    givePermit j free k = free k + if k = j then 1 else 0 := by
  unfold givePermit
  by_cases hk : k = j
  · subst hk
    simp
  · simp [hk]

theorem takePermit_apply (free : ℕ → ℕ) (j k : ℕ) :
    takePermit j free k = free k - if k = j then 1 else 0 := by
  unfold takePermit
  by_cases hk : k = j
  · subst hk
    simp
  · simp [hk]

theorem count_of_perm {holders rest : List ℕ} {j : ℕ} (hp : holders.Perm (j :: rest)) (k : ℕ) :
    holders.count k = rest.count k + if k = j then 1 else 0 := by
  rw [hp.count_eq, List.count_cons]
  by_cases hk : k = j
  · subst hk
    simp
  · have hjk : j ≠ k := fun h => hk h.symm
    simp [hk, hjk]

/-- A round that gives up its permit, back to the semaphore or not, is over. -/
theorem Balanced.over (h : Balanced c L) (hr : L.round = .holding) (free : ℕ → ℕ)
    (hfree : ∀ k, free k ≤ L.free k + L.inHand k) : Balanced c ⟨L.rounds, free, .over, L.holders⟩ := by
  constructor
  · intro k
    have hk := h.account k
    have hfk := hfree k
    have hhand : inHand ⟨L.rounds, free, .over, L.holders⟩ k = 0 := inHand_of_ne (by simp)
    dsimp only
    omega
  · exact h.future
  · intro k hk _
    by_cases hlast : k = L.rounds
    · have hacc := h.account k
      rw [inHand_of_holding hr, if_pos hlast] at hacc
      dsimp only
      omega
    · exact h.past k hk fun he => absurd he hlast

/-- A new round opens a semaphore of its own. -/
theorem Balanced.begin (h : Balanced c L) (hr : L.round = .over) :
    Balanced c ⟨L.rounds + 1, Function.update L.free (L.rounds + 1) c, .opened, L.holders⟩ := by
  constructor
  · intro k
    have hhand : inHand ⟨L.rounds + 1, Function.update L.free (L.rounds + 1) c, .opened, L.holders⟩ k = 0 :=
      inHand_of_ne (by simp)
    have hacc := h.account k
    by_cases hk : k = L.rounds + 1
    · subst hk
      have hnew := h.future (L.rounds + 1) (by omega)
      simp [hhand, hnew]
    · dsimp only
      rw [Function.update_of_ne hk]
      omega
  · intro k hk
    dsimp only at hk
    exact h.future k (by omega)
  · intro k hk hlast
    dsimp only at hk hlast
    have hle : k ≤ L.rounds := by
      by_contra hgt
      cases hlast (by omega)
    exact h.past k hle fun _ => hr

theorem Balanced.take (h : Balanced c L) (hr : L.round = .opened) (hfree : 0 < L.free L.rounds) :
    Balanced c ⟨L.rounds, takePermit L.rounds L.free, .holding, L.holders⟩ := by
  constructor
  · intro k
    have hacc := h.account k
    rw [inHand_of_ne (by simp [hr])] at hacc
    rw [inHand_of_holding rfl]
    dsimp only
    rw [takePermit_apply]
    by_cases hk : k = L.rounds
    · subst hk
      simp only [if_pos]
      omega
    · simp only [if_neg hk]
      omega
  · exact h.future
  · intro k hk hlast
    refine h.past k hk ?_
    intro he
    cases hlast he

theorem Balanced.close (h : Balanced c L) (hr : L.round = .holding) :
    Balanced c ⟨L.rounds, givePermit L.rounds L.free, .over, L.holders⟩ := by
  refine h.over hr _ ?_
  intro k
  have hgive := givePermit_apply L.free L.rounds k
  have hhand := inHand_of_holding hr k
  omega

/-- The permit in hand goes to what is dispatched. -/
theorem Balanced.dispatch (h : Balanced c L) (hr : L.round = .holding) {holders : List ℕ}
    (hp : holders.Perm (L.rounds :: L.holders)) : Balanced c ⟨L.rounds, L.free, .opened, holders⟩ := by
  have hcount : ∀ k, holders.count k = L.holders.count k + if k = L.rounds then 1 else 0 :=
    count_of_perm hp
  constructor
  · intro k
    have hacc := h.account k
    rw [inHand_of_holding hr] at hacc
    rw [inHand_of_ne (by simp)]
    dsimp only
    rw [hcount]
    omega
  · intro k hk
    dsimp only at hk ⊢
    rw [hcount, h.future k hk, if_neg (by omega)]
  · intro k hk hlast
    dsimp only at hk hlast ⊢
    have hne : k ≠ L.rounds := fun he => by cases hlast he
    rw [hcount, if_neg hne]
    exact h.past k hk fun he => absurd he hne

/-- A holder gives its permit back to the round it came from. -/
theorem Balanced.leave (h : Balanced c L) {holders : List ℕ} {j : ℕ} (hp : L.holders.Perm (j :: holders)) :
    Balanced c ⟨L.rounds, givePermit j L.free, L.round, holders⟩ := by
  have hcount : ∀ k, L.holders.count k = holders.count k + if k = j then 1 else 0 := count_of_perm hp
  constructor
  · intro k
    have hacc := h.account k
    have hhand : inHand ⟨L.rounds, givePermit j L.free, L.round, holders⟩ k = L.inHand k := rfl
    rw [hhand]
    dsimp only
    rw [givePermit_apply]
    have hk := hcount k
    omega
  · intro k hk
    have hzero := h.future k hk
    have hc := hcount k
    dsimp only
    omega
  · intro k hk hlast
    have hlt := h.past k hk hlast
    have hc := hcount k
    dsimp only
    omega

theorem Balanced.step (h : Balanced c L) (hs : Step c L L') : Balanced c L' := by
  cases hs with
  | stay => exact h
  | begin hr => exact h.begin hr
  | take hr hfree => exact h.take hr hfree
  | close hr => exact h.close hr
  | lose hr => exact h.over hr _ fun k => Nat.le_add_right _ _
  | dispatch holders hr hp => exact h.dispatch hr hp
  | leave holders j hp => exact h.leave hp

/-- The holders of one round are never more than its capacity. -/
theorem Balanced.count_le (h : Balanced c L) (k : ℕ) : L.holders.count k ≤ c := by
  have hacc := h.account k
  omega

/-- With a capacity of one, a round is over only when nothing it dispatched is left. -/
theorem Balanced.single (h : Balanced 1 L) : ∀ k ∈ L.holders, k = L.rounds := by
  intro k hk
  have hpos : 0 < L.holders.count k := List.count_pos_iff.mpr hk
  by_contra hne
  have hle : k ≤ L.rounds := by
    by_contra hgt
    have hzero := h.future k (by omega)
    omega
  have hlt := h.past k hle fun he => absurd he hne
  omega

/-- Nothing dispatched in an earlier round is left when this step dispatches. -/
def Sole (L L' : Ledger) : Prop := L.round = .holding → L'.round = .opened → ∀ k ∈ L.holders, k = L.rounds

structure Capped (c : ℕ) (L : Ledger) : Prop where
  balanced : Balanced c L
  length : L.holders.length ≤ c

theorem capped_initial (hc : 0 < c) : Capped c initial := ⟨balanced_initial hc, Nat.zero_le c⟩

theorem Capped.step (h : Capped c L) (hs : Step c L L') (hsole : Sole L L') : Capped c L' := by
  have hb := h.balanced.step hs
  refine ⟨hb, ?_⟩
  cases hs with
  | stay => exact h.length
  | begin hr => exact h.length
  | take hr hfree => exact h.length
  | close hr => exact h.length
  | lose hr => exact h.length
  | dispatch holders hr hp =>
    have hall : ∀ k ∈ holders, L.rounds = k := by
      intro k hk
      rcases List.mem_cons.mp (hp.mem_iff.mp hk) with rfl | hk
      · rfl
      · exact (hsole hr rfl k hk).symm
    have hcount : holders.count L.rounds = holders.length := List.count_eq_length.mpr hall
    have hle := hb.count_le L.rounds
    dsimp only at hle ⊢
    omega
  | leave holders j hp =>
    have hlen := hp.length_eq
    have hle := h.length
    rw [List.length_cons] at hlen
    dsimp only
    omega

end Ledger

end Foundation
