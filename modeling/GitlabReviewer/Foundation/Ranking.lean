import Mathlib.Data.List.Sort
import Mathlib.Data.List.Nodup

/-! # Lists kept as ranks

A set of keys, each with a rank, stands for the list of the keys by increasing
rank. The list is determined by the ranks, and gaps between the ranks do not
matter: taking a key out removes it from the list, and numbering new keys from
any bound of the old ranks appends them.
-/
namespace Foundation
variable {κ ρ : Type}

/-- `rank` orders exactly the keys of `l`, in the order of `l`. -/
structure Ranks [LT ρ] (rank : κ → Option ρ) (l : List κ) : Prop where
  mem : ∀ k, k ∈ l ↔ (rank k).isSome = true
  sorted : l.Pairwise fun a b => ∀ p ∈ rank a, ∀ q ∈ rank b, p < q

namespace Ranks

section Preorder
variable [Preorder ρ] {rank rank' : κ → Option ρ} {l l' : List κ}

theorem empty : Ranks (fun _ : κ => (none : Option ρ)) [] := by
  constructor
  · intro k
    simp
  · exact .nil

theorem exists_rank (h : Ranks rank l) {k : κ} (hk : k ∈ l) : ∃ p, rank k = some p :=
  Option.isSome_iff_exists.mp ((h.mem k).mp hk)

theorem none_of_not_mem (h : Ranks rank l) {k : κ} (hk : k ∉ l) : rank k = none := by
  rw [h.mem k] at hk
  simpa using hk

theorem nodup (h : Ranks rank l) : l.Nodup := by
  refine List.Pairwise.imp_of_mem ?_ h.sorted
  intro a b ha _ hlt hab
  obtain ⟨p, hp⟩ := h.exists_rank ha
  have hpp : p < p := hlt p hp p (hab ▸ hp)
  exact lt_irrefl p hpp

/-- No two keys have the same rank. -/
theorem injective (h : Ranks rank l) {a b : κ} {p : ρ} (ha : rank a = some p) (hb : rank b = some p) :
    a = b := by
  by_contra hab
  have hma : a ∈ l := (h.mem a).mpr (by simp [ha])
  have hmb : b ∈ l := (h.mem b).mpr (by simp [hb])
  obtain ⟨i, hi, rfl⟩ := List.mem_iff_getElem.mp hma
  obtain ⟨j, hj, rfl⟩ := List.mem_iff_getElem.mp hmb
  have hsorted := List.pairwise_iff_getElem.mp h.sorted
  rcases lt_trichotomy i j with hij | rfl | hij
  · exact lt_irrefl p (hsorted i j hi hj hij p ha p hb)
  · exact hab rfl
  · exact lt_irrefl p (hsorted j i hj hi hij p hb p ha)

/-- The ranks determine the list. -/
theorem unique (h : Ranks rank l) (h' : Ranks rank l') : l = l' := by
  have hperm : l.Perm l' :=
    (List.perm_ext_iff_of_nodup h.nodup h'.nodup).mpr fun k => (h.mem k).trans (h'.mem k).symm
  refine hperm.eq_of_pairwise ?_ h.sorted h'.sorted
  intro a b ha hb hab hba
  obtain ⟨p, hp⟩ := h.exists_rank ha
  obtain ⟨q, hq⟩ := h'.exists_rank hb
  have hpq : p < q := hab p hp q hq
  have hqp : q < p := hba q hq p hp
  exact absurd hpq hqp.not_gt

end Preorder

end Ranks

variable [DecidableEq κ]

/-- The keys of `m` numbered upwards from `base`, over the ranks of the others. -/
def numbered (base : ℤ) (m : List κ) (rank : κ → Option ℤ) (k : κ) : Option ℤ :=
  if k ∈ m then some (base + (m.idxOf k + 1)) else rank k

section Numbered
variable {base : ℤ} {m : List κ} {rank : κ → Option ℤ} {k : κ}

theorem numbered_of_mem (h : k ∈ m) : numbered base m rank k = some (base + (m.idxOf k + 1)) :=
  if_pos h
theorem numbered_of_not_mem (h : k ∉ m) : numbered base m rank k = rank k := if_neg h

theorem numbered_singleton (a : κ) :
    numbered base [a] rank = Function.update rank a (some (base + 1)) := by
  funext k
  by_cases hk : k = a
  · subst hk
    rw [numbered_of_mem (List.mem_singleton_self k), Function.update_self]
    simp
  · rw [numbered_of_not_mem (by simpa using hk), Function.update_of_ne hk]

/-- A numbering lies above its base. -/
theorem lt_of_numbered (h : k ∈ m) {p : ℤ} (hp : numbered base m rank k = some p) : base < p := by
  rw [numbered_of_mem h] at hp
  have hpos : p = base + (m.idxOf k + 1) := (Option.some.inj hp).symm
  omega

end Numbered

namespace Ranks

/-- Taking a key out leaves the order of the others. -/
theorem erase [Preorder ρ] {rank : κ → Option ρ} {l : List κ} (h : Ranks rank l) (a : κ) :
    Ranks (Function.update rank a none) (l.erase a) := by
  constructor
  · intro k
    by_cases hk : k = a
    · subst hk
      simp [h.nodup.mem_erase_iff]
    · rw [Function.update_of_ne hk, List.mem_erase_of_ne hk]
      exact h.mem k
  · refine List.Pairwise.imp_of_mem ?_ (h.sorted.sublist List.erase_sublist)
    intro b c hb hc hlt
    have hba : b ≠ a := (h.nodup.mem_erase_iff.mp hb).1
    have hca : c ≠ a := (h.nodup.mem_erase_iff.mp hc).1
    rwa [Function.update_of_ne hba, Function.update_of_ne hca]

section Concat
variable {rank : κ → Option ℤ} {l m : List κ} {base : ℤ}

/-- New keys numbered from a bound of the old ranks come after the old keys. -/
theorem concat (h : Ranks rank l) (hm : m.Nodup) (hdisjoint : l.Disjoint m)
    (hbase : ∀ k p, rank k = some p → p ≤ base) : Ranks (numbered base m rank) (l ++ m) := by
  constructor
  · intro k
    by_cases hk : k ∈ m
    · simp [hk, numbered_of_mem hk]
    · rw [numbered_of_not_mem hk, ← h.mem k]
      simp [hk]
  · refine List.pairwise_append.mpr ⟨?_, ?_, ?_⟩
    · refine List.Pairwise.imp_of_mem ?_ h.sorted
      intro a b ha hb hlt
      rwa [numbered_of_not_mem (hdisjoint ha), numbered_of_not_mem (hdisjoint hb)]
    · refine List.pairwise_iff_getElem.mpr ?_
      intro i j hi hj hij p hp q hq
      rw [numbered_of_mem (List.getElem_mem hi), hm.idxOf_getElem i hi] at hp
      rw [numbered_of_mem (List.getElem_mem hj), hm.idxOf_getElem j hj] at hq
      have hp' : p = base + (i + 1) := (Option.some.inj hp).symm
      have hq' : q = base + (j + 1) := (Option.some.inj hq).symm
      omega
    · intro a ha b hb p hp q hq
      rw [numbered_of_not_mem (hdisjoint ha)] at hp
      have hle : p ≤ base := hbase a p hp
      have hlt : base < q := lt_of_numbered hb hq
      omega

theorem snoc (h : Ranks rank l) {a : κ} (ha : a ∉ l) (hbase : ∀ k p, rank k = some p → p ≤ base) :
    Ranks (Function.update rank a (some (base + 1))) (l ++ [a]) := by
  rw [← numbered_singleton]
  exact h.concat (List.nodup_singleton a) (List.disjoint_singleton.mpr ha) hbase

end Concat

end Ranks

/-- All ranks lie above a bound. -/
def Above (bound : ℤ) (rank : κ → Option ℤ) : Prop := ∀ k p, rank k = some p → bound < p

section Above
variable {bound base : ℤ} {rank : κ → Option ℤ} {m : List κ}

omit [DecidableEq κ] in
theorem above_empty : Above bound fun _ : κ => none := by simp [Above]

theorem Above.erase (h : Above bound rank) (a : κ) : Above bound (Function.update rank a none) := by
  intro k p hp
  by_cases hk : k = a
  · subst hk
    simp at hp
  · rw [Function.update_of_ne hk] at hp
    exact h k p hp

theorem Above.numbered (h : Above bound rank) (hbase : bound ≤ base) : Above bound (numbered base m rank) := by
  intro k p hp
  by_cases hk : k ∈ m
  · exact lt_of_le_of_lt hbase (lt_of_numbered hk hp)
  · rw [numbered_of_not_mem hk] at hp
    exact h k p hp

theorem Above.snoc (h : Above bound rank) (hbase : bound ≤ base) (a : κ) :
    Above bound (Function.update rank a (some (base + 1))) := by
  rw [← numbered_singleton]
  exact h.numbered hbase

end Above

/-- The keys of `m`, and no others, numbered from one. -/
def enumerated (m : List κ) : κ → Option ℤ := numbered 0 m fun _ => none

section Enumerated
variable {m : List κ}

theorem enumerated_of_mem {k : κ} (h : k ∈ m) : enumerated m k = some (m.idxOf k + 1 : ℤ) := by
  rw [enumerated, numbered_of_mem h, Int.zero_add]
theorem enumerated_of_not_mem {k : κ} (h : k ∉ m) : enumerated m k = none := numbered_of_not_mem h

theorem above_enumerated : Above 0 (enumerated m) := above_empty.numbered le_rfl

theorem ranks_enumerated (hm : m.Nodup) : Ranks (enumerated m) m := by
  have hnone : Ranks (fun _ : κ => (none : Option ℤ)) [] := Ranks.empty
  have hbase : ∀ (k : κ) (p : ℤ), (none : Option ℤ) = some p → p ≤ 0 := by simp
  have hconcat := hnone.concat hm (List.disjoint_nil_left m) fun k p => hbase k p
  rwa [List.nil_append] at hconcat

/-- Down the list the numbering is 1..n. -/
theorem map_enumerated (hm : m.Nodup) :
    m.map (enumerated m) = (List.range m.length).map fun n : ℕ => some ((n : ℤ) + 1) := by
  refine List.ext_getElem (by simp) ?_
  intro i hi _
  have hlt : i < m.length := by simpa using hi
  rw [List.getElem_map, List.getElem_map, List.getElem_range,
    enumerated_of_mem (List.getElem_mem hlt), hm.idxOf_getElem i hlt]

end Enumerated

/-- Removing later repetitions leaves no repetition. -/
theorem nodup_eraseDups (l : List κ) : l.eraseDups.Nodup := by
  induction h : l.length using Nat.strong_induction_on generalizing l with
  | _ n ih =>
    cases l with
    | nil => exact List.nodup_nil
    | cons a rest =>
      have hlen : (rest.filter fun b => !b == a).length < n := by
        have hle := List.length_filter_le (fun b => !b == a) rest
        rw [List.length_cons] at h
        omega
      rw [List.eraseDups_cons, List.nodup_cons]
      refine ⟨?_, ih _ hlen _ rfl⟩
      simp [List.mem_eraseDups]

theorem eraseDups_of_nodup {l : List κ} (h : l.Nodup) : l.eraseDups = l := by
  induction l with
  | nil => rfl
  | cons a rest ih =>
    obtain ⟨ha, hrest⟩ := List.nodup_cons.mp h
    have hkeep : (rest.filter fun b => !b == a) = rest := by
      refine List.filter_eq_self.mpr ?_
      intro b hb
      have hba : b ≠ a := fun he => ha (he ▸ hb)
      simpa using hba
    rw [List.eraseDups_cons, hkeep, ih hrest]

end Foundation
