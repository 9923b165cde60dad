import Mathlib.Tactic.Common

/-! # Rows written back column by column

A session remembers of each row it loaded the values it last loaded or wrote
(`base`) and the values it holds now (`mem`). Its commit writes exactly the
columns in which the two differ, so what it stores over a row that changed in
the meantime is a three-way merge: the session's change where it made one, the
stored value everywhere else.
-/
namespace Foundation

/-- One column of the merge. -/
def written {α : Type} [DecidableEq α] (base mem stored : α) : α :=
  if mem = base then stored else mem

section Column
variable {α : Type} [DecidableEq α]

@[simp] theorem written_self (base stored : α) : written base base stored = stored := if_pos rfl
@[simp] theorem written_base (base mem : α) : written base mem base = mem := by
  unfold written
  split
  · rename_i h
    exact h.symm
  · rfl
theorem written_of_ne {base mem : α} (h : mem ≠ base) (stored : α) :
    written base mem stored = mem := if_neg h
@[simp] theorem written_mem (base mem : α) : written base mem mem = mem := by
  unfold written
  split <;> rfl

/-- The merged value is the stored one or the session's. -/
theorem written_eq_or (base mem stored : α) :
    (mem = base ∧ written base mem stored = stored) ∨
      (mem ≠ base ∧ written base mem stored = mem) := by
  by_cases h : mem = base
  · exact .inl ⟨h, if_pos h⟩
  · exact .inr ⟨h, if_neg h⟩

end Column

/-- Rows with a primary key that no commit changes. -/
class Columns (R : Type) where
  key : R → ℕ
  merge : R → R → R → R
  merge_self : ∀ b s, merge b b s = s
  merge_base : ∀ b m, merge b m b = m
  key_merge : ∀ b m s, key m = key b → key (merge b m s) = key s

/-- A row as one session holds it. -/
structure Tracked (R : Type) where
  base : R
  mem : R

namespace Tracked
variable {R : Type}

def load (row : R) : Tracked R := ⟨row, row⟩
def set (t : Tracked R) (f : R → R) : Tracked R := ⟨t.base, f t.mem⟩
/-- After its commit a session takes its own values for the stored ones. -/
def committed (t : Tracked R) : Tracked R := ⟨t.mem, t.mem⟩
def dirty [DecidableEq R] (t : Tracked R) : Bool := t.mem != t.base

@[simp] theorem load_base (row : R) : (load row).base = row := rfl
@[simp] theorem load_mem (row : R) : (load row).mem = row := rfl
@[simp] theorem set_base (t : Tracked R) (f : R → R) : (t.set f).base = t.base := rfl
@[simp] theorem set_mem (t : Tracked R) (f : R → R) : (t.set f).mem = f t.mem := rfl
@[simp] theorem committed_base (t : Tracked R) : t.committed.base = t.mem := rfl
@[simp] theorem committed_mem (t : Tracked R) : t.committed.mem = t.mem := rfl

end Tracked

section Store
variable {R : Type} [Columns R]
open Columns

/-- The session's copy of the row with this key, if it holds one. -/
def held (ts : List (Tracked R)) (i : ℕ) : Option (Tracked R) := ts.find? (fun t => key t.mem == i)

def overlay (ts : List (Tracked R)) (row : R) : R :=
  match held ts (key row) with
  | some t => merge t.base t.mem row
  | none => row

/-- The table after the session's commit. -/
def store (ts : List (Tracked R)) (rows : List R) : List R := rows.map (overlay ts)

def lookup (rows : List R) (i : ℕ) : Option R := rows.find? (fun row => key row == i)

/-- No session reassigns a primary key. -/
def KeysKept (ts : List (Tracked R)) : Prop := ∀ t ∈ ts, key t.mem = key t.base

@[simp] theorem keysKept_nil : KeysKept ([] : List (Tracked R)) := by simp [KeysKept]
@[simp] theorem keysKept_cons (t : Tracked R) (ts : List (Tracked R)) :
    KeysKept (t :: ts) ↔ key t.mem = key t.base ∧ KeysKept ts := by simp [KeysKept]

@[simp] theorem held_nil (i : ℕ) : held ([] : List (Tracked R)) i = none := rfl
theorem held_cons (t : Tracked R) (ts : List (Tracked R)) (i : ℕ) :
    held (t :: ts) i = if key t.mem = i then some t else held ts i := by
  by_cases h : key t.mem = i
  · rw [if_pos h, held, List.find?_cons_of_pos (by simpa using h)]
  · rw [if_neg h, held, List.find?_cons_of_neg (by simpa using h)]
    rfl
theorem held_single {t : Tracked R} {i : ℕ} (h : key t.mem = i) : held [t] i = some t := by
  rw [held_cons, if_pos h]
theorem held_single_ne {t : Tracked R} {i : ℕ} (h : key t.mem ≠ i) : held [t] i = none := by
  rw [held_cons, if_neg h]
  rfl
theorem held_mem {ts : List (Tracked R)} {i : ℕ} {t : Tracked R} (h : held ts i = some t) :
    t ∈ ts ∧ key t.mem = i :=
  ⟨List.mem_of_find?_eq_some h, by simpa using List.find?_some h⟩

@[simp] theorem overlay_nil (row : R) : overlay [] row = row := rfl
@[simp] theorem store_nil (rows : List R) : store ([] : List (Tracked R)) rows = rows := by
  simp [store, show overlay ([] : List (Tracked R)) = id from rfl]
theorem overlay_held {ts : List (Tracked R)} (row : R) {t : Tracked R} (h : held ts (key row) = some t) :
    overlay ts row = merge t.base t.mem row := by simp only [overlay, h]
theorem overlay_none {ts : List (Tracked R)} (row : R) (h : held ts (key row) = none) :
    overlay ts row = row := by simp only [overlay, h]

theorem key_overlay {ts : List (Tracked R)} (hts : KeysKept ts) (row : R) :
    key (overlay ts row) = key row := by
  unfold overlay
  split
  · rename_i t ht
    exact key_merge _ _ _ (hts t (held_mem ht).1)
  · rfl

theorem keys_store {ts : List (Tracked R)} (hts : KeysKept ts) (rows : List R) :
    (store ts rows).map key = rows.map key := by
  simp only [store, List.map_map]
  exact List.map_congr_left fun row _ => key_overlay hts row

/-- A part of the rows that no session changes stays as it is. -/
theorem map_store {γ : Type} {part : R → γ} (hmerge : ∀ b m s : R, part m = part b → part (merge b m s) = part s)
    {ts : List (Tracked R)} (hts : ∀ t ∈ ts, part t.mem = part t.base) (rows : List R) :
    (store ts rows).map part = rows.map part := by
  rw [store, List.map_map]
  apply List.map_congr_left
  intro row _
  rw [Function.comp_apply, overlay]
  split
  · rename_i t ht
    exact hmerge _ _ _ (hts t (held_mem ht).1)
  · rfl

theorem lookup_store {ts : List (Tracked R)} (hts : KeysKept ts) (rows : List R) (i : ℕ) :
    lookup (store ts rows) i = (lookup rows i).map (overlay ts) := by
  unfold lookup store
  rw [List.find?_map]
  congr 2
  funext row
  simp only [Function.comp_apply, key_overlay hts]

theorem lookup_key {rows : List R} {i : ℕ} {row : R} (h : lookup rows i = some row) : key row = i := by
  simpa using List.find?_some h
theorem lookup_mem {rows : List R} {i : ℕ} {row : R} (h : lookup rows i = some row) : row ∈ rows :=
  List.mem_of_find?_eq_some h

theorem lookup_of_mem {rows : List R} (hrows : (rows.map key).Nodup) {row : R} (h : row ∈ rows) :
    lookup rows (key row) = some row := by
  induction rows with
  | nil => simp at h
  | cons r rest ih =>
    rw [List.map_cons, List.nodup_cons] at hrows
    rcases List.mem_cons.mp h with rfl | h
    · exact List.find?_cons_of_pos (by simp)
    · have hne : key r ≠ key row := fun he => hrows.1 (he ▸ List.mem_map_of_mem h)
      rw [lookup, List.find?_cons_of_neg (by simpa using hne)]
      exact ih hrows.2 h

theorem lookup_eq_some_iff {rows : List R} (hrows : (rows.map key).Nodup) {i : ℕ} {row : R} :
    lookup rows i = some row ↔ row ∈ rows ∧ key row = i := by
  constructor
  · intro h
    exact ⟨lookup_mem h, lookup_key h⟩
  · rintro ⟨h, rfl⟩
    exact lookup_of_mem hrows h

theorem lookup_isSome_iff {rows : List R} {i : ℕ} : (lookup rows i).isSome = true ↔ i ∈ rows.map key := by
  simp [lookup, List.find?_isSome]

theorem lookup_append_singleton (rows : List R) (row : R) (i : ℕ) :
    lookup (rows ++ [row]) i = (lookup rows i).or (if key row = i then some row else none) := by
  unfold lookup
  rw [List.find?_append]
  congr 1
  by_cases h : key row = i <;> simp [h]

/-- Writing back a row that nobody touched stores the session's row. -/
theorem overlay_untouched {ts : List (Tracked R)} {t : Tracked R} (h : held ts (key t.base) = some t) :
    overlay ts t.base = t.mem := by
  rw [overlay_held _ h, merge_base]

theorem held_map {f : R → Tracked R} (hf : ∀ row, key (f row).mem = key row) (rows : List R) (i : ℕ) :
    held (rows.map f) i = (lookup rows i).map f := by
  unfold held lookup
  rw [List.find?_map]
  congr 2
  funext row
  simp only [Function.comp_apply, hf]

theorem held_mapIdx {f : ℕ → R → Tracked R} (hf : ∀ n row, key (f n row).mem = key row) (rows : List R)
    (i : ℕ) : held (rows.mapIdx f) i = (lookup rows i).map (f ((rows.map key).idxOf i)) := by
  induction rows generalizing f with
  | nil => rfl
  | cons row rest ih =>
    rw [List.mapIdx_cons, held_cons, hf, List.map_cons]
    by_cases h : key row = i
    · rw [if_pos h, lookup, List.find?_cons_of_pos (by simpa using h), h, List.idxOf_cons_self]
      rfl
    · have hidx : (key row :: rest.map key).idxOf i = (rest.map key).idxOf i + 1 := by
        have hne : (key row == i) = false := by simpa using h
        rw [List.idxOf_cons, hne]
        rfl
      rw [if_neg h, lookup, List.find?_cons_of_neg (by simpa using h), hidx]
      exact ih fun n r => hf (n + 1) r

end Store

end Foundation
