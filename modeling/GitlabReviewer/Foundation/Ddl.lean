import Mathlib.Tactic.Common
import Mathlib.Data.List.Basic

/-! # Schemas and the statements that build them

A schema lists its tables with their columns. Statements only add to it, so a
history is judged by what its statements provide.
-/
namespace Foundation

abbrev Schema (τ κ : Type) := List (τ × List κ)

/-- A DDL statement; an index is known by its name. -/
inductive Ddl (τ κ ι : Type) where
  | createTable (table : τ) (columns : List κ)
  | createIndex (name : ι) (table : τ)
  | addColumn (table : τ) (column : κ)

variable {τ κ ι : Type} [DecidableEq τ] [DecidableEq κ]

def Schema.Has (s : Schema τ κ) (table : τ) (column : κ) : Prop :=
  ∃ columns, s.lookup table = some columns ∧ column ∈ columns

/-- Every table of `wanted` is there with every one of its columns. -/
def Schema.Contains (s wanted : Schema τ κ) : Prop :=
  ∀ table columns, (table, columns) ∈ wanted →
    ∃ stored, s.lookup table = some stored ∧ ∀ column ∈ columns, column ∈ stored

namespace Ddl

/-- What one statement does; none is the error of the database. -/
def exec : Ddl τ κ ι → Schema τ κ → Option (Schema τ κ)
  | createTable table columns, s =>
      if (s.lookup table).isSome then none else some (s ++ [(table, columns)])
  | createIndex _ table, s => if (s.lookup table).isSome then some s else none
  | addColumn table column, s =>
      match s.lookup table with
      | none => none
      | some columns =>
          if column ∈ columns then none
          else some (s.map fun entry => if entry.1 = table then (entry.1, entry.2 ++ [column]) else entry)

def execAll (steps : List (Ddl τ κ ι)) (s : Schema τ κ) : Option (Schema τ κ) :=
  steps.foldlM (fun s step => step.exec s) s

/-- The statement brings the column into the table. -/
def Provides (table : τ) (column : κ) : Ddl τ κ ι → Prop
  | createTable t columns => t = table ∧ column ∈ columns
  | createIndex _ _ => False
  | addColumn t c => t = table ∧ c = column

instance (table : τ) (column : κ) : (step : Ddl τ κ ι) → Decidable (Provides table column step)
  | createTable t columns => inferInstanceAs (Decidable (t = table ∧ column ∈ columns))
  | createIndex _ _ => inferInstanceAs (Decidable False)
  | addColumn t c => inferInstanceAs (Decidable (t = table ∧ c = column))

/-- The tables that are missing, created one after the other. -/
def createMissing (wanted s : Schema τ κ) : Schema τ κ :=
  wanted.foldl (fun s entry => if (s.lookup entry.1).isSome then s else s ++ [entry]) s

omit [DecidableEq κ] in
theorem lookup_concat (s : Schema τ κ) (table t : τ) (columns : List κ) :
    (s ++ [(table, columns)]).lookup t = (s.lookup t).or (if t = table then some columns else none) := by
  rw [List.lookup_append]
  congr 1
  by_cases ht : t = table
  · subst ht
    simp
  · have hbeq : (t == table) = false := by simpa using ht
    simp [List.lookup_cons, hbeq, ht]

omit [DecidableEq κ] in
theorem lookup_extend (s : Schema τ κ) (table t : τ) (column : κ) :
    (s.map fun entry => if entry.1 = table then (entry.1, entry.2 ++ [column]) else entry).lookup t =
      (s.lookup t).map fun columns => if t = table then columns ++ [column] else columns := by
  induction s with
  | nil => rfl
  | cons entry rest ih =>
    obtain ⟨name, columns⟩ := entry
    have hentry : (if name = table then (name, columns ++ [column]) else (name, columns)) =
        (name, if name = table then columns ++ [column] else columns) := by
      split <;> rfl
    rw [List.map_cons]
    dsimp only
    rw [hentry, List.lookup_cons, List.lookup_cons]
    by_cases ht : t = name
    · subst ht
      simp
    · have hbeq : (t == name) = false := by simpa using ht
      rw [hbeq]
      exact ih

/-- Statements keep the tables and their columns. -/
theorem lookup_exec {step : Ddl τ κ ι} {s s' : Schema τ κ} (h : step.exec s = some s') {t : τ}
    {columns : List κ} (ht : s.lookup t = some columns) :
    ∃ stored, s'.lookup t = some stored ∧ columns ⊆ stored := by
  cases step with
  | createTable table created =>
    simp only [exec] at h
    split at h
    · cases h
    · cases h
      exact ⟨columns, by rw [lookup_concat, ht]; rfl, List.Subset.refl _⟩
  | createIndex name table =>
    simp only [exec] at h
    split at h
    · cases h
      exact ⟨columns, ht, List.Subset.refl _⟩
    · cases h
  | addColumn table column =>
    simp only [exec] at h
    split at h
    · cases h
    · split at h
      · cases h
      · cases h
        rw [lookup_extend, ht]
        by_cases hname : t = table
        · exact ⟨columns ++ [column], by simp [hname], List.subset_append_left _ _⟩
        · exact ⟨columns, by simp [hname], List.Subset.refl _⟩

/-- A column that is there after a statement was there before or is its work. -/
theorem has_of_exec {step : Ddl τ κ ι} {s s' : Schema τ κ} (h : step.exec s = some s') {t : τ} {c : κ}
    (hc : s'.Has t c) : s.Has t c ∨ step.Provides t c := by
  obtain ⟨stored, hstored, hmem⟩ := hc
  cases step with
  | createTable table created =>
    simp only [exec] at h
    split at h
    · cases h
    · cases h
      rw [lookup_concat] at hstored
      cases hold : s.lookup t with
      | some columns =>
        rw [hold] at hstored
        cases hstored
        exact .inl ⟨_, hold, hmem⟩
      | none =>
        rw [hold, Option.none_or] at hstored
        split at hstored
        · rename_i ht
          cases hstored
          exact .inr ⟨ht.symm, hmem⟩
        · cases hstored
  | createIndex name table =>
    simp only [exec] at h
    split at h
    · cases h
      exact .inl ⟨_, hstored, hmem⟩
    · cases h
  | addColumn table column =>
    simp only [exec] at h
    split at h
    · cases h
    · split at h
      · cases h
      · cases h
        rw [lookup_extend] at hstored
        obtain ⟨columns, hold, heq⟩ := Option.map_eq_some_iff.mp hstored
        subst heq
        split at hmem
        · rename_i ht
          rcases List.mem_append.mp hmem with hm | hm
          · exact .inl ⟨_, hold, hm⟩
          · exact .inr ⟨ht.symm, (List.mem_singleton.mp hm).symm⟩
        · exact .inl ⟨_, hold, hmem⟩

theorem execAll_append (first second : List (Ddl τ κ ι)) (s : Schema τ κ) :
    execAll (first ++ second) s = (execAll first s).bind (execAll second) :=
  List.foldlM_append

/-- A beginning of a history that runs runs too. -/
theorem execAll_take {steps : List (Ddl τ κ ι)} {s s' : Schema τ κ} (h : execAll steps s = some s') (n : ℕ) :
    ∃ mid, execAll (steps.take n) s = some mid ∧ execAll (steps.drop n) mid = some s' := by
  rw [← List.take_append_drop n steps, execAll_append] at h
  simpa using Option.bind_eq_some_iff.mp h

theorem lookup_execAll {steps : List (Ddl τ κ ι)} {s s' : Schema τ κ} (h : execAll steps s = some s') {t : τ}
    {columns : List κ} (ht : s.lookup t = some columns) :
    ∃ stored, s'.lookup t = some stored ∧ columns ⊆ stored := by
  induction steps generalizing s columns with
  | nil =>
    cases h
    exact ⟨columns, ht, List.Subset.refl _⟩
  | cons step rest ih =>
    obtain ⟨mid, hstep, hrest⟩ := Option.bind_eq_some_iff.mp h
    obtain ⟨kept, hkept, hsub⟩ := lookup_exec hstep ht
    obtain ⟨stored, hstored, hsub'⟩ := ih hrest hkept
    exact ⟨stored, hstored, List.Subset.trans hsub hsub'⟩

/-- Every column a history left was there before or is the work of a statement. -/
theorem has_of_execAll {steps : List (Ddl τ κ ι)} {s s' : Schema τ κ} (h : execAll steps s = some s') {t : τ}
    {c : κ} (hc : s'.Has t c) : s.Has t c ∨ ∃ step ∈ steps, step.Provides t c := by
  induction steps generalizing s with
  | nil =>
    cases h
    exact .inl hc
  | cons step rest ih =>
    obtain ⟨mid, hstep, hrest⟩ := Option.bind_eq_some_iff.mp h
    rcases ih hrest with hmid | ⟨later, hlater, hprovides⟩
    · rcases has_of_exec hstep hmid with hold | hnew
      · exact .inl hold
      · exact .inr ⟨step, List.mem_cons_self, hnew⟩
    · exact .inr ⟨later, List.mem_cons_of_mem _ hlater, hprovides⟩

omit [DecidableEq κ] in
theorem lookup_createMissing (wanted s : Schema τ κ) (t : τ) :
    (createMissing wanted s).lookup t = (s.lookup t).or (wanted.lookup t) := by
  unfold createMissing
  induction wanted generalizing s with
  | nil => simp
  | cons entry rest ih =>
    obtain ⟨name, columns⟩ := entry
    rw [List.foldl_cons, ih, List.lookup_cons]
    by_cases ht : t = name
    · subst ht
      cases hold : s.lookup t with
      | some stored => simp [hold]
      | none => simp [hold, lookup_concat]
    · have hbeq : (t == name) = false := by simpa using ht
      rw [hbeq]
      split
      · rfl
      · rw [lookup_concat, if_neg ht, Option.or_none]

end Ddl

end Foundation
