import Mathlib.Data.List.Basic

/-! # A unit of work over one table

A session holds changes back until it has to show them: a query flushes them
into its transaction, a commit flushes and stores. The constraints of the table
are checked at every flush, and a session that is given up stores nothing.
-/
namespace Foundation

structure UnitOfWork (R : Type) where
  rows : List R
  pending : List R → List R

namespace UnitOfWork
variable {R ε α : Type} (check : List R → Except ε Unit)

def begin (stored : List R) : UnitOfWork R := ⟨stored, id⟩

/-- An attribute of a loaded object is set, or an object added or deleted. -/
def change (f : List R → List R) (s : UnitOfWork R) : UnitOfWork R := { s with pending := f ∘ s.pending }

def flush (s : UnitOfWork R) : Except ε (UnitOfWork R) :=
  (check (s.pending s.rows)).map fun _ => { s with rows := s.pending s.rows, pending := id }

/-- A query sees the session's own changes, which are flushed first. -/
def select (query : List R → α) (s : UnitOfWork R) : Except ε (α × UnitOfWork R) :=
  (s.flush check).map fun s => (query s.rows, s)

def commit (s : UnitOfWork R) : Except ε (List R) := (s.flush check).map (·.rows)

variable {check} {s : UnitOfWork R}

@[simp] theorem begin_view (stored : List R) : (begin stored).pending (begin stored).rows = stored := rfl

@[simp] theorem change_view (f : List R → List R) :
    (s.change f).pending (s.change f).rows = f (s.pending s.rows) := rfl

theorem flush_ok (h : check (s.pending s.rows) = .ok ()) :
    s.flush check = .ok { s with rows := s.pending s.rows, pending := id } := by
  unfold flush
  rw [h]
  rfl

theorem flush_error {e : ε} (h : check (s.pending s.rows) = .error e) : s.flush check = .error e := by
  unfold flush
  rw [h]
  rfl

theorem select_ok (h : check (s.pending s.rows) = .ok ()) (query : List R → α) :
    s.select check query =
      .ok (query (s.pending s.rows), { s with rows := s.pending s.rows, pending := id }) := by
  unfold select
  rw [flush_ok h]
  rfl

theorem select_error {e : ε} (h : check (s.pending s.rows) = .error e) (query : List R → α) :
    s.select check query = .error e := by
  unfold select
  rw [flush_error h]
  rfl

theorem commit_ok (h : check (s.pending s.rows) = .ok ()) : s.commit check = .ok (s.pending s.rows) := by
  unfold commit
  rw [flush_ok h]
  rfl

theorem commit_error {e : ε} (h : check (s.pending s.rows) = .error e) : s.commit check = .error e := by
  unfold commit
  rw [flush_error h]
  rfl

/-- What is stored has passed the check. -/
theorem commit_eq_ok {rows : List R} (h : s.commit check = .ok rows) :
    check (s.pending s.rows) = .ok () ∧ rows = s.pending s.rows := by
  cases hcheck : check (s.pending s.rows) with
  | ok u =>
    rw [commit_ok hcheck] at h
    exact ⟨rfl, (Except.ok.inj h).symm⟩
  | error e =>
    rw [commit_error hcheck] at h
    cases h

end UnitOfWork

end Foundation
