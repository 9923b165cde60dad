import Mathlib.Tactic.Common

/-! # Statements that may raise

A statement returns or raises, and what it has written stays written either way.
What a statement can do to the state is said by a relation between the states
before and after it; a reflexive and transitive one is carried through sequences,
handlers and final clauses without looking at how they end.
-/
namespace Foundation

def Statement (ε σ α : Type) := σ → Except ε α × σ

namespace Statement
variable {ε δ σ τ α β : Type}

protected def bind (x : Statement ε σ α) (f : α → Statement ε σ β) : Statement ε σ β := fun s => match x s with
  | (.ok a, s) => f a s
  | (.error e, s) => (.error e, s)

instance : Monad (Statement ε σ) where
  pure a s := (.ok a, s)
  bind := Statement.bind

def raise (e : ε) : Statement ε σ α := fun s => (.error e, s)
def read (f : σ → α) : Statement ε σ α := fun s => (.ok (f s), s)
def write (f : σ → σ) : Statement ε σ Unit := fun s => (.ok (), f s)

/-- An operation on the state, with its answer. -/
def act (f : σ → α × σ) : Statement ε σ α := fun s => (.ok (f s).1, (f s).2)

/-- `try`, with an `except` clause for the exceptions that have a handler. -/
def attempt (x : Statement ε σ α) (handler : ε → Option (Statement ε σ α)) : Statement ε σ α := fun s => match x s with
  | (.ok a, s) => (.ok a, s)
  | (.error e, s) => match handler e with
    | some h => h s
    | none => (.error e, s)

/-- `try`, with a `finally` clause; what that clause raises takes the place of the result. -/
def ensuring (x : Statement ε σ α) (final : Statement ε σ Unit) : Statement ε σ α := fun s => match x s with
  | (result, s) => match final s with
    | (.ok (), s) => (result, s)
    | (.error e, s) => (.error e, s)

/-- A statement about a part of the state. -/
def within (get : σ → τ) (set : τ → σ → σ) (embed : δ → ε) (x : Statement δ τ α) : Statement ε σ α := fun s =>
  ((x (get s)).1.mapError embed, set (x (get s)).2 s)

section Run
variable {x : Statement ε σ α} {f : α → Statement ε σ β} {s s' : σ}

@[simp] theorem pure_run (a : α) (s : σ) : (pure a : Statement ε σ α) s = (.ok a, s) := rfl
@[simp] theorem raise_run (e : ε) (s : σ) : (raise e : Statement ε σ α) s = (.error e, s) := rfl
@[simp] theorem read_run (g : σ → α) (s : σ) : (read g : Statement ε σ α) s = (.ok (g s), s) := rfl
@[simp] theorem write_run (g : σ → σ) (s : σ) : (write g : Statement ε σ Unit) s = (.ok (), g s) := rfl
@[simp] theorem act_run (g : σ → α × σ) (s : σ) : (act g : Statement ε σ α) s = (.ok (g s).1, (g s).2) := rfl

theorem bind_run (x : Statement ε σ α) (f : α → Statement ε σ β) (s : σ) : (x >>= f) s = match x s with
  | (.ok a, s) => f a s
  | (.error e, s) => (.error e, s) := rfl

theorem bind_ok {a : α} (h : x s = (.ok a, s')) : (x >>= f) s = f a s' := by
  rw [bind_run, h]

theorem bind_error {e : ε} (h : x s = (.error e, s')) : (x >>= f) s = (.error e, s') := by
  rw [bind_run, h]

/-- What a sequence returns, its second part has returned. -/
theorem of_bind_ok {b : β} (h : (x >>= f) s = (.ok b, s')) : ∃ a t, x s = (.ok a, t) ∧ f a t = (.ok b, s') := by
  rw [bind_run] at h
  cases hx : x s with
  | mk result t =>
    rw [hx] at h
    cases result with
    | ok a => exact ⟨a, t, rfl, h⟩
    | error e => cases h

theorem attempt_ok {handler : ε → Option (Statement ε σ α)} {a : α} (h : x s = (.ok a, s')) :
    x.attempt handler s = (.ok a, s') := by
  unfold attempt
  rw [h]

theorem attempt_caught {handler : ε → Option (Statement ε σ α)} {e : ε} {y : Statement ε σ α} (h : x s = (.error e, s'))
    (hy : handler e = some y) : x.attempt handler s = y s' := by
  unfold attempt
  rw [h]
  dsimp only
  rw [hy]

theorem attempt_raised {handler : ε → Option (Statement ε σ α)} {e : ε} (h : x s = (.error e, s')) (hnone : handler e = none) :
    x.attempt handler s = (.error e, s') := by
  unfold attempt
  rw [h]
  dsimp only
  rw [hnone]

/-- What returns from a `try` has returned, or a handler has. -/
theorem of_attempt_ok {handler : ε → Option (Statement ε σ α)} {a : α} (h : x.attempt handler s = (.ok a, s')) :
    x s = (.ok a, s') ∨ ∃ e y t, x s = (.error e, t) ∧ handler e = some y ∧ y t = (.ok a, s') := by
  cases hx : x s with
  | mk result t =>
    cases result with
    | ok b =>
      rw [attempt_ok hx] at h
      exact .inl h
    | error e =>
      cases hy : handler e with
      | none =>
        rw [attempt_raised hx hy] at h
        cases h
      | some y =>
        rw [attempt_caught hx hy] at h
        exact .inr ⟨e, y, t, rfl, hy, h⟩

theorem of_ensuring_ok {final : Statement ε σ Unit} {a : α} (h : x.ensuring final s = (.ok a, s')) :
    ∃ t, x s = (.ok a, t) ∧ final t = (.ok (), s') := by
  unfold ensuring at h
  cases hfinal : final (x s).2 with
  | mk result t =>
    dsimp only at h
    rw [hfinal] at h
    cases result with
    | ok =>
      obtain ⟨hresult, rfl⟩ := Prod.mk.inj h
      exact ⟨(x s).2, Prod.ext hresult rfl, hfinal⟩
    | error e => cases h

/-- The final clause has the last word on the state. -/
theorem ensuring_snd (x : Statement ε σ α) (final : Statement ε σ Unit) (s : σ) : (x.ensuring final s).2 = (final (x s).2).2 := by
  unfold ensuring
  cases hrun : final (x s).2 with
  | mk result t =>
    dsimp only
    rw [hrun]
    cases result <;> rfl

end Run

/-- However the statement ends, the states before and after it are related. -/
def Keeps (ρ : σ → σ → Prop) (x : Statement ε σ α) : Prop := ∀ s, ρ s (x s).2

/-- The statement does not raise. -/
def Returns (x : Statement ε σ α) : Prop := ∀ s, ∃ a s', x s = (.ok a, s')

section Keeps
variable {ρ : σ → σ → Prop} [Std.Refl ρ] [IsTrans σ ρ] {x : Statement ε σ α} {f : α → Statement ε σ β}

omit [IsTrans σ ρ] in
theorem Keeps.pure (a : α) : Keeps ρ (Pure.pure a : Statement ε σ α) := fun s => Std.Refl.refl s

omit [IsTrans σ ρ] in
theorem Keeps.raise (e : ε) : Keeps ρ (raise e : Statement ε σ α) := fun s => Std.Refl.refl s

omit [IsTrans σ ρ] in
theorem Keeps.read (g : σ → α) : Keeps ρ (read g : Statement ε σ α) := fun s => Std.Refl.refl s

omit [Std.Refl ρ] in
theorem Keeps.bind (hx : Keeps ρ x) (hf : ∀ a, Keeps ρ (f a)) : Keeps ρ (x >>= f) := by
  intro s
  have hfirst := hx s
  rw [bind_run]
  cases hrun : x s with
  | mk result t =>
    rw [hrun] at hfirst
    cases result with
    | ok a => exact IsTrans.trans _ _ _ hfirst (hf a t)
    | error e => exact hfirst

omit [Std.Refl ρ] in
theorem Keeps.attempt {handler : ε → Option (Statement ε σ α)} (hx : Keeps ρ x)
    (hhandler : ∀ e y, handler e = some y → Keeps ρ y) : Keeps ρ (x.attempt handler) := by
  intro s
  have hfirst := hx s
  unfold Statement.attempt
  cases hrun : x s with
  | mk result t =>
    rw [hrun] at hfirst
    cases result with
    | ok a => exact hfirst
    | error e =>
      dsimp only
      cases hy : handler e with
      | none => exact hfirst
      | some y => exact IsTrans.trans _ _ _ hfirst (hhandler e y hy t)

omit [Std.Refl ρ] in
theorem Keeps.ensuring {final : Statement ε σ Unit} (hx : Keeps ρ x) (hfinal : Keeps ρ final) : Keeps ρ (x.ensuring final) := by
  intro s
  have hlast := hfinal (x s).2
  unfold Statement.ensuring
  cases hrun : final (x s).2 with
  | mk result t =>
    rw [hrun] at hlast
    dsimp only
    rw [hrun]
    cases result <;> exact IsTrans.trans _ _ _ (hx s) hlast

theorem Keeps.forM {γ : Type} {items : List γ} {step : γ → Statement ε σ PUnit} (h : ∀ item ∈ items, Keeps ρ (step item)) :
    Keeps ρ (forM items step) := by
  induction items with
  | nil => exact Keeps.pure _
  | cons item items ih =>
    rw [List.forM_cons]
    exact Keeps.bind (h item List.mem_cons_self) fun _ => ih fun other hmem => h other (List.mem_cons_of_mem _ hmem)

end Keeps

section Returns
variable {x : Statement ε σ α} {f : α → Statement ε σ β}

theorem Returns.pure (a : α) : Returns (Pure.pure a : Statement ε σ α) := fun s => ⟨a, s, rfl⟩

theorem Returns.bind (hx : Returns x) (hf : ∀ a, Returns (f a)) : Returns (x >>= f) := by
  intro s
  obtain ⟨a, t, hrun⟩ := hx s
  rw [bind_ok hrun]
  exact hf a t

/-- A handler for every exception, none of which raises. -/
theorem Returns.attempt {handler : ε → Option (Statement ε σ α)} (h : ∀ e, ∃ y, handler e = some y ∧ Returns y) :
    Returns (x.attempt handler) := by
  intro s
  cases hrun : x s with
  | mk result t =>
    cases result with
    | ok a => exact ⟨a, t, attempt_ok hrun⟩
    | error e =>
      obtain ⟨y, hy, hreturns⟩ := h e
      rw [attempt_caught hrun hy]
      exact hreturns t

theorem Returns.forM {γ : Type} {items : List γ} {step : γ → Statement ε σ PUnit} (h : ∀ item ∈ items, Returns (step item)) :
    Returns (forM items step) := by
  induction items with
  | nil => exact Returns.pure _
  | cons item items ih =>
    rw [List.forM_cons]
    exact Returns.bind (h item List.mem_cons_self) fun _ => ih fun other hmem => h other (List.mem_cons_of_mem _ hmem)

end Returns

/-- However the statement ends, what it has appended to the log, and its result, are as said. -/
def Emits {γ : Type} (log : σ → List γ) (P : Except ε α → List γ → Prop) (x : Statement ε σ α) : Prop :=
  ∀ s, ∃ new, log (x s).2 = log s ++ new ∧ P (x s).1 new

section Emits
variable {γ : Type} {log : σ → List γ} {x : Statement ε σ α} {f : α → Statement ε σ β} {P P' : Except ε α → List γ → Prop}

/-- A statement that leaves the log alone. -/
theorem Emits.silent (h : ∀ s, log (x s).2 = log s) : Emits log (fun _ new => new = []) x := fun s =>
  ⟨[], by rw [h, List.append_nil], rfl⟩

theorem Emits.pure (a : α) (h : P (.ok a) []) : Emits log P (Pure.pure a : Statement ε σ α) := fun _ => ⟨[], (List.append_nil _).symm, h⟩

theorem Emits.raise (e : ε) (h : P (.error e) []) : Emits log P (Statement.raise e : Statement ε σ α) := fun _ =>
  ⟨[], (List.append_nil _).symm, h⟩

theorem Emits.imp (hx : Emits log P x) (h : ∀ result new, P result new → P' result new) : Emits log P' x := by
  intro s
  obtain ⟨new, hlog, hP⟩ := hx s
  exact ⟨new, hlog, h _ _ hP⟩

/-- The first part raises, or the second follows with its own. -/
theorem Emits.bind {Q : α → Except ε β → List γ → Prop} {R : Except ε β → List γ → Prop} (hx : Emits log P x)
    (hf : ∀ a, Emits log (Q a) (f a)) (hraise : ∀ e new, P (.error e) new → R (.error e) new)
    (hseq : ∀ a result first second, P (.ok a) first → Q a result second → R result (first ++ second)) : Emits log R (x >>= f) := by
  intro s
  obtain ⟨first, hfirst, hP⟩ := hx s
  rw [bind_run]
  cases hrun : x s with
  | mk result t =>
    rw [hrun] at hfirst hP
    cases result with
    | error e => exact ⟨first, hfirst, hraise e first hP⟩
    | ok a =>
      obtain ⟨second, hsecond, hQ⟩ := hf a t
      refine ⟨first ++ second, ?_, hseq a _ first second hP hQ⟩
      dsimp only
      rw [hsecond, hfirst, List.append_assoc]

/-- What a handler emits follows what was emitted before the exception. -/
theorem Emits.attempt {Q : ε → Except ε α → List γ → Prop} {R : Except ε α → List γ → Prop} {handler : ε → Option (Statement ε σ α)}
    (hx : Emits log P x) (hhandler : ∀ e y, handler e = some y → Emits log (Q e) y) (hok : ∀ a new, P (.ok a) new → R (.ok a) new)
    (hraised : ∀ e new, P (.error e) new → R (.error e) new)
    (hcaught : ∀ e result first second, P (.error e) first → Q e result second → R result (first ++ second)) :
    Emits log R (x.attempt handler) := by
  intro s
  obtain ⟨first, hfirst, hP⟩ := hx s
  unfold Statement.attempt
  cases hrun : x s with
  | mk result t =>
    rw [hrun] at hfirst hP
    cases result with
    | ok a => exact ⟨first, hfirst, hok a first hP⟩
    | error e =>
      dsimp only
      cases hy : handler e with
      | none => exact ⟨first, hfirst, hraised e first hP⟩
      | some y =>
        obtain ⟨second, hsecond, hQ⟩ := hhandler e y hy t
        refine ⟨first ++ second, ?_, hcaught e _ first second hP hQ⟩
        dsimp only
        rw [hsecond, hfirst, List.append_assoc]

theorem Emits.ensuring {Q : Except ε Unit → List γ → Prop} {R : Except ε α → List γ → Prop} {final : Statement ε σ Unit}
    (hx : Emits log P x) (hfinal : Emits log Q final)
    (hok : ∀ result first second, P result first → Q (.ok ()) second → R result (first ++ second))
    (hraised : ∀ e result first second, P result first → Q (.error e) second → R (.error e) (first ++ second)) :
    Emits log R (x.ensuring final) := by
  intro s
  obtain ⟨first, hfirst, hP⟩ := hx s
  obtain ⟨second, hsecond, hQ⟩ := hfinal (x s).2
  rw [hfirst, List.append_assoc] at hsecond
  unfold Statement.ensuring
  cases hrun : final (x s).2 with
  | mk result t =>
    rw [hrun] at hsecond hQ
    dsimp only
    rw [hrun]
    cases result with
    | ok => exact ⟨first ++ second, hsecond, hok _ first second hP hQ⟩
    | error e => exact ⟨first ++ second, hsecond, hraised e _ first second hP hQ⟩

/-- What is said of each entry alone goes through a loop. -/
theorem Emits.forM {ι : Type} {C : γ → Prop} {items : List ι} {step : ι → Statement ε σ PUnit}
    (h : ∀ item ∈ items, Emits log (fun _ new => ∀ c ∈ new, C c) (step item)) :
    Emits log (fun _ new => ∀ c ∈ new, C c) (forM items step) := by
  induction items with
  | nil => exact Emits.pure _ (List.forall_mem_nil _)
  | cons item items ih =>
    rw [List.forM_cons]
    apply Emits.bind (h item List.mem_cons_self) fun _ => ih fun other hmem => h other (List.mem_cons_of_mem _ hmem)
    · intro e new hnew
      exact hnew
    · intro a result first second hfirst hsecond
      exact List.forall_mem_append.mpr ⟨hfirst, hsecond⟩

end Emits

end Statement

end Foundation
