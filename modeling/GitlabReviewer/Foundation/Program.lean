import Mathlib.Tactic.Common

/-! # Programs over a shared state, cut at their atomic steps

Between two steps of a program anything may happen to the shared state, so a
program is a tree: each node is one atomic step, and the continuation depends
only on the state that step read. A step may have to wait until it is ready,
and it may fail without effect, which is how a raised error enters a program.
-/
namespace Foundation

/-- `next` receives the state before the step acted; `fail` is the program that
runs when the step raises instead. -/
inductive Program (τ σ ε α : Type) where
  | ret (a : α)
  | raise (e : ε)
  | step (tag : τ) (ready : σ → Bool) (act : σ → σ) (next : σ → Program τ σ ε α)
      (fail : Program τ σ ε α)

namespace Program
variable {τ σ ε α β γ : Type}

protected def bind : Program τ σ ε α → (α → Program τ σ ε β) → Program τ σ ε β
  | ret a, f => f a
  | raise e, _ => raise e
  | step t r act next fail, f => step t r act (fun s => (next s).bind f) (fail.bind f)

instance : Monad (Program τ σ ε) where
  pure := ret
  bind := Program.bind

/-- `try p except e: h e`: a step that fails inside `p` lands in the handler as
soon as its own failure branch raises. -/
def tryCatch : Program τ σ ε α → (ε → Program τ σ ε α) → Program τ σ ε α
  | ret a, _ => ret a
  | raise e, h => h e
  | step t r act next fail, h =>
      step t r act (fun s => (next s).tryCatch h) (fail.tryCatch h)

/-- One atomic step that returns what it read and raises `e` when it fails. -/
def atomic (tag : τ) (ready : σ → Bool) (act : σ → σ) (view : σ → α) (e : ε) :
    Program τ σ ε α :=
  step tag ready act (fun s => ret (view s)) (raise e)

@[simp] theorem pure_eq (a : α) : (pure a : Program τ σ ε α) = ret a := rfl
@[simp] theorem bind_eq (p : Program τ σ ε α) (f : α → Program τ σ ε β) :
    p >>= f = p.bind f := rfl
@[simp] theorem ret_bind (a : α) (f : α → Program τ σ ε β) : (ret a).bind f = f a := rfl
@[simp] theorem raise_bind (e : ε) (f : α → Program τ σ ε β) :
    (raise e : Program τ σ ε α).bind f = raise e := rfl
@[simp] theorem step_bind (t : τ) (r : σ → Bool) (act : σ → σ) (next : σ → Program τ σ ε α)
    (fail : Program τ σ ε α) (f : α → Program τ σ ε β) :
    (step t r act next fail).bind f = step t r act (fun s => (next s).bind f) (fail.bind f) := rfl
@[simp] theorem atomic_bind (t : τ) (r : σ → Bool) (act : σ → σ) (view : σ → α) (e : ε)
    (f : α → Program τ σ ε β) :
    (atomic t r act view e).bind f = step t r act (fun s => f (view s)) (raise e) := rfl

@[simp] theorem bind_ret (p : Program τ σ ε α) : p.bind ret = p := by
  induction p with
  | ret a => rfl
  | raise e => rfl
  | step t r act next fail ih ihf => simp only [step_bind, ih, ihf]

theorem bind_assoc (p : Program τ σ ε α) (f : α → Program τ σ ε β) (g : β → Program τ σ ε γ) :
    (p.bind f).bind g = p.bind (fun a => (f a).bind g) := by
  induction p with
  | ret a => rfl
  | raise e => rfl
  | step t r act next fail ih ihf => simp only [step_bind, ih, ihf]

/-- The complete run of a program nobody interferes with and whose steps all
succeed. It is undefined only where a step waits for ever. -/
def run : Program τ σ ε α → σ → Option (Except ε α × σ)
  | ret a, s => some (.ok a, s)
  | raise e, s => some (.error e, s)
  | step _ r act next _, s => if r s then (next s).run (act s) else none

@[simp] theorem run_ret (a : α) (s : σ) : (ret a : Program τ σ ε α).run s = some (.ok a, s) := rfl
@[simp] theorem run_raise (e : ε) (s : σ) :
    (raise e : Program τ σ ε α).run s = some (.error e, s) := rfl
@[simp] theorem run_step (t : τ) (r : σ → Bool) (act : σ → σ) (next : σ → Program τ σ ε α)
    (fail : Program τ σ ε α) (s : σ) :
    (step t r act next fail).run s = if r s then (next s).run (act s) else none := rfl
@[simp] theorem run_atomic (t : τ) (r : σ → Bool) (act : σ → σ) (view : σ → α) (e : ε) (s : σ) :
    (atomic t r act view e : Program τ σ ε α).run s =
      if r s then some (.ok (view s), act s) else none := rfl

theorem run_bind (p : Program τ σ ε α) (f : α → Program τ σ ε β) (s : σ) :
    (p.bind f).run s = (p.run s).bind fun out =>
      match out with
      | (.ok a, s') => (f a).run s'
      | (.error e, s') => some (.error e, s') := by
  induction p generalizing s with
  | ret a => rfl
  | raise e => rfl
  | step t r act next fail ih ihf =>
    simp only [step_bind, run_step]
    split
    · exact ih s (act s)
    · rfl

theorem run_bind_ok {p : Program τ σ ε α} {s s' : σ} {a : α} (h : p.run s = some (.ok a, s'))
    (f : α → Program τ σ ε β) : (p.bind f).run s = (f a).run s' := by
  rw [run_bind, h]
  rfl

/-- Nothing is left to execute. -/
def Finished : Program τ σ ε α → Prop
  | ret _ => True
  | raise _ => True
  | step .. => False

instance : DecidablePred (Finished : Program τ σ ε α → Prop)
  | ret _ => .isTrue trivial
  | raise _ => .isTrue trivial
  | step .. => .isFalse id

end Program

end Foundation
