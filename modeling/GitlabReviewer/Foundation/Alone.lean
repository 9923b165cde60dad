import GitlabReviewer.Foundation.Program

/-! # Programs running alone

A program that nobody interferes with, but whose steps may raise. `Ends` is its
complete runs; `Ensures` is the condition on the state before under which no
step waits and every complete run, whichever steps raise in it, ends as `post`
says. The rules follow the constructors of a program.
-/
namespace Foundation.Program
variable {τ σ ε α β : Type}

/-- A complete run of the program from one state to another, with its result. -/
inductive Ends (mayFail : τ → Bool) : Program τ σ ε α → σ → Except ε α → σ → Prop
  | ret (a : α) (s : σ) : Ends mayFail (.ret a) s (.ok a) s
  | raise (e : ε) (s : σ) : Ends mayFail (.raise e) s (.error e) s
  | step {tag : τ} {ready : σ → Bool} {act : σ → σ} {next : σ → Program τ σ ε α}
      {fail : Program τ σ ε α} {s s' : σ} {x : Except ε α} (hready : ready s = true)
      (hnext : Ends mayFail (next s) (act s) x s') : Ends mayFail (.step tag ready act next fail) s x s'
  | fail {tag : τ} {ready : σ → Bool} {act : σ → σ} {next : σ → Program τ σ ε α}
      {fail : Program τ σ ε α} {s s' : σ} {x : Except ε α} (hmay : mayFail tag = true)
      (hfail : Ends mayFail fail s x s') : Ends mayFail (.step tag ready act next fail) s x s'

def Ensures (mayFail : τ → Bool) : Program τ σ ε α → σ → (Except ε α → σ → Prop) → Prop
  | ret a, s, post => post (.ok a) s
  | raise e, s, post => post (.error e) s
  | step tag ready act next fail, s, post =>
      ready s = true ∧ (next s).Ensures mayFail (act s) post ∧
        (mayFail tag = true → fail.Ensures mayFail s post)

variable {mayFail : τ → Bool}

/-- The run in which no step raises. -/
theorem Ends.of_run {p : Program τ σ ε α} {s s' : σ} {x : Except ε α} (h : p.run s = some (x, s')) :
    p.Ends mayFail s x s' := by
  induction p generalizing s with
  | ret a =>
    cases h
    exact .ret a _
  | raise e =>
    cases h
    exact .raise e _
  | step tag ready act next fail ih ihf =>
    rw [run_step] at h
    split at h
    · rename_i hready
      exact .step hready (ih s h)
    · cases h

namespace Ensures

theorem ends {p : Program τ σ ε α} {s s' : σ} {x : Except ε α} {post : Except ε α → σ → Prop}
    (h : p.Ensures mayFail s post) (hp : p.Ends mayFail s x s') : post x s' := by
  induction hp with
  | ret a s => exact h
  | raise e s => exact h
  | step _ _ ih => exact ih h.2.1
  | fail hmay _ ih => exact ih (h.2.2 hmay)

/-- Nothing waits, so there is a run in which no step raises. -/
theorem exists_run {p : Program τ σ ε α} {s : σ} {post : Except ε α → σ → Prop}
    (h : p.Ensures mayFail s post) : ∃ x s', p.run s = some (x, s') ∧ post x s' := by
  induction p generalizing s with
  | ret a => exact ⟨_, _, rfl, h⟩
  | raise e => exact ⟨_, _, rfl, h⟩
  | step tag ready act next fail ih ihf =>
    rw [run_step, if_pos h.1]
    exact ih s h.2.1

theorem mono {p : Program τ σ ε α} {s : σ} {post post' : Except ε α → σ → Prop}
    (h : p.Ensures mayFail s post) (hpost : ∀ x s', post x s' → post' x s') :
    p.Ensures mayFail s post' := by
  induction p generalizing s with
  | ret a => exact hpost _ _ h
  | raise e => exact hpost _ _ h
  | step tag ready act next fail ih ihf =>
    obtain ⟨hready, hnext, hfail⟩ := h
    exact ⟨hready, ih s hnext, fun hmay => ihf (hfail hmay)⟩

theorem bind {p : Program τ σ ε α} {f : α → Program τ σ ε β} {s : σ} {post : Except ε β → σ → Prop}
    (h : p.Ensures mayFail s fun x s' =>
      match x with
      | .ok a => (f a).Ensures mayFail s' post
      | .error e => post (.error e) s') : (p.bind f).Ensures mayFail s post := by
  induction p generalizing s with
  | ret a => exact h
  | raise e => exact h
  | step tag ready act next fail ih ihf =>
    obtain ⟨hready, hnext, hfail⟩ := h
    exact ⟨hready, ih s hnext, fun hmay => ihf (hfail hmay)⟩

theorem tryCatch {p : Program τ σ ε α} {handler : ε → Program τ σ ε α} {s : σ}
    {post : Except ε α → σ → Prop}
    (h : p.Ensures mayFail s fun x s' =>
      match x with
      | .ok a => post (.ok a) s'
      | .error e => (handler e).Ensures mayFail s' post) :
    (p.tryCatch handler).Ensures mayFail s post := by
  induction p generalizing s with
  | ret a => exact h
  | raise e => exact h
  | step tag ready act next fail ih ihf =>
    obtain ⟨hready, hnext, hfail⟩ := h
    exact ⟨hready, ih s hnext, fun hmay => ihf (hfail hmay)⟩

theorem atomic {tag : τ} {ready : σ → Bool} {act : σ → σ} {view : σ → α} {e : ε} {s : σ}
    {post : Except ε α → σ → Prop} (hready : ready s = true) (hstep : post (.ok (view s)) (act s))
    (hfail : mayFail tag = true → post (.error e) s) :
    (atomic tag ready act view e).Ensures mayFail s post :=
  ⟨hready, hstep, hfail⟩

end Ensures

/-- The state is reached at some point of a run, complete or not. -/
inductive Passes (mayFail : τ → Bool) : Program τ σ ε α → σ → σ → Prop
  | here (p : Program τ σ ε α) (s : σ) : Passes mayFail p s s
  | step {tag : τ} {ready : σ → Bool} {act : σ → σ} {next : σ → Program τ σ ε α}
      {fail : Program τ σ ε α} {s s' : σ} (hready : ready s = true)
      (hnext : Passes mayFail (next s) (act s) s') : Passes mayFail (.step tag ready act next fail) s s'
  | fail {tag : τ} {ready : σ → Bool} {act : σ → σ} {next : σ → Program τ σ ε α}
      {fail : Program τ σ ε α} {s s' : σ} (hmay : mayFail tag = true)
      (hfail : Passes mayFail fail s s') : Passes mayFail (.step tag ready act next fail) s s'

/-- The end of the run in which no step raises. -/
theorem Passes.of_run {p : Program τ σ ε α} {s s' : σ} {x : Except ε α} (h : p.run s = some (x, s')) :
    p.Passes mayFail s s' := by
  induction p generalizing s with
  | ret a =>
    cases h
    exact .here _ _
  | raise e =>
    cases h
    exact .here _ _
  | step tag ready act next fail ih ihf =>
    rw [run_step] at h
    split at h
    · rename_i hready
      exact .step hready (ih s h)
    · cases h

/-- Every step of the program preserves the invariant, whatever the others did
before it, and what it returns satisfies `post`. -/
def Preserves (inv : σ → Prop) : Program τ σ ε α → (α → Prop) → Prop
  | ret a, post => post a
  | raise _, _ => True
  | step _ ready act next fail, post =>
      (∀ s, inv s → ready s = true → inv (act s) ∧ (next s).Preserves inv post) ∧ fail.Preserves inv post

namespace Preserves
variable {inv : σ → Prop}

theorem bind {p : Program τ σ ε α} {f : α → Program τ σ ε β} {post : α → Prop} {post' : β → Prop}
    (hp : p.Preserves inv post) (hf : ∀ a, post a → (f a).Preserves inv post') :
    (p.bind f).Preserves inv post' := by
  induction p with
  | ret a => exact hf a hp
  | raise e => exact trivial
  | step tag ready act next fail ih ihf =>
    refine ⟨?_, ihf hp.2⟩
    intro s hs hready
    obtain ⟨hact, hnext⟩ := hp.1 s hs hready
    exact ⟨hact, ih s hnext⟩

theorem tryCatch {p : Program τ σ ε α} {handler : ε → Program τ σ ε α} {post : α → Prop}
    (hp : p.Preserves inv post) (hh : ∀ e, (handler e).Preserves inv post) :
    (p.tryCatch handler).Preserves inv post := by
  induction p with
  | ret a => exact hp
  | raise e => exact hh e
  | step tag ready act next fail ih ihf =>
    refine ⟨?_, ihf hp.2⟩
    intro s hs hready
    obtain ⟨hact, hnext⟩ := hp.1 s hs hready
    exact ⟨hact, ih s hnext⟩

theorem atomic {tag : τ} {ready : σ → Bool} {act : σ → σ} {view : σ → α} {e : ε} {post : α → Prop}
    (h : ∀ s, inv s → ready s = true → inv (act s) ∧ post (view s)) :
    (Program.atomic tag ready act view e).Preserves inv post := ⟨h, trivial⟩

theorem atomic_bind {tag : τ} {ready : σ → Bool} {act : σ → σ} {view : σ → α} {e : ε}
    {f : α → Program τ σ ε β} {post : β → Prop}
    (h : ∀ s, inv s → ready s = true → inv (act s) ∧ (f (view s)).Preserves inv post) :
    ((Program.atomic tag ready act view e).bind f).Preserves inv post := ⟨h, trivial⟩

/-- The state at the end of a complete run. -/
theorem ends {p : Program τ σ ε α} {post : α → Prop} (hp : p.Preserves inv post) {s s' : σ} {x : Except ε α}
    (hs : inv s) (h : p.Ends mayFail s x s') : inv s' := by
  induction h with
  | ret a s => exact hs
  | raise e s => exact hs
  | step hready _ ih =>
    obtain ⟨hact, hnext⟩ := hp.1 _ hs hready
    exact ih hnext hact
  | fail _ _ ih => exact ih hp.2 hs

theorem passes {p : Program τ σ ε α} {post : α → Prop} (hp : p.Preserves inv post) {s s' : σ} (hs : inv s)
    (h : p.Passes mayFail s s') : inv s' := by
  induction h with
  | here p s => exact hs
  | step hready _ ih =>
    obtain ⟨hact, hnext⟩ := hp.1 _ hs hready
    exact ih hnext hact
  | fail _ _ ih => exact ih hp.2 hs

end Preserves

/-- Run alone from a state satisfying `inv`, the program ends in one. -/
def Keeps (mayFail : τ → Bool) (inv : σ → Prop) (p : Program τ σ ε α) : Prop :=
  ∀ s, inv s → p.Ensures mayFail s fun _ s' => inv s'

namespace Keeps
variable {inv : σ → Prop}

theorem ret (a : α) : Keeps mayFail inv (.ret a : Program τ σ ε α) := fun _ h => h
theorem raise (e : ε) : Keeps mayFail inv (.raise e : Program τ σ ε α) := fun _ h => h

theorem bind {p : Program τ σ ε α} {f : α → Program τ σ ε β} (hp : p.Keeps mayFail inv)
    (hf : ∀ a, (f a).Keeps mayFail inv) : (p.bind f).Keeps mayFail inv := by
  intro s hs
  refine .bind ((hp s hs).mono ?_)
  intro x s' hs'
  cases x with
  | ok a => exact hf a s' hs'
  | error e => exact hs'

theorem tryCatch {p : Program τ σ ε α} {handler : ε → Program τ σ ε α} (hp : p.Keeps mayFail inv)
    (hh : ∀ e, (handler e).Keeps mayFail inv) : (p.tryCatch handler).Keeps mayFail inv := by
  intro s hs
  refine .tryCatch ((hp s hs).mono ?_)
  intro x s' hs'
  cases x with
  | ok a => exact hs'
  | error e => exact hh e s' hs'

theorem atomic {tag : τ} {ready : σ → Bool} {act : σ → σ} {view : σ → α} {e : ε}
    (h : ∀ s, inv s → ready s = true ∧ inv (act s)) :
    (atomic tag ready act view e).Keeps mayFail inv := by
  intro s hs
  exact .atomic (h s hs).1 (h s hs).2 fun _ => hs

/-- What follows a step only has to keep the invariant for what the step can return. -/
theorem atomic_bind {tag : τ} {ready : σ → Bool} {act : σ → σ} {view : σ → α} {e : ε}
    {f : α → Program τ σ ε β} (h : ∀ s, inv s → ready s = true ∧ inv (act s))
    (hf : ∀ s, inv s → (f (view s)).Keeps mayFail inv) :
    ((Program.atomic tag ready act view e).bind f).Keeps mayFail inv := by
  intro s hs
  exact ⟨(h s hs).1, hf s hs _ (h s hs).2, fun _ => hs⟩

end Keeps

end Foundation.Program
