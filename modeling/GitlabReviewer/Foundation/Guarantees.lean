import GitlabReviewer.Foundation.Pool

/-! # What every step of a program does

The guarantee of a program towards the others: each of its steps, taken in
whatever good state they left, is in a relation. Such a program follows every
protocol in which its role may take the steps of the relation.
-/
namespace Foundation.Program
variable {τ σ ε ρ α β : Type}

def Guarantees (good : σ → Prop) (rel : σ → σ → Prop) : Program τ σ ε α → Prop
  | ret _ => True
  | raise _ => True
  | step _ ready act next fail =>
      (∀ s, good s → ready s = true → rel s (act s) ∧ (next s).Guarantees good rel) ∧ fail.Guarantees good rel

namespace Guarantees
variable {good : σ → Prop} {rel : σ → σ → Prop}

theorem bind {p : Program τ σ ε α} {f : α → Program τ σ ε β} (hp : p.Guarantees good rel)
    (hf : ∀ a, (f a).Guarantees good rel) : (p.bind f).Guarantees good rel := by
  induction p with
  | ret a => exact hf a
  | raise e => trivial
  | step tag ready act next fail ih ihf =>
    refine ⟨?_, ihf hp.2⟩
    intro s hs hready
    obtain ⟨hact, hnext⟩ := hp.1 s hs hready
    exact ⟨hact, ih s hnext⟩

theorem tryCatch {p : Program τ σ ε α} {handler : ε → Program τ σ ε α} (hp : p.Guarantees good rel)
    (hh : ∀ e, (handler e).Guarantees good rel) : (p.tryCatch handler).Guarantees good rel := by
  induction p with
  | ret a => trivial
  | raise e => exact hh e
  | step tag ready act next fail ih ihf =>
    refine ⟨?_, ihf hp.2⟩
    intro s hs hready
    obtain ⟨hact, hnext⟩ := hp.1 s hs hready
    exact ⟨hact, ih s hnext⟩

theorem atomic {tag : τ} {ready : σ → Bool} {act : σ → σ} {view : σ → α} {e : ε}
    (h : ∀ s, good s → ready s = true → rel s (act s)) : (Program.atomic tag ready act view e).Guarantees good rel :=
  ⟨fun s hs hready => ⟨h s hs hready, trivial⟩, trivial⟩

/-- What follows a step only has to keep the guarantee for what the step can return. -/
theorem atomic_bind {tag : τ} {ready : σ → Bool} {act : σ → σ} {view : σ → α} {e : ε} {f : α → Program τ σ ε β}
    (h : ∀ s, good s → ready s = true → rel s (act s) ∧ (f (view s)).Guarantees good rel) :
    ((Program.atomic tag ready act view e).bind f).Guarantees good rel := ⟨h, trivial⟩

theorem mono {rel' : σ → σ → Prop} {p : Program τ σ ε α} (hp : p.Guarantees good rel) (h : ∀ s s', rel s s' → rel' s s') :
    p.Guarantees good rel' := by
  induction p with
  | ret a => trivial
  | raise e => trivial
  | step tag ready act next fail ih ihf =>
    refine ⟨?_, ihf hp.2⟩
    intro s hs hready
    obtain ⟨hact, hnext⟩ := hp.1 s hs hready
    exact ⟨h _ _ hact, ih s hnext⟩

/-- The program stays in its role. -/
theorem follows {move : ρ → σ → ρ → σ → Prop} {mayFail : τ → Bool} {p : Program τ σ ε α} (hp : p.Guarantees good rel)
    {r : ρ} (hmove : ∀ s s', rel s s' → move r s r s') : p.Follows good move mayFail r fun _ r' => r' = r := by
  induction p with
  | ret a => rfl
  | raise e => rfl
  | step tag ready act next fail ih ihf =>
    refine ⟨?_, fun _ => ihf hp.2⟩
    intro s hs hready
    obtain ⟨hact, hnext⟩ := hp.1 s hs hready
    exact ⟨r, hmove _ _ hact, ih s hnext⟩

end Guarantees

end Foundation.Program
