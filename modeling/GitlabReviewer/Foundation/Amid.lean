import GitlabReviewer.Foundation.Alone

/-! # Programs among others

A program whose session is one of several: before each of its steps the others
may have moved the shared state, as far as `rely` allows. With equality for
`rely` the program runs alone.
-/
namespace Foundation.Program
variable {τ σ ε α β : Type}

/-- A complete run of the program from one state to another, with its result. -/
inductive EndsAmid (rely : σ → σ → Prop) (mayFail : τ → Bool) : Program τ σ ε α → σ → Except ε α → σ → Prop
  | ret (a : α) (s : σ) : EndsAmid rely mayFail (.ret a) s (.ok a) s
  | raise (e : ε) (s : σ) : EndsAmid rely mayFail (.raise e) s (.error e) s
  | step {tag : τ} {ready : σ → Bool} {act : σ → σ} {next : σ → Program τ σ ε α} {fail : Program τ σ ε α}
      {s s₁ s' : σ} {x : Except ε α} (hrely : rely s s₁) (hready : ready s₁ = true)
      (hnext : EndsAmid rely mayFail (next s₁) (act s₁) x s') :
      EndsAmid rely mayFail (.step tag ready act next fail) s x s'
  | fail {tag : τ} {ready : σ → Bool} {act : σ → σ} {next : σ → Program τ σ ε α} {fail : Program τ σ ε α}
      {s s' : σ} {x : Except ε α} (hmay : mayFail tag = true) (hfail : EndsAmid rely mayFail fail s x s') :
      EndsAmid rely mayFail (.step tag ready act next fail) s x s'

namespace EndsAmid
variable {rely : σ → σ → Prop} {mayFail : τ → Bool} {p : Program τ σ ε α} {s s' : σ}

/-- A run without the others. -/
theorem of_ends (hrefl : ∀ s, rely s s) {x : Except ε α} (h : p.Ends mayFail s x s') : p.EndsAmid rely mayFail s x s' := by
  induction h with
  | ret a s => exact .ret a s
  | raise e s => exact .raise e s
  | step hready _ ih => exact .step (hrefl _) hready ih
  | fail hmay _ ih => exact .fail hmay ih

theorem ret_iff {a : α} {x : Except ε α} :
    (Program.ret a : Program τ σ ε α).EndsAmid rely mayFail s x s' ↔ x = .ok a ∧ s' = s := by
  constructor
  · intro h
    cases h
    exact ⟨rfl, rfl⟩
  · rintro ⟨rfl, rfl⟩
    exact .ret a _

theorem raise_iff {e : ε} {x : Except ε α} :
    (Program.raise e : Program τ σ ε α).EndsAmid rely mayFail s x s' ↔ x = .error e ∧ s' = s := by
  constructor
  · intro h
    cases h
    exact ⟨rfl, rfl⟩
  · rintro ⟨rfl, rfl⟩
    exact .raise e _

/-- An atomic step acts after a move of the others, or fails. -/
theorem atomic_iff {tag : τ} {ready : σ → Bool} {act : σ → σ} {view : σ → α} {e : ε} {x : Except ε α} :
    (atomic tag ready act view e).EndsAmid rely mayFail s x s' ↔
      (∃ s₁, rely s s₁ ∧ ready s₁ = true ∧ x = .ok (view s₁) ∧ s' = act s₁) ∨
        (mayFail tag = true ∧ x = .error e ∧ s' = s) := by
  constructor
  · intro h
    cases h with
    | step hrely hready hnext => exact .inl ⟨_, hrely, hready, ret_iff.mp hnext⟩
    | fail hmay hfail => exact .inr ⟨hmay, raise_iff.mp hfail⟩
  · rintro (⟨s₁, hrely, hready, rfl, rfl⟩ | ⟨hmay, rfl, rfl⟩)
    · exact .step hrely hready (.ret _ _)
    · exact .fail hmay (.raise _ _)

theorem bind_iff {f : α → Program τ σ ε β} {y : Except ε β} :
    (p.bind f).EndsAmid rely mayFail s y s' ↔
      (∃ a s₁, p.EndsAmid rely mayFail s (.ok a) s₁ ∧ (f a).EndsAmid rely mayFail s₁ y s') ∨
        ∃ e, y = .error e ∧ p.EndsAmid rely mayFail s (.error e) s' := by
  constructor
  · intro h
    induction p generalizing s with
    | ret a => exact .inl ⟨a, s, .ret a s, h⟩
    | raise e =>
      obtain ⟨rfl, rfl⟩ := raise_iff.mp h
      exact .inr ⟨e, rfl, .raise e _⟩
    | step tag ready act next fail ih ihf =>
      cases h with
      | step hrely hready hnext =>
        rcases ih _ hnext with ⟨a, s₂, hp, hf⟩ | ⟨e, rfl, hp⟩
        · exact .inl ⟨a, s₂, .step hrely hready hp, hf⟩
        · exact .inr ⟨e, rfl, .step hrely hready hp⟩
      | fail hmay hfail =>
        rcases ihf hfail with ⟨a, s₂, hp, hf⟩ | ⟨e, rfl, hp⟩
        · exact .inl ⟨a, s₂, .fail hmay hp, hf⟩
        · exact .inr ⟨e, rfl, .fail hmay hp⟩
  · rintro (⟨a, s₁, hp, hf⟩ | ⟨e, rfl, hp⟩)
    · generalize hx : Except.ok a = x at hp
      induction hp with
      | ret b s =>
        cases hx
        exact hf
      | raise e s => cases hx
      | step hrely hready _ ih => exact .step hrely hready (ih hf hx)
      | fail hmay _ ih => exact .fail hmay (ih hf hx)
    · generalize hx : Except.error e = x at hp
      induction hp with
      | ret b s => cases hx
      | raise e' s =>
        cases hx
        exact .raise e s
      | step hrely hready _ ih => exact .step hrely hready (ih hx)
      | fail hmay _ ih => exact .fail hmay (ih hx)

theorem tryCatch_iff {handler : ε → Program τ σ ε α} {y : Except ε α} :
    (p.tryCatch handler).EndsAmid rely mayFail s y s' ↔
      (∃ a, y = .ok a ∧ p.EndsAmid rely mayFail s (.ok a) s') ∨
        ∃ e s₁, p.EndsAmid rely mayFail s (.error e) s₁ ∧ (handler e).EndsAmid rely mayFail s₁ y s' := by
  constructor
  · intro h
    induction p generalizing s with
    | ret a =>
      obtain ⟨rfl, rfl⟩ := ret_iff.mp h
      exact .inl ⟨a, rfl, .ret a _⟩
    | raise e => exact .inr ⟨e, s, .raise e s, h⟩
    | step tag ready act next fail ih ihf =>
      cases h with
      | step hrely hready hnext =>
        rcases ih _ hnext with ⟨a, rfl, hp⟩ | ⟨e, s₂, hp, hh⟩
        · exact .inl ⟨a, rfl, .step hrely hready hp⟩
        · exact .inr ⟨e, s₂, .step hrely hready hp, hh⟩
      | fail hmay hfail =>
        rcases ihf hfail with ⟨a, rfl, hp⟩ | ⟨e, s₂, hp, hh⟩
        · exact .inl ⟨a, rfl, .fail hmay hp⟩
        · exact .inr ⟨e, s₂, .fail hmay hp, hh⟩
  · rintro (⟨a, rfl, hp⟩ | ⟨e, s₁, hp, hh⟩)
    · generalize hx : Except.ok a = x at hp
      induction hp with
      | ret b s =>
        cases hx
        exact .ret a s
      | raise e s => cases hx
      | step hrely hready _ ih => exact .step hrely hready (ih hx)
      | fail hmay _ ih => exact .fail hmay (ih hx)
    · generalize hx : Except.error e = x at hp
      induction hp with
      | ret b s => cases hx
      | raise e' s =>
        cases hx
        exact hh
      | step hrely hready _ ih => exact .step hrely hready (ih hh hx)
      | fail hmay _ ih => exact .fail hmay (ih hh hx)

/-- What every step preserves and the others respect holds at the end. -/
theorem preserves {inv : σ → Prop} {post : α → Prop} {x : Except ε α} (h : p.EndsAmid rely mayFail s x s')
    (hp : p.Preserves inv post) (hrely : ∀ s s', inv s → rely s s' → inv s') (hs : inv s) :
    inv s' ∧ ∀ a, x = .ok a → post a := by
  induction h with
  | ret a s =>
    refine ⟨hs, ?_⟩
    intro b hb
    cases hb
    exact hp
  | raise e s =>
    refine ⟨hs, ?_⟩
    intro b hb
    cases hb
  | step hmove hready _ ih =>
    obtain ⟨hact, hnext⟩ := hp.1 _ (hrely _ _ hs hmove) hready
    exact ih hnext hact
  | fail _ _ ih => exact ih hp.2 hs

end EndsAmid

end Foundation.Program
