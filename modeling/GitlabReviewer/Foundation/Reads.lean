import GitlabReviewer.Foundation.Pool
import Mathlib.Logic.Function.Basic

/-! # Sessions that write over what they read

Beside a pool runs a record of what each thread has read: the states its own
steps found since it last changed one. A run is watched when every step is
admitted by the reads of its thread, and a program is careful when its admitted
steps keep the invariant. A program may also rely on what no step undoes.
-/
namespace Foundation

section Watched
variable {ο τ σ ε : Type} [DecidableEq σ]

/-- The reads of a thread after one of its steps; a step that changes nothing is a read. -/
def recorded (reads : List σ) (s s' : σ) : List σ := if s' = s then s :: reads else []

theorem recorded_self (reads : List σ) (s : σ) : recorded reads s s = s :: reads := if_pos rfl

/-- The reads of all threads. A crash leaves no thread. -/
def recordedBy (reads : ℕ → List σ) (s s' : σ) : Choice ο → ℕ → List σ
  | .start _ => reads
  | .advance i => Function.update reads i (recorded (reads i) s s')
  | .fail _ => reads
  | .crash => fun _ => []

/-- The executions all of whose steps are admitted by the reads of their threads. -/
inductive System.Watched (S : System ο τ σ ε) (ok : List σ → σ → σ → Prop) (c : Pool ο τ σ ε) :
    Pool ο τ σ ε → (ℕ → List σ) → Prop
  | refl : Watched S ok c c fun _ => []
  | step {d e : Pool ο τ σ ε} {reads : ℕ → List σ} (ch : Choice ο) (hd : Watched S ok c d reads)
      (he : S.step d ch = some e) (hok : ∀ i, ch = .advance i → ok (reads i) d.shared e.shared) :
      Watched S ok c e (recordedBy reads d.shared e.shared ch)

end Watched

namespace Program
variable {τ σ ε α β : Type} [DecidableEq σ]

/-- From any state the others may leave, every step the program takes respects
`rely` and, where its reads admit it, keeps the invariant. -/
def Careful (rely : σ → σ → Prop) (inv : σ → Prop) (ok : List σ → σ → σ → Prop) :
    Program τ σ ε α → σ → List σ → Prop
  | ret _, _, _ => True
  | raise _, _, _ => True
  | step _ ready act next fail, s₀, reads =>
      (∀ s, rely s₀ s → inv s → ready s = true →
        rely s (act s) ∧ (ok reads s (act s) → inv (act s)) ∧
          (next s).Careful rely inv ok (act s) (recorded reads s (act s))) ∧
        fail.Careful rely inv ok s₀ reads

namespace Careful
variable {rely : σ → σ → Prop} {inv : σ → Prop} {ok : List σ → σ → σ → Prop} {s₀ : σ} {reads : List σ}

theorem bind {p : Program τ σ ε α} {f : α → Program τ σ ε β} (hp : p.Careful rely inv ok s₀ reads)
    (hf : ∀ a s reads, (f a).Careful rely inv ok s reads) : (p.bind f).Careful rely inv ok s₀ reads := by
  induction p generalizing s₀ reads with
  | ret a => exact hf a s₀ reads
  | raise e => exact trivial
  | step tag ready act next fail ih ihf =>
    obtain ⟨hstep, hfail⟩ := hp
    refine ⟨?_, ihf hfail⟩
    intro s hrely hinv hready
    obtain ⟨hguar, hkeeps, hnext⟩ := hstep s hrely hinv hready
    exact ⟨hguar, hkeeps, ih s hnext⟩

/-- One step and what follows it. -/
theorem atomic_bind {tag : τ} {ready : σ → Bool} {act : σ → σ} {view : σ → α} {e : ε} {f : α → Program τ σ ε β}
    (h : ∀ s, rely s₀ s → inv s → ready s = true →
      rely s (act s) ∧ (ok reads s (act s) → inv (act s)) ∧
        (f (view s)).Careful rely inv ok (act s) (recorded reads s (act s))) :
    ((atomic tag ready act view e).bind f).Careful rely inv ok s₀ reads := ⟨h, trivial⟩

theorem atomic {tag : τ} {ready : σ → Bool} {act : σ → σ} {view : σ → α} {e : ε}
    (h : ∀ s, rely s₀ s → inv s → ready s = true → rely s (act s) ∧ (ok reads s (act s) → inv (act s))) :
    (Program.atomic tag ready act view e).Careful rely inv ok s₀ reads := by
  refine ⟨?_, trivial⟩
  intro s hrely hinv hready
  obtain ⟨hguar, hkeeps⟩ := h s hrely hinv hready
  exact ⟨hguar, hkeeps, trivial⟩

/-- A read and what follows it. -/
theorem read_bind (hrefl : ∀ s, rely s s) {tag : τ} {view : σ → α} {e : ε} {f : α → Program τ σ ε β}
    (h : ∀ s, rely s₀ s → inv s → (f (view s)).Careful rely inv ok s (s :: reads)) :
    ((Program.atomic tag (fun _ => true) id view e).bind f).Careful rely inv ok s₀ reads := by
  apply atomic_bind
  intro s hrely hinv _
  refine ⟨hrefl s, fun _ => hinv, ?_⟩
  rw [id, recorded_self]
  exact h s hrely hinv

end Careful

end Program

section Run
variable {ο τ σ ε : Type} [DecidableEq σ] {S : System ο τ σ ε} {rely : σ → σ → Prop} {inv : σ → Prop}
  {ok : List σ → σ → σ → Prop}

/-- Every thread carries on carefully from some state before, and no thread has reads before it starts. -/
structure CarefulPool (rely : σ → σ → Prop) (inv : σ → Prop) (ok : List σ → σ → σ → Prop) (d : Pool ο τ σ ε)
    (reads : ℕ → List σ) : Prop where
  holds : inv d.shared
  threads : ∀ i (t : Thread ο τ σ ε), d.threads[i]? = some t → ∃ s₀, rely s₀ d.shared ∧ t.prog.Careful rely inv ok s₀ (reads i)
  unread : ∀ i, d.threads.length ≤ i → reads i = []

/-- What one thread does leaves the others as careful as they were. -/
theorem CarefulPool.set (htrans : ∀ a b c, rely a b → rely b c → rely a c) {d : Pool ο τ σ ε} {reads : ℕ → List σ}
    (h : CarefulPool rely inv ok d reads) {s : σ} {i : ℕ} {t : Thread ο τ σ ε} {read : List σ} (hinv : inv s)
    (hrely : rely d.shared s) (hi : i < d.threads.length)
    (ht : ∃ s₀, rely s₀ s ∧ t.prog.Careful rely inv ok s₀ read) :
    CarefulPool rely inv ok ⟨s, d.threads.set i t⟩ (Function.update reads i read) := by
  constructor
  · exact hinv
  · intro j u hj
    by_cases hij : i = j
    · subst hij
      rw [List.getElem?_set_self hi] at hj
      obtain rfl := Option.some.inj hj
      rw [Function.update_self]
      exact ht
    · rw [List.getElem?_set_ne hij] at hj
      obtain ⟨s₀, hold, hcareful⟩ := h.threads j u hj
      rw [Function.update_of_ne (Ne.symm hij)]
      exact ⟨s₀, htrans _ _ _ hold hrely, hcareful⟩
  · intro j hj
    rw [List.length_set] at hj
    have hne : j ≠ i := by omega
    rw [Function.update_of_ne hne]
    exact h.unread j hj

/-- One admitted transition. -/
theorem CarefulPool.step (hrefl : ∀ s, rely s s) (htrans : ∀ a b c, rely a b → rely b c → rely a c)
    (hprog : ∀ o s, (S.prog o).Careful rely inv ok s []) (hrestart : S.restart = none) {d e : Pool ο τ σ ε}
    {reads : ℕ → List σ} (h : CarefulPool rely inv ok d reads) {ch : Choice ο} (he : S.step d ch = some e)
    (hok : ∀ i, ch = .advance i → ok (reads i) d.shared e.shared) :
    CarefulPool rely inv ok e (recordedBy reads d.shared e.shared ch) := by
  cases ch with
  | start o =>
    obtain rfl := Option.some.inj he
    constructor
    · exact h.holds
    · intro i t hi
      rcases Nat.lt_or_ge i d.threads.length with hlt | hge
      · rw [List.getElem?_append_left hlt] at hi
        exact h.threads i t hi
      · rw [List.getElem?_append_right hge, List.getElem?_singleton] at hi
        split at hi
        · obtain rfl := Option.some.inj hi
          have hnone : reads i = [] := h.unread i hge
          refine ⟨d.shared, hrefl _, ?_⟩
          unfold recordedBy
          dsimp only
          rw [hnone]
          exact hprog o d.shared
        · cases hi
    · intro i hi
      rw [List.length_append] at hi
      exact h.unread i (by omega)
  | advance i =>
    have hok' := hok i rfl
    unfold System.step System.advance at he
    dsimp only at he
    split at he
    · rename_i o tag ready act next fail hi
      split at he
      · rename_i hready
        obtain rfl := Option.some.inj he
        obtain ⟨hlt, -⟩ := List.getElem?_eq_some_iff.mp hi
        obtain ⟨s₀, hrely, hcareful⟩ := h.threads i _ hi
        obtain ⟨hguar, hkeeps, hnext⟩ := hcareful.1 d.shared hrely h.holds hready
        exact h.set htrans (hkeeps hok') hguar hlt ⟨_, hrefl _, hnext⟩
      · cases he
    · cases he
  | fail i =>
    unfold System.step System.failAt at he
    dsimp only at he
    split at he
    · rename_i o tag ready act next fail hi
      split at he
      · obtain rfl := Option.some.inj he
        obtain ⟨hlt, -⟩ := List.getElem?_eq_some_iff.mp hi
        obtain ⟨s₀, hrely, hcareful⟩ := h.threads i _ hi
        have hset := h.set htrans (t := ⟨o, fail⟩) h.holds (hrefl d.shared) hlt ⟨s₀, hrely, hcareful.2⟩
        rwa [Function.update_eq_self] at hset
      · cases he
    · cases he
  | crash =>
    obtain ⟨k, hk, -⟩ := Option.map_eq_some_iff.mp he
    rw [hrestart] at hk
    cases hk

/-- A watched run of careful programs keeps the invariant. -/
theorem System.Watched.careful (hrefl : ∀ s, rely s s) (htrans : ∀ a b c, rely a b → rely b c → rely a c)
    (hprog : ∀ o s, (S.prog o).Careful rely inv ok s []) (hrestart : S.restart = none) {s : σ} (hs : inv s)
    {d : Pool ο τ σ ε} {reads : ℕ → List σ} (h : S.Watched ok ⟨s, []⟩ d reads) : CarefulPool rely inv ok d reads := by
  induction h with
  | refl =>
    refine ⟨hs, ?_, fun _ _ => rfl⟩
    intro i t hi
    cases hi
  | step ch _ he hok ih => exact ih.step hrefl htrans hprog hrestart he hok

end Run

end Foundation
