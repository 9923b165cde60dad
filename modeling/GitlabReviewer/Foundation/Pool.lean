import GitlabReviewer.Foundation.Program
import Mathlib.Data.List.Forall2

/-! # Interleavings of programs and the protocols they follow

A pool runs any number of programs over one shared state, one atomic step at a
time and in any order; a step may also fail, and the whole pool may be lost in
a crash. A protocol describes the same steps by a role for each thread: a
program follows a protocol when each of its steps, taken in whatever state the
others left, is a move of the protocol. Invariants are then proved of the moves
alone, once for all programs.
-/
namespace Foundation

structure Thread (ο τ σ ε : Type) where
  op : ο
  prog : Program τ σ ε Unit

structure Pool (ο τ σ ε : Type) where
  shared : σ
  threads : List (Thread ο τ σ ε)

/-- Which programs may be started, which steps may raise, and what a crash of
the process does to the shared state (`none`: it never crashes). -/
structure System (ο τ σ ε : Type) where
  prog : ο → Program τ σ ε Unit
  mayFail : τ → Bool
  restart : Option (σ → σ)

inductive Choice (ο : Type) where
  | start (o : ο)
  | advance (i : ℕ)
  | fail (i : ℕ)
  | crash

namespace System
variable {ο τ σ ε ρ α β : Type} (S : System ο τ σ ε)

def advance (c : Pool ο τ σ ε) (i : ℕ) : Option (Pool ο τ σ ε) :=
  match c.threads[i]? with
  | some ⟨o, .step _ ready act next _⟩ =>
      if ready c.shared then some ⟨act c.shared, c.threads.set i ⟨o, next c.shared⟩⟩ else none
  | _ => none

def failAt (c : Pool ο τ σ ε) (i : ℕ) : Option (Pool ο τ σ ε) :=
  match c.threads[i]? with
  | some ⟨o, .step tag _ _ _ fail⟩ =>
      if S.mayFail tag then some ⟨c.shared, c.threads.set i ⟨o, fail⟩⟩ else none
  | _ => none

def step (c : Pool ο τ σ ε) : Choice ο → Option (Pool ο τ σ ε)
  | .start o => some ⟨c.shared, c.threads ++ [⟨o, S.prog o⟩]⟩
  | .advance i => advance c i
  | .fail i => S.failAt c i
  | .crash => S.restart.map fun k => ⟨k c.shared, []⟩

/-- The executions all of whose transitions satisfy `ok`; `fun _ _ => True`
gives all executions. -/
inductive Reaches (ok : σ → σ → Prop) (c : Pool ο τ σ ε) : Pool ο τ σ ε → Prop
  | refl : Reaches ok c c
  | step {d e : Pool ο τ σ ε} (ch : Choice ο) (hd : Reaches ok c d) (he : S.step d ch = some e)
      (hok : ok d.shared e.shared) : Reaches ok c e

variable {S}

theorem Reaches.trans {ok : σ → σ → Prop} {c d e : Pool ο τ σ ε} (hcd : S.Reaches ok c d)
    (hde : S.Reaches ok d e) : S.Reaches ok c e := by
  induction hde with
  | refl => exact hcd
  | step ch _ he hok ih => exact ih.step ch he hok

section Exec
variable (S) (ok : σ → σ → Prop) [DecidableRel ok]

/-- Running a schedule, for evaluation on concrete pools. -/
def exec (c : Pool ο τ σ ε) : List (Choice ο) → Option (Pool ο τ σ ε)
  | [] => some c
  | ch :: rest => (S.step c ch).bind fun d => if ok c.shared d.shared then exec d rest else none

theorem reaches_of_exec {c d : Pool ο τ σ ε} {schedule : List (Choice ο)}
    (h : S.exec ok c schedule = some d) : S.Reaches ok c d := by
  induction schedule generalizing c with
  | nil =>
    obtain rfl : c = d := by simpa [exec] using h
    exact .refl
  | cons ch rest ih =>
    obtain ⟨e, he, hrest⟩ := Option.bind_eq_some_iff.mp h
    split at hrest
    · rename_i hok
      exact (Reaches.refl.step ch he hok).trans (ih hrest)
    · cases hrest

theorem exists_of_exec (c : Pool ο τ σ ε) (schedule : List (Choice ο)) (p : Pool ο τ σ ε → Bool)
    (h : (S.exec ok c schedule).any p = true) : ∃ d, S.Reaches ok c d ∧ p d = true := by
  cases hd : S.exec ok c schedule with
  | none => simp [hd] at h
  | some d => exact ⟨d, reaches_of_exec S ok hd, by simpa [hd] using h⟩

/-- The same for a schedule with a state on the way. -/
theorem exists_of_exec_exec (c : Pool ο τ σ ε) (before after : List (Choice ο)) (p q : Pool ο τ σ ε → Bool)
    (h : (S.exec ok c before).any (fun d => p d && (S.exec ok d after).any q) = true) :
    ∃ d e, S.Reaches ok c d ∧ p d = true ∧ S.Reaches ok d e ∧ q e = true := by
  obtain ⟨d, hd, hpq⟩ := exists_of_exec S ok c before _ h
  rw [Bool.and_eq_true] at hpq
  obtain ⟨e, he, hq⟩ := exists_of_exec S ok d after q hpq.2
  exact ⟨d, e, hd, hpq.1, he, hq⟩

end Exec

end System

namespace Program
variable {τ σ ε ρ α β : Type}

/-- Every step the program can take from role `r`, in any good state of the
shared data, is a move of the protocol, and it ends in a role satisfying `post`. -/
def Follows (good : σ → Prop) (move : ρ → σ → ρ → σ → Prop) (mayFail : τ → Bool) :
    Program τ σ ε α → ρ → (Except ε α → ρ → Prop) → Prop
  | ret a, r, post => post (.ok a) r
  | raise e, r, post => post (.error e) r
  | step tag ready act next fail, r, post =>
      (∀ s, good s → ready s = true →
        ∃ r', move r s r' (act s) ∧ (next s).Follows good move mayFail r' post) ∧
      (mayFail tag = true → fail.Follows good move mayFail r post)

variable {good : σ → Prop} {move : ρ → σ → ρ → σ → Prop} {mayFail : τ → Bool}

theorem Follows.mono {p : Program τ σ ε α} {r : ρ} {post post' : Except ε α → ρ → Prop}
    (h : p.Follows good move mayFail r post) (hpost : ∀ x r, post x r → post' x r) :
    p.Follows good move mayFail r post' := by
  induction p generalizing r with
  | ret a => exact hpost _ _ h
  | raise e => exact hpost _ _ h
  | step tag ready act next fail ih ihf =>
    refine ⟨fun s hg hs => ?_, fun hf => ihf (h.2 hf)⟩
    obtain ⟨r', hm, hn⟩ := h.1 s hg hs
    exact ⟨r', hm, ih s hn⟩

theorem Follows.bind {p : Program τ σ ε α} {f : α → Program τ σ ε β} {r : ρ}
    {post : Except ε β → ρ → Prop}
    (h : p.Follows good move mayFail r fun x r' =>
      match x with
      | .ok a => (f a).Follows good move mayFail r' post
      | .error e => post (.error e) r') : (p.bind f).Follows good move mayFail r post := by
  induction p generalizing r with
  | ret a => exact h
  | raise e => exact h
  | step tag ready act next fail ih ihf =>
    refine ⟨fun s hg hs => ?_, fun hf => ihf (h.2 hf)⟩
    obtain ⟨r', hm, hn⟩ := h.1 s hg hs
    exact ⟨r', hm, ih s hn⟩

theorem Follows.tryCatch {p : Program τ σ ε α} {handler : ε → Program τ σ ε α} {r : ρ}
    {post : Except ε α → ρ → Prop}
    (h : p.Follows good move mayFail r fun x r' =>
      match x with
      | .ok a => post (.ok a) r'
      | .error e => (handler e).Follows good move mayFail r' post) :
    (p.tryCatch handler).Follows good move mayFail r post := by
  induction p generalizing r with
  | ret a => exact h
  | raise e => exact h
  | step tag ready act next fail ih ihf =>
    refine ⟨fun s hg hs => ?_, fun hf => ihf (h.2 hf)⟩
    obtain ⟨r', hm, hn⟩ := h.1 s hg hs
    exact ⟨r', hm, ih s hn⟩

theorem Follows.atomic {tag : τ} {ready : σ → Bool} {act : σ → σ} {view : σ → α} {e : ε} {r : ρ}
    {post : Except ε α → ρ → Prop}
    (hstep : ∀ s, good s → ready s = true → ∃ r', move r s r' (act s) ∧ post (.ok (view s)) r')
    (hfail : mayFail tag = true → post (.error e) r) :
    (atomic tag ready act view e).Follows good move mayFail r post :=
  ⟨hstep, hfail⟩

/-- A thread whose program follows the protocol to its end satisfies the final
condition once nothing is left to execute. -/
theorem Follows.finished {p : Program τ σ ε α} {r : ρ} {final : ρ → Prop}
    (h : p.Follows good move mayFail r fun _ r' => final r') (hp : p.Finished) : final r := by
  cases p with
  | ret a => exact h
  | raise e => exact h
  | step => exact hp.elim

end Program

/-- One transition of the roles: a thread starts, moves, or all are lost. -/
inductive RoleStep {ο σ ρ : Type} (move : ρ → σ → ρ → σ → Prop) (initial : ο → ρ)
    (restart : Option (σ → σ)) : List ρ → σ → List ρ → σ → Prop
  | start (rs : List ρ) (s : σ) (o : ο) : RoleStep move initial restart rs s (rs ++ [initial o]) s
  | move {rs : List ρ} {s s' : σ} {i : ℕ} {r r' : ρ} (hi : rs[i]? = some r) (hm : move r s r' s') :
      RoleStep move initial restart rs s (rs.set i r') s'
  | stutter (rs : List ρ) (s : σ) : RoleStep move initial restart rs s rs s
  | crash (rs : List ρ) (s : σ) {k : σ → σ} (hk : restart = some k) :
      RoleStep move initial restart rs s [] (k s)

section Simulation
variable {ο τ σ ε ρ : Type} (S : System ο τ σ ε) (good : σ → Prop)
  (move : ρ → σ → ρ → σ → Prop) (suits final : ο → ρ → Prop)

/-- The roles explain the threads: each program follows the protocol from its
role, and the role suits the operation the thread performs. -/
def Explains (threads : List (Thread ο τ σ ε)) (rs : List ρ) : Prop :=
  List.Forall₂ (fun t r => suits t.op r ∧
    t.prog.Follows good move S.mayFail r fun _ r' => final t.op r') threads rs

variable {S good move suits final}

theorem Explains.get {threads : List (Thread ο τ σ ε)} {rs : List ρ}
    (h : Explains S good move suits final threads rs) {i : ℕ} {t : Thread ο τ σ ε}
    (ht : threads[i]? = some t) :
    ∃ r, rs[i]? = some r ∧ suits t.op r ∧
      t.prog.Follows good move S.mayFail r fun _ r' => final t.op r' := by
  obtain ⟨hi, rfl⟩ := List.getElem?_eq_some_iff.mp ht
  have hr : i < rs.length := h.length_eq ▸ hi
  have hget := (List.forall₂_iff_get.mp h).2 i hi hr
  exact ⟨rs.get ⟨i, hr⟩, List.getElem?_eq_getElem hr, hget⟩

theorem Explains.getRole {threads : List (Thread ο τ σ ε)} {rs : List ρ}
    (h : Explains S good move suits final threads rs) {i : ℕ} {r : ρ} (hr : rs[i]? = some r) :
    ∃ t, threads[i]? = some t ∧ suits t.op r ∧
      t.prog.Follows good move S.mayFail r fun _ r' => final t.op r' := by
  obtain ⟨hi, rfl⟩ := List.getElem?_eq_some_iff.mp hr
  have ht : i < threads.length := h.length_eq ▸ hi
  have hget := (List.forall₂_iff_get.mp h).2 i ht hi
  exact ⟨threads.get ⟨i, ht⟩, List.getElem?_eq_getElem ht, hget⟩

theorem Explains.set {threads : List (Thread ο τ σ ε)} {rs : List ρ}
    (h : Explains S good move suits final threads rs) (i : ℕ) {t : Thread ο τ σ ε} {r : ρ}
    (hs : suits t.op r) (htr : t.prog.Follows good move S.mayFail r fun _ r' => final t.op r') :
    Explains S good move suits final (threads.set i t) (rs.set i r) := by
  induction h generalizing i with
  | nil => exact .nil
  | cons h0 hrest ih =>
    cases i with
    | zero => exact .cons ⟨hs, htr⟩ hrest
    | succ i => exact .cons h0 (ih i)

/-- Every transition of the pool is a transition of the roles. -/
theorem Explains.step {initial : ο → ρ}
    (hprog : ∀ o, (S.prog o).Follows good move S.mayFail (initial o) fun _ r' => final o r')
    (hinit : ∀ o, suits o (initial o))
    (hmove : ∀ o r s r' s', suits o r → move r s r' s' → suits o r')
    {c d : Pool ο τ σ ε} {rs : List ρ} (h : Explains S good move suits final c.threads rs)
    (hg : good c.shared) {ch : Choice ο} (hd : S.step c ch = some d) :
    ∃ rs', RoleStep move initial S.restart rs c.shared rs' d.shared ∧
      Explains S good move suits final d.threads rs' := by
  cases ch with
  | start o =>
    obtain rfl : _ = d := Option.some.inj hd
    exact ⟨rs ++ [initial o], .start _ _ _, List.rel_append h (.cons ⟨hinit o, hprog o⟩ .nil)⟩
  | advance i =>
    simp only [System.step, System.advance] at hd
    split at hd
    · rename_i o tag ready act next fail hi
      split at hd
      · rename_i hready
        obtain rfl : _ = d := Option.some.inj hd
        obtain ⟨r, hr, hs, hf⟩ := h.get hi
        obtain ⟨r', hm, hn⟩ := hf.1 c.shared hg hready
        exact ⟨rs.set i r', .move hr hm, h.set i (hmove _ _ _ _ _ hs hm) hn⟩
      · cases hd
    · cases hd
  | fail i =>
    simp only [System.step, System.failAt] at hd
    split at hd
    · rename_i o tag ready act next fail hi
      split at hd
      · rename_i hmay
        obtain rfl : _ = d := Option.some.inj hd
        obtain ⟨r, hr, hs, hf⟩ := h.get hi
        have hset : rs.set i r = rs := by
          obtain ⟨hlt, rfl⟩ := List.getElem?_eq_some_iff.mp hr
          exact List.set_getElem_self hlt
        exact ⟨rs, .stutter _ _, hset ▸ h.set i hs (hf.2 hmay)⟩
      · cases hd
    · cases hd
  | crash =>
    obtain ⟨k, hk, rfl⟩ := Option.map_eq_some_iff.mp hd
    exact ⟨[], .crash _ _ hk, .nil⟩

/-- What the role transitions preserve holds in every reachable pool. -/
theorem System.Reaches.invariant {initial : ο → ρ} {ok : σ → σ → Prop}
    (hprog : ∀ o, (S.prog o).Follows good move S.mayFail (initial o) fun _ r' => final o r')
    (hinit : ∀ o, suits o (initial o))
    (hmove : ∀ o r s r' s', suits o r → move r s r' s' → suits o r')
    {Inv : List ρ → σ → Prop} (hgood : ∀ rs s, Inv rs s → good s)
    (hinv : ∀ rs s rs' s', Inv rs s → ok s s' → RoleStep move initial S.restart rs s rs' s' → Inv rs' s')
    {c d : Pool ο τ σ ε} (hcd : S.Reaches ok c d) {rs : List ρ}
    (hc : Explains S good move suits final c.threads rs) (h : Inv rs c.shared) :
    ∃ rs', Explains S good move suits final d.threads rs' ∧ Inv rs' d.shared := by
  induction hcd with
  | refl => exact ⟨rs, hc, h⟩
  | step ch _ he hok ih =>
    obtain ⟨rs', hd, hi⟩ := ih
    obtain ⟨rs'', hstep, hexp⟩ := hd.step hprog hinit hmove (hgood _ _ hi) he
    exact ⟨rs'', hexp, hinv _ _ _ _ hi hok hstep⟩

end Simulation

end Foundation
