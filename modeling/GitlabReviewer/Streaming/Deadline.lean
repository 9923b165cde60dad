import GitlabReviewer.Streaming.Reader
import Mathlib.Data.Nat.Find
import Mathlib.Tactic.NormNum

/-! # Whether the deadline can be bypassed

The unbounded wait is safe where the child has exited or has been killed. The
marker in the queue stands for the end of the output, which is the end of the
child only if nothing else ends the output first.
-/
namespace GitlabReviewer.Streaming
open Python

/-- The output ends here although nothing has exited. -/
def endsOutput : Action → Prop
  | .write .undecodable => True
  | .closeStdout => True
  | _ => False

def exits : Action → Prop
  | .exit _ _ => True
  | _ => False

/-- The child neither closes stdout nor writes what does not decode before it
exits. -/
def EndsByExiting (child : Behaviour) : Prop := ∀ n, endsOutput (child n) → ∃ m < n, exits (child m)

/-- The caller is in its unbounded `proc.wait()`. -/
def AtWait {ρ : Type} (s : State ρ) : Prop := ∃ timedOut, s.phase = .waiting timedOut

/-- A wait that ends: the child has exited or `proc.kill()` has been called. -/
def Bounded {ρ : Type} (s : State ρ) : Prop := s.exited.isSome = true ∨ s.killed = true

/-- Nothing tells the reader that the output has ended. -/
structure Flowing {ρ : Type} (child : Behaviour) (s : State ρ) : Prop where
  running : ∀ m < s.done, ¬ exits (child m)
  stdout : s.stdout = true
  pipe : .undecodable ∉ s.pipe
  reading : s.reading = true
  lines : none ∉ s.lines
  phase : s.phase ≠ .joining false ∧ s.phase ≠ .waiting false

/-- While the child runs and has not been killed, its output has not ended; and
the phases after the deadline come after the kill. -/
structure Guarded {ρ : Type} (child : Behaviour) (s : State ρ) : Prop where
  streaming : s.exited = none → s.killed = false → Flowing child s
  killed : s.phase = .draining ∨ s.phase = .joining true ∨ s.phase = .waiting true → s.killed = true

section Runs
variable {ρ : Type} {R : Runner ρ} {timeout : ℚ} {child : Behaviour} {s s' : State ρ}

theorem guarded_start : Guarded child (Runner.start : State ρ) := by
  constructor
  · intro _ _
    constructor <;> simp [Runner.start]
  · simp [Runner.start]

/-- An action of the child that neither exits nor ends the output. -/
theorem flowing_perform (h : Flowing child s) (hc : EndsByExiting child)
    (hrun : (perform { s with done := s.done + 1 } (child s.done)).exited = none) :
    Flowing child (perform { s with done := s.done + 1 } (child s.done)) := by
  have hquiet : ¬ endsOutput (child s.done) := by
    intro hend
    obtain ⟨m, hm, hexit⟩ := hc s.done hend
    exact h.running m hm hexit
  have hexit : ¬ exits (child s.done) := by
    intro hexit
    cases hact : child s.done with
    | exit code held =>
      rw [hact] at hrun
      simp [perform] at hrun
    | _ =>
      rw [hact] at hexit
      exact hexit
  constructor
  · intro m hm
    rcases Nat.lt_succ_iff_lt_or_eq.mp hm with hlt | rfl
    · exact h.running m hlt
    · exact hexit
  · cases hact : child s.done with
    | closeStdout =>
      rw [hact] at hquiet
      exact absurd trivial hquiet
    | exit code held =>
      rw [hact] at hexit
      exact absurd trivial hexit
    | _ => exact h.stdout
  · cases hact : child s.done with
    | write output =>
      rw [hact] at hquiet
      have hout : .undecodable ≠ output := by
        rintro rfl
        exact hquiet trivial
      simpa [perform, h.stdout, hout] using h.pipe
    | _ => exact h.pipe
  · exact h.reading
  · exact h.lines
  · exact h.phase

theorem perform_exited {action : Action} (h : (perform s action).exited = none) : s.exited = none := by
  cases action with
  | exit code held =>
    simp [perform] at h
  | _ => exact h

/-- A step of the reader or the caller that leaves the child alone. -/
theorem Guarded.caller (h : Guarded child s) (he : s'.exited = s.exited) (hk : s'.killed = s.killed)
    (hflow : Flowing child s → Flowing child s')
    (hph : s'.phase = .draining ∨ s'.phase = .joining true ∨ s'.phase = .waiting true → s.killed = true) :
    Guarded child s' := by
  constructor
  · intro hexited hkilled
    rw [he] at hexited
    rw [hk] at hkilled
    exact hflow (h.streaming hexited hkilled)
  · rw [hk]
    exact hph

theorem Guarded.step (hc : EndsByExiting child) (h : Guarded child s) (hs : R.Step timeout child s s') :
    Guarded child s' := by
  cases hs with
  | tick t ht => exact h.caller rfl rfl (fun f => ⟨f.1, f.2, f.3, f.4, f.5, f.6⟩) h.killed
  | act =>
    constructor
    · intro he hk
      exact flowing_perform (h.streaming (perform_exited he) hk) hc he
    · exact h.killed
  | die held hk he =>
    constructor
    · intro he' _
      cases he'
    · intro _
      exact hk
  | read hr hp =>
    refine h.caller rfl rfl (fun f => ?_) h.killed
    have hpipe := f.pipe
    rw [hp] at hpipe
    constructor
    · exact f.running
    · exact f.stdout
    · exact fun hm => hpipe (List.mem_cons_of_mem _ hm)
    · exact f.reading
    · simpa using f.lines
    · exact f.phase
  | fail hr hp => exact h.caller rfl rfl (fun f => absurd hp f.pipe) h.killed
  | eof hr hp hs => exact h.caller rfl rfl (fun f => absurd (hs.symm.trans f.stdout) (by decide)) h.killed
  | timeUp hph ht => exact h.caller rfl rfl (fun f => ⟨f.1, f.2, f.3, f.4, f.5, by simp⟩) (by simp)
  | poll hph ht => exact h.caller rfl rfl (fun f => ⟨f.1, f.2, f.3, f.4, f.5, by simp⟩) (by simp)
  | empty hph hl ht => exact h.caller rfl rfl (fun f => ⟨f.1, f.2, f.3, f.4, f.5, by simp⟩) (by simp)
  | get hph hl =>
    refine h.caller rfl rfl (fun f => ?_) (by simp [Runner.emit])
    have hlines := f.lines
    rw [hl] at hlines
    exact ⟨f.1, f.2, f.3, f.4, fun hm => hlines (List.mem_cons_of_mem _ hm), by simp [Runner.emit]⟩
  | getEnd hph hl => exact h.caller rfl rfl (fun f => absurd (by simp [hl]) f.lines) (by simp)
  | kill hph =>
    constructor
    · intro _ hk
      cases hk
    · intro _
      rfl
  | drain hph hl =>
    have hkilled := h.killed (.inl hph)
    refine h.caller rfl rfl (fun f => ?_) fun _ => hkilled
    have hlines := f.lines
    rw [hl] at hlines
    exact ⟨f.1, f.2, f.3, f.4, fun hm => hlines (List.mem_cons_of_mem _ hm), f.phase⟩
  | drainEnd hph hl =>
    have hkilled := h.killed (.inl hph)
    exact h.caller rfl rfl (fun f => absurd (by simp [hl]) f.lines) fun _ => hkilled
  | drainEmpty hph hl =>
    have hkilled := h.killed (.inl hph)
    exact h.caller rfl rfl (fun f => ⟨f.1, f.2, f.3, f.4, f.5, by simp⟩) fun _ => hkilled
  | @join timedOut hph =>
    cases timedOut with
    | false => exact h.caller rfl rfl (fun f => absurd hph f.phase.1) (by simp)
    | true =>
      have hkilled := h.killed (.inr (.inl hph))
      exact h.caller rfl rfl (fun f => ⟨f.1, f.2, f.3, f.4, f.5, by simp⟩) fun _ => hkilled
  | reap hph he => exact h.caller rfl rfl (fun f => ⟨f.1, f.2, f.3, f.4, f.5, by simp⟩) (by simp)

theorem guarded_of_reaches (hc : EndsByExiting child) (h : R.Reaches timeout child Runner.start s) :
    Guarded child s := by
  induction h with
  | refl => exact guarded_start
  | tail _ hs ih => exact ih.step hc hs

/-- A guarded wait is a bounded one. -/
theorem Guarded.bounded (h : Guarded child s) (hw : AtWait s) : Bounded s := by
  obtain ⟨timedOut, hph⟩ := hw
  by_contra hnot
  simp only [Bounded, not_or, Bool.not_eq_true, Option.isSome_eq_false_iff, Option.isNone_iff_eq_none] at hnot
  cases timedOut with
  | false => exact (h.streaming hnot.1 hnot.2).phase.2 hph
  | true =>
    have hkilled := h.killed (.inr (.inr hph))
    rw [hnot.2] at hkilled
    cases hkilled

/-- Without any time the caller comes to nothing else before it kills. -/
structure Hurried (s : State ρ) : Prop where
  now : 0 ≤ s.now
  phase : s.killed = false → s.phase = .polling ∨ s.phase = .killing

theorem Hurried.step (ht : timeout ≤ 0) (h : Hurried s) (hs : R.Step timeout child s s') : Hurried s' := by
  have hother : s.phase ≠ .polling → s.phase ≠ .killing → s.killed = true := by
    intro hpoll hkill
    by_contra hnot
    rcases h.phase (by simpa using hnot) with hph | hph
    · exact hpoll hph
    · exact hkill hph
  cases hs with
  | tick t hle => exact ⟨h.now.trans hle, h.phase⟩
  | act => exact ⟨h.now, h.phase⟩
  | die held hk he => exact ⟨h.now, h.phase⟩
  | read hr hp => exact ⟨h.now, h.phase⟩
  | fail hr hp => exact ⟨h.now, h.phase⟩
  | eof hr hp hs => exact ⟨h.now, h.phase⟩
  | timeUp hph hle => exact ⟨h.now, fun _ => .inr rfl⟩
  | poll hph hlt => exact absurd (h.now.trans_lt hlt) (not_lt.mpr ht)
  | kill hph => exact ⟨h.now, fun hk => absurd hk (by simp)⟩
  | empty hph hl hle =>
    have hkilled := hother (by simp [hph]) (by simp [hph])
    exact ⟨h.now, fun _ => .inl rfl⟩
  | get hph hl => exact ⟨h.now, fun _ => .inl rfl⟩
  | getEnd hph hl =>
    have hkilled := hother (by simp [hph]) (by simp [hph])
    exact ⟨h.now, fun hk => absurd (hkilled.symm.trans hk) (by decide)⟩
  | drain hph hl =>
    have hkilled := hother (by simp [hph]) (by simp [hph])
    exact ⟨h.now, fun hk => absurd (hkilled.symm.trans hk) (by decide)⟩
  | drainEnd hph hl =>
    have hkilled := hother (by simp [hph]) (by simp [hph])
    exact ⟨h.now, fun hk => absurd (hkilled.symm.trans hk) (by decide)⟩
  | drainEmpty hph hl =>
    have hkilled := hother (by simp [hph]) (by simp [hph])
    exact ⟨h.now, fun hk => absurd (hkilled.symm.trans hk) (by decide)⟩
  | join hph =>
    have hkilled := hother (by simp [hph]) (by simp [hph])
    exact ⟨h.now, fun hk => absurd (hkilled.symm.trans hk) (by decide)⟩
  | reap hph he =>
    have hkilled := hother (by simp [hph]) (by simp [hph])
    exact ⟨h.now, fun hk => absurd (hkilled.symm.trans hk) (by decide)⟩

theorem hurried_of_reaches (ht : timeout ≤ 0) (h : R.Reaches timeout child Runner.start s) : Hurried s := by
  induction h with
  | refl => exact ⟨le_refl _, fun _ => .inl rfl⟩
  | tail _ hs ih => exact ih.step ht hs

/-- The caller has not moved, and the reader is up to date. -/
structure Idle (n : ℕ) (s : State ρ) : Prop where
  done : s.done = n
  now : s.now = 0
  exited : s.exited = none
  killed : s.killed = false
  stdout : s.stdout = true
  pipe : s.pipe = []
  reading : s.reading = true
  lines : ∃ items, s.lines = List.map some items
  phase : s.phase = .polling

/-- The reader has stopped, and the caller has all of its items ahead. -/
structure Ended (items : List Text) (s : State ρ) : Prop where
  now : s.now = 0
  exited : s.exited = none
  killed : s.killed = false
  lines : s.lines = items.map some ++ [none]
  phase : s.phase = .polling

variable (R timeout)

/-- A child that has only written lines so far. -/
theorem reaches_idle (n : ℕ) (h : ∀ m < n, ¬ endsOutput (child m) ∧ ¬ exits (child m)) :
    ∃ s, R.Reaches timeout child Runner.start s ∧ Idle n s := by
  induction n with
  | zero => exact ⟨_, .refl, rfl, rfl, rfl, rfl, rfl, rfl, rfl, ⟨[], rfl⟩, rfl⟩
  | succ n ih =>
    obtain ⟨s, hreach, hidle⟩ := ih fun m hm => h m (by omega)
    obtain ⟨hend, hexit⟩ := h n (by omega)
    have hact := hreach.tail (.act s)
    rw [hidle.done] at hact
    cases hchild : child n with
    | write output =>
      rw [hchild] at hend
      cases output with
      | undecodable => exact absurd trivial hend
      | line text =>
        obtain ⟨items, hitems⟩ := hidle.lines
        rw [hchild] at hact
        have hpipe : (perform { s with done := n + 1 } (.write (.line text))).pipe = [.line text] := by
          simp [perform, hidle.stdout, hidle.pipe]
        refine ⟨_, hact.tail (.read hidle.reading hpipe), rfl, hidle.now, hidle.exited, hidle.killed,
          hidle.stdout, rfl, hidle.reading, ⟨items ++ [text], ?_⟩, hidle.phase⟩
        simp [perform, hitems]
    | closeStdout =>
      rw [hchild] at hend
      exact absurd trivial hend
    | exit code held =>
      rw [hchild] at hexit
      exact absurd trivial hexit
    | idle =>
      rw [hchild] at hact
      exact ⟨_, hact, rfl, hidle.now, hidle.exited, hidle.killed, hidle.stdout, hidle.pipe, hidle.reading,
        hidle.lines, hidle.phase⟩

theorem reaches_ended {n : ℕ} (h : ∀ m < n, ¬ endsOutput (child m) ∧ ¬ exits (child m))
    (hn : endsOutput (child n)) :
    ∃ items s, R.Reaches timeout child Runner.start s ∧ Ended items s := by
  obtain ⟨s, hreach, hidle⟩ := reaches_idle R timeout n h
  obtain ⟨items, hitems⟩ := hidle.lines
  have hact := hreach.tail (.act s)
  rw [hidle.done] at hact
  cases hchild : child n with
  | write output =>
    rw [hchild] at hact hn
    cases output with
    | line text => cases hn
    | undecodable =>
      refine ⟨items, _, hact.tail (.fail hidle.reading ?_), hidle.now, hidle.exited, hidle.killed, ?_, hidle.phase⟩
      · simp [perform, hidle.stdout]
      · simp [perform, hitems]
  | closeStdout =>
    rw [hchild] at hact
    refine ⟨items, _, hact.tail (.eof hidle.reading hidle.pipe rfl), hidle.now, hidle.exited, hidle.killed, ?_,
      hidle.phase⟩
    simp [perform, hitems]
  | exit code held =>
    rw [hchild] at hn
    cases hn
  | idle =>
    rw [hchild] at hn
    cases hn

variable {R timeout}

/-- The caller takes the items and the marker, and goes to wait. -/
theorem reaches_wait (ht : 0 < timeout) {items : List Text} (h : Ended items s) :
    ∃ s', R.Reaches timeout child s s' ∧ AtWait s' ∧ s'.exited = none ∧ s'.killed = false := by
  induction items generalizing s with
  | nil =>
    have hlt : s.now < timeout := h.now ▸ ht
    have hpoll : R.Reaches timeout child s _ := .single (.poll h.phase hlt)
    have hget := hpoll.tail (.getEnd rfl h.lines)
    exact ⟨_, hget.tail (.join rfl), ⟨false, rfl⟩, h.exited, h.killed⟩
  | cons item rest ih =>
    have hlt : s.now < timeout := h.now ▸ ht
    have hpoll : R.Reaches timeout child s _ := .single (.poll h.phase hlt)
    have hget := hpoll.tail (.get rfl h.lines)
    have hended : Ended rest (R.emit item { s with lines := rest.map some ++ [none], phase := .polling }) :=
      ⟨h.now, h.exited, h.killed, rfl, rfl⟩
    obtain ⟨s', hrest, hwait⟩ := ih hended
    exact ⟨s', hget.trans hrest, hwait⟩

/-- An output that ends before the child does lets the caller wait without bound. -/
theorem unbounded_wait (ht : 0 < timeout) (h : ¬ EndsByExiting child) :
    ∃ s, R.Reaches timeout child Runner.start s ∧ AtWait s ∧ s.exited = none ∧ s.killed = false := by
  classical
  have hsome : ∃ n, endsOutput (child n) ∧ ∀ m < n, ¬ exits (child m) := by
    simpa [EndsByExiting] using h
  have hfirst := Nat.find_spec hsome
  have hquiet : ∀ m < Nat.find hsome, ¬ endsOutput (child m) ∧ ¬ exits (child m) := by
    intro m hm
    refine ⟨fun hend => ?_, hfirst.2 m hm⟩
    exact Nat.find_min hsome hm ⟨hend, fun k hk => hfirst.2 k (hk.trans hm)⟩
  obtain ⟨items, s, hreach, hended⟩ := reaches_ended R timeout hquiet hfirst.1
  obtain ⟨s', hwait, hw⟩ := reaches_wait ht hended
  exact ⟨s', hreach.trans hwait, hw⟩

/-- Every wait is bounded exactly when the child ends its output by exiting, or
there is no time at all. -/
theorem bounded_iff : (∀ s, R.Reaches timeout child Runner.start s → AtWait s → Bounded s) ↔
    timeout ≤ 0 ∨ EndsByExiting child := by
  constructor
  · intro hall
    by_contra hnot
    push Not at hnot
    obtain ⟨s, hreach, hw, he, hk⟩ := unbounded_wait hnot.1 hnot.2
    rcases hall s hreach hw with hbounded | hbounded
    · rw [he] at hbounded
      cases hbounded
    · rw [hk] at hbounded
      cases hbounded
  · rintro (ht | hc) s hreach hw
    · obtain ⟨timedOut, hph⟩ := hw
      right
      by_contra hnot
      rcases (hurried_of_reaches ht hreach).phase (by simpa using hnot) with h | h
      · rw [hph] at h
        cases h
      · rw [hph] at h
        cases h
    · exact (guarded_of_reaches hc hreach).bounded hw

end Runs

theorem timeout_enforced_iff (timeout : ℚ) (child : Behaviour) :
    ((∀ s, runStreaming.Reaches timeout child Runner.start s → AtWait s → Bounded s) ↔
      timeout ≤ 0 ∨ EndsByExiting child) ∧
    ((∀ s, runOpencodeOnce.Reaches timeout child Runner.start s → AtWait s → Bounded s) ↔
      timeout ≤ 0 ∨ EndsByExiting child) :=
  ⟨bounded_iff, bounded_iff⟩

/-- A child that closes its stdout and goes on running. -/
def silent : Behaviour
  | 0 => .closeStdout
  | _ + 1 => .idle

theorem timeout_bypassed :
    (∃ s, runStreaming.Reaches 3600 silent Runner.start s ∧ AtWait s ∧ s.exited = none ∧ s.killed = false) ∧
    ∃ s, runOpencodeOnce.Reaches 3600 silent Runner.start s ∧ AtWait s ∧ s.exited = none ∧ s.killed = false := by
  have hends : ¬ EndsByExiting silent := by
    intro h
    obtain ⟨m, hm, -⟩ := h 0 trivial
    exact absurd hm (Nat.not_lt_zero m)
  exact ⟨unbounded_wait (by norm_num) hends, unbounded_wait (by norm_num) hends⟩

end GitlabReviewer.Streaming
