import GitlabReviewer.Entrypoint.Output

/-! # No line is lost or repeated

A run is followed with the lines the child has written and the lines the caller
has taken out of the queue. What was written has been taken or is underway, in
its order, and nothing is underway once the caller has seen the end marker.
-/
namespace GitlabReviewer.Streaming
open Python Entrypoint

/-- The lines written to stdout, the lines processed, and `timed_out` once the call has returned. -/
structure History where
  written : List Text
  processed : List Text
  timedOut : Option Bool

section Observed
variable {ρ : Type}

/-- The history after the step. -/
def History.after (child : Behaviour) (h : History) (s s' : State ρ) : History where
  written := h.written ++ wrote child s s'
  processed := h.processed ++ taken s s'
  timedOut := match s.phase, s'.phase with
    | .waiting timedOut, .returned _ => some timedOut
    | _, _ => h.timedOut

variable (R : Runner ρ) (timeout : ℚ) (child : Behaviour)

/-- Runs with their histories. -/
inductive Observed : History → State ρ → Prop
  | start : Observed ⟨[], [], none⟩ Runner.start
  | step {h : History} {s s' : State ρ} (ho : Observed h s) (hs : R.Step timeout child s s') : Observed (h.after child s s') s'

variable {R timeout child} {h : History} {s s' : State ρ}

/-- Every run has a history. -/
theorem observed_iff_reaches : (∃ h, Observed R timeout child h s) ↔ R.Reaches timeout child Runner.start s := by
  constructor
  · rintro ⟨h, ho⟩
    induction ho with
    | start => exact .refl
    | step _ hs ih => exact ih.tail hs
  · intro hr
    induction hr with
    | refl => exact ⟨_, .start⟩
    | tail _ hs ih =>
      obtain ⟨h, ho⟩ := ih
      exact ⟨_, ho.step hs⟩

/-- The queue: lines, and the marker behind them once the reader has stopped and
until the caller has taken it. -/
structure Channel (s : State ρ) : Prop where
  shape : (∃ items : List Text, s.lines = items.map some ++ if s.reading then [] else [none]) ∨ s.reading = false ∧ s.lines = []
  stopped : s.reading = false → s.stdout = false ∧ s.pipe = []

/-- The caller has taken the marker. -/
def Drained (s : State ρ) : Prop := s.reading = false ∧ s.lines = []

theorem Channel.head_some (h : Channel s) {item : Text} {rest : List (Option Text)} (hl : s.lines = some item :: rest) :
    ∃ items : List Text, rest = items.map some ++ if s.reading then [] else [none] := by
  rcases h.shape with ⟨items, hitems⟩ | ⟨-, hnil⟩
  · cases items with
    | nil =>
      rw [hl, List.map_nil, List.nil_append] at hitems
      split at hitems <;> cases hitems
    | cons first items =>
      rw [hl, List.map_cons, List.cons_append] at hitems
      exact ⟨items, (List.cons.inj hitems).2⟩
  · rw [hl] at hnil
    cases hnil

theorem Channel.head_none (h : Channel s) {rest : List (Option Text)} (hl : s.lines = none :: rest) :
    s.reading = false ∧ rest = [] := by
  rcases h.shape with ⟨items, hitems⟩ | ⟨-, hnil⟩
  · cases items with
    | nil =>
      rw [hl, List.map_nil, List.nil_append] at hitems
      cases hreading : s.reading with
      | true =>
        rw [hreading] at hitems
        cases hitems
      | false =>
        rw [hreading] at hitems
        exact ⟨rfl, (List.cons.inj hitems).2⟩
    | cons first items =>
      rw [hl, List.map_cons, List.cons_append] at hitems
      cases (List.cons.inj hitems).1
  · rw [hl] at hnil
    cases hnil

theorem Channel.step (h : Channel s) (hpipe : .undecodable ∉ s.pipe) (hs : R.Step timeout child s s') : Channel s' := by
  cases hs with
  | act =>
    refine ⟨h.shape, fun hreading => ?_⟩
    obtain ⟨hstdout, hempty⟩ := h.stopped hreading
    cases child s.done <;> simp [perform, hstdout, hempty]
  | die held hk he => exact ⟨h.shape, fun hreading => by simp [h.stopped hreading]⟩
  | @read text rest hr hp =>
    rcases h.shape with ⟨items, hitems⟩ | ⟨hreading, -⟩
    · exact ⟨.inl ⟨items ++ [text], by simp [hitems, hr]⟩, by simp [hr]⟩
    · simp [hr] at hreading
  | fail hr hp => exact absurd hp hpipe
  | eof hr hp hs =>
    rcases h.shape with ⟨items, hitems⟩ | ⟨hreading, -⟩
    · exact ⟨.inl ⟨items, by simp [hitems, hr]⟩, fun _ => ⟨hs, hp⟩⟩
    · simp [hr] at hreading
  | get hph hl | drain hph hl => exact ⟨.inl (h.head_some hl), h.stopped⟩
  | getEnd hph hl | drainEnd hph hl => exact ⟨.inr (h.head_none hl), h.stopped⟩
  | _ => exact ⟨h.shape, h.stopped⟩

theorem drained_step (h : Drained s) (hs : R.Step timeout child s s') : Drained s' := by
  obtain ⟨hreading, hlines⟩ := h
  cases hs with
  | read hr hp | fail hr hp | eof hr hp _ =>
    rw [hreading] at hr
    cases hr
  | get hph hl | getEnd hph hl | drain hph hl | drainEnd hph hl =>
    rw [hlines] at hl
    cases hl
  | _ => exact ⟨hreading, hlines⟩

/-- What holds of every run and its history. -/
structure Ledger (R : Runner ρ) (h : History) (s : State ρ) : Prop where
  decodable : .undecodable ∉ s.pipe
  conserved : h.written = h.processed ++ underway s
  kept : s.kept = h.processed.filterMap R.keep
  channel : Channel s
  drained : s.phase = .joining false ∨ s.phase = .waiting false ∨ h.timedOut = some false → Drained s
  returned : ∀ answer, s.phase = .returned answer → ∃ timedOut code, h.timedOut = some timedOut ∧ answer = R.answer timedOut code s.kept

theorem after_timedOut (hphase : s'.phase = s.phase) : (h.after child s s').timedOut = h.timedOut := by
  unfold History.after
  rw [hphase]
  cases s.phase <;> rfl

/-- The caller leaves its loop without a timeout by taking the marker. -/
theorem ending_step (hs : R.Step timeout child s s')
    (hend : s'.phase = .joining false ∨ s'.phase = .waiting false ∨ (h.after child s s').timedOut = some false) :
    (s.phase = .joining false ∨ s.phase = .waiting false ∨ h.timedOut = some false) ∨
      ∃ rest, s.lines = none :: rest ∧ s'.reading = s.reading ∧ s'.lines = rest := by
  by_cases hphase : s'.phase = s.phase
  · rw [hphase, after_timedOut hphase] at hend
    exact .inl hend
  · cases hs with
    | getEnd hph hl => exact .inr ⟨_, hl, rfl, rfl⟩
    | timeUp hph | poll hph | empty hph | get hph | kill hph | drainEnd hph | drainEmpty hph | join hph | reap hph =>
      simp_all [History.after, Runner.emit]
    | tick | act | die | read | fail | eof | drain => exact absurd rfl hphase

theorem Ledger.step (l : Ledger R h s) (hchild : ∀ n, child n ≠ .write .undecodable) (hs : R.Step timeout child s s') :
    Ledger R (h.after child s s') s' where
  decodable := decodable_step hchild l.decodable hs
  conserved := by
    show h.written ++ wrote child s s' = h.processed ++ taken s s' ++ underway s'
    rw [l.conserved, List.append_assoc, List.append_assoc, taken_append_underway hchild l.decodable hs]
  kept := by
    show s'.kept = (h.processed ++ taken s s').filterMap R.keep
    rw [kept_step hs, l.kept, List.filterMap_append]
  channel := l.channel.step l.decodable hs
  drained hend := by
    rcases ending_step hs hend with hbefore | ⟨rest, hl, hreading, rfl⟩
    · exact drained_step (l.drained hbefore) hs
    · obtain ⟨hstopped, hnil⟩ := l.channel.head_none hl
      exact ⟨hreading.trans hstopped, hnil⟩
  returned answer hanswer := by
    rcases returned_step hs hanswer with ⟨hbefore, hkept⟩ | ⟨timedOut, code, hwaiting, hkept, rfl⟩
    · rw [after_timedOut (hanswer.trans hbefore.symm), hkept]
      exact l.returned answer hbefore
    · refine ⟨timedOut, code, ?_, by rw [hkept]⟩
      unfold History.after
      rw [hwaiting, hanswer]

theorem ledger (hchild : ∀ n, child n ≠ .write .undecodable) (ho : Observed R timeout child h s) : Ledger R h s := by
  induction ho with
  | start => exact ⟨by simp [Runner.start], rfl, rfl, ⟨.inl ⟨[], rfl⟩, by simp [Runner.start]⟩, by simp [Runner.start], by simp [Runner.start]⟩
  | step _ hs ih => exact ih.step hchild hs

theorem Ledger.processed_prefix (l : Ledger R h s) : h.processed <+: h.written := ⟨underway s, l.conserved.symm⟩

/-- Behind the marker nothing is underway. -/
theorem Ledger.complete (l : Ledger R h s) (hend : h.timedOut = some false) : h.processed = h.written := by
  obtain ⟨hreading, hlines⟩ := l.drained (.inr (.inr hend))
  obtain ⟨-, hempty⟩ := l.channel.stopped hreading
  have hnone : underway s = [] := by
    unfold underway
    rw [hlines, hempty]
    rfl
  rw [l.conserved, hnone, List.append_nil]

end Observed

/-- What has been processed stands at the front of what was written, and is all of
it once the call has returned without a timeout. `_run_streaming` emits each line,
`_run_opencode_once` keeps what its filter lets through. -/
theorem streaming_lossless {timeout : ℚ} {child : Behaviour} (hchild : ∀ n, child n ≠ .write .undecodable) :
    (∀ h s, Observed runStreaming timeout child h s →
      h.processed <+: h.written ∧ s.kept = h.processed.map rstripLineEnd ∧
        ∀ code, s.phase = .returned (false, code) → h.processed = h.written) ∧
    ∀ h s, Observed runOpencodeOnce timeout child h s →
      h.processed <+: h.written ∧ s.kept = h.processed.filterMap runOpencodeOnce.keep ∧
        (h.timedOut = some false → h.processed = h.written) := by
  constructor
  · intro h s ho
    have l := ledger hchild ho
    refine ⟨l.processed_prefix, ?_, fun code hreturned => ?_⟩
    · rw [l.kept, ← List.filterMap_eq_map]
      rfl
    · obtain ⟨timedOut, code', hend, hanswer⟩ := l.returned _ hreturned
      obtain rfl : false = timedOut := (Prod.mk.inj hanswer).1
      exact l.complete hend
  · intro h s ho
    have l := ledger hchild ho
    exact ⟨l.processed_prefix, l.kept, l.complete⟩

section Example

/-- A line, and one that is made up of an escape sequence. -/
def twoLines : List Text := ["one\n".toList, escape :: "[0m\n".toList]

def kept {ρ : Type} (R : Runner ρ) : List Text := [] ++ (R.keep "one\n".toList).toList

def keptBoth {ρ : Type} (R : Runner ρ) : List Text := kept R ++ (R.keep (escape :: "[0m\n".toList)).toList

/-- Both lines are written and read, the child exits, and the caller takes them until the marker. -/
theorem observed_two {ρ : Type} (R : Runner ρ) : Observed R 60 (printing twoLines) ⟨twoLines, twoLines, some false⟩
    ⟨0, 3, some 0, false, false, [], false, [], .returned (R.answer false 0 (keptBoth R)), keptBoth R⟩ := by
  have ht : (0 : ℚ) < 60 := by norm_num
  have hone : Observed R 60 (printing twoLines) ⟨["one\n".toList], [], none⟩
      ⟨0, 1, none, false, true, [.line "one\n".toList], true, [], .polling, []⟩ := Observed.start.step (.act _)
  have hwritten : Observed R 60 (printing twoLines) ⟨twoLines, [], none⟩
      ⟨0, 2, none, false, true, [.line (escape :: "[0m\n".toList)], true, [some "one\n".toList], .polling, []⟩ :=
    (hone.step (.read rfl rfl)).step (.act _)
  have hread : Observed R 60 (printing twoLines) ⟨twoLines, [], none⟩
      ⟨0, 3, some 0, false, false, [], false, [some "one\n".toList, some (escape :: "[0m\n".toList), none], .polling, []⟩ :=
    ((hwritten.step (.read rfl rfl)).step (.act _)).step (.eof rfl rfl rfl)
  have htaken : Observed R 60 (printing twoLines) ⟨twoLines, twoLines, none⟩
      ⟨0, 3, some 0, false, false, [], false, [none], .polling, keptBoth R⟩ :=
    (((hread.step (.poll rfl ht)).step (.get rfl rfl)).step (.poll rfl ht)).step (.get rfl rfl)
  exact (((htaken.step (.poll rfl ht)).step (.getEnd rfl rfl)).step (.join rfl)).step (.reap rfl rfl)

/-- `_run_streaming` emits both lines, `_run_opencode_once` keeps the first. -/
theorem streaming_lossless_two :
    (∃ h s, Observed runStreaming 60 (printing twoLines) h s ∧ s.phase = .returned (false, 0) ∧ h.written = twoLines ∧
      h.processed = h.written ∧ s.kept = twoLines.map rstripLineEnd) ∧
      ∃ h s, Observed runOpencodeOnce 60 (printing twoLines) h s ∧ h.timedOut = some false ∧ h.written = twoLines ∧
        h.processed = h.written ∧ s.kept = ["one".toList] := by
  obtain ⟨-, hkept, hall⟩ := (streaming_lossless (printing_decodable twoLines)).1 _ _ (observed_two runStreaming)
  obtain ⟨-, hkept', hall'⟩ := (streaming_lossless (printing_decodable twoLines)).2 _ _ (observed_two runOpencodeOnce)
  exact ⟨⟨_, _, observed_two runStreaming, rfl, rfl, hall 0 rfl, hkept⟩,
    _, _, observed_two runOpencodeOnce, rfl, rfl, hall' rfl, hkept'.trans (by decide)⟩

end Example

end GitlabReviewer.Streaming
