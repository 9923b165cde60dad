import GitlabReviewer.Entrypoint.Ansi
import Mathlib.Tactic.NormNum

/-! # The output that is kept

The streaming loop and the drain keep a line unless nothing is left of it
without its escape sequences. That is so for a line made up of them, and for a
line that was empty to begin with. A run is followed with the lines that have
been printed: each has been taken, or is in the queue, or is in the pipe.
-/
namespace GitlabReviewer.Entrypoint
open Python Foundation Streaming

/-- Texts under the pattern of the entrypoint. -/
abbrev ansiText : Regex Char := ansiRe Char.toNat

/-- One or more escape sequences and nothing else. -/
def PureEscapes (line : Text) : Prop :=
  ∃ parts : List Text, parts ≠ [] ∧ (∀ s ∈ parts, Regex.Matches ansiText s) ∧ line = parts.flatten

/-- A pattern that matches in one way at most leaves what stands behind the match. -/
theorem rests_append {r : Regex Char} (hone : ∀ text, (Regex.rests r text).length ≤ 1) {w : Text} (hw : Regex.Matches r w)
    (rest : Text) : Regex.rests r (w ++ rest) = [rest] := by
  have hmem : rest ∈ Regex.rests r (w ++ rest) := Regex.mem_rests.mpr ⟨w, hw, rfl⟩
  have hlength := hone (w ++ rest)
  cases hrests : Regex.rests r (w ++ rest) with
  | nil =>
    rw [hrests] at hmem
    cases hmem
  | cons a l =>
    rw [hrests] at hmem hlength
    have hnil : l = [] := List.length_eq_zero_iff.mp (by simpa using hlength)
    rw [hnil] at hmem ⊢
    rw [List.mem_singleton.mp hmem]

theorem length_oneRest (p : Char → Bool) (text : Text) : (Regex.oneRest p text).length ≤ 1 := by
  unfold Regex.oneRest
  split
  · simp
  · split <;> simp

theorem length_rests_control (text : Text) : (Regex.rests (controlRe Char.toNat) text).length ≤ 1 := by
  cases text with
  | nil => simp [controlRe]
  | cons c rest =>
    rw [rests_control]
    split
    · exact length_oneRest _ _
    · simp

theorem length_rests_command (text : Text) : (Regex.rests (commandRe Char.toNat) text).length ≤ 1 := by
  cases text with
  | nil => simp [commandRe]
  | cons c rest =>
    rw [rests_command]
    split
    · cases (rest.dropWhile fun c => !among Char.toNat 0x07 0x07 c && !among Char.toNat 0x1b 0x1b c) with
      | nil => simp [Regex.rests, Regex.oneRest]
      | cons d more =>
        rw [Regex.rests, rests_one_seq, Regex.rests, Regex.rests, Regex.oneRest]
        by_cases hbell : among Char.toNat 0x07 0x07 d = true
        · have hescape : ¬ among Char.toNat 0x1b 0x1b d = true := by
            rw [among_self] at hbell ⊢
            omega
          rw [if_pos hbell, if_neg hescape]
          simp
        · rw [if_neg hbell, List.nil_append]
          split
          · exact length_oneRest _ _
          · simp
    · simp

/-- A sequence is the escape and one of the three kinds of rest. -/
theorem matches_ansi {s : Text} (h : Regex.Matches ansiText s) : ∃ w, s = escape :: w ∧
    (Regex.Matches (controlRe Char.toNat) w ∨ Regex.Matches (commandRe Char.toNat) w ∨ Regex.Matches (shortRe Char.toNat) w) := by
  obtain ⟨c, w, rfl, hc, hw⟩ := h.of_one_seq
  obtain rfl := (among_char escape rfl).mp hc
  refine ⟨w, rfl, ?_⟩
  cases hw with
  | left hw => exact .inl hw
  | right hw =>
    cases hw with
    | left hw => exact .inr (.inl hw)
    | right hw => exact .inr (.inr hw)

theorem rests_command_escape {d : Char} (hd : among Char.toNat 0x5d 0x5d d = true) (rest : Text) :
    Regex.rests (commandRe Char.toNat) (d :: escape :: rest) = Regex.oneRest (among Char.toNat 0x5c 0x5c) rest := by
  have hbell : ¬ among Char.toNat 0x07 0x07 escape = true := by decide
  have hescape : among Char.toNat 0x1b 0x1b escape = true := by decide
  rw [rests_command, if_pos hd, List.dropWhile_cons_of_neg (by decide), Regex.rests, rests_one_seq, if_pos hescape,
    Regex.rests, Regex.rests, Regex.oneRest, if_neg hbell]
  rfl

theorem matches_rest_ne_nil {w : Text} (h : Regex.Matches (controlRe Char.toNat) w ∨ Regex.Matches (commandRe Char.toNat) w ∨
    Regex.Matches (shortRe Char.toNat) w) : w ≠ [] := by
  rintro rfl
  rcases h with h | h | h
  · obtain ⟨c, v, heq, -⟩ := h.of_one_seq
    cases heq
  · obtain ⟨c, v, heq, -⟩ := h.of_one_seq
    cases heq
  · cases h

theorem matches_backslash {v : Text} (h : Regex.Matches (controlRe Char.toNat) ('\\' :: v) ∨
    Regex.Matches (commandRe Char.toNat) ('\\' :: v) ∨ Regex.Matches (shortRe Char.toNat) ('\\' :: v)) : v = [] := by
  rcases h with h | h | h
  · obtain ⟨c, v, heq, hc, -⟩ := h.of_one_seq
    rw [← (List.cons.inj heq).1] at hc
    exact absurd hc (by decide)
  · obtain ⟨c, v, heq, hc, -⟩ := h.of_one_seq
    rw [← (List.cons.inj heq).1] at hc
    exact absurd hc (by decide)
  · cases h
    rfl

/-- The first match leaves the other sequences behind, or has taken one more:
the bracket of a command without its end takes in a string terminator. -/
theorem find_parts {s : Text} {parts : List Text} (hs : Regex.Matches ansiText s) (hparts : ∀ p ∈ parts, Regex.Matches ansiText p)
    {n : ℕ} (h : Regex.find ansiText (s ++ parts.flatten) = some n) :
    ∃ more : List Text, (∀ p ∈ more, Regex.Matches ansiText p) ∧ (s ++ parts.flatten).drop n = more.flatten := by
  have hescape : among Char.toNat 0x1b 0x1b escape = true := by decide
  have hdrop : ∀ rest, (Regex.rests ansiText (s ++ parts.flatten)).head? = some rest →
      (s ++ parts.flatten).drop n = rest := by
    intro rest hrest
    obtain ⟨rest', hrest', rfl⟩ := Option.map_eq_some_iff.mp h
    rw [hrest] at hrest'
    cases hrest'
    obtain ⟨u, -, heq⟩ := Regex.mem_rests.mp (List.mem_of_mem_head? hrest)
    rw [heq, List.length_append, Nat.add_sub_cancel, List.drop_left]
  obtain ⟨w, rfl, hw⟩ := matches_ansi hs
  rw [List.cons_append, rests_ansi, if_pos hescape] at hdrop
  have hcontrol : ∀ c v, ¬ among Char.toNat 0x5b 0x5b c = true → Regex.rests (controlRe Char.toNat) (c :: v) = [] := by
    intro c v hc
    rw [rests_control, if_neg hc]
  have hcommand : ∀ c v, ¬ among Char.toNat 0x5d 0x5d c = true → Regex.rests (commandRe Char.toNat) (c :: v) = [] := by
    intro c v hc
    rw [rests_command, if_neg hc]
  rcases hw with hw | hw | hw
  · have hrest := rests_append length_rests_control hw parts.flatten
    exact ⟨parts, hparts, hdrop _ (by rw [hrest]; rfl)⟩
  · have hrest := rests_append length_rests_command hw parts.flatten
    obtain ⟨c, v, rfl, hc, -⟩ := hw.of_one_seq
    have hopen : ¬ among Char.toNat 0x5b 0x5b c = true := by
      rw [among_self] at hc ⊢
      omega
    refine ⟨parts, hparts, hdrop _ ?_⟩
    rw [hrest, List.cons_append, hcontrol _ _ hopen]
    rfl
  · have hrest := rests_append (r := shortRe Char.toNat) (length_oneRest _) hw parts.flatten
    cases hw with
    | @one _ d hd =>
      have hrange : 0x40 ≤ d.toNat ∧ d.toNat ≤ 0x5a ∨ 0x5c ≤ d.toNat ∧ d.toNat ≤ 0x5f := by
        simpa [among] using hd
      have hopen : ¬ among Char.toNat 0x5b 0x5b d = true := by
        rw [among_self]
        omega
      have hplain : Regex.rests (commandRe Char.toNat) (d :: parts.flatten) = [] →
          ∃ more : List Text, (∀ p ∈ more, Regex.Matches ansiText p) ∧
            (escape :: ([d] ++ parts.flatten)).drop n = more.flatten := by
        intro hnone
        refine ⟨parts, hparts, hdrop _ ?_⟩
        rw [hrest, List.singleton_append, hcontrol _ _ hopen, hnone]
        rfl
      by_cases hclose : among Char.toNat 0x5d 0x5d d = true
      · cases parts with
        | nil =>
          refine hplain ?_
          rw [rests_command, if_pos hclose]
          rfl
        | cons p more =>
          obtain ⟨w, rfl, hw⟩ := matches_ansi (hparts p List.mem_cons_self)
          have hends := rests_command_escape hclose (w ++ more.flatten)
          rw [← List.cons_append, ← List.flatten_cons] at hends
          cases w with
          | nil => exact (matches_rest_ne_nil hw rfl).elim
          | cons e v =>
            by_cases he : e = '\\'
            · -- only a sequence of two letters goes on with a backslash
              have hnil := matches_backslash (he ▸ hw)
              subst hnil he
              refine ⟨more, fun q hq => hparts q (List.mem_cons_of_mem _ hq), hdrop _ ?_⟩
              rw [List.singleton_append, hcontrol _ _ hopen, hends]
              rfl
            · refine hplain (hends.trans ?_)
              have hslash : ¬ among Char.toNat 0x5c 0x5c e = true := fun h => he ((among_char '\\' rfl).mp h)
              exact if_neg hslash
      · exact hplain (hcommand _ _ hclose)

theorem without_flatten (parts : List Text) (hparts : ∀ p ∈ parts, Regex.Matches ansiText p) :
    Regex.without ansiText parts.flatten = [] := by
  induction hlen : parts.flatten.length using Nat.strong_induction_on generalizing parts with
  | _ len ih =>
    subst hlen
    cases parts with
    | nil => rfl
    | cons s parts =>
      have hs := hparts s List.mem_cons_self
      have hrest : ∀ p ∈ parts, Regex.Matches ansiText p := fun p hp => hparts p (List.mem_cons_of_mem _ hp)
      obtain ⟨w, rfl, -⟩ := matches_ansi hs
      have hfound : Regex.find ansiText ((escape :: w) ++ parts.flatten) ≠ none := by
        intro hnone
        exact Regex.find_none.mp hnone _ hs (List.prefix_append _ _)
      obtain ⟨n, hn⟩ := Option.ne_none_iff_exists'.mp hfound
      have hpos : n ≠ 0 := by
        rintro rfl
        exact not_matches_nil (Regex.find_some hn).2
      obtain ⟨n, rfl⟩ := Nat.exists_eq_succ_of_ne_zero hpos
      obtain ⟨more, hmore, hdrop⟩ := find_parts hs hrest hn
      rw [List.flatten_cons]
      rw [List.cons_append] at hn hdrop ⊢
      rw [List.drop_succ_cons] at hdrop
      rw [Regex.without_of_find hn, hdrop]
      refine ih _ ?_ more hmore rfl
      rw [← hdrop, List.length_drop, List.flatten_cons, List.length_append, List.length_append, List.length_cons]
      omega

theorem pureEscapes_iff {line : Text} : PureEscapes line ↔ line ≠ [] ∧ Streaming.stripAnsi line = [] := by
  rw [stripAnsi_eq]
  constructor
  · rintro ⟨parts, hne, hparts, rfl⟩
    refine ⟨?_, without_flatten parts hparts⟩
    obtain ⟨s, more, rfl⟩ := List.exists_cons_of_ne_nil hne
    obtain ⟨w, rfl, -⟩ := matches_ansi (hparts s List.mem_cons_self)
    simp
  · rintro ⟨hne, hnil⟩
    obtain ⟨parts, hparts, rfl⟩ := (Regex.cut_pieces not_matches_nil line).parts hnil
    refine ⟨parts, ?_, hparts, rfl⟩
    rintro rfl
    exact hne rfl

instance : DecidablePred PureEscapes := fun _ => decidable_of_iff _ pureEscapes_iff.symm

/-- What is to be kept of a printed line. -/
def shown (item : Text) : Text :=
  if PureEscapes (rstripLineEnd item) then [] else Streaming.stripAnsi (rstripLineEnd item) ++ ['\n']

/-- What the two loops keep of it. -/
def keptOf (item : Text) : Text := ((runOpencodeOnce.keep item).map (· ++ ['\n'])).getD []

/-- A line that is empty apart from its end. -/
def Blank (item : Text) : Prop := rstripLineEnd item = []

instance : DecidablePred Blank := fun item => inferInstanceAs (Decidable (rstripLineEnd item = []))

theorem keptOf_eq {item : Text} (h : ¬ Blank item) : keptOf item = shown item := by
  unfold keptOf shown runOpencodeOnce
  dsimp only
  by_cases hnil : Streaming.stripAnsi (rstripLineEnd item) = []
  · rw [if_pos (pureEscapes_iff.mpr ⟨h, hnil⟩), if_pos (by simpa using hnil)]
    rfl
  · rw [if_neg fun hpure => hnil (pureEscapes_iff.mp hpure).2, if_neg (by simpa using hnil)]
    rfl

theorem blank_cases {item : Text} (h : Blank item) : keptOf item = [] ∧ shown item = ['\n'] := by
  unfold keptOf shown runOpencodeOnce
  dsimp only
  rw [h]
  exact ⟨rfl, if_neg fun hpure => (pureEscapes_iff.mp hpure).1 rfl⟩

theorem shown_eq_nil {item : Text} : shown item = [] ↔ PureEscapes (rstripLineEnd item) := by
  unfold shown
  split <;> simp [*]

theorem flatMap_keep (items : List Text) :
    (items.filterMap runOpencodeOnce.keep).flatMap (· ++ ['\n']) = items.flatMap keptOf := by
  induction items with
  | nil => rfl
  | cons item items ih =>
    rw [List.flatMap_cons, ← ih, List.filterMap_cons]
    unfold keptOf
    cases runOpencodeOnce.keep item <;> rfl

theorem length_kept_le (items : List Text) : (items.flatMap keptOf).length ≤ (items.flatMap shown).length := by
  induction items with
  | nil => simp
  | cons item items ih =>
    rw [List.flatMap_cons, List.flatMap_cons, List.length_append, List.length_append]
    by_cases h : Blank item
    · obtain ⟨hkept, -⟩ := blank_cases h
      rw [hkept, List.length_nil]
      omega
    · rw [keptOf_eq h]
      omega

/-- Nothing but blank lines, and lines not taken, make the text shorter. -/
theorem kept_eq_shown_iff {taken rest : List Text} : taken.flatMap keptOf = (taken ++ rest).flatMap shown ↔
    (∀ item ∈ taken, ¬ Blank item) ∧ ∀ item ∈ rest, PureEscapes (rstripLineEnd item) := by
  induction taken with
  | nil =>
    rw [List.nil_append, List.flatMap_nil, eq_comm, List.flatMap_eq_nil_iff]
    simp [shown_eq_nil]
  | cons item taken ih =>
    rw [List.flatMap_cons, List.cons_append, List.flatMap_cons, List.forall_mem_cons]
    by_cases h : Blank item
    · obtain ⟨hkept, hshown⟩ := blank_cases h
      refine iff_of_false ?_ fun hall => hall.1.1 h
      intro heq
      have hlength := congrArg List.length heq
      have hle := length_kept_le taken
      rw [hkept, hshown, List.flatMap_append] at hlength
      simp only [List.length_append, List.length_nil, List.length_singleton] at hlength
      omega
    · rw [keptOf_eq h, List.append_cancel_left_eq, ih]
      simp [h]

section Runs
variable {ρ : Type} (R : Runner ρ) (timeout : ℚ) (child : Behaviour)

/-- The line that an action prints, if stdout is open. -/
def printed (s : State ρ) : Action → List Text
  | .write (.line item) => if s.stdout then [item] else []
  | _ => []

/-- Runs in which everything is printed before the deadline. -/
inductive Prints : List Text → State ρ → Prop
  | start : Prints [] Runner.start
  | act {lines : List Text} {s : State ρ} (h : Prints lines s) (hdue : printed s (child s.done) ≠ [] → s.now < timeout) :
      Prints (lines ++ printed s (child s.done)) (perform { s with done := s.done + 1 } (child s.done))
  | step {lines : List Text} {s s' : State ρ} (h : Prints lines s) (hs : R.Step timeout child s s')
      (hdone : s'.done = s.done) : Prints lines s'

def lineOf : Output → Option Text
  | .line item => some item
  | .undecodable => none

/-- The lines between the child and the caller, in the queue and in the pipe. -/
def underway (s : State ρ) : List Text := s.lines.filterMap id ++ s.pipe.filterMap lineOf

/-- Every printed line has been taken or is underway. -/
structure Accounted (lines : List Text) (s : State ρ) : Prop where
  decodable : .undecodable ∉ s.pipe
  taken : ∃ taken, lines = taken ++ underway s ∧ s.kept = taken.filterMap R.keep
  answer : ∀ answer, s.phase = .returned answer → ∃ timedOut code, answer = R.answer timedOut code s.kept

/-- The line that the step writes. -/
def wrote (child : Behaviour) (s s' : State ρ) : List Text := if s'.done = s.done then [] else printed s (child s.done)

/-- The line that the step takes out of the queue. -/
def taken (s s' : State ρ) : List Text := if s'.lines.length < s.lines.length then (s.lines.take 1).filterMap id else []

variable {R timeout child} {lines : List Text} {s s' : State ρ}

theorem decodable_perform {action : Action} (hchild : action ≠ .write .undecodable) (hpipe : .undecodable ∉ s.pipe) :
    .undecodable ∉ (perform { s with done := s.done + 1 } action).pipe := by
  cases action with
  | write output =>
    dsimp only [perform]
    split
    · cases output with
      | line item => simp [hpipe]
      | undecodable => exact absurd rfl hchild
    · exact hpipe
  | _ => exact hpipe

theorem underway_perform {action : Action} (hchild : action ≠ .write .undecodable) :
    underway (perform { s with done := s.done + 1 } action) = underway s ++ printed s action := by
  cases action with
  | write output =>
    cases output with
    | line item => cases hopen : s.stdout <;> simp [underway, perform, printed, hopen, lineOf]
    | undecodable => exact absurd rfl hchild
  | _ => simp [underway, perform, printed]

theorem filterMap_keep_singleton (item : Text) : [item].filterMap R.keep = (R.keep item).toList := by
  rw [List.filterMap_cons]
  cases R.keep item <;> rfl

theorem decodable_step (hchild : ∀ n, child n ≠ .write .undecodable) (hpipe : .undecodable ∉ s.pipe)
    (hs : R.Step timeout child s s') : .undecodable ∉ s'.pipe := by
  cases hs with
  | act => exact decodable_perform (hchild s.done) hpipe
  | read hr hp =>
    rw [hp] at hpipe
    exact fun hm => hpipe (List.mem_cons_of_mem _ hm)
  | _ => exact hpipe

/-- What is taken leaves the front, and what is written comes to the end. -/
theorem taken_append_underway (hchild : ∀ n, child n ≠ .write .undecodable) (hpipe : .undecodable ∉ s.pipe)
    (hs : R.Step timeout child s s') : taken s s' ++ underway s' = underway s ++ wrote child s s' := by
  cases hs with
  | act =>
    rw [underway_perform (hchild s.done)]
    simp [taken, wrote, perform]
  | read hr hp => simp [taken, wrote, underway, hp, lineOf]
  | fail hr hp => exact absurd hp hpipe
  | eof hr hp hs => simp [taken, wrote, underway]
  | get hph hl | drain hph hl => simp [taken, wrote, underway, Runner.emit, hl]
  | getEnd hph hl | drainEnd hph hl => simp [taken, wrote, underway, hl]
  | _ => simp [taken, wrote, underway]

theorem kept_step (hs : R.Step timeout child s s') : s'.kept = s.kept ++ (taken s s').filterMap R.keep := by
  cases hs with
  | act => simp [taken, perform]
  | get hph hl | drain hph hl =>
    rw [Runner.emit, ← filterMap_keep_singleton]
    simp [taken, hl]
  | getEnd hph hl | drainEnd hph hl => simp [taken, hl]
  | _ => simp [taken]

theorem returned_step (hs : R.Step timeout child s s') {answer : ρ} (hanswer : s'.phase = .returned answer) :
    (s.phase = .returned answer ∧ s'.kept = s.kept) ∨
      ∃ timedOut code, s.phase = .waiting timedOut ∧ s'.kept = s.kept ∧ answer = R.answer timedOut code s.kept := by
  cases hs with
  | @reap timedOut code hph he => exact .inr ⟨timedOut, code, hph, rfl, (Phase.returned.inj hanswer).symm⟩
  | timeUp | poll | empty | get | getEnd | kill | drainEnd | drainEmpty | join => cases hanswer
  | drain hph hl =>
    have hdraining : Phase.draining = .returned answer := hph.symm.trans hanswer
    cases hdraining
  | tick | act | die | read | fail | eof => exact .inl ⟨hanswer, rfl⟩

theorem Accounted.after (hchild : ∀ n, child n ≠ .write .undecodable) (h : Accounted R lines s) (hs : R.Step timeout child s s') :
    Accounted R (lines ++ wrote child s s') s' := by
  refine ⟨decodable_step hchild h.decodable hs, ?_, fun answer hanswer => ?_⟩
  · obtain ⟨before, hsplit, hbefore⟩ := h.taken
    refine ⟨before ++ Entrypoint.taken s s', ?_, ?_⟩
    · rw [hsplit, List.append_assoc, List.append_assoc, taken_append_underway hchild h.decodable hs]
    · rw [kept_step hs, hbefore, List.filterMap_append]
  · rcases returned_step hs hanswer with ⟨hphase, hkept⟩ | ⟨timedOut, code, -, hkept, rfl⟩
    · rw [hkept]
      exact h.answer answer hphase
    · exact ⟨timedOut, code, by rw [hkept]⟩

theorem accounted (hchild : ∀ n, child n ≠ .write .undecodable) (h : Prints R timeout child lines s) : Accounted R lines s := by
  induction h with
  | start => exact ⟨by simp [Runner.start], ⟨[], rfl, rfl⟩, by simp [Runner.start]⟩
  | @act lines s h _ ih =>
    have hstep : R.Step timeout child s (perform { s with done := s.done + 1 } (child s.done)) := .act s
    have hact := ih.after hchild hstep
    rwa [wrote, if_neg (by simp [perform])] at hact
  | step h hs hdone ih =>
    have hstep := ih.after hchild hs
    rwa [wrote, if_pos hdone, List.append_nil] at hstep

end Runs

def printing (items : List Text) : Behaviour := fun n => match items[n]? with
  | some item => .write (.line item)
  | none => .exit 0 false

section Printing
variable {timeout : ℚ} {items : List Text}

variable (items) in
theorem prints_items (ht : 0 < timeout) {k : ℕ} (hk : k ≤ items.length) :
    Prints runOpencodeOnce timeout (printing items) (items.take k)
      ⟨0, k, none, false, true, [], true, (items.take k).map some, .polling, []⟩ := by
  induction k with
  | zero => exact .start
  | succ k ih =>
    have hprev := ih (by omega)
    have haction : printing items k = .write (.line items[k]) := by
      unfold printing
      rw [List.getElem?_eq_getElem (by omega)]
    have hact := hprev.act fun _ => ht
    dsimp only at hact
    rw [haction] at hact
    have hread := hact.step (.read rfl rfl) rfl
    have htake : items.take (k + 1) = items.take k ++ [items[k]] := by
      rw [List.take_add_one, List.getElem?_eq_getElem (by omega)]
      rfl
    rw [htake, List.map_append]
    exact hread

/-- The caller takes the items up to the marker, joins and waits. -/
theorem prints_taken (ht : 0 < timeout) {lines rest kept : List Text} {done : ℕ}
    (h : Prints runOpencodeOnce timeout (printing items) lines
      ⟨0, done, some 0, false, false, [], false, rest.map some ++ [none], .polling, kept⟩) :
    ∃ s, Prints runOpencodeOnce timeout (printing items) lines s ∧ underway s = [] ∧
      s.phase = .returned (0, (kept ++ rest.filterMap runOpencodeOnce.keep).flatMap (· ++ ['\n'])) := by
  induction rest generalizing kept with
  | nil =>
    have hget := (h.step (.poll rfl ht) rfl).step (.getEnd rfl rfl) rfl
    refine ⟨_, (hget.step (.join rfl) rfl).step (.reap rfl rfl) rfl, rfl, ?_⟩
    simp [runOpencodeOnce]
  | cons item rest ih =>
    have hget := (h.step (.poll rfl ht) rfl).step (.get rfl rfl) rfl
    obtain ⟨s, hs, hnone, hphase⟩ := ih hget
    refine ⟨s, hs, hnone, hphase.trans ?_⟩
    rw [List.filterMap_cons]
    cases runOpencodeOnce.keep item <;> simp

/-- Whatever is printed, a run takes all of it and returns. -/
theorem printing_returns (ht : 0 < timeout) (items : List Text) :
    ∃ s, Prints runOpencodeOnce timeout (printing items) items s ∧ underway s = [] ∧
      s.phase = .returned (0, items.flatMap keptOf) := by
  have hprinted := prints_items items ht le_rfl
  rw [List.take_length] at hprinted
  have haction : printing items items.length = .exit 0 false := by
    unfold printing
    rw [List.getElem?_eq_none le_rfl]
  have hact := hprinted.act fun _ => ht
  dsimp only at hact
  rw [haction] at hact
  have hnone : printed (⟨0, items.length, none, false, true, [], true, items.map some, .polling, []⟩ : State (ℤ × Text))
      (.exit 0 false) = [] := rfl
  rw [hnone, List.append_nil] at hact
  have htaken : ∃ s, Prints runOpencodeOnce timeout (printing items) items s ∧ underway s = [] ∧
      s.phase = .returned (0, ([] ++ items.filterMap runOpencodeOnce.keep).flatMap (· ++ ['\n'])) :=
    prints_taken ht (hact.step (.eof rfl rfl rfl) rfl)
  rw [List.nil_append, flatMap_keep] at htaken
  exact htaken

theorem printing_decodable (items : List Text) (n : ℕ) : printing items n ≠ .write .undecodable := by
  unfold printing
  split <;> simp

end Printing

/-- The text that is returned has every printed line, stripped, and without the
lines made up of escape sequences, exactly where no line is blank and only such
lines are underway when the call returns. -/
theorem output_kept_iff {timeout : ℚ} {child : Behaviour} (hchild : ∀ n, child n ≠ .write .undecodable) {lines : List Text}
    {s : State (ℤ × Text)} (h : Prints runOpencodeOnce timeout child lines s) {code : ℤ} {text : Text}
    (hreturned : s.phase = .returned (code, text)) :
    text = lines.flatMap shown ↔
      (∀ item ∈ lines, ¬ Blank item) ∧ ∀ item ∈ underway s, PureEscapes (rstripLineEnd item) := by
  have hacc := accounted hchild h
  obtain ⟨taken, hsplit, htaken⟩ := hacc.taken
  obtain ⟨timedOut, code', hanswer⟩ := hacc.answer _ hreturned
  have htext : text = taken.flatMap keptOf := by
    rw [(Prod.mk.inj hanswer).2, htaken]
    exact flatMap_keep taken
  have hpure : ∀ item, PureEscapes (rstripLineEnd item) → ¬ Blank item := fun item hitem => (pureEscapes_iff.mp hitem).1
  rw [htext, hsplit, kept_eq_shown_iff, List.forall_mem_append]
  constructor
  · rintro ⟨hblank, hrest⟩
    exact ⟨⟨hblank, fun item hitem => hpure item (hrest item hitem)⟩, hrest⟩
  · rintro ⟨⟨hblank, -⟩, hrest⟩
    exact ⟨hblank, hrest⟩

/-- A line without the escape is shown as it is. -/
theorem shown_plain {item : Text} (h : escape ∉ item) : shown item = rstripLineEnd item ++ ['\n'] := by
  have hline : escape ∉ rstripLineEnd item := by
    intro hmem
    have hfront : rstripLineEnd item <+: item := List.rdropWhile_prefix _ _
    exact h (hfront.subset hmem)
  have hself : Streaming.stripAnsi (rstripLineEnd item) = rstripLineEnd item := by
    rw [stripAnsi_eq]
    refine Regex.without_eq_self fun s hs hwithin => ?_
    obtain ⟨w, rfl, -⟩ := matches_ansi hs
    exact hline (hwithin.subset List.mem_cons_self)
  have hpure : ¬ PureEscapes (rstripLineEnd item) := by
    rw [pureEscapes_iff, hself]
    exact fun hboth => hboth.1 hboth.2
  unfold shown
  rw [if_neg hpure, hself]

section Example

/-- Two paragraphs with a blank line between them. -/
def paragraphs : List Text := ["one\n".toList, "\n".toList, "two\n".toList]

/-- A coloured line and a reset of the colours. -/
def colored : List Text := ["\x1b[1mone\x1b[0m\n".toList, "\x1b[0m\n".toList]

theorem output_kept_colored : ∃ s, Prints runOpencodeOnce 60 (printing colored) colored s ∧
    s.phase = .returned (0, "one\n".toList) ∧ "one\n".toList = colored.flatMap shown := by
  have ht : (0 : ℚ) < 60 := by norm_num
  obtain ⟨s, hs, hnone, hphase⟩ := printing_returns ht colored
  refine ⟨s, hs, hphase, (output_kept_iff (printing_decodable colored) hs hphase).mpr ⟨by decide, ?_⟩⟩
  rw [hnone]
  simp

theorem blank_line_dropped : ∃ s, Prints runOpencodeOnce 60 (printing paragraphs) paragraphs s ∧
    s.phase = .returned (0, "one\ntwo\n".toList) ∧ paragraphs.flatMap shown = "one\n\ntwo\n".toList := by
  have ht : (0 : ℚ) < 60 := by norm_num
  obtain ⟨s, hs, -, hphase⟩ := printing_returns ht paragraphs
  exact ⟨s, hs, hphase, by decide⟩

end Example

end GitlabReviewer.Entrypoint
