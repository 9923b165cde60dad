import GitlabReviewer.Entrypoint.Main

/-! # How the container ends

Whatever the outside does, the run ends with its exit code in the log, after at
most two runs of opencode; and unless that code is 1, which stands for a failure
of the run itself, the review is on disk in full.
-/
namespace GitlabReviewer.Entrypoint
open Python Foundation Statement

variable {σ : Type} {H : Host σ}

/-- Neither the result files nor the runs of opencode have changed. -/
structure Untouched (c c' : Container σ) : Prop where
  result : c'.result = c.result
  markdown : c'.markdown = c.markdown
  attempts : c'.attempts = c.attempts

instance : Std.Refl (Untouched : Container σ → Container σ → Prop) := ⟨fun _ => ⟨rfl, rfl, rfl⟩⟩

instance : IsTrans (Container σ) Untouched :=
  ⟨fun _ _ _ h h' => ⟨h'.result.trans h.result, h'.markdown.trans h.markdown, h'.attempts.trans h.attempts⟩⟩

/-- The container after these lines have been logged. -/
def noted (H : Host σ) (lines : List Str) (c : Container σ) : Container σ := { c with sinks := logged H.logger lines c.sinks }

theorem untouched_noted (lines : List Str) (c : Container σ) : Untouched c (noted H lines c) := ⟨rfl, rfl, rfl⟩

theorem say_run (message : Text) (c : Container σ) :
    say H message c = (.ok (), noted H [cleaned H.logger (ofText message)] c) := by
  unfold say onSinks within
  dsimp only
  rw [log_text]
  rfl

theorem keeps_onSinks {α : Type} (x : Run α) : Keeps Untouched (onSinks x : Step σ α) := fun _ => ⟨rfl, rfl, rfl⟩

theorem keeps_say (message : Text) : Keeps Untouched (say H message) := keeps_onSinks _

theorem keeps_onFiles {α : Type} (f : σ → α × σ) : Keeps Untouched (onFiles f) := fun _ => ⟨rfl, rfl, rfl⟩

theorem keeps_orOSError (f : σ → Option Text × σ) : Keeps Untouched (orOSError f) := by
  refine (keeps_onFiles f).bind fun answer => ?_
  cases answer with
  | none => exact Keeps.pure _
  | some message => exact Keeps.raise _

theorem keeps_runGit (args : List Text) (cwd : Option Text) : Keeps Untouched (runGit H args cwd) := by
  refine (keeps_onFiles _).bind fun finished => ?_
  cases finished with
  | exited code stdout =>
    dsimp only
    split
    · exact Keeps.raise _
    · exact Keeps.pure _
  | _ => exact Keeps.raise _

theorem keeps_removeTarget : Keeps Untouched (removeTarget H) := by
  refine (keeps_onFiles _).bind fun there => ?_
  rcases there with message | there
  · exact Keeps.raise _
  · cases there with
    | true => exact keeps_orOSError _
    | false => exact Keeps.pure _

theorem keeps_cloneTarget : Keeps Untouched (cloneTarget H) := by
  refine keeps_removeTarget.bind fun _ => (keeps_say _).bind fun _ => (keeps_runGit _ _).bind fun _ => Keeps.bind ?_ fun _ =>
    (keeps_runGit _ _).bind fun _ => keeps_say _
  refine Keeps.attempt ?_ fun e y hy => ?_
  · exact (keeps_runGit _ _).bind fun _ => (keeps_runGit _ _).bind fun _ => keeps_say _
  · split at hy
    · cases hy
      exact (keeps_say _).bind fun _ => (keeps_runGit _ _).bind fun _ => keeps_runGit _ _
    · cases hy

theorem keeps_provideEntry (entry : Json) : Keeps Untouched (provideEntry H entry) := by
  unfold provideEntry
  split
  · split
    · exact keeps_say _
    · split
      · exact Keeps.raise _
      · split
        · exact keeps_say _
        · split
          · exact keeps_say _
          · refine (keeps_onFiles _).bind fun there => ?_
            rcases there with message | there
            · exact Keeps.raise _
            · cases there with
              | true => exact keeps_say _
              | false =>
                exact (keeps_orOSError _).bind fun _ => (keeps_say _).bind fun _ => (keeps_runGit _ _).bind fun _ =>
                  keeps_onFiles _
  · exact keeps_say _

theorem keeps_cloneExtraProjects : Keeps Untouched (cloneExtraProjects H) := by
  unfold cloneExtraProjects
  dsimp only
  split
  · exact Keeps.pure _
  · split
    · exact Keeps.raise _
    · exact Keeps.forM fun entry _ => keeps_provideEntry entry
    · exact Keeps.raise _

theorem keeps_renderConfig : Keeps Untouched (renderConfig H) := by
  unfold renderConfig
  split
  · exact Keeps.raise _
  · split
    · exact Keeps.raise _
    · split
      · exact Keeps.raise _
      · exact Keeps.bind (fun c => ⟨rfl, rfl, rfl⟩) fun _ => keeps_say _

theorem keeps_prepared : Keeps Untouched (prepared H) := by
  refine Keeps.attempt ?_ fun e y hy => ?_
  · refine Keeps.bind ?_ fun prompt => Keeps.pure _
    exact (keeps_orOSError _).bind fun _ => keeps_cloneTarget.bind fun _ => keeps_cloneExtraProjects.bind fun _ =>
      keeps_renderConfig.bind fun _ => Keeps.pure _
  · obtain ⟨message, -, rfl⟩ := Option.map_eq_some_iff.mp hy
    exact (keeps_say _).bind fun _ => Keeps.pure _

theorem keeps_reportExit (code : ℤ) : Keeps Untouched (reportExit H code) := by
  unfold reportExit
  split
  · exact (keeps_say _).bind fun _ => (Keeps.read _).bind fun _ => keeps_onSinks _
  · exact Keeps.pure _

/-- These runs of opencode have been added, and the result files have not changed. -/
structure Tried (tries : List Attempt) (c c' : Container σ) : Prop where
  result : c'.result = c.result
  markdown : c'.markdown = c.markdown
  attempts : c'.attempts = c.attempts ++ tries

theorem Untouched.tried {c c' : Container σ} (h : Untouched c c') : Tried [] c c' :=
  ⟨h.result, h.markdown, by rw [h.attempts, List.append_nil]⟩

theorem Tried.trans {a b : List Attempt} {c c' c'' : Container σ} (h : Tried a c c') (h' : Tried b c' c'') :
    Tried (a ++ b) c c'' :=
  ⟨h'.result.trans h.result, h'.markdown.trans h.markdown, by rw [h'.attempts, h.attempts, List.append_assoc]⟩

/-- One run with `--thinking`, and one without it exactly if the first has rejected the flag. -/
inductive Attempts (H : Host σ) (prompt : Text) : Option (ℤ × Text) → List Attempt → Prop
  | once {answer : Option (ℤ × Text)} (h : ∀ a ∈ answer, rejected a = false) :
      Attempts H prompt answer [⟨opencodeCommand H ["--thinking".toList] prompt, answer⟩]
  | again {first : ℤ × Text} {answer : Option (ℤ × Text)} (h : rejected first = true) :
      Attempts H prompt answer
        [⟨opencodeCommand H ["--thinking".toList] prompt, some first⟩, ⟨opencodeCommand H [] prompt, answer⟩]

theorem sayTimedOut_run (timeout : Python.Float) (timedOut : Bool) (c : Container σ) :
    ∃ c', sayTimedOut H timeout timedOut c = (.ok (), c') ∧ Untouched c c' := by
  unfold sayTimedOut
  split
  · exact ⟨_, say_run _ _, untouched_noted _ c⟩
  · exact ⟨c, rfl, rfl, rfl, rfl⟩

theorem logLines_run' (lines : List Text) (c : Container σ) : (onSinks (logLines H.logger lines) : Step σ Unit) c =
    (.ok (), noted H (lines.map fun line => cleaned H.logger (ofText line)) c) := by
  unfold onSinks within
  dsimp only
  rw [logLines_run]
  rfl

theorem once_run (prompt : Text) (timeout : Python.Float) (extra : List Text) (c : Container σ) : ∃ answer result c',
    runOpencodeOnce H prompt timeout extra c = (result, c') ∧ result.toOption = answer ∧
      Tried [⟨opencodeCommand H extra prompt, answer⟩] c c' := by
  unfold runOpencodeOnce
  dsimp only
  rw [bind_ok (say_run _ _)]
  generalize hnoted : noted H _ c = c₁
  have hfirst : Untouched c c₁ := hnoted ▸ untouched_noted _ c
  cases hran : onFiles (H.opencode (opencodeCommand H extra prompt)) c₁ with
  | mk ran c₂ =>
    have hsecond : Untouched c₁ c₂ := by simpa [hran] using keeps_onFiles (H.opencode (opencodeCommand H extra prompt)) c₁
    have hbefore := hfirst.tried.trans hsecond.tried
    cases ran with
    | error e => cases hran
    | ok ran =>
      rw [bind_ok hran]
      cases ran with
      | failed message => exact ⟨none, _, _, rfl, rfl, hbefore.result, hbefore.markdown, by simp [hbefore.attempts]⟩
      | ended items timedOut code =>
        dsimp only
        rw [bind_ok (logLines_run' _ _)]
        generalize hlines : noted H _ c₂ = c₃
        have hthird : Untouched c₂ c₃ := hlines ▸ untouched_noted _ c₂
        obtain ⟨c₄, hsaid, hfourth⟩ := sayTimedOut_run (H := H) timeout timedOut c₃
        have hall := hbefore.trans (hthird.tried.trans hfourth.tried)
        rw [bind_ok hsaid]
        exact ⟨some _, _, _, rfl, rfl, hall.result, hall.markdown, by simp [hall.attempts]⟩

theorem opencode_run (prompt : Text) (timeout : Python.Float) (c : Container σ) : ∃ answer tries result c',
    runOpencode H prompt timeout c = (result, c') ∧ result.toOption = answer ∧ Attempts H prompt answer tries ∧
      Tried tries c c' := by
  obtain ⟨first, result, c₁, hfirst, hanswer, htried⟩ := once_run (H := H) prompt timeout ["--thinking".toList] c
  unfold runOpencode
  cases result with
  | error e =>
    subst hanswer
    exact ⟨none, _, .error e, c₁, bind_error hfirst, rfl, .once (fun a ha => by cases ha), htried⟩
  | ok a =>
    subst hanswer
    rw [bind_ok hfirst]
    by_cases hrejected : rejected a = true
    · rw [if_pos hrejected, bind_ok (say_run _ _)]
      generalize hnoted : noted H _ c₁ = c₂
      have huntouched : Untouched c₁ c₂ := hnoted ▸ untouched_noted _ c₁
      obtain ⟨answer, result, c₃, hsecond, hanswer, hagain⟩ := once_run (H := H) prompt (H.remaining timeout) [] c₂
      exact ⟨answer, _, result, c₃, hsecond, hanswer, .again hrejected, htried.trans (huntouched.tried.trans hagain)⟩
    · rw [if_neg hrejected]
      refine ⟨some a, _, .ok a, c₁, rfl, rfl, .once ?_, htried⟩
      rintro b ⟨⟩
      simpa using hrejected

/-- The review is on disk: the whole result if the output has one, else the whole
output unless it is blank. -/
inductive Delivered (H : Host σ) (output : Text) (c : Container σ) : Prop
  | result {fields : List (Str × Value)} (hfields : extractResult H.machine output = .ok (some fields))
      (hscalar : (renderedResult H fields).all scalar = true) (hresult : c.result = some (renderedResult H fields))
      (hmarkdown : c.markdown = none)
  | markdown (hnone : extractResult H.machine output = .ok none) (hresult : c.result = none)
      (hmarkdown : c.markdown = if (Python.strip output).isEmpty then none else some (scrub H.logger.secrets (ofText output)))

/-- What a statement that adds no run of opencode leaves of fresh result files. -/
structure Wrote (H : Host σ) (output : Text) (c c' : Container σ) (result : Except Problem Unit) : Prop where
  attempts : c'.attempts = c.attempts
  single : c'.result = none ∨ c'.markdown = none
  delivered : result = .ok () → Delivered H output c'

theorem writeOutput_run (output : Text) {c : Container σ} (hresult : c.result = none) (hmarkdown : c.markdown = none) :
    ∃ result c', writeOutput H output c = (result, c') ∧ Wrote H output c c' result := by
  have hraised : ∀ e : Problem, Wrote H output c c (.error e) := fun e => ⟨rfl, .inl hresult, fun h => by cases h⟩
  unfold writeOutput
  cases hextract : extractResult H.machine output with
  | error e => exact ⟨_, c, rfl, hraised _⟩
  | ok found =>
    cases found with
    | some fields =>
      dsimp only
      unfold writeResult
      cases H.resultError with
      | some message => exact ⟨_, c, rfl, hraised _⟩
      | none =>
        dsimp only
        split
        · exact ⟨_, c, rfl, hraised _⟩
        · cases H.openError with
          | some message => exact ⟨_, c, rfl, hraised _⟩
          | none =>
            dsimp only
            rw [bind_ok (write_run _ _)]
            split
            · rename_i hscalar
              rw [bind_ok (write_run _ _), say_run]
              exact ⟨_, _, rfl, rfl, .inr hmarkdown, fun _ => .result hextract hscalar rfl hmarkdown⟩
            · exact ⟨_, _, rfl, rfl, .inr hmarkdown, fun h => by cases h⟩
    | none =>
      dsimp only
      by_cases hblank : (Python.strip output).isEmpty = true
      · rw [if_pos hblank, say_run]
        refine ⟨_, _, rfl, rfl, .inl hresult, fun _ => .markdown hextract hresult ?_⟩
        rw [if_pos hblank]
        exact hmarkdown
      · rw [if_neg hblank]
        unfold writeMarkdown
        cases H.resultError with
        | some message => exact ⟨_, c, rfl, hraised _⟩
        | none =>
          cases H.openError with
          | some message => exact ⟨_, c, rfl, hraised _⟩
          | none =>
            dsimp only
            rw [bind_ok (write_run _ _), say_run]
            refine ⟨_, _, rfl, rfl, .inl hresult, fun _ => .markdown hextract hresult ?_⟩
            rw [if_neg hblank]
            rfl

/-- The container has written nothing yet. -/
structure Fresh (c : Container σ) : Prop where
  result : c.result = none
  markdown : c.markdown = none
  attempts : c.attempts = []

/-- What a run leaves: at most one result file; and an exit code other than 1 is
that of opencode, whose output is delivered. -/
structure Ended (H : Host σ) (c : Container σ) (result : Except Problem ℤ) : Prop where
  attempts : c.attempts = [] ∨ ∃ answer, Attempts H (buildPrompt H) answer c.attempts
  single : c.result = none ∨ c.markdown = none
  delivered : ∀ code, result = .ok code → c.attempts = [] ∧ code = 1 ∨
    ∃ output, Attempts H (buildPrompt H) (some (code, output)) c.attempts ∧ Delivered H output c

theorem Fresh.ended {c c' : Container σ} (hc : Fresh c) (h : Untouched c c') {result : Except Problem ℤ}
    (hresult : ∀ code, result = .ok code → code = 1) : Ended H c' result :=
  ⟨.inl (h.attempts.trans hc.attempts), .inl (h.result.trans hc.result), fun code hcode =>
    .inl ⟨h.attempts.trans hc.attempts, hresult code hcode⟩⟩

theorem Delivered.untouched {output : Text} {c c' : Container σ} (h : Delivered H output c) (h' : Untouched c c') :
    Delivered H output c' := by
  cases h with
  | result hfields hscalar hresult hmarkdown => exact .result hfields hscalar (h'.result.trans hresult) (h'.markdown.trans hmarkdown)
  | markdown hnone hresult hmarkdown => exact .markdown hnone (h'.result.trans hresult) (h'.markdown.trans hmarkdown)

theorem review_run (timeout : Python.Float) {c : Container σ} (hc : Fresh c) : ∃ result c',
    review H (buildPrompt H) timeout c = (result, c') ∧ Ended H c' result := by
  obtain ⟨answer, tries, result, c₁, hrun, hanswer, htries, htried⟩ := opencode_run (H := H) (buildPrompt H) timeout c
  have hattempts : c₁.attempts = tries := by rw [htried.attempts, hc.attempts, List.nil_append]
  unfold review
  cases result with
  | error e =>
    rw [bind_error hrun]
    exact ⟨_, _, rfl, .inr ⟨answer, hattempts ▸ htries⟩, .inl (htried.result.trans hc.result), fun code h => by cases h⟩
  | ok reply =>
    subst hanswer
    rw [bind_ok hrun]
    have hreport := keeps_reportExit (H := H) reply.1 c₁
    cases hreported : reportExit H reply.1 c₁ with
    | mk reported c₂ =>
      rw [hreported] at hreport
      have hbefore := htried.trans hreport.tried
      rw [List.append_nil] at hbefore
      have hattempts₂ : c₂.attempts = tries := by rw [hbefore.attempts, hc.attempts, List.nil_append]
      cases reported with
      | error e =>
        rw [bind_error hreported]
        exact ⟨_, _, rfl, .inr ⟨_, hattempts₂ ▸ htries⟩, .inl (hbefore.result.trans hc.result), fun code h => by cases h⟩
      | ok u =>
        rw [bind_ok hreported]
        obtain ⟨wrote, c₃, hwrote, hspec⟩ := writeOutput_run (H := H) reply.2 (hbefore.result.trans hc.result)
          (hbefore.markdown.trans hc.markdown)
        have hattempts₃ : c₃.attempts = tries := hspec.attempts.trans hattempts₂
        cases wrote with
        | error e =>
          rw [bind_error hwrote]
          exact ⟨_, _, rfl, .inr ⟨_, hattempts₃ ▸ htries⟩, hspec.single, fun code h => by cases h⟩
        | ok u =>
          rw [bind_ok hwrote]
          have hcapture := keeps_onSinks (captureSession H.machine H.logger) c₃
          cases hcaptured : (onSinks (captureSession H.machine H.logger) : Step σ Unit) c₃ with
          | mk captured c₄ =>
            rw [hcaptured] at hcapture
            have hattempts₄ : c₄.attempts = tries := hcapture.attempts.trans hattempts₃
            have hsingle : c₄.result = none ∨ c₄.markdown = none :=
              hspec.single.imp hcapture.result.trans hcapture.markdown.trans
            cases captured with
            | error e =>
              rw [bind_error hcaptured]
              exact ⟨_, _, rfl, .inr ⟨_, hattempts₄ ▸ htries⟩, hsingle, fun code h => by cases h⟩
            | ok u =>
              rw [bind_ok hcaptured]
              refine ⟨_, _, rfl, .inr ⟨_, hattempts₄ ▸ htries⟩, hsingle, ?_⟩
              rintro code ⟨⟩
              exact .inr ⟨reply.2, hattempts₄ ▸ htries, (hspec.delivered rfl).untouched hcapture⟩

theorem prepared_ok {c c' : Container σ} {prompt : Text} (h : prepared H c = (.ok (some prompt), c')) :
    prompt = buildPrompt H := by
  unfold prepared at h
  cases hrun : ((do return some (← prepare H)) : Step σ (Option Text)) c with
  | mk result c₁ =>
    cases result with
    | ok found =>
      rw [attempt_ok hrun] at h
      obtain ⟨rfl, rfl⟩ := by simpa using h
      obtain ⟨got, c₂, hprepare, hgot⟩ := of_bind_ok hrun
      obtain ⟨-, c₃, -, hprepare⟩ := of_bind_ok hprepare
      obtain ⟨-, c₄, -, hprepare⟩ := of_bind_ok hprepare
      obtain ⟨-, c₅, -, hprepare⟩ := of_bind_ok hprepare
      obtain ⟨-, c₆, -, hprepare⟩ := of_bind_ok hprepare
      cases hprepare
      cases hgot
      rfl
    | error e =>
      cases hcaught : e.caught H with
      | none =>
        rw [attempt_raised hrun (by simp [hcaught])] at h
        cases h
      | some message =>
        rw [attempt_caught hrun (by simp [hcaught]; rfl), bind_ok (say_run _ _)] at h
        cases h

theorem run_run {c : Container σ} (hc : Fresh c) : ∃ result c', run H c = (result, c') ∧ Ended H c' result := by
  have hone : ∀ message : Text, ∃ result c', (do
      say H message
      pure 1 : Step σ ℤ) c = (result, c') ∧ Ended H c' result := by
    intro message
    rw [bind_ok (say_run _ _)]
    refine ⟨_, _, rfl, hc.ended (untouched_noted _ c) ?_⟩
    rintro code ⟨⟩
    rfl
  unfold run
  split
  · exact hone _
  · cases H.machine.float (.str (ofText (Orchestrator.getenv H.env "REVIEW_TIMEOUT_SECONDS"))) with
    | error e =>
      cases e with
      | valueError => exact hone _
      | _ => exact ⟨_, _, rfl, hc.ended (Std.Refl.refl c) fun code h => by cases h⟩
    | ok timeout =>
      dsimp only
      have hkeeps := keeps_prepared (H := H) c
      cases hprepared : prepared H c with
      | mk result c₁ =>
        rw [hprepared] at hkeeps
        cases result with
        | error e =>
          rw [bind_error hprepared]
          exact ⟨_, _, rfl, hc.ended hkeeps fun code h => by cases h⟩
        | ok found =>
          rw [bind_ok hprepared]
          cases found with
          | none => exact ⟨_, _, rfl, hc.ended hkeeps fun code h => by cases h; rfl⟩
          | some prompt =>
            obtain rfl := prepared_ok hprepared
            exact review_run timeout ⟨hkeeps.result.trans hc.result, hkeeps.markdown.trans hc.markdown,
              hkeeps.attempts.trans hc.attempts⟩

theorem main_run (c : Container σ) : ∃ result c₁ code c', run H c = (result, c₁) ∧ main H c = (.ok code, c') ∧
    (∀ r, result = .ok r → code = r) ∧ (∀ e, result = .error e → code = 1) ∧ Untouched c₁ c' ∧
    c'.sinks.stdout.getLast? = some (cleaned H.logger (ofText (exitLine code))) ∧
    (H.writable = true → c'.sinks.file.getLast? = some (cleaned H.logger (ofText (exitLine code)))) := by
  have hlast : ∀ (code : ℤ) (c : Container σ), (do
      say H (exitLine code)
      pure code : Step σ ℤ) c = (.ok code, noted H [cleaned H.logger (ofText (exitLine code))] c) := by
    intro code c
    rw [bind_ok (say_run _ _)]
    rfl
  have hstdout : ∀ (line : Str) (c : Container σ), (noted H [line] c).sinks.stdout.getLast? = some line := fun _ _ =>
    List.getLast?_concat
  have hfile : ∀ (line : Str) (c : Container σ), H.writable = true → (noted H [line] c).sinks.file.getLast? = some line := by
    intro line c hwritable
    have hlogger : H.logger.writable = true := hwritable
    unfold noted logged
    dsimp only
    rw [if_pos hlogger]
    exact List.getLast?_concat
  unfold main
  cases hrun : run H c with
  | mk result c₁ =>
    cases result with
    | ok code =>
      rw [bind_ok (attempt_ok hrun), hlast]
      refine ⟨_, _, code, _, rfl, rfl, ?_, ?_, untouched_noted _ c₁, hstdout _ _, hfile _ _⟩
      · rintro r ⟨⟩
        rfl
      · rintro e ⟨⟩
    | error e =>
      have hcaught : (run H).attempt (fun e => some do
          say H ("ERROR: unexpected failure: ".toList ++ H.reprProblem e)
          pure 1) c = (.ok 1, noted H [cleaned H.logger (ofText ("ERROR: unexpected failure: ".toList ++ H.reprProblem e))] c₁) := by
        rw [attempt_caught hrun rfl, bind_ok (say_run _ _)]
        rfl
      rw [bind_ok hcaught, hlast]
      refine ⟨_, _, 1, _, rfl, rfl, ?_, fun _ _ => rfl, ?_, hstdout _ _, hfile _ _⟩
      · rintro r ⟨⟩
      · exact IsTrans.trans _ _ _ (untouched_noted _ c₁) (untouched_noted _ _)

/-- A message without secrets and escape sequences is its line. -/
theorem cleaned_of_plain {L : Logger} {message : Str} (hsecrets : ∀ secret ∈ L.secrets, ¬ secret <:+: message)
    (hescape : ∀ c ∈ message, c.val ≠ 0x1b) : cleaned L message = message := by
  unfold cleaned scrub stripAnsi
  rw [ foldl_replaceAll_of_not_infix hsecrets]
  refine Regex.without_eq_self fun s hs hin => ?_
  obtain ⟨c, w, rfl, hc, -⟩ := hs.of_one_seq
  exact hescape c (hin.subset List.mem_cons_self) (among_self.mp hc)

theorem exitLine_plain (code : ℤ) : ∀ c ∈ ofText (exitLine code), c.val ≠ 0x1b := by
  intro c hc
  obtain ⟨d, hd, rfl⟩ := List.mem_map.mp hc
  rw [val_ofChar]
  have hprefix : ("EXIT=".toList.all fun d => d.toNat != 0x1b) = true := by decide
  rcases List.mem_append.mp hd with hd | hd
  · simpa using List.all_eq_true.mp hprefix d hd
  · intro hval
    unfold reprInt at hd
    have hdigits : ∀ d ∈ decimal code.natAbs, d.toNat ≠ 0x1b := by
      intro d hd heq
      have hdigit := isDigit_decimal _ d hd
      unfold isDigit at hdigit
      simp only [Bool.and_eq_true, decide_eq_true_eq] at hdigit
      have hlow : '0'.toNat ≤ d.toNat := hdigit.1
      rw [heq] at hlow
      exact absurd hlow (by decide)
    split at hd
    · rcases List.mem_cons.mp hd with rfl | hd
      · exact absurd hval (by decide)
      · exact hdigits d hd hval
    · exact hdigits d hd hval

/-- With any exit code but 1 the output of the last run of opencode is on disk, in full and scrubbed. -/
theorem main_delivered {c c' : Container σ} {code : ℤ} (hc : Fresh c) (h : main H c = (.ok code, c')) (hone : code ≠ 1) :
    ∃ output, Attempts H (buildPrompt H) (some (code, output)) c'.attempts ∧ Delivered H output c' := by
  obtain ⟨result, c₁, hrun, hended⟩ := run_run (H := H) hc
  obtain ⟨result', c₁', code', c'', hrun', hmain, hok, herror, huntouched, -⟩ := main_run (H := H) c
  rw [hrun] at hrun'
  obtain ⟨rfl, rfl⟩ := Prod.mk.inj hrun'
  rw [h] at hmain
  obtain ⟨hcode, rfl⟩ := Prod.mk.inj hmain
  obtain rfl := Except.ok.inj hcode
  cases result with
  | error e => exact absurd (herror e rfl) hone
  | ok r =>
    obtain rfl := hok r rfl
    rcases hended.delivered code rfl with ⟨-, heq⟩ | ⟨output, hattempts, hdelivered⟩
    · exact absurd heq hone
    · exact ⟨output, huntouched.attempts ▸ hattempts, hdelivered.untouched huntouched⟩

/-- There is never a result beside a markdown file, and with any exit code but 1
the output of the last run of opencode is on disk, in full and scrubbed. -/
theorem review_on_disk (c : Container σ) (hc : Fresh c) : ∃ code c', main H c = (.ok code, c') ∧
    (c'.result = none ∨ c'.markdown = none) ∧
    (code ≠ 1 → ∃ output, Attempts H (buildPrompt H) (some (code, output)) c'.attempts ∧ Delivered H output c') := by
  obtain ⟨result, c₁, hrun, hended⟩ := run_run (H := H) hc
  obtain ⟨result', c₁', code, c', hrun', hmain, -, -, huntouched, -⟩ := main_run (H := H) c
  rw [hrun] at hrun'
  obtain ⟨rfl, rfl⟩ := Prod.mk.inj hrun'
  exact ⟨code, c', hmain, hended.single.imp huntouched.result.trans huntouched.markdown.trans, main_delivered hc hmain⟩

section Example

def plainMachine : Machine where
  opencode := false
  workDir := ["work".toList]
  home := .ok ["root".toList]
  sessionList _ := .exited 0 []
  sessionExport _ _ := .exited 0 []
  loads _ := .decodeError []
  float _ := .ok (.finite 60)
  str _ := .ok []
  repr _ := []
  floats := .none
  stack := 900
  mkdirError := none
  openError := none

/-- git and the file system do what they are asked to, and opencode prints one line. -/
def plainHost : Host Unit where
  machine := plainMachine
  runtime := ⟨fun _ => [], fun _ => true, fun _ => []⟩
  env := requiredEnv.map fun key => (key.toList, ['1'])
  anchor := .root
  console := plainConsole
  writable := true
  git _ _ files := (.exited 0 [], files)
  makeDirectory _ files := (none, files)
  present _ _ := .ok false
  removeTree _ files := (none, files)
  makeReadOnly _ files := files
  templateError := none
  configError := none
  opencode _ files := (.ended ["looks fine\n".toList] false 0, files)
  sessionLogs _ := none
  resultError := none
  openError := none
  resultStack := 900
  decodeMessage _ := []
  text _ := []
  reprText _ := []
  reprJson _ := []
  reprProblem _ := []
  general _ := "60".toList
  remaining timeout := timeout

def emptyContainer : Container Unit := ⟨⟨[], [], 0, none⟩, none, none, none, [], ()⟩

theorem review_on_disk_plain : ∃ c', main plainHost emptyContainer = (.ok 0, c') ∧
    ∃ output, Delivered plainHost output c' := by
  obtain ⟨code, c', hmain, -, hdisk⟩ := review_on_disk (H := plainHost) emptyContainer ⟨rfl, rfl, rfl⟩
  have hcode : (main plainHost emptyContainer).1.toOption = some 0 := by decide +kernel
  rw [hmain] at hcode
  obtain rfl : code = 0 := Option.some.inj hcode
  obtain ⟨output, -, hdelivered⟩ := hdisk (by decide)
  exact ⟨c', hmain, output, hdelivered⟩

end Example

end GitlabReviewer.Entrypoint
