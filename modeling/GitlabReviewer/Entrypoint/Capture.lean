import GitlabReviewer.Entrypoint.Session

/-! # When capturing fails the run

The search always comes back. What is left is the session it has found: its id,
what exporting it brings, and whether that can be written.
-/
namespace GitlabReviewer.Entrypoint
open Python Foundation

variable {M : Machine} {L : Logger}

def Returns {α : Type} (x : Run α) : Prop := ∀ s, ∃ a s', x s = (.ok a, s')

theorem returns_pure {α : Type} (a : α) : Returns (pure a : Run α) := fun s => ⟨a, s, rfl⟩

theorem Returns.bind {α β : Type} {x : Run α} {f : α → Run β} (hx : Returns x) (hf : ∀ a, Returns (f a)) : Returns (x >>= f) := by
  intro s
  obtain ⟨a, s₁, hrun⟩ := hx s
  obtain ⟨b, s₂, hrest⟩ := hf a s₁
  refine ⟨b, s₂, ?_⟩
  rw [Run.bind_run, hrun]
  exact hrest

theorem Returns.attempt {α : Type} {x : Run α} {handler : Raised → Run α} (hhandler : ∀ e, Returns (handler e)) :
    Returns (x.attempt handler) := by
  intro s
  unfold Run.attempt
  cases x s with
  | mk result s₁ =>
    cases result with
    | ok a => exact ⟨a, s₁, rfl⟩
    | error e => exact hhandler e s₁

theorem log_returns {message : Str} (h : message.all scalar = true) : Returns (log L message) := by
  intro s
  obtain ⟨s', hrun⟩ := (log_returns_iff s).mpr (loggable_of_scalar (L := L) h)
  exact ⟨(), s', hrun⟩

theorem search_returns : Returns (search M L) :=
  Returns.attempt fun _ => (log_returns scalar_ofText).bind fun _ => returns_pure none

namespace Value

theorem encodableFields_iff {fields : List (Str × Value)} :
    encodableFields fields = true ↔ ∀ f ∈ fields, f.1.all scalar = true ∧ encodable f.2 = true := by
  induction fields with
  | nil => simp [encodableFields]
  | cons f fields ih =>
    obtain ⟨key, item⟩ := f
    rw [encodableFields, Bool.and_eq_true, Bool.and_eq_true, ih, List.forall_mem_cons]

theorem encodableFields_setField {fields : List (Str × Value)} {key : Str} {value : Value} (hfields : encodableFields fields = true)
    (hkey : key.all scalar = true) (hvalue : encodable value = true) : encodableFields (setField fields key value) = true := by
  rw [encodableFields_iff] at hfields ⊢
  intro f hmem
  rw [setField_eq] at hmem
  rcases Foundation.mem_setKey hmem with rfl | ⟨h, -⟩
  · exact ⟨hkey, hvalue⟩
  · exact hfields f h

variable {secrets : List Str}

mutual
/-- Scrubbing brings no surrogates. -/
theorem encodable_scrubValue : (value : Value) → encodable value = true → encodable (scrubValue secrets value) = true
  | .str _, h => all_scrub h
  | .obj fields, h => encodable_scrubFields [] fields rfl h
  | .arr items, h => encodable_scrubItems items h
  | .null, _ | .bool _, _ | .int _, _ | .float _, _ => rfl
theorem encodable_scrubItems : (items : List Value) → encodableItems items = true →
    encodableItems (scrubItems secrets items) = true
  | [], _ => rfl
  | item :: items, h => by
      rw [encodableItems, Bool.and_eq_true] at h
      rw [scrubItems, encodableItems, Bool.and_eq_true]
      exact ⟨encodable_scrubValue item h.1, encodable_scrubItems items h.2⟩
theorem encodable_scrubFields (made : List (Str × Value)) : (fields : List (Str × Value)) → encodableFields made = true →
    encodableFields fields = true → encodableFields (scrubFields secrets made fields) = true
  | [], hmade, _ => hmade
  | (key, item) :: fields, hmade, h => by
      rw [encodableFields, Bool.and_eq_true, Bool.and_eq_true] at h
      exact encodable_scrubFields _ fields (encodableFields_setField hmade (all_scrub h.1.1) (encodable_scrubValue item h.1.2)) h.2
end

end Value

/-- An object that is written, or that fails to be with an `OSError`. -/
def Writable (M : Machine) (L : Logger) (fields : List (Str × Value)) : Prop :=
  M.mkdirError ≠ none ∨ (Value.obj fields).depth ≤ M.stack + 1 ∧
    (M.openError ≠ none ∨ (Value.scrubValue L.secrets (.obj fields)).encodable = true)

/-- What the export brings can be dealt with. -/
def Exportable (M : Machine) (L : Logger) (id : Str) (cwd : Directory) : Prop :=
  id.all argument = true ∧ (0 : CodePoint) ∉ id ∧
    match M.sessionExport id cwd with
    | .failed _ => True
    | .undecodable => False
    | .exited code raw =>
        if code ≠ 0 then Loggable L (exportFailed id code)
        else match M.loads raw with
          | .raised _ => False
          | .decodeError _ => True
          | .value (.obj fields) => Writable M L fields
          | .value _ => True

/-- Whatever session the search finds can be exported. -/
def Harmless (M : Machine) (L : Logger) (s : Sinks) : Prop :=
  M.opencode = true → ∀ id cwd s', search M L s = (.ok (some (id, cwd)), s') → id ≠ [] → Exportable M L id cwd

theorem returns_at {x : Run Unit} (h : Returns x) (s : Sinks) : ∃ s', x s = (.ok (), s') := by
  obtain ⟨_, s', hrun⟩ := h s
  exact ⟨s', hrun⟩

theorem raise_not {e : Raised} {s : Sinks} : ¬ ∃ s', (Run.raise e : Run Unit) s = (.ok (), s') := by
  rintro ⟨s', hrun⟩
  cases hrun

theorem writeSession_returns_iff (fields : List (Str × Value)) (s : Sinks) :
    (∃ s', writeSession M L fields s = (.ok (), s')) ↔ Writable M L fields := by
  have hcannot : ∀ message, Returns (cannotWrite L message) := fun _ => log_returns scalar_ofText
  unfold writeSession Writable
  cases M.mkdirError with
  | some message => exact iff_of_true (returns_at (hcannot message) s) (.inl (by simp))
  | none =>
    dsimp only
    by_cases hdepth : M.stack + 1 < (Value.obj fields).depth
    · rw [if_pos hdepth]
      refine iff_of_false raise_not ?_
      rintro (hmkdir | ⟨hle, -⟩)
      · exact hmkdir rfl
      · omega
    · rw [if_neg hdepth]
      have hle : (Value.obj fields).depth ≤ M.stack + 1 := by omega
      cases M.openError with
      | some message => exact iff_of_true (returns_at (hcannot message) s) (.inr ⟨hle, .inl (by simp)⟩)
      | none =>
        dsimp only
        rw [Run.bind_run]
        dsimp only [Run.write]
        have hall : (Value.dumpValue M.floats 0 (.scrubValue L.secrets (.obj fields)) ++ str "\n").all scalar =
            (Value.scrubValue L.secrets (.obj fields)).encodable := by
          rw [List.all_append, Value.all_dumpValue, str, scalar_ofText, Bool.and_true]
        rw [hall]
        by_cases hencodable : (Value.scrubValue L.secrets (.obj fields)).encodable = true
        · rw [if_pos hencodable]
          refine iff_of_true ?_ (.inr ⟨hle, .inr hencodable⟩)
          rw [Run.bind_run]
          exact returns_at (log_returns scalar_ofText) _
        · rw [if_neg hencodable]
          refine iff_of_false raise_not ?_
          rintro (hmkdir | ⟨-, hopen | hyes⟩)
          · exact hmkdir rfl
          · exact hopen rfl
          · exact hencodable hyes

/-- The envelope is an object of texts. -/
theorem writable_envelope (message raw : Text) : Writable M L (envelope message raw) := by
  refine .inr ⟨?_, .inr (Value.encodable_scrubValue _ ?_)⟩
  · have hdepth : (Value.obj (envelope message raw)).depth = 1 := rfl
    omega
  · simp [envelope, Value.encodable, Value.encodableFields, str, scalar_ofText]

theorem exportSession_returns_iff (id : Str) (cwd : Directory) (s : Sinks) :
    (∃ s', exportSession M L id cwd s = (.ok (), s')) ↔ Exportable M L id cwd := by
  unfold exportSession Exportable
  by_cases hargument : id.all argument = true
  · rw [if_neg (by simp [hargument])]
    by_cases hnul : (0 : CodePoint) ∈ id
    · rw [if_pos hnul]
      exact iff_of_false raise_not fun h => h.2.1 hnul
    · rw [if_neg hnul, and_iff_right hargument, and_iff_right hnul]
      cases M.sessionExport id cwd with
      | failed message => exact iff_of_true (returns_at (log_returns scalar_ofText) s) trivial
      | undecodable => exact iff_of_false raise_not fun h => h
      | exited code raw =>
        dsimp only
        by_cases hcode : code ≠ 0
        · rw [if_pos hcode, if_pos hcode]
          exact log_returns_iff s
        · rw [if_neg hcode, if_neg hcode]
          cases M.loads raw with
          | raised e => exact iff_of_false raise_not fun h => h
          | decodeError message =>
            refine iff_of_true ?_ trivial
            have hwrite : Returns (writeSession M L (envelope message raw)) := by
              intro s₁
              obtain ⟨s', hrun⟩ := (writeSession_returns_iff _ s₁).mpr (writable_envelope message raw)
              exact ⟨(), s', hrun⟩
            exact returns_at ((log_returns scalar_ofText).bind fun _ => hwrite) s
          | value v =>
            cases v with
            | obj fields => exact writeSession_returns_iff fields s
            | _ => exact iff_of_true (returns_at (log_returns scalar_ofText) s) trivial
  · rw [if_pos (by simpa using hargument)]
    exact iff_of_false raise_not fun h => hargument h.1

theorem capture_iff (s : Sinks) : (∃ s', captureSession M L s = (.ok (), s')) ↔ Harmless M L s := by
  unfold captureSession Harmless
  by_cases hopencode : M.opencode = true
  · rw [if_neg (by simp [hopencode]), Run.bind_run]
    obtain ⟨found, s₁, hsearch⟩ := search_returns (M := M) (L := L) s
    rw [hsearch]
    dsimp only
    have hpresent : ∀ {p : Prop}, (M.opencode = true → p) ↔ p := forall_prop_of_true hopencode
    rw [hpresent]
    cases found with
    | none => exact iff_of_true (returns_at (returns_pure ()) s₁) (by rintro id cwd s' heq; cases heq)
    | some session =>
      obtain ⟨id, cwd⟩ := session
      dsimp only
      by_cases hempty : id.isEmpty = true
      · rw [if_pos hempty]
        refine iff_of_true (returns_at (log_returns scalar_ofText) s₁) ?_
        intro id' cwd' s' heq hne
        cases heq
        exact absurd (List.isEmpty_iff.mp hempty) hne
      · rw [if_neg hempty, exportSession_returns_iff]
        constructor
        · intro h id' cwd' s' heq _
          cases heq
          exact h
        · intro h
          exact h id cwd s₁ rfl (by simpa using hempty)
  · rw [if_pos (by simpa using hopencode)]
    exact iff_of_true (returns_at (log_returns scalar_ofText) s) fun h => absurd h hopencode

/-- Capturing comes back, and the run ends with opencode's exit code, exactly
where the session that is found can be exported. -/
theorem capture_returns_iff (s : Sinks) : ((∃ s', captureSession M L s = (.ok (), s')) ↔ Harmless M L s) ∧
    ∀ exitCode, (∃ s', runEnd M L exitCode s = (.ok exitCode, s')) ↔ Harmless M L s := by
  refine ⟨capture_iff s, fun exitCode => ?_⟩
  rw [← capture_iff]
  unfold runEnd
  rw [Run.bind_run]
  cases captureSession M L s with
  | mk result s₁ =>
    cases result with
    | ok u => exact iff_of_true ⟨s₁, rfl⟩ ⟨s₁, rfl⟩
    | error e => exact iff_of_false (by rintro ⟨s', h⟩; cases h) (by rintro ⟨s', h⟩; cases h)

section Example

def listed : Text := "[\x7b\"id\": \"ses_1\"\x7d]".toList
def exported : Text := "\x7b\"text\": \"\\ud800\"\x7d".toList

/-- One session, exported with a lone surrogate in a string. -/
def surrogateMachine : Machine where
  opencode := true
  workDir := ["work".toList]
  home := .ok ["root".toList]
  sessionList _ := .exited 0 listed
  sessionExport _ _ := .exited 0 exported
  loads text :=
    if text = listed then .value (.arr [.obj [(str "id", .str (str "ses_1"))]])
    else if text = exported then .value (.obj [(str "text", .str [0xd800])])
    else .decodeError "Expecting value: line 1 column 1 (char 0)".toList
  float _ := .ok (.finite 0)
  str _ := .ok []
  repr _ := []
  floats := .none
  stack := 900
  mkdirError := none
  openError := none

theorem surrogate_raised :
    (captureSession surrogateMachine plainLogger ⟨[], [], 0, none⟩).1 = .error .unicodeEncodeError ∧
      (runEnd surrogateMachine plainLogger 0 ⟨[], [], 0, none⟩).1 = .error .unicodeEncodeError := by
  constructor <;> rfl

end Example

end GitlabReviewer.Entrypoint
