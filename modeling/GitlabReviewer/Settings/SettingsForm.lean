import GitlabReviewer.Foundation.Regex
import GitlabReviewer.Settings.ProfileForm

/-! # The times of the settings form

The form checks the nightly time with a pattern, the scheduler splits it at the
colon and converts the two halves. What the pattern lets through is an hour and
a minute to the scheduler.
-/
namespace GitlabReviewer.Settings
open Python Foundation

section Form
variable (I : Interpreter)

/-- `\d`. -/
def anyDigit : Regex Char := .one fun c => (I.digit c).isSome

/-- `_NIGHTLY_RE` without its anchors. -/
def nightlyRe : Regex Char :=
  .seq (.alt (.seq (.one fun c => c == '0' || c == '1') (anyDigit I)) (.seq (.one (· == '2')) (.one fun c => '0' ≤ c && c ≤ '3')))
    (.seq (.one (· == ':')) (.seq (.one fun c => '0' ≤ c && c ≤ '5') (anyDigit I)))

/-- `_NIGHTLY_RE.match`; `$` also stands before a newline at the end. -/
def nightlyMatch (value : Text) : Bool := (Regex.rests (nightlyRe I) value).any fun rest => rest == [] || rest == ['\n']

/-- `SettingsForm._nightly`. -/
def nightlyField (value : Text) : Except Text Text :=
  if nightlyMatch I (strip value) then .ok (strip value)
  else .error (fieldError "nightly_time" "Value error, must look like HH:MM (24h), e.g. 02:30")

/-- `SettingsForm.poll_interval_seconds`, an integer of at most a day. -/
def pollIntervalField (value : ℤ) : Except Text ℤ :=
  if value < 1 then .error (fieldError "poll_interval_seconds" "Input should be greater than or equal to 1")
  else if 86400 < value then .error (fieldError "poll_interval_seconds" "Input should be less than or equal to 86400")
  else .ok value

theorem pollIntervalField_eq_ok_iff {value saved : ℤ} : pollIntervalField value = .ok saved ↔
    saved = value ∧ 1 ≤ value ∧ value ≤ 86400 := by
  unfold pollIntervalField
  split
  · simp only [reduceCtorEq, false_iff]
    omega
  · split
    · simp only [reduceCtorEq, false_iff]
      omega
    · rw [Except.ok.injEq]
      omega

/-- `str(nightly_time)`. -/
def strOption : Option Text → Text
  | some text => text
  | none => "None".toList

/-- The hour and the minute of a valid `HH:MM`. -/
def parseNightly (nightlyTime : Option Text) : Option (ℤ × ℤ) :=
  match splitOn ':' (strip (strOption nightlyTime)) with
  | [hours, minutes] =>
      match parseInt I hours, parseInt I minutes with
      | some hour, some minute =>
          if 0 ≤ hour ∧ hour ≤ 23 ∧ 0 ≤ minute ∧ minute ≤ 59 then some (hour, minute) else none
      | _, _ => none
  | _ => none

end Form

/-- The decimal digits: the ASCII ones have their values, all values are below
ten, and no digit is a blank. -/
structure DecimalDigits (I : Interpreter) : Prop where
  ascii : ∀ c : Char, c.toNat < 128 → I.digit c = if isDigit c then some (c.toNat - 48) else none
  value : ∀ c d, I.digit c = some d → d < 10
  solid : ∀ c, (I.digit c).isSome → isSpace c = false

section Accepted
variable {I : Interpreter}

/-- A part of the time: digits only, with their value. -/
structure Part (I : Interpreter) (s : Text) (n : ℕ) : Prop where
  digits : ∀ c ∈ s, (I.digit c).isSome
  value : parseInt I s = some (n : ℤ)

theorem ne_of_digit {c d : Char} (hc : I.digit c = none) (hd : (I.digit d).isSome) : d ≠ c := by
  rintro rfl
  rw [hc] at hd
  cases hd

/-- Two digits are read as tens and ones. -/
theorem part_pair (hI : DecimalDigits I) {a b : Char} {x y : ℕ} (ha : I.digit a = some x) (hb : I.digit b = some y) :
    Part I [a, b] (10 * x + y) := by
  have hdigits : ∀ c ∈ [a, b], (I.digit c).isSome := by
    intro c hc
    rcases List.mem_pair.mp hc with rfl | rfl
    · rw [ha]
      rfl
    · rw [hb]
      rfl
  have hspace : ∀ c ∈ [a, b], isSpace c = false := fun c hc => hI.solid c (hdigits c hc)
  have hminus : a ≠ '-' := ne_of_digit (hI.ascii '-' (by decide)) (hdigits a (by simp))
  have hplus : a ≠ '+' := ne_of_digit (hI.ascii '+' (by decide)) (hdigits a (by simp))
  have hunder : b ≠ '_' := ne_of_digit (hI.ascii '_' (by decide)) (hdigits b (by simp))
  have hrun : digitRun I [a, b] = some [x, y] := by
    rw [digitRun]
    · rw [ha, digitRun, hb]
      rfl
    · simp
    · intro rest heq
      exact hunder (List.cons.inj heq).1
  refine ⟨hdigits, ?_⟩
  unfold parseInt
  rw [strip, stripBy_of_forall hspace]
  split
  rename_i negative digits hsign
  obtain ⟨rfl, rfl⟩ : false = negative ∧ [a, b] = digits := by
    split at hsign
    · rename_i heq
      exact absurd (List.cons.inj heq).1 hminus
    · rename_i heq
      exact absurd (List.cons.inj heq).1 hplus
    · exact ⟨(Prod.mk.inj hsign).1, (Prod.mk.inj hsign).2⟩
  rw [hrun]
  simp [intMaxStrDigits]

/-- A class and a digit. -/
theorem matches_pair {p q : Char → Bool} {s : Text} (h : Regex.Matches (.seq (.one p) (.one q)) s) :
    ∃ a b, s = [a, b] ∧ p a = true ∧ q b = true := by
  obtain ⟨a, v, rfl, ha, hv⟩ := h.of_one_seq
  obtain ⟨b, rfl, hb⟩ := hv.of_one
  exact ⟨a, b, rfl, ha, hb⟩

theorem digit_of_range (hI : DecimalDigits I) {c top : Char} (htop : top ≤ '9') (h : ('0' ≤ c && c ≤ top) = true) :
    ∃ x, I.digit c = some x ∧ x ≤ top.toNat - 48 := by
  rw [Bool.and_eq_true, decide_eq_true_eq, decide_eq_true_eq] at h
  have hlow : 48 ≤ c.toNat := UInt32.le_iff_toNat_le.mp h.1
  have hhigh : c.toNat ≤ top.toNat := UInt32.le_iff_toNat_le.mp h.2
  have hnine : top.toNat ≤ 57 := UInt32.le_iff_toNat_le.mp htop
  have hdigit : isDigit c = true := by
    rw [isDigit, Bool.and_eq_true, decide_eq_true_eq, decide_eq_true_eq]
    exact ⟨h.1, Char.le_trans h.2 htop⟩
  refine ⟨c.toNat - 48, ?_, by omega⟩
  rw [hI.ascii c (by omega), if_pos hdigit]

theorem part_hours (hI : DecimalDigits I) {s : Text} (h : Regex.Matches (.alt (.seq (.one fun c => c == '0' || c == '1') (anyDigit I))
    (.seq (.one (· == '2')) (.one fun c => '0' ≤ c && c ≤ '3'))) s) : ∃ hour ≤ 23, Part I s hour := by
  have hascii : I.digit '0' = some 0 ∧ I.digit '1' = some 1 ∧ I.digit '2' = some 2 :=
    ⟨hI.ascii '0' (by decide), hI.ascii '1' (by decide), hI.ascii '2' (by decide)⟩
  cases h with
  | left h =>
    obtain ⟨a, b, rfl, ha, hb⟩ := matches_pair h
    obtain ⟨y, hy⟩ := Option.isSome_iff_exists.mp hb
    have hten := hI.value b y hy
    rw [Bool.or_eq_true, beq_iff_eq, beq_iff_eq] at ha
    rcases ha with rfl | rfl
    · exact ⟨_, by omega, part_pair hI hascii.1 hy⟩
    · exact ⟨_, by omega, part_pair hI hascii.2.1 hy⟩
  | right h =>
    obtain ⟨a, b, rfl, ha, hb⟩ := matches_pair h
    obtain rfl := beq_iff_eq.mp ha
    obtain ⟨y, hy, hle⟩ := digit_of_range hI (by decide) hb
    have hthree : y ≤ 3 := hle
    exact ⟨_, by omega, part_pair hI hascii.2.2 hy⟩

theorem part_minutes (hI : DecimalDigits I) {s : Text}
    (h : Regex.Matches (.seq (.one fun c => '0' ≤ c && c ≤ '5') (anyDigit I)) s) : ∃ minute ≤ 59, Part I s minute := by
  obtain ⟨a, b, rfl, ha, hb⟩ := matches_pair h
  obtain ⟨x, hx, hle⟩ := digit_of_range hI (by decide) ha
  obtain ⟨y, hy⟩ := Option.isSome_iff_exists.mp hb
  have hten := hI.value b y hy
  have hfive : x ≤ 5 := hle
  exact ⟨_, by omega, part_pair hI hx hy⟩

/-- What the pattern matches is an hour, a colon and a minute. -/
theorem parts_of_matches (hI : DecimalDigits I) {s : Text} (h : Regex.Matches (nightlyRe I) s) : ∃ hours minutes : Text, ∃ hour ≤ 23,
    ∃ minute ≤ 59, s = hours ++ ':' :: minutes ∧ Part I hours hour ∧ Part I minutes minute := by
  obtain ⟨hours, rest, rfl, hhours, hrest⟩ := h.of_seq
  obtain ⟨c, minutes, rfl, hc, hminutes⟩ := hrest.of_one_seq
  obtain rfl := beq_iff_eq.mp hc
  obtain ⟨hour, hhour, hpart⟩ := part_hours hI hhours
  obtain ⟨minute, hminute, hpart'⟩ := part_minutes hI hminutes
  exact ⟨hours, minutes, hour, hhour, minute, hminute, rfl, hpart, hpart'⟩

/-- Such a time is read by the scheduler, with or without a newline behind it. -/
theorem parseNightly_parts (hI : DecimalDigits I) {hours minutes text : Text} {hour minute : ℕ} (hhours : Part I hours hour)
    (hminutes : Part I minutes minute) (hhour : hour ≤ 23) (hminute : minute ≤ 59)
    (htext : strip text = strip (hours ++ ':' :: minutes)) : parseNightly I (some text) = some ((hour : ℤ), (minute : ℤ)) := by
  have hnone : I.digit ':' = none := hI.ascii ':' (by decide)
  have hcolon : ∀ {s : Text} {n : ℕ}, Part I s n → splitOn ':' s = [s] := by
    intro s n hs
    exact splitOn_of_not_mem fun hmem => ne_of_digit hnone (hs.digits ':' hmem) rfl
  have hsolid : ∀ c ∈ hours ++ ':' :: minutes, isSpace c = false := by
    intro c hc
    rcases List.mem_append.mp hc with hc | hc
    · exact hI.solid c (hhours.digits c hc)
    · rcases List.mem_cons.mp hc with rfl | hc
      · decide
      · exact hI.solid c (hminutes.digits c hc)
  have hsplit : splitOn ':' (strip (strOption (some text))) = [hours, minutes] := by
    rw [strOption, htext, strip, stripBy_of_forall hsolid, splitOn_append, hcolon hhours, hcolon hminutes]
    rfl
  unfold parseNightly
  rw [hsplit]
  dsimp only
  rw [hhours.value, hminutes.value]
  dsimp only
  rw [if_pos (by omega)]

/-- What the form accepts, the scheduler reads. -/
theorem parseNightly_of_nightlyField (hI : DecimalDigits I) {value saved : Text} (h : nightlyField I value = .ok saved) :
    ∃ hour minute, parseNightly I (some saved) = some (hour, minute) := by
  unfold nightlyField at h
  split at h
  · rename_i hmatch
    cases h
    obtain ⟨rest, hrest, hend⟩ := List.any_eq_true.mp hmatch
    obtain ⟨s, hs, heq⟩ := Regex.mem_rests.mp hrest
    obtain ⟨hours, minutes, hour, hhour, minute, hminute, rfl, hhours, hminutes⟩ := parts_of_matches hI hs
    refine ⟨hour, minute, parseNightly_parts hI hhours hminutes hhour hminute ?_⟩
    rw [heq]
    rcases Bool.or_eq_true _ _ ▸ hend with hend | hend
    · rw [beq_iff_eq.mp hend, List.append_nil]
    · rw [beq_iff_eq.mp hend, strip_append_newline]
  · cases h

end Accepted

end GitlabReviewer.Settings
