import GitlabReviewer.Scheduler.Jobs
import GitlabReviewer.Settings.SettingsPage

/-! # The page posted back

Every row that is ever stored passes the checks of the form again: what the page
shows of it, posted as it stands, is stored as it was, token included.
-/
namespace GitlabReviewer.Settings
open Python Foundation Models

structure LibraryOk (library : KnownLibrary) : Prop where
  url_ne : library.url ≠ []
  url_strip : strip library.url = library.url
  ref : library.ref ≠ some []
  path : library.path ≠ some []

theorem orNone_ne (value : Text) : orNone value ≠ some [] := by
  cases value <;> simp [orNone]

theorem optionalText_ok {index : ℕ} {field : String} {value : Option Json} {text : Option Text}
    (h : optionalText index field value = .ok text) : text ≠ some [] := by
  unfold optionalText at h
  split at h
  · cases h
    simp
  · cases h
    simp
  · cases h
    exact orNone_ne _
  · cases h

theorem libraryUrl_ok {index : ℕ} {value : Option Json} {url : Text} (h : libraryUrl index value = .ok url) :
    url ≠ [] ∧ strip url = url := by
  unfold libraryUrl at h
  split at h
  · cases h
  · split at h
    · cases h
    · split at h
      · cases h
      · rename_i hne
        cases h
        exact ⟨by simpa using hne, strip_strip _⟩
  · cases h

theorem knownLibrary_ok {index : ℕ} {item : Json} {library : KnownLibrary} (h : knownLibrary index item = .ok library) :
    LibraryOk library := by
  unfold knownLibrary at h
  split at h
  · dsimp only at h
    split at h
    · rename_i hurl href hpath
      cases h
      exact ⟨(libraryUrl_ok hurl).1, (libraryUrl_ok hurl).2, optionalText_ok href, optionalText_ok hpath⟩
    · cases h
  · cases h

theorem knownLibraryItems_ok {index : ℕ} {items : List Json} {libraries : List KnownLibrary}
    (h : knownLibraryItems index items = .ok libraries) : ∀ library ∈ libraries, LibraryOk library := by
  induction items generalizing index libraries with
  | nil =>
    cases h
    simp
  | cons item items ih =>
    unfold knownLibraryItems at h
    split at h
    · rename_i hitem hitems
      cases h
      exact List.forall_mem_cons.mpr ⟨knownLibrary_ok hitem, ih hitems⟩
    · cases h
    · cases h
    · cases h

theorem knownLibrary_obj {index : ℕ} {fields : List (Text × Json)} {url : Text} {ref path : Option Text}
    (hurl : libraryUrl index (fields.lookup "url".toList) = .ok url)
    (href : optionalText index ".ref" (fields.lookup "ref".toList) = .ok ref)
    (hpath : optionalText index ".path" (fields.lookup "path".toList) = .ok path) :
    knownLibrary index (.obj fields) = .ok ⟨url, ref, path⟩ := by
  unfold knownLibrary
  dsimp only
  rw [hurl, href, hpath]

theorem libraryUrl_str {url : Text} (hne : url ≠ []) (hstrip : strip url = url) (index : ℕ) :
    libraryUrl index (some (.str url)) = .ok url := by
  unfold libraryUrl
  dsimp only
  rw [hstrip]
  simp [hne]

theorem optionalText_str {text : Option Text} (h : text ≠ some []) (index : ℕ) (field : String) :
    optionalText index field (text.map Json.str) = .ok text := by
  cases text with
  | none => rfl
  | some text =>
    have hne : text ≠ [] := by simpa using h
    simp [optionalText, orNone, hne]

theorem lookup_libraryFields (library : KnownLibrary) : (libraryFields library).lookup "url".toList = some (.str library.url) ∧
    (libraryFields library).lookup "ref".toList = library.ref.map .str ∧
      (libraryFields library).lookup "path".toList = library.path.map .str := by
  obtain ⟨url, ref, path⟩ := library
  cases ref <;> cases path <;> exact ⟨rfl, rfl, rfl⟩

/-- A stored library passes its checks again. -/
theorem knownLibrary_entry {library : KnownLibrary} (h : LibraryOk library) (index : ℕ) :
    knownLibrary index (libraryEntry library) = .ok library := by
  obtain ⟨hurl, href, hpath⟩ := lookup_libraryFields library
  apply knownLibrary_obj
  · rw [hurl, libraryUrl_str h.url_ne h.url_strip]
  · rw [href, optionalText_str h.ref]
  · rw [hpath, optionalText_str h.path]

theorem knownLibraryItems_entries {libraries : List KnownLibrary} (h : ∀ library ∈ libraries, LibraryOk library) (index : ℕ) :
    knownLibraryItems index (libraries.map libraryEntry) = .ok libraries := by
  induction libraries generalizing index with
  | nil => rfl
  | cons library libraries ih =>
    rw [List.forall_mem_cons] at h
    rw [List.map_cons, knownLibraryItems, knownLibrary_entry h.1, ih h.2]

theorem dumpable_entries (F : FloatFormat) (libraries : List KnownLibrary) : Dumpable F (.arr (libraries.map libraryEntry)) := by
  unfold Dumpable
  rw [dumpableItems_iff]
  intro entry hentry
  obtain ⟨⟨url, ref, path⟩, -, rfl⟩ := List.mem_map.mp hentry
  unfold libraryEntry Dumpable
  rw [dumpableFields_iff]
  unfold libraryFields
  constructor
  · cases ref <;> cases path <;> simp
  · cases ref <;> cases path <;> simp [Dumpable]

/-- A row that passes the checks of the form. -/
structure SettingsOk (I : Interpreter) (row : StoredSettings) : Prop where
  url : strip row.gitlabUrl = row.gitlabUrl
  project : strip row.gitlabProject = row.gitlabProject
  nightly : nightlyField I row.nightlyTime = .ok row.nightlyTime
  reviews : 1 ≤ row.maxConcurrentReviews ∧ row.maxConcurrentReviews ≤ 64
  poll : 1 ≤ row.pollIntervalSeconds ∧ row.pollIntervalSeconds ≤ 86400
  libraries : ∃ libraries : List KnownLibrary, row.knownLibraries = libraries.map libraryEntry ∧ ∀ library ∈ libraries, LibraryOk library

section Row
variable {I : Interpreter}

theorem maxReviewsField_eq_ok_iff {value saved : ℤ} : maxReviewsField value = .ok saved ↔ saved = value ∧ 1 ≤ value ∧ value ≤ 64 := by
  unfold maxReviewsField
  split
  · simp only [reduceCtorEq, false_iff]
    omega
  · split
    · simp only [reduceCtorEq, false_iff]
      omega
    · rw [Except.ok.injEq]
      omega

theorem nightlyField_again {value saved : Text} (h : nightlyField I value = .ok saved) : nightlyField I saved = .ok saved := by
  unfold nightlyField at h
  split at h
  · rename_i hmatch
    cases h
    unfold nightlyField
    rw [strip_strip, if_pos hmatch]
  · cases h

theorem knownLibrariesField_ok {value : Text} {libraries : List KnownLibrary} (h : knownLibrariesField I value = .ok libraries) :
    ∀ library ∈ libraries, LibraryOk library := by
  unfold knownLibrariesField at h
  split at h
  · cases h
    simp
  · split at h
    · cases h
    · exact knownLibraryItems_ok h
    · cases h

theorem settingsForm_eq_ok_iff {submission : SettingsSubmission} {maxReviews pollSeconds : ℤ} {form : SettingsForm} :
    settingsForm I submission maxReviews pollSeconds = .ok form ↔
      knownLibrariesField I submission.knownLibraries = .ok form.knownLibraries ∧
        nightlyField I submission.nightlyTime = .ok form.nightlyTime ∧ maxReviewsField maxReviews = .ok form.maxConcurrentReviews ∧
          pollIntervalField pollSeconds = .ok form.pollIntervalSeconds := by
  unfold settingsForm
  dsimp only
  constructor
  · intro h
    split at h
    · cases h
      exact ⟨by assumption, by assumption, by assumption, by assumption⟩
    · cases h
  · rintro ⟨hlibraries, hnightly, hreviews, hpoll⟩
    rw [hlibraries, hnightly, hreviews, hpoll]

theorem validateSettings_ok {submission : SettingsSubmission} {form : SettingsForm} (h : validateSettings I submission = .ok form) :
    (∀ library ∈ form.knownLibraries, LibraryOk library) ∧ nightlyField I form.nightlyTime = .ok form.nightlyTime ∧
      (1 ≤ form.maxConcurrentReviews ∧ form.maxConcurrentReviews ≤ 64) ∧
        1 ≤ form.pollIntervalSeconds ∧ form.pollIntervalSeconds ≤ 86400 := by
  unfold validateSettings at h
  split at h
  · obtain ⟨hlibraries, hnightly, hreviews, hpoll⟩ := settingsForm_eq_ok_iff.mp h
    obtain ⟨hreviewsEq, hreviews⟩ := maxReviewsField_eq_ok_iff.mp hreviews
    obtain ⟨hpollEq, hpoll⟩ := pollIntervalField_eq_ok_iff.mp hpoll
    exact ⟨knownLibrariesField_ok hlibraries, nightlyField_again hnightly, hreviewsEq ▸ hreviews, hpollEq ▸ hpoll⟩
  · cases h

theorem settingsOk_saved {K : Fernet} {submission : SettingsSubmission} {form : SettingsForm} {row : StoredSettings}
    (h : validateSettings I submission = .ok form) : SettingsOk I (saved K submission form row) := by
  obtain ⟨hlibraries, hnightly, hreviews, hpoll⟩ := validateSettings_ok h
  exact ⟨strip_strip _, strip_strip _, hnightly, hreviews, hpoll, form.knownLibraries, rfl, hlibraries⟩

theorem settingsOk_initial (hI : DecimalDigits I) : SettingsOk I initialSettings := by
  have hdigit : ∀ c : Char, c.toNat < 128 → (I.digit c).isSome = isDigit c := by
    intro c hc
    rw [hI.ascii c hc]
    split <;> simp_all
  refine ⟨rfl, rfl, ?_, by decide, by decide, [], rfl, by simp⟩
  have hmatch : nightlyMatch I (strip initialSettings.nightlyTime) = true := by
    show nightlyMatch I ['0', '2', ':', '3', '0'] = true
    simp [nightlyMatch, nightlyRe, anyDigit, Regex.rests, Regex.oneRest, hdigit, isDigit]
  unfold nightlyField
  rw [if_pos hmatch]
  rfl

theorem settingsSave_cases (accepts : StoredSettings → Bool) (K : Fernet) (submission : SettingsSubmission) (row : StoredSettings) :
    (∃ form, validateSettings I submission = .ok form ∧
        settingsSave I accepts K submission row = (.ok .saved, saved K submission form row)) ∨
      (settingsSave I accepts K submission row).1 ≠ .ok .saved ∧ (settingsSave I accepts K submission row).2 = row := by
  unfold settingsSave
  split
  · exact .inr ⟨by simp, rfl⟩
  · rename_i form hform
    split
    · exact .inl ⟨form, hform, rfl⟩
    · exact .inr ⟨by simp, rfl⟩

theorem natAbs_lt {n : ℤ} (h : 1 ≤ n) (htop : n ≤ 86400) : n.natAbs < 10 ^ intMaxStrDigits :=
  (show n.natAbs ≤ 86400 by omega).trans_lt (by decide +kernel)

/-- The numbers of the page are read as they were shown. -/
theorem parseInt_reprInt (hI : DecimalDigits I) {n : ℤ} (h : 1 ≤ n) (htop : n.natAbs < 10 ^ intMaxStrDigits) :
    parseInt I (reprInt n) = some n := by
  have hascii : Gitlab.AsciiDigits I := by
    intro c hc
    have hrange : c.toNat < 128 := by
      simp only [isDigit, Bool.and_eq_true, decide_eq_true_eq] at hc
      have hmax : c.toNat ≤ 57 := UInt32.le_iff_toNat_le.mp hc.2
      omega
    rw [hI.ascii c hrange, if_pos hc]
  have hshort : ¬ intMaxStrDigits < (decimal n.natAbs).length := Nat.not_lt.mpr (length_decimal htop)
  unfold reprInt
  rw [if_neg (by omega), Gitlab.parseInt_decimal_eq hascii, if_neg hshort]
  congr 1
  omega

theorem knownLibrariesField_shown {libraries : List KnownLibrary} (h : ∀ library ∈ libraries, LibraryOk library) :
    knownLibrariesField I (if (libraries.map libraryEntry).isEmpty then []
      else dumps I.floats true (some 2) (.arr (libraries.map libraryEntry))) = .ok libraries := by
  have hload := loads_dumps true (some 2) (dumpable_entries I.floats libraries) [] [] (by simp) (by simp)
  rw [List.nil_append, List.append_nil] at hload
  split
  · rename_i hempty
    rw [List.isEmpty_iff, List.map_eq_nil_iff] at hempty
    rw [hempty]
    rfl
  · unfold knownLibrariesField
    have hne : (dumps I.floats true (some 2) (.arr (libraries.map libraryEntry))).isEmpty = false := by
      rw [List.isEmpty_eq_false_iff]
      intro hnil
      rw [hnil] at hload
      cases hload
    rw [if_neg (by rw [hne]; decide), hload]
    exact knownLibraryItems_entries h 0

/-- What the page shows of a row passes the checks. -/
theorem validateSettings_shown (hI : DecimalDigits I) {row : StoredSettings} (h : SettingsOk I row) {libraries : List KnownLibrary}
    (hrow : row.knownLibraries = libraries.map libraryEntry) (hlibraries : ∀ library ∈ libraries, LibraryOk library) (defaultPrompt : Text) :
    validateSettings I (shownSettings I defaultPrompt row) =
      .ok ⟨libraries, row.nightlyTime, row.maxConcurrentReviews, row.pollIntervalSeconds⟩ := by
  have hform : settingsForm I (shownSettings I defaultPrompt row) row.maxConcurrentReviews row.pollIntervalSeconds =
      .ok ⟨libraries, row.nightlyTime, row.maxConcurrentReviews, row.pollIntervalSeconds⟩ := by
    rw [settingsForm_eq_ok_iff]
    refine ⟨?_, h.nightly, maxReviewsField_eq_ok_iff.mpr ⟨rfl, h.reviews⟩, pollIntervalField_eq_ok_iff.mpr ⟨rfl, h.poll⟩⟩
    unfold shownSettings
    dsimp only
    rw [hrow]
    exact knownLibrariesField_shown hlibraries
  unfold validateSettings
  have hreviews : parseInt I (shownSettings I defaultPrompt row).maxConcurrentReviews = some row.maxConcurrentReviews :=
    parseInt_reprInt hI h.reviews.1 (natAbs_lt h.reviews.1 (h.reviews.2.trans (by decide)))
  have hpoll : parseInt I (shownSettings I defaultPrompt row).pollIntervalSeconds = some row.pollIntervalSeconds :=
    parseInt_reprInt hI h.poll.1 (natAbs_lt h.poll.1 h.poll.2)
  rw [hreviews, hpoll]
  exact hform

/-- The page of a row, posted as it stands: only the prompt that stood in for an empty one is new. -/
theorem saved_shown {row : StoredSettings} (h : SettingsOk I row) {libraries : List KnownLibrary}
    (hrow : row.knownLibraries = libraries.map libraryEntry) (K : Fernet) (defaultPrompt : Text) :
    saved K (shownSettings I defaultPrompt row)
        ⟨libraries, row.nightlyTime, row.maxConcurrentReviews, row.pollIntervalSeconds⟩ row =
      { row with defaultReviewPrompt := (shownSettings I defaultPrompt row).defaultReviewPrompt } := by
  have hblank : (strip ([] : Text)).isEmpty = true := rfl
  unfold saved shownSettings
  simp only [h.url, h.project, ← hrow, hblank, if_true]

end Row

/-- What is encrypted is opened by the key of the application. -/
structure Opens (A K : Fernet) : Prop where
  nonempty : ∀ value, K.encrypt value ≠ []
  decrypt : ∀ value, A.decrypt (K.encrypt value) = some value

/-- The token that was typed last, in a submission that was saved. -/
def typedToken (answer : Except DbError SavePage) (submission : SettingsSubmission) (before : Text) : Text :=
  match answer with
  | .ok .saved => if (strip submission.gitlabToken).isEmpty then before else strip submission.gitlabToken
  | _ => before

/-- The rows that submissions, saved or not, and syncs of the merge requests lead to, each with the token typed last. -/
inductive SettingsReached (I : Interpreter) (A : Fernet) : StoredSettings → Text → Prop
  | initial : SettingsReached I A initialSettings []
  | save {row : StoredSettings} {typed : Text} (h : SettingsReached I A row typed) (accepts : StoredSettings → Bool) {K : Fernet}
      (hK : Opens A K) (submission : SettingsSubmission) :
      SettingsReached I A (settingsSave I accepts K submission row).2
        (typedToken (settingsSave I accepts K submission row).1 submission typed)
  | sync {row : StoredSettings} {typed : Text} (h : SettingsReached I A row typed) (branch : Option Text) :
      SettingsReached I A { row with gitlabDefaultBranch := branch } typed

section Runs
variable {I : Interpreter} {A : Fernet}

theorem SettingsReached.ok (hI : DecimalDigits I) {row : StoredSettings} {typed : Text} (h : SettingsReached I A row typed) :
    SettingsOk I row := by
  induction h with
  | initial => exact settingsOk_initial hI
  | @save row typed _ accepts K _ submission ih =>
    rcases settingsSave_cases accepts K submission row with ⟨form, hform, hsave⟩ | ⟨-, hsame⟩
    · rw [hsave]
      exact settingsOk_saved hform
    · rwa [hsame]
  | sync _ branch ih => exact ⟨ih.url, ih.project, ih.nightly, ih.reviews, ih.poll, ih.libraries⟩

theorem typedToken_of_ne {answer : Except DbError SavePage} (h : answer ≠ .ok .saved) (submission : SettingsSubmission) (before : Text) :
    typedToken answer submission before = before := by
  unfold typedToken
  split
  · exact absurd rfl h
  · rfl

theorem SettingsReached.token {row : StoredSettings} {typed : Text} (h : SettingsReached I A row typed) :
    decryptSecret A row.gitlabToken = some typed := by
  induction h with
  | initial => rfl
  | @save row typed _ accepts K hK submission ih =>
    rcases settingsSave_cases accepts K submission row with ⟨form, hform, hsave⟩ | ⟨hanswer, hsame⟩
    · rw [hsave]
      unfold typedToken saved
      dsimp only
      split
      · exact ih
      · rename_i hne
        have hkept : (K.encrypt (strip submission.gitlabToken)).isEmpty = false := by
          simpa using hK.nonempty (strip submission.gitlabToken)
        unfold encryptSecret decryptSecret
        rw [if_neg hne, hkept, if_neg (by simp), hK.decrypt]
    · rw [hsame, typedToken_of_ne hanswer]
      exact ih
  | sync _ branch ih => exact ih

/-- After any submissions, valid or not, and any syncs: the values are in their ranges, the scheduler can read the nightly
time, the token opens to the one typed last, although the page never shows it; and the page, posted back as it stands, is
accepted and stores every column as it was, but an empty prompt, which becomes the bundled one that was shown. -/
theorem settings_page_fixed (hI : DecimalDigits I) {row : StoredSettings} {typed : Text} (h : SettingsReached I A row typed) :
    (1 ≤ row.maxConcurrentReviews ∧ row.maxConcurrentReviews ≤ 64) ∧
      (1 ≤ row.pollIntervalSeconds ∧ row.pollIntervalSeconds ≤ 86400) ∧
      (∃ hour minute, parseNightly I (some row.nightlyTime) = some (hour, minute)) ∧ decryptSecret A row.gitlabToken = some typed ∧
      ∀ (accepts : StoredSettings → Bool) (K : Fernet) (defaultPrompt : Text),
        let shown := shownSettings I defaultPrompt row
        let row' : StoredSettings := { row with defaultReviewPrompt := shown.defaultReviewPrompt }
        settingsSave I accepts K shown row = if accepts row' then (.ok .saved, row') else (.error .data, row) := by
  have hok := h.ok hI
  obtain ⟨libraries, hrow, hlibraries⟩ := hok.libraries
  refine ⟨hok.reviews, hok.poll, parseNightly_of_nightlyField hI hok.nightly, h.token, ?_⟩
  intro accepts K defaultPrompt shown row'
  have hvalid : validateSettings I shown = _ := validateSettings_shown hI hok hrow hlibraries defaultPrompt
  have hsaved : saved K shown _ row = row' := saved_shown hok hrow K defaultPrompt
  unfold settingsSave
  rw [hvalid]
  dsimp only
  rw [hsaved]

end Runs

/-- A key whose texts anybody can read. -/
def marking : Fernet := ⟨fun value => 'k' :: value, fun token => token.tail?⟩

theorem reached_marking {submission : SettingsSubmission} {typed : Text}
    (h : typedToken (settingsSave Gitlab.plainStdlib.ints (fun _ => true) marking submission initialSettings).1 submission [] = typed) :
    SettingsReached Gitlab.plainStdlib.ints marking
      (settingsSave Gitlab.plainStdlib.ints (fun _ => true) marking submission initialSettings).2 typed := by
  rw [← h]
  exact .save .initial (fun _ => true) ⟨fun _ => List.cons_ne_nil _ _, fun _ => rfl⟩ submission

def sampleSubmission : SettingsSubmission where
  gitlabUrl := " https://gitlab.example.com ".toList
  gitlabProject := "group/app".toList
  gitlabToken := " secret ".toList
  defaultReviewPrompt := []
  knownLibraries := "[\x7b\"url\": \" https://git.example.com/liba.git \", \"ref\": \"\"\x7d]".toList
  nightlyTime := "03:15".toList
  maxConcurrentReviews := "4".toList
  pollIntervalSeconds := "60".toList
  postResultsToGitlab := true

def savedSample : StoredSettings :=
  (settingsSave Gitlab.plainStdlib.ints (fun _ => true) marking sampleSubmission initialSettings).2

theorem settings_page_fixed_sample : savedSample.knownLibraries = [.obj [("url".toList, .str "https://git.example.com/liba.git".toList)]] ∧
    decryptSecret marking savedSample.gitlabToken = some "secret".toList ∧
      (settingsSave Gitlab.plainStdlib.ints (fun _ => true) marking
        (shownSettings Gitlab.plainStdlib.ints "bundled".toList savedSample) savedSample) =
          (.ok .saved, { savedSample with defaultReviewPrompt := "bundled".toList }) := by
  have hreached : SettingsReached Gitlab.plainStdlib.ints marking savedSample "secret".toList := reached_marking (by decide +kernel)
  obtain ⟨-, -, -, htoken, hshown⟩ := settings_page_fixed Scheduler.decimalDigits_plain hreached
  have hprompt : (shownSettings Gitlab.plainStdlib.ints "bundled".toList savedSample).defaultReviewPrompt = "bundled".toList := by
    decide +kernel
  have hlibraries : (savedSample.knownLibraries == [.obj [("url".toList, .str "https://git.example.com/liba.git".toList)]]) = true := by
    decide +kernel
  refine ⟨eq_of_beq hlibraries, htoken, (hshown (fun _ => true) marking "bundled".toList).trans ?_⟩
  rw [if_pos rfl, hprompt]

end GitlabReviewer.Settings
