import GitlabReviewer.Python.JsonScanner
import GitlabReviewer.Settings.References
import GitlabReviewer.Settings.SettingsFixed

/-! # The edit page of a profile posted back

A profile is only ever written from a form that was checked. What its edit page
shows of it, posted as it stands, passes the checks again and changes nothing.
-/
namespace GitlabReviewer.Settings
open Python Foundation Models

/-- `_edit_profile_raw` as it is posted; the key is not shown. -/
def editProfileRaw (I : Interpreter) (profile : ModelProfile) : Submission where
  name := profile.name
  provider := profile.provider
  modelId := profile.modelId
  baseUrl := profile.baseUrl.getD []
  apiKey := []
  apiKeyEnv := profile.apiKeyEnv.getD []
  isDefault := profile.isDefault
  extraOpencodeJson :=
    if truthyJson profile.extraOpencodeJson then dumps I.floats true (some 2) profile.extraOpencodeJson else "\x7b\x7d".toList
  contextWindow :=
    match profile.contextWindow with
    | some window => if window ≠ 0 then reprInt window else []
    | none => []

structure ProfileOk (I : Interpreter) (profile : ModelProfile) : Prop where
  name : profile.name ≠ [] ∧ strip profile.name = profile.name
  provider : profile.provider = anthropicProvider ∨ profile.provider = localProvider
  modelId : profile.modelId ≠ [] ∧ strip profile.modelId = profile.modelId
  baseUrl : profile.baseUrl ≠ some [] ∧ strip (profile.baseUrl.getD []) = profile.baseUrl.getD []
  endpoint : profile.provider = localProvider → profile.baseUrl ≠ none
  apiKeyEnv : profile.apiKeyEnv ≠ some [] ∧ strip (profile.apiKeyEnv.getD []) = profile.apiKeyEnv.getD []
  extras : ∃ fields, profile.extraOpencodeJson = .obj fields ∧ Dumpable I.floats (.obj fields)
  window : ∀ n ∈ profile.contextWindow, 1 ≤ n ∧ n < 10 ^ intMaxStrDigits

theorem orNone_getD (value : Text) : (orNone value).getD [] = value := by
  cases value <;> rfl

theorem orNone_getD_of_ne {value : Option Text} (h : value ≠ some []) : orNone (value.getD []) = value := by
  cases value with
  | none => rfl
  | some text =>
    have hne : text ≠ [] := by simpa using h
    simp [orNone, hne]

section Window
variable {I : Interpreter}

theorem digitRun_lt (hI : DecimalDigits I) {text : Text} {ds : List ℕ} (h : digitRun I text = some ds) : ∀ d ∈ ds, d < 10 := by
  induction text using digitRun.induct generalizing ds with
  | case1 => cases h
  | case2 c =>
    obtain ⟨d, hd, rfl⟩ := Option.map_eq_some_iff.mp h
    exact List.forall_mem_singleton.mpr (hI.value c d hd)
  | case3 c rest ih =>
    obtain ⟨d, hd, ds', hds, rfl⟩ : ∃ d, I.digit c = some d ∧ ∃ ds', digitRun I rest = some ds' ∧ d :: ds' = ds := by
      simpa [digitRun, Option.bind_eq_some_iff] using h
    exact List.forall_mem_cons.mpr ⟨hI.value c d hd, ih hds⟩
  | case4 c rest hne hsep ih =>
    obtain ⟨d, hd, ds', hds, rfl⟩ : ∃ d, I.digit c = some d ∧ ∃ ds', digitRun I rest = some ds' ∧ d :: ds' = ds := by
      simpa [digitRun, Option.bind_eq_some_iff] using h
    exact List.forall_mem_cons.mpr ⟨hI.value c d hd, ih hds⟩

theorem foldl_digits_lt {ds : List ℕ} (h : ∀ d ∈ ds, d < 10) (n : ℕ) :
    ds.foldl (fun n d => 10 * n + d) n < (n + 1) * 10 ^ ds.length := by
  induction ds generalizing n with
  | nil => simp
  | cons d ds ih =>
    rw [List.forall_mem_cons] at h
    calc ds.foldl (fun n d => 10 * n + d) (10 * n + d)
        < (10 * n + d + 1) * 10 ^ ds.length := ih h.2 _
      _ ≤ (10 * (n + 1)) * 10 ^ ds.length := Nat.mul_le_mul_right _ (by have := h.1; omega)
      _ = (n + 1) * 10 ^ (d :: ds).length := by rw [List.length_cons, pow_succ]; ring

theorem parseInt_lt (hI : DecimalDigits I) {text : Text} {n : ℤ} (h : parseInt I text = some n) : n < 10 ^ intMaxStrDigits := by
  have hread : ∀ {negative : Bool} {ds : List ℕ}, (∀ d ∈ ds, d < 10) → ¬ intMaxStrDigits < ds.length →
      (if negative then -((ds.foldl (fun n d => 10 * n + d) 0 : ℕ) : ℤ) else ((ds.foldl (fun n d => 10 * n + d) 0 : ℕ) : ℤ)) <
        10 ^ intMaxStrDigits := by
    intro negative ds hds hlength
    have hlt : ds.foldl (fun n d => 10 * n + d) 0 < 10 ^ intMaxStrDigits := by
      calc ds.foldl (fun n d => 10 * n + d) 0
          < (0 + 1) * 10 ^ ds.length := foldl_digits_lt hds 0
        _ = 10 ^ ds.length := by rw [Nat.zero_add, Nat.one_mul]
        _ ≤ 10 ^ intMaxStrDigits := Nat.pow_le_pow_right (by decide) (Nat.not_lt.mp hlength)
    have hcast : ((ds.foldl (fun n d => 10 * n + d) 0 : ℕ) : ℤ) < 10 ^ intMaxStrDigits := by exact_mod_cast hlt
    split
    · exact lt_of_le_of_lt (neg_nonpos.mpr (Int.natCast_nonneg _)) (by positivity)
    · exact hcast
  unfold parseInt at h
  dsimp only at h
  split at h
  · cases h
  · rename_i ds hds
    split at h
    · cases h
    · rename_i hlength
      rw [← Option.some.inj h]
      exact hread (digitRun_lt hI hds) hlength

end Window

section Form
variable {I : Interpreter}

theorem required_ok {field : String} {value text : Text} (h : required field value = .ok text) : text ≠ [] ∧ strip text = text := by
  unfold required at h
  split at h
  · cases h
  · rename_i hne
    cases h
    exact ⟨by simpa using hne, strip_strip _⟩

theorem required_again {text : Text} (h : text ≠ [] ∧ strip text = text) (field : String) : required field text = .ok text := by
  unfold required
  rw [h.2, if_neg (by simpa using h.1)]

theorem parseJsonField_ok {value : Text} {fields : List (Text × Json)} (h : parseJsonField I value = .ok fields) :
    Dumpable I.floats (.obj fields) := by
  unfold parseJsonField at h
  split at h
  · cases h
    exact dumpable_of_loads (t := "\x7b\x7d".toList) (by rfl)
  · split at h
    · cases h
    · rename_i hload
      cases h
      exact dumpable_of_loads hload
    · cases h

/-- The checks, taken together. -/
structure FormOk (I : Interpreter) (form : ModelProfileForm) : Prop where
  name : form.name ≠ [] ∧ strip form.name = form.name
  provider : form.provider = anthropicProvider ∨ form.provider = localProvider
  modelId : form.modelId ≠ [] ∧ strip form.modelId = form.modelId
  baseUrl : strip form.baseUrl = form.baseUrl
  endpoint : form.provider = localProvider → form.baseUrl ≠ []
  extras : Dumpable I.floats (.obj form.extraOpencodeJson)
  window : ∀ n ∈ form.contextWindow, 1 ≤ n ∧ n < 10 ^ intMaxStrDigits

theorem formOk_of_checked {submission : Submission} {window : Option ℤ} (hwindow : ∀ n ∈ window, n < 10 ^ intMaxStrDigits)
    {form : ModelProfileForm} (h : modelProfileForm I submission window = .ok form) : FormOk I form := by
  unfold modelProfileForm at h
  dsimp only at h
  split at h
  · rename_i name provider modelId baseUrl extras contextWindow hname hprovider hmodelId hbaseUrl hextras hcontextWindow
    cases h
    have hlisted : provider = anthropicProvider ∨ provider = localProvider := by
      unfold providerField at hprovider
      split at hprovider
      · rename_i hlisted
        cases hprovider
        exact hlisted
      · cases hprovider
    obtain ⟨hstrip, hendpoint⟩ : strip baseUrl = baseUrl ∧ (provider = localProvider → baseUrl ≠ []) := by
      rw [hprovider] at hbaseUrl
      unfold baseUrlField at hbaseUrl
      split at hbaseUrl
      · cases hbaseUrl
      · rename_i hgiven
        cases hbaseUrl
        refine ⟨strip_strip _, ?_⟩
        rintro rfl hnil
        exact hgiven ⟨rfl, by rw [hnil]; rfl⟩
    have hpositive : ∀ n ∈ contextWindow, 1 ≤ n ∧ n < 10 ^ intMaxStrDigits := by
      unfold contextWindowField at hcontextWindow
      split at hcontextWindow
      · cases hcontextWindow
        exact fun n hn => absurd hn (Option.not_mem_none n)
      · rename_i n
        split at hcontextWindow
        · rename_i hone
          cases hcontextWindow
          intro m hm
          obtain rfl := Option.mem_some_iff.mp hm
          exact ⟨hone, hwindow _ rfl⟩
        · cases hcontextWindow
    exact ⟨required_ok hname, hlisted, required_ok hmodelId, hstrip, hendpoint, parseJsonField_ok hextras, hpositive⟩
  · cases h

theorem validateSubmission_formOk (hI : DecimalDigits I) {submission : Submission} {form : ModelProfileForm}
    (h : validateSubmission I submission = .ok form) : FormOk I form := by
  unfold validateSubmission at h
  split at h
  · exact formOk_of_checked (fun n hn => absurd hn (Option.not_mem_none n)) h
  · split at h
    · cases h
    · rename_i window hwindow
      refine formOk_of_checked ?_ h
      intro n hn
      obtain rfl := Option.mem_some_iff.mp hn
      exact parseInt_lt hI hwindow

theorem FormOk.profile {form : ModelProfileForm} (h : FormOk I form) (profile : ModelProfile) (hname : profile.name = form.name)
    (hprovider : profile.provider = form.provider) (hmodelId : profile.modelId = form.modelId)
    (hbaseUrl : profile.baseUrl = orNone form.baseUrl) (hapiKeyEnv : profile.apiKeyEnv = orNone (strip form.apiKeyEnv))
    (hextras : profile.extraOpencodeJson = .obj form.extraOpencodeJson) (hwindow : profile.contextWindow = form.contextWindow) :
    ProfileOk I profile where
  name := hname ▸ h.name
  provider := hprovider ▸ h.provider
  modelId := hmodelId ▸ h.modelId
  baseUrl := by
    rw [hbaseUrl, orNone_getD]
    exact ⟨orNone_ne _, h.baseUrl⟩
  endpoint := by
    intro hlocal hnone
    rw [hbaseUrl] at hnone
    have hempty := orNone_getD form.baseUrl
    rw [hnone] at hempty
    exact h.endpoint (hprovider ▸ hlocal) hempty.symm
  apiKeyEnv := by
    rw [hapiKeyEnv, orNone_getD]
    exact ⟨orNone_ne _, strip_strip _⟩
  extras := ⟨_, hextras, h.extras⟩
  window := hwindow ▸ h.window

end Form

section Rows
variable {I : Interpreter} {rows : List ModelProfile}

theorem ProfileOk.withFlag {profile : ModelProfile} (h : ProfileOk I profile) (isDefault : Bool) :
    ProfileOk I { profile with isDefault } :=
  ⟨h.name, h.provider, h.modelId, h.baseUrl, h.endpoint, h.apiKeyEnv, h.extras, h.window⟩

theorem profileOk_cleared (h : ∀ p ∈ rows, ProfileOk I p) (except : Option ℕ) : ∀ p ∈ cleared except rows, ProfileOk I p := by
  intro p hp
  obtain ⟨q, hq, rfl⟩ := List.mem_map.mp hp
  split
  · exact (h q hq).withFlag false
  · exact h q hq

theorem profileOk_assign (h : ∀ p ∈ rows, ProfileOk I p) (id : ℕ) {set : ModelProfile → ModelProfile}
    (hset : ∀ p ∈ rows, ProfileOk I (set p)) : ∀ p ∈ assign id set rows, ProfileOk I p := by
  intro p hp
  obtain ⟨q, hq, rfl⟩ := List.mem_map.mp hp
  split
  · exact hset q hq
  · exact h q hq

theorem profileOk_created (h : ∀ p ∈ rows, ProfileOk I p) (K : Fernet) {form : ModelProfileForm} (hform : FormOk I form) :
    ∀ p ∈ createdRows K form rows, ProfileOk I p := by
  unfold createdRows
  dsimp only
  rw [List.forall_mem_append]
  refine ⟨?_, List.forall_mem_singleton.mpr (hform.profile _ rfl rfl rfl rfl rfl rfl rfl)⟩
  split
  · exact profileOk_cleared h none
  · exact h

theorem profileOk_updated (h : ∀ p ∈ rows, ProfileOk I p) (K : Fernet) {form : ModelProfileForm} (hform : FormOk I form) (id : ℕ) :
    ∀ p ∈ updatedRows K form id rows, ProfileOk I p := by
  have hedited : ∀ p ∈ assign id (edited K form) rows, ProfileOk I p :=
    profileOk_assign h id fun p _ => hform.profile _ rfl rfl rfl rfl rfl rfl rfl
  have hothers : ∀ p ∈ (if form.isDefault then cleared (some id) (assign id (edited K form) rows) else assign id (edited K form) rows),
      ProfileOk I p := by
    split
    · exact profileOk_cleared hedited (some id)
    · exact hedited
  exact profileOk_assign hothers id fun p hp => (hothers p hp).withFlag form.isDefault

variable {C : Columns} {collate : Text → Text → Bool} {d d' : Database}

theorem profileOk_step (hI : DecimalDigits I) (hd : Consistent C d) (h : ∀ p ∈ d.profiles, ProfileOk I p)
    (hstep : Step I C collate d d') : ∀ p ∈ d'.profiles, ProfileOk I p := by
  cases hstep with
  | create K submission =>
    rcases settingsModelCreate_cases I K hd.table.stored submission with hsame | ⟨-, form, hform, -, hrows⟩
    · rwa [hsame]
    · rw [hrows]
      exact profileOk_created h K (validateSubmission_formOk hI hform)
  | update K id submission =>
    rcases settingsModelUpdate_cases I K hd.table.stored id submission with hsame | ⟨-, form, hform, -, hrows⟩
    · rwa [hsame]
    · rw [hrows]
      exact profileOk_updated h K (validateSubmission_formOk hI hform) id
  | delete id =>
    rcases settingsModelDelete_cases I C d.profiles id d.world.jobs with hsame | ⟨-, hrows, -⟩
    · rwa [hsame]
    · rw [hrows]
      exact fun p hp => h p (List.mem_filter.mp hp).1
  | scheduleReview _ _ _ _ => exact h
  | scheduleSelectedMrs _ _ _ _ _ => exact h
  | claim _ _ _ => exact h
  | configure _ => exact h
  | sync _ => exact h

theorem Reachable.profileOk (hI : DecimalDigits I) (h : Reachable I C collate d) : ∀ p ∈ d.profiles, ProfileOk I p := by
  induction h with
  | empty settings mergeRequests => exact fun p hp => absurd hp List.not_mem_nil
  | step hd hstep ih => exact profileOk_step hI hd.consistent ih hstep

end Rows

section Page
variable {I : Interpreter} {profile : ModelProfile}

theorem parseInt_window (hI : DecimalDigits I) {n : ℤ} (h : 1 ≤ n) (htop : n < 10 ^ intMaxStrDigits) : parseInt I (reprInt n) = some n := by
  have hcast : ((n.natAbs : ℕ) : ℤ) < 10 ^ intMaxStrDigits := by rwa [Int.natAbs_of_nonneg (le_trans zero_le_one h)]
  exact parseInt_reprInt hI h (by exact_mod_cast hcast)

theorem reprInt_ne {n : ℤ} (h : 1 ≤ n) : (strip (reprInt n)).isEmpty = false := by
  have hdigits : ∀ c ∈ decimal n.natAbs, isDigit c = true := isDigit_decimal _
  have hstrip : strip (decimal n.natAbs) = decimal n.natAbs := stripBy_of_forall fun c hc => isSpace_of_isDigit (hdigits c hc)
  unfold reprInt
  rw [if_neg (by omega), hstrip, List.isEmpty_eq_false_iff]
  exact decimal_ne_nil _

theorem parseJsonField_shown (h : ProfileOk I profile) : ∃ fields, profile.extraOpencodeJson = .obj fields ∧
    parseJsonField I (editProfileRaw I profile).extraOpencodeJson = .ok fields := by
  obtain ⟨fields, hfields, hdump⟩ := h.extras
  refine ⟨fields, hfields, ?_⟩
  have hload := loads_dumps true (some 2) hdump [] [] (by simp) (by simp)
  rw [List.nil_append, List.append_nil] at hload
  have hne : (dumps I.floats true (some 2) (.obj fields)).isEmpty = false := by
    rw [List.isEmpty_eq_false_iff]
    intro hnil
    rw [hnil] at hload
    cases hload
  unfold editProfileRaw
  dsimp only
  rw [hfields]
  split
  · unfold parseJsonField
    rw [if_neg (by rw [hne]; decide), hload]
  · rename_i hempty
    obtain rfl : fields = [] := by simpa [truthyJson] using hempty
    rfl

/-- The form the edit page gives. -/
def shownForm (profile : ModelProfile) (fields : List (Text × Json)) : ModelProfileForm where
  name := profile.name
  provider := profile.provider
  modelId := profile.modelId
  baseUrl := profile.baseUrl.getD []
  apiKey := []
  apiKeyEnv := profile.apiKeyEnv.getD []
  isDefault := profile.isDefault
  extraOpencodeJson := fields
  contextWindow := profile.contextWindow

/-- What the edit page shows of a profile passes the checks. -/
theorem validateSubmission_shown (hI : DecimalDigits I) (h : ProfileOk I profile) : ∃ fields, profile.extraOpencodeJson = .obj fields ∧
    validateSubmission I (editProfileRaw I profile) = .ok (shownForm profile fields) := by
  obtain ⟨fields, hfields, hextras⟩ := parseJsonField_shown h
  refine ⟨fields, hfields, ?_⟩
  have hprovider : providerField profile.provider = .ok profile.provider := if_pos h.provider
  have hbaseUrl : baseUrlField (.ok profile.provider) (profile.baseUrl.getD []) = .ok (profile.baseUrl.getD []) := by
    unfold baseUrlField
    rw [h.baseUrl.2, if_neg]
    rintro ⟨hlocal, hnil⟩
    have hnone := h.endpoint (Except.ok.inj hlocal)
    cases hgiven : profile.baseUrl with
    | none => exact hnone hgiven
    | some text =>
      rw [hgiven, Option.getD_some, List.isEmpty_iff] at hnil
      exact h.baseUrl.1 (hnil ▸ hgiven)
  have hform : ∀ window, contextWindowField window = .ok profile.contextWindow →
      modelProfileForm I (editProfileRaw I profile) window = .ok (shownForm profile fields) := by
    intro window hwindow
    unfold modelProfileForm
    rw [hextras, hwindow]
    unfold editProfileRaw
    dsimp only
    rw [required_again h.name, hprovider, required_again h.modelId, hbaseUrl]
    rfl
  unfold validateSubmission
  cases hwindow : profile.contextWindow with
  | none =>
    have hblank : (editProfileRaw I profile).contextWindow = [] := by
      unfold editProfileRaw
      dsimp only
      rw [hwindow]
    rw [hblank, if_pos (by rfl), hform none (by rw [hwindow]; rfl)]
  | some n =>
    obtain ⟨hone, htop⟩ := h.window n hwindow
    have hshown : (editProfileRaw I profile).contextWindow = reprInt n := by
      unfold editProfileRaw
      dsimp only
      rw [hwindow]
      exact if_pos (by omega)
    rw [hshown, if_neg (by rw [reprInt_ne hone]; decide), parseInt_window hI hone htop]
    dsimp only
    rw [hform (some n) (by rw [hwindow]; exact if_pos hone)]

theorem edited_shown (K : Fernet) (h : ProfileOk I profile) {fields : List (Text × Json)} (hfields : profile.extraOpencodeJson = .obj fields) :
    edited K (shownForm profile fields) profile = profile := by
  have hblank : (strip ([] : Text)).isEmpty = true := rfl
  unfold edited shownForm
  simp only [orNone_getD_of_ne h.baseUrl.1, h.apiKeyEnv.2, orNone_getD_of_ne h.apiKeyEnv.1, hblank, if_true, ← hfields]

theorem assign_eq_self {rows : List ModelProfile} {id : ℕ} {set : ModelProfile → ModelProfile}
    (h : ∀ q ∈ rows, q.id = id → set q = q) : assign id set rows = rows := by
  unfold assign
  refine (List.map_congr_left fun q hq => ?_).trans (List.map_id rows)
  split
  · rename_i hid
    exact h q hq hid
  · rfl

theorem cleared_eq_self {rows : List ModelProfile} {except : Option ℕ} (h : ∀ q ∈ rows, q.isDefault = true → some q.id = except) :
    cleared except rows = rows := by
  have hnone : otherDefaults except rows = [] := by
    unfold otherDefaults
    rw [List.map_eq_nil_iff, List.filter_eq_nil_iff]
    intro q hq hother
    rw [Bool.and_eq_true, decide_eq_true_eq] at hother
    exact hother.2 (h q hq hother.1)
  unfold cleared
  rw [hnone]
  simp

/-- The one default stays the one default. -/
theorem updatedRows_shown {C : Columns} {rows : List ModelProfile} (ht : Table C rows) (hp : profile ∈ rows) (K : Fernet)
    (h : ProfileOk I profile) {fields : List (Text × Json)} (hfields : profile.extraOpencodeJson = .obj fields) :
    updatedRows K (shownForm profile fields) profile.id rows = rows := by
  have hedited : assign profile.id (edited K (shownForm profile fields)) rows = rows := by
    apply assign_eq_self
    intro q hq hid
    rw [ht.stored.eq_of_id hq hp hid]
    exact edited_shown K h hfields
  have hothers : (if (shownForm profile fields).isDefault then cleared (some profile.id) rows else rows) = rows := by
    split
    · rename_i hdefault
      apply cleared_eq_self
      intro q hq hflag
      rw [ht.oneDefault q hq profile hp hflag hdefault]
    · rfl
  unfold updatedRows
  dsimp only
  rw [hedited, hothers]
  apply assign_eq_self
  intro q hq hid
  rw [ht.stored.eq_of_id hq hp hid]
  rfl

/-- In every reachable database, each profile is as its form was checked, and its edit page, posted back as it stands, is
accepted and changes nothing of the table: not the key it never shows, and not which profile is the default. -/
theorem profile_page_fixed (hI : DecimalDigits I) {C : Columns} {collate : Text → Text → Bool} {d : Database}
    (h : Reachable I C collate d) (hp : profile ∈ d.profiles) :
    ProfileOk I profile ∧ ∀ K : Fernet, settingsModelUpdate I C K profile.id (editProfileRaw I profile) d.profiles =
      (.ok (.profiles (some (updatedMessage I profile.name)) none), d.profiles) := by
  obtain ⟨ht, -⟩ := h.consistent
  have hok := h.profileOk hI profile hp
  refine ⟨hok, fun K => ?_⟩
  obtain ⟨fields, hfields, hform⟩ := validateSubmission_shown hI hok
  have hfree : ¬ Taken d.profiles (shownForm profile fields).name (some profile.id) := by
    rintro ⟨other, hother, hname, hid⟩
    have hsame : other = profile := List.inj_on_of_nodup_map ht.stored.names hother hp hname
    exact hid (by rw [hsame])
  have haccepted : ¬ C.accepts profile = false := by simp [ht.stored.accepted profile hp]
  rw [settingsModelUpdate_eq I K ht.stored hp hform, edited_shown K hok hfields, if_neg haccepted, if_neg hfree,
    updatedRows_shown ht hp K hok hfields]
  rfl

end Page

def localSubmission : Submission where
  name := " local ".toList
  provider := localProvider
  modelId := "coder".toList
  baseUrl := " http://gpu:8000/v1 ".toList
  apiKey := " key ".toList
  apiKeyEnv := []
  isDefault := true
  extraOpencodeJson := "\x7b\"limit\": \x7b\"output\": [1, null]\x7d\x7d".toList
  contextWindow := " 32_768 ".toList

def firstDatabase : Database :=
  ⟨Gitlab.plainSettings, [], (settingsModelCreate Gitlab.plainStdlib.ints anyColumns reversing (plainSubmission "first" "" true) []).2,
    World.empty⟩

def localDatabase : Database :=
  { firstDatabase with
    profiles := (settingsModelCreate Gitlab.plainStdlib.ints anyColumns reversing localSubmission firstDatabase.profiles).2 }

theorem localDatabase_reachable : Reachable Gitlab.plainStdlib.ints anyColumns (fun _ _ => true) localDatabase := by
  have hfirst : Reachable Gitlab.plainStdlib.ints anyColumns (fun _ _ => true) firstDatabase :=
    .step (.empty Gitlab.plainSettings []) (.create reversing (plainSubmission "first" "" true))
  exact .step hfirst (.create reversing localSubmission)

theorem profile_page_fixed_local : ∃ profile ∈ localDatabase.profiles, profile.name = "local".toList ∧
    profile.contextWindow = some 32768 ∧ profile.isDefault = true ∧
      settingsModelUpdate Gitlab.plainStdlib.ints anyColumns reversing profile.id (editProfileRaw Gitlab.plainStdlib.ints profile)
        localDatabase.profiles =
          (.ok (.profiles (some (updatedMessage Gitlab.plainStdlib.ints profile.name)) none), localDatabase.profiles) := by
  have hany : (localDatabase.profiles.any fun profile =>
      profile.name == "local".toList && profile.contextWindow == some 32768 && profile.isDefault) = true := by decide +kernel
  obtain ⟨profile, hp, hfound⟩ := List.any_eq_true.mp hany
  rw [Bool.and_eq_true, Bool.and_eq_true] at hfound
  obtain ⟨⟨hname, hwindow⟩, hdefault⟩ := hfound
  obtain ⟨-, hupdate⟩ := profile_page_fixed Scheduler.decimalDigits_plain localDatabase_reachable hp
  exact ⟨profile, hp, eq_of_beq hname, eq_of_beq hwindow, hdefault, hupdate reversing⟩

end GitlabReviewer.Settings
