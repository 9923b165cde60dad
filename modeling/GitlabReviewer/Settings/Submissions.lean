import GitlabReviewer.Settings.Profiles

/-! # What becomes of a valid submission

A creation adds its row after its only query, so the name is checked at the
guarded commit. An update that makes its profile the default has already set
the new name when it looks for the other defaults.
-/
namespace GitlabReviewer.Settings
open Python Foundation Models

/-- The table as its constraints keep it. -/
structure Stored (C : Columns) (rows : List ModelProfile) : Prop where
  ids : (rows.map (·.id)).Nodup
  names : (rows.map (·.name)).Nodup
  accepted : ∀ profile ∈ rows, C.accepts profile = true

/-- Another profile has the name. -/
def Taken (rows : List ModelProfile) (name : Text) (except : Option ℕ) : Prop :=
  ∃ other ∈ rows, other.name = name ∧ some other.id ≠ except

instance (rows : List ModelProfile) (name : Text) (except : Option ℕ) : Decidable (Taken rows name except) :=
  inferInstanceAs (Decidable (∃ other ∈ rows, other.name = name ∧ some other.id ≠ except))

section Check
variable {C : Columns} {rows : List ModelProfile}

/-- Setting flags changes nothing that is checked. -/
theorem checkProfiles_map {g : ModelProfile → ModelProfile} (hname : ∀ p, (g p).name = p.name)
    (haccepts : ∀ p, C.accepts (g p) = C.accepts p) : checkProfiles C (rows.map g) = checkProfiles C rows := by
  have hall : (rows.map g).all C.accepts = rows.all C.accepts := by
    rw [List.all_map]
    exact congrArg (rows.all ·) (funext haccepts)
  have hnames : (rows.map g).map (·.name) = rows.map (·.name) := by
    rw [List.map_map]
    exact List.map_congr_left fun p _ => hname p
  unfold checkProfiles
  rw [hall, hnames]

theorem Stored.nodup (hs : Stored C rows) : rows.Nodup := List.Nodup.of_map _ hs.ids

theorem Stored.eq_of_id (hs : Stored C rows) {a b : ModelProfile} (ha : a ∈ rows) (hb : b ∈ rows) (h : a.id = b.id) :
    a = b := List.inj_on_of_nodup_map hs.ids ha hb h

theorem Stored.check (hs : Stored C rows) : checkProfiles C rows = .ok () := by
  unfold checkProfiles
  rw [if_neg (by simpa using hs.accepted), if_pos hs.names]

/-- The check of a table in which one row has been edited. -/
theorem checkProfiles_assign (hs : Stored C rows) {profile : ModelProfile} (hp : profile ∈ rows)
    (set : ModelProfile → ModelProfile) :
    checkProfiles C (assign profile.id set rows) =
      if C.accepts (set profile) = false then .error .data
      else if Taken rows (set profile).name (some profile.id) then .error .integrity
      else .ok () := by
  have hall : (assign profile.id set rows).all C.accepts = C.accepts (set profile) := by
    rw [Bool.eq_iff_iff, List.all_eq_true]
    unfold assign
    constructor
    · intro h
      refine h _ (List.mem_map.mpr ⟨profile, hp, ?_⟩)
      rw [if_pos rfl]
    · intro h row hrow
      obtain ⟨p, hmem, rfl⟩ := List.mem_map.mp hrow
      split
      · rename_i hid
        rw [hs.eq_of_id hmem hp hid]
        exact h
      · exact hs.accepted p hmem
  have hnames : ((assign profile.id set rows).map (·.name)).Nodup ↔ ¬ Taken rows (set profile).name (some profile.id) := by
    unfold assign
    rw [List.map_map, List.nodup_map_iff_inj_on hs.nodup]
    constructor
    · rintro hinj ⟨other, hother, hname, hid⟩
      have hne : other.id ≠ profile.id := fun h => hid (congrArg some h)
      have heq := hinj other hother profile hp (by simp [hne, hname])
      exact hne (congrArg _ heq)
    · intro hfree a ha b hb hab
      dsimp only [Function.comp_apply] at hab
      by_cases hida : a.id = profile.id
      · obtain rfl := hs.eq_of_id ha hp hida
        by_cases hidb : b.id = a.id
        · exact (hs.eq_of_id hb ha hidb).symm
        · rw [if_pos rfl, if_neg hidb] at hab
          exact absurd ⟨b, hb, hab.symm, fun h => hidb (Option.some.inj h)⟩ hfree
      · rw [if_neg hida] at hab
        by_cases hidb : b.id = profile.id
        · obtain rfl := hs.eq_of_id hb hp hidb
          rw [if_pos rfl] at hab
          exact absurd ⟨a, ha, hab, fun h => hida (Option.some.inj h)⟩ hfree
        · rw [if_neg hidb] at hab
          exact List.inj_on_of_nodup_map hs.names ha hb hab
  unfold checkProfiles
  rw [hall]
  by_cases hacc : C.accepts (set profile) = false
  · rw [if_pos hacc, if_pos hacc]
  · rw [if_neg hacc, if_neg hacc]
    by_cases htaken : Taken rows (set profile).name (some profile.id)
    · rw [if_pos htaken, if_neg (fun h => hnames.mp h htaken)]
    · rw [if_neg htaken, if_pos (hnames.mpr htaken)]

/-- The check of a table to which a row has been added. -/
theorem checkProfiles_append (hs : Stored C rows) (profile : ModelProfile) :
    checkProfiles C (rows ++ [profile]) =
      if C.accepts profile = false then .error .data
      else if Taken rows profile.name none then .error .integrity
      else .ok () := by
  have hall : (rows ++ [profile]).all C.accepts = C.accepts profile := by
    rw [List.all_append, List.all_eq_true.mpr hs.accepted]
    simp
  have hnames : ((rows ++ [profile]).map (·.name)).Nodup ↔ ¬ Taken rows profile.name none := by
    unfold Taken
    rw [List.map_append, List.nodup_append]
    simp [hs.names]
  unfold checkProfiles
  rw [hall]
  by_cases hacc : C.accepts profile = false
  · rw [if_pos hacc, if_pos hacc]
  · rw [if_neg hacc, if_neg hacc]
    by_cases htaken : Taken rows profile.name none
    · rw [if_pos htaken, if_neg (fun h => hnames.mp h htaken)]
    · rw [if_neg htaken, if_pos (hnames.mpr htaken)]

end Check

section Results
variable (I : Interpreter) {C : Columns} (K : Fernet) {rows : List ModelProfile}

def cleared (except : Option ℕ) (rows : List ModelProfile) : List ModelProfile :=
  rows.map fun profile => if profile.id ∈ otherDefaults except rows then { profile with isDefault := false } else profile

def updatedRows (form : ModelProfileForm) (id : ℕ) (rows : List ModelProfile) : List ModelProfile :=
  let rows := assign id (edited K form) rows
  assign id (withFlag form.isDefault) (if form.isDefault then cleared (some id) rows else rows)

def createdRows (form : ModelProfileForm) (rows : List ModelProfile) : List ModelProfile :=
  let rows := if form.isDefault then cleared none rows else rows
  rows ++ [newProfile K form (World.nextKey (rows.map (·.id)))]

theorem checkProfiles_cleared (except : Option ℕ) (rows : List ModelProfile) :
    checkProfiles C (cleared except rows) = checkProfiles C rows := by
  apply checkProfiles_map
  · intro p
    split <;> rfl
  · intro p
    split
    · exact C.accepts_flag p false
    · rfl

theorem checkProfiles_withFlag (id : ℕ) (isDefault : Bool) (rows : List ModelProfile) :
    checkProfiles C (assign id (withFlag isDefault) rows) = checkProfiles C rows := by
  apply checkProfiles_map
  · intro p
    split <;> rfl
  · intro p
    split
    · exact C.accepts_flag p isDefault
    · rfl

theorem clearDefaults_ok {s : UnitOfWork ModelProfile} (except : Option ℕ)
    (h : checkProfiles C (s.pending s.rows) = .ok ()) :
    ∃ s', clearDefaults C except s = .ok s' ∧ s'.pending s'.rows = cleared except (s.pending s.rows) := by
  unfold clearDefaults
  rw [UnitOfWork.select_ok h]
  exact ⟨_, rfl, rfl⟩

theorem clearDefaults_error {s : UnitOfWork ModelProfile} {except : Option ℕ} {e : DbError}
    (h : checkProfiles C (s.pending s.rows) = .error e) : clearDefaults C except s = .error e := by
  unfold clearDefaults
  rw [UnitOfWork.select_error h]
  rfl

/-- An update that sets the flag meets the check at its query. -/
theorem updateSession_error {form : ModelProfileForm} {id : ℕ} {e : DbError} (hflag : form.isDefault = true)
    (h : checkProfiles C (assign id (edited K form) rows) = .error e) : updateSession C K form id rows = .error e := by
  have hclear : clearDefaults C (some id) ((UnitOfWork.begin rows).change (assign id (edited K form))) = .error e :=
    clearDefaults_error h
  unfold updateSession
  rw [if_pos hflag, hclear]
  rfl

variable (C rows) in
theorem updateSession_ok (form : ModelProfileForm) (id : ℕ)
    (h : form.isDefault = true → checkProfiles C (assign id (edited K form) rows) = .ok ()) :
    ∃ s, updateSession C K form id rows = .ok s ∧ s.pending s.rows = updatedRows K form id rows := by
  unfold updateSession updatedRows
  dsimp only
  by_cases hflag : form.isDefault = true
  · obtain ⟨s, hs, hview⟩ := clearDefaults_ok (s := (UnitOfWork.begin rows).change (assign id (edited K form)))
      (some id) (h hflag)
    rw [if_pos hflag, if_pos hflag, hs]
    refine ⟨_, rfl, ?_⟩
    rw [UnitOfWork.change_view, hview]
    rfl
  · rw [if_neg hflag, if_neg hflag]
    exact ⟨_, rfl, rfl⟩

theorem createSession_ok (hs : Stored C rows) (form : ModelProfileForm) :
    ∃ s, createSession C K form form.isDefault rows = .ok s ∧ s.pending s.rows = createdRows K form rows := by
  unfold createSession createdRows
  dsimp only
  by_cases hflag : form.isDefault = true
  · obtain ⟨s, hclear, hview⟩ := clearDefaults_ok (s := UnitOfWork.begin rows) none hs.check
    rw [if_pos hflag, if_pos hflag, hclear]
    refine ⟨_, rfl, ?_⟩
    rw [UnitOfWork.change_view, hview]
    rfl
  · rw [if_neg hflag, if_neg hflag]
    exact ⟨_, rfl, rfl⟩

theorem cleared_ids (except : Option ℕ) (rows : List ModelProfile) :
    (cleared except rows).map (·.id) = rows.map (·.id) := by
  unfold cleared
  rw [List.map_map]
  apply List.map_congr_left
  intro p _
  dsimp only [Function.comp_apply]
  split <;> rfl

theorem Stored.cleared (hs : Stored C rows) (except : Option ℕ) : Stored C (cleared except rows) := by
  have hnames : (Settings.cleared except rows).map (·.name) = rows.map (·.name) := by
    unfold Settings.cleared
    rw [List.map_map]
    apply List.map_congr_left
    intro p _
    dsimp only [Function.comp_apply]
    split <;> rfl
  constructor
  · rw [cleared_ids]
    exact hs.ids
  · rw [hnames]
    exact hs.names
  · intro p hp
    obtain ⟨q, hq, rfl⟩ := List.mem_map.mp hp
    split
    · rw [C.accepts_flag q false]
      exact hs.accepted q hq
    · exact hs.accepted q hq

theorem taken_cleared (name : Text) (except except' : Option ℕ) :
    Taken (cleared except' rows) name except ↔ Taken rows name except := by
  unfold Taken cleared
  constructor
  · rintro ⟨other, hother, hname, hid⟩
    obtain ⟨p, hp, rfl⟩ := List.mem_map.mp hother
    refine ⟨p, hp, ?_⟩
    split at hname <;> split at hid <;> exact ⟨hname, hid⟩
  · rintro ⟨p, hp, hname, hid⟩
    refine ⟨_, List.mem_map_of_mem hp, ?_⟩
    split <;> exact ⟨hname, hid⟩

/-- The check of the rows a creation commits. -/
theorem checkProfiles_created (hs : Stored C rows) (form : ModelProfileForm) :
    checkProfiles C (createdRows K form rows) =
      if C.accepts (newProfile K form 0) = false then .error .data
      else if Taken rows form.name none then .error .integrity
      else .ok () := by
  have hkey : ∀ id, C.accepts (newProfile K form id) = C.accepts (newProfile K form 0) :=
    fun id => C.accepts_key (newProfile K form 0) id
  have happend : ∀ {rows' : List ModelProfile} (id : ℕ), Stored C rows' → (Taken rows' form.name none ↔ Taken rows form.name none) →
      checkProfiles C (rows' ++ [newProfile K form id]) =
        if C.accepts (newProfile K form 0) = false then .error .data
        else if Taken rows form.name none then .error .integrity
        else .ok () := by
    intro rows' id hs' htaken
    have hname : (newProfile K form id).name = form.name := rfl
    rw [checkProfiles_append hs', hkey, hname]
    simp only [htaken]
  unfold createdRows
  dsimp only
  by_cases hflag : form.isDefault = true
  · rw [if_pos hflag]
    exact happend _ (hs.cleared none) (taken_cleared _ _ _)
  · rw [if_neg hflag]
    exact happend _ hs Iff.rfl

theorem checkProfiles_updated (hs : Stored C rows) {profile : ModelProfile} (hp : profile ∈ rows)
    (form : ModelProfileForm) :
    checkProfiles C (updatedRows K form profile.id rows) = checkProfiles C (assign profile.id (edited K form) rows) ∧
      checkProfiles C (assign profile.id (edited K form) rows) =
        if C.accepts (edited K form profile) = false then .error .data
        else if Taken rows form.name (some profile.id) then .error .integrity
        else .ok () := by
  refine ⟨?_, checkProfiles_assign hs hp (edited K form)⟩
  unfold updatedRows
  dsimp only
  rw [checkProfiles_withFlag]
  split
  · exact checkProfiles_cleared _ _
  · rfl

/-- Everything a creation with a valid form can come to. -/
theorem settingsModelCreate_eq (hs : Stored C rows) {submission : Submission} {form : ModelProfileForm}
    (hform : validateSubmission I submission = .ok form) :
    settingsModelCreate I C K submission rows =
      if C.accepts (newProfile K form 0) = false then (.error .data, rows)
      else if Taken rows form.name none then (.ok (.rejected [nameTaken I form.name]), rows)
      else (.ok (.profiles (some (addedMessage I form.name)) none), createdRows K form rows) := by
  obtain ⟨s, hsession, hview⟩ := createSession_ok K hs form
  obtain ⟨-, -, hflag, -⟩ := validateSubmission_ok I hform
  have hcheck := checkProfiles_created K hs form
  rw [← hview] at hcheck ⊢
  unfold settingsModelCreate
  rw [hform]
  dsimp only
  rw [← hflag, hsession]
  dsimp only
  unfold commitNamed
  by_cases hacc : C.accepts (newProfile K form 0) = false
  · rw [if_pos hacc] at hcheck ⊢
    rw [UnitOfWork.commit_error hcheck]
  · rw [if_neg hacc] at hcheck ⊢
    by_cases htaken : Taken rows form.name none
    · rw [if_pos htaken] at hcheck ⊢
      rw [UnitOfWork.commit_error hcheck]
    · rw [if_neg htaken] at hcheck ⊢
      rw [UnitOfWork.commit_ok hcheck]

/-- Everything an update with a valid form can come to. -/
theorem settingsModelUpdate_eq (hs : Stored C rows) {profile : ModelProfile} (hp : profile ∈ rows)
    {submission : Submission} {form : ModelProfileForm} (hform : validateSubmission I submission = .ok form) :
    settingsModelUpdate I C K profile.id submission rows =
      if C.accepts (edited K form profile) = false then (.error .data, rows)
      else if Taken rows form.name (some profile.id) then
        if form.isDefault then (.error .integrity, rows) else (.ok (.rejected [nameTaken I form.name]), rows)
      else (.ok (.profiles (some (updatedMessage I form.name)) none), updatedRows K form profile.id rows) := by
  have hfind : ∃ found, rows.find? (·.id = profile.id) = some found := by
    rw [← Option.isSome_iff_exists, List.find?_isSome]
    exact ⟨profile, hp, by simp⟩
  obtain ⟨found, hfound⟩ := hfind
  obtain ⟨hsame, hcheck⟩ := checkProfiles_updated K hs hp form
  unfold settingsModelUpdate
  rw [hfound, hform]
  dsimp only
  -- without the flag the commit is the first to flush
  have hguarded : ∀ {e : DbError}, form.isDefault = false →
      checkProfiles C (assign profile.id (edited K form) rows) = .error e →
      ∃ s, updateSession C K form profile.id rows = .ok s ∧ s.commit (checkProfiles C) = .error e := by
    intro e hflag herror
    obtain ⟨s, hsession, hview⟩ := updateSession_ok C K rows form profile.id (by simp [hflag])
    refine ⟨s, hsession, UnitOfWork.commit_error ?_⟩
    rw [hview, hsame]
    exact herror
  by_cases hacc : C.accepts (edited K form profile) = false
  · rw [if_pos hacc] at hcheck ⊢
    cases hflag : form.isDefault with
    | true => rw [updateSession_error K hflag hcheck]
    | false =>
      obtain ⟨s, hsession, hcommit⟩ := hguarded hflag hcheck
      rw [hsession]
      dsimp only
      unfold commitNamed
      rw [hcommit]
  · rw [if_neg hacc] at hcheck ⊢
    by_cases htaken : Taken rows form.name (some profile.id)
    · rw [if_pos htaken] at hcheck ⊢
      cases hflag : form.isDefault with
      | true =>
        rw [updateSession_error K hflag hcheck]
        rfl
      | false =>
        obtain ⟨s, hsession, hcommit⟩ := hguarded hflag hcheck
        rw [hsession]
        dsimp only
        unfold commitNamed
        rw [hcommit]
        rfl
    · rw [if_neg htaken] at hcheck ⊢
      obtain ⟨s, hsession, hview⟩ := updateSession_ok C K rows form profile.id fun _ => hcheck
      rw [hsession]
      dsimp only
      unfold commitNamed
      rw [UnitOfWork.commit_ok (by rw [hview, hsame]; exact hcheck), hview]

end Results

/-- The answer to a valid submission: the form where the name is taken, the success view otherwise. -/
def Reported (I : Interpreter) (name message : Text) (taken : Prop) (result : Except DbError Page × List ModelProfile) :
    Prop :=
  (taken → result.1 = .ok (.rejected [nameTaken I name])) ∧ (¬ taken → result.1 = .ok (.profiles (some message) none))

/-- A creation always reports a collision; an update does unless it also sets the
flag. Either needs a row the columns can hold. -/
theorem collision_reported_iff (I : Interpreter) {C : Columns} (K : Fernet) {rows : List ModelProfile}
    (hs : Stored C rows) {submission : Submission} {form : ModelProfileForm}
    (hform : validateSubmission I submission = .ok form) :
    (Reported I form.name (addedMessage I form.name) (Taken rows form.name none)
        (settingsModelCreate I C K submission rows) ↔ C.accepts (newProfile K form 0) = true) ∧
      ∀ profile ∈ rows, (Reported I form.name (updatedMessage I form.name) (Taken rows form.name (some profile.id))
          (settingsModelUpdate I C K profile.id submission rows) ↔
        C.accepts (edited K form profile) = true ∧
          ¬ (submission.isDefault = true ∧ Taken rows form.name (some profile.id))) := by
  obtain ⟨-, -, hflag, -⟩ := validateSubmission_ok I hform
  have hraised : ∀ {name message : Text} {taken : Prop} {e : DbError},
      ¬ Reported I name message taken (.error e, rows) := by
    rintro name message taken e ⟨htaken, hfree⟩
    by_cases h : taken
    · cases htaken h
    · cases hfree h
  constructor
  · rw [settingsModelCreate_eq I K hs hform]
    cases hacc : C.accepts (newProfile K form 0) with
    | false => simpa using hraised
    | true =>
      rw [if_neg (by simp)]
      refine iff_of_true ?_ rfl
      split
      · rename_i htaken
        exact ⟨fun _ => rfl, fun hfree => absurd htaken hfree⟩
      · rename_i hfree
        exact ⟨fun htaken => absurd htaken hfree, fun _ => rfl⟩
  · intro profile hp
    rw [settingsModelUpdate_eq I K hs hp hform, ← hflag]
    cases hacc : C.accepts (edited K form profile) with
    | false => simpa using hraised
    | true =>
      rw [if_neg (by simp)]
      by_cases htaken : Taken rows form.name (some profile.id)
      · rw [if_pos htaken]
        cases form.isDefault with
        | true => simpa [htaken] using hraised
        | false => exact iff_of_true ⟨fun _ => rfl, fun hfree => absurd htaken hfree⟩ ⟨rfl, by simp⟩
      · rw [if_neg htaken]
        exact iff_of_true ⟨fun h => absurd h htaken, fun _ => rfl⟩ ⟨rfl, fun h => htaken h.2⟩

section Example

def asciiInterpreter : Interpreter where
  digit c := if isDigit c then some (c.toNat - '0'.toNat) else none
  repr value := '\'' :: value ++ ['\'']
  floats := .none

def anyColumns : Columns := ⟨fun _ => true, fun _ _ => rfl, fun _ _ => rfl⟩

def reversing : Fernet := ⟨fun value => value.reverse, fun token => some token.reverse⟩

def plainProfile (id : ℕ) (name : String) : ModelProfile :=
  ⟨id, name.toList, anthropicProvider, "opus".toList, none, none, none, false, .obj [], none⟩

def plainSubmission (name apiKey : String) (isDefault : Bool) : Submission :=
  ⟨name.toList, anthropicProvider, "opus".toList, [], apiKey.toList, [], isDefault, "{}".toList, []⟩

def plainForm (name apiKey : String) (isDefault : Bool) : ModelProfileForm :=
  ⟨name.toList, anthropicProvider, "opus".toList, [], apiKey.toList, [], isDefault, [], none⟩

def twoProfiles : List ModelProfile := [plainProfile 1 "taken", plainProfile 2 "rename-me"]

theorem twoProfiles_stored : Stored anyColumns twoProfiles := ⟨by decide, by decide, fun _ _ => rfl⟩

theorem collision_reported_taken :
    Reported asciiInterpreter "taken".toList (addedMessage asciiInterpreter "taken".toList)
        (Taken twoProfiles "taken".toList none)
        (settingsModelCreate asciiInterpreter anyColumns reversing (plainSubmission "taken" "" true) twoProfiles) ∧
      Reported asciiInterpreter "taken".toList (updatedMessage asciiInterpreter "taken".toList)
        (Taken twoProfiles "taken".toList (some 2))
        (settingsModelUpdate asciiInterpreter anyColumns reversing 2 (plainSubmission "taken" "" false) twoProfiles) := by
  constructor
  · have hform : validateSubmission asciiInterpreter (plainSubmission "taken" "" true) =
        .ok (plainForm "taken" "" true) := rfl
    exact (collision_reported_iff asciiInterpreter reversing twoProfiles_stored hform).1.mpr rfl
  · have hform : validateSubmission asciiInterpreter (plainSubmission "taken" "" false) =
        .ok (plainForm "taken" "" false) := rfl
    exact ((collision_reported_iff asciiInterpreter reversing twoProfiles_stored hform).2 (plainProfile 2 "rename-me") (by simp [twoProfiles])).mpr
        ⟨rfl, by decide⟩

/-- A taken name submitted together with the flag raises out of the update. -/
theorem collision_raised :
    ¬ ∀ (I : Interpreter) (C : Columns) (K : Fernet) (rows : List ModelProfile) (submission : Submission)
      (form : ModelProfileForm), Stored C rows → validateSubmission I submission = .ok form →
      ∀ profile ∈ rows, Reported I form.name (updatedMessage I form.name) (Taken rows form.name (some profile.id))
          (settingsModelUpdate I C K profile.id submission rows) ∧
        (settingsModelUpdate I C K profile.id submission rows).1 ≠ .error .integrity := by
  intro hclaim
  have hraises := (hclaim asciiInterpreter anyColumns reversing twoProfiles (plainSubmission "taken" "" true)
    (plainForm "taken" "" true) twoProfiles_stored rfl (plainProfile 2 "rename-me") (by simp [twoProfiles])).2
  exact hraises rfl

end Example

end GitlabReviewer.Settings
