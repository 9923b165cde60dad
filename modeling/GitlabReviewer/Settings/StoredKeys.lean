import GitlabReviewer.Settings.Submissions
import GitlabReviewer.Models.Commits

/-! # What the two handlers store

A creation and an update carry the same ten fields of a form into a row by hand.
-/
namespace GitlabReviewer.Settings
open Python Foundation Models

section Find
variable {C : Columns} {rows : List ModelProfile}

theorem Stored.find? (hs : Stored C rows) {profile : ModelProfile} (hp : profile ∈ rows) :
    rows.find? (·.id = profile.id) = some profile := by
  cases hfind : rows.find? (·.id = profile.id) with
  | none => simpa using List.find?_eq_none.mp hfind profile hp
  | some found =>
    have hid : found.id = profile.id := by simpa using List.find?_some hfind
    rw [hs.eq_of_id (List.mem_of_find?_eq_some hfind) hp hid]

theorem find?_assign (id : ℕ) {set : ModelProfile → ModelProfile} (hset : ∀ p, (set p).id = p.id)
    (rows : List ModelProfile) : (assign id set rows).find? (·.id = id) = (rows.find? (·.id = id)).map set := by
  have hkeep : ((fun p : ModelProfile => decide (p.id = id)) ∘ fun p => if p.id = id then set p else p) =
      fun p => decide (p.id = id) := by
    funext p
    dsimp only [Function.comp_apply]
    split
    · rw [hset]
    · rfl
  unfold assign
  rw [List.find?_map, hkeep]
  cases hfind : rows.find? (·.id = id) with
  | none => rfl
  | some found =>
    have hid : found.id = id := by simpa using List.find?_some hfind
    exact congrArg some (if_pos hid)

/-- The other defaults do not include the profile itself. -/
theorem find?_cleared (id : ℕ) (rows : List ModelProfile) :
    (cleared (some id) rows).find? (·.id = id) = rows.find? (·.id = id) := by
  have hself : id ∉ otherDefaults (some id) rows := by
    intro h
    obtain ⟨p, hp, hid⟩ := List.mem_map.mp h
    rw [List.mem_filter, hid] at hp
    simp at hp
  have hkeep : ((fun p : ModelProfile => decide (p.id = id)) ∘ fun p =>
      if p.id ∈ otherDefaults (some id) rows then { p with isDefault := false } else p) =
      fun p => decide (p.id = id) := by
    funext p
    dsimp only [Function.comp_apply]
    split <;> rfl
  unfold cleared
  rw [List.find?_map, hkeep]
  cases hfind : rows.find? (·.id = id) with
  | none => rfl
  | some found =>
    have hid : found.id = id := by simpa using List.find?_some hfind
    rw [← hid] at hself
    exact congrArg some (if_neg (hid ▸ hself))

end Find

/-- The row a creation adds is the only one with a new key. -/
theorem find?_created (K : Fernet) (form : ModelProfileForm) (rows : List ModelProfile) :
    (createdRows K form rows).find? (fun p => p.id ∉ rows.map (·.id)) =
      some (newProfile K form (World.nextKey (rows.map (·.id)))) := by
  have hnew : ∀ {rows' : List ModelProfile}, rows'.map (·.id) = rows.map (·.id) →
      (rows' ++ [newProfile K form (World.nextKey (rows'.map (·.id)))]).find? (fun p => p.id ∉ rows.map (·.id)) =
        some (newProfile K form (World.nextKey (rows.map (·.id)))) := by
    intro rows' hids
    have hold : rows'.find? (fun p => p.id ∉ rows.map (·.id)) = none := by
      rw [List.find?_eq_none]
      intro p hp hfound
      exact (of_decide_eq_true hfound) (hids ▸ List.mem_map_of_mem hp)
    have hkey : (newProfile K form (World.nextKey (rows.map (·.id)))).id ∉ rows.map (·.id) := nextKey_not_mem _
    rw [List.find?_append, hold, hids, Option.none_or, List.find?_cons_of_pos (by simpa using hkey)]
  unfold createdRows
  dsimp only
  split
  · exact hnew (cleared_ids none rows)
  · exact hnew rfl

theorem find?_updated {C : Columns} (K : Fernet) (form : ModelProfileForm) {rows : List ModelProfile}
    (hs : Stored C rows) {profile : ModelProfile} (hp : profile ∈ rows) :
    (updatedRows K form profile.id rows).find? (·.id = profile.id) =
      some (withFlag form.isDefault (edited K form profile)) := by
  have hflag : ∀ p, (withFlag form.isDefault p).id = p.id := fun _ => rfl
  have hedited : ∀ p, (edited K form p).id = p.id := fun _ => rfl
  unfold updatedRows
  dsimp only
  rw [find?_assign _ hflag]
  split
  · rw [find?_cleared, find?_assign _ hedited, hs.find? hp]
    rfl
  · rw [find?_assign _ hedited, hs.find? hp]
    rfl

/-- The rows agree on every column but the key, the stored secrets after decryption. -/
structure Agree (K K' : Fernet) (created written : ModelProfile) : Prop where
  columns : { created with id := written.id, apiKey := written.apiKey } = written
  secrets : created.apiKey.map (decryptSecret K) = written.apiKey.map (decryptSecret K')

/-- The creation keeps the blanks around the key that the update strips. -/
theorem create_update_agree_iff (I : Interpreter) {C : Columns} {K K' : Fernet}
    (hK : ∀ value, decryptSecret K (encryptSecret K value) = some value)
    (hK' : ∀ value, decryptSecret K' (encryptSecret K' value) = some value)
    {rows rows' : List ModelProfile} (hs : Stored C rows) (hs' : Stored C rows')
    {submission : Submission} {form : ModelProfileForm} (hform : validateSubmission I submission = .ok form)
    (hkey : strip submission.apiKey ≠ []) (hfree : ¬ Taken rows form.name none)
    (hcreate : C.accepts (newProfile K form 0) = true) {profile : ModelProfile} (hp : profile ∈ rows')
    (hfree' : ¬ Taken rows' form.name (some profile.id)) (hupdate : C.accepts (edited K' form profile) = true) :
    ∃ created written,
      (settingsModelCreate I C K submission rows).2.find? (fun p => p.id ∉ rows.map (·.id)) = some created ∧
        (settingsModelUpdate I C K' profile.id submission rows').2.find? (·.id = profile.id) = some written ∧
        (Agree K K' created written ↔ strip submission.apiKey = submission.apiKey) := by
  obtain ⟨-, -, -, hsame, -⟩ := validateSubmission_ok I hform
  have hblank : (strip form.apiKey).isEmpty = false := by
    rw [hsame]
    simpa using hkey
  refine ⟨newProfile K form (World.nextKey (rows.map (·.id))), withFlag form.isDefault (edited K' form profile),
    ?_, ?_, ?_⟩
  · rw [settingsModelCreate_eq I K hs hform, if_neg (by simp [hcreate]), if_neg hfree]
    exact find?_created K form rows
  · rw [settingsModelUpdate_eq I K' hs' hp hform, if_neg (by simp [hupdate]), if_neg hfree']
    exact find?_updated K' form hs' hp
  · have hcreated : (newProfile K form (World.nextKey (rows.map (·.id)))).apiKey =
        some (encryptSecret K submission.apiKey) := by
      rw [← hsame]
      exact if_neg (by simp [hblank])
    have hwritten : (withFlag form.isDefault (edited K' form profile)).apiKey =
        some (encryptSecret K' (strip submission.apiKey)) := by
      rw [← hsame]
      exact if_neg (by simp [hblank])
    constructor
    · rintro ⟨-, hsecrets⟩
      rw [hcreated, hwritten, Option.map_some, Option.map_some, hK, hK'] at hsecrets
      exact (Option.some.inj (Option.some.inj hsecrets)).symm
    · intro hstripped
      refine ⟨rfl, ?_⟩
      rw [hcreated, hwritten, Option.map_some, Option.map_some, hK, hK', hstripped]

section Example

theorem reversing_undo (value : Text) : decryptSecret reversing (encryptSecret reversing value) = some value := by
  cases value with
  | nil => rfl
  | cons c rest =>
    have htoken : encryptSecret reversing (c :: rest) = (c :: rest).reverse := rfl
    have hopened : reversing.decrypt (c :: rest).reverse = some (c :: rest) := congrArg some (List.reverse_reverse _)
    unfold decryptSecret
    rw [htoken, if_neg (by simp), hopened]

theorem create_update_agree_key :
    ∃ created written,
      (settingsModelCreate asciiInterpreter anyColumns reversing (plainSubmission "new" "sk-key" true)
          twoProfiles).2.find? (fun p => p.id ∉ twoProfiles.map (·.id)) = some created ∧
        (settingsModelUpdate asciiInterpreter anyColumns reversing 2 (plainSubmission "new" "sk-key" true)
          twoProfiles).2.find? (·.id = 2) = some written ∧ Agree reversing reversing created written := by
  have hform : validateSubmission asciiInterpreter (plainSubmission "new" "sk-key" true) =
      .ok (plainForm "new" "sk-key" true) := rfl
  have hmem : plainProfile 2 "rename-me" ∈ twoProfiles := by simp [twoProfiles]
  obtain ⟨created, written, hcreated, hwritten, hagree⟩ :=
    create_update_agree_iff asciiInterpreter reversing_undo reversing_undo twoProfiles_stored twoProfiles_stored
      hform (by decide) (by decide) rfl hmem (by decide) rfl
  exact ⟨created, written, hcreated, hwritten, hagree.mpr (by decide)⟩

/-- A key with a blank behind it is stored in two ways. -/
theorem stored_keys_differ :
    ¬ ∀ (I : Interpreter) (C : Columns) (K : Fernet) (rows : List ModelProfile) (submission : Submission)
      (form : ModelProfileForm), (∀ value, decryptSecret K (encryptSecret K value) = some value) → Stored C rows →
      validateSubmission I submission = .ok form → strip submission.apiKey ≠ [] → ¬ Taken rows form.name none →
      ∀ profile ∈ rows, ∀ created ∈ (settingsModelCreate I C K submission rows).2.find? (fun p => p.id ∉ rows.map (·.id)),
        ∀ written ∈ (settingsModelUpdate I C K profile.id submission rows).2.find? (·.id = profile.id),
          Agree K K created written := by
  intro hclaim
  have hagree := hclaim asciiInterpreter anyColumns reversing twoProfiles (plainSubmission "new" "sk-key " true)
    (plainForm "new" "sk-key " true) reversing_undo twoProfiles_stored rfl (by decide) (by decide)
    (plainProfile 2 "rename-me") (by simp [twoProfiles]) _ rfl _ rfl
  exact absurd hagree.secrets (by decide)

end Example

end GitlabReviewer.Settings
