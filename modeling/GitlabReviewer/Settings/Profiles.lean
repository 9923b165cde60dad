import GitlabReviewer.Foundation.UnitOfWork
import GitlabReviewer.Scheduling.Operations
import GitlabReviewer.Settings.ProfileForm

/-! # Creating, editing and deleting model profiles

The handlers of the settings page and of the two schedule forms, each run in a
session of its own. A name is unique in the table, so a flush raises where two
rows have the same one; the types of the columns refuse some rows as well.
-/
namespace GitlabReviewer.Settings
open Python Foundation Models Scheduling

inductive DbError where
  | integrity
  | data
  deriving DecidableEq

/-- What the column types accept; no limit is on the key or on the flag. -/
structure Columns where
  accepts : ModelProfile → Bool
  accepts_flag : ∀ profile isDefault, accepts { profile with isDefault } = accepts profile
  accepts_key : ∀ profile id, accepts { profile with id } = accepts profile

/-- The constraints of `model_profile` at a flush. -/
def checkProfiles (C : Columns) (rows : List ModelProfile) : Except DbError Unit :=
  if rows.all C.accepts = false then .error .data
  else if (rows.map (·.name)).Nodup then .ok ()
  else .error .integrity

/-- `Fernet(key)`: what a call of `encrypt` answers, and `decrypt`. -/
structure Fernet where
  encrypt : Text → Text
  decrypt : Text → Option Text

section Secrets
variable (K : Fernet)

/-- `encrypt_secret`: empty strings pass through unencrypted. -/
def encryptSecret (value : Text) : Text := if value.isEmpty then [] else K.encrypt value

/-- `decrypt_secret`. -/
def decryptSecret (value : Text) : Option Text := if value.isEmpty then some [] else K.decrypt value

end Secrets

/-- `value or None`. -/
def orNone (value : Text) : Option Text := if value.isEmpty then none else some value

/-- What the browser gets: the profiles section, or a form with its errors. -/
inductive Page where
  | profiles (message deleteError : Option Text)
  | rejected (errors : List Text)
  deriving DecidableEq

section Handlers
variable (I : Interpreter) (C : Columns) (K : Fernet)

def nameTaken (name : Text) : Text :=
  "name: a profile named ".toList ++ I.repr name ++ " already exists".toList
def updatedMessage (name : Text) : Text := "Model profile ".toList ++ I.repr name ++ " updated.".toList
def addedMessage (name : Text) : Text := "Model profile ".toList ++ I.repr name ++ " added.".toList
def noProfile (id : ℕ) : Text := ("No profile with id " ++ toString id ++ ".").toList
def inUseMessage (name : Text) (jobs : ℕ) : Text :=
  "Profile ".toList ++ I.repr name ++ " is used by ".toList ++ (toString jobs).toList ++
    " job(s) and can't be deleted while jobs reference it (job rows are kept as history).".toList

/-- Attributes of the object with this key are set. -/
def assign (id : ℕ) (set : ModelProfile → ModelProfile) (rows : List ModelProfile) : List ModelProfile :=
  rows.map fun profile => if profile.id = id then set profile else profile

/-- The default profiles other than `except`. -/
def otherDefaults (except : Option ℕ) (rows : List ModelProfile) : List ℕ :=
  (rows.filter fun profile => profile.isDefault && decide (some profile.id ≠ except)).map (·.id)

/-- `for other in db.scalars(select(...)): other.is_default = False`. -/
def clearDefaults (except : Option ℕ) (s : UnitOfWork ModelProfile) : Except DbError (UnitOfWork ModelProfile) := do
  let (others, s) ← s.select (checkProfiles C) (otherDefaults except)
  .ok (s.change fun rows => rows.map fun profile =>
    if profile.id ∈ others then { profile with isDefault := false } else profile)

/-- `db.commit()` with the handler of `IntegrityError`; any other error leaves the request. -/
def commitNamed (name message : Text) (stored : List ModelProfile) (s : UnitOfWork ModelProfile) :
    Except DbError Page × List ModelProfile :=
  match s.commit (checkProfiles C) with
  | .ok rows => (.ok (.profiles (some message) none), rows)
  | .error .integrity => (.ok (.rejected [nameTaken I name]), stored)
  | .error e => (.error e, stored)

/-- The fields the update sets before it looks at the flags. -/
def edited (form : ModelProfileForm) (profile : ModelProfile) : ModelProfile :=
  { profile with
    name := form.name
    provider := form.provider
    modelId := form.modelId
    baseUrl := orNone form.baseUrl
    apiKey :=
      if (strip form.apiKey).isEmpty then profile.apiKey else some (encryptSecret K (strip form.apiKey))
    apiKeyEnv := orNone (strip form.apiKeyEnv)
    extraOpencodeJson := .obj form.extraOpencodeJson
    contextWindow := form.contextWindow }

def withFlag (isDefault : Bool) (profile : ModelProfile) : ModelProfile := { profile with isDefault }

/-- The session of an update when its commit comes. -/
def updateSession (form : ModelProfileForm) (id : ℕ) (stored : List ModelProfile) :
    Except DbError (UnitOfWork ModelProfile) := do
  let s := (UnitOfWork.begin stored).change (assign id (edited K form))
  let s ← if form.isDefault then clearDefaults C (some id) s else .ok s
  .ok (s.change (assign id (withFlag form.isDefault)))

def settingsModelUpdate (id : ℕ) (submission : Submission) (stored : List ModelProfile) :
    Except DbError Page × List ModelProfile :=
  match stored.find? (·.id = id) with
  | none => (.ok (.profiles none (some (noProfile id))), stored)
  | some _ =>
      match validateSubmission I submission with
      | .error errors => (.ok (.rejected errors), stored)
      | .ok form =>
          match updateSession C K form id stored with
          | .error e => (.error e, stored)
          | .ok s => commitNamed I C form.name (updatedMessage I form.name) stored s

def newProfile (form : ModelProfileForm) (id : ℕ) : ModelProfile :=
  { id
    name := form.name
    provider := form.provider
    modelId := form.modelId
    baseUrl := orNone form.baseUrl
    apiKey := if (strip form.apiKey).isEmpty then none else some (encryptSecret K form.apiKey)
    apiKeyEnv := orNone (strip form.apiKeyEnv)
    isDefault := form.isDefault
    extraOpencodeJson := .obj form.extraOpencodeJson
    contextWindow := form.contextWindow }

/-- The session of a creation when its commit comes. -/
def createSession (form : ModelProfileForm) (isDefault : Bool) (stored : List ModelProfile) :
    Except DbError (UnitOfWork ModelProfile) := do
  let s := UnitOfWork.begin stored
  let s ← if isDefault then clearDefaults C none s else .ok s
  .ok (s.change fun rows => rows ++ [newProfile K form (World.nextKey (rows.map (·.id)))])

def settingsModelCreate (submission : Submission) (stored : List ModelProfile) :
    Except DbError Page × List ModelProfile :=
  match validateSubmission I submission with
  | .error errors => (.ok (.rejected errors), stored)
  | .ok form =>
      match createSession C K form submission.isDefault stored with
      | .error e => (.error e, stored)
      | .ok s => commitNamed I C form.name (addedMessage I form.name) stored s

def settingsModelDelete (id : ℕ) (jobs : List ScheduledJob) (stored : List ModelProfile) :
    Except DbError Page × List ModelProfile :=
  match stored.find? (·.id = id) with
  | none => (.ok (.profiles none (some (noProfile id))), stored)
  | some profile =>
      let inUse := jobs.countP (·.modelProfileId = profile.id)
      if inUse ≠ 0 then (.ok (.profiles none (some (inUseMessage I profile.name inUse))), stored)
      else
        let s := (UnitOfWork.begin stored).change fun rows => rows.filter (·.id ≠ profile.id)
        match s.commit (checkProfiles C) with
        | .ok rows => (.ok (.profiles none none), rows)
        | .error e => (.error e, stored)

end Handlers

end GitlabReviewer.Settings
