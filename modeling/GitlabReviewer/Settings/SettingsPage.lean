import GitlabReviewer.Gitlab.Pagination
import GitlabReviewer.Python.JsonRoundTrip
import GitlabReviewer.Settings.Profiles
import GitlabReviewer.Settings.SettingsForm

/-! # Saving the settings

The page shows the settings row as texts; what is posted is checked field by
field and stored as a whole or not at all. The token is not shown, and a blank
one keeps the stored one.
-/
namespace GitlabReviewer.Settings
open Python Models

/-- The settings singleton with all its columns. -/
structure StoredSettings extends SettingsRow where
  nightlyTime : Text
  maxConcurrentReviews : ℤ
  pollIntervalSeconds : ℤ
  postResultsToGitlab : Bool
  knownLibraries : List Json

/-- The row `get_settings_row` creates. -/
def initialSettings : StoredSettings where
  gitlabUrl := []
  gitlabProject := []
  gitlabToken := []
  defaultReviewPrompt := []
  gitlabDefaultBranch := none
  nightlyTime := "02:30".toList
  maxConcurrentReviews := 2
  pollIntervalSeconds := 30
  postResultsToGitlab := false
  knownLibraries := []

/-- The posted fields of the settings page. -/
structure SettingsSubmission where
  gitlabUrl : Text
  gitlabProject : Text
  gitlabToken : Text
  defaultReviewPrompt : Text
  knownLibraries : Text
  nightlyTime : Text
  maxConcurrentReviews : Text
  pollIntervalSeconds : Text
  postResultsToGitlab : Bool

structure KnownLibrary where
  url : Text
  ref : Option Text
  path : Option Text

/-- The validated payload, as far as it is not the submission itself. -/
structure SettingsForm where
  knownLibraries : List KnownLibrary
  nightlyTime : Text
  maxConcurrentReviews : ℤ
  pollIntervalSeconds : ℤ

def libraryError (index : ℕ) (field message : String) : Text := fieldError ("known_libraries." ++ toString index ++ field) message

/-- `KnownLibrary.url`. -/
def libraryUrl (index : ℕ) : Option Json → Except Text Text
  | none => .error (libraryError index ".url" "Field required")
  | some (.str s) =>
      if s.isEmpty then .error (libraryError index ".url" "String should have at least 1 character")
      else if (strip s).isEmpty then .error (libraryError index ".url" "Value error, url must not be empty")
      else .ok (strip s)
  | some _ => .error (libraryError index ".url" "Input should be a valid string")

/-- `KnownLibrary._optional_text`. -/
def optionalText (index : ℕ) (field : String) : Option Json → Except Text (Option Text)
  | none => .ok none
  | some .null => .ok none
  | some (.str s) => .ok (orNone s)
  | some _ => .error (libraryError index field "Value error, ref and path must be strings")

def knownLibrary (index : ℕ) : Json → Except (List Text) KnownLibrary
  | .obj fields =>
      let url := libraryUrl index (fields.lookup "url".toList)
      let ref := optionalText index ".ref" (fields.lookup "ref".toList)
      let path := optionalText index ".path" (fields.lookup "path".toList)
      match url, ref, path with
      | .ok url, .ok ref, .ok path => .ok { url, ref, path }
      | url, ref, path => .error (problem url ++ problem ref ++ problem path)
  | _ => .error [libraryError index "" "Input should be a valid dictionary or instance of KnownLibrary"]

/-- The items from an index on, or what is wrong with any of them. -/
def knownLibraryItems : ℕ → List Json → Except (List Text) (List KnownLibrary)
  | _, [] => .ok []
  | index, item :: items =>
      match knownLibrary index item, knownLibraryItems (index + 1) items with
      | .ok library, .ok libraries => .ok (library :: libraries)
      | .ok _, .error errors => .error errors
      | .error errors, .ok _ => .error errors
      | .error errors, .error more => .error (errors ++ more)

section Form
variable (I : Interpreter)

/-- `SettingsForm.known_libraries` of the posted text. -/
def knownLibrariesField (value : Text) : Except (List Text) (List KnownLibrary) :=
  if value.isEmpty then .ok []
  else match loads I.floats value with
    | none => .error [fieldError "known_libraries" "Value error, must be valid JSON"]
    | some (.arr items) => knownLibraryItems 0 items
    | some _ => .error [fieldError "known_libraries" "Value error, must be a JSON list of \x7burl, ref, path\x7d objects"]

/-- `SettingsForm.max_concurrent_reviews`. -/
def maxReviewsField (value : ℤ) : Except Text ℤ :=
  if value < 1 then .error (fieldError "max_concurrent_reviews" "Input should be greater than or equal to 1")
  else if 64 < value then .error (fieldError "max_concurrent_reviews" "Input should be less than or equal to 64")
  else .ok value

def problems {α : Type} : Except (List Text) α → List Text
  | .error messages => messages
  | .ok _ => []

/-- `SettingsForm(...)`, or the errors of all its fields in order. -/
def settingsForm (submission : SettingsSubmission) (maxReviews pollSeconds : ℤ) : Except (List Text) SettingsForm :=
  let knownLibraries := knownLibrariesField I submission.knownLibraries
  let nightlyTime := nightlyField I submission.nightlyTime
  let maxConcurrentReviews := maxReviewsField maxReviews
  let pollIntervalSeconds := pollIntervalField pollSeconds
  match knownLibraries, nightlyTime, maxConcurrentReviews, pollIntervalSeconds with
  | .ok knownLibraries, .ok nightlyTime, .ok maxConcurrentReviews, .ok pollIntervalSeconds =>
      .ok { knownLibraries, nightlyTime, maxConcurrentReviews, pollIntervalSeconds }
  | knownLibraries, nightlyTime, maxConcurrentReviews, pollIntervalSeconds =>
      .error (problems knownLibraries ++ problem nightlyTime ++ problem maxConcurrentReviews ++ problem pollIntervalSeconds)

/-- The validated form, or the errors the page shows. -/
def validateSettings (submission : SettingsSubmission) : Except (List Text) SettingsForm :=
  match parseInt I submission.maxConcurrentReviews, parseInt I submission.pollIntervalSeconds with
  | some maxReviews, some pollSeconds => settingsForm I submission maxReviews pollSeconds
  | _, _ => .error ["max_concurrent_reviews and poll_interval_seconds must be integers".toList]

end Form

/-- `KnownLibrary.model_dump(exclude_none=True)`. -/
def libraryFields (library : KnownLibrary) : List (Text × Json) :=
  ("url".toList, .str library.url) :: ((library.ref.map fun ref => ("ref".toList, Json.str ref)).toList ++
    (library.path.map fun path => ("path".toList, Json.str path)).toList)

def libraryEntry (library : KnownLibrary) : Json := .obj (libraryFields library)

def saved (K : Fernet) (submission : SettingsSubmission) (form : SettingsForm) (row : StoredSettings) : StoredSettings where
  gitlabUrl := strip submission.gitlabUrl
  gitlabProject := strip submission.gitlabProject
  gitlabToken := if (strip submission.gitlabToken).isEmpty then row.gitlabToken else encryptSecret K (strip submission.gitlabToken)
  defaultReviewPrompt := submission.defaultReviewPrompt
  gitlabDefaultBranch := if row.gitlabProject = strip submission.gitlabProject then row.gitlabDefaultBranch else none
  nightlyTime := form.nightlyTime
  maxConcurrentReviews := form.maxConcurrentReviews
  pollIntervalSeconds := form.pollIntervalSeconds
  postResultsToGitlab := submission.postResultsToGitlab
  knownLibraries := form.knownLibraries.map libraryEntry

inductive SavePage where
  | rejected (errors : List Text)
  | saved
  deriving DecidableEq

/-- The handler of the settings form; the columns may refuse the row at the commit. -/
def settingsSave (I : Interpreter) (accepts : StoredSettings → Bool) (K : Fernet) (submission : SettingsSubmission)
    (row : StoredSettings) : Except DbError SavePage × StoredSettings :=
  match validateSettings I submission with
  | .error errors => (.ok (.rejected errors), row)
  | .ok form =>
      if accepts (saved K submission form row) then (.ok .saved, saved K submission form row)
      else (.error .data, row)

/-- The fields of the page of a row; the token's is always empty. -/
def shownSettings (I : Interpreter) (defaultPrompt : Text) (row : StoredSettings) : SettingsSubmission where
  gitlabUrl := row.gitlabUrl
  gitlabProject := row.gitlabProject
  gitlabToken := []
  defaultReviewPrompt := if row.defaultReviewPrompt.isEmpty then defaultPrompt else row.defaultReviewPrompt
  knownLibraries := if row.knownLibraries.isEmpty then [] else dumps I.floats true (some 2) (.arr row.knownLibraries)
  nightlyTime := row.nightlyTime
  maxConcurrentReviews := reprInt row.maxConcurrentReviews
  pollIntervalSeconds := reprInt row.pollIntervalSeconds
  postResultsToGitlab := row.postResultsToGitlab

end GitlabReviewer.Settings
