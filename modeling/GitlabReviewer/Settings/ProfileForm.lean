import GitlabReviewer.Models.Configuration
import GitlabReviewer.Python.JsonText

/-! # The form of a model profile

The form posts plain strings. They are normalized and checked field by field,
and what is wrong with them is reported by field.
-/
namespace GitlabReviewer.Settings
open Python Models

/-- What is taken from the interpreter as it is: the values of the decimal
digits, the `repr` of a text, and how floats are read. -/
structure Interpreter where
  digit : Char → Option ℕ
  repr : Text → Text
  floats : FloatFormat

structure Submission where
  name : Text
  provider : Text
  modelId : Text
  baseUrl : Text
  apiKey : Text
  apiKeyEnv : Text
  isDefault : Bool
  extraOpencodeJson : Text
  contextWindow : Text

/-- The validated payload. -/
structure ModelProfileForm where
  name : Text
  provider : Text
  modelId : Text
  baseUrl : Text
  apiKey : Text
  apiKeyEnv : Text
  isDefault : Bool
  extraOpencodeJson : List (Text × Json)
  contextWindow : Option ℤ

section Form
variable (I : Interpreter)

/-- The values of digits with single underscores between them. -/
def digitRun : Text → Option (List ℕ)
  | [] => none
  | [c] => (I.digit c).map ([·])
  | c :: '_' :: rest => do
      let d ← I.digit c
      let ds ← digitRun rest
      some (d :: ds)
  | c :: rest => do
      let d ← I.digit c
      let ds ← digitRun rest
      some (d :: ds)

/-- `int(text)`; none is its `ValueError`. -/
def parseInt (text : Text) : Option ℤ :=
  let (negative, digits) : Bool × Text := match strip text with
    | '-' :: rest => (true, rest)
    | '+' :: rest => (false, rest)
    | rest => (false, rest)
  match digitRun I digits with
  | none => none
  | some ds =>
      if intMaxStrDigits < ds.length then none
      else
        let n : ℕ := ds.foldl (fun n d => 10 * n + d) 0
        some (if negative then -n else n)

/-- `{loc}: {msg}`. -/
def fieldError (field message : String) : Text := (field ++ ": " ++ message).toList

/-- `_required` on the fields `name` and `model_id`. -/
def required (field : String) (value : Text) : Except Text Text :=
  if (strip value).isEmpty then .error (fieldError field "Value error, must not be empty") else .ok (strip value)

def providerField (value : Text) : Except Text Text :=
  if value = anthropicProvider ∨ value = localProvider then .ok value
  else .error (fieldError "provider" "Input should be 'anthropic' or 'local'")

/-- `_base_url`: the provider is known only if it was valid. -/
def baseUrlField (provider : Except Text Text) (value : Text) : Except Text Text :=
  if provider = .ok localProvider ∧ (strip value).isEmpty then
    .error (fieldError "base_url"
      "Value error, required for local models (the OpenAI-compatible /v1 endpoint)")
  else .ok (strip value)

/-- `_parse_json`. The error `json.loads` raises for an integer that is too long is not told apart. -/
def parseJsonField (value : Text) : Except Text (List (Text × Json)) :=
  if value.isEmpty then .ok []
  else match loads I.floats value with
    | none => .error (fieldError "extra_opencode_json" "Value error, must be valid JSON")
    | some (.obj fields) => .ok fields
    | some _ => .error (fieldError "extra_opencode_json" "Value error, must be a JSON object")

def contextWindowField (window : Option ℤ) : Except Text (Option ℤ) :=
  match window with
  | none => .ok none
  | some n =>
      if 1 ≤ n then .ok (some n)
      else .error (fieldError "context_window" "Input should be greater than or equal to 1")

def problem {α : Type} : Except Text α → List Text
  | .error message => [message]
  | .ok _ => []

/-- `ModelProfileForm(...)`, or the errors of all its fields in order. -/
def modelProfileForm (submission : Submission) (window : Option ℤ) : Except (List Text) ModelProfileForm :=
  let name := required "name" submission.name
  let provider := providerField submission.provider
  let modelId := required "model_id" submission.modelId
  let baseUrl := baseUrlField provider submission.baseUrl
  let extraOpencodeJson := parseJsonField I submission.extraOpencodeJson
  let contextWindow := contextWindowField window
  match name, provider, modelId, baseUrl, extraOpencodeJson, contextWindow with
  | .ok name, .ok provider, .ok modelId, .ok baseUrl, .ok extraOpencodeJson, .ok contextWindow =>
      .ok { name, provider, modelId, baseUrl, apiKey := submission.apiKey, apiKeyEnv := submission.apiKeyEnv,
            isDefault := submission.isDefault, extraOpencodeJson, contextWindow }
  | name, provider, modelId, baseUrl, extraOpencodeJson, contextWindow =>
      .error (problem name ++ problem provider ++ problem modelId ++ problem baseUrl ++
        problem extraOpencodeJson ++ problem contextWindow)

/-- The validated form, or the errors the page shows. -/
def validateSubmission (submission : Submission) : Except (List Text) ModelProfileForm :=
  if (strip submission.contextWindow).isEmpty then modelProfileForm I submission none
  else match parseInt I submission.contextWindow with
    | none => .error ["context_window must be a positive integer (tokens)".toList]
    | some window => modelProfileForm I submission (some window)

/-- The form carries the fields of the submission that are not checked as they are. -/
theorem validateSubmission_ok {submission : Submission} {form : ModelProfileForm}
    (h : validateSubmission I submission = .ok form) :
    form.name = strip submission.name ∧ form.name ≠ [] ∧ form.isDefault = submission.isDefault ∧
      form.apiKey = submission.apiKey ∧ form.apiKeyEnv = submission.apiKeyEnv := by
  have hform : ∀ {window : Option ℤ}, modelProfileForm I submission window = .ok form →
      form.name = strip submission.name ∧ form.name ≠ [] ∧ form.isDefault = submission.isDefault ∧
        form.apiKey = submission.apiKey ∧ form.apiKeyEnv = submission.apiKeyEnv := by
    intro window h
    unfold modelProfileForm at h
    dsimp only at h
    split at h
    · rename_i name _ _ _ _ _ hname _ _ _ _ _
      cases h
      unfold required at hname
      split at hname
      · cases hname
      · rename_i hne
        cases hname
        exact ⟨rfl, by simpa using hne, rfl, rfl, rfl⟩
    · cases h
  unfold validateSubmission at h
  split at h
  · exact hform h
  · split at h
    · cases h
    · exact hform h

end Form

end GitlabReviewer.Settings
