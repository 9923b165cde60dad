import GitlabReviewer.Orchestrator.Prompt
import GitlabReviewer.Python.JsonText

/-! # The environment of a review container

Everything the container learns it learns from its environment. Secrets are
decrypted here, and the extra projects are normalized as the prompt has them.
-/
namespace GitlabReviewer.Orchestrator
open Python Models Libraries

/-- Truth of an optional text: there, and not empty. -/
def given (value : Option Text) : Bool := truthy (orEmpty value)

/-- `resolve_api_key`; none is an error of the decryption. -/
def resolveApiKey (C : Process) (profile : ModelProfile) : Option Text :=
  if given profile.apiKeyEnv then some ((C.environ.lookup (orEmpty profile.apiKeyEnv)).getD [])
  else if given profile.apiKey then C.decrypt (orEmpty profile.apiKey)
  else if profile.provider = anthropicProvider ∧ given C.anthropicApiKey then some (orEmpty C.anthropicApiKey)
  else some []

/-- `profile.base_url or llama_base_url or ""`. -/
def resolveBaseUrl (C : Process) (profile : ModelProfile) : Text :=
  if given profile.baseUrl then orEmpty profile.baseUrl else orEmpty C.llamaBaseUrl

/-- The context window of a profile, if it is neither missing nor zero. -/
def contextWindow (profile : ModelProfile) : Option ℤ :=
  match profile.contextWindow with
  | some window => if window = 0 then none else some window
  | none => none

/-- `decrypt_secret(settings.gitlab_token) if settings.gitlab_token else ""`. -/
def gitlabToken (C : Process) (settings : SettingsRow) : Option Text :=
  if settings.gitlabToken.isEmpty then some [] else C.decrypt settings.gitlabToken

abbrev Env := List (Text × Text)

/-- `env[key] = value` if there is a value. -/
def optional (key : String) (value : Option Text) : Env :=
  match value with
  | some value => [(key.toList, value)]
  | none => []

/-- `build_env`; none is an error of the decryption or of an entry's url. -/
def buildEnv (E : Runtime) (F : FloatFormat) (C : Process) (job : ScheduledJob) (profile : ModelProfile)
    (settings : SettingsRow) (mr : MergeRequest) : Option Env := do
  let token ← gitlabToken C settings
  let entries ← normalizeExtraProjects E job.extraProjects
  let prompt ← buildReviewPrompt E job settings mr
  let apiKey ← resolveApiKey C profile
  some ([ ("GITLAB_URL".toList, settings.gitlabUrl),
      ("GITLAB_TOKEN".toList, token),
      ("TARGET_PROJECT".toList, settings.gitlabProject),
      ("MR_IID".toList, reprInt mr.iid),
      ("MR_SHA".toList, mr.sha),
      ("SOURCE_BRANCH".toList, mr.sourceBranch),
      ("TARGET_BRANCH".toList, mr.targetBranch),
      ("EXTRA_PROJECTS".toList, dumps F true none (.arr entries)),
      ("OPENCODE_PROVIDER".toList, profile.provider),
      ("OPENCODE_MODEL".toList, profile.modelId),
      ("REVIEW_PROMPT".toList, prompt),
      ("REVIEW_TIMEOUT_SECONDS".toList, reprInt C.reviewTimeoutSeconds),
      ("RESULT_PATH".toList, "/out/result.json".toList),
      ("LOG_PATH".toList, "/out/review.log".toList),
      ("SESSION_PATH".toList, "/out/session.json".toList) ] ++
    optional "OPENCODE_API_KEY" (if apiKey.isEmpty then none else some apiKey) ++
    optional "OPENCODE_BASE_URL" (if profile.provider = localProvider then some (resolveBaseUrl C profile) else none) ++
    optional "OPENCODE_MODEL_CONTEXT" ((contextWindow profile).map reprInt))

/-- `os.environ.get(key, "")` in the container. -/
def getenv (env : Env) (key : String) : Text := (env.lookup key.toList).getD []

theorem lookup_optional (key : String) (value : Option Text) : (optional key value).lookup key.toList = value := by
  cases value <;> simp [optional]

theorem lookup_optional_ne {key other : String} (h : other.toList ≠ key.toList) (value : Option Text) :
    (optional key value).lookup other.toList = none := by
  cases value with
  | none => rfl
  | some value => rw [optional, List.lookup_cons, beq_eq_false_iff_ne.mpr h]; rfl

end GitlabReviewer.Orchestrator
