import GitlabReviewer.Orchestrator.Environment
import GitlabReviewer.Python.JsonEquality

/-! # The two renderers of opencode.json

The application renders the configuration of a model profile as a document; the
entrypoint renders its own from the environment, through a text template.
-/
namespace GitlabReviewer.Orchestrator
open Python Models Libraries

def anthropicNpm : Text := "@ai-sdk/anthropic".toList
def openaiCompatibleNpm : Text := "@ai-sdk/openai-compatible".toList
def defaultMaxOutputTokens : ℤ := 32768

def defaultPermissions : Json :=
  .obj [("bash".toList, .str "allow".toList), ("edit".toList, .str "allow".toList),
    ("webfetch".toList, .str "allow".toList), ("external_directory".toList, .str "allow".toList)]

/-- The entry that declares a model, with its limits if the context is known. -/
def modelEntry (modelId : Text) (context : Option ℤ) : Json :=
  .obj (("name".toList, .str modelId) ::
    match context with
    | some window =>
        [("limit".toList, .obj [("context".toList, .int window), ("output".toList, .int defaultMaxOutputTokens)])]
    | none => [])

def apiKeyOption (apiKey : Text) : List (Text × Json) :=
  if apiKey.isEmpty then [] else [("apiKey".toList, .str apiKey)]

/-- `_provider_block` for a resolved key. -/
def providerBlock (C : Process) (profile : ModelProfile) (apiKey : Text) : Json :=
  if profile.provider = anthropicProvider then
    .obj [("npm".toList, .str anthropicNpm), ("options".toList, .obj (apiKeyOption apiKey))]
  else
    .obj [("npm".toList, .str openaiCompatibleNpm),
      ("options".toList, .obj (("baseURL".toList, .str (resolveBaseUrl C profile)) :: apiKeyOption apiKey)),
      ("models".toList, .obj [(profile.modelId, modelEntry profile.modelId (contextWindow profile))])]

mutual
/-- `_deep_merge`. -/
def deepMerge (base : Json) : Json → Json
  | .obj extra =>
      match base with
      | .obj fields => .obj (mergeFields fields extra)
      | _ => .obj extra
  | .null => .null
  | .bool b => .bool b
  | .int n => .int n
  | .float f => .float f
  | .str s => .str s
  | .arr items => .arr items
def mergeFields (merged : List (Text × Json)) : List (Text × Json) → List (Text × Json)
  | [] => merged
  | (key, value) :: extra =>
      mergeFields (insertField merged key (match merged.lookup key with
        | some base => deepMerge base value
        | none => value)) extra
end

def modelName (provider modelId : Text) : Text := provider ++ '/' :: modelId

/-- The document before the profile's own additions. -/
def baseConfig (provider modelId : Text) (block : Json) : Json :=
  .obj [("provider".toList, .obj [(provider, block)]), ("model".toList, .str (modelName provider modelId)),
    ("permission".toList, defaultPermissions)]

/-- `render_opencode_json`; none is an error of the decryption. -/
def renderOpencodeJson (C : Process) (profile : ModelProfile) : Option Json :=
  (resolveApiKey C profile).map fun apiKey =>
    let config := baseConfig profile.provider profile.modelId (providerBlock C profile apiKey)
    match profile.extraOpencodeJson with
    | .obj [] => config
    | .obj extra => deepMerge config (.obj extra)
    | _ => config

section Entrypoint
variable (F : FloatFormat) (env : Env)

/-- The context limit of the environment; only ASCII digits are taken for digits. -/
def envContext : Option ℤ :=
  let context := strip (getenv env "OPENCODE_MODEL_CONTEXT")
  if !context.isEmpty && context.all isDigit && 0 < readDigits context then some (readDigits context) else none

def envProviderBlock : Json :=
  let apiKey := getenv env "OPENCODE_API_KEY"
  let modelId := getenv env "OPENCODE_MODEL"
  if getenv env "OPENCODE_PROVIDER" = anthropicProvider then
    .obj [("npm".toList, .str anthropicNpm), ("options".toList, .obj (apiKeyOption apiKey))]
  else
    .obj [("npm".toList, .str openaiCompatibleNpm),
      ("options".toList, .obj (("baseURL".toList, .str (getenv env "OPENCODE_BASE_URL")) :: apiKeyOption apiKey)),
      ("models".toList, .obj [(modelId, modelEntry modelId (envContext env))])]

/-- The lines of the template without a placeholder. -/
def permissionLines : Text :=
  "  \"permission\": \x7b\"bash\": \"allow\", \"edit\": \"allow\", \"webfetch\": \"allow\", \"external_directory\": \"allow\"\x7d\n\x7d\n".toList

/-- The template with its placeholders replaced by texts. -/
def renderTemplate (provider block model : Text) : Text :=
  "\x7b\n  \"provider\": \x7b\"".toList ++ provider ++ "\": ".toList ++ block ++ "\x7d,\n  \"model\": \"".toList ++ model ++
    "\",\n".toList ++ permissionLines

def renderedText : Text :=
  renderTemplate (getenv env "OPENCODE_PROVIDER") (dumps F true none (envProviderBlock env))
    (modelName (getenv env "OPENCODE_PROVIDER") (getenv env "OPENCODE_MODEL"))

/-- `_render_opencode_config`: the text of the file; none where the template does not give JSON. -/
def renderOpencodeConfig : Option Text :=
  if (loads F (renderedText F env)).isSome then some (rstripNewlines (renderedText F env) ++ ['\n']) else none

end Entrypoint

/-- What `ModelProfileForm` accepts: one of two providers, a model id, a base url
for local models, a JSON object of additions, and a window read from a text. -/
structure Accepted (F : FloatFormat) (profile : ModelProfile) : Prop where
  provider : profile.provider = anthropicProvider ∨ profile.provider = localProvider
  modelId : profile.modelId ≠ [] ∧ strip profile.modelId = profile.modelId
  baseUrl : profile.provider = localProvider → given profile.baseUrl = true
  extra : ∃ fields, profile.extraOpencodeJson = .obj fields ∧ Dumpable F (.obj fields)
  window : ∀ n ∈ profile.contextWindow, 1 ≤ n ∧ n.natAbs < 10 ^ intMaxStrDigits

section Carried
variable {E : Runtime} {F : FloatFormat} {C : Process} {job : ScheduledJob} {profile : ModelProfile}
  {settings : SettingsRow} {mr : MergeRequest} {env : Env}

/-- What the entrypoint finds in the environment. -/
structure Carries (C : Process) (profile : ModelProfile) (apiKey : Text) (env : Env) : Prop where
  provider : getenv env "OPENCODE_PROVIDER" = profile.provider
  model : getenv env "OPENCODE_MODEL" = profile.modelId
  apiKey : getenv env "OPENCODE_API_KEY" = apiKey
  baseUrl : profile.provider = localProvider → getenv env "OPENCODE_BASE_URL" = resolveBaseUrl C profile
  context : getenv env "OPENCODE_MODEL_CONTEXT" = orEmpty ((contextWindow profile).map reprInt)

theorem carries_buildEnv (h : buildEnv E F C job profile settings mr = some env) :
    ∃ apiKey, resolveApiKey C profile = some apiKey ∧ Carries C profile apiKey env := by
  obtain ⟨token, -, h⟩ := Option.bind_eq_some_iff.mp h
  obtain ⟨entries, -, h⟩ := Option.bind_eq_some_iff.mp h
  obtain ⟨prompt, -, h⟩ := Option.bind_eq_some_iff.mp h
  obtain ⟨apiKey, hkey, h⟩ := Option.bind_eq_some_iff.mp h
  cases h
  refine ⟨apiKey, hkey, rfl, rfl, ?_, ?_, ?_⟩
  · rw [getenv, List.append_assoc, List.append_assoc, List.lookup_append, List.lookup_append, List.lookup_append,
      lookup_optional, lookup_optional_ne (by decide), lookup_optional_ne (by decide)]
    by_cases hempty : apiKey = []
    · subst hempty
      rfl
    · rw [if_neg (by simpa using hempty)]
      rfl
  · intro hlocal
    rw [getenv, List.append_assoc, List.append_assoc, List.lookup_append, List.lookup_append, List.lookup_append,
      lookup_optional, lookup_optional_ne (by decide), lookup_optional_ne (by decide), if_pos hlocal]
    rfl
  · rw [getenv, List.append_assoc, List.append_assoc, List.lookup_append, List.lookup_append, List.lookup_append,
      lookup_optional, lookup_optional_ne (by decide), lookup_optional_ne (by decide)]
    rfl

/-- The context window is read back from the environment. -/
theorem envContext_of_carries {apiKey : Text} (h : Carries C profile apiKey env) (ha : Accepted F profile) :
    envContext env = contextWindow profile := by
  rw [envContext, h.context]
  cases hw : profile.contextWindow with
  | none =>
    simp only [contextWindow, hw]
    rfl
  | some n =>
    obtain ⟨hpos, -⟩ := ha.window n hw
    have hne : n ≠ 0 := by omega
    have hdigits := isDigit_decimal n.natAbs
    have htext : reprInt n = decimal n.natAbs := by rw [reprInt, if_neg (by omega)]
    have hstrip : strip (decimal n.natAbs) = decimal n.natAbs := by
      apply stripBy_of_forall
      intro c hc
      exact isSpace_of_isDigit (hdigits c hc)
    have hcontext : contextWindow profile = some n := by simp only [contextWindow, hw, if_neg hne]
    rw [hcontext, Option.map_some, orEmpty, Option.getD_some, htext]
    rw [hstrip]
    have hcond : (!(decimal n.natAbs).isEmpty && (decimal n.natAbs).all isDigit &&
        decide (0 < readDigits (decimal n.natAbs))) = true := by
      rw [readDigits_decimal, Bool.and_eq_true, Bool.and_eq_true, List.all_eq_true]
      refine ⟨⟨?_, hdigits⟩, ?_⟩
      · simpa using decimal_ne_nil n.natAbs
      · simpa using hne
    rw [if_pos hcond, readDigits_decimal]
    congr 1
    omega

theorem envProviderBlock_of_carries {apiKey : Text} (h : Carries C profile apiKey env) (ha : Accepted F profile) :
    envProviderBlock env = providerBlock C profile apiKey := by
  unfold envProviderBlock providerBlock
  dsimp only
  rw [h.provider, h.model, h.apiKey, envContext_of_carries h ha]
  split
  · rfl
  · rename_i hprovider
    rw [h.baseUrl (ha.provider.resolve_left hprovider)]

end Carried

end GitlabReviewer.Orchestrator
