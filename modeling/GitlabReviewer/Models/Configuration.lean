import GitlabReviewer.Models.Rows

/-! # Settings, model profiles and cached merge requests

The other rows the services read, and the process configuration with the two
things it is read through: the environment and the decryption of stored secrets.
-/
namespace GitlabReviewer.Models
open Python

structure SettingsRow where
  gitlabUrl : Text
  gitlabProject : Text
  gitlabToken : Text
  defaultReviewPrompt : Text
  gitlabDefaultBranch : Option Text

structure ModelProfile where
  id : ℕ
  name : Text
  provider : Text
  modelId : Text
  baseUrl : Option Text
  apiKey : Option Text
  apiKeyEnv : Option Text
  isDefault : Bool
  extraOpencodeJson : Json
  contextWindow : Option ℤ

structure MergeRequest where
  id : ℕ
  project : Text
  iid : ℤ
  title : Text
  author : Text
  sourceBranch : Text
  targetBranch : Text
  sha : Text
  webUrl : Text
  state : Text
  updatedAt : Option Timestamp
  lastSeenAt : Option Timestamp
  deriving DecidableEq

def anthropicProvider : Text := "anthropic".toList
def localProvider : Text := "local".toList

/-- `get_settings`, `os.environ` and `decrypt_secret`; decrypting raises for a
text that was not encrypted with the process's key. -/
structure Process where
  environ : List (Text × Text)
  llamaBaseUrl : Option Text
  anthropicApiKey : Option Text
  reviewTimeoutSeconds : ℤ
  decrypt : Text → Option Text

/-- `value or ""` of an optional text. -/
def orEmpty (value : Option Text) : Text := value.getD []

end GitlabReviewer.Models
