import GitlabReviewer.Gitlab.Snapshot

/-! # The GitLab client

Every call waits a little, sends its request, and sends it again after a backoff
while the answer is 429 or a server error and retries are left. A call leaves a
trace of what it did.
-/
namespace GitlabReviewer.Gitlab
open Python Models Settings

/-- What `resp.json()` does: a value, the `RequestException` of a body that is no
JSON, the `ValueError` of an integer that is too long, or the `RecursionError` of
a body that is nested too deeply. -/
inductive Body where
  | json (value : Json)
  | undecodable (message : Text)
  | refused
  | nested

/-- The names of headers ignore case, so `X-Next-Page` is one entry. -/
structure Response where
  statusCode : ℕ
  retryAfter : Option Text
  nextPage : Option Text
  text : Text
  body : Body

/-- What `session.get` raises: a `RequestException`, or what `requests` lets through. A
header is encoded in latin-1, which fails for a token outside it, and so may the
decoding of the address of a redirect, or its parsing. -/
inductive Unanswered where
  | requestException (message : Text)
  | unicodeError
  | valueError

def Unanswered.raised : Unanswered → Raised
  | .requestException message => .requestException message
  | .unicodeError => .unicodeError
  | .valueError => .valueError

/-- What comes of one request. -/
abbrev Answer := Except Unanswered Response

/-- How the server answers the attempts of each call. The listing is called once
for each page, and the calls may ask for the same page again. -/
structure Server where
  listing : ℕ → ℤ → ℕ → Answer
  project : ℕ → Answer
  mergeRequest : ℤ → ℕ → Answer

inductive Event where
  | delay
  | request
  | backoff (seconds : Python.Float)
  deriving DecidableEq

/-- A call with its trace. -/
abbrev Called (α : Type) := List Event × Except Raised α

def maxRetries : ℕ := 3
def errorSnippet : ℕ := 300
def perPageDefault : ℕ := 100

/-- `a < b` on floats. -/
def floatLt : Python.Float → Python.Float → Bool
  | .nan, _ => false
  | _, .nan => false
  | .infinity true, .infinity true => false
  | .infinity true, _ => true
  | _, .infinity true => false
  | .infinity false, _ => false
  | .finite _, .infinity false => true
  | .finite a, .finite b => decide (a < b)

/-- `min` and `max` keep the first argument unless the second compares as smaller or larger. -/
def floatMin (a b : Python.Float) : Python.Float := if floatLt b a then b else a
def floatMax (a b : Python.Float) : Python.Float := if floatLt a b then b else a

section Client
variable (L : Stdlib) (settings : SettingsRow)

/-- `settings.gitlab_url.strip().rstrip("/")`. -/
def baseUrl : Text := (strip settings.gitlabUrl).rdropWhile (· == '/')

def projectPath : Text := "/projects/".toList ++ L.quote (strip settings.gitlabProject)

/-- `_retry_after`. -/
def retryAfter (resp : Response) : Python.Float :=
  let raw := resp.retryAfter.getD []
  let seconds : Python.Float := if raw.isEmpty then .finite 60 else (L.float raw).getD (.finite 60)
  floatMax (.finite 0) (floatMin seconds (.finite 30))

def exhaustedMessage (url : Text) (resp : Response) : Text :=
  ("HTTP " ++ toString resp.statusCode ++ " from ").toList ++ url ++
    (" after " ++ toString maxRetries ++ " retries: ").toList ++ resp.text.take errorSnippet

def statusMessage (url : Text) (resp : Response) : Text :=
  ("HTTP " ++ toString resp.statusCode ++ " from ").toList ++ url ++ ": ".toList ++ resp.text.take errorSnippet

def Response.retryable (resp : Response) : Bool := resp.statusCode == 429 || decide (500 ≤ resp.statusCode)
def Response.ok (resp : Response) : Bool := decide (resp.statusCode < 400)

/-- The loop of `api_get` with `left` retries left. -/
def apiGetFrom (url : Text) (answers : ℕ → Answer) (left : ℕ) : Called Response :=
  match answers (maxRetries - left) with
  | .error trouble => ([.delay, .request], .error trouble.raised)
  | .ok resp =>
      if resp.retryable then
        match left with
        | 0 => ([.delay, .request], .error (.gitLabError (exhaustedMessage url resp)))
        | left + 1 =>
            let (events, result) := apiGetFrom url answers left
            (.delay :: .request :: .backoff (retryAfter L resp) :: events, result)
      else if resp.ok = false then ([.delay, .request], .error (.gitLabError (statusMessage url resp)))
      else ([.delay, .request], .ok resp)

/-- GET `path` with rate-limit and retry handling. -/
def apiGet (path : Text) (answers : ℕ → Answer) : Called Response :=
  if (baseUrl settings).isEmpty then ([], .error (.gitLabError "GitLab URL is not configured".toList))
  else apiGetFrom L (baseUrl settings ++ "/api/v4".toList ++ path) answers maxRetries

def Response.json (resp : Response) : Except Raised Json :=
  match resp.body with
  | .json value => .ok value
  | .undecodable message => .error (.requestException message)
  | .refused => .error .valueError
  | .nested => .error .recursionError

/-- The page to ask for after a full one. -/
def followingPage (resp : Response) (page : ℤ) : ℤ :=
  let nextPage := resp.nextPage.getD []
  if nextPage.isEmpty then page + 1 else (parseInt L.ints nextPage).getD (page + 1)

/-- The loop of `paginated_get`; none where `fuel` calls are not enough. -/
def paginatedGetFrom (path : Text) (perPage : ℕ) (listing : ℕ → ℤ → ℕ → Answer) :
    ℕ → ℕ → ℤ → List Json → Option (List (List Event) × Except Raised (List Json))
  | 0, _, _, _ => none
  | fuel + 1, call, page, results =>
      let (events, answer) := apiGet L settings path (listing call page)
      match answer with
      | .error e => some ([events], .error e)
      | .ok resp =>
          match resp.json with
          | .error e => some ([events], .error e)
          | .ok (.arr data) =>
              if data.isEmpty then some ([events], .ok results)
              else if data.length < perPage then some ([events], .ok (results ++ data))
              else (paginatedGetFrom path perPage listing fuel (call + 1) (followingPage L resp page)
                (results ++ data)).map fun (calls, result) => (events :: calls, result)
          | .ok _ => some ([events], .ok results)

/-- GET all pages of a list endpoint (follows x-next-page). -/
def paginatedGet (path : Text) (perPage : ℕ) (listing : ℕ → ℤ → ℕ → Answer) (fuel : ℕ) :
    Option (List (List Event) × Except Raised (List Json)) :=
  paginatedGetFrom L settings path perPage listing fuel 0 1 []

variable (server : Server)

def listingPath : Text := projectPath L settings ++ "/merge_requests".toList
def mergeRequestPath (iid : ℤ) : Text := projectPath L settings ++ "/merge_requests/".toList ++ reprInt iid

/-- All open MRs of the configured project, as normalized snapshots. -/
def listOpenMergeRequests (fuel : ℕ) : Option (Except Raised (List MrSnapshot)) :=
  (paginatedGet L settings (listingPath L settings) perPageDefault server.listing fuel).map
    fun (_, result) => result.bind fun data => data.mapM (fromGitlab L)

/-- One MR by iid as a normalized snapshot. -/
def getMergeRequest (iid : ℤ) : Except Raised MrSnapshot := do
  let resp ← (apiGet L settings (mergeRequestPath L settings iid) (server.mergeRequest iid)).2
  let item ← resp.json
  fromGitlab L item

/-- `branch if isinstance(branch, str) and branch else None`. -/
def branchOf (data : List (Text × Json)) : Option Text :=
  match get "default_branch" data with
  | .str branch => if branch.isEmpty then none else some branch
  | _ => none

/-- The project's default branch name, or None. -/
def getProjectDefaultBranch : Except Raised (Option Text) := do
  let resp ← (apiGet L settings (projectPath L settings) server.project).2
  let data ← resp.json
  let data ← asDict data
  .ok (branchOf data)

end Client

end GitlabReviewer.Gitlab
