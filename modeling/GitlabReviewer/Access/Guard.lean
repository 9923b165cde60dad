import GitlabReviewer.Access.Passwords
import GitlabReviewer.Access.Routes
import GitlabReviewer.Models.Rows

/-! # No page without a login

The session cookie is a signed and timestamped constant. A middleware looks at
it before a request is routed, and a dependency looks at it again before the
handler runs; the server keeps no session of its own.
-/
namespace GitlabReviewer.Access
open Python Models Settings

def sessionMaxAge : ℕ := 12 * 60 * 60
def sessionPayload : Json := .obj [("user".toList, .str "shared".toList)]

/-- The `TimedSerializer` of the application: the text it signs at a time, and what it finds behind a signature it
accepts. A payload that cannot be decoded is an error of its own. -/
structure Serializer where
  dumps : Timestamp → Json → Text
  unsign : Text → Option (Timestamp × Option Json)
  unsign_dumps : ∀ now, unsign (dumps now sessionPayload) = some (now, some sessionPayload)
  dumps_ne : ∀ now, dumps now sessionPayload ≠ []

/-- What `get_settings` and the libraries give. -/
structure App where
  router : Router
  serializer : Serializer
  ints : Interpreter
  digest : Digest
  appPasswordHash : Text

section Handling
variable (A : App)

/-- Validate a signed cookie value; the outer none is the error that is no `BadSignature`. -/
def decodeSession (now : Timestamp) (cookieValue : Option Text) : Option (Option Json) :=
  match cookieValue.filter truthy with
  | none => some none
  | some value =>
      match A.serializer.unsign value with
      | none => some none
      | some (signed, payload) =>
          if now < signed ∨ sessionMaxAge < now - signed then some none
          else payload.map fun data =>
            match data with
            | .obj fields => some (.obj fields)
            | _ => none

/-- A request, and what the clock says when it arrives, when it is checked once more, and when it is answered. The path is
what is routed; `urlPath` is `request.url.path`, that path to its first `?` or `#`, if the host the request names is nothing
but a host. -/
structure Request where
  method : Text
  path : Text
  urlPath : Text
  cookie : Option Text
  password : Text
  arrived : Timestamp
  checked : Timestamp
  answered : Timestamp

inductive Outcome where
  | raised
  | toLogin
  | methodNotAllowed
  | redirectSlash
  | notFound
  | invalidPassword
  | loggedIn (cookie : Text)
  | reached (endpoint : Text)
  deriving DecidableEq

/-- The handler of the login form's submission. -/
def loginSubmit (request : Request) : Outcome :=
  match verifyPassword A.ints A.digest request.password A.appPasswordHash with
  | none => .raised
  | some true => .loggedIn (A.serializer.dumps request.answered sessionPayload)
  | some false => .invalidPassword

def runEndpoint (request : Request) (route : Route) : Outcome :=
  if route.endpoint = "login_submit".toList then loginSubmit A request else .reached route.endpoint

/-- The global dependency in front of the handlers of the API. -/
def requireAuth (request : Request) (handler : Outcome) : Outcome :=
  match decodeSession A request.checked request.cookie with
  | none => .raised
  | some session => if session.isSome || isExemptPath request.urlPath then handler else .toLogin

def route (request : Request) : Outcome :=
  match A.router.dispatch request.method request.path with
  | .route route =>
      match route.kind with
      | .api => requireAuth A request (runEndpoint A request route)
      | _ => .reached route.endpoint
  | .methodNotAllowed => .methodNotAllowed
  | .redirectSlash => .redirectSlash
  | .notFound => .notFound

/-- The middleware `guard_plain_routes` around the router. -/
def respond (request : Request) : Outcome :=
  if isExemptPath request.urlPath then route A request
  else match decodeSession A request.arrived request.cookie with
    | none => .raised
    | some none => .toLogin
    | some (some _) => route A request

end Handling

abbrev Exchange := Request × Outcome

/-- The server answers every request, and nobody makes a signature: a cookie whose signature is accepted was handed out
in an earlier exchange, to whatever browser. -/
structure Served (A : App) (log : List Exchange) : Prop where
  answered : ∀ x ∈ log, x.2 = respond A x.1
  unforged : ∀ before x after, log = before ++ x :: after → ∀ value, x.1.cookie = some value →
    (A.serializer.unsign value).isSome = true → ∃ y ∈ before, y.2 = .loggedIn value

section Cookies
variable {A : App}

theorem decodeSession_eq_some {now : Timestamp} {cookie : Option Text} {session : Json}
    (h : decodeSession A now cookie = some (some session)) : ∃ value signed payload, cookie = some value ∧
      A.serializer.unsign value = some (signed, payload) ∧ signed ≤ now ∧ now ≤ signed + sessionMaxAge := by
  unfold decodeSession at h
  split at h
  · cases h
  · rename_i value hvalue
    have hcookie := (Option.filter_eq_some_iff.mp hvalue).1
    split at h
    · cases h
    · rename_i signed payload hunsign
      split at h
      · cases h
      · rename_i hage
        obtain ⟨hsigned, hold⟩ := not_or.mp hage
        exact ⟨value, signed, payload, hcookie, hunsign, Nat.not_lt.mp hsigned, Nat.sub_le_iff_le_add'.mp (Nat.not_lt.mp hold)⟩

/-- A cookie that was handed out is a session for twelve hours. -/
theorem decodeSession_dumps {signed now : Timestamp} (hle : signed ≤ now) (hage : now ≤ signed + sessionMaxAge) :
    decodeSession A now (some (A.serializer.dumps signed sessionPayload)) = some (some sessionPayload) := by
  have hfilter : (some (A.serializer.dumps signed sessionPayload)).filter truthy = some (A.serializer.dumps signed sessionPayload) := by
    simp [Option.filter, truthy, A.serializer.dumps_ne]
  unfold decodeSession
  rw [hfilter]
  dsimp only
  rw [A.serializer.unsign_dumps]
  dsimp only
  rw [if_neg (not_or.mpr ⟨Nat.not_lt.mpr hle, Nat.not_lt.mpr (Nat.sub_le_iff_le_add'.mpr hage)⟩)]
  rfl

theorem loggedIn_of_runEndpoint {request : Request} {route : Route} {value : Text} (h : runEndpoint A request route = .loggedIn value) :
    verifyPassword A.ints A.digest request.password A.appPasswordHash = some true ∧
      value = A.serializer.dumps request.answered sessionPayload := by
  unfold runEndpoint at h
  split at h
  · unfold loginSubmit at h
    split at h
    · cases h
    · exact ⟨by assumption, (Outcome.loggedIn.inj h).symm⟩
    · cases h
  · cases h

/-- Once the stored hash can be read, a handler raises nothing and sends nobody to the login. -/
theorem runEndpoint_cases {request : Request} (found : Route)
    (hverify : verifyPassword A.ints A.digest request.password A.appPasswordHash ≠ none) : runEndpoint A request found ≠ .raised ∧
      runEndpoint A request found ≠ .toLogin ∧ ∀ endpoint, runEndpoint A request found = .reached endpoint → endpoint = found.endpoint := by
  unfold runEndpoint loginSubmit
  split
  · split
    · rename_i hnone
      exact absurd hnone hverify
    · simp
    · simp
  · simp [eq_comm]

theorem loggedIn_of_route {request : Request} {value : Text} (h : route A request = .loggedIn value) :
    verifyPassword A.ints A.digest request.password A.appPasswordHash = some true ∧
      value = A.serializer.dumps request.answered sessionPayload := by
  unfold route at h
  split at h
  · split at h
    · unfold requireAuth at h
      split at h
      · cases h
      · split at h
        · exact loggedIn_of_runEndpoint h
        · cases h
    · cases h
  · cases h
  · cases h
  · cases h

/-- A cookie is handed out for the right password only. -/
theorem loggedIn_of_respond {request : Request} {value : Text} (h : respond A request = .loggedIn value) :
    verifyPassword A.ints A.digest request.password A.appPasswordHash = some true ∧
      value = A.serializer.dumps request.answered sessionPayload := by
  unfold respond at h
  split at h
  · exact loggedIn_of_route h
  · split at h
    · cases h
    · cases h
    · exact loggedIn_of_route h

end Cookies

section Log
variable {A : App} {log before after : List Exchange} {x : Exchange}

/-- The cookie of a request was handed out at a login, at most twelve hours before. -/
def FreshLogin (y : Exchange) (request : Request) (now : Timestamp) : Prop :=
  ∃ value, y.2 = .loggedIn value ∧ request.cookie = some value ∧ y.1.answered ≤ now ∧ now ≤ y.1.answered + sessionMaxAge

theorem Served.loggedIn (hs : Served A log) (h : log = before ++ x :: after) {y : Exchange} (hy : y ∈ before) {value : Text}
    (hv : y.2 = .loggedIn value) : verifyPassword A.ints A.digest y.1.password A.appPasswordHash = some true ∧
      value = A.serializer.dumps y.1.answered sessionPayload := by
  have hmem : y ∈ log := by
    rw [h]
    exact List.mem_append_left _ hy
  exact loggedIn_of_respond ((hs.answered y hmem).symm.trans hv)

/-- A session comes from an earlier login. -/
theorem Served.freshLogin (hs : Served A log) (h : log = before ++ x :: after) {now : Timestamp} {session : Json}
    (hd : decodeSession A now x.1.cookie = some (some session)) : ∃ y ∈ before, FreshLogin y x.1 now := by
  obtain ⟨value, signed, payload, hcookie, hunsign, hle, hage⟩ := decodeSession_eq_some hd
  obtain ⟨y, hy, hv⟩ := hs.unforged before x after h value hcookie (by rw [hunsign]; rfl)
  have hsigned : signed = y.1.answered := by
    rw [(hs.loggedIn h hy hv).2, A.serializer.unsign_dumps] at hunsign
    exact (Prod.mk.inj (Option.some.inj hunsign)).1.symm
  exact ⟨y, hy, value, hv, hcookie, hsigned ▸ hle, hsigned ▸ hage⟩

/-- No cookie that can arrive makes the check of the session raise. -/
theorem Served.decodeSession_ne (hs : Served A log) (h : log = before ++ x :: after) (now : Timestamp) :
    decodeSession A now x.1.cookie ≠ none := by
  intro hraise
  unfold decodeSession at hraise
  split at hraise
  · cases hraise
  · rename_i value hvalue
    split at hraise
    · cases hraise
    · rename_i signed payload hunsign
      obtain ⟨y, hy, hv⟩ := hs.unforged before x after h value (Option.filter_eq_some_iff.mp hvalue).1 (by rw [hunsign]; rfl)
      rw [(hs.loggedIn h hy hv).2, A.serializer.unsign_dumps] at hunsign
      obtain ⟨-, rfl⟩ := Prod.mk.inj (Option.some.inj hunsign)
      split at hraise
      · cases hraise
      · cases hraise

/-- The dependency lets a request through, or it has found no session. -/
theorem Served.requireAuth_cases (hs : Served A log) (h : log = before ++ x :: after) (handler : Outcome) :
    requireAuth A x.1 handler = handler ∨
      requireAuth A x.1 handler = .toLogin ∧ decodeSession A x.1.checked x.1.cookie = some none := by
  unfold requireAuth
  cases hdecoded : decodeSession A x.1.checked x.1.cookie with
  | none => exact absurd hdecoded (hs.decodeSession_ne h _)
  | some session =>
    dsimp only
    split
    · exact .inl rfl
    · rename_i hclosed
      refine .inr ⟨rfl, ?_⟩
      cases session with
      | none => rfl
      | some session => simp at hclosed

/-- The handlers behind the dependency. -/
theorem Served.route_cases (hs : Served A log) (h : log = before ++ x :: after)
    (hverify : verifyPassword A.ints A.digest x.1.password A.appPasswordHash ≠ none) : route A x.1 ≠ .raised ∧
      (∀ endpoint, route A x.1 = .reached endpoint → ∃ found, A.router.dispatch x.1.method x.1.path = .route found ∧ endpoint = found.endpoint) ∧
        (route A x.1 = .toLogin → decodeSession A x.1.checked x.1.cookie = some none) := by
  unfold route
  split
  · rename_i found hfound
    split
    · obtain ⟨hraise, hlogin, hreached⟩ := runEndpoint_cases found hverify
      rcases hs.requireAuth_cases h (runEndpoint A x.1 found) with hpassed | ⟨hstopped, hnone⟩
      · rw [hpassed]
        exact ⟨hraise, fun endpoint he => ⟨found, hfound, hreached endpoint he⟩, fun he => absurd he hlogin⟩
      · rw [hstopped]
        exact ⟨by simp, by simp, fun _ => hnone⟩
    · refine ⟨by simp, ?_, by simp⟩
      intro endpoint he
      exact ⟨found, hfound, (Outcome.reached.inj he).symm⟩
  · simp
  · simp
  · simp

end Log

/-- Whatever the browsers send, in any order: a request reaches a handler that is not open to everybody only with a cookie
that was handed out before, at most twelve hours ago, to somebody who knew the shared password; such a cookie is not
sent back to the login by either of the two checks; and no request makes the guard raise. -/
theorem login_required {A : App} (hI : Gitlab.AsciiDigits A.ints) {salt : Bytes} {iterations : ℕ} {secret : Text}
    (hstored : hashPassword A.digest salt iterations secret = some A.appPasswordHash) {log : List Exchange} (hs : Served A log)
    {before after : List Exchange} {x : Exchange} (h : log = before ++ x :: after) :
    (∀ endpoint, x.2 = .reached endpoint → endpoint ∉ openEndpoints → x.1.urlPath <+: x.1.path → ∃ y ∈ before, FreshLogin y x.1 x.1.arrived ∧
        A.digest y.1.password salt iterations = A.digest secret salt iterations) ∧
      (∀ y ∈ before, FreshLogin y x.1 x.1.arrived → FreshLogin y x.1 x.1.checked → x.2 ≠ .toLogin) ∧ x.2 ≠ .raised := by
  have hverify : ∀ password, verifyPassword A.ints A.digest password A.appPasswordHash =
      some (A.digest password salt iterations == A.digest secret salt iterations) := verifyPassword_hashPassword hI hstored
  have hanswer : x.2 = respond A x.1 := hs.answered x (by rw [h]; simp)
  obtain ⟨hraise, hreached, hlogin⟩ := hs.route_cases h (by rw [hverify]; simp)
  have hsession : ∀ now, ∀ y ∈ before, FreshLogin y x.1 now → decodeSession A now x.1.cookie = some (some sessionPayload) := by
    rintro now y hy ⟨value, hv, hcookie, hle, hage⟩
    rw [hcookie, (hs.loggedIn h hy hv).2]
    exact decodeSession_dumps hle hage
  rw [hanswer]
  unfold respond
  refine ⟨?_, ?_, ?_⟩
  · intro endpoint he hclosed hurl
    split at he
    · rename_i hexempt
      obtain ⟨found, hfound, rfl⟩ := hreached endpoint he
      exact absurd (A.router.open_of_exempt hfound (isExemptPath_longer hurl hexempt)) hclosed
    · split at he
      · cases he
      · cases he
      · rename_i session hdecoded
        obtain ⟨y, hy, hfresh⟩ := hs.freshLogin h hdecoded
        refine ⟨y, hy, hfresh, ?_⟩
        obtain ⟨value, hv, -⟩ := hfresh
        have hright := (hs.loggedIn h hy hv).1
        rw [hverify] at hright
        exact eq_of_beq (Option.some.inj hright)
  · intro y hy harrived hchecked
    have hpassed : route A x.1 ≠ .toLogin := by
      intro he
      have hnone := hlogin he
      rw [hsession _ y hy hchecked] at hnone
      cases hnone
    split
    · exact hpassed
    · rw [hsession _ y hy harrived]
      exact hpassed
  · split
    · exact hraise
    · split
      · rename_i hnone
        exact absurd hnone (hs.decodeSession_ne h _)
      · simp
      · exact hraise

theorem code_mod_lt (c : Char) : c.toNat % 256 < 256 := Nat.mod_lt _ (by decide)

/-- Texts with ASCII digits, a digest that hides nothing, and signatures that anybody could make. -/
def plainApp : App where
  router := patternRouter
  serializer :=
    { dumps := fun now _ => 's' :: List.replicate now '.'
      unsign := fun value =>
        if value.head? = some 's' ∧ value.tail.all (· == '.') = true then some (value.tail.length, some sessionPayload) else none
      unsign_dumps := by simp
      dumps_ne := by simp }
  ints := Gitlab.plainStdlib.ints
  digest password _ _ := password.map fun c => ⟨c.toNat % 256, code_mod_lt c⟩
  appPasswordHash := "pbkdf2$200000$0a$6f70656e".toList

def plainLogin : Request := ⟨"POST".toList, "/login".toList, "/login".toList, none, "open".toList, 1, 1, 2⟩

def plainVisit : Request := ⟨"GET".toList, "/results/7".toList, "/results/7".toList, some "s..".toList, [], 100, 100, 100⟩

def plainLog : List Exchange := [(plainLogin, .loggedIn "s..".toList), (plainVisit, .reached "results_detail".toList)]

theorem plainLog_served : Served plainApp plainLog := by
  constructor
  · decide +kernel
  · rintro before x after h value hvalue -
    cases before with
    | nil =>
      obtain ⟨rfl, -⟩ := List.cons.inj h
      cases hvalue
    | cons y before =>
      obtain ⟨rfl, htail⟩ := List.cons.inj h
      cases before with
      | nil =>
        obtain ⟨rfl, -⟩ := List.cons.inj htail
        obtain rfl := Option.some.inj hvalue
        exact ⟨_, List.mem_cons_self, rfl⟩
      | cons z before => cases before <;> cases htail

theorem login_required_plain : ∃ y ∈ [(plainLogin, Outcome.loggedIn "s..".toList)], FreshLogin y plainVisit 100 ∧
    plainApp.digest y.1.password [10] 200000 = plainApp.digest "open".toList [10] 200000 := by
  have hdigits : Gitlab.AsciiDigits plainApp.ints := fun c hc => if_pos hc
  have hstored : hashPassword plainApp.digest [10] 200000 "open".toList = some plainApp.appPasswordHash := by decide +kernel
  exact (login_required hdigits hstored plainLog_served (show plainLog = [_] ++ _ :: [] from rfl)).1 _ rfl (by decide) List.prefix_rfl

end GitlabReviewer.Access
