import GitlabReviewer.Foundation.Regex
import GitlabReviewer.Python.Text

/-! # The routes, and the paths that need no login

A request is guarded unless its path starts with one of three prefixes; which
handler it reaches is decided by the framework, by the path templates. Only the
login and health handlers and the static files are reached by a path with such
a prefix.
-/
namespace GitlabReviewer.Access
open Python Foundation

/-- Handlers of the API, plain handlers of the framework, and mounted files. -/
inductive RouteKind where
  | api
  | plain
  | mount
  deriving DecidableEq

structure Route where
  kind : RouteKind
  method : Text
  template : Text
  endpoint : Text
  deriving DecidableEq

def get (template endpoint : String) : Route := ⟨.api, "GET".toList, template.toList, endpoint.toList⟩
def post (template endpoint : String) : Route := ⟨.api, "POST".toList, template.toList, endpoint.toList⟩
def plain (template endpoint : String) : Route := ⟨.plain, "GET".toList, template.toList, endpoint.toList⟩

/-- The routes in the order of their registration. -/
def routes : List Route :=
  [plain "/openapi.json" "openapi", plain "/docs" "swagger_ui_html", plain "/docs/oauth2-redirect" "swagger_ui_redirect",
    plain "/redoc" "redoc_html", ⟨.mount, "GET".toList, "/static".toList, "static".toList⟩,
    get "/healthz" "healthz", get "/" "home",
    get "/login" "login_form", post "/login" "login_submit", post "/logout" "logout",
    get "/mrs" "mr_list", post "/mrs/sync" "mr_sync", post "/mrs/schedule-selected" "schedule_selected_mrs", get "/mrs/{iid}" "mr_detail",
    get "/queue" "queue_page", post "/queue/reorder" "queue_reorder", post "/queue/{job_id}/cancel" "queue_cancel",
    post "/queue/{job_id}/top" "queue_move_top", post "/queue/{job_id}/bottom" "queue_move_bottom",
    post "/queue/nightly/{job_id}/remove" "queue_nightly_remove", post "/mrs/{iid}/schedule" "schedule_review",
    post "/mrs/{iid}/schedule-extra-row" "schedule_extra_row",
    get "/settings" "settings_page", post "/settings" "settings_save", post "/settings/test-connection" "settings_test_connection",
    get "/settings/models/section" "settings_models_section", get "/settings/models/{profile_id}/edit" "settings_model_edit",
    post "/settings/models/{profile_id}" "settings_model_update", post "/settings/models" "settings_model_create",
    post "/settings/models/{profile_id}/delete" "settings_model_delete",
    get "/results" "results_list", get "/results/{run_id}" "results_detail", get "/results/{run_id}/log.json" "results_log_json",
    get "/results/{run_id}/session" "results_session_download", post "/results/{run_id}/archive" "results_archive",
    get "/archive" "archive_list", get "/archive/{run_id}" "archive_detail"]

/-- What stands in front of the first parameter of a template, and behind each of them. -/
def templateTexts (template : Text) : Text × List Text :=
  match splitOn '{' template with
  | [] => ([], [])
  | first :: rest => (first, rest.map fun piece => (piece.dropWhile (· ≠ '}')).drop 1)

/-- The text every path of a route starts with. -/
def Route.start (route : Route) : Text :=
  match route.kind with
  | .mount => route.template ++ ['/']
  | _ => (templateTexts route.template).1

/-- A route without parameters. -/
def Route.fixed (route : Route) : Bool := route.kind != .mount && (templateTexts route.template).2.isEmpty

/-- The path starts as the template does, and is the template, up to a newline at its end, if that has no parameter. -/
structure Route.Fits (route : Route) (path : Text) : Prop where
  start : route.start <+: path
  fixed : route.fixed = true → path = route.start ∨ path = route.start ++ ['\n']

inductive Dispatch where
  | route (r : Route)
  | methodNotAllowed
  | redirectSlash
  | notFound

/-- The routing of the framework, which gives a request only to a route that was registered and whose template fits. -/
structure Router where
  dispatch : Text → Text → Dispatch
  registered : ∀ method path route, dispatch method path = .route route → route ∈ routes
  fits : ∀ method path route, dispatch method path = .route route → route.Fits path

def exemptPrefixes : List Text := ["/login".toList, "/healthz".toList, "/static".toList]

/-- True when the request path is exempt from authentication. -/
def isExemptPath (path : Text) : Bool := exemptPrefixes.any fun start => start.isPrefixOf path

/-- What anybody may reach. -/
def openEndpoints : List Text := ["login_form".toList, "login_submit".toList, "healthz".toList, "static".toList]

/-- The start of a guarded route neither begins like an exempt path nor is the beginning of one, unless it is a path by itself. -/
theorem routes_guarded : ∀ route ∈ routes, route.endpoint ∈ openEndpoints ∨ ∀ start ∈ exemptPrefixes,
    ¬ start <+: route.start ∧ ¬ start <+: route.start ++ ['\n'] ∧ (route.fixed = true ∨ ¬ route.start <+: start) := by
  decide +kernel

/-- An exempt path reaches what anybody may reach, and nothing else. -/
theorem Router.open_of_exempt (R : Router) {method path : Text} {route : Route} (h : R.dispatch method path = .route route)
    (hexempt : isExemptPath path = true) : route.endpoint ∈ openEndpoints := by
  obtain ⟨hstart, hfixed⟩ := R.fits method path route h
  apply (routes_guarded route (R.registered method path route h)).resolve_right
  intro hguarded
  obtain ⟨start, hmem, hprefix⟩ := List.any_eq_true.mp hexempt
  obtain ⟨hnot, hnot', hparam⟩ := hguarded start hmem
  have hpre : start <+: path := List.isPrefixOf_iff_prefix.mp hprefix
  rcases hparam with hf | hno
  · rcases hfixed hf with rfl | rfl
    · exact hnot hpre
    · exact hnot' hpre
  · rcases List.prefix_or_prefix_of_prefix hpre hstart with hle | hle
    · exact hnot hle
    · exact hno hle

/-- A path that begins an exempt one may be longer. -/
theorem isExemptPath_longer {path longer : Text} (h : path <+: longer) (hexempt : isExemptPath path = true) :
    isExemptPath longer = true := by
  obtain ⟨start, hmem, hprefix⟩ := List.any_eq_true.mp hexempt
  exact List.any_eq_true.mpr ⟨start, hmem, List.isPrefixOf_iff_prefix.mpr ((List.isPrefixOf_iff_prefix.mp hprefix).trans h)⟩

/-- A text, and then the rest of the pattern. -/
def literal (text : Text) (rest : Regex Char) : Regex Char := text.foldr (fun c r => .seq (.one (· == c)) r) rest

/-- `[^/]+` -/
def segment : Regex Char := .seq (.one (· != '/')) (.many (· != '/'))

def emptyPattern : Regex Char := .many fun _ => false

/-- The pattern of a path template, without its anchors. -/
def compilePath (route : Route) : Regex Char :=
  match route.kind with
  | .mount => literal (route.template ++ ['/']) (.many (· != '\n'))
  | _ =>
      let texts := templateTexts route.template
      literal texts.1 (texts.2.foldr (fun text r => .seq segment (literal text r)) emptyPattern)

/-- `$` also stands before a newline at the end. -/
def Route.matchesPath (route : Route) (path : Text) : Bool :=
  (Regex.rests (compilePath route) path).any fun rest => rest == [] || rest == ['\n']

/-- A plain handler answers HEAD as well; a mount answers by itself. -/
def Route.allows (route : Route) (method : Text) : Bool :=
  match route.kind with
  | .api => method == route.method
  | .plain => method == route.method || method == "HEAD".toList
  | .mount => true

/-- The path with a slash at its end, or without its slashes there. -/
def toggleSlash (path : Text) : Text :=
  if path.getLast? = some '/' then path.rdropWhile (· == '/') else path ++ ['/']

/-- The first route with this path and method; a path with another method is refused. -/
def firstMatch (method path : Text) : Dispatch :=
  match routes.find? fun route => route.matchesPath path && route.allows method with
  | some route => .route route
  | none =>
      if routes.any (·.matchesPath path) then .methodNotAllowed
      else if path ≠ ['/'] ∧ routes.any (·.matchesPath (toggleSlash path)) = true then .redirectSlash
      else .notFound

theorem literal_matches {text : Text} {rest : Regex Char} {s : Text} (h : Regex.Matches (literal text rest) s) :
    ∃ more, s = text ++ more ∧ Regex.Matches rest more := by
  induction text generalizing s with
  | nil => exact ⟨s, rfl, h⟩
  | cons c text ih =>
    obtain ⟨d, v, rfl, hd, hv⟩ := h.of_one_seq
    obtain ⟨more, rfl, hmore⟩ := ih hv
    exact ⟨more, by rw [eq_of_beq hd, List.cons_append], hmore⟩

theorem compilePath_start (route : Route) : ∃ rest, compilePath route = literal route.start rest ∧
    (route.fixed = true → rest = emptyPattern) := by
  unfold compilePath Route.start Route.fixed
  cases route.kind with
  | mount => exact ⟨_, rfl, by simp⟩
  | _ =>
    refine ⟨_, rfl, ?_⟩
    intro h
    have hnil : (templateTexts route.template).2 = [] := by simpa using h
    rw [hnil]
    rfl

theorem fits_of_matchesPath {route : Route} {path : Text} (h : route.matchesPath path = true) : route.Fits path := by
  obtain ⟨rest, hrest, hend⟩ := List.any_eq_true.mp h
  obtain ⟨s, hs, rfl⟩ := Regex.mem_rests.mp hrest
  obtain ⟨more, hcompile, hfixed⟩ := compilePath_start route
  rw [hcompile] at hs
  obtain ⟨tail, rfl, htail⟩ := literal_matches hs
  refine ⟨⟨tail ++ rest, by rw [List.append_assoc]⟩, ?_⟩
  intro hf
  rw [hfixed hf] at htail
  have hnil : tail = [] := by
    cases htail with
    | many hall =>
      cases tail with
      | nil => rfl
      | cons c tail => exact absurd (hall c List.mem_cons_self) (by simp)
  subst hnil
  rw [Bool.or_eq_true, beq_iff_eq, beq_iff_eq] at hend
  rcases hend with rfl | rfl
  · exact .inl (by simp)
  · exact .inr (by simp)

theorem firstMatch_route {method path : Text} {route : Route} (h : firstMatch method path = .route route) :
    route ∈ routes ∧ route.Fits path := by
  unfold firstMatch at h
  split at h
  · rename_i found hfound
    obtain rfl := Dispatch.route.inj h
    have hmatch := List.find?_some hfound
    rw [Bool.and_eq_true] at hmatch
    exact ⟨List.mem_of_find?_eq_some hfound, fits_of_matchesPath hmatch.1⟩
  · split at h
    · cases h
    · split at h <;> cases h

/-- The templates compiled to patterns, and the first that matches. -/
def patternRouter : Router where
  dispatch := firstMatch
  registered _ _ _ h := (firstMatch_route h).1
  fits _ _ _ h := (firstMatch_route h).2

end GitlabReviewer.Access
