import GitlabReviewer.Scheduling.Operations
import GitlabReviewer.Settings.ProfileForm

/-! # The two schedule forms

A review of one merge request with a chosen profile, and a batch over the open
merge requests that were selected, with the default profile.
-/
namespace GitlabReviewer.Scheduling
open Python Foundation Models Settings

inductive Scheduled where
  | notFound
  | unconfigured
  | refused (error : Text)
  | jobs (ids : List ℕ)

/-- The posted fields; `extraProjects` is what `_parse_extra_projects` collects,
rows without a URL being dropped there. -/
structure ScheduleForm where
  modelProfileId : ℕ
  scheduleType : Text
  promptOverride : Text
  extraProjects : List Json
  postToGitlab : Option Bool

def scheduleTypeOf (value : Text) : Option ScheduleType :=
  if value = "immediate".toList then some .immediate
  else if value = "nightly".toList then some .nightly
  else none

section Forms
variable (I : Interpreter) (settings : SettingsRow) (profiles : List ModelProfile)
  (mergeRequests : List MergeRequest) (now : Timestamp)

def missingProfile (id : ℕ) : Text :=
  ("No model profile with id " ++ toString id ++ " — add one in Settings.").toList

def unknownType (scheduleType : Text) : Text :=
  "Unknown schedule type ".toList ++ I.repr scheduleType ++ ".".toList

/-- Enqueue a review for an MR. -/
def scheduleReview (iid : ℤ) (form : ScheduleForm) : Tx Scheduled :=
  match mergeRequests.find? fun mr => mr.project = settings.gitlabProject ∧ mr.iid = iid with
  | none => .ret .notFound
  | some mr =>
      match profiles.find? (·.id = form.modelProfileId) with
      | none => .ret (.refused (missingProfile form.modelProfileId))
      | some profile =>
          match scheduleTypeOf form.scheduleType with
          | none => .ret (.refused (unknownType I form.scheduleType))
          | some scheduleType => do
              let job ← enqueue
                { mergeRequestId := mr.id
                  modelProfileId := profile.id
                  scheduleType := scheduleType
                  promptOverride := some form.promptOverride
                  extraProjects := form.extraProjects
                  postToGitlab := form.postToGitlab
                  now := now }
              .ret (.jobs [job])

/-- `_configured`. -/
def configured : Bool :=
  !(strip settings.gitlabUrl).isEmpty && !(strip settings.gitlabProject).isEmpty &&
    !(strip settings.gitlabToken).isEmpty

/-- `ORDER BY is_default DESC, name`; names are compared as the database collates them. -/
def defaultFirst (collate : Text → Text → Bool) (a b : ModelProfile) : Bool :=
  if a.isDefault = b.isDefault then collate a.name b.name else a.isDefault

def enqueueAll : List EnqueueRequest → Tx (List ℕ)
  | [] => .ret []
  | request :: rest => do
      let job ← enqueue request
      let jobs ← enqueueAll rest
      .ret (job :: jobs)

/-- Batch-schedule reviews for the selected open MRs using the default model
profile and the known library projects. -/
def scheduleSelectedMrs (collate : Text → Text → Bool) (knownLibraries : List Json) (mrIids : List Text)
    (scheduleType : Text) : Tx Scheduled :=
  if configured settings = false then .ret .unconfigured
  else match (profiles.mergeSort (defaultFirst collate)).head? with
    | none => .ret (.refused "No model profiles yet — add one in Settings.".toList)
    | some profile =>
        match scheduleTypeOf scheduleType with
        | none => .ret (.refused (unknownType I scheduleType))
        | some scheduleType =>
            let iids := (mrIids.mapM (parseInt I)).getD []
            if iids.isEmpty then .ret (.refused "Select at least one merge request.".toList)
            else
              let selected := mergeRequests.filter fun mr =>
                mr.project = settings.gitlabProject ∧ mr.iid ∈ iids ∧ mr.state = "opened".toList
              if selected.isEmpty then
                .ret (.refused "None of the selected merge requests are open.".toList)
              else do
                let jobs ← enqueueAll (selected.map fun mr =>
                  { mergeRequestId := mr.id
                    modelProfileId := profile.id
                    scheduleType := scheduleType
                    promptOverride := none
                    extraProjects := knownLibraries
                    postToGitlab := none
                    now := now })
                .ret (.jobs jobs)

end Forms

end GitlabReviewer.Scheduling
