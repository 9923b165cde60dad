import GitlabReviewer.Libraries.Entries
import GitlabReviewer.Models.Configuration
import GitlabReviewer.Python.JsonText

/-! # The prompt of a review

The base prompt, the context of the run with its library repositories, and the
contract for the output.
-/
namespace GitlabReviewer.Orchestrator
open Python Models Libraries

def resultJsonSchema : List String :=
  [ "\x7b",
    "  \"summary\": \"short overall assessment (2-5 sentences)\",",
    "  \"findings\": \x7b",
    "    \"critical\": [\x7b\"file\": \"path/to/file\", \"line\": 123, \"description\": \"what is wrong and why\"\x7d],",
    "    \"important\": [\x7b\"file\": \"path/to/file\", \"line\": 123, \"description\": \"what is wrong and why\"\x7d],",
    "    \"minor\": [\x7b\"file\": \"path/to/file\", \"line\": 123, \"description\": \"nit / style / readability\"\x7d],",
    "    \"positive\": [\x7b\"file\": \"path/to/file\", \"line\": 123, \"description\": \"what is done well\"\x7d]",
    "  \x7d,",
    "  \"commit_message_review\": \"assessment of the commit message(s), or empty string\",",
    "  \"questions\": [\"open questions for the author\"]",
    "\x7d" ]

/-- `str(value or default)`, as an f-string writes it. -/
def formatOr (E : Runtime) (fallback : Text) : Option Json → Text
  | none => fallback
  | some value => if truthyJson value then toText E value else fallback

/-- Where the prompt says an entry is mounted: its path as it is, without slashes at the end. -/
def announcedMount (E : Runtime) (fields : List (Text × Json)) : Text :=
  ("/work/lib/".toList ++ formatOr E [] (fields.lookup "path".toList)).rdropWhile (· == '/')

/-- The context line of an entry; none for the entries that are skipped. -/
def libraryLine (E : Runtime) : Json → Option Text
  | .obj fields =>
      let url := entryUrl E fields
      if url.isEmpty then none
      else some ("- Extra library repo (read-only): ".toList ++ url ++ " @ ".toList ++
        formatOr E "default branch".toList (fields.lookup "ref".toList) ++ " mounted at ".toList ++
          announcedMount E fields)
  | _ => none

/-- `_context_lines`; none is the `ValueError` of an entry's url. -/
def contextLines (E : Runtime) (job : ScheduledJob) (settings : SettingsRow) (mr : MergeRequest) : Option (List Text) :=
  (normalizeExtraProjects E job.extraProjects).map fun entries =>
    [ "## Review context".toList,
      "- Target project: ".toList ++ settings.gitlabProject,
      "- MR !".toList ++ reprInt mr.iid ++ ": ".toList ++ mr.title,
      "- Source branch: ".toList ++ mr.sourceBranch,
      "- Target branch: ".toList ++ mr.targetBranch,
      "- Head commit: ".toList ++ mr.sha ] ++ entries.filterMap (libraryLine E)

def outputContractLines : List Text :=
  [ "## Output requirements (strict)".toList,
    "Your final answer MUST end with exactly one fenced ```json block matching".toList,
    "this schema — no text after it, no additional fenced json blocks:".toList,
    "```json".toList,
    joinLines (resultJsonSchema.map String.toList),
    "```".toList ]

/-- `build_review_prompt` with the merge request at hand. -/
def buildReviewPrompt (E : Runtime) (job : ScheduledJob) (settings : SettingsRow) (mr : MergeRequest) : Option Text :=
  (contextLines E job settings mr).map fun context =>
    let chosen := match job.promptOverride with
      | some prompt => if prompt.isEmpty then settings.defaultReviewPrompt else prompt
      | none => settings.defaultReviewPrompt
    let base := strip chosen
    let sections := (if base.isEmpty then [] else [base]) ++ [joinLines context, joinLines outputContractLines]
    List.intercalate ['\n', '\n'] sections

end GitlabReviewer.Orchestrator
