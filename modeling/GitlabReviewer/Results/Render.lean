import GitlabReviewer.Results.Schema

/-! # The text of a review

One renderer serves the note on GitLab and the detail page: the summary, the
findings by severity, the review of the commit message, the questions, or else
the text of the review as it was captured.
-/
namespace GitlabReviewer.Results
open Python

/-- Locator for one finding, or nothing when file and line are missing. -/
def findingRef (finding : Finding) : Text :=
  let file := strip finding.file
  match truthy file, finding.line with
  | true, some line => "[".toList ++ file ++ ":".toList ++ reprInt line ++ "]".toList
  | true, none => "[".toList ++ file ++ "]".toList
  | false, some line => "[line ".toList ++ reprInt line ++ "]".toList
  | false, none => []

def findingText (finding : Finding) : Text :=
  let ref := findingRef finding
  let description := strip finding.description
  if truthy ref && truthy description then ref ++ " ".toList ++ description
  else if truthy description then description else ref

/-- Field on the parsed findings and section title, in display order. -/
def severitySections : List (Text × Text) :=
  [("critical".toList, "Critical".toList), ("important".toList, "Important".toList), ("minor".toList, "Minor".toList),
    ("positive".toList, "Positive".toList)]

def findingLines (findings : List Finding) : List Text := findings.map fun finding => "- ".toList ++ findingText finding

def numberedQuestions (questions : List Text) : List Text :=
  (questions.zipIdx 1).filterMap fun (question, i) =>
    if truthy (strip question) then some (decimal i ++ ". ".toList ++ strip question) else none

/-- The sections of a result, each with its title and what stands under it. -/
def titledSections (result : ReviewResult) : List (Text × Text) :=
  let summary := if truthy (strip result.summary) then [("Summary".toList, strip result.summary)] else []
  let findings := severitySections.filterMap fun (key, title) =>
    let findings := result.findings.bucket key
    if findings.isEmpty then none else some (title, joinLines (findingLines findings))
  let commitMessageReview :=
    if truthy (strip result.commitMessageReview) then [("Commit Message Review".toList, strip result.commitMessageReview)] else []
  let numbered := joinLines (numberedQuestions result.questions)
  let questions := if truthy numbered then [("Questions".toList, numbered)] else []
  summary ++ findings ++ commitMessageReview ++ questions

def sectionText (titled : Text × Text) : Text := "## ".toList ++ titled.1 ++ "\n\n".toList ++ titled.2

section Rendering
variable (F : FloatFormat) (S : Strings)

/-- The sections of a result that is there. -/
def sectionsOf (resultJson : Option Json) : List (Text × Text) :=
  match resultJson with
  | some data => if truthyJson data then titledSections (parseReviewResult F S data) else []
  | none => []

/-- What was captured of the review, if anything. -/
def capturedMarkdown (resultJson : Option Json) (rawMarkdown : Option Text) : Option Text :=
  let sections := sectionsOf F S resultJson
  if sections.isEmpty then (rawMarkdown.filter fun raw => truthy (strip raw)).map fun raw => strip raw ++ "\n".toList
  else some (List.intercalate "\n\n".toList (sections.map sectionText) ++ "\n".toList)

def unstructuredNote : Text := "Review finished without a structured result.".toList

/-- Render a run's outcome to markdown; `errorMessage` is the run's. -/
def renderResultMarkdown (resultJson : Option Json) (rawMarkdown errorMessage : Option Text) : Text :=
  match capturedMarkdown F S resultJson rawMarkdown with
  | some markdown => markdown
  | none =>
      let note := match errorMessage.filter truthy with
        | some message => unstructuredNote ++ "\n\nError: ".toList ++ strip message
        | none => unstructuredNote
      note ++ "\n".toList

end Rendering

end GitlabReviewer.Results
