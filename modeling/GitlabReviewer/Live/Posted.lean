import GitlabReviewer.Live.Growth
import GitlabReviewer.Results.Render

/-! # The note and the page

The worker renders the note before it commits the outcome; the detail page
renders the row of the run, later, and after whatever has happened to it.
-/
namespace GitlabReviewer.Live
open Python Foundation Models Scheduling Reviews Results Lifecycle

section Texts
variable {ex : Execution}

/-- The markdown of the detail page. -/
def detailMarkdown (F : FloatFormat) (S : Strings) (run : ReviewRun) : Text :=
  renderResultMarkdown F S run.resultJson run.resultMarkdown run.errorMessage

/-- Something of the review was captured. -/
def Captured (ex : Execution) : Prop :=
  (capturedMarkdown ex.floats ex.strings ex.outcome.resultJson ex.outcome.resultMarkdown).isSome = true

instance (ex : Execution) : Decidable (Captured ex) := inferInstanceAs (Decidable (_ = true))

/-- A review that was captured is rendered without the error of its run. -/
theorem renderResultMarkdown_captured {F : FloatFormat} {S : Strings} {data : Option Json} {raw : Option Text}
    (h : (capturedMarkdown F S data raw).isSome = true) (error error' : Option Text) :
    renderResultMarkdown F S data raw error = renderResultMarkdown F S data raw error' := by
  obtain ⟨markdown, hmarkdown⟩ := Option.isSome_iff_exists.mp h
  simp only [renderResultMarkdown, hmarkdown]

theorem detailMarkdown_reported {run : ReviewRun} (hr : Reported ex (recordOf run)) (h : Captured ex) :
    detailMarkdown ex.floats ex.strings run = ex.noteBody := by
  have hjson : run.resultJson = ex.outcome.resultJson := hr.resultJson
  have hmarkdown : run.resultMarkdown = ex.outcome.resultMarkdown := hr.resultMarkdown
  unfold detailMarkdown Execution.noteBody Execution.render
  rw [hjson, hmarkdown]
  exact renderResultMarkdown_captured h _ _

end Texts

theorem reported_of_note {ex : Execution} {rec : Record} {noteId : ℤ} (h : Told ex rec) (hn : rec.gitlabNoteId = some noteId) :
    Reported ex rec ∧ ∃ iid, ex.mrIid = some iid ∧ ex.note = .ok noteId ∧
      rec.log = appendLog (withLines [] (transcript ex)) (postedLine iid noteId) := by
  have hr : Reported ex rec := by
    apply h.results.resolve_left
    intro hnone
    rw [(delivery_eq_iff.mp hnone).2.2] at hn
    cases hn
  refine ⟨hr, ?_⟩
  rcases hr.note with hnone | ⟨iid, noteId', hiid, hnote, hid, hlog⟩
  · rw [hnone] at hn
    cases hn
  · obtain rfl := Option.some.inj (hid.symm.trans hn)
    exact ⟨iid, hiid, hnote, hlog⟩

theorem record_of_run {w : World} {i : ℕ} {rec : Record} (h : recordAt w i = some rec) :
    ∃ run, w.run? i = some run ∧ recordOf run = rec := Option.map_eq_some_iff.mp h

/-- A note id on a run is the one GitLab gave for its note, and it stays there. Whenever the page of the run is opened
after that, its log ends with the line about this very note, and its markdown is what was posted with the call that returned
the id, if anything of the review was captured: not even a cancel that comes after the worker changes the text. -/
theorem posted_is_shown (rules : Rules) {c d : Pool Duty Site World PyError}
    (hc : (installation rules).Reaches (fun _ _ => True) ⟨World.empty, []⟩ c)
    (hd : (installation rules).Reaches (fun _ _ => True) c d) {i : ℕ} {run : ReviewRun} {noteId : ℤ}
    (h : c.shared.run? i = some run) (hn : run.gitlabNoteId = some noteId) :
    (rules.answers i).note = .ok noteId ∧ ∃ run', d.shared.run? i = some run' ∧ run'.gitlabNoteId = some noteId ∧
      (∃ iid, (rules.answers i).mrIid = some iid ∧
        run'.log = appendLog (withLines [] (transcript (rules.answers i))) (postedLine iid noteId)) ∧
      ∃ call ∈ c.shared.notes, call.runId = i ∧ call.noteId = some noteId ∧
        (Captured (rules.answers i) → detailMarkdown (rules.answers i).floats (rules.answers i).strings run' = call.body) := by
  obtain ⟨rs, hscribed⟩ := scribed_reaches hc
  have hrec : recordAt c.shared i = some (recordOf run) := congrArg (Option.map recordOf) h
  obtain ⟨new, hnew, hlater⟩ := later_reaches hscribed hd hrec
  obtain ⟨run', hrun', rfl⟩ := record_of_run hnew
  obtain ⟨rs', hscribed'⟩ := scribed_reaches (hc.trans hd)
  have hkept : run'.gitlabNoteId = some noteId := by
    rcases hlater.delivery with hnone | hsame
    · have hnull : run.gitlabNoteId = none := (delivery_eq_iff.mp hnone).2.2
      rw [hnull] at hn
      cases hn
    · exact (delivery_eq_iff.mp hsame).2.2.trans hn
  obtain ⟨hreported, iid, hiid, hnote, hlog⟩ := reported_of_note (hscribed'.2.told i _ hnew) hkept
  obtain ⟨call, hcall, hby⟩ := hscribed.2.noted i _ noteId hrec hn
  refine ⟨hnote, run', hrun', hkept, ⟨iid, hiid, hlog⟩, call, hcall, hby.runId, hby.noteId, fun hcaptured => ?_⟩
  rw [hby.body]
  exact detailMarkdown_reported hreported hcaptured

/-- The user asks to cancel the job while the review streams, and the request goes on after the worker is done. -/
def untilPostedLate : List (Choice Duty) :=
  [.start (.process (.activity (.request (.enqueue plainRequest)))), .advance 0, .advance 0,
    .start (.process (.activity (.pump 1)))] ++ List.replicate 6 (.advance 1) ++
    [.start (.process (.activity (.request (.cancelInflight 1 9)))), .advance 2, .advance 2] ++ List.replicate 9 (.advance 1)

/-- The run ends as cancelled, and its page still shows what was posted. -/
theorem posted_is_shown_cancelled :
    ∃ c d, (installation talkativeRules).Reaches (fun _ _ => True) ⟨World.empty, []⟩ c ∧
      (installation talkativeRules).Reaches (fun _ _ => True) c d ∧
      (resultsLogJson c.shared 1).map (·.1) = some .success ∧ (resultsLogJson d.shared 1).map (·.1) = some .error ∧
      ∃ run', d.shared.run? 1 = some run' ∧ ∃ call ∈ c.shared.notes, call.runId = 1 ∧ call.body = "fine\n".toList ∧
        detailMarkdown .none .ascii run' = call.body := by
  obtain ⟨c, d, hc, hp, hd, hq⟩ := System.exists_of_exec_exec (installation talkativeRules) (fun _ _ => True)
    ⟨World.empty, []⟩ untilPostedLate (List.replicate 3 (.advance 2))
    (fun c => (resultsLogJson c.shared 1).map (·.1) == some .success && (c.shared.run? 1).bind (·.gitlabNoteId) == some 1 &&
      c.shared.notes.all fun call => call.body == "fine\n".toList)
    (fun d => (resultsLogJson d.shared 1).map (·.1) == some .error) (by decide +kernel)
  rw [Bool.and_eq_true, Bool.and_eq_true, beq_iff_eq, beq_iff_eq, List.all_eq_true] at hp
  obtain ⟨⟨hsuccess, hposted⟩, hbodies⟩ := hp
  obtain ⟨run, hrun, hnote⟩ := Option.bind_eq_some_iff.mp hposted
  obtain ⟨-, run', hrun', -, -, call, hcall, hid, -, hshown⟩ := posted_is_shown talkativeRules hc hd hrun hnote
  exact ⟨c, d, hc, hd, hsuccess, eq_of_beq hq, run', hrun', call, hcall, hid, eq_of_beq (hbodies call hcall),
    hshown (by decide +kernel)⟩

end GitlabReviewer.Live
