import GitlabReviewer.Foundation.Paragraphs
import GitlabReviewer.Results.Render

/-! # The note read back

The note is a list of sections, each a heading, a blank line and what stands
under it. Read by its blank lines it gives every section back, and under each
severity the findings one by one.
-/
namespace GitlabReviewer.Results
open Python Foundation

def readSections : List Text → List (Text × Text)
  | heading :: body :: rest => (heading.drop 3, body) :: readSections rest
  | _ => []

/-- The titles of a note with what stands under them. -/
def readNote (note : Text) : List (Text × Text) := readSections (paragraphs '\n' (rstripNewlines note))

/-- The points of a section. -/
def readPoints (body : Text) : List Text := (splitOn '\n' body).map (·.drop 2)

/-- The text, if it is not blank. -/
def nonBlank (s : Text) : Option Text := if truthy (strip s) then some (strip s) else none

def nonEmpty (lines : List Text) : Option Text := if truthy (joinLines lines) then some (joinLines lines) else none

/-- All sections a note can have, with what the result has for them. -/
def contents (result : ReviewResult) : List (Text × Option Text) :=
  [("Summary".toList, nonBlank result.summary)] ++
    severitySections.map (fun entry => (entry.2, nonEmpty (findingLines (result.findings.bucket entry.1)))) ++
      [("Commit Message Review".toList, nonBlank result.commitMessageReview)] ++
        [("Questions".toList, nonEmpty (numberedQuestions result.questions))]

theorem findingLine_ne_nil {findings : List Finding} {line : Text} (h : line ∈ findingLines findings) : line ≠ [] := by
  obtain ⟨finding, -, rfl⟩ := List.mem_map.mp h
  simp

theorem joinLines_eq_nil_iff {lines : List Text} (h : ∀ line ∈ lines, line ≠ []) : joinLines lines = [] ↔ lines = [] := by
  cases lines with
  | nil => simp [joinLines]
  | cons line lines =>
    have hne := h line List.mem_cons_self
    cases lines with
    | nil => simpa using hne
    | cons next lines => simp [joinLines_cons_cons]

theorem nonEmpty_findings (findings : List Finding) :
    nonEmpty (findingLines findings) = if findings.isEmpty then none else some (joinLines (findingLines findings)) := by
  unfold nonEmpty truthy
  cases findings with
  | nil => rfl
  | cons finding findings =>
    have hne : joinLines (findingLines (finding :: findings)) ≠ [] := by
      rw [Ne, joinLines_eq_nil_iff fun _ => findingLine_ne_nil]
      simp [findingLines]
    simp [hne]

/-- The sections of the note are the sections the result has something for. -/
theorem titledSections_eq (result : ReviewResult) :
    titledSections result = (contents result).filterMap fun entry => entry.2.map fun body => (entry.1, body) := by
  have hone : ∀ (title : Text) (c : Bool) (body : Text), (if c then [(title, body)] else []) =
      [(title, if c then some body else none)].filterMap fun entry : Text × Option Text => entry.2.map fun body => (entry.1, body) := by
    intro title c body
    cases c <;> rfl
  have hfindings : (severitySections.filterMap fun entry =>
        if (result.findings.bucket entry.1).isEmpty then none
        else some (entry.2, joinLines (findingLines (result.findings.bucket entry.1)))) =
      (severitySections.map fun entry => (entry.2, nonEmpty (findingLines (result.findings.bucket entry.1)))).filterMap
        fun entry => entry.2.map fun body => (entry.1, body) := by
    rw [List.filterMap_map]
    congr 1
    funext entry
    rw [Function.comp_apply, nonEmpty_findings]
    split <;> rfl
  unfold contents
  rw [List.filterMap_append, List.filterMap_append, List.filterMap_append, ← hfindings]
  unfold nonBlank nonEmpty
  rw [← hone, ← hone, ← hone]
  rfl

theorem contents_titles (result : ReviewResult) : ((contents result).map (·.1)).Nodup := by
  show ["Summary".toList, "Critical".toList, "Important".toList, "Minor".toList, "Positive".toList, "Commit Message Review".toList,
    "Questions".toList].Nodup
  decide

/-- What a section that may be missing holds is found under its title. -/
theorem lookup_filterMap {β : Type} {entries : List (Text × Option β)} (h : (entries.map (·.1)).Nodup) {title : Text} {body : Option β}
    (hmem : (title, body) ∈ entries) : (entries.filterMap fun entry => entry.2.map fun b => (entry.1, b)).lookup title = body := by
  induction entries with
  | nil => cases hmem
  | cons entry entries ih =>
    rw [List.map_cons, List.nodup_cons] at h
    have hnot : ∀ b, title = entry.1 → (title, b) ∉ entries := by
      rintro b rfl hb
      exact h.1 (List.mem_map.mpr ⟨_, hb, rfl⟩)
    have hmissing : title = entry.1 → (entries.filterMap fun entry => entry.2.map fun b => (entry.1, b)).lookup title = none := by
      intro he
      rw [List.lookup_eq_none_iff]
      intro found hfound
      obtain ⟨entry', hentry', heq⟩ := List.mem_filterMap.mp hfound
      obtain ⟨b, -, rfl⟩ := Option.map_eq_some_iff.mp heq
      simp only [bne_iff_ne, ne_eq]
      rintro rfl
      exact hnot _ he hentry'
    rcases List.mem_cons.mp hmem with rfl | hmem'
    · cases body with
      | none => exact hmissing rfl
      | some b => simp
    · have hne : title ≠ entry.1 := fun he => hnot body he hmem'
      have hbeq : (title == entry.1) = false := by simpa using hne
      cases hbody : entry.2 with
      | none => simpa [List.filterMap_cons, hbody] using ih h.2 hmem'
      | some b => simpa [List.filterMap_cons, hbody, List.lookup_cons, hbeq] using ih h.2 hmem'

/-- No blank lines where the note has its own, and findings and questions of one line each. -/
structure Readable (result : ReviewResult) : Prop where
  summary : ¬ ['\n', '\n'] <:+: strip result.summary
  commitMessageReview : ¬ ['\n', '\n'] <:+: strip result.commitMessageReview
  findings : ∀ entry ∈ severitySections, ∀ finding ∈ result.findings.bucket entry.1, '\n' ∉ findingText finding
  questions : ∀ question ∈ result.questions, '\n' ∉ strip question

theorem solid_strip {s : Text} (h : ¬ ['\n', '\n'] <:+: strip s) : Solid '\n' (strip s) := by
  refine ⟨h, ?_⟩
  intro hlast
  have hne : strip s ≠ [] := by
    intro he
    rw [he] at hlast
    cases hlast
  have hspace := List.rdropWhile_last_not isSpace (s.dropWhile isSpace) hne
  rw [List.getLast?_eq_getLast_of_ne_nil hne] at hlast
  have hnl : (strip s).getLast hne = '\n' := Option.some.inj hlast
  apply hspace
  show isSpace ((strip s).getLast hne) = true
  rw [hnl]
  decide

theorem findingLine_plain {findings : List Finding} (h : ∀ finding ∈ findings, '\n' ∉ findingText finding) {line : Text}
    (hline : line ∈ findingLines findings) : line ≠ [] ∧ '\n' ∉ line := by
  refine ⟨findingLine_ne_nil hline, ?_⟩
  obtain ⟨finding, hmem, rfl⟩ := List.mem_map.mp hline
  have hnot := h finding hmem
  simp [hnot]

theorem questionLine_plain {questions : List Text} (h : ∀ question ∈ questions, '\n' ∉ strip question) {line : Text}
    (hline : line ∈ numberedQuestions questions) : line ≠ [] ∧ '\n' ∉ line := by
  obtain ⟨⟨question, i⟩, hmem, hsome⟩ := List.mem_filterMap.mp hline
  dsimp only at hsome
  split at hsome
  · obtain rfl := Option.some.inj hsome
    have hquestion := h question (List.fst_mem_of_mem_zipIdx hmem)
    have hdigits : '\n' ∉ decimal i := by
      intro hnl
      have hdigit := isDigit_decimal i _ hnl
      revert hdigit
      decide
    exact ⟨by simp, by simp [hdigits, hquestion]⟩
  · cases hsome

/-- What stands under the headings is solid, and there is something. -/
theorem body_solid {result : ReviewResult} (h : Readable result) {title body : Text} (hmem : (title, body) ∈ titledSections result) :
    body ≠ [] ∧ Solid '\n' body := by
  rw [titledSections_eq] at hmem
  obtain ⟨⟨title', content⟩, hcontent, hsome⟩ := List.mem_filterMap.mp hmem
  obtain ⟨body', hbody, heq⟩ := Option.map_eq_some_iff.mp hsome
  obtain ⟨rfl, rfl⟩ := Prod.mk.inj heq
  dsimp only at hbody
  subst hbody
  have hblank : ∀ s : Text, ¬ ['\n', '\n'] <:+: strip s → nonBlank s = some body' → body' ≠ [] ∧ Solid '\n' body' := by
    intro s hs hb
    unfold nonBlank at hb
    split at hb
    · rename_i htruthy
      obtain rfl := Option.some.inj hb
      exact ⟨by simpa [truthy] using htruthy, solid_strip hs⟩
    · cases hb
  have hlines : ∀ lines : List Text, (∀ line ∈ lines, line ≠ [] ∧ '\n' ∉ line) → nonEmpty lines = some body' →
      body' ≠ [] ∧ Solid '\n' body' := by
    intro lines hall hb
    unfold nonEmpty at hb
    split at hb
    · rename_i htruthy
      obtain rfl := Option.some.inj hb
      exact ⟨by simpa [truthy] using htruthy, solid_intercalate hall⟩
    · cases hb
  simp only [contents, List.mem_append, List.mem_singleton, List.mem_map, Prod.mk.injEq] at hcontent
  rcases hcontent with ((⟨-, hb⟩ | ⟨entry, hentry, -, hb⟩) | ⟨-, hb⟩) | ⟨-, hb⟩
  · exact hblank _ h.summary hb.symm
  · exact hlines _ (fun _ => findingLine_plain (h.findings entry hentry)) hb
  · exact hblank _ h.commitMessageReview hb.symm
  · exact hlines _ (fun _ => questionLine_plain h.questions) hb.symm

theorem title_plain {result : ReviewResult} {title body : Text} (hmem : (title, body) ∈ titledSections result) : '\n' ∉ title := by
  rw [titledSections_eq] at hmem
  obtain ⟨entry, hentry, hsome⟩ := List.mem_filterMap.mp hmem
  obtain ⟨_, _, heq⟩ := Option.map_eq_some_iff.mp hsome
  obtain ⟨rfl, -⟩ := Prod.mk.inj heq
  have htitles : ∀ t ∈ (contents result).map (·.1), (!t.contains '\n') = true := by
    show ∀ t ∈ ["Summary".toList, "Critical".toList, "Important".toList, "Minor".toList, "Positive".toList,
      "Commit Message Review".toList, "Questions".toList], (!t.contains '\n') = true
    decide
  simpa using htitles _ (List.mem_map_of_mem hentry)

theorem intercalate_sectionText (sections : List (Text × Text)) :
    List.intercalate "\n\n".toList (sections.map sectionText) =
      List.intercalate ['\n', '\n'] (sections.flatMap fun entry => ["## ".toList ++ entry.1, entry.2]) := by
  induction sections with
  | nil => rfl
  | cons entry sections ih =>
    cases sections with
    | nil => simp [sectionText]
    | cons next sections =>
      rw [List.map_cons] at ih
      rw [List.map_cons, List.map_cons, List.intercalate_cons_cons, ih]
      simp [sectionText, List.intercalate_cons_cons]

theorem readSections_flatMap (sections : List (Text × Text)) :
    readSections (sections.flatMap fun entry => ["## ".toList ++ entry.1, entry.2]) = sections := by
  induction sections with
  | nil => rfl
  | cons entry sections ih =>
    rw [List.flatMap_cons]
    simpa [readSections] using ih

/-- The last paragraph ends the text. -/
theorem getLast_intercalate {ps : List Text} (hne : ps ≠ []) (h : ∀ p ∈ ps, p ≠ [] ∧ Solid '\n' p) :
    List.intercalate ['\n', '\n'] ps ≠ [] ∧ (List.intercalate ['\n', '\n'] ps).getLast? ≠ some '\n' := by
  induction ps with
  | nil => exact absurd rfl hne
  | cons p ps ih =>
    cases ps with
    | nil =>
      rw [List.intercalate_singleton]
      exact ⟨(h p List.mem_cons_self).1, (h p List.mem_cons_self).2.noEnd⟩
    | cons q ps =>
      obtain ⟨hrest, hlast⟩ := ih (List.cons_ne_nil q ps) fun r hr => h r (List.mem_cons_of_mem p hr)
      rw [List.intercalate_cons_cons]
      refine ⟨by simp, ?_⟩
      rw [List.getLast?_append]
      cases hl : (List.intercalate ['\n', '\n'] (q :: ps)).getLast? with
      | none => exact absurd (List.getLast?_eq_none_iff.mp hl) hrest
      | some c => rwa [hl] at hlast

section Note
variable {F : FloatFormat} {S : Strings} {data : Json} {raw error : Option Text}

/-- The note of a result that has something to show is its sections. -/
theorem readNote_render (htruthy : truthyJson data = true) (hsome : titledSections (parseReviewResult F S data) ≠ [])
    (h : Readable (parseReviewResult F S data)) :
    readNote (renderResultMarkdown F S (some data) raw error) = titledSections (parseReviewResult F S data) := by
  have hsections : sectionsOf F S (some data) = titledSections (parseReviewResult F S data) := if_pos htruthy
  have hcaptured : capturedMarkdown F S (some data) raw =
      some (List.intercalate "\n\n".toList ((titledSections (parseReviewResult F S data)).map sectionText) ++ "\n".toList) := by
    unfold capturedMarkdown
    dsimp only
    rw [hsections, if_neg (by simpa using hsome)]
  have hparagraphs : ∀ p ∈ (titledSections (parseReviewResult F S data)).flatMap (fun entry => ["## ".toList ++ entry.1, entry.2]),
      p ≠ [] ∧ Solid '\n' p := by
    intro p hp
    obtain ⟨⟨title, body⟩, hmem, hp⟩ := List.mem_flatMap.mp hp
    simp only [List.mem_cons, List.not_mem_nil, or_false] at hp
    rcases hp with rfl | rfl
    · refine ⟨by simp, solid_line ?_⟩
      simp [title_plain hmem]
    · exact body_solid h hmem
  have hnonempty : (titledSections (parseReviewResult F S data)).flatMap (fun entry => ["## ".toList ++ entry.1, entry.2]) ≠ [] := by
    obtain ⟨entry, rest, hcons⟩ := List.exists_cons_of_ne_nil hsome
    rw [hcons, List.flatMap_cons]
    simp
  obtain ⟨-, hlast⟩ := getLast_intercalate hnonempty hparagraphs
  unfold renderResultMarkdown readNote
  rw [hcaptured, intercalate_sectionText]
  dsimp only
  have hstrip : rstripNewlines (List.intercalate ['\n', '\n'] ((titledSections (parseReviewResult F S data)).flatMap
      fun entry => ["## ".toList ++ entry.1, entry.2]) ++ "\n".toList) = List.intercalate ['\n', '\n']
        ((titledSections (parseReviewResult F S data)).flatMap fun entry => ["## ".toList ++ entry.1, entry.2]) := by
    show List.rdropWhile _ (_ ++ ['\n']) = _
    rw [List.rdropWhile_concat_pos _ _ _ (by decide), List.rdropWhile_eq_self_iff]
    intro hl he
    rw [List.getLast?_eq_getLast_of_ne_nil hl] at hlast
    exact hlast (congrArg some (eq_of_beq he))
  rw [hstrip, paragraphs_intercalate hnonempty fun p hp => (hparagraphs p hp).2, readSections_flatMap]

theorem splitOn_joinLines {lines : List Text} (hne : lines ≠ []) (h : ∀ line ∈ lines, '\n' ∉ line) : splitOn '\n' (joinLines lines) = lines := by
  induction lines with
  | nil => exact absurd rfl hne
  | cons line lines ih =>
    have hline := splitOn_of_not_mem (h line List.mem_cons_self)
    cases lines with
    | nil => rw [joinLines_singleton, hline]
    | cons next lines =>
      rw [joinLines_cons_cons, splitOn_append, hline, ih (List.cons_ne_nil next lines) fun l hl => h l (List.mem_cons_of_mem line hl)]
      rfl

/-- Lines that are not empty are found again under their heading. -/
theorem splitOn_nonEmpty {lines : List Text} (h : ∀ line ∈ lines, line ≠ [] ∧ '\n' ∉ line) :
    ((nonEmpty lines).map (splitOn '\n')).getD [] = lines := by
  unfold nonEmpty truthy
  by_cases hlines : lines = []
  · rw [hlines]
    rfl
  · have hjoin : joinLines lines ≠ [] := fun he => hlines ((joinLines_eq_nil_iff fun line hl => (h line hl).1).mp he)
    rw [if_pos (by simpa using hjoin), Option.map_some, Option.getD_some]
    exact splitOn_joinLines hlines fun line hl => (h line hl).2

theorem readPoints_findings {findings : List Finding} (h : ∀ finding ∈ findings, '\n' ∉ findingText finding) :
    ((nonEmpty (findingLines findings)).map readPoints).getD [] = findings.map findingText := by
  have hsplit := splitOn_nonEmpty fun _ => findingLine_plain h
  have hpoints : ((nonEmpty (findingLines findings)).map readPoints).getD [] =
      (((nonEmpty (findingLines findings)).map (splitOn '\n')).getD []).map (·.drop 2) := by
    cases nonEmpty (findingLines findings) <;> rfl
  rw [hpoints, hsplit, findingLines, List.map_map]
  rfl

/-- Nothing is lost between the object the container wrote and the note: under its heading the note has each finding of each
severity, in order, and the findings are those of the object; so with the other sections. -/
theorem note_read_back (raw error : Option Text) {text : Text} {d : Json} (hd : loads F text = some d) (hn : normalizeResult F d = some data)
    (hlines : AllLinesOk S d) (h : Readable (parseReviewResult F S data)) (hsome : titledSections (parseReviewResult F S data) ≠ []) :
    let result := parseReviewResult F S data
    let sections := readNote (renderResultMarkdown F S (some data) raw error)
    Delivered F data result ∧ sections.lookup "Summary".toList = nonBlank result.summary ∧
      (∀ entry ∈ severitySections, ((sections.lookup entry.2).map readPoints).getD [] =
        (result.findings.bucket entry.1).map findingText) ∧
      sections.lookup "Commit Message Review".toList = nonBlank result.commitMessageReview ∧
        ((sections.lookup "Questions".toList).map (splitOn '\n')).getD [] = numberedQuestions result.questions := by
  dsimp only
  have hdump := dumpable_of_loads hd
  have hstructured : Structured F S data (dumps F false none data ++ []) := structured_of_linesOk false none (by simp) hdump hn hlines
  obtain ⟨fields, result, hload, -, hparse, hdelivered⟩ := hstructured
  rw [loads_stored false none (by simp) hdump hn] at hload
  obtain rfl := Option.some.inj hload
  have htruthy : truthyJson (.obj fields) = true := by
    obtain ⟨_, _, _, _, _, _, _, -, -, -, -, -, -, hshape⟩ := normalizeResult_shape hn
    rw [hshape]
    rfl
  rw [readNote_render htruthy hsome h, titledSections_eq]
  have hlookup : ∀ (title : Text) (body : Option Text), (title, body) ∈ contents (parseReviewResult F S (.obj fields)) →
      ((contents (parseReviewResult F S (.obj fields))).filterMap fun entry => entry.2.map fun body => (entry.1, body)).lookup title = body :=
    fun title body hmem => lookup_filterMap (contents_titles _) hmem
  rw [hlookup "Summary".toList (nonBlank (parseReviewResult F S (.obj fields)).summary) (by simp [contents]),
    hlookup "Commit Message Review".toList (nonBlank (parseReviewResult F S (.obj fields)).commitMessageReview) (by simp [contents]),
    hlookup "Questions".toList (nonEmpty (numberedQuestions (parseReviewResult F S (.obj fields)).questions)) (by simp [contents])]
  refine ⟨hparse ▸ hdelivered, rfl, ?_, rfl, splitOn_nonEmpty fun _ => questionLine_plain h.questions⟩
  intro entry hentry
  have hmem : (entry.2, nonEmpty (findingLines ((parseReviewResult F S (.obj fields)).findings.bucket entry.1))) ∈
      contents (parseReviewResult F S (.obj fields)) := by
    unfold contents
    simp only [List.mem_append]
    exact .inl (.inl (.inr (List.mem_map.mpr ⟨entry, hentry, rfl⟩)))
  rw [hlookup _ _ hmem]
  exact readPoints_findings (h.findings entry hentry)

end Note

/-- A review with one finding and one question. -/
def smallReview : Json :=
  .obj [("findings".toList, .obj [("minor".toList, .arr [.obj [("file".toList, .str "main.py".toList), ("line".toList, .int 12),
    ("description".toList, .str "Off by one.".toList)]])]), ("questions".toList, .arr [.str "Why?".toList])]

def smallResult : Json :=
  resultObject [] [[], [], [.obj [("file".toList, .str "main.py".toList), ("line".toList, .int 12),
    ("description".toList, .str "Off by one.".toList)]], []] [] ["Why?".toList]

theorem note_read_back_small :
    let sections := readNote (renderResultMarkdown .none .ascii (some smallResult) none none)
    ((sections.lookup "Minor".toList).map readPoints).getD [] = ["[main.py:12] Off by one.".toList] ∧
      ((sections.lookup "Questions".toList).map (splitOn '\n')).getD [] = ["1. Why?".toList] := by
  have hsmall : 12 < 10 ^ intMaxStrDigits := Nat.lt_of_lt_of_le (by decide : 12 < 10 ^ 2) (Nat.pow_le_pow_right (by decide) (by decide))
  have hd : Dumpable .none smallReview := by simp [smallReview, Dumpable, DumpableFields, DumpableItems, hsmall]
  have hload := loads_dumps true none hd [] [] (by simp) (by simp)
  have hlines : AllLinesOk .ascii smallReview := by
    intro name hname
    simp only [findingBuckets, List.mem_cons, List.not_mem_nil, or_false] at hname
    have hnone : ∀ fields, Json.obj fields ∉ ([] : List Json) := fun _ => List.not_mem_nil
    rcases hname with rfl | rfl | rfl | rfl
    · exact fun fields hfields => absurd hfields (hnone fields)
    · exact fun fields hfields => absurd hfields (hnone fields)
    · intro fields hfields
      obtain heq : Json.obj fields = _ := List.mem_singleton.mp hfields
      rw [heq]
      trivial
    · exact fun fields hfields => absurd hfields (hnone fields)
  have hreadable : Readable (parseReviewResult .none .ascii smallResult) := by
    constructor
    · decide
    · decide
    · decide +kernel
    · decide
  obtain ⟨-, -, hfindings, -, hquestions⟩ := note_read_back none none hload rfl hlines hreadable (by decide +kernel)
  exact ⟨(hfindings ("minor".toList, "Minor".toList) (by decide)).trans (by decide +kernel), hquestions.trans (by decide +kernel)⟩

end GitlabReviewer.Results
