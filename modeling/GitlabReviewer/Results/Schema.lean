import GitlabReviewer.Results.Normalize
import GitlabReviewer.Python.JsonScanner

/-! # What the application reads

The stored result is parsed once more for the page. The parser is as tolerant as
the entrypoint's, but a single line number that cannot be made an integer makes it
give the findings up and put the whole object into the summary.
-/
namespace GitlabReviewer.Results
open Python

/-- `str` of a list or a dictionary, and the value of a decimal digit (`\d`). -/
structure Strings where
  str : Json → Text
  digit : Char → Option ℕ

/-- Texts with ASCII digits only. -/
def Strings.ascii : Strings where
  str _ := []
  digit c := if isDigit c then some (c.toNat - 48) else none

structure Finding where
  file : Text
  line : Option ℤ
  description : Text

structure Findings where
  critical : List Finding
  important : List Finding
  minor : List Finding
  positive : List Finding

structure ReviewResult where
  summary : Text
  findings : Findings
  commitMessageReview : Text
  questions : List Text

section Parser
variable (F : FloatFormat) (S : Strings)

/-- `str(value)` of a value that is neither a number nor a constant. -/
def strOf : Json → Text
  | .str s => s
  | value => S.str value

/-- `int` of a float; none for the errors of the floats that are not finite. -/
def truncate : Python.Float → Option ℤ
  | .finite q => some (q.num.tdiv q.den)
  | _ => none

def isDecimal (c : Char) : Bool := (S.digit c).isSome

/-- The first match of `(\d+)`. -/
def firstDigits (text : Text) : Text := (text.dropWhile fun c => !isDecimal S c).takeWhile (isDecimal S)

def decimalValue (digits : Text) : ℕ := digits.foldl (fun n c => 10 * n + (S.digit c).getD 0) 0

/-- `Finding._to_int`; the outer none is an error. -/
def toInt : Json → Option (Option ℤ)
  | .null => some none
  | .bool _ => some none
  | .int n => some (some n)
  | .float f => (truncate f).map some
  | value =>
      let digits := firstDigits S (strOf S value)
      if digits.isEmpty then some none
      else if intMaxStrDigits < digits.length then none
      else some (some (decimalValue S digits))

def parseFinding : Json → Option Finding
  | .obj fields =>
      (toInt S ((fields.lookup "line".toList).getD .null)).map fun line =>
        { file := textField F "file" fields, line, description := textField F "description" fields }
  | _ => none

def parseBucket (findings : List (Text × Json)) (bucket : Text) : Option (List Finding) :=
  match findings.lookup bucket with
  | none => some []
  | some (.arr items) => items.mapM (parseFinding F S)
  | some _ => none

/-- `ReviewResult._findings`. -/
def findingsField (fields : List (Text × Json)) : List (Text × Json) :=
  match fields.lookup "findings".toList with
  | some (.arr items) => [("important".toList, .arr items)]
  | some (.obj findings) => findings
  | _ => []

def parseFindings (findings : List (Text × Json)) : Option Findings := do
  let critical ← parseBucket F S findings "critical".toList
  let important ← parseBucket F S findings "important".toList
  let minor ← parseBucket F S findings "minor".toList
  let positive ← parseBucket F S findings "positive".toList
  some { critical, important, minor, positive }

/-- `ReviewResult._questions`. -/
def questionsField (fields : List (Text × Json)) : List Text :=
  match fields.lookup "questions".toList with
  | none => []
  | some .null => []
  | some (.str s) => if truthy (strip s) then [s] else []
  | some (.arr items) => (items.filter (· ≠ .null)).map (coerceText F)
  | some (.obj entries) => entries.map (·.1)
  | some value => [coerceText F value]

/-- `ReviewResult.model_validate`; none is its error. -/
def validate (fields : List (Text × Json)) : Option ReviewResult :=
  (parseFindings F S (findingsField fields)).map fun findings =>
    { summary := textField F "summary" fields
      findings
      commitMessageReview := textField F "commit_message_review" fields
      questions := questionsField F fields }

def onlySummary (summary : Text) : ReviewResult :=
  { summary, findings := ⟨[], [], [], []⟩, commitMessageReview := [], questions := [] }

def parseData : Json → ReviewResult
  | .obj fields => (validate F S fields).getD (onlySummary (coerceText F (.obj fields)))
  | data => onlySummary (coerceText F data)

/-- `parse_review_result`. A text that `json.loads` refuses is the summary; the
error it raises for an integer that is too long is not told apart. -/
def parseReviewResult : Json → ReviewResult
  | .str s =>
      if truthy (strip s) then
        match loads F (strip s) with
        | none => onlySummary (strip s)
        | some data => parseData F S data
      else onlySummary []
  | data => parseData F S data

end Parser

section Lines
variable {F : FloatFormat} (S : Strings)

/-- A float that is no integer, or a text with too many digits: what `int` refuses. -/
def Convertible : Json → Prop
  | .null => True
  | .bool _ => True
  | .int _ => True
  | .float f => ∃ q, f = .finite q
  | value => (firstDigits S (strOf S value)).length ≤ intMaxStrDigits

theorem toInt_isSome_iff (v : Json) : (toInt S v).isSome ↔ Convertible S v := by
  have htext : ∀ digits : Text, (if digits.isEmpty then some none
      else if intMaxStrDigits < digits.length then none
      else some (some (decimalValue S digits : ℤ)) : Option (Option ℤ)).isSome ↔ digits.length ≤ intMaxStrDigits := by
    intro digits
    split
    · rename_i hempty
      rw [List.isEmpty_iff.mp hempty]
      simp
    · split
      · rename_i hlong
        simpa using hlong
      · rename_i hshort
        simpa using hshort
  cases v with
  | null => simp [toInt, Convertible]
  | bool b => simp [toInt, Convertible]
  | int n => simp [toInt, Convertible]
  | float f => cases f <;> simp [toInt, Convertible, truncate]
  | str s => exact htext (firstDigits S (strOf S (.str s)))
  | arr items => exact htext (firstDigits S (strOf S (.arr items)))
  | obj fields => exact htext (firstDigits S (strOf S (.obj fields)))

/-- `d.get(key)`. -/
def member (key : Text) : Json → Json
  | .obj fields => (fields.lookup key).getD .null
  | _ => .null

/-- The finding objects of a list all have a line that is an integer. -/
def LinesOk (items : List Json) : Prop := ∀ fields, .obj fields ∈ items → Convertible S (member "line".toList (.obj fields))

variable {S}

/-- An item that is no object becomes a finding without a line. -/
theorem parseFinding_description (text : Text) :
    parseFinding F S (.obj [("description".toList, .str text)]) = some ⟨[], none, text⟩ := rfl

theorem parseFinding_normalize (item : Json) :
    (parseFinding F S (normalizeFinding F item)).isSome ↔
      ∀ fields, item = .obj fields → Convertible S (member "line".toList (.obj fields)) := by
  cases item with
  | obj fields =>
    rw [normalizeFinding, parseFinding, Option.isSome_map, toInt_isSome_iff]
    constructor
    · rintro h fields' heq
      cases heq
      exact h
    · intro h
      exact h fields rfl
  | _ =>
    rw [normalizeFinding, parseFinding_description]
    · simp
    · simp

/-- What a parsed finding keeps of its object. -/
theorem parseFinding_texts {item : Json} {finding : Finding} (h : parseFinding F S item = some finding) :
    finding.file = coerceText F (member "file".toList item) ∧
      finding.description = coerceText F (member "description".toList item) := by
  cases item with
  | obj fields =>
    obtain ⟨line, -, rfl⟩ := Option.map_eq_some_iff.mp h
    exact ⟨rfl, rfl⟩
  | _ => cases h

theorem mapM_isSome_iff {α β : Type} {f : α → Option β} {l : List α} :
    (l.mapM f).isSome ↔ ∀ a ∈ l, (f a).isSome := by
  induction l with
  | nil => simp
  | cons a l ih =>
    rw [List.forall_mem_cons, ← ih, List.mapM_cons]
    cases f a with
    | none => simp
    | some b =>
      cases l.mapM f with
      | none => simp
      | some bs => simp

theorem mapM_map {α β γ : Type} {f : α → Option β} {g : β → γ} {k : α → γ} (hfg : ∀ a b, f a = some b → g b = k a)
    {l : List α} {out : List β} (h : l.mapM f = some out) : out.map g = l.map k := by
  induction l generalizing out with
  | nil =>
    cases h
    rfl
  | cons a l ih =>
    obtain ⟨b, bs, hb, hbs, rfl⟩ := mapM_cons_eq_some h
    rw [List.map_cons, List.map_cons, hfg a b hb, ih hbs]

theorem parseItems_isSome_iff (items : List Json) :
    ((items.map (normalizeFinding F)).mapM (parseFinding F S)).isSome ↔ LinesOk S items := by
  rw [mapM_isSome_iff, List.forall_mem_map]
  constructor
  · intro h fields hmem
    exact (parseFinding_normalize _).mp (h _ hmem) fields rfl
  · intro h item hmem
    rw [parseFinding_normalize]
    rintro fields rfl
    exact h fields hmem

end Lines

section Delivery
variable {F : FloatFormat} {S : Strings}

def Findings.bucket (findings : Findings) (name : Text) : List Finding :=
  if name = "critical".toList then findings.critical
  else if name = "important".toList then findings.important
  else if name = "minor".toList then findings.minor
  else findings.positive

variable (F) in
/-- The page's result has the findings of the stored object in their buckets and
order, with their texts, and the other texts as they are. -/
structure Delivered (normalized : Json) (result : ReviewResult) : Prop where
  summary : member "summary".toList normalized = .str result.summary
  commitMessageReview : member "commit_message_review".toList normalized = .str result.commitMessageReview
  questions : member "questions".toList normalized = .arr (result.questions.map .str)
  findings : ∀ name ∈ findingBuckets, ∃ items, member name (member "findings".toList normalized) = .arr items ∧
    (result.findings.bucket name).map (fun f => (f.file, f.description)) =
      items.map fun item => (coerceText F (member "file".toList item), coerceText F (member "description".toList item))

variable {c i m p : List Json} {summary review : Text} {questions : List Text}

theorem questionsField_str (fields : List (Text × Json))
    (h : fields.lookup "questions".toList = some (.arr (questions.map .str))) : questionsField F fields = questions := by
  have hall : (questions.map Json.str).filter (· ≠ .null) = questions.map .str := by
    rw [List.filter_eq_self]
    intro v hv
    obtain ⟨s, -, rfl⟩ := List.mem_map.mp hv
    simp
  have hid : coerceText F ∘ Json.str = id := rfl
  rw [questionsField, h]
  dsimp only
  rw [hall, List.map_map, hid, List.map_id]

theorem parseFindings_eq_some {findings : List (Text × Json)} {out : Findings} :
    parseFindings F S findings = some out ↔
      parseBucket F S findings "critical".toList = some out.critical ∧
        parseBucket F S findings "important".toList = some out.important ∧
        parseBucket F S findings "minor".toList = some out.minor ∧
        parseBucket F S findings "positive".toList = some out.positive := by
  constructor
  · intro h
    obtain ⟨critical, hc, h⟩ := Option.bind_eq_some_iff.mp h
    obtain ⟨important, hi, h⟩ := Option.bind_eq_some_iff.mp h
    obtain ⟨minor, hm, h⟩ := Option.bind_eq_some_iff.mp h
    obtain ⟨positive, hp, h⟩ := Option.bind_eq_some_iff.mp h
    cases h
    exact ⟨hc, hi, hm, hp⟩
  · rintro ⟨hc, hi, hm, hp⟩
    simp only [parseFindings, hc, hi, hm, hp, Option.bind_eq_bind, Option.bind_some]

/-- A result object is read bucket by bucket. -/
theorem validate_resultObject {fields : List (Text × Json)} (result : ReviewResult)
    (h : resultObject summary [c, i, m, p] review questions = .obj fields) :
    validate F S fields = some result ↔
      c.mapM (parseFinding F S) = some result.findings.critical ∧
        i.mapM (parseFinding F S) = some result.findings.important ∧
        m.mapM (parseFinding F S) = some result.findings.minor ∧
        p.mapM (parseFinding F S) = some result.findings.positive ∧
        result.summary = summary ∧ result.commitMessageReview = review ∧ result.questions = questions := by
  cases h
  have hquestions := questionsField_str (F := F) [("summary".toList, .str summary),
    ("findings".toList, .obj (findingBuckets.zip ([c, i, m, p].map .arr))),
    ("commit_message_review".toList, .str review), ("questions".toList, .arr (questions.map .str))] rfl
  unfold validate
  rw [hquestions, Option.map_eq_some_iff]
  constructor
  · rintro ⟨findings, hfindings, rfl⟩
    obtain ⟨hc, hi, hm, hp⟩ := parseFindings_eq_some.mp hfindings
    exact ⟨hc, hi, hm, hp, rfl, rfl, rfl⟩
  · rintro ⟨hc, hi, hm, hp, rfl, rfl, rfl⟩
    exact ⟨result.findings, parseFindings_eq_some.mpr ⟨hc, hi, hm, hp⟩, rfl⟩

theorem parseReviewResult_of_validate {fields : List (Text × Json)} {result : ReviewResult}
    (h : validate F S fields = some result) : parseReviewResult F S (.obj fields) = result := by
  show (validate F S fields).getD _ = result
  rw [h, Option.getD_some]

theorem dumpable_lookup {fields : List (Text × Json)} (hd : DumpableFields F fields) {key : Text} {v : Json}
    (h : fields.lookup key = some v) : Dumpable F v :=
  (dumpableFields_iff F fields).mp hd _ (mem_of_lookup h)

theorem dumpable_bucketItems {fields findings : List (Text × Json)} (hd : DumpableFields F fields)
    (hf : findingsOf fields = some findings) {name : Text} {items : List Json}
    (hi : bucketItems findings name = some items) : ∀ item ∈ items, Dumpable F item := by
  have hfindings : DumpableFields F findings := by
    unfold findingsOf at hf
    split at hf
    · cases hf
      exact ⟨⟩
    · cases hf
      exact ⟨⟩
    · rename_i hlookup
      cases hf
      exact ⟨dumpable_lookup hd hlookup, ⟨⟩⟩
    · rename_i hlookup
      cases hf
      have hobj := dumpable_lookup hd hlookup
      rw [Dumpable] at hobj
      exact hobj.2
    · cases hf
  unfold bucketItems at hi
  split at hi
  · cases hi
    intro item hmem
    cases hmem
  · rename_i value hlookup
    split at hi
    · split at hi
      · cases hi
        have harr := dumpable_lookup hfindings hlookup
        rwa [Dumpable, dumpableItems_iff] at harr
      · cases hi
    · cases hi
      intro item hmem
      cases hmem

theorem dumpable_normalizeFinding {item : Json} (h : Dumpable F item) : Dumpable F (normalizeFinding F item) := by
  cases item with
  | obj fields => exact h
  | _ => simp [normalizeFinding, Dumpable, DumpableFields]

theorem dumpable_bucket {items : List Json} (h : ∀ item ∈ items, Dumpable F item) :
    Dumpable F (.arr (items.map (normalizeFinding F))) := by
  rw [Dumpable, dumpableItems_iff, List.forall_mem_map]
  exact fun item hmem => dumpable_normalizeFinding (h item hmem)

/-- A result can be dumped if what it was made of was loaded. -/
theorem dumpable_normalizeResult {d normalized : Json} (hd : Dumpable F d)
    (hn : normalizeResult F d = some normalized) : Dumpable F normalized := by
  obtain ⟨fields, findings, c, i, m, p, questions, rfl, hf, hc, hi, hm, hp, rfl⟩ := normalizeResult_shape hn
  rw [Dumpable] at hd
  have hitems : ∀ {name items}, bucketItems findings name = some items →
      Dumpable F (.arr (items.map (normalizeFinding F))) :=
    fun h => dumpable_bucket (dumpable_bucketItems hd.2 hf h)
  have hquestions : Dumpable F (.arr (questions.map .str)) := by
    rw [Dumpable, dumpableItems_iff, List.forall_mem_map]
    intro s _
    simp [Dumpable]
  have hbuckets : Dumpable F (.obj (findingBuckets.zip (([c, i, m, p].map fun items =>
      items.map (normalizeFinding F)).map .arr))) := by
    rw [Dumpable]
    refine ⟨(by decide : findingBuckets.Nodup), ?_⟩
    exact ⟨hitems hc, hitems hi, hitems hm, hitems hp, ⟨⟩⟩
  have hkeys : ["summary".toList, "findings".toList, "commit_message_review".toList, "questions".toList].Nodup := by
    decide
  rw [resultObject, Dumpable]
  exact ⟨hkeys, by simp [Dumpable], hbuckets, by simp [Dumpable], hquestions, ⟨⟩⟩

/-- The findings of a bucket as the model of the review wrote them. -/
def findingItems (d : Json) (name : Text) : List Json :=
  match d with
  | .obj fields => ((findingsOf fields).bind fun findings => bucketItems findings name).getD []
  | _ => []

variable (S) in
/-- Every finding object has a line that `int` accepts. -/
def AllLinesOk (d : Json) : Prop := ∀ name ∈ findingBuckets, LinesOk S (findingItems d name)

variable (F S) in
/-- The stored text is read as an object that validates, with all findings. -/
def Structured (normalized : Json) (stored : Text) : Prop :=
  ∃ fields result, loads F stored = some (.obj fields) ∧ validate F S fields = some result ∧
    parseReviewResult F S (.obj fields) = result ∧ Delivered F normalized result

variable {d normalized : Json} (ascii : Bool) (indent : Option ℕ) {after : Text}
  (ha : ∀ c ∈ after, isJsonBlank c = true)
include ha

theorem loads_stored (hd : Dumpable F d) (hn : normalizeResult F d = some normalized) :
    loads F (dumps F ascii indent normalized ++ after) = some normalized := by
  have hload := loads_dumps ascii indent (dumpable_normalizeResult hd hn) [] _ (by simp) ha
  rwa [List.nil_append] at hload

/-- With lines that are integers, everything is delivered. -/
theorem structured_of_linesOk (hd : Dumpable F d) (hn : normalizeResult F d = some normalized)
    (hlines : AllLinesOk S d) : Structured F S normalized (dumps F ascii indent normalized ++ after) := by
  have hload := loads_stored ascii indent ha hd hn
  obtain ⟨fields, findings, c, i, m, p, questions, rfl, hf, hc, hi, hm, hp, hnorm⟩ := normalizeResult_shape hn
  subst hnorm
  have hitems : ∀ {name items}, name ∈ findingBuckets → bucketItems findings name = some items →
      ∃ out, (items.map (normalizeFinding F)).mapM (parseFinding F S) = some out := by
    intro name items hname hitems
    have hok := hlines name hname
    rw [findingItems, hf, Option.bind_some, hitems, Option.getD_some] at hok
    exact Option.isSome_iff_exists.mp ((parseItems_isSome_iff items).mpr hok)
  obtain ⟨critical, hcritical⟩ := hitems (by decide) hc
  obtain ⟨important, himportant⟩ := hitems (by decide) hi
  obtain ⟨minor, hminor⟩ := hitems (by decide) hm
  obtain ⟨positive, hpositive⟩ := hitems (by decide) hp
  have hvalid := (validate_resultObject (F := F) (S := S) ⟨textField F "summary" fields,
    ⟨critical, important, minor, positive⟩, textField F "commit_message_review" fields, questions⟩ rfl).mpr
    ⟨hcritical, himportant, hminor, hpositive, rfl, rfl, rfl⟩
  refine ⟨_, _, hload, hvalid, parseReviewResult_of_validate hvalid, ⟨rfl, rfl, rfl, ?_⟩⟩
  · have htexts : ∀ {items : List Json} {out}, items.mapM (parseFinding F S) = some out →
        out.map (fun f => (f.file, f.description)) =
          items.map fun item => (coerceText F (member "file".toList item), coerceText F (member "description".toList item)) := by
      intro items out hout
      refine mapM_map ?_ hout
      intro item finding hfinding
      rw [(parseFinding_texts hfinding).1, (parseFinding_texts hfinding).2]
    intro name hname
    simp only [findingBuckets, List.mem_cons, List.not_mem_nil, or_false] at hname
    rcases hname with rfl | rfl | rfl | rfl
    · exact ⟨_, rfl, htexts hcritical⟩
    · exact ⟨_, rfl, htexts himportant⟩
    · exact ⟨_, rfl, htexts hminor⟩
    · exact ⟨_, rfl, htexts hpositive⟩

/-- A line that is no integer makes the stored object unreadable. -/
theorem linesOk_of_structured (hd : Dumpable F d) (hn : normalizeResult F d = some normalized)
    (h : Structured F S normalized (dumps F ascii indent normalized ++ after)) : AllLinesOk S d := by
  obtain ⟨stored, result, hload, hvalid, -, -⟩ := h
  rw [loads_stored ascii indent ha hd hn] at hload
  obtain ⟨fields, findings, c, i, m, p, questions, rfl, hf, hc, hi, hm, hp, hnorm⟩ := normalizeResult_shape hn
  subst hnorm
  obtain ⟨hcritical, himportant, hminor, hpositive, -⟩ := (validate_resultObject _ (Option.some.inj hload)).mp hvalid
  have hok : ∀ {name items out}, bucketItems findings name = some items →
      (items.map (normalizeFinding F)).mapM (parseFinding F S) = some out →
        LinesOk S (findingItems (.obj fields) name) := by
    intro name items out hitems hout
    rw [findingItems, hf, Option.bind_some, hitems, Option.getD_some]
    exact (parseItems_isSome_iff (F := F) items).mp (by rw [hout]; rfl)
  intro name hname
  simp only [findingBuckets, List.mem_cons, List.not_mem_nil, or_false] at hname
  rcases hname with rfl | rfl | rfl | rfl
  · exact hok hc hcritical
  · exact hok hi himportant
  · exact hok hm hminor
  · exact hok hp hpositive

/-- A review's findings reach the page exactly when all their lines are integers. -/
theorem findings_delivered_iff {text : Text} (hd : loads F text = some d) (hn : normalizeResult F d = some normalized) :
    Structured F S normalized (dumps F ascii indent normalized ++ after) ↔ AllLinesOk S d :=
  ⟨linesOk_of_structured ascii indent ha (dumpable_of_loads hd) hn,
    structured_of_linesOk ascii indent ha (dumpable_of_loads hd) hn⟩

omit ha in
theorem findings_delivered_iff_line :
    let finding := Json.obj [("file".toList, .str "main.py".toList), ("line".toList, .str "12-14".toList)]
    let normalized := resultObject [] [[], [], [finding], []] [] []
    Structured .none .ascii normalized (dumps .none false (some 2) normalized ++ ['\n']) ↔
      AllLinesOk .ascii (.obj [("findings".toList, .obj [("minor".toList, .arr [finding])])]) := by
  intro finding normalized
  have hd : Dumpable .none (.obj [("findings".toList, .obj [("minor".toList, .arr [finding])])]) := by
    simp [finding, Dumpable, DumpableFields, DumpableItems]
  have hload := loads_dumps true none hd [] [] (by simp) (by simp)
  exact findings_delivered_iff false (some 2) (List.all_eq_true.mp rfl) hload rfl

omit ha in
/-- One line number beyond all numbers loses every finding. -/
theorem findings_lost :
    ¬ ∀ (F : FloatFormat) (S : Strings) (text : Text) (d normalized : Json), loads F text = some d →
      normalizeResult F d = some normalized →
        Structured F S normalized (dumps F false (some 2) normalized ++ ['\n']) := by
  intro hclaim
  have hd : Dumpable .none (.obj [("findings".toList, .obj [("minor".toList, .arr
      [.obj [("line".toList, .float (.infinity false))]])])]) := by
    simp [Dumpable, DumpableFields, DumpableItems]
  have hload := loads_dumps true none hd [] [] (by simp) (by simp)
  have hstructured := hclaim .none .ascii _ _ _ hload rfl
  have hlines := linesOk_of_structured false (some 2) (List.all_eq_true.mp rfl) hd rfl hstructured
  obtain ⟨q, hq⟩ := hlines "minor".toList (by decide) _ List.mem_cons_self
  cases hq

end Delivery

end GitlabReviewer.Results
