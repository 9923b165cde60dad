import GitlabReviewer.Live.Scribe

/-! # The log a page sees only grows

In every state the log of a run is what the worker has streamed so far, and what
a page has seen of it stays: up to the newlines at its end, it is a beginning of
whatever a later page sees, through cancels, crashes and recoveries.
-/
namespace GitlabReviewer.Live
open Python Foundation Models Scheduling Secrets Reviews Lifecycle

@[simp] theorem withLines_nil (base : Text) : withLines base [] = base := rfl

theorem withLines_of_ne {lines : List Text} (h : lines ≠ []) (base : Text) : withLines base lines = joinLog lines := by
  unfold withLines
  rw [if_neg (by simpa using h)]

theorem withLines_eq_nil_iff {lines : List Text} : withLines [] lines = [] ↔ lines = [] := by
  by_cases h : lines = []
  · simp [h]
  · simp [h, withLines_of_ne h, joinLog]

/-- A text without newlines at its end that begins another begins it without its last newlines too. -/
theorem prefix_rstripNewlines {t s : Text} (ht : rstripNewlines t = t) (h : t <+: s) : t <+: rstripNewlines s := by
  obtain ⟨rest, rfl⟩ := h
  induction rest using List.reverseRecOn with
  | nil =>
    rw [List.append_nil, ht]
  | append_singleton rest c ih =>
    unfold rstripNewlines at ih ⊢
    rw [← List.append_assoc, List.rdropWhile_concat]
    split
    · exact ih
    · exact ⟨rest ++ [c], by simp⟩

theorem rstripNewlines_idem (s : Text) : rstripNewlines (rstripNewlines s) = rstripNewlines s :=
  List.rdropWhile_idempotent (p := (· == '\n')) (l := s)

theorem joinLines_append {lines rest : List Text} (h : lines ≠ []) : joinLines lines <+: joinLines (lines ++ rest) := by
  induction rest using List.reverseRecOn with
  | nil => rw [List.append_nil]
  | append_singleton rest line ih =>
    rw [← List.append_assoc, joinLines_concat (by simp [h])]
    exact ih.trans (List.prefix_append _ _)

/-- What was seen of the log of some lines is seen of the log of more lines. -/
theorem prefix_withLines {t : Text} (ht : rstripNewlines t = t) {lines lines' : List Text} (hl : lines <+: lines')
    (h : t <+: withLines [] lines) : t <+: withLines [] lines' := by
  obtain ⟨rest, rfl⟩ := hl
  by_cases hne : lines = []
  · subst hne
    obtain rfl : t = [] := List.prefix_nil.mp h
    exact List.nil_prefix
  · rw [withLines_of_ne hne] at h
    rw [withLines_of_ne (by simp [hne])]
    have hbody : t <+: joinLines lines := by
      have hstripped := prefix_rstripNewlines ht h
      unfold joinLog rstripNewlines at hstripped
      rw [List.rdropWhile_concat_pos _ _ _ (by decide)] at hstripped
      exact hstripped.trans (List.rdropWhile_prefix _ _)
    exact (hbody.trans (joinLines_append hne)).trans (List.prefix_append _ _)

theorem prefix_appendLog {t log : Text} (ht : rstripNewlines t = t) (h : t <+: log) (line : Text) : t <+: appendLog log line := by
  have hbase := prefix_rstripNewlines ht h
  unfold appendLog
  dsimp only
  split
  · rename_i hempty
    rw [List.isEmpty_iff.mp hempty, List.prefix_nil] at hbase
    subst hbase
    exact List.nil_prefix
  · rw [List.append_assoc, List.append_assoc]
    exact hbase.trans (List.prefix_append _ _)

/-- All the lines of the review, with or without the line about the note. -/
def Whole (ex : Execution) (log : Text) : Prop :=
  log = withLines [] (transcript ex) ∨ ∃ line ∈ noteLine ex, log = appendLog (withLines [] (transcript ex)) line

/-- The verdicts that only the worker gives. -/
def delivered (status : RunStatus) : Prop := status = .success ∨ status = .timeout

/-- The note is posted, and the log says so. -/
def Posted (ex : Execution) (rec : Record) : Prop :=
  ∃ iid noteId, ex.mrIid = some iid ∧ ex.note = .ok noteId ∧ rec.gitlabNoteId = some noteId ∧
    rec.log = appendLog (withLines [] (transcript ex)) (postedLine iid noteId)

/-- The result of the review is stored. -/
structure Reported (ex : Execution) (rec : Record) : Prop where
  resultJson : rec.resultJson = ex.outcome.resultJson
  resultMarkdown : rec.resultMarkdown = ex.outcome.resultMarkdown
  note : rec.gitlabNoteId = none ∨ Posted ex rec

structure Told (ex : Execution) (rec : Record) : Prop where
  journal : (∃ lines, lines <+: transcript ex ∧ rec.log = withLines [] lines) ∨ Whole ex rec.log
  whole : delivered rec.status → Whole ex rec.log
  reported : delivered rec.status → Reported ex rec
  results : rec.delivery = undelivered ∨ Reported ex rec

theorem delivery_eq_iff {rec : Record} {data : Option Json} {raw : Option Text} {noteId : Option ℤ} :
    rec.delivery = (data, raw, noteId) ↔ rec.resultJson = data ∧ rec.resultMarkdown = raw ∧ rec.gitlabNoteId = noteId := by
  simp [Record.delivery]

theorem Reported.of_eq {ex : Execution} {rec rec' : Record} (h : Reported ex rec) (hdelivery : rec'.delivery = rec.delivery)
    (hlog : rec'.log = rec.log) : Reported ex rec' := by
  obtain ⟨hjson, hmarkdown, hnote⟩ := delivery_eq_iff.mp hdelivery
  refine ⟨hjson.trans h.resultJson, hmarkdown.trans h.resultMarkdown, ?_⟩
  unfold Posted
  rw [hnote, hlog]
  exact h.note

theorem noteId_of_delivery {rec : Record} {d : Delivery} (h : rec.delivery = d) : rec.gitlabNoteId = d.2.2 :=
  congrArg (fun d : Delivery => d.2.2) h

theorem Aside.noteId {rec rec' : Record} (ha : Aside rec rec') : rec'.gitlabNoteId = rec.gitlabNoteId :=
  noteId_of_delivery ha.delivery

theorem Aside.delivered {rec rec' : Record} (ha : Aside rec rec') (h : delivered rec'.status) : delivered rec.status := by
  rcases ha.status with hs | hs
  · rwa [← hs]
  · rw [hs] at h
    rcases h with h | h <;> cases h

theorem Told.aside {ex : Execution} {rec rec' : Record} (h : Told ex rec) (ha : Aside rec rec') : Told ex rec' := by
  constructor
  · rw [ha.log]
    exact h.journal
  · intro hst
    rw [ha.log]
    exact h.whole (ha.delivered hst)
  · intro hst
    exact (h.reported (ha.delivered hst)).of_eq ha.delivery ha.log
  · rw [ha.delivery]
    exact h.results.imp id fun hr => hr.of_eq ha.delivery ha.log

def Scribe.run : Scribe → Option ℕ
  | .off => none
  | .assigned i => some i
  | .writing i _ _ _ => some i

/-- The record of a run whose scribe has stored some of these lines. -/
structure Streamed (lines : List Text) (rec : Record) : Prop where
  status : ¬ delivered rec.status
  delivery : rec.delivery = undelivered
  log : ∃ stored, stored <+: lines ∧ rec.log = withLines [] stored

theorem Streamed.aside {lines : List Text} {rec rec' : Record} (h : Streamed lines rec) (ha : Aside rec rec') : Streamed lines rec' := by
  obtain ⟨hst, hdelivery, hlog⟩ := h
  exact ⟨fun hd => hst (ha.delivered hd), ha.delivery.trans hdelivery, ha.log ▸ hlog⟩

structure Blank (base : Record) : Prop where
  log : base.log = []
  delivery : base.delivery = undelivered

def ScribeOk (answers : ℕ → Execution) (w : World) : Scribe → Prop
  | .off => True
  | .assigned i => ∃ rec, recordAt w i = some rec ∧ Streamed [] rec
  | .writing i base lines calls => Blank base ∧ lines <+: transcript (answers i) ∧ calls ⊆ w.notes ∧
      ∃ rec, recordAt w i = some rec ∧ Streamed lines rec

/-- The history has the call of this note. -/
def Noted (ex : Execution) (i : ℕ) (noteId : ℤ) (w : World) : Prop := ∃ call ∈ w.notes, NotedBy ex i noteId call

theorem Noted.grow {ex : Execution} {i : ℕ} {noteId : ℤ} {w w' : World} (h : Noted ex i noteId w) (hn : w.notes ⊆ w'.notes) :
    Noted ex i noteId w' := by
  obtain ⟨call, hcall, hby⟩ := h
  exact ⟨call, hn hcall, hby⟩

structure Chronicle (answers : ℕ → Execution) (rs : List Scribe) (w : World) : Prop where
  keys : RunKeys w
  told : ∀ i rec, recordAt w i = some rec → Told (answers i) rec
  noted : ∀ i rec n, recordAt w i = some rec → rec.gitlabNoteId = some n → Noted (answers i) i n w
  scribes : ∀ (k : ℕ) (r : Scribe), rs[k]? = some r → ScribeOk answers w r
  apart : ∀ (k k' : ℕ) (r r' : Scribe) (i : ℕ), rs[k]? = some r → rs[k']? = some r' → r.run = some i → r'.run = some i → k = k'

section Step
variable {answers : ℕ → Execution} {rs : List Scribe} {w w' : World}

/-- A scribe whose run the step leaves aside. -/
theorem ScribeOk.keep {r : Scribe} (h : ScribeOk answers w r) (hn : w.notes ⊆ w'.notes)
    (hrun : ∀ i, r.run = some i → ∀ rec, recordAt w i = some rec → ∃ rec', recordAt w' i = some rec' ∧ Aside rec rec') :
    ScribeOk answers w' r := by
  cases r with
  | off => trivial
  | assigned i =>
    obtain ⟨rec, hrec, hs⟩ := h
    obtain ⟨rec', hrec', ha⟩ := hrun i rfl rec hrec
    exact ⟨rec', hrec', hs.aside ha⟩
  | writing i base lines calls =>
    obtain ⟨hbase, hlines, hcalls, rec, hrec, hs⟩ := h
    obtain ⟨rec', hrec', ha⟩ := hrun i rfl rec hrec
    exact ⟨hbase, hlines, List.Subset.trans hcalls hn, rec', hrec', hs.aside ha⟩

theorem ScribeOk.found {r : Scribe} {i : ℕ} (h : ScribeOk answers w r) (hi : r.run = some i) : ∃ rec, recordAt w i = some rec := by
  cases r with
  | off => cases hi
  | assigned j =>
    obtain rfl := Option.some.inj hi
    exact ⟨_, h.choose_spec.1⟩
  | writing j base lines calls =>
    obtain rfl := Option.some.inj hi
    exact ⟨_, h.2.2.2.choose_spec.1⟩

theorem Chronicle.beside (h : Chronicle answers rs w) (hb : Beside w w') : Chronicle answers rs w' := by
  constructor
  · exact hb.keys h.keys
  · intro i rec' hrec'
    obtain ⟨rec, hrec, ha⟩ := hb.before hrec'
    exact (h.told i rec hrec).aside ha
  · intro i rec' n hrec' hn
    obtain ⟨rec, hrec, ha⟩ := hb.before hrec'
    exact (h.noted i rec n hrec (ha.noteId ▸ hn)).grow hb.notes
  · intro k r hk
    exact (h.scribes k r hk).keep hb.notes fun i _ rec hrec => hb.found i rec hrec
  · exact h.apart

/-- A step of the scribe at index `k`, which stays the scribe of its run or leaves it. -/
theorem Chronicle.own (h : Chronicle answers rs w) {k i : ℕ} {r r' : Scribe} {rel : Record → Record → Prop}
    (hk : rs[k]? = some r) (hr : r.run = some i) (hr' : r'.run = some i ∨ r'.run = none) (hw : Writing i rel w w')
    (htold : ∀ rec rec', recordAt w i = some rec → Own rel rec rec' → Told (answers i) rec')
    (hnoted : ∀ rec rec' n, recordAt w i = some rec → Own rel rec rec' → rec'.gitlabNoteId = some n →
      rec.gitlabNoteId = some n ∨ Noted (answers i) i n w)
    (hok : ScribeOk answers w' r') : Chronicle answers (rs.set k r') w' := by
  have hother : ∀ j, j ≠ i → ∀ rec, recordAt w j = some rec → ∃ rec', recordAt w' j = some rec' ∧ Aside rec rec' := by
    intro j hj rec hrec
    obtain ⟨rec', hrec', hc⟩ := hw.found j rec hrec
    rw [if_neg hj] at hc
    exact ⟨rec', hrec', hc⟩
  constructor
  · exact hw.keys h.keys
  · intro j rec' hrec'
    obtain ⟨rec, hrec, hc⟩ := hw.before hrec'
    split at hc
    · rename_i hj
      subst hj
      exact htold rec rec' hrec hc
    · exact (h.told j rec hrec).aside hc
  · intro j rec' n hrec' hn
    obtain ⟨rec, hrec, hc⟩ := hw.before hrec'
    split at hc
    · rename_i hj
      subst hj
      rcases hnoted rec rec' n hrec hc hn with hold | hnew
      · exact (h.noted j rec n hrec hold).grow hw.notes
      · exact hnew.grow hw.notes
    · exact (h.noted j rec n hrec (hc.noteId ▸ hn)).grow hw.notes
  · intro k' x hk'
    rcases getElem?_set_cases hk' with ⟨-, rfl⟩ | ⟨hne, hx⟩
    · exact hok
    · apply (h.scribes k' x hx).keep hw.notes
      intro j hj rec hrec
      apply hother j _ rec hrec
      rintro rfl
      exact hne (h.apart k' k x r j hx hk hj hr)
  · intro a b x y j ha hb hx hy
    rcases getElem?_set_cases ha with ⟨rfl, rfl⟩ | ⟨hne, ha'⟩
    · rcases getElem?_set_cases hb with ⟨rfl, -⟩ | ⟨hne', hb'⟩
      · rfl
      · rcases hr' with hr' | hr'
        · obtain rfl := Option.some.inj (hr'.symm.trans hx)
          exact absurd (h.apart b a y r i hb' hk hy hr) hne'
        · rw [hr'] at hx
          cases hx
    · rcases getElem?_set_cases hb with ⟨rfl, rfl⟩ | ⟨-, hb'⟩
      · rcases hr' with hr' | hr'
        · obtain rfl := Option.some.inj (hr'.symm.trans hy)
          exact absurd (h.apart a b x r i ha' hk hx hr) hne
        · rw [hr'] at hy
          cases hy
      · exact h.apart a b x y j ha' hb' hx hy

theorem writing_of_runs (i : ℕ) (h : w'.runs = w.runs) (hn : w'.notes = w.notes) : Writing i Eq w w' := by
  have hb := beside_of_runs h hn
  refine ⟨hb.keys, ?_, hb.missing, hb.notes⟩
  intro k rec hrec
  have hrec' : recordAt w' k = some rec := by
    unfold recordAt World.run? at hrec ⊢
    rwa [h]
  refine ⟨rec, hrec', ?_⟩
  split
  · exact ⟨rfl, rfl, rfl, rfl⟩
  · exact .refl rec

theorem not_delivered_running : ¬ delivered .running := by
  rintro (h | h) <;> cases h

theorem not_delivered_error : ¬ delivered .error := by
  rintro (h | h) <;> cases h

theorem appendLog_ne_nil (log line : Text) : appendLog log line ≠ [] := by
  unfold appendLog
  dsimp only
  split <;> simp

theorem told_begin {ex : Execution} {rec rec' : Record} (h : Told ex rec) (hb : Begins rec rec') : Told ex rec' := by
  have hbefore : delivered rec'.status → delivered rec.status := by
    intro hd
    rcases hb.status with hs | hs
    · exact hs ▸ hd
    · exact absurd (hs ▸ hd) not_delivered_running
  constructor
  · rw [hb.log]
    exact h.journal
  · intro hd
    rw [hb.log]
    exact h.whole (hbefore hd)
  · intro hd
    exact (h.reported (hbefore hd)).of_eq hb.delivery hb.log
  · rw [hb.delivery]
    exact h.results.imp id fun hr => hr.of_eq hb.delivery hb.log

theorem told_flush {ex : Execution} {lines lines' : List Text} {rec rec' : Record} (h : Told ex rec) (hall : lines' <+: transcript ex)
    (hne : lines' ≠ []) (hs : Streamed lines rec) (hf : Flushes lines' rec rec') : Told ex rec' := by
  constructor
  · rcases hf.log with hlog | hlog
    · rw [hlog]
      exact h.journal
    · exact .inl ⟨lines', hall, by rw [hlog, withLines_of_ne hne]⟩
  · intro hd
    rw [hf.status] at hd
    exact absurd hd hs.status
  · intro hd
    rw [hf.status] at hd
    exact absurd hd hs.status
  · exact .inl (hf.delivery.trans hs.delivery)

/-- The record after the worker has closed its run. -/
structure Closed (ex : Execution) (base : Record) (log : Text) (noteId : Option ℤ) (rec rec' : Record) : Prop where
  resultJson : rec'.resultJson = ex.outcome.resultJson
  resultMarkdown : rec'.resultMarkdown = ex.outcome.resultMarkdown
  noteId : rec'.gitlabNoteId = noteId
  log : rec'.log = rec.log ∧ log = [] ∨ rec'.log = log

theorem closed_of_finishes {ex : Execution} {base : Record} {log : Text} {noteId : Option ℤ} {rec rec' : Record} (hb : Blank base)
    (hrec : rec.delivery = undelivered) (hf : Finishes ex base log noteId rec rec') : Closed ex base log noteId rec rec' := by
  have hdelivery := hf.delivery
  rw [hrec, hb.delivery, writtenDelivery_base] at hdelivery
  obtain ⟨hjson, hmarkdown, hnote⟩ := delivery_eq_iff.mp hdelivery
  refine ⟨hjson, hmarkdown, hnote, ?_⟩
  have hlog := hf.log
  rw [hb.log] at hlog
  rcases written_eq_or [] log rec.log with ⟨he, hw⟩ | ⟨-, hw⟩
  · exact .inl ⟨hlog.trans hw, he⟩
  · exact .inr (hlog.trans hw)

/-- A log that is closed is whole, if the worker delivers it. -/
theorem told_finish {ex : Execution} {base : Record} {lines : List Text} {log : Text} {noteId : Option ℤ} {rec rec' : Record}
    (hb : Blank base) (hlines : lines <+: transcript ex) (hs : Streamed lines rec) (hc : Closes ex base log noteId)
    (hf : Finishes ex base log noteId rec rec') : Told ex rec' := by
  have hclosed := closed_of_finishes hb hs.delivery hf
  obtain ⟨stored, hpre, hlog⟩ := hs.log
  have hbaseNote : base.gitlabNoteId = none := noteId_of_delivery hb.delivery
  have hwhole : ∀ text, Whole ex text → (text = [] → Whole ex rec.log) → rec'.log = rec.log ∧ text = [] ∨ rec'.log = text →
      Whole ex rec'.log := by
    rintro text htext hnil (⟨hw, he⟩ | hw)
    · rw [hw]
      exact hnil he
    · rw [hw]
      exact htext
  have hreported : (rec'.gitlabNoteId = none ∨ Posted ex rec') → Reported ex rec' := fun hnote =>
    ⟨hclosed.resultJson, hclosed.resultMarkdown, hnote⟩
  cases hc with
  | missing herror =>
    have hkept : rec'.log = rec.log := by
      rcases hclosed.log with ⟨h, -⟩ | h
      · exact h
      · have := hf.log
        rwa [written_self] at this
    constructor
    · rw [hkept]
      exact .inl ⟨stored, hpre.trans hlines, hlog⟩
    · intro hd
      rw [hf.status, herror] at hd
      exact absurd hd not_delivered_error
    · exact fun _ => hreported (.inl (hclosed.noteId.trans hbaseNote))
    · exact .inr (hreported (.inl (hclosed.noteId.trans hbaseNote)))
  | plain =>
    have hdone : Whole ex rec'.log := by
      apply hwhole _ (.inl (by rw [hb.log])) _ hclosed.log
      intro hnil
      rw [hb.log] at hnil
      have htranscript := withLines_eq_nil_iff.mp hnil
      rw [htranscript, List.prefix_nil] at hlines
      rw [hlines, List.prefix_nil] at hpre
      rw [hlog, hpre]
      exact .inl (by rw [htranscript])
    have hplain := hreported (.inl (hclosed.noteId.trans hbaseNote))
    exact ⟨.inr hdone, fun _ => hdone, fun _ => hplain, .inr hplain⟩
  | @noted line hline =>
    have hended : rec'.log = appendLog (withLines [] (transcript ex)) line := by
      rcases hclosed.log with ⟨-, hnil⟩ | h
      · exact absurd hnil (appendLog_ne_nil _ _)
      · rw [h, hb.log]
    have hdone : Whole ex rec'.log := .inr ⟨line, hline, hended⟩
    have hnoted : rec'.gitlabNoteId = none ∨ Posted ex rec' := by
      rw [hclosed.noteId, noteIdOf]
      obtain ⟨iid, hiid, hline⟩ := Option.map_eq_some_iff.mp hline
      cases hnote : ex.note with
      | error message => exact .inl hbaseNote
      | ok noteId =>
        rw [hnote] at hline
        refine .inr ⟨iid, noteId, hiid, hnote, ?_, ?_⟩
        · rw [hclosed.noteId, noteIdOf, hnote]
        · rw [hended, ← hline]
    exact ⟨.inr hdone, fun _ => hdone, fun _ => hreported hnoted, .inr (hreported hnoted)⟩

/-- Every move of a scribe keeps the chronicle. -/
theorem Chronicle.move (h : Chronicle answers rs w) {k : ℕ} {r r' : Scribe} (hk : rs[k]? = some r)
    (hm : Writes answers r w r' w') : Chronicle answers (rs.set k r') w' := by
  cases hm with
  | beside hb =>
    obtain ⟨hlt, rfl⟩ := List.getElem?_eq_some_iff.mp hk
    rw [List.set_getElem_self hlt]
    exact h.beside hb
  | assign job now =>
    have hkept : ∀ j rec, recordAt w j = some rec → recordAt (w.insertRun (newRun job now)) j = some rec := by
      intro j rec hrec
      rw [recordAt_insertRun, hrec]
      rfl
    have hnew : recordAt (w.insertRun (newRun job now)) (World.nextKey (w.runs.map (·.id))) = some (recordOf (newRun job now)) := by
      rw [recordAt_insertRun, recordAt_nextKey, if_pos rfl]
      rfl
    have hfresh : ∀ (j : ℕ) (x : Scribe), rs[j]? = some x → x.run ≠ some (World.nextKey (w.runs.map (·.id))) := by
      intro j x hx hrun
      obtain ⟨rec, hrec⟩ := (h.scribes j x hx).found hrun
      rw [recordAt_nextKey] at hrec
      cases hrec
    have hbefore : ∀ j rec, recordAt (w.insertRun (newRun job now)) j = some rec →
        recordAt w j = some rec ∨ rec = recordOf (newRun job now) := by
      intro j rec hrec
      cases hold : recordAt w j with
      | some rec' => exact .inl ((hkept j rec' hold).symm.trans hrec)
      | none =>
        rw [recordAt_insertRun, hold] at hrec
        split at hrec
        · exact .inr (Option.some.inj hrec).symm
        · cases hrec
    have hempty : Streamed [] (recordOf (newRun job now)) := ⟨not_delivered_running, rfl, [], List.prefix_rfl, rfl⟩
    constructor
    · exact runKeys_insertRun _ h.keys
    · intro j rec hrec
      rcases hbefore j rec hrec with hold | rfl
      · exact h.told j rec hold
      · exact ⟨.inl ⟨[], List.nil_prefix, rfl⟩, fun hd => absurd hd not_delivered_running,
          fun hd => absurd hd not_delivered_running, .inl rfl⟩
    · intro j rec n hrec hn
      rcases hbefore j rec hrec with hold | rfl
      · exact h.noted j rec n hold hn
      · cases hn
    · intro j x hx
      rcases getElem?_set_cases hx with ⟨-, rfl⟩ | ⟨-, hx⟩
      · exact ⟨_, hnew, hempty⟩
      · exact (h.scribes j x hx).keep (List.Subset.refl _) fun i _ rec hrec => ⟨rec, hkept i rec hrec, .refl rec⟩
    · intro a b x y j ha hb hx hy
      rcases getElem?_set_cases ha with ⟨rfl, rfl⟩ | ⟨-, ha'⟩
      · rcases getElem?_set_cases hb with ⟨rfl, -⟩ | ⟨-, hb'⟩
        · rfl
        · exact absurd (hy.trans hx.symm) (hfresh b y hb')
      · rcases getElem?_set_cases hb with ⟨rfl, rfl⟩ | ⟨-, hb'⟩
        · exact absurd (hx.trans hy.symm) (hfresh a x ha')
        · exact h.apart a b x y j ha' hb' hx hy
  | @take _ _ i run hrun hw hn =>
    obtain ⟨rec, hrec, hs⟩ := h.scribes k _ hk
    have hown : recordAt w i = some (recordOf run) := congrArg (Option.map recordOf) hrun
    obtain rfl := Option.some.inj (hown.symm.trans hrec)
    have hblank : Blank (recordOf run) := by
      obtain ⟨stored, hpre, hlog⟩ := hs.log
      rw [List.prefix_nil.mp hpre] at hlog
      exact ⟨hlog, hs.delivery⟩
    have hrec' : recordAt w' i = some (recordOf run) := by
      unfold recordAt World.run? at hrec ⊢
      rwa [hw]
    refine h.own hk rfl (.inl rfl) (writing_of_runs i hw hn) ?_ ?_
      ⟨hblank, List.nil_prefix, List.nil_subset _, _, hrec', hs⟩
    · intro rec rec' hrec ho
      obtain rfl := ho.given
      exact h.told i rec hrec
    · intro rec rec' n _ ho hnote
      obtain rfl := ho.given
      exact .inl hnote
  | @begin _ _ i base hw =>
    obtain ⟨hbase, hlines, hcalls, rec, hrec, hs⟩ := h.scribes k _ hk
    obtain ⟨rec', hrec', hc⟩ := hw.found i rec hrec
    rw [if_pos rfl] at hc
    have hb := hc.given
    refine h.own hk rfl (.inl rfl) hw (fun x x' hx ho => told_begin (h.told i x hx) ho.given)
      (fun x x' n _ ho hnote => .inl ((noteId_of_delivery ho.given.delivery).symm.trans hnote))
      ⟨hbase, hlines, List.Subset.trans hcalls hw.notes, rec', hrec', ?_, hb.delivery.trans hs.delivery, hb.log ▸ hs.log⟩
    rcases hb.status with he | he
    · rw [he]
      exact hs.status
    · rw [he]
      exact not_delivered_running
  | @flush _ _ i base lines lines' calls hl hall hne hw =>
    obtain ⟨hbase, hlines, hcalls, rec, hrec, hs⟩ := h.scribes k _ hk
    obtain ⟨rec', hrec', hc⟩ := hw.found i rec hrec
    rw [if_pos rfl] at hc
    refine h.own hk rfl (.inl rfl) hw ?_
      (fun x x' n _ ho hnote => .inl ((noteId_of_delivery ho.given.delivery).symm.trans hnote))
      ⟨hbase, hall, List.Subset.trans hcalls hw.notes, rec', hrec', ?_⟩
    · intro x x' hx ho
      obtain rfl := Option.some.inj (hx.symm.trans hrec)
      exact told_flush (h.told i x hx) hall hne hs ho.given
    · have hf := hc.given
      obtain ⟨stored, hpre, hlog⟩ := hs.log
      refine ⟨by rw [hf.status]; exact hs.status, hf.delivery.trans hs.delivery, ?_⟩
      rcases hf.log with he | he
      · exact ⟨stored, hpre.trans hl, he.trans hlog⟩
      · exact ⟨lines', List.prefix_rfl, he.trans (withLines_of_ne hne []).symm⟩
  | @post _ i base lines calls call =>
    obtain ⟨hbase, hlines, hcalls, rec, hrec, hs⟩ := h.scribes k _ hk
    have hgrown : w.notes ⊆ (recordNote call w).notes := List.subset_cons_self _ _
    have hwriting : Writing i Eq w (recordNote call w) := by
      refine ⟨id, fun j x hx => ⟨x, hx, ?_⟩, fun _ hx => hx, hgrown⟩
      split
      · exact ⟨rfl, rfl, rfl, rfl⟩
      · exact .refl x
    refine h.own hk rfl (.inl rfl) hwriting ?_ ?_
      ⟨hbase, hlines, List.cons_subset_cons _ hcalls, rec, hrec, hs⟩
    · intro x x' hx ho
      obtain rfl := ho.given
      exact h.told i x hx
    · intro x x' n _ ho hnote
      obtain rfl := ho.given
      exact .inl hnote
  | @close _ _ i base log noteId lines calls hclose hcall hw =>
    obtain ⟨hbase, hlines, hcalls, rec, hrec, hs⟩ := h.scribes k _ hk
    refine h.own hk rfl (.inr rfl) hw ?_ ?_ trivial
    · intro x x' hx ho
      obtain rfl := Option.some.inj (hx.symm.trans hrec)
      exact told_finish hbase hlines hs hclose ho.given
    · intro x x' n hx ho hnote
      obtain rfl := Option.some.inj (hx.symm.trans hrec)
      have hclosed := closed_of_finishes hbase hs.delivery ho.given
      rcases hcall n (hclosed.noteId.symm.trans hnote) with hold | ⟨call, hmem, hby⟩
      · rw [noteId_of_delivery hbase.delivery] at hold
        cases hold
      · exact .inr ⟨call, hcalls hmem, hby⟩

/-- What a page that comes later sees of the run. -/
structure Later (old new : Record) : Prop where
  mergeRequestId : new.mergeRequestId = old.mergeRequestId
  modelProfileId : new.modelProfileId = old.modelProfileId
  log : rstripNewlines old.log <+: new.log
  delivery : old.delivery = undelivered ∨ new.delivery = old.delivery
  archived : old.archivedAt.isSome = true → new.archivedAt.isSome = true

theorem Later.refl (rec : Record) : Later rec rec := ⟨rfl, rfl, List.rdropWhile_prefix _ _, .inr rfl, id⟩

theorem Later.aside {old rec rec' : Record} (h : Later old rec) (ha : Aside rec rec') : Later old rec' :=
  ⟨ha.mergeRequestId.trans h.mergeRequestId, ha.modelProfileId.trans h.modelProfileId, by rw [ha.log]; exact h.log,
    h.delivery.imp id ha.delivery.trans, fun hold => ha.archived (h.archived hold)⟩

theorem Later.own {old rec rec' : Record} {rel : Record → Record → Prop} (h : Later old rec) (ho : Own rel rec rec')
    (hlog : rstripNewlines old.log <+: rec'.log) (hdelivery : rec.delivery = undelivered ∨ rec'.delivery = rec.delivery) :
    Later old rec' := by
  refine ⟨ho.mergeRequestId.trans h.mergeRequestId, ho.modelProfileId.trans h.modelProfileId, hlog, ?_, ?_⟩
  · rcases h.delivery with hold | hold
    · exact .inl hold
    · rw [← hold]
      exact hdelivery
  · intro hold
    rw [ho.archived]
    exact h.archived hold

/-- The log of the scribe's run grows. -/
theorem Chronicle.grows (h : Chronicle answers rs w) {k : ℕ} {r r' : Scribe} (hk : rs[k]? = some r) (hm : Writes answers r w r' w')
    {i : ℕ} {old rec : Record} (hrec : recordAt w i = some rec) (hold : Later old rec) :
    ∃ rec', recordAt w' i = some rec' ∧ Later old rec' := by
  have hstripped := rstripNewlines_idem old.log
  cases hm with
  | beside hb =>
    obtain ⟨rec', hrec', ha⟩ := hb.found i rec hrec
    exact ⟨rec', hrec', hold.aside ha⟩
  | assign job now => exact ⟨rec, by rw [recordAt_insertRun, hrec]; rfl, hold⟩
  | take hrun hw hn =>
    obtain ⟨rec', hrec', ha⟩ := (beside_of_runs hw hn).found i rec hrec
    exact ⟨rec', hrec', hold.aside ha⟩
  | @begin _ _ j base hw =>
    obtain ⟨rec', hrec', hc⟩ := hw.found i rec hrec
    split at hc
    · exact ⟨rec', hrec', hold.own hc (by rw [hc.given.log]; exact hold.log) (.inr hc.given.delivery)⟩
    · exact ⟨rec', hrec', hold.aside hc⟩
  | post call => exact ⟨rec, hrec, hold⟩
  | @flush _ _ j base lines lines' calls hl hall hne hw =>
    obtain ⟨rec', hrec', hc⟩ := hw.found i rec hrec
    split at hc
    · rename_i hij
      subst hij
      obtain ⟨-, -, -, rec₁, hrec₁, -, -, stored, hpre, hlog⟩ := h.scribes k _ hk
      obtain rfl := Option.some.inj (hrec₁.symm.trans hrec)
      refine ⟨rec', hrec', hold.own hc ?_ (.inr hc.given.delivery)⟩
      rcases hc.given.log with he | he
      · rw [he]
        exact hold.log
      · rw [he, ← withLines_of_ne hne []]
        exact prefix_withLines hstripped (hpre.trans hl) (hlog ▸ hold.log)
    · exact ⟨rec', hrec', hold.aside hc⟩
  | @close _ _ j base log noteId lines calls hclose hcall hw =>
    obtain ⟨rec', hrec', hc⟩ := hw.found i rec hrec
    split at hc
    · rename_i hij
      subst hij
      obtain ⟨hbase, hlines, -, rec₁, hrec₁, hs⟩ := h.scribes k _ hk
      obtain rfl := Option.some.inj (hrec₁.symm.trans hrec)
      refine ⟨rec', hrec', hold.own hc ?_ (.inl hs.delivery)⟩
      obtain ⟨stored, hpre, hlog⟩ := hs.log
      have hseen : rstripNewlines old.log <+: withLines [] (transcript (answers i)) :=
        prefix_withLines hstripped (hpre.trans hlines) (hlog ▸ hold.log)
      rw [hc.given.log]
      rcases written_eq_or base.log log rec₁.log with ⟨-, he⟩ | ⟨hne, he⟩
      · rw [he]
        exact hold.log
      · rw [he]
        cases hclose with
        | missing => exact absurd rfl hne
        | plain => exact hbase.log ▸ hseen
        | noted => exact prefix_appendLog hstripped (hbase.log ▸ hseen) _
    · exact ⟨rec', hrec', hold.aside hc⟩

end Step

section Runs
variable {rules : Rules} {c d : Pool Duty Site World PyError}

theorem chronicle_empty (answers : ℕ → Execution) : Chronicle answers [] World.empty := by
  constructor
  · exact List.nodup_nil
  · intro i rec h
    cases h
  · intro i rec n h
    cases h
  · intro k r h
    cases h
  · intro k k' r r' i h
    cases h

theorem Chronicle.step {answers : ℕ → Execution} {rs rs' : List Scribe} {w w' : World} (h : Chronicle answers rs w)
    (hs : RoleStep (Writes answers) (fun _ : Duty => .off) (installation rules).restart rs w rs' w') : Chronicle answers rs' w' := by
  cases hs with
  | start =>
    refine ⟨h.keys, h.told, h.noted, ?_, ?_⟩
    · intro k r hk
      rcases getElem?_concat_cases hk with hk | rfl
      · exact h.scribes k r hk
      · trivial
    · intro k k' r r' i hk hk' hr hr'
      rcases getElem?_concat_cases hk with hk | rfl
      · rcases getElem?_concat_cases hk' with hk' | rfl
        · exact h.apart k k' r r' i hk hk' hr hr'
        · cases hr'
      · cases hr
  | move hi hm => exact h.move hi hm
  | stutter => exact h
  | crash hk =>
    obtain rfl := Option.some.inj hk
    exact ⟨h.keys, h.told, h.noted, (fun k r hr => by cases hr), fun k k' r r' i hr => by cases hr⟩

/-- The chronicle of the runs, and one of them continues an earlier record. -/
def Continued (answers : ℕ → Execution) (i : ℕ) (old : Record) (rs : List Scribe) (w : World) : Prop :=
  Chronicle answers rs w ∧ ∃ new, recordAt w i = some new ∧ Later old new

theorem Continued.step {answers : ℕ → Execution} {i : ℕ} {old : Record} {rs rs' : List Scribe} {w w' : World}
    (h : Continued answers i old rs w)
    (hs : RoleStep (Writes answers) (fun _ : Duty => .off) (installation rules).restart rs w rs' w') :
    Continued answers i old rs' w' := by
  obtain ⟨hch, new, hrec, hl⟩ := h
  refine ⟨hch.step hs, ?_⟩
  cases hs with
  | start => exact ⟨new, hrec, hl⟩
  | move hi hm => exact hch.grows hi hm hrec hl
  | stutter => exact ⟨new, hrec, hl⟩
  | crash hk =>
    obtain rfl := Option.some.inj hk
    exact ⟨new, hrec, hl⟩

/-- The scribes of a pool. -/
abbrev Scribed (rules : Rules) (c : Pool Duty Site World PyError) (rs : List Scribe) : Prop :=
  Explains (installation rules) (fun _ => True) (Writes rules.answers) (fun _ _ => True) (fun _ _ => True) c.threads rs ∧
    Chronicle rules.answers rs c.shared

theorem scribed_reaches (h : (installation rules).Reaches (fun _ _ => True) ⟨World.empty, []⟩ c) : ∃ rs, Scribed rules c rs :=
  h.invariant (Duty.follows rules) (fun _ => trivial) (fun _ _ _ _ _ _ _ => trivial) (fun _ _ _ => trivial)
    (fun _ _ _ _ hi _ hs => hi.step hs) .nil (chronicle_empty rules.answers)

/-- A run that is there stays there, and its later records continue the earlier ones. -/
theorem later_reaches {rs : List Scribe} (hc : Scribed rules c rs) (hd : (installation rules).Reaches (fun _ _ => True) c d) {i : ℕ}
    {old : Record} (hold : recordAt c.shared i = some old) : ∃ new, recordAt d.shared i = some new ∧ Later old new := by
  have hcontinued : ∃ rs', Explains (installation rules) (fun _ => True) (Writes rules.answers) (fun _ _ => True)
      (fun _ _ => True) d.threads rs' ∧ Continued rules.answers i old rs' d.shared :=
    hd.invariant (Duty.follows rules) (fun _ => trivial) (fun _ _ _ _ _ _ _ => trivial) (fun _ _ _ => trivial)
      (fun _ _ _ _ hi _ hs => hi.step hs) hc.1 ⟨hc.2, old, hold, .refl old⟩
  obtain ⟨-, -, -, hnew⟩ := hcontinued
  exact hnew

/-- Once the worker has delivered its verdict, the run holds what the review has given, and keeps it. -/
theorem results_stay {rs : List Scribe} (hc : Scribed rules c rs) (hd : (installation rules).Reaches (fun _ _ => True) c d) {i : ℕ}
    {run : ReviewRun} (h : c.shared.run? i = some run) (hdelivered : delivered run.status) :
    ∃ run', d.shared.run? i = some run' ∧ run'.resultJson = (rules.answers i).outcome.resultJson ∧
      run'.resultMarkdown = (rules.answers i).outcome.resultMarkdown := by
  have hrec : recordAt c.shared i = some (recordOf run) := congrArg (Option.map recordOf) h
  obtain ⟨rs', hd'⟩ : ∃ rs', Scribed rules d rs' := hd.invariant (Duty.follows rules) (fun _ => trivial) (fun _ _ _ _ _ _ _ => trivial)
    (fun _ _ _ => trivial) (fun _ _ _ _ hi _ hs => hi.step hs) hc.1 hc.2
  obtain ⟨new, hnew, hlater⟩ := later_reaches hc hd hrec
  obtain ⟨run', hrun', rfl⟩ := Option.map_eq_some_iff.mp hnew
  have hold := (hc.2.told i _ hrec).reported hdelivered
  refine ⟨run', hrun', ?_⟩
  rcases hlater.delivery with hnone | hsame
  · -- a review that has given nothing leaves what a later state without results shows
    obtain ⟨hjson, hmarkdown, -⟩ := delivery_eq_iff.mp hnone
    rcases (hd'.2.told i _ hnew).results with hstill | hreported
    · obtain ⟨hjson', hmarkdown', -⟩ := delivery_eq_iff.mp hstill
      exact ⟨hjson'.trans (hjson.symm.trans hold.resultJson), hmarkdown'.trans (hmarkdown.symm.trans hold.resultMarkdown)⟩
    · exact ⟨hreported.resultJson, hreported.resultMarkdown⟩
  · obtain ⟨hjson, hmarkdown, -⟩ := delivery_eq_iff.mp hsame
    exact ⟨hjson.trans hold.resultJson, hmarkdown.trans hold.resultMarkdown⟩

theorem resultsLogJson_eq (w : World) (i : ℕ) : resultsLogJson w i = (recordAt w i).map fun rec => (rec.status, rec.log) := by
  unfold resultsLogJson recordAt
  rw [Option.map_map]
  rfl

/-- Whenever a page asks for the log of a run, it gets a beginning of the scrubbed lines of the review, or all of them with
the line about the note, and all of them once the worker has delivered its verdict. Whoever asks later gets the log again,
and it continues what was seen before, up to the newlines at its end. -/
theorem log_grows (rules : Rules) {c d : Pool Duty Site World PyError}
    (hc : (installation rules).Reaches (fun _ _ => True) ⟨World.empty, []⟩ c)
    (hd : (installation rules).Reaches (fun _ _ => True) c d) {i : ℕ} {status : RunStatus} {log : Text}
    (h : resultsLogJson c.shared i = some (status, log)) :
    ((∃ lines, lines <+: transcript (rules.answers i) ∧ log = withLines [] lines) ∨ Whole (rules.answers i) log) ∧
      (delivered status → Whole (rules.answers i) log) ∧
        ∃ status' log', resultsLogJson d.shared i = some (status', log') ∧ rstripNewlines log <+: log' := by
  obtain ⟨rs, hscribed⟩ := scribed_reaches hc
  rw [resultsLogJson_eq] at h
  obtain ⟨rec, hrec, hshown⟩ := Option.map_eq_some_iff.mp h
  obtain ⟨rfl, rfl⟩ := Prod.mk.inj hshown
  obtain ⟨new, hnew, hlater⟩ := later_reaches hscribed hd hrec
  have htold := hscribed.2.told i rec hrec
  refine ⟨htold.journal, htold.whole, new.status, new.log, ?_, hlater.log⟩
  rw [resultsLogJson_eq, hnew]
  rfl

end Runs

/-- Two lines stream, each past the time of a flush; the second is empty. -/
def talkativeReview : Execution := { quickReview with chunks := [⟨"reading".toList, 3000⟩, ⟨[], 6000⟩] }

def talkativeRules : Rules := { quickRules .postgresql with answers := fun _ => talkativeReview }

/-- One job is enqueued and worked off until both lines are flushed. -/
def untilFlushed : List (Choice Duty) :=
  [.start (.process (.activity (.request (.enqueue plainRequest)))), .advance 0, .advance 0,
    .start (.process (.activity (.pump 1)))] ++ List.replicate 12 (.advance 1)

def untilPosted : List (Choice Duty) := List.replicate 2 (.advance 1)

/-- The newline of the empty line goes when the line about the note comes. -/
theorem log_grows_talkative :
    ∃ c d, (installation talkativeRules).Reaches (fun _ _ => True) ⟨World.empty, []⟩ c ∧
      (installation talkativeRules).Reaches (fun _ _ => True) c d ∧
      resultsLogJson c.shared 1 = some (.running, "reading\n\n".toList) ∧
      resultsLogJson d.shared 1 = some (.success, "reading\nPosted review to GitLab !7 as note 1\n".toList) ∧
      ∃ status' log', resultsLogJson d.shared 1 = some (status', log') ∧ rstripNewlines "reading\n\n".toList <+: log' := by
  obtain ⟨c, d, hc, hp, hd, hq⟩ := System.exists_of_exec_exec (installation talkativeRules) (fun _ _ => True)
    ⟨World.empty, []⟩ untilFlushed untilPosted
    (fun c => resultsLogJson c.shared 1 == some (.running, "reading\n\n".toList))
    (fun d => resultsLogJson d.shared 1 == some (.success, "reading\nPosted review to GitLab !7 as note 1\n".toList))
    (by decide +kernel)
  have hlog := eq_of_beq hp
  exact ⟨c, d, hc, hd, hlog, eq_of_beq hq, (log_grows talkativeRules hc hd hlog).2.2⟩

end GitlabReviewer.Live
