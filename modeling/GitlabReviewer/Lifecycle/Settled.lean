import GitlabReviewer.Lifecycle.Claims

/-! # Nothing gets stuck

As long as a job is in flight or its run is running, some thread owns the claim
and still has to settle it. A thread that owns another claim cannot undo what
this one relies on: from outside, a claimed job is only ever cancelled.
-/
namespace GitlabReviewer.Lifecycle
open Python Foundation Models Scheduling Reviews

/-- Nothing of job `j` is in flight. -/
structure Resting (w : World) (j : ℕ) : Prop where
  job : ∀ st, w.jobStatus j = some st → st.inFlight = false
  runs : ∀ r v, w.verdict r = some v → v.jobId = j → v.status ≠ .running

/-- The run with this id belongs to job `j`. -/
def RunOf (w : World) (j r : ℕ) : Prop := ∃ v, w.verdict r = some v ∧ v.jobId = j

/-- What the owner of job `j` relies on in each phase. -/
def PhaseOk (w : World) (j : ℕ) : Phase → Prop
  | .claimed => (w.jobStatus j = some .claimed ∨ w.jobStatus j = some .cancelled) ∧
      ∀ r v, w.verdict r = some v → v.jobId ≠ j
  | .abandoning _ => ∀ r v, w.verdict r = some v → v.jobId ≠ j
  | .created r => RunOf w j r
  | .opened run => RunOf w j run.id
  | .loaded run _ => RunOf w j run.id
  | .active run => RunOf w j run.id
  | .reviewed run => RunOf w j run.id
  | .crashRead r run => RunOf w j r ∧ ∃ row, run = some row ∧ row.id = r ∧
      (row.status ≠ .running → ∀ v, w.verdict r = some v → v.status ≠ .running)
  | .crashLoaded r run job => (RunOf w j r ∧ ∃ row, run = some row ∧ row.id = r ∧
      (row.status ≠ .running → ∀ v, w.verdict r = some v → v.status ≠ .running)) ∧
      ∃ row, job = some row ∧
        (row.status.inFlight = false → ∀ st, w.jobStatus j = some st → st.inFlight = false)
  | .settled r => Resting w j ∧ ∀ q, r = some q → RunOf w j q
  | .vanished _ => False

structure Settling (rs : List Role) (w : World) : Prop where
  inflight : ∀ j st, w.jobStatus j = some st → st.inFlight = true →
    ∃ i ph, Owns rs i j ph ∧ ph.unsettled = true
  running : ∀ r v, w.verdict r = some v → v.status = .running →
    ∃ i ph, Owns rs i v.jobId ph ∧ ph.unsettled = true
  phases : ∀ i j ph, Owns rs i j ph → PhaseOk w j ph
  noRecovery : ∀ i : ℕ, rs[i]? ≠ some Role.recovering

/-- Job `j` as seen by its owner while another thread takes a step. -/
structure Elsewhere (j : ℕ) (w w' : World) : Prop where
  status : w'.jobStatus j = w.jobStatus j ∨ w'.jobStatus j = some .cancelled
  verdict : ∀ r v, w.verdict r = some v → v.jobId = j →
    ∃ v', w'.verdict r = some v' ∧ v'.jobId = j ∧ (v' = v ∨ v'.status = .error)
  noNew : ∀ r v', w'.verdict r = some v' → v'.jobId = j → ∃ v, w.verdict r = some v ∧ v.jobId = j

section Elsewhere
variable {j : ℕ} {w w' : World}

theorem Elsewhere.not_running (h : Elsewhere j w w') {r : ℕ} (hr : RunOf w j r)
    (hn : ∀ v, w.verdict r = some v → v.status ≠ .running) {v' : Verdict} (hv : w'.verdict r = some v') :
    v'.status ≠ .running := by
  obtain ⟨v, hv₀, hj⟩ := hr
  obtain ⟨v₁, hv₁, -, rfl | he⟩ := h.verdict r v hv₀ hj
  · obtain rfl := Option.some.inj (hv₁.symm.trans hv)
    exact hn _ hv₀
  · obtain rfl := Option.some.inj (hv₁.symm.trans hv)
    rw [he]
    decide

theorem Elsewhere.runOf (h : Elsewhere j w w') {r : ℕ} (hr : RunOf w j r) : RunOf w' j r := by
  obtain ⟨v, hv, hj⟩ := hr
  obtain ⟨v', hv', hj', -⟩ := h.verdict r v hv hj
  exact ⟨v', hv', hj'⟩

theorem Elsewhere.not_inFlight (h : Elsewhere j w w')
    (hn : ∀ st, w.jobStatus j = some st → st.inFlight = false) {st : JobStatus}
    (hst : w'.jobStatus j = some st) : st.inFlight = false := by
  rcases h.status with he | he
  · exact hn st (he ▸ hst)
  · obtain rfl := Option.some.inj (he.symm.trans hst)
    rfl

theorem Elsewhere.phaseOk (h : Elsewhere j w w') {ph : Phase} (hp : PhaseOk w j ph) : PhaseOk w' j ph := by
  have hnone : (∀ r v, w.verdict r = some v → v.jobId ≠ j) → ∀ r v, w'.verdict r = some v → v.jobId ≠ j := by
    intro hn r v hv hj
    obtain ⟨v₀, hv₀, hj₀⟩ := h.noNew r v hv hj
    exact hn r v₀ hv₀ hj₀
  cases ph with
  | claimed =>
    refine ⟨?_, hnone hp.2⟩
    rcases h.status with he | he
    · rw [he]
      exact hp.1
    · exact .inr he
  | abandoning => exact hnone hp
  | created => exact h.runOf hp
  | opened => exact h.runOf hp
  | loaded => exact h.runOf hp
  | active => exact h.runOf hp
  | reviewed => exact h.runOf hp
  | crashRead r run =>
    obtain ⟨hr, row, hrow, hid, hn⟩ := hp
    exact ⟨h.runOf hr, row, hrow, hid, fun hs v hv => h.not_running hr (hn hs) hv⟩
  | crashLoaded r run job =>
    obtain ⟨⟨hr, row, hrow, hid, hn⟩, row', hrow', hn'⟩ := hp
    exact ⟨⟨h.runOf hr, row, hrow, hid, fun hs v hv => h.not_running hr (hn hs) hv⟩, row', hrow',
      fun hs st hst => h.not_inFlight (hn' hs) hst⟩
  | settled r =>
    obtain ⟨hrest, hr⟩ := hp
    refine ⟨⟨fun st hst => h.not_inFlight hrest.job hst, fun q v hv hj => ?_⟩, fun q hq => h.runOf (hr q hq)⟩
    obtain ⟨v₀, hv₀, hj₀⟩ := h.noNew q v hv hj
    exact h.not_running ⟨v₀, hv₀, hj₀⟩ (fun v₁ hv₁ => by
      obtain rfl := Option.some.inj (hv₀.symm.trans hv₁)
      exact hrest.runs q v₀ hv₀ hj₀) hv
  | vanished => exact hp

end Elsewhere

/-- The steps of the requests: a new job is queued, a known one is at most cancelled. -/
structure Mild (w w' : World) : Prop where
  status : ∀ j, w'.jobStatus j = w.jobStatus j ∨ w.jobStatus j = none ∧ w'.jobStatus j = some .queued ∨
    w.jobStatus j ≠ none ∧ w'.jobStatus j = some .cancelled
  verdict : ∀ r, w'.verdict r = w.verdict r ∨ ∃ v v', w.verdict r = some v ∧ w'.verdict r = some v' ∧
    v'.jobId = v.jobId ∧ v'.status = .error

/-- A step that touches job `j` and its runs only. -/
structure Own (j : ℕ) (w w' : World) : Prop where
  status : ∀ k, k ≠ j → w'.jobStatus k = w.jobStatus k
  verdict : ∀ r v, v.jobId ≠ j → (w'.verdict r = some v ↔ w.verdict r = some v)

section Effects
variable {j k : ℕ} {w w' : World} {jobs : List (Tracked ScheduledJob)} {runs : List (Tracked ReviewRun)}

theorem Quiet.mild (h : Quiet w w') : Mild w w' :=
  ⟨fun j => (h.status j).imp id .inl, fun r => .inl (h.verdict r)⟩

theorem Mild.elsewhere (h : Mild w w') (hj : w.jobStatus j ≠ none) : Elsewhere j w w' := by
  refine ⟨?_, fun r v hv hjob => ?_, fun r v' hv' hjob => ?_⟩
  · rcases h.status j with he | ⟨hn, -⟩ | ⟨-, he⟩
    · exact .inl he
    · exact absurd hn hj
    · exact .inr he
  · rcases h.verdict r with he | ⟨v₀, v', hv₀, hv', hid, he⟩
    · exact ⟨v, he.trans hv, hjob, .inl rfl⟩
    · obtain rfl := Option.some.inj (hv₀.symm.trans hv)
      exact ⟨v', hv', hid.trans hjob, .inr he⟩
  · rcases h.verdict r with he | ⟨v₀, v₁, hv₀, hv₁, hid, -⟩
    · exact ⟨v', he.symm.trans hv', hjob⟩
    · obtain rfl := Option.some.inj (hv₁.symm.trans hv')
      exact ⟨v₀, hv₀, hid.symm.trans hjob⟩

theorem Own.elsewhere (h : Own j w w') (hk : k ≠ j) : Elsewhere k w w' := by
  refine ⟨.inl (h.status k hk), fun r v hv hjob => ?_, fun r v hv hjob => ?_⟩
  · exact ⟨v, (h.verdict r v (hjob ▸ hk)).mpr hv, hjob, .inl rfl⟩
  · exact ⟨v, (h.verdict r v (hjob ▸ hk)).mp hv, hjob⟩

theorem own_of_tables (hj : w'.jobs = w.jobs) (hr : w'.runs = w.runs) : Own j w w' := by
  refine ⟨fun k _ => ?_, fun r v _ => ?_⟩
  · rw [World.jobStatus, World.job?, hj]
    rfl
  · rw [World.verdict, World.run?, hr]
    rfl

theorem own_of_commits (h : Commits jobs runs w w') (hj : ∀ t ∈ jobs, t.mem.id = j)
    (hr : ∀ u ∈ runs, u.mem.scheduledJobId = u.base.scheduledJobId)
    (hown : ∀ u ∈ runs, ∀ v, w.verdict u.mem.id = some v → v.jobId = j) : Own j w w' := by
  refine ⟨fun k hk => ?_, fun r v hv => ?_⟩
  · rw [h.jobStatus]
    cases hheld : held jobs k with
    | none => exact congrFun Option.map_id _
    | some t =>
      obtain ⟨hmem, hid⟩ := held_mem hheld
      exact absurd (hid.symm.trans (hj t hmem)) hk
  · rw [h.verdict]
    cases hheld : held runs r with
    | none => rw [show writtenVerdict none = id from rfl, Option.map_id, id]
    | some u =>
      obtain ⟨hmem, rfl⟩ := held_mem hheld
      constructor
      · intro hw
        obtain ⟨v₀, hv₀, rfl⟩ := Option.map_eq_some_iff.mp hw
        have hjob := writtenVerdict_jobId hr (Columns.key u.mem) v₀
        rw [hheld] at hjob
        exact absurd (hjob.trans (hown u hmem v₀ hv₀)) hv
      · exact fun hw => absurd (hown u hmem v hw) hv

theorem own_insertRun (job : ScheduledJob) (now : Timestamp) : Own job.id w (w.insertRun (newRun job now)) := by
  refine ⟨fun k _ => rfl, fun r v hv => ⟨fun hw => ?_, fun hw => ?_⟩⟩
  · rcases verdict_insertRun _ r hw with hw | ⟨-, rfl⟩
    · exact hw
    · exact absurd rfl hv
  · obtain ⟨run, hrun, rfl⟩ := Option.map_eq_some_iff.mp hw
    rw [World.verdict, run?_insertRun, hrun]
    rfl

theorem mild_of_cancel (h : Commits jobs runs w w')
    (hj : ∀ t ∈ jobs, t.mem.status = .cancelled ∧ t.base.status ≠ .cancelled)
    (hr : ∀ u ∈ runs, u.mem.scheduledJobId = u.base.scheduledJobId ∧ u.base.status ≠ .error ∧
      u.mem.status = .error) : Mild w w' := by
  refine ⟨fun j => ?_, fun r => ?_⟩
  · rw [h.jobStatus]
    cases hheld : held jobs j with
    | none => exact .inl (congrFun Option.map_id _)
    | some t =>
      obtain ⟨hs, hb⟩ := hj t (held_mem hheld).1
      cases hst : w.jobStatus j with
      | none => exact .inl rfl
      | some st =>
        refine .inr (.inr ⟨by simp, ?_⟩)
        rw [Option.map_some, writtenStatus_some, written_of_ne (hs ▸ hb.symm), hs]
  · rw [h.verdict]
    cases hheld : held runs r with
    | none => exact .inl (congrFun Option.map_id _)
    | some u =>
      obtain ⟨hid, hb, hs⟩ := hr u (held_mem hheld).1
      cases hv : w.verdict r with
      | none => exact .inl rfl
      | some v =>
        refine .inr ⟨v, _, rfl, rfl, ?_, ?_⟩
        · show written u.base.scheduledJobId u.mem.scheduledJobId v.jobId = v.jobId
          rw [hid, written_self]
        · show written u.base.status u.mem.status v.status = .error
          rw [written_of_ne (hs ▸ hb.symm), hs]

end Effects

section Invariant
variable {rules : Rules} {rs : List Role} {w w' : World}

theorem owns_set_ne {i k j : ℕ} {r' : Role} {ph : Phase} (hk : k ≠ i) (h : Owns rs k j ph) :
    Owns (rs.set i r') k j ph := by
  rw [Owns, List.getElem?_set_ne hk.symm]
  exact h

def Role.isOwner : Role → Bool
  | .owner _ _ => true
  | _ => false

theorem owns_set_other {r r' : Role} {i : ℕ} (hi : rs[i]? = some r) (hr : r.isOwner = false)
    (hr' : r'.isOwner = false) {k j : ℕ} {ph : Phase} : Owns (rs.set i r') k j ph ↔ Owns rs k j ph := by
  constructor
  · intro h
    rcases getElem?_set_cases h with ⟨-, he⟩ | ⟨-, h⟩
    · rw [← he] at hr'
      cases hr'
    · exact h
  · intro h
    refine owns_set_ne (fun hk => ?_) h
    obtain rfl := Option.some.inj (hi.symm.trans (hk ▸ h))
    cases hr

theorem noRecovery_set (h : Settling rs w) {r' : Role} (hr' : r' ≠ .recovering) (i k : ℕ) :
    (rs.set i r')[k]? ≠ some Role.recovering := fun hk => by
  rcases getElem?_set_cases hk with ⟨-, he⟩ | ⟨-, hk⟩
  · exact hr' he.symm
  · exact h.noRecovery k hk

theorem Exclusive.known (h : Exclusive rules rs w) {i j : ℕ} {ph : Phase} (hi : Owns rs i j ph) :
    w.jobStatus j ≠ none := by
  obtain ⟨st, hst, -⟩ := h.taken j (h.owned i j ph hi).1
  simp [hst]

theorem Settling.mild (h : Settling rs w) (hx : Exclusive rules rs w) (hm : Mild w w') {rs' : List Role}
    (hown : ∀ k j ph, Owns rs' k j ph ↔ Owns rs k j ph) (hrec : ∀ i : ℕ, rs'[i]? ≠ some Role.recovering) :
    Settling rs' w' := by
  refine ⟨fun j st hst hin => ?_, fun r v hv hrun => ?_, fun i j ph hi => ?_, hrec⟩
  · rcases hm.status j with he | ⟨-, he⟩ | ⟨-, he⟩
    · obtain ⟨i, ph, hi, hu⟩ := h.inflight j st (he ▸ hst) hin
      exact ⟨i, ph, (hown i j ph).mpr hi, hu⟩
    all_goals
      obtain rfl := Option.some.inj (he.symm.trans hst)
      cases hin
  · rcases hm.verdict r with he | ⟨v₀, v₁, -, hv₁, -, he⟩
    · obtain ⟨i, ph, hi, hu⟩ := h.running r v (he ▸ hv) hrun
      exact ⟨i, ph, (hown i _ ph).mpr hi, hu⟩
    · obtain rfl := Option.some.inj (hv₁.symm.trans hv)
      rw [he] at hrun
      cases hrun
  · have hi := (hown i j ph).mp hi
    exact (hm.elsewhere (hx.known hi)).phaseOk (h.phases i j ph hi)

theorem phaseOk_settled_or_unsettled {j : ℕ} {ph : Phase} (h : PhaseOk w j ph) :
    ph.unsettled = true ∨ Resting w j := by
  cases ph with
  | settled r => exact .inr h.1
  | _ => exact .inl rfl

/-- The owner of a job takes a step on its own job. -/
theorem Settling.own (h : Settling rs w) {i j : ℕ} {r r' : Role}
    (hi : rs[i]? = some r) (hr : r.isOwner = false ∨ ∃ ph, r = .owner j ph)
    (ho : Own j w w') (hothers : ∀ k ph, k ≠ i → ¬ Owns rs k j ph)
    (hr' : (∃ ph', r' = .owner j ph' ∧ PhaseOk w' j ph') ∨ r' = .idle ∧ Resting w' j) :
    Settling (rs.set i r') w' := by
  have hilt : i < rs.length := (List.getElem?_eq_some_iff.mp hi).1
  have hself : (rs.set i r')[i]? = some r' := List.getElem?_set_self hilt
  have hmine : (∃ ph, Owns (rs.set i r') i j ph ∧ ph.unsettled = true) ∨ Resting w' j := by
    rcases hr' with ⟨ph', rfl, hp⟩ | ⟨-, hrest⟩
    · exact (phaseOk_settled_or_unsettled hp).imp (fun hu => ⟨ph', hself, hu⟩) id
    · exact .inr hrest
  have hkeep : ∀ k, k ≠ j → (∃ a ph, Owns rs a k ph ∧ ph.unsettled = true) →
      ∃ a ph, Owns (rs.set i r') a k ph ∧ ph.unsettled = true := by
    rintro k hk ⟨a, ph, ha, hu⟩
    refine ⟨a, ph, owns_set_ne (fun hai => ?_) ha, hu⟩
    obtain rfl := Option.some.inj (hi.symm.trans (hai ▸ ha))
    rcases hr with hr | ⟨ph₀, hr⟩
    · cases hr
    · cases hr
      exact hk rfl
  refine ⟨fun k st hst hin => ?_, fun q v hv hrun => ?_, fun k l ph hk => ?_, noRecovery_set h ?_ i⟩
  · by_cases hkj : k = j
    · subst hkj
      rcases hmine with ⟨ph, hph, hu⟩ | hrest
      · exact ⟨i, ph, hph, hu⟩
      · rw [hrest.job st hst] at hin
        cases hin
    · exact hkeep k hkj (h.inflight k st (ho.status k hkj ▸ hst) hin)
  · by_cases hvj : v.jobId = j
    · rcases hmine with ⟨ph, hph, hu⟩ | hrest
      · exact ⟨i, ph, hvj ▸ hph, hu⟩
      · exact absurd hrun (hrest.runs q v hv hvj)
    · exact hkeep _ hvj (h.running q v ((ho.verdict q v hvj).mp hv) hrun)
  · rcases getElem?_set_cases hk with ⟨-, he⟩ | ⟨hki, hk⟩
    · rcases hr' with ⟨ph', rfl, hp⟩ | ⟨rfl, -⟩
      · cases he
        exact hp
      · cases he
    · have hlj : l ≠ j := fun hlj => hothers k ph hki (hlj ▸ hk)
      exact (ho.elsewhere hlj).phaseOk (h.phases k l ph hk)
  · rcases hr' with ⟨ph', rfl, -⟩ | ⟨rfl, -⟩ <;> exact fun he => by cases he

theorem Takes.own {j : ℕ} (h : Takes j w w') : Own j w w' := by
  refine ⟨fun k hk => ?_, fun r v _ => ?_⟩
  · rw [World.jobStatus, h.others k hk]
    rfl
  · rw [World.verdict, World.run?, h.runs]
    rfl

theorem Settling.claim (h : Settling rs w) (hx : Exclusive rules rs w) {i j : ℕ} {r : Role}
    (hi : rs[i]? = some r) (hr : r.isOwner = false) (ht : Takes j w w') :
    Settling (rs.set i (.owner j .claimed)) w' := by
  have hnew : j ∉ w.claims := fun hj => by
    obtain ⟨st, hst, hne⟩ := hx.taken j hj
    exact hne (Option.some.inj (hst.symm.trans ht.queued))
  refine h.own hi (.inl hr) ht.own (fun k ph _ hk => hnew (hx.owned k j ph hk).1)
    (.inl ⟨.claimed, rfl, .inl ht.taken, fun r v hv hj => ?_⟩)
  rw [World.verdict, World.run?, ht.runs] at hv
  exact hnew (hj ▸ hx.runsClaimed r v hv)

theorem phaseOk_runOf {j r : ℕ} {ph : Phase} (h : PhaseOk w j ph) (hr : ph.runId = some r) : RunOf w j r := by
  cases ph with
  | claimed => cases hr
  | abandoning => cases hr
  | created => exact Option.some.inj hr ▸ h
  | opened => exact Option.some.inj hr ▸ h
  | loaded => exact Option.some.inj hr ▸ h
  | active => exact Option.some.inj hr ▸ h
  | reviewed => exact Option.some.inj hr ▸ h
  | crashRead => exact Option.some.inj hr ▸ h.1
  | crashLoaded => exact Option.some.inj hr ▸ h.1.1
  | settled => exact h.2 r hr
  | vanished => exact h.elim

theorem RunOf.run? {j r : ℕ} (h : RunOf w j r) : ∃ run, w.run? r = some run ∧ run.scheduledJobId = j := by
  obtain ⟨v, hv, hj⟩ := h
  obtain ⟨run, hrun, rfl⟩ := Option.map_eq_some_iff.mp hv
  exact ⟨run, hrun, hj⟩

theorem RunOf.commits {j r : ℕ} {jobs : List (Tracked ScheduledJob)} {runs : List (Tracked ReviewRun)}
    (h : RunOf w j r) (hc : Commits jobs runs w w')
    (hr : ∀ u ∈ runs, u.mem.scheduledJobId = u.base.scheduledJobId) : RunOf w' j r := by
  obtain ⟨v, hv, hj⟩ := h
  exact ⟨_, by rw [hc.verdict, hv, Option.map_some], (writtenVerdict_jobId hr r v).trans hj⟩

/-- The commit of an owner leaves a job it holds with a terminal status. -/
theorem jobStatus_after {j : ℕ} {t : Tracked ScheduledJob} {runs : List (Tracked ReviewRun)}
    (hc : Commits [t] runs w w') (hj : t.mem.id = j)
    (ht : ∀ st, w.jobStatus j = some st → (written t.base.status t.mem.status st).inFlight = false) {st : JobStatus}
    (hst : w'.jobStatus j = some st) : st.inFlight = false := by
  rw [hc.jobStatus, held_single (i := j) hj] at hst
  obtain ⟨st₀, hst₀, rfl⟩ := Option.map_eq_some_iff.mp hst
  exact ht st₀ hst₀

theorem runStatus_after (hx : Exclusive rules rs w) {j r : ℕ} {jobs : List (Tracked ScheduledJob)}
    {u : Tracked ReviewRun} (hc : Commits jobs [u] w w') (hid : u.mem.id = r) (hr : RunOf w j r)
    (hkeep : u.mem.scheduledJobId = u.base.scheduledJobId)
    (hu : ∀ v, w.verdict r = some v → written u.base.status u.mem.status v.status ≠ .running) (q : ℕ) (v : Verdict)
    (hv : w'.verdict q = some v) (hj : v.jobId = j) : v.status ≠ .running := by
  obtain ⟨v₁, hv₁, hj₁⟩ := hr
  have hjob : ∀ v, (writtenVerdict (held [u] q) v).jobId = v.jobId :=
    writtenVerdict_jobId (by simpa using hkeep) q
  rw [hc.verdict] at hv
  obtain ⟨v₀, hv₀, rfl⟩ := Option.map_eq_some_iff.mp hv
  obtain rfl := hx.oneRun q r v₀ v₁ hv₀ hv₁ ((hjob v₀).symm.trans (hj.trans hj₁.symm))
  rw [held_single (i := q) hid]
  exact hu v₀ hv₀

theorem finalJobStatus_not_inFlight (status : RunStatus) : (finalJobStatus status).inFlight = false := by
  cases status <;> rfl

theorem outcomeStatus_ne_running (outcome : RunOutcome) : outcomeStatus outcome ≠ .running := by
  unfold outcomeStatus
  split
  · decide
  · split <;> decide

theorem resting_finish (hx : Exclusive rules rs w) {j : ℕ} {run : ReviewRun} {t : Tracked ScheduledJob}
    {u : Tracked ReviewRun} {ex : Execution} (hf : Finalizes ex j run t u) (hr : RunOf w j run.id)
    (hc : Commits [t] [u] w w') : Resting w' j := by
  have hbase : u.base.status = .running := congrArg Verdict.status hf.runBase
  have hmem : u.mem.status = outcomeStatus ex.outcome := congrArg Verdict.status hf.runMem
  have hjob : u.mem.scheduledJobId = u.base.scheduledJobId :=
    (congrArg Verdict.jobId hf.runMem).trans (congrArg Verdict.jobId hf.runBase).symm
  refine ⟨fun st hst => jobStatus_after hc hf.jobId (fun st₀ _ => ?_) hst,
    runStatus_after hx hc hf.runId hr hjob fun v _ => ?_⟩
  · rw [written_of_ne, hf.jobMem]
    · exact finalJobStatus_not_inFlight _
    · rw [hf.jobBase, hf.jobMem]
      generalize outcomeStatus ex.outcome = status
      cases status <;> decide
  · rw [written_of_ne, hmem]
    · exact outcomeStatus_ne_running _
    · rw [hbase, hmem]
      exact outcomeStatus_ne_running _

theorem resting_crash (hx : Exclusive rules rs w) {j r : ℕ} {run : Option ReviewRun}
    {job : Option ScheduledJob} (hp : PhaseOk w j (.crashLoaded r run job)) (now : Timestamp)
    (hj : ∀ row ∈ job, row.id = j)
    (hc : Commits (job.map (failInFlight now ∘ Tracked.load)).toList
      (run.map (crashedRun now ∘ Tracked.load)).toList w w') : Resting w' j := by
  obtain ⟨⟨hr, row, rfl, hid, hn⟩, job, rfl, hn'⟩ := hp
  have hjid : job.id = j := hj job rfl
  refine ⟨fun st hst => jobStatus_after (t := failInFlight now (Tracked.load job)) hc ?_ (fun st₀ hst₀ => ?_) hst,
    runStatus_after (u := crashedRun now (Tracked.load row)) hx hc ?_ hr ?_ fun v hv => ?_⟩
  · unfold failInFlight
    split <;> exact hjid
  · unfold failInFlight
    split
    · rename_i hin
      have hne : JobStatus.failed ≠ job.status := fun he => by
        rw [show (Tracked.load job).mem.status = job.status from rfl, ← he] at hin
        cases hin
      rw [show (setStatus JobStatus.failed now (Tracked.load job)).mem.status = .failed from rfl]
      rw [show (setStatus JobStatus.failed now (Tracked.load job)).base.status = job.status from rfl,
        written_of_ne hne]
      rfl
    · rename_i hin
      rw [Tracked.load_base, Tracked.load_mem, written_self]
      exact hn' (by simpa using hin) st₀ hst₀
  · unfold crashedRun
    split <;> exact hid
  · unfold crashedRun
    split <;> rfl
  · unfold crashedRun
    split
    · rename_i hrun
      have hbase : row.status = .running := hrun
      simp [hbase, written]
    · rename_i hrun
      rw [Tracked.load_base, Tracked.load_mem, written_self]
      exact hn hrun v hv

theorem RunOf.jobId {j r : ℕ} (h : RunOf w j r) {v : Verdict} (hv : w.verdict r = some v) : v.jobId = j := by
  obtain ⟨v₀, hv₀, hj⟩ := h
  exact Option.some.inj (hv₀.symm.trans hv) ▸ hj

section Owner
variable {i j : ℕ} {ph ph' : Phase}

theorem Exclusive.alone (hx : Exclusive rules rs w) (hi : Owns rs i j ph) (k : ℕ) (ph' : Phase) (hk : k ≠ i) :
    ¬ Owns rs k j ph' := fun hkj => hk (hx.owners k i j ph' ph hkj hi)

/-- An owner moves on while the tables stay as they are. -/
theorem Settling.stay (h : Settling rs w) (hx : Exclusive rules rs w) (hi : Owns rs i j ph)
    (hj : w'.jobs = w.jobs) (hr : w'.runs = w.runs) (hp : PhaseOk w' j ph') :
    Settling (rs.set i (.owner j ph')) w' :=
  h.own hi (.inr ⟨ph, rfl⟩) (own_of_tables hj hr) (hx.alone hi) (.inl ⟨ph', rfl, hp⟩)

/-- An owner commits to its job and its run. -/
theorem Settling.ownCommits (h : Settling rs w) (hi : Owns rs i j ph) {jobs : List (Tracked ScheduledJob)}
    {runs : List (Tracked ReviewRun)} (hc : Commits jobs runs w w') (hj : ∀ t ∈ jobs, t.mem.id = j)
    (hr : ∀ u ∈ runs, u.mem.scheduledJobId = u.base.scheduledJobId)
    (hid : ∀ u ∈ runs, ph.runId = some u.mem.id) : Own j w w' :=
  own_of_commits hc hj hr fun u hu _ hv => (phaseOk_runOf (h.phases i j ph hi) (hid u hu)).jobId hv

theorem Settling.commit (h : Settling rs w) (hx : Exclusive rules rs w) (hi : Owns rs i j ph)
    {jobs : List (Tracked ScheduledJob)} {runs : List (Tracked ReviewRun)} (hc : Commits jobs runs w w')
    (hj : ∀ t ∈ jobs, t.mem.id = j) (hr : ∀ u ∈ runs, u.mem.scheduledJobId = u.base.scheduledJobId)
    (hid : ∀ u ∈ runs, ph.runId = some u.mem.id) (hp : PhaseOk w' j ph') :
    Settling (rs.set i (.owner j ph')) w' :=
  h.own hi (.inr ⟨ph, rfl⟩) (h.ownCommits hi hc hj hr hid) (hx.alone hi) (.inl ⟨ph', rfl, hp⟩)

theorem phaseOk_create (job : ScheduledJob) (now : Timestamp) :
    PhaseOk (w.insertRun (newRun job now)) job.id (.created (World.nextKey (w.runs.map (·.id)))) := by
  refine ⟨(newRun job now).verdict, ?_, rfl⟩
  rw [World.verdict, run?_insertRun, run?_nextKey, Option.none_or, if_pos rfl]
  rfl

theorem phaseOk_spare (hp : PhaseOk w j .claimed) (h : ∀ row, w.job? j = some row → row.status ≠ .claimed) :
    PhaseOk w j (.settled none) := by
  obtain ⟨hst, hruns⟩ := hp
  refine ⟨⟨fun st hst' => ?_, fun q v hv hj => absurd hj (hruns q v hv)⟩, by simp⟩
  obtain ⟨row, hrow, rfl⟩ := Option.map_eq_some_iff.mp hst'
  rcases hst with hst | hst
  · exact absurd (Option.some.inj ((jobStatus_of hrow).symm.trans hst)) (h row hrow)
  · rw [Option.some.inj ((jobStatus_of hrow).symm.trans hst)]
    rfl

theorem phaseOk_abandon {row : ScheduledJob} (hp : PhaseOk w row.id (.abandoning row))
    (hs : row.status = .claimed) {now : Timestamp}
    (hc : Commits [setStatus .failed now (Tracked.load row)] [] w w') : PhaseOk w' row.id (.settled none) := by
  refine ⟨⟨fun st hst => jobStatus_after hc rfl (fun st₀ _ => ?_) hst, fun q v hv hj => ?_⟩, by simp⟩
  · simp [setStatus, hs, written, JobStatus.inFlight]
  · rw [hc.verdict] at hv
    exact absurd hj (hp q v ((congrFun Option.map_id _).symm.trans hv))

theorem phaseOk_crashRead {r : ℕ} (hp : PhaseOk w j ph) (hr : ph.runId = some r) :
    PhaseOk w j (.crashRead r (w.run? r)) := by
  have hof := phaseOk_runOf hp hr
  obtain ⟨run, hrun, -⟩ := hof.run?
  refine ⟨hof, run, hrun, run?_id hrun, fun hs v hv => ?_⟩
  rw [verdict_of hrun] at hv
  exact Option.some.inj hv ▸ hs

theorem phaseOk_crashLoaded {r : ℕ} {run : Option ReviewRun} (hp : PhaseOk w j (.crashRead r run))
    (hj : w.jobStatus j ≠ none) : PhaseOk w j (.crashLoaded r run (w.job? j)) := by
  cases hrow : w.job? j with
  | none => exact absurd (congrArg (Option.map ScheduledJob.status) hrow) hj
  | some row =>
    refine ⟨hp, row, rfl, fun hs st hst => ?_⟩
    rw [jobStatus_of hrow] at hst
    exact Option.some.inj hst ▸ hs

theorem Settling.release (h : Settling rs w) (hx : Exclusive rules rs w)
    (hcleanup : rules.mayFail .cleanup = false) (hi : Owns rs i j ph)
    (hrel : (∃ r, ph = .settled r) ∨ (∃ r, ph = .vanished r) ∨ rules.mayFail .cleanup = true) :
    Settling (rs.set i .idle) { w with released := j :: w.released } := by
  have hp := h.phases i j ph hi
  rcases hrel with ⟨r, rfl⟩ | ⟨r, rfl⟩ | hf
  · exact h.own hi (.inr ⟨_, rfl⟩) (own_of_tables rfl rfl) (hx.alone hi) (.inr ⟨rfl, hp.1.job, hp.1.runs⟩)
  · exact hp.elim
  · rw [hcleanup] at hf
    cases hf

end Owner

theorem cancelled_pair {job : ScheduledJob} (h : job.status ≠ .cancelled) (now : Timestamp) :
    ∀ t ∈ [setStatus .cancelled now (Tracked.load job)], t.mem.status = .cancelled ∧ t.base.status ≠ .cancelled := by
  intro t ht
  obtain rfl := List.mem_singleton.mp ht
  exact ⟨rfl, h⟩

theorem mild_cancelInflight {job : ScheduledJob} {run : Option ReviewRun} {now : Timestamp}
    (hs : job.status.inFlight = true) (hr : ∀ row ∈ run, row.scheduledJobId = job.id ∧ row.status = .running)
    (hc : Commits [setStatus .cancelled now (Tracked.load job)]
      (run.map (cancelledRun now ∘ Tracked.load)).toList w w') : Mild w w' := by
  refine mild_of_cancel hc (cancelled_pair ?_ now) fun u hu => ?_
  · intro he
    rw [he] at hs
    cases hs
  · obtain ⟨row, hrow, rfl⟩ := Option.map_eq_some_iff.mp (Option.mem_toList.mp hu)
    have hrun : (cancelledRun now (Tracked.load row)).base.status = .running := (hr row hrow).2
    exact ⟨rfl, by simp [hrun], rfl⟩

theorem mild_cancelQueued {job : ScheduledJob} {now : Timestamp} (hs : job.status = .queued)
    (hc : Commits [setStatus .cancelled now (Tracked.load job)] [] w w') : Mild w w' :=
  mild_of_cancel hc (cancelled_pair (by simp [hs]) now) (by simp)

theorem mild_refl (hj : w'.jobs = w.jobs) (hr : w'.runs = w.runs) : Mild w w' := by
  refine ⟨fun j => .inl ?_, fun r => .inl ?_⟩
  · rw [World.jobStatus, World.job?, hj]
    rfl
  · rw [World.verdict, World.run?, hr]
    rfl

/-- Assuming that no cleanup fails. -/
theorem Settling.move (h : Settling rs w) (hx : Exclusive rules rs w)
    (hcleanup : rules.mayFail .cleanup = false) {i : ℕ} {r r' : Role} (hi : rs[i]? = some r)
    (hm : Move rules r w r' w') : Settling (rs.set i r') w' := by
  have hrequest : r.isOwner = false → r'.isOwner = false → r' ≠ .recovering → Mild w w' →
      Settling (rs.set i r') w' := fun hr hr' hrec hm =>
    h.mild hx hm (fun _ _ _ => owns_set_other hi hr hr') (noRecovery_set h hrec i)
  cases hm with
  | take ht =>
    cases ht with
    | lock => exact hrequest rfl rfl (by simp) (mild_refl rfl rfl)
    | unlock => exact hrequest rfl rfl (by simp) (mild_refl rfl rfl)
    | @claimLocked _ row now =>
      obtain ⟨-, hs, hst, -⟩ := hx.locks i row hi
      exact h.claim hx hi rfl (takes_claimLocked hs hst now)
    | claimFirst now hd hc => exact h.claim hx hi rfl (takes_claimRow hx.good hc now)
    | create job now =>
      exact h.own hi (.inr ⟨_, rfl⟩) (own_insertRun job now) (hx.alone hi) (.inl ⟨_, rfl, phaseOk_create job now⟩)
    | review => exact h.stay hx hi rfl rfl (show RunOf w _ _ from h.phases i _ _ hi)
  | quiet hq =>
    obtain ⟨hlt, rfl⟩ := List.getElem?_eq_some_iff.mp hi
    rw [List.set_getElem_self]
    exact h.mild hx hq.mild (fun _ _ _ => Iff.rfl) h.noRecovery
  | lose hj => exact absurd (congrArg (Option.map ScheduledJob.status) hj) (hx.known hi)
  | abandonRead => exact h.stay hx hi rfl rfl (h.phases i _ _ hi).2
  | abandonSpare hne => exact h.stay hx hi rfl rfl (phaseOk_spare (h.phases i _ _ hi) hne)
  | abandon now hs hc =>
    exact h.commit hx hi hc (by simp [setStatus]) (by simp) (by simp) (phaseOk_abandon (h.phases i _ _ hi) hs hc)
  | openRun hr =>
    obtain rfl := run?_id hr
    exact h.stay hx hi rfl rfl (show RunOf w _ _ from h.phases i _ _ hi)
  | openNone hr =>
    obtain ⟨run, hrun, -⟩ := RunOf.run? (h.phases i _ _ hi)
    rw [hr] at hrun
    cases hrun
  | loadJob => exact h.stay hx hi rfl rfl (show RunOf w _ _ from h.phases i _ _ hi)
  | loadNone hj => exact absurd (congrArg (Option.map ScheduledJob.status) hj) (hx.known hi)
  | start hc =>
    exact h.commit hx hi hc (by simp [setStatus]) (by simp [started]) (by simp [started, Phase.runId])
      (RunOf.commits (h.phases i _ _ hi) hc (by simp [started]))
  | post => exact h.stay hx hi rfl rfl (show RunOf w _ _ from h.phases i _ _ hi)
  | @finish _ _ j ph run t u hph hf hc =>
    have hid : ph.runId = some run.id := by rcases hph with rfl | rfl <;> rfl
    have hof := phaseOk_runOf (h.phases i j ph hi) hid
    have hkeep : u.mem.scheduledJobId = u.base.scheduledJobId :=
      (congrArg Verdict.jobId hf.runMem).trans (congrArg Verdict.jobId hf.runBase).symm
    refine h.commit hx hi hc (by simpa using hf.jobId) (by simpa using hkeep) (by simpa [hf.runId] using hid) ?_
    refine ⟨resting_finish hx hf hof hc, fun q hq => ?_⟩
    exact Option.some.inj hq ▸ hof.commits hc (by simpa using hkeep)
  | crashRun _ hr => exact h.stay hx hi rfl rfl (phaseOk_crashRead (h.phases i _ _ hi) hr)
  | crashJob => exact h.stay hx hi rfl rfl (phaseOk_crashLoaded (h.phases i _ _ hi) (hx.known hi))
  | @crashCommit _ _ j r run job now hj hr hc =>
    have hp := h.phases i j _ hi
    have hruns : ∀ u ∈ (run.map (crashedRun now ∘ Tracked.load)).toList, u.mem.id = r ∧
        u.mem.scheduledJobId = u.base.scheduledJobId := by
      intro u hu
      obtain ⟨row, hrow, rfl⟩ := Option.map_eq_some_iff.mp (Option.mem_toList.mp hu)
      simp only [Function.comp_apply, crashedRun]
      split <;> exact ⟨hr row hrow, rfl⟩
    refine h.commit hx hi hc (fun t ht => ?_) (fun u hu => (hruns u hu).2) (fun u hu => ?_) ?_
    · obtain ⟨row, hrow, rfl⟩ := Option.map_eq_some_iff.mp (Option.mem_toList.mp ht)
      simp only [Function.comp_apply, failInFlight]
      split <;> exact hj row hrow
    · rw [(hruns u hu).1]
      rfl
    · refine ⟨resting_crash hx hp now hj hc, fun q hq => ?_⟩
      exact Option.some.inj hq ▸ RunOf.commits hp.1.1 hc fun u hu => (hruns u hu).2
  | release hrel => exact h.release hx hcleanup hi hrel
  | readRunning job => exact hrequest rfl rfl (by simp) (mild_refl rfl rfl)
  | cancelInflight now hs hr hc => exact hrequest rfl rfl (by simp) (mild_cancelInflight hs hr hc)
  | cancelQueued now hs hc => exact hrequest rfl rfl (by simp) (mild_cancelQueued hs hc)
  | recover => exact absurd hi (h.noRecovery i)

theorem Settling.start (h : Settling rs w) (a : Activity) : Settling (rs ++ [a.initial]) w := by
  have hown : ∀ k j ph, Owns (rs ++ [a.initial]) k j ph ↔ Owns rs k j ph := by
    refine fun k j ph => ⟨fun hk => ?_, fun hk => ?_⟩
    · rcases getElem?_concat_cases hk with hk | he
      · exact hk
      · cases a <;> cases he
    · rw [Owns, List.getElem?_append_left (List.getElem?_eq_some_iff.mp hk).1]
      exact hk
  refine ⟨fun j st hst hin => ?_, fun r v hv hr => ?_, fun k j ph hk => h.phases k j ph ((hown k j ph).mp hk),
    fun k hk => ?_⟩
  · obtain ⟨i, ph, hi, hu⟩ := h.inflight j st hst hin
    exact ⟨i, ph, (hown i j ph).mpr hi, hu⟩
  · obtain ⟨i, ph, hi, hu⟩ := h.running r v hv hr
    exact ⟨i, ph, (hown i _ ph).mpr hi, hu⟩
  · rcases getElem?_concat_cases hk with hk | he
    · exact h.noRecovery k hk
    · cases a <;> cases he

theorem settling_empty : Settling [] World.empty :=
  ⟨fun _ _ h => by (cases h), fun _ _ h => by (cases h), fun _ _ _ h => by (cases h), fun _ h => by (cases h)⟩

/-- One transition of a service that does not crash. -/
theorem service_step (hx : Exclusive rules rs w) (h : Settling rs w) (hcleanup : rules.mayFail .cleanup = false)
    {rs' : List Role} (hs : RoleStep (Move rules) Activity.initial (service rules).restart rs w rs' w') :
    Exclusive rules rs' w' ∧ Settling rs' w' := by
  cases hs with
  | start a => exact ⟨hx.start (Activity.initial_free a), h.start a⟩
  | move hi hm => exact ⟨hx.move hi hm, h.move hx hcleanup hi hm⟩
  | stutter => exact ⟨hx, h⟩
  | crash hk => cases hk

end Invariant

/-- The roles a request can be in. -/
def Role.asking : Role → Bool
  | .requesting => true
  | .cancelling _ _ => true
  | _ => false

def Suits (a : Activity) (r : Role) : Prop := ∀ q, a = .request q → r.asking = true

theorem suits_initial (a : Activity) : Suits a a.initial := by
  rintro q rfl
  rfl

theorem Suits.move {rules : Rules} {a : Activity} {r r' : Role} {w w' : World} (h : Suits a r)
    (hm : Move rules r w r' w') : Suits a r' := by
  intro q hq
  have hr := h q hq
  cases hm with
  | take ht => cases ht <;> cases hr
  | quiet => exact hr
  | readRunning => rfl
  | cancelInflight => rfl
  | cancelQueued => rfl
  | _ => cases hr

/-- What the roles of a service's threads say about the end of a thread. -/
abbrev Explained (rules : Rules) (c : Pool Activity Site World PyError) (rs : List Role) : Prop :=
  Explains (service rules) Good (Move rules) Suits (fun a r => ∀ now, a = .pump now → PumpEnds rules r)
    c.threads rs

theorem service_invariant (rules : Rules) (hcleanup : rules.mayFail .cleanup = false) {ok : World → World → Prop}
    {c : Pool Activity Site World PyError} (h : (service rules).Reaches ok ⟨World.empty, []⟩ c) :
    ∃ rs, Explained rules c rs ∧ Exclusive rules rs c.shared ∧ Settling rs c.shared :=
  h.invariant (Activity.follows rules) suits_initial (fun _ _ _ _ _ => Suits.move)
    (fun _ _ hi => hi.1.good) (fun _ _ _ _ hi _ hs => service_step hi.1 hi.2 hcleanup hs) .nil
    ⟨exclusive_empty rules, settling_empty⟩

/-- A thread that has ended owns nothing that is still to be settled. -/
theorem ended_not_owner {rules : Rules} (hreload : rules.mayFail .reload = false)
    {c : Pool Activity Site World PyError} {rs : List Role} (hexp : Explained rules c rs)
    (h : Settling rs c.shared) (hidle : ∀ t ∈ c.threads, ∀ now, t.op = .pump now → t.prog.Finished)
    {i j : ℕ} {ph : Phase} : ¬ Owns rs i j ph := by
  intro hi
  obtain ⟨t, ht, hsuits, hf⟩ := hexp.getRole hi
  cases hop : t.op with
  | request q => cases hsuits q hop
  | pump now =>
    have hfin : t.prog.Finished := hidle t (List.mem_of_getElem? ht) now hop
    have hend : ∀ now, t.op = .pump now → PumpEnds rules (.owner j ph) := Program.Follows.finished hf hfin
    rcases hend now hop with he | ⟨j', he⟩ | he
    · cases he
    · cases he
      exact h.phases i j _ hi
    · rw [hreload] at he
      cases he

/-- Whenever no claim is in progress and no worker is alive, nothing is left in
flight. The execution may let every step outside the cleanups raise; only the
reload of a row whose claim has just committed counts as part of that claim. -/
theorem nothing_stuck (rules : Rules) (hreload : rules.mayFail .reload = false)
    (hcleanup : rules.mayFail .cleanup = false) {c : Pool Activity Site World PyError}
    (h : (service rules).Reaches (fun _ _ => True) ⟨World.empty, []⟩ c)
    (hidle : ∀ t ∈ c.threads, ∀ now, t.op = .pump now → t.prog.Finished) :
    (∀ job ∈ c.shared.jobs, job.status ≠ .claimed ∧ job.status ≠ .running) ∧
      ∀ run ∈ c.shared.runs, run.status ≠ .running := by
  obtain ⟨rs, hexp, hx, hs⟩ := service_invariant rules hcleanup h
  have hnone : ∀ i j ph, ¬ Owns rs i j ph := fun _ _ _ => ended_not_owner hreload hexp hs hidle
  have hjob : ∀ job ∈ c.shared.jobs, job.status.inFlight = false := by
    intro job hmem
    by_contra hin
    obtain ⟨i, ph, hi, -⟩ := hs.inflight job.id job.status (jobStatus_of (job?_of_mem hx.good hmem)) (by simpa using hin)
    exact hnone i _ ph hi
  refine ⟨fun job hmem => ?_, fun run hmem hrun => ?_⟩
  · have hin := hjob job hmem
    cases hst : job.status <;> rw [hst] at hin <;> first | exact ⟨by decide, by decide⟩ | cases hin
  · obtain ⟨i, ph, hi, -⟩ := hs.running run.id run.verdict (verdict_of (run?_of_mem hx.good hmem)) hrun
    exact hnone i _ ph hi

/-- Everything but the cleanups may fail. -/
def fragileRules (dialect : Dialect) : Rules where
  dialect := dialect
  answers _ := quickReview
  mayFail
    | .request => true
    | .claim => true
    | .creation => true
    | .execution => true
    | _ => false
  outside := rfl

/-- The run row cannot be created, and the claim is abandoned. -/
def failedCreation : List (Choice Activity) :=
  [.start (.request (.enqueue plainRequest)), .advance 0, .advance 0, .start (.pump 1), .advance 1, .advance 1,
    .fail 1] ++ List.replicate 5 (.advance 1)

theorem nothing_stuck_failedCreation :
    ∃ c, (service (fragileRules .postgresql)).Reaches (fun _ _ => True) ⟨World.empty, []⟩ c ∧
      c.shared.claims = [1] ∧ c.shared.runs = [] ∧ ∀ job ∈ c.shared.jobs, job.status ≠ .claimed ∧ job.status ≠ .running := by
  obtain ⟨c, hreach, hp⟩ := System.exists_of_exec (service (fragileRules .postgresql)) (fun _ _ => True)
    ⟨World.empty, []⟩ failedCreation (fun c => decide (c.shared.claims = [1] ∧ c.shared.runs = []) &&
      c.threads.all fun t => decide t.prog.Finished) (by decide)
  rw [Bool.and_eq_true, decide_eq_true_eq, List.all_eq_true] at hp
  obtain ⟨⟨hc, hr⟩, hall⟩ := hp
  exact ⟨c, hreach, hc, hr, (nothing_stuck (fragileRules .postgresql) rfl rfl hreach fun t ht _ _ =>
    of_decide_eq_true (hall t ht)).1⟩

end GitlabReviewer.Lifecycle
