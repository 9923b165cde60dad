import GitlabReviewer.Lifecycle.Settled

/-! # What a committed cancel is worth

A cancelled job never goes back to the queue. If nobody works on the job when
the cancel commits, or its worker has stored an outcome by then, the cancel is
final; a worker that is still under way takes no notice of it and brings the job
to the end of its own execution.
-/
namespace GitlabReviewer.Lifecycle
open Python Foundation Models Scheduling Reviews

/-- A claim of the job has committed and its thread has not given the permit back. -/
def InProgress (w : World) (j : ℕ) : Prop := j ∈ w.claims ∧ j ∉ w.released

instance (w : World) (j : ℕ) : Decidable (InProgress w j) := inferInstanceAs (Decidable (_ ∧ _))

def notesOf (w : World) (j : ℕ) : List NoteCall := w.notes.filter (·.jobId == j)

section Invariant
variable {rules : Rules} {rs : List Role} {w w' : World}

structure Holding (rs : List Role) (w : World) : Prop where
  owned : ∀ i j ph, Owns rs i j ph → j ∉ w.released
  released : ∀ j ∈ w.released, j ∈ w.claims
  noRecovery : ∀ i : ℕ, rs[i]? ≠ some Role.recovering

theorem holding_empty : Holding [] World.empty :=
  ⟨fun _ _ _ h => by (cases h), fun _ h => absurd h List.not_mem_nil, fun _ h => by (cases h)⟩

/-- What a move adds to the history, and which role adds it. -/
structure Adds (r r' : Role) (w w' : World) : Prop where
  claims : w'.claims = w.claims ∨ ∃ j, r' = .owner j .claimed ∧ w'.claims = j :: w.claims
  released : w'.released = w.released ∨ ∃ j ph, r = .owner j ph ∧ r' = .idle ∧ w'.released = j :: w.released
  reviews : w'.reviews = w.reviews ∨ ∃ j ph, r = .owner j ph ∧ w'.reviews = j :: w.reviews
  notes : w'.notes = w.notes ∨ ∃ j ph call, r = .owner j ph ∧ call.jobId = j ∧ w'.notes = call :: w.notes

theorem adds_of_commits {r r' : Role} {jobs : List (Tracked ScheduledJob)} {runs : List (Tracked ReviewRun)}
    (h : Commits jobs runs w w') : Adds r r' w w' := by
  refine ⟨.inl ?_, .inl ?_, .inl ?_, .inl ?_⟩ <;> rw [h.stored] <;> rfl

theorem Move.adds {r r' : Role} (hm : Move rules r w r' w') : Adds r r' w w' := by
  cases hm with
  | take ht =>
    cases ht with
    | claimLocked => exact ⟨.inr ⟨_, rfl, rfl⟩, .inl rfl, .inl rfl, .inl rfl⟩
    | claimFirst => exact ⟨.inr ⟨_, rfl, rfl⟩, .inl rfl, .inl rfl, .inl rfl⟩
    | review => exact ⟨.inl rfl, .inl rfl, .inr ⟨_, _, rfl, rfl⟩, .inl rfl⟩
    | _ => exact ⟨.inl rfl, .inl rfl, .inl rfl, .inl rfl⟩
  | quiet hq => exact ⟨.inl hq.claims, .inl hq.released, .inl hq.reviews, .inl hq.notes⟩
  | abandon _ _ hc => exact adds_of_commits hc
  | start hc => exact adds_of_commits hc
  | post hj => exact ⟨.inl rfl, .inl rfl, .inl rfl, .inr ⟨_, _, _, rfl, hj, rfl⟩⟩
  | finish _ _ hc => exact adds_of_commits hc
  | crashCommit _ _ _ hc => exact adds_of_commits hc
  | release => exact ⟨.inl rfl, .inr ⟨_, _, rfl, rfl, rfl⟩, .inl rfl, .inl rfl⟩
  | cancelInflight _ _ _ hc => exact adds_of_commits hc
  | cancelQueued _ _ hc => exact adds_of_commits hc
  | recover _ hc => exact adds_of_commits hc
  | _ => exact ⟨.inl rfl, .inl rfl, .inl rfl, .inl rfl⟩

theorem Move.not_recovering {r r' : Role} (hm : Move rules r w r' w') (hr : r ≠ .recovering) :
    r' ≠ .recovering := by
  intro he
  cases hm with
  | take ht => cases ht <;> cases he
  | quiet => exact hr he
  | recover => exact hr rfl
  | _ => cases he

/-- An owner was one before, or takes a job out of the queue. -/
theorem Exclusive.owner_from (h : Exclusive rules rs w) {i j : ℕ} {r : Role} {ph : Phase} (hi : rs[i]? = some r)
    (hm : Move rules r w (.owner j ph) w') :
    (∃ ph₀, r = .owner j ph₀) ∨ w.jobStatus j = some .queued ∧ j ∉ w.claims := by
  have hqueued : w.jobStatus j = some .queued → w.jobStatus j = some .queued ∧ j ∉ w.claims := by
    refine fun hq => ⟨hq, fun hj => ?_⟩
    obtain ⟨st, hst, hne⟩ := h.taken j hj
    exact hne (Option.some.inj (hst.symm.trans hq))
  rcases hm.tame with ht | ⟨-, hb⟩
  · cases ht with
    | claimLocked => exact .inr (hqueued (h.locks i _ hi).2.2.1)
    | claimFirst now hd hc => exact .inr (hqueued (takes_claimRow h.good hc now).queued)
    | create => exact .inl ⟨_, rfl⟩
    | review => exact .inl ⟨_, rfl⟩
  · obtain ⟨ph₀, hr, -⟩ := hb.owner j ph rfl
    exact .inl ⟨ph₀, hr⟩

theorem Holding.move (h : Holding rs w) (hx : Exclusive rules rs w) {i : ℕ} {r r' : Role} (hi : rs[i]? = some r)
    (hm : Move rules r w r' w') : Holding (rs.set i r') w' := by
  have hadds := hm.adds
  have hclaims : ∀ j ∈ w.claims, j ∈ w'.claims := by
    intro j hj
    rcases hadds.claims with he | ⟨k, -, he⟩ <;> rw [he]
    · exact hj
    · exact List.mem_cons_of_mem _ hj
  refine ⟨fun k j ph hk => ?_, fun j hj => ?_, fun k hk => ?_⟩
  · rcases getElem?_set_cases hk with ⟨-, rfl⟩ | ⟨hki, hk⟩
    · have hsame : w'.released = w.released := hadds.released.resolve_right fun ⟨_, _, _, he, _⟩ => by cases he
      rw [hsame]
      rcases hx.owner_from hi hm with ⟨ph₀, rfl⟩ | ⟨-, hnew⟩
      · exact h.owned i j ph₀ hi
      · exact fun hj => hnew (h.released j hj)
    · rcases hadds.released with he | ⟨l, ph₀, rfl, -, he⟩ <;> rw [he]
      · exact h.owned k j ph hk
      · intro hj
        rcases List.mem_cons.mp hj with rfl | hj
        · exact hki (hx.owners k i j ph ph₀ hk hi)
        · exact h.owned k j ph hk hj
  · rcases hadds.released with he | ⟨l, ph₀, rfl, -, he⟩ <;> rw [he] at hj
    · exact hclaims j (h.released j hj)
    · rcases List.mem_cons.mp hj with rfl | hj
      · exact hclaims j (hx.owned i j ph₀ hi).1
      · exact hclaims j (h.released j hj)
  · rcases getElem?_set_cases hk with ⟨-, he⟩ | ⟨-, hk⟩
    · refine hm.not_recovering (fun hr => ?_) he.symm
      exact h.noRecovery i (hr ▸ hi)
    · exact h.noRecovery k hk

theorem Holding.start (h : Holding rs w) (a : Activity) : Holding (rs ++ [a.initial]) w := by
  refine ⟨fun k j ph hk => ?_, h.released, fun k hk => ?_⟩
  · rcases getElem?_concat_cases hk with hk | he
    · exact h.owned k j ph hk
    · cases a <;> cases he
  · rcases getElem?_concat_cases hk with hk | he
    · exact h.noRecovery k hk
    · cases a <;> cases he

/-- Nobody but its owner, and nobody when it is not queued, changes a job's
status to anything else than `cancelled`. -/
theorem Exclusive.status_elsewhere (h : Exclusive rules rs w) {i j : ℕ} {r r' : Role} {st : JobStatus}
    (hi : rs[i]? = some r) (hm : Move rules r w r' w') (hown : ∀ ph, r ≠ .owner j ph) (hrec : r ≠ .recovering)
    (hst : w.jobStatus j = some st) (hne : st ≠ .queued) :
    w'.jobStatus j = some st ∨ w'.jobStatus j = some .cancelled := by
  have hmild : Mild w w' → w'.jobStatus j = some st ∨ w'.jobStatus j = some .cancelled := by
    intro hmild
    exact ((hmild.elsewhere (by simp [hst])).status).imp (·.trans hst) id
  have htakes : ∀ {k}, Takes k w w' → w'.jobStatus j = some st ∨ w'.jobStatus j = some .cancelled := by
    intro k ht
    refine .inl ((ht.own.status j fun hjk => hne ?_).trans hst)
    exact Option.some.inj (hst.symm.trans (hjk ▸ ht.queued))
  have hother : ∀ {k ph jobs runs}, r = .owner k ph → Commits jobs runs w w' → (∀ t ∈ jobs, t.mem.id = k) →
      w'.jobStatus j = some st ∨ w'.jobStatus j = some .cancelled := by
    intro k ph jobs runs hr hc hj
    have hkj : j ≠ k := fun he => hown ph (he ▸ hr)
    have hnone : held jobs j = none := by
      cases hheld : held jobs j with
      | none => rfl
      | some t =>
        obtain ⟨hmem, hid⟩ := held_mem hheld
        exact absurd (hid.symm.trans (hj t hmem)) hkj
    rw [hc.jobStatus, hnone, hst]
    exact .inl rfl
  cases hm with
  | take ht =>
    cases ht with
    | claimLocked now =>
      obtain ⟨-, hs, hq, -⟩ := h.locks i _ hi
      exact htakes (takes_claimLocked hs hq now)
    | claimFirst now hd hc => exact htakes (takes_claimRow h.good hc now)
    | _ => exact .inl hst
  | quiet hq => exact hmild hq.mild
  | abandon _ _ hc => exact hother rfl hc (by simp [setStatus])
  | start hc => exact hother rfl hc (by simp [setStatus])
  | finish _ hf hc => exact hother rfl hc (by simpa using hf.jobId)
  | crashCommit _ hj _ hc =>
    refine hother rfl hc fun t ht => ?_
    obtain ⟨row, hrow, rfl⟩ := Option.map_eq_some_iff.mp (Option.mem_toList.mp ht)
    simp only [Function.comp_apply, failInFlight]
    split <;> exact hj row hrow
  | cancelInflight _ hs hr hc => exact hmild (mild_cancelInflight hs hr hc)
  | cancelQueued _ hs hc => exact hmild (mild_cancelQueued hs hc)
  | recover => exact absurd rfl hrec
  | _ => exact .inl hst

/-- Phases that start nothing, post nothing and leave a terminal status alone. -/
def Phase.over : Phase → Bool
  | settled _ => true
  | vanished _ => true
  | crashRead _ _ => true
  | crashLoaded _ _ job => job.all fun row => !row.status.inFlight
  | _ => false

/-- What the cleanup writes for a job it has read in another status than a live one. -/
theorem failInFlight_over {row : ScheduledJob} (h : row.status.inFlight = false) (now : Timestamp) :
    failInFlight now (Tracked.load row) = Tracked.load row := by
  unfold failInFlight
  rw [if_neg]
  rw [Tracked.load_mem, h]
  exact Bool.false_ne_true

theorem jobStatus_crashCommit {j r : ℕ} {run : Option ReviewRun} {job : Option ScheduledJob} {now : Timestamp}
    {runs : List (Tracked ReviewRun)} (hover : (Phase.crashLoaded r run job).over = true)
    (hj : ∀ row ∈ job, row.id = j) (hc : Commits (job.map (failInFlight now ∘ Tracked.load)).toList runs w w') :
    w'.jobStatus j = w.jobStatus j := by
  rw [hc.jobStatus]
  cases job with
  | none => exact congrFun Option.map_id _
  | some row =>
    have hrest : row.status.inFlight = false := by simpa [Phase.over] using hover
    have hone : ((some row).map (failInFlight now ∘ Tracked.load)).toList = [Tracked.load row] := by
      rw [Option.map_some, Function.comp_apply, failInFlight_over hrest]
      rfl
    rw [hone, held_single (i := j) (hj row rfl)]
    cases w.jobStatus j with
    | none => rfl
    | some st => rw [Option.map_some, writtenStatus_some, Tracked.load_base, Tracked.load_mem, written_self]

/-- The owner of a cancelled job that is past its work takes a step. -/
theorem Move.over {j : ℕ} {ph : Phase} {r' : Role} (hm : Move rules (.owner j ph) w r' w') (ho : ph.over = true)
    (hst : w.jobStatus j = some .cancelled) :
    (∀ k ph', r' = .owner k ph' → ph'.over = true) ∧ w'.jobStatus j = some .cancelled ∧
      w'.reviews = w.reviews ∧ w'.notes = w.notes := by
  have hover : ∀ {ph₁ : Phase}, ph₁.over = true → ∀ k ph', Role.owner j ph₁ = .owner k ph' → ph'.over = true := by
    intro ph₁ h k ph' he
    cases he
    exact h
  cases hm with
  | take ht => cases ht <;> cases ho
  | quiet hq =>
    refine ⟨hover ho, ?_, hq.reviews, hq.notes⟩
    rcases hq.status j with he | ⟨hn, -⟩
    · exact he.trans hst
    · rw [hst] at hn
      cases hn
  | finish hph => rcases hph with rfl | rfl <;> cases ho
  | crashRun => exact ⟨hover rfl, hst, rfl, rfl⟩
  | crashJob =>
    refine ⟨hover ?_, hst, rfl, rfl⟩
    obtain ⟨row, hrow, hrest⟩ := Option.map_eq_some_iff.mp hst
    rw [Phase.over, hrow, Option.all_some, hrest]
    rfl
  | crashCommit now hj _ hc =>
    refine ⟨hover rfl, (jobStatus_crashCommit ho hj hc).trans hst, ?_, ?_⟩ <;> rw [hc.stored] <;> rfl
  | release => exact ⟨fun _ _ he => (by cases he), hst, rfl, rfl⟩
  | _ => cases ho

/-- The job is cancelled, its reviews and notes are all made, and whoever still
owns a claim of it is past its work. -/
structure Retired (j reviews : ℕ) (notes : List NoteCall) (rs : List Role) (w : World) : Prop where
  past : ∀ i ph, Owns rs i j ph → ph.over = true
  status : w.jobStatus j = some .cancelled
  reviews : w.reviews.count j = reviews
  notes : notesOf w j = notes

theorem Retired.move {j n : ℕ} {l : List NoteCall} (h : Retired j n l rs w) (hx : Exclusive rules rs w)
    (hrec : ∀ i : ℕ, rs[i]? ≠ some Role.recovering) {i : ℕ} {r r' : Role} (hi : rs[i]? = some r)
    (hm : Move rules r w r' w') : Retired j n l (rs.set i r') w' := by
  by_cases hown : ∃ ph, r = .owner j ph
  · obtain ⟨ph, rfl⟩ := hown
    obtain ⟨hover, hst, hr, hn⟩ := hm.over (h.past i ph hi) h.status
    refine ⟨fun k ph' hk => ?_, hst, by rw [hr, h.reviews], by rw [notesOf, hn]; exact h.notes⟩
    rcases getElem?_set_cases hk with ⟨-, he⟩ | ⟨-, hk⟩
    · exact hover j ph' he.symm
    · exact h.past k ph' hk
  · have hown : ∀ ph, r ≠ .owner j ph := fun ph he => hown ⟨ph, he⟩
    have hadds := hm.adds
    refine ⟨fun k ph hk => ?_, ?_, ?_, ?_⟩
    · rcases getElem?_set_cases hk with ⟨-, rfl⟩ | ⟨-, hk⟩
      · rcases hx.owner_from hi hm with ⟨ph₀, he⟩ | ⟨hq, -⟩
        · exact absurd he (hown ph₀)
        · rw [h.status] at hq
          cases hq
      · exact h.past k ph hk
    · exact (hx.status_elsewhere hi hm hown (fun he => hrec i (he ▸ hi)) h.status (by decide)).elim id id
    · rcases hadds.reviews with he | ⟨k, ph, hr, he⟩
      · rw [he, h.reviews]
      · have hkj : k ≠ j := fun hkj => hown ph (hkj ▸ hr)
        rw [he, List.count_cons_of_ne hkj, h.reviews]
    · rcases hadds.notes with he | ⟨k, ph, call, hr, hcall, he⟩
      · rw [notesOf, he]
        exact h.notes
      · have hkj : call.jobId ≠ j := fun hkj => hown ph ((hcall.symm.trans hkj) ▸ hr)
        rw [notesOf, he, List.filter_cons_of_neg (by simpa using hkj)]
        exact h.notes

/-- A cancel of the job that no worker can overwrite: nobody works on the job, or
its worker has already stored an outcome. -/
def Timely (j : ℕ) (w w' : World) : Prop :=
  w.jobStatus j ≠ some .cancelled → w'.jobStatus j = some .cancelled →
    ¬ InProgress w j ∨ w.jobStatus j = some .done ∨ w.jobStatus j = some .failed

instance (j : ℕ) (w w' : World) : Decidable (Timely j w w') := inferInstanceAs (Decidable (_ → _ → _))

/-- Whoever owns a claim of the job is past its work once the job has left the queue for good. -/
def Concluded (j : ℕ) (rs : List Role) (w : World) : Prop :=
  ∀ i ph st, Owns rs i j ph → w.jobStatus j = some st → st.inFlight = false → ph.over = true

/-- The owner of the job takes a step and keeps the claim. -/
theorem Move.concluded {j : ℕ} {ph ph' : Phase} (hm : Move rules (.owner j ph) w (.owner j ph') w')
    (hknown : w.jobStatus j ≠ none) (h : ∀ st, w.jobStatus j = some st → st.inFlight = false → ph.over = true)
    {st : JobStatus} (hst : w'.jobStatus j = some st) (hrest : st.inFlight = false) : ph'.over = true := by
  have hbusy : ph.over = false → w'.jobStatus j = w.jobStatus j → ph'.over = true := by
    intro ho he
    rw [h st (he ▸ hst) hrest] at ho
    cases ho
  cases hm with
  | take ht => cases ht <;> exact hbusy rfl rfl
  | quiet hq =>
    rcases hq.status j with he | ⟨hn, -⟩
    · exact h st (he ▸ hst) hrest
    · exact absurd hn hknown
  | abandonRead => exact hbusy rfl rfl
  | openRun => exact hbusy rfl rfl
  | loadJob => exact hbusy rfl rfl
  | @start _ _ run job hc =>
    -- the first commit leaves a live status as it is, or writes `running`
    rw [hc.jobStatus, held_single (i := job.id) rfl] at hst
    obtain ⟨st₀, hst₀, rfl⟩ := Option.map_eq_some_iff.mp hst
    rw [writtenStatus_some] at hrest
    rcases written_eq_or (setStatus .running (rules.answers run.id).startedAt (Tracked.load job)).base.status
      (setStatus .running (rules.answers run.id).startedAt (Tracked.load job)).mem.status st₀ with ⟨-, he⟩ | ⟨-, he⟩
    · rw [he] at hrest
      cases h st₀ hst₀ hrest
    · rw [he] at hrest
      cases hrest
  | post => exact hbusy rfl rfl
  | crashJob =>
    obtain ⟨row, hrow, rfl⟩ := Option.map_eq_some_iff.mp hst
    rw [Phase.over, hrow, Option.all_some, hrest]
    rfl
  | _ => rfl

theorem Concluded.move {j : ℕ} (h : Concluded j rs w) (hx : Exclusive rules rs w) (hh : Holding rs w) {i : ℕ}
    {r r' : Role} (hi : rs[i]? = some r) (hm : Move rules r w r' w') (hok : Timely j w w') :
    Concluded j (rs.set i r') w' := by
  intro k ph st hk hst hrest
  rcases getElem?_set_cases hk with ⟨-, rfl⟩ | ⟨hki, hk⟩
  · rcases hx.owner_from hi hm with ⟨ph₀, rfl⟩ | ⟨hq, hnew⟩
    · exact hm.concluded (hx.known hi) (fun st₀ => h i ph₀ st₀ hi) hst hrest
    · -- the claim has just been made, and the job is claimed
      have hclaims : w'.claims = j :: w.claims := by
        rcases hm.tame with ht | ⟨-, hb⟩
        · cases ht with
          | claimLocked => rfl
          | claimFirst => rfl
          | create => exact absurd (hx.owned i _ _ hi).1 hnew
          | review => exact absurd (hx.owned i _ _ hi).1 hnew
        · obtain ⟨ph₀, rfl, -⟩ := hb.owner j ph rfl
          exact absurd (hx.owned i j ph₀ hi).1 hnew
      obtain rfl := Option.some.inj ((hx.claims_grow hi hm hclaims).2.2.symm.trans hst)
      cases hrest
  · have hown : ∀ ph₀, r ≠ .owner j ph₀ := by
      rintro ph₀ rfl
      exact hki (hx.owners k i j ph ph₀ hk hi)
    obtain ⟨st₀, hst₀, hq⟩ := hx.taken j (hx.owned k j ph hk).1
    by_cases hlive : st₀.inFlight = false
    · exact h k ph st₀ hk hst₀ hlive
    · -- a live job that comes to rest under another thread is cancelled, while its claim is in progress
      exfalso
      rcases hx.status_elsewhere hi hm hown (fun he => hh.noRecovery i (he ▸ hi)) hst₀ hq with he | he
      · obtain rfl := Option.some.inj (he.symm.trans hst)
        exact hlive hrest
      · have hprogress : InProgress w j := ⟨(hx.owned k j ph hk).1, hh.owned k j ph hk⟩
        have hne : ∀ st₁ : JobStatus, st₁.inFlight = false → w.jobStatus j ≠ some st₁ := by
          intro st₁ h₁ hc
          obtain rfl := Option.some.inj (hst₀.symm.trans hc)
          exact hlive h₁
        rcases hok (hne _ rfl) he with hn | hd | hf
        · exact hn hprogress
        · exact hne _ rfl hd
        · exact hne _ rfl hf

/-- The job is neither queued nor claimed, and its claims are all made. -/
structure Left (j claims : ℕ) (w : World) : Prop where
  status : ∃ st, w.jobStatus j = some st ∧ st ≠ .queued ∧ st ≠ .claimed
  claims : w.claims.count j = claims

theorem Left.move {j n : ℕ} (h : Left j n w) (hx : Exclusive rules rs w) {i : ℕ} {r r' : Role}
    (hi : rs[i]? = some r) (hm : Move rules r w r' w') : Left j n w' := by
  obtain ⟨st, hst, hq, hc⟩ := h.status
  have htakes : ∀ {k}, Takes k w w' → Left j n w' := by
    intro k ht
    have hjk : j ≠ k := fun hjk => hq (Option.some.inj (hst.symm.trans (hjk ▸ ht.queued)))
    refine ⟨⟨st, (ht.own.status j hjk).trans hst, hq, hc⟩, ?_⟩
    rw [ht.claims, List.count_cons_of_ne hjk.symm, h.claims]
  rcases hm.tame with ht | ⟨ht, -⟩
  · cases ht with
    | claimLocked now =>
      obtain ⟨-, hs, hqueued, -⟩ := hx.locks i _ hi
      exact htakes (takes_claimLocked hs hqueued now)
    | claimFirst now hd hc => exact htakes (takes_claimRow hx.good hc now)
    | _ => exact ⟨⟨st, hst, hq, hc⟩, h.claims⟩
  · obtain ⟨st', hst', rfl | hleft⟩ := ht.status j st hst
    · exact ⟨⟨st', hst', hq, hc⟩, ht.claims ▸ h.claims⟩
    · exact ⟨⟨st', hst', hleft⟩, ht.claims ▸ h.claims⟩

/-- What holds of a service at every moment. -/
structure Served (rules : Rules) (rs : List Role) (w : World) : Prop where
  exclusive : Exclusive rules rs w
  holding : Holding rs w
  settling : rules.mayFail .cleanup = false → Settling rs w

theorem served_empty (rules : Rules) : Served rules [] World.empty :=
  ⟨exclusive_empty rules, holding_empty, fun _ => settling_empty⟩

theorem Served.step (h : Served rules rs w) {rs' : List Role}
    (hs : RoleStep (Move rules) Activity.initial (service rules).restart rs w rs' w') : Served rules rs' w' := by
  refine ⟨?_, ?_, fun hf => (service_step h.exclusive (h.settling hf) hf hs).2⟩
  · cases hs with
    | start a => exact h.exclusive.start (Activity.initial_free a)
    | move hi hm => exact h.exclusive.move hi hm
    | stutter => exact h.exclusive
    | crash hk => cases hk
  · cases hs with
    | start a => exact h.holding.start a
    | move hi hm => exact h.holding.move h.exclusive hi hm
    | stutter => exact h.holding
    | crash hk => cases hk

theorem owns_start {a : Activity} {k j : ℕ} {ph : Phase} (h : Owns (rs ++ [a.initial]) k j ph) : Owns rs k j ph := by
  rcases getElem?_concat_cases h with h | he
  · exact h
  · cases a <;> cases he

theorem Left.step {j n : ℕ} (h : Left j n w) (hx : Served rules rs w) {rs' : List Role}
    (hs : RoleStep (Move rules) Activity.initial (service rules).restart rs w rs' w') : Left j n w' := by
  cases hs with
  | start => exact h
  | move hi hm => exact h.move hx.exclusive hi hm
  | stutter => exact h
  | crash hk => cases hk

theorem Retired.step {j n : ℕ} {l : List NoteCall} (h : Retired j n l rs w) (hx : Served rules rs w)
    {rs' : List Role} (hs : RoleStep (Move rules) Activity.initial (service rules).restart rs w rs' w') :
    Retired j n l rs' w' := by
  cases hs with
  | start a => exact ⟨fun i ph hi => h.past i ph (owns_start hi), h.status, h.reviews, h.notes⟩
  | move hi hm => exact h.move hx.exclusive hx.holding.noRecovery hi hm
  | stutter => exact h
  | crash hk => cases hk

theorem Concluded.step {j : ℕ} (h : Concluded j rs w) (hx : Served rules rs w) {rs' : List Role}
    (hs : RoleStep (Move rules) Activity.initial (service rules).restart rs w rs' w') (hok : Timely j w w') :
    Concluded j rs' w' := by
  cases hs with
  | start a => exact fun i ph st hi => h i ph st (owns_start hi)
  | move hi hm => exact h.move hx.exclusive hx.holding hi hm hok
  | stutter => exact h
  | crash hk => cases hk

end Invariant

theorem served_reaches {rules : Rules} {ok : World → World → Prop} (Inv : List Role → World → Prop)
    (hinv : ∀ rs w rs' w', Served rules rs w → Inv rs w → ok w w' →
      RoleStep (Move rules) Activity.initial (service rules).restart rs w rs' w' → Inv rs' w')
    {c d : Pool Activity Site World PyError} (h : (service rules).Reaches ok c d) {rs : List Role}
    (hexp : Explained rules c rs) (hs : Served rules rs c.shared) (hi : Inv rs c.shared) :
    ∃ rs', Explained rules d rs' ∧ Served rules rs' d.shared ∧ Inv rs' d.shared :=
  h.invariant (Activity.follows rules) suits_initial (fun _ _ _ _ _ => Suits.move)
    (fun rs w (hi : Served rules rs w ∧ Inv rs w) => hi.1.exclusive.good)
    (fun _ _ _ _ hi hok hs => ⟨hi.1.step hs, hinv _ _ _ _ hi.1 hi.2 hok hs⟩) hexp ⟨hs, hi⟩

theorem service_served (rules : Rules) {ok : World → World → Prop} {c : Pool Activity Site World PyError}
    (h : (service rules).Reaches ok ⟨World.empty, []⟩ c) :
    ∃ rs, Explained rules c rs ∧ Served rules rs c.shared := by
  obtain ⟨rs, hexp, hs, -⟩ := served_reaches (fun _ _ => True) (fun _ _ _ _ _ _ _ _ => trivial) h .nil
    (served_empty rules) trivial
  exact ⟨rs, hexp, hs⟩

/-- Once a job is cancelled it never returns to the queue and is never claimed
again. If no claim of it is in progress it stays cancelled, unreviewed and
unposted for ever; otherwise it ends with a terminal status when that claim does. -/
theorem cancelled_for_good (rules : Rules) {d e : Pool Activity Site World PyError} {j : ℕ}
    (hd : (service rules).Reaches (fun _ _ => True) ⟨World.empty, []⟩ d)
    (hj : d.shared.jobStatus j = some .cancelled) (he : (service rules).Reaches (fun _ _ => True) d e) :
    Left j (d.shared.claims.count j) e.shared ∧
      (¬ InProgress d.shared j → e.shared.jobStatus j = some .cancelled ∧
        e.shared.reviews.count j = d.shared.reviews.count j ∧ notesOf e.shared j = notesOf d.shared j) ∧
      (rules.mayFail .cleanup = false → ¬ InProgress e.shared j →
        ∃ st ∈ [JobStatus.cancelled, .done, .failed], e.shared.jobStatus j = some st) := by
  obtain ⟨rs, hexp, hs⟩ := service_served rules hd
  have hnobody : ∀ {rs w}, Served rules rs w → ¬ InProgress w j → ∀ i ph, ¬ Owns rs i j ph :=
    fun hs hp i ph hi => hp ⟨(hs.exclusive.owned i j ph hi).1, hs.holding.owned i j ph hi⟩
  obtain ⟨rs', -, hs', hleft⟩ := served_reaches (fun _ w => Left j (d.shared.claims.count j) w)
    (fun _ _ _ _ hs hi _ hstep => hi.step hs hstep) he hexp hs
    ⟨⟨.cancelled, hj, by decide, by decide⟩, rfl⟩
  refine ⟨hleft, fun hp => ?_, fun hf hp => ?_⟩
  · obtain ⟨rs'', -, -, hr⟩ := served_reaches
      (Retired j (d.shared.reviews.count j) (notesOf d.shared j))
      (fun _ _ _ _ hs hi _ hstep => hi.step hs hstep) he hexp hs
      ⟨fun i ph hi => absurd hi (hnobody hs hp i ph), hj, rfl, rfl⟩
    exact ⟨hr.status, hr.reviews, hr.notes⟩
  · obtain ⟨st, hst, hq, hc⟩ := hleft.status
    have hrest : st.inFlight = false := by
      by_contra hin
      obtain ⟨i, ph, hi, -⟩ := (hs'.settling hf).inflight j st hst (by simpa using hin)
      exact hnobody hs' hp i ph hi
    refine ⟨st, ?_, hst⟩
    cases st with
    | queued => exact absurd rfl hq
    | claimed => cases hrest
    | running => cases hrest
    | _ => simp

/-- If each commit that cancels the job lands while nobody works on it or after
its worker has stored an outcome, a committed cancel is final. -/
theorem cancel_final (rules : Rules) {d e : Pool Activity Site World PyError} {j : ℕ}
    (hd : (service rules).Reaches (Timely j) ⟨World.empty, []⟩ d) (hj : d.shared.jobStatus j = some .cancelled)
    (he : (service rules).Reaches (fun _ _ => True) d e) :
    e.shared.jobStatus j = some .cancelled ∧ e.shared.reviews.count j = d.shared.reviews.count j ∧
      notesOf e.shared j = notesOf d.shared j := by
  obtain ⟨rs, hexp, hs, hover⟩ := served_reaches (Concluded j)
    (fun _ _ _ _ hs hi hok hstep => hi.step hs hstep hok) hd .nil (served_empty rules)
    (fun _ _ _ hi => by cases hi)
  obtain ⟨rs', -, -, hr⟩ := served_reaches (Retired j (d.shared.reviews.count j) (notesOf d.shared j))
    (fun _ _ _ _ hs hi _ hstep => hi.step hs hstep) he hexp hs
    ⟨fun i ph hi => hover i ph .cancelled hi hj rfl, hj, rfl, rfl⟩
  exact ⟨hr.status, hr.reviews, hr.notes⟩

/-- The request reads the running job, the worker stores its outcome, and the cancel commits after it. -/
def cancelTooLate : List (Choice Activity) :=
  [.start (.request (.enqueue plainRequest)), .advance 0, .advance 0, .start (.pump 1)] ++
    List.replicate 5 (.advance 1) ++ [.start (.request (.cancelInflight 1 5)), .advance 2] ++
    List.replicate 5 (.advance 1) ++ List.replicate 2 (.advance 2)

theorem cancel_final_late :
    ∃ d e, (service (quickRules .sqlite)).Reaches (fun _ _ => True) d e ∧
      InProgress d.shared 1 ∧ ¬ InProgress e.shared 1 ∧ e.shared.jobStatus 1 = some .cancelled ∧
      e.shared.reviews.count 1 = 1 ∧ (notesOf e.shared 1).length = 1 := by
  obtain ⟨d, hd, hp⟩ := System.exists_of_exec (service (quickRules .sqlite)) (Timely 1) ⟨World.empty, []⟩
    cancelTooLate (fun d => decide (d.shared.jobStatus 1 = some .cancelled ∧ InProgress d.shared 1 ∧
      d.shared.reviews.count 1 = 1 ∧ (notesOf d.shared 1).length = 1) &&
      ((service (quickRules .sqlite)).exec (fun _ _ => True) d
        (List.replicate 3 (.advance 1) ++ [.start (.pump 6), .advance 3])).any
          fun e => decide ¬ InProgress e.shared 1) (by decide)
  rw [Bool.and_eq_true, decide_eq_true_eq] at hp
  obtain ⟨⟨hst, hin, hr, hn⟩, hcont⟩ := hp
  obtain ⟨e, he, hq⟩ := System.exists_of_exec (service (quickRules .sqlite)) (fun _ _ => True) d _ _ hcont
  obtain ⟨hst', hr', hn'⟩ := cancel_final (quickRules .sqlite) hd hst he
  exact ⟨d, e, he, hin, of_decide_eq_true hq, hst', hr'.trans hr, by rw [hn', hn]⟩

/-- The worker has loaded its rows when the user cancels the claimed job. -/
def cancelUnderWay : List (Choice Activity) :=
  [.start (.request (.enqueue plainRequest)), .advance 0, .advance 0, .start (.pump 1)] ++
    List.replicate 5 (.advance 1) ++ [.start (.request (.cancelInflight 1 5))] ++ List.replicate 3 (.advance 2)

/-- A cancel that comes while a worker holds the job is overwritten: the review
is started and posted after it, and the job ends as done. -/
theorem cancel_overwritten :
    ∃ d e, (service (quickRules .sqlite)).Reaches (fun _ _ => True) ⟨World.empty, []⟩ d ∧
      d.shared.jobStatus 1 = some .cancelled ∧ (service (quickRules .sqlite)).Reaches (fun _ _ => True) d e ∧
      e.shared.jobStatus 1 = some .done ∧
      (d.shared.reviews = [] ∧ e.shared.reviews = [1]) ∧ (notesOf d.shared 1 = [] ∧ notesOf e.shared 1 ≠ []) := by
  obtain ⟨d, e, hd, hp, he, hq⟩ := System.exists_of_exec_exec (service (quickRules .sqlite)) (fun _ _ => True)
    ⟨World.empty, []⟩ cancelUnderWay (List.replicate 7 (.advance 1))
    (fun d => decide (d.shared.jobStatus 1 = some .cancelled ∧ d.shared.reviews = [] ∧ notesOf d.shared 1 = []))
    (fun e => decide (e.shared.jobStatus 1 = some .done ∧ e.shared.reviews = [1] ∧ notesOf e.shared 1 ≠ []))
    (by decide)
  obtain ⟨hst, hr, hn⟩ := of_decide_eq_true hp
  obtain ⟨hst', hr', hn'⟩ := of_decide_eq_true hq
  exact ⟨d, e, hd, hst, he, hst', ⟨hr, hr'⟩, hn, hn'⟩

end GitlabReviewer.Lifecycle
