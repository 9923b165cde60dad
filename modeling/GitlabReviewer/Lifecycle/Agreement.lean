import GitlabReviewer.Lifecycle.Cancel

/-! # Job and run tell the same story

Two sessions write the two rows of a job from their own snapshots: the worker
and a cancel. The stored rows agree at the end of every execution in which no
cancel slips between the worker's load of a run that then succeeds and its final
commit, and none hits a finished run without having read it.
-/
namespace GitlabReviewer.Lifecycle
open Python Foundation Models Scheduling Reviews

/-- No step raises. -/
def calmRules (dialect : Dialect) (answers : ℕ → Execution) : Rules where
  dialect := dialect
  answers := answers
  mayFail _ := false
  outside := rfl

/-- The status of a job agrees with its run. -/
structure Agree (job : JobStatus) (run : Verdict) : Prop where
  done : job = .done ↔ run.status = .success
  failed : job = .failed → run.status = .error ∨ run.status = .timeout
  cancelled : job = .cancelled → run.status = .error
  success : run.status = .success → run.exitCode = some 0 ∧ run.errorMessage = none

/-- A step that is not one of the two harmful cancels. The first one writes its
message on a run that its worker has loaded and is going to finish with success;
the second one cancels a job whose run has ended in the meantime, and leaves the
run as it is. -/
structure Undisturbed (answers : ℕ → Execution) (w w' : World) : Prop where
  loaded : ∀ run ∈ w.runs, ∀ run' ∈ w'.runs, run'.id = run.id → run.id ∈ w.opened →
    run.errorMessage ≠ some cancelledByUser → run'.errorMessage = some cancelledByUser →
      run.status = .success ∨ outcomeStatus (answers run.id).outcome ≠ .success
  finished : ∀ run ∈ w.runs, run.status = .success ∨ run.status = .timeout →
    w.jobStatus run.scheduledJobId ≠ some .cancelled → w'.jobStatus run.scheduledJobId = some .cancelled →
      w'.verdict run.id ≠ some run.verdict

set_option synthInstance.maxSize 400 in
instance (answers : ℕ → Execution) : DecidableRel (Undisturbed answers) := fun _ _ =>
  decidable_of_iff (_ ∧ _) ⟨fun h => ⟨h.1, h.2⟩, fun h => ⟨h.loaded, h.finished⟩⟩

/-- What the owner of a job knows about the stored run, by phase. -/
def Story (answers : ℕ → Execution) (w : World) : Phase → Prop
  | .created r => ∀ v, w.verdict r = some v → v.exitCode = none ∧ (v.status = .running ∨ v.status = .error)
  | .opened run => Loaded run
  | .loaded run _ => Loaded run
  | .active run => Loaded run
  | .reviewed run => Loaded run
  | .crashRead _ _ => False
  | .crashLoaded _ _ _ => False
  | _ => True
where
  Loaded (run : ReviewRun) : Prop := run.id ∈ w.opened ∧ run.exitCode = none ∧
    ∀ v, w.verdict run.id = some v → (v.status = .running ∨ v.status = .error) ∧
      (outcomeStatus (answers run.id).outcome = .success → run.errorMessage = none → v.errorMessage = none)

structure Agreeing (answers : ℕ → Execution) (rs : List Role) (w : World) : Prop where
  story : ∀ i j ph, Owns rs i j ph → Story answers w ph
  resting : ∀ r v, w.verdict r = some v → (∀ i ph, Owns rs i v.jobId ph → ph.unsettled = false) →
    ∀ st, w.jobStatus v.jobId = some st → Agree st v
  cancelling : ∀ (i : ℕ) job run, rs[i]? = some (Role.cancelling job (some run)) → RunOf w job.id run.id

section Invariant
variable {rules : Rules} {rs : List Role} {w w' : World}

/-- The verdict of a run after a cancel has finalized it. -/
structure CancelsRun (v v' : Verdict) : Prop where
  jobId : v'.jobId = v.jobId
  status : v'.status = .error
  exitCode : v'.exitCode = v.exitCode
  message : v'.errorMessage = some cancelledByUser ∨ v'.errorMessage = v.errorMessage

/-- The commit of a cancel of job `k`. -/
structure Cancels (k : ℕ) (w w' : World) : Prop where
  status : w'.jobStatus k = none ∨ w'.jobStatus k = some .cancelled
  others : ∀ l, l ≠ k → w'.jobStatus l = w.jobStatus l
  verdict : ∀ q v', w'.verdict q = some v' →
    ∃ v, w.verdict q = some v ∧ (v' = v ∨ v.jobId = k ∧ CancelsRun v v')
  opened : w'.opened = w.opened

theorem cancels_of_commits {job : ScheduledJob} {run : Option ReviewRun} {now : Timestamp}
    (hs : job.status ≠ .cancelled) (hr : ∀ row ∈ run, row.status = .running)
    (hof : ∀ row ∈ run, RunOf w job.id row.id)
    (hc : Commits [setStatus .cancelled now (Tracked.load job)]
      (run.map (cancelledRun now ∘ Tracked.load)).toList w w') : Cancels job.id w w' := by
  refine ⟨?_, fun l hl => ?_, fun q v' hv' => ?_, by rw [hc.stored]; rfl⟩
  · rw [hc.jobStatus, held_single (i := job.id) rfl]
    cases w.jobStatus job.id with
    | none => exact .inl rfl
    | some st =>
      refine .inr ?_
      rw [Option.map_some, writtenStatus_some, written_of_ne]
      · rfl
      · exact hs.symm
  · rw [hc.jobStatus, held_single_ne (i := l) (fun he => hl he.symm)]
    exact congrFun Option.map_id _
  · rw [hc.verdict] at hv'
    obtain ⟨v, hv, rfl⟩ := Option.map_eq_some_iff.mp hv'
    refine ⟨v, hv, ?_⟩
    cases hheld : held (run.map (cancelledRun now ∘ Tracked.load)).toList q with
    | none => exact .inl rfl
    | some u =>
      obtain ⟨hmem, hid⟩ := held_mem hheld
      obtain ⟨row, hrow, rfl⟩ := Option.map_eq_some_iff.mp (Option.mem_toList.mp hmem)
      obtain rfl : row.id = q := hid
      have hrun := hr row hrow
      refine .inr ⟨(hof row hrow).jobId hv, ?_⟩
      rw [writtenVerdict_some]
      refine ⟨written_self _ _, ?_, written_self _ _, ?_⟩
      · show written row.status .error v.status = .error
        rw [hrun]
        exact written_of_ne (by decide) _
      · rcases written_eq_or row.errorMessage (some cancelledByUser) v.errorMessage with ⟨-, he⟩ | ⟨-, he⟩
        · exact .inr he
        · exact .inl he

theorem RunOf.of_verdict {j r : ℕ} (h : RunOf w j r) (hv : w'.verdict r = w.verdict r) : RunOf w' j r := by
  obtain ⟨v, hw, hj⟩ := h
  exact ⟨v, hv.trans hw, hj⟩

theorem Exclusive.runOf (hx : Exclusive rules rs w) {i j q : ℕ} {r r' : Role} (hi : rs[i]? = some r)
    (hm : Move rules r w r' w') (h : RunOf w j q) : RunOf w' j q := by
  rcases hm.tame with ht | ⟨ht, -⟩
  · cases ht with
    | claimLocked now =>
      obtain ⟨-, hs, hq, -⟩ := hx.locks i _ hi
      exact h.of_verdict (by rw [World.verdict, World.run?, (takes_claimLocked hs hq now).runs]; rfl)
    | create job now =>
      obtain ⟨run, hrun, hj⟩ := h.run?
      refine ⟨run.verdict, ?_, hj⟩
      rw [World.verdict, run?_insertRun, hrun]
      rfl
    | _ => exact h
  · obtain ⟨v, hv, hj⟩ := h
    have hjob := ht.runJobs q
    rw [hv, Option.map_some] at hjob
    obtain ⟨v', hv', he⟩ := Option.map_eq_some_iff.mp hjob
    exact ⟨v', hv', he.trans hj⟩

theorem Story.foreign {answers : ℕ → Execution} {ph : Phase} (h : Story answers w ph)
    (hopened : ∀ r ∈ w.opened, r ∈ w'.opened)
    (hv : ∀ r v', ph.runId = some r → w'.verdict r = some v' →
      ∃ v, w.verdict r = some v ∧ (v' = v ∨ CancelsRun v v'))
    (hok : Undisturbed answers w w') : Story answers w' ph := by
  have hloaded : ∀ run : ReviewRun, ph.runId = some run.id → Story.Loaded answers w run →
      Story.Loaded answers w' run := by
    rintro run hrun ⟨hin, hexit, hstory⟩
    refine ⟨hopened _ hin, hexit, fun v' hv' => ?_⟩
    obtain ⟨v, hvw, rfl | hcancel⟩ := hv run.id v' hrun hv'
    · exact hstory v' hvw
    · obtain ⟨hst, hmsg⟩ := hstory v hvw
      refine ⟨.inr hcancel.status, fun hout hnone => ?_⟩
      have hv₀ := hmsg hout hnone
      rcases hcancel.message with he | he
      · obtain ⟨old, hold, rfl⟩ := Option.map_eq_some_iff.mp hvw
        obtain ⟨new, hnew, rfl⟩ := Option.map_eq_some_iff.mp hv'
        have hid := run?_id hold
        have hlate := hok.loaded old (run?_mem hold) new (run?_mem hnew) ((run?_id hnew).trans hid.symm)
          (hid.symm ▸ hin) (by simp [show old.errorMessage = none from hv₀]) he
        rw [hid] at hlate
        rcases hlate with (hs : old.verdict.status = .success) | hs
        · rcases hst with hr | hr <;> rw [hr] at hs <;> cases hs
        · exact absurd hout hs
      · exact he.trans hv₀
  cases ph with
  | created r =>
    intro v' hv'
    obtain ⟨v, hvw, rfl | hcancel⟩ := hv r v' rfl hv'
    · exact h v' hvw
    · exact ⟨hcancel.exitCode.trans (h v hvw).1, .inr hcancel.status⟩
  | opened run => exact hloaded run rfl h
  | loaded run job => exact hloaded run rfl h
  | active run => exact hloaded run rfl h
  | reviewed run => exact hloaded run rfl h
  | crashRead => exact h
  | crashLoaded => exact h
  | _ => trivial

theorem Agreeing.cancel {answers : ℕ → Execution} {rs' : List Role} {k : ℕ} (h : Agreeing answers rs w)
    (hs : Settling rs w) (hc : Cancels k w w') (hok : Undisturbed answers w w')
    (hown : ∀ i j ph, Owns rs' i j ph ↔ Owns rs i j ph)
    (hcan : ∀ (i : ℕ) job run, rs'[i]? = some (Role.cancelling job (some run)) → RunOf w' job.id run.id) :
    Agreeing answers rs' w' := by
  refine ⟨fun i j ph hi => ?_, fun q v' hv' hset st hst => ?_, hcan⟩
  · refine (h.story i j ph ((hown i j ph).mp hi)).foreign (fun r hr => hc.opened ▸ hr) (fun r v' _ hv' => ?_) hok
    obtain ⟨v, hv, he⟩ := hc.verdict r v' hv'
    exact ⟨v, hv, he.imp id And.right⟩
  · obtain ⟨v, hv, he⟩ := hc.verdict q v' hv'
    have hjob : v'.jobId = v.jobId := he.elim (congrArg _) fun he => he.2.jobId
    rw [hjob] at hset hst
    have hset₀ : ∀ i ph, Owns rs i v.jobId ph → ph.unsettled = false :=
      fun i ph hi => hset i ph ((hown i _ ph).mpr hi)
    by_cases hk : v.jobId = k
    · obtain rfl : st = .cancelled := by
        rcases hc.status with hnone | hcancelled
        · rw [hk, hnone] at hst
          cases hst
        · rw [hk, hcancelled] at hst
          exact (Option.some.inj hst).symm
      have herror : v'.status = .error := by
        rcases he with rfl | ⟨-, hcancel⟩
        · have hnot : v'.status ≠ .running := fun hrun => by
            obtain ⟨i, ph, hi, hu⟩ := hs.running q v' hv hrun
            rw [hset₀ i ph hi] at hu
            cases hu
          by_cases hwas : w.jobStatus v'.jobId = some .cancelled
          · exact (h.resting q v' hv hset₀ _ hwas).cancelled rfl
          · obtain ⟨row, hrow, rfl⟩ := Option.map_eq_some_iff.mp hv
            have hfin := hok.finished row (run?_mem hrow)
            rw [run?_id hrow] at hfin
            cases hrun : row.verdict.status with
            | error => rfl
            | running => exact absurd hrun hnot
            | success => exact absurd hv' (hfin (.inl hrun) hwas hst)
            | timeout => exact absurd hv' (hfin (.inr hrun) hwas hst)
        · exact hcancel.status
      refine ⟨by simp [herror], by simp, fun _ => herror, fun hsucc => ?_⟩
      rw [herror] at hsucc
      cases hsucc
    · rcases he with rfl | ⟨hjk, -⟩
      · exact h.resting q v' hv hset₀ st (hc.others _ hk ▸ hst)
      · exact absurd hjk hk

/-- All runs of job `j` agree with it. -/
def Settled (w : World) (j : ℕ) : Prop :=
  ∀ q v, w.verdict q = some v → v.jobId = j → ∀ st, w.jobStatus j = some st → Agree st v

theorem Agreeing.own {answers : ℕ → Execution} (h : Agreeing answers rs w)
    (hs : Settling rs w) {i j : ℕ} {r r' : Role} (hi : rs[i]? = some r)
    (hr : r.isOwner = false ∨ ∃ ph, r = .owner j ph) (ho : Own j w w')
    (hopened : ∀ q ∈ w.opened, q ∈ w'.opened) (hothers : ∀ k ph, k ≠ i → ¬ Owns rs k j ph)
    (hr' : (∃ ph', r' = .owner j ph' ∧ Story answers w' ph' ∧ (ph'.unsettled = true ∨ Settled w' j)) ∨
      r' = .idle ∧ Settled w' j)
    (hok : Undisturbed answers w w') (hrun : ∀ l q, RunOf w l q → RunOf w' l q) :
    Agreeing answers (rs.set i r') w' := by
  have hilt : i < rs.length := (List.getElem?_eq_some_iff.mp hi).1
  have hself : (rs.set i r')[i]? = some r' := List.getElem?_set_self hilt
  have hne : ∀ k l ph, l ≠ j → Owns rs k l ph → k ≠ i := by
    rintro k l ph hl hk rfl
    obtain rfl := Option.some.inj (hi.symm.trans hk)
    rcases hr with hr | ⟨ph₀, hr⟩
    · cases hr
    · cases hr
      exact hl rfl
  refine ⟨fun k l ph hk => ?_, fun q v hv hset st hst => ?_, fun k job run hk => ?_⟩
  · rcases getElem?_set_cases hk with ⟨-, he⟩ | ⟨hki, hk⟩
    · rcases hr' with ⟨ph', rfl, hstory, -⟩ | ⟨rfl, -⟩
      · cases he
        exact hstory
      · cases he
    · have hlj : l ≠ j := fun hlj => hothers k ph hki (hlj ▸ hk)
      refine (h.story k l ph hk).foreign hopened (fun q v' hq hv' => ?_) hok
      obtain ⟨v, hv, hvl⟩ := phaseOk_runOf (hs.phases k l ph hk) hq
      have hv₁ := (ho.verdict q v (hvl ▸ hlj)).mpr hv
      obtain rfl := Option.some.inj (hv₁.symm.trans hv')
      exact ⟨v, hv, .inl rfl⟩
  · by_cases hvj : v.jobId = j
    · have hall : Settled w' j := by
        rcases hr' with ⟨ph', rfl, -, hu | hall⟩ | ⟨-, hall⟩
        · rw [hset i ph' (hvj ▸ hself)] at hu
          cases hu
        · exact hall
        · exact hall
      exact hall q v hv hvj st (hvj ▸ hst)
    · refine h.resting q v ((ho.verdict q v hvj).mp hv) (fun k ph hk => ?_) st (ho.status _ hvj ▸ hst)
      exact hset k ph (owns_set_ne (hne k _ ph hvj hk) hk)
  · rcases getElem?_set_cases hk with ⟨-, he⟩ | ⟨-, hk⟩
    · rcases hr' with ⟨ph', rfl, -⟩ | ⟨rfl, -⟩ <;> cases he
    · exact hrun _ _ (h.cancelling k job run hk)

/-- A step that touches no row an owner relies on. -/
theorem Agreeing.still {answers : ℕ → Execution} {rs' : List Role} (h : Agreeing answers rs w)
    (hx : Exclusive rules rs w) (hstatus : ∀ j, w'.jobStatus j = w.jobStatus j ∨ w.jobStatus j = none)
    (hverdict : ∀ r, w'.verdict r = w.verdict r) (hopened : w'.opened = w.opened)
    (hok : Undisturbed answers w w') (hown : ∀ i j ph, Owns rs' i j ph ↔ Owns rs i j ph)
    (hcan : ∀ (i : ℕ) job run, rs'[i]? = some (Role.cancelling job (some run)) → RunOf w' job.id run.id) :
    Agreeing answers rs' w' := by
  refine ⟨fun i j ph hi => ?_, fun q v hv hset st hst => ?_, hcan⟩
  · refine (h.story i j ph ((hown i j ph).mp hi)).foreign (fun r hr => hopened ▸ hr) (fun r v' _ hv' => ?_) hok
    exact ⟨v', hverdict r ▸ hv', .inl rfl⟩
  · have hv₀ : w.verdict q = some v := hverdict q ▸ hv
    refine h.resting q v hv₀ (fun i ph hi => hset i ph ((hown i _ ph).mpr hi)) st ?_
    rcases hstatus v.jobId with he | he
    · exact he ▸ hst
    · obtain ⟨st₀, hst₀, -⟩ := hx.taken _ (hx.runsClaimed q v hv₀)
      rw [he] at hst₀
      cases hst₀

theorem settled_of_no_runs {j : ℕ} (h : ∀ r v, w.verdict r = some v → v.jobId ≠ j) : Settled w j :=
  fun q v hv hj => absurd hj (h q v hv)

theorem story_opened {answers : ℕ → Execution} {r : ℕ} {run : ReviewRun} (h : Story answers w (.created r))
    (hr : w.run? r = some run) : Story answers { w with opened := r :: w.opened } (.opened run) := by
  obtain rfl := run?_id hr
  have hv := verdict_of hr
  obtain ⟨hexit, hst⟩ := h _ hv
  refine ⟨List.mem_cons_self, hexit, fun v hv' => ?_⟩
  obtain rfl := Option.some.inj (hv.symm.trans hv')
  exact ⟨hst, fun _ hnone => hnone⟩

theorem story_started {answers : ℕ → Execution} {run : ReviewRun} {job : ScheduledJob}
    (h : Story answers w (.loaded run job)) {jobs : List (Tracked ScheduledJob)}
    (hc : Commits jobs [started (answers run.id) (Tracked.load run)] w w') : Story answers w' (.active run) := by
  obtain ⟨hin, hexit, hstory⟩ := h
  refine ⟨by rw [hc.stored]; exact hin, hexit, fun v' hv' => ?_⟩
  rw [hc.verdict, held_single (i := run.id) rfl] at hv'
  obtain ⟨v, hv, rfl⟩ := Option.map_eq_some_iff.mp hv'
  obtain ⟨hst, hmsg⟩ := hstory v hv
  refine ⟨?_, fun hout hnone => ?_⟩
  · show written run.status .running v.status = .running ∨ written run.status .running v.status = .error
    rcases written_eq_or run.status .running v.status with ⟨-, he⟩ | ⟨-, he⟩ <;> rw [he]
    · exact hst
    · exact .inl rfl
  · show written run.errorMessage run.errorMessage v.errorMessage = none
    rw [written_self]
    exact hmsg hout hnone

/-- The final commit of a worker. -/
theorem settled_finish {answers : ℕ → Execution} (hx : Exclusive rules rs w)
    (hans : ∀ r, FromPodman (answers r).answer) {j : ℕ} {run : ReviewRun} {t : Tracked ScheduledJob}
    {u : Tracked ReviewRun} (hstory : Story.Loaded answers w run) (hf : Finalizes (answers run.id) j run t u)
    (hr : RunOf w j run.id) (hc : Commits [t] [u] w w') : Settled w' j := by
  obtain ⟨-, hexit, hstory⟩ := hstory
  intro q v' hv' hj st hst
  have hkeep : u.mem.scheduledJobId = u.base.scheduledJobId :=
    (congrArg Verdict.jobId hf.runMem).trans (congrArg Verdict.jobId hf.runBase).symm
  have hjob : ∀ v, (writtenVerdict (held [u] q) v).jobId = v.jobId :=
    writtenVerdict_jobId (by simpa using hkeep) q
  obtain ⟨v₁, hv₁, hj₁⟩ := hr
  rw [hc.verdict] at hv'
  obtain ⟨v, hv, rfl⟩ := Option.map_eq_some_iff.mp hv'
  obtain rfl := hx.oneRun q run.id v v₁ hv hv₁ ((hjob v).symm.trans (hj.trans hj₁.symm))
  rw [hc.jobStatus, held_single (i := j) hf.jobId] at hst
  obtain ⟨st₀, -, rfl⟩ := Option.map_eq_some_iff.mp hst
  rw [held_single (i := run.id) hf.runId, writtenVerdict_some, writtenStatus_some, hf.runBase, hf.runMem, hf.jobBase,
    hf.jobMem]
  have hstatus : (written RunStatus.running (outcomeStatus (answers run.id).outcome) v.status) =
      outcomeStatus (answers run.id).outcome := written_of_ne (outcomeStatus_ne_running _) _
  have hfinal : written JobStatus.running (finalJobStatus (outcomeStatus (answers run.id).outcome)) st₀ =
      finalJobStatus (outcomeStatus (answers run.id).outcome) := written_of_ne (fun he => by
    have hin := finalJobStatus_not_inFlight (outcomeStatus (answers run.id).outcome)
    rw [he] at hin
    cases hin) _
  rw [hfinal]
  refine ⟨?_, ?_, ?_, ?_⟩
  all_goals
    simp only [Verdict.merge, finalVerdict, hstatus]
  · cases outcomeStatus (answers run.id).outcome <;> simp [finalJobStatus]
  · cases hout : outcomeStatus (answers run.id).outcome with
    | running => exact absurd hout (outcomeStatus_ne_running _)
    | _ => simp [finalJobStatus]
  · cases outcomeStatus (answers run.id).outcome <;> simp [finalJobStatus]
  · intro hout
    refine ⟨?_, ?_⟩
    · rw [(outcomeStatus_success hout).2]
      exact written_of_ne (by simp [ReviewRun.verdict, hexit]) _
    · rw [error_none_of_success (hans run.id) hout]
      show written run.errorMessage none v.errorMessage = none
      rcases written_eq_or run.errorMessage none v.errorMessage with ⟨hnone, he⟩ | ⟨-, he⟩
      · rw [he]
        exact (hstory v hv).2 hout hnone.symm
      · exact he

theorem Agreeing.move {dialect : Dialect} {answers : ℕ → Execution} (h : Agreeing answers rs w)
    (hx : Exclusive (calmRules dialect answers) rs w) (hs : Settling rs w)
    (hans : ∀ r, FromPodman (answers r).answer) {i : ℕ} {r r' : Role} (hi : rs[i]? = some r)
    (hm : Move (calmRules dialect answers) r w r' w') (hok : Undisturbed answers w w') :
    Agreeing answers (rs.set i r') w' := by
  have hrun : ∀ l q, RunOf w l q → RunOf w' l q := fun l q hq => hx.runOf hi hm hq
  have hcan : (∀ job run, r' ≠ .cancelling job (some run)) → ∀ (k : ℕ) job run,
      (rs.set i r')[k]? = some (Role.cancelling job (some run)) → RunOf w' job.id run.id := by
    intro hr' k job run hk
    rcases getElem?_set_cases hk with ⟨-, he⟩ | ⟨-, hk⟩
    · exact absurd he.symm (hr' job run)
    · exact hrun _ _ (h.cancelling k job run hk)
  -- an owner that stays unsettled
  have hgo : ∀ {j ph ph'}, Owns rs i j ph → r' = .owner j ph' → Own j w w' → (∀ q ∈ w.opened, q ∈ w'.opened) →
      Story answers w' ph' → ph'.unsettled = true ∨ Settled w' j → Agreeing answers (rs.set i r') w' := by
    intro j ph ph' hi' hr' ho hop hstory hset
    exact h.own hs hi' (.inr ⟨ph, rfl⟩) ho hop (hx.alone hi') (.inl ⟨ph', hr', hstory, hset⟩) hok hrun
  have hclaim : ∀ {j}, r.isOwner = false → r' = .owner j .claimed → Takes j w w' → w'.opened = w.opened →
      Agreeing answers (rs.set i r') w' := by
    intro j hr hr' ht hop
    refine h.own hs hi (.inl hr) ht.own (fun q hq => hop ▸ hq) (fun k ph _ hk => ?_)
      (.inl ⟨.claimed, hr', trivial, .inl rfl⟩) hok hrun
    obtain ⟨st, hst, hne⟩ := hx.taken j (hx.owned k j ph hk).1
    exact hne (Option.some.inj (hst.symm.trans ht.queued))
  cases hm with
  | take ht =>
    cases ht with
    | lock =>
      exact h.still hx (fun _ => .inl rfl) (fun _ => rfl) rfl hok (fun _ _ _ => owns_set_other hi rfl rfl)
        (hcan (by simp))
    | unlock =>
      exact h.still hx (fun _ => .inl rfl) (fun _ => rfl) rfl hok (fun _ _ _ => owns_set_other hi rfl rfl)
        (hcan (by simp))
    | claimLocked now =>
      obtain ⟨-, hst, hq, -⟩ := hx.locks i _ hi
      exact hclaim rfl rfl (takes_claimLocked hst hq now) rfl
    | claimFirst now hd hc => exact hclaim rfl rfl (takes_claimRow hx.good hc now) rfl
    | create job now =>
      refine hgo hi rfl (own_insertRun job now) (fun _ hq => hq) (fun v hv => ?_) (.inl rfl)
      rw [World.verdict, run?_insertRun, run?_nextKey, Option.none_or, if_pos rfl] at hv
      obtain rfl := Option.some.inj hv
      exact ⟨rfl, .inl rfl⟩
    | review => exact hgo hi rfl (own_of_tables rfl rfl) (fun _ hq => hq) (h.story i _ _ hi) (.inl rfl)
  | quiet hq =>
    obtain ⟨hlt, rfl⟩ := List.getElem?_eq_some_iff.mp hi
    rw [List.set_getElem_self]
    exact h.still hx (fun j => (hq.status j).imp id And.left) hq.verdict hq.opened hok (fun _ _ _ => Iff.rfl)
      fun k job run hk => hrun _ _ (h.cancelling k job run hk)
  | lose hj => exact absurd (congrArg (Option.map ScheduledJob.status) hj) (hx.known hi)
  | abandonRead => exact hgo hi rfl (own_of_tables rfl rfl) (fun _ hq => hq) trivial (.inl rfl)
  | abandonSpare =>
    exact hgo hi rfl (own_of_tables rfl rfl) (fun _ hq => hq) trivial
      (.inr (settled_of_no_runs (hs.phases i _ _ hi).2))
  | abandon now _ hc =>
    refine hgo hi rfl (hs.ownCommits hi hc (by simp [setStatus]) (by simp) (by simp))
      (fun q hq => by rw [hc.stored]; exact hq) trivial (.inr (settled_of_no_runs fun q v hv => ?_))
    rw [hc.verdict] at hv
    exact hs.phases i _ _ hi q v ((congrFun Option.map_id _).symm.trans hv)
  | openRun hr =>
    exact hgo hi rfl (own_of_tables rfl rfl) (fun _ hq => List.mem_cons_of_mem _ hq)
      (story_opened (h.story i _ _ hi) hr) (.inl rfl)
  | openNone hr =>
    obtain ⟨run, hrun, -⟩ := RunOf.run? (hs.phases i _ _ hi)
    rw [hr] at hrun
    cases hrun
  | @loadJob _ _ run _ _ =>
    exact hgo hi rfl (own_of_tables rfl rfl) (fun _ hq => hq)
      (show Story.Loaded answers w run from h.story i _ _ hi) (.inl rfl)
  | loadNone hj => exact absurd (congrArg (Option.map ScheduledJob.status) hj) (hx.known hi)
  | start hc =>
    exact hgo hi rfl (hs.ownCommits hi hc (by simp [setStatus]) (by simp [started]) (by simp [started, Phase.runId]))
      (fun q hq => by rw [hc.stored]; exact hq) (story_started (h.story i _ _ hi) hc) (.inl rfl)
  | post => exact hgo hi rfl (own_of_tables rfl rfl) (fun _ hq => hq) (h.story i _ _ hi) (.inl rfl)
  | @finish _ _ j ph run t u hph hf hc =>
    have hid : ph.runId = some run.id := by rcases hph with rfl | rfl <;> rfl
    have hkeep : u.mem.scheduledJobId = u.base.scheduledJobId :=
      (congrArg Verdict.jobId hf.runMem).trans (congrArg Verdict.jobId hf.runBase).symm
    have hstory : Story.Loaded answers w run := by
      have hph' := h.story i j ph hi
      rcases hph with rfl | rfl <;> exact hph'
    exact hgo hi rfl
      (hs.ownCommits hi hc (by simpa using hf.jobId) (by simpa using hkeep) (by simpa [hf.runId] using hid))
      (fun q hq => by rw [hc.stored]; exact hq) trivial
      (.inr (settled_finish hx hans hstory hf (phaseOk_runOf (hs.phases i j ph hi) hid) hc))
  | crashRun hf => cases hf
  | crashJob => exact (h.story i _ _ hi).elim
  | crashCommit => exact (h.story i _ _ hi).elim
  | @release _ j ph hrel =>
    have hset : ph.unsettled = false := by
      rcases hrel with ⟨q, rfl⟩ | ⟨q, rfl⟩ | hf
      · rfl
      · exact (hs.phases i _ _ hi).elim
      · cases hf
    refine h.own hs hi (.inr ⟨ph, rfl⟩) (own_of_tables rfl rfl) (fun _ hq => hq) (hx.alone hi)
      (.inr ⟨rfl, fun q v hv hj st hst => ?_⟩) hok hrun
    refine h.resting q v hv (fun k ph' hk => ?_) st (hj ▸ hst)
    obtain rfl := hx.owners k i j ph' ph (hj ▸ hk) hi
    have he := Option.some.inj (hi.symm.trans (hj ▸ hk))
    cases he
    exact hset
  | readRunning job =>
    refine h.still hx (fun _ => .inl rfl) (fun _ => rfl) rfl hok (fun _ _ _ => owns_set_other hi rfl rfl)
      fun k job' run hk => ?_
    rcases getElem?_set_cases hk with ⟨-, he⟩ | ⟨-, hk⟩
    · obtain ⟨rfl, he⟩ := Role.cancelling.inj he
      obtain ⟨hmem, hjob, -⟩ := runningRun_spec he.symm
      exact ⟨run.verdict, verdict_of (run?_of_mem hx.good hmem), hjob⟩
    · exact h.cancelling k job' run hk
  | @cancelInflight _ _ job run now hst hr hc =>
    refine h.cancel hs (cancels_of_commits ?_ (fun row hrow => (hr row hrow).2) (fun row hrow => ?_) hc) hok
      (fun _ _ _ => owns_set_other hi rfl rfl) (hcan (by simp))
    · rintro he
      rw [he] at hst
      cases hst
    · obtain rfl : run = some row := hrow
      exact h.cancelling i job row hi
  | @cancelQueued _ _ job now hst hc =>
    refine h.cancel hs (cancels_of_commits (by simp [hst]) (by simp) (by simp)
      (show Commits _ (Option.map _ none).toList w w' from hc)) hok
      (fun _ _ _ => owns_set_other hi rfl rfl) (hcan (by simp))
  | recover => exact absurd hi (hs.noRecovery i)

theorem Agreeing.step {dialect : Dialect} {answers : ℕ → Execution} (h : Agreeing answers rs w)
    (hx : Served (calmRules dialect answers) rs w) (hans : ∀ r, FromPodman (answers r).answer) {rs' : List Role}
    (hm : RoleStep (Move (calmRules dialect answers)) Activity.initial (service (calmRules dialect answers)).restart
      rs w rs' w') (hok : Undisturbed answers w w') : Agreeing answers rs' w' := by
  cases hm with
  | start a =>
    refine ⟨fun i j ph hi => h.story i j ph (owns_start hi), fun q v hv hset => h.resting q v hv fun i ph hi => ?_,
      fun k job run hk => ?_⟩
    · refine hset i ph ?_
      rw [Owns, List.getElem?_append_left (List.getElem?_eq_some_iff.mp hi).1]
      exact hi
    · rcases getElem?_concat_cases hk with hk | he
      · exact h.cancelling k job run hk
      · cases a <;> cases he
  | move hi hm => exact h.move hx.exclusive (hx.settling rfl) hans hi hm hok
  | stutter => exact h
  | crash hk => cases hk

end Invariant

theorem agreeing_empty (answers : ℕ → Execution) : Agreeing answers [] World.empty :=
  ⟨fun _ _ _ h => by (cases h), fun _ _ h => by (cases h), fun _ _ _ h => by (cases h)⟩

/-- In every execution without a harmful cancel, whenever no worker is alive each
job that has a run agrees with it. -/
theorem job_and_run_agree (dialect : Dialect) (answers : ℕ → Execution) (hans : ∀ r, FromPodman (answers r).answer)
    {c : Pool Activity Site World PyError}
    (h : (service (calmRules dialect answers)).Reaches (Undisturbed answers) ⟨World.empty, []⟩ c)
    (hidle : ∀ t ∈ c.threads, ∀ now, t.op = .pump now → t.prog.Finished) :
    ∀ run ∈ c.shared.runs, ∀ job ∈ c.shared.jobs, job.id = run.scheduledJobId → Agree job.status run.verdict := by
  obtain ⟨rs, hexp, hs, ha⟩ := served_reaches (Agreeing answers)
    (fun _ _ _ _ hs hi hok hstep => hi.step hs hans hstep hok) h .nil (served_empty _) (agreeing_empty answers)
  intro run hrun job hjob hid
  have hv := verdict_of (run?_of_mem hs.exclusive.good hrun)
  refine ha.resting run.id run.verdict hv (fun i ph hi => ?_) job.status ?_
  · exact absurd hi (ended_not_owner rfl hexp (hs.settling rfl) hidle)
  · have hj := job?_of_mem hs.exclusive.good hjob
    rw [hid] at hj
    exact jobStatus_of hj

def quickAnswers (_ : ℕ) : Execution := quickReview

theorem fromPodman_quick (r : ℕ) : FromPodman (quickAnswers r).answer :=
  .inl ⟨"60".toList, .exited false 0 none (some "fine".toList) none, rfl⟩

/-- A job is claimed and its run is created. -/
def claimedJob : List (Choice Activity) :=
  [.start (.request (.enqueue plainRequest)), .advance 0, .advance 0, .start (.pump 1), .advance 1, .advance 1,
    .advance 1]

def cancelled (i : ℕ) : List (Choice Activity) :=
  .start (.request (.cancelInflight 1 5)) :: List.replicate 5 (.advance i)

/-- All that is left to do for the pump that claimed the job. -/
def workedOff (steps : ℕ) : List (Choice Activity) := List.replicate steps (.advance 1)

def jobAndRun (job : JobStatus) (run : Verdict) (c : Pool Activity Site World PyError) : Bool :=
  (c.threads.all fun t => decide t.prog.Finished) && decide (c.shared.jobs.map (fun j => (j.id, j.status)) = [(1, job)]) &&
    decide (c.shared.runs.map ReviewRun.verdict = [run])

/-- A cancel before the worker loads its rows does no harm. -/
theorem job_and_run_agree_early :
    ∃ c, (service (calmRules .sqlite quickAnswers)).Reaches (Undisturbed quickAnswers) ⟨World.empty, []⟩ c ∧
      jobAndRun .done ⟨1, .success, some 0, none⟩ c = true ∧
      ∀ run ∈ c.shared.runs, ∀ job ∈ c.shared.jobs, job.id = run.scheduledJobId → Agree job.status run.verdict := by
  obtain ⟨c, hreach, hp⟩ := System.exists_of_exec (service (calmRules .sqlite quickAnswers)) (Undisturbed quickAnswers)
    ⟨World.empty, []⟩ (claimedJob ++ cancelled 2 ++ workedOff 10) (jobAndRun .done ⟨1, .success, some 0, none⟩)
    (by decide)
  have hall : ∀ t ∈ c.threads, t.prog.Finished := by
    simp only [jobAndRun, Bool.and_eq_true, List.all_eq_true, decide_eq_true_eq] at hp
    exact hp.1.1
  exact ⟨c, hreach, hp, job_and_run_agree .sqlite quickAnswers fromPodman_quick hreach fun t ht _ _ => hall t ht⟩

/-- The two harmful cancels: one between the worker's load and its final commit,
which leaves its message on a successful run, and one that checks the job before
and reads the runs after the final commit, which cancels a job with a successful run. -/
theorem job_and_run_disagree :
    (∃ c, (service (calmRules .sqlite quickAnswers)).Reaches (fun _ _ => True) ⟨World.empty, []⟩ c ∧
      jobAndRun .done ⟨1, .success, some 0, some cancelledByUser⟩ c = true) ∧
    (∃ c, (service (calmRules .sqlite quickAnswers)).Reaches (fun _ _ => True) ⟨World.empty, []⟩ c ∧
      jobAndRun .cancelled ⟨1, .success, some 0, none⟩ c = true) ∧
    ¬ Agree .done ⟨1, .success, some 0, some cancelledByUser⟩ ∧ ¬ Agree .cancelled ⟨1, .success, some 0, none⟩ := by
  refine ⟨System.exists_of_exec _ _ _ (claimedJob ++ workedOff 1 ++ cancelled 2 ++ workedOff 9) _ (by decide),
    System.exists_of_exec _ _ _ (claimedJob ++ [.start (.request (.cancelInflight 1 5)), .advance 2] ++ workedOff 10 ++
      List.replicate 4 (.advance 2)) _ (by decide), fun h => ?_, fun h => ?_⟩
  · cases (h.success rfl).2
  · cases h.cancelled rfl

end GitlabReviewer.Lifecycle
