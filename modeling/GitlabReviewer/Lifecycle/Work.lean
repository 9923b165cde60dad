import GitlabReviewer.Lifecycle.Requests

/-! # The pump and the recovery follow the protocol

The program of one permit of the pump is walked through once: every step it can
take, in whatever state the others left the database, is a move of its role.
-/
namespace GitlabReviewer.Lifecycle
open Python Foundation Models Scheduling Reviews

section Follows
variable {α β : Type} {rules : Rules}

/-- A read, with what follows it for each value it can return. -/
theorem follows_select {site : Site} {query : World → α} {f : α → Tx β} {r : Role}
    {post : Except PyError β → Role → Prop}
    (hf : ∀ w, (f (query w)).Follows Good (Move rules) rules.mayFail r post)
    (hfail : rules.mayFail site = true → post (.error .database) r) :
    (select site query >>= f).Follows Good (Move rules) rules.mayFail r post :=
  .bind (.atomic (fun w _ _ => ⟨r, .quiet (Quiet.refl w), hf w⟩) hfail)

theorem follows_record {act : World → World} {f : Unit → Tx β} {r r' : Role}
    {post : Except PyError β → Role → Prop} (hm : ∀ w, Move rules r w r' (act w))
    (hf : (f ()).Follows Good (Move rules) rules.mayFail r' post) :
    (record act >>= f).Follows Good (Move rules) rules.mayFail r post :=
  .bind ⟨fun w _ _ => ⟨r', hm w, hf⟩, fun h => by rw [rules.outside] at h; cases h⟩

/-- The three ends of `claim_next`. -/
def ClaimedAs (rules : Rules) (x : Except PyError (Option ScheduledJob)) (r : Role) : Prop :=
  match x with
  | .ok (some job) => r = .owner job.id .claimed
  | .ok none => r = .idle ∨ ∃ j, r = .owner j (.vanished none)
  | .error _ => r = .idle ∨ rules.mayFail .reload = true

theorem follows_claimPostgres (hd : rules.dialect = .postgresql) (now : Timestamp) :
    (claimPostgres now).Follows Good (Move rules) rules.mayFail .idle (ClaimedAs rules) := by
  refine ⟨fun w _ _ => ?_, fun _ => .inl rfl⟩
  cases hl : lockable w with
  | none =>
    refine ⟨.idle, .quiet ?_, ?_⟩
    · rw [show lockRow w = w by simp only [lockRow, hl]]
      exact Quiet.refl w
    · simp only [hl]
      exact .inl rfl
  | some row =>
    refine ⟨.locking row, ?_, ?_⟩
    · rw [show lockRow w = { w with locked := row.id :: w.locked } by simp only [lockRow, hl]]
      exact .take (.lock hd hl)
    · simp only [hl]
      refine ⟨fun w' _ _ => ⟨_, .take (.claimLocked now), rfl⟩, fun _ => ⟨fun w' _ _ => ⟨_, .take .unlock, .inl rfl⟩, ?_⟩⟩
      intro h
      rw [rules.outside] at h
      cases h

/-- Primary keys make the row count of the guarded update one. -/
theorem claimedId_eq {w : World} (hw : Good w) {row : ScheduledJob} (h : claimable w = some row) :
    claimedId w = some row.id := by
  obtain ⟨hmem, -, hq⟩ := claimable_mem h
  have hpos : 0 < w.jobs.countP (claimedRow row.id) :=
    List.countP_pos_iff.mpr ⟨row, hmem, by simp [claimedRow, hq]⟩
  have hle : w.jobs.countP (claimedRow row.id) ≤ 1 := by
    calc w.jobs.countP (claimedRow row.id)
        ≤ w.jobs.countP (fun job => job.id == row.id) :=
          List.countP_mono_left fun job _ hj => by
            simp only [claimedRow, Bool.and_eq_true] at hj
            exact hj.1
      _ = (w.jobs.map (·.id)).count row.id := by rw [List.count, List.countP_map]; rfl
      _ ≤ 1 := List.nodup_iff_count_le_one.mp hw.jobIds row.id
  simp only [claimedId, h, Option.bind_some, ne_eq, ite_not]
  exact if_pos (by omega)

theorem follows_claimSqlite (hd : rules.dialect = .sqlite) (now : Timestamp) :
    (claimSqlite now).Follows Good (Move rules) rules.mayFail .idle (ClaimedAs rules) := by
  refine .bind (.atomic (fun w hw _ => ?_) fun _ => .inl rfl)
  cases hc : claimable w with
  | none =>
    refine ⟨.idle, .quiet ?_, ?_⟩
    · rw [show claimFirst now w = w by simp only [claimFirst, hc]]
      exact Quiet.refl w
    · simp only [claimedId, hc, Option.bind_none]
      exact .inl rfl
  | some row =>
    refine ⟨.owner row.id .claimed, ?_, ?_⟩
    · rw [show claimFirst now w = claimRow now row.id w by simp only [claimFirst, hc]]
      exact .take (.claimFirst now hd hc)
    · simp only [claimedId_eq hw hc]
      refine .bind (.atomic (fun w' _ _ => ?_) fun hf => .inr hf)
      cases hj : w'.job? row.id with
      | none => exact ⟨_, .lose hj, .inr ⟨row.id, rfl⟩⟩
      | some job =>
        refine ⟨_, .quiet (Quiet.refl w'), ?_⟩
        show Role.owner row.id .claimed = .owner job.id .claimed
        rw [job?_id hj]

theorem follows_claimNext (now : Timestamp) :
    (claimNext rules.dialect now).Follows Good (Move rules) rules.mayFail .idle (ClaimedAs rules) := by
  unfold claimNext
  split
  · exact follows_claimPostgres ‹_› now
  · exact follows_claimSqlite ‹_› now

/-- The owner is done with its job, or a failed cleanup left it unfinished. -/
def Released (rules : Rules) (ph : Phase) : Prop :=
  (∃ r, ph = .settled r) ∨ (∃ r, ph = .vanished r) ∨ rules.mayFail .cleanup = true

def EndsReleased (rules : Rules) (j : ℕ) (r : Role) : Prop := ∃ ph, r = .owner j ph ∧ Released rules ph

theorem follows_releasePermit {j : ℕ} {r : Role} (hr : EndsReleased rules j r) {f : Unit → Tx β}
    {post : Except PyError β → Role → Prop}
    (hf : (f ()).Follows Good (Move rules) rules.mayFail .idle post) :
    (releasePermit j >>= f).Follows Good (Move rules) rules.mayFail r post := by
  obtain ⟨ph, rfl, hph⟩ := hr
  exact follows_record (fun w => .release hph) hf

theorem follows_abandonClaim (j : ℕ) (now : Timestamp) :
    (abandonClaim j now).Follows Good (Move rules) rules.mayFail (.owner j .claimed)
      fun x r => x = .ok () ∧ EndsReleased rules j r := by
  have hkeep : ∀ ph, rules.mayFail .cleanup = true → EndsReleased rules j (.owner j ph) :=
    fun ph hf => ⟨ph, rfl, .inr (.inr hf)⟩
  refine .tryCatch (.bind (.atomic (fun w _ _ => ?_) fun hf => ⟨rfl, hkeep _ hf⟩))
  cases hj : w.job? j with
  | none =>
    exact ⟨_, .abandonSpare (by simp [hj]), rfl, _, rfl, .inl ⟨none, rfl⟩⟩
  | some row =>
    obtain rfl := job?_id hj
    by_cases hs : row.status = .claimed
    · refine ⟨_, .abandonRead hj hs, ?_⟩
      dsimp only [Option.map_some]
      rw [if_pos (show (Tracked.load row).mem.status = .claimed from hs)]
      refine .bind (follows_commit (by simp [setStatus]) keysKept_nil
        (fun w w' h => .abandon now hs h) ?_ fun hf => ⟨rfl, hkeep _ hf⟩)
      refine ((quiet_compactPositions _ (by simp [statusKept_committed])) rules _).mono fun x r hr => ?_
      subst hr
      cases x with
      | ok => exact ⟨rfl, _, rfl, .inl ⟨none, rfl⟩⟩
      | error => exact ⟨rfl, _, rfl, .inl ⟨none, rfl⟩⟩
    · refine ⟨_, .abandonSpare fun row' h => ?_, ?_⟩
      · obtain rfl : row = row' := Option.some.inj (hj.symm.trans h)
        exact hs
      · dsimp only [Option.map_some]
        rw [if_neg (show (Tracked.load row).mem.status ≠ .claimed from hs)]
        exact ⟨rfl, _, rfl, .inl ⟨none, rfl⟩⟩

/-- The ends of `_claim_and_create_run`. -/
def CreatedAs (rules : Rules) (x : Except PyError (Option (ℕ × ℕ))) (r : Role) : Prop :=
  match x with
  | .ok (some (j, runId)) => r = .owner j (.created runId)
  | .ok none => r = .idle ∨ ∃ j, r = .owner j (.vanished none)
  | .error _ => r = .idle ∨ rules.mayFail .reload = true

theorem follows_claimAndCreateRun (now : Timestamp) :
    (claimAndCreateRun rules.dialect now).Follows Good (Move rules) rules.mayFail .idle
      (CreatedAs rules) := by
  refine .bind ((follows_claimNext now).mono fun x r hx => ?_)
  match x, hx with
  | .error _, hx => exact hx
  | .ok none, hx => exact hx
  | .ok (some job), hx =>
    subst hx
    refine .tryCatch (.bind (.atomic (fun w _ _ => ⟨_, .take (.create job now), rfl⟩) fun _ => ?_))
    refine .bind ((follows_abandonClaim job.id now).mono fun x r hx => ?_)
    obtain ⟨rfl, hr⟩ := hx
    exact follows_releasePermit hr (.inl rfl)

theorem keysKept_failInFlight (now : Timestamp) (job : Option ScheduledJob) :
    KeysKept (job.map (failInFlight now ∘ Tracked.load)).toList := by
  cases job with
  | none => exact keysKept_nil
  | some job =>
    simp only [Option.map_some, Option.toList_some, Function.comp_apply, keysKept_cons, failInFlight]
    split <;> simp [setStatus]

theorem keysKept_crashedRun (now : Timestamp) (run : Option ReviewRun) :
    KeysKept (run.map (crashedRun now ∘ Tracked.load)).toList := by
  cases run with
  | none => exact keysKept_nil
  | some run =>
    simp only [Option.map_some, Option.toList_some, Function.comp_apply, keysKept_cons, crashedRun]
    split <;> simp

theorem follows_finalizeCrashedRun {j r : ℕ} {ph : Phase} (hf : rules.mayFail .execution = true)
    (hph : ph.runId = some r) (now : Timestamp) :
    (finalizeCrashedRun r j now).Follows Good (Move rules) rules.mayFail (.owner j ph)
      fun x r => x = .ok () ∧ EndsReleased rules j r := by
  have hkeep : ∀ ph, rules.mayFail .cleanup = true → EndsReleased rules j (.owner j ph) :=
    fun ph hf => ⟨ph, rfl, .inr (.inr hf)⟩
  refine .tryCatch (.bind (.atomic (fun w _ _ => ⟨_, .crashRun hf hph, ?_⟩) fun hf => ⟨rfl, hkeep _ hf⟩))
  refine .bind (.atomic (fun w' _ _ => ⟨_, .crashJob, ?_⟩) fun hf => ⟨rfl, hkeep _ hf⟩)
  dsimp only
  rw [Option.map_map, Option.map_map]
  refine .bind (follows_commit (keysKept_failInFlight now _) (keysKept_crashedRun now _)
    (fun _ _ h => .crashCommit now (fun row hrow => job?_id hrow) (fun row hrow => run?_id hrow) h) ?_
    fun hf => ⟨rfl, hkeep _ hf⟩)
  refine (quiet_compactPositions _ (fun t ht => ?_) rules _).mono fun x r' hr => ?_
  · obtain ⟨row, -, rfl⟩ := Option.map_eq_some_iff.mp (Option.mem_toList.mp ht)
    exact statusKept_committed
  · subst hr
    cases x with
    | ok => exact ⟨rfl, _, rfl, .inl ⟨some r, rfl⟩⟩
    | error => exact ⟨rfl, _, rfl, .inl ⟨some r, rfl⟩⟩

/-- A flush that fails is logged and forgotten. -/
theorem follows_flushLogInflight (runId : ℕ) (lines : List Text) (now last : ℤ) (r : Role) :
    (flushLogInflight runId lines now last).Follows Good (Move rules) rules.mayFail r
      fun x r' => r' = r ∧ ∃ last', x = .ok last' := by
  unfold flushLogInflight
  split
  · exact ⟨rfl, _, rfl⟩
  · refine .tryCatch (.mono ((QuietTx.select_bind fun w => ?_ : QuietTx _) rules r) fun x r' hr => ?_)
    · cases w.run? runId with
      | none => exact .ret _
      | some run =>
        exact .bind (.commit (by simp) (by simp) (by simp [ReviewRun.verdict])) fun _ => .ret _
    subst hr
    cases x with
    | ok last' => exact ⟨rfl, last', rfl⟩
    | error e => exact ⟨rfl, last, rfl⟩

theorem follows_streamLog (runId : ℕ) (secrets : List Text) (chunks : List LogChunk) (lines : List Text)
    (last : ℤ) (r : Role) :
    (streamLog runId secrets chunks lines last).Follows Good (Move rules) rules.mayFail r
      fun x r' => r' = r ∧ ∃ lines', x = .ok lines' := by
  induction chunks generalizing lines last with
  | nil => exact ⟨rfl, lines, rfl⟩
  | cons chunk chunks ih =>
    refine .bind ((follows_flushLogInflight _ _ _ _ r).mono fun x r' hx => ?_)
    obtain ⟨rfl, last', rfl⟩ := hx
    exact ih _ last'

/-- The worker's copy of its run between the first commit and the outcome. -/
structure Working (run : ReviewRun) (u : Tracked ReviewRun) : Prop where
  id : u.mem.id = run.id
  baseId : u.base.id = run.id
  base : u.base.verdict = { run.verdict with status := .running }
  jobId : u.mem.scheduledJobId = run.scheduledJobId

theorem follows_postToGitlab {ex : Execution} {outcome : RunOutcome} {mrIid : Option ℤ} {j : ℕ} {run : ReviewRun}
    {u : Tracked ReviewRun} :
    (postToGitlab ex outcome mrIid j u).Follows Good (Move rules) rules.mayFail (.owner j (.reviewed run))
      fun x r => r = .owner j (.reviewed run) ∧ ∃ u', x = .ok u' ∧ u'.base = u.base ∧
        u'.mem.id = u.mem.id ∧ u'.mem.verdict = u.mem.verdict := by
  unfold postToGitlab
  split
  · exact ⟨rfl, _, rfl, rfl, rfl, rfl⟩
  · split
    · exact follows_record (fun _ => .post rfl) ⟨rfl, _, rfl, rfl, rfl, rfl⟩
    · exact follows_record (fun _ => .post rfl) ⟨rfl, _, rfl, rfl, rfl, rfl⟩

/-- How the body of a worker ends: settled, or with an error that sends it to
the cleanup with its run known. -/
def WorkedAs (rules : Rules) (j r : ℕ) (x : Except PyError Unit) (role : Role) : Prop :=
  match x with
  | .ok _ => EndsReleased rules j role
  | .error _ => rules.mayFail .execution = true ∧ ∃ ph, role = .owner j ph ∧ ph.runId = some r

theorem follows_finalCommit {j : ℕ} {ph : Phase} {run : ReviewRun} {t : Tracked ScheduledJob}
    {u : Tracked ReviewRun} (hph : ph = .active run ∨ ph = .reviewed run) (hj : t.base.id = j)
    (hu : u.base.id = run.id) (hf : Finalizes (rules.answers run.id) j run t u) :
    (commit .execution [t] [u] >>= fun _ => compactPositions .execution [t.committed]).Follows Good
      (Move rules) rules.mayFail (.owner j ph) (WorkedAs rules j run.id) := by
  have hid : ph.runId = some run.id := by
    rcases hph with rfl | rfl <;> rfl
  refine .bind (follows_commit (by simp [hf.jobId, hj]) (by simp [hf.runId, hu])
    (fun w w' h => .finish hph hf h) ?_ fun h => ⟨h, _, rfl, hid⟩)
  unfold compactPositions
  refine follows_select (fun w => ?_) fun h => ⟨h, _, rfl, rfl⟩
  refine .atomic (fun w' _ hw => ⟨_, .quiet ?_, _, rfl, .inl ⟨_, rfl⟩⟩) fun h => ⟨h, _, rfl, rfl⟩
  have hkept : ∀ v ∈ renumber (instances [t.committed] (w.queuedRows .immediate)), StatusKept v :=
    fun v hv => statusKept_renumber (fun _ h => statusKept_instances (by simp [statusKept_committed]) h) hv
  exact quiet_of_commits ⟨rfl, hw, keysKept_of_statusKept hkept, keysKept_nil⟩
    (fun v hv => (hkept v hv).status) (by simp)

theorem follows_applyOutcome {j : ℕ} {ph : Phase} {run : ReviewRun} {t : Tracked ScheduledJob}
    {u : Tracked ReviewRun} {outcome : RunOutcome} {mrIid : Option ℤ}
    (hout : (rules.answers run.id).outcome = outcome)
    (hph : ph = .reviewed run ∨ ph = .active run ∧ outcomeStatus outcome ≠ .success)
    (hj : t.mem = t.base) (hid : t.base.id = j) (hs : t.base.status = .running) (hu : Working run u) :
    (applyOutcome (rules.answers run.id) mrIid u t outcome).Follows Good (Move rules) rules.mayFail
      (.owner j ph) (WorkedAs rules j run.id) := by
  have hfin : ∀ u' : Tracked ReviewRun, u'.base = u.base → u'.mem.id = u.mem.id →
      u'.mem.verdict = (withOutcome outcome (rules.answers run.id).finishedAt u).mem.verdict →
      Finalizes (rules.answers run.id) j run
        (setStatus (finalJobStatus (outcomeStatus outcome)) (rules.answers run.id).finishedAt t) u' := by
    intro u' hb hi hv
    refine ⟨?_, hs, ?_, hi.trans hu.id, hb ▸ hu.base, ?_⟩
    · show t.mem.id = j
      rw [hj, hid]
    · rw [hout]
      rfl
    · rw [hv, finalVerdict, hout, ← hu.jobId]
      rfl
  unfold applyOutcome
  dsimp only
  split
  · rename_i hpost
    rcases hph with rfl | ⟨rfl, hne⟩
    · have hjid : (setStatus (finalJobStatus (outcomeStatus outcome)) (rules.answers run.id).finishedAt
          t).mem.id = j := by
        rw [← hid, ← hj]
        rfl
      rw [hjid]
      refine .bind (follows_postToGitlab.mono fun x r hx => ?_)
      obtain ⟨rfl, u', rfl, hb, hi, hv⟩ := hx
      exact follows_finalCommit (.inr rfl) hid (hb ▸ hu.baseId) (hfin u' hb hi hv)
    · simp [hne] at hpost
  · refine follows_finalCommit ?_ hid hu.baseId
      (hfin (withOutcome outcome (rules.answers run.id).finishedAt u) rfl rfl rfl)
    exact hph.elim .inr fun h => .inl h.1

theorem follows_executeJob (run : ReviewRun) (job : ScheduledJob) :
    (executeJob (rules.answers run.id) (Tracked.load run) (Tracked.load job)).Follows Good (Move rules)
      rules.mayFail (.owner job.id (.loaded run job)) (WorkedAs rules job.id run.id) := by
  have hwork : Working run (started (rules.answers run.id) (Tracked.load run)).committed :=
    ⟨rfl, rfl, rfl, rfl⟩
  unfold executeJob
  refine .bind (follows_commit (by simp [setStatus]) (by simp [started]) (fun w w' h => .start h) ?_
    fun h => ⟨h, _, rfl, rfl⟩)
  dsimp only
  refine follows_select (fun _ => ?_) fun h => ⟨h, _, rfl, rfl⟩
  split
  · rename_i hfound
    refine follows_record (fun w => .take .review) (.bind ((follows_streamLog _ _ _ _ _ _).mono fun x r hx => ?_))
    obtain ⟨rfl, lines, rfl⟩ := hx
    refine follows_applyOutcome ?_ (.inl rfl) rfl rfl rfl ⟨rfl, rfl, rfl, rfl⟩
    rw [Execution.outcome, if_pos hfound]
  · rename_i hfound
    refine follows_applyOutcome ?_ (.inr ⟨rfl, by decide⟩) rfl rfl rfl hwork
    rw [Execution.outcome, if_neg hfound]

theorem follows_worker (j r : ℕ) :
    (worker (rules.answers r) r j).Follows Good (Move rules) rules.mayFail (.owner j (.created r))
      fun x r' => x = .ok () ∧ r' = .idle := by
  unfold worker
  refine .bind (.tryCatch (Program.Follows.mono
    (?_ : Program.Follows Good (Move rules) rules.mayFail _ _ (WorkedAs rules j r)) fun x r' hx => ?_))
  · refine .bind (.atomic (fun w _ _ => ?_) fun h => ⟨h, _, rfl, rfl⟩)
    cases hr : w.run? r with
    | none =>
      refine ⟨_, .openNone hr, follows_select (fun w' => ?_) fun h => ⟨h, _, rfl, rfl⟩⟩
      exact ⟨_, rfl, .inr (.inl ⟨_, rfl⟩)⟩
    | some run =>
      obtain rfl := run?_id hr
      refine ⟨_, .openRun hr, .bind (.atomic (fun w' _ _ => ?_) fun h => ⟨h, _, rfl, rfl⟩)⟩
      cases hj : w'.job? j with
      | none => exact ⟨_, .loadNone hj, _, rfl, .inr (.inl ⟨_, rfl⟩)⟩
      | some job =>
        obtain rfl := job?_id hj
        exact ⟨_, .loadJob hj, follows_executeJob run job⟩
  · cases x with
    | ok => exact follows_releasePermit hx ⟨rfl, rfl⟩
    | error e =>
      obtain ⟨hf, ph, rfl, hph⟩ := hx
      refine (follows_finalizeCrashedRun hf hph _).mono fun x r' hx => ?_
      obtain ⟨rfl, hr⟩ := hx
      exact follows_releasePermit hr ⟨rfl, rfl⟩

/-- What is left of a pump's permit at its end. -/
def PumpEnds (rules : Rules) (r : Role) : Prop :=
  r = .idle ∨ (∃ j, r = .owner j (.vanished none)) ∨ rules.mayFail .reload = true

theorem follows_claimAndWork (now : Timestamp) :
    (claimAndWork rules.dialect rules.answers now).Follows Good (Move rules) rules.mayFail .idle
      fun _ r => PumpEnds rules r := by
  refine .bind (.tryCatch ((follows_claimAndCreateRun now).mono fun x r hx => ?_))
  match x, hx with
  | .error _, hx => exact hx.elim .inl fun h => .inr (.inr h)
  | .ok none, hx => exact hx.elim .inl fun h => .inr (.inl h)
  | .ok (some (j, runId)), hx =>
    subst hx
    exact (follows_worker j runId).mono fun x r h => .inl h.2

/-- The rows a recovery holds are unchanged or marked as failed. -/
def FailedOrKept (t : Tracked ScheduledJob) : Prop :=
  t.mem.id = t.base.id ∧ (t.mem.status = t.base.status ∨ t.mem.status = .failed)

theorem failedOrKept_failInFlight {t : Tracked ScheduledJob} (h : FailedOrKept t) (now : Timestamp) :
    FailedOrKept (failInFlight now t) := by
  unfold failInFlight
  split
  · exact ⟨h.1, .inr rfl⟩
  · exact h

theorem follows_orphanJobs (now : Timestamp) (runs : List (Tracked ReviewRun))
    {session : List (Tracked ScheduledJob)} (h : ∀ t ∈ session, FailedOrKept t) (r : Role) :
    (orphanJobs now runs session).Follows Good (Move rules) rules.mayFail r
      fun x r' => r' = r ∧ ∀ jobs, x = .ok jobs → ∀ t ∈ jobs, FailedOrKept t := by
  induction runs generalizing session with
  | nil => exact ⟨rfl, fun jobs hx => Except.ok.inj hx ▸ h⟩
  | cons run runs ih =>
    unfold orphanJobs
    split
    · refine ih fun t ht => ?_
      obtain ⟨t, hmem, rfl⟩ := List.mem_map.mp ht
      split
      · exact failedOrKept_failInFlight (h t hmem) now
      · exact h t hmem
    · refine .bind (.atomic (fun w _ _ => ⟨r, .quiet (Quiet.refl w), ?_⟩) fun _ => ⟨rfl, by simp⟩)
      dsimp only
      cases w.job? run.mem.scheduledJobId with
      | none => exact ih h
      | some row =>
        refine ih fun t ht => ?_
        rcases List.mem_append.mp ht with ht | ht
        · exact h t ht
        · obtain rfl := List.mem_singleton.mp ht
          exact failedOrKept_failInFlight ⟨rfl, .inl rfl⟩ now

theorem failedOrKept_instances {session : List (Tracked ScheduledJob)}
    (h : ∀ t ∈ session, FailedOrKept t) {rows : List ScheduledJob} {t : Tracked ScheduledJob}
    (ht : t ∈ instances session rows) : FailedOrKept t := by
  obtain ⟨row, -, rfl⟩ := List.mem_map.mp ht
  cases hrow : held session row.id with
  | none => exact ⟨rfl, .inl rfl⟩
  | some t => exact h t (held_mem hrow).1

theorem follows_recoverCommit {jobs : List (Tracked ScheduledJob)} {runs : List (Tracked ReviewRun)}
    (hj : ∀ t ∈ jobs, FailedOrKept t) (hk : KeysKept runs)
    (hr : ∀ u ∈ runs, u.mem.scheduledJobId = u.base.scheduledJobId) (fixed : ℕ) :
    (do
      commit .cleanup jobs runs
      compactPositions .cleanup (jobs.map Tracked.committed)
      .ret fixed : Tx ℕ).Follows Good (Move rules) rules.mayFail .recovering fun _ _ => True := by
  refine .bind (follows_commit (fun t ht => (hj t ht).1) hk
    (fun _ _ h => .recover ⟨fun t ht => (hj t ht).2, hr⟩ h) ?_ fun _ => trivial)
  refine .bind ((quiet_compactPositions _ fun t ht => ?_).follows fun x => by cases x <;> trivial)
  obtain ⟨t, -, rfl⟩ := List.mem_map.mp ht
  exact statusKept_committed

theorem follows_recoverOrphans (stop : ℕ → Except Text Unit) (now : Timestamp) :
    (recoverOrphans stop now).Follows Good (Move rules) rules.mayFail .recovering fun _ _ => True := by
  unfold recoverOrphans
  refine follows_select (fun w => ?_) fun _ => trivial
  dsimp only
  refine .bind ((follows_orphanJobs now _ (by simp) _).mono fun x r hx => ?_)
  obtain ⟨rfl, hsession⟩ := hx
  cases x with
  | error e => exact trivial
  | ok session =>
    have hkept := hsession session rfl
    refine follows_select (fun w' => ?_) fun _ => trivial
    split
    · exact trivial
    · refine follows_recoverCommit (fun t ht => ?_) (fun u hu => ?_) (fun u hu => ?_) _
      · rcases List.mem_append.mp ht with ht | ht
        · obtain ⟨t, hmem, rfl⟩ := List.mem_map.mp ht
          exact ⟨(failedOrKept_instances hkept hmem).1, .inr rfl⟩
        · exact hkept t ht
      all_goals
        obtain ⟨u, hmem, rfl⟩ := List.mem_map.mp hu
        obtain ⟨run, -, rfl⟩ := List.mem_map.mp hmem
        simp [orphanedRun]

end Follows

end GitlabReviewer.Lifecycle
