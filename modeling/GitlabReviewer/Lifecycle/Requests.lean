import GitlabReviewer.Lifecycle.Roles

/-! # The requests of the users and of the scheduler

Each request loads the row it is about and calls one service function on it.
Apart from the commits of the two cancels every step of a request is quiet.
-/
namespace GitlabReviewer.Lifecycle
open Python Foundation Models Scheduling Reviews

/-- The operations that are neither a claim nor a recovery. -/
inductive Request where
  | enqueue (request : EnqueueRequest)
  | reorder (dialect : Dialect) (ids : List ℤ)
  | moveToTop (i : ℕ)
  | moveToBottom (i : ℕ)
  | cancel (i : ℕ) (now : Timestamp)
  | cancelInflight (i : ℕ) (now : Timestamp)
  | enrollNightly (i : ℕ) (now : Timestamp)
  | removeNightly (i : ℕ) (now : Timestamp)
  | promoteNightly (now : Timestamp)
  | compactPositions

/-- The caller's load of the job it acts on. -/
def withJob (i : ℕ) (act : Tracked ScheduledJob → Tx Unit) : Tx Unit := do
  let job ← getJob .request i
  match job with
  | none => .raise (.notFound i)
  | some job => act job

def Request.prog : Request → Tx Unit
  | enqueue request => do
      let _ ← Scheduling.enqueue request
      .ret ()
  | reorder dialect ids => Scheduling.reorder dialect ids
  | moveToTop i => withJob i Scheduling.moveToTop
  | moveToBottom i => withJob i Scheduling.moveToBottom
  | cancel i now => withJob i fun job => Scheduling.cancel job now
  | cancelInflight i now => withJob i fun job => do
      let _ ← Reviews.cancelInflight job now
      .ret ()
  | enrollNightly i now => withJob i fun job => Scheduling.enrollNightly job now
  | removeNightly i now => withJob i fun job => Scheduling.removeNightly job now
  | promoteNightly now => do
      let _ ← Scheduling.promoteNightly now
      .ret ()
  | compactPositions => Scheduling.compactPositions .request []

theorem Quiet.refl (w : World) : Quiet w w :=
  ⟨fun _ => .inl rfl, fun _ => rfl, fun _ _ _ h => h, id, rfl, rfl, rfl, rfl, rfl, rfl⟩

/-- The rows a session may write back quietly. -/
structure StatusKept (t : Tracked ScheduledJob) : Prop where
  id : t.mem.id = t.base.id
  status : t.mem.status = t.base.status

theorem statusKept_load (row : ScheduledJob) : StatusKept (Tracked.load row) := ⟨rfl, rfl⟩
theorem statusKept_committed {t : Tracked ScheduledJob} : StatusKept t.committed := ⟨rfl, rfl⟩

theorem keysKept_of_statusKept {jobs : List (Tracked ScheduledJob)} (h : ∀ t ∈ jobs, StatusKept t) :
    KeysKept jobs := fun t ht => (h t ht).id

theorem writtenStatus_quiet {jobs : List (Tracked ScheduledJob)}
    (h : ∀ t ∈ jobs, t.mem.status = t.base.status) (i : ℕ) (st : JobStatus) :
    writtenStatus (held jobs i) st = st := by
  cases hi : held jobs i with
  | none => rfl
  | some t =>
    rw [writtenStatus_some, h t (held_mem hi).1]
    exact written_self _ _

theorem writtenVerdict_quiet {runs : List (Tracked ReviewRun)}
    (h : ∀ u ∈ runs, u.mem.verdict = u.base.verdict) (i : ℕ) (v : Verdict) :
    writtenVerdict (held runs i) v = v := by
  cases hi : held runs i with
  | none => rfl
  | some u =>
    rw [writtenVerdict_some, h u (held_mem hi).1]
    exact Verdict.merge_self _ _

theorem quiet_of_commits {jobs : List (Tracked ScheduledJob)} {runs : List (Tracked ReviewRun)}
    {w w' : World} (h : Commits jobs runs w w') (hj : ∀ t ∈ jobs, t.mem.status = t.base.status)
    (hr : ∀ u ∈ runs, u.mem.verdict = u.base.verdict) : Quiet w w' := by
  refine ⟨fun i => .inl ?_, fun r => ?_, fun i hi ty ht => ?_, h.good, ?_, ?_, ?_, ?_, ?_, ?_⟩
  · rw [h.jobStatus, Option.map_congr fun st _ => writtenStatus_quiet hj i st]
    exact congrFun Option.map_id _
  · rw [h.verdict, Option.map_congr fun v _ => writtenVerdict_quiet hr r v]
    exact congrFun Option.map_id _
  · unfold World.jobType at *
    rw [h.locked_job hi]
    exact ht
  all_goals rw [h.stored]; rfl

theorem quiet_insertJob (w : World) {job : ScheduledJob} (hq : job.status = .queued) :
    Quiet w (w.insertJob job) := by
  refine ⟨fun i => ?_, fun _ => rfl, fun i _ ty ht => ?_, good_insertJob job, rfl, rfl, rfl, rfl, rfl, rfl⟩
  · unfold World.jobStatus
    rw [job?_insertJob]
    cases hi : w.job? i with
    | some row => exact .inl rfl
    | none =>
      by_cases hk : World.nextKey (w.jobs.map (·.id)) = i
      · exact .inr ⟨rfl, by simp [hk, hq]⟩
      · exact .inl (by simp [hk])
  · unfold World.jobType at *
    rw [job?_insertJob]
    cases hi : w.job? i with
    | some row => rwa [hi] at ht
    | none => simp [hi] at ht

/-- A program that changes nothing the protocol is about and so may run in any role. -/
def QuietTx {α : Type} (p : Tx α) : Prop :=
  ∀ (rules : Rules) (r : Role), p.Follows Good (Move rules) rules.mayFail r fun _ r' => r' = r

section QuietTx
variable {α β : Type}

theorem QuietTx.ret (a : α) : QuietTx (.ret a : Tx α) := fun _ _ => rfl
theorem QuietTx.raise (e : PyError) : QuietTx (.raise e : Tx α) := fun _ _ => rfl

theorem QuietTx.bind {p : Tx α} {f : α → Tx β} (hp : QuietTx p) (hf : ∀ a, QuietTx (f a)) :
    QuietTx (p >>= f) := fun rules r =>
  .bind ((hp rules r).mono fun x r' hr' => by
    subst hr'
    cases x with
    | ok a => exact hf a rules r'
    | error e => rfl)

theorem QuietTx.atomic {site : Site} {ready : World → Bool} {act : World → World} {view : World → α}
    {e : PyError} (h : ∀ w, Good w → ready w = true → Quiet w (act w)) :
    QuietTx (.atomic site ready act view e) := fun _ r =>
  .atomic (fun w hg hw => ⟨r, .quiet (h w hg hw), rfl⟩) fun _ => rfl

/-- What follows a read only has to be quiet for the values the read can return. -/
theorem QuietTx.select_bind {site : Site} {query : World → α} {f : α → Tx β}
    (hf : ∀ w, QuietTx (f (query w))) : QuietTx (select site query >>= f) := fun rules r =>
  .bind (.atomic (fun w _ _ => ⟨r, .quiet (Quiet.refl w), hf w rules r⟩) fun _ => rfl)

theorem QuietTx.commit {site : Site} {jobs : List (Tracked ScheduledJob)} {runs : List (Tracked ReviewRun)}
    (hj : ∀ t ∈ jobs, StatusKept t) (hk : KeysKept runs)
    (hr : ∀ u ∈ runs, u.mem.verdict = u.base.verdict) : QuietTx (Models.commit site jobs runs) :=
  .atomic fun _ _ hw =>
    quiet_of_commits ⟨rfl, hw, keysKept_of_statusKept hj, hk⟩ (fun t ht => (hj t ht).status) hr

theorem QuietTx.commitJobs {site : Site} {jobs : List (Tracked ScheduledJob)}
    (hj : ∀ t ∈ jobs, StatusKept t) : QuietTx (Models.commit site jobs []) :=
  .commit hj keysKept_nil (by simp)

end QuietTx

theorem statusKept_instances {session : List (Tracked ScheduledJob)} (h : ∀ t ∈ session, StatusKept t)
    {rows : List ScheduledJob} {t : Tracked ScheduledJob} (ht : t ∈ instances session rows) :
    StatusKept t := by
  obtain ⟨row, -, rfl⟩ := List.mem_map.mp ht
  cases hrow : held session row.id with
  | none => exact statusKept_load row
  | some t => exact h t (held_mem hrow).1

theorem statusKept_placed {ordered : List ℤ} {t : Tracked ScheduledJob} (h : StatusKept t) :
    StatusKept (placed ordered t) := ⟨h.id, h.status⟩
theorem statusKept_flip {ty : ScheduleType} {position : ℤ} {now : Timestamp} {t : Tracked ScheduledJob}
    (h : StatusKept t) : StatusKept (flip ty position now t) := ⟨h.id, h.status⟩

theorem statusKept_renumber {jobs : List (Tracked ScheduledJob)} (h : ∀ t ∈ jobs, StatusKept t)
    {t : Tracked ScheduledJob} (ht : t ∈ renumber jobs) : StatusKept t := by
  obtain ⟨i, hi, rfl⟩ := List.mem_mapIdx.mp ht
  have hkept := h _ (List.getElem_mem hi)
  split
  · exact ⟨hkept.id, hkept.status⟩
  · exact hkept

theorem quiet_compactPositions (site : Site) {session : List (Tracked ScheduledJob)}
    (h : ∀ t ∈ session, StatusKept t) : QuietTx (compactPositions site session) :=
  .select_bind fun _ => .commitJobs fun _ ht =>
    statusKept_renumber (fun _ ht => statusKept_instances h ht) ht

theorem quiet_rewritePositions {session : List (Tracked ScheduledJob)} (h : ∀ t ∈ session, StatusKept t)
    (ids : List ℤ) : QuietTx (rewritePositions session ids) := by
  unfold rewritePositions
  dsimp only
  split
  · exact .raise _
  · refine .select_bind fun w => ?_
    split
    · exact .raise _
    · refine .select_bind fun _ => ?_
      split
      · exact .raise _
      · refine .commitJobs fun t ht => ?_
        obtain ⟨t, hmem, rfl⟩ := List.mem_map.mp ht
        exact statusKept_placed (statusKept_instances h hmem)

theorem quiet_reorder (dialect : Dialect) (ids : List ℤ) : QuietTx (reorder dialect ids) := by
  unfold reorder
  split
  · exact quiet_rewritePositions (by simp) ids
  · exact .raise _

theorem quiet_moveToTop {t : Tracked ScheduledJob} (h : StatusKept t) : QuietTx (moveToTop t) := by
  unfold moveToTop
  split
  · exact .raise _
  · exact .select_bind fun _ => quiet_rewritePositions (by simpa using h) _

theorem quiet_moveToBottom {t : Tracked ScheduledJob} (h : StatusKept t) : QuietTx (moveToBottom t) := by
  unfold moveToBottom
  split
  · exact .raise _
  · exact .select_bind fun _ => quiet_rewritePositions (by simpa using h) _

theorem quiet_enrollNightly {t : Tracked ScheduledJob} (h : StatusKept t) (now : Timestamp) :
    QuietTx (enrollNightly t now) := by
  unfold enrollNightly
  split
  · exact .raise _
  · split
    · exact .ret _
    · exact .select_bind fun _ => .commitJobs (by simpa using statusKept_flip h)

theorem quiet_removeNightly {t : Tracked ScheduledJob} (h : StatusKept t) (now : Timestamp) :
    QuietTx (removeNightly t now) := by
  unfold removeNightly
  split
  · exact .raise _
  · split
    · exact .raise _
    · exact .select_bind fun _ => .commitJobs (by simpa using statusKept_flip h)

theorem statusKept_promoted {base : ℤ} {now : Timestamp} {jobs : List (Tracked ScheduledJob)}
    (h : ∀ t ∈ jobs, StatusKept t) {t : Tracked ScheduledJob} (ht : t ∈ promoted base now jobs) :
    StatusKept t := by
  obtain ⟨i, hi, rfl⟩ := List.mem_mapIdx.mp ht
  exact statusKept_flip (h _ (List.getElem_mem hi))

theorem quiet_promoteNightly (now : Timestamp) : QuietTx (promoteNightly now) := by
  refine .select_bind fun w => ?_
  split
  · exact .ret _
  · refine .select_bind fun _ => .bind (.commitJobs fun t ht => ?_) fun _ => .ret _
    refine statusKept_promoted (fun t ht => ?_) ht
    obtain ⟨row, -, rfl⟩ := List.mem_map.mp ht
    exact statusKept_load row

theorem quiet_enqueue (request : EnqueueRequest) : QuietTx (enqueue request) :=
  .select_bind fun _ => .atomic fun w _ _ => quiet_insertJob w rfl

section Follows
variable {α : Type} {rules : Rules} {r r' : Role}

theorem follows_commit {site : Site} {jobs : List (Tracked ScheduledJob)} {runs : List (Tracked ReviewRun)}
    {post : Except PyError Unit → Role → Prop} (hj : KeysKept jobs) (hr : KeysKept runs)
    (hm : ∀ w w', Commits jobs runs w w' → Move rules r w r' w') (hok : post (.ok ()) r')
    (hfail : rules.mayFail site = true → post (.error .database) r) :
    (commit site jobs runs).Follows Good (Move rules) rules.mayFail r post :=
  .atomic (fun w _ hw => ⟨r', hm w _ ⟨rfl, hw, hj, hr⟩, hok⟩) hfail

theorem QuietTx.follows {p : Tx α} (hp : QuietTx p) {post : Except PyError α → Role → Prop}
    (h : ∀ x, post x r) : p.Follows Good (Move rules) rules.mayFail r post :=
  (hp rules r).mono fun x _ hr => hr ▸ h x

theorem follows_cancel (row : ScheduledJob) (now : Timestamp) :
    (Scheduling.cancel (Tracked.load row) now).Follows Good (Move rules) rules.mayFail .requesting
      fun _ _ => True := by
  unfold Scheduling.cancel
  split
  · exact trivial
  · rename_i hs
    have hq : row.status = .queued := not_not.mp hs
    refine .bind (follows_commit (by simp [setStatus]) keysKept_nil
      (fun w w' h => .cancelQueued now hq h) ?_ fun _ => trivial)
    exact (quiet_compactPositions _ (by simp [statusKept_committed])).follows fun _ => trivial

theorem keysKept_cancelled (now : Timestamp) (run : Option ReviewRun) :
    KeysKept (run.map (cancelledRun now ∘ Tracked.load)).toList := by
  cases run with
  | none => exact keysKept_nil
  | some run => simp [cancelledRun]

theorem follows_cancelInflight (row : ScheduledJob) (now : Timestamp) :
    (Reviews.cancelInflight (Tracked.load row) now).Follows Good (Move rules) rules.mayFail .requesting
      fun _ _ => True := by
  unfold Reviews.cancelInflight
  split
  · exact trivial
  · rename_i hs
    have hq : row.status.inFlight = true := by simpa using hs
    refine .bind (.atomic (fun w _ _ => ⟨_, .readRunning row, ?_⟩) fun _ => trivial)
    dsimp only
    rw [Option.map_map]
    refine .bind (follows_commit (by simp [setStatus]) ?_
      (fun _ _ h => .cancelInflight now hq (fun run hrun => (runningRun_spec hrun).2) h) ?_ fun _ => trivial)
    · exact keysKept_cancelled now _
    · exact .bind ((quiet_compactPositions _ (by simp [statusKept_committed])).follows fun x => by
        cases x <;> trivial)

theorem follows_withJob {i : ℕ} {act : Tracked ScheduledJob → Tx Unit}
    (h : ∀ row, (act (Tracked.load row)).Follows Good (Move rules) rules.mayFail .requesting
      fun _ _ => True) :
    (withJob i act).Follows Good (Move rules) rules.mayFail .requesting fun _ _ => True := by
  refine .bind (.atomic (fun w _ _ => ⟨_, .quiet (Quiet.refl w), ?_⟩) fun _ => trivial)
  dsimp only
  cases w.job? i with
  | none => exact trivial
  | some row => exact h row

/-- Every request follows the protocol. -/
theorem Request.follows (q : Request) :
    q.prog.Follows Good (Move rules) rules.mayFail .requesting fun _ _ => True := by
  cases q with
  | enqueue request =>
    exact .bind ((quiet_enqueue request).follows fun x => by cases x <;> trivial)
  | reorder dialect ids => exact (quiet_reorder dialect ids).follows fun _ => trivial
  | moveToTop i =>
    exact follows_withJob fun row => (quiet_moveToTop (statusKept_load row)).follows fun _ => trivial
  | moveToBottom i =>
    exact follows_withJob fun row => (quiet_moveToBottom (statusKept_load row)).follows fun _ => trivial
  | cancel i now => exact follows_withJob fun row => follows_cancel row now
  | cancelInflight i now =>
    refine follows_withJob fun row => .bind ((follows_cancelInflight row now).mono fun x _ _ => ?_)
    cases x <;> trivial
  | enrollNightly i now =>
    exact follows_withJob fun row => (quiet_enrollNightly (statusKept_load row) now).follows fun _ => trivial
  | removeNightly i now =>
    exact follows_withJob fun row => (quiet_removeNightly (statusKept_load row) now).follows fun _ => trivial
  | promoteNightly now =>
    exact .bind ((quiet_promoteNightly now).follows fun x => by cases x <;> trivial)
  | compactPositions => exact (quiet_compactPositions _ (by simp)).follows fun _ => trivial

end Follows

end GitlabReviewer.Lifecycle
