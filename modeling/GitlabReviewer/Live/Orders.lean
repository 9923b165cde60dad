import GitlabReviewer.Live.Edits
import GitlabReviewer.Scheduling.ExtraProjects

/-! # What was ordered

A worker changes no word of the order either, so orders only come in at the
schedule forms, and a run works for the job whose order its pump has taken.
-/
namespace GitlabReviewer.Live
open Python Foundation Models Scheduling Settings Reviews Lifecycle

structure Untouched (w w' : World) : Prop where
  orders : orders w' = orders w
  assignments : assignments w' = assignments w

theorem untouched_of_tables {w w' : World} (hj : w'.jobs = w.jobs) (hr : w'.runs = w.runs) : Untouched w w' :=
  ⟨congrArg (List.map orderOf) hj, congrArg (List.map assignmentOf) hr⟩

theorem untouched_commit {jobs : List (Tracked ScheduledJob)} {runs : List (Tracked ReviewRun)} (hj : ∀ t ∈ jobs, OrderKept t)
    (hr : ∀ u ∈ runs, AssignmentKept u) (w : World) : Untouched w (w.commitRows jobs runs) :=
  ⟨map_store orderOf_merge hj w.jobs, map_store assignmentOf_merge hr w.runs⟩

abbrev Faithful {α : Type} (p : Tx α) : Prop := p.Guarantees (fun _ => True) Untouched

section Faithful
variable {α β : Type}

theorem faithful_select_bind {site : Site} {query : World → α} {f : α → Tx β} (h : ∀ w, Faithful (f (query w))) :
    Faithful (select site query >>= f) :=
  .atomic_bind fun w _ _ => ⟨untouched_of_tables rfl rfl, h w⟩

theorem faithful_commit {site : Site} {jobs : List (Tracked ScheduledJob)} {runs : List (Tracked ReviewRun)}
    (hj : ∀ t ∈ jobs, OrderKept t) (hr : ∀ u ∈ runs, AssignmentKept u) : Faithful (commit site jobs runs) :=
  .atomic fun w _ _ => untouched_commit hj hr w

theorem Edits.untouched {w w' : World} (h : Edits w w') : Untouched w w' := by
  obtain ⟨jobs, runs, hj, hr, hjobs, hruns, -⟩ := h
  constructor
  · unfold orders
    rw [hjobs, map_store orderOf_merge hj]
  · unfold assignments
    rw [hruns, map_store assignmentOf_merge fun u hu => (hr u hu).1]

theorem Editing.faithful {p : Tx α} (h : Editing p) : Faithful p := h.mono fun _ _ => Edits.untouched

end Faithful

theorem faithful_flushLogInflight (runId : ℕ) (lines : List Text) (now last : ℤ) :
    Faithful (flushLogInflight runId lines now last) := by
  unfold flushLogInflight
  split
  · trivial
  · apply Program.Guarantees.tryCatch
    · apply faithful_select_bind
      intro w
      cases w.run? runId with
      | none => trivial
      | some row => exact .bind (faithful_commit (by simp) (List.forall_mem_singleton.mpr rfl)) fun _ => trivial
    · intro _
      trivial

theorem faithful_streamLog (runId : ℕ) (secrets : List Text) (chunks : List LogChunk) (lines : List Text) (last : ℤ) :
    Faithful (streamLog runId secrets chunks lines last) := by
  induction chunks generalizing lines last with
  | nil => trivial
  | cons chunk chunks ih => exact .bind (faithful_flushLogInflight _ _ _ _) fun _ => ih _ _

theorem faithful_postToGitlab_bind {α : Type} {f : Tracked ReviewRun → Tx α} {ex : Execution} {outcome : RunOutcome} {mrIid : Option ℤ} {jobId : ℕ}
    {u : Tracked ReviewRun} (hu : AssignmentKept u) (hf : ∀ v, AssignmentKept v → Faithful (f v)) :
    Faithful (postToGitlab ex outcome mrIid jobId u >>= f) := by
  unfold postToGitlab
  split
  · exact hf _ hu
  · split
    · exact ⟨fun w _ _ => ⟨untouched_of_tables rfl rfl, hf _ hu⟩, hf _ hu⟩
    · exact ⟨fun w _ _ => ⟨untouched_of_tables rfl rfl, hf _ hu⟩, hf _ hu⟩

theorem faithful_applyOutcome {ex : Execution} {mrIid : Option ℤ} {u : Tracked ReviewRun} {t : Tracked ScheduledJob}
    {outcome : RunOutcome} (hu : AssignmentKept u) (ht : OrderKept t) : Faithful (applyOutcome ex mrIid u t outcome) := by
  have hcommit : ∀ v : Tracked ReviewRun, AssignmentKept v → ∀ s : Tracked ScheduledJob, OrderKept s →
      Faithful (commit .execution [s] [v] >>= fun _ => compactPositions .execution [s.committed]) := by
    intro v hv s hs
    have hcompact : Editing (compactPositions .execution [s.committed]) :=
      editing_compactPositions _ (List.forall_mem_singleton.mpr rfl)
    exact .bind (faithful_commit (List.forall_mem_singleton.mpr hs) (List.forall_mem_singleton.mpr hv)) fun _ => hcompact.faithful
  unfold applyOutcome
  dsimp only
  split
  · exact faithful_postToGitlab_bind hu fun v hv => hcommit v hv _ ht
  · exact hcommit (withOutcome outcome ex.finishedAt u) hu (setStatus (finalJobStatus (outcomeStatus outcome)) ex.finishedAt t) ht

theorem faithful_executeJob {ex : Execution} {u : Tracked ReviewRun} {t : Tracked ScheduledJob} (hu : AssignmentKept u)
    (ht : OrderKept t) : Faithful (executeJob ex u t) := by
  unfold executeJob
  refine .bind (faithful_commit (List.forall_mem_singleton.mpr ht) (List.forall_mem_singleton.mpr hu)) fun _ => ?_
  apply faithful_select_bind
  intro w
  dsimp only
  split
  · have hrecord : Editing (record (recordReview t.mem.id)) := editing_record (fun _ => rfl) (fun _ => rfl) fun _ => rfl
    refine .bind hrecord.faithful fun _ => ?_
    exact .bind (faithful_streamLog _ _ _ _ _) fun _ => faithful_applyOutcome rfl rfl
  · exact faithful_applyOutcome rfl rfl

theorem faithful_worker (ex : Execution) (runId jobId : ℕ) : Faithful (worker ex runId jobId) := by
  unfold worker
  refine .bind (.tryCatch ?_ fun _ => (editing_finalizeCrashedRun _ _ _).faithful) fun _ => (editing_releasePermit _).faithful
  apply Program.Guarantees.atomic_bind
  intro w _ _
  refine ⟨untouched_of_tables rfl rfl, ?_⟩
  apply faithful_select_bind
  intro w'
  cases w.run? runId with
  | none => trivial
  | some run =>
    cases w'.job? jobId with
    | none => trivial
    | some job => exact faithful_executeJob rfl rfl

/-- The run works for the job of this order. -/
structure Serves (o : Order) (a : Assignment) : Prop where
  jobId : a.jobId = o.jobId
  mergeRequestId : a.mergeRequestId = o.mergeRequestId
  modelProfileId : a.modelProfileId = o.modelProfileId

/-- The steps of a program that has claimed the job of this order, or none yet. -/
inductive Handles (allowed : List Json → Prop) : Option Order → World → Option Order → World → Prop
  | untouched {r : Option Order} {w w' : World} (h : Untouched w w') : Handles allowed r w r w'
  | order {r : Option Order} {w w' : World} {o : Order} (h : orders w' = orders w ++ [o]) (ha : assignments w' = assignments w)
      (hkey : o.jobId = World.nextKey ((orders w).map Order.jobId)) (hallowed : allowed o.extraProjects) : Handles allowed r w r w'
  | claim {w w' : World} {o : Order} (h : Untouched w w') (ho : o ∈ orders w') : Handles allowed none w (some o) w'
  | assign {w w' : World} {o : Order} {a : Assignment} (h : orders w' = orders w) (ha : assignments w' = assignments w ++ [a])
      (hserves : Serves o a) : Handles allowed (some o) w (some o) w'

section Handling
variable {allowed : List Json → Prop} {mayFail : Site → Bool}

abbrev FollowsOrders {α : Type} (allowed : List Json → Prop) (mayFail : Site → Bool) (p : Tx α) (r : Option Order)
    (post : Except PyError α → Option Order → Prop) : Prop :=
  p.Follows (fun _ => True) (Handles allowed) mayFail r post

theorem Faithful.stays {α : Type} {p : Tx α} (hp : Faithful p) (r : Option Order) :
    FollowsOrders allowed mayFail p r fun _ r' => r' = r :=
  hp.follows fun _ _ => .untouched

theorem Faithful.done {α : Type} {p : Tx α} (hp : Faithful p) (r : Option Order) :
    FollowsOrders allowed mayFail p r fun _ _ => True :=
  (hp.stays r).mono fun _ _ _ => trivial

theorem follows_enqueue {request : EnqueueRequest} (h : allowed request.extraProjects) :
    FollowsOrders allowed mayFail (enqueue request) none fun _ _ => True := by
  apply Program.Follows.bind
  refine .atomic (fun w _ _ => ⟨_, .untouched (untouched_of_tables rfl rfl), ?_⟩) fun _ => trivial
  refine .atomic (fun w' _ _ => ⟨none, .order List.map_append rfl ?_ h, trivial⟩) fun _ => trivial
  unfold orders
  rw [List.map_map]
  rfl

/-- What is answered, if anything, is the job whose order has been taken. -/
def Took (x : Except PyError (Option ScheduledJob)) (r : Option Order) : Prop := ∀ job, x = .ok (some job) → r = some (orderOf job)

theorem took_none {x : Except PyError (Option ScheduledJob)} (h : ∀ job, x ≠ .ok (some job)) (r : Option Order) : Took x r :=
  fun job hjob => absurd hjob (h job)

theorem took_some {job row : ScheduledJob} (h : orderOf row = orderOf job) : Took (.ok (some job)) (some (orderOf row)) := by
  intro job' hjob
  obtain rfl := Option.some.inj (Except.ok.inj hjob)
  rw [h]

theorem follows_claimPostgres (now : Timestamp) : FollowsOrders allowed mayFail (claimPostgres now) none Took := by
  refine ⟨?_, fun _ => took_none (by simp) _⟩
  intro w _ _
  obtain ⟨hjobs, hruns, -⟩ := lockRow_tables w
  have hlock : Untouched w (lockRow w) := untouched_of_tables hjobs hruns
  cases hrow : lockable w with
  | none =>
    refine ⟨none, .untouched hlock, ?_⟩
    dsimp only
    rw [hrow]
    exact took_none (by simp) _
  | some row =>
    have hmem : orderOf row ∈ orders (lockRow w) := by
      rw [hlock.orders]
      exact List.mem_map_of_mem (lockable_mem hrow).1
    refine ⟨some (orderOf row), .claim hlock hmem, ?_⟩
    dsimp only
    rw [hrow]
    refine ⟨?_, fun _ => ?_⟩
    · intro w' _ _
      have hcommit : Untouched w' (w'.commitRows [setStatus .claimed now (Tracked.load row)] []) :=
        untouched_commit (List.forall_mem_singleton.mpr (show orderOf _ = orderOf _ from rfl)) (List.forall_mem_nil _) w'
      exact ⟨_, .untouched ⟨hcommit.orders, hcommit.assignments⟩, took_some rfl⟩
    · exact ⟨fun w' _ _ => ⟨_, .untouched (untouched_of_tables rfl rfl), took_none (by simp) _⟩, fun _ => took_none (by simp) _⟩

theorem follows_claimSqlite (now : Timestamp) : FollowsOrders allowed mayFail (claimSqlite now) none Took := by
  apply Program.Follows.bind
  refine .atomic (fun w _ _ => ⟨none, .untouched ?_, ?_⟩) fun _ => took_none (by simp) _
  · exact ⟨claimFirst_map (fun _ => rfl) w, congrArg (List.map assignmentOf) (claimFirst_runs now w).1⟩
  · dsimp only
    cases claimedId w with
    | none => exact took_none (by simp) _
    | some i =>
      apply Program.Follows.bind
      refine ⟨fun w' _ _ => ?_, fun _ => took_none (by simp) _⟩
      cases hjob : w'.job? i with
      | none =>
        refine ⟨none, .untouched (untouched_of_tables rfl rfl), ?_⟩
        dsimp only
        rw [hjob]
        exact took_none (by simp) _
      | some row =>
        refine ⟨some (orderOf row), .claim (untouched_of_tables rfl rfl) (List.mem_map_of_mem (job?_mem hjob)), ?_⟩
        dsimp only
        rw [hjob]
        exact took_some rfl

theorem follows_claimNext (dialect : Dialect) (now : Timestamp) :
    FollowsOrders allowed mayFail (claimNext dialect now) none Took := by
  cases dialect with
  | postgresql => exact follows_claimPostgres now
  | sqlite => exact follows_claimSqlite now

theorem follows_claimAndCreateRun (dialect : Dialect) (now : Timestamp) :
    FollowsOrders allowed mayFail (claimAndCreateRun dialect now) none fun _ _ => True := by
  unfold claimAndCreateRun
  apply Program.Follows.bind
  apply (follows_claimNext dialect now).mono
  intro x r hx
  cases x with
  | error e => trivial
  | ok job =>
    cases job with
    | none => trivial
    | some job =>
      obtain rfl := hx job rfl
      apply Program.Follows.tryCatch
      apply Program.Follows.bind
      refine .atomic (fun w _ _ => ⟨_, .assign (a := assignmentOf _) rfl List.map_append ⟨rfl, rfl, rfl⟩, trivial⟩) fun _ => ?_
      have habandon : Faithful (abandonClaim job.id now >>= fun _ => releasePermit job.id >>= fun _ =>
          (.raise PyError.database : Tx (Option (ℕ × ℕ)))) :=
        .bind (editing_abandonClaim _ _).faithful fun _ => .bind (editing_releasePermit _).faithful fun _ => trivial
      exact habandon.done _

theorem follows_claimAndWork (dialect : Dialect) (answers : ℕ → Execution) (now : Timestamp) :
    FollowsOrders allowed mayFail (claimAndWork dialect answers now) none fun _ _ => True := by
  unfold claimAndWork
  apply Program.Follows.bind
  apply Program.Follows.tryCatch
  apply (follows_claimAndCreateRun dialect now).mono
  intro x r _
  cases x with
  | error e => trivial
  | ok claimed =>
    cases claimed with
    | none => trivial
    | some ids =>
      obtain ⟨jobId, runId⟩ := ids
      exact (faithful_worker _ _ _).done r

end Handling

section Duties
variable (I : Interpreter) (A : Fernet)

/-- The extra projects of a schedule form, or those of the batch. -/
inductive Chosen : List Json → Prop
  | form (items : List (Text × Text)) : Chosen (parseExtraProjects items)
  | batch {row : StoredSettings} {typed : Text} (h : SettingsReached I A row typed) : Chosen row.knownLibraries

def Duty.Typed : Duty → Prop
  | .process (.activity (.request (.enqueue request))) => Chosen I A request.extraProjects
  | _ => True

/-- The deployment when every job comes from one of the two schedule forms. -/
def workplace (rules : Rules) : System {d : Duty // d.Typed I A} Site World PyError where
  prog := fun d => d.1.prog rules
  mayFail := rules.mayFail
  restart := (deployment rules).restart

end Duties

section Runs
variable {I : Interpreter} {A : Fernet}

theorem Chosen.libraries (hI : DecimalDigits I) {projects : List Json} (h : Chosen I A projects) :
    ∃ libraries : List KnownLibrary, projects = libraries.map libraryEntry ∧ ∀ library ∈ libraries, LibraryOk library := by
  cases h with
  | form items => exact ⟨typedLibraries items, rfl, fun library hl => (typedLibraries_typed items library hl).toLibraryOk⟩
  | batch h => exact (h.ok hI).libraries

theorem Duty.followsOrders (rules : Rules) (d : Duty) (hd : d.Typed I A) :
    FollowsOrders (Chosen I A) rules.mayFail (d.prog rules) none fun _ _ => True := by
  cases d with
  | archive i now =>
    have harchive : Faithful (Duty.prog rules (.archive i now)) := .bind (editing_resultsArchive i now).faithful fun _ => trivial
    exact harchive.done _
  | process p =>
    cases p with
    | recovery stop now =>
      have hrecovery : Faithful (Lifecycle.Process.prog rules (.recovery stop now)) := .bind (editing_recoverOrphans stop now).faithful fun _ => trivial
      exact hrecovery.done _
    | activity a =>
      cases a with
      | pump now => exact follows_claimAndWork rules.dialect rules.answers now
      | request q =>
        have hother : (∀ request, q ≠ .enqueue request) → FollowsOrders (Chosen I A) rules.mayFail
            (Duty.prog rules (.process (.activity (.request q)))) none fun _ _ => True := fun h => (editing_request h).faithful.done _
        cases q with
        | enqueue request =>
          apply Program.Follows.bind
          apply (follows_enqueue hd).mono
          intro x r _
          cases x with
          | error e => trivial
          | ok _ => trivial
        | _ => exact hother (by simp)

/-- Orders are added at the end, each run serves one of them, and so will what a pump has claimed. -/
structure Booked (allowed : List Json → Prop) (old : World) (rs : List (Option Order)) (w : World) : Prop where
  orders : orders old <+: orders w
  assignments : assignments old <+: assignments w
  keys : ((Live.orders w).map Order.jobId).Nodup
  allowed : ∀ o ∈ Live.orders w, allowed o.extraProjects
  serves : ∀ a ∈ Live.assignments w, ∃ o ∈ Live.orders w, Serves o a
  roles : ∀ o, some o ∈ rs → o ∈ Live.orders w

section Booked
variable {allowed : List Json → Prop} {old w w' : World} {rs : List (Option Order)}

theorem Booked.untouched (h : Booked allowed old rs w) (hw : Untouched w w') : Booked allowed old rs w' := by
  obtain ⟨horders, hassignments⟩ := hw
  refine ⟨horders ▸ h.orders, hassignments ▸ h.assignments, horders ▸ h.keys, horders ▸ h.allowed, ?_, horders ▸ h.roles⟩
  rw [horders, hassignments]
  exact h.serves

theorem Booked.order (h : Booked allowed old rs w) {o : Order} (ho : Live.orders w' = Live.orders w ++ [o])
    (ha : Live.assignments w' = Live.assignments w) (hkey : o.jobId = World.nextKey ((Live.orders w).map Order.jobId))
    (hallowed : allowed o.extraProjects) : Booked allowed old rs w' := by
  refine ⟨ho ▸ h.orders.trans (List.prefix_append _ _), ha ▸ h.assignments, ?_, ?_, ?_, ?_⟩
  · rw [ho, List.map_append, List.map_singleton, hkey]
    exact nodup_append_nextKey h.keys
  · rw [ho, List.forall_mem_append]
    exact ⟨h.allowed, List.forall_mem_singleton.mpr hallowed⟩
  · rw [ho, ha]
    intro a hmem
    obtain ⟨o', ho', hserves⟩ := h.serves a hmem
    exact ⟨o', List.mem_append_left _ ho', hserves⟩
  · rw [ho]
    exact fun o' ho' => List.mem_append_left _ (h.roles o' ho')

theorem Booked.assign (h : Booked allowed old rs w) {o : Order} (ho : o ∈ Live.orders w) {a : Assignment}
    (horders : Live.orders w' = Live.orders w) (ha : Live.assignments w' = Live.assignments w ++ [a]) (hserves : Serves o a) :
    Booked allowed old rs w' := by
  refine ⟨horders ▸ h.orders, ha ▸ h.assignments.trans (List.prefix_append _ _), horders ▸ h.keys, horders ▸ h.allowed, ?_,
    horders ▸ h.roles⟩
  rw [horders, ha, List.forall_mem_append]
  exact ⟨h.serves, List.forall_mem_singleton.mpr ⟨o, ho, hserves⟩⟩

theorem Booked.withRoles (h : Booked allowed old rs w) {rs' : List (Option Order)} (hr : ∀ o, some o ∈ rs' → o ∈ Live.orders w) :
    Booked allowed old rs' w :=
  ⟨h.orders, h.assignments, h.keys, h.allowed, h.serves, hr⟩

theorem Booked.move (h : Booked allowed old rs w) {i : ℕ} {r r' : Option Order} (hi : rs[i]? = some r)
    (hm : Handles allowed r w r' w') : Booked allowed old (rs.set i r') w' := by
  have hsame : ∀ {rs' : List (Option Order)} {o : Order}, some o ∈ rs'.set i r → r ∈ rs' → some o ∈ rs' := by
    intro rs' o ho hr
    rcases List.mem_or_eq_of_mem_set ho with ho | rfl
    · exact ho
    · exact hr
  have hmem : r ∈ rs := List.mem_of_getElem? hi
  cases hm with
  | untouched hw =>
    have h' := h.untouched hw
    exact h'.withRoles fun o ho => h'.roles o (hsame ho hmem)
  | order ho ha hkey hallowed =>
    have h' := h.order ho ha hkey hallowed
    exact h'.withRoles fun o ho => h'.roles o (hsame ho hmem)
  | claim hw hclaimed =>
    have h' := h.untouched hw
    refine h'.withRoles fun o ho => ?_
    rcases List.mem_or_eq_of_mem_set ho with ho | heq
    · exact h'.roles o ho
    · obtain rfl := Option.some.inj heq
      exact hclaimed
  | assign horders ha hserves =>
    have h' := h.assign (h.roles _ hmem) horders ha hserves
    exact h'.withRoles fun o ho => h'.roles o (hsame ho hmem)

theorem Booked.step {rules : Rules} {rs' : List (Option Order)} (h : Booked allowed old rs w)
    (hs : RoleStep (Handles allowed) (fun _ : {d : Duty // d.Typed I A} => none) (workplace I A rules).restart rs w rs' w') :
    Booked allowed old rs' w' := by
  cases hs with
  | start => exact h.withRoles fun o ho => h.roles o (by simpa using ho)
  | move hi hm => exact h.move hi hm
  | stutter => exact h
  | crash hk =>
    obtain rfl := Option.some.inj hk
    have hcrash : Untouched w { w with locked := [] } := untouched_of_tables rfl rfl
    refine (h.untouched hcrash).withRoles ?_
    intro o ho
    cases ho

end Booked

abbrev Explained (rules : Rules) (c : Pool {d : Duty // d.Typed I A} Site World PyError) (rs : List (Option Order)) : Prop :=
  Explains (workplace I A rules) (fun _ => True) (Handles (Chosen I A)) (fun _ _ => True) (fun _ _ => True) c.threads rs

theorem booked_reaches {rules : Rules} {c d : Pool {d : Duty // d.Typed I A} Site World PyError} {rs : List (Option Order)} {old : World}
    (hd : (workplace I A rules).Reaches (fun _ _ => True) c d) (hc : Explained rules c rs) (h : Booked (Chosen I A) old rs c.shared) :
    ∃ rs', Explained rules d rs' ∧ Booked (Chosen I A) old rs' d.shared :=
  hd.invariant (fun o => Duty.followsOrders rules o.1 o.2) (fun _ => trivial) (fun _ _ _ _ _ _ _ => trivial)
    (fun _ _ _ => trivial) (fun _ _ _ _ hi _ hs => hi.step hs) hc h

/-- Over every execution: no job is deleted, and nothing of what it was scheduled with ever changes; its extra projects are
libraries with a URL each; and a run is for the merge request and with the profile of the one job it works for, which were
chosen when that job was scheduled. -/
theorem orders_kept (hI : DecimalDigits I) (rules : Rules) {c d : Pool {d : Duty // d.Typed I A} Site World PyError}
    (hc : (workplace I A rules).Reaches (fun _ _ => True) ⟨World.empty, []⟩ c)
    (hd : (workplace I A rules).Reaches (fun _ _ => True) c d) :
    orders c.shared <+: orders d.shared ∧ assignments c.shared <+: assignments d.shared ∧
      (∀ job ∈ d.shared.jobs, ∃ libraries : List KnownLibrary, job.extraProjects = libraries.map libraryEntry ∧
        ∀ library ∈ libraries, LibraryOk library) ∧
      ∀ run ∈ d.shared.runs, (∃ job ∈ d.shared.jobs, job.id = run.scheduledJobId) ∧ ∀ job ∈ d.shared.jobs,
        job.id = run.scheduledJobId → run.mergeRequestId = job.mergeRequestId ∧ run.modelProfileId = job.modelProfileId := by
  have hempty : Booked (Chosen I A) World.empty [] World.empty :=
    ⟨List.prefix_rfl, List.prefix_rfl, List.nodup_nil, by simp [orders, World.empty], by simp [assignments, World.empty], fun _ h => by cases h⟩
  obtain ⟨rs, hexp, hbooked⟩ := booked_reaches hc .nil hempty
  have hhere : Booked (Chosen I A) c.shared rs c.shared :=
    ⟨List.prefix_rfl, List.prefix_rfl, hbooked.keys, hbooked.allowed, hbooked.serves, hbooked.roles⟩
  obtain ⟨rs', -, hlater⟩ := booked_reaches hd hexp hhere
  refine ⟨hlater.orders, hlater.assignments, ?_, ?_⟩
  · intro job hjob
    exact (hlater.allowed (orderOf job) (List.mem_map_of_mem hjob)).libraries hI
  · intro run hrun
    obtain ⟨o, ho, hserves⟩ := hlater.serves (assignmentOf run) (List.mem_map_of_mem hrun)
    obtain ⟨served, hserved, rfl⟩ := List.mem_map.mp ho
    refine ⟨⟨served, hserved, hserves.jobId.symm⟩, ?_⟩
    intro job hjob hid
    have hsame : orderOf job = orderOf served :=
      List.inj_on_of_nodup_map hlater.keys (List.mem_map_of_mem hjob) ho (hid.trans hserves.jobId)
    have hmr : job.mergeRequestId = served.mergeRequestId := congrArg Order.mergeRequestId hsame
    have hprofile : job.modelProfileId = served.modelProfileId := congrArg Order.modelProfileId hsame
    exact ⟨hserves.mergeRequestId.trans hmr.symm, hserves.modelProfileId.trans hprofile.symm⟩

end Runs

abbrev PlainDuty := {d : Duty // d.Typed Gitlab.plainStdlib.ints marking}

def typedRequest : EnqueueRequest := { plainRequest with extraProjects := parseExtraProjects looseItems }

def typedDuty : PlainDuty := ⟨.process (.activity (.request (.enqueue typedRequest))), .form looseItems⟩

/-- A request that orders nothing. -/
def plainDuty (q : Request) (h : ∀ request, q ≠ .enqueue request) : PlainDuty :=
  ⟨.process (.activity (.request q)), by cases q <;> first | trivial | exact absurd rfl (h _)⟩

def untilOrdered : List (Choice PlainDuty) := [.start typedDuty, .advance 0, .advance 0]

def untilReviewed : List (Choice PlainDuty) :=
  [.start (plainDuty (.enrollNightly 1 1) (by simp)), .advance 1, .advance 1, .advance 1,
    .start (plainDuty (.promoteNightly 2) (by simp)), .advance 2, .advance 2, .advance 2,
    .start ⟨.process (.activity (.pump 3)), trivial⟩] ++ List.replicate 12 (.advance 3)

theorem orders_kept_night :
    ∃ c d, (workplace Gitlab.plainStdlib.ints marking (quickRules .postgresql)).Reaches (fun _ _ => True) ⟨World.empty, []⟩ c ∧
      (workplace Gitlab.plainStdlib.ints marking (quickRules .postgresql)).Reaches (fun _ _ => True) c d ∧
      c.shared.jobs.map (·.status) = [.queued] ∧ d.shared.jobs.map (·.status) = [.done] ∧
      d.shared.runs.map (·.scheduledJobId) = [1] ∧ orders c.shared <+: orders d.shared ∧
      ∀ run ∈ d.shared.runs, ∃ job ∈ d.shared.jobs, job.id = run.scheduledJobId := by
  obtain ⟨c, d, hc, hqueued, hd, hdone⟩ := System.exists_of_exec_exec
    (workplace Gitlab.plainStdlib.ints marking (quickRules .postgresql)) (fun _ _ => True) ⟨World.empty, []⟩ untilOrdered untilReviewed
    (fun c => c.shared.jobs.map (·.status) == [.queued])
    (fun d => d.shared.jobs.map (·.status) == [.done] && d.shared.runs.map (·.scheduledJobId) == [1]) (by decide +kernel)
  rw [Bool.and_eq_true] at hdone
  obtain ⟨horders, -, -, hruns⟩ := orders_kept Scheduler.decimalDigits_plain (quickRules .postgresql) hc hd
  exact ⟨c, d, hc, hd, eq_of_beq hqueued, eq_of_beq hdone.1, eq_of_beq hdone.2, horders, fun run hrun => (hruns run hrun).1⟩

end GitlabReviewer.Live
