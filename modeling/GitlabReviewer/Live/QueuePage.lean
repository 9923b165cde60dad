import GitlabReviewer.Live.Records

/-! # The queue page

The page joins the waiting and the running jobs with their merge request, their
profile and, for the running ones, the run they can be followed by. The outer
join would show a job once for each of its running runs; no job ever has two.
-/
namespace GitlabReviewer.Live
open Python Foundation Models Scheduling Reviews Lifecycle

structure JobRow where
  job : ScheduledJob
  mr : MergeRequest
  profile : ModelProfile
  run : Option ReviewRun

section Query
variable (mrs : List MergeRequest) (profiles : List ModelProfile) (w : World)

/-- The outer join with the running runs of a job. -/
def runningRuns (job : ScheduledJob) : List (Option ReviewRun) :=
  match w.runs.filter fun run => run.scheduledJobId == job.id && run.status == .running with
  | [] => [none]
  | run :: runs => (run :: runs).map some

def jobRows (withRun : Bool) (job : ScheduledJob) : List JobRow :=
  (mrs.filter (·.id == job.mergeRequestId)).flatMap fun mr =>
    (profiles.filter (·.id == job.modelProfileId)).flatMap fun profile =>
      (if withRun then runningRuns w job else [none]).map fun run => ⟨job, mr, profile, run⟩

/-- Jobs joined with their MR and model profile, ordered by position. -/
def jobsWithRefs (status : JobStatus) (scheduleType : Option ScheduleType) (withRun : Bool) : List JobRow :=
  (((w.jobs.filter (·.status == status)).flatMap (jobRows mrs profiles w withRun)).filter fun row =>
    match scheduleType with
    | none => true
    | some ty => row.job.scheduleType == ty).insertionSort fun a b => before a.job b.job

structure QueueContext where
  running : List JobRow
  queued : List JobRow
  nightly : List JobRow

def queueContext : QueueContext where
  running := jobsWithRefs mrs profiles w .claimed none true ++ jobsWithRefs mrs profiles w .running none true
  queued := jobsWithRefs mrs profiles w .queued (some .immediate) false
  nightly := jobsWithRefs mrs profiles w .queued (some .nightly) false

end Query

/-- The job's merge request and profile are in their tables, once each. -/
structure Referred (mrs : List MergeRequest) (profiles : List ModelProfile) (job : ScheduledJob) : Prop where
  mr : (mrs.map (·.id)).count job.mergeRequestId = 1
  profile : (profiles.map (·.id)).count job.modelProfileId = 1

theorem filter_singleton_of_count {α : Type} {key : α → ℕ} {rows : List α} {i : ℕ} (h : (rows.map key).count i = 1) :
    ∃ row, rows.filter (key · == i) = [row] ∧ key row = i := by
  rw [List.count, List.countP_map] at h
  have hlen : (rows.filter (key · == i)).length = 1 := by
    rw [← List.countP_eq_length_filter]
    exact h
  obtain ⟨row, hrow⟩ := List.length_eq_one_iff.mp hlen
  refine ⟨row, hrow, ?_⟩
  have hmem : row ∈ rows.filter (key · == i) := by simp [hrow]
  simpa using (List.mem_filter.mp hmem).2

section Rows
variable {mrs : List MergeRequest} {profiles : List ModelProfile} {w : World}

theorem runningRuns_single (hone : ∀ r r' v v', w.verdict r = some v → w.verdict r' = some v' → v.jobId = v'.jobId → r = r')
    (hw : Good w) (job : ScheduledJob) : ∃ run, runningRuns w job = [run] ∧ ∀ r ∈ run, r ∈ w.runs ∧ r.scheduledJobId = job.id ∧ r.status = .running := by
  have hall : ∀ r ∈ w.runs.filter (fun run => run.scheduledJobId == job.id && run.status == .running),
      r ∈ w.runs ∧ r.scheduledJobId = job.id ∧ r.status = .running := by
    intro r hr
    simpa using List.mem_filter.mp hr
  have hnodup : (w.runs.filter fun run => run.scheduledJobId == job.id && run.status == .running).Nodup :=
    (List.Nodup.of_map _ hw.runIds).filter _
  match hf : w.runs.filter fun run => run.scheduledJobId == job.id && run.status == .running with
  | [] => exact ⟨none, by simp only [runningRuns, hf], by simp⟩
  | [run] =>
    rw [hf] at hall
    refine ⟨some run, by simp only [runningRuns, hf, List.map_cons, List.map_nil], ?_⟩
    rintro r ⟨⟩
    exact hall run (List.mem_singleton_self _)
  | run :: run' :: runs =>
    rw [hf] at hall hnodup
    obtain ⟨hmem, hjob, -⟩ := hall run (by simp)
    obtain ⟨hmem', hjob', -⟩ := hall run' (by simp)
    have hid := hone _ _ _ _ (verdict_of (run?_of_mem hw hmem)) (verdict_of (run?_of_mem hw hmem')) (hjob.trans hjob'.symm)
    obtain rfl := List.inj_on_of_nodup_map hw.runIds hmem hmem' hid
    simp at hnodup

/-- The run a row links to is a running run of its job. -/
def Linked (w : World) (row : JobRow) : Prop := ∀ run ∈ row.run, run ∈ w.runs ∧ run.scheduledJobId = row.job.id ∧ run.status = .running

theorem jobRows_single (hone : ∀ r r' v v', w.verdict r = some v → w.verdict r' = some v' → v.jobId = v'.jobId → r = r')
    (hw : Good w) {job : ScheduledJob} (href : Referred mrs profiles job) (withRun : Bool) :
    ∃ row, jobRows mrs profiles w withRun job = [row] ∧ row.job = job ∧ Linked w row := by
  obtain ⟨mr, hmr, -⟩ := filter_singleton_of_count href.mr
  obtain ⟨profile, hprofile, -⟩ := filter_singleton_of_count href.profile
  obtain ⟨run, hrun, hlinked⟩ := runningRuns_single hone hw job
  unfold jobRows
  rw [hmr, hprofile, List.flatMap_singleton, List.flatMap_singleton]
  cases withRun with
  | false => exact ⟨⟨job, mr, profile, none⟩, rfl, rfl, by simp [Linked]⟩
  | true =>
    rw [if_pos rfl, hrun]
    exact ⟨⟨job, mr, profile, run⟩, rfl, rfl, hlinked⟩

theorem flatMap_jobRows (hone : ∀ r r' v v', w.verdict r = some v → w.verdict r' = some v' → v.jobId = v'.jobId → r = r')
    (hw : Good w) (withRun : Bool) {jobs : List ScheduledJob} (href : ∀ job ∈ jobs, Referred mrs profiles job) :
    (jobs.flatMap (jobRows mrs profiles w withRun)).map (·.job) = jobs ∧ ∀ row ∈ jobs.flatMap (jobRows mrs profiles w withRun), Linked w row := by
  induction jobs with
  | nil => simp
  | cons job jobs ih =>
    obtain ⟨row, hrow, hjob, hlinked⟩ := jobRows_single hone hw (href job (by simp)) withRun
    obtain ⟨hmap, hall⟩ := ih fun job' hmem => href job' (by simp [hmem])
    rw [List.flatMap_cons, hrow]
    constructor
    · simp [hjob, hmap]
    · intro row' hrow'
      rcases List.mem_append.mp hrow' with hmem | hmem
      · obtain rfl := List.mem_singleton.mp hmem
        exact hlinked
      · exact hall row' hmem

/-- The waiting or running jobs of one section. -/
def sectionJobs (w : World) (status : JobStatus) (scheduleType : Option ScheduleType) : List ScheduledJob :=
  (w.jobs.filter fun job => job.status == status && (scheduleType.all fun ty => job.scheduleType == ty)).insertionSort before

theorem jobsWithRefs_jobs (hone : ∀ r r' v v', w.verdict r = some v → w.verdict r' = some v' → v.jobId = v'.jobId → r = r')
    (hw : Good w) (href : ∀ job ∈ w.jobs, Referred mrs profiles job) (status : JobStatus) (scheduleType : Option ScheduleType) (withRun : Bool) :
    (jobsWithRefs mrs profiles w status scheduleType withRun).map (·.job) = sectionJobs w status scheduleType ∧
      ∀ row ∈ jobsWithRefs mrs profiles w status scheduleType withRun, Linked w row := by
  have hreferred : ∀ job ∈ w.jobs.filter (·.status == status), Referred mrs profiles job := fun job hjob =>
    href job (List.mem_filter.mp hjob).1
  obtain ⟨hmap, hlinked⟩ := flatMap_jobRows hone hw withRun hreferred
  unfold jobsWithRefs
  constructor
  · rw [List.map_insertionSort _ before _ _ fun _ _ _ _ => Iff.rfl]
    unfold sectionJobs
    congr 1
    have hfilter : ∀ rows : List JobRow, (rows.filter fun row => match scheduleType with
        | none => true
        | some ty => row.job.scheduleType == ty).map (·.job) =
        (rows.map (·.job)).filter fun job => scheduleType.all fun ty => job.scheduleType == ty := by
      intro rows
      rw [List.filter_map]
      congr 2
      funext row
      cases scheduleType <;> rfl
    rw [hfilter, hmap, List.filter_filter]
    congr 1
    funext job
    rw [Bool.and_comm]
  · intro row hrow
    rw [(List.perm_insertionSort _ _).mem_iff] at hrow
    exact hlinked row (List.mem_filter.mp hrow).1

theorem sectionJobs_queued (w : World) (ty : ScheduleType) : sectionJobs w .queued (some ty) = w.queuedRows ty := by
  unfold sectionJobs World.queuedRows
  congr 2
  funext job
  simp only [Option.all_some, queuedAs, Bool.and_comm]

theorem sectionJobs_perm (w : World) (status : JobStatus) : (sectionJobs w status none).Perm (w.jobs.filter (·.status == status)) := by
  unfold sectionJobs
  simp only [Option.all_none, Bool.and_true]
  exact List.perm_insertionSort _ _

/-- Two filters that exclude each other. -/
theorem filter_or_perm {α : Type} {p q : α → Bool} (h : ∀ a, p a = true → q a = false) (l : List α) :
    (l.filter p ++ l.filter q).Perm (l.filter fun a => p a || q a) := by
  induction l with
  | nil => simp
  | cons a l ih =>
    cases hp : p a with
    | true =>
      simp only [List.filter_cons, hp, h a hp, if_true, Bool.true_or, Bool.false_eq_true, if_false, List.cons_append]
      exact ih.cons a
    | false =>
      cases hq : q a with
      | true =>
        simp only [List.filter_cons, hp, hq, Bool.false_eq_true, if_false, if_true, Bool.false_or]
        exact List.perm_middle.trans (ih.cons a)
      | false => simpa only [List.filter_cons, hp, hq, Bool.false_eq_true, if_false, Bool.or_self] using ih

/-- The sections of the page together hold every unfinished job. -/
theorem unfinished_perm (w : World) : ((sectionJobs w .claimed none ++ sectionJobs w .running none) ++ w.queuedRows .immediate ++
    w.queuedRows .nightly).Perm (w.jobs.filter fun job => job.status == .queued || job.status.inFlight) := by
  have hrunning := ((sectionJobs_perm w .claimed).append (sectionJobs_perm w .running)).trans
    (filter_or_perm (by intro job h; simp [eq_of_beq h]) w.jobs)
  have himmediate := (hrunning.append (List.perm_insertionSort before (w.jobs.filter (queuedAs .immediate)))).trans
    (filter_or_perm (by intro job h; cases hs : job.status <;> simp_all [queuedAs]) w.jobs)
  have hall := (himmediate.append (List.perm_insertionSort before (w.jobs.filter (queuedAs .nightly)))).trans
    (filter_or_perm (by
      intro job h
      cases ht : job.scheduleType <;> cases hs : job.status <;> simp_all [queuedAs]) w.jobs)
  refine hall.trans (.of_eq (List.filter_congr ?_))
  intro job _
  cases hs : job.status <;> cases ht : job.scheduleType <;> simp only [queuedAs, hs, ht, JobStatus.inFlight] <;> rfl

end Rows

theorem quiet_resultsArchive (i : ℕ) (now : Timestamp) : QuietTx (resultsArchive i now) := by
  apply QuietTx.select_bind
  intro w
  cases w.run? i with
  | none => exact .ret _
  | some run =>
    dsimp only [Option.map_some]
    split
    · refine .bind (.commit (by simp) ?_ ?_) fun _ => .ret _
      all_goals
        intro u hu
        obtain rfl := List.mem_singleton.mp hu
        rfl
    · exact .ret _

/-- An archiving request plays the part of a request that holds nothing. -/
def Duty.initial : Duty → Role
  | process p => p.initial
  | archive _ _ => .requesting

theorem Duty.initial_free (d : Duty) : d.initial.free = true := by
  cases d with
  | process p => exact p.initial_free
  | archive => rfl

theorem Duty.moves (rules : Rules) (d : Duty) :
    (d.prog rules).Follows Good (Move rules) rules.mayFail d.initial fun _ _ => True := by
  cases d with
  | process p => exact p.follows rules
  | archive i now =>
    have hquiet : QuietTx (Duty.prog rules (.archive i now)) := (quiet_resultsArchive i now).bind fun _ => .ret ()
    exact (hquiet rules .requesting).mono fun _ _ _ => trivial

theorem installation_invariant (rules : Rules) {c : Pool Duty Site World PyError}
    (h : (installation rules).Reaches (fun _ _ => True) ⟨World.empty, []⟩ c) :
    ∃ rs, Explains (installation rules) Good (Move rules) (fun _ _ => True) (fun _ _ => True) c.threads rs ∧
      Exclusive rules rs c.shared :=
  h.invariant (Duty.moves rules) (fun _ => trivial) (fun _ _ _ _ _ _ _ => trivial)
    (fun _ _ hi => hi.good) (fun _ _ _ _ hi _ hs => hi.step Duty.initial_free hs) .nil (exclusive_empty rules)

/-- Two jobs are enqueued, the first is under way, and its run is archived meanwhile. -/
def oneUnderWay : List (Choice Duty) :=
  [.start (.process (.activity (.request (.enqueue plainRequest)))), .advance 0, .advance 0,
    .start (.process (.activity (.request (.enqueue plainRequest)))), .advance 1, .advance 1,
    .start (.process (.activity (.pump 1)))] ++ List.replicate 6 (.advance 2) ++
      [.start (.archive 1 5), .advance 3, .advance 3]

def plainMr : MergeRequest :=
  ⟨1, "group/project".toList, 7, "Tweak parser".toList, "dev".toList, "tweak".toList, "main".toList, "c".toList, [],
    "opened".toList, none, none⟩

def plainProfile : ModelProfile :=
  ⟨1, "claude".toList, anthropicProvider, "claude-sonnet".toList, none, none, none, true, .null, none⟩

end GitlabReviewer.Live
