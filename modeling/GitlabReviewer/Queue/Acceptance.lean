import GitlabReviewer.Queue.Refinement

/-! # Which requests are accepted

Every check of a scheduling request stands before its first write: a request is
carried out as a whole, or it raises and no row has changed. What it raises is a
`ValueError`, unless the query of a reordering cannot take the submitted ids.
-/
namespace GitlabReviewer.Queue
open Python Foundation Models Scheduling

/-- The requests on the queue that have something to check. A job is the row its caller loaded. -/
inductive Request where
  | reorder (dialect : Dialect) (orderedJobIds : List ℤ)
  | moveToTop (job : ScheduledJob)
  | moveToBottom (job : ScheduledJob)
  | cancel (job : ScheduledJob) (now : Timestamp)
  | enrollNightly (job : ScheduledJob) (now : Timestamp)
  | removeNightly (job : ScheduledJob) (now : Timestamp)

namespace Request

def prog : Request → Tx Unit
  | reorder dialect orderedJobIds => Scheduling.reorder dialect orderedJobIds
  | moveToTop job => Scheduling.moveToTop (Tracked.load job)
  | moveToBottom job => Scheduling.moveToBottom (Tracked.load job)
  | cancel job now => Scheduling.cancel (Tracked.load job) now
  | enrollNightly job now => Scheduling.enrollNightly (Tracked.load job) now
  | removeNightly job now => Scheduling.removeNightly (Tracked.load job) now

def Loaded (w : World) : Request → Prop
  | reorder _ _ => True
  | moveToTop job | moveToBottom job => w.job? job.id = some job
  | cancel job _ | enrollNightly job _ | removeNightly job _ => w.job? job.id = some job

/-- `ids` names exactly the queued immediate jobs, each any number of times. -/
def NamesQueue (w : World) (ids : List ℤ) : Prop :=
  ids ≠ [] ∧ ∀ i, i ∈ ids ↔ ∃ job ∈ w.jobs, (job.id : ℤ) = i ∧ job.scheduleType = .immediate ∧ job.status = .queued

def Accepted (w : World) : Request → Prop
  | reorder _ orderedJobIds => NamesQueue w orderedJobIds
  | moveToTop job | moveToBottom job => job.status = .queued ∧ job.scheduleType = .immediate
  | cancel job _ | enrollNightly job _ => job.status = .queued
  | removeNightly job _ => job.status = .queued ∧ job.scheduleType = .nightly

/-- The database can be asked for the ids of the request. -/
def Sendable : Request → Prop
  | reorder dialect orderedJobIds => ∀ i ∈ orderedJobIds, dialect.sends i = true
  | _ => True

end Request

section Acceptance
variable {w : World}

/-- Carried out, or refused with a `ValueError` before any write. -/
def AllOrNothing (w : World) (accepted : Prop) (p : Tx Unit) : Prop :=
  (accepted → ∃ w', p.run w = some (.ok (), w')) ∧
    (¬ accepted → ∃ message, p.run w = some (.error (.valueError message), w))

theorem AllOrNothing.refused {accepted : Prop} (h : ¬ accepted) (message : String) :
    AllOrNothing w accepted (.raise (.valueError message)) :=
  ⟨fun ha => absurd ha h, fun _ => ⟨message, rfl⟩⟩

theorem AllOrNothing.done {accepted : Prop} {p : Tx Unit} {w' : World} (ha : accepted)
    (h : p.run w = some (.ok (), w')) : AllOrNothing w accepted p :=
  ⟨fun _ => ⟨w', h⟩, fun hno => absurd ha hno⟩

/-- A read decides nothing by itself. -/
theorem AllOrNothing.select {α : Type} {accepted : Prop} {query : World → α} {f : α → Tx Unit}
    (h : AllOrNothing w accepted (f (query w))) :
    AllOrNothing w accepted (Program.bind (Models.select .request query) f) := h

theorem run_commit (hl : w.locked = []) (jobs : List (Tracked ScheduledJob)) :
    (commit .request jobs []).run w = some (.ok (), w.commitRows jobs []) := by
  have hready : w.unlocked jobs = true := by simp [World.unlocked, hl]
  exact if_pos hready

theorem AllOrNothing.commit {accepted : Prop} (hl : w.locked = []) (ha : accepted)
    (jobs : List (Tracked ScheduledJob)) : AllOrNothing w accepted (Models.commit .request jobs []) :=
  .done ha (run_commit hl jobs)

theorem namesQueue_iff {ids : List ℤ} :
    Request.NamesQueue w ids ↔ ids ≠ [] ∧ ∀ i, i ∈ ids.eraseDups ↔ i ∈ (w.queue .immediate).map Nat.cast := by
  unfold Request.NamesQueue World.queue
  refine and_congr_right fun _ => forall_congr' fun i => ?_
  rw [List.mem_eraseDups, List.map_map, List.mem_map]
  refine iff_congr Iff.rfl ⟨?_, ?_⟩
  · rintro ⟨job, hjob, rfl, hq⟩
    exact ⟨job, World.mem_queuedRows.mpr ⟨hjob, queuedAs_iff.mpr hq⟩, rfl⟩
  · rintro ⟨job, hjob, rfl⟩
    obtain ⟨hmem, hq⟩ := World.mem_queuedRows.mp hjob
    exact ⟨job, hmem, rfl, queuedAs_iff.mp hq⟩

theorem eraseDups_eq_nil {ids : List ℤ} : ids.eraseDups = [] ↔ ids = [] := by
  rw [List.eq_nil_iff_forall_not_mem, List.eq_nil_iff_forall_not_mem]
  simp only [List.mem_eraseDups]

/-- A list that names exactly the queue passes both comparisons. -/
theorem selected_of_names (hw : Good w) {ordered : List ℤ} (hnodup : ordered.Nodup)
    (hmem : ∀ i, i ∈ ordered ↔ i ∈ (w.queue .immediate).map Nat.cast) :
    (selected ordered w).length = ordered.length ∧
      sameIds ((selected ordered w).map (·.id)) (w.queue .immediate) = true := by
  have hsame : ∀ i : ℤ, i ∈ ((selected ordered w).map fun row => (row.id : ℤ)) ↔ i ∈ ordered := by
    intro i
    rw [List.mem_map]
    constructor
    · rintro ⟨row, hrow, rfl⟩
      exact (mem_selected.mp hrow).2.1
    · intro hi
      obtain ⟨k, hk, rfl⟩ := List.mem_map.mp ((hmem i).mp hi)
      obtain ⟨row, hrow, rfl⟩ := List.mem_map.mp hk
      obtain ⟨hjob, hq⟩ := World.mem_queuedRows.mp hrow
      exact ⟨row, mem_selected.mpr ⟨hjob, hi, hq⟩, rfl⟩
  constructor
  · have hperm := (List.perm_ext_iff_of_nodup (nodup_selected hw ordered) hnodup).mpr hsame
    simpa using hperm.length_eq
  · rw [sameIds_iff]
    intro i
    rw [← @mem_cast (w.queue .immediate), ← hmem, ← hsame, List.mem_map, List.mem_map]
    simp only [Int.natCast_inj]

theorem allOrNothing_rewritePositions (hw : Good w) (hl : w.locked = []) {session : List (Tracked ScheduledJob)}
    (hs : Current w session) (ids : List ℤ) :
    AllOrNothing w (Request.NamesQueue w ids) (rewritePositions session ids) := by
  have hnodup : ids.eraseDups.Nodup := nodup_eraseDups ids
  unfold rewritePositions
  dsimp only
  split
  · rename_i hempty
    refine .refused ?_ _
    rintro ⟨hne, -⟩
    exact hne (eraseDups_eq_nil.mp (List.isEmpty_iff.mp hempty))
  · rename_i hnonempty
    have hne : ids ≠ [] := by
      rintro rfl
      exact hnonempty rfl
    refine .select ?_
    rw [show (w.jobs.filter fun job => ids.eraseDups.contains (job.id : ℤ) && queuedAs .immediate job) =
      selected ids.eraseDups w from rfl]
    rw [instances_current hs hw fun row hrow => ⟨(mem_selected.mp hrow).1, (mem_selected.mp hrow).2.2⟩]
    have hids : (((selected ids.eraseDups w).map Tracked.load).map (·.mem.id)) =
        (selected ids.eraseDups w).map (·.id) := by simp
    split
    · rename_i hlen
      refine .refused ?_ _
      intro hnames
      apply hlen
      rw [List.length_map]
      exact (selected_of_names hw hnodup (namesQueue_iff.mp hnames).2).1
    · rename_i hlen
      refine .select ?_
      rw [hids]
      split
      · rename_i hdiffer
        refine .refused ?_ _
        intro hnames
        have hsame := (selected_of_names hw hnodup (namesQueue_iff.mp hnames).2).2
        rw [show w.queue .immediate = (fun w : World => w.queue .immediate) w from rfl, hdiffer] at hsame
        cases hsame
      · rename_i hsame
        obtain ⟨keys, hcast, hmem⟩ : ∃ keys : List ℕ, ids.eraseDups = keys.map Nat.cast ∧
            ∀ i, i ∈ keys ↔ i ∈ w.queue .immediate := by
          apply ordered_eq_queue hw
          · simpa using hlen
          · simpa using hsame
        refine .commit hl (namesQueue_iff.mpr ⟨hne, fun i => ?_⟩) _
        rw [hcast, List.mem_map, List.mem_map]
        simp only [hmem]

/-- The queue with one of its jobs moved names the queue. -/
theorem namesQueue_moved {row : ScheduledJob} (hrow : w.job? row.id = some row) (hst : row.status = .queued)
    (hty : row.scheduleType = .immediate) {keys : List ℕ} (hne : keys ≠ [])
    (hkeys : ∀ i, i ∈ keys ↔ i = row.id ∨ i ∈ w.queue .immediate) : Request.NamesQueue w (keys.map Nat.cast) := by
  have hself : row.id ∈ w.queue .immediate :=
    List.mem_map.mpr ⟨row, World.mem_queuedRows.mpr ⟨job?_mem hrow, queuedAs_iff.mpr ⟨hty, hst⟩⟩, rfl⟩
  have hsame : ∀ i, i ∈ keys ↔ i ∈ w.queue .immediate := by
    intro i
    rw [hkeys i]
    constructor
    · rintro (rfl | hi)
      · exact hself
      · exact hi
    · exact .inr
  refine namesQueue_iff.mpr ⟨by simpa using hne, fun i => ?_⟩
  rw [List.mem_eraseDups, List.mem_map, List.mem_map]
  simp only [hsame]

theorem allOrNothing_required {row : ScheduledJob} {f : Tx Unit} (accepted : Prop)
    (hiff : accepted ↔ row.status = .queued ∧ row.scheduleType = .immediate)
    (hf : accepted → AllOrNothing w accepted f) :
    AllOrNothing w accepted (match requireQueuedImmediate row with
      | some e => .raise e
      | none => f) := by
  unfold requireQueuedImmediate
  by_cases hst : row.status = .queued
  · by_cases hty : row.scheduleType = .immediate
    · rw [if_neg (not_not.mpr hst), if_neg (not_not.mpr hty)]
      exact hf (hiff.mpr ⟨hst, hty⟩)
    · rw [if_neg (not_not.mpr hst), if_pos hty]
      exact .refused (fun ha => hty (hiff.mp ha).2) _
  · rw [if_pos hst]
    exact .refused (fun ha => hst (hiff.mp ha).1) _

theorem AllOrNothing.of_accepted {accepted accepted' : Prop} {p : Tx Unit} (ha : accepted) (ha' : accepted')
    (h : AllOrNothing w accepted' p) : AllOrNothing w accepted p :=
  ⟨fun _ => h.1 ha', fun hno => absurd ha hno⟩

theorem allOrNothing_moveToTop (hw : Good w) (hl : w.locked = []) {row : ScheduledJob}
    (hrow : w.job? row.id = some row) :
    AllOrNothing w (row.status = .queued ∧ row.scheduleType = .immediate) (Scheduling.moveToTop (Tracked.load row)) := by
  refine allOrNothing_required _ Iff.rfl ?_
  rintro ⟨hst, hty⟩
  refine .select (.of_accepted ⟨hst, hty⟩ ?_ (allOrNothing_rewritePositions hw hl (current_load hrow) _))
  refine namesQueue_moved hrow hst hty (List.cons_ne_nil _ _) ?_
  intro i
  by_cases hi : i = row.id <;> simp [hi]

theorem allOrNothing_moveToBottom (hw : Good w) (hl : w.locked = []) {row : ScheduledJob}
    (hrow : w.job? row.id = some row) :
    AllOrNothing w (row.status = .queued ∧ row.scheduleType = .immediate)
      (Scheduling.moveToBottom (Tracked.load row)) := by
  refine allOrNothing_required _ Iff.rfl ?_
  rintro ⟨hst, hty⟩
  refine .select (.of_accepted ⟨hst, hty⟩ ?_ (allOrNothing_rewritePositions hw hl (current_load hrow) _))
  refine namesQueue_moved hrow hst hty (by simp) ?_
  intro i
  by_cases hi : i = row.id <;> simp [hi]

theorem allOrNothing_cancel (hw : Good w) (hl : w.locked = []) {row : ScheduledJob}
    (hrow : w.job? row.id = some row) (now : Timestamp) :
    AllOrNothing w (row.status = .queued) (Scheduling.cancel (Tracked.load row) now) := by
  unfold Scheduling.cancel
  by_cases hst : row.status = .queued
  · rw [if_neg (not_not.mpr (show (Tracked.load row).mem.status = .queued from hst))]
    have hfresh : Fresh w [setStatus .cancelled now (Tracked.load row)] := fresh_singleton rfl hrow
    have hgood : Good (w.commitRows [setStatus .cancelled now (Tracked.load row)] []) :=
      good_commitRows hw hfresh.keysKept (by simp)
    have hcurrent : Current (w.commitRows [setStatus .cancelled now (Tracked.load row)] [])
        [(setStatus .cancelled now (Tracked.load row)).committed] := by
      apply current_of_status
      have hstored := jobStatus_of (job?_commitRows_single (t := setStatus .cancelled now (Tracked.load row))
        (r := []) rfl hrow)
      intro t ht hs
      obtain rfl := List.mem_singleton.mp ht
      cases hstored.symm.trans hs
    have hrun := (Program.run_bind_ok (run_commit hl [setStatus .cancelled now (Tracked.load row)]) fun _ =>
      compactPositions .request [(setStatus .cancelled now (Tracked.load row)).committed]).trans
        (run_compactPositions hgood hl .request hcurrent)
    exact .done hst hrun
  · rw [if_pos (show (Tracked.load row).mem.status ≠ .queued from hst)]
    exact .refused hst _

theorem allOrNothing_enrollNightly (hl : w.locked = []) (row : ScheduledJob) (now : Timestamp) :
    AllOrNothing w (row.status = .queued) (Scheduling.enrollNightly (Tracked.load row) now) := by
  unfold Scheduling.enrollNightly
  by_cases hst : row.status = .queued
  · rw [if_neg (not_not.mpr (show (Tracked.load row).mem.status = .queued from hst))]
    split
    · exact .done hst rfl
    · exact .select (.commit hl hst _)
  · rw [if_pos (show (Tracked.load row).mem.status ≠ .queued from hst)]
    exact .refused hst _

theorem allOrNothing_removeNightly (hl : w.locked = []) (row : ScheduledJob) (now : Timestamp) :
    AllOrNothing w (row.status = .queued ∧ row.scheduleType = .nightly)
      (Scheduling.removeNightly (Tracked.load row) now) := by
  unfold Scheduling.removeNightly
  by_cases hst : row.status = .queued
  · rw [if_neg (not_not.mpr (show (Tracked.load row).mem.status = .queued from hst))]
    by_cases hty : row.scheduleType = .nightly
    · rw [if_neg (not_not.mpr (show (Tracked.load row).mem.scheduleType = .nightly from hty))]
      exact .select (.commit hl ⟨hst, hty⟩ _)
    · rw [if_pos (show (Tracked.load row).mem.scheduleType ≠ .nightly from hty)]
      exact .refused (fun ha => hty ha.2) _
  · rw [if_pos (show (Tracked.load row).mem.status ≠ .queued from hst)]
    exact .refused (fun ha => hst ha.1) _

/-- Every request on a stored row, from any database where no claim is in flight. -/
theorem Request.allOrNothing (hw : Good w) (hl : w.locked = []) (request : Request) (hloaded : request.Loaded w)
    (hsend : request.Sendable) : AllOrNothing w (request.Accepted w) request.prog := by
  cases request with
  | reorder dialect ids =>
    have hrun : Scheduling.reorder dialect ids = rewritePositions [] ids := if_pos (List.all_eq_true.mpr hsend)
    show AllOrNothing w _ (Scheduling.reorder dialect ids)
    rw [hrun]
    exact allOrNothing_rewritePositions hw hl current_nil ids
  | moveToTop job => exact allOrNothing_moveToTop hw hl hloaded
  | moveToBottom job => exact allOrNothing_moveToBottom hw hl hloaded
  | cancel job now => exact allOrNothing_cancel hw hl hloaded now
  | enrollNightly job now => exact allOrNothing_enrollNightly hl job now
  | removeNightly job now => exact allOrNothing_removeNightly hl job now

variable (w) in
/-- A request whose ids cannot be sent stops at its first query. -/
theorem Request.run_unsendable {request : Request} (h : ¬ request.Sendable) :
    ∃ dialect : Dialect, request.prog.run w = some (.error dialect.unsent, w) := by
  cases request with
  | reorder dialect ids =>
    have hrun : Scheduling.reorder dialect ids = .raise dialect.unsent := if_neg fun hall => h (List.all_eq_true.mp hall)
    refine ⟨dialect, ?_⟩
    show (Scheduling.reorder dialect ids).run w = _
    rw [hrun]
    rfl
  | _ => exact absurd trivial h

theorem Dialect.unsent_ne (dialect : Dialect) (message : String) : dialect.unsent ≠ .valueError message := by
  cases dialect <;> exact nofun

end Acceptance

/-- A request succeeds exactly where it may, and otherwise raises a `ValueError`, exactly if its ids can be sent;
whatever it raises, every row is as it was. -/
theorem accepted_or_unchanged {w : World} (h : Reachable w) (request : Request) (hloaded : request.Loaded w) :
    (((request.Accepted w ↔ ∃ w', request.prog.run w = some (.ok (), w')) ∧
        (¬ request.Accepted w → ∃ message, request.prog.run w = some (.error (.valueError message), w))) ↔
      request.Sendable) ∧
      ∀ e w', request.prog.run w = some (.error e, w') → w' = w := by
  obtain ⟨q, hq⟩ := h.ordered
  by_cases hsend : request.Sendable
  · obtain ⟨hdone, hrefused⟩ := request.allOrNothing hq.good hq.unlocked hloaded hsend
    refine ⟨iff_of_true ⟨⟨hdone, ?_⟩, hrefused⟩ hsend, ?_⟩
    · rintro ⟨w', hrun⟩
      by_contra hno
      obtain ⟨message, herror⟩ := hrefused hno
      rw [hrun] at herror
      cases herror
    · intro e w' hrun
      by_cases ha : request.Accepted w
      · obtain ⟨w'', hok⟩ := hdone ha
        rw [hrun] at hok
        cases hok
      · obtain ⟨message, herror⟩ := hrefused ha
        rw [hrun] at herror
        cases herror
        rfl
  · obtain ⟨dialect, hrun⟩ := request.run_unsendable w hsend
    refine ⟨iff_of_false ?_ hsend, fun e w' hrun' => ?_⟩
    · rintro ⟨hiff, hrefused⟩
      rw [hrun] at hiff hrefused
      by_cases ha : request.Accepted w
      · obtain ⟨w', hok⟩ := hiff.mp ha
        cases hok
      · obtain ⟨message, herror⟩ := hrefused ha
        exact Dialect.unsent_ne dialect message (by simpa using herror)
    · rw [hrun] at hrun'
      cases hrun'
      rfl

section Example

def queuedJob (i : ℕ) : ScheduledJob := ⟨i, 1, 1, none, [], .immediate, i, .queued, none, some 0, some 0⟩

def twoJobs : World := { World.empty with jobs := [queuedJob 1, queuedJob 2] }

theorem reachable_twoJobs : Reachable twoJobs := by
  have hone : Reachable _ :=
    .op (x := .ok (.created 1)) (.enqueue ⟨1, 1, .immediate, none, [], none, 0⟩) .empty trivial (.of_run rfl)
  exact .op (x := .ok (.created 2)) (.enqueue ⟨1, 1, .immediate, none, [], none, 0⟩) hone trivial (.of_run rfl)

/-- The list names the first job twice and forgets the second. -/
theorem accepted_or_unchanged_stale :
    queues twoJobs = ⟨[1, 2], []⟩ ∧ ¬ (Request.reorder .sqlite [1, 1]).Accepted twoJobs ∧
      (Request.reorder .sqlite [1, 1]).Sendable ∧
        ((((Request.reorder .sqlite [1, 1]).Accepted twoJobs ↔
            ∃ w', (Request.reorder .sqlite [1, 1]).prog.run twoJobs = some (.ok (), w')) ∧
          (¬ (Request.reorder .sqlite [1, 1]).Accepted twoJobs → ∃ message,
            (Request.reorder .sqlite [1, 1]).prog.run twoJobs = some (.error (.valueError message), twoJobs))) ↔
          (Request.reorder .sqlite [1, 1]).Sendable) ∧
        ∀ e w', (Request.reorder .sqlite [1, 1]).prog.run twoJobs = some (.error e, w') → w' = twoJobs := by
  refine ⟨rfl, ?_, by simp [Request.Sendable, Dialect.sends], accepted_or_unchanged reachable_twoJobs (.reorder .sqlite [1, 1]) trivial⟩
  rintro ⟨-, hnames⟩
  have hmissing := (hnames 2).mpr ⟨queuedJob 2, List.mem_cons_of_mem _ (List.mem_singleton_self _), rfl, rfl, rfl⟩
  simp at hmissing

/-- An id beyond 64 bits is unknown, and the request raises an `OverflowError`. -/
theorem reorder_overflows :
    Reachable twoJobs ∧ ¬ (Request.reorder .sqlite [1, 2, 2 ^ 63]).Accepted twoJobs ∧
      (Request.reorder .sqlite [1, 2, 2 ^ 63]).prog.run twoJobs = some (.error .overflowError, twoJobs) := by
  refine ⟨reachable_twoJobs, ?_, rfl⟩
  rintro ⟨-, hnames⟩
  obtain ⟨job, hjob, hid, -⟩ := (hnames (2 ^ 63)).mp (by simp)
  have hsmall : job.id ≤ 2 := by
    have hall : ∀ job ∈ twoJobs.jobs, job.id ≤ 2 := by decide
    exact hall job hjob
  omega

end Example

end GitlabReviewer.Queue
