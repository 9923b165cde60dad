import GitlabReviewer.Models.World

/-! # The scheduling service

Enqueue, reorder, cancel, nightly set, claim and compact, each as the program
one session runs. A job a caller loaded earlier arrives as the session holds
it, so a check reads what was loaded and not what is stored by now.
-/
namespace GitlabReviewer.Scheduling
open Python Foundation Models

def queuedPositions (scheduleType : ScheduleType) : Tx (List ℕ) :=
  select .request fun w => w.queue scheduleType

def nextPosition (scheduleType : ScheduleType) : Tx ℤ :=
  select .request fun w => (w.topPosition scheduleType).getD 0 + 1

structure EnqueueRequest where
  mergeRequestId : ℕ
  modelProfileId : ℕ
  scheduleType : ScheduleType
  promptOverride : Option Text
  extraProjects : List Json
  postToGitlab : Option Bool
  now : Timestamp

/-- `prompt_override.strip() or None`. -/
def cleanPrompt (promptOverride : Option Text) : Option Text :=
  (promptOverride.map strip).filter truthy

/-- Create a queued job at the end of its schedule type's set. -/
def enqueue (request : EnqueueRequest) : Tx ℕ := do
  let position ← nextPosition request.scheduleType
  let job : ScheduledJob :=
    { id := 0
      mergeRequestId := request.mergeRequestId
      modelProfileId := request.modelProfileId
      promptOverride := cleanPrompt request.promptOverride
      extraProjects := request.extraProjects
      scheduleType := request.scheduleType
      position := position
      status := .queued
      postToGitlab := request.postToGitlab
      createdAt := some request.now
      updatedAt := some request.now }
  .atomic .request (fun _ => true) (fun w => w.insertJob job)
    (fun w => World.nextKey (w.jobs.map (·.id))) .database

inductive Dialect where
  | postgresql
  | sqlite
  deriving DecidableEq

/-- What can be sent as a key: an integer of 64 bits to SQLite, and to Postgres
one of the type of the column, which it is cast to. -/
def Dialect.sends : Dialect → ℤ → Bool
  | .sqlite, i => decide (-9223372036854775808 ≤ i ∧ i < 9223372036854775808)
  | .postgresql, i => decide (-2147483648 ≤ i ∧ i < 2147483648)

/-- What the query raises where one cannot. -/
def Dialect.unsent : Dialect → PyError
  | .sqlite => .overflowError
  | .postgresql => .database

/-- `jobs[job_id].position = position` for `enumerate(ordered, start=1)`. -/
def placed (ordered : List ℤ) (t : Tracked ScheduledJob) : Tracked ScheduledJob :=
  t.set fun job => { job with position := ordered.idxOf (job.id : ℤ) + 1 }

def sameIds (a b : List ℕ) : Bool := a.all b.contains && b.all a.contains

/-- Assign positions 1..n to exactly the queued immediate jobs, in the given
order. `session` holds what the caller loaded before. -/
def rewritePositions (session : List (Tracked ScheduledJob)) (orderedJobIds : List ℤ) : Tx Unit :=
  let ordered := orderedJobIds.eraseDups
  if ordered.isEmpty then .raise (.valueError "no job ids to reorder")
  else do
    let rows ← select .request fun w =>
      w.jobs.filter fun job => ordered.contains (job.id : ℤ) && queuedAs .immediate job
    let jobs := instances session rows
    if jobs.length ≠ ordered.length then
      .raise (.valueError "unknown job id, or a job is no longer queued")
    else do
      let queued ← queuedPositions .immediate
      if sameIds (jobs.map (·.mem.id)) queued = false then
        .raise (.valueError "the queue changed while you were reordering — reload and try again")
      else commit .request (jobs.map (placed ordered)) []

/-- Transactionally rewrite positions 1..n for queued immediate jobs. The ids are whatever integers were submitted;
the moves below send back what they have read, so their query never fails for a key. -/
def reorder (dialect : Dialect) (orderedJobIds : List ℤ) : Tx Unit :=
  if orderedJobIds.all dialect.sends then rewritePositions [] orderedJobIds
  else .raise dialect.unsent

def notQueued (job : ScheduledJob) : PyError :=
  .valueError ("job " ++ toString job.id ++ " is not queued (status: " ++ job.status.value ++ ")")

/-- `_require_queued_immediate`: the error it raises, if any. -/
def requireQueuedImmediate (job : ScheduledJob) : Option PyError :=
  if job.status ≠ .queued then some (notQueued job)
  else if job.scheduleType ≠ .immediate then
    some (.valueError ("job " ++ toString job.id ++ " is not in the immediate queue"))
  else none

/-- Move a queued immediate job to position 1 (others shift down). -/
def moveToTop (job : Tracked ScheduledJob) : Tx Unit :=
  match requireQueuedImmediate job.mem with
  | some e => .raise e
  | none => do
      let queued ← queuedPositions .immediate
      rewritePositions [job] ((job.mem.id :: queued.filter (· ≠ job.mem.id)).map Nat.cast)

/-- Move a queued immediate job to the end of the queue. -/
def moveToBottom (job : Tracked ScheduledJob) : Tx Unit :=
  match requireQueuedImmediate job.mem with
  | some e => .raise e
  | none => do
      let queued ← queuedPositions .immediate
      rewritePositions [job] ((queued.filter (· ≠ job.mem.id) ++ [job.mem.id]).map Nat.cast)

/-- Positions 1..n down the list; a job already in its place is left alone. -/
def renumber (jobs : List (Tracked ScheduledJob)) : List (Tracked ScheduledJob) :=
  jobs.mapIdx fun i t =>
    if t.mem.position ≠ (i : ℤ) + 1 then t.set fun job => { job with position := (i : ℤ) + 1 } else t

/-- Renumber the queued immediate jobs to dense 1..n. -/
def compactPositions (site : Site) (session : List (Tracked ScheduledJob)) : Tx Unit := do
  let rows ← select site fun w => w.queuedRows .immediate
  commit site (renumber (instances session rows)) []

def setStatus (status : JobStatus) (now : Timestamp) (t : Tracked ScheduledJob) : Tracked ScheduledJob :=
  t.set fun job => { job with status := status, updatedAt := some now }

/-- Cancel a queued job (any schedule type) and compact the immediate queue. -/
def cancel (job : Tracked ScheduledJob) (now : Timestamp) : Tx Unit :=
  if job.mem.status ≠ .queued then .raise (notQueued job.mem)
  else do
    let job := setStatus .cancelled now job
    commit .request [job] []
    compactPositions .request [job.committed]

/-- The flip between the two sets, at the given position of the new one. -/
def flip (scheduleType : ScheduleType) (position : ℤ) (now : Timestamp) (t : Tracked ScheduledJob) :
    Tracked ScheduledJob :=
  t.set fun job =>
    { job with scheduleType := scheduleType, position := position, updatedAt := some now }

/-- Switch a queued job from the immediate queue into the nightly set. -/
def enrollNightly (job : Tracked ScheduledJob) (now : Timestamp) : Tx Unit :=
  if job.mem.status ≠ .queued then .raise (notQueued job.mem)
  else if job.mem.scheduleType = .nightly then .ret ()
  else do
    let position ← nextPosition .nightly
    commit .request [flip .nightly position now job] []

/-- Switch a queued nightly job back into the immediate queue (at the end). -/
def removeNightly (job : Tracked ScheduledJob) (now : Timestamp) : Tx Unit :=
  if job.mem.status ≠ .queued then .raise (notQueued job.mem)
  else if job.mem.scheduleType ≠ .nightly then
    .raise (.valueError ("job " ++ toString job.mem.id ++ " is not in the nightly set"))
  else do
    let position ← nextPosition .immediate
    commit .request [flip .immediate position now job] []

/-- Queued nightly jobs, ordered by position. -/
def listNightly : Tx (List (Tracked ScheduledJob)) :=
  select .request fun w => (w.queuedRows .nightly).map Tracked.load

def promoted (base : ℤ) (now : Timestamp) (nightlies : List (Tracked ScheduledJob)) :
    List (Tracked ScheduledJob) :=
  nightlies.mapIdx fun i t => flip .immediate (base + (i + 1)) now t

/-- Flip all queued nightly jobs into the immediate queue with fresh positions. -/
def promoteNightly (now : Timestamp) : Tx (List ℕ) := do
  let nightlies ← listNightly
  if nightlies.isEmpty then .ret []
  else do
    let base ← select .request fun w => (w.topPosition .immediate).getD 0
    commit .request (promoted base now nightlies) []
    .ret (nightlies.map (·.mem.id))

def claimable (w : World) : Option ScheduledJob := (w.queuedRows .immediate).head?

theorem claimable_mem {w : World} {row : ScheduledJob} (h : claimable w = some row) :
    row ∈ w.jobs ∧ row.scheduleType = .immediate ∧ row.status = .queued := by
  have hmem := World.mem_queuedRows.mp (List.mem_of_head? h)
  exact ⟨hmem.1, queuedAs_iff.mp hmem.2⟩

/-- `FOR UPDATE SKIP LOCKED`: the first row that no other claim has locked. -/
def lockable (w : World) : Option ScheduledJob :=
  (w.queuedRows .immediate).find? fun job => !w.locked.contains job.id

theorem lockable_mem {w : World} {row : ScheduledJob} (h : lockable w = some row) :
    row ∈ w.jobs ∧ row.scheduleType = .immediate ∧ row.status = .queued ∧ row.id ∉ w.locked := by
  have hmem := World.mem_queuedRows.mp (List.mem_of_find?_eq_some h)
  have hfree : row.id ∉ w.locked := by simpa using List.find?_some h
  exact ⟨hmem.1, (queuedAs_iff.mp hmem.2).1, (queuedAs_iff.mp hmem.2).2, hfree⟩

def lockRow (w : World) : World :=
  match lockable w with
  | some job => { w with locked := job.id :: w.locked }
  | none => w

theorem lockRow_tables (w : World) :
    (lockRow w).jobs = w.jobs ∧ (lockRow w).runs = w.runs ∧ (lockRow w).notes = w.notes := by
  unfold lockRow
  split
  · exact ⟨rfl, rfl, rfl⟩
  · exact ⟨rfl, rfl, rfl⟩

/-- The commit of a claim on Postgres: the row and its lock are this session's. -/
def claimLocked (job : Tracked ScheduledJob) (w : World) : World :=
  { w.commitRows [job] [] with
    locked := w.locked.erase job.mem.id
    claims := job.mem.id :: w.claims }

def claimPostgres (now : Timestamp) : Tx (Option ScheduledJob) :=
  .step .claim (fun _ => true) lockRow
    (fun w => match lockable w with
      | none => .ret none
      | some row =>
          let job := setStatus .claimed now (Tracked.load row)
          -- a transaction that fails to commit gives its lock up
          .step .claim (fun _ => true) (claimLocked job) (fun _ => .ret (some job.mem))
            (.step .outside (fun _ => true) (fun w => { w with locked := w.locked.erase row.id })
              (fun _ => .raise .database) (.raise .database)))
    (.raise .database)

/-- The row the guarded `UPDATE ... WHERE id = ? AND status = 'queued'` hits. -/
def claimedRow (i : ℕ) (job : ScheduledJob) : Bool := job.id == i && job.status == .queued

def claimRow (now : Timestamp) (i : ℕ) (w : World) : World :=
  { w with
    jobs := w.jobs.map fun job =>
      if claimedRow i job then { job with status := .claimed, updatedAt := some now } else job
    claims := i :: w.claims }

/-- `BEGIN IMMEDIATE` makes the select and the guarded update one step. -/
def claimFirst (now : Timestamp) (w : World) : World :=
  match claimable w with
  | some row => claimRow now row.id w
  | none => w

theorem claimFirst_runs (now : Timestamp) (w : World) :
    (claimFirst now w).runs = w.runs ∧ (claimFirst now w).notes = w.notes := by
  unfold claimFirst
  split
  · exact ⟨rfl, rfl⟩
  · exact ⟨rfl, rfl⟩

/-- The other columns of the jobs after a claim. -/
theorem claimFirst_map {β : Type} {f : ScheduledJob → β} {now : Timestamp}
    (hf : ∀ job, f { job with status := .claimed, updatedAt := some now } = f job) (w : World) :
    (claimFirst now w).jobs.map f = w.jobs.map f := by
  unfold claimFirst
  split
  · unfold claimRow
    dsimp only
    rw [List.map_map]
    apply List.map_congr_left
    intro job _
    rw [Function.comp_apply]
    split
    · exact hf job
    · rfl
  · rfl

/-- The claimed id, unless the update's row count is not one. -/
def claimedId (w : World) : Option ℕ :=
  (claimable w).bind fun row => if w.jobs.countP (claimedRow row.id) ≠ 1 then none else some row.id

def claimSqlite (now : Timestamp) : Tx (Option ScheduledJob) := do
  let claimed ← Program.atomic .claim (fun _ => true) (claimFirst now) claimedId .database
  match claimed with
  | none => .ret none
  | some i => do
      let job ← getJob .reload i
      .ret (job.map (·.mem))

/-- Atomically claim the lowest-position queued immediate job. -/
def claimNext (dialect : Dialect) (now : Timestamp) : Tx (Option ScheduledJob) :=
  match dialect with
  | .postgresql => claimPostgres now
  | .sqlite => claimSqlite now

end GitlabReviewer.Scheduling
