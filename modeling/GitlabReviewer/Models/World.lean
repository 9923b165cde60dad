import GitlabReviewer.Foundation.Pool
import GitlabReviewer.Models.Rows
import Mathlib.Data.List.Sort

/-! # The database and the primitive steps of a session

The shared state is the two tables, the row locks of claims that have not
committed yet, and a history no program reads: the jobs claimed, the runs whose
worker loaded its row, the jobs reviewed, the notes posted and the jobs whose
permit was released. A `SELECT` and a commit are one atomic step each.
-/
namespace GitlabReviewer.Models
open Python Foundation

/-- One call of `post_note` for a run, with its body and the id it returned if it returned one. -/
structure NoteCall where
  jobId : ℕ
  runId : ℕ
  body : Text
  noteId : Option ℤ
  deriving DecidableEq

structure World where
  jobs : List ScheduledJob
  runs : List ReviewRun
  locked : List ℕ
  claims : List ℕ
  opened : List ℕ
  reviews : List ℕ
  notes : List NoteCall
  released : List ℕ
  deriving DecidableEq

def World.empty : World := ⟨[], [], [], [], [], [], [], []⟩

/-- Where in the service code a step belongs: it decides which steps an
assumption about failures lets raise. `reload` reads a claimed row back after
the claim has committed, `cleanup` is the work of an exception handler, and
`outside` is a call that leaves the database, which has no failure of its own. -/
inductive Site where
  | request
  | claim
  | reload
  | creation
  | execution
  | cleanup
  | outside
  deriving DecidableEq

inductive PyError where
  | valueError (message : String)
  | overflowError
  | database
  | notFound (id : ℕ)
  deriving DecidableEq

abbrev Tx (α : Type) := Program Site World PyError α

/-- `ORDER BY position, id`. -/
def before (a b : ScheduledJob) : Prop := a.position < b.position ∨ (a.position = b.position ∧ a.id ≤ b.id)

instance : DecidableRel before := fun _ _ => inferInstanceAs (Decidable (_ ∨ _))

def queuedAs (ty : ScheduleType) (job : ScheduledJob) : Bool :=
  job.scheduleType == ty && job.status == .queued

theorem queuedAs_iff {ty : ScheduleType} {job : ScheduledJob} :
    queuedAs ty job = true ↔ job.scheduleType = ty ∧ job.status = .queued := by simp [queuedAs]

namespace World

def job? (w : World) (i : ℕ) : Option ScheduledJob := lookup w.jobs i
def run? (w : World) (i : ℕ) : Option ReviewRun := lookup w.runs i

/-- The queued jobs of one schedule type, in queue order. -/
def queuedRows (w : World) (ty : ScheduleType) : List ScheduledJob :=
  (w.jobs.filter (queuedAs ty)).insertionSort before

def queue (w : World) (ty : ScheduleType) : List ℕ := (w.queuedRows ty).map (·.id)

theorem mem_queuedRows {w : World} {ty : ScheduleType} {job : ScheduledJob} :
    job ∈ w.queuedRows ty ↔ job ∈ w.jobs ∧ queuedAs ty job = true := by
  rw [queuedRows, (List.perm_insertionSort before _).mem_iff, List.mem_filter]

/-- `SELECT max(position)` over the queued jobs of one type. -/
def topPosition (w : World) (ty : ScheduleType) : Option ℤ :=
  ((w.jobs.filter (queuedAs ty)).map (·.position)).max?

/-- The key the database gives the next row. -/
def nextKey (keys : List ℕ) : ℕ := keys.foldr max 0 + 1

def commitRows (w : World) (jobs : List (Tracked ScheduledJob)) (runs : List (Tracked ReviewRun)) : World :=
  { w with jobs := store jobs w.jobs, runs := store runs w.runs }

def insertJob (w : World) (job : ScheduledJob) : World :=
  { w with jobs := w.jobs ++ [{ job with id := nextKey (w.jobs.map (·.id)) }] }

def insertRun (w : World) (run : ReviewRun) : World :=
  { w with runs := w.runs ++ [{ run with id := nextKey (w.runs.map (·.id)) }] }

/-- An `UPDATE` waits while another transaction holds the row's lock. -/
def unlocked (w : World) (jobs : List (Tracked ScheduledJob)) : Bool :=
  jobs.all fun t => !t.dirty || !w.locked.contains t.mem.id

end World

def select {α : Type} (site : Site) (query : World → α) : Tx α :=
  .atomic site (fun _ => true) id query .database

/-- `db.commit()` of a session that changed the given rows. -/
def commit (site : Site) (jobs : List (Tracked ScheduledJob)) (runs : List (Tracked ReviewRun)) : Tx Unit :=
  .atomic site (fun w => w.unlocked jobs) (fun w => w.commitRows jobs runs) (fun _ => ()) .database

/-- A call that leaves its trace in the history. -/
def record (act : World → World) : Tx Unit :=
  .step .outside (fun _ => true) act (fun _ => .ret ()) (.ret ())

def getJob (site : Site) (i : ℕ) : Tx (Option (Tracked ScheduledJob)) :=
  select site fun w => (w.job? i).map Tracked.load

def getRun (site : Site) (i : ℕ) : Tx (Option (Tracked ReviewRun)) :=
  select site fun w => (w.run? i).map Tracked.load

/-- The objects a query returns: a row the session already holds keeps the
session's values, every other row is loaded. -/
def instances (session : List (Tracked ScheduledJob)) (rows : List ScheduledJob) :
    List (Tracked ScheduledJob) :=
  rows.map fun row => (held session row.id).getD (Tracked.load row)

end GitlabReviewer.Models
