import GitlabReviewer.Lifecycle.Work
import GitlabReviewer.Scheduling.Renumbering
import GitlabReviewer.Foundation.Alone

/-! # The queue as two lists

What the scheduling service is for: one list of immediate jobs, one of nightly
jobs, and operations that append, take out and rearrange. A database stands for
the two lists when the positions of each set order it.
-/
namespace GitlabReviewer.Queue
open Python Foundation Models Scheduling Reviews Lifecycle

structure Queues where
  immediate : List ℕ
  nightly : List ℕ
  deriving DecidableEq

namespace Queues

def of (q : Queues) : ScheduleType → List ℕ
  | .immediate => q.immediate
  | .nightly => q.nightly

def append (q : Queues) (ty : ScheduleType) (i : ℕ) : Queues :=
  match ty with
  | .immediate => ⟨q.immediate ++ [i], q.nightly⟩
  | .nightly => ⟨q.immediate, q.nightly ++ [i]⟩

def erase (q : Queues) (i : ℕ) : Queues := ⟨q.immediate.erase i, q.nightly.erase i⟩

theorem of_append (q : Queues) (ty ty' : ScheduleType) (i : ℕ) :
    (q.append ty i).of ty' = if ty' = ty then q.of ty' ++ [i] else q.of ty' := by
  cases ty <;> cases ty' <;> rfl

@[simp] theorem of_erase (q : Queues) (ty : ScheduleType) (i : ℕ) : (q.erase i).of ty = (q.of ty).erase i := by
  cases ty <;> rfl

end Queues

/-- The operations on the queue, the claim and the finalizations of a worker. -/
inductive QueueOp where
  | enqueue (request : EnqueueRequest)
  | reorder (dialect : Dialect) (ids : List ℤ)
  | moveToTop (i : ℕ)
  | moveToBottom (i : ℕ)
  | cancel (i : ℕ) (now : Timestamp)
  | cancelInflight (i : ℕ) (now : Timestamp)
  | enrollNightly (i : ℕ) (now : Timestamp)
  | removeNightly (i : ℕ) (now : Timestamp)
  | promoteNightly (now : Timestamp)
  | compactPositions
  | claimNext (dialect : Dialect) (now : Timestamp)
  | createRun (job : ScheduledJob) (now : Timestamp)
  | worker (ex : Execution) (runId jobId : ℕ)
  | abandonClaim (jobId : ℕ) (now : Timestamp)
  | finalizeCrashedRun (runId jobId : ℕ) (now : Timestamp)

inductive Reply where
  | done
  | created (i : ℕ)
  | claimed (i : Option ℕ)
  | promoted (ids : List ℕ)
  deriving DecidableEq

def replying {α : Type} (p : Tx α) (reply : α → Reply) : Tx Reply := do
  let a ← p
  .ret (reply a)

def done {α : Type} (p : Tx α) : Tx Reply := replying p fun _ => .done

def QueueOp.prog : QueueOp → Tx Reply
  | enqueue request => replying (Scheduling.enqueue request) .created
  | reorder dialect ids => done (Scheduling.reorder dialect ids)
  | moveToTop i => done (withJob i Scheduling.moveToTop)
  | moveToBottom i => done (withJob i Scheduling.moveToBottom)
  | cancel i now => done (withJob i fun job => Scheduling.cancel job now)
  | cancelInflight i now => done (withJob i fun job => do
      let _ ← Reviews.cancelInflight job now
      .ret ())
  | enrollNightly i now => done (withJob i fun job => Scheduling.enrollNightly job now)
  | removeNightly i now => done (withJob i fun job => Scheduling.removeNightly job now)
  | promoteNightly now => replying (Scheduling.promoteNightly now) .promoted
  | compactPositions => done (Scheduling.compactPositions .request [])
  | claimNext dialect now =>
      replying (Scheduling.claimNext dialect now) fun job => .claimed (job.map (·.id))
  | createRun job now => done (Reviews.createRun job now)
  | worker ex runId jobId => done (Reviews.worker ex runId jobId)
  | abandonClaim jobId now => done (Reviews.abandonClaim jobId now)
  | finalizeCrashedRun runId jobId now => done (Reviews.finalizeCrashedRun runId jobId now)

/-- A worker is only ever started for a job that was claimed, and its cleanup
is for the same job. -/
def QueueOp.enabled (w : World) : QueueOp → Prop
  | worker _ _ jobId => jobId ∈ w.claims
  | finalizeCrashedRun _ jobId _ => jobId ∈ w.claims
  | _ => True

/-- Which database steps may raise while an operation runs: all of them. -/
def mayRaise : Site → Bool
  | .outside => false
  | _ => true

/-- What each operation does to the two lists when it does not raise. -/
def QueueOp.Acts (r : Reply) (q q' : Queues) : QueueOp → Prop
  | enqueue request =>
      ∃ i, r = .created i ∧ i ∉ q.immediate ∧ i ∉ q.nightly ∧ q' = q.append request.scheduleType i
  | reorder _ ids => q'.immediate.map Nat.cast = ids.eraseDups ∧ q.immediate.Perm q'.immediate ∧ q'.nightly = q.nightly
  | moveToTop i => i ∈ q.immediate ∧ q' = ⟨i :: q.immediate.erase i, q.nightly⟩
  | moveToBottom i => i ∈ q.immediate ∧ q' = ⟨q.immediate.erase i ++ [i], q.nightly⟩
  | cancel i _ => (i ∈ q.immediate ∨ i ∈ q.nightly) ∧ q' = q.erase i
  | enrollNightly i _ =>
      (i ∈ q.nightly ∧ q' = q) ∨ (i ∈ q.immediate ∧ q' = ⟨q.immediate.erase i, q.nightly ++ [i]⟩)
  | removeNightly i _ => i ∈ q.nightly ∧ q' = ⟨q.immediate ++ [i], q.nightly.erase i⟩
  | promoteNightly _ => r = .promoted q.nightly ∧ q' = ⟨q.immediate ++ q.nightly, []⟩
  | claimNext _ _ => r = .claimed q.immediate.head? ∧ q' = ⟨q.immediate.tail, q.nightly⟩
  | cancelInflight _ _ => q' = q
  | compactPositions => q' = q
  | createRun _ _ => q' = q
  | worker _ _ _ => q' = q
  | abandonClaim _ _ => q' = q
  | finalizeCrashedRun _ _ _ => q' = q

/-- The operations that leave the immediate positions without gaps. -/
def QueueOp.compacts : QueueOp → Bool
  | reorder _ _ => true
  | moveToTop _ => true
  | moveToBottom _ => true
  | cancel _ _ => true
  | compactPositions => true
  | _ => false

structure Ordered (w : World) (q : Queues) : Prop where
  good : Good w
  unlocked : w.locked = []
  ranks : ∀ ty, Ranks (w.rank ty) (q.of ty)
  positive : ∀ ty, Above 0 (w.rank ty)
  claimed : ∀ i ∈ w.claims, ∃ st, w.jobStatus i = some st ∧ st ≠ .queued

def queues (w : World) : Queues := ⟨w.queue .immediate, w.queue .nightly⟩

section Ordered
variable {w : World} {q : Queues}

theorem ordered_empty : Ordered World.empty ⟨[], []⟩ := by
  constructor
  · exact good_empty
  · rfl
  · intro ty
    cases ty <;> exact Ranks.empty
  · intro ty
    exact above_empty
  · intro i hi
    cases hi

theorem Ordered.queue (h : Ordered w q) (ty : ScheduleType) : w.queue ty = q.of ty :=
  queue_of_ranks h.good (h.ranks ty)

theorem Ordered.queues (h : Ordered w q) : queues w = q := by
  unfold Queue.queues
  rw [h.queue .immediate, h.queue .nightly]
  rfl

theorem Ordered.disjoint (h : Ordered w q) : q.immediate.Disjoint q.nightly := by
  intro i hi hn
  have hrank : w.rank .nightly i = none :=
    rank_exclusive (((h.ranks .immediate).mem i).mp hi) (by decide)
  have hsome := ((h.ranks .nightly).mem i).mp hn
  rw [hrank] at hsome
  cases hsome

theorem Ordered.ready (h : Ordered w q) (jobs : List (Tracked ScheduledJob)) : w.unlocked jobs = true := by
  unfold World.unlocked
  rw [h.unlocked]
  simp

end Ordered

end GitlabReviewer.Queue
