import GitlabReviewer.Foundation.Permits
import GitlabReviewer.Queue.Worker

/-! # The pump, its workers and the requests around them

`pump_once` makes a semaphore, takes a permit before each claim, and hands the
permit to the worker thread it starts; it returns when a claim gives nothing.
One call runs at a time, and the workers of a call live on after it returned.
-/
namespace GitlabReviewer.Concurrency
open Python Foundation Models Scheduling Reviews Lifecycle Queue

/-- What stays the same: the database, `settings.max_concurrent_reviews`, and
what the outside answers during the execution of each run. -/
structure Deployment where
  dialect : Dialect
  maxConcurrentReviews : ℤ
  answers : ℕ → Execution

/-- `max(1, int(settings.max_concurrent_reviews or 1))`. -/
def Deployment.cap (D : Deployment) : ℕ :=
  (max 1 (if D.maxConcurrentReviews = 0 then 1 else D.maxConcurrentReviews)).toNat

/-- Where `pump_once` stands: not running, before `semaphore.acquire()`, inside
the claim, or about to start the thread of a claimed job. -/
inductive PumpState where
  | returned
  | acquiring
  | claiming (body : Tx (Option (ℕ × ℕ)))
  | starting (jobId runId : ℕ)

/-- A started worker, with the number of the pump call that owns its semaphore. -/
structure WorkerThread where
  semaphore : ℕ
  body : Tx Unit

/-- `permits k` is the value of the semaphore of the `k`-th call. -/
structure Service where
  db : World
  calls : ℕ
  permits : ℕ → ℕ
  pump : PumpState
  workers : List WorkerThread
  requests : List (Tx Unit)

/-- The service at its start: no thread runs. -/
def Service.initial (db : World) : Service := ⟨db, 0, fun _ => 0, .returned, [], []⟩

inductive Turn where
  | pumpOnce
  | acquire (now : Timestamp)
  | claim (fails : Bool)
  | settle
  | start
  | startFails
  | work (i : ℕ) (fails : Bool)
  | request (r : Request)
  | serve (i : ℕ) (fails : Bool)

/-- The next atomic step of a thread, or its failure. -/
def advance {α : Type} (fails : Bool) (p : Tx α) (w : World) : Option (Tx α × World) :=
  match p with
  | .step site ready act next fail =>
      if fails then if mayRaise site then some (fail, w) else none
      else if ready w then some (next w, act w) else none
  | _ => none

/-- The worker `i` after a step. Its last step is the release of its permit. -/
def Service.worked (s : Service) (i semaphore : ℕ) (body : Tx Unit) (db : World) : Service :=
  if body.Finished then
    { s with db := db, permits := givePermit semaphore s.permits, workers := s.workers.eraseIdx i }
  else { s with db := db, workers := s.workers.set i ⟨semaphore, body⟩ }

section Step
variable (D : Deployment)

def step (s : Service) : Turn → Option Service
  | .pumpOnce =>
      match s.pump with
      | .returned =>
          some { s with
            calls := s.calls + 1
            permits := Function.update s.permits (s.calls + 1) D.cap
            pump := .acquiring }
      | _ => none
  | .acquire now =>
      match s.pump with
      | .acquiring =>
          if 0 < s.permits s.calls then
            some { s with
              permits := takePermit s.calls s.permits
              pump := .claiming (claimAndCreateRun D.dialect now) }
          else none
      | _ => none
  | .claim fails =>
      match s.pump with
      | .claiming body => (advance fails body s.db).map fun out => { s with pump := .claiming out.1, db := out.2 }
      | _ => none
  | .settle =>
      match s.pump with
      | .claiming (.ret (some (jobId, runId))) => some { s with pump := .starting jobId runId }
      | .claiming (.ret none) => some { s with permits := givePermit s.calls s.permits, pump := .returned }
      -- "claim failed; stopping this pump"
      | .claiming (.raise _) => some { s with permits := givePermit s.calls s.permits, pump := .returned }
      | _ => none
  | .start =>
      match s.pump with
      | .starting jobId runId =>
          some { s with
            pump := .acquiring
            workers := s.workers ++ [⟨s.calls, worker (D.answers runId) runId jobId⟩] }
      | _ => none
  | .startFails =>
      -- `thread.start()` raises through `pump_once`; the permit is not given back
      match s.pump with
      | .starting _ _ => some { s with pump := .returned }
      | _ => none
  | .work i fails =>
      match s.workers[i]? with
      | some t => (advance fails t.body s.db).map fun out => s.worked i t.semaphore out.1 out.2
      | none => none
  | .request r => some { s with requests := s.requests ++ [r.prog] }
  | .serve i fails =>
      match s.requests[i]? with
      | some p => (advance fails p s.db).map fun out => { s with requests := s.requests.set i out.1, db := out.2 }
      | none => none

/-- The executions all of whose turns satisfy `ok`. -/
inductive Reaches (ok : Service → Turn → Prop) (s : Service) : Service → Prop
  | refl : Reaches ok s s
  | step {s' s'' : Service} (t : Turn) (h : Reaches ok s s') (hs : step D s' t = some s'') (hok : ok s' t) :
      Reaches ok s s''

abbrev anyTurn (_ : Service) (_ : Turn) : Prop := True

/-- A thread is only started when all running workers are of the same call. -/
def Unaccompanied (s : Service) (t : Turn) : Prop := t = .start → ∀ w ∈ s.workers, w.semaphore = s.calls

instance (s : Service) : DecidablePred (Unaccompanied s)
  | .start => decidable_of_iff (∀ w ∈ s.workers, w.semaphore = s.calls) (by simp [Unaccompanied])
  | .pumpOnce => .isTrue nofun
  | .acquire _ => .isTrue nofun
  | .claim _ => .isTrue nofun
  | .settle => .isTrue nofun
  | .startFails => .isTrue nofun
  | .work _ _ => .isTrue nofun
  | .request _ => .isTrue nofun
  | .serve _ _ => .isTrue nofun

variable {D}

theorem Reaches.trans {ok : Service → Turn → Prop} {s s' s'' : Service} (h : Reaches D ok s s')
    (h' : Reaches D ok s' s'') : Reaches D ok s s'' := by
  induction h' with
  | refl => exact h
  | step t _ hs ho ih => exact ih.step t hs ho

/-- Running a schedule, for evaluation. -/
def exec (D : Deployment) (ok : Service → Turn → Prop) [∀ s t, Decidable (ok s t)] (s : Service) :
    List Turn → Option Service
  | [] => some s
  | t :: rest => if ok s t then (step D s t).bind fun s' => exec D ok s' rest else none

theorem reaches_of_exec {ok : Service → Turn → Prop} [∀ s t, Decidable (ok s t)] {s s' : Service}
    {schedule : List Turn} (h : exec D ok s schedule = some s') : Reaches D ok s s' := by
  induction schedule generalizing s with
  | nil =>
    obtain rfl : s = s' := by simpa [exec] using h
    exact .refl
  | cons t rest ih =>
    rw [exec] at h
    split at h
    · rename_i hok
      obtain ⟨d, hd, hrest⟩ := Option.bind_eq_some_iff.mp h
      exact (Reaches.refl.step t hd hok).trans (ih hrest)
    · cases h

def PumpState.round : PumpState → Round
  | returned => .over
  | acquiring => .opened
  | claiming _ => .holding
  | starting _ _ => .holding

/-- The account of the semaphores the service keeps. -/
def Service.ledger (s : Service) : Ledger := ⟨s.calls, s.permits, s.pump.round, s.workers.map (·.semaphore)⟩

theorem eraseIdx_perm {s : Service} {i : ℕ} {t : WorkerThread} (ht : s.workers[i]? = some t) :
    (s.workers.map (·.semaphore)).Perm (t.semaphore :: (s.workers.eraseIdx i).map (·.semaphore)) := by
  obtain ⟨hi, rfl⟩ := List.getElem?_eq_some_iff.mp ht
  have hp := (List.getElem_cons_eraseIdx_perm hi).symm
  exact hp.map (·.semaphore)

theorem set_semaphores {s : Service} {i : ℕ} {t : WorkerThread} (ht : s.workers[i]? = some t)
    (body : Tx Unit) : (s.workers.set i ⟨t.semaphore, body⟩).map (·.semaphore) = s.workers.map (·.semaphore) := by
  obtain ⟨hi, rfl⟩ := List.getElem?_eq_some_iff.mp ht
  apply List.ext_getElem
  · simp
  · intro k hk hk'
    by_cases hki : i = k
    · subst hki
      simp
    · simp [hki]

/-- Every turn of the service is a step of the account, and only the start of a
thread leads from a permit in hand back to an open round. -/
theorem ledger_step {s s' : Service} {t : Turn} (h : step D s t = some s') :
    Ledger.Step D.cap s.ledger s'.ledger ∧
      (s.ledger.round = .holding → s'.ledger.round = .opened → t = .start) := by
  have hkept : ∀ d : Service, d.ledger = s.ledger → Ledger.Step D.cap s.ledger d.ledger ∧
      (s.ledger.round = .holding → d.ledger.round = .opened → t = .start) := by
    intro d hd
    rw [hd]
    refine ⟨.stay _, ?_⟩
    intro hholding hopened
    rw [hholding] at hopened
    cases hopened
  have hround : ∀ p : PumpState, s.pump = p → s.ledger.round = p.round := by
    rintro p rfl
    rfl
  cases t with
  | pumpOnce =>
    simp only [step] at h
    split at h
    · rename_i hp
      cases h
      refine ⟨.begin (hround _ hp), ?_⟩
      intro hholding
      rw [hround _ hp] at hholding
      cases hholding
    · cases h
  | acquire now =>
    simp only [step] at h
    split at h
    · rename_i hp
      split at h
      · rename_i hfree
        cases h
        refine ⟨.take (hround _ hp) hfree, ?_⟩
        intro _ hopened
        cases hopened
      · cases h
    · cases h
  | claim fails =>
    simp only [step] at h
    split at h
    · rename_i body hp
      obtain ⟨out, -, rfl⟩ := Option.map_eq_some_iff.mp h
      apply hkept
      simp only [Service.ledger, hp, PumpState.round]
    · cases h
  | settle =>
    simp only [step] at h
    split at h
    · rename_i jobId runId hp
      cases h
      apply hkept
      simp only [Service.ledger, hp, PumpState.round]
    · rename_i hp
      cases h
      refine ⟨.close (hround _ hp), ?_⟩
      intro _ hopened
      cases hopened
    · rename_i hp
      cases h
      refine ⟨.close (hround _ hp), ?_⟩
      intro _ hopened
      cases hopened
    · cases h
  | start =>
    simp only [step] at h
    split at h
    · rename_i jobId runId hp
      cases h
      refine ⟨.dispatch _ (hround _ hp) ?_, fun _ _ => rfl⟩
      simp only [Service.ledger, List.map_append, List.map_cons, List.map_nil]
      exact List.perm_append_singleton _ _
    · cases h
  | startFails =>
    simp only [step] at h
    split at h
    · rename_i hp
      cases h
      refine ⟨.lose (hround _ hp), ?_⟩
      intro _ hopened
      cases hopened
    · cases h
  | work i fails =>
    simp only [step] at h
    split at h
    · rename_i t ht
      obtain ⟨out, -, rfl⟩ := Option.map_eq_some_iff.mp h
      unfold Service.worked
      split
      · refine ⟨.leave _ _ (eraseIdx_perm ht), ?_⟩
        intro hholding hopened
        cases hholding.symm.trans hopened
      · apply hkept
        simp only [Service.ledger, set_semaphores ht]
    · cases h
  | request r =>
    cases h
    exact hkept _ rfl
  | serve i fails =>
    simp only [step] at h
    split at h
    · obtain ⟨out, -, rfl⟩ := Option.map_eq_some_iff.mp h
      exact hkept _ rfl
    · cases h

theorem sole_of_unaccompanied {s s' : Service} {t : Turn} (h : step D s t = some s')
    (hu : Unaccompanied s t) : Ledger.Sole s.ledger s'.ledger := by
  intro hholding hopened k hk
  obtain ⟨w, hw, rfl⟩ := List.mem_map.mp hk
  exact hu ((ledger_step h).2 hholding hopened) w hw

end Step

end GitlabReviewer.Concurrency
