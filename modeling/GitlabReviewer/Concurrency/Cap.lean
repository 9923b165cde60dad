import GitlabReviewer.Concurrency.Pump
import GitlabReviewer.Lifecycle.Claims

/-! # How many reviews run at once

The workers of one call of the pump never exceed the cap, and those of all
calls do not either as long as no call starts a thread next to the workers of
an earlier one. With a cap above one nothing prevents that: a call leaves
workers behind, and the next one starts with a full semaphore.
-/
namespace GitlabReviewer.Concurrency
open Python Foundation Models Scheduling Reviews Lifecycle Queue

section Bounds
variable {D : Deployment} {db : World} {s : Service}

theorem cap_pos (D : Deployment) : 0 < D.cap := by
  unfold Deployment.cap
  omega

theorem cap_eq {c : ℕ} (hc : 1 ≤ c) (h : D.maxConcurrentReviews = c) : D.cap = c := by
  unfold Deployment.cap
  rw [h]
  split <;> omega

theorem balanced_of_reaches {ok : Service → Turn → Prop} (h : Reaches D ok (.initial db) s) :
    Ledger.Balanced D.cap s.ledger := by
  induction h with
  | refl => exact Ledger.balanced_initial (cap_pos D)
  | step t _ hs _ ih => exact ih.step (ledger_step hs).1

/-- The workers of one call stay within the cap. -/
theorem workers_of_call (h : Reaches D anyTurn (.initial db) s) (k : ℕ) :
    s.workers.countP (fun w => w.semaphore == k) ≤ D.cap := by
  have hcount := (balanced_of_reaches h).count_le k
  rwa [show s.ledger.holders = s.workers.map (·.semaphore) from rfl, List.count, List.countP_map] at hcount

theorem workers_within_cap (h : Reaches D Unaccompanied (.initial db) s) : s.workers.length ≤ D.cap := by
  have hcapped : Ledger.Capped D.cap s.ledger := by
    induction h with
    | refl => exact Ledger.capped_initial (cap_pos D)
    | step t _ hs hok ih => exact ih.step (ledger_step hs).1 (sole_of_unaccompanied hs hok)
  have hlength := hcapped.length
  rwa [show s.ledger.holders = s.workers.map (·.semaphore) from rfl, List.length_map] at hlength

/-- With a cap of one a call returns only after its worker is done. -/
theorem unaccompanied_of_single (hcap : D.cap = 1) (h : Reaches D anyTurn (.initial db) s) :
    Reaches D Unaccompanied (.initial db) s := by
  induction h with
  | refl => exact .refl
  | step t hreach hs _ ih =>
    refine ih.step t hs ?_
    rintro - w hw
    have hbalanced := balanced_of_reaches hreach
    rw [hcap] at hbalanced
    exact hbalanced.single _ (List.mem_map_of_mem hw)

end Bounds

section Alone
variable {α : Type} {D : Deployment} {s : Service}

/-- What is left of a program that ran to its end. -/
def ended (x : Except PyError α) : Tx α :=
  match x with
  | .ok a => .ret a
  | .error e => .raise e

theorem advance_step {site : Site} {ready : World → Bool} {act : World → World} {next : World → Tx α}
    {fail : Tx α} {w : World} (h : ready w = true) :
    advance false (.step site ready act next fail) w = some (next w, act w) := by
  simp [advance, h]

/-- The claim runs to its end before anything else happens. -/
theorem reaches_claim {p : Tx (Option (ℕ × ℕ))} {x : Except PyError (Option (ℕ × ℕ))} {w : World}
    (hp : s.pump = .claiming p) (h : p.run s.db = some (x, w)) :
    Reaches D anyTurn s { s with db := w, pump := .claiming (ended x) } := by
  induction p generalizing s with
  | ret a =>
    cases h
    rw [show ended (.ok a) = (.ret a : Tx _) from rfl, ← hp]
    exact .refl
  | raise e =>
    cases h
    rw [show ended (.error e) = (.raise e : Tx _) from rfl, ← hp]
    exact .refl
  | step site ready act next fail ih ihf =>
    rw [Program.run_step] at h
    split at h
    · rename_i hready
      have hturn : step D s (.claim false) =
          some { s with pump := .claiming (next s.db), db := act s.db } := by
        simp only [step, hp, advance_step hready, Option.map_some]
      exact (Reaches.refl.step _ hturn trivial).trans (ih s.db rfl h)
    · cases h

/-- And so does a request. -/
theorem reaches_serve {p : Tx Unit} {x : Except PyError Unit} {w : World} {i : ℕ}
    (hp : s.requests[i]? = some p) (h : p.run s.db = some (x, w)) :
    Reaches D anyTurn s { s with db := w, requests := s.requests.set i (ended x) } := by
  have hset : ∀ (l : List (Tx Unit)) (q : Tx Unit), l[i]? = some q → l.set i q = l := by
    intro l q hq
    obtain ⟨hi, rfl⟩ := List.getElem?_eq_some_iff.mp hq
    exact List.set_getElem_self hi
  induction p generalizing s with
  | ret a =>
    cases h
    rw [show ended (.ok a) = (.ret a : Tx Unit) from rfl, hset _ _ hp]
    exact .refl
  | raise e =>
    cases h
    rw [show ended (.error e) = (.raise e : Tx Unit) from rfl, hset _ _ hp]
    exact .refl
  | step site ready act next fail ih ihf =>
    rw [Program.run_step] at h
    split at h
    · rename_i hready
      have hturn : step D s (.serve i false) =
          some { s with requests := s.requests.set i (next s.db), db := act s.db } := by
        simp only [step, hp, advance_step hready, Option.map_some]
      have hi : i < s.requests.length := (List.getElem?_eq_some_iff.mp hp).1
      have hnext := ih s.db (s := { s with requests := s.requests.set i (next s.db), db := act s.db })
        (List.getElem?_set_self hi) h
      dsimp only at hnext
      rw [List.set_set] at hnext
      exact (Reaches.refl.step _ hturn trivial).trans hnext
    · cases h

end Alone

section Runs
variable {w : World} {q : Queues}

/-- Without a failure a claim returns, with the head of the queue if there is one. -/
theorem run_claimNext (h : Ordered w q) (dialect : Dialect) (now : Timestamp) :
    ∃ job w', (claimNext dialect now).run w = some (.ok job, w') ∧
      Ordered w' ⟨q.immediate.tail, q.nightly⟩ ∧ job.map (·.id) = q.immediate.head? := by
  have hrun : ∃ job w', (claimNext dialect now).run w = some (.ok job, w') := by
    cases dialect with
    | postgresql =>
      cases hl : lockable w with
      | none => exact ⟨none, lockRow w, by simp [claimNext, claimPostgres, hl]⟩
      | some row =>
        exact ⟨_, _, by simp only [claimNext, claimPostgres, Program.run_step, hl, if_true, Program.run_ret]; rfl⟩
    | sqlite =>
      cases hc : claimedId w with
      | none => exact ⟨none, claimFirst now w, by simp [claimNext, claimSqlite, hc]⟩
      | some i =>
        exact ⟨_, _, by simp only [claimNext, claimSqlite, Program.bind_eq, Program.atomic_bind,
          Program.run_step, hc, if_true, getJob, select, Program.run_ret]; rfl⟩
  obtain ⟨job, w', hrun⟩ := hrun
  obtain ⟨q', hq', hpost⟩ := (carries_claimNext h dialect now).ends (.of_run hrun)
  obtain ⟨hhead, rfl⟩ := hpost job rfl
  exact ⟨job, w', hrun, hq', hhead⟩

theorem run_claimAndCreateRun (h : Ordered w q) (dialect : Dialect) (now : Timestamp) :
    ∃ out w', (claimAndCreateRun dialect now).run w = some (.ok out, w') ∧
      Ordered w' ⟨q.immediate.tail, q.nightly⟩ ∧ out.map (·.1) = q.immediate.head? := by
  obtain ⟨job, w', hrun, hq', hhead⟩ := run_claimNext h dialect now
  unfold claimAndCreateRun
  rw [Program.bind_eq, Program.run_bind_ok hrun]
  cases job with
  | none => exact ⟨none, w', rfl, hq', hhead⟩
  | some job =>
    have hcreated : (createRun job now).run w' =
        some (.ok (World.nextKey (w'.runs.map (·.id))), w'.insertRun (newRun job now)) := rfl
    obtain ⟨q'', hq'', hkept⟩ := (carries_of_keeps hq' (keeps_createRun job now)).ends (.of_run hcreated)
    obtain rfl := hkept _ rfl
    exact ⟨some (job.id, World.nextKey (w'.runs.map (·.id))), _, rfl, hq'', hhead⟩

theorem run_enqueue (h : Ordered w q) (request : EnqueueRequest) :
    ∃ i w', (Request.enqueue request).prog.run w = some (.ok (), w') ∧
      Ordered w' (q.append request.scheduleType i) := by
  have hrun : ∃ i w', (enqueue request).run w = some (.ok i, w') := ⟨_, _, rfl⟩
  obtain ⟨i, w', hrun⟩ := hrun
  obtain ⟨q', hq', hpost⟩ := (carries_enqueue h request).ends (.of_run hrun)
  obtain ⟨-, -, rfl⟩ := hpost i rfl
  refine ⟨i, w', ?_, hq'⟩
  rw [Request.prog, Program.bind_eq, Program.run_bind_ok hrun]
  rfl

end Runs

section Leaving
variable {D : Deployment} {s : Service} {q : Queues}

/-- The pump takes a permit and claims the head of the queue, if there is one. -/
theorem reaches_claimed (hp : s.pump = .acquiring) (hfree : 0 < s.permits s.calls) (hdb : Ordered s.db q) :
    ∃ out w, Ordered w ⟨q.immediate.tail, q.nightly⟩ ∧ out.map (·.1) = q.immediate.head? ∧
      Reaches D anyTurn s
        { s with db := w, permits := takePermit s.calls s.permits, pump := .claiming (.ret out) } := by
  obtain ⟨out, w, hrun, hw, hhead⟩ := run_claimAndCreateRun hdb D.dialect 0
  have hturn : step D s (.acquire 0) = some { s with
      permits := takePermit s.calls s.permits
      pump := .claiming (claimAndCreateRun D.dialect 0) } := by
    simp only [step, hp, if_pos hfree]
  have hclaim := reaches_claim (D := D) (s := { s with
    permits := takePermit s.calls s.permits
    pump := .claiming (claimAndCreateRun D.dialect 0) }) rfl hrun
  exact ⟨out, w, hw, hhead, (Reaches.refl.step _ hturn trivial).trans hclaim⟩

/-- A request to review something, at a moment when nothing is queued. -/
theorem reaches_enqueued (hdb : Ordered s.db ⟨[], []⟩) :
    ∃ i s', Reaches D anyTurn s s' ∧ Ordered s'.db ⟨[i], []⟩ ∧ s'.pump = s.pump ∧ s'.workers = s.workers := by
  obtain ⟨i, w, hrun, hw⟩ := run_enqueue hdb plainRequest
  have hserve := reaches_serve (D := D)
    (s := { s with requests := s.requests ++ [(Request.enqueue plainRequest).prog] })
    (i := s.requests.length) List.getElem?_concat_length hrun
  have hturn : step D s (.request (.enqueue plainRequest)) =
      some { s with requests := s.requests ++ [(Request.enqueue plainRequest).prog] } := rfl
  exact ⟨i, _, (Reaches.refl.step _ hturn trivial).trans hserve, hw, rfl, rfl⟩

/-- A call of the pump that finds one job starts its worker, finds the queue
empty and returns while the worker runs. -/
theorem reaches_worker_left (hcap : 2 ≤ D.cap) {i : ℕ} (hp : s.pump = .returned)
    (hdb : Ordered s.db ⟨[i], []⟩) :
    ∃ s', Reaches D anyTurn s s' ∧ Ordered s'.db ⟨[], []⟩ ∧ s'.pump = .returned ∧
      s'.workers.length = s.workers.length + 1 := by
  obtain ⟨s₁, hs₁⟩ : ∃ s₁ : Service, s₁ = { s with
    calls := s.calls + 1
    permits := Function.update s.permits (s.calls + 1) D.cap
    pump := .acquiring } := ⟨_, rfl⟩
  have hcall : step D s .pumpOnce = some s₁ := by
    simp only [step, hp, hs₁]
  have hfull : s₁.permits s₁.calls = D.cap := by simp [hs₁]
  obtain ⟨out, w, hw, hhead, hclaimed⟩ := reaches_claimed (D := D) (s := s₁) (q := ⟨[i], []⟩)
    (by rw [hs₁]) (by omega) (by rw [hs₁]; exact hdb)
  have hsome : out.map (·.1) = some i := hhead
  obtain ⟨⟨jobId, runId⟩, rfl, -⟩ := Option.map_eq_some_iff.mp hsome
  obtain ⟨s₂, hs₂⟩ : ∃ s₂ : Service, s₂ = { s₁ with
    db := w
    permits := takePermit s₁.calls s₁.permits
    pump := .acquiring
    workers := s₁.workers ++ [⟨s₁.calls, worker (D.answers runId) runId jobId⟩] } := ⟨_, rfl⟩
  have hstarted : Reaches D anyTurn s s₂ := by
    refine (((Reaches.refl.step _ hcall trivial).trans hclaimed).step .settle rfl trivial).step .start ?_ trivial
    rw [hs₂]
    rfl
  have hleft : 0 < s₂.permits s₂.calls := by
    rw [hs₂]
    dsimp only
    rw [Ledger.takePermit_apply, hfull, if_pos rfl]
    omega
  obtain ⟨out, w', hw', hempty, hclaimed⟩ := reaches_claimed (D := D) (s := s₂) (q := ⟨[], []⟩)
    (by rw [hs₂]) hleft (by rw [hs₂]; exact hw)
  obtain rfl : out = none := by simpa using hempty
  refine ⟨_, (hstarted.trans hclaimed).step .settle (by rfl) trivial, hw', rfl, ?_⟩
  rw [hs₂, hs₁]
  simp

/-- With a cap above one there is no bound on the workers of all calls together. -/
theorem reaches_any_number (hcap : 2 ≤ D.cap) (n : ℕ) :
    ∃ s, Reaches D anyTurn (.initial World.empty) s ∧ Ordered s.db ⟨[], []⟩ ∧ s.pump = .returned ∧
      s.workers.length = n := by
  induction n with
  | zero => exact ⟨_, .refl, ordered_empty, rfl, rfl⟩
  | succ n ih =>
    obtain ⟨s, hreach, hdb, hp, hn⟩ := ih
    obtain ⟨i, s₁, hrequest, hdb₁, hp₁, hw₁⟩ := reaches_enqueued (D := D) hdb
    obtain ⟨s₂, hpumped, hdb₂, hp₂, hw₂⟩ := reaches_worker_left hcap (hp₁.trans hp) hdb₁
    exact ⟨s₂, (hreach.trans hrequest).trans hpumped, hdb₂, hp₂, by rw [hw₂, hw₁, hn]⟩

end Leaving

/-- The cap holds in every execution if and only if it is one; and for any cap in
the executions in which no thread is started next to a worker of an earlier call. -/
theorem cap_holds_iff {c : ℕ} (hc : 1 ≤ c) (dialect : Dialect) (answers : ℕ → Execution) :
    ((∀ db s, Reaches ⟨dialect, c, answers⟩ anyTurn (.initial db) s → s.workers.length ≤ c) ↔ c = 1) ∧
      ∀ db s, Reaches ⟨dialect, c, answers⟩ Unaccompanied (.initial db) s → s.workers.length ≤ c := by
  have hcap : Deployment.cap ⟨dialect, c, answers⟩ = c := cap_eq hc rfl
  have hwithin : ∀ db s, Reaches ⟨dialect, c, answers⟩ Unaccompanied (.initial db) s →
      s.workers.length ≤ c := by
    intro db s h
    have hlength := workers_within_cap h
    omega
  refine ⟨⟨?_, ?_⟩, hwithin⟩
  · intro hall
    by_contra hne
    obtain ⟨s, hreach, -, -, hn⟩ := reaches_any_number (D := ⟨dialect, c, answers⟩) (by omega) (c + 1)
    have hle := hall _ _ hreach
    omega
  · intro hone db s h
    exact hwithin db s (unaccompanied_of_single (by omega) h)

/-- A request to enqueue, served to its end. -/
def enqueued (i : ℕ) : List Turn := [.request (.enqueue plainRequest), .serve i false, .serve i false]

/-- One permit of the pump, up to the start of the thread. -/
def claimedAndStarted : List Turn :=
  [.acquire 1, .claim false, .claim false, .claim false, .settle, .start]

def twoAtOnce : Deployment := ⟨.postgresql, 2, fun _ => quickReview⟩

/-- At a cap of two, two workers of one call are within the condition. -/
theorem cap_holds_iff_two :
    (∃ s, Reaches twoAtOnce Unaccompanied (.initial World.empty) s ∧ s.workers.length = 2 ∧
      s.workers.length ≤ 2) ∧
      ¬ ∀ db s, Reaches twoAtOnce anyTurn (.initial db) s → s.workers.length ≤ 2 := by
  obtain ⟨hiff, hwithin⟩ := cap_holds_iff (c := 2) (by decide) .postgresql fun _ => quickReview
  constructor
  · have hrun : (exec twoAtOnce Unaccompanied (.initial World.empty)
        (enqueued 0 ++ enqueued 1 ++ [.pumpOnce] ++ claimedAndStarted ++ claimedAndStarted)).map
          (fun s => s.workers.length) = some 2 := by
      decide
    obtain ⟨s, hs, hlength⟩ := Option.map_eq_some_iff.mp hrun
    exact ⟨s, reaches_of_exec hs, hlength, hwithin _ _ (reaches_of_exec hs)⟩
  · intro hall
    exact absurd (hiff.mp hall) (by decide)

/-- The first call starts a worker and returns; the second starts two more. -/
def threeWorkers : List Turn :=
  enqueued 0 ++ [.pumpOnce] ++ claimedAndStarted ++ [.acquire 1, .claim false, .settle] ++
    enqueued 1 ++ enqueued 2 ++ [.pumpOnce] ++ claimedAndStarted ++ claimedAndStarted

theorem cap_exceeded :
    ∃ s, Reaches twoAtOnce anyTurn (.initial World.empty) s ∧ ¬ s.workers.length ≤ 2 := by
  have hrun : (exec twoAtOnce anyTurn (.initial World.empty) threeWorkers).map
      (fun s => s.workers.length) = some 3 := by
    decide
  obtain ⟨s, hs, hlength⟩ := Option.map_eq_some_iff.mp hrun
  refine ⟨s, reaches_of_exec hs, ?_⟩
  omega

end GitlabReviewer.Concurrency
