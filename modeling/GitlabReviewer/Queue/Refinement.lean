import GitlabReviewer.Queue.Worker

/-! # The queue table refines two lists

In every state that complete operations reach from an empty database the
positions of each set are positive and distinct, and each operation acts on the
two lists they stand for as a list operation.
-/
namespace GitlabReviewer.Queue
open Python Foundation Models Scheduling Reviews Lifecycle

/-- The states of executions one operation after the other, in which any step
of the database may raise. -/
inductive Reachable : World → Prop
  | empty : Reachable World.empty
  | op {w w' : World} {x : Except PyError Reply} (o : QueueOp) (h : Reachable w) (he : o.enabled w)
      (ho : o.prog.Ends mayRaise w x w') : Reachable w'

section Refinement
variable {w : World} {q : Queues}

theorem carries_replying {α : Type} {p : Tx α} {reply : α → Reply} {post : α → World → Queues → Prop}
    {post' : Reply → World → Queues → Prop} (h : Carries w p post)
    (hpost : ∀ a w' q', post a w' q' → post' (reply a) w' q') : Carries w (replying p reply) post' := by
  refine h.bind ?_
  intro a w' q' hq' ha
  exact .ret hq' (hpost a w' q' ha)

/-- An operation that keeps the lists, and whose reply says nothing. -/
theorem carries_kept {α : Type} {p : Tx α} {o : QueueOp} (h : Carries w p fun _ _ q' => q' = q)
    (hacts : o.Acts .done q q) (hcompacts : o.compacts = false) :
    Carries w (done p) fun r w' q' => o.Acts r q q' ∧ (o.compacts = true → Dense w') := by
  refine carries_replying h ?_
  rintro _ w' q' rfl
  refine ⟨hacts, ?_⟩
  rw [hcompacts]
  intro hc
  cases hc

/-- Every operation acts on the two lists. -/
theorem Ordered.op (h : Ordered w q) (o : QueueOp) (he : o.enabled w) :
    Carries w o.prog fun r w' q' => o.Acts r q q' ∧ (o.compacts = true → Dense w') := by
  have hclaimed : ∀ jobId ∈ w.claims, ∀ ty, jobId ∉ q.of ty := by
    intro jobId hmem
    obtain ⟨st, hst, hne⟩ := h.claimed jobId hmem
    apply h.not_mem_of_status
    rw [hst]
    exact fun hq => hne (Option.some.inj hq)
  cases o with
  | enqueue request =>
    refine carries_replying (carries_enqueue h request) ?_
    rintro i w' q' ⟨hi, hn, rfl⟩
    exact ⟨⟨i, rfl, hi, hn, rfl⟩, by simp [QueueOp.compacts]⟩
  | reorder dialect ids =>
    refine carries_replying (carries_reorder h dialect ids) ?_
    rintro _ w' q' ⟨hq, hdense⟩
    exact ⟨hq, fun _ => hdense⟩
  | moveToTop i =>
    refine carries_replying (carries_withJob h fun row hrow hid => ?_) fun _ _ _ hacts => hacts
    subst hid
    exact (carries_moveToTop h hrow).mono fun _ _ _ ha => ⟨ha.1, fun _ => ha.2⟩
  | moveToBottom i =>
    refine carries_replying (carries_withJob h fun row hrow hid => ?_) fun _ _ _ hacts => hacts
    subst hid
    exact (carries_moveToBottom h hrow).mono fun _ _ _ ha => ⟨ha.1, fun _ => ha.2⟩
  | cancel i now =>
    refine carries_replying (carries_withJob h fun row hrow hid => ?_) fun _ _ _ hacts => hacts
    subst hid
    exact (carries_cancel h hrow now).mono fun _ _ _ ha => ⟨ha.1, fun _ => ha.2⟩
  | cancelInflight i now =>
    refine carries_kept (carries_withJob h fun row hrow hid => ?_) rfl rfl
    subst hid
    refine (carries_cancelInflight h hrow now).bind ?_
    intro _ w' q' hq' hkept
    exact .ret hq' hkept
  | enrollNightly i now =>
    refine carries_replying (carries_withJob h fun row hrow hid => ?_) fun _ _ _ hacts => hacts
    subst hid
    exact (carries_enrollNightly h hrow now).mono fun _ _ _ ha => ⟨ha, by simp [QueueOp.compacts]⟩
  | removeNightly i now =>
    refine carries_replying (carries_withJob h fun row hrow hid => ?_) fun _ _ _ hacts => hacts
    subst hid
    exact (carries_removeNightly h hrow now).mono fun _ _ _ ha => ⟨ha, by simp [QueueOp.compacts]⟩
  | promoteNightly now =>
    refine carries_replying (carries_promoteNightly h now) ?_
    rintro ids w' q' ⟨rfl, hq⟩
    exact ⟨⟨rfl, hq⟩, by simp [QueueOp.compacts]⟩
  | compactPositions =>
    refine carries_replying (carries_compactPositions h .request current_nil) ?_
    rintro _ w' q' ⟨hq, hdense⟩
    exact ⟨hq, fun _ => hdense⟩
  | claimNext dialect now =>
    refine carries_replying (carries_claimNext h dialect now) ?_
    rintro job w' q' ⟨hjob, hq⟩
    exact ⟨⟨congrArg Reply.claimed hjob, hq⟩, by simp [QueueOp.compacts]⟩
  | createRun job now => exact carries_kept (carries_of_keeps h (keeps_createRun job now)) rfl rfl
  | worker ex runId jobId =>
    exact carries_kept (carries_of_keeps h (keeps_worker ex runId (hclaimed jobId he))) rfl rfl
  | abandonClaim jobId now =>
    exact carries_kept (carries_of_keeps h (keeps_abandonClaim jobId now)) rfl rfl
  | finalizeCrashedRun runId jobId now =>
    exact carries_kept (carries_of_keeps h (keeps_finalizeCrashedRun runId (hclaimed jobId he) now)) rfl rfl

theorem Reachable.ordered (h : Reachable w) : ∃ q, Ordered w q := by
  induction h with
  | empty => exact ⟨_, ordered_empty⟩
  | op o _ he ho ih =>
    obtain ⟨q, hq⟩ := ih
    obtain ⟨q', hq', -⟩ := (hq.op o he).ends ho
    exact ⟨q', hq'⟩

/-- The positions of each set are positive and distinct. -/
theorem Ordered.positions (h : Ordered w q) (ty : ScheduleType) :
    (∀ job ∈ w.queuedRows ty, 1 ≤ job.position) ∧ ((w.queuedRows ty).map (·.position)).Nodup := by
  constructor
  · intro job hjob
    have hpos := h.positive ty _ _ (rank_of_queuedRows h.good hjob)
    omega
  · exact (nodup_positions_iff h.good ty).mpr fun _ _ _ => (h.ranks ty).injective

end Refinement

theorem queue_refines_lists {w : World} (h : Reachable w) :
    (∀ ty, (∀ job ∈ w.queuedRows ty, 1 ≤ job.position) ∧ ((w.queuedRows ty).map (·.position)).Nodup) ∧
      ∀ o : QueueOp, o.enabled w → (o.prog.run w).isSome = true ∧
        ∀ r w', o.prog.Ends mayRaise w (.ok r) w' →
          o.Acts r (queues w) (queues w') ∧ (o.compacts = true → Dense w') := by
  obtain ⟨q, hq⟩ := h.ordered
  constructor
  · exact hq.positions
  · intro o he
    have hcarries := hq.op o he
    constructor
    · obtain ⟨x, w', hrun, -⟩ := hcarries.exists_run
      rw [hrun]
      rfl
    · intro r w' hends
      obtain ⟨q', hq', hacts⟩ := hcarries.ends hends
      rw [hq.queues, hq'.queues]
      exact hacts r rfl

/-- Two jobs are enqueued and the second is moved to the top. -/
theorem queue_refines_lists_moved : ∃ w w', queues w = ⟨[1, 2], []⟩ ∧
    (QueueOp.moveToTop 2).Acts .done (queues w) (queues w') ∧ Dense w' := by
  have hone : Reachable _ :=
    .op (x := .ok (.created 1)) (.enqueue ⟨1, 1, .immediate, none, [], none, 0⟩) .empty trivial (.of_run rfl)
  have htwo : Reachable _ :=
    .op (x := .ok (.created 2)) (.enqueue ⟨1, 1, .immediate, none, [], none, 0⟩) hone trivial (.of_run rfl)
  obtain ⟨hacts, hdense⟩ := ((queue_refines_lists htwo).2 (.moveToTop 2) trivial).2 .done _ (.of_run rfl)
  exact ⟨_, _, rfl, hacts, hdense rfl⟩

end GitlabReviewer.Queue
