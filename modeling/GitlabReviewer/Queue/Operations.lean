import GitlabReviewer.Queue.Steps

/-! # The service functions on the two lists

Each function of the scheduling service, run alone from a database that stands
for two lists, returns with the lists its name promises or raises.
-/
namespace GitlabReviewer.Queue
open Python Foundation Models Scheduling Reviews Lifecycle

variable {w : World} {q : Queues}

theorem carries_compactPositions (h : Ordered w q) (site : Site) {session : List (Tracked ScheduledJob)}
    (hs : Current w session) :
    Carries w (compactPositions site session) fun _ w' q' => q' = q ∧ Dense w' := by
  refine .select h ?_
  rw [instances_current hs h.good fun row hrow => World.mem_queuedRows.mp hrow]
  obtain ⟨hord, hdense⟩ := h.compacted
  exact .commit h hord ⟨rfl, hdense⟩

theorem carries_rewritePositions (h : Ordered w q) {session : List (Tracked ScheduledJob)}
    (hs : Current w session) (ids : List ℤ) :
    Carries w (rewritePositions session ids) fun _ w' q' =>
      (q'.immediate.map Nat.cast = ids.eraseDups ∧ q.immediate.Perm q'.immediate ∧ q'.nightly = q.nightly) ∧ Dense w' := by
  unfold rewritePositions
  dsimp only
  split
  · exact .raise h
  refine .select h ?_
  rw [show (w.jobs.filter fun job => ids.eraseDups.contains (job.id : ℤ) && queuedAs .immediate job) =
    selected ids.eraseDups w from rfl]
  rw [instances_current hs h.good fun row hrow =>
    ⟨(mem_selected.mp hrow).1, (mem_selected.mp hrow).2.2⟩]
  split
  · exact .raise h
  rename_i hlen
  refine .select h ?_
  split
  · exact .raise h
  rename_i hsame
  obtain ⟨keys, hcast, hmem⟩ : ∃ keys : List ℕ, ids.eraseDups = keys.map Nat.cast ∧
      ∀ i, i ∈ keys ↔ i ∈ w.queue .immediate := by
    apply ordered_eq_queue h.good
    · simpa using hlen
    · simpa [Function.comp_def] using hsame
  have hnodup : keys.Nodup := .of_map _ (hcast ▸ nodup_eraseDups ids)
  have hqueue : w.queue .immediate = q.immediate := h.queue .immediate
  obtain ⟨hord, hdense⟩ := h.commit_repositioned (repositions_placed h.good hnodup hmem)
  have hperm : q.immediate.Perm keys :=
    (List.perm_ext_iff_of_nodup (h.ranks .immediate).nodup hnodup).mpr fun i => by
      rw [hmem i, hqueue]
      rfl
  rw [hcast]
  exact .commit h hord ⟨⟨rfl, hperm, rfl⟩, hdense⟩

theorem carries_reorder (h : Ordered w q) (dialect : Dialect) (ids : List ℤ) :
    Carries w (Scheduling.reorder dialect ids) fun _ w' q' =>
      (q'.immediate.map Nat.cast = ids.eraseDups ∧ q.immediate.Perm q'.immediate ∧ q'.nightly = q.nightly) ∧ Dense w' := by
  unfold Scheduling.reorder
  split
  · exact carries_rewritePositions h current_nil ids
  · exact .raise h

/-- A rewriting of keys. -/
theorem carries_rewriteKeys (h : Ordered w q) {session : List (Tracked ScheduledJob)} (hs : Current w session)
    {keys : List ℕ} (hkeys : keys.Nodup) :
    Carries w (rewritePositions session (keys.map Nat.cast)) fun _ w' q' => q' = ⟨keys, q.nightly⟩ ∧ Dense w' := by
  refine (carries_rewritePositions h hs _).mono ?_
  rintro _ w' q' ⟨⟨hcast, -, hnightly⟩, hdense⟩
  rw [eraseDups_of_nodup (hkeys.map Nat.cast_injective)] at hcast
  have himmediate : q'.immediate = keys := List.map_injective_iff.mpr Nat.cast_injective hcast
  exact ⟨by rw [← himmediate, ← hnightly], hdense⟩

theorem carries_enqueue (h : Ordered w q) (request : EnqueueRequest) :
    Carries w (Scheduling.enqueue request) fun i _ q' =>
      i ∉ q.immediate ∧ i ∉ q.nightly ∧ q' = q.append request.scheduleType i := by
  refine .select h ?_
  have hnew : ∀ ty, World.nextKey (w.jobs.map (·.id)) ∉ q.of ty := by
    intro ty
    rw [(h.ranks ty).mem, rank_of_none (job?_nextKey (w := w))]
    simp
  refine Carries.step h rfl (.ret (h.insertJob (by rfl) (by rfl)) ?_)
  exact ⟨hnew .immediate, hnew .nightly, rfl⟩

/-- What a request does with the row its caller loaded. -/
theorem carries_withJob (h : Ordered w q) {i : ℕ} {act : Tracked ScheduledJob → Tx Unit}
    {post : Unit → World → Queues → Prop}
    (hact : ∀ row, w.job? i = some row → row.id = i → Carries w (act (Tracked.load row)) post) :
    Carries w (withJob i act) post := by
  refine .select h ?_
  cases hrow : w.job? i with
  | none => exact .raise h
  | some row => exact hact row hrow (job?_id hrow)

theorem requireQueuedImmediate_none {job : ScheduledJob} (h : requireQueuedImmediate job = none) :
    queuedAs .immediate job = true := by
  unfold requireQueuedImmediate at h
  split at h
  · cases h
  · split at h
    · cases h
    · rename_i hst hty
      exact queuedAs_iff.mpr ⟨not_not.mp hty, not_not.mp hst⟩

theorem mem_of_queuedAs (h : Ordered w q) {row : ScheduledJob} {ty : ScheduleType}
    (hrow : w.job? row.id = some row) (hq : queuedAs ty row = true) : row.id ∈ q.of ty := by
  rw [(h.ranks ty).mem, rank_of hrow, placeIn, if_pos hq]
  rfl

theorem filter_ne_eq_erase {l : List ℕ} (hl : l.Nodup) (i : ℕ) : l.filter (· ≠ i) = l.erase i := by
  rw [hl.erase_eq_filter]
  refine List.filter_congr ?_
  intro k _
  by_cases hk : k = i <;> simp [hk]

theorem carries_moveToTop (h : Ordered w q) {row : ScheduledJob} (hrow : w.job? row.id = some row) :
    Carries w (Scheduling.moveToTop (Tracked.load row)) fun _ w' q' =>
      (row.id ∈ q.immediate ∧ q' = ⟨row.id :: q.immediate.erase row.id, q.nightly⟩) ∧ Dense w' := by
  unfold Scheduling.moveToTop
  cases hreq : requireQueuedImmediate (Tracked.load row).mem with
  | some e => exact .raise h
  | none =>
    have hmem : row.id ∈ q.immediate := mem_of_queuedAs h hrow (requireQueuedImmediate_none hreq)
    have hnodup : q.immediate.Nodup := (h.ranks .immediate).nodup
    have hids : (row.id :: q.immediate.erase row.id).Nodup := by
      rw [List.nodup_cons]
      exact ⟨hnodup.not_mem_erase, hnodup.erase _⟩
    refine .select h ?_
    rw [h.queue .immediate]
    rw [Tracked.load_mem, show q.of .immediate = q.immediate from rfl, filter_ne_eq_erase hnodup]
    refine (carries_rewriteKeys h (current_load hrow) hids).mono ?_
    rintro _ w' q' ⟨rfl, hdense⟩
    exact ⟨⟨hmem, rfl⟩, hdense⟩

theorem carries_moveToBottom (h : Ordered w q) {row : ScheduledJob} (hrow : w.job? row.id = some row) :
    Carries w (Scheduling.moveToBottom (Tracked.load row)) fun _ w' q' =>
      (row.id ∈ q.immediate ∧ q' = ⟨q.immediate.erase row.id ++ [row.id], q.nightly⟩) ∧ Dense w' := by
  unfold Scheduling.moveToBottom
  cases hreq : requireQueuedImmediate (Tracked.load row).mem with
  | some e => exact .raise h
  | none =>
    have hmem : row.id ∈ q.immediate := mem_of_queuedAs h hrow (requireQueuedImmediate_none hreq)
    have hnodup : q.immediate.Nodup := (h.ranks .immediate).nodup
    have hids : (q.immediate.erase row.id ++ [row.id]).Nodup := by
      refine (hnodup.erase _).append (List.nodup_singleton _) ?_
      rw [List.disjoint_singleton]
      exact hnodup.not_mem_erase
    refine .select h ?_
    rw [h.queue .immediate]
    rw [Tracked.load_mem, show q.of .immediate = q.immediate from rfl, filter_ne_eq_erase hnodup]
    refine (carries_rewriteKeys h (current_load hrow) hids).mono ?_
    rintro _ w' q' ⟨rfl, hdense⟩
    exact ⟨⟨hmem, rfl⟩, hdense⟩

theorem carries_cancel (h : Ordered w q) {row : ScheduledJob} (hrow : w.job? row.id = some row)
    (now : Timestamp) :
    Carries w (Scheduling.cancel (Tracked.load row) now) fun _ w' q' =>
      ((row.id ∈ q.immediate ∨ row.id ∈ q.nightly) ∧ q' = q.erase row.id) ∧ Dense w' := by
  unfold Scheduling.cancel
  split
  · exact .raise h
  rename_i hst
  have hqueued : row.status = .queued := not_not.mp hst
  have hmem : row.id ∈ q.immediate ∨ row.id ∈ q.nightly := by
    cases hty : row.scheduleType with
    | immediate => exact .inl (mem_of_queuedAs h hrow (queuedAs_iff.mpr ⟨hty, hqueued⟩))
    | nightly => exact .inr (mem_of_queuedAs h hrow (queuedAs_iff.mpr ⟨hty, hqueued⟩))
  have hout := h.commit_retired (t := setStatus .cancelled now (Tracked.load row)) (r := []) rfl hrow
    keysKept_nil (show JobStatus.cancelled ≠ .queued by decide)
  refine .commit_bind h ?_
  have hnow : (w.commitRows [setStatus .cancelled now (Tracked.load row)] []).jobStatus row.id ≠
      some .queued := by
    have hstored := jobStatus_of (job?_commitRows_single (t := setStatus .cancelled now (Tracked.load row))
      (r := []) rfl hrow)
    intro hs
    cases hstored.symm.trans hs
  refine (carries_compactPositions hout .request (current_of_status (by simpa [setStatus] using hnow))).mono ?_
  rintro _ w' q' ⟨rfl, hdense⟩
  exact ⟨⟨hmem, rfl⟩, hdense⟩

theorem carries_enrollNightly (h : Ordered w q) {row : ScheduledJob} (hrow : w.job? row.id = some row)
    (now : Timestamp) :
    Carries w (Scheduling.enrollNightly (Tracked.load row) now) fun _ _ q' =>
      (row.id ∈ q.nightly ∧ q' = q) ∨
        (row.id ∈ q.immediate ∧ q' = ⟨q.immediate.erase row.id, q.nightly ++ [row.id]⟩) := by
  unfold Scheduling.enrollNightly
  split
  · exact .raise h
  rename_i hst
  have hqueued : row.status = .queued := not_not.mp hst
  split
  · rename_i hty
    exact .ret h (.inl ⟨mem_of_queuedAs h hrow (queuedAs_iff.mpr ⟨hty, hqueued⟩), rfl⟩)
  · rename_i hty
    have htype : row.scheduleType = .immediate := by
      cases hrowty : row.scheduleType with
      | immediate => rfl
      | nightly => exact absurd hrowty hty
    have hmem : row.id ∈ q.immediate := mem_of_queuedAs h hrow (queuedAs_iff.mpr ⟨htype, hqueued⟩)
    have hflip := h.commit_flip hrow hqueued hty now
    have hout : row.id ∉ q.nightly := fun hn => h.disjoint hmem hn
    have hlists : (q.erase row.id).append .nightly row.id =
        ⟨q.immediate.erase row.id, q.nightly ++ [row.id]⟩ := by
      simp [Queues.erase, Queues.append, List.erase_of_not_mem hout]
    refine .select h ?_
    exact .commit h hflip (.inr ⟨hmem, hlists⟩)

theorem carries_removeNightly (h : Ordered w q) {row : ScheduledJob} (hrow : w.job? row.id = some row)
    (now : Timestamp) :
    Carries w (Scheduling.removeNightly (Tracked.load row) now) fun _ _ q' =>
      row.id ∈ q.nightly ∧ q' = ⟨q.immediate ++ [row.id], q.nightly.erase row.id⟩ := by
  unfold Scheduling.removeNightly
  split
  · exact .raise h
  rename_i hst
  have hqueued : row.status = .queued := not_not.mp hst
  split
  · exact .raise h
  rename_i hty
  have htype : row.scheduleType = .nightly := not_not.mp hty
  have hmem : row.id ∈ q.nightly := mem_of_queuedAs h hrow (queuedAs_iff.mpr ⟨htype, hqueued⟩)
  have hne : row.scheduleType ≠ .immediate := by
    rw [htype]
    decide
  have hflip := h.commit_flip hrow hqueued hne now
  have hout : row.id ∉ q.immediate := fun hi => h.disjoint hi hmem
  have hlists : (q.erase row.id).append .immediate row.id =
      ⟨q.immediate ++ [row.id], q.nightly.erase row.id⟩ := by
    simp [Queues.erase, Queues.append, List.erase_of_not_mem hout]
  refine .select h ?_
  exact .commit h hflip ⟨hmem, hlists⟩

theorem carries_promoteNightly (h : Ordered w q) (now : Timestamp) :
    Carries w (Scheduling.promoteNightly now) fun ids _ q' =>
      ids = q.nightly ∧ q' = ⟨q.immediate ++ q.nightly, []⟩ := by
  have hnight : (w.queuedRows .nightly).map (·.id) = q.nightly := h.queue .nightly
  refine .select h ?_
  split
  · rename_i hempty
    have hnil : q.nightly = [] := by
      rw [← hnight]
      simpa using hempty
    refine .ret h ⟨hnil.symm, ?_⟩
    cases q
    simp_all
  · refine .select h (.commit_bind h (.ret (h.commit_promotion now) ⟨?_, rfl⟩))
    rw [← hnight, List.map_map]
    rfl

theorem claimable_none (h : Ordered w q) (hrow : claimable w = none) : q.immediate = [] := by
  have hhead := claimable_head h
  rw [hrow] at hhead
  exact List.head?_eq_none_iff.mp hhead.symm

/-- What a claim returns and leaves. -/
def ClaimedHead (q : Queues) (job : Option ScheduledJob) (_ : World) (q' : Queues) : Prop :=
  job.map (·.id) = q.immediate.head? ∧ q' = ⟨q.immediate.tail, q.nightly⟩

theorem carries_claimed_none (h : Ordered w q) (hrow : claimable w = none) :
    Carries w (.ret none) (ClaimedHead q) := by
  have hnil := claimable_none h hrow
  refine .ret h ⟨?_, ?_⟩
  · rw [hnil]
    rfl
  · cases q
    simp_all

theorem claimed_head (h : Ordered w q) {row : ScheduledJob} (hrow : claimable w = some row) :
    some row.id = q.immediate.head? := by
  rw [← claimable_head h, hrow]
  rfl

theorem carries_claimSqlite (h : Ordered w q) (now : Timestamp) :
    Carries w (claimSqlite now) (ClaimedHead q) := by
  refine Carries.step h rfl ?_
  rw [Program.ret_bind]
  cases hrow : claimable w with
  | none =>
    have hid : claimedId w = none := by simp [claimedId, hrow]
    have hact : claimFirst now w = w := by simp [claimFirst, hrow]
    rw [hid, hact]
    exact carries_claimed_none h hrow
  | some row =>
    obtain ⟨hmem, -, hst⟩ := claimable_mem hrow
    have hjob : w.job? row.id = some row := job?_of_mem h.good hmem
    have hact : claimFirst now w = { w.commitRows [setStatus .claimed now (Tracked.load row)] [] with
        claims := row.id :: w.claims } := by
      rw [← claimRow_eq h.good hjob hst]
      simp [claimFirst, hrow]
    have hord := h.commit_claimed hrow now
    have hstored := job?_commitRows_single (t := setStatus .claimed now (Tracked.load row)) (r := []) rfl
      hjob
    rw [claimedId_eq h.good hrow, hact]
    refine .select hord (.ret hord ⟨?_, rfl⟩)
    rw [← claimed_head h hrow, Option.map_map, Option.map_map]
    exact congrArg (Option.map ScheduledJob.id) hstored

theorem carries_claimPostgres (h : Ordered w q) (now : Timestamp) :
    Carries w (claimPostgres now) (ClaimedHead q) := by
  refine Carries.step h rfl ?_
  have hlock := lockable_of_unlocked h.unlocked
  cases hrow : claimable w with
  | none =>
    have hact : lockRow w = w := by simp [lockRow, hlock, hrow]
    rw [hlock, hrow, hact]
    exact carries_claimed_none h hrow
  | some row =>
    obtain ⟨hmem, -, -⟩ := claimable_mem hrow
    have hact : lockRow w = { w with locked := [row.id] } := by
      simp [lockRow, hlock, hrow, h.unlocked]
    rw [hlock, hrow, hact]
    refine ⟨rfl, ?_, fun _ => ⟨rfl, ?_, fun hmay => by cases hmay⟩⟩
    · have hclaimed : Ordered (claimLocked (setStatus .claimed now (Tracked.load row))
          { w with locked := [row.id] }) ⟨q.immediate.tail, q.nightly⟩ :=
        (claimLocked_eq h.unlocked (setStatus .claimed now (Tracked.load row))).symm ▸ h.commit_claimed hrow now
      have hhead : some row.id = q.immediate.head? := claimed_head h hrow
      exact Carries.ret hclaimed ⟨hhead, rfl⟩
    · -- the lock is given up and the row was not written
      have hback : { w with locked := [row.id].erase row.id } = w := by
        rw [List.erase_cons_head, ← h.unlocked]
      exact Carries.raise (hback.symm ▸ h)

theorem carries_claimNext (h : Ordered w q) (dialect : Dialect) (now : Timestamp) :
    Carries w (Scheduling.claimNext dialect now) (ClaimedHead q) := by
  cases dialect with
  | postgresql => exact carries_claimPostgres h now
  | sqlite => exact carries_claimSqlite h now

end GitlabReviewer.Queue
