import GitlabReviewer.Queue.Lists

/-! # What the steps of the operations do to the two lists

One lemma for each kind of commit the service makes, and the rules by which a
program made of such steps carries a database that stands for two lists to
another.
-/
namespace GitlabReviewer.Queue
open Python Foundation Models Scheduling Reviews Lifecycle

section Commit
variable {w : World} {q q' : Queues}

/-- No commit puts a job back into a queue. -/
def NeverRequeues (jobs : List (Tracked ScheduledJob)) : Prop :=
  ∀ t ∈ jobs, t.mem.status = .queued → t.base.status = .queued

theorem neverRequeues_nil : NeverRequeues [] := by simp [NeverRequeues]

theorem neverRequeues_singleton {t : Tracked ScheduledJob}
    (h : t.mem.status = .queued → t.base.status = .queued) : NeverRequeues [t] := by
  intro u hu
  obtain rfl := List.mem_singleton.mp hu
  exact h

theorem writtenStatus_ne_queued {jobs : List (Tracked ScheduledJob)} (h : NeverRequeues jobs) (i : ℕ)
    {st : JobStatus} (hst : st ≠ .queued) : writtenStatus (held jobs i) st ≠ .queued := by
  cases hi : held jobs i with
  | none => exact hst
  | some t =>
    rw [writtenStatus_some]
    rcases written_eq_or t.base.status t.mem.status st with ⟨-, hw⟩ | ⟨hne, hw⟩
    · rw [hw]
      exact hst
    · rw [hw]
      intro hq
      exact hne (hq.trans (h t (held_mem hi).1 hq).symm)

/-- A commit stands for the lists its ranks stand for. -/
theorem Ordered.commit (h : Ordered w q) {jobs : List (Tracked ScheduledJob)}
    {runs : List (Tracked ReviewRun)} (hj : KeysKept jobs) (hr : KeysKept runs) (hq : NeverRequeues jobs)
    (hranks : ∀ ty, Ranks ((w.commitRows jobs runs).rank ty) (q'.of ty))
    (hpos : ∀ ty, Above 0 ((w.commitRows jobs runs).rank ty)) : Ordered (w.commitRows jobs runs) q' := by
  constructor
  · exact good_commitRows h.good hj hr
  · exact h.unlocked
  · exact hranks
  · exact hpos
  · intro i hi
    obtain ⟨st, hst, hne⟩ := h.claimed i hi
    refine ⟨writtenStatus (held jobs i) st, ?_, writtenStatus_ne_queued hq i hne⟩
    rw [jobStatus_commitRows hj, hst]
    rfl

/-- Jobs that are not queued change without a trace in the lists. -/
theorem Ordered.commit_unqueued (h : Ordered w q) {jobs : List (Tracked ScheduledJob)}
    {runs : List (Tracked ReviewRun)} (hj : KeysKept jobs) (hr : KeysKept runs) (hq : NeverRequeues jobs)
    (hout : ∀ t ∈ jobs, w.jobStatus t.mem.id ≠ some .queued) : Ordered (w.commitRows jobs runs) q := by
  have hrank : ∀ ty, (w.commitRows jobs runs).rank ty = w.rank ty := by
    intro ty
    funext i
    cases hi : held jobs i with
    | none =>
      unfold World.rank
      rw [job?_commitRows hj]
      cases hjob : w.job? i with
      | none => rfl
      | some job =>
        obtain rfl := job?_id hjob
        simp [overlay_none job hi]
    | some t =>
      obtain ⟨ht, hkey⟩ := held_mem hi
      have hst : w.jobStatus i ≠ some .queued := (show t.mem.id = i from hkey) ▸ hout t ht
      rw [rank_of_status hst]
      apply rank_of_status
      rw [jobStatus_commitRows hj]
      cases hs : w.jobStatus i with
      | none => simp
      | some st =>
        have hne := writtenStatus_ne_queued hq i (fun he => hst (hs.trans (congrArg some he)))
        simpa using hne
  apply h.commit hj hr hq
  · intro ty
    rw [hrank ty]
    exact h.ranks ty
  · intro ty
    rw [hrank ty]
    exact h.positive ty

/-- Taking one job out of the queue. -/
theorem Ordered.commit_retired (h : Ordered w q) {t : Tracked ScheduledJob}
    {r : List (Tracked ReviewRun)} (hid : t.mem.id = t.base.id) (hbase : w.job? t.base.id = some t.base)
    (hr : KeysKept r) (hst : t.mem.status ≠ .queued) :
    Ordered (w.commitRows [t] r) (q.erase t.mem.id) := by
  have hrank : ∀ ty, (w.commitRows [t] r).rank ty = Function.update (w.rank ty) t.mem.id none := by
    intro ty
    rw [rank_commitRows_single hid hbase, placeIn_of_status hst]
  apply h.commit (fresh_singleton hid hbase).keysKept hr (neverRequeues_singleton fun he => absurd he hst)
  · intro ty
    rw [hrank ty]
    cases ty with
    | immediate => exact (h.ranks .immediate).erase t.mem.id
    | nightly => exact (h.ranks .nightly).erase t.mem.id
  · intro ty
    rw [hrank ty]
    exact (h.positive ty).erase t.mem.id

/-- Switching one job to the end of the other list. -/
theorem Ordered.commit_flip (h : Ordered w q) {row : ScheduledJob} (hrow : w.job? row.id = some row)
    (hst : row.status = .queued) {ty : ScheduleType} (hty : row.scheduleType ≠ ty) (now : Timestamp) :
    Ordered (w.commitRows [flip ty ((w.topPosition ty).getD 0 + 1) now (Tracked.load row)] [])
      ((q.erase row.id).append ty row.id) := by
  have hbound : ∀ k p, w.rank ty k = some p → p ≤ (w.topPosition ty).getD 0 := fun _ _ hp => rank_le_base hp
  have hrank : ∀ ty', (w.commitRows [flip ty ((w.topPosition ty).getD 0 + 1) now (Tracked.load row)] []).rank
      ty' = Function.update (w.rank ty') row.id
        (if ty' = ty then some ((w.topPosition ty).getD 0 + 1) else none) := by
    intro ty'
    rw [rank_commitRows_single (t := flip ty _ now (Tracked.load row)) rfl hrow]
    congr 1
    by_cases he : ty' = ty
    · rw [if_pos he, placeIn_eq_some]
      exact ⟨queuedAs_iff.mpr ⟨he.symm, hst⟩, rfl⟩
    · rw [if_neg he]
      exact placeIn_of_type fun hf => he hf.symm
  have hout : row.id ∉ q.of ty := by
    rw [(h.ranks ty).mem, rank_of hrow, placeIn_of_type hty]
    simp
  apply h.commit (fresh_singleton (t := flip ty _ now (Tracked.load row)) rfl hrow).keysKept keysKept_nil
    (neverRequeues_singleton fun _ => hst)
  · intro ty'
    rw [hrank ty', Queues.of_append, Queues.of_erase]
    by_cases he : ty' = ty
    · subst he
      rw [if_pos rfl, if_pos rfl, List.erase_of_not_mem hout]
      exact (h.ranks ty').snoc hout hbound
    · rw [if_neg he, if_neg he]
      exact (h.ranks ty').erase row.id
  · intro ty'
    rw [hrank ty']
    by_cases he : ty' = ty
    · subst he
      rw [if_pos rfl]
      exact (h.positive ty').snoc (base_nonneg h.good (h.positive ty')) row.id
    · rw [if_neg he]
      exact (h.positive ty').erase row.id

/-- A new job goes to the end of the list of its type. -/
theorem Ordered.insertJob (h : Ordered w q) {job : ScheduledJob} (hst : job.status = .queued)
    (hpos : job.position = (w.topPosition job.scheduleType).getD 0 + 1) :
    Ordered (w.insertJob job) (q.append job.scheduleType (World.nextKey (w.jobs.map (·.id)))) := by
  have hnew : ∀ ty, World.nextKey (w.jobs.map (·.id)) ∉ q.of ty := by
    intro ty
    rw [(h.ranks ty).mem, rank_of_none (job?_nextKey (w := w))]
    simp
  have hrank : ∀ ty, (w.insertJob job).rank ty = Function.update (w.rank ty)
      (World.nextKey (w.jobs.map (·.id)))
      (if ty = job.scheduleType then some ((w.topPosition ty).getD 0 + 1) else none) := by
    intro ty
    rw [rank_insertJob]
    congr 1
    by_cases he : ty = job.scheduleType
    · subst he
      rw [if_pos rfl, placeIn_eq_some]
      exact ⟨queuedAs_iff.mpr ⟨rfl, hst⟩, hpos⟩
    · rw [if_neg he]
      exact placeIn_of_type fun hf => he hf.symm
  constructor
  · exact good_insertJob job h.good
  · exact h.unlocked
  · intro ty
    rw [hrank ty, Queues.of_append]
    by_cases he : ty = job.scheduleType
    · rw [if_pos he, if_pos he]
      exact (h.ranks ty).snoc (hnew ty) fun _ _ hp => rank_le_base hp
    · rw [if_neg he, if_neg he, ← List.erase_of_not_mem (hnew ty)]
      exact (h.ranks ty).erase _
  · intro ty
    rw [hrank ty]
    by_cases he : ty = job.scheduleType
    · rw [if_pos he]
      exact (h.positive ty).snoc (base_nonneg h.good (h.positive ty)) _
    · rw [if_neg he]
      exact (h.positive ty).erase _
  · intro i hi
    obtain ⟨st, hs, hne⟩ := h.claimed i hi
    obtain ⟨row, hrow, rfl⟩ := Option.map_eq_some_iff.mp hs
    refine ⟨row.status, ?_, hne⟩
    unfold World.jobStatus
    rw [job?_insertJob, hrow]
    rfl

end Commit

section Reposition
variable {w : World} {q : Queues}

theorem Ordered.commit_repositioned (h : Ordered w q) {jobs : List (Tracked ScheduledJob)} {l : List ℕ}
    (hl : Repositions w jobs l) :
    Ordered (w.commitRows jobs []) ⟨l, q.nightly⟩ ∧ Dense (w.commitRows jobs []) := by
  refine ⟨?_, hl.dense h.good⟩
  apply h.commit hl.fresh.keysKept keysKept_nil
  · intro t ht hq
    rwa [← hl.status t ht]
  · intro ty
    cases ty with
    | immediate =>
      rw [hl.rank_immediate]
      exact ranks_enumerated hl.nodup
    | nightly =>
      rw [hl.rank_nightly]
      exact h.ranks .nightly
  · intro ty
    cases ty with
    | immediate =>
      rw [hl.rank_immediate]
      exact above_enumerated
    | nightly =>
      rw [hl.rank_nightly]
      exact h.positive .nightly

/-- The renumbering that closes most operations. -/
theorem Ordered.compacted (h : Ordered w q) :
    Ordered (w.commitRows (renumber ((w.queuedRows .immediate).map Tracked.load)) []) q ∧
      Dense (w.commitRows (renumber ((w.queuedRows .immediate).map Tracked.load)) []) := by
  have hcommit := h.commit_repositioned (repositions_renumber h.good)
  rwa [h.queue .immediate] at hcommit

end Reposition

section Promote
variable {w : World} {q : Queues}

/-- The rows the promotion commits. -/
def promotion (w : World) (now : Timestamp) : List (Tracked ScheduledJob) :=
  promoted ((w.topPosition .immediate).getD 0) now ((w.queuedRows .nightly).map Tracked.load)

theorem promoted_load (base : ℤ) (now : Timestamp) (rows : List ScheduledJob) :
    promoted base now (rows.map Tracked.load) =
      rows.mapIdx fun n row => flip .immediate (base + (n + 1)) now (Tracked.load row) := by
  refine List.ext_getElem (by simp [promoted]) ?_
  intro n hn _
  simp [promoted]

theorem promotion_eq (w : World) (now : Timestamp) :
    promotion w now = (w.queuedRows .nightly).mapIdx fun n row =>
      flip .immediate ((w.topPosition .immediate).getD 0 + (n + 1)) now (Tracked.load row) :=
  promoted_load _ now _

theorem held_promotion (hw : Good w) (now : Timestamp) (i : ℕ) :
    held (promotion w now) i = ((w.job? i).filter (queuedAs .nightly)).map fun row =>
      flip .immediate ((w.topPosition .immediate).getD 0 + ((w.queue .nightly).idxOf i + 1)) now
        (Tracked.load row) := by
  rw [promotion_eq, held_mapIdx fun _ _ => rfl, lookup_queuedRows hw]
  rfl

theorem mem_promotion {now : Timestamp} {t : Tracked ScheduledJob} (ht : t ∈ promotion w now) :
    ∃ row p, row ∈ w.jobs ∧ row.status = .queued ∧ t = flip .immediate p now (Tracked.load row) := by
  rw [promotion_eq] at ht
  obtain ⟨n, hn, rfl⟩ := List.mem_mapIdx.mp ht
  obtain ⟨hmem, hq⟩ := World.mem_queuedRows.mp (List.getElem_mem hn)
  exact ⟨_, _, hmem, (queuedAs_iff.mp hq).2, rfl⟩

/-- All nightly jobs follow the immediate ones. -/
theorem Ordered.commit_promotion (h : Ordered w q) (now : Timestamp) :
    Ordered (w.commitRows (promotion w now) []) ⟨q.immediate ++ q.nightly, []⟩ := by
  have hfresh : Fresh w (promotion w now) := by
    intro t ht
    obtain ⟨row, p, hmem, -, rfl⟩ := mem_promotion ht
    exact ⟨rfl, job?_of_mem h.good hmem⟩
  have hnight : w.queue .nightly = q.nightly := h.queue .nightly
  -- a nightly job gets its number, every other row keeps its rank
  have hcases : ∀ i, (∃ row, i ∈ q.nightly ∧ row.status = .queued ∧ held (promotion w now) i = some
      (flip .immediate ((w.topPosition .immediate).getD 0 + (q.nightly.idxOf i + 1)) now (Tracked.load row))) ∨
      (i ∉ q.nightly ∧ held (promotion w now) i = none) := by
    intro i
    rw [held_promotion h.good, hnight]
    by_cases hi : i ∈ q.nightly
    · obtain ⟨p, hp⟩ := (h.ranks .nightly).exists_rank hi
      obtain ⟨row, hjob, hq, -⟩ := rank_eq_some.mp hp
      refine .inl ⟨row, hi, (queuedAs_iff.mp hq).2, ?_⟩
      rw [hjob, Option.filter_some_pos hq]
      rfl
    · refine .inr ⟨hi, ?_⟩
      rw [filter_queuedAs_of_rank ((h.ranks .nightly).none_of_not_mem hi)]
      rfl
  have himm : (w.commitRows (promotion w now) []).rank .immediate =
      numbered ((w.topPosition .immediate).getD 0) q.nightly (w.rank .immediate) := by
    funext i
    rw [rank_commitRows_fresh hfresh]
    rcases hcases i with ⟨row, hi, hst, hheld⟩ | ⟨hi, hheld⟩
    · rw [hheld, numbered_of_mem hi]
      exact placeIn_eq_some.mpr ⟨queuedAs_iff.mpr ⟨rfl, hst⟩, rfl⟩
    · rw [hheld, numbered_of_not_mem hi]
      rfl
  have hnone : (w.commitRows (promotion w now) []).rank .nightly = fun _ => none := by
    funext i
    rw [rank_commitRows_fresh hfresh]
    rcases hcases i with ⟨row, hi, -, hheld⟩ | ⟨hi, hheld⟩
    · rw [hheld]
      exact placeIn_of_type (show ScheduleType.immediate ≠ .nightly by decide)
    · rw [hheld]
      exact (h.ranks .nightly).none_of_not_mem hi
  apply h.commit hfresh.keysKept keysKept_nil
  · intro t ht _
    obtain ⟨row, p, -, hst, rfl⟩ := mem_promotion ht
    exact hst
  · intro ty
    cases ty with
    | immediate =>
      rw [himm]
      exact (h.ranks .immediate).concat (h.ranks .nightly).nodup h.disjoint fun _ _ hp => rank_le_base hp
    | nightly =>
      rw [hnone]
      exact Ranks.empty
  · intro ty
    cases ty with
    | immediate =>
      rw [himm]
      exact (h.positive .immediate).numbered (base_nonneg h.good (h.positive .immediate))
    | nightly =>
      rw [hnone]
      exact above_empty

end Promote

section Claim
variable {w : World} {q : Queues}

theorem claimable_head (h : Ordered w q) : (claimable w).map (·.id) = q.immediate.head? := by
  rw [← show w.queue .immediate = q.immediate from h.queue .immediate, World.queue, List.head?_map]
  rfl

/-- A claim takes the head of the immediate list. -/
theorem Ordered.claim (h : Ordered w q) {w' : World} {i : ℕ} (hq : Ordered w' (q.erase i))
    (hi : q.immediate.head? = some i) (hst : w'.jobStatus i = some .claimed) :
    Ordered { w' with claims := i :: w'.claims } ⟨q.immediate.tail, q.nightly⟩ := by
  have hmem : i ∈ q.immediate := List.mem_of_head? hi
  have herase : q.erase i = ⟨q.immediate.tail, q.nightly⟩ := by
    have hout : i ∉ q.nightly := fun hn => h.disjoint hmem hn
    obtain ⟨rest, hrest⟩ : ∃ rest, q.immediate = i :: rest := by
      cases himm : q.immediate with
      | nil => simp [himm] at hi
      | cons a rest =>
        rw [himm, List.head?_cons, Option.some.injEq] at hi
        exact ⟨rest, by rw [hi]⟩
    simp [Queues.erase, hrest, List.erase_of_not_mem hout]
  rw [herase] at hq
  constructor
  · exact ⟨hq.good.jobIds, hq.good.runIds⟩
  · exact hq.unlocked
  · exact hq.ranks
  · exact hq.positive
  · intro k hk
    rcases List.mem_cons.mp hk with rfl | hk
    · exact ⟨.claimed, hst, by decide⟩
    · exact hq.claimed k hk

/-- The guarded update of the claimed row is the commit of that one row. -/
theorem claimRow_eq (hw : Good w) {row : ScheduledJob} (hrow : w.job? row.id = some row)
    (hst : row.status = .queued) (now : Timestamp) :
    claimRow now row.id w = { w.commitRows [setStatus .claimed now (Tracked.load row)] [] with
      claims := row.id :: w.claims } := by
  have hjobs : (w.jobs.map fun job =>
      if claimedRow row.id job then { job with status := .claimed, updatedAt := some now } else job) =
        store [setStatus .claimed now (Tracked.load row)] w.jobs := by
    refine List.map_congr_left ?_
    intro job hjob
    by_cases hid : job.id = row.id
    · obtain rfl : job = row := by
        have hlookup := job?_of_mem hw hjob
        rw [hid, hrow] at hlookup
        exact (Option.some.inj hlookup).symm
      have hheld : held [setStatus .claimed now (Tracked.load job)] job.id =
          some (setStatus .claimed now (Tracked.load job)) := held_single rfl
      have hclaimed : claimedRow job.id job = true := by simp [claimedRow, hst]
      rw [if_pos hclaimed]
      exact (overlay_untouched (t := setStatus .claimed now (Tracked.load job)) hheld).symm
    · have hheld : held [setStatus .claimed now (Tracked.load row)] job.id = none :=
        held_single_ne fun he => hid he.symm
      have hclaimed : ¬ claimedRow row.id job = true := by simp [claimedRow, hid]
      rw [if_neg hclaimed, overlay_none job hheld]
  unfold claimRow World.commitRows
  rw [hjobs, store_nil]

/-- On Postgres the lock is taken before that commit and given up with it. -/
theorem claimLocked_eq (hw : w.locked = []) (t : Tracked ScheduledJob) :
    claimLocked t { w with locked := [t.mem.id] } =
      { w.commitRows [t] [] with claims := t.mem.id :: w.claims } := by
  unfold claimLocked World.commitRows
  simp [hw]

/-- The claim of the head of the queue, on either database. -/
theorem Ordered.commit_claimed (h : Ordered w q) {row : ScheduledJob} (hrow : claimable w = some row)
    (now : Timestamp) :
    Ordered { w.commitRows [setStatus .claimed now (Tracked.load row)] [] with claims := row.id :: w.claims }
      ⟨q.immediate.tail, q.nightly⟩ := by
  obtain ⟨hmem, -, -⟩ := claimable_mem hrow
  have hjob : w.job? row.id = some row := job?_of_mem h.good hmem
  have hhead : q.immediate.head? = some row.id := by
    rw [← claimable_head h, hrow]
    rfl
  have hretired := h.commit_retired (t := setStatus .claimed now (Tracked.load row)) (r := []) rfl hjob
    keysKept_nil (show JobStatus.claimed ≠ .queued by decide)
  refine Ordered.claim h hretired hhead ?_
  exact jobStatus_of (job?_commitRows_single (t := setStatus .claimed now (Tracked.load row)) rfl hjob)

theorem lockable_of_unlocked (hw : w.locked = []) : lockable w = claimable w := by
  unfold lockable claimable
  rw [hw]
  cases w.queuedRows .immediate <;> simp

end Claim

/-- Run alone, the program ends in a database that stands for two lists, and
these are as `post` says when it returns. -/
def Carries {α : Type} (w : World) (p : Tx α) (post : α → World → Queues → Prop) : Prop :=
  p.Ensures mayRaise w fun x w' => ∃ q', Ordered w' q' ∧ ∀ a, x = .ok a → post a w' q'

namespace Carries
variable {α β : Type} {w : World} {q : Queues} {post : α → World → Queues → Prop}

theorem ret (h : Ordered w q) {a : α} (ha : post a w q) : Carries w (.ret a) post := by
  refine ⟨q, h, ?_⟩
  intro b hb
  rwa [← Except.ok.inj hb]

theorem raise (h : Ordered w q) {e : PyError} : Carries w (.raise e) post := by
  refine ⟨q, h, ?_⟩
  intro b hb
  cases hb

theorem mono {post' : α → World → Queues → Prop} {p : Tx α} (h : Carries w p post)
    (hpost : ∀ a w' q', post a w' q' → post' a w' q') : Carries w p post' := by
  refine Program.Ensures.mono h ?_
  rintro x w' ⟨q', hq', hx⟩
  exact ⟨q', hq', fun a ha => hpost a w' q' (hx a ha)⟩

theorem bind {p : Tx α} {f : α → Tx β} {post' : β → World → Queues → Prop} (h : Carries w p post)
    (hf : ∀ a w' q', Ordered w' q' → post a w' q' → Carries w' (f a) post') : Carries w (p >>= f) post' := by
  refine Program.Ensures.bind (Program.Ensures.mono h ?_)
  rintro x w' ⟨q', hq', hx⟩
  cases x with
  | ok a => exact hf a w' q' hq' (hx a rfl)
  | error e =>
    refine ⟨q', hq', ?_⟩
    intro b hb
    cases hb

/-- One step; if it raises, the database is as before. -/
theorem step {site : Site} {ready : World → Bool} {act : World → World} {next : World → Tx α}
    {e : PyError} (h : Ordered w q) (hready : ready w = true) (hnext : Carries (act w) (next w) post) :
    Carries w (.step site ready act next (.raise e)) post :=
  ⟨hready, hnext, fun _ => raise h⟩

theorem select {γ : Type} {site : Site} {query : World → γ} {f : γ → Tx α} (h : Ordered w q)
    (hf : Carries w (f (query w)) post) : Carries w (Models.select site query >>= f) post :=
  step h rfl hf

theorem commit {site : Site} {jobs : List (Tracked ScheduledJob)} {runs : List (Tracked ReviewRun)}
    {post : Unit → World → Queues → Prop} {q' : Queues} (h : Ordered w q)
    (hq : Ordered (w.commitRows jobs runs) q') (hpost : post () (w.commitRows jobs runs) q') :
    Carries w (Models.commit site jobs runs) post :=
  step h (h.ready jobs) (ret hq hpost)

theorem commit_bind {site : Site} {jobs : List (Tracked ScheduledJob)} {runs : List (Tracked ReviewRun)}
    {f : Unit → Tx α} (h : Ordered w q) (hf : Carries (w.commitRows jobs runs) (f ()) post) :
    Carries w (Models.commit site jobs runs >>= f) post :=
  step h (h.ready jobs) hf

end Carries

end GitlabReviewer.Queue
