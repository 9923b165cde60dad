import GitlabReviewer.Foundation.Ranking
import GitlabReviewer.Models.Commits

/-! # Positions as ranks

The queue of a schedule type is the list its positions stand for: a job's rank
in it is its position while it is queued there. A commit of rows that nobody
else touched acts on the ranks row by row.
-/
namespace GitlabReviewer.Models
open Python Foundation

/-- The rank a row has in the queue of one schedule type. -/
def placeIn (ty : ScheduleType) (job : ScheduledJob) : Option ℤ :=
  if queuedAs ty job then some job.position else none

def World.rank (w : World) (ty : ScheduleType) (i : ℕ) : Option ℤ := (w.job? i).bind (placeIn ty)

section Rank
variable {w : World} {ty : ScheduleType} {i : ℕ} {job : ScheduledJob} {p : ℤ}

theorem placeIn_eq_some : placeIn ty job = some p ↔ queuedAs ty job = true ∧ job.position = p := by
  unfold placeIn
  split <;> simp_all

theorem placeIn_of_status (h : job.status ≠ .queued) : placeIn ty job = none := by
  simp [placeIn, queuedAs, h]

theorem placeIn_of_type (h : job.scheduleType ≠ ty) : placeIn ty job = none := by
  simp [placeIn, queuedAs, h]

theorem rank_of (h : w.job? i = some job) : w.rank ty i = placeIn ty job := by
  unfold World.rank
  rw [h]
  rfl

theorem rank_of_none (h : w.job? i = none) : w.rank ty i = none := by
  unfold World.rank
  rw [h]
  rfl

theorem rank_eq_some : w.rank ty i = some p ↔
    ∃ job, w.job? i = some job ∧ queuedAs ty job = true ∧ job.position = p := by
  simp only [World.rank, Option.bind_eq_some_iff, placeIn_eq_some]

theorem rank_of_status (h : w.jobStatus i ≠ some .queued) : w.rank ty i = none := by
  cases hi : w.job? i with
  | none => exact rank_of_none hi
  | some job =>
    rw [jobStatus_of hi] at h
    rw [rank_of hi]
    exact placeIn_of_status fun hq => h (congrArg some hq)

/-- A job is queued in one set at most. -/
theorem rank_exclusive {ty' : ScheduleType} (h : (w.rank ty i).isSome = true) (hne : ty ≠ ty') :
    w.rank ty' i = none := by
  obtain ⟨p, hp⟩ := Option.isSome_iff_exists.mp h
  obtain ⟨job, hjob, hq, -⟩ := rank_eq_some.mp hp
  rw [rank_of hjob]
  apply placeIn_of_type
  rw [(queuedAs_iff.mp hq).1]
  exact hne

end Rank

instance : Std.Total before where
  total a b := by
    unfold before
    omega

instance : IsTrans ScheduledJob before where
  trans a b c hab hbc := by
    unfold before at *
    omega

section Queue
variable {w : World} {ty : ScheduleType}

theorem mem_queue (hw : Good w) {i : ℕ} : i ∈ w.queue ty ↔ (w.rank ty i).isSome = true := by
  unfold World.queue
  rw [List.mem_map, Option.isSome_iff_exists]
  constructor
  · rintro ⟨job, hjob, rfl⟩
    obtain ⟨hmem, hq⟩ := World.mem_queuedRows.mp hjob
    exact ⟨job.position, rank_eq_some.mpr ⟨job, job?_of_mem hw hmem, hq, rfl⟩⟩
  · rintro ⟨p, hp⟩
    obtain ⟨job, hjob, hq, -⟩ := rank_eq_some.mp hp
    exact ⟨job, World.mem_queuedRows.mpr ⟨job?_mem hjob, hq⟩, job?_id hjob⟩

theorem rank_of_queuedRows (hw : Good w) {job : ScheduledJob} (h : job ∈ w.queuedRows ty) :
    w.rank ty job.id = some job.position := by
  obtain ⟨hmem, hq⟩ := World.mem_queuedRows.mp h
  exact rank_eq_some.mpr ⟨job, job?_of_mem hw hmem, hq, rfl⟩

theorem queuedRows_keys_nodup (hw : Good w) (ty : ScheduleType) : ((w.queuedRows ty).map (·.id)).Nodup := by
  have hperm : (w.queuedRows ty).Perm (w.jobs.filter (queuedAs ty)) := List.perm_insertionSort before _
  have hsub : ((w.jobs.filter (queuedAs ty)).map (·.id)).Nodup :=
    hw.jobIds.sublist (List.filter_sublist.map _)
  exact (hperm.map _).nodup_iff.mpr hsub

/-- The positions of a set are distinct when no two jobs have the same rank in it. -/
theorem nodup_positions_iff (hw : Good w) (ty : ScheduleType) : ((w.queuedRows ty).map (·.position)).Nodup ↔
    ∀ i j p, w.rank ty i = some p → w.rank ty j = some p → i = j := by
  constructor
  · intro h i j p hi hj
    obtain ⟨a, ha, hqa, hpa⟩ := rank_eq_some.mp hi
    obtain ⟨b, hb, hqb, hpb⟩ := rank_eq_some.mp hj
    have hsame := List.inj_on_of_nodup_map h (World.mem_queuedRows.mpr ⟨job?_mem ha, hqa⟩)
      (World.mem_queuedRows.mpr ⟨job?_mem hb, hqb⟩) (hpa.trans hpb.symm)
    rw [← job?_id ha, ← job?_id hb, hsame]
  · intro h
    rw [List.Nodup, List.pairwise_map]
    refine List.Pairwise.imp_of_mem ?_ (List.pairwise_map.mp (queuedRows_keys_nodup hw ty))
    intro a b ha hb hne heq
    have hrank : w.rank ty a.id = some b.position := heq ▸ rank_of_queuedRows hw ha
    exact hne (h _ _ _ hrank (rank_of_queuedRows hw hb))

/-- The queue is sorted by position wherever the positions are distinct. -/
theorem ranks_queue (hw : Good w) (hinj : ∀ i j p, w.rank ty i = some p → w.rank ty j = some p → i = j) :
    Ranks (w.rank ty) (w.queue ty) := by
  constructor
  · intro i
    exact mem_queue hw
  · have hnodup := queuedRows_keys_nodup hw ty
    have hsorted : (w.queuedRows ty).Pairwise before := List.pairwise_insertionSort before _
    unfold World.queue
    refine List.pairwise_map.mpr (List.Pairwise.imp_of_mem ?_ (hsorted.and (List.pairwise_map.mp hnodup)))
    rintro a b ha hb ⟨hab, hne⟩ p hp q hq
    rw [rank_of_queuedRows hw ha] at hp
    rw [rank_of_queuedRows hw hb] at hq
    have hpa : a.position = p := Option.some.inj hp
    have hqb : b.position = q := Option.some.inj hq
    rcases hab with hlt | ⟨heq, -⟩
    · omega
    · have hrank : w.rank ty a.id = some b.position := heq ▸ rank_of_queuedRows hw ha
      exact absurd (hinj _ _ _ hrank (rank_of_queuedRows hw hb)) hne

theorem queue_of_ranks (hw : Good w) {l : List ℕ} (h : Ranks (w.rank ty) l) : w.queue ty = l :=
  (ranks_queue hw fun _ _ _ => h.injective).unique h

theorem rank_le_topPosition {i : ℕ} {p : ℤ} (h : w.rank ty i = some p) :
    ∃ q, w.topPosition ty = some q ∧ p ≤ q := by
  obtain ⟨job, hjob, hq, rfl⟩ := rank_eq_some.mp h
  have hmem : job.position ∈ (w.jobs.filter (queuedAs ty)).map (·.position) :=
    List.mem_map_of_mem (List.mem_filter.mpr ⟨job?_mem hjob, hq⟩)
  cases htop : w.topPosition ty with
  | none =>
    have hnil : (w.jobs.filter (queuedAs ty)).map (·.position) = [] := List.max?_eq_none_iff.mp htop
    simp [hnil] at hmem
  | some q => exact ⟨q, rfl, (List.max?_eq_some_iff.mp htop).2 _ hmem⟩

/-- The base the service counts from bounds all positions. -/
theorem rank_le_base {i : ℕ} {p : ℤ} (h : w.rank ty i = some p) :
    p ≤ (w.topPosition ty).getD 0 := by
  obtain ⟨q, hq, hle⟩ := rank_le_topPosition h
  rwa [hq]

theorem base_nonneg (hw : Good w) (hpos : Above 0 (w.rank ty)) : 0 ≤ (w.topPosition ty).getD 0 := by
  cases htop : w.topPosition ty with
  | none => exact le_rfl
  | some q =>
    obtain ⟨job, hjob, rfl⟩ := List.mem_map.mp (List.max?_eq_some_iff.mp htop).1
    obtain ⟨hmem, hq⟩ := List.mem_filter.mp hjob
    have hrank : w.rank ty job.id = some job.position :=
      rank_eq_some.mpr ⟨job, job?_of_mem hw hmem, hq, rfl⟩
    exact (hpos _ _ hrank).le

/-- Down the queue the stored positions are the ranks. -/
theorem map_position_queuedRows (hw : Good w) (ty : ScheduleType) :
    (w.queuedRows ty).map (fun job => some job.position) = (w.queue ty).map (w.rank ty) := by
  rw [World.queue, List.map_map]
  refine List.map_congr_left ?_
  intro job hjob
  exact (rank_of_queuedRows hw hjob).symm

end Queue

/-- The session loaded these rows as they are stored. -/
def Fresh (w : World) (jobs : List (Tracked ScheduledJob)) : Prop :=
  ∀ t ∈ jobs, t.mem.id = t.base.id ∧ w.job? t.base.id = some t.base

section Fresh
variable {w : World} {jobs : List (Tracked ScheduledJob)} {runs : List (Tracked ReviewRun)}

theorem Fresh.keysKept (h : Fresh w jobs) : KeysKept jobs := fun t ht => (h t ht).1

theorem fresh_singleton {t : Tracked ScheduledJob} (hid : t.mem.id = t.base.id)
    (hbase : w.job? t.base.id = some t.base) : Fresh w [t] := by
  intro u hu
  obtain rfl := List.mem_singleton.mp hu
  exact ⟨hid, hbase⟩

/-- The commit stores the session's rows and leaves the others. -/
theorem job?_commitRows_fresh (h : Fresh w jobs) (i : ℕ) :
    (w.commitRows jobs runs).job? i = ((held jobs i).map (·.mem)).or (w.job? i) := by
  rw [job?_commitRows h.keysKept]
  cases hi : held jobs i with
  | none =>
    cases hj : w.job? i with
    | none => rfl
    | some job =>
      obtain rfl := job?_id hj
      simp [overlay_none job hi]
  | some t =>
    obtain ⟨ht, hkey⟩ := held_mem hi
    obtain ⟨hid, hbase⟩ := h t ht
    have hbi : t.base.id = i := hid.symm.trans hkey
    rw [← hbi, hbase, Option.map_some, overlay_untouched (by rw [key_job, hbi]; exact hi)]
    rfl

theorem job?_commitRows_single {t : Tracked ScheduledJob} {r : List (Tracked ReviewRun)} (hid : t.mem.id = t.base.id)
    (hbase : w.job? t.base.id = some t.base) : (w.commitRows [t] r).job? t.mem.id = some t.mem := by
  rw [job?_commitRows_fresh (fresh_singleton hid hbase), held_single (key_job t.mem)]
  rfl

theorem rank_commitRows_fresh (h : Fresh w jobs) (ty : ScheduleType) (i : ℕ) :
    (w.commitRows jobs runs).rank ty i =
      ((held jobs i).map fun t => placeIn ty t.mem).getD (w.rank ty i) := by
  unfold World.rank
  rw [job?_commitRows_fresh h]
  cases held jobs i with
  | none => rfl
  | some t => rfl

theorem rank_insertJob (job : ScheduledJob) (ty : ScheduleType) :
    (w.insertJob job).rank ty = Function.update (w.rank ty) (World.nextKey (w.jobs.map (·.id)))
      (placeIn ty job) := by
  funext i
  unfold World.rank
  rw [job?_insertJob]
  by_cases hi : i = World.nextKey (w.jobs.map (·.id))
  · subst hi
    rw [job?_nextKey, Function.update_self, Option.none_or, if_pos rfl]
    rfl
  · rw [if_neg fun he => hi he.symm, Option.or_none, Function.update_of_ne hi]

/-- Committing one row moves that job and no other. -/
theorem rank_commitRows_single {t : Tracked ScheduledJob} (hid : t.mem.id = t.base.id)
    (hbase : w.job? t.base.id = some t.base) (ty : ScheduleType) :
    (w.commitRows [t] runs).rank ty = Function.update (w.rank ty) t.mem.id (placeIn ty t.mem) := by
  funext i
  rw [rank_commitRows_fresh (fresh_singleton hid hbase)]
  by_cases hi : i = t.mem.id
  · subst hi
    rw [held_single (key_job t.mem), Function.update_self]
    rfl
  · have hne : Columns.key t.mem ≠ i := fun he => hi he.symm
    rw [held_single_ne hne, Function.update_of_ne hi]
    rfl

end Fresh

end GitlabReviewer.Models
