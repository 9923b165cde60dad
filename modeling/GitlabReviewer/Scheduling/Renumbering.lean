import GitlabReviewer.Models.Positions
import GitlabReviewer.Scheduling.Operations
import Mathlib.Algebra.Ring.Int.Defs

/-! # Renumbering the immediate queue

A compaction and a reordering give every queued immediate job a new position
and touch no other row. Both start from the rows as they are stored, so what
the session loaded before does not matter as long as it is not out of date.
-/
namespace GitlabReviewer.Scheduling
open Python Foundation Models

variable {w : World}

/-- The immediate positions are exactly 1..n. -/
def Dense (w : World) : Prop :=
  (w.queuedRows .immediate).map (·.position) =
    (List.range (w.queue .immediate).length).map fun n : ℕ => (n : ℤ) + 1

/-- A numbering from one makes the positions dense. -/
theorem dense_of_enumerated (hw : Good w) {l : List ℕ} (hl : l.Nodup)
    (h : w.rank .immediate = enumerated l) : Dense w := by
  have hqueue : w.queue .immediate = l := by
    apply queue_of_ranks hw
    rw [h]
    exact ranks_enumerated hl
  have hmap := map_position_queuedRows hw .immediate
  rw [hqueue, h, map_enumerated hl, ← Function.comp_def, ← Function.comp_def some, ← List.map_map,
    ← List.map_map] at hmap
  have hpositions := List.map_injective_iff.mpr (Option.some_injective ℤ) hmap
  unfold Dense
  rw [hqueue]
  exact hpositions

/-- New positions, in the order of `l`, for the jobs of `l` and for no other row. -/
structure Repositions (w : World) (jobs : List (Tracked ScheduledJob)) (l : List ℕ) : Prop where
  nodup : l.Nodup
  mem : ∀ i, i ∈ l ↔ (w.rank .immediate i).isSome = true
  rows : ∀ t ∈ jobs, ∃ row p, w.job? row.id = some row ∧ t.base = row ∧ t.mem = { row with position := p }
  held : ∀ i, ((held jobs i).map (·.mem)) =
    if i ∈ l then (w.job? i).map fun row => { row with position := (l.idxOf i + 1 : ℤ) } else none

namespace Repositions
variable {jobs : List (Tracked ScheduledJob)} {l : List ℕ}

theorem fresh (h : Repositions w jobs l) : Fresh w jobs := by
  intro t ht
  obtain ⟨row, p, hrow, hbase, hmem⟩ := h.rows t ht
  rw [hbase, hmem]
  exact ⟨rfl, hrow⟩

theorem status (h : Repositions w jobs l) : ∀ t ∈ jobs, t.mem.status = t.base.status := by
  intro t ht
  obtain ⟨row, p, -, hbase, hmem⟩ := h.rows t ht
  rw [hbase, hmem]

/-- What the commit stores for each job. -/
theorem job? (h : Repositions w jobs l) (i : ℕ) : (w.commitRows jobs []).job? i =
    if i ∈ l then (w.job? i).map fun row => { row with position := (l.idxOf i + 1 : ℤ) } else w.job? i := by
  rw [job?_commitRows_fresh h.fresh, h.held i]
  by_cases hi : i ∈ l
  · rw [if_pos hi, if_pos hi]
    cases w.job? i <;> rfl
  · rw [if_neg hi, if_neg hi]
    rfl

theorem queuedRow (h : Repositions w jobs l) {i : ℕ} (hi : i ∈ l) :
    ∃ row, w.job? i = some row ∧ queuedAs .immediate row = true := by
  obtain ⟨p, hp⟩ := Option.isSome_iff_exists.mp ((h.mem i).mp hi)
  obtain ⟨row, hrow, hq, -⟩ := rank_eq_some.mp hp
  exact ⟨row, hrow, hq⟩

theorem rank_immediate (h : Repositions w jobs l) :
    (w.commitRows jobs []).rank .immediate = enumerated l := by
  funext i
  unfold World.rank
  rw [h.job? i]
  by_cases hi : i ∈ l
  · obtain ⟨row, hrow, hq⟩ := h.queuedRow hi
    rw [if_pos hi, hrow, enumerated_of_mem hi]
    exact placeIn_eq_some.mpr ⟨hq, rfl⟩
  · have hnone : w.rank .immediate i = none := by
      have hno := (h.mem i).not.mp hi
      simpa using hno
    rw [if_neg hi, enumerated_of_not_mem hi]
    exact hnone

theorem rank_nightly (h : Repositions w jobs l) :
    (w.commitRows jobs []).rank .nightly = w.rank .nightly := by
  funext i
  unfold World.rank
  rw [h.job? i]
  by_cases hi : i ∈ l
  · obtain ⟨row, hrow, hq⟩ := h.queuedRow hi
    have htype : row.scheduleType ≠ .nightly := by
      rw [(queuedAs_iff.mp hq).1]
      decide
    have hmoved : placeIn .nightly { row with position := (l.idxOf i + 1 : ℤ) } = none :=
      placeIn_of_type htype
    rw [if_pos hi, hrow]
    exact hmoved.trans (placeIn_of_type htype).symm
  · rw [if_neg hi]

theorem good (h : Repositions w jobs l) (hw : Good w) : Good (w.commitRows jobs []) :=
  good_commitRows hw h.fresh.keysKept keysKept_nil

theorem dense (h : Repositions w jobs l) (hw : Good w) : Dense (w.commitRows jobs []) :=
  dense_of_enumerated (h.good hw) h.nodup h.rank_immediate

theorem queue (h : Repositions w jobs l) (hw : Good w) : (w.commitRows jobs []).queue .immediate = l := by
  apply queue_of_ranks (h.good hw)
  rw [h.rank_immediate]
  exact ranks_enumerated h.nodup

end Repositions

/-- What the session holds of the queued immediate jobs is what is stored. -/
def Current (w : World) (session : List (Tracked ScheduledJob)) : Prop :=
  ∀ t ∈ session, ∀ row, w.job? t.mem.id = some row → queuedAs .immediate row = true → t = Tracked.load row

theorem current_nil : Current w [] := by simp [Current]

theorem current_of_status {session : List (Tracked ScheduledJob)}
    (h : ∀ t ∈ session, w.jobStatus t.mem.id ≠ some .queued) : Current w session := by
  intro t ht row hrow hq
  have hst := h t ht
  rw [jobStatus_of hrow, (queuedAs_iff.mp hq).2] at hst
  exact absurd rfl hst

theorem current_load {row : ScheduledJob} (h : w.job? row.id = some row) : Current w [Tracked.load row] := by
  intro u hu row' hrow' _
  obtain rfl := List.mem_singleton.mp hu
  rw [Tracked.load_mem, h] at hrow'
  rw [Option.some.inj hrow']

theorem instances_current {session : List (Tracked ScheduledJob)} (hs : Current w session) (hw : Good w)
    {rows : List ScheduledJob} (hrows : ∀ row ∈ rows, row ∈ w.jobs ∧ queuedAs .immediate row = true) :
    instances session rows = rows.map Tracked.load := by
  refine List.map_congr_left ?_
  intro row hrow
  obtain ⟨hmem, hq⟩ := hrows row hrow
  cases hheld : held session row.id with
  | none => rfl
  | some t =>
    obtain ⟨ht, hkey⟩ := held_mem hheld
    have hid : t.mem.id = row.id := hkey
    exact hs t ht row (by rw [hid]; exact job?_of_mem hw hmem) hq

theorem lookup_filter (hw : Good w) (p : ScheduledJob → Bool) (i : ℕ) :
    lookup (w.jobs.filter p) i = (w.job? i).filter p := by
  ext row
  rw [Option.filter_eq_some_iff, lookup_eq_some_iff (hw.jobIds.sublist (List.filter_sublist.map _)),
    List.mem_filter]
  constructor
  · rintro ⟨⟨hrow, hp⟩, rfl⟩
    exact ⟨job?_of_mem hw hrow, hp⟩
  · rintro ⟨hrow, hp⟩
    exact ⟨⟨job?_mem hrow, hp⟩, job?_id hrow⟩

theorem lookup_queuedRows (hw : Good w) (ty : ScheduleType) (i : ℕ) :
    lookup (w.queuedRows ty) i = (w.job? i).filter (queuedAs ty) := by
  ext job
  rw [Option.filter_eq_some_iff, lookup_eq_some_iff (queuedRows_keys_nodup hw _), World.mem_queuedRows]
  constructor
  · rintro ⟨⟨hmem, hq⟩, rfl⟩
    exact ⟨job?_of_mem hw hmem, hq⟩
  · rintro ⟨hjob, hq⟩
    exact ⟨⟨job?_mem hjob, hq⟩, job?_id hjob⟩

theorem filter_queuedAs_of_rank {ty : ScheduleType} {i : ℕ} (h : w.rank ty i = none) :
    (w.job? i).filter (queuedAs ty) = none := by
  rw [Option.filter_eq_none_iff]
  intro job hjob hq
  have hrank : w.rank ty i = some job.position := rank_eq_some.mpr ⟨job, hjob, hq, rfl⟩
  rw [h] at hrank
  cases hrank

theorem filter_queuedAs (hw : Good w) (ty : ScheduleType) (i : ℕ) :
    (w.job? i).filter (queuedAs ty) = if i ∈ w.queue ty then w.job? i else none := by
  by_cases hi : i ∈ w.queue ty
  · obtain ⟨p, hp⟩ := Option.isSome_iff_exists.mp ((mem_queue hw).mp hi)
    obtain ⟨row, hrow, hq, -⟩ := rank_eq_some.mp hp
    rw [if_pos hi, hrow, Option.filter_some_pos hq]
  · have hnone : w.rank ty i = none := by
      have hno := (mem_queue hw).not.mp hi
      simpa using hno
    rw [if_neg hi, filter_queuedAs_of_rank hnone]

/-- One row of a compaction. -/
def renumbered (n : ℕ) (row : ScheduledJob) : Tracked ScheduledJob :=
  if row.position ≠ (n : ℤ) + 1 then (Tracked.load row).set fun job => { job with position := (n : ℤ) + 1 }
  else Tracked.load row

theorem renumber_load (rows : List ScheduledJob) :
    renumber (rows.map Tracked.load) = rows.mapIdx renumbered := by
  refine List.ext_getElem (by simp [renumber]) ?_
  intro n hn _
  simp [renumber, renumbered]

theorem renumbered_base (n : ℕ) (row : ScheduledJob) : (renumbered n row).base = row := by
  unfold renumbered
  split <;> rfl

theorem renumbered_mem (n : ℕ) (row : ScheduledJob) :
    (renumbered n row).mem = { row with position := (n : ℤ) + 1 } := by
  unfold renumbered
  split
  · rfl
  · rename_i h
    have hpos : row.position = (n : ℤ) + 1 := not_not.mp h
    rw [Tracked.load_mem, ← hpos]

theorem repositions_renumber (hw : Good w) :
    Repositions w (renumber ((w.queuedRows .immediate).map Tracked.load)) (w.queue .immediate) := by
  constructor
  · exact queuedRows_keys_nodup hw _
  · intro i
    exact mem_queue hw
  · intro t ht
    rw [renumber_load] at ht
    obtain ⟨n, hn, rfl⟩ := List.mem_mapIdx.mp ht
    obtain ⟨hmem, -⟩ := World.mem_queuedRows.mp (List.getElem_mem hn)
    exact ⟨_, _, job?_of_mem hw hmem, renumbered_base n _, renumbered_mem n _⟩
  · intro i
    rw [renumber_load, held_mapIdx fun n row => by rw [renumbered_mem, key_job, key_job],
      lookup_queuedRows hw, filter_queuedAs hw, Option.map_map]
    by_cases hi : i ∈ w.queue .immediate
    · rw [if_pos hi, if_pos hi]
      refine Option.map_congr ?_
      intro row _
      rw [Function.comp_apply, renumbered_mem]
      rfl
    · rw [if_neg hi, if_neg hi]
      rfl

theorem run_compactPositions (hw : Good w) (hl : w.locked = []) (site : Site)
    {session : List (Tracked ScheduledJob)} (hs : Current w session) :
    (compactPositions site session).run w =
      some (.ok (), w.commitRows (renumber ((w.queuedRows .immediate).map Tracked.load)) []) := by
  have hread : (select site fun w => w.queuedRows .immediate).run w = some (.ok (w.queuedRows .immediate), w) :=
    rfl
  have hready : ∀ jobs, w.unlocked jobs = true := by
    intro jobs
    simp [World.unlocked, hl]
  unfold compactPositions
  rw [Program.bind_eq, Program.run_bind_ok hread,
    instances_current hs hw fun row hrow => World.mem_queuedRows.mp hrow]
  exact if_pos (hready _)

theorem sameIds_iff {a b : List ℕ} : sameIds a b = true ↔ ∀ i, i ∈ a ↔ i ∈ b := by
  simp only [sameIds, Bool.and_eq_true, List.all_eq_true, List.contains_iff_mem]
  constructor
  · rintro ⟨hab, hba⟩ i
    exact ⟨hab i, hba i⟩
  · intro hi
    exact ⟨fun i => (hi i).mp, fun i => (hi i).mpr⟩

/-- The rows a reordering selects. -/
def selected (ordered : List ℤ) (w : World) : List ScheduledJob :=
  w.jobs.filter fun job => ordered.contains (job.id : ℤ) && queuedAs .immediate job

theorem mem_selected {ordered : List ℤ} {row : ScheduledJob} :
    row ∈ selected ordered w ↔ row ∈ w.jobs ∧ (row.id : ℤ) ∈ ordered ∧ queuedAs .immediate row = true := by
  simp [selected]

theorem mem_cast {keys : List ℕ} {i : ℕ} : (i : ℤ) ∈ keys.map Nat.cast ↔ i ∈ keys :=
  List.mem_map_of_injective Nat.cast_injective

theorem idxOf_cast (keys : List ℕ) (i : ℕ) : (keys.map Nat.cast : List ℤ).idxOf (i : ℤ) = keys.idxOf i := by
  induction keys with
  | nil => rfl
  | cons k rest ih =>
    have hhead : ((k : ℤ) == (i : ℤ)) = (k == i) :=
      Bool.eq_iff_iff.mpr (by rw [beq_iff_eq, beq_iff_eq, Int.natCast_inj])
    rw [List.map_cons, List.idxOf_cons, List.idxOf_cons, hhead, ih]

theorem nodup_selected (hw : Good w) (ordered : List ℤ) : ((selected ordered w).map fun row => (row.id : ℤ)).Nodup := by
  rw [show (fun row : ScheduledJob => (row.id : ℤ)) = Nat.cast ∘ (·.id) from rfl, ← List.map_map]
  exact (hw.jobIds.sublist (List.filter_sublist.map _)).map Nat.cast_injective

/-- A reordering that passed its checks names exactly the queued immediate jobs. -/
theorem ordered_eq_queue (hw : Good w) {ordered : List ℤ}
    (hlen : (selected ordered w).length = ordered.length)
    (hsame : sameIds ((selected ordered w).map (·.id)) (w.queue .immediate) = true) :
    ∃ keys : List ℕ, ordered = keys.map Nat.cast ∧ ∀ i, i ∈ keys ↔ i ∈ w.queue .immediate := by
  have hsub : ((selected ordered w).map fun row => (row.id : ℤ)) ⊆ ordered := by
    intro k hk
    obtain ⟨row, hrow, rfl⟩ := List.mem_map.mp hk
    exact (mem_selected.mp hrow).2.1
  have hperm : ((selected ordered w).map fun row => (row.id : ℤ)).Perm ordered := by
    apply (List.subperm_of_subset (nodup_selected hw ordered) hsub).perm_of_length_le
    rw [List.length_map, hlen]
  -- as many rows as ids: each id is a key
  have hcast : ordered = (ordered.map Int.toNat).map Nat.cast := by
    rw [List.map_map]
    refine (List.map_congr_left fun k hk => ?_).trans (List.map_id _) |>.symm
    obtain ⟨row, -, rfl⟩ := List.mem_map.mp (hperm.mem_iff.mpr hk)
    rfl
  refine ⟨_, hcast, fun i => ?_⟩
  rw [← sameIds_iff.mp hsame i, ← mem_cast, ← hcast, ← hperm.mem_iff, List.mem_map, List.mem_map]
  simp only [Int.natCast_inj]

theorem repositions_placed (hw : Good w) {ordered : List ℕ} (hnodup : ordered.Nodup)
    (hmem : ∀ i, i ∈ ordered ↔ i ∈ w.queue .immediate) :
    Repositions w (((selected (ordered.map Nat.cast) w).map Tracked.load).map (placed (ordered.map Nat.cast))) ordered := by
  have hlookup : ∀ i, lookup (selected (ordered.map Nat.cast) w) i = if i ∈ ordered then w.job? i else none := by
    intro i
    rw [selected, lookup_filter hw]
    by_cases hi : i ∈ ordered
    · obtain ⟨p, hp⟩ := Option.isSome_iff_exists.mp ((mem_queue hw).mp ((hmem i).mp hi))
      obtain ⟨row, hrow, hq, -⟩ := rank_eq_some.mp hp
      obtain rfl := job?_id hrow
      rw [if_pos hi, hrow, Option.filter_some_pos]
      rw [List.contains_iff_mem.mpr (mem_cast.mpr hi), hq]
      rfl
    · rw [if_neg hi, Option.filter_eq_none_iff]
      intro row hrow hyes
      obtain rfl := job?_id hrow
      rw [Bool.and_eq_true, List.contains_iff_mem, mem_cast] at hyes
      exact hi hyes.1
  constructor
  · exact hnodup
  · intro i
    exact (hmem i).trans (mem_queue hw)
  · intro t ht
    rw [List.map_map] at ht
    obtain ⟨row, hrow, rfl⟩ := List.mem_map.mp ht
    exact ⟨row, _, job?_of_mem hw (mem_selected.mp hrow).1, rfl, rfl⟩
  · intro i
    rw [List.map_map, held_map fun row => rfl, hlookup, Option.map_map]
    by_cases hi : i ∈ ordered
    · rw [if_pos hi, if_pos hi]
      refine Option.map_congr ?_
      intro row hrow
      obtain rfl := job?_id hrow
      simp only [Function.comp_apply, placed, idxOf_cast, Tracked.set, Tracked.load]
    · rw [if_neg hi, if_neg hi]
      rfl

end GitlabReviewer.Scheduling
