import GitlabReviewer.Foundation.Reads
import GitlabReviewer.Queue.Steps

/-! # Positions under overlapping sessions

Every operation reads the queue and writes positions later, without a lock. The
positions stay distinct as long as a commit that puts jobs into a queue or moves
them finds the queues as its session read them, but for jobs that have left.
-/
namespace GitlabReviewer.Queue
open Python Foundation Models Scheduling Reviews Lifecycle

/-- The operations that sessions of the web application, the cron and the workers run on the queue. -/
inductive SessionOp where
  | enqueue (request : EnqueueRequest)
  | reorder (dialect : Dialect) (ids : List ℤ)
  | moveToTop (i : ℕ)
  | moveToBottom (i : ℕ)
  | cancel (i : ℕ) (now : Timestamp)
  | compactPositions
  | enrollNightly (i : ℕ) (now : Timestamp)
  | removeNightly (i : ℕ) (now : Timestamp)
  | promoteNightly (now : Timestamp)
  | claimNext (dialect : Dialect) (now : Timestamp)

def SessionOp.prog : SessionOp → Tx Unit
  | enqueue request => (Lifecycle.Request.enqueue request).prog
  | reorder dialect ids => (Lifecycle.Request.reorder dialect ids).prog
  | moveToTop i => (Lifecycle.Request.moveToTop i).prog
  | moveToBottom i => (Lifecycle.Request.moveToBottom i).prog
  | cancel i now => (Lifecycle.Request.cancel i now).prog
  | compactPositions => Lifecycle.Request.compactPositions.prog
  | enrollNightly i now => (Lifecycle.Request.enrollNightly i now).prog
  | removeNightly i now => (Lifecycle.Request.removeNightly i now).prog
  | promoteNightly now => (Lifecycle.Request.promoteNightly now).prog
  | claimNext dialect now => do
      let _ ← Scheduling.claimNext dialect now
      .ret ()

def sessions (mayFail : Site → Bool) : System SessionOp Site World PyError := ⟨SessionOp.prog, mayFail, none⟩

/-- The queued jobs of each schedule type have distinct positions. -/
def Unique (w : World) : Prop := ∀ ty, ((w.queuedRows ty).map (·.position)).Nodup

instance : DecidablePred Unique := fun w =>
  decidable_of_iff (((w.queuedRows .immediate).map (·.position)).Nodup ∧ ((w.queuedRows .nightly).map (·.position)).Nodup)
    ⟨fun h ty => match ty with
      | .immediate => h.1
      | .nightly => h.2, fun h => ⟨h .immediate, h .nightly⟩⟩

/-- Between the two states jobs have left the queues, and none has entered or moved. -/
def OnlyLeft (w w' : World) : Prop := ∀ ty i p, w'.rank ty i = some p → w.rank ty i = some p

/-- A step that puts a job into a queue or moves one finds the queues as its
session read them, but for jobs that have left. -/
def Timely (reads : List World) (w w' : World) : Prop := OnlyLeft w w' ∨ ∀ r ∈ reads, OnlyLeft r w

section Positions
variable {w w' : World} {jobs : List (Tracked ScheduledJob)}

theorem unique_iff (hw : Good w) : Unique w ↔
    ∀ ty i j p, w.rank ty i = some p → w.rank ty j = some p → i = j :=
  forall_congr' fun ty => nodup_positions_iff hw ty

theorem OnlyLeft.refl (w : World) : OnlyLeft w w := fun _ _ _ h => h

theorem OnlyLeft.of_jobs (h : w'.jobs = w.jobs) : OnlyLeft w w' := by
  intro ty i p hp
  unfold World.rank World.job? at hp ⊢
  rwa [← h]

/-- The invariant of all runs: keys and positions are distinct. -/
structure Sound (w : World) : Prop where
  good : Good w
  unique : Unique w

theorem OnlyLeft.sound (h : OnlyLeft w w') (hw : Sound w) (hgood : Good w') : Sound w' := by
  refine ⟨hgood, (unique_iff hgood).mpr ?_⟩
  intro ty i j p hi hj
  exact (unique_iff hw.good).mp hw.unique ty i j p (h ty i p hi) (h ty j p hj)

def Settled (w : World) (i : ℕ) : Prop := ∃ st, w.jobStatus i = some st ∧ st ≠ .queued

/-- No step deletes a job or puts one back into a queue. -/
structure Settles (w w' : World) : Prop where
  stored : ∀ i, (w.jobStatus i).isSome = true → (w'.jobStatus i).isSome = true
  settled : ∀ i, Settled w i → Settled w' i

theorem Settles.refl (w : World) : Settles w w := ⟨fun _ h => h, fun _ h => h⟩

theorem Settles.trans (a b c : World) (hab : Settles a b) (hbc : Settles b c) : Settles a c :=
  ⟨fun i h => hbc.stored i (hab.stored i h), fun i h => hbc.settled i (hab.settled i h)⟩

/-- Enough is that each status stays or is overwritten with another than the queued one. -/
theorem Settles.of_status (h : ∀ i st, w.jobStatus i = some st → ∃ st', w'.jobStatus i = some st' ∧
    (st ≠ .queued → st' ≠ .queued)) : Settles w w' := by
  constructor
  · intro i hi
    obtain ⟨st, hst⟩ := Option.isSome_iff_exists.mp hi
    obtain ⟨st', hst', -⟩ := h i st hst
    rw [hst']
    rfl
  · rintro i ⟨st, hst, hne⟩
    obtain ⟨st', hst', hkept⟩ := h i st hst
    exact ⟨st', hst', hkept hne⟩

theorem Settles.of_jobs (h : w'.jobs = w.jobs) : Settles w w' := by
  apply Settles.of_status
  intro i st hst
  refine ⟨st, ?_, id⟩
  unfold World.jobStatus World.job? at hst ⊢
  rwa [h]

theorem settles_commit (hj : KeysKept jobs) (hq : NeverRequeues jobs) : Settles w (w.commitRows jobs []) := by
  apply Settles.of_status
  intro i st hst
  refine ⟨writtenStatus (held jobs i) st, ?_, writtenStatus_ne_queued hq i⟩
  rw [jobStatus_commitRows hj, hst]
  rfl

theorem settles_insertJob (job : ScheduledJob) : Settles w (w.insertJob job) := by
  apply Settles.of_status
  intro i st hst
  refine ⟨st, ?_, id⟩
  obtain ⟨row, hrow, rfl⟩ := Option.map_eq_some_iff.mp hst
  unfold World.jobStatus
  rw [job?_insertJob, hrow]
  rfl

/-- Taking jobs out of the queue moves no other. -/
theorem onlyLeft_retired {t : Tracked ScheduledJob} (hid : t.mem.id = t.base.id) (hst : t.mem.status ≠ .queued)
    (hchanged : t.mem.status ≠ t.base.status) : OnlyLeft w (w.commitRows [t] []) := by
  intro ty i p hp
  have hkeys : KeysKept [t] := by simpa using hid
  obtain ⟨row', hrow', hq, rfl⟩ := rank_eq_some.mp hp
  rw [job?_commitRows hkeys] at hrow'
  obtain ⟨row, hrow, rfl⟩ := Option.map_eq_some_iff.mp hrow'
  obtain rfl := job?_id hrow
  by_cases hkey : Columns.key t.mem = row.id
  · have hheld : held [t] (Columns.key row) = some t := held_single hkey
    rw [overlay_held row hheld] at hq
    have hstatus := (queuedAs_iff.mp hq).2
    rw [merge_job_status, written_of_ne hchanged] at hstatus
    exact absurd hstatus hst
  · have hheld : held [t] (Columns.key row) = none := held_single_ne hkey
    rw [overlay_none row hheld] at hq ⊢
    exact rank_eq_some.mpr ⟨row, hrow, hq, rfl⟩

/-- Where the session holds a job as it is queued, it writes the values it holds. -/
structure Agrees (w : World) (t : Tracked ScheduledJob) : Prop where
  kept : StatusKept t
  place : ∀ ty p, w.rank ty t.base.id = some p → t.base.scheduleType = ty ∧ t.base.position = p

theorem rank_commit_agrees (h : ∀ t ∈ jobs, Agrees w t) {ty : ScheduleType} {i : ℕ} {p : ℤ}
    (hp : (w.commitRows jobs []).rank ty i = some p) :
    match held jobs i with
    | none => w.rank ty i = some p
    | some t => t.mem.scheduleType = ty ∧ t.mem.position = p := by
  have hkeys : KeysKept jobs := fun t ht => (h t ht).kept.id
  obtain ⟨row', hrow', hq, rfl⟩ := rank_eq_some.mp hp
  rw [job?_commitRows hkeys] at hrow'
  obtain ⟨row, hrow, rfl⟩ := Option.map_eq_some_iff.mp hrow'
  obtain rfl := job?_id hrow
  cases hheld : held jobs row.id with
  | none =>
    dsimp only
    rw [overlay_none row hheld] at hq ⊢
    exact rank_eq_some.mpr ⟨row, hrow, hq, rfl⟩
  | some t =>
    dsimp only
    obtain ⟨ht, hkey⟩ := held_mem hheld
    have hagrees := h t ht
    rw [overlay_held row hheld] at hq ⊢
    obtain ⟨htype, hstatus⟩ := queuedAs_iff.mp hq
    rw [merge_job_status, hagrees.kept.status, written_self] at hstatus
    have hbase : t.base.id = row.id := hagrees.kept.id.symm.trans hkey
    have hrank : w.rank row.scheduleType t.base.id = some row.position := by
      rw [hbase]
      exact rank_eq_some.mpr ⟨row, hrow, queuedAs_iff.mpr ⟨rfl, hstatus⟩, rfl⟩
    obtain ⟨hbasetype, hbaseposition⟩ := hagrees.place _ _ hrank
    rw [merge_job_scheduleType, ← hbasetype, written_base] at htype
    rw [merge_job_position, ← hbaseposition, written_base]
    exact ⟨htype, rfl⟩

/-- The places the session gives its jobs are distinct and nobody else's. -/
structure Separates (w : World) (jobs : List (Tracked ScheduledJob)) : Prop where
  apart : ∀ i j t u, held jobs i = some t → held jobs j = some u → t.mem.scheduleType = u.mem.scheduleType →
    t.mem.position = u.mem.position → i = j
  clear : ∀ i j t, held jobs i = some t → held jobs j = none → w.rank t.mem.scheduleType j ≠ some t.mem.position

theorem Separates.sound (h : Separates w jobs) (hw : Sound w) (hagrees : ∀ t ∈ jobs, Agrees w t) :
    Sound (w.commitRows jobs []) := by
  have hkeys : KeysKept jobs := fun t ht => (hagrees t ht).kept.id
  have hgood : Good (w.commitRows jobs []) := good_commitRows hw.good hkeys keysKept_nil
  refine ⟨hgood, (unique_iff hgood).mpr ?_⟩
  intro ty i j p hi hj
  have hi' := rank_commit_agrees hagrees hi
  have hj' := rank_commit_agrees hagrees hj
  cases hti : held jobs i with
  | none =>
    rw [hti] at hi'
    cases htj : held jobs j with
    | none =>
      rw [htj] at hj'
      exact (unique_iff hw.good).mp hw.unique ty i j p hi' hj'
    | some u =>
      rw [htj] at hj'
      obtain ⟨rfl, rfl⟩ := hj'
      exact absurd hi' (h.clear j i u htj hti)
  | some t =>
    rw [hti] at hi'
    obtain ⟨rfl, rfl⟩ := hi'
    cases htj : held jobs j with
    | none =>
      rw [htj] at hj'
      exact absurd hj' (h.clear i j t hti htj)
    | some u =>
      rw [htj] at hj'
      exact h.apart i j t u hti htj hj'.1.symm hj'.2.symm

end Positions

/-- Every timely step of the program keeps the positions distinct. -/
abbrev Cautious {α : Type} (p : Tx α) (w₀ : World) (reads : List World) : Prop :=
  p.Careful Settles Sound Timely w₀ reads

/-- The session loaded the row in one of its reads. -/
structure Loaded (reads : List World) (t : Tracked ScheduledJob) : Prop where
  kept : StatusKept t
  read : ∃ r ∈ reads, r.job? t.base.id = some t.base

section Operations
variable {w w₀ r : World} {reads : List World} {jobs session : List (Tracked ScheduledJob)}

theorem Loaded.mono {reads' : List World} {t : Tracked ScheduledJob} (h : Loaded reads t) (hsub : reads ⊆ reads') :
    Loaded reads' t := by
  obtain ⟨r, hr, hrow⟩ := h.read
  exact ⟨h.kept, r, hsub hr, hrow⟩

theorem loaded_load {row : ScheduledJob} (hr : r ∈ reads) (hrow : r.job? row.id = some row) :
    Loaded reads (Tracked.load row) := ⟨statusKept_load row, r, hr, hrow⟩

theorem Loaded.agrees {t : Tracked ScheduledJob} (h : Loaded reads t) (hreads : ∀ r ∈ reads, OnlyLeft r w) :
    Agrees w t := by
  refine ⟨h.kept, ?_⟩
  intro ty p hp
  obtain ⟨r, hr, hrow⟩ := h.read
  obtain ⟨row, hrow', hq, hpos⟩ := rank_eq_some.mp (hreads r hr ty _ p hp)
  obtain rfl := Option.some.inj (hrow.symm.trans hrow')
  exact ⟨(queuedAs_iff.mp hq).1, hpos⟩

theorem neverRequeues_of_kept (h : ∀ t ∈ jobs, StatusKept t) : NeverRequeues jobs := by
  intro t ht hq
  rwa [← (h t ht).status]

/-- A commit of jobs the session loaded, to places that are distinct and free. -/
theorem cautious_commit {site : Site} (hjobs : ∀ t ∈ jobs, Loaded reads t)
    (hsep : ∀ w, (∀ r ∈ reads, OnlyLeft r w) → Separates w jobs) : Cautious (commit site jobs []) w₀ reads := by
  apply Program.Careful.atomic
  intro w _ hw _
  have hkeys : KeysKept jobs := fun t ht => (hjobs t ht).kept.id
  refine ⟨settles_commit hkeys (neverRequeues_of_kept fun t ht => (hjobs t ht).kept), ?_⟩
  rintro (hleft | hreads)
  · exact hleft.sound hw (good_commitRows hw.good hkeys keysKept_nil)
  · exact (hsep w hreads).sound hw fun t ht => (hjobs t ht).agrees hreads

/-- A commit that takes a job out of the queue, and what follows it. -/
theorem cautious_retire {α : Type} {site : Site} {t : Tracked ScheduledJob} {f : Unit → Tx α}
    (hid : t.mem.id = t.base.id) (hst : t.mem.status ≠ .queued) (hchanged : t.mem.status ≠ t.base.status)
    (h : ∀ w, Settles w₀ w → Sound w → ∀ reads, Cautious (f ()) (w.commitRows [t] []) reads) :
    Cautious (commit site [t] [] >>= f) w₀ reads := by
  apply Program.Careful.atomic_bind
  intro w hrely hw _
  have hkeys : KeysKept [t] := by simpa using hid
  refine ⟨settles_commit hkeys (neverRequeues_singleton fun hq => absurd hq hst), fun _ => ?_, h w hrely hw _⟩
  exact (onlyLeft_retired hid hst hchanged).sound hw (good_commitRows hw.good hkeys keysKept_nil)

theorem settled_retired {t : Tracked ScheduledJob} (hid : t.mem.id = t.base.id) (hst : t.mem.status ≠ .queued)
    (hchanged : t.mem.status ≠ t.base.status) (hstored : (w.jobStatus t.mem.id).isSome = true) :
    Settled (w.commitRows [t] []) t.mem.id := by
  have hkeys : KeysKept [t] := by simpa using hid
  obtain ⟨st, hs⟩ := Option.isSome_iff_exists.mp hstored
  refine ⟨t.mem.status, ?_, hst⟩
  rw [jobStatus_commitRows hkeys, hs, held_single (key_job t.mem), Option.map_some, writtenStatus_some,
    written_of_ne hchanged]

theorem loaded_instances (hw : Good w) (hsession : ∀ t ∈ session, Loaded reads t) {rows : List ScheduledJob}
    (hrows : ∀ row ∈ rows, row ∈ w.jobs) : ∀ t ∈ instances session rows, Loaded (w :: reads) t := by
  intro t ht
  obtain ⟨row, hrow, rfl⟩ := List.mem_map.mp ht
  cases hheld : held session row.id with
  | none => exact loaded_load List.mem_cons_self (job?_of_mem hw (hrows row hrow))
  | some t => exact (hsession t (held_mem hheld).1).mono (List.subset_cons_self _ _)

/-- What a session holds for a row of its query. -/
def instanceOf (session : List (Tracked ScheduledJob)) (row : ScheduledJob) : Tracked ScheduledJob :=
  (held session row.id).getD (Tracked.load row)

theorem instanceOf_id (row : ScheduledJob) : (instanceOf session row).mem.id = row.id := by
  unfold instanceOf
  cases hheld : held session row.id with
  | none => rfl
  | some t => exact (held_mem hheld).2

/-- Jobs that get the numbers of a list, and all others of the type are in the list. -/
theorem separates_numbered {κ : Type} [DecidableEq κ] (ty : ScheduleType) {key : ℕ → κ} (hkey : Function.Injective key)
    (l : List κ) (base : ℤ) (htype : ∀ i t, held jobs i = some t → t.mem.scheduleType = ty)
    (hplace : ∀ i t, held jobs i = some t → key i ∈ l ∧ t.mem.position = base + (l.idxOf (key i) + 1))
    (hclear : ∀ j p, held jobs j = none → w.rank ty j = some p → p ≤ base) : Separates w jobs := by
  constructor
  · intro i j t u hi hj _ hpos
    obtain ⟨hmem, hp⟩ := hplace i t hi
    obtain ⟨-, hq⟩ := hplace j u hj
    have hidx : l.idxOf (key i) = l.idxOf (key j) := by omega
    exact hkey ((List.idxOf_inj hmem).mp hidx)
  · intro i j t hi hj hrank
    rw [htype i t hi] at hrank
    obtain ⟨-, hp⟩ := hplace i t hi
    have hle := hclear j _ hj hrank
    omega

/-- A renumbering of the whole queue. -/
theorem separates_repositioned {l : List ℕ} (h : Repositions r jobs l) (hleft : OnlyLeft r w) : Separates w jobs := by
  have hheld : ∀ i t, held jobs i = some t → i ∈ l ∧ ∃ row, r.job? i = some row ∧
      t.mem = { row with position := (l.idxOf i + 1 : ℤ) } := by
    intro i t hi
    have hmap := h.held i
    rw [hi] at hmap
    split at hmap
    · rename_i hmem
      obtain ⟨row, hrow, heq⟩ := Option.map_eq_some_iff.mp hmap.symm
      exact ⟨hmem, row, hrow, heq.symm⟩
    · cases hmap
  refine separates_numbered .immediate Function.injective_id l 0 ?_ ?_ ?_
  · intro i t hi
    obtain ⟨hmem, row, hrow, heq⟩ := hheld i t hi
    obtain ⟨row', hrow', hq⟩ := h.queuedRow hmem
    obtain rfl := Option.some.inj (hrow.symm.trans hrow')
    rw [heq]
    exact (queuedAs_iff.mp hq).1
  · intro i t hi
    obtain ⟨hmem, row, -, heq⟩ := hheld i t hi
    refine ⟨hmem, ?_⟩
    rw [heq, id_eq]
    dsimp only
    omega
  · intro j p hj hp
    have hmem : j ∈ l := (h.mem j).mpr (by rw [hleft _ _ _ hp]; rfl)
    obtain ⟨row, hrow, -⟩ := h.queuedRow hmem
    have hmap := h.held j
    rw [hj, if_pos hmem, hrow] at hmap
    cases hmap

theorem cautious_compactPositions (site : Site) (hsession : ∀ t ∈ session, Settled w₀ t.mem.id) :
    Cautious (compactPositions site session) w₀ reads := by
  apply Program.Careful.read_bind Settles.refl
  intro r hrely hr
  have hcurrent : Current r session := by
    refine current_of_status fun t ht => ?_
    obtain ⟨st, hst, hne⟩ := hrely.settled _ (hsession t ht)
    rw [hst]
    exact fun hq => hne (Option.some.inj hq)
  rw [instances_current hcurrent hr.good fun row hrow => World.mem_queuedRows.mp hrow]
  have hrep := repositions_renumber hr.good
  apply cautious_commit
  · intro t ht
    obtain ⟨row, p, hrow, hbase, hmem⟩ := hrep.rows t ht
    refine ⟨?_, r, List.mem_cons_self, ?_⟩
    · rw [← hbase] at hmem
      exact ⟨by rw [hmem], by rw [hmem]⟩
    · rw [hbase]
      exact hrow
  · intro w hreads
    exact separates_repositioned hrep (hreads r List.mem_cons_self)

/-- A reordering that names the whole queue, of which the session may hold one job already. -/
theorem separates_placed {ordered : List ℤ} {r' : World} (hr' : Good r')
    (htype : ∀ t ∈ session, t.mem.scheduleType = .immediate)
    (hsame : sameIds ((instances session (selected ordered r)).map (·.mem.id)) (r'.queue .immediate) = true)
    (hleft : OnlyLeft r' w) : Separates w ((instances session (selected ordered r)).map (placed ordered)) := by
  have hheld : ∀ i, held ((instances session (selected ordered r)).map (placed ordered)) i =
      (lookup (selected ordered r) i).map fun row => placed ordered (instanceOf session row) := by
    intro i
    have hkey : ∀ row : ScheduledJob, Columns.key (placed ordered (instanceOf session row)).mem = Columns.key row :=
      fun row => instanceOf_id row
    unfold instances
    rw [List.map_map]
    exact held_map hkey _ i
  have hrow : ∀ i t, held ((instances session (selected ordered r)).map (placed ordered)) i = some t →
      ∃ row ∈ selected ordered r, row.id = i ∧ t = placed ordered (instanceOf session row) := by
    intro i t hi
    rw [hheld] at hi
    obtain ⟨row, hrow, rfl⟩ := Option.map_eq_some_iff.mp hi
    exact ⟨row, lookup_mem hrow, lookup_key hrow, rfl⟩
  refine separates_numbered .immediate (Nat.cast_injective (R := ℤ)) ordered 0 ?_ ?_ ?_
  · intro i t hi
    obtain ⟨row, hmem, -, rfl⟩ := hrow i t hi
    show (instanceOf session row).mem.scheduleType = .immediate
    unfold instanceOf
    cases hs : held session row.id with
    | none => exact (queuedAs_iff.mp (mem_selected.mp hmem).2.2).1
    | some t => exact htype t (held_mem hs).1
  · intro i t hi
    obtain ⟨row, hmem, rfl, rfl⟩ := hrow i t hi
    refine ⟨(mem_selected.mp hmem).2.1, ?_⟩
    show (ordered.idxOf ((instanceOf session row).mem.id : ℤ) + 1 : ℤ) = _
    rw [instanceOf_id]
    omega
  · intro j p hj hp
    have hmem : j ∈ r'.queue .immediate := (mem_queue hr').mpr (by rw [hleft _ _ _ hp]; rfl)
    obtain ⟨t, ht, rfl⟩ := List.mem_map.mp ((sameIds_iff.mp hsame j).mpr hmem)
    obtain ⟨row, hrow', rfl⟩ := List.mem_map.mp ht
    rw [hheld, Option.map_eq_none_iff] at hj
    have hid : (instanceOf session row).mem.id = row.id := instanceOf_id row
    have hsome : (lookup (selected ordered r) row.id).isSome = true :=
      lookup_isSome_iff.mpr (List.mem_map_of_mem hrow')
    rw [← hid] at hsome
    exact absurd hj (Option.isSome_iff_ne_none.mp hsome)

theorem loaded_placed {ordered : List ℤ} {t : Tracked ScheduledJob} (h : Loaded reads t) :
    Loaded reads (placed ordered t) := ⟨statusKept_placed h.kept, h.read⟩

theorem cautious_rewritePositions (hsession : ∀ t ∈ session, Loaded reads t)
    (htype : ∀ t ∈ session, t.mem.scheduleType = .immediate) (ids : List ℤ) :
    Cautious (rewritePositions session ids) w₀ reads := by
  unfold rewritePositions
  dsimp only
  split
  · exact trivial
  · apply Program.Careful.read_bind Settles.refl
    intro r _ hr
    rw [show (r.jobs.filter fun job => ids.eraseDups.contains (job.id : ℤ) && queuedAs .immediate job) =
      selected ids.eraseDups r from rfl]
    split
    · exact trivial
    · apply Program.Careful.read_bind Settles.refl
      intro r' _ hr'
      split
      · exact trivial
      · rename_i hsame
        apply cautious_commit
        · intro t ht
          obtain ⟨u, hu, rfl⟩ := List.mem_map.mp ht
          have hloaded := loaded_instances hr.good hsession (fun row hrow => (mem_selected.mp hrow).1) u hu
          exact (loaded_placed hloaded).mono (List.subset_cons_self _ _)
        · intro w hreads
          exact separates_placed hr'.good htype (by simpa using hsame) (hreads r' List.mem_cons_self)

theorem cautious_reorder (dialect : Dialect) (ids : List ℤ) : Cautious (reorder dialect ids) w₀ reads := by
  unfold reorder
  split
  · exact cautious_rewritePositions (by simp) (by simp) ids
  · exact trivial

/-- An operation on a job the session loads first. -/
theorem cautious_withJob {i : ℕ} {act : Tracked ScheduledJob → Tx Unit}
    (h : ∀ r row, Sound r → r.job? row.id = some row → Cautious (act (Tracked.load row)) r (r :: reads)) :
    Cautious (withJob i act) w₀ reads := by
  apply Program.Careful.read_bind Settles.refl
  intro r _ hr
  cases hrow : r.job? i with
  | none => exact trivial
  | some row =>
    obtain rfl := job?_id hrow
    exact h r row hr hrow

theorem requireQueuedImmediate_type {job : ScheduledJob} (h : requireQueuedImmediate job = none) :
    job.scheduleType = .immediate := by
  unfold requireQueuedImmediate at h
  split at h
  · cases h
  · split at h
    · cases h
    · rename_i htype
      exact not_not.mp htype

/-- Both moves: a list of ids computed from the queue, with the moved job in the session. -/
theorem cautious_moved {row : ScheduledJob} (hr : r ∈ reads) (hrow : r.job? row.id = some row)
    (ids : List ℕ → List ℕ) :
    Cautious (match requireQueuedImmediate row with
      | some e => .raise e
      | none => do
          let queued ← queuedPositions .immediate
          rewritePositions [Tracked.load row] ((ids queued).map Nat.cast)) w₀ reads := by
  cases hrequire : requireQueuedImmediate row with
  | some e => exact trivial
  | none =>
    apply Program.Careful.read_bind Settles.refl
    intro r' _ _
    apply cautious_rewritePositions
    · intro t ht
      obtain rfl := List.mem_singleton.mp ht
      exact loaded_load (List.mem_cons_of_mem _ hr) hrow
    · intro t ht
      obtain rfl := List.mem_singleton.mp ht
      exact requireQueuedImmediate_type hrequire

theorem cautious_cancel {row : ScheduledJob} (hrow : w₀.job? row.id = some row) (now : Timestamp) :
    Cautious (Scheduling.cancel (Tracked.load row) now) w₀ reads := by
  unfold Scheduling.cancel
  split
  · exact trivial
  · rename_i hst
    have hq : row.status = .queued := not_not.mp hst
    have hchanged : (setStatus .cancelled now (Tracked.load row)).mem.status ≠
        (setStatus .cancelled now (Tracked.load row)).base.status := by
      show JobStatus.cancelled ≠ row.status
      rw [hq]
      decide
    refine cautious_retire rfl (show JobStatus.cancelled ≠ .queued by decide) hchanged ?_
    intro w hrely hw reads'
    apply cautious_compactPositions
    intro t ht
    obtain rfl := List.mem_singleton.mp ht
    refine settled_retired rfl (show JobStatus.cancelled ≠ .queued by decide) hchanged (hrely.stored _ ?_)
    show (w₀.jobStatus row.id).isSome = true
    rw [jobStatus_of hrow]
    rfl

theorem loaded_flip {ty : ScheduleType} {position : ℤ} {now : Timestamp} {t : Tracked ScheduledJob}
    (h : Loaded reads t) : Loaded reads (flip ty position now t) := ⟨statusKept_flip h.kept, h.read⟩

/-- One job goes behind the last of the other set. -/
theorem separates_flip {ty : ScheduleType} (now : Timestamp) (t : Tracked ScheduledJob) (hleft : OnlyLeft r w) :
    Separates w [flip ty ((r.topPosition ty).getD 0 + 1) now t] := by
  have hid : ∀ i u, held [flip ty ((r.topPosition ty).getD 0 + 1) now t] i = some u →
      t.mem.id = i ∧ u = flip ty ((r.topPosition ty).getD 0 + 1) now t := by
    intro i u hi
    obtain ⟨hmem, hkey⟩ := held_mem hi
    obtain rfl := List.mem_singleton.mp hmem
    exact ⟨hkey, rfl⟩
  refine separates_numbered ty Function.injective_id [t.mem.id] ((r.topPosition ty).getD 0) ?_ ?_ ?_
  · intro i u hi
    obtain ⟨-, rfl⟩ := hid i u hi
    rfl
  · intro i u hi
    obtain ⟨rfl, rfl⟩ := hid i u hi
    refine ⟨List.mem_singleton_self _, ?_⟩
    rw [id_eq, List.idxOf_cons_self]
    show (r.topPosition ty).getD 0 + 1 = _
    simp
  · intro j p _ hp
    exact rank_le_base (hleft ty j p hp)

theorem cautious_flip {ty : ScheduleType} {t : Tracked ScheduledJob} (ht : Loaded reads t) (now : Timestamp) :
    Cautious (do
      let position ← nextPosition ty
      commit .request [flip ty position now t] []) w₀ reads := by
  apply Program.Careful.read_bind Settles.refl
  intro r _ _
  apply cautious_commit
  · intro u hu
    obtain rfl := List.mem_singleton.mp hu
    exact loaded_flip (ht.mono (List.subset_cons_self _ _))
  · intro w hreads
    exact separates_flip now t (hreads r List.mem_cons_self)

theorem cautious_enrollNightly {t : Tracked ScheduledJob} (ht : Loaded reads t) (now : Timestamp) :
    Cautious (enrollNightly t now) w₀ reads := by
  unfold enrollNightly
  split
  · exact trivial
  · split
    · exact trivial
    · exact cautious_flip ht now

theorem cautious_removeNightly {t : Tracked ScheduledJob} (ht : Loaded reads t) (now : Timestamp) :
    Cautious (removeNightly t now) w₀ reads := by
  unfold removeNightly
  split
  · exact trivial
  · split
    · exact trivial
    · exact cautious_flip ht now

/-- The nightly jobs of one read follow the immediate jobs of another. -/
theorem separates_promoted {r' : World} (now : Timestamp) (hleft : OnlyLeft r' w) :
    Separates w (promoted ((r'.topPosition .immediate).getD 0) now ((r.queuedRows .nightly).map Tracked.load)) := by
  have hheld : ∀ i t, held (promoted ((r'.topPosition .immediate).getD 0) now
      ((r.queuedRows .nightly).map Tracked.load)) i = some t → i ∈ r.queue .nightly ∧
        ∃ row, t = flip .immediate ((r'.topPosition .immediate).getD 0 + ((r.queue .nightly).idxOf i + 1)) now
          (Tracked.load row) := by
    intro i t hi
    rw [promoted_load, held_mapIdx fun _ _ => rfl] at hi
    obtain ⟨row, hrow, rfl⟩ := Option.map_eq_some_iff.mp hi
    refine ⟨?_, row, rfl⟩
    rw [← lookup_key hrow]
    exact List.mem_map_of_mem (lookup_mem hrow)
  refine separates_numbered .immediate Function.injective_id (r.queue .nightly) ((r'.topPosition .immediate).getD 0) ?_ ?_ ?_
  · intro i t hi
    obtain ⟨-, row, rfl⟩ := hheld i t hi
    rfl
  · intro i t hi
    obtain ⟨hmem, row, rfl⟩ := hheld i t hi
    exact ⟨hmem, rfl⟩
  · intro j p _ hp
    exact rank_le_base (hleft .immediate j p hp)

theorem cautious_promoteNightly (now : Timestamp) : Cautious (promoteNightly now) w₀ reads := by
  apply Program.Careful.read_bind Settles.refl
  intro r _ hr
  split
  · exact trivial
  · apply Program.Careful.read_bind Settles.refl
    intro r' _ _
    refine Program.Careful.bind (cautious_commit ?_ ?_) fun _ _ _ => trivial
    · intro t ht
      obtain ⟨n, hn, rfl⟩ := List.mem_mapIdx.mp ht
      rw [List.length_map] at hn
      rw [List.getElem_map]
      have hmem := (World.mem_queuedRows.mp (List.getElem_mem hn)).1
      have hloaded : Loaded (r :: reads) (Tracked.load (r.queuedRows .nightly)[n]) :=
        loaded_load List.mem_cons_self (job?_of_mem hr.good hmem)
      exact (loaded_flip hloaded).mono (List.subset_cons_self _ _)
    · intro w hreads
      exact separates_promoted now (hreads r' List.mem_cons_self)

/-- A new job goes behind the last one the session read. -/
theorem sound_insertJob (hw : Sound w) {job : ScheduledJob} (hleft : OnlyLeft r w)
    (hpos : job.position = (r.topPosition job.scheduleType).getD 0 + 1) : Sound (w.insertJob job) := by
  have hgood := good_insertJob job hw.good
  refine ⟨hgood, (unique_iff hgood).mpr ?_⟩
  have hnew : ∀ ty i p, (w.insertJob job).rank ty i = some p →
      w.rank ty i = some p ∨ (i = World.nextKey (w.jobs.map (·.id)) ∧ ty = job.scheduleType ∧ p = job.position) := by
    intro ty i p hp
    rw [rank_insertJob] at hp
    by_cases hi : i = World.nextKey (w.jobs.map (·.id))
    · rw [hi, Function.update_self] at hp
      obtain ⟨hq, rfl⟩ := placeIn_eq_some.mp hp
      exact .inr ⟨hi, (queuedAs_iff.mp hq).1.symm, rfl⟩
    · rw [Function.update_of_ne hi] at hp
      exact .inl hp
  have hbelow : ∀ i, w.rank job.scheduleType i ≠ some job.position := by
    intro i hi
    have hle := rank_le_base (hleft _ _ _ hi)
    omega
  intro ty i j p hi hj
  rcases hnew ty i p hi with hold | ⟨hkey, rfl, rfl⟩
  · rcases hnew ty j p hj with hold' | ⟨-, rfl, rfl⟩
    · exact (unique_iff hw.good).mp hw.unique ty i j p hold hold'
    · exact absurd hold (hbelow i)
  · rcases hnew _ j _ hj with hold' | ⟨hkey', -, -⟩
    · exact absurd hold' (hbelow j)
    · exact hkey.trans hkey'.symm

theorem cautious_enqueue (request : EnqueueRequest) : Cautious (Scheduling.enqueue request) w₀ reads := by
  apply Program.Careful.read_bind Settles.refl
  intro r _ _
  apply Program.Careful.atomic
  intro w _ hw _
  refine ⟨settles_insertJob _, ?_⟩
  rintro (hleft | hreads)
  · exact hleft.sound hw (good_insertJob _ hw.good)
  · exact sound_insertJob hw (hreads r List.mem_cons_self) rfl

/-- A step that leaves the jobs of a state is no concern of the queues. -/
theorem Sound.of_jobs {w' : World} (hw : Sound w) (hjobs : w'.jobs = w.jobs) (hruns : w'.runs = w.runs) : Sound w' := by
  refine (OnlyLeft.of_jobs hjobs).sound hw ⟨?_, ?_⟩
  · rw [hjobs]
    exact hw.good.jobIds
  · rw [hruns]
    exact hw.good.runIds

/-- Taking a queued job off the queue keeps the positions distinct and settles the job. -/
theorem sound_claimed (hw : Sound w) {row : ScheduledJob} (hq : row.status = .queued) (now : Timestamp) :
    Settles w (w.commitRows [setStatus .claimed now (Tracked.load row)] []) ∧
      Sound (w.commitRows [setStatus .claimed now (Tracked.load row)] []) := by
  have hkeys : KeysKept [setStatus .claimed now (Tracked.load row)] := by simp [setStatus]
  have hne : (setStatus .claimed now (Tracked.load row)).mem.status ≠ .queued :=
    show JobStatus.claimed ≠ .queued by decide
  refine ⟨settles_commit hkeys (neverRequeues_singleton fun h => absurd h hne), ?_⟩
  refine (onlyLeft_retired rfl hne ?_).sound hw (good_commitRows hw.good hkeys keysKept_nil)
  show JobStatus.claimed ≠ row.status
  rw [hq]
  decide

theorem cautious_claimPostgres (now : Timestamp) : Cautious (claimPostgres now) w₀ reads := by
  refine ⟨?_, trivial⟩
  intro w _ hw _
  obtain ⟨hjobs, hruns, -⟩ := lockRow_tables w
  refine ⟨.of_jobs hjobs, fun _ => hw.of_jobs hjobs hruns, ?_⟩
  dsimp only
  cases hrow : lockable w with
  | none => exact trivial
  | some row =>
    have hq : row.status = .queued := (lockable_mem hrow).2.2.1
    refine ⟨?_, ?_, trivial⟩
    · intro w' _ hw' _
      obtain ⟨hsettles, hsound⟩ := sound_claimed hw' hq now
      exact ⟨hsettles.trans _ _ _ (.of_jobs rfl), fun _ => hsound.of_jobs rfl rfl, trivial⟩
    · intro w' _ hw' _
      exact ⟨.of_jobs rfl, fun _ => hw'.of_jobs rfl rfl, trivial⟩

theorem sound_claimFirst (hw : Sound w) (now : Timestamp) :
    Settles w (claimFirst now w) ∧ Sound (claimFirst now w) := by
  unfold claimFirst
  cases hrow : claimable w with
  | none => exact ⟨.refl w, hw⟩
  | some row =>
    obtain ⟨hmem, -, hq⟩ := claimable_mem hrow
    obtain ⟨hsettles, hsound⟩ := sound_claimed hw hq now
    dsimp only
    rw [claimRow_eq hw.good (job?_of_mem hw.good hmem) hq]
    exact ⟨hsettles.trans _ _ _ (.of_jobs rfl), hsound.of_jobs rfl rfl⟩

theorem cautious_claimSqlite (now : Timestamp) : Cautious (claimSqlite now) w₀ reads := by
  apply Program.Careful.atomic_bind
  intro w _ hw _
  obtain ⟨hsettles, hsound⟩ := sound_claimFirst hw now
  refine ⟨hsettles, fun _ => hsound, ?_⟩
  split
  · exact trivial
  · apply Program.Careful.read_bind Settles.refl
    exact fun _ _ _ => trivial

theorem cautious_claimNext (dialect : Dialect) (now : Timestamp) : Cautious (claimNext dialect now) w₀ reads := by
  cases dialect with
  | postgresql => exact cautious_claimPostgres now
  | sqlite => exact cautious_claimSqlite now

/-- Every operation keeps the positions distinct by its timely steps. -/
theorem SessionOp.cautious (o : SessionOp) : Cautious o.prog w₀ reads := by
  cases o with
  | enqueue request => exact .bind (cautious_enqueue request) fun _ _ _ => trivial
  | reorder dialect ids => exact cautious_reorder dialect ids
  | moveToTop i =>
    refine cautious_withJob fun r row _ hrow => ?_
    exact cautious_moved List.mem_cons_self hrow fun queued => row.id :: queued.filter (· ≠ row.id)
  | moveToBottom i =>
    refine cautious_withJob fun r row _ hrow => ?_
    exact cautious_moved List.mem_cons_self hrow fun queued => queued.filter (· ≠ row.id) ++ [row.id]
  | cancel i now => exact cautious_withJob fun r row _ hrow => cautious_cancel hrow now
  | compactPositions => exact cautious_compactPositions _ (by simp)
  | enrollNightly i now =>
    exact cautious_withJob fun r row _ hrow => cautious_enrollNightly (loaded_load List.mem_cons_self hrow) now
  | removeNightly i now =>
    exact cautious_withJob fun r row _ hrow => cautious_removeNightly (loaded_load List.mem_cons_self hrow) now
  | promoteNightly now => exact .bind (cautious_promoteNightly now) fun _ _ _ => trivial
  | claimNext dialect now => exact .bind (cautious_claimNext dialect now) fun _ _ _ => trivial

end Operations

/-- Started with distinct positions, any number of sessions keep them distinct
while each step that puts a job into a queue or moves one is timely. -/
theorem positions_unique {w : World} (hw : Good w) (hunique : Unique w) (mayFail : Site → Bool)
    {d : Pool SessionOp Site World PyError} {reads : ℕ → List World}
    (h : (sessions mayFail).Watched Timely ⟨w, []⟩ d reads) : Unique d.shared := by
  have hcareful := h.careful Settles.refl Settles.trans (fun o _ => o.cautious) rfl ⟨hw, hunique⟩
  exact hcareful.holds.unique

section Example

def immediateRequest : EnqueueRequest := ⟨1, 1, .immediate, none, [], none, 0⟩

def plainJob (status : JobStatus) : ScheduledJob := ⟨1, 1, 1, none, [], .immediate, 1, status, none, some 0, some 0⟩

/-- One immediate job. -/
def oneJob (status : JobStatus) : World := { World.empty with jobs := [plainJob status] }

theorem onlyLeft_claimed : OnlyLeft (oneJob .queued) { oneJob .claimed with claims := [1] } := by
  intro ty i p hp
  obtain ⟨row, hrow, hq, -⟩ := rank_eq_some.mp hp
  obtain rfl := List.mem_singleton.mp (job?_mem hrow)
  exact absurd (queuedAs_iff.mp hq).2 (by decide)

/-- The job is claimed between the read and the insert of another session. -/
theorem positions_unique_claimed : ∃ d reads, (sessions fun _ => false).Watched Timely ⟨oneJob .queued, []⟩ d reads ∧
    d.shared.jobs.map (fun job => (job.status, job.position)) = [(.claimed, 1), (.queued, 2)] ∧ Unique d.shared := by
  have hgood : Good (oneJob .queued) := ⟨by decide, by decide⟩
  have hunique : Unique (oneJob .queued) := by decide
  have hstarted : (sessions fun _ => false).Watched Timely ⟨oneJob .queued, []⟩ _ _ :=
    .step (.start (.claimNext .sqlite 0)) (.step (.start (.enqueue immediateRequest)) .refl rfl nofun) rfl nofun
  have hread := System.Watched.step (.advance 0) hstarted rfl fun i _ => .inl (OnlyLeft.refl _)
  have hclaimed := System.Watched.step (.advance 1) hread rfl fun i hi => .inr (by cases hi; exact nofun)
  have hinserted := System.Watched.step (.advance 0) hclaimed rfl fun i hi => .inr (by
    cases hi
    intro r hr
    obtain rfl := List.mem_singleton.mp hr
    exact onlyLeft_claimed)
  exact ⟨_, _, hinserted, rfl, positions_unique hgood hunique _ hinserted⟩

/-- Two sessions enqueue behind the same last job. -/
theorem positions_collide :
    ¬ ∀ (w : World) (d : Pool SessionOp Site World PyError), Good w → Unique w →
      (sessions fun _ => false).Reaches (fun _ _ => True) ⟨w, []⟩ d → Unique d.shared := by
  intro h
  obtain ⟨d, hreach, hcollide⟩ := System.exists_of_exec (sessions fun _ => false) (fun _ _ => True) ⟨World.empty, []⟩
    [.start (.enqueue immediateRequest), .start (.enqueue immediateRequest), .advance 0, .advance 1, .advance 0, .advance 1]
    (fun d => !decide (Unique d.shared)) (by decide)
  have hunique := h _ d good_empty (by decide) hreach
  simp [hunique] at hcollide

end Example

end GitlabReviewer.Queue
