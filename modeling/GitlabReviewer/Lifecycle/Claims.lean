import GitlabReviewer.Lifecycle.Work

/-! # Every job is claimed at most once

The queue hands a job out when its status leaves `queued`, and no operation puts
it back. One invariant says who holds what: the claims are distinct, claimed jobs
are not queued, each owner holds a claim of its own, and a row that a claim has
locked stays queued until that claim commits or gives up.
-/
namespace GitlabReviewer.Lifecycle
open Python Foundation Models Scheduling Reviews

inductive Activity where
  | request (q : Request)
  | pump (now : Timestamp)

def Activity.prog (rules : Rules) : Activity → Tx Unit
  | request q => q.prog
  | pump now => claimAndWork rules.dialect rules.answers now

inductive Process where
  | activity (a : Activity)
  | recovery (stop : ℕ → Except Text Unit) (now : Timestamp)

def Process.prog (rules : Rules) : Process → Tx Unit
  | activity a => a.prog rules
  | recovery stop now => do
      let _ ← recoverOrphans stop now
      .ret ()

def Activity.initial : Activity → Role
  | request _ => .requesting
  | pump _ => .idle

def Process.initial : Process → Role
  | activity a => a.initial
  | recovery _ _ => .recovering

/-- One uninterrupted life of the service. -/
def service (rules : Rules) : System Activity Site World PyError where
  prog := Activity.prog rules
  mayFail := rules.mayFail
  restart := none

/-- The service with crashes and recoveries. A crash loses every thread and,
with the connections, the locks of the claims that had not committed. -/
def deployment (rules : Rules) : System Process Site World PyError where
  prog := Process.prog rules
  mayFail := rules.mayFail
  restart := some fun w => { w with locked := [] }

theorem Activity.follows (rules : Rules) (a : Activity) :
    (a.prog rules).Follows Good (Move rules) rules.mayFail a.initial fun _ r =>
      ∀ now, a = .pump now → PumpEnds rules r := by
  cases a with
  | request q => exact q.follows.mono fun _ _ _ _ h => by cases h
  | pump now => exact (follows_claimAndWork now).mono fun _ _ h _ _ => h

theorem Process.follows (rules : Rules) (p : Process) :
    (p.prog rules).Follows Good (Move rules) rules.mayFail p.initial fun _ _ => True := by
  cases p with
  | activity a => exact (a.follows rules).mono fun _ _ _ => trivial
  | recovery stop now =>
    exact .bind ((follows_recoverOrphans stop now).mono fun x _ _ => by cases x <;> trivial)

/-- What every step does that neither claims, locks nor creates a run. -/
structure Tame (w w' : World) : Prop where
  good : Good w → Good w'
  status : ∀ j st, w.jobStatus j = some st →
    ∃ st', w'.jobStatus j = some st' ∧ (st' = st ∨ st' ≠ .queued ∧ st' ≠ .claimed)
  runJobs : ∀ r, (w'.verdict r).map (·.jobId) = (w.verdict r).map (·.jobId)
  lockedStatus : ∀ j ∈ w.locked, ∀ st, w.jobStatus j = some st → w'.jobStatus j = some st
  lockedType : ∀ j ∈ w.locked, ∀ ty, w.jobType j = some ty → w'.jobType j = some ty
  locked : w'.locked = w.locked
  claims : w'.claims = w.claims
  reviews : w'.reviews = w.reviews

theorem Tame.refl (w : World) : Tame w w :=
  ⟨id, fun _ st h => ⟨st, h, .inl rfl⟩, fun _ => rfl, fun _ _ _ h => h, fun _ _ _ h => h, rfl, rfl, rfl⟩

theorem Quiet.tame {w w' : World} (h : Quiet w w') : Tame w w' where
  good := h.good
  status j st hst := by
    rcases h.status j with he | ⟨he, -⟩
    · exact ⟨st, he.trans hst, .inl rfl⟩
    · rw [he] at hst
      cases hst
  runJobs r := by rw [h.verdict]
  lockedStatus j _ st hst := by
    rcases h.status j with he | ⟨he, -⟩
    · exact he.trans hst
    · rw [he] at hst
      cases hst
  lockedType := h.types
  locked := h.locked
  claims := h.claims
  reviews := h.reviews

/-- Only `enqueue` writes the status `queued`, and only a claim writes `claimed`. -/
def NeverQueues (t : Tracked ScheduledJob) : Prop :=
  t.mem.status = t.base.status ∨ t.mem.status ≠ .queued ∧ t.mem.status ≠ .claimed

theorem writtenStatus_neverQueues {jobs : List (Tracked ScheduledJob)} (h : ∀ t ∈ jobs, NeverQueues t)
    (j : ℕ) (st : JobStatus) : writtenStatus (held jobs j) st = st ∨
      writtenStatus (held jobs j) st ≠ .queued ∧ writtenStatus (held jobs j) st ≠ .claimed := by
  cases hj : held jobs j with
  | none => exact .inl rfl
  | some t =>
    rw [writtenStatus_some]
    rcases written_eq_or t.base.status t.mem.status st with ⟨-, he⟩ | ⟨hne, he⟩
    · exact .inl he
    · rw [he]
      exact .inr ((h t (held_mem hj).1).resolve_left hne)

theorem writtenVerdict_jobId {runs : List (Tracked ReviewRun)}
    (h : ∀ u ∈ runs, u.mem.scheduledJobId = u.base.scheduledJobId) (r : ℕ) (v : Verdict) :
    (writtenVerdict (held runs r) v).jobId = v.jobId := by
  cases hr : held runs r with
  | none => rfl
  | some u =>
    rw [writtenVerdict_some]
    show written u.base.scheduledJobId u.mem.scheduledJobId v.jobId = v.jobId
    rw [h u (held_mem hr).1, written_self]

theorem tame_of_commits {jobs : List (Tracked ScheduledJob)} {runs : List (Tracked ReviewRun)} {w w' : World}
    (h : Commits jobs runs w w') (hj : ∀ t ∈ jobs, NeverQueues t)
    (hr : ∀ u ∈ runs, u.mem.scheduledJobId = u.base.scheduledJobId) : Tame w w' where
  good := h.good
  status j st hst := ⟨_, by rw [h.jobStatus, hst]; rfl, writtenStatus_neverQueues hj j st⟩
  runJobs r := by
    rw [h.verdict, Option.map_map]
    exact Option.map_congr fun v _ => writtenVerdict_jobId hr r v
  lockedStatus j hl st hst := by
    unfold World.jobStatus at *
    rwa [h.locked_job hl]
  lockedType j hl ty hty := by
    unfold World.jobType at *
    rwa [h.locked_job hl]
  locked := by rw [h.stored]; rfl
  claims := by rw [h.stored]; rfl
  reviews := by rw [h.stored]; rfl

/-- Phases from which the run row may still be created. -/
def Phase.fresh : Phase → Bool
  | claimed => true
  | abandoning _ => true
  | _ => false

/-- Phases from which the review may still be started. -/
def Phase.unreviewed : Phase → Bool
  | claimed => true
  | created _ => true
  | opened _ => true
  | loaded _ _ => true
  | active _ => true
  | _ => false

/-- Thread `i` owns the claim of job `j`. -/
abbrev Owns (rs : List Role) (i j : ℕ) (ph : Phase) : Prop := rs[i]? = some (Role.owner j ph)
/-- Thread `i` holds the lock of a row it is about to claim. -/
abbrev Locks (rs : List Role) (i : ℕ) (row : ScheduledJob) : Prop := rs[i]? = some (Role.locking row)

structure Exclusive (rules : Rules) (rs : List Role) (w : World) : Prop where
  good : Good w
  claimsNodup : w.claims.Nodup
  taken : ∀ j ∈ w.claims, ∃ st, w.jobStatus j = some st ∧ st ≠ .queued
  oneRun : ∀ r r' v v', w.verdict r = some v → w.verdict r' = some v' → v.jobId = v'.jobId → r = r'
  runsClaimed : ∀ r v, w.verdict r = some v → v.jobId ∈ w.claims
  reviewsNodup : w.reviews.Nodup
  reviewsClaimed : ∀ j ∈ w.reviews, j ∈ w.claims
  owners : ∀ i k j ph ph', Owns rs i j ph → Owns rs k j ph' → i = k
  owned : ∀ i j ph, Owns rs i j ph → j ∈ w.claims ∧
    (ph.fresh = true → ∀ r v, w.verdict r = some v → v.jobId ≠ j) ∧ (ph.unreviewed = true → j ∉ w.reviews)
  locks : ∀ i row, Locks rs i row → row.id ∈ w.locked ∧ row.status = .queued ∧
    w.jobStatus row.id = some .queued ∧ w.jobType row.id = some .immediate
  locksApart : ∀ i k row row', Locks rs i row → Locks rs k row' → row.id = row'.id → i = k
  noLocks : rules.dialect = .sqlite → ∀ i row, ¬ Locks rs i row

/-- A role that has no more rights than `r`. -/
structure Role.Below (r' r : Role) : Prop where
  owner : ∀ j ph', r' = .owner j ph' → ∃ ph, r = .owner j ph ∧
    (ph'.fresh = true → ph.fresh = true) ∧ (ph'.unreviewed = true → ph.unreviewed = true)
  locking : ∀ row, r' = .locking row → r = .locking row

theorem Role.Below.refl (r : Role) : r.Below r := ⟨fun _ ph h => ⟨ph, h, id, id⟩, fun _ h => h⟩

theorem Role.Below.owners {j : ℕ} {ph ph' : Phase} (hf : ph'.fresh = true → ph.fresh = true)
    (hu : ph'.unreviewed = true → ph.unreviewed = true) : (Role.owner j ph').Below (.owner j ph) :=
  ⟨fun _ _ h => by cases h; exact ⟨ph, rfl, hf, hu⟩, fun _ h => by cases h⟩

/-- Holding neither a claim nor a lock. -/
def Role.free : Role → Bool
  | .owner _ _ => false
  | .locking _ => false
  | _ => true

theorem Role.Below.of_free {r' : Role} (h : r'.free = true) (r : Role) : r'.Below r := by
  constructor
  · rintro j ph rfl
    cases h
  · rintro row rfl
    cases h

section Invariant
variable {rules : Rules} {rs rs' : List Role} {w w' : World}

theorem getElem?_set_cases {α : Type} {l : List α} {i k : ℕ} {a b : α} (h : (l.set i a)[k]? = some b) :
    k = i ∧ b = a ∨ k ≠ i ∧ l[k]? = some b := by
  rw [List.getElem?_set] at h
  split at h
  · rename_i hik
    split at h
    · exact .inl ⟨hik.symm, (Option.some.inj h).symm⟩
    · cases h
  · rename_i hik
    exact .inr ⟨Ne.symm hik, h⟩

theorem Exclusive.roles (h : Exclusive rules rs w)
    (hle : ∀ (i : ℕ) (x : Role), rs'[i]? = some x → x.free = true ∨ ∃ r, rs[i]? = some r ∧ x.Below r) :
    Exclusive rules rs' w := by
  have howner : ∀ i j ph', Owns rs' i j ph' → ∃ ph, Owns rs i j ph ∧
      (ph'.fresh = true → ph.fresh = true) ∧ (ph'.unreviewed = true → ph.unreviewed = true) := by
    intro i j ph' hi
    rcases hle i _ hi with hfree | ⟨r, hr, hb⟩
    · cases hfree
    · obtain ⟨ph, rfl, hf⟩ := hb.owner j ph' rfl
      exact ⟨ph, hr, hf⟩
  have hlock : ∀ i row, Locks rs' i row → Locks rs i row := by
    intro i row hi
    rcases hle i _ hi with hfree | ⟨r, hr, hb⟩
    · cases hfree
    · rw [hb.locking row rfl] at hr
      exact hr
  refine { h with
    owners := fun i k j ph ph' hi hk => ?_
    owned := fun i j ph' hi => ?_
    locks := fun i row hi => h.locks i row (hlock i row hi)
    locksApart := fun i k row row' hi hk => h.locksApart i k row row' (hlock i row hi) (hlock k row' hk)
    noLocks := fun hd i row hi => h.noLocks hd i row (hlock i row hi) }
  · obtain ⟨_, hi, -⟩ := howner i j ph hi
    obtain ⟨_, hk, -⟩ := howner k j ph' hk
    exact h.owners i k j _ _ hi hk
  · obtain ⟨ph, hi, hf, hu⟩ := howner i j ph' hi
    obtain ⟨hc, hfresh, hrev⟩ := h.owned i j ph hi
    exact ⟨hc, fun hx => hfresh (hf hx), fun hx => hrev (hu hx)⟩

theorem Exclusive.setRole (h : Exclusive rules rs w) {i : ℕ} {r r' : Role} (hi : rs[i]? = some r)
    (hb : r'.Below r) : Exclusive rules (rs.set i r') w :=
  h.roles fun k x hk => by
    rcases getElem?_set_cases hk with ⟨rfl, rfl⟩ | ⟨-, hk⟩
    · exact .inr ⟨r, hi, hb⟩
    · exact .inr ⟨x, hk, .refl x⟩

theorem Exclusive.tame (h : Exclusive rules rs w) (ht : Tame w w') : Exclusive rules rs w' := by
  have hjob : ∀ r v', w'.verdict r = some v' → ∃ v, w.verdict r = some v ∧ v.jobId = v'.jobId := by
    intro r v' hv
    have hr := ht.runJobs r
    rw [hv, Option.map_some] at hr
    obtain ⟨v, hv, he⟩ := Option.map_eq_some_iff.mp hr.symm
    exact ⟨v, hv, he⟩
  refine { h with
    good := ht.good h.good
    claimsNodup := ht.claims ▸ h.claimsNodup
    taken := fun j hj => ?_
    oneRun := fun r r' v v' hv hv' he => ?_
    runsClaimed := fun r v hv => ?_
    reviewsNodup := ht.reviews ▸ h.reviewsNodup
    reviewsClaimed := ht.reviews ▸ ht.claims ▸ h.reviewsClaimed
    owned := fun i j ph hi => ?_
    locks := fun i row hi => ?_ }
  · obtain ⟨st, hst, hne⟩ := h.taken j (ht.claims ▸ hj)
    obtain ⟨st', hst', rfl | ⟨hne', -⟩⟩ := ht.status j st hst
    · exact ⟨st', hst', hne⟩
    · exact ⟨st', hst', hne'⟩
  · obtain ⟨u, hu, hj⟩ := hjob r v hv
    obtain ⟨u', hu', hj'⟩ := hjob r' v' hv'
    exact h.oneRun r r' u u' hu hu' (hj.trans (he.trans hj'.symm))
  · obtain ⟨u, hu, hj⟩ := hjob r v hv
    exact ht.claims ▸ hj ▸ h.runsClaimed r u hu
  · obtain ⟨hc, hf, hr⟩ := h.owned i j ph hi
    refine ⟨ht.claims ▸ hc, fun hx r v hv => ?_, ht.reviews ▸ hr⟩
    obtain ⟨u, hu, hj⟩ := hjob r v hv
    exact hj ▸ hf hx r u hu
  · obtain ⟨hl, hs, hst, hty⟩ := h.locks i row hi
    exact ⟨ht.locked ▸ hl, hs, ht.lockedStatus _ hl _ hst, ht.lockedType _ hl _ hty⟩

theorem Exclusive.move_tame (h : Exclusive rules rs w) {i : ℕ} {r r' : Role} (hi : rs[i]? = some r)
    (hb : r'.Below r) (ht : Tame w w') : Exclusive rules (rs.set i r') w' :=
  (h.setRole hi hb).tame ht

theorem Exclusive.lock (h : Exclusive rules rs w) {i : ℕ}
    (hd : rules.dialect = .postgresql) {row : ScheduledJob} (hl : lockable w = some row) :
    Exclusive rules (rs.set i (.locking row)) { w with locked := row.id :: w.locked } := by
  obtain ⟨hmem, hty, hst, hfree⟩ := lockable_mem hl
  have hrow : w.job? row.id = some row := job?_of_mem h.good hmem
  have howner : ∀ k j ph, Owns (rs.set i (.locking row)) k j ph → Owns rs k j ph := by
    intro k j ph hk
    rcases getElem?_set_cases hk with ⟨-, he⟩ | ⟨-, hk⟩
    · cases he
    · exact hk
  refine { h with
    good := ⟨h.good.jobIds, h.good.runIds⟩
    owners := fun a b j ph ph' ha hb => h.owners a b j ph ph' (howner _ _ _ ha) (howner _ _ _ hb)
    owned := fun a j ph ha => h.owned a j ph (howner _ _ _ ha)
    locks := fun k row' hk => ?_
    locksApart := fun k l row₁ row₂ hk hl' he => ?_
    noLocks := fun hd' => by rw [hd] at hd'; cases hd' }
  · rcases getElem?_set_cases hk with ⟨-, he⟩ | ⟨-, hk⟩
    · cases he
      exact ⟨List.mem_cons_self, hst, (jobStatus_of hrow).trans (congrArg some hst),
        (jobType_of hrow).trans (congrArg some hty)⟩
    · obtain ⟨hin, hrest⟩ := h.locks k row' hk
      exact ⟨List.mem_cons_of_mem _ hin, hrest⟩
  · rcases getElem?_set_cases hk with ⟨hk', he₁⟩ | ⟨hk', hk⟩ <;>
      rcases getElem?_set_cases hl' with ⟨hl'', he₂⟩ | ⟨hl'', hl'⟩
    · rw [hk', hl'']
    · cases he₁
      exact absurd (he ▸ (h.locks l row₂ hl').1) hfree
    · cases he₂
      exact absurd (he ▸ (h.locks k row₁ hk).1) hfree
    · exact h.locksApart k l row₁ row₂ hk hl' he

theorem Exclusive.unlock (h : Exclusive rules rs w) {i : ℕ} {row : ScheduledJob} (hi : Locks rs i row) :
    Exclusive rules (rs.set i .idle) { w with locked := w.locked.erase row.id } := by
  have hlock : ∀ k row', Locks (rs.set i .idle) k row' → k ≠ i ∧ Locks rs k row' := by
    intro k row' hk
    rcases getElem?_set_cases hk with ⟨-, he⟩ | hk
    · cases he
    · exact hk
  have hfree := h.setRole hi (show Role.idle.Below _ from .of_free rfl _)
  refine { hfree with
    good := ⟨h.good.jobIds, h.good.runIds⟩
    locks := fun k row' hk => ?_ }
  obtain ⟨hne, hk⟩ := hlock k row' hk
  obtain ⟨hin, hrest⟩ := h.locks k row' hk
  have hid : row'.id ≠ row.id := fun he => hne (h.locksApart k i row' row hk hi he)
  exact ⟨(List.mem_erase_of_ne hid).mpr hin, hrest⟩

/-- What the commit of a claim does to the job it takes and to all others. -/
structure Takes (j : ℕ) (w w' : World) : Prop where
  good : Good w → Good w'
  queued : w.jobStatus j = some .queued
  taken : w'.jobStatus j = some .claimed
  others : ∀ k, k ≠ j → w'.job? k = w.job? k
  runs : w'.runs = w.runs
  claims : w'.claims = j :: w.claims
  reviews : w'.reviews = w.reviews
  locked : ∀ k, k ≠ j → k ∈ w.locked → k ∈ w'.locked

theorem Exclusive.claim (h : Exclusive rules rs w) {i j : ℕ} (ht : Takes j w w')
    (hlocks : ∀ k row, k ≠ i → Locks rs k row → row.id ≠ j) :
    Exclusive rules (rs.set i (.owner j .claimed)) w' := by
  have hverdict : ∀ r, w'.verdict r = w.verdict r := fun r => by
    rw [World.verdict, World.run?, ht.runs]
    rfl
  have hstatus : ∀ k, k ≠ j → w'.jobStatus k = w.jobStatus k := fun k hk => by
    rw [World.jobStatus, ht.others k hk]
    rfl
  have hnew : j ∉ w.claims := by
    intro hj
    obtain ⟨st, hst, hne⟩ := h.taken j hj
    exact hne (Option.some.inj (hst.symm.trans ht.queued))
  have howner : ∀ k l ph, Owns (rs.set i (.owner j .claimed)) k l ph →
      k = i ∧ l = j ∧ ph = .claimed ∨ k ≠ i ∧ Owns rs k l ph := by
    intro k l ph hk
    rcases getElem?_set_cases hk with ⟨hki, he⟩ | hk
    · cases he
      exact .inl ⟨hki, rfl, rfl⟩
    · exact .inr hk
  have hlock : ∀ k row, Locks (rs.set i (.owner j .claimed)) k row → k ≠ i ∧ Locks rs k row := by
    intro k row hk
    rcases getElem?_set_cases hk with ⟨-, he⟩ | hk
    · cases he
    · exact hk
  constructor
  · exact ht.good h.good
  · rw [ht.claims]
    exact List.nodup_cons.mpr ⟨hnew, h.claimsNodup⟩
  · intro k hk
    by_cases hkj : k = j
    · exact ⟨.claimed, hkj ▸ ht.taken, by decide⟩
    · rw [ht.claims] at hk
      rw [hstatus k hkj]
      exact h.taken k ((List.mem_cons.mp hk).resolve_left hkj)
  · intro r r' v v' hv hv'
    exact h.oneRun r r' v v' (hverdict r ▸ hv) (hverdict r' ▸ hv')
  · intro r v hv
    rw [ht.claims]
    exact List.mem_cons_of_mem _ (h.runsClaimed r v (hverdict r ▸ hv))
  · rw [ht.reviews]
    exact h.reviewsNodup
  · intro k hk
    rw [ht.claims]
    exact List.mem_cons_of_mem _ (h.reviewsClaimed k (ht.reviews ▸ hk))
  · intro a b l ph ph' ha hb
    rcases howner a l ph ha with ⟨ha, hl, -⟩ | ⟨hai, ha⟩ <;>
      rcases howner b l ph' hb with ⟨hb, hl', -⟩ | ⟨hbi, hb⟩
    · rw [ha, hb]
    · exact absurd (hl ▸ (h.owned b l ph' hb).1) hnew
    · exact absurd (hl' ▸ (h.owned a l ph ha).1) hnew
    · exact h.owners a b l ph ph' ha hb
  · intro k l ph hk
    rcases howner k l ph hk with ⟨-, rfl, rfl⟩ | ⟨-, hk⟩
    · refine ⟨ht.claims ▸ List.mem_cons_self, fun _ r v hv he => ?_, fun _ hr => ?_⟩
      · exact hnew (he ▸ h.runsClaimed r v (hverdict r ▸ hv))
      · exact hnew (h.reviewsClaimed l (ht.reviews ▸ hr))
    · obtain ⟨hc, hf, hr⟩ := h.owned k l ph hk
      exact ⟨ht.claims ▸ List.mem_cons_of_mem _ hc, fun hx r v hv => hf hx r v (hverdict r ▸ hv),
        ht.reviews ▸ hr⟩
  · intro k row hk
    obtain ⟨hki, hk⟩ := hlock k row hk
    obtain ⟨hin, hs, hst, hty⟩ := h.locks k row hk
    have hne := hlocks k row hki hk
    refine ⟨ht.locked row.id hne hin, hs, (hstatus row.id hne).trans hst, ?_⟩
    rw [World.jobType, ht.others row.id hne]
    exact hty
  · intro a b row row' ha hb
    exact h.locksApart a b row row' (hlock a row ha).2 (hlock b row' hb).2
  · intro hd k row hk
    exact h.noLocks hd k row (hlock k row hk).2

theorem takes_claimLocked {row : ScheduledJob} (hs : row.status = .queued)
    (hst : w.jobStatus row.id = some .queued) (now : Timestamp) :
    Takes row.id w (claimLocked (setStatus .claimed now (Tracked.load row)) w) := by
  let w₁ : World := w.commitRows [setStatus .claimed now (Tracked.load row)] []
  have hk : KeysKept [setStatus .claimed now (Tracked.load row)] := by simp [setStatus]
  have hstatus : ∀ k, w₁.jobStatus k = _ := jobStatus_commitRows hk
  have hjob : ∀ k, w₁.job? k = _ := job?_commitRows hk
  refine ⟨fun hw => ?_, hst, ?_, fun k hne => ?_, ?_, rfl, rfl, fun k hne hk => (List.mem_erase_of_ne hne).mpr hk⟩
  · have hg : Good w₁ := good_commitRows hw hk keysKept_nil
    exact ⟨hg.jobIds, hg.runIds⟩
  · refine (hstatus row.id).trans ?_
    rw [hst, held_single (i := row.id) rfl, Option.map_some, writtenStatus_some]
    simp [setStatus, hs, written]
  · refine (hjob k).trans ?_
    refine (Option.map_congr fun job hj => overlay_none _ (held_single_ne ?_)).trans
      (congrFun Option.map_id _)
    exact fun he => hne (he.trans (job?_id hj)).symm
  · exact store_nil w.runs

theorem takes_claimRow {row : ScheduledJob} (hw : Good w) (hc : claimable w = some row) (now : Timestamp) :
    Takes row.id w (claimRow now row.id w) := by
  obtain ⟨hmem, -, hq⟩ := claimable_mem hc
  have hrow := job?_of_mem hw hmem
  have hids : ∀ job : ScheduledJob, (if claimedRow row.id job then
      { job with status := .claimed, updatedAt := some now } else job).id = job.id := fun job => by
    split <;> rfl
  have hjob : ∀ k, (claimRow now row.id w).job? k = (w.job? k).map fun job =>
      if claimedRow row.id job then { job with status := .claimed, updatedAt := some now } else job := by
    intro k
    unfold World.job? lookup claimRow
    rw [List.find?_map]
    congr 2
    funext job
    simp only [Function.comp_apply, key_job, hids]
  refine ⟨fun hw => ⟨?_, hw.runIds⟩, (jobStatus_of hrow).trans (congrArg some hq), ?_, fun k hne => ?_, rfl, rfl,
    rfl, fun k _ hk => hk⟩
  · simp only [claimRow, List.map_map]
    exact (List.map_congr_left fun job _ => hids job) ▸ hw.jobIds
  · rw [World.jobStatus, hjob, hrow]
    simp [claimedRow, hq]
  · rw [hjob]
    refine (Option.map_congr fun job hj => if_neg ?_).trans (congrFun Option.map_id _)
    simp only [claimedRow, Bool.and_eq_true, beq_iff_eq, not_and]
    exact fun he => absurd (he.symm.trans (job?_id hj)).symm hne

theorem verdict_insertRun (run : ReviewRun) (r : ℕ) {v : Verdict} (hv : (w.insertRun run).verdict r = some v) :
    w.verdict r = some v ∨ r = World.nextKey (w.runs.map (·.id)) ∧ v = run.verdict := by
  rw [World.verdict, run?_insertRun] at hv
  cases hr : w.run? r with
  | some old =>
    rw [hr, Option.some_or] at hv
    exact .inl ((verdict_of hr).trans hv)
  | none =>
    rw [hr, Option.none_or] at hv
    split at hv
    · rename_i hk
      exact .inr ⟨hk.symm, (Option.some.inj hv).symm⟩
    · cases hv

theorem Exclusive.create (h : Exclusive rules rs w) {i : ℕ} {job : ScheduledJob}
    (hi : Owns rs i job.id .claimed) (now : Timestamp) :
    Exclusive rules (rs.set i (.owner job.id (.created (World.nextKey (w.runs.map (·.id))))))
      (w.insertRun (newRun job now)) := by
  obtain ⟨hc, hf, -⟩ := h.owned i job.id _ hi
  have hfresh := hf rfl
  have hrole : Exclusive rules (rs.set i (.owner job.id (.created (World.nextKey (w.runs.map (·.id)))))) w :=
    h.setRole hi (.owners (fun hx => by cases hx) fun _ => rfl)
  refine { hrole with
    good := good_insertRun _ h.good
    oneRun := fun r r' v v' hv hv' he => ?_
    runsClaimed := fun r v hv => ?_
    owned := fun k j ph hk => ?_ }
  · rcases verdict_insertRun _ r hv with hv | ⟨rfl, rfl⟩ <;>
      rcases verdict_insertRun _ r' hv' with hv' | ⟨rfl, rfl⟩
    · exact h.oneRun r r' v v' hv hv' he
    · exact absurd he (hfresh r v hv)
    · exact absurd he.symm (hfresh r' v' hv')
    · rfl
  · rcases verdict_insertRun _ r hv with hv | ⟨rfl, rfl⟩
    · exact h.runsClaimed r v hv
    · exact hc
  · obtain ⟨hck, hfk, hrk⟩ := hrole.owned k j ph hk
    refine ⟨hck, fun hx r v hv he => ?_, hrk⟩
    rcases verdict_insertRun _ r hv with hv | ⟨rfl, rfl⟩
    · exact hfk hx r v hv he
    · rcases getElem?_set_cases hk with ⟨-, heq⟩ | ⟨hne, hk⟩
      · cases heq
        cases hx
      · exact hne (h.owners k i j ph .claimed hk (he ▸ hi))

theorem Exclusive.review (h : Exclusive rules rs w) {i j : ℕ} {run : ReviewRun}
    (hi : Owns rs i j (.active run)) :
    Exclusive rules (rs.set i (.owner j (.reviewed run))) (recordReview j w) := by
  obtain ⟨hc, -, hr⟩ := h.owned i j _ hi
  have hrole : Exclusive rules (rs.set i (.owner j (.reviewed run))) w :=
    h.setRole hi (.owners (fun hx => by cases hx) fun _ => rfl)
  refine { hrole with
    good := ⟨h.good.jobIds, h.good.runIds⟩
    reviewsNodup := List.nodup_cons.mpr ⟨hr rfl, h.reviewsNodup⟩
    reviewsClaimed := fun k hk => ?_
    owned := fun k l ph hk => ?_ }
  · rcases List.mem_cons.mp hk with rfl | hk
    · exact hc
    · exact h.reviewsClaimed k hk
  · obtain ⟨hcl, hfl, hrl⟩ := hrole.owned k l ph hk
    refine ⟨hcl, hfl, fun hx hmem => ?_⟩
    rcases List.mem_cons.mp hmem with rfl | hmem
    · rcases getElem?_set_cases hk with ⟨-, heq⟩ | ⟨hne, hk⟩
      · cases heq
        cases hx
      · exact hne (h.owners k i l ph (.active run) hk hi)
    · exact hrl hx hmem

theorem Exclusive.take (h : Exclusive rules rs w) {i : ℕ} {r r' : Role} (hi : rs[i]? = some r)
    (ht : Take rules r w r' w') : Exclusive rules (rs.set i r') w' := by
  cases ht with
  | lock hd hl => exact h.lock hd hl
  | unlock => exact h.unlock hi
  | @claimLocked _ row now =>
    obtain ⟨-, hs, hst, -⟩ := h.locks i row hi
    exact h.claim (takes_claimLocked hs hst now) fun k row' hne hk he => hne (h.locksApart k i row' row hk hi he)
  | claimFirst now hd hc => exact h.claim (takes_claimRow h.good hc now) fun k row _ hk _ => h.noLocks hd k row hk
  | create job now => exact h.create hi now
  | review => exact h.review hi

theorem neverQueues_setStatus {status : JobStatus} (hq : status ≠ .queued) (hc : status ≠ .claimed)
    (now : Timestamp) (row : ScheduledJob) :
    ∀ t ∈ [setStatus status now (Tracked.load row)], NeverQueues t := by
  simpa using .inr ⟨hq, hc⟩

theorem neverQueues_failInFlight (now : Timestamp) (row : ScheduledJob) :
    NeverQueues (failInFlight now (Tracked.load row)) := by
  unfold failInFlight
  split
  · exact .inr ⟨by simp [setStatus], by simp [setStatus]⟩
  · exact .inl rfl

theorem neverQueues_finalizes {ex : Execution} {j : ℕ} {run : ReviewRun} {t : Tracked ScheduledJob}
    {u : Tracked ReviewRun} (hf : Finalizes ex j run t u) : NeverQueues t := by
  refine .inr ?_
  rw [hf.jobMem]
  cases outcomeStatus ex.outcome with
  | success => exact ⟨by decide, by decide⟩
  | _ => exact ⟨by decide, by decide⟩

/-- Every other move is tame and gives its thread no new right. -/
theorem Move.tame {r r' : Role} (hm : Move rules r w r' w') :
    Take rules r w r' w' ∨ Tame w w' ∧ r'.Below r := by
  have hhistory : ∀ {o v : List ℕ} {n : List NoteCall},
      Tame w { w with opened := o, notes := n, released := v } :=
    { Tame.refl w with good := fun hw => ⟨hw.jobIds, hw.runIds⟩ }
  cases hm with
  | take h => exact .inl h
  | quiet hq => exact .inr ⟨hq.tame, .refl _⟩
  | lose => exact .inr ⟨.refl w, .owners (fun hx => by cases hx) fun hx => by cases hx⟩
  | abandonRead => exact .inr ⟨.refl w, .owners (fun _ => rfl) fun hx => by cases hx⟩
  | abandonSpare => exact .inr ⟨.refl w, .owners (fun hx => by cases hx) fun hx => by cases hx⟩
  | abandon now hs hc =>
    exact .inr ⟨tame_of_commits hc (neverQueues_setStatus (by decide) (by decide) now _) (by simp),
      .owners (fun hx => by cases hx) fun hx => by cases hx⟩
  | openRun => exact .inr ⟨hhistory, .owners (fun hx => by cases hx) fun _ => rfl⟩
  | openNone => exact .inr ⟨hhistory, .owners (fun hx => by cases hx) fun hx => by cases hx⟩
  | loadJob => exact .inr ⟨.refl w, .owners (fun hx => by cases hx) fun _ => rfl⟩
  | loadNone => exact .inr ⟨.refl w, .owners (fun hx => by cases hx) fun hx => by cases hx⟩
  | start hc =>
    exact .inr ⟨tame_of_commits hc (neverQueues_setStatus (by simp) (by simp) _ _) (by simp [started]),
      .owners (fun hx => by cases hx) fun _ => rfl⟩
  | post => exact .inr ⟨hhistory, .refl _⟩
  | @finish _ _ _ ph run t u hph hf hc =>
    refine .inr ⟨tame_of_commits hc (by simpa using neverQueues_finalizes hf) ?_,
      .owners (fun hx => by cases hx) fun hx => by cases hx⟩
    have hbase : u.base.scheduledJobId = run.scheduledJobId := congrArg Verdict.jobId hf.runBase
    have hmem : u.mem.scheduledJobId = run.scheduledJobId := congrArg Verdict.jobId hf.runMem
    simpa using hmem.trans hbase.symm
  | crashRun => exact .inr ⟨.refl w, .owners (fun hx => by cases hx) fun hx => by cases hx⟩
  | crashJob => exact .inr ⟨.refl w, .owners (fun hx => by cases hx) fun hx => by cases hx⟩
  | crashCommit now hj hr hc =>
    refine .inr ⟨tame_of_commits hc (fun t ht => ?_) fun u hu => ?_,
      .owners (fun hx => by cases hx) fun hx => by cases hx⟩
    · obtain ⟨row, -, rfl⟩ := Option.map_eq_some_iff.mp (Option.mem_toList.mp ht)
      exact neverQueues_failInFlight now row
    · obtain ⟨run, -, rfl⟩ := Option.map_eq_some_iff.mp (Option.mem_toList.mp hu)
      simp only [Function.comp_apply, crashedRun]
      split <;> rfl
  | release => exact .inr ⟨hhistory, .of_free rfl _⟩
  | readRunning => exact .inr ⟨.refl w, .of_free rfl _⟩
  | cancelInflight now hs hr hc =>
    refine .inr ⟨tame_of_commits hc (neverQueues_setStatus (by decide) (by decide) now _) fun u hu => ?_,
      .of_free rfl _⟩
    obtain ⟨run, -, rfl⟩ := Option.map_eq_some_iff.mp (Option.mem_toList.mp hu)
    rfl
  | cancelQueued now hs hc =>
    exact .inr ⟨tame_of_commits hc (neverQueues_setStatus (by decide) (by decide) now _) (by simp),
      .of_free rfl _⟩
  | recover hr hc =>
    refine .inr ⟨tame_of_commits hc (fun t ht => ?_) hr.runs, .of_free rfl _⟩
    exact (hr.jobs t ht).imp id fun he => by rw [he]; exact ⟨by decide, by decide⟩

theorem Exclusive.move (h : Exclusive rules rs w) {i : ℕ} {r r' : Role} (hi : rs[i]? = some r)
    (hm : Move rules r w r' w') : Exclusive rules (rs.set i r') w' := by
  rcases hm.tame with ht | ⟨ht, hb⟩
  · exact h.take hi ht
  · exact h.move_tame hi hb ht

theorem getElem?_concat_cases {α : Type} {l : List α} {k : ℕ} {a b : α} (h : (l ++ [a])[k]? = some b) :
    l[k]? = some b ∨ b = a := by
  rw [List.getElem?_append] at h
  split at h
  · exact .inl h
  · exact .inr (List.mem_singleton.mp (List.mem_of_getElem? h))

theorem Exclusive.start (h : Exclusive rules rs w) {r : Role} (hr : r.free = true) :
    Exclusive rules (rs ++ [r]) w :=
  h.roles fun i x hi => by
    rcases getElem?_concat_cases hi with hi | rfl
    · exact .inr ⟨x, hi, .refl x⟩
    · exact .inl hr

theorem exclusive_empty (rules : Rules) : Exclusive rules [] World.empty where
  good := good_empty
  claimsNodup := List.nodup_nil
  taken j hj := absurd hj List.not_mem_nil
  oneRun _ _ _ _ hv := by cases hv
  runsClaimed _ _ hv := by cases hv
  reviewsNodup := List.nodup_nil
  reviewsClaimed j hj := absurd hj List.not_mem_nil
  owners _ _ _ _ _ hi := by cases hi
  owned _ _ _ hi := by cases hi
  locks _ _ hi := by cases hi
  locksApart _ _ _ _ hi := by cases hi
  noLocks _ _ _ hi := by cases hi

theorem Exclusive.crash (h : Exclusive rules rs w) : Exclusive rules [] { w with locked := [] } :=
  { h with
    good := ⟨h.good.jobIds, h.good.runIds⟩
    owners := fun _ _ _ _ _ hi => by cases hi
    owned := fun _ _ _ hi => by cases hi
    locks := fun _ _ hi => by cases hi
    locksApart := fun _ _ _ _ hi => by cases hi
    noLocks := fun _ _ _ hi => by cases hi }

theorem Activity.initial_free (a : Activity) : a.initial.free = true := by cases a <;> rfl
theorem Process.initial_free (p : Process) : p.initial.free = true := by
  cases p with
  | activity a => exact a.initial_free
  | recovery => rfl

/-- What one transition of the whole service keeps. -/
theorem Exclusive.step {ο : Type} {initial : ο → Role} (hfree : ∀ o, (initial o).free = true) (h : Exclusive rules rs w)
    (hs : RoleStep (Move rules) initial (deployment rules).restart rs w rs' w') :
    Exclusive rules rs' w' := by
  cases hs with
  | start => exact h.start (hfree _)
  | move hi hm => exact h.move hi hm
  | stutter => exact h
  | crash hk =>
    obtain rfl := Option.some.inj hk
    exact h.crash

/-- The history of claims grows only where a queued immediate job is taken. -/
theorem Exclusive.claims_grow (h : Exclusive rules rs w) {i j : ℕ} {r r' : Role} (hi : rs[i]? = some r)
    (hm : Move rules r w r' w') (hj : w'.claims = j :: w.claims) :
    w.jobStatus j = some .queued ∧ w.jobType j = some .immediate ∧ w'.jobStatus j = some .claimed := by
  have hsame : w'.claims ≠ w.claims := fun he => List.cons_ne_self j w.claims (hj.symm.trans he)
  rcases hm.tame with ht | ⟨ht, -⟩
  · cases ht with
    | @claimLocked _ row now =>
      obtain ⟨-, hs, hst, hty⟩ := h.locks i row hi
      obtain rfl : row.id = j := (List.cons.inj hj).1
      exact ⟨hst, hty, (takes_claimLocked hs hst now).taken⟩
    | claimFirst now hd hc =>
      obtain rfl := (List.cons.inj hj).1
      obtain ⟨hmem, hty, hq⟩ := claimable_mem hc
      have hrow := job?_of_mem h.good hmem
      exact ⟨(jobStatus_of hrow).trans (congrArg some hq), (jobType_of hrow).trans (congrArg some hty),
        (takes_claimRow h.good hc now).taken⟩
    | _ => exact absurd rfl hsame
  · exact absurd ht.claims hsame

end Invariant

theorem deployment_invariant (rules : Rules) {c : Pool Process Site World PyError}
    (h : (deployment rules).Reaches (fun _ _ => True) ⟨World.empty, []⟩ c) :
    ∃ rs, Explains (deployment rules) Good (Move rules) (fun _ _ => True) (fun _ _ => True) c.threads rs ∧
      Exclusive rules rs c.shared :=
  h.invariant (Process.follows rules) (fun _ => trivial) (fun _ _ _ _ _ _ _ => trivial)
    (fun _ _ hi => hi.good) (fun _ _ _ _ hi _ hs => hi.step Process.initial_free hs) .nil (exclusive_empty rules)

/-- Over every execution with crashes, recoveries and failing steps, each job is
claimed at most once, has at most one run, is reviewed at most once, and is
queued in the immediate queue when it is claimed. -/
theorem claimed_at_most_once (rules : Rules) {c : Pool Process Site World PyError}
    (h : (deployment rules).Reaches (fun _ _ => True) ⟨World.empty, []⟩ c) :
    c.shared.claims.Nodup ∧ (c.shared.runs.map (·.scheduledJobId)).Nodup ∧ c.shared.reviews.Nodup ∧
      ∀ ch d j, (deployment rules).step c ch = some d → d.shared.claims = j :: c.shared.claims →
        c.shared.jobStatus j = some .queued ∧ c.shared.jobType j = some .immediate ∧
          d.shared.jobStatus j = some .claimed := by
  obtain ⟨rs, hexp, hinv⟩ := deployment_invariant rules h
  refine ⟨hinv.claimsNodup, ?_, hinv.reviewsNodup, fun ch d j hd hj => ?_⟩
  · refine List.Nodup.map_on (fun run hr run' hr' he => ?_) (List.Nodup.of_map _ hinv.good.runIds)
    have hv := verdict_of (run?_of_mem hinv.good hr)
    have hv' := verdict_of (run?_of_mem hinv.good hr')
    have hid := hinv.oneRun _ _ _ _ hv hv' he
    exact List.inj_on_of_nodup_map hinv.good.runIds hr hr' hid
  · obtain ⟨rs', hstep, -⟩ := hexp.step (Process.follows rules) (fun _ => trivial)
      (fun _ _ _ _ _ _ _ => trivial) hinv.good hd
    have hsame : d.shared.claims ≠ c.shared.claims := fun he => List.cons_ne_self j _ (hj.symm.trans he)
    generalize hw : c.shared = w at *
    generalize hw' : d.shared = w' at *
    cases hstep with
    | start => exact absurd rfl hsame
    | move hi hm => exact hinv.claims_grow hi hm hj
    | stutter => exact absurd rfl hsame
    | crash hk =>
      obtain rfl := Option.some.inj hk
      exact absurd rfl hsame

/-- A review that runs through: the container exits with 0 and the note is posted. -/
def quickReview : Execution where
  floats := .none
  strings := .ascii
  startedAt := 1
  finishedAt := 2
  profileFound := true
  mrIid := some 7
  postResultsToGitlab := true
  containerEnv := []
  chunks := []
  answer := .ok
    { exitCode := 0
      resultJson := none
      resultMarkdown := some "fine".toList
      sessionJson := none
      error := none
      timedOut := false }
  note := .ok 1

def quickRules (dialect : Dialect) : Rules where
  dialect := dialect
  answers _ := quickReview
  mayFail site := site != .outside
  outside := rfl

def plainRequest : EnqueueRequest where
  mergeRequestId := 1
  modelProfileId := 1
  scheduleType := .immediate
  promptOverride := none
  extraProjects := []
  postToGitlab := none
  now := 0

/-- One job is enqueued, and two pumps run against each other until the first
has finished its review. -/
def twoPumps : List (Choice Process) :=
  [.start (.activity (.request (.enqueue plainRequest))), .advance 0, .advance 0,
    .start (.activity (.pump 1)), .start (.activity (.pump 1)), .advance 1, .advance 2] ++
    List.replicate 11 (.advance 1)

theorem claimed_at_most_once_twoPumps :
    ∃ c, (deployment (quickRules .postgresql)).Reaches (fun _ _ => True) ⟨World.empty, []⟩ c ∧
      (c.shared.claims = [1] ∧ c.shared.reviews = [1]) ∧ c.shared.claims.Nodup ∧
      (c.shared.runs.map (·.scheduledJobId)).Nodup ∧ c.shared.reviews.Nodup := by
  obtain ⟨c, hreach, hp⟩ := System.exists_of_exec (deployment (quickRules .postgresql)) (fun _ _ => True)
    ⟨World.empty, []⟩ twoPumps (fun c => decide (c.shared.claims = [1] ∧ c.shared.reviews = [1])) (by decide)
  obtain ⟨hc, hr, hv, -⟩ := claimed_at_most_once (quickRules .postgresql) hreach
  exact ⟨c, hreach, of_decide_eq_true hp, hc, hr, hv⟩

end GitlabReviewer.Lifecycle
