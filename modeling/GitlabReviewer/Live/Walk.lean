import GitlabReviewer.Live.Edits

/-! # Who writes the record of a run

A run has one scribe: the worker that created it. Its role says how far the
stream of lines has come; every other step of the service leaves the logs alone,
writes no status but `error`, and takes back no archiving.
-/
namespace GitlabReviewer.Live
open Python Foundation Models Scheduling Secrets Reviews Lifecycle

/-- What a step of another session does to the record of a run. -/
structure Aside (rec rec' : Record) : Prop where
  mergeRequestId : rec'.mergeRequestId = rec.mergeRequestId
  modelProfileId : rec'.modelProfileId = rec.modelProfileId
  status : rec'.status = rec.status ∨ rec'.status = .error
  log : rec'.log = rec.log
  delivery : rec'.delivery = rec.delivery
  archived : rec.archivedAt.isSome = true → rec'.archivedAt.isSome = true

theorem Aside.refl (rec : Record) : Aside rec rec := ⟨rfl, rfl, .inl rfl, rfl, rfl, id⟩

/-- No run comes or goes, no note is taken back, and what happens to the records. -/
structure Changes (change : ℕ → Record → Record → Prop) (w w' : World) : Prop where
  keys : RunKeys w → RunKeys w'
  found : ∀ i rec, recordAt w i = some rec → ∃ rec', recordAt w' i = some rec' ∧ change i rec rec'
  missing : ∀ i, recordAt w i = none → recordAt w' i = none
  notes : w.notes ⊆ w'.notes

theorem Changes.before {change : ℕ → Record → Record → Prop} {w w' : World} (h : Changes change w w') {i : ℕ} {rec' : Record}
    (hrec' : recordAt w' i = some rec') : ∃ rec, recordAt w i = some rec ∧ change i rec rec' := by
  cases hrec : recordAt w i with
  | none =>
    rw [h.missing i hrec] at hrec'
    cases hrec'
  | some rec =>
    obtain ⟨found, hfound, hchange⟩ := h.found i rec hrec
    obtain rfl := Option.some.inj (hfound.symm.trans hrec')
    exact ⟨rec, rfl, hchange⟩

abbrev Beside (w w' : World) : Prop := Changes (fun _ => Aside) w w'

theorem beside_of_runs {w w' : World} (h : w'.runs = w.runs) (hn : w'.notes = w.notes) : Beside w w' := by
  have hrec : ∀ i, recordAt w' i = recordAt w i := by
    intro i
    unfold recordAt World.run?
    rw [h]
  constructor
  · unfold RunKeys
    rw [h]
    exact id
  · intro i rec hi
    exact ⟨rec, (hrec i).trans hi, .refl rec⟩
  · intro i hi
    exact (hrec i).trans hi
  · intro call hcall
    rwa [hn]

/-- What the commit of these rows does to the records. -/
theorem changes_commit {change : ℕ → Record → Record → Prop} {jobs : List (Tracked ScheduledJob)}
    {runs : List (Tracked ReviewRun)} (hr : KeysKept runs) {w : World}
    (h : ∀ i rec, recordAt w i = some rec → change i rec (writtenRecord (held runs i) rec)) :
    Changes change w (w.commitRows jobs runs) := by
  constructor
  · exact runKeys_commitRows hr
  · intro i rec hi
    exact ⟨_, by rw [recordAt_commitRows hr, hi]; rfl, h i rec hi⟩
  · intro i hi
    rw [recordAt_commitRows hr, hi]
    rfl
  · exact List.Subset.refl _

theorem LeavesLog.aside {u : Tracked ReviewRun} (h : LeavesLog u) (rec : Record) :
    Aside rec ((recordOf u.base).merge (recordOf u.mem) rec) := by
  constructor
  · show written u.base.mergeRequestId u.mem.mergeRequestId rec.mergeRequestId = _
    rw [h.mergeRequestId, written_self]
  · show written u.base.modelProfileId u.mem.modelProfileId rec.modelProfileId = _
    rw [h.modelProfileId, written_self]
  · show written u.base.status u.mem.status rec.status = _ ∨ written u.base.status u.mem.status rec.status = _
    rcases written_eq_or u.base.status u.mem.status rec.status with ⟨-, hw⟩ | ⟨hne, hw⟩
    · exact .inl hw
    · exact .inr (hw.trans (h.status.resolve_left hne))
  · show written u.base.log u.mem.log rec.log = _
    rw [h.log, written_self]
  · rw [delivery_merge, h.delivery, writtenDelivery_self]
  · intro hrec
    show (written u.base.archivedAt u.mem.archivedAt rec.archivedAt).isSome = true
    rcases written_eq_or u.base.archivedAt u.mem.archivedAt rec.archivedAt with ⟨-, hw⟩ | ⟨hne, hw⟩
    · rw [hw]
      exact hrec
    · rw [hw]
      exact h.archived.resolve_left hne

theorem beside_commit {jobs : List (Tracked ScheduledJob)} {runs : List (Tracked ReviewRun)}
    (h : ∀ u ∈ runs, LeavesLog u) (w : World) : Beside w (w.commitRows jobs runs) := by
  apply changes_commit (fun u hu => (h u hu).id)
  intro i rec _
  cases hi : held runs i with
  | none => exact .refl rec
  | some u => exact (h u (held_mem hi).1).aside rec

/-- A program that may run beside every scribe. -/
abbrev Discreet {α : Type} (p : Tx α) : Prop := p.Guarantees (fun _ => True) Beside

section Discreet
variable {α : Type}

theorem discreet_select (site : Site) (query : World → α) : Discreet (select site query) :=
  .atomic fun _ _ _ => beside_of_runs rfl rfl

theorem discreet_commit {site : Site} {jobs : List (Tracked ScheduledJob)} {runs : List (Tracked ReviewRun)}
    (h : ∀ u ∈ runs, LeavesLog u) : Discreet (commit site jobs runs) :=
  .atomic fun w _ _ => beside_commit h w

theorem discreet_commitJobs (site : Site) (jobs : List (Tracked ScheduledJob)) : Discreet (commit site jobs []) :=
  discreet_commit (by simp)

theorem discreet_compactPositions (site : Site) (session : List (Tracked ScheduledJob)) :
    Discreet (compactPositions site session) :=
  .bind (discreet_select _ _) fun _ => discreet_commitJobs _ _

end Discreet

theorem Edits.beside {w w' : World} (h : Edits w w') : Beside w w' := by
  obtain ⟨jobs, runs, -, hruns, -, hw, hn⟩ := h
  have hcommit : Beside w (w.commitRows jobs runs) := beside_commit (fun u hu => (hruns u hu).2) w
  obtain ⟨hkeys, hfound, hmissing, -⟩ := hcommit
  have hrec : recordAt w' = recordAt (w.commitRows jobs runs) := by
    unfold recordAt World.run?
    rw [hw]
    rfl
  refine ⟨?_, hrec ▸ hfound, hrec ▸ hmissing, hn ▸ List.Subset.refl _⟩
  unfold RunKeys at hkeys ⊢
  rw [hw]
  exact hkeys

theorem Editing.discreet {α : Type} {p : Tx α} (h : Editing p) : Discreet p := h.mono fun _ _ => Edits.beside

theorem discreet_enqueue (request : EnqueueRequest) : Discreet (enqueue request) :=
  .bind (discreet_select _ _) fun _ => .atomic fun _ _ _ => beside_of_runs rfl rfl

/-- No request of the users or of the scheduler touches a log. -/
theorem discreet_request (q : Request) : Discreet q.prog := by
  by_cases h : ∃ request, q = .enqueue request
  · obtain ⟨request, rfl⟩ := h
    exact .bind (discreet_enqueue request) fun _ => trivial
  · exact (editing_request fun request heq => h ⟨request, heq⟩).discreet

end GitlabReviewer.Live
