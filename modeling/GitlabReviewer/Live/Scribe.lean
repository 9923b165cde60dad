import GitlabReviewer.Live.Walk

/-! # The scribe of a run

Every program of the service follows one small protocol: the worker is assigned
the run it creates, takes the stored log for its base, and then stores one
prefix of the scrubbed lines after another until it closes the log.
-/
namespace GitlabReviewer.Live
open Python Foundation Models Scheduling Secrets Reviews Lifecycle

/-- The scrubbed lines of a review. -/
def transcript (ex : Execution) : List Text :=
  ex.chunks.map fun chunk => scrubSecrets chunk.text (secretEnvValues ex.containerEnv)

/-- The log as the worker holds it after these lines. -/
def withLines (base : Text) (lines : List Text) : Text := if lines.isEmpty then base else joinLog lines

/-- The line about the posted note. -/
def noteLine (ex : Execution) : Option Text :=
  ex.mrIid.map fun iid =>
    match ex.note with
    | .error message => postbackFailedLine message
    | .ok noteId => postedLine iid noteId

/-- The note id a worker has after posting. -/
def noteIdOf (ex : Execution) (before : Option ℤ) : Option ℤ :=
  match ex.note with
  | .error _ => before
  | .ok noteId => some noteId

/-- The logs and the note ids a worker can close its run with. -/
inductive Closes (ex : Execution) (base : Record) : Text → Option ℤ → Prop
  | missing (h : outcomeStatus ex.outcome = .error) : Closes ex base base.log base.gitlabNoteId
  | plain : Closes ex base (withLines base.log (transcript ex)) base.gitlabNoteId
  | noted {line : Text} (h : line ∈ noteLine ex) :
      Closes ex base (appendLog (withLines base.log (transcript ex)) line) (noteIdOf ex base.gitlabNoteId)

/-- What the scribe of a run does to its record. -/
structure Own (rel : Record → Record → Prop) (rec rec' : Record) : Prop where
  mergeRequestId : rec'.mergeRequestId = rec.mergeRequestId
  modelProfileId : rec'.modelProfileId = rec.modelProfileId
  given : rel rec rec'
  archived : rec'.archivedAt = rec.archivedAt

/-- The record of one run is its scribe's; the others are left aside. -/
abbrev Writing (i : ℕ) (rel : Record → Record → Prop) (w w' : World) : Prop :=
  Changes (fun k rec rec' => if k = i then Own rel rec rec' else Aside rec rec') w w'

structure Begins (old new : Record) : Prop where
  status : new.status = old.status ∨ new.status = .running
  log : new.log = old.log
  delivery : new.delivery = old.delivery

structure Flushes (lines : List Text) (old new : Record) : Prop where
  status : new.status = old.status
  log : new.log = old.log ∨ new.log = joinLog lines
  delivery : new.delivery = old.delivery

structure Finishes (ex : Execution) (base : Record) (log : Text) (noteId : Option ℤ) (old new : Record) : Prop where
  status : new.status = outcomeStatus ex.outcome
  log : new.log = written base.log log old.log
  delivery : new.delivery =
    writtenDelivery base.delivery (ex.outcome.resultJson, ex.outcome.resultMarkdown, noteId) old.delivery

/-- The call that gave the run its note. -/
structure NotedBy (ex : Execution) (i : ℕ) (noteId : ℤ) (call : NoteCall) : Prop where
  runId : call.runId = i
  body : call.body = ex.noteBody
  noteId : call.noteId = some noteId

inductive Scribe where
  | off
  | assigned (i : ℕ)
  | writing (i : ℕ) (base : Record) (lines : List Text) (calls : List NoteCall)

inductive Writes (answers : ℕ → Execution) : Scribe → World → Scribe → World → Prop
  | beside {r : Scribe} {w w' : World} (h : Beside w w') : Writes answers r w r w'
  | assign {w : World} (job : ScheduledJob) (now : Timestamp) :
      Writes answers .off w (.assigned (World.nextKey (w.runs.map (·.id)))) (w.insertRun (newRun job now))
  | take {w w' : World} {i : ℕ} {run : ReviewRun} (h : w.run? i = some run) (hw : w'.runs = w.runs) (hn : w'.notes = w.notes) :
      Writes answers (.assigned i) w (.writing i (recordOf run) [] []) w'
  | begin {w w' : World} {i : ℕ} {base : Record} (h : Writing i Begins w w') :
      Writes answers (.writing i base [] []) w (.writing i base [] []) w'
  | flush {w w' : World} {i : ℕ} {base : Record} {lines lines' : List Text} {calls : List NoteCall} (hl : lines <+: lines')
      (hall : lines' <+: transcript (answers i)) (hne : lines' ≠ []) (h : Writing i (Flushes lines') w w') :
      Writes answers (.writing i base lines calls) w (.writing i base lines' calls) w'
  | post {w : World} {i : ℕ} {base : Record} {lines : List Text} {calls : List NoteCall} (call : NoteCall) :
      Writes answers (.writing i base lines calls) w (.writing i base lines (call :: calls)) (recordNote call w)
  | close {w w' : World} {i : ℕ} {base : Record} {log : Text} {noteId : Option ℤ} {lines : List Text} {calls : List NoteCall}
      (hc : Closes (answers i) base log noteId)
      (hn : ∀ n, noteId = some n → base.gitlabNoteId = some n ∨ ∃ call ∈ calls, NotedBy (answers i) i n call)
      (h : Writing i (Finishes (answers i) base log noteId) w w') :
      Writes answers (.writing i base lines calls) w .off w'

theorem writing_commit {i : ℕ} {rel : Record → Record → Prop} {jobs : List (Tracked ScheduledJob)}
    {u : Tracked ReviewRun} (hmem : u.mem.id = i) (hbase : u.base.id = i)
    (hmr : u.mem.mergeRequestId = u.base.mergeRequestId) (hprofile : u.mem.modelProfileId = u.base.modelProfileId)
    (harchived : u.mem.archivedAt = u.base.archivedAt)
    (hrel : ∀ old, rel old ((recordOf u.base).merge (recordOf u.mem) old))
    (w : World) : Writing i rel w (w.commitRows jobs [u]) := by
  apply changes_commit (by simp [hmem, hbase])
  intro k rec _
  split
  · rename_i hk
    rw [held_single (by rw [key_run, hmem, hk])]
    constructor
    · show written u.base.mergeRequestId u.mem.mergeRequestId rec.mergeRequestId = _
      rw [hmr, written_self]
    · show written u.base.modelProfileId u.mem.modelProfileId rec.modelProfileId = _
      rw [hprofile, written_self]
    · exact hrel rec
    · show written u.base.archivedAt u.mem.archivedAt rec.archivedAt = _
      rw [harchived, written_self]
  · rename_i hk
    rw [held_single_ne (by rw [key_run, hmem]; exact Ne.symm hk)]
    exact .refl rec

section Follows
variable {answers : ℕ → Execution} {mayFail : Site → Bool}

abbrev FollowsLog {α : Type} (answers : ℕ → Execution) (mayFail : Site → Bool) (p : Tx α) (r : Scribe)
    (post : Except PyError α → Scribe → Prop) : Prop :=
  p.Follows (fun _ => True) (Writes answers) mayFail r post

theorem Discreet.followsLog {α : Type} {p : Tx α} (hp : Discreet p) {r : Scribe} {post : Except PyError α → Scribe → Prop}
    (hpost : ∀ x, post x r) : FollowsLog answers mayFail p r post :=
  (hp.follows fun _ _ => .beside).mono fun x _ hr => hr ▸ hpost x

theorem Discreet.stays {α : Type} {p : Tx α} (hp : Discreet p) (r : Scribe) :
    FollowsLog answers mayFail p r fun _ r' => r' = r :=
  hp.followsLog fun _ => rfl

theorem follows_flush {i : ℕ} {base : Record} {lines lines' : List Text} (hl : lines <+: lines')
    (hall : lines' <+: transcript (answers i)) (now last : ℤ) :
    FollowsLog answers mayFail (flushLogInflight i lines' now last) (.writing i base lines [])
      fun x r => (∃ last', x = .ok last') ∧ ∃ l, r = .writing i base l [] ∧ l <+: lines' := by
  unfold flushLogInflight
  split
  · exact ⟨⟨_, rfl⟩, lines, rfl, hl⟩
  · rename_i hdue
    have hne : lines' ≠ [] := by
      rintro rfl
      simp at hdue
    apply Program.Follows.tryCatch
    apply Program.Follows.bind
    refine .atomic (fun w _ _ => ⟨_, .beside (beside_of_runs rfl rfl), ?_⟩) fun _ => ⟨⟨_, rfl⟩, lines, rfl, hl⟩
    dsimp only
    cases hrow : w.run? i with
    | none => exact ⟨⟨_, rfl⟩, lines, rfl, hl⟩
    | some row =>
      have hid := run?_id hrow
      apply Program.Follows.bind
      refine .atomic (fun w' _ _ => ⟨_, .flush hl hall hne ?_, ?_⟩) fun _ => ⟨⟨_, rfl⟩, lines, rfl, hl⟩
      · refine writing_commit hid hid rfl rfl rfl ?_ w'
        intro old
        refine ⟨written_self _ _, ?_, (delivery_merge _ _ _).trans (writtenDelivery_self _ _)⟩
        rcases written_eq_or row.log (joinLog lines') old.log with ⟨-, hw⟩ | ⟨-, hw⟩
        · exact .inl hw
        · exact .inr hw
      · exact ⟨⟨_, rfl⟩, lines', rfl, List.prefix_rfl⟩

theorem follows_stream {i : ℕ} {base : Record} (chunks : List LogChunk) {lines lines' : List Text} (hl : lines <+: lines')
    (hall : lines' ++ chunks.map (fun chunk => scrubSecrets chunk.text (secretEnvValues (answers i).containerEnv)) =
      transcript (answers i)) (last : ℤ) :
    FollowsLog answers mayFail (streamLog i (secretEnvValues (answers i).containerEnv) chunks lines' last) (.writing i base lines [])
      fun x r => x = .ok (transcript (answers i)) ∧ ∃ l, r = .writing i base l [] := by
  induction chunks generalizing lines lines' last with
  | nil =>
    rw [List.map_nil, List.append_nil] at hall
    exact ⟨congrArg Except.ok hall, lines, rfl⟩
  | cons chunk chunks ih =>
    rw [List.map_cons, List.append_cons] at hall
    apply Program.Follows.bind
    apply (follows_flush (hl.trans (List.prefix_append _ _)) ⟨_, hall⟩ chunk.clock last).mono
    rintro x r ⟨⟨last', rfl⟩, l, rfl, hpre⟩
    exact ih hpre hall last'

/-- The worker's copy of its run before the outcome. -/
structure Held (i : ℕ) (base : Record) (log : Text) (u : Tracked ReviewRun) : Prop where
  id : u.mem.id = i
  baseId : u.base.id = i
  stored : u.base.log = base.log
  delivered : (recordOf u.base).delivery = base.delivery
  log : u.mem.log = log
  running : u.base.status = .running
  noteId : u.mem.gitlabNoteId = base.gitlabNoteId
  mergeRequestId : u.mem.mergeRequestId = u.base.mergeRequestId
  modelProfileId : u.mem.modelProfileId = u.base.modelProfileId
  archived : u.mem.archivedAt = u.base.archivedAt

/-- The outcome of a worker that holds its run with this base and this log. -/
theorem follows_outcome (hout : mayFail .outside = false) {i : ℕ} {base : Record} {log : Text} {lines : List Text} {mrIid : Option ℤ} {u : Tracked ReviewRun}
    {t : Tracked ScheduledJob} (hmr : mrIid = (answers i).mrIid ∧ (answers i).mrIid.isSome = true ∧ log = withLines base.log (transcript (answers i)) ∨
      mrIid = none ∧ outcomeStatus (answers i).outcome = .error ∧ log = base.log) (hu : Held i base log u) :
    FollowsLog answers mayFail (applyOutcome (answers i) mrIid u t (answers i).outcome) (.writing i base lines []) fun _ _ => True := by
  have hcommit : ∀ (log : Text) (noteId : Option ℤ) (calls : List NoteCall) (s : Tracked ScheduledJob),
      Closes (answers i) base log noteId →
      (∀ n, noteId = some n → base.gitlabNoteId = some n ∨ ∃ call ∈ calls, NotedBy (answers i) i n call) →
      let v := (withOutcome (answers i).outcome (answers i).finishedAt u).set fun r => { r with gitlabNoteId := noteId, log := log }
      FollowsLog answers mayFail (commit .execution [s] [v] >>= fun _ => compactPositions .execution [s.committed])
        (.writing i base lines calls) fun _ _ => True := by
    intro log noteId calls s hclose hnoted v
    apply Program.Follows.bind
    refine .atomic (fun w _ _ => ⟨.off, .close hclose hnoted ?_, ?_⟩) fun _ => trivial
    · apply writing_commit (u := v) hu.id hu.baseId hu.mergeRequestId hu.modelProfileId hu.archived
      intro old
      constructor
      · show written u.base.status (outcomeStatus (answers i).outcome) old.status = _
        rw [hu.running]
        apply written_of_ne
        unfold outcomeStatus
        split
        · simp
        · split <;> simp
      · show written u.base.log log old.log = _
        rw [hu.stored]
      · rw [delivery_merge]
        show writtenDelivery (recordOf u.base).delivery _ _ = _
        rw [hu.delivered]
        rfl
    · exact (discreet_compactPositions _ _).followsLog fun _ => trivial
  have hlog := hu.log
  have hnoteId := hu.noteId
  unfold applyOutcome
  dsimp only
  split
  · rename_i hpost
    rcases hmr with ⟨hmr, hsome, hlines⟩ | ⟨-, herror, -⟩
    · obtain ⟨iid, hiid⟩ := Option.isSome_iff_exists.mp hsome
      rw [hmr, hiid]
      unfold postToGitlab
      dsimp only
      cases hnote : (answers i).note with
      | error message =>
        have hclose : Closes (answers i) base (appendLog u.mem.log (postbackFailedLine message)) u.mem.gitlabNoteId := by
          have hid : u.mem.gitlabNoteId = noteIdOf (answers i) base.gitlabNoteId := by
            unfold noteIdOf
            rw [hnote, hnoteId]
          rw [hid, hlog, hlines]
          exact .noted (by simp [noteLine, hiid, hnote])
        apply Program.Follows.bind
        refine ⟨fun w _ _ => ⟨_, .post _, ?_⟩, fun hmay => by rw [hout] at hmay; cases hmay⟩
        exact hcommit _ _ _ _ hclose fun n hn => .inl (hnoteId ▸ hn)
      | ok noteId =>
        have hclose : Closes (answers i) base (appendLog u.mem.log (postedLine iid noteId)) (some noteId) := by
          have hid : some noteId = noteIdOf (answers i) base.gitlabNoteId := by
            unfold noteIdOf
            rw [hnote]
          rw [hid, hlog, hlines]
          exact .noted (by simp [noteLine, hiid, hnote])
        apply Program.Follows.bind
        refine ⟨fun w _ _ => ⟨_, .post _, ?_⟩, fun hmay => by rw [hout] at hmay; cases hmay⟩
        refine hcommit _ _ _ _ hclose fun n hn => .inr ⟨_, List.mem_cons_self, hu.id, rfl, hn⟩
    · simp [herror] at hpost
  · have hclose : Closes (answers i) base u.mem.log u.mem.gitlabNoteId := by
      rw [hlog, hnoteId]
      rcases hmr with ⟨-, -, hlines⟩ | ⟨-, herror, hlines⟩
      · rw [hlines]
        exact .plain
      · rw [hlines]
        exact .missing herror
    exact hcommit _ _ _ _ hclose fun n hn => .inl (hnoteId ▸ hn)

theorem follows_execute (hout : mayFail .outside = false) {i : ℕ} (run : ReviewRun) (job : ScheduledJob) (hid : run.id = i) :
    FollowsLog answers mayFail (executeJob (answers i) (Tracked.load run) (Tracked.load job)) (.writing i (recordOf run) [] [])
      fun _ _ => True := by
  unfold executeJob
  apply Program.Follows.bind
  refine .atomic (fun w _ _ => ⟨_, .begin ?_, ?_⟩) fun _ => trivial
  · refine writing_commit hid hid rfl rfl rfl ?_ w
    intro old
    refine ⟨?_, written_self _ _, (delivery_merge _ _ _).trans (writtenDelivery_self _ _)⟩
    rcases written_eq_or run.status .running old.status with ⟨-, hw⟩ | ⟨-, hw⟩
    · exact .inl hw
    · exact .inr hw
  · apply Program.Follows.bind
    refine .atomic (fun w _ _ => ⟨_, .beside (beside_of_runs rfl rfl), ?_⟩) fun _ => trivial
    dsimp only
    split
    · rename_i hfound
      have houtcome : (answers i).outcome = scrubOutcome (secretEnvValues (answers i).containerEnv) (receivedOutcome (answers i).answer) :=
        if_pos hfound
      rw [Bool.and_eq_true] at hfound
      rw [← houtcome]
      apply Program.Follows.bind
      have hstream : FollowsLog answers mayFail
          (streamLog i (secretEnvValues (answers i).containerEnv) (answers i).chunks [] 0 >>= fun lines =>
            applyOutcome (answers i) (answers i).mrIid (withLog lines (started (answers i) (Tracked.load run)).committed)
              (setStatus .running (answers i).startedAt (Tracked.load job)).committed (answers i).outcome)
          (.writing i (recordOf run) [] []) fun _ _ => True := by
        apply Program.Follows.bind
        apply (follows_stream _ List.prefix_rfl (List.nil_append _) 0).mono
        rintro x r ⟨rfl, l, rfl⟩
        exact follows_outcome hout (.inl ⟨rfl, hfound.2, rfl⟩) ⟨hid, hid, rfl, rfl, rfl, rfl, rfl, rfl, rfl, rfl⟩
      have hrunId : (started (answers i) (Tracked.load run)).committed.mem.id = i := hid
      rw [hrunId]
      exact ⟨fun w _ _ => ⟨_, .beside (beside_of_runs rfl rfl), hstream⟩, fun _ => hstream⟩
    · rename_i hmissing
      have houtcome : (answers i).outcome = missingOutcome := if_neg hmissing
      rw [← houtcome]
      refine follows_outcome hout (.inr ⟨rfl, ?_, rfl⟩) ⟨hid, hid, rfl, rfl, rfl, rfl, rfl, rfl, rfl, rfl⟩
      rw [houtcome]
      rfl

end Follows

theorem discreet_claimNext (dialect : Dialect) (now : Timestamp) : Discreet (claimNext dialect now) := by
  unfold claimNext
  cases dialect with
  | postgresql =>
    refine ⟨?_, trivial⟩
    intro w _ _
    refine ⟨beside_of_runs (lockRow_tables w).2.1 (lockRow_tables w).2.2, ?_⟩
    dsimp only
    cases lockable w with
    | none => trivial
    | some row =>
      refine ⟨fun w' _ _ => ⟨beside_of_runs ?_ rfl, trivial⟩, fun w' _ _ => ⟨beside_of_runs rfl rfl, trivial⟩, trivial⟩
      show store [] w'.runs = w'.runs
      rw [store_nil]
  | sqlite =>
    apply Program.Guarantees.atomic_bind
    intro w _ _
    refine ⟨beside_of_runs (claimFirst_runs now w).1 (claimFirst_runs now w).2, ?_⟩
    split
    · trivial
    · exact .bind (discreet_select _ _) fun _ => trivial

section Pump
variable {answers : ℕ → Execution} {mayFail : Site → Bool}

theorem follows_work (hout : mayFail .outside = false) (runId jobId : ℕ) :
    FollowsLog answers mayFail (worker (answers runId) runId jobId) (.assigned runId) fun _ _ => True := by
  unfold worker
  apply Program.Follows.bind
  have hrest : ∀ r, FollowsLog answers mayFail (releasePermit jobId) r fun _ _ => True := fun r =>
    (editing_releasePermit jobId).discreet.followsLog fun _ => trivial
  apply Program.Follows.tryCatch
  refine Program.Follows.mono (show FollowsLog answers mayFail _ _ (fun _ _ => True) from ?_) ?_
  · apply Program.Follows.bind
    refine .atomic (fun w _ _ => ?_) fun _ => trivial
    cases hrun : w.run? runId with
    | none =>
      refine ⟨_, .beside (beside_of_runs rfl rfl), ?_⟩
      have hload : Discreet (getJob .execution jobId >>= fun _ => .ret () : Tx Unit) := .bind (discreet_select _ _) fun _ => trivial
      exact hload.followsLog fun _ => trivial
    | some run =>
      refine ⟨_, .take hrun rfl rfl, ?_⟩
      apply Program.Follows.bind
      refine .atomic (fun w' _ _ => ⟨_, .beside (beside_of_runs rfl rfl), ?_⟩) fun _ => trivial
      cases w'.job? jobId with
      | none => trivial
      | some job => exact follows_execute hout run job (run?_id hrun)
  · intro x r _
    cases x with
    | ok _ => exact hrest r
    | error e =>
      apply ((editing_finalizeCrashedRun _ _ _).discreet.stays r).mono
      intro y r' _
      cases y with
      | ok _ => exact hrest r'
      | error _ => trivial

theorem follows_pump (hout : mayFail .outside = false) (dialect : Dialect) (now : Timestamp) :
    FollowsLog answers mayFail (claimAndWork dialect answers now) .off fun _ _ => True := by
  unfold claimAndWork
  apply Program.Follows.bind
  apply Program.Follows.tryCatch
  have hclaim : FollowsLog answers mayFail (claimAndCreateRun dialect now) .off fun x r =>
      ∀ jobId runId, x = .ok (some (jobId, runId)) → r = .assigned runId := by
    unfold claimAndCreateRun
    apply Program.Follows.bind
    apply ((discreet_claimNext dialect now).stays .off).mono
    intro x r hr
    subst hr
    cases x with
    | error e =>
      intro _ _ h
      cases h
    | ok job =>
      cases job with
      | none =>
        intro _ _ h
        cases h
      | some job =>
        apply Program.Follows.tryCatch
        apply Program.Follows.bind
        refine .atomic (fun w _ _ => ⟨_, .assign job now, ?_⟩) fun _ => ?_
        · intro jobId runId h
          cases h
          rfl
        · apply Program.Follows.bind
          apply ((editing_abandonClaim job.id now).discreet.stays .off).mono
          intro x r hr
          subst hr
          cases x with
          | error e =>
            intro _ _ h
            cases h
          | ok _ =>
            apply Program.Follows.bind
            apply ((editing_releasePermit job.id).discreet.stays .off).mono
            intro y r _
            cases y with
            | error e =>
              intro _ _ h
              cases h
            | ok _ =>
              intro _ _ h
              cases h
  apply hclaim.mono
  intro x r hx
  cases x with
  | error e => trivial
  | ok claimed =>
    match claimed, hx with
    | none, _ => trivial
    | some (jobId, runId), hx =>
      obtain rfl := hx jobId runId rfl
      exact follows_work hout runId jobId

end Pump

theorem Duty.follows (rules : Rules) (d : Duty) :
    FollowsLog rules.answers rules.mayFail (d.prog rules) .off fun _ _ => True := by
  cases d with
  | archive i now =>
    have harchive : Discreet (Duty.prog rules (.archive i now)) := .bind (editing_resultsArchive i now).discreet fun _ => trivial
    exact harchive.followsLog fun _ => trivial
  | process p =>
    cases p with
    | recovery stop now =>
      have hrecovery : Discreet (Lifecycle.Process.prog rules (.recovery stop now)) := .bind (editing_recoverOrphans stop now).discreet fun _ => trivial
      exact hrecovery.followsLog fun _ => trivial
    | activity a =>
      cases a with
      | request q => exact (discreet_request q).followsLog fun _ => trivial
      | pump now => exact follows_pump rules.outside rules.dialect now

end GitlabReviewer.Live
