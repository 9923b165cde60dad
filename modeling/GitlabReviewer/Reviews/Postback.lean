import GitlabReviewer.Foundation.Amid
import GitlabReviewer.Models.Commits
import GitlabReviewer.Reviews.StoredSecrets
import GitlabReviewer.Reviews.Worker

/-! # The note and the outcome

The note is posted in the middle of the transaction that stores the outcome.
The worker is cut at the commit of that transaction: before it the row says
running, and whether it raises decides what the row says in the end.
-/
namespace GitlabReviewer.Reviews
open Python Foundation Models Scheduling Secrets

/-- The columns of the run that tell of the note, the calls of `post_note` for
the run, and the flag of the job. -/
structure View where
  run : Option (RunStatus × Option ℤ)
  notes : List NoteCall
  flag : Option (Option Bool)

def runColumns (run : ReviewRun) : RunStatus × Option ℤ := (run.status, run.gitlabNoteId)

def viewOf (runId jobId : ℕ) (w : World) : View where
  run := (w.run? runId).map runColumns
  notes := w.notes.filter (·.runId == runId)
  flag := (w.job? jobId).map (·.postToGitlab)

/-- Other sessions leave the status and the note of this run alone, and the flag of its job. -/
def Leaves (runId jobId : ℕ) (w w' : World) : Prop := viewOf runId jobId w' = viewOf runId jobId w

theorem Leaves.refl (runId jobId : ℕ) (w : World) : Leaves runId jobId w w := rfl

/-- `_apply_outcome` before its commit. -/
def outcomeRows (ex : Execution) (mrIid : Option ℤ) (run : Tracked ReviewRun) (job : Tracked ScheduledJob)
    (outcome : RunOutcome) : Tx (Tracked ReviewRun × Tracked ScheduledJob) :=
  let job := setStatus (finalJobStatus (outcomeStatus outcome)) ex.finishedAt job
  (if outcomeStatus outcome = .success && job.mem.postToGitlab.getD ex.postResultsToGitlab then
    postToGitlab ex outcome mrIid job.mem.id (withOutcome outcome ex.finishedAt run)
  else .ret (withOutcome outcome ex.finishedAt run)).bind fun run => .ret (run, job)

/-- `execute_job` once the first commit is through, up to the commit of the outcome. -/
def reviewedRows (ex : Execution) (run : Tracked ReviewRun) (job : Tracked ScheduledJob) :
    Tx (Tracked ReviewRun × Tracked ScheduledJob) := do
  let mrIid ← select .execution fun _ => ex.mrIid
  if ex.profileFound && mrIid.isSome then do
    record (recordReview job.mem.id)
    let lines ← streamLog run.mem.id (secretEnvValues ex.containerEnv) ex.chunks [] 0
    outcomeRows ex mrIid (withLog lines run) job
      (scrubOutcome (secretEnvValues ex.containerEnv) (receivedOutcome ex.answer))
  else outcomeRows ex none run job missingOutcome

/-- `execute_job` up to the commit of the outcome. -/
def begunRows (ex : Execution) (run : Tracked ReviewRun) (job : Tracked ScheduledJob) :
    Tx (Tracked ReviewRun × Tracked ScheduledJob) := do
  let run := started ex run
  let job := setStatus .running ex.startedAt job
  commit .execution [job] [run]
  reviewedRows ex run.committed job.committed

/-- Everything the worker does up to the commit of the outcome; none if a row has vanished. -/
def reachOutcome (ex : Execution) (runId jobId : ℕ) : Tx (Option (Tracked ReviewRun × Tracked ScheduledJob)) := do
  let run ← openRun runId
  let job ← getJob .execution jobId
  match run, job with
  | some run, some job => do
      let rows ← begunRows ex run job
      .ret (some rows)
  | _, _ => .ret none

/-- The commit of the outcome and the compaction after it. -/
def settleOutcome : Option (Tracked ReviewRun × Tracked ScheduledJob) → Tx Unit
  | some (run, job) => do
      commit .execution [job] [run]
      compactPositions .execution [job.committed]
  | none => .ret ()

theorem applyOutcome_eq (ex : Execution) (mrIid : Option ℤ) (run : Tracked ReviewRun) (job : Tracked ScheduledJob)
    (outcome : RunOutcome) :
    applyOutcome ex mrIid run job outcome =
      (outcomeRows ex mrIid run job outcome).bind fun rows => settleOutcome (some rows) := by
  unfold applyOutcome outcomeRows
  simp only [Program.bind_eq, Program.bind_assoc]
  split <;> rfl

theorem executeJob_eq (ex : Execution) (run : Tracked ReviewRun) (job : Tracked ScheduledJob) :
    executeJob ex run job = (begunRows ex run job).bind fun rows => settleOutcome (some rows) := by
  unfold executeJob begunRows reviewedRows
  simp only [Program.bind_eq, Program.bind_assoc]
  congr 1
  funext _
  congr 1
  funext mrIid
  split
  · simp only [Program.bind_assoc, applyOutcome_eq]
  · exact applyOutcome_eq ex none _ _ missingOutcome

theorem worker_eq (ex : Execution) (runId jobId : ℕ) :
    worker ex runId jobId =
      (((reachOutcome ex runId jobId).bind settleOutcome).tryCatch fun _ =>
        finalizeCrashedRun runId jobId ex.finishedAt).bind fun _ => releasePermit jobId := by
  refine congrArg (fun body => (Program.tryCatch body fun _ => finalizeCrashedRun runId jobId ex.finishedAt).bind
    fun _ => releasePermit jobId) ?_
  unfold reachOutcome
  simp only [Program.bind_eq, Program.bind_assoc]
  congr 1
  funext run
  congr 1
  funext job
  cases run with
  | none => rfl
  | some run =>
    cases job with
    | none => rfl
    | some job =>
      dsimp only
      rw [executeJob_eq]
      simp only [Program.bind_assoc, Program.ret_bind]

/-- What became of the commit of the outcome. -/
inductive CommitFate where
  | unreached
  | written
  | raised

/-- A complete run of the worker among other sessions, by the fate of that commit. -/
inductive WorkedOff (mayFail : Site → Bool) (ex : Execution) (runId jobId : ℕ) (w : World) :
    CommitFate → World → Prop
  | vanished {w₁ : World}
      (hreach : (reachOutcome ex runId jobId).EndsAmid (Leaves runId jobId) mayFail w (.ok none) w₁) :
      WorkedOff mayFail ex runId jobId w .unreached w₁
  | crashed {w₁ w₂ : World} {e : PyError} {x : Except PyError Unit}
      (hreach : (reachOutcome ex runId jobId).EndsAmid (Leaves runId jobId) mayFail w (.error e) w₁)
      (hend : (finalizeCrashedRun runId jobId ex.finishedAt).EndsAmid (Leaves runId jobId) mayFail w₁ x w₂) :
      WorkedOff mayFail ex runId jobId w .unreached w₂
  | raised {w₁ w₂ : World} {run : Tracked ReviewRun} {job : Tracked ScheduledJob} {x : Except PyError Unit}
      (hreach : (reachOutcome ex runId jobId).EndsAmid (Leaves runId jobId) mayFail w (.ok (some (run, job))) w₁)
      (hmay : mayFail .execution = true)
      (hend : (finalizeCrashedRun runId jobId ex.finishedAt).EndsAmid (Leaves runId jobId) mayFail w₁ x w₂) :
      WorkedOff mayFail ex runId jobId w .raised w₂
  | written {w₁ w₂ w₃ : World} {run : Tracked ReviewRun} {job : Tracked ScheduledJob}
      (hreach : (reachOutcome ex runId jobId).EndsAmid (Leaves runId jobId) mayFail w (.ok (some (run, job))) w₁)
      (hrely : Leaves runId jobId w₁ w₂) (hready : w₂.unlocked [job] = true)
      (hcompact : (compactPositions .execution [job.committed]).EndsAmid (Leaves runId jobId) mayFail
        (w₂.commitRows [job] [run]) (.ok ()) w₃) :
      WorkedOff mayFail ex runId jobId w .written w₃
  | uncompacted {w₁ w₂ w₃ w₄ : World} {run : Tracked ReviewRun} {job : Tracked ScheduledJob} {e : PyError}
      {x : Except PyError Unit}
      (hreach : (reachOutcome ex runId jobId).EndsAmid (Leaves runId jobId) mayFail w (.ok (some (run, job))) w₁)
      (hrely : Leaves runId jobId w₁ w₂) (hready : w₂.unlocked [job] = true)
      (hcompact : (compactPositions .execution [job.committed]).EndsAmid (Leaves runId jobId) mayFail
        (w₂.commitRows [job] [run]) (.error e) w₃)
      (hend : (finalizeCrashedRun runId jobId ex.finishedAt).EndsAmid (Leaves runId jobId) mayFail w₃ x w₄) :
      WorkedOff mayFail ex runId jobId w .written w₄

/-- Every run of the worker is one of these, and the release of the permit. -/
theorem worker_fate {mayFail : Site → Bool} {ex : Execution} {runId jobId : ℕ} {w w' : World}
    {x : Except PyError Unit} (h : (worker ex runId jobId).EndsAmid (Leaves runId jobId) mayFail w x w') :
    ∃ fate w₁, WorkedOff mayFail ex runId jobId w fate w₁ ∧ Leaves runId jobId w₁ w' := by
  have hrelease : ∀ {w₁ : World} {y : Except PyError Unit},
      (releasePermit jobId).EndsAmid (Leaves runId jobId) mayFail w₁ y w' → Leaves runId jobId w₁ w' := by
    intro w₁ y hr
    cases hr with
    | step hrely _ hnext =>
      obtain ⟨-, rfl⟩ := Program.EndsAmid.ret_iff.mp hnext
      exact hrely
    | fail _ hfail =>
      obtain ⟨-, rfl⟩ := Program.EndsAmid.ret_iff.mp hfail
      rfl
  rw [worker_eq, Program.EndsAmid.bind_iff] at h
  rcases h with ⟨⟨⟩, w₁, hcaught, hr⟩ | ⟨e, rfl, hcaught⟩
  · refine (?_ : ∃ fate, WorkedOff mayFail ex runId jobId w fate w₁).imp fun fate hfate => ⟨w₁, hfate, hrelease hr⟩
    rw [Program.EndsAmid.tryCatch_iff] at hcaught
    rcases hcaught with ⟨⟨⟩, -, hbody⟩ | ⟨e, w₂, hbody, hend⟩
    · rcases Program.EndsAmid.bind_iff.mp hbody with ⟨rows, w₂, hreach, hsettle⟩ | ⟨e, he, -⟩
      · cases rows with
        | none =>
          obtain ⟨-, rfl⟩ := Program.EndsAmid.ret_iff.mp hsettle
          exact ⟨.unreached, .vanished hreach⟩
        | some rows =>
          rcases Program.EndsAmid.bind_iff.mp hsettle with ⟨⟨⟩, w₃, hcommit, hcompact⟩ | ⟨e, he, -⟩
          · rcases Program.EndsAmid.atomic_iff.mp hcommit with ⟨w₄, hrely, hready, -, rfl⟩ | ⟨-, he, -⟩
            · exact ⟨.written, .written hreach hrely hready hcompact⟩
            · cases he
          · cases he
      · cases he
    · rcases Program.EndsAmid.bind_iff.mp hbody with ⟨rows, w₃, hreach, hsettle⟩ | ⟨e', he, hreach⟩
      · cases rows with
        | none =>
          obtain ⟨he, -⟩ := Program.EndsAmid.ret_iff.mp hsettle
          cases he
        | some rows =>
          rcases Program.EndsAmid.bind_iff.mp hsettle with ⟨⟨⟩, w₄, hcommit, hcompact⟩ | ⟨e', he, hcommit⟩
          · rcases Program.EndsAmid.atomic_iff.mp hcommit with ⟨w₅, hrely, hready, -, rfl⟩ | ⟨-, he, -⟩
            · exact ⟨.written, .uncompacted hreach hrely hready hcompact hend⟩
            · cases he
          · rcases Program.EndsAmid.atomic_iff.mp hcommit with ⟨w₅, -, -, he', -⟩ | ⟨hmay, -, rfl⟩
            · cases he'
            · exact ⟨.raised, .raised hreach hmay hend⟩
      · exact ⟨.unreached, .crashed hreach hend⟩
  · rw [Program.EndsAmid.tryCatch_iff] at hcaught
    rcases hcaught with ⟨a, he, -⟩ | ⟨e', w₂, -, hend⟩
    · cases he
    · unfold finalizeCrashedRun at hend
      rw [Program.EndsAmid.tryCatch_iff] at hend
      rcases hend with ⟨a, he, -⟩ | ⟨e'', w₃, -, hret⟩
      · cases he
      · obtain ⟨he, -⟩ := Program.EndsAmid.ret_iff.mp hret
        cases he

section View
variable {runId jobId : ℕ} {w : World} {jobs : List (Tracked ScheduledJob)} {u : Tracked ReviewRun}

theorem view_run_commitJobs : (viewOf runId jobId (w.commitRows jobs [])).run = (viewOf runId jobId w).run := by
  unfold viewOf
  dsimp only
  rw [run?_commitRows (by simp), Option.map_map]
  rfl

/-- A commit that changes neither column. -/
theorem view_run_commit (hid : u.mem.id = u.base.id) (hcolumns : runColumns u.mem = runColumns u.base) :
    (viewOf runId jobId (w.commitRows jobs [u])).run = (viewOf runId jobId w).run := by
  obtain ⟨hstatus, hnote⟩ := Prod.mk.inj hcolumns
  have hoverlay : ∀ row, runColumns (overlay [u] row) = runColumns row := by
    intro row
    unfold overlay
    split
    · rename_i t ht
      obtain rfl := List.mem_singleton.mp (held_mem ht).1
      unfold runColumns
      show (written t.base.status t.mem.status row.status, written t.base.gitlabNoteId t.mem.gitlabNoteId row.gitlabNoteId) = _
      rw [hstatus, hnote, written_self, written_self]
    · rfl
  unfold viewOf
  dsimp only
  rw [run?_commitRows (by simpa using hid), Option.map_map]
  congr 1
  funext row
  exact hoverlay row

/-- A commit of this run, whatever the row now holds. -/
theorem view_run_merged {stored : ReviewRun} (hmem : u.mem.id = runId) (hbase : u.base.id = runId)
    (hstored : w.run? runId = some stored) :
    (viewOf runId jobId (w.commitRows jobs [u])).run =
      some (written u.base.status u.mem.status stored.status,
        written u.base.gitlabNoteId u.mem.gitlabNoteId stored.gitlabNoteId) := by
  have hheld : held [u] (Columns.key stored) = some u := by
    apply held_single
    rw [key_run, key_run, hmem, run?_id hstored]
  unfold viewOf
  dsimp only
  rw [run?_commitRows (by simp [hmem, hbase]), hstored, Option.map_some, Option.map_some, overlay_held stored hheld]
  rfl

/-- A commit of this run over the columns its session knows. -/
theorem view_run_commitOwn (hmem : u.mem.id = runId) (hbase : u.base.id = runId)
    (hrow : (viewOf runId jobId w).run = some (runColumns u.base)) :
    (viewOf runId jobId (w.commitRows jobs [u])).run = some (runColumns u.mem) := by
  obtain ⟨stored, hstored, hcolumns⟩ := Option.map_eq_some_iff.mp hrow
  obtain ⟨hstatus, hnote⟩ := Prod.mk.inj hcolumns
  rw [view_run_merged hmem hbase hstored, hstatus, hnote, written_base, written_base]
  rfl

/-- The commit of the cleanup, over whatever the row holds by then. -/
theorem view_run_crashed {row : ReviewRun} {status : RunStatus} {note : Option ℤ} (now : Timestamp)
    (hid : row.id = runId) (hrow : (viewOf runId jobId w).run = some (status, note)) :
    (viewOf runId jobId (w.commitRows jobs [crashedRun now (Tracked.load row)])).run =
      some (if row.status = .running then .error else status, note) := by
  obtain ⟨stored, hstored, hcolumns⟩ := Option.map_eq_some_iff.mp hrow
  obtain ⟨hstatus, hnote⟩ := Prod.mk.inj hcolumns
  by_cases hrunning : row.status = .running
  · have hcrashed : crashedRun now (Tracked.load row) = (Tracked.load row).set fun r => { r with
        status := .error
        errorMessage := some "worker thread crashed; see app log".toList
        finishedAt := some now } := if_pos hrunning
    rw [hcrashed, view_run_merged (by exact hid) (by exact hid) hstored, if_pos hrunning]
    show some (written row.status .error stored.status, written row.gitlabNoteId row.gitlabNoteId stored.gitlabNoteId) = _
    rw [hrunning, written_of_ne (by decide), written_self, hnote]
  · have hcrashed : crashedRun now (Tracked.load row) = Tracked.load row := if_neg hrunning
    rw [hcrashed, view_run_merged (by exact hid) (by exact hid) hstored, if_neg hrunning]
    show some (written row.status row.status stored.status, written row.gitlabNoteId row.gitlabNoteId stored.gitlabNoteId) = _
    rw [written_self, written_self, hstatus, hnote]

/-- The two columns of the row and the calls of `post_note` so far. -/
def Shows (runId jobId : ℕ) (c : RunStatus × Option ℤ) (notes : List NoteCall) (w : World) : Prop :=
  (viewOf runId jobId w).run = some c ∧ (viewOf runId jobId w).notes = notes

theorem Shows.leaves {c : RunStatus × Option ℤ} {notes : List NoteCall} {w' : World} (h : Shows runId jobId c notes w)
    (hrely : Leaves runId jobId w w') : Shows runId jobId c notes w' := by
  unfold Leaves at hrely
  unfold Shows
  rw [hrely]
  exact h

theorem preserves_flushLog {c : RunStatus × Option ℤ} {notes : List NoteCall} (lines : List Text) (now last : ℤ) :
    (flushLogInflight runId lines now last).Preserves (Shows runId jobId c notes) fun _ => True := by
  unfold flushLogInflight
  split
  · trivial
  · apply Program.Preserves.tryCatch
    · refine ⟨?_, trivial⟩
      intro w h _
      refine ⟨h, ?_⟩
      cases hrow : w.run? runId with
      | none =>
        dsimp only [Program.ret_bind]
        rw [hrow]
        trivial
      | some row =>
        dsimp only [Program.ret_bind]
        rw [hrow]
        refine ⟨?_, trivial⟩
        intro w' h' _
        exact ⟨⟨(view_run_commit rfl rfl).trans h'.1, h'.2⟩, trivial⟩
    · intro _
      trivial

theorem preserves_streaming {c : RunStatus × Option ℤ} {notes : List NoteCall} (secrets : List Text)
    (chunks : List LogChunk) (lines : List Text) (last : ℤ) :
    (streamLog runId secrets chunks lines last).Preserves (Shows runId jobId c notes) fun _ => True := by
  induction chunks generalizing lines last with
  | nil => trivial
  | cons chunk chunks ih =>
    apply Program.Preserves.bind (preserves_flushLog _ _ _)
    intro last' _
    exact ih _ last'

/-- A crashed worker's cleanup turns running into error and nothing else. -/
theorem preserves_finalize {P : RunStatus → Prop} (hP : P .running → P .error) {note : Option ℤ}
    {notes : List NoteCall} (now : Timestamp) :
    (finalizeCrashedRun runId jobId now).Preserves
      (fun w => ∃ status, P status ∧ Shows runId jobId (status, note) notes w) fun _ => True := by
  unfold finalizeCrashedRun
  apply Program.Preserves.tryCatch
  · refine ⟨?_, trivial⟩
    rintro w ⟨status, hstatus, h⟩ _
    refine ⟨⟨status, hstatus, h⟩, ?_⟩
    obtain ⟨row, hrow, hcolumns⟩ := Option.map_eq_some_iff.mp h.1
    obtain ⟨rfl, -⟩ := Prod.mk.inj hcolumns
    dsimp only [Program.ret_bind]
    rw [hrow]
    refine ⟨?_, trivial⟩
    rintro w₁ h₁ _
    refine ⟨h₁, ?_⟩
    dsimp only [Program.ret_bind]
    refine ⟨?_, trivial⟩
    rintro w₂ ⟨status₂, hstatus₂, h₂⟩ _
    have hcompact : ∀ session, (compactPositions .cleanup session).Preserves
        (fun w => ∃ status, P status ∧ Shows runId jobId (status, note) notes w) fun _ => True := by
      intro session
      refine ⟨?_, trivial⟩
      intro w₃ h₃ _
      refine ⟨h₃, ?_, trivial⟩
      rintro w₄ ⟨status₄, hstatus₄, h₄⟩ _
      exact ⟨⟨status₄, hstatus₄, view_run_commitJobs.trans h₄.1, h₄.2⟩, trivial⟩
    refine ⟨?_, hcompact _⟩
    refine ⟨if row.status = .running then .error else status₂, ?_, view_run_crashed now (run?_id hrow) h₂.1, h₂.2⟩
    split
    · rename_i hrunning
      rw [hrunning] at hstatus
      exact hP hstatus
    · exact hstatus₂
  · intro _
    trivial

/-- Nothing but the outcome posts a note. -/
theorem preserves_finalize_notes {notes : List NoteCall} (now : Timestamp) :
    (finalizeCrashedRun runId jobId now).Preserves (fun w => (viewOf runId jobId w).notes = notes) fun _ => True := by
  unfold finalizeCrashedRun
  apply Program.Preserves.tryCatch
  · refine ⟨?_, trivial⟩
    intro w h _
    refine ⟨h, ⟨?_, trivial⟩⟩
    intro w₁ h₁ _
    refine ⟨h₁, ⟨?_, trivial⟩⟩
    intro w₂ h₂ _
    refine ⟨h₂, ⟨?_, trivial⟩⟩
    intro w₃ h₃ _
    refine ⟨h₃, ⟨?_, trivial⟩⟩
    intro w₄ h₄ _
    exact ⟨h₄, trivial⟩
  · intro _
    trivial

theorem preserves_compact {c : RunStatus × Option ℤ} {notes : List NoteCall} (site : Site)
    (session : List (Tracked ScheduledJob)) :
    (compactPositions site session).Preserves (Shows runId jobId c notes) fun _ => True := by
  refine ⟨?_, trivial⟩
  intro w h _
  refine ⟨h, ?_, trivial⟩
  intro w' h' _
  exact ⟨⟨view_run_commitJobs.trans h'.1, h'.2⟩, trivial⟩

end View

/-- The outcome and the flag allow a note: the flag is the job's, else the one of the settings. -/
def MayPost (ex : Execution) (runId jobId : ℕ) (w : World) : Prop :=
  ex.outcome.exitCode = 0 ∧ ex.outcome.timedOut = false ∧
    ∃ flag, (viewOf runId jobId w).flag = some flag ∧ flag.getD ex.postResultsToGitlab = true

/-- The calls after the outcome has been reached, beside the row as its session holds it. -/
def Posted (allowed : Prop) (jobId : ℕ) (body : Text) (run : ReviewRun) (notes notes' : List NoteCall) : Prop :=
  notes' = notes ∨ ∃ noteId, notes' = ⟨jobId, run.id, body, noteId⟩ :: notes ∧ allowed ∧ run.status = .success ∧
    ∀ n, noteId = some n → run.gitlabNoteId = some n

/-- What is stored and what its session holds when the commit of the outcome comes. -/
structure Prepared (allowed : Prop) (runId jobId : ℕ) (body : Text) (base : ReviewRun) (notes : List NoteCall) (w : World)
    (run : Tracked ReviewRun) : Prop where
  sameBase : run.base = base
  memId : run.mem.id = runId
  stored : (viewOf runId jobId w).run = some (runColumns base)
  posted : Posted allowed jobId body run.mem notes (viewOf runId jobId w).notes

section Outcome
variable {mayFail : Site → Bool} {ex : Execution} {runId jobId : ℕ} {w w' : World}

theorem record_ends {act : World → World} {x : Except PyError Unit} (hout : mayFail .outside = false)
    (h : (record act).EndsAmid (Leaves runId jobId) mayFail w x w') :
    ∃ w₁, Leaves runId jobId w w₁ ∧ x = .ok () ∧ w' = act w₁ := by
  cases h with
  | step hrely _ hnext =>
    obtain ⟨rfl, rfl⟩ := Program.EndsAmid.ret_iff.mp hnext
    exact ⟨_, hrely, rfl, rfl⟩
  | fail hmay _ =>
    rw [hout] at hmay
    cases hmay

/-- `_post_to_gitlab` calls `post_note` at most once and keeps the id that came back. -/
theorem postToGitlab_ends {outcome : RunOutcome} {mrIid : Option ℤ} {run : Tracked ReviewRun} {x : Except PyError (Tracked ReviewRun)}
    {c : RunStatus × Option ℤ} {notes : List NoteCall} (hout : mayFail .outside = false) (hid : run.mem.id = runId)
    (hrow : Shows runId jobId c notes w)
    (h : (postToGitlab ex outcome mrIid jobId run).EndsAmid (Leaves runId jobId) mayFail w x w') :
    ∃ run' notes', x = .ok run' ∧ run'.base = run.base ∧ run'.mem.id = runId ∧ run'.mem.status = run.mem.status ∧
      Shows runId jobId c notes' w' ∧ (notes' = notes ∨
        ∃ noteId, notes' = ⟨jobId, runId, ex.render outcome run.mem.errorMessage, noteId⟩ :: notes ∧
          ∀ n, noteId = some n → run'.mem.gitlabNoteId = some n) := by
  have hrecorded : ∀ {w₁ : World} (body : Text) (noteId : Option ℤ), Shows runId jobId c notes w₁ →
      Shows runId jobId c (⟨jobId, runId, body, noteId⟩ :: notes) (recordNote ⟨jobId, run.mem.id, body, noteId⟩ w₁) := by
    intro w₁ body noteId h₁
    refine ⟨h₁.1, ?_⟩
    have hfilter : (viewOf runId jobId (recordNote ⟨jobId, run.mem.id, body, noteId⟩ w₁)).notes =
        ⟨jobId, run.mem.id, body, noteId⟩ :: (viewOf runId jobId w₁).notes := by
      unfold viewOf recordNote
      dsimp only
      rw [List.filter_cons_of_pos (by simpa using hid)]
    rw [hfilter, h₁.2, hid]
  unfold postToGitlab at h
  cases mrIid with
  | none =>
    obtain ⟨rfl, rfl⟩ := Program.EndsAmid.ret_iff.mp h
    exact ⟨_, notes, rfl, rfl, hid, rfl, hrow, .inl rfl⟩
  | some iid =>
    cases hnote : ex.note with
    | error message =>
      simp only [hnote] at h
      rcases Program.EndsAmid.bind_iff.mp h with ⟨⟨⟩, w₁, hrec, hret⟩ | ⟨e, rfl, hrec⟩
      · obtain ⟨rfl, rfl⟩ := Program.EndsAmid.ret_iff.mp hret
        obtain ⟨w₂, hrely, -, rfl⟩ := record_ends hout hrec
        exact ⟨_, _, rfl, rfl, hid, rfl, hrecorded _ none (hrow.leaves hrely), .inr ⟨none, rfl, by simp⟩⟩
      · obtain ⟨w₂, -, hx, -⟩ := record_ends hout hrec
        cases hx
    | ok noteId =>
      simp only [hnote] at h
      rcases Program.EndsAmid.bind_iff.mp h with ⟨⟨⟩, w₁, hrec, hret⟩ | ⟨e, rfl, hrec⟩
      · obtain ⟨rfl, rfl⟩ := Program.EndsAmid.ret_iff.mp hret
        obtain ⟨w₂, hrely, -, rfl⟩ := record_ends hout hrec
        refine ⟨_, _, rfl, rfl, hid, rfl, hrecorded _ (some noteId) (hrow.leaves hrely), .inr ⟨some noteId, rfl, ?_⟩⟩
        intro n hn
        exact hn
      · obtain ⟨w₂, -, hx, -⟩ := record_ends hout hrec
        cases hx

/-- The outcome on the rows: nothing of it is stored yet, and the note is out if there is one. -/
theorem outcomeRows_ends {mrIid : Option ℤ} (run : Tracked ReviewRun) (job : Tracked ScheduledJob)
    {outcome : RunOutcome} {x : Except PyError (Tracked ReviewRun × Tracked ScheduledJob)}
    {notes : List NoteCall} (hout : mayFail .outside = false) (hid : run.mem.id = runId)
    (hjob : job.mem.id = jobId) (hrow : Shows runId jobId (runColumns run.base) notes w)
    (h : (outcomeRows ex mrIid run job outcome).EndsAmid (Leaves runId jobId) mayFail w x w') :
    ∃ run' job', x = .ok (run', job') ∧ Prepared (outcome.exitCode = 0 ∧ outcome.timedOut = false ∧
      job.mem.postToGitlab.getD ex.postResultsToGitlab = true) runId jobId (ex.render outcome outcome.error) run.base notes w' run' := by
  have hflag : (setStatus (finalJobStatus (outcomeStatus outcome)) ex.finishedAt job).mem.postToGitlab =
      job.mem.postToGitlab := rfl
  have hjobId : (setStatus (finalJobStatus (outcomeStatus outcome)) ex.finishedAt job).mem.id = jobId := hjob
  have hrunId : (withOutcome outcome ex.finishedAt run).mem.id = runId := hid
  have herror : (withOutcome outcome ex.finishedAt run).mem.errorMessage = outcome.error := rfl
  unfold outcomeRows at h
  simp only [hflag, hjobId] at h
  split at h
  · rename_i hposts
    obtain ⟨hsuccess, hpost⟩ : outcomeStatus outcome = .success ∧
        job.mem.postToGitlab.getD ex.postResultsToGitlab = true := by simpa using hposts
    obtain ⟨htimed, hexit⟩ := outcomeStatus_success hsuccess
    rcases Program.EndsAmid.bind_iff.mp h with ⟨run', w₁, hpg, hret⟩ | ⟨e, rfl, hpg⟩
    · obtain ⟨rfl, rfl⟩ := Program.EndsAmid.ret_iff.mp hret
      obtain ⟨run'', notes', hx, hbase, hid', hstatus, hshows, hnotes⟩ := postToGitlab_ends hout hrunId hrow hpg
      cases hx
      refine ⟨_, _, rfl, hbase, hid', hshows.1, ?_⟩
      rw [hshows.2]
      rcases hnotes with hsame | ⟨noteId, hnew, hstored⟩
      · exact .inl hsame
      · exact .inr ⟨noteId, by rw [hid', hnew, herror], ⟨hexit, htimed, hpost⟩, hstatus.trans hsuccess, hstored⟩
    · obtain ⟨run'', notes', hx, -⟩ := postToGitlab_ends hout hrunId hrow hpg
      cases hx
  · rcases Program.EndsAmid.bind_iff.mp h with ⟨run', w₁, hpg, hret⟩ | ⟨e, rfl, hpg⟩
    · obtain ⟨rfl, rfl⟩ := Program.EndsAmid.ret_iff.mp hret
      obtain ⟨hx, rfl⟩ := Program.EndsAmid.ret_iff.mp hpg
      cases hx
      exact ⟨_, _, rfl, rfl, hid, hrow.1, .inl hrow.2⟩
    · obtain ⟨hx, -⟩ := Program.EndsAmid.ret_iff.mp hpg
      cases hx

theorem reviewedRows_ends {run : Tracked ReviewRun} {job : Tracked ScheduledJob}
    {x : Except PyError (Tracked ReviewRun × Tracked ScheduledJob)}
    {notes : List NoteCall} (hout : mayFail .outside = false) (hid : run.mem.id = runId)
    (hjob : job.mem.id = jobId) (hrow : Shows runId jobId (runColumns run.base) notes w)
    (h : (reviewedRows ex run job).EndsAmid (Leaves runId jobId) mayFail w x w') :
    (∃ e, x = .error e ∧ (viewOf runId jobId w').notes = notes) ∨
      ∃ run' job', x = .ok (run', job') ∧ Prepared (ex.outcome.exitCode = 0 ∧ ex.outcome.timedOut = false ∧
        job.mem.postToGitlab.getD ex.postResultsToGitlab = true) runId jobId ex.noteBody run.base notes w' run' := by
  unfold reviewedRows at h
  rcases Program.EndsAmid.bind_iff.mp h with ⟨mrIid, w₁, hselect, hrest⟩ | ⟨e, rfl, hselect⟩
  · rcases Program.EndsAmid.atomic_iff.mp hselect with ⟨w₂, hrely, -, hx, rfl⟩ | ⟨-, hx, -⟩
    · cases hx
      have hrow₁ : Shows runId jobId (runColumns run.base) notes w₁ := hrow.leaves hrely
      split at hrest
      · rename_i hfound
        have houtcome : ex.outcome = scrubOutcome (secretEnvValues ex.containerEnv) (receivedOutcome ex.answer) :=
          if_pos hfound
        rcases Program.EndsAmid.bind_iff.mp hrest with ⟨⟨⟩, w₃, hrec, hrest⟩ | ⟨e, rfl, hrec⟩
        · obtain ⟨w₄, hrely₄, -, rfl⟩ := record_ends hout hrec
          have hrow₄ : Shows runId jobId (runColumns run.base) notes (recordReview job.mem.id w₄) :=
            hrow₁.leaves hrely₄
          rw [hid] at hrest
          have hstreamed : ∀ {y : Except PyError (List Text)} {w₅ : World},
              (streamLog runId (secretEnvValues ex.containerEnv) ex.chunks [] 0).EndsAmid (Leaves runId jobId) mayFail
                (recordReview job.mem.id w₄) y w₅ → Shows runId jobId (runColumns run.base) notes w₅ := by
            intro y w₅ hstream
            exact (hstream.preserves (preserves_streaming _ _ _ _) (fun _ _ hs hr => hs.leaves hr) hrow₄).1
          rcases Program.EndsAmid.bind_iff.mp hrest with ⟨lines, w₅, hstream, hrows⟩ | ⟨e, rfl, hstream⟩
          · rw [← houtcome] at hrows
            exact .inr (outcomeRows_ends (withLog lines run) job hout hid hjob (hstreamed hstream) hrows)
          · exact .inl ⟨e, rfl, (hstreamed hstream).2⟩
        · obtain ⟨w₄, -, hx, -⟩ := record_ends hout hrec
          cases hx
      · rename_i hmissing
        have houtcome : ex.outcome = missingOutcome := if_neg hmissing
        rw [← houtcome] at hrest
        exact .inr (outcomeRows_ends run job hout hid hjob hrow₁ hrest)
    · cases hx
  · rcases Program.EndsAmid.atomic_iff.mp hselect with ⟨w₂, hrely, -, hx, -⟩ | ⟨-, hx, rfl⟩
    · cases hx
    · exact .inl ⟨e, rfl, hrow.2⟩

theorem begunRows_ends {run : ReviewRun} {job : ScheduledJob}
    {x : Except PyError (Tracked ReviewRun × Tracked ScheduledJob)} {notes : List NoteCall}
    (hout : mayFail .outside = false) (hid : run.id = runId) (hjob : job.id = jobId)
    (hrow : Shows runId jobId (runColumns run) notes w)
    (h : (begunRows ex (Tracked.load run) (Tracked.load job)).EndsAmid (Leaves runId jobId) mayFail w x w') :
    (∃ e, x = .error e ∧ (viewOf runId jobId w').notes = notes) ∨
      ∃ run' job', x = .ok (run', job') ∧ Prepared (ex.outcome.exitCode = 0 ∧ ex.outcome.timedOut = false ∧
        job.postToGitlab.getD ex.postResultsToGitlab = true) runId jobId ex.noteBody (started ex (Tracked.load run)).mem
          notes w' run' := by
  unfold begunRows at h
  rcases Program.EndsAmid.bind_iff.mp h with ⟨⟨⟩, w₁, hcommit, hrest⟩ | ⟨e, rfl, hcommit⟩
  · rcases Program.EndsAmid.atomic_iff.mp hcommit with ⟨w₂, hrely, -, -, rfl⟩ | ⟨-, hx, -⟩
    · have hrow₂ := hrow.leaves hrely
      have hrunning : (started ex (Tracked.load run)).committed.mem.id = runId := hid
      have hbegun : Shows runId jobId (runColumns (started ex (Tracked.load run)).committed.base) notes
          (w₂.commitRows [setStatus .running ex.startedAt (Tracked.load job)] [started ex (Tracked.load run)]) :=
        ⟨view_run_commitOwn hrunning hid hrow₂.1, hrow₂.2⟩
      exact reviewedRows_ends hout hrunning hjob hbegun hrest
    · cases hx
  · rcases Program.EndsAmid.atomic_iff.mp hcommit with ⟨w₂, -, -, hx, -⟩ | ⟨-, hx, rfl⟩
    · cases hx
    · exact .inl ⟨e, rfl, hrow.2⟩

/-- Up to the commit of the outcome the row says running, and no note is out unless the outcome was reached. -/
theorem reachOutcome_ends {x : Except PyError (Option (Tracked ReviewRun × Tracked ScheduledJob))}
    (hout : mayFail .outside = false)
    (h : (reachOutcome ex runId jobId).EndsAmid (Leaves runId jobId) mayFail w x w') :
    (viewOf runId jobId w').notes = (viewOf runId jobId w).notes ∧ (x = .ok none ∨ ∃ e, x = .error e) ∨
      ∃ base run job, x = .ok (some (run, job)) ∧ base.id = runId ∧ base.status = .running ∧
        Prepared (MayPost ex runId jobId w) runId jobId ex.noteBody base (viewOf runId jobId w).notes w' run := by
  unfold reachOutcome at h
  rcases Program.EndsAmid.bind_iff.mp h with ⟨run, w₁, hopen, h⟩ | ⟨e, rfl, hopen⟩
  · rcases Program.EndsAmid.atomic_iff.mp hopen with ⟨wa, hrely, -, hx, rfl⟩ | ⟨-, hx, -⟩
    · cases hx
      have hview₁ : viewOf runId jobId { wa with opened := runId :: wa.opened } = viewOf runId jobId w := hrely
      rcases Program.EndsAmid.bind_iff.mp h with ⟨job, w₂, hget, h⟩ | ⟨e, rfl, hget⟩
      · rcases Program.EndsAmid.atomic_iff.mp hget with ⟨wb, hrely₂, -, hx, rfl⟩ | ⟨-, hx, -⟩
        · cases hx
          have hview₂ : viewOf runId jobId w₂ = viewOf runId jobId w := Eq.trans hrely₂ hview₁
          cases hrun : wa.run? runId with
          | none =>
            simp only [hrun] at h
            obtain ⟨rfl, rfl⟩ := Program.EndsAmid.ret_iff.mp h
            exact .inl ⟨congrArg View.notes hview₂, .inl rfl⟩
          | some run =>
            cases hjob : w₂.job? jobId with
            | none =>
              simp only [hrun, hjob] at h
              obtain ⟨rfl, rfl⟩ := Program.EndsAmid.ret_iff.mp h
              exact .inl ⟨congrArg View.notes hview₂, .inl rfl⟩
            | some job =>
              simp only [hrun, hjob, Option.map_some] at h
              have hrow : Shows runId jobId (runColumns run) (viewOf runId jobId w).notes w₂ := by
                refine ⟨?_, congrArg View.notes hview₂⟩
                rw [hview₂, ← hview₁]
                exact congrArg (Option.map runColumns) hrun
              have hflag : (viewOf runId jobId w).flag = some job.postToGitlab := by
                rw [← hview₂]
                exact congrArg (Option.map (·.postToGitlab)) hjob
              rcases Program.EndsAmid.bind_iff.mp h with ⟨⟨run', job'⟩, w₃, hrows, hret⟩ | ⟨e, rfl, hrows⟩
              · obtain ⟨rfl, rfl⟩ := Program.EndsAmid.ret_iff.mp hret
                rcases begunRows_ends hout (run?_id hrun) (job?_id hjob) hrow hrows with
                  ⟨e, hx, -⟩ | ⟨run'', job'', hx, hprep⟩
                · cases hx
                · cases hx
                  have hrunId : run.id = runId := run?_id hrun
                  have hbase : (started ex (Tracked.load run)).mem.id = runId := hrunId
                  refine .inr ⟨_, run', job', rfl, hbase, rfl, hprep.sameBase, hprep.memId, hprep.stored, ?_⟩
                  refine hprep.posted.imp id ?_
                  rintro ⟨noteId, hnew, ⟨hexit, htimed, hpost⟩, hrest⟩
                  exact ⟨noteId, hnew, ⟨hexit, htimed, _, hflag, hpost⟩, hrest⟩
              · rcases begunRows_ends hout (run?_id hrun) (job?_id hjob) hrow hrows with
                  ⟨e, -, hnotes⟩ | ⟨run'', job'', hx, -⟩
                · exact .inl ⟨hnotes, .inr ⟨_, rfl⟩⟩
                · cases hx
        · cases hx
      · rcases Program.EndsAmid.atomic_iff.mp hget with ⟨wb, -, -, hx, -⟩ | ⟨-, hx, rfl⟩
        · cases hx
        · exact .inl ⟨congrArg View.notes hview₁, .inr ⟨e, rfl⟩⟩
    · cases hx
  · rcases Program.EndsAmid.atomic_iff.mp hopen with ⟨wa, -, -, hx, -⟩ | ⟨-, hx, rfl⟩
    · cases hx
    · exact .inl ⟨rfl, .inr ⟨e, rfl⟩⟩

/-- At most one call of `post_note` for the run, with the review as it is rendered, and only where it is allowed. -/
def PostedAtMostOnce (ex : Execution) (runId jobId : ℕ) (w w' : World) : Prop :=
  (viewOf runId jobId w').notes = (viewOf runId jobId w).notes ∨
    ∃ noteId, (viewOf runId jobId w').notes = ⟨jobId, runId, ex.noteBody, noteId⟩ :: (viewOf runId jobId w).notes ∧
      MayPost ex runId jobId w

/-- Whenever `post_note` returned an id, the row says success and has it. -/
def NoteStored (runId jobId : ℕ) (w w' : World) : Prop :=
  ∀ body n, (viewOf runId jobId w').notes = ⟨jobId, runId, body, some n⟩ :: (viewOf runId jobId w).notes →
    (viewOf runId jobId w').run = some (.success, some n)

/-- `post_note` returned an id. -/
def NoteReturned (runId jobId : ℕ) (w w' : World) : Prop :=
  ∃ body n, (viewOf runId jobId w').notes = ⟨jobId, runId, body, some n⟩ :: (viewOf runId jobId w).notes

theorem finalize_notes {now : Timestamp} {x : Except PyError Unit}
    (h : (finalizeCrashedRun runId jobId now).EndsAmid (Leaves runId jobId) mayFail w x w') :
    (viewOf runId jobId w').notes = (viewOf runId jobId w).notes :=
  (h.preserves (preserves_finalize_notes now) (fun _ _ hs hrely => (congrArg View.notes hrely).trans hs) rfl).1

/-- The cleanup turns no status into success and success into no other. -/
theorem finalize_status {P : RunStatus → Prop} (hP : P .running → P .error) {now : Timestamp}
    {x : Except PyError Unit} {c : RunStatus × Option ℤ} (hc : P c.1) (hrow : (viewOf runId jobId w).run = some c)
    (h : (finalizeCrashedRun runId jobId now).EndsAmid (Leaves runId jobId) mayFail w x w') :
    ∃ status, P status ∧ (viewOf runId jobId w').run = some (status, c.2) := by
  have hstart : ∃ status, P status ∧ Shows runId jobId (status, c.2) (viewOf runId jobId w).notes w :=
    ⟨c.1, hc, hrow, rfl⟩
  obtain ⟨⟨status, hstatus, hshows⟩, -⟩ := h.preserves (preserves_finalize hP now)
    (fun _ _ ⟨status, hstatus, hs⟩ hr => ⟨status, hstatus, hs.leaves hr⟩) hstart
  exact ⟨status, hstatus, hshows.1⟩

/-- The commit of the outcome did not come about: no note is out. -/
theorem WorkedOff.unreached (hout : mayFail .outside = false)
    (h : WorkedOff mayFail ex runId jobId w .unreached w') :
    (viewOf runId jobId w').notes = (viewOf runId jobId w).notes := by
  cases h with
  | vanished hreach =>
    rcases reachOutcome_ends hout hreach with ⟨hnotes, -⟩ | ⟨base, run, job, hx, -⟩
    · exact hnotes
    · cases hx
  | crashed hreach hend =>
    rcases reachOutcome_ends hout hreach with ⟨hnotes, -⟩ | ⟨base, run, job, hx, -⟩
    · exact (finalize_notes hend).trans hnotes
    · cases hx

/-- It raised: the row still says running, and the cleanup makes that an error if anything. -/
theorem WorkedOff.lost (hout : mayFail .outside = false) (h : WorkedOff mayFail ex runId jobId w .raised w') :
    ∃ run : Tracked ReviewRun, run.mem.id = runId ∧
      Posted (MayPost ex runId jobId w) jobId ex.noteBody run.mem (viewOf runId jobId w).notes (viewOf runId jobId w').notes ∧
      ∃ status note, status ≠ .success ∧ (viewOf runId jobId w').run = some (status, note) := by
  cases h with
  | raised hreach _ hend =>
    rcases reachOutcome_ends hout hreach with ⟨-, hx | ⟨e, hx⟩⟩ | ⟨base, run, job, hx, -, hrunning, hprep⟩
    · cases hx
    · cases hx
    · obtain ⟨status, hstatus, hrow⟩ := finalize_status (P := (· ≠ .success)) (c := runColumns base) (by simp)
        (by simp [runColumns, hrunning]) hprep.stored hend
      refine ⟨run, hprep.memId, ?_, status, _, hstatus, hrow⟩
      rw [finalize_notes hend]
      exact hprep.posted

/-- It went through: the row has what the session wrote, whatever the compaction did. -/
theorem WorkedOff.kept (hout : mayFail .outside = false) (h : WorkedOff mayFail ex runId jobId w .written w') :
    ∃ run : Tracked ReviewRun, run.mem.id = runId ∧
      Posted (MayPost ex runId jobId w) jobId ex.noteBody run.mem (viewOf runId jobId w).notes (viewOf runId jobId w').notes ∧
      (run.mem.status = .success → (viewOf runId jobId w').run = some (runColumns run.mem)) := by
  have hcommitted : ∀ {w₁ w₂ : World} {base : ReviewRun} {run : Tracked ReviewRun} {job : Tracked ScheduledJob},
      base.id = runId → Prepared (MayPost ex runId jobId w) runId jobId ex.noteBody base (viewOf runId jobId w).notes w₁ run →
      Leaves runId jobId w₁ w₂ →
      Shows runId jobId (runColumns run.mem) (viewOf runId jobId w₁).notes (w₂.commitRows [job] [run]) := by
    intro w₁ w₂ base run job hbase hprep hrely
    have hstored : (viewOf runId jobId w₂).run = some (runColumns run.base) := by
      rw [hprep.sameBase, ← hprep.stored]
      exact congrArg View.run hrely
    have hnotes : (viewOf runId jobId w₂).notes = (viewOf runId jobId w₁).notes := congrArg View.notes hrely
    exact ⟨view_run_commitOwn hprep.memId (hprep.sameBase ▸ hbase) hstored, hnotes⟩
  cases h with
  | @written w₁ w₂ _ run job hreach hrely _ hcompact =>
    rcases reachOutcome_ends hout hreach with ⟨-, hx | ⟨e, hx⟩⟩ | ⟨base, run', job', hx, hbase, -, hprep⟩
    · cases hx
    · cases hx
    · cases hx
      obtain ⟨hshows, -⟩ := hcompact.preserves (preserves_compact _ _) (fun _ _ hs hr => hs.leaves hr)
        (hcommitted hbase hprep hrely)
      exact ⟨run, hprep.memId, hshows.2 ▸ hprep.posted, fun _ => hshows.1⟩
  | @uncompacted w₁ w₂ _ _ run job _ _ hreach hrely _ hcompact hend =>
    rcases reachOutcome_ends hout hreach with ⟨-, hx | ⟨e, hx⟩⟩ | ⟨base, run', job', hx, hbase, -, hprep⟩
    · cases hx
    · cases hx
    · cases hx
      obtain ⟨hshows, -⟩ := hcompact.preserves (preserves_compact _ _) (fun _ _ hs hr => hs.leaves hr)
        (hcommitted hbase hprep hrely)
      refine ⟨run, hprep.memId, ?_, ?_⟩
      · rw [finalize_notes hend, hshows.2]
        exact hprep.posted
      · intro hsuccess
        obtain ⟨status, rfl, hrow⟩ := finalize_status (P := (· = .success)) (c := runColumns run.mem) (by simp)
          hsuccess hshows.1 hend
        rw [hrow]
        show _ = some (run.mem.status, _)
        rw [hsuccess]
        rfl

theorem WorkedOff.posted {fate : CommitFate} (hout : mayFail .outside = false)
    (h : WorkedOff mayFail ex runId jobId w fate w') : PostedAtMostOnce ex runId jobId w w' := by
  have hposted : ∀ {run : Tracked ReviewRun}, run.mem.id = runId →
      Posted (MayPost ex runId jobId w) jobId ex.noteBody run.mem (viewOf runId jobId w).notes (viewOf runId jobId w').notes →
      PostedAtMostOnce ex runId jobId w w' := by
    intro run hid hnotes
    refine hnotes.imp id ?_
    rintro ⟨noteId, hnew, hmay, -⟩
    exact ⟨noteId, hid ▸ hnew, hmay⟩
  cases fate with
  | unreached => exact .inl (h.unreached hout)
  | raised =>
    obtain ⟨run, hid, hnotes, -⟩ := h.lost hout
    exact hposted hid hnotes
  | written =>
    obtain ⟨run, hid, hnotes, -⟩ := h.kept hout
    exact hposted hid hnotes

/-- The id that came back is the one the session stored with the success, if its commit went through. -/
theorem WorkedOff.stored_iff {fate : CommitFate} (hout : mayFail .outside = false)
    (h : WorkedOff mayFail ex runId jobId w fate w') :
    NoteStored runId jobId w w' ↔ (NoteReturned runId jobId w w' → fate = .written) := by
  cases fate with
  | unreached =>
    have hnone : ¬ NoteReturned runId jobId w w' := by
      rintro ⟨body, n, hnew⟩
      rw [h.unreached hout] at hnew
      exact List.cons_ne_self _ _ hnew.symm
    constructor
    · intro _ hreturned
      exact absurd hreturned hnone
    · intro _ body n hnew
      exact absurd ⟨body, n, hnew⟩ hnone
  | raised =>
    obtain ⟨-, -, -, status, note, hstatus, hrow⟩ := h.lost hout
    constructor
    · rintro hstored ⟨body, n, hnew⟩
      have hsuccess := hstored body n hnew
      rw [hrow] at hsuccess
      exact absurd (Prod.mk.inj (Option.some.inj hsuccess)).1 hstatus
    · intro hwritten body n hnew
      cases hwritten ⟨body, n, hnew⟩
  | written =>
    obtain ⟨run, hid, hnotes, hrow⟩ := h.kept hout
    refine ⟨fun _ _ => rfl, ?_⟩
    intro _ body n hnew
    rcases hnotes with hsame | ⟨noteId, hcall, -, hsuccess, hid'⟩
    · rw [hsame] at hnew
      exact absurd hnew.symm (List.cons_ne_self _ _)
    · obtain rfl : noteId = some n := by
        rw [hnew] at hcall
        exact ((NoteCall.mk.inj (List.cons.inj hcall).1).2.2.2).symm
      rw [hrow hsuccess]
      unfold runColumns
      rw [hsuccess, hid' n rfl]

end Outcome

/-- The worker posts at most once and only where it may; and an id that came back
ends up on a successful row exactly where the commit of the outcome went through. -/
theorem postback_with_outcome_iff {mayFail : Site → Bool} {ex : Execution} {runId jobId : ℕ} {w w' : World}
    {x : Except PyError Unit} (hout : mayFail .outside = false)
    (h : (worker ex runId jobId).EndsAmid (Leaves runId jobId) mayFail w x w') :
    PostedAtMostOnce ex runId jobId w w' ∧
      (∃ fate w₁, WorkedOff mayFail ex runId jobId w fate w₁ ∧ Leaves runId jobId w₁ w') ∧
      ∀ fate w₁, WorkedOff mayFail ex runId jobId w fate w₁ → Leaves runId jobId w₁ w' →
        (NoteStored runId jobId w w' ↔ (NoteReturned runId jobId w w' → fate = .written)) := by
  have hmove : ∀ {w₁ : World}, Leaves runId jobId w₁ w' → viewOf runId jobId w' = viewOf runId jobId w₁ := id
  obtain ⟨fate, w₁, hworked, hrely⟩ := worker_fate h
  refine ⟨?_, ⟨fate, w₁, hworked, hrely⟩, ?_⟩
  · have hposted := hworked.posted hout
    unfold PostedAtMostOnce at hposted ⊢
    rwa [hmove hrely]
  · intro fate w₁ hworked hrely
    have hstored := hworked.stored_iff hout
    unfold NoteStored NoteReturned at hstored ⊢
    rwa [hmove hrely]

/-- The review of the sample job after a run in which nothing raised. -/
def postedWorld : World := (((worker (postingExecution (.ok 7)) 1 1).run sampleWorld).map Prod.snd).getD sampleWorld

theorem worker_posted : (worker (postingExecution (.ok 7)) 1 1).run sampleWorld = some (.ok (), postedWorld) := rfl

theorem postback_with_outcome_posted :
    (viewOf 1 1 postedWorld).run = some (.success, some 7) ∧
      PostedAtMostOnce (postingExecution (.ok 7)) 1 1 sampleWorld postedWorld ∧
      (∃ fate w₁, WorkedOff (fun _ => false) (postingExecution (.ok 7)) 1 1 sampleWorld fate w₁ ∧
        Leaves 1 1 w₁ postedWorld) ∧
      ∀ fate w₁, WorkedOff (fun _ => false) (postingExecution (.ok 7)) 1 1 sampleWorld fate w₁ →
        Leaves 1 1 w₁ postedWorld → (NoteStored 1 1 sampleWorld postedWorld ↔
          (NoteReturned 1 1 sampleWorld postedWorld → fate = .written)) :=
  ⟨rfl, postback_with_outcome_iff rfl (.of_ends (Leaves.refl 1 1) (.of_run worker_posted))⟩

/-- The commit after the note raises: the note is out, the row says error and has no id. -/
theorem note_lost_with_commit :
    ∃ w', (worker (postingExecution (.ok 7)) 1 1).EndsAmid (Leaves 1 1) (· == .execution) sampleWorld (.ok ()) w' ∧
      NoteReturned 1 1 sampleWorld w' ∧ (viewOf 1 1 w').run = some (.error, none) ∧ ¬ NoteStored 1 1 sampleWorld w' := by
  have alone : ∀ {α : Type} {p : Tx α} {x : Except PyError α} {w w' : World}, p.run w = some (x, w') →
      p.EndsAmid (Leaves 1 1) (· == .execution) w x w' := by
    intro α p x w w' hrun
    exact .of_ends (Leaves.refl 1 1) (.of_run hrun)
  have hruns : ∃ run job w₁ w₂ w₃, (reachOutcome (postingExecution (.ok 7)) 1 1).run sampleWorld =
      some (.ok (some (run, job)), w₁) ∧ (finalizeCrashedRun 1 1 2).run w₁ = some (.ok (), w₂) ∧
        (releasePermit 1).run w₂ = some (.ok (), w₃) ∧ (viewOf 1 1 w₃).notes = [⟨1, 1, (postingExecution (.ok 7)).noteBody, some 7⟩] ∧
          (viewOf 1 1 w₃).run = some (.error, none) := ⟨_, _, _, _, _, rfl, rfl, rfl, rfl, rfl⟩
  obtain ⟨run, job, w₁, w₂, w₃, hreach, hend, hrelease, hnotes, hrow⟩ := hruns
  have hsettle : (settleOutcome (some (run, job))).EndsAmid (Leaves 1 1) (· == .execution) w₁ (.error .database) w₁ :=
    .fail rfl (.raise _ _)
  have hbody : ((reachOutcome (postingExecution (.ok 7)) 1 1).bind settleOutcome).EndsAmid (Leaves 1 1)
      (· == .execution) sampleWorld (.error .database) w₁ :=
    Program.EndsAmid.bind_iff.mpr (.inl ⟨_, w₁, alone hreach, hsettle⟩)
  refine ⟨w₃, ?_, ⟨_, 7, hnotes⟩, hrow, ?_⟩
  · rw [worker_eq]
    apply Program.EndsAmid.bind_iff.mpr
    refine .inl ⟨(), w₂, ?_, alone hrelease⟩
    exact Program.EndsAmid.tryCatch_iff.mpr (.inr ⟨_, w₁, hbody, alone hend⟩)
  · intro hstored
    have hsuccess := hstored _ 7 hnotes
    rw [hrow] at hsuccess
    cases hsuccess

end GitlabReviewer.Reviews
