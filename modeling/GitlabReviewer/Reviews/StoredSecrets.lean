import GitlabReviewer.Foundation.Alone
import GitlabReviewer.Models.Commits
import GitlabReviewer.Reviews.Execution

/-! # What an execution stores of the run's secrets

Every text of the outcome is scrubbed before it reaches the run row, and so is
every streamed line by itself. Two texts are not: the line that the post-back
appends to the log, and the break between two lines when the log is joined.
The row stays clean of a secret exactly when neither can carry it.
-/
namespace GitlabReviewer.Reviews
open Python Foundation Models Scheduling Secrets

/-- No stored text of the run contains the secret. -/
structure Clean (s : Text) (run : ReviewRun) : Prop where
  log : ¬ s <:+: run.log
  errorMessage : ∀ e ∈ run.errorMessage, ¬ s <:+: e
  resultMarkdown : ∀ m ∈ run.resultMarkdown, ¬ s <:+: m
  resultJson : ∀ v ∈ run.resultJson, AllText (¬ s <:+: ·) v
  sessionJson : ∀ v ∈ run.sessionJson, AllText (¬ s <:+: ·) v

/-- A run row as the pump creates it. -/
structure Unfilled (run : ReviewRun) : Prop where
  log : run.log = []
  errorMessage : run.errorMessage = none
  resultMarkdown : run.resultMarkdown = none
  resultJson : run.resultJson = none
  sessionJson : run.sessionJson = none

/-- The line the post-back appends to the log, if it appends one. -/
def postbackLine (ex : Execution) (iid : ℤ) (job : ScheduledJob) : Option Text :=
  if outcomeStatus (receivedOutcome ex.answer) = .success && job.postToGitlab.getD ex.postResultsToGitlab then
    some (match ex.note with
      | .error message => postbackFailedLine message
      | .ok noteId => postedLine iid noteId)
  else none

/-- The execution with other streamed lines and another run environment. -/
def Execution.streaming (ex : Execution) (chunks : List LogChunk) (env : List (Text × Text)) : Execution :=
  { ex with chunks := chunks, containerEnv := env }

section Join
variable {s : Text}

theorem infix_joinLines (hne : s ≠ []) (hs : '\n' ∉ s) {lines : List Text} (h : s <:+: joinLines lines) :
    ∃ line ∈ lines, s <:+: line := by
  induction lines with
  | nil => exact absurd (List.infix_nil.mp h) hne
  | cons x rest ih =>
    cases rest with
    | nil =>
      rw [joinLines_singleton] at h
      exact ⟨x, List.mem_singleton_self x, h⟩
    | cons y rest =>
      rw [joinLines_cons_cons] at h
      rcases infix_of_infix_append_cons hne hs h with hx | hrest
      · exact ⟨x, List.mem_cons_self, hx⟩
      · obtain ⟨line, hmem, hline⟩ := ih hrest
        exact ⟨line, List.mem_cons_of_mem _ hmem, hline⟩

theorem clean_joinLog (hne : s ≠ []) (hs : '\n' ∉ s) {lines : List Text}
    (hlines : ∀ line ∈ lines, ¬ s <:+: line) : ¬ s <:+: joinLog lines := by
  intro h
  rcases infix_of_infix_append_cons hne hs h with hjoin | hnil
  · obtain ⟨line, hmem, hline⟩ := infix_joinLines hne hs hjoin
    exact hlines line hmem hline
  · exact hne (List.infix_nil.mp hnil)

theorem clean_appendLog (hne : s ≠ []) (hs : '\n' ∉ s) {log line : Text} (hlog : ¬ s <:+: log)
    (hline : ¬ s <:+: line) : ¬ s <:+: appendLog log line := by
  have hclose : ¬ s <:+: line ++ ['\n'] := by
    intro h
    rcases infix_of_infix_append_cons hne hs h with hl | hnil
    · exact hline hl
    · exact hne (List.infix_nil.mp hnil)
  unfold appendLog
  dsimp only
  split
  · exact hclose
  · intro h
    rw [List.append_assoc, List.append_assoc] at h
    rcases infix_of_infix_append_cons hne hs h with hbase | hrest
    · exact hlog (hbase.trans (List.rdropWhile_prefix _ log).isInfix)
    · exact hclose hrest

theorem infix_appendLog (log line : Text) : line <:+: appendLog log line := by
  unfold appendLog
  dsimp only
  split
  · exact (List.prefix_append line _).isInfix
  · exact ⟨rstripNewlines log ++ ['\n'], ['\n'], by simp⟩

end Join

section Clean
variable {s : Text}

theorem Unfilled.clean {run : ReviewRun} (h : Unfilled run) (hs : s ≠ []) : Clean s run := by
  constructor
  · rw [h.log]
    exact fun hi => hs (List.infix_nil.mp hi)
  · simp [h.errorMessage]
  · simp [h.resultMarkdown]
  · simp [h.resultJson]
  · simp [h.sessionJson]

theorem written_cases {α : Type} [DecidableEq α] {P : α → Prop} {base mem stored : α} (hm : P mem)
    (hs : P stored) : P (written base mem stored) := by
  rcases written_eq_or base mem stored with ⟨-, h⟩ | ⟨-, h⟩
  · rwa [h]
  · rwa [h]

/-- Each column of a merge is one of the two. -/
theorem Clean.merge {base mem stored : ReviewRun} (hm : Clean s mem) (hs : Clean s stored) :
    Clean s (Columns.merge base mem stored) := by
  constructor
  · exact written_cases (P := fun log => ¬ s <:+: log) hm.log hs.log
  · exact written_cases (P := fun o : Option Text => ∀ e ∈ o, ¬ s <:+: e) hm.errorMessage hs.errorMessage
  · exact written_cases (P := fun o : Option Text => ∀ e ∈ o, ¬ s <:+: e) hm.resultMarkdown hs.resultMarkdown
  · exact written_cases (P := fun o : Option Json => ∀ v ∈ o, AllText (¬ s <:+: ·) v) hm.resultJson
      hs.resultJson
  · exact written_cases (P := fun o : Option Json => ∀ v ∈ o, AllText (¬ s <:+: ·) v) hm.sessionJson
      hs.sessionJson

/-- The stored row of the run is clean. -/
def StaysClean (s : Text) (runId : ℕ) (w : World) : Prop := ∀ run, w.run? runId = some run → Clean s run

theorem staysClean_commit {runId : ℕ} {w : World} (h : StaysClean s runId w)
    {jobs : List (Tracked ScheduledJob)} {u : Tracked ReviewRun} (hid : u.mem.id = u.base.id)
    (hu : Clean s u.mem) : StaysClean s runId (w.commitRows jobs [u]) := by
  intro run hrun
  rw [run?_commitRows (by simpa using hid)] at hrun
  obtain ⟨row, hrow, rfl⟩ := Option.map_eq_some_iff.mp hrun
  unfold overlay
  split
  · rename_i t ht
    obtain rfl := List.mem_singleton.mp (held_mem ht).1
    exact hu.merge (h row hrow)
  · exact h row hrow

theorem preserves_commit {runId : ℕ} {site : Site} {jobs : List (Tracked ScheduledJob)}
    {u : Tracked ReviewRun} (hid : u.mem.id = u.base.id) (hu : Clean s u.mem) :
    (commit site jobs [u]).Preserves (StaysClean s runId) fun _ => True := by
  refine ⟨?_, trivial⟩
  intro w h _
  exact ⟨staysClean_commit h hid hu, trivial⟩

theorem preserves_commitJobs {runId : ℕ} {site : Site} (jobs : List (Tracked ScheduledJob)) :
    (commit site jobs []).Preserves (StaysClean s runId) fun _ => True := by
  refine ⟨?_, trivial⟩
  intro w h _
  refine ⟨?_, trivial⟩
  intro run hrun
  rw [run?_commitRows (by simp)] at hrun
  obtain ⟨row, hrow, rfl⟩ := Option.map_eq_some_iff.mp hrun
  exact h row hrow

theorem preserves_select {α β : Type} {runId : ℕ} {site : Site} {query : World → α} {f : α → Tx β}
    {post : β → Prop} (hf : ∀ w, StaysClean s runId w → (f (query w)).Preserves (StaysClean s runId) post) :
    (select site query >>= f).Preserves (StaysClean s runId) post :=
  ⟨fun w h _ => ⟨h, hf w h⟩, trivial⟩

theorem preserves_record {runId : ℕ} {act : World → World} (hact : ∀ w, (act w).runs = w.runs) :
    (record act).Preserves (StaysClean s runId) fun _ => True := by
  refine ⟨?_, trivial⟩
  intro w h _
  refine ⟨?_, trivial⟩
  intro run hrun
  unfold World.run? at hrun
  rw [hact] at hrun
  exact h run hrun

theorem preserves_compactPositions {runId : ℕ} (site : Site) (session : List (Tracked ScheduledJob)) :
    (compactPositions site session).Preserves (StaysClean s runId) fun _ => True :=
  preserves_select fun _ _ => preserves_commitJobs _

/-- A run of a secret without a line break, among secrets that include it. -/
structure Scrubbed (s : Text) (secrets : List Text) : Prop where
  scrubbable : Scrubbable s
  unbroken : '\n' ∉ s
  mem : s ∈ secrets

theorem preserves_flushLogInflight {runId : ℕ} (hne : s ≠ []) (hs : '\n' ∉ s) {lines : List Text}
    (hlines : ∀ line ∈ lines, ¬ s <:+: line) (now last : ℤ) :
    (flushLogInflight runId lines now last).Preserves (StaysClean s runId) fun _ => True := by
  unfold flushLogInflight
  split
  · exact trivial
  · refine .tryCatch (preserves_select ?_) fun _ => trivial
    intro w h
    cases hrow : w.run? runId with
    | none => exact trivial
    | some row =>
      have hclean := h row hrow
      refine .bind (preserves_commit rfl ?_) fun _ _ => trivial
      exact ⟨clean_joinLog hne hs hlines, hclean.errorMessage, hclean.resultMarkdown, hclean.resultJson,
        hclean.sessionJson⟩

theorem preserves_streamLog {runId : ℕ} {secrets : List Text} (hs : Scrubbed s secrets)
    (chunks : List LogChunk) {lines : List Text} (hlines : ∀ line ∈ lines, ¬ s <:+: line) (last : ℤ) :
    (streamLog runId secrets chunks lines last).Preserves (StaysClean s runId) fun lines =>
      ∀ line ∈ lines, ¬ s <:+: line := by
  induction chunks generalizing lines last with
  | nil => exact hlines
  | cons chunk chunks ih =>
    have hmore : ∀ line ∈ lines ++ [scrubSecrets chunk.text secrets], ¬ s <:+: line := by
      intro line hline
      rcases List.mem_append.mp hline with hline | hline
      · exact hlines line hline
      · obtain rfl := List.mem_singleton.mp hline
        exact scrubSecrets_clean hs.scrubbable hs.mem chunk.text
    refine .bind (preserves_flushLogInflight hs.scrubbable.ne_nil hs.unbroken hmore _ _) ?_
    intro last' _
    exact ih hmore last'

/-- Every text of a scrubbed outcome is clean, and the log it is stored with was. -/
theorem clean_withOutcome {secrets : List Text} (hs : Scrubbed s secrets) {u : Tracked ReviewRun}
    (hlog : ¬ s <:+: u.mem.log) (outcome : RunOutcome) (now : Timestamp) :
    Clean s (withOutcome (scrubOutcome secrets outcome) now u).mem := by
  have hscrub : ∀ text, ¬ s <:+: scrubSecrets text secrets := scrubSecrets_clean hs.scrubbable hs.mem
  constructor
  · exact hlog
  · intro e he
    obtain ⟨text, -, rfl⟩ := Option.map_eq_some_iff.mp (Option.mem_def.mp he)
    exact hscrub text
  · intro m hm
    obtain ⟨text, -, rfl⟩ := Option.map_eq_some_iff.mp (Option.mem_def.mp hm)
    exact hscrub text
  · intro v hv
    obtain ⟨value, -, rfl⟩ := Option.map_eq_some_iff.mp (Option.mem_def.mp hv)
    exact scrubJson_allText hscrub value
  · intro v hv
    obtain ⟨value, -, rfl⟩ := Option.map_eq_some_iff.mp (Option.mem_def.mp hv)
    exact scrubJson_allText hscrub value

theorem Clean.appended {run : ReviewRun} (h : Clean s run) (hne : s ≠ []) (hs : '\n' ∉ s) {line : Text}
    (hline : ¬ s <:+: line) : Clean s { run with log := appendLog run.log line } :=
  ⟨clean_appendLog hne hs h.log hline, h.errorMessage, h.resultMarkdown, h.resultJson, h.sessionJson⟩

/-- The commit of the outcome and the compaction after it. -/
theorem preserves_finalCommit {runId : ℕ} {job : Tracked ScheduledJob} {u : Tracked ReviewRun}
    (hid : u.mem.id = u.base.id) (hu : Clean s u.mem) :
    (do
      commit .execution [job] [u]
      compactPositions .execution [job.committed] : Tx Unit).Preserves (StaysClean s runId) fun _ => True :=
  .bind (preserves_commit hid hu) fun _ _ => preserves_compactPositions _ _

theorem preserves_applyOutcome {runId : ℕ} {secrets : List Text} (hs : Scrubbed s secrets) {ex : Execution}
    {iid : ℤ} {row : ScheduledJob} (hline : ∀ line ∈ postbackLine ex iid row, ¬ s <:+: line)
    {u : Tracked ReviewRun} (hid : u.mem.id = u.base.id) (hlog : ¬ s <:+: u.mem.log)
    {job : Tracked ScheduledJob} (hjob : job.mem.postToGitlab = row.postToGitlab) :
    (applyOutcome ex (some iid) u job (scrubOutcome secrets (receivedOutcome ex.answer))).Preserves
      (StaysClean s runId) fun _ => True := by
  have hclean := clean_withOutcome hs hlog (receivedOutcome ex.answer) ex.finishedAt
  have hpost : (setStatus (finalJobStatus (outcomeStatus (scrubOutcome secrets (receivedOutcome ex.answer))))
      ex.finishedAt job).mem.postToGitlab = row.postToGitlab := hjob
  unfold applyOutcome
  dsimp only
  rw [hpost]
  split
  · rename_i hposts
    have hpostback : postbackLine ex iid row = some (match ex.note with
        | .error message => postbackFailedLine message
        | .ok noteId => postedLine iid noteId) := if_pos hposts
    rw [hpostback] at hline
    have happended := hclean.appended hs.scrubbable.ne_nil hs.unbroken (hline _ rfl)
    unfold postToGitlab
    cases hnote : ex.note with
    | error message =>
      rw [hnote] at happended
      simp only [Program.bind_eq, Program.bind_assoc]
      exact .bind (preserves_record fun _ => rfl) fun _ _ => preserves_finalCommit hid happended
    | ok noteId =>
      rw [hnote] at happended
      have hnoted : Clean s (((withOutcome (scrubOutcome secrets (receivedOutcome ex.answer)) ex.finishedAt
          u).set fun r => { r with gitlabNoteId := some noteId, log := appendLog r.log (postedLine iid noteId) }).mem) :=
        ⟨happended.log, happended.errorMessage, happended.resultMarkdown, happended.resultJson,
          happended.sessionJson⟩
      simp only [Program.bind_eq, Program.bind_assoc]
      exact .bind (preserves_record fun _ => rfl) fun _ _ => preserves_finalCommit hid hnoted
  · exact preserves_finalCommit hid hclean

/-- With neither way open, every step of an execution keeps the row clean. -/
theorem preserves_executeJob (ex : Execution) (hs : Scrubbed s (secretEnvValues ex.containerEnv))
    (hfound : ex.profileFound = true) {iid : ℤ} (hmr : ex.mrIid = some iid) {row : ScheduledJob}
    (hline : ∀ line ∈ postbackLine ex iid row, ¬ s <:+: line) {run : ReviewRun} (hrun : Unfilled run) :
    (executeJob ex (Tracked.load run) (Tracked.load row)).Preserves (StaysClean s run.id) fun _ => True := by
  have hne := hs.scrubbable.ne_nil
  have hclean : Clean s run := hrun.clean hne
  have hstarted : Clean s (started ex (Tracked.load run)).mem :=
    ⟨hclean.log, hclean.errorMessage, hclean.resultMarkdown, hclean.resultJson, hclean.sessionJson⟩
  refine .bind (preserves_commit rfl hstarted) ?_
  intro _ _
  refine preserves_select ?_
  intro w _
  rw [hfound, hmr]
  refine .bind (preserves_record fun _ => rfl) ?_
  intro _ _
  have hstart : ∀ line ∈ ([] : List Text), ¬ s <:+: line := by simp
  refine .bind (preserves_streamLog hs ex.chunks hstart 0) ?_
  intro lines hlines
  refine preserves_applyOutcome hs hline rfl ?_ (show (Tracked.load row).mem.postToGitlab = row.postToGitlab from rfl)
  show ¬ s <:+: if lines.isEmpty then run.log else joinLog lines
  split
  · exact hclean.log
  · exact clean_joinLog hne hs.unbroken hlines

end Clean

/-- The log an execution stores last. -/
def finalLog (lines : List Text) (line : Option Text) : Text :=
  let log := if lines.isEmpty then [] else joinLog lines
  match line with
  | some line => appendLog log line
  | none => log

/-- The database an execution that runs alone finds its run in. -/
def Holds (runId : ℕ) (w : World) : Prop := w.locked = [] ∧ ∃ run, w.run? runId = some run

section Final
variable {runId : ℕ} {w : World}

theorem Holds.ready (h : Holds runId w) (jobs : List (Tracked ScheduledJob)) : w.unlocked jobs = true := by
  simp [World.unlocked, h.1]

theorem Holds.commit (h : Holds runId w) (jobs : List (Tracked ScheduledJob)) {u : Tracked ReviewRun}
    (hid : u.mem.id = u.base.id) : Holds runId (w.commitRows jobs [u]) := by
  obtain ⟨hlocked, run, hrun⟩ := h
  refine ⟨hlocked, overlay [u] run, ?_⟩
  rw [run?_commitRows (by simpa using hid), hrun]
  rfl

theorem ensures_flushLogInflight (h : Holds runId w) (lines : List Text) (now last : ℤ) :
    (flushLogInflight runId lines now last).Ensures (fun _ => false) w fun x w' =>
      (∃ last', x = .ok last') ∧ Holds runId w' := by
  unfold flushLogInflight
  split
  · exact ⟨⟨last, rfl⟩, h⟩
  · obtain ⟨run, hrun⟩ := h.2
    refine .tryCatch ⟨rfl, ?_, fun hmay => by cases hmay⟩
    dsimp only [Program.ret_bind, id]
    rw [hrun]
    exact ⟨h.ready _, ⟨⟨now, rfl⟩, h.commit [] rfl⟩, fun hmay => by cases hmay⟩

theorem ensures_streamLog (secrets : List Text) (chunks : List LogChunk) (lines : List Text) (last : ℤ)
    (h : Holds runId w) : (streamLog runId secrets chunks lines last).Ensures (fun _ => false) w fun x w' =>
      x = .ok (lines ++ chunks.map fun chunk => scrubSecrets chunk.text secrets) ∧ Holds runId w' := by
  induction chunks generalizing lines last w with
  | nil => exact ⟨by simp, h⟩
  | cons chunk chunks ih =>
    refine .bind ((ensures_flushLogInflight h _ _ _).mono ?_)
    rintro x w' ⟨⟨last', rfl⟩, hw'⟩
    refine (ih (lines ++ [scrubSecrets chunk.text secrets]) last' hw').mono ?_
    rintro y w'' ⟨rfl, hw''⟩
    exact ⟨by simp, hw''⟩

/-- The stored log is the one the session wrote, unless it is still empty. -/
theorem ensures_finalCommit (h : Holds runId w) {job : Tracked ScheduledJob} {u : Tracked ReviewRun}
    (hid : u.mem.id = runId) (hbase : u.base.id = runId) (hempty : u.base.log = []) (hlog : u.mem.log ≠ []) :
    (do
      commit .execution [job] [u]
      compactPositions .execution [job.committed] : Tx Unit).Ensures (fun _ => false) w fun _ w' =>
        ∃ run, w'.run? runId = some run ∧ run.log = u.mem.log := by
  obtain ⟨hlocked, run, hrun⟩ := h
  have hready : ∀ jobs, w.unlocked jobs = true := fun jobs => by simp [World.unlocked, hlocked]
  have hstored : (w.commitRows [job] [u]).run? runId = some (Columns.merge u.base u.mem run) := by
    rw [run?_commitRows (by simp [hid, hbase]), hrun, Option.map_some,
      overlay_held _ (held_single (by rw [key_run, key_run, hid, run?_id hrun]))]
  have hrunLog : (Columns.merge u.base u.mem run).log = u.mem.log := by
    have hne : u.mem.log ≠ u.base.log := by rwa [hempty]
    exact written_of_ne hne run.log
  refine ⟨hready _, ⟨rfl, ⟨hready _, ?_, fun hmay => by cases hmay⟩, fun hmay => by cases hmay⟩,
    fun hmay => by cases hmay⟩
  refine ⟨_, ?_, hrunLog⟩
  rw [run?_commitRows (by simp), ← hstored]
  exact congrFun Option.map_id _

theorem ensures_applyOutcome (h : Holds runId w) {ex : Execution} {iid : ℤ} {row : ScheduledJob}
    {outcome : RunOutcome} (hstatus : outcomeStatus outcome = outcomeStatus (receivedOutcome ex.answer))
    {lines : List Text} {u : Tracked ReviewRun} (hid : u.mem.id = runId) (hbase : u.base.id = runId)
    (hempty : u.base.log = []) (hlog : u.mem.log = if lines.isEmpty then [] else joinLog lines)
    (hfinal : finalLog lines (postbackLine ex iid row) ≠ []) {job : Tracked ScheduledJob}
    (hjob : job.mem.postToGitlab = row.postToGitlab) :
    (applyOutcome ex (some iid) u job outcome).Ensures (fun _ => false) w fun _ w' =>
      ∃ run, w'.run? runId = some run ∧ run.log = finalLog lines (postbackLine ex iid row) := by
  have hpost : (setStatus (finalJobStatus (outcomeStatus outcome)) ex.finishedAt job).mem.postToGitlab =
      row.postToGitlab := hjob
  unfold applyOutcome
  dsimp only
  rw [hpost, hstatus]
  split
  · rename_i hposts
    have hpostback : postbackLine ex iid row = some (match ex.note with
        | .error message => postbackFailedLine message
        | .ok noteId => postedLine iid noteId) := if_pos hposts
    rw [hpostback] at hfinal ⊢
    have hnoted : ∀ call, Holds runId (recordNote call w) := fun _ => h
    unfold postToGitlab
    unfold finalLog at hfinal ⊢
    rw [← hlog] at hfinal ⊢
    cases hnote : ex.note with
    | error message =>
      rw [hnote] at hfinal
      refine ⟨rfl, ?_, fun hmay => by cases hmay⟩
      exact ensures_finalCommit (hnoted ⟨_, _, _, none⟩) hid hbase hempty hfinal
    | ok noteId =>
      rw [hnote] at hfinal
      refine ⟨rfl, ?_, fun hmay => by cases hmay⟩
      exact ensures_finalCommit (hnoted ⟨_, _, _, some noteId⟩) hid hbase hempty hfinal
  · rename_i hposts
    have hpostback : postbackLine ex iid row = none := if_neg hposts
    rw [hpostback] at hfinal ⊢
    unfold finalLog at hfinal ⊢
    rw [← hlog] at hfinal ⊢
    exact ensures_finalCommit h hid hbase hempty hfinal

/-- An execution that runs alone ends with this log on its row. -/
theorem ensures_executeJob {ex : Execution} (hfound : ex.profileFound = true) {iid : ℤ}
    (hmr : ex.mrIid = some iid) {run : ReviewRun} {row : ScheduledJob} (hlocked : w.locked = [])
    (hrun : w.run? run.id = some run) (hnew : Unfilled run)
    (hfinal : finalLog (ex.chunks.map fun chunk => scrubSecrets chunk.text (secretEnvValues ex.containerEnv))
      (postbackLine ex iid row) ≠ []) :
    (executeJob ex (Tracked.load run) (Tracked.load row)).Ensures (fun _ => false) w fun _ w' =>
      ∃ run', w'.run? run.id = some run' ∧ run'.log = finalLog
        (ex.chunks.map fun chunk => scrubSecrets chunk.text (secretEnvValues ex.containerEnv))
        (postbackLine ex iid row) := by
  have hholds : Holds run.id w := ⟨hlocked, run, hrun⟩
  refine ⟨hholds.ready _, ?_, fun hmay => by cases hmay⟩
  have hbegun := hholds.commit [setStatus .running ex.startedAt (Tracked.load row)]
    (u := started ex (Tracked.load run)) rfl
  refine ⟨rfl, ?_, fun hmay => by cases hmay⟩
  dsimp only [Program.ret_bind, id]
  rw [hfound, hmr]
  refine ⟨rfl, ?_, fun hmay => by cases hmay⟩
  have hreviewed : Holds run.id (recordReview row.id
      (w.commitRows [setStatus .running ex.startedAt (Tracked.load row)] [started ex (Tracked.load run)])) :=
    hbegun
  dsimp only [Program.ret_bind]
  refine .bind ((ensures_streamLog _ _ _ _ hreviewed).mono ?_)
  rintro x w' ⟨rfl, hw'⟩
  refine ensures_applyOutcome hw' ?_ ?_ ?_ ?_ ?_ hfinal ?_
  · rfl
  · rfl
  · rfl
  · exact hnew.log
  · show (if _ then run.log else _) = _
    rw [hnew.log]
    rfl
  · rfl

end Final

section Leak
variable {s : Text}

theorem secretEnvValues_token (hs : s ≠ []) : secretEnvValues [("GITLAB_TOKEN".toList, s)] = [s] := by
  have htruthy : truthy s = true := by
    cases s with
    | nil => exact absurd rfl hs
    | cons c s => rfl
  have hlookup : (secretEnvKeys.filterMap fun key => [("GITLAB_TOKEN".toList, s)].lookup key) = [s] := rfl
  rw [secretEnvValues, hlookup, List.filter_cons_of_pos htruthy, List.filter_nil]

theorem finalLog_of_line (lines : List Text) {line : Text} (h : s <:+: line) :
    s <:+: finalLog lines (some line) := h.trans (infix_appendLog _ line)

/-- The lines of a secret, and one more so that the log does not end in it. -/
def brokenSecret (s : Text) : List Text := splitOn '\n' s ++ [['x']]

theorem scrubSecrets_broken (hs : Scrubbable s) (hn : '\n' ∈ s) {line : Text} (h : line ∈ brokenSecret s) :
    scrubSecrets line [s] = line := by
  have hout : ¬ s <:+: line := by
    intro hinf
    have hmem : '\n' ∈ line := hinf.subset hn
    rcases List.mem_append.mp h with h | h
    · exact not_mem_of_mem_splitOn h hmem
    · obtain rfl := List.mem_singleton.mp h
      exact absurd hmem (by decide)
  rw [scrubSecrets_cons, if_pos hs.long, replaceAll_of_not_infix hout]
  rfl

theorem joinLog_broken (s : Text) : joinLog (brokenSecret s) = s ++ '\n' :: ['x', '\n'] := by
  rw [joinLog, brokenSecret, joinLines_concat (splitOn_ne_nil _ _), joinLines_splitOn]
  simp

theorem finalLog_broken (s : Text) (line : Option Text) : s <:+: finalLog (brokenSecret s) line := by
  have hnonempty : (brokenSecret s).isEmpty = false := by simp [brokenSecret]
  have hbase : rstripNewlines (s ++ '\n' :: ['x', '\n']) = s ++ ['\n', 'x'] := by
    have hsplit : s ++ '\n' :: ['x', '\n'] = (s ++ ['\n', 'x']) ++ ['\n'] := by simp
    rw [rstripNewlines, hsplit, List.rdropWhile_concat_pos _ _ _ (by decide)]
    have hlast : s ++ ['\n', 'x'] = (s ++ ['\n']) ++ ['x'] := by simp
    rw [hlast, List.rdropWhile_concat_neg _ _ _ (by decide)]
  unfold finalLog
  rw [hnonempty, joinLog_broken]
  cases line with
  | none => exact (List.prefix_append s _).isInfix
  | some line =>
    simp only [Bool.false_eq_true, if_false, appendLog, hbase]
    have hlong : ¬ (s ++ ['\n', 'x']).isEmpty = true := by simp
    rw [if_neg hlong]
    exact ⟨[], ['\n', 'x'] ++ ['\n'] ++ line ++ ['\n'], by simp⟩

/-- A run in which no step raises stores the leaking log. -/
theorem leaks_of_finalLog (ex : Execution) (hne : s ≠ []) (hfound : ex.profileFound = true) {iid : ℤ}
    (hmr : ex.mrIid = some iid) {run : ReviewRun} (row : ScheduledJob) {w : World} (hlocked : w.locked = [])
    (hrun : w.run? run.id = some run) (hnew : Unfilled run)
    (hleak : s <:+: finalLog
      (ex.chunks.map fun chunk => scrubSecrets chunk.text (secretEnvValues ex.containerEnv))
      (postbackLine ex iid row)) (mayFail : Site → Bool) :
    ∃ w', (executeJob ex (Tracked.load run) (Tracked.load row)).Passes mayFail w w' ∧
      ¬ StaysClean s run.id w' := by
  have hfinal : finalLog (ex.chunks.map fun chunk => scrubSecrets chunk.text (secretEnvValues ex.containerEnv))
      (postbackLine ex iid row) ≠ [] := by
    intro hnil
    rw [hnil] at hleak
    exact hne (List.infix_nil.mp hleak)
  obtain ⟨x, w', hx, run', hrun', hlog⟩ := (ensures_executeJob hfound hmr hlocked hrun hnew hfinal).exists_run
  refine ⟨w', .of_run hx, ?_⟩
  intro hclean
  exact (hclean run' hrun').log (hlog ▸ hleak)

end Leak

/-- The secret is in no version of the run row, whatever lines are streamed and
whatever else the run environment holds, exactly when it has no line break and
is not in the line the post-back appends. -/
theorem secret_kept_out_iff {s : Text} (hs : Scrubbable s) (ex : Execution) (hfound : ex.profileFound = true)
    {iid : ℤ} (hmr : ex.mrIid = some iid) {run : ReviewRun} (row : ScheduledJob) {w : World}
    (hlocked : w.locked = []) (hrun : w.run? run.id = some run) (hnew : Unfilled run)
    (mayFail : Site → Bool) :
    (∀ chunks env, s ∈ secretEnvValues env → ∀ w',
      (executeJob (ex.streaming chunks env) (Tracked.load run) (Tracked.load row)).Passes mayFail w w' →
        ∀ stored, w'.run? run.id = some stored → Clean s stored) ↔
      '\n' ∉ s ∧ ∀ line ∈ postbackLine ex iid row, ¬ s <:+: line := by
  have hne : s ≠ [] := hs.ne_nil
  constructor
  · intro hall
    constructor
    · intro hn
      have henv := secretEnvValues_token hne
      have hlines : ((brokenSecret s).map fun line => (⟨line, 0⟩ : LogChunk)).map
          (fun chunk => scrubSecrets chunk.text (secretEnvValues [("GITLAB_TOKEN".toList, s)])) =
            brokenSecret s := by
        rw [henv, List.map_map]
        refine (List.map_congr_left ?_).trans (List.map_id _)
        intro line hline
        exact scrubSecrets_broken hs hn hline
      have hbroken : s <:+: finalLog (((brokenSecret s).map fun line => (⟨line, 0⟩ : LogChunk)).map
          fun chunk => scrubSecrets chunk.text (secretEnvValues [("GITLAB_TOKEN".toList, s)]))
          (postbackLine ex iid row) := by
        rw [hlines]
        exact finalLog_broken s _
      obtain ⟨w', hpass, hleak⟩ := leaks_of_finalLog
        (ex.streaming ((brokenSecret s).map fun line => ⟨line, 0⟩) [("GITLAB_TOKEN".toList, s)])
        hne hfound hmr row hlocked hrun hnew hbroken mayFail
      refine hleak (hall _ _ ?_ w' hpass)
      rw [henv]
      exact List.mem_singleton_self s
    · intro line hline hinf
      have henv := secretEnvValues_token hne
      have happended : s <:+: finalLog [] (postbackLine ex iid row) := by
        rw [Option.mem_def.mp hline]
        exact finalLog_of_line [] hinf
      obtain ⟨w', hpass, hleak⟩ := leaks_of_finalLog (ex.streaming [] [("GITLAB_TOKEN".toList, s)]) hne
        hfound hmr row hlocked hrun hnew happended mayFail
      refine hleak (hall _ _ ?_ w' hpass)
      rw [henv]
      exact List.mem_singleton_self s
  · rintro ⟨hn, hline⟩ chunks env hmem w' hpass
    have hstart : StaysClean s run.id w := by
      intro stored hstored
      rw [hrun] at hstored
      obtain rfl := Option.some.inj hstored
      exact hnew.clean hne
    exact (preserves_executeJob (ex.streaming chunks env) ⟨hs, hn, hmem⟩ hfound hmr hline hnew).passes
      hstart hpass

def sampleToken : Text := "glpat-0123456789".toList

/-- A successful review whose post-back answers `note`. -/
def postingExecution (note : Except Text ℤ) : Execution where
  floats := .none
  strings := .ascii
  startedAt := 1
  finishedAt := 2
  profileFound := true
  mrIid := some 5
  postResultsToGitlab := true
  containerEnv := [("GITLAB_TOKEN".toList, sampleToken)]
  chunks := []
  answer := .ok ⟨0, none, none, none, none, false⟩
  note := note

def sampleJob : ScheduledJob := ⟨1, 1, 1, none, [], .immediate, 1, .claimed, none, none, none⟩
def sampleRun : ReviewRun :=
  ⟨1, 1, 1, 1, .running, none, none, [], none, none, none, none, none, some 1, none, none⟩
def sampleWorld : World := { World.empty with jobs := [sampleJob], runs := [sampleRun] }

theorem sampleRun_unfilled : Unfilled sampleRun := ⟨rfl, rfl, rfl, rfl, rfl⟩
theorem sampleToken_scrubbable : Scrubbable sampleToken := ⟨by decide, by decide⟩

theorem secret_kept_out_posted :
    ((∀ chunks env, sampleToken ∈ secretEnvValues env → ∀ w',
      (executeJob ((postingExecution (.ok 7)).streaming chunks env) (Tracked.load sampleRun)
        (Tracked.load sampleJob)).Passes (fun _ => true) sampleWorld w' →
          ∀ stored, w'.run? 1 = some stored → Clean sampleToken stored) ↔
      '\n' ∉ sampleToken ∧ ∀ line ∈ postbackLine (postingExecution (.ok 7)) 5 sampleJob,
        ¬ sampleToken <:+: line) ∧
      '\n' ∉ sampleToken ∧ ∀ line ∈ postbackLine (postingExecution (.ok 7)) 5 sampleJob,
        ¬ sampleToken <:+: line :=
  ⟨secret_kept_out_iff sampleToken_scrubbable (postingExecution (.ok 7)) rfl rfl sampleJob
    rfl rfl sampleRun_unfilled (fun _ => true), by decide, by decide⟩

/-- GitLab's answer echoes the request's header. -/
def echoingExecution : Execution :=
  postingExecution (.error ("HTTP 401: bad header PRIVATE-TOKEN: ".toList ++ sampleToken))

theorem secret_stored_by_postback :
    Scrubbable sampleToken ∧ sampleToken ∈ secretEnvValues echoingExecution.containerEnv ∧
      ∃ w', (executeJob echoingExecution (Tracked.load sampleRun) (Tracked.load sampleJob)).Passes
        (fun _ => false) sampleWorld w' ∧ ∃ stored, w'.run? 1 = some stored ∧ ¬ Clean sampleToken stored := by
  have hline : sampleToken <:+: postbackFailedLine
      ("HTTP 401: bad header PRIVATE-TOKEN: ".toList ++ sampleToken) :=
    ((List.suffix_append _ _).trans (List.suffix_append _ _)).isInfix
  obtain ⟨w', hpass, hleak⟩ := leaks_of_finalLog echoingExecution sampleToken_scrubbable.ne_nil rfl rfl
    sampleJob (w := sampleWorld) rfl rfl sampleRun_unfilled (finalLog_of_line [] hline) (fun _ => false)
  simp only [StaysClean, not_forall] at hleak
  obtain ⟨stored, hstored, hbad⟩ := hleak
  exact ⟨sampleToken_scrubbable, by decide, w', hpass, stored, hstored, hbad⟩

end GitlabReviewer.Reviews
