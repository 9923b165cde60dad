import GitlabReviewer.Lifecycle.Claims
import GitlabReviewer.Models.Configuration

/-! # What the result pages show of a run

The pages read a run while it is worked off: its log, its status, whether it is
archived, and the rows it belongs to. The request that archives it runs in a
session of its own beside the worker that still holds the row.
-/
namespace GitlabReviewer.Live
open Python Foundation Models Scheduling Reviews Lifecycle

/-- The columns of a run that the pages read. -/
structure Record where
  mergeRequestId : ℕ
  modelProfileId : ℕ
  status : RunStatus
  log : Text
  resultJson : Option Json
  resultMarkdown : Option Text
  gitlabNoteId : Option ℤ
  archivedAt : Option Timestamp

def recordOf (run : ReviewRun) : Record :=
  ⟨run.mergeRequestId, run.modelProfileId, run.status, run.log, run.resultJson, run.resultMarkdown, run.gitlabNoteId, run.archivedAt⟩

/-- What a review leaves beside its log. -/
abbrev Delivery := Option Json × Option Text × Option ℤ

def undelivered : Delivery := (none, none, none)

def Record.delivery (rec : Record) : Delivery := (rec.resultJson, rec.resultMarkdown, rec.gitlabNoteId)

def recordAt (w : World) (i : ℕ) : Option Record := (w.run? i).map recordOf

/-- The live-refresh endpoint: the status and the log, or 404. -/
def resultsLogJson (w : World) (i : ℕ) : Option (RunStatus × Text) := (w.run? i).map fun run => (run.status, run.log)

def runStatusValue : RunStatus → Text
  | .running => "running".toList
  | .success => "success".toList
  | .error => "error".toList
  | .timeout => "timeout".toList

def runStatusValues : List Text := [RunStatus.running, .success, .error, .timeout].map runStatusValue

abbrev RunRow := ReviewRun × MergeRequest × ModelProfile

section Query
variable (mrs : List MergeRequest) (profiles : List ModelProfile)

/-- The run with its MR and its model profile. -/
def joinedRows (run : ReviewRun) : List RunRow :=
  (mrs.filter (·.id == run.mergeRequestId)).flatMap fun mr =>
    (profiles.filter (·.id == run.modelProfileId)).map fun profile => (run, mr, profile)

def statusMatches (status : Text) (row : RunRow) : Bool :=
  if runStatusValues.contains status then runStatusValue row.1.status == status else true

def archiveMatches (archived : Option Bool) (row : RunRow) : Bool :=
  match archived with
  | none => true
  | some true => row.1.archivedAt.isSome
  | some false => row.1.archivedAt.isNone

/-- Runs joined with their MR and model profile, newest first. -/
def runRows (status : Text) (archived : Option Bool) (w : World) : List RunRow :=
  (((w.runs.flatMap (joinedRows mrs profiles)).filter (statusMatches status)).filter (archiveMatches archived)).insertionSort
    fun a b => b.1.id ≤ a.1.id

def resultsList (status archive : Text) (w : World) : List RunRow :=
  let status := if runStatusValues.contains status || status == "all".toList then status else "all".toList
  let archived := if archive == "all".toList then none else some false
  runRows mrs profiles status archived w

def archiveList (w : World) : List RunRow := runRows mrs profiles "all".toList (some true) w

end Query

def archivedMessage : Text := "Run archived — it now appears in the Archive.".toList
def alreadyArchivedMessage : Text := "Run is already archived.".toList

/-- Archive a run: the message of the page, or none when there is no such run. -/
def resultsArchive (i : ℕ) (now : Timestamp) : Tx (Option Text) := do
  let run ← getRun .request i
  match run with
  | none => .ret none
  | some run =>
      if run.mem.archivedAt.isNone then do
        commit .request [] [run.set fun r => { r with archivedAt := some now }]
        .ret (some archivedMessage)
      else .ret (some alreadyArchivedMessage)

/-- The service, its recoveries, and the archiving requests. -/
inductive Duty where
  | process (p : Lifecycle.Process)
  | archive (i : ℕ) (now : Timestamp)

def Duty.prog (rules : Rules) : Duty → Tx Unit
  | process p => p.prog rules
  | archive i now => do
      let _ ← resultsArchive i now
      .ret ()

/-- The whole deployment, with the archiving requests beside it. -/
def installation (rules : Rules) : System Duty Site World PyError where
  prog := Duty.prog rules
  mayFail := rules.mayFail
  restart := (deployment rules).restart

def Record.merge (base mem stored : Record) : Record :=
  ⟨written base.mergeRequestId mem.mergeRequestId stored.mergeRequestId,
    written base.modelProfileId mem.modelProfileId stored.modelProfileId, written base.status mem.status stored.status,
    written base.log mem.log stored.log, written base.resultJson mem.resultJson stored.resultJson,
    written base.resultMarkdown mem.resultMarkdown stored.resultMarkdown,
    written base.gitlabNoteId mem.gitlabNoteId stored.gitlabNoteId, written base.archivedAt mem.archivedAt stored.archivedAt⟩

def writtenDelivery (base mem stored : Delivery) : Delivery :=
  (written base.1 mem.1 stored.1, written base.2.1 mem.2.1 stored.2.1, written base.2.2 mem.2.2 stored.2.2)

@[simp] theorem writtenDelivery_self (base stored : Delivery) : writtenDelivery base base stored = stored := by
  simp only [writtenDelivery, written_self]

@[simp] theorem writtenDelivery_base (base mem : Delivery) : writtenDelivery base mem base = mem := by
  simp only [writtenDelivery, written_base]

theorem delivery_merge (base mem stored : Record) :
    (base.merge mem stored).delivery = writtenDelivery base.delivery mem.delivery stored.delivery := rfl

def writtenRecord (held : Option (Tracked ReviewRun)) (stored : Record) : Record :=
  match held with
  | some u => (recordOf u.base).merge (recordOf u.mem) stored
  | none => stored

theorem recordAt_commitRows {w : World} {jobs : List (Tracked ScheduledJob)} {runs : List (Tracked ReviewRun)}
    (hr : KeysKept runs) (i : ℕ) :
    recordAt (w.commitRows jobs runs) i = (recordAt w i).map (writtenRecord (held runs i)) := by
  unfold recordAt
  rw [run?_commitRows hr, Option.map_map, Option.map_map]
  apply Option.map_congr
  intro run h
  obtain rfl := run?_id h
  simp only [Function.comp_apply, overlay, key_run]
  cases held runs run.id with
  | none => rfl
  | some u => rfl

/-- The primary keys of the runs. -/
def RunKeys (w : World) : Prop := (w.runs.map (·.id)).Nodup

theorem runKeys_commitRows {w : World} {jobs : List (Tracked ScheduledJob)} {runs : List (Tracked ReviewRun)}
    (hr : KeysKept runs) (h : RunKeys w) : RunKeys (w.commitRows jobs runs) := by
  have hkeys : (store runs w.runs).map (·.id) = w.runs.map (·.id) := keys_store hr w.runs
  unfold RunKeys World.commitRows
  rw [hkeys]
  exact h

theorem runKeys_insertRun {w : World} (run : ReviewRun) (h : RunKeys w) : RunKeys (w.insertRun run) := by
  simp only [RunKeys, World.insertRun, List.map_append, List.map_cons, List.map_nil]
  exact nodup_append_nextKey h

theorem recordAt_insertRun (w : World) (run : ReviewRun) (i : ℕ) : recordAt (w.insertRun run) i = (recordAt w i).or
    (if World.nextKey (w.runs.map (·.id)) = i then some (recordOf run) else none) := by
  unfold recordAt
  rw [run?_insertRun]
  cases w.run? i with
  | some row => rfl
  | none =>
    by_cases h : World.nextKey (w.runs.map (·.id)) = i
    · simp [h, recordOf]
    · simp [h]

theorem recordAt_nextKey (w : World) : recordAt w (World.nextKey (w.runs.map (·.id))) = none := by
  unfold recordAt
  rw [run?_nextKey]
  rfl

end GitlabReviewer.Live
