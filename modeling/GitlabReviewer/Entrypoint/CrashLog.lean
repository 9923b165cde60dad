import GitlabReviewer.Entrypoint.Capture
import GitlabReviewer.Foundation.Utf8
import GitlabReviewer.Python.Lines

/-! # The tail of opencode's log

The file is read from somewhere in its last bytes on, in the middle of a line
and perhaps of a character. What reaches the log of the run are its last lines,
each of them whole.
-/
namespace GitlabReviewer.Entrypoint
open Python Foundation

/-- A file of opencode's log directory; none where it cannot be read. -/
structure SessionLog where
  name : Str
  mtime : ℚ
  bytes : Option (List UInt8)

def crashLogTailBytes : ℕ := 40000

/-- `max(logs, key=mtime, default=None)`. -/
def latest : List SessionLog → Option SessionLog
  | [] => none
  | first :: rest => some (rest.foldl (fun best other => if best.mtime < other.mtime then other else best) first)

/-- The lines of the last bytes, without the first one if the file is longer. -/
def tailLines (limit : ℕ) (bytes : List UInt8) : List Text :=
  let lines := splitLines (Utf8.decode (bytes.drop (bytes.length - limit)))
  match lines with
  | [] => []
  | first :: rest => if !first.isEmpty && decide (limit < bytes.length) then rest else lines

section CrashLog
variable (L : Logger)

/-- `for line in lines: log(line)`. -/
def logLines : List Text → Run Unit
  | [] => pure ()
  | line :: lines => do
      log L (ofText line)
      logLines lines

def tailHeading (name : Str) : Str := str "opencode session log tail (" ++ name ++ str "):"

/-- Append the tail of opencode's latest session log to the review log; `logs` is
none where the directory cannot be listed. -/
def logOpencodeCrashLog (logs : Option (List SessionLog)) : Run Unit :=
  match logs.bind latest with
  | none => pure ()
  | some file => match file.bytes with
    | none => pure ()
    | some bytes =>
        let lines := tailLines crashLogTailBytes bytes
        if lines.isEmpty then pure ()
        else do
          log L (tailHeading file.name)
          logLines L lines

end CrashLog

section Tail
variable {limit : ℕ} {bytes : List UInt8}

theorem replacement_not_lineBreak : lineBreak Utf8.replacement = false := by decide

/-- Behind its first line, what is decoded from the middle of a file are the last lines of the file. -/
theorem rest_suffix (before tail : List UInt8) :
    (splitLines (Utf8.decode tail)).tail <:+ splitLines (Utf8.decode (before ++ tail)) := by
  rcases firstLine (Utf8.decode tail) with hnone | ⟨u, c, v, htail, hu, hc⟩
  · rw [splitLines_single hnone]
    split <;> simp
  · have hplain : c ≠ Utf8.replacement := by
      rintro rfl
      rw [replacement_not_lineBreak] at hc
      cases hc
    obtain ⟨x, b, y, rfl, hb, rfl, hy⟩ := Utf8.decode_split htail hplain
    rw [htail, splitLines_first hu hc, List.tail_cons, ← List.append_assoc, Utf8.decode_append hb, hy]
    exact splitLinesFrom_suffix hc _ v fun h => by cases h

theorem tailLines_of_short (h : bytes.length ≤ limit) : tailLines limit bytes = splitLines (Utf8.decode bytes) := by
  unfold tailLines
  rw [Nat.sub_eq_zero_of_le h, List.drop_zero]
  cases splitLines (Utf8.decode bytes) with
  | nil => rfl
  | cons first rest => simp [Nat.not_lt.mpr h]

/-- The last lines of the file, and before them perhaps the empty end of a line. -/
theorem tailLines_suffix (limit : ℕ) (bytes : List UInt8) : ∃ lines, lines <:+ splitLines (Utf8.decode bytes) ∧
    (tailLines limit bytes = lines ∨ tailLines limit bytes = [] :: lines) := by
  by_cases hlong : limit < bytes.length
  · have hrest := rest_suffix (bytes.take (bytes.length - limit)) (bytes.drop (bytes.length - limit))
    rw [List.take_append_drop] at hrest
    refine ⟨_, hrest, ?_⟩
    unfold tailLines
    cases splitLines (Utf8.decode (bytes.drop (bytes.length - limit))) with
    | nil => exact .inl rfl
    | cons first rest =>
      cases first with
      | nil => exact .inr (by simp)
      | cons c first => exact .inl (by simp [hlong])
  · exact ⟨_, List.suffix_refl _, .inl (tailLines_of_short (Nat.not_lt.mp hlong))⟩

theorem latest_mem {logs : List SessionLog} {file : SessionLog} (h : latest logs = some file) :
    file ∈ logs ∧ ∀ other ∈ logs, other.mtime ≤ file.mtime := by
  cases logs with
  | nil => cases h
  | cons first rest =>
    obtain rfl := Option.some.inj h
    clear h
    induction rest generalizing first with
    | nil => simp
    | cons next rest ih =>
      rw [List.foldl_cons]
      obtain ⟨hmem, hmax⟩ := ih (if first.mtime < next.mtime then next else first)
      rw [List.forall_mem_cons] at hmax
      constructor
      · rcases List.mem_cons.mp hmem with heq | hrest
        · rw [heq]
          split <;> simp
        · exact List.mem_cons_of_mem _ (List.mem_cons_of_mem _ hrest)
      · rw [List.forall_mem_cons, List.forall_mem_cons]
        refine ⟨?_, ?_, hmax.2⟩
        · refine le_trans ?_ hmax.1
          split
          · rename_i hlt
            exact hlt.le
          · exact le_refl _
        · refine le_trans ?_ hmax.1
          split
          · exact le_refl _
          · rename_i hnot
            exact not_lt.mp hnot

end Tail

/-- The line a message becomes. -/
def cleaned (L : Logger) (message : Str) : Str := stripAnsi (scrub L.secrets message)

/-- The sinks with these lines on stdout and in the file, or with a warning for each. -/
def logged (L : Logger) (lines : List Str) (s : Sinks) : Sinks :=
  { s with
    stdout := s.stdout ++ lines
    file := if L.writable then s.file ++ lines else s.file
    warnings := if L.writable then s.warnings else s.warnings + lines.length }

section Logged
variable {L : Logger} {message : Str} {s : Sinks}

@[simp] theorem logged_nil (L : Logger) (s : Sinks) : logged L [] s = s := by
  unfold logged
  cases L.writable <;> simp

theorem logged_logged (a b : List Str) (s : Sinks) : logged L b (logged L a s) = logged L (a ++ b) s := by
  unfold logged
  cases L.writable <;> simp [Nat.add_assoc]

theorem log_loggable (h : Loggable L message) (s : Sinks) : log L message s = (.ok (), logged L [cleaned L message] s) := by
  obtain ⟨htakes, hscalar⟩ := h
  rw [log_run]
  dsimp only
  rw [if_pos htakes]
  unfold logged cleaned
  cases hwritable : L.writable with
  | false => rfl
  | true =>
    rw [if_pos (hscalar hwritable)]
    rfl

theorem log_text (text : Text) (s : Sinks) : log L (ofText text) s = (.ok (), logged L [cleaned L (ofText text)] s) :=
  log_loggable (loggable_of_scalar scalar_ofText) s

theorem logLines_run (lines : List Text) (s : Sinks) :
    logLines L lines s = (.ok (), logged L (lines.map fun line => cleaned L (ofText line)) s) := by
  induction lines generalizing s with
  | nil => exact congrArg (Prod.mk _) (logged_nil L s).symm
  | cons line lines ih =>
    unfold logLines
    rw [Run.bind_run, log_text]
    dsimp only
    rw [ih, logged_logged]
    rfl

/-- Lines of the end of the file under a heading, perhaps with an empty one before
them: all the lines of the file if it is short, and nothing where there are none. -/
def TailOf (file : SessionLog) (messages : List Str) : Prop := match file.bytes with
  | none => messages = []
  | some bytes => ∃ lines, lines <:+ splitLines (Utf8.decode bytes) ∧
      (bytes.length ≤ crashLogTailBytes → lines = splitLines (Utf8.decode bytes)) ∧
      (lines = [] ∧ messages = [] ∨ messages = tailHeading file.name :: lines.map ofText ∨
        messages = tailHeading file.name :: [] :: lines.map ofText)

theorem crash_log_tail (logs : Option (List SessionLog)) (s : Sinks)
    (hname : ∀ file, logs.bind latest = some file → Loggable L (tailHeading file.name)) :
    ∃ messages, logOpencodeCrashLog L logs s = (.ok (), logged L (messages.map (cleaned L)) s) ∧
      match logs.bind latest with
      | none => messages = []
      | some file => (∀ all, logs = some all → file ∈ all ∧ ∀ other ∈ all, other.mtime ≤ file.mtime) ∧ TailOf file messages := by
  have hquiet : (pure () : Run Unit) s = (.ok (), logged L (([] : List Str).map (cleaned L)) s) :=
    congrArg (Prod.mk _) (logged_nil L s).symm
  unfold logOpencodeCrashLog
  cases hlatest : logs.bind latest with
  | none => exact ⟨[], hquiet, rfl⟩
  | some file =>
    have hmax : ∀ all, logs = some all → file ∈ all ∧ ∀ other ∈ all, other.mtime ≤ file.mtime := by
      rintro all rfl
      exact latest_mem hlatest
    dsimp only
    unfold TailOf
    cases file.bytes with
    | none => exact ⟨[], hquiet, hmax, rfl⟩
    | some bytes =>
      dsimp only
      obtain ⟨lines, hsuffix, htail⟩ := tailLines_suffix crashLogTailBytes bytes
      have hshort : bytes.length ≤ crashLogTailBytes → tailLines crashLogTailBytes bytes = splitLines (Utf8.decode bytes) :=
        tailLines_of_short
      cases hlines : tailLines crashLogTailBytes bytes with
      | nil =>
        rw [hlines] at htail hshort
        refine ⟨[], hquiet, hmax, [], List.nil_suffix, hshort, .inl ⟨rfl, rfl⟩⟩
      | cons first rest =>
        have hrun : (do
            log L (tailHeading file.name)
            logLines L (first :: rest) : Run Unit) s =
            (.ok (), logged L ((tailHeading file.name :: (first :: rest).map ofText).map (cleaned L)) s) := by
          rw [Run.bind_run, log_loggable (hname file hlatest)]
          dsimp only
          rw [logLines_run, logged_logged]
          simp [Function.comp_def]
        refine ⟨_, hrun, hmax, ?_⟩
        rw [hlines] at htail hshort
        by_cases hle : bytes.length ≤ crashLogTailBytes
        · exact ⟨first :: rest, hshort hle ▸ List.suffix_refl _, hshort, .inr (.inl rfl)⟩
        · refine ⟨lines, hsuffix, fun h => absurd h hle, .inr ?_⟩
          rcases htail with rfl | heq
          · exact .inl rfl
          · rw [heq]
            exact .inr rfl

end Logged

section Example

def oldSessionLog : SessionLog := ⟨str "old.log", 4, some [0x6f, 0x6b, 0x0a]⟩

/-- A line that is longer than the tail, and a short one behind it. -/
def longSessionLog : SessionLog := ⟨str "run.log", 5, some (List.replicate 40001 0x61 ++ [0x0a, 0x6f, 0x6b, 0x0a])⟩

theorem crash_log_tail_long : (∀ bytes ∈ longSessionLog.bytes, crashLogTailBytes < bytes.length) ∧ ∃ messages,
    logOpencodeCrashLog plainLogger (some [oldSessionLog, longSessionLog]) ⟨[], [], 0, none⟩ =
      (.ok (), logged plainLogger (messages.map (cleaned plainLogger)) ⟨[], [], 0, none⟩) ∧
      (longSessionLog ∈ [oldSessionLog, longSessionLog] ∧
        ∀ other ∈ [oldSessionLog, longSessionLog], other.mtime ≤ longSessionLog.mtime) ∧ TailOf longSessionLog messages := by
  have hnewer : oldSessionLog.mtime < longSessionLog.mtime := by
    unfold oldSessionLog longSessionLog
    decide
  have hlatest : (some [oldSessionLog, longSessionLog]).bind latest = some longSessionLog := by
    rw [Option.bind_some, latest, List.foldl_cons, List.foldl_nil, if_pos hnewer]
  obtain ⟨messages, hrun, htail⟩ := crash_log_tail (L := plainLogger) (some [oldSessionLog, longSessionLog]) ⟨[], [], 0, none⟩ (by
    intro file hfile
    obtain rfl := Option.some.inj (hlatest.symm.trans hfile)
    exact loggable_of_scalar (by decide))
  rw [hlatest] at htail
  refine ⟨?_, messages, hrun, htail.1 _ rfl, htail.2⟩
  intro bytes hbytes
  rw [← Option.some.inj hbytes, List.length_append, List.length_replicate]
  decide

end Example

end GitlabReviewer.Entrypoint
