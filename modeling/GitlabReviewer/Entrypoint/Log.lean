import GitlabReviewer.Entrypoint.Ansi
import GitlabReviewer.Secrets.Scrub
import Mathlib.Algebra.GroupWithZero.Nat

/-! # The log of the entrypoint

A message is scrubbed of the run's secrets, then stripped of escape sequences,
printed, and appended to the log file. Stripping comes last: it joins what stood
on both sides of a sequence, and nothing looks at the line again.
-/
namespace GitlabReviewer.Entrypoint
open Foundation

instance codePoints_ne_zero : NeZero 0x110000 := ⟨by decide⟩

/-- Python strings hold any code point, surrogates included. -/
abbrev CodePoint := Fin 0x110000
abbrev Str := List CodePoint

def ofText (s : Python.Text) : Str := s.map fun c => Fin.ofNat 0x110000 c.toNat
def str (s : String) : Str := ofText s.toList

/-- What UTF-8 encodes: every code point but the surrogates. -/
def scalar (c : CodePoint) : Bool := decide (c.val < 0xd800) || decide (0xdfff < c.val)

theorem val_ofChar (c : Char) : (Fin.ofNat 0x110000 c.toNat).val = c.toNat := by
  have hlt : c.toNat < 0x110000 := by
    rcases c.valid with hlow | ⟨-, hhigh⟩
    · exact hlow.trans (by decide)
    · exact hhigh
  exact Nat.mod_eq_of_lt hlt

theorem scalar_ofText {s : Python.Text} : (ofText s).all scalar = true := by
  rw [List.all_eq_true]
  intro c hc
  obtain ⟨d, -, rfl⟩ := List.mem_map.mp hc
  unfold scalar
  rw [val_ofChar, Bool.or_eq_true, decide_eq_true_eq, decide_eq_true_eq]
  exact d.valid.imp_right And.left

/-- The characters stdout takes: the scalar values, and perhaps some surrogates. -/
structure Console where
  takes : CodePoint → Bool
  scalars : ∀ c, scalar c = true → takes c = true

def star : CodePoint := 0x2a
def stars : Str := [star, star, star]

/-- `_SCRUB_SECRETS`. -/
def runSecrets (environ : String → Option Str) : List Str :=
  (["GITLAB_TOKEN", "OPENCODE_API_KEY"].filterMap environ).filter fun value => decide (Secrets.minScrubLen ≤ value.length)

/-- Replace each run secret with `***`. -/
def scrub (secrets : List Str) (text : Str) : Str := secrets.foldl (fun text secret => replaceAll secret stars text) text

/-- `_ANSI_RE` on strings. -/
def ansi : Regex CodePoint := ansiRe Fin.val

theorem ansi_not_nil : ¬ Regex.Matches ansi [] := not_matches_nil

/-- Remove ANSI escape sequences. -/
def stripAnsi (text : Str) : Str := Regex.without ansi text

inductive Raised where
  | unicodeEncodeError
  | unicodeDecodeError
  | valueError
  | typeError
  | overflowError
  | recursionError
  | runtimeError
  deriving DecidableEq

/-- The lines on stdout and in the file at `LOG_PATH`, the warnings on stderr,
and the file at `SESSION_PATH`. -/
structure Sinks where
  stdout : List Str
  file : List Str
  warnings : ℕ
  session : Option Str

/-- Statements that may raise; what they have written stays written. -/
def Run (α : Type) := Sinks → Except Raised α × Sinks

namespace Run
variable {α β : Type}

def bind (x : Run α) (f : α → Run β) : Run β := fun s => match x s with
  | (.ok a, s) => f a s
  | (.error e, s) => (.error e, s)

instance : Monad Run where
  pure a s := (.ok a, s)
  bind := bind

def raise (e : Raised) : Run α := fun s => (.error e, s)
def write (f : Sinks → Sinks) : Run Unit := fun s => (.ok (), f s)

theorem bind_run (x : Run α) (f : α → Run β) (s : Sinks) : (x >>= f) s = match x s with
  | (.ok a, s) => f a s
  | (.error e, s) => (.error e, s) := rfl

end Run

/-- The secrets of the run, its stdout, and whether the file at `LOG_PATH` can be written. -/
structure Logger where
  secrets : List Str
  console : Console
  writable : Bool

def print (L : Logger) (line : Str) : Run Unit :=
  if line.all L.console.takes then .write fun s => { s with stdout := s.stdout ++ [line] } else .raise .unicodeEncodeError

/-- Append a line to the review log and mirror it on stdout. -/
def log (L : Logger) (message : Str) : Run Unit := do
  let message := stripAnsi (scrub L.secrets message)
  print L message
  if L.writable then
    if message.all scalar then .write fun s => { s with file := s.file ++ [message] } else .raise .unicodeEncodeError
  else .write fun s => { s with warnings := s.warnings + 1 }

section Clean
variable {L : Logger} {message : Str}

theorem log_run (message : Str) (s : Sinks) : log L message s =
    let line := stripAnsi (scrub L.secrets message)
    let printed := { s with stdout := s.stdout ++ [line] }
    if line.all L.console.takes then
      if L.writable then
        if line.all scalar then (.ok (), { printed with file := s.file ++ [line] }) else (.error .unicodeEncodeError, printed)
      else (.ok (), { printed with warnings := s.warnings + 1 })
    else (.error .unicodeEncodeError, s) := by
  unfold log print
  rw [Run.bind_run]
  by_cases htakes : (stripAnsi (scrub L.secrets message)).all L.console.takes = true
  · dsimp only
    rw [if_pos htakes, if_pos htakes]
    dsimp only [Run.write]
    split
    · split <;> rfl
    · rfl
  · dsimp only
    rw [if_neg htakes, if_neg htakes]
    rfl

/-- Nothing but the stripped message reaches stdout and the file. -/
theorem log_line {s : Sinks} {line : Str} (h : (log L message s).2.stdout = s.stdout ++ [line] ∨
    (log L message s).2.file = s.file ++ [line]) : line = stripAnsi (scrub L.secrets message) := by
  have hsame : ∀ lines : List Str, ∀ line' : Str, lines ++ [line'] = lines ++ [line] → line = line' := by
    intro lines line' heq
    simpa using heq.symm
  have hnone : ∀ lines : List Str, lines ≠ lines ++ [line] := by
    intro lines heq
    simpa using congrArg List.length heq
  rw [log_run] at h
  dsimp only at h
  split at h
  · split at h
    · split at h
      · exact h.elim (hsame _ _) (hsame _ _)
      · exact h.elim (hsame _ _) fun h => absurd h (hnone _)
    · exact h.elim (hsame _ _) fun h => absurd h (hnone _)
  · exact h.elim (fun h => absurd h (hnone _)) fun h => absurd h (hnone _)

/-- A message whose line can be printed, and appended where the file is written. -/
def Loggable (L : Logger) (message : Str) : Prop :=
  (stripAnsi (scrub L.secrets message)).all L.console.takes = true ∧
    (L.writable = true → (stripAnsi (scrub L.secrets message)).all scalar = true)

theorem log_returns_iff (s : Sinks) : (∃ s', log L message s = (.ok (), s')) ↔ Loggable L message := by
  unfold Loggable
  rw [log_run]
  dsimp only
  by_cases htakes : (stripAnsi (scrub L.secrets message)).all L.console.takes = true
  · rw [if_pos htakes]
    cases L.writable with
    | false => simp [htakes]
    | true =>
      by_cases hscalar : (stripAnsi (scrub L.secrets message)).all scalar = true
      · simp [htakes, hscalar]
      · simp [hscalar]
  · rw [if_neg htakes]
    simp [htakes]

theorem all_scrub {secrets : List Str} {text : Str} (h : text.all scalar = true) : (scrub secrets text).all scalar = true := by
  rw [List.all_eq_true] at h ⊢
  intro c hc
  rcases mem_foldl_replaceAll hc with hstars | htext
  · obtain rfl : c = star := by simpa [stars] using hstars
    decide
  · exact h c htext

theorem loggable_of_scalar (h : message.all scalar = true) : Loggable L message := by
  have hline : (stripAnsi (scrub L.secrets message)).all scalar = true := by
    have hscrub := @all_scrub L.secrets message h
    rw [List.all_eq_true] at hscrub ⊢
    exact fun c hc => hscrub c ((Regex.cut_pieces ansi_not_nil _).mem_left hc)
  refine ⟨?_, fun _ => hline⟩
  rw [List.all_eq_true] at hline ⊢
  exact fun c hc => L.console.scalars c (hline c hc)

/-- The secrets that scrubbing can promise to remove. -/
structure Scrubbable (secret : Str) : Prop where
  long : Secrets.minScrubLen ≤ secret.length
  starless : star ∉ secret

theorem scrubbable_runSecrets {environ : String → Option Str} {secret : Str} (h : secret ∈ runSecrets environ)
    (hstar : star ∉ secret) : Scrubbable secret := by
  obtain ⟨-, hlong⟩ := List.mem_filter.mp h
  exact ⟨of_decide_eq_true hlong, hstar⟩

theorem scrub_clean {secret : Str} (h : Scrubbable secret) {secrets : List Str} (hmem : secret ∈ secrets) (text : Str) :
    ¬ secret <:+: scrub secrets text := by
  refine not_infix_foldl (by decide) ?_ ?_ hmem text
  · rintro rfl
    exact absurd h.long (by decide)
  · intro c hc hstars
    have hstar : c = star := by simpa [stars] using hstars
    exact h.starless (hstar ▸ hc)

/-- No secret and no escape sequence stands in the line. -/
def CleanLine (secrets : List Str) (line : Str) : Prop :=
  (∀ secret ∈ secrets, Scrubbable secret → ¬ secret <:+: line) ∧ ∀ s, Regex.Matches ansi s → ¬ s <:+: line

/-- The line of a message is clean exactly where, in the scrubbed message, no
secret and no escape sequence is interrupted by escape sequences. -/
theorem log_clean_iff {s : Sinks} {line : Str}
    (hline : (log L message s).2.stdout = s.stdout ++ [line] ∨ (log L message s).2.file = s.file ++ [line]) :
    CleanLine L.secrets line ↔
      ∀ p, p ∈ L.secrets ∧ Scrubbable p ∨ Regex.Matches ansi p → ¬ Regex.Interrupted ansi (scrub L.secrets message) p := by
  rw [log_line hline]
  unfold CleanLine stripAnsi
  constructor
  · rintro ⟨hsecret, hansi⟩ p (⟨hmem, hp⟩ | hp) hbroken
    · exact hsecret p hmem hp (Regex.infix_of_interrupted hbroken)
    · exact hansi p hp (Regex.infix_of_interrupted hbroken)
  · intro hall
    constructor
    · intro secret hmem hsecret
      rw [Regex.infix_without_iff ansi_not_nil (scrub_clean hsecret hmem message)]
      exact hall secret (.inl ⟨hmem, hsecret⟩)
    · intro p hp
      rw [Regex.match_without_iff ansi_not_nil hp]
      exact hall p (.inr hp)

end Clean

section Example

/-- UTF-8 with strict errors. -/
def plainConsole : Console := ⟨scalar, fun _ h => h⟩

def plainLogger : Logger := ⟨[str "abcdefgh"], plainConsole, true⟩

theorem log_clean_plain : CleanLine plainLogger.secrets (str "token *** used") := by
  have hline : (log plainLogger (str "token abcdefgh used") ⟨[], [], 0, none⟩).2.file = [] ++ [str "token *** used"] := by
    decide
  have hkept : (Regex.pieces ansi (scrub plainLogger.secrets (str "token abcdefgh used"))) =
      (str "token *** used").map Piece.kept := by rfl
  refine (log_clean_iff (.inr hline)).mpr ?_
  rintro p - ⟨before, a, mid, b, after, hpieces, ⟨s, hs⟩, -⟩
  have hmem : .removed s ∈ (str "token *** used").map Piece.kept := by
    rw [← hkept, hpieces]
    simp [hs]
  obtain ⟨c, -, hc⟩ := List.mem_map.mp hmem
  cases hc

/-- An escape sequence in the middle of the secret, and one in the middle of another. -/
theorem log_line_dirty :
    ((log plainLogger (str "abcd\x1b[0mefgh") ⟨[], [], 0, none⟩).2.file = [str "abcdefgh"] ∧
      ¬ CleanLine plainLogger.secrets (str "abcdefgh")) ∧
    (log plainLogger (str "\x1b\x1b[0m[0m") ⟨[], [], 0, none⟩).2.file = [str "\x1b[0m"] ∧
      ¬ CleanLine plainLogger.secrets (str "\x1b[0m") := by
  refine ⟨⟨by decide, fun h => ?_⟩, by decide, fun h => ?_⟩
  · exact h.1 _ (List.mem_singleton_self _) ⟨by decide, by decide⟩ (List.infix_refl _)
  · have hrest : [] ∈ Regex.rests ansi (str "\x1b[0m") := by decide
    obtain ⟨s, hs, heq⟩ := Regex.mem_rests.mp hrest
    rw [List.append_nil] at heq
    exact h.2 s hs (heq ▸ List.infix_refl _)

end Example

end GitlabReviewer.Entrypoint
