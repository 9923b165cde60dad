import GitlabReviewer.Python.Text
import Mathlib.Algebra.Order.Ring.Rat
import Mathlib.Logic.Relation

/-! # Streaming a child under a deadline

A reader thread moves the lines of the child's stdout into a queue and ends the
queue with a marker; the calling thread empties the queue until the marker or
the deadline, kills the child at the deadline, and waits for it. The child, the
reader, the caller and the clock take their steps in any order.
-/
namespace GitlabReviewer.Streaming
open Python

/-- One piece of output: a line, or bytes that do not decode. -/
inductive Output where
  | line (text : Text)
  | undecodable

/-- What the child and its descendants do: `exit` closes stdout unless a
descendant still holds it. -/
inductive Action where
  | write (output : Output)
  | closeStdout
  | exit (code : ℤ) (held : Bool)
  | idle

/-- The actions of the child, in their order; when each is taken is open. -/
abbrev Behaviour := ℕ → Action

inductive Phase (ρ : Type) where
  | polling
  | getting (limit : ℚ)
  | killing
  | draining
  | joining (timedOut : Bool)
  | waiting (timedOut : Bool)
  | returned (answer : ρ)

/-- The child and its pipe, the reader with the queue it fills, and the caller.
`lines` ends with `none` once the reader has stopped. -/
structure State (ρ : Type) where
  now : ℚ
  done : ℕ
  exited : Option ℤ
  killed : Bool
  stdout : Bool
  pipe : List Output
  reading : Bool
  lines : List (Option Text)
  phase : Phase ρ
  kept : List Text

/-- What the two streaming functions differ in: what they keep of an item of
the queue, and what they return. -/
structure Runner (ρ : Type) where
  keep : Text → Option Text
  answer : Bool → ℤ → List Text → ρ

def pollSeconds : ℚ := 1 / 20

def perform {ρ : Type} (s : State ρ) (action : Action) : State ρ :=
  { s with
    exited := match action with
      | .exit code _ => s.exited.or (some code)
      | _ => s.exited
    stdout := match action with
      | .closeStdout => false
      | .exit _ held => s.stdout && (held || s.exited.isSome)
      | _ => s.stdout
    pipe := match action with
      | .write output => if s.stdout then s.pipe ++ [output] else s.pipe
      | _ => s.pipe }

namespace Runner
variable {ρ : Type} (R : Runner ρ) (timeout : ℚ) (child : Behaviour)

def start : State ρ := ⟨0, 0, none, false, true, [], true, [], .polling, []⟩

/-- The item goes through `emit`. -/
def emit (item : Text) (s : State ρ) : State ρ := { s with kept := s.kept ++ (R.keep item).toList }

/-- One step of the child, of the clock, of the reader or of the caller. The
reader decodes what it reads, so it stops at the first bytes that do not decode
and may stop as soon as they are in the pipe. -/
inductive Step : State ρ → State ρ → Prop
  | tick {s : State ρ} (t : ℚ) (h : s.now ≤ t) : Step s { s with now := t }
  | act (s : State ρ) : Step s (perform { s with done := s.done + 1 } (child s.done))
  | die {s : State ρ} (held : Bool) (hk : s.killed = true) (he : s.exited = none) :
      Step s { s with exited := some (-9), stdout := s.stdout && held }
  | read {s : State ρ} {text : Text} {rest : List Output} (hr : s.reading = true)
      (hp : s.pipe = .line text :: rest) :
      Step s { s with pipe := rest, lines := s.lines ++ [some text] }
  | fail {s : State ρ} (hr : s.reading = true) (hp : .undecodable ∈ s.pipe) :
      Step s { s with reading := false, lines := s.lines ++ [none] }
  | eof {s : State ρ} (hr : s.reading = true) (hp : s.pipe = []) (hs : s.stdout = false) :
      Step s { s with reading := false, lines := s.lines ++ [none] }
  | timeUp {s : State ρ} (hph : s.phase = .polling) (h : timeout ≤ s.now) :
      Step s { s with phase := .killing }
  | poll {s : State ρ} (hph : s.phase = .polling) (h : s.now < timeout) :
      Step s { s with phase := .getting (s.now + min pollSeconds (timeout - s.now)) }
  | empty {s : State ρ} {limit : ℚ} (hph : s.phase = .getting limit) (hl : s.lines = [])
      (h : limit ≤ s.now) : Step s { s with phase := .polling }
  | get {s : State ρ} {limit : ℚ} {item : Text} {rest : List (Option Text)}
      (hph : s.phase = .getting limit) (hl : s.lines = some item :: rest) :
      Step s (R.emit item { s with lines := rest, phase := .polling })
  | getEnd {s : State ρ} {limit : ℚ} {rest : List (Option Text)} (hph : s.phase = .getting limit)
      (hl : s.lines = none :: rest) : Step s { s with lines := rest, phase := .joining false }
  | kill {s : State ρ} (hph : s.phase = .killing) : Step s { s with killed := true, phase := .draining }
  | drain {s : State ρ} {item : Text} {rest : List (Option Text)} (hph : s.phase = .draining)
      (hl : s.lines = some item :: rest) : Step s (R.emit item { s with lines := rest })
  | drainEnd {s : State ρ} {rest : List (Option Text)} (hph : s.phase = .draining)
      (hl : s.lines = none :: rest) : Step s { s with lines := rest, phase := .joining true }
  | drainEmpty {s : State ρ} (hph : s.phase = .draining) (hl : s.lines = []) :
      Step s { s with phase := .joining true }
  | join {s : State ρ} {timedOut : Bool} (hph : s.phase = .joining timedOut) :
      Step s { s with phase := .waiting timedOut }
  | reap {s : State ρ} {timedOut : Bool} {code : ℤ} (hph : s.phase = .waiting timedOut)
      (he : s.exited = some code) :
      Step s { s with phase := .returned (R.answer timedOut code s.kept) }

def Reaches : State ρ → State ρ → Prop := Relation.ReflTransGen (R.Step timeout child)

end Runner

/-- `item.rstrip("\r\n")`. -/
def rstripLineEnd (s : Text) : Text := s.rdropWhile fun c => c == '\r' || c == '\n'

/-- `PodmanOrchestrator._run_streaming`: every line is emitted, and the answer
is the timeout flag with the exit code. -/
def runStreaming : Runner (Bool × ℤ) where
  keep item := some (rstripLineEnd item)
  answer timedOut code _ := (timedOut, code)

def escape : Char := Char.ofNat 0x1b
def bell : Char := Char.ofNat 0x07

/-- Length of the escape sequence at the head of a text, if one is there. -/
def ansiLength : Text → Option ℕ
  | c :: '[' :: rest =>
      if c ≠ escape then none
      else
        let params := rest.takeWhile fun c => 0x30 ≤ c.toNat && c.toNat ≤ 0x3f
        let inter := (rest.drop params.length).takeWhile fun c => 0x20 ≤ c.toNat && c.toNat ≤ 0x2f
        match rest.drop (params.length + inter.length) with
        | last :: _ =>
            if 0x40 ≤ last.toNat ∧ last.toNat ≤ 0x7e then some (params.length + inter.length + 3) else none
        | [] => none
  | c :: ']' :: rest =>
      if c ≠ escape then none
      else
        let body := rest.takeWhile fun c => c ≠ bell && c ≠ escape
        match rest.drop body.length with
        | last :: after =>
            if last = bell then some (body.length + 3)
            else if after.head? = some '\\' then some (body.length + 4) else some 2
        | [] => some 2
  | c :: d :: _ =>
      if c = escape ∧ (0x40 ≤ d.toNat ∧ d.toNat ≤ 0x5a ∨ 0x5c ≤ d.toNat ∧ d.toNat ≤ 0x5f) then some 2 else none
  | _ => none

/-- Remove the escape sequences; the first `skip` characters belong to one. -/
def stripAnsiFrom : ℕ → Text → Text
  | _, [] => []
  | skip + 1, _ :: rest => stripAnsiFrom skip rest
  | 0, c :: rest =>
      match ansiLength (c :: rest) with
      | some n => stripAnsiFrom (n - 1) rest
      | none => c :: stripAnsiFrom 0 rest

def stripAnsi (text : Text) : Text := stripAnsiFrom 0 text

/-- The entrypoint's `_run_opencode_once`: escape sequences are stripped, lines
made up of them dropped, and a timeout answers 124. -/
def runOpencodeOnce : Runner (ℤ × Text) where
  keep item :=
    let line := stripAnsi (rstripLineEnd item)
    if line.isEmpty then none else some line
  answer timedOut code kept := (if timedOut then 124 else code, kept.flatMap fun line => line ++ ['\n'])

example : stripAnsi (escape :: "[31mred".toList ++ escape :: "[0m".toList) = "red".toList := by decide

end GitlabReviewer.Streaming
