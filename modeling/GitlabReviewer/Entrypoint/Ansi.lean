import GitlabReviewer.Foundation.Regex
import GitlabReviewer.Streaming.Reader

/-! # The escape sequences as a pattern

`_ANSI_RE` reads code points only, so it is the same pattern for texts of any
letters that have them. Its three alternatives begin differently, but for the
bracket of an operating system command, which without its end is a sequence of
two letters.
-/
namespace GitlabReviewer.Entrypoint
open Python Foundation Streaming

section Pattern
variable {α : Type} (code : α → ℕ)

/-- A class `[a-b]` of code points. -/
def among (a b : ℕ) (c : α) : Bool := decide (a ≤ code c) && decide (code c ≤ b)

/-- A bracket, parameters `0-?`, intermediate letters from the blank to the slash, and a last letter `@-~`. -/
def controlRe : Regex α :=
  .seq (.one (among code 0x5b 0x5b)) (.seq (.many (among code 0x30 0x3f))
    (.seq (.many (among code 0x20 0x2f)) (.one (among code 0x40 0x7e))))

/-- `\][^\x07\x1b]*(?:\x07|\x1b\\)`. -/
def commandRe : Regex α :=
  .seq (.one (among code 0x5d 0x5d)) (.seq (.many fun c => !among code 0x07 0x07 c && !among code 0x1b 0x1b c)
    (.alt (.one (among code 0x07 0x07)) (.seq (.one (among code 0x1b 0x1b)) (.one (among code 0x5c 0x5c)))))

/-- `[@-Z\\-_]`. -/
def shortRe : Regex α := .one fun c => among code 0x40 0x5a c || among code 0x5c 0x5f c

def ansiRe : Regex α := .seq (.one (among code 0x1b 0x1b)) (.alt (controlRe code) (.alt (commandRe code) (shortRe code)))

variable {code}

theorem among_iff {a b : ℕ} {c : α} : among code a b c = true ↔ a ≤ code c ∧ code c ≤ b := by
  simp [among]

theorem among_self {a : ℕ} {c : α} : among code a a c = true ↔ code c = a := by
  rw [among_iff]
  omega

theorem rests_one_seq {p : α → Bool} {r : Regex α} (c : α) (rest : List α) :
    Regex.rests (.seq (.one p) r) (c :: rest) = if p c then Regex.rests r rest else [] := by
  rw [Regex.rests, Regex.rests, Regex.oneRest]
  split <;> simp

@[simp] theorem rests_one_seq_nil {p : α → Bool} {r : Regex α} : Regex.rests (.seq (.one p) r) [] = [] := rfl

/-- The parameters, the intermediate letters and the last one follow each other. -/
theorem rests_control (c : α) (rest : List α) : Regex.rests (controlRe code) (c :: rest) =
    if among code 0x5b 0x5b c then Regex.oneRest (among code 0x40 0x7e)
      ((rest.dropWhile (among code 0x30 0x3f)).dropWhile (among code 0x20 0x2f)) else [] := by
  have hlast : ∀ (d : α) (more : List α), among code 0x20 0x2f d = true →
      Regex.rests (.one (among code 0x40 0x7e)) (d :: more) = [] := by
    intro d more hd
    rw [among_iff] at hd
    rw [Regex.rests, Regex.oneRest, if_neg]
    rw [among_iff]
    omega
  have hfirst : ∀ (d : α) (more : List α), among code 0x30 0x3f d = true →
      Regex.rests (.seq (.many (among code 0x20 0x2f)) (.one (among code 0x40 0x7e))) (d :: more) = [] := by
    intro d more hd
    have hno : ¬ among code 0x20 0x2f d = true := by
      rw [among_iff] at hd ⊢
      omega
    rw [Regex.rests_many_seq hlast, List.dropWhile_cons_of_neg hno, Regex.rests, Regex.oneRest, if_neg]
    rw [among_iff] at hd ⊢
    omega
  unfold controlRe
  rw [rests_one_seq, Regex.rests_many_seq hfirst, Regex.rests_many_seq hlast, Regex.rests]

theorem rests_command (c : α) (rest : List α) : Regex.rests (commandRe code) (c :: rest) =
    if among code 0x5d 0x5d c then
      Regex.rests (.alt (.one (among code 0x07 0x07)) (.seq (.one (among code 0x1b 0x1b)) (.one (among code 0x5c 0x5c))))
        (rest.dropWhile fun c => !among code 0x07 0x07 c && !among code 0x1b 0x1b c) else [] := by
  unfold commandRe
  rw [rests_one_seq, Regex.rests_many_seq]
  intro d more hd
  have hbell : ¬ among code 0x07 0x07 d = true := fun h => by simp [h] at hd
  have hescape : ¬ among code 0x1b 0x1b d = true := fun h => by simp [h] at hd
  rw [Regex.rests, rests_one_seq, Regex.rests, Regex.oneRest, if_neg hbell, if_neg hescape]
  rfl

theorem rests_ansi (c : α) (rest : List α) : Regex.rests (ansiRe code) (c :: rest) =
    if among code 0x1b 0x1b c then
      Regex.rests (controlRe code) rest ++ (Regex.rests (commandRe code) rest ++ Regex.rests (shortRe code) rest) else [] := by
  unfold ansiRe
  rw [rests_one_seq, Regex.rests, Regex.rests]

theorem not_matches_nil : ¬ Regex.Matches (ansiRe code) [] := by
  intro h
  have hrest : ([] : List α) ∈ Regex.rests (ansiRe code) [] := Regex.mem_rests.mpr ⟨[], h, rfl⟩
  cases hrest

end Pattern

theorem drop_takeWhile (p : Char → Bool) (text : Text) : text.drop (text.takeWhile p).length = text.dropWhile p := by
  induction text with
  | nil => rfl
  | cons c rest ih =>
    by_cases h : p c = true
    · rw [List.takeWhile_cons_of_pos h, List.dropWhile_cons_of_pos h]
      exact ih
    · rw [List.takeWhile_cons_of_neg h, List.dropWhile_cons_of_neg h]
      rfl

theorem length_takeWhile_add (p : Char → Bool) (text : Text) :
    (text.takeWhile p).length + (text.dropWhile p).length = text.length := by
  rw [← List.length_append, List.takeWhile_append_dropWhile]

theorem among_eq (a b : ℕ) : among Char.toNat a b = fun c => decide (a ≤ c.toNat) && decide (c.toNat ≤ b) := rfl

theorem among_char {c : Char} (d : Char) {n : ℕ} (h : d.toNat = n) : among Char.toNat n n c = true ↔ c = d := by
  rw [among_self, ← h, Char.toNat_inj]

theorem rests_short (c : Char) (rest : Text) : Regex.rests (shortRe Char.toNat) (c :: rest) =
    if 0x40 ≤ c.toNat ∧ c.toNat ≤ 0x5a ∨ 0x5c ≤ c.toNat ∧ c.toNat ≤ 0x5f then [rest] else [] := by
  unfold shortRe
  rw [Regex.rests, Regex.oneRest]
  simp only [Bool.or_eq_true, among_iff]

theorem ansiLength_control (rest : Text) : Regex.find (ansiRe Char.toNat) (escape :: '[' :: rest) =
    ansiLength (escape :: '[' :: rest) := by
  have hescape : among Char.toNat 0x1b 0x1b escape = true := by decide
  have hbracket : among Char.toNat 0x5b 0x5b '[' = true := by decide
  have hother : ¬ among Char.toNat 0x5d 0x5d '[' = true := by decide
  unfold Regex.find
  rw [rests_ansi, if_pos hescape, rests_control, if_pos hbracket, rests_command, if_neg hother, rests_short,
    if_neg (by decide)]
  rw [ansiLength]
  dsimp only
  rw [if_neg (by decide), ← among_eq, ← among_eq, ← List.drop_drop, drop_takeWhile, drop_takeWhile]
  have hparams := length_takeWhile_add (among Char.toNat 0x30 0x3f) rest
  have hinter := length_takeWhile_add (among Char.toNat 0x20 0x2f) (rest.dropWhile (among Char.toNat 0x30 0x3f))
  cases hlast : (rest.dropWhile (among Char.toNat 0x30 0x3f)).dropWhile (among Char.toNat 0x20 0x2f) with
  | nil => rfl
  | cons last more =>
    rw [hlast, List.length_cons] at hinter
    dsimp only
    rw [Regex.oneRest]
    by_cases hfinal : among Char.toNat 0x40 0x7e last = true
    · rw [if_pos hfinal, if_pos (among_iff.mp hfinal)]
      simp only [List.append_nil, List.head?_cons, Option.map_some, List.length_cons, Option.some.injEq]
      omega
    · rw [if_neg hfinal, if_neg fun h => hfinal (among_iff.mpr h)]
      rfl

theorem ansiLength_command (rest : Text) : Regex.find (ansiRe Char.toNat) (escape :: ']' :: rest) =
    ansiLength (escape :: ']' :: rest) := by
  have hescape : among Char.toNat 0x1b 0x1b escape = true := by decide
  have hbracket : among Char.toNat 0x5d 0x5d ']' = true := by decide
  have hother : ¬ among Char.toNat 0x5b 0x5b ']' = true := by decide
  have hbody : (fun c => !among Char.toNat 0x07 0x07 c && !among Char.toNat 0x1b 0x1b c) = fun c => decide (c ≠ bell) && decide (c ≠ escape) := by
    funext c
    have hbell := among_char (c := c) bell (n := 0x07) rfl
    have hesc := among_char (c := c) escape (n := 0x1b) rfl
    rw [Bool.eq_iff_iff]
    simp [← hbell, ← hesc]
  unfold Regex.find
  rw [rests_ansi, if_pos hescape, rests_control, if_neg hother, rests_command, if_pos hbracket, rests_short,
    if_pos (by decide), hbody]
  rw [ansiLength]
  dsimp only
  rw [if_neg (by decide), drop_takeWhile]
  have hlength := length_takeWhile_add (fun c => decide (c ≠ bell) && decide (c ≠ escape)) rest
  cases hlast : rest.dropWhile fun c => decide (c ≠ bell) && decide (c ≠ escape) with
  | nil =>
    have hnone : Regex.rests (.alt (.one (among Char.toNat 0x07 0x07))
        (.seq (.one (among Char.toNat 0x1b 0x1b)) (.one (among Char.toNat 0x5c 0x5c)))) [] = [] := rfl
    rw [hnone]
    simp
    omega
  | cons last more =>
    rw [hlast, List.length_cons] at hlength
    have hbellIff : among Char.toNat 0x07 0x07 last = true ↔ last = bell := among_char bell rfl
    have hescapeIff : among Char.toNat 0x1b 0x1b last = true ↔ last = escape := among_char escape rfl
    dsimp only
    rw [Regex.rests, rests_one_seq, Regex.rests, Regex.rests, Regex.oneRest]
    by_cases hbell : last = bell
    · rw [if_pos (hbellIff.mpr hbell), if_pos hbell]
      simp only [List.nil_append, List.cons_append, List.head?_cons, Option.map_some, List.length_cons,
        Option.some.injEq]
      omega
    · -- the letters of the body are neither, so this one ends it
      have hend : last = escape := by
        have hhead := List.head?_dropWhile_not (fun c => decide (c ≠ bell) && decide (c ≠ escape)) rest
        rw [hlast] at hhead
        simpa [hbell] using hhead
      rw [if_neg fun h => hbell (hbellIff.mp h), if_neg hbell, if_pos (hescapeIff.mpr hend)]
      cases more with
      | nil =>
        simp [Regex.oneRest]
        omega
      | cons next more =>
        have hslash : among Char.toNat 0x5c 0x5c next = true ↔ next = '\\' := among_char '\\' rfl
        rw [Regex.oneRest]
        by_cases hnext : next = '\\'
        · rw [if_pos (hslash.mpr hnext), hnext, if_pos (by rfl)]
          simp only [List.length_cons] at hlength
          simp only [List.nil_append, List.cons_append, List.head?_cons, Option.map_some,
            List.length_cons, Option.some.injEq]
          omega
        · rw [if_neg fun h => hnext (hslash.mp h), if_neg (by simpa using hnext)]
          simp
          omega

theorem find_ansi (text : Text) : Regex.find (ansiRe Char.toNat) text = ansiLength text := by
  rcases text with _ | ⟨c, _ | ⟨d, rest⟩⟩
  · rfl
  · unfold Regex.find
    rw [rests_ansi]
    split <;> rfl
  by_cases hc : c = escape
  · subst hc
    by_cases hcontrol : d = '['
    · rw [hcontrol]
      exact ansiLength_control rest
    by_cases hcommand : d = ']'
    · rw [hcommand]
      exact ansiLength_command rest
    have hescape : among Char.toNat 0x1b 0x1b escape = true := by decide
    have hopen : ¬ among Char.toNat 0x5b 0x5b d = true := fun h => hcontrol ((among_char '[' rfl).mp h)
    have hclose : ¬ among Char.toNat 0x5d 0x5d d = true := fun h => hcommand ((among_char ']' rfl).mp h)
    unfold Regex.find
    rw [rests_ansi, if_pos hescape, rests_control, if_neg hopen, rests_command, if_neg hclose, rests_short]
    by_cases hshort : 0x40 ≤ d.toNat ∧ d.toNat ≤ 0x5a ∨ 0x5c ≤ d.toNat ∧ d.toNat ≤ 0x5f
    · rw [if_pos hshort]
      unfold ansiLength
      simp_all
      omega
    · rw [if_neg hshort]
      unfold ansiLength
      simp_all
  · have hescape : ¬ among Char.toNat 0x1b 0x1b c = true := fun h => hc ((among_char escape rfl).mp h)
    unfold Regex.find
    rw [rests_ansi, if_neg hescape]
    unfold ansiLength
    split <;> simp_all

theorem stripAnsi_eq (text : Text) : stripAnsi text = Regex.without (ansiRe Char.toNat) text := by
  have hfrom : ∀ (skip : ℕ) (text : Text), stripAnsiFrom skip text =
      (Regex.piecesFrom (ansiRe Char.toNat) skip text).flatMap Piece.left := by
    intro skip text
    induction text generalizing skip with
    | nil => simp [stripAnsiFrom, Regex.piecesFrom]
    | cons c rest ih =>
      cases skip with
      | succ skip => exact ih skip
      | zero =>
        rw [stripAnsiFrom, Regex.piecesFrom, find_ansi]
        cases ansiLength (c :: rest) with
        | some n => exact ih (n - 1)
        | none => exact congrArg (c :: ·) (ih 0)
  exact hfrom 0 text

end GitlabReviewer.Entrypoint
