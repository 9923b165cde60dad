import GitlabReviewer.Orchestrator.Podman
import GitlabReviewer.Python.JsonRoundTrip
import GitlabReviewer.Python.Lines

/-! # Stale containers

`podman ps` prints an id and a time of creation for each container. An expression
takes the fields out of the line, and what they say is compared with the clock.
-/
namespace GitlabReviewer.Orchestrator
open Python

/-- A civil time with its offset from UTC. -/
structure Stamp where
  year : ℕ
  month : ℕ
  day : ℕ
  hour : ℕ
  minute : ℕ
  second : ℕ
  behind : Bool
  offsetHour : ℕ
  offsetMinute : ℕ

def lowerHex (c : Char) : Bool := ('0' ≤ c && c ≤ '9') || ('a' ≤ c && c ≤ 'f')

def digit (c : Char) : ℕ := c.toNat - 48

/-- `\d{2}`, for the ASCII digits. -/
def scanTwo : Text → Option (ℕ × Text)
  | a :: b :: rest => if isDigit a && isDigit b then some (10 * digit a + digit b, rest) else none
  | _ => none

/-- `\d{4}`, for the ASCII digits. -/
def scanFour (text : Text) : Option (ℕ × Text) := do
  let (high, rest) ← scanTwo text
  let (low, rest) ← scanTwo rest
  some (100 * high + low, rest)

def expect (c : Char) : Text → Option Text
  | d :: rest => if d = c then some rest else none
  | [] => none

/-- `\s+`. -/
def scanSpaces : Text → Option Text
  | c :: rest => if isSpace c then some (rest.dropWhile isSpace) else none
  | [] => none

/-- `(?:\.\d+)?`. -/
def dropFraction : Text → Text
  | '.' :: c :: rest => if isDigit c then rest.dropWhile isDigit else '.' :: c :: rest
  | text => text

/-- Three numbers with a separator between them. -/
def scanThree (scanFirst : Text → Option (ℕ × Text)) (sep : Char) (text : Text) : Option ((ℕ × ℕ × ℕ) × Text) := do
  let (a, rest) ← scanFirst text
  let rest ← expect sep rest
  let (b, rest) ← scanTwo rest
  let rest ← expect sep rest
  let (c, rest) ← scanTwo rest
  some ((a, b, c), rest)

/-- `[+-]\d{4}`. -/
def scanOffset : Text → Option ((Bool × ℕ × ℕ) × Text)
  | sign :: rest =>
      if sign = '+' ∨ sign = '-' then do
        let (hour, rest) ← scanTwo rest
        let (minute, rest) ← scanTwo rest
        some ((sign == '-', hour, minute), rest)
      else none
  | [] => none

def scanStamp (text : Text) : Option Stamp := do
  let ((year, month, day), rest) ← scanThree scanFour '-' text
  let rest ← scanSpaces rest
  let ((hour, minute, second), rest) ← scanThree scanTwo ':' rest
  let rest ← scanSpaces (dropFraction rest)
  let ((behind, offsetHour, offsetMinute), _) ← scanOffset rest
  some ⟨year, month, day, hour, minute, second, behind, offsetHour, offsetMinute⟩

/-- The groups of the expression, matched against a line. -/
def matchCreated (line : Text) : Option (Text × Stamp) :=
  if (line.takeWhile lowerHex).isEmpty then none
  else ((scanSpaces (line.dropWhile lowerHex)).bind scanStamp).map fun stamp => (line.takeWhile lowerHex, stamp)

def leap (year : ℕ) : Bool := year % 4 = 0 && (year % 100 ≠ 0 || year % 400 = 0)

def daysInMonth (year : ℕ) : List ℕ := [31, if leap year then 29 else 28, 31, 30, 31, 30, 31, 31, 30, 31, 30, 31]

/-- The day of the proleptic Gregorian calendar, the first of January of year 1 being day 1. -/
def ordinal (s : Stamp) : ℕ :=
  365 * (s.year - 1) + (s.year - 1) / 4 - (s.year - 1) / 100 + (s.year - 1) / 400 + ((daysInMonth s.year).take (s.month - 1)).sum + s.day

/-- The seconds of the offset, without its sign. -/
def offsetSeconds (s : Stamp) : ℕ := 3600 * s.offsetHour + 60 * s.offsetMinute

/-- What `fromisoformat` accepts; it raises a `ValueError` otherwise. -/
structure Stamp.Valid (s : Stamp) : Prop where
  year : 1 ≤ s.year
  month : 1 ≤ s.month ∧ s.month ≤ 12
  day : 1 ≤ s.day ∧ s.day ≤ (daysInMonth s.year).getD (s.month - 1) 0
  time : s.hour < 24 ∧ s.minute < 60 ∧ s.second < 60
  offset : offsetSeconds s < 86400

instance (s : Stamp) : Decidable s.Valid :=
  decidable_of_iff (1 ≤ s.year ∧ (1 ≤ s.month ∧ s.month ≤ 12) ∧ (1 ≤ s.day ∧ s.day ≤ (daysInMonth s.year).getD (s.month - 1) 0) ∧
    (s.hour < 24 ∧ s.minute < 60 ∧ s.second < 60) ∧ offsetSeconds s < 86400)
    ⟨fun ⟨hy, hm, hd, ht, ho⟩ => ⟨hy, hm, hd, ht, ho⟩, fun ⟨hy, hm, hd, ht, ho⟩ => ⟨hy, hm, hd, ht, ho⟩⟩

/-- Seconds since the epoch. -/
def Stamp.timestamp (s : Stamp) : ℤ :=
  ((ordinal s : ℤ) - 719163) * 86400 + 3600 * s.hour + 60 * s.minute + s.second -
    (if s.behind then -(offsetSeconds s : ℤ) else offsetSeconds s)

def twoDigits (n : ℕ) : Text := [Char.ofNat (48 + n / 10), Char.ofNat (48 + n % 10)]
def fourDigits (n : ℕ) : Text := twoDigits (n / 100) ++ twoDigits (n % 100)

/-- A time that podman prints. -/
structure Stamp.Printable (s : Stamp) : Prop where
  valid : s.Valid
  year : s.year < 10000
  offsetMinute : s.offsetMinute < 60

/-- Nothing, or a point and digits. -/
def Fraction (text : Text) : Prop := text = [] ∨ ∃ c digits, text = '.' :: c :: digits ∧ isDigit c = true ∧ ∀ d ∈ digits, isDigit d = true

def printThree (first : Text) (sep : Char) (b c : ℕ) : Text := first ++ sep :: (twoDigits b ++ sep :: twoDigits c)

def printOffset (s : Stamp) : Text := (if s.behind then '-' else '+') :: (twoDigits s.offsetHour ++ twoDigits s.offsetMinute)

/-- `{{.CreatedAt}}`, with its fraction of a second and the name of its zone. -/
def printStamp (s : Stamp) (fraction zone : Text) : Text :=
  printThree (fourDigits s.year) '-' s.month s.day ++ ' ' :: (printThree (twoDigits s.hour) ':' s.minute s.second ++
    (fraction ++ ' ' :: (printOffset s ++ ' ' :: zone)))

section Printed
variable {s : Stamp} {fraction zone rest : Text}

theorem scanTwo_twoDigits {n : ℕ} (h : n < 100) (rest : Text) : scanTwo (twoDigits n ++ rest) = some (n, rest) := by
  obtain ⟨hhigh, hhigh'⟩ := isDigit_ofNat (n / 10) (by omega)
  obtain ⟨hlow, hlow'⟩ := isDigit_ofNat (n % 10) (by omega)
  unfold twoDigits
  simp only [List.cons_append, List.nil_append, scanTwo, hhigh, hlow, Bool.and_self, if_true, digit, hhigh', hlow']
  congr 2
  omega

theorem scanFour_fourDigits {n : ℕ} (h : n < 10000) (rest : Text) : scanFour (fourDigits n ++ rest) = some (n, rest) := by
  unfold scanFour fourDigits
  rw [List.append_assoc, scanTwo_twoDigits (by omega)]
  simp only [Option.bind_eq_bind, Option.bind_some]
  rw [scanTwo_twoDigits (by omega)]
  simp only [Option.bind_some]
  congr 2
  omega

theorem expect_self (c : Char) (rest : Text) : expect c (c :: rest) = some rest := if_pos rfl

theorem scanThree_printThree {scanFirst : Text → Option (ℕ × Text)} {first : Text} {a b c : ℕ}
    (hfirst : ∀ rest, scanFirst (first ++ rest) = some (a, rest)) (hb : b < 100) (hc : c < 100) (sep : Char) (rest : Text) :
    scanThree scanFirst sep (printThree first sep b c ++ rest) = some ((a, b, c), rest) := by
  unfold scanThree printThree
  rw [List.append_assoc, hfirst, List.cons_append, List.append_assoc]
  simp only [Option.bind_eq_bind, Option.bind_some, expect_self, scanTwo_twoDigits hb, List.cons_append, scanTwo_twoDigits hc]

theorem scanOffset_printOffset (hhour : s.offsetHour < 100) (hminute : s.offsetMinute < 100) (rest : Text) :
    scanOffset (printOffset s ++ rest) = some ((s.behind, s.offsetHour, s.offsetMinute), rest) := by
  unfold scanOffset printOffset
  cases s.behind <;>
    simp [scanTwo_twoDigits hhour, scanTwo_twoDigits hminute]

theorem scanSpaces_digits {n : ℕ} (h : n < 100) (rest : Text) : scanSpaces (' ' :: (twoDigits n ++ rest)) = some (twoDigits n ++ rest) := by
  obtain ⟨hhigh, -⟩ := isDigit_ofNat (n / 10) (by omega)
  have hstop := isSpace_of_isDigit hhigh
  have hspace : isSpace ' ' = true := by decide
  unfold twoDigits
  rw [scanSpaces, if_pos hspace, List.cons_append, List.dropWhile_cons_of_neg (by simp [hstop])]

theorem scanSpaces_offset (rest : Text) : scanSpaces (' ' :: (printOffset s ++ rest)) = some (printOffset s ++ rest) := by
  unfold printOffset
  cases s.behind <;> rfl

theorem dropFraction_append (h : Fraction fraction) (rest : Text) : dropFraction (fraction ++ ' ' :: rest) = ' ' :: rest := by
  have hspace : isDigit ' ' = false := by decide
  rcases h with rfl | ⟨c, digits, rfl, hc, hdigits⟩
  · rfl
  · rw [List.cons_append, List.cons_append, dropFraction, if_pos hc, List.dropWhile_append_of_pos (by simpa using hdigits),
      List.dropWhile_cons_of_neg (by simp [hspace])]

theorem Stamp.Valid.day_lt (h : s.Valid) : s.day < 100 := by
  have hle := h.day.2
  have hmax : ∀ d ∈ daysInMonth s.year, d ≤ 31 := by
    unfold daysInMonth
    split <;> simp
  rw [List.getD_eq_getElem?_getD] at hle
  cases hget : (daysInMonth s.year)[s.month - 1]? with
  | none =>
    rw [hget, Option.getD_none] at hle
    omega
  | some d =>
    have hd := hmax d (List.mem_of_getElem? hget)
    rw [hget, Option.getD_some] at hle
    omega

/-- The fields of what podman prints are the ones it was made from. -/
theorem scanStamp_printStamp (hs : s.Printable) (hfraction : Fraction fraction) (zone : Text) :
    scanStamp (printStamp s fraction zone) = some s := by
  obtain ⟨h, hyear, hoffsetMinute⟩ := hs
  have hmonth : s.month < 100 := by have := h.month; omega
  have hday := h.day_lt
  obtain ⟨hhour, hminute, hsecond⟩ := h.time
  have hoffset := h.offset
  unfold offsetSeconds at hoffset
  have htime := scanThree_printThree (scanTwo_twoDigits (show s.hour < 100 by omega)) (show s.minute < 100 by omega)
    (show s.second < 100 by omega) ':'
  have hgap : ∀ rest, scanSpaces (' ' :: (printThree (twoDigits s.hour) ':' s.minute s.second ++ rest)) =
      some (printThree (twoDigits s.hour) ':' s.minute s.second ++ rest) := by
    intro rest
    unfold printThree
    rw [List.append_assoc]
    exact scanSpaces_digits (by omega) _
  unfold scanStamp printStamp
  simp only [scanThree_printThree (scanFour_fourDigits hyear) hmonth hday, Option.bind_eq_bind, Option.bind_some, hgap, htime,
    dropFraction_append hfraction, scanSpaces_offset,
    scanOffset_printOffset (show s.offsetHour < 100 by omega) (show s.offsetMinute < 100 by omega)]

/-- `{{.ID}} {{.CreatedAt}}`. -/
def printLine (id : Text) (s : Stamp) (fraction zone : Text) : Text := id ++ ' ' :: printStamp s fraction zone

/-- A short id. -/
structure ShortId (id : Text) : Prop where
  some : id ≠ []
  hex : ∀ c ∈ id, lowerHex c = true

theorem matchCreated_printLine {id : Text} (hid : ShortId id) (hs : s.Printable) (hfraction : Fraction fraction) (zone : Text) :
    matchCreated (printLine id s fraction zone) = some (id, s) := by
  have hyear := hs.year
  have hblank : lowerHex ' ' = false := by decide
  have htake : (printLine id s fraction zone).takeWhile lowerHex = id := by
    unfold printLine
    rw [List.takeWhile_append_of_pos hid.hex, List.takeWhile_cons_of_neg (by simp [hblank]), List.append_nil]
  have hdrop : (printLine id s fraction zone).dropWhile lowerHex = ' ' :: printStamp s fraction zone := by
    unfold printLine
    rw [List.dropWhile_append_of_pos hid.hex, List.dropWhile_cons_of_neg (by simp [hblank])]
  have hgap : scanSpaces (' ' :: printStamp s fraction zone) = some (printStamp s fraction zone) := by
    unfold printStamp printThree fourDigits
    rw [List.append_assoc, List.append_assoc]
    exact scanSpaces_digits (by omega) _
  unfold matchCreated
  rw [htake, hdrop, hgap, Option.bind_some, scanStamp_printStamp hs hfraction, if_neg (by simpa using hid.some), Option.map_some]

end Printed

end GitlabReviewer.Orchestrator
