import GitlabReviewer.Foundation.Dictionary
import GitlabReviewer.Python.Json
import Mathlib.Data.Nat.Digits.Lemmas

/-! # JSON as text

`json.dumps`, with an indentation or without, and `json.loads` as the scanner of
the standard library reads. The texts of floats are taken as they are; lone
surrogates are no characters here, so their escapes are refused.
-/
namespace GitlabReviewer.Python

def hexDigit (n : ℕ) : Char := if n < 10 then Char.ofNat (48 + n) else Char.ofNat (87 + n)

def hexValue (c : Char) : Option ℕ :=
  if '0' ≤ c ∧ c ≤ '9' then some (c.toNat - 48)
  else if 'a' ≤ c ∧ c ≤ 'f' then some (c.toNat - 87)
  else if 'A' ≤ c ∧ c ≤ 'F' then some (c.toNat - 55)
  else none

/-- `\uXXXX`. -/
def escapeUnit (n : ℕ) : Text :=
  ['\\', 'u', hexDigit (n / 4096 % 16), hexDigit (n / 256 % 16), hexDigit (n / 16 % 16), hexDigit (n % 16)]

def shortEscapes : List (Char × Char) :=
  [('"', '"'), ('\\', '\\'), ('\n', 'n'), ('\r', 'r'), ('\t', 't'), (Char.ofNat 12, 'f'), (Char.ofNat 8, 'b')]

/-- What `json.dumps` writes for one character of a string. -/
def escapeChar (ascii : Bool) (c : Char) : Text :=
  match shortEscapes.lookup c with
  | some e => ['\\', e]
  | none =>
      if c.toNat < 0x20 ∨ ascii = true ∧ 0x7f ≤ c.toNat then
        if c.toNat < 0x10000 then escapeUnit c.toNat
        else escapeUnit (0xd800 + (c.toNat - 0x10000) / 1024) ++ escapeUnit (0xdc00 + (c.toNat - 0x10000) % 1024)
      else [c]

def escapeText (ascii : Bool) (s : Text) : Text := s.flatMap (escapeChar ascii)

def dumpString (ascii : Bool) (s : Text) : Text := '"' :: escapeText ascii s ++ ['"']

def hex4 : Text → Option (ℕ × Text)
  | a :: b :: c :: d :: rest =>
      match hexValue a, hexValue b, hexValue c, hexValue d with
      | some a, some b, some c, some d => some (a * 4096 + b * 256 + c * 16 + d, rest)
      | _, _, _, _ => none
  | _ => none

def isHighSurrogate (n : ℕ) : Bool := 0xd800 ≤ n && n ≤ 0xdbff
def isLowSurrogate (n : ℕ) : Bool := 0xdc00 ≤ n && n ≤ 0xdfff

/-- The character of a `\u` escape and what follows it. -/
def scanUnit (text : Text) : Option (Char × Text) :=
  match hex4 text with
  | none => none
  | some (n, rest) =>
      if isHighSurrogate n then
        match rest with
        | '\\' :: 'u' :: more =>
            match hex4 more with
            | some (m, rest) =>
                if isLowSurrogate m then
                  some (Char.ofNat (0x10000 + (n - 0xd800) * 1024 + (m - 0xdc00)), rest)
                else none
            | none => none
        | _ => none
      else if isLowSurrogate n then none
      else some (Char.ofNat n, rest)

def simpleEscape (c : Char) : Option Char :=
  if c = '/' then some '/' else (shortEscapes.map Prod.swap).lookup c

/-- One character of a string body. -/
def scanChar : Text → Option (Char × Text)
  | '\\' :: 'u' :: rest => scanUnit rest
  | '\\' :: c :: rest => (simpleEscape c).map fun c => (c, rest)
  | c :: rest => if c.toNat < 0x20 ∨ c = '\\' then none else some (c, rest)
  | [] => none

def scanString : ℕ → Text → Option (Text × Text)
  | 0, _ => none
  | _ + 1, '"' :: rest => some ([], rest)
  | fuel + 1, text =>
      match scanChar text with
      | none => none
      | some (c, rest) => (scanString fuel rest).map fun (s, rest) => (c :: s, rest)

/-- A string body up to its closing quote. -/
def parseString (text : Text) : Option (Text × Text) := scanString (text.length + 1) text

def isDigit (c : Char) : Bool := '0' ≤ c && c ≤ '9'

def decimal (n : ℕ) : Text := if n = 0 then ['0'] else (Nat.digits 10 n).reverse.map fun d => Char.ofNat (48 + d)

def readDigits (digits : Text) : ℕ := digits.foldl (fun n c => 10 * n + (c.toNat - 48)) 0

/-- `int.__repr__`. -/
def reprInt (n : ℤ) : Text := if n < 0 then '-' :: decimal n.natAbs else decimal n.natAbs

/-- The longest text that `int` converts. -/
def intMaxStrDigits : ℕ := 4300

/-- A fraction at the head of a text; empty if there is none. -/
def scanFraction : Text → Text × Text
  | '.' :: rest =>
      let digits := rest.takeWhile isDigit
      if digits.isEmpty then ([], '.' :: rest) else ('.' :: digits, rest.dropWhile isDigit)
  | text => ([], text)

def scanExponent : Text → Text × Text
  | [] => ([], [])
  | e :: text =>
      if e = 'e' ∨ e = 'E' then
        let sign := text.take (if text.head? = some '+' ∨ text.head? = some '-' then 1 else 0)
        let digits := (text.drop sign.length).takeWhile isDigit
        if digits.isEmpty then ([], e :: text)
        else (e :: (sign ++ digits), (text.drop sign.length).dropWhile isDigit)
      else ([], e :: text)

/-- The digits of an integer: a zero stands alone. -/
def scanInteger (body : Text) : Text := if body.head? = some '0' then ['0'] else body.takeWhile isDigit

def scanUnsigned (sign body : Text) : Option (Text × Text × Text) :=
  let digits := scanInteger body
  if digits.isEmpty then none
  else
    let fraction := scanFraction (body.drop digits.length)
    let exponent := scanExponent fraction.2
    some (sign ++ digits, fraction.1 ++ exponent.1, exponent.2)

/-- The integer part, the fraction with the exponent, and what follows. -/
def scanNumber : Text → Option (Text × Text × Text)
  | '-' :: body => scanUnsigned ['-'] body
  | text => scanUnsigned [] text

/-- No digit, fraction or exponent follows. -/
def Delimited (rest : Text) : Prop := ∀ c ∈ rest.head?, isDigit c = false ∧ c ≠ '.' ∧ c ≠ 'e' ∧ c ≠ 'E'

/-- `float.__repr__` on the doubles and `float` of a literal: the repr of a
double is a literal with a fraction or an exponent, and reads back. -/
structure FloatFormat where
  double : ℚ → Prop
  repr : ℚ → Text
  read : Text → Float
  literal : ∀ q, double q → ∀ rest, Delimited rest →
    ∃ digits more, more ≠ [] ∧ digits ++ more = repr q ∧
      scanNumber (repr q ++ rest) = some (digits, more, rest)
  read_repr : ∀ q, double q → read (repr q) = .finite q
  read_double : ∀ text q, read text = .finite q → double q

namespace FloatFormat

/-- What `json.dumps` writes for a float. -/
def dump (F : FloatFormat) : Float → Text
  | .finite q => F.repr q
  | .infinity false => "Infinity".toList
  | .infinity true => "-Infinity".toList
  | .nan => "NaN".toList

theorem dump_finite (F : FloatFormat) (q : ℚ) : F.dump (.finite q) = F.repr q := rfl

/-- A format without any double, where no float occurs. -/
def none : FloatFormat where
  double _ := False
  repr _ := []
  read _ := .nan
  literal _ h := h.elim
  read_repr _ h := h.elim
  read_double _ _ h := by cases h

end FloatFormat

/-- A number; integers that are too long are refused. -/
def parseNumber (F : FloatFormat) (text : Text) : Option (Json × Text) :=
  match scanNumber text with
  | none => none
  | some (digits, more, rest) =>
      if more.isEmpty then
        let body := digits.dropWhile (· == '-')
        if intMaxStrDigits < body.length then none
        else some (.int (if digits.head? = some '-' then -(readDigits body : ℤ) else readDigits body), rest)
      else some (.float (F.read (digits ++ more)), rest)

/-- A constant or a number. -/
def parseAtom (F : FloatFormat) : Text → Option (Json × Text)
  | 'n' :: 'u' :: 'l' :: 'l' :: rest => some (.null, rest)
  | 't' :: 'r' :: 'u' :: 'e' :: rest => some (.bool true, rest)
  | 'f' :: 'a' :: 'l' :: 's' :: 'e' :: rest => some (.bool false, rest)
  | 'N' :: 'a' :: 'N' :: rest => some (.float .nan, rest)
  | 'I' :: 'n' :: 'f' :: 'i' :: 'n' :: 'i' :: 't' :: 'y' :: rest => some (.float (.infinity false), rest)
  | '-' :: 'I' :: 'n' :: 'f' :: 'i' :: 'n' :: 'i' :: 't' :: 'y' :: rest =>
      some (.float (.infinity true), rest)
  | text => parseNumber F text

/-- What stands before an item, or before the closing bracket, on a line of its own. -/
def gap (indent : Option ℕ) (level : ℕ) : Text :=
  match indent with
  | none => []
  | some width => '\n' :: List.replicate (width * level) ' '

def separator (indent : Option ℕ) (level : ℕ) : Text :=
  match indent with
  | none => ", ".toList
  | some _ => ',' :: gap indent level

section Values
variable (F : FloatFormat) (ascii : Bool) (indent : Option ℕ)

mutual
/-- `json.dumps(value, ensure_ascii=ascii, indent=indent)`, nested `level` deep. -/
def dumpValue : ℕ → Json → Text
  | _, .null => "null".toList
  | _, .bool true => "true".toList
  | _, .bool false => "false".toList
  | _, .int n => reprInt n
  | _, .float f => F.dump f
  | _, .str s => dumpString ascii s
  | _, .arr [] => "[]".toList
  | level, .arr (item :: items) =>
      '[' :: (gap indent (level + 1) ++ dumpValue (level + 1) item ++ dumpItems level items)
  | _, .obj [] => "\x7b\x7d".toList
  | level, .obj ((key, value) :: fields) =>
      '\x7b' :: (gap indent (level + 1) ++ dumpString ascii key ++ ": ".toList ++ dumpValue (level + 1) value ++
        dumpFields level fields)
/-- The rest of a list, with its bracket. -/
def dumpItems : ℕ → List Json → Text
  | level, [] => gap indent level ++ [']']
  | level, item :: items => separator indent (level + 1) ++ dumpValue (level + 1) item ++ dumpItems level items
/-- The rest of an object, with its brace. -/
def dumpFields : ℕ → List (Text × Json) → Text
  | level, [] => gap indent level ++ ['}']
  | level, (key, value) :: fields =>
      separator indent (level + 1) ++ dumpString ascii key ++ ": ".toList ++ dumpValue (level + 1) value ++
        dumpFields level fields
end

/-- `json.dumps(value, ensure_ascii=ascii, indent=indent)`. -/
def dumps (value : Json) : Text := dumpValue F ascii indent 0 value

def isJsonBlank (c : Char) : Bool := c == ' ' || c == '\t' || c == '\n' || c == '\r'
def skipBlanks (text : Text) : Text := text.dropWhile isJsonBlank

/-- `d[key] = value` of a dictionary in insertion order. -/
def insertField (fields : List (Text × Json)) (key : Text) (value : Json) : List (Text × Json) :=
  if fields.any (·.1 == key) then fields.map fun f => if f.1 == key then (key, value) else f
  else fields ++ [(key, value)]

theorem insertField_eq (fields : List (Text × Json)) (key : Text) (value : Json) :
    insertField fields key value = Foundation.setKey fields key value := rfl

mutual
/-- The value at the head of a text, and what follows it. -/
def parseValue : ℕ → Text → Option (Json × Text)
  | 0, _ => none
  | _ + 1, '"' :: rest => (parseString rest).map fun (s, rest) => (.str s, rest)
  | fuel + 1, '[' :: rest =>
      match skipBlanks rest with
      | ']' :: rest => some (.arr [], rest)
      | rest => (parseItems fuel rest).map fun (items, rest) => (.arr items, rest)
  | fuel + 1, '\x7b' :: rest =>
      match skipBlanks rest with
      | '}' :: rest => some (.obj [], rest)
      | '"' :: rest => (parseFields fuel [] rest).map fun (fields, rest) => (.obj fields, rest)
      | _ => none
  | _ + 1, text => parseAtom F text
/-- The items up to the closing bracket. -/
def parseItems : ℕ → Text → Option (List Json × Text)
  | 0, _ => none
  | fuel + 1, text =>
      match parseValue fuel text with
      | none => none
      | some (item, rest) =>
          match skipBlanks rest with
          | ']' :: rest => some ([item], rest)
          | ',' :: rest => (parseItems fuel (skipBlanks rest)).map fun (items, rest) => (item :: items, rest)
          | _ => none
/-- The fields from the body of a key up to the closing brace. -/
def parseFields : ℕ → List (Text × Json) → Text → Option (List (Text × Json) × Text)
  | 0, _, _ => none
  | fuel + 1, made, text =>
      match parseString text with
      | none => none
      | some (key, rest) =>
          match skipBlanks rest with
          | ':' :: rest =>
              match parseValue fuel (skipBlanks rest) with
              | none => none
              | some (value, rest) =>
                  match skipBlanks rest with
                  | '}' :: rest => some (insertField made key value, rest)
                  | ',' :: rest =>
                      match skipBlanks rest with
                      | '"' :: rest => parseFields fuel (insertField made key value) rest
                      | _ => none
                  | _ => none
          | _ => none
end

/-- `json.loads`; none is a text it refuses. -/
def loads (text : Text) : Option Json :=
  match parseValue F (text.length + 1) (skipBlanks text) with
  | none => none
  | some (value, rest) => if (skipBlanks rest).isEmpty then some value else none

end Values

end GitlabReviewer.Python
