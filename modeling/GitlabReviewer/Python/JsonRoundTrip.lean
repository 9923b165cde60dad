import GitlabReviewer.Python.JsonText

/-! # What is dumped is loaded

The scanner reads back every text the serializer writes, whatever the strings
contain: each token first, then the values by their structure. The rest of the
text is carried along.
-/
namespace GitlabReviewer.Python

theorem hexValue_hexDigit : ∀ n < 16, hexValue (hexDigit n) = some n := by decide

theorem hex4_escapeUnit {n : ℕ} (h : n < 65536) (rest : Text) :
    hex4 ((escapeUnit n).drop 2 ++ rest) = some (n, rest) := by
  have h1 := hexValue_hexDigit (n / 4096 % 16) (by omega)
  have h2 := hexValue_hexDigit (n / 256 % 16) (by omega)
  have h3 := hexValue_hexDigit (n / 16 % 16) (by omega)
  have h4 := hexValue_hexDigit (n % 16) (by omega)
  have hsum : n / 4096 % 16 * 4096 + n / 256 % 16 * 256 + n / 16 % 16 * 16 + n % 16 = n := by omega
  simp only [escapeUnit, List.drop_succ_cons, List.drop_zero, List.cons_append, List.nil_append, hex4, h1, h2,
    h3, h4, hsum]

theorem scanUnit_escapeUnit {n : ℕ} (h : n < 65536) (hs : n < 0xd800 ∨ 0xdfff < n) (rest : Text) :
    scanUnit ((escapeUnit n).drop 2 ++ rest) = some (Char.ofNat n, rest) := by
  have hhigh : isHighSurrogate n = false := by
    simp only [isHighSurrogate, Bool.and_eq_false_iff, decide_eq_false_iff_not]
    omega
  have hlow : isLowSurrogate n = false := by
    simp only [isLowSurrogate, Bool.and_eq_false_iff, decide_eq_false_iff_not]
    omega
  simp only [scanUnit, hex4_escapeUnit h, hhigh, hlow, Bool.false_eq_true, if_false]

/-- A pair of surrogate escapes stands for one character. -/
theorem scanUnit_pair {a b : ℕ} (ha : a < 1024) (hb : b < 1024) (rest : Text) :
    scanUnit ((escapeUnit (0xd800 + a)).drop 2 ++ (escapeUnit (0xdc00 + b) ++ rest)) =
      some (Char.ofNat (0x10000 + a * 1024 + b), rest) := by
  have hhigh : isHighSurrogate (0xd800 + a) = true := by
    simp only [isHighSurrogate, Bool.and_eq_true, decide_eq_true_eq]
    omega
  have hlow : isLowSurrogate (0xdc00 + b) = true := by
    simp only [isLowSurrogate, Bool.and_eq_true, decide_eq_true_eq]
    omega
  have hunit : escapeUnit (0xdc00 + b) ++ rest = '\\' :: 'u' :: ((escapeUnit (0xdc00 + b)).drop 2 ++ rest) := rfl
  unfold scanUnit
  rw [hex4_escapeUnit (by omega)]
  simp only [hhigh, if_true, hunit]
  rw [hex4_escapeUnit (by omega)]
  simp only [hlow, if_true, Nat.add_sub_cancel_left]

theorem simpleEscape_short {c e : Char} (h : shortEscapes.lookup c = some e) :
    e ≠ 'u' ∧ simpleEscape e = some c := by
  have hall : ∀ p ∈ shortEscapes, p.2 ≠ 'u' ∧ simpleEscape p.2 = some p.1 := by decide
  obtain ⟨before, after, hsplit, -⟩ := List.lookup_eq_some_iff.mp h
  exact hall (c, e) (by simp [hsplit])

theorem toNat_range (c : Char) : c.toNat < 0xd800 ∨ 0xdfff < c.toNat ∧ c.toNat < 0x110000 := c.valid

theorem scanChar_plain {c : Char} (hc : c ≠ '\\') (hmin : 0x20 ≤ c.toNat) (rest : Text) :
    scanChar (c :: rest) = some (c, rest) := by
  have hnot : ¬ (c.toNat < 0x20 ∨ c = '\\') := by
    rintro (hlt | rfl)
    · omega
    · exact hc rfl
  unfold scanChar
  split
  · rename_i heq
    exact absurd (List.cons.inj heq).1 hc
  · rename_i heq
    exact absurd (List.cons.inj heq).1 hc
  · rename_i heq
    cases heq
    rw [if_neg hnot]
  · rename_i heq
    cases heq

theorem scanChar_short {e : Char} (he : e ≠ 'u') (rest : Text) :
    scanChar ('\\' :: e :: rest) = (simpleEscape e).map fun c => (c, rest) := by
  unfold scanChar
  split
  · rename_i heq
    exact absurd (List.cons.inj (List.cons.inj heq).2).1 he
  · rename_i heq
    cases heq
    rfl
  · rename_i hne heq
    cases heq
    exact (hne e rest rfl rfl).elim
  · rename_i heq
    cases heq

/-- The scanner undoes the escape of one character. -/
theorem scanChar_escapeChar (ascii : Bool) (c : Char) (rest : Text) :
    scanChar (escapeChar ascii c ++ rest) = some (c, rest) := by
  unfold escapeChar
  cases hshort : shortEscapes.lookup c with
  | some e =>
    obtain ⟨hu, hsimple⟩ := simpleEscape_short hshort
    dsimp only
    rw [List.cons_append, List.cons_append, List.nil_append, scanChar_short hu, hsimple]
    rfl
  | none =>
    have hback : c ≠ '\\' := by
      rintro rfl
      exact absurd hshort (by decide)
    dsimp only
    split
    · rename_i hesc
      have hrange := toNat_range c
      split
      · rename_i hsmall
        have hunit : escapeUnit c.toNat ++ rest = '\\' :: 'u' :: ((escapeUnit c.toNat).drop 2 ++ rest) := rfl
        rw [hunit, scanChar, scanUnit_escapeUnit hsmall (by omega), Char.ofNat_toNat]
      · rename_i hlarge
        have hsum : 0x10000 + (c.toNat - 0x10000) / 1024 * 1024 + (c.toNat - 0x10000) % 1024 = c.toNat := by
          omega
        have ha : (c.toNat - 0x10000) / 1024 < 1024 := by omega
        have hb : (c.toNat - 0x10000) % 1024 < 1024 := by omega
        generalize (c.toNat - 0x10000) / 1024 = a at hsum ha ⊢
        generalize (c.toNat - 0x10000) % 1024 = b at hsum hb ⊢
        have hunit : escapeUnit (0xd800 + a) ++ (escapeUnit (0xdc00 + b) ++ rest) =
            '\\' :: 'u' :: ((escapeUnit (0xd800 + a)).drop 2 ++ (escapeUnit (0xdc00 + b) ++ rest)) := rfl
        rw [List.append_assoc, hunit, scanChar, scanUnit_pair ha hb, hsum, Char.ofNat_toNat]
    · rename_i hplain
      exact scanChar_plain hback (by omega) rest

theorem escapeChar_head (ascii : Bool) (c : Char) : ∃ d rest, escapeChar ascii c = d :: rest ∧ d ≠ '"' := by
  unfold escapeChar
  cases hshort : shortEscapes.lookup c with
  | some e => exact ⟨'\\', [e], rfl, by decide⟩
  | none =>
    dsimp only
    split
    · split
      · exact ⟨'\\', _, rfl, by decide⟩
      · exact ⟨'\\', _, rfl, by decide⟩
    · refine ⟨c, [], rfl, ?_⟩
      rintro rfl
      exact absurd hshort (by decide)

theorem scanString_cons {fuel : ℕ} {d : Char} {text : Text} (hd : d ≠ '"') :
    scanString (fuel + 1) (d :: text) =
      match scanChar (d :: text) with
      | none => none
      | some (c, rest) => (scanString fuel rest).map fun (s, rest) => (c :: s, rest) := by
  have hother : ∀ rest, d :: text = '"' :: rest → False := by
    intro rest heq
    exact hd (List.cons.inj heq).1
  exact scanString.eq_3 _ _ hother

/-- A string body is read up to its quote. -/
theorem scanString_escapeText (ascii : Bool) (s rest : Text) {fuel : ℕ} (h : s.length < fuel) :
    scanString fuel (escapeText ascii s ++ '"' :: rest) = some (s, rest) := by
  induction s generalizing fuel with
  | nil =>
    obtain ⟨k, rfl⟩ := Nat.exists_eq_succ_of_ne_zero (by omega : fuel ≠ 0)
    rfl
  | cons c s ih =>
    obtain ⟨k, rfl⟩ := Nat.exists_eq_succ_of_ne_zero (by omega : fuel ≠ 0)
    have hk : s.length < k := by
      rw [List.length_cons] at h
      omega
    have hunfold : escapeText ascii (c :: s) ++ '"' :: rest =
        escapeChar ascii c ++ (escapeText ascii s ++ '"' :: rest) := by
      simp [escapeText]
    obtain ⟨d, more, hd, hquote⟩ := escapeChar_head ascii c
    have hscan := scanChar_escapeChar ascii c (escapeText ascii s ++ '"' :: rest)
    rw [hd, List.cons_append] at hscan
    rw [hunfold, hd, List.cons_append, scanString_cons hquote, hscan]
    dsimp only
    rw [ih hk]
    rfl

theorem length_le_escapeText (ascii : Bool) (s : Text) : s.length ≤ (escapeText ascii s).length := by
  induction s with
  | nil => exact Nat.zero_le _
  | cons c s ih =>
    obtain ⟨d, more, hd, -⟩ := escapeChar_head ascii c
    have hunfold : escapeText ascii (c :: s) = escapeChar ascii c ++ escapeText ascii s := by simp [escapeText]
    rw [hunfold, hd, List.length_append, List.length_cons, List.length_cons]
    omega

theorem parseString_escapeText (ascii : Bool) (s rest : Text) :
    parseString (escapeText ascii s ++ '"' :: rest) = some (s, rest) := by
  have hlen := length_le_escapeText ascii s
  apply scanString_escapeText
  rw [List.length_append]
  omega

theorem isDigit_ofNat : ∀ d < 10, isDigit (Char.ofNat (48 + d)) = true ∧ (Char.ofNat (48 + d)).toNat = 48 + d := by
  decide

theorem decimal_eq {n : ℕ} (h : n ≠ 0) :
    decimal n = (Nat.digits 10 n).reverse.map fun d => Char.ofNat (48 + d) := if_neg h

theorem isDigit_decimal (n : ℕ) : ∀ c ∈ decimal n, isDigit c = true := by
  intro c hc
  by_cases h : n = 0
  · subst h
    have hc' : c = '0' := by simpa [decimal] using hc
    subst hc'
    decide
  · rw [decimal_eq h] at hc
    obtain ⟨d, hd, rfl⟩ := List.mem_map.mp hc
    exact (isDigit_ofNat d (Nat.digits_lt_base (by omega) (List.mem_reverse.mp hd))).1

theorem decimal_ne_nil (n : ℕ) : decimal n ≠ [] := by
  by_cases h : n = 0
  · subst h
    simp [decimal]
  · rw [decimal_eq h]
    have hne : Nat.digits 10 n ≠ [] := Nat.digits_ne_nil_iff_ne_zero.mpr h
    simpa using hne

/-- Only zero begins with a zero. -/
theorem head_decimal {n : ℕ} (h : n ≠ 0) : (decimal n).head? ≠ some '0' := by
  have hne : Nat.digits 10 n ≠ [] := Nat.digits_ne_nil_iff_ne_zero.mpr h
  have hlast := Nat.getLast_digit_ne_zero 10 h
  have hlt : (Nat.digits 10 n).getLast hne < 10 := Nat.digits_lt_base (by omega) (List.getLast_mem hne)
  rw [decimal_eq h, List.head?_map, List.head?_reverse, List.getLast?_eq_some_getLast hne, Option.map_some]
  intro heq
  have hnat := congrArg Char.toNat (Option.some.inj heq)
  rw [(isDigit_ofNat _ hlt).2] at hnat
  have hzero : '0'.toNat = 48 := rfl
  omega

theorem isSpace_of_isDigit {c : Char} (h : isDigit c = true) : isSpace c = false := by
  simp only [isDigit, Bool.and_eq_true, decide_eq_true_eq] at h
  have hmin : 48 ≤ c.toNat := UInt32.le_iff_toNat_le.mp h.1
  have hmax : c.toNat ≤ 57 := UInt32.le_iff_toNat_le.mp h.2
  simp only [isSpace, Bool.or_eq_false_iff, Bool.and_eq_false_iff, decide_eq_false_iff_not, beq_eq_false_iff_ne]
  omega

theorem readDigits_decimal (n : ℕ) : readDigits (decimal n) = n := by
  by_cases h : n = 0
  · subst h
    rfl
  · have hfold : ∀ ds : List ℕ, (∀ d ∈ ds, d < 10) →
        readDigits (ds.reverse.map fun d => Char.ofNat (48 + d)) = Nat.ofDigits 10 ds := by
      intro ds hds
      induction ds with
      | nil => rfl
      | cons d ds ih =>
        have hd := (isDigit_ofNat d (hds d List.mem_cons_self)).2
        have htail := ih fun e he => hds e (List.mem_cons_of_mem d he)
        unfold readDigits at htail ⊢
        rw [List.reverse_cons, List.map_append, List.foldl_append, htail, Nat.ofDigits_cons]
        simp only [List.map_cons, List.map_nil, List.foldl_cons, List.foldl_nil, hd]
        omega
    rw [decimal_eq h, hfold _ fun d hd => Nat.digits_lt_base (by omega) hd, Nat.ofDigits_digits]

theorem length_decimal {n : ℕ} (h : n < 10 ^ intMaxStrDigits) : (decimal n).length ≤ intMaxStrDigits := by
  by_cases hn : n = 0
  · subst hn
    decide
  · rw [decimal_eq hn, List.length_map, List.length_reverse, Nat.digits_length_le_iff (by omega)]
    exact h

theorem Delimited.not_digit {rest : Text} (h : Delimited rest) : rest.takeWhile isDigit = [] := by
  cases rest with
  | nil => rfl
  | cons c rest =>
    have hc := (h c rfl).1
    rw [List.takeWhile_cons, hc]
    rfl

theorem Delimited.scanFraction {rest : Text} (h : Delimited rest) : scanFraction rest = ([], rest) := by
  unfold Python.scanFraction
  split
  · exact absurd rfl (h '.' rfl).2.1
  · rfl

theorem Delimited.scanExponent {rest : Text} (h : Delimited rest) : scanExponent rest = ([], rest) := by
  cases rest with
  | nil => rfl
  | cons c rest =>
    have hnot : ¬ (c = 'e' ∨ c = 'E') := by
      rintro (rfl | rfl)
      · exact (h 'e' rfl).2.2.1 rfl
      · exact (h 'E' rfl).2.2.2 rfl
    simp only [Python.scanExponent, if_neg hnot]

theorem scanInteger_decimal (n : ℕ) {rest : Text} (h : Delimited rest) :
    scanInteger (decimal n ++ rest) = decimal n := by
  by_cases hn : n = 0
  · subst hn
    rfl
  · have hhead : (decimal n ++ rest).head? ≠ some '0' := by
      rw [List.head?_append_of_ne_nil _ (decimal_ne_nil n)]
      exact head_decimal hn
    rw [scanInteger, if_neg hhead, List.takeWhile_append_of_pos (isDigit_decimal n), h.not_digit,
      List.append_nil]

theorem scanUnsigned_decimal (sign : Text) (n : ℕ) {rest : Text} (h : Delimited rest) :
    scanUnsigned sign (decimal n ++ rest) = some (sign ++ decimal n, [], rest) := by
  have hne : (decimal n).isEmpty = false := by simpa using decimal_ne_nil n
  simp only [scanUnsigned, scanInteger_decimal n h, hne, List.drop_left, h.scanFraction, h.scanExponent]
  rfl

theorem minus_of_isDigit {c : Char} (h : isDigit c = true) : c ≠ '-' := by
  rintro rfl
  exact absurd h (by decide)

theorem scanNumber_reprInt (n : ℤ) {rest : Text} (h : Delimited rest) :
    scanNumber (reprInt n ++ rest) = some (reprInt n, [], rest) := by
  unfold reprInt
  split
  · rw [List.cons_append, scanNumber]
    exact scanUnsigned_decimal ['-'] n.natAbs h
  · cases hd : decimal n.natAbs with
    | nil => exact absurd hd (decimal_ne_nil _)
    | cons c digits =>
      have hc : c ≠ '-' := minus_of_isDigit (isDigit_decimal n.natAbs c (by simp [hd]))
      have hscan := scanUnsigned_decimal [] n.natAbs h
      rw [hd, List.cons_append] at hscan
      rw [List.cons_append, scanNumber]
      · exact hscan
      · intro body heq
        exact hc (List.cons.inj heq).1

/-- A number begins with a minus or a digit. -/
theorem head_of_scanNumber {text : Text} {x : Text × Text × Text} (h : scanNumber text = some x) :
    ∃ c rest, text = c :: rest ∧ (c = '-' ∧ scanUnsigned ['-'] rest = some x ∨ isDigit c = true) := by
  unfold scanNumber at h
  split at h
  · exact ⟨_, _, rfl, .inl ⟨rfl, h⟩⟩
  · cases text with
    | nil => cases h
    | cons c rest =>
      refine ⟨c, rest, rfl, .inr ?_⟩
      by_contra hc
      have hnil : scanInteger (c :: rest) = [] := by
        have hzero : (c :: rest).head? ≠ some '0' := by
          intro heq
          rw [List.head?_cons, Option.some.injEq] at heq
          subst heq
          exact hc (by decide)
        rw [scanInteger, if_neg hzero, List.takeWhile_cons_of_neg hc]
      simp [scanUnsigned, hnil] at h

/-- A number is none of the constants. -/
theorem parseAtom_of_scanNumber (F : FloatFormat) {text : Text} {x : Text × Text × Text}
    (h : scanNumber text = some x) : parseAtom F text = parseNumber F text := by
  obtain ⟨c, rest, rfl, hc⟩ := head_of_scanNumber h
  unfold parseAtom
  split
  case h_7 => rfl
  case h_6 _ _ heq =>
    cases heq
    rcases hc with ⟨-, hscan⟩ | hc
    · cases hscan
    · exact absurd hc (by decide)
  all_goals
    rename_i heq
    cases heq
    rcases hc with ⟨hc, -⟩ | hc
    · exact absurd hc (by decide)
    · exact absurd hc (by decide)

theorem parseNumber_reprInt (F : FloatFormat) {n : ℤ} (hn : n.natAbs < 10 ^ intMaxStrDigits) {rest : Text}
    (h : Delimited rest) : parseNumber F (reprInt n ++ rest) = some (.int n, rest) := by
  have hlen := length_decimal hn
  have hread := readDigits_decimal n.natAbs
  have hkeep : (decimal n.natAbs).dropWhile (· == '-') = decimal n.natAbs := by
    cases hd : decimal n.natAbs with
    | nil => rfl
    | cons c digits =>
      have hc : c ≠ '-' := minus_of_isDigit (isDigit_decimal n.natAbs c (by simp [hd]))
      rw [List.dropWhile_cons_of_neg (by simpa using hc)]
  unfold parseNumber
  rw [scanNumber_reprInt n h]
  by_cases hneg : n < 0
  · have hbody : (reprInt n).dropWhile (· == '-') = decimal n.natAbs := by
      rw [reprInt, if_pos hneg, List.dropWhile_cons_of_pos (by decide), hkeep]
    have hhead : (reprInt n).head? = some '-' := by rw [reprInt, if_pos hneg, List.head?_cons]
    simp only [List.isEmpty_nil, if_true, hbody, hhead, hread, if_neg (not_lt.mpr hlen)]
    congr 3
    omega
  · have hbody : (reprInt n).dropWhile (· == '-') = decimal n.natAbs := by rw [reprInt, if_neg hneg, hkeep]
    have hhead : (reprInt n).head? ≠ some '-' := by
      rw [reprInt, if_neg hneg]
      cases hd : decimal n.natAbs with
      | nil => simp
      | cons c digits =>
        have hc : c ≠ '-' := minus_of_isDigit (isDigit_decimal n.natAbs c (by simp [hd]))
        simpa using hc
    simp only [List.isEmpty_nil, if_true, hbody, if_neg hhead, hread, if_neg (not_lt.mpr hlen)]
    congr 3
    omega

section Values
variable (F : FloatFormat) (ascii : Bool) (indent : Option ℕ)

mutual
/-- The values `json.dumps` writes and the model holds as they are: short
integers, floats that are doubles, and no key twice. -/
def Dumpable : Json → Prop
  | .int n => n.natAbs < 10 ^ intMaxStrDigits
  | .float (.finite q) => F.double q
  | .arr items => DumpableItems items
  | .obj fields => (fields.map (·.1)).Nodup ∧ DumpableFields fields
  | _ => True
def DumpableItems : List Json → Prop
  | [] => True
  | item :: items => Dumpable item ∧ DumpableItems items
def DumpableFields : List (Text × Json) → Prop
  | [] => True
  | (_, value) :: fields => Dumpable value ∧ DumpableFields fields
end

theorem dumpableItems_iff (items : List Json) : DumpableItems F items ↔ ∀ item ∈ items, Dumpable F item := by
  induction items with
  | nil => simp [DumpableItems]
  | cons item items ih => simp [DumpableItems, ih]

theorem dumpableFields_iff (fields : List (Text × Json)) :
    DumpableFields F fields ↔ ∀ f ∈ fields, Dumpable F f.2 := by
  induction fields with
  | nil => simp [DumpableFields]
  | cons f fields ih =>
    obtain ⟨key, value⟩ := f
    simp [DumpableFields, ih]

variable {F}

/-- A character that begins a value. -/
def Begins (c : Char) : Prop := isJsonBlank c = false ∧ c ≠ ']'

theorem begins_of_isDigit {c : Char} (h : isDigit c = true) : Begins c := by
  constructor
  · by_contra hblank
    simp only [isJsonBlank, Bool.not_eq_false, Bool.or_eq_true, beq_iff_eq] at hblank
    rcases hblank with ((rfl | rfl) | rfl) | rfl <;> exact absurd h (by decide)
  · rintro rfl
    exact absurd h (by decide)

theorem begins_of_scanNumber {text : Text} {x : Text × Text × Text} (h : scanNumber text = some x) :
    ∃ c rest, text = c :: rest ∧ Begins c ∧ c ≠ '"' ∧ c ≠ '[' ∧ c ≠ '\x7b' := by
  obtain ⟨c, rest, rfl, hc⟩ := head_of_scanNumber h
  refine ⟨c, rest, rfl, ?_⟩
  rcases hc with ⟨rfl, -⟩ | hc
  · exact ⟨⟨by decide, by decide⟩, by decide, by decide, by decide⟩
  · refine ⟨begins_of_isDigit hc, ?_, ?_, ?_⟩ <;>
    · rintro rfl
      exact absurd hc (by decide)

theorem delimited_nil : Delimited [] := by
  rintro c ⟨⟩

theorem delimited_cons {c : Char} (hc : isDigit c = false ∧ c ≠ '.' ∧ c ≠ 'e' ∧ c ≠ 'E') (rest : Text) :
    Delimited (c :: rest) := by
  rintro d ⟨⟩
  exact hc

theorem scanNumber_repr {q : ℚ} (h : F.double q) {rest : Text} (hr : Delimited rest) :
    ∃ digits more, more ≠ [] ∧ digits ++ more = F.repr q ∧ scanNumber (F.repr q ++ rest) = some (digits, more, rest) :=
  F.literal q h rest hr

theorem dumpValue_begins {v : Json} (h : Dumpable F v) (level : ℕ) :
    ∃ c rest, dumpValue F ascii indent level v = c :: rest ∧ Begins c := by
  cases v with
  | null => exact ⟨_, _, rfl, by decide, by decide⟩
  | bool b => cases b <;> exact ⟨_, _, rfl, by decide, by decide⟩
  | int n =>
    have hscan := scanNumber_reprInt n delimited_nil
    obtain ⟨c, rest, htext, hc, -⟩ := begins_of_scanNumber hscan
    rw [List.append_nil] at htext
    exact ⟨c, rest, by rw [dumpValue, htext], hc⟩
  | float f =>
    cases f with
    | finite q =>
      rw [Dumpable] at h
      obtain ⟨digits, more, -, -, hscan⟩ := scanNumber_repr h delimited_nil
      obtain ⟨c, rest, htext, hc, -⟩ := begins_of_scanNumber hscan
      rw [List.append_nil] at htext
      exact ⟨c, rest, by rw [dumpValue, F.dump_finite, htext], hc⟩
    | infinity negative => cases negative <;> exact ⟨_, _, rfl, by decide, by decide⟩
    | nan => exact ⟨_, _, rfl, by decide, by decide⟩
  | str s => exact ⟨_, _, rfl, by decide, by decide⟩
  | arr items => cases items <;> exact ⟨_, _, rfl, by decide, by decide⟩
  | obj fields =>
    cases fields with
    | nil => exact ⟨_, _, rfl, by decide, by decide⟩
    | cons f fields => exact ⟨_, _, rfl, by decide, by decide⟩

theorem skipBlanks_of_begins {c : Char} (h : Begins c) (rest : Text) : skipBlanks (c :: rest) = c :: rest := by
  rw [skipBlanks, List.dropWhile_cons_of_neg (by simp [h.1])]

theorem skipBlanks_append_of_blank {blanks : Text} (h : ∀ c ∈ blanks, isJsonBlank c = true) (text : Text) :
    skipBlanks (blanks ++ text) = skipBlanks text :=
  List.dropWhile_append_of_pos h

theorem isJsonBlank_gap (level : ℕ) : ∀ c ∈ gap indent level, isJsonBlank c = true := by
  intro c hc
  cases indent with
  | none => cases hc
  | some width =>
    rcases List.mem_cons.mp hc with rfl | hc
    · decide
    · rw [List.eq_of_mem_replicate hc]
      decide

theorem skipBlanks_gap (level : ℕ) (text : Text) : skipBlanks (gap indent level ++ text) = skipBlanks text :=
  skipBlanks_append_of_blank (isJsonBlank_gap indent level) text

/-- A separator is a comma and blanks. -/
theorem separator_eq (level : ℕ) :
    ∃ blanks, separator indent level = ',' :: blanks ∧ ∀ c ∈ blanks, isJsonBlank c = true := by
  cases indent with
  | none => exact ⟨[' '], rfl, List.all_eq_true.mp rfl⟩
  | some width => exact ⟨gap (some width) level, rfl, isJsonBlank_gap (some width) level⟩

theorem skipBlanks_dumpValue {v : Json} (h : Dumpable F v) (level : ℕ) (rest : Text) :
    skipBlanks (dumpValue F ascii indent level v ++ rest) = dumpValue F ascii indent level v ++ rest := by
  obtain ⟨c, more, htext, hc⟩ := dumpValue_begins ascii indent h level
  rw [htext, List.cons_append, skipBlanks_of_begins hc]

theorem skipBlanks_space (text : Text) : skipBlanks (' ' :: text) = skipBlanks text := rfl
theorem skipBlanks_colon (text : Text) : skipBlanks (':' :: text) = ':' :: text := rfl
theorem skipBlanks_quote (text : Text) : skipBlanks ('"' :: text) = '"' :: text := rfl

theorem delimited_of_blank {blanks rest : Text} (h : ∀ c ∈ blanks, isJsonBlank c = true) (hr : Delimited rest) :
    Delimited (blanks ++ rest) := by
  cases blanks with
  | nil => exact hr
  | cons c blanks =>
    have hblank := h c List.mem_cons_self
    simp only [isJsonBlank, Bool.or_eq_true, beq_iff_eq] at hblank
    rcases hblank with ((rfl | rfl) | rfl) | rfl <;> exact delimited_cons (by decide) _

theorem delimited_dumpItems (level : ℕ) (items : List Json) (rest : Text) :
    Delimited (dumpItems F ascii indent level items ++ rest) := by
  cases items with
  | nil =>
    rw [dumpItems, List.append_assoc]
    exact delimited_of_blank (isJsonBlank_gap indent level) (delimited_cons (by decide) _)
  | cons item items =>
    obtain ⟨blanks, hsep, -⟩ := separator_eq indent (level + 1)
    rw [dumpItems, hsep]
    exact delimited_cons (by decide) _

theorem delimited_dumpFields (level : ℕ) (fields : List (Text × Json)) (rest : Text) :
    Delimited (dumpFields F ascii indent level fields ++ rest) := by
  cases fields with
  | nil =>
    rw [dumpFields, List.append_assoc]
    exact delimited_of_blank (isJsonBlank_gap indent level) (delimited_cons (by decide) _)
  | cons f fields =>
    obtain ⟨blanks, hsep, -⟩ := separator_eq indent (level + 1)
    rw [dumpFields, hsep]
    exact delimited_cons (by decide) _

theorem length_dumpItems (level : ℕ) (items : List Json) : 0 < (dumpItems F ascii indent level items).length := by
  cases items with
  | nil => simp [dumpItems]
  | cons item items =>
    obtain ⟨blanks, hsep, -⟩ := separator_eq indent (level + 1)
    simp [dumpItems, hsep]

theorem length_dumpFields (level : ℕ) (fields : List (Text × Json)) :
    0 < (dumpFields F ascii indent level fields).length := by
  cases fields with
  | nil => simp [dumpFields]
  | cons f fields => simp [dumpFields]

theorem parseValue_atom {fuel : ℕ} {c : Char} {text : Text} (h1 : c ≠ '"') (h2 : c ≠ '[') (h3 : c ≠ '\x7b') :
    parseValue F (fuel + 1) (c :: text) = parseAtom F (c :: text) := by
  rw [parseValue]
  · intro rest heq
    exact h1 (List.cons.inj heq).1
  · intro rest heq
    exact h2 (List.cons.inj heq).1
  · intro rest heq
    exact h3 (List.cons.inj heq).1

theorem parseValue_number {fuel : ℕ} {text : Text} {x : Text × Text × Text} (h : scanNumber text = some x) :
    parseValue F (fuel + 1) text = parseNumber F text := by
  obtain ⟨c, rest, rfl, -, h1, h2, h3⟩ := begins_of_scanNumber h
  rw [parseValue_atom h1 h2 h3, parseAtom_of_scanNumber F h]

theorem insertField_new {made : List (Text × Json)} {key : Text} (h : key ∉ made.map (·.1)) (value : Json) :
    insertField made key value = made ++ [(key, value)] := by
  rw [insertField_eq, Foundation.setKey_of_not_mem h]

theorem parseNumber_repr {q : ℚ} (h : F.double q) {rest : Text} (hr : Delimited rest) :
    parseNumber F (F.repr q ++ rest) = some (.float (.finite q), rest) := by
  obtain ⟨digits, more, hmore, htext, hscan⟩ := scanNumber_repr h hr
  have hne : more.isEmpty = false := by simpa using hmore
  unfold parseNumber
  rw [hscan]
  dsimp only
  rw [hne, htext, F.read_repr q h]
  rfl

theorem parseValue_array {fuel : ℕ} {text : Text} {c : Char} {rest : Text} (h : skipBlanks text = c :: rest)
    (hc : c ≠ ']') :
    parseValue F (fuel + 1) ('[' :: text) =
      (parseItems F fuel (c :: rest)).map fun (items, rest) => (.arr items, rest) := by
  rw [parseValue, h]
  split
  · rename_i heq
    exact absurd (List.cons.inj heq).1 hc
  · rfl

theorem parseValue_object {fuel : ℕ} {text rest : Text} (h : skipBlanks text = '"' :: rest) :
    parseValue F (fuel + 1) ('\x7b' :: text) =
      (parseFields F fuel [] rest).map fun (fields, rest) => (.obj fields, rest) := by
  rw [parseValue, h]
  rfl

theorem parseItems_close {fuel : ℕ} {text rest rest' : Text} {item : Json}
    (hv : parseValue F fuel text = some (item, rest)) (hs : skipBlanks rest = ']' :: rest') :
    parseItems F (fuel + 1) text = some ([item], rest') := by
  simp only [parseItems, hv, hs]

theorem parseItems_comma {fuel : ℕ} {text rest rest' : Text} {item : Json}
    (hv : parseValue F fuel text = some (item, rest)) (hs : skipBlanks rest = ',' :: rest') :
    parseItems F (fuel + 1) text =
      (parseItems F fuel (skipBlanks rest')).map fun (items, rest) => (item :: items, rest) := by
  simp only [parseItems, hv, hs]

theorem parseFields_close {fuel : ℕ} {made : List (Text × Json)} {text key rest rest' rest'' rest₃ : Text}
    {value : Json} (hk : parseString text = some (key, rest)) (hc : skipBlanks rest = ':' :: rest')
    (hv : parseValue F fuel (skipBlanks rest') = some (value, rest'')) (hs : skipBlanks rest'' = '}' :: rest₃) :
    parseFields F (fuel + 1) made text = some (insertField made key value, rest₃) := by
  simp only [parseFields, hk, hc, hv, hs]

theorem parseFields_comma {fuel : ℕ} {made : List (Text × Json)} {text key rest rest' rest'' rest₃ more : Text}
    {value : Json} (hk : parseString text = some (key, rest)) (hc : skipBlanks rest = ':' :: rest')
    (hv : parseValue F fuel (skipBlanks rest') = some (value, rest'')) (hs : skipBlanks rest'' = ',' :: rest₃)
    (hq : skipBlanks rest₃ = '"' :: more) :
    parseFields F (fuel + 1) made text = parseFields F fuel (insertField made key value) more := by
  simp only [parseFields, hk, hc, hv, hs, hq]

variable (F) in
/-- The value is read back wherever its text stands. -/
def Reads (v : Json) : Prop :=
  ∀ (level fuel : ℕ) (rest : Text), (dumpValue F ascii indent level v).length ≤ fuel → Delimited rest →
    parseValue F fuel (dumpValue F ascii indent level v ++ rest) = some (v, rest)

/-- Reading a text takes some fuel. -/
theorem fuel_of_dumpValue {v : Json} (h : Dumpable F v) {level fuel : ℕ}
    (hf : (dumpValue F ascii indent level v).length ≤ fuel) : ∃ k, fuel = k + 1 := by
  obtain ⟨c, more, htext, -⟩ := dumpValue_begins ascii indent h level
  rw [htext, List.length_cons] at hf
  exact Nat.exists_eq_succ_of_ne_zero (by omega)

mutual
theorem parseValue_dumpValue : (v : Json) → Dumpable F v → Reads F ascii indent v
  | .null, h, level, fuel, rest, hf, _ => by
      obtain ⟨k, rfl⟩ := fuel_of_dumpValue ascii indent h hf
      rfl
  | .bool true, h, level, fuel, rest, hf, _ => by
      obtain ⟨k, rfl⟩ := fuel_of_dumpValue ascii indent h hf
      rfl
  | .bool false, h, level, fuel, rest, hf, _ => by
      obtain ⟨k, rfl⟩ := fuel_of_dumpValue ascii indent h hf
      rfl
  | .int n, h, level, fuel, rest, hf, hr => by
      obtain ⟨k, rfl⟩ := fuel_of_dumpValue ascii indent h hf
      rw [dumpValue, parseValue_number (scanNumber_reprInt n hr)]
      exact parseNumber_reprInt F h hr
  | .float (.finite q), h, level, fuel, rest, hf, hr => by
      obtain ⟨k, rfl⟩ := fuel_of_dumpValue ascii indent h hf
      rw [Dumpable] at h
      obtain ⟨digits, more, -, -, hscan⟩ := scanNumber_repr h hr
      rw [dumpValue, F.dump_finite, parseValue_number hscan]
      exact parseNumber_repr h hr
  | .float (.infinity true), h, level, fuel, rest, hf, _ => by
      obtain ⟨k, rfl⟩ := fuel_of_dumpValue ascii indent h hf
      rfl
  | .float (.infinity false), h, level, fuel, rest, hf, _ => by
      obtain ⟨k, rfl⟩ := fuel_of_dumpValue ascii indent h hf
      rfl
  | .float .nan, h, level, fuel, rest, hf, _ => by
      obtain ⟨k, rfl⟩ := fuel_of_dumpValue ascii indent h hf
      rfl
  | .str s, h, level, fuel, rest, hf, _ => by
      obtain ⟨k, rfl⟩ := fuel_of_dumpValue ascii indent h hf
      rw [dumpValue, dumpString, List.cons_append, List.cons_append, List.append_assoc, List.singleton_append,
        parseValue, parseString_escapeText]
      rfl
  | .arr [], h, level, fuel, rest, hf, _ => by
      obtain ⟨k, rfl⟩ := fuel_of_dumpValue ascii indent h hf
      rfl
  | .arr (item :: items), h, level, fuel, rest, hf, _ => by
      obtain ⟨k, rfl⟩ := fuel_of_dumpValue ascii indent h hf
      rw [Dumpable, DumpableItems] at h
      have hlen : (dumpValue F ascii indent (level + 1) item ++ dumpItems F ascii indent level items).length ≤ k := by
        simp only [dumpValue, List.length_cons, List.length_append] at hf ⊢
        omega
      have hitems := parseItems_dumpItems items h.2 item h.1 (parseValue_dumpValue item h.1) level k rest hlen
      obtain ⟨c, more, htext, hc⟩ := dumpValue_begins ascii indent h.1 (level + 1)
      have hopen : dumpValue F ascii indent level (.arr (item :: items)) ++ rest = '[' :: (gap indent (level + 1) ++
          (dumpValue F ascii indent (level + 1) item ++ dumpItems F ascii indent level items ++ rest)) := by
        simp only [dumpValue, List.cons_append, List.append_assoc]
      rw [htext, List.cons_append, List.cons_append] at hopen hitems
      have hskip := skipBlanks_of_begins hc (more ++ dumpItems F ascii indent level items ++ rest)
      rw [← skipBlanks_gap indent (level + 1)] at hskip
      rw [hopen, parseValue_array hskip hc.2, hitems]
      rfl
  | .obj [], h, level, fuel, rest, hf, _ => by
      obtain ⟨k, rfl⟩ := fuel_of_dumpValue ascii indent h hf
      rfl
  | .obj ((key, value) :: fields), h, level, fuel, rest, hf, _ => by
      obtain ⟨k, rfl⟩ := fuel_of_dumpValue ascii indent h hf
      rw [Dumpable, DumpableFields] at h
      have hlen : (dumpValue F ascii indent (level + 1) value ++ dumpFields F ascii indent level fields).length ≤ k := by
        simp only [dumpValue, dumpString, List.length_cons, List.length_append] at hf ⊢
        omega
      have hfields := parseFields_dumpFields fields h.2.2 [] key value (by simpa using h.1) h.2.1
        (parseValue_dumpValue value h.2.1) level k rest hlen
      have hopen : dumpValue F ascii indent level (.obj ((key, value) :: fields)) ++ rest =
          '\x7b' :: (gap indent (level + 1) ++ '"' :: (escapeText ascii key ++ '"' :: (": ".toList ++
            dumpValue F ascii indent (level + 1) value ++ dumpFields F ascii indent level fields ++ rest))) := by
        simp only [dumpValue, dumpString, List.cons_append, List.append_assoc, List.nil_append]
      rw [hopen, parseValue_object ((skipBlanks_gap indent (level + 1) _).trans (skipBlanks_quote _)), hfields]
      rfl
theorem parseItems_dumpItems : (items : List Json) → DumpableItems F items → ∀ (item : Json), Dumpable F item →
    Reads F ascii indent item → ∀ (level fuel : ℕ) (rest : Text),
      (dumpValue F ascii indent (level + 1) item ++ dumpItems F ascii indent level items).length ≤ fuel →
        parseItems F fuel (dumpValue F ascii indent (level + 1) item ++ dumpItems F ascii indent level items ++ rest) =
          some (item :: items, rest)
  | items, hs, item, h, hreads, level, fuel, rest, hf => by
      have hpos := length_dumpItems ascii indent (F := F) level items
      rw [List.length_append] at hf
      obtain ⟨k, rfl⟩ := Nat.exists_eq_succ_of_ne_zero (by omega : fuel ≠ 0)
      have hitem := hreads (level + 1) k (dumpItems F ascii indent level items ++ rest) (by omega)
        (delimited_dumpItems ascii indent level items rest)
      rw [List.append_assoc]
      match items, hs with
      | [], _ =>
        refine parseItems_close hitem ?_
        rw [dumpItems, List.append_assoc, skipBlanks_gap]
        rfl
      | next :: items, hs =>
        rw [DumpableItems] at hs
        obtain ⟨blanks, hsep, hblanks⟩ := separator_eq indent (level + 1)
        have hlen : (dumpValue F ascii indent (level + 1) next ++ dumpItems F ascii indent level items).length ≤ k := by
          simp only [dumpItems, hsep, List.length_append, List.length_cons] at hf ⊢
          omega
        have hrest := parseItems_dumpItems items hs.2 next hs.1 (parseValue_dumpValue next hs.1) level k rest hlen
        have hnext : skipBlanks (dumpItems F ascii indent level (next :: items) ++ rest) = ',' :: (blanks ++
            (dumpValue F ascii indent (level + 1) next ++ (dumpItems F ascii indent level items ++ rest))) := by
          simp only [dumpItems, hsep, List.cons_append, List.append_assoc]
          rfl
        rw [parseItems_comma hitem hnext, skipBlanks_append_of_blank hblanks,
          skipBlanks_dumpValue ascii indent hs.1, ← List.append_assoc, hrest]
        rfl
theorem parseFields_dumpFields : (fields : List (Text × Json)) → DumpableFields F fields →
    ∀ (made : List (Text × Json)) (key : Text) (value : Json), (made.map (·.1) ++ key :: fields.map (·.1)).Nodup →
    Dumpable F value → Reads F ascii indent value → ∀ (level fuel : ℕ) (rest : Text),
      (dumpValue F ascii indent (level + 1) value ++ dumpFields F ascii indent level fields).length ≤ fuel →
      parseFields F fuel made (escapeText ascii key ++ '"' :: (": ".toList ++
        dumpValue F ascii indent (level + 1) value ++ dumpFields F ascii indent level fields ++ rest)) =
          some (made ++ (key, value) :: fields, rest)
  | fields, hs, made, key, value, hnodup, h, hreads, level, fuel, rest, hf => by
      have hpos := length_dumpFields ascii indent (F := F) level fields
      rw [List.length_append] at hf
      obtain ⟨k, rfl⟩ := Nat.exists_eq_succ_of_ne_zero (by omega : fuel ≠ 0)
      have hvalue := hreads (level + 1) k (dumpFields F ascii indent level fields ++ rest) (by omega)
        (delimited_dumpFields ascii indent level fields rest)
      have hcolon : ": ".toList ++ dumpValue F ascii indent (level + 1) value ++
          dumpFields F ascii indent level fields ++ rest =
          ':' :: ' ' :: (dumpValue F ascii indent (level + 1) value ++
            (dumpFields F ascii indent level fields ++ rest)) := by simp
      have hnew : key ∉ made.map (·.1) := by
        intro hmem
        exact (List.nodup_append.mp hnodup).2.2 key hmem key List.mem_cons_self rfl
      have hkey := parseString_escapeText ascii key (':' :: ' ' :: (dumpValue F ascii indent (level + 1) value ++
        (dumpFields F ascii indent level fields ++ rest)))
      rw [← skipBlanks_dumpValue ascii indent h, ← skipBlanks_space] at hvalue
      rw [hcolon]
      match fields, hs with
      | [], _ =>
        rw [← insertField_new hnew]
        refine parseFields_close hkey (skipBlanks_colon _) hvalue ?_
        rw [dumpFields, List.append_assoc, skipBlanks_gap]
        rfl
      | (key', value') :: fields, hs =>
        rw [DumpableFields] at hs
        obtain ⟨blanks, hsep, hblanks⟩ := separator_eq indent (level + 1)
        have hlen : (dumpValue F ascii indent (level + 1) value' ++
            dumpFields F ascii indent level fields).length ≤ k := by
          simp only [dumpFields, hsep, List.length_append, List.length_cons] at hf ⊢
          omega
        have hrest := parseFields_dumpFields fields hs.2 (made ++ [(key, value)]) key' value'
          (by simpa using hnodup) hs.1 (parseValue_dumpValue value' hs.1) level k rest hlen
        have hnext : skipBlanks (dumpFields F ascii indent level ((key', value') :: fields) ++ rest) =
            ',' :: (blanks ++ '"' :: (escapeText ascii key' ++ '"' :: (": ".toList ++
              dumpValue F ascii indent (level + 1) value' ++ dumpFields F ascii indent level fields ++ rest))) := by
          simp only [dumpFields, dumpString, hsep, List.cons_append, List.append_assoc, List.nil_append]
          rfl
        rw [parseFields_comma hkey (skipBlanks_colon _) hvalue hnext
          ((skipBlanks_append_of_blank hblanks _).trans (skipBlanks_quote _)), insertField_new hnew, hrest, List.append_assoc]
        rfl
end

/-- What `json.dumps` writes, `json.loads` reads, blanks around it or not. -/
theorem loads_dumps {v : Json} (h : Dumpable F v) (before after : Text)
    (hb : ∀ c ∈ before, isJsonBlank c = true) (ha : ∀ c ∈ after, isJsonBlank c = true) :
    loads F (before ++ dumps F ascii indent v ++ after) = some v := by
  have hafter : Delimited after := by
    have hend := delimited_of_blank ha delimited_nil
    rwa [List.append_nil] at hend
  have hdone : skipBlanks after = [] := by
    have hall := skipBlanks_append_of_blank ha []
    rwa [List.append_nil] at hall
  have hread := parseValue_dumpValue ascii indent v h 0
    ((before ++ dumps F ascii indent v ++ after).length + 1) after
    (by simp only [dumps, List.length_append]; omega) hafter
  unfold loads
  rw [List.append_assoc, skipBlanks_append_of_blank hb, dumps, skipBlanks_dumpValue ascii indent h,
    ← List.append_assoc]
  rw [dumps] at hread
  rw [hread]
  simp [hdone]

end Values

end GitlabReviewer.Python
