import GitlabReviewer.Python.JsonRoundTrip

/-! # What the scanner reads

What has been read stays read when more text follows: a value is recognised at
its end, except for a number, which has to be delimited. So no proper prefix of
a dumped object can be loaded. And what is loaded can be dumped.
-/
namespace GitlabReviewer.Python

section Tokens
variable {t r q : Text}

theorem hex4_append {n : ℕ} (h : hex4 t = some (n, r)) : hex4 (t ++ q) = some (n, r ++ q) := by
  unfold hex4 at h
  split at h
  · rename_i a b c d rest
    split at h
    · rename_i ha hb hc hd
      cases h
      simp only [List.cons_append, hex4, ha, hb, hc, hd]
    · cases h
  · cases h

/-- A high surrogate is completed by the escape of a low one. -/
theorem scanUnit_of_pair {n m : ℕ} {more rest : Text} (hn : hex4 t = some (n, '\\' :: 'u' :: more))
    (hhigh : isHighSurrogate n = true) (hm : hex4 more = some (m, rest)) (hlow : isLowSurrogate m = true) :
    scanUnit t = some (Char.ofNat (0x10000 + (n - 0xd800) * 1024 + (m - 0xdc00)), rest) := by
  unfold scanUnit
  rw [hn]
  simp only [hhigh, if_true]
  rw [hm]
  simp only [hlow, if_true]

theorem scanUnit_of_unit {n : ℕ} {rest : Text} (hn : hex4 t = some (n, rest)) (hhigh : ¬ isHighSurrogate n = true)
    (hlow : ¬ isLowSurrogate n = true) : scanUnit t = some (Char.ofNat n, rest) := by
  unfold scanUnit
  rw [hn]
  simp only [hhigh, hlow, Bool.false_eq_true, if_false]

theorem scanUnit_append {c : Char} (h : scanUnit t = some (c, r)) : scanUnit (t ++ q) = some (c, r ++ q) := by
  unfold scanUnit at h
  cases hhex : hex4 t with
  | none =>
    rw [hhex] at h
    cases h
  | some x =>
    obtain ⟨n, rest⟩ := x
    rw [hhex] at h
    dsimp only at h
    split at h
    · rename_i hhigh
      split at h
      · rename_i more
        cases hlow : hex4 more with
        | none =>
          rw [hlow] at h
          cases h
        | some y =>
          obtain ⟨m, rest⟩ := y
          rw [hlow] at h
          dsimp only at h
          split at h
          · rename_i hm
            obtain ⟨rfl, rfl⟩ := Prod.mk.inj (Option.some.inj h)
            exact scanUnit_of_pair (hex4_append hhex) hhigh (hex4_append hlow) hm
          · cases h
      · cases h
    · rename_i hhigh
      split at h
      · cases h
      · rename_i hlow
        obtain ⟨rfl, rfl⟩ := Prod.mk.inj (Option.some.inj h)
        exact scanUnit_of_unit (hex4_append hhex) hhigh hlow

theorem scanChar_append {c : Char} (h : scanChar t = some (c, r)) : scanChar (t ++ q) = some (c, r ++ q) := by
  unfold scanChar at h
  split at h
  · exact scanUnit_append h
  · rename_i e rest hne
    have hu : e ≠ 'u' := by
      rintro rfl
      exact hne rfl
    obtain ⟨d, hd, heq⟩ := Option.map_eq_some_iff.mp h
    cases heq
    rw [List.cons_append, List.cons_append, scanChar_short hu, hd]
    rfl
  · split at h
    · cases h
    · rename_i hplain
      cases h
      exact scanChar_plain (fun hc => hplain (.inr hc)) (by omega) _
  · cases h

theorem scanString_append {s : Text} {fuel : ℕ} (h : scanString fuel t = some (s, r)) {fuel' : ℕ}
    (hf : fuel ≤ fuel') : scanString fuel' (t ++ q) = some (s, r ++ q) := by
  induction fuel generalizing t s fuel' with
  | zero => cases h
  | succ k ih =>
    obtain ⟨k', rfl⟩ := Nat.exists_eq_succ_of_ne_zero (by omega : fuel' ≠ 0)
    cases t with
    | nil => cases h
    | cons d text =>
      by_cases hd : d = '"'
      · subst hd
        cases h
        rfl
      · rw [scanString_cons hd] at h
        cases hc : scanChar (d :: text) with
        | none =>
          rw [hc] at h
          cases h
        | some x =>
          obtain ⟨c, rest⟩ := x
          rw [hc] at h
          obtain ⟨y, hy, heq⟩ := Option.map_eq_some_iff.mp h
          obtain ⟨s', r'⟩ := y
          cases heq
          have hc' := scanChar_append (q := q) hc
          rw [List.cons_append] at hc'
          rw [List.cons_append, scanString_cons hd, hc']
          dsimp only
          rw [ih hy (by omega)]
          rfl

theorem parseString_append {s : Text} (h : parseString t = some (s, r)) :
    parseString (t ++ q) = some (s, r ++ q) :=
  scanString_append h (by rw [List.length_append]; omega)

theorem skipBlanks_append {c : Char} (h : skipBlanks t = c :: r) : skipBlanks (t ++ q) = c :: (r ++ q) := by
  have hne : ¬ (skipBlanks t).isEmpty = true := by
    rw [h]
    simp
  rw [skipBlanks] at h hne ⊢
  rw [List.dropWhile_append, if_neg hne, h, List.cons_append]

/-- What a structural character follows, blanks or not, is delimited. -/
theorem delimited_of_skipBlanks {c : Char} (h : skipBlanks t = c :: r)
    (hc : isDigit c = false ∧ c ≠ '.' ∧ c ≠ 'e' ∧ c ≠ 'E') : Delimited t ∧ t ≠ [] := by
  cases t with
  | nil => cases h
  | cons d rest =>
    refine ⟨?_, List.cons_ne_nil _ _⟩
    by_cases hblank : isJsonBlank d = true
    · simp only [isJsonBlank, Bool.or_eq_true, beq_iff_eq] at hblank
      rcases hblank with ((rfl | rfl) | rfl) | rfl <;> exact delimited_cons (by decide) _
    · rw [skipBlanks, List.dropWhile_cons_of_neg hblank] at h
      cases h
      exact delimited_cons hc _

theorem takeWhile_append_of_rest {p : Char → Bool} (h : t.dropWhile p ≠ []) :
    (t ++ q).takeWhile p = t.takeWhile p ∧ (t ++ q).dropWhile p = t.dropWhile p ++ q := by
  have hne : ¬ (t.dropWhile p).isEmpty = true := by simpa using h
  constructor
  · rw [List.takeWhile_append]
    split
    · rename_i hlen
      refine absurd ?_ h
      have happ := List.takeWhile_append_dropWhile (p := p) (l := t)
      have hlen' := congrArg List.length happ
      rw [List.length_append] at hlen'
      exact List.eq_nil_of_length_eq_zero (by omega)
    · rfl
  · rw [List.dropWhile_append, if_neg hne]

/-- The digits that end a scan keep their end. -/
theorem digits_append (hr : t.dropWhile isDigit ≠ []) (hdigits : ¬ (t.takeWhile isDigit).isEmpty = true) :
    ¬ ((t ++ q).takeWhile isDigit).isEmpty = true ∧ (t ++ q).takeWhile isDigit = t.takeWhile isDigit ∧
      (t ++ q).dropWhile isDigit = t.dropWhile isDigit ++ q := by
  obtain ⟨htake, hdrop⟩ := takeWhile_append_of_rest (q := q) hr
  rw [htake]
  exact ⟨hdigits, rfl, hdrop⟩

theorem scanExponent_signed {e c : Char} (he : e = 'e' ∨ e = 'E') (hc : c = '+' ∨ c = '-') (body : Text) :
    scanExponent (e :: c :: body) =
      if (body.takeWhile isDigit).isEmpty then ([], e :: c :: body)
      else (e :: c :: body.takeWhile isDigit, body.dropWhile isDigit) := by
  have hsign : (c :: body).head? = some '+' ∨ (c :: body).head? = some '-' := by simpa using hc
  simp only [scanExponent, if_pos he, if_pos hsign]
  rfl

theorem scanExponent_unsigned {e : Char} {body : Text} (he : e = 'e' ∨ e = 'E')
    (hc : ¬ (body.head? = some '+' ∨ body.head? = some '-')) :
    scanExponent (e :: body) =
      if (body.takeWhile isDigit).isEmpty then ([], e :: body)
      else (e :: body.takeWhile isDigit, body.dropWhile isDigit) := by
  simp only [scanExponent, if_pos he, if_neg hc]
  rfl

theorem not_delimited_exponent {e : Char} (he : e = 'e' ∨ e = 'E') (rest : Text) : ¬ Delimited (e :: rest) := by
  intro hd
  rcases he with rfl | rfl
  · exact (hd 'e' rfl).2.2.1 rfl
  · exact (hd 'E' rfl).2.2.2 rfl

theorem scanExponent_append {more : Text} (h : scanExponent t = (more, r)) (hr : r ≠ []) (hd : Delimited r) :
    scanExponent (t ++ q) = (more, r ++ q) := by
  cases t with
  | nil =>
    cases h
    exact absurd rfl hr
  | cons e text =>
    by_cases he : e = 'e' ∨ e = 'E'
    · by_cases hsign : text.head? = some '+' ∨ text.head? = some '-'
      · obtain ⟨c, body, rfl⟩ : ∃ c body, text = c :: body := by
          cases text with
          | nil => simp at hsign
          | cons c body => exact ⟨c, body, rfl⟩
        have hc : c = '+' ∨ c = '-' := by simpa using hsign
        rw [scanExponent_signed he hc] at h
        split at h
        · cases h
          exact absurd hd (not_delimited_exponent he _)
        · rename_i hdigits
          cases h
          obtain ⟨hne, htake, hdrop⟩ := digits_append (q := q) hr hdigits
          rw [List.cons_append, List.cons_append, scanExponent_signed he hc, if_neg hne, htake, hdrop]
      · rw [scanExponent_unsigned he hsign] at h
        split at h
        · cases h
          exact absurd hd (not_delimited_exponent he _)
        · rename_i hdigits
          cases h
          have hsign' : ¬ ((text ++ q).head? = some '+' ∨ (text ++ q).head? = some '-') := by
            have hne : text ≠ [] := by
              rintro rfl
              exact hr rfl
            rwa [List.head?_append_of_ne_nil _ hne]
          obtain ⟨hne, htake, hdrop⟩ := digits_append (q := q) hr hdigits
          rw [List.cons_append, scanExponent_unsigned he hsign', if_neg hne, htake, hdrop]
    · have hplain : ∀ rest, scanExponent (e :: rest) = ([], e :: rest) := by
        intro rest
        simp only [scanExponent, if_neg he]
      rw [hplain] at h
      cases h
      exact hplain (text ++ q)

theorem scanFraction_point (body : Text) :
    scanFraction ('.' :: body) =
      if (body.takeWhile isDigit).isEmpty then ([], '.' :: body)
      else ('.' :: body.takeWhile isDigit, body.dropWhile isDigit) := rfl

theorem scanFraction_append {more : Text} (h : scanFraction t = (more, r)) (hr : r ≠ [])
    (hpoint : r.head? ≠ some '.') : scanFraction (t ++ q) = (more, r ++ q) := by
  cases t with
  | nil =>
    cases h
    exact absurd rfl hr
  | cons c body =>
    by_cases hc : c = '.'
    · subst hc
      rw [scanFraction_point] at h
      split at h
      · cases h
        exact absurd rfl hpoint
      · rename_i hdigits
        cases h
        obtain ⟨hne, htake, hdrop⟩ := digits_append (q := q) hr hdigits
        rw [List.cons_append, scanFraction_point, if_neg hne, htake, hdrop]
    · have hplain : ∀ rest, scanFraction (c :: rest) = ([], c :: rest) := by
        intro rest
        rw [scanFraction]
        intro more heq
        exact hc (List.cons.inj heq).1
      rw [hplain] at h
      cases h
      exact hplain (body ++ q)

theorem scanInteger_append (h : t.drop (scanInteger t).length ≠ []) : scanInteger (t ++ q) = scanInteger t := by
  have hne : t ≠ [] := by
    rintro rfl
    exact h rfl
  unfold scanInteger at h ⊢
  rw [List.head?_append_of_ne_nil _ hne]
  split
  · rfl
  · rename_i hzero
    rw [if_neg hzero] at h
    have hsplit : ∀ {a b : Text}, a ++ b = t → t.drop a.length = b := by
      rintro a b rfl
      exact List.drop_left
    rw [hsplit List.takeWhile_append_dropWhile] at h
    exact (takeWhile_append_of_rest h).1

theorem scanUnsigned_append {sign digits more : Text} (h : scanUnsigned sign t = some (digits, more, r))
    (hr : r ≠ []) (hd : Delimited r) : scanUnsigned sign (t ++ q) = some (digits, more, r ++ q) := by
  unfold scanUnsigned at h ⊢
  dsimp only at h ⊢
  split at h
  · cases h
  · rename_i hdigits
    have hparts := Option.some.inj h
    have hexp := (Prod.mk.inj (Prod.mk.inj hparts).2).2
    have hfractionRest : (scanFraction (t.drop (scanInteger t).length)).2 ≠ [] := by
      intro hnil
      rw [hnil] at hexp
      exact hr hexp.symm
    have hpoint : (scanFraction (t.drop (scanInteger t).length)).2.head? ≠ some '.' := by
      intro hhead
      obtain ⟨body, hbody⟩ := List.head?_eq_some_iff.mp hhead
      have hplain : scanExponent ('.' :: body) = ([], '.' :: body) := by
        simp [scanExponent]
      rw [hbody, hplain] at hexp
      subst hexp
      exact (hd '.' rfl).2.1 rfl
    have hintegerRest : t.drop (scanInteger t).length ≠ [] := by
      intro hnil
      rw [hnil] at hfractionRest
      exact hfractionRest rfl
    have hlen : (scanInteger t).length ≤ t.length := by
      by_contra hlt
      exact hintegerRest (List.drop_eq_nil_of_le (by omega))
    have hfraction := scanFraction_append (q := q) Prod.mk.eta.symm hfractionRest hpoint
    have hexponent := scanExponent_append (q := q) Prod.mk.eta.symm (hexp ▸ hr) (hexp ▸ hd)
    rw [scanInteger_append hintegerRest, if_neg hdigits, List.drop_append_of_le_length hlen, hfraction]
    dsimp only
    rw [hexponent]
    cases hparts
    rfl

theorem scanNumber_append {digits more : Text} (h : scanNumber t = some (digits, more, r)) (hr : r ≠ [])
    (hd : Delimited r) : scanNumber (t ++ q) = some (digits, more, r ++ q) := by
  obtain ⟨c, body, rfl, hc⟩ := head_of_scanNumber h
  by_cases hminus : c = '-'
  · subst hminus
    exact scanUnsigned_append h hr hd
  · have hplain : ∀ rest, scanNumber (c :: rest) = scanUnsigned [] (c :: rest) := by
      intro rest
      rw [scanNumber]
      intro body heq
      exact hminus (List.cons.inj heq).1
    rw [hplain] at h
    rw [List.cons_append, hplain, ← List.cons_append]
    exact scanUnsigned_append h hr hd

variable {F : FloatFormat} {v : Json}

theorem parseNumber_append (h : parseNumber F t = some (v, r)) (hr : r ≠ []) (hd : Delimited r) :
    parseNumber F (t ++ q) = some (v, r ++ q) := by
  unfold parseNumber at h ⊢
  cases hscan : scanNumber t with
  | none =>
    rw [hscan] at h
    cases h
  | some x =>
    obtain ⟨digits, more, rest⟩ := x
    rw [hscan] at h
    dsimp only at h
    have hrest : rest = r := by
      split at h
      · split at h
        · cases h
        · exact (Prod.mk.inj (Option.some.inj h)).2
      · exact (Prod.mk.inj (Option.some.inj h)).2
    subst hrest
    rw [scanNumber_append hscan hr hd]
    dsimp only
    split at h
    · rename_i hmore
      rw [if_pos hmore]
      split at h
      · cases h
      · rename_i hlen
        rw [if_neg hlen]
        cases h
        rfl
    · rename_i hmore
      rw [if_neg hmore]
      cases h
      rfl

theorem parseAtom_append (h : parseAtom F t = some (v, r)) (hr : r ≠ []) (hd : Delimited r) :
    parseAtom F (t ++ q) = some (v, r ++ q) := by
  unfold parseAtom at h
  split at h
  case h_7 =>
    have hnumber := parseNumber_append (q := q) h hr hd
    cases hscan : scanNumber (t ++ q) with
    | none => simp [parseNumber, hscan] at hnumber
    | some x => rw [parseAtom_of_scanNumber F hscan, hnumber]
  all_goals
    cases h
    rfl

end Tokens

section Values
variable {F : FloatFormat}

/-- What is read with some fuel is read with more fuel and more text. -/
structure ReadsOn (F : FloatFormat) (fuel : ℕ) : Prop where
  value {t r : Text} {v : Json} (h : parseValue F fuel t = some (v, r))
    (hr : t.head? = some '\x7b' ∨ r ≠ [] ∧ Delimited r) (fuel' : ℕ) (hf : fuel ≤ fuel') (q : Text) :
    parseValue F fuel' (t ++ q) = some (v, r ++ q)
  items {t r : Text} {items : List Json} (h : parseItems F fuel t = some (items, r)) (fuel' : ℕ) (hf : fuel ≤ fuel')
    (q : Text) : parseItems F fuel' (t ++ q) = some (items, r ++ q)
  fields {t r : Text} {made fields : List (Text × Json)} (h : parseFields F fuel made t = some (fields, r))
    (fuel' : ℕ) (hf : fuel ≤ fuel') (q : Text) : parseFields F fuel' made (t ++ q) = some (fields, r ++ q)

theorem readsOn_zero : ReadsOn F 0 where
  value h := by cases h
  items h := by cases h
  fields h := by cases h

variable {k k' : ℕ} {t r : Text}

theorem parseValue_nil (fuel : ℕ) : parseValue F fuel [] = none := by cases fuel <;> rfl

theorem parseItems_nil (fuel : ℕ) : parseItems F fuel [] = none := by
  cases fuel with
  | zero => rfl
  | succ k => rw [parseItems, parseValue_nil]

/-- A scan that succeeds after blanks keeps what the blanks end at. -/
theorem skipBlanks_append_of_ne_nil (h : skipBlanks t ≠ []) (q : Text) : skipBlanks (t ++ q) = skipBlanks t ++ q := by
  obtain ⟨c, rest, hskip⟩ := List.exists_cons_of_ne_nil h
  rw [skipBlanks_append hskip, hskip, List.cons_append]

/-- How a value is read, by its first letter. -/
inductive ValueRead (F : FloatFormat) (k : ℕ) : Text → Json → Text → Prop
  | string {text s r : Text} (h : parseString text = some (s, r)) : ValueRead F k ('"' :: text) (.str s) r
  | noItems {text r : Text} (hskip : skipBlanks text = ']' :: r) : ValueRead F k ('[' :: text) (.arr []) r
  | items {c : Char} {text rest r : Text} {items : List Json} (hskip : skipBlanks text = c :: rest) (hclose : c ≠ ']')
      (h : parseItems F k (c :: rest) = some (items, r)) : ValueRead F k ('[' :: text) (.arr items) r
  | noFields {text r : Text} (hskip : skipBlanks text = '}' :: r) : ValueRead F k ('\x7b' :: text) (.obj []) r
  | fields {text rest r : Text} {fields : List (Text × Json)} (hskip : skipBlanks text = '"' :: rest)
      (h : parseFields F k [] rest = some (fields, r)) : ValueRead F k ('\x7b' :: text) (.obj fields) r
  | atom {c : Char} {text r : Text} {v : Json} (hquote : c ≠ '"') (hbracket : c ≠ '[') (hbrace : c ≠ '\x7b')
      (h : parseAtom F (c :: text) = some (v, r)) : ValueRead F k (c :: text) v r

inductive ItemsRead (F : FloatFormat) (k : ℕ) (t : Text) : List Json → Text → Prop
  | last {item : Json} {rest r : Text} (hvalue : parseValue F k t = some (item, rest))
      (hskip : skipBlanks rest = ']' :: r) : ItemsRead F k t [item] r
  | more {item : Json} {items : List Json} {rest text r : Text} (hvalue : parseValue F k t = some (item, rest))
      (hskip : skipBlanks rest = ',' :: text) (hitems : parseItems F k (skipBlanks text) = some (items, r)) :
      ItemsRead F k t (item :: items) r

inductive FieldsRead (F : FloatFormat) (k : ℕ) (made : List (Text × Json)) (t : Text) :
    List (Text × Json) → Text → Prop
  | last {key rest text rest' r : Text} {value : Json} (hkey : parseString t = some (key, rest))
      (hcolon : skipBlanks rest = ':' :: text) (hvalue : parseValue F k (skipBlanks text) = some (value, rest'))
      (hskip : skipBlanks rest' = '}' :: r) : FieldsRead F k made t (insertField made key value) r
  | more {key rest text rest' next body r : Text} {value : Json} {fields : List (Text × Json)}
      (hkey : parseString t = some (key, rest)) (hcolon : skipBlanks rest = ':' :: text)
      (hvalue : parseValue F k (skipBlanks text) = some (value, rest')) (hskip : skipBlanks rest' = ',' :: next)
      (hquote : skipBlanks next = '"' :: body)
      (hfields : parseFields F k (insertField made key value) body = some (fields, r)) : FieldsRead F k made t fields r

theorem parseValue_read {v : Json} (h : parseValue F (k + 1) t = some (v, r)) : ValueRead F k t v r := by
  cases t with
  | nil => cases h
  | cons c text =>
    by_cases hquote : c = '"'
    · subst hquote
      obtain ⟨x, hs, heq⟩ := Option.map_eq_some_iff.mp h
      cases heq
      exact .string hs
    by_cases hbracket : c = '['
    · subst hbracket
      cases hskip : skipBlanks text with
      | nil =>
        rw [parseValue, hskip] at h
        obtain ⟨x, hitems, -⟩ := Option.map_eq_some_iff.mp h
        rw [parseItems_nil] at hitems
        cases hitems
      | cons d rest =>
        by_cases hclose : d = ']'
        · subst hclose
          rw [parseValue, hskip] at h
          cases h
          exact .noItems hskip
        · rw [parseValue_array hskip hclose] at h
          obtain ⟨x, hitems, heq⟩ := Option.map_eq_some_iff.mp h
          cases heq
          exact .items hskip hclose hitems
    by_cases hbrace : c = '\x7b'
    · subst hbrace
      rw [parseValue] at h
      split at h
      · rename_i hskip
        cases h
        exact .noFields hskip
      · rename_i hskip
        obtain ⟨x, hfields, heq⟩ := Option.map_eq_some_iff.mp h
        cases heq
        exact .fields hskip hfields
      · cases h
    · rw [parseValue_atom hquote hbracket hbrace] at h
      exact .atom hquote hbracket hbrace h

theorem parseItems_read {items : List Json} (h : parseItems F (k + 1) t = some (items, r)) : ItemsRead F k t items r := by
  rw [parseItems] at h
  split at h
  · cases h
  · rename_i item rest hvalue
    split at h
    · rename_i hskip
      cases h
      exact .last hvalue hskip
    · rename_i hskip
      obtain ⟨x, hitems, heq⟩ := Option.map_eq_some_iff.mp h
      cases heq
      exact .more hvalue hskip hitems
    · cases h

theorem parseFields_read {made fields : List (Text × Json)} (h : parseFields F (k + 1) made t = some (fields, r)) :
    FieldsRead F k made t fields r := by
  rw [parseFields] at h
  split at h
  · cases h
  · rename_i key rest hkey
    split at h
    · rename_i hcolon
      split at h
      · cases h
      · rename_i hvalue
        split at h
        · rename_i hskip
          cases h
          exact .last hkey hcolon hvalue hskip
        · rename_i hskip
          split at h
          · rename_i hquote
            exact .more hkey hcolon hvalue hskip hquote h
          · cases h
        · cases h
    · cases h

theorem value_step (ih : ReadsOn F k) (hk : k ≤ k') {v : Json} (h : parseValue F (k + 1) t = some (v, r))
    (hr : t.head? = some '\x7b' ∨ r ≠ [] ∧ Delimited r) (q : Text) :
    parseValue F (k' + 1) (t ++ q) = some (v, r ++ q) := by
  cases parseValue_read h with
  | string hs =>
    rw [List.cons_append, parseValue, parseString_append hs]
    rfl
  | noItems hskip =>
    rw [List.cons_append, parseValue, skipBlanks_append hskip]
    rfl
  | items hskip hclose hitems =>
    have hitems' := ih.items hitems k' hk q
    rw [List.cons_append] at hitems'
    rw [List.cons_append, parseValue_array (skipBlanks_append hskip) hclose, hitems']
    rfl
  | noFields hskip =>
    rw [List.cons_append, parseValue, skipBlanks_append hskip]
    rfl
  | fields hskip hfields =>
    rw [List.cons_append, parseValue_object (skipBlanks_append hskip), ih.fields hfields k' hk q]
    rfl
  | atom hquote hbracket hbrace hatom =>
    have hend : r ≠ [] ∧ Delimited r := by
      refine hr.resolve_left ?_
      intro hhead
      exact hbrace (Option.some.inj hhead)
    rw [List.cons_append, parseValue_atom hquote hbracket hbrace, ← List.cons_append]
    exact parseAtom_append hatom hend.1 hend.2

theorem items_step (ih : ReadsOn F k) (hk : k ≤ k') {items : List Json}
    (h : parseItems F (k + 1) t = some (items, r)) (q : Text) :
    parseItems F (k' + 1) (t ++ q) = some (items, r ++ q) := by
  cases parseItems_read h with
  | last hvalue hskip =>
    have hend := delimited_of_skipBlanks hskip (by decide)
    exact parseItems_close (ih.value hvalue (.inr ⟨hend.2, hend.1⟩) k' hk q) (skipBlanks_append hskip)
  | @more _ _ _ text _ hvalue hskip hitems =>
    have hend := delimited_of_skipBlanks hskip (by decide)
    have hne : skipBlanks text ≠ [] := by
      intro hnil
      rw [hnil, parseItems_nil] at hitems
      cases hitems
    rw [parseItems_comma (ih.value hvalue (.inr ⟨hend.2, hend.1⟩) k' hk q) (skipBlanks_append hskip),
      skipBlanks_append_of_ne_nil hne, ih.items hitems k' hk q]
    rfl

/-- The value of a field is read on, whatever letter ends it. -/
theorem value_read_on (ih : ReadsOn F k) (hk : k ≤ k') {text rest text' : Text} {value : Json} {c : Char}
    (hvalue : parseValue F k (skipBlanks text) = some (value, rest)) (hskip : skipBlanks rest = c :: text')
    (hc : isDigit c = false ∧ c ≠ '.' ∧ c ≠ 'e' ∧ c ≠ 'E') (q : Text) :
    parseValue F k' (skipBlanks (text ++ q)) = some (value, rest ++ q) := by
  have hend := delimited_of_skipBlanks hskip hc
  have hne : skipBlanks text ≠ [] := by
    intro hnil
    rw [hnil, parseValue_nil] at hvalue
    cases hvalue
  rw [skipBlanks_append_of_ne_nil hne]
  exact ih.value hvalue (.inr ⟨hend.2, hend.1⟩) k' hk q

theorem fields_step (ih : ReadsOn F k) (hk : k ≤ k') {made fields : List (Text × Json)}
    (h : parseFields F (k + 1) made t = some (fields, r)) (q : Text) :
    parseFields F (k' + 1) made (t ++ q) = some (fields, r ++ q) := by
  cases parseFields_read h with
  | last hkey hcolon hvalue hskip =>
    exact parseFields_close (parseString_append hkey) (skipBlanks_append hcolon)
      (value_read_on ih hk hvalue hskip (by decide) q) (skipBlanks_append hskip)
  | more hkey hcolon hvalue hskip hquote hfields =>
    rw [parseFields_comma (parseString_append hkey) (skipBlanks_append hcolon)
      (value_read_on ih hk hvalue hskip (by decide) q) (skipBlanks_append hskip) (skipBlanks_append hquote)]
    exact ih.fields hfields k' hk q

theorem readsOn (fuel : ℕ) : ReadsOn F fuel := by
  induction fuel with
  | zero => exact readsOn_zero
  | succ k ih =>
    constructor
    · intro t r v h hr fuel' hf q
      obtain ⟨k', rfl⟩ := Nat.exists_eq_succ_of_ne_zero (by omega : fuel' ≠ 0)
      exact value_step ih (by omega) h hr q
    · intro t r items h fuel' hf q
      obtain ⟨k', rfl⟩ := Nat.exists_eq_succ_of_ne_zero (by omega : fuel' ≠ 0)
      exact items_step ih (by omega) h q
    · intro t r made fields h fuel' hf q
      obtain ⟨k', rfl⟩ := Nat.exists_eq_succ_of_ne_zero (by omega : fuel' ≠ 0)
      exact fields_step ih (by omega) h q

/-- No text that breaks off inside a dumped object can be loaded. -/
theorem loads_of_append {ascii : Bool} {indent : Option ℕ} {fields : List (Text × Json)} {p q : Text} {v : Json}
    (hd : Dumpable F (.obj fields)) (hsplit : p ++ q = dumps F ascii indent (.obj fields))
    (h : loads F p = some v) : q = [] := by
  obtain ⟨body, hbody⟩ : ∃ body, dumps F ascii indent (.obj fields) = '\x7b' :: body := by
    cases fields with
    | nil => exact ⟨_, rfl⟩
    | cons f fields => exact ⟨_, rfl⟩
  cases p with
  | nil => cases h
  | cons c p =>
    have hc : c = '\x7b' := by
      rw [hbody] at hsplit
      exact (List.cons.inj hsplit).1
    subst hc
    have hblank : skipBlanks ('\x7b' :: p) = '\x7b' :: p := skipBlanks_of_begins ⟨by decide, by decide⟩ p
    unfold loads at h
    rw [hblank] at h
    split at h
    · cases h
    · rename_i value rest hvalue
      have hlen : ('\x7b' :: p).length + 1 ≤ (dumps F ascii indent (.obj fields)).length + 1 := by
        rw [← hsplit, List.length_append]
        omega
      have hlong := (readsOn _).value hvalue (.inl rfl) _ hlen q
      have hfull : parseValue F ((dumps F ascii indent (.obj fields)).length + 1) (dumps F ascii indent (.obj fields)) =
          some (.obj fields, []) := by
        have hread := parseValue_dumpValue ascii indent _ hd 0 ((dumps F ascii indent (.obj fields)).length + 1) []
          (Nat.le_succ _) delimited_nil
        rwa [List.append_nil] at hread
      rw [hsplit, hfull] at hlong
      have hnil := (Prod.mk.inj (Option.some.inj hlong)).2
      exact (List.append_eq_nil_iff.mp hnil.symm).2

theorem readDigits_lt (digits : Text) (h : ∀ c ∈ digits, isDigit c = true) :
    readDigits digits < 10 ^ digits.length := by
  induction digits using List.reverseRecOn with
  | nil => exact Nat.one_pos
  | append_singleton digits c ih =>
    have hlt := ih fun d hd => h d (List.mem_append_left _ hd)
    have hc : isDigit c = true := h c (by simp)
    simp only [isDigit, Bool.and_eq_true, decide_eq_true_eq, Char.le_def] at hc
    have hmax : c.toNat ≤ 57 := by
      have hle : c.val ≤ '9'.val := hc.2
      exact UInt32.le_iff_toNat_le.mp hle
    have hfold : readDigits (digits ++ [c]) = 10 * readDigits digits + (c.toNat - 48) := by
      simp [readDigits]
    rw [hfold, List.length_append, List.length_singleton, pow_succ]
    omega

theorem isDigit_scanInteger (body : Text) : ∀ c ∈ scanInteger body, isDigit c = true := by
  intro c hc
  unfold scanInteger at hc
  split at hc
  · rw [List.mem_singleton.mp hc]
    decide
  · exact List.mem_takeWhile_imp hc

/-- The digits of a number, behind a minus or not. -/
theorem digits_of_scanNumber {digits more : Text} (h : scanNumber t = some (digits, more, r)) :
    ∀ c ∈ digits.dropWhile (· == '-'), isDigit c = true := by
  have hunsigned : ∀ {sign body : Text}, scanUnsigned sign body = some (digits, more, r) →
      digits = sign ++ scanInteger body := by
    intro sign body hscan
    unfold scanUnsigned at hscan
    dsimp only at hscan
    split at hscan
    · cases hscan
    · exact (Prod.mk.inj (Option.some.inj hscan)).1.symm
  have hplain : ∀ body c, c ∈ (scanInteger body).dropWhile (· == '-') → isDigit c = true := by
    intro body c hc
    exact isDigit_scanInteger body c ((List.dropWhile_suffix _).subset hc)
  unfold scanNumber at h
  split at h
  · rename_i body
    rw [hunsigned h, List.singleton_append, List.dropWhile_cons_of_pos (by decide)]
    exact hplain body
  · rw [hunsigned h, List.nil_append]
    exact hplain t

theorem dumpable_of_parseNumber {v : Json} (h : parseNumber F t = some (v, r)) : Dumpable F v := by
  unfold parseNumber at h
  split at h
  · cases h
  · rename_i digits more rest hscan
    dsimp only at h
    by_cases hmore : more.isEmpty = true
    · rw [if_pos hmore] at h
      by_cases hlen : intMaxStrDigits < (digits.dropWhile (· == '-')).length
      · rw [if_pos hlen] at h
        cases h
      · rw [if_neg hlen] at h
        have hlt := readDigits_lt _ (digits_of_scanNumber hscan)
        have hle := Nat.pow_le_pow_right (by omega : 0 < 10) (not_lt.mp hlen)
        obtain ⟨rfl, -⟩ := Prod.mk.inj (Option.some.inj h)
        rw [Dumpable]
        split
        · rw [Int.natAbs_neg, Int.natAbs_natCast]
          omega
        · rw [Int.natAbs_natCast]
          omega
    · rw [if_neg hmore] at h
      obtain ⟨rfl, -⟩ := Prod.mk.inj (Option.some.inj h)
      cases hf : F.read (digits ++ more) with
      | finite q =>
        rw [Dumpable]
        exact F.read_double _ _ hf
      | infinity negative => trivial
      | nan => trivial

theorem dumpable_of_parseAtom {v : Json} (h : parseAtom F t = some (v, r)) : Dumpable F v := by
  unfold parseAtom at h
  split at h
  case h_7 => exact dumpable_of_parseNumber h
  all_goals
    cases h
    trivial

theorem insertField_keys {made : List (Text × Json)} (h : (made.map (·.1)).Nodup) (key : Text) (value : Json) :
    ((insertField made key value).map (·.1)).Nodup := by
  rw [insertField_eq]
  exact Foundation.nodup_setKey h

theorem mem_insertField {made : List (Text × Json)} {key : Text} {value : Json} {f : Text × Json}
    (h : f ∈ insertField made key value) : f ∈ made ∨ f = (key, value) := by
  rw [insertField_eq] at h
  exact (Foundation.mem_setKey h).symm.imp_left And.left

theorem dumpable_insertField {made : List (Text × Json)} (h : ∀ f ∈ made, Dumpable F f.2) (key : Text) {value : Json}
    (hv : Dumpable F value) : ∀ f ∈ insertField made key value, Dumpable F f.2 := by
  intro f hf
  rcases mem_insertField hf with hf | rfl
  · exact h f hf
  · exact hv

/-- Whatever is read with some fuel can be dumped. -/
structure DumpableRead (F : FloatFormat) (fuel : ℕ) : Prop where
  value {t r : Text} {v : Json} (h : parseValue F fuel t = some (v, r)) : Dumpable F v
  items {t r : Text} {items : List Json} (h : parseItems F fuel t = some (items, r)) : ∀ v ∈ items, Dumpable F v
  fields {t r : Text} {made fields : List (Text × Json)} (h : parseFields F fuel made t = some (fields, r))
    (hkeys : (made.map (·.1)).Nodup) (hmade : ∀ f ∈ made, Dumpable F f.2) :
    (fields.map (·.1)).Nodup ∧ ∀ f ∈ fields, Dumpable F f.2

theorem dumpableRead (fuel : ℕ) : DumpableRead F fuel := by
  induction fuel with
  | zero =>
    constructor
    · intro t r v h
      cases h
    · intro t r items h
      cases h
    · intro t r made fields h
      cases h
  | succ k ih =>
    constructor
    · intro t r v h
      cases parseValue_read h with
      | string => trivial
      | noItems => exact ⟨⟩
      | items _ _ hitems =>
        rw [Dumpable, dumpableItems_iff]
        exact ih.items hitems
      | noFields => exact ⟨List.nodup_nil, ⟨⟩⟩
      | fields _ hfields =>
        rw [Dumpable, dumpableFields_iff]
        exact ih.fields hfields List.nodup_nil fun f hf => by cases hf
      | atom _ _ _ hatom => exact dumpable_of_parseAtom hatom
    · intro t r items h v hv
      cases parseItems_read h with
      | last hvalue =>
        rw [List.mem_singleton.mp hv]
        exact ih.value hvalue
      | more hvalue _ hitems =>
        rcases List.mem_cons.mp hv with rfl | hv
        · exact ih.value hvalue
        · exact ih.items hitems v hv
    · intro t r made fields h hkeys hmade
      cases parseFields_read h with
      | last _ _ hvalue => exact ⟨insertField_keys hkeys _ _, dumpable_insertField hmade _ (ih.value hvalue)⟩
      | more _ _ hvalue _ _ hfields =>
        exact ih.fields hfields (insertField_keys hkeys _ _) (dumpable_insertField hmade _ (ih.value hvalue))

theorem dumpable_of_loads {v : Json} (h : loads F t = some v) : Dumpable F v := by
  unfold loads at h
  split at h
  · cases h
  · rename_i value rest hvalue
    split at h
    · cases h
      exact (dumpableRead _).value hvalue
    · cases h

theorem isDigit_ne_newline {c : Char} (h : isDigit c = true) : c ≠ '\n' := by
  rintro rfl
  cases h

theorem newline_notMem_takeWhile (body : Text) : '\n' ∉ body.takeWhile isDigit := by
  intro h
  exact isDigit_ne_newline (List.mem_takeWhile_imp h) rfl

theorem newline_notMem_scanFraction (body : Text) : '\n' ∉ (scanFraction body).1 := by
  unfold scanFraction
  split
  · dsimp only
    split
    · exact List.not_mem_nil
    · intro h
      rcases List.mem_cons.mp h with h | h
      · cases h
      · exact newline_notMem_takeWhile _ h
  · exact List.not_mem_nil

theorem newline_notMem_scanExponent (body : Text) : '\n' ∉ (scanExponent body).1 := by
  cases body with
  | nil => exact List.not_mem_nil
  | cons e text =>
    by_cases he : e = 'e' ∨ e = 'E'
    · have hne : '\n' ≠ e := by
        rintro rfl
        exact absurd he (by decide)
      by_cases hsign : text.head? = some '+' ∨ text.head? = some '-'
      · obtain ⟨c, body, rfl⟩ : ∃ c body, text = c :: body := by
          cases text with
          | nil => simp at hsign
          | cons c body => exact ⟨c, body, rfl⟩
        have hc : c = '+' ∨ c = '-' := by simpa using hsign
        have hnec : '\n' ≠ c := by
          rintro rfl
          exact absurd hc (by decide)
        rw [scanExponent_signed he hc]
        split
        · exact List.not_mem_nil
        · simp only [List.mem_cons, hne, hnec, newline_notMem_takeWhile, or_self, not_false_eq_true]
      · rw [scanExponent_unsigned he hsign]
        split
        · exact List.not_mem_nil
        · simp only [List.mem_cons, hne, newline_notMem_takeWhile, or_self, not_false_eq_true]
    · simp only [scanExponent, if_neg he]
      exact List.not_mem_nil

theorem newline_notMem_number {digits more : Text} (h : scanNumber t = some (digits, more, r)) :
    '\n' ∉ digits ++ more := by
  have hunsigned : ∀ {sign body : Text}, '\n' ∉ sign → scanUnsigned sign body = some (digits, more, r) →
      '\n' ∉ digits ++ more := by
    intro sign body hsign hscan
    unfold scanUnsigned at hscan
    dsimp only at hscan
    split at hscan
    · cases hscan
    · obtain ⟨hdigits, htail⟩ := Prod.mk.inj (Option.some.inj hscan)
      obtain ⟨hmore, -⟩ := Prod.mk.inj htail
      have hinteger : '\n' ∉ scanInteger body := by
        intro hmem
        exact isDigit_ne_newline (isDigit_scanInteger body _ hmem) rfl
      rw [← hdigits, ← hmore]
      simp only [List.mem_append, hsign, hinteger, newline_notMem_scanFraction, newline_notMem_scanExponent,
        or_self, not_false_eq_true]
  unfold scanNumber at h
  split at h
  · exact hunsigned (by decide) h
  · exact hunsigned List.not_mem_nil h

theorem newline_notMem_escapeUnit (n : ℕ) : '\n' ∉ escapeUnit n := by
  have hhex : ∀ m < 16, hexDigit m ≠ '\n' := by decide
  simp only [escapeUnit, List.mem_cons, List.not_mem_nil, not_or]
  refine ⟨by decide, by decide, (hhex _ ?_).symm, (hhex _ ?_).symm, (hhex _ ?_).symm, (hhex _ ?_).symm, not_false⟩
  all_goals omega

theorem newline_notMem_escapeChar (ascii : Bool) (c : Char) : '\n' ∉ escapeChar ascii c := by
  unfold escapeChar
  cases hshort : shortEscapes.lookup c with
  | some e =>
    have hall : ∀ p ∈ shortEscapes, '\n' ∉ ['\\', p.2] := by decide
    obtain ⟨before, after, hsplit, -⟩ := List.lookup_eq_some_iff.mp hshort
    exact hall (c, e) (by simp [hsplit])
  | none =>
    dsimp only
    split
    · split
      · exact newline_notMem_escapeUnit _
      · intro h
        rcases List.mem_append.mp h with h | h
        · exact newline_notMem_escapeUnit _ h
        · exact newline_notMem_escapeUnit _ h
    · intro h
      rw [← List.mem_singleton.mp h] at hshort
      exact absurd hshort (by decide)

theorem newline_notMem_dumpString (ascii : Bool) (s : Text) : '\n' ∉ dumpString ascii s := by
  intro h
  rcases List.mem_cons.mp h with h | h
  · cases h
  · rcases List.mem_append.mp h with h | h
    · obtain ⟨c, -, hc⟩ := List.mem_flatMap.mp h
      exact newline_notMem_escapeChar ascii c hc
    · exact absurd h (by decide)

section Line
variable {ascii : Bool}

theorem newline_notMem_reprInt (n : ℤ) : '\n' ∉ reprInt n := by
  have hscan := newline_notMem_number (scanNumber_reprInt n delimited_nil)
  rwa [List.append_nil] at hscan

mutual
theorem newline_notMem_dumpValue : (v : Json) → Dumpable F v → ∀ level : ℕ, '\n' ∉ dumpValue F ascii none level v
  | .null, _, _ => (by decide : '\n' ∉ "null".toList)
  | .bool true, _, _ => (by decide : '\n' ∉ "true".toList)
  | .bool false, _, _ => (by decide : '\n' ∉ "false".toList)
  | .int n, _, _ => newline_notMem_reprInt n
  | .float (.finite q), h, level => by
      rw [Dumpable] at h
      obtain ⟨digits, more, -, htext, hscan⟩ := scanNumber_repr h delimited_nil
      have hnumber := newline_notMem_number hscan
      rw [htext] at hnumber
      rwa [dumpValue, F.dump_finite]
  | .float (.infinity true), _, _ => (by decide : '\n' ∉ "-Infinity".toList)
  | .float (.infinity false), _, _ => (by decide : '\n' ∉ "Infinity".toList)
  | .float .nan, _, _ => (by decide : '\n' ∉ "NaN".toList)
  | .str s, _, _ => newline_notMem_dumpString ascii s
  | .arr [], _, _ => (by decide : '\n' ∉ "[]".toList)
  | .arr (item :: items), h, level => by
      rw [Dumpable, DumpableItems] at h
      have hitem := newline_notMem_dumpValue item h.1 (level + 1)
      have hitems := newline_notMem_dumpItems items h.2 level
      simp only [dumpValue, gap, List.nil_append, List.mem_cons, List.mem_append, hitem, hitems, or_self]
      decide
  | .obj [], _, _ => (by decide : '\n' ∉ "\x7b\x7d".toList)
  | .obj ((key, value) :: fields), h, level => by
      rw [Dumpable, DumpableFields] at h
      have hkey := newline_notMem_dumpString ascii key
      have hvalue := newline_notMem_dumpValue value h.2.1 (level + 1)
      have hfields := newline_notMem_dumpFields fields h.2.2 level
      simp only [dumpValue, gap, List.nil_append, List.mem_cons, List.mem_append, hkey, hvalue, hfields, or_false,
        false_or]
      decide
theorem newline_notMem_dumpItems : (items : List Json) → DumpableItems F items → ∀ level : ℕ,
    '\n' ∉ dumpItems F ascii none level items
  | [], _, _ => (by decide : '\n' ∉ [']'])
  | item :: items, h, level => by
      rw [DumpableItems] at h
      have hitem := newline_notMem_dumpValue item h.1 (level + 1)
      have hitems := newline_notMem_dumpItems items h.2 level
      simp only [dumpItems, separator, List.mem_append, hitem, hitems, or_false]
      decide
theorem newline_notMem_dumpFields : (fields : List (Text × Json)) → DumpableFields F fields → ∀ level : ℕ,
    '\n' ∉ dumpFields F ascii none level fields
  | [], _, _ => (by decide : '\n' ∉ ['}'])
  | (key, value) :: fields, h, level => by
      rw [DumpableFields] at h
      have hkey := newline_notMem_dumpString ascii key
      have hvalue := newline_notMem_dumpValue value h.1 (level + 1)
      have hfields := newline_notMem_dumpFields fields h.2 level
      simp only [dumpFields, separator, List.mem_append, hkey, hvalue, hfields, or_false]
      decide
end

theorem dumpFields_end (indent : Option ℕ) (level : ℕ) (fields : List (Text × Json)) :
    ∃ body, dumpFields F ascii indent level fields = body ++ ['}'] := by
  induction fields with
  | nil => exact ⟨gap indent level, by rw [dumpFields]⟩
  | cons f fields ih =>
    obtain ⟨key, value⟩ := f
    obtain ⟨body, hbody⟩ := ih
    rw [dumpFields, hbody, ← List.append_assoc]
    exact ⟨_, rfl⟩

/-- An object ends with its brace. -/
theorem dumps_end (indent : Option ℕ) (fields : List (Text × Json)) :
    ∃ body, dumps F ascii indent (.obj fields) = body ++ ['}'] := by
  cases fields with
  | nil => exact ⟨['\x7b'], rfl⟩
  | cons f fields =>
    obtain ⟨key, value⟩ := f
    obtain ⟨body, hbody⟩ := dumpFields_end indent 0 fields
    rw [dumps, dumpValue, hbody, ← List.append_assoc, ← List.cons_append]
    exact ⟨_, rfl⟩

end Line

end Values

end GitlabReviewer.Python
