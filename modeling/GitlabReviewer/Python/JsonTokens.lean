import GitlabReviewer.Python.JsonScanner

/-! # Where the strings of a value stand

A string is read from one line of the text and is not longer than what it was
read from. A value takes the head of a text away, and each of its strings was
read behind some quote of it.
-/
namespace GitlabReviewer.Python

/-- A character that stands for itself in a JSON string. -/
def Plain (c : Char) : Prop := 0x20 ≤ c.toNat ∧ c ≠ '"' ∧ c ≠ '\\'

instance : DecidablePred Plain := fun c => by
  unfold Plain
  infer_instance

section Strings
variable {t r : Text}

theorem plain_of_all {s : Text} (h : s.all (fun c => decide (Plain c)) = true) : ∀ c ∈ s, Plain c := by
  intro c hc
  exact of_decide_eq_true (List.all_eq_true.mp h c hc)

theorem parseString_plain {s : Text} (h : ∀ c ∈ s, Plain c) (rest : Text) :
    parseString (s ++ '"' :: rest) = some (s, rest) := by
  have hesc : escapeText false s = s := by
    induction s with
    | nil => rfl
    | cons c s ih =>
      obtain ⟨hmin, hquote, hback⟩ := h c List.mem_cons_self
      have hlookup : shortEscapes.lookup c = none := by
        rw [List.lookup_eq_none_iff]
        intro p hp
        simp only [shortEscapes, List.mem_cons, List.not_mem_nil, or_false] at hp
        rcases hp with rfl | rfl | rfl | rfl | rfl | rfl | rfl
        · simpa using hquote
        · simpa using hback
        all_goals
          rw [bne_iff_ne]
          rintro rfl
          exact absurd hmin (by decide)
      have hnot : ¬ (c.toNat < 0x20 ∨ false = true ∧ 0x7f ≤ c.toNat) := by
        rintro (hlt | ⟨hfalse, -⟩)
        · omega
        · cases hfalse
      have hone : escapeChar false c = [c] := by
        simp only [escapeChar, hlookup, if_neg hnot]
      have htail := ih fun d hd => h d (List.mem_cons_of_mem c hd)
      have hcons : escapeText false (c :: s) = escapeChar false c ++ escapeText false s := by simp [escapeText]
      rw [hcons, hone, htail, List.singleton_append]
  have hread := parseString_escapeText false s rest
  rwa [hesc] at hread

theorem hexValue_min {c : Char} {m : ℕ} (h : hexValue c = some m) : 0x20 ≤ c.toNat := by
  by_contra hlt
  have hlow : ∀ d : Char, 0x20 ≤ d.toNat → ¬ d ≤ c := by
    intro d hd hle
    have hval : d.toNat ≤ c.toNat := UInt32.le_iff_toNat_le.mp hle
    omega
  have hnone : hexValue c = none := by
    simp only [hexValue, hlow '0' (by decide), hlow 'a' (by decide), hlow 'A' (by decide), false_and, if_false]
  rw [hnone] at h
  cases h

theorem hex4_parts {n : ℕ} (h : hex4 t = some (n, r)) :
    ∃ digits, t = digits ++ r ∧ digits.length = 4 ∧ ∀ c ∈ digits, 0x20 ≤ c.toNat := by
  unfold hex4 at h
  split at h
  · rename_i a b c d rest
    split at h
    · rename_i ha hb hc hd
      cases h
      refine ⟨[a, b, c, d], rfl, rfl, ?_⟩
      simp [hexValue_min ha, hexValue_min hb, hexValue_min hc, hexValue_min hd]
    · cases h
  · cases h

/-- The code of a `\u` escape: four digits, or two escapes for a pair. -/
theorem scanUnit_parts {c : Char} (h : scanUnit t = some (c, r)) :
    ∃ code, t = code ++ r ∧ ∀ d ∈ code, 0x20 ≤ d.toNat := by
  unfold scanUnit at h
  split at h
  · cases h
  · rename_i n more hhex
    obtain ⟨digits, rfl, hlen, hmin⟩ := hex4_parts hhex
    split at h
    · split at h
      · split at h
        · rename_i m rest' hlow
          obtain ⟨digits', rfl, hlen', hmin'⟩ := hex4_parts hlow
          split at h
          · obtain ⟨-, rfl⟩ := Prod.mk.inj (Option.some.inj h)
            refine ⟨digits ++ ('\\' :: 'u' :: digits'), by simp, ?_⟩
            intro d hd
            simp only [List.mem_cons, List.mem_append] at hd
            rcases hd with hd | rfl | rfl | hd
            · exact hmin d hd
            · decide
            · decide
            · exact hmin' d hd
          · cases h
        · cases h
      · cases h
    · split at h
      · cases h
      · obtain ⟨-, rfl⟩ := Prod.mk.inj (Option.some.inj h)
        exact ⟨digits, rfl, hmin⟩

theorem simpleEscape_min {c e : Char} (h : simpleEscape e = some c) : 0x20 ≤ e.toNat := by
  unfold simpleEscape at h
  split at h
  · rename_i hslash
    subst hslash
    decide
  · obtain ⟨before, after, hsplit, -⟩ := List.lookup_eq_some_iff.mp h
    have hall : ∀ p ∈ shortEscapes.map Prod.swap, 0x20 ≤ p.1.toNat := by decide
    exact hall (e, c) (by simp [hsplit])

/-- One character of a string is read from itself or from an escape, which is longer. -/
theorem scanChar_parts {c : Char} (h : scanChar t = some (c, r)) :
    ∃ part, t = part ++ r ∧ (∀ d ∈ part, 0x20 ≤ d.toNat) ∧ (part = [c] ∧ c ≠ '\\' ∨ 1 < part.length ∧ '\\' ∈ part) := by
  unfold scanChar at h
  split at h
  · obtain ⟨code, rfl, hmin⟩ := scanUnit_parts h
    refine ⟨'\\' :: 'u' :: code, rfl, ?_, .inr (by simp)⟩
    rw [List.forall_mem_cons, List.forall_mem_cons]
    exact ⟨by decide, by decide, hmin⟩
  · rename_i e rest _
    obtain ⟨d, hd, heq⟩ := Option.map_eq_some_iff.mp h
    cases heq
    refine ⟨['\\', e], rfl, ?_, .inr (by simp)⟩
    rw [List.forall_mem_cons, List.forall_mem_singleton]
    exact ⟨by decide, simpleEscape_min hd⟩
  · rename_i d rest _ _
    split at h
    · cases h
    · rename_i hplain
      cases h
      refine ⟨[c], rfl, ?_, .inl ⟨rfl, fun hc => hplain (.inr hc)⟩⟩
      rw [List.forall_mem_singleton]
      exact not_lt.mp fun hlt => hplain (.inl hlt)
  · cases h

/-- What a string was read from: no shorter, without line breaks, and the same
text if it has the same length or no escapes. -/
theorem scanString_parts {fuel : ℕ} {s : Text} (h : scanString fuel t = some (s, r)) :
    ∃ body, t = body ++ '"' :: r ∧ (∀ c ∈ body, 0x20 ≤ c.toNat) ∧ s.length ≤ body.length ∧
      (s.length = body.length ∨ '\\' ∉ body → s = body ∧ ∀ c ∈ body, Plain c) := by
  induction fuel generalizing t s with
  | zero => cases h
  | succ k ih =>
    cases t with
    | nil => cases h
    | cons d text =>
      by_cases hd : d = '"'
      · subst hd
        cases h
        exact ⟨[], rfl, by simp, le_refl 0, fun _ => ⟨rfl, by simp⟩⟩
      · rw [scanString_cons hd] at h
        split at h
        · cases h
        · rename_i c rest hc
          obtain ⟨⟨s', rest'⟩, hs', heq⟩ := Option.map_eq_some_iff.mp h
          cases heq
          obtain ⟨body, rfl, hmin, hlen, hsame⟩ := ih hs'
          obtain ⟨part, hpart, hpmin, hkind⟩ := scanChar_parts hc
          refine ⟨part ++ body, by rw [hpart, List.append_assoc], ?_, ?_, ?_⟩
          · intro x hx
            rcases List.mem_append.mp hx with hx | hx
            · exact hpmin x hx
            · exact hmin x hx
          · have hone : 1 ≤ part.length := by
              rcases hkind with ⟨rfl, -⟩ | ⟨hlong, -⟩
              · exact le_refl 1
              · omega
            rw [List.length_cons, List.length_append]
            omega
          · intro hwhole
            rcases hkind with ⟨rfl, hback⟩ | ⟨hlong, hback⟩
            · have hbody : s'.length = body.length ∨ '\\' ∉ body := by
                rcases hwhole with hwhole | hwhole
                · left
                  simpa using hwhole
                · right
                  exact fun hmem => hwhole (List.mem_append_right _ hmem)
              obtain ⟨rfl, hplain⟩ := hsame hbody
              obtain ⟨rfl, -⟩ := List.cons.inj hpart
              refine ⟨rfl, ?_⟩
              rw [List.singleton_append, List.forall_mem_cons]
              exact ⟨⟨hpmin d List.mem_cons_self, hd, hback⟩, hplain⟩
            · exfalso
              rcases hwhole with hwhole | hwhole
              · rw [List.length_cons, List.length_append] at hwhole
                omega
              · exact hwhole (List.mem_append_left _ hback)

theorem parseString_parts {s : Text} (h : parseString t = some (s, r)) :
    ∃ body, t = body ++ '"' :: r ∧ (∀ c ∈ body, 0x20 ≤ c.toNat) ∧ s.length ≤ body.length ∧
      (s.length = body.length ∨ '\\' ∉ body → s = body ∧ ∀ c ∈ body, Plain c) := scanString_parts h

theorem parseString_suffix {s : Text} (h : parseString t = some (s, r)) : r <:+ t := by
  obtain ⟨body, rfl, -⟩ := parseString_parts h
  exact (List.suffix_cons _ r).trans (List.suffix_append body _)

theorem skipBlanks_suffix (t : Text) : skipBlanks t <:+ t := List.dropWhile_suffix _

theorem suffix_of_skipBlanks {c : Char} (h : skipBlanks t = c :: r) : r <:+ t := by
  have hs := skipBlanks_suffix t
  rw [h] at hs
  exact (List.suffix_cons c r).trans hs

end Strings

section Values
variable {F : FloatFormat} {t r : Text}

theorem scanFraction_suffix (t : Text) : (scanFraction t).2 <:+ t := by
  unfold scanFraction
  split
  · dsimp only
    split
    · exact List.suffix_rfl
    · exact (List.dropWhile_suffix _).trans (List.suffix_cons _ _)
  · exact List.suffix_rfl

theorem scanExponent_suffix (t : Text) : (scanExponent t).2 <:+ t := by
  cases t with
  | nil => exact List.suffix_rfl
  | cons e text =>
    by_cases he : e = 'e' ∨ e = 'E'
    · simp only [scanExponent, if_pos he]
      generalize List.take _ text = sign
      split
      · exact List.suffix_rfl
      · exact ((List.dropWhile_suffix _).trans (List.drop_suffix _ text)).trans (List.suffix_cons e text)
    · simp only [scanExponent, if_neg he]
      exact List.suffix_rfl

theorem scanNumber_suffix {digits more : Text} (h : scanNumber t = some (digits, more, r)) : r <:+ t := by
  have hunsigned : ∀ {sign body : Text}, scanUnsigned sign body = some (digits, more, r) → r <:+ body := by
    intro sign body hscan
    unfold scanUnsigned at hscan
    dsimp only at hscan
    split at hscan
    · cases hscan
    · rw [← (Prod.mk.inj (Prod.mk.inj (Option.some.inj hscan)).2).2]
      exact ((scanExponent_suffix _).trans (scanFraction_suffix _)).trans (List.drop_suffix _ body)
  unfold scanNumber at h
  split at h
  · exact (hunsigned h).trans (List.suffix_cons _ _)
  · exact hunsigned h

theorem parseNumber_parts {v : Json} (h : parseNumber F t = some (v, r)) : r <:+ t ∧ ∀ s, v ≠ .str s := by
  unfold parseNumber at h
  split at h
  · cases h
  · rename_i digits more rest hscan
    dsimp only at h
    have hsuffix := scanNumber_suffix hscan
    by_cases hmore : more.isEmpty = true
    · rw [if_pos hmore] at h
      by_cases hlen : intMaxStrDigits < (digits.dropWhile (· == '-')).length
      · rw [if_pos hlen] at h
        cases h
      · rw [if_neg hlen] at h
        obtain ⟨rfl, rfl⟩ := Prod.mk.inj (Option.some.inj h)
        exact ⟨hsuffix, fun s => by simp⟩
    · rw [if_neg hmore] at h
      obtain ⟨rfl, rfl⟩ := Prod.mk.inj (Option.some.inj h)
      exact ⟨hsuffix, fun s => by simp⟩

theorem parseAtom_parts {v : Json} (h : parseAtom F t = some (v, r)) : r <:+ t ∧ ∀ s, v ≠ .str s := by
  unfold parseAtom at h
  split at h
  case h_7 => exact parseNumber_parts h
  case h_1 =>
    cases h
    exact ⟨List.suffix_append ['n', 'u', 'l', 'l'] r, fun s => by simp⟩
  case h_2 =>
    cases h
    exact ⟨List.suffix_append ['t', 'r', 'u', 'e'] r, fun s => by simp⟩
  case h_3 =>
    cases h
    exact ⟨List.suffix_append ['f', 'a', 'l', 's', 'e'] r, fun s => by simp⟩
  case h_4 =>
    cases h
    exact ⟨List.suffix_append ['N', 'a', 'N'] r, fun s => by simp⟩
  case h_5 =>
    cases h
    exact ⟨List.suffix_append "Infinity".toList r, fun s => by simp⟩
  case h_6 =>
    cases h
    exact ⟨List.suffix_append "-Infinity".toList r, fun s => by simp⟩

/-- Some quote of the text opens the string. -/
def Occurs (s t : Text) : Prop := ∃ before body rest, t = before ++ '"' :: body ∧ parseString body = some (s, rest)

theorem Occurs.of_suffix {s t t' : Text} (h : Occurs s t) (ht : t <:+ t') : Occurs s t' := by
  obtain ⟨before, body, rest, rfl, hread⟩ := h
  obtain ⟨more, rfl⟩ := ht
  exact ⟨more ++ before, body, rest, (List.append_assoc _ _ _).symm, hread⟩

/-- What is read with some fuel takes the head of the text away, and the strings
that are values stand in the text. -/
structure ReadFrom (F : FloatFormat) (fuel : ℕ) : Prop where
  value {t r : Text} {v : Json} (h : parseValue F fuel t = some (v, r)) : r <:+ t ∧ ∀ s, v = .str s → Occurs s t
  items {t r : Text} {items : List Json} (h : parseItems F fuel t = some (items, r)) : r <:+ t
  fields {t r : Text} {made fields : List (Text × Json)} (h : parseFields F fuel made t = some (fields, r)) :
    r <:+ t ∧ ∀ f ∈ fields, f ∈ made ∨ ∀ s, f.2 = .str s → Occurs s t

theorem readFrom (fuel : ℕ) : ReadFrom F fuel := by
  induction fuel with
  | zero =>
    constructor
    · intro t r v h
      cases h
    · intro t r items h
      cases h
    · intro t r made fields h
      cases h
  | succ k ih =>
    constructor
    · intro t r v h
      cases parseValue_read h with
      | string hs =>
        refine ⟨(parseString_suffix hs).trans (List.suffix_cons _ _), ?_⟩
        rintro s' ⟨⟩
        exact ⟨[], _, _, rfl, hs⟩
      | noItems hskip =>
        exact ⟨(suffix_of_skipBlanks hskip).trans (List.suffix_cons _ _), fun s hs => by cases hs⟩
      | items hskip _ hitems =>
        refine ⟨?_, fun s hs => by cases hs⟩
        exact ((ih.items hitems).trans (hskip ▸ skipBlanks_suffix _)).trans (List.suffix_cons _ _)
      | noFields hskip =>
        exact ⟨(suffix_of_skipBlanks hskip).trans (List.suffix_cons _ _), fun s hs => by cases hs⟩
      | fields hskip hfields =>
        refine ⟨?_, fun s hs => by cases hs⟩
        exact ((ih.fields hfields).1.trans (suffix_of_skipBlanks hskip)).trans (List.suffix_cons _ _)
      | atom _ _ _ hatom =>
        obtain ⟨hsuffix, hne⟩ := parseAtom_parts hatom
        exact ⟨hsuffix, fun s hs => absurd hs (hne s)⟩
    · intro t r items h
      cases parseItems_read h with
      | last hvalue hskip => exact (suffix_of_skipBlanks hskip).trans (ih.value hvalue).1
      | more hvalue hskip hitems =>
        have hrest := (suffix_of_skipBlanks hskip).trans (ih.value hvalue).1
        exact ((ih.items hitems).trans (skipBlanks_suffix _)).trans hrest
    · intro t r made fields h
      -- the new field is read from the text, and so is what follows it
      have hnew : ∀ {key text value rest'}, parseValue F k (skipBlanks text) = some (value, rest') → text <:+ t →
          ∀ f ∈ insertField made key value, f ∈ made ∨ ∀ s, f.2 = .str s → Occurs s t := by
        intro key text value rest' hvalue htext f hf
        rcases mem_insertField hf with hf | rfl
        · exact .inl hf
        · exact .inr fun s hs => ((ih.value hvalue).2 s hs).of_suffix ((skipBlanks_suffix _).trans htext)
      cases parseFields_read h with
      | last hkey hcolon hvalue hskip =>
        have htext := (suffix_of_skipBlanks hcolon).trans (parseString_suffix hkey)
        have hrest := (ih.value hvalue).1.trans ((skipBlanks_suffix _).trans htext)
        exact ⟨(suffix_of_skipBlanks hskip).trans hrest, hnew hvalue htext⟩
      | more hkey hcolon hvalue hskip hquote hfields =>
        have htext := (suffix_of_skipBlanks hcolon).trans (parseString_suffix hkey)
        have hrest := (ih.value hvalue).1.trans ((skipBlanks_suffix _).trans htext)
        have hbody := ((suffix_of_skipBlanks hquote).trans (suffix_of_skipBlanks hskip)).trans hrest
        obtain ⟨hsuffix, hread⟩ := ih.fields hfields
        refine ⟨hsuffix.trans hbody, ?_⟩
        intro f hf
        rcases hread f hf with hf | hf
        · exact hnew hvalue htext f hf
        · exact .inr fun s hs => (hf s hs).of_suffix hbody

end Values

end GitlabReviewer.Python
