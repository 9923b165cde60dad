import GitlabReviewer.Python.JsonScanner

/-! # Control characters in dumped JSON

`json.dumps` escapes the control characters of strings, so the only one in what it
writes is the newline of an indented line.
-/
namespace GitlabReviewer.Python

/-- The text has no control character but the newline. -/
abbrev Quiet (t : Text) : Prop := ∀ z ∈ t, 0x20 ≤ z.toNat ∨ z = '\n'

theorem quiet_of_all {t : Text} (h : (t.all fun z => decide (0x20 ≤ z.toNat)) = true) : Quiet t := fun z hz =>
  .inl (of_decide_eq_true (List.all_eq_true.mp h z hz))

section Numbers
variable {t r : Text}

theorem quiet_of_isDigit {c : Char} (h : isDigit c = true) : 0x20 ≤ c.toNat := by
  simp only [isDigit, Bool.and_eq_true, decide_eq_true_eq] at h
  have hmin : 48 ≤ c.toNat := UInt32.le_iff_toNat_le.mp h.1
  omega

theorem quiet_digits (h : ∀ c ∈ t, isDigit c = true) : Quiet t := fun z hz => .inl (quiet_of_isDigit (h z hz))

theorem quiet_takeWhile (body : Text) : Quiet (body.takeWhile isDigit) := quiet_digits fun _ hc => List.mem_takeWhile_imp hc

theorem quiet_scanFraction (body : Text) : Quiet (scanFraction body).1 := by
  unfold scanFraction
  split
  · dsimp only
    split
    · exact List.forall_mem_nil _
    · exact List.forall_mem_cons.mpr ⟨.inl (by decide), quiet_takeWhile _⟩
  · exact List.forall_mem_nil _

theorem quiet_exponent {e : Char} (h : e = 'e' ∨ e = 'E') : 0x20 ≤ e.toNat ∨ e = '\n' := by
  rcases h with rfl | rfl <;> decide

theorem quiet_scanExponent (body : Text) : Quiet (scanExponent body).1 := by
  cases body with
  | nil => exact List.forall_mem_nil _
  | cons e text =>
    by_cases he : e = 'e' ∨ e = 'E'
    · by_cases hsign : text.head? = some '+' ∨ text.head? = some '-'
      · obtain ⟨c, body, rfl⟩ : ∃ c body, text = c :: body := by
          cases text with
          | nil => simp at hsign
          | cons c body => exact ⟨c, body, rfl⟩
        have hc : c = '+' ∨ c = '-' := by simpa using hsign
        have hquiet : 0x20 ≤ c.toNat ∨ c = '\n' := by
          rcases hc with rfl | rfl <;> decide
        rw [scanExponent_signed he hc]
        split
        · exact List.forall_mem_nil _
        · exact List.forall_mem_cons.mpr ⟨quiet_exponent he, List.forall_mem_cons.mpr ⟨hquiet, quiet_takeWhile _⟩⟩
      · rw [scanExponent_unsigned he hsign]
        split
        · exact List.forall_mem_nil _
        · exact List.forall_mem_cons.mpr ⟨quiet_exponent he, quiet_takeWhile _⟩
    · simp only [scanExponent, if_neg he]
      exact List.forall_mem_nil _

theorem quiet_scanUnsigned {sign body digits more : Text} (hsign : Quiet sign) (h : scanUnsigned sign body = some (digits, more, r)) :
    Quiet (digits ++ more) := by
  unfold scanUnsigned at h
  dsimp only at h
  split at h
  · cases h
  · obtain ⟨hdigits, htail⟩ := Prod.mk.inj (Option.some.inj h)
    obtain ⟨hmore, -⟩ := Prod.mk.inj htail
    rw [← hdigits, ← hmore]
    have hinteger : Quiet (scanInteger body) := quiet_digits (isDigit_scanInteger body)
    simp only [List.forall_mem_append]
    exact ⟨⟨hsign, hinteger⟩, quiet_scanFraction _, quiet_scanExponent _⟩

theorem quiet_scanNumber {digits more : Text} (h : scanNumber t = some (digits, more, r)) : Quiet (digits ++ more) := by
  unfold scanNumber at h
  split at h
  · exact quiet_scanUnsigned (List.forall_mem_singleton.mpr (.inl (by decide))) h
  · exact quiet_scanUnsigned (List.forall_mem_nil _) h

end Numbers

theorem quiet_escapeUnit (n : ℕ) : Quiet (escapeUnit n) := by
  have hhex : ∀ m < 16, 0x20 ≤ (hexDigit m).toNat := by decide
  simp only [escapeUnit, List.forall_mem_cons, List.not_mem_nil, false_implies, implies_true, and_true]
  refine ⟨by decide, by decide, .inl (hhex _ ?_), .inl (hhex _ ?_), .inl (hhex _ ?_), .inl (hhex _ ?_)⟩
  all_goals omega

theorem quiet_escapeChar (ascii : Bool) (c : Char) : Quiet (escapeChar ascii c) := by
  unfold escapeChar
  cases hshort : shortEscapes.lookup c with
  | some e =>
    have hall : ∀ p ∈ shortEscapes, 0x20 ≤ p.2.toNat := by decide
    obtain ⟨before, after, hsplit, -⟩ := List.lookup_eq_some_iff.mp hshort
    exact List.forall_mem_cons.mpr ⟨by decide, List.forall_mem_singleton.mpr (.inl (hall (c, e) (by simp [hsplit])))⟩
  | none =>
    dsimp only
    split_ifs with hescape
    · exact quiet_escapeUnit _
    · exact List.forall_mem_append.mpr ⟨quiet_escapeUnit _, quiet_escapeUnit _⟩
    · exact List.forall_mem_singleton.mpr (.inl (by omega))

theorem quiet_dumpString (ascii : Bool) (s : Text) : Quiet (dumpString ascii s) := by
  refine List.forall_mem_cons.mpr ⟨by decide, List.forall_mem_append.mpr ⟨?_, List.forall_mem_singleton.mpr (by decide)⟩⟩
  intro z hz
  obtain ⟨c, -, hc⟩ := List.mem_flatMap.mp hz
  exact quiet_escapeChar ascii c z hc

section Values
variable {F : FloatFormat} {ascii : Bool} (indent : Option ℕ)

theorem quiet_gap (level : ℕ) : Quiet (gap indent level) := by
  cases indent with
  | none => exact List.forall_mem_nil _
  | some width =>
    refine List.forall_mem_cons.mpr ⟨.inr rfl, fun z hz => ?_⟩
    rw [List.eq_of_mem_replicate hz]
    decide

theorem quiet_separator (level : ℕ) : Quiet (separator indent level) := by
  cases indent with
  | none => exact quiet_of_all (t := ", ".toList) (by decide)
  | some width => exact List.forall_mem_cons.mpr ⟨by decide, quiet_gap (some width) level⟩

theorem quiet_reprInt (n : ℤ) : Quiet (reprInt n) := by
  have hdecimal : Quiet (decimal n.natAbs) := quiet_digits (isDigit_decimal _)
  unfold reprInt
  split_ifs
  · exact List.forall_mem_cons.mpr ⟨by decide, hdecimal⟩
  · exact hdecimal

mutual
/-- The newline is the only control character in dumped JSON. -/
theorem quiet_dumpValue : (v : Json) → Dumpable F v → ∀ level : ℕ, Quiet (dumpValue F ascii indent level v)
  | .null, _, _ => quiet_of_all rfl
  | .bool true, _, _ => quiet_of_all rfl
  | .bool false, _, _ => quiet_of_all rfl
  | .int n, _, _ => quiet_reprInt n
  | .float (.finite q), h, level => by
      rw [Dumpable] at h
      obtain ⟨digits, more, -, htext, hscan⟩ := scanNumber_repr h delimited_nil
      rw [dumpValue, F.dump_finite, ← htext]
      exact quiet_scanNumber hscan
  | .float (.infinity true), _, _ => quiet_of_all rfl
  | .float (.infinity false), _, _ => quiet_of_all rfl
  | .float .nan, _, _ => quiet_of_all rfl
  | .str s, _, _ => quiet_dumpString ascii s
  | .arr [], _, _ => quiet_of_all rfl
  | .arr (item :: items), h, level => by
      rw [Dumpable, DumpableItems] at h
      simp only [dumpValue, List.forall_mem_cons, List.forall_mem_append]
      exact ⟨by decide, ⟨quiet_gap indent _, quiet_dumpValue item h.1 (level + 1)⟩, quiet_dumpItems items h.2 level⟩
  | .obj [], _, _ => quiet_of_all rfl
  | .obj ((key, value) :: fields), h, level => by
      rw [Dumpable, DumpableFields] at h
      simp only [dumpValue, List.forall_mem_cons, List.forall_mem_append]
      exact ⟨by decide, ⟨⟨⟨quiet_gap indent _, quiet_dumpString ascii key⟩, quiet_of_all (by decide)⟩, quiet_dumpValue value h.2.1 (level + 1)⟩,
        quiet_dumpFields fields h.2.2 level⟩
theorem quiet_dumpItems : (items : List Json) → DumpableItems F items → ∀ level : ℕ, Quiet (dumpItems F ascii indent level items)
  | [], _, level => List.forall_mem_append.mpr ⟨quiet_gap indent level, List.forall_mem_singleton.mpr (by decide)⟩
  | item :: items, h, level => by
      rw [DumpableItems] at h
      simp only [dumpItems, List.forall_mem_append]
      exact ⟨⟨quiet_separator indent _, quiet_dumpValue item h.1 (level + 1)⟩, quiet_dumpItems items h.2 level⟩
theorem quiet_dumpFields : (fields : List (Text × Json)) → DumpableFields F fields → ∀ level : ℕ,
    Quiet (dumpFields F ascii indent level fields)
  | [], _, level => List.forall_mem_append.mpr ⟨quiet_gap indent level, List.forall_mem_singleton.mpr (by decide)⟩
  | (key, value) :: fields, h, level => by
      rw [DumpableFields] at h
      simp only [dumpFields, List.forall_mem_append]
      exact ⟨⟨⟨⟨quiet_separator indent _, quiet_dumpString ascii key⟩, quiet_of_all (by decide)⟩, quiet_dumpValue value h.1 (level + 1)⟩,
        quiet_dumpFields fields h.2 level⟩
end

end Values

end GitlabReviewer.Python
