import GitlabReviewer.Python.JsonScanner
import GitlabReviewer.Secrets.Values

/-! # Values of both programs

The container's values have strings with lone surrogates, the application's have
texts. The application's are embedded, with the image the values that can be
written to a file, and both programs' `dumps` and scrubbers agree on them.
-/
namespace GitlabReviewer.Pipeline
open Python Foundation Entrypoint

mutual
/-- A value of the application as the container holds it. -/
def ofJson : Json → Value
  | .null => .null
  | .bool b => .bool b
  | .int n => .int n
  | .float f => .float f
  | .str s => .str (ofText s)
  | .arr items => .arr (ofItems items)
  | .obj fields => .obj (ofFields fields)
def ofItems : List Json → List Value
  | [] => []
  | item :: items => ofJson item :: ofItems items
def ofFields : List (Text × Json) → List (Str × Value)
  | [] => []
  | (key, item) :: fields => (ofText key, ofJson item) :: ofFields fields
end

def ofField (f : Text × Json) : Str × Value := (ofText f.1, ofJson f.2)

theorem ofFields_eq (fields : List (Text × Json)) : ofFields fields = fields.map ofField := by
  induction fields with
  | nil => rfl
  | cons f fields ih => simp [ofFields, ofField, ih]

theorem ofText_injective : Function.Injective ofText := List.map_injective_iff.mpr Secrets.Strings.ofCode_injective

section Image

/-- The characters of a string without surrogates. -/
def textOf (s : Str) : Text := s.map fun c => Char.ofNat c.val

mutual
/-- The value read back. -/
def toJson : Value → Json
  | .null => .null
  | .bool b => .bool b
  | .int n => .int n
  | .float f => .float f
  | .str s => .str (textOf s)
  | .arr items => .arr (toItems items)
  | .obj fields => .obj (toFields fields)
def toItems : List Value → List Json
  | [] => []
  | item :: items => toJson item :: toItems items
def toFields : List (Str × Value) → List (Text × Json)
  | [] => []
  | (key, item) :: fields => (textOf key, toJson item) :: toFields fields
end

@[simp] theorem textOf_ofText (text : Text) : textOf (ofText text) = text := by
  unfold textOf ofText
  rw [List.map_map]
  apply List.map_id''
  intro c
  simp only [Function.comp_apply, val_ofChar, Char.ofNat_toNat]

theorem ofChar_scalar {c : CodePoint} (h : scalar c = true) : Fin.ofNat 0x110000 (Char.ofNat c.val).toNat = c := by
  have hvalid : c.val.isValidChar := by
    rcases (Bool.or_eq_true _ _).mp h with hlow | hhigh
    · exact .inl (of_decide_eq_true hlow)
    · exact .inr ⟨of_decide_eq_true hhigh, c.isLt⟩
  apply Fin.ext
  rw [val_ofChar, Char.ofNat, dif_pos hvalid]
  rfl

theorem ofText_textOf {s : Str} (h : s.all scalar = true) : ofText (textOf s) = s := by
  unfold textOf ofText
  rw [List.map_map]
  have hsame : ∀ c ∈ s, (Fin.ofNat 0x110000 ∘ Char.toNat ∘ fun c : CodePoint => Char.ofNat c.val) c = id c := fun c hc =>
    ofChar_scalar (List.all_eq_true.mp h c hc)
  exact (List.map_congr_left hsame).trans (List.map_id s)

mutual
theorem toJson_ofJson : (j : Json) → toJson (ofJson j) = j
  | .null | .bool _ | .int _ | .float _ => rfl
  | .str s => by rw [ofJson, toJson, textOf_ofText]
  | .arr items => by rw [ofJson, toJson, toItems_ofItems]
  | .obj fields => by rw [ofJson, toJson, toFields_ofFields]
theorem toItems_ofItems : (items : List Json) → toItems (ofItems items) = items
  | [] => rfl
  | item :: items => by rw [ofItems, toItems, toJson_ofJson item, toItems_ofItems items]
theorem toFields_ofFields : (fields : List (Text × Json)) → toFields (ofFields fields) = fields
  | [] => rfl
  | (key, item) :: fields => by rw [ofFields, toFields, textOf_ofText, toJson_ofJson item, toFields_ofFields fields]
end

theorem ofJson_injective : Function.Injective ofJson := Function.LeftInverse.injective toJson_ofJson

mutual
/-- What can be written to a file is embedded. -/
theorem ofJson_toJson : (v : Value) → v.encodable = true → ofJson (toJson v) = v
  | .null, _ | .bool _, _ | .int _, _ | .float _, _ => rfl
  | .str s, h => by rw [toJson, ofJson, ofText_textOf h]
  | .arr items, h => by rw [toJson, ofJson, ofItems_toItems items h]
  | .obj fields, h => by rw [toJson, ofJson, ofFields_toFields fields h]
theorem ofItems_toItems : (items : List Value) → Value.encodableItems items = true → ofItems (toItems items) = items
  | [], _ => rfl
  | item :: items, h => by
      obtain ⟨hitem, hitems⟩ := Bool.and_eq_true_iff.mp h
      rw [toItems, ofItems, ofJson_toJson item hitem, ofItems_toItems items hitems]
theorem ofFields_toFields : (fields : List (Str × Value)) → Value.encodableFields fields = true → ofFields (toFields fields) = fields
  | [], _ => rfl
  | (key, item) :: fields, h => by
      obtain ⟨hfield, hfields⟩ := Bool.and_eq_true_iff.mp h
      obtain ⟨hkey, hitem⟩ := Bool.and_eq_true_iff.mp hfield
      rw [toFields, ofFields, ofText_textOf hkey, ofJson_toJson item hitem, ofFields_toFields fields hfields]
end

end Image

section Agreement

theorem ofText_append (a b : Text) : ofText (a ++ b) = ofText a ++ ofText b := List.map_append

theorem escapeCode_ofChar (c : Char) : Value.escapeCode (Fin.ofNat 0x110000 c.toNat) = ofText (escapeChar false c) := by
  have hscalar : scalar (Fin.ofNat 0x110000 c.toNat) = true := by
    have hall := @scalar_ofText [c]
    simpa [ofText] using hall
  unfold Value.escapeCode
  rw [if_pos hscalar, val_ofChar, Char.ofNat_toNat]

theorem dumpStr_ofText (s : Text) : Value.dumpStr (ofText s) = ofText (dumpString false s) := by
  have hbody : (ofText s).flatMap Value.escapeCode = ofText (escapeText false s) := by
    induction s with
    | nil => rfl
    | cons c s ih =>
      have htail : (ofText (c :: s)).flatMap Value.escapeCode =
          Value.escapeCode (Fin.ofNat 0x110000 c.toNat) ++ (ofText s).flatMap Value.escapeCode := rfl
      rw [htail, ih, escapeCode_ofChar, ← ofText_append]
      rfl
  unfold Value.dumpStr dumpString
  rw [hbody, ofText_append]
  rfl

variable (F : FloatFormat)

mutual
/-- `json.dumps` writes the embedded value as it writes the value. -/
theorem dumpValue_ofJson : (level : ℕ) → (j : Json) → Value.dumpValue F level (ofJson j) = ofText (dumpValue F false (some 2) level j)
  | _, .null | _, .bool true | _, .bool false | _, .int _ | _, .float _ | _, .arr [] | _, .obj [] => rfl
  | _, .str s => dumpStr_ofText s
  | level, .arr (item :: items) => by
      have hopen : ∀ rest, ofText ('[' :: rest) = str "[" ++ ofText rest := fun rest => rfl
      simp only [ofJson, ofItems, Value.dumpValue, dumpValue, dumpValue_ofJson (level + 1) item, dumpItems_ofItems level items, hopen,
        ofText_append, Value.lineGap, List.append_assoc]
  | level, .obj ((key, item) :: fields) => by
      have hopen : ∀ rest, ofText ('\x7b' :: rest) = str "\x7b" ++ ofText rest := fun rest => rfl
      simp only [ofJson, ofFields, Value.dumpValue, dumpValue, dumpValue_ofJson (level + 1) item, dumpFields_ofFields level fields,
        dumpStr_ofText, hopen, ofText_append, Value.lineGap, List.append_assoc, str]
theorem dumpItems_ofItems : (level : ℕ) → (items : List Json) →
    Value.dumpItems F level (ofItems items) = ofText (dumpItems F false (some 2) level items)
  | level, [] => by
      simp only [ofItems, Value.dumpItems, dumpItems, ofText_append, Value.lineGap]
      rfl
  | level, item :: items => by
      simp only [ofItems, Value.dumpItems, dumpItems, ofText_append, Value.lineSeparator, dumpValue_ofJson (level + 1) item,
        dumpItems_ofItems level items]
theorem dumpFields_ofFields : (level : ℕ) → (fields : List (Text × Json)) →
    Value.dumpFields F level (ofFields fields) = ofText (dumpFields F false (some 2) level fields)
  | level, [] => by
      simp only [ofFields, Value.dumpFields, dumpFields, ofText_append, Value.lineGap]
      rfl
  | level, (key, item) :: fields => by
      simp only [ofFields, Value.dumpFields, dumpFields, ofText_append, Value.lineSeparator, dumpValue_ofJson (level + 1) item,
        dumpFields_ofFields level fields, dumpStr_ofText, str]
end

variable (secrets : List Text)

theorem scrub_ofText (text : Text) :
    scrub (Secrets.Strings.long (secrets.map ofText)) (ofText text) = ofText (Secrets.scrubSecrets text secrets) := by
  rw [← Secrets.Strings.scrubSecrets_eq_scrub, Secrets.Strings.scrubSecrets_ofText]

theorem setField_ofFields (fields : List (Text × Json)) (key : Text) (item : Json) :
    Value.setField (ofFields fields) (ofText key) (ofJson item) = ofFields (Secrets.dictSet fields key item) := by
  have hprod : ofField = Prod.map ofText ofJson := rfl
  rw [ofFields_eq, ofFields_eq, hprod, Value.setField_eq]
  exact setKey_map ofText_injective ofJson fields key item

mutual
/-- The container's scrubber on the embedded value, with the secrets the application replaces. -/
theorem scrubValue_ofJson : (j : Json) →
    Value.scrubValue (Secrets.Strings.long (secrets.map ofText)) (ofJson j) = ofJson (Secrets.scrubJson secrets j)
  | .null | .bool _ | .int _ | .float _ => rfl
  | .str s => by rw [ofJson, Value.scrubValue, scrub_ofText, Secrets.scrubJson, ofJson]
  | .arr items => by rw [ofJson, Value.scrubValue, scrubItems_ofItems items, Secrets.scrubJson, ofJson]
  | .obj fields => by
      have hfields := scrubFields_ofFields fields []
      rw [ofFields] at hfields
      rw [ofJson, Value.scrubValue, hfields, Secrets.scrubJson, ofJson]
theorem scrubItems_ofItems : (items : List Json) →
    Value.scrubItems (Secrets.Strings.long (secrets.map ofText)) (ofItems items) = ofItems (Secrets.scrubItems secrets items)
  | [] => rfl
  | item :: items => by
      rw [ofItems, Value.scrubItems, scrubValue_ofJson item, scrubItems_ofItems items, Secrets.scrubItems, ofItems]
theorem scrubFields_ofFields : (fields made : List (Text × Json)) →
    Value.scrubFields (Secrets.Strings.long (secrets.map ofText)) (ofFields made) (ofFields fields) =
      ofFields (Secrets.scrubFields secrets made fields)
  | [], made => rfl
  | (key, item) :: fields, made => by
      have hset := setField_ofFields made (Secrets.scrubSecrets key secrets) (Secrets.scrubJson secrets item)
      rw [ofFields, Value.scrubFields, scrub_ofText, scrubValue_ofJson item, hset, scrubFields_ofFields fields, Secrets.scrubFields]
end

end Agreement

end GitlabReviewer.Pipeline
