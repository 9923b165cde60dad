import Mathlib.Data.List.Induction
import Mathlib.Data.List.Nodup

/-! # Dictionaries in insertion order

A dictionary is the list of its entries, one a key. Setting a key keeps its
place or appends it, so a dictionary made from a list of pairs has the keys in
the order of their first pair and the values of their last one.
-/
namespace Foundation

section Dictionary
variable {κ β : Type} [BEq κ] [LawfulBEq κ]

def setKey (d : List (κ × β)) (key : κ) (value : β) : List (κ × β) :=
  if d.any (·.1 == key) then d.map fun f => if f.1 == key then (key, value) else f
  else d ++ [(key, value)]

def fromPairs (pairs : List (κ × β)) : List (κ × β) := pairs.foldl (fun d f => setKey d f.1 f.2) []

variable {d pairs : List (κ × β)} {key : κ} {value : β}

theorem any_key_iff : d.any (·.1 == key) = true ↔ key ∈ d.map Prod.fst := by
  simp only [List.any_eq_true, beq_iff_eq, List.mem_map]

theorem setKey_of_mem (h : key ∈ d.map Prod.fst) :
    setKey d key value = d.map fun f => if f.1 == key then (key, value) else f := if_pos (any_key_iff.mpr h)

theorem setKey_of_not_mem (h : key ∉ d.map Prod.fst) : setKey d key value = d ++ [(key, value)] :=
  if_neg fun hany => h (any_key_iff.mp hany)

/-- Setting a key that is there changes no key. -/
theorem keys_setKey_of_mem (h : key ∈ d.map Prod.fst) : (setKey d key value).map Prod.fst = d.map Prod.fst := by
  rw [setKey_of_mem h, List.map_map]
  refine List.map_congr_left fun f _ => ?_
  by_cases hf : f.1 = key <;> simp [hf]

theorem mem_keys_setKey {k : κ} : k ∈ (setKey d key value).map Prod.fst ↔ k = key ∨ k ∈ d.map Prod.fst := by
  by_cases h : key ∈ d.map Prod.fst
  · rw [keys_setKey_of_mem h]
    exact ⟨.inr, fun hk => hk.elim (fun hk => hk ▸ h) id⟩
  · rw [setKey_of_not_mem h, List.map_append, List.mem_append]
    exact or_comm.trans (or_congr_left List.mem_singleton)

theorem nodup_setKey (h : (d.map Prod.fst).Nodup) : ((setKey d key value).map Prod.fst).Nodup := by
  by_cases hmem : key ∈ d.map Prod.fst
  · rwa [keys_setKey_of_mem hmem]
  · rw [setKey_of_not_mem hmem, List.map_append]
    refine List.nodup_append.mpr ⟨h, List.nodup_singleton _, ?_⟩
    rintro a ha b hb rfl
    have hkey : a = key := List.mem_singleton.mp hb
    exact hmem (hkey ▸ ha)

/-- Setting a key, through an injective renaming of the keys. -/
theorem setKey_map {κ' β' : Type} [BEq κ'] [LawfulBEq κ'] {f : κ → κ'} (hf : Function.Injective f) (g : β → β') (d : List (κ × β))
    (key : κ) (value : β) : setKey (d.map (Prod.map f g)) (f key) (g value) = (setKey d key value).map (Prod.map f g) := by
  have hkey : f key ∈ (d.map (Prod.map f g)).map Prod.fst ↔ key ∈ d.map Prod.fst := by
    rw [List.map_map]
    simp only [List.mem_map, Function.comp_apply, Prod.map_fst, hf.eq_iff]
  by_cases h : key ∈ d.map Prod.fst
  · rw [setKey_of_mem h, setKey_of_mem (hkey.mpr h), List.map_map, List.map_map]
    apply List.map_congr_left
    intro entry _
    by_cases hentry : entry.1 = key <;> simp [hentry, hf.eq_iff]
  · rw [setKey_of_not_mem h, setKey_of_not_mem (fun hmem => h (hkey.mp hmem)), List.map_append, List.map_singleton, Prod.map_apply]

/-- An entry after setting a key is the new one or one of the other keys. -/
theorem mem_setKey {f : κ × β} (h : f ∈ setKey d key value) : f = (key, value) ∨ f ∈ d ∧ f.1 ≠ key := by
  by_cases hmem : key ∈ d.map Prod.fst
  · rw [setKey_of_mem hmem] at h
    obtain ⟨g, hg, rfl⟩ := List.mem_map.mp h
    by_cases hkey : g.1 = key
    · simp [hkey]
    · simp [hkey, hg]
  · rw [setKey_of_not_mem hmem] at h
    rcases List.mem_append.mp h with h | h
    · exact .inr ⟨h, fun hf => hmem (hf ▸ List.mem_map_of_mem h)⟩
    · exact .inl (List.mem_singleton.mp h)

theorem lookup_of_not_mem (h : key ∉ d.map Prod.fst) : d.lookup key = none := by
  rw [List.lookup_eq_none_iff]
  intro f hf
  rw [bne_iff_ne]
  exact fun hkey => h (hkey ▸ List.mem_map_of_mem hf)

theorem lookup_append_self (h : key ∉ d.map Prod.fst) (value : β) : (d ++ [(key, value)]).lookup key = some value := by
  rw [List.lookup_append, lookup_of_not_mem h, List.lookup_cons_self]
  rfl

/-- Setting the key that was appended last. -/
theorem setKey_append_self (h : key ∉ d.map Prod.fst) (old value : β) : setKey (d ++ [(key, old)]) key value = d ++ [(key, value)] := by
  have hothers : (d.map fun f => if f.1 == key then (key, value) else f) = d := by
    refine (List.map_congr_left fun f hf => ?_).trans (List.map_id d)
    rw [if_neg, id]
    rw [beq_iff_eq]
    exact fun hkey => h (hkey ▸ List.mem_map_of_mem hf)
  rw [setKey_of_mem (by simp), List.map_append, hothers]
  simp

theorem lookup_setKey_self (d : List (κ × β)) (key : κ) (value : β) : (setKey d key value).lookup key = some value := by
  by_cases hmem : key ∈ d.map Prod.fst
  · rw [setKey_of_mem hmem]
    induction d with
    | nil => cases hmem
    | cons f d ih =>
      by_cases hf : f.1 = key
      · simp [hf]
      · have hrest : key ∈ d.map Prod.fst := (List.mem_cons.mp hmem).resolve_left fun h => hf h.symm
        have hne : (key == f.1) = false := beq_eq_false_iff_ne.mpr fun h => hf h.symm
        rw [List.map_cons, if_neg (by simpa using hf), List.lookup_cons, hne]
        exact ih hrest
  · rw [setKey_of_not_mem hmem, lookup_append_self hmem]

/-- Setting a key does not touch the others. -/
theorem lookup_setKey_ne (d : List (κ × β)) {key k : κ} (value : β) (h : k ≠ key) : (setKey d key value).lookup k = d.lookup k := by
  have hne : (k == key) = false := beq_eq_false_iff_ne.mpr h
  by_cases hmem : key ∈ d.map Prod.fst
  · rw [setKey_of_mem hmem]
    clear hmem
    induction d with
    | nil => rfl
    | cons f d ih =>
      rw [List.map_cons, List.lookup_cons, List.lookup_cons, ih]
      by_cases hf : f.1 = key
      · simp [hf, hne]
      · simp [hf]
  · rw [setKey_of_not_mem hmem, List.lookup_append, List.lookup_cons, hne, List.lookup_nil, Option.or_none]

theorem lookup_filter_self [DecidableEq κ] (d : List (κ × β)) (key : κ) : (d.filter (·.1 ≠ key)).lookup key = none := by
  rw [List.lookup_eq_none_iff]
  intro f hf
  rw [bne_iff_ne]
  have hne : f.1 ≠ key := by simpa using (List.mem_filter.mp hf).2
  exact hne.symm

theorem lookup_filter_ne [DecidableEq κ] (d : List (κ × β)) {key k : κ} (h : k ≠ key) : (d.filter (·.1 ≠ key)).lookup k = d.lookup k := by
  induction d with
  | nil => rfl
  | cons f d ih =>
    by_cases hf : f.1 = key
    · have hne : (k == f.1) = false := beq_eq_false_iff_ne.mpr fun hk => h (hk.trans hf)
      rw [List.filter_cons_of_neg (by simpa using hf), ih, List.lookup_cons, hne]
    · rw [List.filter_cons_of_pos (by simpa using hf), List.lookup_cons, List.lookup_cons, ih]

omit [LawfulBEq κ] in
theorem fromPairs_append (f : κ × β) : fromPairs (pairs ++ [f]) = setKey (fromPairs pairs) f.1 f.2 := by
  simp [fromPairs]

theorem nodup_fromPairs (pairs : List (κ × β)) : ((fromPairs pairs).map Prod.fst).Nodup := by
  induction pairs using List.reverseRecOn with
  | nil => exact List.nodup_nil
  | append_singleton pairs f ih =>
    rw [fromPairs_append]
    exact nodup_setKey ih

theorem mem_keys_fromPairs {k : κ} : k ∈ (fromPairs pairs).map Prod.fst ↔ k ∈ pairs.map Prod.fst := by
  induction pairs using List.reverseRecOn with
  | nil => exact Iff.rfl
  | append_singleton pairs f ih =>
    rw [fromPairs_append, mem_keys_setKey, ih, List.map_append, List.mem_append]
    exact or_comm.trans (or_congr_right List.mem_singleton.symm)

/-- `f` is the last pair of its key. -/
def LastOf (pairs : List (κ × β)) (f : κ × β) : Prop :=
  ∃ before after, pairs = before ++ f :: after ∧ ∀ g ∈ after, g.1 ≠ f.1

theorem lastOf_of_mem_fromPairs {f : κ × β} (h : f ∈ fromPairs pairs) : LastOf pairs f := by
  induction pairs using List.reverseRecOn with
  | nil => cases h
  | append_singleton pairs g ih =>
    rw [fromPairs_append] at h
    rcases mem_setKey h with rfl | ⟨hmem, hne⟩
    · exact ⟨pairs, [], rfl, by simp⟩
    · obtain ⟨before, after, rfl, hafter⟩ := ih hmem
      refine ⟨before, after ++ [g], by simp, fun k hk => ?_⟩
      rcases List.mem_append.mp hk with hk | hk
      · exact hafter k hk
      · obtain rfl := List.mem_singleton.mp hk
        exact hne.symm

omit [BEq κ] [LawfulBEq κ] in
theorem LastOf.mem {f : κ × β} (h : LastOf pairs f) : f ∈ pairs := by
  obtain ⟨before, after, rfl, -⟩ := h
  simp

omit [BEq κ] [LawfulBEq κ] in
theorem LastOf.map {γ : Type} {f : κ × β} (g : β → γ) (h : LastOf pairs f) :
    LastOf (pairs.map fun p => (p.1, g p.2)) (f.1, g f.2) := by
  obtain ⟨before, after, rfl, hafter⟩ := h
  refine ⟨_, _, by rw [List.map_append, List.map_cons], fun p hp => ?_⟩
  obtain ⟨q, hq, rfl⟩ := List.mem_map.mp hp
  exact hafter q hq

/-- A key has one last pair. -/
theorem LastOf.unique {v w : β} (hv : LastOf pairs (key, v)) (hw : LastOf pairs (key, w)) : v = w := by
  have hlookup : ∀ u, LastOf pairs (key, u) → pairs.reverse.lookup key = some u := by
    rintro u ⟨before, after, rfl, hafter⟩
    rw [List.lookup_eq_some_iff]
    refine ⟨after.reverse, before.reverse, by simp, fun p hp => ?_⟩
    rw [bne_iff_ne]
    exact (hafter p (List.mem_reverse.mp hp)).symm
  exact Option.some.inj ((hlookup v hv).symm.trans (hlookup w hw))

theorem fromPairs_of_nodup (h : (pairs.map Prod.fst).Nodup) : fromPairs pairs = pairs := by
  induction pairs using List.reverseRecOn with
  | nil => rfl
  | append_singleton pairs f ih =>
    rw [List.map_append, List.nodup_append] at h
    obtain ⟨hpairs, -, hdisjoint⟩ := h
    rw [fromPairs_append, ih hpairs, setKey_of_not_mem]
    intro hmem
    exact hdisjoint f.1 hmem f.1 (by simp) rfl

end Dictionary

end Foundation
