import Mathlib.Data.List.Infix

/-! # Replacing every occurrence of a pattern

`replaceAll old new` scans from the left and never looks at the inserted text
again. When a pattern shares no letter with `new`, an occurrence of it in the
result cannot touch an inserted copy, so it was in the text before: replacing
creates no pattern, and it removes the replaced one.
-/
namespace Foundation

section Replace
variable {α : Type} [DecidableEq α]

/-- `skip` letters of a matched occurrence are still to be passed over. -/
def replaceFrom (old new : List α) : ℕ → List α → List α
  | _, [] => []
  | skip + 1, _ :: rest => replaceFrom old new skip rest
  | 0, c :: rest =>
      if old.isPrefixOf (c :: rest) then new ++ replaceFrom old new (old.length - 1) rest
      else c :: replaceFrom old new 0 rest

def replaceAll (old new text : List α) : List α := replaceFrom old new 0 text

@[simp] theorem replaceFrom_nil (old new : List α) (k : ℕ) : replaceFrom old new k [] = [] := by
  cases k <;> rfl
@[simp] theorem replaceFrom_skip (old new : List α) (k : ℕ) (c : α) (rest : List α) :
    replaceFrom old new (k + 1) (c :: rest) = replaceFrom old new k rest := rfl
theorem replaceFrom_match {old new : List α} {c : α} {rest : List α} (h : old <+: c :: rest) :
    replaceFrom old new 0 (c :: rest) = new ++ replaceFrom old new (old.length - 1) rest :=
  if_pos (List.isPrefixOf_iff_prefix.mpr h)
theorem replaceFrom_copy {old : List α} (new : List α) {c : α} {rest : List α} (h : ¬old <+: c :: rest) :
    replaceFrom old new 0 (c :: rest) = c :: replaceFrom old new 0 rest :=
  if_neg fun hp => h (List.isPrefixOf_iff_prefix.mp hp)

omit [DecidableEq α] in
/-- A pattern without a letter of `l` cannot begin inside `l`. -/
theorem infix_of_infix_append {p l r : List α} (hne : p ≠ []) (hd : ∀ a ∈ p, a ∉ l)
    (h : p <:+: l ++ r) : p <:+: r := by
  induction l with
  | nil => exact h
  | cons c l ih =>
    rcases List.infix_cons_iff.mp h with hpre | hinf
    · obtain ⟨a, p, rfl⟩ := List.exists_cons_of_ne_nil hne
      obtain ⟨rfl, -⟩ := List.cons_prefix_cons.mp hpre
      exact absurd List.mem_cons_self (hd a List.mem_cons_self)
    · exact ih (fun a ha hl => hd a ha (List.mem_cons_of_mem _ hl)) hinf

variable {old new p : List α}

/-- A pattern at the front of the result was at the front of the text. -/
theorem prefix_of_prefix_replaceFrom (hnew : new ≠ []) (hd : ∀ a ∈ p, a ∉ new) {text : List α}
    (h : p <+: replaceFrom old new 0 text) : p <+: text := by
  induction text generalizing p with
  | nil => simpa using h
  | cons c rest ih =>
    by_cases hm : old <+: c :: rest
    · rw [replaceFrom_match hm] at h
      obtain ⟨b, new', rfl⟩ := List.exists_cons_of_ne_nil hnew
      cases p with
      | nil => exact List.nil_prefix
      | cons a p =>
        rw [List.cons_append, List.cons_prefix_cons] at h
        exact absurd (h.1 ▸ List.mem_cons_self) (hd a List.mem_cons_self)
    · rw [replaceFrom_copy new hm] at h
      cases p with
      | nil => exact List.nil_prefix
      | cons a p =>
        rw [List.cons_prefix_cons] at h ⊢
        exact ⟨h.1, ih (fun b hb => hd b (List.mem_cons_of_mem _ hb)) h.2⟩

/-- Replacing creates no occurrence of a pattern that shares no letter with the
inserted text. -/
theorem infix_of_infix_replaceFrom (hnew : new ≠ []) (hne : p ≠ []) (hd : ∀ a ∈ p, a ∉ new)
    {k : ℕ} {text : List α} (h : p <:+: replaceFrom old new k text) : p <:+: text := by
  induction text generalizing k with
  | nil => simpa using h
  | cons c rest ih =>
    cases k with
    | succ k => exact (ih h).trans (List.suffix_cons c rest).isInfix
    | zero =>
      by_cases hm : old <+: c :: rest
      · rw [replaceFrom_match hm] at h
        exact (ih (infix_of_infix_append hne hd h)).trans (List.suffix_cons c rest).isInfix
      · have hcopy := replaceFrom_copy new hm
        rw [hcopy] at h
        rcases List.infix_cons_iff.mp h with hpre | hinf
        · exact (prefix_of_prefix_replaceFrom hnew hd (hcopy ▸ hpre)).isInfix
        · exact (ih hinf).trans (List.suffix_cons c rest).isInfix

theorem infix_of_infix_replaceAll (hnew : new ≠ []) (hne : p ≠ []) (hd : ∀ a ∈ p, a ∉ new)
    {text : List α} (h : p <:+: replaceAll old new text) : p <:+: text :=
  infix_of_infix_replaceFrom hnew hne hd h

/-- The replaced pattern is gone. -/
theorem not_infix_replaceFrom (hnew : new ≠ []) (hne : old ≠ []) (hd : ∀ a ∈ old, a ∉ new)
    (k : ℕ) (text : List α) : ¬old <:+: replaceFrom old new k text := by
  induction text generalizing k with
  | nil => simpa using hne
  | cons c rest ih =>
    cases k with
    | succ k => exact ih k
    | zero =>
      by_cases hm : old <+: c :: rest
      · rw [replaceFrom_match hm]
        exact fun h => ih _ (infix_of_infix_append hne hd h)
      · have hcopy := replaceFrom_copy new hm
        rw [hcopy]
        intro h
        rcases List.infix_cons_iff.mp h with hpre | hinf
        · exact hm (prefix_of_prefix_replaceFrom hnew hd (hcopy ▸ hpre))
        · exact ih 0 hinf

theorem not_infix_replaceAll (hnew : new ≠ []) (hne : old ≠ []) (hd : ∀ a ∈ old, a ∉ new)
    (text : List α) : ¬old <:+: replaceAll old new text :=
  not_infix_replaceFrom hnew hne hd 0 text

/-- A text without the pattern is copied. -/
theorem replaceAll_of_not_infix {text : List α} (h : ¬old <:+: text) : replaceAll old new text = text := by
  unfold replaceAll
  induction text with
  | nil => rfl
  | cons c rest ih =>
    rw [replaceFrom_copy new fun hp => h hp.isInfix,
      ih fun hi => h (hi.trans (List.suffix_cons c rest).isInfix)]

theorem mem_replaceFrom {c : α} {k : ℕ} {text : List α} (h : c ∈ replaceFrom old new k text) : c ∈ new ∨ c ∈ text := by
  induction text generalizing k with
  | nil =>
    rw [replaceFrom_nil] at h
    cases h
  | cons d rest ih =>
    have hrest : ∀ k, c ∈ replaceFrom old new k rest → c ∈ new ∨ c ∈ d :: rest :=
      fun k hk => (ih hk).imp_right (List.mem_cons_of_mem d)
    cases k with
    | succ k => exact hrest k h
    | zero =>
      by_cases hm : old <+: d :: rest
      · rw [replaceFrom_match hm] at h
        exact (List.mem_append.mp h).elim .inl (hrest _)
      · rw [replaceFrom_copy new hm] at h
        rcases List.mem_cons.mp h with rfl | h
        · exact .inr List.mem_cons_self
        · exact hrest 0 h

theorem mem_foldl_replaceAll {olds : List (List α)} {c : α} {text : List α}
    (h : c ∈ olds.foldl (fun text old => replaceAll old new text) text) : c ∈ new ∨ c ∈ text := by
  induction olds generalizing text with
  | nil => exact .inr h
  | cons old olds ih => exact (ih h).elim .inl mem_replaceFrom

/-- Replacing one word after another creates none of the others. -/
theorem infix_of_infix_foldl (hnew : new ≠ []) (hne : p ≠ []) (hd : ∀ a ∈ p, a ∉ new) {olds : List (List α)}
    {text : List α} (h : p <:+: olds.foldl (fun text old => replaceAll old new text) text) : p <:+: text := by
  induction olds generalizing text with
  | nil => exact h
  | cons old olds ih => exact infix_of_infix_replaceAll hnew hne hd (ih h)

theorem not_infix_foldl (hnew : new ≠ []) (hne : p ≠ []) (hd : ∀ a ∈ p, a ∉ new) {olds : List (List α)} (hmem : p ∈ olds)
    (text : List α) : ¬p <:+: olds.foldl (fun text old => replaceAll old new text) text := by
  induction olds generalizing text with
  | nil => cases hmem
  | cons old olds ih =>
    rcases List.mem_cons.mp hmem with rfl | hmem
    · exact fun h => not_infix_replaceAll hnew hne hd text (infix_of_infix_foldl hnew hne hd h)
    · exact ih hmem _

/-- A text without any of the words is copied. -/
theorem foldl_replaceAll_of_not_infix {olds : List (List α)} {text : List α} (h : ∀ old ∈ olds, ¬old <:+: text) :
    olds.foldl (fun text old => replaceAll old new text) text = text := by
  induction olds with
  | nil => rfl
  | cons old olds ih =>
    rw [List.forall_mem_cons] at h
    rw [List.foldl_cons, replaceAll_of_not_infix h.1]
    exact ih h.2

variable {β : Type} [DecidableEq β] {f : α → β}

theorem replaceFrom_map (hf : Function.Injective f) (k : ℕ) (text : List α) :
    replaceFrom (old.map f) (new.map f) k (text.map f) = (replaceFrom old new k text).map f := by
  induction text generalizing k with
  | nil => simp
  | cons c rest ih =>
    cases k with
    | succ k => exact ih k
    | zero =>
      rw [List.map_cons]
      by_cases hm : old <+: c :: rest
      · have hm' : old.map f <+: f c :: rest.map f := (List.prefix_map_iff_of_injective hf).mpr hm
        rw [replaceFrom_match hm, replaceFrom_match hm', List.map_append, ih, List.length_map]
      · have hm' : ¬old.map f <+: f c :: rest.map f := fun h => hm ((List.prefix_map_iff_of_injective hf).mp h)
        rw [replaceFrom_copy _ hm, replaceFrom_copy _ hm', List.map_cons, ih]

/-- Replacing commutes with an injective renaming of the letters. -/
theorem replaceAll_map (hf : Function.Injective f) (text : List α) :
    replaceAll (old.map f) (new.map f) (text.map f) = (replaceAll old new text).map f := replaceFrom_map hf 0 text

end Replace

section Join
variable {α : Type} {p a b : List α} {sep : α}

theorem prefix_of_prefix_append_cons (hp : sep ∉ p) (h : p <+: a ++ sep :: b) : p <+: a := by
  induction a generalizing p with
  | nil =>
    cases p with
    | nil => exact List.nil_prefix
    | cons c p =>
      obtain ⟨rfl, -⟩ := List.cons_prefix_cons.mp h
      exact absurd List.mem_cons_self hp
  | cons x a ih =>
    cases p with
    | nil => exact List.nil_prefix
    | cons c p =>
      rw [List.cons_append, List.cons_prefix_cons] at h
      rw [List.cons_prefix_cons]
      exact ⟨h.1, ih (fun hm => hp (List.mem_cons_of_mem _ hm)) h.2⟩

/-- A pattern without the separator lies on one side of it. -/
theorem infix_of_infix_append_cons (hne : p ≠ []) (hp : sep ∉ p) (h : p <:+: a ++ sep :: b) :
    p <:+: a ∨ p <:+: b := by
  induction a with
  | nil =>
    rcases List.infix_cons_iff.mp h with hpre | hinf
    · have hnil : p <+: [] := prefix_of_prefix_append_cons hp hpre
      exact absurd (List.prefix_nil.mp hnil) hne
    · exact .inr hinf
  | cons x a ih =>
    rcases List.infix_cons_iff.mp h with hpre | hinf
    · have hfront : p <+: x :: a := prefix_of_prefix_append_cons hp hpre
      exact .inl hfront.isInfix
    · rcases ih hinf with ha | hb
      · exact .inl (ha.trans (List.suffix_cons x a).isInfix)
      · exact .inr hb

end Join

end Foundation
