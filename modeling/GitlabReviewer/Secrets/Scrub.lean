import GitlabReviewer.Foundation.TextReplace
import GitlabReviewer.Python.Json

/-! # Scrubbing secrets out of texts and JSON values

`scrubSecrets` replaces one secret after another by three stars, and
`scrubJson` does so for every string and key of a parsed JSON value.
-/
namespace GitlabReviewer.Secrets
open Python Foundation

def minScrubLen : ℕ := 8
def stars : Text := ['*', '*', '*']

def secretEnvKeys : List Text := ["GITLAB_TOKEN".toList, "OPENCODE_API_KEY".toList]

/-- The secret values out of a run env, for scrubbing streamed output. -/
def secretEnvValues (env : List (Text × Text)) : List Text :=
  (secretEnvKeys.filterMap fun key => env.lookup key).filter truthy

/-- Replace each non-trivial secret value with `***`. -/
def scrubSecrets (text : Text) (secrets : List Text) : Text :=
  secrets.foldl
    (fun text secret => if minScrubLen ≤ secret.length then replaceAll secret stars text else text) text

/-- `d[key] = value` of a dictionary in insertion order. -/
def dictSet (fields : List (Text × Json)) (key : Text) (value : Json) : List (Text × Json) :=
  if fields.any (·.1 == key) then fields.map fun f => if f.1 == key then (key, value) else f
  else fields ++ [(key, value)]

mutual
def scrubJson (secrets : List Text) : Json → Json
  | .str s => .str (scrubSecrets s secrets)
  | .obj fields => .obj (scrubFields secrets [] fields)
  | .arr items => .arr (scrubItems secrets items)
  | .null => .null
  | .bool b => .bool b
  | .int n => .int n
  | .float f => .float f
def scrubItems (secrets : List Text) : List Json → List Json
  | [] => []
  | item :: items => scrubJson secrets item :: scrubItems secrets items
/-- The dictionary comprehension, from the entries made so far. -/
def scrubFields (secrets : List Text) (made : List (Text × Json)) :
    List (Text × Json) → List (Text × Json)
  | [] => made
  | (key, item) :: fields =>
      scrubFields secrets (dictSet made (scrubSecrets key secrets) (scrubJson secrets item)) fields
end

/-- The secrets the scrubber promises to remove: long enough, and without a
character of the replacement. -/
structure Scrubbable (secret : Text) : Prop where
  long : minScrubLen ≤ secret.length
  starless : '*' ∉ secret

theorem Scrubbable.ne_nil {secret : Text} (h : Scrubbable secret) : secret ≠ [] := by
  rintro rfl
  exact absurd h.long (by decide)

theorem Scrubbable.disjoint {secret : Text} (h : Scrubbable secret) : ∀ a ∈ secret, a ∉ stars := by
  intro a ha hs
  have : a = '*' := by simpa [stars] using hs
  exact h.starless (this ▸ ha)

theorem stars_ne_nil : stars ≠ [] := by simp [stars]

theorem scrubSecrets_cons (text secret : Text) (secrets : List Text) :
    scrubSecrets text (secret :: secrets) = scrubSecrets
      (if minScrubLen ≤ secret.length then replaceAll secret stars text else text) secrets := rfl

/-- Scrubbing other secrets does not bring a removed one back. -/
theorem infix_of_infix_scrubSecrets {p : Text} (hp : Scrubbable p) {text : Text} {secrets : List Text}
    (h : p <:+: scrubSecrets text secrets) : p <:+: text := by
  induction secrets generalizing text with
  | nil => exact h
  | cons secret secrets ih =>
    rw [scrubSecrets_cons] at h
    have hi := ih h
    split at hi
    · exact infix_of_infix_replaceAll stars_ne_nil hp.ne_nil hp.disjoint hi
    · exact hi

theorem scrubSecrets_clean {secret : Text} (hs : Scrubbable secret) {secrets : List Text}
    (hmem : secret ∈ secrets) (text : Text) : ¬secret <:+: scrubSecrets text secrets := by
  induction secrets generalizing text with
  | nil => simp at hmem
  | cons first secrets ih =>
    rw [scrubSecrets_cons]
    rcases List.mem_cons.mp hmem with rfl | hmem
    · rw [if_pos hs.long]
      exact fun h => not_infix_replaceAll stars_ne_nil hs.ne_nil hs.disjoint text
        (infix_of_infix_scrubSecrets hs h)
    · exact ih hmem _

mutual
/-- Every string and every key of the value satisfies `P`. -/
def AllText (P : Text → Prop) : Json → Prop
  | .str s => P s
  | .obj fields => AllTextFields P fields
  | .arr items => AllTextItems P items
  | _ => True
def AllTextItems (P : Text → Prop) : List Json → Prop
  | [] => True
  | item :: items => AllText P item ∧ AllTextItems P items
def AllTextFields (P : Text → Prop) : List (Text × Json) → Prop
  | [] => True
  | (key, item) :: fields => P key ∧ AllText P item ∧ AllTextFields P fields
end

theorem allTextFields_iff {P : Text → Prop} {fields : List (Text × Json)} :
    AllTextFields P fields ↔ ∀ f ∈ fields, P f.1 ∧ AllText P f.2 := by
  induction fields with
  | nil => simp [AllTextFields]
  | cons f fields ih =>
    obtain ⟨key, item⟩ := f
    simp only [AllTextFields, ih, List.forall_mem_cons, and_assoc]

theorem allTextFields_dictSet {P : Text → Prop} {fields : List (Text × Json)} {key : Text} {value : Json}
    (hf : AllTextFields P fields) (hk : P key) (hv : AllText P value) :
    AllTextFields P (dictSet fields key value) := by
  rw [allTextFields_iff] at hf ⊢
  intro f hmem
  unfold dictSet at hmem
  split at hmem
  · obtain ⟨g, hg, rfl⟩ := List.mem_map.mp hmem
    split
    · exact ⟨hk, hv⟩
    · exact hf g hg
  · rcases List.mem_append.mp hmem with h | h
    · exact hf f h
    · obtain rfl := List.mem_singleton.mp h
      exact ⟨hk, hv⟩

section Clean
variable {P : Text → Prop} {secrets : List Text}

mutual
theorem scrubJson_allText (hP : ∀ text, P (scrubSecrets text secrets)) :
    (value : Json) → AllText P (scrubJson secrets value)
  | .str s => hP s
  | .obj fields => scrubFields_allText hP [] trivial fields
  | .arr items => scrubItems_allText hP items
  | .null | .bool _ | .int _ | .float _ => trivial
theorem scrubItems_allText (hP : ∀ text, P (scrubSecrets text secrets)) :
    (items : List Json) → AllTextItems P (scrubItems secrets items)
  | [] => trivial
  | item :: items => ⟨scrubJson_allText hP item, scrubItems_allText hP items⟩
theorem scrubFields_allText (hP : ∀ text, P (scrubSecrets text secrets)) (made : List (Text × Json))
    (hmade : AllTextFields P made) :
    (fields : List (Text × Json)) → AllTextFields P (scrubFields secrets made fields)
  | [] => hmade
  | (key, item) :: fields => scrubFields_allText hP _
      (allTextFields_dictSet hmade (hP key) (scrubJson_allText hP item)) fields
end

end Clean

end GitlabReviewer.Secrets
