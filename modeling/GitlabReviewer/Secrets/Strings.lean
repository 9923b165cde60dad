import GitlabReviewer.Entrypoint.Log

/-! # The text scrubber of the application

The replacements run one secret after another, each on the text the last one
left. The stars share no character with a secret the scrubber promises to
remove, so no replacement brings one back and no order of the secrets matters.
-/
namespace GitlabReviewer.Secrets.Strings
open Foundation Entrypoint

/-- Replace each non-trivial secret value with `***`. -/
def scrubSecrets (text : Str) (secrets : List Str) : Str :=
  if text = [] then text
  else secrets.foldl
    (fun text secret => if secret ≠ [] ∧ minScrubLen ≤ secret.length then replaceAll secret Entrypoint.stars text else text) text

/-- The secrets that are replaced. -/
def long (secrets : List Str) : List Str := secrets.filter fun secret => decide (minScrubLen ≤ secret.length)

section Scrub
variable {secrets : List Str} {secret text : Str}

theorem mem_long : secret ∈ long secrets ↔ secret ∈ secrets ∧ minScrubLen ≤ secret.length := by
  rw [long, List.mem_filter, decide_eq_true_eq]

theorem ne_nil_of_long (h : minScrubLen ≤ secret.length) : secret ≠ [] := by
  rintro rfl
  exact absurd h (by decide)

theorem replaced_iff : secret ≠ [] ∧ minScrubLen ≤ secret.length ↔ minScrubLen ≤ secret.length :=
  ⟨And.right, fun h => ⟨ne_nil_of_long h, h⟩⟩

/-- The check of the empty text and of the lengths is a filter on the secrets. -/
theorem scrubSecrets_eq_scrub (text : Str) (secrets : List Str) : scrubSecrets text secrets = scrub (long secrets) text := by
  unfold scrubSecrets scrub long
  by_cases htext : text = []
  · rw [if_pos htext, htext, foldl_replaceAll_of_not_infix]
    intro secret hmem hinfix
    obtain ⟨-, hlong⟩ := mem_long.mp hmem
    exact ne_nil_of_long hlong (List.infix_nil.mp hinfix)
  · simp only [if_neg htext, replaced_iff, List.foldl_filter, decide_eq_true_eq]

/-- A removable secret is not in the result, whatever the other secrets are. -/
theorem not_infix_scrub (hmem : secret ∈ secrets) (hsecret : Entrypoint.Scrubbable secret) (text : Str) :
    ¬ secret <:+: scrubSecrets text secrets := by
  rw [scrubSecrets_eq_scrub]
  exact scrub_clean hsecret (mem_long.mpr ⟨hmem, hsecret.long⟩) text

theorem scrub_of_not_infix (h : ∀ secret ∈ secrets, minScrubLen ≤ secret.length → ¬ secret <:+: text) :
    scrubSecrets text secrets = text := by
  rw [scrubSecrets_eq_scrub]
  refine foldl_replaceAll_of_not_infix fun secret hmem => ?_
  obtain ⟨hmem, hlong⟩ := mem_long.mp hmem
  exact h secret hmem hlong

/-- After one pass no secret is left for the next one. -/
theorem scrub_scrub (h : ∀ secret ∈ secrets, star ∉ secret) :
    scrubSecrets (scrubSecrets text secrets) secrets = scrubSecrets text secrets :=
  scrub_of_not_infix fun secret hmem hlong => not_infix_scrub hmem ⟨hlong, h secret hmem⟩ text

/-- The scrubber removes every long secret without a star, leaves a text without
long secrets alone, and has nothing to do a second time. -/
theorem scrubSecrets_removes (text : Str) (secrets : List Str) :
    (∀ secret ∈ secrets, minScrubLen ≤ secret.length → star ∉ secret → ¬ secret <:+: scrubSecrets text secrets) ∧
    ((∀ secret ∈ secrets, minScrubLen ≤ secret.length → ¬ secret <:+: text) → scrubSecrets text secrets = text) ∧
    ((∀ secret ∈ secrets, star ∉ secret) →
      scrubSecrets (scrubSecrets text secrets) secrets = scrubSecrets text secrets) :=
  ⟨fun _ hmem hlong hstar => not_infix_scrub hmem ⟨hlong, hstar⟩ text, scrub_of_not_infix, scrub_scrub⟩

end Scrub

/-- Two overlapping secrets and a short one. -/
example : scrubSecrets (str "abcdefghijkl abcdefghij abc") [str "abcdefghij", str "ghijklmnop", str "abc"] =
    str "***kl *** abc" := by decide

theorem ofCode_injective : Function.Injective fun c : Char => Fin.ofNat 0x110000 c.toNat := by
  intro a b h
  have htoNat : a.toNat = b.toNat := by rw [← val_ofChar a, ← val_ofChar b, congrArg Fin.val h]
  exact Char.toNat_inj.mp htoNat

theorem stars_eq : Entrypoint.stars = ofText Secrets.stars := rfl

/-- On texts without surrogates this is the scrubber the outcome of a run is modelled with. -/
theorem scrubSecrets_ofText (text : Python.Text) (secrets : List Python.Text) :
    scrubSecrets (ofText text) (secrets.map ofText) = ofText (Secrets.scrubSecrets text secrets) := by
  rw [scrubSecrets_eq_scrub]
  unfold scrub long
  induction secrets generalizing text with
  | nil => rfl
  | cons secret secrets ih =>
    have hlength : (ofText secret).length = secret.length := List.length_map _
    rw [Secrets.scrubSecrets_cons, List.map_cons, List.filter_cons, hlength]
    by_cases hlong : minScrubLen ≤ secret.length
    · have hreplace : replaceAll (ofText secret) Entrypoint.stars (ofText text) = ofText (replaceAll secret Secrets.stars text) := by
        rw [stars_eq]
        exact replaceAll_map ofCode_injective text
      rw [if_pos (decide_eq_true hlong), if_pos hlong, List.foldl_cons, hreplace]
      exact ih _
    · rw [if_neg (by simpa using hlong), if_neg hlong]
      exact ih _

end GitlabReviewer.Secrets.Strings
