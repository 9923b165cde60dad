import Mathlib.Data.List.Infix
import Mathlib.Data.List.DropRight
import Mathlib.Logic.Function.Basic

/-! # Trees of named nodes, and what changes below a path

A tree maps each path to the node there. Every operation works below one path
or on the directories above it, so what lies apart from that path stays.
-/
namespace Foundation

abbrev FileTree (κ ν : Type) := List κ → Option ν

namespace FileTree
variable {κ ν : Type}

/-- Neither path lies at or below the other. -/
structure Apart (p q : List κ) : Prop where
  left : ¬ p <+: q
  right : ¬ q <+: p

section Apart
variable {p q r : List κ}

/-- What is below one of two paths that lie apart is not below the other. -/
theorem Apart.not_below (h : Apart p q) (hr : p <+: r) : ¬ q <+: r := by
  intro hq
  rcases List.prefix_or_prefix_of_prefix hr hq with hpq | hqp
  · exact h.left hpq
  · exact h.right hqp

/-- Nor is it above the other. -/
theorem Apart.not_above (h : Apart p q) (hr : p <+: r) : ¬ r <+: q := fun hq => h.left (hr.trans hq)

end Apart

/-- At the paths of `P` the operation leaves a node related to the one before. -/
def Keeps (ρ : Option ν → Option ν → Prop) (P : List κ → Prop) (f : FileTree κ ν → FileTree κ ν) : Prop :=
  ∀ t r, P r → ρ (t r) (f t r)

theorem Keeps.comp {ρ : Option ν → Option ν → Prop} {P : List κ → Prop} {f g : FileTree κ ν → FileTree κ ν}
    (htrans : ∀ a b c, ρ a b → ρ b c → ρ a c) (hg : Keeps ρ P g) (hf : Keeps ρ P f) :
    Keeps ρ P (fun t => g (f t)) := by
  intro t r hr
  exact htrans _ _ _ (hf t r hr) (hg (f t) r hr)

variable [DecidableEq κ]

def put (p : List κ) (v : ν) (t : FileTree κ ν) : FileTree κ ν := fun q => if q = p then some v else t q

/-- Everything at or below the path is gone. -/
def removeTree (p : List κ) (t : FileTree κ ν) : FileTree κ ν := fun q => if p <+: q then none else t q

/-- The missing directories above the path are made. -/
def addParents (dir : ν) (p : List κ) (t : FileTree κ ν) : FileTree κ ν := fun q =>
  if q <+: p ∧ q ≠ p then some ((t q).getD dir) else t q

/-- Changes below the path, given by the paths relative to it. -/
def patch (p : List κ) (changes : List κ → Option (Option ν)) (t : FileTree κ ν) : FileTree κ ν := fun q =>
  if p <+: q then (changes (q.drop p.length)).getD (t q) else t q

section Frame
variable {p q r : List κ} {t : FileTree κ ν}

@[simp] theorem put_self (v : ν) : put p v t p = some v := if_pos rfl

theorem put_of_ne {v : ν} (h : q ≠ p) : put p v t q = t q := if_neg h

theorem removeTree_of_below (h : p <+: q) : removeTree p t q = none := if_pos h

theorem removeTree_of_not_below (h : ¬ p <+: q) : removeTree p t q = t q := if_neg h

theorem addParents_of_not_above {dir : ν} (h : ¬ (q <+: p ∧ q ≠ p)) : addParents dir p t q = t q := if_neg h

theorem patch_of_not_below {changes : List κ → Option (Option ν)} (h : ¬ p <+: q) :
    patch p changes t q = t q := if_neg h

theorem patch_append {changes : List κ → Option (Option ν)} (s : List κ) :
    patch p changes t (p ++ s) = (changes s).getD (t (p ++ s)) := by
  unfold patch
  rw [if_pos (List.prefix_append p s), List.drop_left]

end Frame

end FileTree

end Foundation
