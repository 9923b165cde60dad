import GitlabReviewer.Orchestrator.Podman

/-! # Stopping the container of a run

A container is started under a name that ends with a random token, and stopped by
the part of the name before the token. Podman knows containers by their whole
names and by prefixes of their ids.
-/
namespace GitlabReviewer.Orchestrator
open Python

def hexDigits : Text := "0123456789abcdef".toList

/-- `secrets.token_hex(4)`. -/
structure Token where
  text : Text
  length_eq : text.length = 8
  hex : ∀ c ∈ text, c ∈ hexDigits

/-- The id podman gives a container. -/
structure ContainerId where
  text : Text
  length_eq : text.length = 64
  hex : ∀ c ∈ text, c ∈ hexDigits

structure Container where
  name : Text
  id : ContainerId

/-- `f"mr-review-{run.id or 0}-{secrets.token_hex(4)}"`. -/
def containerName (runId : Option ℤ) (token : Token) : Text :=
  "mr-review-".toList ++ reprInt (runId.getD 0) ++ ['-'] ++ token.text

/-- The argument of `stop_run_container`. -/
def stopReference (runId : ℤ) : Text := "mr-review-".toList ++ reprInt runId ++ ['-']

def stopArgv (O : PodmanOrchestrator) (runId : ℤ) : List Text := [O.podmanBin, "stop".toList, stopReference runId]

/-- What `podman stop` acts on: the container of that name, and those whose ids start so. -/
def podmanStop (reference : Text) (live : List Container) : List Container :=
  live.filter fun c => decide (c.name = reference) || reference.isPrefixOf c.id.text

/-- The container of this run is stopped, and none of the others. -/
def StopsOnly (runId : ℤ) (own : Container) (others : List Container) : Prop :=
  ∀ c ∈ own :: others, c ∈ podmanStop (stopReference runId) (own :: others) ↔ c = own

theorem token_ne_nil (token : Token) : token.text ≠ [] := by
  intro h
  have hlength := token.length_eq
  rw [h] at hlength
  cases hlength

/-- The reference is not the name, the token is missing. -/
theorem containerName_ne (runId : ℤ) (token : Token) : containerName (some runId) token ≠ stopReference runId := by
  intro h
  have hname : stopReference runId ++ token.text = stopReference runId := h
  exact token_ne_nil token (List.append_right_eq_self.mp hname)

/-- The reference is no beginning of an id, which has no `m`. -/
theorem not_prefix_id (runId : ℤ) (id : ContainerId) : ¬ stopReference runId <+: id.text := by
  intro h
  have hmem : 'm' ∈ id.text := h.subset List.mem_cons_self
  exact absurd (id.hex 'm' hmem) (by decide)

theorem not_mem_podmanStop {runId : ℤ} {token : Token} {c : Container} (hname : c.name = containerName (some runId) token)
    (live : List Container) : c ∉ podmanStop (stopReference runId) live := by
  intro h
  have hmatch := (List.mem_filter.mp h).2
  rw [Bool.or_eq_true, decide_eq_true_eq, List.isPrefixOf_iff_prefix, hname] at hmatch
  exact hmatch.elim (containerName_ne runId token) (not_prefix_id runId c.id)

/-- Whatever the run, its token, its container's id and the other containers are,
stopping the run does not stop its container. -/
theorem never_stopsOnly (runId : ℤ) (token : Token) (id : ContainerId) (others : List Container) :
    ¬ StopsOnly runId ⟨containerName (some runId) token, id⟩ others := by
  intro h
  exact not_mem_podmanStop rfl _ ((h _ List.mem_cons_self).mpr rfl)

section Example

/-- Each digit is looked up by itself, not every character of the alphabet. -/
theorem hex_of_all {text : Text} (h : (text.all fun c => hexDigits.contains c) = true) : ∀ c ∈ text, c ∈ hexDigits := by
  intro c hc
  exact List.contains_iff_mem.mp (List.all_eq_true.mp h c hc)

def sampleToken : Token := ⟨"0a1b2c3d".toList, by decide, hex_of_all (by decide)⟩

def sampleId : ContainerId := ⟨List.replicate 64 'f', List.length_replicate, hex_of_all (by decide)⟩

theorem stops_nothing : ¬ ∀ (runId : ℤ) (token : Token) (id : ContainerId) (others : List Container),
    (∀ c ∈ others, ∃ other token, other ≠ runId ∧ c.name = containerName (some other) token) →
      StopsOnly runId ⟨containerName (some runId) token, id⟩ others := by
  intro hclaim
  have honly := hclaim 13 sampleToken sampleId [] (by simp)
  exact not_mem_podmanStop rfl _ ((honly _ List.mem_cons_self).mpr rfl)

end Example

end GitlabReviewer.Orchestrator
