import GitlabReviewer.Libraries.Neighbours

/-! # The bind mounts of a run

One call for each entry of the normalized list, one mount for each path that
names a usable entry. The first call that raises ends the preparation.
-/
namespace GitlabReviewer.Libraries
open Python Foundation

/-- A host directory and the path below `/work/lib` it is mounted at. -/
abbrev Mount := Path × Text

/-- What git and the clock answer during one call. -/
structure Attempt (R : Type) where
  probe : Probe R
  answers : Answers R

/-- The usable path of an entry with a url. -/
def mountPath (E : Runtime) : Json → Option Text
  | .obj fields => if (entryUrl E fields).isEmpty then none else libraryRelpath E (.obj fields)
  | _ => none

/-- `mounts.append((str(dest), relpath))` unless the path is there already. -/
def addMount (E : Runtime) (entry : Json) (dest : Path) (mounts : List Mount) : List Mount :=
  match libraryRelpath E entry with
  | some relpath => if relpath ∈ mounts.map (·.2) then mounts else mounts ++ [(dest, relpath)]
  | none => mounts

/-- The mounts after a call that returned. -/
def mounted (E : Runtime) (entry : Json) (dest : Option Path) (mounts : List Mount) : List Mount :=
  match dest with
  | some dest => addMount E entry dest mounts
  | none => mounts

structure Preparation (R : Type) where
  disk : Disk R
  lines : List LogLine
  result : Except Trouble (List Mount)

section Ensure
variable {R : Type} (E : Runtime) (root : Path) (maxAgeHours : ℚ)

/-- The calls for the rest of the entries; `attempts n` is what the `n`-th of them meets. -/
def ensureEach : (attempts : ℕ → Attempt R) → List Json → List Mount → Disk R → Preparation R
  | _, [], mounts, d => ⟨d, [], .ok mounts⟩
  | attempts, entry :: rest, mounts, d =>
      let out := ensureLibraryCheckout maxAgeHours (attempts 0).probe (attempts 0).answers E root entry d
      match out.result with
      | .error trouble => ⟨out.disk, out.lines, .error trouble⟩
      | .ok dest =>
          let after := ensureEach (fun n => attempts (n + 1)) rest (mounted E entry dest mounts) out.disk
          { after with lines := out.lines ++ after.lines }

/-- `ensure_libraries`; none is the `ValueError` of an entry's url. -/
def ensureLibraries (attempts : ℕ → Attempt R) (entries : List Json) (d : Disk R) : Option (Preparation R) :=
  (normalizeExtraProjects E entries).map fun entries => ensureEach E root maxAgeHours attempts entries [] d

end Ensure

section Mounts
variable {R : Type} {E : Runtime} {root : Path} {maxAgeHours : ℚ} {d : Disk R} {entry : Json} {mounts : List Mount}

theorem mem_addMount {dest : Path} {relpath : Text} (h : libraryRelpath E entry = some relpath) (p : Text) :
    p ∈ (addMount E entry dest mounts).map (·.2) ↔ p ∈ mounts.map (·.2) ∨ p = relpath := by
  unfold addMount
  rw [h]
  dsimp only
  split
  · rename_i hmem
    constructor
    · exact .inl
    · rintro (hp | rfl)
      · exact hp
      · exact hmem
  · simp

theorem mountPath_eq_none (h : request E root entry = none) : mountPath E entry = none := by
  unfold request at h
  unfold mountPath
  cases entry with
  | obj fields =>
    dsimp only at h ⊢
    split at h
    · rename_i fields' relpath hentry hrel
      cases hentry
      split at h
      · rename_i hurl
        rw [if_pos hurl]
      · cases h
    · rename_i hnone
      split
      · rfl
      · cases hrel : libraryRelpath E (.obj fields) with
        | none => rfl
        | some relpath => exact absurd hrel (hnone fields relpath rfl)
  | _ => rfl

theorem mountPath_of_request {dest : Path} {ref url : Text} (h : request E root entry = some (dest, ref, url)) :
    ∃ relpath, libraryRelpath E entry = some relpath ∧ mountPath E entry = some relpath ∧
      dest = root ++ components relpath := by
  unfold request at h
  split at h
  · rename_i fields relpath hrel
    split at h
    · cases h
    · rename_i hurl
      cases h
      refine ⟨relpath, hrel, ?_, rfl⟩
      unfold mountPath
      dsimp only
      rw [if_neg hurl, hrel]
  · cases h

/-- One call that returns adds the path of its entry, if there is one. -/
theorem mem_mounted {attempt : Attempt R} {dest : Option Path}
    (h : (ensureLibraryCheckout maxAgeHours attempt.probe attempt.answers E root entry d).result = .ok dest) (p : Text) :
    p ∈ (mounted E entry dest mounts).map (·.2) ↔ p ∈ mounts.map (·.2) ∨ mountPath E entry = some p := by
  cases hreq : request E root entry with
  | none =>
    rw [(ensure_of_unusable attempt.answers hreq).2] at h
    cases h
    rw [mountPath_eq_none hreq]
    simp [mounted]
  | some asked =>
    obtain ⟨place, ref, url⟩ := asked
    obtain ⟨relpath, hrel, hpath, -⟩ := mountPath_of_request hreq
    rw [ensure_of_request attempt.answers hreq] at h
    rw [ensureAt_result h, mounted, mem_addMount hrel, hpath, Option.some.injEq, eq_comm]

/-- When every call returns, the mounts are at the usable paths. -/
theorem mem_ensureEach {attempts : ℕ → Attempt R} {entries : List Json} {out : List Mount}
    (h : (ensureEach E root maxAgeHours attempts entries mounts d).result = .ok out) (p : Text) :
    p ∈ out.map (·.2) ↔ p ∈ mounts.map (·.2) ∨ ∃ entry ∈ entries, mountPath E entry = some p := by
  induction entries generalizing attempts mounts d with
  | nil =>
    cases h
    simp
  | cons entry entries ih =>
    unfold ensureEach at h
    dsimp only at h
    split at h
    · cases h
    · rename_i dest hdest
      rw [ih h, mem_mounted hdest, or_assoc, List.exists_mem_cons_iff]

theorem mem_ensureLibraries {attempts : ℕ → Attempt R} {entries normalized : List Json} {after : Preparation R}
    {out : List Mount} (hn : normalizeExtraProjects E entries = some normalized)
    (h : ensureLibraries E root maxAgeHours attempts entries d = some after) (hout : after.result = .ok out) (p : Text) :
    p ∈ out.map (·.2) ↔ ∃ entry ∈ normalized, mountPath E entry = some p := by
  unfold ensureLibraries at h
  rw [hn] at h
  cases h
  rw [mem_ensureEach hout]
  simp

end Mounts

end GitlabReviewer.Libraries
