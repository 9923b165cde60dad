import GitlabReviewer.Orchestrator.Environment
import GitlabReviewer.Libraries.Checkout

/-! # The libraries inside the container

The entrypoint reads the entries from its environment, derives and checks their
paths with code of its own, and clones what no mount has put there.
-/
namespace GitlabReviewer.Orchestrator
open Python Models Libraries

/-- `_derive_path`. -/
def entrypointDerivePath (E : Runtime) (url : Text) : Option Text :=
  (urlPath E url).map fun path =>
    match ((splitOn '/' path).filter fun s => !s.isEmpty).getLast? with
    | none => []
    | some name => if endsWith name ".git".toList then name.take (name.length - 4) else name

/-- The file system of the container: whether a path exists, and a clone with
the making of its parent directory and the removal of write permissions. -/
structure FileSystem (σ : Type) where
  present : σ → Path → Bool
  clone : Path → Text → Text → σ → Except Trouble σ

/-- `Path(os.environ.get("WORK_DIR", "/work"))`, without the root. -/
def workDir (env : Env) : Path := components ((env.lookup "WORK_DIR".toList).getD "/work".toList)

section Clone
variable {σ : Type} (E : Runtime) (W : FileSystem σ) (work : Path)

/-- The path of an entry with a url; none is the `ValueError` of the url. -/
def entrypointPath (fields : List (Text × Json)) : Option Text :=
  let path := explicitPath E fields
  if path.isEmpty then entrypointDerivePath E (entryUrl E fields) else some path

/-- One round of the loop: the destination, unless the entry is skipped. -/
def provideLibrary (entry : Json) (s : σ) : Except Trouble (Option Path × σ) :=
  match entry with
  | .obj fields =>
      if (entryUrl E fields).isEmpty then .ok (none, s)
      else match entrypointPath E fields with
        | none => .error (.valueError [])
        | some path =>
            if path.isEmpty || (splitOn '/' path).contains dotdot then .ok (none, s)
            else
              let dest := work ++ "lib".toList :: components path
              if W.present s dest then .ok (some dest, s)
              else (W.clone dest (entryRef E fields) (entryUrl E fields) s).map fun s => (some dest, s)
  | _ => .ok (none, s)

def provideEach : List Json → σ → Except Trouble (List Path × σ)
  | [], s => .ok ([], s)
  | entry :: rest, s => do
      let (dest, s) ← provideLibrary E W work entry s
      let (dests, s) ← provideEach rest s
      .ok (dest.toList ++ dests, s)

/-- `_clone_extra_projects`: the destinations that are used as they are or created. -/
def cloneExtraProjects (F : FloatFormat) (env : Env) (s : σ) : Except Trouble (List Path × σ) :=
  let raw := strip (getenv env "EXTRA_PROJECTS")
  if raw.isEmpty then .ok ([], s)
  else match loads F raw with
    | none => .error (.runtimeError "EXTRA_PROJECTS is not valid JSON".toList)
    | some (.arr entries) => provideEach E W (workDir env) entries s
    | some _ => .error (.runtimeError "EXTRA_PROJECTS must be a JSON list of \x7burl, ref, path\x7d objects".toList)

end Clone

section Destinations
variable {σ : Type} {E : Runtime} {F : FloatFormat} {W : FileSystem σ} {work : Path}

/-- The path a library is provided at. -/
def providedPath (E : Runtime) : Json → Option Text
  | .obj fields =>
      if (entryUrl E fields).isEmpty then none
      else (entrypointPath E fields).filter fun path => !(path.isEmpty || (splitOn '/' path).contains dotdot)
  | _ => none

theorem entrypointDerivePath_eq (url : Text) : entrypointDerivePath E url = derivePath E url := rfl

theorem provideLibrary_dest {entry : Json} {s s' : σ} {dest : Option Path}
    (h : provideLibrary E W work entry s = .ok (dest, s')) :
    dest = (providedPath E entry).map fun path => work ++ "lib".toList :: components path := by
  cases entry with
  | obj fields =>
    unfold provideLibrary at h
    unfold providedPath
    dsimp only at h ⊢
    split at h
    · rename_i hurl
      cases h
      rw [if_pos hurl]
      rfl
    · rename_i hurl
      rw [if_neg hurl]
      cases hpath : entrypointPath E fields with
      | none =>
        rw [hpath] at h
        cases h
      | some path =>
        rw [hpath] at h
        dsimp only at h
        rw [Option.filter_some]
        split at h
        · rename_i hskip
          cases h
          rw [hskip]
          rfl
        · rename_i hskip
          rw [Bool.not_eq_true] at hskip
          rw [hskip]
          split at h
          · cases h
            rfl
          · cases hcloned : W.clone (work ++ "lib".toList :: components path) (entryRef E fields) (entryUrl E fields) s with
            | error trouble =>
              rw [hcloned] at h
              cases h
            | ok after =>
              rw [hcloned] at h
              cases h
              rfl
  | _ =>
    cases h
    rfl

theorem mem_provideEach {entries : List Json} {s s' : σ} {dests : List Path}
    (h : provideEach E W work entries s = .ok (dests, s')) (p : Path) :
    p ∈ dests ↔ ∃ entry ∈ entries, ∃ path, providedPath E entry = some path ∧ p = work ++ "lib".toList :: components path := by
  induction entries generalizing s dests with
  | nil =>
    cases h
    simp
  | cons entry entries ih =>
    unfold provideEach at h
    cases hfirst : provideLibrary E W work entry s with
    | error trouble =>
      rw [hfirst] at h
      cases h
    | ok first =>
      obtain ⟨dest, t⟩ := first
      rw [hfirst] at h
      cases hrest : provideEach E W work entries t with
      | error trouble =>
        simp only [bind, Except.bind, hrest] at h
        cases h
      | ok tail =>
        obtain ⟨later, t'⟩ := tail
        simp only [bind, Except.bind, hrest] at h
        cases h
        rw [List.mem_append, ih hrest, List.exists_mem_cons_iff, provideLibrary_dest hfirst]
        simp [eq_comm]

end Destinations

end GitlabReviewer.Orchestrator
