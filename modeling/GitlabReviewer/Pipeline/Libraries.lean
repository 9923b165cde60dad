import GitlabReviewer.Libraries.Collisions
import GitlabReviewer.Orchestrator.LibraryPaths
import GitlabReviewer.Scheduling.ExtraProjects

/-! # From the schedule form into the container

What a form stores has no blanks around it, so the three places that work out
where a library goes agree on it, unless a path or a name leaves the directory
of the libraries.
-/
namespace GitlabReviewer.Pipeline
open Python Models Libraries Scheduling Settings Orchestrator

/-- The path of a library, or the name its URL gives, is a place below the directory of the libraries. -/
structure Placeable (E : Runtime) (library : KnownLibrary) : Prop where
  given : ∀ path ∈ library.path, stripSlashes path ≠ [] ∧ dotdot ∉ splitOn '/' (stripSlashes path)
  derived : library.path = none → ∃ name, derivePath E library.url = some name ∧ name ≠ [] ∧ name ≠ dotdot ∧ strip name = name

section Entries
variable {E : Runtime} {library : KnownLibrary} {fields : List (Text × Json)}

theorem field_str {key : String} {value : Text} (h : fields.lookup key.toList = some (.str value)) : field E key fields = value := by
  unfold field
  rw [h]
  cases value <;> rfl

theorem field_url : field E "url" (libraryFields library) = library.url := field_str (lookup_libraryFields library).1

theorem field_path : field E "path" (libraryFields library) = library.path.getD [] := by
  obtain ⟨-, -, hlookup⟩ := lookup_libraryFields library
  cases hpath : library.path with
  | none =>
    unfold field
    rw [hlookup, hpath]
    rfl
  | some path =>
    apply field_str
    rw [hlookup, hpath]
    rfl

theorem entryUrl_library (h : TypedLibrary library) : entryUrl E (libraryFields library) = library.url := by
  unfold entryUrl
  rw [field_url, h.url_strip]

theorem explicitPath_library (h : TypedLibrary library) :
    explicitPath E (libraryFields library) = stripSlashes (library.path.getD []) := by
  unfold explicitPath
  rw [field_path]
  cases hpath : library.path with
  | none => rfl
  | some path => rw [Option.getD_some, h.path_strip path hpath]

theorem clean_of_relpath {path : Text} (h : libraryRelpath E (.obj fields) = some path)
    (hbare : strip (field E "path" fields) = field E "path" fields) : CleanPath E fields := by
  unfold libraryRelpath at h
  dsimp only at h
  split at h
  · cases h
  · rename_i husable
    rw [Bool.or_eq_true, not_or, List.isEmpty_iff, List.contains_iff_mem] at husable
    exact ⟨husable.1, husable.2, hbare⟩

/-- A library with a path goes where it was typed. -/
theorem clean_given (h : TypedLibrary library) (hp : Placeable E library) {path : Text} (hpath : library.path = some path) :
    CleanPath E (libraryFields library) := by
  obtain ⟨hne, hin⟩ := hp.given path hpath
  have hexplicit : explicitPath E (libraryFields library) = stripSlashes path := by
    rw [explicitPath_library h, hpath, Option.getD_some]
  refine ⟨hexplicit ▸ hne, hexplicit ▸ hin, ?_⟩
  rw [field_path, hpath, Option.getD_some, h.path_strip path hpath]

/-- A library without one has a name of its own. -/
theorem plainName_library (h : TypedLibrary library) (hp : Placeable E library) (hpath : library.path = none) :
    ∃ name, plainName E (libraryEntry library) = some name ∧ strip name = name := by
  obtain ⟨name, hname, hne, hdots, hstrip⟩ := hp.derived hpath
  refine ⟨name, ?_, hstrip⟩
  have hexplicit : explicitPath E (libraryFields library) = [] := by
    rw [explicitPath_library h, hpath]
    rfl
  unfold plainName libraryEntry
  dsimp only
  rw [entryUrl_library h, hexplicit, hname, Option.filter_some, splitOn_of_not_mem (derivePath_noSlash hname)]
  simp [h.url_ne, hne, Ne.symm hdots]

theorem path_none_of_plainName (h : TypedLibrary library) (hp : Placeable E library) {name : Text}
    (hname : plainName E (libraryEntry library) = some name) : library.path = none := by
  obtain ⟨-, -, hunnamed, -⟩ := plainName_spec hname
  cases hpath : library.path with
  | none => rfl
  | some path =>
    have hexplicit := hunnamed.2
    rw [explicitPath_library h, hpath] at hexplicit
    exact absurd hexplicit (hp.given path hpath).1

/-- The name an entry gets, with or without a suffix, is a clean path. -/
theorem clean_named {name m : Text} (hname : plainName E (libraryEntry library) = some name) (hslash : '/' ∉ m) (hstrip : strip m = m)
    (hne : m ≠ []) (hdots : m ≠ dotdot) : CleanPath E (setField "path" (.str m) (libraryFields library)) := by
  refine clean_of_relpath (relpath_named hname hslash hstrip hne hdots) ?_
  rw [field_setPath, hstrip]

end Entries

section Normalized
variable {E : Runtime} {libraries : List KnownLibrary} {entries : List Json}

/-- Each entry, as it was typed or with the name its URL gives. -/
theorem normalized_cases (hn : normalizeExtraProjects E (libraries.map libraryEntry) = some entries)
    (hl : ∀ library ∈ libraries, TypedLibrary library ∧ Placeable E library)
    (hhex : ∀ url, ∀ c ∈ E.digest url, c ∈ "0123456789abcdef".toList) :
    ∀ x ∈ (libraries.map libraryEntry).zip entries, ∃ fields, x.2 = .obj fields ∧ urlOf E x.2 = urlOf E x.1 ∧ urlOf E x.1 ≠ [] ∧
      CleanPath E fields := by
  intro x hx
  obtain ⟨library, hlibrary, hentry⟩ := List.mem_map.mp (List.of_mem_zip hx).1
  obtain ⟨htyped, hplace⟩ := hl library hlibrary
  have hurl : urlOf E x.1 = library.url := by
    rw [← hentry]
    exact entryUrl_library htyped
  have hne : urlOf E x.1 ≠ [] := hurl ▸ htyped.url_ne
  rcases (normalizes_of hn).entry_cases x hx with ⟨hnone, hkept⟩ | ⟨name, hname, hform⟩
  · refine ⟨libraryFields library, by rw [hkept, ← hentry]; rfl, by rw [hkept], hne, ?_⟩
    cases hpath : library.path with
    | some path => exact clean_given htyped hplace hpath
    | none =>
      obtain ⟨name, hname, -⟩ := plainName_library htyped hplace hpath
      rw [← hentry, hname] at hnone
      cases hnone
  · rw [← hentry] at hname hform ⊢
    obtain ⟨_, -, -, hbase, hnonempty, hdots⟩ := plainName_spec hname
    obtain ⟨plain, hplain, hstrip⟩ := plainName_library htyped hplace (path_none_of_plainName htyped hplace hname)
    obtain rfl : plain = name := Option.some.inj (hplain.symm.trans hname)
    have hslash : '/' ∉ plain := derivePath_noSlash hbase
    have hnamed : ∀ m, '/' ∉ m → strip m = m → m ≠ [] → m ≠ dotdot → x.2 = named m (libraryEntry library) →
        ∃ fields, x.2 = .obj fields ∧ urlOf E x.2 = urlOf E (libraryEntry library) ∧ urlOf E (libraryEntry library) ≠ [] ∧
          CleanPath E fields := by
      intro m hm hmstrip hmne hmdots heq
      refine ⟨_, heq, ?_, hentry ▸ hne, clean_named hname hm hmstrip hmne hmdots⟩
      rw [heq]
      exact entryUrl_setPath _
    rcases hform with heq | heq
    · refine hnamed plain hslash hstrip hnonempty ?_ heq
      rintro rfl
      exact hdots (by decide)
    · obtain ⟨hnoslash, hblank⟩ := suffixed_parts (hhex _) hslash hstrip
      exact hnamed _ hnoslash hblank (by simp [suffixed]) (suffixed_ne_dotdot _ _) heq

theorem mem_normalized (hn : normalizeExtraProjects E (libraries.map libraryEntry) = some entries) {entry : Json} (h : entry ∈ entries) :
    ∃ x ∈ (libraries.map libraryEntry).zip entries, x.2 = entry := by
  have hsnd : ((libraries.map libraryEntry).zip entries).map Prod.snd = entries := List.map_snd_zip (normalizes_of hn).length.le
  rw [← hsnd] at h
  exact List.mem_map.mp h

theorem urls_normalized (hn : normalizeExtraProjects E (libraries.map libraryEntry) = some entries)
    (hl : ∀ library ∈ libraries, TypedLibrary library ∧ Placeable E library)
    (hhex : ∀ url, ∀ c ∈ E.digest url, c ∈ "0123456789abcdef".toList) : entries.map (urlOf E) = libraries.map (·.url) := by
  have hlength := (normalizes_of hn).length
  have hsame : ((libraries.map libraryEntry).zip entries).map (fun x => urlOf E x.2) =
      ((libraries.map libraryEntry).zip entries).map fun x => urlOf E x.1 := by
    apply List.map_congr_left
    intro x hx
    obtain ⟨_, -, hurl, -⟩ := normalized_cases hn hl hhex x hx
    exact hurl
  calc entries.map (urlOf E)
      = (((libraries.map libraryEntry).zip entries).map Prod.snd).map (urlOf E) := by rw [List.map_snd_zip hlength.le]
    _ = ((libraries.map libraryEntry).zip entries).map (fun x => urlOf E x.1) := by rw [List.map_map, ← hsame]; rfl
    _ = (((libraries.map libraryEntry).zip entries).map Prod.fst).map (urlOf E) := by rw [List.map_map]; rfl
    _ = (libraries.map libraryEntry).map (urlOf E) := by rw [List.map_fst_zip hlength.ge]
    _ = libraries.map (·.url) := by
      rw [List.map_map]
      apply List.map_congr_left
      intro library hlibrary
      exact entryUrl_library (hl library hlibrary).1

end Normalized

section Review
variable {E : Runtime} {F : FloatFormat} {C : Process} {job : ScheduledJob} {profile : ModelProfile}
  {settings : SettingsRow} {mr : MergeRequest} {env : Env}

end Review

/-- A form with two libraries whose URLs give one name. -/
def twoItems : List (Text × Text) :=
  [("model_profile_id".toList, ['1']), ("extra_url_0".toList, coreUrl), ("extra_ref_0".toList, []), ("extra_path_0".toList, []),
    ("extra_url_1".toList, toolsUrl), ("extra_ref_1".toList, []), ("extra_path_1".toList, [])]

def twoJob : ScheduledJob := jobWith [urlOnly coreUrl, urlOnly toolsUrl]

def secondLibrary : Path := ["libraries".toList, "liba-827391".toList]

theorem typedLibraries_two : typedLibraries twoItems = [⟨coreUrl, none, none⟩, ⟨toolsUrl, none, none⟩] := by rfl

theorem placeable_two : ∀ library ∈ typedLibraries twoItems, Placeable shaRuntime library := by
  have hliba : ∀ url ∈ [coreUrl, toolsUrl], derivePath shaRuntime url = some "liba".toList := by decide +kernel
  rw [typedLibraries_two]
  intro library hlibrary
  have hurl : library.url ∈ [coreUrl, toolsUrl] ∧ library.path = none := by
    rcases List.mem_cons.mp hlibrary with rfl | hlibrary
    · exact ⟨List.mem_cons_self, rfl⟩
    · rw [List.mem_singleton.mp hlibrary]
      exact ⟨List.mem_cons_of_mem _ List.mem_cons_self, rfl⟩
  exact ⟨by simp [hurl.2], fun _ => ⟨_, hliba _ hurl.1, by decide, by decide, by decide⟩⟩

end GitlabReviewer.Pipeline
