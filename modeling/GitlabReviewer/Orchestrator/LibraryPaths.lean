import GitlabReviewer.Libraries.Mounts
import GitlabReviewer.Libraries.Paths
import GitlabReviewer.Orchestrator.Container
import GitlabReviewer.Orchestrator.Rendering

/-! # Where a review finds its libraries

The prompt takes an entry's path as it is, the mounts take it stripped and
checked, and the entrypoint derives it once more if nothing is left of it. The
three agree on clean paths; on others only if entries happen to stand in for
each other.
-/
namespace GitlabReviewer.Orchestrator
open Python Models Libraries

/-- The mount point the context line of an entry announces. -/
def announced (E : Runtime) : Json → Option Text
  | .obj fields => if (entryUrl E fields).isEmpty then none else some (announcedMount E fields)
  | _ => none

def announcedDirectories (E : Runtime) (entries : List Json) : List Path :=
  (entries.filterMap (announced E)).map components

/-- The `dst=/work/lib/{lib_relpath}` of the mounts. -/
def mountDirectories (mounts : List Mount) : List Path :=
  mounts.map fun mount => components ("/work/lib/".toList ++ mount.2)

def SameDirectories (announced mounts provided : List Path) : Prop :=
  ∀ p, (p ∈ announced ↔ p ∈ mounts) ∧ (p ∈ mounts ↔ p ∈ provided)

/-- A path that is more than slashes, has no blanks around it and stays below the root. -/
structure CleanPath (E : Runtime) (fields : List (Text × Json)) : Prop where
  nonempty : explicitPath E fields ≠ []
  inside : dotdot ∉ splitOn '/' (explicitPath E fields)
  bare : strip (field E "path" fields) = field E "path" fields

/-- An entry with another path is mounted at the directory that is announced, and the
directory the entry itself is mounted at, if it is, is announced for another one. -/
structure StoodIn (E : Runtime) (entries : List Json) (fields : List (Text × Json)) : Prop where
  mounted : ∃ other path, .obj other ∈ entries ∧ field E "path" other ≠ field E "path" fields ∧
    mountPath E (.obj other) = some path ∧ components path = components (field E "path" fields)
  announced : ∀ path, mountPath E (.obj fields) = some path → ∃ other, .obj other ∈ entries ∧
    field E "path" other ≠ field E "path" fields ∧ entryUrl E other ≠ [] ∧
    components (field E "path" other) = components path

def Matching (E : Runtime) (entries : List Json) : Prop :=
  ∀ fields, .obj fields ∈ entries → entryUrl E fields ≠ [] → CleanPath E fields ∨ StoodIn E entries fields

def libDirectory : Path := ["work".toList, "lib".toList]

section Directories
variable {E : Runtime} {F : FloatFormat} {entries : List Json} {fields : List (Text × Json)}

/-- The context line of an entry ends with the mount point it announces. -/
theorem libraryLine_announced (entry : Json) :
    ∃ before : Text, libraryLine E entry = (announced E entry).map fun mount => before ++ " mounted at ".toList ++ mount := by
  cases entry with
  | obj fields =>
    refine ⟨"- Extra library repo (read-only): ".toList ++ entryUrl E fields ++ " @ ".toList ++
      formatOr E "default branch".toList (fields.lookup "ref".toList), ?_⟩
    unfold libraryLine announced
    dsimp only
    split <;> rfl
  | _ => exact ⟨[], rfl⟩

theorem components_lib (path : Text) : components ("/work/lib/".toList ++ path) = libDirectory ++ components path :=
  components_append "/work/lib".toList path

theorem formatOr_field (key : String) : formatOr E [] (fields.lookup key.toList) = field E key fields := by
  unfold formatOr field
  cases fields.lookup key.toList <;> rfl

theorem components_announcedMount :
    components (announcedMount E fields) = libDirectory ++ components (field E "path" fields) := by
  unfold announcedMount
  rw [components_rdropSlashes, components_lib, formatOr_field]

theorem mem_announcedDirectories {p : Path} :
    p ∈ announcedDirectories E entries ↔ ∃ fields, .obj fields ∈ entries ∧ entryUrl E fields ≠ [] ∧
      p = libDirectory ++ components (field E "path" fields) := by
  unfold announcedDirectories
  simp only [List.mem_map, List.mem_filterMap]
  constructor
  · rintro ⟨mount, ⟨entry, hentry, hmount⟩, rfl⟩
    cases entry with
    | obj fields =>
      unfold announced at hmount
      dsimp only at hmount
      split at hmount
      · cases hmount
      · rename_i hurl
        cases hmount
        exact ⟨fields, hentry, by simpa using hurl, components_announcedMount⟩
    | _ => cases hmount
  · rintro ⟨fields, hentry, hurl, rfl⟩
    refine ⟨announcedMount E fields, ⟨.obj fields, hentry, ?_⟩, components_announcedMount⟩
    unfold announced
    dsimp only
    rw [if_neg (by simpa using hurl)]

/-- A path that is mounted is the stripped path of an entry with a url. -/
theorem mountPath_eq_some {entry : Json} {path : Text} (h : mountPath E entry = some path) :
    ∃ fields, entry = .obj fields ∧ entryUrl E fields ≠ [] ∧ path = explicitPath E fields ∧ path ≠ [] ∧
      dotdot ∉ splitOn '/' path := by
  cases entry with
  | obj fields =>
    unfold mountPath at h
    dsimp only at h
    split at h
    · cases h
    · rename_i hurl
      unfold libraryRelpath at h
      dsimp only at h
      split at h
      · cases h
      · rename_i hok
        cases h
        rw [Bool.or_eq_true, not_or, List.isEmpty_iff, List.contains_iff_mem] at hok
        exact ⟨fields, rfl, by simpa using hurl, rfl, hok.1, hok.2⟩
  | _ => cases h

theorem mountPath_of_clean (hurl : entryUrl E fields ≠ []) (hne : explicitPath E fields ≠ [])
    (hin : dotdot ∉ splitOn '/' (explicitPath E fields)) :
    mountPath E (.obj fields) = some (explicitPath E fields) := by
  unfold mountPath libraryRelpath
  dsimp only
  rw [if_neg (by simpa using hurl), if_neg (by simp [hne, hin])]

theorem providedPath_of_explicit (hurl : entryUrl E fields ≠ []) (hne : explicitPath E fields ≠ []) :
    providedPath E (.obj fields) = mountPath E (.obj fields) := by
  unfold providedPath mountPath libraryRelpath entrypointPath
  dsimp only
  rw [if_neg (by simpa using hurl), if_neg (by simpa using hne), if_neg (by simpa using hurl), Option.filter_some]
  cases (explicitPath E fields).isEmpty || (splitOn '/' (explicitPath E fields)).contains dotdot <;> rfl

/-- A clean path is announced as it is mounted. -/
theorem components_of_clean (h : CleanPath E fields) :
    components (explicitPath E fields) = components (field E "path" fields) := by
  unfold explicitPath
  rw [components_stripSlashes, h.bare]

/-- A mounted path is clean if it is announced at the directory of its mount. -/
theorem clean_of_components {path : Text} (h : mountPath E (.obj fields) = some path)
    (heq : components path = components (field E "path" fields)) : CleanPath E fields := by
  obtain ⟨_, hfields, -, rfl, hne, hin⟩ := mountPath_eq_some h
  cases hfields
  refine ⟨hne, hin, strip_eq_self ?_⟩
  unfold explicitPath at heq
  rwa [components_stripSlashes] at heq

theorem mountPath_congr {other : List (Text × Json)} (hpath : field E "path" other = field E "path" fields)
    (hurl : entryUrl E other ≠ []) (hurl' : entryUrl E fields ≠ []) :
    mountPath E (.obj other) = mountPath E (.obj fields) := by
  unfold mountPath libraryRelpath explicitPath
  dsimp only
  rw [if_neg (c := (entryUrl E other).isEmpty = true) (by simpa using hurl),
    if_neg (c := (entryUrl E fields).isEmpty = true) (by simpa using hurl'), hpath]

/-- What the entrypoint derives once more is announced, or skipped. -/
theorem providedPath_of_blank {all : List Json} (hn : normalizeExtraProjects E all = some entries)
    (hmem : .obj fields ∈ entries) (hurl : entryUrl E fields ≠ []) (hblank : explicitPath E fields = []) {path : Text}
    (h : providedPath E (.obj fields) = some path) : path = field E "path" fields := by
  unfold providedPath entrypointPath at h
  dsimp only at h
  rw [if_neg (by simpa using hurl), hblank, List.isEmpty_nil, if_pos rfl, entrypointDerivePath_eq,
    Option.filter_eq_some_iff] at h
  obtain ⟨hpath, husable⟩ := h
  rcases derived_of_blank hn hmem hurl hblank with ⟨name, hname, hbad⟩ | hfield
  · rw [hname] at hpath
    cases hpath
    rcases hbad with rfl | hdots
    · cases husable
    · rw [List.contains_iff_mem.mpr hdots, Bool.or_true] at husable
      cases husable
  · rw [hfield] at hpath
    exact (Option.some.inj hpath).symm

theorem dumpItems_end (indent : Option ℕ) (level : ℕ) (items : List Json) :
    ∃ body, dumpItems F true indent level items = body ++ [']'] := by
  induction items with
  | nil => exact ⟨gap indent level, by rw [dumpItems]⟩
  | cons item items ih =>
    obtain ⟨body, hbody⟩ := ih
    rw [dumpItems, hbody, ← List.append_assoc]
    exact ⟨_, rfl⟩

/-- A list is written between brackets, so there is nothing to strip. -/
theorem strip_dumps_arr (items : List Json) :
    strip (dumps F true none (.arr items)) = dumps F true none (.arr items) ∧ dumps F true none (.arr items) ≠ [] := by
  have hends : ∃ body, dumps F true none (.arr items) = '[' :: (body ++ [']']) := by
    cases items with
    | nil => exact ⟨[], rfl⟩
    | cons item items =>
      obtain ⟨body, hbody⟩ := dumpItems_end (F := F) none 0 items
      rw [dumps, dumpValue, hbody, ← List.append_assoc]
      exact ⟨_, rfl⟩
  obtain ⟨body, hbody⟩ := hends
  rw [hbody]
  exact ⟨stripBy_of_ends (by decide) (by decide) body, List.cons_ne_nil _ _⟩

end Directories

section Agreement
variable {E : Runtime} {F : FloatFormat} {C : Process} {job : ScheduledJob} {profile : ModelProfile}
  {settings : SettingsRow} {mr : MergeRequest} {env : Env} {entries : List Json}

theorem carries_libraries (h : buildEnv E F C job profile settings mr = some env) :
    ∃ entries, normalizeExtraProjects E job.extraProjects = some entries ∧
      getenv env "EXTRA_PROJECTS" = dumps F true none (.arr entries) ∧ workDir env = ["work".toList] := by
  obtain ⟨token, -, h⟩ := Option.bind_eq_some_iff.mp h
  obtain ⟨entries, hentries, h⟩ := Option.bind_eq_some_iff.mp h
  obtain ⟨prompt, -, h⟩ := Option.bind_eq_some_iff.mp h
  obtain ⟨apiKey, -, h⟩ := Option.bind_eq_some_iff.mp h
  cases h
  refine ⟨entries, hentries, rfl, ?_⟩
  rw [workDir, List.append_assoc, List.append_assoc, List.lookup_append, List.lookup_append, List.lookup_append,
    lookup_optional_ne (by decide), lookup_optional_ne (by decide), lookup_optional_ne (by decide)]
  rfl

/-- The entrypoint reads back the entries it was given. -/
theorem cloneExtraProjects_eq {σ : Type} {W : FileSystem σ} {s : σ} (hd : Dumpable F (.arr job.extraProjects))
    (hn : normalizeExtraProjects E job.extraProjects = some entries)
    (henv : buildEnv E F C job profile settings mr = some env) :
    cloneExtraProjects E W F env s = provideEach E W ["work".toList] entries s := by
  obtain ⟨entries', hn', hraw, hwork⟩ := carries_libraries henv
  rw [hn] at hn'
  cases hn'
  rw [Dumpable, dumpableItems_iff] at hd
  have hdump : Dumpable F (.arr entries) := by
    rw [Dumpable, dumpableItems_iff]
    intro entry hentry
    exact dumpable_normalizeFrom hd hn hentry
  have hread : loads F (dumps F true none (.arr entries)) = some (.arr entries) := by
    have hload := loads_dumps true none hdump [] [] (by simp) (by simp)
    rwa [List.nil_append, List.append_nil] at hload
  obtain ⟨hstrip, hne⟩ := strip_dumps_arr (F := F) entries
  unfold cloneExtraProjects
  rw [hraw, hstrip, hwork]
  dsimp only
  rw [if_neg (by simpa using hne), hread]

theorem mem_cloneExtraProjects {σ : Type} {W : FileSystem σ} {s s' : σ} {dests : List Path}
    (hd : Dumpable F (.arr job.extraProjects)) (hn : normalizeExtraProjects E job.extraProjects = some entries)
    (henv : buildEnv E F C job profile settings mr = some env)
    (h : cloneExtraProjects E W F env s = .ok (dests, s')) (p : Path) :
    p ∈ dests ↔ ∃ entry ∈ entries, ∃ path, providedPath E entry = some path ∧ p = libDirectory ++ components path := by
  rw [cloneExtraProjects_eq hd hn henv] at h
  rw [mem_provideEach h]
  rfl

theorem mem_mountDirectories {R : Type} {root : Path} {maxAgeHours : ℚ} {attempts : ℕ → Attempt R} {d : Disk R}
    {after : Preparation R} {mounts : List Mount} (hn : normalizeExtraProjects E job.extraProjects = some entries)
    (h : ensureLibraries E root maxAgeHours attempts job.extraProjects d = some after) (hout : after.result = .ok mounts)
    (p : Path) :
    p ∈ mountDirectories mounts ↔ ∃ entry ∈ entries, ∃ path, mountPath E entry = some path ∧
      p = libDirectory ++ components path := by
  have hpaths := mem_ensureLibraries hn h hout
  have hmem : p ∈ mountDirectories mounts ↔ ∃ path ∈ mounts.map (·.2), p = libDirectory ++ components path := by
    unfold mountDirectories
    simp only [List.mem_map, components_lib]
    constructor
    · rintro ⟨mount, hmount, rfl⟩
      exact ⟨mount.2, ⟨mount, hmount, rfl⟩, rfl⟩
    · rintro ⟨path, ⟨mount, hmount, rfl⟩, rfl⟩
      exact ⟨mount, hmount, rfl⟩
  rw [hmem]
  constructor
  · rintro ⟨path, hpath, rfl⟩
    obtain ⟨entry, hentry, hmount⟩ := (hpaths path).mp hpath
    exact ⟨entry, hentry, path, hmount, rfl⟩
  · rintro ⟨entry, hentry, path, hmount, rfl⟩
    exact ⟨path, (hpaths path).mpr ⟨entry, hentry, hmount⟩, rfl⟩

/-- The announced directories are the mounted ones exactly if the list is matching. -/
theorem announced_iff_mounted :
    (∀ p, (∃ fields, .obj fields ∈ entries ∧ entryUrl E fields ≠ [] ∧
          p = libDirectory ++ components (field E "path" fields)) ↔
        ∃ entry ∈ entries, ∃ path, mountPath E entry = some path ∧ p = libDirectory ++ components path) ↔
      Matching E entries := by
  constructor
  · intro h fields hmem hurl
    by_cases hclean : CleanPath E fields
    · exact .inl hclean
    right
    constructor
    · obtain ⟨entry, hentry, path, hpath, heq⟩ := (h _).mp ⟨fields, hmem, hurl, rfl⟩
      have hdir : components path = components (field E "path" fields) := (List.append_cancel_left heq).symm
      obtain ⟨other, rfl, hurl', -, -, -⟩ := mountPath_eq_some hpath
      refine ⟨other, path, hentry, ?_, hpath, hdir⟩
      intro hsame
      rw [mountPath_congr hsame hurl' hurl] at hpath
      exact hclean (clean_of_components hpath hdir)
    · intro path hpath
      obtain ⟨other, hother, hurl', heq⟩ := (h _).mpr ⟨_, hmem, path, hpath, rfl⟩
      have hdir : components (field E "path" other) = components path := (List.append_cancel_left heq).symm
      refine ⟨other, hother, ?_, hurl', hdir⟩
      intro hsame
      rw [hsame] at hdir
      exact hclean (clean_of_components hpath hdir.symm)
  · intro h p
    constructor
    · rintro ⟨fields, hmem, hurl, rfl⟩
      rcases h fields hmem hurl with hclean | hstood
      · exact ⟨_, hmem, _, mountPath_of_clean hurl hclean.nonempty hclean.inside, by rw [components_of_clean hclean]⟩
      · obtain ⟨other, path, hother, -, hpath, heq⟩ := hstood.mounted
        exact ⟨_, hother, path, hpath, by rw [heq]⟩
    · rintro ⟨entry, hentry, path, hpath, rfl⟩
      obtain ⟨fields, rfl, hurl, rfl, -, -⟩ := mountPath_eq_some hpath
      rcases h fields hentry hurl with hclean | hstood
      · exact ⟨fields, hentry, hurl, by rw [components_of_clean hclean]⟩
      · obtain ⟨other, hother, -, hurl', heq⟩ := hstood.announced _ hpath
        exact ⟨other, hother, hurl', by rw [heq]⟩

/-- If what is announced is mounted, the entrypoint provides no more and no less. -/
theorem mounted_iff_provided (hn : normalizeExtraProjects E job.extraProjects = some entries)
    (h : ∀ fields, .obj fields ∈ entries → entryUrl E fields ≠ [] → ∃ entry ∈ entries, ∃ path,
      mountPath E entry = some path ∧ components path = components (field E "path" fields)) (p : Path) :
    (∃ entry ∈ entries, ∃ path, mountPath E entry = some path ∧ p = libDirectory ++ components path) ↔
      ∃ entry ∈ entries, ∃ path, providedPath E entry = some path ∧ p = libDirectory ++ components path := by
  constructor
  · rintro ⟨entry, hentry, path, hpath, rfl⟩
    obtain ⟨fields, rfl, hurl, rfl, hne, -⟩ := mountPath_eq_some hpath
    exact ⟨_, hentry, _, (providedPath_of_explicit hurl hne).trans hpath, rfl⟩
  · rintro ⟨entry, hentry, path, hpath, rfl⟩
    cases entry with
    | obj fields =>
      have hurl : entryUrl E fields ≠ [] := by
        intro hempty
        unfold providedPath at hpath
        dsimp only at hpath
        rw [hempty, List.isEmpty_nil, if_pos rfl] at hpath
        cases hpath
      by_cases hblank : explicitPath E fields = []
      · obtain ⟨entry', hentry', path', hpath', heq⟩ := h fields hentry hurl
        rw [providedPath_of_blank hn hentry hurl hblank hpath]
        exact ⟨entry', hentry', path', hpath', by rw [heq]⟩
      · rw [providedPath_of_explicit hurl hblank] at hpath
        exact ⟨_, hentry, path, hpath, rfl⟩
    | _ => cases hpath

/-- If every clone succeeds, prompt, mounts and container agree exactly if every entry
with a url has a clean path, or entries with other paths stand in for it. -/
theorem library_paths_agree {R σ : Type} {root : Path} {maxAgeHours : ℚ} {attempts : ℕ → Attempt R} {d : Disk R}
    {after : Preparation R} {mounts : List Mount} {W : FileSystem σ} {s s' : σ} {dests : List Path}
    (hd : Dumpable F (.arr job.extraProjects)) (henv : buildEnv E F C job profile settings mr = some env)
    (hlib : ensureLibraries E root maxAgeHours attempts job.extraProjects d = some after)
    (hmounts : after.result = .ok mounts) (hclone : cloneExtraProjects E W F env s = .ok (dests, s')) :
    ∃ entries, normalizeExtraProjects E job.extraProjects = some entries ∧
      (SameDirectories (announcedDirectories E entries) (mountDirectories mounts) dests ↔ Matching E entries) := by
  obtain ⟨entries, hn, -, -⟩ := carries_libraries henv
  refine ⟨entries, hn, ?_⟩
  unfold SameDirectories
  simp only [mem_announcedDirectories, mem_mountDirectories hn hlib hmounts, mem_cloneExtraProjects hd hn henv hclone]
  constructor
  · intro h
    exact announced_iff_mounted.mp fun p => (h p).1
  · intro h p
    have hannounced := announced_iff_mounted.mpr h
    refine ⟨hannounced p, mounted_iff_provided hn ?_ p⟩
    intro fields hmem hurl
    obtain ⟨entry, hentry, path, hpath, heq⟩ := (hannounced _).mp ⟨fields, hmem, hurl, rfl⟩
    exact ⟨entry, hentry, path, hpath, (List.append_cancel_left heq).symm⟩

end Agreement

/-- Objects with string fields. -/
def StringEntries (entries : List Json) : Prop :=
  ∀ entry ∈ entries, ∃ fields : List (Text × Text), (fields.map (·.1)).Nodup ∧
    entry = .obj (fields.map fun f => (f.1, .str f.2))

def urlEntry (url : String) : Json := .obj [("url".toList, .str url.toList)]

def jobWith (entries : List Json) : ScheduledJob := { plainJob with extraProjects := entries }

theorem buildEnv_urlEntry (url : String) {entries : List Json}
    (h : normalizeExtraProjects plainRuntime [urlEntry url] = some entries) :
    ∃ env, buildEnv plainRuntime .none plainProcess (jobWith [urlEntry url]) (profileWith []) plainSettings
      plainMergeRequest = some env := by
  unfold buildEnv buildReviewPrompt contextLines
  rw [show (jobWith [urlEntry url]).extraProjects = [urlEntry url] from rfl, h]
  exact ⟨_, rfl⟩

theorem dumpable_urlEntry (url : String) : Dumpable .none (.arr (jobWith [urlEntry url]).extraProjects) :=
  ⟨⟨List.nodup_singleton _, ⟨⟩, ⟨⟩⟩, ⟨⟩⟩

/-- Git clones what it is asked for. -/
def cloning : ℕ → Attempt Unit := fun _ => ⟨⟨fun _ => .ok [], 0⟩, touching () [] none⟩

def emptyDisk : Disk Unit := fun _ => none

/-- Every mount is there. -/
def mountedSystem : FileSystem Unit := ⟨fun _ _ => true, fun _ _ _ _ => .ok ()⟩

def libaUrl : String := "https://git.example.com/group/liba.git"

def libaEntry : Json := .obj [("url".toList, .str libaUrl.toList), ("path".toList, .str "liba".toList)]

theorem library_paths_agree_liba :
    ∃ entries, normalizeExtraProjects plainRuntime (jobWith [urlEntry libaUrl]).extraProjects = some entries ∧
      (SameDirectories (announcedDirectories plainRuntime entries) (mountDirectories [(sampleLibrary, "liba".toList)])
        [libDirectory ++ ["liba".toList]] ↔ Matching plainRuntime entries) := by
  have hn : normalizeExtraProjects plainRuntime [urlEntry libaUrl] = some [libaEntry] := by rfl
  obtain ⟨env, henv⟩ := buildEnv_urlEntry libaUrl hn
  have hclone : cloneExtraProjects plainRuntime mountedSystem .none env () = .ok ([libDirectory ++ ["liba".toList]], ()) := by
    rw [cloneExtraProjects_eq (dumpable_urlEntry libaUrl) hn henv]
    rfl
  obtain ⟨after, hlib, hmounts⟩ : ∃ after, ensureLibraries plainRuntime sampleRoot 24 cloning [urlEntry libaUrl] emptyDisk =
      some after ∧ after.result = .ok [(sampleLibrary, "liba".toList)] := ⟨_, rfl, rfl⟩
  exact library_paths_agree (dumpable_urlEntry libaUrl) henv hlib hmounts hclone

/-- The prompt announces the library directory itself for a bare host, which is not mounted. -/
theorem bare_host_announced :
    ¬ ∀ (E : Runtime) (F : FloatFormat) (C : Process) (job : ScheduledJob) (profile : ModelProfile)
      (settings : SettingsRow) (mr : MergeRequest) (env : Env) (root : Path) (attempts : ℕ → Attempt Unit)
      (d : Disk Unit) (after : Preparation Unit) (mounts : List Mount) (W : FileSystem Unit) (dests : List Path)
      (entries : List Json), StringEntries job.extraProjects →
        buildEnv E F C job profile settings mr = some env →
          ensureLibraries E root 24 attempts job.extraProjects d = some after → after.result = .ok mounts →
            cloneExtraProjects E W F env () = .ok (dests, ()) →
              normalizeExtraProjects E job.extraProjects = some entries →
                SameDirectories (announcedDirectories E entries) (mountDirectories mounts) dests := by
  intro hclaim
  have hn : normalizeExtraProjects plainRuntime [urlEntry "https://git.example.com"] =
      some [urlEntry "https://git.example.com"] := by rfl
  obtain ⟨env, henv⟩ := buildEnv_urlEntry "https://git.example.com" hn
  have hstrings : StringEntries (jobWith [urlEntry "https://git.example.com"]).extraProjects := by
    intro entry hentry
    rw [List.mem_singleton.mp hentry]
    exact ⟨[("url".toList, "https://git.example.com".toList)], List.nodup_singleton _, rfl⟩
  have hclone : cloneExtraProjects plainRuntime mountedSystem .none env () = .ok ([], ()) := by
    rw [cloneExtraProjects_eq (dumpable_urlEntry _) hn henv]
    rfl
  have hsame := hclaim _ _ _ _ _ _ _ _ sampleRoot cloning emptyDisk _ _ mountedSystem _ _ hstrings henv rfl rfl hclone hn
  have hannounced : libDirectory ∈ announcedDirectories plainRuntime [urlEntry "https://git.example.com"] :=
    mem_announcedDirectories.mpr ⟨_, List.mem_singleton_self _, by decide, rfl⟩
  cases (hsame libDirectory).1.mp hannounced

end GitlabReviewer.Orchestrator
