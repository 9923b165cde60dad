import GitlabReviewer.Orchestrator.LibraryPaths

/-! # The arguments of podman

A library is mounted by an option list in which its path stands twice. The list
is split at commas, and nothing keeps a comma out of a path.
-/
namespace GitlabReviewer.Orchestrator
open Python Models Libraries

/-- What the arguments of `podman run` are made from. -/
structure PodmanOrchestrator where
  image : Text
  network : Text
  memory : Text
  cpus : Text
  pidsLimit : ℤ
  podmanBin : Text

/-- The value of `--mount` for a library. -/
def libMount (pair : Text × Text) : Text :=
  "type=bind,src=".toList ++ pair.1 ++ ",dst=/work/lib/".toList ++ pair.2 ++ ",ro,Z".toList

/-- `build_argv`. -/
def buildArgv (O : PodmanOrchestrator) (env : Env) (outDir name : Text) (libMounts : List (Text × Text)) : List Text :=
  [O.podmanBin, "run".toList, "--memory=".toList ++ O.memory, "--cpus=".toList ++ O.cpus,
    "--pids-limit=".toList ++ reprInt O.pidsLimit, "--security-opt".toList, "no-new-privileges".toList,
    "--userns=keep-id".toList, "--network=".toList ++ O.network, "--name=".toList ++ name] ++
  env.flatMap (fun entry => ["-e".toList, entry.1]) ++
  ["--mount".toList, "type=bind,src=".toList ++ outDir ++ ",dst=/out,Z".toList] ++
  libMounts.flatMap (fun pair => ["--mount".toList, libMount pair]) ++ [O.image]

/-- What a path starts with. -/
inductive Anchor where
  | relative
  | root
  | doubleRoot

def Anchor.text : Anchor → Text
  | .relative => []
  | .root => ['/']
  | .doubleRoot => ['/', '/']

/-- `str(path)`. -/
def strPath : Anchor → Path → Text
  | .relative, [] => ['.']
  | anchor, path => anchor.text ++ List.intercalate ['/'] path

/-- The pair for a mount below a root with this anchor. -/
def hostPair (anchor : Anchor) (mount : Mount) : Text × Text := (strPath anchor mount.1, mount.2)

/-- `key=value`, or a key alone. -/
def readOption (option : Text) : Text × Option Text :=
  (option.takeWhile (· ≠ '='), (option.dropWhile (· ≠ '=')).tail?)

/-- The options of a comma-separated list. -/
def readOptions (value : Text) : List (Text × Option Text) := (splitOn ',' value).map readOption

/-- A read-only, relabelled bind mount of the host path, and nothing else. -/
def bindOptions (pair : Text × Text) : List (Text × Option Text) :=
  [("type".toList, some "bind".toList), ("src".toList, some pair.1), ("dst".toList, some ("/work/lib/".toList ++ pair.2)),
    ("ro".toList, none), ("Z".toList, none)]

/-- Each pair has its `--mount` among the arguments, and its value says what it is meant to say. -/
def ExactMounts (argv : List Text) (pairs : List (Text × Text)) : Prop :=
  ∀ pair ∈ pairs, ["--mount".toList, libMount pair] <:+: argv ∧ readOptions (libMount pair) = bindOptions pair

section Options
variable {anchor : Anchor} {path : Path} {pair : Text × Text}

theorem comma_not_mem_strPath (h : ∀ name ∈ path, ',' ∉ name) : ',' ∉ strPath anchor path := by
  have hjoin : ',' ∉ List.intercalate ['/'] path := by
    induction path with
    | nil => simp
    | cons name path ih =>
      rw [List.forall_mem_cons] at h
      cases path with
      | nil => simpa using h.1
      | cons next path =>
        have hrest := ih h.2
        simp only [List.intercalate, List.intersperse, List.flatten_cons, List.mem_append] at hrest ⊢
        rintro (hname | hslash | hmem)
        · exact h.1 hname
        · simp at hslash
        · exact hrest hmem
  cases anchor <;> cases path <;> simp_all [strPath, Anchor.text]

theorem comma_not_mem_components {relpath : Text} (h : ',' ∉ relpath) : ∀ name ∈ components relpath, ',' ∉ name := by
  intro name hname hmem
  have hflat : ',' ∈ (splitOn '/' relpath).flatten := List.mem_flatten.mpr ⟨name, (List.mem_filter.mp hname).1, hmem⟩
  rw [flatten_splitOn] at hflat
  exact h (List.mem_filter.mp hflat).1

theorem splitOn_template {sep : Char} {a b c d e x y : Text} (ha : sep ∉ a) (hd : sep ∉ d) (he : sep ∉ e) :
    splitOn sep (a ++ sep :: b ++ x ++ sep :: c ++ y ++ sep :: d ++ sep :: e) =
      a :: (splitOn sep (b ++ x) ++ (splitOn sep (c ++ y) ++ [d, e])) := by
  have hgroup : a ++ sep :: b ++ x ++ sep :: c ++ y ++ sep :: d ++ sep :: e =
      a ++ sep :: ((b ++ x) ++ sep :: ((c ++ y) ++ sep :: (d ++ sep :: e))) := by
    simp only [List.append_assoc, List.cons_append]
  rw [hgroup, splitOn_append, splitOn_append, splitOn_append, splitOn_append, splitOn_of_not_mem ha, splitOn_of_not_mem hd,
    splitOn_of_not_mem he, List.singleton_append]
  rfl

/-- The commas of the template, and those of the two paths. -/
theorem splitOn_libMount (pair : Text × Text) : splitOn ',' (libMount pair) =
    "type=bind".toList :: (splitOn ',' ("src=".toList ++ pair.1) ++ (splitOn ',' ("dst=/work/lib/".toList ++ pair.2) ++
      ["ro".toList, "Z".toList])) := by
  have hvalue : libMount pair = "type=bind".toList ++ ',' :: "src=".toList ++ pair.1 ++ ',' :: "dst=/work/lib/".toList ++
      pair.2 ++ ',' :: "ro".toList ++ ',' :: "Z".toList := by
    rw [List.append_assoc (_ ++ pair.2)]
    rfl
  exact (congrArg (splitOn ',') hvalue).trans (splitOn_template (by decide) (by decide) (by decide))

theorem two_le_length_splitOn {sep : Char} {s : Text} (h : sep ∈ s) : 2 ≤ (splitOn sep s).length := by
  obtain ⟨before, after, rfl⟩ := List.append_of_mem h
  have hbefore := List.length_pos_iff.mpr (splitOn_ne_nil sep before)
  have hafter := List.length_pos_iff.mpr (splitOn_ne_nil sep after)
  rw [splitOn_append, List.length_append]
  omega

theorem readOption_append {key value : Text} (h : '=' ∉ key) : readOption (key ++ '=' :: value) = (key, some value) := by
  have hkey : ∀ c ∈ key, (decide (c ≠ '=')) = true := by
    intro c hc
    rw [decide_eq_true_eq]
    rintro rfl
    exact h hc
  unfold readOption
  rw [List.takeWhile_append_of_pos hkey, List.dropWhile_append_of_pos hkey]
  simp

/-- The list says what it is meant to say exactly if neither path has a comma. -/
theorem readOptions_libMount_iff : readOptions (libMount pair) = bindOptions pair ↔ ',' ∉ pair.1 ∧ ',' ∉ pair.2 := by
  unfold readOptions
  rw [splitOn_libMount]
  constructor
  · intro h
    have hlength := congrArg List.length h
    simp only [List.length_map, List.length_cons, List.length_append, List.length_nil, bindOptions] at hlength
    have hsrc := List.length_pos_iff.mpr (splitOn_ne_nil ',' ("src=".toList ++ pair.1))
    have hdst := List.length_pos_iff.mpr (splitOn_ne_nil ',' ("dst=/work/lib/".toList ++ pair.2))
    constructor
    · intro hmem
      have htwo := two_le_length_splitOn (List.mem_append_right "src=".toList hmem)
      omega
    · intro hmem
      have htwo := two_le_length_splitOn (List.mem_append_right "dst=/work/lib/".toList hmem)
      omega
  · rintro ⟨hhost, hpath⟩
    have hsrc : ',' ∉ "src=".toList ++ pair.1 := fun h => (List.mem_append.mp h).elim (by decide) hhost
    have hdst : ',' ∉ "dst=/work/lib/".toList ++ pair.2 := fun h => (List.mem_append.mp h).elim (by decide) hpath
    have hnotKey : '=' ∉ "src".toList ∧ '=' ∉ "dst".toList := by decide
    have hsrcOption : readOption ("src=".toList ++ pair.1) = ("src".toList, some pair.1) := readOption_append hnotKey.1
    have hdstOption : readOption ("dst=/work/lib/".toList ++ pair.2) = ("dst".toList, some ("/work/lib/".toList ++ pair.2)) :=
      readOption_append hnotKey.2
    rw [splitOn_of_not_mem hsrc, splitOn_of_not_mem hdst]
    simp only [List.singleton_append, List.map_cons, List.map_nil, hsrcOption, hdstOption]
    rfl

theorem mount_infix_buildArgv {O : PodmanOrchestrator} {env : Env} {outDir name : Text} {pairs : List (Text × Text)} (h : pair ∈ pairs) :
    ["--mount".toList, libMount pair] <:+: buildArgv O env outDir name pairs := by
  have hwithin : ["--mount".toList, libMount pair] <:+: pairs.flatMap fun pair => ["--mount".toList, libMount pair] := by
    obtain ⟨before, after, rfl⟩ := List.append_of_mem h
    rw [List.flatMap_append, List.flatMap_cons, ← List.append_assoc]
    exact List.infix_append _ _ _
  exact hwithin.trans (List.infix_append _ _ _)

end Options

section Mounts
variable {R : Type} {E : Runtime} {root : Path} {maxAgeHours : ℚ} {attempts : ℕ → Attempt R} {entries : List Json} {d : Disk R}
  {mounts out : List Mount}

theorem fst_of_mem_mounted {attempt : Attempt R} {entry : Json} {dest : Option Path}
    (h : (ensureLibraryCheckout maxAgeHours attempt.probe attempt.answers E root entry d).result = .ok dest) {mount : Mount}
    (hmem : mount ∈ mounted E entry dest mounts) : mount ∈ mounts ∨ mount.1 = root ++ components mount.2 := by
  cases hreq : request E root entry with
  | none =>
    rw [(ensure_of_unusable attempt.answers hreq).2] at h
    cases h
    exact .inl hmem
  | some asked =>
    obtain ⟨place, ref, url⟩ := asked
    obtain ⟨relpath, hrel, -, rfl⟩ := mountPath_of_request hreq
    rw [ensure_of_request attempt.answers hreq] at h
    rw [ensureAt_result h, mounted, addMount, hrel] at hmem
    dsimp only at hmem
    split at hmem
    · exact .inl hmem
    · rcases List.mem_append.mp hmem with hmem | hmem
      · exact .inl hmem
      · obtain rfl := List.mem_singleton.mp hmem
        exact .inr rfl

/-- Each host path is the root with the mount's own path. -/
theorem fst_of_mem_ensureEach (h : (ensureEach E root maxAgeHours attempts entries mounts d).result = .ok out) {mount : Mount}
    (hmem : mount ∈ out) : mount ∈ mounts ∨ mount.1 = root ++ components mount.2 := by
  induction entries generalizing attempts mounts d with
  | nil =>
    cases h
    exact .inl hmem
  | cons entry entries ih =>
    unfold ensureEach at h
    dsimp only at h
    split at h
    · cases h
    · rename_i dest hdest
      rcases ih h with hmounted | hfst
      · exact fst_of_mem_mounted hdest hmounted
      · exact .inr hfst

/-- No usable path of the entries has a comma. -/
def CommaFree (E : Runtime) (entries : List Json) : Prop :=
  ∀ normalized, normalizeExtraProjects E entries = some normalized →
    ∀ entry ∈ normalized, ∀ path, mountPath E entry = some path → ',' ∉ path

/-- Below a root without commas, the options of every mount are the intended ones
exactly if no usable path has a comma. -/
theorem lib_mounts_exact_iff (O : PodmanOrchestrator) (env : Env) (outDir name : Text) (anchor : Anchor)
    (hroot : ∀ name ∈ root, ',' ∉ name) {after : Preparation R}
    (h : ensureLibraries E root maxAgeHours attempts entries d = some after) (hout : after.result = .ok mounts) :
    ExactMounts (buildArgv O env outDir name (mounts.map (hostPair anchor))) (mounts.map (hostPair anchor)) ↔ CommaFree E entries := by
  obtain ⟨normalized, hn, hafter⟩ := Option.map_eq_some_iff.mp h
  have hpaths := mem_ensureLibraries hn h hout
  have hfst : ∀ mount ∈ mounts, mount.1 = root ++ components mount.2 := by
    intro mount hmount
    rw [← hafter] at hout
    exact (fst_of_mem_ensureEach hout hmount).resolve_left (by simp)
  constructor
  · intro hexact normalized' hn' entry hentry path hpath
    obtain rfl := Option.some.inj (hn.symm.trans hn')
    obtain ⟨mount, hmount, rfl⟩ := List.mem_map.mp ((hpaths path).mpr ⟨entry, hentry, hpath⟩)
    exact (readOptions_libMount_iff.mp (hexact _ (List.mem_map_of_mem hmount)).2).2
  · intro hfree pair hpair
    refine ⟨mount_infix_buildArgv hpair, readOptions_libMount_iff.mpr ?_⟩
    obtain ⟨mount, hmount, rfl⟩ := List.mem_map.mp hpair
    obtain ⟨entry, hentry, hpath⟩ := (hpaths mount.2).mp (List.mem_map_of_mem hmount)
    have hcomma : ',' ∉ mount.2 := hfree normalized hn entry hentry mount.2 hpath
    refine ⟨comma_not_mem_strPath fun name hname => ?_, hcomma⟩
    rw [hfst mount hmount] at hname
    rcases List.mem_append.mp hname with hname | hname
    · exact hroot name hname
    · exact comma_not_mem_components hcomma name hname

end Mounts

section Example

def plainOrchestrator : PodmanOrchestrator :=
  ⟨"mr-review-runner:latest".toList, "podman".toList, "2g".toList, "2".toList, 256, "podman".toList⟩

theorem lib_mounts_exact_liba :
    ExactMounts (buildArgv plainOrchestrator [] "/tmp/out".toList "mr-review-1-0a1b2c3d".toList
      ([(sampleLibrary, "liba".toList)].map (hostPair .root))) ([(sampleLibrary, "liba".toList)].map (hostPair .root)) ↔
        CommaFree plainRuntime [urlEntry libaUrl] := by
  obtain ⟨after, hlib, hmounts⟩ : ∃ after, ensureLibraries plainRuntime sampleRoot 24 cloning [urlEntry libaUrl] emptyDisk =
      some after ∧ after.result = .ok [(sampleLibrary, "liba".toList)] := ⟨_, rfl, rfl⟩
  exact lib_mounts_exact_iff _ _ _ _ .root (by decide) hlib hmounts

/-- A library whose path ends with an option. -/
def writableEntry : Json := .obj [("url".toList, .str libaUrl.toList), ("path".toList, .str "liba,rw".toList)]

example : readOptions (libMount (hostPair .root (["libraries".toList, "liba,rw".toList], "liba,rw".toList))) =
    [("type".toList, some "bind".toList), ("src".toList, some "/libraries/liba".toList), ("rw".toList, none),
      ("dst".toList, some "/work/lib/liba".toList), ("rw".toList, none), ("ro".toList, none), ("Z".toList, none)] := by rfl

/-- The path makes the mount writable once more before it is read-only. -/
theorem lib_mounts_rewritten : ¬ ∀ (O : PodmanOrchestrator) (E : Runtime) (root : Path) (anchor : Anchor)
    (attempts : ℕ → Attempt Unit) (entries : List Json) (d : Disk Unit) (after : Preparation Unit) (mounts : List Mount),
      (∀ name ∈ root, ',' ∉ name) → ensureLibraries E root 24 attempts entries d = some after → after.result = .ok mounts →
        ExactMounts (buildArgv O [] "/tmp/out".toList "mr-review-1-0a1b2c3d".toList (mounts.map (hostPair anchor)))
          (mounts.map (hostPair anchor)) := by
  intro hclaim
  obtain ⟨after, hlib, hmounts⟩ : ∃ after, ensureLibraries plainRuntime sampleRoot 24 cloning [writableEntry] emptyDisk =
      some after ∧ after.result = .ok [(["libraries".toList, "liba,rw".toList], "liba,rw".toList)] := ⟨_, rfl, rfl⟩
  have hexact := hclaim plainOrchestrator _ sampleRoot .root cloning _ _ after _ (by decide) hlib hmounts
  exact (readOptions_libMount_iff.mp (hexact _ (List.mem_singleton_self _)).2).2 (by decide)

end Example

end GitlabReviewer.Orchestrator
