import GitlabReviewer.Libraries.Checkout

/-! # What a call does to the other checkouts

A call may touch whatever lies below the directory it leads to, what lies above
it may contain it, and a word that git takes for an option can do anything. So
the other checkouts are safe exactly when none of them is nested with the
directory, git is given no option, and the directory is below the checkout root.
-/
namespace GitlabReviewer.Libraries
open Python Foundation

section Request
variable {R : Type} (E : Runtime) (root : Path)

/-- The directory, ref and url a usable entry asks for. -/
def request (entry : Json) : Option (Path × Text × Text) :=
  match entry, libraryRelpath E entry with
  | .obj fields, some relpath =>
      if (entryUrl E fields).isEmpty then none
      else some (root ++ components relpath, entryRef E fields, entryUrl E fields)
  | _, _ => none

/-- The directory the call for an entry uses. -/
def usedDirectory (entry : Json) : Option Path := (request E root entry).map (·.1)

/-- A library checkout under the root. -/
structure IsCheckout (d : Disk R) (p : Path) : Prop where
  below : root <+: p
  strict : p ≠ root
  repository : ∃ repo marker, d (gitDir p) = some (.repository repo marker)

def Below (root p : Path) : Prop := root <+: p ∧ p ≠ root

/-- The directory is a strict descendant of the root, as it is written and where
it leads, and no other checkout loses, gains or changes a node. -/
structure Harmless (links : Links) (entry : Json) (d d' : Disk R) : Prop where
  descendant : ∀ dest, usedDirectory E root entry = some dest → Below root dest ∧ Below root (links.leads dest)
  others : ∀ p, IsCheckout root d p → usedDirectory E root entry ≠ some p → ∀ q, p <+: q → d' q = d q

end Request

/-- The call ends before it changes anything: the remote cannot be asked, the
checkout is fresh, or a symbolic link or a file is in the way of a clone. -/
def idle {R : Type} (links : Links) (maxAgeHours : ℚ) (probe : Probe R) (dest : Path) (url : Text) (d : Disk R) : Bool :=
  match hasCheckout probe (links.leads dest) url d with
  | .error _ => true
  | .ok true => isFresh maxAgeHours probe.now (syncTime (links.leads dest) d)
  | .ok false =>
      links.isLink dest || isFile (d (links.leads dest)) ||
        ((d (links.leads dest)).isNone && blocked d (links.leads dest))

section Calls
variable {R : Type} {E : Runtime} {root : Path} {links : Links} {maxAgeHours : ℚ} {probe : Probe R} {d : Disk R}
  {entry : Json} {dest : Path} {ref url : Text}

/-- The directory lies below the root, and the url has no blanks around it. -/
theorem request_parts (h : request E root entry = some (dest, ref, url)) :
    (∃ rel, dest = root ++ rel) ∧ strip url = url := by
  unfold request at h
  split at h
  · split at h
    · cases h
    · cases h
      exact ⟨⟨_, rfl⟩, strip_strip _⟩
  · cases h

theorem forEntry_of_request (ensure : Path → Text → Text → Disk R → Outcome R)
    (h : request E root entry = some (dest, ref, url)) : forEntry ensure E root entry d = ensure dest ref url d := by
  unfold request at h
  split at h
  · rename_i fields relpath hrel
    split at h
    · cases h
    · rename_i hurl
      cases h
      simp only [forEntry, hrel, if_neg hurl]
  · cases h

theorem forEntry_of_unusable (ensure : Path → Text → Text → Disk R → Outcome R) (h : request E root entry = none) :
    (forEntry ensure E root entry d).disk = d ∧ (forEntry ensure E root entry d).result = .ok none := by
  unfold request at h
  unfold forEntry
  cases hrel : libraryRelpath E entry with
  | none => cases entry <;> exact ⟨rfl, rfl⟩
  | some relpath =>
    rw [hrel] at h
    cases entry with
    | obj fields =>
      dsimp only at h ⊢
      by_cases hurl : (entryUrl E fields).isEmpty = true
      · rw [if_pos hurl]
        exact ⟨rfl, rfl⟩
      · rw [if_neg hurl] at h
        cases h
    | _ => exact ⟨rfl, rfl⟩

theorem ensure_of_request (answers : Answers R) (h : request E root entry = some (dest, ref, url)) :
    ensureLibraryCheckout maxAgeHours probe answers E root entry d =
      ensureAt maxAgeHours probe answers dest ref url d :=
  forEntry_of_request _ h

theorem ensure_of_unusable (answers : Answers R) (h : request E root entry = none) :
    (ensureLibraryCheckout maxAgeHours probe answers E root entry d).disk = d ∧
      (ensureLibraryCheckout maxAgeHours probe answers E root entry d).result = .ok none :=
  forEntry_of_unusable _ h

/-- A link that leads to no checkout of the url is left as it is. -/
theorem ensureThrough_of_link (answers : Answers R) (hlink : links.isLink dest = true)
    (hnone : hasCheckout probe (links.leads dest) url d = .ok false) :
    (ensureThrough links maxAgeHours probe answers dest ref url d).disk = d := by
  unfold ensureThrough
  rw [hnone, hlink]
  dsimp only
  split <;> rfl

/-- Anything else happens where the path leads. -/
theorem ensureThrough_disk (answers : Answers R)
    (h : links.isLink dest = false ∨ hasCheckout probe (links.leads dest) url d ≠ .ok false) :
    (ensureThrough links maxAgeHours probe answers dest ref url d).disk =
      (ensureAt maxAgeHours probe answers (links.leads dest) ref url d).disk := by
  unfold ensureThrough
  split
  · rename_i hnone hlink
    rcases h with hno | hsome
    · rw [hlink] at hno
      cases hno
    · exact absurd hnone hsome
  · rfl

/-- The calls that return go to the directory of a usable entry. -/
theorem ensureAt_result {probe : Probe R} {answers : Answers R} {dest : Path} {ref url : Text} {result : Option Path}
    (h : (ensureAt maxAgeHours probe answers dest ref url d).result = .ok result) : result = some dest := by
  unfold ensureAt at h
  split at h
  · cases h
  · split at h
    · cases h
      rfl
    · unfold resync at h
      split at h
      · split at h
        · cases h
          rfl
        · split at h
          · cases h
            rfl
          · cases h
      · cases h
        rfl
  · unfold reclone at h
    split at h
    · cases h
    · split at h
      · cases h
        rfl
      · cases h

/-- Without symbolic links it is the call itself. -/
theorem ensureThrough_none (answers : Answers R) :
    ensureThrough .none maxAgeHours probe answers dest ref url d = ensureAt maxAgeHours probe answers dest ref url d := by
  have hresult : (ensureAt maxAgeHours probe answers dest ref url d).result.map (fun path => path.map fun _ => dest) =
      (ensureAt maxAgeHours probe answers dest ref url d).result := by
    cases hout : (ensureAt maxAgeHours probe answers dest ref url d).result with
    | error trouble => rfl
    | ok result =>
      rw [ensureAt_result hout]
      rfl
  unfold ensureThrough Links.none
  dsimp only [id]
  rw [hresult]
  split
  · rename_i hlink
    cases hlink
  · rfl

theorem ensureLinkedCheckout_none (answers : Answers R) :
    ensureLinkedCheckout .none maxAgeHours probe answers E root entry d =
      ensureLibraryCheckout maxAgeHours probe answers E root entry d := by
  unfold ensureLinkedCheckout ensureLibraryCheckout
  congr 1
  funext dest ref url d
  exact ensureThrough_none answers

theorem ensureThrough_of_idle (answers : Answers R) (h : idle links maxAgeHours probe dest url d = true) :
    (ensureThrough links maxAgeHours probe answers dest ref url d).disk = d := by
  unfold idle at h
  cases hhas : hasCheckout probe (links.leads dest) url d with
  | error trouble =>
    rw [ensureThrough_disk answers (.inr (by rw [hhas]; exact nofun))]
    unfold ensureAt
    rw [hhas]
  | ok here =>
    rw [hhas] at h
    cases here with
    | true =>
      rw [ensureThrough_disk answers (.inr (by rw [hhas]; exact nofun))]
      unfold ensureAt
      rw [hhas]
      dsimp only at h ⊢
      rw [if_pos h]
    | false =>
      dsimp only at h
      cases hlink : links.isLink dest with
      | true => exact ensureThrough_of_link answers hlink hhas
      | false =>
        rw [ensureThrough_disk answers (.inl hlink)]
        unfold ensureAt
        rw [hhas]
        dsimp only
        unfold reclone
        by_cases hfile : isFile (d (links.leads dest)) = true
        · rw [if_pos hfile]
        · rw [if_neg hfile]
          have hblocked : (d (links.leads dest)).isNone = true ∧ blocked d (links.leads dest) = true := by
            simpa [hfile, hlink] using h
          have habsent : (d (links.leads dest)).isSome = false := by
            simpa using hblocked.1
          have hclone : cloneLibrary answers (links.leads dest) ref url d =
              (d, some (.osError "not a directory".toList)) := by
            unfold cloneLibrary
            rw [if_pos hblocked.2]
          simp only [cleared, habsent, Bool.false_eq_true, if_false, hclone]

/-- Every command that asks the remote fails; an option removes a directory. -/
def failing (victim : Path) : Answers R where
  fetch _ r := (r, some (.runtimeError []))
  detach r := (r, none)
  pull r := (r, some (.runtimeError []))
  clone _ _ := .failed none (.runtimeError [])
  changes _ := none
  program := FileTree.removeTree victim
  done := 0
  marking := .kept

def touchedName : Text := "touched".toList

/-- Every command succeeds, and one path of the work tree changes. -/
def touching (repo : R) (rel : Path) (leaf : Option Leaf) : Answers R where
  fetch _ r := (r, none)
  detach r := (r, none)
  pull r := (r, none)
  clone _ _ := .ok repo
  changes q := if q = rel then some leaf else none
  program := id
  done := 0
  marking := .kept

/-- What differs from the node that is there. -/
def different (node : Option (Node R)) : Option Leaf :=
  match node with
  | none => some (.file [])
  | some _ => none

theorem different_ne (node : Option (Node R)) : (different node).map Node.leaf ≠ node := by
  cases node <;> simp [different]

section Touching
variable {repo : R} {s : Path} {leaf : Option Leaf}

theorem touched_ne_gitDir (p q : Path) : p ++ [touchedName] ≠ gitDir q := by
  intro h
  have hname : touchedName ≠ gitName := by decide
  have hlast := congrArg List.getLast? h
  simp [gitDir, hname] at hlast

theorem run_touching (word : Text) (d : Disk R) : (touching repo s leaf).run word d = d := by
  unfold Answers.run
  split <;> rfl

theorem checkOut_touching (r : R) (marker : Option Python.Float) (d : Disk R) :
    checkOut (touching repo (s ++ [touchedName]) leaf) dest r marker d (dest ++ (s ++ [touchedName])) =
      leaf.map .leaf := by
  unfold checkOut
  rw [FileTree.patch_append]
  have hname : touchedName ≠ gitName := by decide
  have hallowed : ¬ (s ++ [touchedName] = [] ∨ (s ++ [touchedName]).getLast? = some gitName) := by
    simp [hname]
  unfold workTree
  rw [if_neg hallowed]
  simp [touching]

theorem markSynced_touching (d : Disk R) :
    markSynced (touching repo (s ++ [touchedName]) leaf) dest d (dest ++ (s ++ [touchedName])) =
      d (dest ++ (s ++ [touchedName])) := by
  cases hnode : d (gitDir dest) with
  | none => simp only [markSynced, hnode]
  | some node =>
    cases node with
    | leaf l => simp only [markSynced, hnode]
    | repository r marker =>
      simp only [markSynced, hnode]
      refine FileTree.put_of_ne ?_
      rw [← List.append_assoc]
      exact touched_ne_gitDir _ _

theorem resync_touching {r : R} {marker : Option Python.Float} (hd : d (gitDir dest) = some (.repository r marker)) :
    (resync (touching repo (s ++ [touchedName]) leaf) dest ref d).disk (dest ++ (s ++ [touchedName])) =
      leaf.map .leaf := by
  have hrefresh : refresh (touching repo (s ++ [touchedName]) leaf) dest ref r marker d =
      (checkOut (touching repo (s ++ [touchedName]) leaf) dest r marker d, none) := by
    unfold refresh
    rw [run_touching]
    split <;> rfl
  simp only [resync, hd, hrefresh]
  rw [markSynced_touching, checkOut_touching]

theorem reclone_touching (hfile : isFile (d dest) = false) (hfree : blocked (cleared dest d) dest = false) :
    (reclone (touching repo (s ++ [touchedName]) leaf) dest ref url d).disk (dest ++ (s ++ [touchedName])) =
      leaf.map .leaf := by
  have hclone : cloneLibrary (touching repo (s ++ [touchedName]) leaf) dest ref url (cleared dest d) =
        (checkOut (touching repo (s ++ [touchedName]) leaf) dest repo none
          (FileTree.put dest (.leaf .dir) (FileTree.addParents (.leaf .dir) dest (cleared dest d))), none) := by
    simp only [cloneLibrary, hfree, Bool.false_eq_true, if_false, run_touching]
    rfl
  simp only [reclone, hfile, Bool.false_eq_true, if_false, hclone]
  rw [markSynced_touching, checkOut_touching]

/-- A clone that finds no place for its directory has removed what was there. -/
theorem reclone_blocked (answers : Answers R) (hfile : isFile (d dest) = false) (hsome : (d dest).isSome = true)
    (hblocked : blocked (cleared dest d) dest = true) :
    (reclone answers dest ref url d).disk = FileTree.removeTree dest d := by
  have hclone : cloneLibrary answers dest ref url (cleared dest d) =
      (cleared dest d, some (.osError "not a directory".toList)) := by
    unfold cloneLibrary
    rw [if_pos hblocked]
  simp only [reclone, hfile, Bool.false_eq_true, if_false, hclone]
  exact if_pos hsome

end Touching

variable (ref) in
/-- What a call that is not idle goes on with. -/
theorem of_not_idle (hidle : idle links maxAgeHours probe dest url d = false) :
    (∀ answers : Answers R, (ensureThrough links maxAgeHours probe answers dest ref url d).disk =
      (ensureAt maxAgeHours probe answers (links.leads dest) ref url d).disk) ∧
    (hasCheckout probe (links.leads dest) url d = .ok true ∧
        isFresh maxAgeHours probe.now (syncTime (links.leads dest) d) = false ∨
      hasCheckout probe (links.leads dest) url d = .ok false ∧ isFile (d (links.leads dest)) = false ∧
        (blocked (cleared (links.leads dest) d) (links.leads dest) = true → (d (links.leads dest)).isSome = true)) := by
  unfold idle at hidle
  cases hhas : hasCheckout probe (links.leads dest) url d with
  | error trouble =>
    rw [hhas] at hidle
    cases hidle
  | ok here =>
    rw [hhas] at hidle
    cases here with
    | true => exact ⟨fun answers => ensureThrough_disk answers (.inr (by rw [hhas]; exact nofun)), .inl ⟨rfl, hidle⟩⟩
    | false =>
      dsimp only at hidle
      rw [Bool.or_eq_false_iff, Bool.or_eq_false_iff] at hidle
      obtain ⟨⟨hlink, hfile⟩, hfree⟩ := hidle
      refine ⟨fun answers => ensureThrough_disk answers (.inl hlink), .inr ⟨rfl, hfile, fun hblocked => ?_⟩⟩
      by_contra hnone
      rw [cleared, if_neg hnone] at hblocked
      simp_all

/-- A call that goes ahead next to a nested checkout can change it. -/
theorem changes_nested (ref : Text) (hidle : idle links maxAgeHours probe dest url d = false) {p : Path}
    (hp : IsCheckout root d p) (hnested : ¬ FileTree.Apart p (links.leads dest)) :
    ∃ answers q, p <+: q ∧ (ensureThrough links maxAgeHours probe answers dest ref url d).disk q ≠ d q := by
  obtain ⟨repo, marker, hrepo⟩ := hp.repository
  obtain ⟨hthrough, hgoes⟩ := of_not_idle ref hidle
  simp only [hthrough]
  clear hthrough hidle
  generalize links.leads dest = dest at hnested hgoes ⊢
  have hor : p <+: dest ∨ dest <+: p := by
    by_contra hno
    exact hnested ⟨fun h => hno (.inl h), fun h => hno (.inr h)⟩
  -- a path below both directories
  obtain ⟨s, hs⟩ : ∃ s, p <+: dest ++ s := by
    rcases hor with hpd | ⟨s, rfl⟩
    · exact ⟨[], by simpa using hpd⟩
    · exact ⟨s, List.prefix_refl _⟩
  have hbelow : p <+: dest ++ (s ++ [touchedName]) := by
    rw [← List.append_assoc]
    exact hs.trans (List.prefix_append _ _)
  have hdiffers : ∀ answers : Answers R,
      (ensureAt maxAgeHours probe answers dest ref url d).disk (dest ++ (s ++ [touchedName])) =
        (different (d (dest ++ (s ++ [touchedName])))).map .leaf →
      (ensureAt maxAgeHours probe answers dest ref url d).disk (dest ++ (s ++ [touchedName])) ≠
        d (dest ++ (s ++ [touchedName])) := by
    intro answers h
    rw [h]
    exact different_ne _
  rcases hgoes with ⟨hhas, hstale⟩ | ⟨hhas, hfile, hthere⟩
  · obtain ⟨_, _, _, hnode, -, -⟩ := repository_of_hasCheckout hhas
    refine ⟨touching repo (s ++ [touchedName]) (different (d (dest ++ (s ++ [touchedName])))), _, hbelow,
      hdiffers _ ?_⟩
    simp only [ensureAt, hhas, hstale, Bool.false_eq_true, if_false]
    exact resync_touching hnode
  · cases hblocked : blocked (cleared dest d) dest with
    | false =>
      refine ⟨touching repo (s ++ [touchedName]) (different (d (dest ++ (s ++ [touchedName])))), _, hbelow,
        hdiffers _ ?_⟩
      simp only [ensureAt, hhas]
      exact reclone_touching hfile hblocked
    | true =>
      have hsome := hthere hblocked
      have hdisk : ∀ answers : Answers R,
          (reclone answers dest ref url d).disk = FileTree.removeTree dest d :=
        fun answers => reclone_blocked answers hfile hsome hblocked
      rcases hor with hpd | hdp
      · refine ⟨touching repo [] none, dest, hpd, ?_⟩
        simp only [ensureAt, hhas]
        rw [hdisk, FileTree.removeTree_of_below (List.prefix_refl dest)]
        intro h
        rw [← h] at hsome
        cases hsome
      · refine ⟨touching repo [] none, gitDir p, below_gitDir p, ?_⟩
        simp only [ensureAt, hhas]
        rw [hdisk, FileTree.removeTree_of_below (hdp.trans (below_gitDir p)), hrepo]
        simp

/-- A call that hands git an option can remove any checkout. -/
theorem removed_by_option (hidle : idle links maxAgeHours probe dest url d = false) {word : Text}
    (hword : word ∈ spoken probe (links.leads dest) ref url d) (hoption : isOption word = true) {p : Path}
    (hp : IsCheckout root d p) :
    (ensureThrough links maxAgeHours probe (failing p) dest ref url d).disk (gitDir p) ≠ d (gitDir p) := by
  obtain ⟨repo, marker, hrepo⟩ := hp.repository
  obtain ⟨hthrough, hgoes⟩ := of_not_idle ref hidle
  rw [hthrough, hrepo]
  clear hthrough hidle
  generalize links.leads dest = dest at hword hgoes ⊢
  have hrun : ∀ d' : Disk R, (failing p).run word d' (gitDir p) = none := by
    intro d'
    unfold Answers.run
    rw [if_pos hoption]
    exact FileTree.removeTree_of_below (below_gitDir p)
  unfold spoken at hword
  rcases hgoes with ⟨hhas, hstale⟩ | ⟨hhas, hfile, -⟩
  · rw [hhas] at hword
    cases hword
    obtain ⟨repo', marker', -, hnode, -⟩ := repository_of_hasCheckout hhas
    have hnonempty : ref.isEmpty = false := by
      cases ref with
      | nil => cases hoption
      | cons => rfl
    have hrefresh : refresh (failing p) dest ref repo' marker' d =
        ((failing p).run ref (storeRepository dest repo' marker' d), some (.runtimeError [])) := by
      unfold refresh
      rw [hnonempty]
      rfl
    simp only [ensureAt, hhas, hstale, Bool.false_eq_true, if_false, resync, hnode, hrefresh, Trouble.tolerated,
      if_true, hrun]
    exact nofun
  · rw [hhas] at hword
    dsimp only at hword
    split at hword
    · cases hword
    · rename_i hfree
      cases hword
      have hclone : cloneLibrary (failing p) dest ref url (cleared dest d) =
          ((failing p).run url (FileTree.addParents (.leaf .dir) dest (cleared dest d)), some (.runtimeError [])) := by
        unfold cloneLibrary
        rw [if_neg hfree]
        rfl
      simp only [ensureAt, hhas, reclone, hfile, Bool.false_eq_true, if_false, hclone, hrun]
      exact nofun

end Calls

/-- A derived path is the root or one directory below it. -/
theorem derived_directory {E : Runtime} {root : Path} {fields : List (Text × Json)} {name : Text}
    (hname : '/' ∉ name) {dest : Path} {ref url : Text}
    (h : request E root (.obj (setField "path" (.str name) fields)) = some (dest, ref, url)) :
    dest = if strip name = dot then root else root ++ [strip name] := by
  have hpath : ∀ fields' : List (Text × Json), fields'.lookup "path".toList = some (.str name) →
      explicitPath E fields' = strip name := by
    intro fields' hlookup
    have hslash : ∀ c ∈ strip name, (c == '/') = false := by
      intro c hc
      have hmem : c ∈ name := mem_of_mem_stripBy hc
      simp only [beq_eq_false_iff_ne, ne_eq]
      rintro rfl
      exact hname hmem
    have hfield : field E "path" fields' = name := by
      unfold field
      rw [hlookup]
      cases name <;> simp [truthyJson, toText]
    unfold explicitPath
    rw [hfield]
    exact stripBy_of_forall hslash
  unfold request at h
  split at h
  · rename_i fields' relpath hentry hrel
    cases hentry
    split at h
    · cases h
    · cases h
      unfold libraryRelpath at hrel
      dsimp only at hrel
      split at hrel
      · cases hrel
      · rename_i hok
        cases hrel
        rw [hpath _ (lookup_setField "path" (.str name) fields)] at hok ⊢
        have hne : strip name ≠ [] := by
          intro he
          rw [he] at hok
          exact hok rfl
        have hslash : '/' ∉ strip name := fun hm => hname (mem_of_mem_stripBy hm)
        rw [components_of_noSlash hslash]
        by_cases hdot : strip name = dot
        · simp [hdot]
        · simp [hdot, hne]
  · cases h

def plainRuntime : Runtime := ⟨fun _ => [], fun _ => true, fun _ => "0a1b2c".toList⟩

def sampleRoot : Path := ["libraries".toList]
def sampleLibrary : Path := ["libraries".toList, "liba".toList]

/-- One checkout below the root. -/
def sampleDisk : Disk Unit := fun q =>
  if q = sampleRoot ∨ q = sampleLibrary then some (.leaf .dir)
  else if q = gitDir sampleLibrary then some (.repository () none)
  else none

def dotUrl : Json := .str "https://git.example.com/group/.".toList
def dotEntry : Json := .obj [("url".toList, dotUrl), ("path".toList, .str ".".toList)]

end GitlabReviewer.Libraries
