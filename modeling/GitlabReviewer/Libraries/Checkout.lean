import GitlabReviewer.Foundation.FileTree
import GitlabReviewer.Libraries.Entries

/-! # Keeping one checkout for each library

The directory below the checkout root, what git and the clock answer during one
call, and `ensure_library_checkout` over them: reuse a fresh checkout, re-sync a
stale one, remove and clone anything else. What a repository holds is left
open; git changes it and the work tree around it.
-/
namespace GitlabReviewer.Libraries
open Python Foundation

inductive Leaf where
  | file (content : Text)
  | dir
  deriving DecidableEq

/-- A `.git` directory is one node, with the content of its `mrreview-sync`. -/
inductive Node (R : Type) where
  | leaf (l : Leaf)
  | repository (repo : R) (marker : Option Python.Float)

abbrev Disk (R : Type) := FileTree Text (Node R)

def gitName : Text := ".git".toList

/-- The `.git` of a directory. -/
def gitDir (p : Path) : Path := p ++ [gitName]

section Disk
variable {R : Type}

def isDir : Option (Node R) → Bool
  | some (.leaf .dir) => true
  | some (.repository _ _) => true
  | _ => false

def isFile : Option (Node R) → Bool
  | some (.leaf (.file _)) => true
  | _ => false

/-- A directory above the path cannot be made because a file is in its place. -/
def blocked (d : Disk R) (dest : Path) : Bool :=
  (List.range dest.length).any fun n => isFile (d (dest.take n))

def storeRepository (dest : Path) (repo : R) (marker : Option Python.Float) (d : Disk R) : Disk R :=
  FileTree.put (gitDir dest) (.repository repo marker) d

/-- What git does to the files around a repository: not to a `.git` itself. -/
def workTree (changes : Path → Option (Option Leaf)) (rel : Path) : Option (Option (Node R)) :=
  if rel = [] ∨ rel.getLast? = some gitName then none
  else (changes rel).map fun leaf => leaf.map .leaf

end Disk

inductive Trouble where
  | runtimeError (message : Text)
  | osError (message : Text)
  | subprocessError (message : Text)
  | valueError (message : Text)
  deriving DecidableEq

/-- Whether writing `mrreview-sync` succeeds, fails before or after truncating it. -/
inductive Marking where
  | written
  | kept
  | lost

inductive Cloned (R : Type) where
  | ok (repo : R)
  | failed (left : Option R) (trouble : Trouble)

/-- The first two things a call asks: what `git remote get-url origin` prints,
and the time. -/
structure Probe (R : Type) where
  getUrl : R → Except Trouble Text
  now : ℚ

/-- What git does and answers in the rest of a call, and when it is through. -/
structure Answers (R : Type) where
  fetch : Text → R → R × Option Trouble
  detach : R → R × Option Trouble
  pull : R → R × Option Trouble
  clone : Text → Text → Cloned R
  changes : Path → Option (Option Leaf)
  /-- What an option in the place of a ref or a url makes git do. -/
  program : Disk R → Disk R
  done : ℚ
  marking : Marking

/-- A word git takes for an option. -/
def isOption (word : Text) : Bool := word.head? == some '-'

section Calls
variable {R : Type} (probe : Probe R) (answers : Answers R) (dest : Path)

def syncTime (d : Disk R) : Option Python.Float :=
  match d (gitDir dest) with
  | some (.repository _ marker) => marker
  | _ => none

/-- `mrreview-sync` after the attempt to write it. -/
def Answers.marker (old : Option Python.Float) : Option Python.Float :=
  match answers.marking with
  | .written => some (.finite answers.done)
  | .kept => old
  | .lost => none

def markSynced (d : Disk R) : Disk R :=
  match d (gitDir dest) with
  | some (.repository repo marker) => storeRepository dest repo (answers.marker marker) d
  | _ => d

/-- True when the checkout's origin matches the url; a `.git` that is no
repository has no readable remote. -/
def sameRemote (url : Text) (d : Disk R) : Except Trouble Bool :=
  match d (gitDir dest) with
  | some (.repository repo _) =>
      match probe.getUrl repo with
      | .ok out => .ok (strip out == url)
      | .error (.runtimeError _) => .ok false
      | .error (.osError _) => .ok false
      | .error trouble => .error trouble
  | _ => .ok false

/-- `dest.is_dir() and (dest / ".git").is_dir() and _same_remote(...)`. -/
def hasCheckout (url : Text) (d : Disk R) : Except Trouble Bool :=
  if isDir (d dest) && isDir (d (gitDir dest)) then sameRemote probe dest url d else .ok false

/-- The disk after git was given the word: `--upload-pack` alone can run any program. -/
def Answers.run (word : Text) (d : Disk R) : Disk R := if isOption word then answers.program d else d

/-- The repository and the work tree after a command that checks files out. -/
def checkOut (repo : R) (marker : Option Python.Float) (d : Disk R) : Disk R :=
  FileTree.patch dest (workTree answers.changes) (storeRepository dest repo marker d)

/-- Fast-forward the checkout to the tip of `ref` or of the default branch. -/
def refresh (ref : Text) (repo : R) (marker : Option Python.Float) (d : Disk R) : Disk R × Option Trouble :=
  if ref.isEmpty then
    match answers.pull repo with
    | (pulled, trouble) => (checkOut answers dest pulled marker d, trouble)
  else
    match answers.fetch ref repo with
    | (fetched, some trouble) => (answers.run ref (storeRepository dest fetched marker d), some trouble)
    | (fetched, none) =>
        match answers.detach fetched with
        | (detached, trouble) => (checkOut answers dest detached marker (answers.run ref d), trouble)

/-- The ref is the value of `--branch` and never an option of its own. -/
def cloneLibrary (ref url : Text) (d : Disk R) : Disk R × Option Trouble :=
  if blocked d dest then (d, some (.osError "not a directory".toList))
  else
    let d := answers.run url (FileTree.addParents (.leaf .dir) dest d)
    match answers.clone ref url with
    | .ok repo => (checkOut answers dest repo none (FileTree.put dest (.leaf .dir) d), none)
    | .failed (some repo) trouble =>
        (checkOut answers dest repo none (FileTree.put dest (.leaf .dir) d), some trouble)
    | .failed none trouble => (d, some trouble)

end Calls

inductive LogLine where
  | skippedPath
  | skippedUrl
  | fresh
  | resyncing
  | resyncFailed (trouble : Trouble)
  | cloning

structure Outcome (R : Type) where
  disk : Disk R
  lines : List LogLine
  result : Except Trouble (Option Path)

/-- `synced is not None and max_age_hours > 0 and now - synced < max_age_hours * 3600`. -/
def isFresh (maxAgeHours now : ℚ) : Option Python.Float → Bool
  | some (.finite synced) => 0 < maxAgeHours && now - synced < maxAgeHours * 3600
  | some (.infinity negative) => 0 < maxAgeHours && !negative
  | _ => false

/-- The errors a failed re-sync may end with; any other one is raised. -/
def Trouble.tolerated : Trouble → Bool
  | valueError _ => false
  | _ => true

section Ensure
variable {R : Type} (maxAgeHours : ℚ) (probe : Probe R) (answers : Answers R)

def resync (dest : Path) (ref : Text) (d : Disk R) : Outcome R :=
  match d (gitDir dest) with
  | some (.repository repo marker) =>
      match refresh answers dest ref repo marker d with
      | (d, none) => ⟨markSynced answers dest d, [.resyncing], .ok (some dest)⟩
      | (d, some trouble) =>
          if trouble.tolerated then ⟨d, [.resyncing, .resyncFailed trouble], .ok (some dest)⟩
          else ⟨d, [.resyncing], .error trouble⟩
  | _ => ⟨d, [], .ok (some dest)⟩

/-- `if dest.exists(): shutil.rmtree(dest)`. -/
def cleared (dest : Path) (d : Disk R) : Disk R := if (d dest).isSome then FileTree.removeTree dest d else d

/-- `shutil.rmtree` takes no file; a path where nothing is needs no removing. -/
def reclone (dest : Path) (ref url : Text) (d : Disk R) : Outcome R :=
  if isFile (d dest) then ⟨d, [], .error (.osError "not a directory".toList)⟩
  else
    match cloneLibrary answers dest ref url (cleared dest d) with
    | (d, none) => ⟨markSynced answers dest d, [.cloning], .ok (some dest)⟩
    | (d, some trouble) => ⟨d, [.cloning], .error trouble⟩

/-- The call once path and url are known to be usable. -/
def ensureAt (dest : Path) (ref url : Text) (d : Disk R) : Outcome R :=
  match hasCheckout probe dest url d with
  | .error trouble => ⟨d, [], .error trouble⟩
  | .ok true =>
      if isFresh maxAgeHours probe.now (syncTime dest d) then ⟨d, [.fresh], .ok (some dest)⟩
      else resync answers dest ref d
  | .ok false => reclone answers dest ref url d

/-- The word of the entry that the call hands to git where git looks for options. -/
def spoken (dest : Path) (ref url : Text) (d : Disk R) : Option Text :=
  match hasCheckout probe dest url d with
  | .error _ => none
  | .ok true => some ref
  | .ok false => if blocked (cleared dest d) dest then none else some url

/-- The call for one entry, unless it has no usable path or url. -/
def forEntry (ensure : Path → Text → Text → Disk R → Outcome R) (E : Runtime) (root : Path) (entry : Json)
    (d : Disk R) : Outcome R :=
  match entry, libraryRelpath E entry with
  | .obj fields, some relpath =>
      if (entryUrl E fields).isEmpty then ⟨d, [.skippedUrl], .ok none⟩
      else ensure (root ++ components relpath) (entryRef E fields) (entryUrl E fields) d
  | _, _ => ⟨d, [.skippedPath], .ok none⟩

/-- Ensure a checkout for one extra-projects entry; return its path. -/
def ensureLibraryCheckout (E : Runtime) (root : Path) (entry : Json) (d : Disk R) : Outcome R :=
  forEntry (ensureAt maxAgeHours probe answers) E root entry d

end Ensure

/-- Where a path leads when the symbolic links in it are followed, and whether
its last part is one. -/
structure Links where
  leads : Path → Path
  isLink : Path → Bool

def Links.none : Links := ⟨id, fun _ => false⟩

section Linked
variable {R : Type} (links : Links) (maxAgeHours : ℚ) (probe : Probe R) (answers : Answers R)

/-- The call on a disk with symbolic links, which are no nodes of it: everything
happens where the path leads. `shutil.rmtree` takes no link, and git clones into
none that leads nowhere. -/
def ensureThrough (dest : Path) (ref url : Text) (d : Disk R) : Outcome R :=
  let out := ensureAt maxAgeHours probe answers (links.leads dest) ref url d
  match hasCheckout probe (links.leads dest) url d, links.isLink dest with
  | .ok false, true =>
      if (d (links.leads dest)).isSome then ⟨d, [], .error (.osError "symbolic link".toList)⟩
      else ⟨d, [.cloning], .error (.runtimeError "git clone failed".toList)⟩
  | _, _ => { out with result := out.result.map fun path => path.map fun _ => dest }

def ensureLinkedCheckout (E : Runtime) (root : Path) (entry : Json) (d : Disk R) : Outcome R :=
  forEntry (ensureThrough links maxAgeHours probe answers) E root entry d

end Linked

section Finds
variable {R : Type} {probe : Probe R} {dest : Path} {url : Text} {d : Disk R}

theorem isDir_of_hasCheckout (h : hasCheckout probe dest url d = .ok true) : isDir (d dest) = true := by
  by_contra hno
  unfold hasCheckout at h
  rw [Bool.not_eq_true] at hno
  rw [hno] at h
  cases h

theorem repository_of_hasCheckout (h : hasCheckout probe dest url d = .ok true) :
    ∃ repo marker out, d (gitDir dest) = some (.repository repo marker) ∧
      probe.getUrl repo = .ok out ∧ strip out = url := by
  unfold hasCheckout at h
  split at h
  · unfold sameRemote at h
    split at h
    · rename_i repo marker hnode
      split at h
      · rename_i out hout
        cases hstrip : (strip out == url) with
        | true => exact ⟨repo, marker, out, hnode, hout, beq_iff_eq.mp hstrip⟩
        | false =>
          rw [hstrip] at h
          cases h
      · cases h
      · cases h
      · cases h
    · cases h
  · cases h

end Finds

section Frame
variable {R : Type} {ρ : Option (Node R) → Option (Node R) → Prop} {P : Path → Prop}
  {maxAgeHours : ℚ} {probe : Probe R} {answers : Answers R} {dest : Path}

theorem below_gitDir (p : Path) : p <+: gitDir p := List.prefix_append p _

theorem run_plain {word : Text} (h : isOption word = false) (d : Disk R) : answers.run word d = d := by
  unfold Answers.run
  rw [h]
  exact if_neg Bool.false_ne_true

/-- A call never gives git an option if neither word of the entry is one. -/
theorem spoken_plain {ref url : Text} {d : Disk R} (href : isOption ref = false) (hurl : isOption url = false) :
    ∀ word ∈ spoken probe dest ref url d, isOption word = false := by
  intro word hword
  unfold spoken at hword
  split at hword
  · cases hword
  · cases hword
    exact href
  · split at hword
    · cases hword
    · cases hword
      exact hurl

/-- The operations on the disk that a call is composed of, each keeping the
relation at the paths of `P`. -/
structure Primitives (ρ : Option (Node R) → Option (Node R) → Prop) (P : Path → Prop) (dest : Path) :
    Prop where
  refl : ∀ a, ρ a a
  trans : ∀ a b c, ρ a b → ρ b c → ρ a c
  make : FileTree.Keeps ρ P (FileTree.put dest (.leaf .dir))
  store : ∀ repo marker, FileTree.Keeps ρ P (storeRepository dest repo marker)
  parents : FileTree.Keeps ρ P (FileTree.addParents (.leaf .dir) dest)
  remove : FileTree.Keeps ρ P (FileTree.removeTree dest)
  files : ∀ changes, FileTree.Keeps ρ P (FileTree.patch dest (workTree changes))

namespace Primitives
variable (h : Primitives ρ P dest)

include h in
theorem checkOut (repo : R) (marker : Option Python.Float) :
    FileTree.Keeps ρ P (checkOut answers dest repo marker) :=
  FileTree.Keeps.comp (g := FileTree.patch dest (workTree answers.changes)) h.trans (h.files _)
    (h.store repo marker)

include h in
theorem markSynced : FileTree.Keeps ρ P (markSynced answers dest) := by
  intro d r hr
  cases hnode : d (gitDir dest) with
  | none =>
    simp only [Libraries.markSynced, hnode]
    exact h.refl _
  | some node =>
    cases node with
    | leaf l =>
      simp only [Libraries.markSynced, hnode]
      exact h.refl _
    | repository repo marker =>
      simp only [Libraries.markSynced, hnode]
      exact h.store _ _ d r hr

include h in
theorem refresh {ref : Text} (href : isOption ref = false) (repo : R) (marker : Option Python.Float) :
    FileTree.Keeps ρ P fun d => (refresh answers dest ref repo marker d).1 := by
  intro d r hr
  dsimp only
  unfold Libraries.refresh
  simp only [run_plain href]
  split
  · exact h.checkOut _ _ d r hr
  · split
    · exact h.store _ _ d r hr
    · exact h.checkOut _ _ d r hr

include h in
theorem cloneLibrary (ref : Text) {url : Text} {d : Disk R} (hurl : blocked d dest = true ∨ isOption url = false)
    {r : Path} (hr : P r) : ρ (d r) ((cloneLibrary answers dest ref url d).1 r) := by
  have hmade : ∀ repo : R, FileTree.Keeps ρ P fun d : Disk R => Libraries.checkOut answers dest repo none
      (FileTree.put dest (.leaf .dir) (FileTree.addParents (.leaf .dir) dest d)) := by
    intro repo
    exact .comp h.trans (h.checkOut repo none) (.comp h.trans h.make h.parents)
  unfold Libraries.cloneLibrary
  split
  · exact h.refl _
  · rename_i hfree
    rw [run_plain (hurl.resolve_left hfree)]
    dsimp only
    split
    · exact hmade _ d r hr
    · exact hmade _ d r hr
    · exact h.parents d r hr

include h in
theorem resync {ref : Text} (href : isOption ref = false) :
    FileTree.Keeps ρ P fun d => (resync answers dest ref d).disk := by
  intro d r hr
  dsimp only
  unfold Libraries.resync
  split
  · rename_i repo marker _
    have hrefresh : ρ (d r) ((Libraries.refresh answers dest ref repo marker d).1 r) :=
      h.refresh href repo marker d r hr
    split
    · rename_i d' heq
      rw [heq] at hrefresh
      exact h.trans _ _ _ hrefresh (h.markSynced d' r hr)
    · rename_i d' trouble heq
      rw [heq] at hrefresh
      split <;> exact hrefresh
  · exact h.refl _

include h in
theorem reclone (ref : Text) {url : Text} {d : Disk R}
    (hurl : blocked (cleared dest d) dest = true ∨ isOption url = false) {r : Path} (hr : P r) :
    ρ (d r) ((reclone answers dest ref url d).disk r) := by
  unfold Libraries.reclone
  split
  · exact h.refl _
  · have hcleared : ρ (d r) (cleared dest d r) := by
      unfold cleared
      split
      · exact h.remove d r hr
      · exact h.refl _
    have hclone : ρ (cleared dest d r) ((Libraries.cloneLibrary answers dest ref url (cleared dest d)).1 r) :=
      h.cloneLibrary ref hurl hr
    split
    · rename_i d' heq
      rw [heq] at hclone
      exact h.trans _ _ _ hcleared (h.trans _ _ _ hclone (h.markSynced d' r hr))
    · rename_i d' trouble heq
      rw [heq] at hclone
      exact h.trans _ _ _ hcleared hclone

include h in
/-- What the operations keep, a call that gives git no option keeps. -/
theorem ensureAt {ref url : Text} {d : Disk R}
    (hplain : ∀ word ∈ spoken probe dest ref url d, isOption word = false) {r : Path} (hr : P r) :
    ρ (d r) ((ensureAt maxAgeHours probe answers dest ref url d).disk r) := by
  unfold spoken at hplain
  unfold Libraries.ensureAt
  split
  · exact h.refl _
  · rename_i hhere
    rw [hhere] at hplain
    split
    · exact h.refl _
    · exact h.resync (hplain ref rfl) d r hr
  · rename_i hnone
    rw [hnone] at hplain
    refine h.reclone ref ?_ hr
    by_cases hblocked : blocked (cleared dest d) dest = true
    · exact .inl hblocked
    · dsimp only at hplain
      rw [if_neg hblocked] at hplain
      exact .inr (hplain url rfl)

end Primitives

/-- A call works at and below its directory, and makes directories above it. -/
theorem primitives_apart {q : Path} (hq : FileTree.Apart q dest) :
    Primitives (R := R) (fun a b => b = a) (q <+: ·) dest := by
  have hput : ∀ (v : Node R) (s : Path), dest <+: s →
      FileTree.Keeps (fun a b => b = a) (q <+: ·) (FileTree.put s v) := by
    intro v s hs d r hr
    refine FileTree.put_of_ne ?_
    rintro rfl
    exact hq.not_below hr hs
  constructor
  · intro a
    rfl
  · rintro a b c rfl rfl
    rfl
  · exact hput _ _ (List.prefix_refl dest)
  · intro repo marker
    exact hput _ _ (below_gitDir dest)
  · intro d r hr
    exact FileTree.addParents_of_not_above fun h => hq.not_above hr h.1
  · intro d r hr
    exact FileTree.removeTree_of_not_below (hq.not_below hr)
  · intro changes d r hr
    exact FileTree.patch_of_not_below (hq.not_below hr)

end Frame

end GitlabReviewer.Libraries
