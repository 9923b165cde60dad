import GitlabReviewer.Libraries.Neighbours
import Mathlib.Algebra.Order.Ring.Rat
import Mathlib.Tactic.Linarith

/-! # Which version a review sees

A checkout is shared by all entries with its path, so what a call finds there
depends on every call before. The history records which ref of which remote
each successful sync brought; a marker that can be read means that the last one
of them is what the repository still holds.
-/
namespace GitlabReviewer.Libraries
open Python Foundation

/-- A remote repository at one moment: its default branch and the tip of each ref. -/
structure Remote (C : Type) where
  default : Text
  tip : Text → Option C

/-- What a repository holds, as git shows it: the url of `origin`, HEAD,
FETCH_HEAD, the branch of `origin` that the checked out branch follows, and
whether a commit is an ancestor of HEAD other than HEAD itself. -/
structure View (R C : Type) where
  origin : R → Option Text
  head : R → Option C
  fetchHead : R → Option C
  upstream : R → Option Text
  behind : R → C → Prop

structure Call (R C : Type) where
  entry : Json
  maxAgeHours : ℚ
  probe : Probe R
  answers : Answers R
  remote : Text → Remote C

/-- Not taken for an option. -/
def plainUrl (url : Text) : Prop := url.head? ≠ some '-'

/-- A ref name: no option, no forced or negative refspec, no pattern and no pair. -/
def plainRef (ref : Text) : Prop :=
  (∀ c ∈ ref.head?, c ∉ ['-', '+', '^']) ∧ ∀ c ∈ ref, c ∉ [':', '*']

/-- The ref an entry stands for; without one, the default branch. -/
def wanted {C : Type} (remote : Remote C) (ref : Text) : Text := if ref = [] then remote.default else ref

section Git
variable {R C : Type} (V : View R C)

structure SameHead (r r' : R) : Prop where
  origin : V.origin r' = V.origin r
  head : V.head r' = V.head r

/-- The commands do what the documentation of git says. A fetch moves no HEAD, a
checkout moves it to FETCH_HEAD, and a fast-forward pull moves it to the tip of
the followed branch unless that is already contained in HEAD. -/
structure Documented (c : Call R C) : Prop where
  getUrl : ∀ r out, c.probe.getUrl r = .ok out → ∃ o, V.origin r = some o ∧ out = o ++ ['\n']
  fetch_kept : ∀ ref r, plainRef ref → SameHead V r (c.answers.fetch ref r).1
  fetch : ∀ ref r url, ref ≠ [] → plainRef ref → V.origin r = some url → (c.answers.fetch ref r).2 = none →
    V.fetchHead (c.answers.fetch ref r).1 = (c.remote url).tip ref
  detach : ∀ r, (c.answers.detach r).2 = none → V.head (c.answers.detach r).1 = V.fetchHead r ∧
    V.origin (c.answers.detach r).1 = V.origin r
  detach_kept : ∀ r, (c.answers.detach r).2 ≠ none → SameHead V r (c.answers.detach r).1
  pull : ∀ r url, V.origin r = some url → (c.answers.pull r).2 = none → ∃ branch commit,
    V.upstream r = some branch ∧ (c.remote url).tip branch = some commit ∧
      (V.head (c.answers.pull r).1 = some commit ∨
        V.behind r commit ∧ V.head (c.answers.pull r).1 = V.head r)
  pull_origin : ∀ r, V.origin (c.answers.pull r).1 = V.origin r
  pull_kept : ∀ r, (c.answers.pull r).2 ≠ none → SameHead V r (c.answers.pull r).1
  clone : ∀ ref url r, plainUrl url → plainRef ref → c.answers.clone ref url = .ok r →
    V.origin r = some url ∧ V.head r = (c.remote url).tip (wanted (c.remote url) ref)
  clone_left : ∀ ref url r trouble, plainUrl url → c.answers.clone ref url = .failed (some r) trouble →
    ∀ o, V.origin r = some o → o = url

end Git

/-- A successful sync of a directory: what was asked, and what the remote had. -/
structure Sync (C : Type) where
  dest : Path
  url : Text
  ref : Text
  time : ℚ
  remote : Remote C

structure Host (R C : Type) where
  disk : Disk R
  syncs : List (Sync C)

section Runs
variable {R C : Type} (V : View R C) (E : Runtime) (root : Path)

def Call.outcome (c : Call R C) (d : Disk R) : Outcome R :=
  ensureLibraryCheckout c.maxAgeHours c.probe c.answers E root c.entry d

/-- The call cloned, or re-synced without a failure. -/
def Outcome.synced (o : Outcome R) : Bool :=
  match o.result, o.lines with
  | .ok (some _), [.resyncing] => true
  | .ok (some _), [.cloning] => true
  | _, _ => false

def Call.syncs (c : Call R C) (o : Outcome R) : List (Sync C) :=
  match request E root c.entry with
  | some (dest, ref, url) => if o.synced then [⟨dest, url, ref, c.answers.done, c.remote url⟩] else []
  | none => []

def Host.after (s : Host R C) (c : Call R C) : Host R C :=
  { disk := (c.outcome E root s.disk).disk
    syncs := c.syncs E root (c.outcome E root s.disk) ++ s.syncs }

def lastSync (dest : Path) (syncs : List (Sync C)) : Option (Sync C) := syncs.find? (·.dest = dest)

/-- The hosts that documented calls satisfying `ok` lead to. -/
inductive Reached (ok : Host R C → Call R C → Prop) (s : Host R C) : Host R C → Prop
  | start : Reached ok s s
  | call {s' : Host R C} (c : Call R C) (h : Reached ok s s') (hdoc : Documented V c) (hok : ok s' c) :
      Reached ok s (s'.after E root c)

/-- If the call returns a directory and logs no failed re-sync, the repository
there has the entry's url as origin, and its HEAD is what some sync of it from
that url found at the tip of the entry's ref: this call, or one not longer ago
than allowed. -/
def Delivers (s : Host R C) (c : Call R C) : Prop :=
  ∀ dest, (c.outcome E root s.disk).result = .ok (some dest) →
    (∀ trouble, .resyncFailed trouble ∉ (c.outcome E root s.disk).lines) →
      ∃ ref url, request E root c.entry = some (dest, ref, url) ∧
        ∃ repo marker, (c.outcome E root s.disk).disk (gitDir dest) = some (.repository repo marker) ∧
          V.origin repo = some url ∧
          ∃ sync ∈ (s.after E root c).syncs, sync.dest = dest ∧ sync.url = url ∧
            V.head repo = sync.remote.tip (wanted sync.remote ref) ∧
            ((s.after E root c).syncs = sync :: s.syncs ∨
              c.probe.now - sync.time ≤ c.maxAgeHours * 3600)

/-- The condition on one call: plain words for git, a directory outside every
`.git`, a fresh checkout whose last sync was for the same ref, a pull of the
remote's default branch that was not set back, and a marker that is not left
behind in front of the clock. -/
structure Meets (s : Host R C) (c : Call R C) (dest : Path) (ref url : Text) : Prop where
  plainUrl : plainUrl url
  plainRef : plainRef ref
  outside : ∀ rel, dest = root ++ rel → gitName ∉ rel
  fresh : hasCheckout c.probe dest url s.disk = .ok true →
    isFresh c.maxAgeHours c.probe.now (syncTime dest s.disk) = true →
      ∃ sync, lastSync dest s.syncs = some sync ∧ sync.ref = ref
  pulled : hasCheckout c.probe dest url s.disk = .ok true →
    isFresh c.maxAgeHours c.probe.now (syncTime dest s.disk) = false → ref = [] →
      ∀ repo marker, s.disk (gitDir dest) = some (.repository repo marker) →
        V.upstream repo = some (c.remote url).default ∧
          ∀ commit, (c.remote url).tip (c.remote url).default = some commit → ¬ V.behind repo commit
  marked : c.answers.marking = .kept → ∀ synced, syncTime dest s.disk = some (.finite synced) →
    synced ≤ c.answers.done

def MeetsAll (s : Host R C) (c : Call R C) : Prop :=
  ∀ dest ref url, request E root c.entry = some (dest, ref, url) → Meets V root s c dest ref url

/-- No repository below the root yet. -/
def Unused (d : Disk R) : Prop :=
  ∀ rel repo marker, d (gitDir (root ++ rel)) ≠ some (.repository repo marker)

end Runs

section Repository
variable {R C : Type} {answers : Answers R} {dest : Path} {ref url : Text} {d : Disk R}

/-- `_refresh` on the repository alone. -/
def refreshed (answers : Answers R) (ref : Text) (repo : R) : R × Option Trouble :=
  if ref.isEmpty then answers.pull repo
  else
    match answers.fetch ref repo with
    | (fetched, some trouble) => (fetched, some trouble)
    | (fetched, none) => answers.detach fetched

theorem patch_gitDir (changes : Path → Option (Option Leaf)) (q : Path) :
    FileTree.patch dest (workTree changes) d (gitDir q) = d (gitDir q) := by
  by_cases hbelow : dest <+: gitDir q
  · obtain ⟨rel, hrel⟩ := hbelow
    rw [← hrel, FileTree.patch_append]
    have hlast : rel = [] ∨ rel.getLast? = some gitName := by
      by_cases hnil : rel = []
      · exact .inl hnil
      · right
        have hgit : (dest ++ rel).getLast? = some gitName := by
          rw [hrel]
          simp [gitDir]
        rwa [List.getLast?_append_of_ne_nil _ hnil] at hgit
    unfold workTree
    rw [if_pos hlast]
    rfl
  · exact FileTree.patch_of_not_below hbelow

theorem checkOut_gitDir (repo : R) (marker : Option Python.Float) :
    checkOut answers dest repo marker d (gitDir dest) = some (.repository repo marker) := by
  unfold checkOut
  rw [patch_gitDir]
  exact FileTree.put_self _

theorem plainUrl.not_option (h : plainUrl url) : isOption url = false := by
  unfold isOption
  exact beq_eq_false_iff_ne.mpr h

theorem plainRef.not_option (h : plainRef ref) : isOption ref = false := by
  unfold isOption
  cases ref with
  | nil => rfl
  | cons c ref =>
    rw [List.head?_cons, beq_eq_false_iff_ne]
    rintro ⟨⟩
    exact h.1 '-' rfl List.mem_cons_self

theorem refresh_spec (answers : Answers R) (dest : Path) (href : isOption ref = false) (d : Disk R) (repo : R)
    (marker : Option Python.Float) :
    (refresh answers dest ref repo marker d).2 = (refreshed answers ref repo).2 ∧
      (refresh answers dest ref repo marker d).1 (gitDir dest) =
        some (.repository (refreshed answers ref repo).1 marker) := by
  unfold refresh refreshed
  by_cases hempty : ref.isEmpty = true
  · rw [if_pos hempty, if_pos hempty]
    exact ⟨rfl, checkOut_gitDir _ _⟩
  · rw [if_neg hempty, if_neg hempty]
    rcases answers.fetch ref repo with ⟨fetched, _ | trouble⟩
    · exact ⟨rfl, checkOut_gitDir _ _⟩
    · dsimp only
      rw [run_plain href]
      exact ⟨rfl, FileTree.put_self _⟩

theorem markSynced_gitDir (answers : Answers R) {repo : R} {marker : Option Python.Float}
    (h : d (gitDir dest) = some (.repository repo marker)) :
    markSynced answers dest d (gitDir dest) = some (.repository repo (answers.marker marker)) := by
  simp only [markSynced, h]
  exact FileTree.put_self _

/-- What a clone leaves at the `.git` of its directory. -/
theorem cloneLibrary_spec (answers : Answers R) (dest : Path) (ref : Text) (hurl : isOption url = false) (d : Disk R) :
    (∃ repo, answers.clone ref url = .ok repo ∧ (cloneLibrary answers dest ref url d).2 = none ∧
      (cloneLibrary answers dest ref url d).1 (gitDir dest) = some (.repository repo none)) ∨
    (∃ repo trouble, answers.clone ref url = .failed (some repo) trouble ∧
      (cloneLibrary answers dest ref url d).2 ≠ none ∧
      (cloneLibrary answers dest ref url d).1 (gitDir dest) = some (.repository repo none)) ∨
    ((cloneLibrary answers dest ref url d).2 ≠ none ∧
      (cloneLibrary answers dest ref url d).1 (gitDir dest) = d (gitDir dest)) := by
  unfold cloneLibrary
  rw [run_plain hurl]
  split
  · exact .inr (.inr ⟨by simp, rfl⟩)
  · dsimp only
    split
    · rename_i repo hclone
      exact .inl ⟨repo, hclone, rfl, checkOut_gitDir _ _⟩
    · rename_i repo trouble hclone
      exact .inr (.inl ⟨repo, trouble, hclone, by simp, checkOut_gitDir _ _⟩)
    · refine .inr (.inr ⟨by simp, FileTree.addParents_of_not_above ?_⟩)
      intro h
      have hlen := h.1.length_le
      rw [gitDir, List.length_append, List.length_singleton] at hlen
      omega

/-- At the `.git` of another directory a call changes nothing, or removes it. -/
theorem primitives_gitDir {q : Path} (hne : q ≠ dest) (hout : ¬ gitDir q <+: dest) :
    Primitives (R := R) (fun a b => b = a ∨ b = none) (· = gitDir q) dest := by
  constructor
  · intro a
    exact .inl rfl
  · rintro a b c (rfl | rfl) hbc
    · exact hbc
    · rcases hbc with rfl | rfl <;> exact .inr rfl
  · rintro d r rfl
    refine .inl (FileTree.put_of_ne ?_)
    rintro rfl
    exact hout (List.prefix_refl _)
  · rintro repo marker d r rfl
    refine .inl (FileTree.put_of_ne ?_)
    intro h
    exact hne (List.append_cancel_right h)
  · rintro d r rfl
    exact .inl (FileTree.addParents_of_not_above fun h => hout h.1)
  · rintro d r rfl
    by_cases hbelow : dest <+: gitDir q
    · exact .inr (FileTree.removeTree_of_below hbelow)
    · exact .inl (FileTree.removeTree_of_not_below hbelow)
  · rintro changes d r rfl
    exact .inl (patch_gitDir changes q)

end Repository

section Sound
variable {R C : Type} {V : View R C} {E : Runtime} {root : Path} {s : Host R C} {c : Call R C}
  {dest : Path} {ref url : Text} {repo : R} {marker : Option Python.Float}

/-- What a repository in a library directory is known to be: with a marker, what
the last sync brought, not earlier than the marker says. -/
structure Holds (V : View R C) (syncs : List (Sync C)) (p : Path) (repo : R) (marker : Option Python.Float) :
    Prop where
  origin : ∀ o, V.origin repo = some o → strip o = o
  synced : ∀ m, marker = some m → ∃ time sync, m = .finite time ∧ lastSync p syncs = some sync ∧
    V.origin repo = some sync.url ∧ V.head repo = sync.remote.tip (wanted sync.remote sync.ref) ∧
      time ≤ sync.time

def Sound (V : View R C) (root : Path) (s : Host R C) : Prop :=
  ∀ rel repo marker, gitName ∉ rel → s.disk (gitDir (root ++ rel)) = some (.repository repo marker) →
    Holds V s.syncs (root ++ rel) repo marker

theorem Holds.of_sameHead {syncs : List (Sync C)} {p : Path} {r r' : R} (h : Holds V syncs p r marker)
    (hs : SameHead V r r') : Holds V syncs p r' marker := by
  constructor
  · intro o ho
    rw [hs.origin] at ho
    exact h.origin o ho
  · intro m hm
    rw [hs.origin, hs.head]
    exact h.synced m hm

theorem SameHead.trans {r r' r'' : R} (h : SameHead V r r') (h' : SameHead V r' r'') : SameHead V r r'' :=
  ⟨h'.origin.trans h.origin, h'.head.trans h.head⟩

/-- The remote the code compares with the url is the url. -/
theorem origin_of_hasCheckout (hdoc : Documented V c) (hsound : Sound V root s) {rel : Path}
    (hrel : gitName ∉ rel) (h : hasCheckout c.probe (root ++ rel) url s.disk = .ok true) :
    ∃ repo marker, s.disk (gitDir (root ++ rel)) = some (.repository repo marker) ∧
      V.origin repo = some url ∧ Holds V s.syncs (root ++ rel) repo marker := by
  obtain ⟨repo, marker, out, hnode, hout, hurl⟩ := repository_of_hasCheckout h
  have hholds := hsound rel repo marker hrel hnode
  obtain ⟨o, ho, rfl⟩ := hdoc.getUrl repo out hout
  rw [strip_append_newline, hholds.origin o ho] at hurl
  exact ⟨repo, marker, hnode, hurl ▸ ho, hholds⟩

/-- A refresh that succeeds brings HEAD to the tip that was asked for, and one
that fails leaves it. -/
theorem refreshed_spec (hdoc : Documented V c) (horigin : V.origin repo = some url) (hplain : plainRef ref)
    (hpulled : ref = [] → V.upstream repo = some (c.remote url).default ∧
      ∀ commit, (c.remote url).tip (c.remote url).default = some commit → ¬ V.behind repo commit) :
    ((refreshed c.answers ref repo).2 = none →
      V.origin (refreshed c.answers ref repo).1 = some url ∧
        V.head (refreshed c.answers ref repo).1 = (c.remote url).tip (wanted (c.remote url) ref)) ∧
    ((refreshed c.answers ref repo).2 ≠ none → SameHead V repo (refreshed c.answers ref repo).1) := by
  unfold refreshed
  by_cases hempty : ref = []
  · subst hempty
    rw [show ([] : Text).isEmpty = true from rfl, if_pos rfl]
    constructor
    · intro hok
      obtain ⟨branch, commit, hup, htip, hhead⟩ := hdoc.pull repo url horigin hok
      obtain ⟨hdefault, hnotBehind⟩ := hpulled rfl
      obtain rfl : (c.remote url).default = branch := Option.some.inj (hdefault.symm.trans hup)
      refine ⟨(hdoc.pull_origin repo).trans horigin, ?_⟩
      rcases hhead with hhead | ⟨hbehind, -⟩
      · rw [hhead, wanted, if_pos rfl, htip]
      · exact absurd hbehind (hnotBehind commit htip)
    · exact hdoc.pull_kept repo
  · have hne : ref.isEmpty = false := by simpa using hempty
    rw [hne, if_neg (by decide)]
    have hkept := hdoc.fetch_kept ref repo hplain
    have hfetch := hdoc.fetch ref repo url hempty hplain horigin
    split
    · rename_i fetched trouble heq
      rw [heq] at hkept
      exact ⟨by simp, fun _ => hkept⟩
    · rename_i fetched heq
      rw [heq] at hkept hfetch
      constructor
      · intro hok
        obtain ⟨hhead, hdetached⟩ := hdoc.detach fetched hok
        refine ⟨hdetached.trans (hkept.origin.trans horigin), ?_⟩
        rw [hhead, hfetch rfl, wanted, if_neg hempty]
      · intro hfailed
        exact hkept.trans (hdoc.detach_kept fetched hfailed)

theorem lastSync_cons_self (sync : Sync C) (syncs : List (Sync C)) :
    lastSync sync.dest (sync :: syncs) = some sync := by
  simp [lastSync]

/-- The marker after a sync at the time of the call. -/
theorem holds_synced (hurl : strip url = url) (horigin : V.origin repo = some url)
    (hhead : V.head repo = (c.remote url).tip (wanted (c.remote url) ref))
    (hold : c.answers.marking = .kept → ∀ m, marker = some m → ∃ time, m = .finite time ∧ time ≤ c.answers.done) :
    Holds V (⟨dest, url, ref, c.answers.done, c.remote url⟩ :: s.syncs) dest repo (c.answers.marker marker) := by
  constructor
  · intro o ho
    obtain rfl : url = o := Option.some.inj (horigin.symm.trans ho)
    exact hurl
  · intro m hm
    have htime : ∃ time, m = .finite time ∧ time ≤ c.answers.done := by
      cases hmark : c.answers.marking with
      | written =>
        simp only [Answers.marker, hmark, Option.some.injEq] at hm
        exact ⟨_, hm.symm, le_rfl⟩
      | kept =>
        simp only [Answers.marker, hmark] at hm
        exact hold hmark m hm
      | lost => simp [Answers.marker, hmark] at hm
    obtain ⟨time, rfl, hle⟩ := htime
    exact ⟨time, _, rfl, lastSync_cons_self ⟨dest, url, ref, c.answers.done, c.remote url⟩ s.syncs, horigin, hhead,
      hle⟩

/-- The history after the call. -/
def ownSyncs (s : Host R C) (c : Call R C) (dest : Path) (ref url : Text) (o : Outcome R) : List (Sync C) :=
  (if o.synced then [⟨dest, url, ref, c.answers.done, c.remote url⟩] else []) ++ s.syncs

/-- What a call leaves at its own directory: a sound repository, which is the
one asked for if the call returns without a failure. -/
structure Leaves (V : View R C) (s : Host R C) (c : Call R C) (dest : Path) (ref url : Text) (o : Outcome R) :
    Prop where
  holds : ∀ repo marker, o.disk (gitDir dest) = some (.repository repo marker) →
    Holds V (ownSyncs s c dest ref url o) dest repo marker
  delivers : ∀ p, o.result = .ok (some p) → (∀ trouble, .resyncFailed trouble ∉ o.lines) → p = dest ∧
    ∃ repo marker, o.disk (gitDir dest) = some (.repository repo marker) ∧ V.origin repo = some url ∧
      ∃ sync ∈ ownSyncs s c dest ref url o, sync.dest = dest ∧ sync.url = url ∧
        V.head repo = sync.remote.tip (wanted sync.remote ref) ∧
        (ownSyncs s c dest ref url o = sync :: s.syncs ∨ c.probe.now - sync.time ≤ c.maxAgeHours * 3600)

/-- A call that raises and leaves the repository as sound as it was. -/
theorem Leaves.raised {d : Disk R} {lines : List LogLine} {trouble : Trouble}
    (h : ∀ repo marker, d (gitDir dest) = some (.repository repo marker) → Holds V s.syncs dest repo marker) :
    Leaves V s c dest ref url ⟨d, lines, .error trouble⟩ := by
  constructor
  · exact h
  · rintro p ⟨⟩

/-- A sync that succeeded. -/
theorem Leaves.synced {d : Disk R} {line : LogLine} (hline : line = .resyncing ∨ line = .cloning)
    (hurl : strip url = url) (horigin : V.origin repo = some url)
    (hhead : V.head repo = (c.remote url).tip (wanted (c.remote url) ref))
    (hold : c.answers.marking = .kept → ∀ m, marker = some m → ∃ time, m = .finite time ∧ time ≤ c.answers.done)
    (hnode : d (gitDir dest) = some (.repository repo marker)) :
    Leaves V s c dest ref url ⟨markSynced c.answers dest d, [line], .ok (some dest)⟩ := by
  have hmarked := markSynced_gitDir c.answers hnode
  have hsyncs : ownSyncs s c dest ref url ⟨markSynced c.answers dest d, [line], .ok (some dest)⟩ =
      ⟨dest, url, ref, c.answers.done, c.remote url⟩ :: s.syncs := by
    rcases hline with rfl | rfl <;> rfl
  constructor
  · intro repo' marker' hnode'
    rw [hsyncs]
    cases hmarked.symm.trans hnode'
    exact holds_synced hurl horigin hhead hold
  · rintro p ⟨⟩ -
    rw [hsyncs]
    exact ⟨rfl, _, _, hmarked, horigin, _, List.mem_cons_self, rfl, rfl, hhead, .inl rfl⟩

/-- A fresh checkout holds what its last sync brought. -/
theorem leaves_fresh (hfresh : isFresh c.maxAgeHours c.probe.now marker = true)
    (hnode : s.disk (gitDir dest) = some (.repository repo marker)) (horigin : V.origin repo = some url)
    (hholds : Holds V s.syncs dest repo marker) (hlast : ∃ sync, lastSync dest s.syncs = some sync ∧ sync.ref = ref) :
    Leaves V s c dest ref url ⟨s.disk, [.fresh], .ok (some dest)⟩ := by
  constructor
  · intro repo' marker' hnode'
    cases hnode.symm.trans hnode'
    exact hholds
  · rintro p ⟨⟩ -
    obtain ⟨sync, hlast, rfl⟩ := hlast
    obtain ⟨m, rfl⟩ : ∃ m, marker = some m := by
      cases marker with
      | none => cases hfresh
      | some m => exact ⟨m, rfl⟩
    obtain ⟨time, sync', rfl, hlast', horigin', hhead, hle⟩ := hholds.synced m rfl
    obtain rfl : sync = sync' := Option.some.inj (hlast.symm.trans hlast')
    have hmem : sync ∈ s.syncs := List.mem_of_find?_eq_some hlast
    have hdest : sync.dest = dest := by simpa using List.find?_some hlast
    have hage : c.probe.now - time < c.maxAgeHours * 3600 := by
      simp only [isFresh, Bool.and_eq_true, decide_eq_true_eq] at hfresh
      exact hfresh.2
    refine ⟨rfl, repo, _, hnode, horigin, sync, hmem, hdest, ?_, hhead, .inr ?_⟩
    · exact Option.some.inj (horigin'.symm.trans horigin)
    · linarith

theorem leaves_resync (hdoc : Documented V c) (hurl : strip url = url) (hplain : plainRef ref)
    (hnode : s.disk (gitDir dest) = some (.repository repo marker)) (horigin : V.origin repo = some url)
    (hholds : Holds V s.syncs dest repo marker)
    (hpulled : ref = [] → V.upstream repo = some (c.remote url).default ∧
      ∀ commit, (c.remote url).tip (c.remote url).default = some commit → ¬ V.behind repo commit)
    (hmarked : c.answers.marking = .kept → ∀ time, marker = some (.finite time) → time ≤ c.answers.done) :
    Leaves V s c dest ref url (resync c.answers dest ref s.disk) := by
  obtain ⟨hdone, hfailed⟩ := refreshed_spec hdoc horigin hplain hpulled
  obtain ⟨htrouble, hleft⟩ := refresh_spec c.answers dest hplain.not_option s.disk repo marker
  simp only [resync, hnode]
  rcases hrun : refresh c.answers dest ref repo marker s.disk with ⟨d, _ | trouble⟩
  · rw [hrun] at htrouble hleft
    obtain ⟨horigin', hhead⟩ := hdone htrouble.symm
    refine .synced (.inl rfl) hurl horigin' hhead ?_ hleft
    intro hmark m hm
    obtain ⟨time, sync, rfl, -⟩ := hholds.synced m hm
    exact ⟨time, rfl, hmarked hmark time hm⟩
  · rw [hrun] at htrouble hleft
    have hsame := hfailed (by rw [← htrouble]; simp)
    have hheld : ∀ repo' marker', d (gitDir dest) = some (.repository repo' marker') →
        Holds V s.syncs dest repo' marker' := by
      intro repo' marker' hnode'
      cases hleft.symm.trans hnode'
      exact hholds.of_sameHead hsame
    dsimp only
    split
    · constructor
      · exact hheld
      · intro p _ hlines
        exact absurd (by simp) (hlines trouble)
    · exact .raised hheld

theorem leaves_reclone (hdoc : Documented V c) (hurl : strip url = url) (hplainUrl : plainUrl url)
    (hplain : plainRef ref)
    (hkept : ∀ repo marker, s.disk (gitDir dest) = some (.repository repo marker) →
      Holds V s.syncs dest repo marker) :
    Leaves V s c dest ref url (reclone c.answers dest ref url s.disk) := by
  unfold reclone
  split
  · exact .raised hkept
  have hcleared : ∀ repo marker, cleared dest s.disk (gitDir dest) = some (.repository repo marker) →
      Holds V s.syncs dest repo marker := by
    intro repo marker hnode
    unfold cleared at hnode
    split at hnode
    · rw [FileTree.removeTree_of_below (below_gitDir _)] at hnode
      cases hnode
    · exact hkept repo marker hnode
  have hspec := cloneLibrary_spec c.answers dest ref hplainUrl.not_option (cleared dest s.disk)
  rcases hrun : cloneLibrary c.answers dest ref url (cleared dest s.disk) with ⟨d, _ | trouble⟩
  · rw [hrun] at hspec
    obtain ⟨repo, hclone, -, hnode⟩ | ⟨_, _, -, hne, -⟩ | ⟨hne, -⟩ := hspec
    · obtain ⟨horigin, hhead⟩ := hdoc.clone ref url repo hplainUrl hplain hclone
      refine .synced (.inr rfl) hurl horigin hhead ?_ hnode
      rintro - m ⟨⟩
    · exact absurd rfl hne
    · exact absurd rfl hne
  · rw [hrun] at hspec
    refine .raised ?_
    intro repo' marker' hnode'
    obtain ⟨_, -, ⟨⟩, -⟩ | ⟨repo, t, hclone, -, hnode⟩ | ⟨-, hnode⟩ := hspec
    · cases hnode.symm.trans hnode'
      constructor
      · intro o horigin
        rw [hdoc.clone_left ref url repo' t hplainUrl hclone o horigin]
        exact hurl
      · rintro m ⟨⟩
    · exact hcleared repo' marker' (hnode.symm.trans hnode')

/-- A call whose condition is met leaves its directory sound and as asked for. -/
theorem leaves_ensureAt (hdoc : Documented V c) (hsound : Sound V root s) {rel : Path} (hrel : gitName ∉ rel)
    (hok : Meets V root s c (root ++ rel) ref url) (hurl : strip url = url) :
    Leaves V s c (root ++ rel) ref url
      (ensureAt c.maxAgeHours c.probe c.answers (root ++ rel) ref url s.disk) := by
  have hkept : ∀ repo marker, s.disk (gitDir (root ++ rel)) = some (.repository repo marker) →
      Holds V s.syncs (root ++ rel) repo marker := fun repo marker => hsound rel repo marker hrel
  unfold ensureAt
  cases hhas : hasCheckout c.probe (root ++ rel) url s.disk with
  | error trouble => exact .raised hkept
  | ok here =>
    cases here with
    | false => exact leaves_reclone hdoc hurl hok.plainUrl hok.plainRef hkept
    | true =>
      obtain ⟨repo, marker, hnode, horigin, hholds⟩ := origin_of_hasCheckout hdoc hsound hrel hhas
      have hmarker : syncTime (root ++ rel) s.disk = marker := by
        simp only [syncTime, hnode]
      have hfresh := hok.fresh hhas
      have hpulled := hok.pulled hhas
      have hmarked := hok.marked
      rw [hmarker] at hfresh hpulled hmarked
      dsimp only
      rw [hmarker]
      cases hage : isFresh c.maxAgeHours c.probe.now marker with
      | true => exact leaves_fresh hage hnode horigin hholds (hfresh hage)
      | false =>
        exact leaves_resync hdoc hurl hok.plainRef hnode horigin hholds
          (fun hempty => hpulled hage hempty repo marker hnode) hmarked

theorem outcome_of_request (h : request E root c.entry = some (dest, ref, url)) (d : Disk R) :
    c.outcome E root d = ensureAt c.maxAgeHours c.probe c.answers dest ref url d :=
  ensure_of_request c.answers h

theorem syncs_of_request (h : request E root c.entry = some (dest, ref, url)) :
    (s.after E root c).syncs = ownSyncs s c dest ref url (c.outcome E root s.disk) := by
  simp only [Host.after, Call.syncs, h]
  rfl

theorem lastSync_ownSyncs {p : Path} (hp : p ≠ dest) (o : Outcome R) :
    lastSync p (ownSyncs s c dest ref url o) = lastSync p s.syncs := by
  have hne : ¬ dest = p := fun h => hp h.symm
  unfold ownSyncs
  split
  · simp [lastSync, hne]
  · rfl

/-- A call keeps the checkouts sound, its own and the others. -/
theorem Sound.after (hdoc : Documented V c) (hok : MeetsAll V E root s c) (hsound : Sound V root s) :
    Sound V root (s.after E root c) := by
  intro rel repo marker hrel hnode
  cases hreq : request E root c.entry with
  | none =>
    have hdisk : (c.outcome E root s.disk).disk = s.disk := (ensure_of_unusable c.answers hreq).1
    have hsyncs : (s.after E root c).syncs = s.syncs := by
      simp only [Host.after, Call.syncs, hreq]
      rfl
    rw [show (s.after E root c).disk = (c.outcome E root s.disk).disk from rfl, hdisk] at hnode
    rw [hsyncs]
    exact hsound rel repo marker hrel hnode
  | some asked =>
    obtain ⟨dest, ref, url⟩ := asked
    obtain ⟨⟨reld, rfl⟩, hurl⟩ := request_parts hreq
    have hmeets := hok _ ref url hreq
    have hreld : gitName ∉ reld := hmeets.outside reld rfl
    rw [syncs_of_request hreq]
    rw [show (s.after E root c).disk = (c.outcome E root s.disk).disk from rfl] at hnode
    rw [outcome_of_request hreq] at hnode ⊢
    by_cases hsame : rel = reld
    · subst hsame
      exact (leaves_ensureAt hdoc hsound hrel hmeets hurl).holds repo marker hnode
    · have hne : root ++ rel ≠ root ++ reld := fun h => hsame (List.append_cancel_left h)
      have hout : ¬ gitDir (root ++ rel) <+: root ++ reld := by
        intro hprefix
        rw [gitDir, List.append_assoc, List.prefix_append_right_inj] at hprefix
        exact hreld (List.IsPrefix.subset hprefix (by simp))
      have hother : (ensureAt c.maxAgeHours c.probe c.answers (root ++ reld) ref url s.disk).disk (gitDir (root ++ rel)) =
          s.disk (gitDir (root ++ rel)) ∨
          (ensureAt c.maxAgeHours c.probe c.answers (root ++ reld) ref url s.disk).disk (gitDir (root ++ rel)) = none :=
        (primitives_gitDir hne hout).ensureAt (spoken_plain hmeets.plainRef.not_option hmeets.plainUrl.not_option) rfl
      rcases hother with hother | hother
      · rw [hother] at hnode
        have hholds := hsound rel repo marker hrel hnode
        constructor
        · exact hholds.origin
        · rw [lastSync_ownSyncs hne]
          exact hholds.synced
      · rw [hother] at hnode
        cases hnode

theorem sound_of_reached {s₀ : Host R C} (hunused : Unused root s₀.disk)
    (h : Reached V E root (MeetsAll V E root) s₀ s) : Sound V root s := by
  induction h with
  | start =>
    intro rel repo marker _ hnode
    exact absurd hnode (hunused rel repo marker)
  | call c _ hdoc hok ih => exact ih.after hdoc hok

end Sound

/-- In every run of documented calls that meet the condition, each call delivers
the version it was asked for. -/
theorem version_asked_for {R C : Type} {V : View R C} {E : Runtime} {root : Path} {d : Disk R}
    (hunused : Unused root d) {s : Host R C} (h : Reached V E root (MeetsAll V E root) ⟨d, []⟩ s)
    {c : Call R C} (hdoc : Documented V c) (hok : MeetsAll V E root s c) : Delivers V E root s c := by
  have hsound := sound_of_reached hunused h
  intro p hresult hlines
  cases hreq : request E root c.entry with
  | none =>
    have hnone : (c.outcome E root s.disk).result = .ok none := (ensure_of_unusable c.answers hreq).2
    rw [hnone] at hresult
    cases hresult
  | some asked =>
    obtain ⟨dest, ref, url⟩ := asked
    obtain ⟨⟨rel, rfl⟩, hurl⟩ := request_parts hreq
    have hmeets := hok _ ref url hreq
    have hleaves := leaves_ensureAt hdoc hsound (hmeets.outside rel rfl) hmeets hurl
    rw [← outcome_of_request hreq] at hleaves
    obtain ⟨rfl, repo, marker, hnode, horigin, hsync⟩ := hleaves.delivers p hresult hlines
    rw [← syncs_of_request hreq] at hsync
    exact ⟨ref, url, rfl, repo, marker, hnode, horigin, hsync⟩

structure SampleClone where
  origin : Text
  head : ℕ
  fetched : Option ℕ
  branch : Option Text

/-- Commits are numbered along one line of history. -/
def sampleView : View SampleClone ℕ where
  origin r := some r.origin
  head r := some r.head
  fetchHead r := r.fetched
  upstream r := r.branch
  behind r commit := commit < r.head

def sampleRemote : Remote ℕ where
  default := "main".toList
  tip ref := if ref = "main".toList then some 1 else if ref = "dev".toList then some 2 else none

def sampleFailure : Trouble := .runtimeError []

def sampleFetch (ref : Text) (r : SampleClone) : SampleClone × Option Trouble :=
  match sampleRemote.tip ref with
  | some commit => ({ r with fetched := some commit }, none)
  | none => (r, some sampleFailure)

def sampleDetach (r : SampleClone) : SampleClone × Option Trouble :=
  match r.fetched with
  | some commit => ({ r with head := commit, branch := none }, none)
  | none => (r, some sampleFailure)

def samplePull (r : SampleClone) : SampleClone × Option Trouble :=
  match r.branch with
  | some branch =>
      match sampleRemote.tip branch with
      | some commit => if commit < r.head then (r, none) else ({ r with head := commit }, none)
      | none => (r, some sampleFailure)
  | none => (r, some sampleFailure)

def sampleCloned (ref url : Text) : Cloned SampleClone :=
  match sampleRemote.tip (wanted sampleRemote ref) with
  | some commit => .ok ⟨url, commit, none, some (wanted sampleRemote ref)⟩
  | none => .failed none sampleFailure

section Commands
variable {ref url : Text} {r : SampleClone}

theorem sampleFetch_kept (ref : Text) (r : SampleClone) : SameHead sampleView r (sampleFetch ref r).1 := by
  unfold sampleFetch
  split <;> exact ⟨rfl, rfl⟩

theorem sampleFetch_fetched (h : (sampleFetch ref r).2 = none) : (sampleFetch ref r).1.fetched = sampleRemote.tip ref := by
  unfold sampleFetch at h ⊢
  cases htip : sampleRemote.tip ref with
  | some commit => rfl
  | none =>
    rw [htip] at h
    cases h

theorem sampleDetach_head (h : (sampleDetach r).2 = none) : some (sampleDetach r).1.head = r.fetched := by
  unfold sampleDetach at h ⊢
  cases hfetched : r.fetched with
  | some commit => rfl
  | none =>
    rw [hfetched] at h
    cases h

theorem sampleDetach_origin (r : SampleClone) : (sampleDetach r).1.origin = r.origin := by
  unfold sampleDetach
  split <;> rfl

theorem sampleDetach_failed (h : (sampleDetach r).2 ≠ none) : (sampleDetach r).1 = r := by
  unfold sampleDetach at h ⊢
  split
  · rename_i commit hfetched
    rw [hfetched] at h
    exact absurd rfl h
  · rfl

theorem samplePull_head (h : (samplePull r).2 = none) : ∃ branch commit, r.branch = some branch ∧
    sampleRemote.tip branch = some commit ∧
      ((samplePull r).1.head = commit ∨ commit < r.head ∧ (samplePull r).1.head = r.head) := by
  unfold samplePull at h ⊢
  cases hbranch : r.branch with
  | none =>
    rw [hbranch] at h
    cases h
  | some branch =>
    rw [hbranch] at h
    dsimp only at h ⊢
    cases htip : sampleRemote.tip branch with
    | none =>
      rw [htip] at h
      cases h
    | some commit =>
      refine ⟨branch, commit, rfl, htip, ?_⟩
      dsimp only
      by_cases hlt : commit < r.head
      · rw [if_pos hlt]
        exact .inr ⟨hlt, rfl⟩
      · rw [if_neg hlt]
        exact .inl rfl

theorem samplePull_origin (r : SampleClone) : (samplePull r).1.origin = r.origin := by
  unfold samplePull
  split
  · split
    · split <;> rfl
    · rfl
  · rfl

theorem samplePull_failed (h : (samplePull r).2 ≠ none) : (samplePull r).1 = r := by
  unfold samplePull at h ⊢
  split at h
  · split at h
    · split at h <;> exact absurd rfl h
    · rfl
  · rfl

theorem sampleCloned_ok (h : sampleCloned ref url = .ok r) :
    r.origin = url ∧ some r.head = sampleRemote.tip (wanted sampleRemote ref) := by
  unfold sampleCloned at h
  cases htip : sampleRemote.tip (wanted sampleRemote ref) with
  | none =>
    rw [htip] at h
    cases h
  | some commit =>
    rw [htip] at h
    cases h
    exact ⟨rfl, rfl⟩

theorem sampleCloned_left {trouble : Trouble} : sampleCloned ref url ≠ .failed (some r) trouble := by
  unfold sampleCloned
  split <;> exact nofun

end Commands

def sampleEntry (ref : Text) : Json :=
  .obj [("url".toList, .str "https://git.example.com/liba.git".toList), ("ref".toList, .str ref),
    ("path".toList, .str "liba".toList)]

def sampleCall (ref : Text) (now done : ℚ) : Call SampleClone ℕ where
  entry := sampleEntry ref
  maxAgeHours := 24
  probe := { getUrl := fun r => .ok (r.origin ++ ['\n']), now := now }
  answers :=
    { fetch := sampleFetch
      detach := sampleDetach
      pull := samplePull
      clone := sampleCloned
      changes := fun _ => none
      program := id
      done := done
      marking := .written }
  remote _ := sampleRemote

theorem documented_sampleCall (ref : Text) (now done : ℚ) : Documented sampleView (sampleCall ref now done) where
  getUrl r out hout := ⟨r.origin, rfl, (Except.ok.inj hout).symm⟩
  fetch_kept ref' r _ := sampleFetch_kept ref' r
  fetch ref' r url _ _ _ hok := sampleFetch_fetched hok
  detach r hok := ⟨sampleDetach_head hok, congrArg some (sampleDetach_origin r)⟩
  detach_kept r hfailed := by
    rw [show ((sampleCall ref now done).answers.detach r).1 = r from sampleDetach_failed hfailed]
    exact ⟨rfl, rfl⟩
  pull r url _ hok := by
    obtain ⟨branch, commit, hbranch, htip, hhead⟩ := samplePull_head hok
    refine ⟨branch, commit, hbranch, htip, hhead.imp (congrArg some) ?_⟩
    rintro ⟨hlt, hsame⟩
    exact ⟨hlt, congrArg some hsame⟩
  pull_origin r := congrArg some (samplePull_origin r)
  pull_kept r hfailed := by
    rw [show ((sampleCall ref now done).answers.pull r).1 = r from samplePull_failed hfailed]
    exact ⟨rfl, rfl⟩
  clone ref' url r _ _ hclone := ⟨congrArg some (sampleCloned_ok hclone).1, (sampleCloned_ok hclone).2⟩
  clone_left ref' url r trouble _ hclone := absurd hclone sampleCloned_left

def emptyHost : Host SampleClone ℕ := ⟨fun _ => none, []⟩

def mainRef : Text := "main".toList
def devRef : Text := "dev".toList

/-- The host after a first call for `main` at time 0. -/
def clonedHost : Host SampleClone ℕ := emptyHost.after plainRuntime sampleRoot (sampleCall mainRef 0 0)

def sampleUrl : Text := "https://git.example.com/liba.git".toList
def sampleDest : Path := sampleRoot ++ ["liba".toList]

theorem plainUrl_sample : plainUrl sampleUrl := by
  unfold plainUrl
  decide

theorem plainRef_main : plainRef mainRef := by
  simp [plainRef, mainRef]

theorem outside_sample {rel : Path} (h : sampleDest = sampleRoot ++ rel) : gitName ∉ rel := by
  rw [← List.append_cancel_left h]
  decide

theorem request_main : request plainRuntime sampleRoot (sampleEntry mainRef) =
    some (sampleDest, mainRef, sampleUrl) := by rfl

theorem request_dev : request plainRuntime sampleRoot (sampleEntry devRef) =
    some (sampleDest, devRef, sampleUrl) := by rfl

theorem cloned_node : clonedHost.disk (gitDir sampleDest) =
    some (.repository ⟨sampleUrl, 1, none, some mainRef⟩ (some (.finite 0))) := by rfl

theorem cloned_fresh : isFresh 24 3600 (syncTime sampleDest clonedHost.disk) = true := by
  have htime : syncTime sampleDest clonedHost.disk = some (.finite 0) := by rfl
  rw [htime]
  norm_num [isFresh]

theorem dev_outcome : (sampleCall devRef 3600 3600).outcome plainRuntime sampleRoot clonedHost.disk =
    ⟨clonedHost.disk, [.fresh], .ok (some sampleDest)⟩ := by
  have hhere : hasCheckout (sampleCall devRef 3600 3600).probe sampleDest sampleUrl clonedHost.disk = .ok true := by
    rfl
  rw [outcome_of_request request_dev]
  simp only [ensureAt, hhere]
  exact if_pos cloned_fresh

theorem meetsAll_cloned :
    MeetsAll sampleView plainRuntime sampleRoot emptyHost (sampleCall mainRef 0 0) := by
  intro dest ref url hreq
  cases request_main.symm.trans hreq
  constructor
  · exact plainUrl_sample
  · exact plainRef_main
  · exact fun rel => outside_sample
  · rintro ⟨⟩
  · rintro ⟨⟩
  · rintro ⟨⟩

theorem meetsAll_reused :
    MeetsAll sampleView plainRuntime sampleRoot clonedHost (sampleCall mainRef 3600 3600) := by
  intro dest ref url hreq
  cases request_main.symm.trans hreq
  constructor
  · exact plainUrl_sample
  · exact plainRef_main
  · exact fun rel => outside_sample
  · intro _ _
    exact ⟨_, rfl, rfl⟩
  · intro _ hstale
    exact absurd (cloned_fresh.symm.trans hstale) (by decide)
  · rintro ⟨⟩

/-- The second call for `main` within a day reuses the checkout, as it should. -/
theorem version_asked_for_reused :
    Delivers sampleView plainRuntime sampleRoot clonedHost (sampleCall mainRef 3600 3600) :=
  version_asked_for (d := emptyHost.disk) (fun _ _ _ h => by cases h)
    (.call _ .start (documented_sampleCall mainRef 0 0) meetsAll_cloned)
    (documented_sampleCall mainRef 3600 3600) meetsAll_reused

/-- A call for `dev` within the same day is given the checkout of `main`. -/
theorem other_version_delivered : ∃ s c,
    Reached sampleView plainRuntime sampleRoot (fun _ _ => True) emptyHost s ∧ Documented sampleView c ∧
      ¬ Delivers sampleView plainRuntime sampleRoot s c := by
  refine ⟨clonedHost, sampleCall devRef 3600 3600,
    .call _ .start (documented_sampleCall mainRef 0 0) trivial, documented_sampleCall devRef 3600 3600, ?_⟩
  intro h
  have hsyncs : (clonedHost.after plainRuntime sampleRoot (sampleCall devRef 3600 3600)).syncs =
      [⟨sampleDest, sampleUrl, mainRef, 0, sampleRemote⟩] := by
    rw [syncs_of_request request_dev, dev_outcome]
    rfl
  obtain ⟨ref, url, hreq, repo, marker, hnode, -, sync, hmem, -, -, hhead, -⟩ :=
    h sampleDest (by rw [dev_outcome]) (by rw [dev_outcome]; simp)
  cases request_dev.symm.trans hreq
  rw [dev_outcome] at hnode
  cases cloned_node.symm.trans hnode
  rw [hsyncs] at hmem
  cases List.mem_singleton.mp hmem
  exact absurd hhead (by decide)

end GitlabReviewer.Libraries
