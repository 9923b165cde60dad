import GitlabReviewer.Libraries.Collisions
import GitlabReviewer.Libraries.Mounts
import GitlabReviewer.Libraries.Versions
import Mathlib.Logic.Relation

/-! # Reviews that share the checkout root

Each review prepares the entries of its own list, one locked call after the
other, runs its container with the mounts and ends. A mount outlives the lock,
so a running review relies on what the others prepare meanwhile: its checkouts
are safe as long as no two reviews want one directory for different urls, or
nested directories. What counts is where a path leads: a cloned library may hold
symbolic links.
-/
namespace GitlabReviewer.Libraries
open Python Foundation

inductive Stage where
  | preparing
  | running
  | ended
  deriving DecidableEq

/-- One `run_review`: where the calls that have returned worked and for which
url, the entries to come, and the mounts so far; once the container runs, the
directories these led to. -/
structure Review where
  stage : Stage
  prepared : List (Path × Text)
  rest : List Json
  mounts : List Mount

structure Machine (R : Type) where
  disk : Disk R
  links : Links
  reviews : ℕ → Option Review

/-- What is relied on of git: the url it prints is the origin, a clone has the
url as origin, and the other commands leave the origin alone. An option in the
place of a ref or a url may do anything. -/
structure KeepsOrigin {R : Type} (origin : R → Option Text) (attempt : Attempt R) : Prop where
  getUrl : ∀ r out, attempt.probe.getUrl r = .ok out → ∃ o, origin r = some o ∧ out = o ++ ['\n']
  fetch : ∀ ref r, isOption ref = false → origin (attempt.answers.fetch ref r).1 = origin r
  detach : ∀ r, origin (attempt.answers.detach r).1 = origin r
  pull : ∀ r, origin (attempt.answers.pull r).1 = origin r
  clone : ∀ ref url r, isOption url = false → attempt.answers.clone ref url = .ok r → origin r = some url

/-- The errors of `git remote get-url` that `_same_remote` takes for another remote. -/
def Trouble.unreadable : Trouble → Bool
  | runtimeError _ => true
  | osError _ => true
  | _ => false

/-- Git can read the remote of a repository that has one. -/
def Readable {R : Type} (origin : R → Option Text) (attempt : Attempt R) : Prop :=
  ∀ r trouble, (origin r).isSome = true → attempt.probe.getUrl r = .error trouble → trouble.unreadable = false

/-- `shutil.rmtree` runs on the directory of the call. -/
def removes {R : Type} (links : Links) (probe : Probe R) (dest : Path) (url : Text) (d : Disk R) : Bool :=
  match hasCheckout probe (links.leads dest) url d with
  | .ok false => !links.isLink dest && (d (links.leads dest)).isSome && !isFile (d (links.leads dest))
  | _ => false

/-- The directory still is the checkout it was. -/
structure SameCheckout {R : Type} (origin : R → Option Text) (d d' : Disk R) (p : Path) : Prop where
  node : d' p = d p
  repository : ∀ repo marker, d (gitDir p) = some (.repository repo marker) →
    ∃ repo' marker', d' (gitDir p) = some (.repository repo' marker') ∧ origin repo' = origin repo

/-- Directories that lie apart, or one directory for one url. -/
def Compatible (a b : Path × Text) : Prop := FileTree.Apart a.1 b.1 ∨ a = b

section Machine
variable {R : Type} (origin : R → Option Text) (E : Runtime) (root : Path) (maxAgeHours : ℚ)

/-- Where a usable entry leads, and its url. -/
def claimed (links : Links) (entry : Json) : Option (Path × Text) :=
  (request E root entry).map fun asked => (links.leads asked.1, asked.2.2)

/-- `run_review` gives up when a call raises. -/
def Review.afterCall (r : Review) (links : Links) (entry : Json) (rest : List Json) :
    Except Trouble (Option Path) → Review
  | .error _ => { r with stage := .ended }
  | .ok dest =>
      { r with
        prepared := r.prepared ++ (claimed E root links entry).toList
        rest := rest
        mounts := mounted E entry dest r.mounts }

def Machine.set (s : Machine R) (i : ℕ) (r : Review) : Machine R :=
  { s with reviews := Function.update s.reviews i (some r) }

def Machine.outcome (s : Machine R) (entry : Json) (attempt : Attempt R) : Outcome R :=
  ensureLinkedCheckout s.links maxAgeHours attempt.probe attempt.answers E root entry s.disk

/-- One locked call of a review, and the links of the disk after it. -/
def Machine.call (s : Machine R) (i : ℕ) (r : Review) (entry : Json) (rest : List Json) (attempt : Attempt R)
    (links : Links) : Machine R where
  disk := (s.outcome E root maxAgeHours entry attempt).disk
  links := links
  reviews := Function.update s.reviews i
    (some (r.afterCall E root s.links entry rest (s.outcome E root maxAgeHours entry attempt).result))

/-- The container is started, and the sources of its mounts are looked up. -/
def Machine.started (s : Machine R) (r : Review) : Review :=
  { r with stage := .running, mounts := r.mounts.map fun mount => (s.links.leads mount.1, mount.2) }

/-- What is asked of the calls and of the starts of the containers. -/
structure Condition (R : Type) where
  call : Machine R → ℕ → Json → Attempt R → Prop
  run : Machine R → Review → Prop

def Condition.none : Condition R := ⟨fun _ _ _ _ => True, fun _ _ => True⟩

/-- One step of one review, under a condition. -/
inductive Machine.Step (ok : Condition R) : Machine R → Machine R → Prop
  | start {s : Machine R} (i : ℕ) (entries : List Json) {normalized : List Json} (hnew : s.reviews i = none)
      (hn : normalizeExtraProjects E entries = some normalized) :
      Step ok s (s.set i ⟨.preparing, [], normalized, []⟩)
  | call {s : Machine R} (i : ℕ) {r : Review} {entry : Json} {rest : List Json} (attempt : Attempt R) (links : Links)
      (hr : s.reviews i = some r) (hstage : r.stage = .preparing) (hrest : r.rest = entry :: rest)
      (hdoc : KeepsOrigin origin attempt) (hok : ok.call s i entry attempt) :
      Step ok s (s.call E root maxAgeHours i r entry rest attempt links)
  | run {s : Machine R} (i : ℕ) {r : Review} (hr : s.reviews i = some r) (hstage : r.stage = .preparing)
      (hrest : r.rest = []) (hok : ok.run s r) : Step ok s (s.set i (s.started r))
  | finish {s : Machine R} (i : ℕ) {r : Review} (hr : s.reviews i = some r) (hstage : r.stage = .running) :
      Step ok s (s.set i { r with stage := .ended })

/-- The call of a review for an entry neither removes a directory that another
running review has mounted nor makes it the checkout of another remote. -/
def Isolated (s : Machine R) (i : ℕ) (entry : Json) (attempt : Attempt R) : Prop :=
  ∀ dest ref url, request E root entry = some (dest, ref, url) →
    ∀ j r, j ≠ i → s.reviews j = some r → r.stage = .running → ∀ mount ∈ r.mounts,
      (s.links.leads dest <+: mount.1 → removes s.links attempt.probe dest url s.disk = false) ∧
        SameCheckout origin s.disk (s.outcome E root maxAgeHours entry attempt).disk mount.1

/-- Git is given no option and can read remotes, and what other reviews have
prepared and not yet done with is compatible with where the entry leads. -/
def Allowed (s : Machine R) (i : ℕ) (entry : Json) (attempt : Attempt R) : Prop :=
  ∀ dest ref url, request E root entry = some (dest, ref, url) →
    (∀ word ∈ spoken attempt.probe (s.links.leads dest) ref url s.disk, isOption word = false) ∧
      Readable origin attempt ∧ ∀ j r, j ≠ i → s.reviews j = some r → r.stage ≠ .ended →
        ∀ c ∈ r.prepared, Compatible c (s.links.leads dest, url)

/-- What is mounted is what the review has prepared. -/
def LeadsHome (s : Machine R) (r : Review) : Prop :=
  ∀ mount ∈ r.mounts, ∃ c ∈ r.prepared, c.1 = s.links.leads mount.1

def allowed : Condition R := ⟨Allowed origin E root, LeadsHome⟩

end Machine

section Call
variable {R : Type} {origin : R → Option Text} {maxAgeHours : ℚ} {attempt : Attempt R} {dest : Path}
  {ref url : Text} {d : Disk R}

/-- The directory holds a repository with the url as its remote. -/
def CheckoutOf (origin : R → Option Text) (d : Disk R) (p : Path) (url : Text) : Prop :=
  isDir (d p) = true ∧ ∃ repo marker o, d (gitDir p) = some (.repository repo marker) ∧ origin repo = some o ∧
    strip o = url

theorem SameCheckout.refl (d : Disk R) (p : Path) : SameCheckout origin d d p where
  node := rfl
  repository repo marker h := ⟨repo, marker, h, rfl⟩

theorem CheckoutOf.of_same {d' : Disk R} {p : Path} (h : CheckoutOf origin d p url)
    (hsame : SameCheckout origin d d' p) : CheckoutOf origin d' p url := by
  obtain ⟨hdir, repo, marker, o, hrepo, ho, hurl⟩ := h
  obtain ⟨repo', marker', hrepo', horigin⟩ := hsame.repository repo marker hrepo
  exact ⟨by rw [hsame.node, hdir], repo', marker', o, hrepo', horigin.trans ho, hurl⟩

theorem gitDir_ne (p : Path) : p ≠ gitDir p := by
  intro h
  have hlen := congrArg List.length h
  rw [gitDir, List.length_append, List.length_singleton] at hlen
  omega

theorem checkOut_dest (answers : Answers R) (repo : R) (marker : Option Python.Float) (d : Disk R) :
    checkOut answers dest repo marker d dest = d dest := by
  have hself : ∀ t : Disk R, FileTree.patch dest (workTree answers.changes) t dest = t dest := by
    intro t
    have happend : FileTree.patch dest (workTree answers.changes) t (dest ++ []) = t (dest ++ []) :=
      FileTree.patch_append []
    rwa [List.append_nil] at happend
  exact (hself _).trans (FileTree.put_of_ne (gitDir_ne dest))

theorem markSynced_dest (answers : Answers R) (d : Disk R) : markSynced answers dest d dest = d dest := by
  cases hnode : d (gitDir dest) with
  | none => simp only [markSynced, hnode]
  | some node =>
    cases node with
    | leaf l => simp only [markSynced, hnode]
    | repository repo marker =>
      simp only [markSynced, hnode]
      exact FileTree.put_of_ne (gitDir_ne dest)

theorem refresh_dest (answers : Answers R) (href : isOption ref = false) (repo : R) (marker : Option Python.Float) :
    (refresh answers dest ref repo marker d).1 dest = d dest := by
  unfold refresh
  simp only [run_plain href]
  split
  · exact checkOut_dest answers _ _ d
  · split
    · exact FileTree.put_of_ne (gitDir_ne dest)
    · exact checkOut_dest answers _ _ d

theorem origin_refreshed (hdoc : KeepsOrigin origin attempt) (href : isOption ref = false) (repo : R) :
    origin (refreshed attempt.answers ref repo).1 = origin repo := by
  unfold refreshed
  split
  · exact hdoc.pull repo
  · have hfetch := hdoc.fetch ref repo href
    split
    · rename_i fetched trouble heq
      rwa [heq] at hfetch
    · rename_i fetched heq
      rw [heq] at hfetch
      exact (hdoc.detach fetched).trans hfetch

/-- A re-sync keeps the origin, whether it succeeds or not. -/
theorem resync_same (hdoc : KeepsOrigin origin attempt) (href : isOption ref = false) :
    SameCheckout origin d (resync attempt.answers dest ref d).disk dest := by
  cases hnode : d (gitDir dest) with
  | none =>
    simp only [resync, hnode]
    exact .refl d dest
  | some node =>
    cases node with
    | leaf l =>
      simp only [resync, hnode]
      exact .refl d dest
    | repository repo marker =>
      obtain ⟨-, hspec⟩ := refresh_spec attempt.answers dest href d repo marker
      have hdest : (refresh attempt.answers dest ref repo marker d).1 dest = d dest := refresh_dest _ href _ _
      have hsame : SameCheckout origin d (refresh attempt.answers dest ref repo marker d).1 dest := by
        refine ⟨hdest, ?_⟩
        intro repo' marker' hrepo
        rw [hnode] at hrepo
        cases hrepo
        exact ⟨_, _, hspec, origin_refreshed hdoc href repo⟩
      simp only [resync, hnode]
      split
      · rename_i d' heq
        rw [heq] at hspec hsame
        refine ⟨(markSynced_dest _ _).trans hsame.node, ?_⟩
        intro repo' marker' hrepo
        rw [hnode] at hrepo
        cases hrepo
        exact ⟨_, _, markSynced_gitDir attempt.answers hspec, origin_refreshed hdoc href repo⟩
      · rename_i d' trouble heq
        rw [heq] at hsame
        split <;> exact hsame

/-- A checkout of the url is recognized, or the question cannot be asked. -/
theorem hasCheckout_of_checkoutOf (hdoc : KeepsOrigin origin attempt) (hread : Readable origin attempt)
    (h : CheckoutOf origin d dest url) :
    hasCheckout attempt.probe dest url d = .ok true ∨ ∃ trouble, hasCheckout attempt.probe dest url d = .error trouble := by
  obtain ⟨hdir, repo, marker, o, hrepo, ho, hurl⟩ := h
  have hgit : isDir (d (gitDir dest)) = true := by
    rw [hrepo]
    rfl
  unfold hasCheckout
  rw [hdir, hgit]
  simp only [Bool.and_self, if_true, sameRemote, hrepo]
  cases hask : attempt.probe.getUrl repo with
  | ok out =>
    left
    obtain ⟨o', ho', rfl⟩ := hdoc.getUrl repo out hask
    rw [ho] at ho'
    cases ho'
    dsimp only
    rw [strip_append_newline, hurl, beq_self_eq_true]
  | error trouble =>
    have hcaught := hread repo trouble (by rw [ho]; rfl) hask
    cases trouble with
    | runtimeError message => cases hcaught
    | osError message => cases hcaught
    | subprocessError message => exact .inr ⟨_, rfl⟩
    | valueError message => exact .inr ⟨_, rfl⟩

/-- A call leaves the checkouts alone that are compatible with its own. -/
theorem ensureAt_same (hdoc : KeepsOrigin origin attempt) (hread : Readable origin attempt)
    (hplain : ∀ word ∈ spoken attempt.probe dest ref url d, isOption word = false) {c : Path × Text}
    (hc : Compatible c (dest, url)) (h : c = (dest, url) → CheckoutOf origin d dest url) :
    (dest <+: c.1 → hasCheckout attempt.probe dest url d ≠ .ok false) ∧
      SameCheckout origin d (ensureAt maxAgeHours attempt.probe attempt.answers dest ref url d).disk c.1 := by
  rcases hc with hapart | rfl
  · refine ⟨fun hbelow => absurd hbelow hapart.right, ?_⟩
    have hkept : ∀ q, c.1 <+: q →
        (ensureAt maxAgeHours attempt.probe attempt.answers dest ref url d).disk q = d q :=
      fun q hq => (primitives_apart hapart).ensureAt hplain hq
    refine ⟨hkept _ (List.prefix_refl _), ?_⟩
    intro repo marker hrepo
    exact ⟨repo, marker, (hkept _ (below_gitDir _)).trans hrepo, rfl⟩
  · unfold ensureAt
    unfold spoken at hplain
    rcases hasCheckout_of_checkoutOf hdoc hread (h rfl) with hhas | ⟨trouble, hhas⟩
    · rw [hhas] at hplain ⊢
      refine ⟨fun _ => nofun, ?_⟩
      dsimp only
      split
      · exact .refl d dest
      · exact resync_same hdoc (hplain ref rfl)
    · rw [hhas]
      exact ⟨fun _ => nofun, .refl d dest⟩

/-- What stands where the path leads is kept as well. -/
theorem ensureThrough_same {links : Links} (hdoc : KeepsOrigin origin attempt) (hread : Readable origin attempt)
    (hplain : ∀ word ∈ spoken attempt.probe (links.leads dest) ref url d, isOption word = false) {c : Path × Text}
    (hc : Compatible c (links.leads dest, url))
    (h : c = (links.leads dest, url) → CheckoutOf origin d (links.leads dest) url) :
    (links.leads dest <+: c.1 → removes links attempt.probe dest url d = false) ∧
      SameCheckout origin d (ensureThrough links maxAgeHours attempt.probe attempt.answers dest ref url d).disk c.1 := by
  have hsame : (links.leads dest <+: c.1 → hasCheckout attempt.probe (links.leads dest) url d ≠ .ok false) ∧
      SameCheckout origin d (ensureAt maxAgeHours attempt.probe attempt.answers (links.leads dest) ref url d).disk c.1 :=
    ensureAt_same hdoc hread hplain hc h
  refine ⟨fun hbelow => ?_, ?_⟩
  · unfold removes
    split
    · rename_i hnone
      exact absurd hnone (hsame.1 hbelow)
    · rfl
  · by_cases hlink : links.isLink dest = true ∧ hasCheckout attempt.probe (links.leads dest) url d = .ok false
    · rw [ensureThrough_of_link attempt.answers hlink.1 hlink.2]
      exact .refl d c.1
    · rw [ensureThrough_disk attempt.answers (by
        rcases not_and_or.mp hlink with hno | hsome
        · exact .inl (by simpa using hno)
        · exact .inr hsome)]
      exact hsame.2

/-- A call that returns has worked where its path leads. -/
theorem ensureThrough_ok {links : Links} {answers : Answers R} {probe : Probe R} {result : Option Path}
    (h : (ensureThrough links maxAgeHours probe answers dest ref url d).result = .ok result) :
    result = some dest ∧ (ensureThrough links maxAgeHours probe answers dest ref url d).disk =
      (ensureAt maxAgeHours probe answers (links.leads dest) ref url d).disk ∧
      ∃ place, (ensureAt maxAgeHours probe answers (links.leads dest) ref url d).result = .ok place := by
  unfold ensureThrough at h ⊢
  split at h
  · split at h <;> cases h
  · dsimp only at h ⊢
    cases hout : (ensureAt maxAgeHours probe answers (links.leads dest) ref url d).result with
    | error trouble =>
      rw [hout] at h
      cases h
    | ok place =>
      rw [hout, ensureAt_result hout] at h
      refine ⟨(Except.ok.inj h).symm, ?_, place, rfl⟩
      rfl

theorem cloneLibrary_ok {answers : Answers R} (h : (cloneLibrary answers dest ref url d).2 = none) :
    blocked d dest = false ∧ ∃ repo, answers.clone ref url = .ok repo ∧
      (cloneLibrary answers dest ref url d).1 (gitDir dest) = some (.repository repo none) ∧
      (cloneLibrary answers dest ref url d).1 dest = some (.leaf .dir) := by
  unfold cloneLibrary at h ⊢
  split at h
  · cases h
  · rename_i hfree
    rw [if_neg hfree]
    dsimp only at h ⊢
    refine ⟨by simpa using hfree, ?_⟩
    cases hclone : answers.clone ref url with
    | failed left trouble =>
      rw [hclone] at h
      cases left <;> cases h
    | ok repo =>
      refine ⟨repo, rfl, checkOut_gitDir repo none, ?_⟩
      dsimp only
      rw [checkOut_dest, FileTree.put_self]

/-- A call that returns a directory leaves a checkout of the url there. -/
theorem checkoutOf_ensureAt (hdoc : KeepsOrigin origin attempt)
    (hplain : ∀ word ∈ spoken attempt.probe dest ref url d, isOption word = false) (hurl : strip url = url)
    {result : Option Path}
    (h : (ensureAt maxAgeHours attempt.probe attempt.answers dest ref url d).result = .ok result) :
    CheckoutOf origin (ensureAt maxAgeHours attempt.probe attempt.answers dest ref url d).disk dest url := by
  unfold ensureAt at h ⊢
  unfold spoken at hplain
  cases hhas : hasCheckout attempt.probe dest url d with
  | error trouble =>
    rw [hhas] at h
    cases h
  | ok here =>
    rw [hhas] at h hplain
    cases here with
    | true =>
      have hbefore : CheckoutOf origin d dest url := by
        obtain ⟨repo, marker, out, hrepo, hout, hstrip⟩ := repository_of_hasCheckout hhas
        obtain ⟨o, ho, rfl⟩ := hdoc.getUrl repo out hout
        rw [strip_append_newline] at hstrip
        exact ⟨isDir_of_hasCheckout hhas, repo, marker, o, hrepo, ho, hstrip⟩
      dsimp only
      split
      · exact hbefore
      · exact hbefore.of_same (resync_same hdoc (hplain ref rfl))
    | false =>
      dsimp only at h hplain ⊢
      unfold reclone at h ⊢
      split at h
      · cases h
      · rename_i hfile
        rw [if_neg hfile]
        generalize cleared dest d = d₀ at h hplain ⊢
        split at h
        · rename_i d' heq
          have hok : (cloneLibrary attempt.answers dest ref url d₀).2 = none := by rw [heq]
          obtain ⟨hfree, repo, hclone, hrepo, hdir⟩ := cloneLibrary_ok hok
          rw [hfree] at hplain
          rw [heq] at hrepo hdir
          dsimp only at hrepo hdir
          refine ⟨?_, repo, _, url, markSynced_gitDir attempt.answers hrepo,
            hdoc.clone ref url repo (hplain url rfl) hclone, hurl⟩
          dsimp only
          rw [markSynced_dest, hdir]
          rfl
        · cases h

end Call

section Runs
variable {R : Type} {origin : R → Option Text} {E : Runtime} {root : Path} {maxAgeHours : ℚ} {s s' : Machine R}
  {i : ℕ} {r : Review} {entry : Json} {rest : List Json} {attempt : Attempt R}

/-- What a review that is not done with its directories can rely on: a prepared
directory that all its entries are compatible with is a checkout of the url. -/
structure Relies (origin : R → Option Text) (d : Disk R) (r : Review) : Prop where
  checkout : ∀ c ∈ r.prepared, (∀ c' ∈ r.prepared, Compatible c' c) → CheckoutOf origin d c.1 c.2
  mounted : r.stage = .running → ∀ mount ∈ r.mounts, ∃ c ∈ r.prepared, c.1 = mount.1

def Relied (origin : R → Option Text) (s : Machine R) : Prop :=
  ∀ i r, s.reviews i = some r → r.stage ≠ .ended → Relies origin s.disk r

theorem Compatible.symm {a b : Path × Text} (h : Compatible a b) : Compatible b a :=
  h.imp (fun hapart => ⟨hapart.right, hapart.left⟩) Eq.symm

/-- A call that all claims of a review are compatible with leaves its checkouts alone. -/
theorem Relies.same {d : Disk R} {links : Links} {dest : Path} {ref url : Text} (h : Relies origin d r)
    (hdoc : KeepsOrigin origin attempt) (hread : Readable origin attempt)
    (hplain : ∀ word ∈ spoken attempt.probe (links.leads dest) ref url d, isOption word = false)
    (hc : ∀ c ∈ r.prepared, Compatible c (links.leads dest, url)) {c : Path × Text} (hmem : c ∈ r.prepared) :
    (links.leads dest <+: c.1 → removes links attempt.probe dest url d = false) ∧
      SameCheckout origin d (ensureThrough links maxAgeHours attempt.probe attempt.answers dest ref url d).disk c.1 := by
  apply ensureThrough_same hdoc hread hplain (hc c hmem)
  rintro rfl
  exact h.checkout _ hmem hc

/-- The reviews other than the one that calls. -/
theorem Relies.other (h : Relies origin s.disk r) (hdoc : KeepsOrigin origin attempt)
    (hallowed : ∀ dest ref url, request E root entry = some (dest, ref, url) →
      (∀ word ∈ spoken attempt.probe (s.links.leads dest) ref url s.disk, isOption word = false) ∧
        Readable origin attempt ∧ ∀ c ∈ r.prepared, Compatible c (s.links.leads dest, url)) :
    Relies origin (s.outcome E root maxAgeHours entry attempt).disk r := by
  unfold Machine.outcome ensureLinkedCheckout
  cases hreq : request E root entry with
  | none => rwa [(forEntry_of_unusable _ hreq).1]
  | some asked =>
    obtain ⟨dest, ref, url⟩ := asked
    obtain ⟨hplain, hread, hc⟩ := hallowed dest ref url hreq
    rw [forEntry_of_request _ hreq]
    exact ⟨fun c hmem hall => (h.checkout c hmem hall).of_same (h.same hdoc hread hplain hc hmem).2, h.mounted⟩

/-- The review that calls. -/
theorem Relies.own (h : Relies origin s.disk r) (hdoc : KeepsOrigin origin attempt) (hstage : r.stage = .preparing)
    (hallowed : ∀ dest ref url, request E root entry = some (dest, ref, url) →
      (∀ word ∈ spoken attempt.probe (s.links.leads dest) ref url s.disk, isOption word = false) ∧ Readable origin attempt)
    {dest : Option Path} (hout : (s.outcome E root maxAgeHours entry attempt).result = .ok dest) :
    Relies origin (s.outcome E root maxAgeHours entry attempt).disk
      (r.afterCall E root s.links entry rest (.ok dest)) := by
  have hidle : (r.afterCall E root s.links entry rest (.ok dest)).stage ≠ .running := by
    show r.stage ≠ .running
    rw [hstage]
    decide
  refine ⟨?_, fun hrunning => absurd hrunning hidle⟩
  unfold Review.afterCall claimed
  unfold Machine.outcome ensureLinkedCheckout at hout ⊢
  cases hreq : request E root entry with
  | none =>
    rw [(forEntry_of_unusable _ hreq).1]
    simpa using h.checkout
  | some asked =>
    obtain ⟨place, ref, url⟩ := asked
    obtain ⟨hplain, hread⟩ := hallowed place ref url hreq
    rw [forEntry_of_request _ hreq] at hout ⊢
    obtain ⟨-, hdisk, result, hresult⟩ := ensureThrough_ok hout
    rw [hdisk]
    intro c hmem hall
    rw [Option.map_some, Option.toList_some] at hmem hall
    rcases List.mem_append.mp hmem with hold | hnew
    · have hbefore : CheckoutOf origin s.disk c.1 c.2 :=
        h.checkout c hold fun c' hc' => hall c' (List.mem_append_left _ hc')
      have hcompatible : Compatible c (s.links.leads place, url) := (hall _ (List.mem_append_right _ (by simp))).symm
      refine hbefore.of_same (ensureAt_same hdoc hread hplain hcompatible ?_).2
      rintro rfl
      exact hbefore
    · rw [List.mem_singleton.mp hnew]
      exact checkoutOf_ensureAt hdoc hplain (request_parts hreq).2 hresult

theorem reviews_set {j : ℕ} {r' : Review} (h : (s.set i r).reviews j = some r') :
    (j = i ∧ r' = r) ∨ (j ≠ i ∧ s.reviews j = some r') := by
  unfold Machine.set at h
  dsimp only at h
  by_cases hj : j = i
  · subst hj
    rw [Function.update_self] at h
    exact .inl ⟨rfl, (Option.some.inj h).symm⟩
  · rw [Function.update_of_ne hj] at h
    exact .inr ⟨hj, h⟩

/-- The calls of `ensure_libraries` on a disk without symbolic links, as steps of
the review that makes them. -/
theorem steps_ensureEach {attempts : ℕ → Attempt R} (hdoc : ∀ n, KeepsOrigin origin (attempts n))
    (hlinks : s.links = .none) (hr : s.reviews i = some r) (hstage : r.stage = .preparing) :
    ∃ s' r', Relation.ReflTransGen (Machine.Step origin E root maxAgeHours .none) s s' ∧
      s'.disk = (ensureEach E root maxAgeHours attempts r.rest r.mounts s.disk).disk ∧ s'.reviews i = some r' ∧
      match (ensureEach E root maxAgeHours attempts r.rest r.mounts s.disk).result with
      | .ok mounts => r'.stage = .preparing ∧ r'.rest = [] ∧ r'.mounts = mounts
      | .error _ => r'.stage = .ended := by
  induction hrest : r.rest generalizing s r attempts with
  | nil => exact ⟨s, r, .refl, rfl, hr, hstage, hrest, rfl⟩
  | cons entry rest ih =>
    have hstep : Machine.Step origin E root maxAgeHours .none s
        (s.call E root maxAgeHours i r entry rest (attempts 0) .none) :=
      .call i (attempts 0) .none hr hstage hrest (hdoc 0) trivial
    have houtcome : s.outcome E root maxAgeHours entry (attempts 0) =
        ensureLibraryCheckout maxAgeHours (attempts 0).probe (attempts 0).answers E root entry s.disk := by
      unfold Machine.outcome
      rw [hlinks]
      exact ensureLinkedCheckout_none _
    have hdisk₀ : (s.call E root maxAgeHours i r entry rest (attempts 0) .none).disk =
        (ensureLibraryCheckout maxAgeHours (attempts 0).probe (attempts 0).answers E root entry s.disk).disk := by
      rw [← houtcome]
      rfl
    have hafter : (s.call E root maxAgeHours i r entry rest (attempts 0) .none).reviews i =
        some (r.afterCall E root s.links entry rest (s.outcome E root maxAgeHours entry (attempts 0)).result) :=
      Function.update_self i _ s.reviews
    rw [houtcome] at hafter
    unfold ensureEach
    dsimp only
    cases hout : (ensureLibraryCheckout maxAgeHours (attempts 0).probe (attempts 0).answers E root entry s.disk).result with
    | error trouble =>
      rw [hout] at hafter
      exact ⟨_, _, .single hstep, hdisk₀, hafter, rfl⟩
    | ok dest =>
      rw [hout] at hafter
      obtain ⟨s', r', hrun, hdisk, hreview, hresult⟩ := ih (fun n => hdoc (n + 1)) rfl hafter hstage rfl
      rw [hdisk₀] at hdisk hresult
      exact ⟨s', r', .head hstep hrun, hdisk, hreview, hresult⟩

/-- One admitted step keeps what the reviews rely on. -/
theorem Relied.step (h : Relied origin s)
    (hstep : Machine.Step origin E root maxAgeHours (allowed origin E root) s s') : Relied origin s' := by
  cases hstep with
  | start i entries hnew hn =>
    intro j r' hj hstage
    rcases reviews_set hj with ⟨-, rfl⟩ | ⟨-, hj⟩
    · constructor
      · intro c hc
        cases hc
      · intro _ mount hmount
        cases hmount
    · exact h j r' hj hstage
  | @call i r entry rest attempt links hr hstage hrest hdoc hok =>
    intro j r' hj hstage'
    by_cases hji : j = i
    · subst hji
      unfold Machine.call at hj
      dsimp only at hj
      rw [Function.update_self] at hj
      cases hj
      cases hout : (s.outcome E root maxAgeHours entry attempt).result with
      | error trouble =>
        rw [hout] at hstage'
        exact absurd rfl hstage'
      | ok dest =>
        refine (h j r hr (by rw [hstage]; decide)).own hdoc hstage ?_ hout
        intro dest ref url hreq
        exact ⟨(hok dest ref url hreq).1, (hok dest ref url hreq).2.1⟩
    · unfold Machine.call at hj
      dsimp only at hj
      rw [Function.update_of_ne hji] at hj
      refine (h j r' hj hstage').other hdoc ?_
      intro dest ref url hreq
      obtain ⟨hplain, hread, hcompatible⟩ := hok dest ref url hreq
      exact ⟨hplain, hread, hcompatible j r' hji hj hstage'⟩
  | @run i r hr hstage hrest hok =>
    intro j r' hj hstage'
    rcases reviews_set hj with ⟨-, rfl⟩ | ⟨-, hj⟩
    · refine ⟨(h i r hr (by rw [hstage]; decide)).checkout, fun _ mount hmount => ?_⟩
      obtain ⟨mount₀, hmount₀, rfl⟩ := List.mem_map.mp hmount
      exact hok mount₀ hmount₀
    · exact h j r' hj hstage'
  | @finish i r hr hstage =>
    intro j r' hj hstage'
    rcases reviews_set hj with ⟨-, rfl⟩ | ⟨-, hj⟩
    · exact absurd rfl hstage'
    · exact h j r' hj hstage'

theorem Relied.run (h : Relied origin s)
    (hrun : Relation.ReflTransGen (Machine.Step origin E root maxAgeHours (allowed origin E root)) s s') :
    Relied origin s' := by
  induction hrun with
  | refl => exact h
  | tail _ hstep ih => exact ih.step hstep

end Runs

/-- A git that does what it is asked to; a repository is its origin. -/
def honest : Attempt Text where
  probe := ⟨fun repo => .ok (repo ++ ['\n']), 0⟩
  answers :=
    { fetch := fun _ repo => (repo, none)
      detach := fun repo => (repo, none)
      pull := fun repo => (repo, none)
      clone := fun _ url => .ok url
      changes := fun _ => none
      program := id
      done := 0
      marking := .written }

theorem keepsOrigin_honest : KeepsOrigin some honest where
  getUrl r out h := by
    cases h
    exact ⟨r, rfl, rfl⟩
  fetch _ _ _ := rfl
  detach _ := rfl
  pull _ := rfl
  clone ref url r _ h := by
    cases h
    rfl

theorem readable_honest : Readable some honest := by
  intro r trouble _ h
  cases h

def atLiba (url : Text) : Json := .obj [("url".toList, .str url), ("path".toList, .str "liba".toList)]

def idleMachine : Machine Text := ⟨fun _ => none, .none, fun _ => none⟩

def listed (entry : Json) : Review := ⟨.preparing, [], [entry], []⟩

def startedMachine : Machine Text := idleMachine.set 0 (listed (atLiba coreUrl))

def preparedMachine : Machine Text :=
  startedMachine.call plainRuntime sampleRoot 24 0 (listed (atLiba coreUrl)) (atLiba coreUrl) [] honest .none

def libaReview : Review := ⟨.preparing, [(sampleLibrary, coreUrl)], [], [(sampleLibrary, "liba".toList)]⟩

def runningMachine : Machine Text := preparedMachine.set 0 (preparedMachine.started libaReview)

/-- One review runs with its library, and another is about to prepare one. -/
def besideMachine (entry : Json) : Machine Text := runningMachine.set 1 (listed entry)

theorem leadsHome_liba : LeadsHome preparedMachine libaReview := by
  intro mount hmount
  rw [List.mem_singleton.mp hmount]
  exact ⟨_, List.mem_cons_self, rfl⟩

theorem runningMachine_reached {ok : Condition Text} (hcall : ok.call startedMachine 0 (atLiba coreUrl) honest)
    (hhome : ok.run preparedMachine libaReview) :
    Relation.ReflTransGen (Machine.Step some plainRuntime sampleRoot 24 ok) idleMachine runningMachine := by
  have hcore : normalizeExtraProjects plainRuntime [urlOnly coreUrl] = some [atLiba coreUrl] := by rfl
  have hstart : Machine.Step some plainRuntime sampleRoot 24 ok idleMachine startedMachine :=
    .start 0 [urlOnly coreUrl] rfl hcore
  have hcall : Machine.Step some plainRuntime sampleRoot 24 ok startedMachine preparedMachine :=
    .call 0 honest .none rfl rfl rfl keepsOrigin_honest hcall
  have hrun : Machine.Step some plainRuntime sampleRoot 24 ok preparedMachine runningMachine :=
    .run (r := libaReview) 0 rfl rfl rfl hhome
  exact .tail (.tail (.tail .refl hstart) hcall) hrun

theorem besideMachine_reached {ok : Condition Text} (hcall : ok.call startedMachine 0 (atLiba coreUrl) honest)
    (hhome : ok.run preparedMachine libaReview) {entries : List Json} {entry : Json}
    (hn : normalizeExtraProjects plainRuntime entries = some [entry]) :
    Relation.ReflTransGen (Machine.Step some plainRuntime sampleRoot 24 ok) idleMachine (besideMachine entry) :=
  .tail (runningMachine_reached hcall hhome) (.start 1 entries rfl hn)

end GitlabReviewer.Libraries
