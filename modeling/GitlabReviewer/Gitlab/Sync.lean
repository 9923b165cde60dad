import GitlabReviewer.Foundation.UnitOfWork
import GitlabReviewer.Gitlab.Client
import GitlabReviewer.Models.World
import GitlabReviewer.Scheduling.Forms

/-! # The sync of the open merge requests

The listing brings the open merge requests; a row that is still cached as opened
and not among them is fetched by itself. Everything is one unit of work: each
query flushes what has been set so far, and the commit comes at the end.
-/
namespace GitlabReviewer.Gitlab
open Python Foundation Models Settings Scheduling

/-- The columns in `_SYNCED_FIELDS`, as the session holds them. -/
structure Fields where
  title : Json
  author : Json
  sourceBranch : Json
  targetBranch : Json
  sha : Json
  webUrl : Json
  state : Json
  updatedAt : Option Timestamp
  deriving DecidableEq

/-- A row of the cache in a session: what has been set need not be a text. -/
structure CachedMr where
  id : ℕ
  project : Text
  iid : ℤ
  fields : Fields
  lastSeenAt : Option Timestamp

namespace CachedMr

def load (row : MergeRequest) : CachedMr where
  id := row.id
  project := row.project
  iid := row.iid
  fields :=
    { title := .str row.title
      author := .str row.author
      sourceBranch := .str row.sourceBranch
      targetBranch := .str row.targetBranch
      sha := .str row.sha
      webUrl := .str row.webUrl
      state := .str row.state
      updatedAt := row.updatedAt }
  lastSeenAt := row.lastSeenAt

end CachedMr

/-- What the columns make of a row and of a default branch, if they take it. -/
structure Columns where
  store : CachedMr → Option MergeRequest
  branch : Option Text → Bool

/-- The calls of the client in one sync. -/
structure Client where
  listing : Except Raised (List MrSnapshot)
  defaultBranch : Except Raised (Option Text)
  mergeRequest : ℤ → Except Raised MrSnapshot

inductive Outcome where
  | added
  | updated
  | unchanged
  deriving DecidableEq

structure Counts where
  added : ℕ
  updated : ℕ
  unchanged : ℕ
  deriving DecidableEq

def Counts.total (c : Counts) : ℕ := c.added + c.updated + c.unchanged

/-- One more of the listing. -/
def Counts.listed (c : Counts) : Outcome → Counts
  | .added => { c with added := c.added + 1 }
  | .updated => { c with updated := c.updated + 1 }
  | .unchanged => { c with unchanged := c.unchanged + 1 }

/-- One more that was fetched by itself; only updates are told apart. -/
def Counts.refetched (c : Counts) : Outcome → Counts
  | .updated => { c with updated := c.updated + 1 }
  | _ => { c with unchanged := c.unchanged + 1 }

/-- `(added, updated, unchanged, error_message)`. -/
structure Report where
  counts : Counts
  error : Option Text
  deriving DecidableEq

section Sync
variable (C : Columns)

/-- `{field: _store_value(field, getattr(snap, field))}`. -/
def storeValues (snap : MrSnapshot) : Except Raised Fields := do
  let updatedAt ← match snap.updatedAt with
    | none => .ok none
    | some time => time.astimezone.map fun utc => some utc.clock.toNat
  .ok
    { title := snap.title
      author := snap.author
      sourceBranch := snap.sourceBranch
      targetBranch := snap.targetBranch
      sha := snap.sha
      webUrl := snap.webUrl
      state := snap.state
      updatedAt }

/-- The flush of the settings row and of the cache. -/
def checkRows (branch : Option Text) (rows : List CachedMr) : Except Raised Unit :=
  if C.branch branch = true ∧ rows.all (fun row => (C.store row).isSome) = true then .ok () else .error .databaseError

def findRow (project : Text) (iid : ℤ) (rows : List CachedMr) : Option CachedMr :=
  rows.find? fun row => row.project = project ∧ row.iid = iid

/-- Attributes of the object with this key are set. -/
def setRow (id : ℕ) (set : CachedMr → CachedMr) (rows : List CachedMr) : List CachedMr :=
  rows.map fun row => if row.id = id then set row else row

variable (branch : Option Text) (project : Text) (now : Timestamp)

/-- Upsert one snapshot onto the (project, iid) cache row. -/
def upsertSnapshot (snap : MrSnapshot) (s : UnitOfWork CachedMr) : Except Raised (Outcome × UnitOfWork CachedMr) := do
  let values ← storeValues snap
  let (existing, s) ← s.select (checkRows C branch) (findRow project snap.iid)
  match existing with
  | none =>
      .ok (.added, s.change fun rows =>
        rows ++ [⟨World.nextKey (rows.map (·.id)), project, snap.iid, values, some now⟩])
  | some existing =>
      let changed := decide (existing.fields ≠ values)
      .ok (if changed then .updated else .unchanged, s.change (setRow existing.id fun row =>
        { row with fields := if changed then values else row.fields, lastSeenAt := some now }))

def upsertListed : List MrSnapshot → Counts × UnitOfWork CachedMr → Except Raised (Counts × UnitOfWork CachedMr)
  | [], state => .ok state
  | snap :: rest, (counts, s) => do
      let (outcome, s) ← upsertSnapshot C branch project now snap s
      upsertListed rest (counts.listed outcome, s)

variable (client : Client) (seen : List ℤ)

/-- The rows still marked opened that were not in the listing. -/
def refetchStale : List CachedMr → Counts × UnitOfWork CachedMr → Except Raised (Counts × UnitOfWork CachedMr)
  | [], state => .ok state
  | mr :: rest, (counts, s) =>
      if mr.iid ∈ seen then refetchStale rest (counts, s)
      else match client.mergeRequest mr.iid with
        | .error e => if e.caught.isSome then refetchStale rest (counts, s) else .error e
        | .ok snap => do
            let (outcome, s) ← upsertSnapshot C branch project now snap s
            refetchStale rest (counts.refetched outcome, s)

/-- `state == "opened"` of a row of the project, as the database compares it. -/
def openedIn (row : CachedMr) : Bool :=
  row.project == project && (C.store row).any fun stored => stored.state == "opened".toList

/-- Both loops and the commit, from the listed snapshots on. -/
def syncSnapshots (snapshots : List MrSnapshot) (rows : List MergeRequest) :
    Except Raised (Counts × List MergeRequest) := do
  let (counts, s) ← upsertListed C branch project now snapshots (⟨0, 0, 0⟩, .begin (rows.map CachedMr.load))
  let (stale, s) ← s.select (checkRows C branch) fun rows => rows.filter (openedIn C project)
  let (counts, s) ← refetchStale C branch project now client (snapshots.map (·.iid)) stale (counts, s)
  let rows ← s.commit (checkRows C branch)
  .ok (counts, rows.filterMap C.store)

def notConfigured : Text :=
  "GitLab is not configured yet — set the URL, project and token in Settings.".toList

/-- Fetch open MRs and upsert merge_request rows; a session that raises stores nothing. -/
def syncOpenMrs (settings : SettingsRow) (rows : List MergeRequest) :
    Except Raised Report × SettingsRow × List MergeRequest :=
  if configured settings = false then (.ok ⟨⟨0, 0, 0⟩, some notConfigured⟩, settings, rows)
  else match client.listing with
    | .error e => match e.caught with
        | some message => (.ok ⟨⟨0, 0, 0⟩, some message⟩, settings, rows)
        | none => (.error e, settings, rows)
    | .ok snapshots =>
        let branch : Except Raised (Option Text) := match client.defaultBranch with
          | .ok branch => .ok branch
          | .error e => if e.caught.isSome then .ok settings.gitlabDefaultBranch else .error e
        match branch with
        | .error e => (.error e, settings, rows)
        | .ok branch => match syncSnapshots C branch settings.gitlabProject now client snapshots rows with
            | .error e => (.error e, settings, rows)
            | .ok (counts, stored) => (.ok ⟨counts, none⟩, { settings with gitlabDefaultBranch := branch }, stored)

variable {C client}

theorem syncOpenMrs_raises {settings : SettingsRow} (rows : List MergeRequest) {e : Raised} (hconf : configured settings = true)
    (hlisting : client.listing = .error e) (he : e.caught = none) :
    syncOpenMrs C now client settings rows = (.error e, settings, rows) := by
  unfold syncOpenMrs
  rw [if_neg (by rw [hconf]; decide), hlisting]
  dsimp only
  rw [he]

theorem syncOpenMrs_reports {settings : SettingsRow} (rows : List MergeRequest) {e : Raised} {message : Text}
    (hconf : configured settings = true) (hlisting : client.listing = .error e) (he : e.caught = some message) :
    syncOpenMrs C now client settings rows = (.ok ⟨⟨0, 0, 0⟩, some message⟩, settings, rows) := by
  unfold syncOpenMrs
  rw [if_neg (by rw [hconf]; decide), hlisting]
  dsimp only
  rw [he]

theorem syncOpenMrs_of_branch (rows : List MergeRequest) {settings : SettingsRow} {snaps : List MrSnapshot} {branch : Option Text}
    (hconf : configured settings = true) (hlisting : client.listing = .ok snaps)
    (hlookup : client.defaultBranch = .ok branch ∨
      branch = settings.gitlabDefaultBranch ∧ ∃ e, client.defaultBranch = .error e ∧ e.caught.isSome = true) :
    (∀ counts stored, syncSnapshots C branch settings.gitlabProject now client snaps rows = .ok (counts, stored) →
      syncOpenMrs C now client settings rows =
        (.ok ⟨counts, none⟩, { settings with gitlabDefaultBranch := branch }, stored)) ∧
    ∀ e, syncSnapshots C branch settings.gitlabProject now client snaps rows = .error e →
      syncOpenMrs C now client settings rows = (.error e, settings, rows) := by
  unfold syncOpenMrs
  rw [if_neg (by rw [hconf]; decide), hlisting]
  dsimp only
  rcases hlookup with hok | ⟨rfl, e, herror, hcaught⟩
  · rw [hok]
    dsimp only
    exact ⟨fun counts stored hrun => by rw [hrun], fun e hrun => by rw [hrun]⟩
  · rw [herror]
    dsimp only
    rw [if_pos hcaught]
    dsimp only
    exact ⟨fun counts stored hrun => by rw [hrun], fun e hrun => by rw [hrun]⟩

end Sync

/-- The client of a sync as the server answers it; none where the listing takes more than `fuel` calls. -/
def httpClient (L : Stdlib) (settings : SettingsRow) (server : Server) (fuel : ℕ) : Option Client :=
  (listOpenMergeRequests L settings server fuel).map fun listing =>
    { listing
      defaultBranch := getProjectDefaultBranch L settings server
      mergeRequest := getMergeRequest L settings server }

end GitlabReviewer.Gitlab
