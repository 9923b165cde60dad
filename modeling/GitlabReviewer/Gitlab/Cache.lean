import GitlabReviewer.Gitlab.Sync
import GitlabReviewer.Models.Commits

/-! # What a sync makes of the cache

The merge requests upstream are a function of their iid. While the two loops run,
a row whose iid has been dealt with stands as upstream has it, every other row as
it was, and what is new carries an iid that has been dealt with.
-/
namespace GitlabReviewer.Gitlab
open Python Foundation Models Settings Scheduling

/-- A merge request as GitLab has it; its time can be told in UTC. -/
structure Upstream where
  title : Text
  author : Text
  sourceBranch : Text
  targetBranch : Text
  sha : Text
  webUrl : Text
  state : Text
  updatedAt : Option Aware
  datable : ∀ time ∈ updatedAt, 0 ≤ time.clock - time.offset ∧ time.clock - time.offset < clockEnd

namespace Upstream

instance : Inhabited Upstream := ⟨⟨[], [], [], [], [], [], [], none, by simp⟩⟩

/-- The time as naive UTC. -/
def naive (mr : Upstream) : Option Timestamp := mr.updatedAt.map fun time => (time.clock - time.offset).toNat

def snapshot (mr : Upstream) (iid : ℤ) : MrSnapshot where
  iid
  title := .str mr.title
  author := .str mr.author
  sourceBranch := .str mr.sourceBranch
  targetBranch := .str mr.targetBranch
  sha := .str mr.sha
  webUrl := .str mr.webUrl
  state := .str mr.state
  updatedAt := mr.updatedAt

def row (mr : Upstream) (id : ℕ) (project : Text) (iid : ℤ) (lastSeenAt : Option Timestamp) : MergeRequest where
  id
  project
  iid
  title := mr.title
  author := mr.author
  sourceBranch := mr.sourceBranch
  targetBranch := mr.targetBranch
  sha := mr.sha
  webUrl := mr.webUrl
  state := mr.state
  updatedAt := mr.naive
  lastSeenAt

def fields (mr : Upstream) : Fields := (CachedMr.load (mr.row 0 [] 0 none)).fields

theorem storeValues_snapshot (mr : Upstream) (iid : ℤ) : storeValues (mr.snapshot iid) = .ok mr.fields := by
  unfold storeValues snapshot fields row naive
  dsimp only
  cases htime : mr.updatedAt with
  | none => rfl
  | some time =>
    have hvalid := mr.datable time htime
    have hutc : time.astimezone = .ok ⟨time.clock - time.offset, 0⟩ := if_pos hvalid
    dsimp only
    rw [hutc]
    rfl

end Upstream

/-- The columns hold these rows as they are. -/
def Kept (C : Columns) (rows : List MergeRequest) : Prop := ∀ row ∈ rows, C.store (CachedMr.load row) = some row

/-- The table as its constraints keep it. -/
structure Cache (C : Columns) (rows : List MergeRequest) : Prop where
  ids : (rows.map (·.id)).Nodup
  keys : (rows.map fun row => (row.project, row.iid)).Nodup
  kept : Kept C rows

section Upsert
variable {C : Columns} {branch : Option Text} {project : Text} {now : Timestamp} {F : ℤ → Upstream}
  {rows₀ rows : List MergeRequest} {done : List ℤ}

/-- The columns can hold what upstream has under this iid. -/
def Fits (C : Columns) (project : Text) (F : ℤ → Upstream) (iid : ℤ) : Prop :=
  ∀ id lastSeenAt, C.store (CachedMr.load ((F iid).row id project iid lastSeenAt)) =
    some ((F iid).row id project iid lastSeenAt)

/-- The row as upstream has it, if it has been dealt with. -/
def refresh (project : Text) (now : Timestamp) (F : ℤ → Upstream) (done : List ℤ) (row : MergeRequest) : MergeRequest :=
  if row.project = project ∧ row.iid ∈ done then (F row.iid).row row.id row.project row.iid (some now) else row

structure Synced (C : Columns) (project : Text) (now : Timestamp) (F : ℤ → Upstream) (rows₀ : List MergeRequest)
    (done : List ℤ) (rows : List MergeRequest) : Prop where
  cache : Cache C rows
  shape : ∃ news, rows = rows₀.map (refresh project now F done) ++ news ∧
    ∀ row ∈ news, row.project = project ∧ row.iid ∈ done ∧ ∃ id, row = (F row.iid).row id project row.iid (some now)
  found : ∀ iid ∈ done, ∃ row ∈ rows, row.project = project ∧ row.iid = iid

@[simp] theorem refresh_id (row : MergeRequest) : (refresh project now F done row).id = row.id := by
  unfold refresh
  split <;> rfl
@[simp] theorem refresh_project (row : MergeRequest) : (refresh project now F done row).project = row.project := by
  unfold refresh
  split <;> rfl
@[simp] theorem refresh_iid (row : MergeRequest) : (refresh project now F done row).iid = row.iid := by
  unfold refresh
  split <;> rfl

variable (done) in
theorem refresh_other {row : MergeRequest} (h : ¬ (row.project = project ∧ row.iid ∈ done)) :
    refresh project now F done row = row := if_neg h

variable (project now F) in
theorem synced_nil (h : Cache C rows) : Synced C project now F rows [] rows := by
  refine ⟨h, ⟨[], ?_, by simp⟩, by simp⟩
  have hnone : ∀ row ∈ rows, refresh project now F [] row = row := fun row _ => refresh_other [] (by simp)
  rw [List.map_congr_left hnone]
  simp

theorem checkRows_kept (hbranch : C.branch branch = true) (h : Kept C rows) :
    checkRows C branch (rows.map CachedMr.load) = .ok () := by
  have hall : (rows.map CachedMr.load).all (fun row => (C.store row).isSome) = true := by
    rw [List.all_map, List.all_eq_true]
    intro row hrow
    dsimp only [Function.comp_apply]
    rw [h row hrow]
    rfl
  unfold checkRows
  rw [if_pos ⟨hbranch, hall⟩]

theorem findRow_load (project : Text) (iid : ℤ) (rows : List MergeRequest) :
    findRow project iid (rows.map CachedMr.load) =
      (rows.find? fun row => row.project = project ∧ row.iid = iid).map CachedMr.load := by
  unfold findRow
  rw [List.find?_map]
  rfl

/-- The rows after one merge request has been put into them. -/
def upserted (project : Text) (now : Timestamp) (F : ℤ → Upstream) (iid : ℤ) (rows : List MergeRequest) :
    List MergeRequest :=
  match rows.find? fun row => row.project = project ∧ row.iid = iid with
  | none => rows ++ [(F iid).row (World.nextKey (rows.map (·.id))) project iid (some now)]
  | some _ => rows.map (refresh project now F [iid])

/-- Setting the columns of the row found is refreshing it. -/
theorem setRow_load (h : Cache C rows) {found : MergeRequest}
    (hfind : rows.find? (fun row => row.project = project ∧ row.iid = iid) = some found) {changed : Bool}
    (hchanged : changed = decide ((CachedMr.load found).fields ≠ (F iid).fields)) :
    setRow (CachedMr.load found).id (fun row =>
        { row with fields := if changed then (F iid).fields else row.fields, lastSeenAt := some now })
      (rows.map CachedMr.load) = (rows.map (refresh project now F [iid])).map CachedMr.load := by
  have hkey : found.project = project ∧ found.iid = iid := by simpa using List.find?_some hfind
  unfold setRow
  rw [List.map_map, List.map_map]
  apply List.map_congr_left
  intro row hrow
  dsimp only [Function.comp_apply]
  by_cases hid : row.id = found.id
  · obtain rfl := List.inj_on_of_nodup_map h.ids hrow (List.mem_of_find?_eq_some hfind) hid
    have hrefresh : refresh project now F [iid] row = (F row.iid).row row.id row.project row.iid (some now) :=
      if_pos ⟨hkey.1, by simp [hkey.2]⟩
    rw [if_pos rfl, hrefresh, hkey.2]
    by_cases hsame : (CachedMr.load row).fields = (F iid).fields
    · have hno : changed = false := by simpa [hchanged] using hsame
      rw [hno, if_neg (by simp), hsame, ← hkey.2]
      rfl
    · have hyes : changed = true := by simpa [hchanged] using hsame
      rw [hyes, if_pos rfl, ← hkey.2]
      rfl
  · rw [if_neg (show (CachedMr.load row).id ≠ (CachedMr.load found).id from hid), refresh_other]
    rintro ⟨hproject, hiid⟩
    have hsame : (row.project, row.iid) = (found.project, found.iid) := by
      rw [hproject, List.mem_singleton.mp hiid, hkey.1, hkey.2]
    exact hid (congrArg _ (List.inj_on_of_nodup_map h.keys hrow (List.mem_of_find?_eq_some hfind) hsame))

variable (project now F) in
theorem upsertSnapshot_eq (hbranch : C.branch branch = true) (h : Cache C rows) {s : UnitOfWork CachedMr}
    (hview : s.pending s.rows = rows.map CachedMr.load) (iid : ℤ) :
    ∃ outcome s', upsertSnapshot C branch project now ((F iid).snapshot iid) s = .ok (outcome, s') ∧
      s'.pending s'.rows = (upserted project now F iid rows).map CachedMr.load ∧
      ∀ row ∈ rows, row.project = project → row.iid = iid → (CachedMr.load row).fields = (F iid).fields →
        outcome = .unchanged := by
  have hcheck : checkRows C branch (s.pending s.rows) = .ok () := by
    rw [hview]
    exact checkRows_kept hbranch h.kept
  have hfound : ((F iid).snapshot iid).iid = iid := rfl
  unfold upsertSnapshot upserted
  rw [Upstream.storeValues_snapshot, hfound]
  dsimp only [bind, Except.bind]
  rw [UnitOfWork.select_ok hcheck, hview, findRow_load]
  cases hfind : rows.find? fun row => row.project = project ∧ row.iid = iid with
  | none =>
    have hids : (rows.map CachedMr.load).map (·.id) = rows.map (·.id) := by
      rw [List.map_map]
      rfl
    refine ⟨_, _, rfl, ?_, ?_⟩
    · rw [UnitOfWork.change_view, List.map_append]
      dsimp only [id]
      rw [hids]
      rfl
    · intro row hrow hproject hiid
      have hno : ¬ (row.project = project ∧ row.iid = iid) := by simpa using List.find?_eq_none.mp hfind row hrow
      exact absurd (And.intro hproject hiid) hno
  | some found =>
    have hkey : found.project = project ∧ found.iid = iid := by simpa using List.find?_some hfind
    refine ⟨_, _, rfl, ?_, ?_⟩
    · rw [UnitOfWork.change_view]
      exact setRow_load h hfind rfl
    · intro row hrow hproject hiid hsame
      have hrowkey : (row.project, row.iid) = (found.project, found.iid) := by rw [hproject, hiid, hkey.1, hkey.2]
      obtain rfl := List.inj_on_of_nodup_map h.keys hrow (List.mem_of_find?_eq_some hfind) hrowkey
      rw [if_neg (by simpa using hsame)]

theorem refresh_refresh (iid : ℤ) (row : MergeRequest) :
    refresh project now F [iid] (refresh project now F done row) = refresh project now F (done ++ [iid]) row := by
  by_cases hproject : row.project = project
  · by_cases hdone : row.iid ∈ done
    · have hold : refresh project now F done row = (F row.iid).row row.id row.project row.iid (some now) :=
        if_pos ⟨hproject, hdone⟩
      have hnew : refresh project now F (done ++ [iid]) row = (F row.iid).row row.id row.project row.iid (some now) :=
        if_pos ⟨hproject, List.mem_append_left _ hdone⟩
      rw [hold, hnew]
      unfold refresh
      split <;> rfl
    · rw [refresh_other done fun h => hdone h.2]
      by_cases hiid : row.iid = iid
      · rw [refresh, refresh, if_pos ⟨hproject, by simp [hiid]⟩, if_pos ⟨hproject, by simp [hiid]⟩]
      · rw [refresh_other [iid] (by simp [hiid]), refresh_other (done ++ [iid]) (by simp [hdone, hiid])]
  · rw [refresh_other done fun h => hproject h.1, refresh_other [iid] fun h => hproject h.1,
      refresh_other (done ++ [iid]) fun h => hproject h.1]

theorem Cache.append (h : Cache C rows) {row : MergeRequest} (hid : row.id = World.nextKey (rows.map (·.id)))
    (hkey : ∀ other ∈ rows, ¬ (other.project = row.project ∧ other.iid = row.iid))
    (hrow : C.store (CachedMr.load row) = some row) : Cache C (rows ++ [row]) := by
  constructor
  · rw [List.map_append, List.map_singleton, hid]
    exact nodup_append_nextKey h.ids
  · rw [List.map_append]
    refine h.keys.append (List.nodup_singleton _) ?_
    intro key hold hnew
    obtain ⟨other, hother, rfl⟩ := List.mem_map.mp hold
    obtain ⟨hproject, hiid⟩ := Prod.mk.inj (List.mem_singleton.mp hnew)
    exact hkey other hother ⟨hproject, hiid⟩
  · intro other hother
    rcases List.mem_append.mp hother with hother | hother
    · exact h.kept other hother
    · obtain rfl := List.mem_singleton.mp hother
      exact hrow

theorem Cache.refreshed (h : Cache C rows) {iid : ℤ} (hfits : Fits C project F iid) :
    Cache C (rows.map (refresh project now F [iid])) := by
  constructor
  · simpa [Function.comp_def] using h.ids
  · simpa [Function.comp_def] using h.keys
  · intro row hrow
    obtain ⟨old, hold, rfl⟩ := List.mem_map.mp hrow
    unfold refresh
    split
    · rename_i hcond
      rw [hcond.1, List.mem_singleton.mp hcond.2]
      exact hfits _ _
    · exact h.kept old hold

/-- Rows found or made so far, with a row for one more. -/
theorem found_concat {view view' : List MergeRequest} {iid : ℤ}
    (h : ∀ other ∈ done, ∃ row ∈ view, row.project = project ∧ row.iid = other)
    (hkept : ∀ row ∈ view, ∃ row' ∈ view', row'.project = row.project ∧ row'.iid = row.iid)
    (hnew : ∃ row ∈ view', row.project = project ∧ row.iid = iid) :
    ∀ other ∈ done ++ [iid], ∃ row ∈ view', row.project = project ∧ row.iid = other := by
  intro other hother
  rcases List.mem_append.mp hother with hother | hother
  · obtain ⟨row, hrow, rfl, rfl⟩ := h other hother
    exact hkept row hrow
  · obtain rfl := List.mem_singleton.mp hother
    exact hnew

theorem Synced.added (h : Synced C project now F rows₀ done rows) {iid : ℤ} (hfits : Fits C project F iid)
    (hnone : ∀ row ∈ rows, ¬ (row.project = project ∧ row.iid = iid)) :
    Synced C project now F rows₀ (done ++ [iid])
      (rows ++ [(F iid).row (World.nextKey (rows.map (·.id))) project iid (some now)]) := by
  obtain ⟨news, hshape, hnews⟩ := h.shape
  refine ⟨h.cache.append rfl hnone (hfits _ _),
    ⟨news ++ [(F iid).row (World.nextKey (rows.map (·.id))) project iid (some now)], ?_, ?_⟩, ?_⟩
  · rw [hshape, List.append_assoc]
    congr 1
    apply List.map_congr_left
    intro row hrow
    have hother := hnone (refresh project now F done row) (hshape ▸ List.mem_append_left _ (List.mem_map_of_mem hrow))
    rw [refresh_project, refresh_iid] at hother
    rw [← refresh_refresh, refresh_other [iid]]
    rw [refresh_project, refresh_iid, List.mem_singleton]
    exact hother
  · intro row hrow
    rcases List.mem_append.mp hrow with hrow | hrow
    · obtain ⟨hproject, hdone, hrow'⟩ := hnews row hrow
      exact ⟨hproject, List.mem_append_left _ hdone, hrow'⟩
    · obtain rfl := List.mem_singleton.mp hrow
      exact ⟨rfl, List.mem_append_right _ (List.mem_singleton_self _), _, rfl⟩
  · apply found_concat h.found
    · intro row hrow
      exact ⟨row, List.mem_append_left _ hrow, rfl, rfl⟩
    · exact ⟨_, List.mem_append_right _ (List.mem_singleton_self _), rfl, rfl⟩

theorem Synced.refreshed (h : Synced C project now F rows₀ done rows) {iid : ℤ} (hfits : Fits C project F iid)
    (hfound : ∃ row ∈ rows, row.project = project ∧ row.iid = iid) :
    Synced C project now F rows₀ (done ++ [iid]) (rows.map (refresh project now F [iid])) := by
  obtain ⟨news, hshape, hnews⟩ := h.shape
  have hkept : ∀ row ∈ rows, ∃ row' ∈ rows.map (refresh project now F [iid]),
      row'.project = row.project ∧ row'.iid = row.iid :=
    fun row hrow => ⟨_, List.mem_map_of_mem hrow, refresh_project row, refresh_iid row⟩
  refine ⟨h.cache.refreshed hfits, ⟨news.map (refresh project now F [iid]), ?_, ?_⟩, ?_⟩
  · rw [hshape, List.map_append, List.map_map]
    congr 1
    exact List.map_congr_left fun row _ => refresh_refresh iid row
  · intro row hrow
    obtain ⟨old, hold, rfl⟩ := List.mem_map.mp hrow
    obtain ⟨hproject, hdone, id, hrow'⟩ := hnews old hold
    rw [refresh_project, refresh_iid]
    refine ⟨hproject, List.mem_append_left _ hdone, ?_⟩
    unfold refresh
    split
    · exact ⟨old.id, by rw [hproject]⟩
    · exact ⟨id, hrow'⟩
  · obtain ⟨found, hmem, rfl, rfl⟩ := hfound
    exact found_concat h.found hkept (hkept found hmem)

/-- Dealing with one more merge request. -/
theorem Synced.upserted (h : Synced C project now F rows₀ done rows) {iid : ℤ} (hfits : Fits C project F iid) :
    Synced C project now F rows₀ (done ++ [iid]) (upserted project now F iid rows) := by
  unfold Gitlab.upserted
  cases hfind : rows.find? fun row => row.project = project ∧ row.iid = iid with
  | none => exact h.added hfits fun row hrow => by simpa using List.find?_eq_none.mp hfind row hrow
  | some found =>
    exact h.refreshed hfits ⟨found, List.mem_of_find?_eq_some hfind, by simpa using List.find?_some hfind⟩

end Upsert

section Loops
variable {C : Columns} {branch : Option Text} {project : Text} {now : Timestamp} {F : ℤ → Upstream}
  {rows₀ rows : List MergeRequest} {done : List ℤ}

theorem Counts.total_listed (c : Counts) (outcome : Outcome) : (c.listed outcome).total = c.total + 1 := by
  unfold Counts.total Counts.listed
  cases outcome <;> dsimp only <;> omega

theorem Counts.total_refetched (c : Counts) (outcome : Outcome) : (c.refetched outcome).total = c.total + 1 := by
  unfold Counts.total Counts.refetched
  cases outcome <;> dsimp only <;> omega

/-- A row as upstream has it. -/
def Current (project : Text) (F : ℤ → Upstream) (rows : List MergeRequest) (iid : ℤ) : Prop :=
  ∃ row ∈ rows, row.project = project ∧ row.iid = iid ∧ (CachedMr.load row).fields = (F iid).fields

theorem Synced.current (h : Synced C project now F rows₀ done rows) {iid : ℤ} (hcurrent : Current project F rows₀ iid) :
    Current project F rows iid := by
  obtain ⟨row, hrow, hproject, rfl, hsame⟩ := hcurrent
  obtain ⟨news, hshape, -⟩ := h.shape
  refine ⟨refresh project now F done row, hshape ▸ List.mem_append_left _ (List.mem_map_of_mem hrow), ?_, ?_, ?_⟩
  · rw [refresh_project, hproject]
  · rw [refresh_iid]
  · unfold refresh
    split
    · rfl
    · exact hsame

theorem upsertListed_synced (hbranch : C.branch branch = true) {snaps : List MrSnapshot}
    (hsnaps : ∀ snap ∈ snaps, snap = (F snap.iid).snapshot snap.iid ∧ Fits C project F snap.iid)
    (h : Synced C project now F rows₀ done rows) {s : UnitOfWork CachedMr}
    (hview : s.pending s.rows = rows.map CachedMr.load) (counts : Counts) :
    ∃ counts' s' rows', upsertListed C branch project now snaps (counts, s) = .ok (counts', s') ∧
      s'.pending s'.rows = rows'.map CachedMr.load ∧
      Synced C project now F rows₀ (done ++ snaps.map (·.iid)) rows' ∧ counts'.total = counts.total + snaps.length ∧
      ((∀ snap ∈ snaps, Current project F rows₀ snap.iid) →
        counts'.added = counts.added ∧ counts'.updated = counts.updated) := by
  induction snaps generalizing done rows s counts with
  | nil => exact ⟨counts, s, rows, rfl, hview, by simpa using h, rfl, fun _ => ⟨rfl, rfl⟩⟩
  | cons snap rest ih =>
    obtain ⟨hsnap, hfits⟩ := hsnaps snap List.mem_cons_self
    obtain ⟨outcome, s₁, hupsert, hview₁, hunchanged⟩ :=
      upsertSnapshot_eq project now F hbranch h.cache hview snap.iid
    rw [← hsnap] at hupsert
    obtain ⟨counts', s', rows', hrun, hview', hsynced, htotal, hkept⟩ :=
      ih (fun other hother => hsnaps other (List.mem_cons_of_mem _ hother)) (h.upserted hfits) hview₁ (counts.listed outcome)
    refine ⟨counts', s', rows', ?_, hview', ?_, ?_, ?_⟩
    · rw [upsertListed, hupsert]
      exact hrun
    · rw [List.append_assoc] at hsynced
      exact hsynced
    · rw [htotal, Counts.total_listed, List.length_cons]
      omega
    · intro hcurrent
      obtain ⟨row, hrow, hproject, hiid, hsame⟩ := h.current (hcurrent snap List.mem_cons_self)
      obtain rfl := hunchanged row hrow hproject hiid hsame
      exact hkept fun other hother => hcurrent other (List.mem_cons_of_mem _ hother)

/-- The refetch of this row is made and succeeds. -/
def fetched (client : Client) (seen : List ℤ) (row : MergeRequest) : Bool :=
  decide (row.iid ∉ seen) && (client.mergeRequest row.iid).isOk

/-- Upstream answers a refetch with its merge request, or with an error the sync expects. -/
def Fetches (C : Columns) (project : Text) (F : ℤ → Upstream) (client : Client) (iid : ℤ) : Prop :=
  (client.mergeRequest iid = .ok ((F iid).snapshot iid) ∧ Fits C project F iid) ∨
    ∃ e, client.mergeRequest iid = .error e ∧ e.caught.isSome = true

theorem refetchStale_synced (hbranch : C.branch branch = true) {client : Client} {seen : List ℤ} {stale : List MergeRequest}
    (hclient : ∀ row ∈ stale, row.iid ∉ seen → Fetches C project F client row.iid)
    (h : Synced C project now F rows₀ done rows) {s : UnitOfWork CachedMr}
    (hview : s.pending s.rows = rows.map CachedMr.load) (counts : Counts) :
    ∃ counts' s' rows',
      refetchStale C branch project now client seen (stale.map CachedMr.load) (counts, s) = .ok (counts', s') ∧
      s'.pending s'.rows = rows'.map CachedMr.load ∧
      Synced C project now F rows₀ (done ++ (stale.filter (fetched client seen)).map (·.iid)) rows' ∧
      counts'.total = counts.total + (stale.filter (fetched client seen)).length ∧
      (stale.filter (fetched client seen) = [] → counts' = counts) := by
  induction stale generalizing done rows s counts with
  | nil => exact ⟨counts, s, rows, rfl, hview, by simpa using h, rfl, fun _ => rfl⟩
  | cons mr rest ih =>
    have hrest := fun row hrow => hclient row (List.mem_cons_of_mem mr hrow)
    have hiid : (CachedMr.load mr).iid = mr.iid := rfl
    rw [List.map_cons, refetchStale, hiid]
    by_cases hseen : mr.iid ∈ seen
    · have hskip : fetched client seen mr = false := by simp [fetched, hseen]
      rw [if_pos hseen, List.filter_cons_of_neg (by simp [hskip])]
      exact ih hrest h hview counts
    · rw [if_neg hseen]
      rcases hclient mr List.mem_cons_self hseen with ⟨hok, hfits⟩ | ⟨e, herror, hcaught⟩
      · have hfetched : fetched client seen mr = true := by simp [fetched, hseen, hok, Except.isOk, Except.toBool]
        obtain ⟨outcome, s₁, hupsert, hview₁, -⟩ :=
          upsertSnapshot_eq project now F hbranch h.cache hview mr.iid
        obtain ⟨counts', s', rows', hrun, hview', hsynced, htotal, -⟩ :=
          ih hrest (h.upserted hfits) hview₁ (counts.refetched outcome)
        rw [List.filter_cons_of_pos hfetched, hok]
        refine ⟨counts', s', rows', ?_, hview', ?_, ?_, by simp⟩
        · dsimp only
          rw [hupsert]
          exact hrun
        · rw [List.append_assoc] at hsynced
          exact hsynced
        · rw [htotal, Counts.total_refetched, List.length_cons]
          omega
      · have hfailed : fetched client seen mr = false := by simp [fetched, herror, Except.isOk, Except.toBool]
        rw [List.filter_cons_of_neg (by simp [hfailed]), herror]
        dsimp only
        rw [if_pos hcaught]
        exact ih hrest h hview counts

def openedText : Text := "opened".toList

/-- A row of the project that is cached as opened. -/
def cachedOpened (project : Text) (row : MergeRequest) : Bool := row.project == project && row.state == openedText

variable (project) in
theorem openedIn_load (h : Kept C rows) : (rows.map CachedMr.load).filter (openedIn C project) =
    (rows.filter (cachedOpened project)).map CachedMr.load := by
  rw [List.filter_map]
  congr 1
  apply List.filter_congr
  intro row hrow
  dsimp only [Function.comp_apply]
  unfold openedIn cachedOpened
  rw [h row hrow]
  rfl

/-- The loops have not touched the rows that are fetched by themselves. -/
theorem Synced.stale (h : Synced C project now F rows₀ done rows) (client : Client) :
    (rows.filter (cachedOpened project)).filter (fetched client done) =
      (rows₀.filter (cachedOpened project)).filter (fetched client done) := by
  obtain ⟨news, hshape, hnews⟩ := h.shape
  rw [List.filter_filter, List.filter_filter, hshape, List.filter_append, List.filter_map]
  have hnone : news.filter (fun row => fetched client done row && cachedOpened project row) = [] := by
    rw [List.filter_eq_nil_iff]
    intro row hrow
    have hdone := (hnews row hrow).2.1
    simp [fetched, hdone]
  have hsame : rows₀.filter ((fun row => fetched client done row && cachedOpened project row) ∘ refresh project now F done) =
      rows₀.filter fun row => fetched client done row && cachedOpened project row := by
    apply List.filter_congr
    intro row _
    dsimp only [Function.comp_apply]
    by_cases hdone : row.iid ∈ done
    · simp [fetched, hdone]
    · rw [refresh_other _ fun hcond => hdone hcond.2]
  rw [hnone, List.append_nil, hsame]
  have hid : ∀ row ∈ rows₀.filter (fun row => fetched client done row && cachedOpened project row),
      refresh project now F done row = id row := by
    intro row hrow
    apply refresh_other
    rintro ⟨-, hdone⟩
    have hcond := (List.mem_filter.mp hrow).2
    simp [fetched, hdone] at hcond
  rw [List.map_congr_left hid, List.map_id]

theorem filterMap_kept (h : Kept C rows) : (rows.map CachedMr.load).filterMap C.store = rows := by
  rw [List.filterMap_map]
  have hsome : ∀ row ∈ rows, (C.store ∘ CachedMr.load) row = some row := h
  rw [List.filterMap_congr hsome, List.filterMap_some]

/-- The rows a sync fetches by themselves with success. -/
def refetched (project : Text) (client : Client) (seen : List ℤ) (rows : List MergeRequest) : List MergeRequest :=
  (rows.filter (cachedOpened project)).filter (fetched client seen)

variable (now) in
theorem syncSnapshots_synced (hbranch : C.branch branch = true) (hcache : Cache C rows₀) {snaps : List MrSnapshot}
    (hsnaps : ∀ snap ∈ snaps, snap = (F snap.iid).snapshot snap.iid ∧ Fits C project F snap.iid) {client : Client}
    (hclient : ∀ row ∈ rows₀, row.iid ∉ snaps.map (·.iid) → Fetches C project F client row.iid) :
    ∃ counts rows', syncSnapshots C branch project now client snaps rows₀ = .ok (counts, rows') ∧
      Synced C project now F rows₀ (snaps.map (·.iid) ++ (refetched project client (snaps.map (·.iid)) rows₀).map (·.iid)) rows' ∧
      counts.total = snaps.length + (refetched project client (snaps.map (·.iid)) rows₀).length ∧
      ((∀ snap ∈ snaps, Current project F rows₀ snap.iid) → refetched project client (snaps.map (·.iid)) rows₀ = [] →
        counts.added = 0 ∧ counts.updated = 0) := by
  obtain ⟨counts₁, s₁, rows₁, hlisted, hview₁, hsynced₁, htotal₁, hcounts₁⟩ :=
    upsertListed_synced hbranch hsnaps (synced_nil project now F hcache)
      (s := .begin (rows₀.map CachedMr.load)) rfl ⟨0, 0, 0⟩
  rw [List.nil_append] at hsynced₁
  have hcheck : checkRows C branch (s₁.pending s₁.rows) = .ok () := by
    rw [hview₁]
    exact checkRows_kept hbranch hsynced₁.cache.kept
  have hclient₁ : ∀ row ∈ rows₁.filter (cachedOpened project), row.iid ∉ snaps.map (·.iid) →
      Fetches C project F client row.iid := by
    intro row hrow hunseen
    obtain ⟨news, hshape, hnews⟩ := hsynced₁.shape
    have hmem := (List.mem_filter.mp hrow).1
    rw [hshape] at hmem
    rcases List.mem_append.mp hmem with hold | hnew
    · obtain ⟨row₀, hrow₀, rfl⟩ := List.mem_map.mp hold
      rw [refresh_iid] at hunseen ⊢
      exact hclient row₀ hrow₀ hunseen
    · exact absurd (hnews row hnew).2.1 hunseen
  obtain ⟨counts₂, s₂, rows₂, hrefetch, hview₂, hsynced₂, htotal₂, hcounts₂⟩ :=
    refetchStale_synced (s := { s₁ with rows := s₁.pending s₁.rows, pending := id }) hbranch hclient₁ hsynced₁ hview₁ counts₁
  have hstale : (rows₁.filter (cachedOpened project)).filter (fetched client (snaps.map (·.iid))) =
      refetched project client (snaps.map (·.iid)) rows₀ := hsynced₁.stale client
  have hcheck₂ : checkRows C branch (s₂.pending s₂.rows) = .ok () := by
    rw [hview₂]
    exact checkRows_kept hbranch hsynced₂.cache.kept
  rw [hstale] at hsynced₂ htotal₂ hcounts₂
  refine ⟨counts₂, rows₂, ?_, hsynced₂, ?_, ?_⟩
  · unfold syncSnapshots
    rw [hlisted]
    dsimp only [bind, Except.bind]
    rw [UnitOfWork.select_ok hcheck]
    dsimp only
    rw [hview₁] at hrefetch ⊢
    rw [openedIn_load project hsynced₁.cache.kept, hrefetch]
    dsimp only
    rw [UnitOfWork.commit_ok hcheck₂, hview₂]
    dsimp only
    rw [filterMap_kept hsynced₂.cache.kept]
  · rw [htotal₂, htotal₁]
    simp [Counts.total]
  · intro hcurrent hnone
    rw [hcounts₂ hnone]
    exact hcounts₁ hcurrent

end Loops

end GitlabReviewer.Gitlab
