import GitlabReviewer.Gitlab.Cache

/-! # The cache after a sync

A sync of a configured project, against an upstream whose open merge requests are
listed in any order and any number of times.
-/
namespace GitlabReviewer.Gitlab
open Python Foundation Models Settings Scheduling

section Faithful
variable (C : Columns) (project : Text) (U : ℤ → Option Upstream)

def Open (iid : ℤ) : Prop := ∃ mr, U iid = some mr ∧ mr.state = openedText

/-- The client's calls, answered from the state upstream. -/
structure Answers (client : Client) (snaps : List MrSnapshot) : Prop where
  listing : client.listing = .ok snaps
  sound : ∀ snap ∈ snaps, ∃ mr, U snap.iid = some mr ∧ mr.state = openedText ∧ snap = mr.snapshot snap.iid
  complete : ∀ iid, Open U iid → iid ∈ snaps.map (·.iid)
  single : ∀ iid, (∃ mr, U iid = some mr ∧ client.mergeRequest iid = .ok (mr.snapshot iid)) ∨
    ∃ message, client.mergeRequest iid = .error (.gitLabError message)
  branch : (∃ branch, client.defaultBranch = .ok branch ∧ C.branch branch = true) ∨
    ∃ e, client.defaultBranch = .error e ∧ e.caught.isSome = true

/-- All synced columns of the row are those of the merge request, its time as naive UTC. -/
def Shows (row : MergeRequest) (mr : Upstream) : Prop := row = mr.row row.id row.project row.iid row.lastSeenAt

/-- The same object, whatever has been set on it. -/
def SameRow (row row' : MergeRequest) : Prop := row'.id = row.id ∧ row'.project = row.project ∧ row'.iid = row.iid

structure Faithful (client : Client) (rows rows' : List MergeRequest) : Prop where
  cache : Cache C rows'
  opened : ∀ iid mr, U iid = some mr → mr.state = openedText →
    ∃ row ∈ rows', row.project = project ∧ row.iid = iid ∧ Shows row mr
  refetched : ∀ row ∈ rows, cachedOpened project row = true → ¬ Open U row.iid →
    (client.mergeRequest row.iid).isOk = true → ∃ mr, U row.iid = some mr ∧ ∃ row' ∈ rows', SameRow row row' ∧ Shows row' mr
  failed : ∀ row ∈ rows, cachedOpened project row = true → ¬ Open U row.iid →
    (client.mergeRequest row.iid).isOk = false → row ∈ rows'
  others : ∀ row ∈ rows, cachedOpened project row = false → ¬ (row.project = project ∧ Open U row.iid) → row ∈ rows'
  kept : ∀ row ∈ rows, ∃ row' ∈ rows', SameRow row row'
  added : ∀ row' ∈ rows', (∃ row ∈ rows, SameRow row row') ∨ row'.project = project ∧ Open U row'.iid

end Faithful

section Upstream
variable {C : Columns} {project : Text} {now : Timestamp} {U : ℤ → Option Upstream} {F : ℤ → Upstream}
  {client : Client} {snaps : List MrSnapshot} {rows rows' : List MergeRequest} {done : List ℤ}

/-- Upstream as a function that is defined everywhere. -/
def totally (U : ℤ → Option Upstream) (iid : ℤ) : Upstream := (U iid).getD default

theorem totally_some {iid : ℤ} {mr : Upstream} (h : U iid = some mr) : totally U iid = mr := by
  unfold totally
  rw [h]
  rfl

theorem Answers.open_iff (h : Answers C U client snaps) (iid : ℤ) : Open U iid ↔ iid ∈ snaps.map (·.iid) := by
  refine ⟨h.complete iid, ?_⟩
  intro hmem
  obtain ⟨snap, hsnap, rfl⟩ := List.mem_map.mp hmem
  obtain ⟨mr, hU, hstate, -⟩ := h.sound snap hsnap
  exact ⟨mr, hU, hstate⟩

/-- What the columns hold of the project's merge requests upstream. -/
def Holds (C : Columns) (project : Text) (U : ℤ → Option Upstream) : Prop :=
  ∀ iid mr, U iid = some mr → ∀ id lastSeenAt,
    C.store (CachedMr.load (mr.row id project iid lastSeenAt)) = some (mr.row id project iid lastSeenAt)

theorem Holds.fits (h : Holds C project U) {iid : ℤ} {mr : Upstream} (hU : U iid = some mr) :
    Fits C project (totally U) iid := by
  intro id lastSeenAt
  rw [totally_some hU]
  exact h iid mr hU id lastSeenAt

theorem Answers.listed (h : Answers C U client snaps) (hholds : Holds C project U) :
    ∀ snap ∈ snaps, snap = (totally U snap.iid).snapshot snap.iid ∧ Fits C project (totally U) snap.iid := by
  intro snap hsnap
  obtain ⟨mr, hU, -, heq⟩ := h.sound snap hsnap
  rw [totally_some hU]
  exact ⟨heq, hholds.fits hU⟩

theorem Answers.fetches (h : Answers C U client snaps) (hholds : Holds C project U) (iid : ℤ) :
    Fetches C project (totally U) client iid := by
  rcases h.single iid with ⟨mr, hU, hok⟩ | ⟨message, herror⟩
  · left
    rw [totally_some hU]
    exact ⟨hok, hholds.fits hU⟩
  · exact .inr ⟨_, herror, rfl⟩

theorem Answers.known (h : Answers C U client snaps) {iid : ℤ} (hok : (client.mergeRequest iid).isOk = true) :
    ∃ mr, U iid = some mr := by
  rcases h.single iid with ⟨mr, hU, -⟩ | ⟨message, herror⟩
  · exact ⟨mr, hU⟩
  · rw [herror] at hok
    cases hok

theorem sameRow_refresh (row : MergeRequest) : SameRow row (refresh project now F done row) :=
  ⟨refresh_id row, refresh_project row, refresh_iid row⟩

theorem Synced.mem_refresh (h : Synced C project now F rows done rows') {row : MergeRequest} (hrow : row ∈ rows) :
    refresh project now F done row ∈ rows' := by
  obtain ⟨news, hshape, -⟩ := h.shape
  exact hshape ▸ List.mem_append_left _ (List.mem_map_of_mem hrow)

/-- A row under an iid that has been dealt with stands as upstream has it. -/
theorem Synced.shows (h : Synced C project now F rows done rows') {row' : MergeRequest} (hrow' : row' ∈ rows')
    (hproject : row'.project = project) (hdone : row'.iid ∈ done) : Shows row' (F row'.iid) := by
  obtain ⟨news, hshape, hnews⟩ := h.shape
  rw [hshape] at hrow'
  rcases List.mem_append.mp hrow' with hold | hnew
  · obtain ⟨row, hrow, rfl⟩ := List.mem_map.mp hold
    rw [refresh_project] at hproject
    rw [refresh_iid] at hdone ⊢
    have hnew : refresh project now F done row = (F row.iid).row row.id row.project row.iid (some now) :=
      if_pos ⟨hproject, hdone⟩
    rw [hnew]
    rfl
  · obtain ⟨-, -, id, heq⟩ := hnews row' hnew
    unfold Shows
    rw [heq]
    rfl

/-- The iids a sync deals with. -/
def synced (project : Text) (client : Client) (snaps : List MrSnapshot) (rows : List MergeRequest) : List ℤ :=
  snaps.map (·.iid) ++ (refetched project client (snaps.map (·.iid)) rows).map (·.iid)

theorem mem_synced_of_refetched {row : MergeRequest} (hrow : row ∈ rows) (hcached : cachedOpened project row = true)
    (hseen : row.iid ∉ snaps.map (·.iid)) (hok : (client.mergeRequest row.iid).isOk = true) :
    row.iid ∈ synced project client snaps rows := by
  refine List.mem_append_right _ (List.mem_map_of_mem (List.mem_filter.mpr ⟨List.mem_filter.mpr ⟨hrow, hcached⟩, ?_⟩))
  simp only [fetched, Bool.and_eq_true, decide_eq_true_eq]
  exact ⟨hseen, hok⟩

/-- An iid outside the listing is dealt with for the sake of a row of the project that is cached as opened. -/
theorem refetched_of_mem_synced {iid : ℤ} (h : iid ∈ synced project client snaps rows) (hseen : iid ∉ snaps.map (·.iid)) :
    ∃ row ∈ rows, row.iid = iid ∧ row.project = project ∧ row.state = openedText ∧
      (client.mergeRequest iid).isOk = true := by
  rcases List.mem_append.mp h with hlisted | hmem
  · exact absurd hlisted hseen
  · obtain ⟨row, hrow, rfl⟩ := List.mem_map.mp hmem
    obtain ⟨hcached, hfetched⟩ := List.mem_filter.mp hrow
    obtain ⟨hrows, hopened⟩ := List.mem_filter.mp hcached
    simp only [fetched, Bool.and_eq_true, decide_eq_true_eq] at hfetched
    simp only [cachedOpened, Bool.and_eq_true, beq_iff_eq] at hopened
    exact ⟨row, hrows, rfl, hopened.1, hopened.2, hfetched.2⟩

theorem Cache.eq_of_key (h : Cache C rows) {a b : MergeRequest} (ha : a ∈ rows) (hb : b ∈ rows)
    (hproject : a.project = b.project) (hiid : a.iid = b.iid) : a = b :=
  List.inj_on_of_nodup_map h.keys ha hb (by rw [hproject, hiid])

theorem faithful_of_synced (hans : Answers C U client snaps) (hcache : Cache C rows)
    (h : Synced C project now (totally U) rows (synced project client snaps rows) rows') :
    Faithful C project U client rows rows' := by
  constructor
  · exact h.cache
  · intro iid mr hU hstate
    have hdone : iid ∈ synced project client snaps rows := List.mem_append_left _ (hans.complete iid ⟨mr, hU, hstate⟩)
    obtain ⟨row, hrow, hproject, rfl⟩ := h.found iid hdone
    have hshows := h.shows hrow hproject hdone
    rw [totally_some hU] at hshows
    exact ⟨row, hrow, hproject, rfl, hshows⟩
  · intro row hrow hcached hclosed hok
    obtain ⟨mr, hU⟩ := hans.known hok
    have hproject : row.project = project := by
      simp only [cachedOpened, Bool.and_eq_true, beq_iff_eq] at hcached
      exact hcached.1
    have hdone := mem_synced_of_refetched hrow hcached (fun hseen => hclosed ((hans.open_iff _).mpr hseen)) hok
    refine ⟨mr, hU, _, h.mem_refresh hrow, sameRow_refresh row, ?_⟩
    have hshows := h.shows (h.mem_refresh hrow) (by rw [refresh_project, hproject]) (by rwa [refresh_iid])
    rw [refresh_iid, totally_some hU] at hshows
    exact hshows
  · intro row hrow hcached hclosed hfailed
    have hmem := h.mem_refresh hrow
    rw [refresh_other] at hmem
    · exact hmem
    · rintro ⟨-, hdone⟩
      obtain ⟨-, -, -, -, -, hok⟩ := refetched_of_mem_synced hdone fun hseen => hclosed ((hans.open_iff _).mpr hseen)
      rw [hfailed] at hok
      cases hok
  · intro row hrow hcached hother
    have hmem := h.mem_refresh hrow
    rw [refresh_other] at hmem
    · exact hmem
    · rintro ⟨hproject, hdone⟩
      have hclosed : ¬ Open U row.iid := fun hopen => hother ⟨hproject, hopen⟩
      obtain ⟨row₀, hrow₀, hiid, hproject₀, hstate, -⟩ :=
        refetched_of_mem_synced hdone fun hseen => hclosed ((hans.open_iff _).mpr hseen)
      obtain rfl := hcache.eq_of_key hrow₀ hrow (hproject₀.trans hproject.symm) hiid
      simp [cachedOpened, hproject, hstate] at hcached
  · intro row hrow
    exact ⟨_, h.mem_refresh hrow, sameRow_refresh row⟩
  · intro row' hrow'
    obtain ⟨news, hshape, hnews⟩ := h.shape
    have hmem := hshape ▸ hrow'
    rcases List.mem_append.mp hmem with hold | hnew
    · obtain ⟨row, hrow, rfl⟩ := List.mem_map.mp hold
      exact .inl ⟨row, hrow, sameRow_refresh row⟩
    · obtain ⟨hproject, hdone, -⟩ := hnews row' hnew
      by_cases hopen : Open U row'.iid
      · exact .inr ⟨hproject, hopen⟩
      · -- its iid was dealt with for a row that is still there
        obtain ⟨row, hrow, hiid, hproject₀, -⟩ :=
          refetched_of_mem_synced hdone fun hseen => hopen ((hans.open_iff _).mpr hseen)
        have hsame := h.cache.eq_of_key hrow' (h.mem_refresh hrow) (by rw [refresh_project, hproject, hproject₀])
          (by rw [refresh_iid, hiid])
        exact .inl ⟨row, hrow, hsame ▸ sameRow_refresh row⟩

theorem Synced.current_of_done (h : Synced C project now F rows done rows') {iid : ℤ} (hdone : iid ∈ done) :
    Current project F rows' iid := by
  obtain ⟨row, hrow, hproject, rfl⟩ := h.found iid hdone
  refine ⟨row, hrow, hproject, rfl, ?_⟩
  rw [h.shows hrow hproject hdone]
  rfl

/-- Nothing is left to fetch as long as what failed fails again. -/
theorem refetched_again (hans : Answers C U client snaps)
    (h : Synced C project now (totally U) rows (synced project client snaps rows) rows') {client' : Client}
    {snaps' : List MrSnapshot} (hans' : Answers C U client' snaps')
    (hfails : ∀ iid, (client.mergeRequest iid).isOk = false → (client'.mergeRequest iid).isOk = false) :
    refetched project client' (snaps'.map (·.iid)) rows' = [] := by
  unfold refetched
  rw [List.filter_eq_nil_iff]
  intro row' hmem hfetched
  obtain ⟨hrow', hcached⟩ := List.mem_filter.mp hmem
  simp only [fetched, Bool.and_eq_true, decide_eq_true_eq] at hfetched
  simp only [cachedOpened, Bool.and_eq_true, beq_iff_eq] at hcached
  obtain ⟨hseen, hok⟩ := hfetched
  obtain ⟨hproject, hstate⟩ := hcached
  have hclosed : ¬ Open U row'.iid := fun hopen => hseen ((hans'.open_iff _).mp hopen)
  by_cases hdone : row'.iid ∈ synced project client snaps rows
  · obtain ⟨mr, hU⟩ := hans'.known hok
    have hshows := h.shows hrow' hproject hdone
    rw [totally_some hU] at hshows
    have hmr : mr.state = row'.state := by rw [hshows]; rfl
    exact hclosed ⟨mr, hU, hmr.trans hstate⟩
  · have hyes : (client.mergeRequest row'.iid).isOk = true := by
      by_contra hno
      rw [hfails _ (by simpa using hno)] at hok
      cases hok
    obtain ⟨news, hshape, hnews⟩ := h.shape
    rw [hshape] at hrow'
    rcases List.mem_append.mp hrow' with hold | hnew
    · obtain ⟨row, hrow, rfl⟩ := List.mem_map.mp hold
      rw [refresh_iid] at hdone hclosed hyes
      rw [refresh_other _ fun hcond => hdone hcond.2] at hproject hstate
      refine hdone (mem_synced_of_refetched hrow ?_ (fun hlisted => hclosed ((hans.open_iff _).mpr hlisted)) hyes)
      simp [cachedOpened, hproject, hstate]
    · exact hdone (hnews row' hnew).2.1

variable (now rows) in
/-- A configured sync whose calls are answered comes to its two loops. -/
theorem syncOpenMrs_eq {settings : SettingsRow} (hconf : configured settings = true) (hans : Answers C U client snaps)
    (hbranch : C.branch settings.gitlabDefaultBranch = true) :
    ∃ branch, C.branch branch = true ∧ ∀ counts stored,
      syncSnapshots C branch settings.gitlabProject now client snaps rows = .ok (counts, stored) →
        syncOpenMrs C now client settings rows =
          (.ok ⟨counts, none⟩, { settings with gitlabDefaultBranch := branch }, stored) := by
  rcases hans.branch with ⟨branch, hok, haccepted⟩ | ⟨e, herror, hcaught⟩
  · exact ⟨branch, haccepted, (syncOpenMrs_of_branch now rows hconf hans.listing (.inl hok)).1⟩
  · exact ⟨settings.gitlabDefaultBranch, hbranch,
      (syncOpenMrs_of_branch now rows hconf hans.listing (.inr ⟨rfl, e, herror, hcaught⟩)).1⟩

/-- The cache shows what is upstream, every snapshot is counted, and a second
sync against the same upstream finds nothing to do. -/
theorem sync_faithful {settings : SettingsRow} (hconf : configured settings = true)
    (hans : Answers C U client snaps) (hholds : Holds C settings.gitlabProject U) (hcache : Cache C rows)
    (hbranch : C.branch settings.gitlabDefaultBranch = true) (now : Timestamp) :
    ∃ counts settings' rows', syncOpenMrs C now client settings rows = (.ok ⟨counts, none⟩, settings', rows') ∧
      Faithful C settings.gitlabProject U client rows rows' ∧
      counts.total = snaps.length + (refetched settings.gitlabProject client (snaps.map (·.iid)) rows).length ∧
      ∀ client' snaps' now', Answers C U client' snaps' →
        (∀ iid, (client.mergeRequest iid).isOk = false → (client'.mergeRequest iid).isOk = false) →
          ∃ n, (syncOpenMrs C now' client' settings' rows').1 = .ok ⟨⟨0, 0, n⟩, none⟩ := by
  obtain ⟨branch, haccepted, hrun⟩ := syncOpenMrs_eq now rows hconf hans hbranch
  obtain ⟨counts, rows', hsync, hsynced, htotal, -⟩ := syncSnapshots_synced now haccepted hcache
    (hans.listed hholds) fun row _ _ => hans.fetches hholds row.iid
  refine ⟨counts, _, rows', hrun counts rows' hsync, faithful_of_synced hans hcache hsynced, htotal, ?_⟩
  intro client' snaps' now' hans' hfails
  have hconf' : configured { settings with gitlabDefaultBranch := branch } = true := hconf
  obtain ⟨branch', haccepted', hrun'⟩ := syncOpenMrs_eq now' rows' hconf' hans' haccepted
  obtain ⟨counts', rows'', hsync', -, -, hsettled⟩ := syncSnapshots_synced now' haccepted' hsynced.cache
    (hans'.listed hholds) fun row _ _ => hans'.fetches hholds row.iid
  obtain ⟨hadded, hupdated⟩ := hsettled
    (fun snap hsnap => hsynced.current_of_done (List.mem_append_left _
      ((hans.open_iff _).mp ((hans'.open_iff _).mpr (List.mem_map_of_mem hsnap)))))
    (refetched_again hans hsynced hans' hfails)
  rw [hrun' counts' rows'' hsync']
  obtain ⟨added, updated, unchanged⟩ := counts'
  obtain rfl : added = 0 := hadded
  obtain rfl : updated = 0 := hupdated
  exact ⟨unchanged, rfl⟩

end Upstream

section Example

def textOf : Json → Option Text
  | .str text => some text
  | _ => none

/-- Columns that hold every text. -/
def textColumns : Columns where
  store row := do
    let title ← textOf row.fields.title
    let author ← textOf row.fields.author
    let sourceBranch ← textOf row.fields.sourceBranch
    let targetBranch ← textOf row.fields.targetBranch
    let sha ← textOf row.fields.sha
    let webUrl ← textOf row.fields.webUrl
    let state ← textOf row.fields.state
    some
      { id := row.id, project := row.project, iid := row.iid, title, author, sourceBranch, targetBranch, sha, webUrl,
        state, updatedAt := row.fields.updatedAt, lastSeenAt := row.lastSeenAt }
  branch _ := true

def plainMr (title state : String) : Upstream :=
  ⟨title.toList, "alice".toList, "feature".toList, "main".toList, [], [], state.toList, some ⟨7200000000, 3600000000⟩,
    by decide⟩

/-- One merge request is open, and one has been merged. -/
def twoUpstream (iid : ℤ) : Option Upstream :=
  if iid = 1 then some (plainMr "First" "opened") else if iid = 2 then some (plainMr "Second" "merged") else none

def twoClient : Client where
  listing := .ok [(plainMr "First" "opened").snapshot 1]
  defaultBranch := .ok (some "main".toList)
  mergeRequest iid := match twoUpstream iid with
    | some mr => .ok (mr.snapshot iid)
    | none => .error (.gitLabError "HTTP 404".toList)

def plainProject : SettingsRow :=
  ⟨"https://gitlab.example.com".toList, "group/app".toList, "token".toList, [], none⟩

/-- The merged one is still cached as opened. -/
def staleRows : List MergeRequest := [(plainMr "Second" "opened").row 1 "group/app".toList 2 none]

/-- A client that lists the open one and answers the rest in some way. -/
theorem twoUpstream_answers {client : Client} (hlisting : client.listing = .ok [(plainMr "First" "opened").snapshot 1])
    (hsingle : ∀ iid, (∃ mr, twoUpstream iid = some mr ∧ client.mergeRequest iid = .ok (mr.snapshot iid)) ∨
      ∃ message, client.mergeRequest iid = .error (.gitLabError message))
    (hbranch : client.defaultBranch = .ok (some "main".toList)) :
    Answers textColumns twoUpstream client [(plainMr "First" "opened").snapshot 1] := by
  refine ⟨hlisting, fun snap hsnap => ?_, ?_, hsingle, .inl ⟨_, hbranch, rfl⟩⟩
  · obtain rfl := List.mem_singleton.mp hsnap
    exact ⟨plainMr "First" "opened", rfl, rfl, rfl⟩
  · rintro iid ⟨mr, hU, hstate⟩
    unfold twoUpstream at hU
    split at hU
    · rename_i hiid
      exact List.mem_singleton.mpr hiid
    · split at hU
      · cases hU
        exact absurd hstate (by decide)
      · cases hU

theorem twoClient_answers : Answers textColumns twoUpstream twoClient [(plainMr "First" "opened").snapshot 1] := by
  refine twoUpstream_answers rfl (fun iid => ?_) rfl
  unfold twoClient
  dsimp only
  cases hU : twoUpstream iid with
  | some mr => exact .inl ⟨mr, rfl, rfl⟩
  | none => exact .inr ⟨_, rfl⟩

/-- No single merge request can be fetched for the moment. -/
def flakyClient : Client := { twoClient with mergeRequest := fun _ => .error (.gitLabError "HTTP 502".toList) }

theorem flakyClient_answers : Answers textColumns twoUpstream flakyClient [(plainMr "First" "opened").snapshot 1] :=
  twoUpstream_answers rfl (fun _ => .inr ⟨_, rfl⟩) rfl

theorem sync_faithful_stale :
    ∃ counts settings' rows',
      syncOpenMrs textColumns 0 twoClient plainProject staleRows = (.ok ⟨counts, none⟩, settings', rows') ∧
        Faithful textColumns "group/app".toList twoUpstream twoClient staleRows rows' ∧ counts.total = 2 := by
  have hholds : Holds textColumns plainProject.gitlabProject twoUpstream := fun _ _ _ _ _ => rfl
  have hcache : Cache textColumns staleRows := by
    refine ⟨by decide, by decide, ?_⟩
    intro row hrow
    obtain rfl := List.mem_singleton.mp hrow
    rfl
  have hconf : configured plainProject = true := by decide
  obtain ⟨counts, settings', rows', hsync, hfaithful, htotal, -⟩ :=
    sync_faithful hconf twoClient_answers hholds hcache rfl 0
  exact ⟨counts, settings', rows', hsync, hfaithful, htotal⟩

/-- A second sync against the same upstream updates the row whose refetch failed in the first. -/
theorem refetched_later : ∃ settings' rows',
    Answers textColumns twoUpstream flakyClient [(plainMr "First" "opened").snapshot 1] ∧
      Answers textColumns twoUpstream twoClient [(plainMr "First" "opened").snapshot 1] ∧
      syncOpenMrs textColumns 0 flakyClient plainProject staleRows = (.ok ⟨⟨1, 0, 0⟩, none⟩, settings', rows') ∧
      (syncOpenMrs textColumns 0 twoClient settings' rows').1 = .ok ⟨⟨0, 1, 1⟩, none⟩ :=
  ⟨_, _, flakyClient_answers, twoClient_answers, by rfl, by rfl⟩

end Example

end GitlabReviewer.Gitlab
