import GitlabReviewer.Foundation.Doubles
import GitlabReviewer.Foundation.Pages
import GitlabReviewer.Models.Configuration
import Mathlib.Data.List.Nodup

/-! # The pages of the merge request list

The number of pages is rounded up from a float, the requested page is clamped to
it, and the range that is displayed is computed from the clamped page once more.
-/
namespace GitlabReviewer.Listing
open Python Models Foundation

def mrPageSize : ℕ := 25

def mrStates : List Text := ["all".toList, "opened".toList, "merged".toList, "closed".toList]

def stateLabels : List (Text × Text) :=
  [("all".toList, []), ("opened".toList, "open".toList), ("merged".toList, "merged".toList), ("closed".toList, "closed".toList)]

/-- The cached merge requests. A database file holds less than `2 ^ 48` bytes. -/
structure MergeRequestTable where
  rows : List MergeRequest
  unique : (rows.map fun mr => (mr.project, mr.iid)).Nodup
  fits : rows.length < 2 ^ 48

/-- `_norm_state`. -/
def normState (state : Text) : Text := if mrStates.contains state then state else "opened".toList

def stateLabel (state : Text) : Text := (stateLabels.lookup state).getD []

/-- `_empty_hint`. -/
def emptyHint (state : Text) : Text :=
  if state = "all".toList then "No merge requests cached yet — click Refresh to fetch them from GitLab.".toList
  else "No ".toList ++ stateLabel state ++ " merge requests cached — click Refresh or pick a different state.".toList

section List
variable (db : MergeRequestTable) (project : Text)

/-- The rows of the filter. -/
def matching (state : Text) : List MergeRequest :=
  db.rows.filter fun mr => decide (mr.project = project) && (decide (state = "all".toList) || decide (mr.state = state))

/-- `ORDER BY iid DESC`. -/
def byIid (mrs : List MergeRequest) : List MergeRequest := mrs.mergeSort fun a b => decide (b.iid ≤ a.iid)

/-- `max(1, math.ceil(total / MR_PAGE_SIZE))`. -/
def pageCount (total : ℕ) : ℤ := max 1 ⌈toDouble (total / mrPageSize)⌉

structure Listed where
  items : List MergeRequest
  total : ℕ
  page : ℤ

/-- `_list_mrs`. -/
def listMrs (page : ℤ) (state : Text) : Listed :=
  let total := (matching db project state).length
  let page := max 1 (min page (pageCount total))
  { items := ((byIid (matching db project state)).drop ((page - 1) * mrPageSize).toNat).take mrPageSize, total, page }

end List

/-- `_review_counts`: the runs and the queued jobs of each merge request. -/
def reviewCounts (runs : List ReviewRun) (jobs : List ScheduledJob) (mrs : List MergeRequest) : List (ℕ × ℕ × ℕ) :=
  mrs.map fun mr => (mr.id, (runs.filter fun run => decide (run.mergeRequestId = mr.id)).length,
    (jobs.filter fun job => decide (job.mergeRequestId = mr.id) && decide (job.status = .queued)).length)

structure ListContext where
  configured : Bool
  mrs : List MergeRequest
  total : ℕ
  page : ℤ
  pages : ℤ
  pageStart : ℤ
  pageEnd : ℤ
  state : Text
  stateLabel : Text
  emptyHint : Text
  reviewCounts : List (ℕ × ℕ × ℕ)
  defaultBranch : Option Text
  syncMessage : Option Text
  syncError : Bool

/-- `_list_context`. -/
def listContext (db : MergeRequestTable) (runs : List ReviewRun) (jobs : List ScheduledJob) (row : SettingsRow) (page : ℤ)
    (state : Text) (configured : Bool) (message : Option Text) (failed : Bool) : ListContext :=
  let state := normState state
  let listed := if configured then listMrs db row.gitlabProject page state else ⟨[], 0, 1⟩
  { configured
    mrs := listed.items
    total := listed.total
    page := listed.page
    pages := pageCount listed.total
    pageStart := (listed.page - 1) * mrPageSize + 1
    pageEnd := min listed.total (listed.page * mrPageSize)
    state
    stateLabel := stateLabel state
    emptyHint := emptyHint state
    reviewCounts := reviewCounts runs jobs listed.items
    defaultBranch := row.gitlabDefaultBranch
    syncMessage := message
    syncError := failed }

theorem pageCount_eq {total : ℕ} (h : total < 2 ^ 48) : pageCount total = max 1 ⌈(total : ℚ) / 25⌉ := by
  have hceil : ⌈toDouble ((total : ℚ) / mrPageSize)⌉ = ⌈(total : ℚ) / 25⌉ :=
    ceil_toDouble_div (d := 25) (by decide) (by decide) h
  rw [pageCount, hceil]

theorem one_le_pageCount (total : ℕ) : 1 ≤ pageCount total := le_max_left _ _

theorem ceil_bounds (total : ℕ) :
    (⌈(total : ℚ) / 25⌉ - 1) * 25 < (total : ℤ) ∧ (total : ℤ) ≤ ⌈(total : ℚ) / 25⌉ * 25 := by
  obtain ⟨hlow, hhigh⟩ := Int.ceil_eq_iff.mp (Eq.refl ⌈(total : ℚ) / 25⌉)
  rw [lt_div_iff₀ (by norm_num)] at hlow
  rw [div_le_iff₀ (by norm_num)] at hhigh
  exact ⟨by exact_mod_cast hlow, by exact_mod_cast hhigh⟩

/-- The pages have room for all rows. -/
theorem le_pageCount_mul {total : ℕ} (h : total < 2 ^ 48) : (total : ℤ) ≤ pageCount total * 25 := by
  have hbounds := ceil_bounds total
  rw [pageCount_eq h]
  omega

/-- Unless there are no rows, the last page has one. -/
theorem pred_pageCount_mul_lt {total : ℕ} (h : total < 2 ^ 48) (hpos : 0 < total) : (pageCount total - 1) * 25 < total := by
  have hbounds := ceil_bounds total
  rw [pageCount_eq h]
  omega

section Order
variable {db : MergeRequestTable} {project state : Text}

theorem byIid_perm (mrs : List MergeRequest) : (byIid mrs).Perm mrs := List.mergeSort_perm _ _

theorem length_byIid (mrs : List MergeRequest) : (byIid mrs).length = mrs.length := (byIid_perm mrs).length_eq

theorem length_matching_lt : (matching db project state).length < 2 ^ 48 :=
  (List.length_filter_le _ _).trans_lt db.fits

theorem project_of_mem_matching {mr : MergeRequest} (h : mr ∈ matching db project state) : mr.project = project := by
  have hcond := (List.mem_filter.mp h).2
  rw [Bool.and_eq_true, decide_eq_true_eq] at hcond
  exact hcond.1

/-- Within a project no iid is there twice. -/
theorem iid_nodup_matching : ((matching db project state).map MergeRequest.iid).Nodup := by
  have hunique : ((matching db project state).map fun mr => (mr.project, mr.iid)).Nodup :=
    db.unique.sublist (List.filter_sublist.map _)
  refine List.Nodup.of_map (fun iid => (project, iid)) ?_
  rw [List.map_map]
  have hsame : (matching db project state).map ((fun iid => (project, iid)) ∘ MergeRequest.iid) =
      (matching db project state).map fun mr => (mr.project, mr.iid) := by
    refine List.map_congr_left fun mr hmr => ?_
    rw [project_of_mem_matching hmr]
    rfl
  rw [hsame]
  exact hunique

/-- The rows of a project in strictly descending order. -/
theorem byIid_descending : (byIid (matching db project state)).Pairwise fun a b => b.iid < a.iid := by
  have hsorted : (byIid (matching db project state)).Pairwise fun a b => decide (b.iid ≤ a.iid) = true := by
    refine List.pairwise_mergeSort (fun a b c hab hbc => ?_) (fun a b => ?_) _
    · simp only [decide_eq_true_eq] at *
      exact hbc.trans hab
    · simp only [Bool.or_eq_true, decide_eq_true_eq]
      exact le_total _ _
  have hnodup : ((byIid (matching db project state)).map MergeRequest.iid).Nodup :=
    ((byIid_perm _).map _).nodup_iff.mpr iid_nodup_matching
  rw [List.Nodup, List.pairwise_map] at hnodup
  refine (hsorted.and hnodup).imp fun hab => ?_
  exact lt_of_le_of_ne (of_decide_eq_true hab.1) hab.2.symm

end Order

section Pages
variable {db : MergeRequestTable} {project state : Text}

/-- The page that is shown for a requested one. -/
def shownPage (total : ℕ) (requested : ℤ) : ℤ := max 1 (min requested (pageCount total))

theorem shownPage_bounds (total : ℕ) (requested : ℤ) : 1 ≤ shownPage total requested ∧ shownPage total requested ≤ pageCount total :=
  ⟨le_max_left _ _, max_le (one_le_pageCount total) (min_le_right _ _)⟩

theorem shownPage_eq {total : ℕ} {requested : ℤ} (h : 1 ≤ requested) (hle : requested ≤ pageCount total) :
    shownPage total requested = requested := by
  rw [shownPage, min_eq_left hle, max_eq_right h]

/-- What is listed is a page of the ordered rows. -/
theorem listMrs_items (requested : ℤ) {k : ℕ} (hk : shownPage (matching db project state).length requested = k + 1) :
    (listMrs db project requested state).items = page 25 (byIid (matching db project state)) k := by
  have hoffset : ((shownPage (matching db project state).length requested - 1) * mrPageSize).toNat = k * 25 := by
    rw [hk]
    simp only [mrPageSize]
    omega
  show ((byIid (matching db project state)).drop _).take _ = _
  rw [page, ← hoffset]
  rfl

/-- The pages one after the other. -/
def allPages (db : MergeRequestTable) (project state : Text) (count : ℤ) : List MergeRequest :=
  (List.range count.toNat).flatMap fun k : ℕ => (listMrs db project ((k : ℤ) + 1) state).items

theorem allPages_eq : allPages db project state (pageCount (matching db project state).length) = byIid (matching db project state) := by
  have hfits : (matching db project state).length < 2 ^ 48 := length_matching_lt
  have hcount := le_pageCount_mul hfits
  have hpages : ∀ k ∈ List.range (pageCount (matching db project state).length).toNat,
      (listMrs db project ((k : ℤ) + 1) state).items = page 25 (byIid (matching db project state)) k := by
    intro k hk
    rw [List.mem_range] at hk
    exact listMrs_items _ (shownPage_eq (by omega) (by omega))
  rw [allPages, List.flatMap_congr hpages]
  refine flatMap_page_eq ?_
  rw [length_byIid]
  omega

/-- The place in the whole list, counted from one. -/
def HasRank (db : MergeRequestTable) (project state : Text) (mr : MergeRequest) (rank : ℤ) : Prop :=
  ∃ i : ℕ, rank = i + 1 ∧ (byIid (matching db project state))[i]? = some mr

/-- The page that is shown, as an offset into the rows, is not beyond them. -/
theorem exists_offset (requested : ℤ) (hpos : 0 < (matching db project state).length) : ∃ k : ℕ,
    shownPage (matching db project state).length requested = k + 1 ∧ k * 25 < (matching db project state).length := by
  obtain ⟨hlow, hhigh⟩ := shownPage_bounds (matching db project state).length requested
  have hfits : (matching db project state).length < 2 ^ 48 := length_matching_lt
  have hlast := pred_pageCount_mul_lt hfits hpos
  refine ⟨(shownPage (matching db project state).length requested - 1).toNat, ?_, ?_⟩ <;> omega

theorem listMrs_ranks (requested : ℤ) (hpos : 0 < (matching db project state).length) :
    ∃ first last, (listMrs db project requested state).items.head? = some first ∧
      (listMrs db project requested state).items.getLast? = some last ∧
      HasRank db project state first (((listMrs db project requested state).page - 1) * mrPageSize + 1) ∧
      HasRank db project state last
        (min ((listMrs db project requested state).total : ℤ) ((listMrs db project requested state).page * mrPageSize)) := by
  obtain ⟨k, hpage, hoffset⟩ := exists_offset requested hpos
  have hitems := listMrs_items requested hpage
  have hlength : (page 25 (byIid (matching db project state)) k).length = min 25 ((matching db project state).length - k * 25) := by
    rw [length_page, length_byIid]
  have hshown : (listMrs db project requested state).page = k + 1 := hpage
  have htotal : (listMrs db project requested state).total = (matching db project state).length := rfl
  rw [hitems, hshown, htotal]
  generalize hrows : page 25 (byIid (matching db project state)) k = rows at hlength ⊢
  have hrow : ∀ i < rows.length, ∃ mr, rows[i]? = some mr ∧ (byIid (matching db project state))[k * 25 + i]? = some mr := by
    intro i hi
    refine ⟨rows.get ⟨i, hi⟩, List.getElem?_eq_getElem hi, ?_⟩
    have hplace := getElem?_page (l := byIid (matching db project state)) (k := k) (i := i) (show i < 25 by omega)
    rw [← hplace, hrows]
    exact List.getElem?_eq_getElem hi
  obtain ⟨first, hfirst, hfirstAll⟩ := hrow 0 (by omega)
  obtain ⟨last, hlast, hlastAll⟩ := hrow (rows.length - 1) (by omega)
  have hpageSize : (mrPageSize : ℤ) = 25 := rfl
  refine ⟨first, last, ?_, ?_, ⟨k * 25, ?_, hfirstAll⟩, ⟨k * 25 + (rows.length - 1), ?_, hlastAll⟩⟩
  · rw [List.head?_eq_getElem?, hfirst]
  · rw [List.getLast?_eq_getElem?, hlast]
  · rw [hpageSize]
    omega
  · rw [hpageSize]
    omega

/-- The displayed range is where the first and the last row of the page stand. -/
def RangeShown (db : MergeRequestTable) (project : Text) (c : ListContext) : Prop :=
  ∃ first last, c.mrs.head? = some first ∧ c.mrs.getLast? = some last ∧
    HasRank db project c.state first c.pageStart ∧ HasRank db project c.state last c.pageEnd

theorem listContext_range {runs : List ReviewRun} {jobs : List ScheduledJob} {row : SettingsRow} {requested : ℤ}
    {configured : Bool} {message : Option Text} {failed : Bool}
    (hpos : 0 < (listContext db runs jobs row requested state configured message failed).total) :
    RangeShown db row.gitlabProject (listContext db runs jobs row requested state configured message failed) := by
  cases configured with
  | false => exact absurd hpos (lt_irrefl 0)
  | true => exact listMrs_ranks requested hpos

/-- The pages of a filter partition its rows: whatever page is requested, one of
them is shown with at most 25 rows, together they are all rows in descending
order, and the range that is displayed is where the rows of the page stand. -/
theorem pages_partition (db : MergeRequestTable) :
    (∀ (project state : Text) (requested : ℤ), 1 ≤ (listMrs db project requested state).page ∧
      (listMrs db project requested state).page ≤ max 1 ⌈((listMrs db project requested state).total : ℚ) / 25⌉ ∧
      (listMrs db project requested state).items.length ≤ 25) ∧
    (∀ project state : Text, ∀ pages, pages = allPages db project state (max 1 ⌈((matching db project state).length : ℚ) / 25⌉) →
      pages.Perm (matching db project state) ∧ pages.Pairwise fun a b => b.iid < a.iid) ∧
    ∀ (runs : List ReviewRun) (jobs : List ScheduledJob) (row : SettingsRow) (requested : ℤ) (state : Text) (configured : Bool)
      (message : Option Text) (failed : Bool), 0 < (listContext db runs jobs row requested state configured message failed).total →
        RangeShown db row.gitlabProject (listContext db runs jobs row requested state configured message failed) := by
  refine ⟨fun project state requested => ?_, fun project state pages hpages => ?_, fun _ _ _ _ _ _ _ _ => listContext_range⟩
  · obtain ⟨hlow, hhigh⟩ := shownPage_bounds (matching db project state).length requested
    refine ⟨hlow, ?_, ?_⟩
    · rw [pageCount_eq length_matching_lt] at hhigh
      exact hhigh
    · exact (List.length_take_le _ _)
  · rw [← pageCount_eq length_matching_lt, allPages_eq] at hpages
    subst hpages
    exact ⟨byIid_perm _, byIid_descending⟩

end Pages

end GitlabReviewer.Listing
