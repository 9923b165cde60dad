import GitlabReviewer.Gitlab.Faithful
import GitlabReviewer.Gitlab.Pagination
import GitlabReviewer.Gitlab.Reading

/-! # When a sync raises

The errors of the client and of `requests` are caught, what comes from below it,
from reading a body and from the database is not. Which one comes is decided page
by page, item by item and flush by flush.
-/
namespace GitlabReviewer.Gitlab
open Python Foundation Models Settings Scheduling

/-- The columns put no limit on the key or on the time of the sync. -/
def Uniform (C : Columns) : Prop :=
  ∀ row id lastSeenAt, (C.store { row with id, lastSeenAt }).isSome = (C.store row).isSome

/-- The columns take these values. -/
def Accepts (C : Columns) (project : Text) (snap : MrSnapshot) : Prop :=
  ∀ values, storeValues snap = .ok values → (C.store ⟨0, project, snap.iid, values, none⟩).isSome = true

/-- A refetch the sync survives. -/
def Survives (C : Columns) (project : Text) (client : Client) (iid : ℤ) : Prop :=
  (∃ e, client.mergeRequest iid = .error e ∧ e.caught.isSome = true) ∨
    ∃ snap, client.mergeRequest iid = .ok snap ∧ Accepts C project snap

section Flushes
variable {C : Columns} {branch : Option Text} {project : Text} {now : Timestamp} {client : Client}

/-- What a session of a sync shows while every flush succeeds. -/
structure Clean (C : Columns) (view : List CachedMr) : Prop where
  ids : (view.map (·.id)).Nodup
  stored : ∀ row ∈ view, (C.store row).isSome = true

/-- The next flush raises. -/
def Bad (C : Columns) (branch : Option Text) (s : UnitOfWork CachedMr) : Prop :=
  checkRows C branch (s.pending s.rows) = .error .databaseError

/-- It has raised, or will at the next flush. -/
def Doomed (C : Columns) (branch : Option Text) (out : Except Raised (Counts × UnitOfWork CachedMr)) : Prop :=
  ∀ counts s, out = .ok (counts, s) → Bad C branch s

/-- Rows with other iids are as they were. -/
def Elsewhere (done : List ℤ) (view view' : List CachedMr) : Prop := ∀ mr, mr.iid ∉ done → (mr ∈ view' ↔ mr ∈ view)

theorem Elsewhere.trans {a b : List ℤ} {view view' view'' : List CachedMr} (h : Elsewhere a view view')
    (h' : Elsewhere b view' view'') : Elsewhere (a ++ b) view view'' := by
  intro mr hmr
  rw [List.mem_append, not_or] at hmr
  rw [h' mr hmr.2, h mr hmr.1]

theorem checkRows_ok (hbranch : C.branch branch = true) {view : List CachedMr} (h : ∀ row ∈ view, (C.store row).isSome = true) :
    checkRows C branch view = .ok () := if_pos ⟨hbranch, by simpa using h⟩

theorem checkRows_bad {view : List CachedMr} (h : ∃ row ∈ view, (C.store row).isSome = false) :
    checkRows C branch view = .error .databaseError := by
  obtain ⟨row, hrow, hno⟩ := h
  refine if_neg ?_
  rintro ⟨-, hall⟩
  have hyes := List.all_eq_true.mp hall row hrow
  rw [hno] at hyes
  cases hyes

variable (project now) in
theorem upsertSnapshot_bad {s : UnitOfWork CachedMr} (h : Bad C branch s) (snap : MrSnapshot) :
    ∃ e, upsertSnapshot C branch project now snap s = .error e := by
  unfold upsertSnapshot
  cases storeValues snap with
  | error e => exact ⟨e, rfl⟩
  | ok values =>
    dsimp only [bind, Except.bind]
    rw [UnitOfWork.select_error h]
    exact ⟨_, rfl⟩

theorem upsertListed_bad {s : UnitOfWork CachedMr} (h : Bad C branch s) (snaps : List MrSnapshot) (counts : Counts) :
    Doomed C branch (upsertListed C branch project now snaps (counts, s)) := by
  intro counts' s' hrun
  cases snaps with
  | nil =>
    cases hrun
    exact h
  | cons snap rest =>
    obtain ⟨e, herror⟩ := upsertSnapshot_bad project now h snap
    rw [upsertListed, herror] at hrun
    cases hrun

theorem refetchStale_bad {s : UnitOfWork CachedMr} (h : Bad C branch s) (seen : List ℤ) (stale : List CachedMr)
    (counts : Counts) : Doomed C branch (refetchStale C branch project now client seen stale (counts, s)) := by
  induction stale with
  | nil =>
    intro counts' s' hrun
    cases hrun
    exact h
  | cons mr rest ih =>
    intro counts' s' hrun
    rw [refetchStale] at hrun
    split at hrun
    · exact ih _ _ hrun
    · split at hrun
      · split at hrun
        · exact ih _ _ hrun
        · cases hrun
      · rename_i snap _
        obtain ⟨e, herror⟩ := upsertSnapshot_bad project now h snap
        rw [herror] at hrun
        cases hrun

theorem elsewhere_append (row : CachedMr) (view : List CachedMr) : Elsewhere [row.iid] view (view ++ [row]) := by
  intro mr hmr
  rw [List.mem_append, List.mem_singleton]
  refine or_iff_left ?_
  rintro rfl
  exact hmr (List.mem_singleton_self _)

theorem Clean.append {view : List CachedMr} (h : Clean C view) {row : CachedMr}
    (hid : row.id = World.nextKey (view.map (·.id))) (hrow : (C.store row).isSome = true) : Clean C (view ++ [row]) := by
  constructor
  · rw [List.map_append, List.map_singleton, hid]
    exact nodup_append_nextKey h.ids
  · intro other hmem
    rcases List.mem_append.mp hmem with hmem | hmem
    · exact h.stored other hmem
    · obtain rfl := List.mem_singleton.mp hmem
      exact hrow

section SetRow
variable {view : List CachedMr} {found : CachedMr} (hmem : found ∈ view) {set : CachedMr → CachedMr}
include hmem

theorem mem_setRow : set found ∈ setRow found.id set view :=
  List.mem_map.mpr ⟨found, hmem, if_pos rfl⟩

theorem elsewhere_setRow (hids : (view.map (·.id)).Nodup) (hiid : (set found).iid = found.iid) :
    Elsewhere [found.iid] view (setRow found.id set view) := by
  intro mr hmr
  unfold setRow
  rw [List.mem_map]
  constructor
  · rintro ⟨row, hrow, rfl⟩
    by_cases hid : row.id = found.id
    · obtain rfl := List.inj_on_of_nodup_map hids hrow hmem hid
      rw [if_pos rfl] at hmr
      exact absurd (List.mem_singleton.mpr hiid) hmr
    · rw [if_neg hid]
      exact hrow
  · intro hmr'
    refine ⟨mr, hmr', if_neg ?_⟩
    intro hid
    obtain rfl := List.inj_on_of_nodup_map hids hmr' hmem hid
    exact hmr (List.mem_singleton_self _)

theorem Clean.setRow (h : Clean C view) (hkey : ∀ row, (set row).id = row.id)
    (hset : (C.store (set found)).isSome = true) : Clean C (setRow found.id set view) := by
  unfold Gitlab.setRow
  constructor
  · have hids : (view.map fun row => if row.id = found.id then set row else row).map (·.id) = view.map (·.id) := by
      rw [List.map_map]
      apply List.map_congr_left
      intro row _
      dsimp only [Function.comp_apply]
      split
      · exact hkey row
      · rfl
    rw [hids]
    exact h.ids
  · intro row hrow
    obtain ⟨old, hold, rfl⟩ := List.mem_map.mp hrow
    by_cases hid : old.id = found.id
    · obtain rfl := List.inj_on_of_nodup_map h.ids hold hmem hid
      rw [if_pos rfl]
      exact hset
    · rw [if_neg hid]
      exact h.stored old hold

end SetRow

theorem accepts_iff {snap : MrSnapshot} {values : Fields} (hvalues : storeValues snap = .ok values) :
    Accepts C project snap ↔ (C.store ⟨0, project, snap.iid, values, none⟩).isSome = true := by
  unfold Accepts
  rw [hvalues]
  constructor
  · intro hall
    exact hall values rfl
  · intro hyes values' hsame
    cases hsame
    exact hyes

variable (project now) in
/-- Everything one upsert can do to a session that has been clean so far. -/
theorem upsertSnapshot_cases (hC : Uniform C) (hbranch : C.branch branch = true) {s : UnitOfWork CachedMr}
    (h : Clean C (s.pending s.rows)) {snap : MrSnapshot} (hvalues : ∃ values, storeValues snap = .ok values) :
    ∃ outcome s', upsertSnapshot C branch project now snap s = .ok (outcome, s') ∧
      Elsewhere [snap.iid] (s.pending s.rows) (s'.pending s'.rows) ∧
      (Accepts C project snap → Clean C (s'.pending s'.rows)) ∧ (¬ Accepts C project snap → Bad C branch s') := by
  obtain ⟨values, hvalues⟩ := hvalues
  -- one row is written, with these values, and the columns judge it by them
  have hstore : ∀ id lastSeenAt, (C.store ⟨id, project, snap.iid, values, lastSeenAt⟩).isSome = true ↔ Accepts C project snap := by
    intro id lastSeenAt
    rw [accepts_iff hvalues, hC ⟨0, project, snap.iid, values, none⟩ id lastSeenAt]
  have hrefused : ∀ id lastSeenAt, ¬ Accepts C project snap →
      (C.store ⟨id, project, snap.iid, values, lastSeenAt⟩).isSome = false := by
    intro id lastSeenAt hno
    exact Bool.eq_false_iff.mpr fun hyes => hno ((hstore id lastSeenAt).mp hyes)
  unfold upsertSnapshot
  rw [hvalues]
  dsimp only [bind, Except.bind]
  rw [UnitOfWork.select_ok (checkRows_ok hbranch h.stored)]
  cases hfind : findRow project snap.iid (s.pending s.rows) with
  | none =>
    refine ⟨_, _, rfl, ?_, fun hyes => ?_, fun hno => ?_⟩
    · rw [UnitOfWork.change_view]
      exact elsewhere_append ⟨_, project, snap.iid, values, some now⟩ (s.pending s.rows)
    · rw [UnitOfWork.change_view]
      exact h.append rfl ((hstore _ _).mpr hyes)
    · exact checkRows_bad ⟨_, List.mem_append_right _ (List.mem_singleton_self _), hrefused _ _ hno⟩
  | some found =>
    have hmem := List.mem_of_find?_eq_some hfind
    obtain ⟨hproject, hiid⟩ : found.project = project ∧ found.iid = snap.iid := by simpa using List.find?_some hfind
    -- whether or not they have changed, the values of the snapshot are set
    have hset : ({ found with
        fields := if decide (found.fields ≠ values) = true then values else found.fields
        lastSeenAt := some now } : CachedMr) = ⟨found.id, project, snap.iid, values, some now⟩ := by
      rw [← hproject, ← hiid]
      by_cases hsame : found.fields = values
      · simp [hsame]
      · simp [hsame]
    refine ⟨_, _, rfl, ?_, fun hyes => ?_, fun hno => ?_⟩
    · rw [UnitOfWork.change_view, ← hiid]
      exact elsewhere_setRow hmem h.ids rfl
    · rw [UnitOfWork.change_view]
      refine Clean.setRow hmem h (fun _ => rfl) ?_
      rw [hset]
      exact (hstore _ _).mpr hyes
    · refine checkRows_bad ⟨_, mem_setRow hmem, ?_⟩
      rw [hset]
      exact hrefused _ _ hno

variable (project now) in
theorem upsertListed_cases (hC : Uniform C) (hbranch : C.branch branch = true) {snaps : List MrSnapshot}
    (hvalues : ∀ snap ∈ snaps, ∃ values, storeValues snap = .ok values) {s : UnitOfWork CachedMr}
    (h : Clean C (s.pending s.rows)) (counts : Counts) :
    ((∀ snap ∈ snaps, Accepts C project snap) → ∃ counts' s',
        upsertListed C branch project now snaps (counts, s) = .ok (counts', s') ∧ Clean C (s'.pending s'.rows) ∧
          Elsewhere (snaps.map (·.iid)) (s.pending s.rows) (s'.pending s'.rows)) ∧
      ((∃ snap ∈ snaps, ¬ Accepts C project snap) →
        Doomed C branch (upsertListed C branch project now snaps (counts, s))) := by
  induction snaps generalizing s counts with
  | nil => exact ⟨fun _ => ⟨counts, s, rfl, h, fun _ _ => Iff.rfl⟩, by simp⟩
  | cons snap rest ih =>
    have hrest := fun other hother => hvalues other (List.mem_cons_of_mem snap hother)
    obtain ⟨outcome, s₁, hupsert, helse, hclean, hbad⟩ :=
      upsertSnapshot_cases project now hC hbranch h (hvalues snap List.mem_cons_self)
    have hstep : upsertListed C branch project now (snap :: rest) (counts, s) =
        upsertListed C branch project now rest (counts.listed outcome, s₁) := by
      rw [upsertListed, hupsert]
      rfl
    rw [hstep]
    constructor
    · intro hall
      obtain ⟨counts', s', hrun, hclean', helse'⟩ :=
        (ih hrest (hclean (hall snap List.mem_cons_self)) (counts.listed outcome)).1
          fun other hother => hall other (List.mem_cons_of_mem _ hother)
      exact ⟨counts', s', hrun, hclean', helse.trans helse'⟩
    · rintro ⟨other, hother, hno⟩
      by_cases hfirst : Accepts C project snap
      · refine (ih hrest (hclean hfirst) (counts.listed outcome)).2 ⟨other, ?_, hno⟩
        rcases List.mem_cons.mp hother with rfl | hother
        · exact absurd hfirst hno
        · exact hother
      · exact upsertListed_bad (hbad hfirst) rest _

variable (project now) in
theorem refetchStale_cases (hC : Uniform C) (hbranch : C.branch branch = true)
    (hvalues : ∀ iid snap, client.mergeRequest iid = .ok snap → ∃ values, storeValues snap = .ok values) (seen : List ℤ)
    (stale : List CachedMr) {s : UnitOfWork CachedMr} (h : Clean C (s.pending s.rows)) (counts : Counts) :
    ((∀ mr ∈ stale, mr.iid ∉ seen → Survives C project client mr.iid) → ∃ counts' s',
        refetchStale C branch project now client seen stale (counts, s) = .ok (counts', s') ∧ Clean C (s'.pending s'.rows)) ∧
      ((∃ mr ∈ stale, mr.iid ∉ seen ∧ ¬ Survives C project client mr.iid) →
        Doomed C branch (refetchStale C branch project now client seen stale (counts, s))) := by
  induction stale generalizing s counts with
  | nil => exact ⟨fun _ => ⟨counts, s, rfl, h⟩, by simp⟩
  | cons mr rest ih =>
    have hskip : (mr.iid ∈ seen ∨ ∃ e, client.mergeRequest mr.iid = .error e ∧ e.caught.isSome = true) →
        refetchStale C branch project now client seen (mr :: rest) (counts, s) =
          refetchStale C branch project now client seen rest (counts, s) := by
      intro hskipped
      rw [refetchStale]
      by_cases hseen : mr.iid ∈ seen
      · rw [if_pos hseen]
      · obtain ⟨e, herror, hcaught⟩ := hskipped.resolve_left hseen
        rw [if_neg hseen, herror]
        exact if_pos hcaught
    by_cases hskipped : mr.iid ∈ seen ∨ ∃ e, client.mergeRequest mr.iid = .error e ∧ e.caught.isSome = true
    · rw [hskip hskipped]
      obtain ⟨hall, hsome⟩ := ih h counts
      refine ⟨fun hsurvive => hall fun other hother => hsurvive other (List.mem_cons_of_mem _ hother), ?_⟩
      rintro ⟨other, hother, hunseen, hno⟩
      refine hsome ⟨other, ?_, hunseen, hno⟩
      rcases List.mem_cons.mp hother with rfl | hother
      · rcases hskipped with hseen | hcaught
        · exact absurd hseen hunseen
        · exact absurd (.inl hcaught) hno
      · exact hother
    · rw [not_or] at hskipped
      obtain ⟨hunseen, hcaught⟩ := hskipped
      rw [refetchStale, if_neg hunseen]
      cases hfetch : client.mergeRequest mr.iid with
      | error e =>
        have hno : ¬ e.caught.isSome = true := fun hyes => hcaught ⟨e, hfetch, hyes⟩
        dsimp only
        rw [if_neg hno]
        refine ⟨fun hsurvive => ?_, fun _ => by intro _ _ hrun; cases hrun⟩
        rcases hsurvive mr List.mem_cons_self hunseen with ⟨e', herror, hyes⟩ | ⟨snap, hok, -⟩
        · cases hfetch.symm.trans herror
          exact absurd hyes hno
        · cases hfetch.symm.trans hok
      | ok snap =>
        obtain ⟨outcome, s₁, hupsert, -, hclean, hbad⟩ :=
          upsertSnapshot_cases project now hC hbranch h (hvalues mr.iid snap hfetch)
        dsimp only
        rw [hupsert]
        constructor
        · intro hsurvive
          have haccepts : Accepts C project snap := by
            rcases hsurvive mr List.mem_cons_self hunseen with ⟨e, herror, -⟩ | ⟨snap', hok, haccepts⟩
            · cases hfetch.symm.trans herror
            · cases hfetch.symm.trans hok
              exact haccepts
          exact (ih (hclean haccepts) (counts.refetched outcome)).1
            fun other hother => hsurvive other (List.mem_cons_of_mem _ hother)
        · rintro ⟨other, hother, hunseen', hno⟩
          by_cases haccepts : Accepts C project snap
          · refine (ih (hclean haccepts) (counts.refetched outcome)).2 ⟨other, ?_, hunseen', hno⟩
            rcases List.mem_cons.mp hother with rfl | hother
            · exact absurd (.inr ⟨snap, hfetch, haccepts⟩) hno
            · exact hother
          · exact refetchStale_bad (hbad haccepts) seen rest _

end Flushes

section Sync
variable {L : Stdlib} {C : Columns} {branch : Option Text} {project : Text} {now : Timestamp} {client : Client}
  {settings : SettingsRow} {server : Server} {rows : List MergeRequest}

theorem doomed_listed {snaps : List MrSnapshot}
    (h : Doomed C branch (upsertListed C branch project now snaps (⟨0, 0, 0⟩, .begin (rows.map CachedMr.load)))) :
    ∃ e, syncSnapshots C branch project now client snaps rows = .error e := by
  unfold syncSnapshots
  cases hrun : upsertListed C branch project now snaps (⟨0, 0, 0⟩, .begin (rows.map CachedMr.load)) with
  | error e => exact ⟨e, rfl⟩
  | ok state =>
    have hbad := h state.1 state.2 hrun
    dsimp only [bind, Except.bind]
    rw [UnitOfWork.select_error hbad]
    exact ⟨_, rfl⟩

variable (branch project now) in
/-- The loops and the commit succeed exactly where every flush does and every refetch is survived. -/
theorem syncSnapshots_iff (hC : Uniform C) (hcache : Cache C rows) {snaps : List MrSnapshot}
    (hvalues : ∀ snap ∈ snaps, ∃ values, storeValues snap = .ok values)
    (hclient : ∀ iid snap, client.mergeRequest iid = .ok snap → ∃ values, storeValues snap = .ok values) :
    (∃ out, syncSnapshots C branch project now client snaps rows = .ok out) ↔
      C.branch branch = true ∧ (∀ snap ∈ snaps, Accepts C project snap) ∧
        ∀ row ∈ rows, cachedOpened project row = true → row.iid ∉ snaps.map (·.iid) →
          Survives C project client row.iid := by
  have hraised : (∃ e, syncSnapshots C branch project now client snaps rows = .error e) →
      ¬ ∃ out, syncSnapshots C branch project now client snaps rows = .ok out := by
    rintro ⟨e, herror⟩ ⟨out, hok⟩
    cases herror.symm.trans hok
  have hclean : Clean C ((UnitOfWork.begin (rows.map CachedMr.load)).pending
      (UnitOfWork.begin (rows.map CachedMr.load)).rows) := by
    rw [UnitOfWork.begin_view]
    constructor
    · rw [List.map_map]
      exact hcache.ids
    · intro row hrow
      obtain ⟨stored, hstored, rfl⟩ := List.mem_map.mp hrow
      rw [hcache.kept stored hstored]
      rfl
  by_cases hbranch : C.branch branch = true
  · obtain ⟨hall, hsome⟩ := upsertListed_cases project now hC hbranch hvalues hclean ⟨0, 0, 0⟩
    by_cases haccepts : ∀ snap ∈ snaps, Accepts C project snap
    · obtain ⟨counts₁, s₁, hlisted, hclean₁, helse⟩ := hall haccepts
      have hcheck := checkRows_ok hbranch hclean₁.stored
      have hstale : ∀ mr : CachedMr, mr.iid ∉ snaps.map (·.iid) →
          (mr ∈ (s₁.pending s₁.rows).filter (openedIn C project) ↔ ∃ row ∈ rows, cachedOpened project row = true ∧
            CachedMr.load row = mr) := by
        intro mr hmr
        have hsame := openedIn_load project hcache.kept
        rw [List.mem_filter, helse mr hmr, ← List.mem_filter]
        rw [UnitOfWork.begin_view, hsame, List.mem_map]
        simp only [List.mem_filter, and_assoc]
      obtain ⟨hsurvive, hdoom⟩ := refetchStale_cases project now (s := { s₁ with rows := s₁.pending s₁.rows, pending := id })
        hC hbranch hclient (snaps.map (·.iid)) ((s₁.pending s₁.rows).filter (openedIn C project)) hclean₁ counts₁
      have hrun : syncSnapshots C branch project now client snaps rows =
          (refetchStale C branch project now client (snaps.map (·.iid)) ((s₁.pending s₁.rows).filter (openedIn C project))
            (counts₁, { s₁ with rows := s₁.pending s₁.rows, pending := id })).bind fun out =>
              (out.2.commit (checkRows C branch)).bind fun rows => .ok (out.1, rows.filterMap C.store) := by
        unfold syncSnapshots
        rw [hlisted]
        dsimp only [bind, Except.bind]
        rw [UnitOfWork.select_ok hcheck]
      constructor
      · rintro ⟨out, hok⟩
        refine ⟨hbranch, haccepts, ?_⟩
        intro row hrow hopened hunseen
        by_contra hno
        have hdoomed := hdoom ⟨CachedMr.load row, (hstale _ hunseen).mpr ⟨row, hrow, hopened, rfl⟩, hunseen, hno⟩
        rw [hrun] at hok
        obtain ⟨⟨counts₂, s₂⟩, hstate, hcommit⟩ := bind_eq_ok hok
        dsimp only at hcommit
        rw [UnitOfWork.commit_error (hdoomed counts₂ s₂ hstate)] at hcommit
        cases hcommit
      · rintro ⟨-, -, hrefetch⟩
        obtain ⟨counts₂, s₂, hstate, hclean₂⟩ := hsurvive fun mr hmr hunseen => by
          obtain ⟨row, hrow, hopened, rfl⟩ := (hstale mr hunseen).mp hmr
          exact hrefetch row hrow hopened hunseen
        rw [hrun, hstate]
        dsimp only [Except.bind]
        rw [UnitOfWork.commit_ok (checkRows_ok hbranch hclean₂.stored)]
        exact ⟨_, rfl⟩
    · refine iff_of_false (hraised (doomed_listed (hsome ?_))) fun h => haccepts h.2.1
      by_contra hnone
      exact haccepts fun snap hsnap => by_contra fun hno => hnone ⟨snap, hsnap, hno⟩
  · refine iff_of_false (hraised (doomed_listed (upsertListed_bad (if_neg fun h => hbranch h.1) _ _))) fun h => hbranch h.1

/-- An item that is mapped and that the columns take. -/
def Cachable (L : Stdlib) (C : Columns) (project : Text) (item : Json) : Prop :=
  Mappable L item ∧ ∀ snap, fromGitlab L item = .ok snap → Accepts C project snap

/-- The branch lookup fails as expected, or brings an object with a branch the column takes. -/
def BranchFine (L : Stdlib) (C : Columns) (settings : SettingsRow) (server : Server) : Prop :=
  (∃ e, bodyOf L settings (projectPath L settings) server.project = .error e ∧ e.caught.isSome = true) ∨
    ∃ fields, bodyOf L settings (projectPath L settings) server.project = .ok (.obj fields) ∧
      C.branch (branchOf fields) = true

/-- The refetch fails as expected, or brings an item that can be cached. -/
def RefetchFine (L : Stdlib) (C : Columns) (settings : SettingsRow) (server : Server) (iid : ℤ) : Prop :=
  (∃ e, bodyOf L settings (mergeRequestPath L settings iid) (server.mergeRequest iid) = .error e ∧
      e.caught.isSome = true) ∨
    ∃ item, bodyOf L settings (mergeRequestPath L settings iid) (server.mergeRequest iid) = .ok item ∧
      Cachable L C settings.gitlabProject item

/-- The listing ends with an expected failure, or in items that can all be
cached, and then the other calls are fine as well. -/
def Fine (L : Stdlib) (C : Columns) (settings : SettingsRow) (server : Server) (rows : List MergeRequest) : Ending → Prop
  | .raised e => e.caught.isSome = true
  | .noList _ => False
  | .lists items => (∀ item ∈ items, Cachable L C settings.gitlabProject item) ∧ BranchFine L C settings server ∧
      ∀ row ∈ rows, cachedOpened settings.gitlabProject row = true → (∀ item ∈ items, iidOf L item ≠ .ok row.iid) →
        RefetchFine L C settings server row.iid

/-- The calls of the listing, from the first page on. -/
def Listed (L : Stdlib) (settings : SettingsRow) (server : Server) (ending : Ending) : Prop :=
  Reads L settings (listingPath L settings) perPageDefault server.listing 0 1 ending

/-- The listing can be turned into snapshots. -/
def Listable (L : Stdlib) (settings : SettingsRow) (server : Server) : Prop :=
  ∃ items, Listed L settings server (.lists items) ∧ ∀ item ∈ items, Mappable L item

theorem Ending.result_nil (ending : Ending) : ending.result.map (([] : List Json) ++ ·) = ending.result := by
  cases ending <;> rfl

theorem listOpen_of_listed {ending : Ending} (h : Listed L settings server ending) :
    ∃ fuel, listOpenMergeRequests L settings server fuel =
      some (ending.result.bind fun data => data.mapM (fromGitlab L)) := by
  obtain ⟨fuel, calls, hrun⟩ := Reads.paginated h []
  rw [Ending.result_nil] at hrun
  refine ⟨fuel, ?_⟩
  unfold listOpenMergeRequests paginatedGet
  rw [hrun]
  rfl

theorem listed_of_listOpen {fuel : ℕ} {listing : Except Raised (List MrSnapshot)}
    (h : listOpenMergeRequests L settings server fuel = some listing) :
    ∃ ending, Listed L settings server ending ∧ listing = ending.result.bind fun data => data.mapM (fromGitlab L) := by
  unfold listOpenMergeRequests at h
  obtain ⟨out, hout, rfl⟩ := Option.map_eq_some_iff.mp h
  obtain ⟨ending, hreads, hresult⟩ := reads_of_paginated hout
  rw [Ending.result_nil] at hresult
  exact ⟨ending, hreads, by rw [← hresult]⟩

theorem getMergeRequest_eq (iid : ℤ) : getMergeRequest L settings server iid =
    bodyOf L settings (mergeRequestPath L settings iid) (server.mergeRequest iid) >>= fromGitlab L := by
  unfold getMergeRequest bodyOf
  cases (apiGet L settings (mergeRequestPath L settings iid) (server.mergeRequest iid)).2 <;> rfl

theorem getMergeRequest_values (iid : ℤ) (snap : MrSnapshot) (h : getMergeRequest L settings server iid = .ok snap) :
    ∃ values, storeValues snap = .ok values := by
  rw [getMergeRequest_eq] at h
  obtain ⟨item, -, hitem⟩ := bind_eq_ok h
  exact storeValues_fromGitlab L hitem

theorem survives_iff (iid : ℤ) (hclient : client.mergeRequest iid = getMergeRequest L settings server iid) :
    Survives C settings.gitlabProject client iid ↔ RefetchFine L C settings server iid := by
  unfold Survives RefetchFine
  rw [hclient, getMergeRequest_eq]
  cases hbody : bodyOf L settings (mergeRequestPath L settings iid) (server.mergeRequest iid) with
  | error e =>
    constructor
    · rintro (⟨e', herror, hcaught⟩ | ⟨snap, hsnap, -⟩)
      · cases herror
        exact .inl ⟨e, rfl, hcaught⟩
      · cases hsnap
    · rintro (⟨e', herror, hcaught⟩ | ⟨item, hitem, -⟩)
      · cases herror
        exact .inl ⟨e, rfl, hcaught⟩
      · cases hitem
  | ok item =>
    constructor
    · rintro (⟨e, herror, hcaught⟩ | ⟨snap, hsnap, haccepts⟩)
      · rw [fromGitlab_error L herror] at hcaught
        cases hcaught
      · refine .inr ⟨item, rfl, (fromGitlab_ok L).mp ⟨snap, hsnap⟩, ?_⟩
        intro snap' hsnap'
        cases hsnap.symm.trans hsnap'
        exact haccepts
    · rintro (⟨e, herror, -⟩ | ⟨item', hitem', hmappable, haccepts⟩)
      · cases herror
      · cases hitem'
        obtain ⟨snap, hsnap⟩ := (fromGitlab_ok L).mpr hmappable
        exact .inr ⟨snap, hsnap, haccepts snap hsnap⟩

variable (settings server) in
/-- What the lookup of the branch ends with. -/
theorem branch_cases : (∃ branch, getProjectDefaultBranch L settings server = .ok branch ∧
      (C.branch branch = true ↔ BranchFine L C settings server)) ∨
    (∃ e, getProjectDefaultBranch L settings server = .error e ∧ (e.caught.isSome = true ↔ BranchFine L C settings server)) := by
  have heq : getProjectDefaultBranch L settings server =
      bodyOf L settings (projectPath L settings) server.project >>= fun data => (asDict data).map branchOf := by
    unfold getProjectDefaultBranch bodyOf
    cases (apiGet L settings (projectPath L settings) server.project).2 with
    | error e => rfl
    | ok resp =>
      dsimp only [bind, Except.bind]
      cases resp.json with
      | error e => rfl
      | ok data => cases asDict data <;> rfl
  unfold BranchFine
  rw [heq]
  cases hbody : bodyOf L settings (projectPath L settings) server.project with
  | error e =>
    refine .inr ⟨e, rfl, fun hcaught => .inl ⟨e, rfl, hcaught⟩, ?_⟩
    rintro (⟨e', he', hcaught⟩ | ⟨fields, hfields, -⟩)
    · cases he'
      exact hcaught
    · cases hfields
  | ok data =>
    dsimp only [bind, Except.bind]
    cases data with
    | obj fields =>
      refine .inl ⟨branchOf fields, rfl, fun hyes => .inr ⟨fields, rfl, hyes⟩, ?_⟩
      rintro (⟨e, he, -⟩ | ⟨fields', hfields', hyes⟩)
      · cases he
      · cases hfields'
        exact hyes
    | _ =>
      refine .inr ⟨_, rfl, iff_of_false (by simp [Raised.caught]) ?_⟩
      rintro (⟨e, he, -⟩ | ⟨fields, hfields, -⟩)
      · cases he
      · cases hfields

section Listing
variable (hC : Uniform C) (hconf : configured settings = true) (hcache : Cache C rows) {snaps : List MrSnapshot}
  (hlisting : client.listing = .ok snaps) (hsingle : client.mergeRequest = getMergeRequest L settings server)
  (hvalues : ∀ snap ∈ snaps, ∃ values, storeValues snap = .ok values)
include hC hconf hcache hlisting hsingle hvalues

theorem returns_of_branch (hlookup : client.defaultBranch = .ok branch ∨
      branch = settings.gitlabDefaultBranch ∧ ∃ e, client.defaultBranch = .error e ∧ e.caught.isSome = true)
    (hfine : C.branch branch = true ↔ BranchFine L C settings server) :
    ((∃ report settings' rows', syncOpenMrs C now client settings rows = (.ok report, settings', rows')) ↔
      BranchFine L C settings server ∧ (∀ snap ∈ snaps, Accepts C settings.gitlabProject snap) ∧
        ∀ row ∈ rows, cachedOpened settings.gitlabProject row = true → row.iid ∉ snaps.map (·.iid) →
          RefetchFine L C settings server row.iid) ∧
      ∀ report settings' rows', syncOpenMrs C now client settings rows = (.ok report, settings', rows') →
        report.error = none := by
  have hclient : ∀ iid snap, client.mergeRequest iid = .ok snap → ∃ values, storeValues snap = .ok values := by
    rw [hsingle]
    exact getMergeRequest_values
  have hsurvives : ∀ iid, Survives C settings.gitlabProject client iid ↔ RefetchFine L C settings server iid :=
    fun iid => survives_iff iid (by rw [hsingle])
  obtain ⟨hok, herror⟩ := syncOpenMrs_of_branch (C := C) now rows hconf hlisting hlookup
  have hiff := syncSnapshots_iff branch settings.gitlabProject now hC hcache hvalues hclient
  simp only [hsurvives, hfine] at hiff
  rw [← hiff]
  cases hrun : syncSnapshots C branch settings.gitlabProject now client snaps rows with
  | error e =>
    rw [herror e hrun]
    refine ⟨iff_of_false ?_ (by rintro ⟨out, hout⟩; cases hout), fun _ _ _ hreport => by cases hreport⟩
    rintro ⟨report, settings', rows', hreport⟩
    cases hreport
  | ok out =>
    rw [hok out.1 out.2 hrun]
    refine ⟨iff_of_true ⟨_, _, _, rfl⟩ ⟨out, rfl⟩, ?_⟩
    intro report settings' rows' hreport
    cases hreport
    rfl

variable (now) in
/-- With the listing at hand, the sync returns exactly where the branch lookup,
every flush and every refetch are fine, and then it reports no error. -/
theorem returns_iff (hbranch : C.branch settings.gitlabDefaultBranch = true)
    (hproject : client.defaultBranch = getProjectDefaultBranch L settings server) :
    ((∃ report settings' rows', syncOpenMrs C now client settings rows = (.ok report, settings', rows')) ↔
      BranchFine L C settings server ∧ (∀ snap ∈ snaps, Accepts C settings.gitlabProject snap) ∧
        ∀ row ∈ rows, cachedOpened settings.gitlabProject row = true → row.iid ∉ snaps.map (·.iid) →
          RefetchFine L C settings server row.iid) ∧
      ∀ report settings' rows', syncOpenMrs C now client settings rows = (.ok report, settings', rows') →
        report.error = none := by
  rcases branch_cases (C := C) (L := L) settings server with
    ⟨branch, hlookup, hfine⟩ | ⟨e, hlookup, hfine⟩
  · exact returns_of_branch hC hconf hcache hlisting hsingle hvalues (.inl (hproject.trans hlookup)) hfine
  · by_cases hcaught : e.caught.isSome = true
    · exact returns_of_branch hC hconf hcache hlisting hsingle hvalues
        (.inr ⟨rfl, e, hproject.trans hlookup, hcaught⟩) (iff_of_true hbranch (hfine.mp hcaught))
    · have hrun : syncOpenMrs C now client settings rows = (.error e, settings, rows) := by
        unfold syncOpenMrs
        rw [if_neg (by rw [hconf]; decide), hlisting, hproject, hlookup]
        dsimp only
        rw [if_neg hcaught]
      rw [hrun]
      refine ⟨iff_of_false ?_ fun h => hcaught (hfine.mpr h.1), fun _ _ _ hreport => by cases hreport⟩
      rintro ⟨report, settings', rows', hreport⟩
      cases hreport

end Listing

section Mapped
variable {α β : Type} {R : α → β → Prop} {as : List α} {bs : List β}

theorem exists_of_forall₂_left (h : List.Forall₂ R as bs) {a : α} (ha : a ∈ as) : ∃ b ∈ bs, R a b := by
  induction h with
  | nil => cases ha
  | cons hab _ ih =>
    rcases List.mem_cons.mp ha with rfl | ha
    · exact ⟨_, List.mem_cons_self, hab⟩
    · obtain ⟨b, hb, hab'⟩ := ih ha
      exact ⟨b, List.mem_cons_of_mem _ hb, hab'⟩

theorem exists_of_forall₂_right (h : List.Forall₂ R as bs) {b : β} (hb : b ∈ bs) : ∃ a ∈ as, R a b :=
  exists_of_forall₂_left h.flip hb

theorem mapped_error {items : List Json} {e : Raised} (h : items.mapM (fromGitlab L) = .error e) : e.caught = none := by
  obtain ⟨item, -, hitem⟩ := mapM_error h
  exact fromGitlab_error L hitem

variable {items : List Json} {snaps : List MrSnapshot} (h : List.Forall₂ (fun item snap => fromGitlab L item = .ok snap) items snaps)
include h

theorem mapped_values : ∀ snap ∈ snaps, ∃ values, storeValues snap = .ok values := by
  intro snap hsnap
  obtain ⟨item, -, hitem⟩ := exists_of_forall₂_right h hsnap
  exact storeValues_fromGitlab L hitem

theorem mapped_cachable : (∀ item ∈ items, Cachable L C project item) ↔ ∀ snap ∈ snaps, Accepts C project snap := by
  constructor
  · intro hall snap hsnap
    obtain ⟨item, hmem, hitem⟩ := exists_of_forall₂_right h hsnap
    exact (hall item hmem).2 snap hitem
  · intro hall item hmem
    obtain ⟨snap, hsnap, hitem⟩ := exists_of_forall₂_left h hmem
    refine ⟨(fromGitlab_ok L).mp ⟨snap, hitem⟩, fun snap' hsnap' => ?_⟩
    cases hitem.symm.trans hsnap'
    exact hall snap hsnap

theorem mapped_iids (iid : ℤ) : (∀ item ∈ items, iidOf L item ≠ .ok iid) ↔ iid ∉ snaps.map (·.iid) := by
  constructor
  · intro hall hmem
    obtain ⟨snap, hsnap, rfl⟩ := List.mem_map.mp hmem
    obtain ⟨item, hmem, hitem⟩ := exists_of_forall₂_right h hsnap
    exact hall item hmem (fromGitlab_iid L hitem)
  · intro hunseen item hmem hiid
    obtain ⟨snap, hsnap, hitem⟩ := exists_of_forall₂_left h hmem
    have hsame := (fromGitlab_iid L hitem).symm.trans hiid
    exact hunseen (List.mem_map.mpr ⟨snap, hsnap, Except.ok.inj hsame⟩)

end Mapped

theorem httpClient_some {fuel : ℕ} {listing : Except Raised (List MrSnapshot)}
    (h : listOpenMergeRequests L settings server fuel = some listing) :
    ∃ client, httpClient L settings server fuel = some client ∧ client.listing = listing ∧
      client.defaultBranch = getProjectDefaultBranch L settings server ∧
      client.mergeRequest = getMergeRequest L settings server :=
  ⟨_, congrArg (Option.map _) h, rfl, rfl, rfl⟩

end Sync

section Example

def answering (value : Json) : Answer := .ok ⟨200, none, none, [], .json value⟩

/-- Every call is answered; the listing with these items. -/
def listingServer (items : List Json) : Server where
  listing _ _ _ := answering (.arr items)
  project _ := answering (.obj [])
  mergeRequest _ _ := answering .null

def titledItem : Json := .obj [("iid".toList, .int 1), ("title".toList, .str "First".toList)]

/-- An author that is a name, not an object. -/
def namedItem : Json := .obj [("iid".toList, .int 1), ("author".toList, .str "alice".toList)]

end Example

end GitlabReviewer.Gitlab
