import GitlabReviewer.Foundation.Dictionary
import GitlabReviewer.Settings.SettingsFixed

/-! # The library rows of the schedule form

A row has three inputs, whose names end with the row's index; the form comes
with a row for each known library. A posted row is a project if it has a URL.
-/
namespace GitlabReviewer.Scheduling
open Python Foundation Settings

/-- `.+$`: one line, up to a newline at its end. -/
def rowIndex (rest : Text) : Option Text :=
  let index := if rest.getLast? = some '\n' then rest.dropLast else rest
  if index.isEmpty || index.contains '\n' then none else some index

/-- `_EXTRA_RE.match`: the field and the index of a row's input. -/
def extraField (name : Text) : Option (Text × Text) :=
  ["url".toList, "ref".toList, "path".toList].findSome? fun field =>
    let start := "extra_".toList ++ field ++ ['_']
    if start.isPrefixOf name then (rowIndex (name.drop start.length)).map fun index => (field, index) else none

abbrev RowValues := List (Text × Text)

def postField (rows : List (Text × RowValues)) (item : Text × Text) : List (Text × RowValues) :=
  match extraField item.1 with
  | some (field, index) => setKey rows index (setKey ((rows.lookup index).getD []) field item.2)
  | none => rows

/-- The posted rows by their index, in the order of their first inputs. -/
def postedRows (items : List (Text × Text)) : List (Text × RowValues) := items.foldl postField []

def rowValue (values : RowValues) (field : String) : Text := strip ((values.lookup field.toList).getD [])

/-- The project of a row; rows with an empty URL are dropped. -/
def rowLibrary (values : RowValues) : Option KnownLibrary :=
  if (rowValue values "url").isEmpty then none
  else some { url := rowValue values "url", ref := orNone (rowValue values "ref"), path := orNone (rowValue values "path") }

def typedLibraries (items : List (Text × Text)) : List KnownLibrary := (postedRows items).filterMap fun row => rowLibrary row.2

/-- `_parse_extra_projects` of the form's items, the values as texts. -/
def parseExtraProjects (items : List (Text × Text)) : List Json := (typedLibraries items).map libraryEntry

structure TypedLibrary (library : KnownLibrary) : Prop extends LibraryOk library where
  path_strip : ∀ path ∈ library.path, strip path = path
  ref_strip : ∀ ref ∈ library.ref, strip ref = ref

theorem mem_orNone {value text : Text} (h : text ∈ orNone value) : text = value := by
  unfold orNone at h
  split at h
  · cases h
  · exact (Option.some.inj h).symm

theorem typedLibraries_typed (items : List (Text × Text)) : ∀ library ∈ typedLibraries items, TypedLibrary library := by
  intro library h
  obtain ⟨row, -, hrow⟩ := List.mem_filterMap.mp h
  unfold rowLibrary at hrow
  split at hrow
  · cases hrow
  · rename_i hurl
    cases hrow
    refine ⟨⟨by simpa using hurl, strip_strip _, orNone_ne _, orNone_ne _⟩, ?_, ?_⟩
    · intro path hpath
      rw [mem_orNone hpath]
      exact strip_strip _
    · intro ref href
      rw [mem_orNone href]
      exact strip_strip _

/-- A row with the texts of its inputs. -/
structure ExtraRow where
  index : Text
  url : Text
  ref : Text
  path : Text

def inputName (field : String) (index : Text) : Text := "extra_".toList ++ field.toList ++ ['_'] ++ index

def rowItems (row : ExtraRow) : List (Text × Text) :=
  [(inputName "url" row.index, row.url), (inputName "ref" row.index, row.ref), (inputName "path" row.index, row.path)]

/-- The rows the form comes with. -/
def prefilledRows (libraries : List KnownLibrary) : List ExtraRow :=
  libraries.zipIdx.map fun entry => ⟨decimal entry.2, entry.1.url, entry.1.ref.getD [], entry.1.path.getD []⟩

def rowValues (row : ExtraRow) : RowValues := [("url".toList, row.url), ("ref".toList, row.ref), ("path".toList, row.path)]

structure IndexOk (index : Text) : Prop where
  nonempty : index ≠ []
  line : '\n' ∉ index

theorem extraField_input {index : Text} (h : IndexOk index) :
    extraField (inputName "url" index) = some ("url".toList, index) ∧
      extraField (inputName "ref" index) = some ("ref".toList, index) ∧
        extraField (inputName "path" index) = some ("path".toList, index) := by
  have hindex : rowIndex index = some index := by
    have hlast : index.getLast? ≠ some '\n' := fun hl => h.line (List.mem_of_getLast? hl)
    unfold rowIndex
    simp [hlast, h.nonempty, h.line]
  unfold extraField inputName
  refine ⟨?_, ?_, ?_⟩
  · simp [List.isPrefixOf, hindex]
  · simp [List.isPrefixOf, hindex]
  · simp [List.isPrefixOf, hindex]

theorem foldl_rowItems {rows : List (Text × RowValues)} {row : ExtraRow} (h : IndexOk row.index)
    (hnew : row.index ∉ rows.map Prod.fst) :
    (rowItems row).foldl postField rows = rows ++ [(row.index, rowValues row)] := by
  obtain ⟨hurl, href, hpath⟩ := extraField_input h
  have hstep : ∀ (values : RowValues) (field value : Text), setKey (rows ++ [(row.index, values)]) row.index
      (setKey (((rows ++ [(row.index, values)]).lookup row.index).getD []) field value) =
        rows ++ [(row.index, setKey values field value)] := by
    intro values field value
    rw [lookup_append_self hnew, setKey_append_self hnew, Option.getD_some]
  unfold rowItems
  rw [List.foldl_cons, List.foldl_cons, List.foldl_cons, List.foldl_nil]
  unfold postField
  dsimp only
  rw [hurl, href, hpath]
  dsimp only
  rw [lookup_of_not_mem hnew, setKey_of_not_mem hnew, hstep, hstep]
  rfl

theorem foldl_skipped {items : List (Text × Text)} (h : ∀ item ∈ items, extraField item.1 = none) (rows : List (Text × RowValues)) :
    items.foldl postField rows = rows := by
  induction items generalizing rows with
  | nil => rfl
  | cons item items ih =>
    rw [List.forall_mem_cons] at h
    rw [List.foldl_cons]
    unfold postField
    rw [h.1]
    exact ih h.2 rows

theorem foldl_rows {page : List ExtraRow} (hok : ∀ row ∈ page, IndexOk row.index) (hnodup : (page.map ExtraRow.index).Nodup)
    {rows : List (Text × RowValues)} (hnew : ∀ row ∈ page, row.index ∉ rows.map Prod.fst) :
    (page.flatMap rowItems).foldl postField rows = rows ++ page.map fun row => (row.index, rowValues row) := by
  induction page generalizing rows with
  | nil => simp
  | cons row page ih =>
    rw [List.forall_mem_cons] at hok hnew
    rw [List.map_cons, List.nodup_cons] at hnodup
    rw [List.flatMap_cons, List.foldl_append, foldl_rowItems hok.1 hnew.1, ih hok.2 hnodup.2]
    · simp
    · intro other hother
      rw [List.map_append, List.mem_append, not_or]
      refine ⟨hnew.2 other hother, ?_⟩
      rw [List.map_singleton, List.mem_singleton]
      intro heq
      exact hnodup.1 (List.mem_map.mpr ⟨other, hother, heq⟩)

/-- The project a row types, if it has a URL. -/
def typedRow (row : ExtraRow) : Option KnownLibrary :=
  if (strip row.url).isEmpty then none
  else some { url := strip row.url, ref := orNone (strip row.ref), path := orNone (strip row.path) }

/-- The rows of a page with any other inputs around them: its projects in order. -/
theorem typedLibraries_rows {page : List ExtraRow} (hok : ∀ row ∈ page, IndexOk row.index)
    (hnodup : (page.map ExtraRow.index).Nodup) {before after : List (Text × Text)}
    (hbefore : ∀ item ∈ before, extraField item.1 = none) (hafter : ∀ item ∈ after, extraField item.1 = none) :
    typedLibraries (before ++ page.flatMap rowItems ++ after) = page.filterMap typedRow := by
  unfold typedLibraries postedRows
  rw [List.foldl_append, List.foldl_append, foldl_skipped hbefore, foldl_skipped hafter, foldl_rows hok hnodup (by simp),
    List.nil_append, List.filterMap_map]
  rfl

theorem decimal_injective {m n : ℕ} (h : decimal m = decimal n) : m = n := by
  rw [← readDigits_decimal m, h, readDigits_decimal]

theorem indexOk_decimal (n : ℕ) : IndexOk (decimal n) :=
  ⟨decimal_ne_nil n, fun h => absurd (isDigit_decimal n _ h) (by decide)⟩

theorem mem_prefilledRows {libraries : List KnownLibrary} {row : ExtraRow} (h : row ∈ prefilledRows libraries) :
    ∃ n < libraries.length, row.index = decimal n := by
  obtain ⟨⟨library, n⟩, hentry, rfl⟩ := List.mem_map.mp h
  obtain ⟨-, hn, -⟩ := List.mem_zipIdx hentry
  exact ⟨n, by simpa using hn, rfl⟩

theorem nodup_prefilledRows (libraries : List KnownLibrary) : ((prefilledRows libraries).map ExtraRow.index).Nodup := by
  have hindices : (prefilledRows libraries).map ExtraRow.index = (List.range' 0 libraries.length).map decimal := by
    unfold prefilledRows
    rw [List.map_map, ← List.zipIdx_map_snd 0 libraries, List.map_map]
    rfl
  rw [hindices]
  exact List.Nodup.map (fun _ _ => decimal_injective) List.nodup_range'

theorem length_decimal_lt {n : ℕ} (h : n < 10 ^ 7) : (decimal n).length < 8 := by
  by_cases hn : n = 0
  · subst hn
    decide
  · rw [decimal_eq hn, List.length_map, List.length_reverse, Nat.lt_succ_iff, Nat.digits_length_le_iff (by omega)]
    exact h

/-- The indices of the rows that were added: eight characters of a UUID each. -/
structure AddedOk (added : List ExtraRow) : Prop where
  length : ∀ row ∈ added, row.index.length = 8
  line : ∀ row ∈ added, '\n' ∉ row.index
  nodup : (added.map ExtraRow.index).Nodup

theorem page_ok {libraries : List KnownLibrary} (hfew : libraries.length ≤ 10 ^ 7) {kept added : List ExtraRow}
    (hkept : (kept.map ExtraRow.index).Sublist ((prefilledRows libraries).map ExtraRow.index)) (hadded : AddedOk added) :
    (∀ row ∈ kept ++ added, IndexOk row.index) ∧ ((kept ++ added).map ExtraRow.index).Nodup := by
  have hdecimal : ∀ row ∈ kept, ∃ n < libraries.length, row.index = decimal n := by
    intro row hrow
    obtain ⟨shown, hshown, heq⟩ := List.mem_map.mp (hkept.subset (List.mem_map_of_mem hrow))
    rw [← heq]
    exact mem_prefilledRows hshown
  constructor
  · intro row hrow
    rcases List.mem_append.mp hrow with hrow | hrow
    · obtain ⟨n, -, hn⟩ := hdecimal row hrow
      exact hn ▸ indexOk_decimal n
    · refine ⟨?_, hadded.line row hrow⟩
      intro hnil
      have hlength := hadded.length row hrow
      simp [hnil] at hlength
  · rw [List.map_append, List.nodup_append]
    refine ⟨hkept.nodup (nodup_prefilledRows libraries), hadded.nodup, ?_⟩
    intro index hindex other hother heq
    obtain ⟨row, hrow, rfl⟩ := List.mem_map.mp hindex
    obtain ⟨new, hnew, rfl⟩ := List.mem_map.mp hother
    obtain ⟨n, hn, hdec⟩ := hdecimal row hrow
    have hshort := length_decimal_lt (n := n) (by omega)
    have hlong := hadded.length new hnew
    rw [← heq, hdec] at hlong
    omega

theorem orNone_strip_eq_iff {value : Option Text} (h : value ≠ some []) :
    orNone (strip (value.getD [])) = value ↔ ∀ text ∈ value, strip text = text := by
  cases value with
  | none =>
    have hnil : orNone (strip ([] : Text)) = none := rfl
    simp [hnil]
  | some text =>
    have hne : text ≠ [] := by simpa using h
    rw [Option.getD_some]
    constructor
    · intro hsame other hother
      cases hother
      exact (mem_orNone hsame).symm
    · intro hsame
      rw [hsame text rfl]
      simp [orNone, hne]

theorem typedRow_prefilled {library : KnownLibrary} (h : LibraryOk library) (index : Text) :
    ∃ typed, typedRow ⟨index, library.url, library.ref.getD [], library.path.getD []⟩ = some typed ∧
      (typed = library ↔ TypedLibrary library) := by
  refine ⟨⟨library.url, orNone (strip (library.ref.getD [])), orNone (strip (library.path.getD []))⟩, ?_, ?_⟩
  · unfold typedRow
    dsimp only
    rw [h.url_strip, if_neg (by simpa using h.url_ne)]
  · obtain ⟨url, ref, path⟩ := library
    rw [KnownLibrary.mk.injEq, orNone_strip_eq_iff h.ref, orNone_strip_eq_iff h.path]
    constructor
    · rintro ⟨-, href, hpath⟩
      exact ⟨h, hpath, href⟩
    · intro htyped
      exact ⟨rfl, htyped.ref_strip, htyped.path_strip⟩

theorem typedRows_prefilled {libraries : List KnownLibrary} (h : ∀ library ∈ libraries, LibraryOk library) :
    (prefilledRows libraries).filterMap typedRow = libraries ↔ ∀ library ∈ libraries, TypedLibrary library := by
  have hall : ∀ index, ((libraries.zipIdx index).map fun entry : KnownLibrary × ℕ =>
      (⟨decimal entry.2, entry.1.url, entry.1.ref.getD [], entry.1.path.getD []⟩ : ExtraRow)).filterMap typedRow = libraries ↔
        ∀ library ∈ libraries, TypedLibrary library := by
    induction libraries with
    | nil => simp
    | cons library libraries ih =>
      intro index
      rw [List.forall_mem_cons] at h ⊢
      obtain ⟨typed, htyped, hsame⟩ := typedRow_prefilled h.1 (decimal index)
      rw [List.zipIdx_cons, List.map_cons, List.filterMap_cons, htyped]
      dsimp only
      rw [List.cons.injEq, hsame, ih h.2]
  exact hall 0

theorem libraryEntry_injective : Function.Injective libraryEntry := by
  intro a b h
  have hfields : libraryFields a = libraryFields b := Json.obj.inj h
  have hstr : Function.Injective Json.str := fun _ _ => Json.str.inj
  obtain ⟨haurl, haref, hapath⟩ := lookup_libraryFields a
  obtain ⟨hburl, hbref, hbpath⟩ := lookup_libraryFields b
  rw [hfields] at haurl haref hapath
  obtain ⟨url, ref, path⟩ := a
  obtain ⟨url', ref', path'⟩ := b
  rw [KnownLibrary.mk.injEq]
  exact ⟨Json.str.inj (Option.some.inj (haurl.symm.trans hburl)), Option.map_injective hstr (haref.symm.trans hbref),
    Option.map_injective hstr (hapath.symm.trans hbpath)⟩

/-- The items of a form with these rows, between its other inputs. -/
def Posts (page : List ExtraRow) (items : List (Text × Text)) : Prop :=
  ∃ before after, items = before ++ page.flatMap rowItems ++ after ∧
    (∀ item ∈ before, extraField item.1 = none) ∧ ∀ item ∈ after, extraField item.1 = none

theorem Posts.typed {page : List ExtraRow} {items : List (Text × Text)} (h : Posts page items) (hok : ∀ row ∈ page, IndexOk row.index)
    (hnodup : (page.map ExtraRow.index).Nodup) : parseExtraProjects items = (page.filterMap typedRow).map libraryEntry := by
  obtain ⟨before, after, rfl, hbefore, hafter⟩ := h
  unfold parseExtraProjects
  rw [typedLibraries_rows hok hnodup hbefore hafter]

section Page
variable {I : Interpreter} {A : Fernet}

/-- The schedule form, after any submissions of the settings. Rows may have been edited, removed and added: the projects are
those of the rows with a URL, in the order of the page, whatever is posted no project lacks one, and the form as it came
stores the known libraries just if none of them has a ref or a path with blanks at its ends. -/
theorem schedule_form_rows (hI : DecimalDigits I) {row : StoredSettings} {typed : Text} (h : SettingsReached I A row typed)
    (hfew : row.knownLibraries.length ≤ 10 ^ 7) :
    (∀ items, ∀ entry ∈ parseExtraProjects items, ∃ library, TypedLibrary library ∧ entry = libraryEntry library) ∧
      ∃ libraries, row.knownLibraries = libraries.map libraryEntry ∧
        (∀ kept added : List ExtraRow, (kept.map ExtraRow.index).Sublist ((prefilledRows libraries).map ExtraRow.index) → AddedOk added →
          ∀ items, Posts (kept ++ added) items → parseExtraProjects items = ((kept ++ added).filterMap typedRow).map libraryEntry) ∧
        ∀ items, Posts (prefilledRows libraries) items →
          (parseExtraProjects items = row.knownLibraries ↔ ∀ library ∈ libraries, TypedLibrary library) := by
  constructor
  · intro items entry hentry
    obtain ⟨library, hlibrary, rfl⟩ := List.mem_map.mp hentry
    exact ⟨library, typedLibraries_typed items library hlibrary, rfl⟩
  obtain ⟨libraries, hrow, hlibraries⟩ := (h.ok hI).libraries
  have hlength : libraries.length ≤ 10 ^ 7 := by simpa [hrow] using hfew
  refine ⟨libraries, hrow, ?_, ?_⟩
  · intro kept added hkept hadded items hitems
    obtain ⟨hok, hnodup⟩ := page_ok hlength hkept hadded
    exact hitems.typed hok hnodup
  · intro items hitems
    have hadded : AddedOk [] := ⟨by simp, by simp, List.nodup_nil⟩
    obtain ⟨hok, hnodup⟩ := page_ok hlength (List.Sublist.refl _) hadded
    rw [List.append_nil] at hok hnodup
    rw [hitems.typed hok hnodup, hrow, List.map_inj_right fun _ _ h => libraryEntry_injective h]
    exact typedRows_prefilled hlibraries

end Page

def looseSubmission : SettingsSubmission where
  gitlabUrl := "https://gitlab.example.com".toList
  gitlabProject := "group/app".toList
  gitlabToken := []
  defaultReviewPrompt := []
  knownLibraries := "[\x7b\"url\": \"https://git.example.com/liba.git\", \"ref\": \"main \"\x7d]".toList
  nightlyTime := "02:30".toList
  maxConcurrentReviews := "2".toList
  pollIntervalSeconds := "30".toList
  postResultsToGitlab := false

def looseSettings : StoredSettings :=
  (settingsSave Gitlab.plainStdlib.ints (fun _ => true) marking looseSubmission initialSettings).2

def looseItems : List (Text × Text) :=
  [("model_profile_id".toList, ['1']), ("extra_url_0".toList, "https://git.example.com/liba.git".toList),
    ("extra_ref_0".toList, "main ".toList), ("extra_path_0".toList, []), ("post_to_gitlab".toList, "true".toList)]

theorem schedule_form_rows_loose : SettingsReached Gitlab.plainStdlib.ints marking looseSettings [] ∧
    parseExtraProjects looseItems ≠ looseSettings.knownLibraries := by
  have hreached : SettingsReached Gitlab.plainStdlib.ints marking looseSettings [] := reached_marking (by decide +kernel)
  have hstored : (looseSettings.knownLibraries ==
      [libraryEntry ⟨"https://git.example.com/liba.git".toList, some "main ".toList, none⟩]) = true := by
    decide +kernel
  have hstored := eq_of_beq hstored
  obtain ⟨-, libraries, hrow, -, hform⟩ := schedule_form_rows Scheduler.decimalDigits_plain hreached (by rw [hstored]; decide)
  have hlibraries : libraries = [⟨"https://git.example.com/liba.git".toList, some "main ".toList, none⟩] := by
    rw [hstored] at hrow
    exact (List.map_injective_iff.mpr libraryEntry_injective (show List.map libraryEntry [_] = _ from hrow)).symm
  subst hlibraries
  have hposts : Posts (prefilledRows [⟨"https://git.example.com/liba.git".toList, some "main ".toList, none⟩]) looseItems := by
    refine ⟨[("model_profile_id".toList, ['1'])], [("post_to_gitlab".toList, "true".toList)], by decide +kernel, ?_, ?_⟩ <;>
      decide +kernel
  refine ⟨hreached, fun hsame => ?_⟩
  have hstrip := ((hform looseItems hposts).mp hsame _ (List.mem_singleton.mpr rfl)).ref_strip _ rfl
  exact absurd hstrip (by decide +kernel)

end GitlabReviewer.Scheduling
