import GitlabReviewer.Libraries.Entries
import GitlabReviewer.Python.JsonEquality
import GitlabReviewer.Python.JsonScanner

/-! # The paths of normalized entries

A path names the directory of its segments, however many slashes stand around
them. An entry that normalization leaves without a usable path has a url that
gives none, or one whose name is all blanks.
-/
namespace GitlabReviewer.Libraries
open Python

theorem components_nil : components [] = [] := rfl

theorem components_append (a b : Text) : components (a ++ '/' :: b) = components a ++ components b := by
  simp only [components, splitOn_append, List.filter_append]

theorem components_dropSlashes (s : Text) : components (s.dropWhile (· == '/')) = components s := by
  induction s with
  | nil => rfl
  | cons c s ih =>
    by_cases hc : c = '/'
    · subst hc
      have hcut := components_append [] s
      rw [List.nil_append, components_nil, List.nil_append] at hcut
      rw [List.dropWhile_cons_of_pos (by simp), ih, hcut]
    · rw [List.dropWhile_cons_of_neg (by simpa using hc)]

theorem components_rdropSlashes (s : Text) : components (s.rdropWhile (· == '/')) = components s := by
  induction s using List.reverseRecOn with
  | nil => rfl
  | append_singleton s c ih =>
    by_cases hc : c = '/'
    · subst hc
      rw [List.rdropWhile_concat_pos _ _ _ (by simp), ih, components_append, components_nil, List.append_nil]
    · rw [List.rdropWhile_concat_neg _ _ _ (by simpa using hc)]

theorem components_stripSlashes (s : Text) : components (stripSlashes s) = components s := by
  unfold stripSlashes stripBy
  rw [components_rdropSlashes, components_dropSlashes]

theorem flatten_splitOn (sep : Char) (s : Text) : (splitOn sep s).flatten = s.filter (· ≠ sep) := by
  induction s with
  | nil => rfl
  | cons c s ih =>
    obtain ⟨head, tail, hsplit⟩ := List.exists_cons_of_ne_nil (splitOn_ne_nil sep s)
    rw [hsplit, List.flatten_cons] at ih
    by_cases hc : c = sep
    · simp [splitOn, hc, hsplit, ih]
    · simp [splitOn, hc, hsplit, ih]

/-- What is left out of a path has no blanks. -/
theorem countP_components (s : Text) : (components s).flatten.countP isSpace = s.countP isSpace := by
  have hdropped : ∀ segments : List Text, ((segments.filter fun t => !t.isEmpty && t != dot).flatten).countP isSpace =
      segments.flatten.countP isSpace := by
    intro segments
    induction segments with
    | nil => rfl
    | cons t segments ih =>
      rw [List.filter_cons]
      split
      · rw [List.flatten_cons, List.flatten_cons, List.countP_append, List.countP_append, ih]
      · rename_i hout
        have hzero : t.countP isSpace = 0 := by
          rw [Bool.and_eq_true, not_and_or] at hout
          rcases hout with hempty | hdot
          · have ht : t = [] := by simpa using hempty
            rw [ht]
            rfl
          · have ht : t = dot := by simpa using hdot
            rw [ht]
            rfl
        rw [List.flatten_cons, List.countP_append, hzero, Nat.zero_add, ih]
  unfold components
  rw [hdropped, flatten_splitOn, List.countP_filter]
  apply List.countP_congr
  intro c _
  rw [Bool.and_eq_true, decide_eq_true_eq]
  constructor
  · exact fun h => h.1
  · rintro h
    refine ⟨h, ?_⟩
    rintro rfl
    cases h

/-- Stripping the blanks off a path changes its directory, if it changes the path. -/
theorem strip_eq_self {s : Text} (h : components (strip s) = components s) : strip s = s := by
  have hcount := congrArg (fun p => (List.flatten p).countP isSpace) h
  simp only [countP_components] at hcount
  have hleft : (s.takeWhile isSpace).countP isSpace = (s.takeWhile isSpace).length :=
    List.countP_eq_length.mpr fun c hc => List.mem_takeWhile_imp hc
  have hright : ((s.dropWhile isSpace).rtakeWhile isSpace).countP isSpace =
      ((s.dropWhile isSpace).rtakeWhile isSpace).length :=
    List.countP_eq_length.mpr fun c hc => List.mem_rtakeWhile_imp hc
  have hdrop : strip s ++ (s.dropWhile isSpace).rtakeWhile isSpace = s.dropWhile isSpace :=
    List.rdropWhile_append_rtakeWhile
  have hwhole : s.takeWhile isSpace ++ s.dropWhile isSpace = s := List.takeWhile_append_dropWhile
  have htotal : s.countP isSpace = (s.takeWhile isSpace).length + ((strip s).countP isSpace +
      ((s.dropWhile isSpace).rtakeWhile isSpace).length) := by
    rw [← hleft, ← hright, ← List.countP_append, hdrop, ← List.countP_append, hwhole]
  have hnil : s.takeWhile isSpace = [] := List.eq_nil_of_length_eq_zero (by omega)
  have hnil' : (s.dropWhile isSpace).rtakeWhile isSpace = [] := List.eq_nil_of_length_eq_zero (by omega)
  rw [hnil', List.append_nil] at hdrop
  rw [hnil, List.nil_append, ← hdrop] at hwhole
  exact hwhole

section Entry
variable {E : Runtime} {fields : List (Text × Json)} {name : Text}

theorem field_setField_ne {key other : String} (h : other.toList ≠ key.toList) (value : Json) :
    field E other (setField key value fields) = field E other fields := by
  unfold field
  rw [setField_eq, Foundation.lookup_setKey_ne _ _ h]

theorem field_setPath : field E "path" (setField "path" (.str name) fields) = name := by
  unfold field
  rw [lookup_setField]
  cases name <;> simp [truthyJson, toText]

theorem entryUrl_setPath (value : Json) : entryUrl E (setField "path" value fields) = entryUrl E fields := by
  unfold entryUrl
  rw [field_setField_ne (by decide)]

end Entry

section Normalized
variable {E : Runtime} {F : FloatFormat} {owner : List (Text × Text)} {entries out : List Json}

/-- The name the url of an entry gives is of no use. -/
def Underivable (E : Runtime) (fields : List (Text × Json)) : Prop :=
  ∃ name, derivePath E (entryUrl E fields) = some name ∧ (name = [] ∨ dotdot ∈ splitOn '/' name)

/-- One normalized entry and where it comes from. -/
inductive Origin (E : Runtime) (entries : List Json) : Json → Prop
  | other {entry : Json} (h : entry ∈ entries) (hobj : ∀ fields, entry ≠ .obj fields) : Origin E entries entry
  | kept {fields : List (Text × Json)} (h : .obj fields ∈ entries)
      (hkept : entryUrl E fields = [] ∨ explicitPath E fields ≠ [] ∨ Underivable E fields) :
      Origin E entries (.obj fields)
  | derived {fields : List (Text × Json)} {base : Text} (h : .obj fields ∈ entries) (owner : List (Text × Text))
      (hbase : derivePath E (entryUrl E fields) = some base) :
      Origin E entries (.obj (setField "path" (.str (ownName E owner (entryUrl E fields) base)) fields))

theorem Origin.cons {entry : Json} (first : Json) (h : Origin E entries entry) : Origin E (first :: entries) entry := by
  cases h with
  | other h hobj => exact .other (List.mem_cons_of_mem _ h) hobj
  | kept h hkept => exact .kept (List.mem_cons_of_mem _ h) hkept
  | derived h owner hbase => exact .derived (List.mem_cons_of_mem _ h) owner hbase

theorem origin_of_mem (h : normalizeFrom E owner entries = some out) {entry : Json} (he : entry ∈ out) :
    Origin E entries entry := by
  induction entries generalizing owner out with
  | nil =>
    cases h
    cases he
  | cons first rest ih =>
    have hnext : ∀ {owner : List (Text × Text)} {head : Json}, Origin E (first :: rest) head →
        (normalizeFrom E owner rest).map (head :: ·) = some out → Origin E (first :: rest) entry := by
      intro owner head hhead h
      obtain ⟨tail, htail, rfl⟩ := Option.map_eq_some_iff.mp h
      rcases List.mem_cons.mp he with rfl | he
      · exact hhead
      · exact (ih htail he).cons first
    cases first with
    | obj fields =>
      unfold normalizeFrom at h
      dsimp only at h
      split at h
      · rename_i hkept
        refine hnext (.kept List.mem_cons_self ?_) h
        rw [Bool.or_eq_true, List.isEmpty_iff, Bool.not_eq_true', List.isEmpty_eq_false_iff] at hkept
        exact hkept.imp_right .inl
      · obtain ⟨base, hbase, h⟩ := Option.bind_eq_some_iff.mp h
        split at h
        · rename_i hname
          refine hnext (.kept List.mem_cons_self (.inr (.inr ⟨base, hbase, ?_⟩))) h
          rwa [Bool.or_eq_true, List.isEmpty_iff, List.contains_iff_mem] at hname
        · exact hnext (.derived List.mem_cons_self owner hbase) h
    | null => exact hnext (.other List.mem_cons_self (by simp)) h
    | bool b => exact hnext (.other List.mem_cons_self (by simp)) h
    | int n => exact hnext (.other List.mem_cons_self (by simp)) h
    | float f => exact hnext (.other List.mem_cons_self (by simp)) h
    | str s => exact hnext (.other List.mem_cons_self (by simp)) h
    | arr items => exact hnext (.other List.mem_cons_self (by simp)) h

theorem dumpable_normalizeFrom (hd : ∀ entry ∈ entries, Dumpable F entry)
    (h : normalizeFrom E owner entries = some out) {entry : Json} (he : entry ∈ out) : Dumpable F entry := by
  cases origin_of_mem h he with
  | other h _ => exact hd _ h
  | kept h _ => exact hd _ h
  | derived h owner _ =>
    have hfields := hd _ h
    rw [Dumpable, dumpableFields_iff] at hfields ⊢
    rw [setField_eq, ← insertField_eq]
    exact ⟨insertField_keys hfields.1 _ _, dumpable_insertField hfields.2 _ trivial⟩

/-- A name with a suffix is more than blanks. -/
theorem explicitPath_suffixed {fields : List (Text × Json)} (name digest : Text) :
    explicitPath E (setField "path" (.str (name ++ '-' :: digest)) fields) ≠ [] := by
  have hmem : '-' ∈ explicitPath E (setField "path" (.str (name ++ '-' :: digest)) fields) := by
    unfold explicitPath
    rw [field_setPath]
    exact mem_stripBy (mem_stripBy (by simp) (by decide)) (by decide)
  exact List.ne_nil_of_mem hmem

/-- An entry with a url and without a usable path has a url of no use, or the
blank path that its url gives. -/
theorem derived_of_blank (h : normalizeFrom E owner entries = some out) {fields : List (Text × Json)}
    (he : .obj fields ∈ out) (hurl : entryUrl E fields ≠ []) (hblank : explicitPath E fields = []) :
    Underivable E fields ∨ derivePath E (entryUrl E fields) = some (field E "path" fields) := by
  have hall : ∀ {entry : Json}, Origin E entries entry → entry = .obj fields →
      Underivable E fields ∨ derivePath E (entryUrl E fields) = some (field E "path" fields) := by
    intro entry horigin heq
    cases horigin with
    | other _ hobj => exact absurd heq (hobj fields)
    | kept _ hkept =>
      cases heq
      rcases hkept with hnone | hexplicit | hunder
      · exact absurd hnone hurl
      · exact absurd hblank hexplicit
      · exact .inl hunder
    | @derived fields' base _ owner hbase =>
      cases heq
      right
      rw [entryUrl_setPath, field_setPath, hbase]
      unfold ownName at hblank ⊢
      split at hblank
      · split at hblank
        · exact absurd hblank (explicitPath_suffixed _ _)
        · rename_i hown
          rw [if_neg hown]
      · rfl
  exact hall (origin_of_mem h he) rfl

end Normalized

end GitlabReviewer.Libraries
