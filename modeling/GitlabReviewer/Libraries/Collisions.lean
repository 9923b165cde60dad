import GitlabReviewer.Libraries.Paths

/-! # Names that collide

The table of owners knows the names given so far. It keeps two urls with the
same last segment apart; it does not know the explicit paths, a name with a
suffix is not compared with the names of other urls, and blanks count in a name
that is stripped when it is read. These are all the ways two urls can get one path.
-/
namespace GitlabReviewer.Libraries
open Python

section Names
variable (E : Runtime)

def urlOf : Json → Text
  | .obj fields => entryUrl E fields
  | _ => []

/-- A url stands where a path is missing. -/
def Unnamed : Json → Prop
  | .obj fields => entryUrl E fields ≠ [] ∧ explicitPath E fields = []
  | _ => False

/-- The name the url of an unnamed entry gives, if it is of any use. -/
def plainName : Json → Option Text
  | .obj fields =>
      if (entryUrl E fields).isEmpty || !(explicitPath E fields).isEmpty then none
      else (derivePath E (entryUrl E fields)).filter fun name => !(name.isEmpty || (splitOn '/' name).contains dotdot)
  | _ => none

def suffixed (url name : Text) : Text := name ++ '-' :: E.digest url

def named (name : Text) : Json → Json
  | .obj fields => .obj (setField "path" (.str name) fields)
  | entry => entry

/-- `urlsplit` raises on the url a path has to be derived from. -/
def Rejected (entry : Json) : Prop := Unnamed E entry ∧ derivePath E (urlOf E entry) = none

end Names

section Normalize
variable {E : Runtime} {owner : List (Text × Text)} {entry : Json} {rest entries out : List Json}

theorem plainName_spec {name : Text} (h : plainName E entry = some name) :
    ∃ fields, entry = .obj fields ∧ Unnamed E entry ∧ derivePath E (entryUrl E fields) = some name ∧
      name ≠ [] ∧ dotdot ∉ splitOn '/' name := by
  unfold plainName at h
  split at h
  · rename_i fields
    split at h
    · cases h
    · rename_i hgiven
      obtain ⟨hbase, huseful⟩ := Option.filter_eq_some_iff.mp h
      have hunnamed : entryUrl E fields ≠ [] ∧ explicitPath E fields = [] := by simpa using hgiven
      have huse : name ≠ [] ∧ dotdot ∉ splitOn '/' name := by simpa using huseful
      exact ⟨fields, rfl, hunnamed, hbase, huse⟩
  · cases h

/-- One entry of the pass: kept, or named after its url. -/
theorem normalizeFrom_cons : normalizeFrom E owner (entry :: rest) = some out ↔
    ¬ Rejected E entry ∧ ∃ tail, match plainName E entry with
      | none => out = entry :: tail ∧ normalizeFrom E owner rest = some tail
      | some name => out = named (ownName E owner (urlOf E entry) name) entry :: tail ∧
          normalizeFrom E ((ownName E owner (urlOf E entry) name, urlOf E entry) :: owner) rest = some tail := by
  have hkept : ∀ {e : Json} {owner : List (Text × Text)}, (normalizeFrom E owner rest).map (e :: ·) = some out ↔
      ∃ tail, out = e :: tail ∧ normalizeFrom E owner rest = some tail := by
    intro e owner
    rw [Option.map_eq_some_iff]
    constructor
    · rintro ⟨tail, htail, rfl⟩
      exact ⟨tail, rfl, htail⟩
    · rintro ⟨tail, rfl, htail⟩
      exact ⟨tail, htail, rfl⟩
  cases entry with
  | obj fields =>
    rw [normalizeFrom]
    unfold Rejected Unnamed plainName urlOf
    dsimp only
    by_cases hgiven : ((entryUrl E fields).isEmpty || !(explicitPath E fields).isEmpty) = true
    · rw [if_pos hgiven, if_pos hgiven, hkept]
      refine ⟨fun h => ⟨?_, h⟩, fun h => h.2⟩
      rintro ⟨⟨hurl, hpath⟩, -⟩
      rw [hpath, List.isEmpty_eq_false_iff.mpr hurl] at hgiven
      cases hgiven
    · rw [if_neg hgiven, if_neg hgiven]
      have hunnamed : entryUrl E fields ≠ [] ∧ explicitPath E fields = [] := by simpa using hgiven
      cases hbase : derivePath E (entryUrl E fields) with
      | none =>
        constructor
        · intro h
          cases h
        · intro h
          exact absurd ⟨hunnamed, rfl⟩ h.1
      | some name =>
        rw [Option.filter_some]
        have haccepted : ¬ ((entryUrl E fields ≠ [] ∧ explicitPath E fields = []) ∧ (some name : Option Text) = none) := by
          simp
        cases huseless : (name.isEmpty || (splitOn '/' name).contains dotdot) with
        | true =>
          rw [Option.bind_eq_bind, Option.bind_some, if_pos huseless, if_neg (by simp), hkept]
          exact ⟨fun h => ⟨haccepted, h⟩, fun h => h.2⟩
        | false =>
          rw [Option.bind_eq_bind, Option.bind_some, if_neg (by rw [huseless]; decide),
            if_pos (show (!false) = true from rfl), hkept]
          exact ⟨fun h => ⟨haccepted, h⟩, fun h => h.2⟩
  | null => exact hkept.trans ⟨fun h => ⟨fun hno => hno.1, h⟩, fun h => h.2⟩
  | bool b => exact hkept.trans ⟨fun h => ⟨fun hno => hno.1, h⟩, fun h => h.2⟩
  | int n => exact hkept.trans ⟨fun h => ⟨fun hno => hno.1, h⟩, fun h => h.2⟩
  | float f => exact hkept.trans ⟨fun h => ⟨fun hno => hno.1, h⟩, fun h => h.2⟩
  | str s => exact hkept.trans ⟨fun h => ⟨fun hno => hno.1, h⟩, fun h => h.2⟩
  | arr items => exact hkept.trans ⟨fun h => ⟨fun hno => hno.1, h⟩, fun h => h.2⟩

/-- The pass raises on these entries and on no others. -/
theorem exists_normalizeFrom : (∃ out, normalizeFrom E owner entries = some out) ↔
    ∀ entry ∈ entries, ¬ Rejected E entry := by
  induction entries generalizing owner with
  | nil => simp [normalizeFrom]
  | cons entry rest ih =>
    rw [List.forall_mem_cons]
    constructor
    · rintro ⟨out, hout⟩
      obtain ⟨hok, tail, htail⟩ := normalizeFrom_cons.mp hout
      refine ⟨hok, ?_⟩
      cases hname : plainName E entry with
      | none =>
        rw [hname] at htail
        exact ih.mp ⟨tail, htail.2⟩
      | some name =>
        rw [hname] at htail
        exact ih.mp ⟨tail, htail.2⟩
    · rintro ⟨hok, hrest⟩
      simp only [normalizeFrom_cons]
      cases hname : plainName E entry with
      | none =>
        obtain ⟨tail, htail⟩ : ∃ tail, normalizeFrom E owner rest = some tail := ih.mpr hrest
        exact ⟨_, hok, tail, rfl, htail⟩
      | some name =>
        obtain ⟨tail, htail⟩ := ih.mpr hrest
        exact ⟨_, hok, tail, rfl, htail⟩

/-- The pass as a derivation. -/
inductive Normalizes (E : Runtime) : List (Text × Text) → List Json → List Json → Prop
  | nil (owner : List (Text × Text)) : Normalizes E owner [] []
  | keep {owner : List (Text × Text)} {entry : Json} {rest tail : List Json} (hname : plainName E entry = none)
      (h : Normalizes E owner rest tail) : Normalizes E owner (entry :: rest) (entry :: tail)
  | name {owner : List (Text × Text)} {entry : Json} {rest tail : List Json} {name : Text}
      (hname : plainName E entry = some name)
      (h : Normalizes E ((ownName E owner (urlOf E entry) name, urlOf E entry) :: owner) rest tail) :
      Normalizes E owner (entry :: rest) (named (ownName E owner (urlOf E entry) name) entry :: tail)

theorem normalizes_of (h : normalizeFrom E owner entries = some out) : Normalizes E owner entries out := by
  induction entries generalizing owner out with
  | nil =>
    cases h
    exact .nil owner
  | cons entry rest ih =>
    obtain ⟨-, tail, htail⟩ := normalizeFrom_cons.mp h
    cases hname : plainName E entry with
    | none =>
      rw [hname] at htail
      obtain ⟨rfl, htail⟩ := htail
      exact .keep hname (ih htail)
    | some name =>
      rw [hname] at htail
      obtain ⟨rfl, htail⟩ := htail
      exact .name hname (ih htail)

namespace Normalizes

theorem length (h : Normalizes E owner entries out) : out.length = entries.length := by
  induction h with
  | nil => rfl
  | keep _ _ ih => simp [ih]
  | name _ _ ih => simp [ih]

/-- An entry is kept, or has its plain name or the one with the suffix. -/
theorem entry_cases (h : Normalizes E owner entries out) : ∀ x ∈ entries.zip out,
    (plainName E x.1 = none ∧ x.2 = x.1) ∨ ∃ name, plainName E x.1 = some name ∧
      (x.2 = named name x.1 ∨ x.2 = named (suffixed E (urlOf E x.1) name) x.1) := by
  induction h with
  | nil => simp
  | keep hname _ ih =>
    intro x hx
    rcases List.mem_cons.mp hx with rfl | hx
    · exact .inl ⟨hname, rfl⟩
    · exact ih x hx
  | @name owner entry rest tail name hname _ ih =>
    intro x hx
    rcases List.mem_cons.mp hx with rfl | hx
    · refine .inr ⟨name, hname, ?_⟩
      unfold ownName
      split
      · split
        · exact .inr rfl
        · exact .inl rfl
      · exact .inl rfl
    · exact ih x hx

end Normalizes

end Normalize

section Paths
variable (E : Runtime)

/-- The first six digits of a SHA-1, and different ones for the urls of the list. -/
structure Digests (entries : List Json) : Prop where
  length : ∀ url, (E.digest url).length = 6
  hex : ∀ url, ∀ c ∈ E.digest url, c ∈ "0123456789abcdef".toList
  distinct : ∀ e ∈ entries, ∀ f ∈ entries, E.digest (urlOf E e) = E.digest (urlOf E f) → urlOf E e = urlOf E f

/-- The last entry that was given this one's name belongs to another url.
`before` holds the entries that come before, the last one first. -/
def late : List Json → Json → Bool
  | [], _ => false
  | f :: before, e =>
      match plainName E f with
      | none => late before e
      | some name =>
          if plainName E e = some (if late before f then suffixed E (urlOf E f) name else name) then
            decide (urlOf E f ≠ urlOf E e)
          else late before e

/-- The name an entry without a path gets after these entries. -/
def derivedName (before : List Json) (e : Json) : Option Text :=
  (plainName E e).map fun name => if late E before e then suffixed E (urlOf E e) name else name

/-- The entry stands in the list after the entries of `before`, the last one first. -/
def Stands (entries before : List Json) (e : Json) : Prop := ∃ after, entries = before.reverse ++ e :: after

/-- The ways in which entries of two urls come to the same path. -/
inductive Clash (entries : List Json) : Prop
  | explicit {e f : Json} {p : Text} (he : e ∈ entries) (hf : f ∈ entries) (hne : urlOf E e ≠ urlOf E f)
      (hp : libraryRelpath E e = some p) (hq : libraryRelpath E f = some p)
  | derived {e f : Json} {before : List Json} {name : Text} (he : e ∈ entries) (hf : Stands entries before f)
      (hne : urlOf E e ≠ urlOf E f) (hname : derivedName E before f = some name)
      (hp : libraryRelpath E e = some (strip name))
  | suffix {e f : Json} {before before' : List Json} {name name' : Text} (he : Stands entries before e)
      (hf : Stands entries before' f) (hne : urlOf E e ≠ urlOf E f) (hname : plainName E e = some name)
      (hname' : plainName E f = some name') (hlate : late E before e = true) (hplain : late E before' f = false)
      (h : strip (suffixed E (urlOf E e) name) = strip name')
  | blanks {e f : Json} {before before' : List Json} {name name' : Text} (he : Stands entries before e)
      (hf : Stands entries before' f) (hne : urlOf E e ≠ urlOf E f) (hname : plainName E e = some name)
      (hname' : plainName E f = some name') (hplain : late E before e = false) (hplain' : late E before' f = false)
      (h : strip name = strip name') (hused : strip name ≠ [] ∧ strip name ≠ dotdot)

end Paths

section Relpaths
variable {E : Runtime} {owner : List (Text × Text)} {entries out rest before : List Json} {entry e f : Json}

/-- Stripping stops at an end without blanks. -/
theorem strip_append_solid {b : Text} (a : Text) (hb : ∀ c ∈ b, isSpace c = false) (hbne : b ≠ []) :
    strip (a ++ b) = a.dropWhile isSpace ++ b := by
  obtain ⟨b', last, rfl⟩ := List.eq_nil_or_concat' b |>.resolve_left hbne
  have hsolid : (b' ++ [last]).dropWhile isSpace = b' ++ [last] := by
    cases b' with
    | nil => exact List.dropWhile_cons_of_neg (by simp [hb last])
    | cons c b' => exact List.dropWhile_cons_of_neg (by simp [hb c])
  have hleft : (a ++ (b' ++ [last])).dropWhile isSpace = a.dropWhile isSpace ++ (b' ++ [last]) := by
    rw [List.dropWhile_append]
    split
    · rename_i hblank
      rw [List.isEmpty_iff.mp hblank, hsolid, List.nil_append]
    · rfl
  have hlast : ¬ isSpace last = true := by simp [hb last]
  unfold strip stripBy
  rw [hleft, ← List.append_assoc, List.rdropWhile_concat_neg _ _ _ hlast]

theorem strip_append {a b : Text} (ha : strip a = a) (hb : ∀ c ∈ b, isSpace c = false) (hbne : b ≠ []) :
    strip (a ++ b) = a ++ b := by
  have hkept : a.dropWhile isSpace = a := by
    refine (List.dropWhile_suffix isSpace).eq_of_length (le_antisymm (List.dropWhile_suffix isSpace).length_le ?_)
    calc a.length = (strip a).length := by rw [ha]
      _ ≤ (a.dropWhile isSpace).length := (List.rdropWhile_prefix isSpace _).length_le
  rw [strip_append_solid a hb hbne, hkept]

/-- The path read from a name without slashes. -/
def usable (m : Text) : Option Text := if strip m = [] ∨ strip m = dotdot then none else some (strip m)

theorem usable_eq_some {m p : Text} : usable m = some p ↔ p = strip m ∧ strip m ≠ [] ∧ strip m ≠ dotdot := by
  unfold usable
  split
  · rename_i hlost
    constructor
    · intro h
      cases h
    · rintro ⟨-, hne, hdots⟩
      exact absurd hlost (not_or.mpr ⟨hne, hdots⟩)
  · rename_i hused
    rw [Option.some.injEq, eq_comm]
    exact ⟨fun h => ⟨h, not_or.mp hused⟩, fun h => h.1⟩

theorem relpath_of_named {name m : Text} (h : plainName E entry = some name) (hslash : '/' ∉ m) :
    libraryRelpath E (named m entry) = usable m := by
  obtain ⟨fields, rfl, -⟩ := plainName_spec h
  have hslash' : '/' ∉ strip m := fun hc => hslash ((List.dropWhile_sublist _).subset
    ((List.rdropWhile_prefix isSpace _).sublist.subset hc))
  have hpath : explicitPath E (setField "path" (.str m) fields) = strip m := by
    unfold explicitPath
    rw [field_setPath]
    apply stripBy_of_forall
    rintro c hc
    rw [beq_eq_false_iff_ne]
    rintro rfl
    exact hslash' hc
  have hused : ((strip m).isEmpty || (splitOn '/' (strip m)).contains dotdot) = true ↔
      strip m = [] ∨ strip m = dotdot := by
    rw [splitOn_of_not_mem hslash']
    simp only [Bool.or_eq_true, List.isEmpty_iff, List.contains_iff_mem, List.mem_singleton]
    exact or_congr_right eq_comm
  unfold named libraryRelpath usable
  dsimp only
  simp only [hpath, hused]

theorem relpath_named {name m : Text} (h : plainName E entry = some name) (hslash : '/' ∉ m) (hstrip : strip m = m)
    (hne : m ≠ []) (hdots : m ≠ dotdot) : libraryRelpath E (named m entry) = some m := by
  rw [relpath_of_named h hslash, usable_eq_some, hstrip]
  exact ⟨rfl, hne, hdots⟩

/-- An entry with a usable path has no use for a derived one. -/
theorem relpath_given {p : Text} (h : libraryRelpath E entry = some p) :
    plainName E entry = none ∧ p ≠ [] ∧ p ≠ dotdot := by
  cases entry with
  | obj fields =>
    unfold libraryRelpath at h
    dsimp only at h
    split at h
    · cases h
    · rename_i hused
      obtain rfl := Option.some.inj h
      have hparts : explicitPath E fields ≠ [] ∧ dotdot ∉ splitOn '/' (explicitPath E fields) := by simpa using hused
      refine ⟨?_, hparts.1, fun he => hparts.2 ?_⟩
      · unfold plainName
        dsimp only
        rw [if_pos (by simp [hparts.1])]
      · rw [he]
        decide
  | _ => cases h

/-- The digits of a suffix bring no slash and no blank. -/
theorem suffix_solid {url : Text} (hhex : ∀ c ∈ E.digest url, c ∈ "0123456789abcdef".toList) :
    ∀ c ∈ '-' :: E.digest url, isSpace c = false ∧ c ≠ '/' := by
  intro c hc
  rcases List.mem_cons.mp hc with rfl | hc
  · decide
  · have hall : "0123456789abcdef".toList.all (fun c => !isSpace c && c != '/') = true := rfl
    simpa using List.all_eq_true.mp hall c (hhex c hc)

theorem suffixed_parts {url name : Text} (hhex : ∀ c ∈ E.digest url, c ∈ "0123456789abcdef".toList) (hslash : '/' ∉ name)
    (hstrip : strip name = name) :
    '/' ∉ suffixed E url name ∧ strip (suffixed E url name) = suffixed E url name := by
  constructor
  · unfold suffixed
    rw [List.mem_append, not_or]
    exact ⟨hslash, fun hc => (suffix_solid hhex _ hc).2 rfl⟩
  · exact strip_append hstrip (fun c hc => (suffix_solid hhex c hc).1) (List.cons_ne_nil _ _)

theorem strip_suffixed {url : Text} (hhex : ∀ c ∈ E.digest url, c ∈ "0123456789abcdef".toList) (name : Text) :
    strip (suffixed E url name) = suffixed E url (name.dropWhile isSpace) :=
  strip_append_solid name (fun c hc => (suffix_solid hhex c hc).1) (List.cons_ne_nil _ _)

theorem suffixed_ne_dotdot (url name : Text) : suffixed E url name ≠ dotdot := by
  intro heq
  have hmem : '-' ∈ suffixed E url name := by simp [suffixed]
  rw [heq] at hmem
  exact absurd hmem (by decide)

theorem suffixed_ne (hd : Digests E entries) (he : e ∈ entries) (hf : f ∈ entries)
    (hne : urlOf E e ≠ urlOf E f) (name name' : Text) : suffixed E (urlOf E e) name ≠ suffixed E (urlOf E f) name' := by
  intro heq
  unfold suffixed at heq
  obtain ⟨-, htail⟩ := List.append_inj' heq (by simp [hd.length])
  exact hne (hd.distinct e he f hf (List.cons.inj htail).2)

/-- The path an entry has after the pass, told from the entries before it. -/
def pathAfter (E : Runtime) (before : List Json) (e : Json) : Option Text :=
  match derivedName E before e with
  | some m => usable m
  | none => libraryRelpath E e

def pathsFrom (E : Runtime) : List Json → List Json → List (Option Text)
  | _, [] => []
  | before, e :: rest => pathAfter E before e :: pathsFrom E (e :: before) rest

/-- The table of owners knows which names are taken. -/
def Owned (E : Runtime) (before : List Json) (owner : List (Text × Text)) : Prop :=
  ∀ e name, plainName E e = some name →
    (late E before e = true ↔ ∃ other, owner.lookup name = some other ∧ other ≠ urlOf E e)

theorem Owned.ownName (h : Owned E before owner) {name : Text} (hname : plainName E e = some name) :
    ownName E owner (urlOf E e) name = if late E before e then suffixed E (urlOf E e) name else name := by
  have hlate := h e name hname
  unfold Libraries.ownName
  cases hown : owner.lookup name with
  | none =>
    have hfree : ¬ late E before e = true := by
      rw [hlate, hown]
      rintro ⟨_, hno, -⟩
      cases hno
    rw [if_neg hfree]
  | some other =>
    rw [hown] at hlate
    by_cases hne : other ≠ urlOf E e
    · dsimp only
      rw [if_pos hne, if_pos (hlate.mpr ⟨other, rfl, hne⟩)]
      rfl
    · have hfree : ¬ late E before e = true := by
        rw [hlate]
        rintro ⟨_, hsome, hother⟩
        exact hne (Option.some.inj hsome ▸ hother)
      dsimp only
      rw [if_neg hne, if_neg hfree]

theorem Owned.keep (h : Owned E before owner) (hf : plainName E f = none) : Owned E (f :: before) owner := by
  intro e name hname
  rw [late, hf]
  exact h e name hname

theorem Owned.name (h : Owned E before owner) {first : Text} (hf : plainName E f = some first) :
    Owned E (f :: before) ((Libraries.ownName E owner (urlOf E f) first, urlOf E f) :: owner) := by
  intro e name hname
  rw [late, hf, h.ownName hf]
  dsimp only
  generalize (if late E before f then suffixed E (urlOf E f) first else first) = given
  rw [hname, List.lookup_cons]
  by_cases hsame : name = given
  · subst hsame
    rw [if_pos rfl, beq_self_eq_true, decide_eq_true_eq]
    constructor
    · exact fun hne => ⟨_, rfl, hne⟩
    · rintro ⟨_, hself, hne⟩
      exact Option.some.inj hself ▸ hne
  · rw [if_neg (by simpa using hsame), beq_eq_false_iff_ne.mpr hsame]
    exact h e name hname

theorem derivedName_late {name : Text} (h : plainName E e = some name) (hlate : late E before e = true) :
    derivedName E before e = some (suffixed E (urlOf E e) name) := by
  rw [derivedName, h, hlate]
  rfl

theorem derivedName_plain {name : Text} (h : plainName E e = some name) (hplain : late E before e = false) :
    derivedName E before e = some name := by
  rw [derivedName, h, hplain]
  rfl

theorem derivedName_noSlash (hhex : ∀ url, ∀ c ∈ E.digest url, c ∈ "0123456789abcdef".toList) {m : Text}
    (h : derivedName E before e = some m) : '/' ∉ m := by
  obtain ⟨name, hname, rfl⟩ := Option.map_eq_some_iff.mp h
  obtain ⟨fields, -, -, hbase, -⟩ := plainName_spec hname
  have hslash := derivePath_noSlash hbase
  split
  · unfold suffixed
    rw [List.mem_append, not_or]
    exact ⟨hslash, fun hc => (suffix_solid (hhex _) _ hc).2 rfl⟩
  · exact hslash

/-- What the pass makes of the paths. -/
theorem Normalizes.paths (hhex : ∀ url, ∀ c ∈ E.digest url, c ∈ "0123456789abcdef".toList)
    (h : Normalizes E owner entries out) (hown : Owned E before owner) :
    out.map (libraryRelpath E) = pathsFrom E before entries := by
  induction h generalizing before with
  | nil => rfl
  | keep hname _ ih =>
    rw [List.map_cons, pathsFrom, ih (hown.keep hname), pathAfter, derivedName, hname]
    rfl
  | @name owner entry rest tail name hname _ ih =>
    have hgiven : derivedName E before entry = some (Libraries.ownName E owner (urlOf E entry) name) := by
      rw [derivedName, hname, hown.ownName hname]
      rfl
    rw [List.map_cons, pathsFrom, ih (hown.name hname), pathAfter, hgiven,
      relpath_of_named hname (derivedName_noSlash hhex hgiven)]

theorem mem_zip_pathsFrom {o : Option Text} : (e, o) ∈ rest.zip (pathsFrom E before rest) ↔
    ∃ earlier after, rest = earlier ++ e :: after ∧ o = pathAfter E (earlier.reverse ++ before) e := by
  induction rest generalizing before with
  | nil => simp
  | cons f rest ih =>
    rw [pathsFrom, List.zip_cons_cons, List.mem_cons, ih]
    constructor
    · rintro (hhead | ⟨earlier, after, rfl, rfl⟩)
      · cases hhead
        exact ⟨[], rest, rfl, rfl⟩
      · exact ⟨f :: earlier, after, rfl, by simp⟩
    · rintro ⟨_ | ⟨g, earlier⟩, after, hsplit, rfl⟩
      · cases hsplit
        exact .inl rfl
      · obtain ⟨rfl, rfl⟩ := List.cons.inj hsplit
        exact .inr ⟨earlier, after, rfl, by simp⟩

theorem Stands.mem (h : Stands entries before e) : e ∈ entries := by
  obtain ⟨after, rfl⟩ := h
  simp

theorem exists_stands (h : e ∈ entries) : ∃ before, Stands entries before e := by
  obtain ⟨earlier, after, rfl⟩ := List.append_of_mem h
  exact ⟨earlier.reverse, after, by rw [List.reverse_reverse]⟩

/-- Where the entries of the result stand, and their paths. -/
theorem mem_zip_iff (hd : Digests E entries) (h : Normalizes E [] entries out) {o : Option Text} :
    (∃ x ∈ entries.zip out, x.1 = e ∧ libraryRelpath E x.2 = o) ↔
      ∃ before, Stands entries before e ∧ pathAfter E before e = o := by
  have hown : Owned E [] [] := fun _ _ _ => by simp [late]
  have hzip : entries.zip (pathsFrom E [] entries) =
      (entries.zip out).map (Prod.map id (libraryRelpath E)) := by
    rw [← h.paths hd.hex hown, List.zip_map_right]
  have hmem : (∃ x ∈ entries.zip out, x.1 = e ∧ libraryRelpath E x.2 = o) ↔
      (e, o) ∈ entries.zip (pathsFrom E [] entries) := by
    rw [hzip, List.mem_map]
    simp [Prod.map, Prod.ext_iff]
  rw [hmem, mem_zip_pathsFrom]
  constructor
  · rintro ⟨earlier, after, hsplit, rfl⟩
    exact ⟨earlier.reverse, ⟨after, by rw [List.reverse_reverse]; exact hsplit⟩, by rw [List.append_nil]⟩
  · rintro ⟨before, ⟨after, hsplit⟩, rfl⟩
    exact ⟨before.reverse, after, hsplit, by rw [List.reverse_reverse, List.append_nil]⟩

theorem pathAfter_given {p : Text} (h : libraryRelpath E e = some p) : pathAfter E before e = some p := by
  rw [pathAfter, derivedName, (relpath_given h).1]
  exact h

theorem pathAfter_derived {m : Text} (h : derivedName E before e = some m) : pathAfter E before e = usable m := by
  rw [pathAfter, h]

/-- A clash of two entries is one of the four. -/
theorem clash_of_paths (hd : Digests E entries) {before' : List Json} {p : Text} (he : Stands entries before e)
    (hf : Stands entries before' f) (hne : urlOf E e ≠ urlOf E f) (hp : pathAfter E before e = some p)
    (hq : pathAfter E before' f = some p) : Clash E entries := by
  cases hde : derivedName E before e with
  | none =>
    rw [pathAfter, hde] at hp
    cases hdf : derivedName E before' f with
    | none =>
      rw [pathAfter, hdf] at hq
      exact .explicit he.mem hf.mem hne hp hq
    | some m' =>
      rw [pathAfter_derived hdf, usable_eq_some] at hq
      exact .derived he.mem hf hne hdf (hq.1 ▸ hp)
  | some m =>
    rw [pathAfter_derived hde, usable_eq_some] at hp
    cases hdf : derivedName E before' f with
    | none =>
      rw [pathAfter, hdf] at hq
      exact .derived hf.mem he hne.symm hde (hp.1 ▸ hq)
    | some m' =>
      rw [pathAfter_derived hdf, usable_eq_some] at hq
      obtain ⟨rfl, hused⟩ := hp
      obtain ⟨hsame, -⟩ := hq
      obtain ⟨name, hname, rfl⟩ := Option.map_eq_some_iff.mp hde
      obtain ⟨name', hname', rfl⟩ := Option.map_eq_some_iff.mp hdf
      cases hle : late E before e with
      | true =>
        cases hlf : late E before' f with
        | true =>
          -- two suffixes differ where the urls do
          simp only [hle, hlf, if_true] at hsame
          rw [strip_suffixed (hd.hex _), strip_suffixed (hd.hex _)] at hsame
          exact absurd hsame (suffixed_ne hd he.mem hf.mem hne _ _)
        | false =>
          simp only [hle, hlf, if_true, if_false, Bool.false_eq_true] at hsame
          exact .suffix he hf hne hname hname' hle hlf hsame
      | false =>
        cases hlf : late E before' f with
        | true =>
          simp only [hle, hlf, if_true, if_false, Bool.false_eq_true] at hsame
          exact .suffix hf he hne.symm hname' hname hlf hle hsame.symm
        | false =>
          simp only [hle, hlf, if_false, Bool.false_eq_true] at hsame hused
          exact .blanks he hf hne hname hname' hle hlf hsame hused

/-- Each clash gives one path to entries of two urls. -/
theorem Clash.paths (hd : Digests E entries) (h : Clash E entries) : ∃ e f before before' p,
    Stands entries before e ∧ Stands entries before' f ∧ urlOf E e ≠ urlOf E f ∧
      pathAfter E before e = some p ∧ pathAfter E before' f = some p := by
  cases h with
  | explicit he hf hne hp hq =>
    obtain ⟨before, hbefore⟩ := exists_stands he
    obtain ⟨before', hbefore'⟩ := exists_stands hf
    exact ⟨_, _, before, before', _, hbefore, hbefore', hne, pathAfter_given hp, pathAfter_given hq⟩
  | derived he hf hne hname hp =>
    obtain ⟨before, hbefore⟩ := exists_stands he
    refine ⟨_, _, before, _, _, hbefore, hf, hne, pathAfter_given hp, ?_⟩
    rw [pathAfter_derived hname, usable_eq_some]
    exact ⟨rfl, (relpath_given hp).2⟩
  | @suffix e f _ _ name name' he hf hne hname hname' hlate hplain h =>
    have hused : strip (suffixed E (urlOf E e) name) ≠ [] ∧ strip (suffixed E (urlOf E e) name) ≠ dotdot := by
      rw [strip_suffixed (hd.hex _)]
      exact ⟨by simp [suffixed], suffixed_ne_dotdot _ _⟩
    refine ⟨e, f, _, _, strip name', he, hf, hne, ?_, ?_⟩
    · rw [pathAfter_derived (derivedName_late hname hlate), usable_eq_some]
      exact ⟨h.symm, hused⟩
    · rw [pathAfter_derived (derivedName_plain hname' hplain), usable_eq_some]
      exact ⟨rfl, h ▸ hused⟩
  | @blanks e f _ _ name name' he hf hne hname hname' hplain hplain' h hused =>
    refine ⟨e, f, _, _, strip name', he, hf, hne, ?_, ?_⟩
    · rw [pathAfter_derived (derivedName_plain hname hplain), usable_eq_some]
      exact ⟨h.symm, hused⟩
    · rw [pathAfter_derived (derivedName_plain hname' hplain'), usable_eq_some]
      exact ⟨rfl, h ▸ hused⟩

end Relpaths

/-- The pass keeps what it has nothing to do with and gives different paths to
different urls, if and only if no url is refused and no two entries clash. -/
theorem derived_paths_apart_iff {E : Runtime} {entries : List Json} (hd : Digests E entries) :
    (∃ out, normalizeExtraProjects E entries = some out ∧ out.length = entries.length ∧
        (∀ x ∈ entries.zip out, ¬ Unnamed E x.1 → x.2 = x.1) ∧
        ∀ x ∈ entries.zip out, ∀ y ∈ entries.zip out, urlOf E x.1 ≠ urlOf E y.1 →
          ∀ p q, libraryRelpath E x.2 = some p → libraryRelpath E y.2 = some q → p ≠ q) ↔
      (∀ entry ∈ entries, ¬ Rejected E entry) ∧ ¬ Clash E entries := by
  constructor
  · rintro ⟨out, hout, -, -, hpaths⟩
    refine ⟨exists_normalizeFrom.mp ⟨out, hout⟩, fun hclash => ?_⟩
    obtain ⟨e, f, before, before', p, he, hf, hne, hp, hq⟩ := hclash.paths hd
    have hzip := fun {e o} => mem_zip_iff (e := e) (o := o) hd (normalizes_of hout)
    obtain ⟨x, hx, rfl, hxp⟩ := hzip.mpr ⟨before, he, hp⟩
    obtain ⟨y, hy, rfl, hyp⟩ := hzip.mpr ⟨before', hf, hq⟩
    exact hpaths x hx y hy hne p p hxp hyp rfl
  · rintro ⟨hok, hclash⟩
    obtain ⟨out, hout⟩ : ∃ out, normalizeExtraProjects E entries = some out := exists_normalizeFrom.mpr hok
    have h := normalizes_of hout
    refine ⟨out, hout, h.length, fun x hx hnamed => ?_, fun x hx y hy hne p q hp hq hpq => ?_⟩
    · rcases h.entry_cases x hx with ⟨-, hkept⟩ | ⟨name, hname, -⟩
      · exact hkept
      · obtain ⟨fields, -, hunnamed, -⟩ := plainName_spec hname
        exact absurd hunnamed hnamed
    · obtain ⟨before, hbefore, hbp⟩ := (mem_zip_iff hd h).mp ⟨x, hx, rfl, hp⟩
      obtain ⟨before', hbefore', hbq⟩ := (mem_zip_iff hd h).mp ⟨y, hy, rfl, hq⟩
      exact hclash (clash_of_paths hd hbefore hbefore' hne hbp (hpq ▸ hbq))

def coreUrl : Text := "https://git.example.com/core/liba.git".toList
def toolsUrl : Text := "https://git.example.com/tools/liba.git".toList
/-- A url whose last segment is the name with a suffix that `toolsUrl` may get. -/
def taggedUrl : Text := "https://git.example.com/tools/liba-827391.git".toList

def shaRuntime : Runtime where
  str := fun _ => []
  netlocOk := fun _ => true
  digest := fun url =>
    if url = coreUrl then "e2970f".toList else if url = toolsUrl then "827391".toList else "04d3c5".toList

def urlOnly (url : Text) : Json := .obj [("url".toList, .str url)]
def urlAt (url : Text) (path : String) : Json := .obj [("url".toList, .str url), ("path".toList, .str path.toList)]

theorem digests_sha {entries : List Json}
    (h : ∀ e ∈ entries, urlOf shaRuntime e ∈ [coreUrl, toolsUrl, taggedUrl]) : Digests shaRuntime entries := by
  have hdigest : ∀ url, shaRuntime.digest url ∈ ["e2970f".toList, "827391".toList, "04d3c5".toList] := by
    intro url
    unfold shaRuntime
    dsimp only
    split
    · simp
    · split <;> simp
  have hsix : ∀ d ∈ ["e2970f".toList, "827391".toList, "04d3c5".toList], d.length = 6 ∧
      ∀ c ∈ d, c ∈ "0123456789abcdef".toList := by simp
  have hinj : ∀ u ∈ [coreUrl, toolsUrl, taggedUrl], ∀ v ∈ [coreUrl, toolsUrl, taggedUrl],
      shaRuntime.digest u = shaRuntime.digest v → u = v := by decide
  exact ⟨fun url => (hsix _ (hdigest url)).1, fun url => (hsix _ (hdigest url)).2,
    fun e he f hf => hinj _ (h e he) _ (h f hf)⟩

/-- Two libraries of one name, one whose name is the second one's with its suffix, and one with a path. -/
def fourLibraries : List Json := [urlOnly coreUrl, urlOnly toolsUrl, urlOnly taggedUrl, urlAt coreUrl "vendor/liba"]

def normalizedFour : List Json :=
  [named "liba".toList (urlOnly coreUrl), named "liba-827391".toList (urlOnly toolsUrl),
    named "liba-827391-04d3c5".toList (urlOnly taggedUrl), urlAt coreUrl "vendor/liba"]

theorem derived_paths_apart_liba :
    ∃ out, normalizeExtraProjects shaRuntime fourLibraries = some out ∧
      out.map (libraryRelpath shaRuntime) =
        [some "liba".toList, some "liba-827391".toList, some "liba-827391-04d3c5".toList, some "vendor/liba".toList] ∧
      (∀ entry ∈ fourLibraries, ¬ Rejected shaRuntime entry) ∧ ¬ Clash shaRuntime fourLibraries := by
  have hd : Digests shaRuntime fourLibraries := digests_sha (by decide)
  have hout : normalizeExtraProjects shaRuntime fourLibraries = some normalizedFour := by rfl
  have hapart : ∀ x ∈ fourLibraries.zip normalizedFour, ∀ y ∈ fourLibraries.zip normalizedFour,
      urlOf shaRuntime x.1 ≠ urlOf shaRuntime y.1 →
        libraryRelpath shaRuntime x.2 ≠ libraryRelpath shaRuntime y.2 := by decide +kernel
  refine ⟨_, hout, by rfl, (derived_paths_apart_iff hd).mp ⟨_, hout, rfl, fun x hx hnamed => ?_,
    fun x hx y hy hne p q hp hq hpq => hapart x hx y hy hne (by rw [hp, hq, hpq])⟩⟩
  simp only [fourLibraries, normalizedFour, List.zip_cons_cons, List.zip_nil_right, List.mem_cons,
    List.not_mem_nil, or_false] at hx
  rcases hx with rfl | rfl | rfl | rfl
  · exact absurd ⟨by decide, rfl⟩ hnamed
  · exact absurd ⟨by decide, rfl⟩ hnamed
  · exact absurd ⟨by decide, rfl⟩ hnamed
  · rfl

/-- A derived name meets an explicit path, and a name with a suffix a plain one. -/
theorem derived_paths_collide :
    (Digests shaRuntime [urlAt coreUrl "liba", urlOnly toolsUrl] ∧
      ∃ out, normalizeExtraProjects shaRuntime [urlAt coreUrl "liba", urlOnly toolsUrl] = some out ∧
        out.map (urlOf shaRuntime) = [coreUrl, toolsUrl] ∧
        out.map (libraryRelpath shaRuntime) = [some "liba".toList, some "liba".toList]) ∧
      (Digests shaRuntime [urlOnly taggedUrl, urlOnly coreUrl, urlOnly toolsUrl] ∧
        ∃ out, normalizeExtraProjects shaRuntime [urlOnly taggedUrl, urlOnly coreUrl, urlOnly toolsUrl] = some out ∧
          out.map (urlOf shaRuntime) = [taggedUrl, coreUrl, toolsUrl] ∧
          out.map (libraryRelpath shaRuntime) =
            [some "liba-827391".toList, some "liba".toList, some "liba-827391".toList]) ∧
      coreUrl ≠ toolsUrl ∧ taggedUrl ≠ toolsUrl :=
  ⟨⟨digests_sha (by decide), _, rfl, by rfl, by rfl⟩, ⟨digests_sha (by decide), _, rfl, by rfl, by rfl⟩,
    by decide, by decide⟩

end GitlabReviewer.Libraries
