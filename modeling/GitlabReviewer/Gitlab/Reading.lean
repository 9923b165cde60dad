import GitlabReviewer.Gitlab.Sync

/-! # What the client reads

Which items the mapping takes, and how the pages of the listing come to an end:
read to the last one, at a body that is no list, or with an error.
-/
namespace GitlabReviewer.Gitlab
open Python Foundation Models Settings

section Results
variable {α β ε : Type}

theorem bind_eq_ok {x : Except ε α} {f : α → Except ε β} {b : β} (h : (x >>= f) = .ok b) :
    ∃ a, x = .ok a ∧ f a = .ok b := by
  cases x with
  | ok a => exact ⟨a, rfl, h⟩
  | error e => cases h

theorem bind_eq_error {x : Except ε α} {f : α → Except ε β} {e : ε} (h : (x >>= f) = .error e) :
    x = .error e ∨ ∃ a, x = .ok a ∧ f a = .error e := by
  cases x with
  | ok a => exact .inr ⟨a, rfl, h⟩
  | error e' =>
    cases h
    exact .inl rfl

theorem mapM_ok {f : α → Except ε β} {items : List α} (h : ∀ item ∈ items, ∃ b, f item = .ok b) :
    ∃ bs, items.mapM f = .ok bs ∧ List.Forall₂ (fun item b => f item = .ok b) items bs := by
  induction items with
  | nil => exact ⟨[], rfl, .nil⟩
  | cons item rest ih =>
    obtain ⟨b, hb⟩ := h item List.mem_cons_self
    obtain ⟨bs, hbs, hall⟩ := ih fun other hother => h other (List.mem_cons_of_mem _ hother)
    refine ⟨b :: bs, ?_, .cons hb hall⟩
    rw [List.mapM_cons, hb, hbs]
    rfl

theorem mapM_error {f : α → Except ε β} {items : List α} {e : ε} (h : items.mapM f = .error e) :
    ∃ item ∈ items, f item = .error e := by
  induction items with
  | nil => cases h
  | cons item rest ih =>
    rw [List.mapM_cons] at h
    cases hitem : f item with
    | error e' =>
      rw [hitem] at h
      cases h
      exact ⟨item, List.mem_cons_self, hitem⟩
    | ok b =>
      rw [hitem] at h
      cases hrest : rest.mapM f with
      | error e' =>
        rw [hrest] at h
        cases h
        obtain ⟨other, hother, herror⟩ := ih hrest
        exact ⟨other, List.mem_cons_of_mem _ hother, herror⟩
      | ok bs =>
        rw [hrest] at h
        cases h

theorem forall₂_of_mapM {f : α → Except ε β} {items : List α} {bs : List β} (h : items.mapM f = .ok bs) :
    List.Forall₂ (fun item b => f item = .ok b) items bs := by
  have hall : ∀ item ∈ items, ∃ b, f item = .ok b := by
    induction items generalizing bs with
    | nil => simp
    | cons item rest ih =>
      rw [List.mapM_cons] at h
      obtain ⟨b, hb, h⟩ := bind_eq_ok h
      obtain ⟨bs', hbs', h⟩ := bind_eq_ok h
      rw [List.forall_mem_cons]
      exact ⟨⟨b, hb⟩, ih hbs'⟩
  obtain ⟨bs', hbs', hrel⟩ := mapM_ok hall
  rw [h] at hbs'
  cases hbs'
  exact hrel

end Results

section Items
variable (L : Stdlib)

/-- A value that `get` can be called on, or that `or {}` replaces. -/
def Dictlike (value : Json) : Prop := truthyJson value = true → ∃ fields, value = .obj fields

/-- A time that has a UTC clock in the years 1 to 9999, or that is no time at all. -/
def Datable (value : Json) : Prop := ∀ text clock offset, value = .str text → text ≠ [] →
  L.fromisoformat (replaceAll ['Z'] "+00:00".toList text) = some (clock, offset) →
    0 ≤ clock - offset.getD 0 ∧ clock - offset.getD 0 < clockEnd

/-- The iid of an item, where `int` takes it. -/
def iidOf (item : Json) : Except Raised ℤ := do
  let fields ← asDict item
  intOf L (orElse (get "iid" fields) (.int 0))

/-- An item the mapping takes. -/
def Mappable (item : Json) : Prop := ∃ fields, item = .obj fields ∧ (∃ iid, iidOf L item = .ok iid) ∧
  Dictlike (get "author" fields) ∧ (truthyJson (get "sha" fields) = false → Dictlike (get "diff_refs" fields)) ∧
  Datable L (get "updated_at" fields)

theorem asDict_orElse {value : Json} : (∃ fields, asDict (orElse value (.obj [])) = .ok fields) ↔ Dictlike value := by
  unfold orElse Dictlike
  by_cases h : truthyJson value = true
  · rw [if_pos h]
    constructor
    · rintro ⟨fields, hfields⟩ -
      cases value with
      | obj fields => exact ⟨fields, rfl⟩
      | _ => cases hfields
    · intro hobj
      obtain ⟨fields, rfl⟩ := hobj h
      exact ⟨fields, rfl⟩
  · rw [if_neg h]
    exact iff_of_true ⟨[], rfl⟩ fun htrue => absurd htrue h

theorem parseGitlabDatetime_ok {value : Json} :
    (∃ time, parseGitlabDatetime L value = .ok time) ↔ Datable L value := by
  unfold Datable
  cases value with
  | str text =>
    unfold parseGitlabDatetime
    dsimp only
    by_cases hempty : text.isEmpty = true
    · rw [if_pos hempty]
      refine iff_of_true ⟨none, rfl⟩ ?_
      intro text' clock offset heq hne
      cases heq
      exact absurd (List.isEmpty_iff.mp hempty) hne
    · rw [if_neg hempty]
      cases htime : L.fromisoformat (replaceAll ['Z'] "+00:00".toList text) with
      | none =>
        refine iff_of_true ⟨none, rfl⟩ ?_
        intro text' clock offset heq hne hread
        cases heq
        rw [htime] at hread
        cases hread
      | some found =>
        obtain ⟨clock, offset⟩ := found
        dsimp only
        unfold Aware.astimezone
        by_cases hrange : 0 ≤ clock - offset.getD 0 ∧ clock - offset.getD 0 < clockEnd
        · rw [if_pos hrange]
          refine iff_of_true ⟨_, rfl⟩ ?_
          intro text' clock' offset' heq hne hread
          cases heq
          rw [htime] at hread
          cases hread
          exact hrange
        · rw [if_neg hrange]
          refine iff_of_false (by simp [Except.map]) ?_
          intro hall
          exact hrange (hall text clock offset rfl (by simpa using hempty) htime)
  | _ => exact iff_of_true ⟨none, rfl⟩ (by intro text _ _ heq; cases heq)

theorem shaOf_ok {fields : List (Text × Json)} :
    (∃ sha, shaOf fields (orElse (get "diff_refs" fields) (.obj [])) = .ok sha) ↔
      (truthyJson (get "sha" fields) = false → Dictlike (get "diff_refs" fields)) := by
  unfold shaOf
  by_cases h : truthyJson (get "sha" fields) = true
  · rw [if_pos h]
    exact iff_of_true ⟨_, rfl⟩ fun hfalse => by rw [h] at hfalse; cases hfalse
  · rw [if_neg h, ← asDict_orElse]
    cases hrefs : asDict (orElse (get "diff_refs" fields) (.obj [])) with
    | ok refs => exact iff_of_true ⟨_, rfl⟩ fun _ => ⟨refs, rfl⟩
    | error e =>
      refine iff_of_false (by simp [Except.map]) fun hall => ?_
      obtain ⟨refs, hok⟩ := hall (by simpa using h)
      cases hok

theorem fromGitlab_ok {item : Json} : (∃ snap, fromGitlab L item = .ok snap) ↔ Mappable L item := by
  constructor
  · rintro ⟨snap, h⟩
    unfold fromGitlab at h
    obtain ⟨fields, hfields, h⟩ := bind_eq_ok h
    obtain ⟨iid, hiid, h⟩ := bind_eq_ok h
    obtain ⟨author, hauthor, h⟩ := bind_eq_ok h
    obtain ⟨sha, hsha, h⟩ := bind_eq_ok h
    obtain ⟨time, htime, -⟩ := bind_eq_ok h
    obtain rfl : item = .obj fields := by
      cases item with
      | obj fields' =>
        cases hfields
        rfl
      | _ => cases hfields
    exact ⟨fields, rfl, ⟨iid, hiid⟩, asDict_orElse.mp ⟨author, hauthor⟩, shaOf_ok.mp ⟨sha, hsha⟩,
      (parseGitlabDatetime_ok L).mp ⟨time, htime⟩⟩
  · rintro ⟨fields, rfl, ⟨iid, hiid⟩, hauthor, hrefs, htime⟩
    obtain ⟨author, hauthor⟩ := asDict_orElse.mpr hauthor
    obtain ⟨sha, hsha⟩ := shaOf_ok.mpr hrefs
    obtain ⟨time, htime⟩ := (parseGitlabDatetime_ok L).mpr htime
    have hread : intOf L (orElse (get "iid" fields) (.int 0)) = .ok iid := hiid
    have hfields : asDict (.obj fields) = .ok fields := rfl
    unfold fromGitlab
    simp only [hfields, hread, hauthor, hsha, htime, bind, Except.bind]
    exact ⟨_, rfl⟩

theorem fromGitlab_iid {item : Json} {snap : MrSnapshot} (h : fromGitlab L item = .ok snap) :
    iidOf L item = .ok snap.iid := by
  unfold fromGitlab at h
  obtain ⟨fields, hfields, h⟩ := bind_eq_ok h
  obtain ⟨iid, hiid, h⟩ := bind_eq_ok h
  obtain ⟨author, hauthor, h⟩ := bind_eq_ok h
  obtain ⟨sha, hsha, h⟩ := bind_eq_ok h
  obtain ⟨time, htime, h⟩ := bind_eq_ok h
  cases h
  unfold iidOf
  rw [hfields]
  exact hiid

theorem asDict_error {value : Json} {e : Raised} (h : asDict value = .error e) : e.caught = none := by
  cases value with
  | obj fields => cases h
  | _ =>
    cases h
    rfl

theorem intOf_error {value : Json} {e : Raised} (h : intOf L value = .error e) : e.caught = none := by
  unfold intOf at h
  split at h
  case h_6 =>
    split at h
    · cases h
    · cases h
      rfl
  all_goals
    cases h
    try rfl

theorem parseGitlabDatetime_error {value : Json} {e : Raised} (h : parseGitlabDatetime L value = .error e) :
    e.caught = none := by
  unfold parseGitlabDatetime at h
  split at h
  · split at h
    · cases h
    · split at h
      · cases h
      · unfold Aware.astimezone at h
        split at h
        · cases h
        · cases h
          rfl
  · cases h

/-- The errors of the mapping are not those the sync catches. -/
theorem fromGitlab_error {item : Json} {e : Raised} (h : fromGitlab L item = .error e) : e.caught = none := by
  unfold fromGitlab at h
  rcases bind_eq_error h with herror | ⟨fields, -, h⟩
  · exact asDict_error herror
  rcases bind_eq_error h with herror | ⟨iid, -, h⟩
  · exact intOf_error L herror
  rcases bind_eq_error h with herror | ⟨author, -, h⟩
  · exact asDict_error herror
  rcases bind_eq_error h with herror | ⟨sha, -, h⟩
  · unfold shaOf at herror
    split at herror
    · cases herror
    · cases hrefs : asDict (orElse (get "diff_refs" fields) (.obj [])) with
      | ok refs =>
        rw [hrefs] at herror
        cases herror
      | error e' =>
        rw [hrefs] at herror
        cases herror
        exact asDict_error hrefs
  rcases bind_eq_error h with herror | ⟨time, -, h⟩
  · exact parseGitlabDatetime_error L herror
  · cases h

/-- A mapped time is told in UTC already. -/
theorem storeValues_fromGitlab {item : Json} {snap : MrSnapshot} (h : fromGitlab L item = .ok snap) :
    ∃ values, storeValues snap = .ok values := by
  unfold fromGitlab at h
  obtain ⟨fields, -, h⟩ := bind_eq_ok h
  obtain ⟨iid, -, h⟩ := bind_eq_ok h
  obtain ⟨author, -, h⟩ := bind_eq_ok h
  obtain ⟨sha, -, h⟩ := bind_eq_ok h
  obtain ⟨time, htime, h⟩ := bind_eq_ok h
  cases h
  unfold storeValues
  dsimp only
  cases time with
  | none => exact ⟨_, rfl⟩
  | some utc =>
    have hutc : ∃ again, utc.astimezone = .ok again := by
      unfold parseGitlabDatetime at htime
      split at htime
      · split at htime
        · cases htime
        · split at htime
          · cases htime
          · rename_i clock offset _
            unfold Aware.astimezone at htime
            split at htime
            · rename_i hrange
              cases htime
              unfold Aware.astimezone
              exact ⟨_, if_pos (by simpa using hrange)⟩
            · cases htime
      · cases htime
    obtain ⟨again, hagain⟩ := hutc
    dsimp only
    rw [hagain]
    exact ⟨_, rfl⟩

end Items

/-- How the listing comes to an end. -/
inductive Ending where
  | lists (items : List Json)
  | noList (before : List Json)
  | raised (e : Raised)

def Ending.after (data : List Json) : Ending → Ending
  | .lists items => .lists (data ++ items)
  | .noList before => .noList (data ++ before)
  | .raised e => .raised e

/-- What `paginated_get` makes of it. -/
def Ending.result : Ending → Except Raised (List Json)
  | .lists items => .ok items
  | .noList before => .ok before
  | .raised e => .error e

section Pages
variable (L : Stdlib) (settings : SettingsRow)

/-- The body a call ends with. -/
def bodyOf (path : Text) (answers : ℕ → Answer) : Except Raised Json := do
  let resp ← (apiGet L settings path answers).2
  resp.json

/-- The page the call after this one asks for. -/
def pageAfter (path : Text) (answers : ℕ → Answer) (page : ℤ) : ℤ :=
  match (apiGet L settings path answers).2 with
  | .ok resp => followingPage L resp page
  | .error _ => page

/-- The calls for the pages, from one on to the last. -/
inductive Reads (path : Text) (perPage : ℕ) (listing : ℕ → ℤ → ℕ → Answer) : ℕ → ℤ → Ending → Prop
  | raised {call : ℕ} {page : ℤ} {e : Raised} (h : bodyOf L settings path (listing call page) = .error e) :
      Reads path perPage listing call page (.raised e)
  | noList {call : ℕ} {page : ℤ} {value : Json} (h : bodyOf L settings path (listing call page) = .ok value)
      (hvalue : ∀ data, value ≠ .arr data) : Reads path perPage listing call page (.noList [])
  | last {call : ℕ} {page : ℤ} {data : List Json} (h : bodyOf L settings path (listing call page) = .ok (.arr data))
      (hshort : data = [] ∨ data.length < perPage) : Reads path perPage listing call page (.lists data)
  | full {call : ℕ} {page : ℤ} {data : List Json} {ending : Ending}
      (h : bodyOf L settings path (listing call page) = .ok (.arr data)) (hne : data ≠ [])
      (hfull : perPage ≤ data.length)
      (hnext : Reads path perPage listing (call + 1) (pageAfter L settings path (listing call page) page) ending) :
      Reads path perPage listing call page (ending.after data)

variable {L settings} {path : Text} {perPage : ℕ} {listing : ℕ → ℤ → ℕ → Answer}

theorem Reads.unique {call : ℕ} {page : ℤ} {a b : Ending} (ha : Reads L settings path perPage listing call page a)
    (hb : Reads L settings path perPage listing call page b) : a = b := by
  induction ha generalizing b with
  | raised h =>
    cases hb with
    | raised h' => rw [Except.error.inj (h.symm.trans h')]
    | noList h' => cases h.symm.trans h'
    | last h' => cases h.symm.trans h'
    | full h' => cases h.symm.trans h'
  | noList h hvalue =>
    cases hb with
    | raised h' => cases h.symm.trans h'
    | noList => rfl
    | last h' => exact absurd (Except.ok.inj (h.symm.trans h')) (hvalue _)
    | full h' => exact absurd (Except.ok.inj (h.symm.trans h')) (hvalue _)
  | last h hshort =>
    cases hb with
    | raised h' => cases h.symm.trans h'
    | noList h' hvalue => exact absurd (Except.ok.inj (h.symm.trans h')).symm (hvalue _)
    | last h' => cases h.symm.trans h'; rfl
    | full h' hne hfull =>
      cases h.symm.trans h'
      rcases hshort with hnil | hlt
      · exact absurd hnil hne
      · omega
  | full h hne hfull hnext ih =>
    cases hb with
    | raised h' => cases h.symm.trans h'
    | noList h' hvalue => exact absurd (Except.ok.inj (h.symm.trans h')).symm (hvalue _)
    | last h' hshort =>
      cases h.symm.trans h'
      rcases hshort with hnil | hlt
      · exact absurd hnil hne
      · omega
    | full h' _ _ hnext' =>
      cases h.symm.trans h'
      rw [ih hnext']

theorem Ending.result_after (data results : List Json) (ending : Ending) :
    (ending.after data).result.map (results ++ ·) = ending.result.map (results ++ data ++ ·) := by
  cases ending with
  | lists items => exact congrArg Except.ok (List.append_assoc _ _ _).symm
  | noList before => exact congrArg Except.ok (List.append_assoc _ _ _).symm
  | raised e => rfl

variable (L settings path perPage listing) in
/-- One turn of the loop, by what its call ends with. -/
theorem paginatedGetFrom_succ (fuel call : ℕ) (page : ℤ) (results : List Json) :
    ∃ events, paginatedGetFrom L settings path perPage listing (fuel + 1) call page results =
      match bodyOf L settings path (listing call page) with
      | .error e => some ([events], .error e)
      | .ok (.arr data) =>
          if data.isEmpty then some ([events], .ok results)
          else if data.length < perPage then some ([events], .ok (results ++ data))
          else (paginatedGetFrom L settings path perPage listing fuel (call + 1)
            (pageAfter L settings path (listing call page) page) (results ++ data)).map
              fun (calls, result) => (events :: calls, result)
      | .ok _ => some ([events], .ok results) := by
  refine ⟨(apiGet L settings path (listing call page)).1, ?_⟩
  rw [paginatedGetFrom]
  unfold bodyOf pageAfter
  dsimp only
  cases hcall : (apiGet L settings path (listing call page)).2 with
  | error e => rfl
  | ok resp =>
    cases hjson : resp.json with
    | error e => simp only [bind, Except.bind, hjson]
    | ok value => cases value <;> simp only [bind, Except.bind, hjson]

theorem Reads.paginated {call : ℕ} {page : ℤ} {ending : Ending} (h : Reads L settings path perPage listing call page ending)
    (results : List Json) :
    ∃ fuel calls, paginatedGetFrom L settings path perPage listing fuel call page results =
      some (calls, ending.result.map (results ++ ·)) := by
  induction h generalizing results with
  | @raised call page e h =>
    obtain ⟨events, heq⟩ := paginatedGetFrom_succ L settings path perPage listing 0 call page results
    rw [h] at heq
    exact ⟨_, _, heq⟩
  | @noList call page value h hvalue =>
    obtain ⟨events, heq⟩ := paginatedGetFrom_succ L settings path perPage listing 0 call page results
    rw [h] at heq
    refine ⟨1, [events], heq.trans ?_⟩
    cases value with
    | arr data => exact absurd rfl (hvalue data)
    | _ => simp [Ending.result, Except.map]
  | @last call page data h hshort =>
    obtain ⟨events, heq⟩ := paginatedGetFrom_succ L settings path perPage listing 0 call page results
    rw [h] at heq
    refine ⟨1, [events], heq.trans ?_⟩
    dsimp only
    by_cases hempty : data.isEmpty = true
    · rw [if_pos hempty, List.isEmpty_iff.mp hempty]
      simp [Ending.result, Except.map]
    · rw [if_neg hempty, if_pos (hshort.resolve_left (by simpa using hempty))]
      rfl
  | @full call page data ending h hne hfull hnext ih =>
    obtain ⟨fuel, calls, hrun⟩ := ih (results ++ data)
    obtain ⟨events, heq⟩ := paginatedGetFrom_succ L settings path perPage listing fuel call page results
    rw [h] at heq
    refine ⟨fuel + 1, events :: calls, heq.trans ?_⟩
    dsimp only
    rw [if_neg (by simpa using hne), if_neg (by omega), hrun, Ending.result_after]
    rfl

theorem reads_of_paginated {fuel call : ℕ} {page : ℤ} {results : List Json}
    {out : List (List Event) × Except Raised (List Json)}
    (h : paginatedGetFrom L settings path perPage listing fuel call page results = some out) :
    ∃ ending, Reads L settings path perPage listing call page ending ∧ out.2 = ending.result.map (results ++ ·) := by
  induction fuel generalizing call page results out with
  | zero => cases h
  | succ fuel ih =>
    obtain ⟨events, heq⟩ := paginatedGetFrom_succ L settings path perPage listing fuel call page results
    rw [heq] at h
    cases hbody : bodyOf L settings path (listing call page) with
    | error e =>
      rw [hbody] at h
      cases h
      exact ⟨_, .raised hbody, rfl⟩
    | ok value =>
      rw [hbody] at h
      cases value with
      | arr data =>
        dsimp only at h
        by_cases hempty : data.isEmpty = true
        · rw [if_pos hempty] at h
          cases h
          have hnil := List.isEmpty_iff.mp hempty
          exact ⟨_, .last hbody (.inl hnil), by simp [hnil, Ending.result, Except.map]⟩
        · rw [if_neg hempty] at h
          by_cases hshort : data.length < perPage
          · rw [if_pos hshort] at h
            cases h
            exact ⟨_, .last hbody (.inr hshort), rfl⟩
          · rw [if_neg hshort] at h
            obtain ⟨out', hout', rfl⟩ := Option.map_eq_some_iff.mp h
            obtain ⟨ending, hreads, hresult⟩ := ih hout'
            refine ⟨_, .full hbody (by simpa using hempty) (by omega) hreads, ?_⟩
            rw [Ending.result_after]
            exact hresult
      | _ =>
        cases h
        refine ⟨_, .noList hbody (by intro data hdata; cases hdata), ?_⟩
        simp [Ending.result, Except.map]

end Pages

end GitlabReviewer.Gitlab
