import GitlabReviewer.Results.Normalize
import GitlabReviewer.Python.JsonScanner

/-! # The last fenced block

The entrypoint takes the result from the last fenced `json` block of the
review's output. The expression that finds the blocks ends a block at the first
fence, also when it stands inside a string of the JSON text.
-/
namespace GitlabReviewer.Results
open Python

def fence : Text := ['`', '`', '`']

def isBlank (c : Char) : Bool := c == ' ' || c == '\t'

/-- The text behind an opening line at the head of a text. -/
def skipOpening : Text → Option Text
  | '`' :: '`' :: '`' :: 'j' :: 's' :: 'o' :: 'n' :: rest =>
      match rest.dropWhile isBlank with
      | '\n' :: body => some body
      | '\r' :: '\n' :: body => some body
      | _ => none
  | _ => none

/-- The text up to the first fence, and what follows the fence. -/
def splitFence : Text → Option (Text × Text)
  | '`' :: '`' :: '`' :: rest => some ([], rest)
  | c :: rest => (splitFence rest).map fun (block, rest) => (c :: block, rest)
  | [] => none

/-- A match of the expression at the head of a text: its group, and what follows. -/
def matchFenced (text : Text) : Option (Text × Text) := (skipOpening text).bind splitFence

def findFrom : ℕ → Text → List Text
  | 0, _ => []
  | _ + 1, [] => []
  | fuel + 1, c :: rest =>
      match matchFenced (c :: rest) with
      | some (block, rest) => block :: findFrom fuel rest
      | none => findFrom fuel rest

/-- `_FENCED_JSON_RE.findall(text)`. -/
def findFenced (text : Text) : List Text := findFrom text.length text

/-- `_extract_result`; none also where `json.loads` refuses an integer. -/
def extractResult (F : FloatFormat) (text : Text) : Option Json :=
  match (findFenced text).getLast? with
  | none => none
  | some block => (loads F block).bind (normalizeResult F)

section Fences
variable {a b t rest : Text}

theorem splitFence_fence (rest : Text) : splitFence (fence ++ rest) = some ([], rest) := rfl

theorem splitFence_cons {c : Char} (h : ¬ fence <+: c :: rest) :
    splitFence (c :: rest) = (splitFence rest).map fun (block, rest) => (c :: block, rest) := by
  rw [splitFence]
  rintro more rfl rfl
  exact h ⟨more, rfl⟩

/-- Nothing is split off a text without a fence. -/
theorem splitFence_eq_none (h : ¬ fence <:+: t) : splitFence t = none := by
  induction t with
  | nil => rfl
  | cons c t ih =>
    have hhead : ¬ fence <+: c :: t := fun hp => h hp.isInfix
    have htail : ¬ fence <:+: t := fun hi => h (hi.trans (List.suffix_cons c t).isInfix)
    rw [splitFence_cons hhead, ih htail]
    rfl

theorem splitFence_parts (h : splitFence t = some (a, b)) : a ++ fence ++ b = t := by
  induction t generalizing a with
  | nil => cases h
  | cons c t ih =>
    by_cases hhead : fence <+: c :: t
    · obtain ⟨more, hmore⟩ := hhead
      rw [← hmore, splitFence_fence] at h
      cases h
      exact hmore
    · rw [splitFence_cons hhead] at h
      obtain ⟨⟨block, rest⟩, hrest, heq⟩ := Option.map_eq_some_iff.mp h
      cases heq
      rw [List.cons_append, List.cons_append, ih hrest]

/-- The first fence of a text is its first fence when more text follows. -/
theorem splitFence_append (h : splitFence t = some (a, b)) (rest : Text) :
    splitFence (t ++ rest) = some (a, b ++ rest) := by
  induction t generalizing a with
  | nil => cases h
  | cons c t ih =>
    by_cases hhead : fence <+: c :: t
    · obtain ⟨more, hmore⟩ := hhead
      rw [← hmore, splitFence_fence] at h
      cases h
      rw [← hmore, List.append_assoc, splitFence_fence]
    · rw [splitFence_cons hhead] at h
      obtain ⟨⟨block, rest'⟩, hrest, heq⟩ := Option.map_eq_some_iff.mp h
      cases heq
      have hlen : fence.length ≤ (c :: t).length := by
        have hparts := congrArg List.length (splitFence_parts hrest)
        simp only [List.length_append, List.length_cons] at hparts ⊢
        omega
      have hhead' : ¬ fence <+: c :: (t ++ rest) := by
        intro hp
        rw [← List.cons_append] at hp
        exact hhead (List.prefix_of_prefix_length_le hp (List.prefix_append (c :: t) rest) hlen)
      rw [List.cons_append, splitFence_cons hhead', ih hrest]
      rfl

theorem splitFence_isSome (h : fence <:+: t) : ∃ a b, splitFence t = some (a, b) := by
  induction t with
  | nil => simp [fence] at h
  | cons c t ih =>
    by_cases hhead : fence <+: c :: t
    · obtain ⟨more, hmore⟩ := hhead
      rw [← hmore]
      exact ⟨[], more, rfl⟩
    · obtain ⟨a, b, hab⟩ := ih ((List.infix_cons_iff.mp h).resolve_left hhead)
      exact ⟨c :: a, b, by rw [splitFence_cons hhead, hab]; rfl⟩

/-- What is a prefix of a text up to a character it does not contain stands before it. -/
theorem prefix_before {p l : Text} {c : Char} (hc : c ∉ p) (h : p <+: l ++ c :: rest) : p <+: l := by
  induction p generalizing l with
  | nil => exact List.nil_prefix
  | cons d p ih =>
    cases l with
    | nil =>
      obtain ⟨more, hmore⟩ := h
      exact absurd ((List.cons.inj hmore).1 ▸ List.mem_cons_self) hc
    | cons e l =>
      obtain ⟨rfl, hp⟩ := List.cons_prefix_cons.mp h
      exact List.cons_prefix_cons.mpr ⟨rfl, ih (fun hm => hc (List.mem_cons_of_mem d hm)) hp⟩

/-- A line without a fence is split off as a whole. -/
theorem splitFence_line (h : ¬ fence <:+: a) (rest : Text) :
    splitFence (a ++ '\n' :: (fence ++ rest)) = some (a ++ ['\n'], rest) := by
  induction a with
  | nil =>
    rw [List.nil_append, splitFence_cons, splitFence_fence]
    · rfl
    · rintro ⟨more, hmore⟩
      cases hmore
  | cons c a ih =>
    have hhead : ¬ fence <+: c :: (a ++ '\n' :: (fence ++ rest)) := by
      intro hp
      rw [← List.cons_append] at hp
      exact h (prefix_before (by decide) hp).isInfix
    have htail : ¬ fence <:+: a := fun hi => h (hi.trans (List.suffix_cons c a).isInfix)
    rw [List.cons_append, splitFence_cons hhead, ih htail]
    rfl

end Fences

def fenceJson : Text := ['`', '`', '`', 'j', 's', 'o', 'n']

/-- An opening line: the fence, blanks and the line break. -/
def Opening (o : Text) : Prop :=
  ∃ blanks cr : Text, (∀ c ∈ blanks, isBlank c = true) ∧ (cr = [] ∨ cr = ['\r']) ∧
    o = fenceJson ++ blanks ++ cr ++ ['\n']

section Openings
variable {o a b t body rest : Text}

theorem skipOpening_opening (h : Opening o) (body : Text) : skipOpening (o ++ body) = some body := by
  obtain ⟨blanks, cr, hblanks, hcr, rfl⟩ := h
  have hskip : ∀ rest : Text, (blanks ++ rest).dropWhile isBlank = rest.dropWhile isBlank :=
    fun rest => List.dropWhile_append_of_pos hblanks
  have hopen : fenceJson ++ blanks ++ cr ++ ['\n'] ++ body =
      '`' :: '`' :: '`' :: 'j' :: 's' :: 'o' :: 'n' :: (blanks ++ (cr ++ '\n' :: body)) := by
    simp [fenceJson]
  rw [hopen, skipOpening, hskip]
  rcases hcr with rfl | rfl
  · rfl
  · rfl

theorem opening_of_skipOpening (h : skipOpening t = some body) : ∃ o, Opening o ∧ t = o ++ body := by
  unfold skipOpening at h
  split at h
  · rename_i rest
    have hsplit := List.takeWhile_append_dropWhile (p := isBlank) (l := rest)
    have hblanks : ∀ c ∈ rest.takeWhile isBlank, isBlank c = true := fun c hc => List.mem_takeWhile_imp hc
    generalize rest.takeWhile isBlank = blanks at hsplit hblanks
    split at h
    · rename_i body' hdrop
      cases h
      rw [hdrop] at hsplit
      subst hsplit
      exact ⟨_, ⟨blanks, [], hblanks, .inl rfl, rfl⟩, by simp [fenceJson]⟩
    · rename_i body' hdrop
      cases h
      rw [hdrop] at hsplit
      subst hsplit
      exact ⟨_, ⟨blanks, ['\r'], hblanks, .inr rfl, rfl⟩, by simp [fenceJson]⟩
    · cases h
  · cases h

/-- An opening line is one line. -/
theorem opening_line (h : Opening o) : ∃ line, o = line ++ ['\n'] ∧ '\n' ∉ line := by
  obtain ⟨blanks, cr, hblanks, hcr, rfl⟩ := h
  refine ⟨_, rfl, ?_⟩
  intro hmem
  rcases List.mem_append.mp hmem with hmem | hmem
  · rcases List.mem_append.mp hmem with hmem | hmem
    · exact absurd hmem (by decide)
    · exact absurd (hblanks _ hmem) (by decide)
  · rcases hcr with rfl | rfl
    · cases hmem
    · exact absurd hmem (by decide)

/-- What stands in an opening line before the line break. -/
theorem opening_last (h : Opening o) {line : Text} {c : Char} (ho : o = line ++ [c, '\n']) :
    c = 'n' ∨ c = ' ' ∨ c = '\t' ∨ c = '\r' := by
  obtain ⟨blanks, cr, hblanks, hcr, rfl⟩ := h
  have hline : fenceJson ++ blanks ++ cr = line ++ [c] := by
    have hcut : fenceJson ++ blanks ++ cr ++ ['\n'] = (line ++ [c]) ++ ['\n'] := by simpa using ho
    exact List.append_cancel_right hcut
  have hlast := congrArg List.getLast? hline
  rw [List.getLast?_append_of_ne_nil _ (List.cons_ne_nil c []), List.getLast?_singleton] at hlast
  rcases hcr with rfl | rfl
  · rw [List.append_nil] at hlast
    cases hb : blanks.getLast? with
    | none =>
      rw [List.getLast?_append, hb] at hlast
      exact .inl (Option.some.inj hlast).symm
    | some d =>
      rw [List.getLast?_append, hb] at hlast
      have hd := hblanks d (List.mem_of_getLast? hb)
      cases hlast
      simp only [isBlank, Bool.or_eq_true, beq_iff_eq] at hd
      exact .inr (hd.imp id .inl)
  · rw [List.getLast?_append_of_ne_nil _ (by simp)] at hlast
    cases hlast
    simp

/-- An opening line at the head of a text does not reach beyond its first line break. -/
theorem opening_of_append (h : Opening o) (hp : o <+: a ++ '\n' :: rest) : o <+: a ++ ['\n'] := by
  obtain ⟨line, rfl, hline⟩ := opening_line h
  obtain ⟨u, rfl⟩ := prefix_before hline ((List.prefix_append line ['\n']).trans hp)
  obtain ⟨more, hmore⟩ := hp
  rw [List.append_assoc, List.append_assoc, List.append_cancel_left_eq] at hmore
  rw [List.append_assoc, List.prefix_append_right_inj]
  cases u with
  | nil => exact List.prefix_rfl
  | cons c u =>
    rw [List.cons_append, List.cons_append] at hmore
    rw [← (List.cons.inj hmore).1]
    exact List.cons_prefix_cons.mpr ⟨rfl, List.nil_prefix⟩

theorem fenceJson_prefix (h : Opening o) : ∃ x, o = fenceJson ++ x := by
  obtain ⟨blanks, cr, -, -, rfl⟩ := h
  exact ⟨blanks ++ (cr ++ ['\n']), by simp only [List.append_assoc]⟩

/-- No opening line begins inside lines that contain none. -/
theorem skipOpening_lines (h : ∀ o, Opening o → ¬ o <:+: a ++ ['\n']) {s : Text} (hs : s <:+ a ++ ['\n'])
    (hne : s ≠ []) (rest : Text) : skipOpening (s ++ rest) = none := by
  cases hskip : skipOpening (s ++ rest) with
  | none => rfl
  | some body =>
    obtain ⟨o, ho, htext⟩ := opening_of_skipOpening hskip
    obtain ⟨before, hbefore⟩ := hs
    obtain ⟨s', c, rfl⟩ : ∃ s' c, s = s' ++ [c] := ⟨s.dropLast, s.getLast hne, (List.dropLast_append_getLast hne).symm⟩
    rw [← List.append_assoc] at hbefore
    obtain ⟨hcut, hc⟩ := List.append_inj' hbefore rfl
    cases hc
    have hp : o <+: s' ++ '\n' :: rest := ⟨body, by simpa using htext.symm⟩
    exact absurd ((opening_of_append ho hp).isInfix.trans ⟨before, [], by simp [← hcut]⟩) (h o ho)

/-- No opening line begins inside a text without a fence, up to the next one. -/
theorem skipOpening_text (h : ¬ fence <:+: t) {s : Text} (hs : s <:+ t) (hne : s ≠ []) (rest : Text) :
    skipOpening (s ++ (fenceJson ++ rest)) = none := by
  cases hskip : skipOpening (s ++ (fenceJson ++ rest)) with
  | none => rfl
  | some body =>
    obtain ⟨o, ho, htext⟩ := opening_of_skipOpening hskip
    obtain ⟨x, rfl⟩ := fenceJson_prefix ho
    have hfree : ¬ fence <:+: s := fun hi => h (hi.trans hs.isInfix)
    match s, hne with
    | [c], _ => cases htext
    | [c, d], _ => cases htext
    | c :: d :: e :: s, _ =>
      simp only [fenceJson, List.cons_append, List.cons.injEq] at htext
      obtain ⟨rfl, rfl, rfl, -⟩ := htext
      exact absurd ⟨[], s, rfl⟩ hfree

end Openings

section Blocks
variable {a b t block rest : Text}

theorem length_matchFenced (h : matchFenced t = some (block, rest)) : rest.length < t.length := by
  obtain ⟨body, hbody, hsplit⟩ := Option.bind_eq_some_iff.mp h
  obtain ⟨o, -, rfl⟩ := opening_of_skipOpening hbody
  have hparts := congrArg List.length (splitFence_parts hsplit)
  have hfence : fence.length = 3 := rfl
  simp only [List.length_append] at hparts ⊢
  omega

theorem findFrom_eq {fuel : ℕ} (h : t.length ≤ fuel) {fuel' : ℕ} (h' : t.length ≤ fuel') :
    findFrom fuel t = findFrom fuel' t := by
  induction fuel generalizing t fuel' with
  | zero =>
    have hnil : t = [] := List.eq_nil_of_length_eq_zero (by omega)
    subst hnil
    cases fuel' <;> rfl
  | succ k ih =>
    cases t with
    | nil => cases fuel' <;> rfl
    | cons c t =>
      rw [List.length_cons] at h h'
      obtain ⟨k', rfl⟩ := Nat.exists_eq_succ_of_ne_zero (by omega : fuel' ≠ 0)
      rw [findFrom, findFrom]
      cases hmatch : matchFenced (c :: t) with
      | none => exact ih (by omega) (by omega)
      | some x =>
        obtain ⟨block, rest⟩ := x
        have hlen := length_matchFenced hmatch
        rw [List.length_cons] at hlen
        dsimp only
        rw [ih (by omega) (by omega : rest.length ≤ k')]

theorem findFenced_match (h : matchFenced t = some (block, rest)) : findFenced t = block :: findFenced rest := by
  have hlen := length_matchFenced h
  cases t with
  | nil => cases h
  | cons c t =>
    rw [List.length_cons] at hlen
    rw [findFenced, List.length_cons, findFrom, h]
    dsimp only
    rw [findFrom_eq (by omega) (le_refl rest.length), findFenced]

theorem findFenced_skip (h : ∀ s, s <:+ a → s ≠ [] → matchFenced (s ++ b) = none) :
    findFenced (a ++ b) = findFenced b := by
  induction a with
  | nil => rfl
  | cons c a ih =>
    have hhead := h (c :: a) List.suffix_rfl (List.cons_ne_nil c a)
    rw [List.cons_append] at hhead
    rw [List.cons_append, findFenced, List.length_cons, findFrom, hhead]
    exact ih fun s hs => h s (hs.trans (List.suffix_cons c a))

theorem matchFenced_none (h : skipOpening t = none) : matchFenced t = none := by
  rw [matchFenced, h]
  rfl

/-- Without a fence behind its first characters a text has no block. -/
theorem findFenced_none (h : ¬ fence <:+: t.drop 7) : findFenced t = [] := by
  have hall : ∀ s, s <:+ t → matchFenced s = none := by
    intro s hs
    cases hskip : skipOpening s with
    | none => exact matchFenced_none hskip
    | some body =>
      obtain ⟨o, ho, rfl⟩ := opening_of_skipOpening hskip
      obtain ⟨x, rfl⟩ := fenceJson_prefix ho
      obtain ⟨before, rfl⟩ := hs
      rw [matchFenced, hskip, Option.bind_some]
      apply splitFence_eq_none
      intro hi
      have hdrop : body <:+ (before ++ (fenceJson ++ x ++ body)).drop 7 := by
        rw [← List.append_assoc, List.drop_append_of_le_length]
        · exact List.suffix_append _ _
        · have hseven : fenceJson.length = 7 := rfl
          simp only [List.length_append]
          omega
      exact h (hi.trans hdrop.isInfix)
  have hskip := findFenced_skip (a := t) (b := []) fun s hs _ => by
    rw [List.append_nil]
    exact hall s hs
  rwa [List.append_nil] at hskip

end Blocks

/-- Text without fences and complete blocks. A block has lines without an opening
line of their own; the lines of a JSON text are such, since its strings contain no
line break, but they may well contain fences. -/
inductive Preceding : Text → Prop where
  | text {t : Text} (h : ¬ fence <:+: t) : Preceding t
  | block {before opening body t : Text} (hb : Preceding before) (ho : Opening opening)
      (hbody : ∀ o, Opening o → ¬ o <:+: body) (hline : body = [] ∨ ∃ b, body = b ++ ['\n'])
      (ht : ¬ fence <:+: t) : Preceding (before ++ opening ++ body ++ fence ++ '\n' :: t)

section Last
variable {F : FloatFormat}

/-- The closing fence of a block opens no other one. -/
theorem not_opening_closed {body o : Text} (hbody : ∀ o, Opening o → ¬ o <:+: body)
    (hline : body = [] ∨ ∃ b, body = b ++ ['\n']) (ho : Opening o) : ¬ o <:+: body ++ fence ++ ['\n'] := by
  rintro ⟨before, after, hsplit⟩
  obtain ⟨x, hx⟩ := fenceJson_prefix ho
  have hlong : 7 ≤ o.length := by
    rw [hx, List.length_append]
    exact Nat.le_add_right 7 _
  rw [List.append_assoc, List.append_assoc] at hsplit
  rcases List.append_eq_append_iff.mp hsplit with ⟨u, hu, htail⟩ | ⟨u, hu, htail⟩
  · have hp : o <+: u ++ (fence ++ ['\n']) := ⟨after, htail⟩
    rcases hline with rfl | ⟨b, rfl⟩
    · obtain ⟨-, rfl⟩ := List.append_eq_nil_iff.mp hu.symm
      have hlen := hp.length_le
      have hfour : ([] ++ (fence ++ ['\n'])).length = 4 := rfl
      omega
    · rcases List.eq_nil_or_concat u with rfl | ⟨u, c, rfl⟩
      · have hlen := hp.length_le
        have hfour : ([] ++ (fence ++ ['\n'])).length = 4 := rfl
        omega
      · rw [List.concat_eq_append, ← List.append_assoc] at hu
        obtain ⟨rfl, hc⟩ := List.append_inj' hu rfl
        cases hc
        have hpre : o <+: u ++ '\n' :: (fence ++ ['\n']) := by simpa using hp
        exact hbody o ho ((opening_of_append ho hpre).isInfix.trans ⟨before, [], by simp⟩)
  · have hlen := congrArg List.length htail
    have hfour : (fence ++ ['\n']).length = 4 := rfl
    rw [hfour] at hlen
    simp only [List.length_append] at hlen
    omega

theorem findFenced_text {t : Text} (h : ¬ fence <:+: t) (rest : Text) :
    findFenced (t ++ (fenceJson ++ rest)) = findFenced (fenceJson ++ rest) :=
  findFenced_skip fun _ hs hne => matchFenced_none (skipOpening_text h hs hne rest)

/-- What precedes the last block has its own blocks and leaves the rest alone. -/
theorem findFenced_preceding {before : Text} (h : Preceding before) (rest : Text) :
    ∃ blocks, findFenced (before ++ (fenceJson ++ rest)) = blocks ++ findFenced (fenceJson ++ rest) := by
  induction h generalizing rest with
  | text h => exact ⟨[], findFenced_text h rest⟩
  | @block before opening body t _ ho hbody hline ht ih =>
    obtain ⟨x, hx⟩ := fenceJson_prefix ho
    obtain ⟨blocks, hblocks⟩ := ih (x ++ (body ++ fence ++ '\n' :: (t ++ (fenceJson ++ rest))))
    obtain ⟨found, left, hsplit⟩ := splitFence_isSome (t := body ++ fence) ⟨body, [], by simp⟩
    have hmatch : matchFenced (fenceJson ++ (x ++ (body ++ fence ++ '\n' :: (t ++ (fenceJson ++ rest))))) =
        some (found, left ++ '\n' :: (t ++ (fenceJson ++ rest))) := by
      rw [← List.append_assoc, ← hx, matchFenced, skipOpening_opening ho, Option.bind_some]
      exact splitFence_append hsplit _
    have hleft : left ++ ['\n'] <:+ body ++ fence ++ ['\n'] := by
      rw [← splitFence_parts hsplit, List.append_assoc]
      exact List.suffix_append _ _
    have hskip : findFenced (left ++ '\n' :: (t ++ (fenceJson ++ rest))) = findFenced (t ++ (fenceJson ++ rest)) := by
      have hlines := findFenced_skip (a := left ++ ['\n']) (b := t ++ (fenceJson ++ rest)) fun s hs hne =>
        matchFenced_none (skipOpening_lines
          (fun o ho hi => not_opening_closed hbody hline ho (hi.trans hleft.isInfix)) hs hne _)
      rwa [List.append_assoc] at hlines
    have htext : before ++ opening ++ body ++ fence ++ '\n' :: t ++ (fenceJson ++ rest) =
        before ++ (fenceJson ++ (x ++ (body ++ fence ++ '\n' :: (t ++ (fenceJson ++ rest))))) := by
      rw [hx]
      simp only [List.append_assoc, List.cons_append]
    refine ⟨blocks ++ [found], ?_⟩
    rw [htext, hblocks, findFenced_match hmatch, hskip, findFenced_text ht, List.append_assoc, List.singleton_append]

/-- The last block: its lines, the text, and the closing fence. -/
def lastBlock (text after : Text) : Text := fenceJson ++ '\n' :: (text ++ '\n' :: (fence ++ after))

theorem opening_plain : Opening (fenceJson ++ ['\n']) := ⟨[], [], fun _ h => absurd h List.not_mem_nil, .inl rfl, rfl⟩

theorem skipOpening_lastBlock (text after : Text) :
    skipOpening (lastBlock text after) = some (text ++ '\n' :: (fence ++ after)) := rfl

theorem not_fence_infix {after : Text} (h : '`' ∉ after) : ¬ fence <:+: after :=
  fun hi => h (hi.subset (by decide))

/-- A text without a fence of its own is the last block found. -/
theorem findFenced_whole {text after : Text} (h : ¬ fence <:+: text) (ha : '`' ∉ after) :
    findFenced (lastBlock text after) = [text ++ ['\n']] := by
  have hmatch : matchFenced (lastBlock text after) = some (text ++ ['\n'], after) := by
    rw [matchFenced, skipOpening_lastBlock, Option.bind_some, splitFence_line h]
  have hnone : findFenced after = [] :=
    findFenced_none fun hi => not_fence_infix ha (hi.trans (List.drop_suffix 7 after).isInfix)
  rw [findFenced_match hmatch, hnone]

/-- A fence in the line of an object cuts the last block short. -/
theorem findFenced_cut {text after : Text} (h : fence <:+: text) (hline : '\n' ∉ text)
    (hend : ∃ body, text = body ++ ['}']) (ha : '`' ∉ after) :
    ∃ found left, found ++ fence ++ left = text ∧ findFenced (lastBlock text after) = [found] := by
  obtain ⟨found, left, hsplit⟩ := splitFence_isSome h
  have hparts := splitFence_parts hsplit
  have hmatch : matchFenced (lastBlock text after) = some (found, left ++ '\n' :: (fence ++ after)) := by
    rw [matchFenced, skipOpening_lastBlock, Option.bind_some, splitFence_append hsplit]
  -- what is left of the line ends with a brace, which ends no opening line
  have hlines : ∀ o, Opening o → ¬ o <:+: left ++ ['\n'] := by
    rintro o ho ⟨before, more, hinfix⟩
    obtain ⟨line, rfl, -⟩ := opening_line ho
    obtain ⟨body, hbody⟩ := hend
    have hleft : '\n' ∉ left := by
      intro hmem
      apply hline
      rw [← hparts]
      exact List.mem_append_right _ hmem
    rcases List.eq_nil_or_concat more with rfl | ⟨more, c, rfl⟩
    · rw [List.append_nil, ← List.append_assoc, List.append_left_inj] at hinfix
      rcases List.eq_nil_or_concat line with rfl | ⟨line, c, rfl⟩
      · obtain ⟨x, hx⟩ := fenceJson_prefix ho
        cases hx
      · rw [List.concat_eq_append] at hinfix ho
        have htext : found ++ fence ++ before ++ line ++ [c] = body ++ ['}'] := by
          rw [← hbody, ← hparts, ← hinfix]
          simp only [List.append_assoc]
        cases (List.append_inj' htext rfl).2
        have hlast := opening_last ho (List.append_assoc line ['}'] ['\n'])
        exact absurd hlast (by decide)
    · have hcut : before ++ line ++ '\n' :: more = left := by
        have hsnoc : (before ++ line ++ '\n' :: more) ++ [c] = left ++ ['\n'] := by
          rw [← hinfix]
          simp
        exact (List.append_inj' hsnoc rfl).1
      exact hleft (by simp [← hcut])
  have hskip : findFenced (left ++ '\n' :: (fence ++ after)) = findFenced (fence ++ after) := by
    have hall := findFenced_skip (a := left ++ ['\n']) (b := fence ++ after) fun s hs hne =>
      matchFenced_none (skipOpening_lines hlines hs hne _)
    rwa [List.append_assoc] at hall
  have hnone : findFenced (fence ++ after) = [] := by
    apply findFenced_none
    intro hi
    refine not_fence_infix ha (hi.trans ?_)
    exact (List.drop_suffix 4 after).isInfix
  refine ⟨found, left, hparts, ?_⟩
  rw [findFenced_match hmatch, hskip, hnone]

section Reply
variable {fields : List (Text × Json)} {before after : Text}

/-- What is taken from a reply is what the last block found is read as. -/
theorem extractResult_last (hb : Preceding before) {found : Text}
    (h : findFenced (lastBlock (dumps F true none (.obj fields)) after) = [found]) :
    extractResult F (before ++ lastBlock (dumps F true none (.obj fields)) after) =
      (loads F found).bind (normalizeResult F) := by
  obtain ⟨blocks, hblocks⟩ := findFenced_preceding hb
    ('\n' :: (dumps F true none (.obj fields) ++ '\n' :: (fence ++ after)))
  have hall : findFenced (before ++ lastBlock (dumps F true none (.obj fields)) after) = blocks ++ [found] := by
    rw [← h]
    exact hblocks
  rw [extractResult, hall, List.getLast?_concat]

variable (hd : Dumpable F (.obj fields))
include hd

theorem extractResult_whole (hb : Preceding before) (ha : '`' ∉ after)
    (h : ¬ fence <:+: dumps F true none (.obj fields)) :
    extractResult F (before ++ lastBlock (dumps F true none (.obj fields)) after) =
      normalizeResult F (.obj fields) := by
  have hload := loads_dumps true none hd [] ['\n'] (by simp) (List.all_eq_true.mp rfl)
  rw [List.nil_append] at hload
  rw [extractResult_last hb (findFenced_whole h ha), hload, Option.bind_some]

/-- The text before a fence is no JSON, so the whole result is lost. -/
theorem extractResult_cut (hb : Preceding before) (ha : '`' ∉ after)
    (h : fence <:+: dumps F true none (.obj fields)) :
    extractResult F (before ++ lastBlock (dumps F true none (.obj fields)) after) = none := by
  obtain ⟨found, left, hparts, hfound⟩ := findFenced_cut h (newline_notMem_dumpValue _ hd 0)
    (dumps_end none fields) ha
  have hload : loads F found = none := by
    cases hload : loads F found with
    | none => rfl
    | some v =>
      rw [List.append_assoc] at hparts
      cases (List.append_eq_nil_iff.mp (loads_of_append hd hparts hload)).1
  rw [extractResult_last hb hfound, hload]
  rfl

end Reply

/-- The last block of a reply is extracted exactly when its JSON text contains no fence. -/
theorem last_block_extracted_iff {fields : List (Text × Json)} {normalized : Json} (hd : Dumpable F (.obj fields))
    (hn : normalizeResult F (.obj fields) = some normalized) {before after : Text} (hb : Preceding before)
    (ha : '`' ∉ after) :
    extractResult F (before ++ lastBlock (dumps F true none (.obj fields)) after) = normalizeResult F (.obj fields) ↔
      ¬ fence <:+: dumps F true none (.obj fields) := by
  constructor
  · intro hsame hfence
    rw [extractResult_cut hd hb ha hfence, hn] at hsame
    cases hsame
  · exact extractResult_whole hd hb ha

theorem last_block_extracted_iff_second :
    extractResult .none ("First:\n".toList ++ (fenceJson ++ ['\n']) ++ "[1]\n".toList ++ fence ++ '\n' ::
        "Then:\n".toList ++ lastBlock (dumps .none true none (.obj [("summary".toList, .str "fine".toList)])) []) =
      normalizeResult .none (.obj [("summary".toList, .str "fine".toList)]) ↔
      ¬ fence <:+: dumps .none true none (.obj [("summary".toList, .str "fine".toList)]) := by
  have hshort : ∀ o, Opening o → ¬ o <:+: "[1]\n".toList := by
    intro o ho hi
    obtain ⟨x, rfl⟩ := fenceJson_prefix ho
    exact absurd (hi.subset (List.mem_append_left x (List.mem_cons_self))) (by decide)
  exact last_block_extracted_iff (by simp [Dumpable, DumpableFields]) rfl
    (.block (.text (by decide)) opening_plain hshort (.inr ⟨"[1]".toList, rfl⟩) (by decide)) (by decide)

/-- A result whose summary quotes a fence is lost. -/
theorem last_block_lost :
    ¬ ∀ (F : FloatFormat) (fields : List (Text × Json)) (normalized : Json), Dumpable F (.obj fields) →
      normalizeResult F (.obj fields) = some normalized → ∀ before, Preceding before →
        extractResult F (before ++ lastBlock (dumps F true none (.obj fields)) []) =
          normalizeResult F (.obj fields) := by
  intro hclaim
  have hd : Dumpable .none (.obj [("summary".toList, .str fence)]) := by simp [Dumpable, DumpableFields]
  have hsame := hclaim .none _ _ hd rfl [] (.text (by decide))
  rw [extractResult_cut hd (.text (by decide)) (by decide) (by decide)] at hsame
  cases hsame

end Last

end GitlabReviewer.Results
