import GitlabReviewer.Orchestrator.Opencode
import GitlabReviewer.Python.JsonTokens

/-! # When the two renderers agree

The entrypoint knows nothing of a profile's additions, and its template quotes the
model id as it is. So the documents agree when the additions change nothing and
the model id needs no escapes.
-/
namespace GitlabReviewer.Orchestrator
open Python Models Libraries

mutual
/-- Every value of the additions stands in the document already. -/
def Contained : Json → Json → Prop
  | .obj extra, base => ∃ fields, base = .obj fields ∧ ContainedFields extra fields
  | .null, base => Same base .null
  | .bool b, base => Same base (.bool b)
  | .int n, base => Same base (.int n)
  | .float f, base => Same base (.float f)
  | .str s, base => Same base (.str s)
  | .arr items, base => Same base (.arr items)
def ContainedFields : List (Text × Json) → List (Text × Json) → Prop
  | [], _ => True
  | (key, v) :: extra, fields => (∃ w, fields.lookup key = some w ∧ Contained v w) ∧ ContainedFields extra fields
end

theorem containedFields_iff {extra fields : List (Text × Json)} :
    ContainedFields extra fields ↔ ∀ f ∈ extra, ∃ w, fields.lookup f.1 = some w ∧ Contained f.2 w := by
  induction extra with
  | nil => simp [ContainedFields]
  | cons f extra ih =>
    obtain ⟨key, v⟩ := f
    simp [ContainedFields, ih]

/-- The value a key gets when `value` is merged over what it has. -/
def mergedValue (base : Option Json) (value : Json) : Json :=
  match base with
  | some base => deepMerge base value
  | none => value

theorem lookup_mergeFields {extra : List (Text × Json)} (h : (extra.map (·.1)).Nodup)
    (merged : List (Text × Json)) (key : Text) :
    (mergeFields merged extra).lookup key =
      ((extra.lookup key).map (mergedValue (merged.lookup key))).or (merged.lookup key) := by
  induction extra generalizing merged with
  | nil => rfl
  | cons f extra ih =>
    obtain ⟨k, v⟩ := f
    rw [List.map_cons, List.nodup_cons] at h
    have hstep : mergeFields merged ((k, v) :: extra) =
        mergeFields (insertField merged k (mergedValue (merged.lookup k) v)) extra := by
      rw [mergeFields]
      rfl
    rw [hstep, ih h.2, lookup_insertField]
    by_cases hk : key = k
    · subst hk
      rw [Foundation.lookup_of_not_mem h.1, if_pos rfl, List.lookup_cons_self]
      rfl
    · rw [if_neg hk, List.lookup_cons, beq_eq_false_iff_ne.mpr hk]

section Merge
variable {F : FloatFormat}

mutual
theorem contained_of_same : (extra base : Json) → Dumpable F extra → Dumpable F base →
    Same base (deepMerge base extra) → Contained extra base
  | .null, _, _, _, h => h
  | .bool _, _, _, _, h => h
  | .int _, _, _, _, h => h
  | .float _, _, _, _, h => h
  | .str _, _, _, _, h => h
  | .arr _, _, _, _, h => h
  | .obj extra, base, he, hb, h => by
      rw [Dumpable] at he
      cases base with
      | obj fields =>
        rw [Dumpable] at hb
        rw [deepMerge, Same] at h
        exact ⟨fields, rfl, containedFields_of_same extra fields he.1 he.2 hb extra he.1
          (fun f hf => hf) h.1 (sameFields_iff.mp h.2)⟩
      | _ => simp [deepMerge, Same] at h
theorem containedFields_of_same : (extra fields : List (Text × Json)) → (extra.map (·.1)).Nodup →
    DumpableFields F extra → (fields.map (·.1)).Nodup ∧ DumpableFields F fields → ∀ all : List (Text × Json),
    (all.map (·.1)).Nodup → (∀ f ∈ extra, f ∈ all) →
    (∀ key, (fields.lookup key).isSome = ((mergeFields fields all).lookup key).isSome) →
    (∀ f ∈ fields, ∃ w, (mergeFields fields all).lookup f.1 = some w ∧ Same f.2 w) → ContainedFields extra fields
  | [], _, _, _, _, _, _, _, _, _ => ⟨⟩
  | (key, v) :: extra, fields, hk, he, hb, all, hall, hsub, hkeys, hsame => by
      rw [DumpableFields] at he
      rw [List.map_cons, List.nodup_cons] at hk
      have hmem : all.lookup key = some v := lookup_of_mem hall (hsub (key, v) List.mem_cons_self)
      have hmerged := lookup_mergeFields hall fields key
      rw [hmem, Option.map_some, Option.some_or] at hmerged
      have hsome := hkeys key
      rw [hmerged, Option.isSome_some] at hsome
      obtain ⟨w, hw⟩ := Option.isSome_iff_exists.mp hsome
      obtain ⟨w', hw', hsame'⟩ := hsame (key, w) (mem_of_lookup hw)
      rw [hmerged, hw] at hw'
      cases hw'
      have hbase := (dumpableFields_iff F fields).mp hb.2 _ (mem_of_lookup hw)
      exact ⟨⟨w, hw, contained_of_same v w he.1 hbase hsame'⟩,
        containedFields_of_same extra fields hk.2 he.2 hb all hall
          (fun f hf => hsub f (List.mem_cons_of_mem _ hf)) hkeys hsame⟩
end

mutual
theorem same_of_contained : (extra base : Json) → Dumpable F extra → Dumpable F base →
    Contained extra base → Same base (deepMerge base extra)
  | .null, _, _, _, h => h
  | .bool _, _, _, _, h => h
  | .int _, _, _, _, h => h
  | .float _, _, _, _, h => h
  | .str _, _, _, _, h => h
  | .arr _, _, _, _, h => h
  | .obj extra, _, he, hb, h => by
      obtain ⟨fields, rfl, hfields⟩ := h
      rw [Dumpable] at he hb
      rw [containedFields_iff] at hfields
      have hmerged := sameFields_of_contained extra he.2
      rw [deepMerge, Same, sameFields_iff]
      constructor
      · intro key
        rw [lookup_mergeFields he.1]
        cases hv : extra.lookup key with
        | none => rfl
        | some v =>
          obtain ⟨w, hw, -⟩ := hfields (key, v) (mem_of_lookup hv)
          rw [hw]
          rfl
      · intro f hf
        have hbase := (dumpableFields_iff F fields).mp hb.2 f hf
        have hlookup := lookup_of_mem hb.1 hf
        rw [lookup_mergeFields he.1, hlookup]
        cases hv : extra.lookup f.1 with
        | none => exact ⟨f.2, rfl, same_refl f.2 hbase⟩
        | some v =>
          obtain ⟨w, hw, hcontained⟩ := hfields (f.1, v) (mem_of_lookup hv)
          rw [hlookup] at hw
          cases hw
          exact ⟨deepMerge f.2 v, rfl, hmerged _ (mem_of_lookup hv) f.2 hbase hcontained⟩
theorem sameFields_of_contained : (extra : List (Text × Json)) → DumpableFields F extra →
    ∀ f ∈ extra, ∀ w, Dumpable F w → Contained f.2 w → Same w (deepMerge w f.2)
  | [], _, f, hf, _, _, _ => absurd hf List.not_mem_nil
  | (key, v) :: extra, he, f, hf, w, hw, h => by
      rw [DumpableFields] at he
      rcases List.mem_cons.mp hf with rfl | hmem
      · exact same_of_contained v w he.1 hw h
      · exact sameFields_of_contained extra he.2 f hmem w hw h
end

end Merge

/-- The text from the body of the key `model` on. -/
def modelText (model lines : Text) : Text := "model\": \"".toList ++ (model ++ '"' :: ',' :: '\n' :: lines)

section Template
variable {F : FloatFormat} {provider model : Text} {block : Json}

theorem renderTemplate_eq (provider block model : Text) :
    renderTemplate provider block model = '\x7b' :: '\n' :: ' ' :: ' ' :: '"' :: ("provider".toList ++ '"' :: (':' :: ' ' ::
      '\x7b' :: '"' :: (provider ++ '"' :: (':' :: ' ' :: (block ++ '}' :: ',' :: '\n' :: ' ' :: ' ' :: '"' ::
        modelText model permissionLines))))) := by
  delta renderTemplate modelText
  simp only [String.reduceToList, List.append_assoc, List.cons_append, List.nil_append]

/-- The provider is read, whatever the model is. -/
theorem parseFields_provider (hp : ∀ c ∈ provider, Plain c) (hb : Dumpable F block) {fuel : ℕ}
    (hf : (dumps F true none block).length + 3 ≤ fuel) (rest : Text) :
    parseFields F (fuel + 1) [] ("provider".toList ++ '"' :: (':' :: ' ' :: '\x7b' :: '"' :: (provider ++ '"' ::
      (':' :: ' ' :: (dumps F true none block ++ '}' :: ',' :: '\n' :: ' ' :: ' ' :: '"' :: rest))))) =
      parseFields F fuel [("provider".toList, .obj [(provider, block)])] rest := by
  obtain ⟨k, rfl⟩ : ∃ k, fuel = k + 2 := ⟨fuel - 2, by omega⟩
  have hblock : parseValue F k (skipBlanks (' ' :: (dumps F true none block ++ '}' :: ',' :: '\n' :: ' ' :: ' ' :: '"' ::
      rest))) = some (block, '}' :: ',' :: '\n' :: ' ' :: ' ' :: '"' :: rest) := by
    rw [skipBlanks_space, dumps, skipBlanks_dumpValue true none hb]
    exact parseValue_dumpValue true none block hb 0 k _ (by rw [dumps] at hf; omega) (delimited_cons (by decide) _)
  have hinner : parseFields F (k + 1) [] _ = _ :=
    parseFields_close (parseString_plain hp _) (skipBlanks_colon _) hblock rfl
  have hvalue : parseValue F (k + 2) (skipBlanks (' ' :: '\x7b' :: '"' :: (provider ++ '"' :: (':' :: ' ' ::
      (dumps F true none block ++ '}' :: ',' :: '\n' :: ' ' :: ' ' :: '"' :: rest))))) =
        some (.obj [(provider, block)], ',' :: '\n' :: ' ' :: ' ' :: '"' :: rest) := by
    rw [skipBlanks_space, skipBlanks_of_begins ⟨by decide, by decide⟩, parseValue_object rfl, hinner]
    rfl
  rw [parseFields_comma (parseString_plain (plain_of_all (by decide)) _) (skipBlanks_colon _) hvalue rfl rfl]
  rfl

/-- What `json.loads` makes of the fields that were read. -/
def closeObject (x : Option (List (Text × Json) × Text)) : Option Json :=
  match x with
  | none => none
  | some (fields, rest) => if (skipBlanks rest).isEmpty then some (.obj fields) else none

theorem loads_object {text rest : Text} (h : skipBlanks text = '"' :: rest) :
    loads F ('\x7b' :: text) = closeObject (parseFields F (text.length + 1) [] rest) := by
  unfold loads
  rw [skipBlanks_of_begins ⟨by decide, by decide⟩, List.length_cons, parseValue_object h]
  cases parseFields F (text.length + 1) [] rest <;> rfl

/-- The document is read from its model on. -/
theorem loads_renderTemplate (hp : ∀ c ∈ provider, Plain c) (hb : Dumpable F block) (model : Text) :
    ∃ fuel, (modelText model permissionLines).length ≤ fuel ∧
      loads F (renderTemplate provider (dumps F true none block) model) =
        closeObject (parseFields F fuel [("provider".toList, .obj [(provider, block)])]
          (modelText model permissionLines)) := by
  rw [renderTemplate_eq, loads_object rfl]
  generalize modelText model permissionLines = rest
  refine ⟨_, ?_, congrArg closeObject (parseFields_provider hp hb ?_ rest)⟩
  · simp only [List.length_cons, List.length_append]
    omega
  · simp only [List.length_cons, List.length_append]
    omega

/-- The permission block of the template is the application's. -/
theorem permissionLines_eq (F : FloatFormat) :
    permissionLines = ' ' :: ' ' :: '"' :: ("permission".toList ++ '"' :: ':' :: ' ' ::
      (dumps F true none defaultPermissions ++ ['\n', '}', '\n'])) := by
  rfl

theorem modelText_eq (model lines : Text) :
    modelText model lines = "model".toList ++ '"' :: ':' :: ' ' :: '"' :: (model ++ '"' :: ',' :: '\n' :: lines) := by
  delta modelText
  simp only [String.reduceToList, List.cons_append, List.nil_append]

theorem parseValue_quote {fuel : ℕ} (text : Text) :
    parseValue F (fuel + 1) ('"' :: text) = (parseString text).map fun (s, rest) => (.str s, rest) := rfl

theorem dumpable_defaultPermissions : Dumpable F defaultPermissions := by
  rw [defaultPermissions, Dumpable]
  exact ⟨(by decide : ["bash".toList, "edit".toList, "webfetch".toList, "external_directory".toList].Nodup), ⟨⟩, ⟨⟩,
    ⟨⟩, ⟨⟩, ⟨⟩⟩

/-- A model that needs no escapes is read as it is. -/
theorem loads_plain (hp : ∀ c ∈ provider, Plain c) (hb : Dumpable F block) (hm : ∀ c ∈ model, Plain c) :
    loads F (renderTemplate provider (dumps F true none block) model) =
      some (.obj [("provider".toList, .obj [(provider, block)]), ("model".toList, .str model),
        ("permission".toList, defaultPermissions)]) := by
  obtain ⟨fuel, hfuel, hload⟩ := loads_renderTemplate hp hb model
  have hlines := permissionLines_eq F
  have hlen : (dumps F true none defaultPermissions).length + 6 ≤ (modelText model permissionLines).length := by
    rw [modelText_eq, hlines]
    simp only [List.length_cons, List.length_append]
    omega
  obtain ⟨k, rfl⟩ : ∃ k, fuel = k + 3 := ⟨fuel - 3, by omega⟩
  have hmodel : parseValue F (k + 2) (skipBlanks (' ' :: '"' :: (model ++ '"' :: ',' :: '\n' :: permissionLines))) =
      some (.str model, ',' :: '\n' :: permissionLines) := by
    rw [skipBlanks_space, skipBlanks_quote, parseValue_quote, parseString_plain hm]
    rfl
  have hpermission : parseValue F (k + 1) (skipBlanks (' ' :: (dumps F true none defaultPermissions ++
      ['\n', '}', '\n']))) = some (defaultPermissions, ['\n', '}', '\n']) := by
    rw [skipBlanks_space, dumps, skipBlanks_dumpValue true none dumpable_defaultPermissions]
    exact parseValue_dumpValue true none _ dumpable_defaultPermissions 0 _ _ (by rw [dumps] at hlen; omega)
      (delimited_cons (by decide) _)
  have hnext : skipBlanks ('\n' :: permissionLines) = '"' :: ("permission".toList ++ '"' :: ':' :: ' ' ::
      (dumps F true none defaultPermissions ++ ['\n', '}', '\n'])) := by
    rw [hlines]
    rfl
  rw [hload, modelText_eq, parseFields_comma (parseString_plain (plain_of_all (by decide)) _) (skipBlanks_colon _) hmodel rfl hnext,
    parseFields_close (parseString_plain (plain_of_all (by decide)) _) (skipBlanks_colon _) hpermission rfl]
  rfl

end Template

section Escapes
variable {s y z lines : Text}

theorem newline_notMem {body : Text} (h : ∀ c ∈ body, 0x20 ≤ c.toNat) : '\n' ∉ body :=
  fun hmem => absurd (h '\n' hmem) (by decide)

/-- No string begins at the end of a line. -/
theorem parseString_lineEnd : parseString (',' :: '\n' :: lines) ≠ some (s, z) := by
  intro h
  obtain ⟨body, htext, hmin, -⟩ := parseString_parts h
  match body with
  | [] => cases htext
  | [c] => cases htext
  | c :: d :: body =>
    cases htext
    exact newline_notMem hmin (by simp)

/-- A string that is read before the end of a line is not longer than what stands there. -/
theorem plain_of_parseString {u : Text} (h : parseString (u ++ '"' :: ',' :: '\n' :: lines) = some (s, z))
    (hlen : u.length ≤ s.length) : u = s ∧ ∀ c ∈ s, Plain c := by
  obtain ⟨body, htext, hmin, hle, hwhole⟩ := parseString_parts h
  have hp : u <+: body := by
    have hu : u <+: body ++ '"' :: z := by
      rw [← htext]
      exact List.prefix_append _ _
    apply List.prefix_of_prefix_length_le hu (List.prefix_append _ _)
    omega
  obtain ⟨more, rfl⟩ := hp
  rw [List.append_assoc, List.append_cancel_left_eq] at htext
  match more with
  | [] =>
    rw [List.append_nil] at hwhole hle
    obtain ⟨rfl, hplain⟩ := hwhole (.inl (by omega))
    exact ⟨rfl, hplain⟩
  | [c] => cases htext
  | [c, d] => cases htext
  | c :: d :: e :: more =>
    cases htext
    exact absurd (by simp) (newline_notMem hmin)

/-- If the model's value stands anywhere behind its key, it needs no escapes. -/
theorem plain_of_occurs (hs : '/' ∈ s) (hslash : '/' ∉ lines) (hback : '\\' ∉ lines)
    (h : Occurs s (modelText s lines)) : ∀ c ∈ s, Plain c := by
  obtain ⟨before, body, rest, htext, hread⟩ := h
  rw [modelText_eq] at htext
  have hkey : "model".toList = ['m', 'o', 'd', 'e', 'l'] := rfl
  rw [hkey] at htext
  match before with
  | [] => cases htext
  | [_] => cases htext
  | [_, _] => cases htext
  | [_, _, _] => cases htext
  | [_, _, _, _] => cases htext
  | [_, _, _, _, _] =>
    cases htext
    have hcolon := parseString_plain (s := [':', ' ']) (plain_of_all (by decide)) (s ++ '"' :: ',' :: '\n' :: lines)
    obtain ⟨rfl, -⟩ := Prod.mk.inj (Option.some.inj (hread.symm.trans hcolon))
    exact absurd hs (by decide)
  | [_, _, _, _, _, _] => cases htext
  | [_, _, _, _, _, _, _] => cases htext
  | [_, _, _, _, _, _, _, _] =>
    cases htext
    exact (plain_of_parseString hread (le_refl _)).2
  | _ :: _ :: _ :: _ :: _ :: _ :: _ :: _ :: _ :: before =>
    simp only [List.cons_append, List.nil_append, List.cons.injEq] at htext
    obtain ⟨-, -, -, -, -, -, -, -, -, htext⟩ := htext
    rcases List.append_eq_append_iff.mp htext with ⟨u, rfl, hu⟩ | ⟨u, hu, hbody⟩
    · -- behind the model
      match u with
      | [] =>
        cases hu
        exact absurd hread parseString_lineEnd
      | [_] => cases hu
      | [_, _] => cases hu
      | _ :: _ :: _ :: u =>
        cases hu
        obtain ⟨part, hpart, -, -, hwhole⟩ := parseString_parts hread
        have hsub : ∀ c ∈ part, c ∈ u ++ '"' :: body := by
          intro c hc
          rw [hpart]
          simp [hc]
        obtain ⟨rfl, -⟩ := hwhole (.inr fun hc => hback (hsub _ hc))
        exact absurd (hsub _ hs) hslash
    · -- inside the model
      cases u with
      | nil =>
        cases hbody
        exact absurd hread parseString_lineEnd
      | cons c u =>
        cases hbody
        have hlen : u.length < s.length := by
          rw [hu, List.length_append, List.length_cons]
          omega
        obtain ⟨rfl, -⟩ := plain_of_parseString hread (by omega)
        omega

end Escapes

section Agreement
variable {E : Runtime} {F : FloatFormat} {C : Process} {job : ScheduledJob} {profile : ModelProfile}
  {settings : SettingsRow} {mr : MergeRequest} {env : Env}

/-- A text was written, and the document in it equals the configuration. -/
def Agree (F : FloatFormat) (written : Option Text) (config : Option Json) : Prop :=
  ∃ text doc expected, written = some text ∧ loads F text = some doc ∧ config = some expected ∧ Same doc expected

/-- The document of a profile without its additions. -/
def profileConfig (C : Process) (profile : ModelProfile) (apiKey : Text) : Json :=
  baseConfig profile.provider profile.modelId (providerBlock C profile apiKey)

/-- The profile's additions stand in its document already, and its model id needs
no escapes in JSON. -/
def Fits (C : Process) (profile : ModelProfile) : Prop :=
  (∀ c ∈ profile.modelId, Plain c) ∧
    ∃ apiKey, resolveApiKey C profile = some apiKey ∧ Contained profile.extraOpencodeJson (profileConfig C profile apiKey)

/-- The profile's additions do not give the document another model. -/
def KeepsModel (profile : ModelProfile) : Prop :=
  ∀ fields v, profile.extraOpencodeJson = .obj fields → fields.lookup "model".toList = some v →
    v = .str (modelName profile.provider profile.modelId)

theorem plain_provider (h : Accepted F profile) : ∀ c ∈ profile.provider, Plain c := by
  rcases h.provider with heq | heq
  · rw [heq]
    exact plain_of_all (by decide)
  · rw [heq]
    exact plain_of_all (by decide)

theorem dumpable_apiKeyOption (apiKey : Text) : Dumpable F (.obj (apiKeyOption apiKey)) := by
  unfold apiKeyOption
  split
  · exact ⟨List.nodup_nil, ⟨⟩⟩
  · exact ⟨List.nodup_singleton _, ⟨⟩, ⟨⟩⟩

theorem dumpable_modelEntry (h : Accepted F profile) :
    Dumpable F (modelEntry profile.modelId (contextWindow profile)) := by
  cases hw : contextWindow profile with
  | none => exact ⟨List.nodup_singleton _, ⟨⟩, ⟨⟩⟩
  | some window =>
    have hwindow : window.natAbs < 10 ^ intMaxStrDigits := by
      unfold contextWindow at hw
      split at hw
      · rename_i n hn
        split at hw
        · cases hw
        · cases hw
          exact (h.window window hn).2
      · cases hw
    have houtput : defaultMaxOutputTokens.natAbs < 10 ^ intMaxStrDigits := by
      have hfive : 10 ^ 5 ≤ 10 ^ intMaxStrDigits := Nat.pow_le_pow_right (by omega) (by decide)
      have hsmall : defaultMaxOutputTokens.natAbs < 10 ^ 5 := by decide
      omega
    have hlimit : Dumpable F (.obj [("context".toList, .int window), ("output".toList, .int defaultMaxOutputTokens)]) :=
      ⟨(by decide : ["context".toList, "output".toList].Nodup), hwindow, houtput, ⟨⟩⟩
    exact ⟨(by decide : ["name".toList, "limit".toList].Nodup), ⟨⟩, hlimit, ⟨⟩⟩

theorem dumpable_providerBlock (h : Accepted F profile) (apiKey : Text) :
    Dumpable F (providerBlock C profile apiKey) := by
  have hkey := dumpable_apiKeyOption (F := F) apiKey
  unfold providerBlock
  split
  · exact ⟨(by decide : ["npm".toList, "options".toList].Nodup), ⟨⟩, hkey, ⟨⟩⟩
  · have hoptions : Dumpable F (.obj (("baseURL".toList, .str (resolveBaseUrl C profile)) :: apiKeyOption apiKey)) := by
      unfold apiKeyOption
      split
      · exact ⟨List.nodup_singleton _, ⟨⟩, ⟨⟩⟩
      · exact ⟨(by decide : ["baseURL".toList, "apiKey".toList].Nodup), ⟨⟩, ⟨⟩, ⟨⟩⟩
    have hmodels : Dumpable F (.obj [(profile.modelId, modelEntry profile.modelId (contextWindow profile))]) :=
      ⟨List.nodup_singleton _, dumpable_modelEntry h, ⟨⟩⟩
    exact ⟨(by decide : ["npm".toList, "options".toList, "models".toList].Nodup), ⟨⟩, hoptions, hmodels, ⟨⟩⟩

theorem dumpable_profileConfig (h : Accepted F profile) (apiKey : Text) :
    Dumpable F (profileConfig C profile apiKey) := by
  have hprovider : Dumpable F (.obj [(profile.provider, providerBlock C profile apiKey)]) :=
    ⟨List.nodup_singleton _, dumpable_providerBlock h apiKey, ⟨⟩⟩
  exact ⟨(by decide : ["provider".toList, "model".toList, "permission".toList].Nodup), hprovider, ⟨⟩,
    dumpable_defaultPermissions, ⟨⟩⟩

theorem renderOpencodeJson_eq (h : Accepted F profile) {apiKey : Text} (hkey : resolveApiKey C profile = some apiKey) :
    renderOpencodeJson C profile =
      some (deepMerge (profileConfig C profile apiKey) profile.extraOpencodeJson) := by
  obtain ⟨fields, hfields, -⟩ := h.extra
  rw [renderOpencodeJson, hkey, Option.map_some, hfields]
  cases fields with
  | nil => rfl
  | cons f fields => rfl

/-- The template's text ends with its last line. -/
theorem renderOpencodeConfig_eq :
    renderOpencodeConfig F env = if (loads F (renderedText F env)).isSome then some (renderedText F env) else none := by
  obtain ⟨body, hbody⟩ : ['}', '\n'] <:+ renderedText F env := by
    have hlines : ['}', '\n'] <:+ permissionLines := by decide +kernel
    refine hlines.trans ?_
    delta renderedText renderTemplate
    exact List.suffix_append _ _
  have hstrip : rstripNewlines (renderedText F env) ++ ['\n'] = renderedText F env := by
    have hsplit : renderedText F env = body ++ ['}'] ++ ['\n'] := by
      rw [← hbody, List.append_assoc]
      rfl
    rw [hsplit, rstripNewlines, List.rdropWhile_concat_pos _ _ _ rfl, List.rdropWhile_concat_neg _ _ _ (by decide)]
  rw [renderOpencodeConfig, hstrip]

variable {apiKey : Text}

theorem renderedText_of_carries (h : Carries C profile apiKey env) (ha : Accepted F profile) :
    renderedText F env = renderTemplate profile.provider (dumps F true none (providerBlock C profile apiKey))
      (modelName profile.provider profile.modelId) := by
  rw [renderedText, h.provider, h.model, envProviderBlock_of_carries h ha]

theorem plain_modelName (ha : Accepted F profile) :
    (∀ c ∈ modelName profile.provider profile.modelId, Plain c) ↔ ∀ c ∈ profile.modelId, Plain c := by
  constructor
  · intro h c hc
    exact h c (List.mem_append_right _ (List.mem_cons_of_mem _ hc))
  · intro h c hc
    rcases List.mem_append.mp hc with hc | hc
    · exact plain_provider ha c hc
    · rcases List.mem_cons.mp hc with rfl | hc
      · decide
      · exact h c hc

/-- What the entrypoint writes for a model id without escapes. -/
theorem loads_renderedText (h : Carries C profile apiKey env) (ha : Accepted F profile)
    (hm : ∀ c ∈ profile.modelId, Plain c) : loads F (renderedText F env) = some (profileConfig C profile apiKey) := by
  rw [renderedText_of_carries h ha, loads_plain (plain_provider ha) (dumpable_providerBlock ha apiKey)
    ((plain_modelName ha).mpr hm)]
  rfl

theorem agree_iff_same (ha : Accepted F profile)
    (hkey : resolveApiKey C profile = some apiKey) :
    Agree F (renderOpencodeConfig F env) (renderOpencodeJson C profile) ↔
      ∃ doc, loads F (renderedText F env) = some doc ∧
        Same doc (deepMerge (profileConfig C profile apiKey) profile.extraOpencodeJson) := by
  rw [renderOpencodeConfig_eq, renderOpencodeJson_eq ha hkey]
  constructor
  · rintro ⟨text, doc, expected, hwritten, hload, hexpected, hsame⟩
    cases hexpected
    split at hwritten
    · cases hwritten
      exact ⟨doc, hload, hsame⟩
    · cases hwritten
  · rintro ⟨doc, hload, hsame⟩
    exact ⟨_, doc, _, by rw [hload]; rfl, hload, rfl, hsame⟩

/-- With a plain model id only the additions matter. -/
theorem agree_iff_contained (h : Carries C profile apiKey env) (ha : Accepted F profile)
    (hkey : resolveApiKey C profile = some apiKey) (hm : ∀ c ∈ profile.modelId, Plain c) :
    Agree F (renderOpencodeConfig F env) (renderOpencodeJson C profile) ↔
      Contained profile.extraOpencodeJson (profileConfig C profile apiKey) := by
  obtain ⟨fields, hfields, hdump⟩ := ha.extra
  have hextra : Dumpable F profile.extraOpencodeJson := by rw [hfields]; exact hdump
  have hbase := dumpable_profileConfig (C := C) ha apiKey
  rw [agree_iff_same ha hkey, loads_renderedText h ha hm]
  constructor
  · rintro ⟨doc, hdoc, hsame⟩
    cases hdoc
    exact contained_of_same _ _ hextra hbase hsame
  · intro hcontained
    exact ⟨_, rfl, same_of_contained _ _ hextra hbase hcontained⟩

theorem lookup_model (ha : Accepted F profile) (hk : KeepsModel profile) (apiKey : Text) :
    ∃ merged, deepMerge (profileConfig C profile apiKey) profile.extraOpencodeJson = .obj merged ∧
      merged.lookup "model".toList = some (.str (modelName profile.provider profile.modelId)) := by
  obtain ⟨fields, hfields, hdump⟩ := ha.extra
  rw [Dumpable] at hdump
  rw [hfields]
  refine ⟨_, rfl, ?_⟩
  rw [lookup_mergeFields hdump.1]
  cases hv : fields.lookup "model".toList with
  | none => rfl
  | some v =>
    rw [hk fields v hfields hv]
    rfl

theorem same_str {v : Json} {s : Text} (h : Same v (.str s)) : v = .str s := by
  cases v with
  | str t => exact Eq.symm h
  | _ => simp [Same] at h

/-- If the documents agree on the model, its id needs no escapes. -/
theorem plain_of_agree (h : Carries C profile apiKey env) (ha : Accepted F profile)
    (hkey : resolveApiKey C profile = some apiKey) (hk : KeepsModel profile)
    (hagree : Agree F (renderOpencodeConfig F env) (renderOpencodeJson C profile)) :
    ∀ c ∈ profile.modelId, Plain c := by
  obtain ⟨doc, hload, hsame⟩ := (agree_iff_same ha hkey).mp hagree
  obtain ⟨merged, hmerged, hmodel⟩ := lookup_model (C := C) ha hk apiKey
  obtain ⟨fuel, -, hread⟩ := loads_renderTemplate (plain_provider ha) (dumpable_providerBlock (C := C) ha apiKey)
    (modelName profile.provider profile.modelId)
  rw [renderedText_of_carries h ha, hread] at hload
  rw [hmerged] at hsame
  unfold closeObject at hload
  split at hload
  · cases hload
  · rename_i fields rest hfields
    split at hload
    · cases hload
      rw [Same, sameFields_iff] at hsame
      obtain ⟨hkeys, hvalues⟩ := hsame
      have hsome := hkeys "model".toList
      rw [hmodel, Option.isSome_some] at hsome
      obtain ⟨v, hv⟩ := Option.isSome_iff_exists.mp hsome
      obtain ⟨w, hw, hvw⟩ := hvalues _ (mem_of_lookup hv)
      rw [hmodel] at hw
      cases hw
      have hstr : v = .str (modelName profile.provider profile.modelId) := same_str hvw
      subst hstr
      rcases ((readFrom fuel).fields hfields).2 _ (mem_of_lookup hv) with hmade | hoccurs
      · rw [List.mem_singleton] at hmade
        cases hmade
      · refine (plain_modelName ha).mp (plain_of_occurs ?_ ?_ ?_ (hoccurs _ rfl))
        · exact List.mem_append_right _ List.mem_cons_self
        · decide +kernel
        · decide +kernel
    · cases hload

theorem agree_of_fits (h : Carries C profile apiKey env) (ha : Accepted F profile)
    (hkey : resolveApiKey C profile = some apiKey) :
    Fits C profile ↔ (∀ c ∈ profile.modelId, Plain c) ∧
      Agree F (renderOpencodeConfig F env) (renderOpencodeJson C profile) := by
  constructor
  · rintro ⟨hm, key, hkey', hcontained⟩
    rw [hkey] at hkey'
    cases hkey'
    exact ⟨hm, (agree_iff_contained h ha hkey hm).mpr hcontained⟩
  · rintro ⟨hm, hagree⟩
    exact ⟨hm, apiKey, hkey, (agree_iff_contained h ha hkey hm).mp hagree⟩

/-- The renderers agree on every profile that fits, and, unless the additions of the
profile set another model than a quoting model id would, on no other. -/
theorem renderers_agree (ha : Accepted F profile) (henv : buildEnv E F C job profile settings mr = some env) :
    (Fits C profile → Agree F (renderOpencodeConfig F env) (renderOpencodeJson C profile)) ∧
      ((∀ c ∈ profile.modelId, Plain c) ∨ KeepsModel profile →
        Agree F (renderOpencodeConfig F env) (renderOpencodeJson C profile) → Fits C profile) := by
  obtain ⟨apiKey, hkey, hcarries⟩ := carries_buildEnv henv
  constructor
  · intro hfits
    exact ((agree_of_fits hcarries ha hkey).mp hfits).2
  · intro hcase hagree
    refine (agree_of_fits hcarries ha hkey).mpr ⟨?_, hagree⟩
    rcases hcase with hm | hk
    · exact hm
    · exact plain_of_agree hcarries ha hkey hk hagree

end Agreement

def plainRuntime : Runtime := { str := fun _ => [], netlocOk := fun _ => true, digest := fun _ => "000000".toList }

def plainProcess : Process :=
  { environ := [], llamaBaseUrl := none, anthropicApiKey := none, reviewTimeoutSeconds := 1800, decrypt := some }

def plainJob : ScheduledJob :=
  { id := 1, mergeRequestId := 1, modelProfileId := 1, promptOverride := none, extraProjects := [],
    scheduleType := .immediate, position := 1, status := .running, postToGitlab := none, createdAt := none,
    updatedAt := none }

def plainSettings : SettingsRow :=
  { gitlabUrl := [], gitlabProject := [], gitlabToken := [], defaultReviewPrompt := [], gitlabDefaultBranch := none }

def plainMergeRequest : MergeRequest :=
  { id := 1, project := [], iid := 7, title := [], author := [], sourceBranch := [], targetBranch := [], sha := [],
    webUrl := [], state := "opened".toList, updatedAt := none, lastSeenAt := none }

def profileWith (extra : List (Text × Json)) : ModelProfile :=
  { id := 1, name := "sonnet".toList, provider := anthropicProvider, modelId := "sonnet".toList, baseUrl := none,
    apiKey := none, apiKeyEnv := none, isDefault := true, extraOpencodeJson := .obj extra, contextWindow := some 200000 }

theorem accepted_profileWith {F : FloatFormat} {extra : List (Text × Json)} (h : Dumpable F (.obj extra)) :
    Accepted F (profileWith extra) where
  provider := .inl rfl
  modelId := (by decide : "sonnet".toList ≠ [] ∧ strip "sonnet".toList = "sonnet".toList)
  baseUrl h := absurd h (by decide : anthropicProvider ≠ localProvider)
  extra := ⟨extra, rfl, h⟩
  window n hn := by
    cases hn
    have hsix : 10 ^ 6 ≤ 10 ^ intMaxStrDigits := Nat.pow_le_pow_right (by omega) (by decide)
    exact ⟨by omega, by omega⟩

theorem buildEnv_plain (extra : List (Text × Json)) :
    ∃ env, buildEnv plainRuntime .none plainProcess plainJob (profileWith extra) plainSettings plainMergeRequest =
      some env :=
  ⟨_, rfl⟩

theorem renderers_agree_sonnet :
    ∃ env, buildEnv plainRuntime .none plainProcess plainJob (profileWith []) plainSettings plainMergeRequest = some env ∧
      (Fits plainProcess (profileWith []) →
        Agree .none (renderOpencodeConfig .none env) (renderOpencodeJson plainProcess (profileWith []))) ∧
      ((∀ c ∈ (profileWith []).modelId, Plain c) ∨ KeepsModel (profileWith []) →
        Agree .none (renderOpencodeConfig .none env) (renderOpencodeJson plainProcess (profileWith [])) →
          Fits plainProcess (profileWith [])) := by
  obtain ⟨env, henv⟩ := buildEnv_plain []
  exact ⟨env, henv, renderers_agree (accepted_profileWith ⟨List.nodup_nil, ⟨⟩⟩) henv⟩

/-- The container never learns of the profile's additions. -/
theorem additions_ignored :
    ¬ ∀ (E : Runtime) (F : FloatFormat) (C : Process) (job : ScheduledJob) (profile : ModelProfile)
      (settings : SettingsRow) (mr : MergeRequest) (env : Env), Accepted F profile →
        buildEnv E F C job profile settings mr = some env →
          Agree F (renderOpencodeConfig F env) (renderOpencodeJson C profile) := by
  intro hclaim
  have ha : Accepted .none (profileWith [("theme".toList, .str "dark".toList)]) :=
    accepted_profileWith ⟨List.nodup_singleton _, ⟨⟩, ⟨⟩⟩
  obtain ⟨env, henv⟩ := buildEnv_plain [("theme".toList, .str "dark".toList)]
  have hagree := hclaim _ _ _ _ _ _ _ env ha henv
  obtain ⟨apiKey, hkey, hcarries⟩ := carries_buildEnv henv
  have hplain : ∀ c ∈ "sonnet".toList, Plain c := plain_of_all (by decide)
  obtain ⟨fields, hfields, hcontained⟩ := (agree_iff_contained hcarries ha hkey hplain).mp hagree
  obtain ⟨⟨w, hw, -⟩, -⟩ := hcontained
  cases hfields
  cases hw

end GitlabReviewer.Orchestrator
