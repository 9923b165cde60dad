import GitlabReviewer.Entrypoint.Session
import GitlabReviewer.Foundation.Dictionary
import GitlabReviewer.Secrets.Strings

/-! # The two scrubbers of JSON values

The container scrubs what it writes and the application scrubs what it stores,
each with its own recursion and its own choice of the secrets. They are one
function of the value and the environment. Keys that become equal share an
entry, at the place of the first and with the value of the last.
-/
namespace GitlabReviewer.Entrypoint.Value
open Foundation

/-- Induction with a hypothesis for each item and each field. -/
@[elab_as_elim]
theorem memberInduction {motive : Value → Prop} (null : motive .null) (bool : ∀ b, motive (.bool b)) (int : ∀ n, motive (.int n))
    (float : ∀ f, motive (.float f)) (str : ∀ s, motive (.str s))
    (arr : ∀ items, (∀ item ∈ items, motive item) → motive (.arr items))
    (obj : ∀ fields, (∀ f ∈ fields, motive f.2) → motive (.obj fields)) (value : Value) : motive value :=
  @Value.rec motive (fun items => ∀ item ∈ items, motive item) (fun fields => ∀ f ∈ fields, motive f.2) (fun f => motive f.2)
    null bool int float str arr obj (List.forall_mem_nil _) (fun _ _ hitem hitems => List.forall_mem_cons.mpr ⟨hitem, hitems⟩)
    (List.forall_mem_nil _) (fun _ _ hf hfields => List.forall_mem_cons.mpr ⟨hf, hfields⟩) (fun _ _ hvalue => hvalue) value

mutual
/-- The strings and the keys of a value. -/
def texts : Value → List Str
  | .str s => [s]
  | .arr items => textsItems items
  | .obj fields => textsFields fields
  | _ => []
def textsItems : List Value → List Str
  | [] => []
  | item :: items => texts item ++ textsItems items
def textsFields : List (Str × Value) → List Str
  | [] => []
  | (key, item) :: fields => key :: texts item ++ textsFields fields
end

theorem mem_textsItems {t : Str} {items : List Value} : t ∈ textsItems items ↔ ∃ item ∈ items, t ∈ texts item := by
  induction items with
  | nil => simp [textsItems]
  | cons item items ih => simp [textsItems, ih]

theorem mem_textsFields {t : Str} {fields : List (Str × Value)} :
    t ∈ textsFields fields ↔ ∃ f ∈ fields, t = f.1 ∨ t ∈ texts f.2 := by
  induction fields with
  | nil => simp [textsFields]
  | cons f fields ih => simp [textsFields, ih, or_assoc]

mutual
/-- No object has a key twice. -/
def Distinct : Value → Prop
  | .arr items => DistinctItems items
  | .obj fields => (fields.map Prod.fst).Nodup ∧ DistinctFields fields
  | _ => True
def DistinctItems : List Value → Prop
  | [] => True
  | item :: items => Distinct item ∧ DistinctItems items
def DistinctFields : List (Str × Value) → Prop
  | [] => True
  | (_, item) :: fields => Distinct item ∧ DistinctFields fields
end

theorem distinctItems_iff {items : List Value} : DistinctItems items ↔ ∀ item ∈ items, Distinct item := by
  induction items with
  | nil => simp [DistinctItems]
  | cons item items ih => rw [DistinctItems, ih, List.forall_mem_cons]

theorem distinctFields_iff {fields : List (Str × Value)} : DistinctFields fields ↔ ∀ f ∈ fields, Distinct f.2 := by
  induction fields with
  | nil => simp [DistinctFields]
  | cons f fields ih => rw [DistinctFields, ih, List.forall_mem_cons]

/-- The fields under the keys that `s` makes of theirs. -/
def rekey (s : Str → Str) (fields : List (Str × Value)) : List (Str × Value) := fields.map fun f => (s f.1, f.2)

/-- `value'` is `value` with its strings and keys changed by `s`: scalars and the
lengths of lists are kept, and of the fields whose keys become equal the last. -/
inductive Kept (s : Str → Str) : Value → Value → Prop
  | null : Kept s .null .null
  | bool (b : Bool) : Kept s (.bool b) (.bool b)
  | int (n : ℤ) : Kept s (.int n) (.int n)
  | float (f : Python.Float) : Kept s (.float f) (.float f)
  | str (t : Str) : Kept s (.str t) (.str (s t))
  | arr {items items' : List Value} (length : items'.length = items.length) (each : ∀ p ∈ items.zip items', Kept s p.1 p.2) :
      Kept s (.arr items) (.arr items')
  | obj {fields fields' : List (Str × Value)} (nodup : (fields'.map Prod.fst).Nodup)
      (keys : ∀ k, k ∈ fields'.map Prod.fst ↔ k ∈ (rekey s fields).map Prod.fst)
      (last : ∀ f' ∈ fields', ∀ value, LastOf (rekey s fields) (f'.1, value) → Kept s value f'.2) :
      Kept s (.obj fields) (.obj fields')

section Scrub
variable {secrets : List Str}

theorem scrubItems_eq (items : List Value) : scrubItems secrets items = items.map (scrubValue secrets) := by
  induction items with
  | nil => rfl
  | cons item items ih => rw [scrubItems, ih, List.map_cons]

def scrubField (secrets : List Str) (f : Str × Value) : Str × Value := (scrub secrets f.1, scrubValue secrets f.2)

theorem scrubFields_eq (fields : List (Str × Value)) : scrubFields secrets [] fields = fromPairs (fields.map (scrubField secrets)) := by
  have hmade : ∀ made, scrubFields secrets made fields =
      (fields.map (scrubField secrets)).foldl (fun d f => setKey d f.1 f.2) made := by
    induction fields with
    | nil => exact fun made => rfl
    | cons f fields ih =>
      intro made
      rw [scrubFields, setField_eq, ih, List.map_cons, List.foldl_cons, scrubField]
  exact hmade []

theorem mem_texts_scrubValue {value : Value} {t : Str} (h : t ∈ texts (scrubValue secrets value)) : ∃ u, t = scrub secrets u := by
  induction value using memberInduction with
  | null | bool | int | float => cases h
  | str s => exact ⟨s, List.mem_singleton.mp h⟩
  | arr items ih =>
    rw [scrubValue, texts, mem_textsItems, scrubItems_eq] at h
    obtain ⟨_, hmem, ht⟩ := h
    obtain ⟨item, hitem, rfl⟩ := List.mem_map.mp hmem
    exact ih item hitem ht
  | obj fields ih =>
    rw [scrubValue, texts, mem_textsFields, scrubFields_eq] at h
    obtain ⟨_, hmem, ht⟩ := h
    obtain ⟨f, hf, rfl⟩ := List.mem_map.mp (lastOf_of_mem_fromPairs hmem).mem
    rcases ht with rfl | ht
    · exact ⟨f.1, rfl⟩
    · exact ih f hf ht

theorem distinct_scrubValue (value : Value) : Distinct (scrubValue secrets value) := by
  induction value using memberInduction with
  | null | bool | int | float | str => trivial
  | arr items ih =>
    rw [scrubValue, Distinct, distinctItems_iff, scrubItems_eq]
    exact List.forall_mem_map.mpr ih
  | obj fields ih =>
    rw [scrubValue, Distinct, distinctFields_iff, scrubFields_eq]
    refine ⟨nodup_fromPairs _, fun _ hmem => ?_⟩
    obtain ⟨f, hf, rfl⟩ := List.mem_map.mp (lastOf_of_mem_fromPairs hmem).mem
    exact ih f hf

theorem kept_scrubValue (value : Value) : Kept (scrub secrets) value (scrubValue secrets value) := by
  induction value using memberInduction with
  | null => exact .null
  | bool b => exact .bool b
  | int n => exact .int n
  | float f => exact .float f
  | str s => exact .str s
  | arr items ih =>
    rw [scrubValue, scrubItems_eq]
    refine .arr (List.length_map _) fun p hp => ?_
    rw [← List.map_prod_left_eq_zip] at hp
    obtain ⟨item, hitem, rfl⟩ := List.mem_map.mp hp
    exact ih item hitem
  | obj fields ih =>
    rw [scrubValue, scrubFields_eq]
    refine .obj (nodup_fromPairs _) (fun k => ?_) fun f' hf' value hlast => ?_
    · rw [mem_keys_fromPairs, rekey, List.map_map, List.map_map]
      rfl
    · have hpairs : fields.map (scrubField secrets) = (rekey (scrub secrets) fields).map fun p => (p.1, scrubValue secrets p.2) := by
        rw [rekey, List.map_map]
        rfl
      have hmine : LastOf (fields.map (scrubField secrets)) (f'.1, scrubValue secrets value) := hpairs ▸ hlast.map (scrubValue secrets)
      rw [(lastOf_of_mem_fromPairs hf').unique hmine]
      obtain ⟨f, hf, heq⟩ := List.mem_map.mp hlast.mem
      obtain rfl : f.2 = value := congrArg Prod.snd heq
      exact ih f hf

/-- Scrubbing leaves a value alone whose strings and keys it leaves alone. -/
theorem scrubValue_of_texts {value : Value} (hvalue : Distinct value) (h : ∀ t ∈ texts value, scrub secrets t = t) :
    scrubValue secrets value = value := by
  induction value using memberInduction with
  | null | bool | int | float => rfl
  | str s => exact congrArg Value.str (h s (List.mem_singleton_self s))
  | arr items ih =>
    rw [Distinct, distinctItems_iff] at hvalue
    rw [scrubValue, scrubItems_eq]
    refine congrArg Value.arr ((List.map_congr_left fun item hitem => ?_).trans (List.map_id items))
    exact ih item hitem (hvalue item hitem) fun t ht => h t (mem_textsItems.mpr ⟨item, hitem, ht⟩)
  | obj fields ih =>
    rw [Distinct, distinctFields_iff] at hvalue
    have hfields : fields.map (scrubField secrets) = fields := by
      refine (List.map_congr_left fun f hf => ?_).trans (List.map_id fields)
      have hkey : scrub secrets f.1 = f.1 := h f.1 (mem_textsFields.mpr ⟨f, hf, .inl rfl⟩)
      have hitem : scrubValue secrets f.2 = f.2 :=
        ih f hf (hvalue.2 f hf) fun t ht => h t (mem_textsFields.mpr ⟨f, hf, .inr ht⟩)
      rw [scrubField, hkey, hitem]
      rfl
    rw [scrubValue, scrubFields_eq, hfields, fromPairs_of_nodup hvalue.1]

end Scrub

end GitlabReviewer.Entrypoint.Value

namespace GitlabReviewer.Secrets.Strings
open Foundation Entrypoint

def secretEnvKeys : List Str := [str "GITLAB_TOKEN", str "OPENCODE_API_KEY"]

/-- The secret values out of a run env, for scrubbing streamed output. -/
def secretEnvValues (env : List (Str × Str)) : List Str :=
  (secretEnvKeys.filterMap fun key => env.lookup key).filter fun value => decide (value ≠ [])

mutual
/-- Recursively scrub secret values out of a parsed JSON structure. -/
def scrubJson (value : Value) (secrets : List Str) : Value :=
  match value with
  | .str s => .str (scrubSecrets s secrets)
  | .obj fields => .obj (scrubFields fields secrets [])
  | .arr items => .arr (scrubItems items secrets)
  | .null => .null
  | .bool b => .bool b
  | .int n => .int n
  | .float f => .float f
def scrubItems (items : List Value) (secrets : List Str) : List Value :=
  match items with
  | [] => []
  | item :: items => scrubJson item secrets :: scrubItems items secrets
/-- The dictionary comprehension, from the entries made so far. -/
def scrubFields (fields : List (Str × Value)) (secrets : List Str) (made : List (Str × Value)) : List (Str × Value) :=
  match fields with
  | [] => made
  | (key, item) :: fields => scrubFields fields secrets (setKey made (scrubSecrets key secrets) (scrubJson item secrets))
end

section Agreement
variable {secrets : List Str}

mutual
/-- The application's recursion is the container's with the long secrets. -/
theorem scrubJson_eq : (value : Value) → scrubJson value secrets = Value.scrubValue (long secrets) value
  | .str s => congrArg Value.str (scrubSecrets_eq_scrub s secrets)
  | .obj fields => congrArg Value.obj (scrubFields_eq fields [])
  | .arr items => congrArg Value.arr (scrubItems_eq items)
  | .null | .bool _ | .int _ | .float _ => rfl
theorem scrubItems_eq : (items : List Value) → scrubItems items secrets = Value.scrubItems (long secrets) items
  | [] => rfl
  | item :: items => by rw [scrubItems, scrubJson_eq item, scrubItems_eq items, Value.scrubItems]
theorem scrubFields_eq : (fields made : List (Str × Value)) →
    scrubFields fields secrets made = Value.scrubFields (long secrets) made fields
  | [], _ => rfl
  | (key, item) :: fields, made => by
      rw [scrubFields, scrubSecrets_eq_scrub, scrubJson_eq item, scrubFields_eq fields, Value.scrubFields, Value.setField_eq]
end

/-- Both sides choose the same secrets of an environment. -/
theorem runSecrets_eq (env : List (Str × Str)) : runSecrets (fun key => env.lookup (str key)) = long (secretEnvValues env) := by
  have hkeys : (["GITLAB_TOKEN", "OPENCODE_API_KEY"].filterMap fun key => env.lookup (str key)) =
      secretEnvKeys.filterMap fun key => env.lookup key := rfl
  rw [runSecrets, hkeys, secretEnvValues, long, List.filter_filter]
  refine List.filter_congr fun value _ => ?_
  rw [← Bool.decide_and, decide_eq_decide, and_comm, replaced_iff]

end Agreement

/-- A parsed value: no object has a key twice. -/
@[ext]
structure Document where
  value : Value
  distinct : value.Distinct

/-- The scrubbed value of a document is a document. -/
def Document.scrubJson (d : Document) (secrets : List Str) : Document where
  value := Strings.scrubJson d.value secrets
  distinct := scrubJson_eq d.value ▸ Value.distinct_scrubValue d.value

/-- The container's and the application's scrubbers agree, leave no removable
secret in any string or key, keep the rest of the structure, and leave a value
without secrets alone. -/
theorem scrubJson_agrees (env : List (Str × Str)) (d : Document) :
    (d.scrubJson (secretEnvValues env)).value = Value.scrubValue (runSecrets fun key => env.lookup (str key)) d.value ∧
    (∀ secret ∈ secretEnvValues env, minScrubLen ≤ secret.length → star ∉ secret →
      ∀ text ∈ (d.scrubJson (secretEnvValues env)).value.texts, ¬ secret <:+: text) ∧
    Value.Kept (fun text => scrubSecrets text (secretEnvValues env)) d.value (d.scrubJson (secretEnvValues env)).value ∧
    ((∀ secret ∈ secretEnvValues env, minScrubLen ≤ secret.length → ∀ text ∈ d.value.texts, ¬ secret <:+: text) →
      d.scrubJson (secretEnvValues env) = d) := by
  have hscrub : (fun text => scrubSecrets text (secretEnvValues env)) = scrub (long (secretEnvValues env)) := by
    funext text
    exact scrubSecrets_eq_scrub text _
  have hjson : (d.scrubJson (secretEnvValues env)).value = Value.scrubValue (long (secretEnvValues env)) d.value := scrubJson_eq d.value
  refine ⟨?_, ?_, ?_, ?_⟩
  · rw [hjson, runSecrets_eq]
  · intro secret hmem hlong hstar text htext
    rw [hjson] at htext
    obtain ⟨t, rfl⟩ := Value.mem_texts_scrubValue htext
    exact scrub_clean ⟨hlong, hstar⟩ (mem_long.mpr ⟨hmem, hlong⟩) t
  · rw [hscrub, hjson]
    exact Value.kept_scrubValue d.value
  · intro hclean
    have hvalue : (d.scrubJson (secretEnvValues env)).value = d.value := by
      rw [hjson]
      refine Value.scrubValue_of_texts d.distinct fun text htext => ?_
      rw [← scrubSecrets_eq_scrub]
      exact scrub_of_not_infix fun secret hmem hlong => hclean secret hmem hlong text htext
    exact Document.ext hvalue

end GitlabReviewer.Secrets.Strings
