import GitlabReviewer.Entrypoint.Capture
import GitlabReviewer.Entrypoint.Result
import GitlabReviewer.Orchestrator.RunReview
import GitlabReviewer.Pipeline.Embedding
import GitlabReviewer.Python.JsonControls

/-! # The result on its way through a file

The container writes a value, and the application reads the value it stands for.
What the container normalizes and scrubs keeps the numbers within what JSON texts
hold, so nothing is lost on the way.
-/
namespace GitlabReviewer.Pipeline
open Python Foundation Entrypoint Orchestrator

theorem universalNewlines_of_notMem {t : Text} (h : '\r' ∉ t) : universalNewlines t = t := by
  induction t with
  | nil => rfl
  | cons c t ih =>
    rw [List.mem_cons, not_or] at h
    have hc : c ≠ '\r' := fun heq => h.1 heq.symm
    unfold universalNewlines
    split
    · rename_i heq
      exact absurd (List.cons.inj heq).1 hc
    · rename_i heq
      exact absurd (List.cons.inj heq).1 hc
    · rename_i heq
      obtain ⟨rfl, rfl⟩ := List.cons.inj heq
      rw [ih h.2]
    · rename_i heq
      cases heq

section Sound
variable (F : FloatFormat)

mutual
/-- The numbers are such as a JSON text gives: no integer beyond the conversion limit, floats that are doubles. -/
def Sound : Value → Prop
  | .int n => n.natAbs < 10 ^ intMaxStrDigits
  | .float (.finite q) => F.double q
  | .arr items => SoundItems items
  | .obj fields => SoundFields fields
  | _ => True
def SoundItems : List Value → Prop
  | [] => True
  | item :: items => Sound item ∧ SoundItems items
def SoundFields : List (Str × Value) → Prop
  | [] => True
  | (_, item) :: fields => Sound item ∧ SoundFields fields
end

variable {F}

theorem soundItems_iff {items : List Value} : SoundItems F items ↔ ∀ item ∈ items, Sound F item := by
  induction items with
  | nil => simp [SoundItems]
  | cons item items ih => simp [SoundItems, ih]

theorem soundFields_iff {fields : List (Str × Value)} : SoundFields F fields ↔ ∀ f ∈ fields, Sound F f.2 := by
  induction fields with
  | nil => simp [SoundFields]
  | cons f fields ih => simp [SoundFields, ih]

theorem sound_scrubValue {secrets : List Str} {v : Value} (h : Sound F v) : Sound F (Value.scrubValue secrets v) := by
  induction v using Value.memberInduction with
  | null | bool | int | str => exact h
  | float f => cases f <;> exact h
  | arr items ih =>
    rw [Sound, soundItems_iff] at h
    rw [Value.scrubValue, Sound, soundItems_iff, Value.scrubItems_eq]
    exact List.forall_mem_map.mpr fun item hitem => ih item hitem (h item hitem)
  | obj fields ih =>
    rw [Sound, soundFields_iff] at h
    rw [Value.scrubValue, Sound, soundFields_iff, Value.scrubFields_eq]
    intro f hf
    obtain ⟨f, hmem, rfl⟩ := List.mem_map.mp (lastOf_of_mem_fromPairs hf).mem
    exact ih f hmem (h f hmem)

theorem sound_lookup {fields : List (Str × Value)} (h : Sound F (.obj fields)) (key : Str) :
    Sound F ((fields.lookup key).getD .null) := by
  cases hlookup : fields.lookup key with
  | none => trivial
  | some v =>
    obtain ⟨before, after, hsplit, -⟩ := List.lookup_eq_some_iff.mp hlookup
    rw [Sound, soundFields_iff] at h
    exact h (key, v) (by simp [hsplit])

theorem sound_findingsOf {fields findings : List (Str × Value)} (h : Sound F (.obj fields)) (hfindings : findingsOf fields = some findings) :
    Sound F (.obj findings) := by
  have hvalue := sound_lookup h (str "findings")
  unfold findingsOf Value.get at hfindings
  split at hfindings
  · cases hfindings
    trivial
  · rename_i items heq
    rw [heq] at hvalue
    cases hfindings
    exact ⟨hvalue, trivial⟩
  · rename_i made heq
    rw [heq] at hvalue
    cases hfindings
    exact hvalue
  · cases hfindings

theorem sound_bucketItems {findings : List (Str × Value)} {bucket : Str} {items : List Value} (h : Sound F (.obj findings))
    (hitems : bucketItems findings bucket = some items) : ∀ item ∈ items, Sound F item := by
  have hvalue := sound_lookup h bucket
  unfold bucketItems Value.orElse at hitems
  split at hitems
  · rename_i made heq
    cases hitems
    split at heq
    · rw [heq] at hvalue
      exact soundItems_iff.mp hvalue
    · cases heq
      exact List.forall_mem_nil _
  · cases hitems

theorem sound_normalizeFinding {item : Value} (h : Sound F item) : Sound F (normalizeFinding F item) := by
  cases item with
  | obj fields => exact h
  | _ => exact ⟨trivial, trivial⟩

theorem mem_mapM {α β : Type} {f : α → Option β} {l : List α} {out : List β} (h : l.mapM f = some out) :
    ∀ b ∈ out, ∃ a ∈ l, f a = some b := by
  induction l generalizing out with
  | nil =>
    cases h
    exact List.forall_mem_nil _
  | cons a l ih =>
    obtain ⟨b, bs, hb, hbs, rfl⟩ := Results.mapM_cons_eq_some h
    refine List.forall_mem_cons.mpr ⟨⟨a, List.mem_cons_self, hb⟩, fun c hc => ?_⟩
    obtain ⟨d, hd, hfd⟩ := ih hbs c hc
    exact ⟨d, List.mem_cons_of_mem _ hd, hfd⟩

theorem sound_normalizeResult {v : Value} {fields : List (Str × Value)} (h : Sound F v) (hnormalized : normalizeResult F v = some fields) :
    Sound F (.obj fields) := by
  cases v with
  | obj given =>
    unfold normalizeResult at hnormalized
    dsimp only at hnormalized
    cases hfindings : findingsOf given with
    | none =>
      rw [hfindings] at hnormalized
      cases hnormalized
    | some findings =>
      rw [hfindings] at hnormalized
      obtain ⟨buckets, hbuckets, rfl⟩ := Option.map_eq_some_iff.mp hnormalized
      have hbucket : ∀ b ∈ buckets, Sound F b.2 := by
        intro b hb
        obtain ⟨bucket, -, hmade⟩ := mem_mapM hbuckets b hb
        obtain ⟨items, hitems, rfl⟩ := Option.map_eq_some_iff.mp hmade
        rw [Sound, soundItems_iff]
        have hsound := sound_bucketItems (sound_findingsOf h hfindings) hitems
        exact List.forall_mem_map.mpr fun item hitem => sound_normalizeFinding (hsound item hitem)
      have hquestions : ∀ q : List Value, Sound F (.arr (q.map fun q => .str (coerceText F q))) := by
        intro q
        rw [Sound, soundItems_iff]
        exact List.forall_mem_map.mpr fun _ _ => trivial
      exact ⟨trivial, soundFields_iff.mpr hbucket, trivial, hquestions _, trivial⟩
  | _ => cases hnormalized

mutual
/-- A value that can be written, with numbers of a JSON text and no key twice. -/
theorem dumpable_toJson : (v : Value) → v.encodable = true → v.Distinct → Sound F v → Dumpable F (toJson v)
  | .null, _, _, _ | .bool _, _, _, _ | .str _, _, _, _ => trivial
  | .int n, _, _, h => h
  | .float f, _, _, h => by cases f <;> exact h
  | .arr items, hencodable, hdistinct, h => dumpable_toItems items hencodable hdistinct h
  | .obj fields, hencodable, hdistinct, h => by
      refine ⟨?_, dumpable_toFields fields hencodable hdistinct.2 h⟩
      have hkeys : ((toFields fields).map Prod.fst).map ofText = fields.map Prod.fst := by
        have hback := congrArg (List.map Prod.fst) (ofFields_toFields fields hencodable)
        rw [ofFields_eq, List.map_map] at hback
        rw [List.map_map]
        exact hback
      have hnodup := hdistinct.1
      rw [← hkeys] at hnodup
      exact hnodup.of_map _
theorem dumpable_toItems : (items : List Value) → Value.encodableItems items = true → Value.DistinctItems items →
    SoundItems F items → DumpableItems F (toItems items)
  | [], _, _, _ => trivial
  | item :: items, hencodable, hdistinct, h => by
      obtain ⟨hitem, hitems⟩ := Bool.and_eq_true_iff.mp hencodable
      exact ⟨dumpable_toJson item hitem hdistinct.1 h.1, dumpable_toItems items hitems hdistinct.2 h.2⟩
theorem dumpable_toFields : (fields : List (Str × Value)) → Value.encodableFields fields = true → Value.DistinctFields fields →
    SoundFields F fields → DumpableFields F (toFields fields)
  | [], _, _, _ => trivial
  | (key, item) :: fields, hencodable, hdistinct, h => by
      obtain ⟨hfield, hfields⟩ := Bool.and_eq_true_iff.mp hencodable
      obtain ⟨-, hitem⟩ := Bool.and_eq_true_iff.mp hfield
      exact ⟨dumpable_toJson item hitem hdistinct.1 h.1, dumpable_toFields fields hfields hdistinct.2 h.2⟩
end

/-- What a file the container wrote holds for a reader. -/
def fileOf : Option Str → FileRead
  | none => .missing
  | some s => .text (textOf s)

/-- The application reads the value whose dump the container wrote. -/
theorem readJson_fileOf {fields : List (Str × Value)} (hencodable : (Value.obj fields).encodable = true)
    (hdistinct : (Value.obj fields).Distinct) (h : Sound F (.obj fields)) :
    readJson F (fileOf (some (Value.dumpValue F 0 (.obj fields) ++ str "\n"))) = some (toJson (.obj fields)) := by
  have hdumpable := dumpable_toJson (.obj fields) hencodable hdistinct h
  set j := toJson (.obj fields) with hj
  have hfile : textOf (Value.dumpValue F 0 (.obj fields) ++ str "\n") = dumps F false (some 2) j ++ ['\n'] := by
    have hback : ofJson j = .obj fields := ofJson_toJson _ hencodable
    rw [← hback, dumpValue_ofJson]
    exact (congrArg textOf (ofText_append _ ['\n']).symm).trans (textOf_ofText _)
  have hquiet : '\r' ∉ dumps F false (some 2) j ++ ['\n'] := by
    intro hmem
    rcases List.mem_append.mp hmem with hmem | hmem
    · exact absurd (quiet_dumpValue (some 2) j hdumpable 0 _ hmem) (by decide)
    · exact absurd hmem (by decide)
  have hload : loads F (dumps F false (some 2) j ++ ['\n']) = some j := by
    have hround := loads_dumps false (some 2) hdumpable [] ['\n'] (List.forall_mem_nil _) (List.forall_mem_singleton.mpr rfl)
    rwa [List.nil_append] at hround
  have hobj : j = .obj (toFields fields) := rfl
  unfold fileOf readJson
  dsimp only
  rw [hfile, universalNewlines_of_notMem hquiet, hload, hobj]

end Sound

end GitlabReviewer.Pipeline
