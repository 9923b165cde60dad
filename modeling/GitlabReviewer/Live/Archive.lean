import GitlabReviewer.Live.Growth
import GitlabReviewer.Live.QueuePage

/-! # Archived runs stay archived

The worker still holds its run while a user archives it, and writes the row back
when it ends. The archiving is not lost: from then on the run is in the archive
and in no list of current runs.
-/
namespace GitlabReviewer.Live
open Python Foundation Models Scheduling Secrets Reviews Lifecycle

section Lists
variable (mrs : List MergeRequest) (profiles : List ModelProfile)

theorem mem_joinedRows {run : ReviewRun} {row : RunRow} : row ∈ joinedRows mrs profiles run ↔
    row.1 = run ∧ (row.2.1 ∈ mrs ∧ row.2.1.id = run.mergeRequestId) ∧ row.2.2 ∈ profiles ∧ row.2.2.id = run.modelProfileId := by
  obtain ⟨run', mr, profile⟩ := row
  simp only [joinedRows, List.mem_flatMap, List.mem_filter, beq_iff_eq, List.mem_map, Prod.mk.injEq]
  constructor
  · rintro ⟨mr', hmr, profile', hprofile, rfl, rfl, rfl⟩
    exact ⟨rfl, hmr, hprofile⟩
  · rintro ⟨rfl, hmr, hprofile⟩
    exact ⟨mr, hmr, profile, hprofile, rfl, rfl, rfl⟩

theorem mem_runRows {status : Text} {archived : Option Bool} {w : World} {row : RunRow} : row ∈ runRows mrs profiles status archived w ↔
    (row.1 ∈ w.runs ∧ (row.2.1 ∈ mrs ∧ row.2.1.id = row.1.mergeRequestId) ∧ row.2.2 ∈ profiles ∧ row.2.2.id = row.1.modelProfileId) ∧
      statusMatches status row = true ∧ archiveMatches archived row = true := by
  rw [runRows, (List.perm_insertionSort _ _).mem_iff, List.mem_filter, List.mem_filter, List.mem_flatMap]
  simp only [mem_joinedRows]
  constructor
  · rintro ⟨⟨⟨run, hrun, rfl, hmr, hprofile⟩, hstatus⟩, harchive⟩
    exact ⟨⟨hrun, hmr, hprofile⟩, hstatus, harchive⟩
  · rintro ⟨⟨hrun, hmr, hprofile⟩, hstatus, harchive⟩
    exact ⟨⟨⟨row.1, hrun, rfl, hmr, hprofile⟩, hstatus⟩, harchive⟩

variable {mrs profiles}

theorem filter_key_le_one {α : Type} {key : α → ℕ} {rows : List α} (h : (rows.map key).Nodup) (i : ℕ) :
    (rows.filter (key · == i)).length ≤ 1 := by
  rw [← List.countP_eq_length_filter]
  calc rows.countP (key · == i) = (rows.map key).count i := by rw [List.count, List.countP_map]; rfl
    _ ≤ 1 := List.nodup_iff_count_le_one.mp h i

/-- Each run has one row at most. -/
theorem joinedRows_ids (hmrs : (mrs.map (·.id)).Nodup) (hprofiles : (profiles.map (·.id)).Nodup) (run : ReviewRun) :
    ((joinedRows mrs profiles run).map (·.1.id)).Sublist [run.id] := by
  have hmr := filter_key_le_one hmrs run.mergeRequestId
  have hprofile := filter_key_le_one hprofiles run.modelProfileId
  unfold joinedRows
  generalize mrs.filter (·.id == run.mergeRequestId) = found at hmr
  generalize profiles.filter (·.id == run.modelProfileId) = found' at hprofile
  match found, found' with
  | [], _ => simp
  | [mr], [] => simp
  | [mr], [profile] => simp
  | _ :: _ :: _, _ => simp at hmr
  | _, _ :: _ :: _ => simp at hprofile

theorem joined_ids (hmrs : (mrs.map (·.id)).Nodup) (hprofiles : (profiles.map (·.id)).Nodup) (runs : List ReviewRun) :
    ((runs.flatMap (joinedRows mrs profiles)).map (·.1.id)).Sublist (runs.map (·.id)) := by
  induction runs with
  | nil => exact .slnil
  | cons run runs ih =>
    rw [List.flatMap_cons, List.map_append, List.map_cons]
    exact (joinedRows_ids hmrs hprofiles run).append ih

/-- Newest first, and no run twice. -/
theorem runRows_strict (hmrs : (mrs.map (·.id)).Nodup) (hprofiles : (profiles.map (·.id)).Nodup) {w : World} (hw : RunKeys w)
    (status : Text) (archived : Option Bool) :
    (runRows mrs profiles status archived w).Pairwise fun a b => b.1.id < a.1.id := by
  have hsorted : (runRows mrs profiles status archived w).Pairwise fun a b => b.1.id ≤ a.1.id :=
    List.pairwise_insertionSort _ _
  have hnodup : ((runRows mrs profiles status archived w).map (·.1.id)).Nodup := by
    rw [runRows, ((List.perm_insertionSort _ _).map _).nodup_iff]
    apply List.Nodup.sublist _ (hw.sublist (joined_ids hmrs hprofiles w.runs))
    exact (List.filter_sublist.trans List.filter_sublist).map _
  have hne : (runRows mrs profiles status archived w).Pairwise fun a b => a.1.id ≠ b.1.id := List.pairwise_map.mp hnodup
  apply (hsorted.and hne).imp
  intro a b h
  omega

/-- The current runs and the archived ones are all runs. -/
theorem runRows_perm (status : Text) (w : World) : (runRows mrs profiles status none w).Perm
    (runRows mrs profiles status (some false) w ++ runRows mrs profiles status (some true) w) := by
  unfold runRows
  apply (List.perm_insertionSort _ _).trans
  apply List.Perm.trans _ ((List.perm_insertionSort _ _).symm.append (List.perm_insertionSort _ _).symm)
  have hcurrent : archiveMatches (some false) = fun row => !archiveMatches (some true) row := by
    funext row
    simp only [archiveMatches, Option.not_isSome]
  rw [hcurrent]
  have hall : archiveMatches none = fun _ => true := rfl
  rw [hall, List.filter_true]
  exact (List.perm_append_comm.trans (List.filter_append_perm _ _)).symm

theorem archive_unfiltered (row : RunRow) : statusMatches "all".toList row = true := by
  have hall : runStatusValues.contains "all".toList = false := by decide
  unfold statusMatches
  rw [if_neg (by simpa using hall)]

end Lists

/-- A run in the archive stays there, is in no later list of current runs, and no list shows a run twice or out of order;
with the current runs the archived ones are all of them. -/
theorem archived_for_good (rules : Rules) {c d : Pool Duty Site World PyError}
    (hc : (installation rules).Reaches (fun _ _ => True) ⟨World.empty, []⟩ c)
    (hd : (installation rules).Reaches (fun _ _ => True) c d) {mrs mrs' : List MergeRequest} {profiles profiles' : List ModelProfile}
    (hmrs : (mrs'.map (·.id)).Nodup) (hprofiles : (profiles'.map (·.id)).Nodup) {row : RunRow}
    (h : row ∈ archiveList mrs profiles c.shared) (hmr : row.2.1.id ∈ mrs'.map (·.id)) (hprofile : row.2.2.id ∈ profiles'.map (·.id)) :
    (∃ row' ∈ archiveList mrs' profiles' d.shared, row'.1.id = row.1.id) ∧
      (∀ status archive, archive ≠ "all".toList → ∀ row' ∈ resultsList mrs' profiles' status archive d.shared, row'.1.id ≠ row.1.id) ∧
        ∀ status, (∀ archived, (runRows mrs' profiles' status archived d.shared).Pairwise fun a b => b.1.id < a.1.id) ∧
          (runRows mrs' profiles' status none d.shared).Perm
            (runRows mrs' profiles' status (some false) d.shared ++ runRows mrs' profiles' status (some true) d.shared) := by
  obtain ⟨rs, hscribed⟩ := scribed_reaches hc
  obtain ⟨rs', hscribed'⟩ := scribed_reaches (hc.trans hd)
  have hkeys := hscribed'.2.keys
  obtain ⟨⟨hrun, ⟨-, hmrId⟩, -, hprofileId⟩, -, harchived⟩ := (mem_runRows mrs profiles).mp h
  have hrow : c.shared.run? row.1.id = some row.1 := lookup_of_mem hscribed.2.keys hrun
  obtain ⟨new, hnew, hlater⟩ := later_reaches hscribed hd (congrArg (Option.map recordOf) hrow)
  obtain ⟨run, hrun', rfl⟩ := Option.map_eq_some_iff.mp hnew
  have hid := run?_id hrun'
  have hstill : run.archivedAt.isSome = true := hlater.archived harchived
  refine ⟨?_, ?_, ?_⟩
  · obtain ⟨mr, hmem, hmrEq⟩ := List.mem_map.mp hmr
    obtain ⟨profile, hmem', hprofileEq⟩ := List.mem_map.mp hprofile
    refine ⟨(run, mr, profile), (mem_runRows mrs' profiles').mpr ⟨⟨run?_mem hrun', ⟨hmem, ?_⟩, hmem', ?_⟩, archive_unfiltered _, hstill⟩, hid⟩
    · exact (hmrEq.trans hmrId).trans hlater.mergeRequestId.symm
    · exact (hprofileEq.trans hprofileId).trans hlater.modelProfileId.symm
  · intro status archive hne row' hrow' he
    have hfilter : (if archive == "all".toList then none else some false : Option Bool) = some false := if_neg (by simpa using hne)
    unfold resultsList at hrow'
    dsimp only at hrow'
    rw [hfilter] at hrow'
    obtain ⟨⟨hmem, -⟩, -, hcurrent⟩ := (mem_runRows mrs' profiles').mp hrow'
    have hsame : d.shared.run? row'.1.id = some row'.1 := lookup_of_mem hkeys hmem
    rw [he, hrun'] at hsame
    obtain rfl := Option.some.inj hsame
    have hnone : row'.1.archivedAt.isNone = true := hcurrent
    rw [Option.isNone_iff_eq_none.mp hnone] at hstill
    cases hstill
  · intro status
    exact ⟨runRows_strict hmrs hprofiles hkeys status, runRows_perm status d.shared⟩

/-- The worker has loaded its run when the user archives it. -/
def untilArchived : List (Choice Duty) :=
  [.start (.process (.activity (.request (.enqueue plainRequest)))), .advance 0, .advance 0,
    .start (.process (.activity (.pump 1)))] ++ List.replicate 6 (.advance 1) ++ [.start (.archive 1 5), .advance 2, .advance 2]

theorem archived_for_good_running :
    ∃ c d, (installation talkativeRules).Reaches (fun _ _ => True) ⟨World.empty, []⟩ c ∧
      (installation talkativeRules).Reaches (fun _ _ => True) c d ∧
      (resultsLogJson c.shared 1).map (·.1) = some .running ∧ (resultsLogJson d.shared 1).map (·.1) = some .success ∧
      ∃ row ∈ archiveList [plainMr] [plainProfile] c.shared,
        ∃ row' ∈ archiveList [plainMr] [plainProfile] d.shared, row'.1.id = row.1.id := by
  obtain ⟨c, d, hc, hp, hd, hq⟩ := System.exists_of_exec_exec (installation talkativeRules) (fun _ _ => True)
    ⟨World.empty, []⟩ untilArchived (List.replicate 8 (.advance 1))
    (fun c => (resultsLogJson c.shared 1).map (·.1) == some .running &&
      (archiveList [plainMr] [plainProfile] c.shared).any fun row => row.2.1.id == 1 && row.2.2.id == 1)
    (fun d => (resultsLogJson d.shared 1).map (·.1) == some .success) (by decide +kernel)
  rw [Bool.and_eq_true, List.any_eq_true] at hp
  obtain ⟨hrunning, row, hrow, hids⟩ := hp
  rw [Bool.and_eq_true, beq_iff_eq, beq_iff_eq] at hids
  have hmrs : ([plainMr].map (·.id)).Nodup := List.nodup_singleton _
  have hprofiles : ([plainProfile].map (·.id)).Nodup := List.nodup_singleton _
  exact ⟨c, d, hc, hd, eq_of_beq hrunning, eq_of_beq hq, row, hrow,
    (archived_for_good talkativeRules hc hd hmrs hprofiles hrow (by simp [hids.1, plainMr]) (by simp [hids.2, plainProfile])).1⟩

end GitlabReviewer.Live
