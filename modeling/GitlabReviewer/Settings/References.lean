import GitlabReviewer.Settings.StoredKeys
import GitlabReviewer.Scheduling.Forms
import GitlabReviewer.Reviews.Worker
import GitlabReviewer.Foundation.Alone

/-! # The profiles, and the jobs and runs that refer to them

A submission checks the names by the table's own constraint, moves the default
flag within one unit of work, and deletes only a profile no job refers to. A
run refers to the profile of its job.
-/
namespace GitlabReviewer.Settings
open Python Foundation Models Scheduling Reviews

structure Database where
  settings : SettingsRow
  mergeRequests : List MergeRequest
  profiles : List ModelProfile
  world : World

section Steps
variable (I : Interpreter) (C : Columns) (collate : Text → Text → Bool)

/-- A submission, a schedule form, or the claim of a job with the creation of its
run; any step of the database may raise. The settings and the cached merge
requests change in between. -/
inductive Step (d : Database) : Database → Prop
  | create (K : Fernet) (submission : Submission) :
      Step d { d with profiles := (settingsModelCreate I C K submission d.profiles).2 }
  | update (K : Fernet) (id : ℕ) (submission : Submission) :
      Step d { d with profiles := (settingsModelUpdate I C K id submission d.profiles).2 }
  | delete (id : ℕ) : Step d { d with profiles := (settingsModelDelete I C id d.world.jobs d.profiles).2 }
  | scheduleReview (iid : ℤ) (form : ScheduleForm) (now : Timestamp) {x : Except PyError Scheduled} {w : World}
      (h : (scheduleReview I d.settings d.profiles d.mergeRequests now iid form).Ends (fun _ => true) d.world x w) :
      Step d { d with world := w }
  | scheduleSelectedMrs (knownLibraries : List Json) (mrIids : List Text) (scheduleType : Text) (now : Timestamp)
      {x : Except PyError Scheduled} {w : World}
      (h : (scheduleSelectedMrs I d.settings d.profiles d.mergeRequests now collate knownLibraries mrIids
        scheduleType).Ends (fun _ => true) d.world x w) :
      Step d { d with world := w }
  | claim (dialect : Dialect) (now : Timestamp) {x : Except PyError (Option (ℕ × ℕ))} {w : World}
      (h : (claimAndCreateRun dialect now).Ends (fun _ => true) d.world x w) : Step d { d with world := w }
  | configure (settings : SettingsRow) : Step d { d with settings }
  | sync (mergeRequests : List MergeRequest) : Step d { d with mergeRequests }

inductive Reachable : Database → Prop
  | empty (settings : SettingsRow) (mergeRequests : List MergeRequest) :
      Reachable ⟨settings, mergeRequests, [], World.empty⟩
  | step {d d' : Database} (h : Reachable d) (hstep : Step I C collate d d') : Reachable d'

end Steps

/-- The jobs have these profiles, and each run has the profile of a job. -/
structure Uses (used : List ℕ) (w : World) : Prop where
  jobs : w.jobs.map (·.modelProfileId) = used
  runs : ∀ run ∈ w.runs, run.modelProfileId ∈ used

/-- The session does not change the profile of a job. -/
def SameProfile (t : Tracked ScheduledJob) : Prop := t.mem.modelProfileId = t.base.modelProfileId

section Uses
variable {used : List ℕ} {w : World}

theorem modelProfileId_overlay {jobs : List (Tracked ScheduledJob)} (h : ∀ t ∈ jobs, SameProfile t)
    (row : ScheduledJob) : (overlay jobs row).modelProfileId = row.modelProfileId := by
  cases hheld : held jobs (Columns.key row) with
  | none => rw [overlay_none row hheld]
  | some t =>
    have hsame : t.mem.modelProfileId = t.base.modelProfileId := h t (held_mem hheld).1
    rw [overlay_held row hheld]
    show written t.base.modelProfileId t.mem.modelProfileId row.modelProfileId = row.modelProfileId
    rw [hsame, written_self]

theorem Uses.commitRows (h : Uses used w) {jobs : List (Tracked ScheduledJob)} (hjobs : ∀ t ∈ jobs, SameProfile t) :
    Uses used (w.commitRows jobs []) := by
  constructor
  · unfold World.commitRows store
    dsimp only
    rw [List.map_map, ← h.jobs]
    exact List.map_congr_left fun row _ => modelProfileId_overlay hjobs row
  · unfold World.commitRows
    dsimp only
    rw [store_nil]
    exact h.runs

theorem preserves_commitKept {site : Site} {jobs : List (Tracked ScheduledJob)} (hjobs : ∀ t ∈ jobs, SameProfile t) :
    (commit site jobs []).Preserves (Uses used) fun _ => True :=
  .atomic fun _ h _ => ⟨h.commitRows hjobs, trivial⟩

theorem sameProfile_instances {session : List (Tracked ScheduledJob)} (hs : ∀ t ∈ session, SameProfile t)
    (rows : List ScheduledJob) : ∀ t ∈ instances session rows, SameProfile t := by
  intro t ht
  obtain ⟨row, -, rfl⟩ := List.mem_map.mp ht
  cases hheld : held session row.id with
  | none => exact rfl
  | some u => exact hs u (held_mem hheld).1

theorem preserves_compactKept (site : Site) {session : List (Tracked ScheduledJob)}
    (hs : ∀ t ∈ session, SameProfile t) :
    (compactPositions site session).Preserves (Uses used) fun _ => True := by
  refine .atomic_bind fun w h _ => ⟨h, preserves_commitKept ?_⟩
  intro t ht
  obtain ⟨i, hi, rfl⟩ := List.mem_mapIdx.mp ht
  have hsame := sameProfile_instances hs (w.queuedRows .immediate) _ (List.getElem_mem hi)
  split
  · exact hsame
  · exact hsame

/-- The claimed row has the profile of a job in the table. -/
theorem preserves_claimPostgres (now : Timestamp) :
    (claimPostgres now).Preserves (Uses used) fun job => ∀ row ∈ job, row.modelProfileId ∈ used := by
  refine ⟨?_, trivial⟩
  intro w h _
  obtain ⟨hjobs, hruns, -⟩ := lockRow_tables w
  constructor
  · constructor
    · rw [hjobs]
      exact h.jobs
    · rw [hruns]
      exact h.runs
  · cases hrow : lockable w with
    | none =>
      dsimp only
      rw [hrow]
      exact fun _ hmem => absurd hmem (Option.not_mem_none _)
    | some row =>
      dsimp only
      rw [hrow]
      have hmem : row.modelProfileId ∈ used := h.jobs ▸ List.mem_map_of_mem (lockable_mem hrow).1
      refine ⟨?_, ?_, trivial⟩
      · intro w' h' _
        have hsame : ∀ t ∈ [setStatus .claimed now (Tracked.load row)], SameProfile t := by simp [SameProfile, setStatus]
        have hcommit := h'.commitRows hsame
        refine ⟨⟨hcommit.jobs, hcommit.runs⟩, ?_⟩
        intro claimed hclaimed
        obtain rfl := Option.some.inj hclaimed
        exact hmem
      · intro w' h' _
        exact ⟨⟨h'.jobs, h'.runs⟩, trivial⟩

theorem Uses.claimFirst (h : Uses used w) (now : Timestamp) : Uses used (claimFirst now w) := by
  refine ⟨(claimFirst_map (fun _ => rfl) w).trans h.jobs, ?_⟩
  rw [(claimFirst_runs _ _).1]
  exact h.runs

theorem preserves_claimSqlite (now : Timestamp) :
    (claimSqlite now).Preserves (Uses used) fun job => ∀ row ∈ job, row.modelProfileId ∈ used := by
  refine .atomic_bind fun w h _ => ⟨h.claimFirst now, ?_⟩
  split
  · exact fun _ hmem => absurd hmem (Option.not_mem_none _)
  · refine .atomic_bind fun w' h' _ => ⟨h', ?_⟩
    intro row hrow
    obtain ⟨t, ht, rfl⟩ := Option.map_eq_some_iff.mp hrow
    obtain ⟨stored, hstored, rfl⟩ := Option.map_eq_some_iff.mp ht
    exact h'.jobs ▸ List.mem_map_of_mem (job?_mem hstored)

theorem preserves_createRun {job : ScheduledJob} (hjob : job.modelProfileId ∈ used) (now : Timestamp) :
    (createRun job now).Preserves (Uses used) fun _ => True := by
  refine .atomic fun w h _ => ⟨⟨h.jobs, ?_⟩, trivial⟩
  intro run hrun
  rcases List.mem_append.mp hrun with hrun | hrun
  · exact h.runs run hrun
  · obtain rfl := List.mem_singleton.mp hrun
    exact hjob

theorem preserves_abandonClaim (jobId : ℕ) (now : Timestamp) :
    (abandonClaim jobId now).Preserves (Uses used) fun _ => True := by
  apply Program.Preserves.tryCatch
  · refine .atomic_bind fun w h _ => ⟨h, ?_⟩
    cases hrow : w.job? jobId with
    | none => trivial
    | some row =>
      dsimp only [Option.map_some]
      split
      · refine .bind (preserves_commitKept (by simp [SameProfile, setStatus])) fun _ _ => ?_
        exact preserves_compactKept _ (by simp [SameProfile])
      · trivial
  · intro _
    trivial

theorem preserves_claimAndCreateRun (dialect : Dialect) (now : Timestamp) :
    (claimAndCreateRun dialect now).Preserves (Uses used) fun _ => True := by
  have hclaim : (claimNext dialect now).Preserves (Uses used) fun job => ∀ row ∈ job, row.modelProfileId ∈ used := by
    cases dialect with
    | postgresql => exact preserves_claimPostgres now
    | sqlite => exact preserves_claimSqlite now
  refine .bind hclaim ?_
  intro job hjob
  cases job with
  | none => trivial
  | some row =>
    apply Program.Preserves.tryCatch
    · exact .bind (preserves_createRun (hjob row rfl) now) fun _ _ => trivial
    · intro e
      refine .bind (preserves_abandonClaim row.id now) fun _ _ => ?_
      exact .atomic_bind fun w h _ => ⟨⟨h.jobs, h.runs⟩, trivial⟩

end Uses

/-- Every job has one of the profiles, and every run the profile of a job. -/
structure Refers (ids : List ℕ) (w : World) : Prop where
  jobs : ∀ job ∈ w.jobs, job.modelProfileId ∈ ids
  runs : ∀ run ∈ w.runs, run.modelProfileId ∈ w.jobs.map (·.modelProfileId)

section Refers
variable {ids : List ℕ} {w : World}

theorem refers_iff : Refers ids w ↔ ∃ used ⊆ ids, Uses used w := by
  constructor
  · rintro ⟨hjobs, hruns⟩
    refine ⟨w.jobs.map (·.modelProfileId), ?_, rfl, hruns⟩
    intro id hid
    obtain ⟨job, hjob, rfl⟩ := List.mem_map.mp hid
    exact hjobs job hjob
  · rintro ⟨used, hsub, rfl, hruns⟩
    exact ⟨fun job hjob => hsub (List.mem_map_of_mem hjob), hruns⟩

theorem Refers.claimed (h : Refers ids w) {dialect : Dialect} {now : Timestamp}
    {x : Except PyError (Option (ℕ × ℕ))} {w' : World} {mayFail : Site → Bool}
    (hends : (claimAndCreateRun dialect now).Ends mayFail w x w') : Refers ids w' := by
  obtain ⟨used, hsub, huses⟩ := refers_iff.mp h
  exact refers_iff.mpr ⟨used, hsub, (preserves_claimAndCreateRun dialect now).ends huses hends⟩

theorem preserves_enqueue {request : EnqueueRequest} (hprofile : request.modelProfileId ∈ ids) :
    (enqueue request).Preserves (Refers ids) fun _ => True := by
  refine .atomic_bind fun w h _ => ⟨h, .atomic fun w' h' _ => ⟨⟨?_, ?_⟩, trivial⟩⟩
  · intro job hjob
    rcases List.mem_append.mp hjob with hjob | hjob
    · exact h'.jobs job hjob
    · obtain rfl := List.mem_singleton.mp hjob
      exact hprofile
  · intro run hrun
    unfold World.insertJob
    rw [List.map_append]
    exact List.mem_append_left _ (h'.runs run hrun)

theorem preserves_enqueueAll {requests : List EnqueueRequest} (h : ∀ request ∈ requests, request.modelProfileId ∈ ids) :
    (enqueueAll requests).Preserves (Refers ids) fun _ => True := by
  induction requests with
  | nil => trivial
  | cons request rest ih =>
    refine .bind (preserves_enqueue (h request List.mem_cons_self)) fun _ _ => ?_
    exact .bind (ih fun r hr => h r (List.mem_cons_of_mem _ hr)) fun _ _ => trivial

variable (I : Interpreter) (settings : SettingsRow) {profiles : List ModelProfile} (mergeRequests : List MergeRequest)
  (now : Timestamp)

theorem preserves_scheduleReview (iid : ℤ) (form : ScheduleForm) :
    (scheduleReview I settings profiles mergeRequests now iid form).Preserves (Refers (profiles.map (·.id)))
      fun _ => True := by
  unfold scheduleReview
  split
  · trivial
  · split
    · trivial
    · rename_i profile hprofile
      split
      · trivial
      · have hmem : profile.id ∈ profiles.map (·.id) := List.mem_map_of_mem (List.mem_of_find?_eq_some hprofile)
        exact .bind (preserves_enqueue hmem) fun _ _ => trivial

theorem preserves_scheduleSelectedMrs (collate : Text → Text → Bool) (knownLibraries : List Json)
    (mrIids : List Text) (scheduleType : Text) :
    (scheduleSelectedMrs I settings profiles mergeRequests now collate knownLibraries mrIids scheduleType).Preserves
      (Refers (profiles.map (·.id))) fun _ => True := by
  unfold scheduleSelectedMrs
  split
  · trivial
  · split
    · trivial
    · rename_i profile hprofile
      split
      · trivial
      · dsimp only
        split
        · trivial
        · split
          · trivial
          · have hmem : profile ∈ profiles := List.mem_mergeSort.mp (List.mem_of_head? hprofile)
            refine .bind (preserves_enqueueAll ?_) fun _ _ => trivial
            intro request hrequest
            obtain ⟨mr, -, rfl⟩ := List.mem_map.mp hrequest
            exact List.mem_map_of_mem hmem

end Refers

/-- The submission has been carried out. -/
def Succeeded (answer : Except DbError Page) : Prop := ∃ message, answer = .ok (.profiles message none)

/-- The constraints of the table, with one default at most. -/
structure Table (C : Columns) (rows : List ModelProfile) : Prop where
  stored : Stored C rows
  oneDefault : ∀ p ∈ rows, ∀ q ∈ rows, p.isDefault = true → q.isDefault = true → p.id = q.id

section Table
variable (I : Interpreter) {C : Columns} (K : Fernet) {rows : List ModelProfile}

theorem settingsModelCreate_cases (hs : Stored C rows) (submission : Submission) :
    (settingsModelCreate I C K submission rows).2 = rows ∨
      Succeeded (settingsModelCreate I C K submission rows).1 ∧
        ∃ form, validateSubmission I submission = .ok form ∧ checkProfiles C (createdRows K form rows) = .ok () ∧
          (settingsModelCreate I C K submission rows).2 = createdRows K form rows := by
  cases hform : validateSubmission I submission with
  | error errors =>
    left
    unfold settingsModelCreate
    rw [hform]
  | ok form =>
    have hcheck := checkProfiles_created K hs form
    rw [settingsModelCreate_eq I K hs hform]
    by_cases hacc : C.accepts (newProfile K form 0) = false
    · exact .inl (by rw [if_pos hacc])
    · by_cases htaken : Taken rows form.name none
      · exact .inl (by rw [if_neg hacc, if_pos htaken])
      · rw [if_neg hacc, if_neg htaken] at hcheck ⊢
        exact .inr ⟨⟨_, rfl⟩, form, rfl, hcheck, rfl⟩

theorem settingsModelUpdate_cases (hs : Stored C rows) (id : ℕ) (submission : Submission) :
    (settingsModelUpdate I C K id submission rows).2 = rows ∨
      Succeeded (settingsModelUpdate I C K id submission rows).1 ∧
        ∃ form, validateSubmission I submission = .ok form ∧ checkProfiles C (updatedRows K form id rows) = .ok () ∧
          (settingsModelUpdate I C K id submission rows).2 = updatedRows K form id rows := by
  cases hfind : rows.find? (·.id = id) with
  | none =>
    left
    unfold settingsModelUpdate
    rw [hfind]
  | some profile =>
    have hp := List.mem_of_find?_eq_some hfind
    obtain rfl : profile.id = id := by simpa using List.find?_some hfind
    cases hform : validateSubmission I submission with
    | error errors =>
      left
      unfold settingsModelUpdate
      rw [hfind, hform]
    | ok form =>
      obtain ⟨hsame, hcheck⟩ := checkProfiles_updated K hs hp form
      rw [settingsModelUpdate_eq I K hs hp hform]
      by_cases hacc : C.accepts (edited K form profile) = false
      · exact .inl (by rw [if_pos hacc])
      · rw [if_neg hacc] at hcheck ⊢
        by_cases htaken : Taken rows form.name (some profile.id)
        · left
          rw [if_pos htaken]
          split <;> rfl
        · rw [if_neg htaken] at hcheck ⊢
          exact .inr ⟨⟨_, rfl⟩, form, rfl, hsame.trans hcheck, rfl⟩

variable (C rows) in
/-- A profile that is deleted is not the profile of a job. -/
theorem settingsModelDelete_cases (id : ℕ) (jobs : List ScheduledJob) :
    (settingsModelDelete I C id jobs rows).2 = rows ∨
      Succeeded (settingsModelDelete I C id jobs rows).1 ∧
        (settingsModelDelete I C id jobs rows).2 = rows.filter (·.id ≠ id) ∧ ∀ job ∈ jobs, job.modelProfileId ≠ id := by
  unfold settingsModelDelete
  cases hfind : rows.find? (·.id = id) with
  | none => exact .inl rfl
  | some profile =>
    obtain rfl : profile.id = id := by simpa using List.find?_some hfind
    dsimp only
    by_cases huse : jobs.countP (·.modelProfileId = profile.id) ≠ 0
    · rw [if_pos huse]
      exact .inl rfl
    · rw [if_neg huse]
      cases hcommit : ((UnitOfWork.begin rows).change fun rows => rows.filter (·.id ≠ profile.id)).commit
          (checkProfiles C) with
      | error e => exact .inl rfl
      | ok stored =>
        obtain ⟨-, rfl⟩ := UnitOfWork.commit_eq_ok hcommit
        refine .inr ⟨⟨_, rfl⟩, rfl, ?_⟩
        intro job hjob heq
        have hnone := List.countP_eq_zero.mp (not_not.mp huse) job hjob
        exact hnone (by simpa using heq)

theorem checkProfiles_eq_ok (h : checkProfiles C rows = .ok ()) :
    (rows.map (·.name)).Nodup ∧ ∀ profile ∈ rows, C.accepts profile = true := by
  unfold checkProfiles at h
  split at h
  · cases h
  · rename_i hall
    split at h
    · rename_i hnames
      exact ⟨hnames, by simpa using hall⟩
    · cases h

theorem assign_ids (id : ℕ) {set : ModelProfile → ModelProfile} (hset : ∀ p, (set p).id = p.id)
    (rows : List ModelProfile) : (assign id set rows).map (·.id) = rows.map (·.id) := by
  unfold assign
  rw [List.map_map]
  apply List.map_congr_left
  intro p _
  dsimp only [Function.comp_apply]
  split
  · exact hset p
  · rfl

theorem updatedRows_ids (form : ModelProfileForm) (id : ℕ) (rows : List ModelProfile) :
    (updatedRows K form id rows).map (·.id) = rows.map (·.id) := by
  have hflag : ∀ p, (withFlag form.isDefault p).id = p.id := fun _ => rfl
  have hedited : ∀ p, (edited K form p).id = p.id := fun _ => rfl
  unfold updatedRows
  dsimp only
  rw [assign_ids id hflag]
  split
  · rw [cleared_ids, assign_ids id hedited]
  · rw [assign_ids id hedited]

theorem createdRows_ids (form : ModelProfileForm) (rows : List ModelProfile) :
    (createdRows K form rows).map (·.id) = rows.map (·.id) ++ [World.nextKey (rows.map (·.id))] := by
  unfold createdRows
  dsimp only
  rw [List.map_append]
  split
  · rw [cleared_ids]
    rfl
  · rfl

/-- Only the excepted profile is still a default. -/
theorem isDefault_cleared {except : Option ℕ} {p : ModelProfile} (hp : p ∈ cleared except rows)
    (hdefault : p.isDefault = true) : some p.id = except := by
  obtain ⟨q, hq, rfl⟩ := List.mem_map.mp hp
  by_cases hothers : q.id ∈ otherDefaults except rows
  · rw [if_pos hothers] at hdefault
    cases hdefault
  · rw [if_neg hothers] at hdefault ⊢
    by_contra hne
    refine hothers (List.mem_map_of_mem (List.mem_filter.mpr ⟨hq, ?_⟩))
    simp [hdefault, hne]

theorem Table.created (ht : Table C rows) {form : ModelProfileForm}
    (hcheck : checkProfiles C (createdRows K form rows) = .ok ()) : Table C (createdRows K form rows) := by
  obtain ⟨hnames, haccepted⟩ := checkProfiles_eq_ok hcheck
  refine ⟨⟨?_, hnames, haccepted⟩, ?_⟩
  · rw [createdRows_ids]
    exact nodup_append_nextKey ht.stored.ids
  · unfold createdRows
    dsimp only
    cases hflag : form.isDefault with
    | true =>
      -- the defaults have been cleared, so the new row is the only one
      rw [if_pos rfl]
      have hnew : ∀ p ∈ cleared none rows ++ [newProfile K form (World.nextKey ((cleared none rows).map (·.id)))],
          p.isDefault = true → p.id = World.nextKey ((cleared none rows).map (·.id)) := by
        intro p hp hdefault
        rcases List.mem_append.mp hp with hp | hp
        · cases isDefault_cleared hp hdefault
        · obtain rfl := List.mem_singleton.mp hp
          rfl
      intro p hp q hq hpd hqd
      rw [hnew p hp hpd, hnew q hq hqd]
    | false =>
      rw [if_neg (by simp)]
      have hold : ∀ p ∈ rows ++ [newProfile K form (World.nextKey (rows.map (·.id)))], p.isDefault = true → p ∈ rows := by
        intro p hp hdefault
        rcases List.mem_append.mp hp with hp | hp
        · exact hp
        · obtain rfl := List.mem_singleton.mp hp
          rw [show (newProfile K form (World.nextKey (rows.map (·.id)))).isDefault = form.isDefault from rfl, hflag] at hdefault
          cases hdefault
      intro p hp q hq hpd hqd
      exact ht.oneDefault p (hold p hp hpd) q (hold q hq hqd) hpd hqd

theorem Table.updated (ht : Table C rows) {form : ModelProfileForm} {id : ℕ}
    (hcheck : checkProfiles C (updatedRows K form id rows) = .ok ()) : Table C (updatedRows K form id rows) := by
  obtain ⟨hnames, haccepted⟩ := checkProfiles_eq_ok hcheck
  refine ⟨⟨?_, hnames, haccepted⟩, ?_⟩
  · rw [updatedRows_ids]
    exact ht.stored.ids
  · unfold updatedRows
    dsimp only
    cases hflag : form.isDefault with
    | true =>
      rw [if_pos rfl]
      have honly : ∀ p ∈ assign id (withFlag true) (cleared (some id) (assign id (edited K form) rows)),
          p.isDefault = true → p.id = id := by
        intro p hp hdefault
        obtain ⟨q, hq, rfl⟩ := List.mem_map.mp hp
        by_cases hid : q.id = id
        · rw [if_pos hid]
          exact hid
        · rw [if_neg hid] at hdefault ⊢
          exact Option.some.inj (isDefault_cleared hq hdefault)
      intro p hp q hq hpd hqd
      rw [honly p hp hpd, honly q hq hqd]
    | false =>
      rw [if_neg (by simp)]
      have hold : ∀ p ∈ assign id (withFlag false) (assign id (edited K form) rows), p.isDefault = true → p ∈ rows := by
        intro p hp hdefault
        obtain ⟨q, hq, rfl⟩ := List.mem_map.mp hp
        by_cases hid : q.id = id
        · rw [if_pos hid] at hdefault
          cases hdefault
        · rw [if_neg hid] at hdefault ⊢
          obtain ⟨r, hr, rfl⟩ := List.mem_map.mp hq
          by_cases hid' : r.id = id
          · rw [if_pos hid'] at hid
            exact absurd hid' hid
          · rw [if_neg hid']
            exact hr
      intro p hp q hq hpd hqd
      exact ht.oneDefault p (hold p hp hpd) q (hold q hq hqd) hpd hqd

theorem Table.deleted (ht : Table C rows) (id : ℕ) : Table C (rows.filter (·.id ≠ id)) := by
  have hsub : (rows.filter (·.id ≠ id)).Sublist rows := List.filter_sublist
  constructor
  · constructor
    · exact ht.stored.ids.sublist (hsub.map _)
    · exact ht.stored.names.sublist (hsub.map _)
    · exact fun p hp => ht.stored.accepted p (hsub.subset hp)
  · exact fun p hp q hq => ht.oneDefault p (hsub.subset hp) q (hsub.subset hq)

end Table

structure Consistent (C : Columns) (d : Database) : Prop where
  table : Table C d.profiles
  refers : Refers (d.profiles.map (·.id)) d.world

section Runs
variable {I : Interpreter} {C : Columns} {collate : Text → Text → Bool} {d d' : Database}

theorem Refers.mono {ids ids' : List ℕ} {w : World} (h : Refers ids w) (hsub : ids ⊆ ids') : Refers ids' w :=
  ⟨fun job hjob => hsub (h.jobs job hjob), h.runs⟩

theorem Consistent.step (h : Consistent C d) (hstep : Step I C collate d d') : Consistent C d' := by
  obtain ⟨ht, hr⟩ := h
  cases hstep with
  | create K submission =>
    rcases settingsModelCreate_cases I K ht.stored submission with hsame | ⟨-, form, -, hcheck, hrows⟩
    · rw [hsame]
      exact ⟨ht, hr⟩
    · refine ⟨hrows ▸ ht.created K hcheck, hrows ▸ hr.mono ?_⟩
      rw [createdRows_ids]
      exact List.subset_append_left _ _
  | update K id submission =>
    rcases settingsModelUpdate_cases I K ht.stored id submission with hsame | ⟨-, form, -, hcheck, hrows⟩
    · rw [hsame]
      exact ⟨ht, hr⟩
    · refine ⟨hrows ▸ ht.updated K hcheck, hrows ▸ hr.mono ?_⟩
      rw [updatedRows_ids]
      exact List.Subset.refl _
  | delete id =>
    rcases settingsModelDelete_cases I C d.profiles id d.world.jobs with hsame | ⟨-, hrows, hfree⟩
    · rw [hsame]
      exact ⟨ht, hr⟩
    · refine ⟨hrows ▸ ht.deleted id, hrows ▸ ⟨?_, hr.runs⟩⟩
      intro job hjob
      obtain ⟨profile, hprofile, hid⟩ := List.mem_map.mp (hr.jobs job hjob)
      refine List.mem_map.mpr ⟨profile, List.mem_filter.mpr ⟨hprofile, ?_⟩, hid⟩
      simpa [hid] using hfree job hjob
  | scheduleReview iid form now hends =>
    exact ⟨ht, (preserves_scheduleReview I d.settings d.mergeRequests now iid form).ends hr hends⟩
  | scheduleSelectedMrs knownLibraries mrIids scheduleType now hends =>
    exact ⟨ht, (preserves_scheduleSelectedMrs I d.settings d.mergeRequests now collate knownLibraries mrIids
      scheduleType).ends hr hends⟩
  | claim dialect now hends => exact ⟨ht, hr.claimed hends⟩
  | configure settings => exact ⟨ht, hr⟩
  | sync mergeRequests => exact ⟨ht, hr⟩

theorem Reachable.consistent (h : Reachable I C collate d) : Consistent C d := by
  induction h with
  | empty settings mergeRequests =>
    have hnone : Stored C ([] : List ModelProfile) := ⟨List.nodup_nil, List.nodup_nil, by simp⟩
    exact ⟨⟨hnone, by simp⟩, ⟨by simp [World.empty], by simp [World.empty]⟩⟩
  | step _ hstep ih => exact ih.step hstep

/-- One default at most, unique names, no dangling reference; and a submission
that does not succeed changes no profile. -/
theorem profile_table_consistent (h : Reachable I C collate d) :
    (d.profiles.filter (·.isDefault)).length ≤ 1 ∧ (d.profiles.map (·.name)).Nodup ∧
      (∀ job ∈ d.world.jobs, ∃ profile ∈ d.profiles, profile.id = job.modelProfileId) ∧
      (∀ run ∈ d.world.runs, ∃ profile ∈ d.profiles, profile.id = run.modelProfileId) ∧
      (∀ K submission, ¬ Succeeded (settingsModelCreate I C K submission d.profiles).1 →
        (settingsModelCreate I C K submission d.profiles).2 = d.profiles) ∧
      (∀ K id submission, ¬ Succeeded (settingsModelUpdate I C K id submission d.profiles).1 →
        (settingsModelUpdate I C K id submission d.profiles).2 = d.profiles) ∧
      (∀ id, ¬ Succeeded (settingsModelDelete I C id d.world.jobs d.profiles).1 →
        (settingsModelDelete I C id d.world.jobs d.profiles).2 = d.profiles) := by
  obtain ⟨ht, hr⟩ := h.consistent
  refine ⟨?_, ht.stored.names, ?_, ?_, ?_, ?_, ?_⟩
  · have hkeys : ((d.profiles.filter (·.isDefault)).map (·.id)).Nodup := ht.stored.ids.sublist (List.filter_sublist.map _)
    cases hdefaults : d.profiles.filter (·.isDefault) with
    | nil => simp
    | cons p rest =>
      cases rest with
      | nil => simp
      | cons q rest =>
        have hp := List.mem_filter.mp (hdefaults ▸ List.mem_cons_self)
        have hq := List.mem_filter.mp (hdefaults ▸ List.mem_cons_of_mem p List.mem_cons_self)
        rw [hdefaults] at hkeys
        have hsame := ht.oneDefault p hp.1 q hq.1 hp.2 hq.2
        simp [hsame] at hkeys
  · exact fun job hjob => List.mem_map.mp (hr.jobs job hjob)
  · intro run hrun
    obtain ⟨job, hjob, hsame⟩ := List.mem_map.mp (hr.runs run hrun)
    rw [← hsame]
    exact List.mem_map.mp (hr.jobs job hjob)
  · intro K submission hfailed
    rcases settingsModelCreate_cases I K ht.stored submission with hsame | ⟨hdone, -⟩
    · exact hsame
    · exact absurd hdone hfailed
  · intro K id submission hfailed
    rcases settingsModelUpdate_cases I K ht.stored id submission with hsame | ⟨hdone, -⟩
    · exact hsame
    · exact absurd hdone hfailed
  · intro id hfailed
    rcases settingsModelDelete_cases I C d.profiles id d.world.jobs with hsame | ⟨hdone, -⟩
    · exact hsame
    · exact absurd hdone hfailed

end Runs

section Example

def openMr : MergeRequest where
  id := 1
  project := "group/app".toList
  iid := 7
  title := "First".toList
  author := "alice".toList
  sourceBranch := "topic".toList
  targetBranch := "main".toList
  sha := []
  webUrl := []
  state := "opened".toList
  updatedAt := none
  lastSeenAt := none

def appSettings : SettingsRow := ⟨"https://gitlab.example.com".toList, "group/app".toList, "token".toList, [], none⟩

def reviewForm : ScheduleForm := ⟨1, "immediate".toList, [], [], none⟩

/-- The second profile has become the default. -/
def switched : List ModelProfile := [plainProfile 1 "first", { plainProfile 2 "second" with isDefault := true }]

theorem switched_reachable :
    Reachable asciiInterpreter anyColumns (fun _ _ => true) ⟨appSettings, [openMr], switched, World.empty⟩ := by
  have hfirst : Reachable asciiInterpreter anyColumns (fun _ _ => true) _ :=
    .step (.empty appSettings [openMr]) (.create reversing (plainSubmission "first" "" true))
  have hsecond := Reachable.step hfirst (.create reversing (plainSubmission "second" "" false))
  exact .step hsecond (.update reversing 2 (plainSubmission "second" "" true))

/-- The default is switched, a collision is refused, and a review with the first profile gets its job and its run. -/
theorem profile_table_consistent_switched :
    ∃ d, Reachable asciiInterpreter anyColumns (fun _ _ => true) d ∧ d.profiles = switched ∧
      d.world.jobs.map (·.modelProfileId) = [1] ∧ d.world.runs.map (·.modelProfileId) = [1] ∧
      (settingsModelUpdate asciiInterpreter anyColumns reversing 2 (plainSubmission "first" "" false) d.profiles).1 =
        .ok (.rejected [nameTaken asciiInterpreter "first".toList]) ∧
      (d.profiles.filter (·.isDefault)).length ≤ 1 ∧ (d.profiles.map (·.name)).Nodup ∧
      (∀ job ∈ d.world.jobs, ∃ profile ∈ d.profiles, profile.id = job.modelProfileId) ∧
      (∀ run ∈ d.world.runs, ∃ profile ∈ d.profiles, profile.id = run.modelProfileId) ∧
      (∀ K submission, ¬ Succeeded (settingsModelCreate asciiInterpreter anyColumns K submission d.profiles).1 →
        (settingsModelCreate asciiInterpreter anyColumns K submission d.profiles).2 = d.profiles) ∧
      (∀ K id submission, ¬ Succeeded (settingsModelUpdate asciiInterpreter anyColumns K id submission d.profiles).1 →
        (settingsModelUpdate asciiInterpreter anyColumns K id submission d.profiles).2 = d.profiles) ∧
      (∀ id, ¬ Succeeded (settingsModelDelete asciiInterpreter anyColumns id d.world.jobs d.profiles).1 →
        (settingsModelDelete asciiInterpreter anyColumns id d.world.jobs d.profiles).2 = d.profiles) := by
  have hrefused : Reachable asciiInterpreter anyColumns (fun _ _ => true) ⟨appSettings, [openMr], switched, World.empty⟩ :=
    .step switched_reachable (.update reversing 2 (plainSubmission "first" "" false))
  have hscheduled := Reachable.step hrefused
    (.scheduleReview (x := .ok (.jobs [1])) 7 reviewForm 0 (.of_run rfl))
  have hclaimed := Reachable.step hscheduled
    (.claim (x := .ok (some (1, 1))) .sqlite 0 (.of_run rfl))
  exact ⟨_, hclaimed, rfl, rfl, rfl, rfl, profile_table_consistent hclaimed⟩

end Example

end GitlabReviewer.Settings
