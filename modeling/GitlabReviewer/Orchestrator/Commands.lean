import GitlabReviewer.Orchestrator.RunReview

/-! # What podman is told

The commands of one review, in their order, whatever podman and the rest of the
host do: the listing, removals of containers by id, at most one run, and the
removal of the container that was run, which a failure keeps.
-/
namespace GitlabReviewer.Orchestrator
open Python Foundation Models Libraries Reviews

section Commands
variable {σ : Type} {O : PodmanOrchestrator} {N : Engine σ} {α : Type}

abbrev Issues (P : Except Failure α → List (List Text) → Prop) (x : HostStep σ α) : Prop :=
  Statement.Emits HostState.commands P x

/-- The statement gives podman no command, and its result is as said. -/
abbrev Silent (R : Except Failure α → Prop) (x : HostStep σ α) : Prop := Issues (fun result new => R result ∧ new = []) x

/-- A sequence whose first part gives no command. -/
theorem Silent.bind {β : Type} {R : Except Failure α → Prop} {P : Except Failure β → List (List Text) → Prop} {x : HostStep σ α}
    {f : α → HostStep σ β} (hx : Silent R x) (hf : ∀ a, Issues (fun result new => R (.ok a) → P result new) (f a))
    (hraise : ∀ e, R (.error e) → P (.error e) []) : Issues P (x >>= f) := by
  apply Statement.Emits.bind hx hf
  · rintro e new ⟨hresult, rfl⟩
    exact hraise e hresult
  · rintro a result first second ⟨hresult, rfl⟩ hsecond
    exact hsecond hresult

def Returned (result : Except Failure α) : Prop := ∃ a, result = .ok a

theorem onWorld_silent (f : σ → α × σ) : Silent Returned (onWorld f) := fun _ => ⟨[], (List.append_nil _).symm, ⟨_, rfl⟩, rfl⟩

theorem read_silent (f : HostState σ → α) : Silent Returned (.read f : HostStep σ α) := fun _ =>
  ⟨[], (List.append_nil _).symm, ⟨_, rfl⟩, rfl⟩

theorem orRaise_silent (f : σ → Except Failure α × σ) : Silent (fun _ => True) (orRaise f) := by
  apply Silent.bind (onWorld_silent f)
  · intro answer s
    cases answer <;> exact ⟨[], (List.append_nil _).symm, fun _ => ⟨trivial, rfl⟩⟩
  · rintro e -
    exact ⟨trivial, rfl⟩

theorem issue_issues (argv : List Text) : Issues (fun result new => Returned result ∧ new = [argv]) (issue argv : HostStep σ Unit) :=
  fun _ => ⟨[argv], rfl, ⟨_, rfl⟩, rfl⟩

/-- The only exception that comes out of a short command is about its output. -/
def Undecodable : Except Failure α → Prop
  | .ok _ => True
  | .error e => ∃ message, e = .value message

theorem not_returned {e : Failure} (h : Returned (.error e : Except Failure α)) : False := by
  obtain ⟨a, ha⟩ := h
  cases ha

theorem removeContainer_issues (name : Text) :
    Issues (fun result new => Undecodable result ∧ new = [rmArgv O name]) (removeContainer O N name) := by
  apply Statement.Emits.bind (Q := fun _ result new => Undecodable result ∧ new = []) (issue_issues _)
  · intro _
    apply Silent.bind (onWorld_silent _)
    · intro reply
      cases reply with
      | undecodable message => exact Statement.Emits.raise _ fun _ => ⟨⟨message, rfl⟩, rfl⟩
      | failed | exited => exact Statement.Emits.pure _ fun _ => ⟨trivial, rfl⟩
    · intro e h
      exact (not_returned h).elim
  · rintro e new ⟨h, -⟩
    exact (not_returned h).elim
  · rintro a result first second ⟨-, rfl⟩ ⟨hresult, rfl⟩
    exact ⟨hresult, rfl⟩

/-- The removal of a container by a short id. -/
def RemovesId (O : PodmanOrchestrator) (argv : List Text) : Prop := ∃ id, ShortId id ∧ argv = rmArgv O id

theorem shortId_of_matchCreated {line id : Text} {stamp : Stamp} (h : matchCreated line = some (id, stamp)) : ShortId id := by
  unfold matchCreated at h
  split at h
  · cases h
  · rename_i hempty
    obtain ⟨stamp', -, heq⟩ := Option.map_eq_some_iff.mp h
    cases heq
    exact ⟨by simpa using hempty, fun c hc => List.mem_takeWhile_imp hc⟩

theorem purgeLine_issues (cutoff : ℚ) (line : Text) :
    Issues (fun _ new => ∀ argv ∈ new, RemovesId O argv) (purgeLine O N cutoff line) := by
  unfold purgeLine
  split
  · exact Statement.Emits.pure _ (List.forall_mem_nil _)
  · rename_i id stamp hmatch
    split_ifs
    · apply (removeContainer_issues id).imp
      rintro result new ⟨-, rfl⟩
      exact List.forall_mem_singleton.mpr ⟨id, shortId_of_matchCreated hmatch, rfl⟩
    · exact Statement.Emits.pure _ (List.forall_mem_nil _)
    · exact Statement.Emits.raise _ (List.forall_mem_nil _)

/-- The listing, and then removals. -/
def Purges (O : PodmanOrchestrator) (commands : List (List Text)) : Prop :=
  ∃ removals, commands = psArgv O :: removals ∧ ∀ argv ∈ removals, RemovesId O argv

theorem purge_issues : Issues (fun _ new => Purges O new) (purgeStaleContainers O N) := by
  apply Statement.Emits.bind (Q := fun _ _ new => ∀ argv ∈ new, RemovesId O argv) (issue_issues _)
  · intro _
    apply Silent.bind (onWorld_silent _)
    · intro reply
      cases reply with
      | failed => exact Statement.Emits.pure _ fun _ => List.forall_mem_nil _
      | undecodable message => exact Statement.Emits.raise _ fun _ => List.forall_mem_nil _
      | exited code stdout =>
        dsimp only
        split_ifs
        · exact Statement.Emits.pure _ fun _ => List.forall_mem_nil _
        · apply Silent.bind (read_silent _)
          · intro now
            apply (Statement.Emits.forM fun line _ => purgeLine_issues _ line).imp
            intro _ new hnew _ _
            exact hnew
          · intro e _ _
            exact List.forall_mem_nil _
    · intro e _
      exact List.forall_mem_nil _
  · rintro e new ⟨h, -⟩
    exact (not_returned h).elim
  · rintro a result first second ⟨-, rfl⟩ hremovals
    exact ⟨second, rfl, hremovals⟩

/-- The names, without what they stand for. -/
def blank (env : Env) : Env := env.map fun entry => (entry.1, [])

/-- The command has the names of the environment only. -/
theorem buildArgv_blank (env : Env) (dir name : Text) (mounts : List (Text × Text)) :
    buildArgv O (blank env) dir name mounts = buildArgv O env dir name mounts := by
  unfold buildArgv blank
  rw [List.flatMap_map]

/-- An outcome without an error. -/
def Succeeded (outcome : RunOutcome) : Prop := outcome.exitCode = 0 ∧ outcome.timedOut = false ∧ outcome.error = none

def Clean : PodmanEnd → Prop
  | .exited timedOut exitCode _ _ _ => timedOut = false ∧ exitCode = 0
  | _ => False

theorem error_podmanOutcome {timeout : Text} {ended : PodmanEnd} (h : ¬ Clean ended) : (podmanOutcome timeout ended).error ≠ none := by
  cases ended with
  | exited timedOut exitCode =>
    cases timedOut with
    | true => simp [podmanOutcome]
    | false =>
      have hcode : exitCode ≠ 0 := fun hzero => h ⟨rfl, hzero⟩
      simp [podmanOutcome, hcode]
  | _ => simp [podmanOutcome]

theorem succeeded_podmanOutcome {timeout : Text} {ended : PodmanEnd} (h : Clean ended) : Succeeded (podmanOutcome timeout ended) := by
  cases ended with
  | exited =>
    obtain ⟨rfl, rfl⟩ := h
    exact ⟨rfl, rfl, rfl⟩
  | _ => exact h.elim

theorem removeOnSuccess_issues (name : Text) (ended : PodmanEnd) :
    Issues (fun result new => (Clean ended ∧ Undecodable result ∧ new = [rmArgv O name]) ∨ (¬ Clean ended ∧ Returned result ∧ new = []))
      (removeOnSuccess O N name ended) := by
  unfold removeOnSuccess
  split
  · rename_i exitCode _ _ _
    split_ifs with hcode
    · apply (removeContainer_issues name).imp
      exact fun result new h => .inl ⟨⟨rfl, hcode⟩, h⟩
    · exact Statement.Emits.pure _ (.inr ⟨fun h => hcode h.2, ⟨_, rfl⟩, rfl⟩)
  · rename_i hnot
    apply Statement.Emits.pure
    refine .inr ⟨fun h => ?_, ⟨_, rfl⟩, rfl⟩
    cases ended with
    | exited timedOut exitCode resultJson resultMarkdown sessionJson =>
      obtain ⟨rfl, -⟩ := h
      exact hnot _ _ _ _ rfl
    | _ => exact h

theorem stream_issues (F : FloatFormat) (argv : List Text) (env : Env) (dir : Text) :
    Issues (fun _ new => new = [argv]) (stream N F argv env dir) := by
  apply Statement.Emits.bind (Q := fun _ _ new => new = []) (issue_issues argv)
  · intro _
    apply Silent.bind (orRaise_silent _)
    · intro answer
      apply Silent.bind (read_silent _)
      · intro resultJson
        apply Silent.bind (orRaise_silent _)
        · intro resultMarkdown
          apply Silent.bind (read_silent _)
          · intro sessionJson
            exact Statement.Emits.pure _ fun _ _ _ _ => rfl
          · exact fun _ _ _ _ _ => rfl
        · exact fun _ _ _ _ => rfl
      · exact fun _ _ _ => rfl
    · exact fun _ _ => rfl
  · rintro e new ⟨h, -⟩
    exact (not_returned h).elim
  · rintro a result first second ⟨-, rfl⟩ rfl
    rfl

theorem inContainer_issues (F : FloatFormat) (argv : List Text) (env : Env) (dir : Text) :
    Issues (fun _ new => new = [argv]) (inContainer N F argv env dir) := by
  apply Statement.Emits.ensuring (P := fun _ new => new = [argv]) (Q := fun _ new => new = [])
  · apply Statement.Emits.attempt (Q := fun _ _ new => new = []) (stream_issues F argv env dir)
    · intro e y hy
      obtain ⟨message, -, rfl⟩ := Option.map_eq_some_iff.mp hy
      exact Statement.Emits.pure _ rfl
    · exact fun _ _ h => h
    · exact fun _ _ h => h
    · rintro e result first second rfl rfl
      rfl
  · exact Statement.Emits.silent fun s => rfl
  · rintro result first second rfl rfl
    rfl
  · rintro e result first second rfl rfl
    rfl

/-- What one review gives, and what podman was told for it. -/
inductive Reviewed (O : PodmanOrchestrator) (name : Text) (environment : Option Env) :
    Except Failure RunOutcome → List (List Text) → Prop
  | refused {result : Except Failure RunOutcome} {before : List (List Text)} (hfails : ∀ outcome, result = .ok outcome → outcome.error ≠ none)
      (hpurges : Purges O before) : Reviewed O name environment result before
  | kept {result : Except Failure RunOutcome} {before : List (List Text)} {env : Env} {dir : Text} {mounts : List (Text × Text)}
      (henv : environment = some env) (hfails : ∀ outcome, result = .ok outcome → outcome.error ≠ none) (hpurges : Purges O before) :
      Reviewed O name environment result (before ++ [buildArgv O (blank env) dir name mounts])
  | removed {result : Except Failure RunOutcome} {before : List (List Text)} {env : Env} {dir : Text} {mounts : List (Text × Text)}
      (henv : environment = some env) (hends : ∀ outcome, result = .ok outcome → Succeeded outcome) (hraises : Undecodable result)
      (hpurges : Purges O before) :
      Reviewed O name environment result (before ++ [buildArgv O (blank env) dir name mounts, rmArgv O name])

/-- From the temporary directory on: what the container ended with, and the commands. -/
def RanOnce (O : PodmanOrchestrator) (env : Env) (name : Text) (mounts : List (Text × Text)) (result : Except Failure PodmanEnd)
    (new : List (List Text)) : Prop :=
  (new = [] ∧ ∃ e, result = .error e) ∨ ∃ dir, let argv := buildArgv O (blank env) dir name mounts
    (new = [argv] ∧ ∀ ended, result = .ok ended → ¬ Clean ended) ∨
      (new = [argv, rmArgv O name] ∧ Undecodable result ∧ ∀ ended, result = .ok ended → Clean ended)

theorem makeTemp_silent : Silent (fun _ => True) (makeTemp N) := by
  apply Silent.bind (orRaise_silent _)
  · intro dir s
    exact ⟨[], (List.append_nil _).symm, fun _ => ⟨trivial, rfl⟩⟩
  · exact fun _ _ => ⟨trivial, rfl⟩

theorem runContainer_issues (F : FloatFormat) (env : Env) (name : Text) (mounts : List (Text × Text)) :
    Issues (RanOnce O env name mounts) (runContainer O N F env name mounts) := by
  unfold runContainer
  apply Silent.bind makeTemp_silent
  · intro dir
    rw [← buildArgv_blank env]
    set argv := buildArgv O (blank env) dir name mounts with hargv
    apply Statement.Emits.bind (Q := fun ended result new => (Clean ended ∧ Undecodable result ∧ new = [rmArgv O name] ∨
      ¬ Clean ended ∧ new = []) ∧ ∀ other, result = .ok other → other = ended) (inContainer_issues F argv env dir)
    · intro ended
      apply Statement.Emits.bind (Q := fun _ result new => result = .ok ended ∧ new = []) (removeOnSuccess_issues name ended)
      · exact fun _ => Statement.Emits.pure _ ⟨rfl, rfl⟩
      · rintro e new (⟨hclean, hresult, hnew⟩ | ⟨-, hreturned, -⟩)
        · refine ⟨.inl ⟨hclean, hresult, hnew⟩, ?_⟩
          intro other hother
          cases hother
        · exact (not_returned hreturned).elim
      · rintro a result first second hfirst ⟨rfl, rfl⟩
        rw [List.append_nil]
        refine ⟨?_, fun other hother => (Except.ok.inj hother).symm⟩
        rcases hfirst with ⟨hclean, -, hnew⟩ | ⟨hclean, -, hnew⟩
        · exact .inl ⟨hclean, trivial, hnew⟩
        · exact .inr ⟨hclean, hnew⟩
    · rintro e new rfl -
      refine .inr ⟨dir, .inl ⟨rfl, ?_⟩⟩
      intro ended hended
      cases hended
    · rintro ended result first second rfl ⟨⟨hclean, hresult, rfl⟩ | ⟨hclean, rfl⟩, hsame⟩ -
      · refine .inr ⟨dir, .inr ⟨rfl, hresult, ?_⟩⟩
        intro other hother
        rwa [hsame other hother]
      · refine .inr ⟨dir, .inl ⟨rfl, ?_⟩⟩
        intro other hother
        rwa [hsame other hother]
  · exact fun e _ => .inl ⟨rfl, e, rfl⟩

theorem libraryMounts_silent : Silent (fun _ => True) (libraryMounts N) := by
  apply Statement.Emits.attempt (P := fun _ new => new = []) (Q := fun _ _ new => new = [])
  · apply Silent.bind (orRaise_silent _)
    · exact fun _ => Statement.Emits.pure _ fun _ => rfl
    · exact fun _ _ => rfl
  · intro e y hy
    obtain ⟨message, -, rfl⟩ := Option.map_eq_some_iff.mp hy
    exact Statement.Emits.pure _ rfl
  · exact fun _ _ h => ⟨trivial, h⟩
  · exact fun _ _ h => ⟨trivial, h⟩
  · rintro e result first second rfl rfl
    exact ⟨trivial, rfl⟩

/-- What follows the purge. -/
def Follows (O : PodmanOrchestrator) (name : Text) (environment : Option Env) (result : Except Failure RunOutcome)
    (new : List (List Text)) : Prop :=
  ∀ before, Purges O before → Reviewed O name environment result (before ++ new)

theorem follows_raise {name : Text} {environment : Option Env} (e : Failure) : Follows O name environment (.error e) [] := by
  intro before hpurges
  rw [List.append_nil]
  refine .refused ?_ hpurges
  intro outcome houtcome
  cases houtcome

theorem runReview_issues (F : FloatFormat) (timeout : Text) (runId : Option ℤ) (token : Token) (environment : Option Env) :
    Issues (Reviewed O (containerName runId token) environment) (runReview O N F timeout runId token true environment) := by
  unfold runReview
  rw [if_pos rfl]
  apply Statement.Emits.bind (Q := fun _ => Follows O (containerName runId token) environment) purge_issues
  · intro _
    cases environment with
    | none => exact Statement.Emits.raise _ (follows_raise _)
    | some env =>
      apply Silent.bind libraryMounts_silent
      · intro answer
        cases answer with
        | error message =>
          apply Statement.Emits.pure
          intro _ before hpurges
          rw [List.append_nil]
          refine .refused ?_ hpurges
          rintro outcome heq
          cases heq
          exact error_podmanOutcome id
        | ok mounts =>
          apply Statement.Emits.bind (Q := fun ended result new => result = .ok (podmanOutcome timeout ended) ∧ new = [])
            (runContainer_issues F env _ mounts)
          · exact fun ended => Statement.Emits.pure _ ⟨rfl, rfl⟩
          · rintro e new (⟨rfl, -⟩ | ⟨dir, ⟨rfl, -⟩ | ⟨rfl, hresult, -⟩⟩) - before hpurges
            · exact follows_raise e before hpurges
            · refine .kept rfl ?_ hpurges
              intro outcome houtcome
              cases houtcome
            · refine .removed rfl ?_ hresult hpurges
              intro outcome houtcome
              cases houtcome
          · rintro ended result first second hran ⟨rfl, rfl⟩ - before hpurges
            rw [List.append_nil]
            rcases hran with ⟨-, e, he⟩ | ⟨dir, ⟨rfl, hclean⟩ | ⟨rfl, -, hclean⟩⟩
            · cases he
            · refine .kept rfl ?_ hpurges
              rintro outcome heq
              cases heq
              exact error_podmanOutcome (hclean ended rfl)
            · refine .removed rfl ?_ trivial hpurges
              rintro outcome heq
              cases heq
              exact succeeded_podmanOutcome (hclean ended rfl)
      · exact fun e _ => follows_raise e
  · rintro e new hpurges
    rw [← List.append_nil new]
    exact follows_raise e new hpurges
  · exact fun _ result first second hpurges hfollows => hfollows first hpurges

theorem rmArgv_name_notMem {runId : ℤ} {token : Token} {before : List (List Text)} (h : Purges O before) :
    rmArgv O (containerName (some runId) token) ∉ before := by
  obtain ⟨removals, rfl, hremovals⟩ := h
  rw [List.mem_cons, not_or]
  constructor
  · intro heq
    have hsecond : "rm".toList = "ps".toList := (List.cons.inj (List.cons.inj heq).2).1
    exact absurd hsecond (by decide)
  · intro hmem
    obtain ⟨id, hid, heq⟩ := hremovals _ hmem
    have hname : containerName (some runId) token = id := (List.cons.inj (List.cons.inj (List.cons.inj heq).2).2).1
    have hm : 'm' ∈ id := by
      rw [← hname]
      exact List.mem_cons_self
    exact absurd (hid.hex _ hm) (by decide)

theorem rmArgv_ne_buildArgv (name other dir : Text) (env : Env) (mounts : List (Text × Text)) :
    rmArgv O name ≠ buildArgv O env dir other mounts := by
  intro heq
  have hsecond : "rm".toList = "run".toList := (List.cons.inj (List.cons.inj heq).2).1
  exact absurd hsecond (by decide)

/-- A container is removed under its name exactly after a success. -/
theorem Reviewed.removed_iff {runId : ℤ} {token : Token} {environment : Option Env} {outcome : RunOutcome} {new : List (List Text)}
    (h : Reviewed O (containerName (some runId) token) environment (.ok outcome) new) :
    rmArgv O (containerName (some runId) token) ∈ new ↔ Succeeded outcome := by
  cases h with
  | refused hfails hpurges =>
    exact iff_of_false (rmArgv_name_notMem hpurges) fun hs => hfails outcome rfl hs.2.2
  | kept henv hfails hpurges =>
    refine iff_of_false ?_ fun hs => hfails outcome rfl hs.2.2
    rw [List.mem_append, not_or, List.mem_singleton]
    exact ⟨rmArgv_name_notMem hpurges, rmArgv_ne_buildArgv _ _ _ _ _⟩
  | removed henv hends hraises hpurges =>
    exact iff_of_true (List.mem_append_right _ (List.mem_cons_of_mem _ List.mem_cons_self)) (hends outcome rfl)

def SameTemps {σ : Type} (s t : HostState σ) : Prop := t.temps.Perm s.temps

instance : Std.Refl (@SameTemps σ) := ⟨fun s => List.Perm.refl s.temps⟩
instance : IsTrans (HostState σ) SameTemps := ⟨fun _ _ _ h h' => h'.trans h⟩

abbrev KeepsTemps (x : HostStep σ α) : Prop := Statement.Keeps SameTemps x

theorem onWorld_keepsTemps (f : σ → α × σ) : KeepsTemps (onWorld f) := fun s => List.Perm.refl s.temps

theorem read_keepsTemps (f : HostState σ → α) : KeepsTemps (.read f : HostStep σ α) := fun s => List.Perm.refl s.temps

theorem issue_keepsTemps (argv : List Text) : KeepsTemps (issue argv : HostStep σ Unit) := fun s => List.Perm.refl s.temps

theorem orRaise_keepsTemps (f : σ → Except Failure α × σ) : KeepsTemps (orRaise f) := by
  apply Statement.Keeps.bind (onWorld_keepsTemps f)
  intro answer
  cases answer with
  | ok a => exact Statement.Keeps.pure a
  | error e => exact Statement.Keeps.raise e

theorem removeContainer_keepsTemps (name : Text) : KeepsTemps (removeContainer O N name) := by
  apply Statement.Keeps.bind (issue_keepsTemps _)
  intro _
  apply Statement.Keeps.bind (onWorld_keepsTemps _)
  intro reply
  cases reply with
  | undecodable => exact Statement.Keeps.raise _
  | failed | exited => exact Statement.Keeps.pure _

theorem purge_keepsTemps : KeepsTemps (purgeStaleContainers O N) := by
  apply Statement.Keeps.bind (issue_keepsTemps _)
  intro _
  apply Statement.Keeps.bind (onWorld_keepsTemps _)
  intro reply
  cases reply with
  | undecodable => exact Statement.Keeps.raise _
  | failed => exact Statement.Keeps.pure _
  | exited code stdout =>
    dsimp only
    split_ifs
    · exact Statement.Keeps.pure _
    · apply Statement.Keeps.bind (read_keepsTemps _)
      intro now
      apply Statement.Keeps.forM
      intro line _
      unfold purgeLine
      split
      · exact Statement.Keeps.pure _
      · split_ifs
        · exact removeContainer_keepsTemps _
        · exact Statement.Keeps.pure _
        · exact Statement.Keeps.raise _

theorem stream_keepsTemps (F : FloatFormat) (argv : List Text) (env : Env) (dir : Text) : KeepsTemps (stream N F argv env dir) := by
  apply Statement.Keeps.bind (issue_keepsTemps argv)
  intro _
  apply Statement.Keeps.bind (orRaise_keepsTemps _)
  intro answer
  apply Statement.Keeps.bind (read_keepsTemps _)
  intro resultJson
  apply Statement.Keeps.bind (orRaise_keepsTemps _)
  intro resultMarkdown
  apply Statement.Keeps.bind (read_keepsTemps _)
  exact fun sessionJson => Statement.Keeps.pure _

theorem libraryMounts_keepsTemps : KeepsTemps (libraryMounts N) := by
  apply Statement.Keeps.attempt
  · apply Statement.Keeps.bind (orRaise_keepsTemps _)
    exact fun _ => Statement.Keeps.pure _
  · intro e y hy
    obtain ⟨message, -, rfl⟩ := Option.map_eq_some_iff.mp hy
    exact Statement.Keeps.pure _

theorem removeOnSuccess_keepsTemps (name : Text) (ended : PodmanEnd) : KeepsTemps (removeOnSuccess O N name ended) := by
  unfold removeOnSuccess
  split
  · split_ifs
    · exact removeContainer_keepsTemps name
    · exact Statement.Keeps.pure _
  · exact Statement.Keeps.pure _

/-- The final clause runs however the statements before it end. -/
theorem inContainer_temps (hgone : ∀ dir world, (N.removeTree dir world).1 = true) (F : FloatFormat) (argv : List Text) (env : Env)
    (dir : Text) (s : HostState σ) : (inContainer N F argv env dir s).2.temps.Perm (s.temps.erase dir) := by
  have hkeeps : KeepsTemps ((stream N F argv env dir).attempt fun e => e.podman.map fun message => pure (.podmanFailed message)) := by
    apply Statement.Keeps.attempt (stream_keepsTemps F argv env dir)
    intro e y hy
    obtain ⟨message, -, rfl⟩ := Option.map_eq_some_iff.mp hy
    exact Statement.Keeps.pure _
  have hremove (t : HostState σ) : (removeTemp N dir t).2.temps = t.temps.erase dir := if_pos (hgone dir t.world)
  unfold inContainer
  rw [Statement.ensuring_snd, hremove]
  exact (hkeeps s).erase dir

theorem makeTemp_run (s : HostState σ) : (∃ e t, makeTemp N s = (.error e, t) ∧ SameTemps s t) ∨
    ∃ dir t, makeTemp N s = (.ok dir, t) ∧ t.temps.Perm (dir :: s.temps) := by
  have hsame := orRaise_keepsTemps N.makeTemp s
  unfold makeTemp
  cases hrun : orRaise N.makeTemp s with
  | mk result t =>
    rw [hrun] at hsame
    cases result with
    | error e => exact .inl ⟨e, t, Statement.bind_error hrun, hsame⟩
    | ok dir =>
      refine .inr ⟨dir, { t with temps := t.temps ++ [dir] }, Statement.bind_ok hrun, ?_⟩
      exact (List.perm_append_singleton dir t.temps).trans (List.Perm.cons dir hsame)

theorem runContainer_keepsTemps (hgone : ∀ dir world, (N.removeTree dir world).1 = true) (F : FloatFormat) (env : Env) (name : Text)
    (mounts : List (Text × Text)) : KeepsTemps (runContainer O N F env name mounts) := by
  intro s
  unfold runContainer
  rcases makeTemp_run (N := N) s with ⟨e, t, hrun, hsame⟩ | ⟨dir, t, hrun, hmade⟩
  · rw [Statement.bind_error hrun]
    exact hsame
  · rw [Statement.bind_ok hrun]
    have hends := inContainer_temps hgone F (buildArgv O env dir name mounts) env dir t
    have hback : (inContainer N F (buildArgv O env dir name mounts) env dir t).2.temps.Perm s.temps := by
      apply hends.trans
      have herase := hmade.erase dir
      rwa [List.erase_cons_head] at herase
    cases hcontainer : inContainer N F (buildArgv O env dir name mounts) env dir t with
    | mk result u =>
      rw [hcontainer] at hback
      cases result with
      | error e =>
        rw [Statement.bind_error hcontainer]
        exact hback
      | ok ended =>
        rw [Statement.bind_ok hcontainer]
        have hlast : KeepsTemps (removeOnSuccess O N name ended >>= fun _ => pure ended) :=
          Statement.Keeps.bind (removeOnSuccess_keepsTemps name ended) fun _ => Statement.Keeps.pure ended
        exact (hlast u).trans hback

/-- Where directories can be removed, none is left of the ones that are made. -/
theorem runReview_keepsTemps (hgone : ∀ dir world, (N.removeTree dir world).1 = true) (F : FloatFormat) (timeout : Text)
    (runId : Option ℤ) (token : Token) (rowsFound : Bool) (environment : Option Env) :
    KeepsTemps (runReview O N F timeout runId token rowsFound environment) := by
  unfold runReview
  split_ifs
  · apply Statement.Keeps.bind purge_keepsTemps
    intro _
    cases environment with
    | none => exact Statement.Keeps.raise _
    | some env =>
      apply Statement.Keeps.bind libraryMounts_keepsTemps
      intro answer
      cases answer with
      | error message => exact Statement.Keeps.pure _
      | ok mounts =>
        apply Statement.Keeps.bind (runContainer_keepsTemps hgone F env _ mounts)
        exact fun ended => Statement.Keeps.pure _
  · exact Statement.Keeps.pure _

end Commands

section Review
variable {σ : Type} (O : PodmanOrchestrator) (N : Engine σ) (F : FloatFormat) (timeout : Text) (runId : ℤ) (token : Token)
  (environment : Option Env) (s : HostState σ)

/-- Every way one review can go, as podman sees it; where directories can be removed, none is left of those that were made. -/
theorem review_commands :
    (∃ new, (runReview O N F timeout (some runId) token true environment s).2.commands = s.commands ++ new ∧
      Reviewed O (containerName (some runId) token) environment
        (runReview O N F timeout (some runId) token true environment s).1 new ∧
      ∀ outcome, (runReview O N F timeout (some runId) token true environment s).1 = .ok outcome →
        (rmArgv O (containerName (some runId) token) ∈ new ↔ Succeeded outcome)) ∧
    ((∀ dir world, (N.removeTree dir world).1 = true) →
      (runReview O N F timeout (some runId) token true environment s).2.temps.Perm s.temps) := by
  obtain ⟨new, hcommands, hreviewed⟩ := runReview_issues (O := O) (N := N) F timeout (some runId) token environment s
  refine ⟨⟨new, hcommands, hreviewed, ?_⟩, fun hgone => runReview_keepsTemps hgone F timeout (some runId) token true environment s⟩
  intro outcome houtcome
  rw [houtcome] at hreviewed
  exact hreviewed.removed_iff

end Review

/-- A host where nothing goes wrong and the container writes nothing. -/
def plainEngine : Engine Unit where
  podman _ s := (.exited 0 [], s)
  clock _ := 0
  isoError _ := []
  libraries s := (.ok [], s)
  makeTemp s := (.ok "/tmp/mr-review-out-a".toList, s)
  stream _ _ s := (.ok (false, 0), s)
  read _ _ := .missing
  removeTree _ s := (true, s)

example : (runReview plainOrchestrator plainEngine .none "60".toList (some 7) sampleToken true (some []) ⟨[], [], ()⟩).2.commands =
    [psArgv plainOrchestrator, buildArgv plainOrchestrator [] "/tmp/mr-review-out-a".toList (containerName (some 7) sampleToken) [],
      rmArgv plainOrchestrator (containerName (some 7) sampleToken)] := by decide +kernel

end GitlabReviewer.Orchestrator
