import GitlabReviewer.Entrypoint.Ending
import GitlabReviewer.Live.Growth
import GitlabReviewer.Orchestrator.Commands
import GitlabReviewer.Pipeline.Files

/-! # From opencode to the row of the run

The container writes what opencode has found to a file, the orchestrator reads the
file, and the worker stores what it read. The review that arrives is the one that
was found, scrubbed, and it stays in the row.
-/
namespace GitlabReviewer.Pipeline
open Python Foundation Entrypoint Orchestrator Models Reviews Live

section Orchestrator
variable {τ : Type} {O : PodmanOrchestrator} {N : Engine τ} {F : FloatFormat}

theorem of_orRaise_ok {α : Type} {f : τ → Except Failure α × τ} {a : α} {s s' : HostState τ} (h : orRaise f s = (.ok a, s')) :
    f s.world = (.ok a, s'.world) := by
  obtain ⟨answer, t, hworld, hrest⟩ := Statement.of_bind_ok h
  rw [onWorld_run] at hworld
  obtain ⟨hanswer, rfl⟩ := Prod.mk.inj hworld
  have hanswer := Except.ok.inj hanswer
  cases answer with
  | ok b =>
    obtain ⟨hb, rfl⟩ := Prod.mk.inj hrest
    obtain rfl := Except.ok.inj hb
    exact Prod.ext hanswer rfl
  | error e => cases hrest

/-- What the container left in its directory, for the application. -/
def Read (N : Engine τ) (F : FloatFormat) (argv : List Text) (env : Env) (dir : Text) (world : τ) (ended : PodmanEnd) : Prop :=
  ∃ world' timedOut code resultJson resultMarkdown sessionJson,
    N.stream argv env world = (.ok (timedOut, code), world') ∧ ended = .exited timedOut code resultJson resultMarkdown sessionJson ∧
    resultJson = readJson F (N.read (outFile dir "result.json") world') ∧
    readText (N.read (outFile dir "result.md") world') = .ok resultMarkdown

theorem stream_read {argv : List Text} {env : Env} {dir : Text} {ended : PodmanEnd} {s s' : HostState τ}
    (h : stream N F argv env dir s = (.ok ended, s')) : Read N F argv env dir s.world ended := by
  unfold stream at h
  obtain ⟨_, s₁, hissue, h⟩ := Statement.of_bind_ok h
  obtain ⟨⟨timedOut, code⟩, s₂, hstream, h⟩ := Statement.of_bind_ok h
  obtain ⟨resultJson, s₃, hjson, h⟩ := Statement.of_bind_ok h
  obtain ⟨resultMarkdown, s₄, hmarkdown, h⟩ := Statement.of_bind_ok h
  obtain ⟨sessionJson, s₅, hsession, h⟩ := Statement.of_bind_ok h
  obtain ⟨hended, -⟩ := Prod.mk.inj h
  obtain ⟨hresult, rfl⟩ := Prod.mk.inj hjson
  have hworld : s₁.world = s.world := by
    rw [← (Prod.mk.inj hissue).2]
  have hreply := of_orRaise_ok hstream
  rw [hworld] at hreply
  have htext := of_orRaise_ok hmarkdown
  exact ⟨s₂.world, timedOut, code, resultJson, resultMarkdown, sessionJson, hreply,
    (Except.ok.inj hended).symm, (Except.ok.inj hresult).symm, (Prod.mk.inj htext).1⟩

theorem inContainer_read {argv : List Text} {env : Env} {dir : Text} {ended : PodmanEnd} {s s' : HostState τ}
    (h : inContainer N F argv env dir s = (.ok ended, s')) (hclean : Clean ended) : Read N F argv env dir s.world ended := by
  unfold inContainer at h
  obtain ⟨t, hbody, -⟩ := Statement.of_ensuring_ok h
  rcases Statement.of_attempt_ok hbody with hstream | ⟨e, y, u, -, hhandler, hy⟩
  · exact stream_read hstream
  · obtain ⟨message, -, rfl⟩ := Option.map_eq_some_iff.mp hhandler
    obtain ⟨hended, -⟩ := Prod.mk.inj hy
    obtain rfl := Except.ok.inj hended
    exact hclean.elim

theorem clean_of_succeeded {timeout : Text} {ended : PodmanEnd} (h : Succeeded (podmanOutcome timeout ended)) : Clean ended := by
  by_contra hclean
  exact error_podmanOutcome hclean h.2.2

/-- The review comes to the point where podman is to run the container: the libraries are mounted, the directory is made. -/
inductive Prepares (O : PodmanOrchestrator) (N : Engine τ) (s : HostState τ) (mounts : List (Text × Text)) (dir : Text) (world : τ) : Prop
  | intro {s₁ s₂ s₃ : HostState τ} (purged : purgeStaleContainers O N s = (.ok (), s₁))
      (mounted : libraryMounts N s₁ = (.ok (.ok mounts), s₂)) (made : makeTemp N s₂ = (.ok dir, s₃)) (hworld : world = s₃.world)

/-- What a successful review has read. -/
theorem runReview_read {timeout : Text} {runId : Option ℤ} {token : Token} {env : Env} {outcome : RunOutcome} {s : HostState τ}
    (h : (runReview O N F timeout runId token true (some env) s).1 = .ok outcome) (hsuccess : Succeeded outcome) :
    ∃ mounts dir world ended, Prepares O N s mounts dir world ∧
      Read N F (buildArgv O env dir (containerName runId token) mounts) env dir world ended ∧ Clean ended ∧
      outcome = podmanOutcome timeout ended := by
  have hrun : runReview O N F timeout runId token true (some env) s =
      (.ok outcome, (runReview O N F timeout runId token true (some env) s).2) := Prod.ext h rfl
  generalize (runReview O N F timeout runId token true (some env) s).2 = s' at hrun
  unfold runReview at hrun
  rw [if_pos rfl] at hrun
  obtain ⟨_, s₁, hpurged, hrun⟩ := Statement.of_bind_ok hrun
  obtain ⟨answer, s₂, hmounted, hrun⟩ := Statement.of_bind_ok hrun
  cases answer with
  | error message =>
    obtain ⟨houtcome, -⟩ := Prod.mk.inj hrun
    obtain rfl := Except.ok.inj houtcome
    exact (clean_of_succeeded hsuccess).elim
  | ok mounts =>
    obtain ⟨ended, s₃, hcontainer, hrun⟩ := Statement.of_bind_ok hrun
    obtain ⟨houtcome, -⟩ := Prod.mk.inj hrun
    obtain rfl := Except.ok.inj houtcome
    have hclean := clean_of_succeeded hsuccess
    unfold runContainer at hcontainer
    obtain ⟨dir, s₄, hmade, hcontainer⟩ := Statement.of_bind_ok hcontainer
    obtain ⟨ended', s₅, hends, hcontainer⟩ := Statement.of_bind_ok hcontainer
    obtain ⟨_, s₆, -, hcontainer⟩ := Statement.of_bind_ok hcontainer
    obtain ⟨hended, -⟩ := Prod.mk.inj hcontainer
    obtain rfl := Except.ok.inj hended
    exact ⟨mounts, dir, s₄.world, ended', .intro hpurged hmounted hmade rfl, inContainer_read hends hclean, hclean, rfl⟩

end Orchestrator

section Whole
variable {σ τ : Type} {O : PodmanOrchestrator} {N : Engine τ} {H : Host σ} {env : Env}

/-- Podman runs the container in a fresh directory, with the secrets of the environment; a status of 0 is the container's own. -/
structure RunsImage (O : PodmanOrchestrator) (N : Engine τ) (H : Host σ) (env : Env) : Prop where
  secrets : ∀ key ∈ Secrets.secretEnvKeys, H.env.lookup key = env.lookup key
  ends : ∀ dir name mounts world world', N.stream (buildArgv O env dir name mounts) env world = (.ok (false, 0), world') →
    ∃ c c', Fresh c ∧ main H c = (.ok 0, c') ∧ N.read (outFile dir "result.json") world' = fileOf c'.result ∧
      N.read (outFile dir "result.md") world' = fileOf c'.markdown

/-- What an output without a result leaves: nothing of a blank one, else its scrubbed text, read with universal newlines and scrubbed again. -/
def markdownColumn (H : Host σ) (env : Env) (output : Text) : Option Text :=
  if (strip output).isEmpty then none
  else some (Secrets.scrubSecrets (universalNewlines (textOf (scrub H.logger.secrets (ofText output)))) (Secrets.secretEnvValues env))

/-- The review of an output as the two columns of the run hold it. -/
inductive Arrived (H : Host σ) (env : Env) (output : Text) : Option Json → Option Text → Prop
  | result {fields : List (Str × Value)} (hfields : extractResult H.machine output = .ok (some fields)) :
      Arrived H env output (some (toJson (Value.scrubValue H.logger.secrets (.obj fields)))) none
  | markdown (hnone : extractResult H.machine output = .ok none) : Arrived H env output none (markdownColumn H env output)

theorem secrets_agree (h : ∀ key ∈ Secrets.secretEnvKeys, H.env.lookup key = env.lookup key) :
    H.logger.secrets = Secrets.Strings.long ((Secrets.secretEnvValues env).map ofText) := by
  have hvalues : (["GITLAB_TOKEN", "OPENCODE_API_KEY"].filterMap fun key : String => (H.env.lookup key.toList).map ofText) =
      (Secrets.secretEnvKeys.filterMap fun key => env.lookup key).map ofText := by
    rw [List.map_filterMap]
    have hkeys : Secrets.secretEnvKeys = ["GITLAB_TOKEN", "OPENCODE_API_KEY"].map String.toList := rfl
    rw [hkeys] at h ⊢
    rw [List.filterMap_map]
    apply List.filterMap_congr
    intro key hkey
    rw [h _ (List.mem_map_of_mem hkey)]
    rfl
  have hlong : ∀ value : Text, (Python.truthy value && decide (Secrets.minScrubLen ≤ (ofText value).length)) =
      decide (Secrets.minScrubLen ≤ (ofText value).length) := by
    intro value
    cases value with
    | nil => rfl
    | cons c value => rfl
  unfold Host.logger runSecrets Secrets.Strings.long Secrets.secretEnvValues
  dsimp only
  rw [hvalues, List.filter_map, List.filter_map, List.filter_filter]
  congr 1
  apply List.filter_congr
  intro value _
  simp only [Function.comp_apply]
  rw [Bool.and_comm]
  exact (hlong value).symm

/-- The application's scrubber finds nothing to do in what the container has scrubbed. -/
theorem scrubJson_toJson {secrets : List Text} (hstars : ∀ secret ∈ secrets, '*' ∉ secret) {v : Value}
    (hencodable : (Value.scrubValue (Secrets.Strings.long (secrets.map ofText)) v).encodable = true) :
    Secrets.scrubJson secrets (toJson (Value.scrubValue (Secrets.Strings.long (secrets.map ofText)) v)) =
      toJson (Value.scrubValue (Secrets.Strings.long (secrets.map ofText)) v) := by
  set L := Secrets.Strings.long (secrets.map ofText) with hL
  have hstarless : ∀ secret ∈ secrets.map ofText, star ∉ secret := by
    intro _ hmade hmem
    obtain ⟨secret, hsecret, rfl⟩ := List.mem_map.mp hmade
    obtain ⟨c, hc, hstar⟩ := List.mem_map.mp hmem
    obtain rfl : c = '*' := Secrets.Strings.ofCode_injective hstar
    exact hstars secret hsecret hc
  have htwice : ∀ t ∈ Value.texts (Value.scrubValue L v), scrub L t = t := by
    intro t ht
    obtain ⟨u, rfl⟩ := Value.mem_texts_scrubValue ht
    have hscrub := @Secrets.Strings.scrub_scrub _ u hstarless
    rwa [Secrets.Strings.scrubSecrets_eq_scrub, Secrets.Strings.scrubSecrets_eq_scrub] at hscrub
  apply ofJson_injective
  rw [← scrubValue_ofJson, ofJson_toJson _ hencodable]
  exact Value.scrubValue_of_texts (Value.distinct_scrubValue v) htwice

theorem sound_extractResult {M : Machine} (hsound : ∀ text v, M.loads text = .value v → Sound M.floats v) {output : Text}
    {fields : List (Str × Value)} (h : extractResult M output = .ok (some fields)) : Sound M.floats (.obj fields) := by
  unfold extractResult at h
  split at h
  · cases h
  · rename_i block _
    cases hloads : M.loads block with
    | decodeError message => simp [hloads] at h
    | raised e => simp [hloads] at h
    | value v =>
      simp only [hloads, Except.ok.injEq] at h
      exact sound_normalizeResult (hsound block v hloads) h

/-- What the application reads of what was delivered, and stores after scrubbing it once more. -/
theorem arrived_of_delivered {output : Text} {c : Container σ} {resultMarkdown : Option Text}
    (hsecrets : ∀ key ∈ Secrets.secretEnvKeys, H.env.lookup key = env.lookup key)
    (hstars : ∀ secret ∈ Secrets.secretEnvValues env, '*' ∉ secret)
    (hsound : ∀ text v, H.machine.loads text = .value v → Sound H.machine.floats v) (h : Delivered H output c)
    (hmarkdown : readText (fileOf c.markdown) = .ok resultMarkdown) :
    Arrived H env output ((readJson H.machine.floats (fileOf c.result)).map (Secrets.scrubJson (Secrets.secretEnvValues env)))
      (resultMarkdown.map (Secrets.scrubSecrets · (Secrets.secretEnvValues env))) := by
  have hagree := secrets_agree hsecrets
  cases h with
  | result hfields hscalar hresult hnone =>
    rename_i fields
    rw [hnone] at hmarkdown
    obtain rfl := Except.ok.inj hmarkdown
    have hsoundFields := sound_extractResult hsound hfields
    have hencodable : (Value.scrubValue H.logger.secrets (.obj fields)).encodable = true := by
      have hall := hscalar
      unfold renderedResult at hall
      rw [List.all_append, Value.all_dumpValue, Bool.and_eq_true] at hall
      exact hall.1
    have hread : readJson H.machine.floats (fileOf c.result) = some (toJson (Value.scrubValue H.logger.secrets (.obj fields))) := by
      rw [hresult]
      exact readJson_fileOf hencodable (Value.distinct_scrubValue (.obj fields)) (sound_scrubValue hsoundFields)
    rw [hread, Option.map_some]
    rw [hagree] at hencodable ⊢
    rw [scrubJson_toJson hstars hencodable, ← hagree]
    exact .result hfields
  | markdown hnone hresult hwritten =>
    have hcolumn : resultMarkdown.map (Secrets.scrubSecrets · (Secrets.secretEnvValues env)) = markdownColumn H env output := by
      unfold markdownColumn
      rw [hwritten] at hmarkdown
      by_cases hblank : (strip output).isEmpty = true
      · rw [if_pos hblank] at hmarkdown ⊢
        obtain rfl := Except.ok.inj hmarkdown
        rfl
      · rw [if_neg hblank] at hmarkdown ⊢
        obtain rfl := Except.ok.inj hmarkdown
        rfl
    rw [hresult, hcolumn]
    exact .markdown hnone

/-- The execution of a job whose review has given the outcome. -/
structure Executes (ex : Execution) (env : Env) (outcome : RunOutcome) : Prop where
  answer : ex.answer = .ok outcome
  containerEnv : ex.containerEnv = env
  found : (ex.profileFound && ex.mrIid.isSome) = true

/-- The container `c` podman runs for a review that begins in `s`, and what the run leaves of it, which the review reads. -/
inductive Ran (O : PodmanOrchestrator) (N : Engine τ) (H : Host σ) (env : Env) (name : Text) (s : HostState τ) (c c' : Container σ) : Prop
  | intro {mounts : List (Text × Text)} {dir : Text} {world world' : τ} (hprepares : Prepares O N s mounts dir world)
      (hstream : N.stream (buildArgv O env dir name mounts) env world = (.ok (false, 0), world')) (hfresh : Fresh c)
      (hmain : main H c = (.ok 0, c')) (hresult : N.read (outFile dir "result.json") world' = fileOf c'.result)
      (hmarkdown : N.read (outFile dir "result.md") world' = fileOf c'.markdown)

/-- The outcome of a review that succeeded holds what opencode's last run in its container has printed. -/
theorem review_reaches_outcome {timeout : Text} {runId : Option ℤ} {token : Token} {s : HostState τ} {outcome : RunOutcome}
    {ex : Execution} (himage : RunsImage O N H env) (hsound : ∀ text v, H.machine.loads text = .value v → Sound H.machine.floats v)
    (hstars : ∀ secret ∈ Secrets.secretEnvValues env, '*' ∉ secret)
    (hreview : (runReview O N H.machine.floats timeout runId token true (some env) s).1 = .ok outcome) (hsuccess : Succeeded outcome)
    (hexecutes : Executes ex env outcome) :
    ∃ (c c' : Container σ) (output : Text), Ran O N H env (containerName runId token) s c c' ∧
      Attempts H (buildPrompt H) (some (0, output)) c'.attempts ∧ Arrived H env output ex.outcome.resultJson ex.outcome.resultMarkdown := by
  obtain ⟨mounts, dir, world, ended, hprepares, ⟨world', timedOut, code, resultJson, resultMarkdown, sessionJson, hstream, rfl, hjson,
    hmarkdown⟩, ⟨rfl, rfl⟩, rfl⟩ := runReview_read hreview hsuccess
  obtain ⟨c, c', hfresh, hmain, hresultFile, hmarkdownFile⟩ := himage.ends dir _ mounts world world' hstream
  obtain ⟨output, hattempts, hdelivered⟩ := main_delivered hfresh hmain (by decide)
  have hran := Ran.intro hprepares hstream hfresh hmain hresultFile hmarkdownFile
  rw [hresultFile] at hjson
  rw [hmarkdownFile] at hmarkdown
  have harrived := arrived_of_delivered himage.secrets hstars hsound hdelivered hmarkdown
  refine ⟨c, c', output, hran, hattempts, ?_⟩
  have houtcome : ex.outcome.resultJson =
        (readJson H.machine.floats (fileOf c'.result)).map (Secrets.scrubJson (Secrets.secretEnvValues env)) ∧
      ex.outcome.resultMarkdown = resultMarkdown.map (Secrets.scrubSecrets · (Secrets.secretEnvValues env)) := by
    unfold Execution.outcome
    rw [if_pos hexecutes.found, hexecutes.answer, hexecutes.containerEnv, ← hjson]
    exact ⟨rfl, rfl⟩
  rw [houtcome.1, houtcome.2]
  exact harrived

/-- A review that succeeds arrives: once its run is shown as a success, what opencode's last run has printed is in the row,
and it stays there whatever the users, the recoveries and the other workers do. -/
theorem review_reaches_row (rules : Lifecycle.Rules) {timeout : Text} {i : ℕ} {token : Token} {s : HostState τ} {outcome : RunOutcome}
    (himage : RunsImage O N H env) (hsound : ∀ text v, H.machine.loads text = .value v → Sound H.machine.floats v)
    (hstars : ∀ secret ∈ Secrets.secretEnvValues env, '*' ∉ secret)
    (hreview : (runReview O N H.machine.floats timeout (some i) token true (some env) s).1 = .ok outcome) (hsuccess : Succeeded outcome)
    (hexecutes : Executes (rules.answers i) env outcome) {before after : Pool Duty Site World PyError}
    (hbefore : (installation rules).Reaches (fun _ _ => True) ⟨World.empty, []⟩ before)
    (hafter : (installation rules).Reaches (fun _ _ => True) before after) {run : ReviewRun}
    (hrun : before.shared.run? i = some run) (hshown : run.status = .success) :
    ∃ (c c' : Container σ) (output : Text) (run' : ReviewRun), Ran O N H env (containerName (some i) token) s c c' ∧
      Attempts H (buildPrompt H) (some (0, output)) c'.attempts ∧ after.shared.run? i = some run' ∧
      Arrived H env output run'.resultJson run'.resultMarkdown := by
  obtain ⟨c, c', output, hran, hattempts, harrived⟩ :=
    review_reaches_outcome himage hsound hstars hreview hsuccess hexecutes
  obtain ⟨rs, hscribed⟩ := scribed_reaches hbefore
  obtain ⟨run', hrun', hjson, hmarkdown⟩ := results_stay hscribed hafter hrun (.inl hshown)
  rw [← hjson, ← hmarkdown] at harrived
  exact ⟨c, c', output, run', hran, hattempts, hrun', harrived⟩

end Whole

section Example

def foundValue : Value := .obj [(str "summary", .str (str "fine"))]

/-- opencode prints one fenced block. -/
def foundHost : Host Unit :=
  { plainHost with
    machine := { plainMachine with
      loads := fun text => if text = "\x7b\"summary\": \"fine\"\x7d\n".toList then .value foundValue else .decodeError [] }
    opencode := fun _ files =>
      (.ended ["```json\n".toList, "\x7b\"summary\": \"fine\"\x7d\n".toList, "```\n".toList] false 0, files) }

/-- The files its run leaves are in the directory. -/
def foundFiles (c : Entrypoint.Container Unit) (path : Text) : FileRead :=
  if '/' :: "result.md".toList <:+ path then fileOf c.markdown
  else if '/' :: "result.json".toList <:+ path then fileOf c.result
  else .missing

def foundEngine : Engine Unit := { plainEngine with read := fun path _ => foundFiles (main foundHost emptyContainer).2 path }

def foundJson : Json := toJson (Value.scrubValue foundHost.logger.secrets
  (.obj [(str "summary", .str (str "fine")), (str "findings", .obj (findingBuckets.map fun bucket => (bucket, .arr []))),
    (str "commit_message_review", .str []), (str "questions", .arr [])]))

def foundOutcome : RunOutcome := podmanOutcome "60".toList (.exited false 0 (some foundJson) none none)

theorem ok_of_toOption {ε α β : Type} {p : Except ε α × β} {a : α} (h : p.1.toOption = some a) : p = (.ok a, p.2) := by
  obtain ⟨answer, rest⟩ := p
  cases answer with
  | error e => cases h
  | ok b =>
    cases h
    rfl

theorem foundHost_main : main foundHost emptyContainer = (.ok 0, (main foundHost emptyContainer).2) :=
  ok_of_toOption (by decide +kernel)

theorem suffix_outFile (dir : Text) (name : String) : '/' :: name.toList <:+ outFile dir name := List.suffix_append dir _

theorem foundFiles_markdown (c : Entrypoint.Container Unit) (dir : Text) : foundFiles c (outFile dir "result.md") = fileOf c.markdown := by
  unfold foundFiles
  rw [if_pos (suffix_outFile dir "result.md")]

theorem foundFiles_result (c : Entrypoint.Container Unit) (dir : Text) : foundFiles c (outFile dir "result.json") = fileOf c.result := by
  have hother : ¬ '/' :: "result.md".toList <:+ outFile dir "result.json" := by
    rintro ⟨before, heq⟩
    have hlast := congrArg List.getLast? heq
    simp [outFile] at hlast
  unfold foundFiles
  rw [if_neg hother, if_pos (suffix_outFile dir "result.json")]

theorem foundEngine_runs : RunsImage plainOrchestrator foundEngine foundHost foundHost.env where
  secrets _ _ := rfl
  ends dir _ _ _ _ _ :=
    ⟨emptyContainer, _, ⟨rfl, rfl, rfl⟩, foundHost_main, foundFiles_result _ dir, foundFiles_markdown _ dir⟩

theorem foundHost_sound (text : Text) (v : Value) (h : foundHost.machine.loads text = .value v) : Sound foundHost.machine.floats v := by
  unfold foundHost at h
  dsimp only at h
  split at h
  · obtain rfl := Loaded.value.inj h
    exact ⟨trivial, trivial⟩
  · cases h

def foundReview : Except Failure RunOutcome :=
  (runReview plainOrchestrator foundEngine foundHost.machine.floats "60".toList (some 1) sampleToken true (some foundHost.env) ⟨[], [], ()⟩).1

theorem foundEngine_review : foundReview = .ok foundOutcome := by
  have hparts : (foundReview.toOption.any fun o => decide (o.exitCode = 0) && decide (o.resultJson = some foundJson) &&
      decide (o.resultMarkdown = none) && decide (o.sessionJson = none) && decide (o.error = none) && !o.timedOut) = true := by
    decide +kernel
  generalize foundReview = answer at hparts
  cases answer with
  | error e => cases hparts
  | ok outcome =>
    cases outcome
    simp only [Except.toOption, Option.any_some, Bool.and_eq_true, decide_eq_true_eq, Bool.not_eq_true'] at hparts
    obtain ⟨⟨⟨⟨⟨rfl, rfl⟩, rfl⟩, rfl⟩, rfl⟩, rfl⟩ := hparts
    rfl

def foundExecution : Execution where
  floats := .none
  strings := .ascii
  startedAt := 1
  finishedAt := 2
  profileFound := true
  mrIid := some 5
  postResultsToGitlab := false
  containerEnv := foundHost.env
  chunks := []
  answer := .ok foundOutcome
  note := .ok 7

def foundRules : Lifecycle.Rules := { Lifecycle.quickRules .sqlite with answers := fun _ => foundExecution }

/-- A job is worked off. -/
def untilFound : List (Choice Duty) :=
  [.start (.process (.activity (.request (.enqueue Lifecycle.plainRequest)))), .advance 0, .advance 0,
    .start (.process (.activity (.pump 1)))] ++ List.replicate 10 (.advance 1)

/-- The run is archived after it. -/
def untilArchived : List (Choice Duty) := [.start (.archive 1 9), .advance 2, .advance 2]

theorem review_reaches_row_found : ∃ (c c' : Entrypoint.Container Unit) (output : Text) (run : ReviewRun),
    Ran plainOrchestrator foundEngine foundHost foundHost.env (containerName (some 1) sampleToken) ⟨[], [], ()⟩ c c' ∧
      Attempts foundHost (buildPrompt foundHost) (some (0, output)) c'.attempts ∧
      Arrived foundHost foundHost.env output run.resultJson run.resultMarkdown ∧ run.archivedAt = some 9 := by
  have hstars : ∀ secret ∈ Secrets.secretEnvValues foundHost.env, '*' ∉ secret := by
    have hall : ((Secrets.secretEnvValues foundHost.env).all fun secret => !secret.contains '*') = true := by decide +kernel
    exact fun secret hmem => by simpa using List.all_eq_true.mp hall secret hmem
  obtain ⟨before, after, hbefore, hp, hafter, hq⟩ := System.exists_of_exec_exec (installation foundRules) (fun _ _ => True)
    ⟨World.empty, []⟩ untilFound untilArchived
    (fun c => (c.shared.run? 1).map (·.status) == some .success)
    (fun d => (d.shared.run? 1).map (·.archivedAt) == some (some 9)) (by decide +kernel)
  obtain ⟨run, hrun, hshown⟩ := Option.map_eq_some_iff.mp (eq_of_beq hp)
  obtain ⟨c, c', output, run', hran, hattempts, hrun', harrived⟩ := review_reaches_row foundRules foundEngine_runs foundHost_sound
    hstars (i := 1) foundEngine_review ⟨rfl, rfl, rfl⟩ ⟨rfl, rfl, rfl⟩ hbefore hafter hrun hshown
  obtain ⟨archived, harchived, hnine⟩ := Option.map_eq_some_iff.mp (eq_of_beq hq)
  obtain rfl := Option.some.inj (harchived.symm.trans hrun')
  exact ⟨c, c', output, archived, hran, hattempts, harrived, hnine⟩

end Example

end GitlabReviewer.Pipeline
