import GitlabReviewer.Orchestrator.Commands

/-! # What the purge removes

Podman prints a line for each exited container. The second it was created in is
read from the line, the fraction after it is not; the containers of a second more
than 24 hours ago are removed, in the order they are listed, and no others.
-/
namespace GitlabReviewer.Orchestrator
open Python Foundation

/-- A container as `podman ps` prints it. -/
structure Listed where
  id : Text
  created : Stamp
  fraction : Text
  zone : Text
  id_short : ShortId id
  created_printable : created.Printable
  fraction_digits : Fraction fraction
  zone_line : ∀ c ∈ zone, lineBreak c = false

def Listed.line (c : Listed) : Text := printLine c.id c.created c.fraction c.zone

def listing (containers : List Listed) : Text := containers.flatMap fun c => c.line ++ ['\n']

section OneLine

/-- The text ends no line. -/
abbrev OneLine (text : Text) : Prop := ∀ c ∈ text, lineBreak c = false

theorem lineBreak_of_isDigit {c : Char} (h : isDigit c = true) : lineBreak c = false := by
  simp only [isDigit, Bool.and_eq_true, decide_eq_true_eq] at h
  have hmin : 48 ≤ c.toNat := UInt32.le_iff_toNat_le.mp h.1
  have hmax : c.toNat ≤ 57 := UInt32.le_iff_toNat_le.mp h.2
  simp only [lineBreak, List.contains_eq_mem, decide_eq_false_iff_not, List.mem_cons, List.not_mem_nil, or_false]
  omega

theorem lineBreak_of_lowerHex {c : Char} (h : lowerHex c = true) : lineBreak c = false := by
  rcases (Bool.or_eq_true _ _).mp h with hdigit | hletter
  · exact lineBreak_of_isDigit hdigit
  · simp only [Bool.and_eq_true, decide_eq_true_eq] at hletter
    have hmin : 97 ≤ c.toNat := UInt32.le_iff_toNat_le.mp hletter.1
    have hmax : c.toNat ≤ 102 := UInt32.le_iff_toNat_le.mp hletter.2
    simp only [lineBreak, List.contains_eq_mem, decide_eq_false_iff_not, List.mem_cons, List.not_mem_nil, or_false]
    omega

theorem twoDigits_oneLine {n : ℕ} (h : n < 100) : OneLine (twoDigits n) := by
  have hhigh := lineBreak_of_isDigit (isDigit_ofNat (n / 10) (by omega)).1
  have hlow := lineBreak_of_isDigit (isDigit_ofNat (n % 10) (by omega)).1
  exact List.forall_mem_cons.mpr ⟨hhigh, List.forall_mem_singleton.mpr hlow⟩

theorem fraction_oneLine {fraction : Text} (h : Fraction fraction) : OneLine fraction := by
  rcases h with rfl | ⟨c, digits, rfl, hc, hdigits⟩
  · exact List.forall_mem_nil _
  · have hpoint : lineBreak '.' = false := by decide
    exact List.forall_mem_cons.mpr ⟨hpoint, List.forall_mem_cons.mpr
      ⟨lineBreak_of_isDigit hc, fun d hd => lineBreak_of_isDigit (hdigits d hd)⟩⟩

theorem printThree_oneLine {first : Text} {sep : Char} {b c : ℕ} (hfirst : OneLine first) (hsep : lineBreak sep = false)
    (hb : b < 100) (hc : c < 100) : OneLine (printThree first sep b c) :=
  List.forall_mem_append.mpr ⟨hfirst, List.forall_mem_cons.mpr ⟨hsep, List.forall_mem_append.mpr
    ⟨twoDigits_oneLine hb, List.forall_mem_cons.mpr ⟨hsep, twoDigits_oneLine hc⟩⟩⟩⟩

theorem printStamp_oneLine {s : Stamp} {fraction zone : Text} (hs : s.Printable) (hfraction : Fraction fraction)
    (hzone : OneLine zone) : OneLine (printStamp s fraction zone) := by
  obtain ⟨h, hyear, hoffsetMinute⟩ := hs
  have hmonth := h.month
  have hoffset := h.offset
  unfold offsetSeconds at hoffset
  obtain ⟨hhour, hminute, hsecond⟩ := h.time
  have hdate : OneLine (printThree (fourDigits s.year) '-' s.month s.day) :=
    printThree_oneLine (List.forall_mem_append.mpr ⟨twoDigits_oneLine (by omega), twoDigits_oneLine (by omega)⟩) (by decide)
      (by omega) h.day_lt
  have htime : OneLine (printThree (twoDigits s.hour) ':' s.minute s.second) :=
    printThree_oneLine (twoDigits_oneLine (by omega)) (by decide) (by omega) (by omega)
  have hsign : lineBreak (if s.behind then '-' else '+') = false := by
    cases s.behind <;> decide
  have hoffsetLine : OneLine (printOffset s) := List.forall_mem_cons.mpr
    ⟨hsign, List.forall_mem_append.mpr ⟨twoDigits_oneLine (by omega), twoDigits_oneLine (by omega)⟩⟩
  have hblank : lineBreak ' ' = false := by decide
  unfold printStamp
  simp only [List.forall_mem_append, List.forall_mem_cons]
  exact ⟨hdate, hblank, htime, fraction_oneLine hfraction, hblank, hoffsetLine, hblank, hzone⟩

theorem line_oneLine (c : Listed) : OneLine c.line := by
  have hblank : lineBreak ' ' = false := by decide
  exact List.forall_mem_append.mpr ⟨fun d hd => lineBreak_of_lowerHex (c.id_short.hex d hd), List.forall_mem_cons.mpr
    ⟨hblank, printStamp_oneLine c.created_printable c.fraction_digits c.zone_line⟩⟩

end OneLine

theorem splitLines_listing (containers : List Listed) : splitLines (listing containers) = containers.map Listed.line := by
  induction containers with
  | nil => rfl
  | cons c containers ih =>
    have hfirst := splitLines_first (line_oneLine c) (show lineBreak '\n' = true by decide) (listing containers)
    unfold listing at hfirst ⊢
    rw [List.flatMap_cons, List.append_assoc, List.singleton_append, hfirst, List.map_cons]
    exact congrArg _ ih

section Purge
variable {σ : Type} {O : PodmanOrchestrator} {N : Engine σ}

/-- Nothing podman answers to a removal fails to decode. -/
def Decodes (O : PodmanOrchestrator) (N : Engine σ) : Prop :=
  ∀ name world message, (N.podman (rmArgv O name) world).1 ≠ .undecodable message

theorem removeContainer_run (h : Decodes O N) (name : Text) (s : HostState σ) :
    ∃ world, removeContainer O N name s = (.ok (), ⟨s.commands ++ [rmArgv O name], s.temps, world⟩) := by
  refine ⟨(N.podman (rmArgv O name) s.world).2, ?_⟩
  have hreply := h name s.world
  have hissue : issue (rmArgv O name) s = (.ok (), { s with commands := s.commands ++ [rmArgv O name] }) := rfl
  unfold removeContainer
  rw [Statement.bind_ok hissue, Statement.bind_ok (onWorld_run _ _)]
  dsimp only
  cases hcase : (N.podman (rmArgv O name) s.world).1 with
  | undecodable message => exact (hreply message hcase).elim
  | failed | exited => rfl

/-- Created in a second that began before the cutoff; the fraction of the creation time is dropped. -/
def Listed.stale (cutoff : ℚ) (c : Listed) : Bool := (c.created.timestamp : ℚ) < cutoff

theorem purgeLines_run (h : Decodes O N) (cutoff : ℚ) (containers : List Listed) (s : HostState σ) :
    ∃ world, forM (containers.map Listed.line) (purgeLine O N cutoff) s =
      (.ok (), ⟨s.commands ++ (containers.filter (Listed.stale cutoff)).map fun c => rmArgv O c.id, s.temps, world⟩) := by
  induction containers generalizing s with
  | nil =>
    have hsame : s = ⟨s.commands ++ [], s.temps, s.world⟩ := by rw [List.append_nil]
    exact ⟨s.world, congrArg (Prod.mk (Except.ok ())) hsame⟩
  | cons c containers ih =>
    have hmatch : matchCreated c.line = some (c.id, c.created) := matchCreated_printLine c.id_short c.created_printable c.fraction_digits c.zone
    have hline : purgeLine O N cutoff c.line =
        if (c.created.timestamp : ℚ) < cutoff then removeContainer O N c.id else pure () := by
      unfold purgeLine
      rw [hmatch]
      exact if_pos c.created_printable.valid
    rw [List.map_cons, List.forM_cons, hline]
    by_cases hstale : (c.created.timestamp : ℚ) < cutoff
    · obtain ⟨world, hremove⟩ := removeContainer_run h c.id s
      obtain ⟨last, hrest⟩ := ih ⟨s.commands ++ [rmArgv O c.id], s.temps, world⟩
      refine ⟨last, ?_⟩
      rw [if_pos hstale, Statement.bind_ok hremove, hrest, List.filter_cons_of_pos (by simpa [Listed.stale] using hstale),
        List.map_cons, List.append_assoc, List.singleton_append]
    · obtain ⟨last, hrest⟩ := ih s
      refine ⟨last, ?_⟩
      rw [if_neg hstale, Statement.bind_ok (Statement.pure_run () s), hrest,
        List.filter_cons_of_neg (by simpa [Listed.stale] using hstale)]

/-- From a listing, the containers of a second that began more than 24 hours ago are removed, and only they. -/
theorem purge_exact (h : Decodes O N) (containers : List Listed) (s : HostState σ) (world : σ)
    (hlisting : N.podman (psArgv O) s.world = (.exited 0 (listing containers), world)) :
    ∃ last, purgeStaleContainers O N s = (.ok (), ⟨s.commands ++ psArgv O ::
      (containers.filter (Listed.stale (N.clock world - staleContainerSeconds))).map fun c => rmArgv O c.id, s.temps, last⟩) := by
  have hissue : issue (psArgv O) s = (.ok (), { s with commands := s.commands ++ [psArgv O] }) := rfl
  have hreply : onWorld (N.podman (psArgv O)) { s with commands := s.commands ++ [psArgv O] } =
      (.ok (.exited 0 (listing containers)), ⟨s.commands ++ [psArgv O], s.temps, world⟩) := by
    rw [onWorld_run]
    dsimp only
    rw [hlisting]
  obtain ⟨last, hrest⟩ := purgeLines_run h (N.clock world - staleContainerSeconds) containers ⟨s.commands ++ [psArgv O], s.temps, world⟩
  refine ⟨last, ?_⟩
  unfold purgeStaleContainers
  rw [Statement.bind_ok hissue, Statement.bind_ok hreply]
  dsimp only
  rw [if_neg (by simp), Statement.bind_ok (Statement.read_run _ _), splitLines_listing, hrest, List.append_assoc,
    List.singleton_append]

end Purge

def sampleStamp (day : ℕ) : Stamp := ⟨2026, 9, day, 9, 9, 50, false, 2, 0⟩

def sampleListed (id : String) (hid : ShortId id.toList) (day : ℕ) (h : (sampleStamp day).Printable) : Listed where
  id := id.toList
  created := sampleStamp day
  fraction := ".355623967".toList
  zone := "CEST".toList
  id_short := hid
  created_printable := h
  fraction_digits := .inr ⟨'3', "55623967".toList, by decide, by decide, List.all_eq_true.mp (by decide)⟩
  zone_line := by
    have hzone : ("CEST".toList.all fun c => !lineBreak c) = true := by decide
    exact fun c hc => by simpa using List.all_eq_true.mp hzone c hc

def sampleListing : List Listed :=
  [sampleListed "f05a316845dc" ⟨by decide, List.all_eq_true.mp (by decide)⟩ 5 ⟨by decide, by decide, by decide⟩,
    sampleListed "0c9d2e71ab34" ⟨by decide, List.all_eq_true.mp (by decide)⟩ 6 ⟨by decide, by decide, by decide⟩]

/-- A host with two exited containers, the first of a second more than a day ago. -/
def listingEngine : Engine Unit :=
  { plainEngine with
    podman := fun _ s => (.exited 0 (listing sampleListing), s)
    clock := fun _ => 1788592190 + 86400 + 1 }

theorem purge_exact_plain : ∃ last, purgeStaleContainers plainOrchestrator listingEngine ⟨[], [], ()⟩ = (.ok (),
    ⟨[psArgv plainOrchestrator, rmArgv plainOrchestrator "f05a316845dc".toList], [], last⟩) := by
  have hdecodes : Decodes plainOrchestrator listingEngine := by
    intro name world message h
    cases h
  have hstale : (sampleListing.filter (Listed.stale (1788592190 + 86400 + 1 - staleContainerSeconds))).map
      (fun c => rmArgv plainOrchestrator c.id) = [rmArgv plainOrchestrator "f05a316845dc".toList] := by
    decide +kernel
  obtain ⟨last, h⟩ := purge_exact hdecodes sampleListing ⟨[], [], ()⟩ () rfl
  exact ⟨last, h.trans (congrArg (fun removals => (Except.ok (), HostState.mk (psArgv plainOrchestrator :: removals) [] last)) hstale)⟩

end GitlabReviewer.Orchestrator
