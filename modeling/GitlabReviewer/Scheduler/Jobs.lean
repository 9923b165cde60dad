import GitlabReviewer.Foundation.Dictionary
import GitlabReviewer.Gitlab.Pagination
import GitlabReviewer.Settings.SettingsForm

/-! # The jobs of the scheduler

Each tick of the pump reads the settings row and compares it with the values it
saw last. A new value is remembered before the job is rescheduled, so a trigger
that cannot be made leaves the old one in place for good.
-/
namespace GitlabReviewer.Scheduler
open Python Foundation Settings Gitlab

inductive JobId where
  | reviewPump
  | nightlyPromote
  deriving DecidableEq

/-- `IntervalTrigger(seconds=...)` and `CronTrigger(hour=..., minute=...)`. -/
inductive Trigger where
  | interval (seconds : ℤ)
  | cron (hour minute : ℤ)
  deriving DecidableEq

inductive Failure where
  | raised (e : Raised)
  | conflictingId
  | jobLookup
  deriving DecidableEq

abbrev Jobs := List (JobId × Trigger)

/-- The columns of the settings row the scheduler reads, whatever has been saved there. -/
structure SavedSettings where
  pollIntervalSeconds : Json
  nightlyTime : Option Text

/-- The jobs, and `nm_state` with the values seen last. -/
structure BackgroundScheduler where
  jobs : Jobs
  pollInterval : ℤ
  nightlyTime : Option Text
  deriving DecidableEq

/-- What a tick finds: the saved row, and the wall clock in microseconds since the year 1. -/
structure Tick where
  row : SavedSettings
  now : ℤ

def getJob (id : JobId) (jobs : Jobs) : Option Trigger := jobs.lookup id

def addJob (id : JobId) (trigger : Trigger) (jobs : Jobs) : Except Failure Jobs :=
  match getJob id jobs with
  | some _ => .error .conflictingId
  | none => .ok (jobs ++ [(id, trigger)])

def rescheduleJob (id : JobId) (trigger : Trigger) (jobs : Jobs) : Except Failure Jobs :=
  match getJob id jobs with
  | some _ => .ok (setKey jobs id trigger)
  | none => .error .jobLookup

def removeJob (id : JobId) (jobs : Jobs) : Except Failure Jobs :=
  match getJob id jobs with
  | some _ => .ok (jobs.filter (·.1 ≠ id))
  | none => .error .jobLookup

/-- The first fire must lie before the end of the year 9999. -/
def intervalTrigger (now seconds : ℤ) : Except Failure Trigger :=
  if now + seconds * 1000000 < clockEnd then .ok (.interval seconds) else .error (.raised .overflowError)

section Ticks
variable (L : Stdlib)

/-- `_safe_interval`. -/
def safeInterval (value : Json) : Except Failure ℤ :=
  match intOf L value with
  | .ok n => .ok (max 1 n)
  | .error .typeError | .error .valueError => .ok 30
  | .error e => .error (.raised e)

/-- `_nightly_trigger`. -/
def nightlyTrigger (nightlyTime : Option Text) : Option Trigger :=
  (parseNightly L.ints nightlyTime).map fun time => .cron time.1 time.2

/-- The jobs are replaced, unless the call on them raised. -/
def store (result : Except Failure Jobs) (s : BackgroundScheduler) : Except Failure Unit × BackgroundScheduler :=
  match result with
  | .ok jobs => (.ok (), { s with jobs })
  | .error e => (.error e, s)

/-- `_sync_nightly_job`. -/
def syncNightlyJob (nightlyTime : Option Text) (s : BackgroundScheduler) : Except Failure Unit × BackgroundScheduler :=
  match nightlyTrigger L nightlyTime, getJob .nightlyPromote s.jobs with
  | none, none => (.ok (), s)
  | none, some _ => store (removeJob .nightlyPromote s.jobs) s
  | some trigger, none => store (addJob .nightlyPromote trigger s.jobs) s
  | some trigger, some _ => store (rescheduleJob .nightlyPromote trigger s.jobs) s

/-- `init_scheduler`; none where the scheduler is disabled. -/
def initScheduler (disabled : Bool) (t : Tick) : Except Failure (Option BackgroundScheduler) :=
  if disabled then .ok none
  else do
    let interval ← safeInterval L t.row.pollIntervalSeconds
    let trigger ← intervalTrigger t.now interval
    let jobs ← addJob .reviewPump trigger []
    match syncNightlyJob L t.row.nightlyTime ⟨jobs, interval, t.row.nightlyTime⟩ with
    | (.ok (), s) => .ok (some s)
    | (.error e, _) => .error e

/-- The part of the tick about the nightly time. -/
def followNightly (row : SavedSettings) (s : BackgroundScheduler) : Except Failure Unit × BackgroundScheduler :=
  if row.nightlyTime ≠ s.nightlyTime then syncNightlyJob L row.nightlyTime { s with nightlyTime := row.nightlyTime }
  else (.ok (), s)

/-- `_pump_tick` up to the pump, whose exceptions are caught. -/
def pumpTick (t : Tick) (s : BackgroundScheduler) : Except Failure Unit × BackgroundScheduler :=
  match safeInterval L t.row.pollIntervalSeconds with
  | .error e => (.error e, s)
  | .ok interval =>
      if interval ≠ s.pollInterval then
        let s := { s with pollInterval := interval }
        match intervalTrigger t.now interval with
        | .error e => (.error e, s)
        | .ok trigger =>
            match store (rescheduleJob .reviewPump trigger s.jobs) s with
            | (.ok (), s) => followNightly L t.row s
            | failed => failed
      else followNightly L t.row s

/-- Ticks one after the other, the settings saved in any way between them; each
tick meets the condition. `row` is what the last one has read. -/
inductive Reached (ok : BackgroundScheduler → Tick → Prop) : SavedSettings → BackgroundScheduler → Prop
  | init {t : Tick} {s : BackgroundScheduler} (h : initScheduler L false t = .ok (some s)) : Reached ok t.row s
  | tick {row : SavedSettings} {s : BackgroundScheduler} (t : Tick) (h : Reached ok row s) (hok : ok s t) :
      Reached ok t.row (pumpTick L t s).2

/-- The pump runs at the safe interval, and the nightly job exists exactly for a
valid time, with its hour and minute. -/
structure Tracks (row : SavedSettings) (s : BackgroundScheduler) : Prop where
  pump : ∃ n, safeInterval L row.pollIntervalSeconds = .ok n ∧ getJob .reviewPump s.jobs = some (.interval n)
  nightly : ∀ trigger, getJob .nightlyPromote s.jobs = some trigger ↔
    ∃ hour minute, parseNightly L.ints row.nightlyTime = some (hour, minute) ∧ trigger = .cron hour minute

/-- The interval has passed the form, and the last day of the year 9999 has not begun. -/
def FromForm (t : Tick) : Prop :=
  (∃ value saved, pollIntervalField value = .ok saved ∧ t.row.pollIntervalSeconds = .int saved) ∧ t.now + 86400 * 1000000 < clockEnd

/-- The interval is a number, and it is the one seen last or has a trigger. -/
def Schedulable (s : BackgroundScheduler) (t : Tick) : Prop :=
  ∃ n, safeInterval L t.row.pollIntervalSeconds = .ok n ∧ (n = s.pollInterval ∨ t.now + n * 1000000 < clockEnd)

end Ticks

section Steps
variable {L : Stdlib} {s : BackgroundScheduler} {t : Tick}

/-- The jobs are those of the values seen last. -/
structure InStep (L : Stdlib) (s : BackgroundScheduler) : Prop where
  pump : getJob .reviewPump s.jobs = some (.interval s.pollInterval)
  nightly : getJob .nightlyPromote s.jobs = nightlyTrigger L s.nightlyTime

/-- The nightly job becomes that of the given time, and the pump keeps its trigger. -/
theorem syncNightlyJob_spec (nightlyTime : Option Text) (s : BackgroundScheduler) : ∃ jobs, syncNightlyJob L nightlyTime s = (.ok (), { s with jobs }) ∧
    getJob .nightlyPromote jobs = nightlyTrigger L nightlyTime ∧ getJob .reviewPump jobs = getJob .reviewPump s.jobs := by
  have hne : JobId.reviewPump ≠ .nightlyPromote := by decide
  unfold syncNightlyJob
  cases htrigger : nightlyTrigger L nightlyTime with
  | none =>
    cases hjob : getJob .nightlyPromote s.jobs with
    | none => exact ⟨s.jobs, rfl, hjob, rfl⟩
    | some old =>
      refine ⟨s.jobs.filter (·.1 ≠ .nightlyPromote), ?_, lookup_filter_self _ _, lookup_filter_ne _ hne⟩
      simp only [removeJob, hjob, store]
  | some trigger =>
    cases hjob : getJob .nightlyPromote s.jobs with
    | none =>
      refine ⟨s.jobs ++ [(.nightlyPromote, trigger)], ?_, ?_, ?_⟩
      · simp only [addJob, hjob, store]
      · unfold getJob at hjob ⊢
        rw [List.lookup_append, hjob, List.lookup_cons_self, Option.none_or]
      · unfold getJob
        rw [List.lookup_append]
        cases s.jobs.lookup .reviewPump <;> rfl
    | some old =>
      refine ⟨setKey s.jobs .nightlyPromote trigger, ?_, lookup_setKey_self _ _ _, lookup_setKey_ne _ _ hne⟩
      simp only [rescheduleJob, hjob, store]

theorem followNightly_spec (row : SavedSettings) (h : getJob .nightlyPromote s.jobs = nightlyTrigger L s.nightlyTime) :
    ∃ jobs, followNightly L row s = (.ok (), { s with jobs, nightlyTime := row.nightlyTime }) ∧
      getJob .nightlyPromote jobs = nightlyTrigger L row.nightlyTime ∧ getJob .reviewPump jobs = getJob .reviewPump s.jobs := by
  unfold followNightly
  by_cases hsame : row.nightlyTime = s.nightlyTime
  · refine ⟨s.jobs, ?_, hsame ▸ h, rfl⟩
    rw [if_neg (not_not.mpr hsame), hsame]
  · rw [if_pos hsame]
    exact syncNightlyJob_spec row.nightlyTime { s with nightlyTime := row.nightlyTime }

theorem intervalTrigger_eq {now seconds : ℤ} (h : now + seconds * 1000000 < clockEnd) :
    intervalTrigger now seconds = .ok (.interval seconds) := if_pos h

/-- A tick that meets the condition leaves the jobs in step with the row. -/
theorem pumpTick_inStep (h : InStep L s) {n : ℤ} (hn : safeInterval L t.row.pollIntervalSeconds = .ok n)
    (hfits : n = s.pollInterval ∨ t.now + n * 1000000 < clockEnd) :
    InStep L (pumpTick L t s).2 ∧ (pumpTick L t s).2.pollInterval = n ∧ (pumpTick L t s).2.nightlyTime = t.row.nightlyTime := by
  unfold pumpTick
  rw [hn]
  dsimp only
  by_cases hsame : n = s.pollInterval
  · obtain ⟨jobs, hfollow, hnightly, hpump⟩ := followNightly_spec t.row h.nightly
    rw [if_neg (not_not.mpr hsame), hfollow]
    exact ⟨⟨hpump.trans h.pump, hnightly⟩, hsame.symm, rfl⟩
  · have hresched : rescheduleJob .reviewPump (.interval n) s.jobs = .ok (setKey s.jobs .reviewPump (.interval n)) := by
      rw [rescheduleJob, h.pump]
    have hkept : getJob .nightlyPromote (setKey s.jobs .reviewPump (.interval n)) = nightlyTrigger L s.nightlyTime :=
      (lookup_setKey_ne _ _ (by decide)).trans h.nightly
    obtain ⟨jobs, hfollow, hnightly, hpump⟩ := followNightly_spec (L := L)
      (s := ⟨setKey s.jobs .reviewPump (.interval n), n, s.nightlyTime⟩) t.row hkept
    rw [if_pos hsame, intervalTrigger_eq (hfits.resolve_left hsame)]
    dsimp only
    rw [hresched]
    dsimp only [store]
    rw [hfollow]
    exact ⟨⟨hpump.trans (lookup_setKey_self _ _ _), hnightly⟩, rfl, rfl⟩

theorem tracks_of_inStep {row : SavedSettings} (h : InStep L s) (hn : safeInterval L row.pollIntervalSeconds = .ok s.pollInterval)
    (hnightly : s.nightlyTime = row.nightlyTime) : Tracks L row s := by
  refine ⟨⟨_, hn, h.pump⟩, fun trigger => ?_⟩
  rw [h.nightly, hnightly, nightlyTrigger, Option.map_eq_some_iff]
  constructor
  · rintro ⟨⟨hour, minute⟩, hparse, rfl⟩
    exact ⟨hour, minute, hparse, rfl⟩
  · rintro ⟨hour, minute, hparse, rfl⟩
    exact ⟨(hour, minute), hparse, rfl⟩

/-- After a tick that does not meet it, the pump is not at the saved interval. -/
theorem schedulable_of_tracks (h : InStep L s) (htracks : Tracks L t.row (pumpTick L t s).2) : Schedulable L s t := by
  obtain ⟨n, hn, hpump⟩ := htracks.pump
  refine ⟨n, hn, ?_⟩
  by_contra hnot
  obtain ⟨hne, hlate⟩ := not_or.mp hnot
  have hraise : intervalTrigger t.now n = .error (.raised .overflowError) := if_neg hlate
  unfold pumpTick at hpump
  rw [hn] at hpump
  dsimp only at hpump
  rw [if_pos hne, hraise] at hpump
  have hold : some (Trigger.interval n) = some (.interval s.pollInterval) := hpump.symm.trans h.pump
  exact hne (Trigger.interval.inj (Option.some.inj hold))

theorem initScheduler_inStep (h : initScheduler L false t = .ok (some s)) : InStep L s ∧
    safeInterval L t.row.pollIntervalSeconds = .ok s.pollInterval ∧ s.nightlyTime = t.row.nightlyTime := by
  cases hn : safeInterval L t.row.pollIntervalSeconds with
  | error e => simp [initScheduler, hn, bind, Except.bind] at h
  | ok n =>
    by_cases hfits : t.now + n * 1000000 < clockEnd
    · have hadd : addJob .reviewPump (.interval n) [] = .ok [(.reviewPump, .interval n)] := rfl
      obtain ⟨jobs, hsync, hnightly, hpump⟩ := syncNightlyJob_spec (L := L) t.row.nightlyTime
        ⟨[(.reviewPump, .interval n)], n, t.row.nightlyTime⟩
      simp only [initScheduler, Bool.false_eq_true, if_false, hn, intervalTrigger_eq hfits, hadd, bind, Except.bind, hsync] at h
      cases h
      exact ⟨⟨hpump, hnightly⟩, rfl, rfl⟩
    · have hraise : intervalTrigger t.now n = .error (.raised .overflowError) := if_neg hfits
      simp [initScheduler, hn, hraise, bind, Except.bind] at h

theorem reached_inStep {row : SavedSettings} (h : Reached L (Schedulable L) row s) : InStep L s ∧
    safeInterval L row.pollIntervalSeconds = .ok s.pollInterval ∧ s.nightlyTime = row.nightlyTime := by
  induction h with
  | init h => exact initScheduler_inStep h
  | tick t _ hok ih =>
    obtain ⟨n, hn, hfits⟩ := hok
    obtain ⟨hstep, hpoll, hnightly⟩ := pumpTick_inStep ih.1 hn hfits
    exact ⟨hstep, hn.trans (congrArg Except.ok hpoll.symm), hnightly⟩

theorem schedulable_of_fromForm (h : FromForm t) : Schedulable L s t := by
  obtain ⟨⟨value, saved, hfield, hrow⟩, hclock⟩ := h
  obtain ⟨rfl, hlow, hhigh⟩ := pollIntervalField_eq_ok_iff.mp hfield
  refine ⟨saved, ?_, .inr (by omega)⟩
  rw [hrow, safeInterval, intOf]
  simp only [max_eq_right hlow]

theorem Reached.mono {ok ok' : BackgroundScheduler → Tick → Prop} (hok : ∀ s t, ok s t → ok' s t) {row : SavedSettings}
    (h : Reached L ok row s) : Reached L ok' row s := by
  induction h with
  | init h => exact .init h
  | tick t _ hmet ih => exact ih.tick t (hok _ t hmet)

/-- As long as only the form saves the interval, the jobs follow the row. -/
theorem tracks_of_form {row : SavedSettings} (h : Reached L (fun _ => FromForm) row s) : Tracks L row s := by
  obtain ⟨hstep, hpoll, hnightly⟩ := reached_inStep (h.mono fun _ _ => schedulable_of_fromForm)
  exact tracks_of_inStep hstep hpoll hnightly

end Steps

/-- In every run whose ticks all meet the condition the jobs are those of the saved
row after each tick, and the next tick keeps them so exactly if it meets it too.
A nightly time the form accepts is an hour and a minute. -/
theorem jobs_track_settings {L : Stdlib} (hL : DecimalDigits L.ints) :
    (∀ row s, Reached L (Schedulable L) row s →
      Tracks L row s ∧ ∀ t : Tick, Tracks L t.row (pumpTick L t s).2 ↔ Schedulable L s t) ∧
    ∀ value saved, nightlyField L.ints value = .ok saved → ∃ hour minute, parseNightly L.ints (some saved) = some (hour, minute) := by
  refine ⟨fun row s hreached => ?_, fun _ _ => parseNightly_of_nightlyField hL⟩
  obtain ⟨hstep, hpoll, hnightly⟩ := reached_inStep hreached
  refine ⟨tracks_of_inStep hstep hpoll hnightly, fun t => ⟨schedulable_of_tracks hstep, fun hok => ?_⟩⟩
  obtain ⟨hstep', hpoll', hnightly'⟩ := reached_inStep (hreached.tick t hok)
  exact tracks_of_inStep hstep' hpoll' hnightly'

section Example

/-- Noon of a day in 2026. -/
def sampleNow : ℤ := 739800 * 86400000000 + 43200000000

def savedSettings (seconds : ℤ) : SavedSettings := ⟨.int seconds, some "02:30".toList⟩

def startedScheduler : BackgroundScheduler :=
  ⟨[(.reviewPump, .interval 30), (.nightlyPromote, .cron 2 30)], 30, some "02:30".toList⟩

theorem initScheduler_sample : initScheduler plainStdlib false ⟨savedSettings 30, sampleNow⟩ = .ok (some startedScheduler) := by
  decide

theorem decimalDigits_plain : DecimalDigits plainStdlib.ints := by
  have hdigit : ∀ c d, plainStdlib.ints.digit c = some d → isDigit c = true ∧ c.toNat - 48 = d := by
    intro c d h
    by_cases hc : isDigit c = true
    · exact ⟨hc, Option.some.inj ((if_pos hc).symm.trans h)⟩
    · exact absurd ((if_neg hc).symm.trans h) (by simp)
  refine ⟨fun c _ => rfl, fun c d h => ?_, fun c h => ?_⟩
  · obtain ⟨hc, rfl⟩ := hdigit c d h
    rw [isDigit, Bool.and_eq_true, decide_eq_true_eq, decide_eq_true_eq] at hc
    have hnine : c.toNat ≤ 57 := UInt32.le_iff_toNat_le.mp hc.2
    omega
  · obtain ⟨d, hd⟩ := Option.isSome_iff_exists.mp h
    exact isSpace_of_isDigit (hdigit c d hd).1

theorem jobs_track_settings_sample : Tracks plainStdlib (savedSettings 60)
    (pumpTick plainStdlib ⟨savedSettings 60, sampleNow⟩ startedScheduler).2 := by
  have hstart : Reached plainStdlib (Schedulable plainStdlib) (savedSettings 30) startedScheduler := .init initScheduler_sample
  have hfits : sampleNow + 60 * 1000000 < clockEnd := by decide
  obtain ⟨-, hnext⟩ := (jobs_track_settings decimalDigits_plain).1 _ _ hstart
  exact (hnext ⟨savedSettings 60, sampleNow⟩).mpr ⟨60, rfl, .inr hfits⟩

/-- An interval that ends after the year 9999. -/
def farTick : Tick := ⟨savedSettings 1000000000000, sampleNow⟩

def afterFarTick : BackgroundScheduler := (pumpTick plainStdlib farTick startedScheduler).2

/-- The first tick raises. The second finds the value among those seen last and
returns, and the pump is still where it was. -/
theorem interval_never_applied :
    ((pumpTick plainStdlib farTick startedScheduler).1 = .error (.raised .overflowError) ∧
      (pumpTick plainStdlib farTick afterFarTick).1 = .ok ()) ∧
    ¬ ∀ (L : Stdlib) (row : SavedSettings) (s : BackgroundScheduler), Reached L (fun _ _ => True) row s → Tracks L row s := by
  refine ⟨⟨by decide, by decide⟩, fun hclaim => ?_⟩
  have hstart : Reached plainStdlib (fun _ _ => True) (savedSettings 30) startedScheduler := .init initScheduler_sample
  obtain ⟨n, hn, hpump⟩ := (hclaim _ _ _ ((hstart.tick farTick trivial).tick farTick trivial)).pump
  have hfar : safeInterval plainStdlib farTick.row.pollIntervalSeconds = .ok 1000000000000 := rfl
  have hold : getJob .reviewPump (pumpTick plainStdlib farTick afterFarTick).2.jobs = some (.interval 30) := by decide
  have hseconds : n = 1000000000000 := Except.ok.inj (hn.symm.trans hfar)
  have hthirty : n = 30 := Trigger.interval.inj (Option.some.inj (hpump.symm.trans hold))
  omega

end Example

end GitlabReviewer.Scheduler
