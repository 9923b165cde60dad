import GitlabReviewer.Database.Migrations

/-! # What the boot does with the schema it finds

`init_db` creates the tables where there is no settings table, stamps a schema
without a stamp with the head revision, and reads the settings row. Whether a
stamp tells the truth depends on what was there before.
-/
namespace GitlabReviewer.Database
open Foundation

/-- The tables, the rows of `alembic_version` where it exists, and whether the
settings singleton is stored. -/
structure AppDatabase where
  tables : Tables
  version : Option (List String)
  settingsRow : Bool

inductive BootError where
  | noRevisions
  | operationalError
  deriving DecidableEq

structure Booted where
  db : AppDatabase
  error : Option BootError

def stamped (db : AppDatabase) : Bool :=
  match db.version with
  | some rows => !rows.isEmpty
  | none => false

/-- Stamp a schema without a stamp; none is the `RuntimeError` of a directory
without a single head. -/
def ensureAlembicHead (db : AppDatabase) : Option AppDatabase :=
  if stamped db then some db
  else (currentHead migrations).map fun head => { db with version := some [head] }

/-- `Base.metadata.create_all`. -/
def createAll (db : AppDatabase) : AppDatabase := { db with tables := Ddl.createMissing models db.tables }

/-- The row's query names every column of the model; without one of them it
fails. -/
def getSettingsRow (db : AppDatabase) : Option AppDatabase :=
  match db.tables.lookup .settings, models.lookup .settings with
  | some stored, some wanted => if wanted ⊆ stored then some { db with settingsRow := true } else none
  | _, _ => none

def initDb (db : AppDatabase) : Booted :=
  let created := if (db.tables.lookup .settings).isSome then db else createAll db
  match ensureAlembicHead created with
  | none => ⟨created, some .noRevisions⟩
  | some headed =>
      match getSettingsRow headed with
      | none => ⟨headed, some .operationalError⟩
      | some ready => ⟨ready, none⟩

theorem initDb_tables (db : AppDatabase) :
    (initDb db).db.tables =
      if (db.tables.lookup .settings).isSome then db.tables else Ddl.createMissing models db.tables := by
  have hgot : ∀ headed ready, getSettingsRow headed = some ready → ready.tables = headed.tables := by
    intro headed ready h
    unfold getSettingsRow at h
    split at h
    · split at h
      · cases h
        rfl
      · cases h
    · cases h
  have hheaded : ∀ created headed, ensureAlembicHead created = some headed →
      headed.tables = created.tables := by
    intro created headed h
    unfold ensureAlembicHead at h
    split at h
    · cases h
      rfl
    · obtain ⟨head, -, rfl⟩ := Option.map_eq_some_iff.mp h
      rfl
  have hcreated : (if (db.tables.lookup .settings).isSome then db else createAll db).tables =
      if (db.tables.lookup .settings).isSome then db.tables else Ddl.createMissing models db.tables := by
    split <;> rfl
  unfold initDb
  dsimp only
  split
  · exact hcreated
  · rename_i headed heq
    split
    · rw [hheaded _ _ heq, hcreated]
    · rename_i ready hready
      rw [hgot _ _ hready, hheaded _ _ heq, hcreated]

theorem ensureAlembicHead_unstamped {db : AppDatabase} (h : stamped db = false) :
    ensureAlembicHead db = some { db with version := some ["0004"] } := by
  simp [ensureAlembicHead, h, currentHead_migrations]

/-- The boot leaves a schema without a stamp at the head revision. -/
theorem initDb_version {db : AppDatabase} (h : stamped db = false) :
    (initDb db).db.version = some ["0004"] := by
  have hstamped : stamped (if (db.tables.lookup .settings).isSome then db else createAll db) = false := by
    split
    · exact h
    · exact h
  unfold initDb
  dsimp only
  rw [ensureAlembicHead_unstamped hstamped]
  dsimp only
  split
  · rfl
  · rename_i ready hready
    unfold getSettingsRow at hready
    split at hready
    · split at hready
      · cases hready
        rfl
      · cases hready
    · cases hready

theorem lookup_models {table : TableName} {columns : List Column} (h : (table, columns) ∈ models) :
    models.lookup table = some columns := by
  simp only [models, modelsWith, List.mem_cons, Prod.mk.injEq, List.not_mem_nil, or_false] at h
  rcases h with ⟨rfl, rfl⟩ | ⟨rfl, rfl⟩ | ⟨rfl, rfl⟩ | ⟨rfl, rfl⟩ | ⟨rfl, rfl⟩ <;> rfl

/-- After the boot the schema is complete exactly when it was, or when there was
no settings table and what else was there is complete. -/
theorem contains_initDb (db : AppDatabase) :
    (initDb db).db.tables.Contains models ↔
      db.tables.Contains models ∨ db.tables.lookup .settings = none ∧
        ∀ table columns stored, (table, columns) ∈ models → db.tables.lookup table = some stored →
          ∀ column ∈ columns, column ∈ stored := by
  rw [initDb_tables]
  cases hsettings : db.tables.lookup .settings with
  | some stored => simp
  | none =>
    rw [if_neg (by simp)]
    constructor
    · intro h
      refine .inr ⟨rfl, ?_⟩
      intro table columns stored hwanted hstored
      obtain ⟨stored', hafter, hall⟩ := h table columns hwanted
      rw [Ddl.lookup_createMissing, hstored] at hafter
      cases hafter
      exact hall
    · rintro (h | ⟨-, h⟩) table columns hwanted
      · obtain ⟨stored, hstored, hall⟩ := h table columns hwanted
        exact ⟨stored, by rw [Ddl.lookup_createMissing, hstored]; rfl, hall⟩
      · cases hold : db.tables.lookup table with
        | none =>
          exact ⟨columns, by rw [Ddl.lookup_createMissing, hold, lookup_models hwanted]; rfl,
            fun column hc => hc⟩
        | some stored =>
          exact ⟨stored, by rw [Ddl.lookup_createMissing, hold]; rfl, h table columns stored hwanted hold⟩

/-- The DDL of the migrations up to its `n`-th statement, or a `create_all` of
the models as of the `n`-th revision. -/
inductive Leftover where
  | migrated (n : ℕ)
  | createdAll (n : ℕ)

namespace Leftover

def tables : Leftover → Tables
  | migrated n => (Ddl.execAll ((ddl migrations).take n) []).getD []
  | createdAll n => Ddl.createMissing (modelsAt n) []

/-- No statement has run, or every one; the models were the current ones. -/
def Whole : Leftover → Prop
  | migrated n => n = 0 ∨ (ddl migrations).length ≤ n
  | createdAll n => migrations.length ≤ n

/-- The leftover with or without an empty `alembic_version`. -/
def database (left : Leftover) (versionTable settingsRow : Bool) : AppDatabase where
  tables := left.tables
  version := if versionTable then some [] else none
  settingsRow := settingsRow

theorem tables_migrated (n : ℕ) : Ddl.execAll ((ddl migrations).take n) [] = some (tables (.migrated n)) := by
  obtain ⟨all, hall⟩ : ∃ all, Ddl.execAll (ddl migrations) ([] : Tables) = some all := ⟨_, rfl⟩
  obtain ⟨mid, hmid, -⟩ := Ddl.execAll_take hall n
  rw [tables, hmid]
  rfl

/-- The last statement is the only one that brings `review_run.session_json`. -/
theorem sessionJson_last : ∀ step ∈ (ddl migrations).dropLast, ¬ step.Provides .reviewRun sessionJson := by decide

/-- Without the last statement there is no `review_run.session_json`. -/
theorem not_has_sessionJson {n : ℕ} (h : n < (ddl migrations).length) :
    ¬ Schema.Has (tables (.migrated n)) .reviewRun sessionJson := by
  intro hhas
  rcases Ddl.has_of_execAll (tables_migrated n) hhas with hempty | ⟨step, hstep, hprovides⟩
  · obtain ⟨stored, hstored, -⟩ := hempty
    cases hstored
  · refine sessionJson_last step ?_ hprovides
    rw [List.dropLast_eq_take]
    exact (List.take_subset_take_left _ (by omega)) hstep

theorem hasSettings_migrated {n : ℕ} (h : n ≠ 0) : ((tables (.migrated n)).lookup .settings).isSome = true := by
  obtain ⟨k, rfl⟩ := Nat.exists_eq_succ_of_ne_zero h
  have hrun := tables_migrated (k + 1)
  have hsteps : (ddl migrations).take (k + 1) =
      [.createTable .settings settingsBaseline] ++ (ddl migrations).tail.take k := rfl
  have hfirst : Ddl.execAll ([.createTable .settings settingsBaseline] : List Statement) [] =
      some ([(.settings, settingsBaseline)] : Tables) := rfl
  rw [hsteps, Ddl.execAll_append, hfirst] at hrun
  obtain ⟨stored, hstored, -⟩ := Ddl.lookup_execAll (t := .settings) hrun rfl
  rw [hstored]
  rfl

/-- The migrations end with the tables of the models. -/
theorem contains_migrated {n : ℕ} (h : (ddl migrations).length ≤ n) :
    (tables (.migrated n)).Contains models := by
  rw [tables, List.take_of_length_le h]
  have hall : ∀ entry ∈ models, ∃ stored,
      ((Ddl.execAll (ddl migrations) []).getD []).lookup entry.1 = some stored ∧ entry.2 ⊆ stored := by
    decide
  intro table columns hmem
  exact hall (table, columns) hmem

theorem lookup_createdAll (n : ℕ) (table : TableName) :
    (tables (.createdAll n)).lookup table = (modelsAt n).lookup table := by
  rw [tables, Ddl.lookup_createMissing]
  rfl

/-- Only the current models create every column of the current models. -/
theorem contains_createdAll (n : ℕ) : (tables (.createdAll n)).Contains models ↔ migrations.length ≤ n := by
  constructor
  · intro h
    by_contra hn
    have hlt : ¬ 4 ≤ n := hn
    obtain ⟨stored, hstored, hall⟩ := h .reviewRun _ (List.mem_of_getElem? (i := 4) rfl)
    rw [lookup_createdAll, modelsAt, decide_eq_false hlt] at hstored
    cases hstored
    exact absurd (hall sessionJson (by decide)) (by decide)
  · intro hn table columns hmem
    have h4 : 4 ≤ n := hn
    have hat : modelsAt n = models := by
      rw [modelsAt, decide_eq_true (by omega : 2 ≤ n), decide_eq_true (by omega : 3 ≤ n), decide_eq_true h4]
      rfl
    refine ⟨columns, ?_, fun column hc => hc⟩
    rw [lookup_createdAll, hat, lookup_models hmem]

theorem lookup_settings_createdAll (n : ℕ) : ((tables (.createdAll n)).lookup .settings).isSome = true := by
  rw [lookup_createdAll]
  rfl

theorem unstamped_database (left : Leftover) (versionTable settingsRow : Bool) :
    stamped (left.database versionTable settingsRow) = false := by
  cases versionTable <;> rfl

end Leftover

/-- The stamp put on a leftover tells the truth exactly when nothing had been
created or everything had. -/
theorem stamp_truthful_iff (left : Leftover) (versionTable settingsRow : Bool) :
    (initDb (left.database versionTable settingsRow)).db.version = some ["0004"] ∧
      ((initDb (left.database versionTable settingsRow)).db.tables.Contains models ↔ left.Whole) := by
  refine ⟨initDb_version (left.unstamped_database versionTable settingsRow), ?_⟩
  rw [contains_initDb]
  show left.tables.Contains models ∨ left.tables.lookup .settings = none ∧ _ ↔ _
  cases left with
  | createdAll n =>
    rw [Leftover.contains_createdAll]
    have hsettings := Leftover.lookup_settings_createdAll n
    constructor
    · rintro (h | ⟨hnone, -⟩)
      · exact h
      · rw [hnone] at hsettings
        cases hsettings
    · exact .inl
  | migrated n =>
    constructor
    · rintro (h | ⟨hnone, -⟩)
      · refine .inr ?_
        by_contra hn
        obtain ⟨stored, hstored, hall⟩ := h .reviewRun _ (List.mem_of_getElem? (i := 4) rfl)
        exact Leftover.not_has_sessionJson (by omega) ⟨stored, hstored, hall sessionJson (by decide)⟩
      · refine .inl ?_
        by_contra hn
        have hsettings := Leftover.hasSettings_migrated hn
        rw [hnone] at hsettings
        cases hsettings
    · rintro (rfl | hn)
      · refine .inr ⟨rfl, ?_⟩
        intro table columns stored _ hstored
        cases hstored
      · exact .inl (Leftover.contains_migrated hn)

/-- The tables of revision 0003, created by an older boot, are stamped 0004
without `review_run.session_json`. -/
theorem stamp_lies :
    (initDb ((Leftover.createdAll 3).database false true)).db.version = some ["0004"] ∧
      ¬ (initDb ((Leftover.createdAll 3).database false true)).db.tables.Contains models := by
  refine ⟨rfl, ?_⟩
  intro h
  obtain ⟨stored, hstored, hall⟩ := h .reviewRun _ (List.mem_of_getElem? (i := 4) rfl)
  cases hstored
  exact absurd (hall sessionJson (by decide)) (by decide)

end GitlabReviewer.Database
