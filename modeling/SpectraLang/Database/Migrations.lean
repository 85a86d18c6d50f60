import Mathlib.Algebra.Group.Nat.Defs
import Mathlib.Data.List.Nodup

/-! # SQLite migrations

`SqliteMigrator` of `spectra-db` over what `discover` returns. A database is its schema and the
tracking table. A script runs in one transaction with the change of its tracking row, so a failing
script leaves nothing behind; which scripts fail is left open in every call.
-/

namespace SpectraLang.Database

open List

structure Migration where
  version : BitVec 64
  name : String
  upSql : String
  downSql : String
  checksum : String
  deriving DecidableEq

/-- A row of the tracking table. The signed SQL integer has the bits of the version. -/
structure AppliedMigration where
  version : BitVec 64
  name : String
  checksum : String
  deriving DecidableEq

structure MigrationDrift where
  version : BitVec 64
  reason : String
  deriving DecidableEq

structure MigrationStatus where
  applied : List AppliedMigration
  pending : List Migration
  drift : List MigrationDrift

structure MigrationResultEntry where
  version : BitVec 64
  name : String
  action : String

structure MigrationError where
  code : String
  message : String

/-- The rows in the order of their insertion. A table that does not exist yet has none. -/
structure TrackedDatabase (S : Type*) where
  schema : S
  tracking : List AppliedMigration

/-- A migrator over the result of `discover`, which sorts the migrations by their positive
versions. -/
structure SqliteMigrator (S : Type*) where
  /-- What a script that succeeds does to the schema. -/
  execute : String → S → S
  migrations : List Migration
  positive : ∀ migration ∈ migrations, 0 < migration.version.toNat
  increasing : migrations.Pairwise (·.version.toNat < ·.version.toNat)

/-- The errors of the scripts that fail in a call. -/
abbrev Failures := Migration → Option MigrationError

/-- What a call returns and leaves. -/
abbrev CallResult (S : Type*) := Except MigrationError (List MigrationResultEntry) ×
    TrackedDatabase S

def Migration.record (migration : Migration) : AppliedMigration :=
  ⟨migration.version, migration.name, migration.checksum⟩

variable {S : Type*}

namespace TrackedDatabase

/-- `read_applied`. -/
def readApplied (db : TrackedDatabase S) : Except MigrationError (List AppliedMigration) :=
  if ∀ row ∈ db.tracking, 0 < row.version.toInt then
    .ok (db.tracking.mergeSort (·.version.toInt ≤ ·.version.toInt))
  else .error ⟨"DB2503_TRACKING_CORRUPT", "invalid migration version in tracking table"⟩

/-- The tracking table behind `INSERT`; a version that is there already violates the primary key. -/
def insertRow (row : AppliedMigration) (rows : List AppliedMigration) :
    Option (List AppliedMigration) :=
  if ∃ other ∈ rows, other.version = row.version then none else some (rows ++ [row])

end TrackedDatabase

/-- `format_drift`. -/
def formatDrift (drift : List MigrationDrift) : String :=
  "; ".intercalate (drift.map fun entry => toString entry.version.toNat ++ ": " ++ entry.reason)

/-- What the first loop of `status` reports for a record and its index. -/
def outOfOrder (migrations : List Migration) (record : AppliedMigration) (index : Nat) :
    Option MigrationDrift :=
  if migrations[index]?.map Migration.version ≠ some record.version then
    some ⟨record.version, "migration was applied out of order"⟩
  else none

/-- What the second loop of `status` reports for a record. -/
def mismatch (migrations : List Migration) (record : AppliedMigration) : Option MigrationDrift :=
  match migrations.find? (·.version = record.version) with
  | none => some ⟨record.version, "applied migration file is missing"⟩
  | some migration =>
    if migration.name ≠ record.name then some
      ⟨record.version, "migration name differs from tracking table"⟩
    else if migration.checksum ≠ record.checksum then
      some ⟨record.version, "migration checksum differs from tracking table"⟩
    else none

namespace SqliteMigrator

variable (migrator : SqliteMigrator S)

def status (db : TrackedDatabase S) : Except MigrationError MigrationStatus :=
  db.readApplied.map fun applied =>
    { applied
      pending := migrator.migrations.filter fun migration => ∀ record ∈ applied,
        record.version ≠ migration.version
      drift :=
        applied.zipIdx.filterMap (fun entry => outOfOrder migrator.migrations entry.1 entry.2) ++
        applied.filterMap (mismatch migrator.migrations) }

/-- The loop of `migrate`: every pending script in a transaction with its row, up to the first that
fails. -/
def applyPending (fails : Failures) :
    List Migration → List MigrationResultEntry → TrackedDatabase S → CallResult S
  | [], result, db => (.ok result, db)
  | migration :: rest, result, db =>
    match fails migration, TrackedDatabase.insertRow migration.record db.tracking with
    | some error, _ => (.error error, db)
    | none, none =>
      (.error ⟨"DB2503_SQLITE", "UNIQUE constraint failed: _spectra_migrations.version"⟩, db)
    | none, some rows =>
      applyPending fails rest (result ++ [⟨migration.version, migration.name, "applied"⟩])
        ⟨migrator.execute migration.upSql db.schema, rows⟩

def migrate (fails : Failures) (db : TrackedDatabase S) : CallResult S :=
  match migrator.status db with
  | .error error => (.error error, db)
  | .ok status =>
    if status.drift ≠ [] then (.error ⟨"DB2503_CHECKSUM_MISMATCH", formatDrift status.drift⟩, db)
    else migrator.applyPending fails status.pending [] db

/-- The loop of `rollback` over the selected records. -/
def revertSelected (fails : Failures) :
    List AppliedMigration → List MigrationResultEntry → TrackedDatabase S → CallResult S
  | [], result, db => (.ok result, db)
  | record :: rest, result, db =>
    match migrator.migrations.find? (·.version = record.version) with
    | none =>
      (.error ⟨"DB2503_MISSING_FILE", "migration " ++ toString record.version.toNat ++
        " is missing"⟩, db)
    | some migration =>
      match fails migration with
      | some error => (.error error, db)
      | none => revertSelected fails rest (result ++ [⟨record.version, record.name, "rolled_back"⟩])
          ⟨migrator.execute migration.downSql db.schema,
            db.tracking.filter (·.version ≠ record.version)⟩

def rollback (steps : Nat) (fails : Failures) (db : TrackedDatabase S) : CallResult S :=
  if steps = 0 then (.ok [], db)
  else
    match migrator.status db with
    | .error error => (.error error, db)
    | .ok status =>
      if status.drift ≠ [] then (.error ⟨"DB2503_CHECKSUM_MISMATCH", formatDrift status.drift⟩, db)
      else if steps > status.applied.length then
        (.error ⟨"DB2503_ROLLBACK_RANGE", "rollback exceeds applied migrations"⟩, db)
      else
        let applied := status.applied.mergeSort (·.version.toNat ≤ ·.version.toNat)
        migrator.revertSelected fails (applied.reverse.take steps) [] db

/-- The databases that calls lead to from one without tracked migrations. -/
inductive Reached (start : S) : TrackedDatabase S → Prop where
  | start : Reached start ⟨start, []⟩
  | migrate {db : TrackedDatabase S} (fails : Failures) (reached : Reached start db) :
      Reached start (migrator.migrate fails db).2
  | rollback {db : TrackedDatabase S} (steps : Nat) (fails : Failures)
      (reached : Reached start db) : Reached start (migrator.rollback steps fails db).2

/-- The schema behind the first up scripts. -/
def stage (start : S) (k : Nat) : S :=
  (migrator.migrations.take k).foldl
    (fun schema migration => migrator.execute migration.upSql schema) start

/-- The rows of the first migrations. -/
def recorded (k : Nat) : List AppliedMigration := (migrator.migrations.take k).map Migration.record

/-- The first migrations are recorded, and the schema is that of their up scripts. -/
def Records (start : S) (k : Nat) (db : TrackedDatabase S) : Prop :=
  db.schema = migrator.stage start k ∧ db.tracking = migrator.recorded k

/-- In every run the first migrations are recorded, `status` finds the others pending, `migrate` and
`rollback` that succeed move to the end and back by the number of steps. -/
def Converges (start : S) : Prop :=
  ∀ db, migrator.Reached start db → ∃ k ≤ migrator.migrations.length, migrator.Records start k db ∧
    migrator.status db = .ok ⟨migrator.recorded k, migrator.migrations.drop k, []⟩ ∧
    (∀ fails entries after, migrator.migrate fails db = (.ok entries, after) →
      migrator.Records start migrator.migrations.length after) ∧
    ∀ steps fails entries after, migrator.rollback steps fails db = (.ok entries, after) →
      ∃ less, less + steps = k ∧ migrator.Records start less after

/-- Every version is a positive signed integer. -/
def Representable : Prop := ∀ migration ∈ migrator.migrations, migration.version.toNat < 2 ^ 63

/-- A down script undoes its up script on the schema that the earlier ones leave. -/
def Reverts (start : S) : Prop :=
  ∀ k migration, migrator.migrations[k]? = some migration →
    migrator.execute migration.downSql (migrator.stage start (k + 1)) = migrator.stage start k

variable {migrator : SqliteMigrator S} {start : S} {k : Nat} {fails : Failures}

theorem toInt_pos_iff {version : BitVec 64} (positive : 0 < version.toNat) :
    0 < version.toInt ↔ version.toNat < 2 ^ 63 := by
  rw [BitVec.toInt_eq_toNat_cond]
  split <;> omega

/-- A migration that is still to come has another version than those applied. -/
theorem version_ne {earlier later : Migration} (applied : earlier ∈ migrator.migrations.take k)
    (waits : later ∈ migrator.migrations.drop k) : earlier.version ≠ later.version := by
  have increasing := migrator.increasing
  rw [← take_append_drop k migrator.migrations, pairwise_append] at increasing
  intro same
  have less := increasing.2.2 earlier applied later waits
  rw [same] at less
  exact Nat.lt_irrefl _ less

theorem find_version {migration : Migration} (member : migration ∈ migrator.migrations) :
    migrator.migrations.find? (·.version = migration.record.version) = some migration := by
  have distinct : (migrator.migrations.map (·.version)).Nodup := by
    refine pairwise_map.mpr (migrator.increasing.imp fun {earlier later} less same => ?_)
    exact Nat.ne_of_lt less (congrArg _ same)
  cases found : migrator.migrations.find? (·.version = migration.record.version) with
  | none => simpa [Migration.record] using find?_eq_none.mp found migration member
  | some other =>
    have same : other.version = migration.record.version := by simpa using find?_some found
    rw [inj_on_of_nodup_map distinct (mem_of_find?_eq_some found) member same]

/-- The database with the first migrations applied. -/
def reached (migrator : SqliteMigrator S) (start : S) (k : Nat) : TrackedDatabase S :=
  ⟨migrator.stage start k, migrator.recorded k⟩

/-- A call that leaves the first migrations applied, with the property of their number if it
succeeds. -/
def Ends (migrator : SqliteMigrator S) (start : S) (success : Nat → Prop) (call : CallResult S) :
    Prop :=
  ∃ k ≤ migrator.migrations.length, call.2 = migrator.reached start k ∧
    ∀ entries, call.1 = .ok entries → success k

section
variable (inside : k < migrator.migrations.length)
include inside

theorem recorded_succ : migrator.recorded (k + 1) = migrator.recorded k ++
    [migrator.migrations[k].record] := by
  rw [recorded, take_add_one, getElem?_eq_getElem inside, map_append]
  rfl

theorem recorded_version_ne : ∀ row ∈ migrator.recorded k,
    row.version ≠ migrator.migrations[k].record.version :=
  forall_mem_map.mpr fun _ applied =>
    version_ne applied (drop_eq_getElem_cons inside ▸ mem_cons_self)

theorem stage_succ :
    migrator.stage start (k + 1) = migrator.execute migrator.migrations[k].upSql
      (migrator.stage start k) := by
  rw [stage, take_add_one, getElem?_eq_getElem inside, foldl_append]
  rfl

theorem applyPending_succ (succeeds : fails migrator.migrations[k] = none)
    (result : List MigrationResultEntry) :
    migrator.applyPending fails (migrator.migrations.drop k) result (migrator.reached start k) =
      migrator.applyPending fails (migrator.migrations.drop (k + 1))
        (result ++ [⟨migrator.migrations[k].version, migrator.migrations[k].name, "applied"⟩])
        (migrator.reached start (k + 1)) := by
  have fresh : ¬∃ row ∈ migrator.recorded k, row.version = migrator.migrations[k].record.version :=
    fun ⟨row, listed, same⟩ => recorded_version_ne inside row listed same
  rw [drop_eq_getElem_cons inside, applyPending, succeeds, reached, TrackedDatabase.insertRow,
    if_neg fresh, reached, stage_succ inside, recorded_succ inside]

theorem revertSelected_succ (steps : Nat) (result : List MigrationResultEntry) :
    migrator.revertSelected fails ((migrator.recorded (k + 1)).reverse.take (steps + 1)) result
        (migrator.reached start (k + 1)) =
      match fails migrator.migrations[k] with
      | some error => (.error error, migrator.reached start (k + 1))
      | none => migrator.revertSelected fails ((migrator.recorded k).reverse.take steps)
        (result ++ [⟨migrator.migrations[k].version, migrator.migrations[k].name, "rolled_back"⟩])
        ⟨migrator.execute migrator.migrations[k].downSql (migrator.stage start (k + 1)),
          migrator.recorded k⟩ := by
  have kept :
    (migrator.recorded (k + 1)).filter (·.version ≠ migrator.migrations[k].record.version) =
      migrator.recorded k := by
    rw [recorded_succ inside, filter_append, filter_eq_self.mpr]
    · simp
    · exact fun row listed => decide_eq_true (recorded_version_ne inside row listed)
  have first : (migrator.recorded (k + 1)).reverse.take (steps + 1) =
      migrator.migrations[k].record :: (migrator.recorded k).reverse.take steps := by
    rw [recorded_succ inside, reverse_concat, take_succ_cons]
  rw [first, revertSelected, find_version (getElem_mem inside)]
  simp only [reached, kept]
  rfl

end

/-- Pending scripts run in order up to the first that fails. -/
theorem applyPending_ends (start : S) (fails : Failures) (result : List MigrationResultEntry)
    (bound : k ≤ migrator.migrations.length) :
    migrator.Ends start (· = migrator.migrations.length)
      (migrator.applyPending fails (migrator.migrations.drop k) result
        (migrator.reached start k)) := by
  induction remaining : migrator.migrations.length - k generalizing k result with
  | zero =>
    rw [drop_of_length_le (by omega)]
    exact ⟨k, bound, rfl, fun _ _ => by omega⟩
  | succ remaining ih =>
    have inside : k < migrator.migrations.length := by omega
    cases ends : fails migrator.migrations[k] with
    | some error =>
      rw [drop_eq_getElem_cons inside, applyPending, ends]
      exact ⟨k, bound, rfl, nofun⟩
    | none =>
      rw [applyPending_succ inside ends]
      exact ih _ (by omega) (by omega)

theorem applyPending_advances (start : S) (fails : Failures) {n : Nat}
    (few : n ≤ migrator.migrations.length)
    (succeed : ∀ i (inside : i < migrator.migrations.length), i < n →
      fails migrator.migrations[i] = none) :
    ∃ result, migrator.applyPending fails migrator.migrations [] (migrator.reached start 0) =
      migrator.applyPending fails (migrator.migrations.drop n) result
        (migrator.reached start n) := by
  induction n with
  | zero => exact ⟨[], rfl⟩
  | succ n ih =>
    obtain ⟨result, same⟩ := ih (by omega) fun i inside less => succeed i inside (by omega)
    exact ⟨_, same.trans (applyPending_succ few (succeed n few (by omega)) result)⟩

/-- The selected scripts run from the last one on, up to the first that fails. -/
theorem revertSelected_ends (reverts : migrator.Reverts start) (fails : Failures) {steps : Nat}
    (result : List MigrationResultEntry) (bound : k ≤ migrator.migrations.length)
      (few : steps ≤ k) :
    migrator.Ends start (· + steps = k)
      (migrator.revertSelected fails ((migrator.recorded k).reverse.take steps) result
        (migrator.reached start k)) := by
  induction steps generalizing k result with
  | zero => exact ⟨k, bound, rfl, fun _ _ => rfl⟩
  | succ steps ih =>
    obtain ⟨k, rfl⟩ : ∃ less, k = less + 1 := ⟨k - 1, by omega⟩
    rw [revertSelected_succ bound]
    cases ends : fails migrator.migrations[k] with
    | some error => exact ⟨k + 1, bound, rfl, nofun⟩
    | none =>
      dsimp only
      rw [reverts k _ (getElem?_eq_getElem bound)]
      obtain ⟨j, within, left, lowered⟩ := ih (k := k) _ (by omega) (by omega)
      exact ⟨j, within, left, fun entries isOk => by have := lowered entries isOk; omega⟩

theorem migrate_start (fails : Failures) :
    migrator.migrate fails ⟨start, []⟩ = migrator.applyPending fails migrator.migrations []
      (migrator.reached start 0) := by
  have fresh : migrator.status (⟨start, []⟩ : TrackedDatabase S) = .ok
    ⟨[], migrator.migrations, []⟩ := by
    simp [status, TrackedDatabase.readApplied, Except.map]
  rw [migrate, fresh]
  rfl

section Representable
variable (representable : migrator.Representable)

include representable

theorem readApplied_reached (k : Nat) : (migrator.reached start k).readApplied = .ok
    (migrator.recorded k) := by
  have signed {migration : Migration} (applied : migration ∈ migrator.migrations.take k) :
      0 < migration.version.toInt ∧ migration.version.toInt = migration.version.toNat := by
    have member := mem_of_mem_take applied
    have small := representable migration member
    refine ⟨(toInt_pos_iff (migrator.positive migration member)).mpr small, ?_⟩
    rw [BitVec.toInt_eq_toNat_cond, if_pos (by omega)]
  have positive : ∀ row ∈ migrator.recorded k, 0 < row.version.toInt :=
    forall_mem_map.mpr fun migration applied => (signed applied).1
  have sorted : (migrator.recorded k).Pairwise fun first second =>
    decide (first.version.toInt ≤ second.version.toInt) := by
    refine pairwise_map.mpr
      (migrator.increasing.take.imp_of_mem fun {first second} isFirst isSecond less => ?_)
    simp only [Migration.record, (signed isFirst).2, (signed isSecond).2, decide_eq_true_eq]
    omega
  simp only [TrackedDatabase.readApplied, reached, if_pos positive, mergeSort_of_pairwise sorted]

/-- With the first migrations applied, `status` finds no drift and the others pending. -/
theorem status_reached (k : Nat) : migrator.status (migrator.reached start k) =
    .ok ⟨migrator.recorded k, migrator.migrations.drop k, []⟩ := by
  have pending : migrator.migrations.filter (fun migration =>
      ∀ record ∈ migrator.recorded k, record.version ≠ migration.version) = migrator.migrations.drop
        k := by
    conv_lhs => rw [← take_append_drop k migrator.migrations]
    rw [filter_append, filter_eq_nil_iff.mpr, filter_eq_self.mpr, nil_append]
    · exact fun migration waits => decide_eq_true
        (forall_mem_map.mpr fun _ applied => version_ne applied waits)
    · exact fun migration applied distinct => of_decide_eq_true distinct _ (mem_map_of_mem applied)
        rfl
  have ordered : ∀ entry ∈ (migrator.recorded k).zipIdx, outOfOrder migrator.migrations entry.1
    entry.2 = none := by
    rintro ⟨record, index⟩ listed
    have found := mem_zipIdx_iff_getElem?.mp listed
    rw [recorded, getElem?_map, getElem?_take] at found
    split at found
    · obtain ⟨migration, isMigration, rfl⟩ := Option.map_eq_some_iff.mp found
      simp only [outOfOrder, isMigration]
      exact if_neg fun different => different rfl
    · cases found
  have same : ∀ record ∈ migrator.recorded k, mismatch migrator.migrations record = none := by
    refine forall_mem_map.mpr fun migration applied => ?_
    rw [mismatch, find_version (mem_of_mem_take applied)]
    simp [Migration.record]
  rw [status, readApplied_reached representable, Except.map, pending,
    filterMap_eq_nil_iff.mpr ordered, filterMap_eq_nil_iff.mpr same]
  rfl

theorem rollback_reached (start : S) (fails : Failures) {steps : Nat} (positive : steps ≠ 0)
    (bound : k ≤ migrator.migrations.length) :
      migrator.rollback steps fails (migrator.reached start k) =
      if steps > k then (.error ⟨"DB2503_ROLLBACK_RANGE", "rollback exceeds applied migrations"⟩,
        migrator.reached start k)
      else migrator.revertSelected fails ((migrator.recorded k).reverse.take steps) []
        (migrator.reached start k) := by
  have sorted : (migrator.recorded k).Pairwise fun first second =>
    decide (first.version.toNat ≤ second.version.toNat) :=
    pairwise_map.mpr (migrator.increasing.take.imp fun less => decide_eq_true (Nat.le_of_lt less))
  have count : (migrator.recorded k).length = k := by
    rw [recorded, length_map, length_take, Nat.min_eq_left bound]
  rw [rollback, if_neg positive, status_reached representable]
  simp only [ne_eq, not_true_eq_false, if_false, count, mergeSort_of_pairwise sorted]

theorem migrate_ends (fails : Failures) (bound : k ≤ migrator.migrations.length) :
    migrator.Ends start (· = migrator.migrations.length)
      (migrator.migrate fails (migrator.reached start k)) := by
  rw [migrate, status_reached representable]
  exact applyPending_ends start fails [] bound

theorem rollback_ends (reverts : migrator.Reverts start) (steps : Nat) (fails : Failures)
    (bound : k ≤ migrator.migrations.length) :
    migrator.Ends start (· + steps = k)
      (migrator.rollback steps fails (migrator.reached start k)) := by
  by_cases positive : steps = 0
  · subst positive
    exact ⟨k, bound, rfl, fun _ _ => rfl⟩
  rw [rollback_reached representable start fails positive bound]
  split
  · exact ⟨k, bound, rfl, nofun⟩
  · exact revertSelected_ends reverts fails [] bound (by omega)

theorem converges_of_reverts (reverts : migrator.Reverts start) : migrator.Converges start := by
  intro db run
  obtain ⟨k, bound, rfl⟩ : ∃ k ≤ migrator.migrations.length, db = migrator.reached start k := by
    induction run with
    | start => exact ⟨0, Nat.zero_le _, rfl⟩
    | migrate fails _ standing =>
      obtain ⟨k, bound, rfl⟩ := standing
      obtain ⟨j, within, left, -⟩ := migrate_ends representable fails bound
      exact ⟨j, within, left⟩
    | rollback steps fails _ standing =>
      obtain ⟨k, bound, rfl⟩ := standing
      obtain ⟨j, within, left, -⟩ := rollback_ends representable reverts steps fails bound
      exact ⟨j, within, left⟩
  refine ⟨k, bound, ⟨rfl, rfl⟩, status_reached representable k, ?_, ?_⟩
  · intro fails entries after moved
    obtain ⟨j, within, left, complete⟩ := migrate_ends representable fails bound
    rw [moved] at left complete
    rw [← complete entries rfl, show after = _ from left]
    exact ⟨rfl, rfl⟩
  · intro steps fails entries after moved
    obtain ⟨j, within, left, lowered⟩ := rollback_ends representable reverts steps fails bound
    rw [moved] at left lowered
    rw [show after = _ from left]
    exact ⟨j, lowered entries rfl, rfl, rfl⟩

theorem reverts_of_converges (converges : migrator.Converges start) : migrator.Reverts start := by
  intro k migration found
  obtain ⟨inside, rfl⟩ := List.getElem?_eq_some_iff.mp found
  -- The scripts behind this one fail, and then one step is rolled back.
  let fails (other : Migration) : Option MigrationError :=
    if other.version.toNat ≤ migrator.migrations[k].version.toNat then none else some ⟨"", ""⟩
  have increasing := pairwise_iff_getElem.mp migrator.increasing
  have stops : (migrator.migrate fails ⟨start, []⟩).2 = migrator.reached start (k + 1) := by
    obtain ⟨result, moved⟩ :=
      applyPending_advances start fails inside fun i within before => if_pos (by
      rcases Nat.lt_succ_iff_lt_or_eq.mp before with less | rfl
      · exact Nat.le_of_lt (increasing i k within inside less)
      · exact Nat.le_refl _)
    rw [migrate_start, moved]
    by_cases last : k + 1 < migrator.migrations.length
    · have later := increasing k (k + 1) inside last (Nat.lt_succ_self k)
      have failing : fails migrator.migrations[k + 1] = some ⟨"", ""⟩ := if_neg (by omega)
      rw [drop_eq_getElem_cons last, applyPending, failing]
    · rw [drop_of_length_le (by omega)]
      rfl
  obtain ⟨j, bound, ⟨-, rows⟩, -, -, lowers⟩ := converges _ (.migrate fails .start)
  rw [stops] at rows lowers
  have count := congrArg List.length rows
  simp only [reached, recorded, length_map, length_take] at count
  have rolled := rollback_reached representable start (fun _ => none) Nat.one_ne_zero inside
  rw [if_neg (by omega), revertSelected_succ inside] at rolled
  obtain ⟨less, sum, schema, -⟩ := lowers 1 _ _ _ rolled
  obtain rfl : less = k := by omega
  exact schema

end Representable

theorem representable_of_converges (converges : migrator.Converges start) :
    migrator.Representable := by
  obtain ⟨result, moved⟩ :=
    applyPending_advances start (fun _ => none) (Nat.le_refl migrator.migrations.length)
    fun _ _ _ => rfl
  obtain ⟨k, -, -, known, -⟩ := converges _ (.migrate (fun _ => none) .start)
  rw [migrate_start, moved, drop_length] at known
  intro migration member
  apply (toInt_pos_iff (migrator.positive migration member)).mp
  by_contra negative
  have corrupt : ¬∀ row ∈ migrator.recorded migrator.migrations.length, 0 < row.version.toInt := by
    intro positive
    rw [recorded, take_length] at positive
    exact negative (positive _ (mem_map_of_mem member))
  simp [status, applyPending, TrackedDatabase.readApplied, reached, corrupt, Except.map] at known

/-- Runs keep to the list exactly if every version is a positive signed integer and every down
script undoes its up script. -/
theorem converges_iff (migrator : SqliteMigrator S) (start : S) :
    migrator.Converges start ↔ migrator.Representable ∧ migrator.Reverts start := by
  refine ⟨fun converges => ?_, fun ⟨representable, reverts⟩ => converges_of_reverts representable
    reverts⟩
  have representable := representable_of_converges converges
  exact ⟨representable, reverts_of_converges representable converges⟩

/-- One migration without effects, with the smallest version that is no positive signed integer. -/
def large : SqliteMigrator Unit where
  execute _ schema := schema
  migrations := [⟨0x8000000000000000#64, "init", "", "", ""⟩]
  positive := by simp
  increasing := by simp

/-- `migrate` succeeds and writes a negative integer, so that `status` fails behind it. -/
theorem not_converges_large :
    (large.migrate (fun _ => none) ⟨(), []⟩).1 = .ok [⟨0x8000000000000000#64, "init", "applied"⟩] ∧
    large.status (large.migrate (fun _ => none) ⟨(), []⟩).2 =
      .error ⟨"DB2503_TRACKING_CORRUPT", "invalid migration version in tracking table"⟩ ∧
    ¬large.Converges () := by
  rw [migrate_start]
  refine ⟨rfl, rfl, fun converges => ?_⟩
  have small := representable_of_converges converges _ (mem_singleton_self _)
  exact absurd small (by decide)

end SqliteMigrator

end SpectraLang.Database
