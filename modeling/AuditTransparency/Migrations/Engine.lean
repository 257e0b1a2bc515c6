/-
  The migration runner (`packages/db-migrations/src/engine.ts`), on a database with its table of applied
  migrations (`adapters/base.ts`) and the transactions and locks of the adapter (`adapters/sqlite.ts`).

  What the SQL and the functions of a migration do to the data is a parameter (`Env`).  The SQLite adapter
  ignores the order that `getAppliedMigrations` asks for, and keeps records under the default table name only
  (`Dialect.Keeps`).
-/
import AuditTransparency.Soroban.Lookup
import Mathlib.Data.List.Lex
import Mathlib.Data.List.Sort
import Mathlib.Data.List.Nodup
import Mathlib.Data.Nat.Notation

namespace Migrations

/-! ## Definitions and records -/

/-- An order on texts: that of a locale, or the one by which a database sorts. -/
structure Collation where
  le : String → String → Bool
  trans : ∀ a b c, le a b → le b c → le a c
  total : ∀ a b, le a b || le b a

/-- The order of the code points. -/
def Collation.binary : Collation where
  le a b := decide (a ≤ b)
  trans a b c hab hbc := decide_eq_true (String.le_trans (of_decide_eq_true hab) (of_decide_eq_true hbc))
  total a b := by
    rw [Bool.or_eq_true, decide_eq_true_eq, decide_eq_true_eq]
    exact String.le_total a b

structure MigrationDefinition where
  id : String
  version : String
  name : String
  sqlUp : Option String := none
  sqlDown : Option String := none
  checksum : Option String := none
  nonTransactional : Bool := false
  deriving DecidableEq

structure MigrationRecord where
  id : String
  version : String
  name : String
  checksum : String
  batch : ℕ
  deriving DecidableEq

/-- A text that is there and not empty. -/
def given (t : Option String) : Option String := t.filter (· ≠ "")

/-- A text as JavaScript compares it. -/
def codeUnits (s : String) : List ℕ :=
  s.toList.flatMap fun c =>
    if c.toNat < 0x10000 then [c.toNat]
    else [0xD800 + (c.toNat - 0x10000) / 0x400, 0xDC00 + (c.toNat - 0x10000) % 0x400]

def padStart (n : ℕ) (s : String) : String :=
  String.ofList (List.replicate (n - (codeUnits s).length) '0') ++ s

/-! ## The database -/

inductive Dialect where
  | postgres
  | sqlite
  | mysql
  deriving DecidableEq

/-- The table of a runner that is given no name for it. -/
def defaultTableName : String := "_contract_event_migrations"

/-- The records of a table are kept; a table name is an identifier. -/
def Dialect.Keeps (dialect : Dialect) (tableName : String) : Prop :=
  dialect = .sqlite → tableName = defaultTableName

instance (dialect : Dialect) (tableName : String) : Decidable (dialect.Keeps tableName) :=
  inferInstanceAs (Decidable (dialect = .sqlite → tableName = defaultTableName))

/-- What a part of a migration does to the data: the data after it, and the error that it throws. -/
def Action (D : Type) : Type := D → D × Option String

/-- The database of a runner, and what migrations do to it. -/
structure Env (D : Type) where
  dialect : Dialect
  collation : Collation
  sqlUp : MigrationDefinition → Action D
  sqlDown : MigrationDefinition → Action D
  up : MigrationDefinition → Action D
  down : MigrationDefinition → Action D
  recordError : MigrationRecord → Option String := fun _ => none
  removeError : String → Option String := fun _ => none

/-- `table` is the rows that the table query finds; `savepoint` is what a rollback restores, and is there
    while a transaction is open. -/
structure Db (D : Type) where
  data : D
  table : List MigrationRecord := []
  savepoint : Option (D × List MigrationRecord) := none
  locks : List String := []

namespace Db
variable {D : Type} (db : Db D)

/-- `beginTransaction` -/
def beginTransaction : Except String (Db D) :=
  if db.savepoint.isSome then .error "Transaction already active"
  else .ok { db with savepoint := some (db.data, db.table) }

/-- `commitTransaction` -/
def commitTransaction : Except String (Db D) :=
  if db.savepoint.isSome then .ok { db with savepoint := none } else .error "No active transaction"

/-- `rollbackTransaction` -/
def rollbackTransaction : Except String (Db D) :=
  match db.savepoint with
  | some (data, table) => .ok { db with data, table, savepoint := none }
  | none => .error "No active transaction"

/-- `acquireLock` -/
def acquireLock (key : String) : Option (Db D) :=
  if key ∈ db.locks then none else some { db with locks := key :: db.locks }

/-- `releaseLock` -/
def releaseLock (key : String) : Db D := { db with locks := db.locks.filter (· ≠ key) }

/-- `getAppliedMigrations` -/
def getAppliedMigrations (dialect : Dialect) (collation : Collation) : List MigrationRecord :=
  match dialect with
  | .sqlite => db.table
  | _ => db.table.mergeSort fun a b => a.batch < b.batch || a.batch == b.batch && collation.le a.id b.id

/-- The row that stands for a record when there is one with its id. -/
def replaced (dialect : Dialect) (record row : MigrationRecord) : MigrationRecord :=
  match dialect with
  | .sqlite => record
  | _ => { row with checksum := record.checksum, batch := record.batch }

/-- `recordMigration` -/
def recordMigration (dialect : Dialect) (tableName : String) (record : MigrationRecord) : Db D :=
  -- the SQLite adapter inserts no rows into other tables
  if ¬dialect.Keeps tableName then db
  else if db.table.any fun row => row.id == record.id then
    { db with table := db.table.map fun row => if row.id = record.id then replaced dialect record row else row }
  else { db with table := db.table ++ [record] }

/-- `removeMigration` -/
def removeMigration (dialect : Dialect) (tableName : String) (id : String) : Db D :=
  -- and so finds none there
  if ¬dialect.Keeps tableName then db else { db with table := db.table.filter fun row => row.id ≠ id }

end Db

/-! ## The runner -/

@[ext]
structure MigrationRunner where
  migrations : List MigrationDefinition := []
  nodup : (migrations.map MigrationDefinition.id).Nodup := by exact List.nodup_nil
  tableName : String := defaultTableName
  dryRun : Bool := false
  allowChecksumMismatch : Bool := false

structure UpOptions where
  steps : Option ℤ := none
  targetVersion : Option String := none
  dryRun : Option Bool := none

structure DownOptions where
  steps : Option ℤ := none
  targetVersion : Option String := none
  dryRun : Option Bool := none

/-- The checksum of a migration, calculated when it has none. -/
def checksumOf (calculateChecksum : String → String) (m : MigrationDefinition) : String :=
  match given m.checksum, given m.sqlUp with
  | some checksum, _ => checksum
  | none, some sqlUp => calculateChecksum sqlUp
  | none, none => calculateChecksum (m.id ++ ":" ++ m.name ++ ":" ++ m.version)

/-- The migrations with one more, or with a new definition of one of them. -/
def placed (ms : List MigrationDefinition) (m : MigrationDefinition) : List MigrationDefinition :=
  match ms.findIdx? fun x => x.id == m.id with
  | some i => ms.set i m
  | none => ms ++ [m]

theorem placed_nodup {ms : List MigrationDefinition} (h : (ms.map MigrationDefinition.id).Nodup)
    (m : MigrationDefinition) : ((placed ms m).map MigrationDefinition.id).Nodup := by
  rw [placed]
  split
  · rename_i i hi
    obtain ⟨hlt, hid, -⟩ := List.findIdx?_eq_some_iff_getElem.1 hi
    have hsame : (ms.map MigrationDefinition.id)[i]? = some m.id := by
      rw [List.getElem?_map, List.getElem?_eq_getElem hlt]
      simpa using hid
    rw [List.map_set, Soroban.set_of_getElem? hsame]
    exact h
  · rename_i hi
    rw [List.map_append, List.map_singleton, ← List.concat_eq_append, List.nodup_concat]
    refine ⟨fun hmem => ?_, h⟩
    obtain ⟨x, hx, hid⟩ := List.mem_map.1 hmem
    exact absurd (List.findIdx?_eq_none_iff.1 hi x hx) (by simp [hid])

namespace MigrationRunner
variable (R : MigrationRunner)

/-- `registerMigration`; `calculateChecksum` is the SHA-256 of a content. -/
def registerMigration (locale : Collation) (calculateChecksum : String → String) (m : MigrationDefinition) :
    MigrationRunner :=
  let m := { m with checksum := some (checksumOf calculateChecksum m) }
  let le (a b : MigrationDefinition) := locale.le (padStart 10 a.version) (padStart 10 b.version)
  { R with
    migrations := (placed R.migrations m).mergeSort le
    nodup := ((List.mergeSort_perm _ le).map _).nodup_iff.2 (placed_nodup R.nodup m) }

def registerMigrations (locale : Collation) (calculateChecksum : String → String)
    (ms : List MigrationDefinition) :
    MigrationRunner :=
  ms.foldl (fun R m => R.registerMigration locale calculateChecksum m) R

def lockKey : String := R.tableName ++ "_lock"

/-- The error about a migration that was changed after it was applied. -/
def mismatch? (applied : List MigrationRecord) (m : MigrationDefinition) : Option String :=
  match applied.find? (fun r => r.id == m.id), given m.checksum with
  | some r, some checksum =>
    if r.checksum ≠ "" ∧ r.checksum ≠ checksum then
      some ("Checksum mismatch for applied migration '" ++ m.id ++ "'. Expected " ++ r.checksum ++
        ", found " ++
        checksum ++ ". Migration file may have been modified after execution.")
    else none
  | _, _ => none

def verifyChecksums (applied : List MigrationRecord) : Option String :=
  if R.allowChecksumMismatch then none else R.migrations.findSome? (mismatch? applied)

/-- The migrations that are to be applied. -/
def pending (opts : UpOptions) (applied : List MigrationRecord) : List MigrationDefinition :=
  let pending := R.migrations.filter fun m => !applied.any fun r => r.id == m.id
  let pending := match opts.targetVersion with
    | some target => pending.filter fun m => codeUnits m.version ≤ codeUnits target
    | none => pending
  match opts.steps with
  | some steps => if 0 < steps then pending.take steps.toNat else pending
  | none => pending

end MigrationRunner

/-! ## `up` -/

section
variable {D : Type} (env : Env D)

/-- A part of a migration on the database. -/
def Db.act (db : Db D) (f : Action D) : Except (Db D × String) (Db D) :=
  match f db.data with
  | (data, none) => .ok { db with data }
  | (data, some err) => .error ({ db with data }, err)

/-- The SQL of a migration, when it has any. -/
def Db.execute (db : Db D) (sql : Option String) (f : Action D) : Except (Db D × String) (Db D) :=
  if (given sql).isSome then db.act f else .ok db

def recordOf (batch : ℕ) (m : MigrationDefinition) : MigrationRecord :=
  ⟨m.id, m.version, m.name, m.checksum.getD "", batch⟩

/-- What `up` tries for one migration. -/
def tryUp (tableName : String) (batch : ℕ) (m : MigrationDefinition) (db : Db D) :
    Except (Db D × String) (Db D) := do
  let db ← db.execute m.sqlUp (env.sqlUp m)
  let db ← db.act (env.up m)
  match env.recordError (recordOf batch m) with
  | some err => .error (db, err)
  | none => .ok (db.recordMigration env.dialect tableName (recordOf batch m))

/-- What `down` tries for one migration. -/
def tryDown (tableName : String) (m : MigrationDefinition) (id : String) (db : Db D) :
    Except (Db D × String) (Db D) := do
  let db ← db.execute m.sqlDown (env.sqlDown m)
  let db ← db.act (env.down m)
  match env.removeError id with
  | some err => .error (db, err)
  | none => .ok (db.removeMigration env.dialect tableName id)

/-- A transaction around what is tried, unless the migration does without; `title` begins the error. -/
def transact (m : MigrationDefinition) (title : String) (body : Db D → Except (Db D × String) (Db D))
    (db : Db D) :
    Except (Db D × String) (Db D) :=
  let failed (db : Db D) (err : String) : Db D × String :=
    let db := if m.nonTransactional then db else
      match db.rollbackTransaction with
      | .ok db => db
      -- the failure of a rollback is ignored
      | .error _ => db
    (db, title ++ " '" ++ m.id ++ "' failed: " ++ err)
  match if m.nonTransactional then .ok db else db.beginTransaction with
  | .error err => .error (db, err)
  | .ok db =>
    match body db with
    | .error (db, err) => .error (failed db err)
    | .ok db =>
      if m.nonTransactional then .ok db
      else match db.commitTransaction with
        | .ok db => .ok db
        | .error err => .error (failed db err)

/-- One migration after the other, as far as they do not fail. -/
def migrateAll (tableName : String) (batch : ℕ) :
    List MigrationDefinition → Db D → Db D × Except String (List MigrationRecord)
  | [], db => (db, .ok [])
  | m :: ms, db =>
    match transact m "Migration" (tryUp env tableName batch m) db with
    | .error (db, err) => (db, .error err)
    | .ok db =>
      match migrateAll tableName batch ms db with
      | (db, .ok records) => (db, .ok (recordOf batch m :: records))
      | (db, .error err) => (db, .error err)

def latestBatch (applied : List MigrationRecord) : ℕ := (applied.map MigrationRecord.batch).foldl max 0

/-- `up`, under the lock. -/
def upLocked (R : MigrationRunner) (opts : UpOptions) (db : Db D) : Db D × Except String
    (List MigrationRecord) :=
  let applied := db.getAppliedMigrations env.dialect env.collation
  match R.verifyChecksums applied with
  | some err => (db, .error err)
  | none =>
    if opts.dryRun.getD R.dryRun then (db, .ok [])
    else migrateAll env R.tableName (latestBatch applied + 1) (R.pending opts applied) db

/-- `up` -/
def MigrationRunner.up (R : MigrationRunner) (opts : UpOptions) (db : Db D) :
    Db D × Except String (List MigrationRecord) :=
  match db.acquireLock R.lockKey with
  | none => (db, .error ("Failed to acquire distributed migration lock '" ++ R.lockKey ++
      "'. Another migration process may be running."))
  | some db => ((upLocked env R opts db).1.releaseLock R.lockKey, (upLocked env R opts db).2)

/-! ## `down` -/

/-- The records that are to be rolled back, in order. -/
def toRollback (opts : DownOptions) (applied : List MigrationRecord) : List MigrationRecord :=
  match opts.targetVersion, opts.steps with
  | some target, _ => (applied.filter fun r => codeUnits target < codeUnits r.version).reverse
  | none, some steps =>
    if 0 < steps then applied.reverse.take steps.toNat
    else (applied.filter fun r => r.batch == latestBatch applied).reverse
  | none, none => (applied.filter fun r => r.batch == latestBatch applied).reverse

/-- One record after the other, as far as they do not fail. -/
def rollbackAll (R : MigrationRunner) : List MigrationRecord → Db D → Db D × Except String
    (List MigrationRecord)
  | [], db => (db, .ok [])
  | r :: rs, db =>
    match R.migrations.find? fun m => m.id == r.id with
    | none => (db, .error ("Cannot rollback migration '" ++ r.id ++
        "' - migration definition not registered."))
    | some m =>
      match transact m "Rollback of migration" (tryDown env R.tableName m r.id) db with
      | .error (db, err) => (db, .error err)
      | .ok db =>
        match rollbackAll R rs db with
        | (db, .ok records) => (db, .ok (r :: records))
        | (db, .error err) => (db, .error err)

/-- `down`, under the lock. -/
def downLocked (R : MigrationRunner) (opts : DownOptions) (db : Db D) : Db D × Except String
    (List MigrationRecord) :=
  let applied := db.getAppliedMigrations env.dialect env.collation
  if applied = [] then (db, .ok [])
  else
    let records := toRollback opts applied
    if opts.dryRun.getD R.dryRun then (db, .ok records) else rollbackAll env R records db

/-- `down` -/
def MigrationRunner.down (R : MigrationRunner) (opts : DownOptions) (db : Db D) :
    Db D × Except String (List MigrationRecord) :=
  match db.acquireLock R.lockKey with
  | none => (db, .error ("Failed to acquire distributed migration lock '" ++ R.lockKey ++ "'."))
  | some db => ((downLocked env R opts db).1.releaseLock R.lockKey, (downLocked env R opts db).2)

end

end Migrations
