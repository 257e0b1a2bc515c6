/-
  What `up` does to a database: it applies a part of the pending migrations, each in full or not at all.

  `applyAll` is the migrations applied one after the other without transactions.  A run of `up` whose
  migrations are transactional leaves the state after those before the first that fails (`up_spec`), and
  the next run goes on from there.
-/
import AuditTransparency.Migrations.Engine
import AuditTransparency.Soroban.Run

namespace Migrations

open Soroban

variable {D : Type} {env : Env D} {tableName : String} {batch : ℕ} {m : MigrationDefinition} {db db' : Db D}

/-! ## What is tried -/

/-- The same data and table, with other locks and another transaction. -/
def Db.reframe (savepoint : Option (D × List MigrationRecord)) (locks : List String) (db : Db D) : Db D :=
  { db with savepoint, locks }

/-- The same for what is left of a database. -/
def reframed (savepoint : Option (D × List MigrationRecord)) (locks : List String) :
    Except (Db D × String) (Db D) → Except (Db D × String) (Db D)
  | .ok db => .ok (db.reframe savepoint locks)
  | .error (db, err) => .error (db.reframe savepoint locks, err)

section
variable {s : Option (D × List MigrationRecord)} {l : List String}

theorem reframed_bind {x : Except (Db D × String) (Db D)} {f g : Db D → Except (Db D × String) (Db D)}
    (h : ∀ db, g (db.reframe s l) = reframed s l (f db)) : reframed s l x >>= g = reframed s l (x >>= f) := by
  cases x with
  | error p => rfl
  | ok db => exact h db

theorem act_reframe (f : Action D) (db : Db D) : (db.reframe s l).act f = reframed s l (db.act f) := by
  simp only [Db.act, Db.reframe]
  rcases f db.data with ⟨data, _ | err⟩ <;> rfl

theorem execute_reframe (sql : Option String) (f : Action D) (db : Db D) :
    (db.reframe s l).execute sql f = reframed s l (db.execute sql f) := by
  rw [Db.execute, Db.execute]
  split
  · exact act_reframe f db
  · rfl

theorem recordMigration_reframe (dialect : Dialect) (tableName : String) (r : MigrationRecord) (db : Db D) :
    (db.reframe s l).recordMigration dialect tableName r =
      (db.recordMigration dialect tableName r).reframe s l := by
  rw [Db.recordMigration, Db.recordMigration]
  split
  · rfl
  · by_cases h : db.table.any fun row => row.id == r.id
    · simp [Db.reframe, h]
    · simp [Db.reframe, h]

/-- What is tried does not depend on the transaction and the locks of a database, and keeps them. -/
theorem tryUp_reframe (env : Env D) (tableName : String) (batch : ℕ) (m : MigrationDefinition) (db : Db D) :
    tryUp env tableName batch m (db.reframe s l) = reframed s l (tryUp env tableName batch m db) := by
  rw [tryUp, execute_reframe]
  refine reframed_bind fun db => ?_
  rw [act_reframe]
  refine reframed_bind fun db => ?_
  cases env.recordError (recordOf batch m) with
  | some err => rfl
  | none => exact congrArg _ (recordMigration_reframe _ _ _ _)

end

/-- In a transaction: all of it, or nothing. -/
theorem transact_tryUp (title : String) (hm : m.nonTransactional = false) (hclosed : db.savepoint = none) :
    transact m title (tryUp env tableName batch m) db = match tryUp env tableName batch m db with
      | .ok db => .ok db
      | .error (_, err) => .error (db, title ++ " '" ++ m.id ++ "' failed: " ++ err) := by
  have hself : db.reframe none db.locks = db := by
    rw [← hclosed]
    rfl
  have hbegin : db.beginTransaction = .ok (db.reframe (some (db.data, db.table)) db.locks) := by
    rw [Db.beginTransaction, hclosed]
    rfl
  have hbody : tryUp env tableName batch m (db.reframe (some (db.data, db.table)) db.locks) =
      reframed (some (db.data, db.table)) db.locks (tryUp env tableName batch m db) :=
    tryUp_reframe env tableName batch m db
  have hframe : tryUp env tableName batch m db = reframed none db.locks (tryUp env tableName batch m db) := by
    rw [← tryUp_reframe, hself]
  rw [transact, hm, if_neg Bool.false_ne_true, hbegin]
  dsimp only
  rw [hbody]
  cases hres : tryUp env tableName batch m db with
  | error p =>
    obtain ⟨db', err⟩ := p
    exact congrArg (fun x => Except.error (x, _)) hself
  | ok db' =>
    rw [hres] at hframe
    exact congrArg Except.ok (Except.ok.inj hframe).symm

theorem tryUp_frame (h : tryUp env tableName batch m db = .ok db') : db'.savepoint = db.savepoint ∧
    db'.locks = db.locks := by
  have hframe : tryUp env tableName batch m db =
      reframed db.savepoint db.locks (tryUp env tableName batch m db) :=
    tryUp_reframe env tableName batch m db
  rw [h] at hframe
  have he := Except.ok.inj hframe
  exact ⟨(congrArg Db.savepoint he).trans rfl, (congrArg Db.locks he).trans rfl⟩

/-! ## Migrations one after the other -/

/-- Migrations applied one after the other, without transactions; none when one of them fails. -/
def applyAll (env : Env D) (tableName : String) (batch : ℕ) : List MigrationDefinition → Db D → Option (Db D)
  | [], db => some db
  | m :: ms, db => match tryUp env tableName batch m db with
    | .ok db => applyAll env tableName batch ms db
    | .error _ => none

variable {pre post ms : List MigrationDefinition} {db₁ : Db D}

theorem applyAll_cons (h : applyAll env tableName batch (m :: ms) db = some db₁) :
    ∃ db', tryUp env tableName batch m db = .ok db' ∧ applyAll env tableName batch ms db' = some db₁ := by
  rw [applyAll] at h
  split at h
  · rename_i db' hm
    exact ⟨db', hm, h⟩
  · cases h

/-- All of them can be applied, or there is a first that fails. -/
theorem applyAll_cases (env : Env D) (tableName : String) (batch : ℕ) (ms : List MigrationDefinition)
    (db : Db D) :
    (∃ db₁, applyAll env tableName batch ms db = some db₁) ∨
      ∃ pre m post db₁ left err, ms = pre ++ m :: post ∧ applyAll env tableName batch pre db = some db₁ ∧
        tryUp env tableName batch m db₁ = .error (left, err) := by
  induction ms generalizing db with
  | nil => exact Or.inl ⟨db, rfl⟩
  | cons m ms ih =>
    cases hm : tryUp env tableName batch m db with
    | error p => exact Or.inr ⟨[], m, ms, db, p.1, p.2, rfl, rfl, hm⟩
    | ok db' =>
      have hstep : ∀ ms, applyAll env tableName batch (m :: ms) db = applyAll env tableName batch ms db' := by
        intro ms
        rw [applyAll, hm]
      rcases ih db' with ⟨db₁, h⟩ | ⟨pre, m', post, db₁, left, err, rfl, hpre, hfails⟩
      · exact Or.inl ⟨db₁, (hstep ms).trans h⟩
      · exact Or.inr ⟨m :: pre, m', post, db₁, left, err, rfl, (hstep pre).trans hpre, hfails⟩

theorem applyAll_frame (h : applyAll env tableName batch ms db = some db₁) :
    db₁.savepoint = db.savepoint ∧ db₁.locks = db.locks := by
  induction ms generalizing db with
  | nil =>
    obtain rfl := Option.some.inj h
    exact ⟨rfl, rfl⟩
  | cons m ms ih =>
    obtain ⟨db', hm, hms⟩ := applyAll_cons h
    obtain ⟨hs, hl⟩ := tryUp_frame hm
    obtain ⟨hs', hl'⟩ := ih hms
    exact ⟨hs'.trans hs, hl'.trans hl⟩

theorem applyAll_reframe (s : Option (D × List MigrationRecord)) (l : List String)
    (h : applyAll env tableName batch ms db = some db₁) : applyAll env tableName batch ms (db.reframe s l) =
    some (db₁.reframe s l) := by
  induction ms generalizing db with
  | nil => exact congrArg _ (congrArg _ (Option.some.inj h))
  | cons m ms ih =>
    obtain ⟨db', hm, hms⟩ := applyAll_cons h
    rw [applyAll, tryUp_reframe, hm]
    exact ih hms

/-- What `up` says of a migration that fails. -/
def failure (m : MigrationDefinition) (err : String) : String :=
    "Migration" ++ " '" ++ m.id ++ "' failed: " ++ err

theorem migrateAll_of_applies (htx : ∀ x ∈ ms, x.nonTransactional = false) (hclosed : db.savepoint = none)
    (h : applyAll env tableName batch ms db = some db₁) :
    migrateAll env tableName batch ms db = (db₁, .ok (ms.map (recordOf batch))) := by
  induction ms generalizing db with
  | nil =>
    obtain rfl := Option.some.inj h
    rfl
  | cons m ms ih =>
    obtain ⟨db', hm, hms⟩ := applyAll_cons h
    rw [List.forall_mem_cons] at htx
    have hih := ih htx.2 ((tryUp_frame hm).1.trans hclosed) hms
    rw [migrateAll, transact_tryUp _ htx.1 hclosed, hm]
    dsimp only
    rw [hih]
    rfl

/-- Up to the first that fails. -/
theorem migrateAll_of_fails {left : Db D} {err : String}
    (htx : ∀ x ∈ pre ++ m :: post, x.nonTransactional = false)
    (hclosed : db.savepoint = none) (hpre : applyAll env tableName batch pre db = some db₁)
    (hfails : tryUp env tableName batch m db₁ = .error (left, err)) :
    migrateAll env tableName batch (pre ++ m :: post) db = (db₁, .error (failure m err)) := by
  induction pre generalizing db with
  | nil =>
    obtain rfl := Option.some.inj hpre
    rw [List.nil_append, migrateAll, transact_tryUp _ (htx m (by simp)) hclosed, hfails]
    rfl
  | cons x pre ih =>
    obtain ⟨db', hx, hpre⟩ := applyAll_cons hpre
    rw [List.cons_append, List.forall_mem_cons] at htx
    have hih := ih htx.2 ((tryUp_frame hx).1.trans hclosed) hpre
    rw [List.cons_append, migrateAll, transact_tryUp _ htx.1 hclosed, hx]
    dsimp only
    rw [hih]

/-! ## `up` -/

section
variable {R : MigrationRunner} {opts : UpOptions}

/-- The records that a run starts from. -/
def applied (env : Env D) (db : Db D) : List MigrationRecord :=
    db.getAppliedMigrations env.dialect env.collation

/-- The batch of a run. -/
def nextBatch (env : Env D) (db : Db D) : ℕ := latestBatch (applied env db) + 1

/-- The lock is taken and given back. -/
theorem release_reframe {key : String} (hfree : key ∉ db.locks) (hs : db₁.savepoint = db.savepoint)
    (hl : db₁.locks = db.locks) : (db₁.reframe db.savepoint (key :: db.locks)).releaseLock key = db₁ := by
  have hlocks : (key :: db.locks).filter (· ≠ key) = db₁.locks := by
    rw [List.filter_cons_of_neg (by simp), hl]
    refine List.filter_eq_self.2 fun k hk => ?_
    rw [decide_eq_true_eq]
    rintro rfl
    exact hfree hk
  obtain ⟨data, table, savepoint, locks⟩ := db₁
  simp only [Db.releaseLock, Db.reframe, hlocks, ← hs]

theorem up_refused (hheld : R.lockKey ∈ db.locks) : R.up env opts db =
    (db, .error ("Failed to acquire distributed migration lock '" ++ R.lockKey ++
      "'. Another migration process may be running.")) := by
  rw [MigrationRunner.up, Db.acquireLock, if_pos hheld]

theorem up_of_free (hfree : R.lockKey ∉ db.locks) : R.up env opts db =
    ((upLocked env R opts (db.reframe db.savepoint (R.lockKey :: db.locks))).1.releaseLock R.lockKey,
      (upLocked env R opts (db.reframe db.savepoint (R.lockKey :: db.locks))).2) := by
  rw [MigrationRunner.up, Db.acquireLock, if_neg hfree]
  rfl

/-- A run that is ready to apply migrations. -/
structure Ready (R : MigrationRunner) (env : Env D) (opts : UpOptions) (db : Db D) : Prop where
  free : R.lockKey ∉ db.locks
  closed : db.savepoint = none
  /-- the ids are the primary key -/
  keys : (db.table.map MigrationRecord.id).Nodup
  keeps : env.dialect.Keeps R.tableName
  verified : R.verifyChecksums (applied env db) = none
  wet : opts.dryRun.getD R.dryRun = false
  transactional : ∀ m ∈ R.pending opts (applied env db), m.nonTransactional = false

theorem Ready.upLocked (h : Ready R env opts db) (s : Option (D × List MigrationRecord)) (l : List String) :
    upLocked env R opts (db.reframe s l) =
      migrateAll env R.tableName (nextBatch env db) (R.pending opts (applied env db)) (db.reframe s l) := by
  have hverified : R.verifyChecksums ((db.reframe s l).getAppliedMigrations env.dialect
      env.collation) = none :=
    h.verified
  rw [Migrations.upLocked]
  simp only [hverified, h.wet]
  rfl

/-- All pending migrations. -/
theorem Ready.up_of_applies (h : Ready R env opts db)
    (happlies : applyAll env R.tableName (nextBatch env db) (R.pending opts (applied env db)) db = some db₁) :
    R.up env opts db =
      (db₁, .ok ((R.pending opts (applied env db)).map (recordOf (nextBatch env db)))) := by
  obtain ⟨hs, hl⟩ := applyAll_frame happlies
  have hclosed : (db.reframe db.savepoint (R.lockKey :: db.locks)).savepoint = none := h.closed
  rw [up_of_free h.free, h.upLocked,
    migrateAll_of_applies h.transactional hclosed (applyAll_reframe _ _ happlies),
      release_reframe h.free hs hl]

/-- Those before the first that fails. -/
theorem Ready.up_of_fails (h : Ready R env opts db) {left : Db D} {err : String}
    (hpending : R.pending opts (applied env db) = pre ++ m :: post)
    (hpre : applyAll env R.tableName (nextBatch env db) pre db = some db₁)
    (hfails : tryUp env R.tableName (nextBatch env db) m db₁ = .error (left, err)) :
    R.up env opts db = (db₁, .error (failure m err)) := by
  obtain ⟨hs, hl⟩ := applyAll_frame hpre
  have hfails' : tryUp env R.tableName (nextBatch env db) m
      (db₁.reframe db.savepoint (R.lockKey :: db.locks)) =
      .error (left.reframe db.savepoint (R.lockKey :: db.locks), err) := by
    rw [tryUp_reframe, hfails]
    rfl
  have hclosed : (db.reframe db.savepoint (R.lockKey :: db.locks)).savepoint = none := h.closed
  rw [up_of_free h.free, h.upLocked, hpending,
    migrateAll_of_fails (hpending ▸ h.transactional) hclosed (applyAll_reframe _ _ hpre) hfails',
    release_reframe h.free hs hl]

end

/-! ## The table -/

section
variable {R : MigrationRunner}

theorem applied_perm (env : Env D) (db : Db D) : (applied env db).Perm db.table := by
  rw [applied]
  cases env.dialect with
  | sqlite => exact .refl _
  | postgres => exact List.mergeSort_perm _ _
  | mysql => exact List.mergeSort_perm _ _

/-- An id that has been recorded. -/
def Recorded (db : Db D) (id : String) : Prop := id ∈ db.table.map MigrationRecord.id

theorem any_applied (env : Env D) (db : Db D) (id : String) :
    ((applied env db).any fun r => r.id == id) = true ↔ Recorded db id := by
  rw [List.any_eq_true, Recorded, List.mem_map]
  simp only [(applied_perm env db).mem_iff, beq_iff_eq]

/-- The pending migrations are those that are not recorded. -/
theorem mem_pending : m ∈ R.pending {} (applied env db) ↔ m ∈ R.migrations ∧ ¬Recorded db m.id := by
  change m ∈ R.migrations.filter _ ↔ _
  rw [List.mem_filter, Bool.not_eq_true', ← Bool.not_eq_true, any_applied]

theorem pending_nodup (env : Env D) (db : Db D) :
    ((R.pending {} (applied env db)).map MigrationDefinition.id).Nodup :=
  R.nodup.sublist (List.filter_sublist.map _)

/-- A migration that is not recorded yet. -/
theorem tryUp_table (hkeeps : env.dialect.Keeps tableName) (h : tryUp env tableName batch m db = .ok db')
    (hnew : ¬Recorded db m.id) : db'.table = db.table ++ [recordOf batch m] := by
  have hact : ∀ {f : Action D} {db db' : Db D}, db.act f = .ok db' → db'.table = db.table := by
    intro f db db' h
    rw [Db.act] at h
    split at h
    · rw [← Except.ok.inj h]
    · cases h
  have hexecute : ∀ {sql : Option String} {f : Action D} {db db' : Db D}, db.execute sql f = .ok db' →
      db'.table = db.table := by
    intro sql f db db' h
    rw [Db.execute] at h
    split at h
    · exact hact h
    · exact congrArg Db.table (Except.ok.inj h).symm
  rw [tryUp] at h
  cases hsql : db.execute m.sqlUp (env.sqlUp m) with
  | error p =>
    rw [hsql] at h
    cases h
  | ok db₂ =>
    rw [hsql] at h
    change (db₂.act (env.up m) >>= _) = _ at h
    cases hup : db₂.act (env.up m) with
    | error p =>
      rw [hup] at h
      cases h
    | ok db₃ =>
      rw [hup] at h
      have htable : db₃.table = db.table := (hact hup).trans (hexecute hsql)
      simp only [bind, Except.bind] at h
      split at h
      · cases h
      · obtain rfl := Except.ok.inj h
        have hany : ¬(db₃.table.any fun row => row.id == (recordOf batch m).id) = true := by
          rw [htable, List.any_eq_true]
          rintro ⟨row, hrow, he⟩
          exact hnew (List.mem_map.2 ⟨row, hrow, beq_iff_eq.1 he⟩)
        rw [Db.recordMigration, if_neg (not_not.2 hkeeps), if_neg hany, htable]

theorem applyAll_table (hkeeps : env.dialect.Keeps tableName)
    (h : applyAll env tableName batch ms db = some db₁)
    (hnodup : (ms.map MigrationDefinition.id).Nodup) (hnew : ∀ m ∈ ms, ¬Recorded db m.id) :
    db₁.table = db.table ++ ms.map (recordOf batch) := by
  induction ms generalizing db with
  | nil =>
    obtain rfl := Option.some.inj h
    exact (List.append_nil _).symm
  | cons m ms ih =>
    obtain ⟨db', hm, hms⟩ := applyAll_cons h
    rw [List.map_cons, List.nodup_cons] at hnodup
    rw [List.forall_mem_cons] at hnew
    have htable := tryUp_table hkeeps hm hnew.1
    have hnew' : ∀ x ∈ ms, ¬Recorded db' x.id := by
      intro x hx hrecorded
      rw [Recorded, htable, List.map_append, List.mem_append] at hrecorded
      rcases hrecorded with hrecorded | he
      · exact hnew.2 x hx hrecorded
      · exact hnodup.1 (List.mem_map.2 ⟨x, hx, List.mem_singleton.1 he⟩)
    rw [ih hms hnodup.2 hnew', htable, List.append_assoc]
    rfl

end

end Migrations
