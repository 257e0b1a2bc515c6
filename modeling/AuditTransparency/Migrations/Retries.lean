/-
  Runs of `up`, one after the other: runs that fail, runs that are refused, and the one that goes through.

  `Applied` says which migrations have been applied on the way from one state to another, in order.  Over
  every history they are a beginning of the pending ones, each of them once (`reached_of_run`); the failed
  run and the one after it, with a definition that is registered again, are stated exactly in
  `up_clean_and_resumable`.
-/
import AuditTransparency.Migrations.Resume

namespace Migrations

open Soroban

variable {D : Type} {env : Env D} {tableName : String} {batch : ℕ} {m : MigrationDefinition}
  {db db₀ db₁ db' : Db D} {pre post ms ms' : List MigrationDefinition} {R : MigrationRunner} {opts : UpOptions}

/-- What is left of a list whose first elements have been dealt with. -/
theorem filter_rest {α κ : Type} [DecidableEq κ] (key : α → κ) {l d r : List α} {T : List κ}
    (hnodup : (l.map key).Nodup) (h : l.filter (fun x => key x ∉ T) = d ++ r) :
    l.filter (fun x => key x ∉ T ++ d.map key) = r := by
  have hsub : ((d ++ r).map key).Nodup := h ▸ hnodup.sublist (List.filter_sublist.map key)
  have hsplit : l.filter (fun x => key x ∉ T ++ d.map key) = (l.filter fun x => key x ∉ T).filter
      fun x => key x ∉ d.map key := by
    rw [List.filter_filter]
    refine List.filter_congr fun x _ => ?_
    by_cases hT : key x ∈ T
    · simp [hT]
    · simp [hT]
  rw [hsplit, h, List.filter_append, List.filter_eq_nil_iff.2, List.nil_append, List.filter_eq_self]
  · intro x hx
    rw [decide_eq_true_eq]
    rw [List.map_append, List.nodup_append] at hsub
    exact fun hd => hsub.2.2 _ hd _ (List.mem_map_of_mem hx) rfl
  · intro x hx
    rw [decide_eq_true_eq, not_not]
    exact List.mem_map_of_mem hx

theorem pending_eq (R : MigrationRunner) (env : Env D) (db : Db D) :
    R.pending {} (applied env db) = R.migrations.filter fun m => m.id ∉ db.table.map MigrationRecord.id := by
  refine List.filter_congr fun m _ => ?_
  have hiff := any_applied env db m.id
  by_cases h : m.id ∈ db.table.map MigrationRecord.id
  · rw [hiff.2 h]
    exact (decide_eq_false (not_not.2 h)).symm
  · rw [Bool.eq_false_iff.2 (mt hiff.1 h)]
    exact (decide_eq_true h).symm

/-! ## Histories -/

/-- Migrations applied one after the other, in the environment and the batch of any run. -/
inductive Applied : Db D → List MigrationDefinition → Db D → Prop where
  | nil (db : Db D) : Applied db [] db
  | snoc {env : Env D} {tableName : String} {batch : ℕ} {db₀ db db' : Db D} {ms : List MigrationDefinition}
      {m : MigrationDefinition} :
      Applied db₀ ms db → tryUp env tableName batch m db = .ok db' → Applied db₀ (ms ++ [m]) db'

theorem Applied.applyAll (h : Applied db₀ ms' db) (hms : applyAll env tableName batch ms db = some db₁) :
    Applied db₀ (ms' ++ ms) db₁ := by
  induction ms generalizing db ms' with
  | nil =>
    obtain rfl := Option.some.inj hms
    rw [List.append_nil]
    exact h
  | cons m ms ih =>
    obtain ⟨db', hm, hms⟩ := applyAll_cons hms
    rw [List.append_cons]
    exact ih (h.snoc hm) hms

/-- A run of `up`, by any runner. -/
structure Attempt (D : Type) where
  runner : MigrationRunner
  env : Env D

def Attempt.Steps (db : Db D) (a : Attempt D) (db' : Db D) : Prop := (a.runner.up a.env {} db).1 = db'

/-- The same migrations, possibly with other definitions, and the same table; those that are not applied yet
    are transactional. -/
structure Attempt.Of (a : Attempt D) (R : MigrationRunner) (db₀ : Db D) : Prop where
  ids : a.runner.migrations.map MigrationDefinition.id = R.migrations.map MigrationDefinition.id
  tableName : a.runner.tableName = R.tableName
  keeps : a.env.dialect.Keeps R.tableName
  transactional : ∀ m ∈ a.runner.migrations, ¬Recorded db₀ m.id → m.nonTransactional = false

/-- A database that a run can start on. -/
structure Clean (R : MigrationRunner) (db : Db D) : Prop where
  free : R.lockKey ∉ db.locks
  closed : db.savepoint = none
  /-- the ids are the primary key -/
  keys : (db.table.map MigrationRecord.id).Nodup

/-- **What a run of `up` does**: it applies the first of the pending migrations, and leaves the database as
    clean as it was. -/
theorem Clean.up (h : Clean R db) (env : Env D) (hkeeps : env.dialect.Keeps R.tableName)
    (htx : ∀ m ∈ R.pending {} (applied env db), m.nonTransactional = false) :
    ∃ done rest, R.pending {} (applied env db) = done ++ rest ∧
      applyAll env R.tableName (nextBatch env db) done db = some (R.up env {} db).1 := by
  have hidle : (upLocked env R {} (db.reframe db.savepoint (R.lockKey :: db.locks))).1 =
      db.reframe db.savepoint (R.lockKey :: db.locks) → (R.up env {} db).1 = db := by
    intro hlocked
    rw [up_of_free h.free, hlocked]
    exact release_reframe h.free rfl rfl
  have hunchanged : (R.up env {} db).1 = db → ∃ done rest, R.pending {} (applied env db) = done ++ rest ∧
      applyAll env R.tableName (nextBatch env db) done db = some (R.up env {} db).1 :=
    fun he => ⟨[], _, rfl, by rw [he]; rfl⟩
  cases hverified : R.verifyChecksums (applied env db) with
  | some err =>
    refine hunchanged (hidle ?_)
    rw [upLocked, show R.verifyChecksums
      ((db.reframe db.savepoint (R.lockKey :: db.locks)).getAppliedMigrations
      env.dialect env.collation) = some err from hverified]
  | none =>
    cases hdry : R.dryRun with
    | true =>
      refine hunchanged (hidle ?_)
      rw [upLocked, show R.verifyChecksums
        ((db.reframe db.savepoint (R.lockKey :: db.locks)).getAppliedMigrations
        env.dialect env.collation) = none from hverified]
      simp [hdry]
    | false =>
      have hready : Ready R env {} db := ⟨h.free, h.closed, h.keys, hkeeps, hverified, hdry, htx⟩
      rcases applyAll_cases env R.tableName (nextBatch env db) (R.pending {} (applied env db)) db with
        ⟨db₁, happlies⟩ | ⟨pre, m, post, db₁, left, err, hsplit, hpre, hfails⟩
      · refine ⟨_, [], (List.append_nil _).symm, ?_⟩
        rw [hready.up_of_applies happlies]
        exact happlies
      · refine ⟨pre, m :: post, hsplit, ?_⟩
        rw [hready.up_of_fails hsplit hpre hfails]
        exact hpre

/-- The ids that are still to be applied. -/
def remaining (R : MigrationRunner) (db : Db D) : List String :=
  (R.migrations.map MigrationDefinition.id).filter fun id => id ∉ db.table.map MigrationRecord.id

theorem pending_ids (R : MigrationRunner) (env : Env D) (db : Db D) :
    (R.pending {} (applied env db)).map MigrationDefinition.id = remaining R db := by
  rw [pending_eq, remaining, List.filter_map]
  rfl

/-- What is recorded of migrations that were applied from a clean database. -/
theorem table_of_applyAll {rest : List MigrationDefinition} (hkeeps : env.dialect.Keeps tableName)
    (hpending : R.pending {} (applied env db) = ms ++ rest)
    (h : applyAll env tableName batch ms db = some db₁) :
    db₁.table = db.table ++ ms.map (recordOf batch) := by
  have hnodup := pending_nodup (R := R) env db
  rw [hpending, List.map_append] at hnodup
  refine applyAll_table hkeeps h (List.nodup_append.1 hnodup).1 fun m hm => ?_
  have hmem : m ∈ R.pending {} (applied env db) := hpending ▸ List.mem_append_left _ hm
  exact (mem_pending.1 hmem).2

/-- What is recorded, by its ids. -/
theorem ids_of_table (htable : db₁.table = db.table ++ ms.map (recordOf batch)) :
    db₁.table.map MigrationRecord.id = db.table.map MigrationRecord.id ++ ms.map MigrationDefinition.id := by
  rw [htable, List.map_append, List.map_map]
  rfl

theorem Clean.applyAll {rest : List MigrationDefinition} (h : Clean R db)
    (hkeeps : env.dialect.Keeps tableName) (hpending : R.pending {} (applied env db) = ms ++ rest)
    (hms : applyAll env tableName batch ms db = some db₁) :
    Clean R db₁ := by
  obtain ⟨hs, hl⟩ := applyAll_frame hms
  refine ⟨hl ▸ h.free, hs.trans h.closed, ?_⟩
  have hnodup := pending_nodup (R := R) env db
  rw [hpending, List.map_append] at hnodup
  rw [ids_of_table (table_of_applyAll hkeeps hpending hms), List.nodup_append]
  refine ⟨h.keys, (List.nodup_append.1 hnodup).1, ?_⟩
  rintro id hid _ hid' rfl
  obtain ⟨m, hm, rfl⟩ := List.mem_map.1 hid'
  have hmem : m ∈ R.pending {} (applied env db) := hpending ▸ List.mem_append_left _ hm
  exact (mem_pending.1 hmem).2 hid

/-- How far a history has come. -/
structure Reached (R : MigrationRunner) (db₀ : Db D) (done : List MigrationDefinition)
    (db : Db D) : Prop where
  /-- what is done and what remains is what there was to do, in this order -/
  split : remaining R db₀ = done.map MigrationDefinition.id ++ remaining R db
  once : (done.map MigrationDefinition.id).Nodup
  chain : Applied db₀ done db
  recorded : db.table.map MigrationRecord.id = db₀.table.map MigrationRecord.id ++ done.map
    MigrationDefinition.id
  clean : Clean R db

theorem remaining_nodup (R : MigrationRunner) (db : Db D) : (remaining R db).Nodup :=
  R.nodup.sublist List.filter_sublist

theorem Reached.step {done : List MigrationDefinition} {a : Attempt D} (h : Reached R db₀ done db)
    (ha : a.Of R db₀)
    (hs : a.Steps db db') : ∃ done', Reached R db₀ done' db' := by
  have hclean : Clean a.runner db := by
    refine ⟨?_, h.clean.closed, h.clean.keys⟩
    rw [MigrationRunner.lockKey, ha.tableName]
    exact h.clean.free
  have htx : ∀ m ∈ a.runner.pending {} (applied a.env db), m.nonTransactional = false := by
    intro m hm
    obtain ⟨hmem, hnew⟩ := mem_pending.1 hm
    refine ha.transactional m hmem fun hrecorded => hnew ?_
    rw [Recorded, h.recorded]
    exact List.mem_append_left _ hrecorded
  have hkeeps : a.env.dialect.Keeps a.runner.tableName := ha.tableName ▸ ha.keeps
  obtain ⟨done', rest, hpending, hdone⟩ := hclean.up a.env hkeeps htx
  rw [show (a.runner.up a.env {} db).1 = db' from hs] at hdone
  have hids := ids_of_table (table_of_applyAll hkeeps hpending hdone)
  have hremaining : remaining R db = done'.map MigrationDefinition.id ++ rest.map MigrationDefinition.id := by
    rw [remaining, ← ha.ids, ← List.map_append, ← hpending, pending_ids]
    rfl
  have hrest : remaining R db' = rest.map MigrationDefinition.id := by
    have := filter_rest id (by rw [List.map_id]; exact R.nodup) hremaining
    rw [List.map_id] at this
    rw [remaining, hids]
    exact this
  refine ⟨done ++ done', ?_, ?_, h.chain.applyAll hdone, ?_, ?_⟩
  · rw [h.split, hremaining, hrest, List.map_append, List.append_assoc]
  · have hnodup := remaining_nodup R db₀
    rw [h.split, hremaining, ← List.append_assoc, ← List.map_append] at hnodup
    exact (List.nodup_append.1 hnodup).1
  · rw [hids, h.recorded, List.map_append, List.append_assoc]
  · obtain ⟨hfree, hclosed, hkeys⟩ := hclean.applyAll hkeeps hpending hdone
    refine ⟨?_, hclosed, hkeys⟩
    rw [MigrationRunner.lockKey, ← ha.tableName]
    exact hfree

/-- Every history applies a beginning of what there is to do, each migration once. -/
theorem reached_of_run {tr : List (Db D × Attempt D)} (h : Run (fun db a db' => a.Steps db db') db₀ tr db)
    (hclean : Clean R db₀) (hof : ∀ p ∈ tr, p.2.Of R db₀) : ∃ done, Reached R db₀ done db := by
  refine h.invariant (C := fun _ a => a.Of R db₀) (I := fun db => ∃ done, Reached R db₀ done db) ?_ ?_ hof
  · exact ⟨[], rfl, List.nodup_nil, .nil db₀, (List.append_nil _).symm, hclean⟩
  · rintro s a s' ha hs ⟨done, hI⟩
    exact hI.step ha hs

/-! ## The run after a failure -/

/-- The runner with another definition of one of its migrations. -/
def MigrationRunner.repaired (R : MigrationRunner) (m' : MigrationDefinition) : MigrationRunner :=
  { R with
    migrations := R.migrations.map fun x => if x.id = m'.id then m' else x
    nodup := by
      have hids : ∀ x : MigrationDefinition, (if x.id = m'.id then m' else x).id = x.id := by
        intro x
        split
        · rename_i he
          exact he.symm
        · rfl
      rw [List.map_map]
      exact (List.map_congr_left fun x _ => hids x) ▸ R.nodup }

/-- A migration whose checksum is the one on record, if there is one. -/
theorem mismatch_eq_none {records : List MigrationRecord} (hkeys : (records.map MigrationRecord.id).Nodup) :
    MigrationRunner.mismatch? records m = none ↔
      ∀ r ∈ records, r.id = m.id → r.checksum = "" ∨ ∀ c ∈ given m.checksum, r.checksum = c := by
  rw [MigrationRunner.mismatch?]
  cases hfind : records.find? fun r => r.id == m.id with
  | none =>
    simp only [true_iff]
    intro r hr hid
    exact absurd (beq_iff_eq.2 hid) (List.find?_eq_none.1 hfind r hr)
  | some r =>
    have hiff : ∀ r' ∈ records, r'.id = m.id → r' = r := fun r' hr' hid =>
      Option.some.inj (((find?_key_eq_some _ hkeys).2 ⟨hr', hid⟩).symm.trans hfind)
    obtain ⟨hr, hid⟩ := (find?_key_eq_some _ hkeys).1 hfind
    cases hgiven : given m.checksum with
    | none => simp
    | some c =>
      simp only [ite_eq_right_iff, reduceCtorEq, imp_false, not_and_or, not_not,
        Option.mem_some_iff, forall_eq']
      constructor
      · intro h r' hr' hid'
        rw [hiff r' hr' hid']
        exact h
      · exact fun h => h r hr hid

theorem verified_iff : R.verifyChecksums (applied env db) = none ↔ R.allowChecksumMismatch = true ∨
    ∀ x ∈ R.migrations, MigrationRunner.mismatch? (applied env db) x = none := by
  rw [MigrationRunner.verifyChecksums]
  cases R.allowChecksumMismatch with
  | true => simp
  | false => simp [List.findSome?_eq_none_iff]

/-- The records, and what a run added to them, pass for all but the migration that is repaired. -/
theorem verified_repaired {m' : MigrationDefinition} {env' : Env D} (h : Ready R env {} db)
    (hpending : R.pending {} (applied env db) = pre ++ m :: post)
    (hpre : applyAll env R.tableName batch pre db = some db₁) (hclean : Clean R db₁) (hid : m'.id = m.id) :
    (R.repaired m').verifyChecksums (applied env' db₁) = none := by
  have hkeys : ∀ (env : Env D) (db : Db D), (db.table.map MigrationRecord.id).Nodup →
      ((applied env db).map MigrationRecord.id).Nodup :=
    fun env db hnodup => ((applied_perm env db).map _).nodup_iff.2 hnodup
  rw [verified_iff]
  rcases verified_iff.1 h.verified with hallow | hverified
  · exact Or.inl hallow
  right
  intro x hx
  obtain ⟨x, hmem, rfl⟩ := List.mem_map.1 hx
  rw [mismatch_eq_none (hkeys env' db₁ hclean.keys)]
  intro r hr hrid
  have htable := table_of_applyAll h.keeps hpending hpre
  rw [(applied_perm env' db₁).mem_iff, htable, List.mem_append, List.mem_map] at hr
  have hm : ¬Recorded db m.id := (mem_pending.1 (hpending ▸ List.mem_append_right _ List.mem_cons_self)).2
  have hpres : ∀ y ∈ pre, y.id ≠ m.id := by
    have hnodup := pending_nodup (R := R) env db
    rw [hpending, List.map_append, List.map_cons, List.nodup_append] at hnodup
    exact fun y hy => hnodup.2.2 _ (List.mem_map_of_mem hy) _ List.mem_cons_self
  split at hrid
  · -- the one that is repaired has no record
    rcases hr with hr | ⟨y, hy, rfl⟩
    · exact absurd (List.mem_map.2 ⟨r, hr, hrid.trans hid⟩) hm
    · exact absurd (hrid.trans hid) (hpres y hy)
  · rename_i hne
    rw [if_neg hne]
    rcases hr with hr | ⟨y, hy, rfl⟩
    · have hold := (mismatch_eq_none (hkeys env db h.keys)).1 (hverified x hmem)
      exact hold r ((applied_perm env db).mem_iff.2 hr) hrid
    · -- recorded by the run, with its own checksum
      have hy' : y ∈ R.migrations := (mem_pending.1 (hpending ▸ List.mem_append_left _ hy)).1
      obtain rfl : y = x := List.inj_on_of_nodup_map R.nodup hy' hmem hrid
      right
      intro c hc
      have hchecksum : y.checksum = some c := (Option.mem_filter_iff.1 hc).1
      rw [recordOf, hchecksum]
      rfl

/-- The migrations that are pending after the failure. -/
theorem pending_repaired {m' : MigrationDefinition} {env' : Env D} (hkeeps : env.dialect.Keeps tableName)
    (hpending : R.pending {} (applied env db) = pre ++ m :: post)
    (hpre : applyAll env tableName batch pre db = some db₁) (hid : m'.id = m.id) :
    (R.repaired m').pending {} (applied env' db₁) = m' :: post := by
  have hrest : R.pending {} (applied env' db₁) = m :: post := by
    rw [pending_eq, ids_of_table (table_of_applyAll hkeeps hpending hpre)]
    rw [pending_eq] at hpending
    exact filter_rest _ R.nodup hpending
  have hkeep : ∀ x : MigrationDefinition, (if x.id = m'.id then m' else x).id = x.id := by
    intro x
    split
    · rename_i he
      exact he.symm
    · rfl
  have hmap : (R.repaired m').pending {} (applied env' db₁) =
      (R.pending {} (applied env' db₁)).map fun x => if x.id = m'.id then m' else x := by
    rw [pending_eq, pending_eq, MigrationRunner.repaired, List.filter_map]
    refine congrArg _ (List.filter_congr fun x _ => ?_)
    rw [Function.comp_apply, hkeep]
  have hpost : ∀ y ∈ post, y.id ≠ m'.id := by
    have hnodup := pending_nodup (R := R) env db
    rw [hpending, List.map_append, List.map_cons, List.nodup_append, List.nodup_cons] at hnodup
    intro y hy he
    exact hnodup.2.1.1 (he.trans hid ▸ List.mem_map_of_mem hy)
  rw [hmap, hrest, List.map_cons, if_pos hid.symm]
  refine congrArg _ ((List.map_congr_left fun y hy => ?_).trans (List.map_id _))
  exact if_neg (hpost y hy)

/-! ## Definitions that are registered again -/

section
variable {m' : MigrationDefinition}

/-- A definition takes the place of the one with its id. -/
theorem placed_eq_map (hnodup : (ms.map MigrationDefinition.id).Nodup) (hm : m ∈ ms) (hid : m'.id = m.id) :
    placed ms m' = ms.map fun x => if x.id = m'.id then m' else x := by
  have hsome : (ms.findIdx? fun x => x.id == m'.id).isSome := by
    rw [List.findIdx?_isSome, List.any_eq_true]
    exact ⟨m, hm, beq_iff_eq.2 hid.symm⟩
  obtain ⟨i, hi⟩ := Option.isSome_iff_exists.1 hsome
  obtain ⟨hlt, hfound, -⟩ := List.findIdx?_eq_some_iff_getElem.1 hi
  rw [placed, hi]
  refine List.ext_getElem? fun j => ?_
  rw [List.getElem?_map]
  rcases eq_or_ne i j with rfl | hne
  · rw [List.getElem?_set_self hlt, List.getElem?_eq_getElem hlt, Option.map_some,
      if_pos (beq_iff_eq.1 hfound)]
  · rw [List.getElem?_set_ne hne]
    cases hj : ms[j]? with
    | none => rfl
    | some x =>
      have hx : x.id ≠ m'.id := by
        intro he
        obtain ⟨hjlt, rfl⟩ := List.getElem?_eq_some_iff.1 hj
        have hsame : (ms.map MigrationDefinition.id)[i]? = (ms.map MigrationDefinition.id)[j]? := by
          rw [List.getElem?_map, List.getElem?_map, List.getElem?_eq_getElem hlt, hj, Option.map_some,
            Option.map_some,
            he, beq_iff_eq.1 hfound]
        exact hne ((List.getElem?_inj (by rwa [List.length_map]) hnodup).1 hsame)
      rw [Option.map_some, if_neg hx]

/-- Migrations are kept in the order of their versions. -/
theorem registerMigration_sorted (R : MigrationRunner) (locale : Collation)
    (calculateChecksum : String → String)
    (m : MigrationDefinition) : (R.registerMigration locale calculateChecksum m).migrations.Pairwise
      fun a b => locale.le (padStart 10 a.version) (padStart 10 b.version) := by
  let le (a b : MigrationDefinition) := locale.le (padStart 10 a.version) (padStart 10 b.version)
  have htrans : ∀ a b c, le a b → le b c → le a c := fun a b c => locale.trans _ _ _
  have htotal : ∀ a b, le a b || le b a := fun a b => locale.total _ _
  exact List.pairwise_mergeSort htrans htotal _

/-- A repair is the definition registered again, under the same id and version. -/
theorem registerMigration_repaired {locale : Collation} (calculateChecksum : String → String)
    (hsorted : R.migrations.Pairwise fun a b => locale.le (padStart 10 a.version) (padStart 10 b.version))
    (hm : m ∈ R.migrations) (hid : m'.id = m.id) (hversion : m'.version = m.version) :
    R.registerMigration locale calculateChecksum m' =
      R.repaired { m' with checksum := some (checksumOf calculateChecksum m') } := by
  generalize hfilled : ({ m' with checksum := some (checksumOf calculateChecksum m')
    } : MigrationDefinition) = x'
  have hid' : x'.id = m.id := by rw [← hfilled, hid]
  have hkeep : ∀ x ∈ R.migrations, (if x.id = x'.id then x' else x).version = x.version := by
    intro x hx
    split
    · rename_i he
      obtain rfl := List.inj_on_of_nodup_map R.nodup hx hm (he.trans hid')
      rw [← hfilled, hversion]
    · rfl
  have hregistered : (R.registerMigration locale calculateChecksum m').migrations =
      (placed R.migrations x').mergeSort fun a b => locale.le (padStart 10 a.version)
        (padStart 10 b.version) := by
    rw [← hfilled]
    rfl
  have hmigrations : (R.registerMigration locale calculateChecksum m').migrations =
      (R.repaired x').migrations := by
    rw [hregistered, placed_eq_map R.nodup hm hid']
    refine List.mergeSort_of_pairwise ?_
    rw [List.pairwise_map]
    refine hsorted.imp_of_mem fun {a b} ha hb h => ?_
    rw [hkeep a ha, hkeep b hb]
    exact h
  exact MigrationRunner.ext hmigrations rfl rfl rfl

end

/-! ## The theorem -/

/-- **A failed run is clean, and the next one goes on from there.** -/
theorem up_clean_and_resumable {left : Db D} {err : String} (h : Ready R env {} db)
    (hpending : R.pending {} (applied env db) = pre ++ m :: post)
    (hpre : applyAll env R.tableName (nextBatch env db) pre db = some db₁)
    (hfails : tryUp env R.tableName (nextBatch env db) m db₁ = .error (left, err)) :
    -- the run
    R.up env {} db = (db₁, .error (failure m err)) ∧ Clean R db₁ ∧
      db₁.table = db.table ++ pre.map (recordOf (nextBatch env db)) ∧
    -- any runs after it
    (∀ (tr : List (Db D × Attempt D)) (db₂ : Db D), Run (fun db a db' => a.Steps db db') db₁ tr db₂ →
      (∀ p ∈ tr, p.2.Of R db₁) → ∃ done, Reached R db₁ done db₂) ∧
    -- the run that goes through
    (∀ (m' : MigrationDefinition) (env' : Env D) (db₂ : Db D), m'.id = m.id → m'.nonTransactional = false →
      env'.dialect.Keeps R.tableName → applyAll env' R.tableName (nextBatch env' db₁) (m' :: post) db₁ = some db₂ →
      (R.repaired m').up env' {} db₁ = (db₂, .ok ((m' :: post).map (recordOf (nextBatch env' db₁)))) ∧
        db₂.table = db.table ++ pre.map (recordOf (nextBatch env db)) ++
          (m' :: post).map (recordOf (nextBatch env' db₁)) ∧
        ((pre ++ m' :: post).map MigrationDefinition.id).Nodup ∧ Clean R db₂) ∧
    -- a repair is a definition that is registered again
    (∀ (locale : Collation) (calculateChecksum : String → String) (m' : MigrationDefinition), m'.id = m.id →
      m'.version = m.version →
      (R.migrations.Pairwise fun a b => locale.le (padStart 10 a.version) (padStart 10 b.version)) →
      R.registerMigration locale calculateChecksum m' =
        R.repaired { m' with checksum := some (checksumOf calculateChecksum m') }) ∧
    -- a run that is refused
    (∀ db' : Db D, R.lockKey ∈ db'.locks → (R.up env {} db').1 = db' ∧ ∃ e,
      (R.up env {} db').2 = .error e) := by
  have hclean : Clean R db₁ := Clean.applyAll ⟨h.free, h.closed, h.keys⟩ h.keeps hpending hpre
  have htable := table_of_applyAll h.keeps hpending hpre
  refine ⟨h.up_of_fails hpending hpre hfails, hclean, htable, ?_, ?_, ?_, ?_⟩
  · intro tr db₂ hrun hof
    exact reached_of_run hrun hclean hof
  · intro m' env' db₂ hid htx hkeeps hdone
    have hrest : (R.repaired m').pending {} (applied env' db₁) = m' :: post :=
      pending_repaired h.keeps hpending hpre hid
    have hready : Ready (R.repaired m') env' {} db₁ := by
      refine ⟨hclean.free, hclean.closed, hclean.keys, hkeeps, verified_repaired h hpending hpre hclean
        hid, h.wet, ?_⟩
      rw [hrest, List.forall_mem_cons]
      exact ⟨htx, fun x hx => h.transactional x
        (hpending ▸ List.mem_append_right _ (List.mem_cons_of_mem _ hx))⟩
    have hup := hready.up_of_applies (hrest.symm ▸ hdone)
    have hclean' : Clean (R.repaired m') db₁ := ⟨hclean.free, hclean.closed, hclean.keys⟩
    have hsplit : (R.repaired m').pending {} (applied env' db₁) = (m' :: post) ++ [] := by
      rw [hrest, List.append_nil]
    obtain ⟨hfree, hclosed, hkeys⟩ := hclean'.applyAll hkeeps hsplit hdone
    have hnodup := pending_nodup (R := R) env db
    rw [hpending, List.map_append, List.map_cons, ← hid, ← List.map_cons, ← List.map_append] at hnodup
    rw [hrest] at hup
    refine ⟨hup, ?_, hnodup, hfree, hclosed, hkeys⟩
    rw [table_of_applyAll hkeeps hsplit hdone, htable]
  · intro locale calculateChecksum m' hid hversion hsorted
    have hm : m ∈ R.migrations := (mem_pending.1 (hpending ▸ List.mem_append_right _ List.mem_cons_self)).1
    exact registerMigration_repaired calculateChecksum hsorted hm hid hversion
  · intro db' hheld
    rw [up_refused hheld]
    exact ⟨rfl, _, rfl⟩

/-! ## An example -/

/-- Migrations that write their ids down; one of them fails after it has written. -/
def journal (failing : Option String) : Env (List String) where
  dialect := .sqlite
  collation := .binary
  sqlUp _ d := (d, none)
  sqlDown _ d := (d, none)
  up m d := if some m.id = failing then ("half" :: d, some "boom") else (m.id :: d, none)
  down _ d := (d.tail, none)

def migration (id : String) : MigrationDefinition := { id, version := id, name := id }

def three : MigrationRunner where
  migrations := [migration "1", migration "2", migration "3"]
  nodup := by decide

/-- The second of three migrations fails, and is registered again with another definition. -/
theorem up_clean_and_resumable_three :
    let db₁ : Db (List String) := ⟨["1"], [⟨"1", "1", "1", "", 1⟩], none, []⟩
    three.up (journal (some "2")) {} ⟨[], [], none, []⟩ = (db₁, .error (failure (migration "2") "boom")) ∧
      (three.registerMigration .binary id (migration "2")).up (journal none) {} db₁ =
        (⟨["3", "2", "1"], [⟨"1", "1", "1", "", 1⟩, ⟨"2", "2", "2", "2:2:2", 2⟩,
          ⟨"3", "3", "3", "", 2⟩], none, []⟩,
          .ok [⟨"2", "2", "2", "2:2:2", 2⟩, ⟨"3", "3", "3", "", 2⟩]) := by
  intro db₁
  let db : Db (List String) := ⟨[], [], none, []⟩
  have hready : Ready three (journal (some "2")) {} db :=
    ⟨by decide, rfl, by decide, by decide, rfl, rfl, by decide⟩
  have hpending : three.pending {} (applied (journal (some "2")) db) =
      [migration "1"] ++ migration "2" :: [migration "3"] := rfl
  have hpre : applyAll (journal (some "2")) three.tableName 1 [migration "1"] db = some db₁ := rfl
  have hfails : tryUp (journal (some "2")) three.tableName 1 (migration "2") db₁ =
      .error ({ db₁ with data := ["half", "1"] }, "boom") :=
    rfl
  have hsorted : three.migrations.Pairwise fun a b =>
      Collation.binary.le (padStart 10 a.version) (padStart 10 b.version) := by
    decide
  obtain ⟨hfailed, -, -, -, hrepaired, hregistered, -⟩ := up_clean_and_resumable hready hpending hpre hfails
  have hchecksum : checksumOf id (migration "2") = "2:2:2" := by decide
  rw [hregistered .binary id (migration "2") rfl rfl hsorted, hchecksum]
  exact ⟨hfailed, (hrepaired { migration "2" with checksum := some "2:2:2" } (journal none) _ rfl rfl
    (by decide) rfl).1⟩

end Migrations
