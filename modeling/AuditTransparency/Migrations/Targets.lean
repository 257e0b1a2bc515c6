/-
  Migrations up to a version, and down to it.

  The versions are numbers, of which the runner sees the decimal texts.  Registering sorts them by the texts
  padded to ten characters; a target is compared with the texts as they are.

  * `up_target`, `down_target`: what a run with a target does;
  * `agrees_iff`: when texts are in the order of the numbers;
  * `targets_iff`: when a run with a target takes the versions up to it, in order, or those above it.
-/
import AuditTransparency.Migrations.Numerals
import AuditTransparency.Migrations.Retries
import AuditTransparency.Migrations.RoundTrip

namespace Migrations

open Numerals Soroban

/-! ## Texts of numbers -/

/-- Digits are sorted as digits. -/
def Collation.OrdersDigits (locale : Collation) : Prop :=
  ∀ s t : String, Digits s.toList → Digits t.toList → (locale.le s t ↔ codeUnits s ≤ codeUnits t)

/-- The order of the code units. -/
def Collation.codeUnits : Collation where
  le s t := decide (Migrations.codeUnits s ≤ Migrations.codeUnits t)
  trans a b c hab hbc := decide_eq_true ((of_decide_eq_true hab).trans (of_decide_eq_true hbc))
  total a b := by
    rw [Bool.or_eq_true, decide_eq_true_eq, decide_eq_true_eq]
    exact le_total _ _

/-- The number of digits. -/
def width (n : ℕ) : ℕ := (Nat.toDigits 10 n).length

/-- The length of the text by which migrations are sorted. -/
def paddedWidth (n : ℕ) : ℕ := (10 - width n) + width n

theorem codeUnits_eq_codes {s : String} (h : Digits s.toList) : codeUnits s = codes s.toList := by
  have hsmall : ∀ c ∈ s.toList, (if c.toNat < 0x10000 then [c.toNat]
      else [0xD800 + (c.toNat - 0x10000) / 0x400, 0xDC00 + (c.toNat - 0x10000) % 0x400]) = [c.toNat] := by
    intro c hc
    have hbound := digit_bounds (h c hc)
    exact if_pos (by omega)
  rw [codeUnits, List.flatMap_congr hsmall, codes, ← List.flatMap_pure_eq_map]
  rfl

theorem toList_toString (n : ℕ) : (toString n).toList = Nat.toDigits 10 n := by
  rw [Nat.toString_eq_ofList_toDigits, String.toList_ofList]

theorem codeUnits_toString (n : ℕ) : codeUnits (toString n) = codes (Nat.toDigits 10 n) := by
  rw [codeUnits_eq_codes (toList_toString n ▸ digits_toDigits n), toList_toString]

theorem toList_padStart (n : ℕ) : (padStart 10 (toString n)).toList =
    List.replicate (10 - width n) '0' ++ Nat.toDigits 10 n := by
  rw [padStart, String.toList_append, String.toList_ofList, toList_toString, codeUnits_toString, codes,
    List.length_map]
  rfl

theorem codeUnits_padStart (n : ℕ) : codeUnits (padStart 10 (toString n)) =
    codes (List.replicate (10 - width n) '0' ++ Nat.toDigits 10 n) := by
  rw [codeUnits_eq_codes (toList_padStart n ▸ digits_pad _ n), toList_padStart]

/-- The texts of two numbers are in their order. -/
def Agrees (w : ℕ → ℕ) (a b : ℕ) : Prop :=
  (a < b → Below (w a) (w b) a b) ∧ (b < a → Below (w b) (w a) b a)

instance (w : ℕ → ℕ) (a b : ℕ) : Decidable (Agrees w a b) := instDecidableAnd

theorem Agrees.symm {w : ℕ → ℕ} {a b : ℕ} (h : Agrees w a b) : Agrees w b a := ⟨h.2, h.1⟩

theorem Agrees.refl (w : ℕ → ℕ) (a : ℕ) : Agrees w a a :=
  ⟨fun h => absurd h (lt_irrefl a), fun h => absurd h (lt_irrefl a)⟩

theorem agrees_iff (v t : ℕ) :
    (codeUnits (toString v) ≤ codeUnits (toString t) ↔ v ≤ t) ↔ Agrees width v t := by
  have h := codes_le_agrees_iff (digits_toDigits v) (digits_toDigits t)
    (fun h => length_toDigits_mono (by rwa [value_toDigits, value_toDigits] at h))
    fun h => length_toDigits_mono (by rwa [value_toDigits, value_toDigits] at h)
  rwa [value_toDigits, value_toDigits, ← codeUnits_toString, ← codeUnits_toString] at h

/-- A target below zero is before every version. -/
theorem codeUnits_negative (v t : ℕ) : ¬codeUnits (toString v) ≤ codeUnits (toString (Int.negSucc t)) := by
  have hminus : codeUnits (toString (Int.negSucc t)) = 45 :: codeUnits (toString (t + 1)) := by
    have htext : toString (Int.negSucc t) = "-" ++ toString (t + 1) := rfl
    rw [htext, codeUnits, String.toList_append, List.flatMap_append]
    rfl
  obtain ⟨c, l, hcl⟩ := List.exists_cons_of_ne_nil (Nat.toDigits_ne_nil (n := v) (b := 10))
  have hc := (hcl ▸ digits_toDigits v : Digits (c :: l)).head
  rw [hminus, codeUnits_toString, hcl]
  refine not_le.2 (List.cons_lt_cons_iff.2 (.inl ?_))
  omega

theorem paddedWidth_mono {a b : ℕ} (h : a ≤ b) : paddedWidth a ≤ paddedWidth b := by
  have := length_toDigits_mono h
  rw [paddedWidth, paddedWidth, width, width]
  omega

theorem padded_agrees_iff (a b : ℕ) :
    (codeUnits (padStart 10 (toString a)) ≤ codeUnits (padStart 10 (toString b)) ↔ a ≤ b) ↔
      Agrees paddedWidth a b := by
  have hlen : ∀ n, (List.replicate (10 - width n) '0' ++ Nat.toDigits 10 n).length = paddedWidth n := by
    intro n
    rw [List.length_append, List.length_replicate]
    rfl
  have h := codes_le_agrees_iff (digits_pad (10 - width a) a) (digits_pad (10 - width b) b)
    (fun h => by
      rw [value_pad, value_pad] at h
      rw [hlen, hlen]
      exact paddedWidth_mono h)
    fun h => by
      rw [value_pad, value_pad] at h
      rw [hlen, hlen]
      exact paddedWidth_mono h
  rwa [value_pad, value_pad, hlen, hlen, ← codeUnits_padStart, ← codeUnits_padStart] at h

/-- Up to ten digits, all texts are padded to the same length. -/
theorem agrees_paddedWidth {a b : ℕ} (ha : a < 10 ^ 10) (hb : b < 10 ^ 10) : Agrees paddedWidth a b := by
  have hten : ∀ n : ℕ, n < 10 ^ 10 → paddedWidth n = 10 := by
    intro n hn
    have hlen := (Nat.length_toDigits_le_iff (by decide) (by decide)).2 hn
    rw [paddedWidth, width]
    omega
  rw [Agrees, hten a ha, hten b hb]
  exact ⟨fun h => Nat.mul_le_mul_right _ h.le, fun h => Nat.mul_le_mul_right _ h.le⟩

theorem le_target_iff (v : ℕ) (t : ℤ) : (codeUnits (toString v) ≤ codeUnits (toString t) ↔ (v : ℤ) ≤ t) ↔
    ∀ k : ℕ, t = k → Agrees width v k := by
  cases t with
  | ofNat k =>
    have hcast : ((v : ℤ) ≤ Int.ofNat k) ↔ v ≤ k := Int.ofNat_le
    have htext : toString (Int.ofNat k) = toString k := rfl
    rw [hcast, htext, agrees_iff]
    constructor
    · intro h k' hk
      rwa [← Int.ofNat.inj hk]
    · exact fun h => h k rfl
  | negSucc k =>
    refine iff_of_true (iff_of_false (codeUnits_negative v k) ?_) ?_
    · exact not_le.2 ((Int.negSucc_lt_zero k).trans_le (Int.natCast_nonneg v))
    · intro k' hk
      cases hk

/-! ## Runs with a target -/

/-- The versions of the registered migrations are different numbers. -/
structure Numbered (R : MigrationRunner) (number : MigrationDefinition → ℕ) : Prop where
  version_eq : ∀ m ∈ R.migrations, m.version = toString (number m)
  distinct : ∀ a ∈ R.migrations, ∀ b ∈ R.migrations, number a = number b → a = b

/-- The table records some of the registered migrations. -/
structure AppliedSubset (R : MigrationRunner) (table : List MigrationRecord) : Prop where
  keys : (table.map MigrationRecord.id).Nodup
  rows : ∀ r ∈ table, ∃ m ∈ R.migrations, ∃ batch, r = recordOf batch m

section
variable {D : Type} (I : Interpretation D) (dialect : Dialect) (collation : Collation) (R : MigrationRunner)
  (number : MigrationDefinition → ℕ) (table : List MigrationRecord) (data : D) (t : ℤ)

/-- `up` with the target `t` applies the migrations that are not recorded and not after it, in order. -/
def AppliesUpTo : Prop :=
  let batch := nextBatch (I.env dialect collation) (idle data table)
  ∃ ms : List MigrationDefinition, (ms.Pairwise fun a b => number a < number b) ∧
    (∀ m, m ∈ ms ↔ m ∈ R.migrations ∧ m.id ∉ table.map MigrationRecord.id ∧ (number m : ℤ) ≤ t) ∧
    R.up (I.env dialect collation) { targetVersion := some (toString t) } (idle data table) =
      (idle (ms.foldl I.forth data) (table ++ ms.map (recordOf batch)), .ok (ms.map (recordOf batch)))

/-- `down` with the target `t` rolls back the migrations that are recorded and after it. -/
def RollsBackAbove : Prop :=
  ∃ rs : List MigrationRecord, rs.Nodup ∧
    (∀ r, r ∈ rs ↔ r ∈ table ∧ ∃ m ∈ R.migrations, m.id = r.id ∧ t < number m) ∧
    R.down (I.env dialect collation) { targetVersion := some (toString t) } (idle data table) =
      (idle ((rs.filterMap (definition? R)).foldl I.back data) (table.filter (· ∉ rs)), .ok rs)

end

variable {D : Type} {I : Interpretation D} {dialect : Dialect} {collation : Collation} {R : MigrationRunner}
  {number : MigrationDefinition → ℕ} {table : List MigrationRecord} {data : D} {t : ℤ}

/-- A record of a registered migration. -/
theorem AppliedSubset.definition (h : AppliedSubset R table) {r : MigrationRecord} (hr : r ∈ table) :
    ∃ m ∈ R.migrations, definition? R r = some m ∧ m.id = r.id ∧ m.version = r.version := by
  obtain ⟨m, hm, batch, rfl⟩ := h.rows r hr
  exact ⟨m, hm, definition_recordOf hm, rfl, rfl⟩

/-- The checksums are those that were recorded. -/
theorem AppliedSubset.verified (h : AppliedSubset R table) :
    R.verifyChecksums (applied (I.env dialect collation) (idle data table)) = none := by
  have hperm := applied_perm (I.env dialect collation) (idle data table)
  refine verified_iff.2 (.inr fun x hx => ?_)
  rw [mismatch_eq_none ((hperm.map _).nodup_iff.2 h.keys)]
  intro r hr hid
  obtain ⟨m, hm, batch, rfl⟩ := h.rows r (hperm.mem_iff.1 hr)
  obtain rfl := List.inj_on_of_nodup_map R.nodup hm hx hid
  refine .inr fun c hc => ?_
  rw [given, Option.mem_def, Option.filter_eq_some_iff] at hc
  rw [recordOf, hc.1]
  rfl

theorem filterMap_recordOf (batch : ℕ) {ms : List MigrationDefinition} (h : ∀ m ∈ ms, m ∈ R.migrations) :
    (ms.map (recordOf batch)).filterMap (definition? R) = ms := by
  induction ms with
  | nil => rfl
  | cons m ms ih =>
    rw [List.map_cons, List.filterMap_cons, definition_recordOf (h m List.mem_cons_self),
      ih fun x hx => h x (List.mem_cons_of_mem _ hx)]

/-- The migrations that `up` with a target takes. -/
def taken (env : Env D) (R : MigrationRunner) (target : String) (db : Db D) : List MigrationDefinition :=
  (R.pending {} (applied env db)).filter fun m => codeUnits m.version ≤ codeUnits target

theorem mem_taken {env : Env D} {db : Db D} {target : String} {m : MigrationDefinition} :
    m ∈ taken env R target db ↔
      (m ∈ R.migrations ∧ m.id ∉ db.table.map MigrationRecord.id) ∧
        codeUnits m.version ≤ codeUnits target := by
  rw [taken, List.mem_filter, mem_pending, decide_eq_true_eq]
  rfl

/-- What `up` does with a target. -/
theorem up_target (hkeeps : dialect.Keeps R.tableName) (hs : AppliedSubset R table) (hdry : R.dryRun = false)
    (target : String) :
    let ms := taken (I.env dialect collation) R target (idle data table)
    let batch := nextBatch (I.env dialect collation) (idle data table)
    R.up (I.env dialect collation) { targetVersion := some target } (idle data table) =
      (idle (ms.foldl I.forth data) (table ++ ms.map (recordOf batch)), .ok (ms.map (recordOf batch))) :=
  up_idle { targetVersion := some target } hkeeps hs.verified hdry

/-- What `down` does with a target. -/
theorem down_target (hkeeps : dialect.Keeps R.tableName) (hs : AppliedSubset R table)
    (hdry : R.dryRun = false) (target : String) :
    let rs := toRollback { targetVersion := some target }
      (applied (I.env dialect collation) (idle data table))
    R.down (I.env dialect collation) { targetVersion := some target } (idle data table) =
      (idle ((rs.filterMap (definition? R)).foldl I.back data) (table.filter (· ∉ rs)), .ok rs) := by
  intro rs
  have hmem : ∀ r ∈ rs, r ∈ table := fun r hr =>
    (applied_perm (I.env dialect collation) (idle data table)).mem_iff.1
      (List.mem_of_mem_filter (List.mem_reverse.1 hr))
  have hregistered : ∀ r ∈ rs, (definition? R r).isSome := by
    intro r hr
    obtain ⟨m, -, hm, -⟩ := hs.definition (hmem r hr)
    rw [hm]
    rfl
  have hids : ∀ r ∈ table, (r.id ∉ (rs.filterMap (definition? R)).map MigrationDefinition.id ↔ r ∉ rs) := by
    intro r hr
    refine not_congr ⟨fun h => ?_, fun h => ?_⟩
    · obtain ⟨m, hm, hid⟩ := List.mem_map.1 h
      obtain ⟨r', hr', hdef⟩ := List.mem_filterMap.1 hm
      obtain ⟨m', -, hdef', hid', -⟩ := hs.definition (hmem r' hr')
      obtain rfl := Option.some.inj (hdef.symm.trans hdef')
      rwa [List.inj_on_of_nodup_map hs.keys hr (hmem r' hr') (hid.symm.trans hid')]
    · obtain ⟨m, -, hdef, hid, -⟩ := hs.definition hr
      exact List.mem_map.2 ⟨m, List.mem_filterMap.2 ⟨r, h, hdef⟩, hid⟩
  have htable : table.filter (fun r => r.id ∉ (rs.filterMap (definition? R)).map MigrationDefinition.id) =
      table.filter (· ∉ rs) :=
    List.filter_congr fun r hr => decide_eq_decide.2 (hids r hr)
  have hclosed : ((idle data table).reframe none [R.lockKey]).savepoint = none := rfl
  rw [down_idle_opts { targetVersion := some target } hdry, rollbackAll_total hclosed hregistered,
    foldl_downOne hkeeps]
  refine Prod.ext ?_ rfl
  refine (congrArg (fun locks => (⟨_, _, none, locks⟩ : Db D)) (filter_lockKey R)).trans ?_
  exact congrArg (fun table => idle _ table) htable

/-! ## The order of versions -/

theorem taken_subset {env : Env D} {target : String} {db : Db D} :
    ∀ m ∈ taken env R target db, m ∈ R.migrations :=
  fun _ hm => (mem_taken.1 hm).1.1

theorem taken_sublist (env : Env D) (target : String) (db : Db D) :
    (taken env R target db).Sublist R.migrations :=
  List.filter_sublist.trans List.filter_sublist

/-- Sorted by their padded texts, migrations are in order exactly if the texts are. -/
theorem sorted_iff {locale : Collation} (hlocale : locale.OrdersDigits) (hn : Numbered R number)
    {ms : List MigrationDefinition} (hsub : ms.Sublist R.migrations)
    (hsorted : R.migrations.Pairwise fun a b => locale.le (padStart 10 a.version) (padStart 10 b.version)) :
    (ms.Pairwise fun a b => number a < number b) ↔
      ∀ a ∈ ms, ∀ b ∈ ms, Agrees paddedWidth (number a) (number b) := by
  have hle : ∀ a ∈ ms, ∀ b ∈ ms, (locale.le (padStart 10 a.version) (padStart 10 b.version) ↔
      codeUnits (padStart 10 (toString (number a))) ≤ codeUnits (padStart 10 (toString (number b)))) := by
    intro a ha b hb
    rw [hn.version_eq a (hsub.subset ha), hn.version_eq b (hsub.subset hb)]
    refine hlocale _ _ ?_ ?_
    · rw [toList_padStart]
      exact digits_pad _ _
    · rw [toList_padStart]
      exact digits_pad _ _
  have hsorted' := hsorted.sublist hsub
  constructor
  · intro h
    have hagrees : ms.Pairwise fun a b => Agrees paddedWidth (number a) (number b) :=
      (hsorted'.and h).imp_of_mem fun {a b} ha hb hab =>
        (padded_agrees_iff _ _).1 (iff_of_true ((hle a ha b hb).1 hab.1) hab.2.le)
    intro a ha b hb
    exact List.Pairwise.forall_of_forall_of_flip (fun m _ => Agrees.refl paddedWidth (number m)) hagrees
      (hagrees.imp Agrees.symm) ha hb
  · intro h
    have hnodup : ms.Nodup := (R.nodup.sublist (hsub.map _)).of_map
    refine (hsorted'.and hnodup).imp_of_mem fun {a b} ha hb hab => ?_
    have hnumbers := ((padded_agrees_iff _ _).2 (h a ha b hb)).1 ((hle a ha b hb).1 hab.1)
    exact lt_of_le_of_ne hnumbers fun he => hab.2 (hn.distinct a (hsub.subset ha) b (hsub.subset hb) he)

theorem registerMigrations_sorted (locale : Collation) (calculateChecksum : String → String)
    (ms : List MigrationDefinition)
    (h : R.migrations.Pairwise fun a b => locale.le (padStart 10 a.version) (padStart 10 b.version)) :
    (R.registerMigrations locale calculateChecksum ms).migrations.Pairwise
      fun a b => locale.le (padStart 10 a.version) (padStart 10 b.version) := by
  induction ms generalizing R with
  | nil => exact h
  | cons m ms ih => exact ih (registerMigration_sorted R locale calculateChecksum m)

theorem registerMigrations_dryRun (R : MigrationRunner) (locale : Collation)
    (calculateChecksum : String → String) (ms : List MigrationDefinition) :
    (R.registerMigrations locale calculateChecksum ms).dryRun = R.dryRun := by
  induction ms generalizing R with
  | nil => rfl
  | cons m ms ih => exact ih (R.registerMigration locale calculateChecksum m)

theorem registerMigrations_tableName (R : MigrationRunner) (locale : Collation)
    (calculateChecksum : String → String) (ms : List MigrationDefinition) :
    (R.registerMigrations locale calculateChecksum ms).tableName = R.tableName := by
  induction ms generalizing R with
  | nil => rfl
  | cons m ms ih => exact ih (R.registerMigration locale calculateChecksum m)

/-! ## When targets are respected -/

theorem appliesUpTo_iff (hkeeps : dialect.Keeps R.tableName) (hs : AppliedSubset R table)
    (hdry : R.dryRun = false) :
    AppliesUpTo I dialect collation R number table data t ↔
      (∀ m ∈ R.migrations, m.id ∉ table.map MigrationRecord.id →
        (codeUnits m.version ≤ codeUnits (toString t) ↔ (number m : ℤ) ≤ t)) ∧
      (taken (I.env dialect collation) R (toString t) (idle data table)).Pairwise
        fun a b => number a < number b := by
  have hup : R.up (I.env dialect collation) { targetVersion := some (toString t) } (idle data table) = _ :=
    up_target hkeeps hs hdry (toString t)
  constructor
  · rintro ⟨ms, hpair, hmem, hms⟩
    have hmap := Except.ok.inj (congrArg Prod.snd (hup.symm.trans hms))
    have hsame : taken (I.env dialect collation) R (toString t) (idle data table) = ms := by
      rw [← filterMap_recordOf (nextBatch (I.env dialect collation) (idle data table)) taken_subset, hmap]
      exact filterMap_recordOf _ fun m hm => ((hmem m).1 hm).1
    rw [hsame]
    refine ⟨fun m hm hnew => ?_, hpair⟩
    constructor
    · intro hle
      exact ((hmem m).1 (hsame ▸ mem_taken.2 ⟨⟨hm, hnew⟩, hle⟩)).2.2
    · intro hle
      exact (mem_taken.1 (hsame ▸ (hmem m).2 ⟨hm, hnew, hle⟩)).2
  · rintro ⟨hagrees, hpair⟩
    refine ⟨_, hpair, fun m => ?_, hup⟩
    rw [mem_taken, and_assoc]
    exact and_congr_right fun hm => and_congr_right fun hnew => hagrees m hm hnew

theorem rollsBackAbove_iff (hkeeps : dialect.Keeps R.tableName) (hs : AppliedSubset R table)
    (hdry : R.dryRun = false) :
    RollsBackAbove I dialect collation R number table data t ↔
      ∀ r ∈ table, codeUnits (toString t) < codeUnits r.version ↔
        ∃ m ∈ R.migrations, m.id = r.id ∧ t < number m := by
  have hdown :
      R.down (I.env dialect collation) { targetVersion := some (toString t) } (idle data table) = _ :=
    down_target hkeeps hs hdry (toString t)
  have hperm := applied_perm (I.env dialect collation) (idle data table)
  have hmem : ∀ r, r ∈ toRollback { targetVersion := some (toString t) }
      (applied (I.env dialect collation) (idle data table)) ↔
        r ∈ table ∧ codeUnits (toString t) < codeUnits r.version := by
    intro r
    rw [toRollback, List.mem_reverse, List.mem_filter, hperm.mem_iff, decide_eq_true_eq]
    rfl
  constructor
  · rintro ⟨rs, -, hrs, hsame⟩ r hr
    have heq := Except.ok.inj (congrArg Prod.snd (hdown.symm.trans hsame))
    exact and_congr_right_iff.1 ((hmem r).symm.trans (heq ▸ hrs r)) hr
  · intro h
    refine ⟨_, ?_, fun r => ?_, hdown⟩
    · exact List.nodup_reverse.2 ((hperm.nodup_iff.2 hs.keys.of_map).filter _)
    · rw [hmem]
      exact and_congr_right fun hr => h r hr

/-- The records above a target, by the migrations that they record. -/
theorem rows_agree_iff (hs : AppliedSubset R table) :
    (∀ r ∈ table, codeUnits (toString t) < codeUnits r.version ↔
      ∃ m ∈ R.migrations, m.id = r.id ∧ t < number m) ↔
    ∀ m ∈ R.migrations, m.id ∈ table.map MigrationRecord.id →
      (codeUnits m.version ≤ codeUnits (toString t) ↔ (number m : ℤ) ≤ t) := by
  have hrow : ∀ m ∈ R.migrations, ∀ r ∈ table, m.id = r.id → m.version = r.version ∧
      ((∃ m ∈ R.migrations, m.id = r.id ∧ t < number m) ↔ t < number m) := by
    intro m hm r hr hid
    obtain ⟨m', hm', -, hid', hversion⟩ := hs.definition hr
    obtain rfl := List.inj_on_of_nodup_map R.nodup hm hm' (hid.trans hid'.symm)
    refine ⟨hversion, fun ⟨x, hx, hxid, hlt⟩ => ?_, fun hlt => ⟨m, hm, hid, hlt⟩⟩
    rwa [← List.inj_on_of_nodup_map R.nodup hx hm (hxid.trans hid.symm)]
  constructor
  · intro h m hm hmem
    obtain ⟨r, hr, hid⟩ := List.mem_map.1 hmem
    obtain ⟨hversion, hexists⟩ := hrow m hm r hr hid.symm
    rw [← not_lt, ← not_lt, hversion]
    exact not_congr ((h r hr).trans hexists)
  · intro h r hr
    obtain ⟨m, hm, -, hid, -⟩ := hs.definition hr
    obtain ⟨hversion, hexists⟩ := hrow m hm r hr hid
    rw [hexists, ← hversion, ← not_le, ← not_le]
    exact not_congr (h m hm (List.mem_map.2 ⟨r, hr, hid.symm⟩))

/-- **Targets.**  Runs with a target take the right versions in the right order exactly if the text of each
    version is in its order with the target, and the padded texts of those to apply among themselves. -/
theorem targets_iff {locale : Collation} (hlocale : locale.OrdersDigits) (calculateChecksum : String → String)
    {R₀ : MigrationRunner} (hempty : R₀.migrations = []) (hdry : R₀.dryRun = false)
    (hkeeps : dialect.Keeps R₀.tableName) (registered : List MigrationDefinition) :
    let R := R₀.registerMigrations locale calculateChecksum registered
    Numbered R number → AppliedSubset R table →
      (AppliesUpTo I dialect collation R number table data t ∧
        RollsBackAbove I dialect collation R number table data t ↔
      (∀ m ∈ R.migrations, ∀ k : ℕ, t = k → Agrees width (number m) k) ∧
        ∀ a ∈ R.migrations, ∀ b ∈ R.migrations, a.id ∉ table.map MigrationRecord.id →
          b.id ∉ table.map MigrationRecord.id → number a ≤ t → number b ≤ t →
            Agrees paddedWidth (number a) (number b)) := by
  intro R hn hs
  have hdryR : R.dryRun = false :=
    (registerMigrations_dryRun R₀ locale calculateChecksum registered).trans hdry
  have hkeepsR : dialect.Keeps R.tableName :=
    registerMigrations_tableName R₀ locale calculateChecksum registered ▸ hkeeps
  have hsorted := registerMigrations_sorted (R := R₀) locale calculateChecksum registered
    (by rw [hempty]; exact .nil)
  have hagrees : ∀ m ∈ R.migrations, (codeUnits m.version ≤ codeUnits (toString t) ↔ (number m : ℤ) ≤ t) ↔
      ∀ k : ℕ, t = k → Agrees width (number m) k := by
    intro m hm
    rw [hn.version_eq m hm]
    exact le_target_iff (number m) t
  rw [appliesUpTo_iff hkeepsR hs hdryR, rollsBackAbove_iff hkeepsR hs hdryR, rows_agree_iff hs,
    sorted_iff hlocale hn (taken_sublist _ _ _) hsorted]
  constructor
  · rintro ⟨⟨hnew, horder⟩, hold⟩
    refine ⟨fun m hm => (hagrees m hm).1 ?_, fun a ha b hb hna hnb hat hbt => ?_⟩
    · by_cases hrecorded : m.id ∈ table.map MigrationRecord.id
      · exact hold m hm hrecorded
      · exact hnew m hm hrecorded
    · exact horder a (mem_taken.2 ⟨⟨ha, hna⟩, (hnew a ha hna).2 hat⟩) b
        (mem_taken.2 ⟨⟨hb, hnb⟩, (hnew b hb hnb).2 hbt⟩)
  · rintro ⟨htarget, horder⟩
    refine ⟨⟨fun m hm _ => (hagrees m hm).2 (htarget m hm), fun a ha b hb => ?_⟩,
      fun m hm _ => (hagrees m hm).2 (htarget m hm)⟩
    obtain ⟨⟨hma, hna⟩, hat⟩ := mem_taken.1 ha
    obtain ⟨⟨hmb, hnb⟩, hbt⟩ := mem_taken.1 hb
    exact horder a hma b hmb hna hnb (((hagrees a hma).2 (htarget a hma)).1 hat)
      (((hagrees b hmb).2 (htarget b hmb)).1 hbt)

/-! ## Two migrations -/

/-- A migration with its checksum. -/
def filled (calculateChecksum : String → String) (m : MigrationDefinition) : MigrationDefinition :=
  { m with checksum := some (checksumOf calculateChecksum m) }

theorem registerMigrations_pair {locale : Collation} (calculateChecksum : String → String)
    {a b : MigrationDefinition} (hid : a.id ≠ b.id)
    (hle : locale.le (padStart 10 a.version) (padStart 10 b.version)) :
    (({} : MigrationRunner).registerMigrations locale calculateChecksum [a, b]).migrations =
      [filled calculateChecksum a, filled calculateChecksum b] := by
  let le (a b : MigrationDefinition) := locale.le (padStart 10 a.version) (padStart 10 b.version)
  have hfirst : (placed [] (filled calculateChecksum a)).mergeSort le = [filled calculateChecksum a] :=
    List.mergeSort_singleton _
  have hsecond : placed [filled calculateChecksum a] (filled calculateChecksum b) =
      [filled calculateChecksum a, filled calculateChecksum b] := by
    rw [placed, List.findIdx?_cons, if_neg (by simpa [filled] using hid)]
    rfl
  have hmigrations : (({} : MigrationRunner).registerMigrations locale calculateChecksum [a, b]).migrations =
      (placed ((placed [] (filled calculateChecksum a)).mergeSort le) (filled calculateChecksum b)).mergeSort
        le := rfl
  rw [hmigrations, hfirst, hsecond]
  exact List.mergeSort_of_pairwise (List.pairwise_pair.2 hle)

/-- A runner with two migrations. -/
def pairOf (v w : String) : MigrationRunner :=
  ({} : MigrationRunner).registerMigrations .codeUnits id [migration v, migration w]

/-- The number that the version is. -/
def numberOf (m : MigrationDefinition) : ℕ := value m.version.toList

theorem pairOf_migrations {v w : String} (hne : v ≠ w)
    (hle : Collation.codeUnits.le (padStart 10 v) (padStart 10 w)) :
    (pairOf v w).migrations = [filled id (migration v), filled id (migration w)] :=
  registerMigrations_pair id hne hle

theorem targets_iff_pair :
    AppliesUpTo (Interpretation.nothing Unit) .sqlite .codeUnits (pairOf "1" "2") numberOf [] () 1 ∧
      RollsBackAbove (Interpretation.nothing Unit) .sqlite .codeUnits (pairOf "1" "2") numberOf [] () 1 := by
  have hms := pairOf_migrations (v := "1") (w := "2") (by decide) (by decide)
  have hlocale : Collation.codeUnits.OrdersDigits := fun s t _ _ => decide_eq_true_iff
  have hn : Numbered (pairOf "1" "2") numberOf := by
    refine ⟨?_, ?_⟩
    · rw [hms]
      decide
    · rw [hms]
      decide
  have hs : AppliedSubset (pairOf "1" "2") [] := ⟨.nil, by simp⟩
  have hsmall : ∀ m ∈ (pairOf "1" "2").migrations, numberOf m = 1 ∨ numberOf m = 2 := by
    rw [hms]
    decide
  refine (targets_iff hlocale id rfl rfl (fun _ => rfl) [migration "1", migration "2"] hn hs).2
    ⟨fun m hm k hk => ?_, ?_⟩
  · obtain rfl : k = 1 := by omega
    rcases hsmall m hm with h | h
    · rw [h]
      decide
    · rw [h]
      decide
  · intro a ha b hb _ _ _ _
    refine agrees_paddedWidth ?_ ?_
    · rcases hsmall a ha with h | h <;> omega
    · rcases hsmall b hb with h | h <;> omega

/-- Up to version 10, version 9 is not applied; down to version 9, version 10 is not rolled back. -/
theorem nine_after_ten :
    Numbered (pairOf "9" "10") numberOf ∧
    ¬AppliesUpTo (Interpretation.nothing Unit) .sqlite .codeUnits (pairOf "9" "10") numberOf [] () 10 ∧
    ¬RollsBackAbove (Interpretation.nothing Unit) .sqlite .codeUnits (pairOf "9" "10") numberOf
      [recordOf 1 (filled id (migration "9")), recordOf 1 (filled id (migration "10"))] () 9 := by
  have hms := pairOf_migrations (v := "9") (w := "10") (by decide) (by decide)
  have hn : Numbered (pairOf "9" "10") numberOf := by
    refine ⟨?_, ?_⟩
    · rw [hms]
      decide
    · rw [hms]
      decide
  have hnine : filled id (migration "9") ∈ (pairOf "9" "10").migrations := by
    rw [hms]
    exact List.mem_cons_self
  have hten : filled id (migration "10") ∈ (pairOf "9" "10").migrations := by
    rw [hms]
    exact List.mem_cons_of_mem _ List.mem_cons_self
  refine ⟨hn, fun h => ?_, fun h => ?_⟩
  · have hs : AppliedSubset (pairOf "9" "10") [] := ⟨.nil, by simp⟩
    have hle := ((appliesUpTo_iff (fun _ => rfl) hs rfl).1 h).1 _ hnine List.not_mem_nil
    exact absurd (hle.2 (by decide)) (by decide)
  · have hs : AppliedSubset (pairOf "9" "10")
        [recordOf 1 (filled id (migration "9")), recordOf 1 (filled id (migration "10"))] := by
      refine ⟨by decide, fun r hr => ?_⟩
      rcases List.mem_pair.1 hr with rfl | rfl
      · exact ⟨_, hnine, 1, rfl⟩
      · exact ⟨_, hten, 1, rfl⟩
    have hgt := (rollsBackAbove_iff (fun _ => rfl) hs rfl).1 h _ (List.mem_pair.2 (.inr rfl))
    exact absurd (hgt.2 ⟨_, hten, rfl, by decide⟩) (by decide)

end Migrations
