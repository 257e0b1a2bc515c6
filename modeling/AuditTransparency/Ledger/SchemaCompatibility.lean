/-
  AuditLedger — the compatibility of two schemas.

  Schemas of one format are compared by their required names: as lists for full compatibility, as
  sets for compatibility in one direction, and by their versions where neither holds.

  * `checkSchemaCompatibility_run`: the check returns `compatibility`, which is `evolution` of the
    two lists of names if the formats agree;
  * `evolution_backward_iff`, `evolution_forward_iff`: more and fewer names, so the two directions
    are dual;
  * `definitionOf`: a definition with given names;
  * `compatibility_dual_iff`: the order of the names does not matter exactly if the formats or the
    sets of names differ, or nothing is required.
-/
import AuditTransparency.Ledger.RequiredFields
import AuditTransparency.Ledger.Schemas

namespace AuditLedger

open Soroban
open Soroban.Call hiding hasPers publish
open Soroban.Utf8 Soroban.JsonText

variable {D : Type} [DecidableEq D] {H : Host D} {env : Env} {s : State D} {x y left right : Schema}
  {v w : ℕ} {names l m l' m' : List Bytes} {n d d' : Bytes}

/-! ## The check -/

/-- `contains_all` -/
def containsAll (left right : List Bytes) : Bool := right.all fun value => left.contains value

/-- `check_schema_compatibility` -/
def checkSchemaCompatibility (left right : Schema) : Fn D SchemaCompatibility := do
  requireInitialized
  if left.format ≠ right.format then return .breaking
  if left.definition = right.definition ∧ left.version = right.version then return .full
  let leftRequired ← unwrap (requiredFields left.definition)
  let rightRequired ← unwrap (requiredFields right.definition)
  if leftRequired = rightRequired then return .full
  if containsAll leftRequired rightRequired ∧ ¬containsAll rightRequired leftRequired then return .backward
  if containsAll rightRequired leftRequired ∧ ¬containsAll leftRequired rightRequired then return .forward
  if left.version < right.version then return .breaking
  if right.version < left.version then return .breaking
  return .unknown

/-- `is_backward_compatible` -/
def isBackwardCompatible (left right : Schema) : Fn D Bool := do
  requireInitialized
  let compatibility ← checkSchemaCompatibility left right
  return compatibility = .full ∨ compatibility = .backward

/-- `is_forward_compatible` -/
def isForwardCompatible (left right : Schema) : Fn D Bool := do
  requireInitialized
  let compatibility ← checkSchemaCompatibility left right
  return compatibility = .full ∨ compatibility = .forward

/-- What the required names and the versions decide. -/
def evolution (v w : ℕ) (l m : List Bytes) : SchemaCompatibility :=
  if l = m then .full
  else if m ⊆ l ∧ ¬l ⊆ m then .backward
  else if l ⊆ m ∧ ¬m ⊆ l then .forward
  else if v = w then .unknown
  else .breaking

/-- What the check decides. -/
def compatibility (left right : Schema) : SchemaCompatibility :=
  if left.format = right.format then
    evolution left.version right.version (fieldsOf left.definition) (fieldsOf right.definition)
  else .breaking

theorem containsAll_iff : containsAll l m = true ↔ m ⊆ l := by
  rw [containsAll, List.all_eq_true]
  simp only [List.contains_iff_mem]
  rfl

theorem evolution_self : evolution v w l l = .full := if_pos rfl

theorem Deployed.checkSchemaCompatibility_run (h : Deployed s) :
    (checkSchemaCompatibility left right).run env s = .ok (compatibility left right, s) := by
  rw [checkSchemaCompatibility, run_bind_ok _ _ h.requireInitialized_run, compatibility]
  simp only [requiredFields_eq, containsAll_iff]
  by_cases hf : left.format = right.format
  · rw [if_neg (not_not.2 hf), if_pos hf]
    by_cases hsame : left.definition = right.definition ∧ left.version = right.version
    · rw [if_pos hsame, hsame.1, evolution_self]
      rfl
    · rw [if_neg hsame, run_bind_ok _ _ (run_unwrap_some ..), run_bind_ok _ _ (run_unwrap_some ..), evolution]
      simp only [run_ite, run_pure]
      split_ifs <;> first | rfl | omega
  · rw [if_pos hf, if_neg hf]
    rfl

theorem Deployed.isBackwardCompatible_run (h : Deployed s) : (isBackwardCompatible left right).run env s =
    .ok (compatibility left right = .full ∨ compatibility left right = .backward, s) := by
  rw [isBackwardCompatible, run_bind_ok _ _ h.requireInitialized_run,
    run_bind_ok _ _ h.checkSchemaCompatibility_run, run_pure]

theorem Deployed.isForwardCompatible_run (h : Deployed s) : (isForwardCompatible left right).run env s =
    .ok (compatibility left right = .full ∨ compatibility left right = .forward, s) := by
  rw [isForwardCompatible, run_bind_ok _ _ h.requireInitialized_run,
    run_bind_ok _ _ h.checkSchemaCompatibility_run, run_pure]

/-! ## The two directions -/

theorem evolution_full_iff : evolution v w l m = .full ↔ l = m := by
  unfold evolution
  split_ifs <;> simp_all

theorem evolution_backward_iff : evolution v w l m = .backward ↔ m ⊆ l ∧ ¬l ⊆ m := by
  unfold evolution
  split_ifs with heq <;> simp_all

theorem evolution_forward_iff : evolution v w l m = .forward ↔ l ⊆ m ∧ ¬m ⊆ l := by
  unfold evolution
  split_ifs with heq <;> simp_all

theorem compatibility_full_comm : compatibility left right = .full ↔ compatibility right left = .full := by
  unfold compatibility
  by_cases hf : left.format = right.format
  · rw [if_pos hf, if_pos hf.symm, evolution_full_iff, evolution_full_iff, eq_comm]
  · rw [if_neg hf, if_neg (Ne.symm hf)]

/-- **The two directions are dual.** -/
theorem compatibility_dual : compatibility left right = .backward ↔ compatibility right left = .forward := by
  unfold compatibility
  by_cases hf : left.format = right.format
  · rw [if_pos hf, if_pos hf.symm, evolution_backward_iff, evolution_forward_iff]
  · rw [if_neg hf, if_neg (Ne.symm hf)]
    exact ⟨nofun, nofun⟩

/-- A schema is backward compatible with another if this one is forward compatible with it. -/
theorem isBackwardCompatible_comm (h : Deployed s) :
    (isBackwardCompatible left right).run env s = (isForwardCompatible right left).run env s := by
  rw [h.isBackwardCompatible_run, h.isForwardCompatible_run]
  have hfull : compatibility left right = .full ↔ compatibility right left = .full := compatibility_full_comm
  have hdual : compatibility left right = .backward ↔ compatibility right left = .forward := compatibility_dual
  simp only [hfull, hdual]

/-! ## The order of the names -/

/-- The same names, in any order, once or several times. -/
def SameNames (l m : List Bytes) : Prop := ∀ n, n ∈ l ↔ n ∈ m

theorem SameNames.refl (l : List Bytes) : SameNames l l := fun _ => Iff.rfl

theorem SameNames.subset_iff (hl : SameNames l l') (hm : SameNames m m') : l ⊆ m ↔ l' ⊆ m' := by
  constructor
  · intro h n hn
    exact (hm n).1 (h ((hl n).2 hn))
  · intro h n hn
    exact (hm n).2 (h ((hl n).1 hn))

theorem SameNames.eq_nil (h : SameNames [] l) : l = [] :=
  List.eq_nil_iff_forall_not_mem.2 fun n hn => absurd ((h n).2 hn) List.not_mem_nil

/-- Where the sets of names differ, the lists do not matter. -/
theorem evolution_of_sameNames (hne : ¬SameNames l m) (hl : SameNames l l') (hm : SameNames m m') :
    evolution v w l m = evolution v w l' m' := by
  have hdiffer : l ≠ m := by
    rintro rfl
    exact hne (.refl l)
  have hdiffer' : l' ≠ m' := by
    rintro rfl
    exact hne fun n => (hl n).trans (hm n).symm
  rw [evolution, evolution, if_neg hdiffer, if_neg hdiffer']
  simp only [hl.subset_iff hm, hm.subset_iff hl]

/-- The elements of an array of names. -/
def namesText : List Bytes → Bytes
  | [] => []
  | [n] => literal n
  | n :: names => literal n ++ comma :: namesText names

/-- A definition that requires the given names. -/
def definitionOf (names : List Bytes) : Bytes :=
  ascii "\x7b" ++ requiredKey ++ ascii ":" ++ openBracket :: (namesText names ++ ascii "]\x7d")

theorem quoted_namesText (h : ∀ n ∈ names, n ≠ [] ∧ mark ∉ n) :
    quoted (namesText names ++ d) = names ++ quoted d := by
  induction names using namesText.induct with
  | case1 => rfl
  | case2 n =>
    obtain ⟨hne, hn⟩ := h n List.mem_cons_self
    rw [namesText, quoted, quotedFrom_literal hn hne]
    rfl
  | case3 n names hnames ih =>
    obtain ⟨hne, hn⟩ := h n List.mem_cons_self
    rw [namesText, List.append_assoc, quoted, quotedFrom_literal hn hne, List.cons_append, quotedFrom,
      if_neg (by decide), ← quoted, ih fun n hn => h n (List.mem_cons_of_mem _ hn), List.cons_append]
    exact hnames

theorem isUtf8_namesText (h : ∀ n ∈ names, isUtf8 n = true) (hd : isUtf8 d = true) :
    isUtf8 (namesText names ++ d) = true := by
  induction names using namesText.induct with
  | case1 => exact hd
  | case2 n =>
    rw [namesText, literal, List.cons_append, isUtf8_cons mark_ascii, List.append_assoc, List.singleton_append,
      isUtf8_append_cons mark_ascii, h n List.mem_cons_self, hd, Bool.and_self]
  | case3 n names hnames ih =>
    rw [namesText, literal, List.cons_append, List.cons_append, isUtf8_cons mark_ascii, List.append_assoc,
      List.append_assoc, List.singleton_append, isUtf8_append_cons mark_ascii, h n List.mem_cons_self,
      List.cons_append, isUtf8_cons comma_ascii, ih fun n hn => h n (List.mem_cons_of_mem _ hn), Bool.and_self]
    exact hnames

/-- **The scan finds the names of such a definition.** -/
theorem fieldsOf_definitionOf (h : ∀ n ∈ names, n ≠ [] ∧ mark ∉ n ∧ isUtf8 n = true) :
    fieldsOf (definitionOf names) = names := by
  have hutf : isUtf8 (definitionOf names) = true := by
    rw [definitionOf, isUtf8_append_cons openBracket_ascii, isUtf8_namesText (fun n hn => (h n hn).2.2) (by decide),
      Bool.and_true]
    decide
  have hbefore : Unbracketed (ascii "\x7b") := by
    intro u v heq hmem
    have hbracket : openBracket ∈ ascii "\x7b" := heq ▸ List.mem_append_right _ hmem
    revert hbracket
    decide
  rw [fieldsOf, if_pos hutf, definitionOf, listed_of_unbracketed (by decide) hbefore, Option.elim_some,
    quoted_namesText fun n hn => ⟨(h n hn).1, (h n hn).2.1⟩]
  exact List.append_nil names

/-- The same schema with another definition. -/
def Schema.withDefinition (x : Schema) (d : Bytes) : Schema := { x with definition := d }

theorem compatibility_withDefinition :
    compatibility (left.withDefinition d) (right.withDefinition d') =
      if left.format = right.format then evolution left.version right.version (fieldsOf d) (fieldsOf d')
      else .breaking := rfl

/-- Where the order cannot be seen. -/
theorem compatibility_of_sameNames (h : left.format ≠ right.format ∨
      ¬SameNames (fieldsOf left.definition) (fieldsOf right.definition) ∨ fieldsOf left.definition = [])
    (hl : SameNames (fieldsOf left.definition) (fieldsOf d))
    (hm : SameNames (fieldsOf right.definition) (fieldsOf d')) :
    compatibility (left.withDefinition d) (right.withDefinition d') = compatibility left right := by
  rw [compatibility_withDefinition, compatibility]
  by_cases hf : left.format = right.format
  · rw [if_pos hf, if_pos hf]
    by_cases hsame : SameNames (fieldsOf left.definition) (fieldsOf right.definition)
    · have hnil : fieldsOf left.definition = [] := by
        rcases h with h | h | h
        · exact absurd hf h
        · exact absurd hsame h
        · exact h
      rw [hnil] at hsame hl ⊢
      rw [hsame.eq_nil] at hm ⊢
      rw [hl.eq_nil, hm.eq_nil]
    · exact (evolution_of_sameNames hsame hl hm).symm
  · rw [if_neg hf, if_neg hf]

/-- Where it can be seen: the names of the right schema are written twice, or as those of the left one. -/
theorem exists_compatibility_ne (hf : left.format = right.format)
    (hsame : SameNames (fieldsOf left.definition) (fieldsOf right.definition))
    (hne : fieldsOf left.definition ≠ []) :
    ∃ d', SameNames (fieldsOf right.definition) (fieldsOf d') ∧
      compatibility (left.withDefinition left.definition) (right.withDefinition d') ≠ compatibility left right := by
  by_cases heq : fieldsOf left.definition = fieldsOf right.definition
  · have htwice : fieldsOf (definitionOf (fieldsOf right.definition ++ fieldsOf right.definition)) =
        fieldsOf right.definition ++ fieldsOf right.definition := by
      refine fieldsOf_definitionOf ?_
      intro n hn
      rw [List.mem_append, or_self] at hn
      exact of_mem_fieldsOf hn
    refine ⟨_, fun n => by rw [htwice, List.mem_append, or_self], ?_⟩
    intro hfull
    rw [compatibility_withDefinition, compatibility, if_pos hf, if_pos hf, htwice, heq, evolution_self,
      evolution_full_iff, List.self_eq_append_right] at hfull
    exact hne (heq.trans hfull)
  · refine ⟨left.definition, fun n => (hsame n).symm, ?_⟩
    intro hfull
    rw [compatibility_withDefinition, compatibility, if_pos hf, if_pos hf, evolution_self] at hfull
    exact heq (evolution_full_iff.1 hfull.symm)

/-- **Compatibility is dual, and it does not depend on the order of the required names if and only if** the
    formats differ, or the sets of names, or nothing is required. -/
theorem compatibility_dual_iff (h : Reachable H s) (env : Env) (left right : Schema) :
    ((checkSchemaCompatibility left right).run env s = .ok (.backward, s) ↔
      (checkSchemaCompatibility right left).run env s = .ok (.forward, s)) ∧
    ((checkSchemaCompatibility left right).run env s = .ok (.full, s) ↔
      (checkSchemaCompatibility right left).run env s = .ok (.full, s)) ∧
    (isBackwardCompatible left right).run env s = (isForwardCompatible right left).run env s ∧
    ((∀ d d', SameNames (fieldsOf left.definition) (fieldsOf d) →
        SameNames (fieldsOf right.definition) (fieldsOf d') →
        (checkSchemaCompatibility (left.withDefinition d) (right.withDefinition d')).run env s =
          (checkSchemaCompatibility left right).run env s) ↔
      left.format ≠ right.format ∨ ¬SameNames (fieldsOf left.definition) (fieldsOf right.definition) ∨
        fieldsOf left.definition = []) := by
  have hdeployed := deployed_of_reachable h
  simp only [hdeployed.checkSchemaCompatibility_run, Except.ok.injEq, Prod.mk.injEq, and_true]
  refine ⟨compatibility_dual, compatibility_full_comm, isBackwardCompatible_comm hdeployed, ?_,
    fun hcond d d' hl hm => compatibility_of_sameNames hcond hl hm⟩
  intro hall
  by_contra hno
  push Not at hno
  obtain ⟨hf, hsame, hne⟩ := hno
  obtain ⟨d', hd', hdiffer⟩ := exists_compatibility_ne hf hsame hne
  exact hdiffer (hall left.definition d' (.refl _) hd')

/-! ## Scripts -/

/-- A schema that requires the given names. -/
def requiring (version : ℕ) (names : List Bytes) : Schema :=
  ⟨.jsonSchemaDraft7, version, definitionOf names, .unknown⟩

/-- A ledger before the first event. -/
def freshLedger : State Bytes := deployed (openEnv 0) (account 65) 10 100

theorem reachable_freshLedger : Reachable plainHost freshLedger := by
  have hplay : play plainHost freshLedger [] = some freshLedger := rfl
  exact ⟨_, history_of_play (init_deployed rfl 10 100) hplay⟩

/-- The schema with one name more is compatible backward, however its names are written. -/
theorem compatibility_dual_iff_actions :
    let left := requiring 1 [ascii "actor", ascii "action"]
    let right := requiring 2 [ascii "actor"]
    (checkSchemaCompatibility right left).run (openEnv 1) freshLedger = .ok (.forward, freshLedger) ∧
      ∀ d d', SameNames (fieldsOf left.definition) (fieldsOf d) →
        SameNames (fieldsOf right.definition) (fieldsOf d') →
        (checkSchemaCompatibility (left.withDefinition d) (right.withDefinition d')).run (openEnv 1) freshLedger =
          .ok (.backward, freshLedger) := by
  intro left right
  obtain ⟨hdual, -, -, hnames⟩ := compatibility_dual_iff reachable_freshLedger (openEnv 1) left right
  have hleft : fieldsOf left.definition = [ascii "actor", ascii "action"] := fieldsOf_definitionOf (by decide)
  have hright : fieldsOf right.definition = [ascii "actor"] := fieldsOf_definitionOf (by decide)
  have hbackward : (checkSchemaCompatibility left right).run (openEnv 1) freshLedger =
      .ok (.backward, freshLedger) := by
    rw [(deployed_of_reachable reachable_freshLedger).checkSchemaCompatibility_run, compatibility, hleft, hright]
    rfl
  refine ⟨hdual.1 hbackward, ?_⟩
  intro d d' hd hd'
  rw [← hbackward]
  refine hnames.2 (.inr (.inl ?_)) d d' hd hd'
  intro hsame
  rw [hleft, hright] at hsame
  have hmem := (hsame (ascii "action")).1 (by decide)
  revert hmem
  decide

/-- **Two schemas with the same required names are fully compatible or not, as the names are ordered.** -/
theorem order_decides :
    ¬∀ (left right : Schema) (d d' : Bytes), SameNames (fieldsOf left.definition) (fieldsOf d) →
      SameNames (fieldsOf right.definition) (fieldsOf d') →
      (checkSchemaCompatibility (left.withDefinition d) (right.withDefinition d')).run (openEnv 1) freshLedger =
        (checkSchemaCompatibility left right).run (openEnv 1) freshLedger := by
  intro h
  have hdeployed := deployed_of_reachable reachable_freshLedger
  have hplain : fieldsOf (definitionOf [ascii "a", ascii "b"]) = [ascii "a", ascii "b"] :=
    fieldsOf_definitionOf (by decide)
  have hturned : fieldsOf (definitionOf [ascii "b", ascii "a"]) = [ascii "b", ascii "a"] :=
    fieldsOf_definitionOf (by decide)
  have hsame : SameNames (fieldsOf (definitionOf [ascii "a", ascii "b"]))
      (fieldsOf (definitionOf [ascii "b", ascii "a"])) := by
    intro n
    rw [hplain, hturned, List.mem_pair, List.mem_pair, or_comm]
  have hfull : compatibility (requiring 1 [ascii "a", ascii "b"]) (requiring 1 [ascii "a", ascii "b"]) = .full := by
    rw [compatibility, if_pos rfl, evolution_self]
  have hunknown : compatibility (requiring 1 [ascii "a", ascii "b"])
      ((requiring 1 [ascii "a", ascii "b"]).withDefinition (definitionOf [ascii "b", ascii "a"])) = .unknown := by
    show evolution 1 1 (fieldsOf (definitionOf [ascii "a", ascii "b"]))
      (fieldsOf (definitionOf [ascii "b", ascii "a"])) = _
    rw [hplain, hturned]
    rfl
  have heq := h (requiring 1 [ascii "a", ascii "b"]) (requiring 1 [ascii "a", ascii "b"])
    (definitionOf [ascii "a", ascii "b"]) _ (.refl _) hsame
  rw [hdeployed.checkSchemaCompatibility_run, hdeployed.checkSchemaCompatibility_run, hfull] at heq
  have hcontra := hunknown.symm.trans (Prod.mk.inj (Except.ok.inj heq)).1
  cases hcontra

end AuditLedger
