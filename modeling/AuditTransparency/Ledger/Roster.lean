/-
  AuditLedger — the roster: who governs the contract.

  Authority is spread over the records `Owner`, `Owners` and `Role`, the switch
  between them, and the number of signatures a proposal needs.  A `Roster` is
  what they say together, and a `Change` is one way to write them: every
  governance call has its own, and so has every action of a proposal, which
  writes less than the call it stands for.

  * `step_roster`: a call changes the roster by its `Op.change`, and only so;
  * `Roster.isOwner_apply`: who gains and who loses authority.
-/
import AuditTransparency.Ledger.Refinement

namespace AuditLedger

open Soroban
open Soroban.Call hiding hasPers publish

/-! ## Rosters -/

/-- The records of authority. -/
structure Roster where
  owner : Option Address
  owners : List Address
  required : ℕ
  role : Address → Option Role
  rbac : Bool

/-- What a step does to them. -/
inductive Change where
  | keep
  | transfer (newOwner : Address)
  | add (newOwner : Address)
  | remove (owner : Address)
  | require (n : ℕ)
  | assign (target : Address) (role : Option Role)
  | toggle (enabled : Bool)
  /-- by a proposal -/
  | enactTransfer (newOwner : Address)
  | enactAdd (newOwner : Address)
  | enactRemove (owner : Address)
  | enactRequire (n : ℕ)
  deriving DecidableEq

namespace Roster
variable {ρ : Roster} {a b c : Address} {change : Change}

/-- The owners without `a`. -/
def without (ρ : Roster) (a : Address) : List Address := ρ.owners.filter (· ≠ a)

/-- The owners with the primary owner replaced, where it is listed first. -/
def handedOver (ρ : Roster) (b : Address) : List Address :=
  match ρ.owner with
  | some c => ρ.owners.replace c b
  | none => ρ.owners

/-- The roster after a change. -/
def apply (ρ : Roster) : Change → Roster
  | .keep => ρ
  | .transfer b => { ρ with
      owner := some b
      owners := ρ.handedOver b
      role := fun a =>
        if ρ.rbac = false then ρ.role a
        else if a = b then some .admin
        else if ρ.owner = some a ∧ ρ.role a = some .admin then none
        else ρ.role a }
  | .add b =>
    if b ∈ ρ.owners then ρ
    else { ρ with
      owners := ρ.owners ++ [b]
      role := fun a => if ρ.rbac = true ∧ a = b then some .admin else ρ.role a }
  | .remove b => { ρ with
      owners := ρ.without b
      required := if b ∈ ρ.owners then min ρ.required (ρ.without b).length else ρ.required }
  | .require n => { ρ with required := if n = 0 ∨ n > ρ.owners.length then ρ.required else n }
  | .assign b r => { ρ with role := fun a => if a = b then r else ρ.role a }
  | .toggle enabled => { ρ with rbac := enabled }
  | .enactTransfer b => { ρ with owner := some b }
  | .enactAdd b => if b ∈ ρ.owners then ρ else { ρ with owners := ρ.owners ++ [b] }
  | .enactRemove b => { ρ with owners := ρ.without b }
  | .enactRequire n => { ρ with required := n }

/-- `is_addr_owner` -/
def IsOwner (ρ : Roster) (a : Address) : Prop := a ∈ ρ.owners ∨ ρ.owner = some a

instance (ρ : Roster) (a : Address) : Decidable (ρ.IsOwner a) :=
  inferInstanceAs (Decidable (_ ∨ _))

theorem mem_without : a ∈ ρ.without b ↔ a ∈ ρ.owners ∧ a ≠ b := by simp [without]

theorem without_of_not_mem (h : b ∉ ρ.owners) : ρ.without b = ρ.owners := by
  rw [without, List.filter_eq_self]
  intro a ha
  exact decide_eq_true (ne_of_mem_of_not_mem ha h)

theorem replace_same (l : List Address) (b : Address) : l.replace b b = l := by
  induction l with
  | nil => rfl
  | cons o l ih =>
    rw [List.replace_cons]
    by_cases ho : b = o
    · simp [ho]
    · have hno : (b == o) = false := by simpa using ho
      rw [hno, ih]

theorem replace_eq_self {l : List Address} (hb : b ≠ c) : l.replace c b = l ↔ c ∉ l := by
  induction l with
  | nil => simp
  | cons o l ih =>
    rw [List.replace_cons]
    by_cases ho : c = o
    · subst ho; simp [hb]
    · have hno : (c == o) = false := by simpa using ho
      simp [hno, ih, ho]

/-- Who is listed after the first `c` has been replaced by `b`. -/
theorem mem_replace {l : List Address} (hb : b ≠ c) :
    a ∈ l.replace c b ↔ (a ∈ l ∧ (a = c → 1 < l.count c)) ∨ (a = b ∧ c ∈ l) := by
  induction l with
  | nil => simp
  | cons o l ih =>
    rw [List.replace_cons]
    by_cases ho : c = o
    · subst ho
      simp only [beq_self_eq_true, List.mem_cons, List.count_cons_self, true_or, and_true]
      by_cases ha : a = c
      · subst ha; simp [Ne.symm hb, List.count_pos_iff]
      · simp [ha, or_comm]
    · have hno : (c == o) = false := by simpa using ho
      simp only [hno, List.mem_cons, ih, List.count_cons, ho, false_or]
      by_cases ha : a = o
      · subst ha; simp [Ne.symm ho]
      · simp [ha, Ne.symm ho]

/-- The change makes `a` an owner. -/
def seats (a : Address) : Change → Prop
  | .transfer b | .add b | .enactTransfer b | .enactAdd b => b = a
  | _ => False

/-- The change takes away all that made `a` an owner. -/
def unseats (ρ : Roster) (a : Address) : Change → Prop
  | .remove b | .enactRemove b => b = a ∧ ρ.owner ≠ some a
  | .transfer b => ρ.owner = some a ∧ b ≠ a ∧ ρ.owners.count a ≤ 1
  | .enactTransfer b => ρ.owner = some a ∧ b ≠ a ∧ a ∉ ρ.owners
  | _ => False

instance (a : Address) (change : Change) : Decidable (seats a change) := by
  cases change <;> unfold seats <;> infer_instance

instance (ρ : Roster) (a : Address) (change : Change) : Decidable (unseats ρ a change) := by
  cases change <;> unfold unseats <;> infer_instance

/-- **Who is an owner after a change.** -/
theorem isOwner_apply :
    (ρ.apply change).IsOwner a ↔ seats a change ∨ (ρ.IsOwner a ∧ ¬unseats ρ a change) := by
  cases change with
  | transfer b =>
    simp only [apply, IsOwner, seats, unseats, Option.some.injEq]
    rcases hc : ρ.owner with _ | c
    · simp [handedOver, hc, or_comm]
    · by_cases hb : b = c
      · subst hb
        by_cases ha : b = a <;> simp [handedOver, hc, ha, replace_same]
      · simp only [handedOver, hc, mem_replace hb]
        by_cases ha : a = c
        · subst ha; simp [hb]; grind
        · grind
  | add b | enactAdd b =>
    simp only [apply, IsOwner, seats, unseats]
    split_ifs <;> grind
  | remove b | enactRemove b =>
    simp only [apply, IsOwner, seats, unseats, mem_without]
    grind
  | enactTransfer b =>
    simp only [apply, IsOwner, seats, unseats]
    grind
  | keep | require n | assign b r | toggle e | enactRequire n => simp [apply, IsOwner, seats, unseats]

end Roster

/-! ## The roster of a contract -/

variable {D : Type} [DecidableEq D] {H : Host D} {env : Env} {s s' : State D} {op : Op D} {r : Ret D}

/-- What the records of a state say. -/
def rosterOf (s : State D) : Roster where
  owner := s.inst .owner ()
  owners := (s.inst .owners ()).getD []
  required := (s.inst .requiredSignatures ()).getD 1
  role := s.inst .role
  rbac := (s.inst .rbacEnabled ()).getD false

/-- The keys it is read from. -/
abbrev rosterKeys : List DataKey := [.owner, .owners, .requiredSignatures, .role, .rbacEnabled]

theorem rosterOf_congr (hs : ∀ f ∈ rosterKeys, s'.inst f = s.inst f) : rosterOf s' = rosterOf s := by
  simp only [rosterOf, hs .owner (by simp), hs .owners (by simp), hs .requiredSignatures (by simp),
    hs .role (by simp), hs .rbacEnabled (by simp)]

theorem isAddrOwner_run {a : Address} : (isAddrOwner a : Fn D Bool).run env s =
    .ok (decide ((rosterOf s).IsOwner a), s) := rfl

/-- What the action of a proposal does to the roster. -/
def changeOfAction : ProposalAction → Change
  | .transferOwnership b => .enactTransfer b
  | .addOwner b => .enactAdd b
  | .removeOwner b => .enactRemove b
  | .setRequiredSignatures n => .enactRequire n
  | _ => .keep

/-- What a call does to the roster. -/
def Op.change (env : Env) (s : State D) : Op D → Change
  | .transferOwnership _ b => .transfer b
  | .addOwner _ b => .add b
  | .removeOwner _ b => .remove b
  | .setRequiredSignatures _ n => .require n
  | .setRole _ b r => .assign b r
  | .enableRbac _ enabled => .toggle enabled
  | .executeProposal _ id => ((enacted s env.timestamp id).map changeOfAction).getD .keep
  | _ => .keep

/-- What a step does to the roster. -/
def Action.change (s : State D) : Action D → Change
  | .call env op => op.change env s
  | _ => .keep

/-- The action of a proposal. -/
theorem post_performAction_roster {executor : Address} {action : ProposalAction} :
    Post (performAction H executor action)
      (fun _ s' => rosterOf s' = (rosterOf s).apply (changeOfAction action)) env s := by
  cases action with
  | transferOwnership b =>
    simp only [performAction, post_store]
    simp [rosterOf, changeOfAction, Roster.apply]
  | addOwner b =>
    simp only [performAction, getOwners, post_bind, post_load, post_pure, post_doIf, post_store,
      changeOfAction, Roster.apply]
    constructor
    · intro hb
      have hno : b ∉ (rosterOf s).owners := hb
      rw [if_neg hno]
      simp [rosterOf]
    · intro hb
      have hmem : b ∈ (rosterOf s).owners := not_not.1 hb
      rw [if_pos hmem]
  | removeOwner b =>
    simp only [performAction, getOwners, post_bind, post_load, post_pure, post_store]
    simp [rosterOf, changeOfAction, Roster.apply, Roster.without]
  | setRequiredSignatures n =>
    simp only [performAction, post_store]
    simp [rosterOf, changeOfAction, Roster.apply]
  | setGlobalMaxLogs n =>
    simp only [performAction, post_bind, post_load, post_ifSome, post_store]
    exact ⟨fun _ _ => rosterOf_congr (by simp), fun _ => rfl⟩
  | setMetadataSchema t b => exact post_store.2 (rosterOf_congr (by simp))
  | rollbackEvent i v =>
    simp only [performAction, post_bind, post_pure]
    refine Post.with_frame (L := layout D) (W := rewriteWrites) fun _ s₁ _ hf => ?_
    exact rosterOf_congr (hf.inst_eq (apart_of_eval rfl))
  | pause | unpause => exact post_store.2 (rosterOf_congr (by simp))

theorem post_transferOwnership_roster {a b : Address} :
    Post (transferOwnership a b) (fun _ s' => rosterOf s' = (rosterOf s).apply (.transfer b)) env s := by
  simp only [transferOwnership, getOwners, rbacEnabled, getRoleOf, post_bind, post_load, post_unwrap,
    post_rejectIf, post_store, post_doIf, post_clear, post_publish, post_pure]
  refine post_reads fun _ _ c hc _ hne => ?_
  have hown : (rosterOf s).owner = some c := hc
  simp only [Roster.apply, Roster.handedOver, hown]
  constructor
  · intro hrbac
    have hon : (s.inst .rbacEnabled ()).getD false = true := by simpa using hrbac
    -- the new owner is an admin, and the old one no longer
    constructor
    · intro hadmin
      have hrole : s.inst .role c = some .admin := by simpa [Ne.symm hne] using hadmin
      simp only [rosterOf, hon, Ledger.publish_inst, Ledger.del_inst, Ledger.put_inst, Roster.mk.injEq]
      refine ⟨by simp, by simp, by simp, funext fun x => ?_, by simp [hon]⟩
      by_cases hx : x = c
      · subst hx; simp [Ne.symm hne, hrole]
      · by_cases hb : x = b
        · subst hb; simp [hne]
        · simp [hx, hb, Ne.symm hx]
    · intro hadmin
      have hrole : s.inst .role c ≠ some .admin := by simpa [Ne.symm hne] using hadmin
      simp only [rosterOf, hon, Ledger.publish_inst, Ledger.put_inst, Roster.mk.injEq]
      refine ⟨by simp, by simp, by simp, funext fun x => ?_, by simp [hon]⟩
      by_cases hb : x = b
      · subst hb; simp
      · by_cases hx : c = x
        · subst hx; simp [hb, hrole]
        · simp [hb, hx]
  · intro hrbac
    have hoff : (s.inst .rbacEnabled ()).getD false = false := by simpa using hrbac
    simp [rosterOf, hoff]

theorem post_addOwner_roster {a b : Address} :
    Post (addOwner a b) (fun _ s' => rosterOf s' = (rosterOf s).apply (.add b)) env s := by
  simp only [addOwner, getOwners, rbacEnabled, post_bind, post_load, post_rejectIf, post_store,
    post_doIf, post_publish, post_pure]
  refine post_reads fun _ _ => post_reads fun _ _ _ => ⟨fun hb => ?_, fun hb => ?_⟩
  · have hno : b ∉ (rosterOf s).owners := hb
    simp only [Roster.apply, if_neg hno]
    constructor
    · intro hrbac
      have hon : (s.inst .rbacEnabled ()).getD false = true := by simpa using hrbac
      simp only [rosterOf, hon, Ledger.publish_inst, Ledger.put_inst, Roster.mk.injEq]
      refine ⟨by simp, by simp, by simp, funext fun x => ?_, by simp [hon]⟩
      by_cases hx : x = b
      · subst hx; simp
      · simp [hx]
    · intro hrbac
      have hoff : (s.inst .rbacEnabled ()).getD false = false := by simpa using hrbac
      simp [rosterOf, hoff]
  · have hmem : b ∈ (rosterOf s).owners := not_not.1 hb
    simp only [Roster.apply, if_pos hmem]

theorem post_removeOwner_roster {a b : Address} :
    Post (removeOwner a b) (fun _ s' => rosterOf s' = (rosterOf s).apply (.remove b)) env s := by
  simp only [removeOwner, getOwners, getRequiredSignatures, post_bind, post_load, post_store,
    post_doIf, post_publish, post_pure]
  refine post_reads fun _ _ => post_reads fun _ _ => ⟨fun hb => ?_, fun hb => ?_⟩
  · have hmem : b ∈ (rosterOf s).owners := hb
    simp only [Roster.apply, if_pos hmem]
    constructor
    · intro hlt
      have hmin : min (rosterOf s).required ((rosterOf s).without b).length =
          ((rosterOf s).without b).length := min_eq_right (le_of_lt hlt)
      rw [hmin]
      simp [rosterOf, Roster.without]
    · intro hle
      have hmin : min (rosterOf s).required ((rosterOf s).without b).length =
          (rosterOf s).required := min_eq_left (not_lt.1 hle)
      rw [hmin]
      simp [rosterOf, Roster.without]
  · have hno : b ∉ (rosterOf s).owners := hb
    simp only [Roster.apply, if_neg hno, Roster.without_of_not_mem hno]

theorem post_setRequiredSignatures_roster {a : Address} {n : ℕ} :
    Post (setRequiredSignatures a n) (fun _ s' => rosterOf s' = (rosterOf s).apply (.require n)) env s := by
  simp only [setRequiredSignatures, getOwners, post_bind, post_load, post_store, post_doIf,
    post_publish, post_pure]
  refine post_reads fun _ _ => post_reads fun _ _ => ⟨fun hn => ?_, fun hn => ?_⟩
  · have hno : ¬(n = 0 ∨ n > (rosterOf s).owners.length) := hn
    simp only [Roster.apply, if_neg hno]
    simp [rosterOf]
  · have hyes : n = 0 ∨ n > (rosterOf s).owners.length := not_not.1 hn
    simp only [Roster.apply, if_pos hyes]

theorem post_setRole_roster {a b : Address} {role : Option Role} :
    Post (setRole a b role) (fun _ s' => rosterOf s' = (rosterOf s).apply (.assign b role)) env s := by
  simp only [setRole, post_bind, post_onSome, post_store, post_clear, post_publish]
  refine post_reads fun _ _ => ⟨fun r hr => ?_, fun hr => ?_⟩
  · subst hr
    simp only [rosterOf, Roster.apply, Ledger.publish_inst, Ledger.put_inst, Roster.mk.injEq]
    refine ⟨by simp, by simp, by simp, funext fun x => ?_, by simp⟩
    by_cases hx : x = b
    · subst hx; simp
    · simp [hx]
  · subst hr
    simp only [rosterOf, Roster.apply, Ledger.publish_inst, Ledger.del_inst, Roster.mk.injEq]
    refine ⟨by simp, by simp, by simp, funext fun x => ?_, by simp⟩
    by_cases hx : x = b
    · subst hx; simp
    · simp [hx]

/-- **A call changes the roster by its change.** -/
theorem step_roster (hs : Step H env op s r s') : rosterOf s' = (rosterOf s).apply (op.change env s) := by
  have of_post : Post (exec H op) (fun _ s' => rosterOf s' = (rosterOf s).apply (op.change env s)) env s →
      rosterOf s' = (rosterOf s).apply (op.change env s) := fun hp => hp.of_run hs
  cases op with
  | transferOwnership a b =>
    exact of_post (post_bind.2 (post_transferOwnership_roster.mono fun _ _ h => post_pure.2 h))
  | addOwner a b => exact of_post (post_bind.2 (post_addOwner_roster.mono fun _ _ h => post_pure.2 h))
  | removeOwner a b =>
    exact of_post (post_bind.2 (post_removeOwner_roster.mono fun _ _ h => post_pure.2 h))
  | setRequiredSignatures a n =>
    exact of_post (post_bind.2 (post_setRequiredSignatures_roster.mono fun _ _ h => post_pure.2 h))
  | setRole a b role =>
    exact of_post (post_bind.2 (post_setRole_roster.mono fun _ _ h => post_pure.2 h))
  | enableRbac a b =>
    refine of_post ?_
    simp only [exec, enableRbac, post_bind, post_store, post_publish, post_pure]
    refine post_reads fun _ _ => ?_
    simp [rosterOf, Op.change, Roster.apply]
  | executeProposal a id =>
    refine of_post ?_
    simp only [exec, post_bind, post_pure]
    refine post_executeProposal (fun he => ?_) fun p _ he => ?_
    · simp [Op.change, he, Roster.apply]
    · simp only [Op.change, he, Option.map_some, Option.getD_some]
      refine post_performAction_roster.mono fun _ s₁ h₁ n => ?_
      rw [← h₁]
      exact rosterOf_congr (by simp)
  | _ => exact rosterOf_congr (((exec_writes H _).of_run hs).inst_eq (apart_of_eval rfl))

/-- The roster `initialize` leaves: every owner is an admin, and one signature is enough. -/
def initialRoster (owners : List Address) : Roster where
  owner := owners.head?
  owners := owners
  required := 1
  role := fun a => if a ∈ owners then some .admin else none
  rbac := false

theorem roster_of_initialize {owners : List Address} {g m : ℕ}
    (h : (initializeLedger owners g m).run env Ledger.empty = .ok ((), s)) :
    rosterOf s = initialRoster owners ∧ owners ≠ [] := by
  have key : Post (initializeLedger owners g m)
      (fun _ s => rosterOf s = initialRoster owners ∧ owners ≠ []) env (Ledger.empty : State D) := by
    simp only [initializeLedger, post_bind, post_load, post_rejectIf, post_unwrap, post_requireAuth,
      post_store]
    intro _ hne primary hprimary _
    -- the loop over the owners, of which `done` have got their role
    let I (done : List Address) (_ : Unit) (t : State D) : Prop :=
      t.inst .owner () = some primary ∧ t.inst .owners () = some owners ∧
      t.inst .requiredSignatures () = none ∧ t.inst .rbacEnabled () = some false ∧
      ∀ a, t.inst .role a = if a ∈ done then some .admin else none
    refine (post_foldlM I owners () _ [] ⟨?_, ?_, ?_, ?_, ?_⟩ ?_).mono ?_
    · simp
    · simp
    · simp; rfl
    · simp
    · intro a; simp; rfl
    · rintro done o rest ⟨⟩ t - ⟨ho, hos, hreq, hrbac, hrole⟩
      refine post_store.2 ⟨by simpa using ho, by simpa using hos, by simpa using hreq,
        by simpa using hrbac, fun a => ?_⟩
      by_cases ha : a = o
      · subst ha; simp
      · simp [ha, hrole]
    · rintro ⟨⟩ t ⟨ho, hos, hreq, hrbac, hrole⟩
      refine ⟨?_, hne⟩
      have hfun : t.inst .role = fun a => if a ∈ owners then some .admin else none := funext hrole
      simp [rosterOf, initialRoster, ho, hos, hreq, hrbac, hprimary, hfun]
  exact key.of_run h

/-- A step changes the roster by its change. -/
theorem next_roster {a : Action D} (hn : Next H s a s') :
    rosterOf s' = (rosterOf s).apply (a.change s) := by
  cases a with
  | call env op =>
    obtain ⟨r, hs⟩ := hn
    exact step_roster hs
  | expireTemporary f k => rw [Next] at hn; subst hn; rfl
  | expirePersistent f k => rw [Next] at hn; subst hn; rfl

end AuditLedger
