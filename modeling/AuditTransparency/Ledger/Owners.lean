/-
  AuditLedger — revoking an owner, and the signature threshold.

  Four paths take an owner away, and each writes a different part of the roster.
  A direct `remove_owner` and an enacted one leave the primary owner and the role;
  a direct `transfer_ownership` leaves a second entry of the list, and the role
  while roles are not enforced; an enacted one leaves the list and the role.

  * `history_revoked`: the address is without power from the step on exactly when
    the path taken wrote all that gave it power;
  * `history_threshold`: the threshold is meaningful in every state of exactly the
    runs that start from distinct owners and whose steps keep it so.
-/
import AuditTransparency.Ledger.Roster

namespace AuditLedger

open Soroban
open Soroban.Call hiding hasPers publish

variable {D : Type} [DecidableEq D] {H : Host D} {env : Env} {s s' : State D} {a : Address}
  {ρ : Roster} {change : Change}

/-! ## Power -/

namespace Roster

/-- Nothing in the roster gives `a` power. -/
structure Powerless (ρ : Roster) (a : Address) : Prop where
  notListed : a ∉ ρ.owners
  notPrimary : ρ.owner ≠ some a
  notAdmin : ρ.role a ≠ some .admin

/-- The change makes `a` an owner or an admin. -/
def grants (a : Address) : Change → Prop
  | .assign b r => b = a ∧ r = some .admin
  | change => seats a change

/-- The change is meant to take `a`'s power away. -/
def revokes (ρ : Roster) (a : Address) : Change → Prop
  | .remove b | .enactRemove b => b = a
  | .transfer b | .enactTransfer b => ρ.owner = some a ∧ b ≠ a
  | _ => False

/-- Nothing but what the change writes gives `a` power. -/
def severs (ρ : Roster) (a : Address) : Change → Prop
  | .remove _ | .enactRemove _ => ρ.owner ≠ some a ∧ ρ.role a ≠ some .admin
  | .transfer _ => ρ.owners.count a ≤ 1 ∧ (ρ.rbac = true ∨ ρ.role a ≠ some .admin)
  | .enactTransfer _ => a ∉ ρ.owners ∧ ρ.role a ≠ some .admin
  | _ => False

instance (a : Address) (change : Change) : Decidable (grants a change) :=
  decidable_of_iff (change = .assign a (some .admin) ∨ seats a change) <| by
    cases change <;> simp [grants, seats]

theorem powerless_iff : ρ.Powerless a ↔ ¬ρ.IsOwner a ∧ ρ.role a ≠ some .admin := by
  constructor
  · rintro ⟨h₁, h₂, h₃⟩
    exact ⟨fun h => h.elim h₁ h₂, h₃⟩
  · rintro ⟨h, h₃⟩
    exact ⟨fun h₁ => h (Or.inl h₁), fun h₂ => h (Or.inr h₂), h₃⟩

/-- Who has the Admin role after a change. -/
theorem notAdmin_apply (h : ρ.role a ≠ some .admin) (hg : ¬grants a change) :
    (ρ.apply change).role a ≠ some .admin := by
  cases change with
  | transfer b =>
    have hb : a ≠ b := fun e => hg e.symm
    simp only [apply, if_neg hb]
    split_ifs <;> simp_all
  | add b =>
    have hb : a ≠ b := fun e => hg e.symm
    simp only [apply]
    split_ifs <;> simp_all
  | assign b r =>
    simp only [apply]
    split_ifs with hb
    · exact fun hr => hg ⟨hb.symm, hr⟩
    · exact h
  | enactAdd b =>
    simp only [apply]
    split_ifs <;> exact h
  | keep | remove b | require n | toggle e | enactTransfer b | enactRemove b | enactRequire n => exact h

/-- Power does not come back by itself. -/
theorem Powerless.apply (h : ρ.Powerless a) (hg : ¬grants a change) : (ρ.apply change).Powerless a := by
  obtain ⟨hown, hrole⟩ := powerless_iff.1 h
  refine powerless_iff.2 ⟨?_, notAdmin_apply hrole hg⟩
  rw [isOwner_apply]
  rintro (hseat | ⟨h', -⟩)
  · refine hg ?_
    cases change <;> first | exact hseat | exact absurd hseat id
  · exact hown h'

/-- **A change leaves the address without power exactly when it severs all that gave it some.** -/
theorem powerless_apply_iff (h : ρ.revokes a change) :
    (ρ.apply change).Powerless a ↔ ρ.severs a change := by
  rw [powerless_iff, isOwner_apply]
  cases change with
  | remove b | enactRemove b =>
    obtain rfl : b = a := h
    simp only [seats, unseats, severs, Roster.apply, IsOwner]
    grind
  | transfer b =>
    obtain ⟨hown, hb⟩ := h
    simp only [seats, unseats, severs, Roster.apply, IsOwner, hown, hb, Ne.symm hb]
    rcases ρ.rbac <;> grind
  | enactTransfer b =>
    obtain ⟨hown, hb⟩ := h
    simp only [seats, unseats, severs, Roster.apply, IsOwner, hown, hb]
    grind
  | keep | add b | require n | assign b r | toggle e | enactAdd b | enactRequire n => exact absurd h id

end Roster

/-- **`a` has no power**: it is no owner, and the check of every owner operation turns it away,
    with roles enforced or not. -/
structure Revoked (s : State D) (a : Address) : Prop where
  notOwner : ∀ env, (isAddrOwner a : Fn D Bool).run env s = .ok (false, s)
  refused : ∀ env enabled, ∃ e,
    (requireOwnerOrMultisig a : Fn D Unit).run env (s.put .rbacEnabled () enabled) = .error e

/-- The check of every owner operation. -/
theorem requireOwnerOrMultisig_run : (requireOwnerOrMultisig a : Fn D Unit).run env s =
    if (rosterOf s).rbac = true then
      if (rosterOf s).role a = some .admin then .ok ((), s) else .error (.contract .roleNotGranted)
    else if (rosterOf s).IsOwner a then .ok ((), s) else .error (.contract .callerNotOwner) := by
  have hrbac : (rbacEnabled : Fn D Bool).run env s = .ok ((rosterOf s).rbac, s) := rfl
  rw [requireOwnerOrMultisig, run_bind_ok _ _ hrbac, run_ite]
  split_ifs with hon hadmin hown
  · rw [requireRoleMin, run_bind_ok _ _ hrbac, doIf, if_pos hon, getRoleOf, run_bind_ok _ _ (run_load ..),
      run_rejectIf, if_neg]
    have hrole : s.inst .role a = some .admin := hadmin
    simp [hrole]
  · rw [requireRoleMin, run_bind_ok _ _ hrbac, doIf, if_pos hon, getRoleOf, run_bind_ok _ _ (run_load ..),
      run_rejectIf, if_pos]
    have hrole : s.inst .role a ≠ some .admin := hadmin
    rcases hr : s.inst .role a with _ | _ | _ | _ | _ <;> simp_all [Role.rank]
  · rw [run_bind_ok _ _ isAddrOwner_run, run_rejectIf, if_neg (by simpa using hown)]
  · rw [run_bind_ok _ _ isAddrOwner_run, run_rejectIf, if_pos (by simpa using hown)]

theorem rosterOf_put_rbacEnabled (enabled : Bool) :
    rosterOf (s.put .rbacEnabled () enabled) = { rosterOf s with rbac := enabled } := by
  simp [rosterOf]

/-- The checks read the roster. -/
theorem revoked_iff : Revoked s a ↔ (rosterOf s).Powerless a := by
  rw [Roster.powerless_iff]
  constructor
  · rintro ⟨hnot, href⟩
    have hno := hnot ⟨0, 0, fun _ => true, fun _ => 0⟩
    obtain ⟨e, he⟩ := href ⟨0, 0, fun _ => true, fun _ => 0⟩ true
    rw [isAddrOwner_run] at hno
    rw [requireOwnerOrMultisig_run, rosterOf_put_rbacEnabled, if_pos rfl] at he
    refine ⟨by simpa using hno, fun hadmin => ?_⟩
    rw [if_pos hadmin] at he
    cases he
  · rintro ⟨hown, hrole⟩
    refine ⟨fun env => by rw [isAddrOwner_run]; simp [hown], fun env enabled => ?_⟩
    rw [requireOwnerOrMultisig_run, rosterOf_put_rbacEnabled]
    cases enabled with
    | true => exact ⟨_, by rw [if_pos rfl, if_neg hrole]⟩
    | false =>
      have hown' : ¬({ rosterOf s with rbac := false } : Roster).IsOwner a := hown
      exact ⟨_, by rw [if_neg (by simp), if_neg hown']⟩

/-! ## Revocation -/

/-- **Revocation is effective exactly when the step writes all that gave the address power.**
    From the step on, as long as the address is not made owner or admin again. -/
theorem history_revoked {tr₁ tr₂ : List (State D × Action D)} {s₁ : State D} {act : Action D}
    (h : History H (tr₁ ++ (s₁, act) :: tr₂) s)
    (hrevokes : (rosterOf s₁).revokes a (act.change s₁))
    (hkept : ∀ p ∈ tr₂, ¬Roster.grants a (p.2.change p.1)) :
    ((∀ p ∈ tr₂, Revoked p.1 a) ∧ Revoked s a) ↔ (rosterOf s₁).severs a (act.change s₁) := by
  obtain ⟨s₀, -, hrun⟩ := h
  obtain ⟨s₂, -, hstep, hafter⟩ := hrun.split
  simp only [revoked_iff]
  rw [← Roster.powerless_apply_iff hrevokes, ← next_roster hstep]
  constructor
  · intro hall
    exact hafter.start (I := fun s => (rosterOf s).Powerless a) hall
  · intro hpower
    refine hafter.always (C := fun s act => ¬Roster.grants a (act.change s))
      (I := fun s => (rosterOf s).Powerless a) hpower ?_ hkept
    intro s act s' hgrant hn hs
    rw [next_roster hn]
    exact hs.apply hgrant

/-- A transfer while roles are enforced, between two other calls. -/
def handoverScript : List (Env × Op Bytes) :=
  [(openEnv 11, .enableRbac (account 65) true)] ++ (openEnv 12,
    .transferOwnership (account 65) (account 66)) ::
    [(openEnv 13, .addOwner (account 66) (account 67))]

theorem history_revoked_handoverScript : ∃ s, Reachable plainHost s ∧ Revoked s (account 65) := by
  let s₀ : State Bytes := deployed (openEnv 10) (account 65) 100 50
  obtain ⟨s, hs⟩ : ∃ s, play plainHost s₀ handoverScript = some s :=
    Option.isSome_iff_exists.1 (by decide)
  obtain ⟨s₁, r, s₂, hpre, hstep, hpost, hist⟩ := history_around (init_deployed rfl 100 50) hs
  have before : (play plainHost s₀ [(openEnv 11, .enableRbac (account 65) true)]).map
      (fun s => (s.inst .owner (), (s.inst .owners ()).getD [], (s.inst .rbacEnabled ()).getD false)) =
      some (some (account 65), [account 65], true) := by decide
  rw [hpre] at before
  simp only [Option.map_some, Option.some.injEq, Prod.mk.injEq] at before
  obtain ⟨hown, howners, hrbac⟩ := before
  refine ⟨s, ⟨_, hist⟩, ((history_revoked hist ?_ ?_).2 ?_).2⟩
  · exact ⟨hown, by decide⟩
  · intro p hp
    obtain ⟨s₃, act⟩ := p
    have hcall : act = .call (openEnv 13) (.addOwner (account 66) (account 67)) := by
      simp only [traceOf, List.mem_cons] at hp
      rcases hp with hp | hp
      · exact (Prod.mk.inj hp).2
      · split at hp <;> cases hp
    subst hcall
    simp only [Action.change, Op.change, Roster.grants, Roster.seats]
    decide
  · refine ⟨?_, Or.inl hrbac⟩
    have hlist : (rosterOf s₁).owners = [account 65] := howners
    rw [hlist]; decide

/-- A transfer while roles are not enforced, and then they are. -/
def lingeringScript : List (Env × Op Bytes) :=
  [(openEnv 11, .transferOwnership (account 65) (account 66)), (openEnv 12, .enableRbac (account 66) true)]

/-- The old owner still has the Admin role, and passes the check once roles are enforced. -/
theorem admin_outlives_transfer : ∃ tr s₁ s, History plainHost
      ((s₁, .call (openEnv 11) (.transferOwnership (account 65) (account 66))) :: tr) s ∧
    s₁.inst .owner () = some (account 65) ∧
    (∀ p ∈ tr, ¬Roster.grants (account 65) (p.2.change p.1)) ∧
    (requireOwnerOrMultisig (account 65)).run (openEnv 13) s = .ok ((), s) ∧
    ¬Revoked s (account 65) := by
  let s₀ : State Bytes := deployed (openEnv 10) (account 65) 100 50
  obtain ⟨s, hs⟩ : ∃ s, play plainHost s₀ lingeringScript = some s :=
    Option.isSome_iff_exists.1 (by decide)
  have after : (play plainHost s₀ lingeringScript).map
      (fun s => ((s.inst .rbacEnabled ()).getD false, s.inst .role (account 65))) =
      some (true, some .admin) := by decide
  rw [hs] at after
  simp only [Option.map_some, Option.some.injEq, Prod.mk.injEq] at after
  obtain ⟨hrbac, hrole⟩ := after
  refine ⟨_, s₀, s, history_of_play (init_deployed rfl 100 50) hs, by decide, ?_, ?_, ?_⟩
  · have hall : (traceOf plainHost s₀ lingeringScript).tail.all
        (fun p => ¬Roster.grants (account 65) (p.2.change p.1)) = true := by decide
    intro p hp
    exact of_decide_eq_true (List.all_eq_true.1 hall p hp)
  · have hon : (rosterOf s).rbac = true := hrbac
    have hadmin : (rosterOf s).role (account 65) = some .admin := hrole
    rw [requireOwnerOrMultisig_run, if_pos hon, if_pos hadmin]
  · intro hrev
    exact (revoked_iff.1 hrev).notAdmin hrole

/-! ## The threshold -/

namespace Roster

/-- **The threshold is meaningful**: between one and the number of distinct owners. -/
structure Sound (ρ : Roster) : Prop where
  positive : 1 ≤ ρ.required
  reachable : ρ.required ≤ ρ.owners.length
  distinct : ρ.owners.Nodup

/-- The change does not upset it: it removes not the last owner, makes no owner primary
    that is listed already, and a proposal keeps the threshold within its bounds. -/
def respects (ρ : Roster) : Change → Prop
  | .transfer b => ∀ c, ρ.owner = some c → c ∈ ρ.owners → b ∈ ρ.owners → b = c
  | .remove b => ρ.owners ≠ [b]
  | .enactRemove b => ρ.required ≤ (ρ.without b).length
  | .enactRequire n => 1 ≤ n ∧ n ≤ ρ.owners.length
  | _ => True

theorem nodup_replace {l : List Address} {b c : Address} (h : l.Nodup) :
    (l.replace c b).Nodup ↔ (c ∈ l → b ∈ l → b = c) := by
  by_cases hbc : b = c
  · subst hbc; simp [replace_same, h]
  induction l with
  | nil => simp
  | cons o l ih =>
    obtain ⟨ho, hl⟩ := List.nodup_cons.1 h
    rw [List.replace_cons]
    by_cases hc : c = o
    · subst hc
      simp [hl, hbc]
    · have hno : (c == o) = false := by simpa using hc
      have hmem : o ∈ l.replace c b ↔ o = b ∧ c ∈ l := by
        rw [mem_replace hbc]; simp [ho]
      simp only [hno, List.nodup_cons, ih hl, hmem, List.mem_cons, hc, false_or]
      grind

theorem length_without (h : ρ.owners.Nodup) (ha : a ∈ ρ.owners) :
    (ρ.without a).length = ρ.owners.length - 1 := by
  have herase : ρ.without a = ρ.owners.erase a := by
    rw [h.erase_eq_filter, without]
    refine List.filter_congr fun b _ => ?_
    by_cases hb : b = a <;> simp [hb]
  rw [herase, List.length_erase_of_mem ha]

/-- **A change keeps the threshold meaningful exactly when it respects it.** -/
theorem sound_apply_iff (h : ρ.Sound) : (ρ.apply change).Sound ↔ ρ.respects change := by
  obtain ⟨hpos, hle, hnodup⟩ := h
  cases change with
  | transfer b =>
    simp only [Roster.apply, respects, handedOver]
    rcases hc : ρ.owner with _ | c
    · exact iff_of_true ⟨hpos, hle, hnodup⟩ (by simp)
    · simp only [Option.some.injEq, forall_eq']
      rw [← nodup_replace hnodup]
      constructor
      · rintro ⟨-, -, hd⟩
        exact hd
      · intro hd
        exact ⟨hpos, by simpa using hle, hd⟩
  | add b | enactAdd b =>
    refine iff_of_true ?_ trivial
    simp only [Roster.apply]
    split_ifs with hb
    · exact ⟨hpos, hle, hnodup⟩
    · refine ⟨hpos, ?_, ?_⟩
      · rw [List.length_append]; exact Nat.le_add_right_of_le hle
      · rw [List.nodup_append]
        exact ⟨hnodup, by simp, fun x hx y hy => by
          rw [List.mem_singleton.1 hy]; exact ne_of_mem_of_not_mem hx hb⟩
  | remove b =>
    simp only [Roster.apply, respects]
    by_cases hb : b ∈ ρ.owners
    · have hlen := length_without hnodup hb
      rw [if_pos hb]
      constructor
      · rintro ⟨hone, -, -⟩ hlast
        rw [hlast] at hlen
        simp only [hlen, List.length_singleton] at hone
        omega
      · intro hne
        -- another owner is left
        have htwo : 2 ≤ ρ.owners.length := by
          by_contra hlt
          have hlen1 : ρ.owners.length = 1 := by
            have := List.length_pos_of_mem hb
            omega
          obtain ⟨x, hx⟩ := List.length_eq_one_iff.1 hlen1
          rw [hx, List.mem_singleton] at hb
          exact hne (hb ▸ hx)
        refine ⟨le_min hpos ?_, min_le_right _ _, hnodup.filter _⟩
        rw [hlen]; omega
    · rw [if_neg hb, without_of_not_mem hb]
      refine iff_of_true ⟨hpos, hle, hnodup⟩ fun hlast => hb ?_
      rw [hlast]; simp
  | require n =>
    refine iff_of_true ?_ trivial
    simp only [Roster.apply]
    split_ifs with hn
    · exact ⟨hpos, hle, hnodup⟩
    · rw [not_or] at hn
      exact ⟨Nat.pos_of_ne_zero hn.1, not_lt.1 hn.2, hnodup⟩
  | enactRemove b =>
    constructor
    · rintro ⟨-, hle', -⟩
      exact hle'
    · intro hle'
      exact ⟨hpos, hle', hnodup.filter _⟩
  | enactRequire n =>
    constructor
    · rintro ⟨hpos', hle', -⟩
      exact ⟨hpos', hle'⟩
    · rintro ⟨hpos', hle'⟩
      exact ⟨hpos', hle', hnodup⟩
  | keep | assign b r | toggle e | enactTransfer b => exact iff_of_true ⟨hpos, hle, hnodup⟩ trivial

end Roster

/-- **The threshold is meaningful in every state of exactly the runs** that start from distinct
    owners and whose steps respect it. -/
theorem history_threshold {owners : List Address} {g m : ℕ} {s₀ : State D}
    {tr : List (State D × Action D)}
    (h₀ : (initializeLedger owners g m).run env Ledger.empty = .ok ((), s₀))
    (hrun : Run (Next H) s₀ tr s) :
    ((∀ p ∈ tr, (rosterOf p.1).Sound) ∧ (rosterOf s).Sound) ↔
      owners.Nodup ∧ ∀ p ∈ tr, (rosterOf p.1).respects (p.2.change p.1) := by
  obtain ⟨hroster, hne⟩ := roster_of_initialize h₀
  have hinit : (rosterOf s₀).Sound ↔ owners.Nodup := by
    rw [hroster]
    constructor
    · rintro ⟨-, -, hd⟩
      exact hd
    · intro hd
      exact ⟨le_rfl, List.length_pos_iff.2 hne, hd⟩
  have hiff : (rosterOf s₀).Sound → (((∀ p ∈ tr, (rosterOf p.1).Sound) ∧ (rosterOf s).Sound) ↔
      ∀ p ∈ tr, (rosterOf p.1).respects (p.2.change p.1)) := by
    intro hs₀
    refine hrun.always_iff (C := fun s a => (rosterOf s).respects (a.change s)) (P := fun _ _ => True)
      (I := fun s => (rosterOf s).Sound) (J := fun _ => True) trivial (fun _ _ _ _ _ => trivial) hs₀ ?_
      fun _ _ => trivial
    intro s a s' _ hn _ hs
    rw [next_roster hn]
    exact Roster.sound_apply_iff hs
  constructor
  · intro hall
    have hs₀ := hrun.start (I := fun s => (rosterOf s).Sound) hall
    exact ⟨hinit.1 hs₀, (hiff hs₀).1 hall⟩
  · rintro ⟨hd, hsteps⟩
    exact (hiff (hinit.2 hd)).2 hsteps

/-- A second owner, a second signature, and one owner less. -/
def signersScript : List (Env × Op Bytes) :=
  [(openEnv 11, .addOwner (account 65) (account 66)), (openEnv 12, .setRequiredSignatures (account 65) 2),
    (openEnv 13, .removeOwner (account 65) (account 66))]

theorem history_threshold_signersScript : ∃ s, Reachable plainHost s ∧ (rosterOf s).Sound := by
  let s₀ : State Bytes := deployed (openEnv 10) (account 65) 100 50
  obtain ⟨s, hs⟩ : ∃ s, play plainHost s₀ signersScript = some s :=
    Option.isSome_iff_exists.1 (by decide)
  have hrun := run_of_play hs
  refine ⟨s, ⟨_, s₀, init_deployed rfl 100 50, hrun⟩,
    ((history_threshold (deployed_run rfl 100 50) hrun).2 ⟨by simp, ?_⟩).2⟩
  have hall : (traceOf plainHost s₀ signersScript).all
      (fun p => (rosterOf p.1).owners ≠ [account 66]) = true := by decide
  rintro ⟨s₁, act⟩ hp
  have hlist := of_decide_eq_true (List.all_eq_true.1 hall _ hp)
  cases act with
  | call env op =>
    have hop := mem_of_mem_traceOf hp
    simp only [signersScript, List.mem_cons, Prod.mk.injEq, List.not_mem_nil, or_false] at hop
    rcases hop with ⟨-, rfl⟩ | ⟨-, rfl⟩ | ⟨-, rfl⟩
    · exact trivial
    · exact trivial
    · exact hlist
  | expireTemporary f k => exact trivial
  | expirePersistent f k => exact trivial

/-- A proposal that asks for more signatures than there are owners. -/
def lockedScript : List (Env × Op Bytes) :=
  [(openEnv 11, .submitProposal (account 65) (.setRequiredSignatures 9) 100),
    (openEnv 12, .executeProposal (account 65) 0)]

/-- One owner, and nine signatures. -/
theorem threshold_out_of_reach : ∃ s : State Bytes, Reachable plainHost s ∧
    (rosterOf s).owners = [account 65] ∧ (rosterOf s).required = 9 ∧ ¬(rosterOf s).Sound := by
  let s₀ : State Bytes := deployed (openEnv 10) (account 65) 100 50
  obtain ⟨s, hs⟩ : ∃ s, play plainHost s₀ lockedScript = some s :=
    Option.isSome_iff_exists.1 (by decide)
  have after : (play plainHost s₀ lockedScript).map
      (fun s => ((rosterOf s).owners, (rosterOf s).required)) = some ([account 65], 9) := by
    decide
  rw [hs] at after
  simp only [Option.map_some, Option.some.injEq, Prod.mk.injEq] at after
  obtain ⟨howners, hreq⟩ := after
  refine ⟨s, ⟨_, history_of_play (init_deployed rfl 100 50) hs⟩, howners, hreq, ?_⟩
  rintro ⟨-, hle, -⟩
  rw [howners, hreq] at hle
  simp at hle

end AuditLedger
