/-
  AuditLedger — enforcing roles.

  The switch of role enforcement decides which records the check of every owner
  operation reads: the owners, or the Admin roles.  Roles are seeded for the owners
  of the deployment, and an ownership change keeps them in step only on some paths
  and only while they are enforced.

  * `Roster.aligned_apply_iff`: the changes that keep the two in step;
  * `history_seamless`: the switch makes no difference in every state of exactly the
    histories that consist of such changes.
-/
import AuditTransparency.Ledger.Owners
import AuditTransparency.Ledger.Enactment

namespace AuditLedger

open Soroban
open Soroban.Call hiding hasPers publish

variable {D : Type} [DecidableEq D] {H : Host D} {env : Env} {s s' : State D} {act : Action D}
  {a b c : Address} {ρ : Roster} {change : Change}

/-! ## Owners and admins -/

namespace Roster

/-- The owners are the admins. -/
def Aligned (ρ : Roster) : Prop := ∀ a, ρ.IsOwner a ↔ ρ.role a = some .admin

/-- The change makes an owner exactly when it makes an admin, and takes away one with the other. -/
def tracks (ρ : Roster) : Change → Prop
  | .add b => b ∈ ρ.owners ∨ ρ.rbac = true ∨ ρ.owner = some b
  | .remove b | .enactRemove b => b ∈ ρ.owners → ρ.owner = some b
  | .transfer b =>
    (ρ.rbac = false → ρ.IsOwner b) ∧
      ∀ c, ρ.owner = some c → c ≠ b → (ρ.rbac = true ↔ ρ.owners.count c ≤ 1)
  | .enactAdd b => ρ.IsOwner b
  | .enactTransfer b => ρ.IsOwner b ∧ ∀ c, ρ.owner = some c → c ≠ b → c ∈ ρ.owners
  | .assign b r => ρ.IsOwner b ↔ r = some .admin
  | .keep | .require _ | .toggle _ | .enactRequire _ => True

/-- Who is an admin after a transfer. -/
theorem admin_transfer : (ρ.apply (.transfer b)).role a = some .admin ↔
    if ρ.rbac = false then ρ.role a = some .admin
    else a = b ∨ (ρ.owner ≠ some a ∧ ρ.role a = some .admin) := by
  simp only [apply]
  by_cases hoff : ρ.rbac = false
  · simp [hoff]
  · by_cases hb : a = b
    · simp [hoff, hb]
    · by_cases hown : ρ.owner = some a
      · by_cases hrole : ρ.role a = some .admin <;> simp [hoff, hb, hown, hrole]
      · simp [hoff, hb, hown]

theorem aligned_transfer_iff (h : ρ.Aligned) :
    (ρ.apply (.transfer b)).Aligned ↔ ρ.tracks (.transfer b) := by
  have hiff : ∀ a, ((ρ.apply (.transfer b)).IsOwner a ↔ (ρ.apply (.transfer b)).role a = some .admin) ↔
      ((b = a ∨ (ρ.IsOwner a ∧ ¬(ρ.owner = some a ∧ b ≠ a ∧ ρ.owners.count a ≤ 1))) ↔
        if ρ.rbac = false then ρ.IsOwner a else a = b ∨ (ρ.owner ≠ some a ∧ ρ.IsOwner a)) := by
    intro a
    rw [isOwner_apply, admin_transfer, ← h a]
    rfl
  rw [Aligned, forall_congr' hiff, tracks]
  have primary : ∀ {c}, ρ.owner = some c → ρ.IsOwner c := Or.inr
  rcases ρ.rbac with _ | _
  · simp only [if_true, true_implies, Bool.false_eq_true, false_iff]
    constructor
    · intro hall
      refine ⟨(hall b).1 (Or.inl rfl), fun c hc hcb hle => ?_⟩
      rcases (hall c).2 (primary hc) with hbc | ⟨-, hno⟩
      · exact hcb hbc.symm
      · exact hno ⟨hc, Ne.symm hcb, hle⟩
    · rintro ⟨hb, hc⟩ a
      constructor
      · rintro (rfl | ⟨ha, -⟩)
        · exact hb
        · exact ha
      · intro ha
        refine or_iff_not_imp_left.2 fun hne => ⟨ha, ?_⟩
        rintro ⟨hown, hne', hle⟩
        exact hc a hown (Ne.symm hne') hle
  · simp only [Bool.true_eq_false, if_false, false_implies, true_and, true_iff]
    constructor
    · intro hall c hc hcb
      by_contra hgt
      rcases (hall c).1 (Or.inr ⟨primary hc, fun hno => hgt hno.2.2⟩) with hbc | ⟨hno, -⟩
      · exact hcb hbc
      · exact hno hc
    · intro hc a
      constructor
      · rintro (rfl | ⟨ha, hno⟩)
        · exact Or.inl rfl
        · refine or_iff_not_imp_left.2 fun hne => ⟨fun hown => ?_, ha⟩
          exact hno ⟨hown, Ne.symm hne, hc a hown hne⟩
      · rintro (rfl | ⟨hown, ha⟩)
        · exact Or.inl rfl
        · exact Or.inr ⟨ha, fun hno => hown hno.1⟩

/-- **A change keeps owners and admins in step exactly when it tracks both.** -/
theorem aligned_apply_iff (h : ρ.Aligned) : (ρ.apply change).Aligned ↔ ρ.tracks change := by
  cases change with
  | keep | require n | toggle e | enactRequire n => exact iff_of_true h trivial
  | transfer b => exact aligned_transfer_iff h
  | add b =>
    simp only [apply, tracks]
    by_cases hb : b ∈ ρ.owners
    · simp [hb, h]
    · rw [if_neg hb]
      have hrole := h b
      rcases hrbac : ρ.rbac with _ | _
      · simp only [Aligned, IsOwner, Bool.false_eq_true, false_and, if_false] at h hrole ⊢
        constructor
        · intro hall
          have := hall b
          grind
        · intro hown a
          have := h a
          grind
      · refine iff_of_true (fun a => ?_) (Or.inr (Or.inl rfl))
        have := h a
        simp only [IsOwner] at this ⊢
        grind
  | remove b | enactRemove b =>
    simp only [Aligned, apply, tracks, IsOwner, mem_without] at h ⊢
    constructor
    · intro hall hb
      have := hall b
      have := h b
      grind
    · intro hb a
      have := h a
      grind
  | enactAdd b =>
    simp only [apply, tracks]
    by_cases hb : b ∈ ρ.owners
    · simp [hb, h, IsOwner]
    · rw [if_neg hb]
      simp only [Aligned, IsOwner] at h ⊢
      constructor
      · intro hall
        have := hall b
        have := h b
        grind
      · intro hown a
        have := h a
        grind
  | enactTransfer b =>
    simp only [Aligned, apply, tracks, IsOwner] at h ⊢
    constructor
    · intro hall
      refine ⟨(h b).2 ((hall b).1 (Or.inr rfl)), fun c hc hcb => ?_⟩
      have hcown := (hall c).2 ((h c).1 (Or.inr hc))
      exact hcown.resolve_right fun he => hcb (Option.some.inj he).symm
    · rintro ⟨hb, hc⟩ a
      have := h a
      grind
  | assign b r =>
    simp only [Aligned, apply, tracks, IsOwner] at h ⊢
    constructor
    · intro hall
      simpa using hall b
    · intro hb a
      by_cases ha : a = b
      · subst ha; simpa using hb
      · simpa [ha] using h a

end Roster

/-! ## The switch -/

/-- `a` passes the check of the owner operations. -/
def Passes (s : State D) (a : Address) : Prop :=
  ∀ env, (requireOwnerOrMultisig a : Fn D Unit).run env s = .ok ((), s)

/-- **Switching enforcement makes no difference**: whoever calls `enable_rbac`, the same addresses
    pass the check after it as before. -/
def Seamless (H : Host D) (s : State D) : Prop :=
  ∀ env caller enabled r s', Step H env (.enableRbac caller enabled) s r s' →
    ∀ a, Passes s' a ↔ Passes s a

theorem passes_iff : Passes s a ↔
    if (rosterOf s).rbac = true then (rosterOf s).role a = some .admin else (rosterOf s).IsOwner a := by
  constructor
  · intro hpass
    have hrun := hpass ⟨0, 0, fun _ => true, fun _ => 0⟩
    rw [requireOwnerOrMultisig_run] at hrun
    split_ifs at hrun ⊢ <;> assumption
  · intro hcan env
    rw [requireOwnerOrMultisig_run]
    split_ifs at hcan ⊢ <;> rfl

/-- What keeps the switch within reach: a primary owner and an admin. -/
structure Staffed (s : State D) : Prop where
  deployed : Deployed s
  admin : ∃ a, (rosterOf s).role a = some .admin

/-- Anyone who passes the check can switch. -/
theorem enableRbac_step (hd : Deployed s) (hpass : Passes s a) (hauth : env.auth a = true)
    (enabled : Bool) : ∃ s', Step H env (.enableRbac a enabled) s .unit s' := by
  have hinit : (requireInitialized : Fn D Unit).run env s = .ok ((), s) := by
    obtain ⟨o, ho⟩ := Option.isSome_iff_exists.1 hd.owner
    obtain ⟨c, hc⟩ := Option.isSome_iff_exists.1 hd.config
    simp [requireInitialized, run_bind, run_rejectIf, ho, hc, Except.bind]
  have hself : (requireAuth a : Fn D Unit).run env s = .ok ((), s) := by
    rw [run_requireAuth, if_pos hauth]
  have hrbac : (rbacEnabled : Fn D Bool).run env s = .ok ((rosterOf s).rbac, s) := rfl
  have hadmin : (requireAdmin a : Fn D Unit).run env s = .ok ((), s) := by
    have hcheck := hpass env
    rw [requireOwnerOrMultisig, run_bind_ok _ _ hrbac] at hcheck
    rw [requireAdmin, run_bind_ok _ _ hinit, run_bind_ok _ _ hself, run_bind_ok _ _ hrbac]
    by_cases hon : (rosterOf s).rbac = true
    · rw [if_pos hon] at hcheck ⊢
      exact hcheck
    · rw [if_neg hon]
      exact hpass env
  obtain ⟨s', hs⟩ : ∃ s', (enableRbac a enabled).run env s = .ok ((), s') :=
    ⟨_, by rw [enableRbac, run_bind_ok _ _ hadmin]; rfl⟩
  refine ⟨s', ?_⟩
  show (exec H (.enableRbac a enabled)).run env s = _
  rw [exec, run_bind_ok _ _ hs]
  rfl

/-- The switch makes no difference exactly where the owners are the admins. -/
theorem seamless_iff (h : Staffed s) : Seamless H s ↔ (rosterOf s).Aligned := by
  constructor
  · intro hseam
    -- someone passes the check, and switches
    obtain ⟨x, hx⟩ : ∃ x, Passes s x := by
      simp only [passes_iff]
      by_cases hon : (rosterOf s).rbac = true
      · obtain ⟨x, hx⟩ := h.admin
        exact ⟨x, by rw [if_pos hon]; exact hx⟩
      · obtain ⟨x, hx⟩ := Option.isSome_iff_exists.1 h.deployed.owner
        exact ⟨x, by rw [if_neg hon]; exact Or.inr hx⟩
    obtain ⟨env, hauth⟩ : ∃ env : Env, env.auth x = true := ⟨⟨0, 0, fun _ => true, fun _ => 0⟩, rfl⟩
    obtain ⟨s', hs⟩ := enableRbac_step (H := H) h.deployed hx hauth (!(rosterOf s).rbac)
    intro a
    have hiff := hseam _ _ _ _ _ hs a
    have hros : rosterOf s' = { rosterOf s with rbac := !(rosterOf s).rbac } := step_roster hs
    simp only [passes_iff, hros, Roster.IsOwner] at hiff ⊢
    rcases hon : (rosterOf s).rbac with _ | _
    · simp only [hon, Bool.not_false, if_true, Bool.false_eq_true, if_false] at hiff
      exact hiff.symm
    · simp only [hon, Bool.not_true, if_true, Bool.false_eq_true, if_false] at hiff
      exact hiff
  · intro hal env caller enabled r s' hs a
    have hros : rosterOf s' = { rosterOf s with rbac := enabled } := step_roster hs
    have ha := hal a
    simp only [passes_iff, hros, Roster.IsOwner] at ha ⊢
    split_ifs <;> simp [ha]

/-! ## Histories -/

theorem role_apply_some (h : ∃ a, ρ.role a = some .admin) (hset : ∀ b r, change ≠ .assign b r) :
    ∃ a, (ρ.apply change).role a = some .admin := by
  obtain ⟨a, ha⟩ := h
  cases change with
  | assign b r => exact absurd rfl (hset b r)
  | transfer b =>
    by_cases hoff : ρ.rbac = false
    · exact ⟨a, by rw [Roster.admin_transfer, if_pos hoff]; exact ha⟩
    · exact ⟨b, by rw [Roster.admin_transfer, if_neg hoff]; exact Or.inl rfl⟩
  | add b =>
    refine ⟨a, ?_⟩
    simp only [Roster.apply]
    split_ifs <;> simp [ha]
  | enactAdd b =>
    refine ⟨a, ?_⟩
    simp only [Roster.apply]
    split_ifs <;> exact ha
  | keep | remove b | require n | toggle e | enactTransfer b | enactRemove b | enactRequire n =>
    exact ⟨a, ha⟩

/-- The call is not `set_role`. -/
def Action.setsNoRole (act : Action D) : Prop :=
  ∀ env caller target role, act ≠ .call env (.setRole caller target role)

theorem change_ne_assign (h : act.setsNoRole) (b : Address) (r : Option Role) :
    act.change s ≠ .assign b r := by
  cases act with
  | call env op =>
    cases op with
    | setRole caller target role => exact absurd rfl (h env caller target role)
    | executeProposal caller id =>
      simp only [Action.change, Op.change]
      rcases enacted s env.timestamp id with _ | action
      · exact Change.noConfusion
      · cases action <;> exact Change.noConfusion
    | _ => exact Change.noConfusion
  | _ => exact Change.noConfusion

theorem staffed_next (hset : act.setsNoRole) (hn : Next H s act s') (h : Staffed s) : Staffed s' := by
  refine ⟨?_, ?_⟩
  · cases act with
    | call env op =>
      obtain ⟨r, hs⟩ := hn
      exact deployed_step h.deployed hs
    | expireTemporary f k | expirePersistent f k =>
      rw [Next] at hn; subst hn
      exact h.deployed.of_eq fun _ _ => rfl
  · rw [next_roster hn]
    exact role_apply_some h.admin (change_ne_assign hset)

/-- **The switch makes no difference in every state of exactly the histories whose steps track
    both owners and admins**, as long as no role is set by hand. -/
theorem history_seamless {tr : List (State D × Action D)} (h : History H tr s)
    (hset : ∀ p ∈ tr, p.2.setsNoRole) :
    ((∀ p ∈ tr, Seamless H p.1) ∧ Seamless H s) ↔
      ∀ p ∈ tr, (rosterOf p.1).tracks (p.2.change p.1) := by
  obtain ⟨s₀, h₀, hrun⟩ := h
  have hdeployed := deployed_of_init h₀
  obtain ⟨env, owners, g, m, hinit⟩ := h₀
  obtain ⟨hros, hne⟩ := roster_of_initialize hinit
  have halign : (rosterOf s₀).Aligned := by
    intro a
    rw [hros]
    simp only [Roster.IsOwner, initialRoster]
    constructor
    · rintro (ha | ha)
      · simp [ha]
      · simp [List.mem_of_head? ha]
    · intro ha
      by_contra hno
      rw [if_neg fun hm => hno (Or.inl hm)] at ha
      cases ha
  have hstaffed : Staffed s₀ := by
    refine ⟨hdeployed, owners.head hne, ?_⟩
    rw [hros]
    simp [initialRoster]
  obtain ⟨hall, hlast⟩ := hrun.always (C := fun _ act => act.setsNoRole) hstaffed
    (fun _ _ _ hset hn => staffed_next hset hn) hset
  have hcongr : ((∀ p ∈ tr, Seamless H p.1) ∧ Seamless H s) ↔
      (∀ p ∈ tr, (rosterOf p.1).Aligned) ∧ (rosterOf s).Aligned := by
    rw [seamless_iff hlast]
    refine and_congr_left' (forall₂_congr fun p hp => seamless_iff (hall p hp))
  rw [hcongr]
  refine hrun.always_iff (C := fun s act => (rosterOf s).tracks (act.change s)) (P := fun _ _ => True)
    (I := fun s => (rosterOf s).Aligned) (J := fun _ => True) trivial (fun _ _ _ _ _ => trivial)
    halign ?_ fun _ _ => trivial
  intro s act s' _ hn _ hs
  rw [next_roster hn]
  exact Roster.aligned_apply_iff hs

/-- Roles are enforced before an owner is added. -/
def staffedScript : List (Env × Op Bytes) :=
  [(openEnv 11, .enableRbac (account 65) true), (openEnv 12, .addOwner (account 65) (account 66)),
    (openEnv 13, .enableRbac (account 66) false)]

theorem history_seamless_staffedScript : ∃ s, Reachable plainHost s ∧
    (rosterOf s).owners = [account 65, account 66] ∧ Seamless plainHost s := by
  let s₀ : State Bytes := deployed (openEnv 10) (account 65) 100 50
  obtain ⟨s, hs⟩ : ∃ s, play plainHost s₀ staffedScript = some s :=
    Option.isSome_iff_exists.1 (by decide)
  have hist := history_of_play (init_deployed rfl 100 50) hs
  have after : (play plainHost s₀ staffedScript).map (fun s => (rosterOf s).owners) =
      some [account 65, account 66] := by decide
  rw [hs, Option.map_some, Option.some.injEq] at after
  refine ⟨s, ⟨_, hist⟩, after, ((history_seamless hist ?_).2 ?_).2⟩
  · intro p hp env a b r heq
    obtain ⟨env', op, hact, hmem⟩ := call_of_mem_traceOf hp
    rw [hact] at heq
    cases heq
    simp [staffedScript] at hmem
  · have hon : ((traceOf plainHost s₀ staffedScript).drop 1).all
        (fun p => (rosterOf p.1).rbac) = true := by
      decide
    have htrace : traceOf plainHost s₀ staffedScript =
        (s₀, .call (openEnv 11) (.enableRbac (account 65) true)) ::
          (traceOf plainHost s₀ staffedScript).drop 1 := rfl
    rintro ⟨s₁, act⟩ hp
    obtain ⟨env, op, rfl, hmem⟩ := call_of_mem_traceOf hp
    simp only [staffedScript, List.mem_cons, Prod.mk.injEq, List.not_mem_nil, or_false] at hmem
    rcases hmem with ⟨-, rfl⟩ | ⟨-, rfl⟩ | ⟨-, rfl⟩
    · exact trivial
    · rw [htrace] at hp
      rcases List.mem_cons.1 hp with heq | hp
      · cases heq
      · exact Or.inr (Or.inl (List.all_eq_true.1 hon _ hp))
    · exact trivial

/-- Owners come and go before roles are enforced. -/
def lockoutScript : List (Env × Op Bytes) :=
  [(openEnv 11, .addOwner (account 65) (account 66)), (openEnv 12, .addOwner (account 65) (account 67)),
    (openEnv 13, .transferOwnership (account 65) (account 66))]

/-- Enforcing roles turns away an owner, and lets back in one who has left. -/
theorem owner_locked_out : ∃ tr s₁ r s₂, History plainHost tr s₁ ∧ (∀ p ∈ tr, p.2.setsNoRole) ∧
    (rosterOf s₁).rbac = false ∧ Step plainHost (openEnv 14) (.enableRbac (account 66) true) s₁ r s₂ ∧
    Passes s₁ (account 67) ∧ ¬Passes s₂ (account 67) ∧
    ¬Passes s₁ (account 65) ∧ Passes s₂ (account 65) := by
  let s₀ : State Bytes := deployed (openEnv 10) (account 65) 100 50
  obtain ⟨s₂, hs⟩ : ∃ s, play plainHost s₀
      (lockoutScript ++ [(openEnv 14, .enableRbac (account 66) true)]) = some s :=
    Option.isSome_iff_exists.1 (by decide)
  obtain ⟨s₁, r, hpre, hstep⟩ := step_of_play hs
  have before : (play plainHost s₀ lockoutScript).map (fun s => ((rosterOf s).rbac,
      decide ((rosterOf s).IsOwner (account 67)), decide ((rosterOf s).IsOwner (account 65)))) =
      some (false, true, false) := by decide
  have after : (play plainHost s₀ (lockoutScript ++ [(openEnv 14, .enableRbac (account 66) true)])).map
      (fun s => ((rosterOf s).rbac, (rosterOf s).role (account 67), (rosterOf s).role (account 65))) =
      some (true, none, some .admin) := by decide
  rw [hpre] at before
  rw [hs] at after
  simp only [Option.map_some, Option.some.injEq, Prod.mk.injEq, decide_eq_true_eq,
    decide_eq_false_iff_not] at before after
  obtain ⟨hoff, hin, hout⟩ := before
  obtain ⟨hon, hnone, hadmin⟩ := after
  refine ⟨_, s₁, r, s₂, history_of_play (init_deployed rfl 100 50) hpre, ?_, hoff, hstep, ?_⟩
  · intro p hp env a b r heq
    obtain ⟨env', op, hact, hmem⟩ := call_of_mem_traceOf hp
    rw [hact] at heq
    cases heq
    simp [lockoutScript] at hmem
  · simp only [passes_iff, hoff, hon, if_true, Bool.false_eq_true, if_false]
    exact ⟨hin, by simp [hnone], hout, hadmin⟩

end AuditLedger
