/-
  ParametricInsurance — the capital of a pool.

  The capital of a pool is available, reserved or paid out, and what is reserved is the
  cover of the policies that are open (`Balanced`).  A cancellation moves cover back.  A
  claim takes the cover from the reserve and the payout from the available capital, so the
  cover itself is lost, and the policy stays active; a cancellation does not look at the
  status of the policy, and a premium makes a cancelled policy active again.

  * `Effect`: all that a successful call does to pools and policies;
  * `avoids_cancelPolicy`, `avoids_fileClaim`: the checks made before the reserve is reduced;
  * `history_balanced`: exactly when the accounts are right throughout a run of calls,
    accepted or refused.
-/
import AuditTransparency.Insurance.Contract
import AuditTransparency.Soroban.Sums
import AuditTransparency.Ledger.Contract

namespace ParametricInsurance

open Soroban
open Soroban.Call
open AuditLedger (openEnv account)

/-- The policy is neither cancelled nor paid out. -/
def Policy.Open (x : Policy) : Prop := x.status ≠ .cancelled ∧ x.claimsFiledThisYear = 0

instance (x : Policy) : Decidable x.Open := inferInstanceAs (Decidable (_ ∧ _))

/-- The cover that a policy holds in a pool while it is open. -/
def openCover (s : State) (p i : ℕ) : ℕ :=
  (s.inst .policy i).elim 0 fun x => if x.capitalPoolId = p ∧ x.Open then x.coverageAmount else 0

/-- The capital of every pool is accounted for. -/
structure Balanced (s : State) : Prop where
  capital : ∀ p, ∀ y ∈ s.inst .capitalPool p,
    y.availableCapital + y.reservedCapital + y.totalClaimsPaid = y.totalCapital
  reserve : ∀ p, ∀ y ∈ s.inst .capitalPool p, SumsTo (openCover s p) y.reservedCapital

/-- The policy whose cover an operation releases or pays out. -/
def Op.released : Op → Option ℕ
  | cancelPolicy _ i => some i
  | fileClaim _ i _ => some i
  | _ => none

/-- The policy whose cover a call releases or pays out: none if it is refused. -/
def releaseOf (p : State × (Env × Op)) : Option ℕ :=
  if (outcome exec p.1 p.2).isOk then p.2.2.released else none

/-- The policies whose cover was released or paid out, in the order of the calls. -/
def releases (tr : List (State × (Env × Op))) : List ℕ := tr.filterMap releaseOf

/-- What the pools promise, after the calls of a trace. -/
structure PoolsSound (tr : List (State × (Env × Op))) (s : State) : Prop where
  balanced : Balanced s
  once : (releases tr).Nodup
  defined : ∀ p ∈ tr, p.2.2.released.isSome → outcome exec p.1 p.2 ≠ .error .underflow
  solvent : ∀ p ∈ tr, ∀ a i v, p.2.2 = .fileClaim a i v → (outcome exec p.1 p.2).isOk →
    ∃ x ∈ p.1.inst .policy i, ∃ y ∈ (attempted exec p.1 p.2).inst .capitalPool x.capitalPoolId,
      ∃ g ∈ p.1.inst .config (), y.requiredReserve g ≤ y.availableCapital

/-! ## Checks -/

/-- A premium is paid by the holder in time, and the pool can book its share. -/
def PremiumChecked (s : State) (env : Env) (a : Address) (i n : ℕ) : Prop :=
  ∃ x ∈ s.inst .policy i, a = x.holder ∧ env.sequence ≤ x.expirationLedger ∧
    ∃ y ∈ s.inst .capitalPool x.capitalPoolId, n * y.premiumShareBps < 2 ^ 128 ∧
      (s.inst .poolPremiumEarned y.poolId).getD 0 + n * y.premiumShareBps / 10000 < 2 ^ 128

/-- The holder cancels, and the pool has room for the cover. -/
def CancelChecked (s : State) (a : Address) (i : ℕ) : Prop :=
  ∃ x ∈ s.inst .policy i, a = x.holder ∧ ∃ y ∈ s.inst .capitalPool x.capitalPoolId,
    y.availableCapital + x.coverageAmount < 2 ^ 128

/-- The policy is active and has a claim left, and the pool is solvent after the payout. -/
def ClaimChecked (s : State) (env : Env) (i : ℕ) : Prop :=
  ∃ x ∈ s.inst .policy i, x.status = .active ∧ env.sequence ≤ x.expirationLedger ∧
    x.claimsFiledThisYear < x.maxClaimsPerYear ∧ x.claimsFiledThisYear + 1 < 2 ^ 32 ∧
    nextClaimId s + 1 < 2 ^ 64 ∧ ∃ y ∈ s.inst .capitalPool x.capitalPoolId, ∃ g ∈ s.inst .config (),
      y.totalCapital * g.solvencyRatioBps < 2 ^ 128 ∧ y.requiredReserve g + x.payoutAmount < 2 ^ 128 ∧
      y.requiredReserve g + x.payoutAmount ≤ y.availableCapital ∧ y.totalClaimsPaid + x.payoutAmount < 2 ^ 128

instance (s : State) (env : Env) (a : Address) (i n : ℕ) : Decidable (PremiumChecked s env a i n) :=
  inferInstanceAs (Decidable (∃ x ∈ s.inst .policy i, _ ∧ _ ∧ ∃ y ∈ s.inst .capitalPool x.capitalPoolId, _))

instance (s : State) (a : Address) (i : ℕ) : Decidable (CancelChecked s a i) :=
  inferInstanceAs (Decidable (∃ x ∈ s.inst .policy i, _ ∧ ∃ y ∈ s.inst .capitalPool x.capitalPoolId, _))

instance (s : State) (env : Env) (i : ℕ) : Decidable (ClaimChecked s env i) :=
  inferInstanceAs (Decidable (∃ x ∈ s.inst .policy i, _ ∧ _ ∧ _ ∧ _ ∧ _ ∧
    ∃ y ∈ s.inst .capitalPool x.capitalPoolId, ∃ g ∈ s.inst .config (), _))

/-- Cover is released once; a claim pays for no cover at all; and no premium is paid for cover that was
    released. -/
def ReleasesOnce (tr : List (State × (Env × Op))) (p : State × (Env × Op)) : Prop :=
  match p.2.2 with
  | .payPremium a i n => PremiumChecked p.1 p.2.1 a i n → ∀ x ∈ p.1.inst .policy i,
      x.status = .cancelled → x.claimsFiledThisYear = 0 → x.coverageAmount = 0
  | .cancelPolicy a i => CancelChecked p.1 a i → i ∉ releases tr
  | .fileClaim _ i _ => ClaimChecked p.1 p.2.1 i →
      i ∉ releases tr ∧ ∀ x ∈ p.1.inst .policy i, x.coverageAmount = 0
  | _ => True

instance ReleasesOnce.decidable (tr : List (State × (Env × Op))) :
    (p : State × (Env × Op)) → Decidable (ReleasesOnce tr p)
  | (s, (env, .payPremium a i n)) => inferInstanceAs (Decidable (PremiumChecked s env a i n →
      ∀ x ∈ s.inst .policy i, x.status = .cancelled → x.claimsFiledThisYear = 0 → x.coverageAmount = 0))
  | (s, (_, .cancelPolicy a i)) => inferInstanceAs (Decidable (CancelChecked s a i → i ∉ releases tr))
  | (s, (env, .fileClaim _ i _)) => inferInstanceAs (Decidable (ClaimChecked s env i →
      i ∉ releases tr ∧ ∀ x ∈ s.inst .policy i, x.coverageAmount = 0))
  | (_, (_, .createCapitalPool ..)) | (_, (_, .contributeToPool ..)) | (_, (_, .purchasePolicy ..)) =>
    inferInstanceAs (Decidable True)

/-- There are no pools and no policies yet. -/
structure NoPools (s : State) : Prop where
  pool : ∀ p, s.inst .capitalPool p = none
  policy : ∀ i, s.inst .policy i = none

/-! ## Effects -/

/-- What a successful call does to pools and policies. -/
inductive Effect (s s' : State) : Env × Op → Prop
  | create {env a n m y} : s'.inst .policy = s.inst .policy →
      s'.inst .capitalPool = Function.update (s.inst .capitalPool) (nextPoolId s) (some y) →
      y.totalCapital = 0 → y.availableCapital = 0 → y.reservedCapital = 0 → y.totalClaimsPaid = 0 →
      Effect s s' (env, .createCapitalPool a n m)
  | contribute {env a p n y} : s'.inst .policy = s.inst .policy → s.inst .capitalPool p = some y →
      s'.inst .capitalPool = Function.update (s.inst .capitalPool) p (some { y with
        totalCapital := y.totalCapital + n
        availableCapital := y.availableCapital + n }) → Effect s s' (env, .contributeToPool a p n)
  | purchase {env a k n m d c l o t p x y u} : s.inst .capitalPool p = some y → n ≤ y.availableCapital →
      x.capitalPoolId = p → x.coverageAmount = n → x.Open →
      s'.inst .policy = Function.update (s.inst .policy) (nextPolicyId s) (some x) →
      s'.inst .capitalPool = Function.update (s.inst .capitalPool) p (some { y with
        availableCapital := y.availableCapital - n
        reservedCapital := y.reservedCapital + n
        policyIds := u }) → Effect s s' (env, .purchasePolicy a k n m d c l o t p)
  | premium {env a i n x y} : s.inst .policy i = some x → s.inst .capitalPool x.capitalPoolId = some y →
      s'.inst .policy = Function.update (s.inst .policy) i (some { x with
        lastPremiumLedger := env.sequence
        status := .active }) →
      s'.inst .capitalPool = s.inst .capitalPool → Effect s s' (env, .payPremium a i n)
  | cancel {env a i x y} : s.inst .policy i = some x → s.inst .capitalPool x.capitalPoolId = some y →
      x.coverageAmount ≤ y.reservedCapital →
      s'.inst .policy = Function.update (s.inst .policy) i (some { x with status := .cancelled }) →
      s'.inst .capitalPool = Function.update (s.inst .capitalPool) x.capitalPoolId (some { y with
        availableCapital := y.availableCapital + x.coverageAmount
        reservedCapital := y.reservedCapital - x.coverageAmount }) → Effect s s' (env, .cancelPolicy a i)
  | claim {env a i v x y g} : s.inst .policy i = some x → x.status = .active →
      s.inst .capitalPool x.capitalPoolId = some y → s.inst .config () = some g →
      y.requiredReserve g + x.payoutAmount ≤ y.availableCapital → x.coverageAmount ≤ y.reservedCapital →
      s'.inst .policy = Function.update (s.inst .policy) i
        (some { x with claimsFiledThisYear := x.claimsFiledThisYear + 1 }) →
      s'.inst .capitalPool = Function.update (s.inst .capitalPool) x.capitalPoolId (some { y with
        availableCapital := y.availableCapital - x.payoutAmount
        totalClaimsPaid := y.totalClaimsPaid + x.payoutAmount
        reservedCapital := y.reservedCapital - x.coverageAmount }) → Effect s s' (env, .fileClaim a i v)

section
variable {s₀ s s' : State} {env : Env} {a : Address} {i p n : ℕ} {v : Bytes} {c : Env × Op} {r : Option ℕ}
  {tr : List (State × (Env × Op))}

/-- The contract starts without pools and policies. -/
theorem noPools_initialized {o : Address} {k l t q : ℕ}
    (h : (initializeInsurance a o k l t q).run env Ledger.empty = .ok ((), s)) : NoPools s := by
  refine Post.of_run (m := initializeInsurance a o k l t q) (Q := fun _ s => NoPools s) ?_ h
  simp only [initializeInsurance, post_bind, post_requireAuth, post_load, post_rejectIf, post_store]
  intro _ _
  exact ⟨fun _ => rfl, fun _ => rfl⟩

theorem effect_of_run (hr : (exec c.2).run c.1 s = .ok (r, s')) : Effect s s' c := by
  obtain ⟨env, op⟩ := c
  cases op with
  | createCapitalPool a n m =>
    obtain ⟨p, hr, -⟩ := of_run_map _ _ hr
    obtain rfl := created hr
    exact .create (y := ⟨nextPoolId s, a, 0, 0, 0, n, m, [], 0, 500⟩) rfl rfl rfl rfl rfl rfl
  | contributeToPool a p n =>
    obtain ⟨_, hr, -⟩ := of_run_map _ _ hr
    obtain ⟨y, z, hy, rfl⟩ := contributed hr
    exact .contribute rfl hy rfl
  | purchasePolicy a k n m d c l o t p =>
    obtain ⟨i, hr, -⟩ := of_run_map _ _ hr
    obtain ⟨y, e, u, hy, hle, rfl⟩ := purchased hr
    refine .purchase hy hle rfl rfl ?_ rfl rfl
    exact ⟨nofun, rfl⟩
  | payPremium a i n =>
    obtain ⟨_, hr, -⟩ := of_run_map _ _ hr
    obtain ⟨x, y, e, hx, hy, rfl⟩ := premiumPaid hr
    exact .premium hx hy rfl rfl
  | cancelPolicy a i =>
    obtain ⟨_, hr, -⟩ := of_run_map _ _ hr
    obtain ⟨x, y, hx, hy, hle, rfl⟩ := cancelled hr
    exact .cancel hx hy hle rfl rfl
  | fileClaim a i v =>
    obtain ⟨n, hr, -⟩ := of_run_map _ _ hr
    obtain ⟨x, y, g, z, hx, hactive, hy, hg, hsolvent, hle, rfl⟩ := claimed hr
    exact .claim hx hactive hy hg hsolvent hle rfl rfl

/-- Ids do not run backwards, and a new pool or policy uses one up. -/
theorem ids_step (hr : (exec c.2).run c.1 s = .ok (r, s')) :
    (nextPoolId s ≤ nextPoolId s' ∧ ∀ a n m, c.2 = .createCapitalPool a n m → nextPoolId s < nextPoolId s') ∧
    nextPolicyId s ≤ nextPolicyId s' ∧
      ∀ a k n m d l e o t p, c.2 = .purchasePolicy a k n m d l e o t p →
        nextPolicyId s < nextPolicyId s' := by
  obtain ⟨env, op⟩ := c
  have hframe := (exec_writes op).of_run hr
  cases op with
  | createCapitalPool a n m =>
    obtain ⟨p, hr, -⟩ := of_run_map _ _ hr
    obtain rfl := created hr
    exact ⟨⟨Nat.le_succ _, fun _ _ _ _ => Nat.lt_succ_self _⟩, Nat.le_refl _, nofun⟩
  | purchasePolicy a k n m d c l o t p =>
    obtain ⟨i, hr, -⟩ := of_run_map _ _ hr
    obtain ⟨y, e, u, -, -, rfl⟩ := purchased hr
    exact ⟨⟨Nat.le_refl _, nofun⟩, Nat.le_succ _, fun _ _ _ _ _ _ _ _ _ _ _ => Nat.lt_succ_self _⟩
  | _ =>
    refine ⟨⟨?_, nofun⟩, ?_, nofun⟩
    · rw [nextPoolId, nextPoolId, hframe.inst (notMem_of_eval rfl)]
    · rw [nextPolicyId, nextPolicyId, hframe.inst (notMem_of_eval rfl)]

theorem avoids_payPremium :
    Avoids (payPremium a i n) (fun _ => True) env s ↔ PremiumChecked s env a i n := by
  simp only [payPremium, getPolicyOrPanic, getPoolOrPanic, avoids_bind, avoids_load, avoids_unwrapOr,
    avoids_rejectIf, avoids_getEnv, avoids_mulChecked, avoids_addChecked, avoids_store, post_bind, post_load,
    post_unwrapOr, post_rejectIf, post_getEnv, post_mulChecked, post_addChecked, post_store, ne_eq,
    not_true_eq_false, imp_false, not_lt, not_le, not_not, and_true, implies_true, true_and]
  constructor
  · rintro ⟨hx, h⟩
    obtain ⟨x, hx⟩ := Option.ne_none_iff_exists'.1 hx
    obtain ⟨ha, h⟩ := h x hx
    obtain ⟨htime, h⟩ := h ha
    obtain ⟨hy, h⟩ := h htime
    obtain ⟨y, hy⟩ := Option.ne_none_iff_exists'.1 hy
    obtain ⟨hshare, h⟩ := h y hy
    exact ⟨x, hx, ha, htime, y, hy, hshare, h hshare⟩
  · rintro ⟨x, hx, ha, htime, y, hy, hshare, hearned⟩
    refine ⟨fun hx' => Option.some_ne_none x (hx.symm.trans hx'), fun x' hx' => ?_⟩
    obtain rfl := Option.some.inj (hx.symm.trans hx')
    refine ⟨ha, fun _ => ⟨htime, fun _ => ⟨fun hy' => ?_, fun y' hy' => ?_⟩⟩⟩
    · exact Option.some_ne_none y (hy.symm.trans hy')
    · obtain rfl := Option.some.inj (hy.symm.trans hy')
      exact ⟨hshare, fun _ => hearned⟩

theorem avoids_cancelPolicy :
    Avoids (cancelPolicy a i) (· ≠ .underflow) env s ↔ CancelChecked s a i := by
  simp only [cancelPolicy, getPolicyOrPanic, getPoolOrPanic, avoids_bind, avoids_load, avoids_unwrapOr,
    avoids_rejectIf, avoids_addChecked, avoids_subChecked, avoids_store, post_bind, post_load, post_unwrapOr,
    post_rejectIf, post_addChecked, post_subChecked, post_store, ne_eq, reduceCtorEq, not_false_eq_true,
    not_true_eq_false, imp_false, not_le, not_not, and_true, implies_true, true_and]
  constructor
  · rintro ⟨hx, h⟩
    obtain ⟨x, hx⟩ := Option.ne_none_iff_exists'.1 hx
    obtain ⟨ha, h⟩ := h x hx
    obtain ⟨hy, h⟩ := h ha
    obtain ⟨y, hy⟩ := Option.ne_none_iff_exists'.1 hy
    exact ⟨x, hx, ha, y, hy, h y hy⟩
  · rintro ⟨x, hx, ha, y, hy, hroom⟩
    refine ⟨fun hx' => Option.some_ne_none x (hx.symm.trans hx'), fun x' hx' => ?_⟩
    obtain rfl := Option.some.inj (hx.symm.trans hx')
    refine ⟨ha, fun _ => ⟨fun hy' => Option.some_ne_none y (hy.symm.trans hy'), fun y' hy' => ?_⟩⟩
    obtain rfl := Option.some.inj (hy.symm.trans hy')
    exact hroom

theorem avoids_fileClaim : Avoids (fileClaim a i v) (· ≠ .underflow) env s ↔ ClaimChecked s env i := by
  simp only [fileClaim, getPolicyOrPanic, getPoolOrPanic, getNextClaimId, getConfig, avoids_bind, avoids_load,
    avoids_unwrapOr, avoids_rejectIf, avoids_getEnv, avoids_addChecked, avoids_mulChecked, avoids_subChecked,
    avoids_store, avoids_pure, post_bind, post_load, post_unwrapOr, post_rejectIf, post_getEnv,
      post_addChecked,
    post_mulChecked, post_subChecked, post_store, post_pure, ne_eq, reduceCtorEq, not_false_eq_true,
    not_true_eq_false, imp_false, not_lt, not_le, not_not, and_true, implies_true, true_and]
  constructor
  · rintro ⟨hx, h⟩
    obtain ⟨x, hx⟩ := Option.ne_none_iff_exists'.1 hx
    obtain ⟨hactive, h⟩ := h x hx
    obtain ⟨htime, h⟩ := h hactive
    obtain ⟨hlimit, h⟩ := h htime
    obtain ⟨hid, h⟩ := h hlimit
    obtain ⟨hcount, h⟩ := h hid
    obtain ⟨hy, h⟩ := h hcount
    obtain ⟨y, hy⟩ := Option.ne_none_iff_exists'.1 hy
    obtain ⟨hg, h⟩ := h y hy
    obtain ⟨g, hg⟩ := Option.ne_none_iff_exists'.1 hg
    obtain ⟨hratio, h⟩ := h g hg
    obtain ⟨hfits, h⟩ := h hratio
    obtain ⟨hsolvent, h⟩ := h hfits
    exact ⟨x, hx, hactive, htime, hlimit, hcount, hid, y, hy, g, hg, hratio, hfits, hsolvent,
      h hsolvent (le_of_add_le_right hsolvent)⟩
  · rintro ⟨x, hx, hactive, htime, hlimit, hcount, hid, y, hy, g, hg, hratio, hfits, hsolvent, hpaid⟩
    refine ⟨fun hx' => Option.some_ne_none x (hx.symm.trans hx'), fun x' hx' => ?_⟩
    obtain rfl := Option.some.inj (hx.symm.trans hx')
    refine ⟨hactive, fun _ => ⟨htime, fun _ => ⟨hlimit, fun _ => ⟨hid, fun _ => ⟨hcount, fun _ => ?_⟩⟩⟩⟩⟩
    refine ⟨fun hy' => Option.some_ne_none y (hy.symm.trans hy'), fun y' hy' => ?_⟩
    obtain rfl := Option.some.inj (hy.symm.trans hy')
    refine ⟨fun hg' => Option.some_ne_none g (hg.symm.trans hg'), fun g' hg' => ?_⟩
    obtain rfl := Option.some.inj (hg.symm.trans hg')
    exact ⟨hratio, fun _ => ⟨hfits, fun _ => ⟨hsolvent, fun _ _ => hpaid⟩⟩⟩

/-- A reserve that holds the cover of a policy can be reduced by it. -/
theorem cancelPolicy_covered (h : ∀ x ∈ s.inst .policy i, ∀ y ∈ s.inst .capitalPool x.capitalPoolId,
    x.coverageAmount ≤ y.reservedCapital) : Avoids (cancelPolicy a i) (· = .underflow) env s := by
  simp only [cancelPolicy, getPolicyOrPanic, getPoolOrPanic, avoids_bind, avoids_load, avoids_unwrapOr,
    avoids_rejectIf, avoids_addChecked, avoids_subChecked, avoids_store, post_bind, post_load, post_unwrapOr,
    post_rejectIf, post_addChecked, post_subChecked, post_store, reduceCtorEq, not_false_eq_true,
      implies_true,
    true_and, and_true, not_true_eq_false, imp_false, not_lt]
  intro x hx _ y hy _
  exact h x hx y hy

theorem fileClaim_covered (h : ∀ x ∈ s.inst .policy i, ∀ y ∈ s.inst .capitalPool x.capitalPoolId,
    x.coverageAmount ≤ y.reservedCapital) : Avoids (fileClaim a i v) (· = .underflow) env s := by
  simp only [fileClaim, getPolicyOrPanic, getPoolOrPanic, getNextClaimId, getConfig, avoids_bind, avoids_load,
    avoids_unwrapOr, avoids_rejectIf, avoids_getEnv, avoids_addChecked, avoids_mulChecked, avoids_subChecked,
    avoids_store, avoids_pure, post_bind, post_load, post_unwrapOr, post_rejectIf, post_getEnv,
      post_addChecked,
    post_mulChecked, post_subChecked, post_store, post_pure, reduceCtorEq, not_false_eq_true, implies_true,
    true_and, and_true, not_true_eq_false, imp_false, not_lt]
  intro x hx _ _ _ _ _ y hy _ _ _ _ hsolvent
  refine ⟨by omega, fun _ _ => ?_⟩
  exact h x hx y hy

/-! ## Accounts -/

/-- A call that changes at most one policy, and the pool it belongs to. -/
theorem Balanced.update {y y' : CapitalPool} (h : Balanced s) (hy : s.inst .capitalPool p = some y)
    (hy' : s'.inst .capitalPool = Function.update (s.inst .capitalPool) p (some y'))
    (hpolicy : ∀ j, j ≠ i → s'.inst .policy j = s.inst .policy j)
    (hcover : ∀ q, q ≠ p → openCover s' q i = openCover s q i) :
    Balanced s' ↔ y'.availableCapital + y'.reservedCapital + y'.totalClaimsPaid = y'.totalCapital ∧
      y'.reservedCapital + openCover s p i = y.reservedCapital + openCover s' p i := by
  have hother : ∀ q j, j ≠ i → openCover s' q j = openCover s q j := by
    intro q j hj
    rw [openCover, openCover, hpolicy j hj]
  have hp : s'.inst .capitalPool p = some y' := by rw [hy', Function.update_self]
  rw [← (h.reserve p y hy).change (hother p)]
  constructor
  · intro h'
    exact ⟨h'.capital p y' hp, h'.reserve p y' hp⟩
  · rintro ⟨hcapital, hreserve⟩
    refine ⟨fun q z hz => ?_, fun q z hz => ?_⟩ <;> by_cases hq : q = p
    · subst hq
      obtain rfl := Option.some.inj (hp.symm.trans hz)
      exact hcapital
    · rw [hy', Function.update_of_ne hq] at hz
      exact h.capital q z hz
    · subst hq
      obtain rfl := Option.some.inj (hp.symm.trans hz)
      exact hreserve
    · rw [hy', Function.update_of_ne hq] at hz
      refine (h.reserve q z hz).congr fun j => ?_
      by_cases hj : j = i
      · rw [hj, hcover q hq]
      · exact (hother q j hj).symm

/-- What holds of pools and policies in every run. -/
structure Kept (tr : List (State × (Env × Op))) (s : State) : Prop where
  unusedPool : ∀ p, nextPoolId s ≤ p → s.inst .capitalPool p = none
  unusedPolicy : ∀ i, nextPolicyId s ≤ i → s.inst .policy i = none
  backed : ∀ i, ∀ x ∈ s.inst .policy i, s.inst .capitalPool x.capitalPoolId ≠ none
  closed : ∀ i, ∀ x ∈ s.inst .policy i, ¬x.Open → i ∈ releases tr

theorem releases_concat {q : State × (Env × Op)} :
    releases (tr ++ [q]) = releases tr ++ (releaseOf q).toList := filterMap_concat

theorem mem_releases_concat {q : State × (Env × Op)} (h : i ∈ releases tr) : i ∈ releases (tr ++ [q]) := by
  rw [releases_concat]
  exact List.mem_append_left _ h

/-- A pool that exists is not removed. -/
theorem Effect.pool_ne_none (h : Effect s s' c) (hp : s.inst .capitalPool p ≠ none) :
    s'.inst .capitalPool p ≠ none := by
  have hset : ∀ q y, s'.inst .capitalPool = Function.update (s.inst .capitalPool) q (some y) →
      s'.inst .capitalPool p ≠ none := by
    intro q y hq
    rw [hq]
    by_cases he : p = q
    · rw [he, Function.update_self]
      nofun
    · rwa [Function.update_of_ne he]
  cases h with
  | premium _ _ _ hy => rwa [hy]
  | create _ hy | contribute _ _ hy | purchase _ _ _ _ _ _ hy | cancel _ _ _ _ hy
  | claim _ _ _ _ _ _ _ hy => exact hset _ _ hy

/-- A policy that exists after a call was there before, in the same pool, or is new.  It is closed by the
    call that releases its cover. -/
theorem Effect.policy_cases {x' : Policy} (h : Effect s s' c) (hx' : s'.inst .policy i = some x') :
    (s.inst .capitalPool x'.capitalPoolId ≠ none ∧ x'.Open) ∨
      ∃ x, s.inst .policy i = some x ∧ x'.capitalPoolId = x.capitalPoolId ∧
        (x.Open → x'.Open ∨ c.2.released = some i) := by
  have hold : s'.inst .policy i = s.inst .policy i → ∃ x, s.inst .policy i = some x ∧
      x'.capitalPoolId = x.capitalPoolId ∧ (x.Open → x'.Open ∨ c.2.released = some i) :=
    fun he => ⟨x', he ▸ hx', rfl, .inl⟩
  cases h with
  | create hx | contribute hx => exact .inr (hold (by rw [hx]))
  | @purchase _ _ _ _ _ _ _ _ _ _ _ x y _ hy _ hp _ hopen hx =>
    by_cases hi : i = nextPolicyId s
    · rw [hx, hi, Function.update_self] at hx'
      obtain rfl := Option.some.inj hx'
      exact .inl ⟨by rw [hp, hy]; exact Option.some_ne_none y, hopen⟩
    · exact .inr (hold (by rw [hx, Function.update_of_ne hi]))
  | @premium _ _ j _ x _ hx _ hxs =>
    by_cases hi : i = j
    · rw [hxs, hi, Function.update_self] at hx'
      obtain rfl := Option.some.inj hx'
      refine .inr ⟨x, hi ▸ hx, rfl, fun hopen => .inl ⟨?_, hopen.2⟩⟩
      show PolicyStatus.active ≠ .cancelled
      decide
    · exact .inr (hold (by rw [hxs, Function.update_of_ne hi]))
  | @cancel _ _ j x _ hx _ _ hxs | @claim _ _ j _ x _ _ hx _ _ _ _ _ hxs =>
    by_cases hi : i = j
    · rw [hxs, hi, Function.update_self] at hx'
      obtain rfl := Option.some.inj hx'
      exact .inr ⟨x, hi ▸ hx, rfl, fun _ => .inr (congrArg some hi.symm)⟩
    · exact .inr (hold (by rw [hxs, Function.update_of_ne hi]))

theorem releaseOf_ok (h : outcome exec s c = .ok r) : releaseOf (s, c) = c.2.released := by
  rw [releaseOf, h]
  rfl

theorem releaseOf_error {e : Trap InsuranceError} (h : outcome exec s c = .error e) :
    releaseOf (s, c) = none := by
  rw [releaseOf, h]
  rfl

theorem Kept.step (h : Kept tr s) (hs : Tries exec s c s') : Kept (tr ++ [(s, c)]) s' := by
  obtain ⟨r, hr, hout⟩ | ⟨e, -, -, rfl⟩ := hs.ok_or_error
  case inr =>
    exact ⟨h.unusedPool, h.unusedPolicy, h.backed, fun i x hx hc => mem_releases_concat (h.closed i x hx hc)⟩
  have heff := effect_of_run hr
  obtain ⟨⟨hpools, hnewPool⟩, hpolicies, hnewPolicy⟩ := ids_step hr
  refine ⟨fun p hp => ?_, fun i hi => ?_, fun i x' hx' => ?_, fun i x' hx' hclosed => ?_⟩
  · have hnone := h.unusedPool p (hpools.trans hp)
    cases heff with
    | premium _ _ _ hy => rw [hy, hnone]
    | create _ hy =>
      have hlt := hnewPool _ _ _ rfl
      have hne : p ≠ nextPoolId s := by omega
      rw [hy, Function.update_of_ne hne, hnone]
    | contribute _ hy hy' | purchase hy _ _ _ _ _ hy' | cancel _ hy _ _ hy' | claim _ _ hy _ _ _ _ hy' =>
      rw [hy', Function.update_of_ne, hnone]
      rintro rfl
      rw [hnone] at hy
      cases hy
  · have hnone := h.unusedPolicy i (hpolicies.trans hi)
    cases heff with
    | create hx | contribute hx => rw [hx, hnone]
    | purchase _ _ _ _ _ hx =>
      have hlt := hnewPolicy _ _ _ _ _ _ _ _ _ _ rfl
      have hne : i ≠ nextPolicyId s := by omega
      rw [hx, Function.update_of_ne hne, hnone]
    | premium hx _ hx' | cancel hx _ _ hx' | claim hx _ _ _ _ _ hx' =>
      rw [hx', Function.update_of_ne, hnone]
      rintro rfl
      rw [hnone] at hx
      cases hx
  · refine heff.pool_ne_none ?_
    obtain ⟨hpool, -⟩ | ⟨x, hx, hpool, -⟩ := heff.policy_cases hx'
    · exact hpool
    · rw [hpool]
      exact h.backed i x hx
  · obtain ⟨-, hopen⟩ | ⟨x, hx, -, hstays⟩ := heff.policy_cases hx'
    · exact absurd hopen hclosed
    · by_cases hopen : x.Open
      · rw [releases_concat, releaseOf_ok hout, (hstays hopen).resolve_left hclosed]
        exact List.mem_append_right _ (List.mem_singleton_self i)
      · exact mem_releases_concat (h.closed i x hx hopen)

theorem kept_of_run (h₀ : NoPools s₀) (h : Run (Tries exec) s₀ tr s) : Kept tr s := by
  induction h with
  | init =>
    refine ⟨fun p _ => h₀.pool p, fun i _ => h₀.policy i, fun i x hx => ?_, fun i x hx => ?_⟩ <;>
      rw [h₀.policy i] at hx <;> cases hx
  | snoc _ hs ih => exact ih.step hs

/-! ## Steps -/

theorem openCover_eq {x : Policy} (hx : s.inst .policy i = some x) :
    openCover s p i = if x.capitalPoolId = p ∧ x.Open then x.coverageAmount else 0 := by
  rw [openCover, hx]
  rfl

/-- A policy holds cover in its own pool only. -/
theorem openCover_of_ne {x : Policy} (hx : s.inst .policy i = some x) (hp : p ≠ x.capitalPoolId) :
    openCover s p i = 0 := by
  rw [openCover_eq hx]
  exact if_neg fun h => hp h.1.symm

/-- **A call that changes a policy and its pool.** -/
theorem Balanced.update_policy {x x' : Policy} {y y' : CapitalPool} (h : Balanced s)
    (hx : s.inst .policy i = some x) (hx' : s'.inst .policy = Function.update (s.inst .policy) i (some x'))
    (hp : x'.capitalPoolId = x.capitalPoolId) (hy : s.inst .capitalPool x.capitalPoolId = some y)
    (hy' : s'.inst .capitalPool = Function.update (s.inst .capitalPool) x.capitalPoolId (some y')) :
    Balanced s' ↔ y'.availableCapital + y'.reservedCapital + y'.totalClaimsPaid = y'.totalCapital ∧
      y'.reservedCapital + (if x.Open then x.coverageAmount else 0) =
        y.reservedCapital + (if x'.Open then x'.coverageAmount else 0) := by
  have hnew : s'.inst .policy i = some x' := by rw [hx', Function.update_self]
  have hother : ∀ q, q ≠ x.capitalPoolId → openCover s' q i = openCover s q i := by
    intro q hq
    rw [openCover_of_ne hx hq, openCover_of_ne hnew (hp ▸ hq)]
  rw [h.update hy hy' (fun j hj => by rw [hx', Function.update_of_ne hj]) hother, openCover_eq hx,
    openCover_eq hnew]
  simp only [hp, true_and]

/-- A new pool has no policies. -/
theorem Balanced.create {y : CapitalPool} (h : Balanced s) (hk : Kept tr s)
    (hx : s'.inst .policy = s.inst .policy)
    (hy : s'.inst .capitalPool = Function.update (s.inst .capitalPool) (nextPoolId s) (some y))
    (hcapital : y.availableCapital + y.reservedCapital + y.totalClaimsPaid = y.totalCapital)
    (hreserve : y.reservedCapital = 0) : Balanced s' := by
  refine ⟨fun q z hz => ?_, fun q z hz => ?_⟩ <;> rw [hy] at hz <;> by_cases hq : q = nextPoolId s
  · rw [hq, Function.update_self] at hz
    obtain rfl := Option.some.inj hz
    exact hcapital
  · rw [Function.update_of_ne hq] at hz
    exact h.capital q z hz
  · rw [hq, Function.update_self] at hz
    obtain rfl := Option.some.inj hz
    rw [hreserve]
    refine sumsTo_zero fun i => ?_
    rw [openCover, hx]
    rcases hi : s.inst .policy i with _ | x
    · rfl
    · refine if_neg fun he => hk.backed i x hi ?_
      rw [he.1, hq, hk.unusedPool _ (Nat.le_refl _)]
  · rw [Function.update_of_ne hq] at hz
    refine (h.reserve q z hz).congr fun i => ?_
    rw [openCover, openCover, hx]

/-- Whether a successful call keeps the accounts right. -/
def KeepsBalance (s : State) : Op → Prop
  | .payPremium _ i _ => ∀ x ∈ s.inst .policy i, x.status = .cancelled → x.claimsFiledThisYear = 0 →
      x.coverageAmount = 0
  | .cancelPolicy _ i => ∀ x ∈ s.inst .policy i, x.Open ∨ x.coverageAmount = 0
  | .fileClaim _ i _ => ∀ x ∈ s.inst .policy i, x.coverageAmount = 0
  | _ => True

/-- What is asked of the policy that is there. -/
theorem forall_mem_policy {x : Policy} {P : Policy → Prop} (hx : s.inst .policy i = some x) :
    (∀ z ∈ s.inst .policy i, P z) ↔ P x := by
  rw [hx]
  exact ⟨fun h => h x rfl, by rintro h _ ⟨⟩; exact h⟩

/-- **When a successful call keeps the accounts right.** -/
theorem Effect.balanced_iff (h : Effect s s' c) (hk : Kept tr s) (hb : Balanced s) :
    Balanced s' ↔ KeepsBalance s c.2 := by
  cases h with
  | create hx hy ht ha hr hc => exact iff_of_true (hb.create hk hx hy (by omega) hr) trivial
  | @contribute _ _ p n y hx hy hy' =>
    have hsame : ∀ q j, openCover s' q j = openCover s q j := fun q j => by rw [openCover, openCover, hx]
    have hcapital := hb.capital p y hy
    rw [hb.update (i := 0) hy hy' (fun j _ => by rw [hx]) fun q _ => hsame q 0, hsame]
    refine iff_of_true ⟨?_, rfl⟩ trivial
    show y.availableCapital + n + y.reservedCapital + y.totalClaimsPaid = y.totalCapital + n
    omega
  | @purchase _ _ _ n _ _ _ _ _ _ p x y u hy hle hp hn hopen hx hy' =>
    have hnone := hk.unusedPolicy _ (Nat.le_refl (nextPolicyId s))
    have hnew : s'.inst .policy (nextPolicyId s) = some x := by rw [hx, Function.update_self]
    have hbefore : ∀ q, openCover s q (nextPolicyId s) = 0 := fun q => by rw [openCover, hnone]; rfl
    have hcapital := hb.capital p y hy
    rw [hb.update hy hy' (fun j hj => by rw [hx, Function.update_of_ne hj])
      fun q hq => by rw [hbefore, openCover_of_ne hnew (hp ▸ hq)], hbefore, openCover_eq hnew,
      if_pos ⟨hp, hopen⟩, hn]
    refine iff_of_true ⟨?_, Nat.add_zero _⟩ trivial
    show y.availableCapital - n + (y.reservedCapital + n) + y.totalClaimsPaid = y.totalCapital
    omega
  | @premium env a i n x y hx hy hx' hy' =>
    have hpools : s'.inst .capitalPool = Function.update (s.inst .capitalPool) x.capitalPoolId (some y) := by
      rw [hy', ← hy, Function.update_eq_self]
    rw [hb.update_policy hx hx' rfl hy hpools, and_iff_right (hb.capital _ y hy), KeepsBalance,
      forall_mem_policy hx]
    by_cases hc : x.status = .cancelled <;> by_cases hf : x.claimsFiledThisYear = 0 <;>
      simp [Policy.Open, hc, hf]
  | @cancel _ a i x y hx hy hle hx' hy' =>
    have hcapital := hb.capital _ y hy
    have hclosed : ¬Policy.Open { x with status := .cancelled } := fun h => h.1 rfl
    rw [hb.update_policy hx hx' rfl hy hy', if_neg hclosed, KeepsBalance, forall_mem_policy hx]
    show y.availableCapital + x.coverageAmount + (y.reservedCapital - x.coverageAmount) + y.totalClaimsPaid =
      y.totalCapital ∧ y.reservedCapital - x.coverageAmount + _ = y.reservedCapital + 0 ↔ _
    by_cases hopen : x.Open
    · rw [if_pos hopen]
      exact iff_of_true ⟨by omega, by omega⟩ (.inl hopen)
    · rw [if_neg hopen, or_iff_right hopen]
      omega
  | @claim _ a i v x y g hx hactive hy _ hsolvent hle hx' hy' =>
    have hcapital := hb.capital _ y hy
    have hclosed : ¬Policy.Open { x with claimsFiledThisYear := x.claimsFiledThisYear + 1 } :=
      fun h => Nat.succ_ne_zero _ h.2
    rw [hb.update_policy hx hx' rfl hy hy', if_neg hclosed, KeepsBalance, forall_mem_policy hx]
    show y.availableCapital - x.payoutAmount + (y.reservedCapital - x.coverageAmount) +
      (y.totalClaimsPaid + x.payoutAmount) = y.totalCapital ∧
      y.reservedCapital - x.coverageAmount + _ = y.reservedCapital + 0 ↔ _
    -- the payout is accounted for, the cover is not
    constructor
    · rintro ⟨h, -⟩
      omega
    · intro hzero
      rw [hzero, ite_self]
      omega

/-- A policy whose cover was not released holds it in the reserve. -/
theorem covered (hk : Kept tr s) (hb : Balanced s) (hnew : i ∉ releases tr) :
    ∀ x ∈ s.inst .policy i, x.Open ∧
      ∀ y ∈ s.inst .capitalPool x.capitalPoolId, x.coverageAmount ≤ y.reservedCapital := by
  intro x hx
  have hopen : x.Open := by
    by_contra hclosed
    exact hnew (hk.closed i x hx hclosed)
  refine ⟨hopen, fun y hy => ?_⟩
  have hle := (hb.reserve _ y hy).le (k := i)
  rw [openCover_eq hx] at hle
  rwa [if_pos ⟨rfl, hopen⟩] at hle

/-- What a successful call has to keep. -/
theorem poolsSound_ok (h : PoolsSound tr s) (hr : (exec c.2).run c.1 s = .ok (r, s'))
    (hout : outcome exec s c = .ok r) : PoolsSound (tr ++ [(s, c)]) s' ↔
      Balanced s' ∧ ∀ i, c.2.released = some i → i ∉ releases tr := by
  have honce : (releases (tr ++ [(s, c)])).Nodup ↔ ∀ i, c.2.released = some i → i ∉ releases tr := by
    rw [releases_concat, releaseOf_ok hout, nodup_append_toList, and_iff_right h.once]
    exact Iff.rfl
  rw [← honce]
  refine ⟨fun h' => ⟨h'.balanced, h'.once⟩, fun ⟨hb, ho⟩ => ⟨hb, ho, ?_, ?_⟩⟩
  · simp only [List.forall_mem_append, List.forall_mem_singleton]
    exact ⟨h.defined, fun _ he => by rw [hout] at he; cases he⟩
  · simp only [List.forall_mem_append, List.forall_mem_singleton]
    refine ⟨h.solvent, fun a i v hc _ => ?_⟩
    rw [attempted_ok hr]
    obtain ⟨env, op⟩ := c
    obtain rfl : op = .fileClaim a i v := hc
    cases effect_of_run hr with
    | @claim _ _ _ _ x y g hx _ _ hg hsolvent _ _ hy' =>
      refine ⟨x, hx, _, by rw [hy', Function.update_self]; rfl, g, hg, ?_⟩
      show y.totalCapital * g.solvencyRatioBps / 10000 ≤ y.availableCapital - x.payoutAmount
      rw [CapitalPool.requiredReserve] at hsolvent
      omega

/-- What a call that fails has to avoid. -/
theorem poolsSound_error {e : Trap InsuranceError} (h : PoolsSound tr s)
    (hout : outcome exec s c = .error e) :
    PoolsSound (tr ++ [(s, c)]) s ↔ (c.2.released.isSome → e ≠ .underflow) := by
  constructor
  · intro h' hrel he
    refine h'.defined (s, c) (by simp) hrel ?_
    rw [hout, he]
  · intro hrel
    refine ⟨h.balanced, ?_, ?_, ?_⟩
    · rw [releases_concat, releaseOf_error hout, Option.toList_none, List.append_nil]
      exact h.once
    · simp only [List.forall_mem_append, List.forall_mem_singleton]
      refine ⟨h.defined, fun hs he => hrel hs ?_⟩
      rw [hout] at he
      exact Except.error.inj he
    · simp only [List.forall_mem_append, List.forall_mem_singleton]
      refine ⟨h.solvent, fun a i v _ hok => ?_⟩
      rw [hout] at hok
      cases hok

/-- **A call keeps the pools sound exactly when it releases cover once.** -/
theorem poolsSound_concat (hk : Kept tr s) (h : PoolsSound tr s) (hs : Tries exec s c s') :
    PoolsSound (tr ++ [(s, c)]) s' ↔ ReleasesOnce tr (s, c) := by
  obtain ⟨r, hr, hout⟩ | ⟨e, hr, hout, rfl⟩ := hs.ok_or_error
  · rw [poolsSound_ok h hr hout, (effect_of_run hr).balanced_iff hk h.balanced]
    obtain ⟨env, op⟩ := c
    cases op with
    | createCapitalPool | contributeToPool | purchasePolicy => exact iff_of_true ⟨trivial, nofun⟩ trivial
    | payPremium a i n =>
      have hchecked : PremiumChecked s env a i n :=
        avoids_payPremium.1 (avoids_map.1 (avoids_of_run hr))
      exact ⟨fun hkeeps _ => hkeeps.1, fun hkeeps => ⟨hkeeps hchecked, nofun⟩⟩
    | cancelPolicy a i =>
      have hchecked : CancelChecked s a i := avoids_cancelPolicy.1 (avoids_map.1 (avoids_of_run hr))
      refine ⟨fun hkeeps _ => hkeeps.2 i rfl, fun hkeeps => ⟨fun x hx => ?_, ?_⟩⟩
      · exact .inl (covered hk h.balanced (hkeeps hchecked) x hx).1
      · rintro _ ⟨⟩
        exact hkeeps hchecked
    | fileClaim a i v =>
      have hchecked : ClaimChecked s env i := avoids_fileClaim.1 (avoids_map.1 (avoids_of_run hr))
      refine ⟨fun hkeeps _ => ⟨hkeeps.2 i rfl, hkeeps.1⟩, fun hkeeps => ⟨(hkeeps hchecked).2, ?_⟩⟩
      rintro _ ⟨⟩
      exact (hkeeps hchecked).1
  · rw [poolsSound_error h hout]
    obtain ⟨env, op⟩ := c
    cases op with
    | createCapitalPool | contributeToPool | purchasePolicy => exact iff_of_true nofun trivial
    | payPremium a i n =>
      refine iff_of_true nofun fun hchecked => ?_
      exact absurd trivial (avoids_map.2 (avoids_payPremium.2 hchecked) e hr)
    | cancelPolicy a i =>
      constructor
      · intro hne hchecked
        exact absurd (hne rfl) (avoids_map.2 (avoids_cancelPolicy.2 hchecked) e hr)
      · rintro hkeeps - rfl
        have hchecked : CancelChecked s' a i :=
          avoids_cancelPolicy.1 (avoids_map.1 ((avoids_of_error hr).2 (not_not.2 rfl)))
        have hcovered := covered hk h.balanced (hkeeps hchecked)
        exact avoids_map.2 (cancelPolicy_covered fun x hx => (hcovered x hx).2) _ hr rfl
    | fileClaim a i v =>
      constructor
      · intro hne hchecked
        exact absurd (hne rfl) (avoids_map.2 (avoids_fileClaim.2 hchecked) e hr)
      · rintro hkeeps - rfl
        have hchecked : ClaimChecked s' env i :=
          avoids_fileClaim.1 (avoids_map.1 ((avoids_of_error hr).2 (not_not.2 rfl)))
        have hcovered := covered hk h.balanced (hkeeps hchecked).1
        exact avoids_map.2 (fileClaim_covered fun x hx => (hcovered x hx).2) _ hr rfl

/-- **The pools are sound throughout a run** if and only if cover is released once, claims are on policies
    without cover, and no premium is paid for cover that was released. -/
theorem history_balanced (h₀ : NoPools s₀) (h : Run (Tries exec) s₀ tr s) :
    ((∀ before p after, tr = before ++ p :: after → PoolsSound before p.1) ∧ PoolsSound tr s) ↔
      ∀ before p after, tr = before ++ p :: after → ReleasesOnce before p := by
  refine Run.throughout_iff ?_ (fun tr s c s' hr hs h => poolsSound_concat (kept_of_run h₀ hr) h hs) h
  refine ⟨⟨fun p y hy => ?_, fun p y hy => ?_⟩, List.nodup_nil, nofun, nofun⟩ <;> rw [h₀.pool p] at hy <;>
    cases hy

end

/-! ## Scripts -/

/-- Cover of up to 1000 is sold, and a fifth of the capital is kept. -/
def selling : State :=
  (((((Ledger.empty : State).put .owner () (account 65)).put .config ()
    ⟨account 71, 0, 1000, 0, 2000, 100⟩).put .policyCounter () 0).put .claimCounter () 0).put .poolCounter () 0

theorem selling_initialized :
    (initializeInsurance (account 65) (account 71) 0 1000 0 2000).run (openEnv 0) Ledger.empty =
      .ok ((), selling) := rfl

theorem selling_noPools : NoPools selling := noPools_initialized selling_initialized

/-- A pool of 1000. -/
def pooling : List (Env × Op) :=
  [(openEnv 0, .createCapitalPool (account 66) 100 5000), (openEnv 0, .contributeToPool (account 67) 0 1000)]

/-- A policy of the pool. -/
def purchase (n d : ℕ) : Env × Op :=
  (openEnv 0, .purchasePolicy (account 68) .dataLoss n 10 1000 2 d (account 69) 1 0)

/-- A policy is cancelled, by its holder alone; a claim is filed on one that covers nothing. -/
def cancelledScript : List (Env × Op) :=
  pooling ++ [purchase 100 10, (openEnv 1, .payPremium (account 68) 0 10),
    (openEnv 1, .cancelPolicy (account 67) 0), (openEnv 1, .cancelPolicy (account 68) 0), purchase 0 0,
    (openEnv 1, .fileClaim (account 68) 1 [])]

theorem history_balanced_cancelledScript :
    ∃ tr s, Run (Tries exec) selling tr s ∧ tr.map Prod.snd = cancelledScript ∧
      ((∀ before p after, tr = before ++ p :: after → PoolsSound before p.1) ∧ PoolsSound tr s) := by
  have hrun : Run (Tries exec) selling (triesOf exec selling cancelledScript) _ := run_tries
  have honce : ∀ before p after, triesOf exec selling cancelledScript = before ++ p :: after →
      ReleasesOnce before p :=
    @of_decide_eq_true _ (Run.decidableCuts _ _ fun _ _ => inferInstance) (by decide)
  exact ⟨_, _, hrun, map_snd_triesOf, (history_balanced selling_noPools hrun).2 honce⟩

/-- A claim on a policy with a deductible of 10. -/
def claimScript : List (Env × Op) :=
  pooling ++ [purchase 100 10, (openEnv 1, .fileClaim (account 68) 0 [])]

/-- **A claim loses the cover it was reserved for.** -/
theorem cover_lost :
    ∃ tr s y, Run (Tries exec) selling tr s ∧ tr.map Prod.snd = claimScript ∧
      s.inst .capitalPool 0 = some y ∧ y.totalCapital = 1000 ∧ y.availableCapital = 810 ∧
      y.reservedCapital = 0 ∧ y.totalClaimsPaid = 90 ∧ ¬PoolsSound tr s := by
  obtain ⟨s, hs⟩ : ∃ s, s = attempt exec selling claimScript := ⟨_, rfl⟩
  have hrun : Run (Tries exec) selling (triesOf exec selling claimScript) s := by
    rw [hs]
    exact run_tries
  have hy : s.inst .capitalPool 0 = some ⟨0, account 66, 1000, 810, 0, 100, 5000, [0], 90, 500⟩ := by
    rw [hs]
    decide
  refine ⟨_, s, _, hrun, map_snd_triesOf, hy, rfl, rfl, rfl, rfl, fun h => ?_⟩
  exact absurd (h.balanced.capital 0 _ hy) (by decide)

end ParametricInsurance
