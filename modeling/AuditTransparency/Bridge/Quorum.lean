/-
  CrossChainBridge — who backs a verified balance.

  A balance that the bridge reports should have been attested, for exactly that user,
  token and token id, by as many active relays as the threshold asks for.  Who has
  attested what is a fact about the run (`submissions`): a later attestation of a relay
  for the same user and token replaces the earlier one in the store.

  * `reported_iff`: what the bridge reports is what its cache holds;
  * `pending_of_run`: what is pending has been submitted, with its own addresses;
  * `history_backed`: exactly when every balance reported during a run is backed.
-/
import AuditTransparency.Bridge.Contract
import AuditTransparency.Ledger.Contract
import Mathlib.Data.Finset.Basic
import Mathlib.Data.Finset.Card

namespace CrossChainBridge

open Soroban
open Soroban.Call
open AuditLedger (openEnv account)

/-! ## Attestations in a run -/

/-- The attestations submitted in a trace, each with the relay that submitted it. -/
def submissions (tr : List (State × (Env × Op))) : List (Address × BalanceAttestation) :=
  tr.filterMap fun p =>
    match p.2.2 with
    | .submitAttestation a x => some (a, x)
    | _ => none

/-- The attestation is for this user, token, token id and balance. -/
def BalanceAttestation.IsFor (x : BalanceAttestation) (u t : Bytes) (i b : ℕ) : Prop :=
  x.userAddress = u ∧ x.tokenAddress = t ∧ x.tokenId = i ∧ x.balance = b

instance (x : BalanceAttestation) (u t : Bytes) (i b : ℕ) : Decidable (x.IsFor u t i b) :=
  inferInstanceAs (Decidable (_ ∧ _))

/-- The relay is registered and active. -/
def ActiveRelay (s : State) (a : Address) : Prop := (s.inst .bridgeRelay a).map (·.active) = some true

instance (s : State) (a : Address) : Decidable (ActiveRelay s a) := inferInstanceAs (Decidable (_ = _))

/-- The active relays that have attested the balance. -/
def supporters (tr : List (State × (Env × Op))) (s : State) (u t : Bytes) (i b : ℕ) : Finset Address :=
  (((submissions tr).filter fun p => p.2.IsFor u t i b).map Prod.fst).toFinset.filter (ActiveRelay s)

/-- There are as many as the threshold asks for. -/
def Quorate (tr : List (State × (Env × Op))) (s : State) (u t : Bytes) (i b : ℕ) : Prop :=
  ∃ c, s.inst .bridgeConfig () = some c ∧ c.signatureThreshold ≤ (supporters tr s u t i b).card

/-- The call writes the cached balance. -/
def Accepts (u t : Bytes) (i : ℕ) (c : Env × Op) : Prop := ∃ a, c.2 = .acceptAttestation a u t i

/-- `get_verified_balance` can return `b`. -/
def Reported (s : State) (u t : Bytes) (i b : ℕ) : Prop :=
  ∃ env s', (getVerifiedBalance u t i).run env s = .ok (b, s')

/-- There was a quorum for `b` when the cached balance was last written. -/
def LastQuorate (tr : List (State × (Env × Op))) (u t : Bytes) (i b : ℕ) : Prop :=
  ∃ before s c after, tr = before ++ (s, c) :: after ∧ Accepts u t i c ∧
    (∀ p ∈ after, ¬Accepts u t i p.2) ∧ Quorate before s u t i b

/-- Every balance that is reported is backed. -/
def Backed (tr : List (State × (Env × Op))) (s : State) : Prop :=
  ∀ u t i b, Reported s u t i b → b ≠ 0 → LastQuorate tr u t i b

/-- An acceptance has a quorum, unless the balance is zero or cannot be read back because
    its expiry overflows. -/
def AcceptsQuorate (tr : List (State × (Env × Op))) (p : State × (Env × Op)) : Prop :=
  match p.2.2 with
  | .acceptAttestation a u t i => ∀ x c, p.1.inst .pendingAttestation (a, u, t) = some x →
      p.1.inst .bridgeConfig () = some c → x.balance ≠ 0 →
      p.2.1.sequence + c.cacheTtlLedgers < 2 ^ 32 → Quorate tr p.1 u t i x.balance
  | _ => True

/-! ## Effects -/

/-- The keys an operation can write. -/
@[reducible] def Op.writes : Op → List BridgeKey
  | initializeBridge .. => [.owner, .bridgeConfig, .ethChainId, .allRelays]
  | registerRelay .. => [.bridgeRelay, .allRelays]
  | deactivateRelay _ => [.bridgeRelay]
  | submitAttestation .. => [.pendingAttestation]
  | acceptAttestation .. => [.verificationCache]
  | updateBridgeConfig .. => [.bridgeConfig]

set_option synthInstance.maxSize 100000 in
/-- **Frame of the contract.** -/
theorem exec_writes (op : Op) : Writes layout op.writes (exec op) := by
  cases op <;>
    simp only [exec, Op.writes, initializeBridge, registerRelay, deactivateRelay, submitAttestation,
      acceptAttestation, updateBridgeConfig, getOwner, getBridgeConfig, validateEthAddress] <;>
    infer_instance

section
variable {env : Env} {s s' : State} {a : Address} {x : BalanceAttestation} {u t : Bytes} {i b : ℕ}
  {tr : List (State × (Env × Op))}

/-- What a submission leaves. -/
theorem submitted (h : (submitAttestation a x).run env s = .ok ((), s')) :
    x.userAddress.length = 42 ∧ x.tokenAddress.length = 42 ∧
      s' = s.put .pendingAttestation (a, x.userAddress, x.tokenAddress) x := by
  refine Post.of_run (m := submitAttestation a x) (Q := fun _ s' => x.userAddress.length = 42 ∧
    x.tokenAddress.length = 42 ∧ s' = s.put .pendingAttestation (a, x.userAddress, x.tokenAddress) x) ?_ h
  simp only [submitAttestation, getBridgeConfig, validateEthAddress, post_bind, post_load, post_unwrapOr,
    post_rejectIf, post_addChecked, post_store, not_not]
  intro _ _ _ hu ht _ _ _ _ _
  exact ⟨hu, ht, trivial⟩

/-- What an acceptance leaves. -/
theorem accepted (h : (acceptAttestation a u t i).run env s = .ok ((), s')) :
    ∃ x c, s.inst .pendingAttestation (a, u, t) = some x ∧ s.inst .bridgeConfig () = some c ∧
      s' = s.put .verificationCache (u, t, i)
        ⟨u, t, i, x.balance, env.sequence, c.cacheTtlLedgers, a, 1⟩ := by
  refine Post.of_run (Q := fun _ s' => ∃ x c, s.inst .pendingAttestation (a, u, t) = some x ∧
    s.inst .bridgeConfig () = some c ∧ s' = s.put .verificationCache (u, t, i)
      ⟨u, t, i, x.balance, env.sequence, c.cacheTtlLedgers, a, 1⟩) ?_ h
  simp only [acceptAttestation, getOwner, getBridgeConfig, post_bind, post_load, post_unwrapOr,
    post_requireAuth, post_getEnv, post_store]
  intro _ _ _ x hx c hc
  exact ⟨x, c, hx, hc, rfl⟩

/-- What the bridge reports is what its cache holds. -/
theorem reported_iff (hb : b ≠ 0) :
    Reported s u t i b ↔ u.length = 42 ∧ t.length = 42 ∧
      ∃ r, s.inst .verificationCache (u, t, i) = some r ∧ r.verifiedAtLedger + r.ttlLedgers < 2 ^ 32 ∧
        r.balance = b := by
  constructor
  · rintro ⟨env, s', h⟩
    refine Post.of_run (Q := fun b _ => b ≠ 0 → u.length = 42 ∧ t.length = 42 ∧
      ∃ r, s.inst .verificationCache (u, t, i) = some r ∧ r.verifiedAtLedger + r.ttlLedgers < 2 ^ 32 ∧
        r.balance = b) ?_ h hb
    simp only [getVerifiedBalance, validateEthAddress, post_bind, post_load, post_rejectIf, post_onSome,
      post_addChecked, post_getEnv, post_pure, not_not]
    intro hu ht
    constructor
    · intro r hr hexp _ _
      exact ⟨hu, ht, r, hr, hexp, rfl⟩
    · intro _ h0
      exact absurd rfl h0
  · rintro ⟨hu, ht, r, hr, hexp, rfl⟩
    refine ⟨openEnv 0, s, ?_⟩
    have hvalid : ∀ y : Bytes, y.length = 42 →
        (validateEthAddress y).run (openEnv 0) s = .ok ((), s) := by
      intro y hy
      rw [validateEthAddress, run_rejectIf, if_neg (not_not.2 hy)]
    rw [getVerifiedBalance, run_bind_ok _ _ (hvalid u hu), run_bind_ok _ _ (hvalid t ht),
      run_bind_ok _ _ (run_load ..), hr, onSome, run_bind_ok _ _ (run_addChecked _ _ hexp),
      run_bind_ok _ _ (run_getEnv ..)]
    rfl

/-- Only an acceptance writes the cache, and only one entry of it. -/
theorem cache_eq {c : Env × Op} (h : Steps exec s c s') (hc : ¬Accepts u t i c) :
    s'.inst .verificationCache (u, t, i) = s.inst .verificationCache (u, t, i) := by
  obtain ⟨env, op⟩ := c
  obtain ⟨_, h⟩ := h
  have hframe := (exec_writes op).of_run h
  cases op with
  | acceptAttestation a u' t' i' =>
    obtain ⟨x, c, -, -, rfl⟩ := accepted h
    have hne : (u, t, i) ≠ (u', t', i') := by
      intro heq
      simp only [Prod.mk.injEq] at heq
      obtain ⟨rfl, rfl, rfl⟩ := heq
      exact hc ⟨a, rfl⟩
    rw [Ledger.put_inst, Store.set_same, Function.update_of_ne hne]
  | _ => rw [hframe.inst (notMem_of_eval rfl)]

/-- What is pending has been submitted, with its own addresses. -/
theorem pending_of_run (h : Run (Steps exec) Ledger.empty tr s)
    (hx : s.inst .pendingAttestation (a, u, t) = some x) :
    (a, x) ∈ submissions tr ∧ x.userAddress = u ∧ x.tokenAddress = t ∧ u.length = 42 ∧ t.length = 42 := by
  induction h with
  | init => cases hx
  | @snoc tr s s' c _ hs ih =>
    obtain ⟨env, op⟩ := c
    obtain ⟨_, hs⟩ := hs
    have hlater : ∀ q, (a, x) ∈ submissions tr → (a, x) ∈ submissions (tr ++ [q]) := by
      intro q hmem
      rw [submissions, List.filterMap_append]
      exact List.mem_append_left _ hmem
    have hframe := (exec_writes op).of_run hs
    cases op with
    | submitAttestation a' x' =>
      obtain ⟨hu, ht, rfl⟩ := submitted hs
      rw [Ledger.put_inst, Store.set_same] at hx
      by_cases hk : (a, u, t) = (a', x'.userAddress, x'.tokenAddress)
      · rw [hk, Function.update_self] at hx
        obtain rfl := Option.some.inj hx
        simp only [Prod.mk.injEq] at hk
        obtain ⟨rfl, rfl, rfl⟩ := hk
        refine ⟨?_, rfl, rfl, hu, ht⟩
        rw [submissions, List.filterMap_append]
        exact List.mem_append_right _ (List.mem_singleton_self _)
      · rw [Function.update_of_ne hk] at hx
        exact ⟨hlater _ (ih hx).1, (ih hx).2⟩
    | _ =>
      rw [hframe.inst (notMem_of_eval rfl)] at hx
      exact ⟨hlater _ (ih hx).1, (ih hx).2⟩

/-! ## Runs -/

theorem reported_of_not_accepts {c : Env × Op} (h : Steps exec s c s') (hc : ¬Accepts u t i c)
    (hb : b ≠ 0) :
    Reported s' u t i b ↔ Reported s u t i b := by
  rw [reported_iff hb, reported_iff hb, cache_eq h hc]

/-- A step that writes another entry, or none. -/
theorem LastQuorate.concat {c : Env × Op} (h : LastQuorate tr u t i b) (hc : ¬Accepts u t i c) :
    LastQuorate (tr ++ [(s, c)]) u t i b := by
  obtain ⟨before, s₁, c₁, after, rfl, hacc, hafter, hq⟩ := h
  refine ⟨before, s₁, c₁, after ++ [(s, c)], by simp, hacc, ?_, hq⟩
  simp only [List.forall_mem_append, List.forall_mem_singleton]
  exact ⟨hafter, hc⟩

/-- A step that writes the entry is the last one that does. -/
theorem lastQuorate_concat_iff {c : Env × Op} (hc : Accepts u t i c) :
    LastQuorate (tr ++ [(s, c)]) u t i b ↔ Quorate tr s u t i b := by
  constructor
  · rintro ⟨before, s₁, c₁, after, htr, -, hafter, hq⟩
    rcases List.eq_nil_or_concat after with rfl | ⟨after', q, rfl⟩
    · obtain ⟨rfl, hlast⟩ := List.append_inj' htr rfl
      simp only [List.cons.injEq, Prod.mk.injEq, and_true] at hlast
      obtain ⟨rfl, rfl⟩ := hlast
      exact hq
    · have htr' : tr ++ [(s, c)] = (before ++ (s₁, c₁) :: after') ++ [q] := by simpa using htr
      obtain rfl : (s, c) = q := List.singleton_inj.1 (List.append_inj' htr' rfl).2
      exact absurd hc (hafter (s, c) (by simp))
  · intro hq
    exact ⟨tr, s, c, [], rfl, hc, by simp, hq⟩

/-- A step keeps the balances backed exactly when an acceptance has a quorum. -/
theorem backed_concat {c : Env × Op} (hrun : Run (Steps exec) Ledger.empty tr s) (hs : Steps exec s c s')
    (h : Backed tr s) : Backed (tr ++ [(s, c)]) s' ↔ AcceptsQuorate tr (s, c) := by
  have hother : ∀ {u t i b}, ¬Accepts u t i c → Reported s' u t i b → b ≠ 0 →
      LastQuorate (tr ++ [(s, c)]) u t i b := by
    intro u t i b hc hrep hb
    rw [reported_of_not_accepts hs hc hb] at hrep
    exact (h u t i b hrep hb).concat hc
  by_cases hacc : ∃ u t i, Accepts u t i c
  · obtain ⟨u, t, i, a, hop⟩ := hacc
    obtain ⟨env, op⟩ := c
    obtain rfl : op = .acceptAttestation a u t i := hop
    have hc : Accepts u t i (env, .acceptAttestation a u t i) := ⟨a, rfl⟩
    obtain ⟨_, hr⟩ := hs
    obtain ⟨x, cf, hx, hcf, hs'⟩ := accepted hr
    have hcache : s'.inst .verificationCache (u, t, i) =
        some ⟨u, t, i, x.balance, env.sequence, cf.cacheTtlLedgers, a, 1⟩ := by
      rw [hs', Ledger.put_inst, Store.set_same, Function.update_self]
    constructor
    · intro hbacked x' cf' hx' hcf' hb hexp
      obtain rfl := Option.some.inj (hx.symm.trans hx')
      obtain rfl := Option.some.inj (hcf.symm.trans hcf')
      obtain ⟨-, -, -, hu, ht⟩ := pending_of_run hrun hx
      have hrep : Reported s' u t i x.balance := (reported_iff hb).2 ⟨hu, ht, _, hcache, hexp, rfl⟩
      exact (lastQuorate_concat_iff hc).1 (hbacked u t i _ hrep hb)
    · intro hq u' t' i' b hrep hb
      by_cases hc' : Accepts u' t' i' (env, .acceptAttestation a u t i)
      · obtain ⟨a', hop'⟩ := hc'
        cases hop'
        rw [reported_iff hb] at hrep
        obtain ⟨-, -, r, hr, hexp, rfl⟩ := hrep
        obtain rfl := Option.some.inj (hcache.symm.trans hr)
        exact (lastQuorate_concat_iff hc).2 (hq x cf hx hcf hb hexp)
      · exact hother hc' hrep hb
  · have hnot : ∀ u t i, ¬Accepts u t i c := fun u t i hc => hacc ⟨u, t, i, hc⟩
    constructor
    · intro _
      obtain ⟨env, op⟩ := c
      cases op with
      | acceptAttestation a u t i => exact absurd ⟨a, rfl⟩ (hnot u t i)
      | _ => trivial
    · intro _ u t i b hrep hb
      exact hother (hnot u t i) hrep hb

/-- **Every balance reported during a run is backed** if and only if every acceptance has a
    quorum. -/
theorem history_backed (h : Run (Steps exec) Ledger.empty tr s) :
    ((∀ before p after, tr = before ++ p :: after → Backed before p.1) ∧ Backed tr s) ↔
      ∀ before p after, tr = before ++ p :: after → AcceptsQuorate before p := by
  refine Run.throughout_iff ?_ (fun tr s c s' => backed_concat) h
  intro u t i b hrep hb
  rw [reported_iff hb] at hrep
  obtain ⟨-, -, r, hr, -⟩ := hrep
  cases hr

end

/-- An address on the other chain. -/
def ethAddress (c : UInt8) : Bytes := 48 :: 120 :: List.replicate 40 c

/-- The attestation of a relay. -/
def attest (a : Address) (i b : ℕ) : Op :=
  .submitAttestation a ⟨a, ethAddress 65, ethAddress 66, i, b, 1000, 0, List.replicate 65 0, false⟩

/-- A bridge with two relays and the threshold 2. -/
def bridgeScript : List (Env × Op) :=
  [(openEnv 0, .initializeBridge (account 65) 2 50 1),
    (openEnv 0, .registerRelay (account 66) (List.replicate 65 4)),
    (openEnv 0, .registerRelay (account 67) (List.replicate 65 4))]

/-- Both relays attest a balance, and it is accepted. -/
def quorateScript : List (Env × Op) :=
  bridgeScript ++ [(openEnv 1, attest (account 66) 7 100), (openEnv 1, attest (account 67) 7 100),
    (openEnv 2, .acceptAttestation (account 66) (ethAddress 65) (ethAddress 66) 7)]

theorem history_backed_quorateScript :
    ∃ tr s, Run (Steps exec) Ledger.empty tr s ∧ tr.map Prod.snd = quorateScript ∧
      ((∀ before p after, tr = before ++ p :: after → Backed before p.1) ∧ Backed tr s) := by
  obtain ⟨s, hs⟩ : ∃ s, play exec Ledger.empty quorateScript = some s :=
    Option.isSome_iff_exists.1 (by decide)
  obtain ⟨tr, htrace⟩ : ∃ tr, tr = traceOf exec Ledger.empty quorateScript := ⟨_, rfl⟩
  have hcuts : (List.range tr.length).all (fun n => (tr[n]?).all fun p =>
      match p.2.2 with
      | .acceptAttestation a u t i => (p.1.inst .pendingAttestation (a, u, t)).any fun x =>
          (p.1.inst .bridgeConfig ()).any fun c =>
            decide (c.signatureThreshold ≤ (supporters (tr.take n) p.1 u t i x.balance).card)
      | _ => true) = true := by
    rw [htrace]
    decide
  have hrun := run_of_play hs
  rw [← htrace] at hrun
  refine ⟨tr, s, hrun, by rw [htrace, map_snd_traceOf hs], (history_backed hrun).2 ?_⟩
  intro before p after htr
  have hlt : before.length < tr.length := by
    have := congrArg List.length htr
    simp only [List.length_append, List.length_cons] at this
    omega
  have hp : tr[before.length]? = some p := by rw [htr]; simp
  have htake : tr.take before.length = before := by rw [htr]; simp
  have hcut := List.all_eq_true.1 hcuts before.length (List.mem_range.2 hlt)
  rw [hp, htake] at hcut
  obtain ⟨s₁, env, op⟩ := p
  cases op with
  | acceptAttestation a u t i =>
    intro x c hx hc _ _
    have hany : (s₁.inst .pendingAttestation (a, u, t)).any (fun x =>
        (s₁.inst .bridgeConfig ()).any fun c =>
          decide (c.signatureThreshold ≤ (supporters before s₁ u t i x.balance).card)) = true := hcut
    rw [hx, Option.any_some, hc, Option.any_some] at hany
    exact ⟨c, hc, of_decide_eq_true hany⟩
  | _ => trivial

/-- One relay attests a balance of token 1, and it is accepted for token 7. -/
def looseScript : List (Env × Op) :=
  bridgeScript ++ [(openEnv 1, attest (account 66) 1 100)]

/-- The acceptance. -/
def looseAcceptance : Env × Op :=
  (openEnv 2, .acceptAttestation (account 66) (ethAddress 65) (ethAddress 66) 7)

/-- A balance can be reported that no relay has attested. -/
theorem unattested_balance_reported :
    ∃ tr s, Run (Steps exec) Ledger.empty tr s ∧ tr.map Prod.snd = looseScript ++ [looseAcceptance] ∧
      Reported s (ethAddress 65) (ethAddress 66) 7 100 ∧ ¬Backed tr s := by
  obtain ⟨s₁, hs₁⟩ : ∃ s, play exec Ledger.empty looseScript = some s :=
    Option.isSome_iff_exists.1 (by decide)
  obtain ⟨s, hs⟩ : ∃ s, play exec Ledger.empty (looseScript ++ [looseAcceptance]) = some s :=
    Option.isSome_iff_exists.1 (by decide)
  have hbalance : (play exec Ledger.empty (looseScript ++ [looseAcceptance])).map (fun s =>
      ((getVerifiedBalance (ethAddress 65) (ethAddress 66) 7).run (openEnv 3) s).toOption.map (·.1)) =
        some (some 100) := by decide
  have hsupport : (play exec Ledger.empty looseScript).map (fun s =>
      ((s.inst .bridgeConfig ()).map (·.signatureThreshold),
        (supporters (traceOf exec Ledger.empty looseScript) s (ethAddress 65) (ethAddress 66) 7 100).card)) =
        some (some 2, 0) := by decide
  have hrep : Reported s (ethAddress 65) (ethAddress 66) 7 100 := by
    rw [hs, Option.map_some, Option.some.injEq] at hbalance
    rcases hrun : (getVerifiedBalance (ethAddress 65) (ethAddress 66) 7).run (openEnv 3) s with e | ⟨b, s'⟩
    · rw [hrun] at hbalance
      cases hbalance
    · rw [hrun] at hbalance
      obtain rfl : b = 100 := Option.some.inj hbalance
      exact ⟨openEnv 3, s', hrun⟩
  refine ⟨_, s, run_of_play hs, map_snd_traceOf hs, hrep, fun hbacked => ?_⟩
  have hlast := hbacked _ _ _ _ hrep (by omega)
  rw [traceOf_concat hs₁, lastQuorate_concat_iff ⟨_, rfl⟩] at hlast
  obtain ⟨c, hc, hle⟩ := hlast
  rw [hs₁, Option.map_some, hc] at hsupport
  simp only [Option.map_some, Option.some.injEq, Prod.mk.injEq] at hsupport
  omega

end CrossChainBridge
