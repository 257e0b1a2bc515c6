/-
  ReserveAuditing — the identity of the records.

  A record is stored under an id that is computed from what it belongs to: an asset from
  its custodian and type, an attestation from the attestor and the asset, a redemption from
  the requester and the time.  Of an address the ids keep its first character at most, as 56
  characters do not fit in a buffer of 32; so records of different parties have one id, and
  the later one replaces the earlier or is dropped.

  * `assetOf`, `attestationFor`, `redemptionOf`: the records that a run should have left;
  * `RecordsKept`: they are the ones that can be read;
  * `history_records`: exactly when they can, throughout a run.
-/
import AuditTransparency.Reserves.Totals

namespace StablecoinReserves

open Soroban
open Soroban.Call
open AuditLedger (u64ToBytes openEnv account u64ToBytes_toNat_injective u64ToBytes_ofNat)

variable {D : Type} [DecidableEq D]

/-! ## What calls refer to -/

/-- The custodian and the type that a call registers. -/
def registeredBy (c : Env × Op D) : Option (Address × AssetType) :=
  match c.2 with
  | .registerAsset t _ a _ => some (a, t)
  | _ => none

/-- The attestor and the asset of an attestation. -/
def attestedBy (c : Env × Op D) : Option (Address × D) :=
  match c.2 with
  | .recordAttestation a i _ _ _ _ => some (a, i)
  | _ => none

/-- The ledger second of a call, a `u64`. -/
def second (env : Env) : UInt64 := UInt64.ofNat env.timestamp

/-- The second, the requester and the asset of a request. -/
def requestedBy (c : Env × Op D) : Option (UInt64 × Address × D) :=
  match c.2 with
  | .requestRedemption a _ i => some (second c.1, a, i)
  | _ => none

/-! ## The records of a run -/

/-- What a step makes of the asset of a custodian and a type. -/
def trackAsset (H : Host D) (a : Address) (t : AssetType) (o : Option (AssetVerification D))
    (p : State D × (Env × Op D)) : Option (AssetVerification D) :=
  match p.2.2 with
  | .registerAsset t' n a' h =>
    if a' = a ∧ t' = t then o.or (some ⟨computeAssetId H a t, t, n, a, p.2.1.timestamp, a, h⟩) else o
  | .updateAsset i n h =>
    if i = computeAssetId H a t then
      o.map fun x => { x with quantity := n, verifiedAt := p.2.1.timestamp, proofHash := h }
    else o
  | .executeRedemption i =>
    match (view p.1).redemptions i with
    | some x =>
      if x.assetId = computeAssetId H a t then o.map fun y => { y with quantity := y.quantity - x.quantity }
      else o
    | none => o
  | _ => o

/-- The asset of a custodian and a type: as it was registered first, updated and redeemed since. -/
def assetOf (H : Host D) (tr : List (State D × (Env × Op D))) (a : Address) (t : AssetType) :
    Option (AssetVerification D) := tr.foldl (trackAsset H a t) none

def trackAttestation (H : Host D) (a : Address) (i : D) (o : Option (Attestation D))
    (p : State D × (Env × Op D)) : Option (Attestation D) :=
  match p.2.2 with
  | .recordAttestation a' i' n g k e =>
    if a' = a ∧ i' = i then some ⟨computeAttestationId H a i, a, i, n, p.2.1.timestamp, g, k, e⟩ else o
  | _ => o

/-- The last attestation of an asset by an attestor. -/
def attestationFor (H : Host D) (tr : List (State D × (Env × Op D))) (a : Address) (i : D) :
    Option (Attestation D) := tr.foldl (trackAttestation H a i) none

def trackRedemption (H : Host D) (t : UInt64) (a : Address) (i : D) (o : Option (RedemptionRequest D))
    (p : State D × (Env × Op D)) : Option (RedemptionRequest D) :=
  match p.2.2 with
  | .requestRedemption a' n i' =>
    if second p.2.1 = t ∧ a' = a ∧ i' = i then
      some ⟨computeRedemptionId H a t.toNat, a, n, 0, p.2.1.timestamp, 0, i⟩
    else o
  | .executeRedemption d =>
    if d = computeRedemptionId H a t.toNat then
      o.map fun x => { x with status := 2, executedAt := p.2.1.timestamp }
    else o
  | _ => o

/-- The last redemption that was requested in a second, by a requester and for an asset. -/
def redemptionOf (H : Host D) (tr : List (State D × (Env × Op D))) (t : UInt64) (a : Address) (i : D) :
    Option (RedemptionRequest D) := tr.foldl (trackRedemption H t a i) none

def countExecution (H : Host D) (d : D) (n : ℕ) (p : State D × (Env × Op D)) : ℕ :=
  match p.2.2 with
  | .requestRedemption a _ _ => if computeRedemptionId H a p.2.1.timestamp = d then 0 else n
  | .executeRedemption d' => if d' = d then n + 1 else n
  | _ => n

/-- How often a redemption was executed since it was last requested. -/
def executionsOf (H : Host D) (tr : List (State D × (Env × Op D))) (d : D) : ℕ :=
  tr.foldl (countExecution H d) 0

/-- Every record that was made can be read, under an id of its own, and executed once. -/
structure RecordsKept (H : Host D) (tr : List (State D × (Env × Op D))) (s : State D) : Prop where
  asset : ∀ a t x, assetOf H tr a t = some x → (view s).assets (computeAssetId H a t) = some x
  assetId : ∀ a t a' t', (assetOf H tr a t).isSome → (assetOf H tr a' t').isSome →
    computeAssetId H a t = computeAssetId H a' t' → a = a' ∧ t = t'
  attestation : ∀ a i x, attestationFor H tr a i = some x → ∀ env,
    (getAttestation (computeAttestationId H a i)).run env s = .ok (x, s)
  attestationId : ∀ a a' i, (attestationFor H tr a i).isSome → (attestationFor H tr a' i).isSome →
    computeAttestationId H a i = computeAttestationId H a' i → a = a'
  redemption : ∀ t a i x, redemptionOf H tr t a i = some x → ∀ env,
    (getRedemption (computeRedemptionId H a t.toNat)).run env s = .ok (x, s)
  executable : ∀ t a i x, redemptionOf H tr t a i = some x → x.status = 0 →
    ∀ y ∈ (view s).assets i, x.quantity ≤ y.quantity → ∀ env, ∃ s',
      (executeRedemption (computeRedemptionId H a t.toNat)).run env s = .ok ((), s') ∧
        (view s').assets i = some { y with quantity := y.quantity - x.quantity }
  once : ∀ d, executionsOf H tr d ≤ 1

/-- The record of a call belongs to nobody else: no other custodian of a type whose address starts with
    the same character, no other attestor of an asset, no other requester or asset in a second. -/
structure OwnRecord (tr : List (State D × (Env × Op D))) (p : State D × (Env × Op D)) : Prop where
  asset : ∀ r ∈ registeredBy p.2, ∀ q ∈ tr, ∀ r' ∈ registeredBy q.2,
    r'.2 = r.2 → r'.1.strkey.take 1 = r.1.strkey.take 1 → r'.1 = r.1
  attestation : ∀ r ∈ attestedBy p.2, ∀ q ∈ tr, ∀ r' ∈ attestedBy q.2, r'.2 = r.2 → r'.1 = r.1
  redemption : ∀ r ∈ requestedBy p.2, ∀ q ∈ tr, ∀ r' ∈ requestedBy q.2, r'.1 = r.1 → r'.2 = r.2

instance (tr : List (State D × (Env × Op D))) (p : State D × (Env × Op D)) : Decidable (OwnRecord tr p) :=
  decidable_of_iff
    ((∀ r ∈ registeredBy p.2, ∀ q ∈ tr, ∀ r' ∈ registeredBy q.2,
        r'.2 = r.2 → r'.1.strkey.take 1 = r.1.strkey.take 1 → r'.1 = r.1) ∧
      (∀ r ∈ attestedBy p.2, ∀ q ∈ tr, ∀ r' ∈ attestedBy q.2, r'.2 = r.2 → r'.1 = r.1) ∧
      ∀ r ∈ requestedBy p.2, ∀ q ∈ tr, ∀ r' ∈ requestedBy q.2, r'.1 = r.1 → r'.2 = r.2)
    ⟨fun h => ⟨h.1, h.2.1, h.2.2⟩, fun h => ⟨h.asset, h.attestation, h.redemption⟩⟩

/-! ## Ids -/

section
variable {D : Type} {H : Host D} {a a' : Address} {t t' : AssetType} {i i' : D} {n m : ℕ}

/-- No address fits in the buffer. -/
theorem addressBuffer_eq : addressBuffer a = List.replicate 32 0 := by
  rw [addressBuffer, a.length_eq]
  rfl

theorem AssetType.code_injective : Function.Injective AssetType.code := by
  intro t t' h
  cases t <;> cases t' <;> first | rfl | cases h

theorem computeAssetId_iff (hH : Function.Injective H.sha256) :
    computeAssetId H a t = computeAssetId H a' t' ↔ a.strkey.take 1 = a'.strkey.take 1 ∧ t = t' := by
  rw [computeAssetId, computeAssetId, hH.eq_iff, ← List.concat_eq_append, ← List.concat_eq_append,
    List.concat_inj, AssetType.code_injective.eq_iff]

theorem computeAttestationId_iff (hH : Function.Injective H.sha256) (hA : Function.Injective H.toArray) :
    computeAttestationId H a i = computeAttestationId H a' i' ↔ i = i' := by
  rw [computeAttestationId, computeAttestationId, hH.eq_iff, addressBuffer_eq, addressBuffer_eq,
    List.append_cancel_left_eq, hA.eq_iff]

/-- Neither the requester nor the asset is part of the id. -/
theorem computeRedemptionId_any : computeRedemptionId H a n = computeRedemptionId H a' n := by
  rw [computeRedemptionId, computeRedemptionId, addressBuffer_eq, addressBuffer_eq]

theorem computeRedemptionId_second {env : Env} :
    computeRedemptionId H a (second env).toNat = computeRedemptionId H a env.timestamp := by
  rw [computeRedemptionId, second, u64ToBytes_ofNat, computeRedemptionId]

theorem computeRedemptionId_iff {u v : UInt64} (hH : Function.Injective H.sha256) :
    computeRedemptionId H a u.toNat = computeRedemptionId H a' v.toNat ↔ u = v := by
  rw [computeRedemptionId, computeRedemptionId, hH.eq_iff, addressBuffer_eq, addressBuffer_eq,
    List.append_cancel_left_eq]
  constructor
  · exact u64ToBytes_toNat_injective
  · rintro rfl
    rfl

end

/-! ## The records of a run -/

section
variable {H : Host D} {s s' : State D} {a a' : Address} {t t' : AssetType} {i i' d : D} {u : UInt64}
  {env : Env} {c : Env × Op D} {p : State D × (Env × Op D)} {tr : List (State D × (Env × Op D))}

theorem assetOf_concat : assetOf H (tr ++ [p]) a t = trackAsset H a t (assetOf H tr a t) p := by
  rw [assetOf, List.foldl_append]
  rfl

theorem attestationFor_concat :
    attestationFor H (tr ++ [p]) a i = trackAttestation H a i (attestationFor H tr a i) p := by
  rw [attestationFor, List.foldl_append]
  rfl

theorem redemptionOf_concat :
    redemptionOf H (tr ++ [p]) u a i = trackRedemption H u a i (redemptionOf H tr u a i) p := by
  rw [redemptionOf, List.foldl_append]
  rfl

theorem executionsOf_concat : executionsOf H (tr ++ [p]) d = countExecution H d (executionsOf H tr d) p := by
  rw [executionsOf, List.foldl_append]
  rfl

/-- An asset is there from its registration on. -/
theorem isSome_assetOf : (assetOf H tr a t).isSome ↔ ∃ q ∈ tr, registeredBy q.2 = some (a, t) := by
  refine (isSome_foldl (P := fun q => registeredBy q.2 = some (a, t)) (fun o q => ?_) none).trans (by simp)
  obtain ⟨s, env, op⟩ := q
  cases op with
  | registerAsset t' n a' h =>
    simp only [trackAsset, registeredBy, Option.some.injEq, Prod.mk.injEq]
    split_ifs with hk <;> simp [hk]
  | updateAsset j n h =>
    simp only [trackAsset, registeredBy]
    split_ifs <;> simp
  | executeRedemption j =>
    simp only [trackAsset, registeredBy]
    rcases (view s).redemptions j with _ | x
    · simp
    · dsimp only
      split_ifs <;> simp
  | _ => simp [trackAsset, registeredBy]

theorem isSome_attestationFor :
    (attestationFor H tr a i).isSome ↔ ∃ q ∈ tr, attestedBy q.2 = some (a, i) := by
  refine (isSome_foldl (P := fun q => attestedBy q.2 = some (a, i)) (fun o q => ?_) none).trans (by simp)
  obtain ⟨s, env, op⟩ := q
  cases op with
  | recordAttestation a' i' n g k e =>
    simp only [trackAttestation, attestedBy, Option.some.injEq, Prod.mk.injEq]
    split_ifs with hk <;> simp [hk]
  | _ => simp [trackAttestation, attestedBy]

theorem isSome_redemptionOf :
    (redemptionOf H tr u a i).isSome ↔ ∃ q ∈ tr, requestedBy q.2 = some (u, a, i) := by
  refine (isSome_foldl (P := fun q => requestedBy q.2 = some (u, a, i)) (fun o q => ?_) none).trans (by simp)
  obtain ⟨s, env, op⟩ := q
  cases op with
  | requestRedemption a' n i' =>
    simp only [trackRedemption, requestedBy, Option.some.injEq, Prod.mk.injEq]
    split_ifs with hk <;> simp [hk]
  | executeRedemption j =>
    simp only [trackRedemption, requestedBy]
    split_ifs <;> simp
  | _ => simp [trackRedemption, requestedBy]

/-- The asset of a custodian and a type is theirs. -/
theorem assetOf_spec : ∀ x ∈ assetOf H tr a t, x.custodyAddress = a ∧ x.assetType = t := by
  refine of_mem_foldl (fun o q ho => ?_) nofun
  obtain ⟨s, env, op⟩ := q
  cases op with
  | registerAsset t' n a' h =>
    simp only [trackAsset]
    split_ifs with hk
    · cases o with
      | none =>
        rintro x ⟨⟩
        exact ⟨rfl, rfl⟩
      | some y => exact ho
    · exact ho
  | updateAsset j n h =>
    simp only [trackAsset]
    split_ifs with hk
    · intro x hx
      obtain ⟨y, hy, rfl⟩ := Option.map_eq_some_iff.1 hx
      exact ho y hy
    · exact ho
  | executeRedemption j =>
    simp only [trackAsset]
    rcases (view s).redemptions j with _ | z
    · exact ho
    · dsimp only
      split_ifs with hk
      · intro x hx
        obtain ⟨y, hy, rfl⟩ := Option.map_eq_some_iff.1 hx
        exact ho y hy
      · exact ho
  | _ => exact ho

theorem attestationFor_spec : ∀ x ∈ attestationFor H tr a i, x.attestor = a := by
  refine of_mem_foldl (fun o q ho => ?_) nofun
  obtain ⟨s, env, op⟩ := q
  cases op with
  | recordAttestation a' i' n g k e =>
    simp only [trackAttestation]
    split_ifs with hk
    · rintro x ⟨⟩
      rfl
    · exact ho
  | _ => exact ho

theorem redemptionOf_spec : ∀ x ∈ redemptionOf H tr u a i, x.requester = a ∧ x.assetId = i := by
  refine of_mem_foldl (fun o q ho => ?_) nofun
  obtain ⟨s, env, op⟩ := q
  cases op with
  | requestRedemption a' n i' =>
    simp only [trackRedemption]
    split_ifs with hk
    · rintro x ⟨⟩
      exact ⟨rfl, rfl⟩
    · exact ho
  | executeRedemption j =>
    simp only [trackRedemption]
    split_ifs with hk
    · intro x hx
      obtain ⟨y, hy, rfl⟩ := Option.map_eq_some_iff.1 hx
      exact ho y hy
    · exact ho
  | _ => exact ho

/-! ## What every run keeps -/

/-- An asset was registered by its custodian, and a pending redemption is not executed. -/
structure Known (H : Host D) (tr : List (State D × (Env × Op D))) (s : State D) : Prop where
  asset : ∀ d, ∀ y ∈ (view s).assets d, ∃ a t, d = computeAssetId H a t ∧ (assetOf H tr a t).isSome
  pending : ∀ d, ∀ x ∈ (view s).redemptions d, x.status = 0 → executionsOf H tr d = 0
  once : ∀ d, executionsOf H tr d ≤ 1

/-- The assets of a run stay. -/
theorem isSome_assetOf_concat (h : (assetOf H tr a t).isSome) : (assetOf H (tr ++ [p]) a t).isSome := by
  obtain ⟨q, hq, hr⟩ := isSome_assetOf.1 h
  exact isSome_assetOf.2 ⟨q, List.mem_append_left _ hq, hr⟩

/-- A step that brings no asset and executes nothing. -/
theorem Known.quiet (h : Known H tr s) (hassets : ∀ d, ((view s').assets d).isSome →
    ((view s).assets d).isSome)
    (hredemptions : (view s').redemptions = (view s).redemptions)
    (hcount : ∀ d n, countExecution H d n (s, c) = n) : Known H (tr ++ [(s, c)]) s' where
  asset d y hy := by
    obtain ⟨y', hy'⟩ := Option.isSome_iff_exists.1 (hassets d (Option.isSome_of_mem hy))
    obtain ⟨a, t, hd, hsome⟩ := h.asset d y' hy'
    exact ⟨a, t, hd, isSome_assetOf_concat hsome⟩
  pending d := by
    rw [hredemptions, executionsOf_concat, hcount]
    exact h.pending d
  once d := by
    rw [executionsOf_concat, hcount]
    exact h.once d

theorem Known.step (hs : Steps (exec H) s c s') (h : Known H tr s) : Known H (tr ++ [(s, c)]) s' := by
  have heffect := effect_of_step hs
  have hupdate : ∀ {i d : D} {x y : AssetVerification D}, (view s).assets i = some x →
      (Function.update (view s).assets i (some y) d).isSome → ((view s).assets d).isSome := by
    intro i d x y hx hd
    by_cases hi : d = i
    · rw [hi, hx]
      rfl
    · rwa [Function.update_of_ne hi] at hd
  generalize hv' : view s' = v' at heffect
  cases heffect with
  | known _ => exact h.quiet (by rw [hv']; exact fun _ => id) (by rw [hv']) fun _ _ => rfl
  | @register env t n a e hnew =>
    have hassets : (view s').assets = Function.update (view s).assets (computeAssetId H a t) (some _) :=
      congrArg View.assets hv'
    refine ⟨fun d y hy => ?_, ?_, ?_⟩
    · by_cases hd : d = computeAssetId H a t
      · exact ⟨a, t, hd, isSome_assetOf.2 ⟨_, List.mem_append_right _ (List.mem_singleton_self _), rfl⟩⟩
      · rw [hassets, Function.update_of_ne hd] at hy
        obtain ⟨a', t', hd', hsome⟩ := h.asset d y hy
        exact ⟨a', t', hd', isSome_assetOf_concat hsome⟩
    · rw [hv']
      intro d
      rw [executionsOf_concat]
      exact h.pending d
    · intro d
      rw [executionsOf_concat]
      exact h.once d
  | update hx => exact h.quiet (by rw [hv']; exact fun _ => hupdate hx) (by rw [hv']) fun _ _ => rfl
  | attest => exact h.quiet (by rw [hv']; exact fun _ => id) (by rw [hv']) fun _ _ => rfl
  | report => exact h.quiet (by rw [hv']; exact fun _ => id) (by rw [hv']) fun _ _ => rfl
  | @request env a n i =>
    have hredemptions : (view s').redemptions = Function.update (view s).redemptions
        (computeRedemptionId H a env.timestamp) (some _) := congrArg View.redemptions hv'
    refine ⟨fun d y hy => ?_, fun d x hx hstatus => ?_, fun d => ?_⟩
    · rw [hv'] at hy
      obtain ⟨a', t', hd', hsome⟩ := h.asset d y hy
      exact ⟨a', t', hd', isSome_assetOf_concat hsome⟩
    · rw [executionsOf_concat]
      by_cases hd : computeRedemptionId H a env.timestamp = d
      · exact if_pos hd
      · rw [hredemptions, Function.update_of_ne (Ne.symm hd)] at hx
        exact (if_neg hd).trans (h.pending d x hx hstatus)
    · rw [executionsOf_concat]
      change (if _ then 0 else _) ≤ 1
      split_ifs
      · exact Nat.zero_le 1
      · exact h.once d
  | @execute env i x y hx hstatus hy hle =>
    have hredemptions : (view s').redemptions = Function.update (view s).redemptions i (some _) :=
      congrArg View.redemptions hv'
    refine ⟨fun d z hz => ?_, fun d z hz hzstatus => ?_, fun d => ?_⟩
    · rw [hv'] at hz
      obtain ⟨z', hz'⟩ := Option.isSome_iff_exists.1 (hupdate hy (Option.isSome_of_mem hz))
      obtain ⟨a', t', hd', hsome⟩ := h.asset d z' hz'
      exact ⟨a', t', hd', isSome_assetOf_concat hsome⟩
    · rw [executionsOf_concat]
      by_cases hd : i = d
      · -- what was executed is not pending
        subst hd
        rw [hredemptions, Function.update_self] at hz
        cases hz
        cases hzstatus
      · rw [hredemptions, Function.update_of_ne (Ne.symm hd)] at hz
        exact (if_neg hd).trans (h.pending d z hz hzstatus)
    · rw [executionsOf_concat]
      by_cases hd : i = d
      · subst hd
        exact (if_pos rfl).trans_le (by rw [h.pending i x hx hstatus])
      · exact (if_neg hd).trans_le (h.once d)

/-! ## Reading -/

/-- The records of a run are the ones that are stored. -/
structure Kept (H : Host D) (tr : List (State D × (Env × Op D))) (s : State D) : Prop where
  asset : ∀ a t x, assetOf H tr a t = some x → (view s).assets (computeAssetId H a t) = some x
  attestation : ∀ a i x, attestationFor H tr a i = some x →
    (view s).attestations (computeAttestationId H a i) = some x
  redemption : ∀ u a i x, redemptionOf H tr u a i = some x →
    (view s).redemptions (computeRedemptionId H a u.toNat) = some x

theorem getAttestation_run {x : Attestation D} :
    (getAttestation i).run env s = .ok (x, s) ↔ (view s).attestations i = some x := by
  rw [getAttestation, run_bind_ok _ _ (run_loadPers ..)]
  exact run_unwrapOr_iff env s

theorem getRedemption_run {x : RedemptionRequest D} :
    (getRedemption i).run env s = .ok (x, s) ↔ (view s).redemptions i = some x := by
  rw [getRedemption, run_bind_ok _ _ (run_loadPers ..)]
  exact run_unwrapOr_iff env s

/-- **A pending redemption can be executed** when the asset covers it. -/
theorem executeRedemption_run {x : RedemptionRequest D} {y : AssetVerification D}
    (hx : (view s).redemptions d = some x) (hstatus : x.status = 0)
    (hy : (view s).assets x.assetId = some y) (hle : x.quantity ≤ y.quantity) :
    ∃ s', (executeRedemption d).run env s = .ok ((), s') ∧
      (view s').assets x.assetId = some { y with quantity := y.quantity - x.quantity } := by
  have hredemption : (unwrapOr (s.persistent .redemption d) .unauthorizedRedemption :
      Fn D (RedemptionRequest D)).run env s = .ok (x, s) := (run_unwrapOr_iff env s).2 hx
  have hpending : (rejectIf (x.status ≠ 0) .unauthorizedRedemption : Fn D Unit).run env s = .ok ((), s) := by
    rw [run_rejectIf, if_neg (not_not.2 hstatus)]
  have hasset : (unwrapOr (s.persistent .asset x.assetId) .assetNotFound :
      Fn D (AssetVerification D)).run env s = .ok (y, s) := (run_unwrapOr_iff env s).2 hy
  rw [executeRedemption, run_bind_ok _ _ (run_loadPers ..), run_bind_ok _ _ hredemption,
    run_bind_ok _ _ hpending, run_bind_ok _ _ (run_loadPers ..), run_bind_ok _ _ hasset]
  refine ⟨_, run_bind_ok _ _ (by rw [run_doIf, if_neg (Nat.not_lt.2 hle)]) _, ?_⟩
  rw [view_putTotal, view_putRedemption, view_putAsset]
  exact Function.update_self ..

theorem recordsKept_iff (hknown : Known H tr s) : RecordsKept H tr s ↔ Kept H tr s := by
  constructor
  · intro h
    exact ⟨h.asset,
      fun a i x hx => getAttestation_run.1 (h.attestation a i x hx ⟨0, 0, fun _ => true, fun _ => 0⟩),
      fun u a i x hx => getRedemption_run.1 (h.redemption u a i x hx ⟨0, 0, fun _ => true, fun _ => 0⟩)⟩
  · intro h
    refine ⟨h.asset, ?_, fun a i x hx env => getAttestation_run.2 (h.attestation a i x hx), ?_,
      fun u a i x hx env => getRedemption_run.2 (h.redemption u a i x hx), ?_, hknown.once⟩
    · intro a t a' t' hsome hsome' hid
      obtain ⟨x, hx⟩ := Option.isSome_iff_exists.1 hsome
      obtain ⟨x', hx'⟩ := Option.isSome_iff_exists.1 hsome'
      obtain rfl : x = x' := by
        have hstored := h.asset a t x hx
        rw [hid, h.asset a' t' x' hx'] at hstored
        exact (Option.some.inj hstored).symm
      obtain ⟨rfl, rfl⟩ := assetOf_spec x hx
      exact assetOf_spec x hx'
    · intro a a' i hsome hsome' hid
      obtain ⟨x, hx⟩ := Option.isSome_iff_exists.1 hsome
      obtain ⟨x', hx'⟩ := Option.isSome_iff_exists.1 hsome'
      obtain rfl : x = x' := by
        have hstored := h.attestation a i x hx
        rw [hid, h.attestation a' i x' hx'] at hstored
        exact (Option.some.inj hstored).symm
      exact (attestationFor_spec x hx).symm.trans (attestationFor_spec x hx')
    · intro u a i x hx hstatus y hy hle env
      obtain ⟨-, rfl⟩ := redemptionOf_spec x hx
      exact executeRedemption_run (h.redemption u a _ x hx) hstatus hy hle

/-! ## Steps -/

/-- What is stored for two parties under one id is stored for one of them. -/
theorem Kept.own (h : Kept H (tr ++ [p]) s) : OwnRecord tr p := by
  have hmem : ∀ {q}, q ∈ tr → q ∈ tr ++ [p] := fun hq => List.mem_append_left _ hq
  have hlast : p ∈ tr ++ [p] := List.mem_append_right _ (List.mem_singleton_self p)
  refine ⟨?_, ?_, ?_⟩
  · rintro ⟨a, t⟩ hr q hq ⟨a', t'⟩ hr' rfl hfirst
    obtain ⟨x, hx⟩ := Option.isSome_iff_exists.1 (isSome_assetOf (H := H).2 ⟨p, hlast, hr⟩)
    obtain ⟨x', hx'⟩ := Option.isSome_iff_exists.1 (isSome_assetOf (H := H).2 ⟨q, hmem hq, hr'⟩)
    have hid : computeAssetId H a' t' = computeAssetId H a t' := by
      rw [computeAssetId, computeAssetId, hfirst]
    have hstored := h.asset a' t' x' hx'
    rw [hid, h.asset a t' x hx] at hstored
    obtain rfl := Option.some.inj hstored
    exact (assetOf_spec x hx').1.symm.trans (assetOf_spec x hx).1
  · rintro ⟨a, i⟩ hr q hq ⟨a', i'⟩ hr' rfl
    obtain ⟨x, hx⟩ := Option.isSome_iff_exists.1 (isSome_attestationFor (H := H).2 ⟨p, hlast, hr⟩)
    obtain ⟨x', hx'⟩ := Option.isSome_iff_exists.1 (isSome_attestationFor (H := H).2 ⟨q, hmem hq, hr'⟩)
    have hid : computeAttestationId H a' i' = computeAttestationId H a i' := by
      rw [computeAttestationId, computeAttestationId, addressBuffer_eq, addressBuffer_eq]
    have hstored := h.attestation a' i' x' hx'
    rw [hid, h.attestation a i' x hx] at hstored
    obtain rfl := Option.some.inj hstored
    exact (attestationFor_spec x hx').symm.trans (attestationFor_spec x hx)
  · rintro ⟨u, a, i⟩ hr q hq ⟨u', a', i'⟩ hr' rfl
    obtain ⟨x, hx⟩ := Option.isSome_iff_exists.1 (isSome_redemptionOf (H := H).2 ⟨p, hlast, hr⟩)
    obtain ⟨x', hx'⟩ := Option.isSome_iff_exists.1 (isSome_redemptionOf (H := H).2 ⟨q, hmem hq, hr'⟩)
    have hstored := h.redemption u' a' i' x' hx'
    rw [(computeRedemptionId_any : computeRedemptionId H a' _ = computeRedemptionId H a _),
      h.redemption u' a i x hx] at hstored
    obtain rfl := Option.some.inj hstored
    obtain ⟨rfl, rfl⟩ := redemptionOf_spec x hx
    obtain ⟨rfl, rfl⟩ := redemptionOf_spec x hx'
    rfl

/-- The assets after a step. -/
theorem Kept.asset_step (hH : Function.Injective H.sha256) (hs : Steps (exec H) s c s')
    (hknown : Known H tr s)
    (h : Kept H tr s) (hown : OwnRecord tr (s, c)) {x : AssetVerification D}
    (hx : assetOf H (tr ++ [(s, c)]) a t = some x) : (view s').assets (computeAssetId H a t) = some x := by
  have heffect := effect_of_step hs
  obtain ⟨v', hv'⟩ : ∃ v', view s' = v' := ⟨_, rfl⟩
  rw [hv'] at heffect
  rw [assetOf_concat] at hx
  cases heffect with
  | @known env t' n a' e y hy =>
    rw [hv']
    refine h.asset a t x ?_
    simp only [trackAsset] at hx
    split_ifs at hx with hk
    · -- the pair was registered: what is stored under its id is not another's
      obtain ⟨rfl, rfl⟩ := hk
      obtain ⟨a₁, t₁, hid, hsome⟩ := hknown.asset _ y hy
      obtain ⟨hfirst, rfl⟩ := (computeAssetId_iff hH).1 hid
      obtain ⟨q, hq, hr⟩ := isSome_assetOf.1 hsome
      obtain rfl := hown.asset (a', t') rfl q hq (a₁, t') hr rfl hfirst.symm
      obtain ⟨z, hz⟩ := Option.isSome_iff_exists.1 hsome
      rwa [hz] at hx ⊢
    · exact hx
  | @register env t' n a' e hnew =>
    have hassets : (view s').assets = Function.update (view s).assets (computeAssetId H a' t') (some _) :=
      congrArg View.assets hv'
    have hold : ∀ y, assetOf H tr a t = some y → computeAssetId H a t ≠ computeAssetId H a' t' := by
      intro y hy hid
      have hstored := h.asset a t y hy
      rw [hid, hnew] at hstored
      cases hstored
    simp only [trackAsset] at hx
    split_ifs at hx with hk
    · obtain ⟨rfl, rfl⟩ := hk
      rcases hy : assetOf H tr a' t' with _ | y
      · rw [hy] at hx
        rw [hassets, Function.update_self]
        exact hx
      · exact absurd rfl (hold y hy)
    · rw [hassets, Function.update_of_ne (hold x hx)]
      exact h.asset a t x hx
  | @update env i n e y hy =>
    have hassets : (view s').assets = Function.update (view s).assets i (some _) := congrArg View.assets hv'
    simp only [trackAsset] at hx
    split_ifs at hx with hk
    · obtain ⟨z, hz, rfl⟩ := Option.map_eq_some_iff.1 hx
      have hstored := h.asset a t z hz
      rw [← hk, hy] at hstored
      obtain rfl := Option.some.inj hstored
      rw [hassets, ← hk, Function.update_self]
    · rw [hassets, Function.update_of_ne (Ne.symm hk)]
      exact h.asset a t x hx
  | @execute env i z y hz hstatus hy hle =>
    have hassets : (view s').assets = Function.update (view s).assets z.assetId (some _) :=
      congrArg View.assets hv'
    simp only [trackAsset, hz] at hx
    split_ifs at hx with hk
    · obtain ⟨y', hy', rfl⟩ := Option.map_eq_some_iff.1 hx
      have hstored := h.asset a t y' hy'
      rw [← hk, hy] at hstored
      obtain rfl := Option.some.inj hstored
      rw [hassets, ← hk, Function.update_self]
    · rw [hassets, Function.update_of_ne (Ne.symm hk)]
      exact h.asset a t x hx
  | _ =>
    rw [hv']
    exact h.asset a t x hx

/-- The attestations after a step. -/
theorem Kept.attestation_step (hH : Function.Injective H.sha256) (hA : Function.Injective H.toArray)
    (hs : Steps (exec H) s c s') (h : Kept H tr s) (hown : OwnRecord tr (s, c)) {x : Attestation D}
    (hx : attestationFor H (tr ++ [(s, c)]) a i = some x) :
    (view s').attestations (computeAttestationId H a i) = some x := by
  have heffect := effect_of_step hs
  obtain ⟨v', hv'⟩ : ∃ v', view s' = v' := ⟨_, rfl⟩
  rw [hv'] at heffect
  rw [attestationFor_concat] at hx
  cases heffect with
  | @attest env a' i' n g k e =>
    have hattestations : (view s').attestations = Function.update (view s).attestations
        (computeAttestationId H a' i') (some _) := congrArg View.attestations hv'
    simp only [trackAttestation] at hx
    split_ifs at hx with hk
    · obtain ⟨rfl, rfl⟩ := hk
      rw [hattestations, Function.update_self]
      exact hx
    · have hne : computeAttestationId H a i ≠ computeAttestationId H a' i' := by
        intro hid
        obtain rfl := (computeAttestationId_iff hH hA).1 hid
        obtain ⟨q, hq, hr⟩ := isSome_attestationFor.1 (Option.isSome_of_mem hx)
        exact hk ⟨(hown.attestation (a', i) rfl q hq (a, i) hr rfl).symm, rfl⟩
      rw [hattestations, Function.update_of_ne hne]
      exact h.attestation a i x hx
  | _ =>
    rw [hv']
    exact h.attestation a i x hx

/-- The redemptions after a step. -/
theorem Kept.redemption_step (hH : Function.Injective H.sha256) (hs : Steps (exec H) s c s')
    (h : Kept H tr s) (hown : OwnRecord tr (s, c)) {x : RedemptionRequest D}
    (hx : redemptionOf H (tr ++ [(s, c)]) u a i = some x) :
    (view s').redemptions (computeRedemptionId H a u.toNat) = some x := by
  have heffect := effect_of_step hs
  obtain ⟨v', hv'⟩ : ∃ v', view s' = v' := ⟨_, rfl⟩
  rw [hv'] at heffect
  rw [redemptionOf_concat] at hx
  cases heffect with
  | @request env a' n i' =>
    have hredemptions : (view s').redemptions = Function.update (view s).redemptions
        (computeRedemptionId H a' env.timestamp) (some _) := congrArg View.redemptions hv'
    simp only [trackRedemption] at hx
    split_ifs at hx with hk
    · obtain ⟨rfl, rfl, rfl⟩ := hk
      rw [computeRedemptionId_second] at hx ⊢
      rw [hredemptions, Function.update_self]
      exact hx
    · have hne : computeRedemptionId H a u.toNat ≠ computeRedemptionId H a' env.timestamp := by
        rw [← computeRedemptionId_second]
        intro hid
        obtain rfl := (computeRedemptionId_iff hH).1 hid
        obtain ⟨q, hq, hr⟩ := isSome_redemptionOf.1 (Option.isSome_of_mem hx)
        have hsame := hown.redemption (second env, a', i') rfl q hq (second env, a, i) hr rfl
        rw [Prod.mk.injEq] at hsame
        exact hk ⟨rfl, hsame.1.symm, hsame.2.symm⟩
      rw [hredemptions, Function.update_of_ne hne]
      exact h.redemption u a i x hx
  | @execute env d z y hz hstatus hy hle =>
    have hredemptions : (view s').redemptions = Function.update (view s).redemptions d (some _) :=
      congrArg View.redemptions hv'
    simp only [trackRedemption] at hx
    split_ifs at hx with hk
    · obtain ⟨z', hz', rfl⟩ := Option.map_eq_some_iff.1 hx
      have hstored := h.redemption u a i z' hz'
      rw [← hk, hz] at hstored
      obtain rfl := Option.some.inj hstored
      rw [hredemptions, ← hk, Function.update_self]
    · rw [hredemptions, Function.update_of_ne (Ne.symm hk)]
      exact h.redemption u a i x hx
  | _ =>
    rw [hv']
    exact h.redemption u a i x hx

/-- **A step keeps the records exactly when its record is its own.** -/
theorem kept_concat (hH : Function.Injective H.sha256) (hA : Function.Injective H.toArray)
    (hs : Steps (exec H) s c s') (hknown : Known H tr s) (h : Kept H tr s) :
    Kept H (tr ++ [(s, c)]) s' ↔ OwnRecord tr (s, c) :=
  ⟨Kept.own, fun hown => ⟨fun _ _ _ hx => h.asset_step hH hs hknown hown hx,
    fun _ _ _ hx => h.attestation_step hH hA hs hown hx,
    fun _ _ _ _ hx => h.redemption_step hH hs hown hx⟩⟩

/-- There are no records yet. -/
theorem known_empty : Known H [] (Ledger.empty : State D) := ⟨nofun, nofun, fun _ => Nat.zero_le 1⟩

theorem kept_empty : Kept H [] (Ledger.empty : State D) := ⟨nofun, nofun, nofun⟩

/-- **The records are kept throughout a run** if and only if no record is made under the id of another. -/
theorem history_records (hH : Function.Injective H.sha256) (hA : Function.Injective H.toArray)
    (h : Run (Steps (exec H)) Ledger.empty tr s) :
    ((∀ before p after, tr = before ++ p :: after → RecordsKept H before p.1) ∧ RecordsKept H tr s) ↔
      ∀ before p after, tr = before ++ p :: after → OwnRecord before p := by
  refine Run.throughout_iff_keeping (J := Known H) known_empty (fun _ _ _ _ _ hs hknown _ => hknown.step hs)
    ((recordsKept_iff known_empty).2 kept_empty) (fun tr s c s' _ hs hknown h => ?_) h
  rw [recordsKept_iff (hknown.step hs), kept_concat hH hA hs hknown ((recordsKept_iff hknown).1 h)]

end

/-! ## Scripts -/

/-- Two custodians of different assets, two attestors, and two requests in different seconds. -/
def separateScript : List (Env × Op Bytes) :=
  [cash 100, (openEnv 1, .registerAsset .treasuryBills 40 (account 66) []),
    (openEnv 2, .recordAttestation (account 67) cashId 100 [] [] 90),
    (openEnv 3, .requestRedemption (account 66) 30 cashId),
    (openEnv 4, .requestRedemption (account 67) 20 cashId),
    (openEnv 5, .executeRedemption (computeRedemptionId plainHost (account 66) 3))]

theorem history_records_separateScript :
    ∃ tr s, Run (Steps (exec plainHost)) Ledger.empty tr s ∧ tr.map Prod.snd = separateScript ∧
      (∀ before p after, tr = before ++ p :: after → RecordsKept plainHost before p.1) ∧
        RecordsKept plainHost tr s := by
  obtain ⟨s, hs⟩ : ∃ s, play (exec plainHost) Ledger.empty separateScript = some s := ⟨_, rfl⟩
  refine ⟨_, s, run_of_play hs, map_snd_traceOf hs, ?_⟩
  exact (history_records Function.injective_id Function.injective_id (run_of_play hs)).2
    (@of_decide_eq_true _ (Run.decidableCuts _ _ fun _ _ => inferInstance) (by decide))

/-- Two requests in one second. -/
def simultaneousScript : List (Env × Op Bytes) :=
  [cash 100, (openEnv 3, .requestRedemption (account 66) 30 cashId),
    (openEnv 3, .requestRedemption (account 67) 20 cashId)]

/-- **A request replaces another's of the same second.** -/
theorem request_replaced :
    ∃ tr s x, Run (Steps (exec plainHost)) Ledger.empty tr s ∧ tr.map Prod.snd = simultaneousScript ∧
      (redemptionOf plainHost tr 3 (account 66) cashId).isSome ∧
      (view s).redemptions (computeRedemptionId plainHost (account 66) 3) = some x ∧
      x.requester = account 67 ∧ ¬RecordsKept plainHost tr s := by
  obtain ⟨s, hs⟩ : ∃ s, play (exec plainHost) Ledger.empty simultaneousScript = some s := ⟨_, rfl⟩
  obtain ⟨x, hx⟩ : ∃ x, redemptionOf plainHost (traceOf (exec plainHost) Ledger.empty simultaneousScript) 3
      (account 66) cashId = some x := ⟨_, rfl⟩
  have hstored : (view s).redemptions (computeRedemptionId plainHost (account 66) 3) =
      some ⟨computeRedemptionId plainHost (account 67) 3, account 67, 20, 0, 3, 0, cashId⟩ := by
    cases hs
    decide
  refine ⟨_, s, _, run_of_play hs, map_snd_traceOf hs, Option.isSome_of_mem hx, hstored, rfl, fun h => ?_⟩
  have hkept := getRedemption_run.1 (h.redemption 3 (account 66) cashId x hx (openEnv 3))
  have hid : computeRedemptionId plainHost (account 66) (3 : UInt64).toNat =
      computeRedemptionId plainHost (account 66) 3 := rfl
  rw [hid, hstored] at hkept
  obtain rfl := Option.some.inj hkept
  exact absurd (redemptionOf_spec _ hx).1 (by decide)

end StablecoinReserves
