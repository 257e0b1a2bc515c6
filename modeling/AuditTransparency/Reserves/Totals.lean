/-
  ReserveAuditing — what the assets add up to.

  The total is kept beside the assets and moved with every change of a quantity.
  `update_asset` compares the new quantity with itself, so it always subtracts: the total
  falls when a quantity rises.

  * `totalSound_step`: one step keeps the total exactly when it does not raise a quantity;
  * `history_total`: exactly when the total, the count and the list of the assets are right
    throughout a run.
-/
import AuditTransparency.Reserves.Contract
import AuditTransparency.Soroban.Sums
import AuditTransparency.Ledger.Contract

namespace StablecoinReserves

open Soroban
open Soroban.Call
open AuditLedger (openEnv account)

variable {D : Type} [DecidableEq D]

/-- The quantity of an asset. -/
def View.quantity (v : View D) (i : D) : ℕ := (v.assets i).elim 0 (·.quantity)

/-- What the contract states of its assets. -/
structure TotalSound (H : Host D) (s : State D) : Prop where
  total : SumsTo (view s).quantity (view s).total
  count : ((view s).count : ℕ∞) = (stored (view s).assets).encard
  nodup : (view s).list.Nodup
  listed : ∀ i, i ∈ (view s).list ↔ ((view s).assets i).isSome
  report : ∀ env a b c d e i s', (generateReport H a b c d e).run env s = .ok (i, s') →
    ∃ x ∈ s'.persistent .report i, SumsTo (view s).quantity x.totalReserve ∧
      (x.assetCount : ℕ∞) = (stored (view s).assets).encard

/-- The total has room for an asset that is registered. -/
def NotSaturating (H : Host D) (s : State D) (c : Env × Op D) : Prop :=
  match c.2 with
  | .registerAsset t n a _ => (view s).assets (computeAssetId H a t) = none → (view s).total + n < 2 ^ 128
  | _ => True

/-- An asset is updated to no more than it is. -/
def Lowers (s : State D) (c : Env × Op D) : Prop :=
  match c.2 with
  | .updateAsset i n _ => ∀ x ∈ (view s).assets i, n ≤ x.quantity
  | _ => True

instance NotSaturating.decidable (H : Host D) (s : State D) : (c : Env × Op D) →
    Decidable (NotSaturating H s c)
  | (_, .registerAsset t n a _) =>
    inferInstanceAs (Decidable ((view s).assets (computeAssetId H a t) = none → (view s).total + n < 2 ^ 128))
  | (_, .updateAsset ..) | (_, .recordAttestation ..) | (_, .generateReport ..)
  | (_, .requestRedemption ..) | (_, .executeRedemption ..) => inferInstanceAs (Decidable True)

instance Lowers.decidable (s : State D) : (c : Env × Op D) → Decidable (Lowers s c)
  | (_, .updateAsset i n _) => inferInstanceAs (Decidable (∀ x ∈ (view s).assets i, n ≤ x.quantity))
  | (_, .registerAsset ..) | (_, .recordAttestation ..) | (_, .generateReport ..)
  | (_, .requestRedemption ..) | (_, .executeRedemption ..) => inferInstanceAs (Decidable True)

/-! ## Views -/

/-- The total, the count and the list are right. -/
structure View.Sound (v : View D) : Prop where
  total : SumsTo v.quantity v.total
  count : (v.count : ℕ∞) = (stored v.assets).encard
  nodup : v.list.Nodup
  listed : ∀ i, i ∈ v.list ↔ (v.assets i).isSome

section
variable {H : Host D} {v v' : View D} {i : D} {x y : AssetVerification D} {s s' : State D}
  {c : Env × Op D} {tr : List (State D × (Env × Op D))}

/-- What a report states is what the contract states. -/
theorem totalSound_iff : TotalSound H s ↔ (view s).Sound := by
  constructor
  · intro h
    exact ⟨h.total, h.count, h.nodup, h.listed⟩
  · intro h
    refine ⟨h.total, h.count, h.nodup, h.listed, fun env a b c d e i s' hr => ?_⟩
    refine Post.of_run (m := generateReport H a b c d e) (Q := fun i s' => ∃ x ∈ s'.persistent .report i,
      SumsTo (view s).quantity x.totalReserve ∧ (x.assetCount : ℕ∞) = (stored (view s).assets).encard) ?_ hr
    simp only [generateReport, post_bind, post_getEnv, post_loadPers, post_storePers, post_addChecked,
      post_pure]
    intro _
    refine ⟨⟨computeReportId H a b, env.timestamp, a, b, (view s).total, (view s).count, c, d, e⟩, ?_,
      h.total, h.count⟩
    simp [view]

theorem View.quantity_update_self {m : D → Option (AssetVerification D)}
    (h : v.assets = Function.update m i (some x)) : v.quantity i = x.quantity := by
  rw [View.quantity, h, Function.update_self]
  rfl

theorem View.quantity_update_ne {j : D} (h : v'.assets = Function.update v.assets i (some x)) (hj : j ≠ i) :
    v'.quantity j = v.quantity j := by
  rw [View.quantity, h, Function.update_of_ne hj]
  rfl

/-- A new asset. -/
theorem View.Sound.register (h : v.Sound) (hnew : v.assets i = none)
    (hassets : v'.assets = Function.update v.assets i (some x)) (hlist : v'.list = v.list ++ [i])
    (hcount : v'.count = v.count + 1) (htotal : v'.total = v.total + x.quantity) : v'.Sound := by
  have hfresh : i ∉ stored v.assets := by
    rw [mem_stored, hnew]
    nofun
  have hzero : v.quantity i = 0 := by
    rw [View.quantity, hnew]
    rfl
  refine ⟨?_, ?_, ?_, fun j => ?_⟩
  · rw [h.total.change fun j hj => View.quantity_update_ne hassets hj, View.quantity_update_self hassets,
      hzero, htotal]
    rfl
  · rw [hassets, stored_update, Set.encard_insert_of_notMem hfresh, ← h.count, hcount, Nat.cast_succ]
  · rw [hlist, ← List.concat_eq_append, List.nodup_concat]
    exact ⟨fun hi => hfresh ((h.listed i).1 hi), h.nodup⟩
  · rw [hlist, List.mem_append, List.mem_singleton, h.listed, hassets]
    by_cases hj : j = i
    · subst hj
      simp
    · rw [Function.update_of_ne hj]
      simp [hj]

/-- An asset has another quantity: only the sum is affected. -/
theorem View.Sound.replace_iff (h : v.Sound) (hx : v.assets i = some x)
    (hassets : v'.assets = Function.update v.assets i (some y)) (hlist : v'.list = v.list)
    (hcount : v'.count = v.count) : v'.Sound ↔ v'.total + x.quantity = v.total + y.quantity := by
  have hold : v.quantity i = x.quantity := by
    rw [View.quantity, hx]
    rfl
  have hsum : SumsTo v'.quantity v'.total ↔ v'.total + x.quantity = v.total + y.quantity := by
    rw [h.total.change fun j hj => View.quantity_update_ne hassets hj, View.quantity_update_self hassets,
      hold]
  have hmem : i ∈ stored v.assets := by
    rw [mem_stored, hx]
    rfl
  refine ⟨fun h' => hsum.1 h'.total, fun htotal => ⟨hsum.2 htotal, ?_, ?_, fun j => ?_⟩⟩
  · rw [hassets, stored_update, Set.insert_eq_of_mem hmem, hcount, h.count]
  · rw [hlist]
    exact h.nodup
  · rw [hlist, h.listed, hassets]
    by_cases hj : j = i
    · subst hj
      simp [hx]
    · rw [Function.update_of_ne hj]

omit [DecidableEq D] in
/-- What changes neither the assets nor what is stated of them. -/
theorem View.Sound.congr (h : v.Sound) (hassets : v'.assets = v.assets) (hlist : v'.list = v.list)
    (hcount : v'.count = v.count) (htotal : v'.total = v.total) : v'.Sound := by
  refine ⟨?_, ?_, ?_, fun j => ?_⟩
  · rw [htotal]
    exact h.total.congr fun j => by rw [View.quantity, View.quantity, hassets]
  · rw [hassets, hcount, h.count]
  · rw [hlist]
    exact h.nodup
  · rw [hlist, hassets, h.listed]

/-! ## Runs -/

/-- **A step keeps the total right exactly when it does not raise a quantity.** -/
theorem totalSound_step (hs : Steps (exec H) s c s') (hroom : NotSaturating H s c) (h : TotalSound H s) :
    TotalSound H s' ↔ Lowers s c := by
  rw [totalSound_iff] at h ⊢
  have heffect := effect_of_step hs
  generalize hv' : view s' = v' at heffect ⊢
  rw [Lowers]
  cases heffect with
  | known _ => exact iff_of_true h trivial
  | @register env t n a d hnew =>
    refine iff_of_true (h.register hnew rfl rfl rfl ?_) trivial
    have hlt : (view s).total + n < 2 ^ 128 := hroom hnew
    change saturatingAdd (view s).total n = (view s).total + n
    rw [saturatingAdd]
    omega
  | @update env i n d x hx =>
    refine Iff.trans (h.replace_iff (y := { x with quantity := n, verifiedAt := env.timestamp, proofHash := d })
      hx rfl rfl rfl) ?_
    have hle : x.quantity ≤ (view s).total := by
      have hquantity : (view s).quantity i = x.quantity := by
        rw [View.quantity, hx]
        rfl
      rw [← hquantity]
      exact h.total.le
    simp only [hx, Option.mem_some_iff, forall_eq']
    -- the total falls by the difference, whichever way the quantity has moved
    split_ifs with hn <;> constructor <;> intro _ <;> omega
  | attest => exact iff_of_true (h.congr rfl rfl rfl rfl) trivial
  | report => exact iff_of_true h trivial
  | request => exact iff_of_true (h.congr rfl rfl rfl rfl) trivial
  | @execute env i x y hx hstatus hy hle =>
    refine iff_of_true (Iff.mpr (h.replace_iff (y := { y with quantity := y.quantity - x.quantity }) hy
      rfl rfl rfl) ?_) trivial
    have hquantity : (view s).quantity x.assetId = y.quantity := by
      rw [View.quantity, hy]
      rfl
    have htotal : y.quantity ≤ (view s).total := by
      rw [← hquantity]
      exact h.total.le
    change (view s).total - x.quantity + y.quantity = (view s).total + (y.quantity - x.quantity)
    omega

/-- There are no assets yet. -/
theorem totalSound_empty : TotalSound H (Ledger.empty : State D) := by
  rw [totalSound_iff]
  have hstored : stored (view (Ledger.empty : State D)).assets = ∅ := by
    ext i
    exact iff_of_false nofun nofun
  refine ⟨sumsTo_zero fun _ => rfl, ?_, List.nodup_nil, fun i => iff_of_false nofun nofun⟩
  rw [hstored, Set.encard_empty]
  rfl

/-- **The total is the sum of the assets throughout a run** if and only if no update raises a quantity. -/
theorem history_total (h : Run (Steps (exec H)) Ledger.empty tr s)
    (hroom : ∀ p ∈ tr, NotSaturating H p.1 p.2) :
    ((∀ p ∈ tr, TotalSound H p.1) ∧ TotalSound H s) ↔ ∀ p ∈ tr, Lowers p.1 p.2 :=
  h.always_iff (J := fun _ => True) trivial (fun _ _ _ _ _ => trivial) totalSound_empty
    (fun _ _ _ hroom hs _ h => totalSound_step hs hroom h) hroom

end

/-! ## Scripts -/

/-- A host to evaluate the contract with: byte strings are their own digests. -/
def plainHost : Host Bytes := ⟨id, id⟩

/-- Cash in custody. -/
def cash (n : ℕ) : Env × Op Bytes := (openEnv 1, .registerAsset .usdCash n (account 65) [])

/-- The id it gets. -/
def cashId : Bytes := computeAssetId plainHost (account 65) .usdCash

/-- Cash is registered, counted again, and redeemed in part. -/
def redeemedScript : List (Env × Op Bytes) :=
  [cash 100, (openEnv 2, .updateAsset cashId 80 []), (openEnv 3, .requestRedemption (account 66) 30 cashId),
    (openEnv 4, .executeRedemption (computeRedemptionId plainHost (account 66) 3)),
    (openEnv 5, .generateReport 0 5 [] [] [])]

/-- What is left of the cash is what is reported. -/
theorem history_total_redeemedScript :
    ∃ tr s, Run (Steps (exec plainHost)) Ledger.empty tr s ∧ tr.map Prod.snd = redeemedScript ∧
      (view s).total = 50 ∧ (∀ p ∈ tr, TotalSound plainHost p.1) ∧ TotalSound plainHost s := by
  obtain ⟨s, hs⟩ : ∃ s, play (exec plainHost) Ledger.empty redeemedScript = some s := ⟨_, rfl⟩
  have htotal : (view s).total = 50 := by
    cases hs
    decide
  refine ⟨_, s, run_of_play hs, map_snd_traceOf hs, htotal, ?_⟩
  exact (history_total (run_of_play hs) (by decide)).2 (by decide)

/-- Cash comes in. -/
def raisedScript : List (Env × Op Bytes) := [cash 100, (openEnv 2, .updateAsset cashId 150 [])]

/-- **A reserve of 150 is stated as 50.** -/
theorem reserve_understated :
    ∃ tr s, Run (Steps (exec plainHost)) Ledger.empty tr s ∧ tr.map Prod.snd = raisedScript ∧
      (∀ p ∈ tr, NotSaturating plainHost p.1 p.2) ∧ (view s).total = 50 ∧ (view s).quantity cashId = 150 ∧
      ¬TotalSound plainHost s := by
  obtain ⟨s, hs⟩ : ∃ s, play (exec plainHost) Ledger.empty raisedScript = some s := ⟨_, rfl⟩
  have hstate : (view s).total = 50 ∧ (view s).quantity cashId = 150 := by
    cases hs
    decide
  refine ⟨_, s, run_of_play hs, map_snd_traceOf hs, by decide, hstate.1, hstate.2, fun h => ?_⟩
  have hle : (view s).quantity cashId ≤ (view s).total := h.total.le
  omega

end StablecoinReserves
