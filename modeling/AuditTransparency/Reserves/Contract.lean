/-
  ReserveAuditing — the reserves of a stablecoin (`src/stablecoin_reserves_impl.rs`).

  Assets are registered, attested and redeemed; a report states what they add up to.
  All entries are in the persistent store.  The ids of the records are hashes of the
  first character of an address, or of buffers that an address does not fit in.

  `env.invoker()` is an argument of the functions here.  A function that returns an
  error leaves the ledger as it was, what it has stored before included.  The stress
  tests and the proofs of reserves write entries of their own and are left out.
-/
import AuditTransparency.Ledger.Hashing
import AuditTransparency.Soroban.Script

namespace StablecoinReserves

open Soroban
open Soroban.Call
open AuditLedger (u64ToBytes)

/-! ## Data -/

inductive AssetType where
  | usdCash
  | treasuryBills
  | bankDeposits
  | cryptocurrency
  | other
  deriving DecidableEq

/-- `BytesN<32>` is the type `D` of digests. -/
structure AssetVerification (D : Type) where
  assetId : D
  assetType : AssetType
  quantity : ℕ
  custodyAddress : Address
  verifiedAt : ℕ
  verifiedBy : Address
  proofHash : D
  deriving DecidableEq

structure Attestation (D : Type) where
  attestationId : D
  attestor : Address
  assetId : D
  attestedQuantity : ℕ
  timestamp : ℕ
  signature : Bytes
  publicKey : D
  expiresAt : ℕ
  deriving DecidableEq

structure TransparencyReport (D : Type) where
  reportId : D
  createdAt : ℕ
  periodStart : ℕ
  periodEnd : ℕ
  totalReserve : ℕ
  assetCount : ℕ
  assetBreakdownHash : D
  attestationsHash : D
  merkleRoot : D
  deriving DecidableEq

/-- A redemption; its status is 0 when it is pending, 2 when it is executed, and 3 when it has failed. -/
structure RedemptionRequest (D : Type) where
  redemptionId : D
  requester : Address
  quantity : ℕ
  status : ℕ
  requestedAt : ℕ
  executedAt : ℕ
  assetId : D
  deriving DecidableEq

structure AuditEntry (D : Type) where
  entryId : D
  eventType : Symbol
  entityId : D
  actor : Address
  timestamp : ℕ
  notes : Bytes
  deriving DecidableEq

inductive ReserveError where
  | assetNotFound
  | insufficientReserve
  | invalidAttestation
  | reportGenerationFailed
  | unauthorizedRedemption
  deriving DecidableEq

/-- What the contract uses of the host. -/
structure Host (D : Type) where
  /-- `env.crypto().sha256` -/
  sha256 : Bytes → D
  /-- `BytesN::to_array` -/
  toArray : D → Bytes

/-! ## Storage keys -/

inductive ReserveDataKey where
  | asset
  | attestation
  | report
  | redemption
  | assetList
  | attestationList
  | reportList
  | redemptionList
  | assetCount
  | attestationCount
  | reportCount
  | redemptionCount
  | auditEntry
  | lastReportTime
  | totalAttestedReserve
  deriving DecidableEq

/-- The argument of a key. -/
@[reducible] def ReserveDataKey.Key (D : Type) : ReserveDataKey → Type
  | asset | attestation | report | redemption | auditEntry => D
  | _ => Unit

/-- The value stored under a key. -/
@[reducible] def ReserveDataKey.Val (D : Type) : ReserveDataKey → Type
  | asset => AssetVerification D
  | attestation => Attestation D
  | report => TransparencyReport D
  | redemption => RedemptionRequest D
  | auditEntry => AuditEntry D
  | assetList | attestationList | reportList | redemptionList => List D
  | assetCount | attestationCount | reportCount | redemptionCount => ℕ
  | lastReportTime | totalAttestedReserve => ℕ

instance ReserveDataKey.decEqKey {D : Type} [DecidableEq D] :
    (f : ReserveDataKey) → DecidableEq (f.Key D)
  | asset | attestation | report | redemption | auditEntry => inferInstanceAs (DecidableEq D)
  | assetList | attestationList | reportList | redemptionList | assetCount | attestationCount
  | reportCount | redemptionCount | lastReportTime | totalAttestedReserve =>
    inferInstanceAs (DecidableEq Unit)

/-- The storage of the contract; it publishes nothing. -/
abbrev layout (D : Type) [DecidableEq D] : Layout where
  Field := ReserveDataKey
  Key := ReserveDataKey.Key D
  Val := ReserveDataKey.Val D
  Note := Empty

abbrev State (D : Type) [DecidableEq D] := Ledger (layout D)

abbrev Fn (D : Type) [DecidableEq D] : Type → Type := Call ReserveError (layout D)

variable {D : Type} [DecidableEq D]

/-- `env.storage().persistent()` -/
abbrev get (f : ReserveDataKey) (k : f.Key D) : Fn D (Option (f.Val D)) := Call.loadPers (layout D) f k
abbrev set (f : ReserveDataKey) (k : f.Key D) (v : f.Val D) : Fn D Unit := Call.storePers (layout D) f k v

/-! ## Ids -/

/-- The byte that stands for a type in the id of an asset. -/
def AssetType.code : AssetType → UInt8
  | usdCash => 1
  | treasuryBills => 2
  | bankDeposits => 3
  | cryptocurrency => 4
  | other => 5

/-- `compute_asset_id`: the first byte of the address, and the type. -/
def computeAssetId (H : Host D) (custodyAddress : Address) (assetType : AssetType) : D :=
  H.sha256 (custodyAddress.strkey.take 1 ++ [assetType.code])

/-- A buffer of 32 bytes, into which an address is copied if it fits. -/
def addressBuffer (a : Address) : Bytes :=
  if a.strkey.length ≤ 32 then a.strkey ++ List.replicate (32 - a.strkey.length) 0
  else List.replicate 32 0

/-- `compute_attestation_id` -/
def computeAttestationId (H : Host D) (attestor : Address) (assetId : D) : D :=
  H.sha256 (addressBuffer attestor ++ H.toArray assetId)

/-- `compute_report_id` -/
def computeReportId (H : Host D) (periodStart periodEnd : ℕ) : D :=
  H.sha256 (u64ToBytes periodStart ++ u64ToBytes periodEnd)

/-- `compute_redemption_id` -/
def computeRedemptionId (H : Host D) (requester : Address) (nonce : ℕ) : D :=
  H.sha256 (addressBuffer requester ++ u64ToBytes nonce)

/-- `compute_entry_id` -/
def computeEntryId (H : Host D) (entityId : D) (nonce : ℕ) : D :=
  H.sha256 (H.toArray entityId ++ u64ToBytes nonce)

/-! ## Functions -/

/-- `u128::saturating_add` -/
def saturatingAdd (a b : ℕ) : ℕ := min (a + b) (2 ^ 128 - 1)

/-- `register_asset` -/
def registerAsset (H : Host D) (assetType : AssetType) (quantity : ℕ) (custodyAddress : Address)
    (proofHash : D) : Fn D D := do
  let assetId := computeAssetId H custodyAddress assetType
  onSome (← get .asset assetId) (fun _ => return assetId) do
    let now := (← getEnv).timestamp
    set .asset assetId {
      assetId, assetType, quantity, custodyAddress
      verifiedAt := now
      verifiedBy := custodyAddress
      proofHash }
    set .assetList () ((← get .assetList ()).getD [] ++ [assetId])
    set .assetCount () (← addChecked 32 ((← get .assetCount ()).getD 0) 1)
    set .totalAttestedReserve () (saturatingAdd ((← get .totalAttestedReserve ()).getD 0) quantity)
    let entryId := computeEntryId H assetId now
    set .auditEntry entryId {
      entryId
      eventType := "asset_verified"
      entityId := assetId
      actor := custodyAddress
      timestamp := now
      notes := [] }
    return assetId

/-- `update_asset`.  The quantity is compared with that of the asset twice; the second time the asset
    has been updated already. -/
def updateAsset (assetId : D) (quantity : ℕ) (proofHash : D) : Fn D Unit := do
  let asset ← unwrapOr (← get .asset assetId) .assetNotFound
  let diff := if quantity > asset.quantity then quantity - asset.quantity else asset.quantity - quantity
  let verifiedAt := (← getEnv).timestamp
  let asset := { asset with quantity, verifiedAt, proofHash }
  set .asset assetId asset
  let total := (← get .totalAttestedReserve ()).getD 0
  let newTotal := if quantity > asset.quantity then saturatingAdd total diff else total - diff
  set .totalAttestedReserve () newTotal

/-- `verify_signature` -/
def verifySignature (_signer : Address) (_data : Attestation D) (_signature : Bytes) : Bool := true

/-- `record_attestation` -/
def recordAttestation (H : Host D) (attestor : Address) (assetId : D) (quantity : ℕ) (signature : Bytes)
    (publicKey : D) (expiresAt : ℕ) : Fn D D := do
  let _ ← unwrapOr (← get .asset assetId) .assetNotFound
  let attestationId := computeAttestationId H attestor assetId
  let attestation : Attestation D := {
    attestationId, attestor, assetId
    attestedQuantity := quantity
    timestamp := (← getEnv).timestamp
    signature, publicKey, expiresAt }
  rejectIf (verifySignature attestor attestation signature = false) .invalidAttestation
  set .attestation attestationId attestation
  set .attestationList () ((← get .attestationList ()).getD [] ++ [attestationId])
  set .attestationCount () (← addChecked 32 ((← get .attestationCount ()).getD 0) 1)
  return attestationId

/-- `get_attestation` -/
def getAttestation (attestationId : D) : Fn D (Attestation D) := do
  unwrapOr (← get .attestation attestationId) .invalidAttestation

/-- `generate_report` -/
def generateReport (H : Host D) (periodStart periodEnd : ℕ) (assetBreakdownHash attestationsHash
    merkleRoot : D) : Fn D D := do
  let now := (← getEnv).timestamp
  let totalReserve := (← get .totalAttestedReserve ()).getD 0
  let assetCount := (← get .assetCount ()).getD 0
  let reportId := computeReportId H periodStart periodEnd
  set .report reportId {
    reportId
    createdAt := now
    periodStart, periodEnd, totalReserve, assetCount, assetBreakdownHash, attestationsHash, merkleRoot }
  set .reportList () ((← get .reportList ()).getD [] ++ [reportId])
  set .reportCount () (← addChecked 32 ((← get .reportCount ()).getD 0) 1)
  set .lastReportTime () now
  return reportId

/-- `request_redemption` -/
def requestRedemption (H : Host D) (invoker : Address) (quantity : ℕ) (assetId : D) : Fn D D := do
  let asset ← unwrapOr (← get .asset assetId) .assetNotFound
  rejectIf (asset.quantity < quantity) .insufficientReserve
  let now := (← getEnv).timestamp
  let redemptionId := computeRedemptionId H invoker now
  set .redemption redemptionId {
    redemptionId
    requester := invoker
    quantity
    status := 0
    requestedAt := now
    executedAt := 0
    assetId }
  set .redemptionList () ((← get .redemptionList ()).getD [] ++ [redemptionId])
  set .redemptionCount () (← addChecked 32 ((← get .redemptionCount ()).getD 0) 1)
  return redemptionId

/-- `execute_redemption` -/
def executeRedemption (redemptionId : D) : Fn D Unit := do
  let redemption ← unwrapOr (← get .redemption redemptionId) .unauthorizedRedemption
  rejectIf (redemption.status ≠ 0) .unauthorizedRedemption
  let asset ← unwrapOr (← get .asset redemption.assetId) .assetNotFound
  doIf (asset.quantity < redemption.quantity) do
    set .redemption redemptionId { redemption with status := 3 }
    trap (.contract .insufficientReserve)
  set .asset redemption.assetId { asset with quantity := asset.quantity - redemption.quantity }
  let executedAt := (← getEnv).timestamp
  set .redemption redemptionId { redemption with status := 2, executedAt }
  let total := (← get .totalAttestedReserve ()).getD 0
  set .totalAttestedReserve () (total - redemption.quantity)

/-- `get_redemption` -/
def getRedemption (redemptionId : D) : Fn D (RedemptionRequest D) := do
  unwrapOr (← get .redemption redemptionId) .unauthorizedRedemption

/-! ## Operations -/

inductive Op (D : Type) where
  | registerAsset (assetType : AssetType) (quantity : ℕ) (custodyAddress : Address) (proofHash : D)
  | updateAsset (assetId : D) (quantity : ℕ) (proofHash : D)
  | recordAttestation (attestor : Address) (assetId : D) (quantity : ℕ) (signature : Bytes)
      (publicKey : D) (expiresAt : ℕ)
  | generateReport (periodStart periodEnd : ℕ) (assetBreakdownHash attestationsHash merkleRoot : D)
  | requestRedemption (invoker : Address) (quantity : ℕ) (assetId : D)
  | executeRedemption (redemptionId : D)
  deriving DecidableEq

/-- Runs an operation; most return an id. -/
def exec (H : Host D) : Op D → Fn D (Option D)
  | .registerAsset t n a h => return some (← registerAsset H t n a h)
  | .updateAsset i n h => do updateAsset i n h; return none
  | .recordAttestation a i n g k e => return some (← recordAttestation H a i n g k e)
  | .generateReport a b c d e => return some (← generateReport H a b c d e)
  | .requestRedemption a n i => return some (← requestRedemption H a n i)
  | .executeRedemption i => do executeRedemption i; return none

/-! ## Effects -/

/-- What the contract keeps: the records, and what it states of the assets. -/
structure View (D : Type) where
  assets : D → Option (AssetVerification D)
  attestations : D → Option (Attestation D)
  redemptions : D → Option (RedemptionRequest D)
  list : List D
  count : ℕ
  total : ℕ

def view (s : State D) : View D where
  assets := s.persistent .asset
  attestations := s.persistent .attestation
  redemptions := s.persistent .redemption
  list := (s.persistent .assetList ()).getD []
  count := (s.persistent .assetCount ()).getD 0
  total := (s.persistent .totalAttestedReserve ()).getD 0

section
variable {s : State D} {i : D}

theorem view_putAsset {x : AssetVerification D} : view (s.putPers .asset i x) =
    { view s with assets := Function.update (view s).assets i (some x) } := by
  simp [view]

theorem view_putAttestation {x : Attestation D} : view (s.putPers .attestation i x) =
    { view s with attestations := Function.update (view s).attestations i (some x) } := by
  simp [view]

theorem view_putRedemption {x : RedemptionRequest D} : view (s.putPers .redemption i x) =
    { view s with redemptions := Function.update (view s).redemptions i (some x) } := by
  simp [view]

theorem view_putAssetList {l : List D} :
    view (s.putPers .assetList () l) = { view s with list := l } := by
  simp [view]

theorem view_putAssetCount {n : ℕ} :
    view (s.putPers .assetCount () n) = { view s with count := n } := by
  simp [view]

theorem view_putTotal {n : ℕ} :
    view (s.putPers .totalAttestedReserve () n) = { view s with total := n } := by
  simp [view]

/-- The other entries are not part of the view. -/
theorem view_putOther {f : ReserveDataKey} {k : f.Key D} {v : f.Val D}
    (hf : f ∉ [.asset, .attestation, .redemption, .assetList, .assetCount, .totalAttestedReserve]) :
    view (s.putPers f k v) = view s := by
  have hne : ∀ g ∈ [ReserveDataKey.asset, .attestation, .redemption, .assetList, .assetCount,
      .totalAttestedReserve], (s.putPers f k v).persistent g = s.persistent g := by
    intro g hg
    rw [Ledger.putPers_persistent]
    exact Store.set_ne _ _ _ (by rintro rfl; exact hf hg)
  simp only [view, hne _ (by decide : ReserveDataKey.asset ∈ _),
    hne _ (by decide : ReserveDataKey.attestation ∈ _), hne _ (by decide : ReserveDataKey.redemption ∈ _),
    hne _ (by decide : ReserveDataKey.assetList ∈ _), hne _ (by decide : ReserveDataKey.assetCount ∈ _),
    hne _ (by decide : ReserveDataKey.totalAttestedReserve ∈ _)]

end

/-- What a call that succeeds does to the view. -/
inductive Effect (H : Host D) (v : View D) : Env × Op D → View D → Prop
  | known {env t n a h x} : v.assets (computeAssetId H a t) = some x →
      Effect H v (env, .registerAsset t n a h) v
  | register {env t n a h} : v.assets (computeAssetId H a t) = none →
      Effect H v (env, .registerAsset t n a h) { v with
        assets := Function.update v.assets (computeAssetId H a t)
          (some ⟨computeAssetId H a t, t, n, a, env.timestamp, a, h⟩)
        list := v.list ++ [computeAssetId H a t]
        count := v.count + 1
        total := saturatingAdd v.total n }
  | update {env i n h x} : v.assets i = some x →
      Effect H v (env, .updateAsset i n h) { v with
        assets := Function.update v.assets i
          (some { x with quantity := n, verifiedAt := env.timestamp, proofHash := h })
        total := v.total - if n > x.quantity then n - x.quantity else x.quantity - n }
  | attest {env a i n g k e} : Effect H v (env, .recordAttestation a i n g k e) { v with
        attestations := Function.update v.attestations (computeAttestationId H a i)
          (some ⟨computeAttestationId H a i, a, i, n, env.timestamp, g, k, e⟩) }
  | report {env a b c d e} : Effect H v (env, .generateReport a b c d e) v
  | request {env a n i} : Effect H v (env, .requestRedemption a n i) { v with
        redemptions := Function.update v.redemptions (computeRedemptionId H a env.timestamp)
          (some ⟨computeRedemptionId H a env.timestamp, a, n, 0, env.timestamp, 0, i⟩) }
  | execute {env i x y} : v.redemptions i = some x → x.status = 0 → v.assets x.assetId = some y →
      x.quantity ≤ y.quantity → Effect H v (env, .executeRedemption i) { v with
        assets := Function.update v.assets x.assetId (some { y with quantity := y.quantity - x.quantity })
        redemptions := Function.update v.redemptions i
          (some { x with status := 2, executedAt := env.timestamp })
        total := v.total - x.quantity }

/-- **Every call has its effect.** -/
theorem effect_of_step {H : Host D} {s s' : State D} {c : Env × Op D} (hs : Steps (exec H) s c s') :
    Effect H (view s) c (view s') := by
  obtain ⟨env, op⟩ := c
  obtain ⟨r, hs⟩ := hs
  refine Post.of_run (m := exec H op) (Q := fun _ s' => Effect H (view s) (env, op) (view s')) ?_ hs
  cases op with
  | registerAsset t n a h =>
    simp only [exec, registerAsset, post_bind, post_loadPers, post_onSome, post_pure, post_getEnv,
      post_storePers, post_addChecked]
    refine ⟨fun x hx => .known hx, fun hnone _ => ?_⟩
    rw [view_putOther (by decide), view_putTotal, view_putAssetCount, view_putAssetList, view_putAsset]
    exact .register hnone
  | updateAsset i n h =>
    simp only [exec, updateAsset, post_bind, post_loadPers, post_unwrapOr, post_pure, post_getEnv,
      post_storePers]
    intro x hx
    rw [view_putTotal, view_putAsset, if_neg (lt_irrefl n)]
    exact .update hx
  | recordAttestation a i n g k e =>
    simp only [exec, recordAttestation, post_bind, post_loadPers, post_unwrapOr, post_pure, post_getEnv,
      post_storePers, post_rejectIf, post_addChecked]
    intro _ _ _ _
    rw [view_putOther (by decide), view_putOther (by decide), view_putAttestation]
    exact .attest
  | generateReport a b c d e =>
    simp only [exec, generateReport, post_bind, post_loadPers, post_pure, post_getEnv, post_storePers,
      post_addChecked]
    intro _
    rw [view_putOther (by decide), view_putOther (by decide), view_putOther (by decide),
      view_putOther (by decide)]
    exact .report
  | requestRedemption a n i =>
    simp only [exec, requestRedemption, post_bind, post_loadPers, post_unwrapOr, post_pure, post_getEnv,
      post_storePers, post_rejectIf, post_addChecked]
    intro _ _ _ _
    rw [view_putOther (by decide), view_putOther (by decide), view_putRedemption]
    exact .request
  | executeRedemption i =>
    simp only [exec, executeRedemption, post_bind, post_loadPers, post_unwrapOr, post_pure, post_getEnv,
      post_storePers, post_rejectIf, post_doIf, post_trap, not_not, not_lt]
    intro x hx hstatus y hy
    refine ⟨fun _ => trivial, fun hle => ?_⟩
    rw [view_putTotal, view_putRedemption, view_putAsset]
    exact .execute hx hstatus hy hle

end StablecoinReserves
