/-
  AuditLedger — who may call, and the settings a call reads.

  * initialisation, ownership and roles;
  * the `effective_*` settings with their defaults;
  * the admission gate (pause flag, blocklist, allowlist) of the single-event
    path, and the metadata checks of both paths.

  Every function here only reads.  Its `post_` lemma says what it lets pass, in
  terms of the predicate or the value named before it.
-/
import AuditTransparency.Ledger.Hashing
import AuditTransparency.Soroban.Writes

namespace AuditLedger

open Soroban
open Soroban.Call hiding hasPers publish

variable {D : Type} [DecidableEq D] {α : Type} {env : Env} {s : State D}

/-! ## Initialisation, owners and roles -/

/-- `require_initialized` -/
def requireInitialized : Fn D Unit := do
  let owner ← get .owner ()
  let config ← get .config ()
  rejectIf (owner.isNone ∨ config.isNone) .contractNotInitialized

/-- `rbac_enabled` -/
def rbacEnabled : Fn D Bool := do
  return (← get .rbacEnabled ()).getD false

/-- `get_role_of` -/
def getRoleOf (addr : Address) : Fn D (Option Role) := get .role addr

/-- `require_role_min` -/
def requireRoleMin (addr : Address) (min : Role) : Fn D Unit := do
  let enabled ← rbacEnabled
  doIf enabled do
    let granted ← getRoleOf addr
    rejectIf ((granted.getD .viewer).rank < min.rank) .roleNotGranted

/-- `get_owners` -/
def getOwners : Fn D (List Address) := do
  return (← get .owners ()).getD []

/-- `get_required_signatures` -/
def getRequiredSignatures : Fn D ℕ := do
  return (← get .requiredSignatures ()).getD 1

/-- `is_addr_owner` -/
def isAddrOwner (addr : Address) : Fn D Bool := do
  let owners ← getOwners
  let owner ← get .owner ()
  return addr ∈ owners ∨ owner = some addr

/-- `require_owner` -/
def requireOwner (addr : Address) : Fn D Unit := do
  let owner ← unwrap (← get .owner ())
  rejectIf (addr ≠ owner) .callerNotOwner

/-- `require_owner_or_multisig` -/
def requireOwnerOrMultisig (addr : Address) : Fn D Unit := do
  let enabled ← rbacEnabled
  if enabled then
    requireRoleMin addr .admin
  else do
    let isOwner ← isAddrOwner addr
    rejectIf (¬isOwner) .callerNotOwner

/-- The three checks every owner operation starts with. -/
def requireCaller (caller : Address) : Fn D Unit := do
  requireInitialized
  requireAuth caller
  requireOwnerOrMultisig caller

/-! ## Settings -/

def defaultMaxMetadataSize : ℕ := 1024

/-- `MAX_TIMESTAMP_DRIFT_SECONDS` -/
def maxTimestampDriftSeconds : ℕ := 3600

/-- `effective_low_cost_mode` -/
def effectiveLowCostMode : Fn D Bool := do
  return (← get .lowCostMode ()).getD false

/-- `effective_metadata_max_size`: the bound of the type, else the global one. -/
def effectiveMetadataMaxSize (eventType : Symbol) : Fn D ℕ := do
  let perType ← get .eventMetadataMaxSize eventType
  let global ← get .globalMetadataMaxSize ()
  return (perType.or global).getD defaultMaxMetadataSize

/-- `effective_event_emission_mode` -/
def effectiveEventEmissionMode : Fn D ℕ := do
  return (← get .eventEmissionConfig ()).getD 1

/-- `effective_dedup_policy`: the policy of the type, else the global one. -/
def effectiveDedupPolicy (eventType : Symbol) : Fn D DedupPolicy := do
  let perType ← get .dedupPolicyConfigForType eventType
  let global ← get .dedupPolicyConfig ()
  return (perType.or global).getD .contentHash

/-- `pending_custom_key` -/
def pendingCustomKey : Fn D (Option D) := getTemp .pendingCustomDedupKey ()

/-- `current_contract_version` -/
def currentContractVersion : Fn D ℕ := do
  return (← get .contractVersion ()).getD 1

/-- `default_nonce_window_size` -/
def defaultNonceWindowSize : Fn D ℕ := do
  return (← get .defaultNonceWindowSize ()).getD 1000

/-- `default_nonce_max_value` -/
def defaultNonceMaxValue (H : Host D) : Fn D ℕ := do
  return H.defaultNonceMaxValue (← get .defaultNonceMaxValue ())

/-- `total_events` -/
def totalEvents : Fn D ℕ := do
  requireInitialized
  let rs ← get .runtimeState ()
  let cfg ← get .config ()
  return match rs with
    | some rs => rs.totalEvents
    | none => (cfg.map (·.totalEvents)).getD 0

/-- `event_type_count`: the length of the packed index, in words. -/
def eventTypeCount (eventType : Symbol) : Fn D ℕ := do
  let packed := (← get .eventTypeIndices eventType).getD []
  return packed.length / 4

/-- `submitter_count` -/
def submitterCount (submitter : Address) : Fn D ℕ := do
  return (← get .submitterEventCount submitter).getD 0

/-! ## Checks -/

/-- `validate_event_type` accepts every symbol. -/
def validateEventType (_eventType : Symbol) : Fn D Unit := pure ()

/-- `validate_metadata_schema`: the first four bytes of the schema are the
    least length of the metadata. -/
def validateMetadataSchema (metadata : Bytes) : Bytes → Bool
  | b0 :: b1 :: b2 :: b3 :: _ => word b0 b1 b2 b3 ≤ metadata.length
  | _ => true

/-- `validate_metadata_against_schema` -/
def validateMetadataAgainstSchema (eventType : Symbol) (metadata : Bytes) : Fn D Unit := do
  let schema ← get .metadataSchema eventType
  ifSome schema fun schema =>
    rejectIf (¬validateMetadataSchema metadata schema) .metadataSchemaViolation

/-- The size and schema checks on new metadata. -/
def checkMetadata (eventType : Symbol) (metadata : Bytes) : Fn D Unit := do
  let maxMeta ← effectiveMetadataMaxSize eventType
  rejectIf (metadata.length > maxMeta) .metadataTooLarge
  validateMetadataAgainstSchema eventType metadata

/-- The pause, blocklist and allowlist checks of `log_event_with_hierarchy`. -/
def checkAdmission (submitter : Address) : Fn D Unit := do
  let paused ← get .paused ()
  rejectIf (paused = some true) .contractPaused
  let blocked ← get .submitterBlocklist submitter
  rejectIf (blocked = some true) .submitterBlocked
  let allowlist ← get .allowlistMode ()
  doIf (allowlist = some true) do
    let allowed ← get .submitterAllowlist submitter
    rejectIf (allowed = some false) .submitterBlocked
    rejectIf (allowed = none) .submitterBlocked

/-! ## Reading -/

section

instance : Reads (requireInitialized : Fn D _) := by
  unfold requireInitialized; infer_instance
instance : Reads (rbacEnabled : Fn D _) := by
  unfold rbacEnabled; infer_instance
instance (addr : Address) : Reads (getRoleOf addr : Fn D _) := by
  unfold getRoleOf; infer_instance
instance (addr : Address) (min : Role) : Reads (requireRoleMin addr min : Fn D _) := by
  unfold requireRoleMin; infer_instance
instance : Reads (getOwners : Fn D _) := by
  unfold getOwners; infer_instance
instance : Reads (getRequiredSignatures : Fn D _) := by
  unfold getRequiredSignatures; infer_instance
instance (addr : Address) : Reads (isAddrOwner addr : Fn D _) := by
  unfold isAddrOwner; infer_instance
instance (addr : Address) : Reads (requireOwner addr : Fn D _) := by
  unfold requireOwner; infer_instance
instance (addr : Address) : Reads (requireOwnerOrMultisig addr : Fn D _) := by
  unfold requireOwnerOrMultisig; infer_instance
instance (caller : Address) : Reads (requireCaller caller : Fn D _) := by
  unfold requireCaller; infer_instance
instance : Reads (effectiveLowCostMode : Fn D _) := by
  unfold effectiveLowCostMode; infer_instance
instance (eventType : Symbol) : Reads (effectiveMetadataMaxSize eventType : Fn D _) := by
  unfold effectiveMetadataMaxSize; infer_instance
instance : Reads (effectiveEventEmissionMode : Fn D _) := by
  unfold effectiveEventEmissionMode; infer_instance
instance (eventType : Symbol) : Reads (effectiveDedupPolicy eventType : Fn D _) := by
  unfold effectiveDedupPolicy; infer_instance
instance : Reads (pendingCustomKey : Fn D _) := by
  unfold pendingCustomKey; infer_instance
instance : Reads (currentContractVersion : Fn D _) := by
  unfold currentContractVersion; infer_instance
instance : Reads (defaultNonceWindowSize : Fn D _) := by
  unfold defaultNonceWindowSize; infer_instance
instance (H : Host D) : Reads (defaultNonceMaxValue H : Fn D _) := by
  unfold defaultNonceMaxValue; infer_instance
instance : Reads (totalEvents : Fn D _) := by
  unfold totalEvents; infer_instance
instance (eventType : Symbol) : Reads (eventTypeCount eventType : Fn D _) := by
  unfold eventTypeCount; infer_instance
instance (submitter : Address) : Reads (submitterCount submitter : Fn D _) := by
  unfold submitterCount; infer_instance
instance (eventType : Symbol) : Reads (validateEventType eventType : Fn D _) := by
  unfold validateEventType; infer_instance
instance (eventType : Symbol) (metadata : Bytes) :
    Reads (validateMetadataAgainstSchema eventType metadata : Fn D _) := by
  unfold validateMetadataAgainstSchema; infer_instance
instance (eventType : Symbol) (metadata : Bytes) : Reads (checkMetadata eventType metadata : Fn D _) := by
  unfold checkMetadata; infer_instance
instance (submitter : Address) : Reads (checkAdmission submitter : Fn D _) := by
  unfold checkAdmission; infer_instance

end

/-! ## What the checks let pass -/

section
variable {R : Unit → State D → Prop}

/-- The submitter is turned away by the pause flag, the blocklist or the
    allowlist. -/
def Gated (s : State D) (submitter : Address) : Prop :=
  s.inst .paused () = some true ∨ s.inst .submitterBlocklist submitter = some true ∨
    (s.inst .allowlistMode () = some true ∧ s.inst .submitterAllowlist submitter ≠ some true)

theorem post_checkAdmission {submitter : Address} :
    Post (checkAdmission submitter) R env s ↔ (¬Gated s submitter → R () s) := by
  simp only [checkAdmission, post_bind, post_load, post_rejectIf, post_doIf, Gated]
  rcases s.inst .submitterAllowlist submitter with _ | _ | _ <;> simp

end

end AuditLedger
