/-
  CarbonCredits — the registry of carbon credits (`src/carbon_credits.rs`).

  Everything is kept in the persistent store.  An entry whose time to live has
  ended makes a call fail until it is restored, so it is not part of the model.
  `BytesN<32>` is the type `D` of digests.

  `Op` has one constructor for every modelled function that can write; the audit and
  the registry functions that write neither credits nor totals are left out.
-/
import AuditTransparency.Soroban.Decimal
import AuditTransparency.Soroban.Script
import AuditTransparency.Soroban.Writes

namespace CarbonCredits

open Soroban
open Soroban.Call hiding loadPers storePers

/-! ## Data -/

inductive CreditStatus where
  | issued
  | active
  | retired
  | disputed
  | expired
  deriving DecidableEq

inductive RenewableEnergyType where
  | solar
  | wind
  | hydro
  | geothermal
  | biomass
  | tidalWave
  | oceanThermal
  deriving DecidableEq

inductive ComplianceStandard where
  | vcs
  | gold
  | cdm
  | car
  | ace
  | custom
  deriving DecidableEq

structure RenewableEnergySource where
  sourceType : RenewableEnergyType
  facilityId : Bytes
  location : Bytes
  capacityMw : ℕ
  energyGeneratedMwh : ℕ
  verificationDate : ℕ
  certifications : List Bytes
  deriving DecidableEq

structure Offset where
  offsetType : Symbol
  projectId : Bytes
  tonnesCo2e : ℕ
  projectLocation : Bytes
  verificationBody : Address
  verificationDate : ℕ
  expirationDate : ℕ
  deriving DecidableEq

structure Tokenization (D : Type) where
  tokenId : D
  totalTokens : ℕ
  tokensRetired : ℕ
  tokenOwner : Address
  marketValue : ℕ
  tradeable : Bool
  deriving DecidableEq

structure RegistryEntry where
  registryId : Bytes
  registryName : Bytes
  registryUrl : Bytes
  issuanceDate : ℕ
  verifiedBy : Address
  complianceStandard : ComplianceStandard
  deriving DecidableEq

structure VerificationRecord (D : Type) where
  verificationId : D
  auditor : Address
  auditDate : ℕ
  verifiedAmount : ℕ
  issuesFound : List Bytes
  approved : Bool
  auditNotes : Bytes
  deriving DecidableEq

structure CarbonCredit (D : Type) where
  creditId : D
  issuer : Address
  carbonTonnes : ℕ
  renewableSource : RenewableEnergySource
  offset : Offset
  status : CreditStatus
  creationDate : ℕ
  retirementDate : Option ℕ
  tokenization : Option (Tokenization D)
  registry : RegistryEntry
  verificationRecords : List (VerificationRecord D)
  version : ℕ
  deriving DecidableEq

/-! ## Storage keys -/

inductive CarbonCreditKey where
  | carbonCredit
  | issuerCredits
  | holderCredits
  | tokenToCreditMapping
  | registryEntry
  | creditCounter
  | retiredCount
  | totalCo2eRetired
  deriving DecidableEq

/-- The argument of a key. -/
@[reducible] def CarbonCreditKey.Key (D : Type) : CarbonCreditKey → Type
  | carbonCredit | tokenToCreditMapping => D
  | issuerCredits | holderCredits => Address
  | registryEntry => Bytes
  | creditCounter | retiredCount | totalCo2eRetired => Unit

/-- The value stored under a key; the registry keeps a copy of the credit. -/
@[reducible] def CarbonCreditKey.Val (D : Type) : CarbonCreditKey → Type
  | carbonCredit | registryEntry => CarbonCredit D
  | issuerCredits | holderCredits => List D
  | tokenToCreditMapping => D
  | creditCounter | retiredCount | totalCo2eRetired => ℕ

instance CarbonCreditKey.decEqKey {D : Type} [DecidableEq D] :
    (f : CarbonCreditKey) → DecidableEq (f.Key D)
  | carbonCredit | tokenToCreditMapping => inferInstanceAs (DecidableEq D)
  | issuerCredits | holderCredits => inferInstanceAs (DecidableEq Address)
  | registryEntry => inferInstanceAs (DecidableEq (List UInt8))
  | creditCounter | retiredCount | totalCo2eRetired => inferInstanceAs (DecidableEq Unit)

/-- The storage of the registry; it publishes nothing. -/
abbrev layout (D : Type) [DecidableEq D] : Layout where
  Field := CarbonCreditKey
  Key := CarbonCreditKey.Key D
  Val := CarbonCreditKey.Val D
  Note := Empty

abbrev State (D : Type) [DecidableEq D] := Ledger (layout D)

/-- `panic!("Credit not found")` -/
inductive Panic where
  | creditNotFound
  deriving DecidableEq

abbrev Fn (D : Type) [DecidableEq D] : Type → Type := Call Panic (layout D)

section
variable {D : Type} [DecidableEq D]

/-- `env.storage().persistent()` -/
abbrev get (f : CarbonCreditKey) (k : f.Key D) : Fn D (Option (f.Val D)) := Call.loadPers (layout D) f k
abbrev set (f : CarbonCreditKey) (k : f.Key D) (v : f.Val D) : Fn D Unit :=
  Call.storePers (layout D) f k v

/-! ## Functions -/

/-- The stored credit, or a panic. -/
def creditOf (creditId : D) : Fn D (CarbonCredit D) := do
  unwrapOr (← get .carbonCredit creditId) .creditNotFound

/-- `format!("{}{}{}", carbon_tonnes, issuer.to_string(), env.ledger().timestamp())` -/
def creditText (carbonTonnes : ℕ) (issuer : Address) (timestamp : ℕ) : Bytes :=
  decimal carbonTonnes ++ issuer.strkey ++ decimal timestamp

variable (sha256 : Bytes → D)

/-- `issue_carbon_credit`; the source does not use `standard`. -/
def issueCarbonCredit (issuer : Address) (carbonTonnes : ℕ) (renewableSource : RenewableEnergySource)
    (offset : Offset) (registry : RegistryEntry) (_standard : ComplianceStandard) : Fn D D := do
  requireAuth issuer
  let now := (← getEnv).timestamp
  let creditId := sha256 (creditText carbonTonnes issuer now)
  set .carbonCredit creditId {
    creditId, issuer, carbonTonnes, renewableSource, offset
    status := .issued
    creationDate := now
    retirementDate := none
    tokenization := none
    registry
    verificationRecords := []
    version := 1 }
  let issuerCredits := (← get .issuerCredits issuer).getD []
  set .issuerCredits issuer (issuerCredits ++ [creditId])
  let count := (← get .creditCounter ()).getD 0
  let count ← addChecked 32 count 1
  set .creditCounter () count
  return creditId

/-- `verify_renewable_energy` -/
def verifyRenewableEnergy (creditId : D) (verifier : Address) (energyMwh : ℕ) : Fn D Bool := do
  requireAuth verifier
  let credit ← creditOf creditId
  if credit.renewableSource.energyGeneratedMwh ≠ energyMwh then return false
  else do
    let now := (← getEnv).timestamp
    set .carbonCredit creditId { credit with
      verificationRecords := credit.verificationRecords ++ [{
        verificationId := sha256 (ascii "VERIFY")
        auditor := verifier
        auditDate := now
        verifiedAmount := credit.carbonTonnes
        issuesFound := []
        approved := true
        auditNotes := ascii "Renewable energy verified" }]
      status := .active }
    return true

/-- `tokenize_credit` -/
def tokenizeCredit (creditId : D) (tokenOwner : Address) (tokensToIssue marketValue : ℕ) : Fn D D := do
  requireAuth tokenOwner
  let credit ← creditOf creditId
  let now := (← getEnv).timestamp
  let tokenId := sha256 (ascii "TOKEN" ++ tokenOwner.strkey ++ decimal now)
  let version ← addChecked 32 credit.version 1
  set .carbonCredit creditId { credit with
    tokenization := some {
      tokenId
      totalTokens := tokensToIssue
      tokensRetired := 0
      tokenOwner, marketValue
      tradeable := true }
    version }
  set .tokenToCreditMapping tokenId creditId
  return tokenId

/-- `retire_credit`; the source does not use `retire_reason`. -/
def retireCredit (creditId : D) (_retireReason : Bytes) : Fn D Bool := do
  let credit ← creditOf creditId
  if credit.status = .retired then return false
  else do
    let now := (← getEnv).timestamp
    set .carbonCredit creditId { credit with status := .retired, retirementDate := some now }
    let retired := (← get .retiredCount ()).getD 0
    let retired ← addChecked 32 retired 1
    set .retiredCount () retired
    let totalCo2e := (← get .totalCo2eRetired ()).getD 0
    let totalCo2e ← addChecked 32 totalCo2e credit.carbonTonnes
    set .totalCo2eRetired () totalCo2e
    return true

/-- `check_retirement_status` -/
def checkRetirementStatus (creditId : D) : Fn D Bool := do
  return (← creditOf creditId).status = .retired

/-- `transfer_credit` -/
def transferCredit (creditId : D) (sender recipient : Address) : Fn D Bool := do
  requireAuth sender
  let credit ← creditOf creditId
  if credit.status = .retired then return false
  else do
    set .carbonCredit creditId
      { credit with tokenization := credit.tokenization.map fun t => { t with tokenOwner := recipient } }
    let credits := (← get .holderCredits recipient).getD []
    set .holderCredits recipient (credits ++ [creditId])
    return true

/-- `register_credit` -/
def registerCredit (creditId : D) (registryId : Bytes) : Fn D Bool := do
  let credit ← creditOf creditId
  let now := (← getEnv).timestamp
  let credit := { credit with
    registry := { credit.registry with registryId, issuanceDate := now } }
  set .carbonCredit creditId credit
  set .registryEntry registryId credit
  return true

/-- `link_to_standard` -/
def linkToStandard (creditId : D) (standard : ComplianceStandard) : Fn D Bool := do
  let credit ← creditOf creditId
  set .carbonCredit creditId
    { credit with registry := { credit.registry with complianceStandard := standard } }
  return true

/-- `get_total_retired_co2e` -/
def getTotalRetiredCo2e : Fn D ℕ := do return (← get .totalCo2eRetired ()).getD 0

/-- `get_total_credits_issued` -/
def getTotalCreditsIssued : Fn D ℕ := do return (← get .creditCounter ()).getD 0

/-! ## Operations -/

/-- The modelled functions that can write. -/
inductive Op (D : Type) where
  | issueCarbonCredit (issuer : Address) (carbonTonnes : ℕ) (renewableSource : RenewableEnergySource)
      (offset : Offset) (registry : RegistryEntry) (standard : ComplianceStandard)
  | verifyRenewableEnergy (creditId : D) (verifier : Address) (energyMwh : ℕ)
  | tokenizeCredit (creditId : D) (tokenOwner : Address) (tokensToIssue marketValue : ℕ)
  | transferCredit (creditId : D) (sender recipient : Address)
  | retireCredit (creditId : D) (retireReason : Bytes)
  | registerCredit (creditId : D) (registryId : Bytes)
  | linkToStandard (creditId : D) (standard : ComplianceStandard)
  deriving DecidableEq

/-- What a function returns. -/
inductive Ret (D : Type) where
  | id (d : D)
  | bool (b : Bool)
  deriving DecidableEq

/-- Runs an operation. -/
def exec : Op D → Fn D (Ret D)
  | .issueCarbonCredit a n e o g k => return .id (← issueCarbonCredit sha256 a n e o g k)
  | .verifyRenewableEnergy d a n => return .bool (← verifyRenewableEnergy sha256 d a n)
  | .tokenizeCredit d a n v => return .id (← tokenizeCredit sha256 d a n v)
  | .transferCredit d a b => return .bool (← transferCredit d a b)
  | .retireCredit d m => return .bool (← retireCredit d m)
  | .registerCredit d m => return .bool (← registerCredit d m)
  | .linkToStandard d k => return .bool (← linkToStandard d k)

end

end CarbonCredits
