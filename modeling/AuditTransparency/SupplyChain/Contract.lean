/-
  SupplyChain — products and what is known of their origin (`src/supply_chain.rs`).

  A product lists the ids of a provenance record, of certifications and of reports, and
  `verify_product_chain` goes through the lists.  All entries are persistent.  `BytesN<32>` is the type `D` of
  digests; an error is the text that the function panics with.

  The timeline, the report of a brand, the QR code and the integrity proof are not part of this model.
-/
import AuditTransparency.Soroban.Script
import AuditTransparency.Soroban.Decimal

namespace SupplyChain

open Soroban
open Soroban.Call

/-! ## Data -/

structure Location where
  name : Bytes
  country : Symbol
  coordinates : Bytes
  facilityId : Bytes
  deriving DecidableEq

structure CustodyTransfer where
  fromAddress : Address
  toAddress : Address
  timestamp : ℕ
  location : Location
  transferNotes : Bytes
  deriving DecidableEq

structure Provenance where
  originLocation : Location
  timestamp : ℕ
  rawMaterialSource : Bytes
  producerAddress : Address
  batchId : Bytes
  chainOfCustody : List CustodyTransfer
  isVerified : Bool
  deriving DecidableEq

structure AuditEntry where
  timestamp : ℕ
  auditor : Address
  status : Symbol
  notes : Bytes
  deriving DecidableEq

structure Certification (D : Type) where
  certId : Bytes
  certType : Symbol
  issuer : Address
  issuedDate : ℕ
  expiryDate : ℕ
  scope : Bytes
  isActive : Bool
  verificationHash : D
  auditTrail : List AuditEntry
  deriving DecidableEq

structure LaborConditions (D : Type) where
  facilityId : Bytes
  reportDate : ℕ
  reporter : Address
  workerCount : ℕ
  wageCompliance : Bool
  workingHoursCompliance : Bool
  childLaborFree : Bool
  safetyStandardsMet : Bool
  freedomOfAssociation : Bool
  reportHash : D
  certifications : List Bytes
  deriving DecidableEq

structure EnvironmentalImpact (D : Type) where
  facilityId : Bytes
  reportPeriod : ℕ × ℕ
  carbonFootprint : ℕ
  waterUsage : ℕ
  wasteGenerated : ℕ
  renewableEnergyPercent : ℕ
  emissionsReductionPercent : ℕ
  certifications : List Bytes
  reportHash : D
  deriving DecidableEq

structure Brand where
  brandId : Symbol
  name : Bytes
  owner : Address
  verified : Bool
  description : Bytes
  website : Bytes
  supportContact : Bytes
  deriving DecidableEq

structure ProductSku (D : Type) where
  sku : Bytes
  brandId : Symbol
  productName : Bytes
  description : Bytes
  provenanceId : D
  certifications : List D
  laborReports : List D
  environmentalReports : List D
  createdDate : ℕ
  lastUpdated : ℕ
  deriving DecidableEq

structure SupplyChainVerification where
  productSku : Bytes
  isVerified : Bool
  provenanceVerified : Bool
  certificationsValid : Bool
  laborCompliant : Bool
  environmentalStandardsMet : Bool
  verificationTimestamp : ℕ
  verificationScore : ℕ
  issues : List Bytes
  deriving DecidableEq

/-- What the contract uses of the host. -/
structure Host (D : Type) where
  /-- `env.crypto().sha256` -/
  sha256 : Bytes → D
  /-- `BytesN::from_array(&[0; 32])` -/
  zeros : D

/-! ## Storage keys -/

/-- The constructors that the functions use. -/
inductive SupplyChainDataKey where
  | brand
  | productSku
  | provenanceEvent
  | certificationEvent
  | laborReport
  | environmentalReport
  | brandCount
  | productCount
  deriving DecidableEq

@[reducible] def SupplyChainDataKey.Key (D : Type) : SupplyChainDataKey → Type
  | brand => Symbol
  | productSku => Symbol × Bytes
  | provenanceEvent | certificationEvent | laborReport | environmentalReport => D
  | brandCount | productCount => Unit

@[reducible] def SupplyChainDataKey.Val (D : Type) : SupplyChainDataKey → Type
  | brand => Brand
  | productSku => ProductSku D
  | provenanceEvent => Provenance
  | certificationEvent => Certification D
  | laborReport => LaborConditions D
  | environmentalReport => EnvironmentalImpact D
  | brandCount | productCount => ℕ

instance SupplyChainDataKey.decEqKey {D : Type} [DecidableEq D] :
    (f : SupplyChainDataKey) → DecidableEq (f.Key D)
  | brand => inferInstanceAs (DecidableEq String)
  | productSku => inferInstanceAs (DecidableEq (String × List UInt8))
  | provenanceEvent | certificationEvent | laborReport | environmentalReport => inferInstanceAs (DecidableEq D)
  | brandCount | productCount => inferInstanceAs (DecidableEq Unit)

abbrev layout (D : Type) [DecidableEq D] : Layout where
  Field := SupplyChainDataKey
  Key := SupplyChainDataKey.Key D
  Val := SupplyChainDataKey.Val D
  Note := Empty

variable {D : Type} [DecidableEq D]

abbrev State (D : Type) [DecidableEq D] := Ledger (layout D)

abbrev Fn (D : Type) [DecidableEq D] : Type → Type := Call String (layout D)

/-- `env.storage().persistent()` -/
abbrev get (f : SupplyChainDataKey) (k : f.Key D) : Fn D (Option (f.Val D)) := Call.loadPers (layout D) f k
abbrev set (f : SupplyChainDataKey) (k : f.Key D) (v : f.Val D) : Fn D Unit := Call.storePers (layout D) f k v

/-- `env.ledger().timestamp()` -/
def timestamp : Fn D ℕ := do return (← getEnv).timestamp

/-! ## Records -/

/-- `register_brand` -/
def registerBrand (owner : Address) (brandId : Symbol) (name description website supportContact : Bytes) :
    Fn D Unit := do
  requireAuth owner
  set .brand brandId ⟨brandId, name, owner, false, description, website, supportContact⟩
  let count := (← get .brandCount ()).getD 0
  set .brandCount () (← addChecked 32 count 1)

/-- `register_product_sku` -/
def registerProductSku (H : Host D) (brandId : Symbol) (sku productName description : Bytes) : Fn D Unit := do
  let _ ← unwrapOr (← get .brand brandId) "Brand not registered"
  let now ← timestamp
  set .productSku (brandId, sku) ⟨sku, brandId, productName, description, H.zeros, [], [], [], now, now⟩
  let count := (← get .productCount ()).getD 0
  set .productCount () (← addChecked 32 count 1)

/-- `log_provenance_event` -/
def logProvenanceEvent (eventId : D) (originLocation : Location) (rawMaterialSource : Bytes)
    (producer : Address) (batchId : Bytes) : Fn D Unit := do
  requireAuth producer
  set .provenanceEvent eventId ⟨originLocation, ← timestamp, rawMaterialSource, producer, batchId, [], false⟩

/-- `log_custody_transfer` -/
def logCustodyTransfer (eventId : D) (sender receiver : Address) (location : Location) (notes : Bytes) :
    Fn D Unit := do
  requireAuth sender
  let provenance ← unwrapOr (← get .provenanceEvent eventId) "Provenance event not found"
  let transfer : CustodyTransfer := ⟨sender, receiver, ← timestamp, location, notes⟩
  set .provenanceEvent eventId { provenance with chainOfCustody := provenance.chainOfCustody ++ [transfer] }

/-- `log_certification` -/
def logCertification (H : Host D) (certId : Bytes) (certType : Symbol) (issuer : Address) (expiryDays : ℕ)
    (scope : Bytes) : Fn D Unit := do
  requireAuth issuer
  let now ← timestamp
  let expiryDate ← addChecked 64 now (← mulChecked 64 expiryDays 86400)
  set .certificationEvent (H.sha256 certId)
    ⟨certId, certType, issuer, now, expiryDate, scope, true, H.zeros, []⟩

/-- `log_labor_conditions` -/
def logLaborConditions (H : Host D) (facilityId : Bytes) (workerCount : ℕ)
    (wageCompliant hoursCompliant childLaborFree safetyMet freedomOfAssociation : Bool) (reportHash : D)
    (reporter : Address) : Fn D Unit := do
  requireAuth reporter
  set .laborReport (H.sha256 facilityId) ⟨facilityId, ← timestamp, reporter, workerCount, wageCompliant,
    hoursCompliant, childLaborFree, safetyMet, freedomOfAssociation, reportHash, []⟩

/-- `log_environmental_impact` -/
def logEnvironmentalImpact (H : Host D) (facilityId : Bytes) (reportPeriodStart reportPeriodEnd carbonFootprint
    waterUsage wasteGenerated renewableEnergyPercent emissionsReduction : ℕ) (reportHash : D)
    (reporter : Address) : Fn D Unit := do
  requireAuth reporter
  set .environmentalReport (H.sha256 facilityId) ⟨facilityId, (reportPeriodStart, reportPeriodEnd),
    carbonFootprint, waterUsage, wasteGenerated, renewableEnergyPercent, emissionsReduction, [], reportHash⟩

/-! ## Verification -/

/-- The test of `verify_product_chain` for one certification. -/
def Certification.lapsed (cert : Certification D) (now : ℕ) : Bool :=
  !cert.isActive || decide (cert.expiryDate < now)

def LaborConditions.compliant (labor : LaborConditions D) : Bool :=
  labor.wageCompliance && labor.workingHoursCompliance && labor.childLaborFree && labor.safetyStandardsMet

/-- The loop over the certifications: whether all are valid, and the issues. -/
def checkCertification (acc : Bool × List Bytes) (certId : D) : Fn D (Bool × List Bytes) := do
  onSome (← get .certificationEvent certId)
    (fun cert => do
      let now ← timestamp
      return if cert.lapsed now then (false, acc.2 ++ [ascii "Certification expired"]) else acc)
    (pure acc)

/-- The loop over the labor reports: whether all are compliant, the score and the issues. -/
def checkLabor (acc : Bool × ℕ × List Bytes) (laborId : D) : Fn D (Bool × ℕ × List Bytes) := do
  onSome (← get .laborReport laborId)
    (fun labor => do
      if labor.compliant then
        let score ← addChecked 32 acc.2.1 25
        return (acc.1, score, acc.2.2)
      else return (false, acc.2.1, acc.2.2 ++ [ascii "Labor conditions not met"]))
    (pure acc)

/-- The loop over the environmental reports: the score. -/
def checkEnvironmental (score : ℕ) (envId : D) : Fn D ℕ := do
  onSome (← get .environmentalReport envId) (fun _ => addChecked 32 score 25) (pure score)

/-- 25 points when the condition holds. -/
def award (c : Bool) (score : ℕ) : Fn D ℕ := if c then addChecked 32 score 25 else pure score

/-- The record of a product, unless its id is zero. -/
def provenanceOf (H : Host D) (product : ProductSku D) : Fn D (Option Provenance) :=
  if product.provenanceId = H.zeros then pure none else get .provenanceEvent product.provenanceId

/-- `verify_product_chain` -/
def verifyProductChain (H : Host D) (brandId : Symbol) (sku : Bytes) : Fn D SupplyChainVerification := do
  let product ← unwrapOr (← get .productSku (brandId, sku)) "Product SKU not found"
  let provenance ← provenanceOf H product
  let provenanceVerified := (provenance.map Provenance.isVerified).getD false
  let score ← award provenanceVerified 0
  let (allValid, issues) ← product.certifications.foldlM checkCertification (true, [])
  let certificationsValid := !product.certifications.isEmpty && allValid
  let score ← award certificationsValid score
  let (laborCompliant, score, issues) ← product.laborReports.foldlM checkLabor (true, score, issues)
  let score ← product.environmentalReports.foldlM checkEnvironmental score
  let environmentalStandardsMet := true
  let isVerified := provenanceVerified && certificationsValid && laborCompliant && environmentalStandardsMet
  return {
    productSku := sku
    isVerified, provenanceVerified, certificationsValid, laborCompliant, environmentalStandardsMet
    verificationTimestamp := ← timestamp
    verificationScore := if isVerified then 100 else score
    issues }

/-- `verify_certification` -/
def verifyCertification (H : Host D) (certId : Bytes) : Fn D Bool := do
  onSome (← get .certificationEvent (H.sha256 certId))
    (fun cert => do return cert.isActive && decide ((← timestamp) < cert.expiryDate)) (pure false)

end SupplyChain
