/-
  VerifiableCredentialManager — credentials for events (`bridge/relayer/vc.ts`).

  A manager issues credentials, revokes them, and makes presentations of them, which may disclose
  some attributes only.  Its signatures are digests of the message and its key.

  A call runs at one time, in milliseconds.  An object of attributes has its properties in the
  order of the language: array indices first, by size, and the other names as they were added.
  What every object inherits (`constructor`, ...) is a function or the prototype, and not written by
  `JSON.stringify`; it is left out.
-/
import AuditTransparency.Credentials.Json
import Mathlib.Algebra.Ring.Nat
import Mathlib.Data.Int.Notation
import Mathlib.Data.Rat.Init
import Mathlib.Logic.Function.Basic

namespace VerifiableCredentialManager

open Json

/-! ## The platform -/

/-- The digest in hexadecimal, and dates as texts.  `parseDate` is `new Date(text)`; the date may be invalid. -/
structure Platform where
  sha256 : Text → Text
  sha256_hex : ∀ m, ∀ c ∈ sha256 m, c ∈ "0123456789abcdef".toList
  isoString : ℤ → Text
  isoString_bar : ∀ t, '|' ∉ isoString t
  parseDate : Text → Option ℤ

/-- `xs.join(sep)` -/
def join (sep : Char) (l : List Text) : Text := [sep].intercalate l

/-- `toISOString` of a time in milliseconds, which throws for an invalid date. -/
def toISOString (P : Platform) (t : ℚ) : Option Text :=
  if -8640000000000000 ≤ t ∧ t ≤ 8640000000000000 then some (P.isoString (t.num.tdiv t.den)) else none

/-- `${n}` -/
def numeral (n : ℕ) : Text := Nat.toDigits 10 n

/-! ## Attributes -/

/-- A number, given by its text in JSON; the numbers that are not finite have the text `null`. -/
structure Number where
  text : Text
  plain : ∀ c ∈ text, c ∈ "0123456789+-.enul".toList
  deriving DecidableEq

inductive Value where
  | string (s : Text)
  | number (n : Number)
  | boolean (b : Bool)
  deriving DecidableEq

def Value.text : Value → Text
  | string s => quote s
  | number n => n.text
  | boolean true => "true".toList
  | boolean false => "false".toList

/-- The size of a name that is an array index. -/
def arrayIndex (name : Text) : Option ℕ :=
  if numeral (Nat.ofDigitChars 10 name 0) = name ∧ Nat.ofDigitChars 10 name 0 < 2 ^ 32 - 1 then
    some (Nat.ofDigitChars 10 name 0)
  else none

/-- Wherever it is added, the one property comes before the other. -/
def comesBefore (name name' : Text) : Bool :=
  match arrayIndex name, arrayIndex name' with
  | some n, some n' => decide (n < n')
  | some _, none => true
  | none, _ => false

/-- The own properties of an object, in order. -/
structure Attributes where
  entries : List (Text × Value)
  ordered : entries.Pairwise fun p q => p.1 ≠ q.1 ∧ comesBefore q.1 p.1 = false
  deriving DecidableEq

namespace Attributes

/-- A property is set, or added. -/
def insertEntry (p : Text × Value) : List (Text × Value) → List (Text × Value)
  | [] => [p]
  | q :: l => if q.1 = p.1 then p :: l else if comesBefore p.1 q.1 then p :: q :: l else q :: insertEntry p l

theorem mem_insertEntry {p r : Text × Value} {l : List (Text × Value)} (h : r ∈ insertEntry p l) :
    r = p ∨ r ∈ l := by
  induction l with
  | nil => exact Or.inl (List.mem_singleton.1 h)
  | cons q l ih =>
    rw [insertEntry] at h
    split_ifs at h
    · exact (List.mem_cons.1 h).imp_right (List.mem_cons_of_mem _)
    · exact List.mem_cons.1 h
    · rcases List.mem_cons.1 h with rfl | h
      · exact Or.inr List.mem_cons_self
      · exact (ih h).imp_right (List.mem_cons_of_mem _)

/-- What comes before a name also comes before, and is none of, the names behind it. -/
theorem comesBefore_behind {a b c : Text} (hab : comesBefore a b = true) (hcb : comesBefore c b = false) :
    a ≠ c ∧ comesBefore c a = false := by
  have hne : a ≠ c := by
    rintro rfl
    rw [hab] at hcb
    cases hcb
  refine ⟨hne, ?_⟩
  revert hab hcb
  unfold comesBefore
  cases arrayIndex a <;> cases arrayIndex b <;> cases arrayIndex c <;> simp
  omega

theorem pairwise_insertEntry {p : Text × Value} {l : List (Text × Value)}
    (h : l.Pairwise fun p q => p.1 ≠ q.1 ∧ comesBefore q.1 p.1 = false) :
    (insertEntry p l).Pairwise fun p q => p.1 ≠ q.1 ∧ comesBefore q.1 p.1 = false := by
  induction l with
  | nil => exact List.pairwise_singleton ..
  | cons q l ih =>
    obtain ⟨hq, hl⟩ := List.pairwise_cons.1 h
    rw [insertEntry]
    split_ifs with heq hbefore
    · exact List.pairwise_cons.2 ⟨fun r hr => heq ▸ hq r hr, hl⟩
    · refine List.pairwise_cons.2 ⟨fun r hr => ?_, h⟩
      rcases List.mem_cons.1 hr with rfl | hr
      · refine comesBefore_behind hbefore ?_
        cases hself : arrayIndex r.1 <;> simp [comesBefore, hself]
      · exact comesBefore_behind hbefore (hq r hr).2
    · refine List.pairwise_cons.2 ⟨fun r hr => ?_, ih hl⟩
      rcases mem_insertEntry hr with rfl | hr
      · exact ⟨heq, by simpa using hbefore⟩
      · exact hq r hr

def empty : Attributes := ⟨[], .nil⟩

/-- `o[name]`, for an own property. -/
def get (o : Attributes) (name : Text) : Option Value := (o.entries.find? fun p => p.1 == name).map Prod.snd

/-- `o[name] = v`; a prototype is not set to a string, number or boolean. -/
def set (o : Attributes) (name : Text) (v : Value) : Attributes :=
  if name = "__proto__".toList then o else ⟨insertEntry (name, v) o.entries, pairwise_insertEntry o.ordered⟩

/-- The loop of `applySelectiveDisclosure`. -/
def disclose (o : Attributes) (fields : List Text) : Attributes :=
  fields.foldl (fun filtered field =>
    match o.get field with
    | some v => filtered.set field v
    | none => filtered) empty

end Attributes

/-! ## Data -/

structure VcCredentialSubject where
  id : Text
  eventHash : Text
  eventType : Text
  attestedAt : Number
  attributes : Attributes
  deriving DecidableEq

structure VcProof where
  type : Text
  created : Text
  verificationMethod : Text
  proofPurpose : Text
  proofValue : Text
  selectiveDisclosure : Option (List Text)
  deriving DecidableEq

structure VcCredential where
  context : List Text
  id : Text
  type : List Text
  issuer : Text
  issuanceDate : Text
  expirationDate : Option Text
  credentialSubject : VcCredentialSubject
  proof : Option VcProof
  deriving DecidableEq

structure VcPresentation where
  context : List Text
  id : Text
  type : List Text
  verifiableCredential : List VcCredential
  holder : Text
  proof : Option VcProof
  deriving DecidableEq

inductive VcSchemaFieldType where
  | string
  | number
  | boolean
  | date
  deriving DecidableEq

structure VcSchemaField where
  name : Text
  type : VcSchemaFieldType
  required : Bool
  description : Text
  deriving DecidableEq

structure VcSchema where
  schemaId : Text
  name : Text
  version : Text
  fields : List VcSchemaField
  deriving DecidableEq

structure VcRevocationEntry where
  credentialId : Text
  revokedAt : ℕ
  reason : Text
  revokedBy : Text
  deriving DecidableEq

structure VcSelectiveDisclosureRequest where
  fields : List Text
  reason : Text
  requestedBy : Text
  deriving DecidableEq

/-- What the constructor sets and nothing changes. -/
structure Issuer where
  privateKey : Text
  issuerDid : Text

/-- The maps and the list of a manager. -/
structure Manager where
  issuedCredentials : Text → Option VcCredential
  presentations : Text → Option VcPresentation
  schemas : Text → Option VcSchema
  revocationList : List VcRevocationEntry

def Manager.new : Manager := ⟨fun _ => none, fun _ => none, fun _ => none, []⟩

/-! ## Signatures -/

/-- `BbsPlusSimulation.sign` -/
def sign (P : Platform) (messages : List Text) (privateKeyHex : Text) : Text :=
  P.sha256 (join '|' messages ++ privateKeyHex)

/-- `BbsPlusSimulation.verify` -/
def verify (P : Platform) (messages : List Text) (signatureHex publicKeyHex : Text) : Bool :=
  decide (P.sha256 (join '|' messages ++ publicKeyHex) = signatureHex)

/-- `JSON.stringify` of a subject. -/
def stringify (subject : VcCredentialSubject) : Text :=
  object [("id".toList, quote subject.id), ("eventHash".toList, quote subject.eventHash),
    ("eventType".toList, quote subject.eventType), ("attestedAt".toList, subject.attestedAt.text),
    ("attributes".toList, object (subject.attributes.entries.map fun p => (p.1, p.2.text)))]

/-- The messages that are signed for a credential. -/
def VcCredential.messages (credential : VcCredential) : List Text :=
  [credential.id, credential.issuer, credential.issuanceDate, stringify credential.credentialSubject]

/-- The messages that are signed for a presentation. -/
def VcPresentation.messages (presentation : VcPresentation) : List Text :=
  [presentation.id, presentation.holder, join ',' (presentation.verifiableCredential.map VcCredential.id)]

/-! ## Functions -/

section
variable (P : Platform) (K : Issuer)

def Number.ofNat (n : ℕ) : Number where
  text := numeral n
  plain := by
    intro c hc
    have hdigit : c.isDigit = true := Nat.isDigit_of_mem_toDigits (by omega) (by omega) hc
    have hchar : ∀ k < 128, (Char.ofNat k).isDigit = true →
        Char.ofNat k ∈ "0123456789+-.enul".toList := by decide
    have hlt : c.toNat < 128 := by
      simp only [Char.isDigit, Bool.and_eq_true, decide_eq_true_eq] at hdigit
      exact Nat.lt_of_le_of_lt hdigit.2 (by decide)
    have hmem := hchar c.toNat hlt
    rw [Char.ofNat_toNat] at hmem
    exact hmem hdigit

def urn (digest : Text) : Text := "urn:uuid:".toList ++ digest

/-- `registerSchema` -/
def registerSchema (s : Manager) (schema : VcSchema) : Manager :=
  { s with schemas := Function.update s.schemas schema.schemaId (some schema) }

/-- `schemaId ? this.schemas.get(schemaId)?.fields.map(f => f.name) : undefined` -/
def schemaFields (s : Manager) : Option Text → Option (List Text)
  | some schemaId => if schemaId = [] then none else (s.schemas schemaId).map fun schema =>
      schema.fields.map (·.name)
  | none => none

/-- The credential that `issueCredential` makes. -/
def newCredential (s : Manager) (now : ℕ) (subjectId eventHash eventType : Text) (attributes : Attributes)
    (expiresAt : Text) (schemaId : Option Text) : VcCredential :=
  let id := urn (P.sha256 (join ':' [subjectId, eventHash, numeral now]))
  let issuanceDate := P.isoString now
  let credential : VcCredential := {
    context := ["https://www.w3.org/2018/credentials/v1".toList]
    id
    type := ["VerifiableCredential".toList, "EventAttestation".toList]
    issuer := K.issuerDid
    issuanceDate
    expirationDate := some expiresAt
    credentialSubject := { id := subjectId, eventHash, eventType, attestedAt := .ofNat now, attributes }
    proof := none }
  let proof : VcProof := {
    type := "BbsBlsSignature2020".toList
    created := issuanceDate
    verificationMethod := K.issuerDid ++ "#keys-1".toList
    proofPurpose := "assertionMethod".toList
    proofValue := sign P credential.messages K.privateKey
    selectiveDisclosure := schemaFields s schemaId }
  { credential with proof := some proof }

/-- `issueCredential` -/
def issueCredential (s : Manager) (now : ℕ) (subjectId eventHash eventType : Text) (attributes : Attributes)
    (expirationDays : ℚ) (schemaId : Option Text) : Option (VcCredential × Manager) := do
  let expiresAt ← toISOString P (now + expirationDays * 24 * 60 * 60 * 1000)
  let credential := newCredential P K s now subjectId eventHash eventType attributes expiresAt schemaId
  return (credential,
    { s with issuedCredentials := Function.update s.issuedCredentials credential.id (some credential) })

/-- `credential.expirationDate && new Date(credential.expirationDate) < new Date()` -/
def expired (now : ℕ) (credential : VcCredential) : Bool :=
  match credential.expirationDate with
  | some text => decide (text ≠ []) && (P.parseDate text).any fun t => decide (t < (now : ℤ))
  | none => false

/-- `isRevoked` -/
def isRevoked (s : Manager) (credentialId : Text) : Bool :=
  s.revocationList.any fun entry => decide (entry.credentialId = credentialId)

/-- `verifyCredential` -/
def verifyCredential (s : Manager) (now : ℕ) (credential : VcCredential) : Bool :=
  match credential.proof with
  | none => false
  | some proof =>
    if expired P now credential then false
    else if isRevoked s credential.id then false
    else verify P credential.messages proof.proofValue K.privateKey

/-- `revokeCredential` -/
def revokeCredential (s : Manager) (now : ℕ) (credentialId reason : Text) : Bool × Manager :=
  match s.issuedCredentials credentialId with
  | none => (false, s)
  | some _ => (true, { s with revocationList :=
      s.revocationList ++ [{ credentialId, revokedAt := now, reason, revokedBy := K.issuerDid }] })

/-- `applySelectiveDisclosure` -/
def applySelectiveDisclosure (credential : VcCredential) (disclosedFields : List Text) : VcCredential :=
  { credential with
    credentialSubject := { credential.credentialSubject with
      attributes := credential.credentialSubject.attributes.disclose disclosedFields }
    proof := credential.proof.map fun proof => { proof with selectiveDisclosure := some disclosedFields } }

/-- The credentials of a presentation. -/
def disclosedCredentials (credentials : List VcCredential) :
    Option VcSelectiveDisclosureRequest → List VcCredential
  | some request => credentials.map fun credential => applySelectiveDisclosure credential request.fields
  | none => credentials

/-- `createPresentation` -/
def createPresentation (s : Manager) (now : ℕ) (credentials : List VcCredential) (holderDid : Text)
    (disclosureRequest : Option VcSelectiveDisclosureRequest) : VcPresentation × Manager :=
  let id := urn (P.sha256 (join ':' [holderDid, numeral now]))
  let presentation : VcPresentation := {
    context := ["https://www.w3.org/2018/credentials/v1".toList]
    id
    type := ["VerifiablePresentation".toList]
    verifiableCredential := disclosedCredentials credentials disclosureRequest
    holder := holderDid
    proof := none }
  let proof : VcProof := {
    type := "BbsBlsSignature2020".toList
    created := P.isoString now
    verificationMethod := K.issuerDid ++ "#keys-1".toList
    proofPurpose := "authentication".toList
    proofValue := sign P presentation.messages K.privateKey
    selectiveDisclosure := disclosureRequest.map (·.fields) }
  let presentation := { presentation with proof := some proof }
  (presentation, { s with presentations := Function.update s.presentations id (some presentation) })

/-- `verifyPresentation` -/
def verifyPresentation (presentation : VcPresentation) : Bool :=
  match presentation.proof with
  | none => false
  | some proof => verify P presentation.messages proof.proofValue K.privateKey

/-! ## Calls -/

inductive Op where
  | registerSchema (schema : VcSchema)
  | issueCredential (subjectId eventHash eventType : Text) (attributes : Attributes) (expirationDays : ℚ)
      (schemaId : Option Text)
  | revokeCredential (credentialId reason : Text)
  | createPresentation (credentials : List VcCredential) (holderDid : Text)
      (disclosureRequest : Option VcSelectiveDisclosureRequest)
  | verifyPresentation (presentation : VcPresentation)

inductive Result where
  | registered
  | issued (credential : VcCredential)
  | revoked (ok : Bool)
  | presented (presentation : VcPresentation)
  | verified (ok : Bool)

/-- What a call returns at a time, and the manager after it; `none` when it throws. -/
def exec (s : Manager) (c : ℕ × Op) : Option (Result × Manager) :=
  match c.2 with
  | .registerSchema schema => some (.registered, registerSchema s schema)
  | .issueCredential subjectId eventHash eventType attributes expirationDays schemaId =>
    (issueCredential P K s c.1 subjectId eventHash eventType attributes expirationDays schemaId).map
      fun r => (.issued r.1, r.2)
  | .revokeCredential credentialId reason =>
    some (.revoked (revokeCredential K s c.1 credentialId reason).1,
      (revokeCredential K s c.1 credentialId reason).2)
  | .createPresentation credentials holderDid request =>
    some (.presented (createPresentation P K s c.1 credentials holderDid request).1,
      (createPresentation P K s c.1 credentials holderDid request).2)
  | .verifyPresentation presentation => some (.verified (verifyPresentation P K presentation), s)

end

end VerifiableCredentialManager
