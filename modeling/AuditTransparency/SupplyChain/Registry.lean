/-
  SupplyChain — what the functions that record leave behind.

  A product is registered with no references, and no function adds one; a provenance record is
  written as not verified, and no function verifies it.

  * `entryAfter`: the entry under one key after a call, in terms of the entry before it;
  * `entry_of_step`: this is what every call that succeeds leaves under every key;
  * `entry_of_run`: so an entry is what the calls of a run make of it, one after the other;
  * `run_traced`: the verdicts, the chains of custody, the certifications and the counters after
    any run of such calls.
-/
import AuditTransparency.SupplyChain.Verdicts

namespace SupplyChain

open Soroban
open Soroban.Call

/-- The calls that write. -/
inductive Op (D : Type) where
  | registerBrand (owner : Address) (brandId : Symbol) (name description website supportContact : Bytes)
  | registerProductSku (brandId : Symbol) (sku productName description : Bytes)
  | logProvenanceEvent (eventId : D) (originLocation : Location) (rawMaterialSource : Bytes) (producer : Address)
      (batchId : Bytes)
  | logCustodyTransfer (eventId : D) (sender receiver : Address) (location : Location) (notes : Bytes)
  | logCertification (certId : Bytes) (certType : Symbol) (issuer : Address) (expiryDays : ℕ) (scope : Bytes)
  | logLaborConditions (facilityId : Bytes) (workerCount : ℕ)
      (wageCompliant hoursCompliant childLaborFree safetyMet freedomOfAssociation : Bool) (reportHash : D)
      (reporter : Address)
  | logEnvironmentalImpact (facilityId : Bytes) (reportPeriodStart reportPeriodEnd carbonFootprint waterUsage
      wasteGenerated renewableEnergyPercent emissionsReduction : ℕ) (reportHash : D) (reporter : Address)

variable {D : Type} [DecidableEq D] {H : Host D}

def exec (H : Host D) : Op D → Fn D Unit
  | .registerBrand owner brandId name description website supportContact =>
    registerBrand owner brandId name description website supportContact
  | .registerProductSku brandId sku productName description =>
    registerProductSku H brandId sku productName description
  | .logProvenanceEvent eventId originLocation rawMaterialSource producer batchId =>
    logProvenanceEvent eventId originLocation rawMaterialSource producer batchId
  | .logCustodyTransfer eventId sender receiver location notes =>
    logCustodyTransfer eventId sender receiver location notes
  | .logCertification certId certType issuer expiryDays scope =>
    logCertification H certId certType issuer expiryDays scope
  | .logLaborConditions facilityId workerCount wageCompliant hoursCompliant childLaborFree safetyMet
      freedomOfAssociation reportHash reporter =>
    logLaborConditions H facilityId workerCount wageCompliant hoursCompliant childLaborFree safetyMet
      freedomOfAssociation reportHash reporter
  | .logEnvironmentalImpact facilityId reportPeriodStart reportPeriodEnd carbonFootprint waterUsage wasteGenerated
      renewableEnergyPercent emissionsReduction reportHash reporter =>
    logEnvironmentalImpact H facilityId reportPeriodStart reportPeriodEnd carbonFootprint waterUsage wasteGenerated
      renewableEnergyPercent emissionsReduction reportHash reporter

/-! ## One call -/

/-- A product without references. -/
def unreferenced (H : Host D) (now : ℕ) (brandId : Symbol) (sku productName description : Bytes) :
    ProductSku D :=
  ⟨sku, brandId, productName, description, H.zeros, [], [], [], now, now⟩

/-- The transfer that a call logs for an event. -/
def transferOf (eventId : D) : Env × Op D → Option CustodyTransfer
  | (env, .logCustodyTransfer eventId' sender receiver location notes) =>
    if eventId' = eventId then some ⟨sender, receiver, env.timestamp, location, notes⟩ else none
  | _ => none

/-- The expiry date of the certification that a call logs under a hash. -/
def expiryOf (H : Host D) (hash : D) : Env × Op D → Option ℕ
  | (env, .logCertification certId _ _ expiryDays _) =>
    if H.sha256 certId = hash then some (env.timestamp + expiryDays * 86400) else none
  | _ => none

/-- The expiry date of the last certification under a hash. -/
def lastExpiry (H : Host D) (hash : D) (tr : List (State D × (Env × Op D))) : Option ℕ :=
  (tr.filterMap (expiryOf H hash ·.2)).getLast?

/-- The brand that a call registers. -/
def Op.brand : Op D → Option Symbol
  | registerBrand _ brandId _ _ _ _ => some brandId
  | _ => none

/-- The product that a call registers. -/
def Op.product : Op D → Option (Symbol × Bytes)
  | registerProductSku brandId sku _ _ => some (brandId, sku)
  | _ => none

/-- The event of origin that a call logs. -/
def Op.origin : Op D → Option D
  | logProvenanceEvent eventId _ _ _ _ => some eventId
  | _ => none

/-- **The entry under a key after a call.** -/
def entryAfter (H : Host D) (c : Env × Op D) :
    (f : SupplyChainDataKey) → (k : f.Key D) → Option (f.Val D) → Option (f.Val D)
  | .brand, k, o => match c.2 with
    | .registerBrand owner brandId name description website supportContact =>
      if k = brandId then some ⟨brandId, name, owner, false, description, website, supportContact⟩ else o
    | _ => o
  | .productSku, k, o => match c.2 with
    | .registerProductSku brandId sku productName description =>
      if k = (brandId, sku) then some (unreferenced H c.1.timestamp brandId sku productName description) else o
    | _ => o
  | .provenanceEvent, k, o => match c.2 with
    | .logProvenanceEvent eventId originLocation rawMaterialSource producer batchId =>
      if k = eventId then
        some ⟨originLocation, c.1.timestamp, rawMaterialSource, producer, batchId, [], false⟩
      else o
    | _ => o.map fun provenance =>
      { provenance with chainOfCustody := provenance.chainOfCustody ++ (transferOf k c).toList }
  | .certificationEvent, k, o => match c.2 with
    | .logCertification certId certType issuer expiryDays scope =>
      if k = H.sha256 certId then
        some ⟨certId, certType, issuer, c.1.timestamp, c.1.timestamp + expiryDays * 86400, scope, true,
          H.zeros, []⟩
      else o
    | _ => o
  | .laborReport, k, o => match c.2 with
    | .logLaborConditions facilityId workerCount wageCompliant hoursCompliant childLaborFree safetyMet
        freedomOfAssociation reportHash reporter =>
      if k = H.sha256 facilityId then
        some ⟨facilityId, c.1.timestamp, reporter, workerCount, wageCompliant, hoursCompliant, childLaborFree,
          safetyMet, freedomOfAssociation, reportHash, []⟩
      else o
    | _ => o
  | .environmentalReport, k, o => match c.2 with
    | .logEnvironmentalImpact facilityId reportPeriodStart reportPeriodEnd carbonFootprint waterUsage
        wasteGenerated renewableEnergyPercent emissionsReduction reportHash _ =>
      if k = H.sha256 facilityId then
        some ⟨facilityId, (reportPeriodStart, reportPeriodEnd), carbonFootprint, waterUsage, wasteGenerated,
          renewableEnergyPercent, emissionsReduction, [], reportHash⟩
      else o
    | _ => o
  | .brandCount, _, o => if c.2.brand.isSome then some (o.getD 0 + 1) else o
  | .productCount, _, o => if c.2.product.isSome then some (o.getD 0 + 1) else o

variable {s₀ s s' : State D} {tr : List (State D × (Env × Op D))} {env : Env}

/-- **What a call that succeeds leaves**, under every key. -/
theorem entry_of_step {c : Env × Op D} (h : Steps (exec H) s c s') (f : SupplyChainDataKey) (k : f.Key D) :
    s'.persistent f k = entryAfter H c f k (s.persistent f k) := by
  obtain ⟨r, hr⟩ := h
  obtain ⟨env, op⟩ := c
  refine Post.of_run (Q := fun _ s' => s'.persistent f k = entryAfter H (env, op) f k (s.persistent f k)) ?_ hr
  cases op with
  | registerBrand owner brandId name description website supportContact =>
    simp only [exec, registerBrand, post_bind, post_requireAuth, post_storePers, post_loadPers, post_addChecked]
    intro _ _
    cases f <;> simp [entryAfter, Function.update_apply, transferOf, Op.brand, Op.product]
  | registerProductSku brandId sku productName description =>
    simp only [exec, registerProductSku, timestamp, post_bind, post_unwrapOr, post_getEnv, post_pure,
      post_storePers, post_loadPers, post_addChecked]
    intro _ _ _
    cases f <;> simp [entryAfter, Function.update_apply, transferOf, Op.brand, Op.product, unreferenced]
  | logProvenanceEvent eventId originLocation rawMaterialSource producer batchId =>
    simp only [exec, logProvenanceEvent, timestamp, post_bind, post_requireAuth, post_getEnv, post_pure,
      post_storePers]
    intro _
    cases f <;> simp [entryAfter, Function.update_apply, Op.brand, Op.product]
  | logCustodyTransfer eventId sender receiver location notes =>
    simp only [exec, logCustodyTransfer, timestamp, post_bind, post_requireAuth, post_unwrapOr, post_loadPers,
      post_getEnv, post_pure, post_storePers]
    intro _ provenance hprovenance
    cases f with
    | provenanceEvent =>
      simp only [Ledger.putPers_persistent, Store.set_same, entryAfter, transferOf, Function.update_apply]
      by_cases hk : k = eventId
      · subst hk
        simp [hprovenance]
      · simp [hk, Ne.symm hk]
    | _ => simp [entryAfter, Op.brand, Op.product]
  | logCertification certId certType issuer expiryDays scope =>
    simp only [exec, logCertification, timestamp, post_bind, post_requireAuth, post_getEnv, post_pure,
      post_mulChecked, post_addChecked, post_storePers]
    intro _ _ _
    cases f <;> simp [entryAfter, Function.update_apply, transferOf, Op.brand, Op.product]
  | logLaborConditions facilityId workerCount wageCompliant hoursCompliant childLaborFree safetyMet
      freedomOfAssociation reportHash reporter =>
    simp only [exec, logLaborConditions, timestamp, post_bind, post_requireAuth, post_getEnv, post_pure,
      post_storePers]
    intro _
    cases f <;> simp [entryAfter, Function.update_apply, transferOf, Op.brand, Op.product]
  | logEnvironmentalImpact facilityId reportPeriodStart reportPeriodEnd carbonFootprint waterUsage wasteGenerated
      renewableEnergyPercent emissionsReduction reportHash reporter =>
    simp only [exec, logEnvironmentalImpact, post_bind, post_requireAuth, post_storePers]
    intro _
    cases f <;> simp [entryAfter, Function.update_apply, transferOf, Op.brand, Op.product]

/-- **An entry after a run** is what the calls make of it, one after the other. -/
theorem entry_of_run (h : Run (Steps (exec H)) s₀ tr s) (f : SupplyChainDataKey) (k : f.Key D) :
    s.persistent f k = tr.foldl (fun o p => entryAfter H p.2 f k o) (s₀.persistent f k) := by
  induction h with
  | init => rfl
  | @snoc tr s s' c h hs ih =>
    rw [entry_of_step hs, ih, List.foldl_append]
    rfl

/-! ## Products -/

/-- A product without references. -/
structure Unreferenced (H : Host D) (product : ProductSku D) : Prop where
  provenance : product.provenanceId = H.zeros
  certifications : product.certifications = []
  laborReports : product.laborReports = []
  environmentalReports : product.environmentalReports = []

/-- The verdict on such a product. -/
def unverified (sku : Bytes) (now : ℕ) : SupplyChainVerification where
  productSku := sku
  isVerified := false
  provenanceVerified := false
  certificationsValid := false
  laborCompliant := true
  environmentalStandardsMet := true
  verificationTimestamp := now
  verificationScore := 0
  issues := []

theorem Unreferenced.verdict {product : ProductSku D} (h : Unreferenced H product) {brandId : Symbol} {sku : Bytes}
    (hproduct : s.persistent .productSku (brandId, sku) = some product) (env : Env) :
    (verifyProductChain H brandId sku).run env s = .ok (unverified sku env.timestamp, s) := by
  have hprovenance : provenanceVerified H s product = false := if_pos h.provenance
  have hcertifications : certificationsValid s env.timestamp product = false := by
    rw [certificationsValid, h.certifications]
    rfl
  have hcredits : credits H s env.timestamp product = 0 := by
    rw [credits, hprovenance, hcertifications, h.laborReports, h.environmentalReports]
    rfl
  have hlabor : laborCompliant s product = true := by
    rw [laborCompliant, h.laborReports]
    rfl
  have hfails : Passes H s env.timestamp product = false := by
    rw [Passes, hprovenance]
    rfl
  rw [run_verifyProductChain hproduct, hcredits, if_pos (by decide)]
  simp only [SupplyChain.verdict, unverified, hprovenance, hcertifications, hlabor, hfails, hcredits,
    h.certifications, h.laborReports]
  rfl

theorem productSku_of_eq {c : Env × Op D} {k : Symbol × Bytes} (h : c.2.product = some k)
    (o : Option (ProductSku D)) :
    ∃ product, entryAfter H c .productSku k o = some product ∧ Unreferenced H product := by
  obtain ⟨env, op⟩ := c
  cases op with
  | registerProductSku brandId sku productName description =>
    obtain rfl := Option.some.inj h
    exact ⟨_, if_pos rfl, rfl, rfl, rfl, rfl⟩
  | _ => cases h

theorem productSku_of_ne {c : Env × Op D} {k : Symbol × Bytes} (h : c.2.product ≠ some k)
    (o : Option (ProductSku D)) : entryAfter H c .productSku k o = o := by
  obtain ⟨env, op⟩ := c
  cases op with
  | registerProductSku brandId sku productName description => exact if_neg fun e => h (congrArg some e.symm)
  | _ => rfl

/-- What is stored of a registered product has no references. -/
theorem product_of_run (h : Run (Steps (exec H)) s₀ tr s) {k : Symbol × Bytes}
    (hk : ∃ p ∈ tr, p.2.2.product = some k) :
    ∃ product, s.persistent .productSku k = some product ∧ Unreferenced H product := by
  induction h with
  | init => simp at hk
  | @snoc tr s s' c h hs ih =>
    rw [entry_of_step hs]
    by_cases hc : c.2.product = some k
    · exact productSku_of_eq hc _
    · rw [productSku_of_ne hc]
      obtain ⟨p, hp, hpk⟩ := hk
      rcases List.mem_append.1 hp with hp | hp
      · exact ih ⟨p, hp, hpk⟩
      · obtain rfl := List.mem_singleton.1 hp
        exact absurd hpk hc

theorem unregistered_of_run (h : Run (Steps (exec H)) s₀ tr s) {k : Symbol × Bytes}
    (h₀ : s₀.persistent .productSku k = none) (hno : ∀ p ∈ tr, p.2.2.product ≠ some k) :
    s.persistent .productSku k = none := by
  refine h.invariant (C := fun _ c => c.2.product ≠ some k)
    (I := fun s => s.persistent .productSku k = none) h₀ ?_ hno
  intro s c s' hc hs hnone
  rw [entry_of_step hs, productSku_of_ne hc, hnone]

/-! ## Brands -/

theorem brand_of_ne {c : Env × Op D} {brandId : Symbol} (h : c.2.brand ≠ some brandId) (o : Option Brand) :
    entryAfter H c .brand brandId o = o := by
  obtain ⟨env, op⟩ := c
  cases op with
  | registerBrand owner brandId' name description website supportContact =>
    exact if_neg fun e => h (congrArg some (Eq.symm e))
  | _ => rfl

/-- A brand that is stored was registered. -/
theorem brand_of_run (h : Run (Steps (exec H)) s₀ tr s) {brandId : Symbol}
    (h₀ : s₀.persistent .brand brandId = none) (hs : s.persistent .brand brandId ≠ none) :
    ∃ p ∈ tr, p.2.2.brand = some brandId := by
  by_contra! hno
  refine hs (h.invariant (C := fun _ c => c.2.brand ≠ some brandId)
    (I := fun s => s.persistent .brand brandId = none) h₀ ?_ hno)
  intro s c s' hc hstep hnone
  rw [entry_of_step hstep, brand_of_ne hc, hnone]

/-- The brand of a product is stored when the product is registered. -/
theorem brand_of_step {c : Env × Op D} (h : Steps (exec H) s c s') {k : Symbol × Bytes}
    (hk : c.2.product = some k) : s.persistent .brand k.1 ≠ none := by
  obtain ⟨r, hr⟩ := h
  obtain ⟨env, op⟩ := c
  cases op with
  | registerProductSku brandId sku productName description =>
    obtain rfl := Option.some.inj hk
    refine Post.of_run (m := registerProductSku H brandId sku productName description)
      (Q := fun _ _ => s.persistent .brand brandId ≠ none) ?_ hr
    simp only [registerProductSku, timestamp, post_bind, post_unwrapOr, post_getEnv, post_pure,
      post_storePers, post_loadPers, post_addChecked]
    intro brand hbrand _
    exact hbrand ▸ Option.some_ne_none brand
  | _ => cases hk

/-! ## Custody -/

theorem provenanceEvent_of_eq {c : Env × Op D} {eventId : D} (h : c.2.origin = some eventId)
    (o : Option Provenance) :
    ∃ record, entryAfter H c .provenanceEvent eventId o = some record ∧ record.timestamp = c.1.timestamp ∧
      record.isVerified = false ∧ record.chainOfCustody = [] := by
  obtain ⟨env, op⟩ := c
  cases op with
  | logProvenanceEvent eventId originLocation rawMaterialSource producer batchId =>
    obtain rfl := Option.some.inj h
    exact ⟨_, if_pos rfl, rfl, rfl, rfl⟩
  | _ => cases h

theorem provenanceEvent_of_ne {c : Env × Op D} {eventId : D} (h : c.2.origin ≠ some eventId)
    (o : Option Provenance) :
    entryAfter H c .provenanceEvent eventId o = o.map fun provenance =>
      { provenance with chainOfCustody := provenance.chainOfCustody ++ (transferOf eventId c).toList } := by
  obtain ⟨env, op⟩ := c
  cases op with
  | logProvenanceEvent eventId' originLocation rawMaterialSource producer batchId =>
    refine (if_neg fun e => h (congrArg some (Eq.symm e))).trans ?_
    cases o <;> simp [transferOf]
  | _ => rfl

/-- The transfers of a run are added to the record that is there. -/
theorem custody_of_run (h : Run (Steps (exec H)) s₀ tr s) {eventId : D} {record : Provenance}
    (h₀ : s₀.persistent .provenanceEvent eventId = some record)
    (hno : ∀ p ∈ tr, p.2.2.origin ≠ some eventId) :
    s.persistent .provenanceEvent eventId = some { record with
      chainOfCustody := record.chainOfCustody ++ tr.filterMap (transferOf eventId ·.2) } := by
  induction h with
  | init => rw [h₀, List.filterMap_nil, List.append_nil]
  | @snoc tr s s' c h hs ih =>
    rw [List.forall_mem_append, List.forall_mem_singleton] at hno
    rw [entry_of_step hs, provenanceEvent_of_ne hno.2, ih hno.1, filterMap_concat, Option.map_some,
      List.append_assoc]

theorem untraced_of_run (h : Run (Steps (exec H)) s₀ tr s) {eventId : D}
    (h₀ : s₀.persistent .provenanceEvent eventId = none) (hno : ∀ p ∈ tr, p.2.2.origin ≠ some eventId) :
    s.persistent .provenanceEvent eventId = none := by
  refine h.invariant (C := fun _ c => c.2.origin ≠ some eventId)
    (I := fun s => s.persistent .provenanceEvent eventId = none) h₀ ?_ hno
  intro s c s' hc hs hnone
  rw [entry_of_step hs, provenanceEvent_of_ne hc, hnone, Option.map_none]

/-- **The chain of custody** is that of the transfers since the last event of origin. -/
theorem custody_of_origin (h : Run (Steps (exec H)) s₀ tr s) {eventId : D}
    {before after : List (State D × (Env × Op D))} {p : State D × (Env × Op D)}
    (htr : tr = before ++ p :: after) (hp : p.2.2.origin = some eventId)
    (hno : ∀ q ∈ after, q.2.2.origin ≠ some eventId) :
    ∃ record, s.persistent .provenanceEvent eventId = some record ∧ record.timestamp = p.2.1.timestamp ∧
      record.isVerified = false ∧ record.chainOfCustody = after.filterMap (transferOf eventId ·.2) := by
  subst htr
  obtain ⟨s₁, c⟩ := p
  obtain ⟨s₂, -, hs, hafter⟩ := h.split
  obtain ⟨record, hrecord, htime, hverified, hchain⟩ :=
    provenanceEvent_of_eq (H := H) hp (s₁.persistent .provenanceEvent eventId)
  have hstored := custody_of_run hafter ((entry_of_step hs .provenanceEvent eventId).trans hrecord) hno
  refine ⟨_, hstored, htime, hverified, ?_⟩
  show record.chainOfCustody ++ _ = _
  rw [hchain, List.nil_append]

/-! ## Certifications -/

theorem certificationEvent_after (c : Env × Op D) (hash : D) (o : Option (Certification D))
    (ho : ∀ cert ∈ o, cert.isActive = true) :
    ((entryAfter H c .certificationEvent hash o).map (·.expiryDate) =
      (expiryOf H hash c).or (o.map (·.expiryDate))) ∧
    ∀ cert ∈ entryAfter H c .certificationEvent hash o, cert.isActive = true := by
  obtain ⟨env, op⟩ := c
  cases op with
  | logCertification certId certType issuer expiryDays scope =>
    by_cases hhash : hash = H.sha256 certId
    · subst hhash
      simp [entryAfter, expiryOf]
    · simp only [entryAfter, expiryOf, if_neg hhash, if_neg (Ne.symm hhash), Option.none_or]
      exact ⟨trivial, ho⟩
  | _ => exact ⟨(Option.none_or ..).symm, ho⟩

/-- The expiry date under a hash is that of the last certification, and all certifications are active. -/
theorem certification_of_run (h : Run (Steps (exec H)) s₀ tr s) {hash : D}
    (h₀ : s₀.persistent .certificationEvent hash = none) :
    (s.persistent .certificationEvent hash).map (·.expiryDate) = lastExpiry H hash tr ∧
    ∀ cert ∈ s.persistent .certificationEvent hash, cert.isActive = true := by
  induction h with
  | init =>
    rw [h₀]
    exact ⟨rfl, nofun⟩
  | @snoc tr s s' c h hs ih =>
    obtain ⟨hexpiry, hactive⟩ := certificationEvent_after (H := H) c hash _ ih.2
    rw [entry_of_step hs]
    refine ⟨?_, hactive⟩
    rw [hexpiry, ih.1, lastExpiry, lastExpiry, filterMap_concat, List.getLast?_append]
    cases expiryOf H hash c <;> rfl

/-! ## Counters -/

/-- A counter that some of the calls increase. -/
theorem count_of_run (h : Run (Steps (exec H)) s₀ tr s) (counts : Op D → Bool) (counter : State D → Option ℕ)
    (h₀ : counter s₀ = none) (hstep : ∀ s c s', Steps (exec H) s c s' →
      counter s' = if counts c.2 then some ((counter s).getD 0 + 1) else counter s) :
    (counter s).getD 0 = tr.countP (counts ·.2.2) := by
  induction h with
  | init =>
    rw [h₀]
    rfl
  | @snoc tr s s' c h hs ih =>
    rw [hstep s c s' hs, List.countP_append, ← ih]
    cases hc : counts c.2 <;> simp [hc]

/-! ## Runs -/

/-- Nothing is stored. -/
def Blank (s : State D) : Prop := ∀ f k, s.persistent f k = none

/-- **What a run of calls leaves.** -/
structure Traced (H : Host D) (tr : List (State D × (Env × Op D))) (s : State D) : Prop where
  /-- every record, those of labor and of the environment too -/
  entries : ∀ f k, s.persistent f k = tr.foldl (fun o p => entryAfter H p.2 f k o) none
  /-- a registered product is not verified, at any time -/
  verdict : ∀ env brandId sku, (∃ p ∈ tr, p.2.2.product = some (brandId, sku)) →
    (verifyProductChain H brandId sku).run env s = .ok (unverified sku env.timestamp, s)
  unknown : ∀ env brandId sku, (∀ p ∈ tr, p.2.2.product ≠ some (brandId, sku)) →
    (verifyProductChain H brandId sku).run env s = .error (.contract "Product SKU not found")
  /-- the brand of a product is registered before it -/
  branded : ∀ before p after, tr = before ++ p :: after → ∀ k ∈ p.2.2.product,
    ∃ q ∈ before, q.2.2.brand = some k.1
  /-- the transfers since the last event of origin -/
  custody : ∀ eventId before p after, tr = before ++ p :: after → p.2.2.origin = some eventId →
    (∀ q ∈ after, q.2.2.origin ≠ some eventId) →
    ∃ record, s.persistent .provenanceEvent eventId = some record ∧ record.timestamp = p.2.1.timestamp ∧
      record.isVerified = false ∧ record.chainOfCustody = after.filterMap (transferOf eventId ·.2)
  untraced : ∀ eventId, (∀ p ∈ tr, p.2.2.origin ≠ some eventId) →
    s.persistent .provenanceEvent eventId = none
  /-- the last certification under the hash counts, until it expires -/
  certification : ∀ env certId, (verifyCertification H certId).run env s =
    .ok ((lastExpiry H (H.sha256 certId) tr).any fun t => decide (env.timestamp < t), s)
  /-- repeated registrations are counted again -/
  brands : (s.persistent .brandCount ()).getD 0 = tr.countP (·.2.2.brand.isSome)
  products : (s.persistent .productCount ()).getD 0 = tr.countP (·.2.2.product.isSome)

theorem run_verifyCertification_of_run (h : Run (Steps (exec H)) s₀ tr s) {certId : Bytes}
    (h₀ : s₀.persistent .certificationEvent (H.sha256 certId) = none) (env : Env) :
    (verifyCertification H certId).run env s =
      .ok ((lastExpiry H (H.sha256 certId) tr).any fun t => decide (env.timestamp < t), s) := by
  obtain ⟨hexpiry, hactive⟩ := certification_of_run h h₀
  rw [run_verifyCertification, ← hexpiry]
  cases hcert : s.persistent .certificationEvent (H.sha256 certId) with
  | none => rfl
  | some cert =>
    rw [Option.map_some, Option.any_some, Option.any_some, hactive cert hcert, Bool.true_and]

/-- **The records after any run**, from an empty storage. -/
theorem run_traced (h₀ : Blank s₀) (h : Run (Steps (exec H)) s₀ tr s) : Traced H tr s where
  entries f k := (entry_of_run h f k).trans (by rw [h₀ f k])
  verdict env brandId sku hregistered := by
    obtain ⟨product, hproduct, hbare⟩ := product_of_run h hregistered
    exact hbare.verdict hproduct env
  unknown env brandId sku hno := by
    have hnone := unregistered_of_run h (h₀ .productSku (brandId, sku)) hno
    rw [verifyProductChain, run_bind_ok env s (run_loadPers env s .productSku (brandId, sku)), hnone]
    rfl
  branded before p after htr k hk := by
    subst htr
    obtain ⟨s₁, c⟩ := p
    obtain ⟨s₂, hbefore, hs, -⟩ := h.split
    exact brand_of_run hbefore (h₀ .brand k.1) (brand_of_step hs hk)
  custody _ _ _ _ htr hp hno := custody_of_origin h htr hp hno
  untraced eventId hno := untraced_of_run h (h₀ .provenanceEvent eventId) hno
  certification env certId := run_verifyCertification_of_run h (h₀ .certificationEvent _) env
  brands := count_of_run h (·.brand.isSome) (·.persistent .brandCount ()) (h₀ _ _) fun _ _ _ hs =>
    entry_of_step hs .brandCount ()
  products := count_of_run h (·.product.isSome) (·.persistent .productCount ()) (h₀ _ _) fun _ _ _ hs =>
    entry_of_step hs .productCount ()

/-! ## A script -/

/-- A product, its origin logged twice, and a certification of a day. -/
def tracedScript : List (Env × Op Bytes) :=
  [(envAt 10, .registerBrand someAddress "ACME" [] [] [] []),
   (envAt 20, .registerProductSku "ACME" [7] [] []),
   (envAt 30, .logProvenanceEvent [1] somewhere [] someAddress []),
   (envAt 40, .logCustodyTransfer [1] someAddress someAddress somewhere [40]),
   (envAt 50, .logProvenanceEvent [1] somewhere [] someAddress []),
   (envAt 60, .logCustodyTransfer [1] someAddress someAddress somewhere [60]),
   (envAt 70, .logCertification [2] "organic" someAddress 1 [])]

/-- The product is not verified, the second event of origin has dropped a transfer, and the certification expires
after a day. -/
theorem run_traced_script : ∃ tr s, Run (Steps (exec plainHost)) Ledger.empty tr s ∧
    tr.map Prod.snd = tracedScript ∧ Traced plainHost tr s ∧
    (verifyProductChain plainHost "ACME" [7]).run (envAt 99) s = .ok (unverified [7] 99, s) ∧
    (∃ record, s.persistent .provenanceEvent [1] = some record ∧
      record.chainOfCustody = [⟨someAddress, someAddress, 60, somewhere, [60]⟩]) ∧
    (verifyCertification plainHost [2]).run (envAt 86469) s = .ok (true, s) ∧
    (verifyCertification plainHost [2]).run (envAt 86470) s = .ok (false, s) := by
  obtain ⟨s, hs⟩ : ∃ s, play (exec plainHost) Ledger.empty tracedScript = some s :=
    Option.isSome_iff_exists.1 (by decide)
  have hmap := map_snd_traceOf hs
  have htraced := run_traced (H := plainHost) (fun _ _ => rfl) (run_of_play hs)
  have hexpiry : lastExpiry plainHost (plainHost.sha256 [2])
      (traceOf (exec plainHost) Ledger.empty tracedScript) = some 86470 := by decide
  refine ⟨_, s, run_of_play hs, hmap, htraced, ?_, ?_, ?_, ?_⟩
  · refine htraced.verdict (envAt 99) "ACME" [7] ?_
    decide
  · obtain ⟨record, hrecord, -, -, hchain⟩ := htraced.custody [1]
      ((traceOf (exec plainHost) Ledger.empty tracedScript).take 4)
      ((traceOf (exec plainHost) Ledger.empty tracedScript).get ⟨4, by decide⟩)
      ((traceOf (exec plainHost) Ledger.empty tracedScript).drop 5) rfl rfl (by decide)
    exact ⟨record, hrecord, hchain⟩
  · rw [htraced.certification, hexpiry]
    rfl
  · rw [htraced.certification, hexpiry]
    rfl

end SupplyChain
