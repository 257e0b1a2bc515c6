/-
  SupplyChain — the verdict on a product.

  A reference that is not stored is passed over, and every report that counts for the product is 25 points.

  * `run_verifyProductChain`: the verdict, in terms of what is stored of the references;
  * `sound_iff`: when a verdict stands for every reference it lists.
-/
import AuditTransparency.SupplyChain.Contract
import Mathlib.Algebra.Ring.Nat
import Mathlib.Tactic.SplitIfs

namespace SupplyChain

open Soroban
open Soroban.Call

variable {D : Type} [DecidableEq D] {H : Host D} {s : State D} {env : Env}

/-! ## Loops -/

/-- A certification that is stored, and has lapsed. -/
def lapsedAt (s : State D) (now : ℕ) (certId : D) : Bool :=
  (s.persistent .certificationEvent certId).any (·.lapsed now)

def compliantAt (s : State D) (laborId : D) : Bool := (s.persistent .laborReport laborId).any (·.compliant)

/-- A labor report that is stored, and not compliant. -/
def failsAt (s : State D) (laborId : D) : Bool := (s.persistent .laborReport laborId).any (!·.compliant)

def reportedAt (s : State D) (envId : D) : Bool := (s.persistent .environmentalReport envId).isSome

theorem run_checkCertification (acc : Bool × List Bytes) (certId : D) :
    (checkCertification acc certId).run env s =
      .ok (if lapsedAt s env.timestamp certId then (false, acc.2 ++ [ascii "Certification expired"]) else acc, s) := by
  rw [checkCertification, run_bind_ok env s (run_loadPers env s .certificationEvent certId), lapsedAt]
  cases s.persistent .certificationEvent certId <;> rfl

/-- The certifications are valid when none has lapsed. -/
theorem run_certifications (certIds : List D) (acc : Bool × List Bytes) :
    (certIds.foldlM checkCertification acc).run env s =
      .ok ((acc.1 && certIds.all (!lapsedAt s env.timestamp ·),
        acc.2 ++ (certIds.filter (lapsedAt s env.timestamp)).map fun _ => ascii "Certification expired"), s) := by
  induction certIds generalizing acc with
  | nil => simp
  | cons certId certIds ih =>
    rw [List.foldlM_cons, run_bind_ok env s (run_checkCertification acc certId), ih]
    cases hlapsed : lapsedAt s env.timestamp certId <;> simp [hlapsed]

/-- An addition that overflows. -/
theorem run_overflow {a b : ℕ} (h : ¬a + b < 2 ^ 32) :
    (addChecked 32 a b : Fn D ℕ).run env s = .error .overflow := if_neg h

variable (s env) in
theorem run_checkLabor (compliant : Bool) (score : ℕ) (issues : List Bytes) (laborId : D) :
    (checkLabor (compliant, score, issues) laborId).run env s =
      if failsAt s laborId then .ok ((false, score, issues ++ [ascii "Labor conditions not met"]), s)
      else if compliantAt s laborId then
        if score + 25 < 2 ^ 32 then .ok ((compliant, score + 25, issues), s) else .error .overflow
      else .ok ((compliant, score, issues), s) := by
  rw [checkLabor, run_bind_ok env s (run_loadPers env s .laborReport laborId), failsAt, compliantAt]
  cases s.persistent .laborReport laborId with
  | none => rfl
  | some labor =>
    cases hcompliant : labor.compliant with
    | false => simp [onSome, hcompliant]
    | true =>
      simp only [onSome, hcompliant, if_true, Option.any_some, Bool.not_true]
      by_cases hfits : score + 25 < 2 ^ 32
      · rw [run_bind_ok env s (run_addChecked env s hfits), if_pos hfits]
        rfl
      · rw [run_bind_error env s (run_overflow hfits), if_neg hfits]
        rfl

theorem compliantAt_of_failsAt {laborId : D} (h : failsAt s laborId = true) : compliantAt s laborId = false := by
  rw [failsAt] at h
  rw [compliantAt]
  cases hl : s.persistent .laborReport laborId <;> simp_all

variable (s env) in
/-- The labor reports that count, and whether any of them fails. -/
theorem run_laborReports (laborIds : List D) (compliant : Bool) {score : ℕ} (issues : List Bytes)
    (hscore : score < 2 ^ 32) :
    (laborIds.foldlM checkLabor (compliant, score, issues)).run env s =
      if score + 25 * laborIds.countP (compliantAt s) < 2 ^ 32 then
        .ok ((compliant && laborIds.all (!failsAt s ·), score + 25 * laborIds.countP (compliantAt s),
          issues ++ (laborIds.filter (failsAt s)).map fun _ => ascii "Labor conditions not met"), s)
      else .error .overflow := by
  induction laborIds generalizing compliant score issues with
  | nil =>
    rw [List.countP_nil, if_pos (by omega)]
    simp
  | cons laborId laborIds ih =>
    have hstep := run_checkLabor s env compliant score issues laborId
    rw [List.foldlM_cons]
    cases hfails : failsAt s laborId with
    | true =>
      rw [hfails, if_pos rfl] at hstep
      rw [run_bind_ok env s hstep, ih _ _ hscore]
      simp [hfails, compliantAt_of_failsAt hfails]
    | false =>
      rw [hfails, if_neg nofun] at hstep
      cases hcompliant : compliantAt s laborId with
      | false =>
        rw [hcompliant, if_neg nofun] at hstep
        rw [run_bind_ok env s hstep, ih _ _ hscore]
        simp [hfails, hcompliant]
      | true =>
        rw [hcompliant, if_pos rfl] at hstep
        have hcount : (laborId :: laborIds).countP (compliantAt s) = laborIds.countP (compliantAt s) + 1 :=
          List.countP_cons_of_pos hcompliant
        have hsum : score + 25 * (laborIds.countP (compliantAt s) + 1) =
            score + 25 + 25 * laborIds.countP (compliantAt s) := by omega
        rw [hcount, hsum]
        by_cases hfits : score + 25 < 2 ^ 32
        · rw [if_pos hfits] at hstep
          rw [run_bind_ok env s hstep, ih _ _ hfits]
          simp [hfails]
        · rw [if_neg hfits] at hstep
          rw [run_bind_error env s hstep, if_neg (by omega)]

variable (s env) in
theorem run_environmentalReports (envIds : List D) {score : ℕ} (hscore : score < 2 ^ 32) :
    (envIds.foldlM checkEnvironmental score).run env s =
      if score + 25 * envIds.countP (reportedAt s) < 2 ^ 32 then
        .ok (score + 25 * envIds.countP (reportedAt s), s)
      else .error .overflow := by
  induction envIds generalizing score with
  | nil =>
    rw [List.countP_nil, if_pos (by omega)]
    rfl
  | cons envId envIds ih =>
    have hload := run_loadPers (E := String) (L := layout D) env s .environmentalReport envId
    cases hstored : s.persistent .environmentalReport envId with
    | none =>
      have hstep : (checkEnvironmental score envId).run env s = .ok (score, s) := by
        rw [checkEnvironmental, run_bind_ok env s hload, hstored]
        rfl
      rw [List.foldlM_cons, run_bind_ok env s hstep, ih hscore]
      simp [reportedAt, hstored]
    | some report =>
      have hcount : (envId :: envIds).countP (reportedAt s) = envIds.countP (reportedAt s) + 1 :=
        List.countP_cons_of_pos (by simp [reportedAt, hstored])
      have hsum : score + 25 * (envIds.countP (reportedAt s) + 1) =
          score + 25 + 25 * envIds.countP (reportedAt s) := by omega
      have hstep : (checkEnvironmental score envId).run env s = (addChecked 32 score 25 : Fn D ℕ).run env s := by
        rw [checkEnvironmental, run_bind_ok env s hload, hstored]
        rfl
      rw [List.foldlM_cons, hcount, hsum]
      by_cases hfits : score + 25 < 2 ^ 32
      · rw [run_bind_ok env s (hstep.trans (run_addChecked env s hfits)), ih hfits]
      · rw [run_bind_error env s (hstep.trans (run_overflow hfits)), if_neg (by omega)]

/-! ## The verdict -/

def provenanceVerified (H : Host D) (s : State D) (product : ProductSku D) : Bool :=
  if product.provenanceId = H.zeros then false
  else (s.persistent .provenanceEvent product.provenanceId).any Provenance.isVerified

def certificationsValid (s : State D) (now : ℕ) (product : ProductSku D) : Bool :=
  !product.certifications.isEmpty && product.certifications.all (!lapsedAt s now ·)

def laborCompliant (s : State D) (product : ProductSku D) : Bool := product.laborReports.all (!failsAt s ·)

/-- What counts for a product, each for 25 points. -/
def credits (H : Host D) (s : State D) (now : ℕ) (product : ProductSku D) : ℕ :=
  (provenanceVerified H s product).toNat + (certificationsValid s now product).toNat +
    product.laborReports.countP (compliantAt s) + product.environmentalReports.countP (reportedAt s)

/-- Nothing that is stored speaks against the product. -/
def Passes (H : Host D) (s : State D) (now : ℕ) (product : ProductSku D) : Bool :=
  provenanceVerified H s product && certificationsValid s now product && laborCompliant s product

/-- The verdict on a product. -/
def verdict (H : Host D) (s : State D) (now : ℕ) (sku : Bytes) (product : ProductSku D) :
    SupplyChainVerification where
  productSku := sku
  isVerified := Passes H s now product
  provenanceVerified := provenanceVerified H s product
  certificationsValid := certificationsValid s now product
  laborCompliant := laborCompliant s product
  environmentalStandardsMet := true
  verificationTimestamp := now
  verificationScore := if Passes H s now product then 100 else 25 * credits H s now product
  issues := (product.certifications.filter (lapsedAt s now)).map (fun _ => ascii "Certification expired") ++
    (product.laborReports.filter (failsAt s)).map fun _ => ascii "Labor conditions not met"

variable (s env) in
theorem run_award (c : Bool) (score : ℕ) (h : score + 25 < 2 ^ 32) :
    (award c score : Fn D ℕ).run env s = .ok (score + 25 * c.toNat, s) := by
  cases c with
  | false => rfl
  | true => exact run_addChecked env s h

/-- **What the function returns**, unless the score overflows. -/
theorem run_verifyProductChain {brandId : Symbol} {sku : Bytes} {product : ProductSku D}
    (hproduct : s.persistent .productSku (brandId, sku) = some product) :
    (verifyProductChain H brandId sku).run env s =
      if 25 * credits H s env.timestamp product < 2 ^ 32 then
        .ok (verdict H s env.timestamp sku product, s)
      else .error .overflow := by
  let now := env.timestamp
  let provenance := if product.provenanceId = H.zeros then none
    else s.persistent .provenanceEvent product.provenanceId
  have hverified : (provenance.map Provenance.isVerified).getD false = provenanceVerified H s product := by
    rw [provenanceVerified]
    by_cases hzero : product.provenanceId = H.zeros
    · simp only [provenance, if_pos hzero]
      rfl
    · simp only [provenance, if_neg hzero]
      cases s.persistent .provenanceEvent product.provenanceId <;> rfl
  have hload : (unwrapOr (s.persistent .productSku (brandId, sku)) "Product SKU not found" :
      Fn D (ProductSku D)).run env s = .ok (product, s) := by
    rw [hproduct]
    rfl
  have hprovenance : (provenanceOf H product).run env s = .ok (provenance, s) := by
    simp only [provenance, provenanceOf]
    split <;> rfl
  have haward₁ : (award (provenanceVerified H s product) 0 : Fn D ℕ).run env s =
      .ok (0 + 25 * (provenanceVerified H s product).toNat, s) :=
    run_award s env _ 0 (by decide)
  have haward₂ := run_award s env (certificationsValid s now product)
    (0 + 25 * (provenanceVerified H s product).toNat) (by cases provenanceVerified H s product <;> decide)
  have hsmall : 0 + 25 * (provenanceVerified H s product).toNat +
      25 * (certificationsValid s now product).toNat < 2 ^ 32 := by
    cases provenanceVerified H s product <;> cases certificationsValid s now product <;> decide
  have hlabor := run_laborReports s env product.laborReports true
    ((product.certifications.filter (lapsedAt s now)).map fun _ => ascii "Certification expired") hsmall
  refine (run_bind_ok env s (run_loadPers env s .productSku (brandId, sku)) _).trans ?_
  refine (run_bind_ok env s hload _).trans ((run_bind_ok env s hprovenance _).trans ?_)
  dsimp only
  rw [hverified, run_bind_ok env s haward₁, run_bind_ok env s (run_certifications product.certifications (true, []))]
  simp only [Bool.true_and, List.nil_append]
  have hvalid : (!product.certifications.isEmpty && product.certifications.all (!lapsedAt s env.timestamp ·)) =
      certificationsValid s now product := rfl
  rw [hvalid, run_bind_ok env s haward₂]
  generalize hsum : 0 + 25 * (provenanceVerified H s product).toNat +
    25 * (certificationsValid s now product).toNat = score at hlabor hsmall ⊢
  have hcredits : 25 * credits H s now product = score +
      25 * product.laborReports.countP (compliantAt s) +
      25 * product.environmentalReports.countP (reportedAt s) := by
    rw [credits, ← hsum]
    omega
  rw [hcredits]
  by_cases hfits : score + 25 * product.laborReports.countP (compliantAt s) < 2 ^ 32
  · rw [if_pos hfits] at hlabor
    rw [run_bind_ok env s hlabor]
    have henv := run_environmentalReports s env product.environmentalReports hfits
    dsimp only
    by_cases hall : score + 25 * product.laborReports.countP (compliantAt s) +
        25 * product.environmentalReports.countP (reportedAt s) < 2 ^ 32
    · rw [if_pos hall] at henv ⊢
      rw [run_bind_ok env s henv, run_bind_ok env s (show (timestamp : Fn D ℕ).run env s = .ok (now, s) from rfl),
        verdict, hcredits]
      simp only [Passes, laborCompliant, Bool.true_and, Bool.and_true]
      rfl
    · rw [if_neg hall] at henv ⊢
      rw [run_bind_error env s henv]
  · rw [if_neg hfits] at hlabor
    rw [run_bind_error env s hlabor, if_neg (by omega)]

/-! ## Soundness -/

/-- A verdict stands for every reference that the product lists. -/
structure Sound (H : Host D) (env : Env) (s : State D) (product : ProductSku D) : Prop where
  provenance : ∃ record, s.persistent .provenanceEvent product.provenanceId = some record ∧
    record.isVerified = true
  certifications : ∀ id ∈ product.certifications, ∃ certId, id = H.sha256 certId ∧
    (verifyCertification H certId).run env s = .ok (true, s)
  laborReports : ∀ id ∈ product.laborReports, ∃ labor, s.persistent .laborReport id = some labor ∧
    labor.wageCompliance = true ∧ labor.workingHoursCompliance = true ∧ labor.childLaborFree = true ∧
    labor.safetyStandardsMet = true
  environmentalReports : ∀ id ∈ product.environmentalReports, (s.persistent .environmentalReport id).isSome

/-- Every reference is stored, a certification under the hash of its id, and none expires at this time. -/
structure Complete (H : Host D) (s : State D) (now : ℕ) (product : ProductSku D) : Prop where
  certifications : ∀ id ∈ product.certifications, ∃ certId cert, id = H.sha256 certId ∧
    s.persistent .certificationEvent id = some cert ∧ cert.expiryDate ≠ now
  laborReports : ∀ id ∈ product.laborReports, (s.persistent .laborReport id).isSome
  environmentalReports : ∀ id ∈ product.environmentalReports, (s.persistent .environmentalReport id).isSome

theorem run_verifyCertification (certId : Bytes) : (verifyCertification H certId).run env s =
    .ok ((s.persistent .certificationEvent (H.sha256 certId)).any fun cert =>
      cert.isActive && decide (env.timestamp < cert.expiryDate), s) := by
  rw [verifyCertification, run_bind_ok env s (run_loadPers env s .certificationEvent (H.sha256 certId))]
  cases s.persistent .certificationEvent (H.sha256 certId) <;> rfl

theorem sound_iff_complete {product : ProductSku D} (hpasses : Passes H s env.timestamp product = true) :
    Sound H env s product ↔ Complete H s env.timestamp product := by
  simp only [Passes, Bool.and_eq_true] at hpasses
  obtain ⟨⟨hprovenance, hcertifications⟩, hlabor⟩ := hpasses
  rw [certificationsValid, Bool.and_eq_true, List.all_eq_true] at hcertifications
  rw [laborCompliant, List.all_eq_true] at hlabor
  constructor
  · intro h
    refine ⟨fun id hid => ?_, fun id hid => ?_, h.environmentalReports⟩
    · obtain ⟨certId, rfl, hrun⟩ := h.certifications id hid
      rw [run_verifyCertification] at hrun
      cases hcert : s.persistent .certificationEvent (H.sha256 certId) with
      | none =>
        rw [hcert] at hrun
        cases hrun
      | some cert =>
        simp only [hcert, Option.any_some, Except.ok.injEq, Prod.mk.injEq, and_true, Bool.and_eq_true,
          decide_eq_true_eq] at hrun
        exact ⟨certId, cert, rfl, rfl, (Nat.ne_of_lt hrun.2).symm⟩
    · obtain ⟨labor, hlabor, -⟩ := h.laborReports id hid
      rw [hlabor]
      rfl
  · intro h
    refine ⟨?_, fun id hid => ?_, fun id hid => ?_, h.environmentalReports⟩
    · rw [provenanceVerified] at hprovenance
      split at hprovenance
      · cases hprovenance
      · obtain ⟨record, hrecord, hverified⟩ := Option.any_eq_true _ _ |>.1 hprovenance
        exact ⟨record, hrecord, hverified⟩
    · obtain ⟨certId, cert, rfl, hcert, hne⟩ := h.certifications id hid
      refine ⟨certId, rfl, ?_⟩
      have hvalid := hcertifications.2 _ hid
      simp only [lapsedAt, hcert, Option.any_some, Certification.lapsed, Bool.not_or, Bool.not_not,
        Bool.and_eq_true, Bool.not_eq_true', decide_eq_false_iff_not] at hvalid
      have hlt : env.timestamp < cert.expiryDate := by omega
      rw [run_verifyCertification, hcert, Option.any_some, hvalid.1, decide_eq_true hlt]
      rfl
    · obtain ⟨labor, hstored⟩ := Option.isSome_iff_exists.1 (h.laborReports id hid)
      have hcompliant := hlabor id hid
      simp only [failsAt, hstored, Option.any_some, Bool.not_not, LaborConditions.compliant,
        Bool.and_eq_true] at hcompliant
      exact ⟨labor, hstored, hcompliant.1.1.1, hcompliant.1.1.2, hcompliant.1.2, hcompliant.2⟩

/-- **When verdicts are sound**: the score of a product that does not pass is of four credits at most, and the
references of one that passes are complete. -/
theorem sound_iff {brandId : Symbol} {sku : Bytes} {product : ProductSku D}
    (hproduct : s.persistent .productSku (brandId, sku) = some product) :
    (∀ v s', (verifyProductChain H brandId sku).run env s = .ok (v, s') →
      v.verificationScore ≤ 100 ∧ (v.isVerified = true → Sound H env s product)) ↔
    (25 * credits H s env.timestamp product < 2 ^ 32 →
      (Passes H s env.timestamp product = true → Complete H s env.timestamp product) ∧
      (Passes H s env.timestamp product = false → credits H s env.timestamp product ≤ 4)) := by
  rw [run_verifyProductChain hproduct]
  by_cases hfits : 25 * credits H s env.timestamp product < 2 ^ 32
  · rw [if_pos hfits, forall_prop_of_true hfits]
    have hverdict : (∀ v s', (.ok (verdict H s env.timestamp sku product, s) : Except (Trap String) _) =
        .ok (v, s') → v.verificationScore ≤ 100 ∧ (v.isVerified = true → Sound H env s product)) ↔
        (verdict H s env.timestamp sku product).verificationScore ≤ 100 ∧
          (Passes H s env.timestamp product = true → Sound H env s product) := by
      constructor
      · intro h
        exact h _ _ rfl
      · rintro h v s' hv
        cases hv
        exact h
    have hscore : (verdict H s env.timestamp sku product).verificationScore =
        if Passes H s env.timestamp product then 100 else 25 * credits H s env.timestamp product := rfl
    rw [hverdict, hscore]
    cases hpasses : Passes H s env.timestamp product with
    | true => simp [sound_iff_complete hpasses]
    | false =>
      rw [if_neg Bool.false_ne_true]
      simp only [reduceCtorEq, false_implies, and_true, true_and, true_implies]
      omega
  · rw [if_neg hfits, forall_prop_of_false hfits]
    exact iff_true_intro nofun

/-- A host whose hash is the text itself. -/
def plainHost : Host Bytes := ⟨id, List.replicate 32 0⟩

def someAddress : Address := ⟨71 :: List.replicate 55 65, by rw [List.length_cons, List.length_replicate]⟩

def somewhere : Location := ⟨[], "DE", [], []⟩

/-- A product with the provenance `[1]`, and other references. -/
def productOf (certifications laborReports : List Bytes) : ProductSku Bytes where
  sku := [7]
  brandId := "ACME"
  productName := []
  description := []
  provenanceId := [1]
  certifications := certifications
  laborReports := laborReports
  environmentalReports := []
  createdDate := 0
  lastUpdated := 0

def goodReport : LaborConditions Bytes := ⟨[3], 0, someAddress, 10, true, true, true, true, true, [], []⟩

/-- The product, a provenance record and a labor report, under the id `[3]`. -/
def storeOf (verified : Bool) (product : ProductSku Bytes) : State Bytes :=
  (((Ledger.empty : State Bytes).putPers .productSku ("ACME", [7]) product).putPers .provenanceEvent [1]
    ⟨somewhere, 0, [], someAddress, [], [], verified⟩).putPers .laborReport [3] goodReport

def envAt (t : ℕ) : Env := ⟨t, 0, fun _ => true, fun _ => 0⟩

/-- A product with a certification until the time 100. -/
def certified : State Bytes :=
  (storeOf true (productOf [[2]] [[3]])).putPers .certificationEvent [2]
    ⟨[2], "organic", someAddress, 0, 100, [], true, [], []⟩

/-- At the time 99 everything that the product lists is stored, and the certification is valid. -/
theorem sound_certified : ∃ v,
    (verifyProductChain plainHost "ACME" [7]).run (envAt 99) certified = .ok (v, certified) ∧
    v.isVerified = true ∧ v.verificationScore ≤ 100 ∧
    Sound plainHost (envAt 99) certified (productOf [[2]] [[3]]) := by
  have hcomplete : Complete plainHost certified 99 (productOf [[2]] [[3]]) := by
    refine ⟨fun id hid => ?_, fun id hid => ?_, fun id hid => (nomatch hid)⟩
    · obtain rfl := List.mem_singleton.1 hid
      exact ⟨[2], _, rfl, rfl, by decide⟩
    · obtain rfl := List.mem_singleton.1 hid
      rfl
  have hpasses : Passes plainHost certified 99 (productOf [[2]] [[3]]) = true := rfl
  have hproduct : certified.persistent .productSku ("ACME", [7]) = some (productOf [[2]] [[3]]) := rfl
  obtain ⟨v, hrun, hverified⟩ : ∃ v, (verifyProductChain plainHost "ACME" [7]).run (envAt 99) certified =
      .ok (v, certified) ∧ v.isVerified = true := ⟨_, rfl, rfl⟩
  obtain ⟨hscore, hsound⟩ := (sound_iff hproduct).2
    (fun _ => ⟨fun _ => hcomplete, fun hfails => absurd (hpasses.symm.trans hfails) (by decide)⟩) v certified hrun
  exact ⟨v, hrun, hverified, hscore, hsound hverified⟩

/-- **A product is verified** though its certification is not stored, or expires at that time, and five reports are
125 points. -/
theorem not_sound :
    (∃ v, (verifyProductChain plainHost "ACME" [7]).run (envAt 99) (storeOf true (productOf [[4]] [])) =
      .ok (v, storeOf true (productOf [[4]] [])) ∧ v.isVerified = true) ∧
    (verifyCertification plainHost [4]).run (envAt 99) (storeOf true (productOf [[4]] [])) =
      .ok (false, storeOf true (productOf [[4]] [])) ∧
    (∃ v, (verifyProductChain plainHost "ACME" [7]).run (envAt 100) certified = .ok (v, certified) ∧
      v.isVerified = true) ∧
    (verifyCertification plainHost [2]).run (envAt 100) certified = .ok (false, certified) ∧
    ∃ v, (verifyProductChain plainHost "ACME" [7]).run (envAt 99)
      (storeOf false (productOf [] [[3], [3], [3], [3], [3]])) =
        .ok (v, storeOf false (productOf [] [[3], [3], [3], [3], [3]])) ∧ v.verificationScore = 125 :=
  ⟨⟨_, rfl, rfl⟩, rfl, ⟨_, rfl, rfl⟩, rfl, _, rfl, rfl⟩

end SupplyChain
