/-
  ZkVerifier — the public inputs of a proof (`bridge/evm/ZkVerifier.sol`).

  The circuits count modulo the order of the curve, and an input is a `uint256`: no function compares one
  with the order.

  * `verifyGroth16_congr`: a verification depends on the residues of the inputs;
  * `verified_canonical_iff`, `included_canonical_iff`: a proof is accepted for one vector of each class, and
    for canonical ones only, exactly if it is accepted for none, or has no inputs.
-/
import AuditTransparency.Evm.ZkVerifier

namespace ZkVerifier

open Solidity
open Solidity.Tx

/-! ## Residues -/

/-- The number of points of a group. -/
def groupOrder : ℕ :=
  21888242871839275222246405745257275088548364400416034343698204186575808495617

def residue (k : Word) : ℕ := k.toNat % groupOrder

/-- The inputs agree modulo the order. -/
def Congruent (x y : List Word) : Prop := x.map residue = y.map residue

/-- The inputs are elements of the scalar field. -/
def Canonical (x : List Word) : Prop := ∀ k ∈ x, k.toNat < groupOrder

/-- What the precompiled contract at 0x07 does: a scalar counts modulo the order. -/
def Precompiles.Reducing (P : Precompiles) : Prop :=
  ∀ p k k', residue k = residue k' → P.ecMul p k = P.ecMul p k'

/-- The element of the scalar field that an input stands for. -/
def reduced (k : Word) : Word := BitVec.ofNat 256 (residue k)

/-- Another input that stands for the same. -/
def shifted (k : Word) : Word := BitVec.ofNat 256 (residue k + groupOrder)

variable {P : Precompiles} {vk : VerificationKey} {p : Proof} {proof : Bytes} {msg : Msg} {s : Storage}
  {x y : List Word} {h k : Word}

theorem residue_lt (k : Word) : residue k < groupOrder := Nat.mod_lt _ (by decide)

theorem toNat_reduced (k : Word) : (reduced k).toNat = residue k := by
  rw [reduced, BitVec.toNat_ofNat, Nat.mod_eq_of_lt]
  exact Nat.lt_trans (residue_lt k) (by decide)

theorem toNat_shifted (k : Word) : (shifted k).toNat = residue k + groupOrder := by
  rw [shifted, BitVec.toNat_ofNat, Nat.mod_eq_of_lt]
  have hlt : groupOrder + groupOrder < 2 ^ 256 := by decide
  exact Nat.lt_trans (Nat.add_lt_add_right (residue_lt k) _) hlt

theorem residue_reduced (k : Word) : residue (reduced k) = residue k := by
  rw [residue, toNat_reduced, Nat.mod_eq_of_lt (residue_lt k)]

theorem residue_shifted (k : Word) : residue (shifted k) = residue k := by
  rw [residue, toNat_shifted, Nat.add_mod_right, Nat.mod_eq_of_lt (residue_lt k)]

theorem canonical_reduced (x : List Word) : Canonical (x.map reduced) := by
  intro k hk
  obtain ⟨k', -, rfl⟩ := List.mem_map.1 hk
  rw [toNat_reduced]
  exact residue_lt k'

theorem congruent_reduced (x : List Word) : Congruent (x.map reduced) x := by
  rw [Congruent, List.map_map]
  exact List.map_congr_left fun k _ => residue_reduced k

theorem Congruent.length_eq (h : Congruent x y) : x.length = y.length := by
  rw [← List.length_map residue, h, List.length_map]

/-! ## One verification -/

theorem foldlM_addTerm_congr (hP : P.Reducing) {l l' : List (Word × ℕ)} (v : G1Point)
    (h : l.map (Prod.map residue id) = l'.map (Prod.map residue id)) :
    l.foldlM (addTerm P vk) v = l'.foldlM (addTerm P vk) v := by
  induction l generalizing l' v with
  | nil =>
    rw [List.map_eq_nil_iff.1 h.symm]
  | cons a l ih =>
    obtain ⟨b, l', rfl, hb, hl⟩ := List.map_eq_cons_iff.1 h.symm
    obtain ⟨hk, hi⟩ := Prod.mk.inj hb
    have hterm : ∀ v, addTerm P vk v a = addTerm P vk v b := by
      intro v
      have hi' : a.2 = b.2 := hi.symm
      simp only [addTerm, g1ScalarMul, hi', hP _ a.1 b.1 hk.symm]
    simp only [List.foldlM_cons, hterm, ih _ hl.symm]

/-- **A verification depends on the residues of the inputs.** -/
theorem verifyGroth16_congr (hP : P.Reducing) (h : Congruent x y) :
    verifyGroth16 P vk p x = verifyGroth16 P vk p y := by
  have hzip : x.zipIdx.map (Prod.map residue id) = y.zipIdx.map (Prod.map residue id) := by
    rw [← List.zipIdx_map, ← List.zipIdx_map, h]
  simp only [verifyGroth16, foldlM_addTerm_congr hP _ hzip]

/-- The equation of the proof system holds. -/
def Proves (P : Precompiles) (vk : VerificationKey) (p : Proof) (inputs : List Word) : Prop :=
  ∃ ic0 vkX, vk.ic[0]? = some ic0 ∧ Sums P vk ic0 inputs.zipIdx vkX ∧
    P.ecPairing [(g1Negate p.a, p.b), (vk.alpha1, vk.beta2), (vkX, vk.gamma2), (p.c, vk.delta2)] = some 1

theorem verifyGroth16_eq_true : verifyGroth16 P vk p x = .ok true ↔ Proves P vk p x := by
  simp only [verifyGroth16, pairing4, bind_ok_iff, icAt_ok_iff, sums_iff, staticcall_ok_iff]
  constructor
  · rintro ⟨ic0, hic, vkX, hsum, out, hpair, hout⟩
    obtain rfl : out = 1 := beq_iff_eq.1 (Except.ok.inj hout)
    exact ⟨ic0, vkX, hic, hsum, hpair⟩
  · rintro ⟨ic0, vkX, hic, hsum, hpair⟩
    exact ⟨ic0, hic, vkX, hsum, 1, hpair, rfl⟩

theorem Proves.congr (hP : P.Reducing) (h : Congruent x y) (hx : Proves P vk p x) : Proves P vk p y := by
  rw [← verifyGroth16_eq_true, ← verifyGroth16_congr hP h]
  exact verifyGroth16_eq_true.2 hx

/-- The proof is not one for `n` elements of the scalar field. -/
def ProvesNone (P : Precompiles) (vk : VerificationKey) (proof : Bytes) (n : ℕ) : Prop :=
  ∀ x, Canonical x → x.length = n → ¬Proves P vk (decodeProof proof) x

/-- It is then not one for `n` words either. -/
theorem ProvesNone.not_proves (hP : P.Reducing) {n : ℕ} (h : ProvesNone P vk proof n) (hx : x.length = n) :
    ¬Proves P vk (decodeProof proof) x := fun hproves =>
  h _ (canonical_reduced x) ((List.length_map _).trans hx) (hproves.congr hP (congruent_reduced x).symm)

/-! ## What is accepted -/

/-- `verifyEventZkProof` accepts the proof for these inputs. -/
def Verified (P : Precompiles) (msg : Msg) (s : Storage) (proof : Bytes) (x : List Word) : Prop :=
  ∃ s', (verifyEventZkProof P proof x).run msg s = .ok (true, s')

/-- `verifyEventInclusion` accepts it for this event. -/
def Included (P : Precompiles) (msg : Msg) (s : Storage) (proof : Bytes) (eventHash : Word) : Prop :=
  ∃ s', (verifyEventInclusion P eventHash proof).run msg s = .ok (true, s')

theorem returns_iff {α : Type} {m : Fn α} {a : α} :
    (∃ s', m.run msg s = .ok (a, s')) ↔ ¬Post m (fun b _ => b ≠ a) msg s := by
  simp only [Post, not_forall, not_not]
  constructor
  · rintro ⟨s', hr⟩
    exact ⟨a, s', hr, rfl⟩
  · rintro ⟨b, s', hr, rfl⟩
    exact ⟨s', hr⟩

theorem verified_iff : Verified P msg s proof x ↔
    (proof.length = 256 ∧ x.length + 1 = s.vk.ic.length) ∧ Proves P s.vk (decodeProof proof) x := by
  rw [Verified, returns_iff, ← verifyGroth16_eq_true]
  simp only [verifyEventZkProof, post_bind, post_revertIf, post_get, post_ofView]
  generalize verifyGroth16 P s.vk (decodeProof proof) x = r
  constructor
  · intro hnot
    simp only [not_forall, not_not] at hnot
    obtain ⟨hlen, hinputs, b, hb, rfl⟩ := hnot
    exact ⟨⟨hlen, hinputs⟩, hb⟩
  · rintro ⟨⟨hlen, hinputs⟩, rfl⟩ hpost
    exact hpost (not_not_intro hlen) (not_not_intro hinputs) true rfl rfl

/-- The counters of the verifier can be increased. -/
def Countable (s : Storage) : Prop :=
  s.totalVerifications + 1 < 2 ^ 256 ∧ s.successfulVerifications + 1 < 2 ^ 256

theorem included_iff : Included P msg s proof h ↔
    (proof.length = 256 ∧ 2 ≤ s.vk.ic.length ∧ Countable s) ∧ Proves P s.vk (decodeProof proof) [h] := by
  rw [Included, returns_iff, ← verifyGroth16_eq_true]
  simp only [verifyEventInclusion, post_bind, post_revertIf, post_get, post_ofView, post_addChecked,
    post_modify, post_doIf, post_getMsg, post_pure]
  generalize verifyGroth16 P s.vk (decodeProof proof) [h] = r
  constructor
  · intro hnot
    simp only [not_forall, not_and_or, not_not] at hnot
    obtain ⟨hlen, hic, b, hb, htotal, ⟨rfl, hsucc, -⟩ | ⟨hne, rfl⟩⟩ := hnot
    · exact ⟨⟨hlen, Nat.le_of_not_lt hic, htotal, hsucc⟩, hb⟩
    · exact absurd rfl hne
  · rintro ⟨⟨hlen, hic, htotal, hsucc⟩, rfl⟩ hpost
    exact (hpost (not_not_intro hlen) (Nat.not_lt.2 hic) true rfl htotal).1 rfl hsucc rfl

/-- **The inputs of `verifyEventZkProof`.**  A proof is accepted for one vector of each class at most, and
    for canonical ones only, exactly if the call reverts, there are no inputs, or it proves nothing. -/
theorem verified_canonical_iff (hP : P.Reducing) (msg : Msg) (s : Storage) (proof : Bytes) :
    ((∀ x y, Congruent x y → Verified P msg s proof x → Verified P msg s proof y → x = y) ∧
      ∀ x, Verified P msg s proof x → Canonical x) ↔
    (proof.length = 256 → ∀ n, s.vk.ic.length = n + 2 → ProvesNone P s.vk proof (n + 1)) := by
  constructor
  · rintro ⟨-, hcan⟩ hlen n hic x - hx hproves
    obtain ⟨k, x', rfl⟩ := List.exists_cons_of_length_eq_add_one hx
    have hcongr : Congruent (k :: x') (shifted k :: x') := by
      rw [Congruent, List.map_cons, List.map_cons, residue_shifted]
    have hverified : Verified P msg s proof (shifted k :: x') :=
      verified_iff.2 ⟨⟨hlen, by rw [hic, ← hcongr.length_eq, hx]⟩, hproves.congr hP hcongr⟩
    have hlt := hcan _ hverified (shifted k) List.mem_cons_self
    rw [toNat_shifted] at hlt
    exact Nat.not_lt.2 (Nat.le_add_left _ _) hlt
  · intro hnone
    have hnil : ∀ x, Verified P msg s proof x → x = [] := by
      intro x hx
      obtain ⟨⟨hlen, hic⟩, hproves⟩ := verified_iff.1 hx
      cases x with
      | nil => rfl
      | cons k x' => exact absurd hproves ((hnone hlen x'.length hic.symm).not_proves hP rfl)
    refine ⟨fun x y _ hx hy => (hnil x hx).trans (hnil y hy).symm, fun x hx k hk => ?_⟩
    rw [hnil x hx] at hk
    cases hk

/-- **The events of `verifyEventInclusion`.**  A proof is accepted for one event hash of each class at most,
    and for canonical ones only, exactly if the call reverts, or it proves nothing. -/
theorem included_canonical_iff (hP : P.Reducing) (msg : Msg) (s : Storage) (proof : Bytes) :
    ((∀ h h', residue h = residue h' → Included P msg s proof h → Included P msg s proof h' → h = h') ∧
      ∀ h, Included P msg s proof h → h.toNat < groupOrder) ↔
    (proof.length = 256 → 2 ≤ s.vk.ic.length → Countable s → ProvesNone P s.vk proof 1) := by
  constructor
  · rintro ⟨-, hcan⟩ hlen hic hcount x - hx hproves
    obtain ⟨k, rfl⟩ := List.length_eq_one_iff.1 hx
    have hcongr : Congruent [k] [shifted k] := by
      rw [Congruent, List.map_singleton, List.map_singleton, residue_shifted]
    have hlt := hcan _ (included_iff.2 ⟨⟨hlen, hic, hcount⟩, hproves.congr hP hcongr⟩)
    rw [toNat_shifted] at hlt
    exact Nat.not_lt.2 (Nat.le_add_left _ _) hlt
  · intro hnone
    have hnot : ∀ h, ¬Included P msg s proof h := by
      intro h hh
      obtain ⟨⟨hlen, hic, hcount⟩, hproves⟩ := included_iff.1 hh
      exact (hnone hlen hic hcount).not_proves hP rfl hproves
    exact ⟨fun h _ _ hh => absurd hh (hnot h), fun h hh => absurd hh (hnot h)⟩

/-- **Canonical inputs.**  Neither function tells the words of a class apart, so a proof is accepted for
    canonical ones only exactly if it is accepted for none, or takes none. -/
theorem canonical_inputs_iff (hP : P.Reducing) (msg : Msg) (s : Storage) (proof : Bytes) :
    (((∀ x y, Congruent x y → Verified P msg s proof x → Verified P msg s proof y → x = y) ∧
      ∀ x, Verified P msg s proof x → Canonical x) ↔
    (proof.length = 256 → ∀ n, s.vk.ic.length = n + 2 → ProvesNone P s.vk proof (n + 1))) ∧
    (((∀ h h', residue h = residue h' → Included P msg s proof h → Included P msg s proof h' → h = h') ∧
      ∀ h, Included P msg s proof h → h.toNat < groupOrder) ↔
    (proof.length = 256 → 2 ≤ s.vk.ic.length → Countable s → ProvesNone P s.vk proof 1)) :=
  ⟨verified_canonical_iff hP msg s proof, included_canonical_iff hP msg s proof⟩

/-! ## A proof at infinity -/

theorem reducing_infinityPrecompiles : infinityPrecompiles.Reducing := fun _ _ _ _ => rfl

/-- A verifier for statements with one input, whose points are all at infinity. -/
def eventStorage : Storage := { vk := { infinityKey with ic := [⟨0, 0⟩, ⟨0, 0⟩] }, owner := 1 }

theorem proves_infinityProof (k : Word) :
    Proves infinityPrecompiles eventStorage.vk (decodeProof infinityProof) [k] := by
  have hcurve : OnCurve ⟨0, 0⟩ := .inl rfl
  have hmul : infinityPrecompiles.ecMul ⟨0, 0⟩ k = some ⟨0, 0⟩ := @if_pos _ _ hcurve _ _ none
  exact ⟨⟨0, 0⟩, ⟨0, 0⟩, rfl, .cons rfl hmul (by decide) .nil, by decide⟩

/-- The precompiled contracts where at most one pairing is not of a point at infinity. -/
def onePairing : Precompiles :=
  { infinityPrecompiles with
    ecPairing := fun l =>
      if ∀ p ∈ l, OnCurve p.1 then
        some (if ∃ p ∈ l, p.1 ≠ ⟨0, 0⟩ ∧ p.2 ≠ ⟨(0, 0), (0, 0)⟩ then 0 else 1)
      else none
    ecPairing_onCurve := fun h => (Option.ite_none_right_eq_some.1 h).1 }

/-- A verifier with the generators of the groups in its key. -/
def generatorStorage : Storage where
  vk := { eventStorage.vk with
    alpha1 := ⟨1, 2⟩
    beta2 := ⟨(11559732032986387107991004021392285783925812861821192530917403151452391805634,
        10857046999023057135944570762232829481370756359578518086990519993285655852781),
      (4082367875863433681332203403145435568316851327593401208105741076214120093531,
        8495653923123431417604973247489272438418190587263600148770280649306958101930)⟩ }
  owner := 1

/-- The proof of points at infinity is not one for this key. -/
theorem provesNone_generatorStorage : ProvesNone onePairing generatorStorage.vk infinityProof 1 := by
  rintro x - - ⟨ic0, vkX, -, -, hpair⟩
  obtain ⟨-, hout⟩ := Option.ite_none_right_eq_some.1 hpair
  have hsome : ∃ p ∈ [(g1Negate (decodeProof infinityProof).a, (decodeProof infinityProof).b),
      (generatorStorage.vk.alpha1, generatorStorage.vk.beta2), (vkX, generatorStorage.vk.gamma2),
      ((decodeProof infinityProof).c, generatorStorage.vk.delta2)],
      p.1 ≠ (⟨0, 0⟩ : G1Point) ∧ p.2 ≠ ⟨(0, 0), (0, 0)⟩ :=
    ⟨_, List.mem_cons_of_mem _ List.mem_cons_self, by decide, by decide⟩
  rw [if_pos hsome] at hout
  exact absurd (Option.some.inj hout) (by decide)

/-- A key without inputs is not affected, and neither is one for which the proof is not valid. -/
theorem canonical_inputs_iff_none :
    ((∀ x y, Congruent x y → Verified infinityPrecompiles ⟨1, 0⟩ infinityStorage infinityProof x →
      Verified infinityPrecompiles ⟨1, 0⟩ infinityStorage infinityProof y → x = y) ∧
    ∀ x, Verified infinityPrecompiles ⟨1, 0⟩ infinityStorage infinityProof x → Canonical x) ∧
    (∀ h h', residue h = residue h' → Included onePairing ⟨1, 0⟩ generatorStorage infinityProof h →
      Included onePairing ⟨1, 0⟩ generatorStorage infinityProof h' → h = h') ∧
    ∀ h, Included onePairing ⟨1, 0⟩ generatorStorage infinityProof h → h.toNat < groupOrder :=
  ⟨(canonical_inputs_iff reducing_infinityPrecompiles ⟨1, 0⟩ infinityStorage infinityProof).1.2
    (fun _ _ h => by cases h),
  (canonical_inputs_iff (P := onePairing) (fun _ _ _ _ => rfl) ⟨1, 0⟩ generatorStorage infinityProof).2.2
    (fun _ _ _ => provesNone_generatorStorage)⟩

/-- One proof is accepted for the event hash zero and for the order of the group. -/
theorem order_accepted_as_zero : residue 0 = residue (shifted 0) ∧ (0 : Word) ≠ shifted 0 ∧
    Verified infinityPrecompiles ⟨1, 0⟩ eventStorage infinityProof [0] ∧
    Verified infinityPrecompiles ⟨1, 0⟩ eventStorage infinityProof [shifted 0] ∧
    Included infinityPrecompiles ⟨1, 0⟩ eventStorage infinityProof 0 ∧
    Included infinityPrecompiles ⟨1, 0⟩ eventStorage infinityProof (shifted 0) := by
  have hlen : infinityProof.length = 256 := List.length_replicate
  have hverified : ∀ k, Verified infinityPrecompiles ⟨1, 0⟩ eventStorage infinityProof [k] := fun k =>
    verified_iff.2 ⟨⟨hlen, rfl⟩, proves_infinityProof k⟩
  have hincluded : ∀ k, Included infinityPrecompiles ⟨1, 0⟩ eventStorage infinityProof k := fun k =>
    included_iff.2 ⟨⟨hlen, Nat.le_refl 2, by decide, by decide⟩, proves_infinityProof k⟩
  refine ⟨(residue_shifted 0).symm, fun h => ?_, hverified _, hverified _, hincluded _, hincluded _⟩
  have htoNat := congrArg BitVec.toNat h
  rw [toNat_shifted] at htoNat
  exact absurd htoNat (by decide)

end ZkVerifier
