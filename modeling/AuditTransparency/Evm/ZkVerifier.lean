/-
  ZkVerifier — Groth16 proofs on an EVM chain (`bridge/evm/ZkVerifier.sol`).

  The curve operations are those of the precompiled contracts: partial functions that fail on points off
  the curve.  A failed operation reverts the call, also where a batch is verified: one such member blocks
  the others.

  * `verifyGroth16_ok_iff`: a verification ends exactly if no curve operation fails (`Operable`);
  * `run_verifyBatchProof`: a batch without such members has the verdicts of its members as its result;
  * `verifyBatchProof_iff`: it reverts if there is one;
  * `run_counted`: over a whole run the key and the owner stay those that were deployed, and the counters and the
    logs are those of the calls.

  The lengths of arrays are bounded by the size of a call, so that counting elements does not overflow.
-/
import AuditTransparency.Evm.Tx
import Mathlib.Data.List.Basic

namespace ZkVerifier

open Soroban (Run)
open Solidity
open Solidity.Tx

/-! ## Data -/

/-- `uint256`, and `bytes32` -/
abbrev Word := BitVec 256

structure G1Point where
  x : Word
  y : Word
  deriving DecidableEq

/-- The two components of a coordinate are its real and its imaginary part. -/
structure G2Point where
  x : Word × Word
  y : Word × Word
  deriving DecidableEq

structure VerificationKey where
  alpha1 : G1Point
  beta2 : G2Point
  gamma2 : G2Point
  delta2 : G2Point
  /-- one more than there are public inputs -/
  ic : List G1Point

structure Proof where
  a : G1Point
  b : G2Point
  c : G1Point

inductive Log where
  | proofVerified (eventHash : Word) (verifier : Address) (timestamp : ℕ) (success : Bool)
  | batchVerificationComplete (totalProofs validProofs timestamp : ℕ)
  deriving DecidableEq

/-- The storage, and the logs emitted. -/
structure Storage where
  vk : VerificationKey
  owner : Address
  totalVerifications : ℕ := 0
  successfulVerifications : ℕ := 0
  logs : List Log := []

inductive Error where
  | invalidProofLength
  | invalidPublicInputsLength
  | ecOperationFailed
  | batchLengthMismatch
  /-- an index that is out of bounds -/
  | panic
  deriving DecidableEq

abbrev Fn : Type → Type := Tx Error Storage

/-! ## Curve operations -/

def fieldPrime : Word :=
  21888242871839275222246405745257275088696311157297823662689037894645226208583

/-- The points of the first group; the one at infinity has the coordinates zero. -/
def OnCurve (p : G1Point) : Prop :=
  p = ⟨0, 0⟩ ∨ p.x < fieldPrime ∧ p.y < fieldPrime ∧
    p.y.toNat ^ 2 % fieldPrime.toNat = (p.x.toNat ^ 3 + 3) % fieldPrime.toNat

instance (p : G1Point) : Decidable (OnCurve p) :=
  inferInstanceAs (Decidable (_ ∨ _))

/-- The precompiled contracts at 0x06, 0x07 and 0x08. -/
structure Precompiles where
  ecAdd : G1Point → G1Point → Option G1Point
  ecMul : G1Point → Word → Option G1Point
  ecPairing : List (G1Point × G2Point) → Option Word
  ecAdd_onCurve : ∀ {a b r}, ecAdd a b = some r → OnCurve a ∧ OnCurve b
  ecMul_onCurve : ∀ {p k r}, ecMul p k = some r → OnCurve p
  ecPairing_onCurve : ∀ {l r}, ecPairing l = some r → ∀ p ∈ l, OnCurve p.1

/-- A call of a precompiled contract. -/
def staticcall {α : Type} : Option α → Except Error α
  | some r => .ok r
  | none => .error .ecOperationFailed

/-- `_g1Negate` -/
def g1Negate (p : G1Point) : G1Point :=
  if p.x = 0 ∧ p.y = 0 then ⟨0, 0⟩ else ⟨p.x, fieldPrime - p.y % fieldPrime⟩

/-- `_g1Add` -/
def g1Add (P : Precompiles) (a b : G1Point) : Except Error G1Point := staticcall (P.ecAdd a b)

/-- `_g1ScalarMul` -/
def g1ScalarMul (P : Precompiles) (p : G1Point) (s : Word) : Except Error G1Point :=
  staticcall (P.ecMul p s)

/-- `_pairing4` -/
def pairing4 (P : Precompiles) (a1 : G1Point) (a2 : G2Point) (b1 : G1Point) (b2 : G2Point) (c1 : G1Point)
    (c2 : G2Point) (d1 : G1Point) (d2 : G2Point) : Except Error Bool := do
  let out ← staticcall (P.ecPairing [(a1, a2), (b1, b2), (c1, c2), (d1, d2)])
  return out == 1

/-! ## Functions -/

/-- `_vk.ic[i]` -/
def icAt (vk : VerificationKey) (i : ℕ) : Except Error G1Point :=
  match vk.ic[i]? with
  | some p => .ok p
  | none => .error .panic

/-- One round of the loop of `_verifyGroth16`, with the input and its index. -/
def addTerm (P : Precompiles) (vk : VerificationKey) (vkX : G1Point) (input : Word × ℕ) :
    Except Error G1Point := do
  let term ← g1ScalarMul P (← icAt vk (input.2 + 1)) input.1
  g1Add P vkX term

/-- `_verifyGroth16` -/
def verifyGroth16 (P : Precompiles) (vk : VerificationKey) (p : Proof) (inputs : List Word) :
    Except Error Bool := do
  let vkX ← inputs.zipIdx.foldlM (addTerm P vk) (← icAt vk 0)
  pairing4 P (g1Negate p.a) p.b vk.alpha1 vk.beta2 vkX vk.gamma2 p.c vk.delta2

/-- A `uint256` in a proof. -/
def wordOf (bytes : Bytes) : Word := BitVec.ofNat 256 (bytes.foldl (fun n b => 256 * n + b.toNat) 0)

/-- `_decodeProof` -/
def decodeProof (raw : Bytes) : Proof :=
  let word (i : ℕ) : Word := wordOf ((raw.drop (32 * i)).take 32)
  ⟨⟨word 0, word 1⟩, ⟨(word 2, word 3), (word 4, word 5)⟩, ⟨word 6, word 7⟩⟩

def verifyEventZkProof (P : Precompiles) (proof : Bytes) (publicInputs : List Word) : Fn Bool := do
  revertIf (proof.length ≠ 256) .invalidProofLength
  revertIf (publicInputs.length + 1 ≠ (← get).vk.ic.length) .invalidPublicInputsLength
  ofView (verifyGroth16 P (← get).vk (decodeProof proof) publicInputs)

/-- One round of the loop of `verifyBatchProof`: the results so far, and how many of them are valid. -/
def verifyMember (P : Precompiles) (r : List Bool × ℕ) (member : Bytes × List Word) : Fn (List Bool × ℕ) := do
  if member.1.length ≠ 256 then
    return (r.1 ++ [false], r.2)
  if member.2.length + 1 ≠ (← get).vk.ic.length then
    return (r.1 ++ [false], r.2)
  if ← ofView (verifyGroth16 P (← get).vk (decodeProof member.1) member.2) then
    let msg ← getMsg
    modify fun s => { s with logs := s.logs ++ [.proofVerified 0 msg.sender msg.timestamp true] }
    return (r.1 ++ [true], r.2 + 1)
  else
    return (r.1 ++ [false], r.2)

def verifyBatchProof (P : Precompiles) (proofs : List Bytes) (publicInputsArray : List (List Word)) :
    Fn (List Bool) := do
  revertIf (proofs.length ≠ publicInputsArray.length) .batchLengthMismatch
  let (results, validCount) ← loop (verifyMember P) ([], 0) (proofs.zip publicInputsArray)
  let msg ← getMsg
  modify fun s => { s with
    logs := s.logs ++ [.batchVerificationComplete proofs.length validCount msg.timestamp] }
  return results

def verifyEventInclusion (P : Precompiles) (eventHash : Word) (proof : Bytes) : Fn Bool := do
  revertIf (proof.length ≠ 256) .invalidProofLength
  revertIf ((← get).vk.ic.length < 2) .invalidPublicInputsLength
  let included ← ofView (verifyGroth16 P (← get).vk (decodeProof proof) [eventHash])
  let totalVerifications ← addChecked 256 (← get).totalVerifications 1
  modify fun s => { s with totalVerifications }
  doIf (included = true) do
    let successfulVerifications ← addChecked 256 (← get).successfulVerifications 1
    modify fun s => { s with successfulVerifications }
  let msg ← getMsg
  modify fun s => { s with logs := s.logs ++ [.proofVerified eventHash msg.sender msg.timestamp included] }
  return included

/-- The calls that write. -/
inductive Op where
  | verifyBatchProof (proofs : List Bytes) (publicInputsArray : List (List Word))
  | verifyEventInclusion (eventHash : Word) (proof : Bytes)

/-- A call; what it returns is left out. -/
def exec (P : Precompiles) : Op → Fn Unit
  | .verifyBatchProof proofs publicInputsArray => do let _ ← verifyBatchProof P proofs publicInputsArray
  | .verifyEventInclusion eventHash proof => do let _ ← verifyEventInclusion P eventHash proof

/-! ## One verification -/

/-- The sum of a point and the products for some of the inputs, if no operation fails. -/
inductive Sums (P : Precompiles) (vk : VerificationKey) : G1Point → List (Word × ℕ) → G1Point → Prop where
  | nil {v} : Sums P vk v [] v
  | cons {v q t v' w x i l} : vk.ic[i + 1]? = some q → P.ecMul q x = some t → P.ecAdd v t = some v' →
      Sums P vk v' l w → Sums P vk v ((x, i) :: l) w

/-- No curve operation of a verification fails. -/
def Operable (P : Precompiles) (vk : VerificationKey) (p : Proof) (inputs : List Word) : Prop :=
  ∃ ic0 vkX out, vk.ic[0]? = some ic0 ∧ Sums P vk ic0 inputs.zipIdx vkX ∧
    P.ecPairing [(g1Negate p.a, p.b), (vk.alpha1, vk.beta2), (vkX, vk.gamma2), (p.c, vk.delta2)] = some out

variable {P : Precompiles} {vk : VerificationKey} {p : Proof} {inputs : List Word} {v w : G1Point}

theorem bind_ok_iff {α β : Type} {m : Except Error α} {f : α → Except Error β} {b : β} :
    (m >>= f) = .ok b ↔ ∃ a, m = .ok a ∧ f a = .ok b := by
  cases m with
  | error e =>
    constructor
    · intro h
      cases h
    · rintro ⟨a, h, -⟩
      cases h
  | ok a =>
    constructor
    · intro h
      exact ⟨a, rfl, h⟩
    · rintro ⟨a', h, h'⟩
      obtain rfl := Except.ok.inj h
      exact h'

theorem staticcall_ok_iff {α : Type} {o : Option α} {r : α} : staticcall o = .ok r ↔ o = some r := by
  cases o with
  | none => simp [staticcall]
  | some a => simp [staticcall]

theorem icAt_ok_iff {i : ℕ} : icAt vk i = .ok v ↔ vk.ic[i]? = some v := by
  unfold icAt
  split
  · next q hq => simp [hq]
  · next hq => simp [hq]

theorem sums_iff {l : List (Word × ℕ)} : l.foldlM (addTerm P vk) v = .ok w ↔ Sums P vk v l w := by
  induction l generalizing v with
  | nil =>
    rw [List.foldlM_nil]
    constructor
    · intro h
      obtain rfl := Except.ok.inj h
      exact .nil
    · intro h
      cases h
      rfl
  | cons t l ih =>
    obtain ⟨x, i⟩ := t
    simp only [List.foldlM_cons, addTerm, g1ScalarMul, g1Add, bind_ok_iff, icAt_ok_iff, staticcall_ok_iff, ih]
    constructor
    · rintro ⟨v', ⟨q, hq, term, hmul, hadd⟩, hrest⟩
      exact .cons hq hmul hadd hrest
    · intro h
      cases h with
      | cons hq hmul hadd hrest => exact ⟨_, ⟨_, hq, _, hmul, hadd⟩, hrest⟩

/-- A verification ends exactly if no curve operation fails. -/
theorem verifyGroth16_ok_iff : (∃ b, verifyGroth16 P vk p inputs = .ok b) ↔ Operable P vk p inputs := by
  simp only [verifyGroth16, pairing4, bind_ok_iff, icAt_ok_iff, sums_iff, staticcall_ok_iff]
  constructor
  · rintro ⟨b, ic0, hic, vkX, hsum, out, hpair, -⟩
    exact ⟨ic0, vkX, out, hic, hsum, hpair⟩
  · rintro ⟨ic0, vkX, out, hic, hsum, hpair⟩
    exact ⟨_, ic0, hic, vkX, hsum, out, hpair, rfl⟩

/-- It fails if one of the points of the proof is off the curve. -/
theorem Operable.onCurve (h : Operable P vk p inputs) : OnCurve (g1Negate p.a) ∧ OnCurve p.c := by
  obtain ⟨ic0, vkX, out, -, -, hpair⟩ := h
  generalize g1Negate p.a = negA at *
  have hcurve := P.ecPairing_onCurve hpair
  exact ⟨hcurve (negA, p.b) (by simp), hcurve (p.c, vk.delta2) (by simp)⟩

/-! ## Batches -/

/-- A proof and its inputs have the right lengths. -/
def Fits (vk : VerificationKey) (member : Bytes × List Word) : Prop :=
  member.1.length = 256 ∧ member.2.length + 1 = vk.ic.length

instance (vk : VerificationKey) (member : Bytes × List Word) : Decidable (Fits vk member) :=
  inferInstanceAs (Decidable (_ ∧ _))

/-- What is recorded for a member. -/
def verdict (P : Precompiles) (vk : VerificationKey) (member : Bytes × List Word) : Bool :=
  if Fits vk member then
    match verifyGroth16 P vk (decodeProof member.1) member.2 with
    | .ok valid => valid
    | .error _ => false
  else false

/-- What is counted for the inclusion of an event. -/
def included (P : Precompiles) (vk : VerificationKey) (eventHash : Word) (proof : Bytes) : Bool :=
  match verifyGroth16 P vk (decodeProof proof) [eventHash] with
  | .ok valid => valid
  | .error _ => false

/-- A member does not block a batch. -/
def Tolerable (P : Precompiles) (vk : VerificationKey) (member : Bytes × List Word) : Prop :=
  Fits vk member → Operable P vk (decodeProof member.1) member.2

variable {msg : Msg} {s s' : Storage} {m : Bytes × List Word} {l : List (Bytes × List Word)} {n : ℕ}
  {results : List Bool}

theorem run_verifyEventZkProof (h : Fits s.vk m) : (verifyEventZkProof P m.1 m.2).run msg s =
    (ofView (verifyGroth16 P s.vk (decodeProof m.1) m.2) : Fn Bool).run msg s := by
  rw [verifyEventZkProof, run_bind_ok (run_revertIf_neg (not_not_intro h.1)), run_get_bind,
    run_bind_ok (run_revertIf_neg (not_not_intro h.2)), run_get_bind]

theorem run_verifyEventZkProof_error (h : ¬Fits s.vk m) :
    ∃ e, (verifyEventZkProof P m.1 m.2).run msg s = .error e := by
  by_cases hlen : m.1.length = 256
  · refine ⟨.error .invalidPublicInputsLength, ?_⟩
    rw [verifyEventZkProof, run_bind_ok (run_revertIf_neg (not_not_intro hlen)), run_get_bind]
    have hinputs : m.2.length + 1 ≠ s.vk.ic.length := fun h' => h ⟨hlen, h'⟩
    exact run_bind_error (run_revertIf_pos hinputs) _
  · refine ⟨.error .invalidProofLength, ?_⟩
    rw [verifyEventZkProof]
    exact run_bind_error (run_revertIf_pos hlen) _

/-- The verdict is that of a single verification, and negative where that one reverts. -/
theorem verdict_eq_true :
    verdict P s.vk m = true ↔ (verifyEventZkProof P m.1 m.2).run msg s = .ok (true, s) := by
  unfold verdict
  split_ifs with h
  · rw [run_verifyEventZkProof h]
    cases verifyGroth16 P s.vk (decodeProof m.1) m.2 with
    | ok valid => simp [run_ofView]
    | error e => simp [run_ofView]
  · obtain ⟨e, he⟩ := @run_verifyEventZkProof_error P msg s m h
    simp [he]

/-- The storage after the rounds for members with these verdicts. -/
def logged (msg : Msg) (verdicts : List Bool) (s : Storage) : Storage :=
  { s with
    logs := s.logs ++ List.replicate (verdicts.count true) (.proofVerified 0 msg.sender msg.timestamp true) }

theorem count_cons (b : Bool) (verdicts : List Bool) :
    (b :: verdicts).count true = [b].count true + verdicts.count true := by
  rw [← List.count_append]
  rfl

theorem logged_nil : logged msg [] s = s := by
  rw [logged, List.count_nil, List.replicate_zero, List.append_nil]

theorem logged_cons (b : Bool) (verdicts : List Bool) :
    logged msg verdicts (logged msg [b] s) = logged msg (b :: verdicts) s := by
  rw [logged, logged, logged, count_cons b verdicts, List.replicate_add, List.append_assoc]

theorem run_verifyMember_of_not_fits (h : ¬Fits s.vk m) :
    (verifyMember P (results, n) m).run msg s = .ok ((results ++ [false], n), s) := by
  unfold verifyMember
  by_cases hlen : m.1.length = 256
  · have hinputs : m.2.length + 1 ≠ s.vk.ic.length := fun h' => h ⟨hlen, h'⟩
    rw [if_neg (not_not_intro hlen), run_get_bind, if_pos hinputs]
    rfl
  · rw [if_pos hlen]
    rfl

theorem run_verifyMember_of_fits (h : Fits s.vk m) : (verifyMember P (results, n) m).run msg s =
    match verifyGroth16 P s.vk (decodeProof m.1) m.2 with
    | .ok b => .ok ((results ++ [b], n + [b].count true), logged msg [b] s)
    | .error e => .error (.error e) := by
  rw [verifyMember, if_neg (not_not_intro h.1), run_get_bind, if_neg (not_not_intro h.2), run_get_bind]
  cases hb : verifyGroth16 P s.vk (decodeProof m.1) m.2 with
  | error e => exact run_bind_error (run_ofView _) _
  | ok b =>
    rw [run_bind_ok (run_ofView _)]
    cases b with
    | false =>
      rw [if_neg Bool.false_ne_true]
      change Except.ok ((results ++ [false], n), s) = _
      simp [logged]
    | true => rfl

/-- **One member**: its verdict is recorded, unless it blocks the batch. -/
theorem run_verifyMember (h : Tolerable P s.vk m) : (verifyMember P (results, n) m).run msg s =
    .ok ((results ++ [verdict P s.vk m], n + [verdict P s.vk m].count true),
      logged msg [verdict P s.vk m] s) := by
  by_cases hfits : Fits s.vk m
  · obtain ⟨b, hb⟩ := verifyGroth16_ok_iff.2 (h hfits)
    rw [run_verifyMember_of_fits hfits, verdict, if_pos hfits, hb]
  · rw [run_verifyMember_of_not_fits hfits, verdict, if_neg hfits]
    simp [logged]

theorem tolerable_of_run {a : List Bool × ℕ} (h : (verifyMember P (results, n) m).run msg s = .ok (a, s')) :
    Tolerable P s.vk m := by
  intro hfits
  rw [run_verifyMember_of_fits hfits] at h
  cases hb : verifyGroth16 P s.vk (decodeProof m.1) m.2 with
  | ok b => exact verifyGroth16_ok_iff.1 ⟨b, hb⟩
  | error e => rw [hb] at h; cases h

/-- **All members**, if none of them blocks the batch. -/
theorem run_verifyMembers (h : ∀ m ∈ l, Tolerable P s.vk m) :
    (loop (verifyMember P) (results, n) l).run msg s =
      .ok ((results ++ l.map (verdict P s.vk), n + (l.map (verdict P s.vk)).count true),
        logged msg (l.map (verdict P s.vk)) s) := by
  induction l generalizing results n s with
  | nil =>
    rw [loop, List.map_nil, List.append_nil, logged_nil]
    rfl
  | cons m l ih =>
    have hrest : ∀ m' ∈ l, Tolerable P (logged msg [verdict P s.vk m] s).vk m' :=
      fun m' hm' => h m' (List.mem_cons_of_mem _ hm')
    rw [loop, run_bind_ok (run_verifyMember (h m List.mem_cons_self)), ih hrest, logged_cons, List.map_cons,
      count_cons (verdict P s.vk m) (l.map (verdict P s.vk)), Nat.add_assoc, List.append_assoc]
    rfl

theorem tolerable_of_run_loop {a : List Bool × ℕ}
    (h : (loop (verifyMember P) (results, n) l).run msg s = .ok (a, s')) : ∀ m ∈ l, Tolerable P s.vk m := by
  induction l generalizing results n s with
  | nil => exact fun m hm => absurd hm List.not_mem_nil
  | cons m l ih =>
    rw [loop] at h
    rcases hm : (verifyMember P (results, n) m).run msg s with e | ⟨⟨results', n'⟩, s₁⟩
    · rw [run_bind_error hm] at h
      cases h
    · rw [run_bind_ok hm] at h
      have htol := tolerable_of_run hm
      rw [run_verifyMember htol] at hm
      obtain rfl := (Prod.mk.inj (Except.ok.inj hm)).2
      intro m' hm'
      rcases List.mem_cons.1 hm' with rfl | hm'
      · exact htol
      · exact ih h m' hm'

variable {proofs : List Bytes} {publicInputsArray : List (List Word)}

/-- What a call that succeeds emits. -/
def logsOf (P : Precompiles) (vk : VerificationKey) : Msg × Op → List Log
  | (msg, .verifyBatchProof proofs publicInputsArray) =>
    let validCount := ((proofs.zip publicInputsArray).map (verdict P vk)).count true
    List.replicate validCount (.proofVerified 0 msg.sender msg.timestamp true) ++
      [.batchVerificationComplete proofs.length validCount msg.timestamp]
  | (msg, .verifyEventInclusion eventHash proof) =>
    [.proofVerified eventHash msg.sender msg.timestamp (included P vk eventHash proof)]

/-- A batch without members that block it has the verdicts of its members as its result. -/
theorem run_verifyBatchProof (hlen : proofs.length = publicInputsArray.length)
    (h : ∀ m ∈ proofs.zip publicInputsArray, Tolerable P s.vk m) :
    (verifyBatchProof P proofs publicInputsArray).run msg s =
      .ok ((proofs.zip publicInputsArray).map (verdict P s.vk),
        { s with logs := s.logs ++ logsOf P s.vk (msg, .verifyBatchProof proofs publicInputsArray) }) := by
  rw [verifyBatchProof, run_bind_ok (run_revertIf_neg (not_not_intro hlen)),
    run_bind_ok (run_verifyMembers h), logsOf, ← List.append_assoc]
  simp only [Nat.zero_add]
  rfl

theorem length_eq_of_verifyBatchProof (h : (verifyBatchProof P proofs publicInputsArray).run msg s =
    .ok (results, s')) : proofs.length = publicInputsArray.length := by
  by_contra hlen
  rw [verifyBatchProof, run_bind_error (run_revertIf_pos hlen)] at h
  cases h

theorem tolerable_of_verifyBatchProof (h : (verifyBatchProof P proofs publicInputsArray).run msg s =
    .ok (results, s')) : ∀ m ∈ proofs.zip publicInputsArray, Tolerable P s.vk m := by
  have hlen := length_eq_of_verifyBatchProof h
  rw [verifyBatchProof, run_bind_ok (run_revertIf_neg (not_not_intro hlen))] at h
  rcases hl : (loop (verifyMember P) ([], 0) (proofs.zip publicInputsArray)).run msg s with e | ⟨a, s₁⟩
  · rw [run_bind_error hl] at h
    cases h
  · exact tolerable_of_run_loop hl

/-- **Batches.**  A batch returns, with the verdict of a single verification for every member, exactly if no
    curve operation fails for a member whose proof and inputs have the right lengths. -/
theorem verifyBatchProof_iff (P : Precompiles) (msg : Msg) (s : Storage)
    (hlen : proofs.length = publicInputsArray.length) :
    (∃ results s', (verifyBatchProof P proofs publicInputsArray).run msg s = .ok (results, s') ∧
      results.length = proofs.length ∧
      ∀ (i : ℕ) proof inputs, proofs[i]? = some proof → publicInputsArray[i]? = some inputs →
        (results[i]? = some true ↔ (verifyEventZkProof P proof inputs).run msg s = .ok (true, s))) ↔
    ∀ (i : ℕ) proof inputs, proofs[i]? = some proof → publicInputsArray[i]? = some inputs →
      Fits s.vk (proof, inputs) → Operable P s.vk (decodeProof proof) inputs := by
  have hzip : ∀ {i : ℕ} {proof inputs}, proofs[i]? = some proof → publicInputsArray[i]? = some inputs →
      (proofs.zip publicInputsArray)[i]? = some (proof, inputs) := fun hp hi =>
    List.getElem?_zip_eq_some.2 ⟨hp, hi⟩
  constructor
  · rintro ⟨results, s', hrun, -, -⟩ i proof inputs hp hi
    exact tolerable_of_verifyBatchProof hrun _ (List.mem_of_getElem? (hzip hp hi))
  · intro h
    have htol : ∀ m ∈ proofs.zip publicInputsArray, Tolerable P s.vk m := by
      intro m hm
      obtain ⟨i, hi⟩ := List.mem_iff_getElem?.1 hm
      obtain ⟨hp, hi⟩ := List.getElem?_zip_eq_some.1 hi
      exact h i m.1 m.2 hp hi
    have hrun := @run_verifyBatchProof P msg s _ _ hlen htol
    refine ⟨_, _, hrun, ?_, fun i proof inputs hp hi => ?_⟩
    · rw [List.length_map, List.length_zip, ← hlen, Nat.min_self]
    · rw [List.getElem?_map, hzip hp hi, Option.map_some, Option.some.injEq]
      exact verdict_eq_true

/-! ## Runs -/

/-- The calls that are counted. -/
def Op.isInclusion : Op → Bool
  | verifyEventInclusion _ _ => true
  | verifyBatchProof _ _ => false

/-- Those that are counted as successful. -/
def Op.isIncluded (P : Precompiles) (vk : VerificationKey) : Op → Bool
  | verifyEventInclusion eventHash proof => included P vk eventHash proof
  | verifyBatchProof _ _ => false

/-- **What a call that succeeds leaves.** -/
theorem eq_of_step {c : Msg × Op} (h : Steps (exec P) s c s') : s' = { s with
    totalVerifications := s.totalVerifications + c.2.isInclusion.toNat
    successfulVerifications := s.successfulVerifications + (c.2.isIncluded P s.vk).toNat
    logs := s.logs ++ logsOf P s.vk c } := by
  obtain ⟨r, hr⟩ := h
  obtain ⟨msg, op⟩ := c
  refine Post.of_run (Q := fun _ s' => s' = { s with
    totalVerifications := s.totalVerifications + op.isInclusion.toNat
    successfulVerifications := s.successfulVerifications + (op.isIncluded P s.vk).toNat
    logs := s.logs ++ logsOf P s.vk (msg, op) }) ?_ hr
  cases op with
  | verifyBatchProof proofs publicInputsArray =>
    rw [exec, post_bind]
    intro results s₁ hs₁
    have hrun := @run_verifyBatchProof P msg s _ _ (length_eq_of_verifyBatchProof hs₁)
      (tolerable_of_verifyBatchProof hs₁)
    obtain ⟨-, rfl⟩ := Prod.mk.inj (Except.ok.inj (hs₁.symm.trans hrun))
    exact post_pure.2 rfl
  | verifyEventInclusion eventHash proof =>
    simp only [exec, verifyEventInclusion, post_bind, post_revertIf, post_get, post_ofView, post_addChecked,
      post_modify, post_doIf, post_getMsg, post_pure]
    intro _ _ valid hvalid _
    have hincluded : included P s.vk eventHash proof = valid := by
      rw [included, hvalid]
    simp only [Op.isInclusion, Op.isIncluded, logsOf, hincluded]
    cases valid with
    | true => exact ⟨fun _ _ => rfl, fun h => absurd rfl h⟩
    | false => exact ⟨fun h => absurd h Bool.false_ne_true, fun _ => rfl⟩

/-- **The storage after calls**: they are counted, and the logs are theirs. -/
structure Counted (P : Precompiles) (s₀ : Storage) (calls : List (Msg × Op)) (s : Storage) : Prop where
  key : s.vk = s₀.vk
  owner : s.owner = s₀.owner
  total : s.totalVerifications = s₀.totalVerifications + calls.countP (·.2.isInclusion)
  successful : s.successfulVerifications =
    s₀.successfulVerifications + calls.countP (·.2.isIncluded P s₀.vk)
  logs : s.logs = s₀.logs ++ calls.flatMap (logsOf P s₀.vk)

/-- One more call. -/
theorem Counted.step {s₀ : Storage} {calls : List (Msg × Op)} {c : Msg × Op} (h : Counted P s₀ calls s)
    (hs : Steps (exec P) s c s') : Counted P s₀ (calls ++ [c]) s' := by
  obtain rfl := eq_of_step hs
  refine ⟨h.key, h.owner, ?_, ?_, ?_⟩
  · show s.totalVerifications + _ = _
    rw [h.total, List.countP_append, Nat.add_assoc]
    cases hc : c.2.isInclusion <;> simp [hc]
  · show s.successfulVerifications + _ = _
    rw [h.successful, h.key, List.countP_append, Nat.add_assoc]
    cases hc : c.2.isIncluded P s₀.vk <;> simp [hc]
  · show s.logs ++ _ = _
    rw [h.logs, h.key, List.flatMap_append, List.flatMap_singleton, List.append_assoc]

/-- **The key never changes**, and every inclusion is counted with its verdict; members of batches are not. -/
theorem run_counted {s₀ : Storage} {tr : List (Storage × (Msg × Op))} (h : Run (Steps (exec P)) s₀ tr s) :
    Counted P s₀ (tr.map Prod.snd) s := by
  induction h with
  | init => exact ⟨rfl, rfl, rfl, rfl, (List.append_nil _).symm⟩
  | @snoc tr s s' c h hs ih =>
    rw [List.map_append]
    exact ih.step hs

/-! ## A batch of two -/

/-- Curve operations that end on the curve and in the point at infinity, and pairings that hold. -/
def infinityPrecompiles : Precompiles where
  ecAdd a b := if OnCurve a ∧ OnCurve b then some ⟨0, 0⟩ else none
  ecMul p _ := if OnCurve p then some ⟨0, 0⟩ else none
  ecPairing l := if ∀ p ∈ l, OnCurve p.1 then some 1 else none
  ecAdd_onCurve h := (Option.ite_none_right_eq_some.1 h).1
  ecMul_onCurve h := (Option.ite_none_right_eq_some.1 h).1
  ecPairing_onCurve h := (Option.ite_none_right_eq_some.1 h).1

/-- A verifier for statements without public inputs. -/
def infinityKey : VerificationKey :=
  ⟨⟨0, 0⟩, ⟨(0, 0), (0, 0)⟩, ⟨(0, 0), (0, 0)⟩, ⟨(0, 0), (0, 0)⟩, [⟨0, 0⟩]⟩

/-- A proof of points at infinity. -/
def infinityProof : Bytes := List.replicate 256 0

/-- The same proof with a first point that is off the curve. -/
def offCurveProof : Bytes := List.replicate 63 0 ++ 1 :: List.replicate 192 0

theorem verifyGroth16_infinityProof :
    verifyGroth16 infinityPrecompiles infinityKey (decodeProof infinityProof) [] = .ok true := by
  decide

/-- The point is off the curve, so that its verification fails. -/
theorem not_operable_offCurveProof :
    ¬Operable infinityPrecompiles infinityKey (decodeProof offCurveProof) [] :=
  fun h => absurd h.onCurve.1 (by decide)

/-- A verifier with this key. -/
def infinityStorage : Storage := { vk := infinityKey, owner := 1 }

theorem run_infinityProof (msg : Msg) : (verifyEventZkProof infinityPrecompiles infinityProof []).run msg
    infinityStorage = .ok (true, infinityStorage) := by
  have hfits : Fits infinityKey (infinityProof, []) := ⟨List.length_replicate, rfl⟩
  have hrun := @run_verifyEventZkProof infinityPrecompiles msg infinityStorage _ hfits
  rw [run_ofView] at hrun
  exact hrun.trans (by rw [infinityStorage, verifyGroth16_infinityProof])

/-- A valid proof beside one that is too short. -/
theorem verifyBatchProof_iff_two : ∃ results s',
    (verifyBatchProof infinityPrecompiles [infinityProof, []] [[], []]).run ⟨1, 0⟩ infinityStorage =
      .ok (results, s') ∧ results[0]? = some true ∧ results[1]? ≠ some true := by
  obtain ⟨results, s', hrun, -, hresults⟩ := (verifyBatchProof_iff infinityPrecompiles ⟨1, 0⟩ infinityStorage
    (show [infinityProof, []].length = [([] : List Word), []].length from rfl)).2 (by
      intro i proof inputs hproof hinputs hfits
      match i with
      | 0 =>
        obtain rfl := Option.some.inj hproof
        obtain rfl := Option.some.inj hinputs
        exact verifyGroth16_ok_iff.1 ⟨true, verifyGroth16_infinityProof⟩
      | 1 =>
        obtain rfl := Option.some.inj hproof
        cases hfits.1
      | i + 2 => cases hproof)
  refine ⟨results, s', hrun, (hresults 0 infinityProof [] rfl rfl).2 (run_infinityProof _), fun h => ?_⟩
  have hshort := (hresults 1 [] [] rfl rfl).1 h
  cases hshort

/-- One proof with a point that is off the curve blocks a batch; the other one is valid. -/
theorem batch_blocked :
    (verifyEventZkProof infinityPrecompiles infinityProof []).run ⟨1, 0⟩ infinityStorage =
      .ok (true, infinityStorage) ∧
    ∀ results s', (verifyBatchProof infinityPrecompiles [infinityProof, offCurveProof] [[], []]).run ⟨1, 0⟩
      infinityStorage ≠ .ok (results, s') := by
  refine ⟨run_infinityProof _, fun results s' hrun => not_operable_offCurveProof ?_⟩
  have hmem : (offCurveProof, []) ∈ [infinityProof, offCurveProof].zip [([] : List Word), []] :=
    List.mem_cons_of_mem _ List.mem_cons_self
  refine tolerable_of_verifyBatchProof hrun _ hmem ⟨?_, rfl⟩
  rw [offCurveProof, List.length_append, List.length_cons, List.length_replicate, List.length_replicate]

/-- A verifier for statements with one public input. -/
def inclusionStorage : Storage := { vk := { infinityKey with ic := [⟨0, 0⟩, ⟨0, 0⟩] }, owner := 1 }

/-- A batch with a valid proof and one that is too short, and the inclusion of the event 7. -/
def inclusionScript : List (Msg × Op) :=
  [(⟨1, 10⟩, .verifyBatchProof [infinityProof, []] [[5], []]),
   (⟨1, 20⟩, .verifyEventInclusion 7 infinityProof)]

/-- Only the inclusion is counted. -/
theorem run_counted_inclusion : ∃ tr s, Run (Steps (exec infinityPrecompiles)) inclusionStorage tr s ∧
    tr.map Prod.snd = inclusionScript ∧ s.totalVerifications = 1 ∧ s.successfulVerifications = 1 ∧
    s.logs = [.proofVerified 0 1 10 true, .batchVerificationComplete 2 1 10, .proofVerified 7 1 20 true] := by
  obtain ⟨s, hs⟩ : ∃ s, play (exec infinityPrecompiles) inclusionStorage inclusionScript = some s :=
    Option.isSome_iff_exists.1 (by decide +kernel)
  obtain ⟨hrun, hmap⟩ := run_of_play hs
  have hcounted := run_counted hrun
  rw [hmap] at hcounted
  refine ⟨_, s, hrun, hmap, hcounted.total, hcounted.successful.trans ?_, hcounted.logs.trans ?_⟩
  · decide +kernel
  · decide +kernel

end ZkVerifier
