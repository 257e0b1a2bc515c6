/-
  AuditLedgerVerifier — what the signatures are about.

  An event is reported with its hash, its ledger and its index.  The quorum signs the hash,
  the ledger and the transaction; the index is what the caller says it is.

  * `reports_signed`: in every run, whatever is reported was signed by a quorum of the signers
    of that time, but for its index; and nothing is reported twice;
  * `verifyEvent_index`: no index is refused, and none is preferred;
  * `index_unsigned`: so an index is reported that no signer has seen.
-/
import AuditTransparency.Evm.Threshold

namespace AuditLedgerVerifier

open Soroban (Run byteAt eq_of_byteAt)
open Solidity
open Solidity.Tx

variable {W : Type} {H : Host W} {msg : Msg} {s s₀ : Storage W} {tr : List (Storage W × (Msg × Op W))}

/-! ## Digests -/

theorem bigEndian_injective : Function.Injective bigEndian := by
  intro m n h
  simp only [bigEndian, List.cons.injEq, and_true] at h
  obtain ⟨h₅₆, h₄₈, h₄₀, h₃₂, h₂₄, h₁₆, h₈, h₀⟩ := h
  refine UInt64.toNat.inj (eq_of_byteAt (n := 8) m.toNat_lt n.toNat_lt fun i hi => ?_)
  rcases i with _ | _ | _ | _ | _ | _ | _ | _ | i
  rotate_right
  · omega
  all_goals assumption

/-- `keccak256` has no collisions, and packed hashes can be told apart. -/
structure Host.CollisionFree (H : Host W) : Prop where
  keccak256 : Function.Injective H.keccak256
  bytes32 : ∀ a b r t, H.bytes32 a ++ r = H.bytes32 b ++ t → a = b ∧ r = t

/-- The digest says which event was signed. -/
theorem Host.CollisionFree.signedDigest_inj (hH : H.CollisionFree) {m n : UInt64} {t t' e e' : W}
    (h : signedDigest H m t e = signedDigest H n t' e') : m = n ∧ t = t' ∧ e = e' := by
  have hdigest := List.append_cancel_left (hH.keccak256 h)
  have hframed : ∀ {a b : W}, H.bytes32 a = H.bytes32 b → a = b := by
    intro a b hab
    exact (hH.bytes32 a b [] [] (by rw [hab])).1
  have hpacked := hH.keccak256 (hframed hdigest)
  simp only [packedEvent, List.append_assoc] at hpacked
  obtain ⟨hseq, hrest⟩ := List.append_inj hpacked rfl
  obtain ⟨ht, he⟩ := hH.bytes32 _ _ _ _ hrest
  exact ⟨bigEndian_injective hseq, ht, hframed he⟩

/-- An event of the ledger. -/
structure Event (W : Type) where
  ledgerSeq : UInt64
  txHash : W
  eventIndex : UInt32
  eventHash : W

/-- Honest signers sign the digests of events that they have observed, and no others. -/
def SignsObserved (H : Host W) (honest : Address → Prop) (observed : Address → Event W → Prop) : Prop :=
  ∀ a d g, honest a → Recovers H d g a →
    ∃ v, observed a v ∧ d = signedDigest H v.ledgerSeq v.txHash v.eventHash

/-! ## Reports -/

theorem recordProof_ok [DecidableEq W] (n : UInt64) (i : UInt32) (e : W) :
    ∃ s', (recordProof n i e).run msg s = .ok (true, s') :=
  ⟨_, calc (recordProof n i e).run msg s
    _ = _ := run_bind_ok rfl _
    _ = _ := run_bind_ok rfl _
    _ = _ := run_bind_ok (run_doIf_modify _ _) _⟩

/-- No index makes a difference to whether a proof is accepted. -/
theorem verifyEvent_index [DecidableEq W] (n : UInt64) (t : W) (i j : UInt32) (e : W) (G : List Bytes)
    (h : ∃ s', (verifyEvent H n t i e G).run msg s = .ok (true, s')) :
    ∃ s', (verifyEvent H n t j e G).run msg s = .ok (true, s') := by
  obtain ⟨s', h⟩ := h
  rcases hc : (checkProof H n t e G).run msg s with r | ⟨u, s₁⟩
  · rw [verifyEvent, run_bind_error hc] at h
    cases h
  · rw [verifyEvent, run_bind_ok hc]
    exact recordProof_ok n j e

theorem verifyEvent_index_iff [DecidableEq W] (n : UInt64) (t : W) (i j : UInt32) (e : W) (G : List Bytes) :
    (∃ s', (verifyEvent H n t i e G).run msg s = .ok (true, s')) ↔
      ∃ s', (verifyEvent H n t j e G).run msg s = .ok (true, s') :=
  ⟨verifyEvent_index n t i j e G, verifyEvent_index n t j i e G⟩

/-- A report is of an accepted proof. -/
theorem mem_acceptedReports {r : Report W} (h : r ∈ acceptedReports tr) : ∃ before s₁ msg t G after,
    tr = before ++ (s₁, msg, .verifyEvent r.ledgerSeq t r.eventIndex r.eventHash G) :: after := by
  obtain ⟨⟨s₁, msg, o⟩, hp, hr⟩ := List.mem_filterMap.1 h
  obtain ⟨before, after, rfl⟩ := List.append_of_mem hp
  cases o with
  | verifyEvent n t i e G =>
    cases hr
    exact ⟨before, s₁, msg, t, G, after, rfl⟩
  | _ => cases hr

/-- Whoever has signed has made one of the signatures. -/
theorem exists_recovers {d : W} {G : List Bytes} {A : List Address} (h : List.Forall₂ (Recovers H d) G A)
    {a : Address} (ha : a ∈ A) : ∃ g ∈ G, Recovers H d g a := by
  induction h with
  | nil => cases ha
  | @cons g b G A hg _ ih =>
    rcases List.mem_cons.1 ha with rfl | ha
    · exact ⟨g, List.mem_cons_self, hg⟩
    · obtain ⟨g', hg', hrec⟩ := ih ha
      exact ⟨g', List.mem_cons_of_mem _ hg', hrec⟩

/-- **What the quorum signs.**  Every report comes from an accepted proof: a quorum of the signers of that
    time has signed its hash and its ledger, and the honest ones among them have observed an event with
    these.  No event is reported twice.  The index is the caller's: whichever it is, the proof is accepted
    or refused all the same. -/
theorem reports_signed [DecidableEq W] {honest : Address → Prop} {observed : Address → Event W → Prop}
    {l : List Address} {k : UInt8} {a : Address} (hH : H.CollisionFree)
    (hhonest : SignsObserved H honest observed)
    (h₀ : (initializeVerifier l k a).run msg {} = .ok ((), s₀)) (h : Run (Steps (exec H)) s₀ tr s) :
    (∀ r ∈ reports s, ∃ before s₁ msg' t G after,
      tr = before ++ (s₁, msg', .verifyEvent r.ledgerSeq t r.eventIndex r.eventHash G) :: after ∧
      ∃ A : List Address, A.Nodup ∧ (∀ a ∈ A, a ∈ s₁.signers) ∧ s₁.threshold.toNat ≤ A.length ∧
        List.Forall₂ (Recovers H (signedDigest H r.ledgerSeq t r.eventHash)) G A ∧
        ∀ a ∈ A, honest a → ∃ v, observed a v ∧
          v.ledgerSeq = r.ledgerSeq ∧ v.txHash = t ∧ v.eventHash = r.eventHash) ∧
      ((reports s).map Report.eventHash).Nodup ∧
      ∀ s₁ msg' n t i j e G, (∃ s₂, (verifyEvent H n t i e G).run msg' s₁ = .ok (true, s₂)) ↔
        ∃ s₂, (verifyEvent H n t j e G).run msg' s₁ = .ok (true, s₂) := by
  have hinit := registered_of_init h₀
  obtain ⟨-, -, hver⟩ := run_kept hinit h
  refine ⟨?_, ?_, fun _ _ n t i j e G => verifyEvent_index_iff n t i j e G⟩
  · intro r hr
    rw [hver.logged] at hr
    obtain ⟨before, s₁, msg', t, G, after, rfl⟩ := mem_acceptedReports hr
    obtain ⟨A, hA, hnodup, hsigners, hle⟩ := (accepted_of_run hinit h).quorum
    refine ⟨before, s₁, msg', t, G, after, rfl, A, hnodup, hsigners, hle, hA, ?_⟩
    intro a ha hhon
    obtain ⟨g, -, hg⟩ := exists_recovers hA ha
    obtain ⟨v, hv, hd⟩ := hhonest a _ g hhon hg
    obtain ⟨hn, ht, he⟩ := hH.signedDigest_inj hd
    exact ⟨v, hv, hn.symm, ht.symm, he.symm⟩
  · rw [hver.logged]
    exact hver.once

/-! ## An index that nobody has seen -/

/-- Bytes that say where they end. -/
def marked : Bytes → Bytes
  | [] => [0]
  | b :: d => 1 :: b :: marked d

/-- A chain without collisions, where nothing is signed. -/
def markedHost : Host Bytes := ⟨id, marked, fun _ _ _ _ => 0⟩

/-- The event in ledger 30 with index 4. -/
def seenEvent : Event Bytes := ⟨30, [2], 4, [3]⟩

def seenDigest : Bytes := signedDigest markedHost seenEvent.ledgerSeq seenEvent.txHash seenEvent.eventHash

/-- The chain where the signer 7 has signed this event. -/
def seenHost : Host Bytes := { markedHost with ecrecover := fun d _ _ _ => if d = seenDigest then 7 else 0 }

theorem seenHost_collisionFree : seenHost.CollisionFree := by
  refine ⟨Function.injective_id, ?_⟩
  intro a
  induction a with
  | nil =>
    intro b r t h
    cases b with
    | nil => exact ⟨rfl, (List.cons.inj h).2⟩
    | cons y b => cases (List.cons.inj h).1
  | cons x a ih =>
    intro b r t h
    cases b with
    | nil => cases (List.cons.inj h).1
    | cons y b =>
      obtain ⟨hxy, h'⟩ := List.cons.inj (List.cons.inj h).2
      obtain ⟨hab, hrt⟩ := ih b r t h'
      exact ⟨by rw [hxy, hab], hrt⟩

theorem seenHost_signsObserved :
    SignsObserved seenHost (fun _ => True) (fun a v => a = 7 ∧ v = seenEvent) := by
  rintro a d g - ⟨-, -, hrec, hne⟩
  change (if d = seenDigest then (7 : Address) else 0) = a at hrec
  rcases eq_or_ne d seenDigest with hd | hd
  · rw [if_pos hd] at hrec
    exact ⟨seenEvent, ⟨hrec.symm, rfl⟩, hd⟩
  · rw [if_neg hd] at hrec
    exact absurd hrec.symm hne

/-- The event is verified, and reported with another index than its own. -/
def seenScript : List (Msg × Op Bytes) := [(⟨5, 0⟩, .verifyEvent 30 [2] 5 [3] [List.replicate 65 27])]

theorem reports_signed_seenScript : ∃ s₀ s : Storage Bytes,
    (initializeVerifier [7] 1 9).run ⟨1, 0⟩ {} = .ok ((), s₀) ∧ play (exec seenHost) s₀ seenScript = some s ∧
      reports s = [⟨[3], 30, 5⟩] ∧ ((reports s).map Report.eventHash).Nodup ∧
      ∃ (G : List Bytes) (A : List Address),
        List.Forall₂ (Recovers seenHost (signedDigest seenHost 30 seenEvent.txHash [3])) G A ∧
        ∀ a ∈ A, ∃ v : Event Bytes, a = 7 ∧ v = seenEvent ∧ v.eventHash = [3] := by
  refine ⟨_, _, rfl, rfl, rfl, ?_⟩
  obtain ⟨hreports, hnodup, -⟩ := reports_signed seenHost_collisionFree seenHost_signsObserved
    (rfl : (initializeVerifier [7] 1 9).run ⟨1, 0⟩ {} = .ok ((), _))
    (run_of_play (rfl : play (exec seenHost) _ seenScript = some _)).1
  obtain ⟨before, s₁, msg, t, G, after, htr, A, -, -, -, hrec, hseen⟩ := hreports ⟨[3], 30, 5⟩ (by decide)
  have hmem : (s₁, msg, Op.verifyEvent 30 t 5 [3] G) ∈
      traceOf (exec seenHost) _ seenScript := htr ▸ List.mem_append_right before List.mem_cons_self
  obtain rfl : [2] = t := by cases List.mem_singleton.1 hmem; rfl
  refine ⟨hnodup, G, A, hrec, ?_⟩
  intro a ha
  obtain ⟨v, ⟨ha7, hv⟩, -, -, he⟩ := hseen a ha trivial
  exact ⟨v, ha7, hv, he⟩

/-- Two calls from one state, with the same signatures for the same event but with different indices, are
    both accepted, and one of them reports an index that no signer has seen. -/
theorem index_unsigned : seenHost.CollisionFree ∧
    SignsObserved seenHost (fun _ => True) (fun a v => a = 7 ∧ v = seenEvent) ∧
    ∃ s₀ s₄ s₅ : Storage Bytes, (initializeVerifier [7] 1 9).run ⟨1, 0⟩ {} = .ok ((), s₀) ∧
      (verifyEvent seenHost 30 [2] 4 [3] [List.replicate 65 27]).run ⟨5, 0⟩ s₀ = .ok (true, s₄) ∧
      (verifyEvent seenHost 30 [2] 5 [3] [List.replicate 65 27]).run ⟨5, 0⟩ s₀ = .ok (true, s₅) ∧
      reports s₅ = [⟨[3], 30, 5⟩] ∧ ∀ a v, a = 7 ∧ v = seenEvent → v.eventIndex ≠ 5 := by
  refine ⟨seenHost_collisionFree, seenHost_signsObserved, _, _, _, rfl, rfl, rfl, rfl, ?_⟩
  rintro a v ⟨-, rfl⟩
  decide

end AuditLedgerVerifier
