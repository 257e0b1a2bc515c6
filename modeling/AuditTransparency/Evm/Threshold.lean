/-
  AuditLedgerVerifier — what is verified, over whole runs.

  * `Effect`: what a call can do; every call falls under one of its cases;
  * `Registered`: the list and the set of the signers agree and the threshold can be met;
  * `Verified`: what the proofs accepted so far have left;
  * `run_verified`: both hold in every run from initialization on, and every accepted proof
    was signed by a quorum of the signers registered at that time.
-/
import AuditTransparency.Evm.Verifier
import Mathlib.Data.List.TakeDrop

namespace AuditLedgerVerifier

open Soroban (Run filterMap_concat)
open Solidity
open Solidity.Tx

variable {W : Type} {H : Host W} {msg : Msg} {s s₀ s' : Storage W} {c : Msg × Op W}
  {tr : List (Storage W × (Msg × Op W))}

/-! ## Effects -/

/-- What an `EventVerified` log says. -/
structure Report (W : Type) where
  eventHash : W
  ledgerSeq : UInt64
  eventIndex : UInt32
  deriving DecidableEq

def Log.report? : Log W → Option (Report W)
  | .eventVerified eventHash ledgerSeq eventIndex => some ⟨eventHash, ledgerSeq, eventIndex⟩
  | _ => none

/-- The events that were reported as verified. -/
def reports (s : Storage W) : List (Report W) := s.logs.filterMap Log.report?

/-- The part of the storage that verification reads and writes. -/
structure View (W : Type) where
  signers : List Address
  isSigner : Address → Bool
  threshold : UInt8
  verifiedEvents : W → Bool
  latestAcceptedLedger : UInt64
  reports : List (Report W)

def view (s : Storage W) : View W :=
  ⟨s.signers, s.isSigner, s.threshold, s.verifiedEvents, s.latestAcceptedLedger, reports s⟩

/-- What a call does to the part of the storage that verification is about. -/
inductive Effect [DecidableEq W] (H : Host W) (s : Storage W) : Op W → Storage W → Prop where
  | initialized {l k a s'} : s.initialized = false → Effect H s (.initializeVerifier l k a) s'
  | verified {n t i h G s'} : Proven H s n t h G → s'.initialized = s.initialized →
      view s' = { view s with
        verifiedEvents := Function.update s.verifiedEvents h true
        latestAcceptedLedger := if s.latestAcceptedLedger < n then n else s.latestAcceptedLedger
        reports := reports s ++ [⟨h, n, i⟩] } →
      Effect H s (.verifyEvent n t i h G) s'
  | rotated {l k s'} : 1 ≤ k.toNat → k.toNat ≤ l.length → l.Nodup → s'.initialized = s.initialized →
      view s' = { view s with
        signers := l
        isSigner := fun a => s.isSigner a && decide (a ∉ s.signers) || decide (a ∈ l)
        threshold := k } →
      Effect H s (.updateSigners l k) s'
  | other {o s'} : (∀ n t i h G, o ≠ .verifyEvent n t i h G) → s'.initialized = s.initialized →
      view s' = view s → Effect H s o s'

theorem post_verifyEvent [DecidableEq W] {n : UInt64} {t h : W} {i : UInt32} {G : List Bytes} :
    Post (verifyEvent H n t i h G) (fun _ s' => Effect H s (.verifyEvent n t i h G) s') msg s := by
  simp only [verifyEvent, recordProof, post_bind, post_get, post_modify, post_doIf, post_pure]
  refine post_checkProof.mono ?_
  rintro - s₁ ⟨rfl, hproven⟩
  constructor <;> intro hn <;> refine .verified hproven rfl ?_
  · simp [view, reports, Log.report?, if_pos hn]
  · simp [view, reports, Log.report?, if_neg hn]

theorem one_le_of_ne_zero {k : UInt8} (h : k ≠ 0) : 1 ≤ k.toNat := by
  rw [Nat.one_le_iff_ne_zero]
  intro hk
  exact h (UInt8.toNat_inj.1 hk)

theorem post_updateSigners [DecidableEq W] {l : List Address} {k : UInt8} :
    Post (updateSigners l k) (fun _ s' => Effect H s (.updateSigners l k) s') msg s := by
  simp only [updateSigners, onlyOwner, post_bind, post_getMsg, post_get, post_revertIf, post_clearSigners,
    post_registerSigners, post_modify, not_or, not_lt]
  rintro - ⟨hk, hle⟩ hnodup -
  exact .rotated (one_le_of_ne_zero hk) hle hnodup rfl (by simp [view, reports, Log.report?])

theorem effect_of_step [DecidableEq W] (hs : Steps (exec H) s c s') : Effect H s c.2 s' := by
  obtain ⟨msg, o⟩ := c
  obtain ⟨r, hr⟩ := hs
  refine Post.of_run (Q := fun _ s' => Effect H s o s') ?_ hr
  cases o with
  | initializeVerifier l k a =>
    simp only [exec, initializeVerifier, post_bind, post_getMsg, post_get, post_revertIf,
      post_registerSigners, post_modify, Bool.not_eq_true]
    exact fun hfresh _ _ _ _ => .initialized hfresh
  | verifyEvent n t i h G =>
    simp only [exec, post_bind, post_pure]
    exact post_verifyEvent
  | updateSigners l k => exact post_updateSigners
  | migrateStorage k =>
    simp only [exec, migrateStorage, onlyUpgradeAdmin, post_bind, post_getMsg, post_get, post_revertIf,
      post_doIf, post_modify]
    intro _ _
    refine ⟨fun _ => ⟨fun _ => ?_, fun _ => ?_⟩, fun _ => ?_⟩ <;>
      exact .other (by rintro _ _ _ _ _ ⟨⟩) rfl (by simp [view, reports, Log.report?])
  | transferUpgradeAdmin a =>
    simp only [exec, transferUpgradeAdmin, onlyUpgradeAdmin, post_bind, post_getMsg, post_get,
      post_revertIf, post_modify]
    exact fun _ _ => .other (by rintro _ _ _ _ _ ⟨⟩) rfl (by simp [view, reports, Log.report?])
  | updateMaxLedgerAge n =>
    simp only [exec, updateMaxLedgerAge, onlyOwner, post_bind, post_getMsg, post_get, post_revertIf,
      post_modify]
    exact fun _ => .other (by rintro _ _ _ _ _ ⟨⟩) rfl rfl
  | transferOwnership a =>
    simp only [exec, transferOwnership, onlyOwner, post_bind, post_getMsg, post_get, post_revertIf,
      post_modify]
    exact fun _ _ => .other (by rintro _ _ _ _ _ ⟨⟩) rfl (by simp [view, reports, Log.report?])

/-! ## Invariants -/

/-- The signers are kept twice, without repetition, and the threshold can be met. -/
structure Registered (s : Storage W) : Prop where
  members : ∀ a, s.isSigner a = true ↔ a ∈ s.signers
  nodup : s.signers.Nodup
  pos : 1 ≤ s.threshold.toNat
  le : s.threshold.toNat ≤ s.signers.length

/-- What an accepted proof was submitted for. -/
def acceptedReport? (p : Storage W × (Msg × Op W)) : Option (Report W) :=
  match p.2.2 with
  | .verifyEvent ledgerSeq _ eventIndex eventHash _ => some ⟨eventHash, ledgerSeq, eventIndex⟩
  | _ => none

/-- The proofs accepted. -/
def acceptedReports (tr : List (Storage W × (Msg × Op W))) : List (Report W) := tr.filterMap acceptedReport?

/-- What the accepted proofs have left. -/
structure Verified (tr : List (Storage W × (Msg × Op W))) (s : Storage W) : Prop where
  verified : ∀ h, s.verifiedEvents h = true ↔ ∃ r ∈ acceptedReports tr, r.eventHash = h
  once : ((acceptedReports tr).map Report.eventHash).Nodup
  latest : s.latestAcceptedLedger.toNat = ((acceptedReports tr).map fun r => r.ledgerSeq.toNat).foldl max 0
  logged : reports s = acceptedReports tr

/-- What a proof is accepted for: signers registered at that time have signed it, a quorum of
    them, and it is recent. -/
structure Accepted (H : Host W) (s : Storage W) (ledgerSeq : UInt64) (txHash eventHash : W)
    (signatures : List Bytes) : Prop where
  quorum : ∃ A : List Address,
    List.Forall₂ (Recovers H (signedDigest H ledgerSeq txHash eventHash)) signatures A ∧
    A.Nodup ∧ (∀ a ∈ A, a ∈ s.signers) ∧ s.threshold.toNat ≤ A.length
  recent : s.latestAcceptedLedger.toNat - s.maxLedgerAge.toNat ≤ ledgerSeq.toNat

theorem registered_of_init {l : List Address} {k : UInt8} {a : Address}
    (h : (initializeVerifier l k a).run msg {} = .ok ((), s₀)) :
    s₀.initialized = true ∧ Registered s₀ ∧ Verified [] s₀ := by
  refine Post.of_run (m := initializeVerifier l k a) (Q := fun _ s₀ =>
    s₀.initialized = true ∧ Registered s₀ ∧ Verified [] s₀) ?_ h
  simp only [initializeVerifier, post_bind, post_getMsg, post_get, post_revertIf, post_registerSigners,
    post_modify, not_or, not_lt]
  rintro - ⟨hk, hle⟩ - hnodup -
  refine ⟨trivial, ⟨?_, hnodup, one_le_of_ne_zero hk, hle⟩, ⟨?_, List.nodup_nil, rfl, rfl⟩⟩
  · intro b
    simp
  · intro e
    simp [acceptedReports]

theorem Registered.step [DecidableEq W] {o : Op W} (h : Registered s) (hinit : s.initialized = true)
    (he : Effect H s o s') : s'.initialized = true ∧ Registered s' := by
  cases he with
  | initialized hfresh => rw [hfresh] at hinit; cases hinit
  | verified _ hi hv =>
    injection hv with hsigners hset hk
    refine ⟨hi.trans hinit, ?_, ?_, ?_, ?_⟩
    · rw [hset, hsigners]; exact h.members
    · rw [hsigners]; exact h.nodup
    · rw [hk]; exact h.pos
    · rw [hk, hsigners]; exact h.le
  | rotated hpos hle hnodup hi hv =>
    injection hv with hsigners hset hk
    refine ⟨hi.trans hinit, ?_, ?_, ?_, ?_⟩
    · intro a
      -- the old signers have all been cleared
      have hcleared : (s.isSigner a && decide (a ∉ s.signers)) = false := by
        rw [Bool.and_eq_false_iff, decide_eq_false_iff_not, not_not, ← h.members a]
        exact Bool.eq_false_or_eq_true _ |>.symm
      rw [hset, hsigners]
      simp only [hcleared, Bool.false_or, decide_eq_true_eq]
    · rw [hsigners]; exact hnodup
    · rw [hk]; exact hpos
    · rw [hk, hsigners]; exact hle
  | other _ hi hv =>
    injection hv with hsigners hset hk
    refine ⟨hi.trans hinit, ?_, ?_, ?_, ?_⟩
    · rw [hset, hsigners]; exact h.members
    · rw [hsigners]; exact h.nodup
    · rw [hk]; exact h.pos
    · rw [hk, hsigners]; exact h.le

/-- A hash that is verified was not verified before. -/
theorem Verified.step [DecidableEq W] (h : Verified tr s) (hinit : s.initialized = true)
    (he : Effect H s c.2 s') : Verified (tr ++ [(s, c)]) s' := by
  have hconcat : acceptedReports (tr ++ [(s, c)]) = acceptedReports tr ++ (acceptedReport? (s, c)).toList :=
    filterMap_concat
  obtain ⟨msg, o⟩ := c
  cases he with
  | initialized hfresh => rw [hfresh] at hinit; cases hinit
  | @verified n t i e G s' hproven _ hv =>
    injection hv with _ _ _ hverified hlatest hreports
    change _ = acceptedReports tr ++ [⟨e, n, i⟩] at hconcat
    refine ⟨?_, ?_, ?_, ?_⟩
    · intro e'
      rw [hverified, hconcat]
      rcases eq_or_ne e' e with rfl | hne
      · simp
      · simp [h.verified e', hne, hne.symm]
    · have hnew : ¬∃ r ∈ acceptedReports tr, r.eventHash = e := by
        rw [← h.verified e, hproven.fresh]
        exact Bool.false_ne_true
      rw [hconcat, List.map_append, List.map_singleton, ← List.concat_eq_append, List.nodup_concat,
        List.mem_map]
      exact ⟨hnew, h.once⟩
    · rw [hlatest, hconcat, List.map_append, List.foldl_append, ← h.latest]
      simp only [List.map_singleton, List.foldl_cons, List.foldl_nil, UInt64.lt_iff_toNat_lt]
      split_ifs with hlt <;> omega
    · rw [hreports, hconcat, h.logged]
  | rotated _ _ _ _ hv =>
    injection hv with _ _ _ hverified hlatest hreports
    rw [show acceptedReport? (s, _) = none from rfl, Option.toList_none, List.append_nil] at hconcat
    refine ⟨?_, ?_, ?_, ?_⟩
    · rw [hverified, hconcat]; exact h.verified
    · rw [hconcat]; exact h.once
    · rw [hlatest, hconcat]; exact h.latest
    · rw [hreports, hconcat]; exact h.logged
  | other hother _ hv =>
    injection hv with _ _ _ hverified hlatest hreports
    have hnone : acceptedReport? (s, (msg, o)) = none := by
      cases o with
      | verifyEvent n t i e G => exact absurd rfl (hother n t i e G)
      | _ => rfl
    rw [hnone, Option.toList_none, List.append_nil] at hconcat
    refine ⟨?_, ?_, ?_, ?_⟩
    · rw [hverified, hconcat]; exact h.verified
    · rw [hconcat]; exact h.once
    · rw [hlatest, hconcat]; exact h.latest
    · rw [hreports, hconcat]; exact h.logged

/-- No call takes a verification back. -/
theorem Effect.verified_mono [DecidableEq W] {o : Op W} {e : W} (he : Effect H s o s')
    (hinit : s.initialized = true) (h : s.verifiedEvents e = true) : s'.verifiedEvents e = true := by
  cases he with
  | initialized hfresh => rw [hfresh] at hinit; cases hinit
  | @verified _ _ _ e' _ _ _ _ hv =>
    injection hv with _ _ _ hverified
    rw [hverified, Function.update_apply]
    split_ifs <;> trivial
  | rotated _ _ _ _ hv => injection hv with _ _ _ hverified; rw [hverified]; exact h
  | other _ _ hv => injection hv with _ _ _ hverified; rw [hverified]; exact h

/-! ## Runs -/

theorem run_kept [DecidableEq W] (hinit : s₀.initialized = true ∧ Registered s₀ ∧ Verified [] s₀)
    (h : Run (Steps (exec H)) s₀ tr s) : s.initialized = true ∧ Registered s ∧ Verified tr s := by
  induction h with
  | init => exact hinit
  | @snoc tr s s' c hr hs ih =>
    obtain ⟨hi, hreg, hver⟩ := ih
    have he := effect_of_step hs
    obtain ⟨hi', hreg'⟩ := hreg.step hi he
    exact ⟨hi', hreg', hver.step hi he⟩

theorem run_verified_mono [DecidableEq W] {e : W} (hinit : s₀.initialized = true ∧ Registered s₀)
    (h : Run (Steps (exec H)) s₀ tr s) (he : s₀.verifiedEvents e = true) : s.verifiedEvents e = true := by
  have hkept : s.initialized = true ∧ Registered s ∧ s.verifiedEvents e = true := by
    refine h.invariant (C := fun _ _ => True) (I := fun s =>
      s.initialized = true ∧ Registered s ∧ s.verifiedEvents e = true) ⟨hinit.1, hinit.2, he⟩ ?_
      fun _ _ => trivial
    rintro s c s' - hs ⟨hi, hreg, hver⟩
    have heff := effect_of_step hs
    obtain ⟨hi', hreg'⟩ := hreg.step hi heff
    exact ⟨hi', hreg', heff.verified_mono hi hver⟩
  exact hkept.2.2

/-- An accepted proof was signed by a quorum of the signers of that time, and is recent. -/
theorem accepted_of_run [DecidableEq W] {before after : List (Storage W × (Msg × Op W))} {s₁ : Storage W}
    {msg' : Msg} {n : UInt64} {t e : W} {i : UInt32} {G : List Bytes}
    (hinit : s₀.initialized = true ∧ Registered s₀ ∧ Verified [] s₀)
    (h : Run (Steps (exec H)) s₀ (before ++ (s₁, msg', .verifyEvent n t i e G) :: after) s) :
    Accepted H s₁ n t e G := by
  obtain ⟨s₂, hbefore, hs, -⟩ := h.split
  obtain ⟨-, hreg, -⟩ := run_kept hinit hbefore
  cases effect_of_step hs with
  | verified hproven =>
    obtain ⟨A, hA, hle⟩ := hproven.quorum
    exact ⟨⟨A, hA.recovers, hA.nodup, fun a ha => (hreg.members a).1 (hA.signers a ha), hle⟩,
      hproven.recent⟩
  | other hother => exact absurd rfl (hother n t i e G)

/-- **Threshold verification.**  In every state of a run, both copies of the signers agree, the threshold
    can be met, and the verified hashes are those accepted, each accepted once and never taken back; what is
    accepted was signed by a quorum of the signers of that time, and is recent. -/
theorem run_verified [DecidableEq W] {l : List Address} {k : UInt8} {a : Address}
    (h₀ : (initializeVerifier l k a).run msg {} = .ok ((), s₀)) (h : Run (Steps (exec H)) s₀ tr s) :
    (Registered s ∧ Verified tr s) ∧
      ∀ before p after, tr = before ++ p :: after →
        (Registered p.1 ∧ Verified before p.1) ∧
        (∀ e, p.1.verifiedEvents e = true → s.verifiedEvents e = true) ∧
        ∀ n t i e G, p.2.2 = .verifyEvent n t i e G → Accepted H p.1 n t e G := by
  have hinit := registered_of_init h₀
  refine ⟨(run_kept hinit h).2, ?_⟩
  rintro before ⟨s₁, msg', o⟩ after rfl
  obtain ⟨s₂, hbefore, hs, hafter⟩ := h.split
  obtain ⟨hi, hreg, hver⟩ := run_kept hinit hbefore
  have he := effect_of_step hs
  refine ⟨⟨hreg, hver⟩, ?_, ?_⟩
  · intro e hold
    exact run_verified_mono (hreg.step hi he) hafter (he.verified_mono hi hold)
  · rintro n t i e G rfl
    exact accepted_of_run hinit h

/-- A chain where every signature is of one account. -/
def soleHost : Host ℕ := ⟨fun _ => 0, fun _ => [], fun _ _ _ _ => 7⟩

/-- One event is verified, and then another account becomes the signer. -/
def soleScript : List (Msg × Op ℕ) :=
  [(⟨5, 0⟩, .verifyEvent 30 0 4 3 [List.replicate 65 27]), (⟨1, 0⟩, .updateSigners [8] 1)]

theorem run_verified_soleScript : ∃ s₀ s : Storage ℕ,
    (initializeVerifier [7] 1 9).run ⟨1, 0⟩ {} = .ok ((), s₀) ∧ play (exec soleHost) s₀ soleScript = some s ∧
      Verified (traceOf (exec soleHost) s₀ soleScript) s ∧
        Accepted soleHost s₀ 30 0 3 [List.replicate 65 27] := by
  refine ⟨_, _, rfl, rfl, ?_⟩
  have h := run_verified (rfl : (initializeVerifier [7] 1 9).run ⟨1, 0⟩ {} = .ok ((), _))
    (run_of_play (rfl : play (exec soleHost) _ soleScript = some _)).1
  exact ⟨h.1.2, (h.2 [] _ _ rfl).2.2 30 0 4 3 _ rfl⟩

end AuditLedgerVerifier
