/-
  Regulatory reporting — the audit trail of a report (`src/reporting_audit_trail.rs`).

  Every action on a report is an entry of its trail, linked to the entry before by a
  hash.  The hash is computed from the report, the action, the sequence number, the
  time, the context and the hash before; the actor and the resulting status are in the
  entry and not in the hash.

  * `verifyTrail_iff`: the trails that verify are the chains of `Soroban.HashChain`;
  * `verified_trails`: trails that are appended to verify, and two trails of one length
    that verify and end in one hash differ at most in actors and resulting statuses.
-/
import AuditTransparency.Ledger.Hashing
import AuditTransparency.Soroban.HashChain

namespace RegulatoryReporting

open Soroban
open AuditLedger (u32ToBytes u64ToBytes u32ToBytes_injective u64ToBytes_injective)

/-! ## Data -/

inductive ReportStatus where
  | draft
  | validated
  | submitted
  | acknowledged
  | accepted
  | rejected
  | cancelled
  | overdue
  deriving DecidableEq

inductive ReportAction where
  | generated
  | validated
  | submitted
  | acknowledgmentReceived
  | accepted
  | rejected
  | resubmitted
  | cancelled
  | markedOverdue
  | configUpdated
  deriving DecidableEq

/-- `action as u32` -/
def ReportAction.asU32 : ReportAction → ℕ
  | generated => 0
  | validated => 1
  | submitted => 2
  | acknowledgmentReceived => 3
  | accepted => 4
  | rejected => 5
  | resubmitted => 6
  | cancelled => 7
  | markedOverdue => 8
  | configUpdated => 9

structure ReportingAuditEntry (D : Type) where
  sequence : UInt32
  reportId : D
  action : ReportAction
  actor : Address
  timestamp : UInt64
  prevEntryHash : D
  entryHash : D
  context : Bytes
  resultingStatus : ReportStatus
  deriving DecidableEq

/-- What the pipeline uses of the host. -/
structure Host (D : Type) where
  /-- `env.crypto().sha256` -/
  sha256 : Bytes → D
  /-- a `BytesN<32>` as `Bytes` -/
  bytesOf : D → Bytes
  /-- `BytesN::from_array(env, &[0u8; 32])` -/
  zeros : D

/-- The bytes of a digest can be cut off either end of a byte string, as 32 bytes can. -/
structure Host.Delimited {D : Type} (H : Host D) : Prop where
  front : ∀ {a b x y}, H.bytesOf a ++ x = H.bytesOf b ++ y → a = b
  back : ∀ {a b x y}, x ++ H.bytesOf a = y ++ H.bytesOf b → a = b

/-! ## Functions -/

variable {D : Type}

/-- `compute_entry_hash` -/
def computeEntryHash (H : Host D) (reportId : D) (action : ReportAction) (sequence : UInt32)
    (timestamp : UInt64) (context : Bytes) (prevEntryHash : D) : D :=
  H.sha256 (H.bytesOf reportId ++ u32ToBytes action.asU32 ++ u32ToBytes sequence.toNat ++
    u64ToBytes timestamp.toNat ++ context ++ H.bytesOf prevEntryHash)

/-- `append_entry`: the entry that is pushed to the trail.  The length of a `Vec` is a `u32`. -/
def appendEntry (H : Host D) (trail : List (ReportingAuditEntry D)) (reportId : D)
    (action : ReportAction) (actor : Address) (resultingStatus : ReportStatus) (context : Bytes)
    (timestamp : UInt64) : ReportingAuditEntry D :=
  let sequence := UInt32.ofNat trail.length
  let prevEntryHash := (trail.getLast?.map (·.entryHash)).getD H.zeros
  let entryHash := computeEntryHash H reportId action sequence timestamp context prevEntryHash
  { sequence, reportId, action, actor, timestamp, prevEntryHash, entryHash, context, resultingStatus }

/-- The loop of `verify_trail` from position `i` on; `expectedPrev` is the hash of the entry before. -/
def verifyFrom [DecidableEq D] (H : Host D) (expectedPrev : D) (i : ℕ) :
    List (ReportingAuditEntry D) → Except ℕ Unit
  | [] => .ok ()
  | entry :: trail =>
    if entry.prevEntryHash ≠ expectedPrev then .error i
    else if entry.entryHash ≠ computeEntryHash H entry.reportId entry.action entry.sequence
        entry.timestamp entry.context entry.prevEntryHash then .error i
    else verifyFrom H entry.entryHash (i + 1) trail

/-- `verify_trail` -/
def verifyTrail [DecidableEq D] (H : Host D) (trail : List (ReportingAuditEntry D)) : Except ℕ Unit :=
  verifyFrom H H.zeros 0 trail

/-- The trails that calls of `append_entry` build. -/
inductive Built (H : Host D) : List (ReportingAuditEntry D) → Prop where
  | empty : Built H []
  | append {trail} (r : D) (x : ReportAction) (a : Address) (q : ReportStatus) (c : Bytes) (t : UInt64) :
      Built H trail → Built H (trail ++ [appendEntry H trail r x a q c t])

/-! ## Chains -/

/-- How the entries of a trail are linked. -/
def linking (H : Host D) : Linking (ReportingAuditEntry D) D where
  prev e := e.prevEntryHash
  hash e := e.entryHash
  digest _ p e := computeEntryHash H e.reportId e.action e.sequence e.timestamp e.context p
  relink p h e := { e with prevEntryHash := p, entryHash := h }
  prev_relink _ _ _ := rfl
  hash_relink _ _ _ := rfl
  digest_relink _ _ _ _ _ := rfl

/-- What the hash of an entry covers besides the hash before. -/
def ReportingAuditEntry.covered (e : ReportingAuditEntry D) : D × ReportAction × UInt32 × UInt64 × Bytes :=
  (e.reportId, e.action, e.sequence, e.timestamp, e.context)

/-- What it leaves out. -/
def ReportingAuditEntry.uncovered (e : ReportingAuditEntry D) : Address × ReportStatus :=
  (e.actor, e.resultingStatus)

section
variable {H : Host D} {l m : List (ReportingAuditEntry D)}

theorem asU32_injective {x y : ReportAction} (h : x.asU32 = y.asU32) : x = y := by
  cases x <;> cases y <;> first | rfl | cases h

theorem asU32_lt (x : ReportAction) : x.asU32 < 2 ^ 32 := by cases x <;> simp [ReportAction.asU32]

/-- **The hash commits to what it covers.** -/
theorem computeEntryHash_inj (hinj : Function.Injective H.sha256) (hdel : H.Delimited) {r r' p p' : D}
    {x x' : ReportAction} {n n' : UInt32} {t t' : UInt64} {c c' : Bytes} :
    computeEntryHash H r x n t c p = computeEntryHash H r' x' n' t' c' p' ↔
      p = p' ∧ (r, x, n, t, c) = (r', x', n', t', c') := by
  constructor
  · intro h
    have hb := hinj h
    obtain rfl : p = p' := hdel.back hb
    have hb := List.append_cancel_right hb
    obtain rfl : r = r' := hdel.front (by simpa only [List.append_assoc] using hb)
    simp only [List.append_assoc, List.append_cancel_left_eq] at hb
    obtain ⟨hx, hb⟩ := List.append_inj hb rfl
    obtain ⟨hn, hb⟩ := List.append_inj hb rfl
    obtain ⟨ht, rfl⟩ := List.append_inj hb rfl
    obtain rfl : x = x' := asU32_injective (u32ToBytes_injective (asU32_lt x) (asU32_lt x') hx)
    obtain rfl : n = n' :=
      UInt32.toNat.inj (u32ToBytes_injective (UInt32.toNat_lt n) (UInt32.toNat_lt n') hn)
    obtain rfl : t = t' :=
      UInt64.toNat.inj (u64ToBytes_injective (UInt64.toNat_lt t) (UInt64.toNat_lt t') ht)
    exact ⟨rfl, rfl⟩
  · rintro ⟨rfl, h⟩
    cases h
    rfl

theorem verifyFrom_iff [DecidableEq D] {p : D} {i : ℕ} :
    verifyFrom H p i l = .ok () ↔ (linking H).Linked p i l := by
  induction l generalizing p i with
  | nil => exact iff_of_true rfl trivial
  | cons e l ih =>
    rw [verifyFrom, Linking.Linked, ← ih]
    by_cases hp : e.prevEntryHash = p
    · subst hp
      by_cases hh : e.entryHash = computeEntryHash H e.reportId e.action e.sequence e.timestamp e.context
          e.prevEntryHash
      · simp [linking, ← hh]
      · simp [linking, hh]
    · simp [linking, hp]

/-- The trails that verify are the linked ones. -/
theorem verifyTrail_iff [DecidableEq D] :
    verifyTrail H l = .ok () ↔ (linking H).Linked H.zeros 0 l := verifyFrom_iff

/-- The hash the next entry links to is that of the last entry. -/
theorem tail_linking {p : D} : (linking H).tail p l = (l.getLast?.map (·.entryHash)).getD p := by
  rcases List.eq_nil_or_concat l with rfl | ⟨l', e, rfl⟩
  · rfl
  · rw [List.concat_eq_append, Linking.tail_append, List.getLast?_concat]; rfl

theorem linked_of_built (h : Built H l) : (linking H).Linked H.zeros 0 l := by
  induction h with
  | empty => trivial
  | @append trail r x a q c t _ ih =>
    refine Linking.linked_append.2 ⟨ih, tail_linking.symm, ?_, trivial⟩
    rw [tail_linking]; rfl

/-- An entry is its hash and the hash before, what the hash covers, and what it leaves out. -/
theorem entry_ext {e f : ReportingAuditEntry D} (hp : e.prevEntryHash = f.prevEntryHash)
    (hh : e.entryHash = f.entryHash) (hc : e.covered = f.covered) (hu : e.uncovered = f.uncovered) :
    e = f := by
  obtain ⟨n, r, x, a, t, p, h, c, q⟩ := e
  obtain ⟨n', r', x', a', t', p', h', c', q'⟩ := f
  simp only [ReportingAuditEntry.covered, ReportingAuditEntry.uncovered, Prod.mk.injEq] at hp hh hc hu
  obtain ⟨rfl, rfl, rfl, rfl, rfl⟩ := hc
  obtain ⟨rfl, rfl⟩ := hu
  rw [hp, hh]

/-- Chains that agree in what the hashes cover agree in the hashes. -/
theorem eq_of_covered {p : D} {i : ℕ} (hl : (linking H).Linked p i l) (hm : (linking H).Linked p i m)
    (hc : l.map (·.covered) = m.map (·.covered)) (hu : l.map (·.uncovered) = m.map (·.uncovered)) :
    l = m := by
  induction l generalizing p i m with
  | nil => exact (List.map_eq_nil_iff.1 hc.symm).symm
  | cons e l ih =>
    cases m with
    | nil => cases hc
    | cons f m =>
      simp only [List.map_cons, List.cons.injEq] at hc hu
      obtain ⟨hpe, hhe, hl⟩ := hl
      obtain ⟨hpf, hhf, hm⟩ := hm
      have hdigest : computeEntryHash H e.reportId e.action e.sequence e.timestamp e.context p =
          computeEntryHash H f.reportId f.action f.sequence f.timestamp f.context p := by
        have hc := hc.1
        simp only [ReportingAuditEntry.covered, Prod.mk.injEq] at hc
        rw [hc.1, hc.2.1, hc.2.2.1, hc.2.2.2.1, hc.2.2.2.2]
      have hhash : (linking H).hash e = (linking H).hash f := hhe.trans (hdigest.trans hhf.symm)
      obtain rfl : e = f := entry_ext (hpe.trans hpf.symm) hhash hc.1 hu.1
      rw [ih hl hm hc.2 hu.2]

/-- **Tamper evidence of the trail.**  Trails that are appended to verify; trails of one length
    that verify and end in one hash are the same if and only if they agree in what the hashes
    leave out. -/
theorem verified_trails [DecidableEq D] (hinj : Function.Injective H.sha256) (hdel : H.Delimited) :
    (∀ trail, Built H trail → verifyTrail H trail = .ok ()) ∧
    ∀ l m, l.length = m.length → verifyTrail H l = .ok () → verifyTrail H m = .ok () →
      l.getLast?.map (·.entryHash) = m.getLast?.map (·.entryHash) →
      (l = m ↔ l.map (fun e => (e.actor, e.resultingStatus)) =
        m.map (fun e => (e.actor, e.resultingStatus))) := by
  refine ⟨fun trail h => verifyTrail_iff.2 (linked_of_built h), fun l m hlen hl hm hlast => ?_⟩
  rw [verifyTrail_iff] at hl hm
  constructor
  · rintro rfl
    rfl
  · intro hu
    refine eq_of_covered hl hm ?_ hu
    refine (Linking.tail_eq_iff (fun i p q e f => ?_) hl hm hlen).1 ?_
    · exact computeEntryHash_inj hinj hdel
    · rw [tail_linking, tail_linking, hlast]

end

/-! ## A host -/

/-- Bytes between two zeros, each of them between two ones. -/
def frame (d : Bytes) : Bytes := 0 :: (d.flatMap fun b => [1, b, 1]) ++ [0]

/-- A host to evaluate the pipeline with: byte strings are their own digests. -/
def plainHost : Host Bytes := ⟨id, frame, []⟩

theorem frame_front {a b x y : Bytes} (h : frame a ++ x = frame b ++ y) : a = b := by
  simp only [frame, List.cons_append, List.append_assoc, List.cons.injEq, true_and] at h
  induction a generalizing b with
  | nil =>
    cases b with
    | nil => rfl
    | cons c b => simp at h
  | cons c a ih =>
    cases b with
    | nil => simp at h
    | cons c' b =>
      simp only [List.flatMap_cons, List.cons_append, List.nil_append, List.cons.injEq, true_and] at h
      rw [h.1, ih h.2]

theorem reverse_frame (d : Bytes) : (frame d).reverse = frame d.reverse := by
  have hflat : (d.flatMap fun b => [1, b, 1]).reverse = d.reverse.flatMap fun b => [1, b, 1] := by
    induction d with
    | nil => rfl
    | cons b d ih => simp [ih]
  simp [frame, hflat]

theorem delimited_plainHost : plainHost.Delimited where
  front h := frame_front h
  back := by
    intro a b x y h
    have hr := congrArg List.reverse h
    simp only [List.reverse_append, plainHost, reverse_frame] at hr
    exact List.reverse_injective (frame_front hr)

/-- Another actor. -/
def otherAccount : Address := ⟨71 :: List.replicate 55 66, by simp⟩

/-- The trail of one action. -/
def generatedBy (a : Address) : List (ReportingAuditEntry Bytes) :=
  [appendEntry plainHost [] [1] .generated a .draft [70] 1000]

theorem verified_trails_generatedBy :
    verifyTrail plainHost (generatedBy AuditLedger.nullAccount) = .ok () ∧
      (generatedBy AuditLedger.nullAccount = generatedBy otherAccount ↔
        (generatedBy AuditLedger.nullAccount).map (fun e => (e.actor, e.resultingStatus)) =
          (generatedBy otherAccount).map (fun e => (e.actor, e.resultingStatus))) := by
  obtain ⟨hbuilt, hsame⟩ := verified_trails (H := plainHost) Function.injective_id delimited_plainHost
  have hempty : Built plainHost [] := .empty
  have hverify : ∀ a, verifyTrail plainHost (generatedBy a) = .ok () := fun a =>
    hbuilt _ (hempty.append [1] .generated a .draft [70] 1000)
  exact ⟨hverify _, hsame _ _ rfl (hverify _) (hverify _) rfl⟩

/-- **Two trails that differ in the actor** verify and end in one hash. -/
theorem actor_replaced : Function.Injective plainHost.sha256 ∧ plainHost.Delimited ∧
    ∃ l m : List (ReportingAuditEntry Bytes), l.length = m.length ∧
      verifyTrail plainHost l = .ok () ∧ verifyTrail plainHost m = .ok () ∧
      l.getLast?.map (·.entryHash) = m.getLast?.map (·.entryHash) ∧ l ≠ m := by
  refine ⟨Function.injective_id, delimited_plainHost, generatedBy AuditLedger.nullAccount,
    generatedBy otherAccount, rfl, ?_, ?_, rfl, ?_⟩
  · decide
  · decide
  · intro h
    have hactor : (generatedBy AuditLedger.nullAccount).map (·.actor) =
        (generatedBy otherAccount).map (·.actor) := by rw [h]
    revert hactor
    decide

end RegulatoryReporting
