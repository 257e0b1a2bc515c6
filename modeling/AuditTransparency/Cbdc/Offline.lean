/-
  OfflineManager — payments that are signed offline (`src/cbdc_offline.rs`).

  The hash of an offline transaction is taken over the fields of the payment and the nonce; the
  accounts and the time are not among them.

  * `offlineInput_eq_iff`: which transactions are hashed to the same bytes;
  * `integrity_binds_iff`: so two accepted transactions with one hash are the same payment exactly
    if they agree about the accounts and the time, and any others are accepted as well;
  * `run_reconciled`: the first decision on a transaction stands, whatever comes after it.
-/
import AuditTransparency.Ledger.Contract
import AuditTransparency.Soroban.Words
import Mathlib.Data.List.Induction

namespace OfflineManager

open Soroban
open AuditLedger (account)

/-! ## Data -/

inductive OfflineStatus where
  | pendingReconciliation
  | reconciled
  | failedReconciliation
  | disputed
  deriving DecidableEq

/-- `status as u8` -/
def OfflineStatus.toU8 : OfflineStatus → UInt8
  | .pendingReconciliation => 0
  | .reconciled => 1
  | .failedReconciliation => 2
  | .disputed => 3

structure CBDCTransaction where
  txId : BytesN 32
  sourcePilot : UInt8
  destPilot : UInt8
  from_ : Address
  to_ : Address
  amountSource : BitVec 128
  amountDest : BitVec 128
  exchangeRate : BitVec 128
  timestamp : UInt64
  protocol : UInt8
  privacyTier : UInt8
  offlineStatus : Option UInt8
  metadata : Bytes
  deriving DecidableEq

/-- A transaction before reconciliation; `D` is the type of digests. -/
structure OfflineTransaction (D : Type) where
  txHash : D
  transaction : CBDCTransaction
  signature : Bytes
  signerPubkey : Bytes
  status : UInt8
  createdAt : UInt64
  reconciledAt : Option UInt64
  nonce : UInt32
  deriving DecidableEq

variable {D : Type} [DecidableEq D] {sha256 : Bytes → D} {t t' : OfflineTransaction D}
  {x y : CBDCTransaction} {m n : UInt32}

/-! ## Functions -/

/-- What `compute_offline_tx_hash` hashes. -/
def offlineInput (transaction : CBDCTransaction) (nonce : UInt32) : Bytes :=
  transaction.txId.toList ++ toLeBytes 1 transaction.sourcePilot.toNat ++ toLeBytes 1 transaction.destPilot.toNat ++
    toLeBytes 16 transaction.amountSource.toNat ++ toLeBytes 16 transaction.amountDest.toNat ++
    toLeBytes 16 transaction.exchangeRate.toNat ++ toLeBytes 4 nonce.toNat

/-- `compute_offline_tx_hash` -/
def computeOfflineTxHash (sha256 : Bytes → D) (transaction : CBDCTransaction) (nonce : UInt32) : D :=
  sha256 (offlineInput transaction nonce)

/-- `create_offline_transaction`, at the given time of the ledger. -/
def createOfflineTransaction (sha256 : Bytes → D) (timestamp : UInt64) (transaction : CBDCTransaction)
    (signature signerPubkey : Bytes) (nonce : UInt32) : Except String (OfflineTransaction D) := do
  if signature.isEmpty then throw "Signature cannot be empty"
  if signerPubkey.isEmpty then throw "Signer public key cannot be empty"
  return {
    txHash := computeOfflineTxHash sha256 transaction nonce
    transaction
    signature
    signerPubkey
    status := OfflineStatus.pendingReconciliation.toU8
    createdAt := timestamp
    reconciledAt := none
    nonce }

/-- `has_valid_signature_format` -/
def OfflineTransaction.hasValidSignatureFormat (t : OfflineTransaction D) : Bool :=
  !t.signature.isEmpty && !t.signerPubkey.isEmpty

/-- `verify_transaction_integrity` -/
def verifyTransactionIntegrity (sha256 : Bytes → D) (offlineTx : OfflineTransaction D) : Bool :=
  computeOfflineTxHash sha256 offlineTx.transaction offlineTx.nonce = offlineTx.txHash

/-! ## What the hash binds -/

/-- The transactions agree in what is hashed. -/
structure SameTerms (x y : CBDCTransaction) : Prop where
  txId : x.txId = y.txId
  sourcePilot : x.sourcePilot = y.sourcePilot
  destPilot : x.destPilot = y.destPilot
  amountSource : x.amountSource = y.amountSource
  amountDest : x.amountDest = y.amountDest
  exchangeRate : x.exchangeRate = y.exchangeRate

/-- **They agree in who pays whom what and when.** -/
structure SamePayment (x y : CBDCTransaction) : Prop extends SameTerms x y where
  from_ : x.from_ = y.from_
  to_ : x.to_ = y.to_
  timestamp : x.timestamp = y.timestamp

/-- The encoding is injective in the fields that are hashed, as each has a fixed length. -/
theorem offlineInput_eq_iff : offlineInput x m = offlineInput y n ↔ SameTerms x y ∧ m = n := by
  constructor
  · intro h
    obtain ⟨h, hnonce⟩ := List.append_inj' h (by simp)
    obtain ⟨h, hrate⟩ := List.append_inj' h (by simp)
    obtain ⟨h, hdest⟩ := List.append_inj' h (by simp)
    obtain ⟨h, hsource⟩ := List.append_inj' h (by simp)
    obtain ⟨h, hdestPilot⟩ := List.append_inj' h (by simp)
    obtain ⟨hid, hsourcePilot⟩ := List.append_inj' h (by simp)
    have hpilot {a b : UInt8} (h : toLeBytes 1 a.toNat = toLeBytes 1 b.toNat) : a = b :=
      UInt8.toNat.inj (toLeBytes_injective a.toNat_lt b.toNat_lt h)
    have hamount {a b : BitVec 128} (h : toLeBytes 16 a.toNat = toLeBytes 16 b.toNat) : a = b :=
      BitVec.eq_of_toNat_eq (toLeBytes_injective a.isLt b.isLt h)
    exact ⟨⟨List.Vector.toList_injective hid, hpilot hsourcePilot, hpilot hdestPilot, hamount hsource,
      hamount hdest, hamount hrate⟩, UInt32.toNat.inj (toLeBytes_injective m.toNat_lt n.toNat_lt hnonce)⟩
  · rintro ⟨h, rfl⟩
    simp only [offlineInput, h.txId, h.sourcePilot, h.destPilot, h.amountSource, h.amountDest, h.exchangeRate]

theorem verifyTransactionIntegrity_iff : verifyTransactionIntegrity sha256 t = true ↔
    sha256 (offlineInput t.transaction t.nonce) = t.txHash := decide_eq_true_iff

/-- What is created is accepted. -/
theorem verify_of_create {timestamp : UInt64} {signature signerPubkey : Bytes}
    (h : createOfflineTransaction sha256 timestamp x signature signerPubkey n = .ok t) :
    verifyTransactionIntegrity sha256 t = true ∧ t.hasValidSignatureFormat = true := by
  unfold createOfflineTransaction at h
  by_cases hsig : signature.isEmpty = true
  · rw [if_pos hsig] at h
    cases h
  · by_cases hkey : signerPubkey.isEmpty = true
    · rw [if_neg hsig, if_pos hkey] at h
      cases h
    · rw [if_neg hsig, if_neg hkey] at h
      obtain rfl := Except.ok.inj h
      refine ⟨verifyTransactionIntegrity_iff.2 rfl, ?_⟩
      rw [OfflineTransaction.hasValidSignatureFormat, Bool.not_eq_true _ |>.mp hsig, Bool.not_eq_true _ |>.mp hkey]
      rfl

/-- The same payment with other accounts, at another time. -/
def OfflineTransaction.redirected (t : OfflineTransaction D) (a b : Address) (time : UInt64) :
    OfflineTransaction D :=
  { t with transaction := { t.transaction with from_ := a, to_ := b, timestamp := time } }

/-- **A transaction remains accepted when it is redirected.** -/
theorem verify_redirected (h : verifyTransactionIntegrity sha256 t = true) (a b : Address) (time : UInt64) :
    verifyTransactionIntegrity sha256 (t.redirected a b time) = true := h

/-- **Two accepted transactions with one hash are the same payment if and only if** they agree about the
    accounts and the time; created transactions are accepted, and so are redirected ones. -/
theorem integrity_binds_iff (hinj : Function.Injective sha256) :
    (∀ timestamp transaction signature signerPubkey nonce t,
      createOfflineTransaction sha256 timestamp transaction signature signerPubkey nonce = .ok t →
        verifyTransactionIntegrity sha256 t = true) ∧
    (∀ t t' : OfflineTransaction D, verifyTransactionIntegrity sha256 t = true →
      verifyTransactionIntegrity sha256 t' = true → t'.txHash = t.txHash →
      (SamePayment t.transaction t'.transaction ∧ t.nonce = t'.nonce ↔
        t.transaction.from_ = t'.transaction.from_ ∧ t.transaction.to_ = t'.transaction.to_ ∧
          t.transaction.timestamp = t'.transaction.timestamp)) ∧
    ∀ (t : OfflineTransaction D) (a b : Address) (time : UInt64),
      verifyTransactionIntegrity sha256 t = true →
        verifyTransactionIntegrity sha256 (t.redirected a b time) = true ∧
          (t.redirected a b time).txHash = t.txHash := by
  refine ⟨fun _ _ _ _ _ _ h => (verify_of_create h).1, ?_, fun t a b time h => ⟨verify_redirected h a b time, rfl⟩⟩
  intro t t' ht ht' hhash
  rw [verifyTransactionIntegrity_iff] at ht ht'
  have hinput : offlineInput t.transaction t.nonce = offlineInput t'.transaction t'.nonce :=
    hinj (ht.trans (hhash.symm.trans ht'.symm))
  obtain ⟨hterms, hnonce⟩ := offlineInput_eq_iff.1 hinput
  constructor
  · rintro ⟨h, -⟩
    exact ⟨h.from_, h.to_, h.timestamp⟩
  · rintro ⟨hfrom, hto, htime⟩
    exact ⟨⟨hterms, hfrom, hto, htime⟩, hnonce⟩

/-! ## Payments -/

/-- One unit for the given account. -/
def payment (to_ : Address) (timestamp : UInt64) : CBDCTransaction where
  txId := .replicate 32 7
  sourcePilot := 0
  destPilot := 1
  from_ := account 65
  to_ := to_
  amountSource := 1
  amountDest := 1
  exchangeRate := 1000000000000000000
  timestamp := timestamp
  protocol := 0
  privacyTier := 0
  offlineStatus := none
  metadata := []

/-- A signed payment, where `sha256` is the identity. -/
def signed (transaction : CBDCTransaction) (createdAt : UInt64) : OfflineTransaction Bytes :=
  ⟨offlineInput transaction 1, transaction, [1], [2], 0, createdAt, none, 1⟩

theorem create_signed (x : CBDCTransaction) (time : UInt64) :
    createOfflineTransaction id time x [1] [2] 1 = .ok (signed x time) := rfl

/-- The same payment, created twice. -/
theorem integrity_binds_iff_twice :
    verifyTransactionIntegrity id (signed (payment (account 66) 5) 5) = true ∧
      SamePayment (signed (payment (account 66) 5) 5).transaction (signed (payment (account 66) 5) 9).transaction := by
  obtain ⟨hcreate, hsame, -⟩ := integrity_binds_iff (D := Bytes) Function.injective_id
  have hfirst := hcreate _ _ _ _ _ _ (create_signed (payment (account 66) 5) 5)
  have hsecond := hcreate _ _ _ _ _ _ (create_signed (payment (account 66) 5) 9)
  exact ⟨hfirst, ((hsame _ _ hfirst hsecond rfl).2 ⟨rfl, rfl, rfl⟩).1⟩

/-- **A payment for another account has the same hash.** -/
theorem payment_redirected :
    ¬∀ t t' : OfflineTransaction Bytes, verifyTransactionIntegrity id t = true →
      verifyTransactionIntegrity id t' = true → t'.txHash = t.txHash →
      SamePayment t.transaction t'.transaction ∧ t.nonce = t'.nonce := by
  intro h
  have hfirst : verifyTransactionIntegrity id (signed (payment (account 66) 5) 5) = true :=
    verifyTransactionIntegrity_iff.2 rfl
  have hto := (h _ _ hfirst (verify_redirected hfirst (account 65) (account 67) 5) rfl).1.to_
  have haccounts : account 66 ≠ account 67 := by decide
  exact haccounts hto

/-! ## Reconciliation -/

/-- `reconcile_transaction`, at the given time of the ledger. -/
def reconcileTransaction (timestamp : UInt64) (offlineTx : OfflineTransaction D) :
    Except String (OfflineTransaction D) :=
  if offlineTx.status ≠ OfflineStatus.pendingReconciliation.toU8 then
    .error "Transaction is not in pending state"
  else .ok { offlineTx with status := OfflineStatus.reconciled.toU8, reconciledAt := some timestamp }

/-- `fail_reconciliation`, at the given time of the ledger. -/
def failReconciliation (timestamp : UInt64) (offlineTx : OfflineTransaction D) :
    Except String (OfflineTransaction D) :=
  if offlineTx.status = OfflineStatus.reconciled.toU8 then
    .error "Cannot fail already reconciled transaction"
  else .ok { offlineTx with status := OfflineStatus.failedReconciliation.toU8, reconciledAt := some timestamp }

structure ReconciliationState where
  totalTransactions : ℕ
  successfulCount : ℕ
  failedCount : ℕ
  pendingCount : ℕ
  disputedCount : ℕ
  deriving DecidableEq

/-- `all_settled` -/
def ReconciliationState.allSettled (state : ReconciliationState) : Bool :=
  state.successfulCount = state.totalTransactions

/-- `any_failed` -/
def ReconciliationState.anyFailed (state : ReconciliationState) : Bool :=
  0 < state.failedCount || 0 < state.disputedCount

/-- One turn of the loop of `compute_reconciliation_state`. -/
def ReconciliationState.count (state : ReconciliationState) (status : UInt8) : ReconciliationState :=
  if status = OfflineStatus.reconciled.toU8 then { state with successfulCount := state.successfulCount + 1 }
  else if status = OfflineStatus.failedReconciliation.toU8 then
    { state with failedCount := state.failedCount + 1 }
  else if status = OfflineStatus.pendingReconciliation.toU8 then
    { state with pendingCount := state.pendingCount + 1 }
  else if status = OfflineStatus.disputed.toU8 then { state with disputedCount := state.disputedCount + 1 }
  else state

/-- `compute_reconciliation_state`; a list of statuses has a length of 32 bits, so that no counter overflows. -/
def computeReconciliationState (statuses : List UInt8) : ReconciliationState :=
  statuses.foldl ReconciliationState.count ⟨statuses.length, 0, 0, 0, 0⟩

/-- A call for a transaction of a batch, at a time of the ledger. -/
inductive Call where
  | reconcile (timestamp : UInt64)
  | fail (timestamp : UInt64)
  deriving DecidableEq

/-- The transaction after a call, which fails without changing it. -/
def OfflineTransaction.after (t : OfflineTransaction D) : Call → OfflineTransaction D
  | .reconcile timestamp => ((reconcileTransaction timestamp t).toOption).getD t
  | .fail timestamp => ((failReconciliation timestamp t).toOption).getD t

/-- The batch after the calls, each for the transaction at a position. -/
def settleCalls (txs : List (OfflineTransaction D)) (calls : List (ℕ × Call)) : List (OfflineTransaction D) :=
  calls.foldl (fun txs c => txs.modify c.1 (·.after c.2)) txs

/-- The calls for one transaction. -/
def callsFor (i : ℕ) (calls : List (ℕ × Call)) : List Call := (calls.filter (·.1 = i)).map (·.2)

def Call.failedAt : Call → Option UInt64
  | .fail timestamp => some timestamp
  | .reconcile _ => none

/-- The status that the first call decides. -/
def decidedStatus : List Call → OfflineStatus
  | [] => .pendingReconciliation
  | .reconcile _ :: _ => .reconciled
  | .fail _ :: _ => .failedReconciliation

/-- The time of the decision, or of the last failure. -/
def decidedAt : List Call → Option UInt64
  | [] => none
  | .reconcile timestamp :: _ => some timestamp
  | .fail timestamp :: calls => ((.fail timestamp :: calls).filterMap Call.failedAt).getLast?

/-- What the calls have made of a transaction. -/
def OfflineTransaction.decided (t : OfflineTransaction D) (calls : List Call) : OfflineTransaction D :=
  { t with status := (decidedStatus calls).toU8, reconciledAt := decidedAt calls }

section
variable {txs : List (OfflineTransaction D)} {calls : List (ℕ × Call)} {l : List Call} {a : Call} {i : ℕ}

omit [DecidableEq D] in
theorem after_decided : (t.decided l).after a = t.decided (l ++ [a]) := by
  rcases l with _ | ⟨b, l⟩
  · cases a <;> rfl
  · cases b with
    | reconcile timestamp => cases a <;> rfl
    | fail timestamp =>
      cases a with
      | reconcile timestamp' =>
        have hlast : decidedAt (.fail timestamp :: l ++ [.reconcile timestamp']) =
            decidedAt (.fail timestamp :: l) := by
          rw [List.cons_append, decidedAt, decidedAt, ← List.cons_append, List.filterMap_append]
          exact congrArg List.getLast? (List.append_nil _)
        rw [OfflineTransaction.decided, OfflineTransaction.decided, hlast]
        rfl
      | fail timestamp' =>
        have hlast : decidedAt (.fail timestamp :: l ++ [.fail timestamp']) = some timestamp' := by
          rw [List.cons_append, decidedAt, ← List.cons_append, List.filterMap_append]
          exact List.getLast?_concat
        rw [OfflineTransaction.decided, OfflineTransaction.decided, hlast]
        rfl

theorem callsFor_concat {c : ℕ × Call} :
    callsFor i (calls ++ [c]) = callsFor i calls ++ if c.1 = i then [c.2] else [] := by
  rw [callsFor, List.filter_append, List.map_append, ← callsFor]
  by_cases hc : c.1 = i <;> simp [hc]

omit [DecidableEq D] in
/-- Every transaction is as its own calls have decided. -/
theorem settleCalls_eq (hnew : ∀ t ∈ txs, t.decided [] = t) :
    settleCalls txs calls = txs.mapIdx fun i t => t.decided (callsFor i calls) := by
  induction calls using List.reverseRecOn with
  | nil =>
    refine List.ext_getElem? fun i => ?_
    rw [List.getElem?_mapIdx]
    rcases hi : txs[i]? with _ | t
    · exact hi
    · exact hi.trans (congrArg some (hnew t (List.mem_of_getElem? hi)).symm)
  | append_singleton calls c ih =>
    have hstep : settleCalls txs (calls ++ [c]) = (settleCalls txs calls).modify c.1 (·.after c.2) := by
      rw [settleCalls, List.foldl_append]
      rfl
    refine List.ext_getElem? fun i => ?_
    rw [hstep, ih, List.getElem?_modify, List.getElem?_mapIdx, List.getElem?_mapIdx, callsFor_concat]
    rcases txs[i]? with _ | t
    · rfl
    · by_cases hc : c.1 = i
      · simp only [hc, if_true, Option.map_some, ← after_decided]
        rfl
      · simp only [hc, if_false, Option.map_some, List.append_nil]
        rfl

theorem count_eq (state : ReconciliationState) (status : UInt8) : state.count status =
    { state with
      successfulCount := state.successfulCount + if status = OfflineStatus.reconciled.toU8 then 1 else 0
      failedCount := state.failedCount + if status = OfflineStatus.failedReconciliation.toU8 then 1 else 0
      pendingCount := state.pendingCount + if status = OfflineStatus.pendingReconciliation.toU8 then 1 else 0
      disputedCount := state.disputedCount + if status = OfflineStatus.disputed.toU8 then 1 else 0 } := by
  by_cases h₁ : status = OfflineStatus.reconciled.toU8
  · subst h₁
    rfl
  by_cases h₂ : status = OfflineStatus.failedReconciliation.toU8
  · subst h₂
    rfl
  by_cases h₃ : status = OfflineStatus.pendingReconciliation.toU8
  · subst h₃
    rfl
  by_cases h₄ : status = OfflineStatus.disputed.toU8
  · subst h₄
    rfl
  · rw [ReconciliationState.count, if_neg h₁, if_neg h₂, if_neg h₃, if_neg h₄, if_neg h₁, if_neg h₂, if_neg h₃,
      if_neg h₄]
    rfl

theorem computeReconciliationState_eq (l : List UInt8) : computeReconciliationState l =
    ⟨l.length, l.count OfflineStatus.reconciled.toU8, l.count OfflineStatus.failedReconciliation.toU8,
      l.count OfflineStatus.pendingReconciliation.toU8, l.count OfflineStatus.disputed.toU8⟩ := by
  have hadd : ∀ m n k : ℕ, m + n + k = m + (k + n) := by omega
  have hfold : ∀ state : ReconciliationState, l.foldl ReconciliationState.count state =
      { state with
        successfulCount := state.successfulCount + l.count OfflineStatus.reconciled.toU8
        failedCount := state.failedCount + l.count OfflineStatus.failedReconciliation.toU8
        pendingCount := state.pendingCount + l.count OfflineStatus.pendingReconciliation.toU8
        disputedCount := state.disputedCount + l.count OfflineStatus.disputed.toU8 } := by
    induction l with
    | nil => exact fun state => rfl
    | cons status l ih =>
      intro state
      rw [List.foldl_cons, ih, count_eq]
      simp only [List.count_cons, beq_iff_eq, hadd]
  rw [computeReconciliationState, hfold]
  simp only [Nat.zero_add]

omit [DecidableEq D] in
/-- The statuses of the batch. -/
theorem statuses_settleCalls (hnew : ∀ t ∈ txs, t.decided [] = t) : (settleCalls txs calls).map (·.status) =
    (List.range txs.length).map fun i => (decidedStatus (callsFor i calls)).toU8 := by
  rw [settleCalls_eq hnew]
  refine List.ext_getElem? fun i => ?_
  rw [List.getElem?_map, List.getElem?_map, List.getElem?_mapIdx]
  rcases Nat.lt_or_ge i txs.length with hi | hi
  · rw [List.getElem?_range hi, List.getElem?_eq_getElem hi]
    rfl
  · rw [List.getElem?_eq_none hi, List.getElem?_eq_none (by rw [List.length_range]; exact hi)]
    rfl

theorem toU8_injective : Function.Injective OfflineStatus.toU8 := by
  intro a b h
  cases a <;> cases b <;> first | rfl | cases h

omit [DecidableEq D] in
/-- A status is counted once for each transaction that the calls have given it. -/
theorem count_settleCalls (hnew : ∀ t ∈ txs, t.decided [] = t) (status : OfflineStatus) :
    ((settleCalls txs calls).map (·.status)).count status.toU8 =
      (List.range txs.length).countP fun i => decidedStatus (callsFor i calls) = status := by
  rw [statuses_settleCalls hnew, List.count, List.countP_map]
  refine List.countP_congr fun i _ => ?_
  simp [toU8_injective.eq_iff]

omit [DecidableEq D] in
/-- The state of the batch counts the decisions. -/
theorem state_settleCalls (hnew : ∀ t ∈ txs, t.decided [] = t) :
    computeReconciliationState ((settleCalls txs calls).map (·.status)) =
      ⟨txs.length,
        (List.range txs.length).countP fun i => decidedStatus (callsFor i calls) = .reconciled,
        (List.range txs.length).countP fun i => decidedStatus (callsFor i calls) = .failedReconciliation,
        (List.range txs.length).countP fun i => callsFor i calls = [], 0⟩ := by
  have hlength : ((settleCalls txs calls).map (·.status)).length = txs.length := by
    rw [settleCalls_eq hnew, List.length_map, List.length_mapIdx]
  have hpending : (List.range txs.length).countP (fun i => decidedStatus (callsFor i calls) =
      .pendingReconciliation) = (List.range txs.length).countP fun i => callsFor i calls = [] := by
    refine List.countP_congr fun i _ => ?_
    rcases callsFor i calls with _ | ⟨a, l⟩
    · rfl
    · cases a <;> simp [decidedStatus]
  have hdisputed : (List.range txs.length).countP (fun i => decidedStatus (callsFor i calls) = .disputed) = 0 := by
    rw [List.countP_eq_zero]
    intro i _
    rcases callsFor i calls with _ | ⟨a, l⟩
    · simp [decidedStatus]
    · cases a <;> simp [decidedStatus]
  rw [computeReconciliationState_eq, hlength, count_settleCalls hnew, count_settleCalls hnew,
    count_settleCalls hnew, count_settleCalls hnew, hpending, hdisputed]

/-- The calls for a transaction have reconciled it, failed it or left it pending. -/
theorem decided_once (l : List Call) : (if decidedStatus l = .reconciled then 1 else 0) +
    (if decidedStatus l = .failedReconciliation then 1 else 0) + (if l = [] then 1 else 0) = 1 := by
  rcases l with _ | ⟨a, l⟩
  · rfl
  · cases a <;> rfl

theorem countP_decided (l : List ℕ) : l.countP (fun i => decidedStatus (callsFor i calls) = .reconciled) +
    l.countP (fun i => decidedStatus (callsFor i calls) = .failedReconciliation) +
    l.countP (fun i => callsFor i calls = []) = l.length := by
  induction l with
  | nil => rfl
  | cons i l ih =>
    have honce := decided_once (callsFor i calls)
    rw [List.length_cons, ← ih]
    simp only [List.countP_cons, decide_eq_true_eq]
    omega

/-- **The first decision on a transaction stands**, in every sequence of calls on a batch of new transactions:
    later calls at most move the time of a failure, and the hash is verified as before.  The state of the batch
    counts the decisions: it is settled when the first call for each transaction reconciles it, and has failed
    when the first call for one fails it. -/
theorem run_reconciled (sha256 : Bytes → D) (hnew : ∀ t ∈ txs, t.decided [] = t) :
    (∀ (i : ℕ) t, txs[i]? = some t →
      (settleCalls txs calls)[i]? = some (t.decided (callsFor i calls)) ∧
        verifyTransactionIntegrity sha256 (t.decided (callsFor i calls)) = verifyTransactionIntegrity sha256 t) ∧
    let state := computeReconciliationState ((settleCalls txs calls).map (·.status))
    (state.totalTransactions = txs.length ∧ state.disputedCount = 0 ∧
        state.successfulCount + state.failedCount + state.pendingCount = txs.length) ∧
      (state.allSettled = true ↔ ∀ i < txs.length, decidedStatus (callsFor i calls) = .reconciled) ∧
      (state.anyFailed = true ↔ ∃ i < txs.length, decidedStatus (callsFor i calls) = .failedReconciliation) := by
  refine ⟨fun i t hi => ⟨?_, rfl⟩, ?_⟩
  · rw [settleCalls_eq hnew, List.getElem?_mapIdx, hi]
    rfl
  simp only [state_settleCalls hnew]
  refine ⟨⟨trivial, trivial, ?_⟩, ?_, ?_⟩
  · rw [countP_decided, List.length_range]
  · have hall := List.countP_eq_length (p := fun i => decide (decidedStatus (callsFor i calls) = .reconciled))
      (l := List.range txs.length)
    rw [List.length_range] at hall
    rw [ReconciliationState.allSettled, decide_eq_true_eq]
    refine hall.trans ?_
    simp only [List.mem_range, decide_eq_true_eq]
  · rw [ReconciliationState.anyFailed, Bool.or_eq_true, decide_eq_true_eq, decide_eq_true_eq, List.countP_pos_iff]
    simp

end

/-- A failure of a reconciled transaction and a reconciliation of a failed one, both refused. -/
def contested : List (ℕ × Call) := [(0, .reconcile 5), (1, .fail 6), (0, .fail 7), (1, .reconcile 8), (1, .fail 9)]

theorem run_reconciled_contested :
    (computeReconciliationState ((settleCalls [signed (payment (account 66) 5) 5,
      signed (payment (account 67) 5) 5] contested).map (·.status))).anyFailed = true := by
  have hnew : ∀ t ∈ [signed (payment (account 66) 5) 5, signed (payment (account 67) 5) 5], t.decided [] = t := by
    intro t ht
    simp only [List.mem_cons, List.not_mem_nil, or_false] at ht
    rcases ht with rfl | rfl <;> rfl
  exact (run_reconciled id hnew).2.2.2.2 ⟨1, by decide, rfl⟩

end OfflineManager
