/-
  AuditLedger — the hashes of the contract.

  * `computeEventId` addresses an event by its content, time and position;
  * `computeEventHash` links an event to its predecessor;
  * `computeContentHash` identifies content, whenever and wherever it is logged.

  Where `sha256` has no collisions, an id determines its position, and a content
  hash determines type, submitter and metadata.
-/
import AuditTransparency.Ledger.Types
import AuditTransparency.Soroban.Words
import Mathlib.Tactic.IntervalCases

namespace AuditLedger

open Soroban

variable {D : Type}

/-! ## Encodings -/

def u64ToBytes (v : ℕ) : Bytes :=
  [byteAt v 0, byteAt v 8, byteAt v 16, byteAt v 24, byteAt v 32, byteAt v 40, byteAt v 48, byteAt v 56]

def u32ToBytes (v : ℕ) : Bytes := [byteAt v 0, byteAt v 8, byteAt v 16, byteAt v 24]

theorem u32ToBytes_injective {v w : ℕ} (hv : v < 2 ^ 32) (hw : w < 2 ^ 32)
    (h : u32ToBytes v = u32ToBytes w) : v = w := by
  simp only [u32ToBytes, List.cons.injEq, and_true] at h
  rw [← word_byteAt hv, ← word_byteAt hw, h.1, h.2.1, h.2.2.1, h.2.2.2]

theorem u64ToBytes_injective {v w : ℕ} (hv : v < 2 ^ 64) (hw : w < 2 ^ 64)
    (h : u64ToBytes v = u64ToBytes w) : v = w := by
  simp only [u64ToBytes, List.cons.injEq, and_true] at h
  refine eq_of_byteAt (n := 8) hv hw fun i hi => ?_
  interval_cases i <;> simp only [h]

/-- A `u64` is known from its bytes. -/
theorem u64ToBytes_toNat_injective {v w : UInt64} (h : u64ToBytes v.toNat = u64ToBytes w.toNat) : v = w :=
  UInt64.toNat.inj (u64ToBytes_injective v.toNat_lt w.toNat_lt h)

/-- The bytes are those of the number as a `u64`. -/
theorem u64ToBytes_ofNat (n : ℕ) : u64ToBytes (UInt64.ofNat n).toNat = u64ToBytes n := by
  have hbyte : ∀ k ≤ 56, byteAt (n % 2 ^ 64) k = byteAt n k := by
    intro k hk
    refine UInt8.toNat.inj ?_
    rw [byteAt_toNat, byteAt_toNat]
    obtain ⟨j, hj⟩ : ∃ j, 2 ^ 64 = 2 ^ k * (256 * 2 ^ j) := ⟨56 - k, by
      rw [show (256 : ℕ) = 2 ^ 8 from rfl, ← pow_add, ← pow_add]; congr 1; omega⟩
    rw [hj, Nat.mod_mul_right_div_self, Nat.mod_mul_right_mod]
  simp only [u64ToBytes, UInt64.toNat_ofNat']
  simp only [hbyte _ (show 0 ≤ 56 by omega), hbyte _ (show 8 ≤ 56 by omega),
    hbyte _ (show 16 ≤ 56 by omega),
    hbyte _ (show 24 ≤ 56 by omega), hbyte _ (show 32 ≤ 56 by omega), hbyte _ (show 40 ≤ 56 by omega),
    hbyte _ (show 48 ≤ 56 by omega), hbyte _ (show 56 ≤ 56 by omega)]

/-! ## Packed positions -/

theorem length_flatMap_u32ToBytes (l : List ℕ) : (l.flatMap u32ToBytes).length = 4 * l.length := by
  induction l with
  | nil => rfl
  | cons i l ih =>
    have hlen : (u32ToBytes i).length = 4 := rfl
    rw [List.flatMap_cons, List.length_append, ih, hlen, List.length_cons]
    omega

/-- What is packed can be read back. -/
theorem words_flatMap_u32ToBytes {l : List ℕ} (h : ∀ i ∈ l, i < 2 ^ 32) :
    words (l.flatMap u32ToBytes) = l := by
  induction l with
  | nil => rfl
  | cons i l ih =>
    rw [List.forall_mem_cons] at h
    simp only [List.flatMap_cons, u32ToBytes, List.cons_append, List.nil_append, words,
      word_byteAt h.1]
    exact congrArg (i :: ·) (ih h.2)

/-! ## Hashes -/

/-- `compute_event_id` -/
def computeEventId (H : Host D) (env : Env) (submitter : Address) (eventType : Symbol)
    (metadata : Bytes) (timestamp index : ℕ) : D :=
  H.sha256 (H.contract.strkey ++ submitter.strkey ++ u64ToBytes (env.payload eventType).toNat ++
    metadata ++ u64ToBytes timestamp ++ u32ToBytes index)

/-- `compute_event_hash` -/
def computeEventHash (H : Host D) (eventId prevHash : D) (index timestamp : ℕ) : D :=
  H.sha256 (H.bytesOf eventId ++ H.bytesOf prevHash ++ u32ToBytes index ++ u64ToBytes timestamp)

/-- `compute_content_hash` -/
def computeContentHash (H : Host D) (env : Env) (eventType : Symbol) (submitter : Address)
    (metadata : Bytes) : D :=
  H.sha256 (u64ToBytes (env.payload eventType).toNat ++ submitter.strkey ++ metadata)

/-! ## Ids and positions -/

/-- `id` can be the id of an event at position `i`. -/
def IdAt (H : Host D) (i : ℕ) (id : D) : Prop := ∃ pre, id = H.sha256 (pre ++ u32ToBytes i)

theorem idAt_computeEventId (H : Host D) (env : Env) (submitter : Address) (eventType : Symbol)
    (metadata : Bytes) (timestamp index : ℕ) :
    IdAt H index (computeEventId H env submitter eventType metadata timestamp index) := ⟨_, rfl⟩

/-- Events at different positions have different ids. -/
theorem IdAt.unique {H : Host D} (hinj : Function.Injective H.sha256) {i j : ℕ} {id : D}
    (hi : i < 2 ^ 32) (hj : j < 2 ^ 32) (h : IdAt H i id) (h' : IdAt H j id) : i = j := by
  obtain ⟨pre, rfl⟩ := h
  obtain ⟨pre', he⟩ := h'
  exact u32ToBytes_injective hi hj (List.append_inj' (hinj he) rfl).2

/-- Events that agree in everything but the metadata have different ids. -/
theorem computeEventId_metadata {H : Host D} (hinj : Function.Injective H.sha256) {env env' : Env}
    {a : Address} {t : Symbol} {m m' : Bytes} {ts i : ℕ}
    (h : computeEventId H env a t m ts i = computeEventId H env' a t m' ts i) : m = m' := by
  have hb := hinj h
  have hb := (List.append_inj' hb rfl).1
  have hb := (List.append_inj' hb rfl).1
  exact (List.append_inj hb (by simp [u64ToBytes])).2

/-- Events that agree in everything have one id only when their type has one payload. -/
theorem computeEventId_payload {H : Host D} (hinj : Function.Injective H.sha256) {env env' : Env}
    {a : Address} {t : Symbol} {m : Bytes} {ts i : ℕ}
    (h : computeEventId H env a t m ts i = computeEventId H env' a t m ts i) :
    env.payload t = env'.payload t := by
  have hb := hinj h
  have hb := (List.append_inj' hb rfl).1
  have hb := (List.append_inj' hb rfl).1
  have hb := (List.append_inj' hb rfl).1
  have hb := (List.append_inj hb rfl).2
  exact UInt64.toNat.inj (u64ToBytes_injective (UInt64.toNat_lt _) (UInt64.toNat_lt _) hb)

/-- The content hash determines the content. -/
theorem computeContentHash_injective {H : Host D} (hinj : Function.Injective H.sha256)
    {env env' : Env} {t t' : Symbol} {a a' : Address} {m m' : Bytes}
    (h : computeContentHash H env t a m = computeContentHash H env' t' a' m') :
    env.payload t = env'.payload t' ∧ a = a' ∧ m = m' := by
  have hb := hinj h
  obtain ⟨hb, hm⟩ := List.append_inj hb (by simp [u64ToBytes, a.length_eq, a'.length_eq])
  obtain ⟨hp, ha⟩ := List.append_inj hb (by simp [u64ToBytes])
  refine ⟨?_, ?_, hm⟩
  · exact UInt64.toNat.inj (u64ToBytes_injective (UInt64.toNat_lt _) (UInt64.toNat_lt _) hp)
  · obtain ⟨k, hk⟩ := a; obtain ⟨k', hk'⟩ := a'
    simp only [Address.mk.injEq]; exact ha

end AuditLedger
