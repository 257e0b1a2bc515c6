/-
  AuditLedger — the codec of archived payloads.

  `compress_bytes` writes a run of three or more as four bytes, with the low 16 bits of its length;
  `expand_archived_metadata` takes a run item only when a byte stands behind it.

  * `length_expandItems_items`: an expansion is never longer than what was compressed;
  * `archivedMetadata_restored_iff`: a payload comes back exactly when it does not end in a run of three and has no
    run of 65536.
-/
import AuditTransparency.Soroban.ListRuns
import AuditTransparency.Ledger.Archive

namespace AuditLedger

open Soroban

variable {p q t : Bytes} {b : UInt8} {r n : ℕ}

/-! ## The items of a payload -/

/-- What `compress_bytes` writes behind the tag. -/
abbrev itemsOf (p : Bytes) : Bytes := encodeRuns p.length p

theorem takeWhile_run (hq : q.head? ≠ some b) :
    ((List.replicate (r - 1) b ++ q).takeWhile (· = b)).length = r - 1 := by
  rw [List.takeWhile_append_of_pos (by simp)]
  rcases q with _ | ⟨c, q⟩
  · simp
  · have hc : c ≠ b := fun he => hq (congrArg some he)
    simp [hc]

/-- One round of the loop takes the first run. -/
theorem encodeRuns_run (hr : 0 < r) (hq : q.head? ≠ some b) :
    encodeRuns (n + 1) (List.replicate r b ++ q) = encodeRun b r ++ encodeRuns n q := by
  obtain ⟨r, rfl⟩ : ∃ k, r = k + 1 := ⟨r - 1, by omega⟩
  have htake := takeWhile_run (r := r + 1) hq
  rw [Nat.add_sub_cancel] at htake
  rw [List.replicate_succ, List.cons_append, encodeRuns, htake, List.drop_left' List.length_replicate]

theorem encodeRuns_of_le (h : p.length ≤ n) : encodeRuns n p = itemsOf p := by
  induction p using runs_induction generalizing n with
  | nil => cases n <;> rfl
  | run b r q hr hq ih =>
    have hlen : (List.replicate r b ++ q).length = r + q.length := by simp
    obtain ⟨n, rfl⟩ : ∃ k, n = k + 1 := ⟨n - 1, by omega⟩
    obtain ⟨m, hm⟩ : ∃ k, r + q.length = k + 1 := ⟨r + q.length - 1, by omega⟩
    rw [itemsOf, hlen, hm, encodeRuns_run hr hq, encodeRuns_run hr hq, ih (by omega), ih (by omega)]

@[simp]
theorem itemsOf_nil : itemsOf [] = [] := rfl

theorem itemsOf_run (hr : 0 < r) (hq : q.head? ≠ some b) :
    itemsOf (List.replicate r b ++ q) = encodeRun b r ++ itemsOf q := by
  rw [← encodeRuns_of_le (n := (List.replicate r b ++ q).length + 1) (Nat.le_succ _), encodeRuns_run hr hq,
    encodeRuns_of_le (by simp)]

theorem itemsOf_ne_nil (h : q ≠ []) : itemsOf q ≠ [] := by
  induction q using runs_induction with
  | nil => exact absurd rfl h
  | run b r q hr hq _ =>
    obtain ⟨r, rfl⟩ : ∃ k, r = k + 1 := ⟨r - 1, by omega⟩
    rw [itemsOf_run hr hq, encodeRun]
    split
    · simp
    · rw [List.replicate_succ, List.flatten_cons]
      split <;> simp

/-! ## What an item expands to -/

/-- Literals are kept, the two tag bytes among them. -/
theorem expandItems_literals (r : ℕ) :
    expandItems ((List.replicate r (if b = 0x00 ∨ b = 0x01 then [0x00, b] else [b])).flatten ++ t) =
      List.replicate r b ++ expandItems t := by
  induction r with
  | zero => rfl
  | succ r ih =>
    rw [List.replicate_succ, List.flatten_cons, List.append_assoc, List.replicate_succ, List.cons_append, ← ih]
    split
    · exact expandItems_literal b _
    · next h =>
      rw [not_or] at h
      exact expandItems_other h.1 h.2 _

theorem expandItems_encodeRun_short (h : r < 3) :
    expandItems (encodeRun b r ++ t) = List.replicate r b ++ expandItems t := by
  rw [encodeRun, if_neg (by omega)]
  exact expandItems_literals r

theorem byteAt_length : (byteAt r 0).toNat + 256 * (byteAt r 8).toNat = r % 65536 := by
  have hand (v : ℕ) : v &&& 0xff = v % 256 := Nat.and_two_pow_sub_one_eq_mod v 8
  have h0 : (byteAt r 0).toNat = r % 256 := by
    rw [byteAt, hand, Nat.shiftRight_zero, UInt8.toNat_ofNat', Nat.mod_mod]
  have h8 : (byteAt r 8).toNat = r / 256 % 256 := by
    rw [byteAt, hand, Nat.shiftRight_eq_div_pow, UInt8.toNat_ofNat', Nat.mod_mod]
  omega

/-- A run item with something behind it gives the length that fits its two bytes. -/
theorem expandItems_encodeRun_long (h : 3 ≤ r) (ht : t ≠ []) :
    expandItems (encodeRun b r ++ t) = List.replicate (r % 65536) b ++ expandItems t := by
  obtain ⟨x, t, rfl⟩ := List.exists_cons_of_ne_nil ht
  rw [encodeRun, if_pos h, ← byteAt_length]
  exact expandItems_run b _ _ x t

/-- A run item at the end is passed over, and the three bytes behind its tag are read as items. -/
theorem length_expandItems_last (h : 3 ≤ r) : (expandItems (encodeRun b r)).length < r := by
  rw [encodeRun, if_pos h, expandItems_short (by simp)]
  rcases Nat.eq_or_lt_of_le h with rfl | hlt
  · by_cases h₀ : b = 0
    · subst h₀
      decide
    by_cases h₁ : b = 1
    · subst h₁
      decide
    · rw [expandItems_other h₀ h₁]
      have : (expandItems [byteAt 3 0, byteAt 3 8]).length = 1 := by decide
      simp [this]
  · exact Nat.lt_of_le_of_lt (length_expandItems_le (by simp)) hlt

/-! ## The round trip -/

/-- An expansion is never longer than what was compressed. -/
theorem length_expandItems_items (p : Bytes) : (expandItems (itemsOf p)).length ≤ p.length := by
  induction p using runs_induction with
  | nil => simp
  | run b r q hr hq ih =>
    rw [itemsOf_run hr hq, List.length_append, List.length_replicate]
    rcases Nat.lt_or_ge r 3 with h | h
    · rw [expandItems_encodeRun_short h]
      simpa using ih
    · rcases eq_or_ne q [] with rfl | hne
      · have := length_expandItems_last (b := b) h
        simp only [itemsOf_nil, List.append_nil, List.length_nil]
        omega
      · rw [expandItems_encodeRun_long h (itemsOf_ne_nil hne), List.length_append, List.length_replicate]
        have := Nat.mod_le r 65536
        omega

/-- The payload does not end in three equal bytes, and has no 65536 equal bytes in a row. -/
def RunsKept (p : Bytes) : Prop :=
  (∀ b, ¬List.replicate 3 b <:+ p) ∧ ∀ b, ¬List.replicate 65536 b <:+: p

theorem runsKept_nil : RunsKept [] := by
  have hnil {k : ℕ} (hk : 0 < k) (b : UInt8) : ¬List.replicate k b <:+: [] := fun h => by
    have := h.length_le
    rw [List.length_replicate, List.length_nil] at this
    omega
  exact ⟨fun b h => hnil (by omega) b h.isInfix, hnil (by omega)⟩

/-- Copies in a row within a run are copies of its byte. -/
theorem replicate_infix_replicate {k : ℕ} (hk : 0 < k) (c : UInt8) :
    List.replicate k c <:+: List.replicate r b ↔ c = b ∧ k ≤ r := by
  rw [List.infix_replicate_iff, List.length_replicate, List.replicate_inj]
  constructor
  · rintro ⟨hle, -, h⟩
    exact ⟨h.resolve_left (by omega), hle⟩
  · rintro ⟨rfl, hle⟩
    exact ⟨hle, rfl, Or.inr rfl⟩

theorem forall_not_infix_run {k : ℕ} (hk : 0 < k) (hq : q.head? ≠ some b) :
    (∀ c, ¬List.replicate k c <:+: List.replicate r b ++ q) ↔ r < k ∧ ∀ c, ¬List.replicate k c <:+: q := by
  simp only [replicate_infix_run hq, replicate_infix_replicate hk, not_or, forall_and]
  refine and_congr_left' ⟨fun h => ?_, fun h c hc => ?_⟩
  · exact Nat.lt_of_not_le fun hle => h b ⟨rfl, hle⟩
  · omega

theorem forall_not_suffix_run {k : ℕ} (hk : 0 < k) (hq : q.head? ≠ some b) :
    (∀ c, ¬List.replicate k c <:+ List.replicate r b ++ q) ↔
      (q = [] → r < k) ∧ ∀ c, ¬List.replicate k c <:+ q := by
  rcases eq_or_ne q [] with rfl | hne
  · have hnil (c : UInt8) : ¬List.replicate k c <:+ [] := fun h => by
      have := h.length_le
      rw [List.length_replicate, List.length_nil] at this
      omega
    rw [List.append_nil]
    refine ⟨fun h => ⟨fun _ => Nat.lt_of_not_le fun hle => h b ?_, hnil⟩, fun ⟨h, _⟩ c hc => ?_⟩
    · rw [List.suffix_replicate_iff, List.length_replicate]
      exact ⟨hle, rfl⟩
    · have := ((replicate_infix_replicate hk c).1 hc.isInfix).2
      have := h rfl
      omega
  · simp only [replicate_suffix_run hq hne, hne, false_implies, true_and]

theorem runsKept_run (hq : q.head? ≠ some b) :
    RunsKept (List.replicate r b ++ q) ↔ (q = [] → r < 3) ∧ r < 65536 ∧ RunsKept q := by
  rw [RunsKept, forall_not_suffix_run (by omega) hq, forall_not_infix_run (by omega) hq, RunsKept]
  tauto

theorem expandItems_itemsOf_iff (p : Bytes) : expandItems (itemsOf p) = p ↔ RunsKept p := by
  induction p using runs_induction with
  | nil => exact iff_of_true rfl runsKept_nil
  | run b r q hr hq ih =>
    rw [itemsOf_run hr hq, runsKept_run hq]
    rcases Nat.lt_or_ge r 3 with h | h
    · rw [expandItems_encodeRun_short h, List.append_cancel_left_eq, ih]
      exact ⟨fun hq => ⟨fun _ => h, by omega, hq⟩, fun hq => hq.2.2⟩
    rcases eq_or_ne q [] with rfl | hne
    · refine iff_of_false (fun he => ?_) fun hc => ?_
      · have := length_expandItems_last (b := b) h
        rw [itemsOf_nil, List.append_nil, List.append_nil] at he
        rw [he, List.length_replicate] at this
        omega
      · have := hc.1 rfl
        omega
    · rw [expandItems_encodeRun_long h (itemsOf_ne_nil hne)]
      constructor
      · intro he
        have hlen : r % 65536 + (expandItems (itemsOf q)).length = r + q.length := by
          simpa using congrArg List.length he
        have := length_expandItems_items q
        have hmod : r % 65536 = r := by
          have := Nat.mod_le r 65536
          omega
        rw [hmod, List.append_cancel_left_eq, ih] at he
        exact ⟨fun hq => absurd hq hne, by omega, he⟩
      · rintro ⟨-, hlt, hk⟩
        rw [Nat.mod_eq_of_lt hlt, ih.2 hk]

/-- A raw payload always comes back, a compressed one exactly when its runs are kept. -/
theorem archivedMetadata_restored_iff (p : Bytes) :
    expandArchivedMetadata (compressBytes p) = p ∧ expandArchivedMetadata (tagRawBytes p) = p ↔
      (∀ b, ¬List.replicate 3 b <:+ p) ∧ ∀ b, ¬List.replicate 65536 b <:+: p := by
  have hraw : expandArchivedMetadata (tagRawBytes p) = p := rfl
  have hcompressed : expandArchivedMetadata (compressBytes p) = expandItems (itemsOf p) := rfl
  rw [hcompressed, expandItems_itemsOf_iff]
  exact and_iff_left hraw

theorem archivedMetadata_not_restored :
    expandArchivedMetadata (compressBytes [7, 7, 7]) = [7, 3] ∧ [7, 3] ≠ ([7, 7, 7] : Bytes) := by
  decide

end AuditLedger
