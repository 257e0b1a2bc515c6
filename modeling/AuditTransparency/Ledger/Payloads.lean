/-
  AuditLedger — the bits of a symbol in the hashes.

  Content hashes and event ids contain the raw bits of the event type.  A symbol of
  at most nine characters is encoded in them; a longer one is an object of the
  host, and its bits are a handle that belongs to the invocation.

  * `symbolPayload_injective`: short symbols are known from their bits;
  * `hashes_exact_iff`: when the hashes identify what they are computed from.
-/
import AuditTransparency.Ledger.Contract
import Mathlib.Data.Nat.Digits.Lemmas

namespace AuditLedger

open Soroban
open Soroban.Call hiding hasPers publish

variable {D : Type} {H : Host D} {env env' : Env} {t t' : Symbol} {c c' : Char} {cs : List Char} {k : ℕ}

/-! ## Numerals without zeros -/

/-- A numeral, by its digits from the first on. -/
def numeral (b : ℕ) (l : List ℕ) : ℕ := l.foldl (fun acc d => acc * b + d) 0

theorem numeral_eq_ofDigits (b : ℕ) (l : List ℕ) : numeral b l = Nat.ofDigits b l.reverse := by
  rw [numeral, List.foldl_eq_foldr_reverse, Nat.ofDigits_eq_foldr]
  congr 1
  funext d acc
  simp only [Nat.cast_id]
  ring

/-- A numeral without zeros determines its digits, and how many they are. -/
theorem numeral_inj {b : ℕ} (hb : 1 < b) {l l' : List ℕ} (hl : ∀ d ∈ l, 0 < d ∧ d < b)
    (hl' : ∀ d ∈ l', 0 < d ∧ d < b) (h : numeral b l = numeral b l') : l = l' := by
  have hdigits : ∀ l : List ℕ, (∀ d ∈ l, 0 < d ∧ d < b) → Nat.digits b (numeral b l) = l.reverse := by
    intro l hl
    rw [numeral_eq_ofDigits]
    refine Nat.digits_ofDigits b hb l.reverse (fun d hd => (hl d (List.mem_reverse.1 hd)).2) fun hne => ?_
    exact (hl _ (List.mem_reverse.1 (List.getLast_mem hne))).1.ne'
  have hrev := hdigits l hl
  rw [h, hdigits l' hl'] at hrev
  exact (List.reverse_injective hrev).symm

/-! ## Short symbols -/

/-- The characters of symbols. -/
def IsSymbolChar (c : Char) : Prop := c = '_' ∨ c.isDigit ∨ c.isUpper ∨ c.isLower

/-- A symbol has one to 32 of these characters. -/
structure IsSymbol (t : Symbol) : Prop where
  pos : 0 < t.length
  le : t.length ≤ 32
  chars : ∀ c ∈ t.toList, IsSymbolChar c

theorem toNat_shift {n : ℕ} (k : UInt64) (hk : k.toNat ≤ n) (hn : n < 2 ^ 64) :
    (n.toUInt64 - k).toNat = n - k.toNat := by
  have hval : n.toUInt64.toNat = n := UInt64.toNat_ofNat_of_lt' hn
  rw [UInt64.toNat_sub_of_le _ _ (by rw [UInt64.le_iff_toNat_le, hval]; exact hk), hval]

/-- The code of a character. -/
theorem symbolCode_cases (h : IsSymbolChar c) :
    c = '_' ∧ (symbolCode c).toNat = 1 ∨
    48 ≤ c.toNat ∧ c.toNat ≤ 57 ∧ (symbolCode c).toNat = c.toNat - 46 ∨
    65 ≤ c.toNat ∧ c.toNat ≤ 90 ∧ (symbolCode c).toNat = c.toNat - 53 ∨
    97 ≤ c.toNat ∧ c.toNat ≤ 122 ∧ (symbolCode c).toNat = c.toNat - 59 := by
  have hne : ∀ {n : ℕ}, c.toNat = n → n ≠ 95 → c ≠ '_' := by
    rintro n hn hn' rfl
    exact hn' hn.symm
  rcases h with rfl | h | h | h
  · exact Or.inl ⟨rfl, rfl⟩
  · simp only [Char.isDigit, Bool.and_eq_true, decide_eq_true_eq] at h
    obtain ⟨hle, hge⟩ : 48 ≤ c.toNat ∧ c.toNat ≤ 57 := ⟨h.1, h.2⟩
    refine Or.inr (Or.inl ⟨hle, hge, ?_⟩)
    rw [symbolCode, if_neg (hne rfl (by omega)), if_pos (by omega)]
    exact toNat_shift 46 (show 46 ≤ c.toNat by omega) (by omega)
  · obtain ⟨hle, hge⟩ : 65 ≤ c.toNat ∧ c.toNat ≤ 90 := of_decide_eq_true h
    refine Or.inr (Or.inr (Or.inl ⟨hle, hge, ?_⟩))
    rw [symbolCode, if_neg (hne rfl (by omega)), if_neg (by omega), if_pos (by omega)]
    exact toNat_shift 53 (show 53 ≤ c.toNat by omega) (by omega)
  · have h : (decide _ && decide _) = true := h
    rw [Bool.and_eq_true] at h
    obtain ⟨hle, hge⟩ : 97 ≤ c.toNat ∧ c.toNat ≤ 122 := ⟨of_decide_eq_true h.1, of_decide_eq_true h.2⟩
    refine Or.inr (Or.inr (Or.inr ⟨hle, hge, ?_⟩))
    rw [symbolCode, if_neg (hne rfl (by omega)), if_neg (by omega), if_neg (by omega)]
    exact toNat_shift 59 (show 59 ≤ c.toNat by omega) (by omega)

theorem symbolCode_bounds (h : IsSymbolChar c) : 0 < (symbolCode c).toNat ∧ (symbolCode c).toNat < 64 := by
  rcases symbolCode_cases h with h | h | h | h <;> omega

/-- Characters with one code are the same. -/
theorem symbolCode_inj (h : IsSymbolChar c) (h' : IsSymbolChar c')
    (heq : (symbolCode c).toNat = (symbolCode c').toNat) : c = c' := by
  have htoNat : c.toNat = c'.toNat := by
    have hunder : '_'.toNat = 95 := rfl
    rcases symbolCode_cases h with ⟨rfl, h⟩ | h | h | h <;>
      rcases symbolCode_cases h' with ⟨rfl, h'⟩ | h' | h' | h' <;> omega
  exact Char.ext (UInt32.toNat.inj htoNat)

theorem map_symbolCode_inj {cs' : List Char} (hcs : ∀ c ∈ cs, IsSymbolChar c)
    (hcs' : ∀ c ∈ cs', IsSymbolChar c)
    (h : cs.map (fun c => (symbolCode c).toNat) = cs'.map (fun c => (symbolCode c).toNat)) : cs = cs' := by
  induction cs generalizing cs' with
  | nil => exact (List.map_eq_nil_iff.1 h.symm).symm
  | cons c cs ih =>
    cases cs' with
    | nil => cases h
    | cons c' cs' =>
      rw [List.forall_mem_cons] at hcs hcs'
      obtain ⟨hcode, hrest⟩ := List.cons.inj h
      rw [symbolCode_inj hcs.1 hcs'.1 hcode, ih hcs.2 hcs'.2 hrest]

/-- Nine characters do not overflow. -/
theorem toNat_foldl_symbolCode (hchars : ∀ c ∈ cs, IsSymbolChar c) (acc : UInt64) (hacc : acc.toNat < 64 ^ k)
    (hlen : k + cs.length ≤ 9) :
    (cs.foldl (fun acc c => acc * 64 + symbolCode c) acc).toNat =
        (cs.map fun c => (symbolCode c).toNat).foldl (fun acc d => acc * 64 + d) acc.toNat ∧
      (cs.foldl (fun acc c => acc * 64 + symbolCode c) acc).toNat < 64 ^ 9 := by
  induction cs generalizing acc k with
  | nil => exact ⟨rfl, hacc.trans_le (Nat.pow_le_pow_right (by decide) hlen)⟩
  | cons c cs ih =>
    rw [List.forall_mem_cons] at hchars
    rw [List.length_cons] at hlen
    have hcode := symbolCode_bounds hchars.1
    have hpow : 64 ^ (k + 1) ≤ 64 ^ 9 := Nat.pow_le_pow_right (by decide) (by omega)
    have hsucc : 64 ^ (k + 1) = 64 ^ k * 64 := pow_succ 64 k
    have hnext : (acc * 64 + symbolCode c).toNat = acc.toNat * 64 + (symbolCode c).toNat := by
      rw [UInt64.toNat_add, UInt64.toNat_mul]
      have hbase : (64 : UInt64).toNat = 64 := rfl
      rw [hbase]
      omega
    have hrest := ih (k := k + 1) hchars.2 (acc * 64 + symbolCode c) (by omega) (by omega)
    rw [hnext] at hrest
    exact hrest

/-- The bits of a short symbol. -/
theorem symbolPayload_toNat (ht : IsSymbol t) (hshort : t.length ≤ 9) :
    (symbolPayload t).toNat = numeral 64 (t.toList.map fun c => (symbolCode c).toNat) * 256 + 14 := by
  have hcodes := toNat_foldl_symbolCode (k := 0) ht.chars 0 (by decide)
    (by rw [String.length_toList]; omega)
  obtain ⟨hnumeral, hlt⟩ := hcodes
  have htag : (256 : UInt64).toNat = 256 ∧ (14 : UInt64).toNat = 14 := ⟨rfl, rfl⟩
  rw [hnumeral] at hlt
  rw [symbolPayload, UInt64.toNat_add, UInt64.toNat_mul, htag.1, htag.2, hnumeral, numeral]
  have hzero : (0 : UInt64).toNat = 0 := rfl
  rw [hzero] at hlt ⊢
  omega

/-- **Short symbols are known from their bits.** -/
theorem symbolPayload_inj (ht : IsSymbol t) (ht' : IsSymbol t') (hshort : t.length ≤ 9)
    (hshort' : t'.length ≤ 9) (h : symbolPayload t = symbolPayload t') : t = t' := by
  have hnum := congrArg UInt64.toNat h
  rw [symbolPayload_toNat ht hshort, symbolPayload_toNat ht' hshort'] at hnum
  have hbounds : ∀ {t : Symbol}, IsSymbol t →
      ∀ d ∈ t.toList.map (fun c => (symbolCode c).toNat), 0 < d ∧ d < 64 := by
    intro t ht d hd
    obtain ⟨c, hc, rfl⟩ := List.mem_map.1 hd
    exact symbolCode_bounds (ht.chars c hc)
  have hcodes := numeral_inj (by decide) (hbounds ht) (hbounds ht') (by omega)
  refine String.toList_injective ?_
  exact map_symbolCode_inj ht.chars ht'.chars hcodes

/-! ## Invocations -/

/-- **The bits of symbols in an invocation**: a short symbol is encoded in them, and those of a longer one are a
    handle, which the tag of symbol objects tells apart. -/
structure SdkPayload (payload : Symbol → UInt64) : Prop where
  short : ∀ t, IsSymbol t → t.length ≤ 9 → payload t = symbolPayload t
  long : ∀ t, IsSymbol t → 9 < t.length → (payload t).toNat % 256 = 74

/-- The handles of long symbols agree exactly when the symbols do. -/
def SameHandles (env env' : Env) (t t' : Symbol) : Prop :=
  9 < t.length → 9 < t'.length → (env.payload t = env'.payload t' ↔ t = t')

theorem SdkPayload.ne_of_short (h : SdkPayload env.payload) (h' : SdkPayload env'.payload) (ht : IsSymbol t)
    (ht' : IsSymbol t') (hshort : t.length ≤ 9) (hlong : 9 < t'.length) : env.payload t ≠ env'.payload t' := by
  intro heq
  have htag := h'.long t' ht' hlong
  rw [← heq, h.short t ht hshort, symbolPayload_toNat ht hshort] at htag
  omega

/-- The bits identify a symbol, but for handles. -/
theorem SdkPayload.eq_iff (h : SdkPayload env.payload) (h' : SdkPayload env'.payload) (ht : IsSymbol t)
    (ht' : IsSymbol t') : (env.payload t = env'.payload t' ↔ t = t') ↔ SameHandles env env' t t' := by
  unfold SameHandles
  rcases Nat.lt_or_ge 9 t.length with hlong | hshort <;> rcases Nat.lt_or_ge 9 t'.length with hlong' | hshort'
  · rw [forall_prop_of_true hlong, forall_prop_of_true hlong']
  · refine iff_of_true (iff_of_false (h'.ne_of_short h ht' ht hshort' hlong).symm ?_) fun _ hgt => ?_
    · rintro rfl
      omega
    · omega
  · refine iff_of_true (iff_of_false (h.ne_of_short h' ht ht' hshort hlong') ?_) fun hgt => ?_
    · rintro rfl
      omega
    · omega
  · refine iff_of_true ⟨fun heq => ?_, ?_⟩ fun hgt => ?_
    · rw [h.short t ht hshort, h'.short t' ht' hshort'] at heq
      exact symbolPayload_inj ht ht' hshort hshort' heq
    · rintro rfl
      rw [h.short t ht hshort, h'.short t ht hshort]
    · omega

section
variable (hinj : Function.Injective H.sha256) {a a' : Address} {m m' : Bytes} {ts ts' i i' : ℕ}
include hinj

theorem computeContentHash_eq_iff : computeContentHash H env t a m = computeContentHash H env' t' a' m' ↔
    env.payload t = env'.payload t' ∧ a = a' ∧ m = m' := by
  constructor
  · exact computeContentHash_injective hinj
  · rintro ⟨hp, rfl, rfl⟩
    rw [computeContentHash, hp, computeContentHash]

theorem computeEventId_eq_iff (hts : ts < 2 ^ 64) (hts' : ts' < 2 ^ 64) (hi : i < 2 ^ 32) (hi' : i' < 2 ^ 32) :
    computeEventId H env a t m ts i = computeEventId H env' a' t' m' ts' i' ↔
      env.payload t = env'.payload t' ∧ a = a' ∧ m = m' ∧ ts = ts' ∧ i = i' := by
  constructor
  · intro h
    obtain ⟨h, hindex⟩ := List.append_inj' (hinj h) rfl
    obtain ⟨h, htime⟩ := List.append_inj' h rfl
    obtain ⟨h, hmeta⟩ := List.append_inj h (by simp [u64ToBytes, a.length_eq, a'.length_eq])
    obtain ⟨h, hpayload⟩ := List.append_inj' h rfl
    obtain ⟨-, hstrkey⟩ := List.append_inj h rfl
    refine ⟨u64ToBytes_toNat_injective hpayload, ?_, hmeta, u64ToBytes_injective hts hts' htime,
      u32ToBytes_injective hi hi' hindex⟩
    cases a
    cases a'
    simpa using hstrkey
  · rintro ⟨hp, rfl, rfl, rfl, rfl⟩
    rw [computeEventId, hp, computeEventId]

/-- **When the hashes are injective and stable**: in two invocations, a content hash is the same exactly
    for the same content, and an event id exactly for the same event, unless these differ in the type alone,
    or in nothing, and the handles of long types do not tell which. -/
theorem hashes_exact_iff (a a' : Address) (m m' : Bytes) (he : SdkPayload env.payload)
    (he' : SdkPayload env'.payload) (ht : IsSymbol t) (ht' : IsSymbol t') (hts : ts < 2 ^ 64)
    (hts' : ts' < 2 ^ 64) (hi : i < 2 ^ 32) (hi' : i' < 2 ^ 32) :
    ((computeContentHash H env t a m = computeContentHash H env' t' a' m' ↔ t = t' ∧ a = a' ∧ m = m') ↔
      (a = a' ∧ m = m' → SameHandles env env' t t')) ∧
    ((computeEventId H env a t m ts i = computeEventId H env' a' t' m' ts' i' ↔
        t = t' ∧ a = a' ∧ m = m' ∧ ts = ts' ∧ i = i') ↔
      (a = a' ∧ m = m' ∧ ts = ts' ∧ i = i' → SameHandles env env' t t')) := by
  rw [computeContentHash_eq_iff hinj, computeEventId_eq_iff hinj hts hts' hi hi', ← he.eq_iff he' ht ht']
  exact ⟨and_congr_left_iff, and_congr_left_iff⟩

end

/-- An invocation in which a long symbol has the handle `handle`. -/
def invocation (handle : Symbol → UInt64) : Env :=
  ⟨0, 0, fun _ => true, fun t => if t.length ≤ 9 then symbolPayload t else handle t * 256 + 74⟩

theorem sdkPayload_invocation (handle : Symbol → UInt64) : SdkPayload (invocation handle).payload where
  short t _ hshort := if_pos hshort
  long t _ hlong := by
    have htag : (256 : UInt64).toNat = 256 ∧ (74 : UInt64).toNat = 74 := ⟨rfl, rfl⟩
    have hbits : (invocation handle).payload t = handle t * 256 + 74 := if_neg (Nat.not_le.2 hlong)
    rw [hbits, UInt64.toNat_add, UInt64.toNat_mul, htag.1, htag.2]
    omega

instance : DecidablePred IsSymbolChar := fun c =>
  inferInstanceAs (Decidable (c = '_' ∨ c.isDigit ∨ c.isUpper ∨ c.isLower))

/-- A symbol, by a check of its characters. -/
theorem IsSymbol.of_all (h : 0 < t.length ∧ t.length ≤ 32 ∧ t.toList.all (fun c => decide (IsSymbolChar c))) :
    IsSymbol t :=
  ⟨h.1, h.2.1, fun c hc => of_decide_eq_true (List.all_eq_true.1 h.2.2 c hc)⟩

theorem hashes_exact_iff_short :
    (computeContentHash plainHost (invocation fun _ => 1) "login" (account 65) [1] =
        computeContentHash plainHost (invocation fun _ => 2) "logout" (account 65) [1] ↔
      "login" = "logout" ∧ account 65 = account 65 ∧ ([1] : Bytes) = [1]) ∧
    (computeEventId plainHost (invocation fun _ => 1) (account 65) "login" [1] 5 0 =
        computeEventId plainHost (invocation fun _ => 2) (account 65) "logout" [1] 5 0 ↔
      "login" = "logout" ∧ account 65 = account 65 ∧ ([1] : Bytes) = [1] ∧ 5 = 5 ∧ 0 = 0) := by
  have hlogin : IsSymbol "login" := .of_all (by decide)
  have hlogout : IsSymbol "logout" := .of_all (by decide)
  have hhandles : SameHandles (invocation fun _ => 1) (invocation fun _ => 2) "login" "logout" :=
    fun hlong => absurd hlong (by decide)
  have hexact := hashes_exact_iff (H := plainHost) Function.injective_id (account 65) (account 65) [1] [1]
    (sdkPayload_invocation fun _ => 1) (sdkPayload_invocation fun _ => 2) hlogin hlogout
    (show 5 < 2 ^ 64 by decide) (show 5 < 2 ^ 64 by decide) (show 0 < 2 ^ 32 by decide) (show 0 < 2 ^ 32 by decide)
  exact ⟨hexact.1.2 fun _ => hhandles, hexact.2.2 fun _ => hhandles⟩

/-- **A long type has another hash in another invocation**, and may there have the hash of another type. -/
theorem hashes_not_exact : ∃ env env', SdkPayload env.payload ∧ SdkPayload env'.payload ∧
    IsSymbol "trade_settled" ∧ IsSymbol "trade_cancelled" ∧
    computeContentHash plainHost env "trade_settled" (account 66) [1] ≠
      computeContentHash plainHost env' "trade_settled" (account 66) [1] ∧
    computeContentHash plainHost env "trade_settled" (account 66) [1] =
      computeContentHash plainHost env' "trade_cancelled" (account 66) [1] ∧
    computeEventId plainHost env (account 66) "trade_settled" [1] 5 0 ≠
      computeEventId plainHost env' (account 66) "trade_settled" [1] 5 0 ∧
    computeEventId plainHost env (account 66) "trade_settled" [1] 5 0 =
      computeEventId plainHost env' (account 66) "trade_cancelled" [1] 5 0 := by
  refine ⟨invocation fun _ => 1, invocation fun t => if t = "trade_settled" then 2 else 1, sdkPayload_invocation _,
    sdkPayload_invocation _, .of_all (by decide), .of_all (by decide), ?_⟩
  decide

end AuditLedger
