/-
  CrossChainSync — the books of a chain.

  The contract keeps the checkpoints of a chain, the latest of them, how far the chain is
  synchronised, and how many of its conflicts are pending.

  * `Chain.Sound`: these agree with each other; they do in every run (`Chain.Sound.effect`);
  * `Chain.Exact`: the total counts the events that the checkpoints cover.  It is one short of
    them as soon as there is a checkpoint: the event with index 0 is never counted
    (`run_exact`).
-/
import AuditTransparency.Evm.CrossChainSync
import AuditTransparency.Soroban.Run
import Mathlib.Data.Set.Card

namespace CrossChainSync

open Soroban (Run)
open Solidity
open Solidity.Tx

variable {W : Type}

namespace Chain
variable {x : Chain W}

/-- The conflicts that are not resolved. -/
def unresolved (x : Chain W) : Finset ℕ :=
  {k ∈ Finset.range x.conflictCount | (x.conflicts k).resolved = false}

theorem mem_unresolved {k : ℕ} :
    k ∈ x.unresolved ↔ k < x.conflictCount ∧ (x.conflicts k).resolved = false := by
  rw [unresolved, Finset.mem_filter, Finset.mem_range]

/-- The event was covered by a checkpoint of its own. -/
def Recorded (x : Chain W) (i : UInt32) : Prop := (x.history i).recorded = true

/-- The books agree with each other. -/
structure Sound (x : Chain W) : Prop where
  pending : x.status.pendingConflicts = x.unresolved.card
  index : ∀ i, x.Recorded i → (x.history i).eventIndex = i
  newest : ∀ i, x.Recorded i → ∃ m, x.Recorded m ∧ (∀ j, x.Recorded j → j.toNat ≤ m.toNat) ∧
    x.latest = x.history m ∧ x.status.lastSyncedIndex = m
  empty : (∀ i, ¬x.Recorded i) → x.latest.recorded = false ∧ x.status.lastSyncedIndex = 0

/-- The events that the checkpoints cover: each covers those up to its own. -/
def coveredEvents (x : Chain W) : Set ℕ :=
  {n | n ≤ x.status.lastSyncedIndex.toNat ∧ ∃ i, x.Recorded i ∧ n ≤ i.toNat}

/-- The books agree, and the total counts the events covered. -/
structure Exact (x : Chain W) : Prop extends x.Sound where
  total : ∀ i, x.Recorded i → x.status.totalSynced = x.coveredEvents.ncard

/-! ## What keeps the books -/

/-- What the books are about, conflicts apart. -/
theorem Sound.congr {y : Chain W} (h : x.Sound) (hhistory : y.history = x.history)
    (hlatest : y.latest = x.latest)
    (hlast : y.status.lastSyncedIndex = x.status.lastSyncedIndex)
    (hpending : y.status.pendingConflicts = y.unresolved.card) : y.Sound := by
  have hrecorded : ∀ i, y.Recorded i ↔ x.Recorded i := by
    intro i
    rw [Recorded, Recorded, hhistory]
  refine ⟨hpending, ?_, ?_, ?_⟩
  · intro i hi
    rw [hhistory]
    exact h.index i ((hrecorded i).1 hi)
  · intro i hi
    obtain ⟨m, hm, hmax, hxm, hxl⟩ := h.newest i ((hrecorded i).1 hi)
    refine ⟨m, (hrecorded m).2 hm, fun j hj => hmax j ((hrecorded j).1 hj), ?_, hlast.trans hxl⟩
    rw [hlatest, hxm, hhistory]
  · intro hnone
    obtain ⟨hl, hz⟩ := h.empty fun i hi => hnone i ((hrecorded i).2 hi)
    rw [hlatest, hlast]
    exact ⟨hl, hz⟩

theorem Sound.raise [Zero W] (h : x.Sound) (now : ℕ) (i : UInt32) (l r : W) : (x.raise now i l r).Sound := by
  refine h.congr rfl rfl rfl ?_
  have hunresolved : (x.raise now i l r).unresolved = insert x.conflictCount x.unresolved := by
    ext k
    rw [Finset.mem_insert, mem_unresolved, mem_unresolved]
    simp only [Chain.raise]
    rcases eq_or_ne k x.conflictCount with rfl | hk
    · simp
    · rw [Function.update_of_ne hk]
      constructor
      · rintro ⟨hlt, hres⟩
        exact .inr ⟨by omega, hres⟩
      · rintro (rfl | ⟨hlt, hres⟩)
        · exact absurd rfl hk
        · exact ⟨by omega, hres⟩
  have hnew : x.conflictCount ∉ x.unresolved := by
    rw [mem_unresolved]
    omega
  rw [hunresolved, Finset.card_insert_of_notMem hnew, ← h.pending]
  rfl

theorem Sound.resolve (h : x.Sound) {k : ℕ} (i : UInt32) (v : W) (hk : k ∈ x.unresolved) :
    (x.resolve k i v).Sound := by
  refine h.congr rfl rfl rfl ?_
  have hunresolved : (x.resolve k i v).unresolved = x.unresolved.erase k := by
    ext j
    rw [Finset.mem_erase, mem_unresolved, mem_unresolved]
    simp only [Chain.resolve]
    rcases eq_or_ne j k with rfl | hj
    · simp
    · simp [hj]
  rw [hunresolved, Finset.card_erase_of_mem hk, ← h.pending]
  rfl

/-- What is recorded once a checkpoint was stored. -/
theorem recorded_store {now : ℕ} {cp : Checkpoint W} (hcp : cp.recorded = true) (j : UInt32) :
    (x.store now cp).Recorded j ↔ j = cp.eventIndex ∨ x.Recorded j := by
  rcases eq_or_ne j cp.eventIndex with rfl | hj
  · simp [Recorded, Chain.store, hcp]
  · simp [Recorded, Chain.store, hj]

/-- A checkpoint after all the others becomes the latest. -/
theorem Sound.latest_store (h : x.Sound) {now : ℕ} {cp : Checkpoint W}
    (hnewest : ∀ j, x.Recorded j → j.toNat ≤ cp.eventIndex.toNat) :
    (x.store now cp).latest = cp ∧ (x.store now cp).status.lastSyncedIndex = cp.eventIndex := by
  have hlast : x.status.lastSyncedIndex.toNat ≤ cp.eventIndex.toNat := by
    by_cases hold : ∃ i, x.Recorded i
    · obtain ⟨i, hi⟩ := hold
      obtain ⟨m, hm, -, -, hlast⟩ := h.newest i hi
      rw [hlast]
      exact hnewest m hm
    · obtain ⟨-, hzero⟩ := h.empty fun i hi => hold ⟨i, hi⟩
      rw [hzero]
      exact Nat.zero_le _
  constructor
  · refine if_pos ?_
    by_cases hold : ∃ i, x.Recorded i
    · obtain ⟨i, hi⟩ := hold
      obtain ⟨m, hm, -, hlatest, -⟩ := h.newest i hi
      left
      rw [hlatest, h.index m hm]
      exact UInt32.le_iff_toNat_le.2 (hnewest m hm)
    · right
      exact (h.empty fun i hi => hold ⟨i, hi⟩).1
  · simp only [Chain.store]
    split_ifs with hlt
    · rfl
    · rw [gt_iff_lt, UInt32.lt_iff_toNat_lt] at hlt
      exact UInt32.toNat.inj (by omega)

/-- An earlier one does not. -/
theorem Sound.latest_store_of_lt (h : x.Sound) {now : ℕ} {cp : Checkpoint W} {m : UInt32} (hm : x.Recorded m)
    (hlatest : x.latest = x.history m) (hlast : x.status.lastSyncedIndex = m)
    (hlt : cp.eventIndex.toNat < m.toNat) :
    (x.store now cp).latest = x.latest ∧ (x.store now cp).status.lastSyncedIndex = m := by
  constructor
  · refine if_neg ?_
    rintro (hge | hnone)
    · rw [hlatest, h.index m hm, ge_iff_le, UInt32.le_iff_toNat_le] at hge
      omega
    · rw [hlatest] at hnone
      exact absurd (hm.symm.trans hnone) (by decide)
  · simp only [Chain.store]
    rw [if_neg, hlast]
    rw [hlast, gt_iff_lt, UInt32.lt_iff_toNat_lt]
    omega

theorem Sound.store (h : x.Sound) (now : ℕ) {cp : Checkpoint W} (hcp : cp.recorded = true) :
    (x.store now cp).Sound := by
  have hself : (x.store now cp).history cp.eventIndex = cp := Function.update_self _ _ _
  have hother : ∀ j, j ≠ cp.eventIndex → (x.store now cp).history j = x.history j := by
    intro j hj
    exact Function.update_of_ne hj _ _
  refine ⟨?_, ?_, ?_, ?_⟩
  · have hpending : (x.store now cp).status.pendingConflicts = x.status.pendingConflicts := by
      simp only [Chain.store]
      split_ifs <;> rfl
    rw [hpending]
    exact h.pending
  · intro j hj
    rcases eq_or_ne j cp.eventIndex with rfl | hne
    · rw [hself]
    · rw [hother j hne]
      exact h.index j (((recorded_store hcp j).1 hj).resolve_left hne)
  · rintro - -
    by_cases hnewest : ∀ j, x.Recorded j → j.toNat ≤ cp.eventIndex.toNat
    · obtain ⟨hlatest, hlast⟩ := h.latest_store hnewest
      refine ⟨cp.eventIndex, (recorded_store hcp _).2 (.inl rfl), ?_, ?_, hlast⟩
      · intro j hj
        rcases (recorded_store hcp j).1 hj with rfl | hj
        · rfl
        · exact hnewest j hj
      · rw [hself]
        exact hlatest
    · obtain ⟨i, hi, hlt⟩ : ∃ i, x.Recorded i ∧ cp.eventIndex.toNat < i.toNat := by simpa using hnewest
      obtain ⟨m, hm, hmax, hxm, hxl⟩ := h.newest i hi
      have hlt' : cp.eventIndex.toNat < m.toNat := by
        have hle := hmax i hi
        omega
      obtain ⟨hlatest, hlast⟩ := h.latest_store_of_lt hm hxm hxl hlt'
      refine ⟨m, (recorded_store hcp m).2 (.inr hm), ?_, ?_, hlast⟩
      · intro j hj
        rcases (recorded_store hcp j).1 hj with rfl | hj
        · omega
        · exact hmax j hj
      · have hne : m ≠ cp.eventIndex := by
          rintro rfl
          omega
        rw [hlatest, hxm, hother m hne]
  · intro hnone
    exact absurd ((recorded_store hcp cp.eventIndex).2 (.inl rfl)) (hnone cp.eventIndex)

/-- The books, and a total that is how far the chain is synchronised. -/
structure Kept (x : Chain W) : Prop extends x.Sound where
  synced : x.status.totalSynced = x.status.lastSyncedIndex.toNat

theorem Kept.checkpoint [Zero W] [DecidableEq W] (h : x.Kept) (now : ℕ) {cp : Checkpoint W}
    (hcp : cp.recorded = true) : (x.checkpoint now cp).Kept := by
  have hstore : ∀ {y : Chain W}, y.Kept → (y.store now cp).Kept := by
    intro y hy
    refine ⟨hy.toSound.store now hcp, ?_⟩
    simp only [Chain.store]
    split_ifs with hlt
    · rw [gt_iff_lt, UInt32.lt_iff_toNat_lt] at hlt
      have hsub := UInt32.toNat_sub_of_le cp.eventIndex y.status.lastSyncedIndex
        (UInt32.le_iff_toNat_le.2 (by omega))
      simp only [hsub, hy.synced]
      omega
    · exact hy.synced
  rw [Chain.checkpoint]
  split_ifs
  · exact hstore ⟨h.toSound.raise _ _ _ _, h.synced⟩
  · exact hstore h

theorem Kept.register [Zero W] [DecidableEq W] (h : x.Kept) (now : ℕ) (i : UInt32) (v : W) :
    (x.register now i v).Kept := by
  rw [Chain.register]
  split_ifs
  · exact ⟨h.toSound.raise _ _ _ _, h.synced⟩
  · exact ⟨h.toSound.congr rfl rfl rfl h.pending, h.synced⟩

/-- All events up to the last are covered. -/
theorem Sound.ncard_coveredEvents (h : x.Sound) {i : UInt32} (hi : x.Recorded i) :
    x.coveredEvents.ncard = x.status.lastSyncedIndex.toNat + 1 := by
  obtain ⟨m, hm, -, -, hlast⟩ := h.newest i hi
  have hcovered : x.coveredEvents = Finset.range (x.status.lastSyncedIndex.toNat + 1) := by
    ext n
    rw [Finset.coe_range, Set.mem_Iio, coveredEvents, Set.mem_ofPred_eq]
    constructor
    · rintro ⟨hn, -⟩
      omega
    · intro hn
      exact ⟨by omega, m, hm, by rw [← hlast]; omega⟩
  rw [hcovered, Set.ncard_coe_finset, Finset.card_range]

/-- The total is right as long as there is nothing to count. -/
theorem Kept.exact_iff (h : x.Kept) : x.Exact ↔ ∀ i, ¬x.Recorded i := by
  constructor
  · intro hexact i hi
    have htotal := hexact.total i hi
    rw [h.ncard_coveredEvents hi, h.synced] at htotal
    omega
  · intro hnone
    exact ⟨h.toSound, fun i hi => absurd hi (hnone i)⟩

end Chain

/-! ## Runs -/

theorem forall_update {P : Chain W → Prop} {f : UInt32 → Chain W} {c : UInt32} {x : Chain W}
    (h : ∀ d, P (f d))
    (hx : P x) (d : UInt32) : P (Function.update f c x d) := by
  rw [Function.update_apply]
  split_ifs
  · exact hx
  · exact h d

section
variable [Zero W] {s : Storage W}

theorem mem_unresolved_of_findPending {c i : UInt32} {k : ℕ} (h : findPending s c i = some k) :
    k ∈ (chainOf s c).unresolved ∧ ((chainOf s c).conflicts k).eventIndex = i := by
  have hmem := List.mem_of_find?_eq_some h
  have hfound := List.find?_some h
  simp only [Bool.and_eq_true, decide_eq_true_eq, Bool.not_eq_true'] at hfound
  exact ⟨Chain.mem_unresolved.2 ⟨List.mem_range.1 hmem, hfound.2⟩, hfound.1⟩

theorem kept_new (c : UInt32) : (chainOf ({} : Storage W) c).Kept := by
  have hnone : ∀ i, ¬(chainOf ({} : Storage W) c).Recorded i := fun _ h => by cases h
  exact ⟨⟨rfl, fun i hi => absurd hi (hnone i), fun i hi => absurd hi (hnone i), fun _ => ⟨rfl, rfl⟩⟩, rfl⟩

end

section
variable [Zero W] {s s' s₀ : Storage W} {p : Msg × Op W} {tr : List (Storage W × (Msg × Op W))}

/-- What a call that writes to one chain leaves as it is. -/
theorem eq_of_update {α : Type} {P : Chain W → α} {c d : UInt32} {x : Chain W}
    (hchain : chainOf s' = Function.update (chainOf s) d x) (hx : c = d → P x = P (chainOf s d)) :
    P (chainOf s' c) = P (chainOf s c) := by
  rw [hchain]
  rcases eq_or_ne c d with rfl | hd
  · rw [Function.update_self, hx rfl]
  · rw [Function.update_of_ne hd]

variable [DecidableEq W]

/-- Every call keeps the books of every chain. -/
theorem kept_step (hs : Steps exec s p s') (h : ∀ c, (chainOf s c).Kept) (c : UInt32) :
    (chainOf s' c).Kept := by
  obtain ⟨msg, o⟩ := p
  cases effect_of_step hs with
  | @initiated c' _ _ _ _ hchain =>
    rw [hchain]
    exact forall_update (x := (chainOf s c').activate) h
      ⟨(h c').toSound.congr rfl rfl rfl (h c').pending, (h c').synced⟩ c
  | @recorded c' _ _ _ _ _ _ hchain =>
    rw [hchain]
    exact forall_update h ((h c').checkpoint _ rfl) c
  | @registered c' _ _ _ _ hchain =>
    rw [hchain]
    exact forall_update h ((h c').register _ _ _) c
  | @resolved c' i v k _ _ _ hk hchain =>
    rw [hchain]
    obtain ⟨hmem, -⟩ := mem_unresolved_of_findPending hk
    exact forall_update h ⟨(h c').toSound.resolve i v hmem, (h c').synced⟩ c
  | relayer _ hchain => rw [hchain]; exact h c
  | paused _ hchain => rw [hchain]; exact h c

/-- A checkpoint is there once it was recorded, and what is there was recorded. -/
theorem recorded_step {c : UInt32} (hs : Steps exec s p s') (hnone : ∀ i, ¬(chainOf s c).Recorded i) :
    (∀ i, ¬(chainOf s' c).Recorded i) ↔ ∀ i r t, p.2 ≠ .recordCheckpoint c i r t := by
  obtain ⟨msg, o⟩ := p
  have hkeep (hsame : (chainOf s' c).history = (chainOf s c).history) : ∀ i, ¬(chainOf s' c).Recorded i := by
    intro i
    rw [Chain.Recorded, hsame]
    exact hnone i
  cases effect_of_step hs with
  | initiated _ hchain => simp [hkeep (eq_of_update hchain fun _ => rfl)]
  | @recorded d i r t _ _ _ hchain =>
    rcases eq_or_ne c d with rfl | hd
    · refine iff_of_false (fun h => h i ?_) fun h => h i r t rfl
      rw [hchain, Function.update_self, Chain.checkpoint]
      exact (Chain.recorded_store rfl i).2 (.inl rfl)
    · rw [hchain, Function.update_of_ne hd]
      simp [hnone, hd.symm]
  | @registered d i v _ _ hchain =>
    have hx : ((chainOf s d).register msg.timestamp i v).history = (chainOf s d).history := by
      rw [Chain.register]
      split_ifs <;> rfl
    simp [hkeep (eq_of_update hchain fun _ => hx)]
  | resolved _ _ _ hchain => simp [hkeep (eq_of_update hchain fun _ => rfl)]
  | relayer _ hchain => simp [hchain, hnone]
  | paused _ hchain => simp [hchain, hnone]

/-- The books of a run, step by step. -/
theorem run_kept {l : List Address} {msg : Msg} (h₀ : (construct l).run msg {} = .ok ((), s₀))
    (h : Run (Steps exec) s₀ tr s) :
    (∀ p ∈ tr, ∀ c, (chainOf p.1 c).Kept) ∧ ∀ c, (chainOf s c).Kept := by
  refine h.always (C := fun _ _ => True) (I := fun s => ∀ c, (chainOf s c).Kept) ?_
    (fun s p s' _ hs hI => kept_step hs hI) fun _ _ => trivial
  rw [chainOf_construct h₀]
  exact kept_new

/-- **The books of a run.**  In every state, the pending conflicts of a chain are counted right, its latest
    checkpoint is the one with the largest index, and that index is how far the chain is synchronised.  The
    total is right in all of them if and only if no checkpoint of the chain was recorded. -/
theorem run_exact {l : List Address} {msg : Msg} (h₀ : (construct l).run msg {} = .ok ((), s₀))
    (h : Run (Steps exec) s₀ tr s) (c : UInt32) :
    ((∀ p ∈ tr, (chainOf p.1 c).Sound) ∧ (chainOf s c).Sound) ∧
      (((∀ p ∈ tr, (chainOf p.1 c).Exact) ∧ (chainOf s c).Exact) ↔
        ∀ p ∈ tr, ∀ i r t, p.2.2 ≠ .recordCheckpoint c i r t) := by
  have hkept₀ := (run_kept h₀ .init).2
  have hnone₀ : ∀ i, ¬(chainOf s₀ c).Recorded i := by
    rw [chainOf_construct h₀]
    exact fun _ h => by cases h
  constructor
  · obtain ⟨htr, hlast⟩ := run_kept h₀ h
    exact ⟨fun p hp => (htr p hp c).toSound, (hlast c).toSound⟩
  · refine h.always_iff (C := fun _ a => ∀ i r t, a.2 ≠ .recordCheckpoint c i r t) (P := fun _ _ => True)
      (I := fun s => (chainOf s c).Exact) (J := fun s => ∀ c, (chainOf s c).Kept) hkept₀
      (fun s p s' hs hJ => kept_step hs hJ) ?_ ?_ fun _ _ => trivial
    · exact (hkept₀ c).exact_iff.2 hnone₀
    · intro s p s' _ hs hJ hI
      rw [← recorded_step hs ((hJ c).exact_iff.1 hI)]
      exact (kept_step hs hJ c).exact_iff

end

/-! ## The first checkpoint -/

/-- A checkpoint of the first event of a chain. -/
def firstScript : List (Msg × Op ℕ) := [(⟨1, 0⟩, .recordCheckpoint 7 0 5 3)]

/-- One event is covered, and none is counted. -/
theorem first_uncounted : ∃ s₀ s : Storage ℕ, (construct []).run ⟨1, 0⟩ {} = .ok ((), s₀) ∧
    play exec s₀ firstScript = some s ∧ (chainOf s 7).Recorded 0 ∧ (chainOf s 7).status.totalSynced = 0 ∧
      (chainOf s 7).coveredEvents.ncard = 1 ∧ ¬(chainOf s 7).Exact := by
  have hkept := (run_kept (rfl : (construct []).run ⟨1, 0⟩ {} = .ok ((), _))
    (run_of_play (rfl : play exec _ firstScript = some _)).1).2 7
  exact ⟨_, _, rfl, rfl, rfl, rfl, hkept.ncard_coveredEvents (i := 0) rfl, fun h => hkept.exact_iff.1 h 0 rfl⟩

/-- Two hashes for one event. -/
def hashScript : List (Msg × Op ℕ) := [(⟨1, 0⟩, .registerEventHash 7 0 5), (⟨1, 0⟩, .registerEventHash 7 0 6)]

theorem run_exact_hashScript : ∃ s₀ s : Storage ℕ, (construct []).run ⟨1, 0⟩ {} = .ok ((), s₀) ∧
    play exec s₀ hashScript = some s ∧ (chainOf s 7).status.pendingConflicts = 1 ∧ (chainOf s 7).Exact := by
  refine ⟨{ owner := 1 }, _, rfl, rfl, rfl, ?_⟩
  obtain ⟨hrun, hmap⟩ := run_of_play (rfl : play exec { owner := 1 } hashScript = some _)
  refine ((run_exact (rfl : (construct []).run ⟨1, 0⟩ {} = .ok ((), _)) hrun 7).2.2 ?_).2
  intro p hp i r t
  have hop : p.2 ∈ hashScript := hmap ▸ List.mem_map_of_mem hp
  rcases List.mem_pair.1 hop with h | h <;> rw [h] <;> nofun

end CrossChainSync
