/-
  CrossChainSynchronizer — what a checkpoint commits to.

  The contract takes the root of a checkpoint for that of all events up to its index; a
  synchronisation computes the root of the range it was called for.

  * `fetchEvents_faithful`: however the range is cut into batches, its events come in order;
  * `run_committed`: the checkpoints commit to the whole prefix if every range starts at the first
    event, and then they never contradict each other on the chain; where the trees have no
    collisions, they do so only then.
-/
import AuditTransparency.Evm.Conflicts
import AuditTransparency.Relayer.Synchronizer

namespace CrossChainSynchronizer

open Soroban (Run)

/-! ## Fetching -/

/-- The events of a range of the ledger. -/
def eventsOf (L : ℕ → EventRecord) (fromIndex toIndex : ℕ) : List EventRecord :=
  (List.range' fromIndex (toIndex + 1 - fromIndex)).map L

/-- What is fetched are the events of the range, in order. -/
def Faithful (L : ℕ → EventRecord) (A : Answers) : Prop :=
  ∀ i j k events, A.fetchEventBatch i j k = .ok events → events = eventsOf L i j

section
variable {L : ℕ → EventRecord} {O : SyncOptions} {A : Answers} {i j n : ℕ}

theorem mapM_ok {α β : Type} {f : α → Except Text β} {g : α → β} (hf : ∀ a b, f a = .ok b → b = g a) :
    ∀ {l : List α} {bs : List β}, l.mapM f = .ok bs → bs = l.map g := by
  intro l
  induction l with
  | nil =>
    intro bs h
    rw [List.mapM_nil] at h
    exact (Except.ok.inj h).symm
  | cons a l ih =>
    intro bs h
    rw [List.mapM_cons] at h
    cases ha : f a with
    | error e => rw [ha] at h; cases h
    | ok b =>
      rw [ha] at h
      cases hl : l.mapM f with
      | error e => rw [hl] at h; cases h
      | ok bs' =>
        rw [hl] at h
        obtain rfl := Except.ok.inj h
        rw [List.map_cons, hf a b ha, ih hl]

/-- The first batches, put together. -/
theorem flatten_batches {b : ℕ} (hb : 0 < b) (hn : ∀ k < n, k * b ≤ j - i) (hij : i ≤ j) :
    ((List.range n).map fun k => eventsOf L (i + k * b) (min (i + k * b + b - 1) j)).flatten =
      (List.range' i (min (n * b) (j + 1 - i))).map L := by
  induction n with
  | zero => simp
  | succ n ih =>
    have hle := hn n (Nat.lt_succ_self n)
    rw [List.range_succ, List.map_append, List.flatten_append, ih fun k hk => hn k (by omega),
      min_eq_left (by omega : n * b ≤ j + 1 - i), List.map_singleton, List.flatten_singleton, eventsOf,
      ← List.map_append, List.range'_append_1, Nat.succ_mul]
    congr 2
    omega

/-- However they are cut into batches, the events of the range are fetched in order. -/
theorem fetchEvents_faithful (hA : Faithful L A) (hij : i ≤ j) {events : List EventRecord}
    (h : fetchEvents O A i j = .ok events) : events = eventsOf L i j := by
  rw [fetchEvents] at h
  cases hb : (batchStarts O i j).mapM fun i =>
      withRetry O (A.fetchEventBatch i (min (i + O.batchSize - 1) j)) with
  | error e => rw [hb] at h; cases h
  | ok batches =>
    rw [hb] at h
    obtain rfl := Except.ok.inj h
    have hbatches := mapM_ok (g := fun i => eventsOf L i (min (i + O.batchSize - 1) j)) (fun i evs hi => by
      obtain ⟨k, hk⟩ := withRetry_ok hi
      exact hA _ _ k evs hk) hb
    have hfits : ∀ k < (j - i) / O.batchSize + 1, k * O.batchSize ≤ j - i := by
      intro k hk
      exact (Nat.le_div_iff_mul_le O.batchSize_pos).1 (by omega)
    have hall : j + 1 - i ≤ ((j - i) / O.batchSize + 1) * O.batchSize := by
      have hlt := Nat.lt_div_mul_add (a := j - i) O.batchSize_pos
      rw [Nat.succ_mul]
      omega
    rw [hbatches, batchStarts, List.map_map]
    refine (flatten_batches O.batchSize_pos hfits hij).trans ?_
    rw [min_eq_right hall, eventsOf]

end

/-! ## Checkpoints -/

variable {H : Host} {L : ℕ → EventRecord} {s : Synchronizer} {tr : List (Synchronizer × Op)} {n : ℕ}

/-- The leaf of an event. -/
def leaf (L : ℕ → EventRecord) (k : ℕ) : Text := normaliseHash (L k).eventHash

/-- The root of the events of a range. -/
def rangeRoot (H : Host) (L : ℕ → EventRecord) (fromIndex toIndex : ℕ) : Text :=
  computeMerkleRoot H ((eventsOf L fromIndex toIndex).map (·.eventHash))

/-- A successful synchronisation, over the ledger `L`. -/
def Synced (H : Host) (L : ℕ → EventRecord) (p : Synchronizer × Op) : Prop :=
  ∃ O A i j c, p.2 = .syncEventRange O A i j c ∧ Faithful L A ∧
    (syncEventRange H O A i j c p.1).1.success = true

/-- A synchronisation from the first event on. -/
def FromStart (p : Synchronizer × Op) : Prop :=
  ∀ O A i j c, p.2 = .syncEventRange O A i j c → i = 0

/-- A synchronisation of events up to `n`. -/
def EndsBy (n : ℕ) (p : Synchronizer × Op) : Prop :=
  ∀ O A i j c, p.2 = .syncEventRange O A i j c → j ≤ n

/-- The checkpoints commit to the whole prefix. -/
def Committed (H : Host) (L : ℕ → EventRecord) (s : Synchronizer) : Prop :=
  ∀ x ∈ s.submissions, x.merkleRoot = rangeRoot H L 0 x.eventIndex

/-- The checkpoints at one index have one root. -/
def Agreeing (s : Synchronizer) : Prop :=
  ∀ x ∈ s.submissions, ∀ y ∈ s.submissions, x.eventIndex = y.eventIndex → x.merkleRoot = y.merkleRoot

/-- A call of the contract that submits one of the checkpoints; `bytes32` reads the hexadecimal root. -/
def Submits {W : Type} [Zero W] (bytes32 : Text → W) (s : Synchronizer)
    (p : CrossChainSync.Storage W × (Solidity.Msg × CrossChainSync.Op W)) : Prop :=
  ∀ c i r t, p.2.2 = .recordCheckpoint c i r t →
    ∃ x ∈ s.submissions, c.toNat = x.chainId ∧ i.toNat = x.eventIndex ∧ r = bytes32 x.merkleRoot

/-- The checkpoints raise no conflict, whatever else is done on the chain. -/
def Quiet (s : Synchronizer) : Prop :=
  ∀ (W : Type) [Zero W] [DecidableEq W] (bytes32 : Text → W) (relayers : List Solidity.Address)
    (msg : Solidity.Msg) (s₀ s₁ : CrossChainSync.Storage W)
    (tr : List (CrossChainSync.Storage W × (Solidity.Msg × CrossChainSync.Op W))),
    (CrossChainSync.construct relayers).run msg {} = .ok ((), s₀) →
    Run (Solidity.Tx.Steps CrossChainSync.exec) s₀ tr s₁ → (∀ p ∈ tr, Submits bytes32 s p) →
      ∀ p ∈ tr, ¬CrossChainSync.Overwrites p

theorem Agreeing.quiet (h : Agreeing s) : Quiet s := by
  intro W _ _ bytes32 relayers msg s₀ s₁ tr h₀ hrun hsub
  refine CrossChainSync.not_overwrites_of_agreeing h₀ hrun ?_
  intro p hp q hq c i r t r' t' hpr hqr
  obtain ⟨x, hx, -, hxi, rfl⟩ := hsub p hp c i r t hpr
  obtain ⟨y, hy, -, hyi, rfl⟩ := hsub q hq c i r' t' hqr
  rw [h x hx y hy (by omega)]

theorem Committed.agreeing (h : Committed H L s) : Agreeing s := by
  intro x hx y hy heq
  rw [h x hx, h y hy, heq]

/-- What a synchronisation submits. -/
def submitted? (H : Host) (L : ℕ → EventRecord) (p : Synchronizer × Op) : Option (ℕ × ℕ × Text) :=
  match p.2 with
  | .syncEventRange _ _ i j c => some (c, j, rangeRoot H L i j)
  | _ => none

/-- The checkpoints are those of the calls. -/
theorem submissions_of_run (h : Run (Steps H) {} tr s) (hsync : ∀ p ∈ tr, Synced H L p) :
    s.submissions.map (fun x => (x.chainId, x.eventIndex, x.merkleRoot)) = tr.filterMap (submitted? H L) := by
  induction h with
  | init => rfl
  | @snoc tr s s' o _ hs ih =>
    rw [Soroban.filterMap_concat, ← ih fun p hp => hsync p (List.mem_append_left _ hp)]
    obtain ⟨O, A, i, j, c, rfl, hA, hok⟩ := hsync (s, o) (by simp)
    obtain ⟨hij, events, hfetch, hcase⟩ := syncEventRange_success
      (show syncEventRange H O A i j c s = (_, s') from Prod.ext rfl hs) hok
    obtain rfl := fetchEvents_faithful hA hij hfetch
    rcases hcase with ⟨hnil, -, -⟩ | ⟨-, existing, -, -, -, hsub⟩
    · rw [eventsOf, List.map_eq_nil_iff, List.range'_eq_nil_iff] at hnil
      omega
    · rw [hsub, List.map_append, List.map_singleton]
      rfl

/-- The leaves of a range. -/
def leaves (L : ℕ → EventRecord) (fromIndex toIndex : ℕ) : List Text :=
  (List.range' fromIndex (toIndex + 1 - fromIndex)).map (leaf L)

theorem rangeRoot_eq {i j : ℕ} (hij : i ≤ j) :
    ∃ root, Merkle.root? (node H) (leaves L i j) = some root ∧ rangeRoot H L i j = '0' :: 'x' :: root := by
  have hne : leaves L i j ≠ [] := by
    rw [leaves, Ne, List.map_eq_nil_iff, List.range'_eq_nil_iff]
    omega
  have hleaves : ((eventsOf L i j).map (·.eventHash)).map normaliseHash = leaves L i j := by
    rw [eventsOf, List.map_map, List.map_map, leaves]
    rfl
  obtain ⟨root, hroot⟩ := Option.isSome_iff_exists.1 (Merkle.isSome_root? (node H) hne)
  refine ⟨root, hroot, ?_⟩
  rw [rangeRoot, computeMerkleRoot, hleaves, hroot]

/-- The nodes of the trees over events up to `n`. -/
def Nodes (H : Host) (L : ℕ → EventRecord) (n : ℕ) (x : Text) : Prop :=
  ∃ i j, j ≤ n ∧ Merkle.Occurs (node H) (leaves L i j) x

/-- The trees over events up to `n` have no collisions, and these events have different hashes. -/
structure Collisionless (H : Host) (L : ℕ → EventRecord) (n : ℕ) : Prop where
  binding : Merkle.Binding (node H) (Nodes H L n) fun a => ∃ k ≤ n, leaf L k = a
  distinct : ∀ i ≤ n, ∀ j ≤ n, leaf L i = leaf L j → i = j

/-- Where there are no collisions, a root determines where its range starts. -/
theorem Collisionless.start_unique (h : Collisionless H L n) {i i' j j' : ℕ} (hij : i ≤ j) (hij' : i' ≤ j')
    (hj : j ≤ n) (hj' : j' ≤ n) (hroot : rangeRoot H L i j = rangeRoot H L i' j') : i = i' := by
  have hcons : ∀ {i j : ℕ}, i ≤ j → leaves L i j = leaf L i :: leaves L (i + 1) j := by
    intro i j hij
    rw [leaves, show j + 1 - i = (j + 1 - (i + 1)) + 1 by omega, List.range'_succ, List.map_cons, leaves]
  obtain ⟨r, hr, heq⟩ := rangeRoot_eq (H := H) (L := L) hij
  obtain ⟨r', hr', heq'⟩ := rangeRoot_eq (H := H) (L := L) hij'
  rw [heq, heq'] at hroot
  obtain rfl : r = r' := (List.cons.inj (List.cons.inj hroot).2).2
  have hN : ∀ x, Merkle.Occurs (node H) (leaves L i j) x → Nodes H L n x := fun x hx => ⟨i, j, hj, hx⟩
  have hN' : ∀ x, Merkle.Occurs (node H) (leaves L i' j') x → Nodes H L n x := fun x hx => ⟨i', j', hj', hx⟩
  rw [hcons hij] at hr hN
  rw [hcons hij'] at hr' hN'
  refine h.distinct i (by omega) i' (by omega) (h.binding.first_leaf_unique hN hN' ?_ ?_ (hr.trans hr'.symm))
  · exact ⟨i, by omega, rfl⟩
  · exact ⟨i', by omega, rfl⟩

/-- **What checkpoints commit to.**  Where every synchronisation starts at the first event, the checkpoints
    commit to the whole prefix up to their index; those at one index then have one root, and raise no
    conflict on the chain.  Where the trees have no collisions, they commit to the prefix only then. -/
theorem run_committed (h : Run (Steps H) {} tr s) (hsync : ∀ p ∈ tr, Synced H L p) :
    ((∀ p ∈ tr, FromStart p) → Committed H L s ∧ Agreeing s ∧ Quiet s) ∧
      ∀ n, (∀ p ∈ tr, EndsBy n p) → Collisionless H L n → (Committed H L s ↔ ∀ p ∈ tr, FromStart p) := by
  have hsub := submissions_of_run h hsync
  have hcommitted : (∀ p ∈ tr, FromStart p) → Committed H L s := by
    intro hstart x hx
    have hmem :=
      hsub ▸ List.mem_map_of_mem (f := fun x : Submission => (x.chainId, x.eventIndex, x.merkleRoot)) hx
    obtain ⟨⟨s₁, o⟩, hp, ho⟩ := List.mem_filterMap.1 hmem
    obtain ⟨O, A, i, j, c, rfl, -, -⟩ := hsync _ hp
    obtain rfl := hstart _ hp O A i j c rfl
    simp only [submitted?, Option.some.injEq, Prod.mk.injEq] at ho
    obtain ⟨-, rfl, hroot⟩ := ho
    exact hroot.symm
  refine ⟨fun hstart => ?_, fun n hn hfree => ⟨?_, hcommitted⟩⟩
  · have hcom := hcommitted hstart
    exact ⟨hcom, hcom.agreeing, hcom.agreeing.quiet⟩
  · rintro hcom ⟨s₁, o⟩ hp O A i j c rfl
    obtain ⟨O', A', i', j', c', ho, -, hok⟩ := hsync _ hp
    obtain ⟨hij, -⟩ := syncEventRange_success rfl (show (syncEventRange H O A i j c s₁).1.success = true by
      cases ho; exact hok)
    have hmem : (c, j, rangeRoot H L i j) ∈ tr.filterMap (submitted? H L) :=
      List.mem_filterMap.2 ⟨_, hp, rfl⟩
    rw [← hsub] at hmem
    obtain ⟨x, hx, hxe⟩ := List.mem_map.1 hmem
    simp only [Prod.mk.injEq] at hxe
    obtain ⟨-, rfl, hroot⟩ := hxe
    have hle : x.eventIndex ≤ n := hn _ hp O A i x.eventIndex c rfl
    exact hfree.start_unique hij (Nat.zero_le _) hle hle (hroot.symm.trans (hcom x hx))

/-! ## Two events -/

/-- A hash function that only marks what it is given. -/
def markHost : Host := ⟨fun t => '2' :: t⟩

/-- A ledger whose hashes are numbers in unary. -/
def unaryLedger (k : ℕ) : EventRecord := ⟨k, List.replicate k '1'⟩

/-- Every attempt succeeds, and the chain has none of the events. -/
def freshAnswers : Answers where
  fetchEventBatch i j _ := .ok (eventsOf unaryLedger i j)
  fetchRemoteEvents := .ok []
  submitSyncEventsToChain _ := .ok ()
  submitRecordCheckpoint _ := .ok ()
  now := 0

theorem freshAnswers_faithful : Faithful unaryLedger freshAnswers := by
  intro i j k events h
  exact (Except.ok.inj h).symm

theorem nodes_unaryLedger {x : Text} (h : Nodes markHost unaryLedger 1 x) :
    x = leaf unaryLedger 0 ∨ x = leaf unaryLedger 1 ∨
      x = node markHost (leaf unaryLedger 0) (leaf unaryLedger 1) := by
  obtain ⟨i, j, hj, h⟩ := h
  have hleaves : leaves unaryLedger i j = [] ∨ leaves unaryLedger i j = [leaf unaryLedger 0] ∨
      leaves unaryLedger i j = [leaf unaryLedger 1] ∨
      leaves unaryLedger i j = [leaf unaryLedger 0, leaf unaryLedger 1] := by
    rcases i with _ | _ | i
    · rcases Nat.le_one_iff_eq_zero_or_eq_one.1 hj with rfl | rfl
      · exact .inr (.inl rfl)
      · exact .inr (.inr (.inr rfl))
    · rcases Nat.le_one_iff_eq_zero_or_eq_one.1 hj with rfl | rfl
      · exact .inl rfl
      · exact .inr (.inr (.inl rfl))
    · left
      rw [leaves, show j + 1 - (i + 1 + 1) = 0 by omega]
      rfl
  rcases hleaves with hl | hl | hl | hl <;> rw [hl] at h
  · cases h with
    | leaf hx => cases hx
  · cases h with
    | leaf hx => exact .inl (List.mem_singleton.1 hx)
  · cases h with
    | leaf hx => exact .inr (.inl (List.mem_singleton.1 hx))
  · cases h with
    | leaf hx => rcases List.mem_pair.1 hx with rfl | rfl <;> simp
    | above hx =>
      cases hx with
      | leaf hx => exact .inr (.inr (List.mem_singleton.1 hx))

theorem collisionless_unaryLedger : Collisionless markHost unaryLedger 1 := by
  refine ⟨⟨?_, ?_⟩, ?_⟩
  · intro x y x' y' hx _ hx' _ heq
    have happ : x ++ y = x' ++ y' := (List.cons.inj heq).2
    rcases nodes_unaryLedger hx with rfl | rfl | rfl <;> rcases nodes_unaryLedger hx' with rfl | rfl | rfl
    -- two leaves have one length, and a node begins with another letter
    all_goals first
      | rfl
      | (cases (List.cons.inj happ).1; done)
      | exact (List.append_inj happ rfl).1
  · rintro a x y ⟨k, hk, rfl⟩ _ _ heq
    rcases Nat.le_one_iff_eq_zero_or_eq_one.1 hk with rfl | rfl <;> cases (List.cons.inj heq).1
  · intro i hi j hj heq
    rcases Nat.le_one_iff_eq_zero_or_eq_one.1 hi with rfl | rfl <;>
      rcases Nat.le_one_iff_eq_zero_or_eq_one.1 hj with rfl | rfl
    · rfl
    · cases congrArg List.getLast? heq
    · cases congrArg List.getLast? heq
    · rfl

theorem synced_unaryLedger (s : Synchronizer) {i : ℕ} (hi : i = 0 ∨ i = 1) :
    Synced markHost unaryLedger (s, .syncEventRange {} freshAnswers i 1 7) := by
  rcases hi with rfl | rfl
  · exact ⟨_, _, _, _, _, rfl, freshAnswers_faithful, rfl⟩
  · exact ⟨_, _, _, _, _, rfl, freshAnswers_faithful, rfl⟩

/-- One synchronisation of both events. -/
theorem run_committed_unaryLedger : ∃ s tr, Run (Steps markHost) {} tr s ∧ s.submissions.length = 1 ∧
    Committed markHost unaryLedger s ∧ Collisionless markHost unaryLedger 1 := by
  let o : Op := .syncEventRange {} freshAnswers 0 1 7
  have hrun : Run (Steps markHost) {} [({}, o)] (exec markHost o {}) := .snoc .init rfl
  refine ⟨_, _, hrun, rfl, ((run_committed hrun ?_).1 ?_).1, collisionless_unaryLedger⟩
  · intro p hp
    obtain rfl := List.mem_singleton.1 hp
    exact synced_unaryLedger _ (.inl rfl)
  · rintro p hp O A i j c ho
    obtain rfl := List.mem_singleton.1 hp
    cases ho
    rfl

/-- A synchronisation of both events, and then of the second. -/
def overlapOps : List Op := [.syncEventRange {} freshAnswers 0 1 7, .syncEventRange {} freshAnswers 1 1 7]

/-- The two roots, as numbers. -/
def rootNumber (t : Text) : ℕ := if t = rangeRoot markHost unaryLedger 0 1 then 1 else 2

/-- Two checkpoints with these roots. -/
def overlapScript : List (Solidity.Msg × CrossChainSync.Op ℕ) :=
  [(⟨1, 0⟩, .recordCheckpoint 7 1 1 0), (⟨1, 0⟩, .recordCheckpoint 7 1 2 0)]

/-- They leave two roots for one index, which are in conflict on the chain. -/
theorem suffix_submitted : ∃ s tr, Run (Steps markHost) {} tr s ∧ tr.map Prod.snd = overlapOps ∧
    (∀ p ∈ tr, Synced markHost unaryLedger p) ∧ ¬Committed markHost unaryLedger s ∧ ¬Agreeing s ∧
      ¬Quiet s := by
  let s₁ := exec markHost (.syncEventRange {} freshAnswers 0 1 7) {}
  have hrun : Run (Steps markHost) {} [({}, .syncEventRange {} freshAnswers 0 1 7),
      (s₁, .syncEventRange {} freshAnswers 1 1 7)] (exec markHost
        (.syncEventRange {} freshAnswers 1 1 7) s₁) :=
    .snoc (.snoc .init rfl) rfl
  have hsync : ∀ p ∈ [(({} : Synchronizer), Op.syncEventRange {} freshAnswers 0 1 7),
      (s₁, .syncEventRange {} freshAnswers 1 1 7)], Synced markHost unaryLedger p := by
    intro p hp
    rcases List.mem_pair.1 hp with rfl | rfl
    · exact synced_unaryLedger _ (.inl rfl)
    · exact synced_unaryLedger _ (.inr rfl)
  have hroots : rangeRoot markHost unaryLedger 1 1 ≠ rangeRoot markHost unaryLedger 0 1 := by
    intro heq
    cases collisionless_unaryLedger.start_unique le_rfl (Nat.zero_le 1) le_rfl le_rfl heq
  have hsub : (exec markHost (.syncEventRange {} freshAnswers 1 1 7) s₁).submissions =
      [⟨7, 1, rangeRoot markHost unaryLedger 0 1, 0⟩, ⟨7, 1, rangeRoot markHost unaryLedger 1 1, 0⟩] := rfl
  have hwhole : ⟨7, 1, rangeRoot markHost unaryLedger 0 1, 0⟩ ∈
      (exec markHost (.syncEventRange {} freshAnswers 1 1 7) s₁).submissions := by
    rw [hsub]
    exact List.mem_cons_self
  have hpart : ⟨7, 1, rangeRoot markHost unaryLedger 1 1, 0⟩ ∈
      (exec markHost (.syncEventRange {} freshAnswers 1 1 7) s₁).submissions := by
    rw [hsub]
    exact List.mem_cons_of_mem _ List.mem_cons_self
  refine ⟨_, _, hrun, rfl, hsync, fun h => hroots (h _ hpart), fun h => hroots (h _ hpart _ hwhole rfl),
    fun h => ?_⟩
  obtain ⟨hchain, hmap⟩ := Solidity.Tx.run_of_play
    (rfl : Solidity.Tx.play CrossChainSync.exec { owner := 1 } overlapScript = some _)
  refine h ℕ rootNumber [] ⟨1, 0⟩ { owner := 1 } _ _ rfl hchain ?_ _
    (List.mem_cons_of_mem _ List.mem_cons_self)
    ⟨7, 1, 2, 0, rfl, rfl, by decide⟩
  intro p hp c i r t ho
  have hop : p.2 ∈ overlapScript := hmap ▸ List.mem_map_of_mem hp
  rcases List.mem_pair.1 hop with hop | hop <;> rw [hop] at ho <;> cases ho
  · exact ⟨_, hwhole, rfl, rfl, (if_pos rfl).symm⟩
  · exact ⟨_, hpart, rfl, rfl, (if_neg hroots).symm⟩

end CrossChainSynchronizer
