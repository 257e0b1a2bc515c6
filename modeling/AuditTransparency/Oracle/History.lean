/-
  RwaOracle — the history of the prices.

  Three records tell of the prices of an asset: the history, the latest price and the counter of
  updates.  `Recorded` is what they are after any run: the history is the chain of the first
  thousand prices, and the latest price and the counter go on.  So they agree as long as the
  history is not full.

  `history_complete`: the history is all that it should be (`Complete`) after exactly the runs that
  publish no price when it is full, and none when a feed that does not contribute is the oldest
  of the buffer (`Lossless`).
-/
import AuditTransparency.Oracle.Quorum
import AuditTransparency.Soroban.HashChain
import AuditTransparency.Soroban.Lookup

namespace RwaOracle

open Soroban

variable {D : Type} [DecidableEq D] {H : Host D} {tr : List (State D × (Env × Op))} {s s' : State D}
  {c : Env × Op} {a b : Symbol}

/-! ## The chain of prices -/

/-- A price is linked to the hash of the price before. -/
def linking (H : Host D) : Linking (CanonicalPrice D) D where
  prev := CanonicalPrice.prevHash
  hash := CanonicalPrice.chainHash
  digest _ prev p := computeCanonicalHash H p.assetId p.price p.consensusAt prev
  relink prev hash p := { p with prevHash := prev, chainHash := hash }
  prev_relink _ _ _ := rfl
  hash_relink _ _ _ := rfl
  digest_relink _ _ _ _ _ := rfl

/-- The price that a call publishes for the asset. -/
def publishedAt (H : Host D) (a : Symbol) (p : State D × (Env × Op)) : Option (CanonicalPrice D) :=
  match p.2.2 with
  | .processConsensus b => if b = a then publishedBy H p else none
  | _ => none

/-- The prices that were published for the asset. -/
def publishedPrices (H : Host D) (tr : List (State D × (Env × Op))) (a : Symbol) : List (CanonicalPrice D) :=
  tr.filterMap (publishedAt H a)

/-- `t` is the time of the oldest of the feeds, or `now` when that is earlier. -/
def IsOldest (t now : ℕ) (feeds : List (PriceFeed D)) : Prop :=
  t ≤ now ∧ (∀ feed ∈ feeds, t ≤ feed.observedAt) ∧ (t = now ∨ ∃ feed ∈ feeds, feed.observedAt = t)

/-- The history of an asset is the complete chain of its prices. -/
structure Complete (H : Host D) (tr : List (State D × (Env × Op))) (s : State D) (a : Symbol) : Prop where
  entries : ∀ (k : ℕ) (p : CanonicalPrice D), (priceHistory s a)[k]? = some p → p.historyIndex = k ∧
    p.verifyChainHash H = true
  genesis : ∀ p, (priceHistory s a)[0]? = some p → p.prevHash = H.zeros
  links : ∀ k p q, (priceHistory s a)[k]? = some p → (priceHistory s a)[k + 1]? = some q →
    q.prevHash = p.chainHash
  kept : ∀ c ∈ tr, priceHistory c.1 a <+: priceHistory s a
  latest : latestPrice s a = (priceHistory s a).getLast?
  chained : ∀ k p q, (publishedPrices H tr a)[k]? = some p → (publishedPrices H tr a)[k + 1]? = some q →
    q.prevHash = p.chainHash
  updates : ∀ arec, s.inst .asset a = some arec → arec.totalUpdates = (publishedPrices H tr a).length
  oldest : ∀ c ∈ tr, ∀ p, publishedAt H a c = some p → p ∈ priceHistory s a →
    ∀ arec, c.1.inst .asset a = some arec →
      IsOldest p.oldestObservation c.2.1.timestamp (contributors H c.1 c.2.1.timestamp a arec)

/-- When the call publishes a price, the history has room for it, and every feed of the buffer is as young as
    the call or as one that contributes. -/
def Lossless (H : Host D) (c : State D × (Env × Op)) : Prop :=
  ∀ a p arec, publishedAt H a c = some p → c.1.inst .asset a = some arec →
    (priceHistory c.1 a).length < maxPriceHistory ∧
    ∀ feed ∈ pendingFeeds c.1 a, c.2.1.timestamp ≤ feed.observedAt ∨
      ∃ contributor ∈ contributors H c.1 c.2.1.timestamp a arec, contributor.observedAt ≤ feed.observedAt

/-! ## What the records are -/

/-- The records of an asset after a run. -/
structure Recorded (H : Host D) (tr : List (State D × (Env × Op))) (s : State D) (a : Symbol) : Prop where
  history : priceHistory s a = (publishedPrices H tr a).take maxPriceHistory
  latest : latestPrice s a = (publishedPrices H tr a).getLast?
  updates : ∀ arec, s.inst .asset a = some arec →
    arec.totalUpdates = min (publishedPrices H tr a).length (2 ^ 32 - 1)
  unregistered : s.inst .asset a = none → publishedPrices H tr a = []
  index : ∀ k p, (publishedPrices H tr a)[k]? = some p → p.historyIndex = min k maxPriceHistory
  linked : (linking H).Linked H.zeros 0 (priceHistory s a)
  kept : ∀ c ∈ tr, priceHistory c.1 a <+: priceHistory s a
  room : (∀ c ∈ tr, ∀ p, publishedAt H a c = some p → (priceHistory c.1 a).length < maxPriceHistory) ↔
    (publishedPrices H tr a).length ≤ maxPriceHistory

theorem recorded_empty : Recorded H [] (Ledger.empty : State D) a where
  history := rfl
  latest := rfl
  updates _ h := by cases h
  unregistered _ := rfl
  index k p h := by cases h
  linked := trivial
  kept c hc := by cases hc
  room := iff_of_true (fun c hc => by cases hc) (Nat.zero_le _)

theorem publishedPrices_concat : publishedPrices H (tr ++ [(s, c)]) a =
    publishedPrices H tr a ++ (publishedAt H a (s, c)).toList := filterMap_concat

omit [DecidableEq D] in
/-- The hash that the next price is chained to. -/
theorem tail_history (l : List (CanonicalPrice D)) :
    (linking H).tail H.zeros l = (l.getLast?.map CanonicalPrice.chainHash).getD H.zeros := by
  induction l using List.reverseRecOn with
  | nil => rfl
  | append_singleton l p =>
    rw [Linking.tail_append, List.getLast?_concat]
    rfl

/-- The records of an asset that a step leaves alone, or that it registers. -/
structure Untouched (s s' : State D) (a : Symbol) : Prop where
  history : priceHistory s' a = priceHistory s a
  latest : latestPrice s' a = latestPrice s a
  asset : s'.inst .asset a = s.inst .asset a ∨
    s.inst .asset a = none ∧ ∃ arec, s'.inst .asset a = some arec ∧ arec.totalUpdates = 0

/-- A step that publishes nothing for the asset. -/
theorem Recorded.untouched (h : Recorded H tr s a) (hp : publishedAt H a (s, c) = none)
    (hs : Untouched s s' a) :
    Recorded H (tr ++ [(s, c)]) s' a := by
  have hprices : publishedPrices H (tr ++ [(s, c)]) a = publishedPrices H tr a := by
    rw [publishedPrices_concat, hp, Option.toList_none, List.append_nil]
  refine ⟨?_, ?_, fun arec harec => ?_, fun hnone => ?_, ?_, ?_, fun q hq => ?_, ?_⟩
  · rw [hprices, hs.history, h.history]
  · rw [hprices, hs.latest, h.latest]
  · rw [hprices]
    rcases hs.asset with hsame | ⟨hnone, arec', harec', hzero⟩
    · exact h.updates arec (hsame ▸ harec)
    · obtain rfl : arec = arec' := Option.some.inj (harec.symm.trans harec')
      rw [hzero, h.unregistered hnone]
      rfl
  · rw [hprices]
    rcases hs.asset with hsame | ⟨-, arec, harec, -⟩
    · exact h.unregistered (hsame ▸ hnone)
    · rw [harec] at hnone
      cases hnone
  · rw [hprices]
    exact h.index
  · rw [hs.history]
    exact h.linked
  · rw [hs.history]
    rcases List.mem_append.1 hq with hq | hq
    · exact h.kept q hq
    · obtain rfl := List.mem_singleton.1 hq
      exact List.prefix_refl _
  · rw [hprices, ← h.room, List.forall_mem_append, List.forall_mem_singleton]
    exact and_iff_left fun p he => by
      rw [hp] at he
      cases he

omit [DecidableEq D] in
theorem priceHistory_published {arec : AssetRecord} {p : CanonicalPrice D} :
    priceHistory (published s a arec p) b =
    if b = a ∧ (priceHistory s a).length < maxPriceHistory then priceHistory s b ++ [p]
      else priceHistory s b := by
  have hhistory : priceHistory (published s a arec p) b = priceHistory (recorded s a p) b := by
    simp [published, priceHistory]
  rw [hhistory, recorded]
  by_cases hlen : (priceHistory s a).length < maxPriceHistory
  · rw [if_pos hlen, priceHistory, Ledger.put_inst, Store.set_same, Function.update_apply]
    by_cases hb : b = a
    · subst hb
      rw [if_pos rfl, if_pos ⟨rfl, hlen⟩]
      rfl
    · rw [if_neg hb, if_neg fun h => hb h.1]
      rfl
  · rw [if_neg hlen, if_neg fun h => hlen h.2]

omit [DecidableEq D] in
theorem latestPrice_published {arec : AssetRecord} {p : CanonicalPrice D} :
    latestPrice (published s a arec p) b = if b = a then some p else latestPrice s b := by
  have hrecorded : (recorded s a p).inst .latestPrice = s.inst .latestPrice := by
    rw [recorded]
    split
    · exact Ledger.put_inst_ne s (by simp)
    · rfl
  simp [published, latestPrice, Function.update_apply, hrecorded]

/-- The price of a round is linked to the history. -/
theorem Publishes.linked {now : ℕ} {arec : AssetRecord} {p : CanonicalPrice D}
    (hp : Publishes H s now a arec p)
    (h : (linking H).Linked H.zeros 0 (priceHistory s a)) :
    (linking H).Linked H.zeros 0 (priceHistory s a ++ [p]) := by
  obtain ⟨price, confidence, count, rfl⟩ := hp.price_eq
  exact Linking.linked_append.2 ⟨h, (tail_history _).symm, by rw [tail_history]; rfl, trivial⟩

/-- **A step that publishes a price.** -/
theorem Recorded.publishes (h : Recorded H tr s a) {arec : AssetRecord} {p : CanonicalPrice D} {now : ℕ}
    (hp : Publishes H s now a arec p) (hc : publishedAt H a (s, c) = some p) :
    Recorded H (tr ++ [(s, c)]) (published s a arec p) a := by
  have hprices : publishedPrices H (tr ++ [(s, c)]) a = publishedPrices H tr a ++ [p] := by
    rw [publishedPrices_concat, hc, Option.toList_some]
  have hlen : (priceHistory s a).length = min maxPriceHistory (publishedPrices H tr a).length := by
    rw [h.history, List.length_take]
  have hindex : p.historyIndex = (priceHistory s a).length := by
    obtain ⟨price, confidence, count, rfl⟩ := hp.price_eq
    rfl
  have hprefix : priceHistory s a <+: priceHistory (published s a arec p) a := by
    rw [priceHistory_published]
    split
    · exact List.prefix_append _ _
    · exact List.prefix_refl _
  refine ⟨?_, ?_, fun arec' harec' => ?_, fun hnone => ?_, fun k q hq => ?_, ?_, fun q hq => ?_, ?_⟩
  · rw [hprices, priceHistory_published]
    by_cases hroom : (priceHistory s a).length < maxPriceHistory
    · have hle : (publishedPrices H tr a).length < maxPriceHistory := by omega
      rw [if_pos ⟨rfl, hroom⟩, h.history, List.take_of_length_le hle.le, List.take_of_length_le]
      rw [List.length_append, List.length_singleton]
      exact hle
    · have hle : maxPriceHistory ≤ (publishedPrices H tr a).length := by omega
      rw [if_neg fun hr => hroom hr.2, h.history, List.take_append_of_le_length hle]
  · rw [hprices, latestPrice_published, if_pos rfl, List.getLast?_concat]
  · rw [published_asset, if_pos rfl] at harec'
    obtain rfl := Option.some.inj harec'
    have hupdates := h.updates arec hp.asset
    rw [hprices, List.length_append, List.length_singleton]
    dsimp only
    rw [saturatingSucc, hupdates]
    omega
  · rw [published_asset, if_pos rfl] at hnone
    cases hnone
  · rw [hprices] at hq
    rcases getElem?_concat_cases hq with hq | ⟨rfl, rfl⟩
    · exact h.index k q hq
    · rw [hindex, hlen, min_comm]
  · rw [priceHistory_published]
    split
    · exact hp.linked h.linked
    · exact h.linked
  · rcases List.mem_append.1 hq with hq | hq
    · exact (h.kept q hq).trans hprefix
    · obtain rfl := List.mem_singleton.1 hq
      exact hprefix
  · rw [hprices, List.length_append, List.length_singleton, List.forall_mem_append,
      List.forall_mem_singleton, h.room]
    constructor
    · rintro ⟨-, hroom⟩
      have hlt := hroom p hc
      dsimp only at hlt
      omega
    · intro hle
      refine ⟨by omega, fun _ _ => ?_⟩
      dsimp only
      omega

/-- The asset of a round that publishes. -/
theorem publishedAt_eq_some {p : CanonicalPrice D} {c : State D × (Env × Op)} :
    publishedAt H a c = some p ↔ c.2.2 = .processConsensus a ∧ publishedBy H c = some p := by
  rw [publishedAt]
  split
  · next b hop =>
    rw [hop, Op.processConsensus.injEq]
    split_ifs with hb
    · exact ⟨fun h => ⟨hb, h⟩, fun h => h.2⟩
    · exact ⟨fun h => (by cases h), fun h => absurd h.1 hb⟩
  · next hop =>
    exact ⟨fun h => (by cases h), fun h => absurd h.1 (hop a)⟩

/-- **The step lemma.** -/
theorem Recorded.step (h : Recorded H tr s a) (hs : Fallible.Steps (exec H) s c s') :
    Recorded H (tr ++ [(s, c)]) s' a := by
  obtain ⟨env, op⟩ := c
  rcases step_cases hs with ⟨-, heffect⟩ | ⟨hnone, hrefusal⟩
  · generalize hprice : publishedBy H (s, env, op) = price at heffect
    cases heffect with
    | registerOracle hnew => exact h.untouched rfl ⟨by simp [priceHistory], by simp [latestPrice], Or.inl (by simp)⟩
    | setOracleStatus hrecord => exact h.untouched rfl ⟨by simp [priceHistory], by simp [latestPrice], Or.inl (by simp)⟩
    | @registerAsset b _ _ _ _ _ hnew =>
      refine h.untouched rfl ⟨by simp [priceHistory], by simp [latestPrice], ?_⟩
      rcases eq_or_ne a b with rfl | hne
      · exact Or.inr ⟨hnew, _, by simp; rfl, rfl⟩
      · exact Or.inl (by simp [hne])
    | submitPriceFeed horec hactive harec =>
      refine h.untouched rfl ⟨?_, ?_, Or.inl ?_⟩
      · rw [priceHistory, submitted_inst (by decide)]
        rfl
      · rw [latestPrice, submitted_inst (by decide)]
        rfl
      · rw [submitted_inst (by decide)]
    | @processConsensus b arec p hp =>
      rcases eq_or_ne a b with rfl | hne
      · exact h.publishes hp (publishedAt_eq_some.2 ⟨rfl, hprice⟩)
      · refine h.untouched (if_neg hne.symm) ⟨?_, ?_, Or.inl ?_⟩
        · rw [priceHistory_published, if_neg fun hb => hne hb.1]
        · rw [latestPrice_published, if_neg hne]
        · rw [published_asset, if_neg hne]
  · have hat : publishedAt H a (s, env, op) = none := by
      rcases hp : publishedAt H a (s, env, op) with _ | p
      · rfl
      · rw [(publishedAt_eq_some.1 hp).2] at hnone
        cases hnone
    cases hrefusal with
    | idle => exact h.untouched hat ⟨rfl, rfl, Or.inl rfl⟩
    | rejected harec =>
      refine h.untouched hat ⟨?_, ?_, Or.inl ?_⟩
      · rw [priceHistory, rejected_inst (by decide)]
        rfl
      · rw [latestPrice, rejected_inst (by decide)]
        rfl
      · rw [rejected_inst (by decide)]

/-- The records after any run. -/
theorem recorded_of_run (h : Run (Fallible.Steps (exec H)) Ledger.empty tr s) : Recorded H tr s a :=
  (h.throughout (C := fun _ _ => True) (I := fun tr s => Recorded H tr s a) recorded_empty
    (fun _ _ _ _ _ hs hI => hI.step hs) fun _ _ _ _ => trivial).2

/-! ## The oldest observation -/

omit [DecidableEq D] in
theorem isOldest_oldestObservation (feeds : List (PriceFeed D)) (now : ℕ) :
    IsOldest (oldestObservation feeds now) now feeds := by
  induction feeds generalizing now with
  | nil => exact ⟨le_rfl, fun feed h => (by cases h), Or.inl rfl⟩
  | cons feed feeds ih =>
    have hfold : oldestObservation (feed :: feeds) now =
        oldestObservation feeds (if feed.observedAt < now then feed.observedAt else now) := rfl
    rw [hfold]
    obtain ⟨hnow, hfeeds, hmem⟩ := ih (if feed.observedAt < now then feed.observedAt else now)
    refine ⟨?_, List.forall_mem_cons.2 ⟨?_, hfeeds⟩, ?_⟩
    · split_ifs at hnow ⊢ <;> omega
    · split_ifs at hnow ⊢ <;> omega
    · rcases hmem with hmem | ⟨f, hf, he⟩
      · rw [hmem]
        split_ifs
        · exact Or.inr ⟨feed, List.mem_cons_self .., rfl⟩
        · exact Or.inl rfl
      · exact Or.inr ⟨f, List.mem_cons_of_mem _ hf, he⟩

omit [DecidableEq D] in
/-- The oldest of some feeds is that of all of them, when none of the others is older. -/
theorem isOldest_iff {feeds some' : List (PriceFeed D)} {now : ℕ} (hsub : ∀ feed ∈ some', feed ∈ feeds) :
    IsOldest (oldestObservation feeds now) now some' ↔
      ∀ feed ∈ feeds, now ≤ feed.observedAt ∨ ∃ f ∈ some', f.observedAt ≤ feed.observedAt := by
  obtain ⟨hnow, hfeeds, hmem⟩ := isOldest_oldestObservation feeds now
  constructor
  · rintro ⟨-, -, heq⟩ feed hfeed
    have hle := hfeeds feed hfeed
    rcases heq with heq | ⟨f, hf, heq⟩
    · exact Or.inl (heq ▸ hle)
    · exact Or.inr ⟨f, hf, heq ▸ hle⟩
  · intro h
    refine ⟨hnow, fun f hf => hfeeds f (hsub f hf), ?_⟩
    rcases hmem with hmem | ⟨feed, hfeed, he⟩
    · exact Or.inl hmem
    · rcases h feed hfeed with hle | ⟨f, hf, hle⟩
      · exact Or.inl (le_antisymm hnow (he ▸ hle))
      · exact Or.inr ⟨f, hf, le_antisymm (he ▸ hle) (hfeeds f (hsub f hf))⟩

/-- What contributes is in the buffer. -/
theorem mem_pendingFeeds_of_contributors {now : ℕ} {arec : AssetRecord} {feed : PriceFeed D}
    (h : feed ∈ contributors H s now a arec) : feed ∈ pendingFeeds s a :=
  List.mem_of_mem_filter (contributors_sublist.mem h)

theorem Publishes.isOldest_iff {now : ℕ} {arec : AssetRecord} {p : CanonicalPrice D}
    (hp : Publishes H s now a arec p) : IsOldest p.oldestObservation now (contributors H s now a arec) ↔
      ∀ feed ∈ pendingFeeds s a, now ≤ feed.observedAt ∨
        ∃ contributor ∈ contributors H s now a arec, contributor.observedAt ≤ feed.observedAt := by
  obtain ⟨price, confidence, count, rfl⟩ := hp.price_eq
  exact RwaOracle.isOldest_iff fun _ => mem_pendingFeeds_of_contributors

/-! ## Complete histories -/

/-- The round that has published a price. -/
theorem publishes_of_publishedAt {c : State D × (Env × Op)} {p : CanonicalPrice D} {arec : AssetRecord}
    (h : publishedAt H a c = some p) (harec : c.1.inst .asset a = some arec) :
    Publishes H c.1 c.2.1.timestamp a arec p := by
  obtain ⟨hop, hprice⟩ := publishedAt_eq_some.1 h
  obtain ⟨b, arec', hop', hp⟩ := publishes_of_publishedBy hprice
  obtain rfl : a = b := by
    rw [hop] at hop'
    exact Op.processConsensus.inj hop'
  obtain rfl : arec = arec' := Option.some.inj (harec.symm.trans hp.asset)
  exact hp

/-- The asset of a round that has published a price. -/
theorem asset_of_publishedAt {c : State D × (Env × Op)} {p : CanonicalPrice D}
    (h : publishedAt H a c = some p) :
    ∃ arec, c.1.inst .asset a = some arec := by
  obtain ⟨hop, hprice⟩ := publishedAt_eq_some.1 h
  obtain ⟨b, arec, hop', hp⟩ := publishes_of_publishedBy hprice
  obtain rfl : a = b := by
    rw [hop] at hop'
    exact Op.processConsensus.inj hop'
  exact ⟨arec, hp.asset⟩

/-- With room for all the prices, the history has them all. -/
theorem Recorded.history_eq (h : Recorded H tr s a)
    (hle : (publishedPrices H tr a).length ≤ maxPriceHistory) :
    priceHistory s a = publishedPrices H tr a := by
  rw [h.history, List.take_of_length_le hle]

/-- A price that the history has no room for is not its last one. -/
theorem Recorded.room_of_latest (h : Recorded H tr s a)
    (hlatest : latestPrice s a = (priceHistory s a).getLast?) :
    (publishedPrices H tr a).length ≤ maxPriceHistory := by
  by_contra hgt
  have hlen : (priceHistory s a).length = maxPriceHistory := by
    rw [h.history, List.length_take]
    omega
  rw [h.latest, List.getLast?_eq_getElem?, List.getLast?_eq_getElem?, hlen, h.history,
    List.getElem?_take_of_lt (by decide)] at hlatest
  obtain ⟨p, hp⟩ : ∃ p, (publishedPrices H tr a)[(publishedPrices H tr a).length - 1]? = some p :=
    ⟨_, List.getElem?_eq_getElem (by omega)⟩
  have hlast := h.index _ p hp
  have hcap := h.index _ p (hlatest ▸ hp)
  rw [hlast] at hcap
  have hmax : maxPriceHistory = 1000 := rfl
  omega

theorem Recorded.complete (h : Recorded H tr s a) (hle : (publishedPrices H tr a).length ≤ maxPriceHistory)
    (holdest : ∀ c ∈ tr, ∀ p, publishedAt H a c = some p → ∀ arec, c.1.inst .asset a = some arec →
      IsOldest p.oldestObservation c.2.1.timestamp (contributors H c.1 c.2.1.timestamp a arec)) :
    Complete H tr s a := by
  have heq := h.history_eq hle
  have hlinks : ∀ k p q, (priceHistory s a)[k]? = some p → (priceHistory s a)[k + 1]? = some q →
      q.prevHash = p.chainHash := fun k p q hp hq => (h.linked.get hq).1.trans (Linking.tail_take_succ hp)
  refine ⟨fun k p hp => ⟨?_, ?_⟩, fun p hp => (h.linked.get hp).1, hlinks, h.kept, ?_, heq ▸ hlinks,
    fun arec harec => ?_, fun c hc p hp _ arec harec => holdest c hc p hp arec harec⟩
  · rw [heq] at hp
    have hlt : k < (publishedPrices H tr a).length := (List.getElem?_eq_some_iff.1 hp).1
    rw [h.index k p hp, min_eq_left (hlt.le.trans hle)]
  · exact beq_iff_eq.2 (h.linked.get hp).2.symm
  · rw [h.latest, heq]
  · have hmax : maxPriceHistory = 1000 := rfl
    rw [h.updates arec harec, min_eq_left (by omega)]

/-- **The history is complete** after exactly the runs of lossless calls. -/
theorem history_complete (h : Run (Fallible.Steps (exec H)) Ledger.empty tr s) :
    (∀ a, Complete H tr s a) ↔ ∀ c ∈ tr, Lossless H c := by
  constructor
  · intro hcomplete c hc a p arec hp harec
    have hrec := recorded_of_run (a := a) h
    have hle := hrec.room_of_latest (hcomplete a).latest
    have hmem : p ∈ priceHistory s a := by
      rw [hrec.history_eq hle]
      exact List.mem_filterMap.2 ⟨c, hc, hp⟩
    refine ⟨hrec.room.2 hle c hc p hp, ?_⟩
    exact (publishes_of_publishedAt hp harec).isOldest_iff.1 ((hcomplete a).oldest c hc p hp hmem arec harec)
  · intro hlossless a
    refine (recorded_of_run h).complete ((recorded_of_run h).room.1 fun c hc p hp => ?_)
      fun c hc p hp arec harec => ?_
    · obtain ⟨arec, harec⟩ := asset_of_publishedAt hp
      exact (hlossless c hc a p arec hp harec).1
    · exact (publishes_of_publishedAt hp harec).isOldest_iff.2 (hlossless c hc a p arec hp harec).2

/-! ## Scripts -/

theorem history_complete_quorumScript :
    ∃ s, Run (Fallible.Steps (exec plainHost)) Ledger.empty (scriptTrace quorumScript) s ∧
      (priceHistory s "RE_1").length = 1 ∧ ∀ a, Complete plainHost (scriptTrace quorumScript) s a := by
  obtain ⟨s, hs⟩ : ∃ s, Call.play (fun op => (exec plainHost op).toCall) Ledger.empty quorumScript =
      some s := ⟨_, rfl⟩
  have hrun : Run (Fallible.Steps (exec plainHost)) Ledger.empty (scriptTrace quorumScript) s :=
    Fallible.run_of_play hs
  have hquiet : ∀ {c : State Bytes × (Env × Op)}, (∀ a, publishedAt plainHost a c = none) →
      Lossless plainHost c := by
    intro c hc a p arec hp
    rw [hc a] at hp
    cases hp
  refine ⟨s, hrun, ?_, (history_complete hrun).2 ?_⟩
  · cases hs
    decide
  · refine List.forall_mem_cons.2 ⟨hquiet fun _ => rfl, List.forall_mem_cons.2 ⟨hquiet fun _ => rfl,
      List.forall_mem_cons.2 ⟨hquiet fun _ => rfl, List.forall_mem_cons.2 ⟨hquiet fun _ => rfl,
        List.forall_mem_cons.2 ⟨hquiet fun _ => rfl, List.forall_mem_cons.2 ⟨?_, List.forall_mem_nil _⟩⟩⟩⟩⟩⟩
    intro a p arec hp harec
    obtain rfl : "RE_1" = a := Op.processConsensus.inj (publishedAt_eq_some.1 hp).1
    cases harec
    decide

/-- The first feed is stale when the round is run. -/
def staleScript : List (Env × Op) :=
  setupScript ++ [submission 110 65 1000, submission 4000 65 1005, submission 4000 66 1010]

def lateCall : Env × Op := callAt 4010 (.processConsensus "RE_1")

/-- **A feed that does not contribute is the oldest observation.** -/
theorem not_complete :
    ∃ s s' p arec, Run (Fallible.Steps (exec plainHost)) Ledger.empty
      (scriptTrace staleScript ++ [(s, lateCall)]) s' ∧
      publishedAt plainHost "RE_1" (s, lateCall) = some p ∧ p.oldestObservation = 110 ∧
      s.inst .asset "RE_1" = some arec ∧
      (contributors plainHost s 4010 "RE_1" arec).map PriceFeed.observedAt = [4000, 4000] ∧
      ¬Complete plainHost (scriptTrace staleScript ++ [(s, lateCall)]) s' "RE_1" := by
  obtain ⟨s, hs⟩ : ∃ s, Call.play (fun op => (exec plainHost op).toCall) Ledger.empty staleScript =
      some s := ⟨_, rfl⟩
  obtain ⟨arec, harec⟩ : ∃ arec, s.inst .asset "RE_1" = some arec := by
    cases hs
    exact ⟨_, rfl⟩
  obtain ⟨p, hp⟩ : ∃ p, publishedAt plainHost "RE_1" (s, lateCall) = some p := by
    cases hs
    exact ⟨_, rfl⟩
  obtain ⟨s', hs', hmem⟩ : ∃ s', Fallible.Steps (exec plainHost) s lateCall s' ∧
      p ∈ priceHistory s' "RE_1" := by
    cases hs
    cases hp
    exact ⟨_, Or.inl ⟨_, rfl⟩, List.mem_cons_self ..⟩
  have holdest : p.oldestObservation = 110 := by
    cases hs
    cases hp
    rfl
  have hobserved : (contributors plainHost s 4010 "RE_1" arec).map PriceFeed.observedAt = [4000, 4000] := by
    cases hs
    cases harec
    decide
  refine ⟨s, s', p, arec, .snoc (Fallible.run_of_play hs) hs', hp, holdest, harec, hobserved, fun h => ?_⟩
  have htime : (s, lateCall).2.1.timestamp = 4010 := rfl
  obtain ⟨-, -, hnow | ⟨feed, hfeed, he⟩⟩ := h.oldest (s, lateCall) (by simp) p hp hmem arec harec
  · rw [holdest, htime] at hnow
    exact absurd hnow (by decide)
  · have hin := List.mem_map_of_mem (f := PriceFeed.observedAt) hfeed
    rw [htime, hobserved, he, holdest] at hin
    exact absurd hin (by decide)

end RwaOracle
