/-
  RwaOracle — who is behind a price.

  A price should come from as many registered oracles as the quorum of its asset asks for, all
  of them active, and none that was ever revoked (`ByQuorum`).  The buffer counts feeds instead,
  the status of an oracle is not looked at again when a round is run, the quorum is compared
  before the outliers are dropped, and a revoked oracle can be made active again.

  `published_by_quorum`: in a run of calls that keep clear of these four (`Careful`), every
  price is by a quorum.  The invariant is `Orderly`: fresh feeds in a buffer are by active
  oracles, and by different ones.
-/
import AuditTransparency.Oracle.Rounds
import Mathlib.Data.List.Dedup

namespace RwaOracle

open Soroban

variable {D : Type} [DecidableEq D] {H : Host D} {before tr : List (State D × (Env × Op))} {s s' : State D}
  {c : Env × Op} {o : Address} {a : Symbol}

/-! ## Prices by a quorum -/

/-- The feeds of a round that contribute. -/
def contributors (H : Host D) (s : State D) (now : ℕ) (a : Symbol) (arec : AssetRecord) :
    List (PriceFeed D) :=
  contributing H now (arec.window (stalenessWindow s)) (roundFeeds s a)

/-- The oracle has been revoked, before or at `s`. -/
def EverRevoked (before : List (State D × (Env × Op))) (s : State D) (o : Address) : Prop :=
  (∃ p ∈ before, status p.1 o = some .revoked) ∨ status s o = some .revoked

/-- The feeds that contribute to a round are by active oracles that were never revoked, and by at least
    as many of them as the quorum. -/
structure ByQuorum (H : Host D) (before : List (State D × (Env × Op))) (s : State D) (now : ℕ) (a : Symbol)
    (arec : AssetRecord) : Prop where
  active : ∀ feed ∈ contributors H s now a arec, status s feed.oracle = some .active
  quorum : arec.quorum ≤ ((contributors H s now a arec).map PriceFeed.oracle).dedup.length
  unrevoked : ∀ feed ∈ contributors H s now a arec, ¬EverRevoked before s feed.oracle

/-! ## Careful calls -/

/-- The feeds of the buffer that are fresh. -/
def freshFeeds (s : State D) (a : Symbol) (arec : AssetRecord) (now : ℕ) : List (PriceFeed D) :=
  (pendingFeeds s a).filter fun feed => feed.isFresh now (arec.window (stalenessWindow s))

/-- When the call is accepted, the oracle has no fresh feed in the buffer, or that is full, and dropped, or one
    feed is enough. -/
def SubmitsOnce (H : Host D) (s : State D) (c : Env × Op) (o : Address) (a : Symbol) : Prop :=
  returnsOk H s c = true → ∀ arec ∈ s.inst .asset a, 2 ≤ arec.quorum → ∀ feed ∈ kept (pendingFeeds s a),
    feed.isFresh c.1.timestamp (arec.window (stalenessWindow s)) = true → feed.oracle ≠ o

/-- The deviation cap leaves a round that has a quorum of fresh and intact feeds with a quorum of feeds. -/
def KeepsQuorum (H : Host D) (s : State D) (now : ℕ) (a : Symbol) : Prop :=
  ∀ arec ∈ s.inst .asset a,
    arec.quorum ≤ ((roundFeeds s a).filter (PriceFeed.valid H now (arec.window (stalenessWindow s)))).length →
      arec.quorum ≤ (contributors H s now a arec).length

instance (s : State D) (c : Env × Op) (o : Address) (a : Symbol) : Decidable (SubmitsOnce H s c o a) :=
  inferInstanceAs (Decidable (_ → ∀ arec ∈ s.inst .asset a, _ → ∀ feed ∈ kept (pendingFeeds s a), _ → _))

instance (s : State D) (now : ℕ) (a : Symbol) : Decidable (KeepsQuorum H s now a) :=
  inferInstanceAs (Decidable (∀ arec ∈ s.inst .asset a, _ → _))

/-- A call that keeps clear of the defects:
    * a feed is accepted of an oracle that has none in the round yet;
    * an oracle with a fresh feed in a buffer stays active;
    * an oracle that was revoked is not made active;
    * the outliers of a round are not needed for its quorum. -/
def Careful (H : Host D) (before : List (State D × (Env × Op))) (p : State D × (Env × Op)) : Prop :=
  match p.2.2 with
  | .submitPriceFeed o a _ _ _ _ => SubmitsOnce H p.1 p.2 o a
  | .setOracleStatus o status =>
    (status ≠ .active → ∀ a, ∀ arec ∈ p.1.inst .asset a, ∀ feed ∈ freshFeeds p.1 a arec p.2.1.timestamp,
      feed.oracle ≠ o) ∧
    (status = .active → ¬EverRevoked before p.1 o)
  | .processConsensus a => KeepsQuorum H p.1 p.2.1.timestamp a
  | _ => True

/-! ## The invariant -/

omit [DecidableEq D] in
theorem everRevoked_concat :
    EverRevoked (before ++ [(s, c)]) s' o ↔ EverRevoked before s o ∨ status s' o = some .revoked := by
  simp only [EverRevoked, List.mem_append, List.mem_singleton, or_and_right, exists_or, exists_eq_left]

/-- No call of the trace was later than `now`. -/
def Until (before : List (State D × (Env × Op))) (now : ℕ) : Prop := ∀ p ∈ before, p.2.1.timestamp ≤ now

/-- What careful calls keep. -/
structure Orderly (before : List (State D × (Env × Op))) (s : State D) : Prop where
  unregistered : ∀ a, s.inst .asset a = none → pendingFeeds s a = []
  active : ∀ now, Until before now → ∀ a arec, s.inst .asset a = some arec →
    ∀ feed ∈ freshFeeds s a arec now, status s feed.oracle = some .active
  distinct : ∀ now, Until before now → ∀ a arec, s.inst .asset a = some arec → 2 ≤ arec.quorum →
    ((freshFeeds s a arec now).map PriceFeed.oracle).Nodup
  revoked : ∀ o, EverRevoked before s o → ∃ st, status s o = some st ∧ st ≠ .active

omit [DecidableEq D] in
theorem orderly_empty : Orderly [] (Ledger.empty : State D) where
  unregistered _ _ := rfl
  active _ _ _ _ harec := by cases harec
  distinct _ _ _ _ harec := by cases harec
  revoked o h := by
    rcases h with ⟨p, hp, -⟩ | h
    · cases hp
    · cases h

omit [DecidableEq D] in
/-- A feed that is fresh has been so before. -/
theorem PriceFeed.isFresh_mono {feed : PriceFeed D} {now now' window : ℕ}
    (h : feed.isFresh now' window = true)
    (hle : now ≤ now') : feed.isFresh now window = true := by
  rw [PriceFeed.isFresh, decide_eq_true_eq] at *
  omega

/-- The buffer of the asset is the same, and so are its quorum and its window. -/
structure SameTerms (s s' : State D) (a : Symbol) : Prop where
  pending : pendingFeeds s' a = pendingFeeds s a
  gone : s'.inst .asset a = none → s.inst .asset a = none
  terms : ∀ arec', s'.inst .asset a = some arec' → ∃ arec, s.inst .asset a = some arec ∧
    arec'.quorum = arec.quorum ∧
    arec'.window (stalenessWindow s') = arec.window (stalenessWindow s)

omit [DecidableEq D] in
/-- **A step that adds no feed.**  Buffers stay or are emptied, and the oracles of fresh feeds stay active. -/
theorem Orderly.quiet (h : Orderly before s) (htime : Until before c.1.timestamp)
    (hpending : ∀ a, pendingFeeds s' a = [] ∨ SameTerms s s' a)
    (hactive : ∀ a arec, s.inst .asset a = some arec → ∀ feed ∈ freshFeeds s a arec c.1.timestamp,
      status s feed.oracle = some .active → status s' feed.oracle = some .active)
    (hrevoked : ∀ o, EverRevoked before s o → (∃ st, status s o = some st ∧ st ≠ .active) →
      ∃ st, status s' o = some st ∧ st ≠ .active) :
    Orderly (before ++ [(s, c)]) s' where
  unregistered a hnone := by
    rcases hpending a with hempty | ⟨hsame, hgone, -⟩
    · exact hempty
    · rw [hsame]
      exact h.unregistered a (hgone hnone)
  active now hnow a arec' harec' feed hfeed := by
    rcases hpending a with hempty | ⟨hsame, -, hterms⟩
    · rw [freshFeeds, hempty] at hfeed
      cases hfeed
    · obtain ⟨arec, harec, -, hwindow⟩ := hterms arec' harec'
      rw [freshFeeds, hsame, hwindow, List.mem_filter] at hfeed
      have hfresh : feed ∈ freshFeeds s a arec c.1.timestamp :=
        List.mem_filter.2 ⟨hfeed.1, PriceFeed.isFresh_mono hfeed.2 (hnow (s, c) (by simp))⟩
      exact hactive a arec harec feed hfresh (h.active _ htime a arec harec feed hfresh)
  distinct now hnow a arec' harec' hquorum := by
    rcases hpending a with hempty | ⟨hsame, -, hterms⟩
    · rw [freshFeeds, hempty]
      exact List.nodup_nil
    · obtain ⟨arec, harec, hq, hwindow⟩ := hterms arec' harec'
      rw [freshFeeds, hsame, hwindow]
      exact h.distinct now (fun p hp => hnow p (List.mem_append_left _ hp)) a arec harec (hq ▸ hquorum)
  revoked o ho := by
    rcases everRevoked_concat.1 ho with ho | ho
    · exact hrevoked o ho (h.revoked o ho)
    · exact ⟨_, ho, by decide⟩

omit [DecidableEq D] in
/-- A step that leaves the oracles active, and at most empties buffers. -/
theorem Orderly.still (h : Orderly before s) (htime : Until before c.1.timestamp)
    (hpending : ∀ a, pendingFeeds s' a = [] ∨ SameTerms s s' a)
    (hstatus : ∀ o, status s' o = status s o) : Orderly (before ++ [(s, c)]) s' :=
  h.quiet htime hpending (fun _ _ _ feed _ hactive => (hstatus feed.oracle).trans hactive)
    fun o _ ⟨st, hst, hne⟩ => ⟨st, (hstatus o).trans hst, hne⟩

omit [DecidableEq D] in
theorem Until.of_concat {now : ℕ} (h : Until (before ++ [(s, c)]) now) :
    Until before now ∧ c.1.timestamp ≤ now :=
  ⟨fun p hp => h p (List.mem_append_left _ hp), h (s, c) (by simp)⟩

omit [DecidableEq D] in
/-- **A step that adds a feed**, of an active oracle that has no fresh one in the buffer. -/
theorem Orderly.submits (h : Orderly before s) {orec : OracleRecord} {arec : AssetRecord} {feed : PriceFeed D}
    (horec : s.inst .oracle feed.oracle = some orec) (hactive : orec.status = .active)
    (harec : s.inst .asset feed.assetId = some arec)
    (hnew : 2 ≤ arec.quorum → ∀ f ∈ kept (pendingFeeds s feed.assetId),
      f.isFresh c.1.timestamp (arec.window (stalenessWindow s)) → f.oracle ≠ feed.oracle) :
    Orderly (before ++ [(s, c)]) (submitted s feed.oracle orec feed) := by
  have hasset : (submitted s feed.oracle orec feed).inst .asset = s.inst .asset := submitted_inst (by decide)
  have hwindow : stalenessWindow (submitted s feed.oracle orec feed) = stalenessWindow s :=
    stalenessWindow_congr (submitted_inst (by decide))
  refine ⟨fun a hnone => ?_, fun now hnow a arec' harec' f hf => ?_,
    fun now hnow a arec' harec' hquorum => ?_,
    fun o ho => ?_⟩
  · rw [hasset] at hnone
    rw [pendingFeeds_submitted]
    split_ifs with ha
    · rw [ha, harec] at hnone
      cases hnone
    · exact h.unregistered a hnone
  · obtain ⟨hnow, -⟩ := hnow.of_concat
    rw [hasset] at harec'
    rw [freshFeeds, pendingFeeds_submitted, hwindow, List.mem_filter] at hf
    rw [status_submitted horec]
    obtain ⟨hf, hfresh⟩ := hf
    split_ifs at hf with ha
    · subst ha
      rcases List.mem_append.1 hf with hf | hf
      · exact h.active now hnow feed.assetId arec' harec' f (List.mem_filter.2 ⟨kept_sublist.mem hf, hfresh⟩)
      · obtain rfl := List.mem_singleton.1 hf
        rw [status, horec, Option.map_some, hactive]
    · exact h.active now hnow a arec' harec' f (List.mem_filter.2 ⟨hf, hfresh⟩)
  · obtain ⟨hnow, hle⟩ := hnow.of_concat
    rw [hasset] at harec'
    rw [freshFeeds, pendingFeeds_submitted, hwindow]
    split_ifs with ha
    · subst ha
      obtain rfl : arec = arec' := Option.some.inj (harec.symm.trans harec')
      have hold := h.distinct now hnow feed.assetId arec harec hquorum
      rw [List.filter_append, List.map_append, List.nodup_append]
      refine ⟨hold.sublist ((kept_sublist.filter _).map _), ?_, ?_⟩
      · exact (List.nodup_singleton feed.oracle).sublist (List.filter_sublist.map PriceFeed.oracle)
      · intro o ho o' ho'
        obtain ⟨f, hf, rfl⟩ := List.mem_map.1 ho
        obtain ⟨f', hf', rfl⟩ := List.mem_map.1 ho'
        obtain rfl := List.mem_singleton.1 (List.mem_of_mem_filter hf')
        obtain ⟨hf, hfresh⟩ := List.mem_filter.1 hf
        exact hnew hquorum f hf (PriceFeed.isFresh_mono hfresh hle)
    · exact h.distinct now hnow a arec' harec' hquorum
  · rw [status_submitted horec]
    rcases everRevoked_concat.1 ho with ho | ho
    · exact h.revoked o ho
    · rw [status_submitted horec] at ho
      exact ⟨_, ho, by decide⟩

omit [DecidableEq D] in
/-- Assets and buffers that a step leaves alone. -/
theorem sameTerms (hasset : s'.inst .asset a = s.inst .asset a)
    (hpending : pendingFeeds s' a = pendingFeeds s a)
    (hwindow : stalenessWindow s' = stalenessWindow s) : SameTerms s s' a where
  pending := hpending
  gone h := hasset ▸ h
  terms arec harec := ⟨arec, hasset ▸ harec, rfl, by rw [hwindow]⟩

/-- **The step lemma.** -/
theorem orderly_step (hC : Careful H before (s, c)) (htime : Until before c.1.timestamp)
    (hs : Fallible.Steps (exec H) s c s') (h : Orderly before s) : Orderly (before ++ [(s, c)]) s' := by
  obtain ⟨env, op⟩ := c
  rcases step_cases hs with ⟨hok, heffect⟩ | ⟨-, hrefusal⟩
  · generalize publishedBy H (s, env, op) = p at heffect
    cases heffect with
    | @registerOracle o name supportedClasses reputationScore hnew =>
      have hstatus : ∀ o', status s o' ≠ none → status ((s.put .oracle o (newOracle env.timestamp o name
          supportedClasses reputationScore)).put .oracleCount () ((s.inst .oracleCount ()).getD 0 + 1)) o' =
            status s o' := by
        intro o' ho'
        rw [status_put_ne (by simp), status_put, if_neg]
        rintro rfl
        rw [status, hnew] at ho'
        exact ho' rfl
      refine h.quiet htime (fun a => Or.inr (sameTerms ?_ ?_ (stalenessWindow_congr ?_))) ?_ ?_
      · simp
      · simp
      · simp
      · intro a arec _ feed _ hactive
        rw [hstatus _ (by simp [hactive]), hactive]
      · rintro o' - ⟨st, hst, hne⟩
        exact ⟨st, by rw [hstatus _ (by simp [hst]), hst], hne⟩
    | @setOracleStatus o st record hrecord =>
      refine h.quiet htime (fun a => Or.inr (sameTerms ?_ ?_ (stalenessWindow_congr ?_))) ?_ ?_
      · simp
      · simp
      · simp
      · intro a arec harec feed hfeed hactive
        rw [status_put]
        split_ifs with ho
        · -- an oracle with a fresh feed stays active
          by_contra hst
          exact hC.1 (fun he => hst (congrArg some he)) a arec harec feed hfeed ho
        · exact hactive
      · rintro o' ho' ⟨st', hst', hne⟩
        rw [status_put]
        split_ifs with ho
        · exact ⟨st, rfl, fun hst => hC.2 hst (ho ▸ ho')⟩
        · exact ⟨st', hst', hne⟩
    | @registerAsset a _ _ _ _ _ hnew =>
      refine h.still htime (fun b => ?_) fun o => by simp
      rcases eq_or_ne b a with rfl | hne
      · exact Or.inl (by simpa using h.unregistered b hnew)
      · refine Or.inr (sameTerms ?_ ?_ (stalenessWindow_congr ?_))
        · simp [hne]
        · simp
        · simp
    | submitPriceFeed horec hactive harec => exact h.submits horec hactive harec (hC hok _ harec)
    | @processConsensus a arec p hp =>
      refine h.still htime (fun b => ?_) fun o => ?_
      · rw [pendingFeeds_published]
        split_ifs with hb
        · exact Or.inl rfl
        · refine Or.inr (sameTerms ?_ ?_ (stalenessWindow_congr (published_inst (by decide))))
          · rw [published_asset, if_neg hb]
          · rw [pendingFeeds_published, if_neg hb]
      · rw [status, published_inst (by decide)]
        rfl
  · cases hrefusal with
    | idle => exact h.still htime (fun a => Or.inr (sameTerms rfl rfl rfl)) fun _ => rfl
    | @rejected a arec harec =>
      refine h.still htime (fun b => ?_) fun o => ?_
      · rw [pendingFeeds_rejected]
        split_ifs with hb
        · exact Or.inl rfl
        · refine Or.inr (sameTerms ?_ ?_ (stalenessWindow_congr (rejected_inst (by decide))))
          · rw [rejected_inst (by decide)]
          · rw [pendingFeeds_rejected, if_neg hb]
      · rw [rejected, status_put_ne (by simp), status_foldl_rejection]

/-! ## Runs -/

/-- What contributes is fresh and in the buffer. -/
theorem contributors_sublist {now : ℕ} {arec : AssetRecord} :
    (contributors H s now a arec).Sublist (freshFeeds s a arec now) := by
  refine contributing_sublist.trans ?_
  refine ((List.take_sublist 10 (pendingFeeds s a)).filter _).trans
    (List.monotone_filter_right _ fun feed h => ?_)
  rw [PriceFeed.valid, isFeedStale, Bool.not_not, Bool.and_eq_true] at h
  exact h.1

/-- The round of an orderly ledger is by a quorum. -/
theorem Orderly.byQuorum (h : Orderly before s) {now : ℕ} (htime : Until before now) {arec : AssetRecord}
    {price : CanonicalPrice D} (hp : Publishes H s now a arec price)
    (hcap : arec.quorum ≤ ((roundFeeds s a).filter
      (PriceFeed.valid H now (arec.window (stalenessWindow s)))).length →
      arec.quorum ≤ (contributors H s now a arec).length) : ByQuorum H before s now a arec := by
  have hactive : ∀ feed ∈ contributors H s now a arec,
      status s feed.oracle = some .active := fun feed hfeed =>
    h.active now htime a arec hp.asset feed (contributors_sublist.mem hfeed)
  refine ⟨hactive, ?_, fun feed hfeed hrevoked => ?_⟩
  · rcases Nat.lt_or_ge arec.quorum 2 with hquorum | hquorum
    · -- one feed is enough
      obtain ⟨feed, rest, hfeed⟩ := List.exists_cons_of_ne_nil hp.accepted.nonempty
      have hmem : feed.oracle ∈ ((contributors H s now a arec).map PriceFeed.oracle).dedup := by
        rw [List.mem_dedup, contributors, hfeed]
        simp
      have hpos := List.length_pos_of_mem hmem
      omega
    · have hnodup := (h.distinct now htime a arec hp.asset hquorum).sublist
        (contributors_sublist (H := H).map PriceFeed.oracle)
      rw [hnodup.dedup, List.length_map]
      exact hcap hp.accepted.quorum_le
  · obtain ⟨st, hst, hne⟩ := h.revoked _ hrevoked
    rw [hactive feed hfeed] at hst
    exact hne (Option.some.inj hst).symm

/-- If the call publishes a price, it is by a quorum. -/
def PublishedByQuorum (H : Host D) (before : List (State D × (Env × Op))) (p : State D × (Env × Op)) : Prop :=
  ∀ a arec price, p.2.2 = .processConsensus a → p.1.inst .asset a = some arec → publishedBy H p = some price →
    ByQuorum H before p.1 p.2.1.timestamp a arec

omit [DecidableEq D] in
/-- The ledger time of what was before. -/
theorem until_of_timely {p : State D × (Env × Op)} {after : List (State D × (Env × Op))}
    (h : Call.Timely (before ++ p :: after)) : Until before p.2.1.timestamp :=
  fun q hq => (List.pairwise_append.1 h).2.2 q hq p (by simp)

/-- **Prices are by a quorum** in every run of careful calls. -/
theorem published_by_quorum (h : Run (Fallible.Steps (exec H)) Ledger.empty tr s) (htime : Call.Timely tr)
    (hcareful : ∀ before p after, tr = before ++ p :: after → Careful H before p) :
    ∀ before p after, tr = before ++ p :: after → PublishedByQuorum H before p := by
  have horderly := (h.throughout (C := fun before p => Careful H before p ∧ Until before p.2.1.timestamp)
    (I := Orderly)
    orderly_empty (fun _ _ _ _ hC hs hI => orderly_step hC.1 hC.2 hs hI) fun before p after htr =>
      ⟨hcareful before p after htr, until_of_timely (htr ▸ htime)⟩).1
  rintro before p after htr a arec price hop harec hprice
  obtain ⟨b, arec', hop', hp⟩ := publishes_of_publishedBy hprice
  obtain rfl : a = b := by
    rw [hop] at hop'
    exact Op.processConsensus.inj hop'
  obtain rfl : arec = arec' := Option.some.inj (harec.symm.trans hp.asset)
  have hcap := hcareful before p after htr
  rw [Careful, hop] at hcap
  exact (horderly before p after htr).byQuorum (until_of_timely (htr ▸ htime)) hp (hcap arec harec)

/-! ## Scripts -/

/-- A host whose hash is the text itself. -/
def plainHost : Host Bytes := ⟨id, id, List.replicate 32 0⟩

/-- A call at a time. -/
def callAt (t : ℕ) (op : Op) : Env × Op := (⟨t, 0, fun _ => true, fun _ => 0⟩, op)

theorem length_oracleAddress (c : UInt8) : (71 :: List.replicate 55 c).length = 56 := by
  rw [List.length_cons, List.length_replicate]

def oracleAddress (c : UInt8) : Address := ⟨71 :: List.replicate 55 c, length_oracleAddress c⟩

/-- Two oracles, and an asset with the quorum of two. -/
def setupScript : List (Env × Op) :=
  [callAt 100 (.registerOracle (oracleAddress 65) [] [] 80),
    callAt 100 (.registerOracle (oracleAddress 66) [] [] 60),
    callAt 100 (.registerAsset "RE_1" .realEstate [] (oracleAddress 67) none none)]

def submission (t : ℕ) (c : UInt8) (price : ℕ) : Env × Op :=
  callAt t (.submitPriceFeed (oracleAddress c) "RE_1" price 2 t [])

/-- Each of the oracles submits a feed. -/
def quorumScript : List (Env × Op) :=
  setupScript ++ [submission 110 65 1000, submission 120 66 1010, callAt 130 (.processConsensus "RE_1")]

/-- One of them submits two. -/
def repeatedScript : List (Env × Op) :=
  setupScript ++ [submission 110 65 1000, submission 120 65 1010]

def roundCall : Env × Op := callAt 130 (.processConsensus "RE_1")

/-- The trace of a script. -/
def scriptTrace (script : List (Env × Op)) : List (State Bytes × (Env × Op)) :=
  Call.traceOf (fun op => (exec plainHost op).toCall) Ledger.empty script

theorem published_by_quorum_quorumScript :
    ∃ s, Run (Fallible.Steps (exec plainHost)) Ledger.empty (scriptTrace quorumScript) s ∧
      (latestPrice s "RE_1").isSome ∧
      ∀ before p after, scriptTrace quorumScript = before ++ p ::
        after → PublishedByQuorum plainHost before p := by
  obtain ⟨s, hs⟩ : ∃ s, Call.play (fun op => (exec plainHost op).toCall) Ledger.empty quorumScript =
      some s := ⟨_, rfl⟩
  have hrun : Run (Fallible.Steps (exec plainHost)) Ledger.empty (scriptTrace quorumScript) s :=
    Fallible.run_of_play hs
  refine ⟨s, hrun, ?_, published_by_quorum hrun (by decide) ?_⟩
  · cases hs
    decide
  · refine Run.forall_cut_cons.2 ⟨trivial, Run.forall_cut_cons.2 ⟨trivial, Run.forall_cut_cons.2 ⟨trivial,
      Run.forall_cut_cons.2 ⟨?_, Run.forall_cut_cons.2 ⟨?_,
        Run.forall_cut_cons.2 ⟨?_, Run.forall_cut_nil⟩⟩⟩⟩⟩⟩
    · exact of_decide_eq_true (p := SubmitsOnce _ _ _ _ _) (by decide)
    · exact of_decide_eq_true (p := SubmitsOnce _ _ _ _ _) (by decide)
    · exact of_decide_eq_true (p := KeepsQuorum _ _ _ _) (by decide)

/-- **One oracle fills the quorum of two.** -/
theorem not_published_by_quorum :
    ∃ s s' arec, Run (Fallible.Steps (exec plainHost)) Ledger.empty
      (scriptTrace repeatedScript ++ [(s, roundCall)]) s' ∧
      Call.Timely (scriptTrace repeatedScript ++ [(s, roundCall)]) ∧ s.inst .asset "RE_1" = some arec ∧
      arec.quorum = 2 ∧ (publishedBy plainHost (s, roundCall)).isSome ∧
      (contributors plainHost s 130 "RE_1" arec).map PriceFeed.oracle = [oracleAddress 65, oracleAddress 65] ∧
      ¬PublishedByQuorum plainHost (scriptTrace repeatedScript) (s, roundCall) := by
  obtain ⟨s, hs⟩ : ∃ s, Call.play (fun op => (exec plainHost op).toCall) Ledger.empty
      repeatedScript = some s :=
    ⟨_, rfl⟩
  obtain ⟨arec, harec⟩ : ∃ arec, s.inst .asset "RE_1" = some arec := by
    cases hs
    exact ⟨_, rfl⟩
  obtain ⟨s', hs'⟩ : ∃ s', Fallible.Steps (exec plainHost) s roundCall s' := by
    cases hs
    exact ⟨_, Or.inl ⟨_, rfl⟩⟩
  obtain ⟨price, hprice⟩ : ∃ price, publishedBy plainHost (s, roundCall) = some price := by
    cases hs
    exact ⟨_, rfl⟩
  have hquorum : arec.quorum = 2 := by
    cases hs
    cases harec
    rfl
  have horacles : (contributors plainHost s 130 "RE_1" arec).map PriceFeed.oracle =
      [oracleAddress 65, oracleAddress 65] := by
    cases hs
    cases harec
    decide
  refine ⟨s, s', arec, .snoc (Fallible.run_of_play hs) hs', ?_, harec, hquorum,
    Option.isSome_of_mem hprice, horacles,
    fun h => ?_⟩
  · cases hs
    decide
  · have hle := (h "RE_1" arec price rfl harec hprice).quorum
    have hnow : (s, roundCall).2.1.timestamp = 130 := rfl
    rw [hnow, horacles, hquorum] at hle
    exact absurd hle (by decide)

end RwaOracle
