/-
  RwaOracle — how rounds end.

  A round returns a price or an error, unless it panics for want of a median (`run_processConsensus`): then the
  buffer is as it was, and so is the next round.

  * `bounded_of_run`: a buffer has ten feeds at most;
  * `rejections_foldl`: the rejections of a round that is not accepted;
  * `ends_iff`: a round ends as it should when the quorum is not zero, or one of the feeds is fresh and intact.
-/
import AuditTransparency.Oracle.History

namespace RwaOracle

open Soroban

variable {D : Type} {env : Env} {s s' : State D} {a b : Symbol} {o : Address}

/-! ## Buffers -/

/-- Ten feeds at most. -/
def Bounded (s : State D) : Prop := ∀ a, (pendingFeeds s a).length ≤ maxPendingFeeds

theorem length_kept_lt (feeds : List (PriceFeed D)) : (kept feeds).length < maxPendingFeeds := by
  rw [kept]
  split
  · exact Nat.zero_lt_succ 9
  · omega

theorem bounded_step [DecidableEq D] {H : Host D} {c : Env × Op} (h : Fallible.Steps (exec H) s c s')
    (hs : Bounded s) : Bounded s' := by
  rcases step_cases h with ⟨-, heffect⟩ | ⟨-, hrefusal⟩
  · generalize publishedBy H (s, c) = p at heffect
    obtain ⟨env, op⟩ := c
    intro b
    cases heffect with
    | registerOracle => simpa using hs b
    | setOracleStatus => simpa using hs b
    | registerAsset => simpa using hs b
    | @submitPriceFeed o a price confidence observedAt metadata =>
      rw [pendingFeeds_submitted]
      split
      · rw [List.length_append]
        exact length_kept_lt _
      · exact hs b
    | processConsensus =>
      rw [pendingFeeds_published]
      split
      · exact Nat.zero_le _
      · exact hs b
  · obtain ⟨env, op⟩ := c
    cases hrefusal with
    | idle => exact hs
    | rejected =>
      intro b
      rw [pendingFeeds_rejected]
      split
      · exact Nat.zero_le _
      · exact hs b

theorem bounded_of_run [DecidableEq D] {H : Host D} {tr : List (State D × (Env × Op))}
    (h : Run (Fallible.Steps (exec H)) Ledger.empty tr s) : Bounded s :=
  h.invariant (C := fun _ _ => True) (I := Bounded) (fun _ => Nat.zero_le _) (fun _ _ _ _ => bounded_step)
    fun _ _ => trivial

/-! ## Rejections -/

/-- The rejections of an oracle. -/
def rejections (s : State D) (o : Address) : Option ℕ := (s.inst .oracle o).map OracleRecord.totalRejections

/-- The number of the feeds of an oracle. -/
def feedsOf (feeds : List (PriceFeed D)) (o : Address) : ℕ := (feeds.filter fun feed => feed.oracle = o).length

theorem rejections_rejection (feed : PriceFeed D) :
    rejections (rejection s feed) o =
      if feed.oracle = o then (rejections s o).map saturatingSucc else rejections s o := by
  rw [rejection]
  cases horec : s.inst .oracle feed.oracle with
  | none =>
    split_ifs with ho
    · rw [rejections, ← ho, horec]
      rfl
    · rfl
  | some orec =>
    simp only [rejections, Ledger.put_inst, Store.set_same, Function.update_apply]
    by_cases ho : o = feed.oracle
    · rw [if_pos ho, if_pos ho.symm, ho, horec]
      rfl
    · rw [if_neg ho, if_neg (Ne.symm ho)]

theorem feedsOf_cons (feed : PriceFeed D) (feeds : List (PriceFeed D)) :
    feedsOf (feed :: feeds) o = if feed.oracle = o then feedsOf feeds o + 1 else feedsOf feeds o := by
  rw [feedsOf, List.filter_cons]
  simp only [decide_eq_true_eq]
  split_ifs <;> rfl

/-- **Every feed is one rejection** for its oracle, as long as the number fits. -/
theorem rejections_foldl {feeds : List (PriceFeed D)}
    (h : ∀ n, rejections s o = some n → n + feedsOf feeds o < 2 ^ 32) :
    rejections (feeds.foldl rejection s) o = (rejections s o).map (· + feedsOf feeds o) := by
  induction feeds generalizing s with
  | nil =>
    cases hr : rejections s o <;> rw [List.foldl_nil, hr] <;> rfl
  | cons feed feeds ih =>
    rw [feedsOf_cons] at h ⊢
    rw [List.foldl_cons]
    by_cases ho : feed.oracle = o
    · simp only [if_pos ho] at h ⊢
      have hstep : rejections (rejection s feed) o = (rejections s o).map (· + 1) := by
        rw [rejections_rejection, if_pos ho]
        refine Option.map_congr fun n hn => ?_
        have hlt := h n hn
        rw [saturatingSucc]
        omega
      rw [ih, hstep, Option.map_map]
      · congr 1
        funext n
        exact Nat.add_right_comm n 1 _
      · intro n hn
        rw [hstep] at hn
        obtain ⟨k, hk, rfl⟩ := Option.map_eq_some_iff.1 hn
        have hlt := h k hk
        omega
    · simp only [if_neg ho] at h ⊢
      have hstep : rejections (rejection s feed) o = rejections s o := by
        rw [rejections_rejection, if_neg ho]
      rw [ih fun n hn => h n (hstep ▸ hn), hstep]

theorem rejections_rejected (h : ∀ n, rejections s o = some n → n + feedsOf (pendingFeeds s a) o < 2 ^ 32) :
    rejections (rejected s a) o = (rejections s o).map (· + feedsOf (pendingFeeds s a) o) := by
  rw [← rejections_foldl h]
  rw [rejections, rejected, Ledger.put_inst_ne _ (by simp)]
  rfl

/-- A round adds as many rejections as it has feeds, at most. -/
theorem rejections_foldl_le {feeds : List (PriceFeed D)} {k : ℕ}
    (h : rejections (feeds.foldl rejection s) o = some k) :
    ∃ n, rejections s o = some n ∧ k ≤ n + feeds.length := by
  induction feeds generalizing s with
  | nil => exact ⟨k, h, le_rfl⟩
  | cons feed feeds ih =>
    obtain ⟨n, hn, hk⟩ := ih h
    rw [List.length_cons]
    rw [rejections_rejection] at hn
    split_ifs at hn
    · obtain ⟨n', hn', rfl⟩ := Option.map_eq_some_iff.1 hn
      refine ⟨n', hn', hk.trans ?_⟩
      rw [saturatingSucc]
      omega
    · exact ⟨n, hn, by omega⟩

theorem rejections_put_ne {f : OracleDataKey} {k : f.Key} {v : f.Val D} (hf : OracleDataKey.oracle ≠ f) :
    rejections (s.put f k v) o = rejections s o := by
  rw [rejections, Ledger.put_inst_ne s hf, rejections]

theorem rejections_put (record : OracleRecord) (o' : Address) :
    rejections (s.put .oracle o record) o' = if o' = o then some record.totalRejections else rejections s o' := by
  rw [rejections, Ledger.put_inst, Store.set_same, Function.update_apply]
  split <;> rfl

theorem rejections_submitted {orec : OracleRecord} {feed : PriceFeed D} {o' : Address}
    (horec : s.inst .oracle o = some orec) : rejections (submitted s o orec feed) o' = rejections s o' := by
  rw [submitted, rejections_put, rejections_put_ne (by simp)]
  split_ifs with ho
  · rw [ho, rejections, horec, Option.map_some]
  · rfl

theorem rejections_step [DecidableEq D] {H : Host D} {c : Env × Op} (h : Fallible.Steps (exec H) s c s')
    (hs : Bounded s) {bound : ℕ} (hle : ∀ o n, rejections s o = some n → n ≤ bound) :
    ∀ o n, rejections s' o = some n → n ≤ bound + maxPendingFeeds := by
  have hold : ∀ o n, rejections s o = some n → n ≤ bound + maxPendingFeeds := fun o n hn =>
    (hle o n hn).trans (Nat.le_add_right _ _)
  intro o n hn
  rcases step_cases h with ⟨-, heffect⟩ | ⟨-, hrefusal⟩
  · generalize publishedBy H (s, c) = p at heffect
    obtain ⟨env, op⟩ := c
    cases heffect with
    | registerOracle hnew =>
      rw [rejections_put_ne (by simp), rejections_put] at hn
      split_ifs at hn
      · cases hn
        exact Nat.zero_le _
      · exact hold o n hn
    | setOracleStatus hrecord =>
      rw [rejections_put] at hn
      split_ifs at hn with ho
      · refine hold o n ?_
        rw [ho, rejections, hrecord, Option.map_some, ← hn]
      · exact hold o n hn
    | registerAsset hnew =>
      rw [rejections_put_ne (by simp), rejections_put_ne (by simp)] at hn
      exact hold o n hn
    | submitPriceFeed horec hactive harec =>
      rw [rejections_submitted horec] at hn
      exact hold o n hn
    | processConsensus hp =>
      rw [rejections, published_inst (by decide)] at hn
      exact hold o n hn
  · obtain ⟨env, op⟩ := c
    cases hrefusal with
    | idle => exact hold o n hn
    | @rejected a =>
      rw [rejected, rejections_put_ne (by simp)] at hn
      obtain ⟨k, hk, hnk⟩ := rejections_foldl_le hn
      have hbound := hle o k hk
      have hlen := hs a
      omega

/-- The rejections are ten for each call, at most. -/
theorem rejections_le [DecidableEq D] {H : Host D} {tr : List (State D × (Env × Op))}
    (h : Run (Fallible.Steps (exec H)) Ledger.empty tr s) :
    ∀ o n, rejections s o = some n → n ≤ maxPendingFeeds * tr.length := by
  induction h with
  | init => exact nofun
  | snoc hrun hstep ih =>
    rw [List.length_append, List.length_singleton, Nat.mul_succ]
    exact rejections_step hstep (bounded_of_run hrun) ih

/-! ## Rounds -/

theorem recorded_inst {p : CanonicalPrice D} {f : OracleDataKey} (hf : f ≠ .priceHistory) :
    (recorded s a p).inst f = s.inst f := by
  rw [recorded]
  split
  · exact Ledger.put_inst_ne s hf
  · rfl

variable [DecidableEq D] {H : Host D} {arec : AssetRecord}

omit [DecidableEq D] in
/-- An accepted round returns its price, as long as there is a number for it. -/
theorem run_publishPrice {pending : List (PriceFeed D)} {now price confidence count : ℕ}
    (hasset : s.inst .asset a = some arec) (hrounds : (s.inst .totalRounds ()).getD 0 + 1 < 2 ^ 32) :
    let p := canonical H a (priceHistory s a) pending now price confidence count
    (publishPrice H a pending now price confidence count).run env s = .ok (.ok p, published s a arec p) := by
  intro p
  let s₁ := recorded s a p
  let s₂ := s₁.put .latestPrice a p
  let s₃ := s₂.put .asset a { arec with totalUpdates := saturatingSucc arec.totalUpdates }
  have hload : (get .priceHistory a : Fn D (Option (List (CanonicalPrice D)))).run env s =
      .ok (.ok (s.inst .priceHistory a), s) := rfl
  have hlatest : (set .latestPrice a p : Fn D Unit).run env s₁ = .ok (.ok (), s₂) := rfl
  have hasset₂ : s₂.inst .asset a = some arec := by
    rw [Ledger.put_inst_ne _ (by simp), recorded_inst (by simp), hasset]
  have hcount : (Fallible.lift (Call.load (layout D) .asset a >>= fun o => Call.ifSome o fun arec =>
      Call.store (layout D) .asset a { arec with totalUpdates := saturatingSucc arec.totalUpdates }) :
        Fn D Unit).run env s₂ = .ok (.ok (), s₃) := by
    refine Fallible.run_lift_ok ?_
    rw [Call.run_bind_ok env s₂ (Call.run_load env s₂ .asset a), hasset₂]
    rfl
  have hrounds₃ : s₃.inst .totalRounds () = s.inst .totalRounds () := by
    rw [Ledger.put_inst_ne _ (by simp), Ledger.put_inst_ne _ (by simp), recorded_inst (by simp)]
  have hloadRounds : (get .totalRounds () : Fn D (Option ℕ)).run env s₃ =
      .ok (.ok (s.inst .totalRounds ()), s₃) := by
    rw [← hrounds₃]
    rfl
  have hadd : (Fallible.lift (Call.addChecked 32 ((s.inst .totalRounds ()).getD 0) 1) : Fn D ℕ).run env s₃ =
      .ok (.ok ((s.inst .totalRounds ()).getD 0 + 1), s₃) :=
    Fallible.run_lift_ok (Call.run_addChecked env s₃ hrounds)
  have htail : (do
      set .latestPrice a p
      .lift do Call.ifSome (← Call.load (layout D) .asset a) fun arec =>
        Call.store (layout D) .asset a { arec with totalUpdates := saturatingSucc arec.totalUpdates }
      set .totalRounds () (← .lift (Call.addChecked 32 ((← get .totalRounds ()).getD 0) 1))
      set .pendingFeeds a []
      return p : Fn D (CanonicalPrice D)).run env s₁ = .ok (.ok p, published s a arec p) :=
    (Fallible.run_bind_ok hlatest).trans ((Fallible.run_bind_ok hcount).trans
      ((Fallible.run_bind_ok hloadRounds).trans ((Fallible.run_bind_ok hadd).trans rfl)))
  by_cases hlen : (priceHistory s a).length < maxPriceHistory
  · have hset : (set .priceHistory a (priceHistory s a ++ [p]) : Fn D Unit).run env s = .ok (.ok (), s₁) := by
      simp only [s₁, recorded, if_pos hlen]
      rfl
    exact (Fallible.run_bind_ok hload).trans
      ((congrArg (fun m : Fn D _ => m.run env s) (if_pos hlen)).trans ((Fallible.run_bind_ok hset).trans htail))
  · have hsame : s₁ = s := if_neg hlen
    rw [hsame] at htail
    exact (Fallible.run_bind_ok hload).trans
      ((congrArg (fun m : Fn D _ => m.run env s) (if_neg hlen)).trans htail)

variable (env H) in
/-- **What a round does**, by what the consensus is. -/
theorem run_processConsensus (hasset : s.inst .asset a = some arec) (hne : pendingFeeds s a ≠ []) :
    (processConsensus H a).run env s =
      match runConsensus H (roundFeeds s a) ((roundFeeds s a).map (reputationOf s)) env.timestamp
        (arec.window (stalenessWindow s)) arec.quorum with
      | none => .error .unwrap
      | some (result, price, confidence, count) =>
        if result ≠ .accepted then .ok (.error result.error, rejected s a)
        else (publishPrice H a (pendingFeeds s a) env.timestamp price confidence count).run env s := by
  have hget : (getAsset a : Fn D AssetRecord).run env s = .ok (.ok arec, s) := by
    rw [getAsset, Fallible.run_bind_ok rfl, hasset]
    rfl
  have hempty : (Fallible.failIf (pendingFeeds s a).isEmpty .noFeedsAvailable : Fn D Unit).run env s =
      .ok (.ok (), s) := by
    rw [Fallible.failIf, if_neg (by simpa using hne)]
    rfl
  have hreps : (Fallible.lift ((pendingFeeds s a).foldlM pushReputation []) : Fn D (List ℕ)).run env s =
      .ok (.ok ((pendingFeeds s a).map (reputationOf s)), s) :=
    Fallible.run_lift_ok run_pushReputation
  have hload : (get .pendingFeeds a : Fn D (Option (List (PriceFeed D)))).run env s =
      .ok (.ok (s.inst .pendingFeeds a), s) := rfl
  have htime : (timestamp : Fn D ℕ).run env s = .ok (.ok env.timestamp, s) := rfl
  have hwindow : (getStalenessWindow : Fn D ℕ).run env s = .ok (.ok (stalenessWindow s), s) := rfl
  refine (Fallible.run_bind_ok hget).trans ((Fallible.run_bind_ok hload).trans
    ((Fallible.run_bind_ok hempty).trans ((Fallible.run_bind_ok hreps).trans
      ((Fallible.run_bind_ok htime).trans ((Fallible.run_bind_ok hwindow).trans ?_)))))
  rw [← List.map_take]
  cases hconsensus : runConsensus H (roundFeeds s a) ((roundFeeds s a).map (reputationOf s)) env.timestamp
      (arec.window (stalenessWindow s)) arec.quorum with
  | none =>
    have hrun : (Fallible.lift (Call.unwrap (runConsensus H (roundFeeds s a)
      ((roundFeeds s a).map (reputationOf s)) env.timestamp (arec.window (stalenessWindow s)) arec.quorum)) :
        Fn D _).run env s = .error .unwrap := by
      rw [hconsensus]
      rfl
    exact Fallible.run_bind_trap hrun
  | some outcome =>
    obtain ⟨result, price, confidence, count⟩ := outcome
    have hrun : (Fallible.lift (Call.unwrap (runConsensus H (roundFeeds s a)
      ((roundFeeds s a).map (reputationOf s)) env.timestamp (arec.window (stalenessWindow s)) arec.quorum)) :
        Fn D _).run env s = .ok (.ok (result, price, confidence, count), s) := by
      rw [hconsensus]
      rfl
    refine (Fallible.run_bind_ok hrun).trans ?_
    dsimp only
    split_ifs
    · exact (Fallible.run_bind_ok (Fallible.run_lift_ok run_markRejection)).trans rfl
    · rfl

/-- The entries of an asset that other rounds do not touch. -/
structure SameAsset (s s' : State D) (b : Symbol) : Prop where
  pending : pendingFeeds s' b = pendingFeeds s b
  latest : latestPrice s' b = latestPrice s b
  history : priceHistory s' b = priceHistory s b

/-- A round that ends as it should: with a result, and an empty buffer.  After an error the prices are as they
were, and every oracle has one rejection for each of its feeds. -/
def EndsCleanly (H : Host D) (env : Env) (s : State D) (a : Symbol) : Prop :=
  ∃ r s', (processConsensus H a).run env s = .ok (r, s') ∧ pendingFeeds s' a = [] ∧
    (∀ b, b ≠ a → SameAsset s s' b) ∧
    ∀ e, r = .error e → latestPrice s' a = latestPrice s a ∧ priceHistory s' a = priceHistory s a ∧
      (s'.inst .asset a).map AssetRecord.totalUpdates = (s.inst .asset a).map AssetRecord.totalUpdates ∧
      s'.inst .totalRounds () = s.inst .totalRounds () ∧
      ∀ o, rejections s' o = (rejections s o).map (· + feedsOf (pendingFeeds s a) o)

omit [DecidableEq D] in
theorem sameAsset_rejected (hb : b ≠ a) : SameAsset s (rejected s a) b where
  pending := by rw [pendingFeeds_rejected, if_neg hb]
  latest := by rw [latestPrice, rejected_inst (by decide), latestPrice]
  history := by rw [priceHistory, rejected_inst (by decide), priceHistory]

omit [DecidableEq D] in
theorem sameAsset_published {p : CanonicalPrice D} (hb : b ≠ a) : SameAsset s (published s a arec p) b where
  pending := by rw [pendingFeeds_published, if_neg hb]
  latest := by rw [latestPrice_published, if_neg hb]
  history := by rw [priceHistory_published, if_neg fun h => hb h.1]

variable (H) in
/-- No round is without a result, but one of the quorum zero without a feed that is fresh and intact. -/
theorem runConsensus_eq_none_iff (feeds : List (PriceFeed D)) (rep : PriceFeed D → ℕ) (now window quorum : ℕ) :
    runConsensus H feeds (feeds.map rep) now window quorum = none ↔
      ¬(quorum = 0 → ∃ feed ∈ feeds, feed.valid H now window = true) := by
  rw [runConsensus_eq]
  have hvalid : feeds.filter (PriceFeed.valid H now window) = [] ↔
      ¬∃ feed ∈ feeds, feed.valid H now window = true := by
    simp [List.filter_eq_nil_iff]
  generalize feeds.filter (PriceFeed.valid H now window) = valid at hvalid
  dsimp only
  rw [Classical.not_imp, ← hvalid]
  split_ifs with hlen hempty
  · refine iff_of_false not_false fun h => ?_
    omega
  · refine iff_of_true rfl ?_
    rw [List.isEmpty_iff] at hempty
    rw [hempty] at hlen ⊢
    exact ⟨by simpa using hlen, rfl⟩
  · rw [List.isEmpty_iff] at hempty
    exact iff_of_false not_false fun h => hempty h.2

theorem endsCleanly_rejected {result : ConsensusResult}
    (hrejections : ∀ o n, rejections s o = some n → n + feedsOf (pendingFeeds s a) o < 2 ^ 32)
    (hrun : (processConsensus H a).run env s = .ok (.error result.error, rejected s a)) : EndsCleanly H env s a := by
  refine ⟨_, _, hrun, ?_, fun b hb => sameAsset_rejected hb, fun e _ => ⟨?_, ?_, ?_, ?_, fun o => ?_⟩⟩
  · rw [pendingFeeds_rejected, if_pos rfl]
  · rw [latestPrice, rejected_inst (by decide), latestPrice]
  · rw [priceHistory, rejected_inst (by decide), priceHistory]
  · rw [rejected_inst (by decide)]
  · rw [rejected_inst (by decide)]
  · exact rejections_rejected (hrejections o)

theorem endsCleanly_published {p : CanonicalPrice D}
    (hrun : (processConsensus H a).run env s = .ok (.ok p, published s a arec p)) : EndsCleanly H env s a := by
  refine ⟨_, _, hrun, ?_, fun b hb => sameAsset_published hb, nofun⟩
  rw [pendingFeeds_published, if_pos rfl]

/-- **How rounds end**: cleanly, unless the quorum is zero and no feed of the buffer is fresh and intact. -/
theorem ends_iff {tr : List (State D × (Env × Op))} (h : Run (Fallible.Steps (exec H)) Ledger.empty tr s)
    (hasset : s.inst .asset a = some arec) (hne : pendingFeeds s a ≠ [])
    (hrounds : (s.inst .totalRounds ()).getD 0 + 1 < 2 ^ 32)
    (hrejections : ∀ o n, rejections s o = some n → n + feedsOf (pendingFeeds s a) o < 2 ^ 32) :
    EndsCleanly H env s a ↔ (arec.quorum = 0 → ∃ feed ∈ pendingFeeds s a,
      feed.valid H env.timestamp (arec.window (stalenessWindow s)) = true) := by
  have hround : roundFeeds s a = pendingFeeds s a := List.take_of_length_le (bounded_of_run h a)
  have hrun := run_processConsensus env H hasset hne
  have hnone := runConsensus_eq_none_iff H (roundFeeds s a) (reputationOf s) env.timestamp
    (arec.window (stalenessWindow s)) arec.quorum
  rw [hround] at hrun hnone
  cases hconsensus : runConsensus H (pendingFeeds s a) ((pendingFeeds s a).map (reputationOf s)) env.timestamp
      (arec.window (stalenessWindow s)) arec.quorum with
  | none =>
    refine iff_of_false ?_ (hnone.1 hconsensus)
    rintro ⟨r, s', hr, -⟩
    rw [hrun, hconsensus] at hr
    cases hr
  | some outcome =>
    obtain ⟨result, price, confidence, count⟩ := outcome
    have hholds : arec.quorum = 0 → ∃ feed ∈ pendingFeeds s a,
        feed.valid H env.timestamp (arec.window (stalenessWindow s)) = true := by
      by_contra hnot
      rw [hnone.2 hnot] at hconsensus
      cases hconsensus
    refine iff_of_true ?_ hholds
    rw [hconsensus] at hrun
    dsimp only at hrun
    split_ifs at hrun
    · exact endsCleanly_rejected hrejections hrun
    · exact endsCleanly_published (hrun.trans (run_publishPrice hasset hrounds))

/-- An asset with the quorum of zero, and a feed for it. -/
def zeroScript : List (Env × Op) :=
  [callAt 100 (.registerOracle (oracleAddress 65) [] [] 80),
    callAt 100 (.registerAsset "RE_1" .realEstate [] (oracleAddress 67) (some 0) none),
    submission 110 65 1000]

theorem ends_repeatedScript : ∃ s arec, Run (Fallible.Steps (exec plainHost)) Ledger.empty
    (scriptTrace repeatedScript) s ∧ s.inst .asset "RE_1" = some arec ∧
    (EndsCleanly plainHost roundCall.1 s "RE_1" ↔ (arec.quorum = 0 → ∃ feed ∈ pendingFeeds s "RE_1",
      feed.valid plainHost 130 (arec.window (stalenessWindow s)) = true)) := by
  obtain ⟨s, hs⟩ : ∃ s, Call.play (fun op => (exec plainHost op).toCall) Ledger.empty repeatedScript = some s :=
    ⟨_, rfl⟩
  have hrun : Run (Fallible.Steps (exec plainHost)) Ledger.empty (scriptTrace repeatedScript) s :=
    Fallible.run_of_play hs
  obtain ⟨arec, harec⟩ : ∃ arec, s.inst .asset "RE_1" = some arec := by
    cases hs
    exact ⟨_, rfl⟩
  have hlen : (pendingFeeds s "RE_1").length = 2 := by
    cases hs
    rfl
  have hrounds : (s.inst .totalRounds ()).getD 0 + 1 < 2 ^ 32 := by
    cases hs
    decide
  refine ⟨s, arec, hrun, harec, ends_iff hrun harec ?_ hrounds fun o n hn => ?_⟩
  · exact List.ne_nil_of_length_pos (by omega)
  · have hle := rejections_le hrun o n hn
    have hcount : feedsOf (pendingFeeds s "RE_1") o ≤ 2 := hlen ▸ List.length_filter_le ..
    have htrace : (scriptTrace repeatedScript).length = 5 := rfl
    rw [htrace, maxPendingFeeds] at hle
    omega

/-- **A round of the quorum zero panics** when its only feed is stale. -/
theorem round_panics : ∃ s arec, Run (Fallible.Steps (exec plainHost)) Ledger.empty
    (scriptTrace zeroScript) s ∧ s.inst .asset "RE_1" = some arec ∧ (pendingFeeds s "RE_1").length = 1 ∧
    (s.inst .totalRounds ()).getD 0 = 0 ∧
    ¬EndsCleanly plainHost (callAt 3711 (.processConsensus "RE_1")).1 s "RE_1" := by
  obtain ⟨s, hs⟩ : ∃ s, Call.play (fun op => (exec plainHost op).toCall) Ledger.empty zeroScript = some s :=
    ⟨_, rfl⟩
  obtain ⟨arec, harec⟩ : ∃ arec, s.inst .asset "RE_1" = some arec := by
    cases hs
    exact ⟨_, rfl⟩
  refine ⟨s, arec, Fallible.run_of_play hs, harec, ?_, ?_, ?_⟩
  · cases hs
    rfl
  · cases hs
    rfl
  · rintro ⟨r, s', hr, -⟩
    cases hs
    cases hr

end RwaOracle
