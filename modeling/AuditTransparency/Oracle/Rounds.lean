/-
  RwaOracle — what the calls do.

  Every function has its postcondition: the ledger after a call that returns, and after one
  that returns an error.  Only a round that is not accepted returns an error after it has
  written something (`rejected`).
-/
import AuditTransparency.Oracle.Consensus

namespace RwaOracle

open Soroban
open Soroban.Fallible (Post)

variable {D : Type} {env : Env} {s : State D} {a : Symbol} {o : Address}

/-! ## What the calls leave -/

/-- What is stored of an oracle that is registered. -/
def newOracle (now : ℕ) (address : Address) (name : Bytes) (supportedClasses : List UInt8)
    (reputationScore : ℕ) : OracleRecord where
  address := address
  name := name
  supportedClasses := supportedClasses
  reputationScore := reputationScore
  registeredAt := now
  lastSubmissionAt := 0
  totalSubmissions := 0
  totalRejections := 0
  status := .active

/-- The window that holds for the module. -/
def stalenessWindow (s : State D) : ℕ := (s.inst .stalenessWindow ()).getD defaultStalenessWindowSecs

/-- The feeds that stay in the buffer when one more comes in. -/
def kept (feeds : List (PriceFeed D)) : List (PriceFeed D) :=
    if feeds.length ≥ maxPendingFeeds then [] else feeds

theorem kept_sublist {feeds : List (PriceFeed D)} : (kept feeds).Sublist feeds := by
  rw [kept]
  split
  · exact List.nil_sublist _
  · exact List.Sublist.refl _

/-- The ledger with one rejection more for the oracle of a feed. -/
def rejection (s : State D) (feed : PriceFeed D) : State D :=
  match s.inst .oracle feed.oracle with
  | some orec => s.put .oracle feed.oracle { orec with totalRejections := saturatingSucc orec.totalRejections }
  | none => s

/-- The ledger after a round that was not accepted. -/
def rejected (s : State D) (a : Symbol) : State D :=
  ((pendingFeeds s a).foldl rejection s).put .pendingFeeds a []

/-- The history with the price, unless it is full. -/
def recorded (s : State D) (a : Symbol) (p : CanonicalPrice D) : State D :=
  if (priceHistory s a).length < maxPriceHistory then s.put .priceHistory a (priceHistory s a ++ [p]) else s

/-- The ledger after a price was published. -/
def published (s : State D) (a : Symbol) (arec : AssetRecord) (p : CanonicalPrice D) : State D :=
  ((((recorded s a p).put .latestPrice a p).put .asset a
    { arec with totalUpdates := saturatingSucc arec.totalUpdates }).put .totalRounds ()
      ((s.inst .totalRounds ()).getD 0 + 1)).put .pendingFeeds a []

/-! ## Postconditions -/

theorem post_timestamp {Q : ℕ → State D → Prop} {R : OracleError → State D → Prop} :
    Post timestamp Q R env s ↔ Q env.timestamp s := by
  simp [timestamp]

theorem post_getStalenessWindow {Q : ℕ → State D → Prop} {R : OracleError → State D → Prop} :
    Post getStalenessWindow Q R env s ↔ Q (stalenessWindow s) s := by
  simp [getStalenessWindow, stalenessWindow]

theorem post_registerOracle {name : Bytes} {supportedClasses : List UInt8} {reputationScore : ℕ} :
    Post (registerOracle o name supportedClasses reputationScore)
      (fun _ s' => s.inst .oracle o = none ∧ s' =
        (s.put .oracle o (newOracle env.timestamp o name supportedClasses reputationScore)).put
          .oracleCount ()
          ((s.inst .oracleCount ()).getD 0 + 1))
      (fun _ s' => s' = s) env s := by
  simp [registerOracle, post_timestamp, newOracle]
  exact fun _ _ hnew _ => hnew

theorem post_setOracleStatus {status : OracleStatus} :
    Post (setOracleStatus o status)
      (fun _ s' => ∃ record, s.inst .oracle o = some record ∧ s' = s.put .oracle o { record with status })
      (fun _ s' => s' = s) env s := by
  simp [setOracleStatus]
  exact fun record hrecord => ⟨record, hrecord, rfl⟩

/-- What is stored of an asset that is registered. -/
def newAsset (s : State D) (now : ℕ) (a : Symbol) (assetClass : AssetClass) (name : Bytes) (issuer : Address)
    (quorum stalenessWindowOverride : Option ℕ) : AssetRecord where
  assetId := a
  assetClass := assetClass
  name := name
  issuer := issuer
  quorum := quorum.getD ((s.inst .globalQuorum ()).getD defaultQuorum)
  stalenessWindowOverride := stalenessWindowOverride.getD 0
  active := true
  registeredAt := now
  totalUpdates := 0

theorem post_registerAsset {assetClass : AssetClass} {name : Bytes} {issuer : Address}
    {quorum stalenessWindowOverride : Option ℕ} :
    Post (registerAsset a assetClass name issuer quorum stalenessWindowOverride)
      (fun _ s' => s.inst .asset a = none ∧ s' =
        (s.put .asset a (newAsset s env.timestamp a assetClass name issuer quorum
          stalenessWindowOverride)).put
          .assetCount () ((s.inst .assetCount ()).getD 0 + 1))
      (fun _ s' => s' = s) env s := by
  simp [registerAsset, getGlobalQuorum, post_timestamp, newAsset]
  exact fun hnew _ => hnew

/-- A feed that passes the checks. -/
def newFeed (H : Host D) (now : ℕ) (o : Address) (a : Symbol) (price confidence observedAt : ℕ)
    (metadata : Bytes) : PriceFeed D where
  assetId := a
  price := price
  confidence := confidence
  observedAt := observedAt
  submittedAt := now
  oracle := o
  metadata := metadata
  integrityHash := computeFeedHash H a price confidence observedAt

/-- The ledger after a feed was accepted. -/
def submitted (s : State D) (o : Address) (orec : OracleRecord) (feed : PriceFeed D) : State D :=
  (s.put .pendingFeeds feed.assetId (kept (pendingFeeds s feed.assetId) ++ [feed])).put .oracle o
    { orec with totalSubmissions := orec.totalSubmissions + 1, lastSubmissionAt := feed.submittedAt }

theorem post_submitPriceFeed {H : Host D} {price confidence observedAt : ℕ} {metadata : Bytes} :
    Post (submitPriceFeed H o a price confidence observedAt metadata)
      (fun feed s' => ∃ orec arec, s.inst .oracle o = some orec ∧ orec.status = .active ∧
        s.inst .asset a = some arec ∧ feed = newFeed H env.timestamp o a price confidence
          observedAt metadata ∧
        s' = submitted s o orec feed)
      (fun _ s' => s' = s) env s := by
  simp [submitPriceFeed, getOracle, getAsset, post_timestamp, post_getStalenessWindow]
  intro orec horec hactive arec harec _ _ _ _ _ _
  refine ⟨fun record hrecord _ => ?_, fun hnone => ?_⟩
  · obtain rfl : record = orec := Option.some.inj (hrecord.symm.trans horec)
    exact ⟨record, hrecord, by simpa [OracleRecord.isActive] using hactive, ⟨arec, harec⟩, rfl, rfl⟩
  · rw [horec] at hnone
    cases hnone

/-! ## Rounds -/

/-- The reputation that counts for a feed. -/
def reputationOf (s : State D) (feed : PriceFeed D) : ℕ := reputation (s.inst .oracle feed.oracle)

theorem run_pushReputation {feeds : List (PriceFeed D)} {reps : List ℕ} :
    (feeds.foldlM pushReputation reps).run env s = .ok (reps ++ feeds.map (reputationOf s), s) := by
  induction feeds generalizing reps with
  | nil => simp
  | cons feed feeds ih =>
    have hstep : (pushReputation reps feed).run env s = .ok (reps ++ [reputationOf s feed], s) := rfl
    rw [List.foldlM_cons, Call.run_bind_ok env s hstep, ih, List.map_cons, List.append_assoc]
    rfl

theorem run_markRejection {feeds : List (PriceFeed D)} :
    (feeds.foldlM (fun _ feed => markRejection feed) ()).run env s = .ok ((), feeds.foldl rejection s) := by
  induction feeds generalizing s with
  | nil => rfl
  | cons feed feeds ih =>
    have hstep : (markRejection feed).run env s = .ok ((), rejection s feed) := by
      rw [markRejection, rejection, Call.run_bind_ok env s (Call.run_load env s .oracle feed.oracle)]
      cases s.inst .oracle feed.oracle <;> rfl
    rw [List.foldlM_cons, Call.run_bind_ok env s hstep, ih]
    rfl

theorem post_publishPrice {H : Host D} {arec : AssetRecord} {pending : List (PriceFeed D)}
    {now price confidence count : ℕ} (hasset : s.inst .asset a = some arec) :
    Post (publishPrice H a pending now price confidence count)
      (fun p s' => p = canonical H a (priceHistory s a) pending now price confidence count ∧
        s' = published s a arec p)
      (fun _ _ => False) env s := by
  simp [publishPrice, hasset]
  refine ⟨fun hlen _ => ⟨rfl, ?_⟩, fun hlen _ => ⟨rfl, ?_⟩⟩
  · have hlen : (priceHistory s a).length < maxPriceHistory := hlen
    rw [published, recorded, if_pos hlen]
    rfl
  · have hlen : ¬(priceHistory s a).length < maxPriceHistory := not_lt.2 hlen
    rw [published, recorded, if_neg hlen]

/-- The feeds that a round looks at. -/
def roundFeeds (s : State D) (a : Symbol) : List (PriceFeed D) := (pendingFeeds s a).take 10

/-- A round that is accepted. -/
structure Publishes [DecidableEq D] (H : Host D) (s : State D) (now : ℕ) (a : Symbol) (arec : AssetRecord)
    (p : CanonicalPrice D) : Prop where
  asset : s.inst .asset a = some arec
  accepted : Accepted H (roundFeeds s a) now (arec.window (stalenessWindow s)) arec.quorum p.oracleCount
  price_eq : ∃ price confidence count,
    p = canonical H a (priceHistory s a) (pendingFeeds s a) now price confidence count

theorem post_processConsensus [DecidableEq D] {H : Host D} :
    Post (processConsensus H a)
      (fun p s' => ∃ arec, Publishes H s env.timestamp a arec p ∧ s' = published s a arec p)
      (fun _ s' => s' = s ∨ (∃ arec, s.inst .asset a = some arec) ∧ s' = rejected s a) env s := by
  simp [processConsensus, getAsset, post_timestamp, post_getStalenessWindow]
  intro arec harec _
  rw [Call.post_of_run run_pushReputation, List.nil_append, ← List.map_take]
  intro result price confidence count hrun
  constructor
  · rintro rfl
    refine (post_publishPrice harec).mono ?_ fun _ _ h => h.elim
    rintro p s' ⟨rfl, rfl⟩
    exact ⟨arec, ⟨harec, accepted_of_runConsensus hrun, price, confidence, count, rfl⟩, rfl⟩
  · intro _
    rw [Call.post_of_run run_markRejection]
    exact Or.inr ⟨⟨arec, harec⟩, rfl⟩

/-! ## Calls -/

/-- What a call that returns `Ok` has done. -/
inductive Effect [DecidableEq D] (H : Host D) (env : Env) (s : State D) :
    Op → Option (CanonicalPrice D) → State D → Prop
  | registerOracle {o : Address} {name : Bytes} {supportedClasses : List UInt8} {reputationScore : ℕ}
      (hnew : s.inst .oracle o = none) :
      Effect H env s (.registerOracle o name supportedClasses reputationScore) none
        ((s.put .oracle o (newOracle env.timestamp o name supportedClasses reputationScore)).put
          .oracleCount ()
          ((s.inst .oracleCount ()).getD 0 + 1))
  | setOracleStatus {o : Address} {status : OracleStatus} {record : OracleRecord}
      (hrecord : s.inst .oracle o = some record) :
      Effect H env s (.setOracleStatus o status) none (s.put .oracle o { record with status })
  | registerAsset {a : Symbol} {assetClass : AssetClass} {name : Bytes} {issuer : Address}
      {quorum stalenessWindowOverride : Option ℕ} (hnew : s.inst .asset a = none) :
      Effect H env s (.registerAsset a assetClass name issuer quorum stalenessWindowOverride) none
        ((s.put .asset a (newAsset s env.timestamp a assetClass name issuer quorum
          stalenessWindowOverride)).put
          .assetCount () ((s.inst .assetCount ()).getD 0 + 1))
  | submitPriceFeed {o : Address} {a : Symbol} {price confidence observedAt : ℕ} {metadata : Bytes}
      {orec : OracleRecord} {arec : AssetRecord}
      (horec : s.inst .oracle o = some orec) (hactive : orec.status = .active)
      (harec : s.inst .asset a = some arec) :
      Effect H env s (.submitPriceFeed o a price confidence observedAt metadata) none
        (submitted s o orec (newFeed H env.timestamp o a price confidence observedAt metadata))
  | processConsensus {a : Symbol} {arec : AssetRecord} {p : CanonicalPrice D}
      (h : Publishes H s env.timestamp a arec p) :
      Effect H env s (.processConsensus a) (some p) (published s a arec p)

/-- What a call that returns an error may have done. -/
inductive Refusal (s : State D) : Op → State D → Prop
  | idle {op : Op} : Refusal s op s
  | rejected {a : Symbol} {arec : AssetRecord} (harec : s.inst .asset a = some arec) :
      Refusal s (.processConsensus a) (rejected s a)

theorem post_exec [DecidableEq D] {H : Host D} {op : Op} :
    Post (exec H op) (Effect H env s op) (fun _ => Refusal s op) env s := by
  cases op with
  | registerOracle o name supportedClasses reputationScore =>
    simp only [exec, Fallible.post_bind, Fallible.post_pure]
    refine post_registerOracle.mono ?_ ?_
    · rintro _ s' ⟨hnew, rfl⟩
      exact .registerOracle hnew
    · rintro _ s' rfl
      exact .idle
  | setOracleStatus o status =>
    simp only [exec, Fallible.post_bind, Fallible.post_pure]
    refine post_setOracleStatus.mono ?_ ?_
    · rintro _ s' ⟨record, hrecord, rfl⟩
      exact .setOracleStatus hrecord
    · rintro _ s' rfl
      exact .idle
  | registerAsset a assetClass name issuer quorum stalenessWindowOverride =>
    simp only [exec, Fallible.post_bind, Fallible.post_pure]
    refine post_registerAsset.mono ?_ ?_
    · rintro _ s' ⟨hnew, rfl⟩
      exact .registerAsset hnew
    · rintro _ s' rfl
      exact .idle
  | submitPriceFeed o a price confidence observedAt metadata =>
    simp only [exec, Fallible.post_bind, Fallible.post_pure]
    refine post_submitPriceFeed.mono ?_ ?_
    · rintro _ s' ⟨orec, arec, horec, hactive, harec, rfl, rfl⟩
      exact .submitPriceFeed horec hactive harec
    · rintro _ s' rfl
      exact .idle
  | processConsensus a =>
    simp only [exec, Fallible.post_bind, Fallible.post_pure]
    refine post_processConsensus.mono ?_ ?_
    · rintro p s' ⟨arec, h, rfl⟩
      exact .processConsensus h
    · rintro _ s' (rfl | ⟨⟨arec, harec⟩, rfl⟩)
      · exact .idle
      · exact .rejected harec

/-- The price that a call publishes. -/
def publishedBy [DecidableEq D] (H : Host D) (c : State D × (Env × Op)) : Option (CanonicalPrice D) :=
  match (exec H c.2.2).run c.2.1 c.1 with
  | .ok (.ok p, _) => p
  | _ => none

/-- The call returns `Ok`. -/
def returnsOk [DecidableEq D] (H : Host D) (s : State D) (c : Env × Op) : Bool :=
  match (exec H c.2).run c.1 s with
  | .ok (.ok _, _) => true
  | _ => false

/-- **What a step does**, and what it publishes. -/
theorem step_cases [DecidableEq D] {H : Host D} {s' : State D} {c : Env × Op}
    (h : Fallible.Steps (exec H) s c s') :
    returnsOk H s c = true ∧ Effect H c.1 s c.2 (publishedBy H (s, c)) s' ∨
      publishedBy H (s, c) = none ∧ Refusal s c.2 s' := by
  rcases h with ⟨e | p, hr⟩ | ⟨⟨e, s₁, hr⟩, rfl⟩
  · refine Or.inr ⟨?_, post_exec.of_error hr⟩
    simp only [publishedBy, hr]
  · have heffect := post_exec.of_ok hr
    refine Or.inl ⟨?_, ?_⟩
    · simp only [returnsOk, hr]
    · simp only [publishedBy, hr]
      exact heffect
  · refine Or.inr ⟨?_, .idle⟩
    simp only [publishedBy, hr]

/-- A price is published by a round that was accepted. -/
theorem publishes_of_publishedBy [DecidableEq D] {H : Host D} {c : State D × (Env × Op)}
    {p : CanonicalPrice D}
    (h : publishedBy H c = some p) :
    ∃ a arec, c.2.2 = .processConsensus a ∧ Publishes H c.1 c.2.1.timestamp a arec p := by
  rw [publishedBy] at h
  split at h
  · next p' s' hr =>
    subst h
    have heffect := post_exec.of_ok hr
    generalize hop : c.2.2 = op at heffect
    cases heffect with
    | processConsensus hp => exact ⟨_, _, rfl, hp⟩
  · cases h

/-! ## Parts of a ledger -/

/-- The status of an oracle. -/
def status (s : State D) (o : Address) : Option OracleStatus := (s.inst .oracle o).map OracleRecord.status

section
variable {b : Symbol}

theorem status_put (record : OracleRecord) (o' : Address) :
    status (s.put .oracle o record) o' = if o' = o then some record.status else status s o' := by
  rw [status, Ledger.put_inst, Store.set_same, Function.update_apply]
  split <;> rfl

@[simp] theorem status_put_ne {f : OracleDataKey} {k : f.Key} {v : f.Val D} (hf : OracleDataKey.oracle ≠ f) :
    status (s.put f k v) o = status s o := by
  rw [status, Ledger.put_inst_ne s hf]
  rfl

theorem pendingFeeds_put (feeds : List (PriceFeed D)) :
    pendingFeeds (s.put .pendingFeeds a feeds) b = if b = a then feeds else pendingFeeds s b := by
  rw [pendingFeeds, Ledger.put_inst, Store.set_same, Function.update_apply]
  split <;> rfl

@[simp] theorem pendingFeeds_put_ne {f : OracleDataKey} {k : f.Key} {v : f.Val D}
    (hf : OracleDataKey.pendingFeeds ≠ f) : pendingFeeds (s.put f k v) a = pendingFeeds s a := by
  rw [pendingFeeds, Ledger.put_inst_ne s hf]
  rfl

/-- The window is not written by any of the calls. -/
theorem stalenessWindow_congr {s' : State D} (h : s'.inst .stalenessWindow = s.inst .stalenessWindow) :
    stalenessWindow s' = stalenessWindow s := by
  rw [stalenessWindow, h]
  rfl

/-! What the ledger is after a feed of an oracle that is registered. -/

theorem status_submitted {orec : OracleRecord} {feed : PriceFeed D} {o' : Address}
    (horec : s.inst .oracle o = some orec) : status (submitted s o orec feed) o' = status s o' := by
  rw [submitted, status_put, status_put_ne (by simp)]
  split_ifs with ho
  · rw [ho, status, horec]
    rfl
  · rfl

theorem pendingFeeds_submitted {orec : OracleRecord} {feed : PriceFeed D} :
    pendingFeeds (submitted s o orec feed) b =
      if b = feed.assetId then kept (pendingFeeds s feed.assetId) ++ [feed] else pendingFeeds s b := by
  rw [submitted, pendingFeeds_put_ne (by simp), pendingFeeds_put]

theorem submitted_inst {orec : OracleRecord} {feed : PriceFeed D} {f : OracleDataKey}
    (hf : f ∉ [OracleDataKey.pendingFeeds, .oracle]) : (submitted s o orec feed).inst f = s.inst f := by
  simp only [List.mem_cons, List.not_mem_nil, or_false, not_or] at hf
  rw [submitted, Ledger.put_inst_ne _ hf.2, Ledger.put_inst_ne _ hf.1]

/-! What the ledger is after a round. -/

theorem pendingFeeds_recorded {p : CanonicalPrice D} :
    pendingFeeds (recorded s a p) b = pendingFeeds s b := by
  rw [recorded]
  split
  · exact pendingFeeds_put_ne (by decide)
  · rfl

theorem pendingFeeds_published {arec : AssetRecord} {p : CanonicalPrice D} :
    pendingFeeds (published s a arec p) b = if b = a then [] else pendingFeeds s b := by
  rw [published, pendingFeeds_put]
  simp [pendingFeeds_recorded]

/-- What no part of publishing touches. -/
theorem published_inst {arec : AssetRecord} {p : CanonicalPrice D} {f : OracleDataKey}
    (hf : f ∉ [OracleDataKey.priceHistory, .latestPrice, .asset, .totalRounds, .pendingFeeds]) :
    (published s a arec p).inst f = s.inst f := by
  simp only [List.mem_cons, List.not_mem_nil, or_false, not_or] at hf
  obtain ⟨h₁, h₂, h₃, h₄, h₅⟩ := hf
  rw [published, Ledger.put_inst_ne _ h₅, Ledger.put_inst_ne _ h₄, Ledger.put_inst_ne _ h₃,
    Ledger.put_inst_ne _ h₂,
    recorded]
  split
  · exact Ledger.put_inst_ne s h₁
  · rfl

theorem published_asset {arec : AssetRecord} {p : CanonicalPrice D} : (published s a arec p).inst .asset b =
    if b = a then some { arec with totalUpdates := saturatingSucc arec.totalUpdates } else s.inst
      .asset b := by
  have hrecorded : (recorded s a p).inst .asset = s.inst .asset := by
    rw [recorded]
    split
    · exact Ledger.put_inst_ne s (by simp)
    · rfl
  rw [published, Ledger.put_inst_ne _ (by simp), Ledger.put_inst_ne _ (by simp), Ledger.put_inst,
    Store.set_same,
    Function.update_apply, Ledger.put_inst_ne _ (by simp), hrecorded]

/-- A rejection touches a counter of an oracle. -/
theorem rejection_inst {feed : PriceFeed D} {f : OracleDataKey} (hf : f ≠ .oracle) :
    (rejection s feed).inst f = s.inst f := by
  rw [rejection]
  split
  · exact Ledger.put_inst_ne s hf
  · rfl

theorem status_rejection {feed : PriceFeed D} : status (rejection s feed) o = status s o := by
  rw [rejection]
  split
  · next orec horec =>
    rw [status_put]
    split_ifs with ho
    · rw [ho, status, horec]
      rfl
    · rfl
  · rfl

theorem foldl_rejection_inst {feeds : List (PriceFeed D)} {f : OracleDataKey} (hf : f ≠ .oracle) :
    (feeds.foldl rejection s).inst f = s.inst f := by
  induction feeds generalizing s with
  | nil => rfl
  | cons feed feeds ih => rw [List.foldl_cons, ih, rejection_inst hf]

theorem status_foldl_rejection {feeds : List (PriceFeed D)} :
    status (feeds.foldl rejection s) o = status s o := by
  induction feeds generalizing s with
  | nil => rfl
  | cons feed feeds ih => rw [List.foldl_cons, ih, status_rejection]

theorem pendingFeeds_rejected : pendingFeeds (rejected s a) b = if b = a then [] else pendingFeeds s b := by
  rw [rejected, pendingFeeds_put, pendingFeeds, foldl_rejection_inst (by decide)]
  rfl

theorem rejected_inst {f : OracleDataKey} (hf : f ∉ [OracleDataKey.oracle, .pendingFeeds]) :
    (rejected s a).inst f = s.inst f := by
  simp only [List.mem_cons, List.not_mem_nil, or_false, not_or] at hf
  rw [rejected, Ledger.put_inst_ne _ hf.2, foldl_rejection_inst hf.1]

end

end RwaOracle
