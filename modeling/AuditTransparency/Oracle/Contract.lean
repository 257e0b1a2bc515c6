/-
  RwaOracle — prices of real-world assets (`src/rwa_oracle.rs`).

  Oracles submit price feeds for registered assets, which wait in a buffer until a round of
  consensus is run.  A round that is accepted publishes the weighted mean of the feeds that
  survive its filters, chained to the price before by its hash.

  All entries are in the instance store.  The functions return a `Result`: what they have
  written before an error stays.  `BytesN<32>` is the type `D` of digests.
-/
import AuditTransparency.Ledger.Hashing
import AuditTransparency.Soroban.Decimal
import AuditTransparency.Soroban.Fallible
import AuditTransparency.Soroban.InsertionSort

namespace RwaOracle

open Soroban
open AuditLedger (u64ToBytes)

/-! ## Constants -/

def maxPendingFeeds : ℕ := 10

def defaultStalenessWindowSecs : ℕ := 3600

def defaultQuorum : ℕ := 2

def maxDeviationBps : ℕ := 500

def maxOracleNameLen : ℕ := 64

def maxPriceHistory : ℕ := 1000

/-! ## Data -/

inductive OracleStatus where
  | active
  | suspended
  | revoked
  deriving DecidableEq

inductive AssetClass where
  | realEstate
  | privateCredit
  | commodity
  | privateEquity
  | fixedIncome
  | infrastructure
  | collectible
  | other
  deriving DecidableEq

inductive ConsensusResult where
  | accepted
  | insufficientQuorum
  | deviationExceeded
  | allStale
  deriving DecidableEq

inductive OracleError where
  | alreadyRegistered
  | notRegistered
  | oracleNotActive
  | assetNotRegistered
  | assetAlreadyRegistered
  | invalidPrice
  | staleTimestamp
  | futureTimestamp
  | confidenceTooWide
  | historyCapReached
  | unauthorized
  | invalidReputationScore
  | oracleNameTooLong
  | noFeedsAvailable
  | overflow
  deriving DecidableEq

/-- An oracle; its `status` is stored as a number, and so are the class of an asset and the result of
    a round. -/
structure OracleRecord where
  address : Address
  name : Bytes
  supportedClasses : List UInt8
  reputationScore : ℕ
  registeredAt : ℕ
  lastSubmissionAt : ℕ
  totalSubmissions : ℕ
  totalRejections : ℕ
  status : OracleStatus
  deriving DecidableEq

structure PriceFeed (D : Type) where
  assetId : Symbol
  price : ℕ
  confidence : ℕ
  observedAt : ℕ
  submittedAt : ℕ
  oracle : Address
  metadata : Bytes
  integrityHash : D
  deriving DecidableEq

structure CanonicalPrice (D : Type) where
  assetId : Symbol
  price : ℕ
  confidence : ℕ
  oracleCount : ℕ
  consensusAt : ℕ
  oldestObservation : ℕ
  result : ConsensusResult
  historyIndex : ℕ
  chainHash : D
  prevHash : D
  deriving DecidableEq

structure AssetRecord where
  assetId : Symbol
  assetClass : AssetClass
  name : Bytes
  issuer : Address
  quorum : ℕ
  stalenessWindowOverride : ℕ
  active : Bool
  registeredAt : ℕ
  totalUpdates : ℕ
  deriving DecidableEq

/-- What the contract uses of the host. -/
structure Host (D : Type) where
  /-- `env.crypto().sha256` -/
  sha256 : Bytes → D
  /-- `BytesN::as_ref` -/
  asRef : D → Bytes
  /-- `BytesN::from_array(&[0; 32])` -/
  zeros : D

/-! ## Storage keys -/

inductive OracleDataKey where
  | oracle
  | oracleCount
  | asset
  | assetCount
  | pendingFeeds
  | latestPrice
  | priceHistory
  | stalenessWindow
  | globalQuorum
  | totalRounds
  deriving DecidableEq

/-- The argument of a key. -/
@[reducible] def OracleDataKey.Key : OracleDataKey → Type
  | oracle => Address
  | asset | pendingFeeds | latestPrice | priceHistory => Symbol
  | oracleCount | assetCount | stalenessWindow | globalQuorum | totalRounds => Unit

/-- The value stored under a key. -/
@[reducible] def OracleDataKey.Val (D : Type) : OracleDataKey → Type
  | oracle => OracleRecord
  | asset => AssetRecord
  | pendingFeeds => List (PriceFeed D)
  | latestPrice => CanonicalPrice D
  | priceHistory => List (CanonicalPrice D)
  | oracleCount | assetCount | stalenessWindow | globalQuorum | totalRounds => ℕ

instance OracleDataKey.decEqKey : (f : OracleDataKey) → DecidableEq f.Key
  | oracle => inferInstanceAs (DecidableEq Address)
  | asset | pendingFeeds | latestPrice | priceHistory => inferInstanceAs (DecidableEq String)
  | oracleCount | assetCount | stalenessWindow | globalQuorum | totalRounds =>
      inferInstanceAs (DecidableEq Unit)

/-- The storage of the module; it publishes nothing. -/
abbrev layout (D : Type) : Layout where
  Field := OracleDataKey
  Key := OracleDataKey.Key
  Val := OracleDataKey.Val D
  Note := Empty

abbrev State (D : Type) := Ledger (layout D)

abbrev Fn (D : Type) : Type → Type := Fallible OracleError (layout D)

variable {D : Type}

/-- `env.storage().instance()` -/
abbrev get (f : OracleDataKey) (k : f.Key) : Fn D (Option (f.Val D)) := .lift (Call.load (layout D) f k)
abbrev set (f : OracleDataKey) (k : f.Key) (v : f.Val D) : Fn D Unit := .lift (Call.store (layout D) f k v)

/-- `env.ledger().timestamp()` -/
def timestamp : Fn D ℕ := .lift do return (← Call.getEnv).timestamp

/-! ## Numbers -/

/-- The saturating operations of `u128`. -/
def saturatingAdd (a b : ℕ) : ℕ := min (a + b) (2 ^ 128 - 1)

def saturatingMul (a b : ℕ) : ℕ := min (a * b) (2 ^ 128 - 1)

/-- `u32::saturating_add` by one -/
def saturatingSucc (a : ℕ) : ℕ := min (a + 1) (2 ^ 32 - 1)

/-- `u128::to_le_bytes` -/
def u128ToBytes (v : ℕ) : Bytes := (List.range 16).map fun i => byteAt v (8 * i)

/-! ## Functions that do not use the storage -/

def OracleRecord.isActive (record : OracleRecord) : Bool := record.status == .active

/-- `compute_feed_hash` -/
def computeFeedHash (H : Host D) (assetId : Symbol) (price confidence observedAt : ℕ) : D :=
  H.sha256 (ascii assetId ++ u128ToBytes price ++ u128ToBytes confidence ++ u64ToBytes observedAt)

/-- `compute_canonical_hash` -/
def computeCanonicalHash (H : Host D) (assetId : Symbol) (price consensusAt : ℕ) (prevHash : D) : D :=
  H.sha256 (ascii assetId ++ u128ToBytes price ++ u64ToBytes consensusAt ++ H.asRef prevHash)

def PriceFeed.verifyIntegrity [DecidableEq D] (H : Host D) (feed : PriceFeed D) : Bool :=
  computeFeedHash H feed.assetId feed.price feed.confidence feed.observedAt == feed.integrityHash

def PriceFeed.isFresh (feed : PriceFeed D) (now stalenessWindow : ℕ) : Bool :=
  decide (now - feed.observedAt ≤ stalenessWindow)

def CanonicalPrice.verifyChainHash [DecidableEq D] (H : Host D) (p : CanonicalPrice D) : Bool :=
  computeCanonicalHash H p.assetId p.price p.consensusAt p.prevHash == p.chainHash

/-- `verify_feed_integrity` -/
def verifyFeedIntegrity [DecidableEq D] (H : Host D) (feed : PriceFeed D) : Bool × String :=
  if feed.price = 0 then (false, "price_zero")
  else if feed.confidence ≥ feed.price / 2 then (false, "confidence_too_wide")
  else if !feed.verifyIntegrity H then (false, "hash_mismatch")
  else (true, "ok")

/-- `is_feed_stale` -/
def isFeedStale (feed : PriceFeed D) (now stalenessWindow : ℕ) : Bool := !feed.isFresh now stalenessWindow

/-- The feeds that are fresh and intact: price, confidence and reputation. -/
def validEntries [DecidableEq D] (H : Host D) (feeds : List (PriceFeed D)) (reputationScores : List ℕ)
    (now stalenessWindow : ℕ) : List (ℕ × ℕ × ℕ) :=
  feeds.zipIdx.filterMap fun (feed, i) =>
    if isFeedStale feed now stalenessWindow then none
    else if !(verifyFeedIntegrity H feed).1 then none
    else some (feed.price, feed.confidence, reputationScores[i]?.getD 1)

/-- How far from the median a price may be. -/
def devCap (median : ℕ) : ℕ := saturatingMul median maxDeviationBps / 10000

def withinCap (median price : ℕ) : Bool :=
  decide ((if price ≥ median then price - median else median - price) ≤ devCap median)

/-- The sums over the survivors: of the weights, of the weighted prices and of the confidences. -/
def weigh (sums : ℕ × ℕ × ℕ) (entry : ℕ × ℕ × ℕ) : ℕ × ℕ × ℕ :=
  (saturatingAdd sums.1 entry.2.2, saturatingAdd sums.2.1 (saturatingMul entry.1 entry.2.2),
    saturatingAdd sums.2.2 entry.2.1)

/-- `run_consensus`; `none` when it panics. -/
def runConsensus [DecidableEq D] (H : Host D) (feeds : List (PriceFeed D)) (reputationScores : List ℕ)
    (now stalenessWindow quorum : ℕ) : Option (ConsensusResult × ℕ × ℕ × ℕ) := do
  let valid := validEntries H feeds reputationScores now stalenessWindow
  if valid.length < quorum then
    if valid.isEmpty && !feeds.isEmpty then return (.allStale, 0, 0, 0)
    return (.insufficientQuorum, 0, 0, 0)
  let prices ← InsertionSort.sort (valid.map fun entry => entry.1)
  let median ← prices[prices.length / 2]?
  let survivors := valid.filter fun entry => withinCap median entry.1
  if survivors.isEmpty then return (.deviationExceeded, 0, 0, 0)
  let (weightSum, priceSum, confSum) := survivors.foldl weigh (0, 0, 0)
  if weightSum = 0 then return (.insufficientQuorum, 0, 0, 0)
  return (.accepted, priceSum / weightSum, confSum / survivors.length, survivors.length)

/-! ## Functions that use the storage -/

/-- `get_staleness_window` -/
def getStalenessWindow : Fn D ℕ := do return (← get .stalenessWindow ()).getD defaultStalenessWindowSecs

/-- `get_global_quorum` -/
def getGlobalQuorum : Fn D ℕ := do return (← get .globalQuorum ()).getD defaultQuorum

/-- `register_oracle` -/
def registerOracle (address : Address) (name : Bytes) (supportedClasses : List UInt8)
    (reputationScore : ℕ) : Fn D OracleRecord := do
  .failIf (name.length > maxOracleNameLen) .oracleNameTooLong
  .failIf (reputationScore > 100) .invalidReputationScore
  .failIf (← get .oracle address).isSome .alreadyRegistered
  let record : OracleRecord := {
    address, name, supportedClasses, reputationScore
    registeredAt := ← timestamp
    lastSubmissionAt := 0
    totalSubmissions := 0
    totalRejections := 0
    status := .active }
  set .oracle address record
  set .oracleCount () (← .lift (Call.addChecked 32 ((← get .oracleCount ()).getD 0) 1))
  return record

/-- `get_oracle` -/
def getOracle (address : Address) : Fn D OracleRecord := do .okOr (← get .oracle address) .notRegistered

/-- `set_oracle_status` -/
def setOracleStatus (address : Address) (status : OracleStatus) : Fn D Unit := do
  let record ← .okOr (← get .oracle address) .notRegistered
  set .oracle address { record with status }

/-- `register_asset` -/
def registerAsset (assetId : Symbol) (assetClass : AssetClass) (name : Bytes) (issuer : Address)
    (quorum stalenessWindowOverride : Option ℕ) : Fn D AssetRecord := do
  .failIf (← get .asset assetId).isSome .assetAlreadyRegistered
  let globalQuorum ← getGlobalQuorum
  let record : AssetRecord := {
    assetId, assetClass, name, issuer
    quorum := quorum.getD globalQuorum
    stalenessWindowOverride := stalenessWindowOverride.getD 0
    active := true
    registeredAt := ← timestamp
    totalUpdates := 0 }
  set .asset assetId record
  set .assetCount () (← .lift (Call.addChecked 32 ((← get .assetCount ()).getD 0) 1))
  return record

/-- `get_asset` -/
def getAsset (assetId : Symbol) : Fn D AssetRecord := do .okOr (← get .asset assetId) .assetNotRegistered

/-- The window of an asset: its own, when it has one. -/
def AssetRecord.window (record : AssetRecord) (stalenessWindow : ℕ) : ℕ :=
  if record.stalenessWindowOverride > 0 then record.stalenessWindowOverride else stalenessWindow

/-- `submit_price_feed` -/
def submitPriceFeed (H : Host D) (oracle : Address) (assetId : Symbol)
    (price confidence observedAt : ℕ) (metadata : Bytes) : Fn D (PriceFeed D) := do
  let oracleRecord ← getOracle oracle
  .failIf (!oracleRecord.isActive) .oracleNotActive
  let assetRecord ← getAsset assetId
  .failIf (!assetRecord.active) .assetNotRegistered
  .failIf (price = 0) .invalidPrice
  .failIf (confidence ≥ price / 2) .confidenceTooWide
  let now ← timestamp
  let window := assetRecord.window (← getStalenessWindow)
  .failIf (observedAt > (← .lift (Call.addChecked 64 now 60))) .futureTimestamp
  .failIf (now - observedAt > window) .staleTimestamp
  let feed : PriceFeed D := {
    assetId, price, confidence, observedAt
    submittedAt := now
    oracle, metadata
    integrityHash := computeFeedHash H assetId price confidence observedAt }
  let pending := (← get .pendingFeeds assetId).getD []
  -- a full buffer is dropped
  let pending := if pending.length ≥ maxPendingFeeds then [] else pending
  set .pendingFeeds assetId (pending ++ [feed])
  .lift do Call.ifSome (← Call.load (layout D) .oracle oracle) fun orec => do
    let totalSubmissions ← Call.addChecked 32 orec.totalSubmissions 1
    Call.store (layout D) .oracle oracle { orec with totalSubmissions, lastSubmissionAt := now }
  return feed

/-- The reputation of an oracle, and of one that is not registered. -/
def reputation (o : Option OracleRecord) : ℕ := (o.map OracleRecord.reputationScore).getD 1

/-- The reputation of the oracle of a feed is added to those of the feeds before. -/
def pushReputation (reps : List ℕ) (feed : PriceFeed D) : Call Empty (layout D) (List ℕ) := do
  return reps ++ [reputation (← Call.load (layout D) .oracle feed.oracle)]

/-- The oracle of a feed that was not accepted has one rejection more. -/
def markRejection (feed : PriceFeed D) : Call Empty (layout D) Unit := do
  Call.ifSome (← Call.load (layout D) .oracle feed.oracle) fun orec =>
    Call.store (layout D) .oracle feed.oracle { orec with totalRejections := saturatingSucc orec.totalRejections }

/-- The error for a round that is not accepted. -/
def ConsensusResult.error : ConsensusResult → OracleError
  | allStale => .staleTimestamp
  | _ => .invalidPrice

/-- The oldest observation of the buffer. -/
def oldestObservation (feeds : List (PriceFeed D)) (now : ℕ) : ℕ :=
  feeds.foldl (fun oldest feed => if feed.observedAt < oldest then feed.observedAt else oldest) now

/-- The price of a round, chained to the last one of the history. -/
def canonical (H : Host D) (assetId : Symbol) (history : List (CanonicalPrice D))
    (pending : List (PriceFeed D))
    (now price confidence count : ℕ) : CanonicalPrice D :=
  let prevHash := (history.getLast?.map CanonicalPrice.chainHash).getD H.zeros
  { assetId, price, confidence
    oracleCount := count
    consensusAt := now
    oldestObservation := oldestObservation pending now
    result := .accepted
    historyIndex := history.length
    chainHash := computeCanonicalHash H assetId price now prevHash
    prevHash }

/-- The part of `process_consensus` for a round that is accepted. -/
def publishPrice (H : Host D) (assetId : Symbol) (pending : List (PriceFeed D))
    (now price confidence count : ℕ) :
    Fn D (CanonicalPrice D) := do
  let history := (← get .priceHistory assetId).getD []
  let canonical := canonical H assetId history pending now price confidence count
  -- the cap holds for the history only
  if history.length < maxPriceHistory then set .priceHistory assetId (history ++ [canonical])
  set .latestPrice assetId canonical
  .lift do Call.ifSome (← Call.load (layout D) .asset assetId) fun arec =>
    Call.store (layout D) .asset assetId { arec with totalUpdates := saturatingSucc arec.totalUpdates }
  set .totalRounds () (← .lift (Call.addChecked 32 ((← get .totalRounds ()).getD 0) 1))
  set .pendingFeeds assetId []
  return canonical

/-- `process_consensus` -/
def processConsensus [DecidableEq D] (H : Host D) (assetId : Symbol) : Fn D (CanonicalPrice D) := do
  let assetRecord ← getAsset assetId
  let pending := (← get .pendingFeeds assetId).getD []
  .failIf pending.isEmpty .noFeedsAvailable
  let reps ← .lift (pending.foldlM pushReputation [])
  let now ← timestamp
  let staleness := assetRecord.window (← getStalenessWindow)
  -- arrays of ten, of which the round is given what is filled
  let (result, price, confidence, count) ← .lift (Call.unwrap
    (runConsensus H (pending.take 10) (reps.take 10) now staleness assetRecord.quorum))
  if result ≠ .accepted then
    .lift (pending.foldlM (fun _ feed => markRejection feed) ())
    set .pendingFeeds assetId []
    .fail result.error
  else publishPrice H assetId pending now price confidence count

/-! ## What is read from a ledger -/

/-- `get_latest_price` -/
def latestPrice (s : State D) (a : Symbol) : Option (CanonicalPrice D) := s.inst .latestPrice a

/-- `get_price_history` -/
def priceHistory (s : State D) (a : Symbol) : List (CanonicalPrice D) := (s.inst .priceHistory a).getD []

/-- The buffer of an asset. -/
def pendingFeeds (s : State D) (a : Symbol) : List (PriceFeed D) := (s.inst .pendingFeeds a).getD []

/-! ## Calls -/

inductive Op where
  | registerOracle (address : Address) (name : Bytes) (supportedClasses : List UInt8) (reputationScore : ℕ)
  | setOracleStatus (address : Address) (status : OracleStatus)
  | registerAsset (assetId : Symbol) (assetClass : AssetClass) (name : Bytes) (issuer : Address)
      (quorum stalenessWindowOverride : Option ℕ)
  | submitPriceFeed (oracle : Address) (assetId : Symbol) (price confidence observedAt : ℕ) (metadata : Bytes)
  | processConsensus (assetId : Symbol)
  deriving DecidableEq

/-- What a call does; the result is the price it publishes. -/
def exec [DecidableEq D] (H : Host D) : Op → Fn D (Option (CanonicalPrice D))
  | .registerOracle address name supportedClasses reputationScore => do
    let _ ← registerOracle address name supportedClasses reputationScore
    return none
  | .setOracleStatus address status => do
    setOracleStatus address status
    return none
  | .registerAsset assetId assetClass name issuer quorum stalenessWindowOverride => do
    let _ ← registerAsset assetId assetClass name issuer quorum stalenessWindowOverride
    return none
  | .submitPriceFeed oracle assetId price confidence observedAt metadata => do
    let _ ← submitPriceFeed H oracle assetId price confidence observedAt metadata
    return none
  | .processConsensus assetId => do return some (← processConsensus H assetId)

end RwaOracle
