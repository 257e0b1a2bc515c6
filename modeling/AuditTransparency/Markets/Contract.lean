/-
  PredictionMarket — markets on a binary outcome (`src/prediction_markets.rs`).

  Shares of the two outcomes are bought from and sold to a market while it is active.  The
  owner closes it, its oracle resolves it, and then every position can be settled.  The
  order book of the source is not used by any of this and left out; the transfers are marked
  as to do in the source, and what would be transferred is computed here.

  `env.invoker()` is an argument of the functions here.  All entries are in the instance
  store.
-/
import AuditTransparency.Soroban.Script
import AuditTransparency.Soroban.Avoids

namespace PredictionMarket

open Soroban
open Soroban.Call

/-! ## Data -/

inductive MarketType where
  | complianceAudit
  | bridgeLatency
  | eventVolume
  | custom
  deriving DecidableEq

inductive MarketStatus where
  | active
  | closed
  | pending
  | resolved
  | settled
  | cancelled
  deriving DecidableEq

inductive Outcome where
  | yes
  | no
  | invalid
  deriving DecidableEq

structure Market where
  marketId : ℕ
  marketType : MarketType
  title : String
  description : String
  outcomeYesLabel : String
  outcomeNoLabel : String
  status : MarketStatus
  tradingDeadline : ℕ
  resolutionDeadline : ℕ
  resolvedOutcome : Option Outcome
  totalLiquidity : ℕ
  yesSharesOutstanding : ℕ
  noSharesOutstanding : ℕ
  yesPrice : ℕ
  noPrice : ℕ
  oracleAddress : Address
  createdLedger : ℕ
  settlementFeeBps : ℕ
  deriving DecidableEq

structure Position where
  user : Address
  marketId : ℕ
  yesShares : ℕ
  noShares : ℕ
  costBasis : ℕ
  settled : Bool
  deriving DecidableEq

structure MarketConfig where
  baseToken : Address
  minLiquidity : ℕ
  maxShares : ℕ
  defaultSettlementFeeBps : ℕ
  oracleMinThreshold : ℕ
  deriving DecidableEq

/-- The errors that are raised. -/
inductive MarketError where
  | unauthorized
  | marketNotFound
  | invalidStatus
  | insufficientLiquidity
  | invalidPrice
  | insufficientBalance
  | invalidOutcome
  | deadlinePassed
  | tradingNotStarted
  | marketNotResolved
  | positionNotFound
  deriving DecidableEq

/-! ## Storage keys -/

/-- The keys, but for those of the order book. -/
inductive MarketKey where
  | owner
  | config
  | market
  | marketCounter
  | position
  | orderCounter
  | tradeCounter
  | userMarkets
  deriving DecidableEq

/-- The argument of a key. -/
@[reducible] def MarketKey.Key : MarketKey → Type
  | owner | config | marketCounter | orderCounter | tradeCounter => Unit
  | market => ℕ
  | position => Address × ℕ
  | userMarkets => Address

/-- The value stored under a key. -/
@[reducible] def MarketKey.Val : MarketKey → Type
  | owner => Address
  | config => MarketConfig
  | market => Market
  | position => Position
  | marketCounter | orderCounter | tradeCounter => ℕ
  | userMarkets => List ℕ

instance MarketKey.decEqKey : (f : MarketKey) → DecidableEq f.Key
  | owner | config | marketCounter | orderCounter | tradeCounter => inferInstanceAs (DecidableEq Unit)
  | market => inferInstanceAs (DecidableEq ℕ)
  | position => inferInstanceAs (DecidableEq (Address × ℕ))
  | userMarkets => inferInstanceAs (DecidableEq Address)

/-- The storage of the contract; it publishes nothing. -/
abbrev layout : Layout where
  Field := MarketKey
  Key := MarketKey.Key
  Val := MarketKey.Val
  Note := Empty

abbrev State := Ledger layout

abbrev Fn : Type → Type := Call MarketError layout

/-- `env.storage().instance()` -/
abbrev get (f : MarketKey) (k : f.Key) : Fn (Option f.Val) := Call.load layout f k
abbrev set (f : MarketKey) (k : f.Key) (v : f.Val) : Fn Unit := Call.store layout f k v

/-! ## Internal helpers -/

/-- `get_owner` -/
def getOwner : Fn Address := do unwrapOr (← get .owner ()) .unauthorized

/-- `get_config` -/
def getConfig : Fn MarketConfig := do unwrapOr (← get .config ()) .unauthorized

/-- `get_market_or_panic` -/
def getMarketOrPanic (marketId : ℕ) : Fn Market := do unwrapOr (← get .market marketId) .marketNotFound

/-- The position of a user who has bought nothing. -/
def Position.none (user : Address) (marketId : ℕ) : Position where
  user := user
  marketId := marketId
  yesShares := 0
  noShares := 0
  costBasis := 0
  settled := false

/-- `get_position` -/
def getPosition (user : Address) (marketId : ℕ) : Fn Position := do
  return (← get .position (user, marketId)).getD (.none user marketId)

/-- `get_next_market_id` -/
def getNextMarketId : Fn ℕ := do
  let current := (← get .marketCounter ()).getD 1
  set .marketCounter () (← addChecked 64 current 1)
  return current

/-! ## Functions -/

/-- `initialize` -/
def initializeMarkets (owner baseToken : Address) (minLiquidity maxShares defaultSettlementFeeBps : ℕ) :
    Fn Unit := do
  requireAuth owner
  rejectIf (← get .owner ()).isSome .unauthorized
  set .owner () owner
  set .config () { baseToken, minLiquidity, maxShares, defaultSettlementFeeBps, oracleMinThreshold := 2 }
  set .marketCounter () 0
  set .orderCounter () 0
  set .tradeCounter () 0

/-- `create_market` -/
def createMarket (creator : Address) (marketType : MarketType)
    (title description outcomeYesLabel outcomeNoLabel : String)
    (initialLiquidity tradingDeadlineLedgers resolutionDeadlineLedgers : ℕ) (oracleAddress : Address)
    (settlementFeeBps : ℕ) : Fn ℕ := do
  let config ← getConfig
  let currentLedger := (← getEnv).sequence
  rejectIf (initialLiquidity < config.minLiquidity) .insufficientLiquidity
  rejectIf (tradingDeadlineLedgers = 0 ∨ resolutionDeadlineLedgers ≤ tradingDeadlineLedgers) .invalidStatus
  let marketId ← getNextMarketId
  let tradingDeadline ← addChecked 32 currentLedger tradingDeadlineLedgers
  let resolutionDeadline ← addChecked 32 currentLedger resolutionDeadlineLedgers
  set .market marketId {
    marketId, marketType, title, description, outcomeYesLabel, outcomeNoLabel
    status := .active
    tradingDeadline, resolutionDeadline
    resolvedOutcome := none
    totalLiquidity := initialLiquidity
    yesSharesOutstanding := initialLiquidity / 2
    noSharesOutstanding := initialLiquidity / 2
    yesPrice := 5000
    noPrice := 5000
    oracleAddress
    createdLedger := currentLedger
    settlementFeeBps }
  let userMarkets := (← get .userMarkets creator).getD []
  set .userMarkets creator (userMarkets ++ [marketId])
  return marketId

/-- The supply of an outcome. -/
def Market.supply (market : Market) (isYes : Bool) : ℕ :=
  if isYes then market.yesSharesOutstanding else market.noSharesOutstanding

/-- The market after a trade. -/
def Market.traded (market : Market) (isYes : Bool) (supply price : ℕ) : Market :=
  if isYes then { market with yesSharesOutstanding := supply, yesPrice := price }
  else { market with noSharesOutstanding := supply, noPrice := price }

/-- The shares of an outcome. -/
def Position.shares (position : Position) (isYes : Bool) : ℕ :=
  if isYes then position.yesShares else position.noShares

/-- The position with other shares of an outcome. -/
def Position.withShares (position : Position) (isYes : Bool) (shares : ℕ) : Position :=
  if isYes then { position with yesShares := shares } else { position with noShares := shares }

/-- `buy_shares` -/
def buyShares (buyer : Address) (marketId : ℕ) (isYes : Bool) (quantity maxPrice : ℕ) : Fn ℕ := do
  let market ← getMarketOrPanic marketId
  let currentLedger := (← getEnv).sequence
  rejectIf (market.status ≠ .active) .invalidStatus
  rejectIf (currentLedger > market.tradingDeadline) .deadlinePassed
  let currentSupply := market.supply isYes
  let otherSupply := market.supply !isYes
  let scaled ← mulChecked 128 otherSupply 10000
  let total ← addChecked 128 (← addChecked 128 currentSupply otherSupply) quantity
  -- at most 10000, so that the cast to `u32` keeps it
  let avgPrice ← divChecked scaled total
  rejectIf (avgPrice > maxPrice) .invalidPrice
  let cost := (← mulChecked 128 quantity avgPrice) / 10000
  let position ← getPosition buyer marketId
  let shares ← addChecked 128 (position.shares isYes) quantity
  let costBasis ← addChecked 128 position.costBasis cost
  let supply ← addChecked 128 currentSupply quantity
  set .position (buyer, marketId) { position.withShares isYes shares with costBasis }
  set .market marketId (market.traded isYes supply avgPrice)
  return avgPrice

/-- `sell_shares` -/
def sellShares (seller : Address) (marketId : ℕ) (isYes : Bool) (quantity minPrice : ℕ) : Fn ℕ := do
  let market ← getMarketOrPanic marketId
  let currentLedger := (← getEnv).sequence
  rejectIf (market.status ≠ .active) .invalidStatus
  rejectIf (currentLedger > market.tradingDeadline) .deadlinePassed
  let position ← unwrapOr (← get .position (seller, marketId)) .positionNotFound
  rejectIf (position.shares isYes < quantity) .insufficientBalance
  let currentSupply := market.supply isYes
  let otherSupply := market.supply !isYes
  let scaled ← mulChecked 128 otherSupply 10000
  let supply ← subChecked currentSupply quantity
  let total ← addChecked 128 supply otherSupply
  let avgPrice ← divChecked scaled total
  rejectIf (avgPrice < minPrice) .invalidPrice
  -- the proceeds, `quantity * avgPrice / 10000`, are not transferred
  let _ ← mulChecked 128 quantity avgPrice
  let shares ← subChecked (position.shares isYes) quantity
  set .position (seller, marketId) (position.withShares isYes shares)
  set .market marketId (market.traded isYes supply avgPrice)
  return avgPrice

/-- `resolve_market` -/
def resolveMarket (caller : Address) (marketId : ℕ) (outcome : Outcome) : Fn Unit := do
  let market ← getMarketOrPanic marketId
  rejectIf (caller ≠ market.oracleAddress) .unauthorized
  rejectIf (market.status ≠ .closed ∧ market.status ≠ .pending) .invalidStatus
  set .market marketId { market with
    resolvedOutcome := some outcome
    status := .resolved }

/-- `close_market` -/
def closeMarket (marketId : ℕ) : Fn Unit := do
  let owner ← getOwner
  requireAuth owner
  let market ← getMarketOrPanic marketId
  let currentLedger := (← getEnv).sequence
  rejectIf (currentLedger < market.tradingDeadline) .tradingNotStarted
  rejectIf (market.status ≠ .active) .invalidStatus
  set .market marketId { market with status := .closed }

/-- The payout of a position before the fee. -/
def grossPayout (market : Market) (position : Position) : Outcome → Fn ℕ
  | .yes => do divChecked (← mulChecked 128 position.yesShares 10000) market.yesSharesOutstanding
  | .no => do divChecked (← mulChecked 128 position.noShares 10000) market.noSharesOutstanding
  | .invalid => pure position.costBasis

/-- `settle_position` -/
def settlePosition (marketId : ℕ) (user : Address) : Fn ℕ := do
  let market ← getMarketOrPanic marketId
  rejectIf (market.status ≠ .resolved) .marketNotResolved
  let resolvedOutcome ← unwrapOr market.resolvedOutcome .invalidOutcome
  let position ← unwrapOr (← get .position (user, marketId)) .positionNotFound
  if position.settled then return 0
  else do
    let payout ← grossPayout market position resolvedOutcome
    let fee := (← mulChecked 128 payout market.settlementFeeBps) / 10000
    let netPayout ← subChecked payout fee
    set .position (user, marketId) { position with settled := true }
    return netPayout

/-! ## Operations -/

/-- The functions of a market. -/
inductive Op where
  | createMarket (creator : Address) (marketType : MarketType)
      (title description outcomeYesLabel outcomeNoLabel : String)
      (initialLiquidity tradingDeadlineLedgers resolutionDeadlineLedgers : ℕ) (oracleAddress : Address)
      (settlementFeeBps : ℕ)
  | buyShares (buyer : Address) (marketId : ℕ) (isYes : Bool) (quantity maxPrice : ℕ)
  | sellShares (seller : Address) (marketId : ℕ) (isYes : Bool) (quantity minPrice : ℕ)
  | closeMarket (marketId : ℕ)
  | resolveMarket (caller : Address) (marketId : ℕ) (outcome : Outcome)
  | settlePosition (marketId : ℕ) (user : Address)
  deriving DecidableEq

/-- Runs an operation; some return a number. -/
def exec : Op → Fn (Option ℕ)
  | .createMarket a k t d y n l t' r o f => return some (← createMarket a k t d y n l t' r o f)
  | .buyShares a m b q p => return some (← buyShares a m b q p)
  | .sellShares a m b q p => return some (← sellShares a m b q p)
  | .closeMarket m => do closeMarket m; return none
  | .resolveMarket a m o => do resolveMarket a m o; return none
  | .settlePosition m a => return some (← settlePosition m a)

/-! ## Effects -/

instance : Reads getOwner := inferInstanceAs (Reads (_ >>= _))
instance : Reads getConfig := inferInstanceAs (Reads (_ >>= _))
instance (m : ℕ) : Reads (getMarketOrPanic m) := inferInstanceAs (Reads (_ >>= _))

/-- The id of the next market. -/
def nextMarketId (s : State) : ℕ := (s.inst .marketCounter ()).getD 1

/-- The price of a sale, in basis points. -/
def Market.sellPrice (market : Market) (isYes : Bool) (quantity : ℕ) : ℕ :=
  market.supply (!isYes) * 10000 / (market.supply isYes - quantity + market.supply (!isYes))

/-- The payout of a position before the fee, computed without bounds. -/
def Market.gross (market : Market) (position : Position) : Outcome → ℕ
  | .yes => position.yesShares * 10000 / market.yesSharesOutstanding
  | .no => position.noShares * 10000 / market.noSharesOutstanding
  | .invalid => position.costBasis

/-- The fee on a payout, computed without bounds. -/
def Market.fee (market : Market) (payout : ℕ) : ℕ := payout * market.settlementFeeBps / 10000

/-- There is something to divide the payout by, if it comes to that. -/
def Market.Divides (market : Market) (position : Position) : Outcome → Prop
  | .yes => position.yesShares * 10000 < 2 ^ 128 → market.yesSharesOutstanding ≠ 0
  | .no => position.noShares * 10000 < 2 ^ 128 → market.noSharesOutstanding ≠ 0
  | .invalid => True

/-- The payout before the fee has a value. -/
def Market.Computes (market : Market) (position : Position) : Outcome → Prop
  | .yes => position.yesShares * 10000 < 2 ^ 128 ∧ market.yesSharesOutstanding ≠ 0
  | .no => position.noShares * 10000 < 2 ^ 128 ∧ market.noSharesOutstanding ≠ 0
  | .invalid => True

instance (x : Market) (y : Position) : (o : Outcome) → Decidable (x.Divides y o)
  | .yes | .no => inferInstanceAs (Decidable (_ → _))
  | .invalid => inferInstanceAs (Decidable True)

instance (x : Market) (y : Position) : (o : Outcome) → Decidable (x.Computes y o)
  | .yes | .no => inferInstanceAs (Decidable (_ ∧ _))
  | .invalid => inferInstanceAs (Decidable True)

section
variable {env : Env} {s s' : State} {a c r : Address} {m n q p u v f : ℕ} {k : MarketType}
  {t d l w : String} {b : Bool} {o : Outcome} {x : Market} {y : Position}

@[simp] theorem post_getOwner {Q : Address → State → Prop} :
    Post getOwner Q env s ↔ ∀ x, s.inst .owner () = some x → Q x s := by
  rw [getOwner, post_bind, post_load, post_unwrapOr]

@[simp] theorem post_getConfig {Q : MarketConfig → State → Prop} :
    Post getConfig Q env s ↔ ∀ x, s.inst .config () = some x → Q x s := by
  rw [getConfig, post_bind, post_load, post_unwrapOr]

@[simp] theorem post_getMarketOrPanic {Q : Market → State → Prop} :
    Post (getMarketOrPanic m) Q env s ↔ ∀ x, s.inst .market m = some x → Q x s := by
  rw [getMarketOrPanic, post_bind, post_load, post_unwrapOr]

@[simp] theorem post_grossPayout {Q : ℕ → State → Prop} :
    Post (grossPayout x y o) Q env s ↔ (x.Computes y o → Q (x.gross y o) s) := by
  cases o with
  | yes | no => simp only [grossPayout, post_bind, post_mulChecked, post_divChecked, Market.Computes, and_imp,
      Market.gross]
  | invalid => simp only [grossPayout, post_pure, Market.Computes, true_imp_iff, Market.gross]

@[simp] theorem avoids_grossPayout :
    Avoids (grossPayout x y o) Trap.Undefined env s ↔ x.Divides y o := by
  cases o <;> simp [grossPayout, Market.Divides, Trap.Undefined]

/-- What creating a market leaves. -/
theorem created (h : (createMarket a k t d l w n u v c f).run env s = .ok (m, s')) :
    m = nextMarketId s ∧ ∃ x l, x.status = .active ∧
      s' = ((s.put .marketCounter () (m + 1)).put .market m x).put .userMarkets a l := by
  refine Post.of_run (m := createMarket a k t d l w n u v c f) (Q := fun m s' =>
    m = nextMarketId s ∧ ∃ x l, x.status = .active ∧
      s' = ((s.put .marketCounter () (m + 1)).put .market m x).put .userMarkets a l) ?_ h
  simp only [createMarket, getNextMarketId, post_bind, post_getConfig, post_getEnv, post_rejectIf, post_load,
    post_addChecked, post_store, post_pure]
  intro _ _ _ _ _ _ _
  exact ⟨rfl, _, _, rfl, rfl⟩

/-- What a purchase leaves. -/
theorem bought (h : (buyShares a m b q p).run env s = .ok (n, s')) :
    ∃ x y i, s.inst .market m = some x ∧ x.status = .active ∧
      s' = (s.put .position (a, m) y).put .market m (x.traded b i n) := by
  refine Post.of_run (m := buyShares a m b q p) (Q := fun n s' =>
    ∃ x y i, s.inst .market m = some x ∧ x.status = .active ∧
      s' = (s.put .position (a, m) y).put .market m (x.traded b i n)) ?_ h
  simp only [buyShares, getPosition, post_bind, post_getMarketOrPanic, post_getEnv, post_rejectIf,
    post_mulChecked, post_addChecked, post_divChecked, post_load, post_store, post_pure, not_not]
  intro x hx hactive _ _ _ _ _ _ _ _ _ _
  exact ⟨x, _, _, hx, hactive, rfl⟩

/-- What a sale leaves. -/
theorem sold (h : (sellShares a m b q p).run env s = .ok (n, s')) :
    ∃ x y i, s.inst .market m = some x ∧ x.status = .active ∧ n = x.sellPrice b q ∧
      s' = (s.put .position (a, m) y).put .market m (x.traded b i n) := by
  refine Post.of_run (m := sellShares a m b q p) (Q := fun n s' =>
    ∃ x y i, s.inst .market m = some x ∧ x.status = .active ∧ n = x.sellPrice b q ∧
      s' = (s.put .position (a, m) y).put .market m (x.traded b i n)) ?_ h
  simp only [sellShares, post_bind, post_getMarketOrPanic, post_getEnv, post_rejectIf, post_load,
    post_unwrapOr, post_mulChecked, post_subChecked, post_addChecked, post_divChecked, post_store, post_pure,
    not_not]
  intro x hx hactive _ _ _ _ _ _ _ _ _ _ _
  exact ⟨x, _, _, hx, hactive, rfl, rfl⟩

/-- What closing a market leaves. -/
theorem closed (h : (closeMarket m).run env s = .ok ((), s')) :
    ∃ x, s.inst .market m = some x ∧ x.status = .active ∧
      s' = s.put .market m { x with status := .closed } := by
  refine Post.of_run (m := closeMarket m) (Q := fun _ s' => ∃ x, s.inst .market m = some x ∧
    x.status = .active ∧ s' = s.put .market m { x with status := .closed }) ?_ h
  simp only [closeMarket, post_bind, post_getOwner, post_requireAuth, post_getMarketOrPanic, post_getEnv,
    post_rejectIf, post_store, not_not]
  intro _ _ _ x hx _ hactive
  exact ⟨x, hx, hactive, rfl⟩

/-- What a resolution leaves. -/
theorem resolved (h : (resolveMarket a m o).run env s = .ok ((), s')) :
    ∃ x, s.inst .market m = some x ∧ x.status ≠ .resolved ∧
      s' = s.put .market m { x with resolvedOutcome := some o, status := .resolved } := by
  refine Post.of_run (m := resolveMarket a m o) (Q := fun _ s' => ∃ x, s.inst .market m = some x ∧
    x.status ≠ .resolved ∧ s' = s.put .market m { x with
      resolvedOutcome := some o
      status := .resolved }) ?_ h
  simp only [resolveMarket, post_bind, post_getMarketOrPanic, post_rejectIf, post_store]
  intro x hx _ hstatus
  refine ⟨x, hx, fun he => hstatus ?_, rfl⟩
  rw [he]
  decide

/-- What a settlement returns and leaves. -/
theorem settled (h : (settlePosition m a).run env s = .ok (n, s')) :
    ∃ x o y, s.inst .market m = some x ∧ x.status = .resolved ∧ x.resolvedOutcome = some o ∧
      s.inst .position (a, m) = some y ∧
      (y.settled = true ∧ n = 0 ∧ s' = s ∨
        y.settled = false ∧ x.Computes y o ∧ x.gross y o * x.settlementFeeBps < 2 ^ 128 ∧
        x.fee (x.gross y o) ≤ x.gross y o ∧ n = x.gross y o - x.fee (x.gross y o) ∧
        s' = s.put .position (a, m) { y with settled := true }) := by
  refine Post.of_run (m := settlePosition m a) (Q := fun n s' =>
    ∃ x o y, s.inst .market m = some x ∧ x.status = .resolved ∧ x.resolvedOutcome = some o ∧
      s.inst .position (a, m) = some y ∧
      (y.settled = true ∧ n = 0 ∧ s' = s ∨
        y.settled = false ∧ x.Computes y o ∧ x.gross y o * x.settlementFeeBps < 2 ^ 128 ∧
        x.fee (x.gross y o) ≤ x.gross y o ∧ n = x.gross y o - x.fee (x.gross y o) ∧
        s' = s.put .position (a, m) { y with settled := true })) ?_ h
  simp only [settlePosition, post_bind, post_getMarketOrPanic, post_rejectIf, post_unwrapOr, post_load,
    post_ite, post_pure, post_grossPayout, post_mulChecked, post_subChecked, post_store, not_not,
    Bool.not_eq_true]
  intro x hx hresolved o ho y hy
  refine ⟨fun hdone => ⟨x, o, y, hx, hresolved, ho, hy, .inl ⟨hdone, trivial, trivial⟩⟩, ?_⟩
  intro hopen hcomp hfits hle
  exact ⟨x, o, y, hx, hresolved, ho, hy, .inr ⟨hopen, hcomp, hfits, hle, rfl, rfl⟩⟩

end

end PredictionMarket
