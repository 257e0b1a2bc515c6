/-
  TokenGating — access tiers and the market for them (`src/token_gating.rs`).

  A tier is held by entries of a user's list, each with the ledger at which it expires.  Entries
  are granted, or bought from a listing; the owner of the contract defines the tiers.  All entries
  are in the instance store.  The balance checks and the stream controls are not part of this
  model, nor are the lines for the debug log.
-/
import AuditTransparency.Soroban.Script

namespace TokenGating

open Soroban
open Soroban.Call

/-! ## Data -/

inductive TokenGatingError where
  | unauthorized
  | insufficientTier
  | verificationFailed
  | tierNotFound
  | insufficientFunds
  | bridgeVerificationTimeout
  | invalidTokenSpec
  | tierAlreadyExists
  | listingNotFound
  | insufficientInventory
  | streamAccessControlNotFound
  | tierDisabled
  | invalidPurchasePrice
  | verificationRateLimitExceeded
  | bridgeNotConfigured
  deriving DecidableEq

inductive TokenStandard where
  | stellarAsset
  | erc20
  | erc721
  | erc1155
  deriving DecidableEq

structure TokenSpec where
  standard : TokenStandard
  contractAddress : Bytes
  tokenId : ℕ
  requiredAmount : ℕ
  deriving DecidableEq

structure TokenTier where
  tierId : Symbol
  description : String
  tokenRequirements : List TokenSpec
  purchasePrice : ℕ
  durationLedgers : ℕ
  tradeable : Bool
  enabled : Bool
  deriving DecidableEq

structure TierHolding where
  holder : Address
  tierId : Symbol
  /-- `0` = permanent -/
  expiryLedger : ℕ
  purchasedAt : ℕ
  verified : Bool
  deriving DecidableEq

structure MarketplaceListingDetails where
  seller : Address
  tierId : Symbol
  price : ℕ
  /-- `0` = unlimited -/
  quantity : ℕ
  active : Bool
  createdAt : ℕ
  deriving DecidableEq

/-- The test of `has_tier_access` for one holding, at a ledger. -/
def TierHolding.opens (holding : TierHolding) (tierId : Symbol) (sequence : ℕ) : Bool :=
  decide (holding.tierId = tierId) && holding.verified &&
    (decide (holding.expiryLedger = 0) || decide (sequence < holding.expiryLedger))

/-- The listing after a purchase. -/
def MarketplaceListingDetails.sold (listing : MarketplaceListingDetails) : MarketplaceListingDetails :=
  if 0 < listing.quantity then
    { listing with
      quantity := listing.quantity - 1
      active := if listing.quantity - 1 = 0 then false else listing.active }
  else listing

/-! ## Storage keys -/

inductive TokenGatingKey where
  | owner
  | tier
  | userTiers
  | marketplaceListing
  | nextListingId
  deriving DecidableEq

/-- The argument of a key. -/
@[reducible] def TokenGatingKey.Key : TokenGatingKey → Type
  | owner | nextListingId => Unit
  | tier => Symbol
  | userTiers => Address
  | marketplaceListing => ℕ

/-- The value stored under a key. -/
@[reducible] def TokenGatingKey.Val : TokenGatingKey → Type
  | owner => Address
  | tier => TokenTier
  | userTiers => List TierHolding
  | marketplaceListing => MarketplaceListingDetails
  | nextListingId => ℕ

instance TokenGatingKey.decEqKey : (f : TokenGatingKey) → DecidableEq f.Key
  | owner | nextListingId => inferInstanceAs (DecidableEq Unit)
  | tier => inferInstanceAs (DecidableEq String)
  | userTiers => inferInstanceAs (DecidableEq Address)
  | marketplaceListing => inferInstanceAs (DecidableEq ℕ)

/-- The storage of the module; it publishes nothing. -/
abbrev layout : Layout where
  Field := TokenGatingKey
  Key := TokenGatingKey.Key
  Val := TokenGatingKey.Val
  Note := Empty

abbrev State := Ledger layout

abbrev Fn : Type → Type := Call TokenGatingError layout

/-- `env.storage().instance()` -/
abbrev get (f : TokenGatingKey) (k : f.Key) : Fn (Option f.Val) := Call.load layout f k
abbrev set (f : TokenGatingKey) (k : f.Key) (v : f.Val) : Fn Unit := Call.store layout f k v

/-! ## Functions -/

/-- `get_owner` -/
def getOwner : Fn Address := do unwrapOr (← get .owner ()) .unauthorized

/-- `get_tier_or_panic` -/
def getTierOrPanic (tierId : Symbol) : Fn TokenTier := do unwrapOr (← get .tier tierId) .tierNotFound

/-- `get_next_listing_id` -/
def getNextListingId : Fn ℕ := do
  let current := (← get .nextListingId ()).getD 1
  set .nextListingId () (← addChecked 32 current 1)
  return current

/-- `initialize` -/
def initializeOwner (owner : Address) : Fn Unit := do
  requireAuth owner
  rejectIf (← get .owner ()).isSome .unauthorized
  set .owner () owner

/-- `create_token_tier` -/
def createTokenTier (tierId : Symbol) (description : String) (tokenRequirements : List TokenSpec)
    (purchasePrice durationLedgers : ℕ) (tradeable : Bool) : Fn TokenTier := do
  let owner ← getOwner
  requireAuth owner
  rejectIf (tokenRequirements = []) .invalidTokenSpec
  let tier : TokenTier :=
    { tierId, description, tokenRequirements, purchasePrice, durationLedgers, tradeable, enabled := true }
  set .tier tierId tier
  return tier

/-- `set_tier_enabled` -/
def setTierEnabled (tierId : Symbol) (enabled : Bool) : Fn Unit := do
  let owner ← getOwner
  requireAuth owner
  let tier ← getTierOrPanic tierId
  set .tier tierId { tier with enabled }

/-- `has_tier_access` -/
def hasTierAccess (user : Address) (tierId : Symbol) : Fn Bool := do
  let sequence := (← getEnv).sequence
  return ((← get .userTiers user).getD []).any fun holding => holding.opens tierId sequence

/-- `grant_tier_to_user` -/
def grantTierToUser (user : Address) (tierId : Symbol) (durationLedgers : ℕ) : Fn Unit := do
  let tier ← getTierOrPanic tierId
  rejectIf (tier.enabled = false) .tierDisabled
  let holdings := (← get .userTiers user).getD []
  let env ← getEnv
  let expiryLedger ← if 0 < durationLedgers then addChecked 32 env.sequence durationLedgers else pure 0
  let holding : TierHolding :=
    { holder := user, tierId, expiryLedger, purchasedAt := env.timestamp, verified := true }
  set .userTiers user (holdings ++ [holding])

/-- `list_tier_for_sale`; the seller is `env.invoker()`. -/
def listTierForSale (seller : Address) (tierId : Symbol) (price quantity : ℕ) : Fn ℕ := do
  rejectIf ((← hasTierAccess seller tierId) = false) .insufficientTier
  let tier ← getTierOrPanic tierId
  rejectIf (tier.tradeable = false) .unauthorized
  let listingId ← getNextListingId
  set .marketplaceListing listingId
    { seller, tierId, price, quantity, active := true, createdAt := (← getEnv).timestamp }
  return listingId

/-- `purchase_from_marketplace` -/
def purchaseFromMarketplace (listingId : ℕ) (buyer : Address) : Fn Unit := do
  requireAuth buyer
  let listing ← unwrapOr (← get .marketplaceListing listingId) .listingNotFound
  rejectIf (listing.active = false) .listingNotFound
  rejectIf (0 < listing.quantity ∧ listing.quantity < 1) .insufficientInventory
  let tier ← getTierOrPanic listing.tierId
  grantTierToUser buyer tier.tierId tier.durationLedgers
  set .marketplaceListing listingId listing.sold

/-- `cancel_marketplace_listing` -/
def cancelMarketplaceListing (listingId : ℕ) : Fn Unit := do
  let listing ← unwrapOr (← get .marketplaceListing listingId) .listingNotFound
  requireAuth listing.seller
  set .marketplaceListing listingId { listing with active := false }

/-! ## Calls -/

inductive Op where
  | initializeOwner (owner : Address)
  | createTokenTier (tierId : Symbol) (description : String) (tokenRequirements : List TokenSpec)
      (purchasePrice durationLedgers : ℕ) (tradeable : Bool)
  | setTierEnabled (tierId : Symbol) (enabled : Bool)
  | grantTierToUser (user : Address) (tierId : Symbol) (durationLedgers : ℕ)
  | listTierForSale (invoker : Address) (tierId : Symbol) (price quantity : ℕ)
  | purchaseFromMarketplace (listingId : ℕ) (buyer : Address)
  | cancelMarketplaceListing (listingId : ℕ)
  deriving DecidableEq

/-- What a call does; the result is the listing it makes, with its quantity. -/
def exec : Op → Fn (Option (ℕ × ℕ))
  | .initializeOwner owner => do
    initializeOwner owner
    return none
  | .createTokenTier tierId description tokenRequirements purchasePrice durationLedgers tradeable => do
    let _ ← createTokenTier tierId description tokenRequirements purchasePrice durationLedgers tradeable
    return none
  | .setTierEnabled tierId enabled => do
    setTierEnabled tierId enabled
    return none
  | .grantTierToUser user tierId durationLedgers => do
    grantTierToUser user tierId durationLedgers
    return none
  | .listTierForSale invoker tierId price quantity =>
    return some (← listTierForSale invoker tierId price quantity, quantity)
  | .purchaseFromMarketplace listingId buyer => do
    purchaseFromMarketplace listingId buyer
    return none
  | .cancelMarketplaceListing listingId => do
    cancelMarketplaceListing listingId
    return none

/-! ## Effects -/

/-- What is stored. -/
structure View where
  owner : Option Address
  tiers : Symbol → Option TokenTier
  holdings : Address → List TierHolding
  listings : ℕ → Option MarketplaceListingDetails
  next : ℕ

def view (s : State) : View where
  owner := s.inst .owner ()
  tiers := s.inst .tier
  holdings := fun user => (s.inst .userTiers user).getD []
  listings := s.inst .marketplaceListing
  next := (s.inst .nextListingId ()).getD 1

/-- `has_tier_access`, at a ledger. -/
def View.access (v : View) (user : Address) (tierId : Symbol) (sequence : ℕ) : Bool :=
  (v.holdings user).any fun holding => holding.opens tierId sequence

/-- The user has one more holding. -/
def View.hold (v : View) (user : Address) (holding : TierHolding) : View :=
  { v with holdings := Function.update v.holdings user (v.holdings user ++ [holding]) }

section
variable {env : Env} {s : State}

@[simp] theorem view_putOwner {a : Address} : view (s.put .owner () a) = { view s with owner := some a } := by
  simp [view]

@[simp] theorem view_putTier {t : Symbol} {tier : TokenTier} :
    view (s.put .tier t tier) = { view s with tiers := Function.update (view s).tiers t (some tier) } := by
  simp [view]

@[simp] theorem view_putUserTiers {u : Address} {l : List TierHolding} :
    view (s.put .userTiers u l) = { view s with holdings := Function.update (view s).holdings u l } := by
  have hholdings : (fun u' => (Function.update (s.inst .userTiers) u (some l) u').getD []) =
      Function.update (fun u' => (s.inst .userTiers u').getD []) u l := by
    funext u'
    rcases eq_or_ne u' u with rfl | hne
    · simp
    · simp [hne]
  simp [view, hholdings]

@[simp] theorem view_putMarketplaceListing {i : ℕ} {l : MarketplaceListingDetails} :
    view (s.put .marketplaceListing i l) =
      { view s with listings := Function.update (view s).listings i (some l) } := by
  simp [view]

@[simp] theorem view_putNextListingId {n : ℕ} : view (s.put .nextListingId () n) =
    { view s with next := n } := by
  simp [view]

/-- What a call that succeeds does. -/
inductive Effect (v : View) (env : Env) : Op → Option (ℕ × ℕ) → View → Prop
  | initializeOwner {a : Address} (hnone : v.owner = none) :
      Effect v env (.initializeOwner a) none { v with owner := some a }
  | createTokenTier {t : Symbol} {text : String} {specs : List TokenSpec} {price d : ℕ} {tradeable : Bool}
      {tier : TokenTier} (htier : tier.tierId = t) :
      Effect v env (.createTokenTier t text specs price d tradeable) none
        { v with tiers := Function.update v.tiers t (some tier) }
  | setTierEnabled {t : Symbol} {enabled : Bool} {tier tier' : TokenTier} (htier : v.tiers t = some tier)
      (hsame : tier'.tierId = tier.tierId) :
      Effect v env (.setTierEnabled t enabled) none { v with tiers := Function.update v.tiers t (some tier') }
  | grantTierToUser {u : Address} {t : Symbol} {d : ℕ} {holding : TierHolding} (hholding : holding.tierId = t)
      (hopens : holding.opens t 0 = true) : Effect v env (.grantTierToUser u t d) none (v.hold u holding)
  | listTierForSale {a : Address} {t : Symbol} {price q : ℕ} {listing : MarketplaceListingDetails}
      (hquantity : listing.quantity = q) (hactive : listing.active = true) :
      Effect v env (.listTierForSale a t price q) (some (v.next, q))
        { v with listings := Function.update v.listings v.next (some listing), next := v.next + 1 }
  | purchaseFromMarketplace {i : ℕ} {b : Address} {listing : MarketplaceListingDetails} {tier : TokenTier}
      {holding : TierHolding} (hauth : env.auth b = true) (hlisting : v.listings i = some listing)
      (hactive : listing.active = true) (htier : v.tiers listing.tierId = some tier)
      (hholding : holding.tierId = tier.tierId) (hopens : holding.opens tier.tierId 0 = true) :
      Effect v env (.purchaseFromMarketplace i b) none
        { v.hold b holding with listings := Function.update v.listings i (some listing.sold) }
  | cancelMarketplaceListing {i : ℕ} {listing : MarketplaceListingDetails}
      (hlisting : v.listings i = some listing) :
      Effect v env (.cancelMarketplaceListing i) none
        { v with listings := Function.update v.listings i (some { listing with active := false }) }

/-- **A grant** adds a holding of the tier. -/
theorem post_grantTierToUser {u : Address} {t : Symbol} {d : ℕ} {Q : Unit → State → Prop}
    (hQ : ∀ holding s', holding.tierId = t → holding.opens t 0 = true →
      view s' = (view s).hold u holding → Q () s') :
    Post (grantTierToUser u t d) Q env s := by
  simp [grantTierToUser, getTierOrPanic]
  intro tier _ _
  refine ⟨fun hd _ => ?_, fun _ => ?_⟩
  · refine hQ _ _ rfl ?_ view_putUserTiers
    have hpos : 0 < env.sequence + d := by omega
    simp [TierHolding.opens, hpos]
  · refine hQ _ _ rfl ?_ view_putUserTiers
    simp [TierHolding.opens]

theorem effect_of_exec {op : Op} : Post (exec op) (fun r s' => Effect (view s) env op r (view s')) env s := by
  cases op with
  | initializeOwner a =>
    simp [exec, initializeOwner]
    exact fun _ hnone => .initializeOwner hnone
  | createTokenTier t text specs price d tradeable =>
    simp [exec, createTokenTier, getOwner]
    exact fun _ _ _ _ => .createTokenTier rfl
  | setTierEnabled t enabled =>
    simp [exec, setTierEnabled, getOwner, getTierOrPanic]
    exact fun _ _ _ tier htier => .setTierEnabled htier rfl
  | grantTierToUser u t d =>
    simp only [exec, post_bind]
    refine post_grantTierToUser fun holding s' hholding hopens hs' => ?_
    rw [post_pure, hs']
    exact .grantTierToUser hholding hopens
  | listTierForSale a t price q =>
    simp [exec, listTierForSale, hasTierAccess, getTierOrPanic, getNextListingId]
    intros
    exact .listTierForSale rfl rfl
  | purchaseFromMarketplace i b =>
    simp [exec, purchaseFromMarketplace, getTierOrPanic]
    intro hauth listing hlisting hactive _ tier htier
    refine post_grantTierToUser fun holding s' hholding hopens hs' => ?_
    simp [hs']
    exact .purchaseFromMarketplace hauth hlisting hactive htier hholding hopens
  | cancelMarketplaceListing i =>
    simp [exec, cancelMarketplaceListing]
    exact fun listing hlisting _ => .cancelMarketplaceListing hlisting

end

end TokenGating
