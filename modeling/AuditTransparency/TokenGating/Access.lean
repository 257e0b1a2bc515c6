/-
  TokenGating — where the access to a tier comes from.

  The calls of a run that make a holding of a user are, one by one, those of the user's list, so
  the k-th of them is where the k-th holding comes from (`makers`).  A listing is asked for the
  seller's access when it is made, and not when it is bought; a grant asks nobody.

  `run_gated`: exactly when all access comes from the owner or from a sale by a holder, and the
  sales stay within the listings, throughout a run (`Gated`, `Sound`).
-/
import AuditTransparency.TokenGating.Contract
import AuditTransparency.Soroban.Lookup
import Mathlib.Data.List.Forall2

namespace TokenGating

open Soroban
open Soroban.Call

/-! ## What a run has done -/

/-- A state and a call made from it. -/
abbrev Step := State × (Env × Op)

/-- The call makes a holding of the user. -/
def Op.makes (user : Address) : Op → Bool
  | .grantTierToUser user' _ _ => decide (user' = user)
  | .purchaseFromMarketplace _ buyer => decide (buyer = user)
  | _ => false

def Op.buys (listingId : ℕ) : Op → Bool
  | .purchaseFromMarketplace listingId' _ => decide (listingId' = listingId)
  | _ => false

/-- The calls that made the holdings of the user, in order. -/
def makers (tr : List Step) (user : Address) : List Step := tr.filter fun p => p.2.2.makes user

/-- The purchases from a listing. -/
def sales (tr : List Step) (listingId : ℕ) : ℕ := tr.countP fun p => p.2.2.buys listingId

/-- The listing that a call makes, with its quantity. -/
def listedBy (p : Step) : Option (ℕ × ℕ) :=
  match (exec p.2.2).run p.2.1 p.1 with
  | .ok (r, _) => r
  | .error _ => none

/-- The listings that were made, with the quantities they were made with. -/
def listed (tr : List Step) : List (ℕ × ℕ) := tr.filterMap listedBy

/-! ## Gated access -/

def ByOwner (v : View) (env : Env) : Prop := ∃ a, v.owner = some a ∧ env.auth a = true

/-- A purchase of the tier, authorised by the user, from someone who has access to it. -/
def FromHolder (v : View) (env : Env) (op : Op) (user : Address) (tierId : Symbol) : Prop :=
  ∃ i listing, op = .purchaseFromMarketplace i user ∧ env.auth user = true ∧ v.listings i = some listing ∧
    listing.tierId = tierId ∧ v.access listing.seller tierId env.sequence = true

/-- What the holding opens comes from the owner, or from a sale of held access. -/
def Legit (user : Address) (p : Step) (holding : TierHolding) : Prop :=
  ∀ tierId sequence, holding.opens tierId sequence = true →
    ByOwner (view p.1) p.2.1 ∨ FromHolder (view p.1) p.2.1 p.2.2 user tierId

structure Gated (tr : List Step) (v : View) : Prop where
  access : ∀ user, List.Forall₂ (Legit user) (makers tr user) (v.holdings user)
  quantity : ∀ i q, (i, q) ∈ listed tr → sales tr i ≤ q
  cancelled : tr.Pairwise fun p p' => ∀ i, p.2.2 = .cancelMarketplaceListing i → p'.2.2.buys i = false

/-- A grant is authorised by the owner.  A purchase is from a listing that is not unlimited, and it is authorised by
    the owner too, or the seller still has access to the tier. -/
def Sound (v : View) (env : Env) : Op → Prop
  | .grantTierToUser _ _ _ => ByOwner v env
  | .purchaseFromMarketplace i _ => ∀ listing, v.listings i = some listing →
      listing.quantity ≠ 0 ∧ (ByOwner v env ∨ v.access listing.seller listing.tierId env.sequence = true)
  | _ => True

/-- What is left of a listing that was made with the quantity `q`, after `n` purchases. -/
def Stock (q n : ℕ) (listing : MarketplaceListingDetails) : Prop :=
  (q = 0 → listing.quantity = 0) ∧
    (q ≠ 0 → listing.quantity + n = q ∧ (listing.active = true → listing.quantity ≠ 0))

/-- What the listings say of the run. -/
structure Kept (tr : List Step) (v : View) : Prop where
  tiers : ∀ t tier, v.tiers t = some tier → tier.tierId = t
  fresh : ∀ i, v.next ≤ i → v.listings i = none
  known : ∀ i, (v.listings i).isSome → ∃ q, (i, q) ∈ listed tr
  stock : ∀ i q, (i, q) ∈ listed tr → ∃ listing, v.listings i = some listing ∧ Stock q (sales tr i) listing
  unsold : ∀ i, v.listings i = none → sales tr i = 0
  closed : ∀ p ∈ tr, ∀ i, p.2.2 = .cancelMarketplaceListing i →
    ∃ listing, v.listings i = some listing ∧ listing.active = false

/-! ## One more call -/

theorem forall₂_concat {α β : Type} {R : α → β → Prop} {l : List α} {l' : List β} {a : α} {b : β} :
    List.Forall₂ R (l ++ [a]) (l' ++ [b]) ↔ List.Forall₂ R l l' ∧ R a b := by
  rw [← List.forall₂_reverse_iff, List.reverse_append, List.reverse_append, List.reverse_singleton,
    List.reverse_singleton, List.singleton_append, List.singleton_append, List.forall₂_cons,
    List.forall₂_reverse_iff, and_comm]

theorem makers_concat (tr : List Step) (p : Step) (u : Address) :
    makers (tr ++ [p]) u = if p.2.2.makes u = true then makers tr u ++ [p] else makers tr u := by
  rw [makers, List.filter_append, List.filter_singleton]
  cases p.2.2.makes u
  · exact List.append_nil _
  · rfl

theorem sales_concat (tr : List Step) (p : Step) (i : ℕ) :
    sales (tr ++ [p]) i = sales tr i + if p.2.2.buys i = true then 1 else 0 := by
  rw [sales, List.countP_append, List.countP_singleton, ← sales]

theorem listed_concat (tr : List Step) (p : Step) : listed (tr ++ [p]) = listed tr ++ (listedBy p).toList :=
  filterMap_concat

theorem pairwise_concat {α : Type} {R : α → α → Prop} {l : List α} {a : α} :
    (l ++ [a]).Pairwise R ↔ l.Pairwise R ∧ ∀ b ∈ l, R b a := by
  simp [List.pairwise_append]

section
variable {tr : List Step} {p : Step} {v v' : View} {env : Env} {s : State} {op : Op} {r : Option (ℕ × ℕ)}

theorem sales_of_not_buys {i : ℕ} (hbuys : p.2.2.buys i = false) : sales (tr ++ [p]) i = sales tr i := by
  rw [sales_concat, hbuys]
  rfl

/-- A call that leaves the listings as they are. -/
theorem Kept.frame (h : Kept tr v) (hlistings : v'.listings = v.listings) (hnext : v'.next = v.next)
    (htiers : ∀ t tier, v'.tiers t = some tier → tier.tierId = t) (hlisted : listedBy p = none)
    (hbuys : ∀ i, p.2.2.buys i = false) (hcancel : ∀ i, p.2.2 ≠ .cancelMarketplaceListing i) :
    Kept (tr ++ [p]) v' := by
  have hlist : listed (tr ++ [p]) = listed tr := by
    rw [listed_concat, hlisted]
    exact List.append_nil _
  refine ⟨htiers, ?_, ?_, ?_, ?_, ?_⟩
  · rw [hlistings, hnext]
    exact h.fresh
  · rw [hlistings, hlist]
    exact h.known
  · simpa only [hlistings, hlist, sales_of_not_buys (hbuys _)] using h.stock
  · simpa only [hlistings, sales_of_not_buys (hbuys _)] using h.unsold
  · rw [hlistings]
    intro p' hp' i hi
    rcases List.mem_append.1 hp' with hp' | hp'
    · exact h.closed p' hp' i hi
    · rw [List.mem_singleton.1 hp'] at hi
      exact absurd hi (hcancel i)

/-- What is known of the tiers, after one was written under its own id. -/
theorem tiers_update (h : Kept tr v) {t : Symbol} {tier : TokenTier} (htier : tier.tierId = t) :
    ∀ t' tier', Function.update v.tiers t (some tier) t' = some tier' → tier'.tierId = t' := by
  intro t' tier' ht'
  rcases update_cases ht' with ⟨rfl, rfl⟩ | ⟨-, ht'⟩
  · exact htier
  · exact h.tiers t' tier' ht'

/-- A listing is made. -/
theorem Kept.list (h : Kept tr v) {q : ℕ} {listing : MarketplaceListingDetails}
    (hquantity : listing.quantity = q)
    (hlisted : listedBy p = some (v.next, q)) (hbuys : ∀ i, p.2.2.buys i = false)
    (hcancel : ∀ i, p.2.2 ≠ .cancelMarketplaceListing i) :
    Kept (tr ++ [p]) { v with listings := Function.update v.listings v.next (some listing), next := v.next + 1 } := by
  have hnone : v.listings v.next = none := h.fresh _ le_rfl
  have hne : ∀ {i listing'}, v.listings i = some listing' → i ≠ v.next := by
    rintro i listing' hi rfl
    rw [hnone] at hi
    cases hi
  have hlist : listed (tr ++ [p]) = listed tr ++ [(v.next, q)] := by
    rw [listed_concat, hlisted]
    rfl
  refine ⟨h.tiers, fun i hi => ?_, fun i hi => ?_, fun i q' hiq => ?_, fun i hi => ?_, fun p' hp' i hi => ?_⟩
  · exact (Function.update_of_ne (Nat.ne_of_gt hi) _ _).trans (h.fresh i (Nat.le_of_succ_le hi))
  · rw [hlist]
    rcases eq_or_ne i v.next with rfl | hi'
    · exact ⟨q, by simp⟩
    · obtain ⟨q', hq'⟩ := h.known i (by simpa [hi'] using hi)
      exact ⟨q', List.mem_append_left _ hq'⟩
  · rw [sales_of_not_buys (hbuys i)]
    rw [hlist, List.mem_append, List.mem_singleton] at hiq
    rcases hiq with hiq | hiq
    · obtain ⟨l, hl, hstock⟩ := h.stock i q' hiq
      exact ⟨l, (Function.update_of_ne (hne hl) _ _).trans hl, hstock⟩
    · cases hiq
      refine ⟨listing, Function.update_self .., fun hq => hquantity.trans hq, fun hq => ?_⟩
      rw [h.unsold _ hnone, hquantity]
      exact ⟨rfl, fun _ => hq⟩
  · rw [sales_of_not_buys (hbuys i)]
    refine h.unsold i ?_
    rcases eq_or_ne i v.next with rfl | hi'
    · exact hnone
    · simpa [hi'] using hi
  · rcases List.mem_append.1 hp' with hp' | hp'
    · obtain ⟨l, hl, hactive⟩ := h.closed p' hp' i hi
      exact ⟨l, (Function.update_of_ne (hne hl) _ _).trans hl, hactive⟩
    · rw [List.mem_singleton.1 hp'] at hi
      exact absurd hi (hcancel i)

/-- The stock of a listing. -/
theorem Kept.stock_of (h : Kept tr v) {i q : ℕ} {listing : MarketplaceListingDetails}
    (hlisting : v.listings i = some listing) (hq : (i, q) ∈ listed tr) : Stock q (sales tr i) listing := by
  obtain ⟨l, hl, hstock⟩ := h.stock i q hq
  rw [hlisting] at hl
  obtain rfl := Option.some.inj hl
  exact hstock

/-- A listing that was cancelled. -/
theorem Kept.inactive_of (h : Kept tr v) {i : ℕ} {listing : MarketplaceListingDetails}
    (hlisting : v.listings i = some listing) (hp : p ∈ tr) (hi : p.2.2 = .cancelMarketplaceListing i) :
    listing.active = false := by
  obtain ⟨l, hl, hinactive⟩ := h.closed p hp i hi
  rw [hlisting] at hl
  obtain rfl := Option.some.inj hl
  exact hinactive

/-- A listing is replaced. -/
theorem Kept.replace (h : Kept tr v) {i : ℕ} {listing listing' : MarketplaceListingDetails}
    (hlisting : v.listings i = some listing) (hv : v'.listings = Function.update v.listings i (some listing'))
    (hnext : v'.next = v.next) (htiers : v'.tiers = v.tiers) (hlisted : listedBy p = none)
    (hstock : ∀ q, Stock q (sales tr i) listing → Stock q (sales (tr ++ [p]) i) listing')
    (hbuys : ∀ j, j ≠ i → p.2.2.buys j = false) (hactive : listing.active = false → listing'.active = false)
    (hcancel : ∀ j, p.2.2 = .cancelMarketplaceListing j → j = i ∧ listing'.active = false) :
    Kept (tr ++ [p]) v' := by
  have hlist : listed (tr ++ [p]) = listed tr := by
    rw [listed_concat, hlisted]
    exact List.append_nil _
  have hself : v'.listings i = some listing' := by
    rw [hv]
    exact Function.update_self ..
  have hother : ∀ {j}, j ≠ i → v'.listings j = v.listings j := by
    intro j hj
    rw [hv]
    exact Function.update_of_ne hj ..
  refine ⟨htiers ▸ h.tiers, fun j hj => ?_, fun j hj => ?_, fun j q hjq => ?_, fun j hj => ?_,
    fun p' hp' j hj => ?_⟩
  · have hnone : v.listings j = none := h.fresh j (hnext ▸ hj)
    have hne : j ≠ i := by
      rintro rfl
      rw [hlisting] at hnone
      cases hnone
    exact (hother hne).trans hnone
  · rw [hlist]
    rcases eq_or_ne j i with rfl | hne
    · exact h.known j (by rw [hlisting]; rfl)
    · exact h.known j (hother hne ▸ hj)
  · rw [hlist] at hjq
    rcases eq_or_ne j i with rfl | hne
    · exact ⟨listing', hself, hstock q (h.stock_of hlisting hjq)⟩
    · rw [sales_of_not_buys (hbuys j hne), hother hne]
      exact h.stock j q hjq
  · have hne : j ≠ i := by
      rintro rfl
      rw [hself] at hj
      cases hj
    rw [sales_of_not_buys (hbuys j hne)]
    exact h.unsold j (hother hne ▸ hj)
  · rcases List.mem_append.1 hp' with hp' | hp'
    · rcases eq_or_ne j i with rfl | hne
      · exact ⟨listing', hself, hactive (h.inactive_of hlisting hp' hj)⟩
      · rw [hother hne]
        exact h.closed p' hp' j hj
    · rw [List.mem_singleton.1 hp'] at hj
      obtain ⟨rfl, hinactive⟩ := hcancel j hj
      exact ⟨listing', hself, hinactive⟩

/-- A purchase takes one of the stock. -/
theorem Stock.sold {q n : ℕ} {listing : MarketplaceListingDetails} (h : Stock q n listing)
    (hactive : listing.active = true) : Stock q (n + 1) listing.sold := by
  rw [MarketplaceListingDetails.sold]
  constructor
  · intro hq
    rw [if_neg (Nat.not_lt.2 (Nat.le_of_eq (h.1 hq)))]
    exact h.1 hq
  · intro hq
    obtain ⟨hsum, hpos⟩ := h.2 hq
    have hpos : 0 < listing.quantity := Nat.pos_of_ne_zero (hpos hactive)
    rw [if_pos hpos]
    refine ⟨?_, fun hleft hzero => ?_⟩
    · dsimp only
      omega
    · dsimp only at hleft hzero
      rw [if_pos hzero] at hleft
      cases hleft

/-- **The step lemma** of what the listings say. -/
theorem Kept.step (h : Kept tr (view s)) (hr : listedBy (s, (env, op)) = r)
    (heffect : Effect (view s) env op r v') :
    Kept (tr ++ [(s, (env, op))]) v' := by
  cases heffect with
  | initializeOwner =>
    exact h.frame rfl rfl h.tiers hr (fun _ => rfl) fun _ hc => by cases hc
  | createTokenTier htier =>
    exact h.frame rfl rfl (tiers_update h htier) hr (fun _ => rfl) fun _ hc => by cases hc
  | setTierEnabled htier hsame =>
    exact h.frame rfl rfl (tiers_update h (hsame.trans (h.tiers _ _ htier))) hr (fun _ => rfl)
      fun _ hc => by cases hc
  | grantTierToUser =>
    exact h.frame rfl rfl h.tiers hr (fun _ => rfl) fun _ hc => by cases hc
  | listTierForSale hquantity _ =>
    exact h.list hquantity hr (fun _ => rfl) fun _ hc => by cases hc
  | @purchaseFromMarketplace i b listing _ _ _ hlisting hactive =>
    refine h.replace hlisting rfl rfl rfl hr (fun q hq => ?_) (fun j hj => decide_eq_false hj.symm)
      (fun hinactive => ?_)
      fun j hc => by cases hc
    · have hbuys : (Op.purchaseFromMarketplace i b).buys i = true := decide_eq_true rfl
      rw [sales_concat, if_pos hbuys]
      exact hq.sold hactive
    · rw [hactive] at hinactive
      cases hinactive
  | cancelMarketplaceListing hlisting =>
    refine h.replace hlisting rfl rfl rfl hr (fun q hq => ?_) (fun _ _ => rfl) (fun _ => rfl) fun j hc => ?_
    · rw [sales_of_not_buys rfl]
      exact ⟨hq.1, fun h0 => ⟨(hq.2 h0).1, fun hc => by cases hc⟩⟩
    · cases hc
      exact ⟨rfl, rfl⟩

/-- A call that makes no holding and buys nothing. -/
theorem Gated.frame (h : Gated tr v) (hholdings : v'.holdings = v.holdings)
    (hmakes : ∀ u, p.2.2.makes u = false)
    (hbuys : ∀ i, p.2.2.buys i = false) (hlisted : ∀ l, listedBy p = some l → sales tr l.1 = 0) :
    Gated (tr ++ [p]) v' := by
  refine ⟨fun u => ?_, fun i q hiq => ?_, pairwise_concat.2 ⟨h.cancelled, fun _ _ i _ => hbuys i⟩⟩
  · rw [makers_concat, hmakes, hholdings]
    exact h.access u
  · rw [sales_of_not_buys (hbuys i)]
    rw [listed_concat, List.mem_append, Option.mem_toList] at hiq
    rcases hiq with hiq | hiq
    · exact h.quantity i q hiq
    · exact Nat.le_trans (Nat.le_of_eq (hlisted _ hiq)) (Nat.zero_le q)

/-- One more holding, of the user `u` alone. -/
theorem access_made (h : Gated tr v) {u : Address} {holding : TierHolding}
    (hholdings : v'.holdings = Function.update v.holdings u (v.holdings u ++ [holding]))
    (hmakes : ∀ u', p.2.2.makes u' = decide (u = u')) :
    (∀ u', List.Forall₂ (Legit u') (makers (tr ++ [p]) u') (v'.holdings u')) ↔ Legit u p holding := by
  constructor
  · intro h'
    have hu := h' u
    rw [makers_concat, hmakes, if_pos (decide_eq_true rfl), hholdings, Function.update_self] at hu
    exact (forall₂_concat.1 hu).2
  · intro hlegit u'
    rw [makers_concat, hmakes, hholdings]
    rcases eq_or_ne u u' with rfl | hne
    · rw [if_pos (decide_eq_true rfl), Function.update_self]
      exact forall₂_concat.2 ⟨h.access u, hlegit⟩
    · rw [decide_eq_false hne, Function.update_of_ne hne.symm]
      exact h.access u'

/-- **A grant.** -/
theorem legit_grant {u : Address} {t : Symbol} {d : ℕ} {holding : TierHolding}
    (hopens : holding.opens t 0 = true) :
    Legit u (s, (env, .grantTierToUser u t d)) holding ↔ ByOwner (view s) env := by
  constructor
  · intro h
    rcases h t 0 hopens with h | ⟨_, _, hop, -⟩
    · exact h
    · cases hop
  · intro h _ _ _
    exact Or.inl h

theorem tierId_of_opens {holding : TierHolding} {t : Symbol} {n : ℕ} (h : holding.opens t n = true) :
    holding.tierId = t := by
  simp only [TierHolding.opens, Bool.and_eq_true, decide_eq_true_eq] at h
  exact h.1.1

/-- **A purchase.** -/
theorem legit_purchase {i : ℕ} {u : Address} {listing : MarketplaceListingDetails} {holding : TierHolding}
    (hauth : env.auth u = true) (hlisting : (view s).listings i = some listing)
    (hholding : holding.tierId = listing.tierId) (hopens : holding.opens listing.tierId 0 = true) :
    Legit u (s, (env, .purchaseFromMarketplace i u)) holding ↔
      ByOwner (view s) env ∨ (view s).access listing.seller listing.tierId env.sequence = true := by
  constructor
  · intro h
    refine (h _ 0 hopens).imp_right ?_
    rintro ⟨j, listing', hop, -, hlisting', -, haccess⟩
    cases hop
    rw [hlisting] at hlisting'
    obtain rfl := Option.some.inj hlisting'
    exact haccess
  · intro h t n ht
    obtain rfl : listing.tierId = t := hholding.symm.trans (tierId_of_opens ht)
    exact h.imp_right fun haccess => ⟨i, listing, rfl, hauth, hlisting, rfl, haccess⟩

/-- **The step lemma.** -/
theorem Gated.step (h : Gated tr (view s)) (hkept : Kept tr (view s)) (hr : listedBy (s, (env, op)) = r)
    (heffect : Effect (view s) env op r v') : Gated (tr ++ [(s, (env, op))]) v' ↔ Sound (view s) env op := by
  have hnothing : r = none → ∀ l, listedBy (s, (env, op)) = some l → sales tr l.1 = 0 := by
    rintro rfl l hl
    rw [hr] at hl
    cases hl
  cases heffect with
  | initializeOwner | createTokenTier | setTierEnabled =>
    exact iff_of_true (h.frame rfl (fun _ => rfl) (fun _ => rfl) (hnothing rfl)) trivial
  | listTierForSale =>
    refine iff_of_true (h.frame rfl (fun _ => rfl) (fun _ => rfl) fun l hl => ?_) trivial
    rw [hr] at hl
    cases hl
    exact hkept.unsold _ (hkept.fresh _ le_rfl)
  | cancelMarketplaceListing =>
    exact iff_of_true (h.frame rfl (fun _ => rfl) (fun _ => rfl) (hnothing rfl)) trivial
  | @grantTierToUser u t d holding _ hopens =>
    have haccess := access_made (p := (s, (env, .grantTierToUser u t d))) h
      (show ((view s).hold u holding).holdings = _ from rfl) fun _ => rfl
    rw [legit_grant hopens] at haccess
    constructor
    · exact fun h' => haccess.1 h'.access
    · intro howner
      refine ⟨haccess.2 howner, fun i q hiq => ?_, pairwise_concat.2 ⟨h.cancelled, fun _ _ _ _ => rfl⟩⟩
      rw [sales_of_not_buys rfl]
      rw [listed_concat, hr] at hiq
      exact h.quantity i q (by simpa using hiq)
  | @purchaseFromMarketplace i b listing tier holding hauth hlisting hactive htier hholding hopens =>
    obtain htierId : tier.tierId = listing.tierId := hkept.tiers _ _ htier
    have haccess := access_made (p := (s, (env, .purchaseFromMarketplace i b))) h
      (show View.holdings { (view s).hold b holding with
        listings := Function.update (view s).listings i (some listing.sold) } = _ from rfl) fun _ => rfl
    rw [legit_purchase hauth hlisting (hholding.trans htierId) (htierId ▸ hopens)] at haccess
    have hlist : listed (tr ++ [(s, (env, .purchaseFromMarketplace i b))]) = listed tr := by
      rw [listed_concat, hr]
      exact List.append_nil _
    have hbuys : (Op.purchaseFromMarketplace i b).buys i = true := decide_eq_true rfl
    have hsound : Sound (view s) env (.purchaseFromMarketplace i b) ↔ listing.quantity ≠ 0 ∧
        (ByOwner (view s) env ∨ (view s).access listing.seller listing.tierId env.sequence = true) := by
      simp [Sound, hlisting]
    rw [hsound]
    obtain ⟨q, hq⟩ := hkept.known i (by rw [hlisting]; rfl)
    have hstock := hkept.stock_of hlisting hq
    constructor
    · intro h'
      refine ⟨fun hzero => ?_, haccess.1 h'.access⟩
      -- an active listing without stock was made with the quantity zero
      have hmade : q = 0 := by
        by_contra hne
        exact (hstock.2 hne).2 hactive hzero
      have hle := h'.quantity i q (hlist ▸ hq)
      rw [sales_concat, if_pos hbuys, hmade] at hle
      omega
    · rintro ⟨hpos, hby⟩
      refine ⟨haccess.2 hby, fun j q' hjq => ?_, pairwise_concat.2 ⟨h.cancelled, fun p' hp' j hj => ?_⟩⟩
      · rw [hlist] at hjq
        rcases eq_or_ne i j with rfl | hne
        · have hstock' := hkept.stock_of hlisting hjq
          have hne' : q' ≠ 0 := fun hzero => hpos (hstock'.1 hzero)
          have hsum := (hstock'.2 hne').1
          rw [sales_concat, if_pos hbuys]
          omega
        · have hother : (Op.purchaseFromMarketplace i b).buys j = false := decide_eq_false hne
          rw [sales_of_not_buys hother]
          exact h.quantity j q' hjq
      · refine decide_eq_false ?_
        rintro rfl
        have hinactive := hkept.inactive_of hlisting hp' hj
        rw [hactive] at hinactive
        cases hinactive

/-! ## Runs -/

theorem effect_of_step {c : Env × Op} {s' : State} (hs : Steps exec s c s') :
    Effect (view s) c.1 c.2 (listedBy (s, c)) (view s') := by
  obtain ⟨r, hr⟩ := hs
  have heffect := effect_of_exec.of_run hr
  have hby : listedBy (s, c) = r := by rw [listedBy, hr]
  rw [hby]
  exact heffect

/-- **Access comes from the owner or from a sale of held access**, and sales stay within the listings, in every
    state of exactly the runs of sound calls. -/
theorem run_gated (h : Run (Steps exec) Ledger.empty tr s) :
    ((∀ before p after, tr = before ++ p :: after → Gated before (view p.1)) ∧ Gated tr (view s)) ↔
      ∀ p ∈ tr, Sound (view p.1) p.2.1 p.2.2 := by
  refine Iff.trans (Run.throughout_iff_keeping (J := fun tr s => Kept tr (view s))
    (I := fun tr s => Gated tr (view s)) (C := fun _ p => Sound (view p.1) p.2.1 p.2.2) ?_
    (fun tr s c s' _ hs hkept _ => hkept.step rfl (effect_of_step hs)) ?_
    (fun tr s c s' _ hs hkept h => h.step hkept rfl (effect_of_step hs)) h) Run.forall_cut_iff
  · refine ⟨?_, fun _ _ => rfl, ?_, ?_, fun _ _ => rfl, ?_⟩
    · intro t tier htier
      cases htier
    · intro i hi
      cases hi
    · intro i q hiq
      cases hiq
    · intro p hp
      cases hp
  · exact ⟨fun _ => .nil, fun i q hiq => (by cases hiq), .nil⟩

end

/-! ## Scripts -/

def admin : Address := ⟨List.replicate 56 65, rfl⟩
def alice : Address := ⟨List.replicate 56 66, rfl⟩
def bob : Address := ⟨List.replicate 56 67, rfl⟩

/-- A call at ledger `n` that `a` authorises. -/
def callBy (a : Address) (n : ℕ) : Env := ⟨n, n, fun b => decide (b = a), fun _ => 0⟩

/-- The owner makes a tier. -/
def setupScript : List (Env × Op) :=
  [(callBy admin 1, .initializeOwner admin),
    (callBy admin 2, .createTokenTier "premium" "" [⟨.stellarAsset, [], 0, 1⟩] 10 100 true)]

/-- The owner grants it to Alice, who sells it to Bob. -/
def saleScript : List (Env × Op) :=
  setupScript ++ [(callBy admin 3, .grantTierToUser alice "premium" 50),
    (callBy alice 4, .listTierForSale alice "premium" 20 1), (callBy bob 5, .purchaseFromMarketplace 1 bob)]

theorem run_gated_saleScript :
    ∃ tr s, Run (Steps exec) Ledger.empty tr s ∧ tr.map Prod.snd = saleScript ∧
      (view s).access bob "premium" 6 = true ∧ Gated tr (view s) := by
  obtain ⟨s, hs⟩ : ∃ s, play exec Ledger.empty saleScript = some s := ⟨_, rfl⟩
  have haccess : (view s).access bob "premium" 6 = true := by
    cases hs
    decide
  refine ⟨_, s, run_of_play hs, map_snd_traceOf hs, haccess, ((run_gated (run_of_play hs)).2 ?_).2⟩
  refine List.forall_mem_cons.2 ⟨trivial, List.forall_mem_cons.2 ⟨trivial, List.forall_mem_cons.2 ⟨?_,
    List.forall_mem_cons.2 ⟨trivial, List.forall_mem_cons.2 ⟨?_, List.forall_mem_nil _⟩⟩⟩⟩⟩
  · exact ⟨admin, rfl, rfl⟩
  · intro listing hlisting
    cases hlisting
    exact ⟨by decide, Or.inr (by decide)⟩

/-- Bob grants the tier to himself. -/
def selfGrantScript : List (Env × Op) :=
  setupScript ++ [(callBy bob 3, .grantTierToUser bob "premium" 0)]

/-- **Anybody can grant a tier**, also to himself and for ever. -/
theorem not_gated :
    ∃ tr s, Run (Steps exec) Ledger.empty tr s ∧ tr.map Prod.snd = selfGrantScript ∧
      (∀ n, (view s).access bob "premium" n = true) ∧ ¬Gated tr (view s) := by
  obtain ⟨s, hs⟩ : ∃ s, play exec Ledger.empty selfGrantScript = some s := ⟨_, rfl⟩
  have haccess : ∀ n, (view s).access bob "premium" n = true := by
    cases hs
    intro n
    rfl
  refine ⟨_, s, run_of_play hs, map_snd_traceOf hs, haccess, fun h => ?_⟩
  cases hs
  obtain ⟨hlegit, -⟩ := List.forall₂_cons.1 (h.access bob)
  rcases hlegit "premium" 0 rfl with ⟨a, ha, hauth⟩ | ⟨_, _, hop, -⟩
  · cases ha
    exact absurd hauth (by decide)
  · cases hop

end TokenGating
