/-
  PredictionMarket — buying and selling back.

  A purchase is priced at the supply it leaves, and so is a sale.  The same shares are therefore
  sold at a price that is at least the one they were bought for: only rounding can keep a round
  trip from a profit.

  `round_trip`: the supplies are restored, and when there is no profit.
-/
import AuditTransparency.Markets.Solvency

namespace PredictionMarket

open Soroban
open Soroban.Call
open AuditLedger (openEnv account)

/-! ## Rounding -/

/-- Two products that are rounded to the same number: no step in between is worth a unit. -/
theorem mul_div_le_iff {q a b d : ℕ} :
    q * a / d ≤ q * b / d ↔ ∀ p, b < p → p ≤ a → q * p / d = q * (p - 1) / d := by
  constructor
  · intro hle p hb ha
    refine Nat.le_antisymm ?_ (Nat.div_le_div_right (Nat.mul_le_mul_left q (Nat.sub_le p 1)))
    calc q * p / d ≤ q * a / d := Nat.div_le_div_right (Nat.mul_le_mul_left q ha)
      _ ≤ q * b / d := hle
      _ ≤ q * (p - 1) / d := Nat.div_le_div_right (Nat.mul_le_mul_left q (by omega))
  · intro hsame
    by_cases hab : a ≤ b
    · exact Nat.div_le_div_right (Nat.mul_le_mul_left q hab)
    · have hup : ∀ k, b + k ≤ a → q * (b + k) / d = q * b / d := by
        intro k
        induction k with
        | zero => exact fun _ => rfl
        | succ k ih =>
          intro hk
          rw [hsame (b + (k + 1)) (by omega) hk]
          exact ih (by omega)
      have hall := hup (a - b) (by omega)
      rw [Nat.add_sub_of_le (by omega)] at hall
      exact hall.le

/-! ## Trades -/

/-- The price of a purchase, in basis points. -/
def Market.buyPrice (market : Market) (isYes : Bool) (quantity : ℕ) : ℕ :=
  market.supply (!isYes) * 10000 / (market.supply isYes + market.supply (!isYes) + quantity)

/-- **The price difference is lost in rounding**: no price between that of a sale and that of a purchase is
    one at which the shares are worth a unit more than at the price below. -/
def Market.RoundsAway (market : Market) (isYes : Bool) (quantity : ℕ) : Prop :=
  ∀ p, p * (market.supply isYes + market.supply (!isYes)) ≤ market.supply (!isYes) * 10000 →
    market.supply (!isYes) * 10000 < p * (market.supply isYes + market.supply (!isYes) + quantity) →
    quantity * p / 10000 = quantity * (p - 1) / 10000

/-- A call that trades at a market. -/
def Op.Trades (m : ℕ) : Op → Prop
  | .buyShares _ i .. | .sellShares _ i .. => i = m
  | _ => False

section
variable {s₀ s s' : State} {env : Env} {a : Address} {m n p q : ℕ} {b : Bool} {c : Env × Op} {x : Market}
  {tr : List (State × (Env × Op))}

@[simp] theorem supply_traded (x : Market) (b c : Bool) (n p : ℕ) :
    (x.traded b n p).supply c = if c = b then n else x.supply c := by
  cases b <;> cases c <;> rfl

/-- A purchase and its price. -/
theorem bought_at (hx : s.inst .market m = some x) (h : (buyShares a m b q p).run env s = .ok (n, s')) :
    n = x.buyPrice b q ∧ s'.inst .market m = some (x.traded b (x.supply b + q) n) := by
  refine Post.of_run (m := buyShares a m b q p) (Q := fun n s' => n = x.buyPrice b q ∧
    s'.inst .market m = some (x.traded b (x.supply b + q) n)) ?_ h
  simp only [buyShares, getPosition, post_bind, post_getMarketOrPanic, post_getEnv, post_rejectIf,
    post_mulChecked, post_addChecked, post_divChecked, post_load, post_store, post_pure, not_not]
  intro z hz _ _ _ _ _ _ _ _ _ _ _
  obtain rfl := Option.some.inj (hx.symm.trans hz)
  exact ⟨rfl, by simp⟩

/-- A sale and its price. -/
theorem sold_at (hx : s.inst .market m = some x) (h : (sellShares a m b q p).run env s = .ok (n, s')) :
    q ≤ x.supply b ∧ 0 < x.supply b - q + x.supply (!b) ∧ n = x.sellPrice b q ∧
      s'.inst .market m = some (x.traded b (x.supply b - q) n) := by
  refine Post.of_run (m := sellShares a m b q p) (Q := fun n s' => q ≤ x.supply b ∧
    0 < x.supply b - q + x.supply (!b) ∧ n = x.sellPrice b q ∧
    s'.inst .market m = some (x.traded b (x.supply b - q) n)) ?_ h
  simp only [sellShares, post_bind, post_getMarketOrPanic, post_getEnv, post_rejectIf, post_load,
    post_unwrapOr, post_mulChecked, post_subChecked, post_addChecked, post_divChecked, post_store, post_pure,
    not_not]
  intro z hz _ _ _ _ _ _ hle _ hpos _ _ _
  obtain rfl := Option.some.inj (hx.symm.trans hz)
  exact ⟨hle, Nat.pos_of_ne_zero hpos, rfl, by simp⟩

/-- The supplies of a market are `f`. -/
def Supplies (m : ℕ) (f : Bool → ℕ) (s : State) : Prop :=
  ∃ x, s.inst .market m = some x ∧ ∀ side, x.supply side = f side

/-- Nothing but a trade at the market changes its supplies. -/
theorem supplies_step {f : Bool → ℕ} (hs : Steps exec s c s')
    (hnew : ∀ i, nextMarketId s ≤ i → s.inst .market i = none) (hno : ¬c.2.Trades m)
    (h : Supplies m f s) : Supplies m f s' := by
  obtain ⟨env, op⟩ := c
  obtain ⟨r, hs⟩ := hs
  obtain ⟨x, hx, hf⟩ := h
  have other : ∀ i z, i ≠ m → (s.put .market i z).inst .market m = some x := fun i z hi =>
    (Function.update_of_ne (Ne.symm hi) ..).trans hx
  cases op with
  | createMarket a k t d l w n u v e g =>
    obtain ⟨i, hr, rfl⟩ := of_run_map _ _ hs
    obtain ⟨rfl, z, l, -, rfl⟩ := created hr
    have hi : nextMarketId s ≠ m := fun he => by
      rw [hnew m he.le] at hx
      cases hx
    exact ⟨x, other _ z hi, hf⟩
  | buyShares a i b q p =>
    obtain ⟨n, hr, rfl⟩ := of_run_map _ _ hs
    obtain ⟨z, y, l, -, -, rfl⟩ := bought hr
    exact ⟨x, other i _ hno, hf⟩
  | sellShares a i b q p =>
    obtain ⟨n, hr, rfl⟩ := of_run_map _ _ hs
    obtain ⟨z, y, l, -, -, -, rfl⟩ := sold hr
    exact ⟨x, other i _ hno, hf⟩
  | closeMarket i =>
    obtain ⟨_, hr, -⟩ := of_run_map _ _ hs
    obtain ⟨z, hz, -, rfl⟩ := closed hr
    by_cases hi : i = m
    · subst hi
      obtain rfl := Option.some.inj (hx.symm.trans hz)
      exact ⟨_, Function.update_self .., hf⟩
    · exact ⟨x, other i _ hi, hf⟩
  | resolveMarket a i o =>
    obtain ⟨_, hr, -⟩ := of_run_map _ _ hs
    obtain ⟨z, hz, -, rfl⟩ := resolved hr
    by_cases hi : i = m
    · subst hi
      obtain rfl := Option.some.inj (hx.symm.trans hz)
      exact ⟨_, Function.update_self .., hf⟩
    · exact ⟨x, other i _ hi, hf⟩
  | settlePosition i a =>
    obtain ⟨n, hr, rfl⟩ := of_run_map _ _ hs
    obtain ⟨z, o, y, -, -, -, -, ⟨-, -, rfl⟩ | ⟨-, -, -, -, -, rfl⟩⟩ := settled hr
    · exact ⟨x, hx, hf⟩
    · exact ⟨x, hx, hf⟩

/-- **A round trip** restores the supplies, and makes no profit exactly when the price difference is lost
    in rounding. -/
theorem round_trip {before after : List (State × (Env × Op))} {s₁ s₂ s₃ : State} {env' : Env}
    {maxPrice minPrice : ℕ} (h₀ : NoMarkets s₀) (hrun : Run (Steps exec) s₀ before s)
    (hx : s.inst .market m = some x)
    (hbuy : Steps exec s (env, .buyShares a m b q maxPrice) s₁)
    (hbetween : Run (Steps exec) s₁ after s₂) (hno : ∀ p ∈ after, ¬p.2.2.Trades m)
    (hsell : Steps exec s₂ (env', .sellShares a m b q minPrice) s₃) :
    Supplies m x.supply s₃ ∧
    (paidOutBy m (s₂, (env', .sellShares a m b q minPrice)) ≤
        paidInBy m (s, (env, .buyShares a m b q maxPrice)) ↔ x.RoundsAway b q) := by
  have hunused₁ := nextMarketId_step hbuy (kept_of_run h₀ hrun m).unused
  have hbought := hbuy
  obtain ⟨r, hr⟩ := hbought
  obtain ⟨n, hn, rfl⟩ := of_run_map _ _ hr
  obtain ⟨hprice, hx₁⟩ := bought_at hx hn
  -- the supplies stay as the purchase has left them
  obtain ⟨⟨z, hz, hsupply⟩, -⟩ := hbetween.invariant (C := fun _ c => ¬c.2.Trades m)
    (I := fun s => Supplies m (x.traded b (x.supply b + q) n).supply s ∧
      ∀ i, nextMarketId s ≤ i → s.inst .market i = none) ⟨⟨_, hx₁, fun _ => rfl⟩, hunused₁⟩
    (fun s c s' hno hs h => ⟨supplies_step hs h.2 hno h.1, nextMarketId_step hs h.2⟩) hno
  obtain ⟨r', hr'⟩ := hsell
  obtain ⟨n', hn', rfl⟩ := of_run_map _ _ hr'
  obtain ⟨-, hpos, hprice', hx₃⟩ := sold_at hz hn'
  have hown : z.supply b = x.supply b + q := by rw [hsupply]; simp
  have hother : z.supply (!b) = x.supply (!b) := by rw [hsupply]; simp
  rw [hown, hother, Nat.add_sub_cancel] at hpos
  refine ⟨⟨_, hx₃, fun side => ?_⟩, ?_⟩
  · rw [supply_traded]
    split_ifs with hside
    · rw [hown, Nat.add_sub_cancel, hside]
    · rw [hsupply, supply_traded, if_neg hside]
  · have hout : paidOutBy m (s₂, (env', .sellShares a m b q minPrice)) = q * z.sellPrice b q / 10000 := by
      rw [← hprice', ← reply_of_run hr']
      exact if_pos rfl
    have hin : paidInBy m (s, (env, .buyShares a m b q maxPrice)) = q * x.buyPrice b q / 10000 := by
      rw [← hprice, ← reply_of_run hr]
      exact if_pos rfl
    rw [hout, hin, mul_div_le_iff, Market.sellPrice, hown, hother, Nat.add_sub_cancel, Market.buyPrice,
      Market.RoundsAway]
    refine forall_congr' fun p => ?_
    rw [Nat.le_div_iff_mul_le hpos, Nat.div_lt_iff_lt_mul (Nat.add_pos_left hpos q)]
    exact ⟨fun h hle hlt => h hlt hle, fun h hlt hle => h hle hlt⟩

end

/-- Shares that are worth less than a unit. -/
theorem round_trip_one : ∃ s s₁ s₂, Steps exec s (buying 1) s₁ ∧ Steps exec s₁ (selling 1) s₂ ∧
    Supplies 0 (fun _ => 10000) s₂ ∧ paidOutBy 0 (s₁, selling 1) ≤ paidInBy 0 (s, buying 1) := by
  obtain ⟨s₂, hs₂⟩ : ∃ s₂, play exec opened [creating 20000, buying 1, selling 1] = some s₂ :=
    Option.isSome_iff_exists.1 (by decide)
  obtain ⟨r, s, hcreate, hrest⟩ := play_cons hs₂
  obtain ⟨r₁, s₁, hbuy, hlast⟩ := play_cons hrest
  obtain ⟨r₂, s₃, hsell, hnil⟩ := play_cons hlast
  obtain rfl : s₃ = s₂ := Option.some.inj hnil
  have hmarket : ((play exec opened [creating 20000]).bind fun s => s.inst .market 0).map
      (fun x => (x.supply true, x.supply false)) = some (10000, 10000) := by decide
  simp only [play, hcreate, Option.bind_some] at hmarket
  obtain ⟨x, hx, hsupply⟩ := Option.map_eq_some_iff.1 hmarket
  obtain ⟨hyes, hno⟩ := Prod.mk.inj hsupply
  obtain ⟨hsupplies, hiff⟩ := round_trip opened_noMarkets (.snoc .init ⟨r, hcreate⟩) hx ⟨r₁, hbuy⟩ .init
    (fun p hp => absurd hp List.not_mem_nil) ⟨r₂, hsell⟩
  refine ⟨s, s₁, s₃, ⟨r₁, hbuy⟩, ⟨r₂, hsell⟩, ?_, hiff.2 fun p hle hlt => ?_⟩
  · obtain ⟨z, hz, hf⟩ := hsupplies
    refine ⟨z, hz, fun side => ?_⟩
    cases side with
    | false => rw [hf, hno]
    | true => rw [hf, hyes]
  · rw [Bool.not_true, hyes, hno] at hle
    rw [Nat.div_eq_of_lt (by omega), Nat.div_eq_of_lt (by omega)]

/-- A purchase of 1000 shares for 250 that are sold for 500. -/
theorem round_trip_profit : ∃ s s₁ s₂, Run (Steps exec) opened [(opened, creating 1000)] s ∧
    Steps exec s (buying 1000) s₁ ∧ Steps exec s₁ (selling 1000) s₂ ∧
    paidInBy 0 (s, buying 1000) = 250 ∧ paidOutBy 0 (s₁, selling 1000) = 500 := by
  obtain ⟨s₂, hs₂⟩ : ∃ s₂, play exec opened [creating 1000, buying 1000, selling 1000] = some s₂ :=
    Option.isSome_iff_exists.1 (by decide)
  obtain ⟨r, s, hcreate, hrest⟩ := play_cons hs₂
  obtain ⟨r₁, s₁, hbuy, hlast⟩ := play_cons hrest
  obtain ⟨r₂, s₃, hsell, hnil⟩ := play_cons hlast
  obtain rfl : s₃ = s₂ := Option.some.inj hnil
  have hin : (play exec opened [creating 1000]).map (fun s => paidInBy 0 (s, buying 1000)) = some 250 := by
    decide
  have hout : (play exec opened [creating 1000, buying 1000]).map
      (fun s => paidOutBy 0 (s, selling 1000)) = some 500 := by
    decide
  simp only [play, hcreate, Option.map_some, Option.some.injEq] at hin
  simp only [play, hcreate, hbuy, Option.map_some, Option.some.injEq] at hout
  exact ⟨s, s₁, s₃, .snoc .init ⟨r, hcreate⟩, ⟨r₁, hbuy⟩, ⟨r₂, hsell⟩, hin, hout⟩

end PredictionMarket
