/-
  PredictionMarket — what a market pays out.

  A market takes in its initial liquidity and the cost of all purchases; it pays the
  proceeds of sales and, once it is resolved, what the positions are settled for.  The three
  prices have nothing to do with each other: shares can be sold at a higher price than they
  were bought for, and the winning shares are paid 10000 between them, whatever is left to
  pay it from.  The fee is not bounded, and nothing need be outstanding of the outcome that
  wins.

  * `Effect`: all that a step can do to one market;
  * `defined_iff`: when no position of a resolved market fails to compute;
  * `history_solvent`: exactly when a market stays solvent throughout a run.
-/
import AuditTransparency.Markets.Contract
import AuditTransparency.Soroban.Sums
import AuditTransparency.Ledger.Contract

namespace PredictionMarket

open Soroban
open Soroban.Call
open AuditLedger (openEnv account)

/-- The number that a call returns. -/
def reply (p : State × (Env × Op)) : ℕ :=
  match outcome exec p.1 p.2 with
  | .ok (some n) => n
  | _ => 0

/-- What a call pays to a market. -/
def paidInBy (m : ℕ) (p : State × (Env × Op)) : ℕ :=
  match p.2.2 with
  | .createMarket _ _ _ _ _ _ n _ _ _ _ => if reply p = m then n else 0
  | .buyShares _ i _ q _ => if i = m then q * reply p / 10000 else 0
  | _ => 0

/-- What a market pays for a call. -/
def paidOutBy (m : ℕ) (p : State × (Env × Op)) : ℕ :=
  match p.2.2 with
  | .sellShares _ i _ q _ => if i = m then q * reply p / 10000 else 0
  | .settlePosition i _ => if i = m then reply p else 0
  | _ => 0

/-- The initial liquidity and the cost of all purchases. -/
def paidIn (m : ℕ) (tr : List (State × (Env × Op))) : ℕ := (tr.map (paidInBy m)).sum

/-- The proceeds of all sales and the payouts of all settlements. -/
def paidOut (m : ℕ) (tr : List (State × (Env × Op))) : ℕ := (tr.map (paidOutBy m)).sum

/-- The user whom a settlement pays. -/
def paymentTo (m : ℕ) (p : State × (Env × Op)) : Option Address :=
  match p.2.2 with
  | .settlePosition i a => if i = m ∧ reply p ≠ 0 then some a else none
  | _ => none

/-- The users whose positions were paid. -/
def payments (m : ℕ) (tr : List (State × (Env × Op))) : List Address := tr.filterMap (paymentTo m)

/-- What a position is paid when it is settled. -/
def Market.owed (x : Market) (y : Position) (o : Outcome) : ℕ :=
  if y.settled = false ∧ x.Computes y o ∧ x.gross y o * x.settlementFeeBps < 2 ^ 128 then
    x.gross y o - x.fee (x.gross y o)
  else 0

/-- What a user is paid by a market on an outcome. -/
def owedTo (s : State) (m : ℕ) (x : Market) (o : Outcome) (a : Address) : ℕ :=
  (s.inst .position (a, m)).elim 0 fun y => x.owed y o

/-- What a user can still claim from a market. -/
def due (s : State) (m : ℕ) (a : Address) : ℕ :=
  (s.inst .market m).elim 0 fun x =>
    if x.status = .resolved then x.resolvedOutcome.elim 0 fun o => owedTo s m x o a else 0

/-- The market that a call is about. -/
def Op.market : Op → Option ℕ
  | createMarket .. => none
  | buyShares _ m _ _ _ => some m
  | sellShares _ m _ _ _ => some m
  | closeMarket m => some m
  | resolveMarket _ m _ => some m
  | settlePosition m _ => some m

/-- What a market promises, after the steps of a trace: it has taken in what it has paid out and what can
    still be claimed. -/
structure MarketSound (m : ℕ) (tr : List (State × (Env × Op))) (s : State) : Prop where
  solvent : ∃ n, SumsTo (due s m) n ∧ paidOut m tr + n ≤ paidIn m tr
  once : (payments m tr).Nodup
  defined : ∀ x ∈ s.inst .market m, x.status = .resolved →
    ∀ env op, op.market = some m → Avoids (exec op) Trap.Undefined env s

/-- Settling the position divides by a supply that is not zero, and the fee is at most the payout. -/
def Market.SettlesSafely (x : Market) (y : Position) (o : Outcome) : Prop :=
  x.Divides y o ∧ (x.Computes y o → x.gross y o * x.settlementFeeBps < 2 ^ 128 →
    x.fee (x.gross y o) ≤ x.gross y o)

instance (x : Market) (y : Position) (o : Outcome) : Decidable (x.SettlesSafely y o) :=
  inferInstanceAs (Decidable (_ ∧ (_ → _ → _)))

/-- A sale is paid from what the market has; when it is resolved, every position can be settled, and all
    of them together are paid from what it has. -/
def Backed (m : ℕ) (tr : List (State × (Env × Op))) (p : State × (Env × Op)) : Prop :=
  match p.2.2 with
  | .sellShares _ i b q _ => i = m → ∀ x ∈ p.1.inst .market m,
      paidOut m tr + q * x.sellPrice b q / 10000 ≤ paidIn m tr
  | .resolveMarket _ i o => i = m → ∀ x ∈ p.1.inst .market m,
      (∀ a, ∀ y ∈ p.1.inst .position (a, m), y.settled = false → x.SettlesSafely y o) ∧
      ∃ n, SumsTo (owedTo p.1 m x o) n ∧ paidOut m tr + n ≤ paidIn m tr
  | _ => True

/-- There are no markets and no positions yet. -/
structure NoMarkets (s : State) : Prop where
  market : ∀ m, s.inst .market m = none
  position : ∀ a m, s.inst .position (a, m) = none

/-! ## Effects -/

/-- What a step does to one market. -/
inductive Effect (m : ℕ) (s s' : State) : Env × Op → Prop
  /-- another market, or a position that is settled already -/
  | quiet {c} : s'.inst .market m = s.inst .market m →
      (∀ a, s'.inst .position (a, m) = s.inst .position (a, m)) →
      paidInBy m (s, c) = 0 → paidOutBy m (s, c) = 0 → paymentTo m (s, c) = none →
      (∀ tr, Backed m tr (s, c)) → Effect m s s' c
  /-- a market that is not resolved -/
  | trade {c a z} : (∀ x ∈ s.inst .market m, x.status ≠ .resolved) → s'.inst .market m = some z →
      z.status ≠ .resolved → (∀ b, b ≠ a → s'.inst .position (b, m) = s.inst .position (b, m)) →
      paymentTo m (s, c) = none →
      (∀ tr, paidOut m tr ≤ paidIn m tr → (Backed m tr (s, c) ↔
        paidOut m tr + paidOutBy m (s, c) ≤ paidIn m tr + paidInBy m (s, c))) → Effect m s s' c
  | resolve {env a o x} : s.inst .market m = some x → x.status ≠ .resolved →
      s'.inst .market m = some { x with resolvedOutcome := some o, status := .resolved } →
      s'.inst .position = s.inst .position → Effect m s s' (env, .resolveMarket a m o)
  | settle {env a o x y} : s.inst .market m = some x → x.status = .resolved → x.resolvedOutcome = some o →
      s.inst .position (a, m) = some y → y.settled = false →
      reply (s, (env, .settlePosition m a)) = x.owed y o →
      s'.inst .market m = some x → s'.inst .position (a, m) = some { y with settled := true } →
      (∀ b, b ≠ a → s'.inst .position (b, m) = s.inst .position (b, m)) →
      Effect m s s' (env, .settlePosition m a)

section
variable {s₀ s s' : State} {env : Env} {a : Address} {i m n : ℕ} {c : Env × Op} {r : Option ℕ} {o : Outcome}
  {x : Market} {y : Position} {op : Op} {tr : List (State × (Env × Op))}

/-- The contract starts without markets and positions. -/
theorem noMarkets_initialized {b : Address} {k l t : ℕ}
    (h : (initializeMarkets a b k l t).run env Ledger.empty = .ok ((), s)) : NoMarkets s := by
  refine Post.of_run (m := initializeMarkets a b k l t) (Q := fun _ s => NoMarkets s) ?_ h
  simp only [initializeMarkets, post_bind, post_requireAuth, post_load, post_rejectIf, post_store]
  intro _ _
  exact ⟨fun _ => rfl, fun _ _ => rfl⟩

theorem reply_of_run (hr : (exec c.2).run c.1 s = .ok (some n, s')) : reply (s, c) = n := by
  rw [reply, outcome, hr]
  rfl

theorem traded_status {b : Bool} {p : ℕ} : (x.traded b n p).status = x.status := by
  cases b <;> rfl

/-- A trade at an active market. -/
theorem effect_of_trade {z : Market} (hx : s.inst .market i = some x) (hactive : x.status = .active)
    (hz : z.status = .active) (hs : s' = (s.put .position (a, i) y).put .market i z)
    (hnone : paymentTo m (s, c) = none)
    (hhere : i = m → ∀ tr, paidOut m tr ≤ paidIn m tr → (Backed m tr (s, c) ↔
      paidOut m tr + paidOutBy m (s, c) ≤ paidIn m tr + paidInBy m (s, c)))
    (helse : i ≠ m → paidInBy m (s, c) = 0 ∧ paidOutBy m (s, c) = 0 ∧ ∀ tr, Backed m tr (s, c)) :
    Effect m s s' c := by
  subst hs
  by_cases hm : i = m
  · subst hm
    refine .trade (a := a) ?_ (Function.update_self ..) ?_ (fun b hb => ?_) hnone (hhere rfl)
    · rw [hx]
      rintro _ ⟨⟩
      rw [hactive]
      decide
    · rw [hz]
      decide
    · exact Function.update_of_ne (fun h => hb (congrArg Prod.fst h)) ..
  · obtain ⟨hin, hout, hbacked⟩ := helse hm
    refine .quiet (Function.update_of_ne (Ne.symm hm) ..) (fun b => ?_) hin hout hnone hbacked
    exact Function.update_of_ne (fun h => hm (congrArg Prod.snd h).symm) ..

/-- **What a step does to one market.** -/
theorem effect_of_step (hs : Steps exec s c s') (hnew : ∀ i, nextMarketId s ≤ i → s.inst .market i = none)
    (m : ℕ) : Effect m s s' c := by
  obtain ⟨env, op⟩ := c
  obtain ⟨r, hs⟩ := hs
  cases op with
  | createMarket a k t d l w n u v e f =>
    obtain ⟨i, hr, rfl⟩ := of_run_map _ _ hs
    obtain ⟨rfl, x, l, hactive, hs'⟩ := created hr
    have hi := reply_of_run hs
    by_cases hm : m = nextMarketId s
    · subst hm
      refine .trade (a := a) (z := x) ?_ ?_ ?_ ?_ rfl fun tr hle => iff_of_true trivial ?_
      · rw [hnew _ (Nat.le_refl _)]
        nofun
      · rw [hs']
        exact Function.update_self ..
      · rw [hactive]
        nofun
      · intro b _
        rw [hs']
        rfl
      · exact Nat.add_le_add hle (Nat.zero_le _)
    · refine .quiet ?_ ?_ ?_ rfl rfl fun _ => trivial
      · rw [hs']
        exact Function.update_of_ne hm ..
      · intro b
        rw [hs']
        rfl
      · exact if_neg fun h => hm (h.symm.trans hi)
  | buyShares a i b q p =>
    obtain ⟨n, hr, rfl⟩ := of_run_map _ _ hs
    obtain ⟨x, y, l, hx, hactive, hs'⟩ := bought hr
    refine effect_of_trade hx hactive (traded_status.trans hactive) hs' rfl (fun _ tr hle => ?_) fun hm => ?_
    · exact iff_of_true trivial (Nat.add_le_add hle (Nat.zero_le _))
    · exact ⟨if_neg hm, rfl, fun _ => trivial⟩
  | sellShares a i b q p =>
    obtain ⟨n, hr, rfl⟩ := of_run_map _ _ hs
    obtain ⟨x, y, l, hx, hactive, hn, hs'⟩ := sold hr
    refine effect_of_trade hx hactive (traded_status.trans hactive) hs' rfl (fun hm tr hle => ?_) fun hm => ?_
    · subst hm
      have hout : paidOutBy i (s, (env, .sellShares a i b q p)) = q * x.sellPrice b q / 10000 := by
        rw [← hn, ← reply_of_run hs]
        exact if_pos rfl
      rw [hout]
      refine ⟨fun h => h rfl x hx, fun h _ z hz => ?_⟩
      obtain rfl := Option.some.inj (hx.symm.trans hz)
      exact h
    · exact ⟨rfl, if_neg hm, fun _ h => absurd h hm⟩
  | closeMarket i =>
    obtain ⟨_, hr, -⟩ := of_run_map _ _ hs
    obtain ⟨x, hx, hactive, rfl⟩ := closed hr
    by_cases hm : i = m
    · subst hm
      refine .trade (a := account 0) ?_ (Function.update_self ..) nofun (fun _ _ => rfl) rfl
        fun tr hle => iff_of_true trivial hle
      rw [hx]
      rintro _ ⟨⟩
      rw [hactive]
      nofun
    · exact .quiet (Function.update_of_ne (Ne.symm hm) ..) (fun _ => rfl) rfl rfl rfl fun _ => trivial
  | resolveMarket a i o =>
    obtain ⟨_, hr, -⟩ := of_run_map _ _ hs
    obtain ⟨x, hx, hstatus, rfl⟩ := resolved hr
    by_cases hm : i = m
    · subst hm
      exact .resolve hx hstatus (Function.update_self ..) rfl
    · exact .quiet (Function.update_of_ne (Ne.symm hm) ..) (fun _ => rfl) rfl rfl rfl fun _ h => absurd h hm
  | settlePosition i a =>
    obtain ⟨n, hr, rfl⟩ := of_run_map _ _ hs
    obtain ⟨x, o, y, hx, hresolved, ho, hy, ⟨-, rfl, rfl⟩ | ⟨hopen, hcomp, hfits, -, hn, hs'⟩⟩ := settled hr
    · -- nothing is paid, whatever the market
      have hreply := reply_of_run hs
      refine .quiet rfl (fun _ => rfl) rfl ?_ ?_ fun _ => trivial
      · show (if i = m then reply _ else 0) = 0
        rw [hreply, ite_self]
      · exact if_neg fun h => h.2 hreply
    · by_cases hm : i = m
      · subst hm
        refine .settle hx hresolved ho hy hopen ?_ (by rw [hs']; exact hx) ?_ fun b hb => ?_
        · rw [reply_of_run hs, hn]
          exact (if_pos ⟨hopen, hcomp, hfits⟩).symm
        · rw [hs']
          exact Function.update_self ..
        · rw [hs']
          exact Function.update_of_ne (fun h => hb (congrArg Prod.fst h)) ..
      · refine .quiet (by rw [hs']; rfl) (fun b => ?_) rfl (if_neg hm) (if_neg fun h => hm h.1)
          fun _ => trivial
        rw [hs']
        exact Function.update_of_ne (fun h => hm (congrArg Prod.snd h).symm) ..

/-! ## Settlements -/

theorem avoids_settlePosition (hx : s.inst .market m = some x) (hr : x.status = .resolved) :
    Avoids (settlePosition m a) Trap.Undefined env s ↔ ∀ o ∈ x.resolvedOutcome,
      ∀ y ∈ s.inst .position (a, m), y.settled = false → x.SettlesSafely y o := by
  rcases ho : x.resolvedOutcome with _ | o
  · simp [settlePosition, getMarketOrPanic, hx, hr, ho, Trap.Undefined]
  · rcases hy : s.inst .position (a, m) with _ | y
    · simp [settlePosition, getMarketOrPanic, hx, hy, Trap.Undefined]
    · simp [settlePosition, getMarketOrPanic, hx, hr, ho, hy, Trap.Undefined,
        Market.SettlesSafely, Market.fee]

/-- **When no call on a resolved market fails to compute.** -/
theorem defined_iff (hx : s.inst .market m = some x) (hr : x.status = .resolved) :
    (∀ env op, op.market = some m → Avoids (exec op) Trap.Undefined env s) ↔ ∀ o ∈ x.resolvedOutcome,
      ∀ a, ∀ y ∈ s.inst .position (a, m), y.settled = false → x.SettlesSafely y o := by
  constructor
  · intro h o ho a
    exact (avoids_settlePosition hx hr).1 (avoids_map.1 (h (openEnv 0) (.settlePosition m a) rfl)) o ho
  · intro h env op hm
    cases op with
    | createMarket => cases hm
    | settlePosition i a =>
      obtain rfl : i = m := Option.some.inj hm
      exact avoids_map.2 ((avoids_settlePosition hx hr).2 fun o ho => h o ho a)
    | buyShares a i b q p =>
      obtain rfl : i = m := Option.some.inj hm
      refine avoids_map.2 ?_
      simp [buyShares, getMarketOrPanic, hx, hr, Trap.Undefined]
    | sellShares a i b q p =>
      obtain rfl : i = m := Option.some.inj hm
      refine avoids_map.2 ?_
      simp [sellShares, getMarketOrPanic, hx, hr, Trap.Undefined]
    | closeMarket i =>
      obtain rfl : i = m := Option.some.inj hm
      refine avoids_map.2 ?_
      simp [closeMarket, getOwner, getMarketOrPanic, Trap.Undefined]
    | resolveMarket a i o =>
      obtain rfl : i = m := Option.some.inj hm
      refine avoids_map.2 ?_
      simp [resolveMarket, getMarketOrPanic, Trap.Undefined]

/-! ## What every run keeps -/

/-- What holds of a market in every run. -/
structure Kept (m : ℕ) (tr : List (State × (Env × Op))) (s : State) : Prop where
  unused : ∀ i, nextMarketId s ≤ i → s.inst .market i = none
  finite : ∃ F : Finset Address, ∀ a, a ∉ F → s.inst .position (a, m) = none
  unpaid : (∀ x ∈ s.inst .market m, x.status ≠ .resolved) → payments m tr = []
  paid : ∀ a ∈ payments m tr, ∃ y ∈ s.inst .position (a, m), y.settled = true

/-- Ids do not run backwards, and a new market uses one up. -/
theorem nextMarketId_step (hs : Steps exec s c s') (h : ∀ i, nextMarketId s ≤ i → s.inst .market i = none) :
    ∀ i, nextMarketId s' ≤ i → s'.inst .market i = none := by
  obtain ⟨env, op⟩ := c
  obtain ⟨r, hs⟩ := hs
  have hput : ∀ j z, s.inst .market j ≠ none → ∀ i, nextMarketId s ≤ i →
      Function.update (s.inst .market) j z i = none := by
    intro j z hj i hi
    rw [Function.update_of_ne, h i hi]
    rintro rfl
    exact hj (h i hi)
  cases op with
  | createMarket a k t d l w n u v e f =>
    obtain ⟨i, hr, rfl⟩ := of_run_map _ _ hs
    obtain ⟨rfl, x, l, -, rfl⟩ := created hr
    intro i hi
    have hlt : nextMarketId s + 1 ≤ i := hi
    have hne : i ≠ nextMarketId s := by omega
    exact (Function.update_of_ne hne ..).trans (h i (by omega))
  | buyShares a i b q p =>
    obtain ⟨n, hr, rfl⟩ := of_run_map _ _ hs
    obtain ⟨x, y, l, hx, -, rfl⟩ := bought hr
    exact hput i _ (by rw [hx]; nofun)
  | sellShares a i b q p =>
    obtain ⟨n, hr, rfl⟩ := of_run_map _ _ hs
    obtain ⟨x, y, l, hx, -, -, rfl⟩ := sold hr
    exact hput i _ (by rw [hx]; nofun)
  | closeMarket i =>
    obtain ⟨_, hr, -⟩ := of_run_map _ _ hs
    obtain ⟨x, hx, -, rfl⟩ := closed hr
    exact hput i _ (by rw [hx]; nofun)
  | resolveMarket a i o =>
    obtain ⟨_, hr, -⟩ := of_run_map _ _ hs
    obtain ⟨x, hx, -, rfl⟩ := resolved hr
    exact hput i _ (by rw [hx]; nofun)
  | settlePosition i a =>
    obtain ⟨n, hr, rfl⟩ := of_run_map _ _ hs
    obtain ⟨x, o, y, -, -, -, -, ⟨-, -, rfl⟩ | ⟨-, -, -, -, -, rfl⟩⟩ := settled hr
    · exact h
    · exact h

theorem payments_concat {p : State × (Env × Op)} :
    payments m (tr ++ [p]) = payments m tr ++ (paymentTo m p).toList := filterMap_concat

/-- A settlement pays nobody but the user it settles. -/
theorem eq_of_paymentTo {b : Address} (h : b ∈ paymentTo m (s, (env, .settlePosition i a))) : b = a := by
  have hpay : (if i = m ∧ reply (s, (env, .settlePosition i a)) ≠ 0 then some a else none) = some b := h
  split_ifs at hpay
  exact (Option.some.inj hpay).symm

/-- A step that pays nobody. -/
theorem payments_same {p : State × (Env × Op)} (h : paymentTo m p = none) :
    payments m (tr ++ [p]) = payments m tr := by
  rw [payments_concat, h, Option.toList_none, List.append_nil]

theorem paidIn_concat {p : State × (Env × Op)} : paidIn m (tr ++ [p]) = paidIn m tr + paidInBy m p :=
  sum_map_concat

theorem paidOut_concat {p : State × (Env × Op)} : paidOut m (tr ++ [p]) = paidOut m tr + paidOutBy m p :=
  sum_map_concat

theorem Kept.step (h : Kept m tr s) (hs : Steps exec s c s') : Kept m (tr ++ [(s, c)]) s' := by
  have hunused := nextMarketId_step hs h.unused
  obtain ⟨F, hF⟩ := h.finite
  have hfinite : ∀ a, (∀ b, b ≠ a → s'.inst .position (b, m) = s.inst .position (b, m)) →
      ∃ F : Finset Address, ∀ b, b ∉ F → s'.inst .position (b, m) = none := by
    intro a hother
    refine ⟨insert a F, fun b hb => ?_⟩
    rw [Finset.mem_insert, not_or] at hb
    rw [hother b hb.1, hF b hb.2]
  cases effect_of_step hs h.unused m with
  | quiet hmarket hposition _ _ hnone =>
    refine ⟨hunused, ⟨F, fun a ha => by rw [hposition, hF a ha]⟩, ?_, ?_⟩ <;> rw [payments_same hnone]
    · rw [hmarket]
      exact h.unpaid
    · intro a ha
      rw [hposition]
      exact h.paid a ha
  | trade hopen hmarket hstatus hposition hnone =>
    refine ⟨hunused, hfinite _ hposition, ?_, ?_⟩ <;> rw [payments_same hnone, h.unpaid hopen]
    · exact fun _ => rfl
    · nofun
  | resolve hx hstatus hmarket hposition =>
    refine ⟨hunused, ⟨F, fun a ha => by rw [hposition, hF a ha]⟩, ?_, ?_⟩ <;> rw [payments_same rfl]
    · exact fun hopen => absurd rfl (hopen _ hmarket)
    · rw [hposition]
      exact h.paid
  | @settle env a o x y hx hresolved ho hy hopen hreply hmarket hsettled hother =>
    refine ⟨hunused, hfinite a hother, fun hopen => absurd hresolved (hopen x hmarket), fun b hb => ?_⟩
    by_cases hba : b = a
    · rw [hba]
      exact ⟨_, hsettled, rfl⟩
    · rw [hother b hba]
      rw [payments_concat, List.mem_append, Option.mem_toList] at hb
      exact h.paid b (hb.resolve_right fun hpay => hba (eq_of_paymentTo hpay))

theorem kept_of_run (h₀ : NoMarkets s₀) (h : Run (Steps exec) s₀ tr s) (m : ℕ) : Kept m tr s := by
  induction h with
  | init => exact ⟨fun i _ => h₀.market i, ⟨∅, fun a _ => h₀.position a m⟩, fun _ => rfl, nofun⟩
  | snoc _ hs ih => exact ih.step hs

/-! ## Solvency -/

/-- Nothing is due from a market that is not resolved. -/
theorem due_open (h : ∀ x ∈ s.inst .market m, x.status ≠ .resolved) : due s m a = 0 := by
  rw [due]
  rcases hx : s.inst .market m with _ | x
  · rfl
  · exact if_neg (h x hx)

theorem due_resolved (hx : s.inst .market m = some x) (hr : x.status = .resolved)
    (ho : x.resolvedOutcome = some o) : due s m a = owedTo s m x o a := by
  rw [due, hx, Option.elim_some, if_pos hr, ho]
  rfl

theorem solvent_open (h : ∀ x ∈ s.inst .market m, x.status ≠ .resolved) :
    (∃ n, SumsTo (due s m) n ∧ paidOut m tr + n ≤ paidIn m tr) ↔ paidOut m tr ≤ paidIn m tr := by
  have hzero : SumsTo (due s m) 0 := sumsTo_zero fun a => due_open h
  constructor
  · rintro ⟨n, hn, hle⟩
    obtain rfl := hn.unique hzero
    exact hle
  · exact fun hle => ⟨0, hzero, hle⟩

/-- A settled position is owed nothing. -/
theorem owed_settled (h : y.settled = true) : x.owed y o = 0 :=
  if_neg fun hc => by rw [h] at hc; cases hc.1

/-- A step that does not concern the market. -/
theorem MarketSound.quiet (h : MarketSound m tr s) (hmarket : s'.inst .market m = s.inst .market m)
    (hposition : ∀ a, s'.inst .position (a, m) = s.inst .position (a, m)) (hin : paidInBy m (s, c) = 0)
    (hout : paidOutBy m (s, c) = 0) (hnone : paymentTo m (s, c) = none) :
    MarketSound m (tr ++ [(s, c)]) s' := by
  have hdue : ∀ a, due s m a = due s' m a := by
    intro a
    simp only [due, owedTo, hmarket, hposition]
  obtain ⟨n, hn, hle⟩ := h.solvent
  refine ⟨⟨n, hn.congr hdue, ?_⟩, ?_, fun x hx hr => ?_⟩
  · rw [paidOut_concat, paidIn_concat, hin, hout]
    exact hle
  · rw [payments_same hnone]
    exact h.once
  · have hx' : s.inst .market m = some x := hmarket ▸ hx
    rw [defined_iff hx hr]
    intro o ho a
    rw [hposition]
    exact (defined_iff hx' hr).1 (h.defined x hx' hr) o ho a

/-- A trade keeps the market solvent exactly when it is paid for. -/
theorem MarketSound.trade_iff (h : MarketSound m tr s) (hopen : ∀ x ∈ s'.inst .market m, x.status ≠ .resolved)
    (hnone : paymentTo m (s, c) = none) : MarketSound m (tr ++ [(s, c)]) s' ↔
      paidOut m tr + paidOutBy m (s, c) ≤ paidIn m tr + paidInBy m (s, c) := by
  rw [← paidOut_concat, ← paidIn_concat, ← solvent_open (m := m) hopen]
  refine ⟨fun h' => h'.solvent, fun hsolvent => ⟨hsolvent, ?_, fun x hx hr => absurd hr (hopen x hx)⟩⟩
  rw [payments_same hnone]
  exact h.once

/-- A resolution keeps the market solvent exactly when every position can be settled and paid. -/
theorem MarketSound.resolve_iff (h : MarketSound m tr s) (hx : s.inst .market m = some x)
    (hmarket : s'.inst .market m = some { x with resolvedOutcome := some o, status := .resolved })
    (hposition : s'.inst .position = s.inst .position) :
    MarketSound m (tr ++ [(s, (env, .resolveMarket a m o))]) s' ↔
      Backed m tr (s, (env, .resolveMarket a m o)) := by
  have howed : ∀ a, owedTo s m x o a = due s' m a := by
    intro a
    rw [due_resolved hmarket rfl rfl, owedTo, owedTo, hposition]
    rfl
  have hpays : paidOut m (tr ++ [(s, env, .resolveMarket a m o)]) = paidOut m tr ∧
      paidIn m (tr ++ [(s, env, .resolveMarket a m o)]) = paidIn m tr :=
    ⟨paidOut_concat, paidIn_concat⟩
  have hdefined : (∀ env op, op.market = some m → Avoids (exec op) Trap.Undefined env s') ↔
      ∀ a, ∀ y ∈ s.inst .position (a, m), y.settled = false → x.SettlesSafely y o := by
    rw [defined_iff hmarket rfl, hposition]
    exact ⟨fun hall => hall o rfl, by rintro hall _ ⟨⟩; exact hall⟩
  constructor
  · rintro h' - z hz
    obtain rfl := Option.some.inj (hx.symm.trans hz)
    refine ⟨hdefined.1 (h'.defined _ hmarket rfl), ?_⟩
    obtain ⟨n, hn, hle⟩ := h'.solvent
    rw [hpays.1, hpays.2] at hle
    exact ⟨n, hn.congr fun a => (howed a).symm, hle⟩
  · intro hbacked
    obtain ⟨hsafe, n, hn, hle⟩ := hbacked rfl x hx
    refine ⟨⟨n, hn.congr howed, ?_⟩, ?_, fun z hz _ => ?_⟩
    · rw [hpays.1, hpays.2]
      exact hle
    · rw [payments_same rfl]
      exact h.once
    · exact hdefined.2 hsafe

/-- A settlement takes what was due. -/
theorem MarketSound.settle (h : MarketSound m tr s) (hk : Kept m tr s) (hx : s.inst .market m = some x)
    (hresolved : x.status = .resolved) (ho : x.resolvedOutcome = some o)
    (hy : s.inst .position (a, m) = some y) (hopen : y.settled = false)
    (hreply : reply (s, (env, .settlePosition m a)) = x.owed y o) (hmarket : s'.inst .market m = some x)
    (hsettled : s'.inst .position (a, m) = some { y with settled := true })
    (hother : ∀ b, b ≠ a → s'.inst .position (b, m) = s.inst .position (b, m)) :
    MarketSound m (tr ++ [(s, (env, .settlePosition m a))]) s' := by
  refine ⟨?_, ?_, fun z hz hr => ?_⟩
  · obtain ⟨n, hn, hle⟩ := h.solvent
    have hnow : due s m a = x.owed y o := by
      rw [due_resolved hx hresolved ho, owedTo, hy]
      rfl
    have hthen : due s' m a = 0 := by
      rw [due_resolved hmarket hresolved ho, owedTo, hsettled]
      exact owed_settled rfl
    have hsame : ∀ b, b ≠ a → due s' m b = due s m b := by
      intro b hb
      rw [due_resolved hmarket hresolved ho, due_resolved hx hresolved ho, owedTo, owedTo, hother b hb]
    have hpart : x.owed y o ≤ n := hnow ▸ hn.le
    have hout : paidOutBy m (s, (env, .settlePosition m a)) = x.owed y o := (if_pos rfl).trans hreply
    have hin : paidInBy m (s, (env, .settlePosition m a)) = 0 := rfl
    refine ⟨n - x.owed y o, (hn.change hsame).2 ?_, ?_⟩
    · rw [hnow, hthen]
      omega
    · rw [paidOut_concat, paidIn_concat, hout, hin]
      omega
  · have hunpaid : a ∉ payments m tr := by
      intro ha
      obtain ⟨z, hz, hdone⟩ := hk.paid a ha
      obtain rfl := Option.some.inj (hy.symm.trans hz)
      rw [hopen] at hdone
      cases hdone
    rw [payments_concat, nodup_append_toList]
    refine ⟨h.once, fun b hb => ?_⟩
    rwa [eq_of_paymentTo hb]
  · obtain rfl := Option.some.inj (hmarket.symm.trans hz)
    rw [defined_iff hmarket hr]
    intro o' ho' b w hw hnew
    by_cases hb : b = a
    · rw [hb, hsettled] at hw
      obtain rfl := Option.some.inj hw
      cases hnew
    · rw [hother b hb] at hw
      exact (defined_iff hx hr).1 (h.defined x hx hr) o' ho' b w hw hnew

/-- **A step keeps a market solvent exactly when it is backed.** -/
theorem marketSound_concat (hk : Kept m tr s) (hs : Steps exec s c s') (h : MarketSound m tr s) :
    MarketSound m (tr ++ [(s, c)]) s' ↔ Backed m tr (s, c) := by
  cases effect_of_step hs hk.unused m with
  | quiet hmarket hposition hin hout hnone hbacked =>
    exact iff_of_true (h.quiet hmarket hposition hin hout hnone) (hbacked tr)
  | trade hopen hmarket hstatus hposition hnone hbacked =>
    have hopen' : ∀ x ∈ s'.inst .market m, x.status ≠ .resolved := by
      rw [hmarket]
      rintro _ ⟨⟩
      exact hstatus
    rw [hbacked tr ((solvent_open hopen).1 h.solvent)]
    exact h.trade_iff hopen' hnone
  | resolve hx hstatus hmarket hposition => exact h.resolve_iff hx hmarket hposition
  | settle hx hresolved ho hy hopen hreply hmarket hsettled hother =>
    exact iff_of_true (h.settle hk hx hresolved ho hy hopen hreply hmarket hsettled hother) trivial

/-- **A market stays solvent throughout a run** if and only if every sale, and every position when it is
    resolved, is backed by what it has taken in. -/
theorem history_solvent (h₀ : NoMarkets s₀) (h : Run (Steps exec) s₀ tr s) (m : ℕ) :
    ((∀ before p after, tr = before ++ p :: after → MarketSound m before p.1) ∧ MarketSound m tr s) ↔
      ∀ before p after, tr = before ++ p :: after → Backed m before p := by
  refine Run.throughout_iff ?_ (fun tr s c s' hr hs h => marketSound_concat (kept_of_run h₀ hr m) hs h) h
  refine ⟨⟨0, sumsTo_zero fun a => due_open ?_, Nat.le_refl _⟩, List.nodup_nil, ?_⟩ <;> rw [h₀.market m] <;>
    nofun

end

/-! ## Scripts -/

/-- A call in which every address authorises, at a ledger. -/
def atLedger (n : ℕ) : Env := { openEnv 0 with sequence := n }

/-- Markets are opened with a liquidity of 100 or more. -/
def opened : State :=
  (((((Ledger.empty : State).put .owner () (account 65)).put .config () ⟨account 71, 100, 1000000, 500, 2⟩).put
    .marketCounter () 0).put .orderCounter () 0).put .tradeCounter () 0

theorem opened_initialized :
    (initializeMarkets (account 65) (account 71) 100 1000000 500).run (atLedger 0) Ledger.empty =
      .ok ((), opened) := rfl

theorem opened_noMarkets : NoMarkets opened := noMarkets_initialized opened_initialized

/-- A market, with a fee of 5 percent. -/
def creating (n : ℕ) : Env × Op :=
  (atLedger 0, .createMarket (account 66) .complianceAudit "audit" "" "pass" "fail" n 10 20 (account 67) 500)

/-- The only user of the market buys and sells. -/
def buying (q : ℕ) : Env × Op := (atLedger 1, .buyShares (account 68) 0 true q 10000)

def selling (q : ℕ) : Env × Op := (atLedger 1, .sellShares (account 68) 0 true q 0)

def closing : Env × Op := (atLedger 10, .closeMarket 0)

/-- The outcome is the one that was bought. -/
def resolving : Env × Op := (atLedger 10, .resolveMarket (account 67) 0 .yes)

def settling : Env × Op := (atLedger 11, .settlePosition 0 (account 68))

/-- The market has enough liquidity; the user settles twice. -/
def liquidScript : List (Env × Op) :=
  [creating 20000, buying 100, selling 10, closing, resolving, settling, settling]

/-- The ledger after the first calls of the script. -/
def liquidState (n : ℕ) : State := attempt exec opened (liquidScript.take n)

theorem history_solvent_liquidScript :
    ∃ tr s, Run (Steps exec) opened tr s ∧ tr.map Prod.snd = liquidScript ∧
      ((∀ before p after, tr = before ++ p :: after → MarketSound 0 before p.1) ∧ MarketSound 0 tr s) := by
  have hs : play exec opened liquidScript = some (liquidState 7) := rfl
  have htr : traceOf exec opened liquidScript =
      [(liquidState 0, creating 20000), (liquidState 1, buying 100), (liquidState 2, selling 10),
        (liquidState 3, closing), (liquidState 4, resolving), (liquidState 5, settling),
        (liquidState 6, settling)] := rfl
  have hposition : (liquidState 4).inst .position = Function.update (Function.update (fun _ => none)
      (account 68, 0) (some ⟨account 68, 0, 100, 0, 49, false⟩))
      (account 68, 0) (some ⟨account 68, 0, 90, 0, 49, false⟩) := rfl
  have hother : ∀ a, a ≠ account 68 → (liquidState 4).inst .position (a, 0) = none := by
    intro a ha
    have hne : (a, 0) ≠ (account 68, 0) := fun h => ha (congrArg Prod.fst h)
    rw [hposition, Function.update_of_ne hne, Function.update_of_ne hne]
  have hsafe : ∀ x ∈ (liquidState 4).inst .market 0, ∀ y ∈ (liquidState 4).inst .position (account 68, 0),
      x.SettlesSafely y .yes := by decide
  have hpays : ∀ x ∈ (liquidState 4).inst .market 0,
      paidOut 0 [(liquidState 0, creating 20000), (liquidState 1, buying 100), (liquidState 2, selling 10),
        (liquidState 3, closing)] + owedTo (liquidState 4) 0 x .yes (account 68) ≤
      paidIn 0 [(liquidState 0, creating 20000), (liquidState 1, buying 100), (liquidState 2, selling 10),
        (liquidState 3, closing)] := by decide
  refine ⟨_, _, run_of_play hs, map_snd_traceOf hs, ?_⟩
  refine (history_solvent opened_noMarkets (run_of_play hs) 0).2 ?_
  rw [htr]
  simp only [Run.forall_cut_cons]
  refine ⟨trivial, trivial, fun _ => ?_, trivial, fun _ x hx => ⟨?_, ?_⟩, trivial, trivial, by simp⟩
  · decide
  · intro a y hy _
    by_cases ha : a = account 68
    · rw [ha] at hy
      exact hsafe x hx y hy
    · rw [hother a ha] at hy
      cases hy
  · refine ⟨_, sumsTo_single fun a ha => ?_, hpays x hx⟩
    rw [owedTo, hother a ha]
    rfl

/-- The market has little liquidity. -/
def thinScript : List (Env × Op) := [creating 1000, buying 10000, closing, resolving, settling]

/-- **A market can pay more than it has taken in.** -/
theorem overpaid :
    ∃ tr s, Run (Steps exec) opened tr s ∧ tr.map Prod.snd = thinScript ∧ NoMarkets opened ∧
      paidIn 0 tr = 1454 ∧ paidOut 0 tr = 9047 ∧ ¬MarketSound 0 tr s := by
  have hs : play exec opened thinScript = some (attempt exec opened thinScript) := rfl
  have hin : paidIn 0 (traceOf exec opened thinScript) = 1454 := by decide
  have hout : paidOut 0 (traceOf exec opened thinScript) = 9047 := by decide
  refine ⟨_, _, run_of_play hs, map_snd_traceOf hs, opened_noMarkets, hin, hout, fun h => ?_⟩
  obtain ⟨n, -, hle⟩ := h.solvent
  omega

end PredictionMarket
