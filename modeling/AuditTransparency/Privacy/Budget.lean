/-
  PrivacyPreservingAnalytics — the privacy budget.

  What has been spent of the budget is kept as a total, and once more as the records of
  the queries (`BudgetSound`).  The two are linked by the ids of the queries, which
  their callers choose: a query under a recorded id replaces the evidence of the
  earlier one.

  * `executeDpQuery_ok_iff`: when a query is answered, and what it leaves;
  * `history_budget`: exactly when the total and the records agree throughout a run of
    queries, answered or refused.
-/
import AuditTransparency.Privacy.Contract
import AuditTransparency.Soroban.Sums
import AuditTransparency.Ledger.Contract

namespace PrivacyAnalytics

open Soroban
open Soroban.Call
open AuditLedger (openEnv account)

variable {D : Type} [DecidableEq D]

/-- The cost that is recorded under an id. -/
def recordedCost (s : State D) (q : D) : ℕ := (s.inst .dpQuery q).elim 0 (·.epsilonCostScaled)

/-- The cost of an operation. -/
def Op.cost : Op D → ℕ
  | executeDpQuery _ _ _ _ cost _ _ => cost
  | _ => 0

/-- What a call costs: nothing if it is refused. -/
def charged (zeros : D) (p : State D × (Env × Op D)) : ℕ :=
  if (outcome (exec zeros) p.1 p.2).isOk then p.2.2.cost else 0

/-- The cost of all the queries that were answered. -/
def totalCost (zeros : D) (tr : List (State D × (Env × Op D))) : ℕ := (tr.map (charged zeros)).sum

/-- What the budget promises, after the calls of a trace. -/
structure BudgetSound (zeros : D) (tr : List (State D × (Env × Op D))) (s : State D) : Prop where
  bounded : ∀ b ∈ s.inst .budget (), b.spentEpsilonScaled ≤ b.maxEpsilonScaled
  spent : ∀ b ∈ s.inst .budget (), b.spentEpsilonScaled = totalCost zeros tr
  recorded : ∀ b ∈ s.inst .budget (), SumsTo (recordedCost s) b.spentEpsilonScaled
  count : ∀ b ∈ s.inst .budget (), (b.queryCount : ℕ∞) = (stored (s.inst .dpQuery)).encard
  refused : ∀ p ∈ tr, ∀ e, outcome (exec zeros) p.1 p.2 = .error e → attempted (exec zeros) p.1 p.2 = p.1

/-- A query is authorised, has a sensitivity, and the budget has room for its cost. -/
def Affordable (s : State D) (env : Env) (a : Address) (sensitivity cost : ℕ) : Prop :=
  env.auth a = true ∧ sensitivity ≠ 0 ∧ ∃ b ∈ s.inst .budget (),
    b.spentEpsilonScaled + cost < 2 ^ 64 ∧ b.spentEpsilonScaled + cost ≤ b.maxEpsilonScaled ∧
      b.queryCount + 1 < 2 ^ 32

/-- An affordable query has an id of its own. -/
def FreshId (s : State D) (c : Env × Op D) : Prop :=
  match c.2 with
  | .executeDpQuery a q _ sensitivity cost _ _ =>
    Affordable s c.1 a sensitivity cost → s.inst .dpQuery q = none
  | _ => True

instance Affordable.decidable (s : State D) (env : Env) (a : Address) (sensitivity cost : ℕ) :
    Decidable (Affordable s env a sensitivity cost) :=
  inferInstanceAs (Decidable (_ ∧ _ ∧ ∃ b ∈ s.inst .budget (), _ ∧ _ ∧ _))

instance FreshId.decidable (s : State D) : (c : Env × Op D) → Decidable (FreshId s c)
  | (env, .executeDpQuery a q _ sensitivity cost _ _) =>
    inferInstanceAs (Decidable (Affordable s env a sensitivity cost → s.inst .dpQuery q = none))
  | (_, .startFlRound ..) | (_, .submitFlGradient ..) | (_, .aggregateFlRound ..)
  | (_, .createSmpcSession ..) | (_, .submitSmpcCommitment ..) | (_, .finalizeSmpcSession ..)
  | (_, .recordHomomorphicMetric ..) => inferInstanceAs (Decidable True)

/-! ## Effects -/

section
variable {zeros : D} {env : Env} {s s' : State D} {a : Address} {q : D} {k : DPQueryType}
  {n cost : ℕ} {m : NoiseMechanism} {r r' : ℤ} {c : Env × Op D} {tr : List (State D × (Env × Op D))}

/-- The ledger after a query. -/
def afterQuery (s : State D) (b : PrivacyBudget) (x : DPQueryRecord D) : State D :=
  (s.put .budget () { b with
    spentEpsilonScaled := b.spentEpsilonScaled + x.epsilonCostScaled
    queryCount := b.queryCount + 1 }).put .dpQuery x.queryId x

/-- What a query leaves. -/
theorem queried (h : (executeDpQuery a q k n cost m r).run env s = .ok (r', s')) :
    env.auth a = true ∧ n ≠ 0 ∧ ∃ b, s.inst .budget () = some b ∧
      b.spentEpsilonScaled + cost < 2 ^ 64 ∧ b.spentEpsilonScaled + cost ≤ b.maxEpsilonScaled ∧
      b.queryCount + 1 < 2 ^ 32 ∧ s' = afterQuery s b ⟨q, k, a, n, cost, m, r, env.timestamp⟩ := by
  refine Post.of_run (m := executeDpQuery a q k n cost m r) (Q := fun _ s' => env.auth a = true ∧ n ≠ 0 ∧
    ∃ b, s.inst .budget () = some b ∧ b.spentEpsilonScaled + cost < 2 ^ 64 ∧
      b.spentEpsilonScaled + cost ≤ b.maxEpsilonScaled ∧ b.queryCount + 1 < 2 ^ 32 ∧
      s' = afterQuery s b ⟨q, k, a, n, cost, m, r, env.timestamp⟩) ?_ h
  simp only [executeDpQuery, post_bind, post_requireAuth, post_load, post_unwrapOr, post_addChecked,
    post_rejectIf, post_store, post_getEnv, post_pure, not_lt]
  intro ha b hb hlt hle hn hcount
  exact ⟨ha, hn, b, hb, hlt, hle, hcount, rfl⟩

/-- **When a query is answered.** -/
theorem executeDpQuery_ok_iff :
    (∃ r' s', (executeDpQuery a q k n cost m r).run env s = .ok (r', s')) ↔ Affordable s env a n cost := by
  constructor
  · rintro ⟨r', s', h⟩
    obtain ⟨ha, hn, b, hb, hlt, hle, hcount, -⟩ := queried h
    exact ⟨ha, hn, b, hb, hlt, hle, hcount⟩
  · rintro ⟨ha, hn, b, hb, hlt, hle, hcount⟩
    have hauth : (requireAuth a : Fn D Unit).run env s = .ok ((), s) := by rw [run_requireAuth, if_pos ha]
    have hbudget : (unwrapOr (s.inst .budget ()) .notInitialized : Fn D PrivacyBudget).run env s =
        .ok (b, s) := by
      rw [hb]
      rfl
    have hroom : (rejectIf (b.spentEpsilonScaled + cost > b.maxEpsilonScaled)
        .budgetExhausted : Fn D Unit).run
        env s = .ok ((), s) := by rw [run_rejectIf, if_neg (Nat.not_lt.2 hle)]
    have hsens : (rejectIf (n = 0) .invalidSensitivity : Fn D Unit).run env s = .ok ((), s) := by
      rw [run_rejectIf, if_neg hn]
    refine ⟨r, afterQuery s b ⟨q, k, a, n, cost, m, r, env.timestamp⟩, ?_⟩
    rw [executeDpQuery, run_bind_ok _ _ hauth, run_bind_ok _ _ (run_load ..), run_bind_ok _ _ hbudget,
      run_bind_ok _ _ (run_addChecked _ _ hlt), run_bind_ok _ _ hroom, run_bind_ok _ _ hsens,
      run_bind_ok _ _ (run_addChecked _ _ hcount)]
    rfl

/-! ## Calls -/

theorem totalCost_concat {p : State D × (Env × Op D)} :
    totalCost zeros (tr ++ [p]) = totalCost zeros tr + charged zeros p := sum_map_concat

/-- A call that is refused, or concerns neither the budget nor the records. -/
theorem BudgetSound.same (h : BudgetSound zeros tr s) (hb : s'.inst .budget = s.inst .budget)
    (hq : s'.inst .dpQuery = s.inst .dpQuery) (hcost : charged zeros (s, c) = 0) :
    BudgetSound zeros (tr ++ [(s, c)]) s' where
  bounded := by rw [hb]; exact h.bounded
  spent := by rw [hb, totalCost_concat, hcost]; exact h.spent
  recorded := by
    rw [hb]
    intro b hmem
    exact (h.recorded b hmem).congr fun k => by rw [recordedCost, recordedCost, hq]
  count := by rw [hb, hq]; exact h.count
  refused _ _ _ he := attempted_refused he

/-- **An answered query keeps the budget sound exactly when its id is new.** -/
theorem queried_sound {env : Env} (h : BudgetSound zeros tr s)
    (hr : (executeDpQuery a q k n cost m r).run env s = .ok (r', s'))
    (hcost : charged zeros (s, c) = cost) :
    BudgetSound zeros (tr ++ [(s, c)]) s' ↔ s.inst .dpQuery q = none := by
  obtain ⟨-, -, b, hb, -, hle, -, hs'⟩ := queried hr
  have hb' : s'.inst .budget () = some { b with
      spentEpsilonScaled := b.spentEpsilonScaled + cost
      queryCount := b.queryCount + 1 } := by
    rw [hs', afterQuery, Ledger.put_inst, Store.set_ne, Ledger.put_inst, Store.set_same,
      Function.update_self]
    nofun
  have hq' : s'.inst .dpQuery = Function.update (s.inst .dpQuery) q
      (some ⟨q, k, a, n, cost, m, r, env.timestamp⟩) := by
    rw [hs', afterQuery, Ledger.put_inst, Store.set_same, Ledger.put_inst, Store.set_ne]
    nofun
  have hself : recordedCost s' q = cost := by
    rw [recordedCost, hq', Function.update_self]
    rfl
  have hother : ∀ j, j ≠ q → recordedCost s' j = recordedCost s j := by
    intro j hj
    rw [recordedCost, hq', Function.update_of_ne hj]
    rfl
  constructor
  · intro h'
    have hcount := h'.count _ hb'
    rw [hq', stored_update] at hcount
    by_contra hold
    rw [Set.insert_eq_of_mem (mem_stored.2 (Option.isSome_iff_ne_none.2 hold)), ← h.count b hb] at hcount
    exact Nat.succ_ne_self _ (Nat.cast_injective hcount)
  · intro hnew
    have hzero : recordedCost s q = 0 := by rw [recordedCost, hnew]; rfl
    have hfresh : q ∉ stored (s.inst .dpQuery) := by rw [mem_stored, hnew]; nofun
    refine ⟨?_, ?_, ?_, ?_, fun _ _ _ he => attempted_refused he⟩ <;> intro y hy <;>
      obtain rfl := Option.some.inj (hb'.symm.trans hy)
    · exact hle
    · rw [totalCost_concat, hcost, ← h.spent b hb]
    · rw [(h.recorded b hb).change hother, hself, hzero, Nat.add_zero]
    · rw [hq', stored_update, Set.encard_insert_of_notMem hfresh, ← h.count b hb, Nat.cast_succ]

/-- **A call keeps the budget sound exactly when it has a new id.** -/
theorem budgetSound_concat (hs : Tries (exec zeros) s c s') (h : BudgetSound zeros tr s) :
    BudgetSound zeros (tr ++ [(s, c)]) s' ↔ FreshId s c := by
  obtain ⟨env, op⟩ := c
  rcases hr : (exec zeros op).run env s with e | ⟨r, s₁⟩
  · obtain rfl : s' = s := hs.trans (attempted_error hr)
    have hout : outcome (exec zeros) s' (env, op) = .error e := by rw [outcome, hr]; rfl
    refine iff_of_true (h.same rfl rfl (by rw [charged, hout]; rfl)) ?_
    cases op with
    | executeDpQuery a q k n cost m i =>
      intro hafford
      obtain ⟨r', s₁, hok⟩ := executeDpQuery_ok_iff.2 hafford
      rw [exec, run_bind_ok _ _ hok] at hr
      cases hr
    | _ => trivial
  · obtain rfl : s' = s₁ := hs.trans (attempted_ok hr)
    have hframe := (exec_writes zeros op).of_run hr
    have hout : outcome (exec zeros) s (env, op) = .ok r := by rw [outcome, hr]; rfl
    cases op with
    | executeDpQuery a q k n cost m i =>
      obtain ⟨r', hq, -⟩ := of_run_map _ _ hr
      rw [queried_sound h hq (by rw [charged, hout]; rfl), FreshId]
      exact ⟨fun hn _ => hn, fun hn => hn (executeDpQuery_ok_iff.1 ⟨r', s', hq⟩)⟩
    | _ => exact iff_of_true (h.same (hframe.inst (notMem_of_eval rfl)) (hframe.inst (notMem_of_eval rfl))
        (by rw [charged, hout]; rfl)) trivial

/-- **The budget is accounted and evidenced throughout a run** if and only if every query it has room
    for has an id of its own. -/
theorem history_budget {s₀ : State D} (h₀ : Fresh s₀) (h : Run (Tries (exec zeros)) s₀ tr s) :
    ((∀ before p after, tr = before ++ p :: after → BudgetSound zeros before p.1) ∧
      BudgetSound zeros tr s) ↔ ∀ p ∈ tr, FreshId p.1 p.2 := by
  refine (Run.throughout_iff (I := BudgetSound zeros) (C := fun _ p => FreshId p.1 p.2) ?_
    (fun _ _ _ _ _ hs h => budgetSound_concat hs h) h).trans Run.forall_cut_iff
  have hnone : ∀ q, s₀.inst .dpQuery q = none := h₀.eq_none (f := .dpQuery) (by decide)
  have hbudget : ∀ b ∈ s₀.inst .budget (), b.spentEpsilonScaled = 0 ∧ b.queryCount = 0 := by
    rcases h₀ with rfl | ⟨env, a, n, m, h⟩
    · nofun
    · rw [initialized h, Ledger.put_inst, Store.set_ne, Ledger.put_inst, Store.set_same,
        Function.update_self]
      · rintro b ⟨⟩
        exact ⟨rfl, rfl⟩
      · nofun
  have hstored : stored (s₀.inst .dpQuery) = ∅ := by
    ext q
    rw [mem_stored, hnone q]
    exact iff_of_false nofun nofun
  refine ⟨fun b hb => ?_, fun b hb => ?_, fun b hb => ?_, fun b hb => ?_, nofun⟩
  · rw [(hbudget b hb).1]
    exact Nat.zero_le _
  · exact (hbudget b hb).1
  · rw [(hbudget b hb).1]
    exact sumsTo_zero fun q => by rw [recordedCost, hnone q]; rfl
  · rw [(hbudget b hb).2, hstored, Set.encard_empty, Nat.cast_zero]

end

/-! ## Scripts -/

/-- A budget of 1000. -/
def openBudget : State Bytes :=
  (((Ledger.empty : State Bytes).put .admin () (account 65)).put .budget () ⟨1000, 0, 0, 0, 0, 0⟩).put
    .nextRoundId () 1

theorem openBudget_fresh : Fresh openBudget := .inr ⟨openEnv 0, account 65, 1000, 0, rfl⟩

/-- What is recorded of a query. -/
def queryRecord (q : Bytes) (cost : ℕ) : DPQueryRecord Bytes :=
  ⟨q, .count, account 66, 1, cost, .laplace, 7, 1⟩

/-- The query. -/
def query (q : Bytes) (cost : ℕ) : Env × Op Bytes :=
  (openEnv 1, .executeDpQuery (account 66) q .count 1 cost .laplace 7)

/-- Two queries are answered; the one between them is too expensive. -/
def queries : List (Env × Op Bytes) := [query [1] 100, query [2] 950, query [3] 200]

theorem history_budget_queries :
    ∃ tr s, Run (Tries (exec [0])) openBudget tr s ∧ tr.map Prod.snd = queries ∧
      ((∀ before p after, tr = before ++ p :: after → BudgetSound [0] before p.1) ∧
        BudgetSound [0] tr s) := by
  have hrun : Run (Tries (exec [0])) openBudget (triesOf (exec [0]) openBudget queries) _ := run_tries
  exact ⟨_, _, hrun, map_snd_triesOf, (history_budget openBudget_fresh hrun).2 (by decide)⟩

/-- The same id twice. -/
def repeated : List (Env × Op Bytes) := [query [1] 100, query [1] 100]

/-- **Twice the cost of the recorded queries can be spent.** -/
theorem record_replaced :
    ∃ tr s b, Run (Tries (exec [0])) openBudget tr s ∧ tr.map Prod.snd = repeated ∧
      s.inst .budget () = some b ∧ b.spentEpsilonScaled = 200 ∧ b.queryCount = 2 ∧
      stored (s.inst .dpQuery) = {[1]} ∧ SumsTo (recordedCost s) 100 ∧ ¬BudgetSound [0] tr s := by
  obtain ⟨s, hs⟩ : ∃ s, s = attempt (exec [0]) openBudget repeated := ⟨_, rfl⟩
  have hq : s.inst .dpQuery = Function.update (Function.update (fun _ => none) [1]
      (some (queryRecord [1] 100))) [1] (some (queryRecord [1] 100)) := by
    rw [hs]
    rfl
  have hb : s.inst .budget () = some ⟨1000, 0, 200, 0, 2, 0⟩ := by
    rw [hs]
    decide
  have hkeys : stored (s.inst .dpQuery) = {[1]} := by
    ext q
    rw [hq, Function.update_idem, mem_stored, Function.update_apply, Set.mem_singleton_iff]
    by_cases h : q = [1] <;> simp [h]
  have hcosts : SumsTo (recordedCost s) 100 := by
    refine ⟨{[1]}, fun q h => ?_, ?_⟩
    · rw [recordedCost, hq, Function.update_idem, Function.update_of_ne (by simpa using h)]
      rfl
    · rw [Finset.sum_singleton, recordedCost, hq, Function.update_self]
      rfl
  have hrun : Run (Tries (exec [0])) openBudget (triesOf (exec [0]) openBudget repeated) s := by
    rw [hs]
    exact run_tries
  refine ⟨_, s, _, hrun, map_snd_triesOf, hb, rfl, rfl, hkeys, hcosts, fun h => ?_⟩
  exact absurd (hcosts.unique (h.recorded _ hb)) (by decide)

end PrivacyAnalytics
