/-
  DAOTreasury — what has been paid.

  The balance of a fund is what was deposited minus what its executed allocations are
  worth, each counted once (`PaidOnce`).  An allocation stays approved after it was
  executed, and `execute_allocation` does not look at its execution ledger: it can be paid
  again.

  * `TouchesFund`, `TouchesAllocation`: all that a step can do to a fund and to an
    allocation;
  * `kept_of_run`: approvals, limits and the sum of balance and used budget are right in
    every run;
  * `history_paidOnce`: exactly when every allocation is paid at most once.
-/
import AuditTransparency.Treasury.Contract
import AuditTransparency.Soroban.Sums
import AuditTransparency.Ledger.Contract

namespace DAOTreasury

open Soroban
open Soroban.Call
open AuditLedger (openEnv account)

/-- The allocation that a call executes. -/
def executionOf (c : Env × Op) : Option ℕ :=
  match c.2 with
  | .executeAllocation i => some i
  | _ => none

/-- The executions of a trace, each given by its allocation. -/
def executions (tr : List (State × (Env × Op))) : List ℕ := tr.filterMap fun p => executionOf p.2

/-- The allocation has been executed. -/
abbrev Executed (tr : List (State × (Env × Op))) (i : ℕ) : Prop := i ∈ executions tr

/-- The addresses that have approved an allocation when they were configured signers. -/
def approvers (tr : List (State × (Env × Op))) (i : ℕ) : Set Address :=
  {a | ∃ p ∈ tr, p.2.2 = .approveAllocation a i ∧ ∃ c ∈ p.1.inst .config (), a ∈ c.signers}

/-- What a call deposits in a fund. -/
def depositIn (f : String) (c : Env × Op) : ℕ :=
  match c.2 with
  | .deposit g n => if g = f then n else 0
  | _ => 0

/-- The sum of the deposits in a fund. -/
def depositedIn (tr : List (State × (Env × Op))) (f : String) : ℕ := (tr.map fun p => depositIn f p.2).sum

/-- What an allocation has cost a fund, if it is paid once. -/
def paid (tr : List (State × (Env × Op))) (s : State) (f : String) (i : ℕ) : ℕ :=
  (s.inst .allocation i).elim 0 fun x => if x.fundName = f ∧ Executed tr i then x.amount else 0

/-- What the treasury promises, after the steps of a trace. -/
structure PaidOnce (tr : List (State × (Env × Op))) (s : State) : Prop where
  balance : ∀ f, ∀ y ∈ s.inst .fund f, ∃ n, SumsTo (paid tr s f) n ∧ y.balance + n = depositedIn tr f ∧
    y.budgetUsed = n ∧ n ≤ y.budgetLimit
  approved : ∀ i, Executed tr i → ∃ x ∈ s.inst .allocation i,
    (x.requiredApprovals : ℕ∞) ≤ (approvers tr i).encard

/-- An execution is of an allocation that has not been executed. -/
def PaysNew (tr : List (State × (Env × Op))) (p : State × (Env × Op)) : Prop :=
  ∀ i, p.2.2 = .executeAllocation i → ¬Executed tr i

/-- There are no funds and no allocations yet. -/
structure NoFunds (s : State) : Prop where
  fund : ∀ f, s.inst .fund f = none
  allocation : ∀ i, s.inst .allocation i = none
  approval : ∀ i a, s.inst .allocationApproval (i, a) = none

/-! ## Effects -/

/-- What a call does to a fund. -/
inductive TouchesFund (s : State) (f : String) (s' : State) : Env × Op → Prop
  | same {c} : s'.inst .fund f = s.inst .fund f → depositIn f c = 0 →
      (∀ i, c.2 = .executeAllocation i → ∃ x ∈ s.inst .allocation i, x.fundName ≠ f) → TouchesFund s f s' c
  | create {env n m y} : s.inst .fund f = none → s'.inst .fund f = some y → y.balance = 0 →
      y.budgetUsed = 0 → TouchesFund s f s' (env, .createFund f n m)
  | deposit {env n y} : s.inst .fund f = some y →
      s'.inst .fund f = some { y with balance := y.balance + n } → TouchesFund s f s' (env, .deposit f n)
  | pay {env i x y} : s.inst .allocation i = some x → x.fundName = f → s.inst .fund f = some y →
      x.amount + y.budgetUsed ≤ y.budgetLimit → x.amount ≤ y.balance →
      s'.inst .fund f = some { y with
        balance := y.balance - x.amount
        budgetUsed := y.budgetUsed + x.amount } → TouchesFund s f s' (env, .executeAllocation i)

/-- What a call does to an allocation. -/
inductive TouchesAllocation (s : State) (i : ℕ) (s' : State) : Env × Op → Prop
  | same {c} : s'.inst .allocation i = s.inst .allocation i → (∀ a, c.2 ≠ .approveAllocation a i) →
      c.2 ≠ .executeAllocation i → TouchesAllocation s i s' c
  | request {env a f n p x} : i = nextId s → s'.inst .allocation i = some x → x.amount ≠ 0 →
      x.approved = false → x.approvalCount = 0 → TouchesAllocation s i s' (env, .requestAllocation a f n p)
  | approve {env a c x} : s.inst .config () = some c → a ∈ c.signers →
      s.inst .allocationApproval (i, a) ≠ some true → s.inst .allocation i = some x →
      s'.inst .allocation i = some { x with
        approvalCount := x.approvalCount + 1
        approved := if x.approvalCount + 1 ≥ x.requiredApprovals then true else x.approved } →
      TouchesAllocation s i s' (env, .approveAllocation a i)
  | execute {env x} : s.inst .allocation i = some x → x.approved = true →
      s'.inst .allocation i = some { x with executionLedger := env.sequence } →
      TouchesAllocation s i s' (env, .executeAllocation i)

section
variable {s₀ s s' : State} {f : String} {i : ℕ} {a : Address} {c : Env × Op}
  {tr : List (State × (Env × Op))}

/-- The treasury starts without funds and allocations. -/
theorem noFunds_initialized {b : Address} {l : List Address} {n : ℕ} {env : Env}
    (h : (initializeTreasury a b l n).run env Ledger.empty = .ok ((), s)) : NoFunds s := by
  refine Post.of_run (m := initializeTreasury a b l n) (Q := fun _ s => NoFunds s) ?_ h
  simp only [initializeTreasury, post_bind, post_requireAuth, post_load, post_rejectIf, post_store]
  intro _ _
  exact ⟨fun _ => rfl, fun _ => rfl, fun _ _ => rfl⟩

theorem touchesFund (hs : Steps exec s c s') (f : String) : TouchesFund s f s' c := by
  obtain ⟨env, op⟩ := c
  obtain ⟨_, hs⟩ := hs
  have hframe := (exec_writes op).of_run hs
  cases op with
  | createFund g n m =>
    obtain ⟨_, hr, -⟩ := of_run_map _ _ hs
    obtain ⟨hnone, l, rfl⟩ := created hr
    by_cases hf : f = g
    · subst hf
      exact .create hnone (Function.update_self ..) rfl rfl
    · exact .same (Function.update_of_ne hf ..) rfl nofun
  | deposit g n =>
    obtain ⟨_, hr, -⟩ := of_run_map _ _ hs
    obtain ⟨y, hy, rfl⟩ := deposited hr
    by_cases hf : f = g
    · subst hf
      exact .deposit hy (Function.update_self ..)
    · exact .same (Function.update_of_ne hf ..) (if_neg (Ne.symm hf)) nofun
  | executeAllocation i =>
    obtain ⟨_, hr, -⟩ := of_run_map _ _ hs
    obtain ⟨x, y, hx, -, hy, hlimit, hbal, rfl⟩ := executed hr
    by_cases hf : x.fundName = f
    · subst hf
      exact .pay hx rfl hy hlimit hbal (Function.update_self ..)
    · refine .same (Function.update_of_ne (Ne.symm hf) ..) rfl ?_
      rintro _ ⟨⟩
      exact ⟨x, hx, hf⟩
  | _ => exact .same (by rw [hframe.inst (notMem_of_eval rfl)]) rfl nofun

theorem touchesAllocation (hs : Steps exec s c s') (i : ℕ) : TouchesAllocation s i s' c := by
  obtain ⟨env, op⟩ := c
  obtain ⟨_, hs⟩ := hs
  have hframe := (exec_writes op).of_run hs
  cases op with
  | requestAllocation a f n p =>
    obtain ⟨_, hr, -⟩ := of_run_map _ _ hs
    obtain ⟨hn, m, rfl⟩ := requested hr
    by_cases hi : i = nextId s
    · subst hi
      exact .request rfl (Function.update_self ..) hn rfl rfl
    · exact .same (Function.update_of_ne hi ..) nofun nofun
  | approveAllocation a j =>
    obtain ⟨_, hr, -⟩ := of_run_map _ _ hs
    obtain ⟨c, x, hc, ha, hx, hnew, rfl⟩ := approved hr
    by_cases hi : i = j
    · subst hi
      exact .approve hc ha hnew hx (Function.update_self ..)
    · refine .same (Function.update_of_ne hi ..) ?_ nofun
      rintro _ ⟨⟩
      exact hi rfl
  | executeAllocation j =>
    obtain ⟨_, hr, -⟩ := of_run_map _ _ hs
    obtain ⟨x, y, hx, happ, -, -, -, rfl⟩ := executed hr
    by_cases hi : i = j
    · subst hi
      exact .execute hx happ (Function.update_self ..)
    · refine .same (Function.update_of_ne hi ..) nofun ?_
      rintro ⟨⟩
      exact hi rfl
  | _ => exact .same (by rw [hframe.inst (notMem_of_eval rfl)]) nofun nofun

/-- Ids do not run backwards, and a request uses one up. -/
theorem nextId_step (hs : Steps exec s c s') :
    nextId s ≤ nextId s' ∧ ∀ a f n p, c.2 = .requestAllocation a f n p → nextId s' = nextId s + 1 := by
  obtain ⟨env, op⟩ := c
  obtain ⟨_, hs⟩ := hs
  have hframe := (exec_writes op).of_run hs
  cases op with
  | requestAllocation a f n p =>
    obtain ⟨_, hr, -⟩ := of_run_map _ _ hs
    obtain ⟨-, m, rfl⟩ := requested hr
    exact ⟨Nat.le_succ _, fun _ _ _ _ _ => rfl⟩
  | _ => exact ⟨by rw [nextId, nextId, hframe.inst (notMem_of_eval rfl)], nofun⟩

/-- An approval is recorded, and no other. -/
theorem approval_step (hs : Steps exec s c s') : s'.inst .allocationApproval (i, a) = some true ↔
    s.inst .allocationApproval (i, a) = some true ∨ c.2 = .approveAllocation a i := by
  obtain ⟨env, op⟩ := c
  obtain ⟨_, hs⟩ := hs
  have hframe := (exec_writes op).of_run hs
  cases op with
  | approveAllocation b j =>
    obtain ⟨_, hr, -⟩ := of_run_map _ _ hs
    obtain ⟨c, x, hc, ha, hx, hnew, rfl⟩ := approved hr
    by_cases hk : (i, a) = (j, b)
    · obtain ⟨rfl, rfl⟩ := Prod.mk.inj hk
      exact iff_of_true (Function.update_self ..) (.inr rfl)
    · rw [or_iff_left (by rintro ⟨⟩; exact hk rfl)]
      exact iff_of_eq (congrArg (· = some true) (Function.update_of_ne hk ..))
  | _ => rw [hframe.inst (notMem_of_eval rfl), or_iff_left nofun]

/-! ## Traces -/

theorem executionOf_eq : executionOf c = some i ↔ c.2 = .executeAllocation i := by
  obtain ⟨env, op⟩ := c
  cases op with
  | executeAllocation j => exact ⟨by rintro ⟨⟩; rfl, by rintro ⟨⟩; rfl⟩
  | _ => exact iff_of_false nofun nofun

theorem executions_concat : executions (tr ++ [(s, c)]) = executions tr ++ (executionOf c).toList :=
  filterMap_concat

theorem executed_concat : Executed (tr ++ [(s, c)]) i ↔ Executed tr i ∨ c.2 = .executeAllocation i := by
  rw [Executed, executions_concat, List.mem_append, Option.mem_toList, executionOf_eq]

/-- No allocation is executed twice when every execution is the first. -/
theorem nodup_executions : (executions tr).Nodup ↔
    ∀ before p after, tr = before ++ p :: after → PaysNew before p := by
  induction tr using List.reverseRecOn with
  | nil => simp [executions]
  | append_singleton tr p ih =>
    obtain ⟨s, c⟩ := p
    rw [Run.forall_cut_concat, ← ih, executions_concat, nodup_append_toList]
    refine and_congr_right fun _ => forall_congr' fun i => imp_congr ?_ Iff.rfl
    exact executionOf_eq

theorem depositedIn_concat : depositedIn (tr ++ [(s, c)]) f = depositedIn tr f + depositIn f c :=
  sum_map_concat

theorem mem_approvers_concat : a ∈ approvers (tr ++ [(s, c)]) i ↔ a ∈ approvers tr i ∨
    c.2 = .approveAllocation a i ∧ ∃ x ∈ s.inst .config (), a ∈ x.signers := by
  simp only [approvers, Set.mem_ofPred_eq, List.mem_append, List.mem_singleton, or_and_right, exists_or,
    exists_eq_left]

/-- A call that approves no allocation `i`. -/
theorem approvers_same (h : ∀ a, c.2 ≠ .approveAllocation a i) :
    approvers (tr ++ [(s, c)]) i = approvers tr i := by
  ext a
  rw [mem_approvers_concat, or_iff_left fun hc => h a hc.1]

/-! ## What every run keeps -/

/-- What holds of funds and allocations in every run. -/
structure Kept (tr : List (State × (Env × Op))) (s : State) : Prop where
  unused : ∀ i, nextId s ≤ i → s.inst .allocation i = none
  unknown : ∀ i, s.inst .allocation i = none → ¬Executed tr i ∧ approvers tr i = ∅
  amount : ∀ i, ∀ x ∈ s.inst .allocation i, x.amount ≠ 0
  approvals : ∀ i a, s.inst .allocationApproval (i, a) = some true ↔ a ∈ approvers tr i
  count : ∀ i, ∀ x ∈ s.inst .allocation i, (x.approvalCount : ℕ∞) = (approvers tr i).encard
  threshold : ∀ i, ∀ x ∈ s.inst .allocation i, x.approved = true → x.requiredApprovals ≤ x.approvalCount
  executed : ∀ i, Executed tr i → ∀ x ∈ s.inst .allocation i, x.approved = true
  unfunded : ∀ f, s.inst .fund f = none → depositedIn tr f = 0 ∧ ∀ i, paid tr s f i = 0
  books : ∀ f, ∀ y ∈ s.inst .fund f, y.balance + y.budgetUsed = depositedIn tr f
  limit : ∀ f, ∀ y ∈ s.inst .fund f, y.budgetUsed ≤ y.budgetLimit

/-- What a fund has paid for an allocation changes only when it pays for it. -/
theorem Kept.paid_same (h : Kept tr s) (hs : Steps exec s c s')
    (hno : c.2 = .executeAllocation i → ∃ x ∈ s.inst .allocation i, x.fundName ≠ f) :
    paid (tr ++ [(s, c)]) s' f i = paid tr s f i := by
  rw [paid, paid]
  cases touchesAllocation hs i with
  | same hx _ hne =>
    rw [hx]
    simp only [executed_concat, hne, or_false]
  | request hi hx =>
    rw [h.unused i hi.ge, hx]
    refine if_neg fun hc => ?_
    rw [executed_concat, or_iff_left nofun] at hc
    exact (h.unknown i (h.unused i hi.ge)).1 hc.2
  | approve _ _ _ hx hx' =>
    rw [hx, hx']
    simp only [Option.elim_some, executed_concat, reduceCtorEq, or_false]
  | execute hx _ hx' =>
    obtain ⟨y, hy, hf⟩ := hno rfl
    obtain rfl := Option.some.inj (hx.symm.trans hy)
    rw [hx, hx', Option.elim_some, Option.elim_some, if_neg fun hc => hf hc.1, if_neg fun hc => hf hc.1]

theorem Kept.unused_step (h : Kept tr s) (hs : Steps exec s c s') :
    ∀ i, nextId s' ≤ i → s'.inst .allocation i = none := by
  intro i hi
  have hnext := nextId_step hs
  have hnone := h.unused i (hnext.1.trans hi)
  cases touchesAllocation hs i with
  | same hx => rw [hx, hnone]
  | request he =>
    have := hnext.2 _ _ _ _ rfl
    omega
  | approve _ _ _ hx | execute hx => rw [hnone] at hx; cases hx

theorem Kept.unknown_step (h : Kept tr s) (hs : Steps exec s c s') :
    ∀ i, s'.inst .allocation i = none → ¬Executed (tr ++ [(s, c)]) i ∧ approvers (tr ++ [(s, c)]) i = ∅ := by
  intro i hi
  cases touchesAllocation hs i with
  | same hx hna hne =>
    obtain ⟨hune, hnone⟩ := h.unknown i (hx ▸ hi)
    rw [approvers_same hna, executed_concat, or_iff_left hne]
    exact ⟨hune, hnone⟩
  | request _ hx | approve _ _ _ _ hx | execute _ _ hx => rw [hi] at hx; cases hx

theorem Kept.amount_step (h : Kept tr s) (hs : Steps exec s c s') :
    ∀ i, ∀ x ∈ s'.inst .allocation i, x.amount ≠ 0 := by
  intro i y hy
  cases touchesAllocation hs i with
  | same hx => exact h.amount i y (hx ▸ hy)
  | request _ hx hn =>
    obtain rfl := Option.some.inj (hx.symm.trans hy)
    exact hn
  | approve _ _ _ hx hx' | execute hx _ hx' =>
    obtain rfl := Option.some.inj (hx'.symm.trans hy)
    exact (h.amount i _ hx :)

/-- An approval is by a signer. -/
theorem Kept.approvals_step (h : Kept tr s) (hs : Steps exec s c s') :
    ∀ i a, s'.inst .allocationApproval (i, a) = some true ↔ a ∈ approvers (tr ++ [(s, c)]) i := by
  intro i a
  rw [approval_step hs, mem_approvers_concat, h.approvals]
  refine or_congr_right (iff_self_and.2 fun hc => ?_)
  obtain ⟨env, op⟩ := c
  obtain rfl : op = .approveAllocation a i := hc
  obtain ⟨_, hs⟩ := hs
  obtain ⟨_, hr, -⟩ := of_run_map _ _ hs
  obtain ⟨c, x, hc, ha, -⟩ := DAOTreasury.approved hr
  exact ⟨c, hc, ha⟩

/-- An approval by a signer. -/
theorem approvers_approve {env : Env} {g : TreasuryConfig} (hc : s.inst .config () = some g)
    (ha : a ∈ g.signers) :
    approvers (tr ++ [(s, env, .approveAllocation a i)]) i = insert a (approvers tr i) := by
  ext b
  rw [mem_approvers_concat, Set.mem_insert_iff, or_comm]
  refine or_congr_left ⟨?_, ?_⟩
  · rintro ⟨⟨⟩, -⟩
    rfl
  · rintro rfl
    exact ⟨rfl, g, hc, ha⟩

/-- Every approval is counted once. -/
theorem Kept.count_step (h : Kept tr s) (hs : Steps exec s c s') :
    ∀ i, ∀ x ∈ s'.inst .allocation i, (x.approvalCount : ℕ∞) = (approvers (tr ++ [(s, c)]) i).encard := by
  intro i y hy
  cases touchesAllocation hs i with
  | same hx hna => rw [approvers_same hna]; exact h.count i y (hx ▸ hy)
  | request hi hx hn _ hc =>
    obtain rfl := Option.some.inj (hx.symm.trans hy)
    rw [approvers_same (by nofun), (h.unknown i (h.unused i hi.ge)).2, hc, Set.encard_empty, Nat.cast_zero]
  | @approve env a c x hc ha hnew hx hx' =>
    obtain rfl := Option.some.inj (hx'.symm.trans hy)
    rw [approvers_approve hc ha, Set.encard_insert_of_notMem (mt (h.approvals i a).2 hnew), ← h.count i x hx,
      Nat.cast_succ]
  | execute hx _ hx' =>
    obtain rfl := Option.some.inj (hx'.symm.trans hy)
    rw [approvers_same (by nofun), ← h.count i _ hx]

theorem Kept.threshold_step (h : Kept tr s) (hs : Steps exec s c s') :
    ∀ i, ∀ x ∈ s'.inst .allocation i, x.approved = true → x.requiredApprovals ≤ x.approvalCount := by
  intro i y hy happ
  cases touchesAllocation hs i with
  | same hx => exact h.threshold i y (hx ▸ hy) happ
  | request _ hx _ hno =>
    obtain rfl := Option.some.inj (hx.symm.trans hy)
    rw [hno] at happ
    cases happ
  | @approve env a c x _ _ _ hx hx' =>
    obtain rfl := Option.some.inj (hx'.symm.trans hy)
    by_cases hge : x.approvalCount + 1 ≥ x.requiredApprovals
    · exact hge
    · rw [if_neg hge] at happ
      exact Nat.le_succ_of_le (h.threshold i _ hx happ)
  | execute hx ha hx' =>
    obtain rfl := Option.some.inj (hx'.symm.trans hy)
    exact (h.threshold i _ hx ha :)

theorem Kept.executed_step (h : Kept tr s) (hs : Steps exec s c s') :
    ∀ i, Executed (tr ++ [(s, c)]) i → ∀ x ∈ s'.inst .allocation i, x.approved = true := by
  intro i he y hy
  rw [executed_concat] at he
  cases touchesAllocation hs i with
  | same hx _ hne => exact h.executed i (he.resolve_right hne) y (hx ▸ hy)
  | request hi => exact absurd (he.resolve_right nofun) (h.unknown i (h.unused i hi.ge)).1
  | approve _ _ _ hx hx' =>
    obtain rfl := Option.some.inj (hx'.symm.trans hy)
    have hold := h.executed i (he.resolve_right nofun) _ hx
    rw [hold, ite_self]
  | execute hx ha hx' =>
    obtain rfl := Option.some.inj (hx'.symm.trans hy)
    exact ha

theorem Kept.unfunded_step (h : Kept tr s) (hs : Steps exec s c s') :
    ∀ f, s'.inst .fund f = none → depositedIn (tr ++ [(s, c)]) f = 0 ∧ ∀ i,
      paid (tr ++ [(s, c)]) s' f i = 0 := by
  intro f hf
  cases touchesFund hs f with
  | same hy hd hno =>
    obtain ⟨h0, hp⟩ := h.unfunded f (hy ▸ hf)
    exact ⟨by rw [depositedIn_concat, h0, hd], fun i => (h.paid_same hs (hno i)).trans (hp i)⟩
  | create _ hy | deposit _ hy | pay _ _ _ _ _ hy => rw [hf] at hy; cases hy

/-- What a fund pays is moved from its balance to its used budget. -/
theorem Kept.books_step (h : Kept tr s) (hs : Steps exec s c s') :
    ∀ f, ∀ y ∈ s'.inst .fund f, y.balance + y.budgetUsed = depositedIn (tr ++ [(s, c)]) f := by
  intro f z hz
  rw [depositedIn_concat]
  cases touchesFund hs f with
  | same hy hd => rw [hd]; exact h.books f z (hy ▸ hz)
  | create hno hy hb hu =>
    obtain rfl := Option.some.inj (hy.symm.trans hz)
    rw [hb, hu, (h.unfunded f hno).1]
    rfl
  | @deposit env n y hy hy' =>
    obtain rfl := Option.some.inj (hy'.symm.trans hz)
    have hold := h.books f y hy
    have hnow : depositIn f (env, .deposit f n) = n := if_pos rfl
    rw [hnow, ← hold]
    exact Nat.add_right_comm ..
  | @pay env i x y hx hf hy hlimit hbal hy' =>
    obtain rfl := Option.some.inj (hy'.symm.trans hz)
    have hold := h.books f y hy
    have hnow : depositIn f (env, .executeAllocation i) = 0 := rfl
    rw [hnow, ← hold]
    show y.balance - x.amount + (y.budgetUsed + x.amount) = _
    omega

theorem Kept.limit_step (h : Kept tr s) (hs : Steps exec s c s') :
    ∀ f, ∀ y ∈ s'.inst .fund f, y.budgetUsed ≤ y.budgetLimit := by
  intro f z hz
  cases touchesFund hs f with
  | same hy => exact h.limit f z (hy ▸ hz)
  | create hno hy hb hu =>
    obtain rfl := Option.some.inj (hy.symm.trans hz)
    rw [hu]
    exact Nat.zero_le _
  | deposit hy hy' =>
    obtain rfl := Option.some.inj (hy'.symm.trans hz)
    exact (h.limit f _ hy :)
  | @pay env i x y hx hf hy hlimit hbal hy' =>
    obtain rfl := Option.some.inj (hy'.symm.trans hz)
    show y.budgetUsed + x.amount ≤ y.budgetLimit
    omega

theorem Kept.step (h : Kept tr s) (hs : Steps exec s c s') : Kept (tr ++ [(s, c)]) s' where
  unused := h.unused_step hs
  unknown := h.unknown_step hs
  amount := h.amount_step hs
  approvals := h.approvals_step hs
  count := h.count_step hs
  threshold := h.threshold_step hs
  executed := h.executed_step hs
  unfunded := h.unfunded_step hs
  books := h.books_step hs
  limit := h.limit_step hs

/-- **Approvals, limits and the sum of balance and used budget are right in every run.** -/
theorem kept_of_run (h₀ : NoFunds s₀) (h : Run (Steps exec) s₀ tr s) : Kept tr s := by
  induction h with
  | init =>
    have hnone : ∀ i, s₀.inst .allocation i = none := h₀.allocation
    have hfund : ∀ f, s₀.inst .fund f = none := h₀.fund
    refine ⟨fun i _ => hnone i, fun i _ => ⟨nofun, ?_⟩, ?_, fun i a => ?_, ?_, ?_, nofun,
      fun f _ => ⟨rfl, ?_⟩,
      ?_, ?_⟩
    · ext a
      simp [approvers]
    · simp [hnone]
    · simp [h₀.approval, approvers]
    · simp [hnone]
    · simp [hnone]
    · simp [paid, hnone]
    · simp [hfund]
    · simp [hfund]
  | snoc _ hs ih => exact ih.step hs

/-! ## Payments -/

/-- Where these are kept, the used budget is what matters. -/
theorem Kept.paidOnce_iff (h : Kept tr s) : PaidOnce tr s ↔
    ∀ f, ∀ y ∈ s.inst .fund f, SumsTo (paid tr s f) y.budgetUsed := by
  constructor
  · intro hp f y hy
    obtain ⟨n, hn, -, rfl, -⟩ := hp.balance f y hy
    exact hn
  · intro hp
    refine ⟨fun f y hy => ⟨_, hp f y hy, h.books f y hy, rfl, h.limit f y hy⟩, fun i hi => ?_⟩
    rcases hx : s.inst .allocation i with _ | x
    · exact absurd hi (h.unknown i hx).1
    · refine ⟨x, rfl, ?_⟩
      rw [← h.count i x hx]
      exact Nat.cast_le.2 (h.threshold i x hx (h.executed i hi x hx))

/-- **A step pays nothing twice exactly when it executes no allocation again.** -/
theorem paidOnce_concat (h : Kept tr s) (hs : Steps exec s c s') (hp : PaidOnce tr s) :
    PaidOnce (tr ++ [(s, c)]) s' ↔ PaysNew tr (s, c) := by
  have hsum := h.paidOnce_iff.1 hp
  have hsame : ∀ f, depositIn f c = 0 → s'.inst .fund f = s.inst .fund f →
      (∀ i, c.2 = .executeAllocation i → ∃ x ∈ s.inst .allocation i, x.fundName ≠ f) →
      ∀ z ∈ s'.inst .fund f, SumsTo (paid (tr ++ [(s, c)]) s' f) z.budgetUsed := by
    intro f _ hy hno z hz
    exact (hsum f z (hy ▸ hz)).congr fun i => (h.paid_same hs (hno i)).symm
  rw [(h.step hs).paidOnce_iff]
  by_cases hc : ∃ i, c.2 = .executeAllocation i
  · obtain ⟨i, hi⟩ := hc
    obtain ⟨env, op⟩ := c
    obtain rfl : op = .executeAllocation i := hi
    obtain ⟨_, hr⟩ := id hs
    obtain ⟨_, hr, -⟩ := of_run_map _ _ hr
    obtain ⟨x, y, hx, happ, hy, -, -, hs'⟩ := DAOTreasury.executed hr
    have hy' : s'.inst .fund x.fundName = some { y with
        balance := y.balance - x.amount
        budgetUsed := y.budgetUsed + x.amount } := by
      rw [hs']
      exact Function.update_self ..
    have hx' : s'.inst .allocation i = some { x with executionLedger := env.sequence } := by
      rw [hs']
      exact Function.update_self ..
    have hnow : paid (tr ++ [(s, env, .executeAllocation i)]) s' x.fundName i = x.amount := by
      rw [paid, hx', Option.elim_some]
      exact if_pos ⟨rfl, executed_concat.2 (.inr rfl)⟩
    have hother : ∀ j, j ≠ i → paid (tr ++ [(s, env, .executeAllocation i)]) s' x.fundName j =
        paid tr s x.fundName j := by
      intro j hj
      refine h.paid_same hs ?_
      rintro ⟨⟩
      exact absurd rfl hj
    have hpay : SumsTo (paid (tr ++ [(s, env, .executeAllocation i)]) s' x.fundName)
        (y.budgetUsed + x.amount) ↔ ¬Executed tr i := by
      rw [(hsum x.fundName y hy).change hother, hnow, paid, hx, Option.elim_some]
      have hne := h.amount i x hx
      split_ifs with he
      · exact iff_of_false (by omega) (not_not.2 he.2)
      · exact iff_of_true rfl fun hex => he ⟨rfl, hex⟩
    constructor
    · rintro hall _ ⟨⟩
      exact hpay.1 (hall _ _ hy')
    · intro hnew f z hz
      by_cases hf : f = x.fundName
      · subst hf
        obtain rfl := Option.some.inj (hy'.symm.trans hz)
        exact hpay.2 (hnew i rfl)
      · refine hsame f rfl ?_ ?_ z hz
        · rw [hs']
          exact Function.update_of_ne hf ..
        · rintro _ ⟨⟩
          exact ⟨x, hx, Ne.symm hf⟩
  · refine iff_of_true (fun f z hz => ?_) fun i hi => absurd ⟨i, hi⟩ hc
    have hpaid : ∀ i, paid (tr ++ [(s, c)]) s' f i = paid tr s f i :=
      fun i => h.paid_same hs fun hi => absurd ⟨i, hi⟩ hc
    cases touchesFund hs f with
    | same hy hd hno => exact hsame f hd hy hno z hz
    | create hno hy _ hu =>
      obtain rfl := Option.some.inj (hy.symm.trans hz)
      rw [hu]
      exact sumsTo_zero fun i => (hpaid i).trans ((h.unfunded f hno).2 i)
    | @deposit env n y hy hy' =>
      obtain rfl := Option.some.inj (hy'.symm.trans hz)
      have hold : SumsTo (paid tr s f) y.budgetUsed := hsum f y hy
      exact hold.congr fun i => (hpaid i).symm
    | pay => exact absurd ⟨_, rfl⟩ hc

/-- **The treasury pays every allocation at most once throughout a run** if and only if no allocation is
    executed twice. -/
theorem history_paidOnce (h₀ : NoFunds s₀) (h : Run (Steps exec) s₀ tr s) :
    ((∀ before p after, tr = before ++ p :: after → PaidOnce before p.1) ∧ PaidOnce tr s) ↔
      (executions tr).Nodup := by
  rw [nodup_executions]
  refine Run.throughout_iff ?_ (fun tr s c s' hr hs hp => paidOnce_concat (kept_of_run h₀ hr) hs hp) h
  exact (kept_of_run h₀ .init).paidOnce_iff.2 fun f y hy => (by rw [h₀.fund f] at hy; cases hy)

end

/-! ## Scripts -/

/-- A treasury with two signers, both of whom have to approve. -/
def signed : State :=
  ((((Ledger.empty : State).put .owner () (account 65)).put .config ()
    ⟨account 65, account 71, [account 66, account 67], 2, []⟩).put .allocationCounter () 0).put .fundNames () []

theorem signed_initialized :
    (initializeTreasury (account 65) (account 71) [account 66, account 67] 2).run (openEnv 0) Ledger.empty =
      .ok ((), signed) := rfl

theorem signed_noFunds : NoFunds signed := noFunds_initialized signed_initialized

/-- An allocation of 300 is requested, approved and paid from a fund of 1000. -/
def paidScript : List (Env × Op) :=
  [(openEnv 0, .createFund "ops" 600 100), (openEnv 0, .deposit "ops" 1000),
    (openEnv 0, .requestAllocation (account 68) "ops" 300 "audit"),
    (openEnv 0, .approveAllocation (account 66) 0), (openEnv 0, .approveAllocation (account 67) 0),
    (openEnv 0, .executeAllocation 0)]

theorem history_paidOnce_paidScript :
    ∃ tr s, Run (Steps exec) signed tr s ∧ tr.map Prod.snd = paidScript ∧
      ((∀ before p after, tr = before ++ p :: after → PaidOnce before p.1) ∧ PaidOnce tr s) := by
  obtain ⟨s, hs⟩ : ∃ s, play exec signed paidScript = some s :=
    Option.isSome_iff_exists.1 (by decide)
  refine ⟨_, s, run_of_play hs, map_snd_traceOf hs, ?_⟩
  exact (history_paidOnce signed_noFunds (run_of_play hs)).2 (by decide)

/-- The allocation is executed again. -/
def repayment : Env × Op := (openEnv 1, .executeAllocation 0)

/-- **An allocation can be paid twice.** -/
theorem allocation_paid_twice :
    ∃ tr s y, Run (Steps exec) signed tr s ∧ tr.map Prod.snd = paidScript ++ [repayment] ∧
      NoFunds signed ∧ s.inst .fund "ops" = some y ∧ y.balance = 400 ∧ y.budgetUsed = 600 ∧
      paid tr s "ops" 0 = 300 ∧ (∀ i, i ≠ 0 → paid tr s "ops" i = 0) ∧ ¬PaidOnce tr s := by
  obtain ⟨s, hs⟩ : ∃ s, play exec signed (paidScript ++ [repayment]) = some s :=
    Option.isSome_iff_exists.1 (by decide)
  have hfund : (play exec signed (paidScript ++ [repayment])).map (fun s =>
      (s.inst .fund "ops").map fun y => (y.balance, y.budgetUsed)) = some (some (400, 600)) := by
    decide
  have hpaid : (play exec signed (paidScript ++ [repayment])).map (fun s =>
      paid (traceOf exec signed (paidScript ++ [repayment])) s "ops" 0) = some 300 := by decide
  have hids : executions (traceOf exec signed (paidScript ++ [repayment])) = [0, 0] := by decide
  rw [hs, Option.map_some, Option.some.injEq, Option.map_eq_some_iff] at hfund
  rw [hs, Option.map_some, Option.some.injEq] at hpaid
  obtain ⟨y, hy, hye⟩ := hfund
  obtain ⟨hbalance, hused⟩ := Prod.mk.inj hye
  have hother : ∀ i, i ≠ 0 → paid (traceOf exec signed (paidScript ++ [repayment])) s "ops" i = 0 := by
    intro i hi
    rw [paid]
    rcases s.inst .allocation i with _ | x
    · rfl
    · refine if_neg fun hc => ?_
      rw [Executed, hids] at hc
      simp at hc
      exact hi hc.2
  refine ⟨_, s, y, run_of_play hs, map_snd_traceOf hs, signed_noFunds, hy, hbalance, hused, hpaid, hother,
    fun h => ?_⟩
  obtain ⟨n, hn, -, hn', -⟩ := h.balance "ops" y hy
  have hsingle := sumsTo_single hother
  rw [hpaid] at hsingle
  have := hn.unique hsingle
  omega

end DAOTreasury
