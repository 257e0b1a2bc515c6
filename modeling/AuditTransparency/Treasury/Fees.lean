/-
  DAOTreasury — the distribution of fees.

  The rules of the distribution add up to 10000 basis points.  Fees are split by them, every
  share rounded down: a fund receives its share as a deposit, and another recipient is
  credited with it.

  * `distributed`: what a distribution credits;
  * `FeesSound`: the rules are those of an accepted distribution, and no more was credited than
    collected;
  * `run_fees_conserved`: so in every run; and a distribution credits at most the fees, and
    misses them by less than the number of the rules, unless some are about funds.
-/
import AuditTransparency.Treasury.Contract
import AuditTransparency.Ledger.Contract
import AuditTransparency.Soroban.Checked
import AuditTransparency.Soroban.Rounding
import AuditTransparency.Soroban.Sums

namespace DAOTreasury

open Soroban
open Soroban.Call
open AuditLedger (openEnv account)

variable {s₀ s s' : State} {env : Env} {n m : ℕ} {rules : List FeeDistribution} {rule : FeeDistribution}
  {tr : List (State × (Env × FeeOp))}

/-! ## Functions -/

/-- `set_fee_distribution` -/
def setFeeDistribution (distribution : List FeeDistribution) : Fn Unit := do
  let owner ← getOwner
  requireAuth owner
  let totalBps := distribution.foldl (fun totalBps entry => saturatingAddIn 32 totalBps entry.percentageBps) 0
  rejectIf (totalBps ≠ 10000) .invalidFeeDistribution
  let config ← getConfig
  set .config () { config with feeDistribution := distribution }

/-- `String::from_array(&env, &[0u8; 32])` -/
def unnamedFund : String := String.ofList (List.replicate 32 (Char.ofNat 0))

/-- The body of the loop in `distribute_fees`. -/
def distributeShare (totalFees : ℕ) (dist : FeeDistribution) : Fn Unit := do
  let share := (← mulChecked 128 totalFees dist.percentageBps) / 10000
  if dist.isFund then deposit unnamedFund share
  else do
    let current := (← get .feeShareReceived dist.recipient).getD 0
    set .feeShareReceived dist.recipient (← addChecked 128 current share)

/-- `distribute_fees` -/
def distributeFees (totalFees : ℕ) : Fn Unit := do
  let config ← getConfig
  config.feeDistribution.foldlM (fun _ dist => distributeShare totalFees dist) ()
  let totalCollected := (← get .totalFeesCollected ()).getD 0
  set .totalFeesCollected () (← addChecked 128 totalCollected totalFees)

/-- All the functions that change the treasury. -/
inductive FeeOp where
  | setFeeDistribution (distribution : List FeeDistribution)
  | distributeFees (totalFees : ℕ)
  | other (op : Op)
  deriving DecidableEq

/-- Runs a function. -/
def execFees : FeeOp → Fn (Option ℕ)
  | .setFeeDistribution d => do setFeeDistribution d; return none
  | .distributeFees n => do distributeFees n; return none
  | .other op => exec op

/-! ## What is credited -/

/-- What a recipient was credited with. -/
def feeShareReceived (s : State) (a : Address) : ℕ := (s.inst .feeShareReceived a).getD 0

/-- The fees that were collected. -/
def totalFeesCollected (s : State) : ℕ := (s.inst .totalFeesCollected ()).getD 0

/-- The shares of the recipients that are no funds. -/
def credits (n : ℕ) (rules : List FeeDistribution) : ℕ :=
  (rules.map fun rule => if rule.isFund then 0 else n * rule.percentageBps / 10000).sum

/-- The rules of a distribution that is accepted. -/
def Whole (rules : List FeeDistribution) : Prop := (rules.map (·.percentageBps)).sum = 10000

theorem credits_le (h : Whole rules) : credits n rules ≤ n := by
  have hle : credits n rules ≤ ((rules.map (·.percentageBps)).map fun w => n * w / 10000).sum := by
    rw [List.map_map]
    refine List.sum_le_sum ?_
    intro rule _
    split_ifs
    · exact Nat.zero_le _
    · exact Nat.le_refl _
  exact hle.trans (sum_shares_le (by decide) h)

theorem lt_credits (h : Whole rules) (hdirect : ∀ rule ∈ rules, rule.isFund = false) :
    n < credits n rules + rules.length := by
  have heq : credits n rules = ((rules.map (·.percentageBps)).map fun w => n * w / 10000).sum := by
    rw [List.map_map, credits]
    congr 1
    refine List.map_congr_left ?_
    intro rule hrule
    rw [hdirect rule hrule]
    rfl
  have hlt := lt_sum_shares (n := n) (k := 10000) (by decide) h
  rwa [← heq, List.length_map] at hlt

theorem saturated_eq (rules : List FeeDistribution) (k : ℕ) :
    rules.foldl (fun totalBps entry => saturatingAddIn 32 totalBps entry.percentageBps) (min k (2 ^ 32 - 1)) =
      min (k + (rules.map (·.percentageBps)).sum) (2 ^ 32 - 1) := by
  induction rules generalizing k with
  | nil => rfl
  | cons rule rules ih =>
    have hadd : saturatingAddIn 32 (min k (2 ^ 32 - 1)) rule.percentageBps =
        min (k + rule.percentageBps) (2 ^ 32 - 1) := by
      unfold saturatingAddIn
      omega
    rw [List.foldl_cons, hadd, ih, List.map_cons, List.sum_cons, Nat.add_assoc]

/-- What is accepted is whole. -/
theorem whole_iff : rules.foldl (fun totalBps entry => saturatingAddIn 32 totalBps entry.percentageBps) 0 = 10000 ↔
    Whole rules := by
  have h := saturated_eq rules 0
  rw [Nat.zero_min, Nat.zero_add] at h
  rw [h, Whole]
  omega

/-- What is left when a distribution is set. -/
theorem distributionSet (h : (setFeeDistribution rules).run env s = .ok ((), s')) :
    Whole rules ∧ ∃ c, s.inst .config () = some c ∧ s' = s.put .config () { c with feeDistribution := rules } := by
  refine Post.of_run (m := setFeeDistribution rules) (Q := fun _ s' => Whole rules ∧
    ∃ c, s.inst .config () = some c ∧ s' = s.put .config () { c with feeDistribution := rules }) ?_ h
  simp only [setFeeDistribution, post_bind, post_getOwner, post_requireAuth, post_rejectIf, post_getConfig,
    post_store, not_not, whole_iff]
  intro _ _ _ hwhole c hc
  exact ⟨hwhole, c, hc, rfl⟩

/-- The fees that are collected and the rules do not change while shares are distributed. -/
structure Distributing (s s' : State) (sum : ℕ) : Prop where
  config : s'.inst .config = s.inst .config
  collected : s'.inst .totalFeesCollected = s.inst .totalFeesCollected
  credited : ∀ m, SumsTo (feeShareReceived s) m → SumsTo (feeShareReceived s') (m + sum)

/-- What one rule leaves. -/
theorem Distributing.share {t : State} (h : Distributing s t m) :
    Post (distributeShare n rule) (fun _ t' => Distributing s t'
      (m + if rule.isFund then 0 else n * rule.percentageBps / 10000)) env t := by
  simp only [distributeShare, post_bind, post_mulChecked, post_ite]
  intro _
  constructor
  · intro hfund _ t' hr
    obtain ⟨x, -, rfl⟩ := deposited hr
    rw [if_pos hfund, Nat.add_zero]
    exact ⟨h.config, h.collected, h.credited⟩
  · intro hdirect
    simp only [post_load, post_addChecked, post_store]
    rw [if_neg hdirect]
    refine fun _ => ⟨h.config, h.collected, ?_⟩
    intro k hk
    obtain ⟨t', ht'⟩ : ∃ t', t' = t.put .feeShareReceived rule.recipient
      (feeShareReceived t rule.recipient + n * rule.percentageBps / 10000) := ⟨_, rfl⟩
    have hself : feeShareReceived t' rule.recipient =
        feeShareReceived t rule.recipient + n * rule.percentageBps / 10000 := by
      rw [ht', feeShareReceived, Ledger.put_inst, Store.set_same, Function.update_self]
      rfl
    have hother : ∀ a, a ≠ rule.recipient → feeShareReceived t' a = feeShareReceived t a := by
      intro a ha
      rw [ht', feeShareReceived, Ledger.put_inst, Store.set_same, Function.update_of_ne ha]
      rfl
    have hchange := ((h.credited k hk).change hother (m := k + (m + n * rule.percentageBps / 10000))).2 (by omega)
    rw [ht'] at hchange
    exact hchange

/-- **What a distribution leaves.** -/
theorem distributed (h : (distributeFees n).run env s = .ok ((), s')) :
    ∃ c, s.inst .config () = some c ∧ s'.inst .config = s.inst .config ∧
      totalFeesCollected s' = totalFeesCollected s + n ∧
      ∀ m, SumsTo (feeShareReceived s) m → SumsTo (feeShareReceived s') (m + credits n c.feeDistribution) := by
  refine Post.of_run (m := distributeFees n) (Q := fun _ s' => ∃ c, s.inst .config () = some c ∧
    s'.inst .config = s.inst .config ∧ totalFeesCollected s' = totalFeesCollected s + n ∧
      ∀ m, SumsTo (feeShareReceived s) m → SumsTo (feeShareReceived s') (m + credits n c.feeDistribution)) ?_ h
  simp only [distributeFees, post_bind, post_getConfig, post_load, post_addChecked, post_store]
  intro c hc
  have hloop : Post (c.feeDistribution.foldlM (fun _ dist => distributeShare n dist) ())
      (fun _ t => Distributing s t (credits n c.feeDistribution)) env s := by
    refine post_foldlM (fun done _ t => Distributing s t (credits n done)) c.feeDistribution () s []
      ⟨rfl, rfl, fun _ hm => hm⟩ ?_
    intro done rule rest _ t _ hI
    have hcredits : credits n (done ++ [rule]) =
        credits n done + if rule.isFund then 0 else n * rule.percentageBps / 10000 := sum_map_concat
    rw [hcredits]
    exact hI.share
  refine hloop.mono fun _ t ht _ => ⟨c, hc, ht.config, ?_, ht.credited⟩
  rw [totalFeesCollected, totalFeesCollected, Ledger.put_inst, Store.set_same, Function.update_self,
    ht.collected]
  rfl

/-! ## Runs -/

/-- **The rules are those of an accepted distribution, and no more was credited than collected.** -/
structure FeesSound (s : State) : Prop where
  rules : ∀ c ∈ s.inst .config (), c.feeDistribution = [] ∨ Whole c.feeDistribution
  credited : ∃ m ≤ totalFeesCollected s, SumsTo (feeShareReceived s) m

/-- There are no rules yet, and nothing was collected. -/
structure NoFees (s : State) : Prop where
  rules : ∀ c ∈ s.inst .config (), c.feeDistribution = []
  unreceived : ∀ a, s.inst .feeShareReceived a = none

theorem noFees_initialized {o t : Address} {signers : List Address} {k : ℕ}
    (h : (initializeTreasury o t signers k).run env Ledger.empty = .ok ((), s)) : NoFees s := by
  refine Post.of_run (m := initializeTreasury o t signers k) (Q := fun _ s => NoFees s) ?_ h
  simp only [initializeTreasury, post_bind, post_requireAuth, post_load, post_rejectIf, post_store]
  intro _ _
  refine ⟨?_, fun _ => rfl⟩
  intro c hc
  obtain rfl : ⟨o, t, signers, k, []⟩ = c := Option.some.inj hc
  rfl

theorem NoFees.feesSound (h : NoFees s) : FeesSound s := by
  refine ⟨fun c hc => .inl (h.rules c hc), 0, Nat.zero_le _, sumsTo_zero ?_⟩
  intro a
  rw [feeShareReceived, h.unreceived a]
  rfl

/-- What leaves the fees alone keeps them sound. -/
theorem FeesSound.of_eq (h : FeesSound s) (hconfig : s'.inst .config = s.inst .config)
    (hcollected : s'.inst .totalFeesCollected = s.inst .totalFeesCollected)
    (hreceived : s'.inst .feeShareReceived = s.inst .feeShareReceived) : FeesSound s' := by
  obtain ⟨m, hle, hm⟩ := h.credited
  refine ⟨fun c hc => h.rules c (hconfig ▸ hc), m, ?_, hm.congr ?_⟩
  · rwa [totalFeesCollected, hcollected]
  · intro a
    rw [feeShareReceived, feeShareReceived, hreceived]

/-- **A step keeps the fees sound.** -/
theorem FeesSound.step {c : Env × FeeOp} (h : FeesSound s) (hs : Steps execFees s c s') : FeesSound s' := by
  obtain ⟨env, op⟩ := c
  obtain ⟨r, hr⟩ := hs
  cases op with
  | setFeeDistribution rules =>
    obtain ⟨_, hr, -⟩ := of_run_map _ _ hr
    obtain ⟨hwhole, c, -, rfl⟩ := distributionSet hr
    obtain ⟨m, hle, hm⟩ := h.credited
    refine ⟨fun c' hc' => .inr ?_, m, hle, hm⟩
    rw [Ledger.put_inst, Store.set_same, Function.update_self] at hc'
    obtain rfl := Option.some.inj hc'
    exact hwhole
  | distributeFees n =>
    obtain ⟨_, hr, -⟩ := of_run_map _ _ hr
    obtain ⟨c, hc, hconfig, hcollected, hcredited⟩ := distributed hr
    obtain ⟨m, hle, hm⟩ := h.credited
    have hcredits : credits n c.feeDistribution ≤ n := by
      rcases h.rules c hc with hnil | hwhole
      · rw [hnil]
        exact Nat.zero_le n
      · exact credits_le hwhole
    refine ⟨fun c' hc' => h.rules c' (hconfig ▸ hc'), _, ?_, hcredited m hm⟩
    rw [hcollected]
    exact Nat.add_le_add hle hcredits
  | other op =>
    have hframe := (exec_writes op).of_run hr
    exact h.of_eq (hframe.inst (by cases op <;> simp)) (hframe.inst (by cases op <;> simp))
      (hframe.inst (by cases op <;> simp))

/-- **Fees are neither created nor lost, but for rounding.**  In every state of a run no more was credited than
    collected; and by rules that were accepted, and are about no funds, a distribution credits at most the fees
    and misses them by less than the number of the rules. -/
theorem run_fees_conserved (h₀ : NoFees s₀) (h : Run (Steps execFees) s₀ tr s) :
    (∃ m ≤ totalFeesCollected s, SumsTo (feeShareReceived s) m) ∧
      ∀ c ∈ s.inst .config (), c.feeDistribution ≠ [] → (∀ rule ∈ c.feeDistribution, rule.isFund = false) →
        ∀ env n s', (distributeFees n).run env s = .ok ((), s') →
          ∃ m sum, SumsTo (feeShareReceived s) m ∧ SumsTo (feeShareReceived s') (m + sum) ∧
            sum ≤ n ∧ n - sum < c.feeDistribution.length := by
  have hsound : FeesSound s := h.invariant (C := fun _ _ => True) h₀.feesSound
    (fun _ _ _ _ hs hI => hI.step hs) fun _ _ => trivial
  refine ⟨hsound.credited, ?_⟩
  intro c hc hne hdirect env n s' hr
  obtain ⟨m, -, hm⟩ := hsound.credited
  obtain ⟨c', hc', -, -, hcredited⟩ := distributed hr
  obtain rfl := Option.some.inj (hc'.symm.trans hc)
  have hwhole : Whole c'.feeDistribution := (hsound.rules c' hc').resolve_left hne
  have hlt := lt_credits (n := n) hwhole hdirect
  exact ⟨m, _, hm, hcredited m hm, credits_le hwhole, by have := credits_le (n := n) hwhole; omega⟩

/-! ## Scripts -/

/-- A treasury without funds. -/
def chartered : State :=
  ((((Ledger.empty : State).put .owner () (account 65)).put .config () ⟨account 65, account 71, [], 1, []⟩).put
    .allocationCounter () 0).put .fundNames () []

theorem chartered_initialized :
    (initializeTreasury (account 65) (account 71) [] 1).run (openEnv 0) Ledger.empty = .ok ((), chartered) := rfl

theorem noFees_chartered : NoFees chartered := noFees_initialized chartered_initialized

/-- Three thirds, two of them of one recipient. -/
def thirds : List FeeDistribution :=
  [⟨account 66, 3333, false⟩, ⟨account 67, 3333, false⟩, ⟨account 66, 3334, false⟩]

/-- The rules are set, and 100 are distributed. -/
def thirdsScript : List (Env × FeeOp) := [(openEnv 0, .setFeeDistribution thirds), (openEnv 1, .distributeFees 100)]

theorem run_fees_conserved_thirdsScript :
    ∃ s s', play execFees chartered thirdsScript = some s ∧
      (distributeFees 100).run (openEnv 2) s = .ok ((), s') ∧ totalFeesCollected s' = 200 ∧
      (∃ m ≤ totalFeesCollected s, SumsTo (feeShareReceived s) m) ∧
      ∃ m sum, SumsTo (feeShareReceived s) m ∧ SumsTo (feeShareReceived s') (m + sum) ∧ sum ≤ 100 ∧
        100 - sum < thirds.length := by
  obtain ⟨s, hs⟩ : ∃ s, play execFees chartered thirdsScript = some s :=
    Option.isSome_iff_exists.1 (by decide)
  have hconfig : ∀ s ∈ play execFees chartered thirdsScript,
      s.inst .config () = some ⟨account 65, account 71, [], 1, thirds⟩ := by
    decide
  have hnext : ∀ s ∈ play execFees chartered thirdsScript,
      totalFeesCollected s = 100 ∧ ((distributeFees 100).run (openEnv 2) s).toOption.isSome := by
    decide
  obtain ⟨hcollected, hok⟩ := hnext s hs
  rcases hr : (distributeFees 100).run (openEnv 2) s with e | ⟨_, s'⟩
  · rw [hr] at hok
    cases hok
  · obtain ⟨hcredited, hconserved⟩ := run_fees_conserved noFees_chartered (run_of_play hs)
    obtain ⟨_, -, -, htotal, -⟩ := distributed hr
    refine ⟨s, s', hs, hr, ?_, hcredited, ?_⟩
    · rw [htotal, hcollected]
    · exact hconserved _ (hconfig s hs) (by decide) (by decide) (openEnv 2) 100 s' hr

end DAOTreasury
