/-
  DAOGovernance — whose power is counted.

  A vote counts the voter's own power and what is delegated to the voter (`countedBy`).
  A user who has delegated can still vote, and can delegate again: power can be counted
  twice for one proposal, and be delegated twice.

  * `Repowers`: all that a step can do to the powers;
  * `Booked`: the tally of a proposal is made of the powers that were counted for it;
  * `history_countedOnce`: exactly when no power is counted twice in a run.
-/
import AuditTransparency.Dao.Effects
import AuditTransparency.Soroban.Avoids
import AuditTransparency.Soroban.Sums
import AuditTransparency.Ledger.Contract

namespace DAOGovernance

open Soroban
open Soroban.Call
open AuditLedger (openEnv account)

/-! ## Power -/

def basePower (s : State) (u : Address) : ℕ := (powerOf s u).basePower
def delegatedPower (s : State) (u : Address) : ℕ := (powerOf s u).delegatedPower
def delegatedTo (s : State) (u : Address) : Option Address := (powerOf s u).delegatedTo

/-- A user backs itself, and the user it has delegated to. -/
def Backs (s : State) (u v : Address) : Prop := u = v ∨ delegatedTo s u = some v

instance (s : State) (u v : Address) : Decidable (Backs s u v) := inferInstanceAs (Decidable (_ ∨ _))

/-- How often a vote of `v` counts the power of `u`: as the voter's own, and as delegated. -/
def countedBy (s : State) (v u : Address) : ℕ :=
  (if u = v then 1 else 0) + if delegatedTo s u = some v then 1 else 0

/-- How often a call counts the power of `u` for a proposal. -/
def countedIn (i : ℕ) (u : Address) (p : State × (Env × Op)) : ℕ :=
  match p.2.2 with
  | .vote v j _ => if j = i then countedBy p.1 v u else 0
  | _ => 0

/-- How often the power of `u` has been counted for a proposal. -/
def counted (tr : List (State × (Env × Op))) (i : ℕ) (u : Address) : ℕ := (tr.map (countedIn i u)).sum

/-- What `u` has delegated to `d`. -/
def delegatedBy (s : State) (d u : Address) : ℕ := if delegatedTo s u = some d then basePower s u else 0

/-- No power is counted twice, where all users have the power `total`. -/
structure CountedOnce (total : ℕ) (tr : List (State × (Env × Op))) (s : State) : Prop where
  backed : ∀ d, SumsTo (delegatedBy s d) (delegatedPower s d)
  noUnderflow : ∀ env u, Avoids (undelegate u) (· = .underflow) env s
  once : ∀ i u, basePower s u ≠ 0 → counted tr i u ≤ 1
  bounded : ∀ i, ∀ x ∈ s.inst .proposal i, x.votesFor + x.votesAgainst + x.votesAbstain ≤ total

/-- A user delegates when it has not delegated. -/
def DelegatesOnce (s : State) : Op → Prop
  | .delegate a _ => delegatedTo s a = none
  | _ => True

instance DelegatesOnce.decidable (s : State) : (op : Op) → Decidable (DelegatesOnce s op)
  | .delegate a _ => inferInstanceAs (Decidable (delegatedTo s a = none))
  | .propose .. | .vote .. | .undelegate _ | .executeProposal _ | .cancelProposal .. | .updateConfig .. =>
    inferInstanceAs (Decidable True)

/-- A user with power of its own does not back two voters on one proposal. -/
def BacksOne (tr : List (State × (Env × Op))) (p : State × (Env × Op)) : Prop :=
  ∀ v i c, p.2.2 = .vote v i c → ∀ q ∈ tr, ∀ w c, q.2.2 = .vote w i c → ∀ u, basePower p.1 u ≠ 0 →
    Backs q.1 u w → ¬Backs p.1 u v

/-- Nobody has delegated, nothing is proposed, and all users have the power `total`. -/
structure Undelegated (total : ℕ) (s : State) : Prop where
  noProposal : NoProposal s
  delegated : ∀ u, delegatedTo s u = none ∧ delegatedPower s u = 0
  power : SumsTo (basePower s) total

/-! ## Effects on powers -/

/-- What a step does to the powers. -/
inductive Repowers (s s' : State) : Op → Prop
  | same {op} : (∀ u, powerOf s' u = powerOf s u) → (∀ a b, op ≠ .delegate a b) → Repowers s s' op
  | delegate {a b} : a ≠ b → basePower s a ≠ 0 → (∀ u, basePower s' u = basePower s u) →
      (∀ u, delegatedTo s' u = if u = a then some b else delegatedTo s u) →
      (∀ u, delegatedPower s' u = delegatedPower s u + if u = b then basePower s a else 0) →
      Repowers s s' (.delegate a b)
  | undelegate {a d} : delegatedTo s a = some d → (∀ u, basePower s' u = basePower s u) →
      (∀ u, delegatedTo s' u = if u = a then none else delegatedTo s u) →
      (∀ u, delegatedPower s' u = delegatedPower s u - if u = d then basePower s a else 0) →
      Repowers s s' (.undelegate a)

section
variable {s s' : State} {u v a b d : Address} {i total : ℕ} {env : Env} {c : Env × Op}
  {tr : List (State × (Env × Op))}

theorem avoids_getVotingPower {T : Trap GovernanceError → Prop} :
    Avoids (getVotingPower u) T env s ↔ True := by
  simp only [getVotingPower, avoids_bind, avoids_load, avoids_pure, post_true, and_self]

/-- When a revocation does not underflow. -/
theorem undelegate_avoids : Avoids (undelegate a) (· = .underflow) env s ↔
    ∀ d, delegatedTo s a = some d → basePower s a ≤ delegatedPower s d := by
  simp only [undelegate, avoids_bind, avoids_getVotingPower, avoids_ifSome, avoids_subChecked, avoids_store,
    post_getVotingPower, post_true, true_and, and_true, not_true_eq_false, imp_false, Nat.not_lt]
  rfl

theorem powerOf_put {x : VotingPower} :
    powerOf (s.put .votingPower a x) u = if u = a then x else powerOf s u := by
  rw [powerOf, powerOf, Ledger.put_inst, Store.set_same, Function.update_apply]
  split_ifs <;> rfl

/-- **Every step changes the powers in one of these ways**, where nobody has delegated to itself. -/
theorem repowers (hself : ∀ u, delegatedTo s u ≠ some u) (hs : Steps exec s c s') :
    Repowers s s' c.2 := by
  obtain ⟨env, op⟩ := c
  obtain ⟨_, hs⟩ := hs
  have hframe := (exec_writes op).of_run hs
  cases op with
  | delegate a b =>
    obtain ⟨_, hr, -⟩ := of_run_map _ _ hs
    obtain ⟨hab, hbase, rfl⟩ := delegated hr
    refine .delegate hab hbase ?_ ?_ ?_ <;> intro u
    · rw [basePower, basePower, powerOf_put, powerOf_put]
      split_ifs with hb ha
      · rw [hb]
      · rw [ha]
      · rfl
    · rw [delegatedTo, delegatedTo, powerOf_put, powerOf_put]
      split_ifs with hb ha ha
      · exact absurd (ha.symm.trans hb) hab
      · rw [hb]
      · rfl
      · rfl
    · rw [delegatedPower, delegatedPower, powerOf_put, powerOf_put]
      split_ifs with hb ha
      · rw [hb]
        rfl
      · rw [ha]
        rfl
      · rfl
  | undelegate a =>
    obtain ⟨_, hr, -⟩ := of_run_map _ _ hs
    rcases undelegated hr with ⟨hnone, rfl⟩ | ⟨d, hd, rfl⟩
    · refine .same (fun u => ?_) (by simp)
      rw [powerOf_put]
      split_ifs with hu
      · rw [hu, ← hnone]
      · rfl
    · have hda : d ≠ a := by
        rintro rfl
        exact hself d hd
      refine .undelegate hd ?_ ?_ ?_ <;> intro u
      · rw [basePower, basePower, powerOf_put, powerOf_put]
        split_ifs with ha hb
        · rw [ha]
        · rw [hb]
        · rfl
      · rw [delegatedTo, delegatedTo, powerOf_put, powerOf_put]
        split_ifs with ha hb
        · rfl
        · rw [hb]
        · rfl
      · rw [delegatedPower, delegatedPower, powerOf_put, powerOf_put]
        split_ifs with ha hb hb
        · exact absurd (hb.symm.trans ha) hda
        · rw [ha]
          rfl
        · rw [hb]
          rfl
        · rfl
  | _ => exact .same (fun u => by rw [powerOf, powerOf, hframe.inst (notMem_of_eval rfl)]) (by simp)

theorem Repowers.base {op : Op} (h : Repowers s s' op) : basePower s' u = basePower s u := by
  cases h with
  | same hp => rw [basePower, basePower, hp]
  | delegate _ _ hb | undelegate _ hb => exact hb u

theorem Repowers.noSelf {op : Op} (h : Repowers s s' op) (hself : ∀ u, delegatedTo s u ≠ some u) :
    delegatedTo s' u ≠ some u := by
  cases h with
  | same hp => rw [delegatedTo, hp]; exact hself u
  | delegate hab _ _ hto =>
    rw [hto]
    split_ifs with hu
    · rintro ⟨⟩
      exact hab hu.symm
    · exact hself u
  | undelegate _ _ hto =>
    rw [hto]
    split_ifs
    · nofun
    · exact hself u

/-- **Delegated power stays backed exactly when nobody delegates twice.** -/
theorem Repowers.backed_iff {op : Op} (h : Repowers s s' op)
    (hb : ∀ d, SumsTo (delegatedBy s d) (delegatedPower s d)) :
    (∀ d, SumsTo (delegatedBy s' d) (delegatedPower s' d)) ↔
      ∀ a b, op = .delegate a b → delegatedTo s a = none := by
  have hbase := fun u => h.base (u := u)
  cases h with
  | same hp hop =>
    refine iff_of_true (fun d => ?_) fun a b he => absurd he (hop a b)
    rw [delegatedPower, hp]
    exact (hb d).congr fun u => by rw [delegatedBy, delegatedBy, hbase, delegatedTo, delegatedTo, hp]
  | @delegate a b _ hne _ hto hpow =>
    -- only what `a` has delegated changes
    have hother : ∀ d u, u ≠ a → delegatedBy s' d u = delegatedBy s d u := by
      intro d u hu
      rw [delegatedBy, delegatedBy, hbase, hto, if_neg hu]
    have hself : ∀ d, delegatedBy s' d a = if d = b then basePower s a else 0 := by
      intro d
      rw [delegatedBy, hbase, hto, if_pos rfl]
      simp only [Option.some.injEq, eq_comm]
    have hstep : ∀ d, SumsTo (delegatedBy s' d) (delegatedPower s' d) ↔ delegatedBy s d a = 0 := by
      intro d
      rw [(hb d).change (hother d), hself, hpow]
      omega
    simp only [hstep]
    constructor
    · rintro h0 _ _ ⟨⟩
      rcases hd : delegatedTo s a with _ | d
      · rfl
      · have := h0 d
        rw [delegatedBy, if_pos hd] at this
        exact absurd this hne
    · intro h0 d
      rw [delegatedBy, h0 a b rfl, if_neg nofun]
  | @undelegate a d hd _ hto hpow =>
    refine iff_of_true (fun e => ?_) nofun
    have hother : ∀ u, u ≠ a → delegatedBy s' e u = delegatedBy s e u := by
      intro u hu
      rw [delegatedBy, delegatedBy, hbase, hto, if_neg hu]
    have hnow : delegatedBy s' e a = 0 := by rw [delegatedBy, hto, if_pos rfl, if_neg nofun]
    have hwas : delegatedBy s e a = if e = d then basePower s a else 0 := by
      rw [delegatedBy, hd]
      simp only [Option.some.injEq, eq_comm]
    have hle : delegatedBy s e a ≤ delegatedPower s e := (hb e).le
    rw [(hb e).change hother, hnow, hpow, ← hwas]
    omega

/-! ## Counts -/

theorem countedIn_vote {j : ℕ} {ch : VoteChoice} :
    countedIn i u (s, env, .vote v j ch) = if j = i then countedBy s v u else 0 := rfl

theorem counted_concat {p : State × (Env × Op)} :
    counted (tr ++ [p]) i u = counted tr i u + countedIn i u p :=
  sum_map_concat

theorem countedBy_eq_zero : countedBy s v u = 0 ↔ ¬Backs s u v := by
  rw [countedBy, Backs]
  split_ifs <;> simp_all

theorem countedBy_le_one (hself : delegatedTo s u ≠ some u) : countedBy s v u ≤ 1 := by
  rw [countedBy]
  split_ifs with hu hd
  · exact absurd (hu ▸ hd) hself
  · rfl
  · rfl
  · exact Nat.zero_le _

/-- What has not been counted backs no voter. -/
theorem counted_eq_zero : counted tr i u = 0 ↔
    ∀ q ∈ tr, ∀ w c, q.2.2 = .vote w i c → ¬Backs q.1 u w := by
  rw [counted, List.sum_eq_zero_iff]
  simp only [List.forall_mem_map]
  refine forall₂_congr fun q _ => ?_
  obtain ⟨s, env, op⟩ := q
  cases op with
  | vote v j c =>
    rw [countedIn_vote]
    constructor
    · rintro h w c ⟨⟩
      rwa [if_pos rfl, countedBy_eq_zero] at h
    · intro h
      split_ifs with hj
      · subst hj
        exact countedBy_eq_zero.2 (h v c rfl)
      · rfl
  | _ => exact iff_of_true rfl nofun

/-- A vote counts what its power is made of. -/
theorem countedBy_sumsTo (hb : SumsTo (delegatedBy s v) (delegatedPower s v)) :
    SumsTo (fun u => basePower s u * countedBy s v u) (basePower s v + delegatedPower s v) := by
  have hown : SumsTo (fun u => if u = v then basePower s u else 0) (basePower s v) := by
    have h := sumsTo_single (g := fun u => if u = v then basePower s u else 0) (k := v)
      fun u hu => if_neg hu
    rwa [if_pos rfl] at h
  refine (hown.add hb).congr fun u => ?_
  rw [delegatedBy, countedBy]
  split_ifs <;> omega

/-- The tallies are made of the powers that were counted. -/
structure Booked (total : ℕ) (tr : List (State × (Env × Op))) (s : State) : Prop where
  power : SumsTo (basePower s) total
  noSelf : ∀ u, delegatedTo s u ≠ some u
  uncounted : ∀ i, s.inst .proposal i = none → ∀ u, counted tr i u = 0
  tally : ∀ i, ∀ x ∈ s.inst .proposal i, SumsTo (fun u => basePower s u * counted tr i u) x.tally

/-- The count of a proposal after a call that is no vote on it. -/
theorem counted_same (hc : ∀ v ch, c.2 ≠ .vote v i ch) : counted (tr ++ [(s, c)]) i u = counted tr i u := by
  obtain ⟨env, op⟩ := c
  rw [counted_concat, Nat.add_eq_left]
  cases op with
  | vote v j ch =>
    refine if_neg fun hj => ?_
    subst hj
    exact hc v ch rfl
  | _ => rfl

theorem counted_vote {ch : VoteChoice} :
    counted (tr ++ [(s, env, .vote v i ch)]) i u = counted tr i u + countedBy s v u := by
  rw [counted_concat, countedIn_vote, if_pos rfl]

theorem Booked.step {s₀ : State} (hnone : NoProposal s₀) (hr : Run (Steps exec) s₀ tr s)
    (h : Booked total tr s) (hb : ∀ d, SumsTo (delegatedBy s d) (delegatedPower s d))
    (hs : Steps exec s c s') : Booked total (tr ++ [(s, c)]) s' := by
  have hp := repowers h.noSelf hs
  refine ⟨h.power.congr fun u => hp.base.symm, fun u => hp.noSelf h.noSelf, ?_, ?_⟩
  · intro i hi u
    have ht := touches hs i
    cases ht with
    | same hx hno =>
      rw [counted_same (by rintro v ch he; rw [he] at hno; exact hno rfl)]
      exact h.uncounted i (hx ▸ hi) u
    | propose _ _ hx | vote _ _ hx | execute _ _ _ hx | cancel _ hx => rw [hi] at hx; cases hx
  · intro i y hy
    have hsum : ∀ x ∈ s.inst .proposal i, (∀ v ch, c.2 ≠ .vote v i ch) → y.tally = x.tally →
        SumsTo (fun u => basePower s' u * counted (tr ++ [(s, c)]) i u) y.tally := by
      intro x hx hno ht
      rw [ht]
      exact (h.tally i x hx).congr fun u => by rw [hp.base, counted_same hno]
    cases touches hs i with
    | same hx hno =>
      exact hsum y (hx ▸ hy) (by rintro v ch he; rw [he] at hno; exact hno rfl) rfl
    | propose hi _ hx ht _ =>
      obtain rfl := Option.some.inj (hx.symm.trans hy)
      rw [ht]
      refine sumsTo_zero fun u => ?_
      rw [counted_same (by nofun), h.uncounted i (unused_of_run hnone hr hi.ge) u, Nat.mul_zero]
    | @vote env a ch x hx _ hx' =>
      obtain rfl := Option.some.inj (hx'.symm.trans hy)
      rw [withVotes_tally]
      refine ((h.tally i x hx).add (countedBy_sumsTo (hb a))).congr fun u => ?_
      rw [hp.base, counted_vote, Nat.mul_add]
    | execute hx _ _ hx' | cancel hx hx' =>
      obtain rfl := Option.some.inj (hx'.symm.trans hy)
      exact hsum _ hx nofun rfl

/-! ## Runs -/

/-- Where the books are kept, two of the four promises are enough. -/
theorem countedOnce_iff (h : Booked total tr s) : CountedOnce total tr s ↔
    (∀ d, SumsTo (delegatedBy s d) (delegatedPower s d)) ∧
      ∀ i u, basePower s u ≠ 0 → counted tr i u ≤ 1 := by
  refine ⟨fun hc => ⟨hc.backed, hc.once⟩, fun ⟨hb, hone⟩ => ⟨hb, fun env u => ?_, hone, fun i x hx => ?_⟩⟩
  · refine undelegate_avoids.2 fun d hd => ?_
    have hle := (hb d).le (k := u)
    rwa [delegatedBy, if_pos hd] at hle
  · refine (h.tally i x hx).mono h.power fun u => ?_
    by_cases hu : basePower s u = 0
    · rw [hu, Nat.zero_mul]
    · exact mul_le_of_le_one_right (Nat.zero_le _) (hone i u hu)

/-- A step counts nothing twice exactly when its voter is the first that its backers back. -/
theorem once_concat_iff (h : Booked total tr s) (hone : ∀ i u, basePower s u ≠ 0 → counted tr i u ≤ 1) :
    (∀ i u, basePower s u ≠ 0 → counted (tr ++ [(s, c)]) i u ≤ 1) ↔
      ∀ v i ch, c.2 = .vote v i ch → ∀ u, basePower s u ≠ 0 → counted tr i u ≠ 0 → ¬Backs s u v := by
  obtain ⟨env, op⟩ := c
  constructor
  · rintro hone' v i ch hop u hu hne hback
    obtain rfl : op = .vote v i ch := hop
    have hle := hone' i u hu
    rw [counted_vote] at hle
    have hpos : countedBy s v u ≠ 0 := fun h0 => countedBy_eq_zero.1 h0 hback
    omega
  · intro hfirst i u hu
    by_cases hc : ∃ v ch, op = .vote v i ch
    · obtain ⟨v, ch, rfl⟩ := hc
      rw [counted_vote]
      by_cases hz : counted tr i u = 0
      · rw [hz, Nat.zero_add]
        exact countedBy_le_one (h.noSelf u)
      · rw [countedBy_eq_zero.2 (hfirst v i ch rfl u hu hz)]
        exact hone i u hu
    · rw [counted_same fun v ch he => hc ⟨v, ch, he⟩]
      exact hone i u hu

/-- **No power is counted twice throughout a run** if and only if nobody delegates twice and nobody backs
    two voters on one proposal. -/
theorem history_countedOnce {s₀ : State} (h₀ : Undelegated total s₀) (h : Run (Steps exec) s₀ tr s) :
    ((∀ before p after, tr = before ++ p :: after → CountedOnce total before p.1) ∧
      CountedOnce total tr s) ↔
      ∀ before p after, tr = before ++ p :: after → DelegatesOnce p.1 p.2.2 ∧ BacksOne before p := by
  have hbooked : Booked total [] s₀ := by
    refine ⟨h₀.power, fun u => ?_, fun _ _ _ => rfl, fun i x hx => ?_⟩
    · rw [(h₀.delegated u).1]
      nofun
    · rw [h₀.noProposal i] at hx
      cases hx
  refine Run.throughout_iff_keeping (J := Booked total) hbooked
    (fun tr s c s' hr hs hJ hI => hJ.step h₀.noProposal hr hI.backed hs) ?_ ?_ h
  · refine (countedOnce_iff hbooked).2 ⟨fun d => ?_, fun _ _ _ => Nat.zero_le _⟩
    rw [(h₀.delegated d).2]
    refine sumsTo_zero fun u => ?_
    rw [delegatedBy, (h₀.delegated u).1, if_neg nofun]
  · intro tr s c s' hr hs hJ hI
    have hp := repowers hJ.noSelf hs
    rw [countedOnce_iff (hJ.step h₀.noProposal hr hI.backed hs), hp.backed_iff hI.backed]
    simp only [hp.base]
    rw [once_concat_iff hJ hI.once]
    refine and_congr ?_ ?_
    · obtain ⟨env, op⟩ := c
      cases op with
      | delegate a b => exact ⟨fun h => h a b rfl, by rintro h _ _ ⟨⟩; exact h⟩
      | _ => exact iff_of_true nofun trivial
    · refine forall₄_congr fun v i ch _ => ?_
      constructor
      · intro hv q hq w c hw u hu hback
        exact hv u hu fun hz => counted_eq_zero.1 hz q hq w c hw hback
      · intro hv u hu hne hback
        exact hne (counted_eq_zero.2 fun q hq w c hw hw' => hv q hq w c hw u hu hw' hback)

end

/-! ## Scripts -/

/-- Two users with the powers 100 and 50, and a configuration without delays. -/
def twoUsers : State :=
  (((Ledger.empty : State).put .config () ⟨account 71, 0, 100, 10, 4000, 5000, 0⟩).put .votingPower
    (account 65) ⟨account 65, 100, 0, none, 0⟩).put .votingPower (account 66) ⟨account 66, 50, 0, none, 0⟩

theorem powerOf_twoUsers (u : Address) : powerOf twoUsers u =
    if u = account 66 then ⟨account 66, 50, 0, none, 0⟩
    else if u = account 65 then ⟨account 65, 100, 0, none, 0⟩ else ⟨u, 0, 0, none, 0⟩ := by
  rw [twoUsers, powerOf_put, powerOf_put]
  rfl

theorem twoUsers_undelegated : Undelegated 150 twoUsers where
  noProposal _ := rfl
  delegated u := by
    rw [delegatedTo, delegatedPower, powerOf_twoUsers]
    split_ifs <;> exact ⟨rfl, rfl⟩
  power := by
    refine ⟨{account 65, account 66}, fun u hu => ?_, ?_⟩
    · simp only [Finset.mem_insert, Finset.mem_singleton, not_or] at hu
      rw [basePower, powerOf_twoUsers, if_neg hu.2, if_neg hu.1]
    · rw [Finset.sum_pair (by decide), basePower, basePower, powerOf_twoUsers, powerOf_twoUsers]
      decide

/-- A proposal. -/
def proposing : Env × Op := (openEnv 0, .propose (account 65) .featurePriority "t" "d" [] 0 0)

/-- The first user delegates to the second, which votes, and takes the delegation back. -/
def delegatedScript : List (Env × Op) :=
  [proposing, (openEnv 0, .delegate (account 65) (account 66)), (openEnv 0, .vote (account 66) 1 .for_),
    (openEnv 0, .undelegate (account 65))]

theorem history_countedOnce_delegatedScript :
    ∃ tr s, Run (Steps exec) twoUsers tr s ∧ tr.map Prod.snd = delegatedScript ∧
      ((∀ before p after, tr = before ++ p :: after → CountedOnce 150 before p.1) ∧
        CountedOnce 150 tr s) := by
  obtain ⟨s, hs⟩ : ∃ s, play exec twoUsers delegatedScript = some s :=
    Option.isSome_iff_exists.1 (by decide)
  have honce : ∀ p ∈ traceOf exec twoUsers delegatedScript, DelegatesOnce p.1 p.2.2 := by decide
  have hfirst : ∀ before p after, traceOf exec twoUsers delegatedScript = before ++ p :: after →
      BacksOne before p := by
    obtain ⟨_, s₁, h₁, hs⟩ := play_cons hs
    obtain ⟨_, s₂, h₂, hs⟩ := play_cons hs
    obtain ⟨_, s₃, h₃, hs⟩ := play_cons hs
    obtain ⟨_, s₄, h₄, hs⟩ := play_cons hs
    rw [delegatedScript, traceOf_cons h₁, traceOf_cons h₂, traceOf_cons h₃, traceOf_cons h₄]
    simp only [Run.forall_cut_cons]
    -- the third call is the only vote
    refine ⟨nofun, nofun, ?_, nofun, by simp [traceOf]⟩
    rintro v i c - q hq w c' hw
    rcases List.mem_pair.1 hq with rfl | rfl <;> cases hw
  refine ⟨_, s, run_of_play hs, map_snd_traceOf hs, ?_⟩
  refine (history_countedOnce twoUsers_undelegated (run_of_play hs)).2 fun before p after htr => ?_
  exact ⟨honce p (by rw [htr]; simp), hfirst before p after htr⟩

/-- The first user delegates to the second, and both vote. -/
def bothVoted : List (Env × Op) :=
  [proposing, (openEnv 0, .delegate (account 65) (account 66)), (openEnv 0, .vote (account 66) 1 .for_),
    (openEnv 0, .vote (account 65) 1 .for_)]

/-- **More votes can be counted than there is power.** -/
theorem delegated_power_counted_twice :
    ∃ tr s x, Undelegated 150 twoUsers ∧ Run (Steps exec) twoUsers tr s ∧ tr.map Prod.snd = bothVoted ∧
      s.inst .proposal 1 = some x ∧ x.votesFor = 250 ∧ ¬CountedOnce 150 tr s := by
  obtain ⟨s, hs⟩ : ∃ s, play exec twoUsers bothVoted = some s :=
    Option.isSome_iff_exists.1 (by decide)
  have hvotes : (play exec twoUsers bothVoted).map (fun s => (s.inst .proposal 1).map (·.votesFor)) =
      some (some 250) := by decide
  rw [hs, Option.map_some, Option.some.injEq, Option.map_eq_some_iff] at hvotes
  obtain ⟨x, hx, hfor⟩ := hvotes
  refine ⟨_, s, x, twoUsers_undelegated, run_of_play hs, map_snd_traceOf hs, hx, hfor, fun h => ?_⟩
  have hle := h.bounded 1 x hx
  omega

end DAOGovernance
