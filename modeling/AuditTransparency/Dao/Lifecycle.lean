/-
  DAOGovernance — the life of a proposal.

  A proposal should be executed at most once, after its timelock and with its approval
  threshold, and be closed by an execution or a cancellation (`Proper`).  The functions
  check ledgers, and never the status or the threshold of the proposal.

  * `tracked_of_run`: as long as every step is proper, the status tells what has happened;
  * `history_proper`: exactly when every step of a run is proper.
-/
import AuditTransparency.Dao.Effects
import AuditTransparency.Ledger.Contract

namespace DAOGovernance

open Soroban
open Soroban.Call
open AuditLedger (openEnv account)

/-- The proposal has been executed. -/
def Executed (tr : List (State × (Env × Op))) (i : ℕ) : Prop := ∃ p ∈ tr, p.2.2 = .executeProposal i

/-- The proposal has been cancelled. -/
def Cancelled (tr : List (State × (Env × Op))) (i : ℕ) : Prop := ∃ p ∈ tr, ∃ a, p.2.2 = .cancelProposal a i

/-- The votes meet the approval threshold. -/
def Proposal.Approved (x : Proposal) : Prop :=
  x.approvalThresholdBps * (x.votesFor + x.votesAgainst) ≤ x.votesFor * 10000

instance (x : Proposal) : Decidable x.Approved := inferInstanceAs (Decidable (_ ≤ _))

/-- What an execution, a cancellation and a vote promise, after the steps of a trace. -/
def Proper (tr : List (State × (Env × Op))) (p : State × (Env × Op)) : Prop :=
  match p.2.2 with
  | .executeProposal i => ¬Executed tr i ∧ ¬Cancelled tr i ∧ ∃ x ∈ p.1.inst .proposal i,
    x.executionLedger ≤ p.2.1.sequence ∧ x.endLedger < p.2.1.sequence ∧ x.Approved
  | .cancelProposal _ i => ¬Executed tr i
  | .vote _ i _ => ¬Cancelled tr i ∧ ∃ x ∈ p.1.inst .proposal i, p.2.1.sequence ≤ x.endLedger
  | _ => True

/-- What the functions would have to check of the proposal. -/
def Permitted (s : State) : Op → Prop
  | .executeProposal i => ∀ x ∈ s.inst .proposal i,
    x.status ≠ .executed ∧ x.status ≠ .cancelled ∧ x.Approved
  | .cancelProposal _ i => ∀ x ∈ s.inst .proposal i, x.status ≠ .executed
  | .vote _ i _ => ∀ x ∈ s.inst .proposal i, x.status ≠ .cancelled
  | _ => True

instance Permitted.decidable (s : State) : (op : Op) → Decidable (Permitted s op)
  | .executeProposal i => inferInstanceAs (Decidable (∀ x ∈ s.inst .proposal i,
    x.status ≠ .executed ∧ x.status ≠ .cancelled ∧ x.Approved))
  | .cancelProposal _ i => inferInstanceAs (Decidable (∀ x ∈ s.inst .proposal i, x.status ≠ .executed))
  | .vote _ i _ => inferInstanceAs (Decidable (∀ x ∈ s.inst .proposal i, x.status ≠ .cancelled))
  | .propose .. | .delegate .. | .undelegate _ | .updateConfig .. => inferInstanceAs (Decidable True)

/-- The status of every proposal tells what has happened to it. -/
structure Tracked (tr : List (State × (Env × Op))) (s : State) : Prop where
  unknown : ∀ i, s.inst .proposal i = none → ¬Executed tr i ∧ ¬Cancelled tr i
  executed : ∀ i, ∀ x ∈ s.inst .proposal i, x.status = .executed ↔ Executed tr i
  cancelled : ∀ i, ∀ x ∈ s.inst .proposal i, x.status = .cancelled ↔ Cancelled tr i

section
variable {s₀ s s' : State} {i : ℕ} {c : Env × Op} {tr : List (State × (Env × Op))}

theorem executed_concat : Executed (tr ++ [(s, c)]) i ↔ Executed tr i ∨ c.2 = .executeProposal i := by
  simp only [Executed, List.mem_append, List.mem_singleton, or_and_right, exists_or, exists_eq_left]

theorem cancelled_concat :
    Cancelled (tr ++ [(s, c)]) i ↔ Cancelled tr i ∨ ∃ a, c.2 = .cancelProposal a i := by
  simp only [Cancelled, List.mem_append, List.mem_singleton, or_and_right, exists_or, exists_eq_left]

/-- **A proper step keeps track.** -/
theorem Tracked.step (h : Tracked tr s) (hnew : ∀ i, nextId s ≤ i → s.inst .proposal i = none)
    (hs : Steps exec s c s') (hp : Proper tr (s, c)) : Tracked (tr ++ [(s, c)]) s' := by
  have hnot : ∀ i, ¬c.2.Concerns i → c.2 ≠ .executeProposal i ∧ ∀ a, c.2 ≠ .cancelProposal a i := by
    intro i hc
    exact ⟨fun he => hc (he ▸ rfl), fun a he => hc (he ▸ rfl)⟩
  refine ⟨fun i hi => ?_, fun i y hy => ?_, fun i y hy => ?_⟩
  · rw [executed_concat, cancelled_concat]
    cases touches hs i with
    | same hx hc =>
      obtain ⟨hne, hnc⟩ := hnot i hc
      obtain ⟨hune, hunc⟩ := h.unknown i (hx ▸ hi)
      exact ⟨not_or.2 ⟨hune, hne⟩, not_or.2 ⟨hunc, fun ⟨a, ha⟩ => hnc a ha⟩⟩
    | propose _ _ hx | vote _ _ hx | execute _ _ _ hx | cancel _ hx => rw [hi] at hx; cases hx
  · rw [executed_concat]
    cases touches hs i with
    | same hx hc => rw [h.executed i y (hx ▸ hy), or_iff_left (hnot i hc).1]
    | propose hi _ hx _ hactive =>
      obtain rfl := Option.some.inj (hx.symm.trans hy)
      rw [hactive, or_iff_left nofun]
      exact iff_of_false nofun (h.unknown i (hnew i hi.ge)).1
    | vote hx _ hx' =>
      obtain rfl := Option.some.inj (hx'.symm.trans hy)
      rw [withVotes_status, h.executed i _ hx, or_iff_left nofun]
    | execute hx _ _ hx' =>
      obtain rfl := Option.some.inj (hx'.symm.trans hy)
      exact iff_of_true rfl (.inr rfl)
    | cancel hx hx' =>
      obtain rfl := Option.some.inj (hx'.symm.trans hy)
      rw [or_iff_left nofun]
      exact iff_of_false nofun hp
  · rw [cancelled_concat]
    cases touches hs i with
    | same hx hc => rw [h.cancelled i y (hx ▸ hy), or_iff_left fun ⟨a, ha⟩ => (hnot i hc).2 a ha]
    | propose hi _ hx _ hactive =>
      obtain rfl := Option.some.inj (hx.symm.trans hy)
      rw [hactive, or_iff_left nofun]
      exact iff_of_false nofun (h.unknown i (hnew i hi.ge)).2
    | vote hx _ hx' =>
      obtain rfl := Option.some.inj (hx'.symm.trans hy)
      rw [withVotes_status, h.cancelled i _ hx, or_iff_left nofun]
    | execute hx _ _ hx' =>
      obtain rfl := Option.some.inj (hx'.symm.trans hy)
      rw [or_iff_left nofun]
      exact iff_of_false nofun hp.2.1
    | cancel hx hx' =>
      obtain rfl := Option.some.inj (hx'.symm.trans hy)
      exact iff_of_true rfl (.inr ⟨_, rfl⟩)

theorem tracked_of_run (h₀ : NoProposal s₀) (h : Run (Steps exec) s₀ tr s)
    (hp : ∀ before p after, tr = before ++ p :: after → Proper before p) : Tracked tr s := by
  induction h with
  | init => exact ⟨fun _ _ => ⟨nofun, nofun⟩, fun i x hx => (by rw [h₀ i] at hx; cases hx),
      fun i x hx => (by rw [h₀ i] at hx; cases hx)⟩
  | snoc hr hs ih =>
    rw [Run.forall_cut_concat] at hp
    exact (ih hp.1).step (fun i hi => unused_of_run h₀ hr hi) hs hp.2

/-- **A step is proper exactly when the proposal permits it**, as long as the status is right. -/
theorem proper_iff (h : Tracked tr s) (hs : Steps exec s c s') : Proper tr (s, c) ↔ Permitted s c.2 := by
  obtain ⟨env, op⟩ := c
  obtain ⟨_, hs⟩ := hs
  cases op with
  | executeProposal i =>
    obtain ⟨_, hr, -⟩ := of_run_map _ _ hs
    obtain ⟨x, hx, hexec, hend, -⟩ := DAOGovernance.executed hr
    constructor
    · rintro ⟨hne, hnc, y, hy, -, -, happ⟩ z hz
      obtain rfl := Option.some.inj (hy.symm.trans hz)
      exact ⟨mt (h.executed i _ hz).1 hne, mt (h.cancelled i _ hz).1 hnc, happ⟩
    · intro hp
      obtain ⟨hne, hnc, happ⟩ := hp x hx
      exact ⟨mt (h.executed i x hx).2 hne, mt (h.cancelled i x hx).2 hnc, x, hx, hexec, hend, happ⟩
  | cancelProposal a i =>
    obtain ⟨_, hr, -⟩ := of_run_map _ _ hs
    obtain ⟨x, hx, -⟩ := DAOGovernance.cancelled hr
    constructor
    · intro hne y hy
      exact mt (h.executed i y hy).1 hne
    · intro hp
      exact mt (h.executed i x hx).2 (hp x hx)
  | vote a i ch =>
    obtain ⟨_, hr, -⟩ := of_run_map _ _ hs
    obtain ⟨x, _, hx, hend, -⟩ := voted hr
    constructor
    · rintro ⟨hnc, -⟩ y hy
      exact mt (h.cancelled i y hy).1 hnc
    · intro hp
      exact ⟨mt (h.cancelled i x hx).2 (hp x hx), x, hx, hend⟩
  | _ => exact Iff.rfl

/-- **Every step of a run is proper** if and only if every step is permitted by the status and the votes
    of its proposal. -/
theorem history_proper (h₀ : NoProposal s₀) (h : Run (Steps exec) s₀ tr s) :
    (∀ before p after, tr = before ++ p :: after → Proper before p) ↔ ∀ p ∈ tr, Permitted p.1 p.2.2 := by
  induction h with
  | init => simp
  | snoc hr hs ih =>
    simp only [Run.forall_cut_concat (P := Proper), List.forall_mem_append, List.forall_mem_singleton]
    rw [← ih]
    exact and_congr_right fun hp => proper_iff (tracked_of_run h₀ hr hp) hs

end

/-! ## Scripts -/

/-- A call in which every address authorises, at a ledger. -/
def atLedger (n : ℕ) : Env := { openEnv 0 with sequence := n }

/-- A governance without delays, before anybody has power. -/
def constituted : State :=
  (((Ledger.empty : State).put .owner () (account 70)).put .config ()
    ⟨account 71, 0, 100, 10, 4000, 5000, 0⟩).put .proposalCounter () 0

theorem constituted_initialized :
    (initializeGovernance (account 70) ⟨account 71, 0, 100, 10, 4000, 5000, 0⟩).run (atLedger 0) Ledger.empty =
      .ok ((), constituted) := rfl

/-- One user has power. -/
def governed : State := constituted.put .votingPower (account 65) ⟨account 65, 100, 0, none, 0⟩

theorem governed_noProposal : NoProposal governed := fun i => noProposal_initialized constituted_initialized i

/-- A proposal is voted on and executed. -/
def executedScript : List (Env × Op) :=
  [(atLedger 0, .propose (account 65) .featurePriority "t" "d" [] 0 0),
    (atLedger 5, .vote (account 65) 0 .for_), (atLedger 111, .executeProposal 0)]

/-- Another is cancelled. -/
def lifecycleScript : List (Env × Op) :=
  executedScript ++ [(atLedger 120, .propose (account 65) .featurePriority "t" "d" [] 0 0),
    (atLedger 121, .cancelProposal (account 65) 1)]

theorem history_proper_lifecycleScript :
    ∃ tr s, Run (Steps exec) governed tr s ∧ tr.map Prod.snd = lifecycleScript ∧
      ∀ before p after, tr = before ++ p :: after → Proper before p := by
  obtain ⟨s, hs⟩ : ∃ s, play exec governed lifecycleScript = some s :=
    Option.isSome_iff_exists.1 (by decide)
  refine ⟨_, s, run_of_play hs, map_snd_traceOf hs, ?_⟩
  exact (history_proper governed_noProposal (run_of_play hs)).2 (by decide)

/-- The proposal is executed again. -/
def reexecution : Env × Op := (atLedger 112, .executeProposal 0)

/-- **A proposal can be executed twice.** -/
theorem executed_twice :
    ∃ tr s s', Run (Steps exec) governed (tr ++ [(s, reexecution)]) s' ∧ tr.map Prod.snd = executedScript ∧
      Executed tr 0 ∧
      ¬∀ before p after, tr ++ [(s, reexecution)] = before ++ p :: after → Proper before p := by
  obtain ⟨s, hs⟩ : ∃ s, play exec governed executedScript = some s :=
    Option.isSome_iff_exists.1 (by decide)
  obtain ⟨s', hs'⟩ : ∃ s', play exec governed (executedScript ++ [reexecution]) = some s' :=
    Option.isSome_iff_exists.1 (by decide)
  have hrun := run_of_play hs'
  rw [traceOf_concat hs] at hrun
  have hexecuted : Executed (traceOf exec governed executedScript) 0 := by
    have hmem : (atLedger 111, Op.executeProposal 0) ∈
        (traceOf exec governed executedScript).map Prod.snd := by
      rw [map_snd_traceOf hs]
      simp [executedScript]
    obtain ⟨p, hp, he⟩ := List.mem_map.1 hmem
    exact ⟨p, hp, congrArg Prod.snd he⟩
  refine ⟨_, s, s', hrun, map_snd_traceOf hs, hexecuted, fun h => ?_⟩
  exact (h _ (s, reexecution) [] rfl).1 hexecuted

end DAOGovernance
