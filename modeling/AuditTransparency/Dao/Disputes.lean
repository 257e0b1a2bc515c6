/-
  DAODisputeResolution — disputes, jurors and verdicts (`src/dao_dispute_resolution.rs`).

  A dispute is filed, gets evidence, is put to jurors and decided by the majority of their
  votes; a defendant who loses is slashed.

  `env.invoker()` is an argument of the functions here.  All entries are in the instance
  store.

  A dispute can be put to jurors again at any time, who can then vote once more, and so it can be
  decided more than once.  What the trace has on it (`docket`) says everything:

  * `history_tallies`: its counters count the votes, each right after an assignment of the juror;
  * `history_vote_iff`: who can vote;
  * `history_verdicts`: its status and outcome;
  * `history_slashed`: what its defendant has lost.
-/
import AuditTransparency.Ledger.Contract
import AuditTransparency.Soroban.Script
import AuditTransparency.Soroban.Writes
import AuditTransparency.Soroban.ListRuns
import Mathlib.Algebra.BigOperators.Group.Finset.Piecewise

namespace DAODisputeResolution

open Soroban
open Soroban.Call
open AuditLedger (openEnv account)

/-! ## Data -/

inductive DisputeStatus where
  | filed
  | evidenceSubmitted
  | voting
  | decided
  | appealed
  | final
  | dismissed
  deriving DecidableEq

inductive DisputeOutcome where
  | plaintiffWins
  | defendantWins
  | partiallyUpheld
  | dismissed
  deriving DecidableEq

structure Dispute where
  disputeId : ℕ
  plaintiff : Address
  defendant : Address
  description : String
  evidenceUri : String
  status : DisputeStatus
  jurors : List Address
  votesFor : ℕ
  votesAgainst : ℕ
  votesAbstain : ℕ
  outcome : Option DisputeOutcome
  stakeAmount : ℕ
  filedLedger : ℕ
  evidenceDeadline : ℕ
  votingDeadline : ℕ
  votesCast : ℕ
  deriving DecidableEq

structure JurorAssignment where
  disputeId : ℕ
  juror : Address
  hasVoted : Bool
  vote : Option DisputeOutcome
  stake : ℕ
  reward : ℕ
  deriving DecidableEq

structure Appeal where
  appealId : ℕ
  disputeId : ℕ
  appellant : Address
  reason : String
  higherQuorumRequired : ℕ
  status : DisputeStatus
  deriving DecidableEq

structure DisputeConfig where
  jurorsPerDispute : ℕ
  evidencePeriod : ℕ
  votingPeriod : ℕ
  jurorRewardBps : ℕ
  slashingBps : ℕ
  minJurorStake : ℕ
  deriving DecidableEq

inductive DisputeError where
  | unauthorized
  | disputeNotFound
  | evEvidencePeriodClosed
  | notAssignedAsJuror
  | alreadyVoted
  | votingPeriodClosed
  | cannotAppeal
  | invalidStatus
  | invalidParties
  deriving DecidableEq

/-! ## Storage keys -/

inductive DisputeKey where
  | owner
  | config
  | dispute
  | disputeCounter
  | jurorAssignment
  | jurorVote
  | totalSlashed
  | appeal
  | appealCounter
  deriving DecidableEq

/-- The argument of a key. -/
@[reducible] def DisputeKey.Key : DisputeKey → Type
  | owner | config | disputeCounter | appealCounter => Unit
  | dispute | appeal => ℕ
  | jurorAssignment | jurorVote => ℕ × Address
  | totalSlashed => Address

/-- The value stored under a key. -/
@[reducible] def DisputeKey.Val : DisputeKey → Type
  | owner => Address
  | config => DisputeConfig
  | dispute => Dispute
  | disputeCounter | appealCounter | totalSlashed => ℕ
  | jurorAssignment => JurorAssignment
  | jurorVote => DisputeOutcome
  | appeal => Appeal

instance DisputeKey.decEqKey : (f : DisputeKey) → DecidableEq f.Key
  | owner | config | disputeCounter | appealCounter => inferInstanceAs (DecidableEq Unit)
  | dispute | appeal => inferInstanceAs (DecidableEq ℕ)
  | jurorAssignment | jurorVote => inferInstanceAs (DecidableEq (ℕ × Address))
  | totalSlashed => inferInstanceAs (DecidableEq Address)

/-- The storage of the contract; it publishes nothing. -/
abbrev layout : Layout where
  Field := DisputeKey
  Key := DisputeKey.Key
  Val := DisputeKey.Val
  Note := Empty

abbrev State := Ledger layout

abbrev Fn : Type → Type := Call DisputeError layout

/-- `env.storage().instance()` -/
abbrev get (f : DisputeKey) (k : f.Key) : Fn (Option f.Val) := Call.load layout f k
abbrev set (f : DisputeKey) (k : f.Key) (v : f.Val) : Fn Unit := Call.store layout f k v

/-! ## Internal helpers -/

/-- `get_owner` -/
def getOwner : Fn Address := do unwrapOr (← get .owner ()) .unauthorized

/-- `get_config` -/
def getConfig : Fn DisputeConfig := do unwrapOr (← get .config ()) .unauthorized

/-- `get_dispute_or_panic` -/
def getDisputeOrPanic (disputeId : ℕ) : Fn Dispute := do
  unwrapOr (← get .dispute disputeId) .disputeNotFound

/-- `get_next_dispute_id` -/
def getNextDisputeId : Fn ℕ := do
  let current := (← get .disputeCounter ()).getD 1
  set .disputeCounter () (← addChecked 32 current 1)
  return current

/-- `get_next_appeal_id` -/
def getNextAppealId : Fn ℕ := do
  let current := (← get .appealCounter ()).getD 1
  set .appealCounter () (← addChecked 32 current 1)
  return current

/-! ## Functions -/

/-- `initialize` -/
def initializeDisputes (owner : Address) (config : DisputeConfig) : Fn Unit := do
  requireAuth owner
  rejectIf (← get .owner ()).isSome .unauthorized
  set .owner () owner
  set .config () config
  set .disputeCounter () 0
  set .appealCounter () 0

/-- `file_dispute` -/
def fileDispute (invoker defendant : Address) (description evidenceUri : String) (stakeAmount : ℕ) :
    Fn ℕ := do
  rejectIf (invoker = defendant) .invalidParties
  let config ← getConfig
  let disputeId ← getNextDisputeId
  let currentLedger := (← getEnv).sequence
  let evidenceDeadline ← addChecked 32 currentLedger config.evidencePeriod
  set .dispute disputeId {
    disputeId
    plaintiff := invoker
    defendant, description, evidenceUri
    status := .filed
    jurors := []
    votesFor := 0
    votesAgainst := 0
    votesAbstain := 0
    outcome := none
    stakeAmount
    filedLedger := currentLedger
    evidenceDeadline
    votingDeadline := 0
    votesCast := 0 }
  return disputeId

/-- `submit_evidence` -/
def submitEvidence (invoker : Address) (disputeId : ℕ) (evidenceUri : String) (isPlaintiff : Bool) :
    Fn Unit := do
  let dispute ← getDisputeOrPanic disputeId
  let config ← getConfig
  let currentLedger := (← getEnv).sequence
  rejectIf (dispute.status ≠ .filed) .evEvidencePeriodClosed
  rejectIf (currentLedger > dispute.evidenceDeadline) .evEvidencePeriodClosed
  rejectIf (isPlaintiff = true ∧ invoker ≠ dispute.plaintiff) .unauthorized
  rejectIf (isPlaintiff = false ∧ invoker ≠ dispute.defendant) .unauthorized
  let votingDeadline ← addChecked 32 currentLedger config.votingPeriod
  set .dispute disputeId { dispute with evidenceUri, votingDeadline, status := .evidenceSubmitted }

/-- One round of the loop of `assign_jurors`. -/
def assignJuror (disputeId : ℕ) (juror : Address) : Fn Unit :=
  set .jurorAssignment (disputeId, juror)
    { disputeId, juror, hasVoted := false, vote := none, stake := 0, reward := 0 }

/-- `assign_jurors` -/
def assignJurors (disputeId : ℕ) (jurors : List Address) : Fn Unit := do
  let owner ← getOwner
  requireAuth owner
  let config ← getConfig
  let dispute ← getDisputeOrPanic disputeId
  rejectIf (jurors.length ≠ config.jurorsPerDispute) .invalidStatus
  jurors.foldlM (fun _ juror => assignJuror disputeId juror) ()
  set .dispute disputeId { dispute with jurors, status := .voting }

/-- The tally of an outcome goes up by one. -/
def addVote (dispute : Dispute) : DisputeOutcome → Fn Dispute
  | .plaintiffWins => do return { dispute with votesFor := ← addChecked 32 dispute.votesFor 1 }
  | .defendantWins => do return { dispute with votesAgainst := ← addChecked 32 dispute.votesAgainst 1 }
  | _ => do return { dispute with votesAbstain := ← addChecked 32 dispute.votesAbstain 1 }

/-- `cast_juror_vote` -/
def castJurorVote (invoker : Address) (disputeId : ℕ) (outcome : DisputeOutcome) : Fn Unit := do
  let dispute ← getDisputeOrPanic disputeId
  let currentLedger := (← getEnv).sequence
  rejectIf (dispute.status ≠ .voting) .votingPeriodClosed
  rejectIf (currentLedger > dispute.votingDeadline) .votingPeriodClosed
  let assignment ← unwrapOr (← get .jurorAssignment (disputeId, invoker)) .notAssignedAsJuror
  rejectIf (assignment.hasVoted = true) .alreadyVoted
  set .jurorAssignment (disputeId, invoker) { assignment with hasVoted := true, vote := some outcome }
  set .jurorVote (disputeId, invoker) outcome
  let dispute ← addVote dispute outcome
  let votesCast ← addChecked 32 dispute.votesCast 1
  set .dispute disputeId { dispute with votesCast }

/-- The outcome `finalize_dispute` determines. -/
def verdict (votesFor votesAgainst : ℕ) : DisputeOutcome :=
  if votesFor > votesAgainst then .plaintiffWins
  else if votesAgainst > votesFor then .defendantWins
  else .dismissed

/-- `finalize_dispute`.  The loop over the jurors looks up who voted with the majority, and rewards
    nobody yet. -/
def finalizeDispute (disputeId : ℕ) : Fn Unit := do
  let owner ← getOwner
  requireAuth owner
  let dispute ← getDisputeOrPanic disputeId
  let config ← getConfig
  let currentLedger := (← getEnv).sequence
  rejectIf (dispute.status ≠ .voting) .invalidStatus
  rejectIf (currentLedger ≤ dispute.votingDeadline) .votingPeriodClosed
  let outcome := verdict dispute.votesFor dispute.votesAgainst
  doIf (outcome = .plaintiffWins) do
    let slashedAmount := (← mulChecked 128 dispute.stakeAmount config.slashingBps) / 10000
    let currentTotal := (← get .totalSlashed dispute.defendant).getD 0
    set .totalSlashed dispute.defendant (← addChecked 128 currentTotal slashedAmount)
  dispute.jurors.foldlM (fun _ juror => do let _ ← get .jurorAssignment (disputeId, juror)) ()
  set .dispute disputeId { dispute with outcome := some outcome, status := .decided }

/-- `file_appeal` -/
def fileAppeal (invoker : Address) (disputeId : ℕ) (reason : String) : Fn ℕ := do
  let dispute ← getDisputeOrPanic disputeId
  rejectIf (dispute.status ≠ .decided) .cannotAppeal
  rejectIf (invoker ≠ dispute.plaintiff ∧ invoker ≠ dispute.defendant) .unauthorized
  let appealId ← getNextAppealId
  set .appeal appealId
    { appealId, disputeId, appellant := invoker, reason, higherQuorumRequired := 2, status := .appealed }
  return appealId

/-! ## Operations -/

/-- The functions that can write, but for `initialize`. -/
inductive Op where
  | fileDispute (invoker defendant : Address) (description evidenceUri : String) (stakeAmount : ℕ)
  | submitEvidence (invoker : Address) (disputeId : ℕ) (evidenceUri : String) (isPlaintiff : Bool)
  | assignJurors (disputeId : ℕ) (jurors : List Address)
  | castJurorVote (invoker : Address) (disputeId : ℕ) (outcome : DisputeOutcome)
  | finalizeDispute (disputeId : ℕ)
  | fileAppeal (invoker : Address) (disputeId : ℕ) (reason : String)
  deriving DecidableEq

/-- Runs an operation; two of them return an id. -/
def exec : Op → Fn (Option ℕ)
  | .fileDispute a b d e n => return some (← fileDispute a b d e n)
  | .submitEvidence a i e p => do submitEvidence a i e p; return none
  | .assignJurors i js => do assignJurors i js; return none
  | .castJurorVote a i o => do castJurorVote a i o; return none
  | .finalizeDispute i => do finalizeDispute i; return none
  | .fileAppeal a i r => return some (← fileAppeal a i r)

/-! ## Effects -/

instance : Reads getOwner := inferInstanceAs (Reads (_ >>= _))
instance : Reads getConfig := inferInstanceAs (Reads (_ >>= _))
instance (d : ℕ) : Reads (getDisputeOrPanic d) := inferInstanceAs (Reads (_ >>= _))

instance (x : Dispute) (o : DisputeOutcome) : Reads (addVote x o) := by
  cases o <;> exact inferInstanceAs (Reads (_ >>= _))

/-- The keys an operation can write. -/
@[reducible] def Op.writes : Op → List DisputeKey
  | fileDispute .. => [.disputeCounter, .dispute]
  | submitEvidence .. => [.dispute]
  | assignJurors .. => [.jurorAssignment, .dispute]
  | castJurorVote .. => [.jurorAssignment, .jurorVote, .dispute]
  | finalizeDispute .. => [.totalSlashed, .dispute]
  | fileAppeal .. => [.appealCounter, .appeal]

set_option synthInstance.maxSize 100000 in
/-- **Frame of the contract.** -/
theorem exec_writes (op : Op) : Writes layout op.writes (exec op) := by
  cases op <;>
    simp only [exec, Op.writes, fileDispute, getNextDisputeId, submitEvidence, assignJurors, assignJuror,
      castJurorVote, finalizeDispute, fileAppeal, getNextAppealId] <;>
    infer_instance

section
variable {env : Env} {s s' : State} {a b : Address} {d i n : ℕ} {o : DisputeOutcome} {x : Dispute}

@[simp] theorem post_getOwner {Q : Address → State → Prop} :
    Post getOwner Q env s ↔ ∀ a, s.inst .owner () = some a → Q a s := by
  rw [getOwner, post_bind, post_load, post_unwrapOr]

@[simp] theorem post_getConfig {Q : DisputeConfig → State → Prop} :
    Post getConfig Q env s ↔ ∀ c, s.inst .config () = some c → Q c s := by
  rw [getConfig, post_bind, post_load, post_unwrapOr]

@[simp] theorem post_getDisputeOrPanic {Q : Dispute → State → Prop} :
    Post (getDisputeOrPanic d) Q env s ↔ ∀ x, s.inst .dispute d = some x → Q x s := by
  rw [getDisputeOrPanic, post_bind, post_load, post_unwrapOr]

/-- The dispute with one more vote for an outcome, which is not counted yet. -/
def Dispute.withVote (x : Dispute) : DisputeOutcome → Dispute
  | .plaintiffWins => { x with votesFor := x.votesFor + 1 }
  | .defendantWins => { x with votesAgainst := x.votesAgainst + 1 }
  | _ => { x with votesAbstain := x.votesAbstain + 1 }

/-- The tally a vote for an outcome goes to. -/
def Dispute.tallyOf (x : Dispute) : DisputeOutcome → ℕ
  | .plaintiffWins => x.votesFor
  | .defendantWins => x.votesAgainst
  | _ => x.votesAbstain

@[simp] theorem post_addVote {Q : Dispute → State → Prop} :
    Post (addVote x o) Q env s ↔ (x.tallyOf o + 1 < 2 ^ 32 → Q (x.withVote o) s) := by
  cases o <;> simp only [addVote, post_bind, post_addChecked, post_pure] <;> rfl

@[simp] theorem withVote_votesCast : (x.withVote o).votesCast = x.votesCast := by
  cases o <;> rfl

/-- The id of the next dispute. -/
def nextId (s : State) : ℕ := (s.inst .disputeCounter ()).getD 1

/-- What has been slashed from an address. -/
def slashedOf (s : State) (a : Address) : ℕ := (s.inst .totalSlashed a).getD 0

/-- A dispute that has just been filed. -/
structure Dispute.Opened (x : Dispute) (plaintiff defendant : Address) (stake : ℕ) : Prop where
  parties : x.plaintiff = plaintiff ∧ x.defendant = defendant ∧ plaintiff ≠ defendant
  stakeAmount : x.stakeAmount = stake
  status : x.status = .filed
  outcome : x.outcome = none
  votes : x.votesFor = 0 ∧ x.votesAgainst = 0 ∧ x.votesAbstain = 0 ∧ x.votesCast = 0
  deadline : x.votingDeadline = 0

/-- What a filing leaves. -/
theorem filed {t e : String} (h : (fileDispute a b t e n).run env s = .ok (i, s')) :
    i = nextId s ∧ ∃ x : Dispute, x.Opened a b n ∧
      s' = (s.put .disputeCounter () (nextId s + 1)).put .dispute (nextId s) x := by
  refine Post.of_run (m := fileDispute a b t e n) (Q := fun i s' => i = nextId s ∧ ∃ x : Dispute,
    x.Opened a b n ∧ s' = (s.put .disputeCounter () (nextId s + 1)).put .dispute (nextId s) x) ?_ h
  simp only [fileDispute, getNextDisputeId, post_bind, post_getConfig, post_addChecked, post_rejectIf,
    post_load, post_getEnv, post_store, post_pure]
  intro hne _ _ _ _
  exact ⟨rfl, _, ⟨⟨rfl, rfl, hne⟩, rfl, rfl, rfl, ⟨rfl, rfl, rfl, rfl⟩, rfl⟩, rfl⟩

/-- What evidence leaves. -/
theorem evidenced {e : String} {p : Bool} (h : (submitEvidence a d e p).run env s = .ok ((), s')) :
    ∃ x c, s.inst .dispute d = some x ∧ s.inst .config () = some c ∧ x.status = .filed ∧
      env.sequence ≤ x.evidenceDeadline ∧ (a = x.plaintiff ∨ a = x.defendant) ∧
      s' = s.put .dispute d { x with
        evidenceUri := e, votingDeadline := env.sequence + c.votingPeriod, status := .evidenceSubmitted } := by
  refine Post.of_run (m := submitEvidence a d e p) (Q := fun _ s' => ∃ x c, s.inst .dispute d = some x ∧
    s.inst .config () = some c ∧ Dispute.status x = .filed ∧ env.sequence ≤ Dispute.evidenceDeadline x ∧
      (a = x.plaintiff ∨ a = x.defendant) ∧
      s' = s.put .dispute d { x with
        evidenceUri := e
        votingDeadline := env.sequence + DisputeConfig.votingPeriod c
        status := .evidenceSubmitted }) ?_ h
  simp only [submitEvidence, post_bind, post_getDisputeOrPanic, post_getConfig, post_getEnv, post_rejectIf,
    post_addChecked, post_store, not_not, not_lt, not_and]
  intro x hx c hc hstatus hdeadline hplaintiff hdefendant _
  refine ⟨x, c, hx, hc, hstatus, hdeadline, ?_, rfl⟩
  cases p with
  | true => exact Or.inl (hplaintiff rfl)
  | false => exact Or.inr (hdefendant rfl)

/-- Whether a juror has voted; `none` for an address that was never assigned. -/
def hasVoted (s : State) (d : ℕ) (a : Address) : Option Bool :=
  (s.inst .jurorAssignment (d, a)).map (·.hasVoted)

/-- The loop over the jurors. -/
theorem post_assign (js : List Address) : Post (js.foldlM (fun _ juror => assignJuror d juror) ())
    (fun _ s' => (∀ f ≠ DisputeKey.jurorAssignment, s'.inst f = s.inst f) ∧ ∀ e a, hasVoted s' e a =
      if e = d ∧ a ∈ js then some false else hasVoted s e a) env s := by
  let I (done : List Address) (_ : Unit) (t : State) : Prop :=
    (∀ f ≠ DisputeKey.jurorAssignment, t.inst f = s.inst f) ∧ ∀ e a, hasVoted t e a =
      if e = d ∧ a ∈ done then some false else hasVoted s e a
  refine post_foldlM I js () s [] ⟨fun _ _ => rfl, fun e a => by simp⟩ ?_
  rintro done b rest _ t - ⟨hframe, hvoted⟩
  rw [assignJuror, post_store]
  refine ⟨fun f hf => ?_, fun e a => ?_⟩
  · rw [← hframe f hf]
    simp [hf]
  · by_cases hk : (e, a) = (d, b)
    · obtain ⟨rfl, rfl⟩ := Prod.mk.inj hk
      simp [hasVoted]
    · have hne : ¬(e = d ∧ a = b) := fun h => hk (by rw [h.1, h.2])
      have hsame : hasVoted (t.put .jurorAssignment (d, b) ⟨d, b, false, none, 0, 0⟩) e a = hasVoted t e a := by
        simp [hasVoted, Function.update_of_ne hk]
      rw [hsame, hvoted]
      simp only [List.mem_append, List.mem_singleton, and_or_left, hne, or_false]

/-- What an assignment leaves. -/
theorem assigned {js : List Address} (h : (assignJurors d js).run env s = .ok ((), s')) :
    ∃ x, s.inst .dispute d = some x ∧
      s'.inst .dispute = Function.update (s.inst .dispute) d (some { x with jurors := js, status := .voting }) ∧
      ∀ e a, hasVoted s' e a = if e = d ∧ a ∈ js then some false else hasVoted s e a := by
  refine Post.of_run (m := assignJurors d js) (Q := fun _ s' => ∃ x, s.inst .dispute d = some x ∧
      s'.inst .dispute = Function.update (s.inst .dispute) d
        (some { x with jurors := js, status := .voting }) ∧
      ∀ e a, hasVoted s' e a = if e = d ∧ a ∈ js then some false else hasVoted s e a) ?_ h
  simp only [assignJurors, post_bind, post_getOwner, post_requireAuth, post_getConfig, post_getDisputeOrPanic,
    post_rejectIf, post_store]
  intro owner _ _ config _ x hx _
  refine (post_assign js).mono fun _ t ht => ?_
  refine ⟨x, hx, ?_, fun e a => ?_⟩
  · rw [Ledger.put_inst, Store.set_same, ht.1 _ (by decide)]
  · rw [← ht.2]
    rfl

/-- What a vote leaves. -/
theorem cast (h : (castJurorVote a d o).run env s = .ok ((), s')) :
    ∃ x, s.inst .dispute d = some x ∧ x.status = .voting ∧ env.sequence ≤ x.votingDeadline ∧
      hasVoted s d a = some false ∧
      s'.inst .dispute = Function.update (s.inst .dispute) d
        (some { x.withVote o with votesCast := x.votesCast + 1 }) ∧
      ∀ e b, hasVoted s' e b = if e = d ∧ a = b then some true else hasVoted s e b := by
  refine Post.of_run (m := castJurorVote a d o) (Q := fun _ s' => ∃ x, s.inst .dispute d = some x ∧
      x.status = .voting ∧ env.sequence ≤ x.votingDeadline ∧ hasVoted s d a = some false ∧
      s'.inst .dispute = Function.update (s.inst .dispute) d
        (some { x.withVote o with votesCast := x.votesCast + 1 }) ∧
      ∀ e b, hasVoted s' e b = if e = d ∧ a = b then some true else hasVoted s e b) ?_ h
  simp only [castJurorVote, post_bind, post_getDisputeOrPanic, post_getEnv, post_rejectIf, post_load,
    post_unwrapOr, post_store, post_addChecked, not_not, not_lt, Bool.not_eq_true]
  intro x hx hstatus hdeadline y hy hvoted
  rw [post_addVote]
  intro _ _
  refine ⟨x, hx, hstatus, hdeadline, ?_, ?_, fun e b => ?_⟩
  · rw [hasVoted, hy, Option.map_some, hvoted]
  · simp
  · by_cases hk : (e, b) = (d, a)
    · obtain ⟨rfl, rfl⟩ := Prod.mk.inj hk
      simp [hasVoted]
    · rw [if_neg fun h => hk (by rw [h.1, h.2])]
      simp [hasVoted, Function.update_of_ne hk]

/-- What a verdict leaves. -/
theorem finalized (h : (finalizeDispute d).run env s = .ok ((), s')) :
    ∃ x c, s.inst .dispute d = some x ∧ s.inst .config () = some c ∧ x.status = .voting ∧
      x.votingDeadline < env.sequence ∧
      s'.inst .dispute = Function.update (s.inst .dispute) d
        (some { x with outcome := some (verdict x.votesFor x.votesAgainst), status := .decided }) ∧
      ∀ a, slashedOf s' a = slashedOf s a +
        if verdict x.votesFor x.votesAgainst = .plaintiffWins ∧ x.defendant = a then
          x.stakeAmount * c.slashingBps / 10000
        else 0 := by
  refine Post.of_run (m := finalizeDispute d) (Q := fun _ s' => ∃ x c, s.inst .dispute d = some x ∧
      s.inst .config () = some c ∧ x.status = .voting ∧ x.votingDeadline < env.sequence ∧
      s'.inst .dispute = Function.update (s.inst .dispute) d
        (some { x with outcome := some (verdict x.votesFor x.votesAgainst), status := .decided }) ∧
      ∀ a, slashedOf s' a = slashedOf s a +
        if verdict x.votesFor x.votesAgainst = .plaintiffWins ∧ x.defendant = a then
          x.stakeAmount * c.slashingBps / 10000
        else 0) ?_ h
  simp only [finalizeDispute, post_bind, post_getOwner, post_requireAuth, post_getDisputeOrPanic,
    post_getConfig, post_getEnv, post_rejectIf, post_doIf, post_mulChecked, post_load, post_addChecked,
    post_store, not_not, not_le]
  intro owner _ _ x hx c hc hstatus hdeadline
  refine ⟨fun hwins _ _ => post_reads fun _ _ => ?_, fun hnot => post_reads fun _ _ => ?_⟩
  · refine ⟨x, c, hx, hc, hstatus, hdeadline, by simp, fun a => ?_⟩
    by_cases ha : x.defendant = a
    · subst ha
      rw [if_pos ⟨hwins, rfl⟩]
      simp [slashedOf]
    · rw [if_neg fun h => ha h.2]
      simp [slashedOf, Function.update_of_ne (Ne.symm ha)]
  · refine ⟨x, c, hx, hc, hstatus, hdeadline, by simp, fun a => ?_⟩
    rw [if_neg fun h => hnot h.1]
    rfl

end

/-! ## Steps -/

/-- The operation is on a dispute that has been filed, and can change it. -/
def Op.Concerns (d : ℕ) : Op → Prop
  | .submitEvidence _ e _ _ | .assignJurors e _ | .castJurorVote _ e _ | .finalizeDispute e => e = d
  | .fileDispute .. | .fileAppeal .. => False

instance (d : ℕ) : (op : Op) → Decidable (op.Concerns d)
  | .submitEvidence _ e _ _ | .assignJurors e _ | .castJurorVote _ e _ | .finalizeDispute e =>
    inferInstanceAs (Decidable (e = d))
  | .fileDispute .. | .fileAppeal .. => inferInstanceAs (Decidable False)

/-- What a step can do to a dispute and its jurors. -/
inductive Touches (s : State) (d : ℕ) (s' : State) : Env × Op → Prop
  | same {c} : s'.inst .dispute d = s.inst .dispute d → hasVoted s' d = hasVoted s d → ¬c.2.Concerns d →
      Touches s d s' c
  | file {env a b t e n x} : d = nextId s → s'.inst .dispute d = some x → x.Opened a b n →
      hasVoted s' d = hasVoted s d → Touches s d s' (env, .fileDispute a b t e n)
  | evidence {env a e p x c} : s.inst .dispute d = some x → x.status = .filed → s.inst .config () = some c →
      s'.inst .dispute d = some { x with
        evidenceUri := e, votingDeadline := env.sequence + c.votingPeriod, status := .evidenceSubmitted } →
      hasVoted s' d = hasVoted s d → Touches s d s' (env, .submitEvidence a d e p)
  | assign {env js x} : s.inst .dispute d = some x →
      s'.inst .dispute d = some { x with jurors := js, status := .voting } →
      (∀ a, hasVoted s' d a = if a ∈ js then some false else hasVoted s d a) →
      Touches s d s' (env, .assignJurors d js)
  | vote {env a o x} : s.inst .dispute d = some x → x.status = .voting → env.sequence ≤ x.votingDeadline →
      hasVoted s d a = some false →
      s'.inst .dispute d = some { x.withVote o with votesCast := x.votesCast + 1 } →
      (∀ b, hasVoted s' d b = if a = b then some true else hasVoted s d b) →
      Touches s d s' (env, .castJurorVote a d o)
  | decide {env x} : s.inst .dispute d = some x → x.status = .voting → x.votingDeadline < env.sequence →
      s'.inst .dispute d = some
        { x with outcome := some (verdict x.votesFor x.votesAgainst), status := .decided } →
      hasVoted s' d = hasVoted s d → Touches s d s' (env, .finalizeDispute d)

section
variable {s s' : State} {d : ℕ} {c : Env × Op}

theorem hasVoted_frame (h : s'.inst .jurorAssignment = s.inst .jurorAssignment) :
    hasVoted s' d = hasVoted s d := by
  funext a
  rw [hasVoted, hasVoted, h]

/-- **Every step touches a dispute in one of these ways.** -/
theorem touches (hs : Steps exec s c s') (d : ℕ) : Touches s d s' c := by
  obtain ⟨env, op⟩ := c
  obtain ⟨_, hs⟩ := hs
  have hframe := (exec_writes op).of_run hs
  cases op with
  | fileDispute a b t e n =>
    obtain ⟨_, hr, -⟩ := of_run_map _ _ hs
    have hvoted : hasVoted s' d = hasVoted s d := hasVoted_frame (hframe.inst (notMem_of_eval rfl))
    obtain ⟨-, x, hx, rfl⟩ := filed hr
    by_cases hd : d = nextId s
    · subst hd
      exact .file rfl (Function.update_self ..) hx hvoted
    · exact .same (Function.update_of_ne hd ..) hvoted id
  | submitEvidence a e u p =>
    obtain ⟨_, hr, -⟩ := of_run_map _ _ hs
    have hvoted : hasVoted s' d = hasVoted s d := hasVoted_frame (hframe.inst (notMem_of_eval rfl))
    obtain ⟨x, c, hx, hc, hstatus, -, -, rfl⟩ := evidenced hr
    by_cases hd : d = e
    · subst hd
      exact .evidence hx hstatus hc (Function.update_self ..) hvoted
    · exact .same (Function.update_of_ne hd ..) hvoted (Ne.symm hd)
  | assignJurors e js =>
    obtain ⟨_, hr, -⟩ := of_run_map _ _ hs
    obtain ⟨x, hx, hx', hvoted⟩ := assigned hr
    by_cases hd : d = e
    · subst hd
      refine .assign hx (by rw [hx', Function.update_self]) fun a => ?_
      rw [hvoted]
      simp only [true_and]
    · refine .same (by rw [hx', Function.update_of_ne hd]) (funext fun a => ?_) (Ne.symm hd)
      rw [hvoted, if_neg fun h => hd h.1]
  | castJurorVote a e o =>
    obtain ⟨_, hr, -⟩ := of_run_map _ _ hs
    obtain ⟨x, hx, hstatus, hdeadline, hseat, hx', hvoted⟩ := cast hr
    by_cases hd : d = e
    · subst hd
      refine .vote hx hstatus hdeadline hseat (by rw [hx', Function.update_self]) fun b => ?_
      rw [hvoted]
      simp only [true_and]
    · refine .same (by rw [hx', Function.update_of_ne hd]) (funext fun b => ?_) (Ne.symm hd)
      rw [hvoted, if_neg fun h => hd h.1]
  | finalizeDispute e =>
    obtain ⟨_, hr, -⟩ := of_run_map _ _ hs
    have hvoted : hasVoted s' d = hasVoted s d := hasVoted_frame (hframe.inst (notMem_of_eval rfl))
    obtain ⟨x, c, hx, -, hstatus, hdeadline, hx', -⟩ := finalized hr
    by_cases hd : d = e
    · subst hd
      exact .decide hx hstatus hdeadline (by rw [hx', Function.update_self]) hvoted
    · exact .same (by rw [hx', Function.update_of_ne hd]) hvoted (Ne.symm hd)
  | fileAppeal a e r =>
    exact .same (by rw [hframe.inst (notMem_of_eval rfl)])
      (hasVoted_frame (hframe.inst (notMem_of_eval rfl))) id

/-- A new dispute gets the next id. -/
theorem nextId_step (hs : Steps exec s c s') : nextId s' = nextId s +
    match c.2 with
    | .fileDispute .. => 1
    | _ => 0 := by
  obtain ⟨env, op⟩ := c
  obtain ⟨_, hs⟩ := hs
  have hframe := (exec_writes op).of_run hs
  cases op with
  | fileDispute a b t e n =>
    obtain ⟨_, hr, -⟩ := of_run_map _ _ hs
    obtain ⟨-, x, -, rfl⟩ := filed hr
    rfl
  | _ => rw [nextId, nextId, hframe.inst (notMem_of_eval rfl)]; rfl

/-- The configuration stays. -/
theorem config_step (hs : Steps exec s c s') : s'.inst .config = s.inst .config := by
  obtain ⟨env, op⟩ := c
  obtain ⟨_, hs⟩ := hs
  have hframe := (exec_writes op).of_run hs
  cases op <;> exact hframe.inst (notMem_of_eval rfl)

end

/-! ## Dockets -/

/-- What a trace has on a dispute. -/
def docket (d : ℕ) (tr : List (State × (Env × Op))) : List (Env × Op) :=
  (tr.map Prod.snd).filter fun c => c.2.Concerns d

/-- The outcome an operation votes for. -/
def Op.ballot : Op → Option DisputeOutcome
  | .castJurorVote _ _ o => some o
  | _ => none

/-- What becomes of a juror: an assignment (`false`) or a vote (`true`). -/
def Op.turn (a : Address) : Op → Option Bool
  | .assignJurors _ js => if a ∈ js then some false else none
  | .castJurorVote b _ _ => if b = a then some true else none
  | _ => none

/-- The stage an operation brings a dispute to. -/
def Op.stage : Op → Option DisputeStatus
  | .submitEvidence .. => some .evidenceSubmitted
  | .assignJurors .. => some .voting
  | .finalizeDispute _ => some .decided
  | _ => none

def votes (l : List (Env × Op)) : List DisputeOutcome := l.filterMap (·.2.ballot)

def turns (a : Address) (l : List (Env × Op)) : List Bool := l.filterMap (·.2.turn a)

def stages (l : List (Env × Op)) : List DisputeStatus := l.filterMap (·.2.stage)

/-- The last ledger of the vote, which is set with the evidence. -/
def deadlineOf (period : ℕ) (l : List (Env × Op)) : ℕ :=
  ((l.find? fun c => c.2.stage = some .evidenceSubmitted).map (·.1.sequence + period)).getD 0

/-- The verdict on the votes of a docket. -/
def verdictOn (l : List (Env × Op)) : DisputeOutcome :=
  verdict ((votes l).count .plaintiffWins) ((votes l).count .defendantWins)

/-- The verdicts, each on the votes before it. -/
def rulings (before : List (Env × Op)) : List (Env × Op) → List DisputeOutcome
  | [] => []
  | c :: l =>
    (if c.2.stage = some .decided then [verdictOn before] else []) ++ rulings (before ++ [c]) l

section
variable {l before : List (Env × Op)} {c : Env × Op} {p : State × (Env × Op)} {d : ℕ} {a : Address}
  {tr : List (State × (Env × Op))} {period : ℕ}

theorem docket_concat :
    docket d (tr ++ [p]) = docket d tr ++ if p.2.2.Concerns d then [p.2] else [] := by
  rw [docket, List.map_append, List.filter_append, List.map_singleton, List.filter_singleton]
  by_cases hc : p.2.2.Concerns d <;> simp [hc, docket]

theorem docket_concat_of (h : p.2.2.Concerns d) : docket d (tr ++ [p]) = docket d tr ++ [p.2] := by
  rw [docket_concat, if_pos h]

theorem docket_concat_not (h : ¬p.2.2.Concerns d) : docket d (tr ++ [p]) = docket d tr := by
  rw [docket_concat, if_neg h, List.append_nil]

theorem votes_concat : votes (l ++ [c]) = votes l ++ c.2.ballot.toList := filterMap_concat

theorem votes_concat_not (h : c.2.ballot = none) : votes (l ++ [c]) = votes l := by
  rw [votes_concat, h, Option.toList_none, List.append_nil]

theorem turns_concat : turns a (l ++ [c]) = turns a l ++ (c.2.turn a).toList := filterMap_concat

theorem stages_concat : stages (l ++ [c]) = stages l ++ c.2.stage.toList := filterMap_concat

theorem rulings_concat : rulings before (l ++ [c]) = rulings before l ++
    if c.2.stage = some .decided then [verdictOn (before ++ l)] else [] := by
  induction l generalizing before with
  | nil => simp [rulings]
  | cons b l ih => rw [List.cons_append, rulings, ih, rulings, List.append_assoc, List.append_assoc,
      List.singleton_append]

theorem deadlineOf_concat (h : c.2.stage ≠ some .evidenceSubmitted) :
    deadlineOf period (l ++ [c]) = deadlineOf period l := by
  rw [deadlineOf, List.find?_append, List.find?_singleton, if_neg (by simpa using h), Option.or_none, deadlineOf]

theorem deadlineOf_evidence (h : DisputeStatus.evidenceSubmitted ∉ stages l)
    (hc : c.2.stage = some .evidenceSubmitted) : deadlineOf period (l ++ [c]) = c.1.sequence + period := by
  have hnone : l.find? (fun c => c.2.stage = some .evidenceSubmitted) = none := by
    rw [List.find?_eq_none]
    intro b hb hstage
    exact h (List.mem_filterMap.2 ⟨b, hb, of_decide_eq_true hstage⟩)
  rw [deadlineOf, List.find?_append, hnone, List.find?_singleton, if_pos (by simpa using hc)]
  rfl

end

/-! ## Records -/

/-- The counters of a record count votes. -/
def Tallied (vs : List DisputeOutcome) (x : Dispute) : Prop :=
  x.votesFor = vs.count .plaintiffWins ∧ x.votesAgainst = vs.count .defendantWins ∧
    x.votesAbstain = vs.countP (fun o => o = .partiallyUpheld ∨ o = .dismissed) ∧ x.votesCast = vs.length

/-- A juror votes only right after an assignment. -/
def Seated (ts : List Bool) (seat : Option Bool) : Prop := seat = ts.getLast? ∧ Follows id not ts

/-- The stage of a record is the one a docket came to. -/
structure Staged (period : ℕ) (l : List (Env × Op)) (x : Dispute) : Prop where
  status : x.status = (stages l).getLast?.getD .filed
  evidence : .evidenceSubmitted ∉ (stages l).tail
  decided : Follows (· = .decided) (· = .voting) (stages l)
  outcome : x.outcome = (rulings [] l).getLast?
  deadline : x.votingDeadline = deadlineOf period l

/-- A record says what a docket says. -/
structure InLine (period : ℕ) (l : List (Env × Op)) (x : Dispute) (seat : Address → Option Bool) : Prop where
  staged : Staged period l x
  tallied : Tallied (votes l) x
  seated : ∀ a, Seated (turns a l) (seat a)

section
variable {period d n : ℕ} {l : List (Env × Op)} {x : Dispute} {seat seat' : Address → Option Bool} {env : Env}
  {a b : Address} {o : DisputeOutcome}

theorem filed_notMem_stages : DisputeStatus.filed ∉ stages l := by
  intro h
  obtain ⟨c, -, hc⟩ := List.mem_filterMap.1 h
  revert hc
  cases c.2 <;> simp [Op.stage]

/-- A dispute that is still filed has had no evidence. -/
theorem Staged.stages_nil (h : Staged period l x) (hstatus : x.status = .filed) : stages l = [] := by
  rw [← List.getLast?_eq_none_iff]
  rcases hlast : (stages l).getLast? with _ | t
  · rfl
  · have ht := h.status
    rw [hstatus, hlast, Option.getD_some] at ht
    exact absurd (ht ▸ List.mem_of_getLast? hlast) filed_notMem_stages

/-- A dispute that is voted on was put to jurors last. -/
theorem Staged.last_voting (h : Staged period l x) (hstatus : x.status = .voting) :
    (stages l).getLast? = some .voting := by
  have ht := h.status
  rcases hlast : (stages l).getLast? with _ | t <;> rw [hstatus, hlast] at ht
  · cases ht
  · rw [Option.getD_some] at ht
    rw [ht]

theorem evidence_concat {t : DisputeStatus} (h : .evidenceSubmitted ∉ (stages l).tail)
    (ht : t ≠ .evidenceSubmitted) : .evidenceSubmitted ∉ (stages l ++ [t]).tail := by
  rcases hs : stages l with _ | ⟨u, r⟩
  · simp
  · rw [hs] at h
    simpa using ⟨h, ht.symm⟩

theorem inLine_nil (hx : x.Opened a b n) (hseat : ∀ a, seat a = none) : InLine period [] x seat where
  staged := {
    status := hx.status
    evidence := by simp [stages]
    decided := follows_nil
    outcome := hx.outcome
    deadline := hx.deadline }
  tallied := hx.votes
  seated a := ⟨hseat a, follows_nil⟩

theorem InLine.submitted {e : String} {p : Bool} (h : InLine period l x seat) (hstatus : x.status = .filed) :
    InLine period (l ++ [(env, .submitEvidence a d e p)]) { x with
      evidenceUri := e, votingDeadline := env.sequence + period, status := .evidenceSubmitted } seat := by
  have hnil := h.staged.stages_nil hstatus
  refine ⟨?_, ?_, fun b => ?_⟩
  · constructor <;> simp only [stages_concat, hnil]
    · rfl
    · simp [Op.stage]
    · exact follows_nil.concat (by simp)
    · rw [rulings_concat, if_neg (by simp [Op.stage]), List.append_nil]
      exact h.staged.outcome
    · rw [deadlineOf_evidence (by simp [hnil]) rfl]
  · rw [votes_concat_not rfl]
    exact h.tallied
  · rw [turns_concat]
    simpa [Op.turn] using h.seated b

theorem InLine.assigned {js : List Address} (h : InLine period l x seat)
    (hseat : ∀ a, seat' a = if a ∈ js then some false else seat a) :
    InLine period (l ++ [(env, .assignJurors d js)]) { x with jurors := js, status := .voting } seat' := by
  refine ⟨?_, ?_, fun b => ?_⟩
  · constructor <;> simp only [stages_concat]
    · simp [Op.stage]
    · exact evidence_concat h.staged.evidence (by simp)
    · exact h.staged.decided.concat (by simp)
    · rw [rulings_concat, if_neg (by simp [Op.stage]), List.append_nil]
      exact h.staged.outcome
    · rw [deadlineOf_concat (by simp [Op.stage])]
      exact h.staged.deadline
  · rw [votes_concat_not rfl]
    exact h.tallied
  · rw [turns_concat, hseat]
    by_cases hb : b ∈ js
    · rw [if_pos hb, Op.turn, if_pos hb]
      exact ⟨by simp, (h.seated b).2.concat (by simp)⟩
    · rw [if_neg hb, Op.turn, if_neg hb]
      simpa using h.seated b

theorem Tallied.vote {vs : List DisputeOutcome} (h : Tallied vs x) :
    Tallied (vs ++ [o]) { x.withVote o with votesCast := x.votesCast + 1 } := by
  obtain ⟨hfor, hagainst, habstain, hcast⟩ := h
  cases o <;> simp [Tallied, Dispute.withVote, hfor, hagainst, habstain, hcast]

theorem InLine.voted (h : InLine period l x seat) (hturn : seat a = some false)
    (hseat : ∀ b, seat' b = if a = b then some true else seat b) :
    InLine period (l ++ [(env, .castJurorVote a d o)]) { x.withVote o with votesCast := x.votesCast + 1 }
      seat' := by
  refine ⟨?_, ?_, fun b => ?_⟩
  · have hstages : stages (l ++ [(env, .castJurorVote a d o)]) = stages l := by
      rw [stages_concat]
      exact List.append_nil _
    constructor <;> try rw [hstages]
    · rw [← h.staged.status]
      cases o <;> rfl
    · exact h.staged.evidence
    · exact h.staged.decided
    · rw [rulings_concat, if_neg (by simp [Op.stage]), List.append_nil, ← h.staged.outcome]
      cases o <;> rfl
    · rw [deadlineOf_concat (by simp [Op.stage]), ← h.staged.deadline]
      cases o <;> rfl
  · rw [votes_concat]
    exact h.tallied.vote
  · rw [turns_concat, hseat]
    by_cases hb : a = b
    · subst hb
      rw [if_pos rfl, Op.turn, if_pos rfl]
      refine ⟨by simp, (h.seated a).2.concat fun _ => ⟨false, ?_, rfl⟩⟩
      rw [Option.mem_def, ← (h.seated a).1, hturn]
    · rw [if_neg hb, Op.turn, if_neg hb]
      simpa using h.seated b

theorem InLine.decided (h : InLine period l x seat) (hstatus : x.status = .voting) :
    InLine period (l ++ [(env, .finalizeDispute d)])
      { x with outcome := some (verdict x.votesFor x.votesAgainst), status := .decided } seat := by
  refine ⟨?_, ?_, fun b => ?_⟩
  · constructor <;> simp only [stages_concat]
    · simp [Op.stage]
    · exact evidence_concat h.staged.evidence (by simp)
    · exact h.staged.decided.concat fun _ => ⟨_, h.staged.last_voting hstatus, by simp⟩
    · rw [rulings_concat, if_pos (by simp [Op.stage]), List.getLast?_concat, List.nil_append, verdictOn,
        h.tallied.1, h.tallied.2.1]
    · rw [deadlineOf_concat (by simp [Op.stage])]
      exact h.staged.deadline
  · rw [votes_concat_not rfl]
    exact h.tallied
  · rw [turns_concat]
    simpa [Op.turn] using h.seated b

end

/-! ## Runs -/

/-- The state in which `initialize` leaves a new contract. -/
def Deployed (config : DisputeConfig) (s₀ : State) : Prop :=
  ∃ env owner, (initializeDisputes owner config).run env .empty = .ok ((), s₀)

/-- No dispute has been filed. -/
structure NoDispute (s : State) : Prop where
  dispute : ∀ d, s.inst .dispute d = none
  seats : ∀ d a, hasVoted s d a = none

/-- Every record says what the trace does. -/
structure Tracked (period : ℕ) (tr : List (State × (Env × Op))) (s : State) : Prop where
  unused : ∀ d, nextId s ≤ d → s.inst .dispute d = none
  unknown : ∀ d, s.inst .dispute d = none → docket d tr = [] ∧ ∀ a, hasVoted s d a = none
  inLine : ∀ d, ∀ x ∈ s.inst .dispute d, InLine period (docket d tr) x (hasVoted s d)

section
variable {period d : ℕ} {s₀ s s' : State} {c : Env × Op} {tr : List (State × (Env × Op))}
  {config : DisputeConfig} {env : Env} {a : Address} {o : DisputeOutcome}

theorem Deployed.eq (h : Deployed config s₀) : ∃ owner, s₀ = ((((Ledger.empty : State).put .owner () owner).put
    .config () config).put .disputeCounter () 0).put .appealCounter () 0 := by
  obtain ⟨env, owner, h⟩ := h
  refine ⟨owner, ?_⟩
  refine Post.of_run (m := initializeDisputes owner config) (Q := fun _ s' => s' =
    ((((Ledger.empty : State).put .owner () owner).put .config () config).put .disputeCounter () 0).put
      .appealCounter () 0) ?_ h
  simp only [initializeDisputes, post_bind, post_requireAuth, post_load, post_rejectIf, post_store]
  exact fun _ _ => trivial

theorem Deployed.noDispute (h : Deployed config s₀) : NoDispute s₀ := by
  obtain ⟨owner, rfl⟩ := h.eq
  exact ⟨fun _ => rfl, fun _ _ => rfl⟩

theorem Deployed.get_config (h : Deployed config s₀) : s₀.inst .config () = some config := by
  obtain ⟨owner, rfl⟩ := h.eq
  rfl

theorem NoDispute.tracked (h : NoDispute s) : Tracked period [] s where
  unused d _ := h.dispute d
  unknown d _ := ⟨rfl, h.seats d⟩
  inLine d x hx := by
    rw [Option.mem_def, h.dispute d] at hx
    cases hx

/-- **A step keeps track.** -/
theorem Tracked.step (h : Tracked config.votingPeriod tr s) (hconfig : s.inst .config () = some config)
    (hs : Steps exec s c s') : Tracked config.votingPeriod (tr ++ [(s, c)]) s' := by
  refine ⟨fun d hd => ?_, fun d hd => ?_, fun d y hy => ?_⟩
  · rw [nextId_step hs] at hd
    have hnone := h.unused d (Nat.le_of_add_right_le hd)
    cases touches hs d with
    | same hx => rw [hx, hnone]
    | file he =>
      rw [he] at hd
      exact absurd hd (Nat.not_succ_le_self _)
    | evidence hx | assign hx | vote hx | decide hx => rw [hnone] at hx; cases hx
  · cases touches hs d with
    | same hx hseat hc =>
      rw [docket_concat_not hc, hseat]
      exact h.unknown d (hx ▸ hd)
    | file _ hx | evidence _ _ _ hx | assign _ hx | vote _ _ _ _ hx | decide _ _ _ hx => rw [hx] at hd; cases hd
  · cases touches hs d with
    | same hx hseat hc =>
      rw [docket_concat_not hc, hseat]
      exact h.inLine d y (hx ▸ hy)
    | file he hx hopened hseat =>
      obtain rfl := Option.some.inj (hx.symm.trans hy)
      obtain ⟨hnil, hnone⟩ := h.unknown d (h.unused d he.ge)
      rw [docket_concat_not id, hnil, hseat]
      exact inLine_nil hopened hnone
    | evidence hx hstatus hc hx' hseat =>
      obtain rfl := Option.some.inj (hx'.symm.trans hy)
      obtain rfl := Option.some.inj (hconfig.symm.trans hc)
      rw [docket_concat_of, hseat]
      · exact (h.inLine d _ hx).submitted hstatus
      · rfl
    | assign hx hx' hseat =>
      obtain rfl := Option.some.inj (hx'.symm.trans hy)
      rw [docket_concat_of]
      · exact (h.inLine d _ hx).assigned hseat
      · rfl
    | vote hx _ _ hturn hx' hseat =>
      obtain rfl := Option.some.inj (hx'.symm.trans hy)
      rw [docket_concat_of]
      · exact (h.inLine d _ hx).voted hturn hseat
      · rfl
    | decide hx hstatus _ hx' hseat =>
      obtain rfl := Option.some.inj (hx'.symm.trans hy)
      rw [docket_concat_of, hseat]
      · exact (h.inLine d _ hx).decided hstatus
      · rfl

theorem config_of_run (h : Run (Steps exec) s₀ tr s) : s.inst .config = s₀.inst .config := by
  induction h with
  | init => rfl
  | snoc _ hs ih => rw [config_step hs, ih]

theorem tracked_of_run (h₀ : Deployed config s₀) (h : Run (Steps exec) s₀ tr s) :
    Tracked config.votingPeriod tr s := by
  induction h with
  | init => exact h₀.noDispute.tracked
  | snoc hr hs ih => exact ih.step (by rw [config_of_run hr, h₀.get_config]) hs

/-- **The counters of a dispute count its votes**, and each vote of a juror comes right after an
    assignment of theirs. -/
theorem history_tallies (h₀ : Deployed config s₀) (h : Run (Steps exec) s₀ tr s) {x : Dispute}
    (hx : s.inst .dispute d = some x) :
    Tallied (votes (docket d tr)) x ∧ ∀ a, Follows id not (turns a (docket d tr)) ∧
      (turns a (docket d tr)).count true ≤ (turns a (docket d tr)).count false := by
  have hI := (tracked_of_run h₀ h).inLine d x hx
  refine ⟨hI.tallied, fun a => ⟨(hI.seated a).2, ?_⟩⟩
  have hle := (hI.seated a).2.countP_le (by simp)
  refine hle.trans_eq' ?_ |>.trans_eq ?_
  · exact List.countP_congr fun b _ => by simp
  · exact List.countP_congr fun b _ => by simp

/-- The votes that are accepted. -/
theorem castable_iff : (∃ r s', (castJurorVote a d o).run env s = .ok (r, s')) ↔
    ∃ x, s.inst .dispute d = some x ∧ x.status = .voting ∧ env.sequence ≤ x.votingDeadline ∧
      hasVoted s d a = some false ∧ x.tallyOf o + 1 < 2 ^ 32 ∧ x.votesCast + 1 < 2 ^ 32 := by
  have hpost : (∃ r s', (castJurorVote a d o).run env s = .ok (r, s')) ↔
      ¬Post (castJurorVote a d o) (fun _ _ => False) env s := by
    simp only [Post, imp_false, not_forall, not_not]
  rw [hpost]
  simp only [castJurorVote, post_bind, post_getDisputeOrPanic, post_getEnv, post_rejectIf, post_load,
    post_unwrapOr, post_store, post_addChecked, not_not, not_lt, Bool.not_eq_true, post_addVote,
    withVote_votesCast, hasVoted, Option.map_eq_some_iff]
  constructor
  · intro h
    simp only [not_forall, exists_prop, not_false_eq_true, and_true] at h
    obtain ⟨x, hx, hstatus, hdeadline, y, hy, hvoted, htally, hcast⟩ := h
    exact ⟨x, hx, hstatus, hdeadline, ⟨y, hy, hvoted⟩, htally, hcast⟩
  · rintro ⟨x, hx, hstatus, hdeadline, ⟨y, hy, hvoted⟩, htally, hcast⟩ h
    exact h x hx hstatus hdeadline y hy hvoted htally hcast

theorem Tallied.tallyOf_le {vs : List DisputeOutcome} {x : Dispute} (h : Tallied vs x) :
    x.tallyOf o ≤ vs.length := by
  obtain ⟨hfor, hagainst, habstain, -⟩ := h
  cases o <;> simp only [Dispute.tallyOf, hfor, hagainst, habstain, List.count_le_length, List.countP_le_length]

/-- **Who can vote.**  A vote is accepted just when the dispute was put to jurors last, the voter was
    assigned after any vote of theirs, and the vote still runs. -/
theorem history_vote_iff (h₀ : Deployed config s₀) (h : Run (Steps exec) s₀ tr s) :
    (∃ r s', (castJurorVote a d o).run env s = .ok (r, s')) ↔
      (stages (docket d tr)).getLast? = some .voting ∧ (turns a (docket d tr)).getLast? = some false ∧
        env.sequence ≤ deadlineOf config.votingPeriod (docket d tr) ∧
        (votes (docket d tr)).length + 1 < 2 ^ 32 := by
  have hI := tracked_of_run h₀ h
  rw [castable_iff]
  constructor
  · rintro ⟨x, hx, hstatus, hdeadline, hseat, -, hcast⟩
    have hx := hI.inLine d x hx
    refine ⟨hx.staged.last_voting hstatus, ?_, hx.staged.deadline ▸ hdeadline, hx.tallied.2.2.2 ▸ hcast⟩
    rw [← (hx.seated a).1, hseat]
  · rintro ⟨hlast, hturn, hdeadline, hcast⟩
    rcases hx : s.inst .dispute d with _ | x
    · rw [(hI.unknown d hx).1] at hlast
      cases hlast
    · have hx' := hI.inLine d x hx
      refine ⟨x, rfl, ?_, hx'.staged.deadline ▸ hdeadline, ?_, ?_, hx'.tallied.2.2.2 ▸ hcast⟩
      · rw [hx'.staged.status, hlast]
        rfl
      · rw [(hx'.seated a).1, hturn]
      · exact lt_of_le_of_lt (Nat.succ_le_succ hx'.tallied.tallyOf_le) hcast

/-- Nobody votes without evidence, as the vote has no end then but ledger zero. -/
theorem voteless (h₀ : Deployed config s₀) (h : Run (Steps exec) s₀ tr s)
    (hseq : ∀ p ∈ tr, 0 < p.2.1.sequence) (he : .evidenceSubmitted ∉ stages (docket d tr)) :
    votes (docket d tr) = [] := by
  induction h with
  | init => rfl
  | @snoc tr s s' c hr hs ih =>
    rw [List.forall_mem_append, List.forall_mem_singleton] at hseq
    have hI := tracked_of_run h₀ hr
    by_cases hc : c.2.Concerns d
    swap
    · rw [docket_concat_not hc] at he ⊢
      exact ih hseq.1 he
    rw [docket_concat_of hc, stages_concat, List.mem_append, not_or] at he
    rw [docket_concat_of hc, votes_concat, ih hseq.1 he.1, List.nil_append, Option.toList_eq_nil_iff]
    cases touches hs d with
    | same _ _ hnot => exact absurd hc hnot
    | vote hx _ hdeadline =>
      have hzero : deadlineOf config.votingPeriod (docket d tr) = 0 := by
        rw [deadlineOf, List.find?_eq_none.2]
        · rfl
        · intro b hb hstage
          exact he.1 (List.mem_filterMap.2 ⟨b, hb, of_decide_eq_true hstage⟩)
      rw [(hI.inLine d _ hx).staged.deadline, hzero] at hdeadline
      exact absurd hseq.2 (Nat.not_lt.2 hdeadline)
    | _ => rfl

theorem rulings_voteless {l before : List (Env × Op)} (hl : votes (before ++ l) = []) :
    ∀ o ∈ rulings before l, o = .dismissed := by
  induction l generalizing before with
  | nil => simp [rulings]
  | cons b l ih =>
    rw [rulings, List.forall_mem_append]
    have hrest : votes ((before ++ [b]) ++ l) = [] := by rwa [List.append_assoc, List.singleton_append]
    refine ⟨?_, ih hrest⟩
    have hbefore : votes before = [] := by
      rw [votes, List.filterMap_append, List.append_eq_nil_iff] at hl
      exact hl.1
    split_ifs with hb
    · rw [List.forall_mem_singleton, verdictOn, hbefore]
      rfl
    · simp

/-- **The life of a dispute.**  Its status is the stage it came to last, which is never that of an appeal,
    its outcome is the verdict on the votes there were at the last finalization, evidence comes before all
    else and every verdict right after jurors.  Without evidence no one votes, and it is dismissed. -/
theorem history_verdicts (h₀ : Deployed config s₀) (h : Run (Steps exec) s₀ tr s) {x : Dispute}
    (hx : s.inst .dispute d = some x) :
    x.status = (stages (docket d tr)).getLast?.getD .filed ∧ x.outcome = (rulings [] (docket d tr)).getLast? ∧
      .evidenceSubmitted ∉ (stages (docket d tr)).tail ∧
      Follows (· = .decided) (· = .voting) (stages (docket d tr)) ∧
      ((∀ p ∈ tr, 0 < p.2.1.sequence) → .evidenceSubmitted ∉ stages (docket d tr) →
        votes (docket d tr) = [] ∧ ∀ o ∈ x.outcome, o = .dismissed) := by
  have hI := ((tracked_of_run h₀ h).inLine d x hx).staged
  refine ⟨hI.status, hI.outcome, hI.evidence, hI.decided, fun hseq he => ?_⟩
  have hvotes := voteless h₀ h hseq he
  refine ⟨hvotes, fun o ho => ?_⟩
  rw [hI.outcome] at ho
  exact rulings_voteless (by rwa [List.nil_append]) o (List.mem_of_getLast? ho)

end

/-! ## Slashing -/

/-- What an address loses over a dispute. -/
def charged (bps : ℕ) (tr : List (State × (Env × Op))) (s : State) (a : Address) (d : ℕ) : ℕ :=
  match s.inst .dispute d with
  | some x =>
    if x.defendant = a then x.stakeAmount * bps / 10000 * (rulings [] (docket d tr)).count .plaintiffWins else 0
  | none => 0

/-- What a finalization of a dispute takes from an address. -/
def loss (bps : ℕ) (s : State) (a : Address) (d : ℕ) : ℕ :=
  match s.inst .dispute d with
  | some x =>
    if verdict x.votesFor x.votesAgainst = .plaintiffWins ∧ x.defendant = a then x.stakeAmount * bps / 10000 else 0
  | none => 0

section
variable {period d bps : ℕ} {s₀ s s' : State} {c : Env × Op} {tr : List (State × (Env × Op))}
  {config : DisputeConfig} {a : Address} {x : Dispute}

theorem charged_some (hx : s.inst .dispute d = some x) : charged bps tr s a d =
    if x.defendant = a then x.stakeAmount * bps / 10000 * (rulings [] (docket d tr)).count .plaintiffWins
    else 0 := by
  rw [charged, hx]

theorem charged_none (hx : s.inst .dispute d = none) : charged bps tr s a d = 0 := by
  rw [charged, hx]

/-- A step without a verdict leaves what is lost. -/
theorem charged_eq {y : Dispute} (hx : s.inst .dispute d = some x) (hy : s'.inst .dispute d = some y)
    (hparty : y.defendant = x.defendant) (hstake : y.stakeAmount = x.stakeAmount) (hc : c.2.Concerns d)
    (hstage : c.2.stage ≠ some .decided) : charged bps (tr ++ [(s, c)]) s' a d = charged bps tr s a d := by
  rw [charged_some hx, charged_some hy, docket_concat_of hc, rulings_concat, if_neg hstage, List.append_nil,
    hparty, hstake]

/-- **What a step takes for a dispute.** -/
theorem charged_step (h : Tracked period tr s) (hs : Steps exec s c s') (d : ℕ) :
    charged bps (tr ++ [(s, c)]) s' a d =
      charged bps tr s a d + if c.2 = .finalizeDispute d then loss bps s a d else 0 := by
  cases touches hs d with
  | same hx _ hc =>
    have hnot : c.2 ≠ .finalizeDispute d := by
      intro he
      rw [he] at hc
      exact hc rfl
    rw [if_neg hnot, charged, charged, hx, docket_concat_not hc, add_zero]
  | file he hx _ _ =>
    have hnone := h.unused d he.ge
    rw [charged_none hnone, charged_some hx, docket_concat_not id, (h.unknown d hnone).1]
    simp [rulings]
  | evidence hx _ _ hx' | assign hx hx' =>
    rw [charged_eq hx hx' rfl rfl]
    · simp
    · rfl
    · simp [Op.stage]
  | @vote env b o x hx _ _ _ hx' =>
    rw [charged_eq hx hx']
    · simp
    · cases o <;> rfl
    · cases o <;> rfl
    · rfl
    · simp [Op.stage]
  | @decide env x hx _ _ hx' =>
    have hI := (h.inLine d x hx).tallied
    have hdocket : docket d (tr ++ [(s, (env, .finalizeDispute d))]) =
        docket d tr ++ [(env, .finalizeDispute d)] := docket_concat_of rfl
    have hcount : (rulings [] (docket d tr ++ [(env, .finalizeDispute d)])).count .plaintiffWins =
        (rulings [] (docket d tr)).count .plaintiffWins +
          if verdict x.votesFor x.votesAgainst = .plaintiffWins then 1 else 0 := by
      rw [rulings_concat, if_pos (by simp [Op.stage]), List.nil_append, verdictOn, ← hI.1, ← hI.2.1,
        List.count_append, List.count_singleton]
      simp only [beq_iff_eq]
    rw [charged_some hx', charged_some hx, if_pos rfl, loss, hx, hdocket, hcount]
    by_cases ha : x.defendant = a
    · by_cases hwins : verdict x.votesFor x.votesAgainst = .plaintiffWins
      · simp [ha, hwins, Nat.mul_succ]
      · simp [ha, hwins]
    · simp [ha]

/-- What a step adds to the slashed total. -/
theorem slashed_step (hconfig : s.inst .config () = some config) (hs : Steps exec s c s') :
    slashedOf s' a = slashedOf s a +
      match c.2 with
      | .finalizeDispute d => loss config.slashingBps s a d
      | _ => 0 := by
  obtain ⟨env, op⟩ := c
  obtain ⟨_, hs⟩ := hs
  have hframe := (exec_writes op).of_run hs
  cases op with
  | finalizeDispute d =>
    obtain ⟨_, hr, -⟩ := of_run_map _ _ hs
    obtain ⟨x, c, hx, hc, -, -, -, hslashed⟩ := finalized hr
    obtain rfl := Option.some.inj (hconfig.symm.trans hc)
    rw [hslashed]
    show _ = _ + loss _ _ _ _
    rw [loss, hx]
  | _ => rw [slashedOf, slashedOf, hframe.inst (notMem_of_eval rfl)]; rfl

/-- **What an address has lost** is, over the disputes filed against it, its share of the stake for each
    verdict for the plaintiff. -/
theorem history_slashed (h₀ : Deployed config s₀) (h : Run (Steps exec) s₀ tr s) (a : Address) :
    slashedOf s a = ∑ d ∈ Finset.range (nextId s), charged config.slashingBps tr s a d := by
  induction h with
  | init =>
    obtain ⟨owner, rfl⟩ := h₀.eq
    rfl
  | @snoc tr s s' c hr hs ih =>
    have hI := tracked_of_run h₀ hr
    have hconfig : s.inst .config () = some config := by rw [config_of_run hr, h₀.get_config]
    rw [slashed_step hconfig hs, ih, nextId_step hs]
    simp only [charged_step hI hs]
    obtain ⟨env, op⟩ := c
    cases op with
    | fileDispute =>
      rw [Finset.sum_range_succ, charged_none (hI.unused _ le_rfl)]
      simp
    | finalizeDispute d =>
      simp only [Op.finalizeDispute.injEq]
      rw [add_zero, Finset.sum_add_distrib, Finset.sum_ite_eq]
      rcases Nat.lt_or_ge d (nextId s) with hlt | hge
      · rw [if_pos (Finset.mem_range.2 hlt)]
      · rw [if_neg (by simpa using hge), loss, hI.unused d hge]
    | _ => simp

end

/-! ## Scripts -/

/-- A court with one juror for each dispute, who has ten ledgers to vote; half of the stake is lost. -/
def court : DisputeConfig := ⟨1, 100, 10, 0, 5000, 0⟩

def opened : State :=
  ((((Ledger.empty : State).put .owner () (account 70)).put .config () court).put .disputeCounter () 0).put
    .appealCounter () 0

theorem deployed_opened : Deployed court opened := ⟨openEnv 0, account 70, rfl⟩

/-- A call in which every address authorises, at a ledger. -/
def atLedger (n : ℕ) : Env := { openEnv 0 with sequence := n }

/-- A juror is assigned again after voting. -/
def reassignedScript : List (Env × Op) :=
  [(atLedger 1, .fileDispute (account 65) (account 66) "t" "u" 1000),
    (atLedger 2, .submitEvidence (account 66) 0 "v" false),
    (atLedger 3, .assignJurors 0 [account 67]), (atLedger 4, .castJurorVote (account 67) 0 .plaintiffWins),
    (atLedger 5, .assignJurors 0 [account 67])]

/-- The juror votes again, and the verdict is given twice. -/
def retriedScript : List (Env × Op) :=
  reassignedScript ++ [(atLedger 6, .castJurorVote (account 67) 0 .plaintiffWins),
    (atLedger 13, .finalizeDispute 0), (atLedger 14, .assignJurors 0 [account 68]),
    (atLedger 15, .finalizeDispute 0)]

theorem history_vote_iff_reassignedScript :
    ∃ tr s, Run (Steps exec) opened tr s ∧ tr.map Prod.snd = reassignedScript ∧
      (∃ r s', (castJurorVote (account 67) 0 .plaintiffWins).run (atLedger 6) s = .ok (r, s')) ∧
      ¬∃ r s', (castJurorVote (account 68) 0 .plaintiffWins).run (atLedger 6) s = .ok (r, s') := by
  obtain ⟨s, hs⟩ : ∃ s, play exec opened reassignedScript = some s :=
    Option.isSome_iff_exists.1 (by decide +kernel)
  refine ⟨_, s, run_of_play hs, map_snd_traceOf hs, ?_, ?_⟩
  · rw [history_vote_iff deployed_opened (run_of_play hs), docket, map_snd_traceOf hs]
    decide
  · rw [history_vote_iff deployed_opened (run_of_play hs), docket, map_snd_traceOf hs]
    decide

/-- A juror has voted twice on a dispute. -/
theorem history_tallies_retriedScript :
    ∃ tr s x, Run (Steps exec) opened tr s ∧ tr.map Prod.snd = retriedScript ∧
      s.inst .dispute 0 = some x ∧ x.votesFor = 2 ∧
      turns (account 67) (docket 0 tr) = [false, true, false, true] := by
  obtain ⟨x, hplay⟩ : ∃ x, (play exec opened retriedScript).bind (·.inst .dispute 0) = some x :=
    Option.isSome_iff_exists.1 (by decide +kernel)
  obtain ⟨s, hs, hx⟩ := Option.bind_eq_some_iff.1 hplay
  have htallies := (history_tallies deployed_opened (run_of_play hs) hx).1
  refine ⟨_, s, x, run_of_play hs, map_snd_traceOf hs, hx, ?_, ?_⟩
  · rw [htallies.1, docket, map_snd_traceOf hs]
    decide
  · rw [docket, map_snd_traceOf hs]
    decide

/-- A dispute has two verdicts. -/
theorem history_verdicts_retriedScript :
    ∃ tr s x, Run (Steps exec) opened tr s ∧ tr.map Prod.snd = retriedScript ∧
      s.inst .dispute 0 = some x ∧ x.status = .decided ∧ x.outcome = some .plaintiffWins := by
  obtain ⟨x, hplay⟩ : ∃ x, (play exec opened retriedScript).bind (·.inst .dispute 0) = some x :=
    Option.isSome_iff_exists.1 (by decide +kernel)
  obtain ⟨s, hs, hx⟩ := Option.bind_eq_some_iff.1 hplay
  obtain ⟨hstatus, houtcome, -⟩ := history_verdicts deployed_opened (run_of_play hs) hx
  refine ⟨_, s, x, run_of_play hs, map_snd_traceOf hs, hx, ?_, ?_⟩
  · rw [hstatus, docket, map_snd_traceOf hs]
    decide
  · rw [houtcome, docket, map_snd_traceOf hs]
    decide

/-- Its defendant has lost half of the stake twice. -/
theorem history_slashed_retriedScript :
    ∃ tr s, Run (Steps exec) opened tr s ∧ tr.map Prod.snd = retriedScript ∧
      slashedOf s (account 66) = ∑ d ∈ Finset.range (nextId s), charged 5000 tr s (account 66) d ∧
      slashedOf s (account 66) = 1000 := by
  obtain ⟨s, hs⟩ : ∃ s, play exec opened retriedScript = some s := Option.isSome_iff_exists.1 (by decide +kernel)
  refine ⟨_, s, run_of_play hs, map_snd_traceOf hs,
    history_slashed deployed_opened (run_of_play hs) (account 66), ?_⟩
  have hlost : (play exec opened retriedScript).map (slashedOf · (account 66)) = some 1000 := by decide +kernel
  rw [hs] at hlost
  exact Option.some.inj hlost

end DAODisputeResolution
