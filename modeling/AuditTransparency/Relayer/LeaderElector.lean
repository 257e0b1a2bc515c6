/-
  LeaderElector — relayers that elect a leader (`bridge/relayer/ha.ts`).

  The nodes share a lease in a store, and a clock.  A node that stands by reads the lease and
  writes its own where there is none or it has expired; a leader writes its own again.  Reading
  and writing are awaited: between the call, its effect on the store and its return, other nodes
  and the clock may move.

  `Action` is what can happen next; an action that is not possible has no result.
-/
import AuditTransparency.Soroban.Run
import Mathlib.Logic.Function.Basic

namespace LeaderElector

/-! ## Data -/

inductive RelayerRole where
  | leader
  | standby
  deriving DecidableEq

/-- A lease; nodes are named by `ι`. -/
structure LeaseLock (ι : Type) where
  leaderId : ι
  term : ℕ
  acquiredAt : ℕ
  expiresAt : ℕ
  deriving DecidableEq

/-- Where the election loop of a node stands. -/
inductive Phase (ι : Type) where
  /-- until the timer -/
  | idle
  /-- `getLease` was called -/
  | reading (now : ℕ)
  /-- `getLease` has returned -/
  | deciding (now : ℕ) (existingLease : Option (LeaseLock ι))
  /-- `setLease` was called to acquire leadership -/
  | acquiring (existingLease : Option (LeaseLock ι)) (newLease : LeaseLock ι)
  /-- and has returned -/
  | acquired (newLease : LeaseLock ι) (success : Bool)
  /-- `setLease` was called to renew leadership -/
  | renewing (newLease : LeaseLock ι)
  /-- and has returned -/
  | renewed (success : Bool)
  deriving DecidableEq

structure Node (ι : Type) where
  currentRole : RelayerRole := .standby
  currentTerm : ℕ := 0
  isRunning : Bool := false
  phase : Phase ι := .idle
  deriving DecidableEq

/-- `isLeader` -/
def Node.isLeader {ι : Type} (n : Node ι) : Bool := n.currentRole = .leader

structure World (ι : Type) where
  clock : ℕ
  store : Option (LeaseLock ι)
  nodes : ι → Node ι

variable {ι : Type} [DecidableEq ι]

/-- The clock, or a node. -/
inductive Action (ι : Type) where
  | tick (elapsed : ℕ)
  | start (i : ι)
  | stop (i : ι)
  | stepDown (i : ι)
  /-- the timer of the election loop -/
  | loop (i : ι)
  /-- the store answers `getLease` -/
  | read (i : ι)
  /-- `getLease` returns -/
  | decide (i : ι)
  /-- the store answers `setLease` -/
  | write (i : ι)
  /-- `setLease` returns -/
  | resume (i : ι)
  /-- a call of the store fails on the way there or back -/
  | fail (i : ι)
  deriving DecidableEq

/-! ## Steps -/

def World.setNode (w : World ι) (i : ι) (n : Node ι) : World ι :=
  { w with nodes := Function.update w.nodes i n }

/-- The store accepts a lease from a node if it holds none, an expired one, or one of that node. -/
def World.accepts (w : World ι) (i : ι) : Bool :=
  match w.store with
  | none => true
  | some l => l.expiresAt < w.clock || l.leaderId = i

/-- `setLease`: the store, and whether it has accepted. -/
def World.setLease (w : World ι) (i : ι) (newLease : LeaseLock ι) : World ι × Bool :=
  if w.accepts i then ({ w with store := some newLease }, true) else (w, false)

/-- `runElectionLoop`, up to the first call of the store; leases last for `leaseDurationMs`. -/
def runElectionLoop (leaseDurationMs : ι → ℕ) (w : World ι) (i : ι) : Phase ι :=
  let n := w.nodes i
  if n.isLeader then .renewing ⟨i, n.currentTerm, w.clock, w.clock + leaseDurationMs i⟩
  else .reading w.clock

/-- `tryAcquireLeadership`, once it knows the lease. -/
def tryAcquire (leaseDurationMs : ι → ℕ) (i : ι) (now : ℕ) (existingLease : Option (LeaseLock ι)) : Phase ι :=
  let newLease (nextTerm : ℕ) : LeaseLock ι := ⟨i, nextTerm, now, now + leaseDurationMs i⟩
  match existingLease with
  | none => .acquiring none (newLease 1)
  | some l => if l.expiresAt < now then .acquiring (some l) (newLease (l.term + 1)) else .idle

/-- `stepDown` -/
def Node.stepDown (n : Node ι) : Node ι := { n with currentRole := .standby }

/-- What an action does; `none` when it is not possible. -/
def exec (leaseDurationMs : ι → ℕ) (w : World ι) : Action ι → Option (World ι)
  | .tick d => some { w with clock := w.clock + d }
  | .start i => some (w.setNode i { w.nodes i with isRunning := true })
  | .stop i => some (w.setNode i { (w.nodes i).stepDown with isRunning := false })
  | .stepDown i => some (w.setNode i (w.nodes i).stepDown)
  | .loop i =>
    if (w.nodes i).phase = .idle ∧ (w.nodes i).isRunning = true then
      some (w.setNode i { w.nodes i with phase := runElectionLoop leaseDurationMs w i })
    else none
  | .read i =>
    match (w.nodes i).phase with
    | .reading now => some (w.setNode i { w.nodes i with phase := .deciding now w.store })
    | _ => none
  | .decide i =>
    match (w.nodes i).phase with
    | .deciding now existing =>
      some (w.setNode i { w.nodes i with phase := tryAcquire leaseDurationMs i now existing })
    | _ => none
  | .write i =>
    match (w.nodes i).phase with
    | .acquiring _ newLease =>
      let (w', success) := w.setLease i newLease
      some (w'.setNode i { w.nodes i with phase := .acquired newLease success })
    | .renewing newLease =>
      let (w', success) := w.setLease i newLease
      some (w'.setNode i { w.nodes i with phase := .renewed success })
    | _ => none
  | .resume i =>
    match (w.nodes i).phase with
    | .acquired newLease true => some (w.setNode i
        { w.nodes i with currentRole := .leader, currentTerm := newLease.term, phase := .idle })
    | .acquired _ false => some (w.setNode i { w.nodes i with phase := .idle })
    | .renewed true => some (w.setNode i { w.nodes i with phase := .idle })
    | .renewed false => some (w.setNode i { (w.nodes i).stepDown with phase := .idle })
    | _ => none
  | .fail i =>
    if (w.nodes i).phase = .idle then none else some (w.setNode i { w.nodes i with phase := .idle })

/-- One step. -/
def Steps (leaseDurationMs : ι → ℕ) (w : World ι) (a : Action ι) (w' : World ι) : Prop :=
  exec leaseDurationMs w a = some w'

/-- The nodes before they are started. -/
def World.new (clock : ℕ) (store : Option (LeaseLock ι)) : World ι := ⟨clock, store, fun _ => {}⟩

end LeaderElector
