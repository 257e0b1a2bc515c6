/-
  ReplayQueue — failed submissions, tried again with backoff (`bridge/relayer/replay.ts`).

  A pass takes a snapshot of the items that are due and submits them one after the other; it is
  suspended while a submission is awaited, and the timer starts the next pass without waiting for it.
  The items are objects, shared by the queue and by the snapshots of the passes: here they are named by
  the order in which they were made.

  `Action` is what can happen next; an action that is not possible has no result.
-/
import AuditTransparency.Soroban.Run
import Mathlib.Data.List.Perm.Basic

namespace ReplayQueue

/-! ## Data -/

structure ReplayQueueItem where
  eventHash : String
  eventIndex : ℕ
  payload : String
  firstFailedAt : ℕ
  lastAttemptAt : ℕ
  attempts : ℕ
  nextRetryAfter : ℕ
  lastError : String
  deriving DecidableEq

structure ReplayStats where
  totalEnqueued : ℕ := 0
  queueDepth : ℕ := 0
  totalSucceeded : ℕ := 0
  totalFailed : ℕ := 0
  totalAttempts : ℕ := 0
  lastSuccessAt : Option ℕ := none
  lastFailureAt : Option ℕ := none
  deriving DecidableEq

structure ReplayConfig where
  maxRetries : ℕ := 5
  baseDelayMs : ℕ := 1000
  maxDelayMs : ℕ := 60000
  maxQueueSize : ℕ := 5000

/-- What a call reads from its host: `Date.now()`, and `Math.random()` as a fraction of `2 ^ 53`. -/
structure Host where
  now : ℕ
  random : ℕ

/-- `calcBackoffDelay` -/
def calcBackoffDelay (random attempt baseDelayMs maxDelayMs : ℕ) : ℕ :=
  let cap := min maxDelayMs (baseDelayMs * 2 ^ attempt)
  random * cap / 2 ^ 53

/-- How a submission ends. -/
inductive Outcome where
  | resolved
  | rejected (message : String)

structure Event where
  eventIndex : ℕ
  eventHash : String
  payload : String

/-- `items` are all that were made; the queue maps hashes to items, in the order of insertion.  A pass is
    what is left of its snapshot: its first item is being submitted. -/
structure World where
  items : List ReplayQueueItem := []
  queue : List (String × ℕ) := []
  stats : ReplayStats := {}
  passes : List (List ℕ) := []
  deriving DecidableEq

inductive Action where
  | enqueue (eventHash : String) (eventIndex : ℕ) (payload error : String) (h : Host)
  | remove (eventHash : String)
  /-- `fetchFn` has returned -/
  | replayFromIndex (events : List (Event × Host))
  | processOnce (now : ℕ)
  /-- the submission that the pass `p` awaits has ended -/
  | settle (p : ℕ) (outcome : Outcome) (h : Host)

namespace World

/-- The items in the queue. -/
def queued (w : World) : List ℕ := w.queue.map Prod.snd

/-- `queue.has` -/
def has (w : World) (eventHash : String) : Bool := w.queue.any fun e => e.1 = eventHash

/-- The items that are being submitted. -/
def inFlight (w : World) : List ℕ := w.passes.filterMap List.head?

/-! ## Steps -/

/-- `queue.delete`, and the depth. -/
def delete (w : World) (eventHash : String) : World :=
  let queue := w.queue.eraseP fun e => e.1 = eventHash
  { w with queue, stats := { w.stats with queueDepth := queue.length } }

variable (c : ReplayConfig)

/-- `enqueue` -/
def enqueue (w : World) (eventHash : String) (eventIndex : ℕ) (payload error : String) (h : Host) : World :=
  if w.has eventHash then w
  else
    -- the oldest item is dropped at capacity
    let kept := if c.maxQueueSize ≤ w.queue.length then w.queue.tail else w.queue
    let item : ReplayQueueItem :=
      { eventHash, eventIndex, payload, firstFailedAt := h.now, lastAttemptAt := h.now, attempts := 1,
        nextRetryAfter := h.now + calcBackoffDelay h.random 1 c.baseDelayMs c.maxDelayMs, lastError := error }
    let queue := kept ++ [(eventHash, w.items.length)]
    { w with
      items := w.items ++ [item], queue
      stats := { w.stats with totalEnqueued := w.stats.totalEnqueued + 1, queueDepth := queue.length } }

/-- `remove`, and whether there was an item. -/
def remove (w : World) (eventHash : String) : World × Bool := (w.delete eventHash, w.has eventHash)

/-- `replayFromIndex`, once it has its events, and how many it has enqueued. -/
def replayFromIndex (w : World) : List (Event × Host) → World × ℕ
  | [] => (w, 0)
  | (event, h) :: events =>
    if w.has event.eventHash then w.replayFromIndex events
    else
      let w := w.enqueue c event.eventHash event.eventIndex event.payload "manual replay" h
      let (w, enqueued) := w.replayFromIndex events
      (w, enqueued + 1)

/-- The snapshot of a pass. -/
def due (w : World) (now : ℕ) : List ℕ :=
  w.queued.filter fun r => ∃ item ∈ w.items[r]?, item.nextRetryAfter ≤ now

/-- The pass `p` goes on: nothing of it is in flight. -/
def wake (w : World) (p : ℕ) : World := { w with passes := w.passes.set p [] }

/-- The loop of the pass `p`, up to its next submission. -/
def resume (w : World) (p : ℕ) (pass : List ℕ) (now : ℕ) : World :=
  match pass with
  | [] => w
  | r :: rest =>
    { w with
      passes := w.passes.set p (r :: rest)
      items := w.items.modify r fun item => { item with lastAttemptAt := now }
      stats := { w.stats with totalAttempts := w.stats.totalAttempts + 1 } }

/-- `processOnce`, up to its first submission. -/
def processOnce (w : World) (now : ℕ) : World :=
  ({ w with passes := w.passes ++ [[]] } : World).resume w.passes.length (w.due now) now

/-- What a pass does when the submission of its item has succeeded. -/
def succeed (w : World) (item : ReplayQueueItem) (h : Host) : World :=
  let w := w.delete item.eventHash
  { w with stats := { w.stats with
      totalSucceeded := w.stats.totalSucceeded + 1, lastSuccessAt := some h.now } }

/-- And when it has failed. -/
def fail (w : World) (r : ℕ) (item : ReplayQueueItem) (message : String) (h : Host) : World :=
  let item := { item with lastError := message, attempts := item.attempts + 1 }
  if c.maxRetries < item.attempts then
    -- give up
    let w := w.delete item.eventHash
    { w with
      items := w.items.set r item
      stats := { w.stats with totalFailed := w.stats.totalFailed + 1, lastFailureAt := some h.now } }
  else
    let delay := calcBackoffDelay h.random item.attempts c.baseDelayMs c.maxDelayMs
    { w with items := w.items.set r { item with nextRetryAfter := h.now + delay } }

def answer (w : World) (r : ℕ) (item : ReplayQueueItem) (outcome : Outcome) (h : Host) : World :=
  match outcome with
  | .resolved => w.succeed item h
  | .rejected message => w.fail c r item message h

/-- What an action does; `none` when it is not possible. -/
def exec (w : World) : Action → Option World
  | .enqueue eventHash eventIndex payload error h => some (w.enqueue c eventHash eventIndex payload error h)
  | .remove eventHash => some (w.remove eventHash).1
  | .replayFromIndex events => some (w.replayFromIndex c events).1
  | .processOnce now => some (w.processOnce now)
  | .settle p outcome h =>
    match w.passes[p]? with
    | some (r :: rest) =>
      (w.items[r]?).map fun item => ((w.wake p).answer c r item outcome h).resume p rest h.now
    | _ => none

end World

/-- One step. -/
def Steps (c : ReplayConfig) (w : World) (a : Action) (w' : World) : Prop := w.exec c a = some w'

/-! ## The books -/

/-- What has happened in a run: the items removed and dropped, the submissions started and those that
    succeeded. -/
structure Book where
  removed : ℕ := 0
  dropped : ℕ := 0
  started : List ℕ := []
  succeeded : List ℕ := []
  deriving DecidableEq

namespace World
variable (c : ReplayConfig)

/-- How many items `enqueue` drops. -/
def drops (w : World) (eventHash : String) : ℕ :=
  if w.has eventHash then 0 else if c.maxQueueSize ≤ w.queue.length then w.queue.length -
    w.queue.tail.length else 0

def replayDrops (w : World) : List (Event × Host) → ℕ
  | [] => 0
  | (event, h) :: events =>
    w.drops c event.eventHash +
      (w.enqueue c event.eventHash event.eventIndex event.payload "manual replay" h).replayDrops events

/-- How many items an action drops at capacity. -/
def dropped (w : World) : Action → ℕ
  | .enqueue eventHash .. => w.drops c eventHash
  | .replayFromIndex events => w.replayDrops c events
  | _ => 0

/-- How many items an action removes. -/
def removed (w : World) : Action → ℕ
  | .remove eventHash => if w.has eventHash then 1 else 0
  | _ => 0

/-- The item whose submission an action starts. -/
def started (w : World) : Action → Option ℕ
  | .processOnce now => (w.due now).head?
  | .settle p _ _ => (w.passes[p]?).bind fun pass => pass.tail.head?
  | _ => none

/-- The item whose submission has succeeded. -/
def succeeded (w : World) : Action → Option ℕ
  | .settle p .resolved _ => (w.passes[p]?).bind List.head?
  | _ => none

end World

/-- The books after one more action. -/
def Book.add (b : Book) (c : ReplayConfig) (w : World) (a : Action) : Book where
  removed := b.removed + w.removed a
  dropped := b.dropped + w.dropped c a
  started := b.started ++ (w.started a).toList
  succeeded := b.succeeded ++ (w.succeeded a).toList

def bookOf (c : ReplayConfig) (tr : List (World × Action)) : Book :=
  tr.foldl (fun b p => b.add c p.1 p.2) {}

end ReplayQueue
