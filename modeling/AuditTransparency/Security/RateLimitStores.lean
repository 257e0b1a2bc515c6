/-
  The stores of the rate limiter (`packages/security/src/ratelimit/stores`): in memory, in Redis, and in
  Consul.  Each implements the token bucket and the sliding window for itself.

  Numbers are rational, and the intervals that they are divided by are not zero.  The keys under which Redis
  and Consul keep their values are made of a prefix, the key of the limit and, for windows in Redis, the index
  of the window; they differ when one of these does.
-/
import AuditTransparency.Concurrency.CheckAndSet
import Mathlib.Data.Rat.Floor

namespace RateLimit

open CheckAndSet

/-! ## Calls -/

/-- The arguments of `consumeTokenBucket`. -/
structure Consume where
  key : String
  cost : ℚ
  capacity : ℚ
  refillTokens : ℚ
  refillIntervalMs : ℚ
  now : ℚ
  interval_ne : refillIntervalMs ≠ 0

/-- The arguments of `slidingWindowHit`. -/
structure Hit where
  key : String
  windowMs : ℚ
  now : ℚ
  window_ne : windowMs ≠ 0

/-- What `consumeTokenBucket` returns. -/
structure Consumed where
  allowed : Bool
  tokens : ℚ
  lastRefill : ℚ
  deriving DecidableEq

/-! ## `MemoryRateLimitStore` -/

structure Bucket where
  tokens : ℚ
  lastRefill : ℚ
  deriving DecidableEq

structure Window where
  currentCount : ℕ
  currentStart : ℚ
  previousCount : ℕ
  deriving DecidableEq

structure Memory where
  buckets : String → Option Bucket := fun _ => none
  windows : String → Option Window := fun _ => none

namespace Memory

/-- The bucket of a key, refilled. -/
def refilled (m : Memory) (c : Consume) : Bucket :=
  let bucket := (m.buckets c.key).getD ⟨c.capacity, c.now⟩
  let elapsed := c.now - bucket.lastRefill
  let refillCount := ⌊elapsed / c.refillIntervalMs⌋ * c.refillTokens
  if 0 < refillCount then ⟨min c.capacity (bucket.tokens + refillCount), c.now⟩ else bucket

/-- `consumeTokenBucket` -/
def consumeTokenBucket (m : Memory) (c : Consume) : Memory × Consumed :=
  let bucket := m.refilled c
  let allowed := decide (c.cost ≤ bucket.tokens)
  let bucket := if allowed then { bucket with tokens := bucket.tokens - c.cost } else bucket
  ({ m with buckets := Function.update m.buckets c.key (some bucket) },
    ⟨allowed, bucket.tokens, bucket.lastRefill⟩)

/-- The window of a key, at the time of a hit. -/
def rolled (m : Memory) (h : Hit) : Window :=
  let windowStart := ⌊h.now / h.windowMs⌋ * h.windowMs
  match m.windows h.key with
  | none => ⟨0, windowStart, 0⟩
  | some w =>
    if w.currentStart ≠ windowStart then
      ⟨0, windowStart, if windowStart - w.currentStart = h.windowMs then w.currentCount else 0⟩
    else w

/-- `slidingWindowHit` -/
def slidingWindowHit (m : Memory) (h : Hit) : Memory × ℚ :=
  let w := m.rolled h
  let w := { w with currentCount := w.currentCount + 1 }
  let elapsedInWindow := h.now - w.currentStart
  let overlapWeight := max 0 ((h.windowMs - elapsedInWindow) / h.windowMs)
  ({ m with windows := Function.update m.windows h.key (some w) },
    w.currentCount + w.previousCount * overlapWeight)

end Memory

/-! ## `RedisClusterRateLimitStore` -/

inductive RedisKey where
  | tokens (key : String)
  | refill (key : String)
  | window (key : String) (index : ℤ)
  deriving DecidableEq

/-- A value, and the time after which it is gone. -/
structure RedisEntry where
  value : ℚ
  expireAt : Option ℚ
  deriving DecidableEq

/-- The clock of the server shows the time of the call. -/
structure Redis where
  entries : RedisKey → Option RedisEntry := fun _ => none

/-- A Lua number as an integer reply: the fraction is dropped. -/
def truncate (q : ℚ) : ℤ := q.num.tdiv q.den

namespace Redis

/-- The entry of a key that has not expired. -/
def live (r : Redis) (key : RedisKey) (now : ℚ) : Option RedisEntry :=
  (r.entries key).filter fun e => ∀ t ∈ e.expireAt, now ≤ t

/-- `GET` -/
def get (r : Redis) (key : RedisKey) (now : ℚ) : Option ℚ := (r.live key now).map RedisEntry.value

/-- `SET … EX` -/
def set (r : Redis) (key : RedisKey) (value : ℚ) (ttlSec : ℤ) (now : ℚ) : Redis :=
  { r with entries := Function.update r.entries key (some ⟨value, some (now + ttlSec * 1000)⟩) }

/-- `INCR`, and the new value. -/
def incr (r : Redis) (key : RedisKey) (now : ℚ) : Redis × ℚ :=
  let e := (r.live key now).getD ⟨0, none⟩
  ({ r with entries := Function.update r.entries key (some ⟨e.value + 1, e.expireAt⟩) }, e.value + 1)

/-- `EXPIRE` -/
def expire (r : Redis) (key : RedisKey) (ttlSec : ℤ) (now : ℚ) : Redis :=
  match r.live key now with
  | none => r
  | some e =>
    { r with entries := Function.update r.entries key (some { e with expireAt := some (now + ttlSec * 1000) }) }

/-- `TOKEN_BUCKET_SCRIPT`, before its reply is converted. -/
def tokenBucketScript (r : Redis) (c : Consume) (ttlSec : ℤ) : Redis × Consumed :=
  let stored := r.get (.tokens c.key) c.now
  let tokens := stored.getD c.capacity
  let lastRefill := if stored = none then c.now else (r.get (.refill c.key) c.now).getD 0
  let elapsed := c.now - lastRefill
  let refillCount := ⌊elapsed / c.refillIntervalMs⌋ * c.refillTokens
  let (tokens, lastRefill) :=
    if 0 < refillCount then (min c.capacity (tokens + refillCount), c.now) else (tokens, lastRefill)
  let allowed := decide (c.cost ≤ tokens)
  let tokens := if allowed then tokens - c.cost else tokens
  ((r.set (.tokens c.key) tokens ttlSec c.now).set (.refill c.key) lastRefill ttlSec c.now,
    ⟨allowed, tokens, lastRefill⟩)

/-- `consumeTokenBucket` -/
def consumeTokenBucket (r : Redis) (c : Consume) : Redis × Consumed :=
  let ttlSec := max 60 ⌈c.refillIntervalMs * 2 / 1000⌉
  let (r, reply) := r.tokenBucketScript c ttlSec
  (r, ⟨reply.allowed, truncate reply.tokens, truncate reply.lastRefill⟩)

/-- `SLIDING_WINDOW_SCRIPT`, before its reply is converted. -/
def slidingWindowScript (r : Redis) (curKey prevKey : RedisKey) (windowMs : ℚ) (ttlSec : ℤ)
    (elapsedInWindow now : ℚ) :
    Redis × ℚ :=
  let (r, cur) := r.incr curKey now
  let r := if cur = 1 then r.expire curKey ttlSec now else r
  let prev := (r.get prevKey now).getD 0
  let overlapWeight := max 0 ((windowMs - elapsedInWindow) / windowMs)
  (r, cur + prev * overlapWeight)

/-- `slidingWindowHit` -/
def slidingWindowHit (r : Redis) (h : Hit) : Redis × ℚ :=
  let windowIndex := ⌊h.now / h.windowMs⌋
  let elapsedInWindow := h.now - windowIndex * h.windowMs
  let ttlSec := max 1 ⌈h.windowMs * 2 / 1000⌉
  let (r, result) := r.slidingWindowScript (.window h.key windowIndex)
    (.window h.key (windowIndex - 1)) h.windowMs
    ttlSec elapsedInWindow h.now
  (r, truncate result)

end Redis

/-! ## `ConsulRateLimitStore` -/

inductive ConsulKey where
  | tb (key : String)
  | sw (key : String)
  | ctr (key : String)
  deriving DecidableEq

structure StoredState where
  v : ℚ
  t : ℚ
  p : Option ℚ := none
  deriving DecidableEq

/-- What the calls return. -/
inductive Reply where
  | consumed (r : Consumed)
  | weighted (count : ℚ)
  | counted (value : ℚ)
  deriving DecidableEq

def MAX_CAS_RETRIES : ℕ := 5

namespace Consul

/-- `consumeTokenBucket`; the variable of the call is `allowedFlag`. -/
def consumeTokenBucket (c : Consume) : Op ConsulKey StoredState Bool Reply where
  key := .tb c.key
  initial := false
  mutate existing :=
    let tokens := (existing.map StoredState.v).getD c.capacity
    let lastRefill := (existing.map StoredState.t).getD c.now
    let elapsed := c.now - lastRefill
    let refillCount := ⌊elapsed / c.refillIntervalMs⌋ * c.refillTokens
    let (tokens, lastRefill) :=
      if 0 < refillCount then (min c.capacity (tokens + refillCount), c.now) else (tokens, lastRefill)
    let allowedFlag := decide (c.cost ≤ tokens)
    let tokens := if allowedFlag then tokens - c.cost else tokens
    ({ v := tokens, t := lastRefill }, allowedFlag)
  extract s allowedFlag := .consumed ⟨allowedFlag, s.v, s.t⟩

/-- `slidingWindowHit` -/
def slidingWindowHit (h : Hit) : Op ConsulKey StoredState Bool Reply where
  key := .sw h.key
  initial := false
  mutate existing :=
    let windowStart := ⌊h.now / h.windowMs⌋ * h.windowMs
    match existing with
    | none => ({ v := 1, t := windowStart, p := some 0 }, false)
    | some s =>
      if s.t ≠ windowStart then
        ({ v := 1, t := windowStart, p := some (if windowStart - s.t = h.windowMs then s.v else 0) }, false)
      else ({ v := s.v + 1, t := s.t, p := some (s.p.getD 0) }, false)
  extract s _ :=
    let elapsedInWindow := h.now - s.t
    let overlapWeight := max 0 ((h.windowMs - elapsedInWindow) / h.windowMs)
    .weighted (s.v + s.p.getD 0 * overlapWeight)

/-- `incrementAndGet`; `now` is what the client reads from its clock. -/
def incrementAndGet (key : String) (ttlMs now : ℚ) : Op ConsulKey StoredState Bool Reply where
  key := .ctr key
  initial := false
  mutate existing :=
    match existing with
    | none => ({ v := 1, t := now + ttlMs }, false)
    | some s => if s.t < now then ({ v := 1, t := now + ttlMs }, false)
        else ({ v := s.v + 1, t := s.t }, false)
  extract s _ := .counted s.v

/-- `casLoop`, when no other client interferes. -/
def casLoop (kv : Kv ConsulKey StoredState) (op : Op ConsulKey StoredState Bool Reply) :
    Kv ConsulKey StoredState × Option Reply :=
  loop kv op MAX_CAS_RETRIES

end Consul

end RateLimit
