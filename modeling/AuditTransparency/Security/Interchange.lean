/-
  The three stores of the rate limiter side by side: which sequences of calls they answer alike.

  `Bucket.after` and `Window.after` say once what all of them compute.  Memory and Consul are these
  functions.  Redis forgets a bucket when its keys expire, keeps a window under its index alone, and drops
  the fraction of what it returns: it agrees with the others as long as none of this shows
  (`redis_of_sound`).
-/
import AuditTransparency.Security.RateLimitStores
import Mathlib.Tactic.Linarith
import Mathlib.Tactic.SplitIfs
import Mathlib.Tactic.Ring
import Mathlib.Tactic.Positivity

namespace RateLimit

open CheckAndSet Soroban

/-! ## What the stores compute -/

namespace Bucket

/-- A bucket, full when it is not there, refilled at the time of a call. -/
def refilled (b : Option Bucket) (c : Consume) : Bucket :=
  let b := b.getD ⟨c.capacity, c.now⟩
  let refillCount := ⌊(c.now - b.lastRefill) / c.refillIntervalMs⌋ * c.refillTokens
  if 0 < refillCount then ⟨min c.capacity (b.tokens + refillCount), c.now⟩ else b

/-- What a call takes out of a refilled bucket. -/
def spent (b : Bucket) (c : Consume) : ℚ := if c.cost ≤ b.tokens then c.cost else 0

/-- The bucket after a call. -/
def after (b : Option Bucket) (c : Consume) : Bucket :=
  ⟨(refilled b c).tokens - (refilled b c).spent c, (refilled b c).lastRefill⟩

def consumed (b : Option Bucket) (c : Consume) : Consumed :=
  ⟨decide (c.cost ≤ (refilled b c).tokens), (after b c).tokens, (after b c).lastRefill⟩

/-- A bucket that is not there is full. -/
@[simp] theorem refilled_none (c : Consume) : refilled none c = ⟨c.capacity, c.now⟩ := by
  simp [refilled]

/-- The same with the tokens and the time of the last refill apart. -/
theorem refill_pair (b : Bucket) (c : Consume) :
    (if 0 < ⌊(c.now - b.lastRefill) / c.refillIntervalMs⌋ * c.refillTokens then
      (min c.capacity (b.tokens + ⌊(c.now - b.lastRefill) / c.refillIntervalMs⌋ * c.refillTokens), c.now)
    else (b.tokens, b.lastRefill)) = ((refilled (some b) c).tokens, (refilled (some b) c).lastRefill) := by
  simp only [refilled, Option.getD_some]
  split_ifs <;> rfl

/-- Taking tokens out, or none. -/
theorem spend_eq (b : Bucket) (c : Consume) :
    (if decide (c.cost ≤ b.tokens) then b.tokens - c.cost else b.tokens) = b.tokens - b.spent c := by
  by_cases h : c.cost ≤ b.tokens
  · rw [if_pos (decide_eq_true h), spent, if_pos h]
  · rw [if_neg (by simpa using h), spent, if_neg h, sub_zero]

end Bucket

/-- The index of the window of a hit. -/
def Hit.index (h : Hit) : ℤ := ⌊h.now / h.windowMs⌋

/-- The weight of the window before that of a hit. -/
def Hit.overlapWeight (h : Hit) : ℚ := max 0 ((h.windowMs - (h.now - h.index * h.windowMs)) / h.windowMs)

namespace Window

/-- The window that a hit finds. -/
def rolled (w : Option Window) (h : Hit) : Window :=
  match w with
  | none => ⟨0, h.index * h.windowMs, 0⟩
  | some w =>
    if w.currentStart = h.index * h.windowMs then w
    else ⟨0, h.index * h.windowMs, if h.index * h.windowMs - w.currentStart =
      h.windowMs then w.currentCount else 0⟩

/-- The window after a hit. -/
def after (w : Option Window) (h : Hit) : Window :=
  { rolled w h with currentCount := (rolled w h).currentCount + 1 }

def weighted (w : Option Window) (h : Hit) : ℚ :=
  (after w h).currentCount + (after w h).previousCount * h.overlapWeight

theorem rolled_start (w : Option Window) (h : Hit) : (rolled w h).currentStart = h.index * h.windowMs := by
  cases w with
  | none => rfl
  | some w =>
    rw [rolled.eq_2]
    split
    · assumption
    · rfl

end Window

/-! ## Memory -/

namespace Memory
variable (m : Memory)

theorem refilled_eq (c : Consume) : m.refilled c = Bucket.refilled (m.buckets c.key) c := rfl

theorem consumeTokenBucket_eq (c : Consume) :
    m.consumeTokenBucket c =
      ({ m with buckets := Function.update m.buckets c.key (some (Bucket.after (m.buckets c.key) c)) },
        Bucket.consumed (m.buckets c.key) c) := by
  rw [consumeTokenBucket, refilled_eq]
  by_cases hallowed : c.cost ≤ (Bucket.refilled (m.buckets c.key) c).tokens
  · simp [Bucket.after, Bucket.consumed, Bucket.spent, hallowed]
  · simp [Bucket.after, Bucket.consumed, Bucket.spent, hallowed]

theorem rolled_eq (h : Hit) : m.rolled h = Window.rolled (m.windows h.key) h := by
  rw [rolled]
  cases m.windows h.key with
  | none => rfl
  | some w =>
    rw [Window.rolled.eq_2]
    by_cases he : w.currentStart = h.index * h.windowMs
    · rw [if_pos he]
      exact if_neg (not_not.2 he)
    · rw [if_neg he]
      exact if_pos he

theorem slidingWindowHit_eq (h : Hit) :
    m.slidingWindowHit h =
      ({ m with windows := Function.update m.windows h.key (some (Window.after (m.windows h.key) h)) },
        Window.weighted (m.windows h.key) h) := by
  simp only [slidingWindowHit, rolled_eq]
  refine Prod.ext rfl ?_
  dsimp only
  rw [Window.rolled_start]
  rfl

end Memory

/-! ## Consul -/

namespace Consul

/-- What is stored of a bucket. -/
def ofBucket (b : Bucket) : StoredState := { v := b.tokens, t := b.lastRefill }

/-- What is stored of a window. -/
def ofWindow (w : Window) : StoredState :=
    { v := w.currentCount, t := w.currentStart, p := some w.previousCount }

theorem mutate_consume (c : Consume) (b : Option Bucket) :
    (consumeTokenBucket c).mutate (b.map ofBucket) =
    (ofBucket (Bucket.after b c), (Bucket.consumed b c).allowed) := by
  have htokens : ((b.map ofBucket).map StoredState.v).getD c.capacity =
      (b.getD ⟨c.capacity, c.now⟩).tokens := by
    cases b <;> rfl
  have hlast : ((b.map ofBucket).map StoredState.t).getD c.now = (b.getD ⟨c.capacity, c.now⟩).lastRefill := by
    cases b <;> rfl
  simp only [consumeTokenBucket, htokens, hlast, Bucket.refill_pair]
  rw [Bucket.spend_eq]
  rfl

theorem mutate_hit (h : Hit) (w : Option Window) :
    (slidingWindowHit h).mutate (w.map ofWindow) = (ofWindow (Window.after w h), false) := by
  cases w with
  | none => simp [slidingWindowHit, ofWindow, Window.after, Window.rolled, Hit.index]
  | some w =>
    by_cases he : w.currentStart = h.index * h.windowMs
    · simp only [Hit.index] at he
      simp [slidingWindowHit, ofWindow, Window.after, Window.rolled, Hit.index, he]
    · simp only [Hit.index] at he
      by_cases hroll : ⌊h.now / h.windowMs⌋ * h.windowMs - w.currentStart = h.windowMs
      · simp [slidingWindowHit, ofWindow, Window.after, Window.rolled, Hit.index, he, hroll]
      · simp [slidingWindowHit, ofWindow, Window.after, Window.rolled, Hit.index, he, hroll]

end Consul

/-! ## Redis -/

/-- A number that loses nothing as an integer reply. -/
def Whole (q : ℚ) : Prop := q.den = 1

instance (q : ℚ) : Decidable (Whole q) := Nat.decEq _ _

theorem truncate_of_whole {q : ℚ} (h : Whole q) : (truncate q : ℚ) = q := by
  rw [truncate, show q.den = 1 from h, Nat.cast_one, Int.tdiv_one]
  exact Rat.coe_int_num_of_den_eq_one h

namespace Redis
variable (r : Redis) {key key' : RedisKey} {now : ℚ}

/-- The bucket that a call finds. -/
def bucket (c : Consume) : Option Bucket :=
  (r.get (.tokens c.key) c.now).map fun tokens => ⟨tokens, (r.get (.refill c.key) c.now).getD 0⟩

theorem tokenBucketScript_eq (c : Consume) (ttlSec : ℤ) :
    r.tokenBucketScript c ttlSec =
      ((r.set (.tokens c.key) (Bucket.after (r.bucket c) c).tokens ttlSec c.now).set (.refill c.key)
        (Bucket.after (r.bucket c) c).lastRefill ttlSec c.now, Bucket.consumed (r.bucket c) c) := by
  have htokens : (r.get (.tokens c.key) c.now).getD c.capacity =
      ((r.bucket c).getD ⟨c.capacity, c.now⟩).tokens := by
    rw [bucket]
    cases r.get (.tokens c.key) c.now <;> rfl
  have hlast : (if r.get (.tokens c.key) c.now = none then c.now else (r.get (.refill c.key) c.now).getD 0) =
      ((r.bucket c).getD ⟨c.capacity, c.now⟩).lastRefill := by
    rw [bucket]
    cases r.get (.tokens c.key) c.now <;> rfl
  simp only [tokenBucketScript, htokens, hlast, Bucket.refill_pair]
  rw [Bucket.spend_eq]
  rfl

theorem live_of_le {e : RedisEntry} {t : ℚ} (h : r.entries key = some e) (ht : e.expireAt = some t)
    (hnow : now ≤ t) :
    r.live key now = some e := by
  rw [live, h, Option.filter_some, ht]
  simp [hnow]

theorem live_of_none (h : r.entries key = none) : r.live key now = none := by
  rw [live, h, Option.filter_none]

theorem get_of_le {v t : ℚ} (h : r.entries key = some ⟨v, some t⟩) (hnow : now ≤ t) :
    r.get key now = some v := by
  rw [get, r.live_of_le h rfl hnow]
  rfl

/-- A key that has expired. -/
theorem get_of_lt {v t : ℚ} (h : r.entries key = some ⟨v, some t⟩) (hnow : t < now) :
    r.get key now = none := by
  rw [get, live, h, Option.filter_some]
  simp [hnow]

theorem get_of_none (h : r.entries key = none) : r.get key now = none := by
  rw [get, r.live_of_none h]
  rfl

theorem get_update_of_ne (hne : key' ≠ key) (e : RedisEntry) :
    get { r with entries := Function.update r.entries key (some e) } key' now = r.get key' now := by
  rw [get, get, live, live]
  dsimp only
  rw [Function.update_of_ne hne]

end Redis

/-- How long a window is kept. -/
def Hit.ttlSec (h : Hit) : ℤ := max 1 ⌈h.windowMs * 2 / 1000⌉

/-- Not less than two windows. -/
theorem Hit.le_ttl (h : Hit) : h.windowMs * 2 ≤ h.ttlSec * 1000 := by
  have hceil : h.windowMs * 2 / 1000 ≤ (⌈h.windowMs * 2 / 1000⌉ : ℤ) := Int.le_ceil _
  have hmax : ((⌈h.windowMs * 2 / 1000⌉ : ℤ) : ℚ) ≤ (h.ttlSec : ℤ) := Int.cast_le.2 (le_max_right _ _)
  linarith

/-- A hit: on a window that is not there, or on one that has not expired. -/
theorem Redis.slidingWindowHit_eq (r : Redis) (h : Hit) {n : ℕ} {e : ℚ}
    (hcur : r.entries (.window h.key h.index) = none ∧ n = 0 ∧ e = h.now + h.ttlSec * 1000 ∨
      r.entries (.window h.key h.index) = some ⟨n, some e⟩ ∧ 0 < n ∧ h.now ≤ e) :
    r.slidingWindowHit h =
      ({ r with entries := Function.update r.entries (.window h.key h.index) (some ⟨n + 1, some e⟩) },
        (truncate (n + 1 + (r.get (.window h.key (h.index - 1)) h.now).getD 0 * h.overlapWeight) : ℚ)) := by
  have hne : RedisKey.window h.key (h.index - 1) ≠ .window h.key h.index := by
    intro heq
    have := (RedisKey.window.inj heq).2
    omega
  have hscript : r.slidingWindowScript (.window h.key h.index) (.window h.key (h.index - 1))
      h.windowMs h.ttlSec
      (h.now - h.index * h.windowMs) h.now =
        ({ r with entries := Function.update r.entries (.window h.key h.index) (some ⟨n + 1, some e⟩) },
          n + 1 + (r.get (.window h.key (h.index - 1)) h.now).getD 0 * h.overlapWeight) := by
    rcases hcur with ⟨hnone, rfl, rfl⟩ | ⟨hsome, hn, hnow⟩
    · have hlive : r.live (.window h.key h.index) h.now = none := r.live_of_none hnone
      have hlive' : Redis.live
          { r with entries := Function.update r.entries (.window h.key h.index) (some ⟨1, none⟩) }
          (.window h.key h.index) h.now = some ⟨1, none⟩ := by
        simp [Redis.live]
      simp only [Redis.slidingWindowScript, Redis.incr, hlive, Option.getD_none, zero_add, if_true,
        Redis.expire,
        hlive', Function.update_idem, Redis.get_update_of_ne _ hne, Nat.cast_zero]
      rfl
    · have hlive : r.live (.window h.key h.index) h.now = some ⟨n, some e⟩ := r.live_of_le hsome rfl hnow
      have hcur : ((n : ℚ) + 1) ≠ 1 := by
        have : (0 : ℚ) < n := Nat.cast_pos.2 hn
        linarith
      simp only [Redis.slidingWindowScript, Redis.incr, hlive, Option.getD_some, if_neg hcur,
        Redis.get_update_of_ne _ hne]
      rfl
  rw [Redis.slidingWindowHit]
  exact congrArg (fun p : Redis × ℚ => (p.1, (truncate p.2 : ℚ))) hscript

/-! ## Side by side -/

inductive Request where
  | consume (c : Consume)
  | hit (h : Hit)

def Request.now : Request → ℚ
  | .consume c => c.now
  | .hit h => h.now

/-- What is compared. -/
inductive Answer where
  | tokens (allowed : Bool) (tokens : ℚ)
  | weighted (count : ℚ)
  deriving DecidableEq

def Consumed.answer (r : Consumed) : Answer := .tokens r.allowed r.tokens

def Reply.answer? : Reply → Option Answer
  | .consumed r => some r.answer
  | .weighted count => some (.weighted count)
  | .counted _ => none

def Memory.serve (m : Memory) : Request → Memory × Answer
  | .consume c => ((m.consumeTokenBucket c).1, (m.consumeTokenBucket c).2.answer)
  | .hit h => ((m.slidingWindowHit h).1, .weighted (m.slidingWindowHit h).2)

def Redis.serve (r : Redis) : Request → Redis × Answer
  | .consume c => ((r.consumeTokenBucket c).1, (r.consumeTokenBucket c).2.answer)
  | .hit h => ((r.slidingWindowHit h).1, .weighted (r.slidingWindowHit h).2)

/-- The call of the Consul store. -/
def Request.op : Request → Op ConsulKey StoredState Bool Reply
  | .consume c => Consul.consumeTokenBucket c
  | .hit h => Consul.slidingWindowHit h

def Consul.serve (kv : Kv ConsulKey StoredState) (a : Request) : Kv ConsulKey StoredState × Option Answer :=
  ((Consul.casLoop kv a.op).1, (Consul.casLoop kv a.op).2.bind Reply.answer?)

/-- The three stores, and the time of the last call. -/
structure Stores where
  memory : Memory
  consul : Kv ConsulKey StoredState
  redis : Redis
  clock : ℚ

/-- Empty stores. -/
def Stores.start (clock : ℚ) (index : ℕ) : Stores := ⟨{}, ⟨fun _ => none, index⟩, {}, clock⟩

/-- A call on each of the stores, not before the last one. -/
def Stores.serve (s : Stores) (a : Request) : Option Stores :=
  if s.clock ≤ a.now then
    some ⟨(s.memory.serve a).1, (Consul.serve s.consul a).1, (s.redis.serve a).1, a.now⟩
  else none

def Stores.Steps (s : Stores) (a : Request) (s' : Stores) : Prop := s.serve a = some s'

/-- Consul answers as memory does. -/
def Stores.ConsulAgrees (s : Stores) (a : Request) : Prop :=
    (Consul.serve s.consul a).2 = some (s.memory.serve a).2

/-- Redis answers as memory does. -/
def Stores.RedisAgrees (s : Stores) (a : Request) : Prop := (s.redis.serve a).2 = (s.memory.serve a).2

/-- What keeps the differences of Redis from showing: nothing is dropped from the reply, a bucket whose keys
    have expired is full again, and a key has one length of windows. -/
def Stores.Sound (windowOf : String → ℚ) (s : Stores) : Request → Prop
  | .consume c => Whole ((s.memory.refilled c).tokens - (s.memory.refilled c).spent c) ∧
      (s.redis.get (.tokens c.key) c.now = none → s.memory.refilled c = ⟨c.capacity, c.now⟩)
  | .hit h => 0 < h.windowMs ∧ h.windowMs = windowOf h.key ∧
      Whole ((s.memory.rolled h).previousCount * h.overlapWeight)

instance (windowOf : String → ℚ) (s : Stores) : (a : Request) → Decidable (s.Sound windowOf a)
  | .consume _ => instDecidableAnd
  | .hit _ => instDecidableAnd

instance (s : Stores) (a : Request) : Decidable (s.RedisAgrees a) := instDecidableEqAnswer _ _

/-! ## Memory and Consul -/

/-- Consul holds what memory does. -/
structure Mirrors (m : Memory) (kv : Kv ConsulKey StoredState) : Prop where
  buckets : ∀ key, kv.value (.tb key) = (m.buckets key).map Consul.ofBucket
  windows : ∀ key, kv.value (.sw key) = (m.windows key).map Consul.ofWindow

theorem Mirrors.serve {m : Memory} {kv : Kv ConsulKey StoredState} (h : Mirrors m kv) (a : Request) :
    Mirrors (m.serve a).1 (Consul.serve kv a).1 ∧ (Consul.serve kv a).2 = some (m.serve a).2 := by
  rw [Consul.serve, Consul.casLoop, MAX_CAS_RETRIES, loop_succ]
  cases a with
  | consume c =>
    have hmutate : (Consul.consumeTokenBucket c).mutate (kv.value (.tb c.key)) = _ :=
      (congrArg _ (h.buckets c.key)).trans (Consul.mutate_consume c _)
    rw [Memory.serve, Memory.consumeTokenBucket_eq]
    refine ⟨⟨fun key => ?_, fun key => ?_⟩, ?_⟩
    · dsimp only
      rw [value_update]
      rcases eq_or_ne key c.key with rfl | hne
      · rw [Function.update_self]
        exact (Function.update_self _ _ _).trans (congrArg (fun p => some p.1) hmutate)
      · rw [Function.update_of_ne hne, ← h.buckets]
        exact Function.update_of_ne (fun he => hne (ConsulKey.tb.inj he)) _ _
    · dsimp only
      rw [value_update, ← h.windows]
      exact Function.update_of_ne (fun he => by cases he) _ _
    · exact congrArg (fun p => some (Consumed.answer ⟨p.2, p.1.v, p.1.t⟩)) hmutate
  | hit h' =>
    have hmutate : (Consul.slidingWindowHit h').mutate (kv.value (.sw h'.key)) = _ :=
      (congrArg _ (h.windows h'.key)).trans (Consul.mutate_hit h' _)
    rw [Memory.serve, Memory.slidingWindowHit_eq]
    refine ⟨⟨fun key => ?_, fun key => ?_⟩, ?_⟩
    · dsimp only
      rw [value_update, ← h.buckets]
      exact Function.update_of_ne (fun he => by cases he) _ _
    · dsimp only
      rw [value_update]
      rcases eq_or_ne key h'.key with rfl | hne
      · rw [Function.update_self]
        exact (Function.update_self _ _ _).trans (congrArg (fun p => some p.1) hmutate)
      · rw [Function.update_of_ne hne, ← h.windows]
        exact Function.update_of_ne (fun he => hne (ConsulKey.sw.inj he)) _ _
    · have hstart : (Consul.ofWindow (Window.after (m.windows h'.key) h')).t = h'.index * h'.windowMs :=
        Window.rolled_start _ h'
      refine (congrArg (fun p => some (Answer.weighted (p.1.v + p.1.p.getD 0 *
        max 0 ((h'.windowMs - (h'.now - p.1.t)) / h'.windowMs)))) hmutate).trans ?_
      rw [hstart]
      rfl

/-! ## Memory and Redis -/

/-- What Redis holds of a window that memory has at an index. -/
structure KeepsWindow (r : Redis) (clock : ℚ) (key : String) (windowMs : ℚ) (w : Window) (i : ℤ) : Prop where
  start : w.currentStart = i * windowMs
  started : i * windowMs ≤ clock
  counted : 0 < w.currentCount
  current : ∃ e, r.entries (.window key i) = some ⟨w.currentCount, some e⟩ ∧ (i + 2) * windowMs ≤ e
  previous : r.entries (.window key (i - 1)) = none ∧ w.previousCount = 0 ∨
    ∃ e, r.entries (.window key (i - 1)) = some ⟨w.previousCount, some e⟩ ∧ (i + 1) * windowMs ≤ e
  later : ∀ j > i, r.entries (.window key j) = none

theorem KeepsWindow.mono {clock clock' windowMs : ℚ} {r r' : Redis} {key : String} {w : Window} {i : ℤ}
    (hk : KeepsWindow r clock key windowMs w i) (hclock : clock ≤ clock')
    (hentries : ∀ j, r'.entries (.window key j) = r.entries (.window key j)) :
    KeepsWindow r' clock' key windowMs w i where
  start := hk.start
  started := hk.started.trans hclock
  counted := hk.counted
  current := by
    rw [hentries]
    exact hk.current
  previous := by
    rw [hentries]
    exact hk.previous
  later := fun j hj => (hentries j).trans (hk.later j hj)

/-- Redis holds what memory does, under keys that may have expired. -/
structure Keeps (windowOf : String → ℚ) (m : Memory) (r : Redis) (clock : ℚ) : Prop where
  bucket : ∀ key b, m.buckets key = some b → ∃ e, r.entries (.tokens key) = some ⟨b.tokens, some e⟩ ∧
    r.entries (.refill key) = some ⟨b.lastRefill, some e⟩
  noBucket : ∀ key, m.buckets key = none → r.entries (.tokens key) = none
  window : ∀ key w, m.windows key = some w → ∃ i, KeepsWindow r clock key (windowOf key) w i
  noWindow : ∀ key, m.windows key = none → ∀ i, r.entries (.window key i) = none

variable {windowOf : String → ℚ} {m : Memory} {r : Redis} {clock : ℚ}

/-- What a call finds is the bucket of memory, or that its keys have expired. -/
theorem Keeps.bucket_eq (hk : Keeps windowOf m r clock) (c : Consume) :
    r.bucket c = m.buckets c.key ∨ r.get (.tokens c.key) c.now = none ∧ r.bucket c = none := by
  cases hb : m.buckets c.key with
  | none =>
    left
    rw [Redis.bucket, r.get_of_none (hk.noBucket c.key hb)]
    rfl
  | some b =>
    obtain ⟨e, htokens, hrefill⟩ := hk.bucket c.key b hb
    rcases le_or_gt c.now e with hnow | hnow
    · left
      rw [Redis.bucket, r.get_of_le htokens hnow, r.get_of_le hrefill hnow]
      rfl
    · right
      have hnone : r.get (.tokens c.key) c.now = none := r.get_of_lt htokens hnow
      rw [Redis.bucket, hnone]
      exact ⟨rfl, rfl⟩

/-- A call that takes tokens. -/
theorem Keeps.consume (hk : Keeps windowOf m r clock) {c : Consume}
    (hfull : r.get (.tokens c.key) c.now = none → m.refilled c = ⟨c.capacity, c.now⟩)
    (hclock : clock ≤ c.now) :
    Keeps windowOf (m.consumeTokenBucket c).1 (r.consumeTokenBucket c).1 c.now ∧
      (r.tokenBucketScript c (max 60 ⌈c.refillIntervalMs * 2 / 1000⌉)).2 = (m.consumeTokenBucket c).2 := by
  have hrefilled : Bucket.refilled (r.bucket c) c = Bucket.refilled (m.buckets c.key) c := by
    rcases hk.bucket_eq c with he | ⟨hnone, he⟩
    · rw [he]
    · rw [he, Bucket.refilled_none]
      exact (hfull hnone).symm
  have hafter : Bucket.after (r.bucket c) c = Bucket.after (m.buckets c.key) c := by
    rw [Bucket.after, Bucket.after, hrefilled]
  have hconsumed : Bucket.consumed (r.bucket c) c = Bucket.consumed (m.buckets c.key) c := by
    rw [Bucket.consumed, Bucket.consumed, hrefilled, hafter]
  rw [Redis.consumeTokenBucket, Redis.tokenBucketScript_eq, Memory.consumeTokenBucket_eq, hafter, hconsumed]
  have hwindows : ∀ (b : Bucket) (ttlSec : ℤ) (key : String) (j : ℤ),
      ((r.set (.tokens c.key) b.tokens ttlSec c.now).set (.refill c.key) b.lastRefill ttlSec c.now).entries
        (.window key j) = r.entries (.window key j) := by
    intro b ttlSec key j
    dsimp only [Redis.set]
    rw [Function.update_of_ne (fun he => by cases he), Function.update_of_ne (fun he => by cases he)]
  refine ⟨⟨?_, ?_, ?_, ?_⟩, rfl⟩
  · intro key b hb
    dsimp only [Redis.set] at hb ⊢
    rcases eq_or_ne key c.key with rfl | hne
    · rw [Function.update_self] at hb
      obtain rfl := Option.some.inj hb
      rw [Function.update_of_ne (fun he => by cases he), Function.update_self, Function.update_self]
      exact ⟨_, rfl, rfl⟩
    · rw [Function.update_of_ne hne] at hb
      obtain ⟨e, htokens, hrefill⟩ := hk.bucket key b hb
      refine ⟨e, ?_, ?_⟩
      · rw [Function.update_of_ne (fun he => by cases he),
          Function.update_of_ne (fun he => hne (RedisKey.tokens.inj he))]
        exact htokens
      · rw [Function.update_of_ne (fun he => hne (RedisKey.refill.inj he)),
          Function.update_of_ne (fun he => by cases he)]
        exact hrefill
  · intro key hb
    dsimp only [Redis.set] at hb ⊢
    rcases eq_or_ne key c.key with rfl | hne
    · rw [Function.update_self] at hb
      cases hb
    · rw [Function.update_of_ne hne] at hb
      rw [Function.update_of_ne (fun he => by cases he),
        Function.update_of_ne (fun he => hne (RedisKey.tokens.inj he))]
      exact hk.noBucket key hb
  · intro key w hw
    obtain ⟨i, hi⟩ := hk.window key w hw
    exact ⟨i, hi.mono hclock (hwindows _ _ key)⟩
  · intro key hw i
    rw [hwindows]
    exact hk.noWindow key hw i

section
variable {h : Hit}

theorem Hit.index_le (hpos : 0 < h.windowMs) : h.index * h.windowMs ≤ h.now :=
  (le_div_iff₀ hpos).1 (Int.floor_le _)

theorem Hit.lt_index (hpos : 0 < h.windowMs) : h.now < (h.index + 1) * h.windowMs :=
  (div_lt_iff₀ hpos).1 (Int.lt_floor_add_one _)

/-- A window that has started is not a later one. -/
theorem Hit.le_index (hpos : 0 < h.windowMs) {i : ℤ} (hi : i * h.windowMs ≤ h.now) : i ≤ h.index :=
  Int.le_floor.2 ((le_div_iff₀ hpos).2 hi)

/-- What a hit finds in Redis, of the window that memory finds. -/
structure Found (r : Redis) (h : Hit) (w : Window) (e : ℚ) : Prop where
  current : r.entries (.window h.key h.index) = none ∧ w.currentCount = 0 ∧ e = h.now + h.ttlSec * 1000 ∨
    r.entries (.window h.key h.index) = some ⟨w.currentCount, some e⟩ ∧ 0 < w.currentCount ∧ h.now ≤ e
  kept : (h.index + 2) * h.windowMs ≤ e
  previous : r.entries (.window h.key (h.index - 1)) = none ∧ w.previousCount = 0 ∨
    ∃ e', r.entries (.window h.key (h.index - 1)) = some ⟨w.previousCount, some e'⟩ ∧
      (h.index + 1) * h.windowMs ≤ e'
  later : ∀ j > h.index, r.entries (.window h.key j) = none

/-- The count of the window before is there as long as it is needed. -/
theorem Found.get_previous {w : Window} {e : ℚ} (hf : Found r h w e) (hpos : 0 < h.windowMs) :
    (r.get (.window h.key (h.index - 1)) h.now).getD 0 = w.previousCount := by
  rcases hf.previous with ⟨hnone, hzero⟩ | ⟨e', hsome, he'⟩
  · rw [r.get_of_none hnone, hzero]
    rfl
  · rw [r.get_of_le hsome ((Hit.lt_index hpos).le.trans he')]
    rfl

theorem Keeps.found (hk : Keeps windowOf m r clock) (hpos : 0 < h.windowMs)
    (hlength : h.windowMs = windowOf h.key)
    (hclock : clock ≤ h.now) : ∃ e, Found r h (Window.rolled (m.windows h.key) h) e := by
  have hnew : (h.index + 2) * h.windowMs ≤ h.now + h.ttlSec * 1000 := by
    have := Hit.index_le hpos
    have := h.le_ttl
    linarith
  cases hw : m.windows h.key with
  | none =>
    have hnone := hk.noWindow h.key hw
    exact ⟨_, Or.inl ⟨hnone _, rfl, rfl⟩, hnew, Or.inl ⟨hnone _, rfl⟩, fun j _ => hnone j⟩
  | some w =>
    obtain ⟨i, hi⟩ := hk.window h.key w hw
    rw [← hlength] at hi
    have hle : i ≤ h.index := Hit.le_index hpos (hi.started.trans hclock)
    rw [Window.rolled.eq_2]
    rcases hle.eq_or_lt with rfl | hlt
    · -- the window goes on
      obtain ⟨e, hcurrent, he⟩ := hi.current
      rw [if_pos hi.start]
      refine ⟨e, Or.inr ⟨hcurrent, hi.counted, ?_⟩, he, hi.previous, hi.later⟩
      have := Hit.lt_index hpos
      linarith
    · have hne : w.currentStart ≠ h.index * h.windowMs := by
        rw [hi.start]
        intro heq
        have := mul_right_cancel₀ hpos.ne' heq
        exact hlt.ne (Int.cast_injective this)
      rw [if_neg hne]
      refine ⟨_, Or.inl ⟨hi.later _ hlt, rfl, rfl⟩, hnew, ?_, fun j hj => hi.later j (hlt.trans hj)⟩
      have hroll : h.index * h.windowMs - w.currentStart = h.windowMs ↔ h.index = i + 1 := by
        rw [hi.start]
        constructor
        · intro heq
          have : (h.index : ℚ) * h.windowMs = ((i + 1 : ℤ) : ℚ) * h.windowMs := by
            push_cast
            linarith
          exact Int.cast_injective (mul_right_cancel₀ hpos.ne' this)
        · intro heq
          rw [heq]
          push_cast
          ring
      by_cases hnext : h.index = i + 1
      · -- it is the window before
        right
        obtain ⟨e, hcurrent, he⟩ := hi.current
        refine ⟨e, ?_, ?_⟩
        · rw [if_pos (hroll.2 hnext), hnext, add_sub_cancel_right]
          exact hcurrent
        · rw [hnext]
          push_cast
          linarith
      · -- there is none
        left
        exact ⟨hi.later _ (by omega), if_neg fun heq => hnext (hroll.1 heq)⟩

/-- A hit. -/
theorem Keeps.hit (hk : Keeps windowOf m r clock) (hpos : 0 < h.windowMs)
    (hlength : h.windowMs = windowOf h.key)
    (hclock : clock ≤ h.now) :
    Keeps windowOf (m.slidingWindowHit h).1 (r.slidingWindowHit h).1 h.now ∧
      (r.slidingWindowHit h).2 = truncate (m.slidingWindowHit h).2 := by
  obtain ⟨e, hf⟩ := hk.found hpos hlength hclock
  rw [Memory.slidingWindowHit_eq, r.slidingWindowHit_eq h hf.current, hf.get_previous hpos]
  constructor
  · generalize hentry : some (RedisEntry.mk _ _) = entry
    have hother : ∀ key', key' ≠ .window h.key h.index →
        Function.update r.entries (.window h.key h.index) entry key' = r.entries key' :=
      fun key' hne => Function.update_of_ne hne _ _
    refine ⟨?_, ?_, ?_, ?_⟩
    · intro key b hb
      dsimp only
      rw [hother _ (fun he => by cases he), hother _ (fun he => by cases he)]
      exact hk.bucket key b hb
    · intro key hb
      dsimp only
      rw [hother _ (fun he => by cases he)]
      exact hk.noBucket key hb
    · intro key w hw
      dsimp only at hw ⊢
      rcases update_cases hw with ⟨rfl, rfl⟩ | ⟨hne, hw⟩
      · rw [← hlength, ← hentry]
        refine ⟨h.index, ⟨Window.rolled_start _ h, Hit.index_le hpos, Nat.succ_pos _,
          ⟨e, ?_, hf.kept⟩, ?_, ?_⟩⟩
        · dsimp only
          rw [Function.update_self, Window.after, Nat.cast_succ]
        · dsimp only
          rw [hentry, hother _ (fun he => by have := (RedisKey.window.inj he).2; omega)]
          exact hf.previous
        · intro j hj
          dsimp only
          rw [hentry, hother _ (fun he => hj.ne' (RedisKey.window.inj he).2)]
          exact hf.later j hj
      · obtain ⟨i, hi⟩ := hk.window key w hw
        exact ⟨i, hi.mono hclock fun j => hother _ fun he => hne (RedisKey.window.inj he).1⟩
    · intro key hw i
      dsimp only at hw ⊢
      rcases eq_or_ne key h.key with rfl | hne
      · rw [Function.update_self] at hw
        cases hw
      · rw [Function.update_of_ne hne] at hw
        rw [hother _ (fun he => hne (RedisKey.window.inj he).1)]
        exact hk.noWindow key hw i
  · dsimp only
    rw [Window.weighted, Window.after, Nat.cast_succ]

end

/-! ## Every run -/

variable {t₀ : ℚ} {index : ℕ} {tr : List (Stores × Request)} {s s' : Stores} {a : Request}

theorem serve_cases (h : s.Steps a s') : s.clock ≤ a.now ∧
    s' = ⟨(s.memory.serve a).1, (Consul.serve s.consul a).1, (s.redis.serve a).1, a.now⟩ := by
  rw [Stores.Steps, Stores.serve] at h
  split_ifs at h with hclock
  exact ⟨hclock, (Option.some.inj h).symm⟩

/-- A call that meets the condition is answered alike, and Redis goes on holding what memory does. -/
theorem Keeps.serve (hk : Keeps windowOf s.memory s.redis s.clock) (hclock : s.clock ≤ a.now)
    (hsound : s.Sound windowOf a) :
    Keeps windowOf (s.memory.serve a).1 (s.redis.serve a).1 a.now ∧ s.RedisAgrees a := by
  cases a with
  | consume c =>
    obtain ⟨hwhole, hfull⟩ := hsound
    obtain ⟨hkeeps, hreply⟩ := hk.consume hfull hclock
    refine ⟨hkeeps, ?_⟩
    rw [Memory.consumeTokenBucket_eq] at hreply
    have htruncate : (truncate (Bucket.after (s.memory.buckets c.key) c).tokens : ℚ) =
        (Bucket.after (s.memory.buckets c.key) c).tokens := truncate_of_whole hwhole
    rw [Stores.RedisAgrees, Redis.serve, Memory.serve, Memory.consumeTokenBucket_eq, Redis.consumeTokenBucket]
    dsimp only
    rw [hreply]
    exact congrArg (Answer.tokens _) htruncate
  | hit h =>
    obtain ⟨hpos, hlength, hwhole⟩ := hsound
    obtain ⟨hkeeps, hreply⟩ := hk.hit hpos hlength hclock
    refine ⟨hkeeps, ?_⟩
    rw [Memory.rolled_eq] at hwhole
    rw [Stores.RedisAgrees, Redis.serve, Memory.serve]
    dsimp only
    rw [hreply, Memory.slidingWindowHit_eq]
    exact congrArg Answer.weighted (truncate_of_whole ((Rat.natCast_add_den _ _).trans hwhole))

theorem consul_agrees (h : Run Stores.Steps (Stores.start t₀ index) tr s) :
    ∀ p ∈ tr, p.1.ConsulAgrees p.2 := by
  have hmirrors : ∀ p ∈ tr, Mirrors p.1.memory p.1.consul := by
    refine (h.always (C := fun _ _ => True) (I := fun s => Mirrors s.memory s.consul) ⟨fun _ => rfl,
      fun _ => rfl⟩ ?_
      fun _ _ => trivial).1
    intro s a s' _ hs hI
    obtain ⟨-, rfl⟩ := serve_cases hs
    exact (hI.serve a).1
  exact fun p hp => ((hmirrors p hp).serve p.2).2

/-- **Stores that answer alike**: memory and Consul in every run, and Redis with them as long as nothing of
    it shows. -/
theorem run_agrees (h : Run Stores.Steps (Stores.start t₀ index) tr s) (windowOf : String → ℚ) :
    (∀ p ∈ tr, p.1.ConsulAgrees p.2) ∧
      ((∀ p ∈ tr, p.1.Sound windowOf p.2) → ∀ p ∈ tr, p.1.RedisAgrees p.2) := by
  refine ⟨consul_agrees h, fun hsound => ?_⟩
  have hkeeps : ∀ p ∈ tr, Keeps windowOf p.1.memory p.1.redis p.1.clock := by
    refine (h.always (I := fun s => Keeps windowOf s.memory s.redis s.clock) ?_ ?_ hsound).1
    · refine ⟨?_, fun _ _ => rfl, ?_, fun _ _ _ => rfl⟩
      · intro key b hb
        cases hb
      · intro key w hw
        cases hw
    · intro s a s' hs hstep hI
      obtain ⟨hclock, rfl⟩ := serve_cases hstep
      exact (hI.serve hclock hs).1
  intro p hp
  obtain ⟨s', hs⟩ := h.step_of_mem hp
  exact ((hkeeps p hp).serve (serve_cases hs).1 (hsound p hp)).2

/-- One token of ten, one of which comes back every second. -/
def takeOne (now : ℚ) : Request := .consume ⟨"k", 1, 10, 1, 1000, now, by decide⟩

/-- A hit on a window of a second. -/
def hitSecond (now : ℚ) : Request := .hit ⟨"k", 1000, now, by decide⟩

/-- The keys of the bucket have expired before the last call, and it is full. -/
theorem run_agrees_idle :
    let tr := Run.traceOf Stores.serve (Stores.start 0 0) [takeOne 0, hitSecond 0, hitSecond 1000,
      takeOne 70000]
    (∀ p ∈ tr, p.1.ConsulAgrees p.2) ∧ ∀ p ∈ tr, p.1.RedisAgrees p.2 := by
  obtain ⟨hconsul, hredis⟩ := run_agrees (Run.of_foldlM (f := Stores.serve) (s := Stores.start 0 0)
    (l := [takeOne 0, hitSecond 0, hitSecond 1000, takeOne 70000]) rfl) fun _ => 1000
  exact ⟨hconsul, hredis (by decide +kernel)⟩

/-- A hit in the middle of a window, after one in the window before, counts one and a half; Redis says one. -/
theorem not_run_agrees :
    ¬∀ (t₀ : ℚ) (index : ℕ) (tr : List (Stores × Request)) (s : Stores),
      Run Stores.Steps (Stores.start t₀ index) tr s → ∀ p ∈ tr, p.1.ConsulAgrees p.2 ∧
        p.1.RedisAgrees p.2 := by
  intro h
  have hagrees := h 0 0 _ _ (Run.of_foldlM (f := Stores.serve) (l := [hitSecond 0, hitSecond 1500]) rfl)
  have hredis : ∀ p ∈ Run.traceOf Stores.serve (Stores.start 0 0) [hitSecond 0, hitSecond 1500],
      p.1.RedisAgrees p.2 := fun p hp => (hagrees p hp).2
  revert hredis
  decide +kernel

end RateLimit
