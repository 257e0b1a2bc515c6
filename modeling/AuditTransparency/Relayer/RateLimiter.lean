/-
  RateLimiter — the token bucket of the relayer (`bridge/relayer/rate-limiter.ts`).

  Numbers are rational; so is the quotient of the elapsed time and the interval, of which a refill takes the
  whole part and restarts the clock.

  * `potential`: the tokens and those that the clock will still give until a time; a call grants no more than
    it takes from them;
  * `run_bounded`: what the bucket holds;
  * `bucket_bounds`: what it grants in a window, and what a rejected call leaves.
-/
import Mathlib.Data.Rat.Floor
import Mathlib.Tactic.Linarith
import Mathlib.Tactic.Positivity

namespace RateLimiter

structure RateLimiterConfig where
  maxTokens : ℚ
  refillRate : ℚ
  refillIntervalMs : ℚ
  maxTokens_pos : 0 < maxTokens
  refillRate_pos : 0 < refillRate
  refillIntervalMs_pos : 0 < refillIntervalMs

structure RateLimiterStats where
  tokens : ℚ
  maxTokens : ℚ
  refillRate : ℚ
  refillIntervalMs : ℚ
  lastRefill : ℚ

/-- The fields of the class that change. -/
@[ext]
structure TokenBucketRateLimiter where
  tokens : ℚ
  lastRefill : ℚ
  deriving DecidableEq

/-- A call of the class. -/
inductive Call
  | tryConsume (tokens : ℚ)
  | getTokens
  | getStats
  | reset

/-- A call and the time at which it is made. -/
structure Event where
  now : ℚ
  call : Call

namespace TokenBucketRateLimiter

variable (c : RateLimiterConfig)

/-! ## Methods -/

/-- The constructor. -/
def new (now : ℚ) : TokenBucketRateLimiter := ⟨c.maxTokens, now⟩

def refill (now : ℚ) (s : TokenBucketRateLimiter) : TokenBucketRateLimiter :=
  let elapsed := now - s.lastRefill
  let refillCount := ⌊elapsed / c.refillIntervalMs * c.refillRate⌋
  if 0 < refillCount then ⟨min c.maxTokens (s.tokens + refillCount), now⟩ else s

def tryConsume (tokens now : ℚ) (s : TokenBucketRateLimiter) : Bool × TokenBucketRateLimiter :=
  let s := s.refill c now
  if tokens ≤ s.tokens then (true, { s with tokens := s.tokens - tokens }) else (false, s)

def getTokens (now : ℚ) (s : TokenBucketRateLimiter) : ℚ × TokenBucketRateLimiter :=
  let s := s.refill c now
  (s.tokens, s)

def getStats (now : ℚ) (s : TokenBucketRateLimiter) : RateLimiterStats × TokenBucketRateLimiter :=
  let s := s.refill c now
  (⟨s.tokens, c.maxTokens, c.refillRate, c.refillIntervalMs, s.lastRefill⟩, s)

def reset (now : ℚ) (_ : TokenBucketRateLimiter) : TokenBucketRateLimiter := ⟨c.maxTokens, now⟩

/-! ## Runs -/

def exec (s : TokenBucketRateLimiter) (e : Event) : TokenBucketRateLimiter :=
  match e.call with
  | .tryConsume tokens => (s.tryConsume c tokens e.now).2
  | .getTokens => (s.getTokens c e.now).2
  | .getStats => (s.getStats c e.now).2
  | .reset => s.reset c e.now

/-- The tokens that the call is granted. -/
def grants (s : TokenBucketRateLimiter) (e : Event) : ℚ :=
  match e.call with
  | .tryConsume tokens => if (s.tryConsume c tokens e.now).1 then tokens else 0
  | _ => 0

def run (s : TokenBucketRateLimiter) (events : List Event) : TokenBucketRateLimiter :=
  events.foldl (exec c) s

/-- The tokens granted from the time `a` to the time `b`. -/
def grantedWithin (a b : ℚ) : TokenBucketRateLimiter → List Event → ℚ
  | _, [] => 0
  | s, e :: l => (if a ≤ e.now ∧ e.now ≤ b then s.grants c e else 0) + grantedWithin a b (s.exec c e) l

end TokenBucketRateLimiter

/-- The events happen one after the other, the first not before `now`. -/
def Ordered : ℚ → List Event → Prop
  | _, [] => True
  | now, e :: l => now ≤ e.now ∧ Ordered e.now l

/-- `tryConsume` of at least one token, `getTokens` or `getStats`. -/
def Call.Metered : Call → Prop
  | tryConsume tokens => 1 ≤ tokens
  | getTokens => True
  | getStats => True
  | reset => False

namespace TokenBucketRateLimiter

variable {c : RateLimiterConfig} {s : TokenBucketRateLimiter}

/-! ## The clock -/

/-- The whole tokens of an elapsed time. -/
def accrued (c : RateLimiterConfig) (elapsed : ℚ) : ℤ := ⌊elapsed / c.refillIntervalMs * c.refillRate⌋

theorem accrued_nonneg {d : ℚ} (h : 0 ≤ d) : 0 ≤ accrued c d :=
  Int.floor_nonneg.2 (mul_nonneg (div_nonneg h c.refillIntervalMs_pos.le) c.refillRate_pos.le)

theorem accrued_mono {d d' : ℚ} (h : d ≤ d') : accrued c d ≤ accrued c d' :=
  Int.floor_le_floor (mul_le_mul_of_nonneg_right (div_le_div_of_nonneg_right h c.refillIntervalMs_pos.le)
    c.refillRate_pos.le)

theorem accrued_add_le (d d' : ℚ) : accrued c d + accrued c d' ≤ accrued c (d + d') := by
  rw [accrued, accrued, accrued, add_div, add_mul]
  exact Int.le_floor_add _ _

/-- A time that gives no whole token adds at most one to another. -/
theorem accrued_add_le_succ {d : ℚ} (h : accrued c d ≤ 0) (d' : ℚ) :
    accrued c (d' + d) ≤ accrued c d' + 1 := by
  have hlt : d / c.refillIntervalMs * c.refillRate < 1 := by
    have := (Int.lt_floor_add_one (d / c.refillIntervalMs * c.refillRate)).trans_le
      (add_le_add_left (Int.cast_le.2 h) 1)
    rwa [Int.cast_zero, zero_add] at this
  rw [accrued, accrued, add_div, add_mul, ← Int.floor_add_one]
  exact Int.floor_le_floor (by linarith only [hlt])

/-! ## One call -/

/-- Between nothing and all. -/
structure Bounded (c : RateLimiterConfig) (s : TokenBucketRateLimiter) : Prop where
  nonneg : 0 ≤ s.tokens
  le_max : s.tokens ≤ c.maxTokens

/-- The tokens, and those that the clock gives until the time `b`. -/
def potential (c : RateLimiterConfig) (b : ℚ) (s : TokenBucketRateLimiter) : ℚ :=
  s.tokens + accrued c (b - s.lastRefill)

theorem refill_of_accrued {now : ℚ} (h : 0 < accrued c (now - s.lastRefill)) :
    s.refill c now = ⟨min c.maxTokens (s.tokens + accrued c (now - s.lastRefill)), now⟩ :=
  if_pos h

theorem refill_of_not_accrued {now : ℚ} (h : ¬0 < accrued c (now - s.lastRefill)) : s.refill c now = s :=
  if_neg h

theorem refill_bounded (hs : Bounded c s) (now : ℚ) : Bounded c (s.refill c now) := by
  by_cases h : 0 < accrued c (now - s.lastRefill)
  · rw [refill_of_accrued h]
    have hcast : (0 : ℚ) < accrued c (now - s.lastRefill) := Int.cast_pos.2 h
    exact ⟨le_min c.maxTokens_pos.le (add_nonneg hs.nonneg hcast.le), min_le_left _ _⟩
  · rwa [refill_of_not_accrued h]

theorem lastRefill_refill_le {now : ℚ} (h : s.lastRefill ≤ now) : (s.refill c now).lastRefill ≤ now := by
  by_cases h' : 0 < accrued c (now - s.lastRefill)
  · rw [refill_of_accrued h']
  · rwa [refill_of_not_accrued h']

theorem potential_refill_le (now b : ℚ) : potential c b (s.refill c now) ≤ potential c b s := by
  by_cases h : 0 < accrued c (now - s.lastRefill)
  · have hadd := accrued_add_le (c := c) (now - s.lastRefill) (b - now)
    have heq : now - s.lastRefill + (b - now) = b - s.lastRefill := by ring
    rw [heq] at hadd
    have hcast : (accrued c (now - s.lastRefill) : ℚ) + accrued c (b - now) ≤
        accrued c (b - s.lastRefill) := by
      exact_mod_cast hadd
    rw [refill_of_accrued h, potential, potential]
    have hmin := min_le_right c.maxTokens (s.tokens + accrued c (now - s.lastRefill))
    linarith only [hcast, hmin]
  · rw [refill_of_not_accrued h]

/-- The first refill from the time `a` on leaves no more than a full bucket and what the clock gives from
    then on, but for one token. -/
theorem potential_refill_le_window (hs : s.tokens ≤ c.maxTokens) {a b now : ℚ} (ha : a ≤ now) :
    potential c b (s.refill c now) ≤ c.maxTokens + accrued c (b - a) + 1 := by
  by_cases h : 0 < accrued c (now - s.lastRefill)
  · rw [refill_of_accrued h, potential]
    have hmin := min_le_left c.maxTokens (s.tokens + accrued c (now - s.lastRefill))
    have hmono : (accrued c (b - now) : ℚ) ≤ accrued c (b - a) :=
      Int.cast_le.2 (accrued_mono (sub_le_sub_left ha b))
    linarith only [hmin, hmono]
  · have hidle : accrued c (a - s.lastRefill) ≤ 0 :=
      (accrued_mono (sub_le_sub_right ha _)).trans (not_lt.1 h)
    have hsucc := accrued_add_le_succ hidle (b - a)
    have heq : b - a + (a - s.lastRefill) = b - s.lastRefill := by ring
    rw [heq] at hsucc
    have hcast : (accrued c (b - s.lastRefill) : ℚ) ≤ accrued c (b - a) + 1 := by exact_mod_cast hsucc
    rw [refill_of_not_accrued h, potential]
    linarith only [hs, hcast]

/-- A call refills and takes what it grants, which is there. -/
theorem exec_eq {e : Event} (he : e.call.Metered) :
    s.exec c e = ⟨(s.refill c e.now).tokens - s.grants c e, (s.refill c e.now).lastRefill⟩ := by
  obtain ⟨now, call⟩ := e
  cases call with
  | tryConsume k =>
    by_cases hk : k ≤ (s.refill c now).tokens
    · simp only [exec, grants, tryConsume, if_pos hk, if_true]
    · simp only [exec, grants, tryConsume, if_neg hk, Bool.false_eq_true, if_false, sub_zero]
  | getTokens => simp only [exec, grants, getTokens, sub_zero]
  | getStats => simp only [exec, grants, getStats, sub_zero]
  | reset => exact he.elim

theorem grants_bounds {e : Event} (he : e.call.Metered) (hs : Bounded c s) :
    0 ≤ s.grants c e ∧ s.grants c e ≤ (s.refill c e.now).tokens := by
  have hnonneg := (refill_bounded hs e.now).nonneg
  obtain ⟨now, call⟩ := e
  cases call with
  | tryConsume k =>
    by_cases hk : k ≤ (s.refill c now).tokens
    · simp only [grants, tryConsume, if_pos hk, if_true]
      exact ⟨zero_le_one.trans he, hk⟩
    · simp only [grants, tryConsume, if_neg hk, Bool.false_eq_true, if_false]
      exact ⟨le_rfl, hnonneg⟩
  | getTokens => exact ⟨le_rfl, hnonneg⟩
  | getStats => exact ⟨le_rfl, hnonneg⟩
  | reset => exact he.elim

theorem exec_bounded {e : Event} (he : e.call.Metered) (hs : Bounded c s) : Bounded c (s.exec c e) := by
  obtain ⟨hnonneg, hle⟩ := grants_bounds he hs
  rw [exec_eq he]
  exact ⟨sub_nonneg.2 hle, (sub_le_self _ hnonneg).trans (refill_bounded hs e.now).le_max⟩

theorem lastRefill_exec_le {e : Event} (he : e.call.Metered) (h : s.lastRefill ≤ e.now) :
    (s.exec c e).lastRefill ≤ e.now := by
  rw [exec_eq he]
  exact lastRefill_refill_le h

/-- What a call grants it takes from the potential after the refill. -/
theorem potential_exec {e : Event} (he : e.call.Metered) (b : ℚ) :
    s.grants c e + potential c b (s.exec c e) = potential c b (s.refill c e.now) := by
  rw [exec_eq he, potential, potential]
  ring

/-! ## Every run -/

theorem run_bounded {events : List Event} (hm : ∀ e ∈ events, e.call.Metered) (hs : Bounded c s) :
    Bounded c (s.run c events) := by
  induction events generalizing s with
  | nil => exact hs
  | cons e l ih =>
    exact ih (fun e' he' => hm e' (List.mem_cons_of_mem _ he')) (exec_bounded (hm e List.mem_cons_self) hs)

variable {a b : ℚ}

/-- Nothing is granted in a window after its end. -/
theorem grantedWithin_of_lt {events : List Event} {now : ℚ} (h : b < now) (ho : Ordered now events) :
    grantedWithin c a b s events = 0 := by
  induction events generalizing s now with
  | nil => rfl
  | cons e l ih =>
    have hlt : b < e.now := h.trans_le ho.1
    rw [grantedWithin, if_neg fun hw => absurd hw.2 (not_le.2 hlt), zero_add]
    exact ih hlt ho.2

theorem ite_grants_le {e : Event} (he : e.call.Metered) (hs : Bounded c s) (p : Prop) [Decidable p] :
    (if p then s.grants c e else 0) ≤ s.grants c e := by
  split
  · exact le_rfl
  · exact (grants_bounds he hs).1

/-- **The amortised bound.**  What a run grants until the time `b` it takes from the potential. -/
theorem grantedWithin_le_potential {events : List Event} {now : ℚ} (hm : ∀ e ∈ events, e.call.Metered)
    (hs : Bounded c s) (hnow : s.lastRefill ≤ now) (hb : s.lastRefill ≤ b) (ho : Ordered now events) :
    grantedWithin c a b s events ≤ potential c b s := by
  have hpot : 0 ≤ potential c b s :=
    add_nonneg hs.nonneg (Int.cast_nonneg (accrued_nonneg (sub_nonneg.2 hb)))
  induction events generalizing s now with
  | nil => exact hpot
  | cons e l ih =>
    have he := hm e List.mem_cons_self
    have hlast : (s.exec c e).lastRefill ≤ e.now := lastRefill_exec_le he (hnow.trans ho.1)
    by_cases hin : e.now ≤ b
    · have hs' := exec_bounded he hs
      have hrest := ih (fun e' he' => hm e' (List.mem_cons_of_mem _ he')) hs' hlast (hlast.trans hin) ho.2
        (add_nonneg hs'.nonneg (Int.cast_nonneg (accrued_nonneg (sub_nonneg.2 (hlast.trans hin)))))
      have hfirst := ite_grants_le he hs (a ≤ e.now ∧ e.now ≤ b)
      have hexec := potential_exec (c := c) (s := s) he b
      have hrefill := potential_refill_le (c := c) (s := s) e.now b
      rw [grantedWithin]
      linarith only [hrest, hfirst, hexec, hrefill]
    · have hafter : Ordered e.now (e :: l) := ⟨le_rfl, ho.2⟩
      rw [grantedWithin_of_lt (not_le.1 hin) hafter]
      exact hpot

/-- What a window grants, wherever it lies in the run. -/
theorem grantedWithin_le {events : List Event} {now : ℚ} (hm : ∀ e ∈ events, e.call.Metered)
    (hs : Bounded c s) (hnow : s.lastRefill ≤ now) (hab : a ≤ b) (ho : Ordered now events) :
    grantedWithin c a b s events ≤ c.maxTokens + accrued c (b - a) + 1 := by
  have hpos : 0 ≤ c.maxTokens + (accrued c (b - a) : ℚ) + 1 := by
    have h0 : (0 : ℚ) ≤ accrued c (b - a) := Int.cast_nonneg (accrued_nonneg (sub_nonneg.2 hab))
    linarith only [h0, c.maxTokens_pos]
  induction events generalizing s now with
  | nil => exact hpos
  | cons e l ih =>
    have he := hm e List.mem_cons_self
    have hl : ∀ e' ∈ l, e'.call.Metered := fun e' he' => hm e' (List.mem_cons_of_mem _ he')
    have hs' := exec_bounded he hs
    have hlast : (s.exec c e).lastRefill ≤ e.now := lastRefill_exec_le he (hnow.trans ho.1)
    by_cases hbefore : e.now < a
    · rw [grantedWithin, if_neg fun hw => absurd hw.1 (not_le.2 hbefore), zero_add]
      exact ih hl hs' hlast ho.2
    · by_cases hin : e.now ≤ b
      · -- the first call in the window
        have hrest := grantedWithin_le_potential (a := a) hl hs' hlast (hlast.trans hin) ho.2
        have hexec := potential_exec (c := c) (s := s) he b
        have hfirst := potential_refill_le_window hs.le_max (b := b) (not_lt.1 hbefore)
        rw [grantedWithin, if_pos ⟨not_lt.1 hbefore, hin⟩]
        linarith only [hrest, hexec, hfirst]
      · have hafter : Ordered e.now (e :: l) := ⟨le_rfl, ho.2⟩
        rw [grantedWithin_of_lt (not_le.1 hin) hafter]
        exact hpos

theorem new_bounded (now : ℚ) : Bounded c (new c now) := ⟨c.maxTokens_pos.le, le_rfl⟩

/-- A rejected call leaves what a look at the bucket leaves. -/
theorem tryConsume_rejected {k now : ℚ} (h : (s.tryConsume c k now).1 = false) :
    (s.tryConsume c k now).2 = (s.getTokens c now).2 := by
  by_cases hk : k ≤ (s.refill c now).tokens
  · simp only [tryConsume, if_pos hk, reduceCtorEq] at h
  · simp only [tryConsume, getTokens, if_neg hk]

/-- **The token bucket.**  In every run it holds between nothing and all its tokens; in a window of length
    `w` it grants at most a full bucket, what the clock gives in that time, and one; and a rejected call
    takes nothing, so that the bucket holds what it would be seen to hold without the call. -/
theorem bucket_bounds (c : RateLimiterConfig) {start : ℚ} {events : List Event}
    (hm : ∀ e ∈ events, e.call.Metered) (ho : Ordered start events) :
    Bounded c ((new c start).run c events) ∧
    (∀ a w : ℚ, 0 ≤ w → grantedWithin c a (a + w) (new c start) events ≤
      c.maxTokens + ⌊w * c.refillRate / c.refillIntervalMs⌋ + 1) ∧
    ∀ k now : ℚ, (((new c start).run c events).tryConsume c k now).1 = false →
      (((new c start).run c events).tryConsume c k now).2 =
        (((new c start).run c events).getTokens c now).2 := by
  refine ⟨run_bounded hm (new_bounded start), fun a w hw => ?_, fun _ _ => tryConsume_rejected⟩
  have hwindow := grantedWithin_le (c := c) (a := a) hm (new_bounded start) (le_refl start)
    (le_add_of_nonneg_right hw) ho
  rwa [add_sub_cancel_left, accrued, div_mul_eq_mul_div] at hwindow

/-- Ten tokens, and ten more every second. -/
def perSecond : RateLimiterConfig := ⟨10, 10, 1000, by norm_num, by norm_num, by norm_num⟩

theorem bucket_bounds_perSecond :
    grantedWithin perSecond 0 (0 + 100) (new perSecond 0) [⟨0, .tryConsume 10⟩, ⟨100, .tryConsume 1⟩] ≤
      10 + ⌊(100 : ℚ) * 10 / 1000⌋ + 1 :=
  (bucket_bounds perSecond (by simp [Call.Metered]) (by simp [Ordered])).2.1 0 100 (by norm_num)

/-- An empty bucket rejects five tokens after a tenth of a second, and holds one. -/
theorem rejected_call_refills :
    (((new perSecond 0).run perSecond [⟨0, .tryConsume 10⟩]).tryConsume perSecond 5 100).1 = false ∧
      (((new perSecond 0).run perSecond [⟨0, .tryConsume 10⟩]).tryConsume perSecond 5 100).2.tokens ≠
        ((new perSecond 0).run perSecond [⟨0, .tryConsume 10⟩]).tokens := by
  have hfirst : (new perSecond 0).run perSecond [⟨0, .tryConsume 10⟩] = ⟨0, 0⟩ := by
    norm_num [run, exec, tryConsume, refill, new, perSecond]
  have hsecond : refill perSecond 100 ⟨0, 0⟩ = ⟨1, 100⟩ := by
    norm_num [refill, perSecond]
  rw [hfirst, tryConsume, hsecond]
  norm_num

end TokenBucketRateLimiter

end RateLimiter
