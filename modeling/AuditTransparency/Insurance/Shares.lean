/-
  ParametricInsurance — the shares of the underwriters of a pool.

  A contribution is booked for the pool and for its underwriter.  The share that is written
  down is the part of this contribution in the capital after it: earlier contributions of the
  underwriter are left out, and the shares of the others stay as they were.

  * `shared`: what a contribution leaves;
  * `booked_of_run`: the contributions add up to the capital of the pool;
  * `Proportional.whole`: shares in proportion to them do not exceed the whole;
  * `run_proportional_iff`: the shares are in proportion exactly after one contribution.
-/
import AuditTransparency.Insurance.Pools

namespace ParametricInsurance

open Soroban
open Soroban.Call
open AuditLedger (openEnv account)

variable {s₀ s s' : State} {env : Env} {a u : Address} {p n m total : ℕ} {y : CapitalPool}
  {tr : List (State × (Env × Op))}

/-- What an underwriter has contributed to a pool. -/
def contributedBy (s : State) (p : ℕ) (u : Address) : ℕ :=
  (s.inst .poolShare (u, p)).elim 0 (·.capitalContributed)

/-- The share of an underwriter in a pool. -/
def shareOf (s : State) (p : ℕ) (u : Address) : ℕ := (s.inst .poolShare (u, p)).elim 0 (·.shareBps)

/-- The contributions are booked. -/
def Booked (s : State) (p : ℕ) : Prop := ∀ y ∈ s.inst .capitalPool p, SumsTo (contributedBy s p) y.totalCapital

/-- **Every share is in proportion to what was contributed**, rounded down, and together they are at most
    the whole. -/
structure Proportional (s : State) (p : ℕ) : Prop where
  share : ∀ y ∈ s.inst .capitalPool p, ∀ u, ∀ z ∈ s.inst .poolShare (u, p),
    z.shareBps = z.capitalContributed * 10000 / y.totalCapital
  whole : ∃ sum ≤ 10000, SumsTo (shareOf s p) sum

/-- A pool to which nothing was contributed yet. -/
structure FreshPool (s : State) (p : ℕ) : Prop where
  pool : ∃ y, s.inst .capitalPool p = some y ∧ y.totalCapital = 0
  unshared : ∀ u, s.inst .poolShare (u, p) = none

/-- All the capital of the pool is from one underwriter. -/
structure SoleUnderwriter (s : State) (p : ℕ) (u : Address) (total : ℕ) : Prop where
  pool : ∃ y, s.inst .capitalPool p = some y ∧ y.totalCapital = total
  share : ∃ z, s.inst .poolShare (u, p) = some z ∧ z.capitalContributed = total ∧ z.shareBps = 10000
  others : ∀ v, v ≠ u → s.inst .poolShare (v, p) = none

/-! ## Contributions -/

/-- What a contribution leaves. -/
theorem shared (h : (contributeToPool a p n).run env s = .ok ((), s')) :
    ∃ y z, s.inst .capitalPool p = some y ∧
      z.capitalContributed = contributedBy s p a + n ∧
      z.shareBps = (if 0 < y.totalCapital then n * 10000 / (y.totalCapital + n) else 10000) ∧
      s' = (s.put .capitalPool p { y with
        totalCapital := y.totalCapital + n
        availableCapital := y.availableCapital + n }).put .poolShare (a, p) z := by
  refine Post.of_run (m := contributeToPool a p n) (Q := fun _ s' => ∃ y z,
    s.inst .capitalPool p = some y ∧ z.capitalContributed = contributedBy s p a + n ∧
      z.shareBps = (if 0 < y.totalCapital then n * 10000 / (y.totalCapital + n) else 10000) ∧
      s' = (s.put .capitalPool p { y with
        totalCapital := y.totalCapital + n
        availableCapital := y.availableCapital + n }).put .poolShare (a, p) z) ?_ h
  simp only [contributeToPool, post_bind, post_getPoolOrPanic, post_addChecked, post_ite, post_subChecked,
    post_mulChecked, post_divChecked, post_pure, post_load, post_store]
  intro y hy _ _
  have hold : ((s.inst .poolShare (a, p)).getD ⟨a, p, 0, 0, 0, 0, 0⟩).capitalContributed =
      contributedBy s p a := by
    unfold contributedBy
    cases s.inst .poolShare (a, p) <;> rfl
  refine ⟨fun hpos _ _ _ _ => ⟨y, _, hy, ?_, ?_, rfl⟩, fun hzero _ => ⟨y, _, hy, ?_, ?_, rfl⟩⟩
  · rw [hold]
  · rw [if_pos hpos, Nat.add_sub_cancel_left]
  · rw [hold]
  · rw [if_neg hzero]

/-- A contribution to the pool. -/
def Contributes (p : ℕ) (q : State × (Env × Op)) : Prop := ∃ a n, 0 < n ∧ q.2.2 = .contributeToPool a p n

theorem shared_of_step {c : Env × Op} (hc : Contributes p (s, c)) (h : Steps exec s c s') :
    ∃ a n y z, 0 < n ∧ s.inst .capitalPool p = some y ∧
      z.capitalContributed = contributedBy s p a + n ∧
      z.shareBps = (if 0 < y.totalCapital then n * 10000 / (y.totalCapital + n) else 10000) ∧
      s'.inst .capitalPool = Function.update (s.inst .capitalPool) p (some { y with
        totalCapital := y.totalCapital + n
        availableCapital := y.availableCapital + n }) ∧
      s'.inst .poolShare = Function.update (s.inst .poolShare) (a, p) (some z) := by
  obtain ⟨a, n, hn, hop⟩ := hc
  obtain ⟨env, op⟩ := c
  obtain rfl : op = .contributeToPool a p n := hop
  obtain ⟨r, hr⟩ := h
  obtain ⟨_, hr, -⟩ := of_run_map _ _ hr
  obtain ⟨y, z, hy, hcontributed, hshare, rfl⟩ := shared hr
  exact ⟨a, n, y, z, hn, hy, hcontributed, hshare, rfl, rfl⟩

/-! ## The capital of the pool -/

theorem FreshPool.booked (h : FreshPool s p) : Booked s p := by
  intro y hy
  obtain ⟨y', hy', hzero⟩ := h.pool
  obtain rfl := Option.some.inj (hy'.symm.trans hy)
  rw [hzero]
  refine sumsTo_zero ?_
  intro u
  rw [contributedBy, h.unshared u]
  rfl

/-- A contribution is booked. -/
theorem Booked.contribute {c : Env × Op} (h : Booked s p) (hc : Contributes p (s, c)) (hs : Steps exec s c s') :
    Booked s' p := by
  obtain ⟨a, n, y, z, -, hy, hcontributed, -, hpool, hshares⟩ := shared_of_step hc hs
  intro y' hy'
  rw [hpool, Function.update_self] at hy'
  obtain rfl := Option.some.inj hy'
  have hself : contributedBy s' p a = contributedBy s p a + n := by
    rw [contributedBy, hshares, Function.update_self]
    exact hcontributed
  have hother : ∀ u, u ≠ a → contributedBy s' p u = contributedBy s p u := by
    intro u hu
    rw [contributedBy, hshares, Function.update_of_ne fun e => hu (Prod.mk.inj e).1]
    rfl
  refine ((h y hy).change hother).2 ?_
  show y.totalCapital + n + contributedBy s p a = y.totalCapital + contributedBy s' p a
  omega

/-- **The contributions add up to the capital of the pool**, after any run of contributions. -/
theorem booked_of_run (h₀ : FreshPool s₀ p) (h : Run (Steps exec) s₀ tr s) (hc : ∀ q ∈ tr, Contributes p q) :
    Booked s p :=
  h.invariant (C := fun s c => Contributes p (s, c)) (I := fun s => Booked s p) h₀.booked
    (fun _ _ _ hc hs hb => hb.contribute hc hs) hc

/-- Shares in proportion to the contributions do not exceed the whole. -/
theorem Proportional.of_share (hb : Booked s p) (hy : s.inst .capitalPool p = some y)
    (h : ∀ u, ∀ z ∈ s.inst .poolShare (u, p), z.shareBps = z.capitalContributed * 10000 / y.totalCapital) :
    Proportional s p := by
  have hshare : ∀ u, contributedBy s p u * 10000 / y.totalCapital = shareOf s p u := by
    intro u
    rw [contributedBy, shareOf]
    rcases hz : s.inst .poolShare (u, p) with _ | z
    · rw [Option.elim_none, Option.elim_none, Nat.zero_mul, Nat.zero_div]
    · exact (h u z hz).symm
  obtain ⟨sum, hle, hsum⟩ := (hb y hy).shares 10000
  refine ⟨?_, sum, hle, hsum.congr hshare⟩
  intro y' hy'
  obtain rfl := Option.some.inj (hy.symm.trans hy')
  exact h

/-! ## The shares -/

theorem FreshPool.proportional (h : FreshPool s p) : Proportional s p := by
  obtain ⟨y, hy, -⟩ := h.pool
  refine .of_share h.booked hy ?_
  intro u z hz
  rw [h.unshared u] at hz
  cases hz

/-- The first contribution. -/
theorem FreshPool.contribute {c : Env × Op} (h : FreshPool s p) (hc : Contributes p (s, c))
    (hs : Steps exec s c s') : ∃ u total, 0 < total ∧ SoleUnderwriter s' p u total := by
  obtain ⟨a, n, y, z, hn, hy, hcontributed, hshare, hpool, hshares⟩ := shared_of_step hc hs
  obtain ⟨y', hy', hzero⟩ := h.pool
  obtain rfl := Option.some.inj (hy.symm.trans hy')
  rw [contributedBy, h.unshared a, Option.elim_none, Nat.zero_add] at hcontributed
  rw [hzero, if_neg (Nat.lt_irrefl 0)] at hshare
  refine ⟨a, n, hn, ⟨_, by rw [hpool, Function.update_self], ?_⟩, ⟨z, ?_, hcontributed, hshare⟩, fun v hv => ?_⟩
  · show y.totalCapital + n = n
    rw [hzero, Nat.zero_add]
  · rw [hshares, Function.update_self]
  · rw [hshares, Function.update_of_ne fun e => hv (Prod.mk.inj e).1, h.unshared v]

theorem SoleUnderwriter.proportional (h : SoleUnderwriter s p u total) (hb : Booked s p) (htotal : 0 < total) :
    Proportional s p := by
  obtain ⟨y, hy, rfl⟩ := h.pool
  obtain ⟨z, hz, hcontributed, hshare⟩ := h.share
  refine .of_share hb hy ?_
  intro v z' hz'
  by_cases hv : v = u
  · subst hv
    obtain rfl := Option.some.inj (hz.symm.trans hz')
    rw [hshare, hcontributed, Nat.mul_div_cancel_left _ htotal]
  · rw [h.others v hv] at hz'
    cases hz'

/-- A part of the capital is less than all of it. -/
theorem part_lt {k n : ℕ} (hn : n < k) : n * 10000 / k < 10000 := by
  refine Nat.div_lt_of_lt_mul ?_
  rw [Nat.mul_comm]
  omega

/-- **The second contribution puts the shares out of proportion**: the share of the first underwriter is still
    the whole, or less than the whole where he has contributed twice. -/
theorem SoleUnderwriter.not_proportional {c : Env × Op} (h : SoleUnderwriter s p u total) (htotal : 0 < total)
    (hc : Contributes p (s, c)) (hs : Steps exec s c s') : ¬Proportional s' p := by
  obtain ⟨a, n, y, z, hn, hy, hcontributed, hshare, hpool, hshares⟩ := shared_of_step hc hs
  obtain ⟨y', hy', rfl⟩ := h.pool
  obtain rfl := Option.some.inj (hy.symm.trans hy')
  obtain ⟨z', hz', hall, hwhole⟩ := h.share
  intro hprop
  have hprop' := hprop.share _ (by rw [hpool, Function.update_self]; rfl) u
  by_cases hu : u = a
  · subst hu
    have hz := hprop' z (by rw [hshares, Function.update_self]; rfl)
    rw [contributedBy, hz', Option.elim_some, hall] at hcontributed
    rw [hcontributed, hshare, if_pos htotal, Nat.mul_div_cancel_left _ (Nat.add_pos_left htotal n)] at hz
    exact (part_lt (Nat.lt_add_of_pos_left htotal)).ne hz
  · have hz := hprop' z' (by rw [hshares, Function.update_of_ne fun e => hu (Prod.mk.inj e).1]; exact hz')
    rw [hwhole, hall] at hz
    exact (part_lt (Nat.lt_add_of_pos_right hn)).ne hz.symm

/-- **The shares are in proportion throughout a run of contributions if and only if** there is at most one. -/
theorem run_proportional_iff (h₀ : FreshPool s₀ p) (h : Run (Steps exec) s₀ tr s)
    (hc : ∀ q ∈ tr, Contributes p q) :
    ((∀ q ∈ tr, Proportional q.1 p) ∧ Proportional s p) ↔ tr.length ≤ 1 := by
  constructor
  · rintro ⟨htr, hlast⟩
    rcases tr with _ | ⟨⟨s₁, c₁⟩, _ | ⟨⟨s₂, c₂⟩, rest⟩⟩
    · exact Nat.zero_le 1
    · exact Nat.le_refl 1
    · obtain ⟨rfl, t, hs₁, hrest⟩ := h.uncons
      obtain ⟨rfl, t, hs₂, hrest⟩ := hrest.uncons
      obtain ⟨u, total, hpos, hsole⟩ := h₀.contribute (hc _ List.mem_cons_self) hs₁
      -- the state after the second contribution
      have hthird : Proportional t p := hrest.start (I := fun s => Proportional s p)
        ⟨fun q hq => htr q (List.mem_cons_of_mem _ (List.mem_cons_of_mem _ hq)), hlast⟩
      exact absurd hthird
        (hsole.not_proportional hpos (hc _ (List.mem_cons_of_mem _ List.mem_cons_self)) hs₂)
  · intro hlen
    rcases tr with _ | ⟨⟨s₁, c₁⟩, _ | ⟨q, rest⟩⟩
    · rw [h.eq_of_nil]
      exact ⟨nofun, h₀.proportional⟩
    · obtain ⟨rfl, t, hs₁, hrest⟩ := h.uncons
      obtain rfl := hrest.eq_of_nil
      obtain ⟨u, total, hpos, hsole⟩ := h₀.contribute (hc _ List.mem_cons_self) hs₁
      refine ⟨?_, hsole.proportional (booked_of_run h₀ h hc) hpos⟩
      rw [List.forall_mem_singleton]
      exact h₀.proportional
    · simp at hlen

/-! ## New pools -/

/-- There are no shares in pools that do not exist. -/
def Unshared (s : State) : Prop := ∀ p, s.inst .capitalPool p = none → ∀ u, s.inst .poolShare (u, p) = none

theorem unshared_of_run (hshares : ∀ k, s₀.inst .poolShare k = none)
    (h : Run (Tries exec) s₀ tr s) : Unshared s := by
  refine h.invariant (C := fun _ _ => True) (fun p _ u => hshares (u, p)) ?_ fun _ _ => trivial
  intro s c s' _ hs hI
  obtain ⟨r, hr, -⟩ | ⟨e, -, -, rfl⟩ := hs.ok_or_error
  · intro p hp u
    have hold : s.inst .capitalPool p = none := by
      by_contra hne
      exact (effect_of_run hr).pool_ne_none hne hp
    obtain ⟨env, op⟩ := c
    have hframe := (exec_writes op).of_run hr
    cases op with
    | contributeToPool a q n =>
      obtain ⟨_, hr, -⟩ := of_run_map _ _ hr
      obtain ⟨y, z, hy, -, -, rfl⟩ := shared hr
      have hne : (u, p) ≠ (a, q) := by
        intro e
        obtain ⟨-, rfl⟩ := Prod.mk.inj e
        exact Option.some_ne_none y (hy.symm.trans hold)
      exact (Function.update_of_ne hne ..).trans (hI p hold u)
    | _ => rw [hframe.inst (notMem_of_eval rfl), hI p hold u]
  · exact hI

/-- **A pool is fresh when it is created.** -/
theorem freshPool_of_created (h₀ : NoPools s₀) (hshares : ∀ k, s₀.inst .poolShare k = none)
    (h : Run (Tries exec) s₀ tr s) (hr : (createCapitalPool a n m).run env s = .ok (p, s')) :
    FreshPool s' p := by
  have hid : p = nextPoolId s := by
    refine Post.of_run (m := createCapitalPool a n m) (Q := fun p _ => p = nextPoolId s) ?_ hr
    simp only [createCapitalPool, getNextPoolId, post_bind, post_requireAuth, post_load, post_addChecked,
      post_store, post_pure]
    intro _ _
    rfl
  obtain rfl := created hr
  subst hid
  refine ⟨⟨_, Function.update_self .., rfl⟩, ?_⟩
  intro u
  exact unshared_of_run hshares h _ ((kept_of_run h₀ h).unusedPool _ le_rfl) u

/-! ## Scripts -/

/-- A pool without capital. -/
def opened : State := attempt exec selling [(openEnv 0, .createCapitalPool (account 66) 100 5000)]

theorem freshPool_opened : FreshPool opened 0 := by
  have hcreated : (createCapitalPool (account 66) 100 5000).run (openEnv 0) selling = .ok (0, opened) := rfl
  exact freshPool_of_created selling_noPools (fun _ => rfl) .init hcreated

/-- A contribution of 100. -/
def contribution (c : UInt8) : Env × Op := (openEnv 1, .contributeToPool (account c) 0 100)

theorem contributes_of_play {l : List UInt8} (h : play exec opened (l.map contribution) = some s) :
    ∀ q ∈ traceOf exec opened (l.map contribution), Contributes 0 q := by
  intro q hq
  have hmem : q.2 ∈ l.map contribution := map_snd_traceOf h ▸ List.mem_map_of_mem hq
  obtain ⟨c, -, hc⟩ := List.mem_map.1 hmem
  exact ⟨account c, 100, by decide, by rw [← hc, contribution]⟩

theorem run_proportional_iff_single :
    ∃ s, play exec opened ([67].map contribution) = some s ∧ Proportional s 0 := by
  obtain ⟨s, hs⟩ : ∃ s, play exec opened ([67].map contribution) = some s :=
    Option.isSome_iff_exists.1 (by decide)
  have hlen : (traceOf exec opened ([67].map contribution)).length = 1 := by
    rw [← List.length_map Prod.snd, map_snd_traceOf hs]
    rfl
  exact ⟨s, hs, ((run_proportional_iff freshPool_opened (run_of_play hs) (contributes_of_play hs)).2 hlen.le).2⟩

/-- **After equal contributions of two underwriters** the shares are the whole and a half. -/
theorem shares_exceed_whole :
    ∃ s, play exec opened ([67, 68].map contribution) = some s ∧ shareOf s 0 (account 67) = 10000 ∧
      shareOf s 0 (account 68) = 5000 ∧ ¬Proportional s 0 := by
  have hshares : ∀ s ∈ play exec opened ([67, 68].map contribution),
      shareOf s 0 (account 67) = 10000 ∧ shareOf s 0 (account 68) = 5000 ∧
        ¬∀ y ∈ s.inst .capitalPool 0, ∀ z ∈ s.inst .poolShare (account 67, 0),
          z.shareBps = z.capitalContributed * 10000 / y.totalCapital := by
    decide
  obtain ⟨s, hs⟩ : ∃ s, play exec opened ([67, 68].map contribution) = some s :=
    Option.isSome_iff_exists.1 (by decide)
  obtain ⟨hfirst, hsecond, hno⟩ := hshares s hs
  exact ⟨s, hs, hfirst, hsecond, fun h => hno fun y hy => h.share y hy (account 67)⟩

end ParametricInsurance
