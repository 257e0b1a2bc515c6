/-
  PrivacyPreservingAnalytics — rounds of federated learning.

  A round has an id of its own, counts every participant once, is aggregated when it has
  enough of them, and stays as it was aggregated (`RoundsSound`).  Submissions look at
  the status of the round, the aggregation does not: it can be made again, with other
  weights.

  * `Moves`: all that a step can do to a round;
  * `counted_of_run`: ids, counts and the minimum are right in every run;
  * `history_rounds`: exactly when aggregated rounds stay as they are, too.
-/
import AuditTransparency.Privacy.Contract
import AuditTransparency.Ledger.Contract
import Mathlib.Data.Set.Card

namespace PrivacyAnalytics

open Soroban
open Soroban.Call
open AuditLedger (openEnv account)

variable {D : Type} [DecidableEq D]

/-- The participants with a stored gradient. -/
def participants (s : State D) (r : ℕ) : Set Address := {a | (s.inst .flGradient (r, a)).isSome}

/-- The id of the next round. -/
def nextRound (s : State D) : ℕ := (s.inst .nextRoundId ()).getD 1

/-- The ids that the steps of a trace have assigned. -/
def assigned (tr : List (State D × (Env × Op D))) : List ℕ :=
  tr.filterMap fun p =>
    match p.2.2 with
    | .startFlRound .. => some (nextRound p.1)
    | _ => none

/-- A round that is aggregated in `s` is aggregated in `s'`, with the same gradients and weights. -/
def StaysClosed (r : ℕ) (s s' : State D) : Prop :=
  ∀ x ∈ s.inst .flRound r, x.status = "aggregated" → participants s' r = participants s r ∧
    ∃ y ∈ s'.inst .flRound r, y.status = "aggregated" ∧ y.globalWeightsHash = x.globalWeightsHash

/-- What rounds promise, after the steps of a trace. -/
structure RoundsSound (tr : List (State D × (Env × Op D))) (s : State D) : Prop where
  ids : (assigned tr).Nodup
  count : ∀ r, ∀ x ∈ s.inst .flRound r, (x.participantCount : ℕ∞) = (participants s r).encard
  minimum : ∀ r, ∀ x ∈ s.inst .flRound r, x.status = "aggregated" → x.minParticipants ≤ x.participantCount
  closed : ∀ p ∈ tr, ∀ r, StaysClosed r p.1 s

/-- A round is aggregated again with the weights it has, if at all. -/
def SameWeights (s : State D) : Op D → Prop
  | .aggregateFlRound _ r h => ∀ x ∈ s.inst .flRound r, x.status = "aggregated" → h = x.globalWeightsHash
  | _ => True

instance SameWeights.decidable (s : State D) : (op : Op D) → Decidable (SameWeights s op)
  | .aggregateFlRound _ r h => inferInstanceAs (Decidable (∀ x ∈ s.inst .flRound r,
    x.status = "aggregated" → h = x.globalWeightsHash))
  | .executeDpQuery .. | .startFlRound .. | .submitFlGradient .. | .createSmpcSession ..
  | .submitSmpcCommitment .. | .finalizeSmpcSession .. | .recordHomomorphicMetric .. =>
    inferInstanceAs (Decidable True)

/-! ## Effects -/

section
variable {zeros : D} {env : Env} {s s' : State D} {a : Address} {i r n : ℕ} {m : Symbol} {d : D}
  {p : Env × Op D} {tr : List (State D × (Env × Op D))}

/-- What starting a round returns and leaves. -/
theorem started (h : (startFlRound a m n d).run env s = .ok (r, s')) :
    r = nextRound s ∧ s' = (s.put .flRound (nextRound s)
      ⟨nextRound s, m, d, n, 0, "open", env.timestamp⟩).put .nextRoundId () (nextRound s + 1) := by
  refine Post.of_run (m := startFlRound a m n d) (Q := fun r s' => r = nextRound s ∧
    s' = (s.put .flRound (nextRound s) ⟨nextRound s, m, d, n, 0, "open", env.timestamp⟩).put
      .nextRoundId () (nextRound s + 1)) ?_ h
  simp only [startFlRound, post_bind, post_requireAuth, post_load, post_getEnv, post_store,
    post_addChecked, post_pure]
  intro _ _
  exact ⟨rfl, rfl⟩

/-- What a gradient leaves. -/
theorem gradientSubmitted (h : (submitFlGradient a i d n).run env s = .ok ((), s')) :
    ∃ x, s.inst .flRound i = some x ∧ x.status = "open" ∧ s.inst .flGradient (i, a) = none ∧
      s' = (s.put .flGradient (i, a) ⟨i, a, d, n, env.timestamp⟩).put .flRound i
        { x with participantCount := x.participantCount + 1 } := by
  refine Post.of_run (m := submitFlGradient a i d n) (Q := fun _ s' => ∃ x, s.inst .flRound i = some x ∧
    x.status = "open" ∧ s.inst .flGradient (i, a) = none ∧
      s' = (s.put .flGradient (i, a) ⟨i, a, d, n, env.timestamp⟩).put .flRound i
        { x with participantCount := x.participantCount + 1 }) ?_ h
  simp only [submitFlGradient, post_bind, post_requireAuth, post_load, post_unwrapOr, post_rejectIf,
    post_getEnv, post_store, post_addChecked, not_not, Bool.not_eq_true, Option.isSome_eq_false_iff,
    Option.isNone_iff_eq_none]
  intro _ x hx hopen hnone _
  exact ⟨x, hx, hopen, hnone, rfl⟩

/-- What an aggregation leaves. -/
theorem aggregated (h : (aggregateFlRound a i d).run env s = .ok ((), s')) :
    ∃ x, s.inst .flRound i = some x ∧ x.minParticipants ≤ x.participantCount ∧
      s' = s.put .flRound i { x with globalWeightsHash := d, status := "aggregated" } := by
  refine Post.of_run (m := aggregateFlRound a i d) (Q := fun _ s' => ∃ x, s.inst .flRound i = some x ∧
    x.minParticipants ≤ x.participantCount ∧
      s' = s.put .flRound i { x with globalWeightsHash := d, status := "aggregated" }) ?_ h
  simp only [aggregateFlRound, post_bind, post_requireAuth, post_load, post_unwrapOr, post_rejectIf,
    post_store, not_lt]
  intro _ x hx hmin
  exact ⟨x, hx, hmin, rfl⟩

/-- How an operation moves a round. -/
inductive Moves (s : State D) (r : ℕ) (s' : State D) : Op D → Prop
  | same {op} : s'.inst .flRound r = s.inst .flRound r → participants s' r = participants s r →
      Moves s r s' op
  | start {a m n d x} : r = nextRound s → nextRound s' = nextRound s + 1 → s'.inst .flRound r = some x →
      x.participantCount = 0 → x.status = "open" → participants s' r = participants s r →
      Moves s r s' (.startFlRound a m n d)
  | submit {a d n x} : s.inst .flRound r = some x → x.status = "open" → a ∉ participants s r →
      s'.inst .flRound r = some { x with participantCount := x.participantCount + 1 } →
      participants s' r = insert a (participants s r) → Moves s r s' (.submitFlGradient a r d n)
  | aggregate {a d x} : s.inst .flRound r = some x → x.minParticipants ≤ x.participantCount →
      s'.inst .flRound r = some { x with globalWeightsHash := d, status := "aggregated" } →
      participants s' r = participants s r → Moves s r s' (.aggregateFlRound a r d)

theorem participants_congr (h : s'.inst .flGradient = s.inst .flGradient) :
    participants s' r = participants s r := by
  rw [participants, participants, h]

/-- **Every step moves a round in one of these ways.** -/
theorem moves (hs : Steps (exec zeros) s p s') (r : ℕ) : Moves s r s' p.2 := by
  obtain ⟨env, op⟩ := p
  obtain ⟨_, hs⟩ := hs
  have hframe := (exec_writes zeros op).of_run hs
  cases op with
  | startFlRound a m n d =>
    obtain ⟨_, hr, -⟩ := of_run_map _ _ hs
    obtain ⟨-, hs'⟩ := started hr
    have hp := participants_congr (r := r) (hframe.inst (f := .flGradient) (by simp))
    have hround : s'.inst .flRound = Function.update (s.inst .flRound) (nextRound s)
        (some ⟨nextRound s, m, d, n, 0, "open", env.timestamp⟩) := by
      rw [hs', Ledger.put_inst, Store.set_ne, Ledger.put_inst, Store.set_same]
      nofun
    by_cases hr : r = nextRound s
    · refine .start hr ?_ (by rw [hround, hr, Function.update_self]) rfl rfl hp
      rw [hs', nextRound, Ledger.put_inst, Store.set_same, Function.update_self, Option.getD_some]
    · exact .same (by rw [hround, Function.update_of_ne hr]) hp
  | submitFlGradient a i d n =>
    obtain ⟨_, hr, -⟩ := of_run_map _ _ hs
    obtain ⟨x, hx, hopen, hnone, hs'⟩ := gradientSubmitted hr
    have hgrad : s'.inst .flGradient = Function.update (s.inst .flGradient) (i, a)
        (some ⟨i, a, d, n, env.timestamp⟩) := by
      rw [hs', Ledger.put_inst, Store.set_ne, Ledger.put_inst, Store.set_same]
      nofun
    have hround : s'.inst .flRound = Function.update (s.inst .flRound) i
        (some { x with participantCount := x.participantCount + 1 }) := by
      rw [hs', Ledger.put_inst, Store.set_same, Ledger.put_inst, Store.set_ne]
      nofun
    by_cases hi : r = i
    · subst hi
      refine .submit hx hopen ?_ (by rw [hround, Function.update_self]) ?_
      · rw [participants, Set.mem_ofPred_eq, hnone]
        nofun
      · ext b
        rw [Set.mem_insert_iff, participants, participants, Set.mem_ofPred_eq, Set.mem_ofPred_eq, hgrad,
          Function.update_apply]
        by_cases hb : b = a <;> simp [hb]
    · refine .same (by rw [hround, Function.update_of_ne hi]) ?_
      ext b
      rw [participants, participants, Set.mem_ofPred_eq, Set.mem_ofPred_eq, hgrad,
        Function.update_of_ne (by rintro ⟨⟩; exact hi rfl)]
  | aggregateFlRound a i d =>
    obtain ⟨_, hr, -⟩ := of_run_map _ _ hs
    obtain ⟨x, hx, hmin, hs'⟩ := aggregated hr
    have hp := participants_congr (r := r) (hframe.inst (f := .flGradient) (by simp))
    have hround : s'.inst .flRound = Function.update (s.inst .flRound) i
        (some { x with globalWeightsHash := d, status := "aggregated" }) := by
      rw [hs', Ledger.put_inst, Store.set_same]
    by_cases hi : r = i
    · subst hi
      exact .aggregate hx hmin (by rw [hround, Function.update_self]) hp
    · exact .same (by rw [hround, Function.update_of_ne hi]) hp
  | _ => exact .same (by rw [hframe.inst (notMem_of_eval rfl)]) (participants_congr (hframe.inst (notMem_of_eval rfl)))

/-- An id is assigned by starting a round, and the next one is larger. -/
theorem assigned_concat (hs : Steps (exec zeros) s p s') :
    (assigned (tr ++ [(s, p)]) = assigned tr ∧ nextRound s' = nextRound s) ∨
      (assigned (tr ++ [(s, p)]) = assigned tr ++ [nextRound s] ∧ nextRound s' = nextRound s + 1) := by
  obtain ⟨env, op⟩ := p
  obtain ⟨_, hs⟩ := hs
  have hframe := (exec_writes zeros op).of_run hs
  rw [assigned, List.filterMap_append]
  cases op with
  | startFlRound a m n d =>
    obtain ⟨_, hr, -⟩ := of_run_map _ _ hs
    refine .inr ⟨rfl, ?_⟩
    rw [(started hr).2, nextRound, Ledger.put_inst, Store.set_same, Function.update_self,
      Option.getD_some]
  | _ => exact .inl ⟨List.append_nil _, by rw [nextRound, nextRound, hframe.inst (notMem_of_eval rfl)]⟩

/-! ## Runs -/

/-- What holds of the rounds in every run. -/
structure Counted (tr : List (State D × (Env × Op D))) (s : State D) : Prop where
  ids : (assigned tr).Nodup
  below : ∀ r ∈ assigned tr, r < nextRound s
  unused : ∀ r, nextRound s ≤ r → s.inst .flRound r = none
  unknown : ∀ r, s.inst .flRound r = none → participants s r = ∅
  count : ∀ r, ∀ x ∈ s.inst .flRound r, (x.participantCount : ℕ∞) = (participants s r).encard
  minimum : ∀ r, ∀ x ∈ s.inst .flRound r, x.status = "aggregated" → x.minParticipants ≤ x.participantCount

theorem Counted.step (h : Counted tr s) (hs : Steps (exec zeros) s p s') :
    Counted (tr ++ [(s, p)]) s' := by
  have hmove := moves hs
  generalize p.2 = op at hmove
  have hnext : nextRound s ≤ nextRound s' := by
    obtain h' | h' : (assigned (tr ++ [(s, p)]) = assigned tr ∧ _) ∨ _ := assigned_concat hs
    · exact h'.2.ge
    · exact (Nat.le_succ _).trans h'.2.ge
  refine ⟨?_, ?_, ?_, ?_, ?_, ?_⟩
  · rcases assigned_concat hs with ⟨he, -⟩ | ⟨he, -⟩
    · rw [he]
      exact h.ids
    · rw [he, List.nodup_append]
      refine ⟨h.ids, List.nodup_singleton _, fun r hr j hj => ?_⟩
      rw [List.mem_singleton.1 hj]
      exact Nat.ne_of_lt (h.below r hr)
  · rcases assigned_concat hs with ⟨he, hn⟩ | ⟨he, hn⟩
    · rw [he, hn]
      exact h.below
    · rw [he, hn]
      simp only [List.forall_mem_append, List.forall_mem_singleton]
      exact ⟨fun r hr => Nat.lt_succ_of_lt (h.below r hr), Nat.lt_succ_self _⟩
  · intro r hr
    have hnone := h.unused r (hnext.trans hr)
    cases hmove r with
    | same hx hp => rw [hx, hnone]
    | start hi hn hx hc ho hp => omega
    | submit hx ho ha hx' hp | aggregate hx hmin hx' hp => rw [hnone] at hx; cases hx
  · intro r hr
    cases hmove r with
    | same hx hp => rw [hp]; exact h.unknown r (hx ▸ hr)
    | start hi hn hx hc ho hp => rw [hr] at hx; cases hx
    | submit hx ho ha hx' hp | aggregate hx hmin hx' hp => rw [hr] at hx'; cases hx'
  · intro r y hy
    cases hmove r with
    | same hx hp => rw [hp]; exact h.count r y (hx ▸ hy)
    | start hi hn hx hc ho hp =>
      obtain rfl := Option.some.inj (hx.symm.trans hy)
      rw [hp, h.unknown r (h.unused r hi.ge), hc, Set.encard_empty, Nat.cast_zero]
    | submit hx ho ha hx' hp =>
      obtain rfl := Option.some.inj (hx'.symm.trans hy)
      rw [hp, Set.encard_insert_of_notMem ha, ← h.count r _ hx, Nat.cast_succ]
    | aggregate hx hmin hx' hp =>
      obtain rfl := Option.some.inj (hx'.symm.trans hy)
      rw [hp, ← h.count r _ hx]
  · intro r y hy hc
    cases hmove r with
    | same hx hp => exact h.minimum r y (hx ▸ hy) hc
    | start hi hn hx hc' ho hp =>
      obtain rfl := Option.some.inj (hx.symm.trans hy)
      rw [ho] at hc
      exact absurd hc (by decide)
    | submit hx ho ha hx' hp =>
      obtain rfl := Option.some.inj (hx'.symm.trans hy)
      exact absurd (ho.symm.trans hc) (by decide)
    | aggregate hx hmin hx' hp =>
      obtain rfl := Option.some.inj (hx'.symm.trans hy)
      exact hmin

/-- **Ids are not reused, every participant is counted once, and an aggregated round has enough.** -/
theorem counted_of_run {s₀ : State D} (h₀ : Fresh s₀) (h : Run (Steps (exec zeros)) s₀ tr s) :
    Counted tr s := by
  induction h with
  | init =>
    have hround : ∀ r, s₀.inst .flRound r = none := h₀.eq_none (f := .flRound) (by decide)
    refine ⟨List.nodup_nil, nofun, fun r _ => hround r, fun r _ => ?_, fun r => ?_, fun r => ?_⟩
    · ext a
      simp [participants, h₀.eq_none (f := .flGradient) (by decide) (r, a)]
    · simp [hround]
    · simp [hround]
  | snoc _ hs ih => exact ih.step hs

theorem StaysClosed.trans {s'' : State D} (h : StaysClosed r s s') (h' : StaysClosed r s' s'') :
    StaysClosed r s s'' := by
  intro x hx hc
  obtain ⟨hp, y, hy, hyc, hyh⟩ := h x hx hc
  obtain ⟨hp', z, hz, hzc, hzh⟩ := h' y hy hyc
  exact ⟨hp'.trans hp, z, hz, hzc, hzh.trans hyh⟩

/-- **A step leaves the aggregated rounds as they are exactly when it keeps their weights.** -/
theorem staysClosed_iff (h : Counted tr s) (hs : Steps (exec zeros) s p s') :
    (∀ r, StaysClosed r s s') ↔ SameWeights s p.2 := by
  have hmove := moves hs
  obtain ⟨env, op⟩ := p
  constructor
  · intro hclosed
    cases op with
    | aggregateFlRound a i d =>
      intro x hx hc
      obtain ⟨-, y, hy, -, hyh⟩ := hclosed i x hx hc
      obtain ⟨_, hs⟩ := hs
      obtain ⟨_, hr, -⟩ := of_run_map _ _ hs
      obtain ⟨_, -, -, hs'⟩ := aggregated hr
      rw [hs', Ledger.put_inst, Store.set_same, Function.update_self] at hy
      obtain rfl := Option.some.inj hy
      exact hyh
    | _ => trivial
  · intro hsame r x hx hc
    cases hmove r with
    | same hx' hp => exact ⟨hp, x, hx' ▸ hx, hc, rfl⟩
    | start hi => rw [h.unused r hi.ge] at hx; cases hx
    | submit hx' ho =>
      obtain rfl := Option.some.inj (hx'.symm.trans hx)
      exact absurd (ho.symm.trans hc) (by decide)
    | aggregate hx₀ hmin hx' hp =>
      obtain rfl := Option.some.inj (hx₀.symm.trans hx)
      exact ⟨hp, _, hx', rfl, hsame _ hx₀ hc⟩

/-- **Rounds keep what they promise throughout a run** if and only if every aggregation of an
    aggregated round carries the weights it has. -/
theorem history_rounds {s₀ : State D} (h₀ : Fresh s₀) (h : Run (Steps (exec zeros)) s₀ tr s) :
    ((∀ before p after, tr = before ++ p :: after → RoundsSound before p.1) ∧ RoundsSound tr s) ↔
      ∀ p ∈ tr, SameWeights p.1 p.2.2 := by
  refine (Run.throughout_iff (I := RoundsSound) (C := fun _ p => SameWeights p.1 p.2.2) ?_ ?_ h).trans
    Run.forall_cut_iff
  · have hinit : Run (Steps (exec zeros)) s₀ [] s₀ := .init
    have hc := counted_of_run h₀ hinit
    exact ⟨hc.ids, hc.count, hc.minimum, nofun⟩
  · intro tr s p s' hr hs hI
    have hc := counted_of_run h₀ hr
    have hc' := hc.step hs
    rw [← staysClosed_iff hc hs]
    constructor
    · intro hI'
      exact hI'.closed (s, p) (by simp)
    · intro hclosed
      refine ⟨hc'.ids, hc'.count, hc'.minimum, ?_⟩
      simp only [List.forall_mem_append, List.forall_mem_singleton]
      exact ⟨fun q hq r => (hI.closed q hq r).trans (hclosed r), hclosed⟩

end

/-! ## Scripts -/

/-- A round for one participant is started, gets its gradient and is aggregated. -/
def roundScript : List (Env × Op Bytes) :=
  [(openEnv 0, .startFlRound (account 65) "model" 1 [1]),
    (openEnv 1, .submitFlGradient (account 66) 1 [2] 100),
    (openEnv 2, .aggregateFlRound (account 65) 1 [3])]

theorem history_rounds_roundScript :
    ∃ tr s, Run (Steps (exec [0])) Ledger.empty tr s ∧ tr.map Prod.snd = roundScript ∧
      ((∀ before p after, tr = before ++ p :: after → RoundsSound before p.1) ∧ RoundsSound tr s) := by
  obtain ⟨s, hs⟩ : ∃ s, play (exec [0]) Ledger.empty roundScript = some s :=
    Option.isSome_iff_exists.1 (by decide)
  refine ⟨_, s, run_of_play hs, map_snd_traceOf hs, ?_⟩
  exact (history_rounds (.inl rfl) (run_of_play hs)).2 (by decide)

/-- The round is aggregated again. -/
def reaggregation : Env × Op Bytes := (openEnv 3, .aggregateFlRound (account 67) 1 [4])

/-- **The weights of an aggregated round can be replaced.** -/
theorem weights_replaced :
    ∃ tr s s' x y, Run (Steps (exec [0])) Ledger.empty (tr ++ [(s, reaggregation)]) s' ∧
      tr.map Prod.snd = roundScript ∧ s.inst .flRound 1 = some x ∧ x.status = "aggregated" ∧
      x.globalWeightsHash = [3] ∧ s'.inst .flRound 1 = some y ∧ y.globalWeightsHash = [4] ∧
      ¬RoundsSound (tr ++ [(s, reaggregation)]) s' := by
  obtain ⟨s, hs⟩ : ∃ s, play (exec [0]) Ledger.empty roundScript = some s :=
    Option.isSome_iff_exists.1 (by decide)
  obtain ⟨s', hs'⟩ : ∃ s, play (exec [0]) Ledger.empty (roundScript ++ [reaggregation]) = some s :=
    Option.isSome_iff_exists.1 (by decide)
  have hround : (play (exec [0]) Ledger.empty roundScript).map (fun s =>
      (s.inst .flRound 1).map fun x => (x.status, x.globalWeightsHash)) =
        some (some ("aggregated", [3])) := by decide
  have hround' : (play (exec [0]) Ledger.empty (roundScript ++ [reaggregation])).map (fun s =>
      (s.inst .flRound 1).map fun x => x.globalWeightsHash) = some (some [4]) := by decide
  rw [hs, Option.map_some, Option.some.injEq, Option.map_eq_some_iff] at hround
  rw [hs', Option.map_some, Option.some.injEq, Option.map_eq_some_iff] at hround'
  obtain ⟨x, hx, hxe⟩ := hround
  obtain ⟨hstatus, hweights⟩ := Prod.mk.inj hxe
  obtain ⟨y, hy, hyw⟩ := hround'
  have hrun := run_of_play hs'
  rw [traceOf_concat hs] at hrun
  refine ⟨_, s, s', x, y, hrun, map_snd_traceOf hs, hx, hstatus, hweights, hy, hyw, fun h => ?_⟩
  obtain ⟨-, z, hz, -, hzw⟩ := h.closed (s, reaggregation) (by simp) 1 x hx hstatus
  obtain rfl := Option.some.inj (hy.symm.trans hz)
  rw [hyw, hweights] at hzw
  exact absurd hzw (by decide)

end PrivacyAnalytics
