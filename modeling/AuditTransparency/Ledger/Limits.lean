/-
  AuditLedger — caps and rate limits.

  The cap of a type is checked against the length of its index, which low-cost mode
  does not extend and compaction removes.  The rate limit of a submitter is checked
  against a count that the single path keeps and a batch only reads.

  * `history_caps`: as long as the index of the type misses no event, no call exceeds
    the cap;
  * `history_rate`: as long as a batch is the last call for its submitters at a
    timestamp, no submitter exceeds its limit there.
-/
import AuditTransparency.Ledger.Indices

namespace AuditLedger

open Soroban
open Soroban.Call hiding hasPers publish

variable {D : Type} [DecidableEq D] {H : Host D} {env : Env} {s s' : State D} {op : Op D}
  {R : List Record} {r : Ret D}

/-! ## Counting in the log -/

/-- A count of events is the count of records. -/
theorem HasLog.length_positions (h : HasLog H s R) (q : Record → Bool) :
    (AuditLedger.positions s (runtimeTotal s) q).length = R.countP q := by
  rw [h.runtimeTotal_eq, h.positions, List.length_findIdxs]

/-- The checks of a batch. -/
theorem batchChecked_of_step (hinj : Function.Injective H.sha256) (hlog : HasLog H s R)
    {items : List (Address × Symbol × Bytes)} (hs : Step H env (.logEvents items) s r s') :
    BatchChecked s env.timestamp items := by
  obtain ⟨L, hL, -⟩ := hlog
  have key : Post (exec H (.logEvents items)) (fun _ s' => ∃ M, Batched H env items s L M s') env s := by
    simp only [exec, post_bind, post_pure]
    exact post_logEvents hinj hL
  obtain ⟨M, hM⟩ := key.of_run hs
  exact hM.checked

/-! ## Caps -/

/-- The step leaves no event of the type out of the index: it logs none in low-cost mode,
    and removes no index that has entries. -/
def Action.keepsTypeIndex (H : Host D) (s : State D) (t : Symbol) : Action D → Bool
  | .call _ (.compactStorage _ l) =>
    ¬(t ∈ l ∧ s.inst .eventCapConfig t = none ∧ packedType s t ≠ [])
  | .call env op => lowCost s = true → (op.adds H env s).all (·.eventType ≠ t)
  | _ => true

/-- The index of the type has an entry for every event of it. -/
def CountedIn (s : State D) (R : List Record) (t : Symbol) : Prop :=
  (packedType s t).length = 4 * R.countP (·.eventType = t)

/-- Compaction removes the indices of the listed types that have no cap. -/
theorem post_compact {l : List Symbol} :
    Post (l.foldlM compactType 0)
      (fun _ s' => ∀ t, packedType s' t =
        if t ∈ l ∧ s.inst .eventCapConfig t = none then [] else packedType s t) env s := by
  let I (done : List Symbol) (_ : ℕ) (s' : State D) : Prop :=
    s'.inst .eventCapConfig = s.inst .eventCapConfig ∧ ∀ t, packedType s' t =
      if t ∈ done ∧ s.inst .eventCapConfig t = none then [] else packedType s t
  refine (post_foldlM I l 0 s [] ⟨rfl, fun t => by simp⟩ ?_).mono fun _ s' h => h.2
  rintro done u rest n s₁ - ⟨hcap, hpacked⟩
  -- the other types are as they were
  have hother : ∀ t, t ≠ u → packedType s₁ t =
      if t ∈ done ++ [u] ∧ s.inst .eventCapConfig t = none then [] else packedType s t := fun t ht => by
    rw [hpacked t]; simp [ht]
  simp only [compactType, post_bind, post_load, post_ite, post_clear, post_pure]
  refine ⟨fun hu => ⟨by simpa using hcap, fun t => ?_⟩, fun hu => ⟨hcap, fun t => ?_⟩⟩
  · by_cases ht : t = u
    · subst ht
      rw [← hcap, if_pos ⟨by simp, Option.isNone_iff_eq_none.1 hu.1⟩]
      simp [packedType]
    · have hsame : packedType (s₁.del .eventTypeIndices u) t = packedType s₁ t := by
        simp [packedType, Function.update_of_ne ht]
      rw [hsame]; exact hother t ht
  · by_cases ht : t = u
    · subst ht
      by_cases hc : s.inst .eventCapConfig t = none
      · -- there was no index to remove
        have hnone : s₁.inst .eventTypeIndices t = none := by simpa [hcap, hc] using hu
        rw [if_pos ⟨by simp, hc⟩, packedType, hnone]; rfl
      · rw [hpacked, if_neg (fun h => hc h.2), if_neg (fun h => hc h.2)]
    · exact hother t ht

theorem step_compact {b : Address} {l : List Symbol} (hs : Step H env (.compactStorage b l) s r s')
    (t : Symbol) :
    packedType s' t = if t ∈ l ∧ s.inst .eventCapConfig t = none then [] else packedType s t := by
  have key : Post (exec H (.compactStorage b l)) (fun _ s' => ∀ t, packedType s' t =
      if t ∈ l ∧ s.inst .eventCapConfig t = none then [] else packedType s t) env s := by
    simp only [exec, compactStorage, post_bind, post_pure, post_publish]
    exact post_reads fun _ _ => post_compact
  exact key.of_run hs t

theorem countedIn_of_entered {A : List Record} {n : ℕ} {t : Symbol} (l : List (ℕ × Bytes))
    (h : CountedIn s R t) (he : Entered s s' n A) (hlow : lowCost s = true → A.countP (·.eventType = t) = 0) :
    CountedIn s' (amendAll R l ++ A) t := by
  rw [CountedIn, he.typeIndex, List.length_append, h, List.countP_append,
    countP_amendAll R l fun _ => rfl]
  rcases hl : lowCost s
  · simp only [Bool.false_eq_true, if_false, length_flatMap_u32ToBytes, List.length_findIdxs]
    omega
  · simp [hlow hl]

/-- A step that leaves no event of the type out of the index keeps it complete. -/
theorem next_countedIn (hinj : Function.Injective H.sha256) {a : Action D} {t : Symbol}
    (hlog : HasLog H s R) (h : CountedIn s R t) (hkeep : a.keepsTypeIndex H s t = true)
    (hn : Next H s a s') : CountedIn s' (a.logAfter H s R) t := by
  cases a with
  | call env op =>
    obtain ⟨r, hs⟩ := hn
    by_cases hop : ∃ b l, op = .compactStorage b l
    · obtain ⟨b, l, rfl⟩ := hop
      have hpacked : packedType s' t = packedType s t := by
        rw [step_compact hs]
        split_ifs with hc
        · -- an index that is removed was empty
          simp only [Action.keepsTypeIndex, decide_eq_true_eq] at hkeep
          by_contra hne
          exact hkeep ⟨hc.1, hc.2, Ne.symm hne⟩
        · rfl
      have hlog' : Action.logAfter H s R (.call env (.compactStorage b l)) = R := List.append_nil R
      rw [hlog', CountedIn, hpacked]
      exact h
    · have hop : ∀ b l, op ≠ .compactStorage b l := fun b l e => hop ⟨b, l, e⟩
      refine countedIn_of_entered _ h (step_entered hinj hlog hs hop) fun hlow => ?_
      have hall : (op.adds H env s).all (·.eventType ≠ t) = true := by
        unfold Action.keepsTypeIndex at hkeep
        split at hkeep
        · next heq => cases heq; exact absurd rfl (hop _ _)
        · next heq => cases heq; exact of_decide_eq_true hkeep hlow
        · next hno => exact absurd rfl (hno env op)
      rw [List.countP_eq_zero]
      intro q hq
      simpa using List.all_eq_true.1 hall q hq
  | expireTemporary f k => rw [Next] at hn; subst hn; exact h
  | expirePersistent f k => rw [Next] at hn; subst hn; exact h

/-- What the checks of the two paths say about the index. -/
theorem step_cap (hinj : Function.Injective H.sha256) {t : Symbol} {c : ℕ} (hlog : HasLog H s R)
    (hs : Step H env op s r s') (hcap : capOf s t = some c)
    (hadds : 0 < (op.adds H env s).countP (·.eventType = t)) :
    (packedType s t).length / 4 + (op.adds H env s).countP (·.eventType = t) ≤ c := by
  rcases hx : op.submission with _ | x
  · obtain ⟨items, rfl⟩ : ∃ items, op = .logEvents items := by
      cases op <;> simp [Op.adds, Op.submission, Op.batch] at hadds hx
      exact ⟨_, rfl⟩
    have hcount : (Op.adds H env s (.logEvents items)).countP (·.eventType = t) =
        (items.map (·.2.1)).count t := by
      simp only [Op.adds, Op.submission, Op.batch, List.count, List.countP_map]
      rfl
    obtain ⟨counts, htally⟩ := (batchChecked_of_step hinj hlog hs).cap
    rw [hcount] at hadds ⊢
    exact (htally t c hcap).2 (List.count_pos_iff.1 hadds)
  · obtain ⟨id, s₁, hsub, -⟩ := step_submitted hx hs
    simp only [Op.adds, hx] at hadds ⊢
    split_ifs at hadds with hdup
    · simp at hadds
    · have ht : x.eventType = t := by
        by_contra hne
        simp [Submission.record, hne] at hadds
      rw [if_neg hdup]
      have hlt := hsub.cap c (by rw [capOf, Op.enter_inst, ht]; exact hcap)
      rw [packedType, Op.enter_inst, ht] at hlt
      rw [packedType]
      simp only [List.countP_singleton, Submission.record, ht, decide_true, if_true]
      omega

/-- **Caps hold as long as the index is complete.**  After a run that leaves no event of
    the type out of its index, a call that stores events of the type keeps to its cap. -/
theorem history_caps (hinj : Function.Injective H.sha256) {tr : List (State D × Action D)} {t : Symbol}
    {c : ℕ} (h : History H tr s) (hkeep : ∀ p ∈ tr, p.2.keepsTypeIndex H p.1 t = true)
    (hs : Step H env op s r s') (hcap : capOf s t = some c)
    (hstored : (positions s (runtimeTotal s) (·.eventType = t)).length <
      (positions s' (runtimeTotal s') (·.eventType = t)).length) :
    (positions s' (runtimeTotal s') (·.eventType = t)).length ≤ c := by
  obtain ⟨s₀, h₀, hrun⟩ := h
  obtain ⟨g, m, hinit⟩ := initialized_of_init h₀
  have h₀ : CountedIn s₀ [] t := by
    rw [CountedIn, packedType, (hinit.absent (f := .eventTypeIndices) (by simp) t).1]; rfl
  obtain ⟨R, hlog, hcount⟩ : ∃ R, HasLog H s R ∧ CountedIn s R t := by
    refine hrun.invariant (C := fun s a => a.keepsTypeIndex H s t = true)
      (I := fun s => ∃ R, HasLog H s R ∧ CountedIn s R t) ⟨[], hinit.hasLog, h₀⟩ ?_ hkeep
    rintro s a s' ha hn ⟨R, hlog, hcount⟩
    exact ⟨_, next_hasLog hinj hlog hn, next_countedIn hinj hlog hcount ha hn⟩
  rw [hlog.length_positions, (step_hasLog hinj hlog hs).length_positions, List.countP_append,
    countP_amendAll R _ fun _ => rfl] at hstored
  have hbound := step_cap hinj hlog hs hcap (by omega)
  rw [(step_hasLog hinj hlog hs).length_positions, List.countP_append,
    countP_amendAll R _ fun _ => rfl]
  rw [CountedIn] at hcount
  omega

/-- Up to the cap, with compaction of another type before. -/
def capScript : List (Env × Op Bytes) :=
  [(openEnv 11, .logEvent (account 66) "b" [1] none none false),
    (openEnv 12, .compactStorage (account 65) ["b"]),
    (openEnv 13, .setEventMaxLogs (account 65) "a" 2),
    (openEnv 14, .logEvent (account 66) "a" [1] none none false)]

/-- The event that reaches the cap. -/
def lastCall : Env × Op Bytes := (openEnv 15, .logEvents [(account 67, "a", [2])])

theorem history_caps_capScript : ∃ s r s', Reachable plainHost s ∧
    Step plainHost lastCall.1 lastCall.2 s r s' ∧ capOf s "a" = some 2 ∧
    (positions s' (runtimeTotal s') (·.eventType = "a")).length ≤ 2 := by
  let s₀ : State Bytes := deployed (openEnv 10) (account 65) 100 50
  obtain ⟨s', hs'⟩ : ∃ s', play plainHost s₀ (capScript ++ [lastCall]) = some s' :=
    Option.isSome_iff_exists.1 (by decide +kernel)
  obtain ⟨s, r, hs, hstep⟩ := step_of_play hs'
  let count (s : State Bytes) : ℕ := (positions s (runtimeTotal s) (·.eventType = "a")).length
  have hkeep : (traceOf plainHost s₀ capScript).all
      (fun p => p.2.keepsTypeIndex plainHost p.1 "a") = true := by decide +kernel
  have before : (play plainHost s₀ capScript).map (fun s => (capOf s "a", count s)) =
      some (some 2, 1) := by decide +kernel
  have after : (play plainHost s₀ (capScript ++ [lastCall])).map count = some 2 := by decide +kernel
  rw [hs] at before
  rw [hs'] at after
  simp only [count, Option.map_some, Option.some.injEq, Prod.mk.injEq] at before after
  have hist := history_of_play (init_deployed rfl 100 50) hs
  refine ⟨s, r, s', ⟨_, hist⟩, hstep, before.1, ?_⟩
  exact history_caps Function.injective_id hist (List.all_eq_true.1 hkeep) hstep before.1
    (by rw [before.2, after]; decide)

/-- A cap of one, in low-cost mode. -/
def lowCostScript : List (Env × Op Bytes) :=
  [(openEnv 11, .setLowCostMode (account 65) true),
    (openEnv 12, .setEventMaxLogs (account 65) "a" 1),
    (openEnv 13, .logEvent (account 66) "a" [1] none none false)]

/-- A second event is stored in low-cost mode, over a cap of one. -/
theorem cap_exceeded : ∃ s r s', Reachable plainHost s ∧
    Step plainHost lastCall.1 lastCall.2 s r s' ∧ capOf s "a" = some 1 ∧
    (positions s (runtimeTotal s) (·.eventType = "a")).length = 1 ∧
    (positions s' (runtimeTotal s') (·.eventType = "a")).length = 2 := by
  let s₀ : State Bytes := deployed (openEnv 10) (account 65) 100 50
  obtain ⟨s', hs'⟩ : ∃ s', play plainHost s₀ (lowCostScript ++ [lastCall]) = some s' :=
    Option.isSome_iff_exists.1 (by decide +kernel)
  obtain ⟨s, r, hs, hstep⟩ := step_of_play hs'
  let count (s : State Bytes) : ℕ := (positions s (runtimeTotal s) (·.eventType = "a")).length
  have before : (play plainHost s₀ lowCostScript).map (fun s => (capOf s "a", count s)) =
      some (some 1, 1) := by decide +kernel
  have after : (play plainHost s₀ (lowCostScript ++ [lastCall])).map count = some 2 := by
    decide +kernel
  rw [hs] at before
  rw [hs'] at after
  simp only [count, Option.map_some, Option.some.injEq, Prod.mk.injEq] at before after
  exact ⟨s, r, s', ⟨_, history_of_play (init_deployed rfl 100 50) hs⟩, hstep, before.1, before.2, after⟩

/-! ## Rates -/

/-- The record is one of the submitter, at the timestamp. -/
def Record.isBy (a : Address) (T : ℕ) (r : Record) : Bool := r.submitter = a ∧ r.timestamp = T

/-- The step is a batch. -/
def Action.isBatch : Action D → Bool
  | .call _ (.logEvents _) => true
  | _ => false

/-- A batch that stores events of `a` at `T` is the last step that does. -/
def BatchLast (H : Host D) (a : Address) (T : ℕ) (tr : List (State D × Action D)) : Prop :=
  tr.Pairwise fun p p' => p.2.isBatch = true → (p.2.adds H p.1).any (Record.isBy a T) = true →
    (p'.2.adds H p'.1).any (Record.isBy a T) = false

/-- What `charge` charges: one event to a submitter with a limit. -/
theorem spent_charge (s : State D) (b a : Address) (now : ℕ) :
    spent (charge s b now) a now =
      spent s a now + if b = a ∧ (s.inst .submitterRateLimit a).isSome then 1 else 0 := by
  unfold charge
  by_cases ha : b = a
  · subst ha
    rcases s.inst .submitterRateLimit b with _ | l
    · simp
    · simp [spent]
  · rcases s.inst .submitterRateLimit b with _ | l
    · simp [ha]
    · simp [ha, spent, Function.update_of_ne (Ne.symm ha)]

/-- What a call charges: the single path one event to its submitter. -/
theorem step_spent (hs : Step H env op s r s') (a : Address) :
    spent s a env.timestamp ≤ spent s' a env.timestamp ∧
    ∀ x, op.submission = some x → x.submitter = a → ∀ l, s.inst .submitterRateLimit a = some l →
      spent s a env.timestamp < l ∧ spent s' a env.timestamp = spent s a env.timestamp + 1 := by
  rcases hx : op.submission with _ | x
  · have hkeys : DataKey.submitterRateState ∉ op.writes := by
      cases op <;> simp [Op.submission] at hx ⊢
    have hsame : spent s' a env.timestamp = spent s a env.timestamp := by
      simp only [spent, ((exec_writes H op).of_run hs).inst hkeys]
    exact ⟨hsame.ge, fun x h => by cases h⟩
  · obtain ⟨id, s₁, hsub, -, hf, -⟩ := step_submitted hx hs
    have henter : ∀ b, spent (op.enter s) b env.timestamp = spent s b env.timestamp := fun b => by
      simp only [spent, Op.enter_inst]
    have hstate : s'.inst .submitterRateState =
        (charge (op.enter s) x.submitter env.timestamp).inst .submitterRateState := by
      rw [hf.inst (notMem_of_eval rfl), hsub.charged]
    have hspent : spent s' a env.timestamp =
        spent (charge (op.enter s) x.submitter env.timestamp) a env.timestamp := by
      simp only [spent, hstate]
    rw [spent_charge, henter, Op.enter_inst] at hspent
    refine ⟨by omega, fun y hy ha l hl => ?_⟩
    obtain rfl := Option.some.inj hy
    subst ha
    rw [hspent, hl]
    refine ⟨?_, by simp⟩
    rw [← henter]
    exact hsub.rate l (by rw [Op.enter_inst]; exact hl)

/-- The count of events that have been charged: up to the first batch, and as long as it
    is `T`. -/
structure Charged (H : Host D) (a : Address) (T : ℕ) (tr : List (State D × Action D)) (s : State D)
    (n : ℕ) : Prop where
  timed : n = 0 ∨ T ∈ times tr
  spent : (∀ t ∈ times tr, t ≤ T) →
    (∀ p ∈ tr, p.2.isBatch = true → (p.2.adds H p.1).any (Record.isBy a T) = false) →
    n ≤ AuditLedger.spent s a T

theorem any_isBy_iff {l : List Record} {a : Address} {T : ℕ} :
    l.any (Record.isBy a T) = true ↔ 0 < l.countP (Record.isBy a T) := by
  rw [List.any_eq_true, List.countP_pos_iff]

/-- A call that stores events of `a` at `T` is made at `T`. -/
theorem timestamp_of_adds {a : Address} {T : ℕ}
    (h : (op.adds H env s).any (Record.isBy a T) = true) : env.timestamp = T := by
  obtain ⟨q, hq, hby⟩ := List.any_eq_true.1 h
  have hT : q.timestamp = T := (of_decide_eq_true hby).2
  rw [← hT]
  unfold Op.adds at hq
  split at hq
  · split_ifs at hq
    · cases hq
    · rw [List.mem_singleton.1 hq]; rfl
  · obtain ⟨x, -, rfl⟩ := List.mem_map.1 hq
    rfl

/-- The checks of the two paths, against the events that have been charged. -/
theorem step_rate (hinj : Function.Injective H.sha256) {a : Address} {T l : ℕ} (hlog : HasLog H s R)
    (hs : Step H env op s r s') (hl : s.inst .submitterRateLimit a = some l)
    (hadds : (op.adds H env s).any (Record.isBy a T) = true) :
    spent s a T + (op.adds H env s).countP (Record.isBy a T) ≤ l ∧
    (op.submission.isSome → spent s a T + (op.adds H env s).countP (Record.isBy a T) ≤ spent s' a T) := by
  obtain rfl := timestamp_of_adds hadds
  rcases hx : op.submission with _ | x
  · obtain ⟨items, rfl⟩ : ∃ items, op = .logEvents items := by
      cases op <;> simp [Op.adds, Op.submission, Op.batch] at hadds hx
      exact ⟨_, rfl⟩
    have hcount : (Op.adds H env s (.logEvents items)).countP (Record.isBy a env.timestamp) =
        (items.map (·.1)).count a := by
      simp [Op.adds, Op.submission, Op.batch, List.count, List.countP_map, Function.comp_def,
        Record.isBy, itemRecord]
      rfl
    obtain ⟨counts, htally⟩ := (batchChecked_of_step hinj hlog hs).rate
    rw [any_isBy_iff, hcount] at hadds
    rw [hcount]
    exact ⟨(htally a l hl).2 (List.count_pos_iff.1 hadds), fun h => by cases h⟩
  · have hle : (op.adds H env s).countP (Record.isBy a env.timestamp) ≤ 1 := by
      refine List.countP_le_length.trans ?_
      simp only [Op.adds, hx]
      split_ifs <;> simp
    have ha : x.submitter = a := by
      obtain ⟨q, hq, hby⟩ := List.any_eq_true.1 hadds
      simp only [Op.adds, hx] at hq
      split_ifs at hq
      · cases hq
      · rw [List.mem_singleton.1 hq] at hby
        exact (of_decide_eq_true hby).1
    obtain ⟨hlt, hcharge⟩ := (step_spent hs a).2 x hx ha l hl
    exact ⟨by omega, fun _ => by omega⟩

theorem charged_next (hinj : Function.Injective H.sha256) {a : Address} {T l : ℕ} {act : Action D}
    {tr : List (State D × Action D)} (hlog : HasLog H s R) (htime : Timely (tr ++ [(s, act)]))
    (hbatch : BatchLast H a T (tr ++ [(s, act)]))
    (hl : (act.adds H s).any (Record.isBy a T) = true → s.inst .submitterRateLimit a = some l)
    (hle : R.countP (Record.isBy a T) ≤ l) (hc : Charged H a T tr s (R.countP (Record.isBy a T)))
    (hn : Next H s act s') :
    (act.logAfter H s R).countP (Record.isBy a T) ≤ l ∧
    Charged H a T (tr ++ [(s, act)]) s' ((act.logAfter H s R).countP (Record.isBy a T)) := by
  cases act with
  | call env op =>
    obtain ⟨r, hs⟩ := hn
    obtain ⟨-, hpast⟩ := timely_call.1 htime
    have hcount : (Action.logAfter H s R (.call env op)).countP (Record.isBy a T) =
        R.countP (Record.isBy a T) + (op.adds H env s).countP (Record.isBy a T) := by
      rw [Action.logAfter, List.countP_append, countP_amendAll R _ fun _ => rfl]
    rw [hcount]
    have hmem : ∀ t, t ∈ times (tr ++ [(s, .call env op)]) ↔ t ∈ times tr ∨ t = env.timestamp := by
      simp [times_call]
    by_cases hadds : (op.adds H env s).any (Record.isBy a T) = true
    · -- an event is stored: nothing was stored by a batch before, so all has been charged
      have hT := timestamp_of_adds hadds
      have hspent : R.countP (Record.isBy a T) ≤ spent s a T := by
        refine hc.spent (fun t ht => hT ▸ hpast t ht) fun p hp hpb => ?_
        by_contra hany
        have hno := (List.pairwise_append.1 hbatch).2.2 p hp (s, .call env op) (by simp) hpb
          (by simpa using hany)
        exact Bool.false_ne_true (hno.symm.trans hadds)
      obtain ⟨hbound, hcharge⟩ := step_rate hinj hlog hs (hl hadds) hadds
      refine ⟨by omega, ⟨Or.inr ((hmem T).2 (Or.inr hT.symm)), fun _ hnone => ?_⟩⟩
      have hsingle : op.submission.isSome := by
        by_contra hno
        have hop : (Action.call env op).isBatch = true := by
          cases op <;> simp [Op.adds, Op.submission, Op.batch] at hadds hno; rfl
        have hno := hnone (s, .call env op) (by simp) hop
        exact Bool.false_ne_true (hno.symm.trans hadds)
      exact (Nat.add_le_add_right hspent _).trans (hcharge hsingle)
    · have hzero : (op.adds H env s).countP (Record.isBy a T) = 0 := by
        rw [any_isBy_iff] at hadds; omega
      rw [hzero, Nat.add_zero]
      refine ⟨hle, ⟨hc.timed.imp id fun h => (hmem T).2 (Or.inl h), fun hnow hnone => ?_⟩⟩
      rcases hc.timed with h0 | hT
      · rw [h0]; exact Nat.zero_le _
      · -- it has been `T` and still is
        have henv : env.timestamp = T :=
          Nat.le_antisymm (hnow _ ((hmem _).2 (Or.inr rfl))) (hpast T hT)
        have hspent := hc.spent (fun t ht => hnow t ((hmem t).2 (Or.inl ht)))
          fun p hp => hnone p (List.mem_append_left _ hp)
        exact hspent.trans (henv ▸ (step_spent hs a).1)
  | expireTemporary f k | expirePersistent f k =>
    rw [Next] at hn; subst hn
    have htimes := times_expired tr s f k
    refine ⟨hle, ⟨?_, fun hnow hnone => ?_⟩⟩
    · simp only [htimes.1, htimes.2, Action.logAfter]; exact hc.timed
    · simp only [htimes.1, htimes.2] at hnow
      exact hc.spent hnow fun p hp => hnone p (List.mem_append_left _ hp)

/-- **Rates hold as long as a batch comes last.**  In a run in which a batch that stores events
    of `a` at `T` is the last call that does, and the limit of `a` is `l` whenever one is
    stored, at most `l` are stored. -/
theorem history_rate (hinj : Function.Injective H.sha256) {tr : List (State D × Action D)}
    {a : Address} {T l : ℕ} (h : History H tr s) (htime : Timely tr)
    (hlimit : ∀ p ∈ tr, (p.2.adds H p.1).any (Record.isBy a T) = true →
      p.1.inst .submitterRateLimit a = some l)
    (hbatch : BatchLast H a T tr) :
    (positions s (runtimeTotal s) (Record.isBy a T)).length ≤ l := by
  obtain ⟨s₀, h₀, hrun⟩ := h
  obtain ⟨g, m, hinit⟩ := initialized_of_init h₀
  obtain ⟨R, hlog, hle, -⟩ : ∃ R, HasLog H s R ∧ R.countP (Record.isBy a T) ≤ l ∧
      Charged H a T tr s (R.countP (Record.isBy a T)) := by
    induction hrun with
    | init => exact ⟨[], hinit.hasLog, Nat.zero_le _, ⟨Or.inl rfl, fun _ _ => Nat.zero_le _⟩⟩
    | @snoc tr s s' act _ hn ih =>
      obtain ⟨R, hlog, hle, hc⟩ := ih htime.of_append
        (fun p hp => hlimit p (List.mem_append_left _ hp)) (List.pairwise_append.1 hbatch).1
      exact ⟨_, next_hasLog hinj hlog hn, charged_next hinj hlog htime hbatch
        (hlimit (s, act) (by simp)) hle hc hn⟩
  rw [hlog.length_positions]
  exact hle

/-- A limit of two, met by a single event and a batch. -/
def rateScript : List (Env × Op Bytes) :=
  [(openEnv 11, .setSubmitterRateLimit (account 65) (account 66) 2),
    (openEnv 12, .logEvent (account 66) "a" [1] none none false),
    (openEnv 12, .logEvents [(account 66, "b", [2])])]

theorem history_rate_rateScript : ∃ s, Reachable plainHost s ∧
    (positions s (runtimeTotal s) (Record.isBy (account 66) 12)).length = 2 ∧
    (positions s (runtimeTotal s) (Record.isBy (account 66) 12)).length ≤ 2 := by
  let s₀ : State Bytes := deployed (openEnv 10) (account 65) 100 50
  let tr := traceOf plainHost s₀ rateScript
  obtain ⟨s, hs⟩ : ∃ s, play plainHost s₀ rateScript = some s :=
    Option.isSome_iff_exists.1 (by decide +kernel)
  have hcount : (play plainHost s₀ rateScript).map (fun s =>
      (positions s (runtimeTotal s) (Record.isBy (account 66) 12)).length) = some 2 := by
    decide +kernel
  rw [hs] at hcount
  have hist := history_of_play (init_deployed rfl 100 50) hs
  have hlimit : tr.all (fun p => (p.2.adds plainHost p.1).any (Record.isBy (account 66) 12) →
      p.1.inst .submitterRateLimit (account 66) = some 2) = true := by decide +kernel
  have hbatch : BatchLast plainHost (account 66) 12 tr := by
    unfold BatchLast; decide +kernel
  refine ⟨s, ⟨_, hist⟩, Option.some.inj hcount, ?_⟩
  exact history_rate Function.injective_id hist (by decide +kernel)
    (fun p hp => of_decide_eq_true (List.all_eq_true.1 hlimit p hp)) hbatch

/-- A limit of one. -/
def batchesScript : List (Env × Op Bytes) :=
  [(openEnv 11, .setSubmitterRateLimit (account 65) (account 66) 1),
    (openEnv 12, .logEvents [(account 66, "a", [1])]),
    (openEnv 12, .logEvents [(account 66, "a", [2])])]

/-- Two batches at one timestamp store two events, over a limit of one. -/
theorem rate_exceeded : ∃ tr s, History plainHost tr s ∧ Timely tr ∧
    (∀ p ∈ tr.drop 1, p.1.inst .submitterRateLimit (account 66) = some 1) ∧
    (positions s (runtimeTotal s) (Record.isBy (account 66) 12)).length = 2 := by
  let s₀ : State Bytes := deployed (openEnv 10) (account 65) 100 50
  let tr := traceOf plainHost s₀ batchesScript
  obtain ⟨s, hs⟩ : ∃ s, play plainHost s₀ batchesScript = some s :=
    Option.isSome_iff_exists.1 (by decide +kernel)
  have hcount : (play plainHost s₀ batchesScript).map (fun s =>
      (positions s (runtimeTotal s) (Record.isBy (account 66) 12)).length) = some 2 := by
    decide +kernel
  rw [hs] at hcount
  have hlimit : (tr.drop 1).all (fun p => p.1.inst .submitterRateLimit (account 66) = some 1) =
      true := by decide +kernel
  refine ⟨tr, s, history_of_play (init_deployed rfl 100 50) hs, by decide +kernel, ?_,
    Option.some.inj hcount⟩
  exact fun p hp => of_decide_eq_true (List.all_eq_true.1 hlimit p hp)

end AuditLedger
