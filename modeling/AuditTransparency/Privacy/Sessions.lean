/-
  PrivacyPreservingAnalytics — sessions of multi-party computation.

  A session should count every party once, complete only when its threshold of parties
  has committed, and stay as it was completed (`Sound`).  The functions look at the
  session and not at the commitments, so a party can be counted again; and they do not
  look at the status, so a completed session can be reopened, finalised again, or
  created anew.

  * `sound_concat`: a step keeps a session sound exactly when it is `Orderly`;
  * `history_sound`: exactly when a session is sound throughout a run.
-/
import AuditTransparency.Privacy.Contract
import AuditTransparency.Soroban.Sums
import AuditTransparency.Ledger.Contract

namespace PrivacyAnalytics

open Soroban
open Soroban.Call
open AuditLedger (openEnv account)

variable {D : Type} [DecidableEq D]

/-- The parties with a stored commitment. -/
def parties (s : State D) (d : D) : Set Address := {a | (s.inst .smpcCommitment (d, a)).isSome}

/-- A session that is completed in `s` is completed in `s'`, as it was. -/
def Kept (d : D) (s s' : State D) : Prop :=
  ∀ x ∈ s.inst .smpcSession d, x.status = "completed" → ∃ y ∈ s'.inst .smpcSession d,
    y.status = "completed" ∧ y.threshold = x.threshold ∧ y.aggregatedResultHash = x.aggregatedResultHash

/-- What a session promises, after the steps of a trace. -/
structure Sound (d : D) (tr : List (State D × (Env × Op D))) (s : State D) : Prop where
  unknown : s.inst .smpcSession d = none → parties s d = ∅
  count : ∀ x ∈ s.inst .smpcSession d, (x.commitmentsCount : ℕ∞) = (parties s d).encard
  threshold : ∀ x ∈ s.inst .smpcSession d, x.status = "completed" →
    (x.threshold : ℕ∞) ≤ (parties s d).encard
  final : ∀ p ∈ tr, Kept d p.1 s

/-- A session is created where none has commitments or is completed; a party commits once, and not
    to a completed session; a completed session is finalised again with the same result only. -/
def Orderly (d : D) (s : State D) : Op D → Prop
  | .createSmpcSession _ e _ _ _ => e = d → ∀ x ∈ s.inst .smpcSession d,
    x.commitmentsCount = 0 ∧ x.status ≠ "completed"
  | .submitSmpcCommitment a e _ => e = d → s.inst .smpcCommitment (d, a) = none ∧
    ∀ x ∈ s.inst .smpcSession d, x.status ≠ "completed"
  | .finalizeSmpcSession _ e h => e = d → ∀ x ∈ s.inst .smpcSession d, x.status = "completed" →
    h = x.aggregatedResultHash
  | _ => True

instance Orderly.decidable (d : D) (s : State D) : (op : Op D) → Decidable (Orderly d s op)
  | .createSmpcSession _ e _ _ _ => inferInstanceAs (Decidable (e = d → ∀ x ∈ s.inst .smpcSession d,
    x.commitmentsCount = 0 ∧ x.status ≠ "completed"))
  | .submitSmpcCommitment a e _ => inferInstanceAs (Decidable (e = d →
    s.inst .smpcCommitment (d, a) = none ∧ ∀ x ∈ s.inst .smpcSession d, x.status ≠ "completed"))
  | .finalizeSmpcSession _ e h => inferInstanceAs (Decidable (e = d → ∀ x ∈ s.inst .smpcSession d,
    x.status = "completed" → h = x.aggregatedResultHash))
  | .executeDpQuery .. | .startFlRound .. | .submitFlGradient .. | .aggregateFlRound ..
  | .recordHomomorphicMetric .. => inferInstanceAs (Decidable True)

/-! ## Effects -/

section
variable {zeros : D} {env : Env} {s s' : State D} {a : Address} {d e : D} {n m : ℕ} {t : Symbol}
  {tr : List (State D × (Env × Op D))}

/-- What creating a session leaves. -/
theorem created {r : D} (h : (createSmpcSession zeros a e n m t).run env s = .ok (r, s')) :
    s' = s.put .smpcSession e ⟨e, a, n, m, t, 0, zeros, "initialized", env.timestamp⟩ := by
  refine Post.of_run (m := createSmpcSession zeros a e n m t) (Q := fun _ s' => s' = s.put .smpcSession e
    ⟨e, a, n, m, t, 0, zeros, "initialized", env.timestamp⟩) ?_ h
  simp only [createSmpcSession, post_bind, post_requireAuth, post_getEnv, post_store, post_pure]
  intro _
  trivial

/-- What a commitment leaves. -/
theorem committed {c : D} (h : (submitSmpcCommitment a e c).run env s = .ok ((), s')) :
    ∃ x ∈ s.inst .smpcSession e, s' = (s.put .smpcCommitment (e, a) c).put .smpcSession e
      { x with
        commitmentsCount := x.commitmentsCount + 1
        status := if x.commitmentsCount + 1 ≥ x.threshold then "active" else x.status } := by
  refine Post.of_run (m := submitSmpcCommitment a e c) (Q := fun _ s' => ∃ x ∈ s.inst .smpcSession e,
    s' = (s.put .smpcCommitment (e, a) c).put .smpcSession e
      { x with
        commitmentsCount := x.commitmentsCount + 1
        status := if x.commitmentsCount + 1 ≥ x.threshold then "active" else x.status }) ?_ h
  simp only [submitSmpcCommitment, post_bind, post_requireAuth, post_load, post_unwrapOr, post_store,
    post_addChecked]
  intro _ x hx _
  refine ⟨x, hx, ?_⟩
  by_cases hn : x.commitmentsCount + 1 ≥ x.threshold
  · rw [if_pos hn, if_pos hn]
  · rw [if_neg hn, if_neg hn]

/-- What finalising leaves. -/
theorem finalized {h : D} (hr : (finalizeSmpcSession a e h).run env s = .ok ((), s')) :
    ∃ x ∈ s.inst .smpcSession e, x.threshold ≤ x.commitmentsCount ∧
      s' = s.put .smpcSession e { x with aggregatedResultHash := h, status := "completed" } := by
  refine Post.of_run (m := finalizeSmpcSession a e h) (Q := fun _ s' => ∃ x ∈ s.inst .smpcSession e,
    x.threshold ≤ x.commitmentsCount ∧
      s' = s.put .smpcSession e { x with aggregatedResultHash := h, status := "completed" }) ?_ hr
  simp only [finalizeSmpcSession, post_bind, post_requireAuth, post_load, post_unwrapOr, post_rejectIf,
    post_store, not_lt]
  intro _ x hx hn
  exact ⟨x, hx, hn, rfl⟩

/-- A step adds the party of a commitment to the session, and no other. -/
theorem parties_step {p : Env × Op D} (hs : Steps (exec zeros) s p s') :
    parties s' d = {b | ∃ c, p.2 = .submitSmpcCommitment b d c} ∪ parties s d := by
  obtain ⟨env, op⟩ := p
  obtain ⟨_, hs⟩ := hs
  have hframe := (exec_writes zeros op).of_run hs
  ext b
  rw [Set.mem_union, parties, parties, Set.mem_ofPred_eq, Set.mem_ofPred_eq, Set.mem_ofPred_eq]
  cases op with
  | submitSmpcCommitment a e c =>
    obtain ⟨_, hr, -⟩ := of_run_map _ _ hs
    obtain ⟨x, -, hs'⟩ := committed hr
    have hput : s'.inst .smpcCommitment = (s.put .smpcCommitment (e, a) c).inst .smpcCommitment :=
      hs' ▸ Ledger.put_inst_ne _ nofun
    rw [hput, Ledger.put_inst, Store.set_same]
    by_cases hk : (d, b) = (e, a)
    · obtain ⟨rfl, rfl⟩ := Prod.mk.inj hk
      rw [Function.update_self]
      exact iff_of_true rfl (.inl ⟨c, rfl⟩)
    · rw [Function.update_of_ne hk, or_iff_right]
      rintro ⟨_, ⟨⟩⟩
      exact hk rfl
  | _ => rw [hframe.inst (notMem_of_eval rfl), or_iff_right nofun]

/-- **The parties of a session are those that have committed to it.** -/
theorem parties_of_run {s₀ : State D} (h₀ : Fresh s₀) (h : Run (Steps (exec zeros)) s₀ tr s) :
    parties s d = {b | ∃ p ∈ tr.map Prod.snd, ∃ c, p.2 = .submitSmpcCommitment b d c} := by
  induction h with
  | init =>
    ext b
    simp [parties, h₀.eq_none (f := .smpcCommitment) (by decide) (d, b)]
  | @snoc tr s s' p _ hs ih =>
    rw [parties_step hs, ih]
    ext b
    simp only [Set.mem_union, Set.mem_ofPred_eq, List.map_append, List.map_cons, List.map_nil,
      List.mem_append, List.mem_singleton, or_and_right, exists_or, exists_eq_left]
    exact or_comm

theorem mem_parties_iff : a ∉ parties s d ↔ s.inst .smpcCommitment (d, a) = none := by
  rw [parties, Set.mem_ofPred_eq, Option.not_isSome_iff_eq_none]

/-! ## Sound sessions -/

theorem Kept.trans {s'' : State D} (h : Kept d s s') (h' : Kept d s' s'') : Kept d s s'' := by
  intro x hx hc
  obtain ⟨y, hy, hyc, hyn, hyh⟩ := h x hx hc
  obtain ⟨z, hz, hzc, hzn, hzh⟩ := h' y hy hyc
  exact ⟨z, hz, hzc, hzn.trans hyn, hzh.trans hyh⟩

theorem kept_of_eq (h : s'.inst .smpcSession d = s.inst .smpcSession d) : Kept d s s' := by
  intro x hx hc
  exact ⟨x, h ▸ hx, hc, rfl, rfl⟩

/-- A session that was completed is completed, or was not sound. -/
theorem Sound.concat {p : Env × Op D} (h : Sound d tr s) (hkept : Kept d s s') :
    ∀ q ∈ tr ++ [(s, p)], Kept d q.1 s' := by
  simp only [List.forall_mem_append, List.forall_mem_singleton]
  exact ⟨fun q hq => (h.final q hq).trans hkept, hkept⟩

theorem Sound.kept {p : Env × Op D} (h : Sound d (tr ++ [(s, p)]) s') : Kept d s s' :=
  h.final (s, p) (by simp)

/-- A step that does not concern the session. -/
theorem Sound.same {p : Env × Op D} (h : Sound d tr s)
    (hx : s'.inst .smpcSession d = s.inst .smpcSession d) (hp : parties s' d = parties s d) :
    Sound d (tr ++ [(s, p)]) s' where
  unknown := by rw [hx, hp]; exact h.unknown
  count := by rw [hx, hp]; exact h.count
  threshold := by rw [hx, hp]; exact h.threshold
  final := h.concat (kept_of_eq hx)

theorem created_sound {p : Env × Op D} {r : D} (h : Sound d tr s)
    (hr : (createSmpcSession zeros a d n m t).run env s = .ok (r, s')) (hp : parties s' d = parties s d) :
    Sound d (tr ++ [(s, p)]) s' ↔
      ∀ x ∈ s.inst .smpcSession d, x.commitmentsCount = 0 ∧ x.status ≠ "completed" := by
  have hs' := created hr
  have hx' : s'.inst .smpcSession d = some ⟨d, a, n, m, t, 0, zeros, "initialized", env.timestamp⟩ := by
    rw [hs', Ledger.put_inst, Store.set_same, Function.update_self]
  constructor
  · intro h' x hx
    constructor
    · have hempty := h'.count _ hx'
      rw [hp, ← h.count x hx] at hempty
      exact (Nat.cast_injective hempty).symm
    · intro hc
      obtain ⟨y, hy, hyc, -⟩ := h'.kept x hx hc
      obtain rfl := Option.some.inj (hx'.symm.trans hy)
      exact absurd hyc (by decide : "initialized" ≠ "completed")
  · intro hnew
    have hnone : parties s d = ∅ := by
      rcases hx : s.inst .smpcSession d with _ | x
      · exact h.unknown hx
      · rw [← Set.encard_eq_zero, ← h.count x hx, (hnew x hx).1, Nat.cast_zero]
    refine ⟨fun hno => ?_, fun y hy => ?_, fun y hy hyc => ?_, h.concat fun x hx hc => ?_⟩
    · rw [hx'] at hno
      cases hno
    · obtain rfl := Option.some.inj (hx'.symm.trans hy)
      rw [hp, hnone, Set.encard_empty, Nat.cast_zero]
    · obtain rfl := Option.some.inj (hx'.symm.trans hy)
      exact absurd hyc (by decide : "initialized" ≠ "completed")
    · exact absurd hc (hnew x hx).2

theorem committed_sound {p : Env × Op D} {c : D} (h : Sound d tr s)
    (hr : (submitSmpcCommitment a d c).run env s = .ok ((), s'))
    (hp : parties s' d = insert a (parties s d)) :
    Sound d (tr ++ [(s, p)]) s' ↔ s.inst .smpcCommitment (d, a) = none ∧
      ∀ x ∈ s.inst .smpcSession d, x.status ≠ "completed" := by
  obtain ⟨x, hx, hs'⟩ := committed hr
  have hx' : s'.inst .smpcSession d = some { x with
      commitmentsCount := x.commitmentsCount + 1
      status := if x.commitmentsCount + 1 ≥ x.threshold then "active" else x.status } := by
    rw [hs', Ledger.put_inst, Store.set_same, Function.update_self]
  -- a completed session has its threshold, so one more commitment reopens it
  have hopen : (if x.commitmentsCount + 1 ≥ x.threshold then "active" else x.status) ≠ "completed" := by
    split_ifs with hn
    · decide
    · intro hc
      have hle := h.threshold x hx hc
      rw [← h.count x hx, Nat.cast_le] at hle
      omega
  rw [← mem_parties_iff]
  constructor
  · intro h'
    refine ⟨fun ha => ?_, fun y hy hc => ?_⟩
    · have hcount := h'.count _ hx'
      rw [hp, Set.insert_eq_of_mem ha, ← h.count x hx] at hcount
      exact Nat.succ_ne_self _ (Nat.cast_injective hcount)
    · obtain ⟨z, hz, hzc, -⟩ := h'.kept y hy hc
      obtain rfl := Option.some.inj (hx'.symm.trans hz)
      exact hopen hzc
  · rintro ⟨ha, hnc⟩
    refine ⟨fun hno => ?_, fun y hy => ?_, fun y hy hyc => ?_, h.concat fun y hy hc => ?_⟩
    · rw [hx'] at hno
      cases hno
    · obtain rfl := Option.some.inj (hx'.symm.trans hy)
      rw [hp, Set.encard_insert_of_notMem ha, ← h.count x hx, Nat.cast_succ]
    · obtain rfl := Option.some.inj (hx'.symm.trans hy)
      exact absurd hyc hopen
    · exact absurd hc (hnc y hy)

theorem finalized_sound {p : Env × Op D} {v : D} (h : Sound d tr s)
    (hr : (finalizeSmpcSession a d v).run env s = .ok ((), s')) (hp : parties s' d = parties s d) :
    Sound d (tr ++ [(s, p)]) s' ↔
      ∀ x ∈ s.inst .smpcSession d, x.status = "completed" → v = x.aggregatedResultHash := by
  obtain ⟨x, hx, hn, hs'⟩ := finalized hr
  have hx' : s'.inst .smpcSession d = some { x with aggregatedResultHash := v, status := "completed" } := by
    rw [hs', Ledger.put_inst, Store.set_same, Function.update_self]
  constructor
  · intro h' y hy hc
    obtain ⟨z, hz, -, -, hzh⟩ := h'.kept y hy hc
    obtain rfl := Option.some.inj (hx'.symm.trans hz)
    exact hzh
  · intro hsame
    refine ⟨fun hno => ?_, fun y hy => ?_, fun y hy _ => ?_, h.concat fun y hy hc => ?_⟩
    · rw [hx'] at hno
      cases hno
    · obtain rfl := Option.some.inj (hx'.symm.trans hy)
      rw [hp, ← h.count x hx]
    · obtain rfl := Option.some.inj (hx'.symm.trans hy)
      rw [hp, ← h.count x hx]
      exact Nat.cast_le.2 hn
    · obtain rfl := Option.some.inj (hx.symm.trans hy)
      exact ⟨_, hx', rfl, rfl, hsame x hx hc⟩

/-- **A step keeps a session sound exactly when it is orderly.** -/
theorem sound_concat {p : Env × Op D} (hs : Steps (exec zeros) s p s') (h : Sound d tr s) :
    Sound d (tr ++ [(s, p)]) s' ↔ Orderly d s p.2 := by
  have hp := parties_step (d := d) hs
  obtain ⟨env, op⟩ := p
  obtain ⟨_, hs⟩ := hs
  have hframe := (exec_writes zeros op).of_run hs
  cases op with
  | createSmpcSession a e n m t =>
    replace hp : parties s' d = parties s d := by simpa using hp
    obtain ⟨r, hr, -⟩ := of_run_map _ _ hs
    by_cases hd : e = d
    · subst hd
      exact (created_sound h hr hp).trans ⟨fun h _ => h, fun h => h rfl⟩
    · refine iff_of_true (h.same ?_ hp) fun he => absurd he hd
      rw [created hr, Ledger.put_inst, Store.set_same, Function.update_of_ne (Ne.symm hd)]
  | submitSmpcCommitment a e c =>
    obtain ⟨_, hr, -⟩ := of_run_map _ _ hs
    by_cases hd : e = d
    · subst hd
      have hadded : {b | ∃ c', Op.submitSmpcCommitment a e c = .submitSmpcCommitment b e c'} = {a} := by
        ext b
        simp [eq_comm]
      replace hp : parties s' e = insert a (parties s e) := by
        rw [Set.insert_eq, ← hadded]
        exact hp
      exact (committed_sound h hr hp).trans ⟨fun h _ => h, fun h => h rfl⟩
    · obtain ⟨x, -, hs'⟩ := committed hr
      refine iff_of_true (h.same ?_ (by simpa [hd] using hp)) fun he => absurd he hd
      rw [hs', Ledger.put_inst, Store.set_same, Function.update_of_ne (Ne.symm hd), Ledger.put_inst,
        Store.set_ne]
      nofun
  | finalizeSmpcSession a e v =>
    replace hp : parties s' d = parties s d := by simpa using hp
    obtain ⟨_, hr, -⟩ := of_run_map _ _ hs
    by_cases hd : e = d
    · subst hd
      exact (finalized_sound h hr hp).trans ⟨fun h _ => h, fun h => h rfl⟩
    · obtain ⟨x, -, -, hs'⟩ := finalized hr
      refine iff_of_true (h.same ?_ hp) fun he => absurd he hd
      rw [hs', Ledger.put_inst, Store.set_same, Function.update_of_ne (Ne.symm hd)]
  | _ =>
    refine iff_of_true (h.same ?_ (by simpa using hp)) trivial
    rw [hframe.inst (notMem_of_eval rfl)]

/-- **A session is sound throughout a run** if and only if every step is orderly. -/
theorem history_sound {s₀ : State D} (h₀ : Fresh s₀) (h : Run (Steps (exec zeros)) s₀ tr s) (d : D) :
    ((∀ before p after, tr = before ++ p :: after → Sound d before p.1) ∧ Sound d tr s) ↔
      ∀ p ∈ tr, Orderly d p.1 p.2.2 := by
  refine (Run.throughout_iff (I := Sound d) (C := fun _ p => Orderly d p.1 p.2.2) ?_
    (fun _ _ _ _ _ hs h => sound_concat hs h) h).trans Run.forall_cut_iff
  have hno : s₀.inst .smpcSession d = none := h₀.eq_none (f := .smpcSession) (by decide) d
  refine ⟨fun _ => ?_, ?_, ?_, by simp⟩
  · ext a
    simp [parties, h₀.eq_none (f := .smpcCommitment) (by decide) (d, a)]
  · simp [hno]
  · simp [hno]

end

/-! ## Scripts -/

/-- `BytesN::from_array(&env, &[0u8; 32])` -/
def zeroHash : Bytes := List.replicate 32 0

/-- A session of the threshold 2 with a first commitment. -/
def opened : List (Env × Op Bytes) :=
  [(openEnv 0, .createSmpcSession (account 65) [1] 2 3 "kpi"),
    (openEnv 1, .submitSmpcCommitment (account 66) [1] [10])]

/-- Another party commits, and the session is finalised. -/
def sharedScript : List (Env × Op Bytes) :=
  opened ++ [(openEnv 2, .submitSmpcCommitment (account 67) [1] [11]),
    (openEnv 3, .finalizeSmpcSession (account 65) [1] [20])]

theorem history_sound_sharedScript :
    ∃ tr s, Run (Steps (exec zeroHash)) Ledger.empty tr s ∧ tr.map Prod.snd = sharedScript ∧
      ((∀ before p after, tr = before ++ p :: after → Sound [1] before p.1) ∧ Sound [1] tr s) := by
  obtain ⟨s, hs⟩ : ∃ s, play (exec zeroHash) Ledger.empty sharedScript = some s :=
    Option.isSome_iff_exists.1 (by decide)
  refine ⟨_, s, run_of_play hs, map_snd_traceOf hs, ?_⟩
  exact (history_sound (.inl rfl) (run_of_play hs) [1]).2 (by decide)

/-- The same party commits again. -/
def recommitment : Env × Op Bytes := (openEnv 2, .submitSmpcCommitment (account 66) [1] [11])

/-- The session is finalised after it. -/
def finalization : Env × Op Bytes := (openEnv 3, .finalizeSmpcSession (account 65) [1] [20])

/-- **A session of the threshold 2 can complete with one party.** -/
theorem completed_by_one_party :
    ∃ tr s x, Run (Steps (exec zeroHash)) Ledger.empty tr s ∧
      tr.map Prod.snd = opened ++ [recommitment, finalization] ∧ s.inst .smpcSession [1] = some x ∧
      x.status = "completed" ∧ x.threshold = 2 ∧ parties s [1] = {account 66} ∧ ¬Sound [1] tr s := by
  obtain ⟨s, hs⟩ : ∃ s, play (exec zeroHash) Ledger.empty (opened ++ [recommitment, finalization]) = some s :=
    Option.isSome_iff_exists.1 (by decide)
  have hsession : (play (exec zeroHash) Ledger.empty (opened ++ [recommitment, finalization])).map
      (fun s => (s.inst .smpcSession [1]).map fun x => (x.status, x.threshold)) =
        some (some ("completed", 2)) := by decide
  rw [hs, Option.map_some, Option.some.injEq, Option.map_eq_some_iff] at hsession
  obtain ⟨x, hx, hxe⟩ := hsession
  obtain ⟨hstatus, hthreshold⟩ := Prod.mk.inj hxe
  have hparties : parties s [1] = {account 66} := by
    rw [parties_of_run (.inl rfl) (run_of_play hs), map_snd_traceOf hs]
    ext b
    simp [opened, recommitment, finalization, eq_comm]
  refine ⟨_, s, x, run_of_play hs, map_snd_traceOf hs, hx, hstatus, hthreshold, hparties, fun h => ?_⟩
  have hle := h.threshold x hx hstatus
  rw [hparties, hthreshold, Set.encard_singleton] at hle
  exact absurd hle (by decide)

end PrivacyAnalytics
