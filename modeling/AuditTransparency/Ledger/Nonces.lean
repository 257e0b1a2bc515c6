/-
  AuditLedger — nonces.

  The last nonce of a submitter is stored twice: in `SubmitterNonce`, which every
  accepted call writes and `get_submitter_nonce` reads, and in the
  `SubmitterNonceConfig` that `set_submitter_nonce_config` stores, which then
  replaces it in the checks and is not written again.

  * `history_nonces`: as long as a configuration is used only before the next
    nonce is accepted (`NonceFresh`), the nonces accepted between two resets are
    strictly increasing;
  * `nonce_replayed`: with a configuration in place, a nonce is accepted twice.
-/
import AuditTransparency.Ledger.Refinement

namespace AuditLedger

open Soroban
open Soroban.Call hiding hasPers publish

variable {D : Type} [DecidableEq D] {H : Host D} {env : Env} {s s' : State D} {op : Op D} {r : Ret D}
  {a : Address}

/-- `get_submitter_nonce` -/
def nonceOf (s : State D) (a : Address) : ℕ := ((s.inst .submitterNonce a).map (·.lastNonce)).getD 0

theorem getSubmitterNonce_run : (getSubmitterNonce a : Fn D ℕ).run env s = .ok (nonceOf s a, s) := rfl

/-- A stored configuration has the last nonce of the submitter. -/
def NonceFresh (s : State D) (a : Address) : Prop :=
  ∀ c, s.inst .submitterNonceConfig a = some c → c.lastNonce = nonceOf s a

instance (s : State D) (a : Address) : Decidable (NonceFresh s a) :=
  inferInstanceAs (Decidable (∀ c ∈ s.inst .submitterNonceConfig a, c.lastNonce = nonceOf s a))

/-- The nonce `a` has accepted in a step, if any. -/
def acceptedNonce (a : Address) : Action D → Option ℕ
  | .call _ (.logEventWithNonce b _ _ n) => if b = a then some n else none
  | _ => none

/-- The nonces `a` has accepted in the steps of a trace. -/
def acceptedNonces (a : Address) (tr : List (State D × Action D)) : List ℕ :=
  tr.filterMap fun p => acceptedNonce a p.2

/-- The step resets the nonce of `a`. -/
def Action.resetsNonce (a : Address) : Action D → Bool
  | .call _ (.resetSubmitterNonce _ b) => b = a
  | _ => false

/-! ## Steps -/

/-- A nonce is accepted when it exceeds the last one, as the configuration has it
    if there is one, and becomes the last one. -/
theorem step_nonce {b : Address} {t : Symbol} {m : Bytes} {n : ℕ}
    (hs : Step H env (.logEventWithNonce b t m n) s r s') (hf : NonceFresh s b) :
    nonceOf s b < n ∧ s'.inst .submitterNonce =
      Function.update (s.inst .submitterNonce) b (s'.inst .submitterNonce b) ∧ nonceOf s' b = n := by
  have key : Post (exec H (.logEventWithNonce b t m n)) (fun _ s' => nonceOf s b < n ∧
      s'.inst .submitterNonce = Function.update (s.inst .submitterNonce) b
        (s'.inst .submitterNonce b) ∧ nonceOf s' b = n) env s := by
    simp only [exec, logEventWithNonce, post_bind, post_pure, post_load, post_rejectIf, post_store]
    refine post_reads fun st hst _ hlow _ => ?_
    refine Post.with_frame (L := layout D) (W := singleWrites) fun _ s₁ _ hf₁ => ⟨?_, ?_, ?_⟩
    · have hlast : nonceOf s b = ((s.inst .submitterNonceConfig b).getD st).lastNonce := by
        rcases hc : s.inst .submitterNonceConfig b with _ | c
        · have : Post (submitterNonceState H b) (fun st _ => st.lastNonce = nonceOf s b) env s := by
            simp only [submitterNonceState, post_bind, post_load, post_onSome, post_pure]
            refine ⟨fun c hc => by simp [nonceOf, hc], fun hc => ?_⟩
            exact post_reads fun _ _ => post_reads fun _ _ => by simp [nonceOf, hc]
          exact (this.of_run hst).symm
        · exact (hf c hc).symm
      omega
    · rw [← hf₁.inst (f := DataKey.submitterNonce) (by simp)]; simp
    · simp [nonceOf]
  exact key.of_run hs

/-- Every other step leaves the last nonce of `a` alone. -/
theorem next_nonceOf {act : Action D} (hn : Next H s act s') (hacc : acceptedNonce a act = none)
    (hres : act.resetsNonce a = false) : nonceOf s' a = nonceOf s a := by
  have of_eq : s'.inst .submitterNonce a = s.inst .submitterNonce a → nonceOf s' a = nonceOf s a :=
    fun h => by rw [nonceOf, h, nonceOf]
  cases act with
  | call env op =>
    obtain ⟨r, hs⟩ := hn
    refine of_eq ?_
    cases op with
    | logEventWithNonce b t m n =>
      have hb : b ≠ a := by simpa [acceptedNonce] using hacc
      have key : Post (exec H (.logEventWithNonce b t m n))
          (fun _ s' => s'.inst .submitterNonce a = s.inst .submitterNonce a) env s := by
        simp only [exec, logEventWithNonce, post_bind, post_pure, post_load, post_rejectIf, post_store]
        refine post_reads fun st hst _ _ _ => ?_
        refine Post.with_frame (L := layout D) (W := singleWrites) fun _ s₁ _ hf₁ => ?_
        rw [← hf₁.inst (f := DataKey.submitterNonce) (by simp)]
        simp [Function.update_of_ne (Ne.symm hb)]
      exact key.of_run hs
    | resetSubmitterNonce c b =>
      have hb : b ≠ a := by simpa [Action.resetsNonce] using hres
      have key : Post (exec H (.resetSubmitterNonce c b))
          (fun _ s' => s'.inst .submitterNonce a = s.inst .submitterNonce a) env s := by
        simp only [exec, resetSubmitterNonce, post_bind, post_pure, post_store, post_clear,
          post_publish]
        refine post_reads fun _ _ => post_reads fun _ _ => ?_
        simp [Function.update_of_ne (Ne.symm hb)]
      exact key.of_run hs
    | _ => exact congrFun (((exec_writes H _).of_run hs).inst (f := DataKey.submitterNonce) (by simp)) a
  | expireTemporary f k => rw [Next] at hn; rw [hn]; rfl
  | expirePersistent f k => rw [Next] at hn; rw [hn]; rfl

/-! ## Runs -/

theorem acceptedNonces_snoc (tr : List (State D × Action D)) (p : State D × Action D) :
    acceptedNonces a (tr ++ [p]) = acceptedNonces a tr ++ (acceptedNonce a p.2).toList := filterMap_concat

/-- The accepted nonces of a run are increasing and do not exceed the last one. -/
theorem run_nonces {s₀ : State D} {tr : List (State D × Action D)} (hrun : Run (Next H) s₀ tr s)
    (hreset : ∀ p ∈ tr, p.2.resetsNonce a = false)
    (hfresh : ∀ p ∈ tr, (acceptedNonce a p.2).isSome → NonceFresh p.1 a) :
    (acceptedNonces a tr).Pairwise (· < ·) ∧ ∀ n ∈ acceptedNonces a tr, n ≤ nonceOf s a := by
  induction hrun with
  | init => simp [acceptedNonces]
  | @snoc tr s s' act _ hn ih =>
    rw [List.forall_mem_append, List.forall_mem_singleton] at hreset hfresh
    obtain ⟨hinc, hle⟩ := ih hreset.1 hfresh.1
    rw [acceptedNonces_snoc]
    rcases hacc : acceptedNonce a act with _ | n
    · rw [next_nonceOf hn hacc hreset.2]
      simpa using ⟨hinc, hle⟩
    · -- only `log_event_with_nonce` accepts a nonce
      obtain ⟨env, t, m, rfl⟩ : ∃ env t m, act = .call env (.logEventWithNonce a t m n) := by
        unfold acceptedNonce at hacc
        split at hacc
        · split_ifs at hacc with hb
          obtain rfl := hb
          obtain rfl := Option.some.inj hacc
          exact ⟨_, _, _, rfl⟩
        · cases hacc
      obtain ⟨r, hs⟩ := hn
      obtain ⟨hlt, -, hlast⟩ := step_nonce hs (hfresh.2 (by simp [hacc]))
      have hbelow : ∀ k ∈ acceptedNonces a tr, k < n :=
        fun k hk => lt_of_le_of_lt (hle k hk) hlt
      rw [hlast]
      refine ⟨List.pairwise_append.2 ⟨hinc, by simp, by simpa using hbelow⟩, fun k hk => ?_⟩
      rcases List.mem_append.1 hk with hk | hk
      · exact (hbelow k hk).le
      · exact (List.mem_singleton.1 hk).le

/-- **Where no configuration is stale, nonces are not replayed.**  In a stretch of a
    run without a reset, the nonces accepted for `a` are strictly increasing, and
    each exceeds `get_submitter_nonce` before its call. -/
theorem history_nonces {tr₁ tr₂ : List (State D × Action D)} (h : History H (tr₁ ++ tr₂) s)
    (hreset : ∀ p ∈ tr₂, p.2.resetsNonce a = false)
    (hfresh : ∀ p ∈ tr₂, (acceptedNonce a p.2).isSome → NonceFresh p.1 a) :
    (acceptedNonces a tr₂).Pairwise (· < ·) ∧ (acceptedNonces a tr₂).Nodup ∧
    ∀ s₁ env t m n, (s₁, Action.call env (.logEventWithNonce a t m n)) ∈ tr₂ →
      ∃ k, (getSubmitterNonce a).run env s₁ = .ok (k, s₁) ∧ k < n := by
  obtain ⟨s₀, -, hrun⟩ := h
  obtain ⟨s₁, -, hrun₂⟩ := hrun.cut
  have hinc := (run_nonces hrun₂ hreset hfresh).1
  refine ⟨hinc, hinc.imp fun h => h.ne, fun s₁ env t m n hp => ⟨nonceOf s₁ a, getSubmitterNonce_run, ?_⟩⟩
  obtain ⟨s₂, r, hs⟩ := hrun₂.step_of_mem hp
  exact (step_nonce hs (hfresh _ hp (by simp [acceptedNonce]))).1

/-- Nonces before and after a configuration, which is used once. -/
def nonceScript : List (Env × Op Bytes) :=
  [(openEnv 11, .logEventWithNonce (account 66) "a" [1] 3),
    (openEnv 12, .setSubmitterNonceConfig (account 65) (account 66) 10 100),
    (openEnv 13, .logEventWithNonce (account 66) "a" [2] 5)]

theorem history_nonces_nonceScript : ∃ tr s, History plainHost tr s ∧
    acceptedNonces (account 66) tr = [3, 5] ∧ (acceptedNonces (account 66) tr).Pairwise (· < ·) := by
  let s₀ : State Bytes := deployed (openEnv 10) (account 65) 100 50
  obtain ⟨s, hs⟩ : ∃ s, play plainHost s₀ nonceScript = some s :=
    Option.isSome_iff_exists.1 (by decide +kernel)
  have hreset : (traceOf plainHost s₀ nonceScript).all
      (fun p => p.2.resetsNonce (account 66) = false) = true := by decide +kernel
  have hfresh : (traceOf plainHost s₀ nonceScript).all (fun p =>
      (acceptedNonce (account 66) p.2).isSome → NonceFresh p.1 (account 66)) = true := by
    decide +kernel
  have hist : History plainHost ([] ++ traceOf plainHost s₀ nonceScript) s :=
    history_of_play (init_deployed rfl 100 50) hs
  refine ⟨_, s, hist, by decide +kernel, (history_nonces hist ?_ ?_).1⟩
  · exact fun p hp => of_decide_eq_true (List.all_eq_true.1 hreset p hp)
  · exact fun p hp => of_decide_eq_true (List.all_eq_true.1 hfresh p hp)

/-- A configuration, and the same nonce twice. -/
def replayScript : List (Env × Op Bytes) :=
  [(openEnv 11, .setSubmitterNonceConfig (account 65) (account 66) 10 100),
    (openEnv 12, .logEventWithNonce (account 66) "a" [1] 5),
    (openEnv 13, .logEventWithNonce (account 66) "a" [2] 5)]

/-- With a configuration in place, a nonce is accepted twice. -/
theorem nonce_replayed : ∃ tr s, History plainHost tr s ∧
    (∀ p ∈ tr, p.2.resetsNonce (account 66) = false) ∧ acceptedNonces (account 66) tr = [5, 5] ∧
    ¬(acceptedNonces (account 66) tr).Pairwise (· < ·) := by
  let s₀ : State Bytes := deployed (openEnv 10) (account 65) 100 50
  obtain ⟨s, hs⟩ : ∃ s, play plainHost s₀ replayScript = some s :=
    Option.isSome_iff_exists.1 (by decide +kernel)
  have hreset : (traceOf plainHost s₀ replayScript).all
      (fun p => p.2.resetsNonce (account 66) = false) = true := by decide +kernel
  have hacc : acceptedNonces (account 66) (traceOf plainHost s₀ replayScript) = [5, 5] := by
    decide +kernel
  refine ⟨_, s, history_of_play (init_deployed rfl 100 50) hs, ?_, hacc, ?_⟩
  · exact fun p hp => of_decide_eq_true (List.all_eq_true.1 hreset p hp)
  · rw [hacc]; decide

end AuditLedger
