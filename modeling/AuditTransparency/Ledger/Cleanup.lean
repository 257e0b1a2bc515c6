/-
  AuditLedger — cleaning up the dedup maps.

  Both clean-up functions walk over the positions of the log and remove the entry under the content of
  a position when it records another one.

  * `step_cleanup`: what a call over the whole log leaves of the maps;
  * `cleanup_exact_iff`: it removes exactly the stale entries when every recorded content is still that
    of an event, and of no second one beside the event that is recorded.
-/
import AuditTransparency.Ledger.Dedup
import AuditTransparency.Ledger.Enactment
import AuditTransparency.Soroban.Sweep

namespace AuditLedger

open Soroban
open Soroban.Call hiding hasPers publish

variable {D : Type} [DecidableEq D] {H : Host D} {env : Env} {s s' t : State D} {r : Ret D} {caller : Address}
  {batchSize i n : ℕ} {full : Bool}

theorem totalEvents_eq (h : (totalEvents : Fn D ℕ).run env s = .ok (n, s')) : n = totalOf s := by
  have key : Post (totalEvents : Fn D ℕ) (fun n _ => n = totalOf s) env s := by
    unfold totalEvents
    refine post_bind_reads fun _ _ => ?_
    simp only [post_bind, post_load, post_pure]
    rw [totalOf]
    rcases s.inst .runtimeState () with _ | rs
    · rfl
    · rfl
  exact key.of_run h

/-- The content hash of the live event at position `i`. -/
def liveHash (H : Host D) (env : Env) (s : State D) (i : ℕ) : Option D :=
  if i < totalOf s then (eventAt s i).map fun e => contentHash H env e.record else none

theorem liveHash_eq (h : ∀ f ∈ [DataKey.eventOrder, .eventData, .runtimeState, .config], s'.inst f = s.inst f) :
    liveHash H env s' = liveHash H env s := by
  funext i
  rw [liveHash, totalOf, eventAt, h _ (by simp), h _ (by simp), h _ (by simp), h _ (by simp)]
  rfl

theorem contentHashAt_run (hi : i < totalOf s) :
    (contentHashAt H i).run env s = .ok (liveHash H env s i, s) := by
  rw [contentHashAt, run_bind_ok _ _ (run_getEnv ..), run_bind_ok _ _ (run_load ..), liveHash, if_pos hi, eventAt]
  rcases s.inst .eventOrder i with _ | id
  · rfl
  · rw [onSome, run_bind_ok _ _ (run_load ..)]
    rfl

/-! ## The walk -/

/-- The dedup maps, after the walk has visited the positions `l`. -/
structure Visited (H : Host D) (env : Env) (full : Bool) (s : State D) (l : List ℕ) (t : State D) : Prop where
  byHash : t.inst .eventContentHash = l.foldl (visit (fun k => k) (liveHash H env s)) (s.inst .eventContentHash)
  byHashWithTs : t.inst .eventContentHashWithTs =
    if full then l.foldl (visit Prod.fst (liveHash H env s)) (s.inst .eventContentHashWithTs)
    else s.inst .eventContentHashWithTs
  frame : s.Frame [DataKey.eventContentHash, DataKey.eventContentHashWithTs] t

theorem post_cleanContentHash {d : D} {c : ℕ} :
    Post (cleanContentHash d i c) (fun _ t => t.inst .eventContentHash =
        (if ∃ k ∈ s.inst .eventContentHash d, k ≠ i then Function.update (s.inst .eventContentHash) d none
          else s.inst .eventContentHash) ∧
      s.Frame [DataKey.eventContentHash] t) env s := by
  simp only [cleanContentHash, post_bind, post_load, post_ite, post_clear, post_pure]
  refine ⟨fun hold => ⟨?_, Ledger.frame_del (by simp)⟩, fun hno => ⟨?_, Ledger.frame_refl⟩⟩
  · rw [if_pos hold]
    simp
  · rw [if_neg hno]

theorem post_cleanContentHashWithTs {d : D} {c : ℕ} :
    Post (cleanContentHashWithTs d i c) (fun _ t => t.inst .eventContentHashWithTs =
        (if ∃ e ∈ s.inst .eventContentHashWithTs d, e.1 ≠ i then
          Function.update (s.inst .eventContentHashWithTs) d none else s.inst .eventContentHashWithTs) ∧
      s.Frame [DataKey.eventContentHashWithTs] t) env s := by
  simp only [cleanContentHashWithTs, post_bind, post_load, post_ite, post_clear, post_pure]
  refine ⟨fun hold => ⟨?_, Ledger.frame_del (by simp)⟩, fun hno => ⟨?_, Ledger.frame_refl⟩⟩
  · rw [if_pos hold]
    simp
  · rw [if_neg hno]

/-- One round of either loop. -/
def cleanRound (H : Host D) (full : Bool) : ℕ → ℕ → Fn D ℕ :=
  if full then cleanStaleDedup H else cleanStaleHash H

theorem Visited.round {l : List ℕ} {c : ℕ} (h : Visited H env full s l t) (hi : i < totalOf s) :
    Post (cleanRound H full c i) (fun _ t' => Visited H env full s (l ++ [i]) t') env t := by
  have hcontent : liveHash H env t = liveHash H env s := liveHash_eq (h.frame.inst_eq (apart_of_eval rfl))
  have htotal : totalOf t = totalOf s := by
    rw [totalOf, h.frame.inst (notMem_of_eval rfl), h.frame.inst (notMem_of_eval rfl)]
    rfl
  have hrun : (contentHashAt H i).run env t = .ok (liveHash H env s i, t) := by
    rw [contentHashAt_run (htotal ▸ hi), hcontent]
  unfold cleanRound
  cases full with
  | false =>
    simp only [Bool.false_eq_true, if_false, cleanStaleHash, post_bind]
    rw [post_of_run hrun, post_onSome]
    refine ⟨fun d hd => post_cleanContentHash.mono ?_, fun hd => post_pure.2 ?_⟩
    · rintro _ t' ⟨hmap, hf⟩
      refine ⟨?_, ?_, h.frame.trans (hf.mono (by simp))⟩
      · rw [hmap, List.foldl_concat, ← h.byHash, visit, hd]
      · rw [hf.inst (notMem_of_eval rfl), h.byHashWithTs]
        rfl
    · refine ⟨?_, h.byHashWithTs, h.frame⟩
      rw [List.foldl_concat, ← h.byHash, visit, hd]
  | true =>
    simp only [if_true, cleanStaleDedup, post_bind]
    rw [post_of_run hrun, post_onSome]
    refine ⟨fun d hd => ?_, fun hd => post_pure.2 ?_⟩
    · refine post_bind.2 (post_cleanContentHash.mono ?_)
      rintro c' t₁ ⟨hmap, hf⟩
      refine post_cleanContentHashWithTs.mono ?_
      rintro _ t' ⟨hmap', hf'⟩
      refine ⟨?_, ?_, (h.frame.trans (hf.mono (by simp))).trans (hf'.mono (by simp))⟩
      · rw [hf'.inst (notMem_of_eval rfl), hmap, List.foldl_concat, ← h.byHash, visit, hd]
      · have hts := h.byHashWithTs
        rw [if_pos rfl] at hts
        rw [hmap', hf.inst (notMem_of_eval rfl), if_pos rfl, List.foldl_concat, ← hts, visit, hd]
    · have hts := h.byHashWithTs
      rw [if_pos rfl] at hts
      refine ⟨?_, ?_, h.frame⟩
      · rw [List.foldl_concat, ← h.byHash, visit, hd]
      · rw [if_pos rfl, List.foldl_concat, ← hts, visit, hd]

/-- The clean-up of the content hashes, or of all dedup entries, from the first position on. -/
def cleanupOp (full : Bool) (caller : Address) (batchSize : ℕ) : Op D :=
  if full then .cleanupStaleDedupEntries caller 0 batchSize else .cleanupStaleHashes caller 0 batchSize

/-- **A call over the whole log.** -/
theorem step_cleanup (hall : totalOf s ≤ batchSize) (hs : Step H env (cleanupOp full caller batchSize) s r s') :
    Visited H env full s (List.range (totalOf s)) s' := by
  have window {topic : Symbol} : Post (cleanupWindow (cleanRound H full) topic caller 0 batchSize)
      (fun _ s' => Visited H env full s (List.range (totalOf s)) s') env s := by
    unfold cleanupWindow
    refine post_bind_reads fun _ _ => post_bind_reads fun n hn => ?_
    obtain rfl := totalEvents_eq hn
    simp only [post_bind, post_addChecked, post_publish, post_pure]
    intro _
    have hwhole : min (0 + batchSize) (totalOf s) - 0 = totalOf s := by omega
    rw [hwhole, ← List.range_eq_range']
    have h₀ : Visited H env full s [] s := ⟨rfl, by cases full <;> rfl, Ledger.frame_refl⟩
    refine (post_range (fun j _ t => Visited H env full s (List.range j) t) h₀ ?_).mono fun c t ht => ?_
    · intro j c t hj ht
      rw [List.range_succ]
      exact ht.round hj
    · exact ⟨ht.byHash, ht.byHashWithTs, ht.frame⟩
  have key : Post (exec H (cleanupOp full caller batchSize))
      (fun _ s' => Visited H env full s (List.range (totalOf s)) s') env s := by
    cases full with
    | false =>
      simp only [cleanupOp, Bool.false_eq_true, if_false, exec, cleanupStaleHashes, post_bind, post_pure]
      exact window
    | true =>
      simp only [cleanupOp, if_true, exec, cleanupStaleDedupEntries, post_bind, post_pure]
      exact window
  exact key.of_run hs

/-! ## Exactness -/

/-- **Exactly the stale entries are removed**: what is left records the content of a live event, and
    what did is left as it was. -/
structure CleansUp (H : Host D) (env : Env) (full : Bool) (s s' : State D) : Prop where
  sound : ∀ h k, s'.inst .eventContentHash h = some k → liveHash H env s' k = some h
  kept : ∀ h k, s.inst .eventContentHash h = some k → liveHash H env s k = some h →
    s'.inst .eventContentHash h = some k
  soundWithTs : full = true → ∀ h e, s'.inst .eventContentHashWithTs h = some e →
    liveHash H env s' e.1 = some h
  keptWithTs : full = true → ∀ h e, s.inst .eventContentHashWithTs h = some e →
    liveHash H env s e.1 = some h → s'.inst .eventContentHashWithTs h = some e

/-- Every content a map records is that of a live event; and if the recorded event has it, no other
    event does. -/
structure Unambiguous (H : Host D) (env : Env) (full : Bool) (s : State D) : Prop where
  byHash : ∀ h k, s.inst .eventContentHash h = some k → (∃ i, liveHash H env s i = some h) ∧
    (liveHash H env s k = some h → ∀ i, liveHash H env s i = some h → i = k)
  byHashWithTs : full = true → ∀ h e, s.inst .eventContentHashWithTs h = some e →
    (∃ i, liveHash H env s i = some h) ∧
    (liveHash H env s e.1 = some h → ∀ i, liveHash H env s i = some h → i = e.1)

/-- **The clean-up is exact exactly when the maps are unambiguous.** -/
theorem cleanup_exact_iff (hall : totalOf s ≤ batchSize)
    (hs : Step H env (cleanupOp full caller batchSize) s r s') :
    CleansUp H env full s s' ↔ Unambiguous H env full s := by
  obtain ⟨hmap, hmapTs, hf⟩ := step_cleanup hall hs
  have hlive : liveHash H env s' = liveHash H env s := liveHash_eq (hf.inst_eq (apart_of_eval rfl))
  have hmem : ∀ i h, liveHash H env s i = some h → i ∈ List.range (totalOf s) := by
    intro i h hi
    rw [List.mem_range]
    by_contra hge
    rw [liveHash, if_neg hge] at hi
    cases hi
  have hiff := swept_iff (fun k => k) (liveHash H env s) (m := s.inst .eventContentHash) hmem
  have hiffTs := swept_iff Prod.fst (liveHash H env s) (m := s.inst .eventContentHashWithTs) hmem
  constructor
  · rintro ⟨hsound, hkept, hsoundTs, hkeptTs⟩
    rw [hlive] at hsound hsoundTs
    rw [hmap] at hsound hkept
    refine ⟨hiff.1 ⟨hsound, hkept⟩, fun hfull => ?_⟩
    rw [hmapTs, if_pos hfull] at hsoundTs hkeptTs
    exact hiffTs.1 ⟨hsoundTs hfull, hkeptTs hfull⟩
  · rintro ⟨hby, hbyTs⟩
    obtain ⟨hsound, hkept⟩ := hiff.2 hby
    have hswept (hfull : full = true) := hiffTs.2 (hbyTs hfull)
    refine ⟨?_, ?_, fun hfull => ?_, fun hfull => ?_⟩
    · rw [hmap, hlive]
      exact hsound
    · rw [hmap]
      exact hkept
    · rw [hmapTs, if_pos hfull, hlive]
      exact (hswept hfull).sound
    · rw [hmapTs, if_pos hfull]
      exact (hswept hfull).kept

/-- The same content twice, of which the map records the second. -/
def twiceScript : List (Env × Op Bytes) :=
  [(openEnv 11, .logEvent (account 66) "a" [1] none none false),
    (openEnv 12, .logEvent (account 66) "a" [1] none none true)]

/-- The second event is updated, so that the entry is stale, and is removed; the first has the content
    that it records. -/
theorem cleanup_exact_twiceScript : ∃ s r s' h, Reachable plainHost s ∧
    Step plainHost (openEnv 14) (cleanupOp false (account 65) 5) s r s' ∧
    CleansUp plainHost (openEnv 14) false s s' ∧
    s.inst .eventContentHash h = some 1 ∧ s'.inst .eventContentHash h = none := by
  let s₀ : State Bytes := deployed (openEnv 10) (account 65) 100 50
  let h := computeContentHash plainHost (openEnv 14) "a" (account 66) [1]
  let update : Env × Op Bytes := (openEnv 13, .updateEvent (account 65) 1 [3])
  let live (s : State Bytes) : List (Option Bytes) := [liveHash plainHost (openEnv 14) s 0,
    liveHash plainHost (openEnv 14) s 1]
  obtain ⟨s', hs'⟩ : ∃ s', play plainHost s₀
      ((twiceScript ++ [update]) ++ [(openEnv 14, cleanupOp false (account 65) 5)]) = some s' :=
    Option.isSome_iff_exists.1 (by decide +kernel)
  obtain ⟨s, r, hs, hstep⟩ := step_of_play hs'
  obtain ⟨s₂, r₂, hs₂, hupdate⟩ := step_of_play hs
  have hist := history_of_play (init_deployed rfl 100 50) hs₂
  have first : (play plainHost s₀ twiceScript).map (fun s => (s.inst .config (), totalOf s, live s)) =
      some (some ⟨100, 2⟩, 2, [some h, some h]) := by decide +kernel
  have before : (play plainHost s₀ (twiceScript ++ [update])).map (fun s => (totalOf s,
      s.inst .eventContentHash h, decide (live s = [some h, some h]), liveHash plainHost (openEnv 14) s 0)) =
      some (2, some 1, false, some h) := by decide +kernel
  have after : (play plainHost s₀ ((twiceScript ++ [update]) ++
      [(openEnv 14, cleanupOp false (account 65) 5)])).map (fun s => s.inst .eventContentHash h) =
      some none := by decide +kernel
  have htimes : times (traceOf plainHost s₀ twiceScript) = [11, 12] := by decide +kernel
  have hrespects : (traceOf plainHost s₀ twiceScript).all
      (fun p => p.2.respectsDedup plainHost p.1) = true := by decide +kernel
  rw [hs₂, Option.map_some, Option.some.injEq, Prod.mk.injEq, Prod.mk.injEq] at first
  rw [hs, Option.map_some, Option.some.injEq, Prod.mk.injEq, Prod.mk.injEq, Prod.mk.injEq] at before
  rw [hs', Option.map_some, Option.some.injEq] at after
  obtain ⟨hcfg, htwo, hboth⟩ := first
  obtain ⟨htotal, hrecorded, hnotBoth, hlive⟩ := before
  have hpay : ∀ s₁ env₁ op, (s₁, Action.call env₁ op) ∈ traceOf plainHost s₀ twiceScript →
      env₁.payload = symbolPayload := by
    intro s₁ env₁ op hp
    have hmem := mem_of_mem_traceOf hp
    simp only [twiceScript, List.mem_cons, Prod.mk.injEq, List.not_mem_nil, or_false] at hmem
    rcases hmem with ⟨rfl, -⟩ | ⟨rfl, -⟩ <;> rfl
  obtain ⟨R, hR, hsound⟩ := run_dedupSound Function.injective_id hist (by rw [Timely, htimes]; decide) hpay
    (List.all_eq_true.1 hrespects)
  have hnow := hsound (openEnv 14) rfl (by rw [htimes]; decide)
  have hkept : s.inst .eventContentHash = s₂.inst .eventContentHash :=
    ((exec_writes plainHost update.2).of_run hupdate).inst (notMem_of_eval rfl)
  -- only the content of the two events was recorded
  have hcontent : ∀ d k, s.inst .eventContentHash d = some k → d = h := by
    intro d k hk
    rw [hkept] at hk
    obtain ⟨q, hq, rfl⟩ := hnow.byHash d k hk
    obtain ⟨e, he, rfl⟩ : ∃ e, eventAt s₂ k = some e ∧ e.record = q := by
      have hat := hR.eventAt k
      rw [hq] at hat
      exact Option.map_eq_some_iff.1 hat
    have hlt : k < 2 := hR.lt_total hcfg he
    have hliveAt : liveHash plainHost (openEnv 14) s₂ k =
        some (contentHash plainHost (openEnv 14) e.record) := by
      rw [liveHash, if_pos (htwo.symm ▸ hlt), he, Option.map_some]
    obtain ⟨hzero, hone⟩ : liveHash plainHost (openEnv 14) s₂ 0 = some h ∧
        liveHash plainHost (openEnv 14) s₂ 1 = some h := by
      simpa [live] using hboth
    interval_cases k
    · exact Option.some.inj (hliveAt.symm.trans hzero)
    · exact Option.some.inj (hliveAt.symm.trans hone)
  have honly : ∀ i, liveHash plainHost (openEnv 14) s i = some h → i = 0 := by
    intro i hi
    have hlt : i < 2 := by
      by_contra hge
      rw [liveHash, if_neg (by omega)] at hi
      cases hi
    interval_cases i
    · rfl
    · exact absurd (congrArg₂ (fun a b => [a, b]) hlive hi) (of_decide_eq_false hnotBoth)
  have hunambiguous : Unambiguous plainHost (openEnv 14) false s := by
    refine ⟨fun d k hk => ?_, fun hfull => by cases hfull⟩
    obtain rfl := hcontent d k hk
    exact ⟨⟨0, hlive⟩, fun hat i hi => (honly i hi).trans (honly k hat).symm⟩
  exact ⟨s, r, s', h, ⟨_, history_of_play (init_deployed rfl 100 50) hs⟩, hstep,
    (cleanup_exact_iff (by omega) hstep).2 hunambiguous, hrecorded, after⟩

/-- The content of an event before its update stays recorded. -/
theorem stale_entry_kept : ∃ s r s' h, Reachable plainHost s ∧
    Step plainHost (openEnv 14) (cleanupOp false (account 65) 5) s r s' ∧
    s'.inst .eventContentHash h = some 0 ∧ liveHash plainHost (openEnv 14) s' 0 ≠ some h := by
  let s₀ : State Bytes := deployed (openEnv 10) (account 65) 100 50
  let h := computeContentHash plainHost (openEnv 14) "a" (account 66) [1]
  obtain ⟨s', hs'⟩ : ∃ s', play plainHost s₀ (staleScript ++ [(openEnv 14, cleanupOp false (account 65) 5)]) =
    some s' := Option.isSome_iff_exists.1 (by decide +kernel)
  obtain ⟨s, r, hs, hstep⟩ := step_of_play hs'
  have after : (play plainHost s₀ (staleScript ++ [(openEnv 14, cleanupOp false (account 65) 5)])).map
      (fun s => (s.inst .eventContentHash h, decide (liveHash plainHost (openEnv 14) s 0 = some h))) =
      some (some 0, false) := by decide +kernel
  rw [hs', Option.map_some, Option.some.injEq, Prod.mk.injEq] at after
  exact ⟨s, r, s', h, ⟨_, history_of_play (init_deployed rfl 100 50) hs⟩, hstep, after.1,
    of_decide_eq_false after.2⟩

end AuditLedger
