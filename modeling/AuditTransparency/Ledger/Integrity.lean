/-
  AuditLedger — the hash chain is intact.

  `Intact H s n` says what an auditor relies on: the first `n` positions hold
  events, no other does, and every event carries the hash of its predecessor and
  its own.  `reachable_intact`: it holds in every reachable state, however the
  events were logged and rewritten, and `verify_integrity` finds nothing to object.
-/
import AuditTransparency.Ledger.Refinement

namespace AuditLedger

open Soroban
open Soroban.Call hiding hasPers publish

variable {D : Type} [DecidableEq D] {H : Host D} {env : Env} {s s' : State D} {L : List (Entry D)}

/-- The hash chain over the first `n` positions. -/
structure Intact (H : Host D) (s : State D) (n : ℕ) : Prop where
  stored : ∀ i, i < n → ∃ id e, s.inst .eventOrder i = some id ∧ s.inst .eventData id = some e
  absent : ∀ i, n ≤ i → s.inst .eventOrder i = none
  distinct : ∀ i j, i < n → j < n → s.inst .eventOrder i = s.inst .eventOrder j → i = j
  index_eq : ∀ i e, eventAt s i = some e → e.index = i
  first : ∀ e, eventAt s 0 = some e → e.prevHash = H.zeros
  link : ∀ i e e', eventAt s i = some e → eventAt s (i + 1) = some e' → e'.prevHash = e.eventHash
  hash : ∀ i id e, s.inst .eventOrder i = some id → s.inst .eventData id = some e →
    e.eventHash = computeEventHash H id e.prevHash i e.timestamp

/-- An entry of the log, from what is stored. -/
theorem Holds.entry_of_order (h : Holds s L) {i : ℕ} {id : D} (hi : s.inst .eventOrder i = some id) :
    ∃ p, L[i]? = some p ∧ p.1 = id := by
  rw [h.order] at hi
  obtain ⟨p, hp, rfl⟩ := Option.map_eq_some_iff.1 hi
  exact ⟨p, hp, rfl⟩

theorem Holds.entry_of_eventAt (h : Holds s L) {i : ℕ} {e : Event D} (he : eventAt s i = some e) :
    ∃ p, L[i]? = some p ∧ p.2 = e := by
  rw [h.eventAt_eq] at he
  obtain ⟨p, hp, rfl⟩ := Option.map_eq_some_iff.1 he
  exact ⟨p, hp, rfl⟩

theorem LogInv.intact (hinj : Function.Injective H.sha256) (h : LogInv H s L) :
    Intact H s L.length where
  stored i hi := by
    have hp := List.getElem?_eq_getElem hi
    exact ⟨_, _, h.holds.get_order hp, h.holds.get_data hp⟩
  absent i hi := by rw [h.holds.order, List.getElem?_eq_none hi]; rfl
  distinct i j hi hj hij := by
    have hp := List.getElem?_eq_getElem hi
    have hq := List.getElem?_eq_getElem hj
    rw [h.holds.get_order hp, h.holds.get_order hq] at hij
    exact h.chain.distinctIds hinj i j _ _ hp hq (Option.some.inj hij)
  index_eq i e he := by
    obtain ⟨p, hp, rfl⟩ := h.holds.entry_of_eventAt he
    exact (h.chain.placed i p hp).index_eq
  first e he := by
    obtain ⟨p, hp, rfl⟩ := h.holds.entry_of_eventAt he
    exact (h.chain.linked.get hp).1
  link i e e' he he' := by
    obtain ⟨p, hp, rfl⟩ := h.holds.entry_of_eventAt he
    obtain ⟨q, hq, rfl⟩ := h.holds.entry_of_eventAt he'
    rw [show q.2.prevHash = (linking H).tail H.zeros (L.take (i + 1)) from (h.chain.linked.get hq).1]
    exact Linking.tail_take_succ hp
  hash i id e hi he := by
    obtain ⟨p, hp, rfl⟩ := h.holds.entry_of_order hi
    rw [h.holds.get_data hp] at he
    obtain rfl : p.2 = e := Option.some.inj he
    have := (h.chain.linked.get hp).2
    rwa [Nat.zero_add] at this

/-! ## Verification -/

/-- One round of `verify_range` passes. -/
theorem LogInv.verifyEvent_run (h : LogInv H s L) {i : ℕ} (hi : i < L.length) :
    (verifyEvent H (some (hashBefore H L i)) i).run env s =
      .ok (some (hashBefore H L (i + 1)), s) := by
  have hp := List.getElem?_eq_getElem hi
  obtain ⟨hprev, hhash⟩ := h.chain.linked.get hp
  have hnext : hashBefore H L (i + 1) = L[i].2.eventHash := Linking.tail_take_succ hp
  rw [Nat.zero_add] at hhash
  rw [hnext]
  simp only [verifyEvent, onSome, run_bind, run_load, h.holds.get_order hp, h.holds.get_data hp,
    Except.bind, run_pure, Option.bind_some]
  rw [if_pos ⟨hprev, hhash⟩]

/-- The loop of `verify_range` passes. -/
theorem LogInv.verifyLoop_run (h : LogInv H s L) :
    ∀ n i, i + n ≤ L.length →
      ((List.range' i n).foldlM (verifyEvent H) (some (hashBefore H L i))).run env s =
        .ok (some (hashBefore H L (i + n)), s)
  | 0, _, _ => rfl
  | n + 1, i, hn => by
    rw [List.range'_succ, List.foldlM_cons, run_bind_ok _ _ (h.verifyEvent_run (by omega)),
      verifyLoop_run h n (i + 1) (by omega), show i + 1 + n = i + (n + 1) by omega]

theorem LogInv.verifyRange_run (h : LogInv H s L) {first last : ℕ} (hl : first ≤ last)
    (hn : last ≤ L.length) : (verifyRange H first last).run env s = .ok (true, s) := by
  have hseed : (verifySeed H first).run env s = .ok (some (hashBefore H L first), s) := by
    rcases first with _ | i
    · rfl
    · have hp : L[i]? = some L[i] := List.getElem?_eq_getElem (by omega)
      have hhash : hashBefore H L (i + 1) = L[i].2.eventHash := Linking.tail_take_succ hp
      simp [verifySeed, onSome, run_bind, h.holds.get_order hp, h.holds.get_data hp, Except.bind,
        hhash]
  rw [verifyRange, run_bind_ok _ _ hseed,
    run_bind_ok _ _ (h.verifyLoop_run (last - first) first (by omega))]
  rfl

/-- **The hash chain is intact in every reachable state**, and the integrity
    checks say so. -/
theorem reachable_intact (hinj : Function.Injective H.sha256) (h : Reachable H s) :
    ∃ n, (∀ env, (totalEvents : Fn D ℕ).run env s = .ok (n, s)) ∧ Intact H s n ∧
      (∀ env, (verifyIntegrity H).run env s = .ok (true, s)) ∧
      ∀ env first last, first ≤ last → last ≤ n →
        (verifyIntegrityRange H first last).run env s = .ok (true, s) := by
  obtain ⟨tr, htr⟩ := h
  obtain ⟨R, L, hL, -⟩ := hasLog_of_history hinj htr
  refine ⟨L.length, fun env => hL.totalEvents_run, hL.intact hinj, fun env => ?_,
    fun env first last hfl hl => ?_⟩
  · rw [verifyIntegrity, run_bind_ok _ _ hL.requireInitialized_run,
      run_bind_ok _ _ hL.totalEvents_run]
    exact hL.verifyRange_run (Nat.zero_le _) le_rfl
  · rw [verifyIntegrityRange, run_bind_ok _ _ hL.requireInitialized_run]
    exact hL.verifyRange_run hfl hl

/-- A log that was rewritten in the middle. -/
def rewrittenScript : List (Env × Op Bytes) :=
  [(openEnv 11, .logEvent (account 66) "a" [1] none none false),
    (openEnv 12, .logEvents [(account 66, "a", [2]), (account 67, "b", [3])]),
    (openEnv 13, .updateEvent (account 65) 1 [7, 7]),
    (openEnv 14, .rollbackEvent (account 65) 1 0)]

theorem reachable_intact_rewritten : ∃ s, Reachable plainHost s ∧
    s.inst .config () = some ⟨100, 3⟩ ∧ ∃ n, Intact plainHost s n := by
  obtain ⟨s, hs⟩ : ∃ s, play plainHost (deployed (openEnv 10) (account 65) 100 50) rewrittenScript =
      some s := Option.isSome_iff_exists.1 (by decide +kernel)
  have hcfg : (play plainHost (deployed (openEnv 10) (account 65) 100 50) rewrittenScript).bind
      (·.inst .config ()) = some ⟨100, 3⟩ := by decide +kernel
  have hreach : Reachable plainHost s := ⟨_, history_of_play (init_deployed rfl 100 50) hs⟩
  obtain ⟨n, -, hn, -⟩ := reachable_intact Function.injective_id hreach
  exact ⟨s, hreach, by rw [hs] at hcfg; exact hcfg, n, hn⟩

end AuditLedger
