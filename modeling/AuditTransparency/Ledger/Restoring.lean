/-
  AuditLedger — rolling an event back.

  `rollback_event` gives an event the content of one of its versions again, and
  computes the id of that content anew.  The id contains the bits of the event type,
  which for a long type are a handle of the invocation.

  * `post_rollbackEvent_restored`: the content is that of the version, and nothing else
    changes;
  * `rollback_restores_iff`: the id is the one the version had, and a second rollback
    changes nothing, exactly when the invocations give the type the same bits.
-/
import AuditTransparency.Ledger.Payloads
import AuditTransparency.Ledger.Returning
import AuditTransparency.Ledger.Versioning

namespace AuditLedger

open Soroban
open Soroban.Call hiding hasPers publish

variable {D : Type} {H : Host D} {env env' env₂ : Env} {q : Record} {i v : ℕ} {caller caller₂ : Address}

/-! ## Ids -/

/-- Two invocations give a content the same id when they give its type the same bits. -/
theorem idOf_eq_iff (hinj : Function.Injective H.sha256) :
    idOf H env i q = idOf H env' i q ↔ env.payload q.eventType = env'.payload q.eventType := by
  constructor
  · exact computeEventId_payload hinj
  · intro hp
    rw [idOf, computeEventId, hp, idOf, computeEventId]

variable [DecidableEq D] {s s' : State D} {L : List (Entry D)} {tr : List (State D × Action D)}
  {w : EventVersion D} {id : D}

/-! ## One rollback -/

/-- The versions of an event differ from it in the metadata only. -/
theorem LogInv.core_of_history (h : LogInv H s L) {p : Entry D} (hp : L[i]? = some p)
    (hw : w ∈ historyOf s i) : w.data.record.core = p.2.record.core := by
  rw [historyOf] at hw
  rcases hv : s.inst .eventVersions i with _ | vs
  · rw [hv, h.holds.eventAt_eq, hp] at hw
    obtain rfl : w = originalVersion p.2 := by simpa using hw
    rfl
  · rw [hv] at hw
    obtain ⟨p', hp', hall⟩ := h.versions i vs hv
    obtain rfl : p = p' := Option.some.inj (hp.symm.trans hp')
    exact (hall w hw).2

/-- The event at `i` has the content of the version `w` and the id `id`; the other events, the total
    and the indices are unchanged. -/
structure Restored (s s' : State D) (i : ℕ) (w : EventVersion D) (id : D) : Prop where
  content : contentAt s' i = some w.data.content
  order : s'.inst .eventOrder i = some id
  others : ∀ j ≠ i, contentAt s' j = contentAt s j ∧ s'.inst .eventOrder j = s.inst .eventOrder j
  total : ∃ n, ∀ env, (totalEvents : Fn D ℕ).run env s = .ok (n, s) ∧
    (totalEvents : Fn D ℕ).run env s' = .ok (n, s')
  indices : ∀ f ∈ [DataKey.eventTypeIndices, .eventTypeCount, .submitterEventIndices,
    .submitterEventCount], s'.inst f = s.inst f

/-- An event that has the id of a version has its content. -/
theorem contentAt_of_id (hinj : Function.Injective H.sha256) (h : History H tr s) (hL : LogInv H s L)
    (hw : w ∈ historyOf s i) (hid : s.inst .eventOrder i = some (idOf H env i w.data.record)) :
    contentAt s i = some w.data.content := by
  obtain ⟨s₀, h₀, hrun⟩ := h
  rw [hL.holds.order] at hid
  obtain ⟨p, hp, hpid⟩ := Option.map_eq_some_iff.1 hid
  have hcontent : contentAt s i = some p.2.content := by rw [contentAt, hL.holds.eventAt_eq, hp]; rfl
  obtain ⟨sub, hall, hlive⟩ := subtype_of_run hinj h₀ hrun i
  have hsub : w.data.subEventType = p.2.subEventType :=
    (hall _ (List.mem_map_of_mem hw)).trans (hlive _ hcontent).symm
  have hcore := hL.core_of_history hp hw
  simp only [Record.core, Event.record, Record.mk.injEq, and_true] at hcore
  obtain ⟨hts, hty, hcat, hsubmitter⟩ := hcore
  obtain ⟨env', hid'⟩ := (hL.chain.placed i p hp).id_eq
  have hmeta : w.data.metadata = p.2.metadata := by
    rw [hid'] at hpid
    simp only [idOf, Event.record, hts, hty, hsubmitter] at hpid
    exact (computeEventId_metadata hinj hpid).symm
  rw [hcontent]
  simp only [Event.content, Event.record, hts, hty, hcat, hsubmitter, hmeta, hsub]

/-- **A rollback restores the version.** -/
theorem post_rollbackEvent_restored (hinj : Function.Injective H.sha256) (h : History H tr s)
    (hL : LogInv H s L) :
    Post (rollbackEvent H caller i v)
      (fun id s' => ∃ w, (historyOf s i)[v]? = some w ∧ id = idOf H env i w.data.record ∧
        Restored s s' i w id ∧ (historyOf s' i)[v]? = some w) env s := by
  refine Post.with_frame (L := layout D) (W := rewriteWrites)
    ((((post_rollbackEvent_restores hinj hL).and (post_rollbackEvent hinj ⟨L, hL, rfl⟩)).and
      (post_rollbackEvent_touched hinj ⟨L, hL, rfl⟩)).mono ?_)
  rintro id s' ⟨⟨⟨w, hw, hid, hcases⟩, L', hL', hrec⟩, htouch⟩ hf
  have hlen : L'.length = L.length := by
    have := congrArg List.length hrec
    rwa [length_amendAll, records, records, List.length_map, List.length_map] at this
  have hothers : ∀ j ≠ i, contentAt s' j = contentAt s j ∧ s'.inst .eventOrder j = s.inst .eventOrder j :=
    fun j hj => ⟨(htouch.others j hj).content, (htouch.others j hj).order⟩
  have htotal : ∃ n, ∀ env, (totalEvents : Fn D ℕ).run env s = .ok (n, s) ∧
      (totalEvents : Fn D ℕ).run env s' = .ok (n, s') :=
    ⟨L.length, fun env => ⟨hL.totalEvents_run, hlen ▸ hL'.totalEvents_run⟩⟩
  have hindices : ∀ f ∈ [DataKey.eventTypeIndices, .eventTypeCount, .submitterEventIndices,
      .submitterEventCount], s'.inst f = s.inst f := hf.inst_eq (apart_of_eval rfl)
  refine ⟨w, hw, hid, ?_⟩
  rcases hcases with ⟨horder, rfl⟩ | ⟨-, u, hu, hcontent⟩
  · have hlive := contentAt_of_id hinj h hL (List.mem_of_getElem? hw) (hid ▸ horder)
    exact ⟨⟨hlive, horder, hothers, htotal, hindices⟩, hw⟩
  · have horder : s'.inst .eventOrder i = some id := by
      have hrecord : u.data.record = w.data.record := congrArg Prod.fst hcontent
      rw [hu.order, Function.update_self, hrecord, hid]
    refine ⟨⟨hu.revised.trans (congrArg some hcontent), horder, hothers, htotal, hindices⟩, ?_⟩
    have hlt := (List.getElem?_eq_some_iff.1 hw).1
    rw [historyOf, hu.versions, Function.update_self, Option.getD_some, List.getElem?_append_left hlt, hw]

/-! ## Two rollbacks -/

/-- **A second rollback** to the version that the event has been given changes nothing when the type
    has the same bits again, and another id otherwise. -/
theorem post_rollbackEvent_again (hinj : Function.Injective H.sha256) (hL : LogInv H s' L)
    (hw : (historyOf s' i)[v]? = some w) (hid : s'.inst .eventOrder i = some (idOf H env i w.data.record)) :
    Post (rollbackEvent H caller₂ i v)
      (fun id₂ s₂ => s₂ = s' ∧ id₂ = idOf H env i w.data.record ↔
        env₂.payload w.data.eventType = env.payload w.data.eventType) env₂ s' := by
  refine (post_rollbackEvent_restores hinj hL).mono ?_
  rintro id₂ s₂ ⟨w', hw', rfl, hcases⟩
  obtain rfl : w = w' := Option.some.inj (hw.symm.trans hw')
  have hbits : idOf H env₂ i w.data.record = idOf H env i w.data.record ↔
      env₂.payload w.data.eventType = env.payload w.data.eventType := idOf_eq_iff hinj
  rw [← hbits]
  refine ⟨fun h => h.2, fun heq => ?_⟩
  rcases hcases with ⟨-, rfl⟩ | ⟨hne, -⟩
  · exact ⟨rfl, heq⟩
  · rw [heq] at hne
    exact absurd hid hne

/-- **When a rollback restores the id of a version**: in every reachable state the owner can roll an
    event back to any version, which restores its content and nothing else; the id is the one the
    event had with that version, and a second rollback changes nothing, exactly when the type has the
    same bits in the invocation of the rollback as in the one that wrote the version, and in that of
    the second rollback as in that of the first. -/
theorem rollback_restores_iff (hinj : Function.Injective H.sha256) (h : History H tr s)
    (hi : i < runtimeTotal s) (hv : v < (historyOf s i).length) (ha : Authorised env s caller)
    (ha₂ : Authorised env₂ s caller₂) :
    ∃ w id s' id₂ s₂, (historyOf s i)[v]? = some w ∧
      (rollbackEvent H caller i v).run env s = .ok (id, s') ∧ Restored s s' i w id ∧
      (rollbackEvent H caller₂ i v).run env₂ s' = .ok (id₂, s₂) ∧
      (∃ env' d, WrittenIn H tr s i v env' d) ∧
      ∀ env' d, WrittenIn H tr s i v env' d → (id = d ∧ s₂ = s' ∧ id₂ = id ↔
        env.payload w.data.eventType = env'.payload w.data.eventType ∧
          env₂.payload w.data.eventType = env.payload w.data.eventType) := by
  obtain ⟨s₀, h₀, hrun⟩ := id h
  obtain ⟨⟨R, L, hL, -⟩, -⟩ := sound_of_run hinj (sound_of_init h₀) hrun
  rw [hL.runtimeTotal_eq] at hi
  obtain ⟨id, s', hfirst, -⟩ := (hL.returns_rollbackEvent ha hi).2 hv
  obtain ⟨w, hw, rfl, hres, hw'⟩ := (post_rollbackEvent_restored hinj h hL).of_run hfirst
  obtain ⟨L', hL', -⟩ := (post_rollbackEvent hinj ⟨L, hL, rfl⟩).of_run hfirst
  have hf : s.Frame rewriteWrites s' := Writes.of_run (L := layout D) inferInstance hfirst
  have hi' : i < L'.length := by
    have horder := hres.order
    rw [hL'.holds.order] at horder
    obtain ⟨p, hp, -⟩ := Option.map_eq_some_iff.1 horder
    exact (List.getElem?_eq_some_iff.1 hp).1
  have hauth : Authorised env₂ s' caller₂ := ha₂.of_eq (hf.inst_eq (apart_of_eval rfl))
  obtain ⟨id₂, s₂, hsecond, -⟩ :=
    (hL'.returns_rollbackEvent hauth hi').2 (List.getElem?_eq_some_iff.1 hw').1
  have hagain := (post_rollbackEvent_again hinj hL' hw' hres.order).of_run hsecond
  refine ⟨w, _, s', id₂, s₂, hw, hfirst, hres, hsecond, written_of_run hinj h₀ hrun hv, ?_⟩
  intro env' d hwritten
  obtain ⟨c, hc, rfl⟩ := hwritten.id_eq hinj h
  obtain rfl : w.data.content = c := by
    rw [contentsOf, List.getElem?_map, hw] at hc
    exact Option.some.inj hc
  have hbits : idOf H env i w.data.record = idOf H env' i w.data.record ↔
      env.payload w.data.eventType = env'.payload w.data.eventType := idOf_eq_iff hinj
  exact and_congr hbits hagain

theorem rollback_restores_iff_revisedScript : ∃ tr s s' id, History plainHost tr s ∧
    (historyOf s 0).length = 3 ∧
    (rollbackEvent plainHost (account 65) 0 0).run (openEnv 15) s = .ok (id, s') ∧
    (∃ env' d, WrittenIn plainHost tr s 0 0 env' d ∧ id = d) ∧
    (rollbackEvent plainHost (account 65) 0 0).run (openEnv 16) s' = .ok (id, s') := by
  let s₀ : State Bytes := deployed (openEnv 10) (account 65) 100 50
  obtain ⟨s, hs⟩ : ∃ s, play plainHost s₀ revisedScript = some s :=
    Option.isSome_iff_exists.1 (by decide +kernel)
  have facts : (play plainHost s₀ revisedScript).map (fun s => ((rosterOf s).rbac,
      decide ((rosterOf s).IsOwner (account 65)), runtimeTotal s, (historyOf s 0).length)) =
      some (false, true, 2, 3) := by decide +kernel
  rw [hs, Option.map_some, Option.some.injEq] at facts
  simp only [Prod.mk.injEq, decide_eq_true_eq] at facts
  obtain ⟨hrbac, howner, htotal, hlen⟩ := facts
  have hist := history_of_play (init_deployed rfl 100 50) hs
  have hauth : ∀ t, Authorised (openEnv t) s (account 65) := fun _ => authorised_of_owner rfl hrbac howner
  obtain ⟨w, id, s', id₂, s₂, -, hfirst, -, hsecond, ⟨env', d, hwritten⟩, hiff⟩ :=
    rollback_restores_iff Function.injective_id hist (i := 0) (v := 0) (by rw [htotal]; decide)
      (by rw [hlen]; decide) (hauth 15) (hauth 16)
  -- all invocations of the script encode symbols alike
  have hbits : env'.payload = symbolPayload := by
    obtain ⟨tr₁, s₁, op, s₂', tr₂, htr, -⟩ := hwritten
    have htrace : (s₁, Action.call env' op) ∈ traceOf plainHost s₀ revisedScript :=
      htr ▸ List.mem_append_right _ (List.mem_cons_self ..)
    have hmem : (env', op) ∈ revisedScript := mem_of_mem_traceOf htrace
    simp only [revisedScript, List.mem_cons, Prod.mk.injEq, List.not_mem_nil, or_false] at hmem
    rcases hmem with ⟨rfl, -⟩ | ⟨rfl, -⟩ | ⟨rfl, -⟩ | ⟨rfl, -⟩ <;> rfl
  obtain ⟨hid, rfl, rfl⟩ := (hiff env' d hwritten).2 ⟨by rw [hbits]; rfl, rfl⟩
  exact ⟨_, s, s₂, id₂, hist, hlen, hfirst, ⟨env', d, hwritten, hid⟩, hsecond⟩

/-- An invocation at the time `t`, with the handle `t`. -/
def handleEnv (t : ℕ) : Env := { invocation fun _ => t.toUInt64 with timestamp := t }

/-- An event of a long type is logged, amended, and rolled back twice. -/
def settledScript : List (Env × Op Bytes) :=
  [(handleEnv 11, .logEvent (account 66) "trade_settled" [1] none none false),
    (handleEnv 12, .updateEvent (account 65) 0 [7]), (handleEnv 13, .rollbackEvent (account 65) 0 0),
    (handleEnv 14, .rollbackEvent (account 65) 0 0)]

/-- **A rollback gives a long type another id**, and the next one yet another. -/
theorem rollback_not_exact : ∃ tr s env' d r s' r₂ s₂, History plainHost tr s ∧ (historyOf s 0).length = 2 ∧
    WrittenIn plainHost tr s 0 0 env' d ∧
    Step plainHost (handleEnv 13) (.rollbackEvent (account 65) 0 0) s r s' ∧ s'.inst .eventOrder 0 ≠ some d ∧
    Step plainHost (handleEnv 14) (.rollbackEvent (account 65) 0 0) s' r₂ s₂ ∧
    s₂.inst .eventOrder 0 ≠ s'.inst .eventOrder 0 := by
  let s₀ : State Bytes := deployed (openEnv 10) (account 65) 100 50
  obtain ⟨s₂, hs₂⟩ : ∃ s, play plainHost s₀ settledScript = some s :=
    Option.isSome_iff_exists.1 (by decide +kernel)
  obtain ⟨s', r₂, hs', hsecond⟩ := step_of_play (show play plainHost s₀ (settledScript.take 3 ++
    [(handleEnv 14, .rollbackEvent (account 65) 0 0)]) = some s₂ from hs₂)
  obtain ⟨s, r, hs, hfirst⟩ := step_of_play (show play plainHost s₀ (settledScript.take 2 ++
    [(handleEnv 13, .rollbackEvent (account 65) 0 0)]) = some s' from hs')
  obtain ⟨s₀', rlog, s₁, hs₀, hlog, hrest, hist⟩ := history_around (init_deployed rfl 100 50)
    (show play plainHost s₀ ([] ++ (handleEnv 11, .logEvent (account 66) "trade_settled" [1] none none false) ::
      [(handleEnv 12, .updateEvent (account 65) 0 [7])]) = some s from hs)
  obtain rfl : s₀ = s₀' := Option.some.inj hs₀
  have hs₁ : play plainHost s₀ (settledScript.take 1) = some s₁ := play_snoc hs₀ hlog
  have lengths : (play plainHost s₀ (settledScript.take 1)).map (fun s => (historyOf s 0).length) =
        some 1 ∧
      (play plainHost s₀ (settledScript.take 2)).map (fun s => (historyOf s 0).length) = some 2 := by
    decide +kernel
  let idAt (n : ℕ) : Option Bytes :=
    (play plainHost s₀ (settledScript.take n)).bind fun s => s.inst .eventOrder 0
  have ids : (idAt 1).isSome ∧ idAt 3 ≠ idAt 1 ∧ idAt 4 ≠ idAt 3 := by decide +kernel
  obtain ⟨d, hd⟩ := Option.isSome_iff_exists.1 ids.1
  simp only [idAt, hs₁, hs', show play plainHost s₀ (settledScript.take 4) = some s₂ from hs₂,
    Option.bind_some] at hd ids
  rw [hs₁, hs, Option.map_some, Option.map_some, Option.some.injEq, Option.some.injEq] at lengths
  refine ⟨_, s, handleEnv 11, d, r, s', r₂, s₂, hist, lengths.2, ?_, hfirst, hd ▸ ids.2.1, hsecond, ids.2.2⟩
  exact ⟨[], s₀, _, s₁, _, rfl, ⟨rlog, hlog⟩, run_of_play hrest, by decide, lengths.1, hd⟩

end AuditLedger
