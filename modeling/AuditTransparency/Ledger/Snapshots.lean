/-
  AuditLedger — snapshots.

  A snapshot records how many events there are and the hash of the last one, and
  `verify_snapshot` compares that hash alone with what is stored now.  As every
  hash is computed from the one before, that one hash stands for the ids and times
  of all events the snapshot covers.

  * `hashBefore_eq_iff`: the hash before a position commits to the entries up to there;
  * `history_snapshot`: a snapshot verifies in exactly the later states whose events
    have the ids and times they had when it was taken.
-/
import AuditTransparency.Ledger.Trail

namespace AuditLedger

open Soroban
open Soroban.Call hiding hasPers publish

variable {D : Type} {H : Host D} {L M : List (Entry D)} {n : ℕ}

/-! ## What a hash commits to -/

/-- Two digests written one after the other can be told apart: all have 32 bytes. -/
def Host.Framed (H : Host D) : Prop :=
  ∀ a b c d, H.bytesOf a ++ H.bytesOf b = H.bytesOf c ++ H.bytesOf d → a = c ∧ b = d

/-- What `compute_event_hash` reads of an entry. -/
def Entry.stamp (p : Entry D) : D × Bytes := (p.1, u64ToBytes p.2.timestamp)

theorem digest_eq_iff (hinj : Function.Injective H.sha256) (hframed : H.Framed) (i : ℕ) (p q : D)
    (a b : Entry D) : (linking H).digest i p a = (linking H).digest i q b ↔
      p = q ∧ a.stamp = b.stamp := by
  simp only [linking, computeEventHash, Entry.stamp, Prod.mk.injEq]
  constructor
  · intro he
    obtain ⟨he, hts⟩ := List.append_inj' (hinj he) rfl
    obtain ⟨he, -⟩ := List.append_inj' he rfl
    obtain ⟨hid, hpq⟩ := hframed _ _ _ _ he
    exact ⟨hpq, hid, hts⟩
  · rintro ⟨rfl, hid, hts⟩
    rw [hid, hts]

/-- **The hash before a position commits to the entries up to there.** -/
theorem hashBefore_eq_iff (hinj : Function.Injective H.sha256) (hframed : H.Framed) (hL : Chain H L)
    (hM : Chain H M) (hl : n ≤ L.length) (hm : n ≤ M.length) :
    hashBefore H L n = hashBefore H M n ↔ (L.take n).map Entry.stamp = (M.take n).map Entry.stamp := by
  have part : ∀ {N : List (Entry D)}, Chain H N → (linking H).Linked H.zeros 0 (N.take n) := by
    intro N hN
    have hsplit : (linking H).Linked H.zeros 0 (N.take n ++ N.drop n) := by
      rw [List.take_append_drop]; exact hN.linked
    exact (Linking.linked_append.1 hsplit).1
  refine Linking.tail_eq_iff (digest_eq_iff hinj hframed) (part hL) (part hM) ?_
  rw [List.length_take_of_le hl, List.length_take_of_le hm]

/-- Where the times are known to agree, the ids and times agree when the stamps do. -/
theorem map_stamp_eq_iff (hts : L.map (·.2.timestamp) = M.map (·.2.timestamp)) :
    L.map Entry.stamp = M.map Entry.stamp ↔
      L.map (fun p => (some p.1, some p.2.timestamp)) = M.map fun p => (some p.1, some p.2.timestamp) := by
  induction L generalizing M with
  | nil =>
    cases M with
    | nil => simp
    | cons b M => cases hts
  | cons a L ih =>
    cases M with
    | nil => cases hts
    | cons b M =>
      simp only [List.map_cons, List.cons.injEq] at hts ⊢
      simp [ih hts.2, Entry.stamp, hts.1]

variable [DecidableEq D] {env : Env} {s s' s₁ s₂ : State D} {r : Ret D} {R : List Record} {act : Action D}
  {id : ℕ}

/-! ## Ids and times -/

/-- The ids and times of the first `n` events. -/
def stamps (s : State D) (n : ℕ) : List (Option D × Option ℕ) :=
  (List.range n).map fun i => (s.inst .eventOrder i, (eventAt s i).map (·.timestamp))

theorem stamps_eq (h : Holds s L) (hn : n ≤ L.length) :
    stamps s n = (L.take n).map fun p => (some p.1, some p.2.timestamp) := by
  refine List.ext_getElem? fun i => ?_
  simp only [stamps, List.getElem?_map, List.getElem?_take]
  by_cases hi : i < n
  · have hp := List.getElem?_eq_getElem (show i < L.length by omega)
    rw [List.getElem?_range hi, if_pos hi, hp]
    simp [h.get_order hp, h.eventAt_eq, hp]
  · rw [if_neg hi, List.getElem?_eq_none (by simpa using hi)]
    rfl

/-- The log of `s` holds the events of `M`, whatever has become of their metadata. -/
def Covers (H : Host D) (s : State D) (M : List (Entry D)) : Prop :=
  ∃ R, HasLog H s R ∧ (records M).map Record.core <+: R.map Record.core

theorem covers_next (hinj : Function.Injective H.sha256) (hn : Next H s act s') (h : Covers H s M) :
    Covers H s' M := by
  obtain ⟨R, hR, hpre⟩ := h
  refine ⟨_, next_hasLog hinj hR hn, hpre.trans ?_⟩
  cases act with
  | call env op =>
    rw [Action.logAfter, List.map_append, map_core_amendAll]
    exact List.prefix_append ..
  | expireTemporary f k | expirePersistent f k => exact List.prefix_rfl

/-! ## Snapshots -/

/-- The snapshot `snap` is kept under `id`. -/
structure Taken (s : State D) (id : ℕ) (snap : Snapshot D) : Prop where
  data : s.inst .snapshotData id = some snap
  count : id < (s.inst .snapshotCount ()).getD 0

/-- What `create_snapshot` leaves. -/
theorem post_createSnapshot (h : LogInv H s L) {caller : Address} {description : Bytes} :
    Post (createSnapshot H caller description)
      (fun id s' => Taken s' id ⟨id, env.timestamp, L.length, hashBefore H L L.length, description⟩ ∧
        LogInv H s' L) env s := by
  unfold createSnapshot
  refine post_bind_reads fun _ _ => post_bind_reads fun n hn => ?_
  obtain rfl : L.length = n := by rw [h.totalEvents_run] at hn; cases hn; rfl
  simp only [post_bind, post_getEnv, post_load, post_store, post_addChecked, post_publish, post_pure]
  refine post_reads fun last hlast => ?_
  obtain ⟨ts, hpl⟩ := h.holds.prevLink_run H env le_rfl
  obtain rfl : (hashBefore H L L.length, ts) = last := by rw [hpl] at hlast; cases hlast; rfl
  intro _
  refine ⟨⟨by simp, by simp⟩, h.of_eq (by simp)⟩

/-- Snapshots are kept: the next one gets a later id. -/
theorem taken_next {snap : Snapshot D} (hn : Next H s act s') (h : Taken s id snap) :
    Taken s' id snap := by
  cases act with
  | call env op =>
    obtain ⟨r, hs⟩ := hn
    have framed : DataKey.snapshotData ∉ op.writes → DataKey.snapshotCount ∉ op.writes →
        Taken s' id snap := by
      intro hd hc
      have hf := (exec_writes H op).of_run hs
      exact ⟨by rw [hf.inst hd]; exact h.data, by rw [hf.inst hc]; exact h.count⟩
    cases op with
    | createSnapshot a d =>
      have key : Post (exec H (.createSnapshot a d)) (fun _ s' => Taken s' id snap) env s := by
        simp only [exec, createSnapshot, post_bind, post_getEnv, post_load, post_store, post_addChecked,
          post_publish, post_pure]
        refine post_reads fun _ _ => post_reads fun _ _ => post_reads fun _ _ _ => ?_
        have hlt := h.count
        have hne : id ≠ (s.inst .snapshotCount ()).getD 0 := by omega
        constructor
        · simp [Function.update_of_ne hne, h.data]
        · simp
          omega
      exact key.of_run hs
    | _ => exact framed (notMem_of_eval rfl) (notMem_of_eval rfl)
  | expireTemporary f k | expirePersistent f k =>
    rw [Next] at hn; subst hn
    exact ⟨h.data, h.count⟩

/-- What `verify_snapshot` compares. -/
theorem LogInv.verifySnapshot_run (h : LogInv H s L) {snap : Snapshot D} (hsnap : Taken s id snap)
    (hn : snap.eventCount ≤ L.length) : (verifySnapshot H id).run env s =
      .ok (decide (hashBefore H L snap.eventCount = snap.eventHash), s) := by
  have hdata : (unwrapOr (s.inst .snapshotData id) .snapshotNotFound : Fn D (Snapshot D)).run env s =
      .ok (snap, s) := by
    rw [hsnap.data]; rfl
  rw [verifySnapshot, run_bind_ok _ _ h.requireInitialized_run, run_bind_ok _ _ (run_load ..),
    run_bind_ok _ _ hdata, run_bind_ok _ _ h.totalEvents_run, if_neg (not_lt.2 hn)]
  rcases hcount : snap.eventCount with _ | k
  · rw [if_pos rfl]
    simp only [run_pure, hashBefore, List.take_zero, Linking.tail, eq_comm]
  · have hp := List.getElem?_eq_getElem (show k < L.length by omega)
    have hhash : hashBefore H L (k + 1) = L[k].2.eventHash := Linking.tail_take_succ hp
    rw [if_neg (Nat.succ_ne_zero k), Nat.add_sub_cancel, run_bind_ok _ _ (run_load ..), hhash]
    simp [onSome, run_bind, h.holds.get_order hp, h.holds.get_data hp, Except.bind]

/-! ## Later states -/

/-- A snapshot of the log `M`, in a state that still covers it, verifies where the ids and
    times are those of `M`. -/
theorem verifySnapshot_iff (hinj : Function.Injective H.sha256) (hframed : H.Framed) (hM : Chain H M)
    (hc : Covers H s M) {snap : Snapshot D} (hsnap : Taken s id snap) (hcount : snap.eventCount = M.length)
    (hhash : snap.eventHash = hashBefore H M M.length) : (verifySnapshot H id).run env s =
      .ok (decide (stamps s M.length = M.map fun p => (some p.1, some p.2.timestamp)), s) := by
  obtain ⟨R, ⟨L, hL, rfl⟩, hpre⟩ := hc
  have hlen : M.length ≤ L.length := by simpa [records] using hpre.length_le
  -- the times have not changed
  have hts : (L.take M.length).map (·.2.timestamp) = M.map (·.2.timestamp) := by
    have htake := congrArg (List.map Record.timestamp) (List.prefix_iff_eq_take.1 hpre)
    simp only [records, List.map_map, List.length_map, ← List.map_take] at htake
    exact htake.symm
  rw [hL.verifySnapshot_run hsnap (hcount ▸ hlen), hcount, hhash, stamps_eq hL.holds hlen]
  refine congrArg (fun b => Except.ok (b, s)) (decide_eq_decide.2 ?_)
  rw [hashBefore_eq_iff hinj hframed hL.chain hM hlen le_rfl, List.take_length, map_stamp_eq_iff hts]

/-- The action logs events, or is none of the contract's. -/
def Action.logs : Action D → Prop
  | .call _ op => op.submission.isSome = true ∨ ∃ items, op = .logEvents items
  | _ => True

/-- Logging keeps the entries of the log. -/
theorem next_logs (hinj : Function.Injective H.sha256) (hn : Next H s act s') (hlogs : act.logs)
    (h : LogInv H s L) : ∃ M, LogInv H s' (L ++ M) := by
  cases act with
  | call env op =>
    obtain ⟨r, hs⟩ := hn
    rcases hlogs with hx | ⟨items, rfl⟩
    · obtain ⟨x, hx⟩ := Option.isSome_iff_exists.1 hx
      obtain ⟨M, hM, -⟩ := logInv_single hinj h hx hs
      exact ⟨M, hM⟩
    · obtain ⟨M, hM, -⟩ := logInv_batch hinj h hs
      exact ⟨M, hM⟩
  | expireTemporary f k | expirePersistent f k =>
    rw [Next] at hn; subst hn
    exact ⟨[], by rw [List.append_nil]; exact h.of_eq fun _ _ => rfl⟩

/-- **A snapshot verifies in exactly the later states whose events have the ids and times they had
    when it was taken.**  Logging more events makes no difference. -/
theorem history_snapshot (hinj : Function.Injective H.sha256) (hframed : H.Framed) (h₁ : Reachable H s₁)
    {caller : Address} {description : Bytes}
    (hs : Step H env (.createSnapshot caller description) s₁ (.nat id) s₂)
    {tr : List (State D × Action D)} (hrun : Run (Next H) s₂ tr s) :
    ∃ n, (∀ env, (totalEvents : Fn D ℕ).run env s₁ = .ok (n, s₁)) ∧
      (∀ env, (verifySnapshot H id).run env s = .ok (decide (stamps s n = stamps s₁ n), s)) ∧
      ∀ tr' s', Run (Next H) s tr' s' → (∀ p ∈ tr', p.2.logs) →
        ∀ env, (verifySnapshot H id).run env s' = .ok (decide (stamps s n = stamps s₁ n), s') := by
  obtain ⟨tr₁, htr₁⟩ := h₁
  obtain ⟨R, M, hM, rfl⟩ := hasLog_of_history hinj htr₁
  have hpost : Post (exec H (.createSnapshot caller description))
      (fun r s' => ∃ id, r = .nat id ∧
        Taken s' id ⟨id, env.timestamp, M.length, hashBefore H M M.length, description⟩ ∧
        LogInv H s' M) env s₁ := by
    simp only [exec, post_bind, post_pure]
    exact (post_createSnapshot hM).mono fun id s' h' => ⟨id, rfl, h'⟩
  obtain ⟨id', hid, htaken, hM₂⟩ := hpost.of_run hs
  obtain rfl : id = id' := by cases hid; rfl
  have covered : ∀ {tr s}, Run (Next H) s₂ tr s → Covers H s M := fun hrun =>
    hrun.invariant (C := fun _ _ => True) (I := fun s => Covers H s M)
      ⟨_, ⟨M, hM₂, rfl⟩, List.prefix_rfl⟩ (fun _ _ _ _ hn h => covers_next hinj hn h) fun _ _ => trivial
  have later : ∀ {tr s}, Run (Next H) s₂ tr s → ∀ env, (verifySnapshot H id).run env s =
      .ok (decide (stamps s M.length = stamps s₁ M.length), s) := by
    intro tr s hrun env
    have hsnap := hrun.invariant (C := fun _ _ => True)
      (I := fun s => Taken s id ⟨id, _, M.length, hashBefore H M M.length, description⟩) htaken
      (fun _ _ _ _ hn h => taken_next hn h) fun _ _ => trivial
    rw [verifySnapshot_iff hinj hframed hM.chain (covered hrun) hsnap rfl rfl, stamps_eq hM.holds le_rfl,
      List.take_length]
  refine ⟨M.length, fun env => hM.totalEvents_run, later hrun, fun tr' s' hrun' hlogs env => ?_⟩
  -- the entries that were there are still there
  obtain ⟨R, ⟨L, hL, rfl⟩, hpre⟩ := covered hrun
  obtain ⟨N, hN⟩ := hrun'.invariant (C := fun _ act => act.logs) (I := fun s => ∃ N, LogInv H s (L ++ N))
    ⟨[], by rw [List.append_nil]; exact hL⟩
    (fun s act s' hlogs hn h => by
      obtain ⟨N, hN⟩ := h
      obtain ⟨N', hN'⟩ := next_logs hinj hn hlogs hN
      exact ⟨N ++ N', by rw [← List.append_assoc]; exact hN'⟩) hlogs
  have hlen : M.length ≤ L.length := by simpa [records] using hpre.length_le
  have hsame : stamps s' M.length = stamps s M.length := by
    rw [stamps_eq hN.holds (by rw [List.length_append]; omega), stamps_eq hL.holds hlen,
      List.take_append_of_le_length hlen]
  rw [later (hrun.append hrun') env, hsame]

/-- `plainHost`, with digests that say where they end. -/
def mark : Bytes → Bytes
  | [] => [0]
  | b :: d => 1 :: b :: mark d

def framedHost : Host Bytes := { plainHost with bytesOf := mark }

theorem mark_append {a b c d : Bytes} (h : mark a ++ c = mark b ++ d) : a = b ∧ c = d := by
  induction a generalizing b with
  | nil =>
    cases b with
    | nil => exact ⟨rfl, by simpa [mark] using h⟩
    | cons y b => simp [mark] at h
  | cons x a ih =>
    cases b with
    | nil => simp [mark] at h
    | cons y b =>
      simp only [mark, List.cons_append, List.cons.injEq, true_and] at h
      obtain ⟨rfl, h⟩ := h
      obtain ⟨rfl, rfl⟩ := ih h
      exact ⟨rfl, rfl⟩

theorem framed_framedHost : framedHost.Framed := by
  intro a b c d h
  obtain ⟨rfl, h⟩ := mark_append h
  exact ⟨rfl, (mark_append (c := []) (d := []) (by simpa [framedHost] using h)).1⟩

/-- Two events. -/
def pairScript : List (Env × Op Bytes) :=
  [(openEnv 11, .logEvent (account 66) "a" [1] none none false),
    (openEnv 12, .logEvent (account 66) "a" [2] none none false)]

/-- A snapshot of two events does not verify once the first of them has been changed. -/
theorem history_snapshot_pairScript : ∃ s id, Reachable framedHost s ∧
    (s.inst .snapshotData id).map (·.eventCount) = some 2 ∧
    ∀ env, (verifySnapshot framedHost id).run env s = .ok (false, s) := by
  let s₀ : State Bytes := deployed (openEnv 10) (account 65) 100 50
  obtain ⟨s, hs⟩ : ∃ s, play framedHost s₀ (pairScript ++ (openEnv 13, .createSnapshot (account 65) [])
      :: [(openEnv 14, .updateEvent (account 65) 0 [7])]) = some s :=
    Option.isSome_iff_exists.1 (by decide +kernel)
  obtain ⟨s₁, r, s₂, hpre, hstep, hpost, hist⟩ := history_around (init_deployed rfl 100 50) hs
  have hid : (play framedHost s₀ pairScript).bind (fun s₁ =>
      (((exec framedHost (.createSnapshot (account 65) [])).run (openEnv 13) s₁).toOption.map Prod.fst)) =
      some (.nat 0) := by decide +kernel
  have after : (play framedHost s₀ pairScript).bind (fun s₁ => (play framedHost s₀ (pairScript ++
      (openEnv 13, .createSnapshot (account 65) []) :: [(openEnv 14, .updateEvent (account 65) 0 [7])])).map
      fun s => ((s₁.inst .runtimeState ()).map (·.totalEvents),
        (s.inst .snapshotData 0).map (·.eventCount), decide (stamps s 2 = stamps s₁ 2))) =
      some (some 2, some 2, false) := by decide +kernel
  rw [hpre, Option.bind_some, hstep] at hid
  rw [hpre, Option.bind_some, hs] at after
  simp only [Option.map_some, Option.some.injEq, Prod.mk.injEq] at hid after
  obtain rfl : r = .nat 0 := Option.some.inj hid
  obtain ⟨htotal, hcount, hno⟩ := after
  refine ⟨s, 0, ⟨_, hist⟩, hcount, ?_⟩
  have hinj : Function.Injective framedHost.sha256 := Function.injective_id
  have h₁ : Reachable framedHost s₁ := ⟨_, history_of_play (init_deployed rfl 100 50) hpre⟩
  obtain ⟨n, hn, hverify, -⟩ := history_snapshot hinj framed_framedHost h₁ hstep (run_of_play hpost)
  obtain ⟨R, L, hL, -⟩ := hasLog_of_history hinj (history_of_play (init_deployed rfl 100 50) hpre)
  obtain rfl : n = 2 := by
    obtain ⟨rs, hrs, hlen⟩ := hL.counted.runtime
    have htot := hn (openEnv 13)
    rw [hL.totalEvents_run] at htot
    cases htot
    rw [hrs] at htotal
    rw [← hlen]
    exact Option.some.inj htotal
  intro env
  rw [hverify env, hno]

end AuditLedger
