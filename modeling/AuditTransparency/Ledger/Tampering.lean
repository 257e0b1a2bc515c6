/-
  AuditLedger — what the integrity checks see.

  The checks walk whatever is stored, so that the storages here are arbitrary: an attacker may have
  written any of their entries.

  * `verifyRange_iff`: a range verifies when its events are there and link up;
  * `tampering_iff`: of two storages that verify, the last hashes agree just when all ids, times and
    hashes do, and nothing else of the events is seen;
  * `snapshot_pins`: with the snapshot untouched, the checks together say just whether the events it
    covers have the ids, times and hashes they had.
-/
import AuditTransparency.Ledger.Integrity
import AuditTransparency.Ledger.Snapshots

namespace AuditLedger

open Soroban
open Soroban.Call hiding hasPers publish

variable {D : Type} [DecidableEq D] {H : Host D} {env : Env} {s t s₁ s₂ : State D} {L M : List (Entry D)}
  {n i first last : ℕ} {p q : D}

/-! ## Storages -/

/-- The id and event stored at a position. -/
def entryAt (s : State D) (i : ℕ) : Option (Entry D) :=
  (s.inst .eventOrder i).bind fun id => (s.inst .eventData id).map fun e => (id, e)

/-- What the checks read of an entry. -/
def Entry.face (p : Entry D) : D × D × D × ℕ := (p.1, p.2.prevHash, p.2.eventHash, p.2.timestamp)

/-- What the checks read at a position. -/
def faceAt (s : State D) (i : ℕ) : Option (D × D × D × ℕ) := (entryAt s i).map Entry.face

/-- The entries of `L` are stored from position `i` on. -/
def Spans (s : State D) (i : ℕ) (L : List (Entry D)) : Prop :=
  ∀ k (hk : k < L.length), entryAt s (i + k) = some L[k]

/-- The times are of 64 bits, as the type of the field says. -/
def Timed (s : State D) : Prop := ∀ i a, entryAt s i = some a → a.2.timestamp < 2 ^ 64

theorem eventAt_eq_entryAt : eventAt s i = (entryAt s i).map Prod.snd := by
  rw [eventAt, entryAt]
  cases s.inst .eventOrder i with
  | none => rfl
  | some id => simp [Function.comp_def]

theorem entryAt_eq_some {a : Entry D} : entryAt s i = some a ↔
    s.inst .eventOrder i = some a.1 ∧ s.inst .eventData a.1 = some a.2 := by
  simp only [entryAt, Option.bind_eq_some_iff, Option.map_eq_some_iff]
  constructor
  · rintro ⟨id, hid, e, he, rfl⟩
    exact ⟨hid, he⟩
  · rintro ⟨hid, he⟩
    exact ⟨a.1, hid, a.2, he, rfl⟩

theorem Spans.nil : Spans s i [] := fun _ hk => absurd hk (Nat.not_lt_zero _)

theorem spans_cons {a : Entry D} : Spans s i (a :: L) ↔ entryAt s i = some a ∧ Spans s (i + 1) L := by
  constructor
  · intro h
    refine ⟨h 0 (by simp), fun k hk => ?_⟩
    have := h (k + 1) (by simpa using hk)
    rwa [show i + (k + 1) = i + 1 + k by omega] at this
  · rintro ⟨h₀, h⟩ k hk
    cases k with
    | zero => exact h₀
    | succ k =>
      have := h k (by simpa using hk)
      rwa [show i + 1 + k = i + (k + 1) by omega] at this

/-- A part of what is stored. -/
theorem Spans.take (h : Spans s i L) (n : ℕ) : Spans s i (L.take n) := by
  intro k hk
  rw [List.length_take] at hk
  rw [List.getElem_take]
  exact h k (by omega)

theorem Spans.getElem? (h : Spans s 0 L) (hi : i < L.length) : entryAt s i = L[i]? := by
  rw [List.getElem?_eq_getElem hi, ← h i hi, Nat.zero_add]

/-- The hash at the end of a stretch. -/
theorem Spans.hash (h : Spans s 0 L) (hn : n < L.length) :
    (eventAt s n).map (·.eventHash) = some ((linking H).tail H.zeros (L.take (n + 1))) := by
  have hlast : L[n]? = some L[n] := List.getElem?_eq_getElem hn
  rw [eventAt_eq_entryAt, h.getElem? hn, Linking.tail_take_succ hlast, hlast]
  rfl

theorem Holds.spans (h : Holds s L) : Spans s 0 L := by
  intro k hk
  have hp := List.getElem?_eq_getElem hk
  rw [Nat.zero_add]
  exact entryAt_eq_some.2 ⟨h.get_order hp, h.get_data hp⟩

/-! ## The walk -/

/-- One round of `verify_range`, on what is stored. -/
def linkStep (H : Host D) (s : State D) (expected : Option D) (i : ℕ) : Option D :=
  expected.bind fun h => (faceAt s i).bind fun f =>
    if f.2.1 = h ∧ f.2.2.1 = computeEventHash H f.1 f.2.1 i f.2.2.2 then some f.2.2.1 else none

/-- The hash a range has to link to. -/
def seedAt (H : Host D) (s : State D) (first : ℕ) : Option D :=
  if first = 0 then some H.zeros else (faceAt s (first - 1)).map fun f => f.2.2.1

theorem verifyEvent_run (x : Option D) : (verifyEvent H x i).run env s = .ok (linkStep H s x i, s) := by
  cases x with
  | none => rfl
  | some h =>
    rw [verifyEvent, linkStep, faceAt, entryAt]
    cases hid : s.inst .eventOrder i with
    | none => simp [onSome, run_bind, Except.bind, hid]
    | some id =>
      cases he : s.inst .eventData id with
      | none => simp [onSome, run_bind, Except.bind, hid, he]
      | some e => simp [onSome, run_bind, Except.bind, hid, he, Entry.face]

theorem verifyLoop_run : ∀ (is : List ℕ) (x : Option D),
    (is.foldlM (verifyEvent H) x).run env s = .ok (is.foldl (linkStep H s) x, s)
  | [], _ => rfl
  | i :: is, x => by
    rw [List.foldlM_cons, run_bind_ok _ _ (verifyEvent_run x), verifyLoop_run is, List.foldl_cons]

theorem verifySeed_run : (verifySeed H first).run env s = .ok (seedAt H s first, s) := by
  rw [verifySeed, seedAt, faceAt, entryAt]
  split_ifs with h
  · rfl
  · cases hid : s.inst .eventOrder (first - 1) with
    | none => simp [onSome, run_bind, Except.bind, hid]
    | some id => simp [onSome, run_bind, Except.bind, hid, Function.comp_def, Entry.face]

/-- **The verdict of a range**, on any storage. -/
theorem verifyRange_run : (verifyRange H first last).run env s =
    .ok (((List.range' first (last - first)).foldl (linkStep H s) (seedAt H s first)).isSome, s) := by
  rw [verifyRange, run_bind_ok _ _ verifySeed_run, run_bind_ok _ _ (verifyLoop_run ..)]
  rfl

theorem foldl_linkStep_none : ∀ is : List ℕ, is.foldl (linkStep H s) none = none
  | [] => rfl
  | _ :: is => foldl_linkStep_none is

/-- **The walk gets through** just when there are events, and they link up. -/
theorem foldl_linkStep_iff : (List.range' i n).foldl (linkStep H s) (some p) = some q ↔
    ∃ L, L.length = n ∧ Spans s i L ∧ (linking H).Linked p i L ∧ (linking H).tail p L = q := by
  induction n generalizing i p with
  | zero =>
    constructor
    · intro h
      exact ⟨[], rfl, Spans.nil, trivial, Option.some.inj h⟩
    · rintro ⟨L, hlen, -, -, rfl⟩
      rw [List.length_eq_zero_iff.1 hlen]
      rfl
  | succ n ih =>
    rw [List.range'_succ, List.foldl_cons]
    constructor
    · intro h
      cases hstep : linkStep H s (some p) i with
      | none =>
        rw [hstep, foldl_linkStep_none] at h
        cases h
      | some p' =>
        rw [hstep, ih] at h
        obtain ⟨L, rfl, hL, hlinked, htail⟩ := h
        simp only [linkStep, faceAt, Option.bind_some, Option.bind_eq_some_iff, Option.map_eq_some_iff] at hstep
        obtain ⟨f, ⟨a, ha, rfl⟩, hif⟩ := hstep
        split_ifs at hif with hc
        obtain ⟨hprev, hhash⟩ := hc
        obtain rfl : a.2.eventHash = p' := Option.some.inj hif
        obtain rfl : a.2.prevHash = p := hprev
        exact ⟨a :: L, rfl, spans_cons.2 ⟨ha, hL⟩, ⟨rfl, hhash, hlinked⟩, htail⟩
    · rintro ⟨_ | ⟨a, L⟩, hlen, hL, hlinked, htail⟩
      · cases hlen
      obtain ⟨ha, hL⟩ := spans_cons.1 hL
      obtain ⟨hprev, hhash, hlinked⟩ := hlinked
      have hstep : linkStep H s (some p) i = some a.2.eventHash := by
        rw [linkStep, faceAt, ha]
        refine if_pos ⟨hprev, ?_⟩
        rw [show a.face.2.1 = p from hprev]
        exact hhash
      rw [hstep, ih]
      exact ⟨L, by simpa using hlen, hL, hlinked, htail⟩

/-- **A range verifies when its events are there and link up**, whatever else is stored. -/
theorem verifyRange_iff : (verifyRange H first last).run env s = .ok (true, s) ↔
    ∃ p L, seedAt H s first = some p ∧ L.length = last - first ∧ Spans s first L ∧
      (linking H).Linked p first L := by
  rw [verifyRange_run]
  cases hseed : seedAt H s first with
  | none => simp [foldl_linkStep_none]
  | some p =>
    constructor
    · intro h
      obtain ⟨q, hq⟩ := Option.isSome_iff_exists.1 (congrArg Prod.fst (Except.ok.inj h))
      obtain ⟨L, hlen, hL, hlinked, -⟩ := foldl_linkStep_iff.1 hq
      exact ⟨p, L, rfl, hlen, hL, hlinked⟩
    · rintro ⟨_, L, ⟨⟩, hlen, hL, hlinked⟩
      rw [foldl_linkStep_iff.2 ⟨L, hlen, hL, hlinked, rfl⟩]
      rfl

/-- A range within a longer one that verifies from the start on. -/
theorem verifyRange_congr (h : ∀ i < last, faceAt t i = faceAt s i) (hl : first ≤ last) :
    (List.range' first (last - first)).foldl (linkStep H t) (seedAt H t first) =
      (List.range' first (last - first)).foldl (linkStep H s) (seedAt H s first) := by
  have hseed : seedAt H t first = seedAt H s first := by
    rw [seedAt, seedAt]
    split_ifs with h₀
    · rfl
    · rw [h _ (by omega)]
  rw [hseed]
  refine List.foldl_ext _ _ _ fun x i hi => ?_
  rw [List.mem_range'_1] at hi
  rw [linkStep, linkStep, h i (by omega)]

/-- What it means that the check of a range returns. -/
theorem verifyIntegrityRange_iff : (verifyIntegrityRange H first last).run env s = .ok (true, s) ↔
    (requireInitialized : Fn D Unit).run env s = .ok ((), s) ∧
      (verifyRange H first last).run env s = .ok (true, s) := by
  rw [verifyIntegrityRange, run_bind]
  rcases hrun : (requireInitialized : Fn D Unit).run env s with e | ⟨⟨⟩, s'⟩
  · simp [Except.bind]
  · obtain rfl : s' = s := (Reads.eq (m := (requireInitialized : Fn D Unit)) env s).of_run hrun
    simp [Except.bind]

theorem verifyIntegrity_iff : (verifyIntegrity H).run env s = .ok (true, s) ↔
    (requireInitialized : Fn D Unit).run env s = .ok ((), s) ∧
      ∃ m, (totalEvents : Fn D ℕ).run env s = .ok (m, s) ∧
        (verifyRange H 0 m).run env s = .ok (true, s) := by
  rw [verifyIntegrity, run_bind]
  rcases hrun : (requireInitialized : Fn D Unit).run env s with e | ⟨⟨⟩, s'⟩
  · simp [Except.bind]
  obtain rfl : s' = s := (Reads.eq (m := (requireInitialized : Fn D Unit)) env s).of_run hrun
  rw [Except.bind, run_bind]
  rcases htot : (totalEvents : Fn D ℕ).run env s' with e | ⟨m, s''⟩
  · simp [Except.bind]
  obtain rfl : s'' = s' := (Reads.eq (m := (totalEvents : Fn D ℕ)) env s').of_run htot
  simp [Except.bind]

theorem timestamp_of_mem_adds {op : Op D} {q : Record} (hq : q ∈ op.adds H env s) : q.timestamp = env.timestamp := by
  rw [Op.adds] at hq
  split at hq
  · split_ifs at hq
    · cases hq
    · rw [List.mem_singleton.1 hq]
      rfl
  · obtain ⟨item, -, rfl⟩ := List.mem_map.1 hq
    rfl

/-- Invocations at times of 64 bits leave such times. -/
theorem history_timed (hinj : Function.Injective H.sha256) {tr : List (State D × Action D)}
    (h : History H tr s)
    (hts : ∀ p ∈ tr, ∀ env op, p.2 = .call env op → env.timestamp < 2 ^ 64) : Timed s := by
  obtain ⟨s₀, h₀, hrun⟩ := h
  obtain ⟨g, m, hinit⟩ := initialized_of_init h₀
  obtain ⟨R, ⟨L, hL, rfl⟩, hR⟩ := hrun.invariant
    (C := fun _ act => ∀ env op, act = .call env op → env.timestamp < 2 ^ 64)
    (I := fun s => ∃ R, HasLog H s R ∧ ∀ q ∈ R.map Record.core, q.timestamp < 2 ^ 64)
    ⟨[], hinit.hasLog, by simp⟩ (fun s act s' hact hn h => by
      obtain ⟨R, hR, hlt⟩ := h
      refine ⟨_, next_hasLog hinj hR hn, ?_⟩
      cases act with
      | call env op =>
        rw [Action.logAfter, List.map_append, map_core_amendAll, List.forall_mem_append]
        refine ⟨hlt, List.forall_mem_map.2 fun q hq => ?_⟩
        rw [Record.core, timestamp_of_mem_adds hq]
        exact hact env op rfl
      | expireTemporary | expirePersistent => exact hlt) hts
  intro i a ha
  obtain ⟨hid, hdata⟩ := entryAt_eq_some.1 ha
  obtain ⟨b, hb, hab⟩ := hL.holds.entry_of_order hid
  rw [← hab, hL.holds.get_data hb] at hdata
  rw [← Option.some.inj hdata]
  exact hR _ (List.mem_map_of_mem (List.mem_map_of_mem (List.mem_of_getElem? hb)))

/-! ## Two storages -/

omit [DecidableEq D] in
/-- **Entries that link up from the same hash on have the hashes their ids and times give.** -/
theorem faces_eq {L M : List (Entry D)} (hinj : Function.Injective H.sha256) (hframed : H.Framed)
    (hl : (linking H).Linked p i L) (hm : (linking H).Linked p i M)
    (hL : ∀ a ∈ L, a.2.timestamp < 2 ^ 64) (hM : ∀ a ∈ M, a.2.timestamp < 2 ^ 64)
    (h : L.map Entry.stamp = M.map Entry.stamp) : L.map Entry.face = M.map Entry.face := by
  induction L generalizing M p i with
  | nil =>
    rw [List.map_nil, eq_comm, List.map_eq_nil_iff] at h
    rw [h]
  | cons a L ih =>
    cases M with
    | nil => cases h
    | cons b M =>
      obtain ⟨hstamp, h⟩ := List.cons.inj h
      obtain ⟨hpa, hha, hl⟩ := hl
      obtain ⟨hpb, hhb, hm⟩ := hm
      have hhash : (linking H).hash a = (linking H).hash b := by
        rw [hha, hhb]
        exact (digest_eq_iff hinj hframed ..).2 ⟨rfl, hstamp⟩
      rw [List.forall_mem_cons] at hL hM
      obtain ⟨hid, hts⟩ := Prod.mk.inj hstamp
      have hface : a.face = b.face :=
        Prod.ext hid <| Prod.ext (hpa.trans hpb.symm) <|
          Prod.ext hhash (u64ToBytes_injective hL.1 hM.1 hts)
      rw [List.map_cons, List.map_cons, hface, ih hl (hhash ▸ hm) hL.2 hM.2 h]

theorem Timed.spans (ht : Timed s) (h : Spans s i L) : ∀ a ∈ L, a.2.timestamp < 2 ^ 64 := by
  intro a ha
  obtain ⟨k, hk, rfl⟩ := List.mem_iff_getElem.1 ha
  exact ht _ _ (h k hk)

/-- **What the last hash says** of two stretches of storage that link up from the start on. -/
theorem tail_eq_iff_faces (hinj : Function.Injective H.sha256) (hframed : H.Framed) (hs : Timed s)
    (ht : Timed t) (hL : Spans s 0 L) (hM : Spans t 0 M) (hl : (linking H).Linked H.zeros 0 L)
    (hm : (linking H).Linked H.zeros 0 M) (hlen : M.length = L.length) :
    (linking H).tail H.zeros M = (linking H).tail H.zeros L ↔
      ∀ i < L.length, faceAt t i = faceAt s i := by
  have hfaces : M.map Entry.face = L.map Entry.face ↔ ∀ i < L.length, faceAt t i = faceAt s i := by
    rw [List.ext_getElem?_iff]
    refine ⟨fun h i hi => ?_, fun h i => ?_⟩
    · rw [faceAt, faceAt, hM.getElem? (by omega), hL.getElem? hi, ← List.getElem?_map, h i, List.getElem?_map]
    · rcases lt_or_ge i L.length with hi | hi
      · rw [List.getElem?_map, List.getElem?_map, ← hM.getElem? (by omega), ← hL.getElem? hi]
        exact h i hi
      · rw [List.getElem?_eq_none (by simpa [hlen] using hi), List.getElem?_eq_none (by simpa using hi)]
  rw [Linking.tail_eq_iff (digest_eq_iff hinj hframed) hm hl hlen, ← hfaces]
  refine ⟨faces_eq hinj hframed hm hl (ht.spans hM) (hs.spans hL), fun h => ?_⟩
  have := congrArg (List.map fun f : D × D × D × ℕ => (f.1, u64ToBytes f.2.2.2)) h
  rwa [List.map_map, List.map_map] at this

/-- **Tampering, seen and unseen.**  Once the first events of `s` have verified, those of any other
    storage verify and end in the same hash just when they have the ids, times and hashes of `s`. -/
theorem tampering_iff {env' : Env} (hinj : Function.Injective H.sha256) (hframed : H.Framed)
    (hs : Timed s) (ht : Timed t) (hinit : (requireInitialized : Fn D Unit).run env' t = .ok ((), t))
    (hver : (verifyIntegrityRange H 0 (n + 1)).run env s = .ok (true, s)) :
    ((verifyIntegrityRange H 0 (n + 1)).run env' t = .ok (true, t) ∧
        (eventAt t n).map (·.eventHash) = (eventAt s n).map (·.eventHash)) ↔
      ∀ i ≤ n, faceAt t i = faceAt s i := by
  have hrange := (verifyIntegrityRange_iff.1 hver).2
  obtain ⟨p, L, hseed, hlen, hL, hl⟩ := verifyRange_iff.1 hrange
  obtain rfl : H.zeros = p := Option.some.inj hseed
  have hash_eq : ∀ {t : State D} {L : List (Entry D)}, L.length = n + 1 → Spans t 0 L →
      (eventAt t n).map (·.eventHash) = some ((linking H).tail H.zeros L) := by
    intro t L hlen hL
    rw [hL.hash (by omega), ← hlen, List.take_length]
  constructor
  · rintro ⟨hver', hhash⟩ i hi
    obtain ⟨p, M, hseed, hlen', hM, hm⟩ := verifyRange_iff.1 (verifyIntegrityRange_iff.1 hver').2
    obtain rfl : H.zeros = p := Option.some.inj hseed
    rw [hash_eq hlen' hM, hash_eq hlen hL, Option.some.injEq,
      tail_eq_iff_faces hinj hframed hs ht hL hM hl hm (hlen'.trans hlen.symm)] at hhash
    exact hhash i (by omega)
  · intro h
    refine ⟨verifyIntegrityRange_iff.2 ⟨hinit, ?_⟩, ?_⟩
    · rw [verifyRange_run] at hrange ⊢
      have hwalk : ((List.range' 0 (n + 1 - 0)).foldl (linkStep H s) (seedAt H s 0)).isSome = true :=
        congrArg Prod.fst (Except.ok.inj hrange)
      rw [verifyRange_congr (fun i hi => h i (by omega)) (Nat.zero_le _), hwalk]
    · have hface := congrArg (Option.map fun f : D × D × D × ℕ => f.2.2.1) (h n le_rfl)
      rw [faceAt, faceAt, Option.map_map, Option.map_map] at hface
      rwa [eventAt_eq_entryAt, eventAt_eq_entryAt, Option.map_map, Option.map_map]

/-- `s`, with the metadata of the first event emptied. -/
def blanked (s : State Bytes) : State Bytes :=
  match entryAt s 0 with
  | some (id, e) => s.put .eventData id { e with metadata := [] }
  | none => s

theorem blanked_inst (s : State Bytes) {f : DataKey} (hf : f ≠ .eventData) : (blanked s).inst f = s.inst f := by
  rw [blanked]
  split <;> simp [hf]

theorem blanked_data (s : State Bytes) (id : Bytes) :
    ((blanked s).inst .eventData id).map (fun e => { e with metadata := [] }) =
      (s.inst .eventData id).map fun e => { e with metadata := [] } := by
  rw [blanked]
  split
  · rename_i id' e h
    obtain ⟨-, hdata⟩ := entryAt_eq_some.1 h
    rcases eq_or_ne id id' with rfl | hne
    · simp [hdata]
    · simp [Function.update_of_ne hne]
  · rfl

theorem faceAt_blanked (s : State Bytes) (i : ℕ) : faceAt (blanked s) i = faceAt s i := by
  have face_eq : ∀ s : State Bytes, faceAt s i = (s.inst .eventOrder i).bind fun id =>
      ((s.inst .eventData id).map fun e => { e with metadata := [] }).map fun e => Entry.face (id, e) := by
    intro s
    rw [faceAt, entryAt]
    cases s.inst .eventOrder i with
    | none => rfl
    | some id => simp [Function.comp_def, Entry.face]
  rw [face_eq, face_eq, blanked_inst s (by decide)]
  refine congrArg (Option.bind _) (funext fun id => ?_)
  rw [blanked_data]

theorem Timed.congr (h : Timed s) (hst : ∀ i, faceAt t i = faceAt s i) : Timed t := by
  intro i a ha
  have hface := hst i
  rw [faceAt, ha, Option.map_some, eq_comm, faceAt, Option.map_eq_some_iff] at hface
  obtain ⟨b, hb, hab⟩ := hface
  have hts : b.2.timestamp = a.2.timestamp := congrArg (fun f : D × D × D × ℕ => f.2.2.2) hab
  rw [← hts]
  exact h i b hb

/-- A storage whose first event has lost its metadata verifies like the log it was. -/
theorem tampering_iff_blanked : ∃ s : State Bytes, Reachable framedHost s ∧
    (eventAt s 0).map (·.metadata) = some [1] ∧ (eventAt (blanked s) 0).map (·.metadata) = some [] ∧
    (verifyIntegrityRange framedHost 0 2).run (openEnv 20) (blanked s) = .ok (true, blanked s) := by
  let s₀ : State Bytes := deployed (openEnv 10) (account 65) 100 50
  obtain ⟨s, hs⟩ : ∃ s, play framedHost s₀ pairScript = some s :=
    Option.isSome_iff_exists.1 (by decide +kernel)
  have hinj : Function.Injective framedHost.sha256 := Function.injective_id
  have hhist : History framedHost (traceOf framedHost s₀ pairScript) s :=
    history_of_play (init_deployed rfl _ _) hs
  have hmeta : (play framedHost s₀ pairScript).map (fun s => ((eventAt s 0).map (·.metadata),
      (eventAt (blanked s) 0).map (·.metadata), runtimeTotal s)) = some (some [1], some [], 2) := by
    decide +kernel
  rw [hs, Option.map_some, Option.some.injEq, Prod.mk.injEq, Prod.mk.injEq] at hmeta
  obtain ⟨hbefore, hafter, htotal⟩ := hmeta
  obtain ⟨R, L, hL, -⟩ := hasLog_of_history hinj hhist
  have hver : (verifyIntegrityRange framedHost 0 2).run (openEnv 20) s = .ok (true, s) := by
    obtain ⟨n, hn, -, -, hver⟩ := reachable_intact hinj ⟨_, hhist⟩
    have hlen := hn (openEnv 20)
    rw [hL.totalEvents_run, ← hL.runtimeTotal_eq, htotal] at hlen
    cases hlen
    exact hver _ 0 2 (Nat.zero_le _) le_rfl
  have htimed : Timed s := history_timed hinj hhist fun p hp env op hop => by
    have hall : ∀ c ∈ pairScript, c.1.timestamp < 2 ^ 64 := by decide
    obtain ⟨t, act⟩ := p
    obtain rfl : act = .call env op := hop
    exact hall (env, op) (mem_of_mem_traceOf hp)
  have hinit : (requireInitialized : Fn Bytes Unit).run (openEnv 20) (blanked s) = .ok ((), blanked s) := by
    obtain ⟨c, hc, -⟩ := hL.counted.config
    obtain ⟨a, ha⟩ := Option.isSome_iff_exists.1 hL.owned
    rw [← blanked_inst s (by decide)] at hc ha
    simp [requireInitialized, run_bind, run_rejectIf, hc, ha, Except.bind]
  refine ⟨s, ⟨_, hhist⟩, hbefore, hafter, ?_⟩
  exact ((tampering_iff hinj framed_framedHost htimed (htimed.congr (faceAt_blanked s)) hinit hver).2
    fun i _ => faceAt_blanked s i).1

/-! ## Snapshots -/

/-- What `verify_snapshot` says of a stretch of storage. -/
theorem Spans.verifySnapshot_run {snap : Snapshot D} {id : ℕ} (hM : Spans t 0 M)
    (htotal : (totalEvents : Fn D ℕ).run env t = .ok (M.length, t))
    (hinit : (requireInitialized : Fn D Unit).run env t = .ok ((), t))
    (hsnap : t.inst .snapshotData id = some snap) :
    (verifySnapshot H id).run env t = .ok (decide (snap.eventCount ≤ M.length ∧
      (linking H).tail H.zeros (M.take snap.eventCount) = snap.eventHash), t) := by
  have hdata : (unwrapOr (t.inst .snapshotData id) .snapshotNotFound : Fn D (Snapshot D)).run env t =
      .ok (snap, t) := by
    rw [hsnap]
    rfl
  rw [verifySnapshot, run_bind_ok _ _ hinit, run_bind_ok _ _ (run_load ..), run_bind_ok _ _ hdata,
    run_bind_ok _ _ htotal]
  rcases lt_or_ge M.length snap.eventCount with hgt | hle
  · rw [if_pos hgt]
    simp [not_le.2 hgt]
  rw [if_neg (not_lt.2 hle)]
  rcases hcount : snap.eventCount with _ | k
  · simp [Linking.tail, eq_comm]
  · have hlast : M[k]? = some M[k] := List.getElem?_eq_getElem (by omega)
    obtain ⟨hid, hdata⟩ := entryAt_eq_some.1 ((hM.getElem? (by omega)).trans hlast)
    rw [if_neg (Nat.succ_ne_zero k), Nat.add_sub_cancel, run_bind_ok _ _ (run_load ..),
      Linking.tail_take_succ hlast]
    have hk : k + 1 ≤ M.length := by omega
    simp [onSome, run_bind, hid, hdata, Except.bind, hk, linking]

/-- **A snapshot pins what it covers.**  In a storage where nobody has touched the snapshot, and whose
    log verifies, `verify_snapshot` says whether the events that were there when the snapshot was taken
    have the ids, times and hashes they had. -/
theorem snapshot_pins {env₀ : Env} {id : ℕ} (hinj : Function.Injective H.sha256) (hframed : H.Framed)
    (h₁ : Reachable H s₁) (hs : Timed s₁) (ht : Timed t) {caller : Address} {description : Bytes}
    (hstep : Step H env₀ (.createSnapshot caller description) s₁ (.nat id) s₂)
    (hsnap : t.inst .snapshotData id = s₂.inst .snapshotData id)
    (hver : (verifyIntegrity H).run env t = .ok (true, t)) :
    ∃ n m, (totalEvents : Fn D ℕ).run env₀ s₁ = .ok (n, s₁) ∧
      (totalEvents : Fn D ℕ).run env t = .ok (m, t) ∧
      (verifySnapshot H id).run env t =
        .ok (decide (n ≤ m ∧ ∀ i < n, faceAt t i = faceAt s₁ i), t) := by
  obtain ⟨tr, htr⟩ := h₁
  obtain ⟨R, L, hinv, -⟩ := hasLog_of_history hinj htr
  have hpost : Post (exec H (.createSnapshot caller description))
      (fun r s' => ∃ id, r = .nat id ∧
        Taken s' id ⟨id, env₀.timestamp, L.length, hashBefore H L L.length, description⟩) env₀ s₁ := by
    simp only [exec, post_bind, post_pure]
    exact (post_createSnapshot hinv).mono fun id s' h' => ⟨id, rfl, h'.1⟩
  obtain ⟨id', hid, htaken⟩ := hpost.of_run hstep
  obtain rfl : id = id' := by cases hid; rfl
  rw [htaken.data] at hsnap
  obtain ⟨hinit, m, htotal, hrange⟩ := verifyIntegrity_iff.1 hver
  obtain ⟨p, M, hseed, rfl, hM, hm⟩ := verifyRange_iff.1 hrange
  obtain rfl : H.zeros = p := Option.some.inj hseed
  refine ⟨L.length, _, hinv.totalEvents_run, htotal, ?_⟩
  rw [hM.verifySnapshot_run htotal hinit hsnap]
  refine congrArg (fun b => Except.ok (b, t)) (decide_eq_decide.2 (and_congr_right fun hle => ?_))
  have hpart : (linking H).Linked H.zeros 0 (M.take L.length) := by
    rw [← List.take_append_drop L.length M] at hm
    exact (Linking.linked_append.1 hm).1
  rw [hashBefore, List.take_length]
  exact tail_eq_iff_faces hinj hframed hs ht hinv.holds.spans (hM.take _) hinv.chain.linked hpart
    (List.length_take_of_le hle)

/-- The call that takes a snapshot of two events, and the one that rewrites the first of them. -/
def snapshotCall : Env × Op Bytes := (openEnv 13, .createSnapshot (account 65) [])

def rewriteCall : Env × Op Bytes := (openEnv 14, .updateEvent (account 65) 0 [7])

/-- A rewritten log verifies, and the snapshot tells it from the one it was taken of. -/
theorem snapshot_pins_rewritten : ∃ t : State Bytes,
    (verifyIntegrity framedHost).run (openEnv 20) t = .ok (true, t) ∧
    (verifySnapshot framedHost 0).run (openEnv 20) t = .ok (false, t) := by
  let s₀ : State Bytes := deployed (openEnv 10) (account 65) 100 50
  have hinj : Function.Injective framedHost.sha256 := Function.injective_id
  obtain ⟨t, ht⟩ : ∃ t, play framedHost s₀ (pairScript ++ snapshotCall :: [rewriteCall]) = some t :=
    Option.isSome_iff_exists.1 (by decide +kernel)
  obtain ⟨s₁, r, s₂, hpre, hstep, hpost, hhist⟩ := history_around (init_deployed rfl 100 50) ht
  have hid : (play framedHost s₀ pairScript).bind (fun s₁ =>
      (((exec framedHost (.createSnapshot (account 65) [])).run (openEnv 13) s₁).toOption.map Prod.fst)) = some (.nat 0) := by
    decide +kernel
  have hface : (play framedHost s₀ pairScript).bind (fun s₁ =>
      (play framedHost s₀ (pairScript ++ snapshotCall :: [rewriteCall])).map fun t =>
        (runtimeTotal s₁, decide (faceAt t 0 = faceAt s₁ 0))) = some (2, false) := by decide +kernel
  rw [hpre, Option.bind_some, ht, Option.map_some, Option.some.injEq, Prod.mk.injEq] at hface
  obtain ⟨htotal, hface⟩ := hface
  rw [hpre] at hid
  rw [Option.bind_some, hstep] at hid
  obtain rfl : r = .nat 0 := Option.some.inj hid
  have timed : ∀ {script : List (Env × Op Bytes)} {s : State Bytes}, play framedHost s₀ script = some s →
      (∀ c ∈ script, c.1.timestamp < 2 ^ 64) → Timed s := by
    intro script s hs hall
    refine history_timed hinj (history_of_play (init_deployed rfl 100 50) hs) fun p hp env op hop => ?_
    obtain ⟨t, act⟩ := p
    obtain rfl : act = .call env op := hop
    exact hall (env, op) (mem_of_mem_traceOf hp)
  have hsnap : t.inst .snapshotData 0 = s₂.inst .snapshotData 0 := by
    rw [inst_of_play hpost (List.forall_mem_singleton.2 (notMem_of_eval rfl))]
  obtain ⟨-, -, -, hver, -⟩ := reachable_intact hinj ⟨_, hhist⟩
  obtain ⟨n, m, hn, hm, hverdict⟩ := snapshot_pins hinj framed_framedHost
    ⟨_, history_of_play (init_deployed rfl 100 50) hpre⟩ (timed hpre (by decide)) (timed ht (by decide))
    hstep hsnap (hver (openEnv 20))
  obtain ⟨R, L, hL, -⟩ := hasLog_of_history hinj (history_of_play (init_deployed rfl 100 50) hpre)
  obtain rfl : 2 = n := by
    rw [hL.totalEvents_run, ← hL.runtimeTotal_eq, htotal] at hn
    cases hn
    rfl
  refine ⟨t, hver (openEnv 20), ?_⟩
  refine hverdict.trans (congrArg (fun b => Except.ok (b, t)) ?_)
  rw [decide_eq_false_iff_not]
  exact fun h => of_decide_eq_false hface (h.2 0 (by omega))

end AuditLedger
