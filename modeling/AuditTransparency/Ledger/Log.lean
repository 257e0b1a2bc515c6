/-
  AuditLedger — the log behind the storage.

  The contract keeps its events under content-addressed ids, with `EventOrder`
  giving the id of every position.  `Holds s L` says that this storage is the
  list `L` of ids and events; `Chain H L` says what such a list has to satisfy.
  A list of `Record`s is what the log is to its readers: who said what, when.

  * `Holds.set`, `Holds.append`: the writes of the contract, as list operations;
  * `Chain.rewriteAt`, `Chain.append`: a chain stays a chain when an entry is
    rewritten and the later ones are linked afresh, or when one is appended.
-/
import AuditTransparency.Ledger.Contract
import AuditTransparency.Ledger.Queries
import AuditTransparency.Soroban.HashChain

namespace AuditLedger

open Soroban
open Soroban.Call hiding hasPers publish

variable {D : Type}

/-! ## Records -/

/-- What an event says, without its place in the chain. -/
structure Record where
  timestamp : ℕ
  eventType : Symbol
  category : Symbol
  submitter : Address
  metadata : Bytes
  deriving DecidableEq

def Event.record (e : Event D) : Record :=
  ⟨e.timestamp, e.eventType, e.category, e.submitter, e.metadata⟩

/-- An entry of the log: the id of an event, and the event. -/
abbrev Entry (D : Type) := D × Event D

/-- The records of a log. -/
def records (L : List (Entry D)) : List Record := L.map fun p => p.2.record

theorem records_append (L M : List (Entry D)) : records (L ++ M) = records L ++ records M :=
  List.map_append

/-- The record at position `k` gets new metadata. -/
def amend (R : List Record) (k : ℕ) (metadata : Bytes) : List Record :=
  R.modify k fun r => { r with metadata }

theorem getElem?_amend (R : List Record) (k : ℕ) (m : Bytes) (i : ℕ) :
    (amend R k m)[i]? = if i = k then R[i]?.map (fun r => { r with metadata := m }) else R[i]? := by
  rw [amend, List.getElem?_modify]
  by_cases h : k = i
  · simp [h]
  · simp [h, Ne.symm h]

/-- Amending with the metadata that is there. -/
theorem amend_self {R : List Record} {k : ℕ} {r : Record} (h : R[k]? = some r) :
    amend R k r.metadata = R := by
  refine List.ext_getElem? fun i => ?_
  rw [getElem?_amend]
  split_ifs with hi
  · rw [hi, h]; rfl
  · rfl

theorem set_eq_amend {R : List Record} {k : ℕ} {r : Record} (h : R[k]? = some r) (m : Bytes) :
    R.set k { r with metadata := m } = amend R k m := by
  refine List.ext_getElem? fun i => ?_
  rw [getElem?_amend]
  split_ifs with hi
  · subst hi; rw [List.getElem?_set_self (List.getElem?_eq_some_iff.1 h).1, h]; rfl
  · rw [List.getElem?_set_ne (Ne.symm hi)]

theorem length_of_records {L L' : List (Entry D)} {k : ℕ} {m : Bytes}
    (h : records L' = amend (records L) k m) : L'.length = L.length := by
  simpa [records, amend] using congrArg List.length h

/-! ## Chains -/

/-- The links of the log: `prev_hash`, `event_hash` and `compute_event_hash`. -/
def linking (H : Host D) : Linking (Entry D) D where
  prev p := p.2.prevHash
  hash p := p.2.eventHash
  digest i h p := computeEventHash H p.1 h i p.2.timestamp
  relink q h p := (p.1, { p.2 with prevHash := q, eventHash := h })
  prev_relink _ _ _ := rfl
  hash_relink _ _ _ := rfl
  digest_relink _ _ _ _ _ := rfl

/-- The part of an entry that re-linking leaves alone. -/
def Entry.body (p : Entry D) : D × ℕ × Record := (p.1, p.2.index, p.2.record)

/-- The entry belongs at position `i`: its id is that of its content there. -/
structure Placed (H : Host D) (i : ℕ) (p : Entry D) : Prop where
  id_eq : ∃ env, p.1 = computeEventId H env p.2.submitter p.2.eventType p.2.metadata p.2.timestamp i
  index_eq : p.2.index = i

theorem Placed.congr {H : Host D} {i : ℕ} {p q : Entry D} (h : Placed H i p)
    (hpq : Entry.body p = Entry.body q) : Placed H i q := by
  simp only [Entry.body, Event.record, Prod.mk.injEq, Record.mk.injEq] at hpq
  obtain ⟨hid, hix, hts, hty, -, hsub, hmeta⟩ := hpq
  obtain ⟨env, he⟩ := h.id_eq
  refine ⟨⟨env, ?_⟩, hix ▸ h.index_eq⟩
  rw [← hid, he, hts, hty, hsub, hmeta]

/-- No two positions have the same id. -/
def DistinctIds (L : List (Entry D)) : Prop :=
  ∀ (i j : ℕ) (p q : Entry D), L[i]? = some p → L[j]? = some q → p.1 = q.1 → i = j

theorem DistinctIds.congr {L L' : List (Entry D)} (h : DistinctIds L)
    (hL : L'.map Prod.fst = L.map Prod.fst) : DistinctIds L' := by
  have hget : ∀ (i : ℕ) (p : Entry D), L'[i]? = some p → ∃ p', L[i]? = some p' ∧ p'.1 = p.1 := by
    intro i p hi
    have := congrArg (·[i]?) hL
    simpa [hi] using this.symm
  intro i j p q hi hj hpq
  obtain ⟨p', hp, hp'⟩ := hget i p hi
  obtain ⟨q', hq, hq'⟩ := hget j q hj
  exact h i j p' q' hp hq (by rw [hp', hq', hpq])

/-- A log the contract can have built. -/
structure Chain (H : Host D) (L : List (Entry D)) : Prop where
  placed : ∀ i p, L[i]? = some p → Placed H i p
  linked : (linking H).Linked H.zeros 0 L
  length_lt : L.length < 2 ^ 32

/-- `event_hash` of the entry before position `k`. -/
def hashBefore (H : Host D) (L : List (Entry D)) (k : ℕ) : D := (linking H).tail H.zeros (L.take k)

theorem Placed.idAt {H : Host D} {i : ℕ} {p : Entry D} (h : Placed H i p) : IdAt H i p.1 := by
  obtain ⟨env, he⟩ := h.id_eq
  rw [he]; exact idAt_computeEventId ..

theorem distinctIds_of_placed {H : Host D} (hinj : Function.Injective H.sha256) {L : List (Entry D)}
    (hp : ∀ (i : ℕ) p, L[i]? = some p → Placed H i p) (hl : L.length < 2 ^ 32) : DistinctIds L := by
  intro i j p q hi hj hpq
  have hi' := (List.getElem?_eq_some_iff.1 hi).1
  have hj' := (List.getElem?_eq_some_iff.1 hj).1
  exact IdAt.unique hinj (by omega) (by omega) (hp i p hi).idAt (hpq ▸ (hp j q hj).idAt)

namespace Chain
variable {H : Host D} {L : List (Entry D)}

theorem distinctIds (hinj : Function.Injective H.sha256) (h : Chain H L) : DistinctIds L :=
  distinctIds_of_placed hinj h.placed h.length_lt

/-- The id of a new entry is new. -/
theorem ne_of_placed (hinj : Function.Injective H.sha256) (h : Chain H L) {k : ℕ} {q : Entry D}
    (hk : k < 2 ^ 32) (hq : Placed H k q) : ∀ (i : ℕ) p, i ≠ k → L[i]? = some p → p.1 ≠ q.1 := by
  intro i p hik hi he
  have hi' := (List.getElem?_eq_some_iff.1 hi).1
  have hl := h.length_lt
  exact hik (IdAt.unique hinj (by omega) hk (h.placed i p hi).idAt (he ▸ hq.idAt))

theorem append (h : Chain H L) {q : Entry D} (hq : Placed H L.length q)
    (hp : q.2.prevHash = hashBefore H L L.length)
    (hh : q.2.eventHash = computeEventHash H q.1 q.2.prevHash L.length q.2.timestamp)
    (hl : L.length + 1 < 2 ^ 32) : Chain H (L ++ [q]) := by
  refine ⟨fun i p hi => ?_, ?_, by simpa using hl⟩
  · rcases Nat.lt_trichotomy i L.length with hlt | rfl | hgt
    · exact h.placed i p (by rwa [List.getElem?_append_left hlt] at hi)
    · obtain rfl : q = p := by simpa using hi
      exact hq
    · rw [List.getElem?_eq_none (by simp; omega)] at hi; cases hi
  · rw [hashBefore, List.take_length] at hp
    refine Linking.linked_append.2 ⟨h.linked, hp, ?_, trivial⟩
    rw [Nat.zero_add, ← hp]; exact hh

end Chain

/-- The log with the entry at `k` replaced and the later ones linked afresh. -/
def rewriteAt (H : Host D) (L : List (Entry D)) (k : ℕ) (q : Entry D) : List (Entry D) :=
  L.take k ++ q :: (linking H).relinkAll q.2.eventHash (k + 1) (L.drop (k + 1))

theorem map_rewriteAt {β : Type} {H : Host D} {f : Entry D → β}
    (hf : ∀ p h a, f ((linking H).relink p h a) = f a) (L : List (Entry D)) {k : ℕ} {q : Entry D}
    (hk : k < L.length) : (rewriteAt H L k q).map f = (L.map f).set k (f q) := by
  rw [rewriteAt, List.map_append, List.map_cons, Linking.map_relinkAll hf,
    List.set_eq_take_append_cons_drop,
    if_pos (by simpa using hk), List.map_take, List.map_drop]

theorem Chain.rewriteAt {H : Host D} {L : List (Entry D)} (h : Chain H L) {k : ℕ} {q : Entry D}
    (hk : k < L.length) (hq : Placed H k q) (hp : q.2.prevHash = hashBefore H L k)
    (hh : q.2.eventHash = computeEventHash H q.1 q.2.prevHash k q.2.timestamp) :
    Chain H (AuditLedger.rewriteAt H L k q) := by
  have hbody := map_rewriteAt (H := H) (f := Entry.body) (fun _ _ _ => rfl) L (q := q) hk
  have hlen : (AuditLedger.rewriteAt H L k q).length = L.length := by
    simpa using congrArg List.length hbody
  refine ⟨fun i p hi => ?_, ?_, hlen ▸ h.length_lt⟩
  · have hb := congrArg (·[i]?) hbody
    simp only [List.getElem?_map, hi, Option.map_some] at hb
    by_cases hik : i = k
    · subst hik
      rw [List.getElem?_set_self (by simpa using hk)] at hb
      exact hq.congr (Option.some.inj hb).symm
    · rw [List.getElem?_set_ne (Ne.symm hik), List.getElem?_map] at hb
      rcases hL : L[i]? with _ | p'
      · rw [hL] at hb; cases hb
      · rw [hL] at hb
        exact (h.placed i p' hL).congr (Option.some.inj hb).symm
  · have hsplit : (linking H).Linked H.zeros 0 (L.take k ++ L.drop k) := by
      rw [List.take_append_drop]; exact h.linked
    refine Linking.linked_append.2 ⟨(Linking.linked_append.1 hsplit).1, hp, ?_, ?_⟩
    · rw [List.length_take_of_le hk.le, Nat.zero_add]
      rw [hashBefore] at hp
      rw [← hp]; exact hh
    · rw [List.length_take_of_le hk.le, Nat.zero_add]
      exact Linking.linked_relinkAll ..

/-- A change that keeps ids, content and hashes keeps the chain. -/
theorem Chain.map {H : Host D} {L : List (Entry D)} (h : Chain H L) {f : Entry D → Entry D}
    (hb : ∀ p, (f p).body = p.body) (hp : ∀ p, (f p).2.prevHash = p.2.prevHash)
    (hh : ∀ p, (f p).2.eventHash = p.2.eventHash) : Chain H (L.map f) := by
  refine ⟨fun i p hi => ?_, h.linked.map hp hh fun i q p => ?_, by simpa using h.length_lt⟩
  · rw [List.getElem?_map] at hi
    obtain ⟨p', hp', rfl⟩ := Option.map_eq_some_iff.1 hi
    exact (h.placed i p' hp').congr (hb p').symm
  · have := hb p
    simp only [Entry.body, Event.record, Prod.mk.injEq, Record.mk.injEq] at this
    obtain ⟨hid, -, hts, -⟩ := this
    show computeEventHash .. = computeEventHash ..
    rw [hid, hts]

section
variable [DecidableEq D]

/-! ## Storage as a list -/

/-- The event at position `i`. -/
def eventAt (s : State D) (i : ℕ) : Option (Event D) :=
  (s.inst .eventOrder i).bind (s.inst .eventData)

/-- The storage of `s` holds the log `L`. -/
structure Holds (s : State D) (L : List (Entry D)) : Prop where
  order : ∀ i : ℕ, s.inst .eventOrder i = L[i]?.map Prod.fst
  data : ∀ p ∈ L, s.inst .eventData p.1 = some p.2

namespace Holds
variable {s s' : State D} {L : List (Entry D)}

theorem get_order (h : Holds s L) {i : ℕ} {p : Entry D} (hi : L[i]? = some p) :
    s.inst .eventOrder i = some p.1 := by rw [h.order, hi]; rfl

theorem get_data (h : Holds s L) {i : ℕ} {p : Entry D} (hi : L[i]? = some p) :
    s.inst .eventData p.1 = some p.2 := h.data p (List.mem_of_getElem? hi)

theorem eventAt_eq (h : Holds s L) (i : ℕ) : eventAt s i = L[i]?.map Prod.snd := by
  rw [eventAt, h.order]
  rcases hi : L[i]? with _ | p
  · rfl
  · exact h.get_data hi

theorem of_eq (h : Holds s L) (ho : s'.inst .eventOrder = s.inst .eventOrder)
    (hd : s'.inst .eventData = s.inst .eventData) : Holds s' L :=
  ⟨fun i => by rw [ho]; exact h.order i, fun p hp => by rw [hd]; exact h.data p hp⟩

/-- Writing the entry of one position. -/
theorem set (h : Holds s L) {k : ℕ} {q : Entry D} (hk : k < L.length)
    (hnew : ∀ i p, i ≠ k → L[i]? = some p → p.1 ≠ q.1)
    (ho : ∀ i : ℕ, s'.inst .eventOrder i = if i = k then some q.1 else s.inst .eventOrder i)
    (hd : s'.inst .eventData = Function.update (s.inst .eventData) q.1 (some q.2)) :
    Holds s' (L.set k q) := by
  have hget : ∀ i, (L.set k q)[i]? = if i = k then some q else L[i]? := by
    intro i
    by_cases hi : i = k
    · subst hi; simp [hk]
    · rw [List.getElem?_set_ne (Ne.symm hi), if_neg hi]
  refine ⟨fun i => ?_, fun p hp => ?_⟩
  · rw [ho, hget]; split_ifs with hi
    · rfl
    · exact h.order i
  · obtain ⟨i, hi⟩ := List.mem_iff_getElem?.1 hp
    rw [hget] at hi; rw [hd]
    split_ifs at hi with hik
    · obtain rfl : q = p := by simpa using hi
      exact Function.update_self ..
    · rw [Function.update_of_ne (hnew i p hik hi)]; exact h.get_data hi

/-- Writing the event of one position, under the id it has. -/
theorem setData (h : Holds s L) {k : ℕ} {p q : Entry D} (hk : L[k]? = some p) (hL : DistinctIds L)
    (hq : q.1 = p.1) (ho : s'.inst .eventOrder = s.inst .eventOrder)
    (hd : s'.inst .eventData = Function.update (s.inst .eventData) p.1 (some q.2)) :
    Holds s' (L.set k q) := by
  refine h.set (List.getElem?_eq_some_iff.1 hk).1 (fun i r hi hr he => ?_) (fun i => ?_) (hq ▸ hd)
  · exact hi (hL i k r p hr hk (he.trans hq))
  · rw [ho]; split_ifs with hi
    · rw [hi, hq]; exact h.get_order hk
    · rfl

/-- Writing the entry after the last position. -/
theorem append (h : Holds s L) {q : Entry D} (hnew : ∀ p ∈ L, p.1 ≠ q.1)
    (ho : s'.inst .eventOrder = Function.update (s.inst .eventOrder) L.length (some q.1))
    (hd : s'.inst .eventData = Function.update (s.inst .eventData) q.1 (some q.2)) :
    Holds s' (L ++ [q]) := by
  refine ⟨fun i => ?_, fun p hp => ?_⟩
  · rw [ho]
    by_cases hi : i = L.length
    · subst hi; simp
    · rw [Function.update_of_ne hi, h.order]
      rcases lt_or_gt_of_ne hi with hlt | hgt
      · rw [List.getElem?_append_left hlt]
      · simp [List.getElem?_eq_none (show L.length ≤ i by omega),
          List.getElem?_eq_none (show (L ++ [q]).length ≤ i by simp; omega)]
  · rw [hd]
    rcases List.mem_append.1 hp with hp | hp
    · rw [Function.update_of_ne (hnew p hp)]; exact h.data p hp
    · obtain rfl : p = q := by simpa using hp
      exact Function.update_self ..

end Holds

end

end AuditLedger
