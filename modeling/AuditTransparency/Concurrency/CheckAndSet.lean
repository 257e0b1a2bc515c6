/-
  Optimistic concurrency on a key-value store with check-and-set.

  A store keeps with every value the index of its last change, and a conditional write succeeds if this
  is still the index that the writer has seen.  A call reads the value of its key, computes the next one,
  and writes it on that condition; it tries again when the write fails, a bounded number of times.

  `run_linearized`: whatever the interleaving, the calls that return have the results of running them one
  after the other, in the order of their writes.
-/
import AuditTransparency.Soroban.Run
import AuditTransparency.Soroban.Lookup
import Mathlib.Data.List.Induction

namespace CheckAndSet

open Soroban

/-! ## The store -/

structure Entry (V : Type) where
  value : V
  modifyIndex : ℕ

/-- `index` is the one of the last change. -/
structure Kv (κ V : Type) where
  entries : κ → Option (Entry V)
  index : ℕ

namespace Kv
variable {κ V : Type} [DecidableEq κ] (kv : Kv κ V)

def value (key : κ) : Option V := (kv.entries key).map Entry.value

/-- The index that a reader sees; `0` when the key is not there. -/
def seen (key : κ) : ℕ := ((kv.entries key).map Entry.modifyIndex).getD 0

/-- A conditional write: the store, and whether it has been written. -/
def set (key : κ) (value : V) (cas : ℕ) : Kv κ V × Bool :=
  if kv.seen key = cas then
    ({ entries := Function.update kv.entries key (some ⟨value, kv.index + 1⟩), index := kv.index + 1 }, true)
  else (kv, false)

/-- The index of a change is at least `1`, and at most the last one. -/
def Ordered : Prop := ∀ key e, kv.entries key = some e → 0 < e.modifyIndex ∧ e.modifyIndex ≤ kv.index

variable {kv}

omit [DecidableEq κ] in
theorem seen_le (h : kv.Ordered) (key : κ) : kv.seen key ≤ kv.index := by
  rw [seen]
  cases he : kv.entries key with
  | none => exact Nat.zero_le _
  | some e => exact (h key e he).2

end Kv

/-! ## Calls -/

variable {κ V F R : Type} [DecidableEq κ] {retries : ℕ}

/-- `mutate` computes the next value and sets the variables of the call; `extract` makes the result of them. -/
structure Op (κ V F R : Type) where
  key : κ
  initial : F
  mutate : Option V → V × F
  extract : V → F → R

/-- Where a call stands. -/
inductive Phase (V F R : Type) where
  | reading (attempt : ℕ) (vars : F)
  | writing (attempt : ℕ) (vars : F) (next : V) (cas : ℕ)
  | returned (result : R)
  | thrown

structure Call (κ V F R : Type) where
  op : Op κ V F R
  phase : Phase V F R

structure World (κ V F R : Type) where
  kv : Kv κ V
  calls : List (Call κ V F R)

inductive Action (κ V F R : Type) where
  | call (op : Op κ V F R)
  /-- the store answers the read of a call, which sends its write -/
  | get (i : ℕ)
  /-- the store answers the write of a call, which returns or tries again -/
  | set (i : ℕ)

/-- The next attempt, or none. -/
def attempt (retries k : ℕ) (vars : F) : Phase V F R := if k < retries then .reading k vars else .thrown

/-- What an action does; `none` when it is not possible. -/
def exec (retries : ℕ) (w : World κ V F R) : Action κ V F R → Option (World κ V F R)
  | .call op => some { w with calls := w.calls ++ [⟨op, attempt retries 0 op.initial⟩] }
  | .get i =>
    match w.calls[i]? with
    | some ⟨op, .reading k _⟩ =>
      let (next, vars) := op.mutate (w.kv.value op.key)
      some { w with calls := w.calls.set i ⟨op, .writing k vars next (w.kv.seen op.key)⟩ }
    | _ => none
  | .set i =>
    match w.calls[i]? with
    | some ⟨op, .writing k vars next cas⟩ =>
      let (kv, ok) := w.kv.set op.key next cas
      let phase := if ok then .returned (op.extract next vars) else attempt retries (k + 1) vars
      some { kv, calls := w.calls.set i ⟨op, phase⟩ }
    | _ => none

/-- One step. -/
def Steps (retries : ℕ) (w : World κ V F R) (a : Action κ V F R) (w' : World κ V F R) : Prop :=
  exec retries w a = some w'

/-- The loop of one call that nothing interrupts. -/
def loop (kv : Kv κ V) (op : Op κ V F R) : ℕ → Kv κ V × Option R
  | 0 => (kv, none)
  | k + 1 =>
    let (next, vars) := op.mutate (kv.value op.key)
    let (kv', ok) := kv.set op.key next (kv.seen op.key)
    if ok then (kv', some (op.extract next vars)) else loop kv' op k

/-! ## One after the other -/

/-- The state after a call that runs alone, and its result added to the others. -/
def serialStep (s : (κ → Option V) × List (ℕ × R)) (p : ℕ × Op κ V F R) : (κ → Option V) × List (ℕ × R) :=
  let (next, vars) := p.2.mutate (s.1 p.2.key)
  (Function.update s.1 p.2.key (some next), s.2 ++ [(p.1, p.2.extract next vars)])

def serial (s : κ → Option V) (ops : List (ℕ × Op κ V F R)) : (κ → Option V) × List (ℕ × R) :=
  ops.foldl serialStep (s, [])

/-- The call whose write an action has made. -/
def written? (w : World κ V F R) : Action κ V F R → Option (ℕ × Op κ V F R)
  | .set i =>
    match w.calls[i]? with
    | some ⟨op, .writing _ _ _ cas⟩ => if w.kv.seen op.key = cas then some (i, op) else none
    | _ => none
  | _ => none

/-- The calls that have written, in order. -/
def writes (tr : List (World κ V F R × Action κ V F R)) : List (ℕ × Op κ V F R) :=
  tr.filterMap fun p => written? p.1 p.2

/-! ## What a step does -/

variable {w w' : World κ V F R} {a : Action κ V F R} {tr : List (World κ V F R × Action κ V F R)}

inductive Effect (retries : ℕ) (w : World κ V F R) : Action κ V F R → World κ V F R → Prop where
  | call (op : Op κ V F R) :
      Effect retries w (.call op) { w with calls := w.calls ++ [⟨op, attempt retries 0 op.initial⟩] }
  | get {i k : ℕ} {op : Op κ V F R} {old : F} (hi : w.calls[i]? = some ⟨op, .reading k old⟩) :
      Effect retries w (.get i)
        { w with calls := w.calls.set i ⟨op, .writing k (op.mutate (w.kv.value op.key)).2
            (op.mutate (w.kv.value op.key)).1 (w.kv.seen op.key)⟩ }
  | wrote {i k cas : ℕ} {op : Op κ V F R} {vars : F} {next : V}
      (hi : w.calls[i]? = some ⟨op, .writing k vars next cas⟩) (hcas : w.kv.seen op.key = cas) :
      Effect retries w (.set i)
        { kv := ⟨Function.update w.kv.entries op.key (some ⟨next, w.kv.index + 1⟩), w.kv.index + 1⟩
          calls := w.calls.set i ⟨op, .returned (op.extract next vars)⟩ }
  | missed {i k cas : ℕ} {op : Op κ V F R} {vars : F} {next : V}
      (hi : w.calls[i]? = some ⟨op, .writing k vars next cas⟩) (hcas : w.kv.seen op.key ≠ cas) :
      Effect retries w (.set i)
        { w with calls := w.calls.set i ⟨op, attempt retries (k + 1) vars⟩ }

theorem effect_of_exec (h : exec retries w a = some w') : Effect retries w a w' := by
  cases a with
  | call op =>
    obtain rfl := Option.some.inj h
    exact .call op
  | get i =>
    rw [exec] at h
    split at h
    · rename_i op k old hi
      obtain rfl := Option.some.inj h
      exact .get hi
    · cases h
  | set i =>
    rw [exec] at h
    split at h
    · rename_i op k vars next cas hi
      by_cases hcas : w.kv.seen op.key = cas
      · rw [Kv.set, if_pos hcas] at h
        obtain rfl := Option.some.inj h
        exact .wrote hi hcas
      · rw [Kv.set, if_neg hcas] at h
        obtain rfl := Option.some.inj h
        exact .missed hi hcas
    · cases h

/-- A loop that nothing interrupts ends with its first attempt. -/
theorem loop_succ (kv : Kv κ V) (op : Op κ V F R) (k : ℕ) :
    loop kv op (k + 1) =
      (⟨Function.update kv.entries op.key (some ⟨(op.mutate (kv.value op.key)).1, kv.index + 1⟩),
        kv.index + 1⟩,
        some (op.extract (op.mutate (kv.value op.key)).1 (op.mutate (kv.value op.key)).2)) := by
  simp [loop, Kv.set]

/-- The call that an action makes. -/
def made? : Action κ V F R → Option (Op κ V F R)
  | .call op => some op
  | _ => none

/-- Calls are made one after the other, and stay what they are. -/
theorem exec_ops (h : exec retries w a = some w') :
    w'.calls.map Call.op = w.calls.map Call.op ++ (made? a).toList := by
  have hset : ∀ {i : ℕ} {op : Op κ V F R} {before after : Phase V F R}, w.calls[i]? = some ⟨op, before⟩ →
      (w.calls.set i ⟨op, after⟩).map Call.op = w.calls.map Call.op ++ [] := by
    intro i op before after hi
    have hop : (w.calls.map Call.op)[i]? = some op := by rw [List.getElem?_map, hi]; rfl
    rw [List.append_nil, List.map_set]
    exact set_of_getElem? hop
  cases effect_of_exec h with
  | call op => exact List.map_append
  | get hi => exact hset hi
  | wrote hi _ => exact hset hi
  | missed hi _ => exact hset hi

/-! ## The invariant -/

/-- What every step keeps: the store is what the calls that have written make of it one after the other,
    and an attempt whose condition still holds has seen the present value. -/
structure Kept (kv₀ : Kv κ V) (tr : List (World κ V F R × Action κ V F R)) (w : World κ V F R) : Prop where
  ordered : w.kv.Ordered
  state : w.kv.value = (serial kv₀.value (writes tr)).1
  results : ∀ (i : ℕ) (r : R), (∃ op, w.calls[i]? = some ⟨op, .returned r⟩) ↔
    (i, r) ∈ (serial kv₀.value (writes tr)).2
  ops : ∀ (i : ℕ) (op : Op κ V F R), (i, op) ∈ writes tr → ∃ r, w.calls[i]? = some ⟨op, .returned r⟩
  once : ((writes tr).map Prod.fst).Nodup
  current : ∀ (i k cas : ℕ) (op : Op κ V F R) (vars : F) (next : V),
    w.calls[i]? = some ⟨op, .writing k vars next cas⟩ →
      cas ≤ w.kv.index ∧ (w.kv.seen op.key = cas → op.mutate (w.kv.value op.key) = (next, vars))

omit [DecidableEq κ] in
theorem writes_concat : writes (tr ++ [(w, a)]) = writes tr ++ (written? w a).toList := filterMap_concat

theorem serial_concat (s : κ → Option V) (ops : List (ℕ × Op κ V F R)) (p : ℕ × Op κ V F R) :
    serial s (ops ++ [p]) = serialStep (serial s ops) p := by
  rw [serial, List.foldl_append]
  rfl

/-- A write of a key, as the reader of a key sees it. -/
theorem value_update (kv : Kv κ V) (key : κ) (v : V) (n : ℕ) :
    Kv.value ⟨Function.update kv.entries key (some ⟨v, n⟩), n⟩ = Function.update kv.value key (some v) := by
  funext key'
  rcases eq_or_ne key' key with rfl | hne
  · simp [Kv.value]
  · simp [Kv.value, hne]

theorem seen_update (kv : Kv κ V) (key : κ) (v : V) (n : ℕ) :
    Kv.seen ⟨Function.update kv.entries key (some ⟨v, n⟩), n⟩ = Function.update kv.seen key n := by
  funext key'
  rcases eq_or_ne key' key with rfl | hne
  · simp [Kv.seen]
  · simp [Kv.seen, hne]

theorem Kv.Ordered.update {kv : Kv κ V} (h : kv.Ordered) (key : κ) (v : V) :
    Kv.Ordered ⟨Function.update kv.entries key (some ⟨v, kv.index + 1⟩), kv.index + 1⟩ := by
  intro key' e he
  rcases update_cases he with ⟨rfl, rfl⟩ | ⟨-, he⟩
  · exact ⟨Nat.succ_pos _, le_rfl⟩
  · exact ⟨(h key' e he).1, Nat.le_succ_of_le (h key' e he).2⟩

/-- A step that writes nothing. -/
theorem Kept.idle {kv₀ : Kv κ V} (hk : Kept kv₀ tr w) (hwritten : written? w a = none) (hkv : w'.kv = w.kv)
    (hreturned : ∀ (i : ℕ) (op : Op κ V F R) (r : R),
      w'.calls[i]? = some ⟨op, .returned r⟩ ↔ w.calls[i]? = some ⟨op, .returned r⟩)
    (hcurrent : ∀ (i k cas : ℕ) (op : Op κ V F R) (vars : F) (next : V),
      w'.calls[i]? = some ⟨op, .writing k vars next cas⟩ → w.calls[i]? = some ⟨op, .writing k vars next cas⟩ ∨
        cas = w.kv.seen op.key ∧ op.mutate (w.kv.value op.key) = (next, vars)) :
    Kept kv₀ (tr ++ [(w, a)]) w' := by
  have hwrites : writes (tr ++ [(w, a)]) = writes tr := by
    rw [writes_concat, hwritten, Option.toList_none, List.append_nil]
  refine ⟨hkv ▸ hk.ordered, ?_, ?_, ?_, ?_, ?_⟩
  · rw [hkv, hwrites]
    exact hk.state
  · intro i r
    rw [hwrites, ← hk.results]
    exact exists_congr fun op => hreturned i op r
  · intro i op hop
    rw [hwrites] at hop
    obtain ⟨r, hr⟩ := hk.ops i op hop
    exact ⟨r, (hreturned i op r).2 hr⟩
  · rw [hwrites]
    exact hk.once
  · intro i k cas op vars next hi
    rw [hkv]
    rcases hcurrent i k cas op vars next hi with hi | ⟨rfl, hm⟩
    · exact hk.current i k cas op vars next hi
    · exact ⟨Kv.seen_le hk.ordered _, fun _ => hm⟩

/-- A step that writes. -/
theorem Kept.write {kv₀ : Kv κ V} {i k cas : ℕ} {op : Op κ V F R} {vars : F} {next : V} (hk : Kept kv₀ tr w)
    (hi : w.calls[i]? = some ⟨op, .writing k vars next cas⟩) (hcas : w.kv.seen op.key = cas) :
    Kept kv₀ (tr ++ [(w, .set i)])
      { kv := ⟨Function.update w.kv.entries op.key (some ⟨next, w.kv.index + 1⟩), w.kv.index + 1⟩
        calls := w.calls.set i ⟨op, .returned (op.extract next vars)⟩ } := by
  obtain ⟨hle, hmutate⟩ := hk.current i k cas op vars next hi
  have hnext := hmutate hcas
  have hlt : i < w.calls.length := (List.getElem?_eq_some_iff.1 hi).1
  have hwrites : writes (tr ++ [(w, .set i)]) = writes tr ++ [(i, op)] := by
    rw [writes_concat]
    simp [written?, hi, hcas]
  have hserial : serial kv₀.value (writes (tr ++ [(w, .set i)])) =
      (Function.update w.kv.value op.key (some next),
        (serial kv₀.value (writes tr)).2 ++ [(i, op.extract next vars)]) := by
    rw [hwrites, serial_concat, serialStep, ← hk.state, hnext]
  have hnot : i ∉ (writes tr).map Prod.fst := by
    intro hmem
    obtain ⟨⟨j, op'⟩, hop, rfl⟩ := List.mem_map.1 hmem
    obtain ⟨r, hr⟩ := hk.ops j op' hop
    rw [hi] at hr
    cases hr
  refine ⟨hk.ordered.update op.key next, ?_, ?_, ?_, ?_, ?_⟩
  · rw [hserial]
    exact value_update w.kv op.key next (w.kv.index + 1)
  · intro j r
    rw [hserial, List.mem_append, List.mem_singleton, ← hk.results j r]
    rcases eq_or_ne j i with rfl | hne
    · rw [List.getElem?_set_self hlt]
      constructor
      · rintro ⟨op', he⟩
        obtain ⟨-, he⟩ := Call.mk.inj (Option.some.inj he)
        exact Or.inr (by rw [Phase.returned.inj he])
      · rintro (⟨op', he⟩ | he)
        · rw [hi] at he
          cases he
        · exact ⟨op, by rw [(Prod.mk.inj he).2]⟩
    · rw [List.getElem?_set_ne hne.symm]
      exact ⟨Or.inl, fun h => h.resolve_right fun he => hne (Prod.mk.inj he).1⟩
  · intro j op' hop
    rw [hwrites, List.mem_append, List.mem_singleton] at hop
    rcases hop with hop | he
    · obtain ⟨r, hr⟩ := hk.ops j op' hop
      have hne : j ≠ i := by
        rintro rfl
        rw [hi] at hr
        cases hr
      exact ⟨r, by rw [List.getElem?_set_ne hne.symm]; exact hr⟩
    · obtain ⟨rfl, rfl⟩ := Prod.mk.inj he
      exact ⟨_, List.getElem?_set_self hlt⟩
  · rw [hwrites, List.map_append, List.map_singleton, ← List.concat_eq_append, List.nodup_concat]
    exact ⟨hnot, hk.once⟩
  · intro j k' cas' op' vars' next' hj
    rcases getElem?_set_cases hj with hj | ⟨-, he⟩
    · obtain ⟨hle', hmutate'⟩ := hk.current j k' cas' op' vars' next' hj
      refine ⟨Nat.le_succ_of_le hle', ?_⟩
      rw [value_update, seen_update]
      rcases eq_or_ne op'.key op.key with hkey | hkey
      · rw [hkey, Function.update_self]
        intro hseen
        -- the index has moved on since that attempt
        omega
      · rw [Function.update_of_ne hkey, Function.update_of_ne hkey]
        exact hmutate'
    · cases (Call.mk.inj he).2

omit [DecidableEq κ] in
/-- A call that goes on, and neither had returned nor does. -/
theorem returned_set {calls : List (Call κ V F R)} {i : ℕ} {op : Op κ V F R} {before after : Phase V F R}
    (hi : calls[i]? = some ⟨op, before⟩) (hbefore : ∀ r, before ≠ .returned r)
    (hafter : ∀ r, after ≠ .returned r)
    (j : ℕ) (op' : Op κ V F R) (r : R) :
    (calls.set i ⟨op, after⟩)[j]? = some ⟨op', .returned r⟩ ↔ calls[j]? = some ⟨op', .returned r⟩ := by
  rcases eq_or_ne i j with rfl | hne
  · rw [List.getElem?_set_self (List.getElem?_eq_some_iff.1 hi).1, hi]
    constructor
    · intro he
      exact absurd (Call.mk.inj (Option.some.inj he)).2 (hafter r)
    · intro he
      exact absurd (Call.mk.inj (Option.some.inj he)).2 (hbefore r)
  · rw [List.getElem?_set_ne hne]

theorem Kept.step {kv₀ : Kv κ V} (hk : Kept kv₀ tr w) (h : exec retries w a = some w') :
    Kept kv₀ (tr ++ [(w, a)]) w' := by
  -- an attempt has neither written nor returned
  have hattempt : ∀ {n : ℕ} {vars : F}, (∀ r : R, attempt (V := V) retries n vars ≠ .returned r) ∧
      ∀ (k cas : ℕ) (vars' : F) (next : V), attempt (R := R) retries n vars ≠ .writing k vars' next cas := by
    intro n vars
    simp only [attempt]
    constructor
    · intro r
      split_ifs <;> exact fun h => by cases h
    · intro k cas vars' next
      split_ifs <;> exact fun h => by cases h
  cases effect_of_exec h with
  | call op =>
    refine hk.idle rfl rfl (fun i op' r => ⟨fun hi => ?_, getElem?_concat_of_some⟩)
      fun i k cas op' vars next hi => ?_
    · rcases getElem?_concat_cases hi with hi | ⟨-, he⟩
      · exact hi
      · exact absurd (Call.mk.inj he).2.symm (hattempt.1 r)
    · rcases getElem?_concat_cases hi with hi | ⟨-, he⟩
      · exact Or.inl hi
      · exact absurd (Call.mk.inj he).2.symm (hattempt.2 k cas vars next)
  | @get i k op old hi =>
    refine hk.idle rfl rfl (returned_set hi (fun r h => by cases h) fun r h => by cases h)
      fun j k' cas op' vars next hj => ?_
    · rcases getElem?_set_cases hj with hj | ⟨-, he⟩
      · exact Or.inl hj
      · obtain ⟨rfl, he⟩ := Call.mk.inj he
        obtain ⟨-, rfl, rfl, rfl⟩ := Phase.writing.inj he
        exact Or.inr ⟨rfl, rfl⟩
  | wrote hi hcas => exact hk.write hi hcas
  | @missed i k cas op vars next hi hcas =>
    refine hk.idle ?_ rfl (returned_set hi (fun r h => by cases h) hattempt.1)
      fun j k' cas' op' vars' next' hj => ?_
    · simp [written?, hi, hcas]
    · rcases getElem?_set_cases hj with hj | ⟨-, he⟩
      · exact Or.inl hj
      · exact absurd (Call.mk.inj he).2.symm (hattempt.2 k' cas' vars' next')

/-! ## Loops that nothing interrupts -/

/-- The loops of calls one after the other, and their results. -/
def loops (retries : ℕ) (kv : Kv κ V) (ops : List (ℕ × Op κ V F R)) : Kv κ V × List (ℕ × Option R) :=
  ops.foldl (fun s p => ((loop s.1 p.2 retries).1, s.2 ++ [(p.1, (loop s.1 p.2 retries).2)])) (kv, [])

/-- They are what running the calls one after the other is. -/
theorem loops_eq_serial (kv : Kv κ V) (ops : List (ℕ × Op κ V F R)) :
    (loops (retries + 1) kv ops).1.value = (serial kv.value ops).1 ∧
      (loops (retries + 1) kv ops).2 = (serial kv.value ops).2.map fun p => (p.1, some p.2) := by
  induction ops using List.reverseRecOn with
  | nil => exact ⟨rfl, rfl⟩
  | append_singleton ops p ih =>
    obtain ⟨hvalue, hresults⟩ := ih
    rw [serial_concat, serialStep, loops, List.foldl_append]
    change Kv.value (loop (loops (retries + 1) kv ops).1 p.2 (retries + 1)).1 = _ ∧
      (loops (retries + 1) kv ops).2 ++ [(p.1, (loop (loops (retries + 1) kv ops).1 p.2 (retries + 1)).2)] = _
    rw [loop_succ, value_update, hvalue, hresults, List.map_append]
    exact ⟨rfl, rfl⟩

/-! ## Runs -/

/-- The calls of a run, against running those that have written one after the other. -/
structure Linearized (retries : ℕ) (kv₀ : Kv κ V) (tr : List (World κ V F R × Action κ V F R))
    (w : World κ V F R) :
    Prop where
  /-- the values in the store -/
  state : w.kv.value = (serial kv₀.value (writes tr)).1
  /-- the calls that return, and their results -/
  results : ∀ (i : ℕ) (r : R), (∃ op, w.calls[i]? = some ⟨op, .returned r⟩) ↔
    (i, r) ∈ (serial kv₀.value (writes tr)).2
  /-- every call is there once, as it was made -/
  once : ((writes tr).map Prod.fst).Nodup
  ops : ∀ (i : ℕ) (op : Op κ V F R), (i, op) ∈ writes tr → ∃ r, w.calls[i]? = some ⟨op, .returned r⟩
  /-- what is returned is made of the value that was written, and of the variables of that attempt -/
  attempt : ∀ s i op, (s, Action.set i) ∈ tr → written? s (.set i) = some (i, op) →
    ∃ k vars next cas, s.calls[i]? = some ⟨op, .writing k vars next cas⟩ ∧
      op.mutate (s.kv.value op.key) = (next, vars) ∧ w.calls[i]? = some ⟨op, .returned (op.extract next vars)⟩
  /-- a call that throws has not changed the store -/
  thrown : ∀ (i : ℕ) (op : Op κ V F R), w.calls[i]? = some ⟨op, .thrown⟩ →
    ∀ s s', (s, Action.get i) ∈ tr ∧ exec retries s (.get i) = some s' ∨
      (s, Action.set i) ∈ tr ∧ exec retries s (.set i) = some s' → s'.kv = s.kv

theorem kept_of_run {w₀ : World κ V F R} (hordered : w₀.kv.Ordered) (hcalls : w₀.calls = [])
    (h : Run (Steps retries) w₀ tr w) : Kept w₀.kv tr w := by
  induction h with
  | init =>
    refine ⟨hordered, rfl, ?_, ?_, List.nodup_nil, ?_⟩
    · intro i r
      simp [hcalls, writes, serial]
    · intro i op hop
      cases hop
    · intro i k cas op vars next hi
      simp [hcalls] at hi
  | snoc _ hs ih => exact ih.step hs

/-- What has returned stays. -/
theorem returned_later {i : ℕ} {op : Op κ V F R} {r : R} {w₀ : World κ V F R}
    (h : Run (Steps retries) w₀ tr w)
    (hi : w₀.calls[i]? = some ⟨op, .returned r⟩) : w.calls[i]? = some ⟨op, .returned r⟩ := by
  induction h with
  | init => exact hi
  | snoc _ hs ih =>
    have hset : ∀ {s : World κ V F R} {j : ℕ} {op' : Op κ V F R} {before after : Phase V F R},
        s.calls[i]? = some ⟨op, .returned r⟩ → s.calls[j]? = some ⟨op', before⟩ →
          (∀ r, before ≠ .returned r) →
          (s.calls.set j ⟨op', after⟩)[i]? = some ⟨op, .returned r⟩ := by
      intro s j op' before after hi hj hbefore
      rcases eq_or_ne j i with rfl | hne
      · rw [hi] at hj
        exact absurd (Call.mk.inj (Option.some.inj hj)).2.symm (hbefore r)
      · rw [List.getElem?_set_ne hne]
        exact hi
    cases effect_of_exec hs with
    | call op' => exact getElem?_concat_of_some ih
    | get hj => exact hset ih hj fun r h => by cases h
    | wrote hj _ => exact hset ih hj fun r h => by cases h
    | missed hj _ => exact hset ih hj fun r h => by cases h

/-- **Calls that are linearized**, in every run. -/
theorem run_linearized {w₀ : World κ V F R} (hordered : w₀.kv.Ordered) (hcalls : w₀.calls = [])
    (h : Run (Steps retries) w₀ tr w) : Linearized retries w₀.kv tr w := by
  have hk := kept_of_run hordered hcalls h
  have hattempt : ∀ s i op, (s, Action.set i) ∈ tr → written? s (.set i) = some (i, op) →
      ∃ k vars next cas, s.calls[i]? = some ⟨op, .writing k vars next cas⟩ ∧
        op.mutate (s.kv.value op.key) = (next, vars) ∧
          w.calls[i]? = some ⟨op, .returned (op.extract next vars)⟩ := by
    intro s i op hmem hwritten
    obtain ⟨before, after, rfl⟩ := List.append_of_mem hmem
    obtain ⟨s', hbefore, hs, hafter⟩ := h.split
    have hks := kept_of_run hordered hcalls hbefore
    cases effect_of_exec hs with
    | @wrote _ k cas op' vars next hi hcas =>
      simp only [written?, hi, hcas, if_true, Option.some.injEq, Prod.mk.injEq, true_and] at hwritten
      subst hwritten
      refine ⟨k, vars, next, cas, hi, (hks.current i k cas op' vars next hi).2 hcas, returned_later hafter ?_⟩
      exact List.getElem?_set_self (List.getElem?_eq_some_iff.1 hi).1
    | missed hi hcas => simp [written?, hi, hcas] at hwritten
  refine ⟨hk.state, hk.results, hk.once, hk.ops, hattempt, ?_⟩
  rintro i op hthrown s s' (⟨-, hs⟩ | ⟨hmem, hs⟩)
  · cases effect_of_exec hs with
    | get hi => rfl
  · cases effect_of_exec hs with
    | @wrote _ k cas op' vars next hi hcas =>
      have hwritten : written? s (.set i) = some (i, op') := by simp [written?, hi, hcas]
      obtain ⟨_, _, _, _, -, -, hreturned⟩ := hattempt s i op' hmem hwritten
      rw [hthrown] at hreturned
      cases hreturned
    | missed hi hcas => rfl

end CheckAndSet
