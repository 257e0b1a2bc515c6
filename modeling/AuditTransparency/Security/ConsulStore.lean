/-
  The Consul store of the rate limiter under concurrent clients.

  Any number of clients call the store, each with the time of its own clock, and their requests to the
  key-value store interleave in any order.  `consul_linearized`: the calls that return have the results of
  their loops run one after the other, in the order in which they wrote.
-/
import AuditTransparency.Security.RateLimitStores

namespace RateLimit

open CheckAndSet Soroban

/-- A call of a client. -/
inductive ConsulCall where
  | consumeTokenBucket (c : Consume)
  | slidingWindowHit (h : Hit)
  /-- `now` is what the client reads from its clock -/
  | incrementAndGet (key : String) (ttlMs now : ℚ)

def ConsulCall.op : ConsulCall → Op ConsulKey StoredState Bool Reply
  | .consumeTokenBucket c => Consul.consumeTokenBucket c
  | .slidingWindowHit h => Consul.slidingWindowHit h
  | .incrementAndGet key ttlMs now => Consul.incrementAndGet key ttlMs now

inductive ConsulAction where
  | call (c : ConsulCall)
  /-- the store answers the `get` of a call -/
  | get (i : ℕ)
  /-- the store answers the `set` of a call -/
  | set (i : ℕ)

def ConsulAction.toAction : ConsulAction → Action ConsulKey StoredState Bool Reply
  | .call c => .call c.op
  | .get i => .get i
  | .set i => .set i

abbrev ConsulWorld := World ConsulKey StoredState Bool Reply

namespace ConsulWorld

/-- One step of a client, and of the store that answers it. -/
def exec (w : ConsulWorld) (a : ConsulAction) : Option ConsulWorld :=
  CheckAndSet.exec MAX_CAS_RETRIES w a.toAction

def Steps (w : ConsulWorld) (a : ConsulAction) (w' : ConsulWorld) : Prop := exec w a = some w'

/-- No calls yet. -/
def start (kv : Kv ConsulKey StoredState) : ConsulWorld := ⟨kv, []⟩

/-- A call has returned. -/
def Returned (w : ConsulWorld) (i : ℕ) (r : Reply) : Prop := ∃ op, w.calls[i]? = some ⟨op, .returned r⟩

/-- A call has thrown. -/
def Threw (w : ConsulWorld) (i : ℕ) : Prop := ∃ op, w.calls[i]? = some ⟨op, .thrown⟩

/-- The call whose write an action has made. -/
def wrote? (w : ConsulWorld) (a : ConsulAction) : Option ℕ := (written? w a.toAction).map Prod.fst

end ConsulWorld

open ConsulWorld

/-- The calls of a run. -/
def madeCalls (tr : List (ConsulWorld × ConsulAction)) : List ConsulCall :=
  tr.filterMap fun p => match p.2 with
    | .call c => some c
    | _ => none

/-- The calls that have written, in the order of their writes. -/
def writeOrder (tr : List (ConsulWorld × ConsulAction)) : List (ℕ × ConsulCall) :=
  (tr.filterMap fun p => wrote? p.1 p.2).filterMap fun i => (madeCalls tr)[i]?.map (Prod.mk i)

/-- The calls one after the other, each alone. -/
def Consul.serialRun (kv : Kv ConsulKey StoredState) (calls : List (ℕ × ConsulCall)) :
    Kv ConsulKey StoredState × List (ℕ × Option Reply) :=
  calls.foldl (fun s p => ((casLoop s.1 p.2.op).1, s.2 ++ [(p.1, (casLoop s.1 p.2.op).2)])) (kv, [])

/-- The calls of a run are those of some serial execution. -/
structure Consul.Linearized (kv : Kv ConsulKey StoredState) (tr : List (ConsulWorld × ConsulAction))
    (w : ConsulWorld) :
    Prop where
  /-- every write is the one write of a call -/
  writes : (writeOrder tr).map Prod.fst = tr.filterMap fun p => wrote? p.1 p.2
  once : ((writeOrder tr).map Prod.fst).Nodup
  /-- the calls that return, and what they return -/
  results : ∀ (i : ℕ) (r : Reply), w.Returned i r ↔ (i, some r) ∈ (serialRun kv (writeOrder tr)).2
  state : w.kv.value = (serialRun kv (writeOrder tr)).1.value
  /-- a call that throws has not changed the store -/
  thrown : ∀ i, w.Threw i → ∀ p ∈ tr, p.2 = .get i ∨ p.2 = .set i → ∀ w', Steps p.1 p.2 w' → w'.kv = p.1.kv
  /-- what is returned is made of what was written, with the flag of that attempt -/
  flag : ∀ i c, (madeCalls tr)[i]? = some c → ∀ p ∈ tr, p.2 = .set i → wrote? p.1 p.2 = some i →
    w.Returned i (c.op.extract (c.op.mutate (p.1.kv.value c.op.key)).1
      (c.op.mutate (p.1.kv.value c.op.key)).2)

variable {kv : Kv ConsulKey StoredState} {tr : List (ConsulWorld × ConsulAction)} {w : ConsulWorld}

/-- The calls that are under way are those that were made. -/
theorem calls_of_run (h : Run Steps (start kv) tr w) :
    w.calls.map CheckAndSet.Call.op = (madeCalls tr).map ConsulCall.op := by
  induction h with
  | init => rfl
  | @snoc tr s s' a _ hs ih =>
    have hmade : madeCalls (tr ++ [(s, a)]) = madeCalls tr ++ _ := filterMap_concat
    rw [exec_ops hs, ih, hmade, List.map_append]
    cases a <;> rfl

theorem made_of_call (h : Run Steps (start kv) tr w) {i : ℕ}
    {call : CheckAndSet.Call ConsulKey StoredState Bool Reply}
    (hi : w.calls[i]? = some call) : ∃ c, (madeCalls tr)[i]? = some c ∧ c.op = call.op := by
  have hop : (w.calls.map CheckAndSet.Call.op)[i]? = some call.op := by rw [List.getElem?_map, hi]; rfl
  rw [calls_of_run h, List.getElem?_map, Option.map_eq_some_iff] at hop
  exact hop

/-- The numbers of the calls that write. -/
theorem numbers_eq (tr : List (ConsulWorld × ConsulAction)) : (tr.filterMap fun p => wrote? p.1 p.2) =
    (writes (tr.map fun p => (p.1, p.2.toAction))).map Prod.fst := by
  rw [writes, List.filterMap_map, List.map_filterMap]
  rfl

/-- The writes of the run, with the calls that made them. -/
theorem writes_eq (h : Run Steps (start kv) tr w)
    (hops : ∀ i op, (i, op) ∈ writes (tr.map fun p => (p.1, p.2.toAction)) →
      ∃ r, w.calls[i]? = some ⟨op, .returned r⟩) :
    (writeOrder tr).map (fun p => (p.1, p.2.op)) = writes (tr.map fun p => (p.1, p.2.toAction)) := by
  rw [writeOrder, numbers_eq, List.filterMap_map, List.map_filterMap]
  refine (List.filterMap_congr fun p hp => ?_).trans List.filterMap_some
  obtain ⟨r, hr⟩ := hops p.1 p.2 hp
  obtain ⟨c, hc, hop⟩ := made_of_call h hr
  simp only [Function.comp_apply, hc, Option.map_some]
  rw [hop]

/-- Running the calls alone is the loop of the library. -/
theorem serialRun_eq (calls : List (ℕ × ConsulCall)) :
    Consul.serialRun kv calls = loops MAX_CAS_RETRIES kv (calls.map fun p => (p.1, p.2.op)) := by
  rw [loops, List.foldl_map]
  rfl

/-- **The Consul store is linearizable.** -/
theorem consul_linearized (hordered : kv.Ordered) (h : Run Steps (start kv) tr w) :
    Consul.Linearized kv tr w := by
  have hlin : Linearized MAX_CAS_RETRIES kv (tr.map fun p => (p.1, p.2.toAction)) w :=
    run_linearized hordered rfl (h.map fun _ _ _ hs => hs)
  have hwrites := writes_eq h hlin.ops
  have hserial : ∀ ops : List (ℕ × Op ConsulKey StoredState Bool Reply),
      (loops MAX_CAS_RETRIES kv ops).1.value = (serial kv.value ops).1 ∧
        (loops MAX_CAS_RETRIES kv ops).2 = (serial kv.value ops).2.map fun p => (p.1, some p.2) :=
    fun ops => loops_eq_serial kv ops
  have hfst : (writeOrder tr).map Prod.fst = tr.filterMap fun p => wrote? p.1 p.2 := by
    rw [numbers_eq, ← hwrites, List.map_map]
    rfl
  have hmem : ∀ {s : ConsulWorld} {a : ConsulAction}, (s, a) ∈ tr →
      (s, a.toAction) ∈ tr.map fun p => (p.1, p.2.toAction) := fun hp => List.mem_map.2 ⟨_, hp, rfl⟩
  refine ⟨hfst, ?_, ?_, ?_, ?_, ?_⟩
  · rw [hfst, numbers_eq]
    exact hlin.once
  · intro i r
    rw [serialRun_eq, hwrites]
    refine (hlin.results i r).trans ?_
    rw [(hserial _).2, List.mem_map]
    constructor
    · exact fun hr => ⟨(i, r), hr, rfl⟩
    · rintro ⟨⟨j, r'⟩, hr, he⟩
      obtain rfl : j = i := congrArg Prod.fst he
      obtain rfl : r' = r := Option.some.inj (congrArg Prod.snd he)
      exact hr
  · rw [serialRun_eq, hwrites]
    exact hlin.state.trans (hserial _).1.symm
  · rintro i ⟨op, hi⟩ ⟨s, a⟩ hp (rfl | rfl) w' hs
    · exact hlin.thrown i op hi s w' (Or.inl ⟨hmem hp, hs⟩)
    · exact hlin.thrown i op hi s w' (Or.inr ⟨hmem hp, hs⟩)
  · rintro i c hc ⟨s, a⟩ hp rfl hwrote
    obtain ⟨⟨j, op⟩, hwritten, rfl⟩ := Option.map_eq_some_iff.1 hwrote
    obtain ⟨k, vars, next, cas, -, hmutate, hreturned⟩ := hlin.attempt s j op (hmem hp) hwritten
    obtain ⟨c', hc', hop⟩ := made_of_call h hreturned
    obtain rfl := Option.some.inj (hc'.symm.trans hc)
    dsimp only at hop ⊢
    rw [hop, hmutate]
    exact ⟨op, hreturned⟩

/-- Two clients that read the same index: the second one tries again, and finds what the first has written. -/
theorem consul_linearized_contended :
    let take : ConsulCall := .consumeTokenBucket ⟨"k", 6, 10, 1, 1000, 0, by decide⟩
    let actions : List ConsulAction := [.call take, .call take, .get 0, .get 1, .set 0, .set 1,
      .get 1, .set 1]
    let tr := Run.traceOf ConsulWorld.exec (start ⟨fun _ => none, 0⟩) actions
    (writeOrder tr).map Prod.fst = [0, 1] ∧
      ∃ w, Consul.Linearized ⟨fun _ => none, 0⟩ tr w ∧ w.Returned 0 (.consumed ⟨true, 4, 0⟩) ∧
        w.Returned 1 (.consumed ⟨false, 4, 0⟩) := by
  intro take actions tr
  have hordered : Kv.Ordered (κ := ConsulKey) (V := StoredState) ⟨fun _ => none, 0⟩ :=
    fun key e he => by cases he
  have hlin := consul_linearized hordered (Run.of_foldlM (f := ConsulWorld.exec) (l := actions) rfl)
  exact ⟨by decide +kernel, _, hlin, (hlin.results 0 _).2 (by decide +kernel),
    (hlin.results 1 _).2 (by decide +kernel)⟩

end RateLimit
