/-
  StateSynchronizer — the cursor of the leader, replicated to the nodes that stand by
  (`bridge/relayer/ha.ts`).

  Every node has a synchronizer.  The one that leads records what it has processed; the state it emits
  goes to the other nodes, which may receive it late, more than once, or never.
-/
import AuditTransparency.Soroban.Run
import Mathlib.Logic.Function.Basic
import Mathlib.Data.Prod.Lex

namespace StateSynchronizer

open Soroban

/-! ## Data -/

structure RelayerState where
  term : ℕ
  lastSequenceNumber : ℕ
  lastProcessedHash : String
  updatedAt : ℕ
  syncLagMs : ℕ
  deriving DecidableEq

/-- How far a state has come: by its term, then by its sequence number. -/
def RelayerState.cursor (s : RelayerState) : ℕ ×ₗ ℕ := toLex (s.term, s.lastSequenceNumber)

/-- The state of a new synchronizer. -/
def RelayerState.new (now : ℕ) : RelayerState := ⟨0, 0, "", now, 0⟩

/-- `updateLeaderState` -/
def updateLeaderState (seq : ℕ) (hash : String) (term now : ℕ) : RelayerState :=
  { term, lastSequenceNumber := seq, lastProcessedHash := hash, updatedAt := now, syncLagMs := 0 }

/-- `applyReplicaState` -/
def applyReplicaState (leaderState : RelayerState) (now : ℕ) : RelayerState :=
  { leaderState with syncLagMs := now - leaderState.updatedAt }

@[simp] theorem cursor_new (now : ℕ) : (RelayerState.new now).cursor = toLex (0, 0) := rfl

@[simp] theorem cursor_updateLeaderState (seq : ℕ) (hash : String) (term now : ℕ) :
    (updateLeaderState seq hash term now).cursor = toLex (term, seq) := rfl

@[simp] theorem cursor_applyReplicaState (m : RelayerState) (now : ℕ) :
    (applyReplicaState m now).cursor = m.cursor := rfl

/-- The synchronizers of the nodes, and the states the leaders have emitted. -/
structure World (ι : Type) where
  state : ι → RelayerState
  sent : List RelayerState

/-- `apply i k` is the delivery of the `k`-th state to the node `i`. -/
inductive Action (ι : Type) where
  | update (i : ι) (seq : ℕ) (hash : String) (term now : ℕ)
  | apply (i : ι) (k now : ℕ)

variable {ι : Type} [DecidableEq ι]

/-! ## Steps -/

def World.new (now : ι → ℕ) : World ι := ⟨fun i => .new (now i), []⟩

/-- What an action does; `none` when it is not possible. -/
def exec (w : World ι) : Action ι → Option (World ι)
  | .update i seq hash term now =>
    let s := updateLeaderState seq hash term now
    some ⟨Function.update w.state i s, w.sent ++ [s]⟩
  | .apply i k now =>
    (w.sent[k]?).map fun m => { w with state := Function.update w.state i (applyReplicaState m now) }

/-- The leaders produce their states in order. -/
def InOrder (w : World ι) : Action ι → Prop
  | .update _ seq _ term _ => ∀ m ∈ w.sent, m.cursor ≤ toLex (term, seq)
  | .apply .. => True

instance (w : World ι) (a : Action ι) : Decidable (InOrder w a) := by
  cases a <;> unfold InOrder <;> infer_instance

/-- One step. -/
def Steps (w : World ι) (a : Action ι) (w' : World ι) : Prop := exec w a = some w' ∧ InOrder w a

/-! ## What a node has acknowledged -/

/-- The cursor that an action brings to the node `i`. -/
def acknowledged? (i : ι) (w : World ι) : Action ι → Option (ℕ ×ₗ ℕ)
  | .update j seq _ term _ => if j = i then some (toLex (term, seq)) else none
  | .apply j k _ => if j = i then (w.sent[k]?).map RelayerState.cursor else none

/-- The cursors that a node has acknowledged.  One that has not led has only received them. -/
def acknowledged (i : ι) (tr : List (World ι × Action ι)) : List (ℕ ×ₗ ℕ) :=
  tr.filterMap fun p => acknowledged? i p.1 p.2

/-- The largest of them. -/
def largest (i : ι) (tr : List (World ι × Action ι)) : ℕ ×ₗ ℕ := (acknowledged i tr).foldl max (toLex (0, 0))

/-- A node that takes over processes what is after its cursor. -/
def RelayerState.Resumes (s : RelayerState) (c : ℕ ×ₗ ℕ) : Prop := s.cursor < c

/-- The cursor of a node has not gone backwards, it is the largest that was delivered, and nothing that was
    acknowledged would be processed again. -/
structure Synchronized (i : ι) (tr : List (World ι × Action ι)) (w : World ι) : Prop where
  forwards : ∀ p ∈ tr, (p.1.state i).cursor ≤ (w.state i).cursor
  last : (w.state i).cursor = largest i tr
  once : ∀ c ∈ acknowledged i tr, ¬(w.state i).Resumes c

/-- A state that is delivered to the node `i` is not older than the one it has. -/
def Fresh (i : ι) (w : World ι) : Action ι → Prop
  | .update .. => True
  | .apply j k _ => j = i → ∀ m ∈ w.sent[k]?, (w.state i).cursor ≤ m.cursor

instance (i : ι) (w : World ι) (a : Action ι) : Decidable (Fresh i w a) := by
  cases a <;> unfold Fresh <;> infer_instance

/-! ## One step -/

variable {i : ι} {w w' : World ι} {a : Action ι} {tr : List (World ι × Action ι)}

/-- The node has what the step brought to it, and otherwise what it had. -/
theorem cursor_of_steps (h : exec w a = some w') :
    (w'.state i).cursor = (acknowledged? i w a).getD (w.state i).cursor := by
  cases a with
  | update j seq hash term now =>
    obtain rfl := Option.some.inj h
    rcases eq_or_ne j i with rfl | hj
    · simp [acknowledged?]
    · simp [acknowledged?, hj, Ne.symm hj]
  | apply j k now =>
    obtain ⟨m, hm, rfl⟩ := Option.map_eq_some_iff.1 h
    rcases eq_or_ne j i with rfl | hj
    · simp [acknowledged?, hm]
    · simp [acknowledged?, hj, Ne.symm hj]

/-- A node has its first state, or one that a leader has produced. -/
def Known (w : World ι) : Prop :=
  ∀ i, (w.state i).cursor = toLex (0, 0) ∨ ∃ m ∈ w.sent, m.cursor = (w.state i).cursor

omit [DecidableEq ι] in
theorem known_new (now : ι → ℕ) : Known (World.new now) := fun _ => Or.inl rfl

/-- What a step brings to a node is one of the states that the leaders have then produced. -/
theorem sent_of_steps (h : exec w a = some w') :
    (∀ m ∈ w.sent, m ∈ w'.sent) ∧ ∀ c ∈ acknowledged? i w a, ∃ m ∈ w'.sent, m.cursor = c := by
  cases a with
  | update j seq hash term now =>
    obtain rfl := Option.some.inj h
    refine ⟨fun m hm => List.mem_append_left _ hm, fun c hc => ?_⟩
    rw [acknowledged?, Option.mem_def, Option.ite_none_right_eq_some, Option.some.injEq] at hc
    obtain ⟨-, rfl⟩ := hc
    exact ⟨updateLeaderState seq hash term now, List.mem_append_right _ (List.mem_singleton_self _), rfl⟩
  | apply j k now =>
    obtain ⟨m, hm, rfl⟩ := Option.map_eq_some_iff.1 h
    refine ⟨fun m hm => hm, fun c hc => ?_⟩
    rw [acknowledged?, Option.mem_def, Option.ite_none_right_eq_some, hm] at hc
    obtain ⟨-, hc⟩ := hc
    exact ⟨m, List.mem_of_getElem? hm, Option.some.inj hc⟩

theorem Known.step (hw : Known w) (h : exec w a = some w') : Known w' := by
  intro i
  obtain ⟨hsent, hack⟩ := sent_of_steps (i := i) h
  rw [cursor_of_steps h]
  cases hc : acknowledged? i w a with
  | none =>
    rcases hw i with h₀ | ⟨m, hm, he⟩
    · exact Or.inl h₀
    · exact Or.inr ⟨m, hsent m hm, he⟩
  | some c => exact Or.inr (hack c hc)

/-- A step does not set a node back when what it brings to the node is not older.  What a leader
    produces never is. -/
theorem fresh_iff (hw : Known w) (ho : InOrder w a) :
    Fresh i w a ↔ ∀ c ∈ acknowledged? i w a, (w.state i).cursor ≤ c := by
  cases a with
  | update j seq hash term now =>
    refine iff_of_true trivial fun c hc => ?_
    rw [acknowledged?, Option.mem_def, Option.ite_none_right_eq_some, Option.some.injEq] at hc
    obtain ⟨-, rfl⟩ := hc
    rcases hw i with h₀ | ⟨m, hm, he⟩
    · rw [h₀, Prod.Lex.toLex_le_toLex]
      rcases Nat.eq_zero_or_pos term with rfl | hpos
      · exact Or.inr ⟨rfl, Nat.zero_le _⟩
      · exact Or.inl hpos
    · rw [← he]
      exact ho m hm
  | apply j k now =>
    rw [Fresh, acknowledged?]
    by_cases hj : j = i
    · simp [hj]
    · simp [hj]

theorem largest_concat :
    largest i (tr ++ [(w, a)]) = ((acknowledged? i w a).map (max (largest i tr))).getD (largest i tr) := by
  rw [largest, acknowledged, filterMap_concat, List.foldl_append]
  cases acknowledged? i w a <;> rfl

/-- **One step.** -/
theorem Synchronized.step_iff (hI : Synchronized i tr w) (hw : Known w) (h : Steps w a w') :
    Synchronized i (tr ++ [(w, a)]) w' ↔ Fresh i w a := by
  rw [fresh_iff hw h.2]
  have hcur := cursor_of_steps (i := i) h.1
  have hlargest : largest i (tr ++ [(w, a)]) = _ := largest_concat
  have hack : acknowledged i (tr ++ [(w, a)]) = acknowledged i tr ++ (acknowledged? i w a).toList :=
    filterMap_concat
  cases hc : acknowledged? i w a with
  | none =>
    rw [hc] at hcur hlargest hack
    refine iff_of_true ⟨fun p hp => ?_, ?_, fun c hmem => ?_⟩ (by simp)
    · rw [hcur]
      rcases List.mem_append.1 hp with hp | hp
      · exact hI.forwards p hp
      · obtain rfl := List.mem_singleton.1 hp
        exact le_rfl
    · rw [hcur, hlargest]
      exact hI.last
    · rw [hack, Option.toList_none, List.append_nil] at hmem
      rw [RelayerState.Resumes, hcur]
      exact hI.once c hmem
  | some c =>
    rw [hc] at hcur hlargest hack
    simp only [Option.getD_some, Option.map_some, Option.toList_some] at hcur hlargest hack
    simp only [Option.mem_def, Option.some.injEq, forall_eq']
    constructor
    · intro hI'
      rw [← hcur]
      exact hI'.forwards (w, a) (List.mem_append_right _ (List.mem_singleton_self _))
    · intro hle
      refine ⟨fun p hp => ?_, ?_, fun d hd => ?_⟩
      · rw [hcur]
        rcases List.mem_append.1 hp with hp | hp
        · exact (hI.forwards p hp).trans hle
        · obtain rfl := List.mem_singleton.1 hp
          exact hle
      · rw [hcur, hlargest, ← hI.last, max_eq_right hle]
      · rw [RelayerState.Resumes, hcur, not_lt]
        rw [hack, List.mem_append, List.mem_singleton] at hd
        rcases hd with hd | rfl
        · exact (not_lt.1 (hI.once d hd)).trans hle
        · exact le_rfl

/-! ## Runs -/

/-- **The cursor of a node goes forwards**, and is the largest that was delivered to it, in exactly the runs
    in which no state is delivered that is older than the one the node has. -/
theorem run_synchronized_iff {now : ι → ℕ} (h : Run Steps (World.new now) tr w) (i : ι) :
    ((∀ before p after, tr = before ++ p :: after → Synchronized i before p.1) ∧ Synchronized i tr w) ↔
      ∀ p ∈ tr, Fresh i p.1 p.2 := by
  rw [Run.throughout_iff_keeping (C := fun _ p => Fresh i p.1 p.2) (J := fun _ w => Known w)
    (known_new now) (fun _ _ _ _ _ hs hw _ => hw.step hs.1) ⟨by simp, rfl, by simp [acknowledged]⟩
    (fun _ _ _ _ _ hs hw hI => hI.step_iff hw hs) h, Run.forall_cut_iff]

/-- The leader processes two events; the standby receives the first twice, and then the second. -/
def replicaScript : List (Action Bool) :=
  [.update false 1 "a" 1 5, .apply true 0 6, .apply true 0 7, .update false 2 "b" 1 8, .apply true 1 9]

theorem run_synchronized_replicaScript :
    ∃ w, replicaScript.foldlM exec (World.new fun _ => 0) = some w ∧
      Synchronized true (Run.traceOf exec (World.new fun _ => 0) replicaScript) w ∧
        w.state true = ⟨1, 2, "b", 8, 1⟩ := by
  refine ⟨_, rfl, ?_, rfl⟩
  have hrun : Run Steps (World.new fun _ => 0) (Run.traceOf exec (World.new fun _ => 0) replicaScript) _ :=
    (Run.of_foldlM (f := exec) (l := replicaScript) rfl).restrict (by decide)
  exact ((run_synchronized_iff hrun true).2 (by decide)).2

/-- The second state arrives before the first. -/
def reorderScript : List (Action Bool) :=
  [.update false 1 "a" 1 5, .update false 2 "b" 1 8, .apply true 1 9, .apply true 0 10]

/-- The standby is back at the first event, and would process the second again. -/
theorem cursor_backwards :
    ∃ w tr, Run Steps (World.new fun _ => 0) tr w ∧
      (∃ p ∈ tr, (w.state true).cursor < (p.1.state true).cursor) ∧
        (w.state true).cursor = toLex (1, 1) ∧ largest true tr = toLex (1, 2) ∧
          ∃ c ∈ acknowledged true tr, (w.state true).Resumes c := by
  refine ⟨_, Run.traceOf exec (World.new fun _ => 0) reorderScript,
    (Run.of_foldlM (f := exec) (l := reorderScript) rfl).restrict (by decide), ?_, rfl, by decide, ?_⟩
  · refine ⟨_, List.mem_of_getElem? (i := 3) rfl, ?_⟩
    decide
  · exact ⟨toLex (1, 2), by decide, by unfold RelayerState.Resumes; decide⟩

end StateSynchronizer
