/-
  MultiRegion — failovers that do not split the cluster.

  Which region is primary is stored with every region and in the configuration, and a failover
  changes both; the fencing token of a failover is stored, but not compared with anything.

  `history_unsplit`: exactly when the tokens rise, the records are kept, and the primary region is
  one and the one of the configuration, throughout a run (`Unsplit`, `Fenced`).
-/
import AuditTransparency.MultiRegion.Contract
import AuditTransparency.Soroban.Lookup

namespace MultiRegion

open Soroban
open Soroban.Call

variable {D : Type}

/-! ## Clusters that are not split -/

/-- The region is stored as primary. -/
def PrimaryIn (regions : Symbol → Option (RegionNode D)) (r : Symbol) : Prop :=
  ∃ node, regions r = some node ∧ node.isPrimary = true

/-- After the failovers `events`. -/
structure Unsplit (events : List (FailoverEvent D)) (v : View D) : Prop where
  increasing : (events.map FailoverEvent.fencingToken).Pairwise (· < ·)
  current : v.config.map MultiRegionTopologyConfig.currentFencingToken =
    (events.map FailoverEvent.fencingToken).getLast?
  kept : ∀ event ∈ events, v.failovers event.failoverId = some event
  sole : ∀ r r', PrimaryIn v.regions r → PrimaryIn v.regions r' → r = r'
  topology : ∀ cfg, v.config = some cfg → ∀ r, PrimaryIn v.regions r ↔ r = cfg.primaryRegion

/-- The records are of failovers that took place. -/
def Known (events : List (FailoverEvent D)) (v : View D) : Prop :=
  ∀ i event, v.failovers i = some event → event ∈ events ∧ event.failoverId = i

/-- A region is registered as primary when there is none; a failover has a new id and a token that is higher than
    the last one, and every primary region takes part in it. -/
def Fenced (v : View D) : Op D → Prop
  | .registerRegion _ _ _ isPrimary _ => isPrimary = true → ∀ r, ¬PrimaryIn v.regions r
  | .initiateFailover _ i old new _ token =>
    (∀ cfg, v.config = some cfg → cfg.currentFencingToken < token) ∧ v.failovers i = none ∧
      ∀ r, PrimaryIn v.regions r → r = old ∨ r = new
  | _ => True

theorem primaryIn_update {regions : Symbol → Option (RegionNode D)} {r r' : Symbol} {node : RegionNode D} :
    PrimaryIn (Function.update regions r (some node)) r' ↔
      r' = r ∧ node.isPrimary = true ∨ r' ≠ r ∧ PrimaryIn regions r' := by
  rcases eq_or_ne r' r with rfl | hne
  · simp [PrimaryIn]
  · simp [PrimaryIn, hne]

theorem primaryIn_demote {regions : Symbol → Option (RegionNode D)} {old r : Symbol} :
    PrimaryIn (demote regions old) r ↔ PrimaryIn regions r ∧ r ≠ old := by
  rw [demote]
  split
  · rw [primaryIn_update]
    simp [and_comm]
  · next hold =>
    refine (and_iff_left_of_imp ?_).symm
    rintro ⟨node, hnode, -⟩ rfl
    rw [hold] at hnode
    cases hnode

/-- A later token is higher than all before. -/
theorem pairwise_lt_concat {l : List ℕ} {n : ℕ} (h : l.Pairwise (· < ·)) :
    (l ++ [n]).Pairwise (· < ·) ↔ ∀ m, l.getLast? = some m → m < n := by
  rw [List.pairwise_append]
  constructor
  · rintro ⟨-, -, hlt⟩ m hm
    exact hlt m (List.mem_of_getLast? hm) n (List.mem_singleton_self n)
  · intro hlast
    refine ⟨h, List.pairwise_singleton .., fun m hm k hk => ?_⟩
    obtain rfl := List.mem_singleton.1 hk
    rcases List.eq_nil_or_concat l with rfl | ⟨l, b, rfl⟩
    · cases hm
    · have hb : b < k := hlast b (by simp)
      rw [List.concat_eq_append] at h hm
      rcases List.mem_append.1 hm with hm | hm
      · exact lt_trans ((List.pairwise_append.1 h).2.2 m hm b (List.mem_singleton_self b)) hb
      · rw [List.mem_singleton.1 hm]
        exact hb

variable [DecidableEq D] {v v' : View D} {events : List (FailoverEvent D)} {op : Op D}
  {event : Option (FailoverEvent D)} {now : ℕ}

omit [DecidableEq D] in
/-- A step that leaves the primaries, the records and the configuration as they are. -/
theorem Unsplit.congr (h : Unsplit events v) (hprimary : ∀ r, PrimaryIn v'.regions r ↔ PrimaryIn v.regions r)
    (hfailovers : v'.failovers = v.failovers) (hconfig : v'.config = v.config) : Unsplit events v' := by
  refine ⟨h.increasing, hconfig ▸ h.current, hfailovers ▸ h.kept, fun r r' hr hr' => ?_, fun cfg hcfg r => ?_⟩
  · exact h.sole r r' ((hprimary r).1 hr) ((hprimary r').1 hr')
  · rw [hprimary]
    exact h.topology cfg (hconfig ▸ hcfg) r

omit [DecidableEq D] in
/-- **A region is registered.** -/
theorem Unsplit.register (h : Unsplit events v) {r : Symbol} {node : RegionNode D}
    (hnew : v.regions r = none) :
    Unsplit events { v with regions := Function.update v.regions r (some node) } ↔
      (node.isPrimary = true → ∀ r', ¬PrimaryIn v.regions r') := by
  have hr : ¬PrimaryIn v.regions r := by
    rintro ⟨n, hn, -⟩
    rw [hnew] at hn
    cases hn
  have hprimary : ∀ r', PrimaryIn (Function.update v.regions r (some node)) r' ↔
      r' = r ∧ node.isPrimary = true ∨ PrimaryIn v.regions r' := by
    intro r'
    rw [primaryIn_update, and_iff_right_of_imp (a := r' ≠ r) (b := PrimaryIn v.regions r')]
    rintro hr' rfl
    exact hr hr'
  constructor
  · intro h' hnode r' hr'
    have heq := h'.sole r r' ((hprimary r).2 (Or.inl ⟨rfl, hnode⟩)) ((hprimary r').2 (Or.inr hr'))
    exact hr (heq ▸ hr')
  · intro hnone
    cases hnode : node.isPrimary with
    | false =>
      refine h.congr (fun r' => ?_) rfl rfl
      rw [hprimary, hnode]
      simp
    | true =>
      have hno := hnone hnode
      refine ⟨h.increasing, h.current, h.kept, fun r₁ r₂ h₁ h₂ => ?_, fun cfg hcfg => ?_⟩
      · rcases (hprimary r₁).1 h₁ with ⟨rfl, -⟩ | h₁
        · rcases (hprimary r₂).1 h₂ with ⟨rfl, -⟩ | h₂
          · rfl
          · exact absurd h₂ (hno r₂)
        · exact absurd h₁ (hno r₁)
      · exact absurd ((h.topology cfg hcfg cfg.primaryRegion).2 rfl) (hno _)

omit [DecidableEq D] in
/-- The primary regions after a failover. -/
theorem primaryIn_failover {e : FailoverEvent D} {node : RegionNode D} (hnode : node.isPrimary = true)
    (r : Symbol) :
    PrimaryIn (Function.update (demote v.regions e.oldPrimary) e.newPrimary (some node)) r ↔
      r = e.newPrimary ∨ PrimaryIn v.regions r ∧ r ≠ e.oldPrimary := by
  rw [primaryIn_update, primaryIn_demote, hnode]
  tauto

omit [DecidableEq D] in
theorem Unsplit.increasing_concat (h : Unsplit events v) {e : FailoverEvent D} :
    ((events ++ [e]).map FailoverEvent.fencingToken).Pairwise (· < ·) ↔
      ∀ cfg, v.config = some cfg → cfg.currentFencingToken < e.fencingToken := by
  rw [List.map_append, List.map_singleton, pairwise_lt_concat h.increasing, ← h.current]
  simp

/-- A record under the id of a failover would be replaced by one with another token. -/
theorem failovers_new {e : FailoverEvent D} (hknown : Known events v)
    (hincreasing : ((events ++ [e]).map FailoverEvent.fencingToken).Pairwise (· < ·))
    (hkept : ∀ x ∈ events, Function.update v.failovers e.failoverId (some e) x.failoverId = some x) :
    v.failovers e.failoverId = none := by
  rcases hrecord : v.failovers e.failoverId with _ | x
  · rfl
  · obtain ⟨hx, hid⟩ := hknown _ x hrecord
    have hx' := hkept x hx
    rw [hid, Function.update_self] at hx'
    obtain rfl := Option.some.inj hx'
    rw [List.map_append, List.pairwise_append] at hincreasing
    exact absurd (hincreasing.2.2 _ (List.mem_map_of_mem hx) _ (List.mem_singleton_self _)) (lt_irrefl _)

/-- **A failover.** -/
theorem Unsplit.failover (h : Unsplit events v) (hknown : Known events v) {e : FailoverEvent D}
    {node : RegionNode D}
    {cfg : MultiRegionTopologyConfig} (hnode : node.isPrimary = true)
    (hprimary : cfg.primaryRegion = e.newPrimary)
    (htoken : cfg.currentFencingToken = e.fencingToken) :
    Unsplit (events ++ [e])
        { regions := Function.update (demote v.regions e.oldPrimary) e.newPrimary (some node)
          failovers := Function.update v.failovers e.failoverId (some e)
          config := some cfg } ↔
      (∀ cfg, v.config = some cfg → cfg.currentFencingToken < e.fencingToken) ∧
        v.failovers e.failoverId = none ∧
        ∀ r, PrimaryIn v.regions r → r = e.oldPrimary ∨ r = e.newPrimary := by
  constructor
  · intro h'
    refine ⟨h.increasing_concat.1 h'.increasing, ?_, fun r hr => ?_⟩
    · exact failovers_new hknown h'.increasing fun x hx => h'.kept x (List.mem_append_left _ hx)
    · by_contra hother
      rw [not_or] at hother
      exact hother.2 (h'.sole r e.newPrimary ((primaryIn_failover hnode r).2 (Or.inr ⟨hr, hother.1⟩))
        ((primaryIn_failover hnode _).2 (Or.inl rfl)))
  · rintro ⟨hlt, hnew, hall⟩
    have hsole : ∀ r, PrimaryIn (Function.update (demote v.regions e.oldPrimary) e.newPrimary (some node)) r ↔
        r = e.newPrimary := by
      intro r
      rw [primaryIn_failover hnode, or_iff_left_of_imp]
      rintro ⟨hr, hne⟩
      exact (hall r hr).resolve_left hne
    refine ⟨h.increasing_concat.2 hlt, ?_, fun event hevent => ?_, fun r r' hr hr' => ?_,
      fun cfg' hcfg r => ?_⟩
    · rw [List.map_append, List.map_singleton, List.getLast?_concat, Option.map_some, htoken]
    · rcases List.mem_append.1 hevent with hevent | hevent
      · have hkept := h.kept event hevent
        have hne : event.failoverId ≠ e.failoverId := by
          intro he
          rw [he, hnew] at hkept
          cases hkept
        exact (Function.update_of_ne hne _ _).trans hkept
      · rw [List.mem_singleton.1 hevent]
        exact Function.update_self ..
    · exact ((hsole r).1 hr).trans ((hsole r').1 hr').symm
    · obtain rfl := Option.some.inj hcfg
      rw [hsole, hprimary]

/-- **The step lemma.** -/
theorem Unsplit.step (h : Unsplit events v) (hknown : Known events v) (heffect : Effect v now op event v') :
    Unsplit (events ++ event.toList) v' ↔ Fenced v op := by
  cases heffect with
  | registerRegion hnew hnode =>
    rw [Option.toList_none, List.append_nil, h.register hnew, hnode]
    exact Iff.rfl
  | @heartbeatRegion _ r _ _ _ node node' hnode hsame =>
    rw [Option.toList_none, List.append_nil]
    refine iff_of_true (h.congr (fun r' => ?_) rfl rfl) trivial
    rw [primaryIn_update, hsame]
    constructor
    · rintro (⟨rfl, hp⟩ | ⟨-, hp⟩)
      · exact ⟨node, hnode, hp⟩
      · exact hp
    · intro hp
      rcases eq_or_ne r' r with rfl | hne
      · obtain ⟨n, hn, hp⟩ := hp
        rw [hnode] at hn
        exact Or.inl ⟨rfl, Option.some.inj hn ▸ hp⟩
      · exact Or.inr ⟨hne, hp⟩
  | recordCrossRegionSync =>
    rw [Option.toList_none, List.append_nil]
    exact iff_of_true h trivial
  | initiateFailover hnode hprimary htoken => exact h.failover hknown hnode hprimary htoken

theorem Known.step (h : Known events v) (heffect : Effect v now op event v') :
    Known (events ++ event.toList) v' := by
  cases heffect with
  | registerRegion | heartbeatRegion | recordCrossRegionSync =>
    rw [Option.toList_none, List.append_nil]
    exact h
  | initiateFailover =>
    intro i x hx
    rcases update_cases hx with ⟨rfl, rfl⟩ | ⟨-, hx⟩
    · exact ⟨by simp, rfl⟩
    · exact ⟨List.mem_append_left _ (h i x hx).1, (h i x hx).2⟩

/-! ## Runs -/

/-- The failover that a call carries out. -/
def failoverBy (zeros : D) (c : State D × (Env × Op D)) : Option (FailoverEvent D) :=
  match (exec zeros c.2.2).run c.2.1 c.1 with
  | .ok (event, _) => event
  | .error _ => none

/-- The failovers that took place. -/
def failoversOf (zeros : D) (tr : List (State D × (Env × Op D))) : List (FailoverEvent D) :=
  tr.filterMap (failoverBy zeros)

variable {zeros : D} {s s' : State D} {c : Env × Op D} {tr : List (State D × (Env × Op D))}

theorem effect_of_step (hs : Steps (exec zeros) s c s') :
    Effect (view s) c.1.timestamp c.2 (failoverBy zeros (s, c)) (view s') := by
  obtain ⟨event, hr⟩ := hs
  have heffect := effect_of_exec.of_run hr
  have hby : failoverBy zeros (s, c) = event := by rw [failoverBy, hr]
  rw [hby]
  exact heffect

/-- **The cluster is not split** in any state of exactly the runs of fenced calls. -/
theorem history_unsplit (h : Run (Steps (exec zeros)) Ledger.empty tr s) :
    ((∀ before p after, tr = before ++ p :: after → Unsplit (failoversOf zeros before) (view p.1)) ∧
        Unsplit (failoversOf zeros tr) (view s)) ↔
      ∀ p ∈ tr, Fenced (view p.1) p.2.2 := by
  refine Iff.trans (Run.throughout_iff_keeping (J := fun tr s => Known (failoversOf zeros tr) (view s))
    (I := fun tr s => Unsplit (failoversOf zeros tr) (view s)) (C := fun _ p => Fenced (view p.1) p.2.2)
    (fun i event he => by cases he) (fun tr s c s' _ hs hknown _ => ?_) ?_
    (fun tr s c s' _ hs hknown h => ?_) h)
    Run.forall_cut_iff
  · rw [failoversOf, filterMap_concat]
    exact hknown.step (effect_of_step hs)
  · refine ⟨List.Pairwise.nil, rfl, fun event he => (by cases he), fun r r' hr => ?_,
      fun cfg hcfg => by cases hcfg⟩
    obtain ⟨node, hnode, -⟩ := hr
    cases hnode
  · rw [failoversOf, filterMap_concat]
    exact h.step hknown (effect_of_step hs)

/-! ## Scripts -/

def anyEnv (t : ℕ) : Env := ⟨t, 0, fun _ => true, fun _ => 0⟩

def operator : Address := ⟨List.replicate 56 71, rfl⟩

/-- A primary region and another. -/
def setupScript : List (Env × Op ℕ) :=
  [(anyEnv 1, .registerRegion operator "us_east" 0 true 100),
    (anyEnv 2, .registerRegion operator "eu_west" 0 false 0)]

/-- A failover from one to the other. -/
def failoverScript : List (Env × Op ℕ) :=
  setupScript ++ [(anyEnv 3, .initiateFailover operator 7 "us_east" "eu_west" "drill" 1)]

theorem history_unsplit_failoverScript :
    ∃ tr s, Run (Steps (exec 0)) Ledger.empty tr s ∧ tr.map Prod.snd = failoverScript ∧
      Unsplit (failoversOf 0 tr) (view s) := by
  obtain ⟨s, hs⟩ : ∃ s, play (exec 0) Ledger.empty failoverScript = some s := ⟨_, rfl⟩
  refine ⟨_, s, run_of_play hs, map_snd_traceOf hs, ((history_unsplit (run_of_play hs)).2 ?_).2⟩
  refine List.forall_mem_cons.2 ⟨?_, List.forall_mem_cons.2 ⟨?_,
    List.forall_mem_cons.2 ⟨?_, List.forall_mem_nil _⟩⟩⟩
  · rintro - r ⟨node, hnode, -⟩
    cases hnode
  · intro h
    cases h
  · refine ⟨fun cfg hcfg => (by cases hcfg), rfl, fun r hr => ?_⟩
    rcases primaryIn_update.1 hr with ⟨rfl, hp⟩ | ⟨-, hr⟩
    · cases hp
    · rcases primaryIn_update.1 hr with ⟨rfl, -⟩ | ⟨-, node, hnode, -⟩
      · exact Or.inl rfl
      · cases hnode

/-- A second failover arrives late: its token is that of the first, and so is its old primary. -/
def lateScript : List (Env × Op ℕ) :=
  failoverScript ++ [(anyEnv 4, .registerRegion operator "us_west" 0 false 0),
    (anyEnv 5, .initiateFailover operator 8 "us_east" "us_west" "drill" 1)]

/-- **A stale failover is carried out**, and there are two primary regions. -/
theorem not_unsplit :
    ∃ tr s, Run (Steps (exec 0)) Ledger.empty tr s ∧ tr.map Prod.snd = lateScript ∧
      (failoversOf 0 tr).map FailoverEvent.fencingToken = [1, 1] ∧
      PrimaryIn (view s).regions "eu_west" ∧ PrimaryIn (view s).regions "us_west" ∧
      ¬Unsplit (failoversOf 0 tr) (view s) := by
  obtain ⟨s, hs⟩ : ∃ s, play (exec 0) Ledger.empty lateScript = some s := ⟨_, rfl⟩
  have hfirst : PrimaryIn (view s).regions "eu_west" := by
    cases hs
    exact ⟨_, rfl, rfl⟩
  have hsecond : PrimaryIn (view s).regions "us_west" := by
    cases hs
    exact ⟨_, rfl, rfl⟩
  refine ⟨_, s, run_of_play hs, map_snd_traceOf hs, by decide, hfirst, hsecond, fun h => ?_⟩
  exact absurd (h.sole _ _ hfirst hsecond) (by decide)

end MultiRegion
