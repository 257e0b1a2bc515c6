/-
  Soroban contracts — runs.

  A run of a transition system is a chain of steps; its trace records the state
  every step was taken from, and the action.  `Run.invariant` is the rule for
  safety properties: what holds at the start and is kept by every step that
  meets the condition `C` holds at the end of every run whose steps all do, and
  in every state on the way (`Run.always`).  Where `C` says exactly which steps
  keep the property, it holds in every state of exactly those runs
  (`Run.always_iff`); `Run.throughout_iff` is the same for properties of the
  state and the trace up to it.
-/
import Mathlib.Algebra.Ring.Nat
import Mathlib.Data.List.Nodup

namespace Soroban

variable {σ α : Type} {step : σ → α → σ → Prop} {s₀ : σ}

/-- `Run step s₀ tr s`: the steps of `tr`, taken one after the other, lead from
    `s₀` to `s`. -/
inductive Run (step : σ → α → σ → Prop) (s₀ : σ) : List (σ × α) → σ → Prop where
  | init : Run step s₀ [] s₀
  | snoc {tr : List (σ × α)} {s s' : σ} {a : α} :
      Run step s₀ tr s → step s a s' → Run step s₀ (tr ++ [(s, a)]) s'

namespace Run
variable {tr : List (σ × α)} {s : σ}

/-- **Invariant rule.** -/
theorem invariant {C : σ → α → Prop} {I : σ → Prop} (hinit : I s₀)
    (hstep : ∀ s a s', C s a → step s a s' → I s → I s') (h : Run step s₀ tr s)
    (hC : ∀ p ∈ tr, C p.1 p.2) : I s := by
  induction h with
  | init => exact hinit
  | @snoc tr s s' a _ hs ih =>
    have hI : I s := ih fun p hp => hC p (List.mem_append_left _ hp)
    exact hstep s a s' (hC (s, a) (by simp)) hs hI

/-- What holds in every state of a run holds at its start. -/
theorem start {I : σ → Prop} (h : Run step s₀ tr s) (hI : (∀ p ∈ tr, I p.1) ∧ I s) : I s₀ := by
  induction h with
  | init => exact hI.2
  | @snoc tr s s' a _ _ ih =>
    exact ih ⟨fun p hp => hI.1 p (List.mem_append_left _ hp), hI.1 (s, a) (by simp)⟩

/-- **A property of exactly the runs whose steps keep it.**  `J` is an invariant of all runs
    and `P` holds of every step; both may be used for one step. -/
theorem always_iff {C P : σ → α → Prop} {I J : σ → Prop} (hJ₀ : J s₀)
    (hJ : ∀ s a s', step s a s' → J s → J s') (hinit : I s₀)
    (hstep : ∀ s a s', P s a → step s a s' → J s → I s → (I s' ↔ C s a)) (h : Run step s₀ tr s)
    (hP : ∀ p ∈ tr, P p.1 p.2) : ((∀ p ∈ tr, I p.1) ∧ I s) ↔ ∀ p ∈ tr, C p.1 p.2 := by
  induction h with
  | init => simp [hinit]
  | @snoc tr s s' a hr hs ih =>
    have hJs : J s := hr.invariant (C := fun _ _ => True) hJ₀ (fun s a s' _ => hJ s a s')
      fun _ _ => trivial
    simp only [List.forall_mem_append, List.forall_mem_singleton] at hP ⊢
    rw [← ih hP.1]
    constructor
    · rintro ⟨⟨htr, hI⟩, hI'⟩
      exact ⟨⟨htr, hI⟩, (hstep s a s' hP.2 hs hJs hI).1 hI'⟩
    · rintro ⟨⟨htr, hI⟩, hC⟩
      exact ⟨⟨htr, hI⟩, (hstep s a s' hP.2 hs hJs hI).2 hC⟩

/-- The invariant rule, for every state of the run. -/
theorem always {C : σ → α → Prop} {I : σ → Prop} (hinit : I s₀)
    (hstep : ∀ s a s', C s a → step s a s' → I s → I s') (h : Run step s₀ tr s)
    (hC : ∀ p ∈ tr, C p.1 p.2) : (∀ p ∈ tr, I p.1) ∧ I s := by
  induction h with
  | init => exact ⟨by simp, hinit⟩
  | @snoc tr s s' a _ hs ih =>
    obtain ⟨htr, hI⟩ := ih fun p hp => hC p (List.mem_append_left _ hp)
    refine ⟨?_, hstep s a s' (hC (s, a) (by simp)) hs hI⟩
    simp only [List.forall_mem_append, List.forall_mem_singleton]
    exact ⟨htr, hI⟩

theorem append {s₁ : σ} {tr₂ : List (σ × α)} (h : Run step s₀ tr s) (h' : Run step s tr₂ s₁) :
    Run step s₀ (tr ++ tr₂) s₁ := by
  induction h' with
  | init => simpa using h
  | snoc _ hs ih => rw [← List.append_assoc]; exact .snoc ih hs

/-- A run can be cut at every step of its trace. -/
theorem split {tr₂ : List (σ × α)} {a : α} {s₁ : σ} :
    ∀ {tr₁ : List (σ × α)}, Run step s₀ (tr₁ ++ (s₁, a) :: tr₂) s →
      ∃ s₂, Run step s₀ tr₁ s₁ ∧ step s₁ a s₂ ∧ Run step s₂ tr₂ s := by
  intro tr₁ h
  generalize htr : tr₁ ++ (s₁, a) :: tr₂ = tr at h
  induction h generalizing tr₂ with
  | init => simp at htr
  | @snoc tr' s' s'' a' hr hs ih =>
    rcases List.eq_nil_or_concat tr₂ with rfl | ⟨tr₃, p, rfl⟩
    · obtain ⟨rfl, hp⟩ := List.append_inj' htr rfl
      simp only [List.cons.injEq, Prod.mk.injEq, and_true] at hp
      obtain ⟨rfl, rfl⟩ := hp
      exact ⟨s'', hr, hs, .init⟩
    · have he : (tr₁ ++ (s₁, a) :: tr₃) ++ [p] = tr' ++ [(s', a')] := by simpa using htr
      obtain ⟨rfl, hp⟩ := List.append_inj' he rfl
      simp only [List.cons.injEq, and_true] at hp
      obtain ⟨s₂, h₁, h₂, h₃⟩ := ih rfl
      refine ⟨s₂, h₁, h₂, ?_⟩
      rw [List.concat_eq_append, hp]
      exact .snoc h₃ hs

theorem eq_of_nil (h : Run step s₀ [] s) : s = s₀ := by
  generalize hnil : ([] : List (σ × α)) = before at h
  cases h with
  | init => rfl
  | snoc _ _ => simp at hnil

/-- The first step of a run, and the rest. -/
theorem uncons {s₁ : σ} {a : α} (h : Run step s₀ ((s₁, a) :: tr) s) :
    s₁ = s₀ ∧ ∃ s₂, step s₁ a s₂ ∧ Run step s₂ tr s := by
  have hsplit : Run step s₀ ([] ++ (s₁, a) :: tr) s := h
  obtain ⟨s₂, hstart, hs, hrest⟩ := hsplit.split
  exact ⟨hstart.eq_of_nil, s₂, hs, hrest⟩

/-- A run can be cut anywhere. -/
theorem cut {tr₁ tr₂ : List (σ × α)} (h : Run step s₀ (tr₁ ++ tr₂) s) :
    ∃ s₁, Run step s₀ tr₁ s₁ ∧ Run step s₁ tr₂ s := by
  cases tr₂ with
  | nil => exact ⟨s, by simpa using h, .init⟩
  | cons p tr₂ =>
    obtain ⟨s₂, h₁, hs, h₂⟩ := split h
    exact ⟨p.1, h₁, append (.snoc .init hs) h₂⟩

/-- What holds at every step of a trace with one more. -/
theorem forall_cut_concat {P : List (σ × α) → σ × α → Prop} {q : σ × α} :
    (∀ before p after, tr ++ [q] = before ++ p :: after → P before p) ↔
      (∀ before p after, tr = before ++ p :: after → P before p) ∧ P tr q := by
  constructor
  · intro h
    refine ⟨fun before p after htr => h before p (after ++ [q]) ?_, h tr q [] rfl⟩
    rw [htr, List.append_assoc, List.cons_append]
  · rintro ⟨h, hq⟩ before p after htr
    rcases List.eq_nil_or_concat after with rfl | ⟨after', q', rfl⟩
    · obtain ⟨rfl, hp⟩ := List.append_inj' htr rfl
      obtain rfl : q = p := List.singleton_inj.1 hp
      exact hq
    · have htr' : tr ++ [q] = (before ++ p :: after') ++ [q'] := by simpa using htr
      exact h before p after' (List.append_inj' htr' rfl).1

/-- There are no steps in an empty trace. -/
theorem forall_cut_nil {P : List (σ × α) → σ × α → Prop} :
    ∀ before p after, ([] : List (σ × α)) = before ++ p :: after → P before p := by
  intro before p after h
  simp at h

/-- What holds at every step of an explicit trace. -/
theorem forall_cut_cons {P : List (σ × α) → σ × α → Prop} {q : σ × α} :
    (∀ before p after, q :: tr = before ++ p :: after → P before p) ↔
      P [] q ∧ ∀ before p after, tr = before ++ p :: after → P (q :: before) p := by
  constructor
  · intro h
    refine ⟨h [] q tr rfl, fun before p after htr => h (q :: before) p after ?_⟩
    rw [htr, List.cons_append]
  · rintro ⟨hq, h⟩ before p after htr
    rcases before with _ | ⟨q', before⟩
    · obtain ⟨rfl, -⟩ := List.cons.inj htr
      exact hq
    · obtain ⟨rfl, htr'⟩ := List.cons.inj htr
      exact h before p after htr'

/-- A property of every cut can be checked along the trace. -/
def decidableCuts : (tr : List (σ × α)) → (P : List (σ × α) → σ × α → Prop) →
    (∀ before p, Decidable (P before p)) →
    Decidable (∀ before p after, tr = before ++ p :: after → P before p)
  | [], _, _ => isTrue (by simp)
  | q :: tr, P, dec =>
    have := dec [] q
    have := decidableCuts tr (fun before p => P (q :: before) p) fun before p => dec (q :: before) p
    decidable_of_iff _ forall_cut_cons.symm

/-- What holds at every cut and does not look back holds of every step. -/
theorem forall_cut_iff {C : σ × α → Prop} :
    (∀ before p after, tr = before ++ p :: after → C p) ↔ ∀ p ∈ tr, C p := by
  constructor
  · intro h p hp
    obtain ⟨before, after, htr⟩ := List.append_of_mem hp
    exact h before p after htr
  · rintro h before p after rfl
    exact h p (by simp)

/-- **A property that looks back on the run**, of exactly the runs whose steps keep it.  `J` is kept by
    every step from where the property holds, and may be used for the next one. -/
theorem throughout_iff_keeping {C : List (σ × α) → σ × α → Prop} {I J : List (σ × α) → σ → Prop}
    (hJ₀ : J [] s₀)
    (hJ : ∀ tr s a s', Run step s₀ tr s → step s a s' → J tr s → I tr s → J (tr ++ [(s, a)]) s')
    (hinit : I [] s₀)
    (hstep : ∀ tr s a s', Run step s₀ tr s → step s a s' → J tr s → I tr s →
      (I (tr ++ [(s, a)]) s' ↔ C tr (s, a))) (h : Run step s₀ tr s) :
    ((∀ before p after, tr = before ++ p :: after → I before p.1) ∧ I tr s) ↔
      ∀ before p after, tr = before ++ p :: after → C before p := by
  have hkept : ∀ {tr s}, Run step s₀ tr s →
      (∀ before p after, tr = before ++ p :: after → I before p.1) → J tr s := by
    intro tr s hr
    induction hr with
    | init => exact fun _ => hJ₀
    | @snoc tr s s' a hr hs ih =>
      rw [forall_cut_concat (P := fun before p => I before p.1)]
      rintro ⟨htr, hI⟩
      exact hJ tr s a s' hr hs (ih htr) hI
  induction h with
  | init => simp [hinit]
  | @snoc tr s s' a hr hs ih =>
    rw [forall_cut_concat (P := fun before p => I before p.1), forall_cut_concat (P := C)]
    refine Iff.trans ?_ (and_congr_left' ih)
    constructor
    · rintro ⟨⟨htr, hI⟩, hI'⟩
      exact ⟨⟨htr, hI⟩, (hstep tr s a s' hr hs (hkept hr htr) hI).1 hI'⟩
    · rintro ⟨⟨htr, hI⟩, hC⟩
      exact ⟨⟨htr, hI⟩, (hstep tr s a s' hr hs (hkept hr htr) hI).2 hC⟩

/-- The same without what is kept. -/
theorem throughout_iff {C : List (σ × α) → σ × α → Prop} {I : List (σ × α) → σ → Prop} (hinit : I [] s₀)
    (hstep : ∀ tr s a s', Run step s₀ tr s → step s a s' → I tr s →
      (I (tr ++ [(s, a)]) s' ↔ C tr (s, a))) (h : Run step s₀ tr s) :
    ((∀ before p after, tr = before ++ p :: after → I before p.1) ∧ I tr s) ↔
      ∀ before p after, tr = before ++ p :: after → C before p :=
  throughout_iff_keeping (J := fun _ _ => True) trivial (fun _ _ _ _ _ _ _ _ => trivial) hinit
    (fun tr s a s' hr hs _ hI => hstep tr s a s' hr hs hI) h

/-- The invariant rule for a property that looks back on the run, where the condition does. -/
theorem throughout {C : List (σ × α) → σ × α → Prop} {I : List (σ × α) → σ → Prop} (hinit : I [] s₀)
    (hstep : ∀ tr s a s', C tr (s, a) → step s a s' → I tr s → I (tr ++ [(s, a)]) s') (h : Run step s₀ tr s)
    (hC : ∀ before p after, tr = before ++ p :: after → C before p) :
    (∀ before p after, tr = before ++ p :: after → I before p.1) ∧ I tr s := by
  induction h with
  | init => simp [hinit]
  | @snoc tr s s' a _ hs ih =>
    rw [forall_cut_concat] at hC
    obtain ⟨htr, hI⟩ := ih hC.1
    rw [forall_cut_concat (P := fun before p => I before p.1)]
    exact ⟨⟨htr, hI⟩, hstep tr s a s' hC.2 hs hI⟩

/-- A run whose steps all meet a condition is one of the steps that meet it. -/
theorem restrict {C : σ → α → Prop} (h : Run step s₀ tr s) (hC : ∀ p ∈ tr, C p.1 p.2) :
    Run (fun s a s' => step s a s' ∧ C s a) s₀ tr s := by
  induction h with
  | init => exact .init
  | @snoc tr s s' a _ hs ih =>
    rw [List.forall_mem_append, List.forall_mem_singleton] at hC
    exact .snoc (ih hC.1) ⟨hs, hC.2⟩

/-- A run of steps that another system takes too. -/
theorem mono {step' : σ → α → σ → Prop} (h : Run step s₀ tr s) (hs : ∀ s a s', step s a s' → step' s a s') :
    Run step' s₀ tr s := by
  induction h with
  | init => exact .init
  | snoc _ h ih => exact .snoc ih (hs _ _ _ h)

/-- A run under other names for its actions. -/
theorem map {β : Type} {step' : σ → β → σ → Prop} {f : β → α} {tr : List (σ × β)} (h : Run step' s₀ tr s)
    (hf : ∀ s b s', step' s b s' → step s (f b) s') : Run step s₀ (tr.map fun p => (p.1, f p.2)) s := by
  induction h with
  | init => exact .init
  | snoc _ hs ih =>
    rw [List.map_append]
    exact .snoc ih (hf _ _ _ hs)

/-- Every step of the trace was taken. -/
theorem step_of_mem (h : Run step s₀ tr s) {s₁ : σ} {a : α} (hp : (s₁, a) ∈ tr) :
    ∃ s₂, step s₁ a s₂ := by
  obtain ⟨tr₁, tr₂, rfl⟩ := List.append_of_mem hp
  obtain ⟨s₂, -, hs, -⟩ := h.split
  exact ⟨s₂, hs⟩

end Run

/-! ## Runs of a function -/

section
variable {f : σ → α → Option σ} {s s' : σ} {l : List α}

/-- The trace of the actions taken one after the other, up to one that is not possible. -/
def Run.traceOf (f : σ → α → Option σ) (s : σ) : List α → List (σ × α)
  | [] => []
  | a :: l => (s, a) :: match f s a with
    | some s' => Run.traceOf f s' l
    | none => []

/-- Actions that are possible one after the other are a run. -/
theorem Run.of_foldlM (h : l.foldlM f s = some s') : Run (fun s a s' => f s a = some s') s
    (Run.traceOf f s l) s' := by
  induction l generalizing s with
  | nil =>
    obtain rfl := Option.some.inj h
    exact .init
  | cons a l ih =>
    rw [List.foldlM_cons] at h
    obtain ⟨s₁, hs, hl⟩ := Option.bind_eq_some_iff.1 h
    rw [Run.traceOf, hs]
    exact append (.snoc .init hs) (ih hl)

end

/-! ## What a trace collects -/

section
variable {β : Type} {l : List α} {a : α}

/-- One more step adds what it contributes. -/
theorem filterMap_concat {f : α → Option β} : (l ++ [a]).filterMap f = l.filterMap f ++ (f a).toList := by
  rw [List.filterMap_append, List.filterMap_cons]
  cases f a <;> rfl

theorem sum_map_concat {f : α → ℕ} : ((l ++ [a]).map f).sum = (l.map f).sum + f a := by
  rw [List.map_append, List.sum_append, List.map_singleton, List.sum_singleton]

/-- What a fold finds: something that one of the steps brings in. -/
theorem isSome_foldl {f : Option β → α → Option β} {P : α → Prop}
    (hf : ∀ o a, (f o a).isSome ↔ o.isSome ∨ P a) (o : Option β) :
    (l.foldl f o).isSome ↔ o.isSome ∨ ∃ a ∈ l, P a := by
  induction l generalizing o with
  | nil => simp
  | cons a l ih => rw [List.foldl_cons, ih, hf, List.exists_mem_cons_iff, or_assoc]

/-- What every step keeps holds of what a fold finds. -/
theorem of_mem_foldl {f : Option β → α → Option β} {Q : β → Prop}
    (hf : ∀ o a, (∀ b ∈ o, Q b) → ∀ b ∈ f o a, Q b) {o : Option β} (ho : ∀ b ∈ o, Q b) :
    ∀ b ∈ l.foldl f o, Q b := by
  induction l generalizing o with
  | nil => exact ho
  | cons a l ih => exact ih (hf o a ho)

/-- What is contributed is not there yet. -/
theorem nodup_append_toList {o : Option α} : (l ++ o.toList).Nodup ↔ l.Nodup ∧ ∀ b ∈ o, b ∉ l := by
  cases o with
  | none => simp
  | some b =>
    rw [Option.toList_some, ← List.concat_eq_append, List.nodup_concat, and_comm]
    simp

end

end Soroban
