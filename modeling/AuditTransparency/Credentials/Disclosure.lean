/-
  VerifiableCredentialManager — what is disclosed of the attributes.

  `applySelectiveDisclosure` adds the attributes that are asked for to an empty object, one after
  the other.  What it makes has no other attributes (`mem_of_mem_disclose`), and it is the whole
  object again exactly when all are asked for in their order (`disclose_eq_iff`).
-/
import AuditTransparency.Credentials.Manager
import Mathlib.Data.List.Induction
import Mathlib.Data.List.Nodup
import Mathlib.Data.List.Sort

namespace VerifiableCredentialManager.Attributes

open Json

variable {o : Attributes} {fields : List Text} {p q : Text × Value} {name : Text} {v : Value}

/-! ## Names -/

theorem arrayIndex_inj {a b : Text} {n : ℕ} (ha : arrayIndex a = some n)
    (hb : arrayIndex b = some n) : a = b := by
  have hname : ∀ {a}, arrayIndex a = some n → numeral n = a := by
    intro a ha
    unfold arrayIndex at ha
    split_ifs at ha with hc
    rw [← Option.some.inj ha]
    exact hc.1
  rw [← hname ha, hname hb]

/-- The names of an object are different. -/
theorem eq_of_mem (hp : p ∈ o.entries) (hq : q ∈ o.entries) (hname : p.1 = q.1) : p = q := by
  have hnodup : (o.entries.map Prod.fst).Nodup := List.pairwise_map.2 (o.ordered.imp fun h => h.1)
  exact List.inj_on_of_nodup_map hnodup hp hq hname

theorem nodup_entries (o : Attributes) : o.entries.Nodup := o.ordered.imp fun h he => h.1
    (congrArg Prod.fst he)

theorem get_eq_some : o.get name = some v ↔ (name, v) ∈ o.entries := by
  rw [get, Option.map_eq_some_iff]
  constructor
  · rintro ⟨p, hp, rfl⟩
    have hname : p.1 = name := by simpa using List.find?_some hp
    exact hname ▸ List.mem_of_find?_eq_some hp
  · intro hmem
    rcases hfind : o.entries.find? fun p => p.1 == name with _ | p
    · exact absurd (List.find?_eq_none.1 hfind _ hmem) (by simp)
    · have hname : p.1 = name := by simpa using List.find?_some hfind
      exact ⟨p, hfind, congrArg Prod.snd (eq_of_mem (List.mem_of_find?_eq_some hfind) hmem hname)⟩

/-! ## Setting a property -/

theorem mem_insertEntry_self (p : Text × Value) (l : List (Text × Value)) : p ∈ insertEntry p l := by
  induction l with
  | nil => exact List.mem_singleton_self p
  | cons q l ih =>
    rw [insertEntry]
    split_ifs
    · exact List.mem_cons_self
    · exact List.mem_cons_self
    · exact List.mem_cons_of_mem _ ih

theorem mem_insertEntry_of_mem {l : List (Text × Value)} (hq : q ∈ l) (hne : q.1 ≠ p.1) :
    q ∈ insertEntry p l := by
  induction l with
  | nil => cases hq
  | cons r l ih =>
    rw [insertEntry]
    split_ifs with heq
    · rcases List.mem_cons.1 hq with rfl | hq
      · exact absurd heq hne
      · exact List.mem_cons_of_mem _ hq
    · exact List.mem_cons_of_mem _ hq
    · rcases List.mem_cons.1 hq with rfl | hq
      · exact List.mem_cons_self
      · exact List.mem_cons_of_mem _ (ih hq)

/-- Setting a property to the value that it has. -/
theorem insertEntry_of_mem {l : List (Text × Value)}
    (hl : l.Pairwise fun p q => p.1 ≠ q.1 ∧ comesBefore q.1 p.1 = false) (hp : p ∈ l) :
      insertEntry p l = l := by
  induction l with
  | nil => cases hp
  | cons q l ih =>
    obtain ⟨hq, hl⟩ := List.pairwise_cons.1 hl
    rw [insertEntry]
    rcases List.mem_cons.1 hp with rfl | hp
    · rw [if_pos rfl]
    · rw [if_neg (hq p hp).1, if_neg (by simp [(hq p hp).2]), ih hl hp]

/-! ## The order of what is disclosed -/

/-- Where two names are put by the loop over the fields. -/
def Before (fields : List Text) (a b : Text) : Prop :=
  comesBefore a b = true ∨ arrayIndex a = none ∧ arrayIndex b = none ∧ fields.idxOf a < fields.idxOf b

theorem Before.asymm {a b : Text} (h : Before fields a b) : ¬Before fields b a := by
  unfold Before comesBefore at *
  cases ha : arrayIndex a <;> cases hb : arrayIndex b <;> simp_all
  all_goals omega

theorem Before.of_comesBefore {a b c : Text} (hab : comesBefore a b = true) (hbc : Before fields b c) :
    Before fields a c := by
  unfold Before comesBefore at *
  cases ha : arrayIndex a <;> cases hb : arrayIndex b <;> cases hc : arrayIndex c <;> simp_all
  omega

/-- Names of which neither comes before the other. -/
theorem before_of_not {a b : Text} (hne : a ≠ b) (hba : comesBefore b a = false)
    (hidx : arrayIndex a = none → arrayIndex b = none → fields.idxOf a < fields.idxOf b) :
      Before fields a b := by
  cases ha : arrayIndex a with
  | none =>
    cases hb : arrayIndex b with
    | none => exact Or.inr ⟨ha, hb, hidx ha hb⟩
    | some m => simp [comesBefore, ha, hb] at hba
  | some n =>
    cases hb : arrayIndex b with
    | none => exact Or.inl (by simp [comesBefore, ha, hb])
    | some m =>
      have hnm : n ≠ m := by
        rintro rfl
        exact hne (arrayIndex_inj ha hb)
      simp only [comesBefore, ha, hb, decide_eq_false_iff_not] at hba
      refine Or.inl ?_
      simp only [comesBefore, ha, hb, decide_eq_true_eq]
      omega

theorem pairwise_before_insertEntry {l : List (Text × Value)}
    (hl : l.Pairwise fun p q => Before fields p.1 q.1)
    (hp : ∀ q ∈ l, q.1 ≠ p.1 ∧ (comesBefore p.1 q.1 = false → Before fields q.1 p.1)) :
    (insertEntry p l).Pairwise fun p q => Before fields p.1 q.1 := by
  induction l with
  | nil => exact List.pairwise_singleton ..
  | cons q l ih =>
    obtain ⟨hq, hl'⟩ := List.pairwise_cons.1 hl
    obtain ⟨hne, hlast⟩ := hp q List.mem_cons_self
    rw [insertEntry, if_neg hne]
    split_ifs with hbefore
    · refine List.pairwise_cons.2 ⟨fun r hr => ?_, hl⟩
      rcases List.mem_cons.1 hr with rfl | hr
      · exact Or.inl hbefore
      · exact Before.of_comesBefore hbefore (hq r hr)
    · refine List.pairwise_cons.2 ⟨fun r hr => ?_, ih hl' fun r hr => hp r (List.mem_cons_of_mem _ hr)⟩
      rcases mem_insertEntry hr with rfl | hr
      · exact hlast (by simpa using hbefore)
      · exact hq r hr

/-! ## The loop -/

theorem disclose_concat (o : Attributes) (l : List Text) (f : Text) :
    o.disclose (l ++ [f]) = match o.get f with
      | some v => (o.disclose l).set f v
      | none => o.disclose l := by
  rw [disclose, List.foldl_append]
  rfl

/-- What the loop has made after the names `l`. -/
structure Disclosed (o : Attributes) (fields l : List Text) : Prop where
  own : ∀ p ∈ (o.disclose l).entries, p ∈ o.entries ∧ p.1 ∈ l ∧ p.1 ≠ "__proto__".toList
  all : ∀ p ∈ o.entries, p.1 ∈ l → p.1 ≠ "__proto__".toList → p ∈ (o.disclose l).entries
  sorted : (o.disclose l).entries.Pairwise fun p q => Before fields p.1 q.1

theorem Disclosed.own_concat {l : List Text} {f : Text} (hl : Disclosed o fields l) :
    ∀ p ∈ (o.disclose l).entries, p ∈ o.entries ∧ p.1 ∈ l ++ [f] ∧ p.1 ≠ "__proto__".toList := by
  intro p hp
  obtain ⟨hown, hmem, hproto⟩ := hl.own p hp
  exact ⟨hown, List.mem_append_left _ hmem, hproto⟩

/-- A name that adds nothing: there is no such property, it is a setter, or it is there already. -/
theorem Disclosed.skip {l : List Text} {f : Text} (hl : Disclosed o fields l)
    (heq : o.disclose (l ++ [f]) = o.disclose l)
    (hf : ∀ v, (f, v) ∈ o.entries → f ≠ "__proto__".toList → (f, v) ∈ (o.disclose l).entries) :
    Disclosed o fields (l ++ [f]) := by
  refine ⟨heq ▸ hl.own_concat, fun p hp hmem hproto => ?_, heq ▸ hl.sorted⟩
  rw [heq]
  rcases List.mem_append.1 hmem with hmem | hmem
  · exact hl.all p hp hmem hproto
  · obtain rfl := List.mem_singleton.1 hmem
    exact hf p.2 hp hproto

/-- A name that adds a property. -/
theorem Disclosed.add {l rest : List Text} {f : Text} {v : Value} (hl : Disclosed o fields l)
    (h : fields = l ++ f :: rest) (hfv : (f, v) ∈ o.entries) (hproto : f ≠ "__proto__".toList) (hmem : f ∉ l)
    (hentries : (o.disclose (l ++ [f])).entries = insertEntry (f, v) (o.disclose l).entries) :
    Disclosed o fields (l ++ [f]) := by
  have hne : ∀ q ∈ (o.disclose l).entries, q.1 ≠ f := by
    rintro q hq rfl
    exact hmem (hl.own q hq).2.1
  refine ⟨fun p hp => ?_, fun p hp hpl hpproto => ?_, ?_⟩
  · rw [hentries] at hp
    rcases mem_insertEntry hp with rfl | hp
    · exact ⟨hfv, List.mem_append_right _ (List.mem_singleton_self f), hproto⟩
    · exact hl.own_concat p hp
  · rw [hentries]
    rcases List.mem_append.1 hpl with hpl | hpl
    · have hp' := hl.all p hp hpl hpproto
      exact mem_insertEntry_of_mem hp' (hne p hp')
    · have hpf : p = (f, v) := eq_of_mem hp hfv (List.mem_singleton.1 hpl)
      rw [hpf]
      exact mem_insertEntry_self _ _
  · rw [hentries]
    refine pairwise_before_insertEntry hl.sorted fun q hq => ⟨hne q hq, fun hbefore => ?_⟩
    refine before_of_not (hne q hq) hbefore fun _ _ => ?_
    have hql : q.1 ∈ l := (hl.own q hq).2.1
    rw [h, List.idxOf_append_of_mem hql, List.idxOf_append_of_notMem hmem]
    have hlt : l.idxOf q.1 < l.length := List.idxOf_lt_length_iff.2 hql
    omega

theorem disclosed (o : Attributes) {l rest : List Text} (h : fields = l ++ rest) : Disclosed o fields l := by
  induction l using List.reverseRecOn generalizing rest with
  | nil =>
    refine ⟨fun p hp => ?_, fun p _ hp => ?_, .nil⟩
    · cases hp
    · cases hp
  | append_singleton l f ih =>
    rw [List.append_assoc, List.singleton_append] at h
    have hl : Disclosed o fields l := ih h
    rcases hget : o.get f with _ | v
    · refine hl.skip (by rw [disclose_concat, hget]) fun v hv => ?_
      rw [get_eq_some.2 hv] at hget
      cases hget
    · have hfv : (f, v) ∈ o.entries := get_eq_some.1 hget
      have heq : o.disclose (l ++ [f]) = (o.disclose l).set f v := by rw [disclose_concat, hget]
      by_cases hproto : f = "__proto__".toList
      · refine hl.skip ?_ fun _ _ hne => absurd hproto hne
        rw [heq, set, if_pos hproto]
      · by_cases hmem : f ∈ l
        · have hthere : (f, v) ∈ (o.disclose l).entries := hl.all _ hfv hmem hproto
          refine hl.skip ?_ fun w hw _ => hl.all _ hw hmem hproto
          rw [heq, set, if_neg hproto]
          simp only [insertEntry_of_mem (o.disclose l).ordered hthere]
        · exact hl.add h hfv hproto hmem (by rw [heq, set, if_neg hproto])

/-- **Nothing else is disclosed.** -/
theorem mem_of_mem_disclose (h : p ∈ (o.disclose fields).entries) : p ∈ o.entries :=
  ((disclosed o (List.append_nil fields).symm).own p h).1

/-! ## Disclosing everything -/

/-- All attributes are asked for, those that are not array indices for the first time in their order. -/
def Covers (fields : List Text) (o : Attributes) : Prop :=
  (∀ p ∈ o.entries, p.1 ∈ fields ∧ p.1 ≠ "__proto__".toList) ∧
    o.entries.Pairwise fun p q =>
      arrayIndex p.1 = none → arrayIndex q.1 = none → fields.idxOf p.1 < fields.idxOf q.1

theorem ext_entries {o o' : Attributes} (h : o.entries = o'.entries) : o = o' := by
  cases o
  cases o'
  cases h
  rfl

/-- **Everything is disclosed** exactly when it is asked for in its order. -/
theorem disclose_eq_iff : o.disclose fields = o ↔ Covers fields o := by
  have h := disclosed o (List.append_nil fields).symm
  constructor
  · intro heq
    obtain ⟨hown, -, hsorted⟩ := h
    rw [heq] at hown hsorted
    refine ⟨fun p hp => (hown p hp).2, hsorted.imp fun {p q} hpq hp hq => ?_⟩
    rcases hpq with hbefore | ⟨-, -, hlt⟩
    · simp [comesBefore, hp] at hbefore
    · exact hlt
  · rintro ⟨hall, horder⟩
    have hsorted : o.entries.Pairwise fun p q => Before fields p.1 q.1 :=
      (o.ordered.and horder).imp fun hpq => before_of_not hpq.1.1 hpq.1.2 hpq.2
    have hperm : (o.disclose fields).entries.Perm o.entries := by
      refine (List.perm_ext_iff_of_nodup (nodup_entries _) (nodup_entries _)).2 fun p => ?_
      exact ⟨fun hp => (h.own p hp).1, fun hp => h.all p hp (hall p hp).1 (hall p hp).2⟩
    refine ext_entries (hperm.eq_of_pairwise (fun p q _ _ hpq hqp => ?_) h.sorted hsorted)
    exact absurd hqp hpq.asymm

end VerifiableCredentialManager.Attributes
