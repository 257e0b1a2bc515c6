/-
  VerificationStore — proofs that are submitted, verified in time and looked up
  (`bridge/relayer/verification.ts`).

  A submission puts its proof into the record of its event and then waits for the verifier.  Others may be
  made and decided meanwhile, and the store may be cleared, which leaves the records of those that wait to
  them alone.

  * `run_read`: what is shown of an event is the proof that was submitted last and the verdict that came
    last, whichever it is about;
  * `run_returned`: what a submission returns is its own verdict, with the proof that was submitted last.
-/
import AuditTransparency.Soroban.Lookup
import Mathlib.Data.Int.Notation
import Mathlib.Data.List.Induction
import Mathlib.Data.List.Nodup

namespace Verification

open Soroban

/-! ## Data -/

structure EventProof where
  ledgerSeq : ℤ
  txHash : String
  eventIndex : ℤ
  eventHash : String
  signature : String
  deriving DecidableEq

inductive VerificationStatusValue where
  | pending
  | verified
  | failed
  deriving DecidableEq

structure VerificationHistoryEntry where
  status : VerificationStatusValue
  timestamp : ℤ
  detail : Option String := none
  deriving DecidableEq

structure VerificationRecord where
  eventHash : String
  status : VerificationStatusValue
  proof : Option EventProof
  history : List VerificationHistoryEntry
  createdAt : ℤ
  updatedAt : ℤ
  deriving DecidableEq

/-- The records that there are, and which of them is that of an event. -/
structure VerificationStore where
  heap : List VerificationRecord
  records : String → Option ℕ

/-- What the verifier has answered, or the message of what it has thrown. -/
abbrev Outcome := Except String Bool

def Outcome.status : Outcome → VerificationStatusValue
  | .ok true => .verified
  | _ => .failed

def Outcome.detail : Outcome → Option String
  | .ok _ => none
  | .error message => some message

/-- The entry of the history for an outcome. -/
def Outcome.entry (now : ℤ) (o : Outcome) : VerificationHistoryEntry := ⟨o.status, now, o.detail⟩

/-- The record of an event that was not known. -/
def VerificationRecord.fresh (now : ℤ) (eventHash : String) : VerificationRecord where
  eventHash
  status := .pending
  proof := none
  history := [⟨.pending, now, none⟩]
  createdAt := now
  updatedAt := now

/-- The record after a verdict. -/
def VerificationRecord.decided (record : VerificationRecord) (now : ℤ) (o : Outcome) : VerificationRecord :=
  { record with status := o.status, updatedAt := now, history := record.history ++ [o.entry now] }

namespace VerificationStore

def empty : VerificationStore := ⟨[], fun _ => none⟩

/-- `touch`: which record is that of the event. -/
def touch (s : VerificationStore) (now : ℤ) (eventHash : String) : ℕ × VerificationStore :=
  match s.records eventHash with
  | some r => (r, s)
  | none => (s.heap.length,
    { heap := s.heap ++ [.fresh now eventHash]
      records := Function.update s.records eventHash (some s.heap.length) })

/-- `submit` up to its `await`, and the record it has got. -/
def submit (s : VerificationStore) (now : ℤ) (eventHash : String) (proof : EventProof) :
    ℕ × VerificationStore :=
  let (r, s) := s.touch now eventHash
  (r, { s with heap := s.heap.modify r fun record => { record with proof := some proof } })

/-- `submit` from its `await` on, and the record as it is when it returns: the caller shares its history
    with the store, where it grows later. -/
def settle (s : VerificationStore) (now : ℤ) (r : ℕ) (o : Outcome) :
    Option VerificationRecord × VerificationStore :=
  let heap := s.heap.modify r (·.decided now o)
  (heap[r]?, { s with heap })

/-- `clear` -/
def clear (s : VerificationStore) : VerificationStore := { s with records := fun _ => none }

/-- `getRecord` -/
def getRecord (s : VerificationStore) (eventHash : String) : Option VerificationRecord :=
  (s.records eventHash).bind (s.heap[·]?)

/-- `getStatus` -/
def getStatus (s : VerificationStore) (eventHash : String) : Option VerificationStatusValue :=
  ((s.records eventHash).bind (s.heap[·]?)).map (·.status)

/-- `getProof` -/
def getProof (s : VerificationStore) (eventHash : String) : Option EventProof :=
  ((s.records eventHash).bind (s.heap[·]?)).bind (·.proof)

/-- `getHistory` -/
def getHistory (s : VerificationStore) (eventHash : String) : List VerificationHistoryEntry :=
  (((s.records eventHash).bind (s.heap[·]?)).map (·.history)).getD []

end VerificationStore

/-! ## Runs -/

/-- The submissions are numbered in the order in which they are made; their verdicts come in any order. -/
inductive Step where
  | submit (now : ℤ) (eventHash : String) (proof : EventProof)
  | verdict (now : ℤ) (submission : ℕ) (outcome : Outcome)
  | clear

/-- The store, and the submissions: the record each has got and whether it still waits. -/
structure Service where
  store : VerificationStore
  jobs : List (ℕ × Bool)

def exec (x : Service) : Step → Option Service
  | .submit now eventHash proof =>
    let (r, store) := x.store.submit now eventHash proof
    some ⟨store, x.jobs ++ [(r, true)]⟩
  | .verdict now i o =>
    match x.jobs[i]? with
    | some (r, true) => some ⟨(x.store.settle now r o).2, x.jobs.set i (r, false)⟩
    | _ => none
  | .clear => some { x with store := x.store.clear }

/-- The service after the steps, if they can be made. -/
def run (l : List Step) : Option Service := l.foldlM exec ⟨.empty, []⟩

/-! ## What a run was -/

/-- An event, between two times at which the store is cleared. -/
structure Key where
  eventHash : String
  epoch : ℕ
  deriving DecidableEq

structure Submission where
  now : ℤ
  key : Key
  proof : EventProof

/-- How often the store was cleared. -/
def epoch (l : List Step) : ℕ := l.countP fun a => a matches .clear

/-- The submissions, in the order of their numbers. -/
def submissionsFrom (n : ℕ) : List Step → List Submission
  | [] => []
  | .submit now eventHash proof :: l => ⟨now, ⟨eventHash, n⟩, proof⟩ :: submissionsFrom n l
  | .verdict .. :: l => submissionsFrom n l
  | .clear :: l => submissionsFrom (n + 1) l

def submissions (l : List Step) : List Submission := submissionsFrom 0 l

/-- The submissions of an event. -/
def made (k : Key) (l : List Step) : List Submission := (submissions l).filter (·.key = k)

/-- The verdict of a step on one of the submissions. -/
def verdictOn (k : Key) (qs : List Submission) : Step → Option VerificationHistoryEntry
  | .verdict now i o => if (qs[i]?).any (·.key = k) then some (o.entry now) else none
  | _ => none

/-- The verdicts on the submissions of an event, in the order in which they came. -/
def verdicts (k : Key) (l : List Step) : List VerificationHistoryEntry :=
  l.filterMap (verdictOn k (submissions l))

/-- What there is to be known of an event. -/
def recordOf (l : List Step) (k : Key) : VerificationRecord :=
  let first := ((made k l).head?.map (·.now)).getD 0
  { eventHash := k.eventHash
    status := ((verdicts k l).getLast?.map (·.status)).getD .pending
    proof := (made k l).getLast?.map (·.proof)
    history := ⟨.pending, first, none⟩ :: verdicts k l
    createdAt := first
    updatedAt := ((verdicts k l).getLast?.map (·.timestamp)).getD first }

section
variable {l l' : List Step} {x y : Service} {a : Step} {n i r : ℕ} {k : Key} {q : Submission} {e : String}
  {now : ℤ} {proof : EventProof} {o : Outcome}

theorem submissionsFrom_append :
    submissionsFrom n (l ++ l') = submissionsFrom n l ++ submissionsFrom (n + epoch l) l' := by
  induction l generalizing n with
  | nil => rfl
  | cons a l ih =>
    cases a with
    | submit now e proof => exact congrArg (List.cons _) ih
    | verdict now i o => exact ih
    | clear =>
      have hepoch : epoch (.clear :: l) = epoch l + 1 := by rw [epoch, List.countP_cons_of_pos rfl, epoch]
      rw [hepoch, Nat.add_comm (epoch l), ← Nat.add_assoc]
      exact ih

theorem submissions_submit :
    submissions (l ++ [.submit now e proof]) = submissions l ++ [⟨now, ⟨e, epoch l⟩, proof⟩] := by
  rw [submissions, submissionsFrom_append, Nat.zero_add]
  rfl

theorem submissions_verdict : submissions (l ++ [.verdict now i o]) = submissions l := by
  rw [submissions, submissionsFrom_append]
  exact List.append_nil _

theorem submissions_clear : submissions (l ++ [.clear]) = submissions l := by
  rw [submissions, submissionsFrom_append]
  exact List.append_nil _

theorem epoch_concat : epoch (l ++ [a]) = epoch l + if a matches .clear then 1 else 0 := by
  rw [epoch, List.countP_append, ← epoch]
  cases a <;> rfl

/-- The verdicts are on submissions that were made. -/
def Grounded (l : List Step) : Prop :=
  ∀ now i o, Step.verdict now i o ∈ l → i < (submissions l).length

theorem verdictOn_append {qs qs' : List Submission} (h : ∀ now i o, a = .verdict now i o → i < qs.length) :
    verdictOn k (qs ++ qs') a = verdictOn k qs a := by
  cases a with
  | verdict now i o => rw [verdictOn, verdictOn, List.getElem?_append_left (h now i o rfl)]
  | submit now e proof => rfl
  | clear => rfl

theorem verdicts_submit (h : Grounded l) : verdicts k (l ++ [.submit now e proof]) = verdicts k l := by
  rw [verdicts, verdicts, submissions_submit, List.filterMap_append]
  have hlast : [Step.submit now e proof].filterMap
      (verdictOn k (submissions l ++ [⟨now, ⟨e, epoch l⟩, proof⟩])) = [] := rfl
  rw [hlast, List.append_nil]
  refine List.filterMap_congr fun a ha => verdictOn_append ?_
  rintro now i o rfl
  exact h now i o ha

theorem verdicts_clear : verdicts k (l ++ [.clear]) = verdicts k l := by
  rw [verdicts, submissions_clear, List.filterMap_append]
  exact List.append_nil _

theorem verdicts_verdict (hq : (submissions l)[i]? = some q) :
    verdicts k (l ++ [.verdict now i o]) = verdicts k l ++ if q.key = k then [o.entry now] else [] := by
  rw [verdicts, submissions_verdict, List.filterMap_append, ← verdicts]
  congr 1
  by_cases hk : q.key = k <;> simp [verdictOn, hq, hk]

theorem made_submit : made k (l ++ [.submit now e proof]) =
    made k l ++ if (⟨e, epoch l⟩ : Key) = k then [⟨now, ⟨e, epoch l⟩, proof⟩] else [] := by
  rw [made, submissions_submit, List.filter_append, ← made]
  congr 1
  by_cases hk : (⟨e, epoch l⟩ : Key) = k <;> simp [hk]

theorem made_verdict : made k (l ++ [.verdict now i o]) = made k l := by rw [made, submissions_verdict, made]

theorem made_clear : made k (l ++ [.clear]) = made k l := by rw [made, submissions_clear, made]

theorem verdicts_eq_nil (h : made k l = []) : verdicts k l = [] := by
  rw [verdicts, List.filterMap_eq_nil_iff]
  intro a ha
  cases a with
  | verdict now i o =>
    rw [verdictOn, if_neg]
    intro hany
    obtain ⟨q, hq, hk⟩ := (Option.any_eq_true ..).1 hany
    have := List.filter_eq_nil_iff.1 h q (List.mem_of_getElem? hq)
    exact this hk
  | submit now e proof => rfl
  | clear => rfl

/-! ## The records -/

theorem recordOf_clear : recordOf (l ++ [.clear]) k = recordOf l k := by
  rw [recordOf, recordOf, made_clear, verdicts_clear]

theorem recordOf_verdict (hq : (submissions l)[i]? = some q) :
    recordOf (l ++ [.verdict now i o]) k = if q.key = k then (recordOf l k).decided now o else recordOf l k := by
  rw [recordOf, made_verdict, verdicts_verdict hq]
  by_cases hk : q.key = k
  · rw [if_pos hk, if_pos hk, List.getLast?_concat]
    rfl
  · rw [if_neg hk, if_neg hk, List.append_nil]
    rfl

theorem recordOf_submit (h : Grounded l) : recordOf (l ++ [.submit now e proof]) k =
    if (⟨e, epoch l⟩ : Key) = k then
      { if made k l = [] then .fresh now e else recordOf l k with proof := some proof }
    else recordOf l k := by
  rw [recordOf, made_submit, verdicts_submit h]
  by_cases hk : (⟨e, epoch l⟩ : Key) = k
  · subst hk
    rw [if_pos rfl, if_pos rfl, List.getLast?_concat]
    by_cases hnone : made ⟨e, epoch l⟩ l = []
    · rw [if_pos hnone, hnone, verdicts_eq_nil hnone]
      rfl
    · rw [if_neg hnone, List.head?_append_of_ne_nil _ hnone]
      rfl
  · rw [if_neg hk, if_neg hk, List.append_nil]
    rfl

/-- The store after a run; `owners` are the events of the records. -/
structure Kept (owners : List Key) (l : List Step) (x : Service) : Prop where
  grounded : Grounded l
  nodup : owners.Nodup
  heap : x.store.heap = owners.map (recordOf l)
  known : ∀ k, k ∈ owners ↔ made k l ≠ []
  records : ∀ e r, x.store.records e = some r ↔ owners[r]? = some ⟨e, epoch l⟩
  length : x.jobs.length = (submissions l).length
  jobs : ∀ (i : ℕ) q j, (submissions l)[i]? = some q → x.jobs[i]? = some j → owners[j.1]? = some q.key

theorem kept_start : Kept [] [] ⟨.empty, []⟩ where
  grounded := by simp [Grounded]
  nodup := List.nodup_nil
  heap := rfl
  known k := by simp [made, submissions, submissionsFrom]
  records e r := by simp [VerificationStore.empty]
  length := rfl
  jobs i q j h := by simp [submissions, submissionsFrom] at h

/-- One of a list without repetitions is changed. -/
theorem modify_map {f f' : Key → VerificationRecord} {g : VerificationRecord → VerificationRecord}
    {owners : List Key} (hnodup : owners.Nodup) (hr : owners[r]? = some k) (hsame : f' k = g (f k))
    (hother : ∀ k' ∈ owners, k' ≠ k → f' k' = f k') : (owners.map f).modify r g = owners.map f' := by
  refine List.ext_getElem? fun j => ?_
  rw [List.getElem?_modify, List.getElem?_map, List.getElem?_map]
  rcases hj : owners[j]? with _ | k'
  · rfl
  · by_cases hrj : r = j
    · subst hrj
      rw [hr] at hj
      obtain rfl := Option.some.inj hj
      simp [hsame]
    · have hne : k' ≠ k := by
        rintro rfl
        obtain ⟨hlt, -⟩ := List.getElem?_eq_some_iff.1 hr
        exact hrj ((List.getElem?_inj hlt hnodup).1 (hr.trans hj.symm))
      simp [hrj, hother k' (List.mem_of_getElem? hj) hne]

/-- The key of a submission is of a time that has come. -/
theorem epoch_le (hq : q ∈ submissionsFrom n l) : q.key.epoch ≤ n + epoch l := by
  induction l generalizing n with
  | nil => cases hq
  | cons a l ih =>
    cases a with
    | submit now e proof =>
      rcases List.mem_cons.1 hq with rfl | hq
      · exact Nat.le_add_right _ _
      · exact ih hq
    | verdict now i o => exact ih hq
    | clear =>
      have := ih hq
      simp only [epoch, List.countP_cons, if_true] at this ⊢
      omega

section
variable {owners : List Key}

theorem Kept.mem_iff (h : Kept owners l x) : (⟨e, epoch l⟩ : Key) ∈ owners ↔ ∃ r, x.store.records e = some r := by
  rw [List.mem_iff_getElem?]
  exact exists_congr fun r => (h.records e r).symm

/-- After `touch` the event has a record. -/
theorem Kept.touch (h : Kept owners l x) (now : ℤ) (e : String) : ∃ owners' : List Key, owners'.Nodup ∧
    (∀ (r : ℕ) k, owners[r]? = some k → owners'[r]? = some k) ∧
    (∀ k, k ∈ owners' ↔ k ∈ owners ∨ k = ⟨e, epoch l⟩) ∧
    owners'[(x.store.touch now e).1]? = some ⟨e, epoch l⟩ ∧
    (∀ e' r, (x.store.touch now e).2.records e' = some r ↔ owners'[r]? = some ⟨e', epoch l⟩) ∧
    (x.store.touch now e).2.heap =
      owners'.map fun k => if made k l = [] then .fresh now e else recordOf l k := by
  have hheap : x.store.heap = owners.map fun k => if made k l = [] then .fresh now e else recordOf l k := by
    rw [h.heap]
    exact List.map_congr_left fun k hk => (if_neg ((h.known k).1 hk)).symm
  rcases hr : x.store.records e with _ | r
  · have hnot : (⟨e, epoch l⟩ : Key) ∉ owners := by
      rw [h.mem_iff, hr]
      simp
    have hnew : made ⟨e, epoch l⟩ l = [] := not_not.1 fun hm => hnot ((h.known _).2 hm)
    have hlength : x.store.heap.length = owners.length := by rw [h.heap, List.length_map]
    simp only [VerificationStore.touch, hr, hlength]
    refine ⟨owners ++ [⟨e, epoch l⟩], ?_, fun r k => getElem?_concat_of_some, fun k => ?_,
      List.getElem?_concat_length, fun e' r => ?_, ?_⟩
    · rw [List.nodup_append]
      exact ⟨h.nodup, List.nodup_singleton _, fun k hk k' hk' hkk => hnot (List.mem_singleton.1 hk' ▸ hkk ▸ hk)⟩
    · rw [List.mem_append, List.mem_singleton]
    · constructor
      · intro hr'
        rcases update_cases hr' with ⟨rfl, rfl⟩ | ⟨-, hr'⟩
        · exact List.getElem?_concat_length
        · exact getElem?_concat_of_some ((h.records e' r).1 hr')
      · intro hr'
        rcases getElem?_concat_cases hr' with hold | ⟨rfl, hk⟩
        · rw [Function.update_of_ne, h.records]
          · exact hold
          · rintro rfl
            exact hnot (List.mem_of_getElem? hold)
        · obtain rfl : e' = e := congrArg Key.eventHash hk
          exact Function.update_self ..
    · rw [List.map_append, ← hheap, List.map_singleton, if_pos hnew]
  · have hmem : (⟨e, epoch l⟩ : Key) ∈ owners := h.mem_iff.2 ⟨r, hr⟩
    simp only [VerificationStore.touch, hr]
    refine ⟨owners, h.nodup, fun r k hk => hk, fun k => ?_, (h.records e r).1 hr, h.records, hheap⟩
    exact ⟨Or.inl, fun hk => hk.elim id fun hk => hk ▸ hmem⟩

theorem Kept.submit (h : Kept owners l x) (now : ℤ) (e : String) (proof : EventProof) :
    ∃ owners' y, exec x (.submit now e proof) = some y ∧ Kept owners' (l ++ [.submit now e proof]) y := by
  obtain ⟨owners', hnodup, hold, hmem, hr, hrecords, hheap⟩ := h.touch now e
  have hmade : ∀ k, made k (l ++ [.submit now e proof]) ≠ [] ↔ made k l ≠ [] ∨ k = ⟨e, epoch l⟩ := by
    intro k
    rw [made_submit, ne_eq, List.append_eq_nil_iff]
    by_cases hk : (⟨e, epoch l⟩ : Key) = k
    · simp [hk]
    · simp [hk, Ne.symm hk]
  refine ⟨owners', _, rfl, ?_, hnodup, ?_, fun k => ?_, ?_, ?_, ?_⟩
  · intro now' i o hi
    rw [submissions_submit, List.length_append]
    rcases List.mem_append.1 hi with hi | hi
    · exact Nat.lt_add_right _ (h.grounded now' i o hi)
    · exact absurd (List.mem_singleton.1 hi) (by simp)
  · refine (congrArg (List.modify · _ _) hheap).trans (modify_map hnodup hr ?_ fun k' hk' hne => ?_)
    · rw [recordOf_submit h.grounded, if_pos rfl]
    · have hknown := (h.known k').1 (((hmem k').1 hk').resolve_right hne)
      rw [recordOf_submit h.grounded, if_neg (Ne.symm hne), if_neg hknown]
  · rw [hmem, hmade, h.known]
  · rw [epoch_concat]
    exact hrecords
  · rw [submissions_submit, List.length_append, List.length_append, h.length]
    rfl
  · intro i q j hq hj
    rw [submissions_submit] at hq
    rcases getElem?_concat_cases hq with hq' | ⟨rfl, rfl⟩
    · rcases getElem?_concat_cases hj with hj | ⟨rfl, -⟩
      · exact hold _ _ (h.jobs i q j hq' hj)
      · rw [h.length] at hq'
        exact absurd (List.getElem?_eq_some_iff.1 hq').1 (Nat.lt_irrefl _)
    · rcases getElem?_concat_cases hj with hj | ⟨-, rfl⟩
      · rw [← h.length] at hj
        exact absurd (List.getElem?_eq_some_iff.1 hj).1 (Nat.lt_irrefl _)
      · exact hr

/-- A verdict is on a submission that has waited. -/
theorem Kept.waiting (h : Kept owners l x) (hy : exec x (.verdict now i o) = some y) :
    ∃ q r, (submissions l)[i]? = some q ∧ x.jobs[i]? = some (r, true) ∧ owners[r]? = some q.key ∧
      y = ⟨(x.store.settle now r o).2, x.jobs.set i (r, false)⟩ := by
  rw [exec] at hy
  split at hy
  · next r hj =>
    have hlt := (List.getElem?_eq_some_iff.1 hj).1
    rw [h.length] at hlt
    have hq := List.getElem?_eq_getElem hlt
    exact ⟨_, r, hq, hj, h.jobs i _ _ hq hj, (Option.some.inj hy).symm⟩
  · cases hy

/-- The records after a verdict. -/
theorem Kept.heap_decided (h : Kept owners l x) (hq : (submissions l)[i]? = some q)
    (hr : owners[r]? = some q.key) : x.store.heap.modify r (·.decided now o) =
      owners.map (recordOf (l ++ [.verdict now i o])) := by
  rw [h.heap]
  refine modify_map h.nodup hr ?_ fun k' _ hne => ?_
  · rw [recordOf_verdict hq, if_pos rfl]
  · rw [recordOf_verdict hq, if_neg (Ne.symm hne)]

theorem Kept.verdict (h : Kept owners l x) (hy : exec x (.verdict now i o) = some y) :
    Kept owners (l ++ [.verdict now i o]) y := by
  obtain ⟨q, r, hq, hj, hr, rfl⟩ := h.waiting hy
  refine ⟨?_, h.nodup, h.heap_decided hq hr, fun k => ?_, ?_, ?_, ?_⟩
  · intro now' i' o' hi
    rw [submissions_verdict]
    rcases List.mem_append.1 hi with hi | hi
    · exact h.grounded now' i' o' hi
    · obtain ⟨-, rfl, -⟩ := Step.verdict.inj (List.mem_singleton.1 hi)
      exact (List.getElem?_eq_some_iff.1 hq).1
  · rw [made_verdict, h.known]
  · rw [epoch_concat]
    exact h.records
  · rw [submissions_verdict, ← h.length]
    exact List.length_set
  · intro i' q' j hq' hj'
    rw [submissions_verdict] at hq'
    rcases getElem?_set_cases hj' with hj' | ⟨rfl, rfl⟩
    · exact h.jobs i' q' j hq' hj'
    · rw [hq] at hq'
      obtain rfl := Option.some.inj hq'
      exact hr

theorem Kept.clear (h : Kept owners l x) : Kept owners (l ++ [.clear]) ⟨x.store.clear, x.jobs⟩ where
  grounded now i o hi := by
    rw [submissions_clear]
    rcases List.mem_append.1 hi with hi | hi
    · exact h.grounded now i o hi
    · exact absurd (List.mem_singleton.1 hi) (by simp)
  nodup := h.nodup
  heap := h.heap.trans (List.map_congr_left fun k _ => recordOf_clear.symm)
  known k := by rw [made_clear, h.known]
  records e r := by
    refine iff_of_false (by simp [VerificationStore.clear]) fun hr => ?_
    have hmade := (h.known _).1 (List.mem_of_getElem? hr)
    obtain ⟨q, hq⟩ := List.exists_mem_of_ne_nil _ hmade
    obtain ⟨hq, hkey⟩ := List.mem_filter.1 hq
    have hle := epoch_le hq
    rw [of_decide_eq_true hkey, Nat.zero_add, epoch_concat] at hle
    exact absurd hle (Nat.not_succ_le_self _)
  length := by rw [submissions_clear, h.length]
  jobs i q j hq hj := by
    rw [submissions_clear] at hq
    exact h.jobs i q j hq hj

theorem Kept.exec (h : Kept owners l x) (hy : exec x a = some y) : ∃ owners', Kept owners' (l ++ [a]) y := by
  cases a with
  | submit now e proof =>
    obtain ⟨owners', y', hy', h'⟩ := h.submit now e proof
    obtain rfl := Option.some.inj (hy'.symm.trans hy)
    exact ⟨owners', h'⟩
  | verdict now i o => exact ⟨owners, h.verdict hy⟩
  | clear =>
    obtain rfl := Option.some.inj hy
    exact ⟨owners, h.clear⟩

theorem run_concat : run (l ++ [a]) = (run l).bind (Verification.exec · a) := by
  rw [run, List.foldlM_append, run]
  simp

theorem kept_of_run (h : run l = some x) : ∃ owners, Kept owners l x := by
  induction l using List.reverseRecOn generalizing x with
  | nil =>
    obtain rfl := Option.some.inj h
    exact ⟨[], kept_start⟩
  | append_singleton l a ih =>
    rw [run_concat, Option.bind_eq_some_iff] at h
    obtain ⟨y, hy, ha⟩ := h
    obtain ⟨owners, hkept⟩ := ih hy
    exact hkept.exec ha

theorem Kept.getRecord (h : Kept owners l x) (e : String) :
    x.store.getRecord e = if made ⟨e, epoch l⟩ l = [] then none else some (recordOf l ⟨e, epoch l⟩) := by
  rw [VerificationStore.getRecord]
  rcases hr : x.store.records e with _ | r
  · have hnot : (⟨e, epoch l⟩ : Key) ∉ owners := by
      rw [h.mem_iff, hr]
      simp
    rw [if_pos (not_not.1 fun hm => hnot ((h.known _).2 hm))]
    rfl
  · have hmem : (⟨e, epoch l⟩ : Key) ∈ owners := h.mem_iff.2 ⟨r, hr⟩
    rw [if_neg ((h.known _).1 hmem), Option.bind_some, h.heap, List.getElem?_map, (h.records e r).1 hr]
    rfl

end

/-! ## What is shown and returned -/

/-- **What is shown of an event**: the proof that was submitted last, and the status of the verdict that came
    last, which may be on another; the history has all verdicts on its submissions since the store was
    cleared, in the order in which they came. -/
theorem run_read (h : run l = some x) (e : String) :
    x.store.getProof e = (made ⟨e, epoch l⟩ l).getLast?.map (·.proof) ∧
      x.store.getHistory e = ((made ⟨e, epoch l⟩ l).head?.map fun q => ⟨.pending, q.now, none⟩).toList ++
        verdicts ⟨e, epoch l⟩ l ∧
      x.store.getStatus e = (x.store.getHistory e).getLast?.map (·.status) := by
  obtain ⟨owners, hkept⟩ := kept_of_run h
  have hrecord := hkept.getRecord e
  rw [VerificationStore.getRecord] at hrecord
  rw [VerificationStore.getProof, VerificationStore.getHistory, VerificationStore.getStatus, hrecord]
  rcases hmade : made ⟨e, epoch l⟩ l with _ | ⟨q, qs⟩
  · rw [verdicts_eq_nil hmade]
    exact ⟨rfl, rfl, rfl⟩
  · rw [if_neg (List.cons_ne_nil _ _)]
    simp only [recordOf, hmade]
    refine ⟨rfl, rfl, ?_⟩
    simp only [Option.map_some, Option.getD_some, List.getLast?_cons]
    rcases (verdicts ⟨e, epoch l⟩ l).getLast? with _ | entry <;> rfl

/-- **What a submission returns**: whatever came before its verdict, the record of its own event with its own
    verdict, and with the proof that was submitted last for it, also when the store was cleared meanwhile. -/
theorem run_returned (h : run l = some x) (hy : exec x (.verdict now i o) = some y) :
    ∃ q r record, (submissions l)[i]? = some q ∧ x.jobs[i]? = some (r, true) ∧
      (x.store.settle now r o).1 = some record ∧ record.eventHash = q.key.eventHash ∧ record.status = o.status ∧
      record.proof = (made q.key l).getLast?.map (·.proof) ∧
      record.history.tail = verdicts q.key l ++ [o.entry now] := by
  obtain ⟨owners, hkept⟩ := kept_of_run h
  obtain ⟨q, r, hq, hj, hr, -⟩ := hkept.waiting hy
  refine ⟨q, r, recordOf (l ++ [.verdict now i o]) q.key, hq, hj, ?_, rfl, ?_, ?_, ?_⟩
  · rw [VerificationStore.settle, hkept.heap_decided hq hr, List.getElem?_map, hr]
    rfl
  · rw [recordOf_verdict hq, if_pos rfl]
    rfl
  · rw [recordOf, made_verdict]
  · rw [recordOf, verdicts_verdict hq, if_pos rfl]
    rfl

end

/-- A proof of an event, by its signature. -/
def proofBy (signature : String) : EventProof := ⟨7, "tx", 0, "event", signature⟩

/-- The second proof is submitted after the first was verified, and not decided yet. -/
def staleScript : List Step :=
  [.submit 10 "event" (proofBy "good"), .verdict 11 0 (.ok true), .submit 12 "event" (proofBy "forged")]

/-- **The event is shown as verified, with a proof that is not.** -/
theorem run_read_staleScript : ∃ x, run staleScript = some x ∧
    x.store.getStatus "event" = some .verified ∧ x.store.getProof "event" = some (proofBy "forged") := by
  obtain ⟨x, hx⟩ : ∃ x, run staleScript = some x := ⟨_, rfl⟩
  obtain ⟨hproof, hhistory, hstatus⟩ := run_read hx "event"
  refine ⟨x, hx, ?_, ?_⟩
  · rw [hstatus, hhistory]
    decide +kernel
  · rw [hproof]
    decide +kernel

/-- The submissions are decided in the other order, the first after the store was cleared. -/
def crossedScript : List Step :=
  [.submit 10 "event" (proofBy "forged"), .submit 11 "event" (proofBy "good"), .verdict 12 1 (.ok true), .clear]

/-- The failed submission is returned with the proof of the other. -/
theorem run_returned_crossedScript : ∃ x record, run crossedScript = some x ∧
    (x.store.settle 13 0 (.ok false)).1 = some record ∧ record.status = .failed ∧
    record.proof = some (proofBy "good") := by
  obtain ⟨x, hx⟩ : ∃ x, run crossedScript = some x := ⟨_, rfl⟩
  have hy : ∃ y, exec x (.verdict 13 0 (.ok false)) = some y := by
    obtain rfl := Option.some.inj hx
    exact ⟨_, rfl⟩
  obtain ⟨y, hy⟩ := hy
  obtain ⟨q, r, record, hq, hj, hrecord, -, hstatus, hproof, -⟩ := run_returned hx hy
  have hzero : x.jobs[0]? = some (0, true) := by
    obtain rfl := Option.some.inj hx
    rfl
  rw [hzero] at hj
  obtain rfl : 0 = r := congrArg Prod.fst (Option.some.inj hj)
  refine ⟨x, record, hx, hrecord, hstatus, ?_⟩
  obtain rfl : ⟨10, ⟨"event", 0⟩, proofBy "forged"⟩ = q := Option.some.inj hq
  rw [hproof]
  decide +kernel

end Verification
