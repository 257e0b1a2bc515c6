/-
  Mpc — rounds in which parties compute together (`MpcAnalyticsEngine`, `bridge/relayer/mpc.ts`).

  A round takes shares until it is completed.  Parties submit, and submit again, in any order; whoever
  finalizes a round completes it if enough of them have, and their shares can be read.

  * `finalize_iff`: when that is, by what has happened since the round was initiated;
  * `sum_completed`: the sum is that of the last share of every party, reduced;
  * `order_irrelevant`: it does not matter in which order the parties have come.
-/
import AuditTransparency.Relayer.SecretSharing
import AuditTransparency.Migrations.Engine
import Mathlib.Data.List.DropRight

namespace Mpc

open Soroban

/-! ## Data -/

structure MpShare where
  partyId : String
  shareIndex : ℕ
  shareValue : String
  threshold : ℤ
  totalParties : ℤ
  deriving DecidableEq

inductive AnalyticsType where
  | sum
  | count
  | average
  | min
  | max
  deriving DecidableEq

structure MpAnalyticsRequest where
  analyticsType : AnalyticsType
  eventIndices : List ℤ
  partyShares : List MpShare
  deriving DecidableEq

/-- The proof is the digest, a hexadecimal number of 64 digits. -/
structure MpAnalyticsResult where
  analyticsType : AnalyticsType
  result : String
  proof : BitVec 256
  partiesInvolved : List String
  computedAt : ℤ
  deriving DecidableEq

structure MpComputationRound where
  roundId : String
  request : MpAnalyticsRequest
  sharesReceived : List (String × String)
  completed : Bool
  result : Option MpAnalyticsResult
  deriving DecidableEq

structure MpcAnalyticsEngine where
  rounds : String → Option MpComputationRound

/-! ## Functions -/

/-- `set` of a `Map`, which keeps the place of a key. -/
def setEntry (m : List (String × String)) (k v : String) : List (String × String) :=
  if m.any (·.1 = k) then m.map fun p => if p.1 = k then (k, v) else p else m ++ [(k, v)]

/-- White space and line terminators. -/
def isStrWhiteSpace (c : Char) : Bool :=
  c.toNat ∈ [9, 10, 11, 12, 13, 32, 0xA0, 0x1680, 0x2028, 0x2029, 0x202F, 0x205F, 0x3000, 0xFEFF] ||
    0x2000 ≤ c.toNat && c.toNat ≤ 0x200A

def digit? (base : ℕ) (c : Char) : Option ℕ :=
  let digit :=
    if '0' ≤ c ∧ c ≤ '9' then some (c.toNat - 48)
    else if 'a' ≤ c ∧ c ≤ 'f' then some (c.toNat - 87)
    else if 'A' ≤ c ∧ c ≤ 'F' then some (c.toNat - 55)
    else none
  digit.filter (· < base)

def digits? (base : ℕ) (l : List Char) : Option ℤ :=
  if l = [] then none else (l.foldlM (fun n c => (digit? base c).map (base * n + ·)) 0).map Int.ofNat

/-- `BigInt` of a string, which throws on one that is not a number. -/
def bigInt (s : String) : Option ℤ :=
  match (s.toList.dropWhile isStrWhiteSpace).rdropWhile isStrWhiteSpace with
  | [] => some 0
  | '0' :: 'x' :: l => digits? 16 l
  | '0' :: 'X' :: l => digits? 16 l
  | '0' :: 'o' :: l => digits? 8 l
  | '0' :: 'O' :: l => digits? 8 l
  | '0' :: 'b' :: l => digits? 2 l
  | '0' :: 'B' :: l => digits? 2 l
  | '+' :: l => digits? 10 l
  | '-' :: l => (digits? 10 l).map (- ·)
  | l => digits? 10 l

namespace MpcAnalyticsEngine

/-- `initiateComputation`, with the identifier it has drawn. -/
def initiateComputation (x : MpcAnalyticsEngine) (roundId : String) (request : MpAnalyticsRequest) :
    MpcAnalyticsEngine :=
  { rounds := Function.update x.rounds roundId (some ⟨roundId, request, [], false, none⟩) }

/-- `submitShare` -/
def submitShare (x : MpcAnalyticsEngine) (roundId partyId shareValue : String) : Bool × MpcAnalyticsEngine :=
  match x.rounds roundId with
  | none => (false, x)
  | some round =>
    if round.completed then (false, x)
    else
      let round := { round with sharesReceived := setEntry round.sharesReceived partyId shareValue }
      (true, { rounds := Function.update x.rounds roundId (some round) })

end MpcAnalyticsEngine

/-- `aggregateShares`, which throws if a share is not a number. -/
def aggregateShares (shares : List (String × String)) : Option ℤ :=
  shares.foldlM (fun sum p => (bigInt p.2).map fun share => (sum + share).tmod fieldPrime) 0

/-- The value that `finalizeComputation` computes. -/
def resultValue (request : MpAnalyticsRequest) (shares : List (String × String)) : Option String :=
  match request.analyticsType with
  | .count => some (toString request.eventIndices.length)
  | .sum => (aggregateShares shares).map toString
  | .average => (aggregateShares shares).map fun aggregated =>
    if 0 < request.eventIndices.length then toString (aggregated.tdiv request.eventIndices.length) else "0"
  | .min => some (request.eventIndices.min?.elim "Infinity" toString)
  | .max => some (request.eventIndices.max?.elim "-Infinity" toString)

/-- `sort` of an array of strings. -/
def sortStrings (l : List String) : List String :=
  l.mergeSort fun s t => Migrations.codeUnits s ≤ Migrations.codeUnits t

/-- `generateComputationProof`, of the parties it has sorted. -/
def generateComputationProof (sha256 : String → BitVec 256) (roundId : String) (parties : List String)
    (result : String) : BitVec 256 :=
  sha256 (roundId ++ ":" ++ ",".intercalate parties ++ ":" ++ result)

def MpAnalyticsRequest.threshold (request : MpAnalyticsRequest) : ℤ :=
  (request.partyShares[0]?.map (·.threshold)).getD 2

/-- The result of a round with the given value. -/
def resultOf (sha256 : String → BitVec 256) (now : ℤ) (round : MpComputationRound) (value : String) :
    MpAnalyticsResult :=
  let parties := sortStrings (round.sharesReceived.map (·.1))
  { analyticsType := round.request.analyticsType
    result := value
    proof := generateComputationProof sha256 round.roundId parties value
    partiesInvolved := parties
    computedAt := now }

/-- `finalizeComputation`; it throws what `BigInt` throws. -/
def MpcAnalyticsEngine.finalizeComputation (sha256 : String → BitVec 256) (x : MpcAnalyticsEngine) (now : ℤ)
    (roundId : String) : Except Unit (Option MpAnalyticsResult × MpcAnalyticsEngine) :=
  match x.rounds roundId with
  | none => .ok (none, x)
  | some round =>
    if round.completed then .ok (none, x)
    else if round.sharesReceived.length < round.request.threshold then .ok (none, x)
    else match resultValue round.request round.sharesReceived with
      | none => .error ()
      | some value =>
        let result := resultOf sha256 now round value
        .ok (some result,
          { rounds := Function.update x.rounds roundId
              (some { round with completed := true, result := some result }) })

/-! ## Runs -/

inductive Step where
  | initiate (roundId : String) (request : MpAnalyticsRequest)
  | submit (roundId partyId shareValue : String)
  | finalize (now : ℤ) (roundId : String)

/-- The engine after a step; one that throws changes nothing. -/
def exec (sha256 : String → BitVec 256) (x : MpcAnalyticsEngine) : Step → MpcAnalyticsEngine
  | .initiate roundId request => x.initiateComputation roundId request
  | .submit roundId partyId shareValue => (x.submitShare roundId partyId shareValue).2
  | .finalize now roundId => match x.finalizeComputation sha256 now roundId with
    | .ok (_, y) => y
    | .error _ => x

def run (sha256 : String → BitVec 256) (x : MpcAnalyticsEngine) (l : List Step) : MpcAnalyticsEngine :=
  l.foldl (exec sha256) x

/-- The shares submitted to a round, each with its party. -/
def submitted (roundId : String) (l : List Step) : List (String × String) :=
  l.filterMap fun a => match a with
    | .submit r partyId shareValue => if r = roundId then some (partyId, shareValue) else none
    | _ => none

/-- The last share of a party. -/
def lastShare (subs : List (String × String)) (p : String) : Option String :=
  ((subs.filter (·.1 = p)).getLast?).map (·.2)

/-- The parties that have submitted. -/
def parties (subs : List (String × String)) : Finset String := (subs.map (·.1)).toFinset

/-- The number that the last share of a party is. -/
def valueOf (subs : List (String × String)) (p : String) : ℤ := ((lastShare subs p).bind bigInt).getD 0

/-- The shares as the round keeps them. -/
def collect (subs : List (String × String)) : List (String × String) :=
  subs.foldl (fun m p => setEntry m p.1 p.2) []

section
variable {m subs subs' : List (String × String)} {k v p w : String}

theorem keys_setEntry :
    (setEntry m k v).map (·.1) = if k ∈ m.map (·.1) then m.map (·.1) else m.map (·.1) ++ [k] := by
  have hany : m.any (·.1 = k) = true ↔ k ∈ m.map (·.1) := by simp [List.mem_map]
  rw [setEntry]
  by_cases hk : k ∈ m.map (·.1)
  · rw [if_pos (hany.2 hk), if_pos hk, List.map_map]
    refine List.map_congr_left fun q _ => ?_
    by_cases hq : q.1 = k <;> simp [hq]
  · rw [if_neg (fun h => hk (hany.1 h)), if_neg hk, List.map_append]
    rfl

theorem mem_setEntry : (p, w) ∈ setEntry m k v ↔ if p = k then w = v else (p, w) ∈ m := by
  rw [setEntry]
  by_cases hk : m.any (·.1 = k) = true
  · rw [if_pos hk, List.mem_map]
    obtain ⟨q, hq, hqk⟩ := List.any_eq_true.1 hk
    rw [decide_eq_true_eq] at hqk
    constructor
    · rintro ⟨q', hq', he⟩
      by_cases hk' : q'.1 = k
      · rw [if_pos hk', Prod.mk.injEq] at he
        rw [if_pos he.1.symm]
        exact he.2.symm
      · rw [if_neg hk'] at he
        subst he
        rw [if_neg hk']
        exact hq'
    · intro h
      by_cases hp : p = k
      · rw [if_pos hp] at h
        exact ⟨q, hq, by rw [if_pos hqk, hp, h]⟩
      · rw [if_neg hp] at h
        exact ⟨(p, w), h, if_neg hp⟩
  · rw [if_neg hk, List.mem_append, List.mem_singleton, Prod.mk.injEq]
    by_cases hp : p = k
    · subst hp
      have hnot : (p, w) ∉ m := fun hm => hk (List.any_eq_true.2 ⟨_, hm, decide_eq_true rfl⟩)
      simp [hnot]
    · simp [hp]

theorem lastShare_concat : lastShare (subs ++ [(k, v)]) p = if p = k then some v else lastShare subs p := by
  rw [lastShare, List.filter_append]
  by_cases hp : p = k
  · rw [if_pos hp, List.filter_cons_of_pos (by simp [hp]), List.filter_nil, List.getLast?_concat]
    rfl
  · rw [if_neg hp, List.filter_cons_of_neg (by simpa using Ne.symm hp), List.filter_nil, List.append_nil, lastShare]

theorem collect_concat : collect (subs ++ [(k, v)]) = setEntry (collect subs) k v := by
  rw [collect, List.foldl_append]
  rfl

theorem nodup_collect : ((collect subs).map (·.1)).Nodup := by
  induction subs using List.reverseRecOn with
  | nil => exact List.nodup_nil
  | append_singleton subs a ih =>
    rw [collect_concat, keys_setEntry]
    split_ifs with hk
    · exact ih
    · rw [← List.concat_eq_append]
      exact ih.concat hk

/-- The round keeps the last share of every party. -/
theorem mem_collect : (p, w) ∈ collect subs ↔ lastShare subs p = some w := by
  induction subs using List.reverseRecOn with
  | nil => simp [collect, lastShare]
  | append_singleton subs a ih =>
    rw [collect_concat, mem_setEntry, lastShare_concat, ih]
    split_ifs <;> simp [eq_comm]

theorem lastShare_isSome : (lastShare subs p).isSome ↔ p ∈ parties subs := by
  rw [lastShare, Option.isSome_map, List.getLast?_isSome, ne_eq, List.filter_eq_nil_iff, parties,
    List.mem_toFinset, List.mem_map]
  simp

theorem toFinset_collect : ((collect subs).map (·.1)).toFinset = parties subs := by
  ext p
  rw [List.mem_toFinset, ← lastShare_isSome, List.mem_map]
  constructor
  · rintro ⟨⟨p, w⟩, hq, rfl⟩
    rw [mem_collect.1 hq]
    rfl
  · intro h
    obtain ⟨w, hw⟩ := Option.isSome_iff_exists.1 h
    exact ⟨(p, w), mem_collect.2 hw, rfl⟩

theorem length_collect : (collect subs).length = (parties subs).card := by
  rw [← toFinset_collect, List.toFinset_card_of_nodup nodup_collect, List.length_map]

/-! ## Sums -/

/-- The sum of the shares, reduced after each. -/
def reduce (l : List ℤ) : ℤ := l.foldl (fun sum share => (sum + share).tmod fieldPrime) 0

theorem reduce_concat {l : List ℤ} {a : ℤ} : reduce (l ++ [a]) = (reduce l + a).tmod fieldPrime := by
  rw [reduce, List.foldl_append]
  rfl

theorem reduce_modEq (l : List ℤ) : reduce l ≡ l.sum [ZMOD fieldPrime] := by
  induction l using List.reverseRecOn with
  | nil => rfl
  | append_singleton l a ih =>
    rw [reduce_concat, List.sum_append, List.sum_singleton]
    have htmod : (reduce l + a).tmod fieldPrime ≡ reduce l + a [ZMOD fieldPrime] := by
      rw [Int.modEq_iff_dvd, Int.tmod_def, sub_sub_cancel]
      exact Int.dvd_mul_right _ _
    exact htmod.trans (ih.add_right a)

theorem reduce_nonneg {l : List ℤ} (h : ∀ a ∈ l, 0 ≤ a) : reduce l = l.sum % fieldPrime := by
  induction l using List.reverseRecOn with
  | nil => rfl
  | append_singleton l a ih =>
    have hl := ih fun b hb => h b (List.mem_append_left _ hb)
    have ha := h a (List.mem_append_right _ (List.mem_singleton_self a))
    have hpos : 0 ≤ l.sum % fieldPrime := Int.emod_nonneg _ (by decide)
    rw [reduce_concat, List.sum_append, List.sum_singleton, hl, Int.tmod_eq_emod_of_nonneg (Int.add_nonneg hpos ha),
      Int.emod_add_emod]

theorem aggregateShares_concat {q : String × String} : aggregateShares (m ++ [q]) =
    (aggregateShares m).bind fun sum => (bigInt q.2).map fun share => (sum + share).tmod fieldPrime := by
  rw [aggregateShares, List.foldlM_append]
  simp only [List.foldlM_cons, List.foldlM_nil, bind_pure]
  rfl

theorem aggregateShares_eq_some {s : ℤ} : aggregateShares m = some s ↔
    (∀ q ∈ m, (bigInt q.2).isSome) ∧ reduce (m.map fun q => (bigInt q.2).getD 0) = s := by
  induction m using List.reverseRecOn generalizing s with
  | nil => simp [aggregateShares, reduce]
  | append_singleton m q ih =>
    rw [aggregateShares_concat, Option.bind_eq_some_iff, List.map_append, List.map_singleton, reduce_concat,
      List.forall_mem_append, List.forall_mem_singleton]
    constructor
    · rintro ⟨sum, hsum, hs⟩
      obtain ⟨hall, rfl⟩ := ih.1 hsum
      obtain ⟨share, hshare, rfl⟩ := Option.map_eq_some_iff.1 hs
      rw [hshare]
      exact ⟨⟨hall, rfl⟩, rfl⟩
    · rintro ⟨⟨hall, hq⟩, rfl⟩
      obtain ⟨share, hshare⟩ := Option.isSome_iff_exists.1 hq
      refine ⟨_, ih.2 ⟨hall, rfl⟩, ?_⟩
      rw [hshare]
      rfl

/-- The last shares of the parties can be read. -/
def Readable (subs : List (String × String)) : Prop :=
  ∀ p w, lastShare subs p = some w → (bigInt w).isSome

theorem readable_iff : Readable subs ↔ ∀ q ∈ collect subs, (bigInt q.2).isSome :=
  ⟨fun h q hq => h q.1 q.2 (mem_collect.1 hq), fun h p w hw => h (p, w) (mem_collect.2 hw)⟩

theorem sum_collect : ((collect subs).map fun q => (bigInt q.2).getD 0).sum = ∑ p ∈ parties subs, valueOf subs p := by
  rw [← toFinset_collect, List.sum_toFinset _ nodup_collect, List.map_map]
  congr 1
  refine List.map_congr_left fun q hq => ?_
  rw [Function.comp_apply, valueOf, mem_collect.1 hq]
  rfl

/-! ## Orders -/

/-- The units of a character are not the beginning of those of another. -/
theorem codeUnits_cons_inj {c d : Char} {l m : List Char}
    (h : Migrations.codeUnits (String.ofList (c :: l)) = Migrations.codeUnits (String.ofList (d :: m))) :
    c = d ∧ Migrations.codeUnits (String.ofList l) = Migrations.codeUnits (String.ofList m) := by
  have hinj : c.toNat = d.toNat → c = d := fun he => Char.ext (UInt32.toNat_inj.1 he)
  have hc := c.valid
  have hd := d.valid
  simp only [Migrations.codeUnits, String.toList_ofList, List.flatMap_cons] at h ⊢
  have hcv : c.toNat < 0xD800 ∨ 0xDFFF < c.toNat ∧ c.toNat < 0x110000 := hc
  have hdv : d.toNat < 0xD800 ∨ 0xDFFF < d.toNat ∧ d.toNat < 0x110000 := hd
  split_ifs at h with h₁ h₂ h₂
  · obtain ⟨he, ht⟩ := List.cons.inj h
    exact ⟨hinj he, ht⟩
  · have he := (List.cons.inj h).1
    omega
  · have he := (List.cons.inj h).1
    omega
  · obtain ⟨he, ht⟩ := List.cons.inj h
    obtain ⟨he', ht⟩ := List.cons.inj ht
    exact ⟨hinj (by omega), ht⟩

theorem codeUnits_injective : Function.Injective Migrations.codeUnits := by
  have hlist : ∀ l m : List Char,
      Migrations.codeUnits (String.ofList l) = Migrations.codeUnits (String.ofList m) → l = m := by
    intro l
    induction l with
    | nil =>
      intro m h
      cases m with
      | nil => rfl
      | cons d m =>
        have hne : Migrations.codeUnits (String.ofList (d :: m)) ≠ [] := by
          simp only [Migrations.codeUnits, String.toList_ofList, List.flatMap_cons]
          split_ifs <;> simp
        exact absurd h.symm hne
    | cons c l ih =>
      intro m h
      cases m with
      | nil =>
        have hne : Migrations.codeUnits (String.ofList (c :: l)) ≠ [] := by
          simp only [Migrations.codeUnits, String.toList_ofList, List.flatMap_cons]
          split_ifs <;> simp
        exact absurd h hne
      | cons d m =>
        obtain ⟨rfl, htail⟩ := codeUnits_cons_inj h
        rw [ih m htail]
  intro s t h
  have := hlist s.toList t.toList
  rw [String.ofList_toList, String.ofList_toList] at this
  exact String.toList_injective (this h)

/-- Sorted, a set of parties is the same list in whatever order they have come. -/
theorem sortStrings_eq {l l' : List String} (h : l.Perm l') : sortStrings l = sortStrings l' := by
  have htrans : ∀ a b c : String, decide (Migrations.codeUnits a ≤ Migrations.codeUnits b) = true →
      decide (Migrations.codeUnits b ≤ Migrations.codeUnits c) = true →
      decide (Migrations.codeUnits a ≤ Migrations.codeUnits c) = true := by
    simp only [decide_eq_true_eq]
    exact fun a b c => le_trans
  have htotal : ∀ a b : String, (decide (Migrations.codeUnits a ≤ Migrations.codeUnits b) ||
      decide (Migrations.codeUnits b ≤ Migrations.codeUnits a)) = true := by
    simp only [Bool.or_eq_true, decide_eq_true_eq]
    exact fun a b => le_total _ _
  refine List.Perm.eq_of_pairwise ?_ (List.pairwise_mergeSort htrans htotal l)
    (List.pairwise_mergeSort htrans htotal l') ?_
  · intro a b _ _ hab hba
    rw [decide_eq_true_eq] at hab hba
    exact codeUnits_injective (le_antisymm hab hba)
  · exact (List.mergeSort_perm l _).trans (h.trans (List.mergeSort_perm l' _).symm)

end

/-! ## Rounds -/

/-- The round of an identifier, before it is completed. -/
def opened (roundId : String) (request : MpAnalyticsRequest) (subs : List (String × String)) :
    MpComputationRound :=
  ⟨roundId, request, collect subs, false, none⟩

/-- The round that a step is about. -/
def Step.roundId : Step → String
  | .initiate roundId _ => roundId
  | .submit roundId _ _ => roundId
  | .finalize _ roundId => roundId

/-- To finalize the round gives a result. -/
def Returns (sha256 : String → BitVec 256) (x : MpcAnalyticsEngine) (now : ℤ) (roundId : String)
    (result : MpAnalyticsResult) : Prop :=
  ∃ y, x.finalizeComputation sha256 now roundId = .ok (some result, y)

/-- A step of the run has completed the round. -/
def Completed (sha256 : String → BitVec 256) (x : MpcAnalyticsEngine) (roundId : String) (l : List Step) : Prop :=
  ∃ l₁ now l₂ result, l = l₁ ++ .finalize now roundId :: l₂ ∧ Returns sha256 (run sha256 x l₁) now roundId result

section
variable {sha256 : String → BitVec 256} {x y : MpcAnalyticsEngine} {a : Step} {l l' : List Step}
  {r p v : String} {request : MpAnalyticsRequest} {subs : List (String × String)} {now : ℤ}
  {result : MpAnalyticsResult}

theorem run_concat : run sha256 x (l ++ [a]) = exec sha256 (run sha256 x l) a := by
  rw [run, List.foldl_append]
  rfl

/-- A step changes no other round. -/
theorem exec_other (h : a.roundId ≠ r) : (exec sha256 x a).rounds r = x.rounds r := by
  cases a with
  | initiate r' q => exact Function.update_of_ne (Ne.symm h) ..
  | submit r' p v =>
    rw [exec, MpcAnalyticsEngine.submitShare]
    split
    · rfl
    · split_ifs
      · rfl
      · exact Function.update_of_ne (Ne.symm h) ..
  | finalize now r' =>
    rw [exec, MpcAnalyticsEngine.finalizeComputation]
    rcases x.rounds r' with _ | round
    · rfl
    · by_cases hc : round.completed = true
      · simp only [if_pos hc]
      · by_cases ht : round.sharesReceived.length < round.request.threshold
        · simp only [if_neg hc, if_pos ht]
        · simp only [if_neg hc, if_neg ht]
          rcases resultValue round.request round.sharesReceived with _ | value
          · rfl
          · exact Function.update_of_ne (Ne.symm h) ..

/-- What finalizing a round does that is not completed. -/
theorem finalize_opened (h : x.rounds r = some (opened r request subs)) :
    x.finalizeComputation sha256 now r =
      if ((parties subs).card : ℤ) < request.threshold then .ok (none, x)
      else match resultValue request (collect subs) with
        | none => .error ()
        | some value => .ok (some (resultOf sha256 now (opened r request subs) value),
          { rounds := Function.update x.rounds r (some { opened r request subs with
              completed := true, result := some (resultOf sha256 now (opened r request subs) value) }) }) := by
  rw [MpcAnalyticsEngine.finalizeComputation, h, ← length_collect]
  rfl

theorem finalize_completed {round : MpComputationRound} (h : x.rounds r = some round)
    (hc : round.completed = true) : x.finalizeComputation sha256 now r = .ok (none, x) := by
  rw [MpcAnalyticsEngine.finalizeComputation, h]
  exact if_pos hc

/-- The result of an open round. -/
theorem returns_opened (h : x.rounds r = some (opened r request subs)) : Returns sha256 x now r result ↔
    request.threshold ≤ (parties subs).card ∧ ∃ value, resultValue request (collect subs) = some value ∧
      resultOf sha256 now (opened r request subs) value = result := by
  rw [Returns, finalize_opened h]
  by_cases ht : ((parties subs).card : ℤ) < request.threshold
  · rw [if_pos ht]
    simp [ht]
  · rw [if_neg ht]
    rcases resultValue request (collect subs) with _ | value
    · simp
    · simp [not_lt.1 ht]

theorem returns_completed {round : MpComputationRound} (h : x.rounds r = some round)
    (hc : round.completed = true) : ¬Returns sha256 x now r result := by
  rw [Returns, finalize_completed h hc]
  simp

theorem submit_opened (h : x.rounds r = some (opened r request subs)) :
    (x.submitShare r p v).2.rounds r = some (opened r request (subs ++ [(p, v)])) := by
  have hopened : opened r request (subs ++ [(p, v)]) =
      { opened r request subs with sharesReceived := setEntry (collect subs) p v } := by
    rw [opened, collect_concat]
    rfl
  rw [MpcAnalyticsEngine.submitShare, h, hopened]
  exact Function.update_self ..

theorem submit_completed {round : MpComputationRound} (h : x.rounds r = some round)
    (hc : round.completed = true) : x.submitShare r p v = (false, x) := by
  rw [MpcAnalyticsEngine.submitShare, h]
  exact if_pos hc

theorem completed_concat : Completed sha256 x r (l ++ [a]) ↔
    Completed sha256 x r l ∨ ∃ now result, a = .finalize now r ∧ Returns sha256 (run sha256 x l) now r result := by
  constructor
  · rintro ⟨l₁, now, l₂, result, hl, hret⟩
    rcases List.eq_nil_or_concat l₂ with rfl | ⟨l₂, b, rfl⟩
    · obtain ⟨rfl, ha⟩ := List.append_inj' hl rfl
      exact Or.inr ⟨now, result, (List.cons.inj ha).1, hret⟩
    · rw [List.concat_eq_append, ← List.cons_append, ← List.append_assoc] at hl
      obtain ⟨rfl, -⟩ := List.append_inj' hl rfl
      exact Or.inl ⟨l₁, now, l₂, result, rfl, hret⟩
  · rintro (⟨l₁, now, l₂, result, rfl, hret⟩ | ⟨now, result, rfl, hret⟩)
    · exact ⟨l₁, now, l₂ ++ [a], result, by simp, hret⟩
    · exact ⟨l, now, [], result, rfl, hret⟩

theorem not_completed (h : ∀ now, Step.finalize now r ∉ l) : ¬Completed sha256 x r l := by
  rintro ⟨l₁, now, l₂, result, rfl, -⟩
  exact h now (by simp)

theorem submitted_concat : submitted r (l ++ [a]) = submitted r l ++ submitted r [a] := List.filterMap_append

/-- A step about another round. -/
theorem submitted_other (h : a.roundId ≠ r) : submitted r [a] = [] := by
  cases a with
  | submit r' p v => simp [submitted, show r' ≠ r from h]
  | initiate r' q => rfl
  | finalize now r' => rfl

/-- A round is open, with what has been submitted to it, until it is completed. -/
theorem round_of_run (sha256 : String → BitVec 256) (x : MpcAnalyticsEngine) (request : MpAnalyticsRequest)
    (hno : ∀ q, Step.initiate r q ∉ l) :
    let x₀ := x.initiateComputation r request
    ¬Completed sha256 x₀ r l ∧ (run sha256 x₀ l).rounds r = some (opened r request (submitted r l)) ∨
      Completed sha256 x₀ r l ∧ ∃ round, (run sha256 x₀ l).rounds r = some round ∧ round.completed = true := by
  intro x₀
  induction l using List.reverseRecOn with
  | nil =>
    exact Or.inl ⟨not_completed fun now => List.not_mem_nil, Function.update_self ..⟩
  | append_singleton l a ih =>
    have hno' : ∀ q, Step.initiate r q ∉ l := fun q hq => hno q (List.mem_append_left _ hq)
    rw [run_concat, completed_concat, submitted_concat]
    by_cases ha : a.roundId = r
    · cases a with
      | initiate r' q =>
        obtain rfl : r' = r := ha
        exact absurd (List.mem_append_right _ (List.mem_singleton_self _)) (hno q)
      | submit r' p v =>
        obtain rfl : r' = r := ha
        have hone : submitted r' [.submit r' p v] = [(p, v)] := by simp [submitted]
        rcases ih hno' with ⟨hnot, hround⟩ | ⟨hcompleted, round, hround, hc⟩
        · refine Or.inl ⟨by simpa using hnot, ?_⟩
          rw [exec, submit_opened hround, hone]
        · refine Or.inr ⟨Or.inl hcompleted, round, ?_, hc⟩
          rw [exec, submit_completed hround hc]
          exact hround
      | finalize now r' =>
        obtain rfl : r' = r := ha
        have hnone : submitted r' [.finalize now r'] = [] := rfl
        rw [hnone, List.append_nil]
        rcases ih hno' with ⟨hnot, hround⟩ | ⟨hcompleted, round, hround, hc⟩
        · by_cases hret : ∃ result, Returns sha256 (run sha256 x₀ l) now r' result
          · obtain ⟨result, hret⟩ := hret
            refine Or.inr ⟨Or.inr ⟨now, result, rfl, hret⟩, ?_⟩
            obtain ⟨ht, value, hvalue, -⟩ := (returns_opened hround).1 hret
            refine ⟨{ opened r' request (submitted r' l) with
              completed := true
              result := some (resultOf sha256 now (opened r' request (submitted r' l)) value) }, ?_, rfl⟩
            rw [exec, finalize_opened hround, if_neg (not_lt.2 ht), hvalue]
            exact Function.update_self ..
          · refine Or.inl ⟨?_, ?_⟩
            · rintro (h | ⟨now', result, he, h⟩)
              · exact hnot h
              · obtain ⟨rfl, -⟩ := Step.finalize.inj he
                exact hret ⟨result, h⟩
            · rw [exec]
              rcases hfin : (run sha256 x₀ l).finalizeComputation sha256 now r' with e | ⟨_ | result, y⟩
              · exact hround
              · rw [finalize_opened hround] at hfin
                split_ifs at hfin with ht
                · obtain rfl := congrArg Prod.snd (Except.ok.inj hfin)
                  exact hround
                · split at hfin
                  · cases hfin
                  · cases hfin
              · exact absurd ⟨result, y, hfin⟩ hret
        · refine Or.inr ⟨Or.inl hcompleted, round, ?_, hc⟩
          rw [exec, finalize_completed hround hc]
          exact hround
    · have hstep : ∀ now, a ≠ .finalize now r := by
        rintro now rfl
        exact ha rfl
      rw [exec_other ha, submitted_other ha, List.append_nil]
      rcases ih hno' with ⟨hnot, hround⟩ | ⟨hcompleted, hround⟩
      · refine Or.inl ⟨?_, hround⟩
        rintro (h | ⟨now, result, he, -⟩)
        · exact hnot h
        · exact hstep now he
      · exact Or.inr ⟨Or.inl hcompleted, hround⟩

/-- The shares have to be numbers. -/
def MpAnalyticsRequest.ReadsShares (request : MpAnalyticsRequest) : Prop :=
  request.analyticsType = .sum ∨ request.analyticsType = .average

theorem resultValue_isSome : (∃ value, resultValue request (collect subs) = some value) ↔
    (request.ReadsShares → Readable subs) := by
  have hagg : (∃ s, aggregateShares (collect subs) = some s) ↔ Readable subs := by
    rw [readable_iff]
    constructor
    · rintro ⟨s, hs⟩
      exact (aggregateShares_eq_some.1 hs).1
    · exact fun h => ⟨_, aggregateShares_eq_some.2 ⟨h, rfl⟩⟩
  rw [resultValue, MpAnalyticsRequest.ReadsShares]
  cases request.analyticsType <;> simp [← hagg, Option.map_eq_some_iff]

/-- **When a round is completed**: nobody has completed it before, as many parties have submitted as the
    threshold asks for, however often each, and the last share of each is a number where shares are added. -/
theorem finalize_iff (x : MpcAnalyticsEngine) (request : MpAnalyticsRequest) (now : ℤ)
    (hno : ∀ q, Step.initiate r q ∉ l) :
    (∃ result, Returns sha256 (run sha256 (x.initiateComputation r request) l) now r result) ↔
      ¬Completed sha256 (x.initiateComputation r request) r l ∧
        request.threshold ≤ (parties (submitted r l)).card ∧
        (request.ReadsShares → Readable (submitted r l)) := by
  rcases round_of_run sha256 x request hno with
    ⟨hnot, hround⟩ | ⟨hcompleted, round, hround, hc⟩
  · rw [and_iff_right hnot, ← resultValue_isSome]
    constructor
    · rintro ⟨result, hret⟩
      obtain ⟨ht, value, hvalue, -⟩ := (returns_opened hround).1 hret
      exact ⟨ht, value, hvalue⟩
    · rintro ⟨ht, value, hvalue⟩
      exact ⟨_, (returns_opened hround).2 ⟨ht, value, hvalue, rfl⟩⟩
  · refine iff_of_false ?_ fun h => h.1 hcompleted
    rintro ⟨result, hret⟩
    exact returns_completed hround hc hret

/-- A round that returns a result is open. -/
theorem opened_of_returns (x : MpcAnalyticsEngine) (hno : ∀ q, Step.initiate r q ∉ l)
    (h : Returns sha256 (run sha256 (x.initiateComputation r request) l) now r result) :
    ∃ value, resultValue request (collect (submitted r l)) = some value ∧
      resultOf sha256 now (opened r request (submitted r l)) value = result := by
  rcases round_of_run sha256 x request hno with ⟨-, hround⟩ | ⟨-, round, hround, hc⟩
  · exact ((returns_opened hround).1 h).2
  · exact absurd h (returns_completed hround hc)

/-- **The sum is that of the last share of every party**, up to multiples of the modulus, and reduced if no
    share is negative; the parties that are named have submitted, and each is named once. -/
theorem sum_completed (x : MpcAnalyticsEngine) (hno : ∀ q, Step.initiate r q ∉ l)
    (h : Returns sha256 (run sha256 (x.initiateComputation r request) l) now r result)
    (htype : request.analyticsType = .sum) :
    (result.partiesInvolved.Nodup ∧ result.partiesInvolved.toFinset = parties (submitted r l)) ∧
      ∃ s, result.result = toString s ∧
        s ≡ ∑ p ∈ parties (submitted r l), valueOf (submitted r l) p [ZMOD fieldPrime] ∧
        ((∀ p ∈ parties (submitted r l), 0 ≤ valueOf (submitted r l) p) →
          s = (∑ p ∈ parties (submitted r l), valueOf (submitted r l) p) % fieldPrime) := by
  obtain ⟨value, hvalue, rfl⟩ := opened_of_returns x hno h
  have hperm : ((collect (submitted r l)).map (·.1)).Perm (sortStrings ((collect (submitted r l)).map (·.1))) :=
    (List.mergeSort_perm _ _).symm
  refine ⟨⟨hperm.nodup_iff.1 nodup_collect, ?_⟩, ?_⟩
  · rw [← toFinset_collect]
    exact (List.toFinset_eq_of_perm _ _ hperm).symm
  rw [resultValue, htype] at hvalue
  obtain ⟨s, hs, rfl⟩ := Option.map_eq_some_iff.1 hvalue
  obtain ⟨-, hreduce⟩ := aggregateShares_eq_some.1 hs
  refine ⟨s, rfl, ?_, fun hpos => ?_⟩
  · rw [← hreduce, ← sum_collect]
    exact reduce_modEq _
  · rw [← hreduce, ← sum_collect]
    refine reduce_nonneg ?_
    rintro _ ha
    obtain ⟨q, hq, rfl⟩ := List.mem_map.1 ha
    have hlast := mem_collect.1 hq
    have := hpos q.1 (lastShare_isSome.1 (by rw [hlast]; rfl))
    rw [valueOf, hlast] at this
    exact this

/-- The last shares are the same. -/
theorem perm_collect {subs' : List (String × String)} (h : ∀ p, lastShare subs p = lastShare subs' p) :
    (collect subs).Perm (collect subs') := by
  refine (List.perm_ext_iff_of_nodup nodup_collect.of_map nodup_collect.of_map).2 fun q => ?_
  rw [mem_collect, mem_collect, h]

theorem aggregateShares_congr {subs' : List (String × String)} (h : ∀ p, lastShare subs p = lastShare subs' p)
    (hpos : ∀ p ∈ parties subs, 0 ≤ valueOf subs p) :
    aggregateShares (collect subs) = aggregateShares (collect subs') := by
  have hperm := perm_collect h
  have hnonneg : ∀ a ∈ (collect subs).map fun q => (bigInt q.2).getD 0, 0 ≤ a := by
    rintro _ ha
    obtain ⟨q, hq, rfl⟩ := List.mem_map.1 ha
    have hlast := mem_collect.1 hq
    have := hpos q.1 (lastShare_isSome.1 (by rw [hlast]; rfl))
    rw [valueOf, hlast] at this
    exact this
  have hreduce : reduce ((collect subs).map fun q => (bigInt q.2).getD 0) =
      reduce ((collect subs').map fun q => (bigInt q.2).getD 0) := by
    rw [reduce_nonneg hnonneg, reduce_nonneg fun a ha => hnonneg a ((hperm.map _).mem_iff.2 ha),
      (hperm.map _).sum_eq]
  refine Option.ext fun s => ?_
  rw [aggregateShares_eq_some, aggregateShares_eq_some, hreduce]
  refine and_congr_left fun _ => forall_congr' fun q => ?_
  rw [hperm.mem_iff]

/-- **It does not matter in which order the parties have come**, or what they had submitted before: of two
    runs with the same last shares, none of them negative, one gives the result that the other gives. -/
theorem order_irrelevant (x x' : MpcAnalyticsEngine) (now : ℤ) (result : MpAnalyticsResult)
    (hno : ∀ q, Step.initiate r q ∉ l) (hno' : ∀ q, Step.initiate r q ∉ l')
    (hopen : ¬Completed sha256 (x.initiateComputation r request) r l)
    (hopen' : ¬Completed sha256 (x'.initiateComputation r request) r l')
    (hlast : ∀ p, lastShare (submitted r l) p = lastShare (submitted r l') p)
    (hpos : ∀ p ∈ parties (submitted r l), 0 ≤ valueOf (submitted r l) p) :
    Returns sha256 (run sha256 (x.initiateComputation r request) l) now r result ↔
      Returns sha256 (run sha256 (x'.initiateComputation r request) l') now r result := by
  have hround := ((round_of_run sha256 x request hno).resolve_right fun h => hopen h.1).2
  have hround' := ((round_of_run sha256 x' request hno').resolve_right fun h => hopen' h.1).2
  have hperm := perm_collect hlast
  have hcard : (parties (submitted r l)).card = (parties (submitted r l')).card := by
    rw [← length_collect, ← length_collect, hperm.length_eq]
  have hvalue : resultValue request (collect (submitted r l)) = resultValue request (collect (submitted r l')) := by
    rw [resultValue, resultValue, aggregateShares_congr hlast hpos]
  have hresult : ∀ value, resultOf sha256 now (opened r request (submitted r l)) value =
      resultOf sha256 now (opened r request (submitted r l')) value := by
    intro value
    simp only [resultOf, opened, sortStrings_eq (hperm.map _)]
  rw [returns_opened hround, returns_opened hround', hcard, hvalue]
  simp only [hresult]

end

/-! ## Rounds of two parties -/

def noRounds : MpcAnalyticsEngine := ⟨fun _ => none⟩

def sumRequest : MpAnalyticsRequest := ⟨.sum, [1, 2], [⟨"a", 0, "5", 2, 2⟩]⟩

/-- A party submits again. -/
def resubmitted : List Step := [.submit "r" "a" "5", .submit "r" "b" "15", .submit "r" "a" "7"]

/-- The other comes first. -/
def reordered : List Step := [.submit "r" "b" "15", .submit "r" "a" "7"]

/-- Two shares of one party are not enough. -/
theorem finalize_iff_alone : ¬∃ result, Returns (fun _ => 0) (run (fun _ => 0)
    (noRounds.initiateComputation "r" sumRequest) [.submit "r" "a" "5", .submit "r" "a" "7"]) 9 "r" result := by
  rw [finalize_iff noRounds sumRequest 9 (by simp)]
  rintro ⟨-, hcard, -⟩
  exact absurd hcard (by decide +kernel)

theorem returns_resubmitted : ∃ result, Returns (fun _ => 0) (run (fun _ => 0)
    (noRounds.initiateComputation "r" sumRequest) resubmitted) 9 "r" result := by
  have hno : ∀ q, Step.initiate "r" q ∉ resubmitted := by simp [resubmitted]
  have hround := ((round_of_run (fun _ => 0) noRounds sumRequest hno).resolve_right fun h =>
    not_completed (by simp [resubmitted]) h.1).2
  refine ⟨_, (returns_opened hround).2 ⟨by decide +kernel, "22", by decide +kernel, rfl⟩⟩

theorem sum_completed_resubmitted : ∃ result s, Returns (fun _ => 0) (run (fun _ => 0)
    (noRounds.initiateComputation "r" sumRequest) resubmitted) 9 "r" result ∧
      result.result = toString (s : ℤ) ∧ s = 22 := by
  obtain ⟨result, hret⟩ := returns_resubmitted
  obtain ⟨-, s, hs, -, hsum⟩ := sum_completed noRounds (by simp [resubmitted]) hret rfl
  refine ⟨result, s, hret, hs, ?_⟩
  rw [hsum (by decide +kernel)]
  decide +kernel

theorem order_irrelevant_reordered : ∃ result, Returns (fun _ => 0) (run (fun _ => 0)
    (noRounds.initiateComputation "r" sumRequest) reordered) 9 "r" result := by
  obtain ⟨result, hret⟩ := returns_resubmitted
  have hlast : ∀ p, lastShare (submitted "r" resubmitted) p = lastShare (submitted "r" reordered) p := by
    intro p
    have h₁ : submitted "r" resubmitted = [("a", "5"), ("b", "15"), ("a", "7")] := by decide +kernel
    have h₂ : submitted "r" reordered = [("b", "15"), ("a", "7")] := by decide +kernel
    rw [h₁, h₂, lastShare, lastShare]
    by_cases ha : "a" = p <;> by_cases hb : "b" = p <;> simp [ha, hb]
  exact ⟨result, (order_irrelevant noRounds noRounds 9 result (by simp [resubmitted]) (by simp [reordered])
    (not_completed (by simp [resubmitted])) (not_completed (by simp [reordered])) hlast (by decide +kernel)).1 hret⟩

end Mpc
