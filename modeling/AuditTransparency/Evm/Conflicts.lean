/-
  CrossChainSync — conflicting reports.

  Two kinds of records can be in conflict: the root of a checkpoint and the hash of an event.
  A conflict does not say which kind it is about; `raised` reads it off the calls that have
  raised them.

  A report that contradicts a registered hash is only recorded as a conflict, which the owner
  resolves.  A report that contradicts a checkpoint replaces it all the same, and what the owner
  then resolves is the hash.  So conflicts are settled by resolution in exactly the runs where
  no checkpoint is contradicted (`run_settled`).
-/
import AuditTransparency.Evm.Checkpoints

namespace CrossChainSync

open Soroban (Run filterMap_concat)
open Solidity
open Solidity.Tx

variable {W : Type}

/-- What a relayer reports. -/
inductive Kind where
  | checkpoint
  | eventHash
  deriving DecidableEq

namespace Chain

/-- What is on record. -/
def value (x : Chain W) (i : UInt32) : Kind → W
  | .checkpoint => (x.history i).merkleRoot
  | .eventHash => x.eventHashes i

variable {x : Chain W} {now : ℕ} {i j : UInt32} {kind : Kind}

theorem value_resolve {k : ℕ} {v : W} (h : j = i → kind ≠ .eventHash) :
    (x.resolve k i v).value j kind = x.value j kind := by
  cases kind with
  | checkpoint => rfl
  | eventHash =>
    have hj : j ≠ i := fun hj => h hj rfl
    simp only [value, Chain.resolve, Function.update_of_ne hj]

theorem value_resolve_self {k : ℕ} {v : W} : (x.resolve k i v).value i .eventHash = v := by
  simp only [value, Chain.resolve, Function.update_self]

section
variable [Zero W]

/-- There is something on record. -/
def Held (x : Chain W) (i : UInt32) : Kind → Prop
  | .checkpoint => x.Recorded i
  | .eventHash => x.eventHashes i ≠ 0

theorem value_checkpoint [DecidableEq W] {cp : Checkpoint W}
    (hcon : ¬x.Contradicts cp.eventIndex cp.merkleRoot) (h : x.Held j kind) :
    (x.checkpoint now cp).value j kind = x.value j kind := by
  rw [Chain.checkpoint, if_neg hcon]
  cases kind with
  | eventHash => rfl
  | checkpoint =>
    rcases eq_or_ne j cp.eventIndex with rfl | hj
    · have hroot : (x.history cp.eventIndex).merkleRoot = cp.merkleRoot := by
        by_contra hne
        exact hcon ⟨h, hne⟩
      simp only [value, Chain.store, Function.update_self, hroot]
    · simp only [value, Chain.store, Function.update_of_ne hj]

/-- The root of a checkpoint is the one reported last. -/
theorem value_checkpoint_self [DecidableEq W] {cp : Checkpoint W} :
    (x.checkpoint now cp).value cp.eventIndex .checkpoint = cp.merkleRoot := by
  rw [Chain.checkpoint]
  simp only [value, Chain.store, Function.update_self]

theorem value_register [DecidableEq W] {v : W} (h : x.Held j kind) :
    (x.register now i v).value j kind = x.value j kind := by
  rw [Chain.register]
  split_ifs with hdis
  · cases kind <;> rfl
  · cases kind with
    | checkpoint => rfl
    | eventHash =>
      rcases eq_or_ne j i with rfl | hj
      · have hv : x.eventHashes j = v := by
          by_contra hne
          exact hdis ⟨h, hne⟩
        simp only [value, Function.update_self, hv]
      · simp only [value, Function.update_of_ne hj]

end

end Chain

variable [Zero W] {s s' s₀ : Storage W} {p : Storage W × (Msg × Op W)} {c i : UInt32}
  {tr before after : List (Storage W × (Msg × Op W))}

/-- A checkpoint is recorded with another root than the one on record. -/
def Overwrites (p : Storage W × (Msg × Op W)) : Prop :=
  ∃ c i r t, p.2.2 = .recordCheckpoint c i r t ∧ (chainOf p.1 c).Contradicts i r

section
variable [DecidableEq W]

/-- The conflict that a call raises in a chain. -/
def raised? (c : UInt32) (p : Storage W × (Msg × Op W)) : Option Kind :=
  match p.2.2 with
  | .recordCheckpoint d i r _ => if d = c ∧ (chainOf p.1 d).Contradicts i r then some .checkpoint else none
  | .registerEventHash d i h => if d = c ∧ (chainOf p.1 d).Disputes i h then some .eventHash else none
  | _ => none

/-- The conflicts raised in a chain, in the order of their ids. -/
def raised (c : UInt32) (tr : List (Storage W × (Msg × Op W))) : List Kind := tr.filterMap (raised? c)

end

/-- A record that holds something is changed by the owner's resolution only, and a resolution changes the
    record that the conflict is about, and no other. -/
structure Settles [DecidableEq W] (before : List (Storage W × (Msg × Op W))) (p : Storage W × (Msg × Op W))
    (s' : Storage W) : Prop where
  kept : ∀ c i kind, (chainOf p.1 c).Held i kind → (chainOf s' c).value i kind ≠
    (chainOf p.1 c).value i kind →
    ∃ h, p.2.2 = .resolveSyncConflict c i h ∧ p.2.1.sender = p.1.owner
  settled : ∀ c i h k, p.2.2 = .resolveSyncConflict c i h → findPending p.1 c i = some k →
    ∃ kind, (raised c before)[k]? = some kind ∧ (chainOf s' c).value i kind = h ∧
      ∀ d j kind', (d, j, kind') ≠ (c, i, kind) → (chainOf s' d).value j kind' = (chainOf p.1 d).value j kind'

variable [DecidableEq W]

/-- Every call of a run settles what is in conflict by resolution. -/
def Settled (tr : List (Storage W × (Msg × Op W))) : Prop :=
  ∀ before p after, tr = before ++ p :: after → ∀ s', Steps exec p.1 p.2 s' → Settles before p s'

/-! ## Conflicts and what raised them -/

theorem raised_concat : raised c (tr ++ [p]) = raised c tr ++ (raised? c p).toList := filterMap_concat

/-- Conflicts are numbered in the order in which they were raised. -/
theorem conflictCount_step {p : Msg × Op W} (hs : Steps exec s p s') (c : UInt32) :
    (chainOf s' c).conflictCount = (chainOf s c).conflictCount + (raised? c (s, p)).toList.length := by
  obtain ⟨msg, o⟩ := p
  have hother : ∀ {d : UInt32} {x : Chain W}, chainOf s' = Function.update (chainOf s) d x →
      (x.conflictCount = (chainOf s d).conflictCount + (raised? d (s, msg, o)).toList.length) →
      (d ≠ c → raised? c (s, msg, o) = none) →
      (chainOf s' c).conflictCount = (chainOf s c).conflictCount + (raised? c (s, msg, o)).toList.length := by
    intro d x hchain hx hnone
    rw [hchain]
    rcases eq_or_ne c d with rfl | hd
    · rw [Function.update_self, hx]
    · rw [Function.update_of_ne hd, hnone hd.symm]
      rfl
  cases effect_of_step hs with
  | initiated _ hchain => exact hother hchain rfl fun _ => rfl
  | @recorded d i r t _ _ _ hchain =>
    refine hother hchain ?_ fun hd => by simp [raised?, hd]
    simp only [Chain.checkpoint, raised?, true_and]
    split_ifs <;> rfl
  | @registered d i h _ _ hchain =>
    refine hother hchain ?_ fun hd => by simp [raised?, hd]
    simp only [Chain.register, raised?, true_and]
    split_ifs <;> rfl
  | resolved _ _ _ hchain => exact hother hchain rfl fun _ => rfl
  | relayer _ hchain => rw [hchain]; rfl
  | paused _ hchain => rw [hchain]; rfl

theorem length_raised {l : List Address} {msg : Msg} (h₀ : (construct l).run msg {} = .ok ((), s₀))
    (h : Run (Steps exec) s₀ tr s) (c : UInt32) : (chainOf s c).conflictCount = (raised c tr).length := by
  induction h with
  | init => rw [chainOf_construct h₀]; rfl
  | snoc _ hs ih => rw [conflictCount_step hs, ih, raised_concat, List.length_append]

/-- Where no checkpoint is contradicted, all conflicts are about hashes. -/
theorem eventHash_of_raised (hC : ∀ q ∈ tr, ¬Overwrites q) {kind : Kind} (h : kind ∈ raised c tr) :
    kind = .eventHash := by
  obtain ⟨⟨s₁, msg, o⟩, hq, hkind⟩ := List.mem_filterMap.1 h
  cases o with
  | recordCheckpoint d i r t =>
    simp only [raised?] at hkind
    split_ifs at hkind with hcon
    exact absurd ⟨d, i, r, t, rfl, hcon.2⟩ (hC _ hq)
  | registerEventHash d i v =>
    simp only [raised?] at hkind
    split_ifs at hkind
    exact (Option.some.inj hkind).symm
  | _ => cases hkind

/-! ## Steps -/

/-- What a call that does not contradict a checkpoint does to the records. -/
theorem value_step (hs : Steps exec p.1 p.2 s') (hC : ¬Overwrites p) {kind : Kind}
    (hheld : (chainOf p.1 c).Held i kind) :
    (chainOf s' c).value i kind = (chainOf p.1 c).value i kind ∨
      kind = .eventHash ∧ ∃ h, p.2.2 = .resolveSyncConflict c i h ∧ p.2.1.sender = p.1.owner := by
  obtain ⟨s, msg, o⟩ := p
  cases effect_of_step hs with
  | initiated _ hchain =>
    exact .inl (eq_of_update (P := (·.value i kind)) hchain fun _ => by cases kind <;> rfl)
  | @recorded d j r t _ _ _ hchain =>
    have hcon : ¬(chainOf s d).Contradicts j r := fun hcon => hC ⟨d, j, r, t, rfl, hcon⟩
    exact .inl (eq_of_update (P := (·.value i kind)) hchain fun hd => Chain.value_checkpoint hcon
      (hd ▸ hheld))
  | registered _ hchain =>
    exact .inl (eq_of_update (P := (·.value i kind)) hchain fun hd => Chain.value_register (hd ▸ hheld))
  | @resolved d j h k _ howner _ _ hchain =>
    by_cases heq : c = d ∧ i = j ∧ kind = .eventHash
    · obtain ⟨rfl, rfl, rfl⟩ := heq
      exact .inr ⟨rfl, h, rfl, howner⟩
    · left
      rw [hchain]
      rcases eq_or_ne c d with rfl | hd
      · rw [Function.update_self, Chain.value_resolve fun hj hkind => heq ⟨rfl, hj, hkind⟩]
      · rw [Function.update_of_ne hd]
  | relayer _ hchain => exact .inl (by rw [hchain])
  | paused _ hchain => exact .inl (by rw [hchain])

/-- A resolution changes one hash. -/
theorem value_resolved {msg : Msg} {h : W} (hs : Steps exec s (msg, .resolveSyncConflict c i h) s') :
    (chainOf s' c).value i .eventHash = h ∧ ∀ d j kind, (d, j, kind) ≠ (c, i, Kind.eventHash) →
      (chainOf s' d).value j kind = (chainOf s d).value j kind := by
  cases effect_of_step hs with
  | resolved _ _ _ hchain =>
    rw [hchain]
    refine ⟨by rw [Function.update_self, Chain.value_resolve_self], ?_⟩
    intro d j kind hne
    rcases eq_or_ne d c with rfl | hd
    · rw [Function.update_self, Chain.value_resolve]
      rintro rfl rfl
      exact hne rfl
    · rw [Function.update_of_ne hd]

/-- A root that contradicts the one on record replaces it. -/
theorem not_settles_of_overwrites (hs : Steps exec p.1 p.2 s') (ho : Overwrites p) :
    ¬Settles before p s' := by
  obtain ⟨s, msg, o⟩ := p
  obtain ⟨c, i, r, t, rfl, hcon⟩ := ho
  intro hsettles
  have hroot : (chainOf s' c).value i .checkpoint = r := by
    cases effect_of_step hs with
    | recorded _ _ hchain => rw [hchain, Function.update_self]; exact Chain.value_checkpoint_self
  have hne : (chainOf s' c).value i .checkpoint ≠ (chainOf s c).value i .checkpoint := by
    rw [hroot]
    exact hcon.2.symm
  obtain ⟨v, hop, -⟩ := hsettles.kept c i .checkpoint hcon.1 hne
  cases hop

/-- **Conflicts are settled by resolution** in exactly the runs where no checkpoint is recorded with another
    root than the one on record. -/
theorem run_settled {l : List Address} {msg : Msg} (h₀ : (construct l).run msg {} = .ok ((), s₀))
    (h : Run (Steps exec) s₀ tr s) : Settled tr ↔ ∀ p ∈ tr, ¬Overwrites p := by
  constructor
  · intro hsettles p hp ho
    obtain ⟨before, after, rfl⟩ := List.append_of_mem hp
    obtain ⟨s₂, -, hs, -⟩ := h.split
    exact not_settles_of_overwrites hs ho (hsettles before p after rfl s₂ hs)
  · rintro hC before ⟨s₁, msg', o⟩ after rfl s₂ hs
    obtain ⟨-, hbefore, -, -⟩ := h.split
    refine ⟨?_, ?_⟩
    · intro c i kind hheld hne
      rcases value_step hs (hC _ (by simp)) hheld with heq | ⟨-, hres⟩
      · exact absurd heq hne
      · exact hres
    · rintro c i v k rfl hk
      obtain ⟨hmem, -⟩ := mem_unresolved_of_findPending hk
      have hlt : k < (raised c before).length := by
        rw [← length_raised h₀ hbefore]
        exact (Chain.mem_unresolved.1 hmem).1
      have hkind : (raised c before)[k] = .eventHash :=
        eventHash_of_raised (fun q hq => hC q (List.mem_append_left _ hq)) (List.getElem_mem hlt)
      obtain ⟨hself, hother⟩ := value_resolved hs
      exact ⟨.eventHash, by rw [List.getElem?_eq_getElem hlt, hkind], hself, hother⟩

/-! ## Reports -/

/-- Only a report changes a checkpoint. -/
theorem history_step {p : Msg × Op W} (hs : Steps exec s p s') :
    (chainOf s' c).history i = (chainOf s c).history i ∨
      ∃ r t, p.2 = .recordCheckpoint c i r t ∧ (chainOf s' c).value i .checkpoint = r := by
  obtain ⟨msg, o⟩ := p
  cases effect_of_step hs with
  | initiated _ hchain => exact .inl (eq_of_update (P := (·.history i)) hchain fun _ => rfl)
  | @recorded d j r t _ _ _ hchain =>
    by_cases hsame : c = d ∧ i = j
    · obtain ⟨rfl, rfl⟩ := hsame
      refine .inr ⟨r, t, rfl, ?_⟩
      rw [hchain, Function.update_self]
      exact Chain.value_checkpoint_self
    · refine .inl (eq_of_update (P := (·.history i)) hchain fun hd => ?_)
      have hi : i ≠ j := fun hi => hsame ⟨hd, hi⟩
      rw [Chain.checkpoint]
      split_ifs <;> exact Function.update_of_ne hi _ _
  | registered _ hchain =>
    refine .inl (eq_of_update (P := (·.history i)) hchain fun _ => ?_)
    rw [Chain.register]
    split_ifs <;> rfl
  | resolved _ _ _ hchain => exact .inl (eq_of_update (P := (·.history i)) hchain fun _ => rfl)
  | relayer _ hchain => exact .inl (by rw [hchain])
  | paused _ hchain => exact .inl (by rw [hchain])

/-- What is recorded was reported. -/
theorem reported_of_recorded {l : List Address} {msg : Msg} (h₀ : (construct l).run msg {} = .ok ((), s₀))
    (h : Run (Steps exec) s₀ tr s) (hrec : (chainOf s c).Recorded i) :
    ∃ p ∈ tr, ∃ t, p.2.2 = .recordCheckpoint c i ((chainOf s c).value i .checkpoint) t := by
  induction h with
  | init =>
    rw [chainOf_construct h₀] at hrec
    cases hrec
  | @snoc tr s s' p _ hs ih =>
    rcases history_step (c := c) (i := i) hs with heq | ⟨r, t, ho, hr⟩
    · rw [Chain.Recorded, heq] at hrec
      obtain ⟨q, hq, t, hqt⟩ := ih hrec
      refine ⟨q, List.mem_append_left _ hq, t, ?_⟩
      rw [hqt, Chain.value, Chain.value, heq]
    · exact ⟨(s, p), by simp, t, by rw [hr]; exact ho⟩

/-- Where the reports for one event all have one root, no checkpoint is contradicted. -/
theorem not_overwrites_of_agreeing {l : List Address} {msg : Msg}
    (h₀ : (construct l).run msg {} = .ok ((), s₀))
    (h : Run (Steps exec) s₀ tr s) (hagree : ∀ p ∈ tr, ∀ q ∈ tr, ∀ c i r t r' t',
      p.2.2 = .recordCheckpoint c i r t → q.2.2 = .recordCheckpoint c i r' t' → r = r') :
    ∀ p ∈ tr, ¬Overwrites p := by
  rintro ⟨s₁, msg', o⟩ hp ⟨c, i, r, t, ho, hrec, hne⟩
  obtain ⟨before, after, rfl⟩ := List.append_of_mem hp
  obtain ⟨-, hbefore, -, -⟩ := h.split
  obtain ⟨q, hq, t', hqt⟩ := reported_of_recorded h₀ hbefore hrec
  exact hne (hagree q (List.mem_append_left _ hq) _ hp c i _ t' r t hqt ho)

/-! ## A root that is replaced -/

/-- Two roots are recorded for one event, and the owner accepts the first. -/
def rootScript : List (Msg × Op ℕ) := [(⟨1, 0⟩, .recordCheckpoint 7 0 5 3),
    (⟨1, 0⟩, .recordCheckpoint 7 0 6 4),
  (⟨1, 0⟩, .resolveSyncConflict 7 0 5)]

/-- The second root replaces the first, and is still there after the resolution. -/
theorem root_replaced : ∃ s : Storage ℕ, (construct [] : Fn ℕ Unit).run ⟨1, 0⟩ {} = .ok ((), { owner := 1 }) ∧
    play exec { owner := 1 } rootScript = some s ∧ (chainOf s 7).value 0 .checkpoint = 6 ∧
      (chainOf s 7).value 0 .eventHash = 5 ∧
      raised 7 (traceOf exec { owner := 1 } rootScript) = [.checkpoint] ∧
      ¬Settled (traceOf exec { owner := 1 } rootScript) := by
  refine ⟨_, rfl, rfl, rfl, rfl, rfl, fun h => ?_⟩
  refine absurd (h [_] _ [_] rfl _ ⟨(), rfl⟩) (not_settles_of_overwrites ⟨(), rfl⟩ ?_)
  exact ⟨7, 0, 6, 4, rfl, rfl, by decide⟩

/-- Two hashes are reported for one event, and the owner accepts the second. -/
def disputeScript : List (Msg × Op ℕ) :=
  [(⟨1, 0⟩, .registerEventHash 7 0 5), (⟨1, 0⟩, .registerEventHash 7 0 6),
    (⟨1, 0⟩, .resolveSyncConflict 7 0 6)]

theorem run_settled_disputeScript : ∃ s : Storage ℕ,
    (construct [] : Fn ℕ Unit).run ⟨1, 0⟩ {} = .ok ((), { owner := 1 }) ∧
    play exec { owner := 1 } disputeScript = some s ∧ (chainOf s 7).value 0 .eventHash = 6 ∧
      Settled (traceOf exec { owner := 1 } disputeScript) := by
  refine ⟨_, rfl, rfl, rfl, ?_⟩
  obtain ⟨hrun, hmap⟩ := run_of_play (rfl : play exec { owner := 1 } disputeScript = some _)
  refine (run_settled (rfl : (construct [] : Fn ℕ Unit).run ⟨1, 0⟩ {} = .ok ((), { owner := 1 })) hrun).2 ?_
  rintro p hp ⟨c, i, r, t, ho, -⟩
  have hop : p.2 ∈ disputeScript := hmap ▸ List.mem_map_of_mem hp
  simp only [disputeScript, List.mem_cons, List.not_mem_nil, or_false] at hop
  rcases hop with hop | hop | hop <;> rw [hop] at ho <;> cases ho

end CrossChainSync
