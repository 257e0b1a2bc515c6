/-
  CarbonCredits — the books.

  `Books` is the registry as its purpose sees it: the status and the tonnes of every
  credit, and the three totals.  `Enters` says how an operation changes the books, and
  every step of the contract does so (`step_enters`).

  Books are `Balanced` when the totals are what the credits add up to.  Two operations
  can upset them: an issue under an id that is taken, and a verification, which makes a
  retired credit active again.

  * `enters_balanced`: an entry keeps the balance unless it is one of these two;
  * `history_retired`: retirement is final and accounted once in exactly the runs
    without them.
-/
import AuditTransparency.Carbon.Credits
import AuditTransparency.Ledger.Contract
import Mathlib.Algebra.BigOperators.Group.Finset.Basic
import Mathlib.Data.List.Nodup

namespace CarbonCredits

open Soroban
open Soroban.Call hiding loadPers storePers
open AuditLedger (openEnv account)

variable {D : Type} [DecidableEq D]

/-! ## Books -/

/-- The status and the tonnes of every credit, and the totals. -/
@[ext] structure Books (D : Type) where
  credits : D → Option (CreditStatus × ℕ)
  issued : ℕ
  retired : ℕ
  co2e : ℕ

namespace Books

/-- The credit is retired. -/
def Retired (b : Books D) (d : D) : Prop := (b.credits d).map Prod.fst = some .retired

instance (b : Books D) (d : D) : Decidable (b.Retired d) := inferInstanceAs (Decidable (_ = _))

/-- The tonnes of a credit. -/
def tonnes (b : Books D) (d : D) : ℕ := ((b.credits d).map Prod.snd).getD 0

/-- The totals are what the credits `ids` add up to, and there are no others. -/
structure Balanced (b : Books D) (ids : Finset D) : Prop where
  mem : ∀ d, d ∈ ids ↔ (b.credits d).isSome
  issued : b.issued = ids.card
  retired : b.retired = (ids.filter b.Retired).card
  co2e : b.co2e = ∑ d ∈ ids.filter b.Retired, b.tonnes d

/-- Enters a status and tonnes for `d`. -/
def enter (b : Books D) (d : D) (status : CreditStatus) (n : ℕ) : Books D :=
  { b with credits := Function.update b.credits d (some (status, n)) }

section
variable {b : Books D} {d e : D} {status : CreditStatus} {n : ℕ} {ids : Finset D}

theorem credits_enter_of_ne (h : e ≠ d) : (b.enter d status n).credits e = b.credits e :=
  Function.update_of_ne h ..

@[simp] theorem credits_enter_self : (b.enter d status n).credits d = some (status, n) :=
  Function.update_self ..

theorem retired_enter_of_ne (h : e ≠ d) : (b.enter d status n).Retired e ↔ b.Retired e := by
  rw [Retired, Retired, credits_enter_of_ne h]

theorem retired_enter_self : (b.enter d status n).Retired d ↔ status = .retired := by
  rw [Retired, credits_enter_self]
  simp

theorem tonnes_enter_of_ne (h : e ≠ d) : (b.enter d status n).tonnes e = b.tonnes e := by
  rw [tonnes, tonnes, credits_enter_of_ne h]

/-- The ids after an entry. -/
theorem isSome_enter : ((b.enter d status n).credits e).isSome ↔ e = d ∨ (b.credits e).isSome := by
  by_cases h : e = d
  · subst h; simp
  · rw [credits_enter_of_ne h]; simp [h]

/-- Nothing that is retired changes when a credit that is not is entered as not retired. -/
theorem filter_enter (hb : ¬b.Retired d) (hs : status ≠ .retired) :
    ids.filter (b.enter d status n).Retired = ids.filter b.Retired := by
  refine Finset.filter_congr fun e _ => ?_
  by_cases h : e = d
  · subst h
    rw [retired_enter_self]
    exact iff_of_false hs hb
  · exact retired_enter_of_ne h

/-- An entry that retires `d`. -/
theorem filter_retire (hd : d ∈ ids) :
    ids.filter (b.enter d .retired n).Retired = insert d (ids.filter b.Retired) := by
  ext e
  simp only [Finset.mem_filter, Finset.mem_insert]
  by_cases h : e = d
  · subst h
    simp [hd, retired_enter_self]
  · simp [h, retired_enter_of_ne h]

/-- An entry that takes `d` out of retirement. -/
theorem filter_revive : ids.filter (b.enter d .active n).Retired = (ids.filter b.Retired).erase d := by
  ext e
  simp only [Finset.mem_filter, Finset.mem_erase]
  by_cases h : e = d
  · subst h
    simp [retired_enter_self]
  · simp [h, retired_enter_of_ne h]

theorem sum_tonnes_enter {F : Finset D} (hd : d ∉ F) :
    ∑ e ∈ F, (b.enter d status n).tonnes e = ∑ e ∈ F, b.tonnes e :=
  Finset.sum_congr rfl fun _ he => tonnes_enter_of_ne fun h => hd (h ▸ he)

namespace Balanced

/-- An entry for a credit that is there. -/
theorem mem_enter (h : b.Balanced ids) (hd : d ∈ ids) (e : D) :
    e ∈ ids ↔ ((b.enter d status n).credits e).isSome := by
  rw [isSome_enter, ← h.mem e]
  constructor
  · exact .inr
  · rintro (rfl | he)
    · exact hd
    · exact he

omit [DecidableEq D] in
theorem notMem_filter (hr : ¬b.Retired d) : d ∉ ids.filter b.Retired :=
  fun h => hr (Finset.mem_filter.1 h).2

/-- A new credit. -/
theorem issue (h : b.Balanced ids) (hd : d ∉ ids) :
    Balanced { b.enter d .issued n with issued := b.issued + 1 } (insert d ids) := by
  have hr : ¬b.Retired d := by
    have hnone : b.credits d = none := by
      rw [h.mem] at hd
      exact Option.not_isSome_iff_eq_none.1 hd
    rw [Retired, hnone]
    exact nofun
  have hfilter : (insert d ids).filter (b.enter d .issued n).Retired = ids.filter b.Retired := by
    rw [Finset.filter_insert, if_neg (by rw [retired_enter_self]; exact nofun)]
    exact filter_enter hr nofun
  refine ⟨fun e => ?_, ?_, h.retired.trans (congrArg Finset.card hfilter.symm), ?_⟩
  · show e ∈ insert d ids ↔ ((b.enter d .issued n).credits e).isSome
    rw [isSome_enter, Finset.mem_insert, h.mem]
  · rw [Finset.card_insert_of_notMem hd]
    exact congrArg (· + 1) h.issued
  · show b.co2e = ∑ e ∈ (insert d ids).filter (b.enter d .issued n).Retired, (b.enter d .issued n).tonnes e
    rw [hfilter, sum_tonnes_enter (notMem_filter hr)]
    exact h.co2e

/-- A credit that is not retired becomes active. -/
theorem activate (h : b.Balanced ids) (hd : d ∈ ids) (hr : ¬b.Retired d) :
    (b.enter d .active n).Balanced ids := by
  have hfilter : ids.filter (b.enter d .active n).Retired = ids.filter b.Retired := filter_enter hr nofun
  refine ⟨h.mem_enter hd, h.issued, h.retired.trans (congrArg Finset.card hfilter.symm), ?_⟩
  rw [hfilter, sum_tonnes_enter (notMem_filter hr)]
  exact h.co2e

/-- It is retired. -/
theorem retire (h : b.Balanced ids) (hd : d ∈ ids) (hr : ¬b.Retired d) :
    Balanced { b.enter d .retired n with retired := b.retired + 1, co2e := b.co2e + n } ids := by
  have hfilter : ids.filter (b.enter d .retired n).Retired = insert d (ids.filter b.Retired) :=
    filter_retire hd
  refine ⟨h.mem_enter hd, h.issued, ?_, ?_⟩
  · show b.retired + 1 = (ids.filter (b.enter d .retired n).Retired).card
    rw [hfilter, Finset.card_insert_of_notMem (notMem_filter hr), h.retired]
  · show b.co2e + n = ∑ e ∈ ids.filter (b.enter d .retired n).Retired, (b.enter d .retired n).tonnes e
    have hn : (b.enter d .retired n).tonnes d = n := by
      rw [tonnes, credits_enter_self]
      rfl
    rw [hfilter, Finset.sum_insert (notMem_filter hr), hn, sum_tonnes_enter (notMem_filter hr), h.co2e,
      Nat.add_comm]

/-- An issue under an id that is taken counts a credit twice. -/
theorem not_reissue (h : b.Balanced ids) (hd : d ∈ ids) (ids' : Finset D) :
    ¬Balanced { b.enter d .issued n with issued := b.issued + 1 } ids' := by
  intro h'
  obtain rfl : ids' = ids := by
    ext e
    rw [h'.mem]
    exact (h.mem_enter hd e).symm
  have hcard : b.issued + 1 = ids'.card := h'.issued
  rw [h.issued] at hcard
  omega

/-- Making a retired credit active again leaves it in the totals. -/
theorem not_revive (h : b.Balanced ids) (hr : b.Retired d) (ids' : Finset D) :
    ¬(b.enter d .active n).Balanced ids' := by
  intro h'
  have hd : d ∈ ids := by
    rw [h.mem]
    rw [Retired] at hr
    rcases hc : b.credits d with _ | c
    · rw [hc] at hr; cases hr
    · rfl
  obtain rfl : ids' = ids := by
    ext e
    rw [h'.mem]
    exact (h.mem_enter hd e).symm
  have hcard : b.retired = (ids'.filter (b.enter d .active n).Retired).card := h'.retired
  have hmem : d ∈ ids'.filter b.Retired := Finset.mem_filter.2 ⟨hd, hr⟩
  rw [filter_revive, Finset.card_erase_of_mem hmem, h.retired] at hcard
  have := Finset.card_pos.2 ⟨d, hmem⟩
  omega

end Balanced

end

end Books

/-- The books of the contract. -/
def books (s : State D) : Books D where
  credits d := (s.persistent .carbonCredit d).map fun c => (c.status, c.carbonTonnes)
  issued := (s.persistent .creditCounter ()).getD 0
  retired := (s.persistent .retiredCount ()).getD 0
  co2e := (s.persistent .totalCo2eRetired ()).getD 0

/-! ## Entries -/

/-- How an operation that returns `r` changes the books. -/
inductive Enters (sha256 : Bytes → D) (env : Env) (s : State D) :
    Op D → Ret D → Books D → Books D → Prop where
  | issued {a n e o g k b} : Enters sha256 env s (.issueCarbonCredit a n e o g k)
      (.id (sha256 (creditText n a env.timestamp))) b
      { b.enter (sha256 (creditText n a env.timestamp)) .issued n with issued := b.issued + 1 }
  | verified {d a n b c} (hc : s.persistent .carbonCredit d = some c)
      (he : c.renewableSource.energyGeneratedMwh = n) :
      Enters sha256 env s (.verifyRenewableEnergy d a n) (.bool true) b (b.enter d .active c.carbonTonnes)
  | unverified {d a n b c} (hc : s.persistent .carbonCredit d = some c)
      (he : c.renewableSource.energyGeneratedMwh ≠ n) :
      Enters sha256 env s (.verifyRenewableEnergy d a n) (.bool false) b b
  | tokenized {d a n v i b} : Enters sha256 env s (.tokenizeCredit d a n v) (.id i) b b
  | transferred {d a a' x b} : Enters sha256 env s (.transferCredit d a a') (.bool x) b b
  | retired {d m b c} (hc : s.persistent .carbonCredit d = some c) (hs : c.status ≠ .retired) :
      Enters sha256 env s (.retireCredit d m) (.bool true) b
        { b.enter d .retired c.carbonTonnes with
          retired := b.retired + 1, co2e := b.co2e + c.carbonTonnes }
  | stillRetired {d m b c} (hc : s.persistent .carbonCredit d = some c) (hs : c.status = .retired) :
      Enters sha256 env s (.retireCredit d m) (.bool false) b b
  | registered {d m b} : Enters sha256 env s (.registerCredit d m) (.bool true) b b
  | linked {d k b} : Enters sha256 env s (.linkToStandard d k) (.bool true) b b

section
variable {sha256 : Bytes → D} {env : Env} {s s' : State D} {op : Op D} {r : Ret D}

theorem books_credits {d : D} {c : CarbonCredit D} (h : s.persistent .carbonCredit d = some c) :
    (books s).credits d = some (c.status, c.carbonTonnes) := by
  simp only [books, h, Option.map_some]

/-- Writing a credit is an entry of its status and tonnes. -/
theorem books_putCredit (s : State D) (d : D) (c : CarbonCredit D) :
    books (s.putPers .carbonCredit d c) = (books s).enter d c.status c.carbonTonnes := by
  ext1
  · funext e
    by_cases h : e = d
    · subst h
      simp [books]
    · rw [Books.credits_enter_of_ne h]
      simp [books, h]
  all_goals simp [books, Books.enter]

/-- Writing back a credit with the same status and tonnes changes nothing. -/
theorem books_rewritten {d : D} {c c' : CarbonCredit D} (h : s.persistent .carbonCredit d = some c)
    (hs : c'.status = c.status) (hn : c'.carbonTonnes = c.carbonTonnes) :
    books (s.putPers .carbonCredit d c') = books s := by
  rw [books_putCredit, hs, hn]
  ext1
  · funext e
    by_cases he : e = d
    · subst he
      rw [Books.credits_enter_self, books_credits h]
    · exact Books.credits_enter_of_ne he
  all_goals rfl

/-- A key the books do not read. -/
theorem books_putPers {f : CarbonCreditKey} (k : f.Key D) (v : f.Val D)
    (hf : f ∉ [.carbonCredit, .creditCounter, .retiredCount, .totalCo2eRetired]) :
    books (s.putPers f k v) = books s := by
  simp only [List.mem_cons, not_or] at hf
  obtain ⟨h₁, h₂, h₃, h₄, -⟩ := hf
  simp [books, Ne.symm h₁, Ne.symm h₂, Ne.symm h₃, Ne.symm h₄]

theorem books_putIssued (s : State D) (n : ℕ) :
    books (s.putPers .creditCounter () n) = { books s with issued := n } := by
  simp [books]

theorem books_putRetired (s : State D) (n : ℕ) :
    books (s.putPers .retiredCount () n) = { books s with retired := n } := by
  simp [books]

theorem books_putCo2e (s : State D) (n : ℕ) :
    books (s.putPers .totalCo2eRetired () n) = { books s with co2e := n } := by
  simp [books]

@[simp] theorem post_creditOf {d : D} {R : CarbonCredit D → State D → Prop} :
    Post (creditOf d) R env s ↔ ∀ c, s.persistent .carbonCredit d = some c → R c s := by
  simp [creditOf]

/-- **Every step of the contract is an entry in the books.** -/
theorem step_enters (h : (exec sha256 op).run env s = .ok (r, s')) :
    Enters sha256 env s op r (books s) (books s') := by
  refine Post.of_run (m := exec sha256 op) (Q := fun r s' =>
    Enters sha256 env s op r (books s) (books s')) ?_ h
  cases op with
  | issueCarbonCredit a n e o g k =>
    simp only [exec, issueCarbonCredit, post_bind, post_requireAuth, post_getEnv, post_storePers,
      post_loadPers, post_addChecked, post_pure]
    intro _ _
    rw [books_putIssued, books_putPers _ _ (by simp), books_putCredit]
    exact .issued
  | verifyRenewableEnergy d a n =>
    simp only [exec, verifyRenewableEnergy, post_bind, post_requireAuth, post_creditOf, post_ite,
      post_getEnv, post_storePers, post_pure]
    intro _ c hc
    refine ⟨fun he => .unverified hc he, fun he => ?_⟩
    rw [books_putCredit]
    exact Enters.verified (c := c) hc (not_not.1 he)
  | tokenizeCredit d a n v =>
    simp only [exec, tokenizeCredit, post_bind, post_requireAuth, post_creditOf, post_getEnv,
      post_addChecked, post_storePers, post_pure]
    intro _ c hc _
    rw [books_putPers _ _ (by simp), books_rewritten hc (by rfl) (by rfl)]
    exact .tokenized
  | transferCredit d a a' =>
    simp only [exec, transferCredit, post_bind, post_requireAuth, post_creditOf, post_ite,
      post_storePers, post_loadPers, post_pure]
    intro _ c hc
    refine ⟨fun _ => .transferred, fun _ => ?_⟩
    rw [books_putPers _ _ (by simp), books_rewritten hc (by rfl) (by rfl)]
    exact .transferred
  | retireCredit d m =>
    simp only [exec, retireCredit, post_bind, post_creditOf, post_ite, post_getEnv, post_storePers,
      post_loadPers, post_addChecked, post_pure]
    intro c hc
    refine ⟨fun hs => .stillRetired hc hs, fun hs _ _ => ?_⟩
    rw [books_putCo2e, books_putRetired, books_putCredit]
    exact Enters.retired (c := c) hc hs
  | registerCredit d m =>
    simp only [exec, registerCredit, post_bind, post_creditOf, post_getEnv, post_storePers, post_pure]
    intro c hc
    rw [books_putPers _ _ (by simp), books_rewritten hc (by rfl) (by rfl)]
    exact .registered
  | linkToStandard d k =>
    simp only [exec, linkToStandard, post_bind, post_creditOf, post_storePers, post_pure]
    intro c hc
    rw [books_rewritten hc (by rfl) (by rfl)]
    exact .linked

/-! ## The balance -/

/-- An issue enters a new credit. -/
def IssuesNew (sha256 : Bytes → D) (s : State D) (c : Env × Op D) : Prop :=
  match c.2 with
  | .issueCarbonCredit a n .. => s.persistent .carbonCredit (sha256 (creditText n a c.1.timestamp)) = none
  | _ => True

/-- A verification that succeeds is not of a retired credit. -/
def LeavesRetired (s : State D) (c : Env × Op D) : Prop :=
  match c.2 with
  | .verifyRenewableEnergy d _ n => ∀ k, s.persistent .carbonCredit d = some k → k.status = .retired →
    k.renewableSource.energyGeneratedMwh ≠ n
  | _ => True

/-- **What keeps the balance.** -/
theorem enters_balanced {ids : Finset D} (h : Enters sha256 env s op r (books s) (books s'))
    (hb : (books s).Balanced ids) :
    (∃ ids', (books s').Balanced ids') ↔ IssuesNew sha256 s (env, op) ∧ LeavesRetired s (env, op) := by
  have hmem : ∀ d, d ∈ ids ↔ (s.persistent .carbonCredit d).isSome := by
    intro d
    simp [hb.mem, books]
  have hret : ∀ d c, s.persistent .carbonCredit d = some c →
      ((books s).Retired d ↔ c.status = .retired) := by
    intro d c hc
    rw [Books.Retired, books_credits hc]
    simp
  generalize books s' = b' at h
  generalize books s = b at h hb hret
  cases h with
  | @issued a n e o g k =>
    have hnew : IssuesNew sha256 s (env, .issueCarbonCredit a n e o g k) ↔
        sha256 (creditText n a env.timestamp) ∉ ids := by
      rw [hmem, Bool.not_eq_true, Option.isSome_eq_false_iff, Option.isNone_iff_eq_none]
      rfl
    rw [hnew]
    constructor
    · rintro ⟨ids', hb'⟩
      exact ⟨fun hd => hb.not_reissue hd ids' hb', trivial⟩
    · rintro ⟨hd, -⟩
      exact ⟨_, hb.issue hd⟩
  | @verified d a n _ c hc he =>
    have hleaves : LeavesRetired s (env, .verifyRenewableEnergy d a n) ↔ ¬b.Retired d := by
      rw [hret d c hc]
      constructor
      · intro h hst
        exact h c hc hst he
      · intro h k hk hst
        rw [hc] at hk
        cases hk
        exact absurd hst h
    rw [hleaves]
    constructor
    · rintro ⟨ids', hb'⟩
      exact ⟨trivial, fun hr => hb.not_revive hr ids' hb'⟩
    · rintro ⟨-, hr⟩
      exact ⟨ids, hb.activate ((hmem d).2 (by rw [hc]; rfl)) hr⟩
  | @unverified d a n _ c hc he =>
    refine iff_of_true ⟨ids, hb⟩ ⟨trivial, fun k hk _ => ?_⟩
    rw [hc] at hk
    cases hk
    exact he
  | @retired d m _ c hc hs =>
    exact iff_of_true ⟨ids, hb.retire ((hmem d).2 (by rw [hc]; rfl)) (fun hr => hs ((hret d c hc).1 hr))⟩
      ⟨trivial, trivial⟩
  | tokenized | transferred | stillRetired | registered | linked =>
    exact iff_of_true ⟨ids, hb⟩ ⟨trivial, trivial⟩

/-- A retired credit stays retired. -/
theorem enters_retired {d : D} (h : Enters sha256 env s op r (books s) (books s'))
    (hnew : IssuesNew sha256 s (env, op)) (hleaves : LeavesRetired s (env, op))
    (hd : (books s).Retired d) : (books s').Retired d := by
  have hcredit : ∃ c, s.persistent .carbonCredit d = some c ∧ c.status = .retired := by
    simp only [Books.Retired, books, Option.map_map, Option.map_eq_some_iff] at hd
    exact hd
  obtain ⟨c, hc, hst⟩ := hcredit
  generalize books s' = b' at h
  generalize books s = b at h hd
  cases h with
  | @issued a n e o g k =>
    have hne : d ≠ sha256 (creditText n a env.timestamp) := by
      rintro rfl
      have hnone : s.persistent .carbonCredit (sha256 (creditText n a env.timestamp)) = none := hnew
      rw [hc] at hnone
      cases hnone
    exact (Books.retired_enter_of_ne hne).2 hd
  | @verified e a n _ c' hc' he =>
    have hne : d ≠ e := by
      rintro rfl
      rw [hc] at hc'
      cases hc'
      exact hleaves c hc hst he
    exact (Books.retired_enter_of_ne hne).2 hd
  | @retired e m _ c' =>
    by_cases hde : d = e
    · subst hde
      exact Books.retired_enter_self.2 rfl
    · exact (Books.retired_enter_of_ne hde).2 hd
  | unverified | tokenized | transferred | stillRetired | registered | linked => exact hd

end

/-! ## Issues -/

/-- What an issue computes the id from: tonnes, issuer and ledger time. -/
def issueOf (c : Env × Op D) : Option (ℕ × Address × ℕ) :=
  match c.2 with
  | .issueCarbonCredit a n .. => some (n, a, c.1.timestamp)
  | _ => none

/-- The issues of a trace, in order. -/
def issues (tr : List (State D × (Env × Op D))) : List (ℕ × Address × ℕ) :=
  tr.filterMap fun p => issueOf p.2

theorem issues_concat (tr : List (State D × (Env × Op D))) (s : State D) (c : Env × Op D) :
    issues (tr ++ [(s, c)]) = issues tr ++ (issueOf c).toList := filterMap_concat

/-- The id of an issue. -/
def issueId (sha256 : Bytes → D) (i : ℕ × Address × ℕ) : D := sha256 (creditText i.1 i.2.1 i.2.2)

/-- A strkey starts with a letter. -/
def Lettered (a : Address) : Prop := a.strkey.head?.map isDigit = some false

instance (a : Address) : Decidable (Lettered a) := inferInstanceAs (Decidable (_ = _))

/-- The text of an issue can be read back. -/
theorem creditText_injective {n n' ts ts' : ℕ} {a a' : Address} (ha : Lettered a) (ha' : Lettered a')
    (h : creditText n a ts = creditText n' a' ts') : n = n' ∧ a = a' ∧ ts = ts' := by
  obtain ⟨k, hk⟩ := a
  obtain ⟨k', hk'⟩ := a'
  cases k with
  | nil => cases ha
  | cons b x =>
    cases k' with
    | nil => cases ha'
    | cons c y =>
      simp only [Lettered, List.head?_cons, Option.map_some, Option.some.injEq] at ha ha'
      simp only [creditText, List.append_assoc, List.cons_append] at h
      obtain ⟨rfl, htail⟩ := decimal_append_inj ha ha' h
      have hsplit : (b :: x) ++ decimal ts = (c :: y) ++ decimal ts' := htail
      obtain ⟨hkey, htime⟩ := List.append_inj hsplit (hk.trans hk'.symm)
      exact ⟨rfl, by simp only [Address.mk.injEq]; exact hkey, decimal_injective htime⟩

variable {sha256 : Bytes → D} {s s' : State D} {tr : List (State D × (Env × Op D))}

omit [DecidableEq D] in
/-- Different issues have different ids. -/
theorem issueId_inj (hinj : Function.Injective sha256) {i j : ℕ × Address × ℕ} (hi : Lettered i.2.1)
    (hj : Lettered j.2.1) (h : issueId sha256 i = issueId sha256 j) : i = j := by
  obtain ⟨n, a, ts⟩ := i
  obtain ⟨n', a', ts'⟩ := j
  obtain ⟨hn, ha, hts⟩ := creditText_injective hi hj (hinj h)
  simp only [Prod.mk.injEq]
  exact ⟨hn, ha, hts⟩

/-- The credits are those that have been issued. -/
theorem credits_of_run (h : Run (Steps (exec sha256)) Ledger.empty tr s) (d : D) :
    (s.persistent .carbonCredit d).isSome ↔ d ∈ (issues tr).map (issueId sha256) := by
  induction h with
  | init => simp [issues, Ledger.empty, Store.empty]
  | @snoc tr s s' c _ hs ih =>
    obtain ⟨env, op⟩ := c
    obtain ⟨r, hr⟩ := hs
    have henters := step_enters hr
    have hsome : ∀ s : State D, ((books s).credits d).isSome = (s.persistent .carbonCredit d).isSome :=
      fun s => Option.isSome_map
    have hstays : ∀ {e st n}, (s.persistent .carbonCredit e).isSome →
        ((((books s).enter e st n).credits d).isSome ↔ ((books s).credits d).isSome) := by
      intro e st n he
      rw [Books.isSome_enter, or_iff_right_of_imp]
      rintro rfl
      rwa [hsome]
    rw [issues_concat, List.map_append, List.mem_append, ← ih, ← hsome s, ← hsome s']
    generalize books s' = b' at henters
    generalize hb : books s = b at henters hstays
    cases henters with
    | @issued a n e o g k =>
      have hlast : issueOf (env, Op.issueCarbonCredit (D := D) a n e o g k) =
          some (n, a, env.timestamp) := rfl
      rw [hlast, Option.toList_some, List.map_singleton, List.mem_singleton]
      show ((b.enter (sha256 (creditText n a env.timestamp)) .issued n).credits d).isSome ↔ _
      rw [Books.isSome_enter, or_comm]
      rfl
    | @verified e _ _ _ c hc =>
      rw [hstays (by rw [hc]; rfl)]
      simp [issueOf]
    | @retired e _ _ c hc =>
      show ((b.enter e .retired c.carbonTonnes).credits d).isSome ↔ _
      rw [hstays (by rw [hc]; rfl)]
      simp [issueOf]
    | _ => simp [issueOf]

/-- Every issue enters a new credit when no two of them agree. -/
theorem issuesNew_of_run (hinj : Function.Injective sha256)
    (h : Run (Steps (exec sha256)) Ledger.empty tr s) (hkey : ∀ i ∈ issues tr, Lettered i.2.1) :
    (∀ p ∈ tr, IssuesNew sha256 p.1 p.2) ↔ (issues tr).Nodup := by
  induction h with
  | init => simp [issues]
  | @snoc tr s s' c hr _ ih =>
    obtain ⟨env, op⟩ := c
    rw [issues_concat] at hkey ⊢
    simp only [List.forall_mem_append, List.forall_mem_singleton] at hkey ⊢
    rw [ih hkey.1, List.nodup_append]
    refine and_congr_right fun _ => ?_
    cases op with
    | issueCarbonCredit a n e o g k =>
      have hlast : issueOf (env, Op.issueCarbonCredit (D := D) a n e o g k) =
          some (n, a, env.timestamp) := rfl
      rw [hlast, Option.toList_some] at hkey ⊢
      have hmem : issueId sha256 (n, a, env.timestamp) ∈ (issues tr).map (issueId sha256) ↔
          (n, a, env.timestamp) ∈ issues tr := by
        constructor
        · intro hm
          obtain ⟨i, hi, heq⟩ := List.mem_map.1 hm
          rwa [← issueId_inj hinj (hkey.1 i hi) (hkey.2 _ (List.mem_singleton_self _)) heq]
        · exact fun hi => List.mem_map.2 ⟨_, hi, rfl⟩
      have hnew : IssuesNew sha256 s (env, .issueCarbonCredit a n e o g k) ↔
          (n, a, env.timestamp) ∉ issues tr := by
        rw [← hmem, ← credits_of_run hr, Bool.not_eq_true, Option.isSome_eq_false_iff,
          Option.isNone_iff_eq_none]
        rfl
      rw [hnew]
      simp only [List.nodup_singleton, true_and, List.mem_singleton]
      constructor
      · rintro hn i hi _ rfl rfl
        exact hn hi
      · intro hn hi
        exact hn _ hi _ rfl rfl
    | _ => simp [IssuesNew, issueOf]

/-! ## Runs -/

/-- The totals the contract keeps and reports are what its credits add up to. -/
def Accounted (s : State D) : Prop := ∃ ids : Finset D,
  (∀ d, d ∈ ids ↔ (s.persistent .carbonCredit d).isSome) ∧
  (∀ env, (getTotalCreditsIssued : Fn D ℕ).run env s = .ok (ids.card, s)) ∧
  (s.persistent .retiredCount ()).getD 0 = (ids.filter (books s).Retired).card ∧
  ∀ env, (getTotalRetiredCo2e : Fn D ℕ).run env s =
    .ok (∑ d ∈ ids.filter (books s).Retired, (books s).tonnes d, s)

theorem accounted_iff : Accounted s ↔ ∃ ids, (books s).Balanced ids := by
  refine exists_congr fun ids => ?_
  have hsome : ∀ d, ((books s).credits d).isSome = (s.persistent .carbonCredit d).isSome :=
    fun _ => Option.isSome_map
  have hissued : ∀ env, (getTotalCreditsIssued : Fn D ℕ).run env s = .ok ((books s).issued, s) :=
    fun _ => rfl
  have hco2e : ∀ env, (getTotalRetiredCo2e : Fn D ℕ).run env s = .ok ((books s).co2e, s) := fun _ => rfl
  simp only [hissued, hco2e, Except.ok.injEq, Prod.mk.injEq, and_true, ← hsome]
  constructor
  · rintro ⟨hmem, hi, hr, hc⟩
    exact ⟨hmem, hi (openEnv 0), hr, hc (openEnv 0)⟩
  · rintro ⟨hmem, hi, hr, hc⟩
    exact ⟨hmem, fun _ => hi, hr, fun _ => hc⟩

/-- `check_retirement_status` confirms the retirement of `d`. -/
def Confirmed (s : State D) (d : D) : Prop :=
  ∀ env, (checkRetirementStatus d : Fn D Bool).run env s = .ok (true, s)

theorem run_checkRetirementStatus {d : D} {c : CarbonCredit D} {env : Env}
    (hc : s.persistent .carbonCredit d = some c) :
    (checkRetirementStatus d : Fn D Bool).run env s = .ok (decide (c.status = .retired), s) := by
  have hrun : (creditOf d : Fn D (CarbonCredit D)).run env s = .ok (c, s) := by
    rw [creditOf, run_bind_ok _ _ (run_loadPers ..), hc]
    rfl
  rw [checkRetirementStatus, run_bind_ok _ _ hrun, run_pure]

theorem confirmed_of_retired {d : D} (h : (books s).Retired d) : Confirmed s d := by
  intro env
  simp only [Books.Retired, books, Option.map_map, Option.map_eq_some_iff] at h
  obtain ⟨c, hc, hst⟩ := h
  have hretired : c.status = .retired := hst
  rw [run_checkRetirementStatus hc, decide_eq_true hretired]

/-- Retirement is final, and accounted once. -/
structure FinalOnce (sha256 : Bytes → D) (tr : List (State D × (Env × Op D))) (s : State D) : Prop where
  accounted : (∀ p ∈ tr, Accounted p.1) ∧ Accounted s
  /-- what was retired stays so, and is not retired again -/
  final : ∀ before after s₁ s₂ env d m, tr = before ++ (s₁, (env, .retireCredit d m)) :: after →
    (exec sha256 (.retireCredit d m)).run env s₁ = .ok (.bool true, s₂) →
    ((∀ p ∈ after, Confirmed p.1 d) ∧ Confirmed s d) ∧
    ∀ p ∈ after, ∀ m' s', p.2.2 = .retireCredit d m' →
      (exec sha256 (.retireCredit d m')).run p.2.1 p.1 ≠ .ok (.bool true, s')

theorem balanced_empty : (books (Ledger.empty : State D)).Balanced ∅ where
  mem := by simp [books, Ledger.empty, Store.empty]
  issued := rfl
  retired := rfl
  co2e := rfl

/-- **Retirement is final and accounted once** if and only if no two issues of the run agree
    in tonnes, issuer and ledger time, and no successful verification is of a retired credit. -/
theorem history_retired (hinj : Function.Injective sha256)
    (h : Run (Steps (exec sha256)) Ledger.empty tr s) (hkey : ∀ i ∈ issues tr, Lettered i.2.1) :
    FinalOnce sha256 tr s ↔ (issues tr).Nodup ∧ ∀ p ∈ tr, LeavesRetired p.1 p.2 := by
  have haccounted : ((∀ p ∈ tr, Accounted p.1) ∧ Accounted s) ↔
      ∀ p ∈ tr, IssuesNew sha256 p.1 p.2 ∧ LeavesRetired p.1 p.2 := by
    refine Run.always_iff (C := fun s c => IssuesNew sha256 s c ∧ LeavesRetired s c) (I := Accounted)
      (P := fun _ _ => True) (J := fun _ => True) trivial (fun _ _ _ _ _ => trivial)
      (accounted_iff.2 ⟨∅, balanced_empty⟩) ?_ h fun _ _ => trivial
    rintro s c s' - ⟨r, hr⟩ - hs
    obtain ⟨ids, hb⟩ := accounted_iff.1 hs
    rw [accounted_iff]
    exact enters_balanced (step_enters hr) hb
  rw [← issuesNew_of_run hinj h hkey, ← forall₂_and]
  refine ⟨fun hf => haccounted.1 hf.accounted, fun hC => ⟨haccounted.2 hC, ?_⟩⟩
  intro before after s₁ s₂ env d m htr hr
  rw [htr] at h
  obtain ⟨s₂', -, hs, hafter⟩ := h.split
  obtain rfl := Steps.unique ⟨_, hr⟩ hs
  have hretired : (books s₂).Retired d := by
    have henters := step_enters hr
    generalize books s₂ = b at henters ⊢
    cases henters with
    | retired => exact Books.retired_enter_self.2 rfl
  have hstays : (∀ p ∈ after, (books p.1).Retired d) ∧ (books s).Retired d := by
    refine Run.always (C := fun s c => IssuesNew sha256 s c ∧ LeavesRetired s c)
      (I := fun s => (books s).Retired d) hretired ?_ hafter ?_
    · rintro s c s' ⟨hnew, hleaves⟩ ⟨r, hr⟩ hd
      exact enters_retired (step_enters hr) hnew hleaves hd
    · intro p hp
      exact hC p (by rw [htr]; simp [hp])
  refine ⟨⟨fun p hp => confirmed_of_retired (hstays.1 p hp), confirmed_of_retired hstays.2⟩, ?_⟩
  intro p hp m' s' hop hr
  have hd := hstays.1 p hp
  have henters := step_enters hr
  generalize books s' = b' at henters
  cases henters with
  | retired hc hs =>
    rw [Books.Retired, books_credits hc] at hd
    exact hs (Option.some.inj hd)

/-- A solar plant that has generated `mwh`. -/
def plant (mwh : ℕ) : RenewableEnergySource := ⟨.solar, [], [], 5, mwh, 0, []⟩

/-- No offset beyond the energy. -/
def noOffset : Offset := ⟨"none", [], 0, [], account 65, 0, 0⟩

/-- A registry. -/
def someRegistry : RegistryEntry := ⟨[], [], [], 0, account 65, .vcs⟩

/-- The issue of a credit by `A` at time `t`. -/
def issueAt (t n : ℕ) : Env × Op Bytes :=
  (openEnv t, .issueCarbonCredit (account 65) n (plant 20) noOffset someRegistry .vcs)

/-- Two credits, one of which is verified, tokenized and retired, and then transferred in vain. -/
def retiredScript : List (Env × Op Bytes) :=
  [issueAt 10 7, issueAt 11 7,
    (openEnv 12, .verifyRenewableEnergy (creditText 7 (account 65) 10) (account 66) 20),
    (openEnv 13, .tokenizeCredit (creditText 7 (account 65) 10) (account 65) 100 15),
    (openEnv 14, .retireCredit (creditText 7 (account 65) 10) []),
    (openEnv 15, .transferCredit (creditText 7 (account 65) 10) (account 65) (account 66)),
    (openEnv 16, .verifyRenewableEnergy (creditText 7 (account 65) 11) (account 66) 20)]

theorem history_retired_retiredScript :
    ∃ tr s, Run (Steps (exec (id : Bytes → Bytes))) Ledger.empty tr s ∧ tr.map Prod.snd = retiredScript ∧
      FinalOnce id tr s := by
  obtain ⟨s, hs⟩ : ∃ s, play (exec id) Ledger.empty retiredScript = some s :=
    Option.isSome_iff_exists.1 (by decide)
  let tr := traceOf (exec id) Ledger.empty retiredScript
  have hkey : ∀ i ∈ issues tr, Lettered i.2.1 := by decide
  have hnodup : (issues tr).Nodup := by decide
  have hverify : tr.all (fun p => match p.2.2 with
      | .verifyRenewableEnergy d _ n => (p.1.persistent .carbonCredit d).all fun k =>
          k.status ≠ .retired ∨ k.renewableSource.energyGeneratedMwh ≠ n
      | _ => true) = true := by decide
  refine ⟨tr, s, run_of_play hs, map_snd_traceOf hs,
    (history_retired Function.injective_id (run_of_play hs) hkey).2 ⟨hnodup, ?_⟩⟩
  intro p hp
  have h := List.all_eq_true.1 hverify p hp
  obtain ⟨s₁, env, op⟩ := p
  cases op with
  | verifyRenewableEnergy d a n =>
    intro k hk hst
    have hall : (s₁.persistent .carbonCredit d).all (fun k =>
        k.status ≠ .retired ∨ k.renewableSource.energyGeneratedMwh ≠ n) = true := h
    rw [hk] at hall
    exact (of_decide_eq_true hall).resolve_left (not_not.2 hst)
  | _ => trivial

/-- A credit is retired, and then verified. -/
def revivedScript : List (Env × Op Bytes) :=
  [issueAt 10 7, (openEnv 11, .retireCredit (creditText 7 (account 65) 10) []),
    (openEnv 12, .verifyRenewableEnergy (creditText 7 (account 65) 10) (account 66) 20)]

/-- A retired credit can be made active again. -/
theorem retired_credit_revived :
    ∃ tr s, Run (Steps (exec (id : Bytes → Bytes))) Ledger.empty tr s ∧
      (∀ i ∈ issues tr, Lettered i.2.1) ∧
      (checkRetirementStatus (creditText 7 (account 65) 10) : Fn Bytes Bool).run (openEnv 13) s =
        .ok (false, s) ∧
      ¬FinalOnce id tr s := by
  obtain ⟨s, hs⟩ : ∃ s, play (exec id) Ledger.empty revivedScript = some s :=
    Option.isSome_iff_exists.1 (by decide)
  have hkey : ∀ i ∈ issues (traceOf (exec id) Ledger.empty revivedScript), Lettered i.2.1 := by
    decide
  have hstatus : (play (exec id) Ledger.empty revivedScript).map (fun s =>
      (s.persistent .carbonCredit (creditText 7 (account 65) 10)).map (·.status)) =
        some (some .active) := by decide
  have hreturned : (play (exec id) Ledger.empty [issueAt 10 7]).map (fun s =>
      ((exec id (.retireCredit (creditText 7 (account 65) 10) [])).run (openEnv 11) s).toOption.map (·.1)) =
        some (some (.bool true)) := by decide
  rw [hs, Option.map_some, Option.some.injEq, Option.map_eq_some_iff] at hstatus
  obtain ⟨c, hc, hactive⟩ := hstatus
  have hcheck : (checkRetirementStatus (creditText 7 (account 65) 10) : Fn Bytes Bool).run (openEnv 13) s =
      .ok (false, s) := by
    rw [run_checkRetirementStatus hc, hactive]
    rfl
  refine ⟨_, s, run_of_play hs, hkey, hcheck, fun hf => ?_⟩
  obtain ⟨r₁, s₁, hissue, hrest⟩ := play_cons hs
  obtain ⟨r₂, s₂, hretire, -⟩ := play_cons hrest
  have hplay : play (exec id) Ledger.empty [issueAt 10 7] = some s₁ := by
    rw [play, hissue]
    rfl
  obtain rfl : r₂ = .bool true := by
    have hr : (exec id (.retireCredit (creditText 7 (account 65) 10) [])).run (openEnv 11) s₁ =
        .ok (r₂, s₂) := hretire
    rw [hplay, Option.map_some, hr] at hreturned
    exact Option.some.inj (Option.some.inj hreturned)
  have htr : traceOf (exec id) Ledger.empty revivedScript =
      [(Ledger.empty, issueAt 10 7)] ++
        (s₁, (openEnv 11, .retireCredit (creditText 7 (account 65) 10) [])) ::
          traceOf (exec id) s₂
            [(openEnv 12, .verifyRenewableEnergy (creditText 7 (account 65) 10) (account 66) 20)] := by
    rw [revivedScript, traceOf_cons hissue, traceOf_cons hretire]
    rfl
  have hconfirmed := (hf.final _ _ _ _ _ _ _ htr hretire).1.2 (openEnv 13)
  rw [hcheck] at hconfirmed
  cases hconfirmed

end CarbonCredits
