/-
  RwaOracle — what a round of consensus computes.

  The feeds that contribute to a price are the fresh and intact ones within the deviation cap of
  their median (`contributing`).  `runConsensus_eq` reads the function off these: the sort of the
  source finds the median, and its survivors are the feeds that contribute.
-/
import AuditTransparency.Oracle.Contract

namespace RwaOracle

open Soroban

variable {D : Type} [DecidableEq D]

/-! ## Feeds that contribute -/

/-- Fresh and intact. -/
def PriceFeed.valid (H : Host D) (now stalenessWindow : ℕ) (feed : PriceFeed D) : Bool :=
  !isFeedStale feed now stalenessWindow && (verifyFeedIntegrity H feed).1

/-- The element of rank `n / 2` of `n` prices. -/
def median (prices : List ℕ) : Option ℕ := (prices.insertionSort (· ≤ ·))[prices.length / 2]?

/-- The feeds within the deviation cap of the median of all of them. -/
def withinMedian (feeds : List (PriceFeed D)) : List (PriceFeed D) :=
  match median (feeds.map PriceFeed.price) with
  | some m => feeds.filter fun feed => withinCap m feed.price
  | none => []

/-- The feeds that contribute to the price of a round. -/
def contributing (H : Host D) (now stalenessWindow : ℕ) (feeds : List (PriceFeed D)) : List (PriceFeed D) :=
  withinMedian (feeds.filter (PriceFeed.valid H now stalenessWindow))

variable {H : Host D} {feeds : List (PriceFeed D)} {rep : PriceFeed D → ℕ} {now stalenessWindow quorum : ℕ}

omit [DecidableEq D] in
theorem withinMedian_sublist : (withinMedian feeds).Sublist feeds := by
  rw [withinMedian]
  split
  · exact List.filter_sublist
  · exact List.nil_sublist _

theorem contributing_sublist :
    (contributing H now stalenessWindow feeds).Sublist
    (feeds.filter (PriceFeed.valid H now stalenessWindow)) :=
  withinMedian_sublist

/-- One of the prices is the median, when there are any. -/
theorem median_isSome (prices : List ℕ) (h : prices ≠ []) : ∃ m ∈ prices, median prices = some m := by
  have hlen : prices.length / 2 < (prices.insertionSort (· ≤ ·)).length := by
    rw [List.length_insertionSort]
    exact Nat.div_lt_self (List.length_pos_iff.2 h) one_lt_two
  exact ⟨_, (List.mem_insertionSort _).1 (List.getElem_mem hlen), List.getElem?_eq_getElem hlen⟩

/-! ## The entries of the feeds -/

/-- What the round keeps of a feed. -/
def entry (rep : PriceFeed D → ℕ) (feed : PriceFeed D) : ℕ × ℕ × ℕ := (feed.price, feed.confidence, rep feed)

/-- The feeds that are fresh and intact. -/
def validFeeds (H : Host D) (feeds : List (PriceFeed D × ℕ)) (now stalenessWindow : ℕ) :
    List (PriceFeed D × ℕ) :=
  feeds.filter fun p => p.1.valid H now stalenessWindow

/-- What the round keeps of a feed with its reputation. -/
def scored (p : PriceFeed D × ℕ) : ℕ × ℕ × ℕ := (p.1.price, p.1.confidence, p.2)

/-- The reputations are looked up by position. -/
theorem validEntries_scored (scores : List (PriceFeed D × ℕ)) :
    validEntries H (scores.map Prod.fst) (scores.map Prod.snd) now stalenessWindow =
    (validFeeds H scores now stalenessWindow).map scored := by
  have hzip : (scores.map Prod.fst).zipIdx = scores.zipIdx.map fun q => (q.1.1, q.2) := List.zipIdx_map ..
  have hcongr : ∀ q ∈ scores.zipIdx, (fun q : (PriceFeed D × ℕ) × ℕ =>
      if isFeedStale q.1.1 now stalenessWindow then none
      else if !(verifyFeedIntegrity H q.1.1).1 then none
      else some (q.1.1.price, q.1.1.confidence, (scores.map Prod.snd)[q.2]?.getD 1)) q =
        ((fun p => if p.1.valid H now stalenessWindow then some (scored p) else none) ∘ Prod.fst) q := by
    rintro ⟨p, i⟩ hmem
    have hget : scores[i]? = some p := List.mem_zipIdx_iff_getElem?.1 hmem
    have hrep : (scores.map Prod.snd)[i]?.getD 1 = p.2 := by rw [List.getElem?_map, hget]; rfl
    simp only [Function.comp_apply, hrep, PriceFeed.valid, scored]
    split_ifs <;> simp_all
  rw [validEntries, hzip, List.filterMap_map]
  refine (List.filterMap_congr hcongr).trans ?_
  rw [← List.filterMap_map, List.zipIdx_map_fst, validFeeds, ← List.filterMap_eq_map, List.filterMap_filter]
  rfl

theorem validEntries_eq : validEntries H feeds (feeds.map rep) now stalenessWindow =
    (feeds.filter (PriceFeed.valid H now stalenessWindow)).map (entry rep) := by
  have hfst : (feeds.map fun feed => (feed, rep feed)).map Prod.fst = feeds := by
    rw [List.map_map]
    exact List.map_id feeds
  have hsnd : (feeds.map fun feed => (feed, rep feed)).map Prod.snd = feeds.map rep := List.map_map ..
  rw [← hsnd]
  nth_rewrite 1 [← hfst]
  rw [validEntries_scored, validFeeds, List.filter_map, List.map_map]
  rfl

/-! ## The round -/

/-- The price of the survivors, their mean confidence and their number. -/
def outcome (survivors : List (ℕ × ℕ × ℕ)) : ConsensusResult × ℕ × ℕ × ℕ :=
  let sums := survivors.foldl weigh (0, 0, 0)
  if survivors.isEmpty then (.deviationExceeded, 0, 0, 0)
  else if sums.1 = 0 then (.insufficientQuorum, 0, 0, 0)
  else (.accepted, sums.2.1 / sums.1, sums.2.2 / survivors.length, survivors.length)

/-- The entries within the deviation cap of the median of all of them. -/
def survivors (valid : List (ℕ × ℕ × ℕ)) : List (ℕ × ℕ × ℕ) :=
  match median (valid.map fun entry => entry.1) with
  | some m => valid.filter fun entry => withinCap m entry.1
  | none => []

/-- **The round, in terms of its entries.**  It panics for want of a median only. -/
theorem runConsensus_entries {reps : List ℕ} : runConsensus H feeds reps now stalenessWindow quorum =
    let valid := validEntries H feeds reps now stalenessWindow
    if valid.length < quorum then
      some (if valid.isEmpty && !feeds.isEmpty then (.allStale, 0, 0, 0) else (.insufficientQuorum, 0, 0, 0))
    else if valid.isEmpty then none
    else some (outcome (survivors valid)) := by
  rw [runConsensus]
  dsimp only
  generalize validEntries H feeds reps now stalenessWindow = valid
  rw [InsertionSort.sort_eq]
  by_cases hlen : valid.length < quorum
  · rw [if_pos hlen, if_pos hlen]
    split <;> rfl
  · rw [if_neg hlen, if_neg hlen]
    cases hvalid : valid with
    | nil =>
      rw [List.map_nil, List.insertionSort_nil]
      rfl
    | cons first rest =>
      obtain ⟨m, -, hm⟩ := median_isSome (valid.map fun entry => entry.1) (by simp [hvalid])
      have hm' := hm
      rw [median] at hm'
      rw [← hvalid, survivors, hm, if_neg (by simp [hvalid]), Option.bind_eq_bind, Option.bind_some,
        List.length_insertionSort, hm', Option.bind_eq_bind, Option.bind_some, outcome]
      dsimp only
      split_ifs <;> rfl

omit [DecidableEq D] in
theorem survivors_map_entry (valid : List (PriceFeed D)) :
    survivors (valid.map (entry rep)) = (withinMedian valid).map (entry rep) := by
  have hprices : (valid.map (entry rep)).map (fun entry => entry.1) = valid.map PriceFeed.price := by
    rw [List.map_map]
    rfl
  rw [survivors, withinMedian, hprices]
  cases median (valid.map PriceFeed.price) with
  | none => rfl
  | some m => exact List.filter_map ..

/-- The round, in terms of the feeds. -/
theorem runConsensus_eq : runConsensus H feeds (feeds.map rep) now stalenessWindow quorum =
    let valid := feeds.filter (PriceFeed.valid H now stalenessWindow)
    if valid.length < quorum then
      some (if valid.isEmpty && !feeds.isEmpty then (.allStale, 0, 0, 0) else (.insufficientQuorum, 0, 0, 0))
    else if valid.isEmpty then none
    else some (outcome ((contributing H now stalenessWindow feeds).map (entry rep))) := by
  rw [runConsensus_entries, validEntries_eq, contributing]
  simp only [survivors_map_entry, List.length_map, List.isEmpty_map]

/-- What an accepted round tells of the feeds. -/
structure Accepted (H : Host D) (feeds : List (PriceFeed D))
    (now stalenessWindow quorum count : ℕ) : Prop where
  quorum_le : quorum ≤ (feeds.filter (PriceFeed.valid H now stalenessWindow)).length
  nonempty : contributing H now stalenessWindow feeds ≠ []
  count_eq : count = (contributing H now stalenessWindow feeds).length

theorem accepted_of_runConsensus {price confidence count : ℕ}
    (h : runConsensus H feeds (feeds.map rep) now stalenessWindow quorum = some (.accepted, price,
      confidence, count)) :
    Accepted H feeds now stalenessWindow quorum count := by
  rw [runConsensus_eq] at h
  dsimp only at h
  split_ifs at h with hlen hall hvalid
  · cases h
  · cases h
  · rw [outcome] at h
    split_ifs at h with hempty hweight
    · cases h
    · cases h
    · simp only [List.isEmpty_map, List.isEmpty_iff, List.length_map] at hempty h
      cases h
      exact ⟨not_lt.1 hlen, hempty, rfl⟩

end RwaOracle
