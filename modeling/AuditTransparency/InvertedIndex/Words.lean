/-
  InvertedIndex — the words of metadata.

  What `extract_keywords` is documented to return is `keywordSpec`: the metadata is split into words,
  and the hashes of those that are accepted are taken.  The scan has room for 32 bytes of a word and
  does not notice when there are more, so it returns the hashes of the words cut to 32 bytes.

  * `extractKeywords_eq`: what the scan returns, for every byte string;
  * `extractKeywords_spec`: when that is what the specification says (`Harmless`).
-/
import AuditTransparency.InvertedIndex.Extraction
import Mathlib.Data.List.Induction

namespace InvertedIndex

open Soroban

/-! ## Specification -/

/-- Printable ASCII. -/
def isPrintable (b : UInt8) : Bool := 32 ≤ b ∧ b ≤ 126

/-- The printable bytes of a token, in lower case. -/
def letters (token : Bytes) : Bytes := (token.filter isPrintable).map toLower

/-- The words between the delimiters; there are none in an empty string. -/
def wordsIn (metadata : Bytes) : List Bytes :=
  if metadata = [] then [] else (metadata.splitOnP isDelimiter).map letters

/-- The word is long enough, short enough and no stop word. -/
def accepted (minLen maxLen : ℕ) (word : Bytes) : Bool :=
  minLen ≤ word.length ∧ word.length ≤ maxLen ∧ isStopWord word = false

section
variable {D : Type} [DecidableEq D] (sha256 : Bytes → D) (minLen maxLen maxKeywords : ℕ)

/-- The hashes of the accepted words. -/
def hashes (ws : List Bytes) : List D := (ws.filter (accepted minLen maxLen)).map (keywordHash sha256)

/-- **The specification**: the first `maxKeywords` different hashes. -/
def keywordSpec (metadata : Bytes) : List D :=
  (hashes sha256 minLen maxLen (wordsIn metadata)).eraseDups.take maxKeywords

/-! ## The scan -/

/-- The part of a word that fits the buffer. -/
def cut (word : Bytes) : Bytes := word.take 32

variable {sha256 minLen maxLen maxKeywords} {result : List D}

theorem flushToken_full (h : maxKeywords ≤ result.length) (token : Bytes) :
    flushToken sha256 minLen maxLen maxKeywords token result = result := if_pos h

theorem foldl_flushToken_full (h : maxKeywords ≤ result.length) (ws : List Bytes) :
    ws.foldl (fun r w => flushToken sha256 minLen maxLen maxKeywords w r) result = result := by
  induction ws with
  | nil => rfl
  | cons w ws ih => rw [List.foldl_cons, flushToken_full h, ih]

theorem letters_concat (token : Bytes) (b : UInt8) :
    letters (token ++ [b]) = letters token ++ (if isPrintable b then [toLower b] else []) := by
  rw [letters, letters, List.filter_append, List.map_append]
  congr 1
  by_cases hb : isPrintable b = true
  · rw [if_pos hb, List.filter_singleton, hb]
    rfl
  · rw [if_neg hb, List.filter_singleton]
    simp [hb]

/-- One more byte, as long as there is room. -/
theorem cut_concat (word : Bytes) (b : UInt8) :
    cut (word ++ [b]) = if (cut word).length < 32 then cut word ++ [b] else cut word := by
  simp only [cut, List.length_take]
  by_cases hlt : word.length < 32
  · rw [if_pos (by omega), List.take_of_length_le (by simp; omega),
      List.take_of_length_le (Nat.le_of_lt hlt)]
  · rw [if_neg (by omega), List.take_append_of_le_length (by omega)]

/-- The rest of the scan, with the raw bytes `acc` of the current token, most recent first. -/
theorem flush_scan (rest acc : Bytes) (result : List D) :
    flushToken sha256 minLen maxLen maxKeywords
      (scan sha256 minLen maxLen maxKeywords rest (cut (letters acc.reverse)) result).1
      (scan sha256 minLen maxLen maxKeywords rest (cut (letters acc.reverse)) result).2 =
    ((rest.splitOnPPrepend isDelimiter acc).map fun token => cut (letters token)).foldl
      (fun r w => flushToken sha256 minLen maxLen maxKeywords w r) result := by
  induction rest generalizing acc result with
  | nil => rw [List.splitOnPPrepend_nil]; rfl
  | cons b rest ih =>
    by_cases hd : isDelimiter b = true
    · rw [List.splitOnPPrepend_cons_pos hd, List.map_cons, List.foldl_cons, scan, if_pos hd]
      by_cases hfull : (flushToken sha256 minLen maxLen maxKeywords (cut (letters acc.reverse))
          result).length ≥ maxKeywords
      · rw [if_pos hfull, foldl_flushToken_full hfull, flushToken_full hfull]
      · rw [if_neg hfull]
        exact ih [] _
    · rw [List.splitOnPPrepend_cons_neg (by simpa using hd), ← ih, scan, if_neg hd, List.reverse_cons,
        letters_concat]
      by_cases hb : b < 32 ∨ b > 126
      · have hp : isPrintable b = false := by
          rw [isPrintable, decide_eq_false_iff_not]
          rcases hb with hb | hb
          · exact fun h => absurd hb (UInt8.not_lt.2 h.1)
          · exact fun h => absurd hb (UInt8.not_lt.2 h.2)
        rw [if_pos hb, hp, if_neg Bool.false_ne_true, List.append_nil]
      · have hp : isPrintable b = true := by
          rw [isPrintable, decide_eq_true_eq]
          exact ⟨UInt8.not_lt.1 fun h => hb (Or.inl h), UInt8.not_lt.1 fun h => hb (Or.inr h)⟩
        rw [if_neg hb, hp, if_pos rfl, cut_concat]
        by_cases hfull : result.length ≥ maxKeywords
        · have hrest := ih (b :: acc) result
          rw [foldl_flushToken_full hfull, List.reverse_cons, letters_concat, hp, if_pos rfl,
            cut_concat] at hrest
          rw [if_pos hfull, hrest]
          exact flushToken_full hfull _
        · rw [if_neg hfull]

/-- While there is room, the hash of an accepted word is added unless it is there. -/
theorem flushToken_room (h : result.length < maxKeywords) (w : Bytes) :
    flushToken sha256 minLen maxLen maxKeywords w result =
      if accepted minLen maxLen w = true ∧ keywordHash sha256 w ∉ result
      then result ++ [keywordHash sha256 w] else result := by
  have haccepted : accepted minLen maxLen w = true ↔
      minLen ≤ w.length ∧ w.length ≤ maxLen ∧ isStopWord w = false := decide_eq_true_iff
  rw [flushToken, if_neg (Nat.not_le_of_lt h)]
  by_cases hlen : w.length < minLen ∨ w.length > maxLen
  · rw [if_pos hlen, if_neg fun hw => ?_]
    have := haccepted.1 hw.1
    omega
  · rw [if_neg hlen]
    by_cases hstop : isStopWord w = true
    · rw [if_pos hstop, if_neg fun hw => ?_]
      rw [(haccepted.1 hw.1).2.2] at hstop
      cases hstop
    · rw [if_neg hstop]
      by_cases hmem : keywordHash sha256 w ∈ result
      · rw [if_pos hmem, if_neg fun hw => hw.2 hmem]
      · rw [if_neg hmem, if_pos ⟨haccepted.2 ⟨by omega, by omega, by simpa using hstop⟩, hmem⟩]

omit [DecidableEq D] in
theorem hashes_append (ws vs : List Bytes) :
    hashes sha256 minLen maxLen (ws ++ vs) =
      hashes sha256 minLen maxLen ws ++ hashes sha256 minLen maxLen vs := by
  rw [hashes, List.filter_append, List.map_append, hashes, hashes]

omit [DecidableEq D] in
theorem hashes_singleton (w : Bytes) :
    hashes sha256 minLen maxLen [w] =
      if accepted minLen maxLen w = true then [keywordHash sha256 w] else [] := by
  rw [hashes, List.filter_singleton]
  split_ifs with h
  · rw [h]; rfl
  · simp [h]

omit [DecidableEq D] in
theorem hashes_cons (w : Bytes) (ws : List Bytes) :
    hashes sha256 minLen maxLen (w :: ws) =
      (if accepted minLen maxLen w = true then [keywordHash sha256 w] else []) ++
        hashes sha256 minLen maxLen ws := by
  rw [← hashes_singleton, ← hashes_append, List.singleton_append]

/-- What a list keeps of one more entry. -/
theorem eraseDups_concat {α : Type} [BEq α] [LawfulBEq α] (l : List α) (d : α) :
    (l ++ [d]).eraseDups = if d ∈ l then l.eraseDups else l.eraseDups ++ [d] := by
  rw [List.eraseDups_append]
  split_ifs with hd
  · simp [List.removeAll, hd]
  · simp [List.removeAll, hd, List.eraseDups_cons]

/-- One word after the others. -/
theorem flushToken_take (ws : List Bytes) (w : Bytes) :
    flushToken sha256 minLen maxLen maxKeywords w
      ((hashes sha256 minLen maxLen ws).eraseDups.take maxKeywords) =
    (hashes sha256 minLen maxLen (ws ++ [w])).eraseDups.take maxKeywords := by
  rw [hashes_append, hashes_singleton]
  generalize hashes sha256 minLen maxLen ws = l
  by_cases hfull : maxKeywords ≤ l.eraseDups.length
  · rw [flushToken_full (by simp [hfull])]
    split_ifs
    · rw [eraseDups_concat]
      split_ifs
      · rfl
      · rw [List.take_append_of_le_length hfull]
    · rw [List.append_nil]
  · have hroom : l.eraseDups.length < maxKeywords := Nat.lt_of_not_le hfull
    rw [List.take_of_length_le (Nat.le_of_lt hroom), flushToken_room hroom]
    by_cases hw : accepted minLen maxLen w = true
    · rw [if_pos hw, eraseDups_concat]
      by_cases hmem : keywordHash sha256 w ∈ l
      · rw [if_neg (by simp [hmem]), if_pos hmem, List.take_of_length_le (Nat.le_of_lt hroom)]
      · rw [if_pos ⟨hw, by simpa using hmem⟩, if_neg hmem,
          List.take_of_length_le (by rw [List.length_append]; exact hroom)]
    · rw [if_neg hw, if_neg fun h => hw h.1, List.append_nil, List.take_of_length_le (Nat.le_of_lt hroom)]

/-- The words, one after the other. -/
theorem foldl_flushToken (ws : List Bytes) :
    ws.foldl (fun r w => flushToken sha256 minLen maxLen maxKeywords w r) [] =
      (hashes sha256 minLen maxLen ws).eraseDups.take maxKeywords := by
  induction ws using List.reverseRecOn with
  | nil => rw [hashes]; simp
  | append_singleton ws w ih => rw [List.foldl_append, ih, List.foldl_cons, List.foldl_nil, flushToken_take]

/-- **What `extract_keywords` returns.** -/
theorem extractKeywords_eq (metadata : Bytes) :
    extractKeywords sha256 minLen maxLen maxKeywords metadata =
      (hashes sha256 minLen maxLen ((wordsIn metadata).map cut)).eraseDups.take maxKeywords := by
  rw [extractKeywords, wordsIn]
  by_cases hempty : metadata = []
  · simp [hempty, hashes]
  · by_cases hmax : maxKeywords = 0
    · simp [hmax]
    · rw [if_neg (by simp [hempty, hmax]), if_neg hempty, ← foldl_flushToken, List.map_map]
      exact flush_scan metadata [] []

/-! ## Lists without repetition -/

/-- The new entries of a list. -/
theorem head?_removeAll (r l : List D) : (l.removeAll r).head? = l.find? (· ∉ r) := by
  rw [List.removeAll, List.head?_filter]
  refine congrArg (l.find? ·) (funext fun d => ?_)
  simp [List.elem_eq_contains]

/-- The first new entry comes after those that are there. -/
theorem getElem?_eraseDups_append (r l : List D) :
    (r ++ l).eraseDups[r.eraseDups.length]? = l.find? (· ∉ r) := by
  rw [List.eraseDups_append, List.getElem?_append_right le_rfl, Nat.sub_self, ← List.head?_eq_getElem?,
    ← head?_removeAll]
  cases l.removeAll r with
  | nil => rfl
  | cons d l => rw [List.eraseDups_cons]; rfl

/-- An entry that is there already, or is the next new one anyway. -/
theorem eraseDups_append_cons {r l : List D} {d : D} (h : d ∈ r ∨ l.find? (· ∉ r) = some d) :
    (r ++ d :: l).eraseDups = (r ++ l).eraseDups := by
  rw [List.eraseDups_append, List.eraseDups_append]
  congr 1
  by_cases hd : d ∈ r
  · simp [List.removeAll, hd]
  · have hcons : (d :: l).removeAll r = d :: l.removeAll r := by simp [List.removeAll, hd]
    have hhead := h.resolve_left hd
    rw [← head?_removeAll] at hhead
    obtain ⟨l', hl'⟩ : ∃ l', l.removeAll r = d :: l' := List.head?_eq_some_iff.1 hhead
    rw [hcons, hl', List.eraseDups_cons, List.eraseDups_cons]
    simp

theorem take_eraseDups_append {r : List D} (h : maxKeywords ≤ r.eraseDups.length) (l : List D) :
    (r ++ l).eraseDups.take maxKeywords = r.eraseDups.take maxKeywords := by
  rw [List.eraseDups_append, List.take_append_of_le_length h]

/-! ## Long words -/

variable (sha256 minLen maxLen maxKeywords)

/-- Cutting the long words does no harm where the hashes `r` have been found. -/
def HarmlessAfter (r : List D) (ws : List Bytes) : Prop :=
  ∀ before w after, ws = before ++ w :: after → 32 < w.length →
    let found := r ++ hashes sha256 minLen maxLen (before.map cut)
    found.eraseDups.length < maxKeywords →
    accepted minLen maxLen w = false ∧ (accepted minLen maxLen (cut w) = true →
      keywordHash sha256 (cut w) ∈ found ∨
        (hashes sha256 minLen maxLen after).find? (· ∉ found) = some (keywordHash sha256 (cut w)))

/-- **No long word does harm.**  If the hashes of the words before it leave room, a word of more than 32
    bytes is not accepted, and if its first 32 bytes are accepted, they are the same word as an earlier
    one or as the next new one. -/
def Harmless (metadata : Bytes) : Prop :=
  HarmlessAfter sha256 minLen maxLen maxKeywords [] (wordsIn metadata)

variable {sha256 minLen maxLen maxKeywords}

omit [DecidableEq D] in
/-- What is found of a list that starts with `w`, where `w` has been cut. -/
theorem append_hashes_cut (r : List D) (w : Bytes) (ws : List Bytes) :
    r ++ hashes sha256 minLen maxLen ((w :: ws).map cut) =
      r ++ hashes sha256 minLen maxLen [cut w] ++ hashes sha256 minLen maxLen (ws.map cut) := by
  rw [List.append_assoc, ← hashes_append]
  rfl

theorem harmlessAfter_cons {r : List D} {w : Bytes} {ws : List Bytes} :
    HarmlessAfter sha256 minLen maxLen maxKeywords r (w :: ws) ↔
      (32 < w.length → r.eraseDups.length < maxKeywords →
        accepted minLen maxLen w = false ∧ (accepted minLen maxLen (cut w) = true →
          keywordHash sha256 (cut w) ∈ r ∨
            (hashes sha256 minLen maxLen ws).find? (· ∉ r) = some (keywordHash sha256 (cut w)))) ∧
      HarmlessAfter sha256 minLen maxLen maxKeywords (r ++ hashes sha256 minLen maxLen [cut w]) ws := by
  constructor
  · refine fun h => ⟨fun hlong hroom => ?_, fun before v after hws => ?_⟩
    · have hhead := h [] w ws rfl hlong
      simp only [List.map_nil, hashes, List.filter_nil, List.append_nil] at hhead
      exact hhead hroom
    · rw [← append_hashes_cut]
      exact h (w :: before) v after (by rw [hws]; rfl)
  · rintro ⟨hhead, htail⟩ before v after hws hlong
    cases before with
    | nil =>
      obtain ⟨rfl, rfl⟩ := List.cons.inj hws
      simp only [List.map_nil, hashes, List.filter_nil, List.append_nil]
      exact hhead hlong
    | cons w' before =>
      obtain ⟨rfl, rfl⟩ := List.cons.inj hws
      rw [append_hashes_cut]
      exact htail before v after rfl hlong

/-- Where the words up to `w` have been cut, and those after it are not. -/
theorem eraseDups_cut {r : List D} {w : Bytes} {ws : List Bytes}
    (h : 32 < w.length → accepted minLen maxLen w = false ∧ (accepted minLen maxLen (cut w) = true →
      keywordHash sha256 (cut w) ∈ r ∨
        (hashes sha256 minLen maxLen ws).find? (· ∉ r) = some (keywordHash sha256 (cut w)))) :
    (r ++ hashes sha256 minLen maxLen [cut w] ++ hashes sha256 minLen maxLen ws).eraseDups =
      (r ++ hashes sha256 minLen maxLen (w :: ws)).eraseDups := by
  by_cases hlong : 32 < w.length
  · obtain ⟨hw, hcut⟩ := h hlong
    rw [hashes_cons w ws, hw, if_neg Bool.false_ne_true, List.nil_append, hashes_singleton]
    split_ifs with hc
    · rw [List.append_assoc, List.singleton_append]
      exact eraseDups_append_cons (hcut hc)
    · rw [List.append_nil]
  · rw [show cut w = w from List.take_of_length_le (by omega), List.append_assoc, ← hashes_append,
      List.singleton_append]

/-- The condition is enough. -/
theorem HarmlessAfter.take_eq {r : List D} {ws : List Bytes}
    (h : HarmlessAfter sha256 minLen maxLen maxKeywords r ws) :
    (r ++ hashes sha256 minLen maxLen (ws.map cut)).eraseDups.take maxKeywords =
      (r ++ hashes sha256 minLen maxLen ws).eraseDups.take maxKeywords := by
  induction ws generalizing r with
  | nil => rfl
  | cons w ws ih =>
    by_cases hfull : maxKeywords ≤ r.eraseDups.length
    · rw [take_eraseDups_append hfull, take_eraseDups_append hfull]
    · obtain ⟨hhead, htail⟩ := harmlessAfter_cons.1 h
      rw [append_hashes_cut, ih htail, eraseDups_cut fun hlong => hhead hlong (Nat.lt_of_not_le hfull)]

/-- It is necessary, unless the hash of a long word is one of a short word. -/
theorem harmlessAfter_of_take_eq {r : List D} {ws : List Bytes}
    (hsep : ∀ w, 32 < w.length → keywordHash sha256 w ∉ r ++ hashes sha256 minLen maxLen (ws.map cut))
    (h : (r ++ hashes sha256 minLen maxLen (ws.map cut)).eraseDups.take maxKeywords =
      (r ++ hashes sha256 minLen maxLen ws).eraseDups.take maxKeywords) :
    HarmlessAfter sha256 minLen maxLen maxKeywords r ws := by
  induction ws generalizing r with
  | nil => exact fun before w after hws => by simp at hws
  | cons w ws ih =>
    by_cases hfull : maxKeywords ≤ r.eraseDups.length
    · intro before v after _ _ found hroom
      rw [List.eraseDups_append, List.length_append] at hroom
      omega
    · have hroom := Nat.lt_of_not_le hfull
      have hhead : 32 < w.length → accepted minLen maxLen w = false ∧
          (accepted minLen maxLen (cut w) = true → keywordHash sha256 (cut w) ∈ r ∨
            (hashes sha256 minLen maxLen ws).find? (· ∉ r) = some (keywordHash sha256 (cut w))) := by
        intro hlong
        -- the entry that comes after `r`
        have hnext := congrArg (·[r.eraseDups.length]?) h
        simp only [List.getElem?_take_of_lt hroom, getElem?_eraseDups_append] at hnext
        have hnot : accepted minLen maxLen w = false := by
          by_contra hacc
          have hw := hsep w hlong
          rw [List.mem_append, not_or] at hw
          rw [hashes_cons w ws, if_pos (by simpa using hacc), List.singleton_append,
            List.find?_cons_of_pos (by simpa using hw.1)] at hnext
          exact hw.2 (List.mem_of_find?_eq_some hnext)
        refine ⟨hnot, fun hcut => ?_⟩
        rw [List.map_cons, hashes_cons, if_pos hcut, List.singleton_append, hashes_cons w ws, hnot,
          if_neg Bool.false_ne_true, List.nil_append] at hnext
        by_cases hmem : keywordHash sha256 (cut w) ∈ r
        · exact Or.inl hmem
        · rw [List.find?_cons_of_pos (by simpa using hmem)] at hnext
          exact Or.inr hnext.symm
      refine harmlessAfter_cons.2 ⟨fun hlong _ => hhead hlong, ih ?_ ?_⟩
      · rw [← append_hashes_cut]
        exact hsep
      · rw [← append_hashes_cut, h, eraseDups_cut hhead]

/-- **When `extract_keywords` returns what it is documented to.** -/
theorem extractKeywords_spec (sha256 : Bytes → D) (minLen maxLen maxKeywords : ℕ) (metadata : Bytes) :
    (Harmless sha256 minLen maxLen maxKeywords metadata →
      extractKeywords sha256 minLen maxLen maxKeywords metadata =
        keywordSpec sha256 minLen maxLen maxKeywords metadata) ∧
    (Function.Injective sha256 → (extractKeywords sha256 minLen maxLen maxKeywords metadata =
        keywordSpec sha256 minLen maxLen maxKeywords metadata ↔
      Harmless sha256 minLen maxLen maxKeywords metadata)) := by
  rw [extractKeywords_eq, keywordSpec]
  refine ⟨fun h => h.take_eq, fun hinj => ⟨fun h => harmlessAfter_of_take_eq (fun w hlong => ?_) h,
    fun h => h.take_eq⟩⟩
  rw [List.nil_append, hashes]
  intro hmem
  obtain ⟨v, hv, he⟩ := List.mem_map.1 hmem
  obtain ⟨u, -, rfl⟩ := List.mem_map.1 (List.mem_filter.1 hv).1
  have hlen := congrArg List.length (hinj he)
  rw [cut, List.length_take] at hlen
  omega

/-- A run of 33 letters is indexed as the word of its first 32. -/
theorem long_word_indexed :
    extractKeywords id 3 32 20 (List.replicate 33 97) = [List.replicate 32 97] ∧
      extractKeywords id 3 32 20 (List.replicate 33 97) ≠ keywordSpec id 3 32 20 (List.replicate 33 97) := by
  decide

end

example : keywordSpec id 3 32 20 (ascii "Payment;of the wire-payment") = [ascii "payment", ascii "wire"] := by
  decide

end InvertedIndex
