/-
  InvertedIndex — the keywords of metadata (`extract_keywords` in `src/inverted_index.rs`).

  The bytes are read once, from left to right.  A token is collected in a buffer of 32
  bytes and hashed at the next delimiter; the scan stops when enough hashes have been
  found.

  `extractKeywords_nodup`: no hash is found twice.
-/
import AuditTransparency.Soroban.Decimal
import Mathlib.Data.List.Nodup

namespace InvertedIndex

open Soroban

/-- `STOP_WORDS` -/
def stopWords : List Bytes :=
  ["the", "a", "an", "in", "of", "at", "to", "is", "it", "and", "or", "for", "on", "by", "as", "be",
    "no"].map ascii

/-- `is_delimiter` -/
def isDelimiter (b : UInt8) : Bool := (ascii " \t\n\r;=,:|/-._").contains b

/-- `to_lower` -/
def toLower (b : UInt8) : UInt8 := if 65 ≤ b ∧ b ≤ 90 then b + 32 else b

/-- `is_stop_word`; the source compares the bytes one by one. -/
def isStopWord (token : Bytes) : Bool := stopWords.contains token

section
variable {D : Type} [DecidableEq D] (sha256 : Bytes → D) (minLen maxLen maxKeywords : ℕ)

/-- `keyword_hash` -/
def keywordHash (keyword : Bytes) : D := sha256 keyword

/-- `flush_token` -/
def flushToken (token : Bytes) (result : List D) : List D :=
  if result.length ≥ maxKeywords then result
  else if token.length < minLen ∨ token.length > maxLen then result
  else if isStopWord token then result
  else if keywordHash sha256 token ∈ result then result
  else result ++ [keywordHash sha256 token]

/-- The loop over the metadata; returns the token after the last delimiter and the hashes. -/
def scan : Bytes → Bytes → List D → Bytes × List D
  | [], token, result => (token, result)
  | rawByte :: rest, token, result =>
    if isDelimiter rawByte then
      let result := flushToken sha256 minLen maxLen maxKeywords token result
      if result.length ≥ maxKeywords then ([], result) else scan rest [] result
    -- printable ASCII only
    else if rawByte < 32 ∨ rawByte > 126 then scan rest token result
    else
      let token := if token.length < 32 then token ++ [toLower rawByte] else token
      if result.length ≥ maxKeywords then (token, result) else scan rest token result

/-- `extract_keywords` -/
def extractKeywords (metadata : Bytes) : List D :=
  if metadata = [] ∨ maxKeywords = 0 then []
  else
    let (token, result) := scan sha256 minLen maxLen maxKeywords metadata [] []
    flushToken sha256 minLen maxLen maxKeywords token result

variable {sha256 minLen maxLen maxKeywords}

theorem flushToken_nodup {token : Bytes} {result : List D} (h : result.Nodup) :
    (flushToken sha256 minLen maxLen maxKeywords token result).Nodup := by
  unfold flushToken
  split_ifs with _ _ _ hmem
  · exact h
  · exact h
  · exact h
  · exact h
  · rw [List.nodup_append]
    refine ⟨h, List.nodup_singleton _, ?_⟩
    rintro a ha b hb rfl
    obtain rfl := List.mem_singleton.1 hb
    exact hmem ha

theorem scan_nodup {rest token : Bytes} {result : List D} (h : result.Nodup) :
    (scan sha256 minLen maxLen maxKeywords rest token result).2.Nodup := by
  induction rest generalizing token result with
  | nil => exact h
  | cons b rest ih =>
    simp only [scan]
    by_cases hd : isDelimiter b = true
    · rw [if_pos hd]
      split_ifs
      · exact flushToken_nodup h
      · exact ih (flushToken_nodup h)
    · rw [if_neg hd]
      by_cases hb : b < 32 ∨ b > 126
      · rw [if_pos hb]
        exact ih h
      · rw [if_neg hb]
        by_cases hfull : result.length ≥ maxKeywords
        · rw [if_pos hfull]
          exact h
        · rw [if_neg hfull]
          exact ih h

/-- No hash is found twice. -/
theorem extractKeywords_nodup (metadata : Bytes) :
    (extractKeywords sha256 minLen maxLen maxKeywords metadata).Nodup := by
  unfold extractKeywords
  split_ifs
  · exact List.nodup_nil
  · exact flushToken_nodup (scan_nodup List.nodup_nil)

end

example : extractKeywords id 3 32 20 (ascii "Payment;of the wire-payment") =
    [ascii "payment", ascii "wire"] := by
  decide

end InvertedIndex
