/-
  AuditLedger — the required fields of a schema.

  `required_fields` looks for `"required"` in the text of a definition, goes on behind the next
  bracket, and collects what stands between quotation marks from there on.  It does not look
  where the array ends, and the first `"required"` need not be the member.

  * `requiredFields_eq`: the scan ends without a slice out of range, and what it collects;
  * `RequiredText`: JSON objects with the member `"required"`, an array of names;
  * `requiredFields_exact_iff`: for which of them the names are returned.
-/
import AuditTransparency.Soroban.JsonText
import AuditTransparency.Soroban.Utf8

namespace AuditLedger

open Soroban
open Soroban.Utf8 Soroban.JsonText

/-! ## The scan -/

/-- `"\"required\""` -/
def requiredKey : Bytes := ascii "\"required\""

/-- The loop over the names, from `parse_cursor` on; `none` if it panics. -/
def parseNames (list : Bytes) (parseCursor : ℕ) (result : List Bytes) : Option (List Bytes) :=
  if parseCursor < list.length then do
    let rest ← sliceFrom list parseCursor
    match find [mark] rest with
    | none => return result
    | some pos => do
      let nameStart := parseCursor + pos + 1
      let rest ← sliceFrom list nameStart
      match find [mark] rest with
      | none => return result
      | some pos => do
        let nameEnd := nameStart + pos
        if nameStart < nameEnd then
          let fieldName ← slice list nameStart nameEnd
          parseNames list (nameEnd + 1) (result ++ [fieldName])
        else parseNames list (nameEnd + 1) result
  else some result
termination_by list.length - parseCursor

/-- The body of the outer loop, which it leaves in its first round. -/
def scanRequired (text : Bytes) (cursor : ℕ) : Option (List Bytes) := do
  let chunk ← sliceFrom text cursor
  match find requiredKey chunk with
  | none => return []
  | some requiredPos => do
    let afterRequired ← sliceFrom chunk (requiredPos + requiredKey.length)
    match find [openBracket] afterRequired with
    | none => return []
    | some bracketStart => do
      let list ← sliceFrom afterRequired (bracketStart + 1)
      parseNames list 0 []

/-- `required_fields`; `none` if it panics. -/
def requiredFields (definition : Bytes) : Option (List Bytes) :=
  if isUtf8 definition then
    if 0 + 9 < definition.length then scanRequired definition 0 else some []
  else some []

/-- The text behind the first bracket behind the first `"required"`. -/
def listed (text : Bytes) : Option Bytes := (behind requiredKey text).bind (behind [openBracket])

/-- What the scan finds. -/
def fieldsOf (definition : Bytes) : List Bytes :=
  if isUtf8 definition then (listed definition).elim [] quoted else []

section
variable {u v w l n done text before list after : Bytes} {names : List Bytes} {i : ℕ}

/-- The loop is between two names. -/
def Between (done : Bytes) : Prop := done = [] ∨ ∃ u, done = u ++ [mark]

theorem Between.sliceFrom (h : Between u) (htext : isUtf8 (u ++ v) = true) :
    Utf8.sliceFrom (u ++ v) u.length = some v := by
  rcases h with rfl | ⟨u, rfl⟩
  · exact sliceFrom_zero
  · rw [List.append_assoc, List.singleton_append] at htext ⊢
    rw [List.length_append, List.length_singleton]
    exact sliceFrom_append_cons mark_ascii htext

/-- The slice behind a mark. -/
theorem sliceFrom_mark (htext : isUtf8 (done ++ (u ++ mark :: v)) = true) :
    Utf8.sliceFrom (done ++ (u ++ mark :: v)) (done.length + u.length + 1) = some v := by
  rw [← List.append_assoc] at htext ⊢
  rw [← List.length_append]
  exact sliceFrom_append_cons mark_ascii htext

theorem length_lt_marked : done.length < (done ++ (u ++ mark :: v)).length := by
  simp only [List.length_append, List.length_cons]
  omega

/-- No mark is left. -/
theorem parseNames_unmarked (htext : isUtf8 (done ++ l) = true) (hdone : Between done) (hl : mark ∉ l) :
    parseNames (done ++ l) done.length names = some names := by
  rw [parseNames]
  split_ifs
  · rw [hdone.sliceFrom htext, Option.bind_eq_bind, Option.bind_some, find_eq_none hl]
    rfl
  · rfl

/-- The last mark stays open. -/
theorem parseNames_open (htext : isUtf8 (done ++ (u ++ mark :: v)) = true) (hdone : Between done)
    (hu : mark ∉ u) (hv : mark ∉ v) :
    parseNames (done ++ (u ++ mark :: v)) done.length names = some names := by
  rw [parseNames, if_pos length_lt_marked, hdone.sliceFrom htext, Option.bind_eq_bind, Option.bind_some,
    find_singleton hu]
  show (Utf8.sliceFrom _ _ >>= _) = _
  rw [sliceFrom_mark htext, Option.bind_eq_bind, Option.bind_some, find_eq_none hv]
  rfl

/-- A round of the loop. -/
theorem parseNames_pair (htext : isUtf8 (done ++ (u ++ mark :: (n ++ mark :: v))) = true) (hdone : Between done)
    (hu : mark ∉ u) (hn : mark ∉ n) :
    parseNames (done ++ (u ++ mark :: (n ++ mark :: v))) done.length names =
      parseNames (done ++ (u ++ mark :: (n ++ mark :: v))) (done.length + u.length + 1 + n.length + 1)
        (if n = [] then names else names ++ [n]) := by
  have hname : slice (done ++ (u ++ mark :: (n ++ mark :: v))) (done.length + u.length + 1)
      (done.length + u.length + 1 + n.length) = some n := by
    rw [← List.append_assoc] at htext ⊢
    rw [← List.length_append]
    exact slice_append_cons mark_ascii mark_ascii htext
  conv_lhs => rw [parseNames]
  rw [if_pos length_lt_marked, hdone.sliceFrom htext, Option.bind_eq_bind, Option.bind_some, find_singleton hu]
  show (Utf8.sliceFrom _ _ >>= _) = _
  rw [sliceFrom_mark htext, Option.bind_eq_bind, Option.bind_some, find_singleton hn]
  dsimp only
  rcases eq_or_ne n [] with rfl | hne
  · rw [List.length_nil, Nat.add_zero, if_neg (Nat.lt_irrefl _), if_pos rfl]
  · rw [if_pos (Nat.lt_add_of_pos_right (List.length_pos_iff.2 hne)), if_neg hne, hname, Option.bind_some]

/-- **What the loop collects.** -/
theorem parseNames_eq (done rest : Bytes) (result : List Bytes) (htext : isUtf8 (done ++ rest) = true)
    (hdone : Between done) :
    parseNames (done ++ rest) done.length result = some (result ++ quoted rest) := by
  induction rest using marks_induction generalizing done result with
  | none l hl => rw [parseNames_unmarked htext hdone hl, quoted, quoted_eq_nil hl, List.append_nil]
  | single u v hu hv => rw [parseNames_open htext hdone hu hv, quoted_single hu hv, List.append_nil]
  | pair u n v hu hn ih =>
    have hcut : done ++ (u ++ mark :: (n ++ mark :: v)) = (done ++ u ++ mark :: n ++ [mark]) ++ v := by
      simp only [List.append_assoc, List.cons_append, List.nil_append]
    have hlen : done.length + u.length + 1 + n.length + 1 = (done ++ u ++ mark :: n ++ [mark]).length := by
      simp only [List.length_append, List.length_cons, List.length_nil]
      omega
    rw [parseNames_pair htext hdone hu hn, hlen, quoted_pair hu hn]
    rw [hcut] at htext ⊢
    rw [ih _ _ htext (.inr ⟨_, rfl⟩)]
    split_ifs
    · rfl
    · rw [List.append_assoc, List.singleton_append]

theorem requiredKey_eq : requiredKey = literal (ascii "required") := by decide

/-- The slice behind the key. -/
theorem sliceFrom_requiredKey (htext : isUtf8 (u ++ requiredKey ++ v) = true) :
    Utf8.sliceFrom (u ++ requiredKey ++ v) (u.length + requiredKey.length) = some v ∧ isUtf8 v = true := by
  -- the key ends with a mark
  have hkey : u ++ requiredKey ++ v = (u ++ mark :: ascii "required") ++ mark :: v := by
    rw [requiredKey_eq, literal, List.append_assoc, List.cons_append, List.append_assoc,
      List.singleton_append, List.append_assoc, List.cons_append]
  have hlen : u.length + requiredKey.length = (u ++ mark :: ascii "required").length + 1 := by
    rw [List.length_append]
    rfl
  rw [hkey] at htext ⊢
  rw [hlen]
  refine ⟨sliceFrom_append_cons mark_ascii htext, ?_⟩
  rw [isUtf8_append_cons mark_ascii, Bool.and_eq_true] at htext
  exact htext.2

/-- The slice behind the bracket. -/
theorem sliceFrom_bracket (htext : isUtf8 (u ++ [openBracket] ++ v) = true) :
    Utf8.sliceFrom (u ++ [openBracket] ++ v) (u.length + 1) = some v ∧ isUtf8 v = true := by
  rw [List.append_assoc, List.singleton_append] at htext ⊢
  refine ⟨sliceFrom_append_cons openBracket_ascii htext, ?_⟩
  rw [isUtf8_append_cons openBracket_ascii, Bool.and_eq_true] at htext
  exact htext.2

/-- **The scan ends on every byte string**, without a slice that is out of range or cuts a character. -/
theorem requiredFields_eq (definition : Bytes) : requiredFields definition = some (fieldsOf definition) := by
  rw [requiredFields, fieldsOf]
  by_cases hutf : isUtf8 definition = true
  · rw [if_pos hutf, if_pos hutf]
    rcases hfind : find requiredKey definition with _ | i
    · have hnone : listed definition = none := by rw [listed, behind, hfind]; rfl
      rw [hnone, Option.elim_none]
      split_ifs
      · rw [scanRequired, sliceFrom_zero, Option.bind_eq_bind, Option.bind_some, hfind]
        rfl
      · rfl
    · obtain ⟨u, v, rfl, rfl⟩ := append_of_find hfind
      have hlen : 0 + 9 < (u ++ requiredKey ++ v).length := by
        rw [List.length_append, List.length_append, show requiredKey.length = 10 from rfl]
        omega
      obtain ⟨htail, hvalid⟩ := sliceFrom_requiredKey hutf
      rw [if_pos hlen, scanRequired, sliceFrom_zero, Option.bind_eq_bind, Option.bind_some, listed,
        behind_append hfind, hfind, Option.bind_some, behind]
      dsimp only
      rw [htail, Option.bind_some]
      rcases hbracket : find [openBracket] v with _ | k
      · rfl
      · obtain ⟨x, y, rfl, rfl⟩ := append_of_find hbracket
        obtain ⟨hlist, hvalid⟩ := sliceFrom_bracket hvalid
        dsimp only
        rw [hlist, Option.bind_some, Option.map_some, Option.elim_some, List.append_assoc, List.singleton_append,
          List.length_singleton, drop_behind]
        exact parseNames_eq [] y [] hvalid (.inl rfl)
  · rw [if_neg hutf, if_neg hutf]

/-- What is listed is a text. -/
theorem isUtf8_of_listed (hlisted : listed text = some v) (h : isUtf8 text = true) : isUtf8 v = true := by
  rw [listed, Option.bind_eq_some_iff] at hlisted
  obtain ⟨w, hkey, hbracket⟩ := hlisted
  obtain ⟨u, rfl⟩ := append_of_behind hkey
  obtain ⟨z, rfl⟩ := append_of_behind hbracket
  exact (sliceFrom_bracket (sliceFrom_requiredKey h).2).2

/-- **What is found is a name**: a text without marks, and not empty. -/
theorem of_mem_fieldsOf {n : Bytes} (h : n ∈ fieldsOf text) : n ≠ [] ∧ mark ∉ n ∧ isUtf8 n = true := by
  rw [fieldsOf] at h
  split_ifs at h with hutf
  · rcases hlisted : listed text with _ | v
    · rw [hlisted] at h
      cases h
    · rw [hlisted, Option.elim_some] at h
      have hv := isUtf8_of_listed hlisted hutf
      clear hlisted
      induction v using marks_induction with
      | none l hl =>
        rw [quoted, quoted_eq_nil hl] at h
        cases h
      | single u w hu hw =>
        rw [quoted_single hu hw] at h
        cases h
      | pair u m v hu hm ih =>
        rw [isUtf8_append_cons mark_ascii, isUtf8_append_cons mark_ascii, Bool.and_eq_true,
          Bool.and_eq_true] at hv
        rw [quoted_pair hu hm] at h
        split_ifs at h with hne
        · exact ih h hv.2.2
        · rcases List.mem_cons.1 h with rfl | h
          · exact ⟨hne, hm, hv.2.1⟩
          · exact ih h hv.2.2
  · cases h

end

/-! ## Schemas -/

/-- A name that is written without escapes. -/
def IsName (n : Bytes) : Prop := n ≠ [] ∧ ∀ b ∈ n, IsPlain b

/-- The elements of an array of names. -/
inductive Names : List Bytes → Bytes → Prop where
  | last {w n w'} : Space w → IsName n → Space w' → Names [n] (w ++ literal n ++ w')
  | next {w n w' names l} : Space w → IsName n → Space w' → Names names l →
      Names (n :: names) (w ++ literal n ++ w' ++ comma :: l)

/-- An object up to one of its members. -/
inductive Opening : Bytes → Prop where
  | first {w w'} : Space w → Space w' → Opening (w ++ openBrace :: w')
  | later {w l w'} : Space w → Derives .members l → Space w' → Opening (w ++ openBrace :: (l ++ comma :: w'))

/-- An object from behind one of its members on. -/
inductive Closing : Bytes → Prop where
  | last {w w'} : Space w → Space w' → Closing (w ++ closeBrace :: w')
  | earlier {w l w'} : Space w → Derives .members l → Space w' → Closing (w ++ comma :: (l ++ closeBrace :: w'))

/-- A JSON object with the member `"required"`, an array of `names` that is written as `list`, and any other
    members before and after it. -/
inductive RequiredText : (before list after : Bytes) → List Bytes → Bytes → Prop where
  | mk {before w w' list after : Bytes} {names : List Bytes} : Opening before → Space w → Space w' →
      (names = [] ∧ Space list ∨ Names names list) → Closing after →
      isUtf8 (before ++ requiredKey ++ (w ++ colon :: w') ++ openBracket :: (list ++ closeBracket :: after)) = true →
      RequiredText before list after names
        (before ++ requiredKey ++ (w ++ colon :: w') ++ openBracket :: (list ++ closeBracket :: after))

/-- No `"required"` with a bracket behind it. -/
def Unbracketed (before : Bytes) : Prop := ∀ u v, before = u ++ requiredKey ++ v → openBracket ∉ v

section
variable {b : UInt8} {u v w m l rest text before list after : Bytes} {names : List Bytes} {i : ℕ}

theorem IsName.unmarked (h : IsName l) : mark ∉ l := fun hm => (h.2 mark hm).2.1 rfl

theorem not_mem_requiredKey : openBracket ∉ requiredKey := by decide

/-- The bracket that the scan finds is behind `before`. -/
theorem listed_of_unbracketed (hm : openBracket ∉ m) (h : Unbracketed before) :
    listed (before ++ requiredKey ++ m ++ openBracket :: rest) = some rest := by
  obtain ⟨u, w, heq, hbehind⟩ := exists_behind before requiredKey (m ++ openBracket :: rest)
  have hw : openBracket ∉ w := by
    rcases List.append_eq_append_iff.1 heq with ⟨a, -, hkey⟩ | ⟨v, hbefore, rfl⟩
    · intro hmem
      exact not_mem_requiredKey (hkey ▸ List.mem_append_right a hmem)
    · rw [List.mem_append, not_or]
      exact ⟨h u v hbefore, not_mem_requiredKey⟩
  rw [listed, List.append_assoc _ m, hbehind, Option.bind_some, ← List.append_assoc]
  exact behind_singleton (by rw [List.mem_append, not_or]; exact ⟨hw, hm⟩)

/-- The bracket that the scan finds is in `before`. -/
theorem listed_of_bracketed (m rest : Bytes) (h : ¬Unbracketed before) :
    ∃ u v, before = u ++ openBracket :: v ∧
      listed (before ++ requiredKey ++ m ++ openBracket :: rest) =
        some (v ++ (requiredKey ++ m ++ openBracket :: rest)) := by
  unfold Unbracketed at h
  push Not at h
  obtain ⟨u₀, v₀, rfl, hmem⟩ := h
  obtain ⟨u, w, heq, hbehind⟩ := exists_behind u₀ requiredKey (v₀ ++ (requiredKey ++ m ++ openBracket :: rest))
  obtain ⟨x, y, hcut, hx⟩ := List.eq_append_cons_of_mem (List.mem_append_right w hmem)
  refine ⟨u ++ requiredKey ++ x, y, ?_, ?_⟩
  · rw [heq, List.append_assoc _ w, hcut, ← List.append_assoc]
  · have htext : u₀ ++ requiredKey ++ v₀ ++ requiredKey ++ m ++ openBracket :: rest =
        u₀ ++ requiredKey ++ (v₀ ++ (requiredKey ++ m ++ openBracket :: rest)) := by
      simp only [List.append_assoc]
    rw [listed, htext, hbehind, Option.bind_some, ← List.append_assoc, hcut, List.append_assoc, List.cons_append]
    exact behind_singleton hx

/-- Names are read one by one. -/
theorem Names.quotedFrom_none (h : Names names list) :
    quotedFrom none (list ++ rest) = names ++ quotedFrom none rest := by
  induction h with
  | last hw hn hw' =>
    rw [List.append_assoc, List.append_assoc, quotedFrom_none_append hw.unmarked,
      quotedFrom_literal hn.unmarked hn.1, quotedFrom_none_append hw'.unmarked]
    rfl
  | next hw hn hw' _ ih =>
    rw [List.append_assoc, List.append_assoc, List.append_assoc, quotedFrom_none_append hw.unmarked,
      quotedFrom_literal hn.unmarked hn.1, quotedFrom_none_append hw'.unmarked, List.cons_append, quotedFrom,
      if_neg (by decide), ih]
    rfl

/-- Where a text is open, what stands between the names is found instead. -/
theorem Names.le_length_quotedFrom (h : Names names list) (hw : w ≠ []) :
    names.length ≤ (quotedFrom (some w) (list ++ rest)).length := by
  induction h generalizing w with
  | last hs hn _ =>
    rw [List.append_assoc, List.append_assoc, quotedFrom_some_append hs.unmarked,
      quotedFrom_some_literal (by simp [hw]) hn.unmarked, List.length_cons]
    exact Nat.succ_le_succ (Nat.zero_le _)
  | next hs hn hs' _ ih =>
    rw [List.append_assoc, List.append_assoc, List.append_assoc, quotedFrom_some_append hs.unmarked,
      quotedFrom_some_literal (by simp [hw]) hn.unmarked, quotedFrom_some_append hs'.unmarked, List.nil_append,
      List.cons_append, quotedFrom, if_neg (by decide), List.length_cons, List.length_cons]
    exact Nat.succ_le_succ (ih (by simp))

/-- An object does not end with a mark before one of its members. -/
theorem Opening.getLast (h : Opening before) : ∃ u b, before = u ++ [b] ∧ b ≠ mark := by
  have hspace : ∀ {u : Bytes} {b : UInt8} {w' : Bytes}, b ≠ mark → Space w' →
      ∃ u' b', u ++ b :: w' = u' ++ [b'] ∧ b' ≠ mark := by
    intro u b w' hb hw'
    rcases List.eq_nil_or_concat w' with rfl | ⟨w, c, rfl⟩
    · exact ⟨u, b, rfl, hb⟩
    · refine ⟨u ++ b :: w, c, by simp, ?_⟩
      rintro rfl
      exact hw'.unmarked (by simp)
  cases h with
  | first _ hw' => exact hspace (by decide) hw'
  | @later w l w' _ _ hw' =>
    have h := hspace (u := w ++ openBrace :: l) (b := comma) (by decide) hw'
    rwa [List.append_assoc, List.cons_append] at h

theorem Closing.lexed (h : Closing after) : Lexed after := by
  cases h with
  | last hw hw' => exact hw.lexed.append (.other (by decide) hw'.lexed)
  | earlier hw hl hw' => exact hw.lexed.append (.other (by decide) (hl.lexed.append (.other (by decide) hw'.lexed)))

/-- From a bracket on, at least as many texts are found as there are names. -/
theorem le_length_quotedFrom {o : Option Bytes} (hlist : names = [] ∨ Names names list) (ho : o ≠ some []) :
    names.length ≤ (quotedFrom o (list ++ rest)).length := by
  rcases hlist with rfl | h
  · exact Nat.zero_le _
  · cases o with
    | none =>
      rw [h.quotedFrom_none, List.length_append]
      exact Nat.le_add_right _ _
    | some w => exact h.le_length_quotedFrom fun hw => ho (congrArg some hw)

/-- **What is found from a part of `before` on is more than the names**: the key, or what stands before it. -/
theorem lt_length_quoted (rest : Bytes) (hlast : v = [] ∨ ∃ u b, v = u ++ [b] ∧ b ≠ mark) (hm : mark ∉ m)
    (hlist : names = [] ∨ Names names list) :
    names.length < (quoted (v ++ (requiredKey ++ m ++ openBracket :: (list ++ rest)))).length := by
  obtain ⟨found, hfound⟩ := exists_quotedFrom_append none v (requiredKey ++ m ++ openBracket :: (list ++ rest))
  have hpending : pendingAfter none v ≠ some [] := by
    rcases hlast with rfl | ⟨u, b, rfl, hb⟩
    · exact (Option.some_ne_none []).symm
    · exact pendingAfter_ne_nil hb none u
  have hunmarked : mark ∉ ascii "required" := by decide
  rw [quoted, hfound, List.length_append, List.append_assoc, requiredKey_eq]
  refine Nat.lt_of_lt_of_le ?_ (Nat.le_add_left _ _)
  cases hopen : pendingAfter none v with
  | none =>
    rw [quotedFrom_literal hunmarked (by decide), quotedFrom_none_append hm, quotedFrom, if_neg (by decide),
      List.length_cons]
    exact Nat.lt_succ_of_le (le_length_quotedFrom hlist (Option.some_ne_none []).symm)
  | some w =>
    have hw : w ≠ [] := fun hw => hpending (hopen.trans (congrArg some hw))
    rw [quotedFrom_some_literal hw hunmarked, quotedFrom_some_append hm, quotedFrom, if_neg (by decide),
      List.length_cons]
    exact Nat.lt_succ_of_le (le_length_quotedFrom hlist (by simp))

/-- The part of `before` behind a bracket does not end with a mark. -/
theorem Opening.getLast_of_append (h : Opening (u ++ b :: v)) : v = [] ∨ ∃ u b, v = u ++ [b] ∧ b ≠ mark := by
  obtain ⟨z, c, heq, hc⟩ := h.getLast
  rcases List.eq_nil_or_concat v with rfl | ⟨v, d, rfl⟩
  · exact .inl rfl
  · rw [List.concat_eq_append, ← List.cons_append, ← List.append_assoc] at heq
    have hlast := (List.append_inj' heq rfl).2
    rw [List.singleton_inj] at hlast
    exact .inr ⟨v, d, List.concat_eq_append, hlast ▸ hc⟩

/-- The text between the key and the array. -/
theorem colon_unmarked (hw : Space u) (hw' : Space v) : mark ∉ u ++ colon :: v := by
  rw [List.mem_append, List.mem_cons, not_or, not_or]
  exact ⟨hw.unmarked, by decide, hw'.unmarked⟩

/-- The first member of the object, or one behind others. -/
theorem Opening.exists_members (h : Opening before) :
    ∃ w u, before = w ++ openBrace :: u ∧ Space w ∧
      ∀ l, (∀ w, Space w → Derives .members (w ++ l)) → Derives .members (u ++ l) := by
  cases h with
  | @first w w' hw hw' => exact ⟨w, w', rfl, hw, fun l hl => hl w' hw'⟩
  | @later w m w' hw hm hw' =>
    refine ⟨w, m ++ comma :: w', rfl, hw, ?_⟩
    intro l hl
    rw [List.append_assoc, List.cons_append]
    exact hm.members_append (hl w' hw')

/-- The last member of the object, or one with others behind it. -/
theorem Closing.exists_members (h : Closing after) :
    ∃ u w, after = u ++ closeBrace :: w ∧ Space w ∧
      ∀ l, (∀ w, Space w → Derives .member (l ++ w)) → Derives .members (l ++ u) := by
  cases h with
  | @last w w' hw hw' => exact ⟨w, w', rfl, hw', fun l hl => .lastMember (hl w hw)⟩
  | @earlier w m w' hw hm hw' =>
    refine ⟨w ++ comma :: m, w', by rw [List.append_assoc, List.cons_append], hw', ?_⟩
    intro l hl
    rw [← List.append_assoc]
    exact .nextMember (hl w hw) hm

theorem chars_of_plain (h : ∀ b ∈ l, IsPlain b) : Chars l := by
  induction l with
  | nil => exact .nil
  | cons b l ih => exact .plain (h b List.mem_cons_self) (ih fun c hc => h c (List.mem_cons_of_mem b hc))

theorem Names.derives (h : Names names list) : Derives .elements list := by
  induction h with
  | last hw hn hw' => exact .lastElement (.element hw (.string (chars_of_plain hn.2)) hw')
  | next hw hn hw' _ ih => exact .nextElement (.element hw (.string (chars_of_plain hn.2)) hw') ih

/-- **A schema text is a JSON text.** -/
theorem RequiredText.derives (h : RequiredText before list after names text) : Derives .element text := by
  obtain ⟨hopening, hw, hw', hlist, hclosing, -⟩ := h
  rename_i w w'
  obtain ⟨s, u, rfl, hs, hbefore⟩ := hopening.exists_members
  obtain ⟨v, s', rfl, hs', hafter⟩ := hclosing.exists_members
  have harray : Derives .value (openBracket :: (list ++ [closeBracket])) := by
    rcases hlist with ⟨-, hspace⟩ | hnames
    · exact .emptyArray hspace
    · exact .array hnames.derives
  have hkey : Chars (ascii "required") := chars_of_plain (plain_of_all rfl)
  have hmembers : Derives .members
      (u ++ (requiredKey ++ (w ++ colon :: w') ++ openBracket :: (list ++ closeBracket :: v))) := by
    refine hbefore _ ?_
    intro z hz
    have hrest := hafter
      (z ++ literal (ascii "required") ++ w ++ colon :: (w' ++ openBracket :: (list ++ [closeBracket])))
      fun z' hz' => ?_
    · rw [requiredKey_eq]
      simpa only [List.append_assoc, List.cons_append, List.nil_append] using hrest
    · have hmember := Derives.member hz hkey hw (.element hw' harray hz')
      simpa only [List.append_assoc, List.cons_append, List.nil_append] using hmember
  have hvalue := Derives.element hs (.object hmembers) hs'
  simpa only [List.append_assoc, List.cons_append, List.nil_append] using hvalue

/-- **The scan ends without a slice out of range on every byte string, and on the text of a schema it finds
    exactly the required names if and only if** no `"required"` before the member has a bracket behind it, and
    no string is written behind the array but the empty one. -/
theorem requiredFields_exact_iff (definition : Bytes) (htext : RequiredText before list after names text) :
    (∃ fields, requiredFields definition = some fields) ∧
      (requiredFields text = some names ↔ Unbracketed before ∧ Wordless after) := by
  refine ⟨⟨_, requiredFields_eq definition⟩, ?_⟩
  rw [requiredFields_eq, Option.some_inj, fieldsOf]
  obtain ⟨hopening, hw, hw', hlist, hclosing, hutf⟩ := htext
  rename_i w w'
  rw [if_pos hutf]
  have hm : openBracket ∉ w ++ colon :: w' := by
    rw [List.mem_append, List.mem_cons, not_or, not_or]
    exact ⟨hw.unbracketed, by decide, hw'.unbracketed⟩
  by_cases hbefore : Unbracketed before
  · have hquoted : quoted (list ++ closeBracket :: after) = names ++ quoted after := by
      have hclose : quotedFrom none (closeBracket :: after) = quoted after := by
        rw [quotedFrom, if_neg (by decide), quoted]
      rcases hlist with ⟨rfl, hspace⟩ | hnames
      · rw [quoted, quotedFrom_none_append hspace.unmarked, hclose, List.nil_append]
      · rw [quoted, hnames.quotedFrom_none, hclose]
    rw [listed_of_unbracketed hm hbefore, Option.elim_some, hquoted, List.append_right_eq_self,
      hclosing.lexed.quoted_eq_nil_iff]
    exact (and_iff_right hbefore).symm
  · obtain ⟨u, v, rfl, hlisted⟩ := listed_of_bracketed (w ++ colon :: w') (list ++ closeBracket :: after) hbefore
    have hmore := lt_length_quoted (closeBracket :: after) hopening.getLast_of_append
      (colon_unmarked hw hw') (hlist.imp And.left id)
    rw [hlisted, Option.elim_some]
    constructor
    · intro heq
      rw [heq] at hmore
      exact absurd hmore (Nat.lt_irrefl _)
    · exact fun h => absurd h.1 hbefore

end

theorem derives_type : Derives .members (ascii "\"type\":\"object\"") := by
  have hspace : Space [] := List.forall_mem_nil _
  exact .lastMember (.member hspace (chars_of_plain (l := ascii "type") (plain_of_all rfl)) hspace
    (.element hspace (.string (chars_of_plain (l := ascii "object") (plain_of_all rfl))) hspace))

/-- A schema that ends with its array, and is a JSON text. -/
theorem requiredFields_exact_iff_typed :
    let text := ascii "\x7b\"type\":\"object\",\"required\":[\"actor\",\"action\"]\x7d"
    Derives .element text ∧ requiredFields text = some [ascii "actor", ascii "action"] := by
  intro text
  have hspace : Space [] := List.forall_mem_nil _
  have hnames : Names [ascii "actor", ascii "action"] (ascii "\"actor\",\"action\"") :=
    .next hspace ⟨by decide, plain_of_all rfl⟩ hspace (.last hspace ⟨by decide, plain_of_all rfl⟩ hspace)
  have htext : RequiredText (ascii "\x7b\"type\":\"object\",") _ (ascii "\x7d") _ text :=
    .mk (.later hspace derives_type hspace) hspace hspace (.inr hnames) (.last hspace hspace) (by decide)
  refine ⟨htext.derives, (requiredFields_exact_iff [] htext).2.2 ⟨?_, .other (by decide) .nil⟩⟩
  intro u v heq hmem
  have hbracket : openBracket ∈ ascii "\x7b\"type\":\"object\"," := heq ▸ List.mem_append_right _ hmem
  revert hbracket
  decide

/-- **The scan goes on behind the array**, and returns the strings of the next member. -/
theorem fields_behind_the_array :
    ¬∀ {before list after text : Bytes} {names : List Bytes}, RequiredText before list after names text →
      requiredFields text = some names := by
  intro h
  have hspace : Space [] := List.forall_mem_nil _
  have htext : RequiredText (ascii "\x7b") (ascii "\"a\"") (ascii ",\"type\":\"object\"\x7d") [ascii "a"]
      (ascii "\x7b\"required\":[\"a\"],\"type\":\"object\"\x7d") :=
    .mk (.first hspace hspace) hspace hspace (.inr (.last hspace ⟨by decide, plain_of_all rfl⟩ hspace))
      (.earlier hspace derives_type hspace) (by decide)
  have hfields : requiredFields (ascii "\x7b\"required\":[\"a\"],\"type\":\"object\"\x7d") =
      some [ascii "a", ascii "type", ascii "object"] := by
    rw [requiredFields_eq]
    decide
  rw [h htext] at hfields
  revert hfields
  decide

end AuditLedger
