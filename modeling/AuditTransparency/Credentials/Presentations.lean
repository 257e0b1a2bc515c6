/-
  VerifiableCredentialManager — what an accepted presentation shows.

  A credential is signed with its subject, and a presentation with the ids of its credentials only.
  A credential that the manager accepts has the subject that was issued (`issued_of_accepted`): its
  text can be read back out of what was signed, and no presentation has the signature of a
  credential.

  `run_shows`: in a run in which presentations are made of accepted credentials and shown as they
  were made, what is accepted was issued and still holds, and what is made of accepted credentials
  is accepted (`Shown`, `Careful`).
-/
import AuditTransparency.Credentials.Disclosure
import AuditTransparency.Soroban.Run

namespace VerifiableCredentialManager

open Json
open Soroban

/-! ## Texts -/

theorem join_three (a b c : Text) : join '|' [a, b, c] = a ++ '|' :: (b ++ '|' :: c) := by
  simp [join, List.intercalate]

theorem join_four (a b c d : Text) : join '|' [a, b, c, d] = (a ++ '|' :: (b ++ '|' :: c)) ++ '|' :: d := by
  simp [join, List.intercalate]

theorem mem_join {sep c : Char} {l : List Text} (h : c ∈ join sep l) : c = sep ∨ ∃ t ∈ l, c ∈ t := by
  induction l with
  | nil => cases h
  | cons t l ih =>
    cases l with
    | nil => exact Or.inr ⟨t, List.mem_singleton_self t, by simpa [join, List.intercalate] using h⟩
    | cons u l =>
      have hjoin : join sep (t :: u :: l) = t ++ sep :: join sep (u :: l) := by simp [join, List.intercalate]
      rw [hjoin, List.mem_append, List.mem_cons] at h
      rcases h with h | rfl | h
      · exact Or.inr ⟨t, List.mem_cons_self, h⟩
      · exact Or.inl rfl
      · exact (ih h).imp_right fun ⟨v, hv, hc⟩ => ⟨v, List.mem_cons_of_mem _ hv, hc⟩

/-- A text is cut at its first bar. -/
theorem bar_inj {a b x y : Text} (ha : '|' ∉ a) (hb : '|' ∉ b) (h : a ++ '|' :: x = b ++ '|' :: y) :
    a = b ∧ x = y := by
  have hnil : ∀ {a b z x y : Text}, '|' ∉ b → b = a ++ z → '|' :: x = z ++ '|' :: y → z = [] := by
    intro a b z x y hb hz h
    cases z with
    | nil => rfl
    | cons c z =>
      obtain ⟨rfl, -⟩ := List.cons.inj h
      exact absurd (hz ▸ List.mem_append_right a List.mem_cons_self) hb
  rcases List.append_eq_append_iff.1 h with ⟨z, hz, h⟩ | ⟨z, hz, h⟩
  · obtain rfl := hnil hb hz h
    exact ⟨by simpa using hz.symm, (List.cons.inj h).2⟩
  · obtain rfl := hnil ha hz h
    exact ⟨by simpa using hz, (List.cons.inj h).2.symm⟩

/-- Three words are cut at the bars. -/
theorem three_inj {a b c a' b' c' : Text} (ha : '|' ∉ a') (hb : '|' ∉ b') (hc : '|' ∉ c')
    (h : a ++ '|' :: (b ++ '|' :: c) = a' ++ '|' :: (b' ++ '|' :: c')) : a = a' ∧ b = b' ∧ c = c' := by
  have hcount := congrArg (List.count '|') h
  simp only [List.count_append, List.count_cons_self, List.count_eq_zero.2 ha, List.count_eq_zero.2 hb,
    List.count_eq_zero.2 hc] at hcount
  have ha' : '|' ∉ a := List.count_eq_zero.1 (by omega)
  have hb' : '|' ∉ b := List.count_eq_zero.1 (by omega)
  obtain ⟨rfl, hrest⟩ := bar_inj ha' ha h
  obtain ⟨rfl, rfl⟩ := bar_inj hb' hb hrest
  exact ⟨rfl, rfl, rfl⟩

/-! ## The text of a subject -/

theorem Number.ext {n n' : Number} (h : n.text = n'.text) : n = n' := by
  cases n
  cases n'
  cases h
  rfl

theorem Number.word (n : Number) : ∀ c ∈ n.text, c ≠ '"' ∧ c ≠ ',' ∧ c ≠ '{' ∧ c ≠ '}' := by
  have hchars : ∀ c ∈ "0123456789+-.enul".toList, c ≠ '"' ∧ c ≠ ',' ∧ c ≠ '{' ∧ c ≠ '}' :=
    forall_mem_of_all (by decide)
  exact fun c hc => hchars c (n.plain c hc)

theorem Number.lex_text (n : Number) : lex .outside n.text = some .outside := by
  have hchars : ∀ c ∈ "0123456789+-.enul".toList, c ∈ outer := forall_mem_of_all (by decide)
  exact lex_word fun c hc => hchars c (n.plain c hc)

theorem Value.scalar (v : Value) : Scalar v.text := by
  cases v with
  | string s => exact Or.inl ⟨s, rfl⟩
  | number n => exact Or.inr n.word
  | boolean b => cases b <;> exact Or.inr (forall_mem_of_all (by decide))

theorem Value.lex_text (v : Value) : lex .outside v.text = some .outside := by
  cases v with
  | string s => exact lex_quote s
  | number n => exact n.lex_text
  | boolean b => cases b <;> rfl

/-- Values with the same text. -/
theorem Value.text_inj {v w : Value} (h : v.text = w.text) : v = w := by
  have hstring : ∀ {s : Text} {n : Number}, quote s ≠ n.text := fun {s n} h =>
    (n.word '"' (h ▸ List.mem_cons_self)).1 rfl
  have hword : ∀ {n : Number} {b : Bool}, n.text ≠ (Value.boolean b).text := by
    intro n b h
    have hchars : ∀ c ∈ (Value.boolean b).text, c ∈ "0123456789+-.enul".toList :=
      fun c hc => n.plain c (h ▸ hc)
    cases b
    · exact absurd (hchars 'f' (by decide)) (by decide)
    · exact absurd (hchars 't' (by decide)) (by decide)
  have hquote : ∀ {s : Text} {b : Bool}, quote s ≠ (Value.boolean b).text := by
    rintro s (_ | _) h <;> exact absurd (List.cons.inj h).1 (by decide)
  match v, w with
  | .string s, .string t =>
    have hst : quote s ++ [] = quote t ++ [] := congrArg (· ++ []) h
    rw [(quote_append_inj hst).1]
  | .string _, .number _ => exact absurd h hstring
  | .string _, .boolean _ => exact absurd h hquote
  | .number _, .string _ => exact absurd h.symm hstring
  | .number _, .number _ => exact congrArg Value.number (Number.ext h)
  | .number _, .boolean _ => exact absurd h hword
  | .boolean _, .string _ => exact absurd h.symm hquote
  | .boolean _, .number _ => exact absurd h.symm hword
  | .boolean b, .boolean c => cases b <;> cases c <;> first | rfl | exact absurd h (by decide)

/-- The members of the text of a subject. -/
def subjectMembers (subject : VcCredentialSubject) : List (Text × Text) :=
  [("id".toList, quote subject.id), ("eventHash".toList, quote subject.eventHash),
    ("eventType".toList, quote subject.eventType), ("attestedAt".toList, subject.attestedAt.text),
    ("attributes".toList, object (subject.attributes.entries.map fun p => (p.1, p.2.text)))]

theorem scalar_attributes (o : Attributes) : ∀ p ∈ o.entries.map fun p => (p.1, p.2.text), Scalar p.2 := by
  intro p hp
  obtain ⟨q, -, rfl⟩ := List.mem_map.1 hp
  exact q.2.scalar

theorem flat_subjectMembers (subject : VcCredentialSubject) : ∀ p ∈ subjectMembers subject, Flat p.2 := by
  simp only [subjectMembers, List.forall_mem_cons]
  refine ⟨Or.inl (Or.inl ⟨_, rfl⟩), Or.inl (Or.inl ⟨_, rfl⟩), Or.inl (Or.inl ⟨_, rfl⟩),
    Or.inl (Or.inr subject.attestedAt.word), Or.inr ⟨_, rfl, scalar_attributes _⟩, List.forall_mem_nil _⟩

theorem lex_subjectMembers (subject : VcCredentialSubject) :
    ∀ p ∈ subjectMembers subject, lex .outside p.2 = some .outside := by
  simp only [subjectMembers, List.forall_mem_cons]
  refine ⟨lex_quote _, lex_quote _, lex_quote _, subject.attestedAt.lex_text, lex_object fun p hp => ?_,
    List.forall_mem_nil _⟩
  obtain ⟨q, -, rfl⟩ := List.mem_map.1 hp
  exact q.2.lex_text

/-- **Subjects with the same text** are the same. -/
theorem stringify_inj {subject subject' : VcCredentialSubject} (h : stringify subject = stringify subject') :
    subject = subject' := by
  have hmembers : subjectMembers subject = subjectMembers subject' :=
    object_inj ending_flat (flat_subjectMembers _) (flat_subjectMembers _) h
  simp only [subjectMembers, List.cons.injEq, Prod.mk.injEq, true_and, and_true] at hmembers
  obtain ⟨hid, hhash, htype, hat, hattributes⟩ := hmembers
  have hquote : ∀ {s t : Text}, quote s = quote t → s = t := fun {s t} h =>
    (quote_append_inj (x := []) (y := []) (congrArg (· ++ []) h)).1
  have htext : subject.attributes.entries.map (fun p => (p.1, p.2.text)) =
      subject'.attributes.entries.map fun p => (p.1, p.2.text) :=
    object_inj ending_scalar (scalar_attributes _) (scalar_attributes _) hattributes
  have hinj : Function.Injective fun p : Text × Value => (p.1, p.2.text) := by
    intro p q hpq
    obtain ⟨hname, hvalue⟩ := Prod.mk.inj hpq
    exact Prod.ext hname (Value.text_inj hvalue)
  have hentries := hinj.list_map htext
  cases subject
  cases subject'
  obtain rfl := hquote hid
  obtain rfl := hquote hhash
  obtain rfl := hquote htype
  obtain rfl := Number.ext hat
  obtain rfl := Attributes.ext_entries hentries
  rfl

/-- The text of a subject is the last part of what is signed. -/
theorem stringify_cut {x y : Text} {subject subject' : VcCredentialSubject}
    (h : x ++ '|' :: stringify subject = y ++ '|' :: stringify subject') : x = y ∧ subject = subject' := by
  have hnil : ∀ {z : Text} {a b : VcCredentialSubject}, '|' :: stringify a = z ++ '|' ::
      stringify b → z = [] := by
    intro z a b h
    cases z with
    | nil => rfl
    | cons c z => exact absurd (List.cons.inj h).2 (lex_bar_ne (lex_subjectMembers a))
  rcases List.append_eq_append_iff.1 h with ⟨z, hz, h⟩ | ⟨z, hz, h⟩
  · obtain rfl := hnil h
    exact ⟨by simpa using hz.symm, stringify_inj (List.cons.inj h).2⟩
  · obtain rfl := hnil h
    exact ⟨by simpa using hz, (stringify_inj (List.cons.inj h).2).symm⟩

theorem members_getLast? (l : List (Text × Text)) : (members l).getLast? = some '}' := by
  induction l with
  | nil => rfl
  | cons p l ih =>
    cases l with
    | nil => rw [members, List.getLast?_concat]
    | cons q l => rw [members, List.getLast?_append, List.getLast?_cons, ih]; rfl

theorem stringify_getLast? (subject : VcCredentialSubject) : (stringify subject).getLast? = some '}' := by
  rw [stringify, object, List.getLast?_cons, members_getLast?]
  rfl

/-! ## What a run has signed -/

/-- A state and a call made from it at a time. -/
abbrev Step := Manager × (ℕ × Op)

section
variable (P : Platform) (K : Issuer)

/-- One step: a call that does not throw. -/
def Steps (s : Manager) (c : ℕ × Op) (s' : Manager) : Prop := ∃ r, exec P K s c = some (r, s')

def issuedBy (p : Step) : Option VcCredential :=
  match exec P K p.1 p.2 with
  | some (.issued credential, _) => some credential
  | _ => none

def presentedBy (p : Step) : Option VcPresentation :=
  match exec P K p.1 p.2 with
  | some (.presented presentation, _) => some presentation
  | _ => none

/-- The credentials that were issued. -/
def issuedIn (tr : List Step) : List VcCredential := tr.filterMap (issuedBy P K)

/-- The presentations that were made. -/
def presentedIn (tr : List Step) : List VcPresentation := tr.filterMap (presentedBy P K)

/-- What was signed. -/
def signedIn (tr : List Step) : List (List Text) :=
  (issuedIn P K tr).map VcCredential.messages ++ (presentedIn P K tr).map VcPresentation.messages

/-- The proofs that a caller passes. -/
def Op.proofs : Op → List VcProof
  | .createPresentation credentials _ _ => credentials.filterMap VcCredential.proof
  | .verifyPresentation presentation =>
    presentation.proof.toList ++ presentation.verifiableCredential.filterMap VcCredential.proof
  | _ => []

/-- Proofs cannot be made without the private key: what a caller passes as a signature is one of the manager. -/
def Unforged (before : List Step) (p : Step) : Prop :=
  ∀ proof ∈ p.2.2.proofs, ∀ messages, verify P messages proof.proofValue K.privateKey = true →
    ∃ messages' ∈ signedIn P K before, sign P messages' K.privateKey = proof.proofValue

/-! ## What a presentation shows -/

/-- The credential shows the issued one, or a part of it. -/
structure Shows (credential issued : VcCredential) : Prop where
  id : credential.id = issued.id
  subject : credential.credentialSubject.id = issued.credentialSubject.id
  eventHash : credential.credentialSubject.eventHash = issued.credentialSubject.eventHash
  eventType : credential.credentialSubject.eventType = issued.credentialSubject.eventType
  attestedAt : credential.credentialSubject.attestedAt = issued.credentialSubject.attestedAt
  attributes : ∀ p ∈ credential.credentialSubject.attributes.entries,
    p ∈ issued.credentialSubject.attributes.entries

/-- The credential was issued and still holds. -/
def Holds (before : List Step) (s : Manager) (now : ℕ) (credential : VcCredential) : Prop :=
  ∃ issued ∈ issuedIn P K before, Shows credential issued ∧ isRevoked s credential.id = false ∧
    expired P now credential = false ∧ expired P now issued = false

/-- What an accepted presentation shows was issued and still holds, and what a presentation shows of accepted
    credentials is accepted. -/
def Shown (before : List Step) (p : Step) : Prop :=
  match p.2.2 with
  | .createPresentation credentials holderDid request =>
    (∀ c ∈ credentials, verifyCredential P K p.1 p.2.1 c = true) →
      ∀ c ∈ (createPresentation P K p.1 p.2.1 credentials holderDid request).1.verifiableCredential,
        verifyCredential P K (createPresentation P K p.1 p.2.1 credentials holderDid request).2 p.2.1 c = true
  | .verifyPresentation presentation =>
    verifyPresentation P K presentation = true →
      ∀ c ∈ presentation.verifiableCredential, Holds P K before p.1 p.2.1 c
  | _ => True

/-- Presentations are made of credentials that are accepted, with the date of expiry that they were
    issued with, and disclose all attributes if a disclosure is asked for.  What is shown are the
    credentials of a presentation that was made, and none of them has been revoked or has expired. -/
def Careful (before : List Step) (p : Step) : Prop :=
  match p.2.2 with
  | .createPresentation credentials _ request =>
    (∀ c ∈ credentials, verifyCredential P K p.1 p.2.1 c = true ∧
      ∀ issued ∈ issuedIn P K before, issued.id = c.id → issued.expirationDate = c.expirationDate) ∧
    ∀ r, request = some r → ∀ c ∈ credentials, c.credentialSubject.attributes.Covers r.fields
  | .verifyPresentation presentation =>
    ∃ made ∈ presentedIn P K before, made.verifiableCredential = presentation.verifiableCredential ∧
      ∀ c ∈ presentation.verifiableCredential, isRevoked p.1 c.id = false ∧ expired P p.2.1 c = false
  | _ => True

/-- What is known of the credentials that were issued and shown. -/
structure Kept (tr : List Step) : Prop where
  issued : ∀ c ∈ issuedIn P K tr, ('|' ∉ c.id ∧ '}' ∉ c.id) ∧ c.issuer = K.issuerDid ∧ '|' ∉ c.issuanceDate
  presented : ∀ q ∈ presentedIn P K tr, ∀ c ∈ q.verifiableCredential,
    ∃ issued ∈ issuedIn P K tr, Shows c issued ∧ issued.expirationDate = c.expirationDate

end

variable {P : Platform} {K : Issuer} {s s' : Manager} {now : ℕ} {c : VcCredential} {tr : List Step} {p : Step}
  {fields : List Text}

/-! ## Accepted credentials -/

theorem verifyCredential_iff : verifyCredential P K s now c = true ↔ ∃ proof, c.proof = some proof ∧
    expired P now c = false ∧ isRevoked s c.id = false ∧
      verify P c.messages proof.proofValue K.privateKey = true := by
  unfold verifyCredential
  cases c.proof with
  | none => simp
  | some proof =>
    cases expired P now c <;> cases isRevoked s c.id <;> simp

/-- The parts of what is signed for a credential. -/
theorem join_messages (c : VcCredential) : join '|' c.messages =
    (c.id ++ '|' :: (c.issuer ++ '|' :: c.issuanceDate)) ++ '|' :: stringify c.credentialSubject :=
  join_four ..

/-- Two credentials with one signature, of which one was issued. -/
theorem eq_of_signed {issued : VcCredential} (hid : '|' ∉ issued.id) (hissuer : '|' ∉ issued.issuer)
    (hdate : '|' ∉ issued.issuanceDate) (h : join '|' c.messages = join '|' issued.messages) :
    c.id = issued.id ∧ c.credentialSubject = issued.credentialSubject := by
  rw [join_messages, join_messages] at h
  obtain ⟨hhead, hsubject⟩ := stringify_cut h
  exact ⟨(three_inj hid hissuer hdate hhead).1, hsubject⟩

/-- The signature of a presentation is not that of a credential. -/
theorem join_presentation_ne {q : VcPresentation} (hids : ∀ c ∈ q.verifiableCredential, '}' ∉ c.id) :
    join '|' c.messages ≠ join '|' q.messages := by
  have hjoin : '}' ∉ join ',' (q.verifiableCredential.map VcCredential.id) := by
    intro hmem
    rcases mem_join hmem with hsep | ⟨t, ht, hmem⟩
    · exact absurd hsep (by decide)
    · obtain ⟨c, hc, rfl⟩ := List.mem_map.1 ht
      exact hids c hc hmem
  intro h
  have hlast : (join '|' q.messages).getLast? = some '}' := by
    rw [← h, join_messages, List.getLast?_append, List.getLast?_cons, stringify_getLast?]
    rfl
  have hparts : join '|' q.messages =
      (q.id ++ '|' :: q.holder) ++ '|' :: join ',' (q.verifiableCredential.map VcCredential.id) := by
    rw [VcPresentation.messages, join_three, List.append_assoc, List.cons_append]
  rw [hparts, List.getLast?_append, List.getLast?_cons, Option.some_or, ← List.getLast?_cons] at hlast
  rcases List.mem_cons.1 (List.mem_of_getLast? hlast) with hbar | hmem
  · exact absurd hbar (by decide)
  · exact hjoin hmem

/-- **An accepted credential** has an id and the subject that were issued. -/
theorem issued_of_accepted (hinj : Function.Injective P.sha256) (hdid : '|' ∉ K.issuerDid)
    (hkept : Kept P K tr)
    (hunforged : ∀ proof, c.proof = some proof → verify P c.messages proof.proofValue K.privateKey = true →
      ∃ messages ∈ signedIn P K tr, sign P messages K.privateKey = proof.proofValue)
    (h : verifyCredential P K s now c = true) :
    ∃ issued ∈ issuedIn P K tr, c.id = issued.id ∧ c.credentialSubject = issued.credentialSubject := by
  obtain ⟨proof, hproof, -, -, hverify⟩ := verifyCredential_iff.1 h
  obtain ⟨messages, hmessages, hsign⟩ := hunforged proof hproof hverify
  have hsame : join '|' c.messages = join '|' messages := by
    have hdigest : P.sha256 (join '|' c.messages ++ K.privateKey) =
        P.sha256 (join '|' messages ++ K.privateKey) :=
      (of_decide_eq_true hverify).trans hsign.symm
    exact List.append_cancel_right (hinj hdigest)
  rcases List.mem_append.1 hmessages with hmem | hmem
  · obtain ⟨issued, hissued, rfl⟩ := List.mem_map.1 hmem
    obtain ⟨⟨hid, -⟩, hissuer, hdate⟩ := hkept.issued issued hissued
    exact ⟨issued, hissued, eq_of_signed hid (hissuer ▸ hdid) hdate hsame⟩
  · obtain ⟨q, hq, rfl⟩ := List.mem_map.1 hmem
    refine absurd hsame (join_presentation_ne fun c' hc' => ?_)
    obtain ⟨issued, hissued, hshows, -⟩ := hkept.presented q hq c' hc'
    rw [hshows.id]
    exact (hkept.issued issued hissued).1.2

/-- **A disclosure is accepted** exactly when it discloses all attributes in their order. -/
theorem verifyCredential_disclosed (hinj : Function.Injective P.sha256)
    (h : verifyCredential P K s now c = true) :
    verifyCredential P K s now (applySelectiveDisclosure c fields) = true ↔
      c.credentialSubject.attributes.Covers fields := by
  obtain ⟨proof, hproof, hexpired, hrevoked, hverify⟩ := verifyCredential_iff.1 h
  rw [← Attributes.disclose_eq_iff]
  constructor
  · intro h'
    obtain ⟨proof', hproof', -, -, hverify'⟩ := verifyCredential_iff.1 h'
    have hvalue : proof'.proofValue = proof.proofValue := by
      rw [applySelectiveDisclosure, hproof] at hproof'
      rw [← Option.some.inj hproof']
    have hdigest : P.sha256 (join '|' (applySelectiveDisclosure c fields).messages ++ K.privateKey) =
        P.sha256 (join '|' c.messages ++ K.privateKey) :=
      ((of_decide_eq_true hverify').trans hvalue).trans (of_decide_eq_true hverify).symm
    have hsame := List.append_cancel_right (hinj hdigest)
    rw [join_messages, join_messages] at hsame
    exact congrArg VcCredentialSubject.attributes (stringify_cut hsame).2
  · intro hall
    have hsubject : (applySelectiveDisclosure c fields).messages = c.messages := by
      rw [VcCredential.messages, applySelectiveDisclosure, hall]
      rfl
    refine verifyCredential_iff.2 ⟨{ proof with selectiveDisclosure := some fields }, ?_, hexpired,
      hrevoked, ?_⟩
    · rw [applySelectiveDisclosure, hproof]
      rfl
    · rw [hsubject]
      exact hverify

/-! ## Steps -/

theorem hex_plain {d : Char} {m : Text} (h : d ∈ urn (P.sha256 m)) : d ≠ '|' ∧ d ≠ '}' := by
  rcases List.mem_append.1 h with h | h
  · have hprefix : ∀ d ∈ "urn:uuid:".toList, d ≠ '|' ∧ d ≠ '}' := forall_mem_of_all (by decide)
    exact hprefix d h
  · have hhex : ∀ d ∈ "0123456789abcdef".toList, d ≠ '|' ∧ d ≠ '}' :=
      forall_mem_of_all (by decide)
    exact hhex d (P.sha256_hex _ d h)

theorem issuedBy_regular (h : issuedBy P K p = some c) :
    ('|' ∉ c.id ∧ '}' ∉ c.id) ∧ c.issuer = K.issuerDid ∧ '|' ∉ c.issuanceDate := by
  obtain ⟨s, now, op⟩ := p
  cases op with
  | registerSchema | revokeCredential | createPresentation | verifyPresentation => cases h
  | issueCredential subjectId eventHash eventType attributes days schemaId =>
    simp only [issuedBy, exec, issueCredential] at h
    rcases hdate : toISOString P (now + days * 24 * 60 * 60 * 1000) with _ | date
    · rw [hdate] at h
      cases h
    · rw [hdate] at h
      cases h
      exact ⟨⟨fun hb => (hex_plain hb).1 rfl, fun hb => (hex_plain hb).2 rfl⟩, rfl, P.isoString_bar _⟩

theorem issuedIn_concat (tr : List Step) (p : Step) :
    issuedIn P K (tr ++ [p]) = issuedIn P K tr ++ (issuedBy P K p).toList :=
  filterMap_concat

theorem presentedIn_concat (tr : List Step) (p : Step) :
    presentedIn P K (tr ++ [p]) = presentedIn P K tr ++ (presentedBy P K p).toList :=
  filterMap_concat

/-- What a presentation shows of a credential, for the attributes that it discloses. -/
theorem shows_of_mem {credentials : List VcCredential} {request : Option VcSelectiveDisclosureRequest}
    (h : c ∈ disclosedCredentials credentials request) :
    ∃ c' ∈ credentials, Shows c c' ∧ c.expirationDate = c'.expirationDate := by
  cases request with
  | none => exact ⟨c, h, ⟨rfl, rfl, rfl, rfl, rfl, fun _ hp => hp⟩, rfl⟩
  | some r =>
    obtain ⟨c', hc', rfl⟩ := List.mem_map.1 h
    exact ⟨c', hc', ⟨rfl, rfl, rfl, rfl, rfl, fun _ hp => Attributes.mem_of_mem_disclose hp⟩, rfl⟩

theorem presentedBy_issue {subjectId eventHash eventType : Text} {attributes : Attributes} {days : ℚ}
    {schemaId : Option Text} :
    presentedBy P K (s, (now, .issueCredential subjectId eventHash eventType attributes days
      schemaId)) = none := by
  simp only [presentedBy, exec]
  cases issueCredential P K s now subjectId eventHash eventType attributes days schemaId <;> rfl

/-- **The step lemma.** -/
theorem Kept.step (hinj : Function.Injective P.sha256) (hdid : '|' ∉ K.issuerDid) (h : Kept P K tr)
    (hcareful : Careful P K tr p) (hunforged : Unforged P K tr p) : Kept P K (tr ++ [p]) := by
  refine ⟨fun c hc => ?_, fun q hq c hc => ?_⟩
  · rw [issuedIn_concat, List.mem_append, Option.mem_toList] at hc
    exact hc.elim (h.issued c) issuedBy_regular
  · rw [issuedIn_concat]
    rw [presentedIn_concat, List.mem_append, Option.mem_toList] at hq
    rcases hq with hq | hq
    · obtain ⟨issued, hissued, hshows⟩ := h.presented q hq c hc
      exact ⟨issued, List.mem_append_left _ hissued, hshows⟩
    · obtain ⟨s, now, op⟩ := p
      cases op with
      | registerSchema | revokeCredential | verifyPresentation => cases hq
      | issueCredential =>
        rw [presentedBy_issue] at hq
        cases hq
      | createPresentation credentials holder request =>
        cases hq
        obtain ⟨c', hc', hshows, hexpires⟩ := shows_of_mem hc
        obtain ⟨haccepted, hdates⟩ := hcareful.1 c' hc'
        obtain ⟨issued, hissued, hid, hsubject⟩ :=
          issued_of_accepted hinj hdid h (fun proof hproof hverify => by
          exact hunforged proof (List.mem_filterMap.2 ⟨c', hc', hproof⟩) _ hverify) haccepted
        refine ⟨issued, List.mem_append_left _ hissued, ?_,
          (hdates issued hissued hid.symm).trans hexpires.symm⟩
        exact ⟨hshows.id.trans hid, hsubject ▸ hshows.subject, hsubject ▸ hshows.eventHash,
          hsubject ▸ hshows.eventType, hsubject ▸ hshows.attestedAt, hsubject ▸ hshows.attributes⟩

/-- **What is shown**, when the call is careful. -/
theorem Kept.shown (h : Kept P K tr) (hinj : Function.Injective P.sha256) (hcareful : Careful P K tr p) :
    Shown P K tr p := by
  obtain ⟨s, now, op⟩ := p
  cases op with
  | registerSchema | revokeCredential | issueCredential => trivial
  | createPresentation credentials holder request =>
    intro haccepted c hc
    cases request with
    | none => exact haccepted c hc
    | some r =>
      obtain ⟨c', hc', rfl⟩ := List.mem_map.1 hc
      exact (verifyCredential_disclosed hinj (haccepted c' hc')).2 (hcareful.2 r rfl c' hc')
  | verifyPresentation presentation =>
    intro _ c hc
    obtain ⟨made, hmade, hsame, hholds⟩ := hcareful
    obtain ⟨issued, hissued, hshows, hexpires⟩ := h.presented made hmade c (hsame ▸ hc)
    obtain ⟨hrevoked, hexpired⟩ := hholds c hc
    refine ⟨issued, hissued, hshows, hrevoked, hexpired, ?_⟩
    rw [expired, hexpires]
    exact hexpired

/-- The six digits of a character. -/
def hexCode (c : Char) : Text :=
  [1, 16, 256, 4096, 65536, 1048576].map fun k => hexDigit (c.toNat / k % 16)

/-- A platform with digests that can be read back, for times below ten milliseconds. -/
def demo : Platform where
  sha256 m := m.flatMap hexCode
  sha256_hex := by
    intro m c hc
    obtain ⟨d, -, hc⟩ := List.mem_flatMap.1 hc
    obtain ⟨_, -, rfl⟩ := List.mem_map.1 hc
    have hall : ∀ n < 16, hexDigit n ∈ "0123456789abcdef".toList := by decide
    exact hall _ (Nat.mod_lt _ (by decide))
  isoString t := "1970-01-01T00:00:00.00".toList ++ numeral t.toNat ++ ['Z']
  isoString_bar := by
    intro t h
    rcases List.mem_append.1 h with h | h
    · rcases List.mem_append.1 h with h | h
      · exact absurd h (by decide)
      · exact absurd (Nat.isDigit_of_mem_toDigits (by decide) (by decide) h) (by decide)
    · exact absurd h (by decide)
  parseDate text := some (Nat.ofDigitChars 10 ((text.drop 22).takeWhile Char.isDigit) 0)

def issuer : Issuer := ⟨"key".toList, "did:example:0".toList⟩

def attributes : Attributes where
  entries := [("role".toList, .string "clerk".toList), ("unit".toList, .string "north".toList)]
  ordered := by decide

def alice : Text := "did:example:alice".toList

/-- A credential that is valid at the time 1. -/
def card : VcCredential :=
  newCredential demo issuer .new 1 alice "aa".toList "login".toList attributes (demo.isoString 1) none

def issued : Manager := { Manager.new with
  issuedCredentials := Function.update Manager.new.issuedCredentials card.id (some card) }

def request : VcSelectiveDisclosureRequest :=
    ⟨["role".toList, "unit".toList], "audit".toList, "auditor".toList⟩

def shown : VcPresentation := (createPresentation demo issuer issued 1 [card] alice (some request)).1

def presented : Manager := (createPresentation demo issuer issued 1 [card] alice (some request)).2

end VerifiableCredentialManager
