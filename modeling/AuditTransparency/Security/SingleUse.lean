/-
  AuthorizationServer — codes and refresh tokens are used once.

  A request spends a credential before its first `await`: the code is marked as used, the refresh token as
  revoked.  The refresh tokens that come from one code are a chain; its tip is a request that is waiting
  for its signature, or a token that is not revoked, and there is one tip at any time (`Kept.tips`).
-/
import AuditTransparency.Security.Grants

namespace AuthorizationServer

open Soroban Words Pkce

variable {opts : AuthorizationServerOptions} {s256 : String → String} {w w' : World} {a : Action}
  {tr : List (World × Action)} {body : TokenBody} {requests : List Request} {c t : String}

/-! ## Credentials -/

inductive Credential where
  | code (code : String)
  | refresh (token : String)
  deriving DecidableEq

/-- What a request shows. -/
def TokenBody.credential? (b : TokenBody) : Option Credential :=
  match b.grant? with
  | some .authorizationCode => b.code.map .code
  | some .refreshToken => b.refreshToken.map .refresh
  | some .clientCredentials | some .tokenExchange | none => none

/-- A request that has a token, or waits for its signature. -/
def Status.accepted : Status → Bool
  | .minting _ | .answered .. => true
  | .verifying .. | .failed _ => false

/-- A request that has succeeded. -/
def Status.succeeded : Status → Bool
  | .answered .. => true
  | .minting _ | .verifying .. | .failed _ => false

/-- The refresh token of its response. -/
def Status.issued? : Status → Option String
  | .answered _ response => response.refreshToken
  | .minting _ | .verifying .. | .failed _ => none

/-- A code that is used, a refresh token that is revoked. -/
def Spent (w : World) : Credential → Prop
  | .code code => ∃ record, w.authCodes code = some record ∧ record.used = true
  | .refresh token => ∃ record, w.refreshTokens token = some record ∧ record.revoked = true

/-- A refresh token that is not revoked. -/
def Live (w : World) (token : String) : Prop :=
  ∃ record, w.refreshTokens token = some record ∧ record.revoked = false

/-- The refresh tokens that descend from the code `c`. -/
inductive Descends (requests : List Request) (c : String) : String → Prop where
  | redeemed {k : ℕ} {r : Request} {t : String} (hr : requests[k]? = some r)
      (hcode : r.body.credential? = some (.code c)) (ht : r.status.issued? = some t) : Descends requests c t
  | rotated {k : ℕ} {r : Request} {t t' : String} (hfrom : Descends requests c t')
      (hr : requests[k]? = some r)
      (hrefresh : r.body.credential? = some (.refresh t')) (ht : r.status.issued? = some t) :
      Descends requests c t

/-- A request whose token would descend from the code `c`. -/
def Heir (requests : List Request) (c : String) (body : TokenBody) : Prop :=
  body.credential? = some (.code c) ∨ ∃ t, body.credential? = some (.refresh t) ∧ Descends requests c t

/-- A request that waits, or a token that is not revoked, at the end of the chain of the code `c`. -/
def Tip (w : World) (c : String) : ℕ ⊕ String → Prop
  | .inl k => ∃ body m, w.requests[k]? = some ⟨body, .minting m⟩ ∧ Heir w.requests c body
  | .inr t => Descends w.requests c t ∧ Live w t

/-- What every step keeps. -/
structure Kept (w : World) : Prop where
  spent : ∀ (k : ℕ) (r : Request) (cred : Credential), w.requests[k]? = some r → r.status.accepted = true →
    r.body.credential? = some cred → Spent w cred
  once : ∀ (k k' : ℕ) (r r' : Request) (cred : Credential), w.requests[k]? = some r →
    w.requests[k']? = some r' →
    r.status.accepted = true → r'.status.accepted = true → r.body.credential? = some cred →
      r'.body.credential? = some cred → k = k'
  verifying : ∀ (k : ℕ) (body : TokenBody) (client : OAuthClient) (subjectToken : String),
    w.requests[k]? = some ⟨body, .verifying client subjectToken⟩ → body.credential? = none
  issued : ∀ (k : ℕ) (r : Request) (t : String), w.requests[k]? = some r → r.status.issued? = some t →
    (w.refreshTokens t).isSome = true
  tips : ∀ (c : String) (x y : ℕ ⊕ String), Tip w c x → Tip w c y → x = y

theorem accepted_of_issued {s : Status} (h : s.issued? = some t) : s.accepted = true := by
  cases s with
  | answered m r => rfl
  | minting m | verifying client subjectToken | failed e => cases h

/-! ## Chains -/

/-- A chain is made of the requests that have issued tokens. -/
theorem Descends.mono {requests' : List Request}
    (hsame : ∀ (k : ℕ) (r : Request), r.status.issued?.isSome = true → requests[k]? = some r →
      requests'[k]? = some r) (h : Descends requests c t) : Descends requests' c t := by
  induction h with
  | redeemed hr hcode ht => exact .redeemed (hsame _ _ (ht ▸ rfl) hr) hcode ht
  | rotated _ hr hrefresh ht ih => exact .rotated ih (hsame _ _ (ht ▸ rfl) hr) hrefresh ht

/-- One more request that has not issued a token. -/
theorem descends_concat {r : Request} (hr : r.status.issued? = none) :
    Descends (requests ++ [r]) c t ↔ Descends requests c t := by
  constructor
  · refine Descends.mono fun k r' hsome hk => ?_
    rcases getElem?_concat_cases hk with hk | ⟨-, rfl⟩
    · exact hk
    · rw [hr] at hsome
      cases hsome
  · exact Descends.mono fun k r' _ hk => getElem?_concat_of_some hk

/-- A request that has not issued a token before or after. -/
theorem descends_set {k : ℕ} {r r' : Request} (hk : requests[k]? = some r) (hr : r.status.issued? = none)
    (hr' : r'.status.issued? = none) : Descends (requests.set k r') c t ↔ Descends requests c t := by
  constructor
  · refine Descends.mono fun j r'' hsome hj => ?_
    rcases getElem?_set_cases hj with hj | ⟨-, rfl⟩
    · exact hj
    · rw [hr'] at hsome
      cases hsome
  · refine Descends.mono fun j r'' hsome hj => ?_
    rcases eq_or_ne k j with rfl | hne
    · obtain rfl := Option.some.inj (hk.symm.trans hj)
      rw [hr] at hsome
      cases hsome
    · rw [List.getElem?_set_ne hne]
      exact hj

namespace Kept
variable (hw : Kept w)
include hw

/-- A code that has descendants is used. -/
theorem spent_of_descends (h : Descends w.requests c t) : Spent w (.code c) := by
  induction h with
  | redeemed hr hcode ht => exact hw.spent _ _ _ hr (accepted_of_issued ht) hcode
  | rotated _ _ _ _ ih => exact ih

theorem spent_of_tip {x : ℕ ⊕ String} (h : Tip w c x) : Spent w (.code c) := by
  cases x with
  | inl k =>
    obtain ⟨body, m, hk, hcode | ⟨t, -, hd⟩⟩ := h
    · exact hw.spent _ _ _ hk rfl hcode
    · exact hw.spent_of_descends hd
  | inr t => exact hw.spent_of_descends h.1

/-- A chain that one more request has made longer: its token is new. -/
theorem descends_renewed {k : ℕ} {body : TokenBody} {m : Mint} {response : TokenResponse} {new : String}
    (hk : w.requests[k]? = some ⟨body, .minting m⟩) (hnew : w.refreshTokens new = none)
    (hresponse : response.refreshToken = some new) :
    Descends (w.requests.set k ⟨body, .answered m response⟩) c t ↔
      Descends w.requests c t ∨ t = new ∧ Heir w.requests c body := by
  have hunspent : ∀ (j : ℕ) (r : Request), w.requests[j]? = some r → r.status.accepted = true →
      r.body.credential? ≠ some (.refresh new) := by
    intro j r hr ha hc
    obtain ⟨record, hrecord, -⟩ := hw.spent j r _ hr ha hc
    rw [hnew] at hrecord
    cases hrecord
  have hlt : k < w.requests.length := (List.getElem?_eq_some_iff.1 hk).1
  constructor
  · intro h
    induction h with
    | @redeemed j r t hr hcode ht =>
      rcases getElem?_set_cases hr with hr | ⟨rfl, rfl⟩
      · exact Or.inl (.redeemed hr hcode ht)
      · exact Or.inr ⟨Option.some.inj (ht.symm.trans hresponse), Or.inl hcode⟩
    | @rotated j r t t' _ hr hrefresh ht ih =>
      rcases getElem?_set_cases hr with hr | ⟨rfl, rfl⟩
      · rcases ih with hd | ⟨rfl, -⟩
        · exact Or.inl (.rotated hd hr hrefresh ht)
        · exact absurd hrefresh (hunspent j r hr (accepted_of_issued ht))
      · rcases ih with hd | ⟨rfl, -⟩
        · exact Or.inr ⟨Option.some.inj (ht.symm.trans hresponse), Or.inr ⟨t', hrefresh, hd⟩⟩
        · exact absurd hrefresh (hunspent j ⟨body, .minting m⟩ hk rfl)
  · have hold : ∀ {t}, Descends w.requests c t →
        Descends (w.requests.set k ⟨body, .answered m response⟩) c t := by
      refine Descends.mono fun j r hsome hj => ?_
      rcases eq_or_ne k j with rfl | hne
      · obtain rfl := Option.some.inj (hk.symm.trans hj)
        cases hsome
      · rw [List.getElem?_set_ne hne]
        exact hj
    rintro (hd | ⟨rfl, hcode | ⟨t', hrefresh, hd⟩⟩)
    · exact hold hd
    · exact .redeemed (List.getElem?_set_self hlt) hcode hresponse
    · exact .rotated (hold hd) (List.getElem?_set_self hlt) hrefresh hresponse

theorem issued_of_descends (h : Descends w.requests c t) : (w.refreshTokens t).isSome = true := by
  cases h with
  | redeemed hr _ ht => exact hw.issued _ _ _ hr ht
  | rotated _ hr _ ht => exact hw.issued _ _ _ hr ht

/-! ## Steps -/

/-- A step that spends nothing, and adds nothing to a chain. -/
theorem idle (hspent : ∀ cred, Spent w cred → Spent w' cred)
    (hback : ∀ (k : ℕ) (r : Request) (cred : Credential), w'.requests[k]? = some r →
      r.status.accepted = true →
      r.body.credential? = some cred → ∃ r', w.requests[k]? = some r' ∧ r'.status.accepted = true ∧
        r'.body = r.body)
    (hverifying : ∀ (k : ℕ) (body : TokenBody) (client : OAuthClient) (subjectToken : String),
      w'.requests[k]? = some ⟨body, .verifying client subjectToken⟩ → body.credential? = none)
    (hissued : ∀ (k : ℕ) (r : Request) (t : String), w'.requests[k]? = some r → r.status.issued? = some t →
      w.requests[k]? = some r) (htokens : ∀ t, (w.refreshTokens t).isSome = true →
        (w'.refreshTokens t).isSome = true)
    (htips : ∀ c x, Tip w' c x → Tip w c x) : Kept w' where
  spent k r cred hr ha hc := by
    obtain ⟨r', hr', ha', hbody⟩ := hback k r cred hr ha hc
    exact hspent cred (hw.spent k r' cred hr' ha' (hbody ▸ hc))
  once k k' r r' cred hr hr' ha ha' hc hc' := by
    obtain ⟨q, hq, hqa, hqb⟩ := hback k r cred hr ha hc
    obtain ⟨q', hq', hqa', hqb'⟩ := hback k' r' cred hr' ha' hc'
    exact hw.once k k' q q' cred hq hq' hqa hqa' (hqb ▸ hc) (hqb' ▸ hc')
  verifying := hverifying
  issued k r t hr ht := htokens t (hw.issued k r t (hissued k r t hr ht) ht)
  tips c x y hx hy := hw.tips c x y (htips c x hx) (htips c y hy)

/-- A step that leaves the requests and the refresh tokens. -/
theorem frame (hspent : ∀ cred, Spent w cred → Spent w' cred) (hrequests : w'.requests = w.requests)
    (htokens : w'.refreshTokens = w.refreshTokens) : Kept w' := by
  refine hw.idle hspent ?_ ?_ ?_ ?_ ?_
  · intro k r cred hr ha _
    exact ⟨r, hrequests ▸ hr, ha, rfl⟩
  · rw [hrequests]
    exact hw.verifying
  · intro k r t hr _
    exact hrequests ▸ hr
  · intro t ht
    rw [htokens]
    exact ht
  · intro c x hx
    cases x <;> simpa only [Tip, Live, hrequests, htokens] using hx

/-- A request that shows no credential, or fails. -/
theorem concat {status : Status} (hissued : status.issued? = none)
    (hcred : status.accepted = true ∨ (∃ client subjectToken, status = .verifying client subjectToken) →
      body.credential? = none) : Kept { w with requests := w.requests ++ [⟨body, status⟩] } := by
  refine hw.idle (fun _ h => h) ?_ ?_ ?_ (fun _ h => h) ?_
  · intro k r cred hr ha hc
    rcases getElem?_concat_cases hr with hr | ⟨-, rfl⟩
    · exact ⟨r, hr, ha, rfl⟩
    · rw [hcred (Or.inl ha)] at hc
      cases hc
  · intro k body' client subjectToken hr
    rcases getElem?_concat_cases hr with hr | ⟨-, he⟩
    · exact hw.verifying k body' client subjectToken hr
    · obtain ⟨rfl, rfl⟩ := Request.mk.inj he
      exact hcred (Or.inr ⟨client, subjectToken, rfl⟩)
  · intro k r t hr ht
    rcases getElem?_concat_cases hr with hr | ⟨-, rfl⟩
    · exact hr
    · rw [hissued] at ht
      cases ht
  · intro c x hx
    cases x with
    | inl k =>
      obtain ⟨body', m, hk, hheir⟩ := hx
      simp only [Heir, descends_concat (r := ⟨body, status⟩) hissued] at hheir
      rcases getElem?_concat_cases hk with hk | ⟨-, he⟩
      · exact ⟨body', m, hk, hheir⟩
      · obtain ⟨rfl, rfl⟩ := Request.mk.inj he
        rw [hcred (Or.inl rfl)] at hheir
        rcases hheir with h | ⟨t, h, -⟩ <;> cases h
    | inr t => exact ⟨(descends_concat hissued).1 hx.1, hx.2⟩

/-- A request that goes on without a refresh token. -/
theorem set {k : ℕ} {before after : Status} {signed : List (String × AccessTokenClaims)}
    (hk : w.requests[k]? = some ⟨body, before⟩) (hbefore : before.issued? = none)
    (hafter : after.issued? = none)
    (hcred : body.credential? ≠ none → before.accepted = true ∧ after.succeeded = true) :
    Kept { w with signed, requests := w.requests.set k ⟨body, after⟩ } := by
  refine hw.idle (fun _ h => h) ?_ ?_ ?_ (fun _ h => h) ?_
  · intro j r cred hr ha hc
    rcases getElem?_set_cases hr with hr | ⟨rfl, rfl⟩
    · exact ⟨r, hr, ha, rfl⟩
    · have hne : body.credential? ≠ none := by
        rw [hc]
        exact Option.some_ne_none cred
      exact ⟨_, hk, (hcred hne).1, rfl⟩
  · intro j body' client subjectToken hr
    rcases getElem?_set_cases hr with hr | ⟨rfl, he⟩
    · exact hw.verifying j body' client subjectToken hr
    · obtain ⟨rfl, rfl⟩ := Request.mk.inj he
      by_contra hne
      cases (hcred hne).2
  · intro j r t hr ht
    rcases getElem?_set_cases hr with hr | ⟨-, rfl⟩
    · exact hr
    · rw [hafter] at ht
      cases ht
  · intro c x hx
    cases x with
    | inl j =>
      obtain ⟨body', m, hj, hheir⟩ := hx
      have hdescends : ∀ t, Descends (w.requests.set k ⟨body, after⟩) c t ↔ Descends w.requests c t :=
        fun t => descends_set hk hbefore hafter
      simp only [Heir, hdescends] at hheir
      rcases getElem?_set_cases hj with hj | ⟨rfl, he⟩
      · exact ⟨body', m, hj, hheir⟩
      · obtain ⟨rfl, rfl⟩ := Request.mk.inj he
        have hne : body'.credential? ≠ none := by
          rcases hheir with h | ⟨t, h, -⟩ <;> simp [h]
        cases (hcred hne).2
    | inr t => exact ⟨(descends_set hk hbefore hafter).1 hx.1, hx.2⟩

/-- A request that spends a credential: it is the tip of its chain. -/
theorem spend {cred : Credential} {m : Mint} (hcred : body.credential? = some cred) (hunspent : ¬Spent w cred)
    (hspends : Spent w' cred) (hspent : ∀ cred, Spent w cred → Spent w' cred)
    (hrequests : w'.requests = w.requests ++ [⟨body, .minting m⟩])
    (htokens : ∀ t, (w.refreshTokens t).isSome = true → (w'.refreshTokens t).isSome = true)
    (hlive : ∀ t, Live w' t → Live w t ∧ cred ≠ .refresh t) (hwas : ∀ t, cred = .refresh t → Live w t) :
    Kept w' := by
  have hcases : ∀ (k : ℕ) (r : Request), w'.requests[k]? = some r →
      w.requests[k]? = some r ∨ k = w.requests.length ∧ r = ⟨body, .minting m⟩ := by
    intro k r hr
    rw [hrequests] at hr
    exact getElem?_concat_cases hr
  have hdescends : ∀ c t, Descends w'.requests c t ↔ Descends w.requests c t := by
    intro c t
    rw [hrequests]
    exact descends_concat rfl
  -- the tips of a chain before, and the new one
  have htip : ∀ c x, Tip w' c x →
      Tip w c x ∧ ¬Heir w.requests c body ∨ x = .inl w.requests.length ∧ Heir w.requests c body := by
    intro c x hx
    have hold : Tip w c x → (∀ t, x = .inr t → cred ≠ .refresh t) →
        Tip w c x ∧ ¬Heir w.requests c body := by
      rintro hx hne
      refine ⟨hx, ?_⟩
      rintro (hcode | ⟨t, hrefresh, hd⟩)
      · obtain rfl := Option.some.inj (hcred.symm.trans hcode)
        exact hunspent (hw.spent_of_tip hx)
      · obtain rfl := Option.some.inj (hcred.symm.trans hrefresh)
        obtain rfl := hw.tips c x (.inr t) hx ⟨hd, hwas t rfl⟩
        exact hne t rfl rfl
    cases x with
    | inl k =>
      obtain ⟨body', m', hk, hheir⟩ := hx
      simp only [Heir, hdescends] at hheir
      rcases hcases k _ hk with hk | ⟨rfl, he⟩
      · exact Or.inl (hold ⟨body', m', hk, hheir⟩ nofun)
      · obtain ⟨rfl, -⟩ := Request.mk.inj he
        exact Or.inr ⟨rfl, hheir⟩
    | inr t =>
      obtain ⟨hl, hne⟩ := hlive t hx.2
      refine Or.inl (hold ⟨(hdescends c t).1 hx.1, hl⟩ fun t' he => ?_)
      obtain rfl := Sum.inr.inj he
      exact hne
  refine ⟨?_, ?_, ?_, ?_, ?_⟩
  · intro k r cred' hr ha hc
    rcases hcases k r hr with hr | ⟨-, rfl⟩
    · exact hspent cred' (hw.spent k r cred' hr ha hc)
    · obtain rfl := Option.some.inj (hcred.symm.trans hc)
      exact hspends
  · intro k k' r r' cred' hr hr' ha ha' hc hc'
    rcases hcases k r hr with hr | ⟨rfl, rfl⟩
    · rcases hcases k' r' hr' with hr' | ⟨rfl, rfl⟩
      · exact hw.once k k' r r' cred' hr hr' ha ha' hc hc'
      · obtain rfl := Option.some.inj (hcred.symm.trans hc')
        exact absurd (hw.spent k r cred hr ha hc) hunspent
    · obtain rfl := Option.some.inj (hcred.symm.trans hc)
      rcases hcases k' r' hr' with hr' | ⟨rfl, -⟩
      · exact absurd (hw.spent k' r' cred hr' ha' hc') hunspent
      · rfl
  · intro k body' client subjectToken hr
    rcases hcases k _ hr with hr | ⟨-, he⟩
    · exact hw.verifying k body' client subjectToken hr
    · cases (Request.mk.inj he).2
  · intro k r t hr ht
    rcases hcases k r hr with hr | ⟨-, rfl⟩
    · exact htokens t (hw.issued k r t hr ht)
    · cases ht
  · intro c x y hx hy
    rcases htip c x hx with ⟨hx, hnot⟩ | ⟨rfl, hheir⟩
    · rcases htip c y hy with ⟨hy, -⟩ | ⟨-, hheir⟩
      · exact hw.tips c x y hx hy
      · exact absurd hheir hnot
    · rcases htip c y hy with ⟨-, hnot⟩ | ⟨rfl, -⟩
      · exact absurd hheir hnot
      · rfl

/-- A request whose refresh token is issued: it is the tip of the chain instead of the request. -/
theorem renew {k : ℕ} {m : Mint} {response : TokenResponse} {new : String} {record : RefreshTokenRecord}
    (hk : w.requests[k]? = some ⟨body, .minting m⟩) (hnew : w.refreshTokens new = none)
    (hresponse : response.refreshToken = some new) (hcodes : w'.authCodes = w.authCodes)
    (htokens : w'.refreshTokens = Function.update w.refreshTokens new (some record))
    (hrequests : w'.requests = w.requests.set k ⟨body, .answered m response⟩) : Kept w' := by
  have hlt : k < w.requests.length := (List.getElem?_eq_some_iff.1 hk).1
  have hne : ∀ {t}, (w.refreshTokens t).isSome = true → t ≠ new := by
    rintro t h rfl
    rw [hnew] at h
    cases h
  have hold : ∀ {t}, t ≠ new → w'.refreshTokens t = w.refreshTokens t := by
    intro t ht
    rw [htokens, Function.update_of_ne ht]
  have hspent : ∀ cred, Spent w cred → Spent w' cred := by
    rintro (code | token) ⟨record', hrecord, h⟩
    · exact ⟨record', hcodes ▸ hrecord, h⟩
    · exact ⟨record', (hold (hne (hrecord ▸ rfl))).trans hrecord, h⟩
  have hcases : ∀ (j : ℕ) (r : Request), w'.requests[j]? = some r →
      w.requests[j]? = some r ∧ j ≠ k ∨ j = k ∧ r = ⟨body, .answered m response⟩ := by
    intro j r hr
    rw [hrequests] at hr
    rcases eq_or_ne j k with rfl | hjk
    · rw [List.getElem?_set_self hlt] at hr
      exact Or.inr ⟨rfl, (Option.some.inj hr).symm⟩
    · rw [List.getElem?_set_ne hjk.symm] at hr
      exact Or.inl ⟨hr, hjk⟩
  -- every request that is accepted was, with the same body
  have hback : ∀ (j : ℕ) (r : Request), w'.requests[j]? = some r → r.status.accepted = true →
      ∃ r', w.requests[j]? = some r' ∧ r'.status.accepted = true ∧ r'.body = r.body := by
    intro j r hr ha
    rcases hcases j r hr with ⟨hr, -⟩ | ⟨rfl, rfl⟩
    · exact ⟨r, hr, ha, rfl⟩
    · exact ⟨_, hk, rfl, rfl⟩
  have hchain : ∀ {c t}, Descends w'.requests c t ↔
      Descends w.requests c t ∨ t = new ∧ Heir w.requests c body := by
    intro c t
    rw [hrequests]
    exact hw.descends_renewed hk hnew hresponse
  -- the tips of a chain before, and the new token
  have htip : ∀ c x, Tip w' c x →
      Tip w c x ∧ ¬Heir w.requests c body ∨ x = .inr new ∧ Heir w.requests c body := by
    intro c x hx
    have hother : Tip w c x → x ≠ .inl k → Tip w c x ∧ ¬Heir w.requests c body := by
      intro hx hxk
      exact ⟨hx, fun hheir => hxk (hw.tips c x (.inl k) hx ⟨body, m, hk, hheir⟩)⟩
    cases x with
    | inl j =>
      obtain ⟨body', m', hj, hheir⟩ := hx
      rcases hcases j _ hj with ⟨hj, hjk⟩ | ⟨-, he⟩
      · refine Or.inl (hother ⟨body', m', hj, ?_⟩ fun he => hjk (Sum.inl.inj he))
        rcases hheir with hcode | ⟨t, hrefresh, hd⟩
        · exact Or.inl hcode
        · rcases hchain.1 hd with hd | ⟨rfl, -⟩
          · exact Or.inr ⟨t, hrefresh, hd⟩
          · obtain ⟨record', hrecord, -⟩ := hw.spent j _ _ hj rfl hrefresh
            exact absurd rfl (hne (hrecord ▸ rfl))
      · cases (Request.mk.inj he).2
    | inr t =>
      obtain ⟨hd, record', hrecord, hlive⟩ := hx
      rcases hchain.1 hd with hd | ⟨rfl, hheir⟩
      · have hl : Live w t := ⟨record', (hold (hne (hw.issued_of_descends hd))).symm.trans hrecord, hlive⟩
        exact Or.inl (hother ⟨hd, hl⟩ fun he => by cases he)
      · exact Or.inr ⟨rfl, hheir⟩
  refine ⟨?_, ?_, ?_, ?_, ?_⟩
  · intro j r cred hr ha hc
    obtain ⟨r', hr', ha', hbody⟩ := hback j r hr ha
    exact hspent cred (hw.spent j r' cred hr' ha' (hbody ▸ hc))
  · intro j j' r r' cred hr hr' ha ha' hc hc'
    obtain ⟨q, hq, hqa, hqb⟩ := hback j r hr ha
    obtain ⟨q', hq', hqa', hqb'⟩ := hback j' r' hr' ha'
    exact hw.once j j' q q' cred hq hq' hqa hqa' (hqb ▸ hc) (hqb' ▸ hc')
  · intro j body' client subjectToken hr
    rcases hcases j _ hr with ⟨hr, -⟩ | ⟨-, he⟩
    · exact hw.verifying j body' client subjectToken hr
    · cases (Request.mk.inj he).2
  · intro j r t hr ht
    rcases hcases j r hr with ⟨hr, -⟩ | ⟨-, rfl⟩
    · have hsome := hw.issued j r t hr ht
      rw [hold (hne hsome)]
      exact hsome
    · obtain rfl := Option.some.inj (hresponse.symm.trans ht)
      rw [htokens, Function.update_self]
      rfl
  · intro c x y hx hy
    rcases htip c x hx with ⟨hx, hnot⟩ | ⟨rfl, hheir⟩
    · rcases htip c y hy with ⟨hy, -⟩ | ⟨-, hheir⟩
      · exact hw.tips c x y hx hy
      · exact absurd hheir hnot
    · rcases htip c y hy with ⟨-, hnot⟩ | ⟨rfl, -⟩
      · exact absurd hheir hnot
      · rfl

end Kept

theorem kept_new : Kept {} :=
  ⟨by simp, by simp, by simp, by simp, fun c x y hx _ => by
    cases x with
    | inl k =>
      obtain ⟨body, m, hk, -⟩ := hx
      simp at hk
    | inr t =>
      obtain ⟨-, record, hrecord, -⟩ := hx
      cases hrecord⟩

/-- What a request shows that was handled as a code. -/
theorem credential?_code {code : String} (hgrant : body.grant? = some .authorizationCode)
    (hcode : body.code = some code) : body.credential? = some (.code code) := by
  rw [TokenBody.credential?, hgrant, hcode]
  rfl

theorem credential?_refresh {token : String} (hgrant : body.grant? = some .refreshToken)
    (htoken : body.refreshToken = some token) : body.credential? = some (.refresh token) := by
  rw [TokenBody.credential?, hgrant, htoken]
  rfl

theorem Kept.step (hw : Kept w) (hwell : WellFormed w) (hs : Steps opts s256 w a w') : Kept w' := by
  obtain ⟨h, hdistinct⟩ := hs
  cases effect_of_exec h with
  | tick d => exact hw.frame (fun _ h => h) rfl rfl
  | revoked jti => exact hw.frame (fun _ h => h) rfl rfl
  | registered client => exact hw.frame (fun _ h => h) rfl rfl
  | refused params code => exact hw
  | @issued params code client hclient hscope hok =>
    refine hw.frame ?_ rfl rfl
    rintro (code' | token) hspent
    · obtain ⟨record, hrecord, hused⟩ := hspent
      have hne : code' ≠ code := by
        rintro rfl
        rw [hdistinct] at hrecord
        cases hrecord
      exact ⟨record, by simpa [hne] using hrecord, hused⟩
    · exact hspent
  | @token body w₁ status hst hh =>
    cases hh with
    | failed e => exact hw.concat rfl fun h => by rcases h with h | ⟨_, _, h⟩ <;> cases h
    | verifying hgrant hclient => exact hw.concat rfl fun _ => by rw [TokenBody.credential?, hgrant]
    | service hgrant => exact hw.concat rfl fun _ => by rw [TokenBody.credential?, hgrant]
    | @code client record m hgrant hcheck hsource hid hscope =>
      obtain ⟨code, hcode, -, hrecord⟩ := (checkAuthCode_ok hcheck).found
      obtain ⟨rfl, -⟩ := hwell.codes code record hrecord
      have hunused := (checkAuthCode_ok hcheck).unused
      refine hw.spend (credential?_code hgrant hcode) ?_ ⟨_, Function.update_self .., rfl⟩ ?_ rfl
        (fun _ h => h)
        (fun t ht => ⟨ht, nofun⟩) nofun
      · rintro ⟨record', hrecord', hused⟩
        obtain rfl := Option.some.inj (hrecord.symm.trans hrecord')
        rw [hunused] at hused
        cases hused
      · rintro (code' | token) hspent
        · obtain ⟨record', hrecord', hused⟩ := hspent
          rcases eq_or_ne code' record.code with rfl | hne
          · exact ⟨_, Function.update_self .., rfl⟩
          · exact ⟨record', by simpa [hne] using hrecord', hused⟩
        · exact hspent
    | @refresh client record m hgrant hcheck hsource hid hscope =>
      obtain ⟨token, htoken, -, hrecord⟩ := (checkRefresh_ok hcheck).found
      obtain ⟨rfl, -⟩ := hwell.tokens token record hrecord
      have hunrevoked := (checkRefresh_ok hcheck).unrevoked
      refine hw.spend (credential?_refresh hgrant htoken) ?_ ⟨_, Function.update_self .., rfl⟩ ?_ rfl ?_ ?_ ?_
      · rintro ⟨record', hrecord', hrevoked⟩
        obtain rfl := Option.some.inj (hrecord.symm.trans hrecord')
        rw [hunrevoked] at hrevoked
        cases hrevoked
      · rintro (code | token') hspent
        · exact hspent
        · obtain ⟨record', hrecord', hrevoked⟩ := hspent
          rcases eq_or_ne token' record.token with rfl | hne
          · exact ⟨_, Function.update_self .., rfl⟩
          · exact ⟨record', by simpa [hne] using hrecord', hrevoked⟩
      · intro t ht
        rcases eq_or_ne t record.token with rfl | hne
        · simp
        · simpa [hne] using ht
      · rintro t ⟨record', hrecord', hlive⟩
        rcases update_cases hrecord' with ⟨rfl, rfl⟩ | ⟨hne, hrecord'⟩
        · cases hlive
        · exact ⟨⟨record', hrecord', hlive⟩, fun he => hne (Credential.refresh.inj he).symm⟩
      · intro t he
        obtain rfl := Credential.refresh.inj he
        exact ⟨record, hrecord, hunrevoked⟩
  | @verified k body client subjectToken hk =>
    refine hw.set hk rfl ?_ fun hne => absurd (hw.verifying k body client subjectToken hk) hne
    rw [World.exchange]
    split <;> rfl
  | @answered k jti accessToken refreshToken body m response hk hsource hresponse =>
    exact hw.set hk rfl hresponse fun _ => ⟨rfl, rfl⟩
  | @renewed k jti accessToken refreshToken body m response hk hsource hresponse =>
    exact hw.renew hk hdistinct.2 hresponse rfl rfl rfl

/-! ## Where codes come from -/

/-- The record of a code is what `authorize` has kept of it. -/
def Issued (opts : AuthorizationServerOptions) (tr : List (World × Action)) (w : World) : Prop :=
  ∀ code record, w.authCodes code = some record → ∃ s params, (s, .authorize params code) ∈ tr ∧
    (s.authorize opts params code).2 = .ok code ∧ record =
      { s.record opts params code with used := record.used }

theorem Issued.step (hi : Issued opts tr w) (hwell : WellFormed w) (h : w.exec opts s256 a = some w') :
    Issued opts (tr ++ [(w, a)]) w' := by
  have hold : ∀ {code : String} {record : AuthorizationCodeRecord},
      (∃ s params, (s, .authorize params code) ∈ tr ∧ (s.authorize opts params code).2 = .ok code ∧
        record = { s.record opts params code with used := record.used }) →
      ∃ s params, (s, .authorize params code) ∈ tr ++ [(w, a)] ∧ (s.authorize opts params code).2 = .ok code ∧
        record = { s.record opts params code with used := record.used } :=
    fun ⟨s, params, hmem, hrest⟩ => ⟨s, params, List.mem_append_left _ hmem, hrest⟩
  cases effect_of_exec h with
  | tick | revoked | registered | refused | verified | answered | renewed =>
    exact fun code record hrecord => hold (hi code record hrecord)
  | @issued params code client hclient hscope hok =>
    intro code' record hrecord
    rcases update_cases hrecord with ⟨rfl, rfl⟩ | ⟨-, hrecord⟩
    · exact ⟨w, params, List.mem_append_right _ (List.mem_singleton_self _), hok, rfl⟩
    · exact hold (hi code' record hrecord)
  | @token body w₁ status hst hh =>
    cases hh with
    | failed | verifying | service | refresh => exact fun code record hrecord => hold (hi code record hrecord)
    | @code client record m hgrant hcheck hsource hid hscope =>
      intro code' record' hrecord'
      rcases update_cases hrecord' with ⟨rfl, rfl⟩ | ⟨-, hrecord'⟩
      · obtain ⟨code, -, -, hrecord⟩ := (checkAuthCode_ok hcheck).found
        obtain ⟨rfl, -⟩ := hwell.codes code record hrecord
        obtain ⟨s, params, hmem, hok, he⟩ := hi _ record hrecord
        exact hold ⟨s, params, hmem, hok, congrArg (fun r => { r with used := true }) he⟩
      · exact hold (hi code' record' hrecord')

/-- A request for the code `c`, against what `authorize` was asked for: it comes from the same client, for
    the same address, before the code has expired, and with a verifier where one is needed. -/
structure Entitled (opts : AuthorizationServerOptions) (s256 : String → String) (w : World) (body : TokenBody)
    (issuedAt : ℕ) (params : AuthorizeParams) : Prop where
  client : body.clientId = some params.clientId
  redirect : body.redirectUri = some params.redirectUri
  unexpired : w.clock ≤ issuedAt + opts.authCodeTtlSeconds * 1000
  verified : (∃ client, w.clients params.clientId = some client ∧ client.isPublic = true) ∨
      (given params.codeChallenge).isSome = true →
    ∃ verifier challenge, body.codeVerifier = some verifier ∧ params.codeChallenge = some challenge ∧
      verifyCodeChallenge s256 verifier challenge (params.codeChallengeMethod.getD "S256") = true

/-- Codes and refresh tokens are used once. -/
structure SingleUse (opts : AuthorizationServerOptions) (s256 : String → String) (tr : List (World × Action))
    (w : World) : Prop where
  /-- two requests that have succeeded do not show the same code, or the same refresh token -/
  once : ∀ (k k' : ℕ) (r r' : Request) (cred : Credential), w.requests[k]? = some r →
    w.requests[k']? = some r' →
    r.status.succeeded = true → r'.status.succeeded = true → r.body.credential? = some cred →
      r'.body.credential? = some cred → k = k'
  /-- a request for a code that has succeeded was entitled to it when it came -/
  entitled : ∀ before s body after, tr = before ++ (s, .token body) :: after →
    ∀ (r : Request) (c : String), w.requests[s.requests.length]? = some r → r.status.succeeded = true →
      body.credential? = some (.code c) → ∃ s₀ params, (s₀, .authorize params c) ∈ before ∧
        (s₀.authorize opts params c).2 = .ok c ∧ Entitled opts s256 s body s₀.clock params
  /-- of the refresh tokens that descend from a code, one is not revoked -/
  chain : ∀ c t t', Descends w.requests c t → Descends w.requests c t' → Live w t → Live w t' → t = t'

/-! ## Runs -/

/-- A request keeps its body, and one that has failed does not succeed later. -/
theorem request_later (h : w.exec opts s256 a = some w') {k : ℕ} {r : Request}
    (hr : w.requests[k]? = some r) :
    ∃ r', w'.requests[k]? = some r' ∧ r'.body = r.body ∧ ∀ e, r.status = .failed e →
      r'.status = .failed e := by
  have hset : ∀ {j : ℕ} {body : TokenBody} {before after : Status}, w.requests[j]? = some ⟨body, before⟩ →
      (∀ e, before ≠ .failed e) → ∃ r', (w.requests.set j ⟨body, after⟩)[k]? = some r' ∧ r'.body = r.body ∧
        ∀ e, r.status = .failed e → r'.status = .failed e := by
    intro j body before after hj hne
    rcases eq_or_ne j k with rfl | hjk
    · obtain rfl := Option.some.inj (hr.symm.trans hj)
      exact ⟨_, List.getElem?_set_self (List.getElem?_eq_some_iff.1 hj).1, rfl, fun e he => absurd he (hne e)⟩
    · exact ⟨r, by rw [List.getElem?_set_ne hjk]; exact hr, rfl, fun _ h => h⟩
  cases effect_of_exec h with
  | tick | registered | refused | issued | revoked => exact ⟨r, hr, rfl, fun _ h => h⟩
  | token => exact ⟨r, getElem?_concat_of_some hr, rfl, fun _ h => h⟩
  | verified hk => exact hset hk fun e he => by cases he
  | answered hk => exact hset hk fun e he => by cases he
  | renewed hk => exact hset hk fun e he => by cases he

theorem run_request_later {s₀ : World} (h : Run (Steps opts s256) s₀ tr w) {k : ℕ} {r : Request}
    (hr : s₀.requests[k]? = some r) :
    ∃ r', w.requests[k]? = some r' ∧ r'.body = r.body ∧ ∀ e, r.status = .failed e →
      r'.status = .failed e := by
  induction h with
  | init => exact ⟨r, hr, rfl, fun _ h => h⟩
  | snoc _ hs ih =>
    obtain ⟨r₁, hr₁, hbody₁, hfailed₁⟩ := ih
    obtain ⟨r₂, hr₂, hbody₂, hfailed₂⟩ := request_later hs.1 hr₁
    exact ⟨r₂, hr₂, hbody₂.trans hbody₁, fun e he => hfailed₂ e (hfailed₁ e he)⟩

theorem kept_of_run (h : Run (Steps opts s256) {} tr w) : Kept w := by
  induction h with
  | init => exact kept_new
  | snoc hr hs ih => exact ih.step (wellFormed_of_run hr) hs

theorem issued_of_run (h : Run (Steps opts s256) {} tr w) : Issued opts tr w := by
  induction h with
  | init => exact fun code record hrecord => by cases hrecord
  | snoc hr hs ih => exact ih.step (wellFormed_of_run hr) hs.1

/-- A code is accepted from whom it was issued to. -/
theorem entitled_of_accepted {record : AuthorizationCodeRecord} {client : OAuthClient} (hi : Issued opts tr w)
    (hwell : WellFormed w) (h : CodeAccepted s256 w body client record) :
    ∃ code s params, body.code = some code ∧ (s, .authorize params code) ∈ tr ∧
      (s.authorize opts params code).2 = .ok code ∧ Entitled opts s256 w body s.clock params := by
  obtain ⟨code, hcode, -, hrecord⟩ := h.found
  obtain ⟨s, params, hmem, hok, he⟩ := hi code record hrecord
  obtain ⟨id, hid, hclient, -⟩ := authenticateClient_ok h.authenticated
  have hname : client.clientId = params.clientId := by
    rw [← h.issued, he]
    rfl
  have hwhole := hwell.clients id client hclient
  subst hwhole
  refine ⟨code, s, params, hcode, hmem, hok, ?_, ?_, ?_, ?_⟩
  · rw [hid, hname]
  · rw [h.redirect, he]
    rfl
  · have hunexpired := h.unexpired
    rw [he] at hunexpired
    exact hunexpired
  · intro hneeded
    have hverified := h.verified
    rw [he] at hverified
    refine hverified (hneeded.imp_left ?_)
    rintro ⟨client', hclient', hpublic⟩
    rw [← hname, hclient] at hclient'
    obtain rfl := Option.some.inj hclient'
    exact hpublic

theorem accepted_of_succeeded {s : Status} (h : s.succeeded = true) : s.accepted = true := by
  cases s with
  | answered m r => rfl
  | minting m | verifying client subjectToken | failed e => cases h

/-- **Codes and refresh tokens are used once**, in every run. -/
theorem run_singleUse (h : Run (Steps opts s256) {} tr w) : SingleUse opts s256 tr w := by
  have hk := kept_of_run h
  refine ⟨?_, ?_, ?_⟩
  · intro k k' r r' cred hr hr' hs hs' hc hc'
    exact hk.once k k' r r' cred hr hr' (accepted_of_succeeded hs) (accepted_of_succeeded hs') hc hc'
  · rintro before s body after rfl r c hr hsucceeded hcred
    obtain ⟨w₁, hbefore, hs, hafter⟩ := h.split
    cases effect_of_exec hs.1 with
    | @token _ w₂ status hst hh =>
      obtain ⟨r', hr', hbody, hfailed⟩ := run_request_later hafter List.getElem?_concat_length
      obtain rfl := Option.some.inj (hr.symm.trans hr')
      cases hh with
      | failed e =>
        rw [hfailed e rfl] at hsucceeded
        cases hsucceeded
      | verifying hgrant => simp [TokenBody.credential?, hgrant] at hcred
      | service hgrant => simp [TokenBody.credential?, hgrant] at hcred
      | refresh hgrant => simp [TokenBody.credential?, hgrant] at hcred
      | code hgrant hcheck =>
        obtain ⟨code, s₀, params, hcode, hmem, hok, hentitled⟩ := entitled_of_accepted (issued_of_run hbefore)
          (wellFormed_of_run hbefore) (checkAuthCode_ok hcheck)
        rw [credential?_code hgrant hcode] at hcred
        obtain rfl := Credential.code.inj (Option.some.inj hcred)
        exact ⟨s₀, params, hmem, hok, hentitled⟩
  · intro c t t' hd hd' hl hl'
    exact Sum.inr.inj (hk.tips c (.inr t) (.inr t') ⟨hd, hl⟩ ⟨hd', hl'⟩)

/-- An app without a secret. -/
def publicApp : OAuthClient :=
  { service "app" .viewer [.authorizationCode, .refreshToken] with clientSecret := none, isPublic := true }

/-- A code is shown twice before either request is answered; then the refresh token is shown twice. -/
def codeScript : List Action :=
  [.registerClient publicApp, .authorize ⟨"app", "https://app", "events:read", "alice", some "v",
    some "plain"⟩ "c0",
    .token { bodyOf "app" .authorizationCode with
      code := some "c0", redirectUri := some "https://app", codeVerifier := some "v" },
    .token { bodyOf "app" .authorizationCode with
      code := some "c0", redirectUri := some "https://app", codeVerifier := some "v" },
    .sign 0 "jti0" "token0" "r0", .token { bodyOf "app" .refreshToken with refreshToken := some "r0" },
    .token { bodyOf "app" .refreshToken with refreshToken := some "r0" }, .sign 2 "jti1" "token1" "r1"]

/-- One request of each pair succeeds. -/
theorem run_singleUse_codeScript :
    ∃ w, codeScript.foldlM (World.exec exampleOptions id) {} = some w ∧
      w.requests.map (·.status.succeeded) = [true, false, true, false] ∧
        SingleUse exampleOptions id (Run.traceOf (World.exec exampleOptions id) {} codeScript) w := by
  refine ⟨_, rfl, by decide, ?_⟩
  exact run_singleUse ((Run.of_foldlM (f := World.exec exampleOptions id) (l := codeScript) rfl).restrict
    (by decide))

end AuthorizationServer
