/-
  AuthorizationServer — what a token may do, against what its client was granted.

  A token is granted when its client may use the grant type and has its scope, and a token for another
  token has no more scope and no higher role than that one, which was valid (`Granted`).  The handlers
  check a part of this only; what they leave out is `Permitted`, and the tokens of a run are all granted
  exactly when it holds of every request (`run_granted_iff`).
-/
import AuditTransparency.Soroban.Lookup
import AuditTransparency.Security.AuthorizationServer

namespace AuthorizationServer

open Soroban Words Pkce

variable {opts : AuthorizationServerOptions} {s256 : String → String} {w w' : World} {a : Action}
  {tr : List (World × Action)} {body : TokenBody} {client : OAuthClient}

/-! ## What the handlers check -/

theorem given_eq_some {s : Option String} {t : String} : given s = some t ↔ s = some t ∧ t ≠ "" := by
  simp [given, Option.filter_eq_some_iff]

theorem authenticateClient_ok (h : w.authenticateClient body = .ok client) :
    ∃ id, body.clientId = some id ∧ w.clients id = some client ∧
      (client.isPublic = true ∨ client.clientSecret = body.clientSecret) := by
  rw [World.authenticateClient] at h
  split at h
  · cases h
  · rename_i client' hclient
    obtain ⟨id, hid, hclient⟩ := Option.bind_eq_some_iff.1 hclient
    split_ifs at h with hsecret
    obtain rfl := Except.ok.inj h
    refine ⟨id, (given_eq_some.1 hid).1, hclient, ?_⟩
    rw [Bool.and_eq_true, not_and_or] at hsecret
    simpa using hsecret

/-- An authorization code is accepted once, from the client and for the address it was issued to, until it
    expires, and with a verifier where it needs one. -/
structure CodeAccepted (s256 : String → String) (w : World) (body : TokenBody) (client : OAuthClient)
    (record : AuthorizationCodeRecord) : Prop where
  authenticated : w.authenticateClient body = .ok client
  found : ∃ code, body.code = some code ∧ code ≠ "" ∧ w.authCodes code = some record
  unused : record.used = false
  unexpired : w.clock ≤ record.expiresAt
  issued : record.clientId = client.clientId
  redirect : body.redirectUri = some record.redirectUri
  verified : client.isPublic = true ∨ (given record.codeChallenge).isSome = true →
    ∃ verifier challenge, body.codeVerifier = some verifier ∧ record.codeChallenge = some challenge ∧
      verifyCodeChallenge s256 verifier challenge record.codeChallengeMethod = true

theorem checkAuthCode_ok {record : AuthorizationCodeRecord}
    (h : w.checkAuthCode s256 body = .ok (client, record)) : CodeAccepted s256 w body client record := by
  rw [World.checkAuthCode] at h
  split at h
  · cases h
  · rename_i client' hclient
    split at h
    · cases h
    · rename_i record' hrecord
      obtain ⟨code, hcode, hrecord⟩ := Option.bind_eq_some_iff.1 hrecord
      obtain ⟨hcode, hne⟩ := given_eq_some.1 hcode
      have haccepted : ∀ hbad : ¬(record'.used || record'.expiresAt < w.clock ||
            record'.clientId ≠ client'.clientId) = true,
              ∀ hredirect : ¬some record'.redirectUri ≠ body.redirectUri,
          (client'.isPublic = true ∨ (given record'.codeChallenge).isSome = true →
            ∃ verifier challenge, body.codeVerifier = some verifier ∧ record'.codeChallenge = some challenge ∧
              verifyCodeChallenge s256 verifier challenge record'.codeChallengeMethod = true) →
          CodeAccepted s256 w body client' record' := by
        intro hbad hredirect hverified
        simp only [Bool.or_eq_true, decide_eq_true_eq, not_or, Bool.not_eq_true, not_lt, ne_eq, not_not]
          at hbad hredirect
        exact ⟨hclient, ⟨code, hcode, hne, hrecord⟩, hbad.1.1, hbad.1.2, hbad.2, hredirect.symm, hverified⟩
      split_ifs at h with hbad hredirect hpkce
      · split at h
        · rename_i verifier challenge hverifier hchallenge
          split_ifs at h with hverify
          obtain ⟨rfl, rfl⟩ := Prod.mk.inj (Except.ok.inj h)
          exact haccepted hbad hredirect fun _ =>
            ⟨verifier, challenge, (given_eq_some.1 hverifier).1, (given_eq_some.1 hchallenge).1, hverify⟩
        · cases h
      · obtain ⟨rfl, rfl⟩ := Prod.mk.inj (Except.ok.inj h)
        refine haccepted hbad hredirect fun hneeded => absurd ?_ hpkce
        rwa [Bool.or_eq_true]

/-- A refresh token is accepted once, from its client, until it expires. -/
structure RefreshAccepted (w : World) (body : TokenBody) (client : OAuthClient)
    (record : RefreshTokenRecord) :
    Prop where
  authenticated : w.authenticateClient body = .ok client
  found : ∃ token, body.refreshToken = some token ∧ token ≠ "" ∧ w.refreshTokens token = some record
  unrevoked : record.revoked = false
  unexpired : w.clock ≤ record.expiresAt
  issued : record.clientId = client.clientId

theorem checkRefresh_ok {record : RefreshTokenRecord} (h : w.checkRefresh body = .ok (client, record)) :
    RefreshAccepted w body client record := by
  rw [World.checkRefresh] at h
  split at h
  · cases h
  · rename_i client' hclient
    split at h
    · cases h
    · rename_i record' hrecord
      obtain ⟨token, htoken, hrecord⟩ := Option.bind_eq_some_iff.1 hrecord
      obtain ⟨htoken, hne⟩ := given_eq_some.1 htoken
      split_ifs at h with hbad
      obtain ⟨rfl, rfl⟩ := Prod.mk.inj (Except.ok.inj h)
      simp only [Bool.or_eq_true, decide_eq_true_eq, not_or, Bool.not_eq_true, not_lt, ne_eq, not_not] at hbad
      exact ⟨hclient, ⟨token, htoken, hne, hrecord⟩, hbad.1.1, hbad.1.2, hbad.2⟩

/-- What is left when nothing is filtered out. -/
theorem forall_of_filter_eq_nil {l : List String} {p : String → Bool} (h : l.filter p = []) :
    ∀ s ∈ l, p s = false := by
  intro s hs
  have hnot := List.filter_eq_nil_iff.1 h s hs
  simpa using hnot

/-- A token for another token has no more scope, and that one is valid. -/
theorem checkExchange_ok {subjectToken : String} {claims : AccessTokenClaims} {scope : List String}
    (h : w.checkExchange opts body client subjectToken = .ok (claims, scope)) :
    w.clock / 1000 < claims.exp ∧ claims.jti ∉ w.revokedJti ∧ (∀ s ∈ scope, IsWord s) ∧
      scope ⊆ words claims.scope ∧ scope ⊆ client.allowedScopes := by
  rw [World.checkExchange] at h
  split at h
  · cases h
  · rename_i claims' hverify
    rw [World.jwtVerify, Option.filter_eq_some_iff, Bool.and_eq_true, decide_eq_true_eq,
      decide_eq_true_eq] at hverify
    obtain ⟨-, -, hexp⟩ := hverify
    split_ifs at h with hrevoked
    dsimp only at h
    split_ifs at h with hscope
    obtain ⟨rfl, rfl⟩ := Prod.mk.inj (Except.ok.inj h)
    have hallowed := forall_of_filter_eq_nil (not_not.1 hscope)
    simp only [Bool.or_eq_false_iff, decide_eq_false_iff_not, not_not] at hallowed
    refine ⟨hexp, hrevoked, fun s hs => isWord_of_mem_words hs, fun s hs => ?_, fun s hs => (hallowed s hs).1⟩
    refine List.mem_filter.2 ⟨(hallowed s hs).2, ?_⟩
    simpa using (isWord_of_mem_words hs).1

/-- What a token request can do, up to its first `await`. -/
inductive Handled (s256 : String → String) (w : World) (body : TokenBody) : World × Status → Prop where
  | failed (e : OAuthError) : Handled s256 w body (w, .failed e)
  | verifying {client : OAuthClient} {subjectToken : String} (hgrant : body.grant? = some .tokenExchange)
      (hclient : w.authenticateClient body = .ok client) : Handled s256 w body
      (w, .verifying client subjectToken)
  | service {client : OAuthClient} {m : Mint} (hgrant : body.grant? = some .clientCredentials)
      (hclient : w.authenticateClient body = .ok client)
      (hallowed : .clientCredentials ∈ client.allowedGrantTypes)
      (hsource : m.source = .service) (hid : m.clientId = client.clientId) (hwords : ∀ s ∈ m.scope, IsWord s)
      (hscope : m.scope ⊆ client.allowedScopes) : Handled s256 w body (w, .minting m)
  | code {client : OAuthClient} {record : AuthorizationCodeRecord} {m : Mint}
      (hgrant : body.grant? = some .authorizationCode)
      (hcheck : w.checkAuthCode s256 body = .ok (client, record))
      (hsource : m.source = .code record.code) (hid : m.clientId = client.clientId)
      (hscope : m.scope = record.scope) :
      Handled s256 w body
        ({ w with authCodes := Function.update w.authCodes record.code (some { record with used := true }) },
          .minting m)
  | refresh {client : OAuthClient} {record : RefreshTokenRecord} {m : Mint}
      (hgrant : body.grant? = some .refreshToken) (hcheck : w.checkRefresh body = .ok (client, record))
      (hsource : m.source = .refresh record.token) (hid : m.clientId = client.clientId)
      (hscope : m.scope = record.scope) :
      Handled s256 w body
        ({ w with
            refreshTokens := Function.update w.refreshTokens record.token
              (some { record with revoked := true }) },
          .minting m)

/-- A service is granted scopes of its own. -/
theorem handled_service (hgrant : body.grant? = some .clientCredentials) :
    Handled s256 w body (w.handleClientCredentialsGrant body) := by
  rw [World.handleClientCredentialsGrant]
  split
  · exact .failed _
  · rename_i client hclient
    split_ifs with hpublic hallowed
    · exact .failed _
    · dsimp only
      split_ifs with hscope
      · exact .failed _
      · refine .service hgrant hclient hallowed rfl rfl ?_ ?_
        · intro s hs
          exact isWord_of_mem_words hs
        · intro s hs
          simpa using forall_of_filter_eq_nil (not_not.1 hscope) s hs
    · exact .failed _

theorem handled_exchange (hgrant : body.grant? = some .tokenExchange) :
    Handled s256 w body (w.handleTokenExchange body) := by
  rw [World.handleTokenExchange]
  split
  · exact .failed _
  · rename_i client hclient
    split
    · exact .failed _
    · split
      · exact .failed _
      · split
        · exact .failed _
        · exact .verifying hgrant hclient

theorem handled_token (s256 : String → String) (w : World) (body : TokenBody) :
    Handled s256 w body (w.token s256 body) := by
  rw [World.token]
  split
  · exact .failed _
  · split
    · rename_i g hgrant
      cases g with
      | authorizationCode =>
        rw [World.dispatch, World.handleAuthCodeGrant]
        split
        · exact .failed _
        · rename_i hcheck
          exact .code hgrant hcheck rfl rfl rfl
      | clientCredentials => exact handled_service hgrant
      | refreshToken =>
        rw [World.dispatch, World.handleRefreshGrant]
        split
        · exact .failed _
        · rename_i hcheck
          exact .refresh hgrant hcheck rfl rfl rfl
      | tokenExchange => exact handled_exchange hgrant
    · exact .failed _

/-! ## Calls of `mintAccessToken` -/

/-- The call of `mintAccessToken` that an action makes. -/
def World.mints (opts : AuthorizationServerOptions) (s256 : String → String) (w : World) :
    Action → Option Mint
  | .token body =>
    match (w.token s256 body).2 with
    | .minting m => some m
    | _ => none
  | .verify k =>
    match w.requests[k]? with
    | some ⟨body, .verifying client subjectToken⟩ =>
      match w.exchange opts body client subjectToken with
      | .minting m => some m
      | _ => none
    | _ => none
  | _ => none

/-- The scope that the token says it has. -/
def Mint.scopeClaim (m : Mint) : List String := words (joinWords m.scope)

/-- A token that is minted does not exceed what was granted to its client, and one that is minted for
    another token does not exceed that one, which is valid. -/
structure Granted (w : World) (m : Mint) : Prop where
  client : ∃ client, w.clients m.clientId = some client ∧ m.source.grantType ∈ client.allowedGrantTypes ∧
    m.scopeClaim ⊆ client.allowedScopes
  subject : ∀ claims, m.source = .exchange claims → m.scopeClaim ⊆ words claims.scope ∧
    m.role.hierarchy ≤ claims.role.hierarchy ∧ w.clock / 1000 < claims.exp ∧ claims.jti ∉ w.revokedJti

/-- A client may use a grant, and has a scope. -/
def OAuthClient.Covers (client : OAuthClient) (g : GrantType) (scope : List String) : Prop :=
  g ∈ client.allowedGrantTypes ∧ scope ⊆ client.allowedScopes

/-- What the handlers do not check: that a client may use codes and refresh tokens, and still has the
    scope they were issued for; that a client has no higher role than the subject of its exchange, and
    still has its rights when the subject token was verified. -/
def Permitted (opts : AuthorizationServerOptions) (s256 : String → String) (w : World) : Action → Prop
  | .token body =>
    match body.grant? with
    | some .authorizationCode =>
      ∀ p ∈ (w.checkAuthCode s256 body).toOption, p.1.Covers .authorizationCode p.2.scope
    | some .refreshToken => ∀ p ∈ (w.checkRefresh body).toOption, p.1.Covers .refreshToken p.2.scope
    | _ => True
  | .verify k =>
    match w.requests[k]? with
    | some ⟨body, .verifying client subjectToken⟩ =>
      ∀ p ∈ (w.checkExchange opts body client subjectToken).toOption,
        client.defaultRole.hierarchy ≤ p.1.role.hierarchy ∧
          ∃ current ∈ w.clients client.clientId, current.Covers .tokenExchange p.2
    | _ => True
  | _ => True

instance (client : OAuthClient) (g : GrantType) (scope : List String) : Decidable (client.Covers g scope) :=
  inferInstanceAs (Decidable (_ ∧ _))

instance (opts : AuthorizationServerOptions) (s256 : String → String) (w : World) :
    (a : Action) → Decidable (Permitted opts s256 w a)
  | .token body =>
    match h : body.grant? with
    | some .authorizationCode => decidable_of_iff
      (∀ p ∈ (w.checkAuthCode s256 body).toOption, p.1.Covers .authorizationCode p.2.scope)
        (by rw [Permitted, h])
    | some .refreshToken => decidable_of_iff
      (∀ p ∈ (w.checkRefresh body).toOption, p.1.Covers .refreshToken p.2.scope) (by rw [Permitted, h])
    | some .clientCredentials | some .tokenExchange | none => isTrue (by rw [Permitted, h]; trivial)
  | .verify k =>
    match h : w.requests[k]? with
    | some ⟨body, .verifying client subjectToken⟩ => decidable_of_iff
      (∀ p ∈ (w.checkExchange opts body client subjectToken).toOption,
        client.defaultRole.hierarchy ≤ p.1.role.hierarchy ∧
          ∃ current ∈ w.clients client.clientId, current.Covers .tokenExchange p.2) (by rw [Permitted, h])
    | some ⟨_, .minting _⟩ | some ⟨_, .failed _⟩ | some ⟨_, .answered _ _⟩ | none =>
      isTrue (by rw [Permitted, h]; trivial)
  | .tick _ | .registerClient _ | .authorize .. | .sign .. | .revokeJti _ => isTrue trivial

/-- What holds of the records of the server. -/
structure WellFormed (w : World) : Prop where
  clients : ∀ id client, w.clients id = some client → client.clientId = id
  codes : ∀ code record, w.authCodes code = some record → record.code = code ∧ ∀ s ∈ record.scope, IsWord s
  tokens : ∀ token record, w.refreshTokens token = some record →
    record.token = token ∧ ∀ s ∈ record.scope, IsWord s
  mints : ∀ (k : ℕ) (body : TokenBody) (m : Mint), w.requests[k]? = some ⟨body, .minting m⟩ →
    ∀ s ∈ m.scope, IsWord s

/-! ## One step -/

/-- A code is issued for scopes that its client has, or not at all. -/
theorem authorize_cases (opts : AuthorizationServerOptions) (w : World) (params : AuthorizeParams)
    (code : String) :
    (∃ e, w.authorize opts params code = (w, .error e)) ∨
      ∃ client, w.clients params.clientId = some client ∧ words params.scope ⊆ client.allowedScopes ∧
        w.authorize opts params code =
          ({ w with authCodes := Function.update w.authCodes code (some (w.record opts params code)) },
            .ok code) := by
  rw [World.authorize]
  split
  · exact Or.inl ⟨_, rfl⟩
  · rename_i client hclient
    split_ifs with hredirect hpkce
    · exact Or.inl ⟨_, rfl⟩
    · dsimp only
      split_ifs with hscope
      · exact Or.inl ⟨_, rfl⟩
      · refine Or.inr ⟨client, hclient, fun s hs => ?_, rfl⟩
        simpa using forall_of_filter_eq_nil (not_not.1 hscope) s hs
    · exact Or.inl ⟨_, rfl⟩

/-- A refresh token comes with an access token for a code or another refresh token. -/
def Source.renews : Source → Bool
  | .code _ | .refresh _ => true
  | .service | .exchange _ => false

/-- What a step does. -/
inductive Effect (opts : AuthorizationServerOptions) (s256 : String → String) (w : World) :
    Action → World → Prop where
  | tick (d : ℕ) : Effect opts s256 w (.tick d) { w with clock := w.clock + d }
  | registered (client : OAuthClient) : Effect opts s256 w (.registerClient client)
      { w with clients := Function.update w.clients client.clientId (some client) }
  | refused (params : AuthorizeParams) (code : String) : Effect opts s256 w (.authorize params code) w
  | issued {params : AuthorizeParams} {code : String} {client : OAuthClient}
      (hclient : w.clients params.clientId = some client) (hscope : words params.scope ⊆ client.allowedScopes)
      (hok : (w.authorize opts params code).2 = .ok code) : Effect opts s256 w (.authorize params code)
        { w with authCodes := Function.update w.authCodes code (some (w.record opts params code)) }
  | token {body : TokenBody} {w₁ : World} {status : Status} (hst : w.token s256 body = (w₁, status))
      (hh : Handled s256 w body (w₁, status)) :
      Effect opts s256 w (.token body) { w₁ with requests := w.requests ++ [⟨body, status⟩] }
  | verified {k : ℕ} {body : TokenBody} {client : OAuthClient} {subjectToken : String}
      (hk : w.requests[k]? = some ⟨body, .verifying client subjectToken⟩) :
      Effect opts s256 w (.verify k)
        { w with requests := w.requests.set k ⟨body, w.exchange opts body client subjectToken⟩ }
  | answered {k : ℕ} {jti accessToken refreshToken : String} {body : TokenBody} {m : Mint}
      {response : TokenResponse}
      (hk : w.requests[k]? = some ⟨body, .minting m⟩) (hsource : m.source.renews = false)
      (hresponse : response.refreshToken = none) :
      Effect opts s256 w (.sign k jti accessToken refreshToken)
        { w with
          signed := w.signed ++ [(accessToken, m.claims opts jti (w.clock / 1000))]
          requests := w.requests.set k ⟨body, .answered m response⟩ }
  | renewed {k : ℕ} {jti accessToken refreshToken : String} {body : TokenBody} {m : Mint}
      {response : TokenResponse}
      (hk : w.requests[k]? = some ⟨body, .minting m⟩) (hsource : m.source.renews = true)
      (hresponse : response.refreshToken = some refreshToken) :
      Effect opts s256 w (.sign k jti accessToken refreshToken)
        { w with
          refreshTokens :=
            Function.update w.refreshTokens refreshToken (some (w.refreshRecord opts m refreshToken))
          signed := w.signed ++ [(accessToken, m.claims opts jti (w.clock / 1000))]
          requests := w.requests.set k ⟨body, .answered m response⟩ }
  | revoked (jti : String) : Effect opts s256 w (.revokeJti jti) { w with revokedJti := jti :: w.revokedJti }

theorem effect_of_exec (h : w.exec opts s256 a = some w') : Effect opts s256 w a w' := by
  cases a with
  | tick d =>
    obtain rfl := Option.some.inj h
    exact .tick d
  | registerClient client =>
    rw [World.exec, World.registerClient] at h
    split_ifs at h
    obtain rfl := Option.some.inj h
    exact .registered client
  | authorize params code =>
    obtain rfl := Option.some.inj h
    rcases authorize_cases opts w params code with ⟨e, he⟩ | ⟨client, hclient, hscope, he⟩
    · rw [he]
      exact .refused params code
    · have hok : (w.authorize opts params code).2 = .ok code := by rw [he]
      rw [he]
      exact .issued hclient hscope hok
  | token body =>
    have hh := handled_token s256 w body
    rw [World.exec] at h
    cases hst : w.token s256 body with
    | mk w₁ status =>
    rw [hst] at h hh
    obtain rfl := Option.some.inj h
    have hsame : w₁.requests = w.requests := by cases hh <;> rfl
    rw [hsame]
    exact .token hst hh
  | verify k =>
    rw [World.exec] at h
    split at h
    · rename_i body client subjectToken hk
      obtain rfl := Option.some.inj h
      exact .verified hk
    · cases h
  | sign k jti accessToken refreshToken =>
    rw [World.exec] at h
    split at h
    · rename_i body m hk
      rw [World.answer] at h
      cases hsource : m.source with
      | code code | refresh token =>
        rw [hsource] at h
        obtain rfl := Option.some.inj h
        exact .renewed hk (by rw [hsource]; rfl) rfl
      | service | exchange claims =>
        rw [hsource] at h
        obtain rfl := Option.some.inj h
        exact .answered hk (by rw [hsource]; rfl) rfl
    · cases h
  | revokeJti jti =>
    obtain rfl := Option.some.inj h
    exact .revoked jti

/-- What an exchange grants. -/
theorem exchange_minting {subjectToken : String} {m : Mint}
    (h : w.exchange opts body client subjectToken = .minting m) :
    ∃ claims scope, w.checkExchange opts body client subjectToken = .ok (claims, scope) ∧
      m.source = .exchange claims ∧ m.clientId = client.clientId ∧ m.scope = scope ∧
        m.role = client.defaultRole := by
  rw [World.exchange] at h
  split at h
  · cases h
  · rename_i claims scope hcheck
    obtain rfl := Status.minting.inj h
    exact ⟨claims, scope, hcheck, rfl, rfl, rfl, rfl⟩

theorem wellFormed_new : WellFormed {} :=
  ⟨by simp, by simp, by simp, by simp⟩

theorem WellFormed.step (hw : WellFormed w) (h : w.exec opts s256 a = some w') : WellFormed w' := by
  obtain ⟨hclients, hcodes, htokens, hmints⟩ := hw
  cases effect_of_exec h with
  | tick d => exact ⟨hclients, hcodes, htokens, hmints⟩
  | revoked jti => exact ⟨hclients, hcodes, htokens, hmints⟩
  | refused params code => exact ⟨hclients, hcodes, htokens, hmints⟩
  | registered client =>
    refine ⟨fun id client' hid => ?_, hcodes, htokens, hmints⟩
    rcases update_cases hid with ⟨rfl, rfl⟩ | ⟨-, hid⟩
    · rfl
    · exact hclients id client' hid
  | @issued params code client hclient hscope hok =>
    refine ⟨hclients, fun code' record hrecord => ?_, htokens, hmints⟩
    rcases update_cases hrecord with ⟨rfl, rfl⟩ | ⟨-, hrecord⟩
    · exact ⟨rfl, fun s hs => isWord_of_mem_words hs⟩
    · exact hcodes code' record hrecord
  | @token body w₁ status hst hh =>
    have hnew : (∀ m, status = .minting m → ∀ s ∈ m.scope, IsWord s) →
        ∀ (k : ℕ) (body' : TokenBody) (m : Mint),
        (w.requests ++ [⟨body, status⟩])[k]? = some ⟨body', .minting m⟩ → ∀ s ∈ m.scope, IsWord s := by
      intro hwords k body' m hm
      rcases getElem?_concat_cases hm with hm | ⟨-, he⟩
      · exact hmints k body' m hm
      · exact hwords m (Request.mk.inj he).2.symm
    cases hh with
    | failed e => exact ⟨hclients, hcodes, htokens, hnew fun m hm => by cases hm⟩
    | verifying hgrant hclient => exact ⟨hclients, hcodes, htokens, hnew fun m hm => by cases hm⟩
    | @service client m hgrant hclient hallowed hsource hid hwords hscope =>
      refine ⟨hclients, hcodes, htokens, hnew fun m' hm => ?_⟩
      obtain rfl := Status.minting.inj hm
      exact hwords
    | @code client record m hgrant hcheck hsource hid hscope =>
      obtain ⟨code, -, -, hrecord⟩ := (checkAuthCode_ok hcheck).found
      obtain ⟨rfl, hwords⟩ := hcodes code record hrecord
      refine ⟨hclients, fun code' record' hrecord' => ?_, htokens, hnew fun m' hm => ?_⟩
      · rcases update_cases hrecord' with ⟨rfl, rfl⟩ | ⟨-, hrecord'⟩
        · exact ⟨rfl, hwords⟩
        · exact hcodes code' record' hrecord'
      · obtain rfl := Status.minting.inj hm
        rw [hscope]
        exact hwords
    | @refresh client record m hgrant hcheck hsource hid hscope =>
      obtain ⟨token, -, -, hrecord⟩ := (checkRefresh_ok hcheck).found
      obtain ⟨rfl, hwords⟩ := htokens token record hrecord
      refine ⟨hclients, hcodes, fun token' record' hrecord' => ?_, hnew fun m' hm => ?_⟩
      · rcases update_cases hrecord' with ⟨rfl, rfl⟩ | ⟨-, hrecord'⟩
        · exact ⟨rfl, hwords⟩
        · exact htokens token' record' hrecord'
      · obtain rfl := Status.minting.inj hm
        rw [hscope]
        exact hwords
  | @verified k body client subjectToken hk =>
    refine ⟨hclients, hcodes, htokens, fun j body' m hm => ?_⟩
    rcases getElem?_set_cases hm with hm | ⟨rfl, he⟩
    · exact hmints j body' m hm
    · obtain ⟨claims, scope, hcheck, -, -, rfl, -⟩ := exchange_minting (Request.mk.inj he).2.symm
      exact (checkExchange_ok hcheck).2.2.1
  | @answered k jti accessToken refreshToken body m response hk hsource hresponse =>
    refine ⟨hclients, hcodes, htokens, fun j body' m' hm => ?_⟩
    rcases getElem?_set_cases hm with hm | ⟨rfl, he⟩
    · exact hmints j body' m' hm
    · cases (Request.mk.inj he).2
  | @renewed k jti accessToken refreshToken body m response hk hsource hresponse =>
    refine ⟨hclients, hcodes, fun token record hrecord => ?_, fun j body' m' hm => ?_⟩
    · rcases update_cases hrecord with ⟨rfl, rfl⟩ | ⟨-, hrecord⟩
      · exact ⟨rfl, hmints k body m hk⟩
      · exact htokens token record hrecord
    · rcases getElem?_set_cases hm with hm | ⟨rfl, he⟩
      · exact hmints j body' m' hm
      · cases (Request.mk.inj he).2

/-- The client that a request comes from is registered under its name. -/
theorem WellFormed.clients_of_authenticated (hw : WellFormed w) (h : w.authenticateClient body = .ok client) :
    w.clients client.clientId = some client := by
  obtain ⟨id, -, hclient, -⟩ := authenticateClient_ok h
  rw [hw.clients id client hclient]
  exact hclient

/-- A token that is not for another token. -/
theorem granted_iff {m : Mint} (hclient : w.clients m.clientId = some client)
    (hwords : ∀ s ∈ m.scope, IsWord s)
    (hsource : ∀ claims, m.source ≠ .exchange claims) :
    Granted w m ↔ m.source.grantType ∈ client.allowedGrantTypes ∧ m.scope ⊆ client.allowedScopes := by
  have hclaim : m.scopeClaim = m.scope := words_joinWords hwords
  constructor
  · rintro ⟨⟨client', hclient', hgrant, hscope⟩, -⟩
    obtain rfl : client = client' := Option.some.inj (hclient.symm.trans hclient')
    exact ⟨hgrant, hclaim ▸ hscope⟩
  · rintro ⟨hgrant, hscope⟩
    exact ⟨⟨client, hclient, hgrant, hclaim.symm ▸ hscope⟩, fun claims h => absurd h (hsource claims)⟩

theorem token_of_grant (s256 : String → String) (w : World) {g : GrantType} (hgrant : body.grant? = some g) :
    w.token s256 body = w.dispatch s256 body g := by
  have hname : body.grantType = some g.name := by
    have hfind := List.find?_some hgrant
    simpa using hfind
  have hgiven : given body.grantType = some g.name := by
    rw [given_eq_some]
    refine ⟨hname, ?_⟩
    cases g <;> decide
  rw [World.token, hgiven, hgrant]

/-- A request that mints a token, without looking at its grant. -/
theorem handled_of_mints {m : Mint} (h : m ∈ w.mints opts s256 (.token body)) :
    ∃ w₁, Handled s256 w body (w₁, .minting m) := by
  have hh := handled_token s256 w body
  rw [World.mints] at h
  cases hst : w.token s256 body with
  | mk w₁ status =>
  rw [hst] at h hh
  cases status with
  | minting m' =>
    obtain rfl := Option.some.inj h
    exact ⟨w₁, hh⟩
  | failed _ | verifying _ _ | answered _ _ => cases h

/-- **One request.** -/
theorem granted_token_iff (hw : WellFormed w) (body : TokenBody) :
    (∀ m ∈ w.mints opts s256 (.token body), Granted w m) ↔ Permitted opts s256 w (.token body) := by
  rw [Permitted]
  cases hgrant : body.grant? with
  | none =>
    refine iff_of_true (fun m hm => ?_) trivial
    obtain ⟨w₁, hh⟩ := handled_of_mints hm
    cases hh <;> simp_all
  | some g =>
    have htoken := token_of_grant s256 w hgrant
    cases g with
    | authorizationCode =>
      simp only [World.mints, htoken, World.dispatch, World.handleAuthCodeGrant]
      cases hcheck : w.checkAuthCode s256 body with
      | error e => exact iff_of_true (fun m hm => by cases hm) fun p hp => by cases hp
      | ok p =>
        obtain ⟨client, record⟩ := p
        have haccepted := checkAuthCode_ok hcheck
        obtain ⟨code, -, -, hrecord⟩ := haccepted.found
        simp only [Except.toOption, Option.mem_def, Option.some.injEq, forall_eq']
        exact granted_iff (hw.clients_of_authenticated haccepted.authenticated)
          (hw.codes code record hrecord).2
          fun claims h => by cases h
    | clientCredentials =>
      refine iff_of_true (fun m hm => ?_) trivial
      obtain ⟨w₁, hh⟩ := handled_of_mints hm
      cases hh with
      | service hgrant' hclient hallowed hsource hid hwords hscope =>
        have hregistered := hw.clients_of_authenticated hclient
        rw [← hid] at hregistered
        have hne : ∀ claims, m.source ≠ .exchange claims := by
          intro claims h
          rw [hsource] at h
          cases h
        rw [granted_iff hregistered hwords hne, hsource]
        exact ⟨hallowed, hscope⟩
      | code hgrant' => simp [hgrant] at hgrant'
      | refresh hgrant' => simp [hgrant] at hgrant'
    | refreshToken =>
      simp only [World.mints, htoken, World.dispatch, World.handleRefreshGrant]
      cases hcheck : w.checkRefresh body with
      | error e => exact iff_of_true (fun m hm => by cases hm) fun p hp => by cases hp
      | ok p =>
        obtain ⟨client, record⟩ := p
        have haccepted := checkRefresh_ok hcheck
        obtain ⟨token, -, -, hrecord⟩ := haccepted.found
        simp only [Except.toOption, Option.mem_def, Option.some.injEq, forall_eq']
        exact granted_iff (hw.clients_of_authenticated haccepted.authenticated)
          (hw.tokens token record hrecord).2
          fun claims h => by cases h
    | tokenExchange =>
      refine iff_of_true (fun m hm => ?_) trivial
      obtain ⟨w₁, hh⟩ := handled_of_mints hm
      cases hh <;> simp_all

/-- **One exchange**, when its subject token is verified. -/
theorem granted_verify_iff (k : ℕ) :
    (∀ m ∈ w.mints opts s256 (.verify k), Granted w m) ↔ Permitted opts s256 w (.verify k) := by
  rw [Permitted, World.mints]
  split
  · rename_i body client subjectToken hk
    rw [World.exchange]
    cases hcheck : w.checkExchange opts body client subjectToken with
    | error e => exact iff_of_true (fun m hm => by cases hm) fun p hp => by cases hp
    | ok p =>
      obtain ⟨claims, scope⟩ := p
      obtain ⟨hexp, hrevoked, hwords, hsub, -⟩ := checkExchange_ok hcheck
      simp only [Except.toOption, Option.mem_def, Option.some.injEq, forall_eq']
      have hclaim : words (joinWords scope) = scope := words_joinWords hwords
      constructor
      · rintro ⟨⟨current, hcurrent, hgrant, hscope⟩, hsubject⟩
        rw [Mint.scopeClaim, hclaim] at hscope
        exact ⟨(hsubject claims rfl).2.1, current, hcurrent, hgrant, hscope⟩
      · rintro ⟨hrole, current, hcurrent, hgrant, hscope⟩
        refine ⟨⟨current, hcurrent, hgrant, ?_⟩, ?_⟩
        · rw [Mint.scopeClaim, hclaim]
          exact hscope
        · rintro claims' hsource
          obtain rfl := Source.exchange.inj hsource
          rw [Mint.scopeClaim, hclaim]
          exact ⟨hsub, hrole, hexp, hrevoked⟩
  · exact iff_of_true (fun m hm => by cases hm) trivial

theorem granted_iff_permitted (hw : WellFormed w) (a : Action) :
    (∀ m ∈ w.mints opts s256 a, Granted w m) ↔ Permitted opts s256 w a := by
  cases a with
  | token body => exact granted_token_iff hw body
  | verify k => exact granted_verify_iff k
  | tick | registerClient | authorize | sign | revokeJti =>
      exact iff_of_true (fun m hm => by cases hm) trivial

/-- A token comes from a call of `mintAccessToken`. -/
structure Minted (opts : AuthorizationServerOptions) (s256 : String → String) (tr : List (World × Action))
    (w : World) : Prop where
  minting : ∀ (k : ℕ) (body : TokenBody) (m : Mint), w.requests[k]? = some ⟨body, .minting m⟩ →
    ∃ p ∈ tr, m ∈ p.1.mints opts s256 p.2
  signed : ∀ t ∈ w.signed, ∃ p ∈ tr, ∃ m ∈ p.1.mints opts s256 p.2, ∃ jti now, t.2 = m.claims opts jti now

theorem Minted.step (hm : Minted opts s256 tr w) (h : w.exec opts s256 a = some w') :
    Minted opts s256 (tr ++ [(w, a)]) w' := by
  have hold : ∀ {m}, (∃ p ∈ tr, m ∈ p.1.mints opts s256 p.2) →
      ∃ p ∈ tr ++ [(w, a)], m ∈ p.1.mints opts s256 p.2 := fun ⟨p, hp, hmint⟩ =>
    ⟨p, List.mem_append_left _ hp, hmint⟩
  have holdSigned : ∀ t ∈ w.signed, ∃ p ∈ tr ++ [(w, a)], ∃ m ∈ p.1.mints opts s256 p.2, ∃ jti now,
      t.2 = m.claims opts jti now := by
    intro t ht
    obtain ⟨p, hp, hsigned⟩ := hm.signed t ht
    exact ⟨p, List.mem_append_left _ hp, hsigned⟩
  have hlast : (w, a) ∈ tr ++ [(w, a)] := List.mem_append_right _ (List.mem_singleton_self _)
  cases effect_of_exec h with
  | tick | registered | refused | issued | revoked =>
    exact ⟨fun k body m hk => hold (hm.minting k body m hk), holdSigned⟩
  | @token body w₁ status hst hh =>
    have hsigned : w₁.signed = w.signed := by cases hh <;> rfl
    refine ⟨fun k body' m hk => ?_, fun t ht => holdSigned t (hsigned ▸ ht)⟩
    rcases getElem?_concat_cases hk with hk | ⟨-, he⟩
    · exact hold (hm.minting k body' m hk)
    · obtain ⟨rfl, rfl⟩ := Request.mk.inj he
      exact ⟨_, hlast, by rw [World.mints, hst]; rfl⟩
  | @verified k body client subjectToken hk =>
    refine ⟨fun j body' m hj => ?_, holdSigned⟩
    rcases getElem?_set_cases hj with hj | ⟨rfl, he⟩
    · exact hold (hm.minting j body' m hj)
    · obtain ⟨rfl, hst⟩ := Request.mk.inj he
      refine ⟨_, hlast, ?_⟩
      simp only [World.mints, hk]
      rw [← hst]
      rfl
  | @answered k jti accessToken refreshToken body m response hk hsource hresponse =>
    refine ⟨fun j body' m' hj => ?_, fun t ht => ?_⟩
    · rcases getElem?_set_cases hj with hj | ⟨-, he⟩
      · exact hold (hm.minting j body' m' hj)
      · cases (Request.mk.inj he).2
    · rcases List.mem_append.1 ht with ht | ht
      · exact holdSigned t ht
      · obtain rfl := List.mem_singleton.1 ht
        obtain ⟨p, hp, hmint⟩ := hold (hm.minting k body m hk)
        exact ⟨p, hp, m, hmint, jti, _, rfl⟩
  | @renewed k jti accessToken refreshToken body m response hk hsource hresponse =>
    refine ⟨fun j body' m' hj => ?_, fun t ht => ?_⟩
    · rcases getElem?_set_cases hj with hj | ⟨-, he⟩
      · exact hold (hm.minting j body' m' hj)
      · cases (Request.mk.inj he).2
    · rcases List.mem_append.1 ht with ht | ht
      · exact holdSigned t ht
      · obtain rfl := List.mem_singleton.1 ht
        obtain ⟨p, hp, hmint⟩ := hold (hm.minting k body m hk)
        exact ⟨p, hp, m, hmint, jti, _, rfl⟩

/-! ## Runs -/

theorem wellFormed_of_run (h : Run (Steps opts s256) {} tr w) : WellFormed w :=
  h.invariant (C := fun _ _ => True) wellFormed_new (fun _ _ _ _ hs hw => hw.step hs.1) fun _ _ => trivial

theorem minted_of_run (h : Run (Steps opts s256) {} tr w) : Minted opts s256 tr w := by
  induction h with
  | init => exact ⟨by simp, by simp⟩
  | snoc _ hs ih => exact ih.step hs.1

/-- **Tokens that are granted**: all tokens of a run are, exactly when every request meets what the handlers
    do not check.  Each token that was signed is one of these. -/
theorem run_granted_iff (h : Run (Steps opts s256) {} tr w) :
    (∀ t ∈ w.signed, ∃ p ∈ tr, ∃ m ∈ p.1.mints opts s256 p.2, ∃ jti now, t.2 = m.claims opts jti now) ∧
      ((∀ p ∈ tr, ∀ m ∈ p.1.mints opts s256 p.2, Granted p.1 m) ↔ ∀ p ∈ tr, Permitted opts s256 p.1 p.2) := by
  refine ⟨(minted_of_run h).signed, forall₂_congr fun p hp => ?_⟩
  obtain ⟨before, after, rfl⟩ := List.append_of_mem hp
  obtain ⟨_, hr, -⟩ := h.split
  exact granted_iff_permitted (wellFormed_of_run hr) p.2

/-- A service with a role, which may use some grants. -/
def service (clientId : String) (defaultRole : Role) (allowedGrantTypes : List GrantType) : OAuthClient where
  clientId := clientId
  clientSecret := some "secret"
  name := clientId
  redirectUris := ["https://app"]
  allowedScopes := ["events:read"]
  allowedGrantTypes := allowedGrantTypes
  isPublic := false
  defaultRole := defaultRole

/-- What it asks for. -/
def bodyOf (clientId : String) (g : GrantType) : TokenBody :=
  { grantType := some g.name, clientId := some clientId, clientSecret := some "secret" }

/-- A viewer has a token of its own, which another service exchanges. -/
def exchangeScript (gateway : Role) : List Action :=
  [.registerClient (service "app" .viewer [.clientCredentials]),
    .registerClient (service "gateway" gateway [.tokenExchange]),
    .token (bodyOf "app" .clientCredentials), .sign 0 "jti0" "token0" "",
    .token { bodyOf "gateway" .tokenExchange with
      subjectToken := some "token0", subjectTokenType := some accessTokenType },
    .verify 1, .sign 1 "jti1" "token1" ""]

def exampleOptions : AuthorizationServerOptions := { issuer := "https://issuer" }

theorem run_granted_exchangeScript :
    ∃ w, (exchangeScript .viewer).foldlM (World.exec exampleOptions id) {} = some w ∧ w.signed.length = 2 ∧
      ∀ p ∈ Run.traceOf (World.exec exampleOptions id) {} (exchangeScript .viewer),
        ∀ m ∈ p.1.mints exampleOptions id p.2, Granted p.1 m := by
  refine ⟨_, rfl, by decide, ?_⟩
  have hrun : Run (Steps exampleOptions id) {}
      (Run.traceOf (World.exec exampleOptions id) {} (exchangeScript .viewer)) _ :=
    (Run.of_foldlM (f := World.exec exampleOptions id) (l := exchangeScript .viewer) rfl).restrict (by decide)
  exact (run_granted_iff hrun).2.2 (by decide)

/-- The same, when the other service has a higher role: its token has it too. -/
theorem exchanged_role_raised :
    ∃ w, Run (Steps exampleOptions id) {}
        (Run.traceOf (World.exec exampleOptions id) {} (exchangeScript .admin)) w ∧
      w.signed.map (·.2.role) = [.viewer, .admin] ∧
      ¬∀ p ∈ Run.traceOf (World.exec exampleOptions id) {} (exchangeScript .admin),
        ∀ m ∈ p.1.mints exampleOptions id p.2, Granted p.1 m := by
  refine ⟨_, (Run.of_foldlM (f := World.exec exampleOptions id) (l := exchangeScript .admin) rfl).restrict
    (by decide),
    by decide, fun h => ?_⟩
  have hverify := h _ (List.mem_of_getElem? (i := 5) rfl) _ rfl
  exact absurd (hverify.subject _ rfl).2.1 (by decide)

end AuthorizationServer
