/-
  AuthorizationServer — the token issuer (`packages/security/src/oauth/authorizationServer.ts`).

  A token request runs up to its first `await`: it has then failed, or it has called `mintAccessToken`
  and waits for the signature, or it waits for the verification of its subject token.  Other requests
  run in between.  A JSON web token is known by its text: the server signs claims, and the text verifies
  as long as they have not expired.

  `Action` is what can happen next; an action that is not possible has no result.
-/
import AuditTransparency.Soroban.Run
import AuditTransparency.Security.Words
import AuditTransparency.Security.Pkce
import Mathlib.Logic.Function.Basic

namespace AuthorizationServer

open Words Pkce

/-! ## Data -/

inductive Role where
  | viewer
  | auditor
  | admin
  deriving DecidableEq

/-- `ROLE_HIERARCHY` -/
def Role.hierarchy : Role → ℕ
  | .viewer => 1
  | .auditor => 2
  | .admin => 3

inductive GrantType where
  | authorizationCode
  | clientCredentials
  | refreshToken
  | tokenExchange
  deriving DecidableEq

def GrantType.name : GrantType → String
  | .authorizationCode => "authorization_code"
  | .clientCredentials => "client_credentials"
  | .refreshToken => "refresh_token"
  | .tokenExchange => "urn:ietf:params:oauth:grant-type:token-exchange"

def accessTokenType : String := "urn:ietf:params:oauth:token-type:access_token"

structure OAuthClient where
  clientId : String
  clientSecret : Option String
  name : String
  redirectUris : List String
  allowedScopes : List String
  allowedGrantTypes : List GrantType
  isPublic : Bool
  defaultRole : Role
  deriving DecidableEq

structure AuthorizationCodeRecord where
  code : String
  clientId : String
  redirectUri : String
  scope : List String
  subject : String
  codeChallenge : Option String
  codeChallengeMethod : String
  expiresAt : ℕ
  used : Bool
  deriving DecidableEq

structure RefreshTokenRecord where
  token : String
  clientId : String
  subject : String
  scope : List String
  expiresAt : ℕ
  revoked : Bool
  deriving DecidableEq

structure AccessTokenClaims where
  iss : String
  sub : String
  aud : String
  clientId : String
  scope : String
  role : Role
  exp : ℕ
  iat : ℕ
  jti : String
  act : Option String
  deriving DecidableEq

structure AuthorizationServerOptions where
  issuer : String
  accessTokenTtlSeconds : ℕ := 900
  refreshTokenTtlSeconds : ℕ := 60 * 60 * 24 * 30
  authCodeTtlSeconds : ℕ := 60

/-- What `authorize` is asked for. -/
structure AuthorizeParams where
  clientId : String
  redirectUri : String
  scope : String
  subject : String
  codeChallenge : Option String
  codeChallengeMethod : Option String
  deriving DecidableEq

/-- The body of a token request. -/
structure TokenBody where
  grantType : Option String := none
  clientId : Option String := none
  clientSecret : Option String := none
  code : Option String := none
  redirectUri : Option String := none
  codeVerifier : Option String := none
  refreshToken : Option String := none
  scope : Option String := none
  subjectToken : Option String := none
  subjectTokenType : Option String := none
  audience : Option String := none
  deriving DecidableEq

structure OAuthError where
  error : String
  description : String
  deriving DecidableEq

structure TokenResponse where
  accessToken : String
  expiresIn : ℕ
  refreshToken : Option String
  scope : String
  issuedTokenType : Option String
  deriving DecidableEq

/-- What a token is minted from. -/
inductive Source where
  | code (code : String)
  | service
  | refresh (token : String)
  | exchange (subject : AccessTokenClaims)
  deriving DecidableEq

def Source.grantType : Source → GrantType
  | .code _ => .authorizationCode
  | .service => .clientCredentials
  | .refresh _ => .refreshToken
  | .exchange _ => .tokenExchange

/-- A call of `mintAccessToken`. -/
structure Mint where
  source : Source
  clientId : String
  subject : String
  scope : List String
  role : Role
  audience : Option String := none
  actorSubject : Option String := none
  deriving DecidableEq

inductive Status where
  | verifying (client : OAuthClient) (subjectToken : String)
  | minting (m : Mint)
  | failed (e : OAuthError)
  | answered (m : Mint) (r : TokenResponse)
  deriving DecidableEq

structure Request where
  body : TokenBody
  status : Status
  deriving DecidableEq

structure World where
  clock : ℕ := 0
  clients : String → Option OAuthClient := fun _ => none
  authCodes : String → Option AuthorizationCodeRecord := fun _ => none
  refreshTokens : String → Option RefreshTokenRecord := fun _ => none
  revokedJti : List String := []
  /-- the tokens that were signed -/
  signed : List (String × AccessTokenClaims) := []
  /-- the token requests, in the order in which they came -/
  requests : List Request := []

inductive Action where
  | tick (elapsed : ℕ)
  | registerClient (client : OAuthClient)
  /-- `code` is what `randomBytes` returns -/
  | authorize (params : AuthorizeParams) (code : String)
  | token (body : TokenBody)
  /-- the subject token of the request `k` is verified -/
  | verify (k : ℕ)
  /-- the token of the request `k` is signed; what `randomUUID` and `randomBytes` return -/
  | sign (k : ℕ) (jti accessToken refreshToken : String)
  | revokeJti (jti : String)
  deriving DecidableEq

/-- A string that is there and not empty. -/
def given (s : Option String) : Option String := s.filter (· ≠ "")

/-- The grant that a body asks for. -/
def TokenBody.grant? (b : TokenBody) : Option GrantType :=
  [GrantType.authorizationCode, .clientCredentials, .refreshToken, .tokenExchange].find? fun g =>
    b.grantType = some g.name

/-! ## Endpoints -/

namespace World
variable (opts : AuthorizationServerOptions) (s256 : String → String)

/-- `registerClient`; `none` when it throws. -/
def registerClient (w : World) (client : OAuthClient) : Option World :=
  if client.isPublic && (given client.clientSecret).isSome then none
  else if !client.isPublic && !(given client.clientSecret).isSome then none
  else some { w with clients := Function.update w.clients client.clientId client }

/-- The record that `authorize` keeps of a code. -/
def record (w : World) (params : AuthorizeParams) (code : String) : AuthorizationCodeRecord where
  code := code
  clientId := params.clientId
  redirectUri := params.redirectUri
  scope := words params.scope
  subject := params.subject
  codeChallenge := params.codeChallenge
  codeChallengeMethod := params.codeChallengeMethod.getD "S256"
  expiresAt := w.clock + opts.authCodeTtlSeconds * 1000
  used := false

/-- `authorize` -/
def authorize (w : World) (params : AuthorizeParams) (code : String) : World × Except OAuthError String :=
  match w.clients params.clientId with
  | none => (w, .error ⟨"invalid_client", "unknown client_id"⟩)
  | some client =>
    if params.redirectUri ∉ client.redirectUris then
      (w, .error ⟨"invalid_request", "redirect_uri mismatch"⟩)
    else if client.isPublic && !(given params.codeChallenge).isSome then
      (w, .error ⟨"invalid_request", "PKCE code_challenge is required for public clients"⟩)
    else
      let requestedScopes := words params.scope
      let disallowed := requestedScopes.filter (· ∉ client.allowedScopes)
      if disallowed ≠ [] then
        (w, .error ⟨"invalid_scope", "client not permitted: " ++ ", ".intercalate disallowed⟩)
      else
        ({ w with authCodes := Function.update w.authCodes code (w.record opts params code) }, .ok code)

/-- `authenticateClient` -/
def authenticateClient (w : World) (body : TokenBody) : Except OAuthError OAuthClient :=
  match (given body.clientId).bind w.clients with
  | none => .error ⟨"invalid_client", "client authentication failed"⟩
  | some client =>
    if !client.isPublic && client.clientSecret ≠ body.clientSecret then
      .error ⟨"invalid_client", "client authentication failed"⟩
    else .ok client

/-- What `handleAuthCodeGrant` checks. -/
def checkAuthCode (w : World) (body : TokenBody) :
    Except OAuthError (OAuthClient × AuthorizationCodeRecord) :=
  match w.authenticateClient body with
  | .error e => .error e
  | .ok client =>
    match (given body.code).bind w.authCodes with
    | none => .error ⟨"invalid_grant", "authorization code is invalid, expired, or reused"⟩
    | some record =>
      if record.used || record.expiresAt < w.clock || record.clientId ≠ client.clientId then
        .error ⟨"invalid_grant", "authorization code is invalid, expired, or reused"⟩
      else if some record.redirectUri ≠ body.redirectUri then
        .error ⟨"invalid_grant", "redirect_uri mismatch"⟩
      else if client.isPublic || (given record.codeChallenge).isSome then
        match given body.codeVerifier, given record.codeChallenge with
        | some verifier, some challenge =>
          if verifyCodeChallenge s256 verifier challenge record.codeChallengeMethod then .ok (client, record)
          else .error ⟨"invalid_grant", "PKCE verification failed"⟩
        | _, _ => .error ⟨"invalid_grant", "code_verifier (PKCE) is required"⟩
      else .ok (client, record)

/-- `handleAuthCodeGrant`, up to its `await`. -/
def handleAuthCodeGrant (w : World) (body : TokenBody) : World × Status :=
  match w.checkAuthCode s256 body with
  | .error e => (w, .failed e)
  | .ok (client, record) =>
    ({ w with authCodes := Function.update w.authCodes record.code (some { record with used := true }) },
      .minting
        { source := .code record.code, clientId := client.clientId, subject := record.subject,
          scope := record.scope, role := client.defaultRole })

/-- `handleClientCredentialsGrant`, up to its `await`. -/
def handleClientCredentialsGrant (w : World) (body : TokenBody) : World × Status :=
  match w.authenticateClient body with
  | .error e => (w, .failed e)
  | .ok client =>
    if client.isPublic then
      (w, .failed ⟨"unauthorized_client", "public clients cannot use client_credentials"⟩)
    else if .clientCredentials ∉ client.allowedGrantTypes then
      (w, .failed ⟨"unauthorized_client", "grant type not permitted for this client"⟩)
    else
      let requested := words (body.scope.getD (joinWords client.allowedScopes))
      let disallowed := requested.filter (· ∉ client.allowedScopes)
      if disallowed ≠ [] then
        (w, .failed ⟨"invalid_scope", "not permitted: " ++ ", ".intercalate disallowed⟩)
      else
        (w, .minting
          { source := .service, clientId := client.clientId, subject := "service:" ++ client.clientId,
            scope := requested, role := client.defaultRole })

/-- What `handleRefreshGrant` checks. -/
def checkRefresh (w : World) (body : TokenBody) : Except OAuthError (OAuthClient × RefreshTokenRecord) :=
  match w.authenticateClient body with
  | .error e => .error e
  | .ok client =>
    match (given body.refreshToken).bind w.refreshTokens with
    | none => .error ⟨"invalid_grant", "refresh token is invalid, expired, or revoked"⟩
    | some record =>
      if record.revoked || record.expiresAt < w.clock || record.clientId ≠ client.clientId then
        .error ⟨"invalid_grant", "refresh token is invalid, expired, or revoked"⟩
      else .ok (client, record)

/-- `handleRefreshGrant`, up to its `await`. -/
def handleRefreshGrant (w : World) (body : TokenBody) : World × Status :=
  match w.checkRefresh body with
  | .error e => (w, .failed e)
  | .ok (client, record) =>
    ({ w with
        refreshTokens := Function.update w.refreshTokens record.token
          (some { record with revoked := true }) },
      .minting
        { source := .refresh record.token, clientId := client.clientId, subject := record.subject,
          scope := record.scope, role := client.defaultRole })

/-- `handleTokenExchange`, up to the verification. -/
def handleTokenExchange (w : World) (body : TokenBody) : World × Status :=
  match w.authenticateClient body with
  | .error e => (w, .failed e)
  | .ok client =>
    if .tokenExchange ∉ client.allowedGrantTypes then
      (w, .failed ⟨"unauthorized_client", "token exchange not permitted for this client"⟩)
    else
      match given body.subjectToken with
      | none => (w, .failed ⟨"invalid_request", "subject_token and subject_token_type are required"⟩)
      | some subjectToken =>
        if body.subjectTokenType ≠ some accessTokenType then
          (w, .failed ⟨"invalid_request", "subject_token and subject_token_type are required"⟩)
        else (w, .verifying client subjectToken)

/-- `jwtVerify`: the claims of a token that the server has signed and that has not expired. -/
def jwtVerify (w : World) (token : String) : Option AccessTokenClaims :=
  (w.signed.lookup token).filter fun claims => claims.iss = opts.issuer && w.clock / 1000 < claims.exp

/-- What `handleTokenExchange` checks from there, and the scope it grants. -/
def checkExchange (w : World) (body : TokenBody) (client : OAuthClient) (subjectToken : String) :
    Except OAuthError (AccessTokenClaims × List String) :=
  match w.jwtVerify opts subjectToken with
  | none => .error ⟨"invalid_grant", "subject_token is invalid or expired"⟩
  | some claims =>
    if claims.jti ∈ w.revokedJti then .error ⟨"invalid_grant", "subject_token has been revoked"⟩
    else
      let requestedScope := words (body.scope.getD claims.scope)
      let disallowed := requestedScope.filter fun s =>
        s ∉ client.allowedScopes || s ∉ splitBlanks claims.scope
      if disallowed ≠ [] then
        .error ⟨"invalid_scope",
          "exchanged token cannot exceed subject_token or client scope: " ++ ", ".intercalate disallowed⟩
      else .ok (claims, requestedScope)

/-- `handleTokenExchange`, up to its last `await`. -/
def exchange (w : World) (body : TokenBody) (client : OAuthClient) (subjectToken : String) : Status :=
  match w.checkExchange opts body client subjectToken with
  | .error e => .failed e
  | .ok (claims, scope) =>
    .minting
      { source := .exchange claims, clientId := client.clientId, subject := claims.sub, scope,
        role := client.defaultRole, audience := body.audience, actorSubject := some client.clientId }

def dispatch (w : World) (body : TokenBody) : GrantType → World × Status
  | .authorizationCode => w.handleAuthCodeGrant s256 body
  | .clientCredentials => w.handleClientCredentialsGrant body
  | .refreshToken => w.handleRefreshGrant body
  | .tokenExchange => w.handleTokenExchange body

/-- `token`, up to its first `await`. -/
def token (w : World) (body : TokenBody) : World × Status :=
  match given body.grantType with
  | none => (w, .failed ⟨"invalid_request", "grant_type is required"⟩)
  | some grantType =>
    match body.grant? with
    | some g => w.dispatch s256 body g
    | none => (w, .failed ⟨"unsupported_grant_type", "unsupported grant_type: " ++ grantType⟩)

end World

/-- The claims that `mintAccessToken` signs. -/
def Mint.claims (opts : AuthorizationServerOptions) (m : Mint) (jti : String) (now : ℕ) :
    AccessTokenClaims where
  iss := opts.issuer
  sub := m.subject
  aud := m.audience.getD "audit-ledger-api"
  clientId := m.clientId
  scope := joinWords m.scope
  role := m.role
  exp := now + opts.accessTokenTtlSeconds
  iat := now
  jti := jti
  act := given m.actorSubject

namespace World
variable (opts : AuthorizationServerOptions) (s256 : String → String)

/-- The record that the handlers keep of a refresh token. -/
def refreshRecord (w : World) (m : Mint) (refreshToken : String) : RefreshTokenRecord where
  token := refreshToken
  clientId := m.clientId
  subject := m.subject
  scope := m.scope
  expiresAt := w.clock + opts.refreshTokenTtlSeconds * 1000
  revoked := false

/-- What a handler does when its token is signed. -/
def answer (w : World) (m : Mint) (accessToken refreshToken : String) : World × TokenResponse :=
  let expiresIn := opts.accessTokenTtlSeconds
  let scope := joinWords m.scope
  match m.source with
  | .code _ | .refresh _ =>
    ({ w with
        refreshTokens :=
          Function.update w.refreshTokens refreshToken (some (w.refreshRecord opts m refreshToken)) },
      ⟨accessToken, expiresIn, some refreshToken, scope, none⟩)
  | .service => (w, ⟨accessToken, expiresIn, none, scope, none⟩)
  | .exchange _ => (w, ⟨accessToken, expiresIn, none, scope, some accessTokenType⟩)

/-- What an action does; `none` when it is not possible, or throws. -/
def exec (w : World) : Action → Option World
  | .tick d => some { w with clock := w.clock + d }
  | .registerClient client => w.registerClient client
  | .authorize params code => some (w.authorize opts params code).1
  | .token body =>
    let (w', status) := w.token s256 body
    some { w' with requests := w'.requests ++ [⟨body, status⟩] }
  | .verify k =>
    match w.requests[k]? with
    | some ⟨body, .verifying client subjectToken⟩ =>
      some { w with requests := w.requests.set k ⟨body, w.exchange opts body client subjectToken⟩ }
    | _ => none
  | .sign k jti accessToken refreshToken =>
    match w.requests[k]? with
    | some ⟨body, .minting m⟩ =>
      let (w', r) := w.answer opts m accessToken refreshToken
      some { w' with
        signed := w'.signed ++ [(accessToken, m.claims opts jti (w.clock / 1000))]
        requests := w'.requests.set k ⟨body, .answered m r⟩ }
    | _ => none
  | .revokeJti jti => some { w with revokedJti := jti :: w.revokedJti }

end World

/-- Random codes and tokens are new. -/
def Distinct (w : World) : Action → Prop
  | .authorize _ code => w.authCodes code = none
  | .sign _ _ accessToken refreshToken =>
    w.signed.lookup accessToken = none ∧ w.refreshTokens refreshToken = none
  | _ => True

instance (w : World) : (a : Action) → Decidable (Distinct w a)
  | .authorize _ code => inferInstanceAs (Decidable (w.authCodes code = none))
  | .sign _ _ accessToken refreshToken =>
    inferInstanceAs (Decidable (w.signed.lookup accessToken = none ∧ w.refreshTokens refreshToken = none))
  | .tick _ | .registerClient _ | .token _ | .verify _ | .revokeJti _ => isTrue trivial

/-- One step. -/
def Steps (opts : AuthorizationServerOptions) (s256 : String → String) (w : World) (a : Action)
    (w' : World) : Prop :=
  w.exec opts s256 a = some w' ∧ Distinct w a

end AuthorizationServer
