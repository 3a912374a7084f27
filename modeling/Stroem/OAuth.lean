import Stroem.Foundation.Lineage
import Stroem.Foundation.Runs
import Stroem.Foundation.Table
import Stroem.Workflow

/-!
# The OAuth token endpoint

Two grants share one endpoint: a code is exchanged for the first refresh token, and a refresh
token is rotated into the next.  A request is a call that executes its database statements one
after the other, interleaved with those of every other call; only the rotation is a transaction.
Statements run under READ COMMITTED: an update waits for a row that a rotation holds, and then
looks at it again.

Beside the tables the state keeps which codes were ever granted and what every token was issued
for.
-/

namespace Stroem.OAuth

open Foundation

/-! ## Rows and requests -/

structure Crypto where
  hashToken : String → String
  s256 : String → String

structure ClientRow where
  clientId : String
  clientSecretHash : Option String := none
  expiresAt : Option Time := none
  deriving DecidableEq

structure CodeRow where
  codeHash : String
  clientId : String
  userId : Uuid
  redirectUri : String
  codeChallenge : String
  scope : String
  resource : String
  expiresAt : Time
  usedAt : Option Time := none
  deriving DecidableEq

structure TokenRow where
  tokenHash : String
  clientId : String
  userId : Uuid
  scope : String
  resource : String
  expiresAt : Time
  createdAt : Time
  revokedAt : Option Time := none
  deriving DecidableEq

structure TokenRequest where
  grantType : String
  code : Option String := none
  redirectUri : Option String := none
  codeVerifier : Option String := none
  refreshToken : Option String := none
  clientId : Option String := none
  clientSecret : Option String := none
  deriving DecidableEq

structure Refusal where
  status : Nat
  error : String
  description : String
  deriving DecidableEq

def invalidRequest (description : String) : Refusal := ⟨400, "invalid_request", description⟩

def invalidClient (description : String) : Refusal := ⟨401, "invalid_client", description⟩

def invalidGrant (description : String) : Refusal := ⟨400, "invalid_grant", description⟩

def serverError (description : String) : Refusal := ⟨500, "server_error", description⟩

def refreshInvalid : Refusal := invalidGrant "refresh_token is not valid"

def refreshTokenTtlSecs : Nat := 30 * 24 * 3600

/-! ## Calls -/

inductive Phase where
  | exchange (req : TokenRequest) (code redirectUri codeVerifier : String)
  | codeLoaded (req : TokenRequest) (redirectUri codeVerifier : String) (row : CodeRow)
  | codeChecked (row : CodeRow)
  | codeSpent (row : CodeRow)
  | codeMinted (row : CodeRow)
  | refresh (req : TokenRequest) (refresh claimedClient : String)
  | clientKnown (refresh claimedClient : String)
  | reuseFound (row : TokenRow)
  | revoking (row : TokenRow) (targets : List String)
  | tokenCurrent (row : TokenRow)
  | tokenMinted (row : TokenRow)
  | rotating (row : TokenRow) (startedAt : Time)
  | granted (refreshToken : String)
  | refused (refusal : Refusal)
  | reuseAnswered (row : TokenRow) (revoked : Bool)
  | failed (refusal : Refusal)
  deriving DecidableEq

structure Grant where
  codeHash : String
  clientId : String
  userId : Uuid
  deriving DecidableEq

def CodeRow.grant (row : CodeRow) : Grant := ⟨row.codeHash, row.clientId, row.userId⟩

structure State where
  clients : List ClientRow := []
  users : List Uuid := []
  codes : List CodeRow := []
  tokens : List TokenRow := []
  calls : List Phase := []
  authorized : List Grant := []
  issued : Lineage String String := []
  deriving DecidableEq

def State.move (s : State) (call : Nat) (phase : Phase) : State :=
  { s with calls := s.calls.set call phase }

/-! ## The checks of a request -/

def nonEmpty (field : Option String) : Option String :=
  field.filter (· != "")

def present (req : TokenRequest) : Phase :=
  if req.grantType = "authorization_code" then
    match nonEmpty req.code, nonEmpty req.redirectUri, nonEmpty req.codeVerifier with
    | none, _, _ => .refused (invalidRequest "code is required")
    | some _, none, _ => .refused (invalidRequest "redirect_uri is required")
    | some _, some _, none =>
      .refused (invalidRequest "code_verifier is required (PKCE is mandatory in OAuth 2.1)")
    | some code, some redirectUri, some codeVerifier =>
      .exchange req code redirectUri codeVerifier
  else if req.grantType = "refresh_token" then
    match nonEmpty req.refreshToken, nonEmpty req.clientId with
    | none, _ => .refused (invalidRequest "refresh_token is required")
    | some _, none =>
      .refused (invalidClient "client_id is required for the refresh_token grant")
    | some refresh, some claimedClient => .refresh req refresh claimedClient
  else
    .refused ⟨400, "unsupported_grant_type", "Unsupported grant_type: " ++ req.grantType⟩

/-- `authenticate_client`; `none` lets the client through. -/
def authenticateClient (crypto : Crypto) (clients : List ClientRow) (now : Time)
    (req : TokenRequest) (expectedClientId : String) : Option Refusal :=
  match clients.find? (·.clientId == expectedClientId) with
  | none => some (invalidClient "Unknown client")
  | some client =>
    if client.expiresAt.any (· < now) then
      some (invalidClient "Client registration has expired")
    else if req.clientId.any (· != expectedClientId) then
      some (invalidClient "client_id mismatch")
    else
      match client.clientSecretHash, req.clientSecret with
      | none, _ => none
      | some _, none => some (invalidClient "client_secret is required")
      | some stored, some provided =>
        if crypto.hashToken provided == stored then none
        else some (invalidClient "Invalid client_secret")

def verifyS256 (crypto : Crypto) (challenge verifier : String) : Bool :=
  if verifier.utf8ByteSize < 43 ∨ verifier.utf8ByteSize > 128 then false
  else crypto.s256 verifier == challenge

def isUnused (codeHash : String) (now : Time) (row : CodeRow) : Bool :=
  row.codeHash == codeHash && row.usedAt.isNone && decide (now < row.expiresAt)

def afterGetUnused (crypto : Crypto) (s : State) (now : Time) (req : TokenRequest)
    (code redirectUri codeVerifier : String) : Phase :=
  match s.codes.find? (isUnused (crypto.hashToken code) now) with
  | some row => .codeLoaded req redirectUri codeVerifier row
  | none => .refused (invalidGrant "Unknown, expired, or already-used authorization code")

def afterCheckCode (crypto : Crypto) (s : State) (now : Time) (req : TokenRequest)
    (redirectUri codeVerifier : String) (row : CodeRow) : Phase :=
  match authenticateClient crypto s.clients now req row.clientId with
  | some refusal => .refused refusal
  | none =>
    if row.redirectUri ≠ redirectUri then
      .refused (invalidGrant "redirect_uri does not match the authorization request")
    else if verifyS256 crypto row.codeChallenge codeVerifier then .codeChecked row
    else .refused (invalidGrant "PKCE verification failed")

def afterAuthenticate (crypto : Crypto) (s : State) (now : Time) (req : TokenRequest)
    (refresh claimedClient : String) : Phase :=
  match authenticateClient crypto s.clients now req claimedClient with
  | some refusal => .refused refusal
  | none => .clientKnown refresh claimedClient

def afterGet (crypto : Crypto) (s : State) (now : Time) (refresh claimedClient : String) : Phase :=
  match s.tokens.find? (·.tokenHash == crypto.hashToken refresh) with
  | none => .refused refreshInvalid
  | some row =>
    if row.clientId ≠ claimedClient then .refused refreshInvalid
    else if row.revokedAt.isSome then .reuseFound row
    else if row.expiresAt < now then .refused refreshInvalid
    else .tokenCurrent row

/-! ## Statements -/

def locks (tokenHash : String) : Phase → Bool
  | .rotating row _ => row.tokenHash == tokenHash
  | _ => false

def State.locked (s : State) (tokenHash : String) : Bool :=
  s.calls.any (locks tokenHash)

def State.canInsert (s : State) (tokenHash clientId : String) (userId : Uuid) : Bool :=
  !(s.issued.any fun birth => birth.item == tokenHash) &&
    s.clients.any (·.clientId == clientId) && s.users.contains userId

def State.delete (s : State) (code : CodeRow → Bool) (token : TokenRow → Bool) : Option State :=
  if s.tokens.any fun row => token row && s.locked row.tokenHash then none
  else
    some { s with
      codes := s.codes.filter fun row => !code row
      tokens := s.tokens.filter fun row => !token row }

def purgeable (now : Time) (row : TokenRow) : Bool :=
  decide (row.expiresAt < now) ||
    row.revokedAt.any fun revokedAt => revokedAt + 7 * 24 * 3600 < now

def chainTargets (s : State) (row : TokenRow) : List String :=
  (s.tokens.filter fun token =>
    token.clientId == row.clientId && token.userId == row.userId &&
      token.revokedAt.isNone).map (·.tokenHash)

def revoke (now : Time) (row : TokenRow) : TokenRow :=
  { row with revokedAt := some now }

def isCurrent (tokenHash : String) (now : Time) (row : TokenRow) : Bool :=
  row.tokenHash == tokenHash && row.revokedAt.isNone && decide (now < row.expiresAt)

inductive Failure where
  | statement
  | authNotConfigured
  | encoder
  deriving DecidableEq

def mintFailure : Failure → String
  | .statement => "Database error"
  | .authNotConfigured => "Auth is not configured on this server"
  | .encoder => "Failed to mint access token"

def afterFailure : Phase → Failure → Option Phase
  | .codeSpent _, failure | .tokenCurrent _, failure =>
    some (.failed (serverError (mintFailure failure)))
  | .codeMinted _, .statement => some (.failed (serverError "Failed to persist refresh token"))
  | .reuseFound row, .statement | .revoking row _, .statement => some (.reuseAnswered row false)
  | .exchange .., .statement | .codeLoaded .., .statement | .codeChecked _, .statement
  | .refresh .., .statement | .clientKnown .., .statement | .tokenMinted _, .statement
  | .rotating .., .statement => some (.failed (serverError "Database error"))
  | _, _ => none

/-- One statement of a call or of the rest of the server.  A statement whose reply is `lost` has
taken effect, and the call goes on with an error. -/
inductive Event where
  | addClient (client : ClientRow)
  | addUser (user : Uuid)
  | removeClient (clientId : String)
  | removeUser (user : Uuid)
  | authorize (row : CodeRow)
  | purgeCodes (now : Time)
  | purgeTokens (now : Time)
  | request (req : TokenRequest)
  | getUnused (call : Nat) (now : Time)
  | checkCode (call : Nat) (now : Time)
  | consume (call : Nat) (now : Time) (lost : Bool)
  | loadUser (call : Nat)
  | create (call : Nat) (raw : String) (now : Time) (lost : Bool)
  | authenticate (call : Nat) (now : Time)
  | get (call : Nat) (now : Time)
  | revokeStart (call : Nat)
  | revokeDone (call : Nat) (now : Time) (lost : Bool)
  | mint (call : Nat)
  | rotateUpdate (call : Nat) (now : Time)
  | rotateCommit (call : Nat) (raw : String) (now : Time) (lost : Bool)
  | fail (call : Nat) (failure : Failure)
  deriving DecidableEq

def consume (s : State) (call : Nat) (row : CodeRow) (now : Time) (lost : Bool) : Option State :=
  if s.codes.any (isUnused row.codeHash now) then
    some { s with
      codes := updateWhere (isUnused row.codeHash now) (fun r => { r with usedAt := some now })
        s.codes
      calls := s.calls.set call
        (if lost then .failed (serverError "Database error") else .codeSpent row) }
  else if lost then none
  else some (s.move call (.refused (invalidGrant "Authorization code has already been used")))

def create (crypto : Crypto) (s : State) (call : Nat) (row : CodeRow) (raw : String) (now : Time)
    (lost : Bool) : Option State :=
  if s.canInsert (crypto.hashToken raw) row.clientId row.userId then
    some { s with
      tokens := s.tokens ++ [{
        tokenHash := crypto.hashToken raw, clientId := row.clientId, userId := row.userId,
        scope := row.scope, resource := row.resource, expiresAt := now + refreshTokenTtlSecs,
        createdAt := now }]
      issued := ⟨crypto.hashToken raw, .root row.codeHash⟩ :: s.issued
      calls := s.calls.set call
        (if lost then .failed (serverError "Failed to persist refresh token")
          else .granted raw) }
  else none

def revokeDone (s : State) (call : Nat) (row : TokenRow) (targets : List String) (now : Time)
    (lost : Bool) : Option State :=
  if targets.any s.locked then none
  else
    some { s with
      tokens := updateWhere
        (fun token => targets.contains token.tokenHash && token.revokedAt.isNone) (revoke now)
        s.tokens
      calls := s.calls.set call (.reuseAnswered row (!lost)) }

def rotateUpdate (s : State) (call : Nat) (row : TokenRow) (now : Time) : Option State :=
  if s.locked row.tokenHash then none
  else if s.tokens.any (isCurrent row.tokenHash now) then some (s.move call (.rotating row now))
  else some (s.move call (.refused refreshInvalid))

def rotateCommit (crypto : Crypto) (s : State) (call : Nat) (row : TokenRow) (startedAt : Time)
    (raw : String) (now : Time) (lost : Bool) : Option State :=
  if s.canInsert (crypto.hashToken raw) row.clientId row.userId then
    some { s with
      tokens := updateWhere (·.tokenHash == row.tokenHash) (revoke startedAt) s.tokens ++ [{
        tokenHash := crypto.hashToken raw, clientId := row.clientId, userId := row.userId,
        scope := row.scope, resource := row.resource, expiresAt := now + refreshTokenTtlSecs,
        createdAt := now }]
      issued := ⟨crypto.hashToken raw, .parent row.tokenHash⟩ :: s.issued
      calls := s.calls.set call
        (if lost then .failed (serverError "Database error") else .granted raw) }
  else none

def callStep (crypto : Crypto) (s : State) (phase : Phase) (call : Nat) : Event → Option State
  | .getUnused _ now =>
    match phase with
    | .exchange req code redirectUri codeVerifier =>
      some (s.move call (afterGetUnused crypto s now req code redirectUri codeVerifier))
    | _ => none
  | .checkCode _ now =>
    match phase with
    | .codeLoaded req redirectUri codeVerifier row =>
      some (s.move call (afterCheckCode crypto s now req redirectUri codeVerifier row))
    | _ => none
  | .consume _ now lost =>
    match phase with
    | .codeChecked row => consume s call row now lost
    | _ => none
  | .loadUser _ =>
    match phase with
    | .codeSpent row =>
      some (s.move call
        (if s.users.contains row.userId then .codeMinted row
          else .failed (invalidGrant "User no longer exists")))
    | _ => none
  | .create _ raw now lost =>
    match phase with
    | .codeMinted row => create crypto s call row raw now lost
    | _ => none
  | .authenticate _ now =>
    match phase with
    | .refresh req refresh claimedClient =>
      some (s.move call (afterAuthenticate crypto s now req refresh claimedClient))
    | _ => none
  | .get _ now =>
    match phase with
    | .clientKnown refresh claimedClient =>
      some (s.move call (afterGet crypto s now refresh claimedClient))
    | _ => none
  | .revokeStart _ =>
    match phase with
    | .reuseFound row => some (s.move call (.revoking row (chainTargets s row)))
    | _ => none
  | .revokeDone _ now lost =>
    match phase with
    | .revoking row targets => revokeDone s call row targets now lost
    | _ => none
  | .mint _ =>
    match phase with
    | .tokenCurrent row =>
      some (s.move call
        (if s.users.contains row.userId then .tokenMinted row
          else .refused (invalidGrant "User no longer exists")))
    | _ => none
  | .rotateUpdate _ now =>
    match phase with
    | .tokenMinted row => rotateUpdate s call row now
    | _ => none
  | .rotateCommit _ raw now lost =>
    match phase with
    | .rotating row startedAt => rotateCommit crypto s call row startedAt raw now lost
    | _ => none
  | .fail _ failure => (afterFailure phase failure).map (s.move call)
  | _ => none

def Event.call : Event → Option Nat
  | .getUnused call _ | .checkCode call _ | .consume call _ _ | .loadUser call
  | .create call _ _ _ | .authenticate call _ | .get call _ | .revokeStart call
  | .revokeDone call _ _ | .mint call | .rotateUpdate call _ | .rotateCommit call _ _ _
  | .fail call _ => some call
  | _ => none

def outsideStep (s : State) : Event → Option State
  | .addClient client => some { s with clients := s.clients ++ [client] }
  | .addUser user => some { s with users := s.users ++ [user] }
  | .removeClient clientId =>
    ({ s with clients := s.clients.filter (·.clientId != clientId) } : State).delete
      (·.clientId == clientId) (·.clientId == clientId)
  | .removeUser user =>
    ({ s with users := s.users.filter (· != user) } : State).delete
      (·.userId == user) (·.userId == user)
  | .authorize row =>
    if s.authorized.any (·.codeHash == row.codeHash) || row.usedAt.isSome ||
        !s.clients.any (·.clientId == row.clientId) || !s.users.contains row.userId then none
    else some { s with codes := s.codes ++ [row], authorized := row.grant :: s.authorized }
  | .purgeCodes now => s.delete (fun row => decide (row.expiresAt < now)) fun _ => false
  | .purgeTokens now => s.delete (fun _ => false) (purgeable now)
  | .request req => some { s with calls := s.calls ++ [present req] }
  | _ => none

def step (crypto : Crypto) (s : State) (e : Event) : Option State :=
  match e.call with
  | some call => (s.calls[call]?).bind fun phase => callStep crypto s phase call e
  | none => outsideStep s e

end Stroem.OAuth
