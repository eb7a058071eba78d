import MainframeRag.Lib.JsonDict
import MainframeRag.Mcp.JwksCache
import Mathlib

/-!
# The gateway of a team tool

`GatewayAuthMiddleware` of `mcp/tool_auth.py` with `verify_token` and `TokenExchanger.exchange`, over the
runs of the key cache. A request waits for the exchange and for a key; other requests and other callers
of the cache go on meanwhile.
-/

namespace MainframeRag.Mcp.Gateway

open PyText PyJson JsonText Fallible JwksCache

variable {F Key R : Type}

/-! ## Errors and callers -/

/-- `_ERRORS` -/
def errors : AuthErrorCode → Nat × Text
  | .unauthenticated => (401, "authentication is required".toList)
  | .tokenExpired => (401, "the token has expired".toList)
  | .forbidden => (403, "the caller is not authorized for this tool".toList)

def codeText : AuthErrorCode → Text
  | .unauthenticated => "unauthenticated".toList
  | .forbidden => "forbidden".toList
  | .tokenExpired => "token_expired".toList

/-- `sub` is set only once the token's signature and claims verified. -/
structure AuthError where
  code : AuthErrorCode
  sub : Option Text := none
  deriving DecidableEq

def unauthenticated : AuthError := ⟨.unauthenticated, none⟩

structure Principal where
  sub : Text
  groups : Finset Text
  deriving DecidableEq

/-- What a call raises. -/
inductive Raise
  | auth (e : AuthError)
  | keyError

def Raise.ofRaised : Raised → Raise
  | .auth code => .auth ⟨code, none⟩
  | .keyError => .keyError

/-! ## Tokens -/

/-- The arguments of `jwt.decode` besides the token and the key. -/
structure Wanted where
  algorithms : List Text
  audience : List Text
  issuer : Text
  leeway : ℚ
  require : List Text

/-- What `jwt.decode` comes to. -/
inductive Decoded (F : Type)
  | claims (claims : Items F)
  | expired
  | refused

/-- The libraries: `jwt`, whose `decode` reads the clock, and `json.loads` of a body, `none` where it
raises. -/
structure Libraries (F Key : Type) where
  pyJwk : Items F → Text → Option Key
  keySize : Key → Nat
  unverifiedHeader : Text → Option (Items F)
  decode : Text → Key → Wanted → ℚ → Decoded F
  loads : Bytes → Option (Json F)
  floats : Floats F

/-- `audiences` -/
def audiences (cfg : GatewayAuthConfig) : Finset Text :=
  insert cfg.audience (cfg.acceptedAudiences.getD []).toFinset

def wanted (cfg : GatewayAuthConfig) (alg : Text) : Wanted where
  algorithms := [alg]
  audience := sorted (audiences cfg)
  issuer := cfg.issuer
  leeway := cfg.leewayS
  require := ["exp".toList, "iss".toList, "aud".toList, "sub".toList]

def groupText : Json F → Option Text
  | .str g => if g = [] then none else some g
  | _ => none

/-- `_groups` -/
def groups (claims : Items F) (claim : Text) : Finset Text :=
  match get claims claim with
  | .str raw => if raw = [] then ∅ else {raw}
  | .arr raw => (raw.filterMap groupText).toFinset
  | _ => ∅

def maxTokenChars : Nat := 32 * 1024

variable (L : Libraries F Key)

/-- `verify_token` up to its wait for the key: the kid and the algorithm. -/
def keyWanted (cfg : GatewayAuthConfig) (token : Text) : Except AuthError (Text × Text) := do
  ensure (token ≠ [] ∧ token.length ≤ maxTokenChars) unauthenticated
  let header ← orRaise (L.unverifiedHeader token) unauthenticated
  match get header "alg".toList, get header "kid".toList with
  | .str alg, .str kid =>
    ensure (alg ∈ cfg.algorithms) unauthenticated
    ensure (kid ≠ []) unauthenticated
    return (kid, alg)
  | _, _ => .error unauthenticated

/-- A list of audiences that is not of one. -/
def notSingle : Json F → Bool
  | .arr aud => aud.length ≠ 1
  | _ => false

/-- `verify_token` behind `jwt.decode`. -/
def judgeClaims (cfg : GatewayAuthConfig) (claims : Items F) : Except AuthError Principal := do
  ensure (¬(cfg.requireSingleAudience = true ∧ notSingle (get claims "aud".toList) = true))
    unauthenticated
  match get claims "sub".toList with
  | .str sub =>
    ensure (sub ≠ []) unauthenticated
    let found := groups claims cfg.groupClaim
    ensure (∃ g ∈ cfg.allowedGroups, g ∈ found) ⟨.forbidden, some sub⟩
    return ⟨sub, found⟩
  | _ => .error unauthenticated

/-- `verify_token` behind the key, with the time `jwt.decode` reads. -/
def verifyWith (cfg : GatewayAuthConfig) (token alg : Text) (key : Except Raised Key) (wall : ℚ) :
    Except Raise Principal :=
  match key with
  | .error e => .error (.ofRaised e)
  | .ok key =>
    match L.decode token key (wanted cfg alg) wall with
    | .expired => .error (.auth ⟨.tokenExpired, none⟩)
    | .refused => .error (.auth unauthenticated)
    | .claims claims =>
      match judgeClaims cfg claims with
      | .ok p => .ok p
      | .error e => .error (.auth e)

/-! ## The exchange -/

structure TokenExchangeConfig where
  tokenEndpoint : Text
  clientId : Text
  clientSecretEnv : Text
  audience : Text
  subjectTokenType : Text := "urn:ietf:params:oauth:token-type:access_token".toList
  requestedTokenType : Text := "urn:ietf:params:oauth:token-type:access_token".toList
  timeoutS : ℚ := 5

/-- `__post_init__` -/
def TokenExchangeConfig.postInit (c : TokenExchangeConfig) : Except String Unit := do
  ensure ("https://".toList <+: c.tokenEndpoint) "token_endpoint must be an https URL"
  requireText "client_id" c.clientId
  requireText "client_secret_env" c.clientSecretEnv
  requireText "audience" c.audience
  requireText "subject_token_type" c.subjectTokenType
  requireText "requested_token_type" c.requestedTokenType
  seconds "timeout_s" c.timeoutS none true

/-- An exchanger that was constructed. -/
structure Exchanger where
  config : TokenExchangeConfig
  accepted : config.postInit = .ok ()
  secret : Text
  secret_ne : secret ≠ []

/-- The form that is posted. -/
def Exchanger.form (x : Exchanger) (subjectToken : Text) : List (Text × Text) :=
  [("grant_type".toList, "urn:ietf:params:oauth:grant-type:token-exchange".toList),
    ("subject_token".toList, subjectToken),
    ("subject_token_type".toList, x.config.subjectTokenType),
    ("requested_token_type".toList, x.config.requestedTokenType),
    ("audience".toList, x.config.audience),
    ("client_id".toList, x.config.clientId),
    ("client_secret".toList, x.secret)]

/-- A response: its status, whether its URL is the one asked, the chunks of its body. -/
structure Response where
  status : Nat
  sameUrl : Bool
  chunks : List Bytes

/-- `_read_capped` with the body so far. -/
def readCapped (cap : Nat) : Bytes → List Bytes → Option Bytes
  | body, [] => some body
  | body, chunk :: chunks =>
    if cap < (body ++ chunk).length then none else readCapped cap (body ++ chunk) chunks

def maxExchangeBytes : Nat := 64 * 1024

/-- `exchange` behind its request; `none` is an HTTP error. -/
def Exchanger.exchange (x : Exchanger) (reply : Option Response) : Except AuthError Text := do
  let response ← orRaise reply unauthenticated
  ensure (response.status = 200 ∧ response.sameUrl = true) unauthenticated
  let body ← orRaise (readCapped maxExchangeBytes [] response.chunks) unauthenticated
  match L.loads body with
  | some (.obj reply) =>
    match get reply "access_token".toList with
    | .str token =>
      ensure (token ≠ [] ∧
        ∀ issued ∈ reply.lookup "issued_token_type".toList, isStr issued x.config.requestedTokenType)
        unauthenticated
      return token
    | _ => .error unauthenticated
  | _ => .error unauthenticated

/-! ## The middleware -/

def lowerByte (b : UInt8) : UInt8 := if 65 ≤ b ∧ b ≤ 90 then b + 32 else b

/-- `bytes.lower` -/
def lowerBytes (b : Bytes) : Bytes := b.map lowerByte

abbrev Headers := List (Bytes × Bytes)

/-- A request as the server hands it over; `principal` is the scope's `tool_auth.principal`, and `rest`
its other entries. -/
structure Scope (R : Type) where
  type : Text
  path : Option Text
  headers : Option Headers
  principal : Option Principal
  rest : R

def isAuthorization (h : Bytes × Bytes) : Bool := lowerBytes h.1 = encodeUtf8 "authorization".toList

def isOpenwebui (h : Bytes × Bytes) : Bool :=
  (encodeUtf8 "x-openwebui-".toList).isPrefixOf (lowerBytes h.1)

/-- `bytes.decode("latin-1")` -/
def latin1 (b : Bytes) : Text := b.map fun x => Char.ofNat x.toNat

/-- The token of an authorization value. -/
def bearerToken (value : Bytes) : Option Text :=
  let text := strip (latin1 value)
  let scheme := text.takeWhile (· ≠ ' ')
  let token := strip ((text.dropWhile (· ≠ ' ')).drop 1)
  if scheme.map Char.toLower ≠ "bearer".toList ∨ token = [] ∨ ' ' ∈ token then none else some token

/-- `_bearer` -/
def bearer (headers : Headers) : Option Text :=
  match headers.filter isAuthorization with
  | [h] => bearerToken h.2
  | _ => none

/-- `principal_from_scope` -/
def principalFromScope (scope : Scope R) : Except AuthError Principal :=
  orRaise scope.principal unauthenticated

structure Middleware where
  config : Config
  exemptPaths : List Text := []
  exchanger : Option Exchanger := none
  stripOpenwebuiHeaders : Bool := true
  exempt_ne : ∀ path ∈ exemptPaths, path ≠ []

/-- `_forward` -/
def Middleware.forward (gw : Middleware) (scope : Scope R) (extra : Option Principal) : Scope R :=
  let headers := scope.headers.getD []
  { scope with
    headers := some (if gw.stripOpenwebuiHeaders then headers.filter fun h => !isOpenwebui h else headers)
    principal := extra.or scope.principal }

inductive Message
  | websocketClose (code : Nat)
  | responseStart (status : Nat) (headers : Headers)
  | responseBody (body : Bytes)

inductive Event (R : Type)
  /-- the app is called with the second scope, for the first -/
  | app (request scope : Scope R)
  | send (message : Message)
  | log (gateway : Text) (sub : Option Text) (decision : Text)
  | post (url : Text) (form : List (Text × Text))
  | raised

def asciiBytes (t : Text) : Bytes := encodeUtf8 t

/-- `_refuse` -/
def refuse (type : Text) (e : AuthError) (presented : Bool) : List Message :=
  if type ≠ "http".toList then [.websocketClose 1008]
  else
    let (status, message) := errors e.code
    let body := encodeUtf8 (render L.floats plainStyle
      (.obj [("code".toList, .str (codeText e.code)), ("message".toList, .str message)]))
    let challenge :=
      if status = 401 then (if presented then "Bearer error=\"invalid_token\"" else "Bearer")
      else "Bearer error=\"insufficient_scope\""
    [.responseStart status
      [(asciiBytes "content-type".toList, asciiBytes "application/json".toList),
        (asciiBytes "content-length".toList, asciiBytes (decimal body.length)),
        (asciiBytes "www-authenticate".toList, asciiBytes challenge.toList)],
      .responseBody body]

/-- The handler of `AuthError`. -/
def refusal (gw : Middleware) (scope : Scope R) (e : AuthError) (presented : Bool) : List (Event R) :=
  .log gw.config.gateway e.sub (codeText e.code) ::
    (refuse L scope.type e presented).map .send

inductive Phase (R : Type)
  | idle
  | exchanging (scope : Scope R) (presented : Text)
  | verifying (scope : Scope R) (presented token kid alg : Text)

def startVerify (gw : Middleware) (scope : Scope R) (presented token : Text) :
    Phase R × List (Event R) :=
  match keyWanted L gw.config.toGatewayAuthConfig token with
  | .ok (kid, alg) => (.verifying scope presented token kid alg, [])
  | .error e => (.idle, refusal L gw scope e true)

/-- `__call__` up to its first wait. -/
def arrive (gw : Middleware) (scope : Scope R) : Phase R × List (Event R) :=
  if scope.type = "lifespan".toList then (.idle, [.app scope scope])
  else if scope.type = "http".toList ∧ ∃ path ∈ scope.path, path ∈ gw.exemptPaths then
    (.idle, [.app scope (gw.forward scope none)])
  else
    match bearer (scope.headers.getD []) with
    | none => (.idle, refusal L gw scope unauthenticated false)
    | some presented =>
      match gw.exchanger with
      | some x => (.exchanging scope presented, [.post x.config.tokenEndpoint (x.form presented)])
      | none => startVerify L gw scope presented presented

/-- `__call__` behind the exchange. -/
def exchanged (gw : Middleware) (x : Exchanger) (scope : Scope R) (presented : Text)
    (reply : Option Response) : Phase R × List (Event R) :=
  match x.exchange L reply with
  | .ok token => startVerify L gw scope presented token
  | .error e => (.idle, refusal L gw scope e true)

/-- `__call__` behind the key. -/
def finish (gw : Middleware) (scope : Scope R) (token alg : Text) (key : Except Raised Key) (wall : ℚ) :
    List (Event R) :=
  match verifyWith L gw.config.toGatewayAuthConfig token alg key wall with
  | .ok p =>
    [.log gw.config.gateway (some p.sub) "allow".toList, .app scope (gw.forward scope (some p))]
  | .error (.auth e) => refusal L gw scope e true
  | .error .keyError => [.raised]

structure State (F R : Type) where
  keys : JwksCache.State F
  requests : Nat → Phase R

/-- What happens up to the next wait of one request. The cache may be asked by others. -/
inductive Step (gw : Middleware) : State F R → List (Event R) → State F R → Prop
  | arrive {s : State F R} {i : Nat} (scope : Scope R) (hid : s.requests i = .idle)
    (hserver : scope.principal = none) :
    Step gw s (arrive L gw scope).2
      { s with requests := Function.update s.requests i (arrive L gw scope).1 }
  | exchanged {s : State F R} {i : Nat} {scope : Scope R} {presented : Text} {x : Exchanger}
    (reply : Option Response) (hx : gw.exchanger = some x)
    (hid : s.requests i = .exchanging scope presented) :
    Step gw s (exchanged L gw x scope presented reply).2
      { s with requests := Function.update s.requests i (exchanged L gw x scope presented reply).1 }
  | answered {s : State F R} {i : Nat} {scope : Scope R} {presented token kid alg : Text} {t wall : ℚ}
    {result : Except Raised Key} {keys : JwksCache.State F}
    (hid : s.requests i = .verifying scope presented token kid alg)
    (hkeys : JwksCache.Step L.pyJwk L.keySize gw.config s.keys (some ⟨kid, alg, t, result⟩) keys) :
    Step gw s (finish L gw scope token alg result wall)
      ⟨keys, Function.update s.requests i .idle⟩
  | keys {s : State F R} {a : Option (Answer Key)} {keys : JwksCache.State F}
    (hkeys : JwksCache.Step L.pyJwk L.keySize gw.config s.keys a keys) :
    Step gw s [] { s with keys := keys }

inductive Reachable (gw : Middleware) (file : Option (Json F)) : State F R → Prop
  | init {keys : JwksCache.State F} (clock : ℚ) (h : initial gw.config file clock = some keys) :
    Reachable gw file ⟨keys, fun _ => .idle⟩
  | step {s s' : State F R} {es : List (Event R)} (h : Reachable gw file s) (hs : Step L gw s es s') :
    Reachable gw file s'

end MainframeRag.Mcp.Gateway
