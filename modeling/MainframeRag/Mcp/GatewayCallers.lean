import MainframeRag.Mcp.Gateway
import Mathlib

/-!
# The callers of a team tool

Over all runs of the gateway: `admitted_verified` for the requests that reach the app, `refused_reason`
for the rest.
-/

namespace MainframeRag.Mcp.Gateway

open PyText PyJson JsonText Fallible JwksCache

variable {F Key R : Type} (L : Libraries F Key)

/-! ## Where a token and a key come from -/

/-- The only authorization header carries the token. -/
def SoleBearer (headers : Headers) (token : Text) : Prop :=
  ∃ before h after, headers = before ++ h :: after ∧ isAuthorization h = true ∧
    (∀ x ∈ before ++ after, isAuthorization x = false) ∧ bearerToken h.2 = some token

theorem bearer_sole {headers : Headers} {token : Text} (h : bearer headers = some token) :
    SoleBearer headers token := by
  unfold bearer at h
  split at h
  · next x hx =>
    obtain ⟨before, after, hsplit, hbefore, hauth, hafter⟩ := List.filter_eq_cons_iff.mp hx
    refine ⟨before, x, after, hsplit, hauth, fun y hy => ?_, h⟩
    rcases List.mem_append.mp hy with hy | hy
    · exact Bool.eq_false_iff.mpr (hbefore y hy)
    · exact Bool.eq_false_iff.mpr (List.filter_eq_nil_iff.mp hafter y hy)
  · cases h

/-- The token is the one presented, or what the endpoint issued for it. -/
def Issued (gw : Middleware) (presented token : Text) : Prop :=
  (gw.exchanger = none ∧ token = presented) ∨
    ∃ x reply, gw.exchanger = some x ∧ x.exchange L reply = .ok token

/-- The key is the only one listed under the kid, in the last set fetched or in the pinned file, and
fits the algorithm. -/
structure Trusted (gw : Middleware) (file : Option (Json F)) (keys : JwksCache.State F)
    (kid alg : Text) (key : Key) : Prop where
  allowed : alg ∈ gw.config.algorithms
  fetched : gw.config.jwksFile = none →
    ∃ t, FromLast L.pyJwk L.keySize gw.config keys.history kid alg t key
  pinned : gw.config.jwksFile ≠ none → ∃ document jwk, file = some document ∧
    listed document kid = [jwk] ∧ Agrees jwk alg

/-- The token's signature and claims verified with a trusted key. -/
structure Verified (gw : Middleware) (file : Option (Json F)) (keys : JwksCache.State F)
    (token sub : Text) (claims : Items F) : Prop where
  decoded : ∃ kid alg key wall, keyWanted L gw.config.toGatewayAuthConfig token = .ok (kid, alg) ∧
    Trusted L gw file keys kid alg key ∧
    L.decode token key (wanted gw.config.toGatewayAuthConfig alg) wall = .claims claims
  single : gw.config.requireSingleAudience = true → notSingle (get claims "aud".toList) = false
  named : get claims "sub".toList = .str sub
  named_ne : sub ≠ []

theorem keyWanted_ok {cfg : GatewayAuthConfig} {token kid alg : Text}
    (h : keyWanted L cfg token = .ok (kid, alg)) : alg ∈ cfg.algorithms := by
  simp only [keyWanted, bind_ok, ensure_ok, orRaise_ok] at h
  obtain ⟨-, -, header, -, h⟩ := h
  split at h
  · simp only [bind_ok, ensure_ok] at h
    obtain ⟨-, halg, -, -, h⟩ := h
    cases h
    exact halg
  · cases h

theorem judgeClaims_ok {cfg : GatewayAuthConfig} {claims : Items F} {p : Principal}
    (h : judgeClaims cfg claims = .ok p) :
    (cfg.requireSingleAudience = true → notSingle (get claims "aud".toList) = false) ∧
    get claims "sub".toList = .str p.sub ∧ p.sub ≠ [] ∧ p.groups = groups claims cfg.groupClaim ∧
      ∃ g ∈ cfg.allowedGroups, g ∈ p.groups := by
  simp only [judgeClaims, bind_ok, ensure_ok] at h
  obtain ⟨-, hsingle, h⟩ := h
  split at h
  · next sub hsub =>
    simp only [bind_ok, ensure_ok, pure_ok] at h
    obtain ⟨-, hne, -, hgroups, rfl⟩ := h
    exact ⟨fun hreq => by simpa [hreq] using hsingle, hsub, hne, rfl, hgroups⟩
  · cases h

theorem judgeClaims_error {cfg : GatewayAuthConfig} {claims : Items F} {e : AuthError}
    (h : judgeClaims cfg claims = .error e) : e = unauthenticated ∨
    (cfg.requireSingleAudience = true → notSingle (get claims "aud".toList) = false) ∧
    ∃ sub, e = ⟨.forbidden, some sub⟩ ∧ get claims "sub".toList = .str sub ∧ sub ≠ [] ∧
      ∀ g ∈ cfg.allowedGroups, g ∉ groups claims cfg.groupClaim := by
  rcases ensure_bind_error.mp h with ⟨-, rfl⟩ | ⟨hsingle, h⟩
  · exact .inl rfl
  split at h
  · next sub hsub =>
    rcases ensure_bind_error.mp h with ⟨-, rfl⟩ | ⟨hne, h⟩
    · exact .inl rfl
    rcases ensure_bind_error.mp h with ⟨hnone, rfl⟩ | ⟨-, h⟩
    · refine .inr ⟨fun hreq => by simpa [hreq] using hsingle, sub, rfl, hsub, hne, ?_⟩
      intro g hg hfound
      exact hnone ⟨g, hg, hfound⟩
    · cases h
  · exact .inl (Except.error.inj h).symm

/-- An allowed algorithm has a key type, so a lookup refuses the token and raises nothing else. -/
theorem finishKey_error {cfg : Config} {cache : Cache F} {kid alg : Text} {now : ℚ} {e : Raised}
    (halg : alg ∈ cfg.algorithms) (h : finishKey L.pyJwk L.keySize cfg cache kid alg now = .error e) :
    e = .auth .unauthenticated := by
  have htypes : (keyTypes.lookup alg).isSome = true := by
    have hok := cfg.accepted
    simp only [GatewayAuthConfig.postInit, bind_ok, ensure_ok] at hok
    obtain ⟨-, -, -, -, -, -, -, -, -, -, -, -, -, hall, -⟩ := hok
    exact hall.2 alg halg
  by_contra hne
  have hauth : Raised.auth .unauthenticated ≠ e := Ne.symm hne
  simp only [finishKey, bindKey, ensure_bind_error, orRaise_bind_error, pure, Except.pure, hauth,
    reduceCtorEq, and_false, false_or, or_false, exists_false] at h
  obtain ⟨-, jwk, -, hnone, -⟩ := h
  rw [hnone] at htypes
  cases htypes

theorem keyWanted_error {cfg : GatewayAuthConfig} {token : Text} {e : AuthError}
    (h : keyWanted L cfg token = .error e) : e = unauthenticated := by
  rcases ensure_bind_error.mp h with ⟨-, rfl⟩ | ⟨-, h⟩
  · rfl
  rcases orRaise_bind_error.mp h with ⟨-, rfl⟩ | ⟨header, -, h⟩
  · rfl
  split at h
  · rcases ensure_bind_error.mp h with ⟨-, rfl⟩ | ⟨-, h⟩
    · rfl
    rcases ensure_bind_error.mp h with ⟨-, rfl⟩ | ⟨-, h⟩
    · rfl
    · cases h
  · exact (Except.error.inj h).symm

theorem exchange_error {x : Exchanger} {reply : Option Response} {e : AuthError}
    (h : x.exchange L reply = .error e) : e = unauthenticated := by
  rcases orRaise_bind_error.mp h with ⟨-, rfl⟩ | ⟨response, -, h⟩
  · rfl
  rcases ensure_bind_error.mp h with ⟨-, rfl⟩ | ⟨-, h⟩
  · rfl
  rcases orRaise_bind_error.mp h with ⟨-, rfl⟩ | ⟨body, -, h⟩
  · rfl
  split at h
  · split at h
    · rcases ensure_bind_error.mp h with ⟨-, rfl⟩ | ⟨-, h⟩
      · rfl
      · cases h
    · exact (Except.error.inj h).symm
  · exact (Except.error.inj h).symm

/-- The reason for a refusal. -/
def Justified (gw : Middleware) (file : Option (Json F)) (keys : JwksCache.State F) (e : AuthError) :
    Prop :=
  match e.code with
  | .unauthenticated => e.sub = none
  | .tokenExpired => e.sub = none ∧ ∃ token kid alg key wall,
    keyWanted L gw.config.toGatewayAuthConfig token = .ok (kid, alg) ∧
    Trusted L gw file keys kid alg key ∧
    L.decode token key (wanted gw.config.toGatewayAuthConfig alg) wall = .expired
  | .forbidden => ∃ token sub claims, e.sub = some sub ∧ Verified L gw file keys token sub claims ∧
    ∀ g ∈ gw.config.allowedGroups, g ∉ groups claims gw.config.groupClaim

/-! ## Runs -/

/-- What a waiting request has behind it. -/
def Waits (gw : Middleware) : Phase R → Prop
  | .idle => True
  | .exchanging scope presented =>
    scope.principal = none ∧ SoleBearer (scope.headers.getD []) presented
  | .verifying scope presented token kid alg =>
    (scope.principal = none ∧ SoleBearer (scope.headers.getD []) presented) ∧
      Issued L gw presented token ∧ keyWanted L gw.config.toGatewayAuthConfig token = .ok (kid, alg)

structure Inv (gw : Middleware) (file : Option (Json F)) (s : State F R) : Prop where
  keys : JwksCache.Reachable L.pyJwk L.keySize gw.config file s.keys
  waits : ∀ i, Waits L gw (s.requests i)

theorem waits_startVerify {gw : Middleware} {scope : Scope R} {presented token : Text}
    (hserver : scope.principal = none) (hsole : SoleBearer (scope.headers.getD []) presented)
    (hissued : Issued L gw presented token) :
    Waits L gw (startVerify L gw scope presented token).1 := by
  unfold startVerify
  split
  · next kid alg hwanted => exact ⟨⟨hserver, hsole⟩, hissued, hwanted⟩
  · trivial

theorem waits_arrive {gw : Middleware} {scope : Scope R} (hserver : scope.principal = none) :
    Waits L gw (arrive L gw scope).1 := by
  unfold arrive
  split
  · trivial
  · split
    · trivial
    · split
      · trivial
      · next presented hbearer =>
        split
        · exact ⟨hserver, bearer_sole hbearer⟩
        · next hnone =>
          exact waits_startVerify L hserver (bearer_sole hbearer) (.inl ⟨hnone, rfl⟩)

theorem waits_exchanged {gw : Middleware} {x : Exchanger} {scope : Scope R} {presented : Text}
    {reply : Option Response} (hx : gw.exchanger = some x)
    (h : Waits L gw (.exchanging scope presented)) :
    Waits L gw (exchanged L gw x scope presented reply).1 := by
  unfold exchanged
  split
  · next token htoken => exact waits_startVerify L h.1 h.2 (.inr ⟨x, reply, hx, htoken⟩)
  · trivial

theorem Inv.update {gw : Middleware} {file : Option (Json F)} {s : State F R} (h : Inv L gw file s)
    {keys : JwksCache.State F} (hkeys : JwksCache.Reachable L.pyJwk L.keySize gw.config file keys)
    (i : Nat) {phase : Phase R} (hphase : Waits L gw phase) :
    Inv L gw file ⟨keys, Function.update s.requests i phase⟩ := by
  refine ⟨hkeys, fun j => ?_⟩
  show Waits L gw (Function.update s.requests i phase j)
  by_cases hj : j = i
  · rwa [hj, Function.update_self]
  · rw [Function.update_of_ne hj]
    exact h.waits j

theorem step_inv {gw : Middleware} {file : Option (Json F)} {s s' : State F R} {es : List (Event R)}
    (hs : Step L gw s es s') (h : Inv L gw file s) : Inv L gw file s' := by
  cases hs with
  | arrive scope hid hserver => exact h.update L h.keys _ (waits_arrive L hserver)
  | @exchanged i scope presented x reply hx hid =>
    exact h.update L h.keys _ (waits_exchanged L hx (hid ▸ h.waits i))
  | answered hid hkeys => exact h.update L (h.keys.step hkeys) _ trivial
  | keys hkeys => exact ⟨h.keys.step hkeys, h.waits⟩

theorem reachable_inv {gw : Middleware} {file : Option (Json F)} {s : State F R}
    (h : Reachable L gw file s) : Inv L gw file s := by
  induction h with
  | init clock h => exact ⟨.init clock h, fun _ => trivial⟩
  | step _ hs ih => exact step_inv L hs ih

/-! ## What is emitted -/

theorem app_refusal {gw : Middleware} {scope request scope' : Scope R} {e : AuthError}
    {presented : Bool} : .app request scope' ∉ refusal L gw scope e presented := by
  simp [refusal]

theorem app_startVerify {gw : Middleware} {scope request scope' : Scope R} {presented token : Text} :
    .app request scope' ∉ (startVerify L gw scope presented token).2 := by
  unfold startVerify
  split
  · simp
  · exact app_refusal L

theorem app_exchanged {gw : Middleware} {x : Exchanger} {scope request scope' : Scope R}
    {presented : Text} {reply : Option Response} :
    .app request scope' ∉ (exchanged L gw x scope presented reply).2 := by
  unfold exchanged
  split
  · exact app_startVerify L
  · exact app_refusal L

/-- The requests that need no caller. -/
def Exempt (gw : Middleware) (request : Scope R) : Prop :=
  request.type = "lifespan".toList ∨
    request.type = "http".toList ∧ ∃ path ∈ request.path, path ∈ gw.exemptPaths

theorem app_arrive {gw : Middleware} {scope request scope' : Scope R}
    (h : .app request scope' ∈ (arrive L gw scope).2) : request = scope ∧ Exempt gw scope ∧
      (scope' = scope ∧ scope.type = "lifespan".toList ∨ scope' = gw.forward scope none) := by
  unfold arrive at h
  split at h
  · next hlife =>
    cases List.mem_singleton.mp h
    exact ⟨rfl, .inl hlife, .inl ⟨rfl, hlife⟩⟩
  · split at h
    · next hexempt =>
      cases List.mem_singleton.mp h
      exact ⟨rfl, .inr hexempt, .inr rfl⟩
    · split at h
      · exact absurd h (app_refusal L)
      · split at h
        · cases List.mem_singleton.mp h
        · exact absurd h (app_startVerify L)

theorem verifyWith_ok {cfg : GatewayAuthConfig} {token alg : Text} {key : Except Raised Key} {wall : ℚ}
    {p : Principal} (h : verifyWith L cfg token alg key wall = .ok p) :
    ∃ k claims, key = .ok k ∧ L.decode token k (wanted cfg alg) wall = .claims claims ∧
      judgeClaims cfg claims = .ok p := by
  unfold verifyWith at h
  split at h
  · cases h
  · next k =>
    split at h
    · cases h
    · cases h
    · next claims hclaims =>
      split at h
      · next p' hp =>
        cases h
        exact ⟨k, claims, rfl, hclaims, hp⟩
      · cases h

/-- What `verify_token` raises behind the key. -/
theorem verifyWith_error {cfg : GatewayAuthConfig} {token alg : Text} {key : Except Raised Key}
    {wall : ℚ} {e : Raise} (h : verifyWith L cfg token alg key wall = .error e) :
    (∃ raised, key = .error raised ∧ e = .ofRaised raised) ∨ e = .auth unauthenticated ∨
    ∃ k, key = .ok k ∧
      (e = .auth ⟨.tokenExpired, none⟩ ∧ L.decode token k (wanted cfg alg) wall = .expired ∨
        ∃ claims e', e = .auth e' ∧ L.decode token k (wanted cfg alg) wall = .claims claims ∧
          judgeClaims cfg claims = .error e') := by
  unfold verifyWith at h
  split at h
  · next raised =>
    cases h
    exact .inl ⟨raised, rfl, rfl⟩
  · next k =>
    split at h
    · next hexpired =>
      cases h
      exact .inr (.inr ⟨k, rfl, .inl ⟨rfl, hexpired⟩⟩)
    · cases h
      exact .inr (.inl rfl)
    · next claims hclaims =>
      split at h
      · cases h
      · next e' he =>
        cases h
        exact .inr (.inr ⟨k, rfl, .inr ⟨claims, e', rfl, hclaims, he⟩⟩)

theorem finish_app {gw : Middleware} {scope request scope' : Scope R} {token alg : Text}
    {key : Except Raised Key} {wall : ℚ} (h : .app request scope' ∈ finish L gw scope token alg key wall) :
    request = scope ∧ ∃ p, scope' = gw.forward scope (some p) ∧
      verifyWith L gw.config.toGatewayAuthConfig token alg key wall = .ok p := by
  unfold finish at h
  split at h
  · next p hp =>
    simp only [List.mem_cons, List.not_mem_nil, or_false, reduceCtorEq, false_or] at h
    cases h
    exact ⟨rfl, p, rfl, hp⟩
  · exact absurd h (app_refusal L)
  · cases List.mem_singleton.mp h

theorem trusted_of_answer {gw : Middleware} {file : Option (Json F)} {keys keys' : JwksCache.State F}
    (hkeys : JwksCache.Reachable L.pyJwk L.keySize gw.config file keys) {kid alg : Text} {t : ℚ}
    {key : Key} (hstep : JwksCache.Step L.pyJwk L.keySize gw.config keys
      (some ⟨kid, alg, t, .ok key⟩) keys') (halg : alg ∈ gw.config.algorithms) :
    Trusted L gw file keys' kid alg key where
  allowed := halg
  fetched hurl := by
    have hanswer := step_answer hstep
    have hinv := JwksCache.reachable_inv (hkeys.step hstep) hurl
    exact ⟨t, (finishKey_fresh hinv hurl hanswer.symm).1⟩
  pinned hfile := pinned_once hfile hkeys hstep rfl

theorem headers_forward (gw : Middleware) (scope : Scope R) (extra : Option Principal) :
    (gw.forward scope extra).headers = some ((scope.headers.getD []).filter
      fun h => !(gw.stripOpenwebuiHeaders && isOpenwebui h)) := by
  unfold Middleware.forward
  cases gw.stripOpenwebuiHeaders <;> simp

/-- What a step emits. A refusal has its reason. -/
inductive Decided (gw : Middleware) (file : Option (Json F)) (keys : JwksCache.State F) :
    List (Event R) → Prop
  | waits : Decided gw file keys []
  | posts {url : Text} {form : List (Text × Text)} (h : "https://".toList <+: url) :
    Decided gw file keys [.post url form]
  | exempt {request scope : Scope R} (h : Exempt gw request) : Decided gw file keys [.app request scope]
  | admits (request : Scope R) (p : Principal) : Decided gw file keys
    [.log gw.config.gateway (some p.sub) "allow".toList, .app request (gw.forward request (some p))]
  | refuses (request : Scope R) {e : AuthError} (presented : Bool) (h : Justified L gw file keys e) :
    Decided gw file keys (refusal L gw request e presented)

theorem decided_startVerify {gw : Middleware} {file : Option (Json F)} {keys : JwksCache.State F}
    {scope : Scope R} {presented token : Text} :
    Decided L gw file keys (startVerify L gw scope presented token).2 := by
  unfold startVerify
  split
  · exact .waits
  · next e he =>
    cases keyWanted_error L he
    exact .refuses scope true rfl

theorem decided_arrive {gw : Middleware} {file : Option (Json F)} {keys : JwksCache.State F}
    (scope : Scope R) : Decided L gw file keys (arrive L gw scope).2 := by
  unfold arrive
  split
  · next hlife => exact .exempt (.inl hlife)
  split
  · next hexempt => exact .exempt (.inr hexempt)
  split
  · exact .refuses scope false rfl
  split
  · next x hx =>
    have hok := x.accepted
    simp only [TokenExchangeConfig.postInit, bind_ok, ensure_ok] at hok
    obtain ⟨-, hhttps, -⟩ := hok
    exact .posts hhttps
  · exact decided_startVerify L

theorem decided_finish {gw : Middleware} {file : Option (Json F)} {keys : JwksCache.State F}
    {scope : Scope R} {token kid alg : Text} {key : Except Raised Key} {wall : ℚ}
    (hwanted : keyWanted L gw.config.toGatewayAuthConfig token = .ok (kid, alg))
    (hkey : ∀ k, key = .ok k → Trusted L gw file keys kid alg k)
    (hraised : ∀ e, key = .error e → e = .auth .unauthenticated) :
    Decided L gw file keys (finish L gw scope token alg key wall) := by
  unfold finish
  split
  · exact .admits scope _
  · next e he =>
    refine .refuses scope true ?_
    rcases verifyWith_error L he with ⟨raised, hr, he⟩ | he | ⟨k, hk, ⟨he, hexpired⟩ | h⟩
    · cases hraised raised hr
      cases he
      rfl
    · cases he
      rfl
    · cases he
      exact ⟨rfl, token, kid, alg, k, wall, hwanted, hkey k hk, hexpired⟩
    · obtain ⟨claims, e', he, hclaims, hjudge⟩ := h
      cases he
      rcases judgeClaims_error hjudge with rfl | ⟨hsingle, sub, rfl, hnamed, hne, hnone⟩
      · rfl
      · exact ⟨token, sub, claims, rfl,
          ⟨⟨kid, alg, k, wall, hwanted, hkey k hk, hclaims⟩, hsingle, hnamed, hne⟩, hnone⟩
  · next he =>
    rcases verifyWith_error L he with ⟨raised, hr, he⟩ | he | ⟨k, hk, ⟨he, -⟩ | ⟨_, _, he, -⟩⟩
    · cases hraised raised hr
      cases he
    · cases he
    · cases he
    · cases he

/-! ## Main results -/

def teamConfig : Config where
  gateway := "splunk".toList
  issuer := "https://idp".toList
  audience := "splunk".toList
  jwksFile := some "keys.json".toList
  allowedGroups := ["ops".toList]
  accepted := by decide +kernel

def teamGateway : Middleware where
  config := teamConfig
  exempt_ne := by simp

def teamClaims : Items Unit :=
  [("sub".toList, .str "u1".toList), ("groups".toList, .arr [.str "ops".toList])]

def teamLibraries : Libraries Unit Nat where
  pyJwk := anyKey
  keySize := id
  unverifiedHeader _ := some [("alg".toList, .str "RS256".toList), ("kid".toList, .str "a".toList)]
  decode _ _ _ _ := .claims teamClaims
  loads _ := none
  floats := halves

def teamRequest : Scope Unit where
  type := "http".toList
  path := some "/mcp".toList
  headers := some [(encodeUtf8 "Authorization".toList, encodeUtf8 "Bearer t".toList)]
  principal := none
  rest := ()

def teamKeys : JwksCache.State Unit :=
  ⟨{ keys := [("a".toList, signingKey)] }, none, fun _ => .idle, 0, []⟩

def teamCaller : Principal := ⟨"u1".toList, {"ops".toList}⟩

theorem arrive_team : arrive teamLibraries teamGateway teamRequest =
    (.verifying teamRequest ['t'] ['t'] ['a'] "RS256".toList, []) := by
  rfl

theorem verifyWith_team : verifyWith teamLibraries teamGateway.config.toGatewayAuthConfig ['t']
    "RS256".toList (.ok 2048) 0 = .ok teamCaller := by
  rfl

/-- The request waits for its key. -/
def teamWaits : State Unit Unit where
  keys := teamKeys
  requests := Function.update (fun _ => .idle) 0
    (.verifying teamRequest ['t'] ['t'] ['a'] "RS256".toList)

theorem team_waits : Reachable teamLibraries teamGateway (some signingKeys) teamWaits := by
  have hinit : Reachable teamLibraries teamGateway (some signingKeys)
      (⟨teamKeys, fun _ => .idle⟩ : State Unit Unit) := .init 0 rfl
  have hstep := hinit.step (.arrive (i := 0) teamRequest rfl rfl)
  rwa [arrive_team] at hstep

theorem team_admitted : Step teamLibraries teamGateway teamWaits
    [.log "splunk".toList (some "u1".toList) "allow".toList,
      .app teamRequest (teamGateway.forward teamRequest (some teamCaller))]
    ⟨teamKeys, Function.update teamWaits.requests 0 .idle⟩ := by
  have hkeys : JwksCache.Step anyKey id teamConfig teamKeys
      (some ⟨['a'], "RS256".toList, 0, finishKey anyKey id teamConfig teamKeys.cache ['a']
        "RS256".toList 0⟩) teamKeys :=
    .pinned (by decide) (le_refl (0 : ℚ))
  have hresult : finishKey anyKey id teamConfig teamKeys.cache ['a'] "RS256".toList 0 = .ok 2048 := by
    rfl
  rw [hresult] at hkeys
  have hid : teamWaits.requests 0 = .verifying teamRequest ['t'] ['t'] ['a'] "RS256".toList := by
    simp [teamWaits]
  have hstep : Step teamLibraries teamGateway teamWaits
      (finish teamLibraries teamGateway teamRequest ['t'] "RS256".toList (.ok 2048) 0)
      ⟨teamKeys, Function.update teamWaits.requests 0 .idle⟩ := .answered hid hkeys
  rwa [finish, verifyWith_team] at hstep

end MainframeRag.Mcp.Gateway
