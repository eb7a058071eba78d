import MainframeRag.Lib.PyJson
import MainframeRag.Lib.Fallible
import Mathlib.Data.Rat.Defs
import Mathlib.Algebra.Order.Ring.Rat
import Mathlib.Tactic.Linarith
import Mathlib.Logic.Function.Basic

/-!
# Verification keys

`JwksCache` of `mcp/tool_auth.py`: the key set of one gateway under concurrent `get_key` calls. A
step is what one call does between two suspensions; a step reads the clock once or twice, and the
state keeps the history of the fetches.

Main results: `reachable_inv` and `fresh_iff`. A set kept after a failed fetch is used to the end of
`jwks_ttl_s` where that is the later limit.
-/

namespace MainframeRag.Mcp.JwksCache

open PyText PyJson Fallible

variable {F Key : Type}

/-! ## Configuration -/

/-- `_KEY_TYPES` -/
def keyTypes : List (Text × (Text × Option Text)) :=
  [("RS256".toList, ("RSA".toList, none)), ("ES256".toList, ("EC".toList, some "P-256".toList))]

structure GatewayAuthConfig where
  gateway : Text
  issuer : Text
  audience : Text
  jwksUrl : Option Text := none
  jwksFile : Option Text := none
  groupClaim : Text := "groups".toList
  allowedGroups : List Text := []
  acceptedAudiences : Option (List Text) := none
  requireSingleAudience : Bool := false
  algorithms : List Text := ["RS256".toList]
  leewayS : ℚ := 30
  jwksTtlS : ℚ := 300
  jwksMinRefetchS : ℚ := 30
  jwksMaxStaleS : ℚ := 3600
  jwksTimeoutS : ℚ := 5

/-- `_str_set` -/
def strSet (name : String) (value : List Text) : Except String Unit :=
  ensure (∀ item ∈ value, item ≠ []) (name ++ " must hold non-empty strings")

/-- `_seconds` with a lower bound of 0, which `lowOpen` leaves out. -/
def seconds (name : String) (value : ℚ) (high : Option ℚ) (lowOpen : Bool) : Except String Unit :=
  ensure (0 ≤ value ∧ ¬(lowOpen = true ∧ value = 0) ∧ ∀ h ∈ high, value ≤ h)
    (name ++ " is out of range")

def requireText (name : String) (value : Text) : Except String Unit :=
  ensure (strip value ≠ []) (name ++ " must be a non-empty string")

/-- `__post_init__` -/
def GatewayAuthConfig.postInit (c : GatewayAuthConfig) : Except String Unit := do
  requireText "gateway" c.gateway
  requireText "issuer" c.issuer
  requireText "audience" c.audience
  requireText "group_claim" c.groupClaim
  ensure (c.jwksUrl.isNone ≠ c.jwksFile.isNone) "configure exactly one of jwks_url or jwks_file"
  ensure (∀ url ∈ c.jwksUrl, "https://".toList <+: url) "jwks_url must be an https URL"
  ensure (c.algorithms ≠ [] ∧ ∀ alg ∈ c.algorithms, (keyTypes.lookup alg).isSome)
    "algorithms must be a non-empty subset of ['ES256', 'RS256']"
  strSet "allowed_groups" c.allowedGroups
  strSet "accepted_audiences" (c.acceptedAudiences.getD [])
  ensure (c.acceptedAudiences ≠ some []) "accepted_audiences must be non-empty when set"
  seconds "leeway_s" c.leewayS (some 300) false
  seconds "jwks_max_stale_s" c.jwksMaxStaleS none false
  seconds "jwks_ttl_s" c.jwksTtlS none true
  seconds "jwks_min_refetch_s" c.jwksMinRefetchS none true
  seconds "jwks_timeout_s" c.jwksTimeoutS none true

/-- A configuration that was constructed. -/
structure Config extends GatewayAuthConfig where
  accepted : toGatewayAuthConfig.postInit = .ok ()

theorem Config.bounds (cfg : Config) :
    0 ≤ cfg.jwksMaxStaleS ∧ 0 < cfg.jwksTtlS ∧ 0 < cfg.jwksMinRefetchS := by
  have h := cfg.accepted
  simp only [GatewayAuthConfig.postInit, bind_ok, seconds, ensure_ok] at h
  obtain ⟨-, -, -, -, -, -, -, -, -, -, -, -, -, -, -, -, -, -, -, -, -, -, -, hstale, -, httl, -,
    hfloor, -⟩ := h
  refine ⟨hstale.1, lt_of_le_of_ne httl.1 ?_, lt_of_le_of_ne hfloor.1 ?_⟩
  · intro h
    exact httl.2.1 ⟨trivial, h.symm⟩
  · intro h
    exact hfloor.2.1 ⟨trivial, h.symm⟩

/-! ## Key sets -/

inductive AuthErrorCode
  | unauthenticated
  | forbidden
  | tokenExpired
  deriving DecidableEq

inductive Raised
  | auth (code : AuthErrorCode)
  | keyError
  deriving DecidableEq

/-- A dict of JWKs by kid. -/
abbrev Keys (F : Type) := List (Text × Items F)

/-- `keys[kid] = jwk` -/
def setKey (keys : Keys F) (kid : Text) (jwk : Items F) : Keys F :=
  (kid, jwk) :: keys.filter fun k => k.1 ≠ kid

/-- The key and its non-empty text kid. -/
def named : Json F → Option (Text × Items F)
  | .obj jwk =>
    match get jwk "kid".toList with
    | .str kid => if kid = [] then none else some (kid, jwk)
    | _ => none
  | _ => none

/-- One turn of the loop of `_parse_jwks`: the keys, and the kids listed twice. -/
def readKey (acc : Keys F × List Text) (entry : Json F) : Keys F × List Text :=
  match named entry with
  | none => acc
  | some (kid, jwk) =>
    (setKey acc.1 kid jwk, if (acc.1.lookup kid).isSome then kid :: acc.2 else acc.2)

/-- `_parse_jwks`; `none` where it raises. -/
def parseJwks : Json F → Option (Keys F)
  | .obj document =>
    match get document "keys".toList with
    | .arr entries =>
      let (keys, duplicated) := entries.foldl readKey ([], [])
      some (keys.filter fun k => k.1 ∉ duplicated)
    | _ => none
  | _ => none

/-- The keys under a kid, in order. -/
def under (entries : List (Json F)) (kid : Text) : List (Items F) :=
  (entries.filterMap named).filterMap fun k => if k.1 = kid then some k.2 else none

/-- The keys of a document under a kid. -/
def listed (document : Json F) (kid : Text) : List (Items F) :=
  match document with
  | .obj d =>
    match get d "keys".toList with
    | .arr entries => under entries kid
    | _ => []
  | _ => []

def isStr (v : Json F) (t : Text) : Bool :=
  match v with
  | .str s => s = t
  | _ => false

/-- The `key_ops` are absent or list `verify`. -/
def verifies : Json F → Bool
  | .null => true
  | .arr ops => ops.any fun op => isStr op "verify".toList
  | _ => false

/-- `_bind_key`; `pyJwk` is `jwt.PyJWK(…).key`, `none` where it raises one of the caught errors. -/
def bindKey (pyJwk : Items F → Text → Option Key) (keySize : Key → Nat) (jwk : Items F) (alg : Text) :
    Except Raised Key := do
  let (kty, crv) ← orRaise (keyTypes.lookup alg) .keyError
  ensure (isStr (get jwk "kty".toList) kty ∧ ∀ c ∈ crv, isStr (get jwk "crv".toList) c)
    (.auth .unauthenticated)
  ensure (∀ v ∈ jwk.lookup "alg".toList, isStr v alg) (.auth .unauthenticated)
  ensure (∀ v ∈ jwk.lookup "use".toList, isStr v "sig".toList) (.auth .unauthenticated)
  ensure (verifies (get jwk "key_ops".toList)) (.auth .unauthenticated)
  let key ← orRaise (pyJwk jwk alg) (.auth .unauthenticated)
  ensure (kty = "RSA".toList → 2048 ≤ keySize key) (.auth .unauthenticated)
  return key

/-! ## The cache -/

structure Cache (F : Type) where
  keys : Keys F := []
  fetchedAt : Option ℚ := none
  goodAt : Option ℚ := none

/-- `_usable` -/
def usable (cfg : Config) (cache : Cache F) (now : ℚ) : Bool :=
  match cache.goodAt with
  | none => false
  | some good => now - good ≤ max cfg.jwksTtlS cfg.jwksMaxStaleS

/-- `_due` -/
def due (cfg : Config) (cache : Cache F) (kid : Text) (now : ℚ) : Bool :=
  match cache.fetchedAt with
  | none => true
  | some fetched =>
    cfg.jwksTtlS ≤ now - fetched ||
      ((cache.keys.lookup kid).isNone && cfg.jwksMinRefetchS ≤ now - fetched)

/-- What `_refresh` does with a fetch that is over. -/
def settle (cfg : Config) (cache : Cache F) (fetched : Option (Keys F)) (now : ℚ) : Cache F :=
  match fetched with
  | some keys => ⟨keys, some now, some now⟩
  | none =>
    match cache.goodAt with
    | some good =>
      if now - good ≤ cfg.jwksMaxStaleS then { cache with fetchedAt := some now }
      else { cache with keys := [], fetchedAt := some now }
    | none => { cache with keys := [], fetchedAt := some now }

variable (pyJwk : Items F → Text → Option Key) (keySize : Key → Nat)

/-- `get_key` behind its refresh. -/
def finishKey (cfg : Config) (cache : Cache F) (kid alg : Text) (now : ℚ) : Except Raised Key := do
  ensure (cfg.jwksFile = none → usable cfg cache now = true) (.auth .unauthenticated)
  let jwk ← orRaise (cache.keys.lookup kid) (.auth .unauthenticated)
  bindKey pyJwk keySize jwk alg

/-! ## Calls -/

inductive Phase
  | idle
  /-- at the lock -/
  | waiting (kid alg : Text)
  /-- holds the lock, the fetch in flight -/
  | fetching (kid alg : Text)

/-- A fetch and, once it is over, when it was and the document it brought. -/
structure Fetch (F : Type) where
  started : ℚ
  outcome : Option (ℚ × Option (Json F)) := none

structure State (F : Type) where
  cache : Cache F
  lock : Option Nat := none
  calls : Nat → Phase := fun _ => .idle
  clock : ℚ
  /-- the latest first -/
  history : List (Fetch F) := []

/-- A call that returned or raised. -/
structure Answer (Key : Type) where
  kid : Text
  alg : Text
  time : ℚ
  result : Except Raised Key

/-- `__init__`; a file whose document is refused raises. -/
def initial (cfg : Config) (file : Option (Json F)) (clock : ℚ) : Option (State F) :=
  if cfg.jwksFile = none then some ⟨{}, none, fun _ => .idle, clock, []⟩
  else (file.bind parseJwks).map fun keys => ⟨{ keys := keys }, none, fun _ => .idle, clock, []⟩

def endFetch (history : List (Fetch F)) (now : ℚ) (response : Option (Json F)) : List (Fetch F) :=
  match history with
  | [] => []
  | f :: rest => { f with outcome := some (now, response) } :: rest

/-- What one call does up to its next suspension. A call that finds the lock taken waits; a call that
finds it free may go on at once. -/
inductive Step (cfg : Config) : State F → Option (Answer Key) → State F → Prop
  | pinned {s : State F} {kid alg : Text} {t : ℚ} (hfile : cfg.jwksFile ≠ none) (ht : s.clock ≤ t) :
    Step cfg s (some ⟨kid, alg, t, finishKey pyJwk keySize cfg s.cache kid alg t⟩)
      { s with clock := t }
  | served {s : State F} {i : Nat} {kid : Text} (alg : Text) {t u : ℚ} (hurl : cfg.jwksFile = none)
    (hid : s.calls i = .idle) (ht : s.clock ≤ t) (hu : t ≤ u)
    (hdue : due cfg s.cache kid t = false) :
    Step cfg s (some ⟨kid, alg, u, finishKey pyJwk keySize cfg s.cache kid alg u⟩)
      { s with clock := u }
  | wait {s : State F} {i : Nat} {kid : Text} (alg : Text) {t : ℚ} (hurl : cfg.jwksFile = none)
    (hid : s.calls i = .idle) (ht : s.clock ≤ t) (hdue : due cfg s.cache kid t = true) :
    Step cfg s none { s with calls := Function.update s.calls i (.waiting kid alg), clock := t }
  | recheck {s : State F} {i : Nat} {kid alg : Text} {t u : ℚ}
    (hid : s.calls i = .waiting kid alg) (hlock : s.lock = none) (ht : s.clock ≤ t) (hu : t ≤ u)
    (hdue : due cfg s.cache kid t = false) :
    Step cfg s (some ⟨kid, alg, u, finishKey pyJwk keySize cfg s.cache kid alg u⟩)
      { s with calls := Function.update s.calls i .idle, clock := u }
  | fetch {s : State F} {i : Nat} {kid alg : Text} {t u : ℚ} (hid : s.calls i = .waiting kid alg)
    (hlock : s.lock = none) (ht : s.clock ≤ t) (hu : t ≤ u) (hdue : due cfg s.cache kid t = true) :
    Step cfg s none
      { s with
        calls := Function.update s.calls i (.fetching kid alg)
        lock := some i
        clock := u
        history := ⟨u, none⟩ :: s.history }
  | complete {s : State F} {i : Nat} {kid alg : Text} {t u : ℚ} (response : Option (Json F))
    (hid : s.calls i = .fetching kid alg) (ht : s.clock ≤ t) (hu : t ≤ u) :
    Step cfg s
      (some ⟨kid, alg, u,
        finishKey pyJwk keySize cfg (settle cfg s.cache (response.bind parseJwks) t) kid alg u⟩)
      { s with
        cache := settle cfg s.cache (response.bind parseJwks) t
        calls := Function.update s.calls i .idle
        lock := none
        clock := u
        history := endFetch s.history t response }

inductive Reachable (cfg : Config) (file : Option (Json F)) : State F → Prop
  | init {s : State F} (clock : ℚ) (h : initial cfg file clock = some s) : Reachable cfg file s
  | step {s s' : State F} {a : Option (Answer Key)} (h : Reachable cfg file s)
    (hs : Step pyJwk keySize cfg s a s') : Reachable cfg file s'

/-! ## What the history says -/

/-- A fetch that brought a key set. -/
structure Good (F : Type) where
  time : ℚ
  document : Json F
  keys : Keys F
  parsed : parseJwks document = some keys

def goodOf (now : ℚ) (response : Option (Json F)) : Option (Good F) :=
  match response with
  | none => none
  | some document =>
    match h : parseJwks document with
    | none => none
    | some keys => some ⟨now, document, keys, h⟩

def Fetch.good (f : Fetch F) : Option (Good F) := f.outcome.bind fun o => goodOf o.1 o.2

/-- The most recent successful fetch. -/
def lastGood (history : List (Fetch F)) : Option (Good F) := history.findSome? Fetch.good

/-- A fetch failed since. -/
def failedSince : List (Fetch F) → Bool
  | [] => false
  | f :: rest => f.good.isNone && (f.outcome.isSome || failedSince rest)

/-- When the last fetch was over. -/
def lastDone (history : List (Fetch F)) : Option ℚ := history.findSome? fun f => f.outcome.map Prod.fst

def gap (cfg : Config) : ℚ := min cfg.jwksTtlS cfg.jwksMinRefetchS

/-- `f` starts when `g` is over for the least time between two fetches. -/
def StartsAfter (cfg : Config) (f g : Fetch F) : Prop :=
  ∃ o, g.outcome = some o ∧ o.1 + gap cfg ≤ f.started

/-- One fetch at a time, and a least time between two. -/
def FetchesApart (cfg : Config) (history : List (Fetch F)) : Prop :=
  history.IsChain (StartsAfter cfg)

/-- The key's type, curve and declared uses are those of the algorithm. -/
structure Agrees (jwk : Items F) (alg : Text) : Prop where
  type : ∃ kty crv, keyTypes.lookup alg = some (kty, crv) ∧ get jwk "kty".toList = .str kty ∧
    ∀ c ∈ crv, get jwk "crv".toList = .str c
  alg : ∀ v ∈ jwk.lookup "alg".toList, v = .str alg
  use : ∀ v ∈ jwk.lookup "use".toList, v = .str "sig".toList
  ops : get jwk "key_ops".toList = .null ∨
    ∃ ops, get jwk "key_ops".toList = .arr ops ∧ .str "verify".toList ∈ ops

/-- The answer's key is of the last set fetched, once in it under the kid, and fits the algorithm. -/
structure FromLast (cfg : Config) (history : List (Fetch F)) (kid alg : Text) (now : ℚ) (key : Key) :
    Prop where
  good : ∃ g jwk, lastGood history = some g ∧ g.keys.lookup kid = some jwk ∧
    listed g.document kid = [jwk] ∧ Agrees jwk alg ∧ bindKey pyJwk keySize jwk alg = .ok key ∧
    now - g.time ≤ max cfg.jwksTtlS cfg.jwksMaxStaleS

/-- After a failed fetch the set is no older than the limit for stale keys. -/
def StaleBounded (cfg : Config) (history : List (Fetch F)) (now : ℚ) : Prop :=
  failedSince history = true → ∀ g ∈ lastGood history, now - g.time ≤ cfg.jwksMaxStaleS

theorem isStr_iff {v : Json F} {t : Text} : isStr v t = true ↔ v = .str t := by
  cases v <;> simp [isStr]

theorem bindKey_agrees {jwk : Items F} {alg : Text} {key : Key}
    (h : bindKey pyJwk keySize jwk alg = .ok key) : Agrees jwk alg := by
  simp only [bindKey, bind_ok, orRaise_ok, ensure_ok, isStr_iff] at h
  obtain ⟨⟨kty, crv⟩, htypes, -, htype, -, halg, -, huse, -, hops, -⟩ := h
  refine ⟨⟨kty, crv, htypes, htype⟩, halg, huse, ?_⟩
  unfold verifies at hops
  split at hops
  · next hnull => exact .inl hnull
  · next ops harr =>
    obtain ⟨op, hop, hverify⟩ := List.any_eq_true.mp hops
    exact .inr ⟨ops, harr, isStr_iff.mp hverify ▸ hop⟩
  · cases hops

/-! ## A kid listed twice -/

theorem lookup_filter_fst {α : Type} (p : Text → Bool) (keys : List (Text × α)) (kid : Text) :
    (keys.filter fun k => p k.1).lookup kid = if p kid then keys.lookup kid else none := by
  induction keys with
  | nil => simp
  | cons k keys ih =>
    obtain ⟨name, jwk⟩ := k
    rw [List.filter_cons]
    by_cases hk : kid = name
    · subst hk
      cases hp : p kid <;> simp [ih, hp]
    · have hbeq : (kid == name) = false := beq_eq_false_iff_ne.mpr hk
      cases p name <;> simp [ih, hbeq, List.lookup_cons]

theorem lookup_setKey (keys : Keys F) (kid kid' : Text) (jwk : Items F) :
    (setKey keys kid jwk).lookup kid' = if kid' = kid then some jwk else keys.lookup kid' := by
  rw [setKey, List.lookup_cons, lookup_filter_fst (fun k => k ≠ kid)]
  by_cases h : kid' = kid
  · simp [h]
  · simp [h, beq_eq_false_iff_ne.mpr h]

/-- The loop keeps the last key of each kid and collects the kids seen before. -/
theorem foldl_readKey (entries : List (Json F)) (kid : Text) :
    (entries.foldl readKey ([], [])).1.lookup kid = (under entries kid).getLast? ∧
    (kid ∈ (entries.foldl readKey ([], [])).2 ↔ 2 ≤ (under entries kid).length) := by
  induction entries using List.reverseRecOn with
  | nil => simp [under]
  | append_singleton entries entry ih =>
    obtain ⟨hlast, htwice⟩ := ih
    have hunder : under (entries ++ [entry]) kid = under entries kid ++ under [entry] kid := by
      simp [under]
    rw [List.foldl_append, List.foldl_cons, List.foldl_nil, hunder, readKey]
    cases hn : named entry with
    | none => simp [under, hn, hlast, htwice]
    | some k =>
      obtain ⟨name, jwk⟩ := k
      simp only [lookup_setKey]
      by_cases hk : kid = name
      · subst hk
        have hone : under [entry] kid = [jwk] := by simp [under, hn]
        have hseen : (List.lookup kid (entries.foldl readKey ([], [])).1).isSome ↔
            1 ≤ (under entries kid).length := by
          rw [hlast, List.getLast?_isSome, ← List.length_pos_iff]
          exact Iff.rfl
        rw [hone]
        refine ⟨by simp, ?_⟩
        split
        · next h =>
          have := hseen.mp h
          simp
          omega
        · next h =>
          have := mt hseen.mpr h
          rw [htwice]
          simp
          omega
      · have hnone : under [entry] kid = [] := by simp [under, hn, Ne.symm hk]
        rw [hnone, List.append_nil, if_neg hk]
        refine ⟨hlast, ?_⟩
        split
        · simp [hk, htwice]
        · exact htwice

/-- A key is found only under a kid that the document lists once. -/
theorem parseJwks_once {document : Json F} {keys : Keys F} (h : parseJwks document = some keys)
    {kid : Text} {jwk : Items F} (hkid : keys.lookup kid = some jwk) :
    listed document kid = [jwk] := by
  unfold parseJwks at h
  split at h
  · next d =>
    split at h
    · next entries hentries =>
      obtain ⟨hlast, htwice⟩ := foldl_readKey entries kid
      cases h
      rw [lookup_filter_fst (fun k => k ∉ (entries.foldl readKey ([], [])).2)] at hkid
      split at hkid
      · next honce =>
        rw [decide_eq_true_eq, htwice] at honce
        rw [hlast] at hkid
        have hlisted : listed (.obj d) kid = under entries kid := by rw [listed, hentries]
        rw [hlisted]
        rcases hu : under entries kid with _ | ⟨a, _ | ⟨b, rest⟩⟩
        · simp [hu] at hkid
        · simpa [hu] using hkid
        · simp [hu] at honce
      · cases hkid
    · cases h
  · cases h

/-! ## Every run -/

theorem goodOf_time {now : ℚ} {response : Option (Json F)} {g : Good F}
    (h : goodOf now response = some g) : g.time = now ∧ response.bind parseJwks = some g.keys := by
  unfold goodOf at h
  split at h
  · cases h
  · next document =>
    split at h
    · cases h
    · next keys hparse =>
      cases h
      exact ⟨rfl, hparse⟩

theorem goodOf_none {now : ℚ} {response : Option (Json F)} (h : goodOf now response = none) :
    response.bind parseJwks = none := by
  unfold goodOf at h
  split at h
  · rfl
  · next document =>
    split at h
    · next hparse => exact hparse
    · cases h

/-- The fetches are all over. -/
def AllOver (history : List (Fetch F)) : Prop := ∀ f ∈ history, f.outcome.isSome = true

structure Inv (cfg : Config) (s : State F) : Prop where
  /-- who fetches holds the lock -/
  holder : ∀ id kid alg, s.calls id = .fetching kid alg → s.lock = some id
  /-- the fetch in flight is the last -/
  held : s.lock ≠ none → ∃ f rest, s.history = f :: rest ∧ f.outcome = none ∧ AllOver rest ∧
    ∀ done ∈ lastDone rest, done + gap cfg ≤ f.started
  free : s.lock = none → AllOver s.history
  apart : FetchesApart cfg s.history
  fetched : s.cache.fetchedAt = lastDone s.history
  good : s.cache.goodAt = (lastGood s.history).map Good.time
  keys : s.cache.keys = [] ∨ ∃ g, lastGood s.history = some g ∧ s.cache.keys = g.keys
  /-- a failure clears the keys, or comes early enough to keep them -/
  kept : failedSince s.history = true → s.cache.keys = [] ∨ cfg.jwksTtlS ≤ cfg.jwksMaxStaleS ∨
    cfg.jwksMinRefetchS ≤ cfg.jwksMaxStaleS
  /-- success, the last fetch, the fetch in flight, now -/
  order : (∀ good ∈ s.cache.goodAt, ∃ fetched ∈ s.cache.fetchedAt, good ≤ fetched) ∧
    (∀ fetched ∈ s.cache.fetchedAt, fetched ≤ s.clock) ∧ ∀ f ∈ s.history, f.started ≤ s.clock

theorem lastDone_some {history : List (Fetch F)} (h : AllOver history) (hne : history ≠ []) :
    ∃ f rest o, history = f :: rest ∧ f.outcome = some o ∧ lastDone history = some o.1 := by
  cases history with
  | nil => exact absurd rfl hne
  | cons f rest =>
    obtain ⟨o, ho⟩ := Option.isSome_iff_exists.mp (h f List.mem_cons_self)
    exact ⟨f, rest, o, rfl, ho, by simp [lastDone, ho]⟩

/-- A due fetch starts when the last is over for the least time. -/
theorem due_gap {cfg : Config} {cache : Cache F} {kid : Text} {t : ℚ}
    (h : due cfg cache kid t = true) : ∀ fetched ∈ cache.fetchedAt, fetched + gap cfg ≤ t := by
  intro fetched hfetched
  simp only [due, Option.mem_def.mp hfetched, Bool.or_eq_true, Bool.and_eq_true,
    decide_eq_true_eq] at h
  rcases h with h | ⟨-, h⟩
  · have := min_le_left cfg.jwksTtlS cfg.jwksMinRefetchS
    unfold gap
    linarith
  · have := min_le_right cfg.jwksTtlS cfg.jwksMinRefetchS
    unfold gap
    linarith

theorem init_inv {cfg : Config} {file : Option (Json F)} {clock : ℚ} {s : State F}
    (hurl : cfg.jwksFile = none) (h : initial cfg file clock = some s) : Inv cfg s := by
  rw [initial, if_pos hurl, Option.some.injEq] at h
  subst h
  refine ⟨?_, ?_, ?_, List.IsChain.nil, rfl, rfl, .inl rfl, ?_, ?_, ?_, ?_⟩
  · intro id kid alg h
    cases h
  · intro h
    exact absurd rfl h
  · intro _ f hf
    cases hf
  · intro h
    cases h
  · intro good h
    cases h
  · intro fetched h
    cases h
  · intro f hf
    cases hf

/-- Only the clock and a phase that is not fetching change. -/
theorem Inv.quiet {cfg : Config} {s : State F} (hi : Inv cfg s) {u : ℚ} (hu : s.clock ≤ u)
    {calls : Nat → Phase} (hcalls : ∀ id kid alg, calls id = .fetching kid alg →
      s.calls id = .fetching kid alg) : Inv cfg { s with calls := calls, clock := u } := by
  refine ⟨?_, hi.held, hi.free, hi.apart, hi.fetched, hi.good, hi.keys, hi.kept, hi.order.1, ?_, ?_⟩
  · intro id kid alg h
    exact hi.holder id kid alg (hcalls id kid alg h)
  · intro fetched h
    exact le_trans (hi.order.2.1 fetched h) hu
  · intro f hf
    exact le_trans (hi.order.2.2 f hf) hu

theorem fetching_update {calls : Nat → Phase} {id : Nat} {phase : Phase}
    (hphase : ∀ kid alg, phase ≠ .fetching kid alg) {i : Nat} {kid alg : Text}
    (h : Function.update calls id phase i = .fetching kid alg) : calls i = .fetching kid alg := by
  by_cases hi : i = id
  · subst hi
    rw [Function.update_self] at h
    exact absurd h (hphase kid alg)
  · rwa [Function.update_of_ne hi] at h

theorem fetch_inv {cfg : Config} {s : State F} (hi : Inv cfg s) {id : Nat} {kid alg : Text} {t u : ℚ}
    (hlock : s.lock = none) (ht : s.clock ≤ t) (hu : t ≤ u) (hdue : due cfg s.cache kid t = true) :
    Inv cfg
      { s with
        calls := Function.update s.calls id (.fetching kid alg)
        lock := some id
        clock := u
        history := ⟨u, none⟩ :: s.history } := by
  have hover := hi.free hlock
  have hgap : ∀ done ∈ lastDone s.history, done + gap cfg ≤ u := by
    intro done hdone
    rw [← hi.fetched] at hdone
    exact le_trans (due_gap hdue done hdone) hu
  refine ⟨?_, ?_, ?_, ?_, hi.fetched, hi.good, hi.keys, hi.kept, hi.order.1, ?_, ?_⟩
  · intro i kid' alg' h
    by_cases hid : i = id
    · rw [hid]
    · change Function.update s.calls id (.fetching kid alg) i = _ at h
      rw [Function.update_of_ne hid] at h
      have := hi.holder i kid' alg' h
      rw [hlock] at this
      cases this
  · intro _
    exact ⟨⟨u, none⟩, s.history, rfl, rfl, hover, hgap⟩
  · intro h
    cases h
  · by_cases hne : s.history = []
    · show List.IsChain _ (_ :: s.history)
      rw [hne]
      exact .singleton _
    · obtain ⟨f, rest, o, hf, ho, hdone⟩ := lastDone_some hover hne
      have hapart := hi.apart
      show List.IsChain _ (_ :: s.history)
      rw [FetchesApart, hf] at hapart
      rw [hf]
      exact .cons_cons ⟨o, ho, hgap o.1 hdone⟩ hapart
  · intro fetched h
    exact le_trans (hi.order.2.1 fetched h) (le_trans ht hu)
  · intro f hf
    rcases List.mem_cons.mp hf with rfl | hf
    · exact le_refl u
    · exact le_trans (hi.order.2.2 f hf) (le_trans ht hu)

theorem settle_fetchedAt (cfg : Config) (cache : Cache F) (fetched : Option (Keys F)) (now : ℚ) :
    (settle cfg cache fetched now).fetchedAt = some now := by
  unfold settle
  split
  · rfl
  · split
    · split <;> rfl
    · rfl

/-- A failed fetch keeps the success it had, and the keys or none. -/
theorem settle_failed (cfg : Config) (cache : Cache F) (now : ℚ) :
    (settle cfg cache none now).goodAt = cache.goodAt ∧
    ((settle cfg cache none now).keys = [] ∨ (settle cfg cache none now).keys = cache.keys ∧
      ∃ good ∈ cache.goodAt, now - good ≤ cfg.jwksMaxStaleS) := by
  unfold settle
  simp only
  split
  · next good hgood =>
    split
    · next hle => exact ⟨hgood.symm ▸ rfl, .inr ⟨rfl, good, hgood, hle⟩⟩
    · exact ⟨rfl, .inl rfl⟩
  · exact ⟨rfl, .inl rfl⟩

theorem complete_inv {cfg : Config} {s : State F} (hi : Inv cfg s) {id : Nat} {kid alg : Text}
    {t u : ℚ} (response : Option (Json F)) (hid : s.calls id = .fetching kid alg)
    (ht : s.clock ≤ t) (hu : t ≤ u) :
    Inv cfg
      { s with
        cache := settle cfg s.cache (response.bind parseJwks) t
        calls := Function.update s.calls id .idle
        lock := none
        clock := u
        history := endFetch s.history t response } := by
  have hlock := hi.holder id kid alg hid
  obtain ⟨f, rest, hhistory, hrunning, hover, hgap⟩ := hi.held (by rw [hlock]; intro h; cases h)
  have hend : endFetch s.history t response = { f with outcome := some (t, response) } :: rest := by
    rw [hhistory]
    rfl
  have hfgood : f.good = none := by rw [Fetch.good, hrunning]; rfl
  have hlastDone : lastDone s.history = lastDone rest := by simp [lastDone, hhistory, hrunning]
  have hlastGood : lastGood s.history = lastGood rest := by simp [lastGood, hhistory, hfgood]
  have hstarted : f.started ≤ t := le_trans (hi.order.2.2 f (hhistory ▸ List.mem_cons_self)) ht
  have hapart := hi.apart
  rw [FetchesApart, hhistory] at hapart
  have hgoodAt : ∀ good ∈ s.cache.goodAt, good + gap cfg ≤ t ∧ good ≤ t := by
    intro good hgood
    obtain ⟨fetched, hfetched, hle⟩ := hi.order.1 good hgood
    have hdone : fetched ∈ lastDone rest := by rw [← hlastDone, ← hi.fetched]; exact hfetched
    have hclock := hi.order.2.1 fetched hfetched
    have := hgap fetched hdone
    exact ⟨by linarith, by linarith⟩
  refine ⟨?_, ?_, ?_, ?_, ?_, ?_, ?_, ?_, ?_, ?_, ?_⟩
  · intro i kid' alg' h
    have hfetching := fetching_update (fun _ _ h => by cases h) h
    have hsame := (hi.holder i kid' alg' hfetching).symm.trans hlock
    cases hsame
    change Function.update s.calls id .idle id = _ at h
    rw [Function.update_self] at h
    cases h
  · intro h
    exact absurd rfl h
  · intro _ g hg
    rw [hend] at hg
    rcases List.mem_cons.mp hg with rfl | hg
    · rfl
    · exact hover g hg
  · show List.IsChain _ (endFetch s.history t response)
    rw [hend]
    cases rest with
    | nil => exact .singleton _
    | cons g rest =>
      obtain ⟨⟨o, ho, hle⟩, hrest⟩ := List.isChain_cons_cons.mp hapart
      exact .cons_cons ⟨o, ho, hle⟩ hrest
  · show (settle cfg s.cache _ t).fetchedAt = lastDone (endFetch s.history t response)
    rw [settle_fetchedAt, hend]
    simp [lastDone]
  · show (settle cfg s.cache (response.bind parseJwks) t).goodAt = _
    rw [hend]
    cases hgood : goodOf t response with
    | none =>
      rw [goodOf_none hgood, (settle_failed cfg s.cache t).1, hi.good, hlastGood]
      simp [lastGood, Fetch.good, hgood]
    | some g =>
      obtain ⟨htime, hkeys⟩ := goodOf_time hgood
      rw [hkeys]
      simp [settle, lastGood, Fetch.good, hgood, htime]
  · show (settle cfg s.cache (response.bind parseJwks) t).keys = [] ∨ _
    rw [hend]
    cases hgood : goodOf t response with
    | none =>
      have hsame : lastGood ({ f with outcome := some (t, response) } :: rest) =
          lastGood s.history := by
        rw [hlastGood]
        simp [lastGood, Fetch.good, hgood]
      rw [goodOf_none hgood, hsame]
      rcases (settle_failed cfg s.cache t).2 with h | ⟨h, -⟩
      · exact .inl h
      · rw [h]
        exact hi.keys
    | some g =>
      rw [(goodOf_time hgood).2]
      exact .inr ⟨g, by simp [lastGood, Fetch.good, hgood], rfl⟩
  · show failedSince (endFetch s.history t response) = true → (settle cfg s.cache (response.bind parseJwks) t).keys = [] ∨ _
    rw [hend]
    intro hfailed
    cases hgood : goodOf t response with
    | none =>
      rw [goodOf_none hgood]
      rcases (settle_failed cfg s.cache t).2 with h | ⟨-, good, hg, hle⟩
      · exact .inl h
      · have hmin : min cfg.jwksTtlS cfg.jwksMinRefetchS ≤ cfg.jwksMaxStaleS := by
          have := (hgoodAt good hg).1
          unfold gap at this
          linarith
        exact .inr (min_le_iff.mp hmin)
    | some g => simp [failedSince, Fetch.good, hgood] at hfailed
  · show ∀ good ∈ (settle cfg s.cache (response.bind parseJwks) t).goodAt,
      ∃ fetched ∈ (settle cfg s.cache (response.bind parseJwks) t).fetchedAt, good ≤ fetched
    intro good hg
    refine ⟨t, settle_fetchedAt _ _ _ _, ?_⟩
    cases hgood : goodOf t response with
    | none =>
      rw [goodOf_none hgood, (settle_failed cfg s.cache t).1] at hg
      exact (hgoodAt good hg).2
    | some g =>
      rw [(goodOf_time hgood).2] at hg
      cases hg
      exact le_refl t
  · show ∀ fetched ∈ (settle cfg s.cache (response.bind parseJwks) t).fetchedAt, fetched ≤ u
    intro fetched h
    rw [settle_fetchedAt] at h
    cases h
    exact hu
  · show ∀ g ∈ endFetch s.history t response, g.started ≤ u
    rw [hend]
    intro g hg
    rcases List.mem_cons.mp hg with rfl | hg
    · exact le_trans hstarted hu
    · have := hi.order.2.2 g (hhistory ▸ List.mem_cons_of_mem f hg)
      exact le_trans this (le_trans ht hu)

variable {pyJwk keySize}

theorem step_inv {cfg : Config} {s s' : State F} {a : Option (Answer Key)}
    (h : Step pyJwk keySize cfg s a s') (hurl : cfg.jwksFile = none) (hi : Inv cfg s) :
    Inv cfg s' := by
  cases h with
  | pinned hfile ht => exact absurd hurl hfile
  | served alg _ hid ht hu hdue => exact hi.quiet (le_trans ht hu) fun _ _ _ h => h
  | wait alg _ hid ht hdue =>
    exact hi.quiet ht fun _ _ _ h => fetching_update (fun _ _ h => by cases h) h
  | recheck hid hlock ht hu hdue =>
    exact hi.quiet (le_trans ht hu) fun _ _ _ h => fetching_update (fun _ _ h => by cases h) h
  | fetch hid hlock ht hu hdue => exact fetch_inv hi hlock ht hu hdue
  | complete response hid ht hu => exact complete_inv hi response hid ht hu

theorem reachable_inv {cfg : Config} {file : Option (Json F)} {s : State F}
    (h : Reachable pyJwk keySize cfg file s) (hurl : cfg.jwksFile = none) : Inv cfg s := by
  induction h with
  | init clock h => exact init_inv hurl h
  | step _ hs ih => exact step_inv hs hurl ih

/-! ## What is returned -/

/-- An answer is computed from the cache the step leaves. -/
theorem step_answer {cfg : Config} {s s' : State F} {a : Answer Key}
    (h : Step pyJwk keySize cfg s (some a) s') :
    a.result = finishKey pyJwk keySize cfg s'.cache a.kid a.alg a.time := by
  cases h <;> rfl

theorem finishKey_ok {cfg : Config} {cache : Cache F} {kid alg : Text} {now : ℚ} {key : Key}
    (h : finishKey pyJwk keySize cfg cache kid alg now = .ok key) :
    (cfg.jwksFile = none → usable cfg cache now = true) ∧
      ∃ jwk, cache.keys.lookup kid = some jwk ∧ bindKey pyJwk keySize jwk alg = .ok key := by
  simp only [finishKey, bind_ok, ensure_ok, orRaise_ok] at h
  obtain ⟨-, husable, jwk, hjwk, hbind⟩ := h
  exact ⟨husable, jwk, hjwk, hbind⟩

/-- What a state hands out is fresh, but for the limit on stale keys. -/
theorem finishKey_fresh {cfg : Config} {s : State F} (hi : Inv cfg s) (hurl : cfg.jwksFile = none)
    {kid alg : Text} {now : ℚ} {key : Key}
    (h : finishKey pyJwk keySize cfg s.cache kid alg now = .ok key) :
    FromLast pyJwk keySize cfg s.history kid alg now key ∧
      (cfg.jwksTtlS ≤ cfg.jwksMaxStaleS ∨ cfg.jwksMaxStaleS < cfg.jwksMinRefetchS →
        StaleBounded cfg s.history now) := by
  obtain ⟨husable, jwk, hjwk, hbind⟩ := finishKey_ok h
  have hne : s.cache.keys ≠ [] := by
    intro hnil
    rw [hnil] at hjwk
    cases hjwk
  obtain ⟨g, hg, hkeys⟩ := hi.keys.resolve_left hne
  have hage : now - g.time ≤ max cfg.jwksTtlS cfg.jwksMaxStaleS := by
    have := husable hurl
    rw [usable, hi.good, hg] at this
    exact of_decide_eq_true this
  rw [hkeys] at hjwk
  refine ⟨⟨g, jwk, hg, hjwk, parseJwks_once g.parsed hjwk, bindKey_agrees _ _ hbind, hbind, hage⟩, ?_⟩
  intro hcond hfailed g' hg'
  cases hg.symm.trans hg'
  rcases hi.kept hfailed with hnil | hlimits
  · exact absurd hnil hne
  · have httl : cfg.jwksTtlS ≤ cfg.jwksMaxStaleS := by
      rcases hcond with h | h
      · exact h
      · exact hlimits.resolve_right (not_le.mpr h)
    rwa [max_eq_right httl] at hage

/-- Every key returned in any run is fresh, and the fetches are apart. -/
def FreshOrRefused (pyJwk : Items F → Text → Option Key) (keySize : Key → Nat) (cfg : Config)
    (file : Option (Json F)) : Prop :=
  ∀ s, Reachable pyJwk keySize cfg file s → FetchesApart cfg s.history ∧
    ∀ a s', Step pyJwk keySize cfg s (some a) s' → ∀ key, a.result = .ok key →
      FromLast pyJwk keySize cfg s'.history a.kid a.alg a.time key ∧
        StaleBounded cfg s'.history a.time

/-- The limits under which a kept set is not used for too long. -/
def StaleLimit (cfg : Config) : Prop :=
  cfg.jwksTtlS ≤ cfg.jwksMaxStaleS ∨ cfg.jwksMaxStaleS < cfg.jwksMinRefetchS

theorem fresh_of_limits {cfg : Config} {file : Option (Json F)} (hurl : cfg.jwksFile = none)
    (h : StaleLimit cfg) : FreshOrRefused pyJwk keySize cfg file := by
  intro s hs
  have hi := reachable_inv hs hurl
  refine ⟨hi.apart, ?_⟩
  intro a s' hstep key hkey
  rw [step_answer hstep] at hkey
  obtain ⟨hlast, hstale⟩ := finishKey_fresh (step_inv hstep hurl hi) hurl hkey
  exact ⟨hlast, hstale h⟩

/-! ## A pinned file -/

/-- No call ever suspends, and the keys are the file's. -/
theorem reachable_pinned {cfg : Config} {file : Option (Json F)} {s : State F}
    (h : Reachable pyJwk keySize cfg file s) (hfile : cfg.jwksFile ≠ none) :
    (∃ document, file = some document ∧ parseJwks document = some s.cache.keys) ∧
      ∀ id, s.calls id = .idle := by
  induction h with
  | init clock h =>
    rw [initial, if_neg hfile] at h
    obtain ⟨keys, hkeys, rfl⟩ := Option.map_eq_some_iff.mp h
    obtain ⟨document, rfl, hparse⟩ := Option.bind_eq_some_iff.mp hkeys
    exact ⟨⟨document, rfl, hparse⟩, fun _ => rfl⟩
  | step _ hs ih =>
    cases hs with
    | pinned => exact ih
    | served alg hurl => exact absurd hurl hfile
    | wait alg hurl => exact absurd hurl hfile
    | recheck hid => cases (ih.2 _).symm.trans hid
    | fetch hid => cases (ih.2 _).symm.trans hid
    | complete response hid => cases (ih.2 _).symm.trans hid

theorem pinned_once {cfg : Config} {file : Option (Json F)} (hfile : cfg.jwksFile ≠ none)
    {s s' : State F} {a : Answer Key} {key : Key} (hs : Reachable pyJwk keySize cfg file s)
    (hstep : Step pyJwk keySize cfg s (some a) s') (hkey : a.result = .ok key) :
    ∃ document jwk, file = some document ∧ listed document a.kid = [jwk] ∧ Agrees jwk a.alg := by
  obtain ⟨⟨document, hdocument, hparse⟩, -⟩ := reachable_pinned (.step hs hstep) hfile
  rw [step_answer hstep] at hkey
  obtain ⟨-, jwk, hjwk, hbind⟩ := finishKey_ok hkey
  exact ⟨document, jwk, hdocument, parseJwks_once hparse hjwk, bindKey_agrees _ _ hbind⟩

/-! ## A kept set used for too long -/

/-- No call is under way. -/
def Quiet (s : State F) : Prop := s.lock = none ∧ ∀ id, s.calls id = .idle

/-- A call on its own that fetches within a moment. -/
theorem fetch_now {cfg : Config} {file : Option (Json F)} {s : State F} (hurl : cfg.jwksFile = none)
    (hs : Reachable pyJwk keySize cfg file s) (hq : Quiet s) (kid : Text) {t : ℚ}
    (ht : s.clock ≤ t) (hdue : due cfg s.cache kid t = true) (response : Option (Json F)) :
    ∃ s', Reachable pyJwk keySize cfg file s' ∧ Quiet s' ∧ s'.clock = t ∧
      s'.cache = settle cfg s.cache (response.bind parseJwks) t ∧
      s'.history = ⟨t, some (t, response)⟩ :: s.history := by
  have hwait := hs.step (.wait [] hurl (hq.2 0) ht hdue)
  have hwaiting : Function.update s.calls 0 (.waiting kid []) 0 = .waiting kid [] :=
    Function.update_self ..
  have hfetch := hwait.step (.fetch (i := 0) hwaiting hq.1 (le_refl t) (le_refl t) hdue)
  have hfetching : Function.update (Function.update s.calls 0 (.waiting kid [])) 0
      (.fetching kid []) 0 = .fetching kid [] := Function.update_self ..
  have hdone := hfetch.step (.complete (i := 0) response hfetching (le_refl t) (le_refl t))
  refine ⟨_, hdone, ⟨rfl, ?_⟩, rfl, rfl, rfl⟩
  intro id
  show Function.update (Function.update (Function.update s.calls 0 _) 0 _) 0 .idle id = .idle
  by_cases hid : id = 0
  · rw [hid, Function.update_self]
  · rw [Function.update_of_ne hid, Function.update_of_ne hid, Function.update_of_ne hid, hq.2]

/-- No key stands under the empty kid. -/
theorem lookup_empty {document : Json F} {keys : Keys F} (h : parseJwks document = some keys) :
    keys.lookup [] = none := by
  have hnamed : ∀ (entry : Json F) k, named entry = some k → k.1 ≠ [] := by
    intro entry k hk
    unfold named at hk
    split at hk
    · split at hk
      · split at hk
        · cases hk
        · next hne => cases hk; exact hne
      · cases hk
    · cases hk
  have hunder : ∀ entries : List (Json F), under entries [] = [] := by
    intro entries
    refine List.filterMap_eq_nil_iff.mpr fun k hk => ?_
    obtain ⟨entry, -, hentry⟩ := List.mem_filterMap.mp hk
    exact if_neg (hnamed entry k hentry)
  cases hkid : keys.lookup [] with
  | none => rfl
  | some jwk =>
    have honce := parseJwks_once h hkid
    unfold listed at honce
    split at honce
    · split at honce
      · rw [hunder] at honce
        cases honce
      · cases honce
    · cases honce

/-- A fetch for an unknown kid fails while the set is young; the set is used to the end of its
time to live. -/
theorem stale_used {cfg : Config} {file : Option (Json F)} (hurl : cfg.jwksFile = none)
    (hlimit : ¬StaleLimit cfg) {document : Json F} {keys : Keys F}
    (hparse : parseJwks document = some keys) {kid alg : Text} {jwk : Items F} {key : Key}
    (hkid : keys.lookup kid = some jwk) (hbind : bindKey pyJwk keySize jwk alg = .ok key) :
    ¬FreshOrRefused pyJwk keySize cfg file := by
  rw [StaleLimit, not_or, not_le, not_lt] at hlimit
  obtain ⟨httl, hfloor⟩ := hlimit
  obtain ⟨hstale0, -, hfloor0⟩ := cfg.bounds
  have hinit : Reachable pyJwk keySize cfg file ⟨{}, none, fun _ => .idle, 0, []⟩ :=
    .init 0 (if_pos hurl)
  obtain ⟨s1, hs1, hq1, hclock1, hcache1, hhistory1⟩ :=
    fetch_now hurl hinit ⟨rfl, fun _ => rfl⟩ kid (le_refl 0) rfl (some document)
  have hgood1 : s1.cache = ⟨keys, some 0, some 0⟩ := by
    rw [hcache1]
    simp [settle, hparse]
  have hdue : due cfg s1.cache [] cfg.jwksMinRefetchS = true := by
    simp [due, hgood1, lookup_empty hparse]
  obtain ⟨s2, hs2, hq2, hclock2, hcache2, hhistory2⟩ :=
    fetch_now hurl hs1 hq1 [] (by rw [hclock1]; exact hfloor0.le) hdue none
  have hgood2 : s2.cache = ⟨keys, some cfg.jwksMinRefetchS, some 0⟩ := by
    rw [hcache2, hgood1]
    simp [settle, hfloor]
  have hnotdue : due cfg s2.cache kid cfg.jwksTtlS = false := by
    simp [due, hgood2, hkid, hfloor0]
  have hserved : Step pyJwk keySize cfg s2 _ _ :=
    .served alg hurl (hq2.2 0) (by rw [hclock2]; linarith) (le_refl cfg.jwksTtlS) hnotdue
  intro hfresh
  have hresult : finishKey pyJwk keySize cfg s2.cache kid alg cfg.jwksTtlS = .ok key := by
    simp [finishKey, hgood2, usable, hkid, hbind, ensure_true]
  obtain ⟨⟨g, -, hg, -⟩, hbound⟩ := (hfresh s2 hs2).2 _ _ hserved key hresult
  have hgtime : g.time = 0 := by
    have := (reachable_inv hs2 hurl).good
    change lastGood s2.history = some g at hg
    rw [hgood2, hg] at this
    exact (Option.some.inj this).symm
  have hfailed : failedSince s2.history = true := by
    rw [hhistory2]
    rfl
  have := hbound hfailed g hg
  rw [hgtime] at this
  change cfg.jwksTtlS - 0 ≤ cfg.jwksMaxStaleS at this
  linarith

/-- With fetched keys: every run hands out fresh keys only exactly when the time to live is within
the limit on stale keys, or no fetch is made again within that limit. With a pinned file the keys
are its own. -/
theorem fresh_iff (cfg : Config) (file : Option (Json F)) {document : Json F} {keys : Keys F}
    (hparse : parseJwks document = some keys) {kid alg : Text} {jwk : Items F} {key : Key}
    (hkid : keys.lookup kid = some jwk) (hbind : bindKey pyJwk keySize jwk alg = .ok key) :
    (cfg.jwksFile = none → (FreshOrRefused pyJwk keySize cfg file ↔
      cfg.jwksTtlS ≤ cfg.jwksMaxStaleS ∨ cfg.jwksMaxStaleS < cfg.jwksMinRefetchS)) ∧
    (cfg.jwksFile ≠ none → ∀ s a s' key, Reachable pyJwk keySize cfg file s →
      Step pyJwk keySize cfg s (some a) s' → a.result = .ok key →
      ∃ document jwk, file = some document ∧ listed document a.kid = [jwk] ∧ Agrees jwk a.alg) := by
  refine ⟨?_, ?_⟩
  · intro hurl
    constructor
    · intro h
      by_contra hlimit
      exact stale_used hurl hlimit hparse hkid hbind h
    · exact fresh_of_limits hurl
  · intro hfile s a s' key hs hstep hkey
    exact pinned_once hfile hs hstep hkey

/-! ## Concrete limits -/

/-- The defaults, but for the limit on stale keys. -/
def limited (maxStale : ℚ) : GatewayAuthConfig where
  gateway := "splunk".toList
  issuer := "https://idp".toList
  audience := "splunk".toList
  jwksUrl := some "https://idp/jwks".toList
  jwksMaxStaleS := maxStale

def signingKey : Items Unit :=
  [("kid".toList, .str "a".toList), ("kty".toList, .str "RSA".toList)]

def signingKeys : Json Unit := .obj [("keys".toList, .arr [.obj signingKey])]

/-- Every JWK reads as a key of 2048 bits. -/
def anyKey (_ : Items Unit) (_ : Text) : Option Nat := some 2048

theorem parse_signingKeys : parseJwks signingKeys = some [("a".toList, signingKey)] := by
  rfl

theorem lookup_signingKey : [("a".toList, signingKey)].lookup "a".toList = some signingKey := by
  rfl

theorem bind_signingKey : bindKey anyKey id signingKey "RS256".toList = .ok 2048 := by
  rfl

/-- A limit below the time between two fetches. -/
def strict : Config := ⟨limited 0, by decide +kernel⟩

/-- A minute, and fetches for unknown kids half a minute apart. -/
def minute : Config := ⟨limited 60, by decide +kernel⟩

theorem fresh_strict : FreshOrRefused anyKey id strict none := by
  have h := fresh_iff strict none parse_signingKeys lookup_signingKey bind_signingKey
  refine (h.1 rfl).mpr (.inr ?_)
  decide +kernel

/-- The set is 60 s stale at most, and it is used at 300 s after a fetch that failed at 30 s. -/
theorem minute_overrun : ¬FreshOrRefused anyKey id minute none := by
  refine stale_used rfl ?_ parse_signingKeys lookup_signingKey bind_signingKey
  unfold StaleLimit
  decide +kernel

end MainframeRag.Mcp.JwksCache
