import MainframeRag.Lib.Fallible
import MainframeRag.Retrieve.Diversify
import MainframeRag.Retrieve.Filters
import MainframeRag.Retrieve.Fusion
import MainframeRag.Retrieve.Rerank
import MainframeRag.Retrieve.Split
import MainframeRag.Retrieve.SplitMerge
import Mathlib

/-!
# Search

`async_search` of `retrieve/query.py`, in exact arithmetic, with the acronym expansion of
`retrieve/rewrite.py`. The embedder, the store and the rerankers are parameters, and `none` is a call
that raises. Every leg is prefetched under the filter of the whole query (`prefetchLeg_scoped`), and
what follows only orders, cuts and scores the hits of the legs (`Stems`), so a search stays in its
scope (`asyncSearch_scoped`).
-/

namespace MainframeRag.Retrieve

open PyText PyJson Regex Fallible
open Screen (CharData screenQuery)
open Split (Mode splitQuery)

/-! ## Settings -/

/-- The settings a search reads. -/
structure SearchSettings (K : Type) [Field K] where
  hashMode : Bool := false
  allowHashMode : Bool := false
  embedBaseUrl : Option Text := none
  rerankBaseUrl : Option Text := none
  rerankEnabled : Bool := false
  rerankCandidates : Nat := 50
  rerankFusionAlpha : K := 1
  acronymExpansionEnabled : Bool := false
  comparativeSplitEnabled : Bool := true
  diagnosticDualpathEnabled : Bool := false
  rrfK : Nat := 60
  denseHnswEf : Option Nat := some 128
  denseQuantRescore : Option Bool := some true
  denseQuantOversampling : Option K := some ((2 : Nat) : K)
  rrfWeightDenseNl : K := 1
  rrfWeightSparseNl : K := 1
  rrfWeightDenseIdentifier : K := 1
  rrfWeightSparseIdentifier : K := ((3 : Nat) : K)
  rrfSparseBoostSyntax : K := 1
  rrfSparseBoostTable : K := 1
  retrieveMaxChunksPerPage : Nat := 1
  retrieveMaxChunksPerDoc : Nat := 3
  /-- `Field(ge=10, le=100)` -/
  rerankCandidates_bounds : 10 ≤ rerankCandidates ∧ rerankCandidates ≤ 100 := by decide

/-- `Reranker.score` -/
abbrev Reranker (K : Type) := Text → List Text → Option (List K)

/-- The tables, the glossary of acronyms and the rerankers. -/
structure Parts (F K : Type) [Field K] where
  readers : Readers F
  screen : CharData
  glossary : List (Text × Text)
  hashReranker : Reranker K
  httpReranker : SearchSettings K → Reranker K

def Parts.chars {F K : Type} [Field K] (P : Parts F K) : CharTables := P.readers.chars

/-! ## The texts of the legs -/

section

variable {F K : Type} [Field K] (P : Parts F K)

open Regex.Pattern in
/-- `_TOKEN_RE` -/
def tokenRe : Pattern Char :=
  wholeWord P.chars (seq (plus (one Char.isAlphanum))
    (opt (seq (one (· = '/')) (plus (one Char.isAlphanum)))))

/-- `TWO_LETTER` -/
def twoLetter : List Text := ["CF", "LU", "EE"].map String.toList

def shouldRewrite (query : Text) : Bool :=
  screenQuery P.screen query ≠ .trap && !(parseQuery P.chars query).hasIdentifiers

/-- The expansions of the tokens; `seen` are the acronyms that have theirs. -/
def expansions (seen : List Text) : List Text → List Text
  | [] => []
  | token :: tokens =>
    let key := upperText P.chars token
    if key ∈ seen ∨ key.length < 2 ∨ key.length = 2 ∧ key ∉ twoLetter then expansions seen tokens
    else
      match Dict.get P.glossary key with
      | none => expansions seen tokens
      | some expansion =>
        (token ++ " (".toList ++ expansion ++ ")".toList) :: expansions (key :: seen) tokens

def expandQuery (query : Text) : Text :=
  let added := expansions P [] (found (tokenRe P) query)
  if !shouldRewrite P query || added = [] then query else query ++ ' ' :: Split.joinWords added

/-- `_effective_query` -/
def effectiveQuery (settings : Option (SearchSettings K)) (query : Text) : Text :=
  if settings.any (·.acronymExpansionEnabled) && shouldRewrite P query then expandQuery P query
  else query

/-- `_split_paths_for` -/
def splitPathsFor (settings : Option (SearchSettings K)) (query : Text) : Option (List Text × Mode) :=
  match settings with
  | none => some ([query], .single)
  | some s =>
    if !s.comparativeSplitEnabled && !s.diagnosticDualpathEnabled then some ([query], .single)
    else splitQuery P.chars P.screen query s.comparativeSplitEnabled s.diagnosticDualpathEnabled

/-- `eff_legs` -/
def effectiveLegs (settings : Option (SearchSettings K)) (query : Text) (paths : List Text × Mode) :
    List Text :=
  if paths.2 = .single then [effectiveQuery P settings query]
  else paths.1.map (effectiveQuery P settings)

/-! ## The reranker -/

/-- `build_reranker`; `some none` is no reranker. -/
def buildReranker (s : SearchSettings K) : Option (Option (Reranker K)) :=
  if !s.rerankEnabled then some none
  else if s.hashMode && s.rerankBaseUrl.getD [] = [] then some (some P.hashReranker)
  else if s.rerankBaseUrl.getD [] ≠ [] || s.embedBaseUrl.getD [] ≠ [] then
    some (some (P.httpReranker s))
  else if s.allowHashMode then some (some P.hashReranker)
  else none

/-- `_rerank_bypass_reason` -/
def rerankBypassReason (query : Text) (hasIdentifiers : Bool) : Option Text :=
  if screenQuery P.screen query = .trap then some "trap".toList
  else if hasIdentifiers then some "identifier".toList
  else none

/-- `_resolve_active_reranker`; the memo holds what the same settings build. -/
def resolveActiveReranker (settings : Option (SearchSettings K)) (reranker : Option (Reranker K))
    (query : Text) (hasIdentifiers : Bool) : Option (Option (Reranker K)) :=
  let found :=
    match reranker, settings with
    | some r, _ => some (some r)
    | none, some s => if s.rerankEnabled then buildReranker P s else some none
    | none, none => some none
  found.map fun active =>
    if (rerankBypassReason P query hasIdentifiers).isSome then none else active

/-! ## Ranking parameters -/

/-- `PREFETCH_LIMIT` -/
def prefetchLimit : Nat := 40

/-- `_prefetch_limit_for` -/
def prefetchLimitFor (settings : Option (SearchSettings K)) (rerankActive : Bool) : Nat :=
  match settings with
  | some s => if rerankActive then s.rerankCandidates else prefetchLimit
  | none => prefetchLimit

structure RankingParams (K : Type) where
  weights : K × K
  k : Nat
  maxPerPage : Nat
  maxPerDoc : Nat

/-- `_ranking_params` -/
def rankingParams (settings : Option (SearchSettings K)) (hasIdentifiers : Bool) : RankingParams K :=
  match settings with
  | some s =>
    { weights :=
        if hasIdentifiers then (s.rrfWeightDenseIdentifier, s.rrfWeightSparseIdentifier)
        else (s.rrfWeightDenseNl, s.rrfWeightSparseNl)
      k := s.rrfK
      maxPerPage := s.retrieveMaxChunksPerPage
      maxPerDoc := s.retrieveMaxChunksPerDoc }
  | none =>
    { weights := if hasIdentifiers then (1, ((3 : Nat) : K)) else (1, 1)
      k := 60
      maxPerPage := 1
      maxPerDoc := 3 }

/-- `_type_boosts`; without any the dict is empty. -/
def typeBoosts [DecidableEq K] (settings : Option (SearchSettings K)) : List (Text × K) :=
  match settings with
  | none => []
  | some s =>
    (if s.rrfSparseBoostSyntax = 1 then [] else [("syntax".toList, s.rrfSparseBoostSyntax)]) ++
      if s.rrfSparseBoostTable = 1 then [] else [("table".toList, s.rrfSparseBoostTable)]

/-- `models.SearchParams`; `quantization` has `rescore` and `oversampling`. -/
structure SearchParams (K : Type) where
  hnswEf : Option Nat
  quantization : Option (Option Bool × Option K)

/-- `_dense_search_params` -/
def denseSearchParams (settings : Option (SearchSettings K)) : Option (SearchParams K) :=
  settings.bind fun s =>
    let quantization :=
      if s.denseQuantRescore.isSome || s.denseQuantOversampling.isSome then
        some (s.denseQuantRescore, s.denseQuantOversampling)
      else none
    if s.denseHnswEf.isNone && quantization.isNone then none
    else some { hnswEf := s.denseHnswEf, quantization := quantization }

end

/-! ## The store -/

/-- A point of the collection: what a search fetches, and the fields it only filters by. -/
structure Stored (F : Type) extends ScoredPoint F where
  members : List Text := []
  systemCodes : List Text := []

/-- The texts of a keyword field. -/
def keywords {F : Type} : Json F → List Text
  | .str t => [t]
  | .arr items => items.filterMap fun
    | .str t => some t
    | _ => none
  | _ => []

/-- The values filters read. -/
def Stored.values {F : Type} (p : Stored F) : PayloadField → List Text
  | .product => p.payload.product.toList
  | .version => p.payload.version.toList
  | .docId => keywords p.payload.docId
  | .messageIds => p.payload.messageIds
  | .members => p.members
  | .systemCodes => p.systemCodes

/-- The vector of a request, with the index it is for. -/
inductive QueryVector (D S : Type)
  | dense (v : D)
  | bm25 (v : S)

structure QueryRequest (D S K : Type) where
  query : QueryVector D S
  limit : Nat
  filter : Option (Filter Condition)
  params : Option (SearchParams K)

/-- `query_batch_points` for two requests. -/
abbrev Client (F K D S : Type) :=
  QueryRequest D S K → QueryRequest D S K → Option (List (Stored F) × List (Stored F))

structure Embedder (D S : Type) where
  denseQuery : Text → Option D
  sparseQuery : Text → Option S

/-- What one request comes to: points of the collection under its filter, and some if its query
reaches one. -/
structure Answers {F K D S : Type} (collection : List (Stored F))
    (reaches : QueryVector D S → Stored F → Prop) (request : QueryRequest D S K)
    (points : List (Stored F)) : Prop where
  stored : ∀ p ∈ points, p ∈ collection
  filtered : ∀ p ∈ points, accepts request.filter p.values = true
  reached : 0 < request.limit → ∀ p ∈ collection, reaches request.query p →
    accepts request.filter p.values = true → points ≠ []

/-- What is relied on of a store. -/
def Client.Lawful {F K D S : Type} (client : Client F K D S) (collection : List (Stored F))
    (reaches : QueryVector D S → Stored F → Prop) : Prop :=
  ∀ first second points, client first second = some points →
    Answers collection reaches first points.1 ∧ Answers collection reaches second points.2

/-! ## Prefetch -/

section

variable {F K D S : Type}

/-- `_needs_filter_fallback` -/
def needsFilterFallback (dense sparse : List (Stored F)) (flt fallback : Option (Filter Condition)) :
    Bool :=
  if flt ≠ none ∧ dense.isEmpty ∧ sparse.isEmpty then
    !(fallback ≠ none && flt = fallback)
  else false

/-- The points of a leg. -/
structure LegPoints (F : Type) where
  dense : List (Stored F)
  sparse : List (Stored F)
  retried : Bool

def LegPoints.points (leg : LegPoints F) : List (Stored F) := leg.dense ++ leg.sparse

/-- `_build_prefetch_requests`, sent. -/
def ask (client : Client F K D S) (limit : Nat) (params : Option (SearchParams K)) (vec : D × S)
    (flt : Option (Filter Condition)) : Option (List (Stored F) × List (Stored F)) :=
  client { query := .dense vec.1, limit := limit, filter := flt, params := params }
    { query := .bm25 vec.2, limit := limit, filter := flt, params := none }

/-- One leg of `_prefetch_leg_points`. -/
def prefetchLeg (client : Client F K D S) (flt fallback : Option (Filter Condition)) (limit : Nat)
    (params : Option (SearchParams K)) (vec : D × S) : Option (LegPoints F) := do
  let (dense, sparse) ← ask client limit params vec flt
  if needsFilterFallback dense sparse flt fallback then
    let (dense, sparse) ← ask client limit params vec fallback
    return { dense := dense, sparse := sparse, retried := true }
  else return { dense := dense, sparse := sparse, retried := false }

/-- `_prefetch_leg_points` -/
def prefetchLegPoints (client : Client F K D S) (legVecs : List (D × S))
    (flt fallback : Option (Filter Condition)) (limit : Nat) (params : Option (SearchParams K)) :
    Option (List (LegPoints F)) :=
  legVecs.mapM (prefetchLeg client flt fallback limit params)

/-- `leg_vecs` -/
def embedLegs (embedder : Embedder D S) (legs : List Text) : Option (List (D × S)) :=
  legs.mapM fun leg => do return (← embedder.denseQuery leg, ← embedder.sparseQuery leg)

end

/-! ## The search -/

section

variable {K : Type} [Field K] [LinearOrder K]

/-- `scores` of `merge_split_hits`. -/
def mergedScores (k : Nat) (weighted : List (K × List (SearchHit K))) : List (Text × K) :=
  weighted.foldl (fun scores side => side.2.zipIdx.foldl (fun scores e =>
    addScore scores e.1.chunkId (side.1 / ((k + e.2 + 1 : Nat) : K))) scores) []

/-- `merge_split_hits`; `none` where a list has no weight. -/
def mergeSplitHits (lists : List (List (SearchHit K))) (weights : K × K) (k limit : Nat) :
    Option (List (SearchHit K)) :=
  match lists with
  | [first, second] =>
    some (((descending (mergedScores k [(weights.1, first), (weights.2, second)])).take limit).filterMap
      fun e => (Dict.get (firstSeen lists) e.1).map (·.withScore e.2))
  | _ => none

/-- `SPLIT_MERGE_DIAGNOSTIC` -/
def splitMergeDiagnostic : K × K := (((2 : Nat) : K), 1)

/-- The fused lists as one. -/
def mergeLegs (mode : Mode) (lists : List (List (SearchHit K))) (k limit : Nat) :
    Option (List (SearchHit K)) :=
  match mode with
  | .single => lists.head?
  | .comparative => interleaveSplitHits lists k limit
  | .diagnostic => mergeSplitHits lists splitMergeDiagnostic k limit

variable {F D S : Type} (P : Parts F K)

/-- `fused_lists`, merged; `ranks` are the weights and the entry ids of the legs. -/
def fuseLegs (mode : Mode) (legs : List (LegPoints F)) (ranks : List ((K × K) × List Text))
    (k limit : Nat) (boosts : List (Text × K)) : Option (List (SearchHit K)) :=
  mergeLegs mode ((legs.zip ranks).map fun (leg, weights, entryIds) =>
    rrfFuse P.readers (leg.dense.map (·.toScoredPoint)) (leg.sparse.map (·.toScoredPoint)) weights k
      limit boosts entryIds) k limit

/-- `leg_weights` and `leg_entry_ids` -/
def legRanks (settings : Option (SearchSettings K)) (ids : QueryIdentifiers)
    (paths : List Text × Mode) : List ((K × K) × List Text) :=
  if paths.2 = .single then [((rankingParams settings ids.hasIdentifiers).weights, ids.messageIds)]
  else
    paths.1.map fun sub =>
      let subIds := parseQuery P.chars sub
      ((rankingParams settings subIds.hasIdentifiers).weights, subIds.messageIds)

/-- What a search has prefetched. -/
structure Prefetched (F K D S : Type) where
  paths : List Text × Mode
  active : Option (Reranker K)
  vecs : List (D × S)
  legs : List (LegPoints F)

/-- `async_search` as far as the store. -/
def prefetch (client : Client F K D S) (embedder : Embedder D S) (query : Text)
    (product version : Option Text) (settings : Option (SearchSettings K))
    (reranker : Option (Reranker K)) : Option (Prefetched F K D S) := do
  let ids := parseQuery P.chars query
  let filters := queryFilters ids product version
  let active ← resolveActiveReranker P settings reranker query ids.hasIdentifiers
  let paths ← splitPathsFor P settings query
  let vecs ← embedLegs embedder (effectiveLegs P settings query paths)
  let legs ← prefetchLegPoints client vecs filters.1 filters.2
    (prefetchLimitFor settings active.isSome) (denseSearchParams settings)
  return { paths := paths, active := active, vecs := vecs, legs := legs }

/-- `fused`, reranked if there is a reranker. -/
def rankLegs (query : Text) (settings : Option (SearchSettings K)) (limit : Nat)
    (pre : Prefetched F K D S) : Option (List (SearchHit K)) :=
  let ids := parseQuery P.chars query
  let fuse := fun limit => fuseLegs P pre.paths.2 pre.legs (legRanks P settings ids pre.paths)
    (rankingParams settings ids.hasIdentifiers).k limit (typeBoosts settings)
  match pre.active with
  | some rerank => do
    let fused ← fuse (settings.elim 50 (·.rerankCandidates))
    (rerankCandidates rerank (effectiveQuery P settings query) fused none
      (settings.elim 1 (·.rerankFusionAlpha))).toOption
  | none => fuse (max (limit * 3) 24)

/-- `async_search`, less its timings. -/
def asyncSearch (client : Client F K D S) (embedder : Embedder D S) (query : Text)
    (product version : Option Text) (limit : Nat) (settings : Option (SearchSettings K))
    (reranker : Option (Reranker K)) : Option (List (SearchHit K) × Text) := do
  let pre ← prefetch P client embedder query product version settings reranker
  let fused ← rankLegs P query settings limit pre
  let ids := parseQuery P.chars query
  let params := rankingParams settings ids.hasIdentifiers
  return (diversifyHits fused limit params.maxPerPage params.maxPerDoc, queryKind ids)

end

/-! ## Where hits come from -/

section

variable {F K : Type}

/-- The hit has what its point has. -/
structure IsHitOf (h : SearchHit K) (p : Stored F) : Prop where
  chunkId : h.chunkId = p.id
  product : h.product = p.payload.product
  version : h.version = p.payload.version
  messageIds : h.messageIds = p.payload.messageIds

theorem IsHitOf.withScore {h : SearchHit K} {p : Stored F} (hp : IsHitOf h p) (score : K) :
    IsHitOf (h.withScore score) p := ⟨hp.chunkId, hp.product, hp.version, hp.messageIds⟩

theorem IsHitOf.withRerank {h : SearchHit K} {p : Stored F} (hp : IsHitOf h p) (ce : K) :
    IsHitOf (h.withRerank ce) p := ⟨hp.chunkId, hp.product, hp.version, hp.messageIds⟩

/-- The hit is one of a leg's points. -/
def Stems (legs : List (LegPoints F)) (h : SearchHit K) : Prop :=
  ∃ leg ∈ legs, ∃ p ∈ leg.points, IsHitOf h p

variable [Field K] [LinearOrder K]

theorem mem_mergeSplitHits {lists : List (List (SearchHit K))} {weights : K × K} {k limit : Nat}
    {result : List (SearchHit K)} (h : mergeSplitHits lists weights k limit = some result) :
    ∀ x ∈ result, ∃ hit ∈ lists.flatten, x = hit.withScore x.score := by
  unfold mergeSplitHits at h
  split at h
  · intro x hx
    rw [← Option.some.inj h] at hx
    obtain ⟨e, -, he⟩ := List.mem_filterMap.mp hx
    obtain ⟨hit, hhit, rfl⟩ := Option.map_eq_some_iff.mp he
    exact ⟨hit, (firstSeen_get hhit).1, rfl⟩
  · cases h

/-- However the legs are merged, a hit is one of theirs with another score. -/
theorem mem_mergeLegs {mode : Mode} {lists : List (List (SearchHit K))} {k limit : Nat}
    {result : List (SearchHit K)} (h : mergeLegs mode lists k limit = some result) :
    ∀ x ∈ result, ∃ hit ∈ lists.flatten, x = hit.withScore x.score := by
  cases mode with
  | single =>
    intro x hx
    exact ⟨x, List.mem_flatten.mpr ⟨result, List.mem_of_head? h, hx⟩, rfl⟩
  | comparative => exact mem_interleaveSplitHits h
  | diagnostic => exact mem_mergeSplitHits h

variable {P : Parts F K} {settings : Option (SearchSettings K)} {query : Text}

theorem fuseLegs_stems {mode : Mode} {legs : List (LegPoints F)}
    {ranks : List ((K × K) × List Text)} {k limit : Nat} {boosts : List (Text × K)}
    {fused : List (SearchHit K)} (h : fuseLegs P mode legs ranks k limit boosts = some fused) :
    ∀ x ∈ fused, Stems legs x := by
  intro x hx
  obtain ⟨hit, hhit, he⟩ := mem_mergeLegs h x hx
  obtain ⟨hits, hhits, hhit⟩ := List.mem_flatten.mp hhit
  obtain ⟨⟨leg, weights, entryIds⟩, hleg, rfl⟩ := List.mem_map.mp hhits
  obtain ⟨point, hpoint, hstem⟩ := rrfFuse_stems P.readers hhit
  rw [← List.map_append] at hpoint
  obtain ⟨p, hp, rfl⟩ := List.mem_map.mp hpoint
  refine ⟨leg, (List.of_mem_zip hleg).1, p, hp, ?_⟩
  rw [he, hstem]
  exact ⟨rfl, rfl, rfl, rfl⟩

theorem rankLegs_stems {D S : Type} {limit : Nat} {pre : Prefetched F K D S}
    {fused : List (SearchHit K)} (h : rankLegs P query settings limit pre = some fused) :
    ∀ x ∈ fused, Stems pre.legs x := by
  unfold rankLegs at h
  dsimp only at h
  split at h
  · obtain ⟨candidates, hcandidates, hranked⟩ := Option.bind_eq_some_iff.mp h
    cases hrerank : rerankCandidates _ (effectiveQuery P settings query) candidates none
        (settings.elim 1 (·.rerankFusionAlpha)) with
    | error e =>
      rw [hrerank] at hranked
      cases hranked
    | ok ranked =>
    rw [hrerank] at hranked
    obtain rfl := Option.some.inj hranked
    intro x hx
    obtain ⟨cand, hcand, ce, rfl⟩ := mem_rerankCandidates hrerank x hx
    obtain ⟨leg, hleg, p, hp, hit⟩ := fuseLegs_stems hcandidates cand hcand
    exact ⟨leg, hleg, p, hp, hit.withRerank ce⟩
  · exact fuseLegs_stems h

/-- A search shows points of its legs. -/
theorem asyncSearch_stems {D S : Type} {client : Client F K D S} {embedder : Embedder D S}
    {product version : Option Text} {limit : Nat} {reranker : Option (Reranker K)}
    {result : List (SearchHit K) × Text}
    (h : asyncSearch P client embedder query product version limit settings reranker = some result) :
    ∃ pre, prefetch P client embedder query product version settings reranker = some pre ∧
      ∀ x ∈ result.1, Stems pre.legs x := by
  obtain ⟨pre, hpre, h⟩ := Option.bind_eq_some_iff.mp h
  obtain ⟨fused, hfused, h⟩ := Option.bind_eq_some_iff.mp h
  obtain rfl := Option.some.inj h
  exact ⟨pre, hpre, fun x hx => rankLegs_stems hfused x (diversifyHits_mem hx)⟩

end

/-! ## The scope of a leg -/

section

variable {F K D S : Type} {client : Client F K D S} {collection : List (Stored F)}
  {reaches : QueryVector D S → Stored F → Prop}

/-- The filter is given up only where no point the leg's queries reach passes it. -/
def KeptWherePossible (collection : List (Stored F)) (reaches : QueryVector D S → Stored F → Prop)
    (flt : Option (Filter Condition)) (vec : D × S) (leg : LegPoints F) : Prop :=
  ∀ p ∈ leg.points, accepts flt p.values = false →
    ∀ q ∈ collection, reaches (.dense vec.1) q ∨ reaches (.bm25 vec.2) q →
      accepts flt q.values = false

/-- What holds of the points of a leg. -/
structure LegScoped (collection : List (Stored F)) (reaches : QueryVector D S → Stored F → Prop)
    (flt fallback : Option (Filter Condition)) (vec : D × S) (leg : LegPoints F) : Prop where
  stored : ∀ p ∈ leg.points, p ∈ collection
  filtered : ∀ p ∈ leg.points, accepts flt p.values = true ∨ accepts fallback p.values = true
  kept : KeptWherePossible collection reaches flt vec leg

/-- Every point of a batch is stored and passes the filter. -/
theorem ask_filtered (hclient : client.Lawful collection reaches) {limit : Nat}
    {params : Option (SearchParams K)} {vec : D × S} {flt : Option (Filter Condition)}
    {points : List (Stored F) × List (Stored F)}
    (h : ask client limit params vec flt = some points) :
    ∀ p ∈ points.1 ++ points.2, p ∈ collection ∧ accepts flt p.values = true := by
  obtain ⟨hdense, hsparse⟩ := hclient _ _ _ h
  intro p hp
  rcases List.mem_append.mp hp with hp | hp
  · exact ⟨hdense.stored p hp, hdense.filtered p hp⟩
  · exact ⟨hsparse.stored p hp, hsparse.filtered p hp⟩

/-- A batch that comes back empty reaches nothing under its filter. -/
theorem ask_empty (hclient : client.Lawful collection reaches) {limit : Nat} (hlimit : 0 < limit)
    {params : Option (SearchParams K)} {vec : D × S} {flt : Option (Filter Condition)}
    (h : ask client limit params vec flt = some ([], [])) :
    ∀ q ∈ collection, reaches (.dense vec.1) q ∨ reaches (.bm25 vec.2) q →
      accepts flt q.values = false := by
  obtain ⟨hdense, hsparse⟩ := hclient _ _ _ h
  intro q hq hreach
  rw [← Bool.not_eq_true]
  intro hpass
  rcases hreach with hreach | hreach
  · exact hdense.reached hlimit q hq hreach hpass rfl
  · exact hsparse.reached hlimit q hq hreach hpass rfl

theorem needsFilterFallback_empty {dense sparse : List (Stored F)}
    {flt fallback : Option (Filter Condition)}
    (h : needsFilterFallback dense sparse flt fallback = true) : dense = [] ∧ sparse = [] := by
  unfold needsFilterFallback at h
  split at h
  · next hempty => exact ⟨List.isEmpty_iff.mp hempty.2.1, List.isEmpty_iff.mp hempty.2.2⟩
  · cases h

theorem prefetchLeg_scoped (hclient : client.Lawful collection reaches)
    {flt fallback : Option (Filter Condition)} {limit : Nat} (hlimit : 0 < limit)
    {params : Option (SearchParams K)} {vec : D × S} {leg : LegPoints F}
    (h : prefetchLeg client flt fallback limit params vec = some leg) :
    LegScoped collection reaches flt fallback vec leg := by
  obtain ⟨⟨dense, sparse⟩, hfirst, h⟩ := Option.bind_eq_some_iff.mp h
  dsimp only at h
  split at h
  · next hneeds =>
    obtain ⟨rfl, rfl⟩ := needsFilterFallback_empty hneeds
    obtain ⟨⟨dense, sparse⟩, hsecond, h⟩ := Option.bind_eq_some_iff.mp h
    obtain rfl := Option.some.inj h
    have hpoints := ask_filtered hclient hsecond
    exact
      { stored := fun p hp => (hpoints p hp).1
        filtered := fun p hp => .inr (hpoints p hp).2
        kept := fun _ _ _ => ask_empty hclient hlimit hfirst }
  · obtain rfl := Option.some.inj h
    have hpoints := ask_filtered hclient hfirst
    refine
      { stored := fun p hp => (hpoints p hp).1
        filtered := fun p hp => .inl (hpoints p hp).2
        kept := fun p hp hnot => ?_ }
    rw [(hpoints p hp).2] at hnot
    cases hnot

/-- Every leg is prefetched in scope. -/
theorem prefetchLegPoints_scoped (hclient : client.Lawful collection reaches)
    {flt fallback : Option (Filter Condition)} {limit : Nat} (hlimit : 0 < limit)
    {params : Option (SearchParams K)} {vecs : List (D × S)} {legs : List (LegPoints F)}
    (h : prefetchLegPoints client vecs flt fallback limit params = some legs) :
    List.Forall₂ (LegScoped collection reaches flt fallback) vecs legs :=
  (mapM_eq_some_iff.mp h).imp fun _ _ hleg => prefetchLeg_scoped hclient hlimit hleg

end

/-! ## A search without settings -/

section

variable {F K D S : Type} [Field K] [LinearOrder K] {P : Parts F K}

/-- Without settings a search has one leg and no reranker. -/
theorem asyncSearch_plain {client : Client F K D S} {embedder : Embedder D S} {query : Text} {d : D}
    {s : S} (hdense : embedder.denseQuery query = some d)
    (hsparse : embedder.sparseQuery query = some s) (product version : Option Text) (limit : Nat) :
    asyncSearch P client embedder query product version limit none none =
      (prefetchLeg client (queryFilters (parseQuery P.chars query) product version).1
        (queryFilters (parseQuery P.chars query) product version).2 prefetchLimit none (d, s)).map
          fun leg => (diversifyHits (rrfFuse P.readers (leg.dense.map (·.toScoredPoint))
            (leg.sparse.map (·.toScoredPoint))
            (rankingParams none (parseQuery P.chars query).hasIdentifiers).weights 60
            (max (limit * 3) 24) [] (parseQuery P.chars query).messageIds) limit 1 3,
            queryKind (parseQuery P.chars query)) := by
  have hactive : ∀ b, resolveActiveReranker P none none query b = some none := by
    intro b
    simp [resolveActiveReranker]
  have hembed : embedLegs embedder
      (effectiveLegs P (none : Option (SearchSettings K)) query ([query], .single)) =
        some [(d, s)] := by
    simp [embedLegs, effectiveLegs, effectiveQuery, hdense, hsparse]
  unfold asyncSearch prefetch
  simp only [hactive, splitPathsFor, Option.bind_eq_bind, Option.bind_some, hembed]
  cases hleg : prefetchLeg client (queryFilters (parseQuery P.chars query) product version).1
      (queryFilters (parseQuery P.chars query) product version).2 prefetchLimit none (d, s) with
  | none => simp [prefetchLegPoints, prefetchLimitFor, denseSearchParams, hleg]
  | some leg =>
    simp [prefetchLegPoints, prefetchLimitFor, denseSearchParams, hleg, rankLegs, fuseLegs, legRanks,
      mergeLegs, rankingParams, typeBoosts]

/-- A store that answers with the first points its filter accepts. -/
def listStore (collection : List (Stored F)) : Client F K D S := fun first second =>
  let answer := fun request : QueryRequest D S K =>
    (collection.filter fun p => accepts request.filter p.values).take request.limit
  some (answer first, answer second)

omit [Field K] [LinearOrder K] in
theorem listStore_lawful (collection : List (Stored F)) (reaches : QueryVector D S → Stored F → Prop) :
    (listStore collection : Client F K D S).Lawful collection reaches := by
  have hanswers : ∀ request : QueryRequest D S K, Answers collection reaches request
      ((collection.filter fun p => accepts request.filter p.values).take request.limit) := by
    refine fun request =>
      { stored := fun p hp => List.mem_of_mem_filter (List.mem_of_mem_take hp)
        filtered := fun p hp => (List.mem_filter.mp (List.mem_of_mem_take hp)).2
        reached := fun hlimit p hp _ hpass hnil => ?_ }
    rcases List.take_eq_nil_iff.mp hnil with hzero | hempty
    · omega
    · have hmem : p ∈ collection.filter fun p => accepts request.filter p.values :=
        List.mem_filter.mpr ⟨hp, hpass⟩
      rw [hempty] at hmem
      cases hmem
  rintro first second points h
  obtain rfl := Option.some.inj h
  exact ⟨hanswers first, hanswers second⟩

theorem rrfFuse_ne_nil (R : Readers F) {dense sparse : List (ScoredPoint F)} {weights : K × K}
    {k limit : Nat} {boosts : List (Text × K)} {entryIds : List Text} (hlimit : 0 < limit)
    (hne : dense ≠ []) : rrfFuse R dense sparse weights k limit boosts entryIds ≠ [] := by
  intro hnil
  have hids := rrfFuse_ids R dense sparse weights k limit boosts entryIds
  rw [hnil, List.map_nil, eq_comm, List.take_eq_nil_iff] at hids
  have hperm := fusedOrder_ids R dense sparse weights k boosts entryIds
  rw [hids.resolve_left (by omega), List.nil_perm, List.dedup_eq_nil, List.map_eq_nil_iff,
    List.append_eq_nil_iff] at hperm
  exact hne hperm.1

theorem diversifyHits_ne_nil {hits : List (SearchHit K)} {limit maxPerPage maxPerDoc : Nat}
    (hlimit : 0 < limit) (hne : hits ≠ []) :
    diversifyHits hits limit maxPerPage maxPerDoc ≠ [] := by
  rw [diversify_eq_take hits maxPerPage maxPerDoc hlimit]
  intro hnil
  rcases List.take_eq_nil_iff.mp hnil with hzero | hempty
  · omega
  · have hperm := fullOrder_perm hits maxPerPage maxPerDoc
    rw [hempty, List.nil_perm] at hperm
    exact hne hperm

/-- A leg with points shows something. -/
theorem asyncSearch_shows {client : Client F K D S} {embedder : Embedder D S} {query : Text} {d : D}
    {s : S} (hdense : embedder.denseQuery query = some d)
    (hsparse : embedder.sparseQuery query = some s) {product version : Option Text} {limit : Nat}
    (hlimit : 0 < limit) (hleg : (prefetchLeg client
      (queryFilters (parseQuery P.chars query) product version).1
      (queryFilters (parseQuery P.chars query) product version).2 prefetchLimit none (d, s)).any
        (fun leg => !leg.dense.isEmpty) = true) :
    ∃ hits kind, asyncSearch P client embedder query product version limit none none =
      some (hits, kind) ∧ hits ≠ [] := by
  rw [asyncSearch_plain hdense hsparse]
  generalize prefetchLeg client _ _ _ _ _ = leg at hleg
  cases leg with
  | none => cases hleg
  | some leg =>
    refine ⟨_, _, rfl, diversifyHits_ne_nil hlimit (rrfFuse_ne_nil P.readers (by omega) ?_)⟩
    simpa using hleg

end

/-! ## The scope of a search -/

section

variable {F K D S : Type} [Field K]

theorem prefetchLimitFor_pos (settings : Option (SearchSettings K)) (rerankActive : Bool) :
    0 < prefetchLimitFor settings rerankActive := by
  unfold prefetchLimitFor
  split
  · next s =>
    have hbounds := s.rerankCandidates_bounds
    split
    · omega
    · decide
  · decide

/-- The hit stands for the point, has the scope asked for, and is about no other codes. -/
structure InScope (ids : QueryIdentifiers) (product version : Option Text) (h : SearchHit K)
    (p : Stored F) : Prop where
  isHit : IsHitOf h p
  product_asked : ∀ asked, product = some asked → asked ≠ [] → h.product = some asked
  version_asked : ∀ asked, version = some asked → asked ≠ [] → h.version = some asked
  messageIds_named : ids.messageIds ≠ [] →
    h.messageIds = [] ∨ ∃ code ∈ h.messageIds, code ∈ ids.messageIds
  systemCodes_named : ids.systemCodes ≠ [] →
    p.systemCodes = [] ∨ ∃ code ∈ p.systemCodes, code ∈ ids.systemCodes

omit [Field K] in
/-- A point that passes either filter is in scope. -/
theorem inScope_of_accepts {ids : QueryIdentifiers} {product version : Option Text}
    {h : SearchHit K} {p : Stored F} (hit : IsHitOf h p)
    (hp : accepts (queryFilters ids product version).1 p.values = true ∨
      accepts (queryFilters ids product version).2 p.values = true) :
    InScope ids product version h p := by
  have hfacts : (Asked p.values .product product ∧ Asked p.values .version version) ∧
      Compatible p.values .messageIds ids.messageIds ∧
      Compatible p.values .systemCodes ids.systemCodes := by
    rcases hp with hp | hp
    · obtain ⟨hscope, -, hmessages, -, hcodes⟩ := buildFilter_accepts.mp hp
      exact ⟨hscope, hmessages.compatible, hcodes.compatible⟩
    · exact buildFallbackFilter_accepts.mp hp
  obtain ⟨⟨hproduct, hversion⟩, hmessages, hcodes⟩ := hfacts
  refine
    { isHit := hit
      product_asked := fun asked he hne => ?_
      version_asked := fun asked he hne => ?_
      messageIds_named := fun hne => ?_
      systemCodes_named := hcodes }
  · rw [hit.product]
    exact Option.mem_toList.mp (hproduct asked he hne)
  · rw [hit.version]
    exact Option.mem_toList.mp (hversion asked he hne)
  · rw [hit.messageIds]
    exact hmessages hne

variable [LinearOrder K] {P : Parts F K}

omit [LinearOrder K] in
theorem prefetch_scoped {client : Client F K D S} {collection : List (Stored F)}
    {reaches : QueryVector D S → Stored F → Prop} (hclient : client.Lawful collection reaches)
    {embedder : Embedder D S} {query : Text} {product version : Option Text}
    {settings : Option (SearchSettings K)} {reranker : Option (Reranker K)} {pre : Prefetched F K D S}
    (h : prefetch P client embedder query product version settings reranker = some pre) :
    List.Forall₂ (LegScoped collection reaches
      (queryFilters (parseQuery P.chars query) product version).1
      (queryFilters (parseQuery P.chars query) product version).2) pre.vecs pre.legs := by
  obtain ⟨active, -, h⟩ := Option.bind_eq_some_iff.mp h
  obtain ⟨paths, -, h⟩ := Option.bind_eq_some_iff.mp h
  obtain ⟨vecs, -, h⟩ := Option.bind_eq_some_iff.mp h
  obtain ⟨legs, hlegs, h⟩ := Option.bind_eq_some_iff.mp h
  obtain rfl := Option.some.inj h
  exact prefetchLegPoints_scoped hclient (prefetchLimitFor_pos settings active.isSome) hlegs

/-- No hit of a search is out of scope or about other codes, and a leg gives the filter up only where
nothing it reaches passes. -/
theorem asyncSearch_scoped {client : Client F K D S} {collection : List (Stored F)}
    {reaches : QueryVector D S → Stored F → Prop} (hclient : client.Lawful collection reaches)
    {embedder : Embedder D S} {query : Text} {product version : Option Text} {limit : Nat}
    {settings : Option (SearchSettings K)} {reranker : Option (Reranker K)}
    {hits : List (SearchHit K)} {kind : Text}
    (hrun : asyncSearch P client embedder query product version limit settings reranker =
      some (hits, kind)) :
    ∃ pre, prefetch P client embedder query product version settings reranker = some pre ∧
      (∀ h ∈ hits, ∃ leg ∈ pre.legs, ∃ p ∈ leg.points, p ∈ collection ∧
        InScope (parseQuery P.chars query) product version h p) ∧
      List.Forall₂ (KeptWherePossible collection reaches
        (queryFilters (parseQuery P.chars query) product version).1) pre.vecs pre.legs := by
  obtain ⟨pre, hpre, hstems⟩ := asyncSearch_stems hrun
  have hscoped := prefetch_scoped hclient hpre
  refine ⟨pre, hpre, ?_⟩
  refine ⟨fun h hh => ?_, hscoped.imp fun _ _ hleg => hleg.kept⟩
  obtain ⟨leg, hleg, p, hp, hit⟩ := hstems h hh
  obtain ⟨vec, -, hone⟩ := forall₂_right hscoped hleg
  exact ⟨leg, hleg, p, hp, hone.stored p hp, inScope_of_accepts hit (hone.filtered p hp)⟩

end

/-! ## A collection -/

def plainParts : Parts Unit ℚ where
  readers :=
    { chars := asciiTables
      cites := Agent.asciiCites
      numbers := ⟨fun _ => true, fun _ => none, fun _ => none⟩
      str := fun _ => []
      sameLetter := fun a b => a.toLower = b.toLower }
  screen := Screen.plainData
  glossary := [("IPL".toList, "Initial Program Load".toList)]
  hashReranker _ texts := some (texts.map fun _ => 0)
  httpReranker _ _ _ := none

def plainEmbedder : Embedder Unit Unit := ⟨fun _ => some (), fun _ => some ()⟩

/-- A chunk of a z/OS manual about message ids. -/
def zosPoint (id doc : String) (codes : List String) : Stored Unit where
  id := id.toList
  payload :=
    { docId := .str doc.toList
      text := .str id.toList
      product := some "z/OS".toList
      messageIds := codes.map String.toList }

/-- A chunk about another message, and one about none. -/
def zosPoints : List (Stored Unit) :=
  [zosPoint "c1" "SA22-7630" ["IEF404I"], zosPoint "c2" "SA22-7631" []]

/-- The filter of the query finds nothing, and the retry the chunk without messages. -/
theorem zosPoints_scoped : ∃ hits kind,
    asyncSearch plainParts (listStore zosPoints) plainEmbedder "IEF450I".toList (some "z/OS".toList)
        none 8 none none = some (hits, kind) ∧ hits ≠ [] ∧
      ∃ pre, prefetch plainParts (listStore zosPoints) plainEmbedder "IEF450I".toList
          (some "z/OS".toList) none none none = some pre ∧
        (∀ h ∈ hits, ∃ leg ∈ pre.legs, ∃ p ∈ leg.points, p ∈ zosPoints ∧
          InScope (parseQuery plainParts.chars "IEF450I".toList) (some "z/OS".toList) none h p) ∧
        List.Forall₂ (KeptWherePossible zosPoints (fun _ _ => True)
          (queryFilters (parseQuery plainParts.chars "IEF450I".toList) (some "z/OS".toList) none).1)
          pre.vecs pre.legs := by
  obtain ⟨hits, kind, hrun, hne⟩ := @asyncSearch_shows Unit ℚ Unit Unit _ _ plainParts
    (listStore zosPoints) plainEmbedder "IEF450I".toList () () rfl rfl (some "z/OS".toList) none 8
    (by decide) (by decide +kernel)
  exact ⟨hits, kind, hrun, hne,
    asyncSearch_scoped (listStore_lawful zosPoints fun _ _ => True) hrun⟩

/-- A product that is given but empty is no part of the filter. -/
theorem empty_product : ∃ hits kind,
    asyncSearch plainParts (listStore zosPoints) plainEmbedder "restart".toList (some []) none 8 none
        none = some (hits, kind) ∧
      (listStore zosPoints : Client Unit ℚ Unit Unit).Lawful zosPoints (fun _ _ => True) ∧
      ∃ h ∈ hits, h.product ≠ some [] := by
  obtain ⟨hits, kind, hrun, hne⟩ := @asyncSearch_shows Unit ℚ Unit Unit _ _ plainParts
    (listStore zosPoints) plainEmbedder "restart".toList () () rfl rfl (some []) none 8
    (by decide) (by decide +kernel)
  refine ⟨hits, kind, hrun, listStore_lawful zosPoints _, ?_⟩
  obtain ⟨h, hh⟩ := List.exists_mem_of_ne_nil hits hne
  obtain ⟨pre, hpre, hstems⟩ := asyncSearch_stems hrun
  obtain ⟨leg, hleg, p, hp, hit⟩ := hstems h hh
  obtain ⟨vec, -, hscoped⟩ :=
    forall₂_right (prefetch_scoped (listStore_lawful zosPoints fun _ _ => True) hpre) hleg
  have hproduct : ∀ p ∈ zosPoints, p.payload.product ≠ some [] := by
    intro p hp
    rcases List.mem_pair.mp hp with rfl | rfl <;> decide
  refine ⟨h, hh, ?_⟩
  rw [hit.product]
  exact hproduct p (hscoped.stored p hp)

end MainframeRag.Retrieve
