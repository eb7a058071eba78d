import MainframeRag.Lib.Selection
import MainframeRag.Retrieve.Search
import MainframeRag.Retrieve.SplitLegs
import Mathlib

/-!
# What a search shows

Results about `async_search`: every step behind the store selects among what the legs brought, so a
search shows a chunk at most once, and all of them where they have room (`asyncSearch_shown`). It fails
only where a service it calls does (`asyncSearch_answers`).
-/

namespace MainframeRag.Retrieve

open PyText PyJson Fallible Selection
open Split (Mode splitQuery)

/-! ## One leg -/

section

variable {F K : Type}

def LegPoints.ids (leg : LegPoints F) : List Text := leg.points.map fun p => p.id

/-- A fused leg shows each of its chunks once. -/
theorem rrfFuse_selects [Field K] [LinearOrder K] (R : Readers F) (leg : LegPoints F) (weights : K × K)
    (k limit : Nat) (boosts : List (Text × K)) (entryIds : List Text) :
    Selects leg.ids limit ((rrfFuse R (leg.dense.map (·.toScoredPoint))
      (leg.sparse.map (·.toScoredPoint)) weights k limit boosts entryIds).map SearchHit.chunkId) := by
  rw [rrfFuse_ids]
  refine Selects.of_take ((fusedOrder_ids R _ _ weights k boosts entryIds).trans (.of_eq ?_)) limit
  rw [← List.map_append, List.map_map]
  rfl

theorem rrfFuse_nodup [Field K] [LinearOrder K] (R : Readers F) (dense sparse : List (ScoredPoint F))
    (weights : K × K) (k limit : Nat) (boosts : List (Text × K)) (entryIds : List Text) :
    ((rrfFuse R dense sparse weights k limit boosts entryIds).map SearchHit.chunkId).Nodup := by
  rw [rrfFuse_ids]
  exact ((fusedOrder_ids R dense sparse weights k boosts entryIds).nodup_iff.mpr
    (List.nodup_dedup _)).sublist (List.take_sublist _ _)

end

/-! ## The merge -/

section

variable {K : Type} [Field K]

/-- The loop of `merge_split_hits` over one list. -/
theorem keys_sideScores (weight : K) (k : Nat) (hits : List (SearchHit K)) (scores : List (Text × K)) :
    (hits.zipIdx.foldl (fun scores e =>
      addScore scores e.1.chunkId (weight / ((k + e.2 + 1 : Nat) : K))) scores).map Prod.fst =
        scores.map Prod.fst ++
          (Ranking.firsts SearchHit.chunkId (scores.map Prod.fst) hits).map SearchHit.chunkId := by
  have hfold := Dict.keys_foldl (fun d (e : SearchHit K × Nat) =>
    Dict.keys_put d e.1.chunkId ((Dict.get d e.1.chunkId).getD 0 +
      weight / ((k + e.2 + 1 : Nat) : K))) hits.zipIdx scores
  refine hfold.trans ?_
  congr 1
  have hfirsts : (Ranking.firsts (fun e : SearchHit K × Nat => e.1.chunkId) (scores.map Prod.fst)
      hits.zipIdx).map Prod.fst =
        Ranking.firsts SearchHit.chunkId (scores.map Prod.fst) (hits.zipIdx.map Prod.fst) :=
    Ranking.map_firsts Prod.fst hits.zipIdx _
  rw [List.zipIdx_map_fst] at hfirsts
  rw [← hfirsts, List.map_map]
  rfl

theorem mergedScores_ids (k : Nat) (weights : K × K) (first second : List (SearchHit K)) :
    ((mergedScores k [(weights.1, first), (weights.2, second)]).map Prod.fst).Perm
      ((first ++ second).map SearchHit.chunkId).dedup := by
  have hkeys : (mergedScores k [(weights.1, first), (weights.2, second)]).map Prod.fst =
      (Ranking.firsts SearchHit.chunkId [] (first ++ second)).map SearchHit.chunkId := by
    unfold mergedScores
    rw [List.foldl_cons, List.foldl_cons, List.foldl_nil, keys_sideScores, keys_sideScores,
      List.map_nil, List.nil_append, Ranking.firsts_append, List.map_append]
    congr 2
    refine Ranking.firsts_congr fun key => ?_
    rw [List.append_nil]
    constructor
    · exact fun h => ((Ranking.firsts_sublist []).map SearchHit.chunkId).subset h
    · intro h
      obtain ⟨hit, hhit, rfl⟩ := List.mem_map.mp h
      exact Ranking.mem_firsts_key hhit List.not_mem_nil
  rw [hkeys]
  exact Ranking.firsts_keys_perm _

variable [LinearOrder K]

/-- What `lists` show, each chunk once. -/
structure MergedIds (lists : List (List (SearchHit K))) (limit : Nat) (result : List (SearchHit K)) :
    Prop where
  distinct : (result.map SearchHit.chunkId).Nodup
  selects : Selects (lists.flatten.map SearchHit.chunkId) limit (result.map SearchHit.chunkId)

theorem mergeSplitHits_ids {lists : List (List (SearchHit K))} {weights : K × K} {k limit : Nat}
    {result : List (SearchHit K)} (h : mergeSplitHits lists weights k limit = some result) :
    MergedIds lists limit result := by
  unfold mergeSplitHits at h
  split at h
  · next first second =>
    obtain rfl := Option.some.inj h
    have hperm : ((descending (mergedScores k [(weights.1, first), (weights.2, second)])).map
        Prod.fst).Perm ([first, second].flatten.map SearchHit.chunkId).dedup := by
      refine ((descending_perm _).map Prod.fst).trans ((mergedScores_ids k weights first second).trans ?_)
      simp
    have hids : ((((descending (mergedScores k [(weights.1, first), (weights.2, second)])).take
        limit).filterMap fun e => (Dict.get (firstSeen [first, second]) e.1).map (·.withScore e.2)).map
          SearchHit.chunkId) = ((descending (mergedScores k [(weights.1, first),
            (weights.2, second)])).map Prod.fst).take limit := by
      rw [← List.map_take]
      refine filterMap_get fun e he => ?_
      rw [firstSeen_keys, (seen_perm _).mem_iff]
      exact hperm.subset (List.mem_map_of_mem (List.mem_of_mem_take he))
    refine ⟨?_, ?_⟩
    · rw [hids]
      exact (hperm.nodup_iff.mpr (List.nodup_dedup _)).sublist (List.take_sublist _ _)
    · rw [hids]
      exact Selects.of_take hperm limit
  · cases h

theorem interleaveSplitHits_ids [IsStrictOrderedRing K] {lists : List (List (SearchHit K))}
    {k limit : Nat} {result : List (SearchHit K)} (hdoc : ∀ x ∈ lists.flatten, ∀ y ∈ lists.flatten,
      x.chunkId = y.chunkId → x.docId = y.docId)
    (h : interleaveSplitHits lists k limit = some result) : MergedIds lists limit result := by
  obtain ⟨s, hs, hended⟩ := start_alternate lists
  rw [interleaveSplitHits, hs, Option.map_some, Option.some.injEq] at h
  subst h
  have hmem : ∀ x ∈ s.head.map Prod.snd, x ∈ lists.flatten := by
    intro x hx
    obtain ⟨e, he, rfl⟩ := List.mem_map.mp hx
    exact mem_of_best (hended.fair.mem he)
  have hdocs : ((s.head.map Prod.snd).map SearchHit.docId).Nodup := by
    rw [List.map_map]
    exact hended.fair.distinct
  -- a placed chunk is the only one placed of its document
  have hplaced : ((s.head.map Prod.snd).map SearchHit.chunkId).Nodup :=
    List.Nodup.map_on (fun x hx y hy hxy =>
      List.inj_on_of_nodup_map hdocs hx hy (hdoc x (hmem x hx) y (hmem y hy) hxy)) hdocs.of_map
  have hperm := order_ids (k := k) hmem hplaced
  have hids := map_scored (f := SearchHit.chunkId) (fun _ _ => rfl) k 0
    ((s.head.map Prod.snd ++ evidenceTail lists k (s.head.map Prod.snd)).take limit)
  rw [List.map_take] at hids
  refine ⟨?_, ?_⟩
  · rw [hids]
    exact (hperm.nodup_iff.mpr (List.nodup_dedup _)).sublist (List.take_sublist _ _)
  · rw [hids]
    exact Selects.of_take hperm limit

theorem mergeLegs_ids [IsStrictOrderedRing K] {mode : Mode} {lists : List (List (SearchHit K))}
    {k limit : Nat} {result : List (SearchHit K)}
    (hsingle : mode = .single → ∃ hits, lists = [hits] ∧ (hits.map SearchHit.chunkId).Nodup)
    (hdoc : ∀ x ∈ lists.flatten, ∀ y ∈ lists.flatten, x.chunkId = y.chunkId → x.docId = y.docId)
    (h : mergeLegs mode lists k limit = some result) : MergedIds lists limit result := by
  cases mode with
  | single =>
    obtain ⟨hits, rfl, hnodup⟩ := hsingle rfl
    obtain rfl := Option.some.inj h
    exact ⟨hnodup, .of_perm (by simp) limit⟩
  | comparative => exact interleaveSplitHits_ids hdoc h
  | diagnostic => exact mergeSplitHits_ids h

end

/-! ## The reranker and the caps -/

section

variable {K : Type} [Field K] [LinearOrder K]

/-- A rerank orders the candidates. -/
theorem rerankCandidates_ids {score : Text → List Text → Option (List K)} {query : Text}
    {candidates ranked : List (SearchHit K)} {alpha : K}
    (h : rerankCandidates score query candidates none alpha = .ok ranked) :
    (ranked.map SearchHit.chunkId).Perm (candidates.map SearchHit.chunkId) := by
  unfold rerankCandidates at h
  split at h
  · next hnil =>
    cases h
    rw [hnil]
  split at h
  · cases h
  split at h
  · cases h
  next hne _ scores hscores hlen =>
  cases h
  obtain ⟨sorted, hsorted, hperm, -⟩ := rerankOrder_eq candidates scores (clampAlpha alpha)
  obtain ⟨_, _, _, _, hblended, -⟩ := exists_pool hne (not_not.mp hlen)
  rw [takeTop, hsorted, List.map_map]
  refine (hperm.map _).trans (.of_eq ?_)
  rw [hblended, List.map_map]
  have hfst : (candidates.zip scores).map Prod.fst = candidates :=
    List.map_fst_zip (not_not.mp hlen).ge
  calc (candidates.zip scores).map _ = ((candidates.zip scores).map Prod.fst).map SearchHit.chunkId := by
        rw [List.map_map]
        rfl
    _ = candidates.map SearchHit.chunkId := by rw [hfst]

/-- The caps order the hits and cut them. -/
theorem diversifyHits_ids {hits : List (SearchHit K)} {limit maxPerPage maxPerDoc : Nat}
    (hlimit : 0 < limit) (hnodup : (hits.map SearchHit.chunkId).Nodup) :
    ((diversifyHits hits limit maxPerPage maxPerDoc).map SearchHit.chunkId).Nodup ∧
    (diversifyHits hits limit maxPerPage maxPerDoc).length ≤ limit ∧
    Selects (hits.map SearchHit.chunkId) limit
      ((diversifyHits hits limit maxPerPage maxPerDoc).map SearchHit.chunkId) := by
  rw [diversify_eq_take hits maxPerPage maxPerDoc hlimit]
  have hperm := (fullOrder_perm hits maxPerPage maxPerDoc).map SearchHit.chunkId
  refine ⟨?_, List.length_take_le _ _, ?_⟩
  · rw [List.map_take]
    exact (hperm.nodup_iff.mpr hnodup).sublist (List.take_sublist _ _)
  · rw [List.map_take]
    exact .of_take (hperm.trans (.of_eq hnodup.dedup.symm)) limit

end

/-! ## All legs -/

section

variable {F K D S : Type} [Field K] [LinearOrder K] {P : Parts F K}

/-- An id names one stored point. -/
theorem fused_docs {collection : List (Stored F)} (hids : (collection.map fun p => p.id).Nodup)
    {legs : List (LegPoints F)} (hstored : ∀ leg ∈ legs, ∀ p ∈ leg.points, p ∈ collection)
    {ranks : List ((K × K) × List Text)} {k limit : Nat} {boosts : List (Text × K)}
    {lists : List (List (SearchHit K))} (hlists : lists = (legs.zip ranks).map fun (leg, weights, ids) =>
      rrfFuse P.readers (leg.dense.map (·.toScoredPoint)) (leg.sparse.map (·.toScoredPoint)) weights k
        limit boosts ids) :
    ∀ x ∈ lists.flatten, ∀ y ∈ lists.flatten, x.chunkId = y.chunkId → x.docId = y.docId := by
  have hstem : ∀ x ∈ lists.flatten, ∃ p ∈ collection,
      x.chunkId = p.id ∧ x.docId = P.readers.textOr p.payload.docId [] := by
    intro x hx
    obtain ⟨hits, hhits, hx⟩ := List.mem_flatten.mp hx
    rw [hlists] at hhits
    obtain ⟨⟨leg, weights, ids⟩, hleg, rfl⟩ := List.mem_map.mp hhits
    obtain ⟨point, hpoint, he⟩ := rrfFuse_stems P.readers hx
    rw [← List.map_append] at hpoint
    obtain ⟨p, hp, rfl⟩ := List.mem_map.mp hpoint
    exact ⟨p, hstored leg (List.of_mem_zip hleg).1 p hp, by rw [he]; rfl, by rw [he]; rfl⟩
  intro x hx y hy hxy
  obtain ⟨p, hp, hpid, hpdoc⟩ := hstem x hx
  obtain ⟨q, hq, hqid, hqdoc⟩ := hstem y hy
  obtain rfl := List.inj_on_of_nodup_map hids hp hq (hpid.symm.trans (hxy.trans hqid))
  rw [hpdoc, hqdoc]

/-- Fusing and merging select among the points of the legs. -/
theorem fuseLegs_ids [IsStrictOrderedRing K] {collection : List (Stored F)}
    (hids : (collection.map fun p => p.id).Nodup) {mode : Mode} {legs : List (LegPoints F)}
    (hstored : ∀ leg ∈ legs, ∀ p ∈ leg.points, p ∈ collection) {ranks : List ((K × K) × List Text)}
    (hranks : legs.length = ranks.length) (hsingle : mode = .single → legs.length = 1) {k limit : Nat}
    {boosts : List (Text × K)} {fused : List (SearchHit K)}
    (h : fuseLegs P mode legs ranks k limit boosts = some fused) :
    (fused.map SearchHit.chunkId).Nodup ∧
      Selects (legs.flatMap LegPoints.ids) limit (fused.map SearchHit.chunkId) := by
  unfold fuseLegs at h
  generalize hlists : (legs.zip ranks).map _ = lists at h
  have hparts : List.Forall₂ (fun xs ys => Selects xs limit ys) (legs.map LegPoints.ids)
      (lists.map fun hits => hits.map SearchHit.chunkId) := by
    have hlegs : legs = (legs.zip ranks).map Prod.fst := (List.map_fst_zip hranks.le).symm
    rw [← hlists, hlegs, List.map_map, ← hlegs, List.map_map, List.forall₂_map_left_iff,
      List.forall₂_map_right_iff, List.forall₂_same]
    exact fun e _ => rrfFuse_selects P.readers e.1 e.2.1 k limit boosts e.2.2
  have hone : mode = .single → ∃ hits, lists = [hits] ∧ (hits.map SearchHit.chunkId).Nodup := by
    intro hmode
    have hlen : lists.length = 1 := by
      rw [← hlists, List.length_map, List.length_zip, ← hranks, min_self, hsingle hmode]
    obtain ⟨hits, rfl⟩ := List.length_eq_one_iff.mp hlen
    refine ⟨hits, rfl, ?_⟩
    have hhits : hits ∈ [hits] := List.mem_singleton_self hits
    rw [← hlists] at hhits
    obtain ⟨e, -, rfl⟩ := List.mem_map.mp hhits
    exact rrfFuse_nodup P.readers _ _ _ _ _ _ _
  have hmerged := mergeLegs_ids hone (fused_docs hids hstored hlists.symm) h
  refine ⟨hmerged.distinct, ?_⟩
  have hall := Selects.flatten hparts
  rw [← List.map_flatten] at hall
  have hboth := hall.trans hmerged.selects
  rwa [min_self] at hboth

/-- How many chunks have room in a search. -/
def searchRoom (settings : Option (SearchSettings K)) (active : Option (Reranker K)) (limit : Nat) :
    Nat :=
  if active.isSome then min limit (settings.elim 50 (·.rerankCandidates)) else limit

omit [LinearOrder K] in
theorem prefetch_shape {client : Client F K D S} {embedder : Embedder D S} {query : Text}
    {product version : Option Text} {settings : Option (SearchSettings K)}
    {reranker : Option (Reranker K)} {pre : Prefetched F K D S}
    (h : prefetch P client embedder query product version settings reranker = some pre) :
    pre.legs.length = (legRanks P settings (parseQuery P.chars query) pre.paths).length ∧
      (pre.paths.2 = .single → pre.legs.length = 1) := by
  obtain ⟨active, -, h⟩ := Option.bind_eq_some_iff.mp h
  obtain ⟨paths, -, h⟩ := Option.bind_eq_some_iff.mp h
  obtain ⟨vecs, hvecs, h⟩ := Option.bind_eq_some_iff.mp h
  obtain ⟨legs, hlegs, h⟩ := Option.bind_eq_some_iff.mp h
  obtain rfl := Option.some.inj h
  have hlen : legs.length = (effectiveLegs P settings query paths).length :=
    (mapM_eq_some_iff.mp hlegs).length_eq.symm.trans (mapM_eq_some_iff.mp hvecs).length_eq.symm
  dsimp only
  rw [hlen]
  unfold effectiveLegs legRanks
  split
  · exact ⟨rfl, fun _ => rfl⟩
  · next hmode =>
    rw [List.length_map, List.length_map]
    exact ⟨rfl, fun h => absurd h hmode⟩

theorem rankLegs_ids [IsStrictOrderedRing K] {collection : List (Stored F)}
    (hids : (collection.map fun p => p.id).Nodup) {query : Text}
    {settings : Option (SearchSettings K)} {limit : Nat} {pre : Prefetched F K D S}
    (hstored : ∀ leg ∈ pre.legs, ∀ p ∈ leg.points, p ∈ collection)
    (hranks : pre.legs.length = (legRanks P settings (parseQuery P.chars query) pre.paths).length)
    (hsingle : pre.paths.2 = .single → pre.legs.length = 1) {fused : List (SearchHit K)}
    (h : rankLegs P query settings limit pre = some fused) :
    (fused.map SearchHit.chunkId).Nodup ∧ Selects (pre.legs.flatMap LegPoints.ids)
      (if pre.active.isSome then settings.elim 50 (·.rerankCandidates) else max (limit * 3) 24)
      (fused.map SearchHit.chunkId) := by
  unfold rankLegs at h
  dsimp only at h
  cases hactive : pre.active with
  | none =>
    rw [hactive] at h
    exact fuseLegs_ids hids hstored hranks hsingle h
  | some rerank =>
    rw [hactive] at h
    obtain ⟨candidates, hcandidates, h⟩ := Option.bind_eq_some_iff.mp h
    obtain ⟨hnodup, hselects⟩ := fuseLegs_ids hids hstored hranks hsingle hcandidates
    cases hrerank : rerankCandidates rerank (effectiveQuery P settings query) candidates none
        (settings.elim 1 (·.rerankFusionAlpha)) with
    | error e =>
      rw [hrerank] at h
      cases h
    | ok ranked =>
      rw [hrerank] at h
      obtain rfl := Option.some.inj h
      have hperm := rerankCandidates_ids hrerank
      have hboth := hselects.trans (.of_perm hperm (settings.elim 50 (·.rerankCandidates)))
      rw [min_self] at hboth
      exact ⟨hperm.nodup_iff.mpr hnodup, hboth⟩

/-- A search shows each chunk at most once and no more than asked for, and all its legs brought where
they have room. -/
theorem asyncSearch_shown [IsStrictOrderedRing K] {client : Client F K D S}
    {collection : List (Stored F)} (hids : (collection.map fun p => p.id).Nodup)
    {reaches : QueryVector D S → Stored F → Prop} (hclient : client.Lawful collection reaches)
    {embedder : Embedder D S} {query : Text} {product version : Option Text} {limit : Nat}
    (hlimit : 0 < limit) {settings : Option (SearchSettings K)} {reranker : Option (Reranker K)}
    {hits : List (SearchHit K)} {kind : Text}
    (hrun : asyncSearch P client embedder query product version limit settings reranker =
      some (hits, kind)) :
    ∃ pre, prefetch P client embedder query product version settings reranker = some pre ∧
      (hits.map SearchHit.chunkId).Nodup ∧ hits.length ≤ limit ∧
      (∀ id ∈ hits.map SearchHit.chunkId, ∃ leg ∈ pre.legs, id ∈ leg.ids) ∧
      ((pre.legs.flatMap LegPoints.ids).dedup.length ≤ searchRoom settings pre.active limit →
        ∀ leg ∈ pre.legs, ∀ id ∈ leg.ids, id ∈ hits.map SearchHit.chunkId) := by
  obtain ⟨pre, hpre, h⟩ := Option.bind_eq_some_iff.mp hrun
  obtain ⟨fused, hfused, h⟩ := Option.bind_eq_some_iff.mp h
  obtain ⟨rfl, -⟩ := Prod.mk.inj (Option.some.inj h)
  obtain ⟨hranks, hsingle⟩ := prefetch_shape hpre
  have hstored : ∀ leg ∈ pre.legs, ∀ p ∈ leg.points, p ∈ collection := by
    intro leg hleg p hp
    obtain ⟨vec, -, hone⟩ := forall₂_right (prefetch_scoped hclient hpre) hleg
    exact hone.stored p hp
  obtain ⟨hnodup, hselects⟩ := rankLegs_ids hids hstored hranks hsingle hfused
  obtain ⟨hdistinct, hlength, hshown⟩ := @diversifyHits_ids K _ _ fused limit
    (rankingParams settings (parseQuery P.chars query).hasIdentifiers).maxPerPage
    (rankingParams settings (parseQuery P.chars query).hasIdentifiers).maxPerDoc hlimit hnodup
  have hboth := hselects.trans hshown
  refine ⟨pre, hpre, hdistinct, hlength, fun id hid => List.mem_flatMap.mp (hboth.among hid), ?_⟩
  intro hroom leg hleg id hid
  refine hboth.complete (hroom.trans ?_) (List.mem_flatMap.mpr ⟨leg, hleg, hid⟩)
  unfold searchRoom
  split
  · rw [min_comm]
  · omega

end

/-! ## Failures -/

section

variable {F K D S : Type} [Field K] [LinearOrder K] {P : Parts F K}

omit [LinearOrder K] in
/-- Every query splits, a diagnostic one in two. -/
theorem splitPathsFor_some (settings : Option (SearchSettings K)) (query : Text) :
    ∃ paths, splitPathsFor P settings query = some paths ∧
      (paths.2 = .diagnostic → paths.1.length = 2) := by
  have hsingle : ∃ paths : List Text × Mode, some ([query], Mode.single) = some paths ∧
      (paths.2 = .diagnostic → paths.1.length = 2) := ⟨_, rfl, by simp⟩
  unfold splitPathsFor
  split
  · exact hsingle
  split
  · exact hsingle
  unfold splitQuery
  split
  · exact hsingle
  split
  · exact hsingle
  dsimp only
  next s _ _ _ =>
  obtain ⟨o, ho⟩ : ∃ o, (if s.comparativeSplitEnabled && (parseQuery P.chars query).docIds.isEmpty &&
      (parseQuery P.chars query).messageIds.isEmpty then Split.comparativePaths P.chars query
        else some none) = some o := by
    split
    · obtain ⟨o, ho, -⟩ := Split.comparativePaths_compared (U := P.chars) query
      exact ⟨o, ho⟩
    · exact ⟨none, rfl⟩
  rw [ho, Option.map_some]
  cases o with
  | some subs => exact ⟨_, rfl, by simp⟩
  | none =>
    refine ⟨_, rfl, fun h => ?_⟩
    unfold Split.diagnosticPaths at h ⊢
    dsimp only at h ⊢
    split
    · rfl
    · next hno => rw [if_neg hno] at h; cases h

theorem mergeLegs_some {mode : Mode} {lists : List (List (SearchHit K))} {k limit : Nat}
    (hsingle : mode = .single → lists.length = 1) (hpair : mode = .diagnostic → lists.length = 2) :
    ∃ result, mergeLegs mode lists k limit = some result := by
  cases mode with
  | single =>
    obtain ⟨hits, rfl⟩ := List.length_eq_one_iff.mp (hsingle rfl)
    exact ⟨hits, rfl⟩
  | comparative =>
    obtain ⟨s, hs, -⟩ := start_alternate lists
    exact ⟨_, by rw [mergeLegs, interleaveSplitHits, hs, Option.map_some]⟩
  | diagnostic =>
    obtain ⟨first, second, rfl⟩ := List.length_eq_two.mp (hpair rfl)
    exact ⟨_, rfl⟩

omit [Field K] [LinearOrder K] in
theorem prefetchLeg_some {client : Client F K D S} (hstore : ∀ first second,
    ∃ points, client first second = some points) (flt fallback : Option (Filter Condition))
    (limit : Nat) (params : Option (SearchParams K)) (vec : D × S) :
    ∃ leg, prefetchLeg client flt fallback limit params vec = some leg := by
  obtain ⟨⟨dense, sparse⟩, hpoints⟩ := hstore
    { query := .dense vec.1, limit := limit, filter := flt, params := params }
    { query := .bm25 vec.2, limit := limit, filter := flt, params := none }
  obtain ⟨⟨dense', sparse'⟩, hagain⟩ := hstore
    { query := .dense vec.1, limit := limit, filter := fallback, params := params }
    { query := .bm25 vec.2, limit := limit, filter := fallback, params := none }
  unfold prefetchLeg ask
  rw [hpoints]
  by_cases hneeds : needsFilterFallback dense sparse flt fallback = true
  · exact ⟨⟨dense', sparse', true⟩, by simp [hneeds, hagain]⟩
  · exact ⟨⟨dense, sparse, false⟩, by simp [hneeds]⟩

/-- Legs of the shape of a mode fuse. -/
theorem fuseLegs_some {mode : Mode} {legs : List (LegPoints F)} {ranks : List ((K × K) × List Text)}
    (hranks : legs.length = ranks.length) (hsingle : mode = .single → legs.length = 1)
    (hpair : mode = .diagnostic → legs.length = 2) (k limit : Nat) (boosts : List (Text × K)) :
    ∃ fused, fuseLegs P mode legs ranks k limit boosts = some fused := by
  refine mergeLegs_some (fun hmode => ?_) fun hmode => ?_
  · rw [List.length_map, List.length_zip, ← hranks, min_self, hsingle hmode]
  · rw [List.length_map, List.length_zip, ← hranks, min_self, hpair hmode]

theorem rerankCandidates_some {rerank : Reranker K} (hrerank : ∀ asked texts, ∃ scores,
    rerank asked texts = some scores ∧ scores.length = texts.length) (query : Text)
    (candidates : List (SearchHit K)) (alpha : K) :
    ∃ ranked, rerankCandidates rerank query candidates none alpha = .ok ranked := by
  unfold rerankCandidates
  split
  · exact ⟨_, rfl⟩
  · obtain ⟨scores, hscores, hlen⟩ := hrerank query (candidates.map formatRerankText)
    rw [List.length_map] at hlen
    rw [hscores]
    exact ⟨_, if_neg (not_not.mpr hlen)⟩

/-- A search fails only where the embedder, the store, the reranker or its configuration does. -/
theorem asyncSearch_answers {client : Client F K D S}
    (hstore : ∀ first second, ∃ points, client first second = some points)
    {embedder : Embedder D S} (hdense : ∀ text, ∃ vec, embedder.denseQuery text = some vec)
    (hsparse : ∀ text, ∃ vec, embedder.sparseQuery text = some vec) {query : Text}
    {settings : Option (SearchSettings K)} {reranker active : Option (Reranker K)}
    (hactive : resolveActiveReranker P settings reranker query
      (parseQuery P.chars query).hasIdentifiers = some active)
    (hrerank : ∀ rerank ∈ active, ∀ asked texts, ∃ scores, rerank asked texts = some scores ∧
      scores.length = texts.length) (product version : Option Text) (limit : Nat) :
    ∃ hits kind, asyncSearch P client embedder query product version limit settings reranker =
      some (hits, kind) := by
  obtain ⟨paths, hpaths, hpair⟩ := splitPathsFor_some (P := P) settings query
  obtain ⟨vecs, hvecs⟩ : ∃ vecs, embedLegs embedder (effectiveLegs P settings query paths) = some vecs := by
    refine exists_mapM fun leg _ => ?_
    obtain ⟨d, hd⟩ := hdense leg
    obtain ⟨s, hs⟩ := hsparse leg
    simp [hd, hs]
  let filters := queryFilters (parseQuery P.chars query) product version
  obtain ⟨legs, hlegs⟩ : ∃ legs, prefetchLegPoints client vecs filters.1 filters.2
      (prefetchLimitFor settings active.isSome) (denseSearchParams settings) = some legs := by
    refine exists_mapM fun vec _ => ?_
    obtain ⟨leg, hleg⟩ := prefetchLeg_some hstore filters.1 filters.2
      (prefetchLimitFor settings active.isSome) (denseSearchParams settings) vec
    rw [hleg]
    rfl
  have hpre : prefetch P client embedder query product version settings reranker =
      some ⟨paths, active, vecs, legs⟩ := by
    unfold prefetch
    simp only [hactive, hpaths, hvecs, hlegs, filters, Option.bind_eq_bind, Option.bind_some,
      Option.pure_def]
  obtain ⟨hranks, hsingle⟩ := prefetch_shape hpre
  have htwo : paths.2 = .diagnostic → legs.length = 2 := by
    intro hmode
    rw [hranks]
    unfold legRanks
    rw [if_neg (by rw [hmode]; decide), List.length_map, hpair hmode]
  obtain ⟨fused, hfused⟩ : ∃ fused, rankLegs P query settings limit ⟨paths, active, vecs, legs⟩ =
      some fused := by
    have hfuse := fun room => fuseLegs_some (P := P) hranks hsingle htwo
      (rankingParams settings (parseQuery P.chars query).hasIdentifiers).k room (typeBoosts settings)
    unfold rankLegs
    dsimp only
    cases active with
    | none => exact hfuse _
    | some rerank =>
      obtain ⟨candidates, hcandidates⟩ := hfuse (settings.elim 50 (·.rerankCandidates))
      obtain ⟨ranked, hranked⟩ := rerankCandidates_some (hrerank rerank rfl)
        (effectiveQuery P settings query) candidates (settings.elim 1 (·.rerankFusionAlpha))
      refine ⟨ranked, ?_⟩
      dsimp only at hcandidates ⊢
      rw [hcandidates]
      simp [hranked, Except.toOption]
  let params := rankingParams settings (parseQuery P.chars query).hasIdentifiers
  refine ⟨diversifyHits fused limit params.maxPerPage params.maxPerDoc,
    queryKind (parseQuery P.chars query), ?_⟩
  unfold asyncSearch
  simp only [hpre, hfused, params, Option.bind_eq_bind, Option.bind_some, Option.pure_def]

end

/-! ## A collection -/

theorem zosPoints_shown : ∃ hits kind,
    asyncSearch plainParts (listStore zosPoints) plainEmbedder "IEF450I".toList (some "z/OS".toList)
        none 8 none none = some (hits, kind) ∧ hits ≠ [] ∧
      ∃ pre, prefetch plainParts (listStore zosPoints) plainEmbedder "IEF450I".toList
          (some "z/OS".toList) none none none = some pre ∧
        (hits.map SearchHit.chunkId).Nodup ∧ hits.length ≤ 8 ∧
        (∀ id ∈ hits.map SearchHit.chunkId, ∃ leg ∈ pre.legs, id ∈ leg.ids) ∧
        ((pre.legs.flatMap LegPoints.ids).dedup.length ≤ searchRoom none pre.active 8 →
          ∀ leg ∈ pre.legs, ∀ id ∈ leg.ids, id ∈ hits.map SearchHit.chunkId) := by
  obtain ⟨hits, kind, hrun, hne⟩ := @asyncSearch_shows Unit ℚ Unit Unit _ _ plainParts
    (listStore zosPoints) plainEmbedder "IEF450I".toList () () rfl rfl (some "z/OS".toList) none 8
    (by decide) (by decide +kernel)
  exact ⟨hits, kind, hrun, hne, asyncSearch_shown (by decide)
    (listStore_lawful zosPoints fun _ _ => True) (by decide) hrun⟩

theorem zosPoints_answers : ∃ hits kind,
    asyncSearch plainParts (listStore zosPoints) plainEmbedder "restart".toList none none 8
      none (some fun _ texts => some (texts.map fun _ => (0 : ℚ))) = some (hits, kind) := by
  refine asyncSearch_answers (fun _ _ => ⟨_, rfl⟩) (fun _ => ⟨_, rfl⟩) (fun _ => ⟨_, rfl⟩) rfl ?_
    none none 8
  intro rerank h _ texts
  split at h
  · cases h
  · cases h
    exact ⟨_, rfl, List.length_map _⟩

end MainframeRag.Retrieve
