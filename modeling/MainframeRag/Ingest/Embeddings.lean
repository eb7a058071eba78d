import MainframeRag.Ingest.Chunking.Chunks
import MainframeRag.Lib.Fallible
import MainframeRag.Lib.JsonOrder
import Mathlib

/-!
# Embeddings

`VllmEmbedder.dense` and `embed_batch` of `ingest/embed.py`. The endpoint's response is any JSON value,
put in order by an index each of its items carries; texts and vectors are then paired by position.
-/

namespace MainframeRag.Ingest.Embed

open PyText PyJson Fallible

/-- What keeps `dense` from returning. -/
inductive EmbedError
  /-- `EmbedInputTooLarge` -/
  | tooLarge (limit : Int) (largest count : Nat)
  /-- `require_embed` -/
  | notConfigured
  /-- `post`, `raise_for_status` or `json` -/
  | request
  /-- a `KeyError` or a `TypeError` in the response -/
  | response
  /-- `zip(..., strict=True)` -/
  | lengths
  /-- the sparse model raises -/
  | sparse
  deriving DecidableEq

/-! ## Texts -/

/-- `build_embed_text` -/
def buildEmbedText (product version : Option Text) (docId title headingPath body : Text)
    (context : Option Text) : Text :=
  let header := joinNonempty [' '] [product.getD [], version.getD [], docId]
  joinNonempty ['\n'] [header, title, headingPath, context.getD [], body]

/-- `chunk_embed_text` -/
def chunkEmbedText (chunk : Chunking.Chunk) (product version : Option Text) (title : Text)
    (context : Option Text) : Text :=
  buildEmbedText product version chunk.docId title chunk.headingPath chunk.text context

/-- The loop of `require_embed_inputs_within`: the largest size, and how many are over. -/
def measure (limit : Int) (sizes : List Nat) : Nat × Nat :=
  sizes.foldl (fun s size => (max s.1 size, if limit < size then s.2 + 1 else s.2)) (0, 0)

/-- `require_embed_inputs_within` -/
def requireEmbedInputsWithin (texts : List Text) (limit : Int) (extra : Nat) :
    Except EmbedError Unit :=
  if limit ≤ 0 then .ok ()
  else
    let m := measure limit (texts.map fun t => t.length + extra)
    ensure (m.2 = 0) (.tooLarge limit m.1 m.2)

/-! ## Settings -/

structure EmbedSettings where
  hashMode : Bool
  embedBaseUrl : Option Text
  embedModel : Option Text
  embedMaxInputChars : Int
  denseQueryPrefix : Text

/-- `require_embed` -/
def requireEmbed (S : EmbedSettings) : Except EmbedError (Text × Text) :=
  let url := S.embedBaseUrl.getD []
  let model := S.embedModel.getD []
  if S.hashMode = true ∨ url = [] ∨ model = [] then .error .notConfigured else .ok (url, model)

/-- `f"{base_url.rstrip('/')}/embeddings"` -/
def embeddingsUrl (baseUrl : Text) : Text :=
  (baseUrl.reverse.dropWhile (· = '/')).reverse ++ "/embeddings".toList

/-! ## The response -/

section

variable {F : Type} (value : F → Option Magnitude)

/-- `d[key]` -/
def item (key : Text) : Json F → Option (Json F)
  | .obj d => d.lookup key
  | _ => none

/-- The elements of an iterable: a list's items, a dict's keys, a text's characters. -/
def elements : Json F → Option (List (Json F))
  | .arr items => some items
  | .obj d => some (d.map fun kv => .str kv.1)
  | .str t => some (t.map fun c => .str [c])
  | _ => none

/-- `[d["embedding"] for d in sorted(resp.json()["data"], key=lambda d: d["index"])]` -/
def readVectors (v : Json F) : Option (List (Json F)) := do
  let data ← item "data".toList v
  let items ← elements data
  let keyed ← items.mapM fun d => (item "index".toList d).map fun key => (key, d)
  let ordered ← sortedBy value Prod.fst keyed
  ordered.mapM fun kd => item "embedding".toList kd.2

/-- The endpoint: what a post of a model and texts to a url answers, if it does. -/
abbrev Endpoint (F : Type) := Text → Text → List Text → Option (Json F)

/-- `VllmEmbedder.dense` -/
def dense (S : EmbedSettings) (post : Endpoint F) (texts : List Text) :
    Except EmbedError (List (Json F)) :=
  if texts = [] then .ok []
  else do
    requireEmbedInputsWithin texts S.embedMaxInputChars 0
    let (url, model) ← requireEmbed S
    let v ← orRaise (post (embeddingsUrl url) model texts) .request
    orRaise (readVectors value v) .response

/-- `VllmEmbedder.dense_query` -/
def denseQuery (S : EmbedSettings) (post : Endpoint F) (queries : List Text) :
    Except EmbedError (List (Json F)) :=
  if queries = [] then .ok []
  else dense value S post (queries.map fun q => S.denseQueryPrefix ++ q)

/-! ## Batches -/

/-- The arguments of `embed_batch` besides the embedder. -/
structure Batch where
  chunks : List Chunking.Chunk
  product : Option Text
  version : Option Text
  title : Text
  contexts : List (Text × Text)

def Batch.denseTexts (b : Batch) : List Text :=
  b.chunks.map fun c => chunkEmbedText c b.product b.version b.title (b.contexts.lookup c.chunkId)

def Batch.sparseTexts (b : Batch) : List Text :=
  b.chunks.map fun c => chunkEmbedText c b.product b.version b.title none

/-- `embed_batch`; `sparse` is the sparse model. -/
def embedBatch {V : Type} (S : EmbedSettings) (post : Endpoint F)
    (sparse : List Text → Option (List V)) (b : Batch) : Except EmbedError (List (Json F × V)) := do
  let vectors ← dense value S post b.denseTexts
  let sparseVectors ← orRaise (sparse b.sparseTexts) .sparse
  if vectors.length = sparseVectors.length then .ok (vectors.zip sparseVectors)
  else .error .lengths

/-! ## What a response pairs -/

/-- The index an item carries. -/
def placeOf (d : Json F) : Option Nat := (item "index".toList d).bind (indexOf value)

/-- A response `dense` returns from: items with an index and an embedding, the indices all comparable. -/
structure Usable (v : Json F) (items : List (Json F)) : Prop where
  data : (item "data".toList v).bind elements = some items
  keys : ∃ keyed, (items.mapM fun d => (item "index".toList d).map fun key => (key, d)) = some keyed ∧
    keyed.Pairwise fun a b => (ltValue value b.1 a.1).isSome
  embeddings : ∀ d ∈ items, (item "embedding".toList d).isSome

/-- Every index occurs once, and the vector at it is the embedding of its item. -/
structure Paired (n : Nat) (items : List (Json F)) (vectors : List (Json F)) : Prop where
  length : vectors.length = n
  indexes : (items.map (placeOf value)).Perm ((List.range n).map some)
  own : ∀ d ∈ items, ∀ i, placeOf value d = some i →
    ∃ e, item "embedding".toList d = some e ∧ vectors[i]? = some e

theorem keyed_mem {items : List (Json F)} {keyed : List (Json F × Json F)}
    (h : (items.mapM fun d => (item "index".toList d).map fun key => (key, d)) = some keyed) :
    keyed.map Prod.snd = items ∧ ∀ kd ∈ keyed, item "index".toList kd.2 = some kd.1 := by
  have hall := mapM_eq_some_iff.mp h
  have hread : ∀ (d : Json F) (kd : Json F × Json F),
      ((item "index".toList d).map fun key => (key, d)) = some kd →
        kd.2 = d ∧ item "index".toList kd.2 = some kd.1 := by
    intro d kd hkd
    obtain ⟨key, hkey, rfl⟩ := Option.map_eq_some_iff.mp hkd
    exact ⟨rfl, hkey⟩
  constructor
  · clear h
    induction hall with
    | nil => rfl
    | cons hd _ ih => rw [List.map_cons, ih, (hread _ _ hd).1]
  · intro kd hkd
    obtain ⟨d, -, hd⟩ := forall₂_right hall hkd
    exact (hread _ _ hd).2

theorem readVectors_eq_some {v : Json F} {vectors : List (Json F)} :
    readVectors value v = some vectors ↔ ∃ items keyed sorted,
      (item "data".toList v).bind elements = some items ∧
      (items.mapM fun d => (item "index".toList d).map fun key => (key, d)) = some keyed ∧
      sortedBy value Prod.fst keyed = some sorted ∧
      (sorted.mapM fun kd => item "embedding".toList kd.2) = some vectors := by
  simp only [readVectors, Option.bind_eq_bind, Option.bind_eq_some_iff]
  constructor
  · rintro ⟨data, hdata, items, hitems, keyed, hkeyed, sorted, hsorted, h⟩
    exact ⟨items, keyed, sorted, ⟨data, hdata, hitems⟩, hkeyed, hsorted, h⟩
  · rintro ⟨items, keyed, sorted, ⟨data, hdata, hitems⟩, hkeyed, hsorted, h⟩
    exact ⟨data, hdata, items, hitems, keyed, hkeyed, sorted, hsorted, h⟩

/-- `dense` returns from usable responses only, and from all of them. -/
theorem usable_iff {v : Json F} :
    (∃ vectors, readVectors value v = some vectors) ↔ ∃ items, Usable value v items := by
  simp only [readVectors_eq_some]
  constructor
  · rintro ⟨vectors, items, keyed, sorted, hitems, hkeyed, hsorted, hvectors⟩
    obtain ⟨hperm, hcompare⟩ := sortedBy_eq_some hsorted
    refine ⟨items, hitems, ⟨keyed, hkeyed, hcompare⟩, fun d hd => ?_⟩
    rw [← (keyed_mem hkeyed).1] at hd
    obtain ⟨kd, hkd, rfl⟩ := List.mem_map.mp hd
    obtain ⟨e, -, he⟩ := forall₂_left (mapM_eq_some_iff.mp hvectors) (hperm.mem_iff.mpr hkd)
    rw [he]
    rfl
  · rintro ⟨items, hitems, ⟨keyed, hkeyed, hcompare⟩, hembeddings⟩
    obtain ⟨sorted, hsorted⟩ := @exists_sortedBy F value _ Prod.fst keyed hcompare
    obtain ⟨hperm, -⟩ := sortedBy_eq_some hsorted
    have hall : ∀ kd ∈ sorted, (item "embedding".toList kd.2).isSome := by
      intro kd hkd
      refine hembeddings kd.2 ?_
      rw [← (keyed_mem hkeyed).1]
      exact List.mem_map_of_mem (hperm.mem_iff.mp hkd)
    obtain ⟨vectors, hvectors⟩ := exists_mapM hall
    exact ⟨vectors, items, keyed, sorted, hitems, hkeyed, hsorted, hvectors⟩

/-- A response with every index once is paired by position. -/
theorem readVectors_paired {v : Json F} {items vectors : List (Json F)} {n : Nat}
    (husable : Usable value v items) (h : readVectors value v = some vectors)
    (hindexes : (items.map (placeOf value)).Perm ((List.range n).map some)) :
    Paired value n items vectors := by
  obtain ⟨items', keyed, sorted, hitems, hkeyed, hsorted, hvectors⟩ :=
    (readVectors_eq_some value).mp h
  obtain rfl := Option.some.inj (husable.data.symm.trans hitems)
  obtain ⟨hsnd, hkeys⟩ := keyed_mem hkeyed
  have hread : ∀ kd ∈ keyed, placeOf value kd.2 = indexOf value kd.1 := by
    intro kd hkd
    rw [placeOf, hkeys kd hkd, Option.bind_some]
  have hplaces : items.map (placeOf value) = keyed.map fun kd => indexOf value kd.1 := by
    rw [← hsnd, List.map_map]
    exact List.map_congr_left hread
  have hsome : ∀ kd ∈ keyed, indexOf value kd.1 = some ((indexOf value kd.1).getD 0) := by
    intro kd hkd
    have hmem : indexOf value kd.1 ∈ (List.range n).map some := by
      rw [← hindexes.mem_iff, hplaces]
      exact List.mem_map_of_mem hkd
    obtain ⟨i, -, hi⟩ := List.mem_map.mp hmem
    rw [← hi]
    rfl
  obtain ⟨sorted', hsorted', hincreasing⟩ := sortedBy_index hsome
  obtain rfl := Option.some.inj (hsorted.symm.trans hsorted')
  obtain ⟨hperm, -⟩ := sortedBy_eq_some hsorted
  -- sorted distinct indices are the positions
  have hrange : (sorted.map fun kd => (indexOf value kd.1).getD 0) = List.range n := by
    have hperm' : ((sorted.map fun kd => (indexOf value kd.1).getD 0).map some).Perm
        ((List.range n).map some) := by
      refine List.Perm.trans ?_ (hplaces ▸ hindexes)
      rw [List.map_map]
      refine (hperm.map _).trans (List.Perm.of_eq ?_)
      exact List.map_congr_left fun kd hkd => (hsome kd hkd).symm
    refine List.Perm.eq_of_pairwise (fun _ _ _ _ => Nat.le_antisymm) ?_ ?_
      ((List.map_perm_map_iff (Option.some_injective _)).mp hperm')
    · exact List.pairwise_map.mpr hincreasing
    · exact List.pairwise_le_range
  have hall := mapM_eq_some_iff.mp hvectors
  have hlen : sorted.length = n := by
    rw [← List.length_range (n := n), ← hrange, List.length_map]
  refine ⟨hall.length_eq.symm.trans hlen, hindexes, fun d hd i hi => ?_⟩
  rw [← hsnd] at hd
  obtain ⟨kd, hkd, rfl⟩ := List.mem_map.mp hd
  obtain ⟨j, hj, hkdj⟩ := List.getElem_of_mem (hperm.mem_iff.mpr hkd)
  have hij : i = j := by
    have hat : (sorted.map fun kd => (indexOf value kd.1).getD 0)[j]? = some i := by
      rw [List.getElem?_map, List.getElem?_eq_getElem hj, hkdj, Option.map_some, ← hread kd hkd, hi]
      rfl
    rw [hrange, List.getElem?_range (hlen ▸ hj)] at hat
    exact (Option.some.inj hat).symm
  subst hij
  have hj' : i < vectors.length := hall.length_eq ▸ hj
  refine ⟨vectors[i], ?_, List.getElem?_eq_getElem hj'⟩
  have hget := hall.get hj hj'
  rw [List.get_eq_getElem, List.get_eq_getElem, hkdj] at hget
  exact hget

/-! ## Texts and their vectors -/

section

variable (S : EmbedSettings) (post : Endpoint F) (texts : List Text)

/-- The endpoint is asked for the texts, and this is what it answers. -/
structure Answers (v : Json F) : Prop where
  asked : texts ≠ []
  within : requireEmbedInputsWithin texts S.embedMaxInputChars 0 = .ok ()
  answer : ∃ url model, requireEmbed S = .ok (url, model) ∧
    post (embeddingsUrl url) model texts = some v

/-- A vector for each text, the one the endpoint gives for its index. -/
structure OwnVectors (vectors : List (Json F)) : Prop where
  length : vectors.length = texts.length
  paired : texts ≠ [] → ∃ v items, Answers S post texts v ∧ Usable value v items ∧
    Paired value texts.length items vectors

theorem dense_ok {vectors : List (Json F)} (hne : texts ≠ []) :
    dense value S post texts = .ok vectors ↔
      ∃ v, Answers S post texts v ∧ readVectors value v = some vectors := by
  unfold dense
  rw [if_neg hne]
  simp only [bind_ok, orRaise_ok]
  constructor
  · rintro ⟨⟨⟩, hwithin, ⟨url, model⟩, hsettings, v, hpost, hread⟩
    exact ⟨v, ⟨hne, hwithin, url, model, hsettings, hpost⟩, hread⟩
  · rintro ⟨v, ⟨-, hwithin, url, model, hsettings, hpost⟩, hread⟩
    exact ⟨(), hwithin, (url, model), hsettings, v, hpost, hread⟩

/-- Embeddings are paired with their own inputs, whoever asks for these texts. -/
structure KeepsInputs : Prop where
  dense : ∀ vectors, dense value S post texts = .ok vectors → OwnVectors value S post texts vectors
  query : ∀ queries vectors, queries.map (fun q => S.denseQueryPrefix ++ q) = texts →
    denseQuery value S post queries = .ok vectors → OwnVectors value S post texts vectors
  batch : ∀ (V : Type) (sparse : List Text → Option (List V)) (b : Batch) pairs,
    b.denseTexts = texts → embedBatch value S post sparse b = .ok pairs →
      pairs.length = b.chunks.length ∧ ∃ vectors sparseVectors,
        pairs = vectors.zip sparseVectors ∧ OwnVectors value S post texts vectors

/-- Every usable answer carries every index once. -/
def IndexedOnce : Prop :=
  ∀ v items, Answers S post texts v → Usable value v items →
    (items.map (placeOf value)).Perm ((List.range texts.length).map some)

theorem dense_own (h : IndexedOnce value S post texts) {vectors : List (Json F)}
    (hdense : Embed.dense value S post texts = .ok vectors) :
    OwnVectors value S post texts vectors := by
  by_cases hne : texts = []
  · subst hne
    cases hdense
    exact ⟨rfl, fun hne => absurd rfl hne⟩
  · obtain ⟨v, hanswers, hread⟩ := (dense_ok value S post texts hne).mp hdense
    obtain ⟨items, husable⟩ := (usable_iff value).mp ⟨vectors, hread⟩
    have hpaired := readVectors_paired value husable hread (h v items hanswers husable)
    exact ⟨hpaired.length, fun _ => ⟨v, items, hanswers, husable, hpaired⟩⟩

theorem indexedOnce_of_keeps (h : KeepsInputs value S post texts) :
    IndexedOnce value S post texts := by
  intro v items hanswers husable
  obtain ⟨vectors, hread⟩ := (usable_iff value).mpr ⟨items, husable⟩
  have hdense := (dense_ok value S post texts hanswers.asked).mpr ⟨v, hanswers, hread⟩
  obtain ⟨v', items', hanswers', husable', hpaired⟩ :=
    (h.dense vectors hdense).paired hanswers.asked
  obtain ⟨url, model, hsettings, hpost⟩ := hanswers.answer
  obtain ⟨url', model', hsettings', hpost'⟩ := hanswers'.answer
  obtain ⟨rfl, rfl⟩ := Prod.mk.inj (Except.ok.inj (hsettings.symm.trans hsettings'))
  obtain rfl := Option.some.inj (hpost.symm.trans hpost')
  obtain rfl := Option.some.inj (husable.data.symm.trans husable'.data)
  exact hpaired.indexes

theorem keepsInputs_iff :
    KeepsInputs value S post texts ↔ IndexedOnce value S post texts := by
  refine ⟨indexedOnce_of_keeps value S post texts, fun h => ?_⟩
  refine ⟨fun vectors => dense_own value S post texts h, ?_, ?_⟩
  · rintro queries vectors rfl hquery
    by_cases hne : queries = []
    · subst hne
      cases hquery
      exact ⟨rfl, fun hne => absurd rfl hne⟩
    · rw [denseQuery, if_neg hne] at hquery
      exact dense_own value S post _ h hquery
  · rintro V sparse b pairs rfl hbatch
    obtain ⟨vectors, hdense, hrest⟩ := bind_ok.mp hbatch
    obtain ⟨sparseVectors, -, hzip⟩ := bind_ok.mp hrest
    have hown := dense_own value S post _ h hdense
    split at hzip
    · next hlen =>
      obtain rfl := Except.ok.inj hzip
      refine ⟨?_, vectors, sparseVectors, rfl, hown⟩
      rw [List.length_zip, ← hlen, min_self, hown.length, Batch.denseTexts, List.length_map]
    · cases hzip

end

end

/-- Doubles, without their rounding. -/
def doubleValue (x : ℚ) : Option Magnitude := some (.of x)

def vllmSettings : EmbedSettings where
  hashMode := false
  embedBaseUrl := some "http://vllm/v1".toList
  embedModel := some "bge-m3".toList
  embedMaxInputChars := 0
  denseQueryPrefix := []

def embedItem (index : Int) (x : ℚ) : Json ℚ :=
  .obj [("index".toList, .int index), ("embedding".toList, .arr [.float x])]

/-- An endpoint that gives both vectors the index 0. -/
def repeatedIndex : Endpoint ℚ := fun _ _ _ =>
  some (.obj [("data".toList, .arr [embedItem 0 1, embedItem 0 2])])

theorem repeatedIndex_mispairs :
    dense doubleValue vllmSettings repeatedIndex ["A".toList, "B".toList] =
        .ok [.arr [.float 1], .arr [.float 2]] ∧
      ¬ KeepsInputs doubleValue vllmSettings repeatedIndex ["A".toList, "B".toList] := by
  have hread : readVectors doubleValue (.obj [("data".toList, .arr [embedItem 0 1, embedItem 0 2])]) =
      some [.arr [.float 1], .arr [.float 2]] := by
    have hzero : ltValue doubleValue (.int 0) (.int 0) = some (decide (0 < 0)) :=
      ltValue_index rfl rfl
    refine (readVectors_eq_some _).mpr ⟨[embedItem 0 1, embedItem 0 2],
      [(.int 0, embedItem 0 1), (.int 0, embedItem 0 2)],
      [(.int 0, embedItem 0 1), (.int 0, embedItem 0 2)], rfl, rfl, ?_, rfl⟩
    unfold sortedBy
    rw [if_pos (by simp [hzero]), List.mergeSort_of_pairwise (by simp [hzero])]
  have hanswers : Answers vllmSettings repeatedIndex ["A".toList, "B".toList]
      (.obj [("data".toList, .arr [embedItem 0 1, embedItem 0 2])]) :=
    ⟨List.cons_ne_nil _ _, rfl, _, _, rfl, rfl⟩
  refine ⟨(dense_ok _ _ _ _ hanswers.asked).mpr ⟨_, hanswers, hread⟩, fun h => ?_⟩
  obtain ⟨items, husable⟩ := (usable_iff _).mp ⟨_, hread⟩
  have hindexes := indexedOnce_of_keeps _ _ _ _ h _ _ hanswers husable
  obtain rfl := Option.some.inj husable.data
  exact absurd hindexes (by decide +kernel)

end MainframeRag.Ingest.Embed
