import MainframeRag.Lib.Keyed
import MainframeRag.Lib.Prog
import MainframeRag.Ingest.Representation
import MainframeRag.Ingest.Chunking.UnitSpans
import Mathlib.Data.List.Sort

/-!
# Completion records

A target is a data collection of points and its completions collection (`ingest/completion.py`).
A document generation is complete when a completion record for it stands in the second and the
points of the first verify against it: count, ids, texts, content hash, rules and revision.

A point id is the UUID5 of the key of its source revision; it is modelled by the parts of that key.
`rest` is the vector with the payload fields that nothing here reads.
-/

namespace MainframeRag.Ingest

open PyText Chunking

/-! ## Points -/

/-- The parts of the key `make_chunk_id` hashes. Points without a source revision are legacy. -/
structure ChunkKey where
  sourceRev : Option Text
  headingPath : Text
  pageStart : Nat
  ordinal : Nat
  deriving DecidableEq

structure Point (V : Type) where
  id : ChunkKey
  docId : Text
  sha256 : Text
  rulesV : Text
  text : Text
  title : Text
  product : Option Text
  version : Option Text
  pageEnd : Nat
  pageLabel : Text
  rest : V
  deriving DecidableEq

variable {N V : Type} {U : CharTables}

/-- The payload's `source_rev`: the id is minted from it. -/
def Point.sourceRev (p : Point V) : Option Text := p.id.sourceRev

abbrev Points (V : Type) := Keyed (Point V) Point.id

/-- Points of one document revision: `_rev_filter`. -/
def Point.isOf (docId sourceRev : Text) (p : Point V) : Bool :=
  p.docId = docId ∧ p.sourceRev = some sourceRev

/-- A parsed document with its chunks and their vectors, as a parse worker returns it. -/
structure Doc (U : CharTables) (V : Type) where
  parsed : ParsedDoc
  chunks : List Chunk
  vectors : List V
  /-- a form number or a file's stem -/
  docId_ne : parsed.docId ≠ []

def Doc.docId (d : Doc U V) : Text := d.parsed.docId

def Doc.sha256 (d : Doc U V) : Text := d.parsed.sha256

/-- `walked_source_rev` -/
def Doc.revision (d : Doc U V) : Text :=
  sourceRevKey U (some d.parsed.vendor) d.parsed.product d.parsed.version d.parsed.sha256

def Doc.chunkKey (d : Doc U V) (c : Chunk) : ChunkKey :=
  ⟨some d.revision, c.headingPath, c.pageStart, c.ordinal⟩

/-- The point `upsert_chunks` writes for a chunk. -/
def Doc.point (d : Doc U V) (rulesV : Text) (c : Chunk) (rest : V) : Point V :=
  let payload := pointPayload U d.parsed c rulesV none
  { id := d.chunkKey c
    docId := payload.docId
    sha256 := payload.sha256
    rulesV := payload.rulesV
    text := payload.text
    title := payload.title
    product := payload.product
    version := payload.version
    pageEnd := payload.pageEnd
    pageLabel := payload.pageLabel
    rest := rest }

def Doc.points (d : Doc U V) (rulesV : Text) : List (Point V) :=
  List.zipWith (d.point rulesV) d.chunks d.vectors

/-- The id and text of every chunk. -/
def Doc.texts (d : Doc U V) : List (ChunkKey × Text) := d.chunks.map (fun c => (d.chunkKey c, c.text))

theorem Doc.points_sourceRev {d : Doc U V} {rulesV : Text} {p : Point V} (h : p ∈ d.points rulesV) :
    p.sourceRev = some d.revision := by
  obtain ⟨i, hi, rfl⟩ := List.mem_iff_getElem.mp h
  simp only [Doc.points, List.getElem_zipWith]
  rfl

/-! ## Records -/

structure CompletionRecord (N : Type) where
  docId : Text
  sha256 : Text
  rulesV : Text
  targetCollection : N
  generationId : GenerationId
  expectedChunks : Nat
  chunkIdsDigest : Multiset ChunkKey
  contentDigest : Multiset (ChunkKey × Text)
  manifestDigest : ManifestDigest
  sourceRev : Text
  docId_ne : docId ≠ []
  one_le : 1 ≤ expectedChunks
  deriving DecidableEq

/-- What `completion_point_id` hashes. -/
structure CompletionKey (N : Type) where
  targetCollection : N
  docId : Text
  sourceRev : Text
  generationId : GenerationId
  deriving DecidableEq

def CompletionRecord.id (m : CompletionRecord N) : CompletionKey N :=
  ⟨m.targetCollection, m.docId, m.sourceRev, m.generationId⟩

abbrev Markers (N : Type) := Keyed (CompletionRecord N) CompletionRecord.id

/-- The data collection of a target and the completion records beside it. -/
structure Store (N V : Type) where
  points : Points V
  markers : Markers N

/-! ## Verification -/

/-- `by_id = {c.chunk_id: c.text}`: the last text of an id. -/
def textById (chunks : List (ChunkKey × Text)) (id : ChunkKey) : Text :=
  ((chunks.reverse.find? (fun c => c.1 = id)).map (·.2)).getD []

/-- `expected_digests`: the count, and the ids and the contents that are hashed. -/
def expectedDigests (chunks : List (ChunkKey × Text)) :
    Nat × Multiset ChunkKey × Multiset (ChunkKey × Text) :=
  let ids := chunks.map (·.1)
  (chunks.length, ids, ids.map (fun id => (id, textById chunks id)))

def verifyBatch (points : Multiset (Point V)) (sha256 rulesV sourceRev : Text)
    (chunkIdsDigest : Multiset ChunkKey) (contentDigest : Multiset (ChunkKey × Text)) : Bool :=
  decide (∀ p ∈ points, p.sha256 = sha256 ∧ p.rulesV = rulesV ∧ p.sourceRev = some sourceRev) &&
    points.map Point.id = chunkIdsDigest &&
    points.map (fun p => (p.id, p.text)) = contentDigest

/-- The stored points are exactly the expected revision generation. The scroll's limit is one more
than the expected count, so a surplus is seen. -/
def verifyDocPoints (points : Points V) (docId sha256 rulesV sourceRev : Text)
    (expectedChunks : Nat) (chunkIdsDigest : Multiset ChunkKey)
    (contentDigest : Multiset (ChunkKey × Text)) : Bool :=
  let stored := points.selected (Point.isOf docId sourceRev)
  1 ≤ expectedChunks && min stored.card (expectedChunks + 1) = expectedChunks &&
    verifyBatch stored sha256 rulesV sourceRev chunkIdsDigest contentDigest

section

variable [DecidableEq N]

/-- The record of one revision generation that is bound to this target. -/
def readCompletion (s : Store N V) (settings : Settings N) (docId sourceRev : Text)
    (generationId : GenerationId) : Option (CompletionRecord N) :=
  s.markers.items.find? (fun m => m.docId = docId ∧ m.sourceRev = sourceRev ∧
    m.generationId = generationId ∧ m.targetCollection = settings.qdrantCollection)

/-- `verify_doc_points` with what the record says. -/
def CompletionRecord.verifies (m : CompletionRecord N) (points : Points V) : Bool :=
  verifyDocPoints points m.docId m.sha256 m.rulesV m.sourceRev m.expectedChunks m.chunkIdsDigest
    m.contentDigest

/-- The skip gate. -/
def isDocComplete (s : Store N V) (settings : Settings N)
    (docId sha256 rulesV sourceLabels sourceRev : Text)
    (requiredManifestDigest : Option ManifestDigest) : Bool :=
  match readCompletion s settings docId sourceRev
      (docGenerationId settings sha256 rulesV sourceLabels) with
  | none => false
  | some m =>
    requiredManifestDigest.all (fun d => m.manifestDigest = d) &&
      m.sha256 = sha256 && m.rulesV = rulesV &&
      verifyDocPoints s.points docId sha256 rulesV sourceRev m.expectedChunks m.chunkIdsDigest
        m.contentDigest

/-- A revision is complete under its own generation, certified for this target or for the live
generation it was cloned from. -/
def isRevisionCommitted (s : Store N V) (settings : Settings N) (docId sourceRev : Text)
    (ancestor : Option N) : Bool :=
  s.markers.any (fun m => m.docId = docId && m.sourceRev = sourceRev &&
    (m.targetCollection = settings.qdrantCollection || ancestor = some m.targetCollection) &&
    m.verifies s.points)

end

/-! ## Deleting -/

/-- `delete_completion`: the records of one revision under one document. -/
def deleteCompletion (docId sourceRev : Text) (s : Store N V) : Store N V :=
  { s with markers := s.markers.remove (fun m => m.docId = docId ∧ m.sourceRev = sourceRev) }

/-- `delete_revision_completions`: the records of one revision under whichever document. -/
def deleteRevisionCompletions (sourceRev : Text) (s : Store N V) : Store N V :=
  { s with markers := s.markers.remove (fun m => m.docId ≠ [] ∧ m.sourceRev = sourceRev) }

/-- `delete_by_revision`: the points of one revision under whichever document. -/
def deleteByRevision (sourceRev : Text) (s : Store N V) : Store N V :=
  { s with points := s.points.remove (fun p => p.sourceRev = some sourceRev) }

@[simp] theorem deleteCompletion_points (docId sourceRev : Text) (s : Store N V) :
    (deleteCompletion docId sourceRev s).points = s.points := rfl

@[simp] theorem deleteRevisionCompletions_points (sourceRev : Text) (s : Store N V) :
    (deleteRevisionCompletions sourceRev s).points = s.points := rfl

@[simp] theorem deleteByRevision_markers (sourceRev : Text) (s : Store N V) :
    (deleteByRevision sourceRev s).markers = s.markers := rfl

theorem mem_deleteCompletion {docId sourceRev : Text} {s : Store N V} {m : CompletionRecord N} :
    m ∈ (deleteCompletion docId sourceRev s).markers ↔
      m ∈ s.markers ∧ ¬(m.docId = docId ∧ m.sourceRev = sourceRev) := by
  simp [deleteCompletion]

/-- Every record carries a document, so all records of the revision go. -/
theorem mem_deleteRevisionCompletions {sourceRev : Text} {s : Store N V} {m : CompletionRecord N} :
    m ∈ (deleteRevisionCompletions sourceRev s).markers ↔
      m ∈ s.markers ∧ m.sourceRev ≠ sourceRev := by
  simp [deleteRevisionCompletions, m.docId_ne]

theorem mem_deleteByRevision {sourceRev : Text} {s : Store N V} {p : Point V} :
    p ∈ (deleteByRevision sourceRev s).points ↔ p ∈ s.points ∧ p.sourceRev ≠ some sourceRev := by
  simp [deleteByRevision]

/-! ## What verification reads -/

theorem verifyDocPoints_congr {c d : Points V} {docId sourceRev : Text}
    (h : ∀ p, p.docId = docId → p.sourceRev = some sourceRev → (p ∈ c ↔ p ∈ d))
    (sha256 rulesV : Text) (n : Nat) (ids : Multiset ChunkKey)
    (contents : Multiset (ChunkKey × Text)) :
    verifyDocPoints c docId sha256 rulesV sourceRev n ids contents =
      verifyDocPoints d docId sha256 rulesV sourceRev n ids contents := by
  have hs : c.selected (Point.isOf docId sourceRev) = d.selected (Point.isOf docId sourceRev) := by
    apply Keyed.selected_congr
    intro p hp
    simp only [Point.isOf, decide_eq_true_eq] at hp
    exact h p hp.1 hp.2
  simp only [verifyDocPoints, hs]

/-- What verified points are. -/
theorem verifyDocPoints_iff {points : Points V} {docId sha256 rulesV sourceRev : Text} {n : Nat}
    {ids : Multiset ChunkKey} {contents : Multiset (ChunkKey × Text)} :
    verifyDocPoints points docId sha256 rulesV sourceRev n ids contents = true ↔
      1 ≤ n ∧ (points.selected (Point.isOf docId sourceRev)).card = n ∧
      (∀ p ∈ points, p.docId = docId → p.sourceRev = some sourceRev →
        p.sha256 = sha256 ∧ p.rulesV = rulesV) ∧
      (points.selected (Point.isOf docId sourceRev)).map Point.id = ids ∧
      (points.selected (Point.isOf docId sourceRev)).map (fun p => (p.id, p.text)) = contents := by
  simp only [verifyDocPoints, verifyBatch, Bool.and_eq_true, decide_eq_true_eq, Keyed.mem_selected,
    Point.isOf]
  have hc : ∀ k : Nat, min k (n + 1) = n ↔ k = n := by omega
  rw [hc]
  constructor
  · rintro ⟨⟨h1, h2⟩, ⟨h3, h4⟩, h5⟩
    exact ⟨h1, h2, fun p hp hd hr => ⟨(h3 p ⟨hp, hd, hr⟩).1, (h3 p ⟨hp, hd, hr⟩).2.1⟩, h4, h5⟩
  · rintro ⟨h1, h2, h3, h4, h5⟩
    exact ⟨⟨h1, h2⟩, ⟨fun p hp => ⟨(h3 p hp.1 hp.2.1 hp.2.2).1, (h3 p hp.1 hp.2.1 hp.2.2).2,
      hp.2.2⟩, h4⟩, h5⟩

section

variable [DecidableEq N]

theorem readCompletion_iff {s : Store N V} {settings : Settings N} {docId sourceRev : Text}
    {g : GenerationId} {m : CompletionRecord N} :
    readCompletion s settings docId sourceRev g = some m ↔
      m ∈ s.markers ∧ m.id = ⟨settings.qdrantCollection, docId, sourceRev, g⟩ := by
  have hid : ∀ m : CompletionRecord N,
      m.id = ⟨settings.qdrantCollection, docId, sourceRev, g⟩ ↔
      (m.docId = docId ∧ m.sourceRev = sourceRev ∧ m.generationId = g ∧
        m.targetCollection = settings.qdrantCollection) := by
    intro m
    simp only [CompletionRecord.id, CompletionKey.mk.injEq]
    tauto
  constructor
  · intro h
    have hp := List.find?_some h
    simp only [decide_eq_true_eq] at hp
    exact ⟨List.mem_of_find?_eq_some h, (hid m).mpr hp⟩
  · rintro ⟨hm, hk⟩
    cases hf : readCompletion s settings docId sourceRev g with
    | none =>
      have := List.find?_eq_none.mp hf m hm
      simp only [decide_eq_true_eq] at this
      exact absurd ((hid m).mp hk) this
    | some m' =>
      have hp := List.find?_some hf
      simp only [decide_eq_true_eq] at hp
      have hm' : m' ∈ s.markers := List.mem_of_find?_eq_some hf
      rw [Keyed.eq_of_key hm' hm (((hid m').mpr hp).trans hk.symm)]

/-- A complete document: its record stands and its points verify. -/
theorem isDocComplete_iff {s : Store N V} {settings : Settings N}
    {docId sha256 rulesV labels sourceRev : Text} {req : Option ManifestDigest} :
    isDocComplete s settings docId sha256 rulesV labels sourceRev req = true ↔
      ∃ m ∈ s.markers,
        m.id = ⟨settings.qdrantCollection, docId, sourceRev,
          docGenerationId settings sha256 rulesV labels⟩ ∧
        (∀ d ∈ req, m.manifestDigest = d) ∧ m.sha256 = sha256 ∧ m.rulesV = rulesV ∧
        verifyDocPoints s.points docId sha256 rulesV sourceRev m.expectedChunks m.chunkIdsDigest
          m.contentDigest = true := by
  unfold isDocComplete
  constructor
  · intro h
    split at h
    · cases h
    · next m hm =>
      obtain ⟨hm, hk⟩ := readCompletion_iff.mp hm
      simp only [Bool.and_eq_true, decide_eq_true_eq, Option.all_eq_true] at h
      exact ⟨m, hm, hk, h.1.1.1, h.1.1.2, h.1.2, h.2⟩
  · rintro ⟨m, hm, hk, h1, h2, h3, h4⟩
    rw [readCompletion_iff.mpr ⟨hm, hk⟩]
    simp only [Bool.and_eq_true, decide_eq_true_eq, Option.all_eq_true]
    exact ⟨⟨⟨h1, h2⟩, h3⟩, h4⟩

theorem isRevisionCommitted_iff {s : Store N V} {settings : Settings N} {docId sourceRev : Text}
    {ancestor : Option N} :
    isRevisionCommitted s settings docId sourceRev ancestor = true ↔
      ∃ m ∈ s.markers, m.docId = docId ∧ m.sourceRev = sourceRev ∧
        (m.targetCollection = settings.qdrantCollection ∨ ancestor = some m.targetCollection) ∧
        m.verifies s.points = true := by
  simp [isRevisionCommitted, and_assoc]

end

end MainframeRag.Ingest
