import MainframeRag.Ingest.Completion
import Mathlib

/-!
# Refreshing one document

`_upsert_one`: skip a document whose generation is complete, else plan which revisions its refresh
deletes (`plan_refresh_deletes`), drop their completion records and points, write the chunks, verify
them and record the completion.

`upsertOne_ok` says what a call that returns leaves behind.
-/

namespace MainframeRag.Ingest

open PyText Chunking

/-- What the documents of one run share. -/
structure Build (N : Type) where
  settings : Settings N
  batchSize : Nat
  batchSize_pos : 0 < batchSize
  rulesV : Text
  srcLabels : Text
  forceReingest : Bool
  /-- the live generation the target was cloned from -/
  ancestor : Option N

variable {N V : Type} [DecidableEq N] {U : CharTables}

def sortTexts (ts : List Text) : List Text := ts.dedup.insertionSort (fun a b => ¬ b < a)

@[simp] theorem mem_sortTexts {ts : List Text} {t : Text} : t ∈ sortTexts ts ↔ t ∈ ts := by
  simp [sortTexts, List.mem_dedup]

/-! ## The delete plan -/

inductive UpsertError
  /-- chunks/vectors length mismatch -/
  | lengthMismatch (docId : Text) (chunks vectors : Nat)
  /-- points without a source revision; the first 16 characters of their hashes -/
  | unsupportedLegacyData (docId : Text) (sha16s : List Text)
  | countMismatch (docId : Text) (upserted expected : Nat)
  | verificationFailed (docId : Text) (expected : Nat)
  deriving DecidableEq

/-- `stored_doc_revisions` -/
def storedDocRevisions (s : Store N V) (docId : Text) : List (Option Text) :=
  (s.points.items.filter (fun p => p.docId = docId)).map Point.sourceRev

/-- `_stray_sha16s` -/
def straySha16s (s : Store N V) (docId : Text) : List Text :=
  sortTexts ((s.points.items.filter
    (fun p => p.docId = docId ∧ p.sourceRev = none ∧ p.sha256 ≠ [])).map (fun p => p.sha256.take 16))

/-- `_revision_stored` -/
def revisionStored (s : Store N V) (sourceRev : Text) : Bool :=
  s.points.any (fun p => p.sourceRev = some sourceRev)

/-- The revisions a refresh of `sourceRev` under `docId` deletes. -/
def planRefreshDeletes (b : Build N) (s : Store N V) (docId sourceRev : Text)
    (lineageRev : Option Text) : Except UpsertError (List Text) :=
  let present := storedDocRevisions s docId
  if none ∈ present then .error (.unsupportedLegacyData docId (straySha16s s docId))
  else
    let named := present.filterMap id
    let dels := if sourceRev ∈ named then [sourceRev] else []
    match lineageRev with
    | some l =>
      if l ≠ sourceRev ∧ (l ∈ named ∨ revisionStored s l) then .ok (l :: dels) else .ok dels
    | none =>
      -- committed others coexist, residue goes
      .ok (dels ++ (sortTexts (named.filter (· ≠ sourceRev))).filter
        (fun other => !isRevisionCommitted s b.settings docId other b.ancestor))

/-! ## The upsert -/

/-- `points[i : i + batch]` for `i` in `range(0, len(points), batch)` -/
def batches {α : Type} (size : Nat) (xs : List α) : List (List α) :=
  (List.range ((xs.length + size - 1) / size)).map (fun i => (xs.drop (i * size)).take size)

def upsertPoints (batch : List (Point V)) (s : Store N V) : Store N V :=
  { s with points := s.points.upsertAll batch }

def writeMarker (m : CompletionRecord N) (s : Store N V) : Store N V :=
  { s with markers := s.markers.upsert m }

/-- The record `write_completion` stores for a document. -/
def completionRecord (b : Build N) (d : Doc U V) (h : d.chunks ≠ []) : CompletionRecord N where
  docId := d.docId
  sha256 := d.sha256
  rulesV := b.rulesV
  targetCollection := b.settings.qdrantCollection
  generationId := docGenerationId b.settings d.sha256 b.rulesV b.srcLabels
  expectedChunks := (expectedDigests d.texts).1
  chunkIdsDigest := (expectedDigests d.texts).2.1
  contentDigest := (expectedDigests d.texts).2.2
  manifestDigest := manifestDigest b.settings b.rulesV
  sourceRev := d.revision
  docId_ne := d.docId_ne
  one_le := by
    have := List.length_pos_iff.mpr h
    simp only [expectedDigests, Doc.texts, List.length_map]
    omega

inductive UpsertStatus
  | upserted
  | skipped
  | empty
  deriving DecidableEq

/-- The document's own skip gate. -/
def docComplete (b : Build N) (d : Doc U V) (s : Store N V) : Bool :=
  isDocComplete s b.settings d.docId d.sha256 b.rulesV b.srcLabels d.revision none

/-- The revisions whose records go although they are not the document's own. -/
def otherScopes (d : Doc U V) (lineageRev : Option Text) (revDeletes : List Text) : List Text :=
  sortTexts (revDeletes.filter (· ≠ d.revision) ++
    lineageRev.toList.filter (· ≠ d.revision))

/-- `_upsert_one` -/
def upsertOne (b : Build N) (d : Doc U V) (lineageRev : Option Text) :
    Prog (Store N V) UpsertError UpsertStatus :=
  if h : d.chunks = [] then return .empty
  else if d.chunks.length ≠ d.vectors.length then
    .fail (.lengthMismatch d.docId d.chunks.length d.vectors.length)
  else do
    let s ← Prog.get
    if !b.forceReingest && docComplete b d s then return .skipped
    match planRefreshDeletes b s d.docId d.revision lineageRev with
    | .error e => .fail e
    | .ok revDeletes =>
      Prog.modify (deleteCompletion d.docId d.revision)
      Prog.writeEach deleteRevisionCompletions (otherScopes d lineageRev revDeletes)
      Prog.writeEach deleteByRevision (sortTexts revDeletes)
      let points := d.points b.rulesV
      Prog.writeEach upsertPoints (batches b.batchSize points)
      let (expected, idsDigest, contentDigest) := expectedDigests d.texts
      Prog.require (points.length = expected)
        (.countMismatch d.docId points.length expected)
      let s ← Prog.get
      Prog.require (verifyDocPoints s.points d.docId d.sha256 b.rulesV d.revision expected idsDigest
        contentDigest) (.verificationFailed d.docId expected)
      Prog.modify (writeMarker (completionRecord b d h))
      return .upserted

/-! ## What a call leaves behind -/

section

variable {b : Build N} {d : Doc U V} {lineageRev : Option Text} {s s' : Store N V}

omit [DecidableEq N] in
theorem flatten_batches {α : Type} {size : Nat} (hs : 0 < size) (xs : List α) :
    (batches size xs).flatten = xs := by
  have h : ∀ n, ((List.range n).map (fun i => (xs.drop (i * size)).take size)).flatten =
      xs.take (n * size) := by
    intro n
    induction n with
    | zero => simp
    | succ n ih =>
      rw [List.range_succ, List.map_append, List.flatten_append, ih, Nat.succ_mul, List.take_add]
      simp
  rw [batches, h, List.take_of_length_le]
  have := Nat.lt_div_mul_add (a := xs.length + size - 1) hs
  omega

omit [DecidableEq N] in
theorem foldl_upsertPoints (bs : List (List (Point V))) (s : Store N V) :
    bs.foldl (fun s batch => upsertPoints batch s) s = upsertPoints bs.flatten s := by
  induction bs generalizing s with
  | nil => rfl
  | cons batch bs ih =>
    rw [List.foldl_cons, ih, List.flatten_cons]
    simp only [upsertPoints, Keyed.upsertAll_append]

omit [DecidableEq N] in
theorem foldl_deleteRevisionCompletions (revs : List Text) (s : Store N V) :
    (revs.foldl (fun s r => deleteRevisionCompletions r s) s).points = s.points ∧
      ∀ m, m ∈ (revs.foldl (fun s r => deleteRevisionCompletions r s) s).markers ↔
        m ∈ s.markers ∧ m.sourceRev ∉ revs := by
  induction revs generalizing s with
  | nil => simp
  | cons r revs ih =>
    obtain ⟨hp, hm⟩ := ih (deleteRevisionCompletions r s)
    refine ⟨hp, fun m => ?_⟩
    rw [List.foldl_cons, hm m, mem_deleteRevisionCompletions, List.mem_cons, not_or, and_assoc]

omit [DecidableEq N] in
theorem foldl_deleteByRevision (revs : List Text) (s : Store N V) :
    (revs.foldl (fun s r => deleteByRevision r s) s).markers = s.markers ∧
      ∀ p, p ∈ (revs.foldl (fun s r => deleteByRevision r s) s).points ↔
        p ∈ s.points ∧ ∀ r ∈ revs, p.sourceRev ≠ some r := by
  induction revs generalizing s with
  | nil => simp
  | cons r revs ih =>
    obtain ⟨hm, hp⟩ := ih (deleteByRevision r s)
    refine ⟨hm, fun p => ?_⟩
    rw [List.foldl_cons, hp p, mem_deleteByRevision, List.forall_mem_cons, and_assoc]

/-- The store with the plan's records and points gone. -/
def clearedStore (d : Doc U V) (lineageRev : Option Text) (revDeletes : List Text)
    (s : Store N V) : Store N V :=
  (sortTexts revDeletes).foldl (fun s r => deleteByRevision r s)
    ((otherScopes d lineageRev revDeletes).foldl (fun s r => deleteRevisionCompletions r s)
      (deleteCompletion d.docId d.revision s))

/-- The store with the document's chunks written instead. -/
def refreshedStore (b : Build N) (d : Doc U V) (lineageRev : Option Text) (revDeletes : List Text)
    (s : Store N V) : Store N V :=
  upsertPoints (d.points b.rulesV) (clearedStore d lineageRev revDeletes s)

omit [DecidableEq N] in
theorem mem_clearedStore_points {revDeletes : List Text} {p : Point V} :
    p ∈ (clearedStore d lineageRev revDeletes s).points ↔
      p ∈ s.points ∧ ∀ r ∈ revDeletes, p.sourceRev ≠ some r := by
  unfold clearedStore
  rw [(foldl_deleteByRevision _ _).2, (foldl_deleteRevisionCompletions _ _).1]
  simp

omit [DecidableEq N] in
theorem mem_clearedStore_markers {revDeletes : List Text} {m : CompletionRecord N} :
    m ∈ (clearedStore d lineageRev revDeletes s).markers ↔
      m ∈ s.markers ∧ ¬(m.docId = d.docId ∧ m.sourceRev = d.revision) ∧
        (m.sourceRev ≠ d.revision → m.sourceRev ∉ revDeletes ∧ lineageRev ≠ some m.sourceRev) := by
  unfold clearedStore
  rw [(foldl_deleteByRevision _ _).1, (foldl_deleteRevisionCompletions _ _).2, mem_deleteCompletion]
  simp only [otherScopes, mem_sortTexts, List.mem_append, List.mem_filter, decide_eq_true_eq,
    Option.mem_toList, not_or, not_and_or, not_not, and_assoc]
  refine and_congr_right fun _ => and_congr_right fun _ => ?_
  by_cases hr : m.sourceRev = d.revision
  · simp [hr]
  · simp [hr]

/-- A call that returns skipped the document, or left it refreshed and verified. -/
theorem upsertOne_ok {status : UpsertStatus}
    (h : (upsertOne b d lineageRev).run s = (.ok status, s')) :
    (status = .empty ∧ s' = s) ∨
    (status = .skipped ∧ s' = s ∧ b.forceReingest = false ∧ docComplete b d s = true) ∨
    (status = .upserted ∧ (b.forceReingest = true ∨ docComplete b d s = false) ∧
      d.chunks.length = d.vectors.length ∧
      ∃ (hc : d.chunks ≠ []) (revDeletes : List Text),
        planRefreshDeletes b s d.docId d.revision lineageRev = .ok revDeletes ∧
        s' = writeMarker (completionRecord b d hc) (refreshedStore b d lineageRev revDeletes s) ∧
        verifyDocPoints (refreshedStore b d lineageRev revDeletes s).points d.docId d.sha256
          b.rulesV d.revision (expectedDigests d.texts).1 (expectedDigests d.texts).2.1
          (expectedDigests d.texts).2.2 = true) := by
  unfold upsertOne at h
  split at h
  · simp only [Prog.run_pure, Prod.mk.injEq, Except.ok.injEq] at h
    exact .inl ⟨h.1.symm, h.2.symm⟩
  · next hc =>
    split at h
    · simp at h
    · next hlen =>
      have hlen : d.chunks.length = d.vectors.length := by simpa using hlen
      simp only [Prog.run_bind, Prog.run_get] at h
      split at h
      · next hskip =>
        simp only [Prog.run_pure, Prod.mk.injEq, Except.ok.injEq] at h
        simp only [Bool.and_eq_true, Bool.not_eq_true'] at hskip
        exact .inr (.inl ⟨h.1.symm, h.2.symm, hskip⟩)
      · next hskip =>
        have hskip : b.forceReingest = true ∨ docComplete b d s = false := by
          simpa [imp_iff_not_or] using hskip
        cases hplan : planRefreshDeletes b s d.docId d.revision lineageRev with
        | error e => simp [hplan] at h
        | ok revDeletes =>
          simp only [hplan, Prog.run_bind, Prog.run_modify, Prog.run_writeEach, Prog.run_require,
            Prog.run_get, Prog.run_pure, foldl_upsertPoints,
            flatten_batches b.batchSize_pos] at h
          split at h
          · next hreq =>
            split at hreq
            · simp only [Prod.mk.injEq, true_and] at hreq
              subst hreq
              split at h
              · next hver =>
                split at hver
                · next hv =>
                  simp only [Prod.mk.injEq, true_and] at hver
                  subst hver
                  simp only [Prod.mk.injEq, Except.ok.injEq] at h
                  exact .inr (.inr ⟨h.1.symm, hskip, hlen, hc, revDeletes, rfl, h.2.symm, hv⟩)
                · simp at hver
              · simp at h
            · simp at hreq
          · simp at h

end

end MainframeRag.Ingest
