import MainframeRag.Ingest.Refresh
import MainframeRag.Ingest.ProgressLog

/-!
# What a refresh replaces

`_plan` hands every queued document the revision of its path's latest inventory record, of whatever
status, as the revision its refresh replaces. `refreshReplaces_iff` says when a refresh that returns
`upserted` removes the revision the path last committed.
-/

namespace MainframeRag.Ingest

open PyText Chunking

variable {N V F : Type} [DecidableEq N] {U : CharTables}

/-- `lineage_by_path.get(path)` -/
def lineageByPath (inventory : Inventory F) (path : Text) : Option Text :=
  (inventory path).bind (·.sourceRev)

/-- The latest record of a path that says its revision is stored. -/
def lastCommitted (history : List (InventoryRecord F)) (path : Text) : Option (InventoryRecord F) :=
  (history.filter (fun r => r.path = path ∧
    (r.status = "upserted".toList ∨ r.status = "skipped".toList))).getLast?

/-- Neither a point nor a completion record of the revision is left. -/
def Gone (sourceRev : Text) (s : Store N V) : Prop :=
  (∀ p ∈ s.points, p.sourceRev ≠ some sourceRev) ∧ ∀ m ∈ s.markers, m.sourceRev ≠ sourceRev

/-- The plan of a document without lineage sweeps the revision. -/
def SweptAsResidue (b : Build N) (d : Doc U V) (sourceRev : Text) (s : Store N V) : Prop :=
  (∃ p ∈ s.points, p.docId = d.docId ∧ p.sourceRev = some sourceRev) ∧
    isRevisionCommitted s b.settings d.docId sourceRev b.ancestor = false

/-! ## The plan, revision by revision -/

section

variable {b : Build N} {d : Doc U V} {lineageRev : Option Text} {s s' : Store N V}

omit [DecidableEq N] in
theorem mem_storedDocRevisions {docId : Text} {r : Option Text} :
    r ∈ storedDocRevisions s docId ↔ ∃ p ∈ s.points, p.docId = docId ∧ p.sourceRev = r := by
  simp [storedDocRevisions, Keyed.mem_def, and_assoc]

omit [DecidableEq N] in
theorem mem_named {docId r : Text} :
    r ∈ (storedDocRevisions s docId).filterMap id ↔
      ∃ p ∈ s.points, p.docId = docId ∧ p.sourceRev = some r := by
  rw [← mem_storedDocRevisions]
  simp

omit [DecidableEq N] in
theorem revisionStored_iff {sourceRev : Text} :
    revisionStored s sourceRev = true ↔ ∃ p ∈ s.points, p.sourceRev = some sourceRev := by
  simp [revisionStored]

/-- Another revision is planned for deletion as the stored lineage, or as residue. -/
theorem mem_planRefreshDeletes {revDeletes : List Text} {r : Text}
    (h : planRefreshDeletes b s d.docId d.revision lineageRev = .ok revDeletes)
    (hr : r ≠ d.revision) :
    r ∈ revDeletes ↔
      (lineageRev = some r ∧ ∃ p ∈ s.points, p.sourceRev = some r) ∨
      (lineageRev = none ∧ SweptAsResidue b d r s) := by
  have hown : ∀ named : List Text,
      r ∉ (if d.revision ∈ named then [d.revision] else []) := by
    intro named hm
    split at hm <;> simp_all
  unfold planRefreshDeletes at h
  simp only at h
  split at h
  · cases h
  · cases lineageRev with
    | some l =>
      simp only at h
      split at h
      · next hl =>
        simp only [Except.ok.injEq] at h
        rw [← h, List.mem_cons, or_iff_left (hown _)]
        constructor
        · rintro rfl
          refine .inl ⟨rfl, ?_⟩
          rcases hl.2 with hn | hs
          · obtain ⟨p, hp, -, hpr⟩ := mem_named.mp hn
            exact ⟨p, hp, hpr⟩
          · exact revisionStored_iff.mp hs
        · rintro (⟨hl', -⟩ | ⟨hl', -⟩)
          · exact (Option.some.inj hl').symm
          · cases hl'
      · next hl =>
        simp only [Except.ok.injEq] at h
        rw [← h, iff_false_left (hown _)]
        rintro (⟨hl', hp⟩ | ⟨hl', -⟩)
        · obtain rfl := Option.some.inj hl'
          exact hl ⟨hr, .inr (revisionStored_iff.mpr hp)⟩
        · cases hl'
    | none =>
      simp only [Except.ok.injEq] at h
      rw [← h, List.mem_append, or_iff_right (hown _)]
      simp only [List.mem_filter, mem_sortTexts, mem_named, decide_eq_true_eq, Bool.not_eq_true',
        SweptAsResidue, reduceCtorEq, false_and, true_and, false_or]
      tauto

/-- The document's own revision is planned for deletion where it is stored under the document. -/
theorem own_mem_planRefreshDeletes {revDeletes : List Text}
    (h : planRefreshDeletes b s d.docId d.revision lineageRev = .ok revDeletes) :
    d.revision ∈ revDeletes ↔ ∃ p ∈ s.points, p.docId = d.docId ∧ p.sourceRev = some d.revision := by
  rw [← mem_named]
  have hown : ∀ named : List Text,
      d.revision ∈ (if d.revision ∈ named then [d.revision] else []) ↔ d.revision ∈ named := by
    intro named
    split <;> simp_all
  unfold planRefreshDeletes at h
  simp only at h
  split at h
  · cases h
  · cases lineageRev with
    | some l =>
      simp only at h
      split at h
      · next hl =>
        simp only [Except.ok.injEq] at h
        rw [← h, List.mem_cons, or_iff_right (Ne.symm hl.1), hown]
      · simp only [Except.ok.injEq] at h
        rw [← h, hown]
    | none =>
      simp only [Except.ok.injEq] at h
      rw [← h, List.mem_append, hown, or_iff_left]
      simp

omit [DecidableEq N] in
/-- Chunks are written under the document's own revision only. -/
theorem no_points_of_revision {revDeletes : List Text} {r : Text} (hr : r ≠ d.revision) :
    (∀ p ∈ (refreshedStore b d lineageRev revDeletes s).points, p.sourceRev ≠ some r) ↔
      r ∈ revDeletes ∨ ∀ p ∈ s.points, p.sourceRev ≠ some r := by
  have hown : ∀ p ∈ d.points b.rulesV, p.sourceRev ≠ some r := by
    intro p hp
    rw [Doc.points_sourceRev hp]
    exact fun h => hr (Option.some.inj h).symm
  constructor
  · intro hgone
    by_contra hcon
    simp only [not_or, not_forall, not_not] at hcon
    obtain ⟨hrd, p, hp, hpr⟩ := hcon
    have hkey : p.id ∉ (d.points b.rulesV).map Point.id := by
      intro hk
      obtain ⟨q, hq, hqk⟩ := List.mem_map.mp hk
      refine hown q hq ?_
      rw [Point.sourceRev, hqk]
      exact hpr
    refine hgone p ?_ hpr
    refine (Keyed.mem_upsertAll_of_not_mem hkey).mpr (mem_clearedStore_points.mpr ⟨hp, ?_⟩)
    intro r' hr' heq
    rw [hpr] at heq
    exact hrd (Option.some.inj heq ▸ hr')
  · intro hor p hp hpr
    rcases Keyed.mem_upsertAll_cases hp with hq | ⟨hq, -⟩
    · exact hown p hq hpr
    · obtain ⟨hq, hdel⟩ := mem_clearedStore_points.mp hq
      rcases hor with hrd | hnone
      · exact hdel r hrd hpr
      · exact hnone p hq hpr

omit [DecidableEq N] in
/-- The lineage's records go even where it has no points. -/
theorem no_markers_of_revision {revDeletes : List Text} {r : Text} (hr : r ≠ d.revision) :
    (∀ m ∈ (refreshedStore b d lineageRev revDeletes s).markers, m.sourceRev ≠ r) ↔
      r ∈ revDeletes ∨ lineageRev = some r ∨ ∀ m ∈ s.markers, m.sourceRev ≠ r := by
  constructor
  · intro hgone
    by_contra hcon
    simp only [not_or, not_forall, not_not] at hcon
    obtain ⟨hrd, hl, m, hms, hmr⟩ := hcon
    refine hgone m (mem_clearedStore_markers.mpr ⟨hms, ?_, ?_⟩) hmr
    · exact fun hk => hr (hmr ▸ hk.2)
    · exact fun _ => hmr ▸ ⟨hrd, hl⟩
  · intro hor m hms hmr
    obtain ⟨hms, -, hdel⟩ := mem_clearedStore_markers.mp hms
    obtain ⟨h1, h2⟩ := hdel (hmr ▸ hr)
    rcases hor with hrd | hl | hnone
    · exact h1 (hmr ▸ hrd)
    · exact h2 (hmr ▸ hl)
    · exact hnone m hms hmr

/-- The document's own record says nothing about other revisions. -/
theorem gone_writeMarker {m : CompletionRecord N} {r : Text} (hr : r ≠ m.sourceRev) :
    Gone r (writeMarker m s) ↔ Gone r s := by
  refine and_congr_right fun _ => ?_
  constructor
  · intro h m' hm' hr'
    refine h m' (Keyed.mem_upsert.mpr (.inr ⟨hm', ?_⟩)) hr'
    exact fun hk => hr (hr' ▸ congrArg CompletionKey.sourceRev hk)
  · intro h m' hm' hr'
    rcases Keyed.mem_upsert.mp hm' with rfl | ⟨hm', -⟩
    · exact hr hr'.symm
    · exact h m' hm' hr'

/-- After a refresh another revision is gone exactly when the refresh replaced or swept it, or it
was not there. -/
theorem gone_after_upsert {r : Text} (hr : r ≠ d.revision)
    (h : (upsertOne b d lineageRev).run s = (.ok .upserted, s')) :
    Gone r s' ↔ lineageRev = some r ∨ Gone r s ∨ (lineageRev = none ∧ SweptAsResidue b d r s) := by
  rcases upsertOne_ok h with ⟨h1, -⟩ | ⟨h1, -⟩ | ⟨-, -, -, hc, revDeletes, hplan, rfl, -⟩
  · cases h1
  · cases h1
  rw [gone_writeMarker (m := completionRecord b d hc) hr, Gone, no_points_of_revision hr,
    no_markers_of_revision hr, mem_planRefreshDeletes hplan hr, Gone]
  constructor
  · rintro ⟨(⟨hl, -⟩ | hsw) | hp, hm⟩
    · exact .inl hl
    · exact .inr (.inr hsw)
    · rcases hm with (⟨hl, -⟩ | hsw) | hl | hm
      · exact .inl hl
      · exact .inr (.inr hsw)
      · exact .inl hl
      · exact .inr (.inl ⟨hp, hm⟩)
  · rintro (hl | ⟨hp, hm⟩ | hsw)
    · refine ⟨?_, .inr (.inl hl)⟩
      by_cases hst : ∃ p ∈ s.points, p.sourceRev = some r
      · exact .inl (.inl ⟨hl, hst⟩)
      · exact .inr (fun p hp hpr => hst ⟨p, hp, hpr⟩)
    · exact ⟨.inr hp, .inr (.inr hm)⟩
    · exact ⟨.inl (.inr hsw), .inl (.inr hsw)⟩

end

/-! ## The path's last committed revision -/

/-- A refresh of `path` over the target `s`, called with the lineage of the log that `history` left,
removes the revision the path last committed. -/
def RefreshReplaces (P : Pydantic F) (b : Build N) (d : Doc U V) (path : Text)
    (history : List (InventoryRecord F)) (s : Store N V) : Prop :=
  ∀ inventory rOld s', loadInventory P (history.foldl (appendRecord P) []) = some inventory →
    (lastCommitted history path).bind (·.sourceRev) = some rOld → rOld ≠ d.revision →
    (upsertOne b d (lineageByPath inventory path)).run s = (.ok .upserted, s') → Gone rOld s'

/-- The old revision is the lineage, or not stored, or residue under the document of a path without
lineage. -/
def OldReplaceable (b : Build N) (d : Doc U V) (lineageRev : Option Text) (rOld : Text)
    (s : Store N V) : Prop :=
  lineageRev = some rOld ∨ Gone rOld s ∨ (lineageRev = none ∧ SweptAsResidue b d rOld s)

theorem refreshReplaces_iff (P : Pydantic F) (b : Build N) (d : Doc U V) (path : Text)
    (history : List (InventoryRecord F)) (s : Store N V) :
    RefreshReplaces P b d path history s ↔
      ∀ inventory rOld s', loadInventory P (history.foldl (appendRecord P) []) = some inventory →
        (lastCommitted history path).bind (·.sourceRev) = some rOld → rOld ≠ d.revision →
        (upsertOne b d (lineageByPath inventory path)).run s = (.ok .upserted, s') →
        OldReplaceable b d (lineageByPath inventory path) rOld s := by
  constructor
  · intro h inventory rOld s' hl hc hr hrun
    exact (gone_after_upsert hr hrun).mp (h inventory rOld s' hl hc hr hrun)
  · intro h inventory rOld s' hl hc hr hrun
    exact (gone_after_upsert hr hrun).mpr (h inventory rOld s' hl hc hr hrun)

/-! ## A dry run in between -/

/-- A one-chunk document with a form number and a content hash. -/
def formDoc (form sha256 : Text) : Doc asciiTables Unit where
  parsed := { path := "a.pdf".toList, sha256 := sha256, docId := 'S' :: form, title := form }
  chunks := [{ chunkId := [], docId := 'S' :: form, headingPath := form, pageStart := 0,
               pageLabel := [], chunkType := "prose".toList, text := "text".toList,
               messageIds := [], members := [], ordinal := 0, systemCodes := [], units := some [],
               pageEnd := 0 }]
  vectors := [()]
  docId_ne := by simp

/-- A build of the collection `target`, cloned from `ancestor`. -/
def plainBuild (target : Nat) (ancestor : Option Nat) : Build Nat where
  settings := { qdrantCollection := target, embedMode := "hash".toList, denseDim := some 8 }
  batchSize := 64
  batchSize_pos := by decide
  rulesV := "rules".toList
  srcLabels := sourceLabels none none none
  forceReingest := false
  ancestor := ancestor

/-- The record of a path for a document and a status. -/
def formRecord (path form sha256 status : Text) : InventoryRecord Nat where
  path := path
  sha256 := sha256
  docId := some (formDoc form sha256).docId
  status := status
  rulesVersion := some "rules".toList
  sourceRev := some (formDoc form sha256).revision
  seconds := 0
  finishedAt := 0

/-- The target once the documents are upserted into the empty one, without lineage. -/
def storeOf (b : Build Nat) (docs : List (Doc asciiTables Unit)) : Store Nat Unit :=
  docs.foldl (fun s d => ((upsertOne b d none).run s).2) ⟨.empty, .empty⟩

/-- Content `1` upserted, then a dry run over content `2`. -/
def dryHistory : List (InventoryRecord Nat) :=
  [formRecord "a.pdf".toList ['A'] ['1'] "upserted".toList,
    formRecord "a.pdf".toList ['A'] ['2'] "dry".toList]

/-- The dry record is the lineage of the next refresh, and the old points stay. -/
theorem dry_record_keeps_old :
    ¬∀ history s, RefreshReplaces wholeSeconds (plainBuild 0 none) (formDoc ['A'] ['2'])
      "a.pdf".toList history s := by
  intro h
  have hraw : ∀ r ∈ dryHistory, ¬r.hasRawBreak := by decide +kernel
  have hload := loadInventory_progress (P := wholeSeconds) hraw
  have hlast : (lastCommitted dryHistory "a.pdf".toList).bind (·.sourceRev) =
      some (formDoc ['A'] ['1']).revision := by decide +kernel
  have hnew : (formDoc ['A'] ['1']).revision ≠ (formDoc ['A'] ['2']).revision := by decide +kernel
  have hlin : lineageByPath (dryHistory.foldl Inventory.set Inventory.empty) "a.pdf".toList =
      some (formDoc ['A'] ['2']).revision := by decide +kernel
  have hrep := h dryHistory (storeOf (plainBuild 0 none) [formDoc ['A'] ['1']]) _ _
    ((upsertOne (plainBuild 0 none) (formDoc ['A'] ['2']) (some (formDoc ['A'] ['2']).revision)).run
      (storeOf (plainBuild 0 none) [formDoc ['A'] ['1']])).2 hload hlast hnew
  rw [hlin] at hrep
  have hrun : ((upsertOne (plainBuild 0 none) (formDoc ['A'] ['2'])
      (some (formDoc ['A'] ['2']).revision)).run
      (storeOf (plainBuild 0 none) [formDoc ['A'] ['1']])).1 = .ok .upserted := by decide +kernel
  have hkept : ∃ p ∈ ((upsertOne (plainBuild 0 none) (formDoc ['A'] ['2'])
      (some (formDoc ['A'] ['2']).revision)).run
      (storeOf (plainBuild 0 none) [formDoc ['A'] ['1']])).2.points.items,
      p.sourceRev = some (formDoc ['A'] ['1']).revision := by decide +kernel
  obtain ⟨p, hp, hpr⟩ := hkept
  exact (hrep (Prod.ext hrun rfl)).1 p hp hpr

end MainframeRag.Ingest
