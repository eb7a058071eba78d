import MainframeRag.Ingest.Build
import MainframeRag.Lib.JsonText

/-!
# The source catalog

`ingest/catalog.py`: one entry for each published source revision, built from the stored chunks and
their completion markers, kept in the control collection and read back before the receipt is
written.

The builder and the decoder check an entry separately. Everything the builder works out passes the
decoder; the title and the digest are copied from the chunks, where the decoder is stricter
(`catalog_read_iff`).

`uuid5` and the reading of a completion marker are parameters.
-/

namespace MainframeRag.Ingest.Catalog

open PyText PyJson JsonText Fallible Hex

variable {F : Type}

/-! ## Data model -/

/-- `DATA_FIELDS[1:6]` -/
inductive LabelKey
  | sourceDocId
  | sourceSha256
  | title
  | product
  | version
  deriving DecidableEq

def LabelKey.field : LabelKey → Text
  | .sourceDocId => "doc_id".toList
  | .sourceSha256 => "sha256".toList
  | .title => "title".toList
  | .product => "product".toList
  | .version => "version".toList

/-- The messages of `SourceCatalogError`. -/
inductive CatalogError
  | markerUnreadable
  | twoMarkers
  | noMarkers
  | noRevision
  | invalidSpan
  | nonTextLabel
  | revisionsDiffer
  | labelsDisagree
  | markerMismatch
  | malformed
  | invalidSummary
  | receiptMismatch
  deriving DecidableEq

/-- What the catalog reads of a validated `CompletionRecord`. -/
structure Marker where
  docId : Text
  sha256 : Text
  expectedChunks : Int
  sourceRev : Text
  deriving DecidableEq

structure Entry where
  sourceRevision : Text
  sourceSha256 : Text
  docId : Text
  title : Option Text
  product : Option Text
  version : Option Text
  chunkCount : Int
  firstPage : Int
  lastPage : Int
  firstLabel : Option Text
  lastLabel : Option Text
  indexedPages : Int
  deriving DecidableEq

/-- A point of the control collection, without its vectors. -/
structure ControlPoint (F : Type) where
  id : Text
  payload : Items F

abbrev Control (F : Type) := Keyed (ControlPoint F) ControlPoint.id

/-! ## Reading the chunks -/

/-- The checks on one stored chunk. -/
structure ChunkRow where
  rev : Text
  start : Int
  stop : Int
  labels : LabelKey → Option Text
  /-- `_edge_label(…, 0)` -/
  lowLabel : Option Text
  /-- `_edge_label(…, -1)` -/
  highLabel : Option Text

/-- `_edge_label` -/
def edgeLabel (label : Json F) (upper : Bool) : Option Text :=
  match label with
  | .str [] => none
  | .str t =>
    match t.splitOn '–' with
    | [_] => some t
    | [low, high] => if (if upper then high else low) = [] then none
      else some (if upper then high else low)
    | _ => none
  | _ => none

/-- An identity label: text or `None`. -/
def optLabel : Json F → Except CatalogError (Option Text)
  | .null => .ok none
  | .str t => .ok (some t)
  | _ => .error .nonTextLabel

/-- `payload.get(key)` where it is an integer. -/
def intField (d : Items F) (key : Text) : Option Int :=
  match get d key with
  | .int n => some n
  | _ => none

def asText : Json F → Option Text
  | .str t => some t
  | _ => none

/-- `payload.get(key)` where it is a text. -/
def textField (d : Items F) (key : Text) : Option Text := asText (get d key)

def readRow (payload : Items F) : Except CatalogError ChunkRow := do
  let rev ← orRaise (textField payload "source_rev".toList) .noRevision
  ensure (rev ≠ []) .noRevision
  let start ← orRaise (intField payload "page_start".toList) .invalidSpan
  let stop ← orRaise (intField payload "page_end".toList) .invalidSpan
  ensure (0 ≤ start ∧ start ≤ stop) .invalidSpan
  let docId ← optLabel (get payload LabelKey.sourceDocId.field)
  let sha256 ← optLabel (get payload LabelKey.sourceSha256.field)
  let title ← optLabel (get payload LabelKey.title.field)
  let product ← optLabel (get payload LabelKey.product.field)
  let version ← optLabel (get payload LabelKey.version.field)
  let labels : LabelKey → Option Text
    | .sourceDocId => docId
    | .sourceSha256 => sha256
    | .title => title
    | .product => product
    | .version => version
  return ⟨rev, start, stop, labels, edgeLabel (get payload "page_label".toList) false,
    edgeLabel (get payload "page_label".toList) true⟩

/-- One value of `acc`; a set is a list without repetitions. -/
structure Acc where
  count : Int
  labels : LabelKey → List (Option Text)
  spans : List (Int × Int)
  first : Option (Int × Option Text)
  last : Option (Int × Option Text)

def Acc.empty : Acc := ⟨0, fun _ => [], [], none, none⟩

/-- `_pick_edge` -/
def pickEdge (current : Option (Int × Option Text)) (candidate : Int × Option Text)
    (lower : Bool) : Int × Option Text :=
  match current with
  | none => candidate
  | some current =>
    if candidate.1 ≠ current.1 then
      if (if lower then candidate.1 < current.1 else current.1 < candidate.1) then candidate
      else current
    else if current.2 = none ∨ candidate.2 = none then (current.1, current.2.or candidate.2)
    else if current.2 = candidate.2 then current
    else (current.1, none)

def Acc.add (a : Acc) (r : ChunkRow) : Acc where
  count := a.count + 1
  labels k := (a.labels k).insert (r.labels k)
  spans := a.spans.insert (r.start, r.stop)
  first := some (pickEdge a.first (r.start, r.lowLabel) true)
  last := some (pickEdge a.last (r.stop, r.highLabel) false)

/-- The loop over the data points. -/
def scanRows : List (Items F) → Finmap (fun _ : Text => Acc) →
    Except CatalogError (Finmap fun _ : Text => Acc)
  | [], acc => .ok acc
  | payload :: rest, acc => do
    let r ← readRow payload
    scanRows rest (acc.insert r.rev (((acc.lookup r.rev).getD .empty).add r))

/-! ## Building -/

/-- One step of `_indexed_pages`, on `total` and `end`. -/
def indexedStep (s : Int × Int) (span : Int × Int) : Int × Int :=
  if span.2 ≤ s.2 then s
  else (s.1 + (span.2 - max span.1 (s.2 + 1) + 1), span.2)

/-- `_indexed_pages` -/
def indexedPages (spans : List (Int × Int)) : Int :=
  ((spans.insertionSort fun a b => toLex a ≤ toLex b).foldl indexedStep (0, -1)).1

variable (validateMarker : Items F → Option Marker)

/-- `_bound_markers`, from the payloads of the control collection. -/
def boundMarkers (physical : Text) : List (Items F) → Finmap (fun _ : Text => Marker) →
    Except CatalogError (Finmap fun _ : Text => Marker)
  | [], markers => do
    ensure (markers ≠ ∅) .noMarkers
    return markers
  | payload :: rest, markers =>
    if (payload.lookup "record_type".toList).isSome ∨
        textField payload "target_collection".toList ≠ some physical then
      boundMarkers physical rest markers
    else do
      let marker ← orRaise (validateMarker payload) .markerUnreadable
      ensure (marker.sourceRev ∉ markers) .twoMarkers
      boundMarkers physical rest (markers.insert marker.sourceRev marker)

/-- The one value of a label set. -/
def theLabel : List (Option Text) → Except CatalogError (Option Text)
  | [value] => .ok value
  | _ => .error .labelsDisagree

/-- The entry of one revision. -/
def entryOf (rev : Text) (a : Acc) (marker : Marker) : Except CatalogError Entry := do
  let docId ← theLabel (a.labels .sourceDocId)
  let sha256 ← theLabel (a.labels .sourceSha256)
  let title ← theLabel (a.labels .title)
  let product ← theLabel (a.labels .product)
  let version ← theLabel (a.labels .version)
  ensure (a.count = marker.expectedChunks ∧ docId = some marker.docId ∧
    sha256 = some marker.sha256 ∧ ('|' :: marker.sha256) <:+ rev) .markerMismatch
  let (firstPage, firstLabel) := a.first.getD (0, none)
  let (lastPage, lastLabel) := a.last.getD (0, none)
  return { sourceRevision := rev, sourceSha256 := marker.sha256, docId := marker.docId,
           title := title, product := product, version := version, chunkCount := a.count,
           firstPage := firstPage, lastPage := lastPage, firstLabel := firstLabel,
           lastLabel := lastLabel, indexedPages := indexedPages a.spans }

/-- The entries of the revisions, in order. -/
def entriesOf (acc : Finmap fun _ : Text => Acc) (markers : Finmap fun _ : Text => Marker) :
    List Text → Except CatalogError (List Entry)
  | [] => .ok []
  | rev :: revs => do
    let a ← orRaise (acc.lookup rev) .revisionsDiffer
    let marker ← orRaise (markers.lookup rev) .revisionsDiffer
    let entry ← entryOf rev a marker
    let entries ← entriesOf acc markers revs
    return entry :: entries

/-- `build_source_catalog`, from the payloads of the data and the control collection. -/
def buildSourceCatalog (physical : Text) (data control : List (Items F)) :
    Except CatalogError (List Entry) := do
  let markers ← boundMarkers validateMarker physical control ∅
  let acc ← scanRows data ∅
  ensure (acc.keys = markers.keys) .revisionsDiffer
  entriesOf acc markers (sorted acc.keys)

/-! ## Writing -/

def catalogRecordType : Text := "source-catalog-entry".toList

def catalogSchema : Int := 1

def optJson : Option Text → Json F
  | none => .null
  | some t => .str t

/-- The entry as a dict. -/
def Entry.items (e : Entry) : Items F :=
  [("source_revision".toList, .str e.sourceRevision), ("source_sha256".toList, .str e.sourceSha256),
    ("doc_id".toList, .str e.docId), ("title".toList, optJson e.title),
    ("product".toList, optJson e.product), ("version".toList, optJson e.version),
    ("chunk_count".toList, .int e.chunkCount),
    ("pages".toList, .obj [("first".toList, .int e.firstPage), ("last".toList, .int e.lastPage)]),
    ("page_labels".toList,
      .obj [("first".toList, optJson e.firstLabel), ("last".toList, optJson e.lastLabel)]),
    ("indexed_pages".toList, .int e.indexedPages)]

variable (N : Floats F)

/-- `_canonical` -/
def canonical (v : Json F) : Text := dumps N ⟨false, false⟩ v

/-- `catalog_point_id`; `uuid5` is taken in the URL namespace. -/
def catalogPointId (uuid5 : Text → Uuid) (control rev : Text) : Text :=
  (uuid5 ("source-catalog|".toList ++ control ++ '|' :: rev)).str

variable (uuid5 : Text → Uuid)

/-- The point of an entry; its payload holds a copy made through JSON. -/
def catalogPoint (control : Text) (e : Entry) : ControlPoint F where
  id := catalogPointId uuid5 control e.sourceRevision
  payload := [("record_type".toList, .str catalogRecordType),
    ("catalog_schema".toList, .int catalogSchema),
    ("entry".toList, (loads N (canonical N (.obj e.items))).getD .null)]

/-- `payload.get("record_type") == CATALOG_RECORD_TYPE` -/
def isCatalog (p : ControlPoint F) : Bool :=
  textField p.payload "record_type".toList = some catalogRecordType

/-- `write_source_catalog`: the stale entries go, then the new ones are written. -/
def writeSourceCatalog (control : Text) (c : Control F) (entries : List Entry) : Control F :=
  let stale := (c.items.filter isCatalog).map ControlPoint.id
  (c.remove fun p => p.id ∈ stale).upsertAll (entries.map (catalogPoint N uuid5 control))

/-! ## Reading -/

/-- `_opt_text` -/
def optText : Json F → Option (Option Text)
  | .null => some none
  | .str t => some (some t)
  | _ => none

/-- `_span_ok` with integers, and the two. -/
def intSpan : Json F → Option (Int × Int)
  | .obj d =>
    if (d.map Prod.fst).toFinset = {"first".toList, "last".toList} then do
      let first ← intField d "first".toList
      let last ← intField d "last".toList
      return (first, last)
    else none
  | _ => none

/-- `_span_ok` with labels, and the two. -/
def labelSpan : Json F → Option (Option Text × Option Text)
  | .obj d =>
    if (d.map Prod.fst).toFinset = {"first".toList, "last".toList} then do
      let first ← optText (get d "first".toList)
      let last ← optText (get d "last".toList)
      return (first, last)
    else none
  | _ => none

/-- `_ENTRY_KEYS` -/
def entryKeys : List Text :=
  ["source_revision".toList, "source_sha256".toList, "doc_id".toList, "title".toList,
    "product".toList, "version".toList, "chunk_count".toList, "pages".toList,
    "page_labels".toList, "indexed_pages".toList]

/-- The entry a dict is, where every field has its type. -/
def readEntry (d : Items F) : Option Entry := do
  let rev ← textField d "source_revision".toList
  let sha ← textField d "source_sha256".toList
  let docId ← textField d "doc_id".toList
  let title ← textField d "title".toList
  let product ← optText (get d "product".toList)
  let version ← optText (get d "version".toList)
  let count ← intField d "chunk_count".toList
  let (first, last) ← intSpan (get d "pages".toList)
  let (firstLabel, lastLabel) ← labelSpan (get d "page_labels".toList)
  let indexed ← intField d "indexed_pages".toList
  return ⟨rev, sha, docId, some title, product, version, count, first, last, firstLabel, lastLabel,
    indexed⟩

/-- What the decoder asks of the values of an entry. -/
def Entry.sane (e : Entry) : Prop :=
  e.sourceRevision ≠ [] ∧ isHex64 e.sourceSha256 = true ∧
    ('|' :: e.sourceSha256) <:+ e.sourceRevision ∧ 1 ≤ e.chunkCount ∧ 0 ≤ e.firstPage ∧
    e.firstPage ≤ e.lastPage ∧ 1 ≤ e.indexedPages ∧
    e.indexedPages ≤ e.lastPage - e.firstPage + 1

instance (e : Entry) : Decidable e.sane := by
  unfold Entry.sane
  infer_instance

/-- `decode_catalog_point` -/
def decodeCatalogPoint (control : Text) (p : ControlPoint F) : Except CatalogError Entry := do
  ensure ((p.payload.map Prod.fst).toFinset =
    {"record_type".toList, "catalog_schema".toList, "entry".toList}) .malformed
  ensure (textField p.payload "record_type".toList = some catalogRecordType ∧
    intField p.payload "catalog_schema".toList = some catalogSchema) .malformed
  match get p.payload "entry".toList with
  | .obj d => do
    ensure ((d.map Prod.fst).toFinset = entryKeys.toFinset) .malformed
    let e ← orRaise (readEntry d) .malformed
    ensure e.sane .malformed
    ensure (p.id = catalogPointId uuid5 control e.sourceRevision) .malformed
    return e
  | _ => .error .malformed

/-- The entries of the catalog points, in stored order. -/
def decodeAll (control : Text) : List (ControlPoint F) → Except CatalogError (List Entry)
  | [] => .ok []
  | p :: rest => do
    let e ← decodeCatalogPoint uuid5 control p
    let entries ← decodeAll control rest
    return e :: entries

/-- `sorted(entries, key=lambda e: e["source_revision"])` -/
def byRevision (entries : List Entry) : List Entry :=
  entries.insertionSort fun a b => a.sourceRevision ≤ b.sourceRevision

/-- `read_source_catalog` -/
def readSourceCatalog (control : Text) (c : Control F) : Except CatalogError (List Entry) := do
  let entries ← decodeAll uuid5 control (c.items.filter isCatalog)
  return byRevision entries

structure Summary where
  schema : Int
  count : Int
  sha256 : Text
  deriving DecidableEq

variable (H : Hash)

/-- `catalog_summary` -/
def catalogSummary (entries : List Entry) : Summary where
  schema := catalogSchema
  count := entries.length
  sha256 := H.hexdigest
    (encodeUtf8 (canonical N (.arr [.str "source-catalog".toList, .int catalogSchema,
      .int entries.length])) ++
    (byRevision entries).flatMap fun e => H.digest (encodeUtf8 (canonical N (.obj e.items))))

/-- `decode_catalog_summary` -/
def decodeCatalogSummary (s : Summary) : Except CatalogError Summary := do
  ensure (s.schema = catalogSchema ∧ 1 ≤ s.count ∧ isHex64 s.sha256 = true) .invalidSummary
  return s

/-- `verify_source_catalog` -/
def verifySourceCatalog (control : Text) (c : Control F) (summary : Summary) :
    Except CatalogError (List Entry) := do
  let expected ← decodeCatalogSummary summary
  let entries ← readSourceCatalog uuid5 control c
  ensure (catalogSummary N H entries = expected) .receiptMismatch
  return entries

/-! ## What the builder accumulates -/

/-- Page extremes of the rows seen so far. -/
def Edge (rows : List ChunkRow) (page : ChunkRow → Int) (better : Int → Int → Prop)
    (edge : Option (Int × Option Text)) : Prop :=
  (rows = [] ∧ edge = none) ∨ ∃ x label, edge = some (x, label) ∧ (∃ r ∈ rows, page r = x) ∧
    ∀ r ∈ rows, better x (page r)

/-- `a` holds what `rows` say. -/
structure Sound (rows : List ChunkRow) (a : Acc) : Prop where
  count : a.count = rows.length
  labels : ∀ k v, v ∈ a.labels k ↔ ∃ r ∈ rows, r.labels k = v
  spans : ∀ s, s ∈ a.spans ↔ ∃ r ∈ rows, (r.start, r.stop) = s
  first : Edge rows ChunkRow.start (· ≤ ·) a.first
  last : Edge rows ChunkRow.stop (· ≥ ·) a.last

theorem sound_empty : Sound [] .empty where
  count := rfl
  labels k v := by simp [Acc.empty]
  spans s := by simp [Acc.empty]
  first := .inl ⟨rfl, rfl⟩
  last := .inl ⟨rfl, rfl⟩

theorem pickEdge_page (x c : Int × Option Text) (lower : Bool) :
    (pickEdge (some x) c lower).1 = if lower then min x.1 c.1 else max x.1 c.1 := by
  simp only [pickEdge]
  split
  · cases lower <;> simp only [Bool.false_eq_true, if_false, if_true] <;> split <;> omega
  · cases lower <;> simp only [Bool.false_eq_true, if_false, if_true] <;> split
    · show x.1 = _
      omega
    · split
      · omega
      · show x.1 = _
        omega
    · show x.1 = _
      omega
    · split
      · omega
      · show x.1 = _
        omega

theorem Edge.add {rows : List ChunkRow} {page : ChunkRow → Int} {better : Int → Int → Prop}
    {edge : Option (Int × Option Text)} (h : Edge rows page better edge) (r : ChunkRow)
    (label : Option Text) (lower : Bool)
    (hb : ∀ x y, better x y ↔ if lower then x ≤ y else y ≤ x) :
    Edge (rows ++ [r]) page better (some (pickEdge edge (page r, label) lower)) := by
  have hrefl : ∀ x, better x x := by
    intro x
    rw [hb]
    split <;> exact Int.le_refl x
  rcases h with ⟨rfl, rfl⟩ | ⟨x, l, rfl, ⟨q, hq, hqx⟩, hall⟩
  · exact .inr ⟨page r, label, rfl, ⟨r, by simp, rfl⟩, by simp [hrefl]⟩
  · have hpage := pickEdge_page (x, l) (page r, label) lower
    refine .inr ⟨(pickEdge (some (x, l)) (page r, label) lower).1,
      (pickEdge (some (x, l)) (page r, label) lower).2, rfl, ?_, ?_⟩
    · rw [hpage]
      cases lower with
      | true =>
        rcases min_choice x (page r) with e | e
        · exact ⟨q, by simp [hq], by simpa [e] using hqx⟩
        · exact ⟨r, by simp, by simp [e]⟩
      | false =>
        rcases max_choice x (page r) with e | e
        · exact ⟨q, by simp [hq], by simpa [e] using hqx⟩
        · exact ⟨r, by simp, by simp [e]⟩
    · intro s hs
      rw [hb, hpage]
      rcases List.mem_append.mp hs with hs | hs
      · have := (hb _ _).mp (hall s hs)
        cases lower <;> simp only [Bool.false_eq_true, if_false, if_true] at this ⊢ <;> omega
      · rw [List.mem_singleton.mp hs]
        cases lower <;> simp only [Bool.false_eq_true, if_false, if_true] <;> omega

theorem Sound.add {rows : List ChunkRow} {a : Acc} (h : Sound rows a) (r : ChunkRow) :
    Sound (rows ++ [r]) (a.add r) where
  count := by simp [Acc.add, h.count]
  labels k v := by
    simp only [Acc.add, List.mem_insert_iff, h.labels k v, List.mem_append, List.mem_singleton,
      or_and_right, exists_or, exists_eq_left]
    rw [or_comm, eq_comm (a := v)]
  spans s := by
    simp only [Acc.add, List.mem_insert_iff, h.spans s, List.mem_append, List.mem_singleton,
      or_and_right, exists_or, exists_eq_left]
    rw [or_comm, eq_comm (a := s)]
  first := h.first.add r r.lowLabel true fun x y => by simp
  last := h.last.add r r.highLabel false fun x y => by simp

/-- What `readRow` checked, and the two labels the decoder is stricter on. -/
structure RowOf (payload : Items F) (r : ChunkRow) : Prop where
  rev_ne : r.rev ≠ []
  start_nonneg : 0 ≤ r.start
  start_le : r.start ≤ r.stop
  title : ∀ t, r.labels .title = some t ↔ textField payload LabelKey.title.field = some t
  sha256 : ∀ t, r.labels .sourceSha256 = some t ↔
    textField payload LabelKey.sourceSha256.field = some t

theorem optLabel_text {v : Json F} {o : Option Text} (h : optLabel v = .ok o) (t : Text) :
    o = some t ↔ asText v = some t := by
  cases v with
  | null =>
    obtain rfl : none = o := by simpa [optLabel] using h
    simp [asText]
  | str s =>
    obtain rfl : some s = o := by simpa [optLabel] using h
    simp [asText]
  | _ => cases h

theorem readRow_ok {payload : Items F} {r : ChunkRow} (h : readRow payload = .ok r) :
    RowOf payload r := by
  simp only [readRow, bind_ok, orRaise_ok, ensure_ok, pure_ok] at h
  obtain ⟨rev, -, _, hrev, start, -, stop, -, _, hspan, _, -, _, hsha, _, htitle, _, -, _, -, rfl⟩ := h
  exact ⟨hrev, hspan.1, hspan.2, optLabel_text htitle, optLabel_text hsha⟩

/-- The accumulators after the rows seen so far. -/
structure Scanned (rows : List ChunkRow) (acc : Finmap fun _ : Text => Acc) : Prop where
  mem : ∀ rev, rev ∈ acc ↔ ∃ r ∈ rows, r.rev = rev
  sound : ∀ rev, Sound (rows.filter fun r => r.rev = rev) ((acc.lookup rev).getD .empty)

/-- One turn of the loop over the data points, after the checks. -/
def addRow (acc : Finmap fun _ : Text => Acc) (r : ChunkRow) : Finmap fun _ : Text => Acc :=
  acc.insert r.rev (((acc.lookup r.rev).getD .empty).add r)

theorem scanRows_iff {data : List (Items F)} : ∀ {start acc : Finmap fun _ : Text => Acc},
    scanRows data start = .ok acc ↔
      ∃ rows, List.Forall₂ (fun p r => readRow p = .ok r) data rows ∧ acc = rows.foldl addRow start := by
  induction data with
  | nil =>
    intro start acc
    constructor
    · intro h
      obtain rfl : start = acc := by simpa [scanRows] using h
      exact ⟨[], .nil, rfl⟩
    · rintro ⟨rows, hrows, rfl⟩
      cases hrows
      rfl
  | cons payload rest ih =>
    intro start acc
    simp only [scanRows, bind_ok]
    constructor
    · rintro ⟨r, hr, h⟩
      obtain ⟨rows, hrows, rfl⟩ := ih.mp h
      exact ⟨r :: rows, .cons hr hrows, rfl⟩
    · rintro ⟨_, hrows, rfl⟩
      cases hrows with
      | cons hr hrows => exact ⟨_, hr, ih.mpr ⟨_, hrows, rfl⟩⟩

theorem lookup_addRows (rows : List ChunkRow) : ∀ (start : Finmap fun _ : Text => Acc) (rev : Text),
    (rows.foldl addRow start).lookup rev =
      if rows.filter (fun r => r.rev = rev) = [] then start.lookup rev
      else some ((rows.filter fun r => r.rev = rev).foldl Acc.add ((start.lookup rev).getD .empty)) := by
  induction rows with
  | nil =>
    intro start rev
    rfl
  | cons r rows ih =>
    intro start rev
    rw [List.foldl_cons, ih]
    by_cases hr : r.rev = rev
    · subst hr
      rw [addRow, Finmap.lookup_insert, Option.getD_some, List.filter_cons_of_pos (by simp)]
      rw [if_neg (List.cons_ne_nil _ _), List.foldl_cons]
      split
      · next hnil => rw [hnil, List.foldl_nil]
      · rfl
    · rw [addRow, Finmap.lookup_insert_of_ne _ (Ne.symm hr), List.filter_cons_of_neg (by simpa using hr)]

/-- What the chunks of one revision add up to. -/
def accOf (rows : List ChunkRow) : Acc := rows.foldl Acc.add .empty

theorem accOf_concat (rows : List ChunkRow) (r : ChunkRow) :
    accOf (rows ++ [r]) = (accOf rows).add r := List.foldl_concat ..

theorem sound_accOf (rows : List ChunkRow) : Sound rows (accOf rows) := by
  induction rows using List.reverseRecOn with
  | nil => exact sound_empty
  | append_singleton rows r ih =>
    rw [accOf_concat]
    exact ih.add r

theorem lookup_scan (rows : List ChunkRow) (rev : Text) :
    (rows.foldl addRow ∅).lookup rev =
      if rows.filter (fun r => r.rev = rev) = [] then none
      else some (accOf (rows.filter fun r => r.rev = rev)) := lookup_addRows rows ∅ rev

theorem scanned (rows : List ChunkRow) : Scanned rows (rows.foldl addRow ∅) where
  mem rev := by
    rw [← Finmap.lookup_isSome, lookup_scan]
    constructor
    · intro h
      split at h
      · cases h
      · next hne =>
        obtain ⟨r, hr⟩ := List.exists_mem_of_ne_nil _ hne
        exact ⟨r, (List.mem_filter.mp hr).1, by simpa using (List.mem_filter.mp hr).2⟩
    · rintro ⟨r, hr, hrev⟩
      rw [if_neg (List.ne_nil_of_mem (List.mem_filter.mpr ⟨hr, decide_eq_true hrev⟩))]
      rfl
  sound rev := by
    rw [lookup_scan]
    split
    · next hnil =>
      rw [hnil]
      exact sound_empty
    · exact sound_accOf _

/-! ## Indexed pages -/

theorem indexedStep_bounds {lo hi : Int} (hlo : 0 ≤ lo) {s span : Int × Int}
    (hs : s = (0, -1) ∨ (1 ≤ s.1 ∧ lo ≤ s.2 ∧ s.2 ≤ hi ∧ s.1 ≤ s.2 - lo + 1))
    (hspan : lo ≤ span.1 ∧ span.1 ≤ span.2 ∧ span.2 ≤ hi) :
    1 ≤ (indexedStep s span).1 ∧ lo ≤ (indexedStep s span).2 ∧ (indexedStep s span).2 ≤ hi ∧
      (indexedStep s span).1 ≤ (indexedStep s span).2 - lo + 1 := by
  unfold indexedStep
  rcases hs with rfl | hs
  · rw [if_neg (by omega)]
    dsimp only
    omega
  · split
    · exact hs
    · dsimp only
      omega

theorem indexedPages_bounds {lo hi : Int} (hlo : 0 ≤ lo) {spans : List (Int × Int)}
    (hne : spans ≠ []) (h : ∀ s ∈ spans, lo ≤ s.1 ∧ s.1 ≤ s.2 ∧ s.2 ≤ hi) :
    1 ≤ indexedPages spans ∧ indexedPages spans ≤ hi - lo + 1 := by
  have hrun : ∀ (spans : List (Int × Int)) (s : Int × Int),
      (∀ s ∈ spans, lo ≤ s.1 ∧ s.1 ≤ s.2 ∧ s.2 ≤ hi) →
      (1 ≤ s.1 ∧ lo ≤ s.2 ∧ s.2 ≤ hi ∧ s.1 ≤ s.2 - lo + 1) →
      1 ≤ (spans.foldl indexedStep s).1 ∧ (spans.foldl indexedStep s).1 ≤ hi - lo + 1 := by
    intro spans
    induction spans with
    | nil =>
      intro s _ hs
      simp only [List.foldl_nil]
      omega
    | cons x spans ih =>
      intro s hall hs
      exact ih _ (fun y hy => hall y (List.mem_cons_of_mem _ hy))
        (indexedStep_bounds hlo (.inr hs) (hall x List.mem_cons_self))
  have hperm := List.perm_insertionSort (fun a b => toLex a ≤ toLex b) spans
  unfold indexedPages
  cases hsorted : spans.insertionSort fun a b => toLex a ≤ toLex b with
  | nil =>
    rw [hsorted] at hperm
    exact absurd hperm.nil_eq.symm hne
  | cons x rest =>
    rw [hsorted] at hperm
    have hall : ∀ s ∈ x :: rest, lo ≤ s.1 ∧ s.1 ≤ s.2 ∧ s.2 ≤ hi := fun s hs =>
      h s (hperm.mem_iff.mp hs)
    exact hrun rest _ (fun s hs => hall s (List.mem_cons_of_mem _ hs))
      (indexedStep_bounds hlo (.inl rfl) (hall x List.mem_cons_self))

/-! ## What the builder's entries satisfy -/

theorem theLabel_ok {values : List (Option Text)} {v : Option Text} (h : theLabel values = .ok v) :
    values = [v] := by
  match values, h with
  | [w], h =>
    obtain rfl : w = v := by simpa [theLabel] using h
    rfl

/-- What is stricter in the decoder: the title is a text, the digest has its form. -/
def Entry.Strict (e : Entry) : Prop := e.title.isSome ∧ isHex64 e.sourceSha256 = true

/-- An entry of the builder passes every other check, and its title and digest are its chunks'. -/
theorem entryOf_ok {rows : List ChunkRow} {a : Acc} (h : Sound rows a) (hne : rows ≠ [])
    (hrows : ∀ r ∈ rows, 0 ≤ r.start ∧ r.start ≤ r.stop) {rev : Text} (hrev : rev ≠ [])
    {marker : Marker} {e : Entry} (he : entryOf rev a marker = .ok e) :
    e.sourceRevision = rev ∧ (e.sane ↔ isHex64 e.sourceSha256 = true) ∧
      ∀ r ∈ rows, r.labels .title = e.title ∧ r.labels .sourceSha256 = some e.sourceSha256 := by
  simp only [entryOf, bind_ok, ensure_ok, pure_ok] at he
  obtain ⟨docId, -, sha, hsha, title, htitle, product, -, version, -, _, ⟨-, -, rfl, hend⟩, rfl⟩ := he
  have hlabel : ∀ k v, a.labels k = [v] → ∀ r ∈ rows, r.labels k = v := by
    intro k v hk r hr
    have := (h.labels k (r.labels k)).mpr ⟨r, hr, rfl⟩
    simpa [hk] using this
  obtain ⟨q, hq⟩ := List.exists_mem_of_ne_nil rows hne
  rcases h.first with ⟨hnil, -⟩ | ⟨lo, llo, hlo, ⟨rlo, hrlo, rfl⟩, hlomin⟩
  · exact absurd hnil hne
  rcases h.last with ⟨hnil, -⟩ | ⟨hi, lhi, hhi, ⟨rhi, hrhi, rfl⟩, hhimax⟩
  · exact absurd hnil hne
  have hspans : a.spans ≠ [] := by
    have := (h.spans (q.start, q.stop)).mpr ⟨q, hq, rfl⟩
    exact List.ne_nil_of_mem this
  have hpages : 1 ≤ indexedPages a.spans ∧
      indexedPages a.spans ≤ rhi.stop - rlo.start + 1 := by
    refine indexedPages_bounds (hrows rlo hrlo).1 hspans fun s hs => ?_
    obtain ⟨r, hr, rfl⟩ := (h.spans s).mp hs
    exact ⟨hlomin r hr, (hrows r hr).2, hhimax r hr⟩
  have hcount : 1 ≤ a.count := by
    have := List.length_pos_of_mem hq
    have := h.count
    omega
  have hle : rlo.start ≤ rhi.stop := by
    have := hlomin rhi hrhi
    have := (hrows rhi hrhi).2
    omega
  refine ⟨rfl, ?_, fun r hr => ⟨hlabel _ _ (theLabel_ok htitle) r hr,
    hlabel _ _ (theLabel_ok hsha) r hr⟩⟩
  simp only [Entry.sane, hlo, hhi, Option.getD_some]
  exact ⟨fun hs => hs.2.1, fun hs => ⟨hrev, hs, hend, hcount, (hrows rlo hrlo).1, hle, hpages⟩⟩

theorem entriesOf_ok {acc : Finmap fun _ : Text => Acc} {markers : Finmap fun _ : Text => Marker}
    {revs : List Text} : ∀ {entries : List Entry}, entriesOf acc markers revs = .ok entries →
      List.Forall₂ (fun rev e => ∃ a marker, acc.lookup rev = some a ∧
        entryOf rev a marker = .ok e) revs entries := by
  induction revs with
  | nil =>
    intro entries h
    obtain rfl : [] = entries := by simpa [entriesOf] using h
    exact .nil
  | cons rev revs ih =>
    intro entries h
    simp only [entriesOf, bind_ok, orRaise_ok, pure_ok] at h
    obtain ⟨a, ha, marker, -, e, he, rest, hrest, rfl⟩ := h
    exact .cons ⟨a, marker, ha, he⟩ (ih hrest)

theorem map_of_forall₂ {α β : Type} {f : β → α} {as : List α} {bs : List β}
    (h : List.Forall₂ (fun a b => f b = a) as bs) : bs.map f = as := by
  induction h with
  | nil => rfl
  | cons hab _ ih => rw [List.map_cons, hab, ih]

/-- What `build_source_catalog` returns: one entry for each revision of the stored chunks, in order. -/
structure Built (rows : List ChunkRow) (entries : List Entry) : Prop where
  ordered : (entries.map Entry.sourceRevision).Pairwise (· < ·)
  covers : ∀ r ∈ rows, ∃ e ∈ entries, e.sourceRevision = r.rev
  sane : ∀ e ∈ entries, e.sane ↔ isHex64 e.sourceSha256 = true
  chunks : ∀ e ∈ entries, ∃ r ∈ rows, r.rev = e.sourceRevision
  labels : ∀ e ∈ entries, ∀ r ∈ rows, r.rev = e.sourceRevision →
    r.labels .title = e.title ∧ r.labels .sourceSha256 = some e.sourceSha256
  nonempty : entries ≠ []

theorem boundMarkers_ne {physical : Text} {control : List (Items F)} :
    ∀ {start markers : Finmap fun _ : Text => Marker},
      boundMarkers validateMarker physical control start = .ok markers → markers ≠ ∅ := by
  induction control with
  | nil =>
    intro start markers h
    simp only [boundMarkers, bind_ok, ensure_ok, pure_ok] at h
    obtain ⟨_, hne, rfl⟩ := h
    exact hne
  | cons payload rest ih =>
    intro start markers h
    rw [boundMarkers] at h
    split at h
    · exact ih h
    · simp only [bind_ok, orRaise_ok, ensure_ok] at h
      obtain ⟨marker, -, _, -, h⟩ := h
      exact ih h

theorem buildSourceCatalog_ok {physical : Text} {data control : List (Items F)}
    {entries : List Entry} (h : buildSourceCatalog validateMarker physical data control = .ok entries) :
    ∃ rows, List.Forall₂ RowOf data rows ∧ Built rows entries := by
  simp only [buildSourceCatalog, bind_ok, ensure_ok] at h
  obtain ⟨markers, hmarkers, acc, hacc, _, hkeys, hentries⟩ := h
  obtain ⟨rows, hread, hfold⟩ := scanRows_iff.mp hacc
  have hrows : List.Forall₂ RowOf data rows := hread.imp fun _ _ => readRow_ok
  have hscan : Scanned rows acc := hfold ▸ scanned rows
  have hspec := entriesOf_ok hentries
  have hrow : ∀ r ∈ rows, ∃ payload ∈ data, RowOf payload r := fun r hr => forall₂_right hrows hr
  have hpages : ∀ r ∈ rows, 0 ≤ r.start ∧ r.start ≤ r.stop := by
    intro r hr
    obtain ⟨_, -, hp⟩ := hrow r hr
    exact ⟨hp.start_nonneg, hp.start_le⟩
  -- each entry against the rows of its revision
  have hentry : ∀ rev e, rev ∈ acc.keys → (∃ a marker, acc.lookup rev = some a ∧
      entryOf rev a marker = .ok e) → e.sourceRevision = rev ∧
        (e.sane ↔ isHex64 e.sourceSha256 = true) ∧ ∀ r ∈ rows, r.rev = rev →
          r.labels .title = e.title ∧ r.labels .sourceSha256 = some e.sourceSha256 := by
    rintro rev e hkey ⟨a, marker, ha, he⟩
    obtain ⟨q, hq, hqrev⟩ := (hscan.mem rev).mp (Finmap.mem_keys.mp hkey)
    have hsound := hscan.sound rev
    rw [ha, Option.getD_some] at hsound
    have hmem : ∀ r, r ∈ rows.filter (fun r => r.rev = rev) ↔ r ∈ rows ∧ r.rev = rev := by
      simp [List.mem_filter]
    have hrev : rev ≠ [] := by
      obtain ⟨_, -, hp⟩ := hrow q hq
      exact hqrev ▸ hp.rev_ne
    obtain ⟨h₁, h₂, h₃⟩ := entryOf_ok hsound (List.ne_nil_of_mem ((hmem q).mpr ⟨hq, hqrev⟩))
      (fun r hr => hpages r ((hmem r).mp hr).1) hrev he
    exact ⟨h₁, h₂, fun r hr hrr => h₃ r ((hmem r).mpr ⟨hr, hrr⟩)⟩
  have hof : ∀ e ∈ entries, ∃ rev ∈ acc.keys, ∃ a marker, acc.lookup rev = some a ∧
      entryOf rev a marker = .ok e := by
    intro e he
    obtain ⟨rev, hrev, hx⟩ := forall₂_right hspec he
    exact ⟨rev, (Finset.mem_sort _).mp hrev, hx⟩
  have hrevs : entries.map Entry.sourceRevision = sorted acc.keys := by
    have : List.Forall₂ (fun rev e => e.sourceRevision = rev) (sorted acc.keys) entries :=
      forall₂_imp_mem hspec fun rev e hr _ hx => (hentry rev e ((Finset.mem_sort _).mp hr) hx).1
    exact map_of_forall₂ this
  refine ⟨rows, hrows, ?_, ?_, ?_, ?_, ?_, ?_⟩
  · rw [hrevs]
    exact Finset.sortedLT_sort acc.keys |>.pairwise
  · intro r hr
    have hkey : r.rev ∈ acc.keys := Finmap.mem_keys.mpr ((hscan.mem r.rev).mpr ⟨r, hr, rfl⟩)
    have : r.rev ∈ entries.map Entry.sourceRevision := by
      rw [hrevs]
      exact (Finset.mem_sort _).mpr hkey
    simpa using this
  · intro e he
    obtain ⟨rev, hrev, hx⟩ := hof e he
    exact (hentry rev e hrev hx).2.1
  · intro e he
    obtain ⟨rev, hrev, hx⟩ := hof e he
    rw [(hentry rev e hrev hx).1]
    exact (hscan.mem rev).mp (Finmap.mem_keys.mp hrev)
  · intro e he r hr hrr
    obtain ⟨rev, hrev, hx⟩ := hof e he
    exact (hentry rev e hrev hx).2.2 r hr (hrr.trans (hentry rev e hrev hx).1)
  · rintro rfl
    have hnil : acc.keys = ∅ := by
      have := congrArg List.toFinset hrevs
      simpa using this.symm
    refine boundMarkers_ne validateMarker hmarkers (Finmap.ext_lookup fun rev => ?_)
    rw [Finmap.lookup_empty, Finmap.lookup_eq_none, ← Finmap.mem_keys, ← hkeys, hnil]
    exact Finset.notMem_empty rev

/-! ## The decoder on what the writer stores -/

theorem items_nodup (e : Entry) : ((e.items : Items F).map Prod.fst).Nodup := by
  show entryKeys.Nodup
  decide +kernel

@[simp] theorem sortKeys_optJson (o : Option Text) : sortKeys (optJson o : Json F) = optJson o := by
  cases o <;> simp only [optJson, sortKeys]

@[simp] theorem optText_optJson (o : Option Text) : optText (optJson o : Json F) = some o := by
  cases o <;> rfl

/-- The two fields of a span survive the copy. -/
theorem sortedItems_span (a b : Json F) :
    sortedItems [("first".toList, a), ("last".toList, b)] =
      [("first".toList, sortKeys a), ("last".toList, sortKeys b)] := by
  have hle : "first".toList ≤ "last".toList := by decide
  rw [sortedItems, sortKeysMembers_eq]
  simp only [List.map_cons, List.map_nil, List.insertionSort_cons, List.insertionSort_nil,
    List.orderedInsert_cons, List.orderedInsert_nil, if_pos hle]

theorem get_span_first (a b : Json F) :
    get [("first".toList, a), ("last".toList, b)] "first".toList = a := get_cons_self _ _ _

theorem get_span_last (a b : Json F) :
    get [("first".toList, a), ("last".toList, b)] "last".toList = b := by
  rw [get_cons_ne (by decide), get_cons_self]

theorem intSpan_pair (a b : Int) :
    intSpan (.obj [("first".toList, .int a), ("last".toList, .int b)] : Json F) = some (a, b) := by
  simp only [intSpan, intField, get_span_first, get_span_last]
  exact if_pos rfl

theorem labelSpan_pair (a b : Option Text) :
    labelSpan (.obj [("first".toList, optJson a), ("last".toList, optJson b)] : Json F) =
      some (a, b) := by
  simp only [labelSpan, get_span_first, get_span_last, optText_optJson]
  exact if_pos rfl

/-- The copy of an entry reads as the entry, where it has a title. -/
theorem readEntry_copy (e : Entry) :
    readEntry (sortedItems (e.items : Items F)) = e.title.map fun _ => e := by
  have hget : ∀ k v, (k, v) ∈ (e.items : Items F) → get (sortedItems e.items) k = sortKeys v :=
    fun k v h => get_sortedItems (items_nodup e) h
  have hrev := hget "source_revision".toList (.str e.sourceRevision) (by simp [Entry.items])
  have hsha := hget "source_sha256".toList (.str e.sourceSha256) (by simp [Entry.items])
  have hdoc := hget "doc_id".toList (.str e.docId) (by simp [Entry.items])
  have htitle := hget "title".toList (optJson e.title) (by simp [Entry.items])
  have hproduct := hget "product".toList (optJson e.product) (by simp [Entry.items])
  have hversion := hget "version".toList (optJson e.version) (by simp [Entry.items])
  have hcount := hget "chunk_count".toList (.int e.chunkCount) (by simp [Entry.items])
  have hpages := hget "pages".toList
    (.obj [("first".toList, .int e.firstPage), ("last".toList, .int e.lastPage)])
    (by simp [Entry.items])
  have hlabels := hget "page_labels".toList
    (.obj [("first".toList, optJson e.firstLabel), ("last".toList, optJson e.lastLabel)])
    (by simp [Entry.items])
  have hindexed := hget "indexed_pages".toList (.int e.indexedPages) (by simp [Entry.items])
  rw [sortKeys_obj, sortedItems_span] at hpages hlabels
  simp only [sortKeys_optJson, sortKeys] at hrev hsha hdoc htitle hproduct hversion
  simp only [sortKeys_optJson, sortKeys] at hcount hpages hlabels hindexed
  simp only [readEntry, textField, intField, hrev, hsha, hdoc, htitle, hproduct, hversion, hcount,
    hpages, hlabels, hindexed, optText_optJson, intSpan_pair, labelSpan_pair, asText]
  cases e with
  | mk rev sha docId title =>
    cases title <;> rfl

theorem catalogPoint_entry (control : Text) (e : Entry) :
    get (catalogPoint N uuid5 control e).payload "entry".toList = .obj (sortedItems e.items) := by
  have hcopy : loads N (canonical N (.obj e.items)) = some (sortKeys (.obj e.items)) :=
    loads_render N _ _
  rw [catalogPoint, get_cons_ne (by decide), get_cons_ne (by decide), get_cons_self, hcopy,
    Option.getD_some, sortKeys_obj]

/-- The decoder accepts what the writer stores where the title is a text and the values pass. -/
theorem decode_catalogPoint {control : Text} {e e' : Entry} :
    decodeCatalogPoint uuid5 control (catalogPoint N uuid5 control e) = .ok e' ↔
      e' = e ∧ e.title.isSome = true ∧ e.sane := by
  have hkeys : ((sortedItems (e.items : Items F)).map Prod.fst).toFinset = entryKeys.toFinset :=
    List.toFinset_eq_of_perm _ _ (sortedItems_keys _)
  have htype : textField (catalogPoint N uuid5 control e).payload "record_type".toList =
      some catalogRecordType := by
    rw [textField, catalogPoint, get_cons_self, asText]
  have hschema : intField (catalogPoint N uuid5 control e).payload "catalog_schema".toList =
      some catalogSchema := by
    rw [intField, catalogPoint, get_cons_ne (by decide), get_cons_self]
  have hpayload : ((catalogPoint N uuid5 control e).payload.map Prod.fst).toFinset =
      {"record_type".toList, "catalog_schema".toList, "entry".toList} := rfl
  rw [decodeCatalogPoint, ensure_true _ hpayload, ok_bind, ensure_true _ ⟨htype, hschema⟩, ok_bind,
    catalogPoint_entry]
  simp only [bind_ok, ensure_ok, orRaise_ok, pure_ok, readEntry_copy, hkeys]
  constructor
  · rintro ⟨_, -, f, hf, _, hsane, _, -, rfl⟩
    cases ht : e.title with
    | none => simp [ht] at hf
    | some t =>
      obtain rfl : e = f := by simpa [ht] using hf
      exact ⟨rfl, rfl, hsane⟩
  · rintro ⟨rfl, ht, hsane⟩
    obtain ⟨t, ht⟩ := Option.isSome_iff_exists.mp ht
    exact ⟨(), trivial, e', by rw [ht, Option.map_some], (), hsane, (), rfl, rfl⟩

/-- An accepted point lies under the id of its own revision. -/
theorem decode_own_id {control : Text} {p : ControlPoint F} {e : Entry}
    (h : decodeCatalogPoint uuid5 control p = .ok e) :
    p.id = catalogPointId uuid5 control e.sourceRevision := by
  simp only [decodeCatalogPoint, bind_ok, ensure_ok] at h
  obtain ⟨_, -, _, -, h⟩ := h
  split at h
  · simp only [bind_ok, ensure_ok, orRaise_ok, pure_ok] at h
    obtain ⟨_, -, e', -, _, -, _, hid, rfl⟩ := h
    exact hid
  · cases h

theorem decodeAll_catalogPoints {control : Text} {entries : List Entry} : ∀ {got : List Entry},
    decodeAll uuid5 control (entries.map (catalogPoint N uuid5 control)) = .ok got ↔
      got = entries ∧ ∀ e ∈ entries, e.title.isSome = true ∧ e.sane := by
  induction entries with
  | nil =>
    intro got
    have hnil : ∀ e ∈ ([] : List Entry), e.title.isSome = true ∧ e.sane := nofun
    rw [List.map_nil, decodeAll, Except.ok.injEq]
    exact ⟨fun hgot => ⟨hgot.symm, hnil⟩, fun hgot => hgot.1.symm⟩
  | cons e entries ih =>
    intro got
    simp only [List.map_cons, decodeAll, bind_ok, pure_ok, decode_catalogPoint, ih]
    constructor
    · rintro ⟨_, ⟨rfl, he⟩, _, ⟨rfl, hall⟩, rfl⟩
      exact ⟨rfl, List.forall_mem_cons.mpr ⟨he, hall⟩⟩
    · rintro ⟨rfl, hall⟩
      obtain ⟨he, hall⟩ := List.forall_mem_cons.mp hall
      exact ⟨e, ⟨rfl, he⟩, entries, ⟨rfl, hall⟩, rfl⟩

/-! ## What is stored -/

theorem isCatalog_catalogPoint (control : Text) (e : Entry) :
    isCatalog (catalogPoint N uuid5 control e) = true := by
  rw [isCatalog, catalogPoint, textField, get_cons_self, asText]
  exact decide_eq_true rfl

/-- The names of the catalog points of the entries. -/
def catalogNames (control : Text) (entries : List Entry) : Set Text :=
  {name | ∃ e ∈ entries, name = "source-catalog|".toList ++ control ++ '|' :: e.sourceRevision}

/-- The ids the writer uses are distinct, and no other record of the collection has one. -/
structure NoCollision (control : Text) (c : Control F) (entries : List Entry) : Prop where
  names : Set.InjOn uuid5 (catalogNames control entries)
  others : ∀ p ∈ c, isCatalog p = false → ∀ e ∈ entries,
    p.id ≠ catalogPointId uuid5 control e.sourceRevision

theorem catalogPoint_ids {control : Text} {c : Control F} {entries : List Entry}
    (h : NoCollision uuid5 control c entries)
    (hrevs : (entries.map Entry.sourceRevision).Nodup) :
    ((entries.map (catalogPoint N uuid5 control)).map ControlPoint.id).Nodup := by
  rw [List.map_map]
  refine List.Nodup.map_on (fun e he e' he' heq => ?_) (List.Nodup.of_map _ hrevs)
  have hname := h.names ⟨e, he, rfl⟩ ⟨e', he', rfl⟩ (Uuid.str_injective heq)
  have hrev : e.sourceRevision = e'.sourceRevision :=
    List.cons.inj (List.append_cancel_left hname) |>.2
  exact List.inj_on_of_nodup_map hrevs he he' hrev

/-- The writer keeps the other records and leaves exactly its own entries beside them. -/
theorem writeSourceCatalog_items {control : Text} {c : Control F} {entries : List Entry}
    (h : NoCollision uuid5 control c entries)
    (hrevs : (entries.map Entry.sourceRevision).Nodup) :
    (writeSourceCatalog N uuid5 control c entries).items =
      c.items.filter (fun p => !isCatalog p) ++ entries.map (catalogPoint N uuid5 control) := by
  have hstale : ∀ p ∈ c.items,
      decide (p.id ∈ (c.items.filter isCatalog).map ControlPoint.id) = isCatalog p := by
    intro p hp
    rw [Bool.eq_iff_iff, decide_eq_true_eq, List.mem_map]
    constructor
    · rintro ⟨q, hq, hid⟩
      obtain ⟨hq, hcat⟩ := List.mem_filter.mp hq
      rwa [← Keyed.eq_of_key hq hp hid]
    · exact fun hcat => ⟨p, List.mem_filter.mpr ⟨hp, hcat⟩, rfl⟩
  have hkept : (c.remove fun p => p.id ∈ (c.items.filter isCatalog).map ControlPoint.id).items =
      c.items.filter fun p => !isCatalog p :=
    List.filter_congr fun p hp => congrArg not (hstale p hp)
  rw [writeSourceCatalog, Keyed.upsertAll_items (catalogPoint_ids N uuid5 h hrevs), hkept]
  intro x hx p hp
  obtain ⟨e, he, rfl⟩ := List.mem_map.mp hx
  have hp : p ∈ c.items.filter fun p => !isCatalog p := hkept ▸ hp
  obtain ⟨hp, hcat⟩ := List.mem_filter.mp hp
  exact h.others p hp (by simpa using hcat) e he

theorem written_catalog {control : Text} {c : Control F} {entries : List Entry}
    (h : NoCollision uuid5 control c entries)
    (hrevs : (entries.map Entry.sourceRevision).Nodup) :
    (writeSourceCatalog N uuid5 control c entries).items.filter isCatalog =
      entries.map (catalogPoint N uuid5 control) := by
  have hnone : (c.items.filter fun p => !isCatalog p).filter isCatalog = [] := by
    simp
  have hall : (entries.map (catalogPoint N uuid5 control)).filter isCatalog =
      entries.map (catalogPoint N uuid5 control) := by
    refine List.filter_eq_self.mpr fun p hp => ?_
    obtain ⟨e, -, rfl⟩ := List.mem_map.mp hp
    exact isCatalog_catalogPoint N uuid5 control e
  rw [writeSourceCatalog_items N uuid5 h hrevs, List.filter_append, hnone, hall, List.nil_append]

theorem written_others {control : Text} {c : Control F} {entries : List Entry}
    (h : NoCollision uuid5 control c entries)
    (hrevs : (entries.map Entry.sourceRevision).Nodup) :
    (writeSourceCatalog N uuid5 control c entries).items.filter (fun p => !isCatalog p) =
      c.items.filter fun p => !isCatalog p := by
  have hnone : (entries.map (catalogPoint N uuid5 control)).filter (fun p => !isCatalog p) = [] := by
    refine List.filter_eq_nil_iff.mpr fun p hp => ?_
    obtain ⟨e, -, rfl⟩ := List.mem_map.mp hp
    simp [isCatalog_catalogPoint]
  rw [writeSourceCatalog_items N uuid5 h hrevs, List.filter_append, hnone, List.append_nil,
    List.filter_filter]
  simp

theorem byRevision_ordered {entries : List Entry}
    (h : (entries.map Entry.sourceRevision).Pairwise (· < ·)) : byRevision entries = entries :=
  List.Pairwise.insertionSort_eq ((List.pairwise_map.mp h).imp le_of_lt)

theorem read_written {control : Text} {c : Control F} {entries : List Entry}
    (h : NoCollision uuid5 control c entries)
    (hrevs : (entries.map Entry.sourceRevision).Nodup) {got : List Entry} :
    readSourceCatalog uuid5 control (writeSourceCatalog N uuid5 control c entries) = .ok got ↔
      got = byRevision entries ∧ ∀ e ∈ entries, e.title.isSome = true ∧ e.sane := by
  simp only [readSourceCatalog, written_catalog N uuid5 h hrevs, bind_ok, pure_ok,
    decodeAll_catalogPoints]
  constructor
  · rintro ⟨_, ⟨rfl, hall⟩, rfl⟩
    exact ⟨rfl, hall⟩
  · rintro ⟨rfl, hall⟩
    exact ⟨entries, ⟨rfl, hall⟩, rfl⟩

theorem decode_catalogSummary {entries : List Entry} (hne : entries ≠ []) :
    decodeCatalogSummary (catalogSummary N H entries) = .ok (catalogSummary N H entries) := by
  have hpos := List.length_pos_iff.mpr hne
  have hcount : 1 ≤ (catalogSummary N H entries).count := by
    show (1 : Int) ≤ (entries.length : Int)
    omega
  rw [decodeCatalogSummary, ensure_true _ ⟨rfl, hcount, H.isHex64_hexdigest _⟩, ok_bind]
  rfl

/-- What the decoder asks of the labels of a stored chunk beyond the builder: the title is a text,
the digest has its form. -/
def LabelsFit (payload : Items F) : Prop :=
  (textField payload LabelKey.title.field).isSome = true ∧
    ∃ sha, textField payload LabelKey.sourceSha256.field = some sha ∧ isHex64 sha = true

theorem labelsFit_iff {data : List (Items F)} {rows : List ChunkRow} {entries : List Entry}
    (hrows : List.Forall₂ RowOf data rows) (hb : Built rows entries) :
    (∀ e ∈ entries, e.title.isSome = true ∧ e.sane) ↔ ∀ payload ∈ data, LabelsFit payload := by
  constructor
  · intro hall payload hp
    obtain ⟨r, hr, hrow⟩ := forall₂_left hrows hp
    obtain ⟨e, he, hrev⟩ := hb.covers r hr
    obtain ⟨htitle, hsha⟩ := hb.labels e he r hr hrev.symm
    obtain ⟨ht, hsane⟩ := hall e he
    obtain ⟨t, ht⟩ := Option.isSome_iff_exists.mp ht
    refine ⟨?_, e.sourceSha256, (hrow.sha256 _).mp hsha, (hb.sane e he).mp hsane⟩
    rw [(hrow.title t).mp (htitle.trans ht), Option.isSome_some]
  · intro hall e he
    obtain ⟨r, hr, hrev⟩ := hb.chunks e he
    obtain ⟨payload, hp, hrow⟩ := forall₂_right hrows hr
    obtain ⟨htitle, hsha⟩ := hb.labels e he r hr hrev
    obtain ⟨ht, sha, hsha', hhex⟩ := hall payload hp
    obtain ⟨t, ht⟩ := Option.isSome_iff_exists.mp ht
    have heq : sha = e.sourceSha256 := by
      have := (hrow.sha256 _).mp hsha
      exact Option.some.inj (hsha'.symm.trans this)
    refine ⟨?_, (hb.sane e he).mpr (heq ▸ hhex)⟩
    rw [← htitle, (hrow.title t).mpr ht, Option.isSome_some]

/-- The written catalog is read back and verified, the other records stay as they are and an accepted
point lies under its own id, exactly where the labels of the stored chunks have the form the decoder
asks. -/
theorem catalog_read_iff {physical control : Text} {data markers : List (Items F)}
    {entries : List Entry}
    (hbuild : buildSourceCatalog validateMarker physical data markers = .ok entries)
    {c : Control F} (h : NoCollision uuid5 control c entries) :
    (readSourceCatalog uuid5 control (writeSourceCatalog N uuid5 control c entries) =
        .ok (byRevision entries) ∧
      verifySourceCatalog N uuid5 H control (writeSourceCatalog N uuid5 control c entries)
        (catalogSummary N H entries) = .ok (byRevision entries) ∧
      (writeSourceCatalog N uuid5 control c entries).items.filter (fun p => !isCatalog p) =
        c.items.filter (fun p => !isCatalog p) ∧
      ∀ (p : ControlPoint F) e, decodeCatalogPoint uuid5 control p = .ok e →
        p.id = catalogPointId uuid5 control e.sourceRevision) ↔
      ∀ payload ∈ data, LabelsFit payload := by
  obtain ⟨rows, hrows, hb⟩ := buildSourceCatalog_ok validateMarker hbuild
  have hrevs : (entries.map Entry.sourceRevision).Nodup := hb.ordered.imp ne_of_lt
  rw [← labelsFit_iff hrows hb]
  constructor
  · intro hkept
    exact ((read_written N uuid5 h hrevs).mp hkept.1).2
  · intro hall
    have hread := (read_written N uuid5 h hrevs).mpr ⟨rfl, hall⟩
    refine ⟨hread, ?_, written_others N uuid5 h hrevs, fun p e => decode_own_id uuid5⟩
    rw [verifySourceCatalog, decode_catalogSummary N H hb.nonempty, ok_bind, hread, ok_bind,
      byRevision_ordered hb.ordered, ensure_true _ rfl, ok_bind]
    rfl

/-! ## One stored chunk -/

def someSha : Text := List.replicate 64 '0'

def someRev : Text := 'D' :: '|' :: someSha

def somePhysical : Text := "corpus__gen".toList

/-- A chunk of one page with the title `title`. -/
def someChunk (title : Json Unit) : Items Unit :=
  [("source_rev".toList, .str someRev), ("doc_id".toList, .str "D".toList),
    ("sha256".toList, .str someSha), ("title".toList, title), ("product".toList, .null),
    ("version".toList, .null), ("page_start".toList, .int 0), ("page_end".toList, .int 0),
    ("page_label".toList, .str [])]

def someMarker : Items Unit :=
  [("doc_id".toList, .str "D".toList), ("sha256".toList, .str someSha),
    ("target_collection".toList, .str somePhysical), ("expected_chunks".toList, .int 1),
    ("source_rev".toList, .str someRev)]

/-- Reads the fields of a marker the catalog uses. -/
def readMarker (d : Items Unit) : Option Marker := do
  let docId ← textField d "doc_id".toList
  let sha256 ← textField d "sha256".toList
  let expected ← intField d "expected_chunks".toList
  let rev ← textField d "source_rev".toList
  if 1 ≤ expected then return ⟨docId, sha256, expected, rev⟩ else none

/-- A `uuid5` that keeps the end of the name. -/
def lastBytes (t : Text) : Uuid where
  bytes := ((encodeUtf8 t).reverse ++ List.replicate 16 0).take 16
  size := by simp

def zeros : Hash where
  digest _ := List.replicate 32 0
  size _ := rfl

def someEntry (title : Option Text) : Entry where
  sourceRevision := someRev
  sourceSha256 := someSha
  docId := "D".toList
  title := title
  product := none
  version := none
  chunkCount := 1
  firstPage := 0
  lastPage := 0
  firstLabel := none
  lastLabel := none
  indexedPages := 1

def noControl : Control Unit := Keyed.empty

theorem noCollision_one (title : Option Text) :
    NoCollision lastBytes somePhysical noControl [someEntry title] where
  names := by
    rintro _ ⟨e, he, rfl⟩ _ ⟨e', he', rfl⟩ -
    rw [List.mem_singleton.mp he, List.mem_singleton.mp he']
  others := nofun

/-- A titled chunk is listed. -/
theorem catalog_read_titled : readSourceCatalog lastBytes somePhysical
    (writeSourceCatalog halves lastBytes somePhysical noControl [someEntry (some ['T'])]) =
      .ok [someEntry (some ['T'])] := by
  have hbuild : buildSourceCatalog readMarker somePhysical [someChunk (.str ['T'])] [someMarker] =
      .ok [someEntry (some ['T'])] := by decide +kernel
  refine ((catalog_read_iff readMarker halves lastBytes zeros hbuild
    (noCollision_one (some ['T']))).mpr fun payload hp => ?_).1
  rw [List.mem_singleton.mp hp]
  exact ⟨by decide +kernel, someSha, by decide +kernel⟩

/-- A chunk whose title is `None`: its entry is built and written, and the reader raises. -/
theorem untitled_unread :
    buildSourceCatalog readMarker somePhysical [someChunk .null] [someMarker] =
        .ok [someEntry none] ∧
      NoCollision lastBytes somePhysical noControl [someEntry none] ∧
      readSourceCatalog lastBytes somePhysical
        (writeSourceCatalog halves lastBytes somePhysical noControl [someEntry none]) ≠
          .ok (byRevision [someEntry none]) := by
  refine ⟨by decide +kernel, noCollision_one none, fun h => ?_⟩
  have hread := (read_written halves lastBytes (noCollision_one none) (by simp)).mp h
  have := (hread.2 (someEntry none) (by simp)).1
  cases this

end MainframeRag.Ingest.Catalog
