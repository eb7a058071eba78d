import MainframeRag.Agent.EvidenceService
import MainframeRag.Lib.Paging

/-!
# Listing the sources of a build

`list_sources` of `agent/evidence.py`: one page of the catalog of a pinned build, read from its control
collection. A page ends where the store's does or before the first entry that does not fit the byte
budget; a denied entry is left out before anything but its labels is read.

Following the cursors lists every entry the caller may read once, in the order of the point ids
(`listing_complete`). What a denied entry holds beside its labels changes no answer
(`denied_untraced`), and every entry of a page was granted under the policy in force at the end
(`page_granted`).
-/

namespace MainframeRag.Agent.SourceListing

open PyText PyJson JsonText Fallible Hex StoredEvidence EvidenceService
open Ingest.Build (BuildBinding)
open Ingest.Catalog (ControlPoint Control Entry asText textField optJson isCatalog decodeCatalogPoint
  catalogPointId)

variable {F : Type}

/-! ## Cursors -/

def cursorPrefix : Text := "ls1.".toList

def cursorBytes : Nat := 16 + 16

def cursorLen : Nat := cursorPrefix.length + (cursorBytes * 4 + 2) / 3

/-- `encode_sources_cursor` -/
def encodeSourcesCursor (buildId nextPoint : Text) : Except StoredEvidence.Raised Text := do
  let build ← canonicalUuid buildId
  let point ← canonicalUuid nextPoint
  return cursorPrefix ++ Base64.encode (build.bytes ++ point.bytes)

/-- `parse_sources_cursor` -/
def parseSourcesCursor (token : Text) : Except StoredEvidence.Raised (Text × Text) := do
  let bad := StoredEvidence.Raised.failure .invalidCursor .malformed
  let raw ← tokenBytes cursorPrefix cursorLen cursorBytes bad token
  let build ← orRaise (Uuid.ofBytes (raw.take 16)) bad
  ensure (build.isNil = false) bad
  let point ← orRaise (Uuid.ofBytes (raw.drop 16)) bad
  return (build.str, point.str)

/-! ## Entries -/

structure SourceEntry where
  sourceRevision : Text
  sourceSha256 : Text
  docId : Text
  title : Text
  product : Option Text
  version : Option Text
  chunkCount : Int
  physicalPageFirst : Int
  physicalPageLast : Int
  pageLabelFirst : Option Text
  pageLabelLast : Option Text
  indexedPages : Int
  deriving DecidableEq

/-- `_source_entry`; an entry that was decoded has a title. -/
def sourceEntry (e : Entry) : SourceEntry where
  sourceRevision := e.sourceRevision
  sourceSha256 := e.sourceSha256
  docId := e.docId
  title := e.title.getD []
  product := e.product
  version := e.version
  chunkCount := e.chunkCount
  physicalPageFirst := e.firstPage + 1
  physicalPageLast := e.lastPage + 1
  pageLabelFirst := e.firstLabel
  pageLabelLast := e.lastLabel
  indexedPages := e.indexedPages

/-- `wire` -/
def SourceEntry.wire (e : SourceEntry) : Json F :=
  .obj [("source_revision".toList, .str e.sourceRevision),
    ("source_sha256".toList, .str e.sourceSha256), ("doc_id".toList, .str e.docId),
    ("title".toList, .str e.title), ("product".toList, optJson e.product),
    ("version".toList, optJson e.version), ("chunk_count".toList, .int e.chunkCount),
    ("physical_pages".toList,
      .obj [("first".toList, .int e.physicalPageFirst), ("last".toList, .int e.physicalPageLast)]),
    ("page_labels".toList,
      .obj [("first".toList, optJson e.pageLabelFirst), ("last".toList, optJson e.pageLabelLast)]),
    ("indexed_pages".toList, .int e.indexedPages)]

structure SourcePage where
  buildId : Text
  sources : List SourceEntry
  nextCursor : Option Text
  deriving DecidableEq

/-- `payload.get("entry")`, where it is a dict. -/
def entryDict (payload : Items F) : Option (Items F) :=
  match get payload "entry".toList with
  | .obj entry => some entry
  | _ => none

/-- `_catalog_scope` -/
def catalogScope (payload : Items F) : Except StoredEvidence.Raised EvidenceScope := do
  let entry ← orRaise (entryDict payload) (corrupt .catalogEntry)
  let rev ← orRaise (textField entry "source_revision".toList) (corrupt .sourceRevision)
  ensure (rev ≠ []) (corrupt .sourceRevision)
  let docId ← str (get entry "doc_id".toList)
  let product ← optStr (get entry "product".toList)
  let version ← optStr (get entry "version".toList)
  return ⟨rev, docId, product, version⟩

/-! ## One page -/

/-- `SOURCES_LIMIT_MAX` -/
def sourcesLimitMax : Int := 200

def sourcesScanCap : Nat := 200

def sourcesPageBytes : Nat := 256 * 1024

variable (uuid5 : Text → Uuid) (N : Floats F) (pageBytes : Nat) (access : Nat → Access)

/-- The bytes of an entry in the answer. -/
def wireSize (e : SourceEntry) : Nat :=
  (encodeUtf8 (render N ⟨false, true⟩ (e.wire : Json F))).length

/-- `_authorize_listing`, at await `t`. -/
def authorizeListing (t : Nat) (caller : Caller) (scope : EvidenceScope) :
    Except StoredEvidence.Raised (Option Text) :=
  match authorize access t caller scope with
  | .ok version => .ok (some version)
  | .error (.failure .unavailable _) => .ok none
  | .error r => .error r

structure Kept where
  entry : SourceEntry
  scope : EvidenceScope
  granted : Text

/-- What the loop over the records ends with, and the await after it. -/
structure Admitted where
  kept : List Kept
  nextPoint : Option Text
  await : Nat

/-- The loop over the records of a page, from await `t`. -/
def admitRecords (control : Text) (caller : Caller) (nextPoint : Option Text) :
    Nat → Nat → List Kept → List (ControlPoint F) → Except StoredEvidence.Raised Admitted
  | t, _, kept, [] => .ok ⟨kept, nextPoint, t⟩
  | t, used, kept, record :: rest => do
    let scope ← catalogScope record.payload
    let granted ← authorizeListing access t caller scope
    match granted with
    | none => admitRecords control caller nextPoint (t + 1) used kept rest
    | some version => do
      let entry ← orRaise (decodeCatalogPoint uuid5 control record).toOption (corrupt .catalogEntry)
      let entry := sourceEntry entry
      let size := wireSize N entry
      if kept ≠ [] ∧ pageBytes < used + size then return ⟨kept, some record.id, t + 1⟩
      else
        admitRecords control caller nextPoint (t + 1) (used + size)
          (kept ++ [⟨entry, scope, version⟩]) rest

/-- The kept entries that are granted again. -/
def readmitKept (caller : Caller) : Nat → List Kept → Except StoredEvidence.Raised (List Kept)
  | _, [] => .ok []
  | t, k :: rest => do
    let granted ← authorizeListing access t caller k.scope
    let rest ← readmitKept caller (t + 1) rest
    return if granted.isSome then k :: rest else rest

/-- A policy change since admission is decided again. -/
def settle (caller : Caller) (a : Admitted) : Except StoredEvidence.Raised (List Kept) := do
  let current ← currentVersion access a.await
  if a.kept.any fun k => k.granted ≠ current then readmitKept access caller (a.await + 1) a.kept
  else return a.kept

def nextCursor (buildId : Text) : Option Text → Except StoredEvidence.Raised (Option Text)
  | none => .ok none
  | some point => do
    let cursor ← encodeSourcesCursor buildId point
    return some cursor

variable (settings : Settings) (w : World F)

/-- `_list` -/
def list (caller : Caller) (buildId : Text) (offset : Option Text) (limit : Nat) (filter : LabelFilter) :
    Except StoredEvidence.Raised SourcePage := do
  let pinned ← pinnedBuild uuid5 settings w buildId true
  let control := controlOf pinned.2
  let page ← (w.client 3).scroll control filter (min limit sourcesScanCap) offset
  let admitted ← admitRecords uuid5 N pageBytes w.access control caller page.2 4 0 [] page.1
  let kept ← settle w.access caller admitted
  let cursor ← nextCursor buildId admitted.nextPoint
  return ⟨buildId, kept.map Kept.entry, cursor⟩

/-- The build and the point a page begins with. -/
def startOf (cursor servedBuild : Option Text) : Except StoredEvidence.Raised (Text × Option Text) :=
  match cursor, servedBuild with
  | some cursor, _ => do
    let position ← parseSourcesCursor cursor
    return (position.1, some position.2)
  | none, some buildId => .ok (buildId, none)
  | none, none => .error (.failure .unavailable .noServedBuild)

/-- `list_sources` -/
def listSources (caller : Caller) (limit : Int) (cursor servedBuild : Option Text)
    (filter : LabelFilter) : Except StoredEvidence.Raised SourcePage := do
  let start ← startOf cursor servedBuild
  ensure (1 ≤ limit ∧ limit ≤ sourcesLimitMax) .other
  upstream (list uuid5 N pageBytes settings w caller start.1 start.2 limit.toNat filter)

/-! ## The control collection -/

/-- `_CATALOG_FIELDS` -/
def catalogFields : List Text := ["record_type".toList, "catalog_schema".toList, "entry".toList]

/-- A point as a scroll returns it. -/
def projected (p : ControlPoint F) : ControlPoint F where
  id := p.id
  payload := p.payload.filter fun x => x.1 ∈ catalogFields

/-- `entry.product` or `entry.version`, where it is a text. -/
def entryLabel (p : ControlPoint F) (key : Text) : Option Text :=
  (entryDict p.payload).bind fun entry => textField entry key

/-- The conditions of the scroll. -/
def matchesFilter (filter : LabelFilter) (p : ControlPoint F) : Bool :=
  isCatalog p && filter.product.all (fun v => entryLabel p "product".toList = some v) &&
    filter.version.all fun v => entryLabel p "version".toList = some v

/-- The points in the order of their ids. -/
def inOrder (c : Control F) : List (ControlPoint F) :=
  c.items.insertionSort fun p q => p.id ≤ q.id

def hits (c : Control F) (filter : LabelFilter) : List (ControlPoint F) :=
  (inOrder c).filter (matchesFilter filter)

/-- `scroll` on a collection. -/
def scrollOf (c : Control F) (filter : LabelFilter) (limit : Nat) (offset : Option Text) :
    List (ControlPoint F) × Option Text :=
  let page := Paging.scroll ControlPoint.id (hits c filter) limit offset
  (page.1.map projected, page.2)

/-- The world in which the collection `name` is `c`. -/
def serving (name : Text) (c : Control F) : World F where
  client t :=
    { w.client t with
      retrieve := fun collection id =>
        if collection = name then .ok (c.items.find? fun p => p.id = id).toList
        else (w.client t).retrieve collection id
      scroll := fun collection filter limit offset =>
        if collection = name then .ok (scrollOf c filter limit offset)
        else (w.client t).scroll collection filter limit offset }
  access := w.access

@[simp] theorem serving_access (name : Text) (c : Control F) :
    (serving w name c).access = w.access := rfl


/-! ## Cursors are read back -/

/-- The cursor of a build and a point is read as these. -/
theorem parse_encodeSourcesCursor {buildId nextPoint token : Text} {build : Uuid}
    (hid : buildId = build.str) (hnil : build.isNil = false)
    (h : encodeSourcesCursor buildId nextPoint = .ok token) :
    parseSourcesCursor token = .ok (buildId, nextPoint) := by
  subst hid
  simp only [encodeSourcesCursor, canonicalUuid, bind_ok, orRaise_ok, pure_ok, Uuid.ofCanonical_iff] at h
  obtain ⟨build', hb, point, rfl, rfl⟩ := h
  obtain rfl := Uuid.str_injective hb
  have hlen : cursorLen = cursorPrefix.length + (cursorBytes * 4 + 2) / 3 := rfl
  have hmark : Base64.isAscii cursorPrefix = true := by decide
  have hsize : (build.bytes ++ point.bytes).length = cursorBytes := by
    rw [List.length_append, build.size, point.size]
    rfl
  have htake : (build.bytes ++ point.bytes).take 16 = build.bytes := by rw [← build.size, List.take_left]
  have hdrop : (build.bytes ++ point.bytes).drop 16 = point.bytes := by rw [← build.size, List.drop_left]
  rw [parseSourcesCursor, (tokenBytes_iff hlen hmark).mpr ⟨hsize, rfl⟩, ok_bind, htake,
    Uuid.ofBytes_bytes, orRaise_some, ok_bind, ensure_true _ hnil, ok_bind, hdrop, Uuid.ofBytes_bytes]
  rfl

/-! ## Denied entries -/

section

variable (caller : Caller)

/-- No await grants the scope. -/
def Denied (scope : EvidenceScope) : Prop :=
  ∀ t version, (access t).authorize caller scope ≠ .ok (some version)

/-- The labels a decision needs. -/
def labelKeys : List Text :=
  ["source_revision".toList, "doc_id".toList, "product".toList, "version".toList]

def SameLabels (p q : ControlPoint F) : Prop :=
  ∀ key ∈ labelKeys, (entryDict p.payload).map (get · key) = (entryDict q.payload).map (get · key)

/-- The same point, or a denied entry with the same labels, whatever else it holds. -/
def Alike (p q : ControlPoint F) : Prop :=
  p.id = q.id ∧ (p = q ∨ isCatalog p = true ∧ isCatalog q = true ∧ SameLabels p q ∧
    ∀ scope, catalogScope p.payload = .ok scope → Denied access caller scope)

structure AlikeStores (c c' : Control F) : Prop where
  left : ∀ p ∈ c, ∃ q ∈ c', Alike access caller p q
  right : ∀ q ∈ c', ∃ p ∈ c, Alike access caller p q

theorem catalogScope_congr {p q : ControlPoint F} (h : SameLabels p q) :
    catalogScope p.payload = catalogScope q.payload := by
  have hkeys := h
  simp only [SameLabels, labelKeys, List.forall_mem_cons] at hkeys
  obtain ⟨hrev, hdoc, hproduct, hversion, -⟩ := hkeys
  cases hp : entryDict p.payload with
  | none =>
    rw [hp, Option.map_none, eq_comm, Option.map_eq_none_iff] at hrev
    rw [catalogScope, catalogScope, hp, hrev]
  | some d =>
    rw [hp, Option.map_some, eq_comm, Option.map_eq_some_iff] at hrev
    obtain ⟨e, hq, hrev⟩ := hrev
    rw [hp, hq, Option.map_some, Option.map_some, Option.some.injEq] at hdoc hproduct hversion
    rw [catalogScope, catalogScope, hp, hq, orRaise_some, orRaise_some, ok_bind, ok_bind, textField,
      textField, hrev, hdoc, hproduct, hversion]

theorem entryLabel_congr {p q : ControlPoint F} (h : SameLabels p q) {key : Text}
    (hkey : key ∈ labelKeys) : entryLabel p key = entryLabel q key := by
  have hlabel : ∀ r : ControlPoint F, entryLabel r key = ((entryDict r.payload).map (get · key)).bind asText := by
    intro r
    rw [entryLabel, Option.bind_map]
    rfl
  rw [hlabel, hlabel, h key hkey]

theorem Alike.matches {p q : ControlPoint F} (h : Alike access caller p q) (filter : LabelFilter) :
    matchesFilter filter p = matchesFilter filter q := by
  rcases h.2 with rfl | ⟨hp, hq, hlabels, -⟩
  · rfl
  · have hproduct := entryLabel_congr hlabels (List.mem_of_getElem? (i := 2) rfl : "product".toList ∈ labelKeys)
    have hversion := entryLabel_congr hlabels (List.mem_of_getElem? (i := 3) rfl : "version".toList ∈ labelKeys)
    rw [matchesFilter, matchesFilter, hp, hq, hproduct, hversion]

end


/-! ## What a scroll keeps of a point -/

theorem lookup_filter_keys {keys : List Text} {key : Text} (hkey : key ∈ keys) (d : Items F) :
    (d.filter fun x => x.1 ∈ keys).lookup key = d.lookup key := by
  induction d with
  | nil => rfl
  | cons x d ih =>
    obtain ⟨k, v⟩ := x
    by_cases hk : k ∈ keys
    · rw [List.filter_cons_of_pos (by simpa using hk), List.lookup_cons, List.lookup_cons, ih]
    · have hne : (key == k) = false := beq_eq_false_iff_ne.mpr fun h => hk (h ▸ hkey)
      rw [List.filter_cons_of_neg (by simpa using hk), ih, List.lookup_cons, hne]

theorem entryDict_projected (p : ControlPoint F) :
    entryDict (projected p).payload = entryDict p.payload := by
  have hlook := lookup_filter_keys (List.mem_of_getElem? (i := 2) rfl : "entry".toList ∈ catalogFields)
    p.payload
  rw [entryDict, entryDict, PyJson.get, PyJson.get, projected, hlook]

theorem catalogScope_projected (p : ControlPoint F) :
    catalogScope (projected p).payload = catalogScope p.payload := by
  rw [catalogScope, catalogScope, entryDict_projected]

/-! ## A denied entry leaves no trace -/

section

variable (caller : Caller)

theorem authorizeListing_some {access : Nat → Access} {t : Nat} {caller : Caller} {scope : EvidenceScope}
    {version : Text} (h : authorizeListing access t caller scope = .ok (some version)) :
    (access t).authorize caller scope = .ok (some version) := by
  cases hanswer : (access t).authorize caller scope with
  | ok granted =>
    cases granted with
    | some v =>
      rw [authorizeListing, authorize, hanswer] at h
      exact congrArg Except.ok (Except.ok.inj h)
    | none =>
      rw [authorizeListing, authorize, hanswer] at h
      cases h
  | error e =>
    rw [authorizeListing, authorize, hanswer] at h
    cases e with
    | unauthenticated => cases h
    | unavailable => cases h
    | other r =>
      simp only at h
      split at h
      · next heq => cases heq
      · cases h
      · cases h

/-- What the loop reads of two records is the same. -/
def SameRead (r r' : ControlPoint F) : Prop :=
  r.id = r'.id ∧ (r = r' ∨ catalogScope r.payload = catalogScope r'.payload ∧
    ∀ scope, catalogScope r.payload = .ok scope → Denied access caller scope)

theorem Alike.sameRead {p q : ControlPoint F} (h : Alike access caller p q) :
    SameRead access caller (projected p) (projected q) := by
  refine ⟨h.1, ?_⟩
  rcases h.2 with rfl | ⟨-, -, hlabels, hdenied⟩
  · exact .inl rfl
  · rw [catalogScope_projected, catalogScope_projected]
    exact .inr ⟨catalogScope_congr hlabels, hdenied⟩

theorem admit_sameRead {control : Text} {nextPoint : Option Text}
    {records records' : List (ControlPoint F)}
    (h : List.Forall₂ (SameRead access caller) records records') : ∀ (t used : Nat) (kept : List Kept),
      admitRecords uuid5 N pageBytes access control caller nextPoint t used kept records =
        admitRecords uuid5 N pageBytes access control caller nextPoint t used kept records' := by
  induction h with
  | nil => exact fun _ _ _ => rfl
  | cons hread _ ih =>
    intro t used kept
    obtain ⟨hid, rfl | ⟨hscope, hdenied⟩⟩ := hread
    · simp only [admitRecords, ih]
    · rw [admitRecords, admitRecords, ← hscope]
      cases hs : catalogScope _ with
      | error e => rfl
      | ok scope =>
        rw [ok_bind, ok_bind]
        cases hg : authorizeListing access t caller scope with
        | error e => rfl
        | ok granted =>
          cases granted with
          | none => exact ih (t + 1) used kept
          | some version => exact absurd (authorizeListing_some hg) (hdenied scope hs t version)

theorem ids_alike {c c' : Control F} (h : AlikeStores access caller c c') :
    (c.items.map ControlPoint.id).Perm (c'.items.map ControlPoint.id) := by
  rw [List.perm_ext_iff_of_nodup c.distinct c'.distinct]
  intro id
  rw [List.mem_map, List.mem_map]
  constructor
  · rintro ⟨p, hp, rfl⟩
    obtain ⟨q, hq, hid, -⟩ := h.left p hp
    exact ⟨q, hq, hid.symm⟩
  · rintro ⟨q, hq, rfl⟩
    obtain ⟨p, hp, hid, -⟩ := h.right q hq
    exact ⟨p, hp, hid⟩

theorem inOrder_perm (c : Control F) : (inOrder c).Perm c.items := List.perm_insertionSort _ _

theorem inOrder_ids (c : Control F) : ((inOrder c).map ControlPoint.id).Pairwise (· < ·) := by
  have hle : ((inOrder c).map ControlPoint.id).Pairwise (· ≤ ·) := by
    rw [List.pairwise_map]
    exact List.pairwise_insertionSort _ _
  have hne : ((inOrder c).map ControlPoint.id).Nodup :=
    ((inOrder_perm c).map ControlPoint.id).nodup_iff.mpr c.distinct
  exact (hle.and hne).imp fun h => lt_of_le_of_ne h.1 h.2

theorem inOrder_alike {c c' : Control F} (h : AlikeStores access caller c c') :
    List.Forall₂ (Alike access caller) (inOrder c) (inOrder c') := by
  have hids : (inOrder c).map ControlPoint.id = (inOrder c').map ControlPoint.id := by
    have hperm := (((inOrder_perm c).map _).trans (ids_alike access caller h)).trans
      ((inOrder_perm c').map ControlPoint.id).symm
    exact hperm.eq_of_pairwise (fun a b _ _ hab hba => absurd hba (lt_asymm hab)) (inOrder_ids c)
      (inOrder_ids c')
  have hkeys : List.Forall₂ (· = ·) ((inOrder c).map ControlPoint.id)
      ((inOrder c').map ControlPoint.id) := by
    rw [hids]
    exact List.forall₂_refl _
  rw [List.forall₂_map_left_iff, List.forall₂_map_right_iff] at hkeys
  rw [List.forall₂_iff_zip] at hkeys ⊢
  refine ⟨hkeys.1, fun {p q} hpq => ?_⟩
  obtain ⟨hp, hq⟩ := List.of_mem_zip hpq
  obtain ⟨q', hq', halike⟩ := h.left p ((inOrder_perm c).mem_iff.mp hp)
  have hid : q'.id = q.id := halike.1.symm.trans (hkeys.2 hpq)
  rwa [← Keyed.eq_of_key hq' ((inOrder_perm c').mem_iff.mp hq) hid]

theorem fromKey_alike {xs ys : List (ControlPoint F)} (h : List.Forall₂ (Alike access caller) xs ys)
    (offset : Option Text) : List.Forall₂ (Alike access caller) (Paging.fromKey ControlPoint.id xs offset)
      (Paging.fromKey ControlPoint.id ys offset) := by
  cases offset with
  | none => exact h
  | some k =>
    refine List.rel_filter (fun p q hpq => ?_) h
    show decide (k ≤ p.id) = true ↔ decide (k ≤ q.id) = true
    rw [hpq.1]

/-- Pages of the two collections are read the same and go on at the same point. -/
theorem scrollOf_alike {c c' : Control F} (h : AlikeStores access caller c c') (filter : LabelFilter)
    (limit : Nat) (offset : Option Text) :
    List.Forall₂ (SameRead access caller) (scrollOf c filter limit offset).1
        (scrollOf c' filter limit offset).1 ∧
      (scrollOf c filter limit offset).2 = (scrollOf c' filter limit offset).2 := by
  have hhits : List.Forall₂ (Alike access caller) (hits c filter) (hits c' filter) := by
    refine List.rel_filter (fun p q hpq => ?_) (inOrder_alike access caller h)
    show matchesFilter filter p = true ↔ matchesFilter filter q = true
    rw [hpq.matches]
  have hfrom := fromKey_alike access caller hhits offset
  constructor
  · show List.Forall₂ _ (List.map projected _) (List.map projected _)
    rw [List.forall₂_map_left_iff, List.forall₂_map_right_iff]
    exact (List.forall₂_take limit hfrom).imp fun _ _ hpq => hpq.sameRead
  · have hhead : ∀ xs ys : List (ControlPoint F), List.Forall₂ (Alike access caller) xs ys →
        xs.head?.map ControlPoint.id = ys.head?.map ControlPoint.id := by
      intro xs ys hxs
      cases hxs with
      | nil => rfl
      | cons hpq _ => exact congrArg some hpq.1
    exact hhead _ _ (List.forall₂_drop limit hfrom)

/-- The receipt is read the same. -/
theorem readBinding_alike {c c' : Control F} (h : AlikeStores access caller c c') (control id : Text) :
    readBinding control (c.items.find? fun p => p.id = id).toList =
      readBinding control (c'.items.find? fun p => p.id = id).toList := by
  have hcatalog : ∀ p : ControlPoint F, isCatalog p = true →
      readBinding control [p] = .error (corrupt .controlRecord) := by
    intro p hp
    have htype : textField p.payload "record_type".toList = some Ingest.Catalog.catalogRecordType :=
      of_decide_eq_true hp
    have hother : Ingest.Catalog.catalogRecordType ≠ Ingest.Receipt.publicationRecordType := by
      decide +kernel
    rw [readBinding, htype, ensure, if_neg fun heq => hother (Option.some.inj heq)]
    rfl
  have hfind : ∀ (d : Control F) (p : ControlPoint F), p ∈ d → p.id = id →
      d.items.find? (fun q => q.id = id) = some p := by
    intro d p hp hid
    cases hf : d.items.find? fun q => q.id = id with
    | none =>
      have := List.find?_eq_none.mp hf p hp
      simp [hid] at this
    | some q =>
      have hq : q.id = id := by simpa using List.find?_some hf
      rw [Keyed.eq_of_key (List.mem_of_find?_eq_some hf) hp (hq.trans hid.symm)]
  cases hf : c.items.find? fun p => p.id = id with
  | none =>
    have hnone : c'.items.find? (fun p => p.id = id) = none := by
      refine List.find?_eq_none.mpr fun q hq => ?_
      obtain ⟨p, hp, hid, -⟩ := h.right q hq
      rw [← hid]
      exact List.find?_eq_none.mp hf p hp
    rw [hnone]
  | some p =>
    have hid : p.id = id := by simpa using List.find?_some hf
    obtain ⟨q, hq, hpq, hor⟩ := h.left p (List.mem_of_find?_eq_some hf)
    rw [hfind c' q hq (hpq.symm.trans hid)]
    rcases hor with rfl | ⟨hp, hq, -⟩
    · rfl
    · exact (hcatalog p hp).trans (hcatalog q hq).symm

theorem pinnedBuild_alike {c c' : Control F} (h : AlikeStores access caller c c') (name buildId : Text) :
    pinnedBuild uuid5 settings (serving w name c) buildId true =
      pinnedBuild uuid5 settings (serving w name c') buildId true := by
  have hbinding : ∀ physical, bindingOf uuid5 (serving w name c) physical =
      bindingOf uuid5 (serving w name c') physical := by
    intro physical
    simp only [bindingOf, serving]
    by_cases hname : controlOf physical = name
    · simp only [if_pos hname, ok_bind, readBinding_alike access caller h]
    · simp only [if_neg hname]
  simp only [pinnedBuild, hbinding]
  rfl

/-- Collections that differ in what denied entries hold beside their labels are listed the same. -/
theorem listSources_alike {c c' : Control F} (h : AlikeStores w.access caller c c') (name : Text)
    (limit : Int) (cursor servedBuild : Option Text) (filter : LabelFilter) :
    listSources uuid5 N pageBytes settings (serving w name c) caller limit cursor servedBuild filter =
      listSources uuid5 N pageBytes settings (serving w name c') caller limit cursor servedBuild
        filter := by
  have hlist : ∀ buildId offset limit, list uuid5 N pageBytes settings (serving w name c) caller buildId
      offset limit filter =
        list uuid5 N pageBytes settings (serving w name c') caller buildId offset limit filter := by
    intro buildId offset limit
    rw [list, list, pinnedBuild_alike uuid5 w.access settings w caller h]
    refine congrArg _ (funext fun pinned => ?_)
    show ((if controlOf pinned.2 = name then _ else _) >>= _) =
      ((if controlOf pinned.2 = name then _ else _) >>= _)
    by_cases hname : controlOf pinned.2 = name
    · obtain ⟨hpage, hnext⟩ := scrollOf_alike w.access caller h filter (min limit sourcesScanCap) offset
      rw [if_pos hname, if_pos hname, ok_bind, ok_bind, serving_access, serving_access, hnext,
        admit_sameRead uuid5 N pageBytes _ caller hpage]
    · rw [if_neg hname, if_neg hname]
      rfl
  simp only [listSources, hlist]

end


/-! ## Every entry of a page is granted -/

section

variable (caller : Caller) (control : Text) (records : List (ControlPoint F))

/-- A kept entry is one of the records, granted before await `t`. -/
structure Backed (t : Nat) (k : Kept) : Prop where
  record : ∃ record ∈ records, ∃ e, catalogScope record.payload = .ok k.scope ∧
    decodeCatalogPoint uuid5 control record = .ok e ∧ k.entry = sourceEntry e
  granted : ∃ t' < t, (access t').authorize caller k.scope = .ok (some k.granted)

variable {uuid5 access caller control records}

theorem Backed.mono {t t' : Nat} {k : Kept} (h : Backed uuid5 access caller control records t k)
    (ht : t ≤ t') : Backed uuid5 access caller control records t' k := by
  obtain ⟨t₀, ht₀, hgrant⟩ := h.granted
  exact ⟨h.record, t₀, by omega, hgrant⟩

theorem admit_backed {nextPoint : Option Text} {a : Admitted} : ∀ {rest : List (ControlPoint F)}
    {t used : Nat} {kept : List Kept}, rest ⊆ records →
    (∀ k ∈ kept, Backed uuid5 access caller control records t k) →
    admitRecords uuid5 N pageBytes access control caller nextPoint t used kept rest = .ok a →
    ∀ k ∈ a.kept, Backed uuid5 access caller control records a.await k := by
  intro rest
  induction rest with
  | nil =>
    intro t used kept _ hkept h
    rw [admitRecords, Except.ok.injEq] at h
    subst h
    exact hkept
  | cons record rest ih =>
    intro t used kept hsub hkept h
    obtain ⟨hrecord, hrest⟩ := List.cons_subset.mp hsub
    have hkept' : ∀ k ∈ kept, Backed uuid5 access caller control records (t + 1) k :=
      fun k hk => (hkept k hk).mono (Nat.le_succ t)
    simp only [admitRecords, bind_ok] at h
    obtain ⟨scope, hscope, granted, hgranted, h⟩ := h
    cases granted with
    | none => exact ih hrest hkept' h
    | some version =>
      simp only [bind_ok, orRaise_ok] at h
      obtain ⟨e, he, h⟩ := h
      split at h
      · obtain rfl := (pure_ok).mp h
        exact hkept'
      · refine ih hrest (fun k hk => ?_) h
        rcases List.mem_append.mp hk with hk | hk
        · exact hkept' k hk
        · obtain rfl := List.mem_singleton.mp hk
          have hdecode : decodeCatalogPoint uuid5 control record = .ok e := by
            cases hd : decodeCatalogPoint uuid5 control record with
            | ok e' =>
              rw [hd] at he
              exact congrArg Except.ok (Option.some.inj he)
            | error r =>
              rw [hd] at he
              cases he
          exact ⟨⟨record, hrecord, e, hscope, hdecode, rfl⟩, t, Nat.lt_succ_self t,
            authorizeListing_some hgranted⟩

theorem readmitKept_granted : ∀ {kept kept' : List Kept} {t : Nat},
    readmitKept access caller t kept = .ok kept' → ∀ k ∈ kept', k ∈ kept ∧
      ∃ t' version, t ≤ t' ∧ (access t').authorize caller k.scope = .ok (some version) := by
  intro kept
  induction kept with
  | nil =>
    intro kept' t h k hk
    rw [readmitKept, Except.ok.injEq] at h
    subst h
    cases hk
  | cons x kept ih =>
    intro kept' t h k hk
    simp only [readmitKept, bind_ok, pure_ok] at h
    obtain ⟨granted, hgranted, rest, hrest, rfl⟩ := h
    have htail : k ∈ rest → k ∈ x :: kept ∧
        ∃ t' version, t ≤ t' ∧ (access t').authorize caller k.scope = .ok (some version) := by
      intro hk
      obtain ⟨hmem, t', version, ht, hgrant⟩ := ih hrest k hk
      exact ⟨List.mem_cons_of_mem _ hmem, t', version, by omega, hgrant⟩
    cases granted with
    | none => exact htail hk
    | some version =>
      rcases List.mem_cons.mp hk with rfl | hk
      · exact ⟨List.mem_cons_self, t, version, le_rfl, authorizeListing_some hgranted⟩
      · exact htail hk

/-- What is left was granted under the version read at the end, or after it. -/
theorem settle_granted {a : Admitted} {kept : List Kept} (h : settle access caller a = .ok kept) :
    ∃ current, (access a.await).currentVersion = .ok current ∧ ∀ k ∈ kept, k ∈ a.kept ∧
      (k.granted = current ∨ ∃ t version, a.await < t ∧
        (access t).authorize caller k.scope = .ok (some version)) := by
  simp only [settle, bind_ok] at h
  obtain ⟨current, hcurrent, h⟩ := h
  have hversion : (access a.await).currentVersion = .ok current := by
    cases hanswer : (access a.await).currentVersion with
    | ok version =>
      rw [currentVersion, hanswer] at hcurrent
      exact congrArg Except.ok (Except.ok.inj hcurrent)
    | error e =>
      rw [currentVersion, hanswer] at hcurrent
      cases e <;> cases hcurrent
  refine ⟨current, hversion, fun k hk => ?_⟩
  split at h
  · obtain ⟨hmem, t, version, ht, hgrant⟩ := readmitKept_granted h k hk
    exact ⟨hmem, .inr ⟨t, version, by omega, hgrant⟩⟩
  · next hsame =>
    obtain rfl := (pure_ok).mp h
    have hall := List.any_eq_true.not.mp hsame
    refine ⟨hk, .inl ?_⟩
    by_contra hne
    exact hall ⟨k, hk, decide_eq_true hne⟩

end

/-- The entries of a page are records that were scrolled, and the caller was granted each: under the
version in force when the page was complete (await `last`), or after that. -/
def PageGranted (caller : Caller) (page : SourcePage) : Prop :=
  ∃ control filter limit offset records next last current,
    (w.client 3).scroll control filter limit offset = .ok (records, next) ∧
    (w.access last).currentVersion = .ok current ∧
    ∀ e ∈ page.sources, ∃ record ∈ records, ∃ entry scope,
      catalogScope record.payload = .ok scope ∧
      decodeCatalogPoint uuid5 control record = .ok entry ∧ e = sourceEntry entry ∧
      ∃ t version, (w.access t).authorize caller scope = .ok (some version) ∧
        (t < last ∧ version = current ∨ last < t)

theorem listSources_granted {caller : Caller} {limit : Int} {cursor servedBuild : Option Text}
    {filter : LabelFilter} {page : SourcePage}
    (h : listSources uuid5 N pageBytes settings w caller limit cursor servedBuild filter = .ok page) :
    PageGranted uuid5 w caller page := by
  simp only [listSources, list, bind_ok, ensure_ok, upstream_ok, pure_ok] at h
  obtain ⟨start, -, _, -, pinned, -, ⟨records, next⟩, hscroll, a, hkeeps, kept, hsettle, cursor', -,
    rfl⟩ := h
  obtain ⟨current, hcurrent, hgranted⟩ := settle_granted hsettle
  refine ⟨_, _, _, _, records, next, a.await, current, hscroll, hcurrent, fun e he => ?_⟩
  obtain ⟨k, hk, rfl⟩ := List.mem_map.mp he
  obtain ⟨hmem, hor⟩ := hgranted k hk
  have hbacked := admit_backed N pageBytes (List.Subset.refl records)
    (fun k hk => absurd hk List.not_mem_nil) hkeeps k hmem
  obtain ⟨record, hrecord, entry, hscope, hdecode, hentry⟩ := hbacked.record
  obtain ⟨t, ht, hgrant⟩ := hbacked.granted
  refine ⟨record, hrecord, entry, k.scope, hscope, hdecode, hentry, ?_⟩
  rcases hor with hsame | ⟨t', version, hlast, hagain⟩
  · exact ⟨t, k.granted, hgrant, .inl ⟨ht, hsame⟩⟩
  · exact ⟨t', version, hagain, .inr hlast⟩

/-- A denied entry leaves no trace: what it holds beside its labels changes no answer of the listing, and
it is part of no page, also where the policy changes during the request. -/
theorem denied_untraced :
    (∀ {w : World F} {name : Text} {c c' : Control F} {caller : Caller},
      AlikeStores w.access caller c c' → ∀ (settings : Settings) (limit : Int)
      (cursor servedBuild : Option Text) (filter : LabelFilter),
      listSources uuid5 N pageBytes settings (serving w name c) caller limit cursor servedBuild filter =
        listSources uuid5 N pageBytes settings (serving w name c') caller limit cursor servedBuild
          filter) ∧
    ∀ {w : World F} {settings : Settings} {caller : Caller} {limit : Int}
      {cursor servedBuild : Option Text} {filter : LabelFilter} {page : SourcePage},
      listSources uuid5 N pageBytes settings w caller limit cursor servedBuild filter = .ok page →
      PageGranted uuid5 w caller page := by
  constructor
  · intro w name c c' caller h settings limit cursor servedBuild filter
    exact listSources_alike uuid5 N pageBytes settings w caller h name limit cursor servedBuild filter
  · intro w settings caller limit cursor servedBuild filter page h
    exact listSources_granted uuid5 N pageBytes settings w h


/-! ## Following the cursors -/

theorem optStr_optText {v : Json F} {t : Option Text} (h : Ingest.Catalog.optText v = some t) :
    optStr v = .ok t := by
  cases v <;> simp_all [Ingest.Catalog.optText, optStr]

theorem str_asText {v : Json F} {t : Text} (h : asText v = some t) : str v = .ok t := by
  rw [str, h, orRaise_some]

/-- The labels of an entry. -/
def entryScope (e : Entry) : EvidenceScope := ⟨e.sourceRevision, e.docId, e.product, e.version⟩

theorem catalogScope_decoded {control : Text} {p : ControlPoint F} {e : Entry}
    (h : decodeCatalogPoint uuid5 control p = .ok e) : catalogScope p.payload = .ok (entryScope e) := by
  simp only [decodeCatalogPoint, bind_ok, ensure_ok] at h
  obtain ⟨_, -, _, -, h⟩ := h
  split at h
  · next d hd =>
    simp only [bind_ok, ensure_ok, orRaise_ok, pure_ok] at h
    obtain ⟨_, -, e', he, _, hsane, _, -, rfl⟩ := h
    simp only [Ingest.Catalog.readEntry, Option.bind_eq_bind, Option.bind_eq_some_iff,
      Option.pure_def, Option.some.injEq] at he
    obtain ⟨rev, hrev, sha, -, docId, hdoc, title, -, product, hproduct, version, hversion, count, -,
      pages, -, labels, -, indexed, -, rfl⟩ := he
    have hne : rev ≠ [] := hsane.1
    have hdict : entryDict p.payload = some d := by rw [entryDict, hd]
    rw [catalogScope, hdict, orRaise_some, ok_bind, hrev, orRaise_some, ok_bind, ensure_true _ hne,
      ok_bind, str_asText hdoc, ok_bind, optStr_optText hproduct, ok_bind, optStr_optText hversion,
      ok_bind]
    rfl
  · cases h

section

variable (entitled : EvidenceScope → Bool) (caller : Caller)

/-- The authority's decisions about the caller are fixed; the version of its policy may change. -/
structure Entitled : Prop where
  version : ∀ t, ∃ version, (access t).currentVersion = .ok version
  granted : ∀ t scope, entitled scope = true →
    ∃ version, (access t).authorize caller scope = .ok (some version)
  denied : ∀ t scope, entitled scope = false → (access t).authorize caller scope = .ok none

/-- What a point shows the caller. -/
def shown (control : Text) (p : ControlPoint F) : Option SourceEntry :=
  (decodeCatalogPoint uuid5 control p).toOption.bind fun e =>
    if entitled (entryScope e) then some (sourceEntry e) else none

variable {access entitled caller}

theorem Entitled.listing (h : Entitled access entitled caller) (t : Nat) (scope : EvidenceScope) :
    ∃ granted, authorizeListing access t caller scope = .ok granted ∧
      granted.isSome = entitled scope := by
  cases he : entitled scope with
  | true =>
    obtain ⟨version, hv⟩ := h.granted t scope he
    exact ⟨some version, by rw [authorizeListing, authorize, hv], rfl⟩
  | false => exact ⟨none, by rw [authorizeListing, authorize, h.denied t scope he], rfl⟩

theorem Entitled.readmitKept (h : Entitled access entitled caller) {kept : List Kept} : ∀ {t : Nat},
    (∀ k ∈ kept, entitled k.scope = true) → readmitKept access caller t kept = .ok kept := by
  induction kept with
  | nil => exact fun _ => rfl
  | cons k kept ih =>
    intro t hk
    obtain ⟨hk, hkept⟩ := List.forall_mem_cons.mp hk
    obtain ⟨granted, hgranted, hsome⟩ := h.listing t k.scope
    rw [SourceListing.readmitKept, hgranted, ok_bind, ih hkept, ok_bind, hsome, hk]
    rfl

theorem Entitled.settle (h : Entitled access entitled caller) {a : Admitted}
    (hk : ∀ k ∈ a.kept, entitled k.scope = true) : settle access caller a = .ok a.kept := by
  obtain ⟨version, hversion⟩ := h.version a.await
  have hcurrent : currentVersion access a.await = .ok version := by rw [currentVersion, hversion]
  rw [SourceListing.settle, hcurrent, ok_bind]
  split
  · exact h.readmitKept hk
  · rfl

variable (entitled) in
/-- How the loop over valid records ends: it has taken some of them and shown what these show, and it
goes on at the first it has not taken. -/
structure Ended (control : Text) (nextPoint : Option Text) (kept : List Kept)
    (records : List (ControlPoint F)) (a : Admitted) : Prop where
  allowed : ∀ k ∈ a.kept, entitled k.scope = true
  split : ∃ taken left, records = taken ++ left ∧
    a.kept.map Kept.entry = kept.map Kept.entry ++ taken.filterMap (shown uuid5 entitled control) ∧
    (left = [] ∧ a.nextPoint = nextPoint ∨
      ∃ r rest, left = r :: rest ∧ a.nextPoint = some r.id ∧ (kept ≠ [] ∨ taken ≠ []))

theorem admit_ended (h : Entitled access entitled caller) {control : Text} {nextPoint : Option Text}
    {records : List (ControlPoint F)}
    (hvalid : ∀ r ∈ records, ∃ e, decodeCatalogPoint uuid5 control r = .ok e) :
    ∀ (t used : Nat) (kept : List Kept), (∀ k ∈ kept, entitled k.scope = true) →
      ∃ a, admitRecords uuid5 N pageBytes access control caller nextPoint t used kept records =
        .ok a ∧
        Ended uuid5 entitled control nextPoint kept records a := by
  induction records with
  | nil =>
    intro t used kept hkept
    exact ⟨_, rfl, hkept, [], [], rfl, by simp, .inl ⟨rfl, rfl⟩⟩
  | cons r records ih =>
    intro t used kept hkept
    obtain ⟨⟨e, he⟩, hrest⟩ := List.forall_mem_cons.mp hvalid
    obtain ⟨granted, hgranted, hsome⟩ := h.listing t (entryScope e)
    rw [admitRecords, catalogScope_decoded uuid5 he, ok_bind, hgranted, ok_bind]
    cases granted with
    | none =>
      have hno : shown uuid5 entitled control r = none := by
        rw [shown, he]
        show (if entitled (entryScope e) = true then _ else _) = _
        rw [← hsome]
        rfl
      obtain ⟨a, ha, hentitled, taken, left, hsplit, hshown, hend⟩ := ih hrest (t + 1) used kept hkept
      refine ⟨a, ha, hentitled, r :: taken, left, by rw [hsplit]; rfl, ?_, ?_⟩
      · rw [hshown, List.filterMap_cons_none hno]
      · refine hend.imp_right ?_
        rintro ⟨r', rest, hleft, hnext, -⟩
        exact ⟨r', rest, hleft, hnext, .inr (List.cons_ne_nil _ _)⟩
    | some version =>
      have hyes : shown uuid5 entitled control r = some (sourceEntry e) := by
        rw [shown, he]
        show (if entitled (entryScope e) = true then _ else _) = _
        rw [← hsome]
        rfl
      have hdecode : orRaise (decodeCatalogPoint uuid5 control r).toOption (corrupt .catalogEntry) =
          .ok e := by
        rw [he]
        rfl
      simp only [hdecode, ok_bind]
      split
      · next hfull =>
        exact ⟨_, rfl, hkept, [], r :: records, rfl, by simp,
          .inr ⟨r, records, rfl, rfl, .inl hfull.1⟩⟩
      · have hkept' : ∀ k ∈ kept ++ [⟨sourceEntry e, entryScope e, version⟩],
            entitled k.scope = true := by
          intro k hk
          rcases List.mem_append.mp hk with hk | hk
          · exact hkept k hk
          · obtain rfl := List.mem_singleton.mp hk
            exact hsome.symm
        obtain ⟨a, ha, hentitled, taken, left, hsplit, hshown, hend⟩ := ih hrest (t + 1) _ _ hkept'
        refine ⟨a, ha, hentitled, r :: taken, left, by rw [hsplit]; rfl, ?_, ?_⟩
        · rw [hshown, List.filterMap_cons_some hyes, List.map_append, List.append_assoc]
          rfl
        · refine hend.imp_right ?_
          rintro ⟨r', rest, hleft, hnext, -⟩
          exact ⟨r', rest, hleft, hnext, .inr (List.cons_ne_nil _ _)⟩

/-- A page takes some of the items left and stops at the first it has not taken. -/
theorem page_split {control : Text} {items : List (ControlPoint F)} {limit : Nat} (hlimit : 0 < limit)
    {a : Admitted} (h : Ended uuid5 entitled control ((items.drop limit).head?.map ControlPoint.id) []
      ((items.take limit).map projected) a) :
    ∃ taken left, items = taken ++ left ∧
      a.kept.map Kept.entry = taken.filterMap (fun p => shown uuid5 entitled control (projected p)) ∧
      (left = [] ∧ a.nextPoint = none ∨
        ∃ r rest, left = r :: rest ∧ a.nextPoint = some r.id ∧ taken ≠ []) := by
  obtain ⟨-, taken, left, hsplit, hshown, hend⟩ := h
  rw [List.map_nil, List.nil_append] at hshown
  obtain ⟨taken', left', htake, rfl, hleft⟩ := List.map_eq_append_iff.mp hsplit
  rw [List.filterMap_map] at hshown
  have hitems : items = taken' ++ (left' ++ items.drop limit) := by
    rw [← List.append_assoc, ← htake, List.take_append_drop]
  refine ⟨taken', left' ++ items.drop limit, hitems, hshown, ?_⟩
  rcases hend with ⟨hnil, hnext⟩ | ⟨r, rest, hcons, hnext, htaken⟩
  · obtain rfl := List.map_eq_nil_iff.mp (hleft.trans hnil)
    rw [List.append_nil] at htake
    cases hdrop : items.drop limit with
    | nil => exact .inl ⟨rfl, by rw [hnext, hdrop]; rfl⟩
    | cons r rest =>
      refine .inr ⟨r, rest, rfl, by rw [hnext, hdrop]; rfl, ?_⟩
      rintro rfl
      have hlen := congrArg List.length hdrop
      have hnone := congrArg List.length htake
      rw [List.length_drop, List.length_cons] at hlen
      rw [List.length_take, List.length_nil] at hnone
      omega
  · obtain ⟨r', rest', rfl, rfl, -⟩ := List.map_eq_cons_iff.mp (hleft.trans hcons)
    refine .inr ⟨r', rest' ++ items.drop limit, rfl, hnext, ?_⟩
    rcases htaken with hkept | htaken
    · exact absurd rfl hkept
    · exact fun hnil => htaken (by rw [hnil]; rfl)

end

/-! ## The whole listing -/

section

variable (worlds : Nat → World F) (c : Control F) (buildId physical : Text) (caller : Caller)
  (filter : LabelFilter) (limits : Nat → Int) (entitled : EvidenceScope → Bool)

/-- Each request finds the same build with the same control collection, and a caller with the same
entitlements. -/
structure Steady : Prop where
  build : ∀ i, ∃ binding, pinnedBuild uuid5 settings (serving (worlds i) (controlOf physical) c) buildId
    true = .ok (binding, physical)
  valid : ∀ p ∈ c, isCatalog p = true →
    ∃ e, decodeCatalogPoint uuid5 (controlOf physical) (projected p) = .ok e
  caller : ∀ i, Entitled (worlds i).access entitled caller
  limits : ∀ i, 1 ≤ limits i ∧ limits i ≤ sourcesLimitMax

/-- The `i`-th request, with this cursor, is answered with these entries and this next cursor. -/
def Answers (i : Nat) (cursor : Option Text) (entries : List SourceEntry) (next : Option Text) : Prop :=
  listSources uuid5 N pageBytes settings (serving (worlds i) (controlOf physical) c) caller (limits i)
    cursor (some buildId) filter = .ok ⟨buildId, entries, next⟩

/-- The position of a cursor in the matching points. -/
def Before : Option Text → List (ControlPoint F) → Prop
  | none, items => items = hits c filter
  | some token, items => ∃ point, encodeSourcesCursor buildId point = .ok token ∧
      items = Paging.fromKey ControlPoint.id (hits c filter) (some point)

theorem mem_hits {c : Control F} {filter : LabelFilter} {p : ControlPoint F} :
    p ∈ hits c filter ↔ p ∈ c ∧ matchesFilter filter p = true := by
  rw [hits, List.mem_filter, (inOrder_perm c).mem_iff]
  rfl

theorem hits_ordered (c : Control F) (filter : LabelFilter) :
    Paging.Ordered ControlPoint.id (hits c filter) :=
  (List.pairwise_map.mp (inOrder_ids c)).filter _

theorem pinnedBuild_id {w : World F} {requireCatalog : Bool} {bound : BuildBinding × Text}
    (h : pinnedBuild uuid5 settings w buildId requireCatalog = .ok bound) :
    ∃ u : Uuid, buildId = u.str ∧ u.isNil = false := by
  simp only [pinnedBuild, bind_ok, orRaise_ok] at h
  obtain ⟨names, hnames, -⟩ := h
  cases hb : Ingest.Build.buildAliases settings.qdrantCollection buildId with
  | error e =>
    rw [hb] at hnames
    cases hnames
  | ok names' =>
    obtain ⟨⟨u, hu⟩, -⟩ := Ingest.Build.buildAliases_ok.mp hb
    exact ⟨u, Ingest.Build.canonicalBuildId_ok.mp hu⟩

variable {uuid5 settings worlds c buildId physical caller limits entitled}

theorem Steady.hit (h : Steady uuid5 settings worlds c buildId physical caller limits entitled)
    {p : ControlPoint F} (hp : p ∈ hits c filter) :
    ∃ e, decodeCatalogPoint uuid5 (controlOf physical) (projected p) = .ok e := by
  obtain ⟨hmem, hmatch⟩ := mem_hits.mp hp
  rw [matchesFilter, Bool.and_eq_true, Bool.and_eq_true] at hmatch
  exact h.valid p hmem hmatch.1.1

theorem fromKey_subset {c : Control F} {filter : LabelFilter} {offset : Option Text}
    {p : ControlPoint F} (h : p ∈ Paging.fromKey ControlPoint.id (hits c filter) offset) :
    p ∈ hits c filter := by
  cases offset with
  | none => exact h
  | some k => exact (List.mem_filter.mp h).1

theorem encodeSourcesCursor_ok {buildId : Text} {build : Uuid} (hid : buildId = build.str)
    (point : Uuid) : ∃ token, encodeSourcesCursor buildId point.str = .ok token := by
  refine ⟨cursorPrefix ++ Base64.encode (build.bytes ++ point.bytes), ?_⟩
  rw [encodeSourcesCursor, hid, canonicalUuid, canonicalUuid, Uuid.ofCanonical_str, Uuid.ofCanonical_str]
  rfl

theorem projected_id {control : Text} {p : ControlPoint F} {e : Entry}
    (h : decodeCatalogPoint uuid5 control (projected p) = .ok e) :
    p.id = catalogPointId uuid5 control e.sourceRevision :=
  @Ingest.Catalog.decode_own_id F uuid5 control (projected p) e h

variable {filter}

/-- A request is answered, with entries of the points left from its cursor on. -/
theorem Steady.request (h : Steady uuid5 settings worlds c buildId physical caller limits entitled)
    {i : Nat} {cursor : Option Text} {items : List (ControlPoint F)}
    (hbefore : Before c buildId filter cursor items) :
    ∃ page next, Answers uuid5 N pageBytes settings worlds c buildId physical caller filter limits i
        cursor page next ∧
      Paging.Takes (Before c buildId filter)
        (fun p => shown uuid5 entitled (controlOf physical) (projected p)) items page next := by
  obtain ⟨binding, hpin⟩ := h.build i
  obtain ⟨build, hid, hnil⟩ := pinnedBuild_id uuid5 settings buildId hpin
  obtain ⟨offset, hstart, hitems⟩ : ∃ offset, startOf cursor (some buildId) = .ok (buildId, offset) ∧
      items = Paging.fromKey ControlPoint.id (hits c filter) offset := by
    cases cursor with
    | none => exact ⟨none, rfl, hbefore⟩
    | some token =>
      obtain ⟨point, htoken, hitems⟩ := hbefore
      refine ⟨some point, ?_, hitems⟩
      rw [startOf, parse_encodeSourcesCursor hid hnil htoken]
      rfl
  have hlimit : 0 < min (limits i).toNat sourcesScanCap := by
    have hone := (h.limits i).1
    have hcap : 0 < sourcesScanCap := by decide
    omega
  have hvalid : ∀ r ∈ (items.take (min (limits i).toNat sourcesScanCap)).map projected,
      ∃ e, decodeCatalogPoint uuid5 (controlOf physical) r = .ok e := by
    intro r hr
    obtain ⟨p, hp, rfl⟩ := List.mem_map.mp hr
    have hmem := List.mem_of_mem_take hp
    rw [hitems] at hmem
    exact h.hit filter (fromKey_subset hmem)
  let after := (items.drop (min (limits i).toNat sourcesScanCap)).head?.map ControlPoint.id
  obtain ⟨a, hkeeps, hended⟩ : ∃ a,
      admitRecords uuid5 N pageBytes (worlds i).access (controlOf physical) caller
      after 4 0 [] _ = .ok a ∧ Ended uuid5 entitled (controlOf physical) after [] _ a :=
    admit_ended uuid5 N pageBytes (h.caller i) hvalid 4 0 [] fun k hk => absurd hk List.not_mem_nil
  obtain ⟨taken, left, hsplit, hshown, hend⟩ := page_split uuid5 hlimit hended
  have hcursor : ∃ next, nextCursor buildId a.nextPoint = .ok next ∧ (next = none → left = []) ∧
      (next ≠ none → taken ≠ [] ∧ Before c buildId filter next left) := by
    rcases hend with ⟨hleft, hnone⟩ | ⟨r, rest, hleft, hsome, htaken⟩
    · exact ⟨none, by rw [hnone]; rfl, fun _ => hleft, fun hne => absurd rfl hne⟩
    · have hfrom : Paging.fromKey ControlPoint.id (hits c filter) offset = taken ++ r :: rest := by
        rw [← hitems, hsplit, hleft]
      have hr : r ∈ hits c filter := fromKey_subset (hfrom ▸ List.mem_append_right _ List.mem_cons_self)
      obtain ⟨e, he⟩ := h.hit filter hr
      have hrid := projected_id he
      obtain ⟨token, htoken⟩ := encodeSourcesCursor_ok hid
        (uuid5 ("source-catalog|".toList ++ controlOf physical ++ '|' :: e.sourceRevision))
      refine ⟨some token, ?_, nofun, fun _ => ⟨htaken, r.id, ?_, ?_⟩⟩
      · rw [hsome, nextCursor, hrid, catalogPointId, htoken]
        rfl
      · rw [hrid, catalogPointId, htoken]
      · rw [hleft, Paging.fromKey_key (hits_ordered c filter) hfrom]
  obtain ⟨next, hnext, hlast, hmore⟩ := hcursor
  refine ⟨a.kept.map Kept.entry, next, ?_, ⟨taken, left, hsplit, hshown, hlast, hmore⟩⟩
  have hscroll : ((serving (worlds i) (controlOf physical) c).client 3).scroll (controlOf physical) filter
      (min (limits i).toNat sourcesScanCap) offset =
        .ok ((items.take (min (limits i).toNat sourcesScanCap)).map projected,
          (items.drop (min (limits i).toNat sourcesScanCap)).head?.map ControlPoint.id) := by
    rw [hitems]
    exact if_pos rfl
  rw [Answers, listSources, hstart, ok_bind, ensure_true _ (h.limits i), ok_bind, upstream_ok, list, hpin,
    ok_bind]
  show (((serving (worlds i) (controlOf physical) c).client 3).scroll (controlOf physical) _ _ _ >>= _) = _
  rw [hscroll, ok_bind]
  show (admitRecords uuid5 N pageBytes (worlds i).access (controlOf physical) caller _ 4 0 [] _
    >>= _) = _
  rw [hkeeps, ok_bind]
  show (settle (worlds i).access caller a >>= _) = _
  rw [(h.caller i).settle hended.allowed, ok_bind, hnext, ok_bind]
  rfl

theorem shown_some {control : Text} {p : ControlPoint F} {entry : SourceEntry} :
    shown uuid5 entitled control p = some entry ↔ ∃ e, decodeCatalogPoint uuid5 control p = .ok e ∧
      entitled (entryScope e) = true ∧ entry = sourceEntry e := by
  rw [shown]
  cases hd : decodeCatalogPoint uuid5 control p with
  | error r => exact ⟨nofun, fun ⟨_, he, _⟩ => nomatch he⟩
  | ok e =>
    show (if entitled (entryScope e) = true then some (sourceEntry e) else none) = some entry ↔ _
    constructor
    · intro h
      split at h
      · next hallowed => exact ⟨e, rfl, hallowed, (Option.some.inj h).symm⟩
      · cases h
    · rintro ⟨e', he', hallowed, rfl⟩
      obtain rfl := Except.ok.inj he'
      rw [if_pos hallowed]

/-- Following the cursors from the first page ends. The pages list the entries that match the filter and
that the caller may read, in the order of the ids of their points, none twice. -/
theorem listing_complete
    (h : Steady uuid5 settings worlds c buildId physical caller limits entitled) :
    ∃ pages, Paging.Pages (Answers uuid5 N pageBytes settings worlds c buildId physical caller filter
        limits) 0 none pages ∧
      (∀ other, Paging.Pages (Answers uuid5 N pageBytes settings worlds c buildId physical caller filter
        limits) 0 none other → other = pages) ∧
      (∀ entry, entry ∈ pages.flatten ↔ ∃ p ∈ c, matchesFilter filter p = true ∧
        ∃ e, decodeCatalogPoint uuid5 (controlOf physical) (projected p) = .ok e ∧
          entitled (entryScope e) = true ∧ entry = sourceEntry e) ∧
      pages.flatten.Pairwise fun entry entry' =>
        catalogPointId uuid5 (controlOf physical) entry.sourceRevision <
          catalogPointId uuid5 (controlOf physical) entry'.sourceRevision := by
  have hstep : ∀ (i : Nat) (cursor : Option Text) (page page' : List SourceEntry)
      (next next' : Option Text),
      Answers uuid5 N pageBytes settings worlds c buildId physical caller filter limits i cursor page
        next →
      Answers uuid5 N pageBytes settings worlds c buildId physical caller filter limits i cursor page'
        next' → page = page' ∧ next = next' := by
    intro i cursor page page' next next' hpage hpage'
    have heq := Except.ok.inj (hpage.symm.trans hpage')
    rw [SourcePage.mk.injEq] at heq
    exact heq.2
  obtain ⟨pages, hpages, hflat⟩ := Paging.exists_pages
    (fun i cursor items hbefore => h.request N pageBytes hbefore) 0 none (hits c filter) rfl
  refine ⟨pages, hpages, fun other hother => hother.unique hstep hpages, fun entry => ?_, ?_⟩
  · rw [hflat, List.mem_filterMap]
    constructor
    · rintro ⟨p, hp, hshown⟩
      obtain ⟨hmem, hmatch⟩ := mem_hits.mp hp
      exact ⟨p, hmem, hmatch, shown_some.mp hshown⟩
    · rintro ⟨p, hmem, hmatch, hshown⟩
      exact ⟨p, mem_hits.mpr ⟨hmem, hmatch⟩, shown_some.mpr hshown⟩
  · rw [hflat, List.pairwise_filterMap]
    refine (hits_ordered c filter).imp fun {p q} hlt entry hp entry' hq => ?_
    obtain ⟨e, he, -, rfl⟩ := shown_some.mp hp
    obtain ⟨e', he', -, rfl⟩ := shown_some.mp hq
    have hid := projected_id he
    have hid' := projected_id he'
    rwa [hid, hid'] at hlt

end

/-! ## Two sources of one build -/

def otherSha : Text := List.replicate 64 '1'

/-- Two titled sources. -/
def someEntries : List Entry :=
  [Ingest.Catalog.someEntry (some ['T']),
    { Ingest.Catalog.someEntry (some ['T']) with
      sourceRevision := 'D' :: '|' :: otherSha
      sourceSha256 := otherSha }]

def someMember : Json Unit :=
  .obj [("count".toList, .int 0), ("sha256".toList, .str Ingest.Catalog.someSha)]

/-- A receipt that binds a catalog. -/
def catalogReceipt : ControlPoint Unit where
  id := someReceipt.id
  payload := [("record_type".toList, .str Ingest.Receipt.publicationRecordType),
    ("target_collection".toList, .str someBuild.control), ("build_schema".toList, .int 3),
    ("build_id".toList, .str someBuild.buildId), ("logical_alias".toList, .str someBuild.logicalAlias),
    ("data_collection".toList, .str someBuild.physical), ("gen_fp".toList, .str someBuild.genFp),
    ("corpus_fp".toList, .str someBuild.corpusFp),
    ("content_seal".toList,
      .obj [("schema".toList, .int 1), ("data".toList, someMember), ("control".toList, someMember)]),
    ("source_catalog".toList, .obj [("schema".toList, .int 1), ("count".toList, .int 2),
      ("sha256".toList, .str Ingest.Catalog.someSha)])]

def someControl : Control Unit where
  items := catalogReceipt ::
    someEntries.map (Ingest.Catalog.catalogPoint halves Ingest.Catalog.lastBytes someBuild.control)
  distinct := by decide +kernel

theorem projected_catalogPoint (e : Entry) :
    projected (Ingest.Catalog.catalogPoint halves Ingest.Catalog.lastBytes someBuild.control e) =
      Ingest.Catalog.catalogPoint halves Ingest.Catalog.lastBytes someBuild.control e := rfl

theorem someEntries_decode {e : Entry} (he : e ∈ someEntries) :
    decodeCatalogPoint Ingest.Catalog.lastBytes (controlOf someBuild.physical) (projected
      (Ingest.Catalog.catalogPoint halves Ingest.Catalog.lastBytes someBuild.control e)) = .ok e := by
  have hgood : ∀ e ∈ someEntries, e.title.isSome = true ∧ e.sane := by decide +kernel
  rw [projected_catalogPoint]
  exact (Ingest.Catalog.decode_catalogPoint halves Ingest.Catalog.lastBytes).mpr ⟨rfl, hgood e he⟩

theorem someControl_steady : Steady Ingest.Catalog.lastBytes someSettings
    (fun _ => holding catalogReceipt) someControl someBuild.buildId someBuild.physical ⟨none⟩
    (fun _ => 1) (fun _ => true) where
  build _ := ⟨someBuild, by decide +kernel⟩
  valid := by
    intro p hp hcatalog
    rcases List.mem_cons.mp hp with rfl | hp
    · exact absurd hcatalog (by decide +kernel)
    · obtain ⟨e, he, rfl⟩ := List.mem_map.mp hp
      exact ⟨e, someEntries_decode he⟩
  caller _ := ⟨fun _ => ⟨_, rfl⟩, fun _ _ _ => ⟨_, rfl⟩, nofun⟩
  limits _ := by decide

/-- Both sources are listed, one a page. -/
theorem both_listed : ∃ pages, Paging.Pages (Answers Ingest.Catalog.lastBytes halves sourcesPageBytes
      someSettings (fun _ => holding catalogReceipt) someControl someBuild.buildId someBuild.physical
      ⟨none⟩ ⟨none, none⟩ fun _ => 1) 0 none pages ∧
    ∀ e ∈ someEntries, sourceEntry e ∈ pages.flatten := by
  obtain ⟨pages, hpages, -, hmem, -⟩ :=
    @listing_complete _ _ halves sourcesPageBytes _ _ _ _ _ _ ⟨none, none⟩ _ _ someControl_steady
  refine ⟨pages, hpages, fun e he => (hmem _).mpr ?_⟩
  refine ⟨_, List.mem_cons_of_mem _ (List.mem_map_of_mem he), ?_, e, someEntries_decode he, rfl, rfl⟩
  rw [matchesFilter, Ingest.Catalog.isCatalog_catalogPoint]
  rfl

/-- A store that grants nothing. -/
def denying : World Unit :=
  { holding catalogReceipt with
    access := fun _ =>
      { authorize := fun _ _ => .ok none
        currentVersion := .ok "v".toList } }

/-- A source whose entry has this title. -/
def secretPoint (title : Json Unit) : ControlPoint Unit where
  id := catalogPointId Ingest.Catalog.lastBytes someBuild.control Ingest.Catalog.someRev
  payload := [("record_type".toList, .str Ingest.Catalog.catalogRecordType),
    ("catalog_schema".toList, .int 1),
    ("entry".toList, .obj [("source_revision".toList, .str Ingest.Catalog.someRev),
      ("doc_id".toList, .str "D".toList), ("product".toList, .null), ("version".toList, .null),
      ("title".toList, title)])]

def secretControl (title : Json Unit) : Control Unit where
  items := [catalogReceipt, secretPoint title]
  distinct := by
    show [someReceipt.id, catalogPointId Ingest.Catalog.lastBytes someBuild.control
      Ingest.Catalog.someRev].Nodup
    decide +kernel

theorem secret_alike (title title' : Json Unit) :
    AlikeStores denying.access ⟨none⟩ (secretControl title) (secretControl title') := by
  have hlabels : ∀ t t', SameLabels (secretPoint t) (secretPoint t') := by
    intro t t' key hkey
    simp only [labelKeys, List.mem_cons, List.not_mem_nil, or_false] at hkey
    rcases hkey with rfl | rfl | rfl | rfl <;> rfl
  have hall : ∀ t t', ∀ p ∈ secretControl t, ∃ q ∈ secretControl t', Alike denying.access ⟨none⟩ p q ∧
      Alike denying.access ⟨none⟩ q p := by
    intro t t' p hp
    rcases List.mem_cons.mp hp with rfl | hp
    · exact ⟨_, List.mem_cons_self, ⟨rfl, .inl rfl⟩, rfl, .inl rfl⟩
    · obtain rfl := List.mem_singleton.mp hp
      have hdenied : ∀ scope, Denied denying.access ⟨none⟩ scope := by
        intro scope i version hok
        cases hok
      refine ⟨secretPoint t', List.mem_cons_of_mem _ List.mem_cons_self, ⟨rfl, .inr ?_⟩, rfl, .inr ?_⟩
      · exact ⟨rfl, rfl, hlabels t t', fun scope _ => hdenied scope⟩
      · exact ⟨rfl, rfl, hlabels t' t, fun scope _ => hdenied scope⟩
  constructor
  · intro p hp
    obtain ⟨q, hq, hpq, -⟩ := hall title title' p hp
    exact ⟨q, hq, hpq⟩
  · intro q hq
    obtain ⟨p, hp, -, hpq⟩ := hall title' title q hq
    exact ⟨p, hp, hpq⟩

/-- A denied source with a title, and one whose title is not a text, give the same empty page. -/
theorem secret_untraced :
    listSources Ingest.Catalog.lastBytes halves sourcesPageBytes someSettings
        (serving denying someBuild.control (secretControl (.str ['T']))) ⟨none⟩ 10 none
        (some someBuild.buildId) ⟨none, none⟩ =
      listSources Ingest.Catalog.lastBytes halves sourcesPageBytes someSettings
        (serving denying someBuild.control (secretControl (.int 0))) ⟨none⟩ 10 none
        (some someBuild.buildId) ⟨none, none⟩ ∧
    PageGranted Ingest.Catalog.lastBytes (serving denying someBuild.control (secretControl (.int 0)))
      ⟨none⟩ ⟨someBuild.buildId, [], none⟩ := by
  have hpage : listSources Ingest.Catalog.lastBytes halves sourcesPageBytes someSettings
      (serving denying someBuild.control (secretControl (.int 0))) ⟨none⟩ 10 none
      (some someBuild.buildId) ⟨none, none⟩ = .ok ⟨someBuild.buildId, [], none⟩ := by decide +kernel
  obtain ⟨hsame, hgranted⟩ := @denied_untraced Unit Ingest.Catalog.lastBytes halves sourcesPageBytes
  exact ⟨hsame (secret_alike (.str ['T']) (.int 0)) _ _ _ _ _, hgranted hpage⟩

end MainframeRag.Agent.SourceListing
