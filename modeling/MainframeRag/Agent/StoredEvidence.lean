import MainframeRag.Ingest.Catalog
import MainframeRag.Ingest.Chunking.BlockShape
import MainframeRag.Ingest.Chunking.Classify
import MainframeRag.Lib.Base64
import MainframeRag.Lib.JsonDict

/-!
# Evidence from stored payloads

The envelope and the reference of `agent/evidence.py`: `build_evidence` checks the payload of one
stored point, hashes what it says and packs build, point and hash into an `ep1.` reference.

A reference has one reading and a reading has one reference (`parseReference_iff`). Every chunk of
the ingest passes the checks (`chunk_evidence`), and its byte ranges select the texts of its atomic
units.
-/

namespace MainframeRag.Agent.StoredEvidence

open PyText PyJson JsonText Fallible Hex
open Ingest.Build (BuildBinding)
open Ingest.Catalog (asText textField intField optJson)
open Ingest.Chunking (Chunk UnitSpan UnitKind chunkTypes)

variable {F : Type}

/-! ## Failures -/

inductive FailureKind
  | invalidReference
  | invalidCursor
  | unauthenticated
  | unavailable
  | corrupt
  | accessUnavailable
  | budgetExceeded
  | timeout
  | upstream
  deriving DecidableEq

/-- The internal labels. -/
inductive Reason
  | malformed
  | sourceRevision
  | payloadFieldType
  | sourceSha256
  | text
  | chunkType
  | pageStart
  | pageEnd
  | unitsShape
  | unitsRange
  | chunkMissing
  | scopeMismatch
  | digestMismatch
  | overBudget
  | noServedBuild
  | catalogEntry
  | unknownBuild
  | buildAliases
  | controlRecord
  | controlBinding
  | controlMismatch
  | noCatalog
  | noIdentity
  | policyUnavailable
  | denied
  | deadline
  | errorType
  deriving DecidableEq

/-- An `EvidenceFailure`, or another exception. -/
inductive Raised
  | failure (kind : FailureKind) (reason : Reason)
  | other
  deriving DecidableEq

def corrupt (reason : Reason) : Raised := .failure .corrupt reason

/-! ## References -/

def referencePrefix : Text := "ep1.".toList

def referenceBytes : Nat := 16 + 16 + 32

def referenceLen : Nat := referencePrefix.length + (referenceBytes * 4 + 2) / 3

structure ParsedReference where
  buildId : Text
  chunkId : Text
  digest : Bytes
  deriving DecidableEq

/-- `_canonical_uuid` -/
def canonicalUuid (value : Text) : Except Raised Uuid := orRaise (Uuid.ofCanonical value) .other

/-- `encode_reference` -/
def encodeReference (buildId chunkId : Text) (digest : Bytes) : Except Raised Text := do
  let build ← canonicalUuid buildId
  let chunk ← canonicalUuid chunkId
  ensure (digest.length = 32) .other
  return referencePrefix ++ Base64.encode (build.bytes ++ chunk.bytes ++ digest)

/-- What `parse_reference` and `parse_sources_cursor` ask of a token; its bytes. -/
def tokenBytes (mark : Text) (length size : Nat) (bad : Raised) (token : Text) :
    Except Raised Bytes := do
  ensure (token.length = length ∧ Base64.isAscii token = true) bad
  ensure (mark <+: token) bad
  let body := token.drop mark.length
  let raw ← orRaise (Base64.decode body) bad
  ensure (raw.length = size ∧ Base64.encode raw = body) bad
  return raw

/-- `parse_reference` -/
def parseReference (token : Text) : Except Raised ParsedReference := do
  let bad := Raised.failure .invalidReference .malformed
  let raw ← tokenBytes referencePrefix referenceLen referenceBytes bad token
  let build ← orRaise (Uuid.ofBytes (raw.take 16)) bad
  let chunk ← orRaise (Uuid.ofBytes ((raw.drop 16).take 16)) bad
  ensure (build.isNil = false) bad
  return ⟨build.str, chunk.str, raw.drop 32⟩

/-! ## The envelope -/

structure EvidenceScope where
  sourceRevision : Text
  docId : Text
  product : Option Text
  version : Option Text
  deriving DecidableEq

/-- What is hashed of a stored point. -/
structure Envelope where
  buildId : Text
  chunkId : Text
  generationFingerprint : Text
  sourceRevision : Text
  sourceSha256 : Text
  docId : Text
  title : Text
  product : Option Text
  version : Option Text
  headingPath : Text
  chunkType : Text
  text : Text
  atomicSpans : Option (List (Nat × Nat))
  physicalPageStart : Int
  physicalPageEnd : Option Int
  printedLabel : Option Text
  deriving DecidableEq

structure Evidence extends Envelope where
  reference : Text
  digest : Text
  textBytes : Nat
  deriving DecidableEq

def spanJson (s : Nat × Nat) : Json F :=
  .obj [("start".toList, .int s.1), ("end".toList, .int s.2)]

def spansJson : Option (List (Nat × Nat)) → Json F
  | none => .null
  | some spans => .arr (spans.map spanJson)

def optInt : Option Int → Json F
  | none => .null
  | some n => .int n

def Envelope.items (e : Envelope) : Items F :=
  [("schema".toList, .int 1), ("profile".toList, .str "stored-payload".toList),
    ("build_id".toList, .str e.buildId), ("chunk_id".toList, .str e.chunkId),
    ("generation_fingerprint".toList, .str e.generationFingerprint),
    ("source_revision".toList, .str e.sourceRevision),
    ("source_sha256".toList, .str e.sourceSha256), ("doc_id".toList, .str e.docId),
    ("title".toList, .str e.title), ("product".toList, optJson e.product),
    ("version".toList, optJson e.version), ("heading_path".toList, .str e.headingPath),
    ("chunk_type".toList, .str e.chunkType), ("text".toList, .str e.text),
    ("atomic_spans".toList, spansJson e.atomicSpans),
    ("physical_page_start".toList, .int e.physicalPageStart),
    ("physical_page_end".toList, optInt e.physicalPageEnd),
    ("printed_label".toList, optJson e.printedLabel)]

/-! ## Reading a payload -/

/-- `payload.get(key, default)` -/
def getOr (payload : Items F) (key : Text) (default : Json F) : Json F :=
  (payload.lookup key).getD default

/-- `_str` -/
def str (v : Json F) : Except Raised Text := orRaise (asText v) (corrupt .payloadFieldType)

/-- `_opt_str` -/
def optStr : Json F → Except Raised (Option Text)
  | .null => .ok none
  | .str t => .ok (some t)
  | _ => .error (corrupt .payloadFieldType)

/-- Byte offsets of the characters of a text that starts at `n`, and of its end. -/
def cumulative : Nat → Text → List Nat
  | n, [] => [n]
  | n, c :: t => n :: cumulative (n + (encodeUtf8 [c]).length) t

/-- One entry of `units`: its range and whether it is atomic. -/
def readUnit (length : Nat) (previousEnd : Int) : Json F → Except Raised (Nat × Nat × Bool)
  | .arr [start, stop, kind] =>
    match start, stop, kind with
    | .int start, .int stop, .str kind => do
      ensure ((kind = UnitKind.atomic.text ∨ kind = UnitKind.prose.text) ∧ previousEnd ≤ start ∧
        start < stop ∧ stop ≤ length) (corrupt .unitsRange)
      return (start.toNat, stop.toNat, kind = UnitKind.atomic.text)
    | _, _, _ => .error (corrupt .unitsRange)
  | _ => .error (corrupt .unitsShape)

/-- The loop of `_atomic_ranges`. -/
def unitRanges (text : Text) : Int → List (Json F) → Except Raised (List (Nat × Nat))
  | _, [] => .ok []
  | previousEnd, entry :: rest => do
    let unit ← readUnit text.length previousEnd entry
    let ranges ← unitRanges text unit.2.1 rest
    return if unit.2.2 then
      ((cumulative 0 text).getD unit.1 0, (cumulative 0 text).getD unit.2.1 0) :: ranges
    else ranges

/-- `_atomic_ranges` -/
def atomicRanges (raw : Json F) (text : Text) : Except Raised (Option (List (Nat × Nat))) :=
  match raw with
  | .null => .ok none
  | .arr entries => do
    let ranges ← unitRanges text 0 entries
    return some ranges
  | _ => .error (corrupt .unitsShape)

/-- `scope_of` -/
def scopeOf (payload : Items F) : Except Raised EvidenceScope := do
  let rev ← orRaise (textField payload "source_rev".toList) (corrupt .sourceRevision)
  ensure (rev ≠ []) (corrupt .sourceRevision)
  let docId ← str (getOr payload "doc_id".toList (.str []))
  let product ← optStr (get payload "product".toList)
  let version ← optStr (get payload "version".toList)
  return ⟨rev, docId, product, version⟩

def readPageEnd (pageStart : Int) : Json F → Except Raised (Option Int)
  | .null => .ok none
  | .int n => do
    ensure (pageStart ≤ n) (corrupt .pageEnd)
    return some n
  | _ => .error (corrupt .pageEnd)

variable (N : Floats F) (H : Hash)

/-- What the digest is of. -/
def Envelope.message (e : Envelope) : Bytes := encodeUtf8 (dumps N ⟨false, false⟩ (.obj e.items))

/-- The fields of the envelope, each as the ingest writes it. -/
def readEnvelope (binding : BuildBinding) (chunkId : Text) (payload : Items F) :
    Except Raised Envelope := do
  let scope ← scopeOf payload
  let sha ← orRaise (textField payload "sha256".toList) (corrupt .sourceSha256)
  ensure (isHex64 sha = true) (corrupt .sourceSha256)
  let text ← orRaise (textField payload "text".toList) (corrupt .text)
  ensure (text ≠ []) (corrupt .text)
  let chunkType ← orRaise (textField payload "chunk_type".toList) (corrupt .chunkType)
  ensure (chunkType ∈ chunkTypes) (corrupt .chunkType)
  let title ← str (getOr payload "title".toList (.str []))
  let headingPath ← str (getOr payload "heading_path".toList (.str []))
  let pageStart ← orRaise (intField payload "page_start".toList) (corrupt .pageStart)
  ensure (0 ≤ pageStart) (corrupt .pageStart)
  let pageEnd ← readPageEnd pageStart (get payload "page_end".toList)
  let label ← str (getOr payload "page_label".toList (.str []))
  let spans ← atomicRanges (get payload "units".toList) text
  return { buildId := binding.buildId, chunkId := chunkId,
           generationFingerprint := binding.genFp, sourceRevision := scope.sourceRevision,
           sourceSha256 := sha, docId := scope.docId, title := title, product := scope.product,
           version := scope.version, headingPath := headingPath, chunkType := chunkType,
           text := text, atomicSpans := spans, physicalPageStart := pageStart + 1,
           physicalPageEnd := pageEnd.map (· + 1),
           printedLabel := if label = [] then none else some label }

/-- `build_evidence` -/
def buildEvidence (binding : BuildBinding) (chunkId : Text) (payload : Items F) :
    Except Raised Evidence := do
  let envelope ← readEnvelope binding chunkId payload
  let digest := H.digest (envelope.message N)
  let reference ← encodeReference binding.buildId chunkId digest
  return { envelope with
           reference := reference, digest := Hex.encode digest,
           textBytes := (encodeUtf8 envelope.text).length }

/-! ## A reference has one reading -/

theorem tokenBytes_iff {mark : Text} {length size : Nat} {bad : Raised}
    (hlen : length = mark.length + (size * 4 + 2) / 3) (hmark : Base64.isAscii mark = true)
    {token : Text} {raw : Bytes} :
    tokenBytes mark length size bad token = .ok raw ↔
      raw.length = size ∧ token = mark ++ Base64.encode raw := by
  simp only [tokenBytes, bind_ok, ensure_ok, orRaise_ok, pure_ok]
  constructor
  · rintro ⟨_, -, _, ⟨body, rfl⟩, got, hdec, _, ⟨hsize, henc⟩, rfl⟩
    rw [List.drop_left] at henc
    exact ⟨hsize, by rw [henc]⟩
  · rintro ⟨hsize, rfl⟩
    have hdrop : (mark ++ Base64.encode raw).drop mark.length = Base64.encode raw := List.drop_left
    have htotal : (mark ++ Base64.encode raw).length = length := by
      rw [List.length_append, Base64.length_encode, hsize, hlen]
    have hascii : Base64.isAscii (mark ++ Base64.encode raw) = true := by
      have henc := Base64.isAscii_encode raw
      rw [Base64.isAscii] at hmark henc ⊢
      rw [List.all_append, hmark, henc]
      rfl
    rw [hdrop]
    exact ⟨(), ⟨htotal, hascii⟩, (), List.prefix_append _ _, raw, Base64.decode_encode raw, (),
      ⟨hsize, rfl⟩, rfl⟩

theorem encodeReference_ok {buildId chunkId : Text} {digest : Bytes} {token : Text} :
    encodeReference buildId chunkId digest = .ok token ↔ ∃ build chunk : Uuid,
      buildId = build.str ∧ chunkId = chunk.str ∧ digest.length = 32 ∧
        token = referencePrefix ++ Base64.encode (build.bytes ++ chunk.bytes ++ digest) := by
  simp only [encodeReference, canonicalUuid, bind_ok, ensure_ok, orRaise_ok, pure_ok,
    Uuid.ofCanonical_iff]
  constructor
  · rintro ⟨build, hb, chunk, hc, _, hd, rfl⟩
    exact ⟨build, chunk, hb, hc, hd, rfl⟩
  · rintro ⟨build, chunk, hb, hc, hd, rfl⟩
    exact ⟨build, hb, chunk, hc, (), hd, rfl⟩

theorem encodeReference_inj {buildId buildId' chunkId chunkId' token : Text} {digest digest' : Bytes}
    (h : encodeReference buildId chunkId digest = .ok token)
    (h' : encodeReference buildId' chunkId' digest' = .ok token) :
    buildId = buildId' ∧ chunkId = chunkId' ∧ digest = digest' := by
  obtain ⟨build, chunk, rfl, rfl, hd, rfl⟩ := encodeReference_ok.mp h
  obtain ⟨build', chunk', rfl, rfl, hd', heq⟩ := encodeReference_ok.mp h'
  have hraw := Base64.encode_injective (List.append_cancel_left heq)
  obtain ⟨hids, hdigest⟩ := List.append_inj' hraw (hd.trans hd'.symm)
  obtain ⟨hb, hc⟩ := List.append_inj hids (build.size.trans build'.size.symm)
  exact ⟨by rw [Uuid.ext hb], by rw [Uuid.ext hc], hdigest⟩

theorem ofBytes_some {raw : Bytes} {u : Uuid} : Uuid.ofBytes raw = some u ↔ raw = u.bytes := by
  unfold Uuid.ofBytes
  split
  · next h =>
    rw [Option.some.injEq]
    constructor
    · rintro rfl
      rfl
    · exact fun hraw => Uuid.ext hraw
  · next h =>
    constructor
    · intro hnone
      cases hnone
    · rintro rfl
      exact absurd u.size h

/-- A token reads as a triple exactly when it is the triple's reference and the build is not nil. -/
theorem parseReference_iff {token : Text} {r : ParsedReference} :
    parseReference token = .ok r ↔ encodeReference r.buildId r.chunkId r.digest = .ok token ∧
      ∃ u : Uuid, r.buildId = u.str ∧ u.isNil = false := by
  have hlen : referenceLen = referencePrefix.length + (referenceBytes * 4 + 2) / 3 := rfl
  have hmark : Base64.isAscii referencePrefix = true := by decide
  simp only [parseReference, bind_ok, ensure_ok, orRaise_ok, pure_ok, tokenBytes_iff hlen hmark,
    encodeReference_ok, ofBytes_some]
  constructor
  · rintro ⟨raw, ⟨hsize, rfl⟩, build, hb, chunk, hc, _, hnil, rfl⟩
    have hraw : raw = build.bytes ++ chunk.bytes ++ raw.drop 32 := by
      have htail : (raw.drop 16).drop 16 = raw.drop 32 := List.drop_drop
      rw [← hb, ← hc, List.append_assoc, ← htail, List.take_append_drop, List.take_append_drop]
    have hdigest : (raw.drop 32).length = 32 := by
      rw [List.length_drop, hsize]
      rfl
    exact ⟨⟨build, chunk, rfl, rfl, hdigest, by rw [← hraw]⟩, build, rfl, hnil⟩
  · rintro ⟨⟨build, chunk, hb, hc, hd, rfl⟩, u, hu, hnil⟩
    obtain rfl : build = u := Uuid.str_injective (hb.symm.trans hu)
    have hbs := build.size
    have hcs := chunk.size
    have h₁ : (build.bytes ++ chunk.bytes ++ r.digest).take 16 = build.bytes := by
      rw [List.append_assoc, ← hbs, List.take_left]
    have h₂ : (build.bytes ++ chunk.bytes ++ r.digest).drop 16 = chunk.bytes ++ r.digest := by
      rw [List.append_assoc, ← hbs, List.drop_left]
    have h₃ : (build.bytes ++ chunk.bytes ++ r.digest).drop 32 = r.digest := by
      rw [show 32 = (build.bytes ++ chunk.bytes).length by rw [List.length_append, hbs, hcs],
        List.drop_left]
    refine ⟨_, ⟨?_, rfl⟩, build, h₁, chunk, ?_, (), hnil, ?_⟩
    · rw [List.length_append, List.length_append, hbs, hcs, hd]
      rfl
    · rw [h₂, ← hcs, List.take_left]
    · rw [h₃, ← hb, ← hc]

/-! ## Byte ranges -/

/-- Where the `n`-th character of the text starts in its bytes. -/
def byteOffset (text : Text) (n : Nat) : Nat := (encodeUtf8 (text.take n)).length

theorem encodeUtf8_cons (c : Char) (t : Text) :
    encodeUtf8 (c :: t) = encodeUtf8 [c] ++ encodeUtf8 t :=
  encodeUtf8_append [c] t

theorem cumulative_getD (text : Text) : ∀ (k n : Nat), n ≤ text.length →
    (cumulative k text).getD n 0 = k + byteOffset text n := by
  induction text with
  | nil =>
    intro k n hn
    obtain rfl : n = 0 := by simpa using hn
    rfl
  | cons c t ih =>
    intro k n hn
    cases n with
    | zero => rfl
    | succ n =>
      have hrest := ih (k + (encodeUtf8 [c]).length) n (by simpa using hn)
      rw [cumulative, List.getD_cons_succ, hrest, byteOffset, byteOffset, List.take_succ_cons,
        encodeUtf8_cons c (t.take n), List.length_append]
      omega

/-- The bytes of the atomic units. -/
def byteRanges (text : Text) (units : List UnitSpan) : List (Nat × Nat) :=
  (units.filter fun u => u.kind = .atomic).map fun u => (byteOffset text u.start, byteOffset text u.stop)

/-- A stored unit. -/
def unitEntry (u : UnitSpan) : Json F := .arr [.int u.start, .int u.stop, .str u.kind.text]

theorem kind_text (k : UnitKind) : (k.text = UnitKind.atomic.text ∨ k.text = UnitKind.prose.text) ∧
    (k.text = UnitKind.atomic.text ↔ k = .atomic) := by
  cases k <;> decide

theorem unitRanges_units {text : Text} {units : List UnitSpan} : ∀ {cursor : Nat},
    Ingest.Chunking.SpansFrom text.length cursor units →
      unitRanges text cursor (units.map unitEntry : List (Json F)) = .ok (byteRanges text units) := by
  induction units with
  | nil => exact fun _ => rfl
  | cons u units ih =>
    intro cursor h
    obtain ⟨h₁, h₂, h₃, hrest⟩ := h
    obtain ⟨hkind, hatomic⟩ := kind_text u.kind
    have hunit : readUnit text.length cursor (unitEntry u : Json F) =
        .ok (u.start, u.stop, decide (u.kind = .atomic)) := by
      rw [unitEntry, readUnit, ensure_true _ ⟨hkind, by omega, by omega, by omega⟩, ok_bind]
      simp only [hatomic, Int.toNat_natCast]
      rfl
    rw [List.map_cons, unitRanges, hunit, ok_bind, ih hrest, ok_bind,
      cumulative_getD text 0 u.start (by omega), cumulative_getD text 0 u.stop h₃, Nat.zero_add,
      Nat.zero_add, byteRanges, byteRanges]
    by_cases hk : u.kind = .atomic
    · rw [List.filter_cons_of_pos (by simpa using hk)]
      simp [hk, pure, Except.pure]
    · rw [List.filter_cons_of_neg (by simpa using hk)]
      simp [hk, pure, Except.pure]

theorem byteOffset_append (text : Text) {n m : Nat} (h : n ≤ m) :
    byteOffset text m = byteOffset text n + (encodeUtf8 ((text.take m).drop n)).length := by
  have hcut : (text.take m).take n = text.take n := by rw [List.take_take, Nat.min_eq_left h]
  rw [byteOffset, byteOffset, ← List.length_append, ← encodeUtf8_append, ← hcut,
    List.take_append_drop]

theorem byteOffset_le (text : Text) {n m : Nat} (h : n ≤ m) : byteOffset text n ≤ byteOffset text m := by
  rw [byteOffset_append text h]
  exact Nat.le_add_right _ _

theorem byteOffset_length (text : Text) {n : Nat} (h : text.length ≤ n) :
    byteOffset text n = (encodeUtf8 text).length := by
  rw [byteOffset, List.take_of_length_le h]

/-- A character takes a byte at least. -/
theorem byteOffset_lt (text : Text) {n m : Nat} (h : n < m) (hm : m ≤ text.length) :
    byteOffset text n < byteOffset text m := by
  have hne : (text.take m).drop n ≠ [] := by
    intro e
    rw [List.drop_eq_nil_iff, List.length_take] at e
    omega
  obtain ⟨c, t, hct⟩ := List.exists_cons_of_ne_nil hne
  rw [byteOffset_append text (Nat.le_of_lt h), hct, encodeUtf8_cons, List.length_append]
  have hpos : 0 < (encodeUtf8 [c]).length := by
    rw [encodeUtf8, List.flatMap_singleton, String.length_utf8EncodeChar]
    exact Char.utf8Size_pos c
  omega

/-- The bytes of a range are those of the characters it stands for. -/
theorem slice_bytes (text : Text) (u : UnitSpan) (h : u.start ≤ u.stop) :
    ((encodeUtf8 text).take (byteOffset text u.stop)).drop (byteOffset text u.start) =
      encodeUtf8 (u.select text) := by
  have htake : ∀ t n, (encodeUtf8 t).take (byteOffset t n) = encodeUtf8 (t.take n) := by
    intro t n
    conv_lhs => rw [← List.take_append_drop n t, encodeUtf8_append]
    rw [byteOffset, List.take_append_drop, List.take_left]
  have hdrop : ∀ t n, (encodeUtf8 t).drop (byteOffset t n) = encodeUtf8 (t.drop n) := by
    intro t n
    conv_lhs => rw [← List.take_append_drop n t, encodeUtf8_append]
    rw [byteOffset, List.take_append_drop, List.drop_left]
  have hstart : byteOffset (text.take u.stop) u.start = byteOffset text u.start := by
    rw [byteOffset, byteOffset, List.take_take, Nat.min_eq_left h]
  rw [htake, ← hstart, hdrop, UnitSpan.select]

/-- What holds of the byte ranges of spans in order. -/
structure RangesExact (text : Text) (units : List UnitSpan) (ranges : List (Nat × Nat)) : Prop where
  ordered : ranges.Pairwise fun r r' => r.2 ≤ r'.1
  inside : ∀ r ∈ ranges, r.1 < r.2 ∧ r.2 ≤ (encodeUtf8 text).length
  texts : ranges.map (fun r => ((encodeUtf8 text).take r.2).drop r.1) =
    (units.filter fun u => u.kind = .atomic).map fun u => encodeUtf8 (u.select text)

theorem byteRanges_exact {text : Text} {units : List UnitSpan}
    (h : Ingest.Chunking.SpansFrom text.length 0 units) :
    RangesExact text units (byteRanges text units) where
  ordered := by
    rw [byteRanges, List.pairwise_map]
    exact (h.pairwise.filter _).imp fun hle => byteOffset_le text hle
  inside := by
    intro r hr
    obtain ⟨u, hu, rfl⟩ := List.mem_map.mp hr
    obtain ⟨-, hlt, hle⟩ := h.mem (List.mem_filter.mp hu).1
    refine ⟨byteOffset_lt text hlt hle, ?_⟩
    rw [← byteOffset_length text le_rfl]
    exact byteOffset_le text hle
  texts := by
    rw [byteRanges, List.map_map]
    refine List.map_congr_left fun u hu => ?_
    obtain ⟨-, hlt, -⟩ := h.mem (List.mem_filter.mp hu).1
    exact slice_bytes text u (Nat.le_of_lt hlt)

/-! ## Evidence of a chunk -/

def unitsItem : Option (List UnitSpan) → Items F
  | some (u :: us) => [("units".toList, .arr ((u :: us).map unitEntry))]
  | _ => []

def contextItem : Option Text → Items F
  | some context => [("context".toList, .str context)]
  | none => []

def texts (ts : List Text) : Json F := .arr (ts.map .str)

/-- `point_payload`, as the dict. -/
def pointItems (U : CharTables) (parsed : Ingest.Chunking.ParsedDoc) (chunk : Chunk) (rulesV : Text)
    (context : Option Text) : Items F :=
  let p := Ingest.Chunking.pointPayload U parsed chunk rulesV context
  [("vendor".toList, .str p.vendor), ("product".toList, optJson p.product),
    ("version".toList, optJson p.version), ("doc_id".toList, .str p.docId),
    ("source_rev".toList, .str p.sourceRev), ("title".toList, .str p.title),
    ("heading_path".toList, .str p.headingPath), ("page_label".toList, .str p.pageLabel),
    ("page_start".toList, .int p.pageStart), ("page_end".toList, .int p.pageEnd),
    ("chunk_type".toList, .str p.chunkType), ("message_ids".toList, texts p.messageIds),
    ("members".toList, texts p.members), ("system_codes".toList, texts p.systemCodes),
    ("sha256".toList, .str p.sha256), ("rules_v".toList, .str p.rulesV), ("text".toList, .str p.text)] ++
    (unitsItem chunk.units ++ contextItem p.context)

section

variable (U : CharTables) (parsed : Ingest.Chunking.ParsedDoc) (c : Chunk) (rulesV : Text)
  (context : Option Text)

/-- The keys a payload always has. -/
def payloadKeys : List Text :=
  ["vendor".toList, "product".toList, "version".toList, "doc_id".toList, "source_rev".toList,
    "title".toList, "heading_path".toList, "page_label".toList, "page_start".toList,
    "page_end".toList, "chunk_type".toList, "message_ids".toList, "members".toList,
    "system_codes".toList, "sha256".toList, "rules_v".toList, "text".toList]

theorem unitsItem_keys (units : Option (List UnitSpan)) :
    (unitsItem units : Items F).map Prod.fst = ["units".toList] ∨
      (unitsItem units : Items F).map Prod.fst = [] := by
  match units with
  | some (u :: us) => exact .inl rfl
  | some [] => exact .inr rfl
  | none => exact .inr rfl

theorem contextItem_keys (context : Option Text) :
    (contextItem context : Items F).map Prod.fst = ["context".toList] ∨
      (contextItem context : Items F).map Prod.fst = [] := by
  cases context with
  | some t => exact .inl rfl
  | none => exact .inr rfl

theorem pointItems_keys : (pointItems U parsed c rulesV context : Items F).map Prod.fst =
    payloadKeys ++ ((unitsItem c.units : Items F).map Prod.fst ++
      (contextItem (Ingest.Chunking.pointPayload U parsed c rulesV context).context : Items F).map
        Prod.fst) := by
  rw [pointItems, List.map_append, List.map_append]
  rfl

theorem pointItems_nodup :
    ((pointItems U parsed c rulesV context : Items F).map Prod.fst).Nodup := by
  rw [pointItems_keys]
  rcases unitsItem_keys (F := F) c.units with hu | hu <;>
    rcases contextItem_keys (F := F) (Ingest.Chunking.pointPayload U parsed c rulesV context).context
      with hc | hc <;> rw [hu, hc] <;> decide +kernel

theorem lookup_point {key : Text} {v : Json F}
    (h : (key, v) ∈ (pointItems U parsed c rulesV context : Items F)) :
    (pointItems U parsed c rulesV context : Items F).lookup key = some v :=
  (lookup_eq_some (pointItems_nodup U parsed c rulesV context)).mpr h

theorem lookup_units : (pointItems U parsed c rulesV context : Items F).lookup "units".toList =
    (unitsItem c.units : Items F).lookup "units".toList := by
  cases hu : (unitsItem c.units : Items F).lookup "units".toList with
  | some v =>
    refine lookup_point U parsed c rulesV context (List.mem_append_right _ ?_)
    exact List.mem_append_left _ (mem_of_lookup hu)
  | none =>
    have hno : "units".toList ∉ (pointItems U parsed c rulesV context : Items F).map Prod.fst := by
      rw [pointItems_keys]
      have hunits : (unitsItem c.units : Items F).map Prod.fst = [] := by
        rcases unitsItem_keys (F := F) c.units with h | h
        · have hin : "units".toList ∈ (unitsItem c.units : Items F).map Prod.fst := by
            rw [h]
            exact List.mem_singleton_self _
          rw [← lookup_isSome, hu] at hin
          cases hin
        · exact h
      rcases contextItem_keys (F := F)
        (Ingest.Chunking.pointPayload U parsed c rulesV context).context with hc | hc <;>
        rw [hunits, hc] <;> decide +kernel
    rw [← lookup_isSome] at hno
    exact Option.not_isSome_iff_eq_none.mp hno

end

theorem atomicRanges_chunk {c : Chunk} (hshape : c.Shaped) :
    ∃ spans, atomicRanges (((unitsItem c.units : Items F).lookup "units".toList).getD .null) c.text =
        .ok spans ∧
      (c.units.getD [] = [] → spans = none) ∧
      (∀ units, c.units = some units → units ≠ [] →
        ∃ ranges, spans = some ranges ∧ RangesExact c.text units ranges) := by
  match hu : c.units with
  | none => exact ⟨none, rfl, fun _ => rfl, nofun⟩
  | some [] =>
    refine ⟨none, rfl, fun _ => rfl, fun units h hne => ?_⟩
    obtain rfl := Option.some.inj h
    exact absurd rfl hne
  | some (u :: us) =>
    have hspans := hshape.units _ hu
    refine ⟨some (byteRanges c.text (u :: us)), ?_, nofun, fun units h _ => ?_⟩
    · have hlookup : (unitsItem (some (u :: us)) : Items F).lookup "units".toList =
          some (.arr ((u :: us).map unitEntry)) := by
        rw [unitsItem, List.lookup_cons_self]
      have hranges := @unitRanges_units F c.text (u :: us) 0 hspans
      rw [hlookup, Option.getD_some, atomicRanges]
      show (unitRanges c.text ((0 : Nat) : Int) _ >>= _) = _
      rw [hranges, ok_bind]
      rfl
    · obtain rfl := Option.some.inj h
      exact ⟨_, rfl, byteRanges_exact hspans⟩


theorem sourceRevKey_ne (U : CharTables) (vendor product version : Option Text) (sha256 : Text) :
    Ingest.sourceRevKey U vendor product version sha256 ≠ [] := by
  intro h
  have := congrArg List.length h
  simp [Ingest.sourceRevKey, List.intercalate_cons_cons] at this

theorem chunk_names {U : CharTables} {X : Ingest.Chunking.Extractors}
    {parsed : Ingest.Chunking.ParsedDoc} {pageTexts : List Text} {labels : List (Option Text)}
    {chunks : List Chunk} (h : Ingest.Chunking.makeChunks U X parsed pageTexts labels = some chunks)
    {c : Chunk} (hc : c ∈ chunks) : ∃ key t, c.chunkId = X.uuid5 key ∧ c.chunkType = X.classify t := by
  obtain ⟨e, s, ordinal, -, hchunk⟩ := Ingest.Chunking.stemsFrom_of_mem h hc
  obtain ⟨l, -, rfl⟩ := Option.map_eq_some_iff.mp hchunk
  exact ⟨_, _, rfl, rfl⟩

theorem optStr_optJson (t : Option Text) : optStr (optJson t : Json F) = .ok t := by
  cases t <;> rfl

/-- The envelope of what the ingest writes. -/
def writtenEnvelope (binding : BuildBinding) (chunkId : Text) (p : Ingest.Chunking.PointPayload)
    (spans : Option (List (Nat × Nat))) : Envelope where
  buildId := binding.buildId
  chunkId := chunkId
  generationFingerprint := binding.genFp
  sourceRevision := p.sourceRev
  sourceSha256 := p.sha256
  docId := p.docId
  title := p.title
  product := p.product
  version := p.version
  headingPath := p.headingPath
  chunkType := p.chunkType
  text := p.text
  atomicSpans := spans
  physicalPageStart := p.pageStart + 1
  physicalPageEnd := some (p.pageEnd + 1)
  printedLabel := if p.pageLabel = [] then none else some p.pageLabel

/-- The payload of a chunk passes every check. -/
theorem readEnvelope_chunk (U : CharTables) {parsed : Ingest.Chunking.ParsedDoc} {c : Chunk}
    (rulesV : Text) (context : Option Text) (binding : BuildBinding) (chunkId : Text)
    (hsha : isHex64 parsed.sha256 = true) (hshape : c.Shaped) (htype : c.chunkType ∈ chunkTypes) :
    ∃ spans, readEnvelope binding chunkId (pointItems U parsed c rulesV context : Items F) =
        .ok (writtenEnvelope binding chunkId
          (Ingest.Chunking.pointPayload U parsed c rulesV context) spans) ∧
      (c.units.getD [] = [] → spans = none) ∧
      ∀ units, c.units = some units → units ≠ [] →
        ∃ ranges, spans = some ranges ∧ RangesExact c.text units ranges := by
  let p := Ingest.Chunking.pointPayload U parsed c rulesV context
  have hlook : ∀ key (v : Json F), (key, v) ∈ (pointItems U parsed c rulesV context : Items F) →
      get (pointItems U parsed c rulesV context) key = v ∧
        ∀ d, getOr (pointItems U parsed c rulesV context) key d = v := by
    intro key v hv
    have := lookup_point U parsed c rulesV context hv
    exact ⟨by rw [PyJson.get, this, Option.getD_some], fun d => by rw [getOr, this, Option.getD_some]⟩
  have hrev := (hlook "source_rev".toList (.str p.sourceRev) (by simp [pointItems, p])).1
  have hdoc := (hlook "doc_id".toList (.str p.docId) (by simp [pointItems, p])).2
  have hproduct := (hlook "product".toList (optJson p.product) (by simp [pointItems, p])).1
  have hversion := (hlook "version".toList (optJson p.version) (by simp [pointItems, p])).1
  have hhash := (hlook "sha256".toList (.str p.sha256) (by simp [pointItems, p])).1
  have htext := (hlook "text".toList (.str p.text) (by simp [pointItems, p])).1
  have hkind := (hlook "chunk_type".toList (.str p.chunkType) (by simp [pointItems, p])).1
  have htitle := (hlook "title".toList (.str p.title) (by simp [pointItems, p])).2
  have hheading := (hlook "heading_path".toList (.str p.headingPath) (by simp [pointItems, p])).2
  have hstart := (hlook "page_start".toList (.int p.pageStart) (by simp [pointItems, p])).1
  have hend := (hlook "page_end".toList (.int p.pageEnd) (by simp [pointItems, p])).1
  have hlabel := (hlook "page_label".toList (.str p.pageLabel) (by simp [pointItems, p])).2
  have hpages : (p.pageStart : Int) ≤ p.pageEnd := by
    have := hshape.pages
    show (c.pageStart : Int) ≤ c.pageEnd
    omega
  obtain ⟨spans, hspans, hnone, hsome⟩ := atomicRanges_chunk (F := F) hshape
  have hunits : get (pointItems U parsed c rulesV context : Items F) "units".toList =
      ((unitsItem c.units : Items F).lookup "units".toList).getD .null := by
    rw [PyJson.get, lookup_units]
  have hscope : scopeOf (pointItems U parsed c rulesV context : Items F) =
      .ok ⟨p.sourceRev, p.docId, p.product, p.version⟩ := by
    have hne : p.sourceRev ≠ [] := sourceRevKey_ne U _ _ _ _
    rw [scopeOf, textField, hrev, asText, orRaise_some, ok_bind, ensure_true _ hne, ok_bind, hdoc,
      hproduct, hversion, optStr_optJson, optStr_optJson]
    rfl
  have hpageEnd : readPageEnd p.pageStart (.int p.pageEnd : Json F) = .ok (some (p.pageEnd : Int)) := by
    rw [readPageEnd, ensure_true _ hpages, ok_bind]
    rfl
  have hsha' : isHex64 p.sha256 = true := hsha
  have htext' : p.text ≠ [] := hshape.text
  have htype' : p.chunkType ∈ chunkTypes := htype
  have hspans' : atomicRanges (((unitsItem c.units : Items F).lookup "units".toList).getD .null)
      p.text = .ok spans := hspans
  refine ⟨spans, ?_, hnone, hsome⟩
  rw [readEnvelope, hscope, ok_bind, textField, hhash, asText, orRaise_some, ok_bind,
    ensure_true _ hsha', ok_bind, textField, htext, asText, orRaise_some, ok_bind,
    ensure_true _ htext', ok_bind, textField, hkind, asText, orRaise_some, ok_bind,
    ensure_true _ htype', ok_bind, htitle, hheading, intField, hstart]
  simp only [str, asText, orRaise_some, ok_bind, hend, hlabel, hunits, hpageEnd]
  rw [ensure_true _ (by omega), ok_bind, hspans', ok_bind]
  rfl

/-- What the evidence of a chunk says: its reference has one reading, which no other token has, the
byte ranges select the texts of the atomic units, and the pages are the chunk's, counted from one. -/
structure Cites (c : Chunk) (buildId : Text) (ev : Evidence) : Prop where
  token : ∃ digest, ev.digest = Hex.encode digest ∧
    ∀ token, parseReference token = .ok ⟨buildId, c.chunkId, digest⟩ ↔ token = ev.reference
  text : ev.text = c.text
  unrecorded : c.units.getD [] = [] → ev.atomicSpans = none
  ranges : ∀ units, c.units = some units → units ≠ [] →
    ∃ ranges, ev.atomicSpans = some ranges ∧ RangesExact c.text units ranges
  pages : ev.physicalPageStart = c.pageStart + 1 ∧ ev.physicalPageEnd = some (c.pageEnd + 1 : Int)

/-- Every chunk of the ingest is cited. -/
theorem chunk_evidence {U : CharTables} {uuid5 : Text → Uuid}
    {findMessageIds findMembers : Text → List Text} {parsed : Ingest.Chunking.ParsedDoc}
    {pageTexts : List Text} {labels : List (Option Text)} {chunks : List Chunk}
    (h : Ingest.Chunking.makeChunks U
      (Ingest.Chunking.sourceExtractors U uuid5 findMessageIds findMembers) parsed pageTexts labels =
        some chunks)
    (hsha : isHex64 parsed.sha256 = true) {c : Chunk} (hc : c ∈ chunks) (rulesV : Text)
    (context : Option Text) {binding : BuildBinding} {build : Uuid} (hid : binding.buildId = build.str)
    (hnil : build.isNil = false) :
    ∃ ev, buildEvidence N H binding c.chunkId (pointItems U parsed c rulesV context) = .ok ev ∧
      Cites c binding.buildId ev := by
  obtain ⟨key, t, hchunk, htype⟩ := chunk_names h hc
  have hkind : c.chunkType ∈ chunkTypes := by
    rw [htype]
    exact Ingest.Chunking.text_mem_chunkTypes _
  obtain ⟨spans, hread, hnone, hsome⟩ := readEnvelope_chunk (F := F) U rulesV context binding c.chunkId
    hsha (Ingest.Chunking.chunk_shaped h hc) hkind
  let envelope := writtenEnvelope binding c.chunkId
    (Ingest.Chunking.pointPayload U parsed c rulesV context) spans
  let digest := H.digest (envelope.message N)
  obtain ⟨reference, htoken⟩ : ∃ r, encodeReference binding.buildId c.chunkId digest = .ok r :=
    ⟨_, encodeReference_ok.mpr ⟨build, uuid5 key, hid, hchunk, H.size _, rfl⟩⟩
  have hbuilt : buildEvidence N H binding c.chunkId (pointItems U parsed c rulesV context) =
      .ok ⟨envelope, reference, Hex.encode digest, (encodeUtf8 envelope.text).length⟩ := by
    rw [buildEvidence, hread, ok_bind]
    show (encodeReference binding.buildId c.chunkId digest >>= _) = _
    rw [htoken]
    rfl
  refine ⟨_, hbuilt, ⟨digest, rfl, fun token => ?_⟩, rfl, hnone, hsome, rfl, rfl⟩
  rw [parseReference_iff]
  constructor
  · rintro ⟨hr, -⟩
    exact Except.ok.inj (hr.symm.trans htoken)
  · rintro rfl
    exact ⟨htoken, build, hid, hnil⟩

/-! ## The message determines the envelope -/

def envelopeKeys : List Text :=
  ["schema".toList, "profile".toList, "build_id".toList, "chunk_id".toList,
    "generation_fingerprint".toList, "source_revision".toList, "source_sha256".toList,
    "doc_id".toList, "title".toList, "product".toList, "version".toList, "heading_path".toList,
    "chunk_type".toList, "text".toList, "atomic_spans".toList, "physical_page_start".toList,
    "physical_page_end".toList, "printed_label".toList]

theorem Envelope.items_keys (e : Envelope) : (e.items : Items F).map Prod.fst = envelopeKeys := rfl

theorem envelopeKeys_nodup : envelopeKeys.Nodup := by decide +kernel

/-- Dicts with the same keys in the same order have the same values, up to the order of what lies under
them, where their sorted items are the same. -/
theorem values_of_sorted {d d' : Items F} (h : sortedItems d = sortedItems d')
    (hd : (d.map Prod.fst).Nodup) (hkeys : d.map Prod.fst = d'.map Prod.fst) :
    d.map (fun x => sortKeys x.2) = d'.map fun x => sortKeys x.2 := by
  have hlen : d.length = d'.length := by simpa using congrArg List.length hkeys
  refine List.ext_getElem (by simpa using hlen) fun i hi hi' => ?_
  rw [List.length_map] at hi hi'
  have hkey : d[i].1 = d'[i].1 := by
    have hget : (d.map Prod.fst)[i]? = (d'.map Prod.fst)[i]? := by rw [hkeys]
    simpa [hi, hi'] using hget
  have hv : get (sortedItems d) d[i].1 = sortKeys d[i].2 := get_sortedItems hd (List.getElem_mem hi)
  have hv' : get (sortedItems d') d'[i].1 = sortKeys d'[i].2 :=
    get_sortedItems (hkeys ▸ hd) (List.getElem_mem hi')
  rw [List.getElem_map, List.getElem_map, ← hv, ← hv', h, hkey]

theorem str_of_sorted {t t' : Text} (h : sortKeys (.str t : Json F) = sortKeys (.str t')) : t = t' := by
  rw [sortKeys, sortKeys] at h
  exact Json.str.inj h

theorem int_of_sorted {n m : Int} (h : sortKeys (.int n : Json F) = sortKeys (.int m)) : n = m := by
  rw [sortKeys, sortKeys] at h
  exact Json.int.inj h

theorem text_of_sorted {t t' : Option Text}
    (h : sortKeys (optJson t : Json F) = sortKeys (optJson t')) : t = t' := by
  cases t <;> cases t' <;> simp_all [optJson, sortKeys]

theorem page_of_sorted {n m : Option Int}
    (h : sortKeys (optInt n : Json F) = sortKeys (optInt m)) : n = m := by
  cases n <;> cases m <;> simp_all [optInt, sortKeys]

theorem span_of_sorted {s s' : Nat × Nat}
    (h : sortKeys (spanJson s : Json F) = sortKeys (spanJson s')) : s = s' := by
  rw [spanJson, spanJson, sortKeys_obj, sortKeys_obj, Json.obj.injEq] at h
  have hkeys : (([("start".toList, .int s.1), ("end".toList, .int s.2)] : Items F).map
      Prod.fst).Nodup := by
    show ["start".toList, "end".toList].Nodup
    decide +kernel
  have hvalues := values_of_sorted h hkeys rfl
  simp only [List.map_cons, List.map_nil, List.cons.injEq] at hvalues
  obtain ⟨hstart, hend, -⟩ := hvalues
  exact Prod.ext (Int.ofNat_inj.mp (int_of_sorted hstart)) (Int.ofNat_inj.mp (int_of_sorted hend))

theorem spans_of_sorted {spans spans' : Option (List (Nat × Nat))}
    (h : sortKeys (spansJson spans : Json F) = sortKeys (spansJson spans')) : spans = spans' := by
  have hinj : Function.Injective fun s => sortKeys (spanJson s : Json F) := fun _ _ => span_of_sorted
  cases spans with
  | none =>
    cases spans' with
    | none => rfl
    | some ss' => simp [spansJson, sortKeys] at h
  | some ss =>
    cases spans' with
    | none => simp [spansJson, sortKeys] at h
    | some ss' =>
      rw [spansJson, spansJson, sortKeys, sortKeys, sortKeysElems_eq, sortKeysElems_eq, List.map_map,
        List.map_map, Json.arr.injEq] at h
      exact congrArg some (List.map_injective_iff.mpr hinj h)

theorem Envelope.message_injective : Function.Injective (Envelope.message N) := by
  intro e e' h
  have htext : dumps N ⟨false, false⟩ (.obj e.items) = dumps N ⟨false, false⟩ (.obj e'.items) := by
    have hdec := congrArg decodeUtf8 h
    rw [Envelope.message, Envelope.message, decodeUtf8_encodeUtf8, decodeUtf8_encodeUtf8] at hdec
    exact Option.some.inj hdec
  have hsorted : sortedItems (e.items : Items F) = sortedItems e'.items := by
    have hobj := render_injective N _ htext
    rw [sortKeys_obj, sortKeys_obj] at hobj
    exact Json.obj.inj hobj
  have hvalues := values_of_sorted hsorted (e.items_keys ▸ envelopeKeys_nodup)
    (e.items_keys.trans e'.items_keys.symm)
  simp only [Envelope.items, List.map_cons, List.map_nil, List.cons.injEq] at hvalues
  obtain ⟨-, -, hbuild, hchunk, hgen, hrev, hsha, hdoc, htitle, hproduct, hversion, hheading, hkind,
    htext, hspans, hstart, hend, hlabel, -⟩ := hvalues
  obtain ⟨⟩ := e
  obtain ⟨⟩ := e'
  simp only [Envelope.mk.injEq]
  exact ⟨str_of_sorted hbuild, str_of_sorted hchunk, str_of_sorted hgen, str_of_sorted hrev,
    str_of_sorted hsha, str_of_sorted hdoc, str_of_sorted htitle, text_of_sorted hproduct,
    text_of_sorted hversion, str_of_sorted hheading, str_of_sorted hkind, str_of_sorted htext,
    spans_of_sorted hspans, int_of_sorted hstart, page_of_sorted hend, text_of_sorted hlabel⟩

theorem readEnvelope_names {binding : BuildBinding} {chunkId : Text} {payload : Items F} {e : Envelope}
    (h : readEnvelope binding chunkId payload = .ok e) :
    e.buildId = binding.buildId ∧ e.chunkId = chunkId := by
  simp only [readEnvelope, bind_ok, pure_ok] at h
  obtain ⟨_, -, _, -, _, -, _, -, _, -, _, -, _, -, _, -, _, -, _, -, _, -, _, -, _, -, _, -, rfl⟩ := h
  exact ⟨rfl, rfl⟩

theorem buildEvidence_ok {binding : BuildBinding} {chunkId : Text} {payload : Items F} {ev : Evidence} :
    buildEvidence N H binding chunkId payload = .ok ev ↔
      ∃ e reference, readEnvelope binding chunkId payload = .ok e ∧
        encodeReference binding.buildId chunkId (H.digest (e.message N)) = .ok reference ∧
        ev = ⟨e, reference, Hex.encode (H.digest (e.message N)), (encodeUtf8 e.text).length⟩ := by
  simp only [buildEvidence, bind_ok, pure_ok]
  constructor
  · rintro ⟨e, he, reference, hr, rfl⟩
    exact ⟨e, reference, he, hr, rfl⟩
  · rintro ⟨e, reference, he, hr, rfl⟩
    exact ⟨e, he, reference, hr, rfl⟩

/-- Evidence derived twice is one where the digests are, as long as the hash tells the two messages
apart. -/
theorem evidence_unique {binding binding' : BuildBinding} {chunkId chunkId' : Text}
    {payload payload' : Items F} {ev ev' : Evidence}
    (h : buildEvidence N H binding chunkId payload = .ok ev)
    (h' : buildEvidence N H binding' chunkId' payload' = .ok ev')
    (hinj : Set.InjOn H.digest {ev.message N, ev'.message N}) (hdigest : ev.digest = ev'.digest) :
    ev = ev' := by
  obtain ⟨e, reference, he, hr, rfl⟩ := (buildEvidence_ok N H).mp h
  obtain ⟨e', reference', he', hr', rfl⟩ := (buildEvidence_ok N H).mp h'
  have hmessage := hinj (by simp) (by simp) (Hex.encode_injective hdigest)
  obtain rfl : e = e' := Envelope.message_injective N hmessage
  obtain ⟨hbuild, hchunk⟩ := readEnvelope_names he
  obtain ⟨hbuild', hchunk'⟩ := readEnvelope_names he'
  rw [← hbuild, ← hchunk] at hr
  rw [← hbuild', ← hchunk', hr] at hr'
  rw [Except.ok.inj hr']

end MainframeRag.Agent.StoredEvidence
