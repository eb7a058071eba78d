import MainframeRag.Agent.StoredEvidence
import MainframeRag.Ingest.Receipt

/-!
# The evidence service

The exact read of `agent/evidence.py`. The store and the access authority are not trusted to stay as
they are: each await of a request has an answer of its own (`World`), so between two awaits aliases may
move, points may be replaced and the policy may change.

Evidence is returned for a reference only where what was read has the digest in the reference under the
build named in it (`readEvidence_ok`).
-/

namespace MainframeRag.Agent.EvidenceService

open PyText PyJson JsonText Fallible Hex StoredEvidence
open Ingest.Build (AliasTable BuildBinding buildAliases target completionsMark)
open Ingest.Catalog (ControlPoint textField)
open Ingest.Receipt (decodeBuildBinding publicationRecordType has)

variable {F : Type}

/-! ## The parties -/

/-- The labels a listing is narrowed to. -/
structure LabelFilter where
  product : Option Text
  version : Option Text
  deriving DecidableEq

/-- What the store answers at one await; an id is its text. -/
structure Client (F : Type) where
  getAliases : Except StoredEvidence.Raised AliasTable
  collectionExists : Text → Except StoredEvidence.Raised Bool
  retrieve : Text → Text → Except StoredEvidence.Raised (List (ControlPoint F))
  /-- the catalog points of a page and the id of the next one -/
  scroll : Text → LabelFilter → Nat → Option Text →
    Except StoredEvidence.Raised (List (ControlPoint F) × Option Text)

inductive AccessError
  | unauthenticated
  | unavailable
  | other (r : StoredEvidence.Raised)

/-- `TrustedCaller` -/
structure Caller where
  principal : Option Text

/-- What the authority answers at one await: the policy version of a grant, `none` where denied. -/
structure Access where
  authorize : Caller → EvidenceScope → Except AccessError (Option Text)
  currentVersion : Except AccessError Text

/-- The answers at each await of a request. -/
structure World (F : Type) where
  client : Nat → Client F
  access : Nat → Access

structure Settings where
  qdrantCollection : Text
  evidenceMaxBytes : Int

/-! ## The pinned build -/

/-- `_control_of` -/
def controlOf (physical : Text) : Text := physical ++ completionsMark

variable (uuid5 : Text → Uuid) (N : Floats F) (H : Hash) (settings : Settings) (w : World F)

/-- `publication_metadata_point_id` -/
def publicationMetadataPointId (control : Text) : Text :=
  (uuid5 (publicationRecordType ++ '|' :: control)).str

/-- What `_binding` makes of the control record. -/
def readBinding (control : Text) :
    List (ControlPoint F) → Except StoredEvidence.Raised (Option (BuildBinding × Bool))
  | [] => .ok none
  | record :: _ => do
    ensure (textField record.payload "record_type".toList = some publicationRecordType)
      (corrupt .controlRecord)
    let binding ← orRaise (decodeBuildBinding record.payload control).toOption (corrupt .controlBinding)
    return some (binding, has record.payload "source_catalog".toList)

/-- `_binding` -/
def bindingOf (physical : Text) : Except StoredEvidence.Raised (Option (BuildBinding × Bool)) := do
  let stands ← (w.client 1).collectionExists (controlOf physical)
  if stands then do
    let records ← (w.client 2).retrieve (controlOf physical)
      (publicationMetadataPointId uuid5 (controlOf physical))
    readBinding (controlOf physical) records
  else return none

/-- The collection both aliases of a build stand for. -/
def physicalOf (aliases : AliasTable) (names : Text × Text) : Except StoredEvidence.Raised Text := do
  ensure (¬ (target aliases names.1 = none ∧ target aliases names.2 = none))
    (.failure .unavailable .unknownBuild)
  let physical ← orRaise (target aliases names.1) (corrupt .buildAliases)
  ensure (target aliases names.2 = some (controlOf physical)) (corrupt .buildAliases)
  return physical

/-- `_pinned_build` -/
def pinnedBuild (buildId : Text) (requireCatalog : Bool) :
    Except StoredEvidence.Raised (BuildBinding × Text) := do
  let names ← orRaise (buildAliases settings.qdrantCollection buildId).toOption .other
  let aliases ← (w.client 0).getAliases
  let physical ← physicalOf aliases names
  let bound ← bindingOf uuid5 w physical
  let bound ← orRaise bound (corrupt .controlMismatch)
  ensure (bound.1.buildId = buildId ∧ bound.1.physical = physical ∧
    bound.1.logicalAlias = settings.qdrantCollection) (corrupt .controlMismatch)
  ensure (requireCatalog = true → bound.2 = true) (corrupt .noCatalog)
  return (bound.1, physical)

/-! ## Access -/

section

variable (access : Nat → Access)

/-- `_authorize`, at await `t`. -/
def authorize (t : Nat) (caller : Caller) (scope : EvidenceScope) :
    Except StoredEvidence.Raised Text :=
  match (access t).authorize caller scope with
  | .ok (some version) => .ok version
  | .ok none => .error (.failure .unavailable .denied)
  | .error .unauthenticated => .error (.failure .unauthenticated .noIdentity)
  | .error .unavailable => .error (.failure .accessUnavailable .policyUnavailable)
  | .error (.other r) => .error r

/-- `_current_version`, at await `t`. -/
def currentVersion (t : Nat) : Except StoredEvidence.Raised Text :=
  match (access t).currentVersion with
  | .ok version => .ok version
  | .error .unavailable => .error (.failure .accessUnavailable .policyUnavailable)
  | .error .unauthenticated => .error .other
  | .error (.other r) => .error r

/-- The policy is asked again before the response. -/
def reauthorize (t : Nat) (caller : Caller) (scope : EvidenceScope) (granted : Text) :
    Except StoredEvidence.Raised Unit := do
  let current ← currentVersion access t
  if current = granted then return ()
  else do
    let _ ← authorize access (t + 1) caller scope
    return ()

end

/-! ## The exact read -/

/-- The payload of the one record that was asked for. -/
def onlyRecord (chunkId : Text) : List (ControlPoint F) → Except StoredEvidence.Raised (Items F)
  | [record] => do
    ensure (record.id = chunkId) (corrupt .chunkMissing)
    return record.payload
  | _ => .error (corrupt .chunkMissing)

/-- A label the caller names is the stored one. -/
def asserted (wanted stored : Option Text) : Bool := wanted.isNone || stored == wanted

def budget (maxBytes : Option Int) : Int :=
  match maxBytes with
  | none => settings.evidenceMaxBytes
  | some n => min n settings.evidenceMaxBytes

/-- `_read` -/
def read (caller : Caller) (parsed : ParsedReference) (maxBytes : Option Int)
    (product version : Option Text) : Except StoredEvidence.Raised Evidence := do
  let pinned ← pinnedBuild uuid5 settings w parsed.buildId false
  let records ← (w.client 3).retrieve pinned.2 parsed.chunkId
  let payload ← onlyRecord parsed.chunkId records
  let scope ← scopeOf payload
  let granted ← authorize w.access 4 caller scope
  ensure (asserted product scope.product = true ∧ asserted version scope.version = true)
    (.failure .unavailable .scopeMismatch)
  let evidence ← buildEvidence N H pinned.1 parsed.chunkId payload
  let digest ← orRaise (Hex.decode evidence.digest) .other
  ensure (digest = parsed.digest) (corrupt .digestMismatch)
  ensure ((evidence.textBytes : Int) ≤ budget settings maxBytes)
    (.failure .budgetExceeded .overBudget)
  reauthorize w.access 5 caller scope granted
  return evidence

/-- An exception that is no `EvidenceFailure` becomes one. -/
def upstream {α : Type} : Except StoredEvidence.Raised α → Except StoredEvidence.Raised α
  | .error .other => .error (.failure .upstream .errorType)
  | r => r

/-- `read_evidence` -/
def readEvidence (caller : Caller) (reference : Text) (maxBytes : Option Int)
    (product version : Option Text) : Except StoredEvidence.Raised Evidence := do
  let parsed ← parseReference reference
  upstream (read uuid5 N H settings w caller parsed maxBytes product version)

/-! ## What a read returned -/

theorem upstream_ok {α : Type} {r : Except StoredEvidence.Raised α} {a : α} :
    upstream r = .ok a ↔ r = .ok a := by
  unfold upstream
  split
  · simp
  · rfl

theorem pinnedBuild_ok {buildId : Text} {requireCatalog : Bool} {binding : BuildBinding}
    {physical : Text}
    (h : pinnedBuild uuid5 settings w buildId requireCatalog = .ok (binding, physical)) :
    binding.buildId = buildId ∧ binding.physical = physical ∧
      binding.logicalAlias = settings.qdrantCollection := by
  simp only [pinnedBuild, bind_ok, ensure_ok, orRaise_ok, pure_ok] at h
  obtain ⟨_, -, _, -, _, -, _, -, bound, -, _, hids, _, -, heq⟩ := h
  obtain ⟨rfl, rfl⟩ := Prod.mk.inj heq
  exact hids

theorem onlyRecord_ok {chunkId : Text} {records : List (ControlPoint F)} {payload : Items F} :
    onlyRecord chunkId records = .ok payload ↔ records = [⟨chunkId, payload⟩] := by
  unfold onlyRecord
  split
  · next record =>
    obtain ⟨id, stored⟩ := record
    simp only [bind_ok, ensure_ok, pure_ok, List.cons.injEq, ControlPoint.mk.injEq, and_true]
    constructor
    · rintro ⟨_, rfl, rfl⟩
      exact ⟨rfl, rfl⟩
    · rintro ⟨rfl, rfl⟩
      exact ⟨(), rfl, rfl⟩
  · next hne =>
    constructor
    · intro h
      cases h
    · rintro rfl
      exact absurd rfl (hne _)


/-- What evidence that was read rests on: the build its reference names, pinned by its own aliases, and
the payload of the one point asked for, whose digest is the one in the reference. -/
structure ReadExactly (parsed : ParsedReference) (ev : Evidence) : Prop where
  payload : ∃ binding physical payload,
    pinnedBuild uuid5 settings w parsed.buildId false = .ok (binding, physical) ∧
      binding.buildId = parsed.buildId ∧
      (w.client 3).retrieve physical parsed.chunkId = .ok [⟨parsed.chunkId, payload⟩] ∧
      buildEvidence N H binding parsed.chunkId payload = .ok ev
  digest : H.digest (ev.message N) = parsed.digest

theorem read_ok {caller : Caller} {parsed : ParsedReference} {maxBytes : Option Int}
    {product version : Option Text} {ev : Evidence}
    (h : read uuid5 N H settings w caller parsed maxBytes product version = .ok ev) :
    ReadExactly uuid5 N H settings w parsed ev := by
  simp only [read, bind_ok, ensure_ok, orRaise_ok, pure_ok] at h
  obtain ⟨⟨binding, physical⟩, hpin, records, hrecords, payload, hpayload, scope, -, granted, -, _, -,
    evidence, hev, digest, hdigest, _, heq, _, -, _, -, rfl⟩ := h
  obtain rfl := (onlyRecord_ok).mp hpayload
  refine ⟨⟨binding, physical, payload, hpin, (pinnedBuild_ok uuid5 settings w hpin).1, hrecords, hev⟩, ?_⟩
  obtain ⟨e, reference, -, -, rfl⟩ := (buildEvidence_ok N H).mp hev
  rw [Hex.decode_encode] at hdigest
  exact (Option.some.inj hdigest).trans heq

/-- A reference is read as the evidence it was minted for, as long as the hash tells the two messages
apart. -/
theorem ReadExactly.minted {token : Text} {parsed : ParsedReference} {ev minted : Evidence}
    (hparse : parseReference token = .ok parsed) (h : ReadExactly uuid5 N H settings w parsed ev)
    {binding : BuildBinding} {chunkId : Text} {payload : Items F}
    (hminted : buildEvidence N H binding chunkId payload = .ok minted)
    (htoken : minted.reference = token)
    (hinj : Set.InjOn H.digest {ev.message N, minted.message N}) : ev = minted := by
  obtain ⟨binding', physical, payload', -, -, -, hev⟩ := h.payload
  obtain ⟨e, reference, -, hr, rfl⟩ := (buildEvidence_ok N H).mp hminted
  obtain rfl : reference = token := htoken
  obtain ⟨-, -, hdigest⟩ := encodeReference_inj hr (parseReference_iff.mp hparse).1
  refine evidence_unique N H hev hminted hinj ?_
  obtain ⟨e', reference', -, -, rfl⟩ := (buildEvidence_ok N H).mp hev
  show Hex.encode (H.digest (e'.message N)) = Hex.encode (H.digest (e.message N))
  rw [hdigest, ← h.digest]

theorem readEvidence_ok {caller : Caller} {token : Text} {maxBytes : Option Int}
    {product version : Option Text} {ev : Evidence}
    (h : readEvidence uuid5 N H settings w caller token maxBytes product version = .ok ev) :
    ∃ parsed, parseReference token = .ok parsed ∧ ReadExactly uuid5 N H settings w parsed ev := by
  simp only [readEvidence, bind_ok, upstream_ok] at h
  obtain ⟨parsed, hparse, hread⟩ := h
  exact ⟨parsed, hparse, read_ok uuid5 N H settings w hread⟩

/-! ## Reading back -/

/-- The store holds a build and a point of it, at the awaits of a read. -/
structure Stored (binding : BuildBinding) (chunkId : Text) (payload : Items F) : Prop where
  corpus : binding.logicalAlias = settings.qdrantCollection
  names : ∃ aliases names, (w.client 0).getAliases = .ok aliases ∧
    buildAliases settings.qdrantCollection binding.buildId = .ok names ∧
      target aliases names.1 = some binding.physical ∧ target aliases names.2 = some binding.control
  receipt : (w.client 1).collectionExists binding.control = .ok true ∧ ∃ record rest,
    (w.client 2).retrieve binding.control (publicationMetadataPointId uuid5 binding.control) =
        .ok (record :: rest) ∧
      textField record.payload "record_type".toList = some publicationRecordType ∧
        decodeBuildBinding record.payload binding.control = .ok binding
  point : (w.client 3).retrieve binding.physical chunkId = .ok [⟨chunkId, payload⟩]

/-- The caller may read the scope, and the policy stays. -/
def Permits (caller : Caller) (scope : EvidenceScope) : Prop :=
  ∃ version, (w.access 4).authorize caller scope = .ok (some version) ∧
    (w.access 5).currentVersion = .ok version

theorem Stored.pinned {binding : BuildBinding} {chunkId : Text} {payload : Items F}
    (h : Stored uuid5 settings w binding chunkId payload) :
    pinnedBuild uuid5 settings w binding.buildId false = .ok (binding, binding.physical) := by
  obtain ⟨aliases, names, haliases, hnames, hdata, hcontrol⟩ := h.names
  obtain ⟨hexists, record, rest, hrecord, htype, hdecode⟩ := h.receipt
  have hname : controlOf binding.physical = binding.control := rfl
  have hphysical : physicalOf aliases names = .ok binding.physical := by
    have hstands : ¬ (target aliases names.1 = none ∧ target aliases names.2 = none) := by
      rw [hdata]
      rintro ⟨hnone, -⟩
      cases hnone
    rw [physicalOf, ensure_true _ hstands, ok_bind, hdata, orRaise_some, ok_bind, hname,
      ensure_true _ hcontrol, ok_bind]
    rfl
  have hbound : bindingOf uuid5 w binding.physical =
      .ok (some (binding, has record.payload "source_catalog".toList)) := by
    rw [bindingOf, hname, hexists, ok_bind, if_pos rfl, hrecord, ok_bind, readBinding,
      ensure_true _ htype, ok_bind, hdecode]
    rfl
  rw [pinnedBuild, hnames]
  show ((w.client 0).getAliases >>= _) = _
  rw [haliases, ok_bind, hphysical, ok_bind, hbound, ok_bind, orRaise_some, ok_bind,
    ensure_true _ ⟨rfl, rfl, h.corpus⟩, ok_bind, ensure_true _ (absurd · Bool.false_ne_true), ok_bind]
  rfl

/-- Evidence is read back under its own reference while the store holds what it was built from. -/
theorem read_back {caller : Caller} {maxBytes : Option Int} {binding : BuildBinding} {chunkId : Text}
    {payload : Items F} {scope : EvidenceScope} {ev : Evidence}
    (h : Stored uuid5 settings w binding chunkId payload)
    (hev : buildEvidence N H binding chunkId payload = .ok ev) (hscope : scopeOf payload = .ok scope)
    (hpermit : Permits w caller scope) (hsize : (ev.textBytes : Int) ≤ budget settings maxBytes) :
    readEvidence uuid5 N H settings w caller ev.reference maxBytes none none = .ok ev := by
  obtain ⟨_, names, -, hnames, -⟩ := h.names
  obtain ⟨⟨u, hu⟩, -⟩ := Ingest.Build.buildAliases_ok.mp hnames
  obtain ⟨version, hgrant, hcurrent⟩ := hpermit
  obtain ⟨e, reference, -, hr, rfl⟩ := (buildEvidence_ok N H).mp hev
  have hparse : parseReference reference =
      .ok ⟨binding.buildId, chunkId, H.digest (e.message N)⟩ :=
    parseReference_iff.mpr ⟨hr, u, Ingest.Build.canonicalBuildId_ok.mp hu⟩
  have hpoint := onlyRecord_ok.mpr (rfl : [⟨chunkId, payload⟩] = [(⟨chunkId, payload⟩ : ControlPoint F)])
  have hauthorized : authorize w.access 4 caller scope = .ok version := by rw [authorize, hgrant]
  have hkept : reauthorize w.access 5 caller scope version = .ok () := by
    rw [reauthorize, currentVersion, hcurrent, ok_bind, if_pos rfl]
    rfl
  have hread : read uuid5 N H settings w caller ⟨binding.buildId, chunkId, H.digest (e.message N)⟩
      maxBytes none none =
        .ok ⟨e, reference, Hex.encode (H.digest (e.message N)), (encodeUtf8 e.text).length⟩ := by
    rw [read, h.pinned, ok_bind, h.point, ok_bind, hpoint, ok_bind, hscope, ok_bind, hauthorized,
      ok_bind, ensure_true _ ⟨rfl, rfl⟩, ok_bind, hev, ok_bind, Hex.decode_encode, orRaise_some, ok_bind,
      ensure_true _ rfl, ok_bind, ensure_true _ hsize, ok_bind, hkept]
    rfl
  rw [readEvidence, hparse, ok_bind]
  exact upstream_ok.mpr hread


theorem scope_of_built {binding : BuildBinding} {chunkId : Text} {payload : Items F} {ev : Evidence}
    (h : buildEvidence N H binding chunkId payload = .ok ev) : ∃ scope, scopeOf payload = .ok scope := by
  obtain ⟨e, reference, he, -, -⟩ := (buildEvidence_ok N H).mp h
  simp only [readEnvelope, bind_ok] at he
  obtain ⟨scope, hscope, -⟩ := he
  exact ⟨scope, hscope⟩

/-- Every chunk of the ingest has evidence that cites it. While the store holds it, its reference is
read back as this evidence. Whatever the store and the policy do during a read, evidence is returned
for a reference only with the digest in it under the build it names, so it is the evidence the
reference was minted for. -/
theorem chunk_read_exactly :
    (∀ {U : CharTables} {findMessageIds findMembers : Text → List Text}
      {parsed : Ingest.Chunking.ParsedDoc} {pageTexts : List Text} {labels : List (Option Text)}
      {chunks : List Ingest.Chunking.Chunk},
      Ingest.Chunking.makeChunks U
        (Ingest.Chunking.sourceExtractors U uuid5 findMessageIds findMembers) parsed pageTexts labels =
          some chunks →
      isHex64 parsed.sha256 = true → ∀ c ∈ chunks, ∀ (rulesV : Text) (context : Option Text)
      (binding : BuildBinding) (build : Uuid), binding.buildId = build.str → build.isNil = false →
      ∃ ev, buildEvidence N H binding c.chunkId (pointItems U parsed c rulesV context) = .ok ev ∧
        Cites c binding.buildId ev) ∧
    (∀ {settings : Settings} {w : World F} {caller : Caller} {maxBytes : Option Int}
      {binding : BuildBinding} {chunkId : Text} {payload : Items F} {scope : EvidenceScope}
      {ev : Evidence}, Stored uuid5 settings w binding chunkId payload →
      buildEvidence N H binding chunkId payload = .ok ev → scopeOf payload = .ok scope →
      Permits w caller scope → (ev.textBytes : Int) ≤ budget settings maxBytes →
      readEvidence uuid5 N H settings w caller ev.reference maxBytes none none = .ok ev) ∧
    ∀ {settings : Settings} {w : World F} {caller : Caller} {token : Text} {maxBytes : Option Int}
      {product version : Option Text} {ev : Evidence},
      readEvidence uuid5 N H settings w caller token maxBytes product version = .ok ev →
      ∃ parsed, parseReference token = .ok parsed ∧ ReadExactly uuid5 N H settings w parsed ev ∧
        ∀ (binding : BuildBinding) (chunkId : Text) (payload : Items F) (minted : Evidence),
          buildEvidence N H binding chunkId payload = .ok minted → minted.reference = token →
          Set.InjOn H.digest {ev.message N, minted.message N} → ev = minted := by
  refine ⟨?_, ?_, ?_⟩
  · intro U findMessageIds findMembers parsed pageTexts labels chunks h hsha c hc rulesV context binding
      build hid hnil
    exact chunk_evidence N H h hsha hc rulesV context hid hnil
  · intro settings w caller maxBytes binding chunkId payload scope ev h hev hscope hpermit hsize
    exact read_back uuid5 N H settings w h hev hscope hpermit hsize
  · intro settings w caller token maxBytes product version ev h
    obtain ⟨parsed, hparse, hread⟩ := readEvidence_ok uuid5 N H settings w h
    exact ⟨parsed, hparse, hread, fun binding chunkId payload minted hminted htoken hinj =>
      hread.minted uuid5 N H settings w hparse hminted htoken hinj⟩

/-! ## One stored table -/

def someSettings : Settings where
  qdrantCollection := "corpus".toList
  evidenceMaxBytes := 1000

def someBuild : BuildBinding where
  buildId := Uuid.ones.str
  logicalAlias := "corpus".toList
  physical := "corpus__a".toList
  genFp := "g".toList
  corpusFp := "c".toList

def someAliases : AliasTable where
  items := [("corpus__build_".toList ++ someBuild.buildId, someBuild.physical),
    ("corpus__build_".toList ++ someBuild.buildId ++ completionsMark, someBuild.control)]
  distinct := by decide +kernel

def someReceipt : ControlPoint Unit where
  id := publicationMetadataPointId Ingest.Catalog.lastBytes someBuild.control
  payload := [("record_type".toList, .str publicationRecordType),
    ("target_collection".toList, .str someBuild.control), ("build_schema".toList, .int 1),
    ("build_id".toList, .str someBuild.buildId), ("logical_alias".toList, .str someBuild.logicalAlias),
    ("data_collection".toList, .str someBuild.physical), ("gen_fp".toList, .str someBuild.genFp),
    ("corpus_fp".toList, .str someBuild.corpusFp)]

/-- A store that holds one point of the build and lets everybody read. -/
def holding (point : ControlPoint Unit) : World Unit where
  client _ :=
    { getAliases := .ok someAliases
      collectionExists := fun _ => .ok true
      retrieve := fun name _ => .ok [if name = someBuild.physical then point else someReceipt]
      scroll := fun _ _ _ _ => .ok ([], none) }
  access _ :=
    { authorize := fun _ _ => .ok (some "shared-corpus".toList)
      currentVersion := .ok "shared-corpus".toList }

theorem holding_stored (chunkId : Text) (payload : Items Unit) :
    Stored Ingest.Catalog.lastBytes someSettings (holding ⟨chunkId, payload⟩) someBuild chunkId
      payload where
  corpus := rfl
  names := ⟨someAliases, _, rfl, rfl, by decide +kernel, by decide +kernel⟩
  receipt := by
    refine ⟨rfl, someReceipt, [], ?_, by decide +kernel, by decide +kernel⟩
    show Except.ok [if someBuild.control = someBuild.physical then _ else someReceipt] = _
    rw [if_neg (by decide +kernel)]
  point := by
    show Except.ok [if someBuild.physical = someBuild.physical then _ else someReceipt] = _
    rw [if_pos rfl]

def tableDoc : Ingest.Chunking.ParsedDoc :=
  { Ingest.Chunking.tableDoc with sha256 := Ingest.Catalog.someSha }

def tableExtractors : Ingest.Chunking.Extractors :=
  Ingest.Chunking.sourceExtractors asciiTables Ingest.Catalog.lastBytes (fun _ => []) fun _ => []

theorem smallTable_texts :
    (Ingest.Chunking.makeChunks asciiTables tableExtractors tableDoc [Ingest.Chunking.smallTable] []).map
      (fun cs => cs.map fun c => c.text) = some [Ingest.Chunking.smallTable] := by
  decide +kernel

/-- The chunk of a small table is stored, cited and read back. -/
theorem smallTable_read : ∃ c ev,
    Ingest.Chunking.makeChunks asciiTables tableExtractors tableDoc [Ingest.Chunking.smallTable] [] =
        some [c] ∧
      Cites c someBuild.buildId ev ∧
      readEvidence Ingest.Catalog.lastBytes halves Ingest.Catalog.zeros someSettings
        (holding ⟨c.chunkId, pointItems asciiTables tableDoc c [] none⟩) ⟨none⟩ ev.reference none none
          none = .ok ev ∧
      ∃ parsed, parseReference ev.reference = .ok parsed := by
  obtain ⟨cs, hm, hcs⟩ := Option.map_eq_some_iff.mp smallTable_texts
  obtain ⟨c, rest, rfl, htext, hrest⟩ := List.map_eq_cons_iff.mp hcs
  obtain rfl := List.map_eq_nil_iff.mp hrest
  obtain ⟨hcite, hback, honly⟩ :=
    chunk_read_exactly Ingest.Catalog.lastBytes halves Ingest.Catalog.zeros
  obtain ⟨ev, hev, hcites⟩ := hcite hm (by decide +kernel) c List.mem_cons_self [] none someBuild
    (Uuid.mk (List.replicate 16 1) rfl) rfl rfl
  obtain ⟨scope, hscope⟩ := scope_of_built halves Ingest.Catalog.zeros hev
  have hsize : (ev.textBytes : Int) ≤ budget someSettings none := by
    obtain ⟨e, reference, -, -, rfl⟩ := (buildEvidence_ok halves Ingest.Catalog.zeros).mp hev
    have hbytes : e.text = Ingest.Chunking.smallTable := hcites.text.trans htext
    show ((encodeUtf8 e.text).length : Int) ≤ 1000
    rw [hbytes]
    decide +kernel
  have hpermit : Permits (holding ⟨c.chunkId, pointItems asciiTables tableDoc c [] none⟩) ⟨none⟩ scope :=
    ⟨"shared-corpus".toList, rfl, rfl⟩
  have hread := hback (holding_stored c.chunkId _) hev hscope hpermit hsize
  obtain ⟨parsed, hparse, -⟩ := honly hread
  exact ⟨c, ev, hm, hcites, hread, parsed, hparse⟩

end MainframeRag.Agent.EvidenceService
