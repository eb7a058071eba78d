import MainframeRag.Ingest.AliasSwap
import MainframeRag.Ingest.Staging
import Mathlib

/-!
# The generation a request is served from

`resolve_published_generation` of `agent/serving.py` with `resolve_serving_generation` of
`ingest/representation.py`: up to seven reads of the store, each of which may fail, and between any
two of them a publisher may move the alias. A read sees the store as it is at that moment, so one
resolution is a function of what its reads see (`Sight`).

Main results: `resolve_servable`, what a servable answer has seen, and `resolve_publishing`: while
builds are published one after the other, the answer is the build that served at the first read.
-/

namespace MainframeRag.Agent.Serving

open PyText PyJson Fallible
open Ingest (Settings RepresentationManifest buildManifest compareManifests projection
  changedFields)
open Ingest.Build (AliasTable BuildBinding target target_eq_some buildAliases buildAliases_ok buildPhase
  requirePublishedBinding completionsMark buildMark)
open Ingest.AliasSwap (AliasOp liveCollectionFrom Published Bound Swap publication swapAliasTo
  swapAliasTo_ok planSwap_ok immutableAliases_publication applyOps_append applyOps_create)
open Ingest.Receipt (decodeBuildBinding publicationRecordType)
open Ingest.Catalog (textField)
open Ingest.Staging (completionCollectionFor publicationMetadataPointId manifestPointId
  recordFromPayload stateCommitted)

variable {F : Type}

/-! ## The store, read by read -/

/-- The store at one moment. -/
structure Moment (F : Type) where
  aliases : AliasTable
  collectionExists : Text → Bool
  /-- the payload of the point with an id, in a collection -/
  retrieve : Text → Text → Option (Items F)
  hasPoints : Text → Bool

/-- The reads of one resolution, in order. -/
inductive Read
  | target
  | candidate
  | control
  | manifest
  | scroll
  | aliases
  | receipt
  deriving DecidableEq

/-- The store each read sees; `none` where the read fails. -/
abbrev Sight (F : Type) := Read → Option (Moment F)

inductive Outcome
  | compatible
  | recordOnlyDrift
  | reembedRequired
  | legacy
  | empty
  | pending
  | unknown
  deriving DecidableEq

/-- `SERVABLE_OUTCOMES` -/
def servableOutcomes : List Outcome := [.compatible, .recordOnlyDrift]

structure ServingGeneration where
  physical : Option Text
  outcome : Outcome
  details : List Text := []
  binding : Option BuildBinding := none
  deriving DecidableEq

def ServingGeneration.servable (g : ServingGeneration) : Bool :=
  g.physical.isSome && g.outcome ∈ servableOutcomes

/-- What a resolution raises. -/
inductive ServingError
  | unattested (model : Option Text)
  | client
  deriving DecidableEq

/-! ## The contract of a generation -/

/-- `require_attested_revision` -/
def requireAttestedRevision (settings : Settings Text) : Except ServingError Unit :=
  ensure (settings.embedMode = "vllm".toList → strip settings.embedModelRevision ≠ [])
    (.unattested settings.embedModel)

section

variable (uuid5 : Text → Uuid) (validates : Items F → Option RepresentationManifest)

/-- `read_manifest_record_async`; `none` where a read fails. -/
def readManifestRecordAsync (see : Sight F) (control : Text) :
    Option (Option (RepresentationManifest × Text)) := do
  let s ← see .control
  if s.collectionExists control then
    let s ← see .manifest
    return (s.retrieve control (manifestPointId uuid5 control)).bind (recordFromPayload validates)
  return none

/-- The outcome `compare_manifests` gives. -/
def compared (stored wanted : RepresentationManifest) : Outcome × List Text :=
  match compareManifests stored wanted with
  | (.compatible, fields) => (.compatible, fields)
  | (.recordOnlyDrift, fields) => (.recordOnlyDrift, fields)
  | (.reembedRequired, fields) => (.reembedRequired, fields)

/-- The lines under `try` in `serving_outcome`; `none` where a read fails. -/
def judgeContract (see : Sight F) (settings : Settings Text) (control rulesV : Text) :
    Option (Outcome × List Text) := do
  let stored ← readManifestRecordAsync uuid5 validates see control
  match stored with
  | none =>
    let s ← see .scroll
    return (if s.hasPoints settings.qdrantCollection then .legacy else .empty, [])
  | some (manifest, state) =>
    if state ≠ stateCommitted then return (.pending, [])
    return compared manifest (buildManifest settings rulesV)

/-- `serving_outcome` -/
def servingOutcome (see : Sight F) (settings : Settings Text) (control rulesV : Text) :
    Except ServingError (Outcome × List Text) := do
  requireAttestedRevision settings
  return (judgeContract uuid5 validates see settings control rulesV).getD (.unknown, [])

/-- `resolve_serving_generation` -/
def resolveServingGeneration (see : Sight F) (settings : Settings Text) (rulesV : Text) :
    Except ServingError (Option Text × Outcome × List Text) := do
  let configured := settings.qdrantCollection
  let s ← orRaise (see .target) .client
  let found := target s.aliases configured
  let s' ← orRaise (see .candidate) .client
  match (liveCollectionFrom configured found (s'.collectionExists (found.getD configured))).1 with
  | none => return (none, .empty, [])
  | some physical =>
    let judged ← servingOutcome uuid5 validates see { settings with qdrantCollection := physical }
      (completionCollectionFor physical) rulesV
    return (some physical, judged)

/-! ## The build of a generation -/

inductive BindingError
  | unbound
  | refused
  deriving DecidableEq

/-- The lines under the outer `try` in `resolve_published_generation`. -/
def publishedBinding (see : Sight F) (configured physical : Text) :
    Except BindingError BuildBinding := do
  let control := completionCollectionFor physical
  let s ← orRaise (see .aliases) .refused
  let s' ← orRaise (see .receipt) .refused
  let payload ← orRaise (s'.retrieve control (publicationMetadataPointId uuid5 control)) .unbound
  ensure (textField payload "record_type".toList = some publicationRecordType) .refused
  let binding ← (decodeBuildBinding payload control).mapError fun e =>
    if e = .unbound then .unbound else .refused
  (requirePublishedBinding (some binding) configured physical s.aliases).mapError fun _ => .refused
  return binding

/-- The answer for a generation whose contract serves. -/
def bound (physical : Text) (judged : Outcome × List Text) :
    Except BindingError BuildBinding → ServingGeneration
  | .ok binding => ⟨some physical, judged.1, judged.2, some binding⟩
  | .error .unbound => ⟨some physical, .legacy, ["unbound_generation".toList], none⟩
  | .error .refused => ⟨some physical, .unknown, ["build_control".toList], none⟩

/-- `resolve_published_generation` -/
def resolvePublishedGeneration (see : Sight F) (settings : Settings Text) (rulesV : Text) :
    Except ServingError ServingGeneration := do
  let (physical, judged) ← resolveServingGeneration uuid5 validates see settings rulesV
  match physical with
  | none => return ⟨none, judged.1, judged.2, none⟩
  | some physical =>
    if judged.1 ∈ servableOutcomes then
      return bound physical judged (publishedBinding uuid5 see settings.qdrantCollection physical)
    return ⟨some physical, judged.1, judged.2, none⟩

/-! ## What a servable answer has seen -/

/-- The configured name stands for the collection: as an alias, or as its own name. -/
def Resolves (aliases : AliasTable) (configured physical : Text) : Prop :=
  target aliases configured = some physical ∨
    target aliases configured = none ∧ physical = configured

/-- The contract in the generation's control collection is committed, and no stored vector is stale
under the settings. -/
def Contracted (s : Moment F) (settings : Settings Text) (rulesV physical : Text) : Prop :=
  ∃ payload manifest,
    s.retrieve (completionCollectionFor physical)
      (manifestPointId uuid5 (completionCollectionFor physical)) = some payload ∧
    recordFromPayload validates payload = some (manifest, stateCommitted) ∧
    projection manifest = projection (buildManifest settings rulesV)

/-- The receipt in the generation's control collection is the build's. -/
def Receipted (s : Moment F) (binding : BuildBinding) : Prop :=
  ∃ payload,
    s.retrieve binding.control (publicationMetadataPointId uuid5 binding.control) = some payload ∧
    decodeBuildBinding payload binding.control = .ok binding

/-- What the reads of a servable answer saw. -/
structure Seen (see : Sight F) (settings : Settings Text) (rulesV : Text) (g : ServingGeneration)
    (binding : BuildBinding) : Prop where
  served : g.physical = some binding.physical
  bound : g.binding = some binding
  configured : settings.qdrantCollection = binding.logicalAlias ∨
    settings.qdrantCollection = binding.physical
  target : ∃ s ∈ see .target, Resolves s.aliases settings.qdrantCollection binding.physical
  candidate : ∃ s ∈ see .candidate, s.collectionExists binding.physical = true
  manifest : ∃ s ∈ see .manifest, Contracted uuid5 validates s settings rulesV binding.physical
  aliases : ∃ s ∈ see .aliases, Bound s.aliases binding
  receipt : ∃ s ∈ see .receipt, Receipted uuid5 s binding

theorem compared_servable {stored wanted : RepresentationManifest} :
    (compared stored wanted).1 ∈ servableOutcomes ↔ projection stored = projection wanted := by
  rw [← Ingest.compareManifests_reembed, compared]
  rcases compareManifests stored wanted with ⟨_ | _ | _, fields⟩ <;> simp [servableOutcomes]

theorem judgeContract_servable {see : Sight F} {settings : Settings Text} {physical rulesV : Text}
    {judged : Outcome × List Text}
    (h : judgeContract uuid5 validates see settings (completionCollectionFor physical) rulesV =
      some judged) (hserves : judged.1 ∈ servableOutcomes) :
    ∃ s ∈ see .manifest, Contracted uuid5 validates s settings rulesV physical := by
  simp only [judgeContract, Option.bind_eq_bind, Option.bind_eq_some_iff] at h
  obtain ⟨stored, hread, h⟩ := h
  cases stored with
  | none =>
    obtain ⟨s, -, h⟩ := Option.bind_eq_some_iff.mp h
    cases Option.some.inj h
    split at hserves <;> simp [servableOutcomes] at hserves
  | some record =>
    obtain ⟨manifest, state⟩ := record
    dsimp only at h
    split at h
    · cases Option.some.inj h
      simp [servableOutcomes] at hserves
    · next hstate =>
      simp only [readManifestRecordAsync, Option.bind_eq_bind, Option.bind_eq_some_iff] at hread
      obtain ⟨s, -, hread⟩ := hread
      split at hread
      · obtain ⟨s', hs', hread⟩ := Option.bind_eq_some_iff.mp hread
        obtain ⟨payload, hpayload, hrecord⟩ := Option.bind_eq_some_iff.mp (Option.some.inj hread)
        cases Option.some.inj h
        rw [not_not.mp hstate] at hrecord
        exact ⟨s', hs', payload, manifest, hpayload, hrecord, compared_servable.mp hserves⟩
      · cases Option.some.inj hread

theorem liveCollectionFrom_some {configured physical : Text} {found : Option Text} {exist : Bool}
    (h : (liveCollectionFrom configured found exist).1 = some physical) :
    exist = true ∧ found.getD configured = physical := by
  cases found <;> cases exist <;> simp_all [liveCollectionFrom]

theorem resolveServingGeneration_servable {see : Sight F} {settings : Settings Text}
    {rulesV physical : Text} {judged : Outcome × List Text}
    (h : resolveServingGeneration uuid5 validates see settings rulesV = .ok (some physical, judged))
    (hserves : judged.1 ∈ servableOutcomes) :
    (∃ s ∈ see .target, Resolves s.aliases settings.qdrantCollection physical) ∧
    (∃ s ∈ see .candidate, s.collectionExists physical = true) ∧
    ∃ s ∈ see .manifest, Contracted uuid5 validates s settings rulesV physical := by
  simp only [resolveServingGeneration, bind_ok, orRaise_ok] at h
  obtain ⟨s, hs, s', hs', h⟩ := h
  split at h
  · cases h
  · next physical' hlive =>
    obtain ⟨judged', hjudged, h⟩ := bind_ok.mp h
    obtain ⟨hphysical, rfl⟩ := Prod.mk.inj (pure_ok.mp h)
    obtain rfl := Option.some.inj hphysical
    obtain ⟨hexist, hname⟩ := liveCollectionFrom_some hlive
    rw [hname] at hexist
    refine ⟨⟨s, hs, ?_⟩, ⟨s', hs', hexist⟩, ?_⟩
    · cases hfound : target s.aliases settings.qdrantCollection with
      | some found =>
        rw [hfound] at hname
        exact .inl (hfound.trans (congrArg some hname))
      | none =>
        rw [hfound] at hname
        exact .inr ⟨hfound, hname.symm⟩
    · simp only [servingOutcome, bind_ok, pure_ok] at hjudged
      obtain ⟨_, _, hjudged⟩ := hjudged
      let named : Settings Text := { settings with qdrantCollection := physical' }
      cases hj : judgeContract uuid5 validates see named (completionCollectionFor physical') rulesV with
      | none =>
        rw [hj] at hjudged
        subst hjudged
        simp [servableOutcomes] at hserves
      | some judged' =>
        rw [hj] at hjudged
        subst hjudged
        exact @judgeContract_servable _ uuid5 validates see named _ _ _ hj hserves

theorem mapError_ok {E E' α : Type} {x : Except E α} {f : E → E'} {a : α} :
    x.mapError f = .ok a ↔ x = .ok a := by
  cases x <;> simp [Except.mapError]

/-- A binding that is accepted names a published or a retained build. -/
theorem requirePublishedBinding_ok {binding : BuildBinding} {configured physical : Text}
    {aliases : AliasTable}
    (h : requirePublishedBinding (some binding) configured physical aliases = .ok ()) :
    binding.physical = physical ∧ (configured = binding.logicalAlias ∨ configured = physical) ∧
      Bound aliases binding := by
  simp only [requirePublishedBinding, bind_ok, ensure_ok] at h
  obtain ⟨_, ⟨hphysical, hconf⟩, phase, hphase, hpublished⟩ := h
  refine ⟨hphysical, hconf, ?_⟩
  simp only [buildPhase, bind_ok] at hphase
  obtain ⟨names, hnames, hphase⟩ := hphase
  split at hphase
  · obtain ⟨_, _, hphase⟩ := bind_ok.mp hphase
    cases pure_ok.mp hphase
    simp at hpublished
  · obtain ⟨_, hbound, _⟩ := bind_ok.mp hphase
    exact ⟨names, hnames, ensure_ok.mp hbound⟩

theorem publishedBinding_ok {see : Sight F} {configured physical : Text} {binding : BuildBinding}
    (h : publishedBinding uuid5 see configured physical = .ok binding) :
    binding.physical = physical ∧ (configured = binding.logicalAlias ∨ configured = physical) ∧
      (∃ s ∈ see .aliases, Bound s.aliases binding) ∧
        ∃ s ∈ see .receipt, Receipted uuid5 s binding := by
  simp only [publishedBinding, bind_ok, orRaise_ok, mapError_ok] at h
  obtain ⟨s, hs, s', hs', payload, hpayload, _, _, binding', hdecode, _, hrequire, h⟩ := h
  cases pure_ok.mp h
  obtain ⟨hphysical, hconf, hbound⟩ := requirePublishedBinding_ok hrequire
  subst hphysical
  exact ⟨rfl, hconf, ⟨s, hs, hbound⟩, s', hs', payload, hpayload, hdecode⟩

/-- What a servable answer has seen, whatever happened to the store between its reads. -/
theorem resolve_servable {see : Sight F} {settings : Settings Text} {rulesV : Text}
    {g : ServingGeneration}
    (h : resolvePublishedGeneration uuid5 validates see settings rulesV = .ok g)
    (hserves : g.servable = true) :
    ∃ binding, Seen uuid5 validates see settings rulesV g binding := by
  simp only [resolvePublishedGeneration, bind_ok] at h
  obtain ⟨⟨physical, judged⟩, hresolve, h⟩ := h
  cases physical with
  | none =>
    cases pure_ok.mp h
    simp [ServingGeneration.servable] at hserves
  | some physical =>
    dsimp only at h
    split at h
    · next hjudged =>
      cases pure_ok.mp h
      cases hbinding : publishedBinding uuid5 see settings.qdrantCollection physical with
      | error e =>
        rw [hbinding] at hserves
        cases e <;> simp [bound, ServingGeneration.servable, servableOutcomes] at hserves
      | ok binding =>
        obtain ⟨htarget, hcandidate, hmanifest⟩ :=
          resolveServingGeneration_servable uuid5 validates hresolve hjudged
        obtain ⟨rfl, hconf, haliases, hreceipt⟩ := publishedBinding_ok uuid5 hbinding
        exact ⟨binding, rfl, rfl, hconf, htarget, hcandidate, hmanifest, haliases, hreceipt⟩
    · next hjudged =>
      cases pure_ok.mp h
      simp [ServingGeneration.servable, hjudged] at hserves

/-! ## Publications between the reads -/

/-- The store over time. -/
abbrev World (F : Type) := ℚ → Moment F

/-- The reads were made one after the other between two times; those that did not fail saw the store
as it was. -/
structure Observed (world : World F) (start finish : ℚ) (see : Sight F) (time : Read → ℚ) : Prop where
  within : ∀ r, start ≤ time r ∧ time r ≤ finish
  ordered : time .target ≤ time .candidate ∧ time .candidate ≤ time .control ∧
    time .control ≤ time .manifest ∧ time .manifest ≤ time .scroll ∧
    time .scroll ≤ time .aliases ∧ time .aliases ≤ time .receipt
  saw : ∀ r, ∀ s ∈ see r, s = world (time r)

theorem Observed.first {world : World F} {start finish : ℚ} {see : Sight F} {time : Read → ℚ}
    (h : Observed world start finish see time) (r : Read) : time .target ≤ time r := by
  obtain ⟨h1, h2, h3, h4, h5, h6⟩ := h.ordered
  cases r <;> linarith

/-- The build's pair is complete: its contract and its receipt are stored. -/
structure Certified (s : Moment F) (settings : Settings Text) (rulesV : Text) (b : BuildBinding) :
    Prop where
  data : s.collectionExists b.physical = true
  control : s.collectionExists b.control = true
  contracted : Contracted uuid5 validates s settings rulesV b.physical
  receipted : Receipted uuid5 s b

/-- Builds are published under one alias, one after the other; what is published stays as it is. -/
structure Publishing (logical : Text) (settings : Settings Text) (rulesV : Text) (world : World F)
    (builds : ℚ → List BuildBinding) : Prop where
  published : ∀ t, Published logical .empty (builds t) (world t).aliases
  grows : ∀ t u, t ≤ u → builds t <+: builds u
  distinct : ∀ t, ((builds t).map BuildBinding.buildId).Nodup
  /-- a collection has no alias's name -/
  named : ∀ t, ∀ b ∈ builds t, b.physical ≠ logical
  certified : ∀ t, ∀ b ∈ builds t, Certified uuid5 validates (world t) settings rulesV b

end

/-- The aliases one publication writes. -/
def written (b : BuildBinding) : List (Text × Text) :=
  (b.logicalAlias, b.physical) ::
    [(b.logicalAlias ++ buildMark ++ b.buildId, b.physical),
      (b.logicalAlias ++ buildMark ++ b.buildId ++ completionsMark, b.control)]

theorem mem_apply_delete {aliases : AliasTable} {name : Text} {x : Text × Text}
    (h : x ∈ AliasOp.apply aliases (.delete name)) : x ∈ aliases :=
  (Keyed.mem_remove.mp h).1

/-- Every alias of the table was written by one of the publications. -/
theorem target_published {logical : Text} {builds : List BuildBinding} {now : AliasTable}
    (h : Published logical .empty builds now) {name collection : Text}
    (hname : target now name = some collection) : ∃ b ∈ builds, (name, collection) ∈ written b := by
  induction h with
  | start => cases hname
  | @publish now after builds binding client oldPhysical r hprev hnamed hatomic hswap ih =>
    obtain ⟨ops, snapshot, hplan, rfl⟩ := swapAliasTo_ok hatomic hswap
    obtain ⟨immutable, himm, -, rfl⟩ := planSwap_ok hplan
    obtain ⟨u, names, -, -, rfl, rfl⟩ := immutableAliases_publication himm
    rw [applyOps_append, applyOps_create, target_eq_some] at hname
    rcases Keyed.mem_upsertAll_cases hname with hnew | ⟨hold, -⟩
    · exact ⟨binding, by simp, hnew⟩
    · have hnow : (name, collection) ∈ now := by
        split at hold
        · exact mem_apply_delete hold
        · exact hold
      obtain ⟨b, hb, hwritten⟩ := ih (target_eq_some.mpr hnow)
      exact ⟨b, List.mem_append_left _ hb, hwritten⟩

theorem length_buildId {aliases : AliasTable} {b : BuildBinding} (h : Bound aliases b) :
    b.buildId.length = 36 := by
  obtain ⟨names, hnames, -⟩ := h
  obtain ⟨⟨u, hu⟩, -⟩ := buildAliases_ok.mp hnames
  exact Ingest.Build.length_buildId hu

/-- A build with its immutable aliases in the table was published. -/
theorem bound_published {logical : Text} {builds : List BuildBinding} {now : AliasTable}
    (h : Published logical .empty builds now) (hids : (builds.map BuildBinding.buildId).Nodup)
    {b : BuildBinding} (hb : Bound now b) :
    ∃ b' ∈ builds, b'.buildId = b.buildId ∧ b'.physical = b.physical := by
  have hc := h.consistent hids
  have hlen := length_buildId hb
  have hmark : buildMark.length = 8 := rfl
  have hcomp : completionsMark.length = 13 := rfl
  obtain ⟨names, hnames, hdata, hcontrol⟩ := hb
  obtain ⟨-, rfl⟩ := buildAliases_ok.mp hnames
  obtain ⟨b', hb', hwritten'⟩ := target_published h hdata
  obtain ⟨b'', hb'', hwritten''⟩ := target_published h hcontrol
  have hlen' := length_buildId (hc.bound b' hb')
  have hlen'' := length_buildId (hc.bound b'' hb'')
  have hnamed' := hc.named b' hb'
  have hnamed'' := hc.named b'' hb''
  simp only [written, List.mem_cons, Prod.mk.injEq, List.not_mem_nil, or_false, hnamed',
    hnamed''] at hwritten' hwritten''
  rcases hwritten' with ⟨hname', -⟩ | ⟨hname', hphysical⟩ | ⟨hname', -⟩
  case inr.inl =>
    exact ⟨b', hb', (List.append_inj' hname' (by rw [hlen, hlen'])).2.symm, hphysical.symm⟩
  all_goals
    rcases hwritten'' with ⟨hname'', -⟩ | ⟨hname'', -⟩ | ⟨hname'', hphysical⟩
    case inr.inr =>
      have hdata'' := List.append_cancel_right hname''
      exact ⟨b'', hb'', (List.append_inj' hdata'' (by rw [hlen, hlen''])).2.symm,
        (List.append_cancel_right hphysical).symm⟩
    -- the other ways to read the two names differ in length
    all_goals
      have hl' := congrArg List.length hname'
      have hl'' := congrArg List.length hname''
      simp only [List.length_append] at hl' hl''
      omega

/-! ## The build that serves -/

theorem decodeBuildBinding_recordType {payload : Items F} {control : Text} {binding : BuildBinding}
    (h : decodeBuildBinding payload control = .ok binding) :
    textField payload "record_type".toList = some publicationRecordType := by
  simp only [decodeBuildBinding, bind_ok, ensure_ok] at h
  obtain ⟨_, _, _, _, _, _, _, ⟨hrecord, _⟩, _⟩ := h
  exact hrecord

section

variable {uuid5 : Text → Uuid} {validates : Items F → Option RepresentationManifest}
  {logical rulesV : Text} {settings : Settings Text} {world : World F}
  {builds : ℚ → List BuildBinding}

/-- One control collection, one build. -/
theorem Receipted.unique {s : Moment F} {b b' : BuildBinding} (h : Receipted uuid5 s b)
    (h' : Receipted uuid5 s b') (hphysical : b.physical = b'.physical) : b = b' := by
  obtain ⟨payload, hpayload, hdecode⟩ := h
  obtain ⟨payload', hpayload', hdecode'⟩ := h'
  have hcontrol : b.control = b'.control := congrArg (· ++ completionsMark) hphysical
  rw [hcontrol] at hpayload hdecode
  rw [hpayload'] at hpayload
  cases Option.some.inj hpayload
  exact Except.ok.inj (hdecode.symm.trans hdecode')

theorem Publishing.consistent (hpub : Publishing uuid5 validates logical settings rulesV world builds)
    (t : ℚ) : Ingest.AliasSwap.Consistent logical (builds t) (world t).aliases :=
  (hpub.published t).consistent (hpub.distinct t)

theorem Publishing.later (hpub : Publishing uuid5 validates logical settings rulesV world builds)
    {t u : ℚ} (htu : t ≤ u) {b : BuildBinding} (hb : b ∈ builds t) : b ∈ builds u :=
  (hpub.grows t u htu).subset hb

theorem requirePublishedBinding_published
    (hpub : Publishing uuid5 validates logical settings rulesV world builds) {t : ℚ}
    {b : BuildBinding}
    (hb : b ∈ builds t) :
    requirePublishedBinding (some b) logical b.physical (world t).aliases = .ok () :=
  Ingest.AliasSwap.requirePublishedBinding_bound ((hpub.consistent t).bound b hb)
    (.inl ((hpub.consistent t).named b hb).symm)

/-- A servable answer is the build that served at the first read. -/
theorem Seen.last (hpub : Publishing uuid5 validates logical settings rulesV world builds)
    (hconf : settings.qdrantCollection = logical) {start finish : ℚ} {see : Sight F}
    {time : Read → ℚ} (hobs : Observed world start finish see time) {g : ServingGeneration}
    {binding : BuildBinding} (h : Seen uuid5 validates see settings rulesV g binding) :
    (builds (time .target)).getLast? = some binding := by
  obtain ⟨s, hs, hresolves⟩ := h.target
  obtain ⟨s', hs', hbound⟩ := h.aliases
  obtain ⟨s'', hs'', hreceipt⟩ := h.receipt
  obtain rfl := hobs.saw _ s hs
  obtain rfl := hobs.saw _ s' hs'
  obtain rfl := hobs.saw _ s'' hs''
  rw [hconf] at hresolves
  obtain ⟨b', hb', -, hphysical⟩ :=
    bound_published (hpub.published _) (hpub.distinct _) hbound
  cases hlast : (builds (time .target)).getLast? with
  | some b =>
    have hserves := (hpub.consistent _).serves b hlast
    rcases hresolves with hresolves | ⟨hnone, -⟩
    · rw [hserves] at hresolves
      have hb : b ∈ builds (time .receipt) :=
        hpub.later (hobs.first .receipt) (List.mem_of_getLast? hlast)
      exact congrArg some ((hpub.certified _ b hb).receipted.unique hreceipt
        (Option.some.inj hresolves))
    · rw [hserves] at hnone
      cases hnone
  | none =>
    have hempty : builds (time .target) = [] := List.getLast?_eq_none_iff.mp hlast
    rcases hresolves with hresolves | ⟨-, hname⟩
    · obtain ⟨b, hb, -⟩ := target_published (hpub.published _) hresolves
      rw [hempty] at hb
      cases hb
    · exact absurd (hphysical.trans hname) (hpub.named _ b' hb')

/-- No read failed. -/
structure Watched (world : World F) (see : Sight F) (time : Read → ℚ) : Prop where
  sees : ∀ r, see r = some (world (time r))

theorem publishedBinding_last (hpub : Publishing uuid5 validates logical settings rulesV world builds)
    {see : Sight F} {time : Read → ℚ} (hsee : Watched world see time) {b : BuildBinding}
    (hb : ∀ r, b ∈ builds (time r)) : publishedBinding uuid5 see logical b.physical = .ok b := by
  obtain ⟨receipt, hreceipt, hdecode⟩ := (hpub.certified _ b (hb .receipt)).receipted
  have hcontrol : completionCollectionFor b.physical = b.control := rfl
  simp only [publishedBinding, hsee.sees, orRaise_some, ok_bind, hcontrol, hreceipt, hdecode,
    ensure_true _ (decodeBuildBinding_recordType hdecode), Except.mapError,
    requirePublishedBinding_published hpub (hb .aliases)]
  rfl

/-- A contract of the settings' projection serves. -/
theorem servingOutcome_last
    (hpub : Publishing uuid5 validates logical settings rulesV world builds) {see : Sight F}
    {time : Read → ℚ} (hsee : Watched world see time) {b : BuildBinding}
    (hb : ∀ r, b ∈ builds (time r)) (hattested : requireAttestedRevision settings = .ok ()) :
    ∃ judged, judged.1 ∈ servableOutcomes ∧
      servingOutcome uuid5 validates see { settings with qdrantCollection := b.physical }
        (completionCollectionFor b.physical) rulesV = .ok judged := by
  obtain ⟨payload, manifest, hpayload, hrecord, hprojection⟩ :=
    (hpub.certified _ b (hb .manifest)).contracted
  have hcontrol : (world (time .control)).collectionExists (completionCollectionFor b.physical) =
      true := (hpub.certified _ b (hb .control)).control
  refine ⟨compared manifest (buildManifest settings rulesV), compared_servable.mpr hprojection, ?_⟩
  have hattested' : requireAttestedRevision { settings with qdrantCollection := b.physical } =
      .ok () := hattested
  have hread : readManifestRecordAsync uuid5 validates see (completionCollectionFor b.physical) =
      some (some (manifest, stateCommitted)) := by
    simp [readManifestRecordAsync, hsee.sees, hcontrol, hpayload, hrecord]
  rw [servingOutcome, hattested', ok_bind, judgeContract, hread]
  rfl

/-- A resolution none of whose reads fails serves once a build is published. -/
theorem resolve_last (hpub : Publishing uuid5 validates logical settings rulesV world builds)
    (hconf : settings.qdrantCollection = logical) {start finish : ℚ} {see : Sight F}
    {time : Read → ℚ} (hobs : Observed world start finish see time) (hsee : Watched world see time)
    (hattested : requireAttestedRevision settings = .ok ()) {b : BuildBinding}
    (hlast : (builds (time .target)).getLast? = some b) :
    ∃ g, resolvePublishedGeneration uuid5 validates see settings rulesV = .ok g ∧
      g.servable = true := by
  have hb : ∀ r, b ∈ builds (time r) := fun r =>
    hpub.later (hobs.first r) (List.mem_of_getLast? hlast)
  have htarget : target (world (time .target)).aliases settings.qdrantCollection =
      some b.physical := hconf ▸ (hpub.consistent _).serves b hlast
  have hexists := (hpub.certified _ b (hb .candidate)).data
  obtain ⟨judged, hserves, hjudged⟩ := servingOutcome_last hpub hsee hb hattested
  refine ⟨⟨some b.physical, judged.1, judged.2, some b⟩, ?_, ?_⟩
  · have hresolve : resolveServingGeneration uuid5 validates see settings rulesV =
        .ok (some b.physical, judged) := by
      simp only [resolveServingGeneration, hsee.sees, orRaise_some, ok_bind, htarget, hexists,
        Option.getD_some, liveCollectionFrom, if_true, hjudged]
      rfl
    have hbinding : publishedBinding uuid5 see settings.qdrantCollection b.physical = .ok b :=
      hconf ▸ publishedBinding_last hpub hsee hb
    simp only [resolvePublishedGeneration, hresolve, ok_bind, hserves, if_true, hbinding]
    rfl
  · simp [ServingGeneration.servable, hserves]

/-- While builds are published one after the other, a servable answer is the build that served at the
first read, and a resolution whose reads succeed is servable once there is one: publications between
its reads neither mix two generations nor make it refuse. -/
theorem resolve_publishing (hpub : Publishing uuid5 validates logical settings rulesV world builds)
    (hconf : settings.qdrantCollection = logical) {start finish : ℚ} {see : Sight F}
    {time : Read → ℚ} (hobs : Observed world start finish see time) :
    (∀ g, resolvePublishedGeneration uuid5 validates see settings rulesV = .ok g →
      g.servable = true → ∃ b, (builds (time .target)).getLast? = some b ∧
        g.physical = some b.physical ∧ g.binding = some b) ∧
    (Watched world see time → requireAttestedRevision settings = .ok () →
      builds (time .target) ≠ [] →
      ∃ g, resolvePublishedGeneration uuid5 validates see settings rulesV = .ok g ∧
        g.servable = true) := by
  constructor
  · intro g hg hserves
    obtain ⟨binding, h⟩ := resolve_servable uuid5 validates hg hserves
    exact ⟨binding, h.last hpub hconf hobs, h.served, h.bound⟩
  · intro hsee hattested hne
    exact resolve_last hpub hconf hobs hsee hattested (List.getLast?_eq_some_getLast hne)

end

/-! ## A publication between two reads -/

open Ingest.AliasSwap (firstBuild secondBuild afterFirst afterSecond twoBuilds openStore
  openStore_atomic)

theorem twos_length : (List.replicate 16 (2 : UInt8)).length = 16 := rfl

def pointIds (t : Text) : Uuid :=
  if t.head? = some 'p' then .ones else ⟨List.replicate 16 2, twos_length⟩

def readManifest (items : Items Empty) : Option RepresentationManifest := do
  let rules ← textField items "extraction_rules".toList
  let mode ← textField items "embed_mode".toList
  return { extractionRules := rules, embedMode := mode }

def hashSettings : Settings Text where
  qdrantCollection := "corpus".toList
  embedMode := "hash".toList
  denseDim := none

def manifestPayload : Items Empty :=
  [("record_type".toList, .str "representation-manifest".toList),
    ("manifest".toList, .obj [("extraction_rules".toList, .str "r1".toList),
      ("embed_mode".toList, .str "hash".toList)]),
    ("state".toList, .str "committed".toList)]

def receiptPayload (b : BuildBinding) : Items Empty :=
  [("record_type".toList, .str "publication-metadata".toList),
    ("target_collection".toList, .str b.control), ("build_schema".toList, .int 1),
    ("build_id".toList, .str b.buildId), ("logical_alias".toList, .str b.logicalAlias),
    ("data_collection".toList, .str b.physical), ("gen_fp".toList, .str b.genFp),
    ("corpus_fp".toList, .str b.corpusFp)]

/-- The second build is published at time 1. -/
def publishedAt (t : ℚ) : List BuildBinding :=
  if t < 1 then [firstBuild] else [firstBuild, secondBuild]

def swapping (t : ℚ) : Moment Empty where
  aliases := if t < 1 then afterFirst else afterSecond
  collectionExists _ := true
  retrieve control id :=
    if id = Uuid.ones.str then
      some (receiptPayload (if control = firstBuild.control then firstBuild else secondBuild))
    else some manifestPayload
  hasPoints _ := true

theorem swapping_certified (t : ℚ) (b : BuildBinding) (hb : b = firstBuild ∨ b = secondBuild) :
    Certified pointIds readManifest (swapping t) hashSettings "r1".toList b := by
  have hmanifest : ∀ control, manifestPointId pointIds control ≠ Uuid.ones.str := by
    intro control
    have hid : pointIds (Ingest.Staging.manifestRecordType ++ '|' :: control) =
        ⟨List.replicate 16 2, rfl⟩ := rfl
    rw [manifestPointId, hid]
    decide +kernel
  have hreceipt : ∀ control, publicationMetadataPointId pointIds control = Uuid.ones.str :=
    fun _ => rfl
  constructor
  case data => rfl
  case control => rfl
  case contracted =>
    refine ⟨manifestPayload, { extractionRules := "r1".toList, embedMode := "hash".toList }, ?_,
      by decide +kernel, rfl⟩
    simp only [swapping, if_neg (hmanifest _)]
  case receipted =>
    refine ⟨receiptPayload b, ?_, ?_⟩
    · rcases hb with rfl | rfl
      · rw [hreceipt]
        rfl
      · have hne : secondBuild.control ≠ firstBuild.control := by decide +kernel
        simp only [swapping, hreceipt, if_true, if_neg hne]
    · rcases hb with rfl | rfl <;> decide +kernel

theorem swapping_publishing :
    Publishing pointIds readManifest "corpus".toList hashSettings "r1".toList swapping
      publishedAt := by
  have hmem : ∀ t, ∀ b ∈ publishedAt t, b = firstBuild ∨ b = secondBuild := by
    intro t b hb
    unfold publishedAt at hb
    split at hb
    · exact .inl (List.mem_singleton.mp hb)
    · simpa using hb
  constructor
  case published =>
    intro t
    have hfirst : swapAliasTo openStore .empty .empty (publication firstBuild none) =
        (.ok ⟨"corpus".toList, firstBuild.physical, none, none⟩, afterFirst) := rfl
    unfold publishedAt swapping
    dsimp only
    split
    · exact .publish (.start _) rfl openStore_atomic hfirst
    · exact twoBuilds
  case grows =>
    intro t u htu
    unfold publishedAt
    split
    · split
      · exact List.prefix_rfl
      · exact ⟨[secondBuild], rfl⟩
    · next hlate =>
      rw [if_neg (by linarith)]
  case distinct =>
    intro t
    unfold publishedAt
    split <;> decide +kernel
  case named =>
    intro t b hb
    rcases hmem t b hb with rfl | rfl <;> decide +kernel
  case certified => exact fun t b hb => swapping_certified t b (hmem t b hb)

/-- The alias is read before the second publication, everything else after it. -/
def readTimes : Read → ℚ
  | .target => 0
  | _ => 2

/-- The answer is the first build, although the second serves by then. -/
theorem resolve_publishing_swapping :
    ∃ g, resolvePublishedGeneration pointIds readManifest (fun r => some (swapping (readTimes r)))
        hashSettings "r1".toList = .ok g ∧ g.servable = true ∧ g.binding = some firstBuild := by
  have hobs : Observed swapping 0 2 (fun r => some (swapping (readTimes r))) readTimes := by
    refine ⟨?_, ?_, ?_⟩
    · intro r
      cases r <;> norm_num [readTimes]
    · norm_num [readTimes]
    · rintro r s ⟨⟩
      rfl
  obtain ⟨hlast, hserves⟩ := resolve_publishing swapping_publishing rfl hobs
  obtain ⟨g, hg, hservable⟩ := hserves ⟨fun _ => rfl⟩ (by decide +kernel) (by decide +kernel)
  obtain ⟨b, hb, -, hbinding⟩ := hlast g hg hservable
  have hfirst : (publishedAt (readTimes .target)).getLast? = some firstBuild := by decide +kernel
  rw [hfirst] at hb
  exact ⟨g, hg, hservable, hb ▸ hbinding⟩

end MainframeRag.Agent.Serving
