import MainframeRag.Lib.PyText

/-!
# Representation contract

The manifest of `ingest/representation.py`: what stored vectors were made with. `compareManifests`
is its compatibility table; the projection to `REEMBED_FIELDS` is what generation identities are
made of.

Digests are symbolic: a digest is what was hashed, so equal digests are equal contents.
-/

namespace MainframeRag.Ingest

open PyText

/-- What the modelled code reads of the settings. `N` names physical collections. -/
structure Settings (N : Type) where
  qdrantCollection : N
  embedMode : Text
  embedModel : Option Text := none
  embedModelRevision : Text := []
  /-- `require_dense_dim`; `none` where it raises -/
  denseDim : Option Nat
  contextualEmbedEnabled : Bool := false
  contextLlmModel : Option Text := none
  contextMaxChars : Nat := 0
  bm25Model : Text := []
  bm25WeightsRevision : Text := []
  denseQueryPrefix : Text := []

def manifestSchemaVersion : Nat := 1

def identitySchemaSourceRev : Text := "source_rev".toList

def contextPromptVersion : Text := "v2".toList

structure RepresentationManifest where
  schemaVersion : Nat := manifestSchemaVersion
  extractionRules : Text
  identitySchema : Text := identitySchemaSourceRev
  embedMode : Text
  embedModel : Option Text := none
  embedModelRevision : Text := []
  denseDim : Option Nat := none
  contextualEnabled : Bool := false
  contextLlmModel : Option Text := none
  contextPromptVersion : Text := contextPromptVersion
  contextMaxChars : Nat := 0
  sparseModel : Text := []
  sparseWeightsRevision : Text := []
  denseQueryPrefix : Text := []
  deriving DecidableEq

/-- `_blank_context_model_is_absent` -/
def blankContextModelIsAbsent (model : Option Text) : Option Text :=
  model.bind (fun t => if strip t = [] then none else some t)

def buildManifest {N : Type} (settings : Settings N) (rulesV : Text) : RepresentationManifest where
  extractionRules := rulesV
  embedMode := settings.embedMode
  embedModel := settings.embedModel
  embedModelRevision := strip settings.embedModelRevision
  denseDim := settings.denseDim
  contextualEnabled := settings.contextualEmbedEnabled
  contextLlmModel := blankContextModelIsAbsent settings.contextLlmModel
  contextMaxChars := settings.contextMaxChars
  sparseModel := settings.bm25Model
  sparseWeightsRevision := settings.bm25WeightsRevision
  denseQueryPrefix := settings.denseQueryPrefix

/-! ## Compatibility -/

inductive FieldValue
  | nat (n : Nat)
  | bool (b : Bool)
  | text (t : Text)
  | optText (t : Option Text)
  | optNat (n : Option Nat)
  deriving DecidableEq

/-- A manifest field by name. -/
abbrev Field := Text × (RepresentationManifest → FieldValue)

/-- `REEMBED_FIELDS` -/
def reembedFields : List Field :=
  [("schema_version".toList, fun m => .nat m.schemaVersion),
    ("extraction_rules".toList, fun m => .text m.extractionRules),
    ("identity_schema".toList, fun m => .text m.identitySchema),
    ("embed_mode".toList, fun m => .text m.embedMode),
    ("embed_model".toList, fun m => .optText m.embedModel),
    ("embed_model_revision".toList, fun m => .text m.embedModelRevision),
    ("dense_dim".toList, fun m => .optNat m.denseDim),
    ("contextual_enabled".toList, fun m => .bool m.contextualEnabled),
    ("context_llm_model".toList, fun m => .optText m.contextLlmModel),
    ("context_prompt_version".toList, fun m => .text m.contextPromptVersion),
    ("context_max_chars".toList, fun m => .nat m.contextMaxChars),
    ("sparse_model".toList, fun m => .text m.sparseModel),
    ("sparse_weights_revision".toList, fun m => .text m.sparseWeightsRevision)]

/-- `RECORD_ONLY_FIELDS` -/
def recordOnlyFields : List Field :=
  [("dense_query_prefix".toList, fun m => .text m.denseQueryPrefix)]

inductive Compatibility
  | compatible
  | recordOnlyDrift
  | reembedRequired
  deriving DecidableEq

def changedFields (fields : List Field) (stored wanted : RepresentationManifest) : List Text :=
  (fields.filter (fun f => f.2 stored ≠ f.2 wanted)).map (·.1)

def compareManifests (stored wanted : RepresentationManifest) : Compatibility × List Text :=
  let reembed := changedFields reembedFields stored wanted
  let record := changedFields recordOnlyFields stored wanted
  if reembed ≠ [] then (.reembedRequired, reembed)
  else if record ≠ [] then (.recordOnlyDrift, record)
  else (.compatible, [])

/-- The manifest's values under `REEMBED_FIELDS`. -/
def projection (m : RepresentationManifest) : List FieldValue := reembedFields.map (fun f => f.2 m)

theorem changedFields_nil {fields : List Field} {stored wanted : RepresentationManifest} :
    changedFields fields stored wanted = [] ↔ ∀ f ∈ fields, f.2 stored = f.2 wanted := by
  simp [changedFields, List.filter_eq_nil_iff]

/-- A manifest is refused exactly when a re-embed field differs. -/
theorem compareManifests_reembed {stored wanted : RepresentationManifest} :
    (compareManifests stored wanted).1 ≠ .reembedRequired ↔ projection stored = projection wanted := by
  have hp : projection stored = projection wanted ↔
      ∀ f ∈ reembedFields, f.2 stored = f.2 wanted := by
    simp only [projection, List.map_inj_left]
  rw [hp, ← changedFields_nil, compareManifests]
  split
  · simp_all
  · split <;> simp_all

/-- Nothing differs exactly when the manifests are equal. -/
theorem compareManifests_compatible {stored wanted : RepresentationManifest} :
    (compareManifests stored wanted).1 = .compatible ↔ stored = wanted := by
  have hall : stored = wanted ↔ changedFields reembedFields stored wanted = [] ∧
      changedFields recordOnlyFields stored wanted = [] := by
    rw [changedFields_nil, changedFields_nil]
    cases stored
    cases wanted
    simp [reembedFields, recordOnlyFields, and_assoc]
  rw [hall, compareManifests]
  split
  · simp_all
  · split <;> simp_all

/-! ## Generation identities -/

def representationFingerprintVersion : Nat := 2

/-- `representation_fingerprint`: the versioned digest of the projection. -/
structure Fingerprint where
  version : Nat
  fields : List FieldValue
  deriving DecidableEq

def representationFingerprint {N : Type} (settings : Settings N) (rulesV : Text) : Fingerprint :=
  ⟨representationFingerprintVersion, projection (buildManifest settings rulesV)⟩

/-- `doc_generation_id`: content, representation and source labels. -/
structure GenerationId where
  sha256 : Text
  representation : Fingerprint
  sourceLabels : Text
  deriving DecidableEq

def docGenerationId {N : Type} (settings : Settings N) (sha256 rulesV sourceLabels : Text) :
    GenerationId :=
  ⟨sha256, representationFingerprint settings rulesV, sourceLabels⟩

def sourceLabels (vendor product version : Option Text) : Text :=
  List.intercalate ['|'] [vendor.getD [], product.getD [], version.getD []]

/-- The contract's digest is the contract. -/
abbrev ManifestDigest := RepresentationManifest

def manifestDigest {N : Type} (settings : Settings N) (rulesV : Text) : ManifestDigest :=
  buildManifest settings rulesV

end MainframeRag.Ingest
