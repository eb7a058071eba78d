import MainframeRag.Ingest.Build
import MainframeRag.Ingest.Catalog

/-!
# The receipt of a build

`decode_build_binding` of `ingest/build.py`, with the parts it checks of the content seal and of the
catalog summary. A receipt that is accepted names the control collection it stands in
(`decodeBuildBinding_ok`).
-/

namespace MainframeRag.Ingest.Receipt

open PyText PyJson JsonText Fallible Hex
open Build (BuildBinding completionsMark canonicalBuildId)
open Catalog (asText textField intField Summary decodeCatalogSummary)

variable {F : Type}

inductive ReceiptError
  | unbound
  | sealLacksIdentity
  | unsupportedSchema
  | invalidControlBinding
  | invalidControlFields
  | invalidControlPair
  | lacksSeal
  | invalidSeal
  | invalidSummary
  | catalogTooEarly
  | invalidIdentity
  deriving DecidableEq

def publicationRecordType : Text := "publication-metadata".toList

/-- `key in payload` -/
def has (payload : Items F) (key : Text) : Bool := (payload.lookup key).isSome

/-- `_SUPPORTED_SCHEMAS` -/
def supportedSchemas : List Int := [1, 2, 3]

/-- One member of a content seal. -/
def sealMember (v : Json F) : Bool :=
  match v with
  | .obj part =>
    (part.map Prod.fst).toFinset = {"count".toList, "sha256".toList} &&
      (intField part "count".toList).any (0 ≤ ·) && (textField part "sha256".toList).any isHex64
  | _ => false

/-- `decode_content_seal` returns. -/
def contentSeal (v : Json F) : Bool :=
  match v with
  | .obj value =>
    (value.map Prod.fst).toFinset = {"schema".toList, "data".toList, "control".toList} &&
      intField value "schema".toList = some 1 && sealMember (get value "data".toList) &&
        sealMember (get value "control".toList)
  | _ => false

/-- `decode_catalog_summary` returns. -/
def catalogSummary (v : Json F) : Bool :=
  match v with
  | .obj value =>
    (value.map Prod.fst).toFinset = {"schema".toList, "count".toList, "sha256".toList} &&
      match intField value "schema".toList, intField value "count".toList,
        textField value "sha256".toList with
      | some schema, some count, some sha256 =>
        (decodeCatalogSummary ⟨schema, count, sha256⟩).toOption.isSome
      | _, _, _ => false
  | _ => false

/-- A text with a character that is not blank. -/
def filledField (payload : Items F) (key : Text) : Except ReceiptError Text := do
  let value ← orRaise (textField payload key) .invalidControlFields
  ensure (strip value ≠ []) .invalidControlFields
  return value

/-- The seal and the catalog summary a receipt of this schema has. -/
def checkParts (payload : Items F) (schema : Int) : Except ReceiptError Unit := do
  ensure (2 ≤ schema → has payload "content_seal".toList = true) .lacksSeal
  ensure (has payload "content_seal".toList = true →
    contentSeal (get payload "content_seal".toList) = true) .invalidSeal
  ensure (3 ≤ schema → catalogSummary (get payload "source_catalog".toList) = true) .invalidSummary
  ensure (schema < 3 → has payload "source_catalog".toList = false) .catalogTooEarly

/-- `decode_build_binding` -/
def decodeBuildBinding (payload : Items F) (control : Text) : Except ReceiptError BuildBinding := do
  ensure (has payload "build_schema".toList || has payload "build_id".toList ||
    has payload "logical_alias".toList || has payload "data_collection".toList)
    (if has payload "content_seal".toList then .sealLacksIdentity else .unbound)
  let schema ← orRaise (intField payload "build_schema".toList) .unsupportedSchema
  ensure (schema ∈ supportedSchemas) .unsupportedSchema
  ensure (textField payload "record_type".toList = some publicationRecordType ∧
    textField payload "target_collection".toList = some control) .invalidControlBinding
  let logicalAlias ← filledField payload "logical_alias".toList
  let physical ← filledField payload "data_collection".toList
  let genFp ← filledField payload "gen_fp".toList
  let corpusFp ← filledField payload "corpus_fp".toList
  ensure (physical ++ completionsMark = control) .invalidControlPair
  checkParts payload schema
  let buildId ← orRaise (textField payload "build_id".toList) .invalidIdentity
  ensure ((canonicalBuildId buildId).toOption.isSome = true) .invalidIdentity
  return ⟨buildId, logicalAlias, physical, genFp, corpusFp⟩

/-- An accepted receipt is about the collection it stands in and names a build. -/
theorem decodeBuildBinding_ok {payload : Items F} {control : Text} {binding : BuildBinding}
    (h : decodeBuildBinding payload control = .ok binding) :
    binding.control = control ∧ ∃ u : Uuid, binding.buildId = u.str ∧ u.isNil = false := by
  simp only [decodeBuildBinding, bind_ok, ensure_ok, orRaise_ok, pure_ok] at h
  obtain ⟨_, -, _, -, _, -, _, -, _, -, _, -, _, -, _, -, _, hcontrol, _, -, _, -, _, hid, rfl⟩ := h
  refine ⟨hcontrol, ?_⟩
  cases hcanon : canonicalBuildId _ with
  | error e =>
    rw [hcanon] at hid
    cases hid
  | ok u => exact ⟨u, Build.canonicalBuildId_ok.mp hcanon⟩

end MainframeRag.Ingest.Receipt
