import MainframeRag.Lib.Prog
import MainframeRag.Ingest.PublishState
import MainframeRag.Ingest.Receipt
import MainframeRag.Ingest.Representation
import MainframeRag.Ingest.Chunking.Chunks
import Mathlib

/-!
# Which collection a build writes to

`resolve_publish_staging` of `ingest/publish.py`, with the readers of the publication record and of
the representation manifest. It only reads the store, so asking again finds the same collection.

`staging_selected`: the collection is the recorded one, the one that serves these inputs already, or
one that does not exist.
-/

namespace MainframeRag.Ingest.Staging

open PyText PyJson Hex
open Build (completionsMark)
open Catalog (textField)
open Chunking (natText)
open PublishState (keyStaging keyGenFp keyCorpusFp)
open Receipt (decodeBuildBinding publicationRecordType)

variable {F : Type}

/-! ## The store -/

/-- What the vector store answers. -/
structure Server (F : Type) where
  collectionExists : Text → Bool
  /-- the payload of the point with an id, in a collection -/
  retrieve : Text → Text → Option (Items F)

inductive StagingError (F : Type)
  | invalidControlRecord
  | preBuildRecord (control : Text)
  | invalidBuildRecord
  /-- the record's staging and fingerprints -/
  | otherInputs (staging genFp corpusFp : Json F)
  | unnamedStaging
  | noFreeCandidate (base : Text)
  | unrecordedBuild (base : Text)

abbrev Reads (F α : Type) := Prog (Server F) (StagingError F) α

/-- `completion_collection_for` -/
def completionCollectionFor (collection : Text) : Text := collection ++ completionsMark

/-- `staging_name_for` -/
def stagingNameFor (collection genFp corpusFp : Text) : Text :=
  collection ++ "__gen".toList ++ genFp ++ corpusFp

section

variable (uuid5 : Text → Uuid)

/-- `publication_metadata_point_id` -/
def publicationMetadataPointId (control : Text) : Text :=
  (uuid5 (publicationRecordType ++ '|' :: control)).str

def manifestRecordType : Text := "representation-manifest".toList

/-- `manifest_point_id` -/
def manifestPointId (control : Text) : Text := (uuid5 (manifestRecordType ++ '|' :: control)).str

/-! ## Control records -/

/-- `decode_publication_record` -/
def decodePublicationRecord (payload : Items F) (control : Text) :
    Except (StagingError F) (Items F) :=
  if textField payload "record_type".toList ≠ some publicationRecordType then
    .error .invalidControlRecord
  else
    match decodeBuildBinding payload control with
    | .ok _ => .ok payload
    | .error .unbound => .error (.preBuildRecord control)
    | .error _ => .error .invalidBuildRecord

/-- `read_publication_record` -/
def readPublicationRecord (control : Text) : Reads F (Option (Items F)) := do
  let s ← Prog.get
  if !s.collectionExists control then return none
  match s.retrieve control (publicationMetadataPointId uuid5 control) with
  | none => return none
  | some payload =>
    let record ← Prog.ofExcept (decodePublicationRecord payload control)
    return some record

/-- `read_publication_metadata` -/
def readPublicationMetadata (control : Text) : Reads F (Option (Text × Text)) := do
  match ← readPublicationRecord uuid5 control with
  | none => return none
  | some payload =>
    match textField payload keyGenFp, textField payload keyCorpusFp with
    | some genFp, some corpusFp => return some (genFp, corpusFp)
    | _, _ => return none

def stateCommitted : Text := "committed".toList

/-- The `state` of a manifest record; a record without one was committed. -/
def envelopeState (payload : Items F) : Option Text :=
  match payload.lookup "state".toList with
  | none => some stateCommitted
  | some (.str state) => some state
  | some _ => none

variable (validates : Items F → Option RepresentationManifest)

/-- `_record_from_payload`; the validation of the model is a parameter. -/
def recordFromPayload (payload : Items F) : Option (RepresentationManifest × Text) :=
  if textField payload "record_type".toList ≠ some manifestRecordType then none
  else
    match get payload "manifest".toList with
    | .obj manifest =>
      (envelopeState payload).bind fun state => (validates manifest).map fun m => (m, state)
    | _ => none

/-- `read_manifest_record` -/
def readManifestRecord (control : Text) : Reads F (Option (RepresentationManifest × Text)) := do
  let s ← Prog.get
  if !s.collectionExists control then return none
  match s.retrieve control (manifestPointId uuid5 control) with
  | none => return none
  | some payload => return recordFromPayload validates payload

/-! ## The selection -/

def maxStagingSuffixAttempts : Nat := 64

def tryCandidates (base : Text) (live : Option Text) (skip : List Text) : List Nat → Reads F Text
  | [] => .fail (.noFreeCandidate base)
  | attempt :: attempts => do
    let candidate := base ++ '_' :: natText attempt
    let s ← Prog.get
    if some candidate ≠ live ∧ candidate ∉ skip ∧ s.collectionExists candidate = false ∧
        s.collectionExists (completionCollectionFor candidate) = false then
      return candidate
    tryCandidates base live skip attempts

/-- `_fresh_staging_candidate` -/
def freshStagingCandidate (base : Text) (live : Option Text) (skip : List Text) : Reads F Text :=
  tryCandidates base live skip ((List.range maxStagingSuffixAttempts).map (· + 1))

/-- The arguments of one call. -/
structure Call (F : Type) where
  qdrantCollection : Text
  genFp : Text
  corpusFp : Text
  live : Option Text
  forceReingest : Bool
  hasRetirements : Bool
  state : Option (Items F)

def Call.base (call : Call F) : Text :=
  stagingNameFor call.qdrantCollection call.genFp call.corpusFp

/-- The record is for these inputs. -/
def Call.Matches (call : Call F) (state : Items F) : Prop :=
  textField state keyGenFp = some call.genFp ∧ textField state keyCorpusFp = some call.corpusFp

instance (call : Call F) (state : Items F) : Decidable (call.Matches state) :=
  inferInstanceAs (Decidable (_ ∧ _))

/-- The lines under `if matched is not None` -/
def resumeRecorded (call : Call F) (state : Items F) : Reads F (Text × Bool) :=
  match textField state keyStaging with
  | none => .fail .unnamedStaging
  | some recorded =>
    if recorded = [] then .fail .unnamedStaging
    else if some recorded = call.live then return (recorded, true)
    else do
      let s ← Prog.get
      return (recorded, s.collectionExists recorded)

/-- The lines from `if client.collection_exists(base)` on -/
def stageAtBase (call : Call F) : Reads F (Text × Bool) := do
  let s ← Prog.get
  if s.collectionExists call.base ||
      s.collectionExists (completionCollectionFor call.base) then
    let record ← readManifestRecord uuid5 validates (completionCollectionFor call.base)
    if record.map Prod.snd = some stateCommitted then
      let candidate ← freshStagingCandidate call.base call.live []
      return (candidate, false)
    .fail (.unrecordedBuild call.base)
  return (call.base, false)

/-- The lines under `if live is not None`, and on -/
def stageBesideLive (call : Call F) (live : Text) : Reads F (Text × Bool) := do
  let pubMeta ← readPublicationMetadata uuid5 (completionCollectionFor live)
  if pubMeta = some (call.genFp, call.corpusFp) ∨ live = call.base then
    if !call.forceReingest && !call.hasRetirements then return (live, false)
    let candidate ← freshStagingCandidate call.base call.live []
    return (candidate, false)
  stageAtBase uuid5 validates call

/-- `resolve_publish_staging` -/
def resolvePublishStaging (call : Call F) : Reads F (Text × Bool) :=
  match call.state, call.live with
  | some state, _ =>
    if call.Matches state then resumeRecorded call state
    else .fail (.otherInputs (get state keyStaging) (get state keyGenFp) (get state keyCorpusFp))
  | none, some live => stageBesideLive uuid5 validates call live
  | none, none => stageAtBase uuid5 validates call

/-! ## What is selected -/

/-- The collection's publication record is accepted and has these fingerprints. -/
def HasReceipt (s : Server F) (collection genFp corpusFp : Text) : Prop :=
  s.collectionExists (completionCollectionFor collection) = true ∧
    ∃ payload, s.retrieve (completionCollectionFor collection)
        (publicationMetadataPointId uuid5 (completionCollectionFor collection)) = some payload ∧
      (decodePublicationRecord payload (completionCollectionFor collection)).isOk = true ∧
      textField payload keyGenFp = some genFp ∧ textField payload keyCorpusFp = some corpusFp

/-- Neither the collection nor its completions exist, and it does not serve. -/
def Vacant (s : Server F) (live : Option Text) (collection : Text) : Prop :=
  s.collectionExists collection = false ∧
    s.collectionExists (completionCollectionFor collection) = false ∧ live ≠ some collection

/-- The staging, and whether it is resumed. -/
inductive Selected (call : Call F) (s : Server F) : Text × Bool → Prop
  | recorded {state : Items F} {staging : Text} {resumed : Bool} : call.state = some state →
      call.Matches state → textField state keyStaging = some staging →
      (resumed = true ↔ call.live = some staging ∨ s.collectionExists staging = true) →
      Selected call s (staging, resumed)
  | serving {live : Text} : call.state = none → call.live = some live →
      call.forceReingest = false → call.hasRetirements = false →
      (live = call.base ∨ HasReceipt uuid5 s live call.genFp call.corpusFp) →
      Selected call s (live, false)
  | vacant {staging : Text} : call.state = none → Vacant s call.live staging →
      Selected call s (staging, false)

variable {s : Server F}

theorem decodePublicationRecord_ok {payload record : Items F} {control : Text}
    (h : decodePublicationRecord payload control = .ok record) : record = payload := by
  unfold decodePublicationRecord at h
  split at h
  · cases h
  · split at h
    · exact (Except.ok.inj h).symm
    · cases h
    · cases h

theorem readPublicationMetadata_finds (collection : Text) :
    (readPublicationMetadata uuid5 (completionCollectionFor collection)).Finds s
      fun pubMeta => ∀ genFp corpusFp, pubMeta = some (genFp, corpusFp) →
        HasReceipt uuid5 s collection genFp corpusFp := by
  unfold readPublicationMetadata
  have hrecord : (readPublicationRecord uuid5 (completionCollectionFor collection)).Finds s
      fun record => ∀ payload, record = some payload →
        s.collectionExists (completionCollectionFor collection) = true ∧
        s.retrieve (completionCollectionFor collection)
          (publicationMetadataPointId uuid5 (completionCollectionFor collection)) = some payload ∧
        (decodePublicationRecord payload (completionCollectionFor collection)).isOk = true := by
    unfold readPublicationRecord
    refine Prog.Finds.get.bind ?_
    rintro _ rfl
    split
    · exact .pure nofun
    · next hexists =>
      split
      · exact .pure nofun
      · next payload hpayload =>
        refine (Prog.Finds.ofExcept (P := fun record => record = payload ∧
          (decodePublicationRecord payload (completionCollectionFor collection)).isOk = true)
          fun record hrecord => ?_).bind ?_
        · rw [hrecord]
          exact ⟨decodePublicationRecord_ok hrecord, rfl⟩
        · rintro _ ⟨rfl, hok⟩
          refine .pure fun _ e => Option.some.inj e ▸ ⟨by simpa using hexists, hpayload, hok⟩
  refine hrecord.bind fun record hr => ?_
  split
  · exact .pure nofun
  · next payload =>
    obtain ⟨hexists, hpayload, hok⟩ := hr payload rfl
    split
    · next genFp corpusFp hgen hcorpus =>
      refine .pure ?_
      rintro _ _ ⟨⟩
      exact ⟨hexists, payload, hpayload, hok, hgen, hcorpus⟩
    · exact .pure nofun

theorem tryCandidates_finds (base : Text) (live : Option Text) (skip : List Text)
    (attempts : List Nat) : (tryCandidates base live skip attempts).Finds s (Vacant s live) := by
  induction attempts with
  | nil => exact .fail _
  | cons attempt attempts ih =>
    unfold tryCandidates
    refine Prog.Finds.get.bind ?_
    rintro _ rfl
    split
    · next hfree =>
      obtain ⟨hlive, -, hdata, hcompletions⟩ := hfree
      exact .pure ⟨hdata, hcompletions, hlive.symm⟩
    · exact ih

theorem readManifestRecord_finds (control : Text) :
    (readManifestRecord uuid5 validates control).Finds s fun _ => True := by
  unfold readManifestRecord
  refine Prog.Finds.get.bind fun _ _ => ?_
  split
  · exact .pure trivial
  · split
    · exact .pure trivial
    · exact .pure trivial

theorem fresh_selected {call : Call F} (hstate : call.state = none) :
    (do let candidate ← freshStagingCandidate call.base call.live []
        return (candidate, false) : Reads F (Text × Bool)).Finds s (Selected uuid5 call s) :=
  (tryCandidates_finds _ _ _ _).bind fun _ h => .pure (.vacant hstate h)

theorem stageAtBase_finds {call : Call F} (hstate : call.state = none)
    (hlive : call.live ≠ some call.base) :
    (stageAtBase uuid5 validates call).Finds s (Selected uuid5 call s) := by
  unfold stageAtBase
  refine Prog.Finds.get.bind ?_
  rintro _ rfl
  split
  · refine (readManifestRecord_finds uuid5 validates _).bind fun record _ => ?_
    split
    · exact fresh_selected uuid5 hstate
    · exact .fail _
  · next hfree =>
    simp only [Bool.or_eq_true, not_or, Bool.not_eq_true] at hfree
    exact .pure (.vacant hstate ⟨hfree.1, hfree.2, hlive⟩)

theorem stageBesideLive_finds {call : Call F} {live : Text} (hstate : call.state = none)
    (hlive : call.live = some live) :
    (stageBesideLive uuid5 validates call live).Finds s (Selected uuid5 call s) := by
  unfold stageBesideLive
  refine (readPublicationMetadata_finds uuid5 live).bind fun pubMeta hpub => ?_
  split
  · next hsteady =>
    split
    · next hplain =>
      simp only [Bool.and_eq_true, Bool.not_eq_true'] at hplain
      exact .pure (.serving hstate hlive hplain.1 hplain.2 (hsteady.symm.imp_right (hpub _ _)))
    · exact fresh_selected uuid5 hstate
  · next hsteady =>
    refine stageAtBase_finds uuid5 validates hstate fun e => ?_
    exact hsteady (.inr (Option.some.inj (hlive.symm.trans e)))

theorem resumeRecorded_finds {call : Call F} {state : Items F} (hstate : call.state = some state)
    (hmatch : call.Matches state) :
    (resumeRecorded call state).Finds s (Selected uuid5 call s) := by
  unfold resumeRecorded
  split
  · exact .fail _
  · next recorded hrecorded =>
    split
    · exact .fail _
    · split
      · next hlive =>
        exact .pure (.recorded hstate hmatch hrecorded (iff_of_true rfl (.inl hlive.symm)))
      · next hlive =>
        refine Prog.Finds.get.bind ?_
        rintro _ rfl
        refine .pure (.recorded hstate hmatch hrecorded ?_)
        exact ⟨.inr, fun h => h.resolve_left fun e => hlive e.symm⟩

theorem resolvePublishStaging_finds (call : Call F) :
    (resolvePublishStaging uuid5 validates call).Finds s (Selected uuid5 call s) := by
  unfold resolvePublishStaging
  split
  · next state hstate =>
    split
    · next hmatch => exact resumeRecorded_finds uuid5 hstate hmatch
    · exact .fail _
  · next live hstate hlive => exact stageBesideLive_finds uuid5 validates hstate hlive
  · next hstate hlive =>
    exact stageAtBase_finds uuid5 validates hstate fun e => by rw [hlive] at e; cases e

/-- A staging is the recorded one, the live one that has these inputs already, or a new one; a record
for other inputs is refused; and asking changes nothing, so it is answered alike each time. -/
theorem staging_selected (call : Call F) (s : Server F) :
    (∀ staging resumed,
      ((resolvePublishStaging uuid5 validates call).run s).1 = .ok (staging, resumed) →
        Selected uuid5 call s (staging, resumed)) ∧
    (∀ state, call.state = some state → ¬ call.Matches state →
      ∃ e, ((resolvePublishStaging uuid5 validates call).run s).1 = .error e) ∧
    ((resolvePublishStaging uuid5 validates call).run s).2 = s ∧
    ∀ n, (resolvePublishStaging uuid5 validates call).results n s =
      List.replicate n ((resolvePublishStaging uuid5 validates call).run s).1 := by
  have h := resolvePublishStaging_finds uuid5 validates (s := s) call
  refine ⟨fun staging resumed => h.result, fun state hstate hother => ?_, h.store, h.results_eq⟩
  refine ⟨.otherInputs (get state keyStaging) (get state keyGenFp) (get state keyCorpusFp), ?_⟩
  unfold resolvePublishStaging
  rw [hstate]
  simp only [if_neg hother, Prog.run_fail]

end

end MainframeRag.Ingest.Staging
