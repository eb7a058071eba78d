import MainframeRag.Ingest.RefreshOrder
import MainframeRag.Ingest.Retirement
import MainframeRag.Ingest.Staging
import MainframeRag.Lib.Interleave
import Mathlib

/-!
# The publication gate

`verify_all_complete` of `publish.py`, and the writers of the candidate it reads: upserts and approved
removals that interleave write by write and may stop anywhere. A candidate that passes the gate holds,
of every walked document, exactly the chunks that one ingest of its bytes under the same rules and
representation produced, and nothing else (`gate_exact`).
-/

namespace MainframeRag.Ingest.PublishGate

open PyText Retirement

variable {N V F : Type} [DecidableEq N] {U : CharTables}

/-! ## What the gate reads -/

/-- The staging collection with its completions, and what its manifest record reads as. -/
structure Candidate (N V : Type) where
  store : Store N V
  present : Bool
  manifest : Option (RepresentationManifest × Text)
  absent : present = false → store.points.items = []

/-- A constructor holds what the text of its problem shows. -/
inductive Problem
  | path (path : Text)
  | manifestMissing
  | contract (state : Text)
  | drift (fields : List Text)
  | retiredRevisions (docId : Text) (revisions : List Text)
  | retiredLegacy (docId : Text)
  | residue (count : Nat) (sample : List ChunkKey)
  deriving DecidableEq

/-- The document and revision a walked file's record names; `none` where the record is missing, of
other bytes or rules, not stored, or names none. -/
def recordedPair (inventory : Inventory F) (rulesV : Text) (file : Text × Text) :
    Option (Text × Text) :=
  match inventory file.1 with
  | none => none
  | some rec =>
    match rec.docId, rec.sourceRev with
    | some docId, some sourceRev =>
      if rec.sha256 = file.2 ∧ rec.rulesVersion = some rulesV ∧
          (rec.status = "upserted".toList ∨ rec.status = "skipped".toList) ∧
          docId ≠ [] ∧ sourceRev ≠ [] then
        some (docId, sourceRev)
      else none
    | _, _ => none

/-- `_is_point_retired` -/
def isPointRetired (docId : Text) (sourceRev : Option Text) (retired : List Text)
    (retirePlan : Plan) : Bool :=
  if docId = [] ∨ docId ∉ retired then false
  else
    match retirePlan.lookup docId with
    | none => true
    | some entry => entry.whole || sourceRev.any fun r => r ∈ entry.revs

/-- `_retired_still_present` -/
def retiredStillPresent (s : Store N V) (docId : Text) (validPairs : List (Text × Text)) : Problem :=
  let named := ((storedDocRevisions s docId).filterMap id).filter fun r => (docId, r) ∉ validPairs
  if named ≠ [] then .retiredRevisions docId (sortTexts named) else .retiredLegacy docId

/-- The pair of a point, where it has a revision. -/
def pairOf (p : Point V) : Option (Text × Text) := p.sourceRev.map fun r => (p.docId, r)

/-- The loop over the scrolled points, with the residue so far and three ids of it. -/
def auditPoints (s : Store N V) (validPairs : List (Text × Text)) (retired : List Text)
    (retirePlan : Plan) (pendingRemovals : List Text) :
    List (Point V) → Nat → List ChunkKey → List Problem
  | [], residue, sample => if residue = 0 then [] else [.residue residue sample]
  | p :: ps, residue, sample =>
    if ∃ pair ∈ pairOf p, pair ∈ validPairs then
      auditPoints s validPairs retired retirePlan pendingRemovals ps residue sample
    else if p.docId ∈ retired then [retiredStillPresent s p.docId validPairs]
    else if isPointRetired p.docId p.sourceRev pendingRemovals retirePlan then
      auditPoints s validPairs retired retirePlan pendingRemovals ps residue sample
    else
      auditPoints s validPairs retired retirePlan pendingRemovals ps (residue + 1)
        (if sample.length < 3 then sample ++ [p.id] else sample)

/-- `audit_unmarked_residue` -/
def auditUnmarkedResidue (c : Candidate N V) (walked : List (Text × Text)) (inventory : Inventory F)
    (rulesV : Text) (retired : List Text) (retirePlan : Plan) (pendingRemovals : List Text) :
    List Problem :=
  if !c.present then []
  else
    auditPoints c.store (walked.filterMap (recordedPair inventory rulesV)) retired retirePlan
      pendingRemovals c.store.points.items 0 []

/-- One round of the loop over the walked files. -/
def fileVerified (c : Candidate N V) (settings : Settings N) (inventory : Inventory F)
    (rulesV srcLabels : Text) (file : Text × Text) : Bool :=
  match recordedPair inventory rulesV file with
  | none => false
  | some (docId, sourceRev) =>
    isDocComplete c.store settings docId file.2 rulesV srcLabels sourceRev none

/-- `verify_searchable_coverage` -/
def verifySearchableCoverage (c : Candidate N V) (settings : Settings N)
    (walked : List (Text × Text)) (inventory : Inventory F) (rulesV srcLabels : Text)
    (retired : List Text) (retirePlan : Plan) (pendingRemovals : List Text) : List Problem :=
  (walked.filter fun file => !fileVerified c settings inventory rulesV srcLabels file).map
      (fun file => .path file.1) ++
    auditUnmarkedResidue c walked inventory rulesV retired retirePlan pendingRemovals

/-- The problems with the contract of the candidate. -/
def contractProblems (c : Candidate N V) (settings : Settings N) (walked : List (Text × Text))
    (rulesV : Text) : List Problem :=
  match c.manifest with
  | none => if walked ≠ [] then [.manifestMissing] else []
  | some (manifest, state) =>
    if state ≠ Staging.stateCommitted then [.contract state]
    else
      let (outcome, fields) := compareManifests manifest (buildManifest settings rulesV)
      if outcome = .compatible ∨ outcome = .recordOnlyDrift then [] else [.drift fields]

/-- `verify_all_complete` -/
def verifyAllComplete (c : Candidate N V) (settings : Settings N) (walked : List (Text × Text))
    (inventory : Inventory F) (rulesV srcLabels : Text) (retired : List Text) (retirePlan : Plan) :
    List Problem :=
  contractProblems c settings walked rulesV ++
    verifySearchableCoverage c settings walked inventory rulesV srcLabels retired retirePlan []

/-! ## What an empty report says -/

omit [DecidableEq N] in
theorem auditPoints_nil {s : Store N V} {validPairs : List (Text × Text)} {retired : List Text}
    {retirePlan : Plan} {pending : List Text} {ps : List (Point V)} {n : Nat}
    {sample : List ChunkKey} :
    auditPoints s validPairs retired retirePlan pending ps n sample = [] ↔ n = 0 ∧
      ∀ p ∈ ps, (∃ pair ∈ pairOf p, pair ∈ validPairs) ∨
        p.docId ∉ retired ∧ isPointRetired p.docId p.sourceRev pending retirePlan = true := by
  induction ps generalizing n sample with
  | nil => simp [auditPoints]
  | cons p ps ih =>
    rw [auditPoints, List.forall_mem_cons]
    split
    · next hpair => rw [ih, and_iff_right (a := _ ∨ _) (.inl hpair)]
    · next hpair =>
      split
      · next hretired =>
        simp only [List.cons_ne_nil, false_iff, not_and]
        rintro - (h | h)
        · exact absurd h hpair
        · exact absurd hretired h.1
      · next hretired =>
        split
        · next hpending => rw [ih, and_iff_right (a := _ ∨ _) (.inr ⟨hretired, hpending⟩)]
        · next hpending =>
          rw [ih]
          simp only [Nat.add_eq_zero_iff, one_ne_zero, and_false, false_and, false_iff, not_and]
          rintro - (h | h)
          · exact absurd h hpair
          · exact absurd h.2 hpending

theorem isPointRetired_nil (docId : Text) (sourceRev : Option Text) (retirePlan : Plan) :
    isPointRetired docId sourceRev [] retirePlan = false := by
  simp [isPointRetired]

omit [DecidableEq N] in
/-- Nothing outside the walk is left. -/
theorem audit_nil {c : Candidate N V} {walked : List (Text × Text)} {inventory : Inventory F}
    {rulesV : Text} {retired : List Text} {retirePlan : Plan}
    (h : auditUnmarkedResidue c walked inventory rulesV retired retirePlan [] = []) :
    ∀ p ∈ c.store.points, ∃ file ∈ walked, ∃ r, p.sourceRev = some r ∧
      recordedPair inventory rulesV file = some (p.docId, r) := by
  intro p hp
  unfold auditUnmarkedResidue at h
  split at h
  · next habsent =>
    have hnil := c.absent (by simpa using habsent)
    rw [Keyed.mem_def, hnil] at hp
    cases hp
  · rcases (auditPoints_nil.mp h).2 p hp with ⟨pair, hpair, hvalid⟩ | ⟨-, hpending⟩
    · obtain ⟨r, hr, rfl⟩ := Option.map_eq_some_iff.mp hpair
      obtain ⟨file, hfile, heq⟩ := List.mem_filterMap.mp hvalid
      exact ⟨file, hfile, r, hr, heq⟩
    · rw [isPointRetired_nil] at hpending
      cases hpending

omit [DecidableEq N] in
theorem contract_nil {c : Candidate N V} {settings : Settings N} {walked : List (Text × Text)}
    {rulesV : Text} (h : contractProblems c settings walked rulesV = []) (hne : walked ≠ []) :
    ∃ manifest, c.manifest = some (manifest, Staging.stateCommitted) ∧
      (compareManifests manifest (buildManifest settings rulesV)).1 ≠ .reembedRequired := by
  unfold contractProblems at h
  split at h
  · rw [if_pos hne] at h
    cases h
  · next manifest state hmanifest =>
    split at h
    · cases h
    · next hstate =>
      dsimp only at h
      split at h
      · next houtcome =>
        refine ⟨manifest, by rw [hmanifest, not_not.mp hstate], ?_⟩
        rcases houtcome with h | h <;> rw [h] <;> simp
      · cases h

/-! ## The writers -/

/-- The revisions of a plan, in order. -/
def plannedRevisions (plan : Plan) : List (Text × Text) :=
  (sorted plan.keys).flatMap fun docId =>
    (sorted (((plan.lookup docId).map PlanEntry.revs).getD ∅)).map fun rev => (docId, rev)

def removeEach : List (Text × Text) → Prog (Store N V) UpsertError Unit
  | [] => return ()
  | (docId, rev) :: rest => do
    Prog.modify (deleteCompletion docId rev)
    Prog.modify (deleteByRevision rev)
    removeEach rest

/-- `apply_approved_removals`, without its counts. -/
def applyApprovedRemovals (plan : Plan) : Prog (Store N V) UpsertError Unit :=
  removeEach (plannedRevisions plan)

/-- What writes to the target: upserts of the ingested documents, each in a build of this target, and
approved removals. -/
inductive Writer (target : N) (ingested : Build N → Doc U V → Prop) :
    Prog (Store N V) UpsertError Unit → Prop
  | upsert {b : Build N} {d : Doc U V} (lineageRev : Option Text)
    (hb : b.settings.qdrantCollection = target) (hd : ingested b d) :
    Writer target ingested (upsertOne b d lineageRev).void
  | removals (plan : Plan) : Writer target ingested (applyApprovedRemovals plan)

/-- A completion record of the target is that of an ingested document. -/
def Genuine (target : N) (ingested : Build N → Doc U V → Prop) (s : Store N V) : Prop :=
  ∀ m ∈ s.markers, m.targetCollection = target →
    ∃ (b : Build N) (d : Doc U V) (hc : d.chunks ≠ []), ingested b d ∧ m = completionRecord b d hc

section

variable {target : N} {ingested : Build N → Doc U V → Prop}

omit [DecidableEq N] in
theorem Genuine.subset {s s' : Store N V} (h : Genuine target ingested s)
    (hsub : ∀ m ∈ s'.markers, m ∈ s.markers) : Genuine target ingested s' :=
  fun m hm => h m (hsub m hm)

omit [DecidableEq N] in
theorem genuine_deleteCompletion (docId rev : Text) {s : Store N V}
    (h : Genuine target ingested s) : Genuine target ingested (deleteCompletion docId rev s) :=
  h.subset fun _ hm => (mem_deleteCompletion.mp hm).1

omit [DecidableEq N] in
theorem genuine_deleteByRevision (rev : Text) {s : Store N V} (h : Genuine target ingested s) :
    Genuine target ingested (deleteByRevision rev s) := h

/-- An upsert writes no other record than its document's. -/
theorem upsertOne_writes {b : Build N} {d : Doc U V} (hd : ingested b d) (lineageRev : Option Text) :
    (upsertOne b d lineageRev).Writes fun f =>
      ∀ s, Genuine target ingested s → Genuine target ingested (f s) := by
  unfold upsertOne
  split
  · exact Prog.writes_pure _
  · next hc =>
    split
    · exact Prog.writes_fail _
    · refine Prog.writes_get.bind fun s => ?_
      split
      · exact Prog.writes_pure _
      · split
        · exact Prog.writes_fail _
        · refine (Prog.writes_modify fun s hs => genuine_deleteCompletion _ _ hs).bind fun _ => ?_
          refine (Prog.writes_writeEach fun r _ s hs => ?_).bind fun _ => ?_
          · exact hs.subset fun _ hm => (mem_deleteRevisionCompletions.mp hm).1
          refine (Prog.writes_writeEach fun r _ s hs => genuine_deleteByRevision r hs).bind
            fun _ => ?_
          refine (Prog.writes_writeEach fun batch _ s hs => hs).bind fun _ => ?_
          refine (Prog.writes_require _ _).bind fun _ => ?_
          refine Prog.writes_get.bind fun s => ?_
          refine (Prog.writes_require _ _).bind fun _ => ?_
          refine (Prog.writes_modify fun s hs => ?_).bind fun _ => Prog.writes_pure _
          intro m hm htarget
          rcases Keyed.mem_upsert.mp hm with rfl | ⟨hm, -⟩
          · exact ⟨b, d, hc, hd, rfl⟩
          · exact hs m hm htarget

omit [DecidableEq N] in
theorem removeEach_writes (pairs : List (Text × Text)) :
    (removeEach pairs : Prog (Store N V) UpsertError Unit).Writes fun f =>
      ∀ s, Genuine target ingested s → Genuine target ingested (f s) := by
  induction pairs with
  | nil => exact Prog.writes_pure _
  | cons x rest ih =>
    exact (Prog.writes_modify fun s hs => genuine_deleteCompletion _ _ hs).bind fun _ =>
      (Prog.writes_modify fun s hs => genuine_deleteByRevision _ hs).bind fun _ => ih

theorem writer_writes {p : Prog (Store N V) UpsertError Unit} (h : Writer target ingested p) :
    p.Writes fun f => ∀ s, Genuine target ingested s → Genuine target ingested (f s) := by
  cases h with
  | upsert lineageRev hb hd => exact (upsertOne_writes hd lineageRev).void
  | removals plan => exact removeEach_writes _

end

/-! ## What passes the gate -/

/-- The walked file's document is stored as one ingest of its bytes produced it. -/
structure Stored (ingested : Build N → Doc U V → Prop) (settings : Settings N)
    (inventory : Inventory F) (rulesV srcLabels : Text) (s : Store N V) (file : Text × Text)
    (b : Build N) (d : Doc U V) : Prop where
  ingested : ingested b d
  recorded : recordedPair inventory rulesV file = some (d.docId, d.revision)
  sha256 : d.sha256 = file.2
  /-- the same rules, embedding and labels -/
  generation : docGenerationId b.settings d.sha256 b.rulesV b.srcLabels =
    docGenerationId settings file.2 rulesV srcLabels
  chunks : HoldsChunks d s
  once : (d.texts.map Prod.fst).Nodup
  points : ∀ p ∈ s.points, p.docId = d.docId → p.sourceRev = some d.revision →
    p.sha256 = file.2 ∧ p.rulesV = rulesV

theorem stored_of_verified {target : N} {ingested : Build N → Doc U V → Prop} {c : Candidate N V}
    (hgenuine : Genuine target ingested c.store) {settings : Settings N}
    (htarget : settings.qdrantCollection = target) {inventory : Inventory F}
    {rulesV srcLabels : Text} {file : Text × Text}
    (h : fileVerified c settings inventory rulesV srcLabels file = true) :
    ∃ b d, Stored ingested settings inventory rulesV srcLabels c.store file b d := by
  unfold fileVerified at h
  split at h
  · cases h
  · next docId sourceRev hpair =>
    obtain ⟨m, hm, hid, -, hsha, hrules, hverify⟩ := isDocComplete_iff.mp h
    obtain ⟨b, d, hc, hd, rfl⟩ := hgenuine m hm
      ((congrArg CompletionKey.targetCollection hid).trans htarget)
    have hdoc : d.docId = docId := congrArg CompletionKey.docId hid
    have hrev : d.revision = sourceRev := congrArg CompletionKey.sourceRev hid
    have hgen : docGenerationId b.settings d.sha256 b.rulesV b.srcLabels =
        docGenerationId settings file.2 rulesV srcLabels := congrArg CompletionKey.generationId hid
    subst hdoc hrev
    obtain ⟨honce, hchunks⟩ := verified_texts hverify
    exact ⟨b, d, hd, hpair, hsha, hgen, hchunks, honce, (verifyDocPoints_iff.mp hverify).2.2.1⟩

/-- A candidate that passes the gate, after any interleaving of upserts and removals that were cut
anywhere, has a compatible committed contract, holds every walked document exactly as one ingest of
its bytes produced it, and holds no other point. -/
theorem gate_exact {target : N} {ingested : Build N → Doc U V → Prop} {start : Store N V}
    (hstart : ∀ m ∈ start.markers, m.targetCollection ≠ target)
    {pool : Prog.Pool (Store N V) UpsertError Unit}
    (hrun : Prog.Pool.Reaches (Writer target ingested) ⟨start, []⟩ pool) {c : Candidate N V}
    (hc : c.store = pool.store) {settings : Settings N}
    (htarget : settings.qdrantCollection = target) {walked : List (Text × Text)}
    {inventory : Inventory F} {rulesV srcLabels : Text} {retired : List Text} {retirePlan : Plan}
    (hgate : verifyAllComplete c settings walked inventory rulesV srcLabels retired retirePlan = []) :
    (∀ file ∈ walked, ∃ b d, Stored ingested settings inventory rulesV srcLabels c.store file b d) ∧
    (∀ p ∈ c.store.points, ∃ file ∈ walked, ∃ r, p.sourceRev = some r ∧
      recordedPair inventory rulesV file = some (p.docId, r)) ∧
    (walked ≠ [] → ∃ manifest, c.manifest = some (manifest, Staging.stateCommitted) ∧
      (compareManifests manifest (buildManifest settings rulesV)).1 ≠ .reembedRequired) := by
  have hgenuine : Genuine target ingested c.store := by
    rw [hc]
    exact Prog.Pool.inv (fun p hp => writer_writes hp)
      (fun m hm htm => absurd htm (hstart m hm)) hrun
  obtain ⟨hcontract, hcoverage⟩ := List.append_eq_nil_iff.mp hgate
  obtain ⟨hfiles, haudit⟩ := List.append_eq_nil_iff.mp hcoverage
  refine ⟨fun file hfile => ?_, audit_nil haudit, contract_nil hcontract⟩
  have hverified : fileVerified c settings inventory rulesV srcLabels file = true := by
    have hnone := List.filter_eq_nil_iff.mp (List.map_eq_nil_iff.mp hfiles) file hfile
    simpa using hnone
  exact stored_of_verified hgenuine htarget hverified

/-! ## A candidate of one document -/

def oneBuild : Build Nat := plainBuild 0 none

def oneRecord : InventoryRecord Nat := formRecord "a.pdf".toList ['A'] ['1'] "upserted".toList

def oneInventory : Inventory Nat := fun path => if path = "a.pdf".toList then some oneRecord else none

def oneCandidate : Candidate Nat Unit where
  store := storeOf oneBuild [formDoc ['A'] ['1']]
  present := true
  manifest := some (buildManifest oneBuild.settings "rules".toList, Staging.stateCommitted)
  absent := by simp

theorem gate_exact_one :
    (∀ file ∈ [("a.pdf".toList, ['1'])], ∃ b d, Stored
      (fun b d => b = oneBuild ∧ d = formDoc ['A'] ['1']) oneBuild.settings oneInventory
      "rules".toList oneBuild.srcLabels oneCandidate.store file b d) ∧
    (∀ p ∈ oneCandidate.store.points, ∃ file ∈ [("a.pdf".toList, ['1'])], ∃ r,
      p.sourceRev = some r ∧
        recordedPair oneInventory "rules".toList file = some (p.docId, r)) ∧
    ([("a.pdf".toList, ['1'])] ≠ [] → ∃ manifest,
      oneCandidate.manifest = some (manifest, Staging.stateCommitted) ∧
      (compareManifests manifest (buildManifest oneBuild.settings "rules".toList)).1 ≠
        .reembedRequired) := by
  have hrun : Prog.Pool.Reaches
      (Writer 0 fun b d => b = oneBuild ∧ d = formDoc ['A'] ['1']) ⟨⟨.empty, .empty⟩, []⟩
      ⟨((upsertOne oneBuild (formDoc ['A'] ['1']) none).void.run ⟨.empty, .empty⟩).2, []⟩ :=
    Prog.Pool.alone (.upsert none rfl ⟨rfl, rfl⟩) _
  have hstore : oneCandidate.store =
      ((upsertOne oneBuild (formDoc ['A'] ['1']) none).void.run ⟨.empty, .empty⟩).2 := by
    rw [Prog.run_void]
    rfl
  have hgate : verifyAllComplete oneCandidate oneBuild.settings [("a.pdf".toList, ['1'])]
      oneInventory "rules".toList oneBuild.srcLabels [] ∅ = [] := by
    decide +kernel
  have hstart : ∀ m ∈ (⟨.empty, .empty⟩ : Store Nat Unit).markers, m.targetCollection ≠ 0 := by
    simp
  exact gate_exact hstart hrun hstore rfl hgate

end MainframeRag.Ingest.PublishGate
