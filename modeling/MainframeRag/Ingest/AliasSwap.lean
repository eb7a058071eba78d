import MainframeRag.Ingest.Build

/-!
# Publishing a build

`swap_alias_to` of `ingest/qdrant_io.py`: one atomic alias update moves the logical alias to the new
collection and creates the two immutable aliases of the build. `Published` is a history of such calls
for one logical alias; after any of them the alias table alone tells the phase of every build
(`phases_consistent`).
-/

namespace MainframeRag.Ingest.AliasSwap

open PyText Fallible Build

inductive AliasOp
  | delete (name : Text)
  | create (collection name : Text)
  deriving DecidableEq

def AliasOp.apply (aliases : AliasTable) : AliasOp → AliasTable
  | .delete name => aliases.remove fun x => x.1 = name
  | .create collection name => aliases.upsert (name, collection)

def applyOps (aliases : AliasTable) (ops : List AliasOp) : AliasTable :=
  ops.foldl AliasOp.apply aliases

/-- What the store answers to each request; an error is an exception of the client. -/
structure Client where
  firstRead : Except Text Unit
  createSnapshot : Text → Except Text (Option Text)
  secondRead : Except Text Unit
  collectionExists : Text → Except Text Bool
  updateAliases : AliasTable → List AliasOp → Except Text Bool × AliasTable

/-- The store's alias update: all of it, answered `True`, or none of it. -/
def Client.Atomic (client : Client) : Prop :=
  ∀ aliases ops, client.updateAliases aliases ops = (.ok true, applyOps aliases ops) ∨
    ((client.updateAliases aliases ops).1 ≠ .ok true ∧
      (client.updateAliases aliases ops).2 = aliases)

inductive SwapError
  | client (message : Text)
  | build (e : BuildError)
  | immutableExists
  | noSnapshotName
  /-- the live target moved during publication -/
  | moved (planned resolved : Option Text)
  | rejected
  deriving DecidableEq

structure Summary where
  logical : Text
  physical : Text
  previous : Option Text
  safetySnapshot : Option Text
  deriving DecidableEq

/-- The arguments of one call; `logical` is the configured collection. -/
structure Swap where
  logical : Text
  newPhysical : Text
  oldPhysical : Option Text
  buildId : Option Text
  deriving DecidableEq

/-- `live_collection_from` -/
def liveCollectionFrom (logical : Text) (aliasTarget : Option Text) (targetExists : Bool) :
    Option Text × Bool :=
  match aliasTarget with
  | some physical => if targetExists then (some physical, false) else (none, false)
  | none => if targetExists then (some logical, true) else (none, false)

/-- `snapshot_collection` -/
def snapshotCollection (client : Client) (collection : Text) : Except SwapError Text := do
  let snap ← (client.createSnapshot collection).mapError .client
  let name ← orRaise snap .noSnapshotName
  ensure (name ≠ []) .noSnapshotName
  return name

/-- `safety_snapshot` in `swap_alias_to` -/
def takeSnapshot (client : Client) (oldPhysical : Option Text) : Except SwapError (Option Text) :=
  match oldPhysical with
  | none => .ok none
  | some old => some <$> snapshotCollection client old

/-- `immutable` in `swap_alias_to`: the build's own names with what they stand for. -/
def immutableAliases (a : Swap) : Except SwapError (List (Text × Text)) :=
  match a.buildId with
  | none => .ok []
  | some buildId => do
    let (data, control) ← (buildAliases a.logical buildId).mapError .build
    return [(data, a.newPhysical), (control, a.newPhysical ++ completionsMark)]

/-- The predecessor the alias resolves to now; a collection squatting on the name is none. -/
def resolvePredecessor (client : Client) (logical : Text) (current : Option Text) :
    Except SwapError (Option Text) := do
  let found ← (client.collectionExists (current.getD logical)).mapError .client
  let (resolved, _) := liveCollectionFrom logical current found
  return if current = none ∧ resolved ≠ none then none else resolved

/-- `swap_alias_to` up to its update: the operations and the snapshot. `observed` and `now` are the
tables its two reads see. -/
def planSwap (client : Client) (observed now : AliasTable) (a : Swap) :
    Except SwapError (List AliasOp × Option Text) := do
  client.firstRead.mapError .client
  let immutable ← immutableAliases a
  ensure (∀ x ∈ immutable, target observed x.1 = none) .immutableExists
  let safetySnapshot ← takeSnapshot client a.oldPhysical
  client.secondRead.mapError .client
  let current := target now a.logical
  let resolved ← resolvePredecessor client a.logical current
  ensure (resolved = a.oldPhysical) (.moved a.oldPhysical resolved)
  return ((if current.isSome then [.delete a.logical] else []) ++
    .create a.newPhysical a.logical :: immutable.map fun x => .create x.2 x.1, safetySnapshot)

/-- `swap_alias_to`, with the table it leaves. -/
def swapAliasTo (client : Client) (observed now : AliasTable) (a : Swap) :
    Except SwapError Summary × AliasTable :=
  match planSwap client observed now a with
  | .error e => (.error e, now)
  | .ok (ops, safetySnapshot) =>
    match client.updateAliases now ops with
    | (.ok true, after) => (.ok ⟨a.logical, a.newPhysical, a.oldPhysical, safetySnapshot⟩, after)
    | (.ok false, after) => (.error .rejected, after)
    | (.error e, after) => (.error (.client e), after)

/-! ## One call -/

/-- The aliases a call names: the logical one and the build's own. -/
def Swap.entries (a : Swap) (immutable : List (Text × Text)) : List (Text × Text) :=
  (a.logical, a.newPhysical) :: immutable

variable {client : Client} {observed now after : AliasTable} {a : Swap}

theorem planSwap_ok {ops : List AliasOp} {snapshot : Option Text}
    (h : planSwap client observed now a = .ok (ops, snapshot)) :
    ∃ immutable, immutableAliases a = .ok immutable ∧
      (∀ x ∈ immutable, target observed x.1 = none) ∧
      ops = (if (target now a.logical).isSome then [.delete a.logical] else []) ++
        (a.entries immutable).map fun x => .create x.2 x.1 := by
  simp only [planSwap, bind_ok, ensure_ok, pure_ok, Prod.mk.injEq] at h
  obtain ⟨_, -, immutable, himm, _, hfree, _, -, _, -, _, -, _, -, rfl, -⟩ := h
  exact ⟨immutable, himm, hfree, rfl⟩

/-- A call that raises sent nothing or was refused, and the table is as it was. -/
theorem swapAliasTo_error (hatomic : client.Atomic) {e : SwapError}
    (h : swapAliasTo client observed now a = (.error e, after)) :
    after = now ∧ ((∃ e', planSwap client observed now a = .error e') ∨
      ∃ ops snapshot, planSwap client observed now a = .ok (ops, snapshot) ∧
        (client.updateAliases now ops).1 ≠ .ok true) := by
  unfold swapAliasTo at h
  split at h
  · rename_i e' he'
    obtain ⟨-, rfl⟩ := Prod.mk.inj h
    exact ⟨rfl, .inl ⟨e', he'⟩⟩
  · rename_i ops snapshot hplan
    have hrefused : ∀ r, r ≠ .ok true → client.updateAliases now ops = (r, after) → after = now ∧
        (client.updateAliases now ops).1 ≠ .ok true := by
      intro r hr hupdate
      rcases hatomic now ops with hdone | ⟨hne, hsame⟩
      · rw [hdone] at hupdate
        exact absurd (Prod.mk.inj hupdate).1.symm hr
      · rw [hupdate] at hne hsame ⊢
        exact ⟨hsame, hne⟩
    split at h
    · cases h
    · rename_i r hupdate
      obtain ⟨-, rfl⟩ := Prod.mk.inj h
      obtain ⟨hsame, hne⟩ := hrefused _ (by simp) hupdate
      exact ⟨hsame, .inr ⟨ops, snapshot, hplan, hne⟩⟩
    · rename_i e' r hupdate
      obtain ⟨-, rfl⟩ := Prod.mk.inj h
      obtain ⟨hsame, hne⟩ := hrefused _ (by simp) hupdate
      exact ⟨hsame, .inr ⟨ops, snapshot, hplan, hne⟩⟩

theorem swapAliasTo_ok (hatomic : client.Atomic) {r : Summary}
    (h : swapAliasTo client observed now a = (.ok r, after)) :
    ∃ ops snapshot, planSwap client observed now a = .ok (ops, snapshot) ∧
      after = applyOps now ops := by
  unfold swapAliasTo at h
  split at h
  · cases h
  · rename_i ops snapshot hplan
    refine ⟨ops, snapshot, hplan, ?_⟩
    split at h
    · rename_i r' hupdate
      obtain ⟨-, rfl⟩ := Prod.mk.inj h
      rcases hatomic now ops with hdone | ⟨hne, -⟩
      · rw [hdone] at hupdate
        exact (Prod.mk.inj hupdate).2.symm
      · exact absurd (congrArg Prod.fst hupdate) hne
    · cases h
    · cases h

/-! ## What the update does to the table -/

theorem applyOps_append (aliases : AliasTable) (ops ops' : List AliasOp) :
    applyOps aliases (ops ++ ops') = applyOps (applyOps aliases ops) ops' := List.foldl_append

theorem applyOps_create (aliases : AliasTable) (entries : List (Text × Text)) :
    applyOps aliases (entries.map fun x => .create x.2 x.1) = aliases.upsertAll entries := by
  simp only [applyOps, List.foldl_map]
  rfl

theorem target_delete {aliases : AliasTable} {name other : Text} (h : other ≠ name) :
    target (AliasOp.apply aliases (.delete name)) other = target aliases other := by
  refine target_congr fun collection => ?_
  show _ ∈ aliases.remove _ ↔ _
  simp [h]

theorem target_upsertAll_of_not_mem {aliases : AliasTable} {entries : List (Text × Text)}
    {name : Text} (h : name ∉ entries.map Prod.fst) :
    target (aliases.upsertAll entries) name = target aliases name :=
  target_congr fun _ => Keyed.mem_upsertAll_of_not_mem h

theorem target_upsertAll_of_mem {aliases : AliasTable} {entries : List (Text × Text)}
    {name collection : Text} (hd : (entries.map Prod.fst).Nodup) (h : (name, collection) ∈ entries) :
    target (aliases.upsertAll entries) name = some collection :=
  target_eq_some.mpr ((Keyed.mem_upsertAll hd).mpr (.inl h))

/-- A successful call writes its entries and leaves every other alias alone. -/
theorem swapAliasTo_table (hatomic : client.Atomic) {r : Summary}
    (h : swapAliasTo client observed now a = (.ok r, after)) :
    ∃ immutable, immutableAliases a = .ok immutable ∧
      (∀ x ∈ immutable, target observed x.1 = none) ∧
      (∀ name, name ∉ (a.entries immutable).map Prod.fst → target after name = target now name) ∧
      (((a.entries immutable).map Prod.fst).Nodup →
        ∀ x ∈ a.entries immutable, target after x.1 = some x.2) := by
  obtain ⟨ops, snapshot, hplan, rfl⟩ := swapAliasTo_ok hatomic h
  obtain ⟨immutable, himm, hfree, rfl⟩ := planSwap_ok hplan
  refine ⟨immutable, himm, hfree, ?_, ?_⟩
  · intro name hname
    rw [applyOps_append, applyOps_create, target_upsertAll_of_not_mem hname]
    have hne : name ≠ a.logical := fun e => hname (by simp [Swap.entries, e])
    split
    · exact target_delete hne
    · rfl
  · intro hd x hx
    rw [applyOps_append, applyOps_create]
    exact target_upsertAll_of_mem hd hx

/-! ## Histories -/

/-- The call that publishes `binding`. -/
def publication (binding : BuildBinding) (oldPhysical : Option Text) : Swap where
  logical := binding.logicalAlias
  newPhysical := binding.physical
  oldPhysical := oldPhysical
  buildId := some binding.buildId

/-- Successful publications for one logical alias, oldest first, and the table they lead to. -/
inductive Published (logical : Text) : AliasTable → List BuildBinding → AliasTable → Prop
  | start (aliases : AliasTable) : Published logical aliases [] aliases
  | publish {start now after : AliasTable} {builds : List BuildBinding} {binding : BuildBinding}
      {client : Client} {oldPhysical : Option Text} {r : Summary} :
      Published logical start builds now → binding.logicalAlias = logical → client.Atomic →
      swapAliasTo client now now (publication binding oldPhysical) = (.ok r, after) →
      Published logical start (builds ++ [binding]) after

/-- The build's immutable aliases are in the table. -/
def Bound (aliases : AliasTable) (binding : BuildBinding) : Prop :=
  ∃ names, buildAliases binding.logicalAlias binding.buildId = .ok names ∧
    target aliases names.1 = some binding.physical ∧
    target aliases names.2 = some binding.control

theorem buildPhase_bound {aliases : AliasTable} {binding : BuildBinding}
    (h : Bound aliases binding) :
    buildPhase binding aliases = .ok (if target aliases binding.logicalAlias = some binding.physical
      then .published else .retained) := by
  obtain ⟨names, hnames, hdata, hcontrol⟩ := h
  simp only [buildPhase, hnames, ok_bind, hdata, hcontrol, reduceCtorEq, if_false,
    and_self, ensure_true]
  rfl

theorem requirePublishedBinding_bound {aliases : AliasTable} {binding : BuildBinding}
    {configured : Text} (h : Bound aliases binding)
    (hconf : configured = binding.logicalAlias ∨ configured = binding.physical) :
    requirePublishedBinding (some binding) configured binding.physical aliases = .ok () := by
  have hphase : ∀ c : Prop, [Decidable c] →
      ((if c then Phase.published else .retained) = .published ∨
        (if c then Phase.published else .retained) = .retained) := by
    intro c _
    split <;> simp
  simp only [requirePublishedBinding, buildPhase_bound h]
  rw [ensure_true _ ⟨trivial, hconf⟩, ok_bind, ok_bind, ensure_true _ (hphase _)]

/-- Every published build keeps its aliases, and the logical one stands for the last. -/
structure Consistent (logical : Text) (builds : List BuildBinding) (aliases : AliasTable) : Prop where
  named : ∀ b ∈ builds, b.logicalAlias = logical
  bound : ∀ b ∈ builds, Bound aliases b
  serves : ∀ b, builds.getLast? = some b → target aliases logical = some b.physical

theorem immutableAliases_publication {binding : BuildBinding} {oldPhysical : Option Text}
    {immutable : List (Text × Text)}
    (h : immutableAliases (publication binding oldPhysical) = .ok immutable) :
    ∃ u names, canonicalBuildId binding.buildId = .ok u ∧
      buildAliases binding.logicalAlias binding.buildId = .ok names ∧
      names = (binding.logicalAlias ++ buildMark ++ binding.buildId,
        binding.logicalAlias ++ buildMark ++ binding.buildId ++ completionsMark) ∧
      immutable = [(names.1, binding.physical), (names.2, binding.control)] := by
  simp only [immutableAliases, publication, bind_ok, pure_ok] at h
  obtain ⟨names, hnames, rfl⟩ := h
  cases hb : buildAliases binding.logicalAlias binding.buildId with
  | error e =>
    rw [hb] at hnames
    cases hnames
  | ok names' =>
    rw [hb] at hnames
    obtain rfl : names' = names := by simpa [Except.mapError] using hnames
    obtain ⟨⟨u, hu⟩, heq⟩ := buildAliases_ok.mp hb
    exact ⟨u, names', hu, rfl, heq, rfl⟩

/-- One more publication: the new build is bound and serves, the earlier ones stay bound. -/
theorem Consistent.publish {logical : Text} {builds : List BuildBinding} {binding : BuildBinding}
    {oldPhysical : Option Text} {r : Summary} (h : Consistent logical builds now)
    (hnamed : binding.logicalAlias = logical) (hnew : ∀ b ∈ builds, b.buildId ≠ binding.buildId)
    (hatomic : client.Atomic)
    (hswap : swapAliasTo client now now (publication binding oldPhysical) = (.ok r, after)) :
    Consistent logical (builds ++ [binding]) after := by
  obtain ⟨immutable, himm, -, hother, hentries⟩ := swapAliasTo_table hatomic hswap
  obtain ⟨u, names, hu, hnames, hform, rfl⟩ := immutableAliases_publication himm
  have hself := names_distinct binding.logicalAlias hu hu
  have hd : (((publication binding oldPhysical).entries
      [(names.1, binding.physical), (names.2, binding.control)]).map Prod.fst).Nodup := by
    simp only [Swap.entries, publication, hform, List.map_cons, List.map_nil, List.nodup_cons,
      List.mem_cons, List.not_mem_nil, or_false, not_or, List.nodup_nil, not_false_eq_true, and_true]
    exact ⟨⟨hself.1.symm, hself.2.1.symm⟩, hself.2.2.1.symm⟩
  have hwritten := hentries hd
  have hserves : target after logical = some binding.physical := by
    have := hwritten (binding.logicalAlias, binding.physical) (by simp [Swap.entries, publication])
    rwa [hnamed] at this
  constructor
  case named =>
    intro b hb
    rcases List.mem_append.mp hb with hb | hb
    · exact h.named b hb
    · rw [List.mem_singleton.mp hb, hnamed]
  case bound =>
    intro b hb
    rcases List.mem_append.mp hb with hb | hb
    · -- the names of an earlier build are not among those written
      obtain ⟨names', hnames', hdata, hcontrol⟩ := h.bound b hb
      obtain ⟨⟨v, hv⟩, rfl⟩ := buildAliases_ok.mp hnames'
      have hne := hnew b hb
      have hfwd := names_distinct logical hv hu
      have hbwd := names_distinct logical hu hv
      refine ⟨_, hnames', ?_, ?_⟩
      · rw [hother, hdata]
        simp only [Swap.entries, publication, hform, hnamed, h.named b hb, List.map_cons,
          List.map_nil, List.mem_cons, List.not_mem_nil, or_false, not_or]
        exact ⟨hfwd.1, fun e => hne (hfwd.2.2.2.1 e), hbwd.2.2.1.symm⟩
      · rw [hother, hcontrol]
        simp only [Swap.entries, publication, hform, hnamed, h.named b hb, List.map_cons,
          List.map_nil, List.mem_cons, List.not_mem_nil, or_false, not_or]
        exact ⟨hfwd.2.1, hfwd.2.2.1, fun e => hne (hfwd.2.2.2.2 e)⟩
    · rw [List.mem_singleton.mp hb]
      exact ⟨names, hnames, hwritten (names.1, binding.physical) (by simp [Swap.entries]),
        hwritten (names.2, binding.control) (by simp [Swap.entries])⟩
  case serves =>
    intro b hb
    rw [List.getLast?_concat, Option.some.injEq] at hb
    rw [← hb, hserves]

theorem Published.consistent {logical : Text} {start : AliasTable} {builds : List BuildBinding}
    (h : Published logical start builds now) (hids : (builds.map BuildBinding.buildId).Nodup) :
    Consistent logical builds now := by
  induction h with
  | start => exact ⟨by simp, by simp, by simp⟩
  | publish hprev hnamed hatomic hswap ih =>
    rw [List.map_append, List.nodup_append] at hids
    refine (ih hids.1).publish hnamed ?_ hatomic hswap
    intro b hb e
    exact hids.2.2 _ (List.mem_map_of_mem hb) _ (by simp) e

/-- A store that has every collection and takes every update. -/
def openStore : Client where
  firstRead := .ok ()
  createSnapshot collection := .ok (some collection)
  secondRead := .ok ()
  collectionExists _ := .ok true
  updateAliases aliases ops := (.ok true, applyOps aliases ops)

theorem openStore_atomic : openStore.Atomic := fun _ _ => .inl rfl

def firstBuild : BuildBinding where
  buildId := Uuid.ones.str
  logicalAlias := "corpus".toList
  physical := "corpus__a".toList
  genFp := "g".toList
  corpusFp := "c".toList

def secondBuild : BuildBinding :=
  { firstBuild with
    buildId := (Uuid.mk (List.replicate 16 2) rfl).str
    physical := "corpus__b".toList }

def afterFirst : AliasTable :=
  (swapAliasTo openStore .empty .empty (publication firstBuild none)).2

def afterSecond : AliasTable :=
  (swapAliasTo openStore afterFirst afterFirst (publication secondBuild (some firstBuild.physical))).2

theorem twoBuilds : Published "corpus".toList .empty [firstBuild, secondBuild] afterSecond := by
  have hfirst : swapAliasTo openStore .empty .empty (publication firstBuild none) =
      (.ok ⟨"corpus".toList, firstBuild.physical, none, none⟩, afterFirst) := rfl
  have hsecond : swapAliasTo openStore afterFirst afterFirst
        (publication secondBuild (some firstBuild.physical)) =
      (.ok ⟨"corpus".toList, secondBuild.physical, some firstBuild.physical,
        some firstBuild.physical⟩, afterSecond) := rfl
  exact .publish (.publish (.start _) rfl openStore_atomic hfirst) rfl openStore_atomic hsecond

end MainframeRag.Ingest.AliasSwap
