import MainframeRag.Ingest.Build
import MainframeRag.Ingest.Retirement
import MainframeRag.Lib.JsonText

/-!
# The build-state sidecar

`write_publish_state` and `read_publish_state` of `ingest/publish.py`: what an interrupted build left
behind, with the removals it was authorized for. The reader checks the recorded plan against the
recorded requests, so a plan it accepts is never wider than what was asked
(`recorded_plan_requested`).

It also refuses blank revisions and documents without one, which the planner lets through where a
whole document is retired: what is written is read back exactly when that does not happen
(`read_write_iff`).
-/

namespace MainframeRag.Ingest.PublishState

open PyText PyJson JsonText Fallible Build Retirement

variable {F : Type} (N : Floats F)

/-- The arguments of `write_publish_state` besides the removals; `fresh` is what `uuid4` gives. -/
structure BuildArgs where
  logical : Text
  staging : Text
  genFp : Text
  corpusFp : Text
  buildId : Option Text
  previous : Option Text
  fresh : Uuid

def publishStateVersion : Int := 2

/-! ## Writing -/

def keyVersion : Text := "version".toList
def keyBuildId : Text := "build_id".toList
def keyPrevious : Text := "previous".toList
def keyAlias : Text := "alias".toList
def keyStaging : Text := "staging".toList
def keyGenFp : Text := "gen_fp".toList
def keyCorpusFp : Text := "corpus_fp".toList
def keyRetireDocs : Text := "retire_docs".toList
def keyRetirePlan : Text := "retire_plan".toList
def keyRevs : Text := "revs".toList
def keyWhole : Text := "whole".toList

def optStr : Option Text → Json F
  | none => .null
  | some t => .str t

/-- One entry of `serialized_plan`. -/
def entryItems (e : PlanEntry) : Items F :=
  [(keyRevs, .arr ((sorted e.revs).map .str)), (keyWhole, .bool e.whole)]

/-- `serialized_plan` -/
def planItems (plan : Plan) : Items F :=
  (sorted plan.keys).map fun docId =>
    (docId, .obj (entryItems ((plan.lookup docId).getD ⟨∅, false⟩)))

def payload (a : BuildArgs) (buildId : Text) (plan : Option Plan) (docs : Option (List Text)) :
    Items F :=
  [(keyVersion, .int publishStateVersion), (keyBuildId, .str buildId),
    (keyPrevious, optStr a.previous), (keyAlias, .str a.logical), (keyStaging, .str a.staging),
    (keyGenFp, .str a.genFp), (keyCorpusFp, .str a.corpusFp)] ++
  (match docs with
    | none => []
    | some docs => [(keyRetireDocs, .arr (docs.map .str))]) ++
  (match plan with
    | none => []
    | some plan => [(keyRetirePlan, .obj (planItems plan))])

/-- `build_id` in the record: the given one, or a fresh one. -/
def recordedBuildId (a : BuildArgs) : Except BuildError Text :=
  match a.buildId with
  | none => .ok a.fresh.str
  | some buildId => (canonicalBuildId buildId).map fun _ => buildId

/-- `write_publish_state`: the sidecar's bytes. -/
def writePublishState (a : BuildArgs) (plan : Option Plan) (docs : Option (List Text)) :
    Except BuildError Bytes := do
  let buildId ← recordedBuildId a
  return encodeUtf8 (dumps N plainStyle (.obj (payload a buildId plan docs)))

/-! ## Reading -/

inductive StateError
  | unreadable
  | unrecognized
  | invalidIdentity
  | invalidRetirements
  deriving DecidableEq

/-- What the reader returns: the record with its plan as sets. -/
structure State (F : Type) where
  items : Items F
  retireDocs : Option (List Text)
  retirePlan : Option Plan

/-- A list of strings. -/
def texts : List (Json F) → Option (List Text)
  | [] => some []
  | .str t :: rest => (texts rest).map (t :: ·)
  | _ :: _ => none

/-- `state["retire_docs"]`, where the field is there. -/
def recordedFlags (items : Items F) : Except StateError (Option (List Text)) :=
  match items.lookup keyRetireDocs with
  | none => .ok none
  | some (.arr flags) => (orRaise (texts flags) .invalidRetirements).map some
  | some _ => .error .invalidRetirements

/-- One entry of the recorded plan. -/
def normalizeEntry (docId : Text) : Json F → Except StateError PlanEntry
  | .obj entry => do
    ensure (strip docId ≠ []) .invalidRetirements
    ensure ((entry.map Prod.fst).toFinset = {keyRevs, keyWhole}) .invalidRetirements
    match get entry keyRevs, get entry keyWhole with
    | .arr items, .bool whole => do
      let revs ← orRaise (texts items) .invalidRetirements
      ensure (∀ rev ∈ revs, strip rev ≠ []) .invalidRetirements
      ensure revs.Nodup .invalidRetirements
      ensure (revs ≠ []) .invalidRetirements
      return ⟨revs.toFinset, whole⟩
    | _, _ => .error .invalidRetirements
  | _ => .error .invalidRetirements

/-- `normalized` -/
def normalizePlan : Items F → Plan → Except StateError Plan
  | [], plan => .ok plan
  | (docId, v) :: items, plan => do
    let entry ← normalizeEntry docId v
    normalizePlan items (plan.insert docId entry)

/-- `state["retire_plan"]`, where the field is there. -/
def recordedPlan (items : Items F) : Except StateError (Option Plan) :=
  match items.lookup keyRetirePlan with
  | none => .ok none
  | some (.obj entries) => (normalizePlan entries ∅).map some
  | some _ => .error .invalidRetirements

/-- The plan is the request: no document more or less, and the revisions named. -/
def agrees (requests : Requests) (plan : Plan) : Prop :=
  requests.keys = plan.keys ∧ ∀ docId ∈ requests.keys,
    let selected := (requests.lookup docId).getD ∅
    let entry := (plan.lookup docId).getD ⟨∅, false⟩
    entry.whole = decide (none ∈ selected) ∧ (none ∉ selected → entry.revs.image some = selected)

instance (requests : Requests) (plan : Plan) : Decidable (agrees requests plan) := by
  unfold agrees
  infer_instance

/-- `requests`, parsed as the command line's flags are. -/
def recordedRequests : Option (List Text) → Except StateError (Option Requests)
  | none => .ok none
  | some flags => ((parseRetireFlags flags ∅).map some).mapError fun _ => .invalidRetirements

/-- The last checks of `_validate_recorded_retirements`. -/
def checkAgreement : Option Requests → Option Plan → Except StateError Unit
  | some requests, some plan => ensure (agrees requests plan) .invalidRetirements
  | _, _ => .ok ()

/-- `_validate_recorded_retirements` -/
def validateRecordedRetirements (items : Items F) :
    Except StateError (Option (List Text) × Option Plan) := do
  let flags ← recordedFlags items
  let requests ← recordedRequests flags
  let plan ← recordedPlan items
  checkAgreement requests plan
  return (flags, plan)

/-- `isinstance(v, str) and v` -/
def nonemptyStr : Json F → Bool
  | .str t => t ≠ []
  | _ => false

/-- `state.get("version")`, where it is an integer. -/
def version (items : Items F) : Option Int :=
  match get items keyVersion with
  | .int v => some v
  | _ => none

/-- The shape of a record under the alias. -/
def recognized (logical : Text) (items : Items F) : Bool :=
  (version items = some 1 || version items = some publishStateVersion) &&
  (match get items keyAlias with
    | .str t => t = logical
    | _ => false) &&
  nonemptyStr (get items keyStaging) && nonemptyStr (get items keyGenFp) &&
  nonemptyStr (get items keyCorpusFp)

/-- The identity of a record of this version. -/
def identified (items : Items F) : Bool :=
  (match get items keyBuildId with
    | .str t => (canonicalBuildId t).isOk
    | _ => false) &&
  (match items.lookup keyPrevious with
    | some .null => true
    | some v => nonemptyStr v
    | none => false)

/-- `read_publish_state`; `file` is `none` where there is no sidecar. -/
def readPublishState (file : Option Bytes) (logical : Text) :
    Except StateError (Option (State F)) :=
  match file with
  | none => .ok none
  | some bytes => do
    let text ← orRaise (readText bytes) .unreadable
    let v ← orRaise (loads N text) .unreadable
    ensure (distinctKeys v) .unreadable
    match v with
    | .obj items => do
      ensure (recognized logical items) .unrecognized
      ensure (version items = some publishStateVersion → identified items) .invalidIdentity
      let (flags, plan) ← validateRecordedRetirements items
      return some ⟨items, flags, plan⟩
    | _ => .error .unrecognized

/-! ## An accepted record asks for what it plans -/

section

variable {N}

theorem normalizePlan_ok {items : Items F} : ∀ {start plan : Plan},
    (items.map Prod.fst).Nodup → normalizePlan items start = .ok plan →
      ∀ docId, (∀ v, (docId, v) ∈ items → ∃ e, normalizeEntry docId v = .ok e ∧
          plan.lookup docId = some e) ∧
        (docId ∉ items.map Prod.fst → plan.lookup docId = start.lookup docId) := by
  induction items with
  | nil =>
    intro start plan _ h docId
    obtain rfl : start = plan := by simpa [normalizePlan] using h
    simp
  | cons x items ih =>
    obtain ⟨d, v⟩ := x
    intro start plan hd h docId
    rw [List.map_cons, List.nodup_cons] at hd
    simp only [normalizePlan, bind_ok] at h
    obtain ⟨entry, hentry, h⟩ := h
    obtain ⟨hin, hout⟩ := ih hd.2 h docId
    constructor
    · intro w hmem
      rcases List.mem_cons.mp hmem with e | hmem
      · obtain ⟨rfl, rfl⟩ := Prod.mk.inj e
        exact ⟨entry, hentry, by rw [hout hd.1, Finmap.lookup_insert]⟩
      · exact hin w hmem
    · intro hno
      rw [List.map_cons, List.mem_cons, not_or] at hno
      rw [hout hno.2, Finmap.lookup_insert_of_ne _ hno.1]

theorem readPublishState_ok {file : Option Bytes} {logical : Text} {state : State F}
    (h : readPublishState N file logical = .ok (some state)) :
    validateRecordedRetirements state.items = .ok (state.retireDocs, state.retirePlan) := by
  cases file with
  | none => simp [readPublishState] at h
  | some bytes =>
    simp only [readPublishState, bind_ok, orRaise_ok, ensure_ok] at h
    obtain ⟨text, -, v, -, -, -, h⟩ := h
    cases v with
    | obj items =>
      simp only [bind_ok, ensure_ok, pure_ok] at h
      obtain ⟨-, -, -, -, ⟨flags, plan⟩, hval, h⟩ := h
      obtain rfl := Option.some.inj h
      exact hval
    | _ => cases h

/-- The two fields of an accepted record agree. -/
theorem validateRecordedRetirements_ok {items : Items F} {flags : List Text} {plan : Plan}
    (h : validateRecordedRetirements items = .ok (some flags, some plan)) :
    ∃ requests, parseRetireFlags flags ∅ = .ok requests ∧ agrees requests plan := by
  simp only [validateRecordedRetirements, bind_ok, pure_ok, Prod.mk.injEq] at h
  obtain ⟨_, -, requests', hreq, _, -, _, hagree, rfl, rfl⟩ := h
  cases hparse : parseRetireFlags flags ∅ with
  | error e =>
    rw [recordedRequests, hparse] at hreq
    cases hreq
  | ok requests =>
    rw [recordedRequests, hparse] at hreq
    obtain rfl : some requests = requests' := by
      simpa [Except.map, Except.mapError] using hreq
    exact ⟨requests, rfl, ensure_ok.mp hagree⟩

/-- Every document of an accepted plan was asked for, a request of revisions comes to exactly those,
and a whole document goes only where the whole document was asked for. -/
theorem recorded_plan_requested {file : Option Bytes} {logical : Text} {state : State F}
    {flags : List Text} {plan : Plan} (h : readPublishState N file logical = .ok (some state))
    (hflags : state.retireDocs = some flags) (hplan : state.retirePlan = some plan)
    {docId : Text} {entry : PlanEntry} (hentry : plan.lookup docId = some entry) :
    (∃ flag ∈ flags, ∃ rev, parseFlag flag = some (docId, rev)) ∧
    (entry.whole = true ↔ ∃ flag ∈ flags, parseFlag flag = some (docId, none)) ∧
    (entry.whole = false →
      ∀ rev, rev ∈ entry.revs ↔ ∃ flag ∈ flags, parseFlag flag = some (docId, some rev)) := by
  have hval := readPublishState_ok h
  rw [hflags, hplan] at hval
  obtain ⟨requests, hparse, hkeys, hagree⟩ := validateRecordedRetirements_ok hval
  have hasked := parseRetireFlags_asked asked_nil hparse
  rw [List.nil_append] at hasked
  have hmem : docId ∈ requests.keys := by
    rw [hkeys, Finmap.mem_keys]
    exact Finmap.mem_iff.mpr ⟨entry, hentry⟩
  obtain ⟨selected, hsel⟩ := Finmap.mem_iff.mp (Finmap.mem_keys.mp hmem)
  have hrev : ∀ rev, rev ∈ selected ↔ ∃ flag ∈ flags, parseFlag flag = some (docId, rev) := by
    intro rev
    constructor
    · exact hasked.some_flag docId selected rev hsel
    · rintro ⟨flag, hf, hp⟩
      obtain ⟨d, r, revs, hp', hl, hr⟩ := hasked.of_flag flag hf
      obtain ⟨rfl, rfl⟩ := Prod.mk.inj (Option.some.inj (hp'.symm.trans hp))
      rw [hsel] at hl
      exact Option.some.inj hl ▸ hr
  have := hagree docId hmem
  simp only [hsel, hentry, Option.getD_some] at this
  obtain ⟨hwhole, hnamed⟩ := this
  refine ⟨?_, ?_, ?_⟩
  · obtain ⟨rev, hr⟩ := hasked.nonempty docId selected hsel
    obtain ⟨flag, hf, hp⟩ := (hrev rev).mp hr
    exact ⟨flag, hf, rev, hp⟩
  · rw [hwhole, decide_eq_true_eq, hrev]
  · intro hpart rev
    rw [hwhole, decide_eq_false_iff_not] at hpart
    rw [← hrev, ← hnamed hpart]
    simp

/-! ## What the writer records -/

/-- What the callers of the writer promise. -/
structure BuildArgs.Promised (a : BuildArgs) : Prop where
  staging : a.staging ≠ []
  genFp : a.genFp ≠ []
  corpusFp : a.corpusFp ≠ []
  previous : a.previous ≠ some []
  buildId : ∀ id, a.buildId = some id → ∃ u, canonicalBuildId id = .ok u
  fresh : a.fresh.isNil = false

theorem recordedBuildId_ok {a : BuildArgs} (ha : a.Promised) :
    ∃ id u, recordedBuildId a = .ok id ∧ canonicalBuildId id = .ok u := by
  unfold recordedBuildId
  cases hid : a.buildId with
  | none => exact ⟨_, a.fresh, rfl, canonicalBuildId_ok.mpr ⟨rfl, ha.fresh⟩⟩
  | some id =>
    obtain ⟨u, hu⟩ := ha.buildId id hid
    exact ⟨id, u, by simp [hu, Except.map], hu⟩

theorem texts_strs (ts : List Text) : texts (ts.map (Json.str (F := F))) = some ts := by
  induction ts with
  | nil => rfl
  | cons t ts ih => rw [List.map_cons, texts, ih, Option.map_some]

theorem sortKeys_strs (ts : List Text) :
    sortKeysElems (ts.map (Json.str (F := F))) = ts.map .str := by
  rw [sortKeysElems_eq, List.map_map]
  exact List.map_congr_left fun t _ => by simp [sortKeys]

theorem entryItems_nodup (e : PlanEntry) : ((entryItems (F := F) e).map Prod.fst).Nodup := by
  show [keyRevs, keyWhole].Nodup
  decide +kernel

/-- An entry reads back where it names a document and its revisions, none of them blank. -/
theorem normalizeEntry_entryItems (docId : Text) (e e' : PlanEntry) :
    normalizeEntry docId (sortKeys (.obj (entryItems (F := F) e))) = .ok e' ↔
      e' = e ∧ strip docId ≠ [] ∧ (∀ rev ∈ e.revs, strip rev ≠ []) ∧ e.revs.Nonempty := by
  have hnodup := entryItems_nodup (F := F) e
  have hrevs : get (sortedItems (entryItems (F := F) e)) keyRevs =
      .arr ((sorted e.revs).map .str) := by
    rw [get_sortedItems hnodup List.mem_cons_self, sortKeys, sortKeys_strs]
  have hwhole : get (sortedItems (entryItems (F := F) e)) keyWhole = .bool e.whole := by
    rw [get_sortedItems hnodup (List.mem_cons_of_mem _ List.mem_cons_self), sortKeys]
  have hkeys : ((sortedItems (entryItems (F := F) e)).map Prod.fst).toFinset =
      {keyRevs, keyWhole} := by
    rw [List.toFinset_eq_of_perm _ _ (sortedItems_keys _)]
    simp [entryItems]
  have hempty : sorted e.revs ≠ [] ↔ e.revs.Nonempty := by
    rw [← List.toFinset_nonempty_iff, Finset.sort_toFinset]
  rw [sortKeys_obj]
  simp only [normalizeEntry, hkeys, hrevs, hwhole, texts_strs, orRaise_some, ok_bind,
    Finset.mem_sort, Finset.sort_nodup, Finset.sort_toFinset, hempty, bind_ok, ensure_ok, pure_ok]
  constructor
  · rintro ⟨_, hdoc, _, -, _, hblank, _, -, _, hne, rfl⟩
    exact ⟨rfl, hdoc, hblank, hne⟩
  · rintro ⟨rfl, hdoc, hblank, hne⟩
    exact ⟨(), hdoc, (), trivial, (), hblank, (), trivial, (), hne, rfl⟩

theorem planItems_keys (plan : Plan) :
    (planItems (F := F) plan).map Prod.fst = sorted plan.keys := by
  rw [planItems, List.map_map]
  exact List.map_id _

theorem mem_planItems {plan : Plan} {docId : Text} {v : Json F} :
    (docId, v) ∈ planItems plan ↔ ∃ e, plan.lookup docId = some e ∧ v = .obj (entryItems e) := by
  simp only [planItems, List.mem_map, Finset.mem_sort, Finmap.mem_keys, Finmap.mem_iff,
    Prod.mk.injEq]
  constructor
  · rintro ⟨d, ⟨e, he⟩, rfl, rfl⟩
    exact ⟨e, he, by rw [he, Option.getD_some]⟩
  · rintro ⟨e, he, rfl⟩
    exact ⟨docId, ⟨e, he⟩, rfl, by rw [he, Option.getD_some]⟩

/-- The plan can be read back. -/
def Recordable (plan : Plan) : Prop :=
  ∀ docId e, plan.lookup docId = some e →
    strip docId ≠ [] ∧ (∀ rev ∈ e.revs, strip rev ≠ []) ∧ e.revs.Nonempty

theorem normalizePlan_total {items : Items F} : ∀ {start : Plan},
    (∀ x ∈ items, ∃ e, normalizeEntry x.1 x.2 = .ok e) → ∃ plan, normalizePlan items start = .ok plan := by
  induction items with
  | nil => exact fun _ => ⟨_, rfl⟩
  | cons x items ih =>
    intro start h
    obtain ⟨e, he⟩ := h x List.mem_cons_self
    obtain ⟨plan, hplan⟩ := @ih (start.insert x.1 e) fun y hy => h y (List.mem_cons_of_mem _ hy)
    exact ⟨plan, by rw [normalizePlan, he, ok_bind, hplan]⟩

theorem normalizePlan_planItems {plan plan' : Plan} :
    normalizePlan (sortedItems (planItems (F := F) plan)) ∅ = .ok plan' ↔
      plan' = plan ∧ Recordable plan := by
  have hkeys := planItems_keys (F := F) plan
  have hd : ((sortedItems (planItems (F := F) plan)).map Prod.fst).Nodup := by
    rw [(sortedItems_keys _).nodup_iff, hkeys]
    exact Finset.sort_nodup _ _
  have hmem : ∀ docId v, (docId, v) ∈ sortedItems (planItems (F := F) plan) ↔
      ∃ e, plan.lookup docId = some e ∧ v = sortKeys (.obj (entryItems e)) := by
    intro docId v
    rw [(sortedItems_perm _).mem_iff, List.mem_map]
    constructor
    · rintro ⟨⟨d, w⟩, hx, he⟩
      obtain ⟨rfl, rfl⟩ := Prod.mk.inj he
      obtain ⟨e, hl, rfl⟩ := mem_planItems.mp hx
      exact ⟨e, hl, rfl⟩
    · rintro ⟨e, hl, rfl⟩
      exact ⟨_, mem_planItems.mpr ⟨e, hl, rfl⟩, rfl⟩
  -- a plan that is read back holds the entries of the one written
  have hback : ∀ {plan'' : Plan},
      normalizePlan (sortedItems (planItems (F := F) plan)) ∅ = .ok plan'' →
        plan'' = plan ∧ Recordable plan := by
    intro plan'' h
    have hspec := normalizePlan_ok hd h
    have hentry : ∀ docId e, plan.lookup docId = some e →
        plan''.lookup docId = some e ∧ strip docId ≠ [] ∧ (∀ rev ∈ e.revs, strip rev ≠ []) ∧
          e.revs.Nonempty := by
      intro docId e hl
      obtain ⟨e', he', hl'⟩ := (hspec docId).1 _ ((hmem docId _).mpr ⟨e, hl, rfl⟩)
      obtain ⟨rfl, hok⟩ := (normalizeEntry_entryItems docId e e').mp he'
      exact ⟨hl', hok⟩
    refine ⟨Finmap.ext_lookup fun docId => ?_, fun docId e hl => (hentry docId e hl).2⟩
    cases hl : plan.lookup docId with
    | some e => exact (hentry docId e hl).1
    | none =>
      rw [(hspec docId).2, Finmap.lookup_empty]
      rw [(sortedItems_keys _).mem_iff, hkeys, Finset.mem_sort, Finmap.mem_keys]
      exact Finmap.lookup_eq_none.mp hl
  refine ⟨hback, ?_⟩
  rintro ⟨rfl, hrec⟩
  obtain ⟨plan'', h⟩ := @normalizePlan_total F (sortedItems (planItems plan')) ∅ (by
    rintro ⟨docId, v⟩ hx
    obtain ⟨e, hl, rfl⟩ := (hmem docId v).mp hx
    exact ⟨e, (normalizeEntry_entryItems docId e e).mpr ⟨rfl, hrec docId e hl⟩⟩)
  rw [h, (hback h).1]

theorem agrees_of_planned {approved requests : Requests} {plan : Plan}
    (h : planRetireDeletes approved requests = .ok plan) : agrees requests plan := by
  have hspec := planRetireDeletes_ok h
  constructor
  · ext docId
    rw [Finmap.mem_keys, Finmap.mem_keys, Finmap.mem_iff, Finmap.mem_iff]
    rcases hspec docId with ⟨hr, hp⟩ | ⟨want, entry, hr, hp, -⟩
    · simp [hr, hp]
    · simp [hr, hp]
  · intro docId hmem
    obtain ⟨selected, hsel⟩ := Finmap.mem_iff.mp (Finmap.mem_keys.mp hmem)
    rcases hspec docId with ⟨hr, -⟩ | ⟨want, entry, hr, hp, hentry⟩
    · rw [hsel] at hr
      cases hr
    · obtain ⟨history, -, -, hwhole, hrevs⟩ := planEntry_ok hentry
      simp only [hr, hp, Option.getD_some]
      refine ⟨hwhole, fun hpart => ?_⟩
      rw [hrevs, if_neg hpart, named, Finset.image_some_eraseNone, Finset.erase_eq_of_notMem hpart]

/-- The keys of a record with both retirement fields. -/
def recordKeys : List Text :=
  [keyVersion, keyBuildId, keyPrevious, keyAlias, keyStaging, keyGenFp, keyCorpusFp, keyRetireDocs,
    keyRetirePlan]

theorem payload_nodup (a : BuildArgs) (id : Text) (plan : Plan) (flags : List Text) :
    ((payload (F := F) a id (some plan) (some flags)).map Prod.fst).Nodup := by
  show recordKeys.Nodup
  decide +kernel

theorem distinctKeys_strs (ts : List Text) : distinctKeys (Json.arr (F := F) (ts.map .str)) = true := by
  refine distinctKeys_arr.mpr fun v hv => ?_
  obtain ⟨t, -, rfl⟩ := List.mem_map.mp hv
  exact distinctKeys_str t

theorem distinctKeys_planItems (plan : Plan) :
    distinctKeys (Json.obj (planItems (F := F) plan)) = true := by
  refine distinctKeys_obj.mpr ⟨planItems_keys (F := F) plan ▸ Finset.sort_nodup _ _, ?_⟩
  rintro ⟨docId, v⟩ hx
  obtain ⟨e, -, rfl⟩ := mem_planItems.mp hx
  refine distinctKeys_obj.mpr ⟨entryItems_nodup e, ?_⟩
  simp only [entryItems, List.mem_cons, List.not_mem_nil, or_false]
  rintro x (rfl | rfl)
  · exact distinctKeys_strs _
  · rfl

theorem distinctKeys_payload (a : BuildArgs) (id : Text) (plan : Plan) (flags : List Text) :
    distinctKeys (Json.obj (payload (F := F) a id (some plan) (some flags))) = true := by
  refine distinctKeys_obj.mpr ⟨payload_nodup a id plan flags, ?_⟩
  simp only [payload, List.mem_append, List.mem_cons, List.not_mem_nil, or_false]
  have hopt : distinctKeys (optStr (F := F) a.previous) = true := by
    cases a.previous <;> rfl
  rintro x ((hx | rfl) | rfl)
  · rcases hx with rfl | rfl | rfl | rfl | rfl | rfl | rfl
    · rfl
    · exact distinctKeys_str id
    · exact hopt
    · exact distinctKeys_str a.logical
    · exact distinctKeys_str a.staging
    · exact distinctKeys_str a.genFp
    · exact distinctKeys_str a.corpusFp
  · exact distinctKeys_strs flags
  · exact distinctKeys_planItems plan

end

/-- The file decodes to the text written. -/
theorem readText_encodeUtf8 (v : Json F) :
    readText (encodeUtf8 (dumps N plainStyle v)) = some (dumps N plainStyle v) := by
  have hclean : '\r' ∉ dumps N plainStyle v := by
    intro hmem
    have := mem_printable (render_printable N plainStyle (sortKeys v)) hmem
    exact absurd this (by decide)
  rw [readText, decodeUtf8_encodeUtf8, Option.map_some, universalNewlines_id hclean]

/-- The record as the reader gets it. -/
def recordItems (a : BuildArgs) (id : Text) (plan : Plan) (flags : List Text) : Items F :=
  sortedItems (payload a id (some plan) (some flags))

/-- The reader gets to the recorded removals of what the writer wrote. -/
theorem readPublishState_written {a : BuildArgs} (ha : a.Promised) {id : Text} {u : Uuid}
    (hid : canonicalBuildId id = .ok u) (plan : Plan) (flags : List Text) :
    readPublishState N (some (encodeUtf8 (dumps N plainStyle
        (.obj (payload a id (some plan) (some flags)))))) a.logical =
      (validateRecordedRetirements (recordItems (F := F) a id plan flags)).map
        fun r => some ⟨recordItems a id plan flags, r.1, r.2⟩ := by
  have hd := payload_nodup (F := F) a id plan flags
  have hget : ∀ k v, (k, v) ∈ payload (F := F) a id (some plan) (some flags) →
      get (recordItems (F := F) a id plan flags) k = sortKeys v := fun k v h => get_sortedItems hd h
  have hstr : ∀ k t, (k, .str t) ∈ payload (F := F) a id (some plan) (some flags) →
      get (recordItems (F := F) a id plan flags) k = .str t := by
    intro k t h
    rw [hget k _ h, sortKeys]
  have hversion : version (recordItems (F := F) a id plan flags) = some publishStateVersion := by
    rw [version, hget keyVersion (.int publishStateVersion) (by simp [payload])]
    rfl
  have hrecognized : recognized a.logical (recordItems (F := F) a id plan flags) = true := by
    rw [recognized, hversion, hstr keyAlias a.logical (by simp [payload]),
      hstr keyStaging a.staging (by simp [payload]), hstr keyGenFp a.genFp (by simp [payload]),
      hstr keyCorpusFp a.corpusFp (by simp [payload])]
    simp [nonemptyStr, ha.staging, ha.genFp, ha.corpusFp]
  have hprevious : (recordItems (F := F) a id plan flags).lookup keyPrevious =
      some (optStr a.previous) := by
    have hmem : (keyPrevious, optStr a.previous) ∈ payload (F := F) a id (some plan) (some flags) := by
      simp [payload]
    rw [recordItems, lookup_sortedItems hd, (lookup_eq_some hd).mpr hmem]
    cases a.previous <;> rfl
  have hidentified : identified (recordItems (F := F) a id plan flags) = true := by
    rw [identified, hstr keyBuildId id (by simp [payload]), hprevious]
    have hok : (canonicalBuildId id).isOk = true := by rw [hid]; rfl
    cases hp : a.previous with
    | none => simp [optStr, hok]
    | some t =>
      have : t ≠ [] := fun e => ha.previous (by rw [hp, e])
      simp [optStr, hok, nonemptyStr, this]
  have hdistinct := distinctKeys_payload (F := F) a id plan flags
  rw [← distinctKeys_sortKeys, sortKeys_obj, ← recordItems] at hdistinct
  have hloads : loads N (dumps N plainStyle (.obj (payload a id (some plan) (some flags)))) =
      some (.obj (recordItems a id plan flags)) := by
    rw [dumps, sortKeys_obj, loads_render, recordItems]
  simp only [readPublishState, readText_encodeUtf8, hloads, orRaise_some, ok_bind,
    ensure_true _ hdistinct, ensure_true _ hrecognized]
  rw [ensure_true _ fun _ => hidentified, ok_bind]
  cases validateRecordedRetirements (recordItems (F := F) a id plan flags) <;> rfl

/-- The recorded removals of what was written, where the plan can be read back. -/
theorem validateRecordedRetirements_written {a : BuildArgs} {id : Text} {plan : Plan}
    {flags : List Text} {requests : Requests} (hparse : parseRetireFlags flags ∅ = .ok requests)
    (hagrees : agrees requests plan) {r : Option (List Text) × Option Plan} :
    validateRecordedRetirements (recordItems (F := F) a id plan flags) = .ok r ↔
      r = (some flags, some plan) ∧ Recordable plan := by
  have hd := payload_nodup (F := F) a id plan flags
  have hdocs : recordedFlags (recordItems (F := F) a id plan flags) = .ok (some flags) := by
    have hmem : (keyRetireDocs, .arr (flags.map .str)) ∈
        payload (F := F) a id (some plan) (some flags) := by simp [payload]
    rw [recordedFlags, recordItems, lookup_sortedItems hd, (lookup_eq_some hd).mpr hmem,
      Option.map_some, sortKeys, sortKeys_strs]
    simp only [texts_strs, orRaise_some]
    rfl
  have hrequests : recordedRequests (some flags) = .ok (some requests) := by
    rw [recordedRequests, hparse]
    rfl
  have hplan : recordedPlan (recordItems (F := F) a id plan flags) =
      (normalizePlan (sortedItems (planItems (F := F) plan)) ∅).map some := by
    have hmem : (keyRetirePlan, .obj (planItems plan)) ∈
        payload (F := F) a id (some plan) (some flags) := by simp [payload]
    rw [recordedPlan, recordItems, lookup_sortedItems hd, (lookup_eq_some hd).mpr hmem,
      Option.map_some, sortKeys_obj]
  simp only [validateRecordedRetirements, hdocs, hrequests, hplan, ok_bind, bind_ok, pure_ok]
  constructor
  · rintro ⟨recorded, hrec, _, -, rfl⟩
    cases hn : normalizePlan (sortedItems (planItems (F := F) plan)) ∅ with
    | error e =>
      rw [hn] at hrec
      cases hrec
    | ok plan' =>
      rw [hn] at hrec
      obtain ⟨rfl, hok⟩ := normalizePlan_planItems.mp hn
      obtain rfl : some plan' = recorded := by simpa [Except.map] using hrec
      exact ⟨rfl, hok⟩
  · rintro ⟨rfl, hok⟩
    refine ⟨some plan, ?_, (), ?_, rfl⟩
    · rw [normalizePlan_planItems.mpr ⟨rfl, hok⟩]
      rfl
    · exact ensure_ok.mpr hagrees

/-! ## Which plans are read back -/

/-- Every document asked for as a whole has approved revisions, and none of them is blank. -/
def WholeNamed (flags : List Text) (inventory : List (InventoryRecord F))
    (catalog : List (Text × Finset Text)) : Prop :=
  ∀ flag ∈ flags, '@' ∉ flag →
    let revs := named (((approvals inventory catalog).lookup (strip flag)).getD ∅)
    revs.Nonempty ∧ ∀ rev ∈ revs, strip rev ≠ []

theorem recordable_iff {flags : List Text} {inventory : List (InventoryRecord F)}
    {catalog : List (Text × Finset Text)} {plan : Plan}
    (h : planApprovedRemovals flags inventory catalog = .ok plan) :
    Recordable plan ↔ WholeNamed flags inventory catalog := by
  obtain ⟨requested, -, hasked, hplan⟩ := planApprovedRemovals_ok h
  have hspec := planRetireDeletes_ok hplan
  constructor
  · intro hrec flag hflag hat
    obtain ⟨docId, rev, want, hparse, hwant, hmem⟩ := hasked.of_flag flag hflag
    obtain ⟨hdoc, -, hnone, -⟩ := parseFlag_some hparse
    obtain rfl := hnone.mpr hat
    have hself : flag.takeWhile (· ≠ '@') = flag :=
      List.takeWhile_eq_self_iff.mpr fun c hc => by
        have : c ≠ '@' := fun e => hat (e ▸ hc)
        simp [this]
    rw [hself] at hdoc
    subst hdoc
    rcases hspec (strip flag) with ⟨hl, -⟩ | ⟨want', entry, hl, hentry, hok⟩
    · rw [hwant] at hl
      cases hl
    · obtain rfl : want = want' := Option.some.inj (hwant.symm.trans hl)
      obtain ⟨history, hhist, -, -, hrevs⟩ := planEntry_ok hok
      obtain ⟨-, hblank, hne⟩ := hrec _ entry hentry
      rw [if_pos hmem] at hrevs
      simp only [hhist, Option.getD_some, ← hrevs]
      exact ⟨hne, hblank⟩
  · intro hnamed docId entry hentry
    rcases hspec docId with ⟨-, hl⟩ | ⟨want, entry', hwant, hl, hok⟩
    · rw [hentry] at hl
      cases hl
    obtain rfl : entry = entry' := Option.some.inj (hentry.symm.trans hl)
    obtain ⟨history, hhist, -, -, hrevs⟩ := planEntry_ok hok
    obtain ⟨rev, hrev⟩ := hasked.nonempty docId want hwant
    obtain ⟨flag, hflag, hparse⟩ := hasked.some_flag docId want rev hwant hrev
    obtain ⟨hdoc, hdocne, -, -⟩ := parseFlag_some hparse
    refine ⟨hdoc ▸ strip_strip_ne_nil (hdoc ▸ hdocne), ?_⟩
    by_cases hwhole : none ∈ want
    · obtain ⟨flag, hflag, hparse⟩ := hasked.some_flag docId want none hwant hwhole
      obtain ⟨hdoc, -, hat, -⟩ := parseFlag_some hparse
      have hno := hat.mp rfl
      have hself : flag.takeWhile (· ≠ '@') = flag :=
        List.takeWhile_eq_self_iff.mpr fun c hc => by
          have : c ≠ '@' := fun e => hno (e ▸ hc)
          simp [this]
      have := hnamed flag hflag hno
      rw [hdoc, hself] at hhist
      simp only [hhist, Option.getD_some] at this
      rw [hrevs, if_pos hwhole]
      exact ⟨this.2, this.1⟩
    · rw [hrevs, if_neg hwhole]
      constructor
      · intro r hr
        obtain ⟨flag, -, hparse⟩ := hasked.some_flag docId want (some r) hwant
          (Finset.mem_eraseNone.mp hr)
        exact (parseFlag_some hparse).2.2.2 r rfl
      · cases rev with
        | none => exact absurd hrev hwhole
        | some r => exact ⟨r, Finset.mem_eraseNone.mpr hrev⟩

/-- The plan and the flags come back from the sidecar. -/
def ReadBack (a : BuildArgs) (plan : Plan) (flags : List Text) : Prop :=
  ∃ bytes state, writePublishState N a (some plan) (some flags) = .ok bytes ∧
    readPublishState N (some bytes) a.logical = .ok (some state) ∧
    state.retirePlan = some plan ∧ state.retireDocs = some flags

theorem read_write_iff {a : BuildArgs} (ha : a.Promised) {flags : List Text}
    {inventory : List (InventoryRecord F)} {catalog : List (Text × Finset Text)} {plan : Plan}
    (h : planApprovedRemovals flags inventory catalog = .ok plan) :
    ReadBack N a plan flags ↔ WholeNamed flags inventory catalog := by
  obtain ⟨requested, hparse, -, hplan⟩ := planApprovedRemovals_ok h
  obtain ⟨id, u, hid, hu⟩ := recordedBuildId_ok ha
  have hwrite : writePublishState N a (some plan) (some flags) =
      .ok (encodeUtf8 (dumps N plainStyle (.obj (payload a id (some plan) (some flags))))) := by
    simp only [writePublishState, hid, ok_bind]
    rfl
  have hread := readPublishState_written N ha hu plan flags
  have hval := fun r => @validateRecordedRetirements_written F a id plan flags requested hparse
    (agrees_of_planned hplan) r
  rw [← recordable_iff h]
  constructor
  · rintro ⟨bytes, state, hbytes, hstate, hplan', hflags'⟩
    rw [hwrite, Except.ok.injEq] at hbytes
    subst hbytes
    cases hv : validateRecordedRetirements (recordItems (F := F) a id plan flags) with
    | error e =>
      rw [hread, hv] at hstate
      cases hstate
    | ok r => exact ((hval r).mp hv).2
  · intro hrec
    refine ⟨_, ⟨recordItems a id plan flags, some flags, some plan⟩, hwrite, ?_, rfl, rfl⟩
    rw [hread, (hval (some flags, some plan)).mpr ⟨rfl, hrec⟩]
    rfl

/-- The removal authorization: never widened by what is read, and not lost exactly where whole
documents have revisions to name. -/
theorem authorization_kept {a : BuildArgs} (ha : a.Promised) {flags : List Text}
    {inventory : List (InventoryRecord F)} {catalog : List (Text × Finset Text)} {plan : Plan}
    (h : planApprovedRemovals flags inventory catalog = .ok plan) :
    (ReadBack N a plan flags ↔ WholeNamed flags inventory catalog) ∧
    ∀ (file : Option Bytes) (logical : Text) (state : State F) (flags : List Text) (plan : Plan),
      readPublishState N file logical = .ok (some state) → state.retireDocs = some flags →
      state.retirePlan = some plan → ∀ (docId : Text) (entry : PlanEntry),
        plan.lookup docId = some entry →
        (∃ flag ∈ flags, ∃ rev, parseFlag flag = some (docId, rev)) ∧
        (entry.whole = true ↔ ∃ flag ∈ flags, parseFlag flag = some (docId, none)) ∧
        (entry.whole = false →
          ∀ rev, rev ∈ entry.revs ↔ ∃ flag ∈ flags, parseFlag flag = some (docId, some rev)) :=
  ⟨read_write_iff N ha h, fun _ _ _ _ _ hread hflags hplan _ _ hentry =>
    recorded_plan_requested hread hflags hplan hentry⟩

/-- A build with nothing special about it. -/
def someBuild : BuildArgs where
  logical := "corpus".toList
  staging := "corpus__gen".toList
  genFp := "g".toList
  corpusFp := "c".toList
  buildId := none
  previous := none
  fresh := Uuid.ones

theorem someBuild_promised : someBuild.Promised where
  staging := List.cons_ne_nil _ _
  genFp := List.cons_ne_nil _ _
  corpusFp := List.cons_ne_nil _ _
  previous := nofun
  buildId := nofun
  fresh := rfl

/-- One upserted document under a revision. -/
def upsertedUnder (rev : Text) : InventoryRecord Unit where
  path := "p".toList
  sha256 := "s".toList
  docId := some "D".toList
  status := "upserted".toList
  seconds := ()
  sourceRev := some rev
  finishedAt := ()

def wholeFlag : Text := "D".toList

theorem planned_of_isOk {flags : List Text} {inventory : List (InventoryRecord F)}
    {catalog : List (Text × Finset Text)}
    (h : (planApprovedRemovals flags inventory catalog).isOk = true) :
    ∃ plan, planApprovedRemovals flags inventory catalog = .ok plan := by
  cases hp : planApprovedRemovals flags inventory catalog with
  | ok plan => exact ⟨plan, rfl⟩
  | error e =>
    rw [hp] at h
    cases h

/-- A named revision comes back. -/
theorem authorization_kept_named : ∃ plan,
    planApprovedRemovals [wholeFlag] [upsertedUnder wholeFlag] [] = .ok plan ∧
      ReadBack halves someBuild plan [wholeFlag] := by
  obtain ⟨plan, h⟩ := @planned_of_isOk Unit [wholeFlag] [upsertedUnder wholeFlag] []
    (by decide +kernel)
  refine ⟨plan, h, (authorization_kept halves someBuild_promised h).1.mpr ?_⟩
  unfold WholeNamed
  decide +kernel

/-- A document whose approved revision is the empty text: its plan is made, written and refused. -/
theorem blank_revision_stranded : ∃ plan,
    planApprovedRemovals [wholeFlag] [upsertedUnder []] [] = .ok plan ∧
      ¬ ReadBack halves someBuild plan [wholeFlag] := by
  obtain ⟨plan, h⟩ := @planned_of_isOk Unit [wholeFlag] [upsertedUnder []] [] (by decide +kernel)
  refine ⟨plan, h, fun hback => ?_⟩
  have := (read_write_iff halves someBuild_promised h).mp hback
  revert this
  unfold WholeNamed
  decide +kernel

end MainframeRag.Ingest.PublishState
