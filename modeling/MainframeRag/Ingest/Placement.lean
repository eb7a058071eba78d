import MainframeRag.Lib.JsonText
import MainframeRag.Lib.Keyed

/-!
# Replica placement

`evaluate_collection_placement` of `ingest/placement.py`: the verdict on one collection from what the
peers report about it. Copies are kept per (shard, peer), the last report of a peer winning.

A verdict is sound and does not depend on the order of the observations where no two reports of a
peer disagree about one of its own copies; `placement_sound` says that nothing else is needed, and
that lists which some order calls healthy do need it.
-/

namespace MainframeRag.Ingest.Placement

open PyText JsonText

/-! ## Observations -/

/-- `CollectionObservation` -/
structure Observation where
  collection : Text
  endpoint : Text
  reachable : Bool
  peerId : Option Int := none
  shardCount : Option Int := none
  localShards : List (Int × Text) := []
  remoteShards : List (Int × Int × Text) := []
  transfers : List (Int × Int × Int) := []
  missing : Bool := false
  error : Option Text := none

/-- `PlacementPolicy` for which `problems()` is empty. -/
structure Policy where
  shardNumber : Int
  replicationFactor : Int
  writeConsistencyFactor : Int
  shard_pos : 1 ≤ shardNumber
  replication_pos : 1 ≤ replicationFactor
  consistency_pos : 1 ≤ writeConsistencyFactor
  acknowledged : writeConsistencyFactor ≤ replicationFactor

/-- The keys of `_STATE_RANK`. -/
inductive State
  | healthy
  | degraded
  | recovering
  | unservable
  | unverifiable
  deriving DecidableEq

/-- `_STATE_RANK` -/
def State.rank : State → Nat
  | .healthy => 0
  | .degraded => 1
  | .recovering => 2
  | .unservable => 3
  | .unverifiable => 4

/-- `_state_from_rank` -/
def stateFromRank (rank : Nat) : State :=
  match rank with
  | 0 => .healthy
  | 1 => .degraded
  | 2 => .recovering
  | 3 => .unservable
  | _ => .unverifiable

@[simp] theorem stateFromRank_rank (s : State) : stateFromRank s.rank = s := by cases s <;> rfl

theorem stateFromRank_healthy {n : Nat} (h : stateFromRank n = .healthy) : n = 0 := by
  unfold stateFromRank at h
  split at h
  · rfl
  all_goals cases h

structure ShardVerdict where
  shardId : Int
  state : State
  activePeers : List Int
  observedPeers : List Int
  detail : Text

structure Verdict where
  collection : Text
  state : State
  problems : List Text
  shards : List ShardVerdict

def activeName : Text := "ACTIVE".toList

/-- `_NON_SERVING_DETAIL` -/
def nonServingDetail : List (Text × Text) :=
  [("INITIALIZING".toList, "initializing".toList), ("RECOVERY".toList, "recovering".toList),
    ("PARTIAL".toList, "partial".toList), ("PARTIALSNAPSHOT".toList, "partial snapshot".toList),
    ("RESHARDING".toList, "resharding".toList),
    ("RESHARDINGSCALEDOWN".toList, "resharding scale-down".toList),
    ("MANUALRECOVERY".toList, "manual recovery".toList),
    ("ACTIVEREAD".toList, "active-read (read-only)".toList), ("DEAD".toList, "dead".toList),
    ("LISTENER".toList, "listener (not serving reads)".toList)]

/-! ## Texts of the problems -/

def join (sep : String) (parts : List Text) : Text := sep.toList.intercalate parts

/-- `sorted` of integers. -/
def sortedInts (l : List Int) : List Int := l.insertionSort (· ≤ ·)

/-- A list of integers as Python prints it. -/
def printed (l : List Int) : Text := '[' :: join ", " (l.map decimal) ++ [']']

def printedSet (l : List Int) : Text := printed (sortedInts l.dedup)

def endpoints (views : List Observation) : Text := join ", " (views.map Observation.endpoint)

def unreachableNote (view : Observation) : Text :=
  view.endpoint ++ ": ".toList ++
    match view.error with
    | none => "unreachable".toList
    | some e => if e = [] then "unreachable".toList else e

def unreachableNotes (unreachable : List Observation) : Text :=
  if unreachable = [] then "no endpoints".toList else join ", " (unreachable.map unreachableNote)

/-! ## Early refusals -/

def refused (collection : Text) (state : State) (problem : Text) : Verdict :=
  ⟨collection, state, [problem], []⟩

def isForeign (accepted : List Int) (view : Observation) : Bool :=
  match view.peerId with
  | none => true
  | some p => p ∉ accepted

/-- The checks before any report is read; `views` are the observations of the collection. -/
def refusal (collection : Text) (views : List Observation) (accepted : List Int) : Option Verdict :=
  let reachable := views.filter (·.reachable)
  let unreachable := views.filter (!·.reachable)
  let absent := reachable.filter (·.missing)
  let present := reachable.filter (!·.missing)
  let anonymous := present.filter (·.peerId.isNone)
  let foreign := present.filter (isForeign accepted)
  if accepted = [] then
    some (refused collection .unverifiable (collection ++
      (": accepted cluster membership is not established; " ++
        "placement cannot be judged").toList))
  else if reachable = [] then
    some (refused collection .unverifiable (collection ++
      ": no peer endpoint reachable; topology cannot be observed (".toList ++
      unreachableNotes unreachable ++ ")".toList))
  else if absent ≠ [] ∧ present = [] then
    some (refused collection .unservable
      (collection ++ ": collection absent on every reachable peer".toList))
  else if absent ≠ [] then
    some (refused collection .unverifiable (collection ++ ": present on ".toList ++
      endpoints present ++ " but absent on ".toList ++ endpoints absent ++
      " — peers disagree on the required collection".toList))
  else if anonymous ≠ [] then
    some (refused collection .unverifiable (collection ++ ": peer id unreadable from ".toList ++
      endpoints anonymous))
  else if foreign ≠ [] then
    some (refused collection .unverifiable (collection ++ ": endpoint(s) ".toList ++
      endpoints foreign ++ " report peer id(s) ".toList ++
      printed (sortedInts (foreign.filterMap (·.peerId))) ++
      " outside the accepted cluster membership ".toList ++ printedSet accepted ++
      " — refusing a foreign topology".toList))
  else none

/-! ## Reports -/

/-- What a peer says about its own copy of a shard. -/
structure Copy where
  shard : Int
  peer : Int
  state : Text
  deriving DecidableEq

def Copy.key (c : Copy) : Int × Int := (c.shard, c.peer)

/-- The local shards of a view whose shard count is readable. -/
def ownReports (view : Observation) : List Copy :=
  match view.shardCount, view.peerId with
  | some _, some p => view.localShards.map fun r => ⟨r.1, p, r.2⟩
  | _, _ => []

def reports (present : List Observation) : List Copy := present.flatMap ownReports

/-- `local` -/
def localCopies (present : List Observation) : Keyed Copy Copy.key :=
  Keyed.empty.upsertAll (reports present)

def voteOf (view : Observation) : Option Int := view.shardCount

/-- `shard_count_votes` -/
def votes (present : List Observation) : List Int := present.filterMap voteOf

/-- `transfers` -/
def transfersOf (present : List Observation) : List (Int × Int × Int) :=
  present.flatMap fun view => if view.shardCount.isNone then [] else view.transfers

def countProblem (view : Observation) : Option Text :=
  if view.shardCount.isNone then
    some (view.endpoint ++ ": shard count unknown/unreadable".toList)
  else none

/-- What is wrong with one remote report. -/
def remoteProblem (present : List Observation) (accepted : List Int) (endpoint : Text)
    (r : Int × Int × Text) : Option Text :=
  if r.2.1 ∉ accepted then
    some ("shard ".toList ++ decimal r.1 ++ ": ".toList ++ endpoint ++ " names peer ".toList ++
      decimal r.2.1 ++ " outside the accepted cluster membership ".toList ++
      printedSet accepted ++ " — refusing a foreign topology".toList)
  else if r.2.1 ∉ present.filterMap (·.peerId) then none
  else match (localCopies present).find (r.1, r.2.1) with
    | none =>
      some ("shard ".toList ++ decimal r.1 ++ ": ".toList ++ endpoint ++
        " reports a copy on peer ".toList ++ decimal r.2.1 ++
        " that peer's own report omits — observations are incomplete".toList)
    | some c =>
      if c.state ≠ r.2.2 then
        some ("shard ".toList ++ decimal r.1 ++ ": peer ".toList ++ decimal r.2.1 ++
          " reports ".toList ++ c.state ++ " about itself while ".toList ++ endpoint ++
          " reports ".toList ++ r.2.2 ++ " — observations disagree".toList)
      else none

def reportProblems (present : List Observation) (accepted : List Int) : List Text :=
  present.filterMap countProblem ++ present.flatMap fun view =>
    view.remoteShards.filterMap (remoteProblem present accepted view.endpoint)

/-- The shard ids outside `range(shard_count)` that a view names. -/
def outside (shardCount : Int) (view : Observation) : List Int :=
  (view.localShards.map Prod.fst ++ view.remoteShards.map Prod.fst).filter fun s =>
    !(decide (0 ≤ s ∧ s < shardCount))

/-! ## Shards -/

def activePeers (copies : List Copy) : List Int :=
  (copies.filter (·.state = activeName)).map Copy.peer

def idleStates (copies : List Copy) : List Text :=
  (copies.filter (·.state ≠ activeName)).map Copy.state

def unknownStates (copies : List Copy) : List Text :=
  (idleStates copies).filter fun s => (nonServingDetail.lookup s).isNone

def idleDetails (copies : List Copy) : Text :=
  join ", " ((sorted (idleStates copies).toFinset).map fun s =>
    (nonServingDetail.lookup s).getD [])

/-- What was seen of one shard. -/
structure Seen where
  copies : List Copy
  replication : Int
  transferring : Bool
  unreachable : Nat

def Seen.activeOf (s : Seen) : Text :=
  decimal (activePeers s.copies).length ++ "/".toList ++ decimal s.replication

def Seen.idleNote (s : Seen) : Text :=
  if idleStates s.copies = [] then []
  else "; non-serving states: ".toList ++ idleDetails s.copies

def Seen.unreachableNote (s : Seen) : Text :=
  decimal s.unreachable ++ " peer endpoint(s) unreachable".toList

/-- The state of a shard and the detail of its verdict. -/
def Seen.judge (s : Seen) : State × Text :=
  if s.copies = [] then
    if s.unreachable = 0 then (.unservable, "no copy observed on any peer".toList)
    else (.unverifiable, "no copy observed on any reachable peer (".toList ++ s.unreachableNote ++
      ")".toList)
  else if unknownStates s.copies ≠ [] then
    (.unverifiable, "unrecognized replica state(s): ".toList ++
      join ", " ((unknownStates s.copies).insertionSort (· ≤ ·)))
  else if activePeers s.copies = [] then
    (if idleStates s.copies ≠ [] then .recovering
      else if s.unreachable = 0 then .unservable else .unverifiable,
      "no ACTIVE copy on any reachable peer".toList ++ s.idleNote)
  else if ((activePeers s.copies).length : Int) < s.replication then
    (if idleStates s.copies ≠ [] ∨ s.transferring then .recovering else .degraded,
      "only ".toList ++ s.activeOf ++ " ACTIVE copies".toList ++
      (if s.unreachable = 0 then [] else "; ".toList ++ s.unreachableNote) ++ s.idleNote)
  else if idleStates s.copies ≠ [] then
    (.recovering, "ACTIVE copies meet policy but stale copies remain: ".toList ++
      idleDetails s.copies)
  else (.healthy, s.activeOf ++ " ACTIVE copies on distinct peers".toList)

/-- What the present views say about a shard. -/
def seen (present : List Observation) (unreachable : Nat) (policy : Policy) (shard : Int) : Seen where
  copies := (localCopies present).items.filter (·.shard = shard)
  replication := policy.replicationFactor
  transferring := (transfersOf present) ≠ []
  unreachable := unreachable

def shardVerdict (present : List Observation) (unreachable : Nat) (policy : Policy) (shard : Int) :
    ShardVerdict :=
  let s := seen present unreachable policy shard
  ⟨shard, s.judge.1, sortedInts (activePeers s.copies), sortedInts (s.copies.map Copy.peer),
    s.judge.2⟩

def shardProblem (v : ShardVerdict) : Option Text :=
  if v.state = .healthy then none
  else some ("shard ".toList ++ decimal v.shardId ++ ": ".toList ++ v.detail)

def transferNote (r : Int × Int × Int) : Text :=
  "shard ".toList ++ decimal r.1 ++ ": replica transfer in progress (peer ".toList ++
    decimal r.2.1 ++ " -> peer ".toList ++ decimal r.2.2 ++ ")".toList

/-! ## The verdict -/

/-- `range(n)` -/
def shardIds (n : Int) : List Int := (List.range n.toNat).map Int.ofNat

def shardRanks (shards : List State) (transferring : Bool) : List Nat :=
  State.healthy.rank :: shards.map State.rank ++
    if transferring then [State.recovering.rank] else []

/-- `ranks` -/
def ranks (shards : List State) (transferring : Bool) (unreachable : Nat) : List Nat :=
  if unreachable ≠ 0 ∧ ∀ r ∈ shardRanks shards transferring, r < State.unverifiable.rank then
    shardRanks shards transferring ++ [State.degraded.rank]
  else shardRanks shards transferring

def worst (ranks : List Nat) : State := stateFromRank (ranks.foldl max 0)

/-- The verdict once every view is a member's and all reports agree on the declared shards. -/
def judged (collection : Text) (present : List Observation) (unreachable : Nat) (policy : Policy) :
    Verdict :=
  let shards := (shardIds policy.shardNumber).map (shardVerdict present unreachable policy)
  let transfers := transfersOf present
  ⟨collection, worst (ranks (shards.map ShardVerdict.state) (transfers ≠ []) unreachable),
    shards.filterMap shardProblem ++
      if transfers = [] then [] else [join "; " (transfers.map transferNote)],
    shards⟩

/-- The verdict from the first shard count on. -/
def counted (collection : Text) (present : List Observation) (unreachable : Nat) (policy : Policy)
    (shardCount : Int) : Verdict :=
  if (votes present).toFinset.card ≠ 1 then
    refused collection .unverifiable (collection ++ ": peers disagree on shard_count (".toList ++
      printedSet (votes present) ++ "); observations are incomplete".toList)
  else if shardCount ≠ policy.shardNumber then
    refused collection (if shardCount > policy.shardNumber then .unverifiable else .unservable)
      (collection ++ ": observed shard_count=".toList ++ decimal shardCount ++
        " != expected ".toList ++ decimal policy.shardNumber)
  else if present.flatMap (outside shardCount) ≠ [] then
    refused collection .unverifiable (collection ++ ": observed shard id(s) ".toList ++
      printedSet (present.flatMap (outside shardCount)) ++
      " outside the declared shard set 0..".toList ++ decimal (shardCount - 1) ++
      " — refusing an unsupported layout".toList)
  else judged collection present unreachable policy

/-- The verdict on the views that no early check refuses. -/
def compared (collection : Text) (present : List Observation) (unreachable : Nat) (policy : Policy)
    (accepted : List Int) : Verdict :=
  if reportProblems present accepted ≠ [] then
    ⟨collection, .unverifiable, reportProblems present accepted, []⟩
  else match (votes present).head? with
    | none => refused collection .unverifiable (collection ++ ": shard count unknown".toList)
    | some shardCount => counted collection present unreachable policy shardCount

/-- The observations of the collection. -/
def viewsOf (collection : Text) (observations : List Observation) : List Observation :=
  observations.filter (·.collection = collection)

def presentOf (views : List Observation) : List Observation :=
  (views.filter (·.reachable)).filter (!·.missing)

/-- `evaluate_collection_placement`; the policy is valid, so `shard_number < 1` does not occur. -/
def evaluateCollectionPlacement (collection : Text) (observations : List Observation)
    (policy : Policy) (accepted : List Int) : Verdict :=
  let views := viewsOf collection observations
  match refusal collection views accepted with
  | some v => v
  | none =>
    compared collection (presentOf views) (views.filter (!·.reachable)).length policy accepted

/-! ## What the checks establish -/

theorem nil_iff_of_perm {α : Type} {l m : List α} (h : l.Perm m) : l = [] ↔ m = [] := by
  constructor
  · rintro rfl
    exact h.nil_eq.symm
  · rintro rfl
    exact h.eq_nil

/-- The views that pass the early checks. -/
structure Admitted (views : List Observation) (accepted : List Int) : Prop where
  members : accepted ≠ []
  answered : views.filter (·.reachable) ≠ []
  held : (views.filter (·.reachable)).filter (·.missing) = []
  own : ∀ v ∈ presentOf views, ∃ p ∈ accepted, v.peerId = some p

theorem isForeign_eq_false {accepted : List Int} {v : Observation} :
    isForeign accepted v = false ↔ ∃ p ∈ accepted, v.peerId = some p := by
  unfold isForeign
  cases h : v.peerId with
  | none => simp
  | some p => simp

theorem refusal_eq_none {c : Text} {views : List Observation} {accepted : List Int} :
    refusal c views accepted = none ↔ Admitted views accepted := by
  unfold refusal
  constructor
  · intro h
    dsimp only at h
    split at h
    · cases h
    rename_i hm
    split at h
    · cases h
    rename_i hr
    split at h
    · cases h
    split at h
    · cases h
    rename_i ha
    split at h
    · cases h
    split at h
    · cases h
    rename_i hf
    refine ⟨hm, hr, by simpa using ha, fun v hv => isForeign_eq_false.mp ?_⟩
    rw [ne_eq, not_not, List.filter_eq_nil_iff] at hf
    simpa using hf v hv
  · intro h
    have hf : ((views.filter (·.reachable)).filter (!·.missing)).filter (isForeign accepted) = [] := by
      rw [List.filter_eq_nil_iff]
      intro v hv
      simpa using isForeign_eq_false.mpr (h.own v hv)
    have ho : ((views.filter (·.reachable)).filter (!·.missing)).filter (·.peerId.isNone) = [] := by
      rw [List.filter_eq_nil_iff]
      intro v hv
      obtain ⟨p, _, hp⟩ := h.own v hv
      simp [hp]
    dsimp only
    rw [if_neg h.members, if_neg h.answered, h.held, hf, ho, if_neg fun hh => hh.1 rfl,
      if_neg fun hh => hh rfl, if_neg fun hh => hh rfl, if_neg fun hh => hh rfl]

/-- The state of a refusal: unservable where a member answers and none holds the collection. -/
theorem refusal_state {c : Text} {views : List Observation} {accepted : List Int} {v : Verdict}
    (h : refusal c views accepted = some v) :
    v.state = if accepted ≠ [] ∧ views.filter (·.reachable) ≠ [] ∧ presentOf views = [] then
      .unservable else .unverifiable := by
  unfold refusal at h
  dsimp only at h
  split at h
  · rename_i hm
    cases h
    rw [if_neg fun hh => hh.1 hm]
    rfl
  rename_i hm
  split at h
  · rename_i hr
    cases h
    rw [if_neg fun hh => hh.2.1 hr]
    rfl
  rename_i hr
  split at h
  · rename_i ha
    cases h
    rw [if_pos ⟨hm, hr, ha.2⟩, refused]
  rename_i ha
  have hp : presentOf views ≠ [] := by
    intro hp
    have hn : (views.filter (·.reachable)).filter (·.missing) = [] := by
      by_contra hne
      exact ha ⟨hne, hp⟩
    obtain ⟨w, hw⟩ := List.exists_mem_of_ne_nil _ hr
    rw [List.filter_eq_nil_iff] at hn
    rw [presentOf, List.filter_eq_nil_iff] at hp
    have h1 := hn w hw
    have h2 := hp w hw
    cases hmw : w.missing <;> simp [hmw] at h1 h2
  rw [if_neg (fun hh => hp hh.2.2)]
  split at h
  · cases h
    rfl
  split at h
  · cases h
    rfl
  split at h
  · cases h
    rfl
  · cases h

theorem remoteProblem_eq_none {present : List Observation} {accepted : List Int} {e : Text}
    {r : Int × Int × Text} :
    remoteProblem present accepted e r = none ↔ r.2.1 ∈ accepted ∧
      (r.2.1 ∈ present.filterMap (·.peerId) → ⟨r.1, r.2.1, r.2.2⟩ ∈ localCopies present) := by
  unfold remoteProblem
  by_cases ha : r.2.1 ∈ accepted
  swap
  · simp [ha]
  rw [if_neg (not_not.mpr ha)]
  by_cases hp : r.2.1 ∈ present.filterMap (·.peerId)
  swap
  · rw [if_pos hp]
    exact ⟨fun _ => ⟨ha, fun h => absurd h hp⟩, fun _ => rfl⟩
  rw [if_neg (not_not.mpr hp)]
  have hkey : ∀ c : Copy, c.key = (r.1, r.2.1) → c = ⟨r.1, r.2.1, c.state⟩ := by
    rintro ⟨s, p, st⟩ hk
    cases hk
    rfl
  cases hf : (localCopies present).find (r.1, r.2.1) with
  | none =>
    simp only [reduceCtorEq, false_iff]
    intro h
    exact (Keyed.find_eq_none.mp hf) _ (h.2 hp) rfl
  | some c =>
    obtain ⟨hc, hk⟩ := Keyed.find_eq_some.mp hf
    by_cases hs : c.state = r.2.2
    · simp only [hs, ne_eq, not_true_eq_false, if_false, true_iff]
      refine ⟨ha, fun _ => ?_⟩
      rw [← hs, ← hkey c hk]
      exact hc
    · simp only [ne_eq, hs, not_false_eq_true, if_true, reduceCtorEq, false_iff]
      intro h
      have heq : c = ⟨r.1, r.2.1, r.2.2⟩ := Keyed.eq_of_key hc (h.2 hp) hk
      exact hs (by rw [heq])

theorem reportProblems_eq_nil {present : List Observation} {accepted : List Int} :
    reportProblems present accepted = [] ↔
      (∀ v ∈ present, v.shardCount.isSome) ∧ ∀ v ∈ present, ∀ r ∈ v.remoteShards,
        r.2.1 ∈ accepted ∧ (r.2.1 ∈ present.filterMap (·.peerId) →
          ⟨r.1, r.2.1, r.2.2⟩ ∈ localCopies present) := by
  have h1 : ∀ v : Observation, countProblem v = none ↔ v.shardCount.isSome := by
    intro v
    unfold countProblem
    cases v.shardCount <;> simp
  unfold reportProblems
  rw [List.append_eq_nil_iff, List.filterMap_eq_nil_iff, List.flatMap_eq_nil_iff]
  simp only [h1, List.filterMap_eq_nil_iff, remoteProblem_eq_none]

/-! ## Shards -/

theorem mem_idleStates {copies : List Copy} {c : Copy} (hc : c ∈ copies) (hs : c.state ≠ activeName) :
    c.state ∈ idleStates copies :=
  List.mem_map.mpr ⟨c, List.mem_filter.mpr ⟨hc, by simpa using hs⟩, rfl⟩

/-- A shard is called healthy only with enough active copies and no other one. -/
theorem Seen.judge_healthy {s : Seen} (h : s.judge.1 = .healthy) :
    s.replication ≤ (activePeers s.copies).length ∧ ∀ c ∈ s.copies, c.state = activeName := by
  unfold judge at h
  by_cases h1 : s.copies = []
  · rw [if_pos h1] at h
    split at h <;> cases h
  rw [if_neg h1] at h
  by_cases h2 : unknownStates s.copies ≠ []
  · rw [if_pos h2] at h
    cases h
  rw [if_neg h2] at h
  by_cases h3 : activePeers s.copies = []
  · rw [if_pos h3] at h
    dsimp only at h
    split at h
    · cases h
    split at h <;> cases h
  rw [if_neg h3] at h
  by_cases h4 : ((activePeers s.copies).length : Int) < s.replication
  · rw [if_pos h4] at h
    dsimp only at h
    split at h <;> cases h
  rw [if_neg h4] at h
  by_cases h5 : idleStates s.copies ≠ []
  · rw [if_pos h5] at h
    cases h
  refine ⟨not_lt.mp h4, fun c hc => ?_⟩
  by_contra hs
  rw [not_not] at h5
  exact absurd (mem_idleStates hc hs) (by simp [h5])

/-- The state of a shard does not depend on the order of its copies. -/
theorem Seen.judge_perm {copies copies' : List Copy} (h : copies.Perm copies') (r : Int) (t : Bool)
    (u : Nat) : (Seen.mk copies r t u).judge.1 = (Seen.mk copies' r t u).judge.1 := by
  have hi : (idleStates copies).Perm (idleStates copies') := (h.filter _).map _
  have ha : (activePeers copies).Perm (activePeers copies') := (h.filter _).map _
  have hc0 := nil_iff_of_perm h
  have hu0 : unknownStates copies = [] ↔ unknownStates copies' = [] :=
    nil_iff_of_perm (hi.filter _)
  have ha0 := nil_iff_of_perm ha
  have hi0 := nil_iff_of_perm hi
  have hn := ha.length_eq
  unfold judge
  dsimp only
  by_cases h1 : copies = []
  · rw [if_pos h1, if_pos (hc0.mp h1)]
    split <;> rfl
  rw [if_neg h1, if_neg (mt hc0.mpr h1)]
  by_cases h2 : unknownStates copies = []
  swap
  · rw [if_pos h2, if_pos (mt hu0.mpr h2)]
  rw [if_neg (not_not.mpr h2), if_neg (not_not.mpr (hu0.mp h2))]
  by_cases h3 : activePeers copies = []
  · rw [if_pos h3, if_pos (ha0.mp h3)]
    simp only [ne_eq, hi0]
  rw [if_neg h3, if_neg (mt ha0.mpr h3), ← hn]
  by_cases h4 : ((activePeers copies).length : Int) < r
  · rw [if_pos h4, if_pos h4]
    simp only [ne_eq, hi0]
  rw [if_neg h4, if_neg h4]
  by_cases h5 : idleStates copies = []
  · rw [if_neg (not_not.mpr h5), if_neg (not_not.mpr (hi0.mp h5))]
  · rw [if_pos h5, if_pos (mt hi0.mpr h5)]

/-! ## Ranks -/

theorem foldl_max_eq_zero {l : List Nat} {n : Nat} (h : l.foldl max n = 0) : n = 0 ∧ ∀ r ∈ l, r = 0 := by
  induction l generalizing n with
  | nil => exact ⟨h, fun r hr => by cases hr⟩
  | cons a l ih =>
    obtain ⟨h1, h2⟩ := ih h
    refine ⟨by omega, fun r hr => ?_⟩
    rcases List.mem_cons.mp hr with rfl | hr
    · omega
    · exact h2 r hr

theorem rank_eq_zero {s : State} (h : s.rank = 0) : s = .healthy := by
  cases s with
  | healthy => rfl
  | degraded => cases h
  | recovering => cases h
  | unservable => cases h
  | unverifiable => cases h

/-- The ranks call nothing but healthy shards, no transfer and no unreachable view healthy. -/
theorem worst_healthy {shards : List State} {t : Bool} {u : Nat}
    (h : worst (ranks shards t u) = .healthy) :
    (∀ s ∈ shards, s = .healthy) ∧ t = false ∧ u = 0 := by
  have h0 := (foldl_max_eq_zero (stateFromRank_healthy h)).2
  unfold ranks at h0
  by_cases hu : u ≠ 0 ∧ ∀ r ∈ shardRanks shards t, r < State.unverifiable.rank
  · rw [if_pos hu] at h0
    have hd := h0 State.degraded.rank (List.mem_append_right _ (List.mem_singleton.mpr rfl))
    cases hd
  rw [if_neg hu] at h0
  have hshards : ∀ s ∈ shards, s = .healthy := fun s hs =>
    rank_eq_zero (h0 _ (List.mem_append_left _ (List.mem_cons_of_mem _ (List.mem_map_of_mem hs))))
  have ht : t = false := by
    cases t with
    | false => rfl
    | true =>
      have hr := h0 State.recovering.rank (List.mem_append_right _ (List.mem_singleton.mpr rfl))
      cases hr
  refine ⟨hshards, ht, ?_⟩
  by_contra hne
  refine hu ⟨hne, fun r hr => ?_⟩
  rw [h0 r hr]
  decide

/-! ## Soundness -/

section

variable {c : Text} {observations : List Observation} {policy : Policy} {accepted : List Int}

theorem mem_presentOf {views : List Observation} {v : Observation} :
    v ∈ presentOf views ↔ v ∈ views ∧ v.reachable = true ∧ v.missing = false := by
  rw [presentOf, List.mem_filter, List.mem_filter, and_assoc]
  simp

theorem mem_viewsOf {v : Observation} :
    v ∈ viewsOf c observations ↔ v ∈ observations ∧ v.collection = c := by
  simp [viewsOf]

/-- What a healthy verdict has checked. -/
structure Checked (c : Text) (observations : List Observation) (policy : Policy)
    (accepted : List Int) : Prop where
  admitted : Admitted (viewsOf c observations) accepted
  answered : (viewsOf c observations).filter (!·.reachable) = []
  counts : ∀ v ∈ presentOf (viewsOf c observations), v.shardCount = some policy.shardNumber
  declared : ∀ v ∈ presentOf (viewsOf c observations), outside policy.shardNumber v = []
  still : transfersOf (presentOf (viewsOf c observations)) = []
  shards : ∀ s ∈ shardIds policy.shardNumber,
    (seen (presentOf (viewsOf c observations)) 0 policy s).judge.1 = .healthy

theorem votes_eq {present : List Observation} {n m : Int}
    (hcount : ∀ v ∈ present, v.shardCount.isSome) (hcard : (votes present).toFinset.card = 1)
    (hhead : (votes present).head? = some m) (hn : m = n) : ∀ v ∈ present, v.shardCount = some n := by
  obtain ⟨k, hk⟩ := Finset.card_eq_one.mp hcard
  have hall : ∀ x ∈ votes present, x = k := fun x hx =>
    Finset.mem_singleton.mp (hk ▸ List.mem_toFinset.mpr hx)
  have hm : m ∈ votes present := List.mem_of_mem_head? (by simp [hhead])
  intro v hv
  obtain ⟨x, hx⟩ := Option.isSome_iff_exists.mp (hcount v hv)
  have hxv : x ∈ votes present := List.mem_filterMap.mpr ⟨v, hv, hx⟩
  rw [hx, hall x hxv, ← hn, hall m hm]

theorem checked_of_healthy
    (h : (evaluateCollectionPlacement c observations policy accepted).state = .healthy) :
    Checked c observations policy accepted := by
  unfold evaluateCollectionPlacement at h
  dsimp only at h
  cases hr : refusal c (viewsOf c observations) accepted with
  | some v =>
    rw [hr] at h
    have hs := refusal_state hr
    dsimp only at h
    rw [h] at hs
    split at hs <;> cases hs
  | none =>
    rw [hr] at h
    dsimp only at h
    unfold compared at h
    by_cases hp : reportProblems (presentOf (viewsOf c observations)) accepted = []
    swap
    · rw [if_pos hp] at h
      cases h
    rw [if_neg (not_not.mpr hp)] at h
    cases hv : (votes (presentOf (viewsOf c observations))).head? with
    | none =>
      rw [hv] at h
      cases h
    | some n =>
      rw [hv] at h
      dsimp only at h
      unfold counted at h
      by_cases h1 : (votes (presentOf (viewsOf c observations))).toFinset.card = 1
      swap
      · rw [if_pos h1] at h
        cases h
      rw [if_neg (not_not.mpr h1)] at h
      by_cases h2 : n = policy.shardNumber
      swap
      · rw [if_pos h2] at h
        dsimp only [refused] at h
        split at h <;> cases h
      rw [if_neg (not_not.mpr h2), h2] at h
      by_cases h3 : (presentOf (viewsOf c observations)).flatMap (outside policy.shardNumber) = []
      swap
      · rw [if_pos h3] at h
        cases h
      rw [if_neg (not_not.mpr h3)] at h
      obtain ⟨hshards, ht, hu⟩ := worst_healthy h
      refine ⟨refusal_eq_none.mp hr, List.length_eq_zero_iff.mp hu,
        votes_eq (reportProblems_eq_nil.mp hp).1 h1 hv h2, List.flatMap_eq_nil_iff.mp h3,
        by simpa using ht, fun s hs => ?_⟩
      have hj := hshards _ (List.mem_map_of_mem (List.mem_map_of_mem hs))
      rw [hu] at hj
      exact hj

/-- No two reports of a peer disagree about one of its own copies. -/
def Consistent (present : List Observation) : Prop :=
  ∀ a ∈ reports present, ∀ b ∈ reports present, a.key = b.key → a.state = b.state

/-- What a healthy verdict is to mean. -/
structure Sound (c : Text) (observations : List Observation) (policy : Policy)
    (accepted : List Int) : Prop where
  covered : ∀ s, 0 ≤ s → s < policy.shardNumber → ∃ peers : Finset Int,
    policy.replicationFactor ≤ peers.card ∧ ∀ p ∈ peers, p ∈ accepted ∧ ∃ v ∈ observations,
      v.collection = c ∧ v.reachable = true ∧ v.peerId = some p ∧ (s, activeName) ∈ v.localShards
  reachable : ∀ v ∈ observations, v.collection = c → v.reachable = true ∧ v.missing = false
  member : ∀ v ∈ observations, v.collection = c → ∃ p ∈ accepted, v.peerId = some p
  still : ∀ v ∈ observations, v.collection = c → v.transfers = []
  active : ∀ v ∈ observations, v.collection = c → ∀ r ∈ v.localShards,
    r.2 = activeName ∧ 0 ≤ r.1 ∧ r.1 < policy.shardNumber
  counts : ∀ v ∈ observations, v.collection = c → v.shardCount = some policy.shardNumber

theorem mem_ownReports {v : Observation} {n p : Int} (hn : v.shardCount = some n)
    (hp : v.peerId = some p) {x : Copy} :
    x ∈ ownReports v ↔ ∃ r ∈ v.localShards, x = ⟨r.1, p, r.2⟩ := by
  unfold ownReports
  rw [hn, hp]
  simp only [List.mem_map, eq_comm]

theorem mem_reports {present : List Observation} {x : Copy} (h : x ∈ reports present) :
    ∃ v ∈ present, v.peerId = some x.peer ∧ (x.shard, x.state) ∈ v.localShards := by
  obtain ⟨v, hv, hx⟩ := List.mem_flatMap.mp h
  refine ⟨v, hv, ?_⟩
  unfold ownReports at hx
  split at hx
  · rename_i hp
    obtain ⟨r, hr, rfl⟩ := List.mem_map.mp hx
    exact ⟨hp, hr⟩
  · cases hx

theorem mem_localCopies {present : List Observation} (hcons : Consistent present) {x : Copy} :
    x ∈ localCopies present ↔ x ∈ reports present := by
  refine Keyed.mem_upsertAll_of_agree fun a ha b hb hk => ?_
  have hs := hcons a ha b hb hk
  obtain ⟨s, p, st⟩ := a
  obtain ⟨s', p', st'⟩ := b
  cases hk
  cases hs
  rfl

theorem mem_reports_of_local {present : List Observation} {x : Copy}
    (h : x ∈ localCopies present) : x ∈ reports present := by
  rcases Keyed.mem_upsertAll_cases h with h | ⟨h, _⟩
  · exact h
  · exact absurd h (Keyed.not_mem_empty x)

theorem mem_shardIds {n s : Int} : s ∈ shardIds n ↔ 0 ≤ s ∧ s < n := by
  unfold shardIds
  simp only [List.mem_map, List.mem_range]
  constructor
  · rintro ⟨k, hk, rfl⟩
    constructor
    · exact Int.natCast_nonneg k
    · show (k : Int) < n
      omega
  · rintro ⟨h0, hn⟩
    refine ⟨s.toNat, by omega, ?_⟩
    show (s.toNat : Int) = s
    omega

/-- The active copies of a shard are those of distinct peers. -/
theorem activePeers_nodup (present : List Observation) (u : Nat) (s : Int) :
    (activePeers (seen present u policy s).copies).Nodup := by
  have hnd : ((localCopies present).items).Nodup := (localCopies present).items_nodup
  refine List.Nodup.map_on ?_ ((hnd.filter _).filter _)
  intro a ha b hb hp
  have ha' := List.mem_filter.mp (List.mem_filter.mp ha).1
  have hb' := List.mem_filter.mp (List.mem_filter.mp hb).1
  have hs : a.shard = b.shard := by
    rw [of_decide_eq_true ha'.2, of_decide_eq_true hb'.2]
  refine Keyed.eq_of_key ha'.1 hb'.1 ?_
  unfold Copy.key
  rw [hs, hp]

theorem covered_of_checked (h : Checked c observations policy accepted) {s : Int} (h0 : 0 ≤ s)
    (hn : s < policy.shardNumber) : ∃ peers : Finset Int,
      policy.replicationFactor ≤ peers.card ∧ ∀ p ∈ peers, p ∈ accepted ∧ ∃ v ∈ observations,
        v.collection = c ∧ v.reachable = true ∧ v.peerId = some p ∧
          (s, activeName) ∈ v.localShards := by
  have hj := (Seen.judge_healthy (h.shards s (mem_shardIds.mpr ⟨h0, hn⟩))).1
  refine ⟨(activePeers (seen (presentOf (viewsOf c observations)) 0 policy s).copies).toFinset, ?_, ?_⟩
  · rw [List.toFinset_card_of_nodup (activePeers_nodup _ _ _)]
    exact hj
  · intro p hp
    obtain ⟨x, hx, rfl⟩ := List.mem_map.mp (List.mem_toFinset.mp hp)
    obtain ⟨hx, hact⟩ := List.mem_filter.mp hx
    obtain ⟨hx, hs⟩ := List.mem_filter.mp hx
    have hact : x.state = activeName := of_decide_eq_true hact
    have hs : x.shard = s := of_decide_eq_true hs
    obtain ⟨v, hv, hvp, hr⟩ := mem_reports (mem_reports_of_local hx)
    obtain ⟨q, hq, hqv⟩ := h.admitted.own v hv
    obtain ⟨hvv, hreach, _⟩ := mem_presentOf.mp hv
    obtain ⟨hmem, hcol⟩ := mem_viewsOf.mp hvv
    rw [hvp, Option.some_inj] at hqv
    rw [hs, hact] at hr
    exact ⟨hqv ▸ hq, v, hmem, hcol, hreach, hvp, hr⟩

/-- Where the reports agree, a healthy verdict is sound. -/
theorem sound_of_checked (h : Checked c observations policy accepted)
    (hcons : Consistent (presentOf (viewsOf c observations))) :
    Sound c observations policy accepted := by
  have hreach : ∀ v ∈ observations, v.collection = c → v.reachable = true ∧ v.missing = false := by
    intro v hv hc
    have hview := mem_viewsOf.mpr ⟨hv, hc⟩
    have hr := (List.filter_eq_nil_iff.mp h.answered) v hview
    have hr : v.reachable = true := by simpa using hr
    have hm := (List.filter_eq_nil_iff.mp h.admitted.held) v (List.mem_filter.mpr ⟨hview, hr⟩)
    exact ⟨hr, by simpa using hm⟩
  have hpres : ∀ v ∈ observations, v.collection = c → v ∈ presentOf (viewsOf c observations) :=
    fun v hv hc => mem_presentOf.mpr ⟨mem_viewsOf.mpr ⟨hv, hc⟩, hreach v hv hc⟩
  refine ⟨fun s => covered_of_checked h, hreach, fun v hv hc => h.admitted.own v (hpres v hv hc),
    fun v hv hc => ?_, fun v hv hc r hr => ?_, fun v hv hc => h.counts v (hpres v hv hc)⟩
  · have ht := (List.flatMap_eq_nil_iff.mp h.still) v (hpres v hv hc)
    rw [h.counts v (hpres v hv hc)] at ht
    simpa using ht
  · obtain ⟨p, _, hp⟩ := h.admitted.own v (hpres v hv hc)
    have hdecl : 0 ≤ r.1 ∧ r.1 < policy.shardNumber := by
      have ho := (List.filter_eq_nil_iff.mp (h.declared v (hpres v hv hc))) r.1
        (List.mem_append_left _ (List.mem_map_of_mem hr))
      simpa using ho
    refine ⟨?_, hdecl⟩
    have hrep : (⟨r.1, p, r.2⟩ : Copy) ∈ reports (presentOf (viewsOf c observations)) :=
      List.mem_flatMap.mpr ⟨v, hpres v hv hc,
        (mem_ownReports (h.counts v (hpres v hv hc)) hp).mpr ⟨r, hr, rfl⟩⟩
    have hj := (Seen.judge_healthy (h.shards r.1 (mem_shardIds.mpr hdecl))).2
    exact hj _ (List.mem_filter.mpr ⟨(mem_localCopies hcons).mpr hrep, by simp⟩)

/-- A sound list of observations holds no disagreeing reports. -/
theorem consistent_of_sound (h : Sound c observations policy accepted) :
    Consistent (presentOf (viewsOf c observations)) := by
  have hact : ∀ x ∈ reports (presentOf (viewsOf c observations)), x.state = activeName := by
    intro x hx
    obtain ⟨v, hv, _, hr⟩ := mem_reports hx
    obtain ⟨hmem, hcol⟩ := mem_viewsOf.mp (mem_presentOf.mp hv).1
    exact (h.active v hmem hcol _ hr).1
  intro a ha b hb _
  rw [hact a ha, hact b hb]

/-! ## Order -/

theorem viewsOf_perm {obs obs' : List Observation} (h : obs.Perm obs') :
    (viewsOf c obs).Perm (viewsOf c obs') := h.filter _

theorem presentOf_perm {views views' : List Observation} (h : views.Perm views') :
    (presentOf views).Perm (presentOf views') := (h.filter _).filter _

theorem reports_perm {present present' : List Observation} (h : present.Perm present') :
    (reports present).Perm (reports present') := h.flatMap_right _

theorem consistent_perm {present present' : List Observation} (h : present.Perm present')
    (hcons : Consistent present) : Consistent present' := by
  intro a ha b hb
  exact hcons a ((reports_perm h).mem_iff.mpr ha) b ((reports_perm h).mem_iff.mpr hb)

theorem mem_localCopies_perm {present present' : List Observation} (h : present.Perm present')
    (hcons : Consistent present) (x : Copy) :
    x ∈ localCopies present ↔ x ∈ localCopies present' := by
  rw [mem_localCopies hcons, mem_localCopies (consistent_perm h hcons), (reports_perm h).mem_iff]

theorem admitted_perm {views views' : List Observation} (h : views.Perm views')
    (ha : Admitted views accepted) : Admitted views' accepted := by
  refine ⟨ha.members, mt (nil_iff_of_perm (h.filter _)).mpr ha.answered,
    (nil_iff_of_perm ((h.filter _).filter _)).mp ha.held, fun v hv => ?_⟩
  exact ha.own v ((presentOf_perm h).mem_iff.mpr hv)

theorem reportProblems_perm {present present' : List Observation} (h : present.Perm present')
    (hcons : Consistent present) (hp : reportProblems present accepted = []) :
    reportProblems present' accepted = [] := by
  obtain ⟨h1, h2⟩ := reportProblems_eq_nil.mp hp
  refine reportProblems_eq_nil.mpr ⟨fun v hv => h1 v (h.mem_iff.mpr hv), fun v hv r hr => ?_⟩
  obtain ⟨ha, hl⟩ := h2 v (h.mem_iff.mpr hv) r hr
  refine ⟨ha, fun hm => (mem_localCopies_perm h hcons _).mp (hl ?_)⟩
  exact (h.filterMap _).mem_iff.mpr hm

theorem judged_perm {present present' : List Observation} (h : present.Perm present')
    (hcons : Consistent present) (u : Nat) :
    (judged c present u policy).state = (judged c present' u policy).state := by
  have ht : transfersOf present = [] ↔ transfersOf present' = [] :=
    nil_iff_of_perm (h.flatMap_right _)
  have hlocal : (localCopies present).items.Perm (localCopies present').items :=
    (List.perm_ext_iff_of_nodup (localCopies present).items_nodup
      (localCopies present').items_nodup).mpr (mem_localCopies_perm h hcons)
  have hd : decide (transfersOf present ≠ []) = decide (transfersOf present' ≠ []) := by
    simp only [ne_eq, ht]
  have hs : ∀ s, (seen present u policy s).judge.1 = (seen present' u policy s).judge.1 := by
    intro s
    unfold seen
    rw [hd]
    exact Seen.judge_perm (hlocal.filter _) _ _ _
  have hshards : ∀ present : List Observation,
      ((shardIds policy.shardNumber).map (shardVerdict present u policy)).map ShardVerdict.state =
        (shardIds policy.shardNumber).map fun s => (seen present u policy s).judge.1 := by
    intro present
    rw [List.map_map]
    rfl
  unfold judged
  dsimp only
  rw [hshards, hshards, hd]
  simp only [hs]

theorem counted_perm {present present' : List Observation} (h : present.Perm present')
    (hcons : Consistent present) (u : Nat) (n : Int) :
    (counted c present u policy n).state = (counted c present' u policy n).state := by
  have hv : (votes present).toFinset = (votes present').toFinset :=
    List.toFinset_eq_of_perm _ _ (h.filterMap _)
  have ho : present.flatMap (outside n) = [] ↔ present'.flatMap (outside n) = [] :=
    nil_iff_of_perm (h.flatMap_right _)
  unfold counted
  rw [hv]
  by_cases h1 : (votes present').toFinset.card = 1
  swap
  · rw [if_pos h1, if_pos h1]
    rfl
  rw [if_neg (not_not.mpr h1), if_neg (not_not.mpr h1)]
  by_cases h2 : n = policy.shardNumber
  swap
  · rw [if_pos h2, if_pos h2]
  rw [if_neg (not_not.mpr h2), if_neg (not_not.mpr h2)]
  by_cases h3 : present.flatMap (outside n) = []
  · rw [if_neg (not_not.mpr h3), if_neg (not_not.mpr (ho.mp h3))]
    exact judged_perm h hcons u
  · rw [if_pos h3, if_pos (mt ho.mpr h3)]
    rfl

/-- Where the votes differ, the first of them does not matter. -/
theorem counted_votes {present : List Observation} {n m : Int} (hn : n ∈ votes present)
    (hm : m ∈ votes present) (u : Nat) :
    counted c present u policy n = counted c present u policy m := by
  by_cases h1 : (votes present).toFinset.card = 1
  · obtain ⟨k, hk⟩ := Finset.card_eq_one.mp h1
    have hall : ∀ x ∈ votes present, x = k := fun x hx =>
      Finset.mem_singleton.mp (hk ▸ List.mem_toFinset.mpr hx)
    rw [hall n hn, hall m hm]
  · unfold counted
    rw [if_pos h1, if_pos h1]

theorem compared_perm {present present' : List Observation} (h : present.Perm present')
    (hcons : Consistent present) (u : Nat) :
    (compared c present u policy accepted).state = (compared c present' u policy accepted).state := by
  have hp : reportProblems present accepted = [] ↔ reportProblems present' accepted = [] :=
    ⟨reportProblems_perm h hcons, reportProblems_perm h.symm (consistent_perm h hcons)⟩
  have hv : (votes present).Perm (votes present') := h.filterMap _
  unfold compared
  by_cases h1 : reportProblems present accepted = []
  swap
  · rw [if_pos h1, if_pos (mt hp.mpr h1)]
  rw [if_neg (not_not.mpr h1), if_neg (not_not.mpr (hp.mp h1))]
  cases hh : (votes present).head? with
  | none =>
    rw [List.head?_eq_none_iff] at hh
    rw [(nil_iff_of_perm hv).mp hh]
    rfl
  | some n =>
    have hn : n ∈ votes present := List.mem_of_mem_head? (by simp [hh])
    cases hh' : (votes present').head? with
    | none =>
      rw [List.head?_eq_none_iff] at hh'
      rw [(nil_iff_of_perm hv).mpr hh'] at hn
      cases hn
    | some m =>
      have hm : m ∈ votes present' := List.mem_of_mem_head? (by simp [hh'])
      dsimp only
      rw [counted_votes hn (hv.mem_iff.mpr hm)]
      exact counted_perm h hcons u m

/-- An early refusal gives the same state in every order. -/
theorem refusal_perm {views views' : List Observation} (h : views.Perm views') {v v' : Verdict}
    (hv : refusal c views accepted = some v) (hv' : refusal c views' accepted = some v') :
    v.state = v'.state := by
  have hr : views.filter (·.reachable) = [] ↔ views'.filter (·.reachable) = [] :=
    nil_iff_of_perm (h.filter _)
  have hp := nil_iff_of_perm (presentOf_perm h)
  rw [refusal_state hv, refusal_state hv']
  simp only [ne_eq, hr, hp]

theorem refusal_isSome_perm {views views' : List Observation} (h : views.Perm views') {v : Verdict}
    (hv : refusal c views accepted = some v) : ∃ v', refusal c views' accepted = some v' := by
  cases hr : refusal c views' accepted with
  | some v' => exact ⟨v', rfl⟩
  | none =>
    have hn : refusal c views accepted = none :=
      refusal_eq_none.mpr (admitted_perm h.symm (refusal_eq_none.mp hr))
    rw [hn] at hv
    cases hv

/-! ## Main results -/

/-- The verdict on a collection is settled without reading a report, or no reports disagree. -/
def Settled (c : Text) (observations : List Observation) (accepted : List Int) : Prop :=
  ¬ Admitted (viewsOf c observations) accepted ∨ Consistent (presentOf (viewsOf c observations))

/-- Healthy means sound, and the order of the observations does not matter. -/
def Meets (c : Text) (observations : List Observation) (policy : Policy) (accepted : List Int) :
    Prop :=
  ((evaluateCollectionPlacement c observations policy accepted).state = .healthy →
      Sound c observations policy accepted) ∧
    ∀ observations', observations.Perm observations' →
      (evaluateCollectionPlacement c observations' policy accepted).state =
        (evaluateCollectionPlacement c observations policy accepted).state

theorem state_perm_of_refused {obs obs' : List Observation} (h : obs.Perm obs')
    (hr : ¬ Admitted (viewsOf c obs) accepted) :
    (evaluateCollectionPlacement c obs' policy accepted).state =
      (evaluateCollectionPlacement c obs policy accepted).state := by
  cases hv : refusal c (viewsOf c obs) accepted with
  | none => exact absurd (refusal_eq_none.mp hv) hr
  | some v =>
    obtain ⟨v', hv'⟩ := refusal_isSome_perm (viewsOf_perm h) hv
    unfold evaluateCollectionPlacement
    dsimp only
    rw [hv, hv']
    exact refusal_perm (viewsOf_perm h).symm hv' hv

theorem state_perm_of_consistent {obs obs' : List Observation} (h : obs.Perm obs')
    (ha : Admitted (viewsOf c obs) accepted) (hcons : Consistent (presentOf (viewsOf c obs))) :
    (evaluateCollectionPlacement c obs' policy accepted).state =
      (evaluateCollectionPlacement c obs policy accepted).state := by
  have hu : ((viewsOf c obs).filter (!·.reachable)).length =
      ((viewsOf c obs').filter (!·.reachable)).length := ((viewsOf_perm h).filter _).length_eq
  unfold evaluateCollectionPlacement
  dsimp only
  rw [refusal_eq_none.mpr ha, refusal_eq_none.mpr (admitted_perm (viewsOf_perm h) ha), ← hu]
  exact (compared_perm (presentOf_perm (viewsOf_perm h)) hcons _).symm

end

/-- A settled list is judged soundly and in any order alike; one that some order calls healthy is
judged so only when no reports disagree. -/
theorem placement_sound (c : Text) (observations : List Observation) (policy : Policy)
    (accepted : List Int) :
    (Settled c observations accepted → Meets c observations policy accepted) ∧
      ((∃ observations', observations.Perm observations' ∧
          (evaluateCollectionPlacement c observations' policy accepted).state = .healthy) →
        (Meets c observations policy accepted ↔
          Consistent (presentOf (viewsOf c observations)))) := by
  have hmeets : Settled c observations accepted → Meets c observations policy accepted := by
    intro hs
    by_cases ha : Admitted (viewsOf c observations) accepted
    · have hcons := hs.resolve_left (not_not.mpr ha)
      exact ⟨fun h => sound_of_checked (checked_of_healthy h) hcons,
        fun obs' hp => state_perm_of_consistent hp ha hcons⟩
    · exact ⟨fun h => absurd (checked_of_healthy h).admitted ha,
        fun obs' hp => state_perm_of_refused hp ha⟩
  refine ⟨hmeets, ?_⟩
  rintro ⟨obs', hperm, hh⟩
  constructor
  · rintro ⟨hsound, horder⟩
    exact consistent_of_sound (hsound ((horder obs' hperm).symm.trans hh))
  · exact fun hcons => hmeets (.inr hcons)

/-- Two views of one peer, the later of which no longer reports its copy dead. -/
def twice : List Observation :=
  [{ collection := ['m'], endpoint := ['a'], reachable := true, peerId := some 1,
      shardCount := some 1, localShards := [(0, "DEAD".toList)] },
    { collection := ['m'], endpoint := ['b'], reachable := true, peerId := some 1,
      shardCount := some 1, localShards := [(0, activeName)] }]

/-- The single-node policy. -/
def singleNode : Policy := ⟨1, 1, 1, by omega, by omega, by omega, by omega⟩

/-- The dead copy is hidden by the later view, and read the other way round it is not. -/
theorem later_view_hides_dead :
    (evaluateCollectionPlacement ['m'] twice singleNode [1]).state = .healthy ∧
      (evaluateCollectionPlacement ['m'] twice.reverse singleNode [1]).state = .recovering ∧
      ¬ Meets ['m'] twice singleNode [1] := by
  have h1 : (evaluateCollectionPlacement ['m'] twice singleNode [1]).state = .healthy := by decide
  have h2 : (evaluateCollectionPlacement ['m'] twice.reverse singleNode [1]).state = .recovering := by
    decide
  refine ⟨h1, h2, fun h => ?_⟩
  have h3 := h.2 twice.reverse (List.reverse_perm twice).symm
  rw [h1, h2] at h3
  cases h3

end MainframeRag.Ingest.Placement
