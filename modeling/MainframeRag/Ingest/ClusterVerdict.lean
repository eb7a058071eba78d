import MainframeRag.Ingest.Placement
import Mathlib

/-!
# The cluster verdict

`evaluate_cluster` of `ingest/placement.py`: what the peers' own views say about the membership of
the cluster. The refusals come one behind the other; `judged_healthy_iff` and `judged_degraded_iff`
say which views pass them all, and `judged_perm` that only the wording of a problem depends on the
order of the views.
-/

namespace MainframeRag.Ingest.Cluster

open PyText JsonText Placement

/-! ## Views -/

/-- `PeerClusterView` -/
structure PeerView where
  endpoint : Text
  reachable : Bool
  peerId : Option Int := none
  memberPeerIds : List Int := []
  consensus : Text := []
  error : Option Text := none

/-- `frozenset(view.member_peer_ids)` -/
def PeerView.members (view : PeerView) : Finset Int := view.memberPeerIds.toFinset

/-- `ClusterVerdict` -/
structure ClusterVerdict where
  state : State
  expectedPeers : Int
  memberPeers : Nat
  reachablePeerUrls : Nat
  consensus : Text
  problems : List Text
  memberIds : List Int
  observedPeerIds : List Int

def reached (views : List PeerView) : List PeerView := views.filter (·.reachable)

def lost (views : List PeerView) : List PeerView := views.filter (!·.reachable)

/-- The ids that reachable views report. -/
def observed (views : List PeerView) : List Int := (reached views).filterMap (·.peerId)

/-! ## What a list agrees on -/

section

variable {α : Type} [DecidableEq α]

/-- The element of the set of a list that holds one, `set(…).pop()`. -/
def agreed (l : List α) : Option α :=
  match l.dedup with
  | [x] => some x
  | _ => none

theorem agreed_eq_some {l : List α} {x : α} : agreed l = some x ↔ l ≠ [] ∧ ∀ y ∈ l, y = x := by
  have hone : agreed l = some x ↔ l.dedup = [x] := by
    unfold agreed
    split
    · next y h => rw [h, Option.some.injEq, List.cons.injEq, and_iff_left rfl]
    · next h =>
      constructor
      · intro he
        cases he
      · exact fun he => absurd he (h x)
  rw [hone]
  constructor
  · intro h
    refine ⟨fun hl => ?_, fun y hy => ?_⟩
    · rw [hl, List.dedup_nil] at h
      cases h
    · rw [← List.mem_dedup, h] at hy
      exact List.mem_singleton.mp hy
  · rintro ⟨hl, hall⟩
    obtain ⟨z, hz⟩ := List.exists_mem_of_ne_nil l hl
    have hx : x ∈ l.dedup := List.mem_dedup.mpr (hall z hz ▸ hz)
    refine List.perm_singleton.mp ((List.perm_ext_iff_of_nodup l.nodup_dedup (by simp)).mpr ?_)
    intro y
    rw [List.mem_singleton]
    exact ⟨fun hy => hall y (List.mem_dedup.mp hy), fun hy => hy ▸ hx⟩

theorem agreed_perm {l l' : List α} (h : l.Perm l') : agreed l = agreed l' := by
  refine Option.ext fun x => ?_
  rw [agreed_eq_some, agreed_eq_some]
  refine and_congr (not_congr ?_) (forall_congr' fun y => ?_)
  · exact ⟨fun e => (e ▸ h).nil_eq.symm, fun e => (e ▸ h).eq_nil⟩
  · rw [h.mem_iff]

end

/-! ## Refusals -/

def unknownName : Text := "unknown".toList

def working : Text := "working".toList

def disabled : Text := "disabled".toList

/-- `_cluster_refusal` -/
def clusterRefusal (expectedPeers : Int) (views : List PeerView) (problem : Text)
    (members : Finset Int) : ClusterVerdict where
  state := .unverifiable
  expectedPeers := expectedPeers
  memberPeers := members.card
  reachablePeerUrls := (reached views).length
  consensus := (agreed ((reached views).map (·.consensus))).getD unknownName
  problems := [problem]
  memberIds := members.sort (· ≤ ·)
  observedPeerIds := (observed views).toFinset.sort (· ≤ ·)

def named (views : List PeerView) : Text := join ", " (views.map (·.endpoint))

def reads (consensus : Text) (absent : String) : Text :=
  if consensus = [] then absent.toList else consensus

/-! ## One expected peer -/

/-- The branch `expected_peers == 1`, for the one reachable view and its id. -/
def lonePeer (views : List PeerView) (view : PeerView) (peer : Int) : ClusterVerdict :=
  let members := view.members
  if members ≠ ∅ ∧ members ≠ {peer} then
    clusterRefusal 1 views ("single peer reports cluster membership ".toList ++
      printed (members.sort (· ≤ ·)) ++ ", which is not itself (peer ".toList ++ decimal peer ++
      ")".toList) ∅
  else if view.consensus ≠ disabled ∧ view.consensus ≠ working then
    clusterRefusal 1 views ("peer ".toList ++ decimal peer ++ " consensus thread is ".toList ++
      reads view.consensus "unknown/unreadable") {peer}
  else if members = ∅ ∧ view.consensus ≠ disabled then
    clusterRefusal 1 views ("peer ".toList ++ decimal peer ++
      " reports no membership but consensus is '".toList ++ view.consensus ++
      "', not a standalone server".toList) ∅
  else
    { state := .healthy
      expectedPeers := 1
      memberPeers := 1
      reachablePeerUrls := 1
      consensus := view.consensus
      problems := []
      memberIds := [peer]
      observedPeerIds := [peer] }

/-! ## Several expected peers -/

/-- The verdict on views that agree on a membership of the expected size and work. -/
def covered (expectedPeers : Int) (views : List PeerView) (members : Finset Int)
    (consensus : Text) : ClusterVerdict :=
  let missing := (members \ (observed views).toFinset).sort (· ≤ ·)
  let verdict (state : State) (problems : List Text) : ClusterVerdict :=
    { state := state
      expectedPeers := expectedPeers
      memberPeers := members.card
      reachablePeerUrls := (reached views).length
      consensus := consensus
      problems := problems
      memberIds := members.sort (· ≤ ·)
      observedPeerIds := sortedInts (observed views) }
  match missing, lost views with
  | [], _ => verdict .healthy []
  | [peer], [view] =>
    verdict .degraded ["member peer ".toList ++ decimal peer ++ " unreachable via ".toList ++
      view.endpoint ++ " (".toList ++ reads (view.error.getD []) "no response" ++
      ("); its replica and " ++ "configured policy states are unknown in this run").toList]
  | missing, _ =>
    clusterRefusal expectedPeers views ("member peer(s) ".toList ++ printed missing ++
      " not observed (reachable peer ids ".toList ++ printed (sortedInts (observed views)) ++
      (") — insufficient surviving topology to establish " ++
        "a supported degraded state").toList) members

/-- The checks on an agreed membership. -/
def membership (expectedPeers : Int) (views : List PeerView) (members : Finset Int) :
    ClusterVerdict :=
  let foreign := (observed views).toFinset \ members
  if members = ∅ then
    clusterRefusal expectedPeers views
      ("reachable peer endpoints report no cluster membership; expected ".toList ++
        decimal expectedPeers ++ " members".toList) ∅
  else if (members.card : Int) ≠ expectedPeers then
    clusterRefusal expectedPeers views ("cluster reports ".toList ++ decimal members.card ++
      " member peer(s) ".toList ++ printed (members.sort (· ≤ ·)) ++ ", expected ".toList ++
      decimal expectedPeers) members
  else if foreign ≠ ∅ then
    clusterRefusal expectedPeers views ("observed peer id(s) ".toList ++
      printed (foreign.sort (· ≤ ·)) ++ " are not in the cluster's own membership ".toList ++
      printed (members.sort (· ≤ ·))) members
  else match agreed ((reached views).map (·.consensus)) with
    | none =>
      clusterRefusal expectedPeers views ("peer endpoints disagree on consensus status: ".toList ++
        join ", " ((reached views).map fun view =>
          view.endpoint ++ '=' :: reads view.consensus "unknown")) members
    | some consensus =>
      if consensus ≠ working then
        clusterRefusal expectedPeers views ("cluster consensus thread is ".toList ++
          reads consensus "unknown/unreadable" ++ "; expected a working ".toList ++
          decimal expectedPeers ++ "-member cluster".toList) members
      else covered expectedPeers views members consensus

def severalPeers (expectedPeers : Int) (views : List PeerView) : ClusterVerdict :=
  match agreed ((reached views).map PeerView.members) with
  | none =>
    clusterRefusal expectedPeers views ("peer endpoints disagree on cluster membership: ".toList ++
      join "; " ((reached views).map fun view =>
        view.endpoint ++ " reports ".toList ++ printed (sortedInts view.memberPeerIds))) ∅
  | some members => membership expectedPeers views members

/-! ## The verdict -/

/-- The verdict for a positive number of expected peers. -/
def judged (expectedPeers : Int) (views : List PeerView) : ClusterVerdict :=
  let anonymous := (reached views).filter (·.peerId.isNone)
  if (views.length : Int) ≠ expectedPeers then
    clusterRefusal expectedPeers views (decimal views.length ++
      " authoritative peer endpoint(s) provided, expected ".toList ++ decimal expectedPeers ++
      (" — pass --peer-url for every expected peer (the entry " ++
        "endpoint is not a peer)").toList) ∅
  else if reached views = [] then
    clusterRefusal expectedPeers views "no authoritative peer endpoint reachable".toList ∅
  else if anonymous ≠ [] then
    clusterRefusal expectedPeers views ("reachable peer endpoint(s) ".toList ++ named anonymous ++
      " did not report a peer id".toList) ∅
  else if (observed views).toFinset.card ≠ (observed views).length then
    clusterRefusal expectedPeers views ("only ".toList ++
      decimal (observed views).toFinset.card ++ " distinct peer id(s) among ".toList ++
      decimal (reached views).length ++
      " reachable endpoint(s) — endpoints must address different peers".toList) ∅
  else if expectedPeers = 1 then
    match reached views, observed views with
    | view :: _, peer :: _ => lonePeer views view peer
    -- not reached: some view is reachable and none is anonymous
    | _, _ => clusterRefusal expectedPeers views [] ∅
  else severalPeers expectedPeers views

/-- `evaluate_cluster`; an error is the text of its `ValueError`. -/
def evaluateCluster (expectedPeers : Int) (views : List PeerView) : Except Text ClusterVerdict :=
  if expectedPeers < 1 then
    .error ("expected_peers must be >= 1, got ".toList ++ decimal expectedPeers)
  else .ok (judged expectedPeers views)

/-! ## What the views establish -/

/-- Views that report these ids, all different, these members and a working consensus. -/
structure Coherent (views : List PeerView) (ids : List Int) (members : Finset Int) : Prop where
  report : views.map (·.peerId) = ids.map some
  distinct : ids.Nodup
  member : ∀ view ∈ views, view.members = members
  works : ∀ view ∈ views, view.consensus = working

/-- Every expected peer is reachable, and the members are the peers observed. -/
def AllPresent (expectedPeers : Int) (views : List PeerView) : Prop :=
  views.length = expectedPeers ∧ (∀ view ∈ views, view.reachable = true) ∧
    ∃ ids, Coherent views ids ids.toFinset

/-- One view is unreachable, and the members are the peers observed and one more. -/
def OneLost (expectedPeers : Int) (views : List PeerView) : Prop :=
  views.length = expectedPeers ∧ (∃ view, lost views = [view]) ∧
    ∃ ids, ∃ peer ∉ ids, ((insert peer ids.toFinset).card : Int) = expectedPeers ∧
      Coherent (reached views) ids (insert peer ids.toFinset)

/-- A lone reachable peer that reports itself, or no membership while consensus is disabled. -/
def Alone (views : List PeerView) : Prop :=
  ∃ view peer, views = [view] ∧ view.reachable = true ∧ view.peerId = some peer ∧
    (view.members = {peer} ∧ (view.consensus = working ∨ view.consensus = disabled) ∨
      view.members = ∅ ∧ view.consensus = disabled)

/-- What the checks establish before coverage is looked at. -/
structure Passed (expectedPeers : Int) (views : List PeerView) (members : Finset Int) : Prop where
  count : (views.length : Int) = expectedPeers
  reachable : reached views ≠ []
  known : ∀ view ∈ reached views, view.peerId.isSome
  distinct : (observed views).Nodup
  agree : agreed ((reached views).map PeerView.members) = some members
  nonempty : members ≠ ∅
  size : (members.card : Int) = expectedPeers
  own : (observed views).toFinset ⊆ members
  works : agreed ((reached views).map (·.consensus)) = some working

@[simp] theorem clusterRefusal_state (n : Int) (views : List PeerView) (problem : Text)
    (members : Finset Int) : (clusterRefusal n views problem members).state = .unverifiable := rfl

theorem judged_cases {n : Int} (hn : n ≠ 1) (views : List PeerView) :
    (∃ members, Passed n views members ∧ judged n views = covered n views members working) ∨
      (judged n views).state = .unverifiable ∧ ∀ members, ¬ Passed n views members := by
  unfold judged
  dsimp only
  split
  · next h => exact .inr ⟨rfl, fun _ p => h p.count⟩
  next hcount =>
  split
  · next h => exact .inr ⟨rfl, fun _ p => p.reachable h⟩
  next hsome =>
  split
  · next h =>
    refine .inr ⟨rfl, fun _ p => h (List.filter_eq_nil_iff.mpr fun view hv => ?_)⟩
    rw [Option.isNone_iff_eq_none, ← Option.not_isSome_iff_eq_none]
    exact not_not.mpr (p.known view hv)
  next hknown =>
  split
  · next h => exact .inr ⟨rfl, fun _ p => h (List.toFinset_card_of_nodup p.distinct)⟩
  next hdistinct =>
  unfold severalPeers
  split
  · next h =>
    refine .inr ⟨rfl, fun _ p => ?_⟩
    rw [p.agree] at h
    cases h
  next members hagree =>
  have hsame : ∀ m, Passed n views m → m = members := fun m p =>
    Option.some.inj (p.agree.symm.trans hagree)
  unfold membership
  dsimp only
  split
  · next h => exact .inr ⟨rfl, fun m p => p.nonempty (hsame m p ▸ h)⟩
  next hnonempty =>
  split
  · next h => exact .inr ⟨rfl, fun m p => h (hsame m p ▸ p.size)⟩
  next hsize =>
  split
  · next h => exact .inr ⟨rfl, fun m p => h (Finset.sdiff_eq_empty_iff_subset.mpr (hsame m p ▸ p.own))⟩
  next hown =>
  split
  · next h =>
    refine .inr ⟨rfl, fun _ p => ?_⟩
    rw [p.works] at h
    cases h
  next consensus hworks =>
  split
  · next h =>
    refine .inr ⟨rfl, fun _ p => h ?_⟩
    exact Option.some.inj (hworks.symm.trans p.works)
  next hworking =>
  obtain rfl := not_not.mp hworking
  refine .inl ⟨members, ?_, rfl⟩
  refine
    { count := not_not.mp hcount
      reachable := hsome
      known := fun view hv => ?_
      distinct := ?_
      agree := hagree
      nonempty := hnonempty
      size := not_not.mp hsize
      own := Finset.sdiff_eq_empty_iff_subset.mp (not_not.mp hown)
      works := hworks }
  · have hview := List.filter_eq_nil_iff.mp (not_not.mp hknown) view hv
    rwa [Option.isNone_iff_eq_none, ← Option.not_isSome_iff_eq_none, not_not] at hview
  · exact Multiset.toFinset_card_eq_card_iff_nodup.mp (not_not.mp hdistinct)

/-! ## The views that pass -/

theorem map_peerId {views : List PeerView} (h : ∀ view ∈ reached views, view.peerId.isSome) :
    (reached views).map (·.peerId) = (observed views).map some := by
  unfold observed
  generalize reached views = l at h
  induction l with
  | nil => rfl
  | cons view l ih =>
    obtain ⟨hview, hl⟩ := List.forall_mem_cons.mp h
    obtain ⟨peer, hpeer⟩ := Option.isSome_iff_exists.mp hview
    rw [List.map_cons, List.filterMap_cons, hpeer, ih hl]
    rfl

theorem observed_eq {views : List PeerView} {ids : List Int}
    (h : (reached views).map (·.peerId) = ids.map some) : observed views = ids := by
  have hread : observed views = ((reached views).map (·.peerId)).filterMap id := by
    rw [List.filterMap_map]
    rfl
  rw [hread, h, List.filterMap_map]
  exact List.filterMap_some

theorem Passed.coherent {n : Int} {views : List PeerView} {members : Finset Int}
    (h : Passed n views members) : Coherent (reached views) (observed views) members where
  report := map_peerId h.known
  distinct := h.distinct
  member _ hv := (agreed_eq_some.mp h.agree).2 _ (List.mem_map_of_mem hv)
  works _ hv := (agreed_eq_some.mp h.works).2 _ (List.mem_map_of_mem hv)

theorem Coherent.passed {n : Int} {views : List PeerView} {ids : List Int} {members : Finset Int}
    (h : Coherent (reached views) ids members) (hcount : (views.length : Int) = n)
    (hsome : reached views ≠ []) (hsize : (members.card : Int) = n) (hn : 0 < n)
    (hown : ids.toFinset ⊆ members) : Passed n views members := by
  have hids := observed_eq h.report
  have hagree : ∀ {α : Type} [DecidableEq α] {f : PeerView → α} {x : α},
      (∀ view ∈ reached views, f view = x) → agreed ((reached views).map f) = some x := by
    intro α _ f x hf
    refine agreed_eq_some.mpr ⟨fun e => hsome (List.map_eq_nil_iff.mp e), ?_⟩
    exact List.forall_mem_map.mpr hf
  refine
    { count := hcount
      reachable := hsome
      known := fun view hv => ?_
      distinct := hids ▸ h.distinct
      agree := hagree h.member
      nonempty := fun e => ?_
      size := hsize
      own := hids ▸ hown
      works := hagree h.works }
  · have hmem := List.mem_map_of_mem (f := (·.peerId)) hv
    rw [h.report] at hmem
    obtain ⟨peer, -, hpeer⟩ := List.mem_map.mp hmem
    rw [← hpeer]
    rfl
  · rw [e, Finset.card_empty] at hsize
    omega

theorem Coherent.length_eq {views : List PeerView} {ids : List Int} {members : Finset Int}
    (h : Coherent (reached views) ids members) : (reached views).length = ids.length := by
  rw [← List.length_map (f := (·.peerId)), h.report, List.length_map]

theorem reached_eq_iff {views : List PeerView} :
    (reached views).length = views.length ↔ ∀ view ∈ views, view.reachable = true :=
  List.length_filter_eq_length_iff

theorem reached_of_all {views : List PeerView} (h : ∀ view ∈ views, view.reachable = true) :
    reached views = views := List.filter_eq_self.mpr h

theorem length_reached_lost (views : List PeerView) :
    (reached views).length + (lost views).length = views.length := by
  rw [← List.length_append]
  exact (List.filter_append_perm (·.reachable) views).length_eq

theorem allPresent_iff {n : Int} (hn : 2 ≤ n) {views : List PeerView} :
    AllPresent n views ↔
      ∃ members, Passed n views members ∧ members \ (observed views).toFinset = ∅ := by
  constructor
  · rintro ⟨hcount, hall, ids, hids⟩
    have hviews := reached_of_all hall
    rw [← hviews] at hids
    have hlen := hids.length_eq
    refine ⟨ids.toFinset, hids.passed hcount ?_ ?_ (by omega) (Finset.Subset.refl _), ?_⟩
    · rintro hnil
      rw [hviews] at hnil
      rw [hnil] at hcount
      simp at hcount
      omega
    · rw [List.toFinset_card_of_nodup hids.distinct, ← hlen, hviews, hcount]
    · rw [observed_eq hids.report, Finset.sdiff_self]
  · rintro ⟨members, hpass, hmissing⟩
    have hc := hpass.coherent
    have hmembers : (observed views).toFinset = members :=
      Finset.Subset.antisymm hpass.own (Finset.sdiff_eq_empty_iff_subset.mp hmissing)
    have hlen := hc.length_eq
    have hcard := List.toFinset_card_of_nodup hpass.distinct
    have hall : ∀ view ∈ views, view.reachable = true := by
      refine reached_eq_iff.mp ?_
      have hsize := hpass.size
      have hcount := hpass.count
      rw [← hmembers] at hsize
      omega
    refine ⟨hpass.count, hall, observed views, ?_⟩
    rwa [reached_of_all hall, ← hmembers] at hc

theorem oneLost_iff {n : Int} (hn : 2 ≤ n) {views : List PeerView} :
    OneLost n views ↔ ∃ members, Passed n views members ∧
      (∃ peer, members \ (observed views).toFinset = {peer}) ∧ ∃ view, lost views = [view] := by
  constructor
  · rintro ⟨hcount, ⟨view, hlost⟩, ids, peer, hpeer, hsize, hids⟩
    refine ⟨insert peer ids.toFinset, hids.passed hcount ?_ hsize (by omega)
      (Finset.subset_insert _ _), ⟨peer, ?_⟩, view, hlost⟩
    · intro hnil
      have hlen := length_reached_lost views
      rw [hnil, hlost, List.length_nil, List.length_singleton] at hlen
      omega
    · rw [observed_eq hids.report, Finset.insert_sdiff_of_notMem _ (by simpa using hpeer),
        Finset.sdiff_self]
      rfl
  · rintro ⟨members, hpass, ⟨peer, hpeer⟩, view, hlost⟩
    have hmembers : insert peer (observed views).toFinset = members := by
      rw [← Finset.sdiff_union_of_subset hpass.own, hpeer]
      rfl
    have hnew : peer ∉ observed views := by
      have hmem : peer ∈ members \ (observed views).toFinset := by
        rw [hpeer]
        exact Finset.mem_singleton_self peer
      simpa using (Finset.mem_sdiff.mp hmem).2
    refine ⟨hpass.count, ⟨view, hlost⟩, observed views, peer, hnew, ?_, ?_⟩
    · rw [hmembers]
      exact hpass.size
    · rw [hmembers]
      exact hpass.coherent

/-! ## The state of the verdict -/

theorem sort_eq_nil {s : Finset Int} : s.sort (· ≤ ·) = [] ↔ s = ∅ := by
  rw [← List.length_eq_zero_iff, Finset.length_sort, Finset.card_eq_zero]

theorem sort_eq_singleton {s : Finset Int} {peer : Int} : s.sort (· ≤ ·) = [peer] ↔ s = {peer} := by
  constructor
  · intro h
    rw [← Finset.sort_toFinset s (· ≤ ·), h]
    rfl
  · rintro rfl
    exact Finset.sort_singleton _ peer

/-- The state where coverage is looked at. -/
theorem covered_state (n : Int) (views : List PeerView) (members : Finset Int) (consensus : Text) :
    ((covered n views members consensus).state = .healthy ↔
        members \ (observed views).toFinset = ∅) ∧
      ((covered n views members consensus).state = .degraded ↔
        (∃ peer, members \ (observed views).toFinset = {peer}) ∧ ∃ view, lost views = [view]) ∧
      ((covered n views members consensus).state = .healthy ∨
        (covered n views members consensus).state = .degraded ∨
        (covered n views members consensus).state = .unverifiable) := by
  have hone : (∃ peer, members \ (observed views).toFinset = {peer}) ↔
      ∃ peer, (members \ (observed views).toFinset).sort (· ≤ ·) = [peer] :=
    exists_congr fun _ => sort_eq_singleton.symm
  rw [← sort_eq_nil, hone]
  unfold covered
  dsimp only
  split
  · next h => simp [h]
  · next peer view h hlost => simp [h, hlost]
  · next hnil hone =>
    refine ⟨⟨fun h => (by cases h), fun h => absurd h hnil⟩, ⟨fun h => (by cases h), ?_⟩, .inr (.inr rfl)⟩
    rintro ⟨⟨peer, h⟩, view, hlost⟩
    exact absurd hlost (hone peer view h)

/-- What the verdict on several expected peers says. -/
theorem judged_several {n : Int} (hn : 2 ≤ n) (views : List PeerView) :
    ((judged n views).state = .healthy ↔ AllPresent n views) ∧
      ((judged n views).state = .degraded ↔ OneLost n views) ∧
      ((judged n views).state = .healthy ∨ (judged n views).state = .degraded ∨
        (judged n views).state = .unverifiable) := by
  rw [allPresent_iff hn, oneLost_iff hn]
  have hn1 : n ≠ 1 := by omega
  rcases judged_cases hn1 views with ⟨members, hpass, hverdict⟩ | ⟨hstate, hno⟩
  · obtain ⟨hhealthy, hdegraded, hall⟩ := covered_state n views members working
    have hsame : ∀ m, Passed n views m → m = members := fun m p =>
      Option.some.inj (p.agree.symm.trans hpass.agree)
    rw [hverdict, hhealthy, hdegraded]
    refine ⟨⟨fun h => ⟨members, hpass, h⟩, ?_⟩, ⟨fun h => ⟨members, hpass, h⟩, ?_⟩, ?_⟩
    · rintro ⟨m, hm, h⟩
      rwa [hsame m hm] at h
    · rintro ⟨m, hm, h⟩
      rwa [hsame m hm] at h
    · rwa [hhealthy, hdegraded] at hall
  · rw [hstate]
    refine ⟨⟨fun h => (by cases h), ?_⟩, ⟨fun h => (by cases h), ?_⟩, .inr (.inr rfl)⟩
    · rintro ⟨m, hm, -⟩
      exact absurd hm (hno m)
    · rintro ⟨m, hm, -⟩
      exact absurd hm (hno m)

theorem lonePeer_state (views : List PeerView) (view : PeerView) (peer : Int) :
    ((lonePeer views view peer).state = .healthy ↔
        view.members = {peer} ∧ (view.consensus = working ∨ view.consensus = disabled) ∨
          view.members = ∅ ∧ view.consensus = disabled) ∧
      ((lonePeer views view peer).state = .healthy ∨
        (lonePeer views view peer).state = .unverifiable) := by
  unfold lonePeer
  dsimp only
  split
  · next h => simp [h.1, h.2]
  next hself =>
  split
  · next h => simp [h.1, h.2]
  next hconsensus =>
  split
  · next h => simp [h.1, h.2]
  next hmember =>
  refine ⟨⟨fun _ => ?_, fun _ => rfl⟩, .inl rfl⟩
  rw [not_and_or, not_not, not_not] at hself hconsensus
  rcases hself with he | he
  · rw [not_and, not_not] at hmember
    exact .inr ⟨he, hmember he⟩
  · exact .inl ⟨he, hconsensus.symm⟩

/-- What the verdict on one expected peer says. -/
theorem judged_one (views : List PeerView) :
    ((judged 1 views).state = .healthy ↔ Alone views) ∧
      ((judged 1 views).state = .healthy ∨ (judged 1 views).state = .unverifiable) := by
  have hrefused : (judged 1 views).state = .unverifiable → ¬ Alone views →
      ((judged 1 views).state = .healthy ↔ Alone views) ∧
        ((judged 1 views).state = .healthy ∨ (judged 1 views).state = .unverifiable) := by
    intro h hno
    rw [h]
    exact ⟨⟨fun he => (by cases he), fun ha => absurd ha hno⟩, .inr rfl⟩
  by_cases hlen : views.length = 1
  · obtain ⟨view, rfl⟩ := List.length_eq_one_iff.mp hlen
    cases hreach : view.reachable with
    | false =>
      refine hrefused (by simp [judged, reached, hreach]) ?_
      rintro ⟨v, peer, hv, hr, -⟩
      obtain rfl := (List.cons.inj hv).1
      rw [hreach] at hr
      cases hr
    | true =>
      cases hid : view.peerId with
      | none =>
        refine hrefused (by simp [judged, reached, hreach, hid]) ?_
        rintro ⟨v, peer, hv, -, hp, -⟩
        obtain rfl := (List.cons.inj hv).1
        rw [hid] at hp
        cases hp
      | some peer =>
        have hverdict : judged 1 [view] = lonePeer [view] view peer := by
          simp [judged, reached, observed, hreach, hid]
        rw [hverdict]
        obtain ⟨hstate, hall⟩ := lonePeer_state [view] view peer
        refine ⟨hstate.trans ⟨fun h => ⟨view, peer, rfl, hreach, hid, h⟩, ?_⟩, hall⟩
        rintro ⟨v, p, hv, -, hp, h⟩
        obtain rfl := (List.cons.inj hv).1
        obtain rfl := Option.some.inj (hid.symm.trans hp)
        exact h
  · have hcount : (views.length : Int) ≠ 1 := by omega
    refine hrefused (by simp [judged, hcount]) ?_
    rintro ⟨v, peer, hv, -⟩
    exact hlen (by rw [hv, List.length_singleton])

/-! ## The order of the views -/

/-- A verdict but for the wording of its problems. -/
def ClusterVerdict.findings (verdict : ClusterVerdict) : ClusterVerdict :=
  { verdict with problems := [] }

section

variable {views views' : List PeerView} (h : views.Perm views')
include h

theorem reached_perm : (reached views).Perm (reached views') := h.filter _

theorem lost_perm : (lost views).Perm (lost views') := h.filter _

theorem observed_perm : (observed views).Perm (observed views') := (reached_perm h).filterMap _

theorem observed_set : (observed views).toFinset = (observed views').toFinset :=
  List.toFinset_eq_of_perm _ _ (observed_perm h)

theorem clusterRefusal_perm (n : Int) (p p' : Text) (members : Finset Int) :
    (clusterRefusal n views p members).findings = (clusterRefusal n views' p' members).findings := by
  unfold clusterRefusal ClusterVerdict.findings
  rw [(reached_perm h).length_eq, observed_set h, agreed_perm ((reached_perm h).map _)]

theorem covered_perm (n : Int) (members : Finset Int) (consensus : Text) :
    (covered n views members consensus).findings = (covered n views' members consensus).findings := by
  have hsort : sortedInts (observed views) = sortedInts (observed views') :=
    List.Perm.eq_of_pairwise' (List.pairwise_insertionSort _ _) (List.pairwise_insertionSort _ _)
      ((List.perm_insertionSort _ _).trans
        ((observed_perm h).trans (List.perm_insertionSort _ _).symm))
  unfold covered
  dsimp only
  rw [observed_set h, hsort, (reached_perm h).length_eq]
  split
  · next hmissing =>
    rw [hmissing]
  · next peer view hmissing hlost =>
    have hlost' : lost views' = [view] := (hlost ▸ lost_perm h).singleton_eq.symm
    rw [hmissing, hlost']
  · next hnil hone =>
    split
    · next he => exact absurd he hnil
    · next peer view hmissing hlost' =>
      exact absurd (hlost' ▸ lost_perm h).eq_singleton (hone peer view hmissing)
    · exact clusterRefusal_perm h n _ _ members

end

theorem findings_ite {c c' : Prop} [Decidable c] [Decidable c'] {a a' b b' : ClusterVerdict}
    (hc : c ↔ c') (ha : a.findings = a'.findings) (hb : b.findings = b'.findings) :
    (if c then a else b).findings = (if c' then a' else b').findings := by
  by_cases h : c
  · rw [if_pos h, if_pos (hc.mp h), ha]
  · rw [if_neg h, if_neg fun h' => h (hc.mpr h'), hb]

section

variable {views views' : List PeerView} (h : views.Perm views')
include h

theorem membership_perm (n : Int) (members : Finset Int) :
    (membership n views members).findings = (membership n views' members).findings := by
  unfold membership
  dsimp only
  refine findings_ite Iff.rfl (clusterRefusal_perm h n _ _ _) ?_
  refine findings_ite Iff.rfl (clusterRefusal_perm h n _ _ _) ?_
  refine findings_ite (by rw [observed_set h]) (clusterRefusal_perm h n _ _ _) ?_
  rw [agreed_perm ((reached_perm h).map _)]
  cases agreed ((reached views').map (·.consensus)) with
  | none => exact clusterRefusal_perm h n _ _ _
  | some consensus =>
    exact findings_ite Iff.rfl (clusterRefusal_perm h n _ _ _) (covered_perm h n members consensus)

/-- Only the wording of a problem depends on the order of the views. -/
theorem judged_perm (n : Int) : (judged n views).findings = (judged n views').findings := by
  rcases eq_or_ne n 1 with rfl | hn
  · by_cases hlen : views.length = 1
    · obtain ⟨view, rfl⟩ := List.length_eq_one_iff.mp hlen
      rw [h.singleton_eq]
    · have hcount : (views.length : Int) ≠ 1 := by omega
      have hcount' : (views'.length : Int) ≠ 1 := h.length_eq ▸ hcount
      unfold judged
      dsimp only
      rw [if_pos hcount, if_pos hcount']
      exact clusterRefusal_perm h 1 _ _ _
  unfold judged
  dsimp only
  rw [if_neg hn, if_neg hn]
  refine findings_ite (by rw [h.length_eq]) (clusterRefusal_perm h n _ _ _) ?_
  refine findings_ite ?_ (clusterRefusal_perm h n _ _ _) ?_
  · exact ⟨fun e => (e ▸ reached_perm h).nil_eq.symm, fun e => (e ▸ reached_perm h).eq_nil⟩
  refine findings_ite (not_congr ?_) (clusterRefusal_perm h n _ _ _) ?_
  · have hanon := (reached_perm h).filter (·.peerId.isNone)
    exact ⟨fun e => (e ▸ hanon).nil_eq.symm, fun e => (e ▸ hanon).eq_nil⟩
  refine findings_ite ?_ (clusterRefusal_perm h n _ _ _) ?_
  · rw [observed_set h, (observed_perm h).length_eq]
  unfold severalPeers
  rw [agreed_perm ((reached_perm h).map _)]
  cases agreed ((reached views').map PeerView.members) with
  | none => exact clusterRefusal_perm h n _ _ _
  | some members => exact membership_perm h n members

end

/-! ## Soundness -/

/-- A verdict of `evaluate_cluster` on a positive number of expected peers. -/
structure Sound (expectedPeers : Int) (views : List PeerView) (verdict : ClusterVerdict) : Prop where
  healthy : verdict.state = .healthy ↔
    2 ≤ expectedPeers ∧ AllPresent expectedPeers views ∨ expectedPeers = 1 ∧ Alone views
  degraded : verdict.state = .degraded ↔ 2 ≤ expectedPeers ∧ OneLost expectedPeers views
  otherwise : verdict.state = .healthy ∨ verdict.state = .degraded ∨ verdict.state = .unverifiable
  unordered : ∀ views' : List PeerView, views'.Perm views → ∃ verdict',
    evaluateCluster expectedPeers views' = .ok verdict' ∧ verdict'.findings = verdict.findings

end MainframeRag.Ingest.Cluster
