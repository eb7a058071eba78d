import MainframeRag.Lib.Dict
import MainframeRag.Retrieve.Hits
import Mathlib

/-!
# Merging the sides of a comparison

`max_split_hits` and `interleave_split_hits` of `retrieve/query.py`, in exact arithmetic. The sides
take turns in placing their next document that no side has shown (`Turns.turn`); `Fair` is what
every turn keeps, `alternate_spec` what stands when a round places nothing. The other chunks follow
in best-evidence order (`maxSplitHits_ids`).
-/

namespace MainframeRag.Retrieve

open PyText Ranking
open scoped List

variable {K : Type}

section

variable [Field K]

/-- `1.0 / (k + rank + 1)` -/
def rankScore (k rank : Nat) : K := 1 / ((k + rank + 1 : Nat) : K)

/-- Scores by position, from a position on. -/
def scored (k start : Nat) (hits : List (SearchHit K)) : List (SearchHit K) :=
  (hits.zipIdx start).map fun e => e.1.withScore (rankScore k e.2)

variable [LinearOrder K]

/-! ## Best evidence -/

/-- `sorted(…, key=score, reverse=True)` -/
def descending {α : Type} (scores : List (α × K)) : List (α × K) :=
  scores.mergeSort fun a b => decide (b.2 ≤ a.2)

/-- Every hit with its rank on its side, side by side. -/
def rankedHits (lists : List (List (SearchHit K))) : List (SearchHit K × Nat) :=
  lists.flatMap List.zipIdx

/-- `by_id[key] = hit` where the key is new. -/
def keepFirst (byId : List (Text × SearchHit K)) (e : SearchHit K × Nat) :
    List (Text × SearchHit K) :=
  if e.1.chunkId ∈ byId.map Prod.fst then byId else Dict.put byId e.1.chunkId e.1

/-- `scores[key] = score` where the score is above the one there. -/
def raiseScore (k : Nat) (scores : List (Text × K)) (e : SearchHit K × Nat) : List (Text × K) :=
  if (Dict.get scores e.1.chunkId).getD 0 < rankScore k e.2 then
    Dict.put scores e.1.chunkId (rankScore k e.2)
  else scores

/-- `by_id`, which the loop fills without reading `scores`. -/
def firstSeen (lists : List (List (SearchHit K))) : List (Text × SearchHit K) :=
  (rankedHits lists).foldl keepFirst []

/-- `scores`, which the loop fills without reading `by_id`. -/
def bestScores (k : Nat) (lists : List (List (SearchHit K))) : List (Text × K) :=
  (rankedHits lists).foldl (raiseScore k) []

/-- `max_split_hits`; the two dicts have the same keys. -/
def maxSplitHits (lists : List (List (SearchHit K))) (k limit : Nat) : List (SearchHit K) :=
  ((descending (bestScores k lists)).take limit).filterMap fun e =>
    (Dict.get (firstSeen lists) e.1).map (·.withScore e.2)

end

/-! ## Turns -/

/-- The documents of a side, each by its first chunk. -/
def bestOfDocs (hits : List (SearchHit K)) : List (SearchHit K) := firsts SearchHit.docId [] hits

/-- The documents each side has not come to yet, and what is placed, with the side that placed it. -/
structure Turns (K : Type) where
  rests : Nat → List (SearchHit K)
  head : List (Nat × SearchHit K)

/-- `shown` -/
def Turns.shown (s : Turns K) : List Text := s.head.map (·.2.docId)

/-- One side skips what is shown and places its next document. -/
def Turns.turn (s : Turns K) (side : Nat) : Turns K :=
  match (s.rests side).dropWhile fun h => h.docId ∈ s.shown with
  | [] => ⟨Function.update s.rests side [], s.head⟩
  | hit :: rest => ⟨Function.update s.rests side rest, s.head ++ [(side, hit)]⟩

def Turns.round (sides : Nat) (s : Turns K) : Turns K := (List.range sides).foldl Turns.turn s

/-- `while placed`, for at most `fuel` rounds. -/
def alternate (sides : Nat) : Nat → Turns K → Option (Turns K)
  | 0, _ => none
  | fuel + 1, s =>
    let next := s.round sides
    if next.head.length = s.head.length then some next else alternate sides fuel next

def Turns.start (lists : List (List (SearchHit K))) : Turns K :=
  ⟨fun side => bestOfDocs (lists.getD side []), []⟩

/-- `tail` -/
def evidenceTail [Field K] [LinearOrder K] (lists : List (List (SearchHit K))) (k : Nat)
    (head : List (SearchHit K)) : List (SearchHit K) :=
  (maxSplitHits lists k (lists.map List.length).sum).filter fun h =>
    h.chunkId ∉ head.map SearchHit.chunkId

/-- `interleave_split_hits`; `none` where the alternation has not ended after a round for every hit
and one more. -/
def interleaveSplitHits [Field K] [LinearOrder K] (lists : List (List (SearchHit K))) (k limit : Nat) :
    Option (List (SearchHit K)) :=
  (alternate lists.length (lists.flatten.length + 1) (Turns.start lists)).map fun s =>
    let head := s.head.map Prod.snd
    scored k 0 ((head ++ evidenceTail lists k head).take limit)

/-! ## One turn -/

/-- What a turn does. -/
theorem Turns.turn_cases (s : Turns K) (side : Nat) :
    (∃ skipped hit rest, s.rests side = skipped ++ hit :: rest ∧
        (∀ h ∈ skipped, h.docId ∈ s.shown) ∧ hit.docId ∉ s.shown ∧
        s.turn side = ⟨Function.update s.rests side rest, s.head ++ [(side, hit)]⟩) ∨
      (∀ h ∈ s.rests side, h.docId ∈ s.shown) ∧
        s.turn side = ⟨Function.update s.rests side [], s.head⟩ := by
  have hsplit := List.takeWhile_append_dropWhile (p := fun h => decide (h.docId ∈ s.shown))
    (l := s.rests side)
  have hskip : ∀ h ∈ (s.rests side).takeWhile fun h => h.docId ∈ s.shown, h.docId ∈ s.shown :=
    fun h hh => by simpa using List.mem_takeWhile_imp hh
  unfold turn
  cases hdrop : (s.rests side).dropWhile fun h => h.docId ∈ s.shown with
  | nil =>
    rw [hdrop, List.append_nil] at hsplit
    rw [hsplit] at hskip
    exact .inr ⟨hskip, rfl⟩
  | cons hit rest =>
    rw [hdrop] at hsplit
    refine .inl ⟨_, hit, rest, hsplit.symm, hskip, ?_, rfl⟩
    have hhead := List.head?_dropWhile_not (fun h => decide (h.docId ∈ s.shown)) (s.rests side)
    rw [hdrop] at hhead
    simpa using hhead

theorem Turns.turn_head (s : Turns K) (side : Nat) : s.head <+: (s.turn side).head := by
  rcases s.turn_cases side with ⟨_, _, _, _, _, _, h⟩ | ⟨_, h⟩
  · rw [h]
    exact List.prefix_append _ _
  · rw [h]

theorem Turns.turns_head (order : List Nat) : ∀ s : Turns K,
    s.head <+: (order.foldl Turns.turn s).head := by
  induction order with
  | nil => exact fun s => List.prefix_rfl
  | cons side order ih => exact fun s => (s.turn_head side).trans (ih _)

/-- What the sides have placed and still hold, against what they began with. -/
structure Turns.Fair (best : Nat → List (SearchHit K)) (s : Turns K) : Prop where
  distinct : s.shown.Nodup
  order : ∀ side, (s.head.filter (·.1 = side)).map Prod.snd ++ s.rests side <+ best side
  complete : ∀ side, ∀ h ∈ best side, h.docId ∈ s.shown ∨ h ∈ s.rests side

theorem Turns.Fair.turn {best : Nat → List (SearchHit K)} {s : Turns K} (h : s.Fair best)
    (side : Nat) : (s.turn side).Fair best := by
  rcases s.turn_cases side with ⟨skipped, hit, rest, hrests, hskip, hnew, e⟩ | ⟨hshown, e⟩
  · rw [e]
    have hafter : ∀ rests, (⟨rests, s.head ++ [(side, hit)]⟩ : Turns K).shown =
        s.shown ++ [hit.docId] := fun rests => by simp [shown]
    refine ⟨?_, fun other => ?_, fun other x hx => ?_⟩
    · rw [hafter]
      exact List.nodup_append.mpr ⟨h.distinct, List.nodup_singleton _, fun a ha b hb hab => by
        rw [List.mem_singleton] at hb
        exact hnew (hb ▸ hab ▸ ha)⟩
    · by_cases ho : other = side
      · subst ho
        have hsub := h.order other
        rw [hrests] at hsub
        simp only [List.filter_append, List.filter_cons, List.filter_nil, decide_true,
          if_true, List.map_append, List.map_cons, List.map_nil, Function.update_self,
          List.append_assoc, List.singleton_append]
        exact ((List.sublist_append_right skipped _).append_left _).trans hsub
      · simp only [List.filter_append, List.filter_cons, List.filter_nil, Ne.symm ho,
          decide_false, Bool.false_eq_true, if_false, List.append_nil,
          Function.update_of_ne ho]
        exact h.order other
    · rw [hafter, List.mem_append, List.mem_singleton]
      rcases h.complete other x hx with hs | hr
      · exact .inl (.inl hs)
      · by_cases ho : other = side
        · subst ho
          rw [hrests, List.mem_append, List.mem_cons] at hr
          rcases hr with hr | rfl | hr
          · exact .inl (.inl (hskip x hr))
          · exact .inl (.inr rfl)
          · exact .inr (by simpa using hr)
        · exact .inr (by simpa [Function.update_of_ne ho] using hr)
  · rw [e]
    refine ⟨h.distinct, fun other => ?_, fun other x hx => ?_⟩
    · by_cases ho : other = side
      · subst ho
        simp only [Function.update_self, List.append_nil]
        exact (List.sublist_append_left _ _).trans (h.order other)
      · simpa [Function.update_of_ne ho] using h.order other
    · rcases h.complete other x hx with hs | hr
      · exact .inl hs
      · by_cases ho : other = side
        · subst ho
          exact .inl (hshown x hr)
        · exact .inr (by simpa [Function.update_of_ne ho] using hr)

theorem Turns.Fair.turns {best : Nat → List (SearchHit K)} (order : List Nat) : ∀ {s : Turns K},
    s.Fair best → (order.foldl Turns.turn s).Fair best := by
  induction order with
  | nil => exact id
  | cons side order ih => exact fun h => ih (h.turn side)

/-- Sides that place nothing in a round hold nothing new. -/
theorem Turns.idle (order : List Nat) : ∀ {s : Turns K},
    (order.foldl Turns.turn s).head.length = s.head.length →
    ∀ side ∈ order, ∀ h ∈ s.rests side, h.docId ∈ s.shown := by
  induction order with
  | nil => exact fun _ side hside => absurd hside List.not_mem_nil
  | cons first order ih =>
    intro s hlen side hside x hx
    rw [List.foldl_cons] at hlen
    have hle := (turns_head order (s.turn first)).length_le
    rcases s.turn_cases first with ⟨_, hit, _, _, _, _, e⟩ | ⟨hshown, e⟩
    · rw [e] at hle
      rw [e] at hlen
      simp only [List.length_append, List.length_singleton] at hle
      omega
    · rcases List.mem_cons.mp hside with rfl | hside
      · exact hshown x hx
      · by_cases hs : side = first
        · subst hs
          exact hshown x hx
        · rw [e] at hlen
          have hrest := ih hlen side hside x (by simpa [Function.update_of_ne hs] using hx)
          exact hrest

/-! ## The alternation -/

/-- What stands when the alternation ends. -/
structure Turns.Ended (sides : Nat) (best : Nat → List (SearchHit K)) (s s' : Turns K) : Prop where
  fair : s'.Fair best
  grown : s.head <+: s'.head
  shown : ∀ side < sides, ∀ h ∈ best side, h.docId ∈ s'.shown

theorem alternate_ended {sides : Nat} {best : Nat → List (SearchHit K)} (fuel : Nat) :
    ∀ {s s' : Turns K}, s.Fair best → alternate sides fuel s = some s' → s.Ended sides best s' := by
  induction fuel with
  | zero => exact fun _ h => by cases h
  | succ fuel ih =>
    intro s s' hfair h
    have hhead : s.head <+: (s.round sides).head := Turns.turns_head _ s
    have hnext : (s.round sides).Fair best := hfair.turns _
    unfold alternate at h
    dsimp only at h
    split at h
    · next hlen =>
      obtain rfl := Option.some.inj h
      have hsame : s.head = (s.round sides).head := hhead.eq_of_length hlen.symm
      have hshown : s.shown = (s.round sides).shown := 
        congrArg (List.map fun e : Nat × SearchHit K => e.2.docId) hsame
      refine ⟨hnext, hhead, fun side hside x hx => ?_⟩
      rw [← hshown]
      rcases hfair.complete side x hx with hs | hr
      · exact hs
      · exact Turns.idle _ hlen side (List.mem_range.mpr hside) x hr
    · have hrest := ih hnext h
      exact ⟨hrest.fair, hhead.trans hrest.grown, hrest.shown⟩

/-- Every placed hit stems from its side. -/
theorem Turns.Fair.mem {best : Nat → List (SearchHit K)} {s : Turns K} (h : s.Fair best)
    {e : Nat × SearchHit K} (he : e ∈ s.head) : e.2 ∈ best e.1 := by
  refine (h.order e.1).subset (List.mem_append_left _ (List.mem_map.mpr ⟨e, ?_, rfl⟩))
  exact List.mem_filter.mpr ⟨he, by simp⟩

/-- No more is placed than there are documents. -/
theorem Turns.Fair.length_le {best : Nat → List (SearchHit K)} {s : Turns K} (h : s.Fair best)
    {all : List (SearchHit K)} (hall : ∀ side, ∀ x ∈ best side, x ∈ all) :
    s.head.length ≤ all.length := by
  have hsub : s.shown ⊆ all.map SearchHit.docId := by
    intro d hd
    obtain ⟨e, he, rfl⟩ := List.mem_map.mp hd
    exact List.mem_map_of_mem (hall e.1 e.2 (h.mem he))
  have hle := (List.subperm_of_subset h.distinct hsub).length_le
  rwa [shown, List.length_map, List.length_map] at hle

/-- A round for every hit and one more are enough. -/
theorem alternate_ends {sides : Nat} {best : Nat → List (SearchHit K)} {all : List (SearchHit K)}
    (hall : ∀ side, ∀ x ∈ best side, x ∈ all) (fuel : Nat) : ∀ {s : Turns K}, s.Fair best →
    all.length < s.head.length + fuel → ∃ s', alternate sides fuel s = some s' := by
  induction fuel with
  | zero =>
    intro s hfair hfuel
    exact absurd (hfair.length_le hall) (by omega)
  | succ fuel ih =>
    intro s hfair hfuel
    unfold alternate
    dsimp only
    split
    · exact ⟨_, rfl⟩
    · next hlen =>
      have hgrown : s.head.length ≤ (s.round sides).head.length := (Turns.turns_head _ s).length_le
      exact ih (hfair.turns _) (by omega)

/-- The first side begins. -/
theorem alternate_first {sides fuel : Nat} {s s' : Turns K} {hit : SearchHit K}
    {rest : List (SearchHit K)} (hhead : s.head = []) (hrests : s.rests 0 = hit :: rest)
    (hsides : 0 < sides) {best : Nat → List (SearchHit K)} (hfair : s.Fair best)
    (h : alternate sides fuel s = some s') : ∃ more, s'.head = (0, hit) :: more := by
  have hturn : (s.turn 0).head = [(0, hit)] := by
    simp [Turns.turn, Turns.shown, hhead, hrests]
  have hround : (s.turn 0).head <+: (s.round sides).head := by
    obtain ⟨n, rfl⟩ := Nat.exists_eq_succ_of_ne_zero hsides.ne'
    rw [Turns.round, List.range_succ_eq_map, List.foldl_cons]
    exact Turns.turns_head _ _
  cases fuel with
  | zero => cases h
  | succ fuel =>
    have hgrown : (s.round sides).head <+: s'.head := by
      unfold alternate at h
      dsimp only at h
      split at h
      · rw [← Option.some.inj h]
      · exact (alternate_ended fuel (hfair.turns _) h).grown
    obtain ⟨more, hmore⟩ := hround.trans hgrown
    exact ⟨more, by rw [← hmore, hturn]; rfl⟩

theorem start_fair (lists : List (List (SearchHit K))) :
    (Turns.start lists).Fair fun side => bestOfDocs (lists.getD side []) where
  distinct := List.nodup_nil
  order _ := List.Sublist.refl _
  complete _ _ h := .inr h

theorem mem_of_best {lists : List (List (SearchHit K))} {side : Nat} {x : SearchHit K}
    (h : x ∈ bestOfDocs (lists.getD side [])) : x ∈ lists.flatten := by
  have hmem : x ∈ lists.getD side [] := (firsts_sublist []).subset h
  rw [List.getD_eq_getElem?_getD] at hmem
  cases hside : lists[side]? with
  | none =>
    rw [hside] at hmem
    cases hmem
  | some hits =>
    rw [hside] at hmem
    exact List.mem_flatten.mpr ⟨hits, List.mem_of_getElem? hside, hmem⟩

/-- What the alternation leaves, as placed by every side. -/
theorem start_alternate (lists : List (List (SearchHit K))) :
    ∃ s, alternate lists.length (lists.flatten.length + 1) (Turns.start lists) = some s ∧
      (Turns.start lists).Ended lists.length (fun side => bestOfDocs (lists.getD side [])) s := by
  have hall : ∀ side, ∀ x ∈ bestOfDocs (lists.getD side []), x ∈ lists.flatten := fun _ _ =>
    mem_of_best
  obtain ⟨s, hs⟩ := alternate_ends hall (lists.flatten.length + 1) (start_fair lists)
    (Nat.lt_add_left _ (Nat.lt_succ_self _))
  exact ⟨s, hs, alternate_ended _ (start_fair lists) hs⟩

/-- Every document of the lists is placed. -/
theorem Turns.Ended.covers {lists : List (List (SearchHit K))} {s : Turns K}
    (h : (Turns.start lists).Ended lists.length (fun side => bestOfDocs (lists.getD side [])) s)
    {x : SearchHit K} (hx : x ∈ lists.flatten) : x.docId ∈ s.shown := by
  obtain ⟨hits, hhits, hx⟩ := List.mem_flatten.mp hx
  obtain ⟨side, hside, rfl⟩ := List.getElem_of_mem hhits
  have hkey : x.docId ∈ (bestOfDocs lists[side]).map SearchHit.docId :=
    mem_firsts_key hx List.not_mem_nil
  obtain ⟨y, hy, hdoc⟩ := List.mem_map.mp hkey
  rw [← hdoc]
  refine h.shown side hside y ?_
  rwa [List.getD_eq_getElem?_getD, List.getElem?_eq_getElem hside, Option.getD_some]

/-! ## Best evidence -/

theorem map_fst_rankedHits (lists : List (List (SearchHit K))) :
    (rankedHits lists).map Prod.fst = lists.flatten := by
  unfold rankedHits
  rw [List.map_flatMap, ← List.flatMap_id']
  congr 1
  funext hits
  exact List.zipIdx_map_fst 0 hits

theorem firstSeen_keys (lists : List (List (SearchHit K))) :
    (firstSeen lists).map Prod.fst =
      (firsts (fun e : SearchHit K × Nat => e.1.chunkId) [] (rankedHits lists)).map (·.1.chunkId) := by
  refine Dict.keys_foldl (fun d e => ?_) (rankedHits lists) []
  unfold keepFirst
  split
  · rfl
  · next h => rw [Dict.keys_put, if_neg h]

/-- The chunks, each once. -/
theorem seen_perm (lists : List (List (SearchHit K))) :
    ((firsts (fun e : SearchHit K × Nat => e.1.chunkId) [] (rankedHits lists)).map
      (·.1.chunkId)).Perm (lists.flatten.map SearchHit.chunkId).dedup := by
  refine (firsts_keys_perm _).trans (List.Perm.of_eq ?_)
  rw [← map_fst_rankedHits, List.map_map]
  rfl

/-- What lies under a chunk id is a hit of that chunk. -/
theorem firstSeen_get {lists : List (List (SearchHit K))} {key : Text} {hit : SearchHit K}
    (h : Dict.get (firstSeen lists) key = some hit) : hit ∈ lists.flatten ∧ hit.chunkId = key := by
  suffices hall : ∀ (ranked : List (SearchHit K × Nat)) (d : List (Text × SearchHit K)),
      (∀ e ∈ d, e.2 ∈ lists.flatten ∧ e.2.chunkId = e.1) →
      (∀ e ∈ ranked, e.1 ∈ lists.flatten) →
      ∀ e ∈ ranked.foldl keepFirst d, e.2 ∈ lists.flatten ∧ e.2.chunkId = e.1 by
    refine hall (rankedHits lists) [] (by simp) (fun e he => ?_) (key, hit) (Dict.mem_of_get h)
    rw [← map_fst_rankedHits]
    exact List.mem_map_of_mem he
  intro ranked
  induction ranked with
  | nil => exact fun _ hd _ => hd
  | cons x ranked ih =>
    intro d hd hranked
    obtain ⟨hx, hrest⟩ := List.forall_mem_cons.mp hranked
    refine ih _ (fun e he => ?_) hrest
    unfold keepFirst at he
    split at he
    · exact hd e he
    · next hkey =>
      rw [Dict.put, if_neg hkey, List.mem_append, List.mem_singleton] at he
      rcases he with he | rfl
      · exact hd e he
      · exact ⟨hx, rfl⟩

/-- Reading every key of a dict reads as many values. -/
theorem filterMap_get {lists : List (List (SearchHit K))} {scores : List (Text × K)}
    (h : ∀ e ∈ scores, e.1 ∈ (firstSeen lists).map Prod.fst) :
    (scores.filterMap fun e => (Dict.get (firstSeen lists) e.1).map (·.withScore e.2)).map
      SearchHit.chunkId = scores.map Prod.fst := by
  induction scores with
  | nil => rfl
  | cons e scores ih =>
    obtain ⟨he, hrest⟩ := List.forall_mem_cons.mp h
    obtain ⟨hit, hhit⟩ := Dict.exists_get he
    rw [List.filterMap_cons, hhit]
    simp only [Option.map_some, List.map_cons, SearchHit.withScore_chunkId]
    rw [ih hrest, (firstSeen_get hhit).2]

theorem descending_perm {α : Type} [LinearOrder K] (scores : List (α × K)) : (descending scores).Perm scores :=
  List.mergeSort_perm scores _

theorem mem_maxSplitHits [Field K] [LinearOrder K] {lists : List (List (SearchHit K))} {k limit : Nat} {x : SearchHit K}
    (h : x ∈ maxSplitHits lists k limit) : ∃ hit ∈ lists.flatten, x = hit.withScore x.score := by
  obtain ⟨e, -, he⟩ := List.mem_filterMap.mp h
  obtain ⟨hit, hhit, rfl⟩ := Option.map_eq_some_iff.mp he
  exact ⟨hit, (firstSeen_get hhit).1, rfl⟩

/-! ## Scores by position -/

section

variable [Field K]

theorem scored_cons (k start : Nat) (x : SearchHit K) (hits : List (SearchHit K)) :
    scored k start (x :: hits) = x.withScore (rankScore k start) :: scored k (start + 1) hits := rfl

theorem scored_append (k start : Nat) (hits more : List (SearchHit K)) :
    scored k start (hits ++ more) = scored k start hits ++ scored k (start + hits.length) more := by
  unfold scored
  rw [List.zipIdx_append, List.map_append]

/-- Scoring changes nothing but scores. -/
theorem map_scored {β : Type} {f : SearchHit K → β} (hf : ∀ x c, f (x.withScore c) = f x)
    (k start : Nat) (hits : List (SearchHit K)) : (scored k start hits).map f = hits.map f := by
  induction hits generalizing start with
  | nil => rfl
  | cons x hits ih => rw [scored_cons, List.map_cons, List.map_cons, hf, ih]

theorem mem_scored {k start : Nat} {hits : List (SearchHit K)} {x : SearchHit K}
    (h : x ∈ scored k start hits) :
    ∃ hit ∈ hits, ∃ i, start ≤ i ∧ x = hit.withScore (rankScore k i) := by
  obtain ⟨⟨hit, i⟩, he, rfl⟩ := List.mem_map.mp h
  exact ⟨hit, List.fst_mem_of_mem_zipIdx he, i, List.le_snd_of_mem_zipIdx he, rfl⟩

/-- A comparison shows hits of its sides. -/
theorem mem_interleaveSplitHits [LinearOrder K] {lists : List (List (SearchHit K))} {k limit : Nat}
    {result : List (SearchHit K)} (h : interleaveSplitHits lists k limit = some result) :
    ∀ x ∈ result, ∃ hit ∈ lists.flatten, x = hit.withScore x.score := by
  obtain ⟨s, hs, hended⟩ := start_alternate lists
  rw [interleaveSplitHits, hs, Option.map_some, Option.some.injEq] at h
  intro x hx
  rw [← h] at hx
  obtain ⟨y, hy, i, -, rfl⟩ := mem_scored hx
  rcases List.mem_append.mp (List.mem_of_mem_take hy) with hy | hy
  · obtain ⟨e, he, rfl⟩ := List.mem_map.mp hy
    exact ⟨e.2, mem_of_best (hended.fair.mem he), rfl⟩
  · obtain ⟨hit, hhit, he⟩ := mem_maxSplitHits (List.mem_of_mem_filter hy)
    refine ⟨hit, hhit, ?_⟩
    rw [he]
    rfl

/-- Cut anywhere, an order that begins with every document has no second chunk before a first. -/
theorem documents_first {head tail : List (SearchHit K)} (k limit : Nat)
    (hdocs : (head.map SearchHit.docId).Nodup)
    (htail : ∀ x ∈ tail, x.docId ∈ head.map SearchHit.docId) :
    ∃ front back, scored k 0 ((head ++ tail).take limit) = front ++ back ∧
      front.map SearchHit.chunkId = (head.take limit).map SearchHit.chunkId ∧
      (front.map SearchHit.docId).Nodup ∧ ∀ x ∈ back, x.docId ∈ front.map SearchHit.docId := by
  refine ⟨scored k 0 (head.take limit),
    scored k (0 + (head.take limit).length) (tail.take (limit - head.length)), ?_, ?_, ?_, ?_⟩
  · rw [List.take_append, scored_append]
  · exact map_scored (fun _ _ => rfl) k 0 _
  · rw [map_scored (fun _ _ => rfl), List.map_take]
    exact hdocs.sublist (List.take_sublist _ _)
  · intro x hx
    obtain ⟨y, hy, i, -, rfl⟩ := mem_scored hx
    have hlen : head.length ≤ limit := by
      by_contra hlt
      rw [Nat.sub_eq_zero_of_le (by omega), List.take_zero] at hy
      cases hy
    rw [map_scored (fun _ _ => rfl), List.take_of_length_le hlen]
    exact htail y (List.mem_of_mem_take hy)

end

section

variable [Field K] [LinearOrder K] [IsStrictOrderedRing K]

theorem rankScore_pos (k rank : Nat) : (0 : K) < rankScore k rank :=
  one_div_pos.mpr (Nat.cast_pos.mpr (Nat.succ_pos _))

theorem rankScore_lt {k i j : Nat} (h : i < j) : (rankScore k j : K) < rankScore k i := by
  refine one_div_lt_one_div_of_lt (Nat.cast_pos.mpr (Nat.succ_pos _)) (Nat.cast_lt.mpr ?_)
  omega

/-- The keys of `scores` are the chunks, each where it is seen first. -/
theorem bestScores_keys (k : Nat) (lists : List (List (SearchHit K))) :
    (bestScores k lists).map Prod.fst =
      (firsts (fun e : SearchHit K × Nat => e.1.chunkId) [] (rankedHits lists)).map (·.1.chunkId) := by
  refine Dict.keys_foldl (fun d e => ?_) (rankedHits lists) []
  unfold raiseScore
  split
  · exact Dict.keys_put d _ _
  · next hscore =>
    refine (if_pos (not_not.mp fun hkey => hscore ?_)).symm
    rw [Dict.get_eq_none.mpr hkey]
    exact rankScore_pos k e.2

/-- Best-evidence order of all chunks: nothing is lost or repeated. -/
theorem maxSplitHits_ids (lists : List (List (SearchHit K))) (k : Nat) :
    ((maxSplitHits lists k (lists.map List.length).sum).map SearchHit.chunkId).Perm
      (lists.flatten.map SearchHit.chunkId).dedup := by
  have hperm := descending_perm (bestScores k lists)
  have hkeys := (bestScores_keys k lists).trans (firstSeen_keys lists).symm
  have hlen : (descending (bestScores k lists)).length ≤ (lists.map List.length).sum := by
    have hsub : (firsts (fun e : SearchHit K × Nat => e.1.chunkId) [] (rankedHits lists)).Sublist
      (rankedHits lists) := firsts_sublist []
    have hall := congrArg List.length (map_fst_rankedHits lists)
    have hcount := congrArg List.length (bestScores_keys k lists)
    rw [List.length_map, List.length_flatten] at hall
    rw [List.length_map, List.length_map] at hcount
    rw [hperm.length_eq, hcount, ← hall]
    exact hsub.length_le
  unfold maxSplitHits
  rw [List.take_of_length_le hlen, filterMap_get]
  · refine (hperm.map Prod.fst).trans ?_
    rw [bestScores_keys]
    exact seen_perm lists
  · intro e he
    rw [← hkeys]
    exact List.mem_map_of_mem (hperm.mem_iff.mp he)

/-! ## The merged ranking -/

theorem scored_decreasing (k start : Nat) (hits : List (SearchHit K)) :
    (scored k start hits).Pairwise fun a b => b.score < a.score := by
  induction hits generalizing start with
  | nil => exact .nil
  | cons x hits ih =>
    rw [scored_cons, List.pairwise_cons]
    refine ⟨fun y hy => ?_, ih _⟩
    obtain ⟨hit, -, i, hi, rfl⟩ := mem_scored hy
    exact rankScore_lt hi

/-- What a comparison is merged into; `placed` is what the sides place of it, with the side. -/
structure Merged (lists : List (List (SearchHit K))) (limit : Nat) (placed : List (Nat × SearchHit K))
    (result : List (SearchHit K)) : Prop where
  /-- the first chunks of an order of all -/
  chunks : ∃ whole : List Text, whole.Perm (lists.flatten.map SearchHit.chunkId).dedup ∧
    result.map SearchHit.chunkId = whole.take limit
  stems : ∀ x ∈ result, ∃ hit ∈ lists.flatten, x = hit.withScore x.score
  first : ∀ hit rest others, lists = (hit :: rest) :: others →
    ∀ x ∈ result.head?, x.chunkId = hit.chunkId
  /-- every document's first chunk stands before any second one -/
  documents : ∃ front back, result = front ++ back ∧
    front.map SearchHit.chunkId = placed.map (·.2.chunkId) ∧ (front.map SearchHit.docId).Nodup ∧
    ∀ x ∈ back, x.docId ∈ front.map SearchHit.docId
  sides : ∀ side, ((placed.filter (·.1 = side)).map Prod.snd).Sublist (lists.getD side [])
  scores : result.Pairwise fun a b => b.score < a.score

theorem mem_evidenceTail {lists : List (List (SearchHit K))} {k : Nat} {head : List (SearchHit K)}
    {id : Text} : id ∈ (evidenceTail lists k head).map SearchHit.chunkId ↔
      id ∈ lists.flatten.map SearchHit.chunkId ∧ id ∉ head.map SearchHit.chunkId := by
  rw [← List.mem_dedup (l := lists.flatten.map SearchHit.chunkId),
    ← (maxSplitHits_ids lists k).mem_iff]
  constructor
  · intro h
    obtain ⟨x, hx, rfl⟩ := List.mem_map.mp h
    obtain ⟨hx, hnew⟩ := List.mem_filter.mp hx
    exact ⟨List.mem_map_of_mem hx, by simpa using hnew⟩
  · rintro ⟨h, hnew⟩
    obtain ⟨x, hx, rfl⟩ := List.mem_map.mp h
    exact List.mem_map_of_mem (List.mem_filter.mpr ⟨hx, decide_eq_true hnew⟩)

/-- Placed documents and what is left of the best evidence are the chunks, each once. -/
theorem order_ids {lists : List (List (SearchHit K))} {k : Nat} {head : List (SearchHit K)}
    (hmem : ∀ x ∈ head, x ∈ lists.flatten) (hids : (head.map SearchHit.chunkId).Nodup) :
    ((head ++ evidenceTail lists k head).map SearchHit.chunkId).Perm
      (lists.flatten.map SearchHit.chunkId).dedup := by
  have hnodup : ((evidenceTail lists k head).map SearchHit.chunkId).Nodup :=
    ((maxSplitHits_ids lists k).nodup_iff.mpr (List.nodup_dedup _)).sublist
      (List.filter_sublist.map _)
  rw [List.map_append, List.perm_ext_iff_of_nodup _ (List.nodup_dedup _)]
  · intro id
    rw [List.mem_append, mem_evidenceTail, List.mem_dedup]
    constructor
    · rintro (h | h)
      · obtain ⟨x, hx, rfl⟩ := List.mem_map.mp h
        exact List.mem_map_of_mem (hmem x hx)
      · exact h.1
    · intro h
      by_cases hid : id ∈ head.map SearchHit.chunkId
      · exact .inl hid
      · exact .inr ⟨h, hid⟩
  · refine List.nodup_append.mpr ⟨hids, hnodup, fun a ha b hb hab => ?_⟩
    exact (mem_evidenceTail.mp hb).2 (hab ▸ ha)

/-- The comparison is merged: the alternation ends, nothing is lost or repeated, and documents come
before second chunks. -/
theorem interleave_merges (lists : List (List (SearchHit K))) (k limit : Nat)
    (hdoc : ∀ x ∈ lists.flatten, ∀ y ∈ lists.flatten, x.chunkId = y.chunkId → x.docId = y.docId) :
    ∃ s result, alternate lists.length (lists.flatten.length + 1) (Turns.start lists) = some s ∧
      interleaveSplitHits lists k limit = some result ∧
      Merged lists limit (s.head.take limit) result := by
  obtain ⟨s, hs, hended⟩ := start_alternate lists
  have hfair := hended.fair
  have hmem : ∀ x ∈ s.head.map Prod.snd, x ∈ lists.flatten := by
    intro x hx
    obtain ⟨e, he, rfl⟩ := List.mem_map.mp hx
    exact mem_of_best (hfair.mem he)
  have hdocs : ((s.head.map Prod.snd).map SearchHit.docId).Nodup := by
    rw [List.map_map]
    exact hfair.distinct
  have hids : ((s.head.map Prod.snd).map SearchHit.chunkId).Nodup :=
    List.Nodup.map_on (fun x hx y hy h =>
      List.inj_on_of_nodup_map hdocs hx hy (hdoc x (hmem x hx) y (hmem y hy) h))
      (List.Nodup.of_map _ hdocs)
  have hrun : interleaveSplitHits lists k limit = some (scored k 0 ((s.head.map Prod.snd ++
      evidenceTail lists k (s.head.map Prod.snd)).take limit)) := by
    rw [interleaveSplitHits, hs, Option.map_some]
  refine ⟨s, scored k 0 ((s.head.map Prod.snd ++
    evidenceTail lists k (s.head.map Prod.snd)).take limit), hs, hrun, ?_⟩
  refine
    { chunks := ⟨_, @order_ids K _ _ _ lists k _ hmem hids, ?_⟩
      stems := mem_interleaveSplitHits hrun
      first := ?_
      documents := ?_
      sides := fun side => ?_
      scores := scored_decreasing k 0 _ }
  · rw [map_scored (fun _ _ => rfl), List.map_take]
  · rintro hit rest others rfl x hx
    have hrests : (Turns.start ((hit :: rest) :: others)).rests 0 =
        hit :: firsts SearchHit.docId [hit.docId] rest := firsts_new List.not_mem_nil rest
    obtain ⟨more, hmore⟩ := alternate_first rfl hrests (Nat.succ_pos _) (start_fair _) hs
    cases limit with
    | zero => cases hx
    | succ limit =>
      rw [hmore, List.map_cons, List.cons_append, List.take_succ_cons, scored_cons] at hx
      obtain rfl := Option.some.inj hx
      rfl
  · have htail : ∀ x ∈ evidenceTail lists k (s.head.map Prod.snd),
        x.docId ∈ (s.head.map Prod.snd).map SearchHit.docId := by
      intro x hx
      obtain ⟨hit, hhit, he⟩ := mem_maxSplitHits (List.mem_of_mem_filter hx)
      have hcovered := hended.covers hhit
      rw [he, List.map_map]
      exact hcovered
    have hfront := documents_first k limit hdocs htail
    rw [← List.map_take, List.map_map] at hfront
    exact hfront
  · have hplaced := ((List.take_sublist limit s.head).filter (·.1 = side)).map Prod.snd
    have horder := (List.sublist_append_left _ _).trans (hfair.order side)
    exact (hplaced.trans horder).trans (firsts_sublist [])

end

/-! ## A comparison -/

/-- A hit of a chunk and its document. -/
def sampleHit (chunk doc : String) : SearchHit ℚ where
  chunkId := chunk.toList
  score := 0
  cite := []
  heading := []
  text := []
  docId := doc.toList
  title := []
  pageLabel := []
  chunkType := []
  messageIds := []

/-- Both sides rank the first document on top. -/
def sampleSides : List (List (SearchHit ℚ)) :=
  [[sampleHit "a1" "A", sampleHit "a2" "A", sampleHit "b1" "B"],
    [sampleHit "a1" "A", sampleHit "c1" "C"]]

theorem sampleSides_merge : ∃ s result,
    alternate sampleSides.length (sampleSides.flatten.length + 1) (Turns.start sampleSides) = some s ∧
      interleaveSplitHits sampleSides 60 3 = some result ∧
      Merged sampleSides 3 (s.head.take 3) result :=
  interleave_merges sampleSides 60 3 (by decide +kernel)

end MainframeRag.Retrieve
