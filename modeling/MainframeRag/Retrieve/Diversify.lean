import MainframeRag.Lib.Dict
import MainframeRag.Lib.JsonText
import MainframeRag.Retrieve.Hits
import Mathlib

/-!
# Diversification

`_page_key` and `diversify_hits` of `retrieve/query.py`: three sweeps over the hits, each of which
may end the selection. A sweep that is stopped at a limit is a beginning of the sweep that is not
(`sweep_eq`), so a result is a beginning of one order of all hits (`diversify_eq_take`).
-/

namespace MainframeRag.Retrieve

open PyText JsonText

variable {K : Type}

/-- `_page_key` -/
def pageKey (h : SearchHit K) : Text × Text :=
  match h.pageStart with
  | some page => (h.docId, "pdf:".toList ++ decimal page)
  | none => (h.docId, h.pageLabel)

/-! ## Sweeps -/

/-- What a sweep has selected, the counters and the hits it has left. -/
structure Picked (K : Type) where
  selected : List (SearchHit K) := []
  seenPages : List ((Text × Text) × Nat) := []
  seenDocs : List (Text × Nat) := []
  left : List (SearchHit K) := []

/-- `counts.get(key, 0)` -/
def seen {κ : Type} [DecidableEq κ] (counts : List (κ × Nat)) (key : κ) : Nat :=
  (Dict.get counts key).getD 0

/-- One more under a key. -/
def tally {κ : Type} [DecidableEq κ] (counts : List (κ × Nat)) (key : κ) : List (κ × Nat) :=
  Dict.put counts key (seen counts key + 1)

/-- Only the first sweep counts documents. -/
def Picked.select (s : Picked K) (countDocs : Bool) (h : SearchHit K) : Picked K where
  selected := s.selected ++ [h]
  seenPages := tally s.seenPages (pageKey h)
  seenDocs := if countDocs then tally s.seenDocs h.docId else s.seenDocs
  left := s.left

def Picked.leave (s : Picked K) (h : SearchHit K) : Picked K := { s with left := s.left ++ [h] }

/-- The state the next sweep begins with. -/
def Picked.cleared (s : Picked K) : Picked K := { s with left := [] }

/-- The rule of a sweep. -/
structure Rule (K : Type) where
  accepts : Picked K → SearchHit K → Bool
  countDocs : Bool

def Rule.step (r : Rule K) (s : Picked K) (h : SearchHit K) : Picked K :=
  if r.accepts s h then s.select r.countDocs h else s.leave h

inductive Swept (K : Type)
  /-- the limit is reached -/
  | stopped (selected : List (SearchHit K))
  | swept (s : Picked K)

/-- A loop of `diversify_hits`. The limit is looked at behind every hit; behind one that is left the
selection has not grown. -/
def sweep (r : Rule K) (limit : Nat) : List (SearchHit K) → Picked K → Swept K
  | [], s => .swept s
  | h :: hits, s =>
    let next := r.step s h
    if limit ≤ next.selected.length then .stopped next.selected else sweep r limit hits next

/-- Both caps. -/
def withinBoth (maxPerPage maxPerDoc : Nat) : Rule K where
  accepts s h := seen s.seenPages (pageKey h) < maxPerPage && seen s.seenDocs h.docId < maxPerDoc
  countDocs := true

/-- The page cap alone. -/
def withinPage (maxPerPage : Nat) : Rule K where
  accepts s h := seen s.seenPages (pageKey h) < maxPerPage
  countDocs := false

/-- No cap. -/
def anyHit : Rule K where
  accepts _ _ := true
  countDocs := false

section

variable [LinearOrder K] [Neg K]

/-- The key hits are sorted by: how often their page is seen, then the score from the top. -/
def fillKey (seenPages : List ((Text × Text) × Nat)) (h : SearchHit K) : Nat × K :=
  (seen seenPages (pageKey h), -(h.rerankScore.getD h.score))

/-- `still_remaining.sort(key=…)` -/
def sortByPages (seenPages : List ((Text × Text) × Nat)) (hits : List (SearchHit K)) :
    List (SearchHit K) :=
  hits.mergeSort fun a b =>
    decide ((fillKey seenPages a).1 < (fillKey seenPages b).1 ∨
      (fillKey seenPages a).1 = (fillKey seenPages b).1 ∧
        (fillKey seenPages a).2 ≤ (fillKey seenPages b).2)

/-- The first sweep. -/
def firstPass (hits : List (SearchHit K)) (limit maxPerPage maxPerDoc : Nat) : Swept K :=
  sweep (withinBoth maxPerPage maxPerDoc) limit hits {}

/-- `diversify_hits` -/
def diversifyHits (hits : List (SearchHit K)) (limit maxPerPage maxPerDoc : Nat) :
    List (SearchHit K) :=
  match firstPass hits limit maxPerPage maxPerDoc with
  | .stopped selected => selected
  | .swept first =>
    match sweep (withinPage maxPerPage) limit first.left first.cleared with
    | .stopped selected => selected
    | .swept second =>
      match sweep anyHit limit (sortByPages second.seenPages second.left) second.cleared with
      | .stopped selected => selected
      | .swept third => third.selected

end

/-! ## Members -/

/-- Everything a sweep has in hand. -/
def Swept.hits : Swept K → List (SearchHit K)
  | .stopped selected => selected
  | .swept s => s.selected ++ s.left

theorem step_mem (r : Rule K) (s : Picked K) (h : SearchHit K) :
    (r.step s h).selected ⊆ s.selected ++ [h] ∧
      (r.step s h).selected ++ (r.step s h).left ⊆ s.selected ++ s.left ++ [h] := by
  unfold Rule.step
  split
  · refine ⟨List.Subset.refl _, fun x hx => ?_⟩
    simp only [Picked.select, List.mem_append] at hx ⊢
    tauto
  · refine ⟨List.subset_append_left _ _, fun x hx => ?_⟩
    simp only [Picked.leave, List.mem_append] at hx ⊢
    tauto

theorem sweep_mem (r : Rule K) (limit : Nat) (hits : List (SearchHit K)) : ∀ s : Picked K,
    (sweep r limit hits s).hits ⊆ s.selected ++ s.left ++ hits := by
  induction hits with
  | nil =>
    intro s
    rw [List.append_nil]
    exact List.Subset.refl _
  | cons h hits ih =>
    intro s x hx
    obtain ⟨hselected, hall⟩ := step_mem r s h
    unfold sweep at hx
    dsimp only at hx
    split at hx
    · have hmem := hselected hx
      simp only [List.mem_append, List.mem_cons, List.not_mem_nil, or_false] at hmem ⊢
      tauto
    · have hmem := ih _ hx
      rw [List.mem_append] at hmem
      rcases hmem with hmem | hmem
      · have hmem := hall hmem
        simp only [List.mem_append, List.mem_cons, List.not_mem_nil, or_false] at hmem ⊢
        tauto
      · simp only [List.mem_append, List.mem_cons]
        tauto

/-- A result has no hits of its own, whatever the limit. -/
theorem diversifyHits_mem [LinearOrder K] [Neg K] {hits : List (SearchHit K)}
    {limit maxPerPage maxPerDoc : Nat} :
    diversifyHits hits limit maxPerPage maxPerDoc ⊆ hits := by
  have hfirst := sweep_mem (withinBoth maxPerPage maxPerDoc) limit hits {}
  intro x hx
  unfold diversifyHits firstPass at hx
  generalize sweep (withinBoth maxPerPage maxPerDoc) limit hits {} = swept at hfirst hx
  cases swept with
  | stopped selected => exact hfirst hx
  | swept first =>
    dsimp only at hx
    have hsecond := sweep_mem (withinPage maxPerPage) limit first.left first.cleared
    generalize sweep (withinPage maxPerPage) limit first.left first.cleared = swept at hsecond hx
    have hback : first.cleared.selected ++ first.cleared.left ++ first.left ⊆ hits := by
      intro y hy
      refine hfirst ?_
      simpa [Picked.cleared, Swept.hits] using hy
    cases swept with
    | stopped selected => exact hback (hsecond hx)
    | swept second =>
      dsimp only at hx
      have hthird := sweep_mem anyHit limit (sortByPages second.seenPages second.left) second.cleared
      generalize sweep anyHit limit (sortByPages second.seenPages second.left) second.cleared =
        swept at hthird hx
      have hin : ∀ y ∈ swept.hits, y ∈ hits := by
        intro y hy
        have hmem := hthird hy
        refine hback (hsecond ?_)
        simpa [Picked.cleared, Swept.hits, sortByPages] using hmem
      cases swept with
      | stopped selected => exact hin x hx
      | swept third => exact hin x (List.mem_append_left _ hx)

/-! ## Sweeps without a limit -/

/-- The whole sweep. -/
def sweepAll (r : Rule K) (hits : List (SearchHit K)) (s : Picked K) : Picked K :=
  hits.foldl r.step s

theorem sweepAll_cons (r : Rule K) (h : SearchHit K) (hits : List (SearchHit K)) (s : Picked K) :
    sweepAll r (h :: hits) s = sweepAll r hits (r.step s h) := rfl

theorem step_selected (r : Rule K) (s : Picked K) (h : SearchHit K) :
    (r.step s h).selected = s.selected ++ [h] ∨ (r.step s h).selected = s.selected := by
  unfold Rule.step
  split
  · exact .inl rfl
  · exact .inr rfl

theorem sweepAll_selected (r : Rule K) (hits : List (SearchHit K)) : ∀ s : Picked K,
    s.selected <+: (sweepAll r hits s).selected := by
  induction hits with
  | nil => exact fun s => List.prefix_rfl
  | cons h hits ih =>
    intro s
    rw [sweepAll_cons]
    refine List.IsPrefix.trans ?_ (ih _)
    rcases step_selected r s h with e | e
    · rw [e]
      exact List.prefix_append _ _
    · rw [e]

/-- A sweep with a limit is the whole sweep or a beginning of what that selects. -/
theorem sweep_eq (r : Rule K) {limit : Nat} (hits : List (SearchHit K)) : ∀ {s : Picked K},
    s.selected.length < limit → sweep r limit hits s =
      if (sweepAll r hits s).selected.length < limit then .swept (sweepAll r hits s)
      else .stopped ((sweepAll r hits s).selected.take limit) := by
  induction hits with
  | nil => exact fun h => (if_pos h).symm
  | cons h hits ih =>
    intro s hs
    rw [sweepAll_cons]
    unfold sweep
    dsimp only
    split
    · next hlimit =>
      have hgrown := sweepAll_selected r hits (r.step s h)
      have hlen : (r.step s h).selected.length = limit := by
        rcases step_selected r s h with e | e
        · rw [e, List.length_append, List.length_singleton] at hlimit ⊢
          omega
        · rw [e] at hlimit
          omega
      have hle := hgrown.length_le
      rw [if_neg (by omega), ← hlen, ← List.prefix_iff_eq_take.mp hgrown]
    · next hlimit =>
      exact ih (by omega)

/-- What every sweep keeps: hits are selected or left. -/
theorem sweepAll_perm (r : Rule K) (hits : List (SearchHit K)) : ∀ s : Picked K,
    ((sweepAll r hits s).selected ++ (sweepAll r hits s).left).Perm (s.selected ++ s.left ++ hits) := by
  induction hits with
  | nil =>
    intro s
    rw [List.append_nil]
    exact .refl _
  | cons h hits ih =>
    intro s
    rw [sweepAll_cons]
    refine (ih _).trans ?_
    unfold Rule.step
    split
    · simp only [Picked.select, List.append_assoc]
      refine List.Perm.append_left _ ?_
      rw [List.singleton_append, ← List.cons_append]
      exact List.perm_middle.symm
    · simp only [Picked.leave, List.append_assoc]
      exact .refl _

theorem sweepAll_any (hits : List (SearchHit K)) : ∀ s : Picked K,
    (sweepAll anyHit hits s).selected = s.selected ++ hits := by
  induction hits with
  | nil => exact fun s => (List.append_nil _).symm
  | cons h hits ih =>
    intro s
    rw [sweepAll_cons, ih]
    exact List.append_assoc s.selected [h] hits

/-! ## Counters -/

def pageCount (hits : List (SearchHit K)) (page : Text × Text) : Nat :=
  hits.countP fun h => pageKey h = page

def docCount (hits : List (SearchHit K)) (doc : Text) : Nat := hits.countP fun h => h.docId = doc

theorem pageCount_append (hits more : List (SearchHit K)) (page : Text × Text) :
    pageCount (hits ++ more) page = pageCount hits page + pageCount more page :=
  List.countP_append

theorem pageCount_single (h : SearchHit K) (page : Text × Text) :
    pageCount [h] page = if pageKey h = page then 1 else 0 := by
  simp [pageCount, List.countP_cons]

theorem docCount_append (hits more : List (SearchHit K)) (doc : Text) :
    docCount (hits ++ more) doc = docCount hits doc + docCount more doc := List.countP_append

theorem docCount_single (h : SearchHit K) (doc : Text) :
    docCount [h] doc = if h.docId = doc then 1 else 0 := by
  simp [docCount, List.countP_cons]

theorem pageCount_prefix {hits more : List (SearchHit K)} (h : hits <+: more) (page : Text × Text) :
    pageCount hits page ≤ pageCount more page := by
  obtain ⟨rest, rfl⟩ := h
  rw [pageCount_append]
  exact Nat.le_add_right _ _

theorem docCount_prefix {hits more : List (SearchHit K)} (h : hits <+: more) (doc : Text) :
    docCount hits doc ≤ docCount more doc := by
  obtain ⟨rest, rfl⟩ := h
  rw [docCount_append]
  exact Nat.le_add_right _ _

@[simp] theorem seen_nil {κ : Type} [DecidableEq κ] (key : κ) : seen ([] : List (κ × Nat)) key = 0 :=
  rfl

theorem seen_tally {κ : Type} [DecidableEq κ] (counts : List (κ × Nat)) (key other : κ) :
    seen (tally counts key) other = seen counts other + if key = other then 1 else 0 := by
  by_cases h : other = key
  · subst h
    simp [seen, tally]
  · have hget := Dict.get_put_ne h counts (seen counts key + 1)
    rw [seen, tally, hget, if_neg (Ne.symm h)]
    rfl

/-- The page counter counts what is selected. -/
def Picked.PagesCounted (s : Picked K) : Prop :=
  ∀ page, seen s.seenPages page = pageCount s.selected page

/-- The document counter counts what is selected; only the first sweep keeps it so. -/
def Picked.DocsCounted (s : Picked K) : Prop :=
  ∀ doc, seen s.seenDocs doc = docCount s.selected doc

/-- What every step keeps, a sweep keeps. -/
theorem sweepAll_inv {r : Rule K} {P : Picked K → Prop} (hstep : ∀ s h, P s → P (r.step s h))
    (hits : List (SearchHit K)) : ∀ {s : Picked K}, P s → P (sweepAll r hits s) := by
  induction hits with
  | nil => exact id
  | cons h hits ih => exact fun hs => ih (hstep _ h hs)

theorem step_pagesCounted (r : Rule K) (s : Picked K) (h : SearchHit K) (hs : s.PagesCounted) :
    (r.step s h).PagesCounted := by
  unfold Rule.step
  split
  · intro page
    show seen (tally s.seenPages (pageKey h)) page = pageCount (s.selected ++ [h]) page
    rw [seen_tally, hs page, pageCount_append, pageCount_single]
  · exact hs

theorem step_docsCounted (maxPerPage maxPerDoc : Nat) (s : Picked K) (h : SearchHit K)
    (hs : s.DocsCounted) : ((withinBoth maxPerPage maxPerDoc).step s h).DocsCounted := by
  unfold Rule.step
  split
  · intro doc
    show seen (tally s.seenDocs h.docId) doc = docCount (s.selected ++ [h]) doc
    rw [seen_tally, hs doc, docCount_append, docCount_single]
  · exact hs

/-! ## Caps -/

/-- No page is selected too often. -/
def PagesCapped (maxPerPage : Nat) (s : Picked K) : Prop :=
  s.PagesCounted ∧ ∀ page, pageCount s.selected page ≤ maxPerPage

/-- No document is selected too often. -/
def DocsCapped (maxPerDoc : Nat) (s : Picked K) : Prop :=
  s.DocsCounted ∧ ∀ doc, docCount s.selected doc ≤ maxPerDoc

theorem step_pagesCapped {r : Rule K} {maxPerPage : Nat}
    (hr : ∀ s h, r.accepts s h = true → seen s.seenPages (pageKey h) < maxPerPage) (s : Picked K)
    (h : SearchHit K) (hs : PagesCapped maxPerPage s) : PagesCapped maxPerPage (r.step s h) := by
  refine ⟨step_pagesCounted r s h hs.1, fun page => ?_⟩
  unfold Rule.step
  split
  · next hacc =>
    have hlt := hr s h hacc
    rw [hs.1 (pageKey h)] at hlt
    show pageCount (s.selected ++ [h]) page ≤ maxPerPage
    rw [pageCount_append, pageCount_single]
    split
    · next he => exact he ▸ hlt
    · exact hs.2 page
  · exact hs.2 page

theorem withinPage_spec {maxPerPage : Nat} {s : Picked K} {h : SearchHit K} :
    (withinPage maxPerPage).accepts s h = true ↔ seen s.seenPages (pageKey h) < maxPerPage :=
  decide_eq_true_iff

theorem withinBoth_spec {maxPerPage maxPerDoc : Nat} {s : Picked K} {h : SearchHit K} :
    (withinBoth maxPerPage maxPerDoc).accepts s h = true ↔
      seen s.seenPages (pageKey h) < maxPerPage ∧ seen s.seenDocs h.docId < maxPerDoc := by
  show (decide _ && decide _) = true ↔ _
  rw [Bool.and_eq_true, decide_eq_true_iff, decide_eq_true_iff]

theorem step_docsCapped (maxPerPage maxPerDoc : Nat) (s : Picked K) (h : SearchHit K)
    (hs : DocsCapped maxPerDoc s) :
    DocsCapped maxPerDoc ((withinBoth maxPerPage maxPerDoc).step s h) := by
  refine ⟨step_docsCounted maxPerPage maxPerDoc s h hs.1, fun doc => ?_⟩
  unfold Rule.step
  split
  · next hacc =>
    have hlt := (withinBoth_spec.mp hacc).2
    rw [hs.1 h.docId] at hlt
    show docCount (s.selected ++ [h]) doc ≤ maxPerDoc
    rw [docCount_append, docCount_single]
    split
    · next he => exact he ▸ hlt
    · exact hs.2 doc
  · exact hs.2 doc

/-! ## What is left -/

/-- A hit that is not accepted once is not accepted later. -/
def Rule.Tightens (r : Rule K) : Prop :=
  ∀ s x h, r.accepts (r.step s x) h = true → r.accepts s h = true

theorem seen_select_le (s : Picked K) (countDocs : Bool) (x : SearchHit K) (page : Text × Text)
    (doc : Text) : seen s.seenPages page ≤ seen (s.select countDocs x).seenPages page ∧
      seen s.seenDocs doc ≤ seen (s.select countDocs x).seenDocs doc := by
  constructor
  · show _ ≤ seen (tally s.seenPages (pageKey x)) page
    rw [seen_tally]
    exact Nat.le_add_right _ _
  · cases countDocs with
    | false => exact le_refl _
    | true =>
      show _ ≤ seen (tally s.seenDocs x.docId) doc
      rw [seen_tally]
      exact Nat.le_add_right _ _

theorem withinBoth_tightens (maxPerPage maxPerDoc : Nat) :
    (withinBoth maxPerPage maxPerDoc : Rule K).Tightens := by
  intro s x h hacc
  rw [withinBoth_spec] at hacc ⊢
  unfold Rule.step at hacc
  split at hacc
  · obtain ⟨hpage, hdoc⟩ := seen_select_le s (withinBoth maxPerPage maxPerDoc).countDocs x (pageKey h)
      h.docId
    exact ⟨hpage.trans_lt hacc.1, hdoc.trans_lt hacc.2⟩
  · exact hacc

theorem withinPage_tightens (maxPerPage : Nat) : (withinPage maxPerPage : Rule K).Tightens := by
  intro s x h hacc
  rw [withinPage_spec] at hacc ⊢
  unfold Rule.step at hacc
  split at hacc
  · exact (seen_select_le s _ x (pageKey h) h.docId).1.trans_lt hacc
  · exact hacc

/-- A sweep leaves what its rule does not accept at its end. -/
theorem sweepAll_left {r : Rule K} (hr : r.Tightens) (hits : List (SearchHit K)) : ∀ {s : Picked K},
    (∀ h ∈ s.left, r.accepts s h = false) →
    ∀ h ∈ (sweepAll r hits s).left, r.accepts (sweepAll r hits s) h = false := by
  induction hits with
  | nil => exact id
  | cons x hits ih =>
    intro s hs
    refine ih fun h hh => ?_
    have hback : r.accepts s h = false → r.accepts (r.step s x) h = false := fun he => by
      by_contra hne
      exact absurd (hr s x h (by simpa using hne)) (by simp [he])
    refine hback ?_
    unfold Rule.step at hh
    split at hh
    · exact hs h hh
    · next hacc =>
      rcases List.mem_append.mp hh with hh | hh
      · exact hs h hh
      · rw [List.mem_singleton.mp hh]
        exact eq_false_of_ne_true hacc

/-! ## Beginnings of an order -/

/-- A beginning of an order that is as long as the limit begins the result. -/
theorem take_of_prefix {α : Type} {front full : List α} (h : front <+: full)
    {limit : Nat} (hlen : ¬ front.length < limit) : front.take limit = full.take limit := by
  have hle := h.length_le
  exact (h.take limit).eq_of_length (by
    rw [List.length_take, List.length_take]
    omega)

/-- Two beginnings of one list: the one that is not short of the other begins with it. -/
theorem prefix_take {α : Type} {front full : List α} (h : front <+: full) (limit : Nat) :
    full.take limit <+: front ∨ front <+: full.take limit := by
  rcases le_total limit front.length with hle | hle
  · exact .inl (List.prefix_of_prefix_length_le (List.take_prefix _ _) h
      ((List.length_take_le _ _).trans hle))
  · refine .inr (List.prefix_of_prefix_length_le h (List.take_prefix _ _) ?_)
    have hlen := h.length_le
    rw [List.length_take]
    omega

/-! ## The whole selection -/

section

variable [LinearOrder K] [Neg K] (hits : List (SearchHit K)) (maxPerPage maxPerDoc : Nat)

/-- The first sweep without a limit. -/
def firstState : Picked K := sweepAll (withinBoth maxPerPage maxPerDoc) hits {}

/-- The second sweep without a limit. -/
def secondState : Picked K :=
  let first := firstState hits maxPerPage maxPerDoc
  sweepAll (withinPage maxPerPage) first.left first.cleared

/-- The order all hits are selected in. -/
def fullOrder : List (SearchHit K) :=
  let second := secondState hits maxPerPage maxPerDoc
  second.selected ++ sortByPages second.seenPages second.left

omit [LinearOrder K] [Neg K] in
theorem firstState_perm :
    ((firstState hits maxPerPage maxPerDoc).selected ++
      (firstState hits maxPerPage maxPerDoc).left).Perm hits :=
  sweepAll_perm _ hits {}

omit [LinearOrder K] [Neg K] in
theorem firstState_secondState : (firstState hits maxPerPage maxPerDoc).selected <+:
    (secondState hits maxPerPage maxPerDoc).selected :=
  sweepAll_selected _ _ (firstState hits maxPerPage maxPerDoc).cleared

omit [LinearOrder K] [Neg K] in
theorem secondState_perm :
    ((secondState hits maxPerPage maxPerDoc).selected ++
      (secondState hits maxPerPage maxPerDoc).left).Perm hits := by
  refine (sweepAll_perm _ _ (firstState hits maxPerPage maxPerDoc).cleared).trans ?_
  show ((firstState hits maxPerPage maxPerDoc).selected ++ [] ++ _).Perm hits
  rw [List.append_nil]
  exact firstState_perm hits maxPerPage maxPerDoc

theorem fullOrder_perm : (fullOrder hits maxPerPage maxPerDoc).Perm hits :=
  ((List.mergeSort_perm _ _).append_left _).trans (secondState_perm hits maxPerPage maxPerDoc)

theorem secondState_fullOrder : (secondState hits maxPerPage maxPerDoc).selected <+:
    fullOrder hits maxPerPage maxPerDoc :=
  List.prefix_append _ _

variable {limit : Nat} (hlimit : 0 < limit)
include hlimit

omit [LinearOrder K] [Neg K] in
theorem firstPass_eq : firstPass hits limit maxPerPage maxPerDoc =
    if (firstState hits maxPerPage maxPerDoc).selected.length < limit then
      .swept (firstState hits maxPerPage maxPerDoc)
    else .stopped ((firstState hits maxPerPage maxPerDoc).selected.take limit) :=
  sweep_eq _ hits hlimit

omit hlimit [LinearOrder K] [Neg K] in
theorem secondPass_eq (h : (firstState hits maxPerPage maxPerDoc).selected.length < limit) :
    sweep (withinPage maxPerPage) limit (firstState hits maxPerPage maxPerDoc).left
        (firstState hits maxPerPage maxPerDoc).cleared =
      if (secondState hits maxPerPage maxPerDoc).selected.length < limit then
        .swept (secondState hits maxPerPage maxPerDoc)
      else .stopped ((secondState hits maxPerPage maxPerDoc).selected.take limit) :=
  sweep_eq (withinPage maxPerPage) _ (s := (firstState hits maxPerPage maxPerDoc).cleared) h

omit hlimit in
theorem thirdPass_eq (h : (secondState hits maxPerPage maxPerDoc).selected.length < limit) :
    (match sweep anyHit limit (sortByPages (secondState hits maxPerPage maxPerDoc).seenPages
        (secondState hits maxPerPage maxPerDoc).left) (secondState hits maxPerPage maxPerDoc).cleared with
      | .stopped selected => selected
      | .swept third => third.selected) = (fullOrder hits maxPerPage maxPerDoc).take limit := by
  rw [sweep_eq anyHit _ (s := (secondState hits maxPerPage maxPerDoc).cleared) h, sweepAll_any]
  split
  · next heq =>
    split at heq
    · cases heq
    · rw [← Swept.stopped.inj heq]
      rfl
  · next heq =>
    split at heq
    · next hlen =>
      rw [← Swept.swept.inj heq, sweepAll_any]
      exact (List.take_of_length_le (le_of_lt hlen)).symm
    · cases heq

/-- A result is a beginning of the order all hits are selected in. -/
theorem diversify_eq_take : diversifyHits hits limit maxPerPage maxPerDoc =
    (fullOrder hits maxPerPage maxPerDoc).take limit := by
  have hfirst := firstState_secondState hits maxPerPage maxPerDoc
  have hsecond := secondState_fullOrder hits maxPerPage maxPerDoc
  unfold diversifyHits
  rw [firstPass_eq hits maxPerPage maxPerDoc hlimit]
  by_cases h1 : (firstState hits maxPerPage maxPerDoc).selected.length < limit
  · rw [if_pos h1]
    dsimp only
    rw [secondPass_eq hits maxPerPage maxPerDoc h1]
    by_cases h2 : (secondState hits maxPerPage maxPerDoc).selected.length < limit
    · rw [if_pos h2]
      exact thirdPass_eq hits maxPerPage maxPerDoc h2
    · rw [if_neg h2]
      exact take_of_prefix hsecond h2
  · rw [if_neg h1]
    exact take_of_prefix (hfirst.trans hsecond) h1

end

/-! ## Caps of a result -/

/-- What a result keeps to. -/
structure Diverse (hits : List (SearchHit K)) (limit maxPerPage maxPerDoc : Nat)
    (result : List (SearchHit K)) : Prop where
  size : result.length = min limit hits.length
  distinct : result.Nodup
  subset : ∀ h ∈ result, h ∈ hits
  pages : ∀ page, maxPerPage < pageCount result page →
    ∀ h ∈ hits, pageCount result (pageKey h) < maxPerPage → h ∈ result
  docs : ∀ doc, maxPerDoc < docCount result doc →
    ∃ first, firstPass hits limit maxPerPage maxPerDoc = .swept first ∧ first.selected <+: result ∧
      ∀ h ∈ hits, h ∉ first.selected →
        ¬ (pageCount first.selected (pageKey h) < maxPerPage ∧
          docCount first.selected h.docId < maxPerDoc)

theorem firstState_pages (hits : List (SearchHit K)) (maxPerPage maxPerDoc : Nat) :
    PagesCapped maxPerPage (firstState hits maxPerPage maxPerDoc) :=
  sweepAll_inv (step_pagesCapped fun _ _ h => (withinBoth_spec.mp h).1) hits
    ⟨fun _ => rfl, fun _ => Nat.zero_le _⟩

theorem firstState_docs (hits : List (SearchHit K)) (maxPerPage maxPerDoc : Nat) :
    DocsCapped maxPerDoc (firstState hits maxPerPage maxPerDoc) :=
  sweepAll_inv (step_docsCapped maxPerPage maxPerDoc) hits ⟨fun _ => rfl, fun _ => Nat.zero_le _⟩

theorem secondState_pages (hits : List (SearchHit K)) (maxPerPage maxPerDoc : Nat) :
    PagesCapped maxPerPage (secondState hits maxPerPage maxPerDoc) :=
  sweepAll_inv (step_pagesCapped fun _ _ h => withinPage_spec.mp h) _
    (firstState_pages hits maxPerPage maxPerDoc)

/-- A hit that no sweep under a cap selects stands on a full page. -/
theorem secondState_left {hits : List (SearchHit K)} {maxPerPage maxPerDoc : Nat} {h : SearchHit K}
    (hh : h ∈ hits) (hnew : h ∉ (secondState hits maxPerPage maxPerDoc).selected) :
    maxPerPage ≤ pageCount (secondState hits maxPerPage maxPerDoc).selected (pageKey h) := by
  have hmem := (secondState_perm hits maxPerPage maxPerDoc).mem_iff.mpr hh
  have hleft : h ∈ (secondState hits maxPerPage maxPerDoc).left :=
    (List.mem_append.mp hmem).resolve_left hnew
  have hreject := sweepAll_left (withinPage_tightens maxPerPage) _
    (fun x hx => absurd hx List.not_mem_nil) h hleft
  have hcount := (secondState_pages hits maxPerPage maxPerDoc).1 (pageKey h)
  rw [← Bool.not_eq_true, withinPage_spec, not_lt] at hreject
  exact hcount ▸ hreject

/-- A hit that the first sweep does not select stands on a full page or in a full document. -/
theorem firstState_left {hits : List (SearchHit K)} {maxPerPage maxPerDoc : Nat} {h : SearchHit K}
    (hh : h ∈ hits) (hnew : h ∉ (firstState hits maxPerPage maxPerDoc).selected) :
    ¬ (pageCount (firstState hits maxPerPage maxPerDoc).selected (pageKey h) < maxPerPage ∧
      docCount (firstState hits maxPerPage maxPerDoc).selected h.docId < maxPerDoc) := by
  have hmem := (firstState_perm hits maxPerPage maxPerDoc).mem_iff.mpr hh
  have hleft : h ∈ (firstState hits maxPerPage maxPerDoc).left :=
    (List.mem_append.mp hmem).resolve_left hnew
  have hreject := sweepAll_left (withinBoth_tightens maxPerPage maxPerDoc) hits (by simp) h hleft
  have hpages := (firstState_pages hits maxPerPage maxPerDoc).1 (pageKey h)
  have hdocs := (firstState_docs hits maxPerPage maxPerDoc).1 h.docId
  rw [← Bool.not_eq_true, withinBoth_spec] at hreject
  rwa [← hpages, ← hdocs]

/-- Diversification keeps to its caps as far as the hits allow, and a higher limit only adds. -/
theorem diversify_spec [LinearOrder K] [Neg K] (hits : List (SearchHit K)) (hnodup : hits.Nodup)
    (limit maxPerPage maxPerDoc : Nat) (hlimit : 1 ≤ limit) :
    Diverse hits limit maxPerPage maxPerDoc (diversifyHits hits limit maxPerPage maxPerDoc) ∧
      diversifyHits hits limit maxPerPage maxPerDoc <+:
        diversifyHits hits (limit + 1) maxPerPage maxPerDoc := by
  have hperm := fullOrder_perm hits maxPerPage maxPerDoc
  have hfull := secondState_fullOrder hits maxPerPage maxPerDoc
  rw [diversify_eq_take hits maxPerPage maxPerDoc hlimit,
    diversify_eq_take hits maxPerPage maxPerDoc (Nat.succ_pos limit)]
  refine ⟨?_, List.take_prefix_take_left (Nat.le_succ limit)⟩
  refine
    { size := by rw [List.length_take, hperm.length_eq]
      distinct := (hperm.nodup_iff.mpr hnodup).sublist (List.take_sublist _ _)
      subset := fun h hh => hperm.mem_iff.mp (List.mem_of_mem_take hh)
      pages := fun page hpage h hh hbelow => ?_
      docs := fun doc hdoc => ?_ }
  · rcases prefix_take hfull limit with hshort | hlong
    · have hcap := (secondState_pages hits maxPerPage maxPerDoc).2 page
      have hle := pageCount_prefix hshort page
      omega
    · by_contra hnew
      have hnew' : h ∉ (secondState hits maxPerPage maxPerDoc).selected := fun hs =>
        hnew (hlong.subset hs)
      have hleft := secondState_left hh hnew'
      have hle := pageCount_prefix hlong (pageKey h)
      omega
  · have hfirst := (firstState_secondState hits maxPerPage maxPerDoc).trans hfull
    have hpass := firstPass_eq hits maxPerPage maxPerDoc hlimit
    rcases prefix_take hfirst limit with hshort | hlong
    · have hcap := (firstState_docs hits maxPerPage maxPerDoc).2 doc
      have hle := docCount_prefix hshort doc
      omega
    · refine ⟨firstState hits maxPerPage maxPerDoc, ?_, hlong, fun h hh hnew => firstState_left hh hnew⟩
      rw [hpass, if_pos]
      by_contra hlen
      have hshort : (fullOrder hits maxPerPage maxPerDoc).take limit <+:
          (firstState hits maxPerPage maxPerDoc).selected :=
        List.prefix_of_prefix_length_le (List.take_prefix _ _) hfirst (by
          rw [List.length_take]
          omega)
      have hcap := (firstState_docs hits maxPerPage maxPerDoc).2 doc
      have hle := docCount_prefix hshort doc
      omega

/-- A hit on a page of a document. -/
def pagedHit (chunk doc : String) (page : Int) : SearchHit Int where
  chunkId := chunk.toList
  score := 0
  cite := []
  heading := []
  text := []
  docId := doc.toList
  title := []
  pageLabel := []
  chunkType := []
  messageIds := []
  pageStart := some page

/-- Two chunks of one page and one of another document. -/
def pagedHits : List (SearchHit Int) := [pagedHit "a1" "A" 3, pagedHit "a2" "A" 3, pagedHit "b1" "B" 0]

theorem pagedHits_diverse :
    Diverse pagedHits 2 1 3 (diversifyHits pagedHits 2 1 3) ∧
      diversifyHits pagedHits 2 1 3 <+: diversifyHits pagedHits 3 1 3 :=
  diversify_spec pagedHits (by decide +kernel) 2 1 3 (by decide)

end MainframeRag.Retrieve
