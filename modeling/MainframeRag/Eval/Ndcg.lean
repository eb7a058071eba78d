import MainframeRag.Lib.PyText
import MainframeRag.Lib.Ranking
import Mathlib

/-!
# Graded nDCG

`ndcg_at_k` of `eval/retrieval.py`, in exact arithmetic and over any discounts. The achieved gain counts
every document once, the ideal gain counts the list of expected documents: the score is normalized
where that list has no repetition that `k` reaches (`ndcg_normalized_iff`).
-/

namespace MainframeRag.Eval

open PyText Ranking

inductive ExpectedBehavior
  | answer
  | abstain
  deriving DecidableEq

/-- The fields of a golden entry that are scored, as the validator admits them. -/
structure GoldenEntry where
  expectedDocIds : List Text
  expectedHeading : Option Text
  expectedPage : Option Text
  expectedBehavior : ExpectedBehavior
  abstains : expectedBehavior = .abstain → expectedDocIds = []
  answers : expectedBehavior = .answer → expectedDocIds ≠ []

/-- What is read of a hit. -/
structure Hit where
  docId : Text
  heading : Text
  pageLabel : Option Text

variable (U : CharTables)

/-- `gain` -/
def gain (hitDocId hitHeading hitPage : Text) (entry : GoldenEntry) : Nat :=
  if hitDocId ∉ entry.expectedDocIds then 0
  else
    let heading := U.lower (entry.expectedHeading.getD [])
    let page := entry.expectedPage.getD []
    1 + (if heading ≠ [] ∧ heading <:+: U.lower hitHeading then 1 else 0) +
      (if page ≠ [] ∧ hitPage = page then 1 else 0)

def hitGain (entry : GoldenEntry) (hit : Hit) : Nat :=
  gain U hit.docId hit.heading (hit.pageLabel.getD []) entry

/-- `max_gain` -/
def maxGain (entry : GoldenEntry) : Nat :=
  1 + (if entry.expectedHeading.getD [] ≠ [] then 1 else 0) +
    (if entry.expectedPage.getD [] ≠ [] then 1 else 0)

variable {K : Type} [Field K] [LinearOrder K] (discount : Nat → K)

/-- The loop over the hits; `discount i` is `1 / log2(i + 2)`, as `rank` is raised before it is used. -/
def dcgFrom (entry : GoldenEntry) (k : Nat) : List Hit → List Text → Nat → K → K
  | [], _, _, dcg => dcg
  | hit :: hits, seen, rank, dcg =>
    if hit.docId ∈ seen then dcgFrom entry k hits seen rank dcg
    else if rank + 1 > k then dcg
    else dcgFrom entry k hits (hit.docId :: seen) (rank + 1)
      (dcg + hitGain U entry hit * discount rank)

/-- `sum(… for i, g in enumerate(ideal_gains, start=1))` -/
def idcg (entry : GoldenEntry) (k : Nat) : K :=
  weigh discount 0 (List.replicate (min entry.expectedDocIds.length k) (maxGain entry))

/-- `ndcg_at_k` -/
def ndcgAtK (hits : List Hit) (entry : GoldenEntry) (k : Nat) : Option K :=
  if entry.expectedDocIds.length = 0 then none
  else if idcg discount entry k = 0 then none
  else some (dcgFrom U discount entry k hits [] 0 0 / idcg discount entry k)

/-! ## What the score is to say -/

/-- The first chunk of each document. -/
def firstChunks (hits : List Hit) : List Hit := firsts Hit.docId [] hits

/-- How many documents are expected. -/
def expectedCount (entry : GoldenEntry) : Nat := entry.expectedDocIds.dedup.length

/-- The first documents are expected ones with the full gain, as many as there are or `k` shows. -/
def Perfect (entry : GoldenEntry) (k : Nat) (hits : List Hit) : Prop :=
  min k (expectedCount entry) ≤ (firstChunks hits).length ∧
    ∀ hit ∈ (firstChunks hits).take (min k (expectedCount entry)),
      hit.docId ∈ entry.expectedDocIds ∧ hitGain U entry hit = maxGain entry

/-- The first chunk of an expected document is exchanged with the first chunk of an unexpected one that
stands directly above it among the first chunks. -/
inductive Promoted (entry : GoldenEntry) : List Hit → List Hit → Prop
  | swap (before between after : List Hit) (x y : Hit) :
      x.docId ∉ entry.expectedDocIds → y.docId ∈ entry.expectedDocIds →
      x.docId ∉ before.map Hit.docId → y.docId ∉ (before ++ x :: between).map Hit.docId →
      (∀ hit ∈ between, hit.docId ∈ (before ++ [x]).map Hit.docId) →
      Promoted entry (before ++ x :: between ++ y :: after) (before ++ y :: between ++ x :: after)

/-- The score is a normalized one. -/
def Normalized (entry : GoldenEntry) (k : Nat) (hits : List Hit) : Prop :=
  ∃ v, ndcgAtK U discount hits entry k = some v ∧ 0 ≤ v ∧ v ≤ 1 ∧ (v = 1 ↔ Perfect U entry k hits) ∧
    ∀ hits', Promoted entry hits hits' → ∃ v', ndcgAtK U discount hits' entry k = some v' ∧ v ≤ v'

/-- No expected document is repeated within the ranks that `k` shows. -/
def Counted (entry : GoldenEntry) (k : Nat) : Prop :=
  entry.expectedDocIds.Nodup ∨ k ≤ expectedCount entry

/-! ## Gains -/

section

variable {U} {entry : GoldenEntry}

theorem hitGain_eq_zero {hit : Hit} : hitGain U entry hit = 0 ↔ hit.docId ∉ entry.expectedDocIds := by
  unfold hitGain gain
  split
  · next h => exact ⟨fun _ => h, fun _ => rfl⟩
  · next h =>
    refine ⟨fun hz => ?_, fun hno => absurd hno h⟩
    dsimp only at hz
    omega

theorem maxGain_pos (entry : GoldenEntry) : 0 < maxGain entry := by
  unfold maxGain
  omega

theorem hitGain_le (hlower : ∀ t, U.lower t = [] ↔ t = []) (hit : Hit) :
    hitGain U entry hit ≤ maxGain entry := by
  unfold hitGain gain maxGain
  split
  · exact Nat.zero_le _
  · dsimp only
    have hheading : (if U.lower (entry.expectedHeading.getD []) ≠ [] ∧
        U.lower (entry.expectedHeading.getD []) <:+: U.lower hit.heading then 1 else 0) ≤
        if entry.expectedHeading.getD [] ≠ [] then 1 else 0 := by
      split
      · next h => rw [if_pos fun he => h.1 ((hlower _).mpr he)]
      · exact Nat.zero_le _
    have hpage : (if entry.expectedPage.getD [] ≠ [] ∧
        hit.pageLabel.getD [] = entry.expectedPage.getD [] then 1 else 0) ≤
        if entry.expectedPage.getD [] ≠ [] then 1 else 0 := by
      split
      · next h => rw [if_pos h.1]
      · exact Nat.zero_le _
    omega

/-- No more documents gain than are expected. -/
theorem gains_count (hits : List Hit) :
    ((firstChunks hits).map (hitGain U entry)).countP (fun g => 0 < g) ≤ expectedCount entry := by
  rw [List.countP_map, List.countP_eq_length_filter, ← List.length_map (f := Hit.docId)]
  have hnodup : (((firstChunks hits).filter ((fun g => decide (0 < g)) ∘ hitGain U entry)).map
      Hit.docId).Nodup := (firsts_nodup []).sublist (List.filter_sublist.map _)
  refine (List.subperm_of_subset hnodup fun id hid => ?_).length_le
  obtain ⟨hit, hhit, rfl⟩ := List.mem_map.mp hid
  have hpos := (List.mem_filter.mp hhit).2
  simp only [Function.comp_apply, decide_eq_true_eq] at hpos
  rw [List.mem_dedup]
  by_contra hno
  rw [hitGain_eq_zero.mpr hno] at hpos
  exact absurd hpos (lt_irrefl 0)

end

/-! ## The loop -/

section

variable {U} {discount} {entry : GoldenEntry} {k : Nat}

omit [LinearOrder K] in
/-- The loop adds the gains of the first chunks, as far as `k` shows them. -/
theorem dcgFrom_eq (hits : List Hit) : ∀ (seen : List Text) (rank : Nat) (dcg : K),
    dcgFrom U discount entry k hits seen rank dcg =
      dcg + weigh discount rank
        (((firsts Hit.docId seen hits).map (hitGain U entry)).take (k - rank)) := by
  induction hits with
  | nil =>
    intro seen rank dcg
    simp [dcgFrom, firsts]
  | cons hit hits ih =>
    intro seen rank dcg
    rw [dcgFrom]
    by_cases hseen : hit.docId ∈ seen
    · rw [if_pos hseen, firsts_seen hseen, ih]
    · rw [if_neg hseen, firsts_new hseen]
      by_cases hrank : rank + 1 > k
      · rw [if_pos hrank, Nat.sub_eq_zero_of_le (by omega), List.take_zero, weigh_nil, add_zero]
      · obtain ⟨n, hn⟩ : ∃ n, k - rank = n + 1 := ⟨k - rank - 1, by omega⟩
        have hn' : k - (rank + 1) = n := by omega
        rw [if_neg hrank, ih, hn, hn', List.map_cons, List.take_succ_cons, weigh_cons, add_assoc]

omit [LinearOrder K] in
theorem dcg_eq (hits : List Hit) : dcgFrom U discount entry k hits [] 0 0 =
    weigh discount 0 (((firstChunks hits).map (hitGain U entry)).take k) := by
  rw [dcgFrom_eq, zero_add, Nat.sub_zero]
  rfl

/-- The ranks that `k` shows of the expected documents. -/
def shown (entry : GoldenEntry) (k : Nat) : Nat := min k (expectedCount entry)

theorem shown_le : shown entry k ≤ min entry.expectedDocIds.length k := by
  have := (List.dedup_sublist entry.expectedDocIds).length_le
  unfold shown expectedCount
  omega

theorem counted_iff : Counted entry k ↔ shown entry k = min entry.expectedDocIds.length k := by
  have hle := (List.dedup_sublist entry.expectedDocIds).length_le
  unfold Counted shown expectedCount
  constructor
  · rintro (hnodup | hk)
    · rw [hnodup.dedup, min_comm]
    · omega
  · intro heq
    by_cases hk : k ≤ entry.expectedDocIds.dedup.length
    · exact .inr hk
    · left
      have hfull := (List.dedup_sublist entry.expectedDocIds).eq_of_length (by omega)
      exact hfull ▸ List.nodup_dedup _

theorem perfect_iff {hits : List Hit} : Perfect U entry k hits ↔
    (((firstChunks hits).map (hitGain U entry)).take k).take (shown entry k) =
      List.replicate (shown entry k) (maxGain entry) := by
  have hk : min (shown entry k) k = shown entry k := min_eq_left (min_le_left _ _)
  rw [List.take_take, hk, List.eq_replicate_iff, List.length_take, List.length_map, ← List.map_take]
  constructor
  · rintro ⟨hlen, hall⟩
    refine ⟨min_eq_left hlen, fun g hg => ?_⟩
    obtain ⟨hit, hhit, rfl⟩ := List.mem_map.mp hg
    exact (hall hit hhit).2
  · rintro ⟨hlen, hall⟩
    refine ⟨min_eq_left_iff.mp hlen, fun hit hhit => ?_⟩
    have hgain := hall _ (List.mem_map_of_mem hhit)
    refine ⟨?_, hgain⟩
    by_contra hno
    rw [hitGain_eq_zero.mpr hno] at hgain
    exact absurd hgain (maxGain_pos entry).ne

/-! ## The score -/

variable [IsStrictOrderedRing K] (hd : Falling discount) (hlower : ∀ t, U.lower t = [] ↔ t = [])
include hd

theorem idcg_pos (hne : entry.expectedDocIds ≠ []) (hk : 1 ≤ k) : 0 < idcg discount entry k := by
  have hlen := List.length_pos_iff.mpr hne
  have hlt := weigh_replicate_lt hd (maxGain_pos entry)
    (show 0 < min entry.expectedDocIds.length k by omega) 0
  rwa [List.replicate_zero, weigh_nil] at hlt

theorem ndcgAtK_eq (hne : entry.expectedDocIds ≠ []) (hk : 1 ≤ k) (hits : List Hit) :
    ndcgAtK U discount hits entry k =
      some (weigh discount 0 (((firstChunks hits).map (hitGain U entry)).take k) /
        idcg discount entry k) := by
  rw [ndcgAtK, if_neg fun h => hne (List.eq_nil_of_length_eq_zero h),
    if_neg (idcg_pos hd hne hk).ne', dcg_eq]

include hlower in
/-- The achieved gain is at most the ideal one, and reaches it where the ranking is perfect and no
repeated document is counted. -/
theorem dcg_spec (hits : List Hit) :
    weigh discount 0 (((firstChunks hits).map (hitGain U entry)).take k) ≤ idcg discount entry k ∧
      (weigh discount 0 (((firstChunks hits).map (hitGain U entry)).take k) = idcg discount entry k ↔
        Counted entry k ∧ Perfect U entry k hits) := by
  have hle : ∀ g ∈ ((firstChunks hits).map (hitGain U entry)).take k, g ≤ maxGain entry := by
    intro g hg
    obtain ⟨hit, -, rfl⟩ := List.mem_map.mp (List.mem_of_mem_take hg)
    exact hitGain_le hlower hit
  have hcount : (((firstChunks hits).map (hitGain U entry)).take k).countP (fun g => 0 < g) ≤
      shown entry k := by
    refine le_min ?_ ?_
    · exact List.countP_le_length.trans (List.length_take_le _ _)
    · exact ((List.take_sublist _ _).countP_le).trans (gains_count hits)
  obtain ⟨hspec, heq⟩ := weigh_spec hd (maxGain_pos entry) hle hcount 0
  rw [← perfect_iff] at heq
  rw [counted_iff]
  have hshown : shown entry k ≤ min entry.expectedDocIds.length k := shown_le
  rcases hshown.eq_or_lt with hshown | hshown
  · rw [idcg, ← hshown]
    exact ⟨hspec, heq.trans (and_iff_right rfl).symm⟩
  · have hlt := hspec.trans_lt (weigh_replicate_lt hd (maxGain_pos entry) hshown 0)
    exact ⟨hlt.le, fun he => absurd he hlt.ne, fun he => absurd he.1 hshown.ne⟩

omit [LinearOrder K] [IsStrictOrderedRing K] hd in
/-- The exchanged chunks change places among the first chunks, as far as gains go. -/
theorem firstChunks_promoted {hits hits' : List Hit} (h : Promoted entry hits hits') :
    ∃ before after g, (firstChunks hits).map (hitGain U entry) = before ++ 0 :: g :: after ∧
      (firstChunks hits').map (hitGain U entry) = before ++ g :: 0 :: after := by
  obtain ⟨before, between, after, x, y, hx, hy, hxnew, hynew, hbetween⟩ := h
  have hxgain : ∀ z : Hit, z.docId = x.docId → hitGain U entry z = 0 := fun z hz =>
    hitGain_eq_zero.mpr (hz ▸ hx)
  let seen := before.map Hit.docId ++ []
  have hx₀ : x.docId ∉ seen := by simpa [seen] using hxnew
  have hy₀ : y.docId ∉ x.docId :: seen := by
    simp only [List.map_append, List.map_cons, List.mem_append, List.mem_cons, not_or] at hynew
    simp only [seen, List.append_nil, List.mem_cons, not_or]
    exact ⟨hynew.2.1, hynew.1⟩
  have hbetween₀ : ∀ z ∈ between, z.docId ∈ x.docId :: seen := by
    intro z hz
    have := hbetween z hz
    simp only [List.map_append, List.map_cons, List.map_nil, List.mem_append,
      List.mem_singleton] at this
    simp only [seen, List.append_nil, List.mem_cons]
    exact this.symm
  have hold : firstChunks (before ++ x :: between ++ y :: after) = firsts Hit.docId [] before ++
      x :: y :: firsts Hit.docId (y.docId :: x.docId :: seen) after := by
    rw [firstChunks, List.append_assoc, firsts_append, List.cons_append, firsts_pair hx₀ hy₀ hbetween₀]
  -- the first document may have a chunk between the two, which then stands for it
  have hx₁ : x.docId ∉ y.docId :: seen := by
    rw [List.mem_cons, not_or] at hy₀ ⊢
    exact ⟨fun he => hy₀.1 he.symm, hx₀⟩
  have hbetween₁ : ∀ z ∈ between, z.docId ∈ x.docId :: y.docId :: seen := by
    intro z hz
    rcases List.mem_cons.mp (hbetween₀ z hz) with he | he
    · exact he ▸ List.mem_cons_self
    · exact List.mem_cons_of_mem _ (List.mem_cons_of_mem _ he)
  obtain ⟨z, hz, hlater⟩ : ∃ z : Hit, z.docId = x.docId ∧
      firsts Hit.docId (y.docId :: seen) (between ++ x :: after) =
        z :: firsts Hit.docId (x.docId :: y.docId :: seen) after := firsts_later hx₁ hbetween₁
  have hnew : firstChunks (before ++ y :: between ++ x :: after) = firsts Hit.docId [] before ++
      y :: z :: firsts Hit.docId (y.docId :: x.docId :: seen) after := by
    rw [firstChunks, List.append_assoc, firsts_append, List.cons_append,
      firsts_new fun he => hy₀ (List.mem_cons_of_mem _ he), hlater]
    congr 3
    refine firsts_congr fun k => ?_
    simp only [List.mem_cons]
    exact or_left_comm
  refine ⟨(firsts Hit.docId [] before).map (hitGain U entry),
    (firsts Hit.docId (y.docId :: x.docId :: seen) after).map (hitGain U entry), hitGain U entry y, ?_, ?_⟩
  · rw [hold, List.map_append, List.map_cons, List.map_cons, hxgain x rfl]
  · rw [hnew, List.map_append, List.map_cons, List.map_cons, hxgain z hz]

include hlower in
/-- What fails of the normalization is that a perfect ranking scores below 1. -/
theorem normalized_iff (hne : entry.expectedDocIds ≠ []) (hk : 1 ≤ k) (hits : List Hit) :
    Normalized U discount entry k hits ↔ (Perfect U entry k hits → Counted entry k) := by
  have hpos := idcg_pos hd hne hk
  obtain ⟨hle, heq⟩ : weigh discount 0 (((firstChunks hits).map (hitGain U entry)).take k) ≤
      idcg discount entry k ∧ (weigh discount 0 (((firstChunks hits).map (hitGain U entry)).take k) =
        idcg discount entry k ↔ Counted entry k ∧ Perfect U entry k hits) := dcg_spec hd hlower hits
  have hone : weigh discount 0 (((firstChunks hits).map (hitGain U entry)).take k) /
      idcg discount entry k = 1 ↔ Counted entry k ∧ Perfect U entry k hits := by
    rw [div_eq_one_iff_eq hpos.ne', heq]
  constructor
  · rintro ⟨v, hv, -, -, hperfect, -⟩ hp
    rw [ndcgAtK_eq hd hne hk] at hv
    have hv1 := hperfect.mpr hp
    rw [← Option.some.inj hv] at hv1
    exact (hone.mp hv1).1
  · intro hcond
    refine ⟨_, ndcgAtK_eq hd hne hk hits, ?_, (div_le_one hpos).mpr hle, ?_, ?_⟩
    · exact div_nonneg (weigh_nonneg hd _ _) hpos.le
    · rw [hone]
      exact ⟨fun h => h.2, fun h => ⟨hcond h, h⟩⟩
    · intro hits' hpromoted
      refine ⟨_, ndcgAtK_eq hd hne hk hits', ?_⟩
      obtain ⟨before, after, g, hold, hnew⟩ := firstChunks_promoted (U := U) hpromoted
      rw [hold, hnew]
      exact div_le_div_of_nonneg_right (weigh_promote hd before after g k 0) hpos.le

omit [LinearOrder K] [IsStrictOrderedRing K] hd in
include hlower in
/-- Every entry has a perfect ranking: its documents, with the heading and the page asked for. -/
theorem exists_perfect (entry : GoldenEntry) (k : Nat) : ∃ hits, Perfect U entry k hits := by
  let hits := entry.expectedDocIds.dedup.map fun d =>
    (⟨d, entry.expectedHeading.getD [], some (entry.expectedPage.getD [])⟩ : Hit)
  have hdocs : hits.map Hit.docId = entry.expectedDocIds.dedup := by
    simp [hits, Function.comp_def]
  have hfirst : firstChunks hits = hits := by
    refine firsts_of_nodup (by rw [hdocs]; exact List.nodup_dedup _) fun hit _ => List.not_mem_nil
  refine ⟨hits, ?_, fun hit hhit => ?_⟩
  · rw [hfirst, List.length_map]
    exact min_le_right _ _
  · have hmem := List.mem_of_mem_take hhit
    rw [hfirst] at hmem
    obtain ⟨d, hd, rfl⟩ := List.mem_map.mp hmem
    have hin : d ∈ entry.expectedDocIds := List.mem_dedup.mp hd
    refine ⟨hin, ?_⟩
    unfold hitGain gain maxGain
    rw [if_neg (not_not.mpr hin)]
    simp [hlower]

end

/-- The score is normalized for every hit list exactly where no expected document is repeated within the
ranks shown; elsewhere a perfect ranking is what goes wrong. -/
theorem ndcg_normalized_iff [IsStrictOrderedRing K] (hd : Falling discount)
    (hlower : ∀ t, U.lower t = [] ↔ t = []) (entry : GoldenEntry)
    (ha : entry.expectedBehavior = .answer) (k : Nat) (hk : 1 ≤ k) :
    ((∀ hits, Normalized U discount entry k hits) ↔ Counted entry k) ∧
      ∀ hits, ¬ Normalized U discount entry k hits ↔ ¬ Counted entry k ∧ Perfect U entry k hits := by
  have hne := entry.answers ha
  constructor
  · constructor
    · intro hall
      obtain ⟨hits, hperfect⟩ := exists_perfect hlower entry k
      exact (normalized_iff hd hlower hne hk hits).mp (hall hits) hperfect
    · exact fun hc hits => (normalized_iff hd hlower hne hk hits).mpr fun _ => hc
  · intro hits
    rw [normalized_iff hd hlower hne hk hits, Classical.not_imp, and_comm]

/-! ## A repeated document -/

/-- An answer entry for the documents. -/
def answerEntry (docs : List Text) (hne : docs ≠ []) : GoldenEntry where
  expectedDocIds := docs
  expectedHeading := none
  expectedPage := none
  expectedBehavior := .answer
  abstains := fun h => by cases h
  answers := fun _ => hne

def docHit (doc : Text) : Hit := ⟨doc, [], none⟩

/-- `1 / (i + 1)`, for a discount. -/
def harmonic (i : Nat) : ℚ := 1 / ((i + 1 : Nat) : ℚ)

theorem harmonic_falling : Falling harmonic where
  pos i := by
    unfold harmonic
    positivity
  lt i := by
    unfold harmonic
    refine one_div_lt_one_div_of_lt ?_ ?_
    · exact_mod_cast Nat.succ_pos i
    · exact_mod_cast Nat.lt_succ_self (i + 1)

theorem asciiTables_lower (t : Text) : asciiTables.lower t = [] ↔ t = [] := List.map_eq_nil_iff

/-- The only expected document, listed twice, is ranked first: the score is 2/3. -/
theorem repeated_document_scores_low :
    ndcgAtK asciiTables harmonic [docHit ['D']] (answerEntry [['D'], ['D']] (by decide)) 8 =
        some (2 / 3) ∧
      Perfect asciiTables (answerEntry [['D'], ['D']] (by decide)) 8 [docHit ['D']] ∧
      ¬ Normalized asciiTables harmonic (answerEntry [['D'], ['D']] (by decide)) 8 [docHit ['D']] := by
  have hscore : ndcgAtK asciiTables harmonic [docHit ['D']] (answerEntry [['D'], ['D']] (by decide)) 8 =
      some (2 / 3) := by decide +kernel
  have hperfect : Perfect asciiTables (answerEntry [['D'], ['D']] (by decide)) 8 [docHit ['D']] := by
    refine ⟨by decide, fun hit hhit => ?_⟩
    rw [List.mem_singleton.mp (List.mem_of_mem_take hhit)]
    exact ⟨by decide, by decide⟩
  refine ⟨hscore, hperfect, ?_⟩
  rintro ⟨v, hv, -, -, hone, -⟩
  rw [hscore] at hv
  have := hone.mpr hperfect
  rw [← Option.some.inj hv] at this
  norm_num at this

/-- One document, listed once. -/
theorem ndcg_normalized_once :
    Normalized asciiTables harmonic (answerEntry [['D']] (by decide)) 8 [docHit ['D']] :=
  (ndcg_normalized_iff asciiTables harmonic harmonic_falling asciiTables_lower
    (answerEntry [['D']] (by decide)) rfl 8 (by decide)).1.mpr (.inl (List.nodup_singleton _))
    [docHit ['D']]

end MainframeRag.Eval
