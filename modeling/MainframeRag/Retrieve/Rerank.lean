import MainframeRag.Lib.StableSort
import MainframeRag.Retrieve.Hits
import Mathlib

/-!
# Reranking

`rerank_candidates` of `retrieve/rerank.py` in exact arithmetic. The blend of the normalised
cross-encoder and RRF scores is monotone in both (`blend_lt`), because normalising over a pool keeps
strict order whether or not the pool is constant (`norm_lt_norm`).
-/

namespace MainframeRag.Retrieve

open PyText StableSort

/-! ## Passages -/

/-- `RERANK_PASSAGE_MAX_CHARS` -/
def rerankPassageMaxChars : Nat := 3000

/-- `_rerank_body_label` -/
def rerankBodyLabel (chunkType : Text) : Option Text :=
  if chunkType = "syntax".toList then some "Syntax:".toList
  else if chunkType = "table".toList then some "Table:".toList
  else none

/-- `head` of a passage: everything above the body. -/
def rerankHead {K : Type} (hit : SearchHit K) : Text :=
  let info := joinNonempty [' '] [hit.product.getD [], hit.version.getD [], hit.docId]
  let tags := joinNonempty [' '] (('[' :: hit.chunkType ++ [']']) :: hit.messageIds)
  let header := joinNonempty [' '] [info, tags]
  joinNonempty ['\n']
    [header, hit.title, hit.heading, (rerankBodyLabel hit.chunkType).getD []]

/-- `format_rerank_text` -/
def formatRerankText {K : Type} (hit : SearchHit K) : Text :=
  let head := rerankHead hit
  let used := if head = [] then 0 else head.length + 1
  if hit.text = [] ∨ rerankPassageMaxChars < used then head.take rerankPassageMaxChars
  else if head = [] then hit.text.take (rerankPassageMaxChars - used)
  else head ++ '\n' :: hit.text.take (rerankPassageMaxChars - used)

/-- A passage never exceeds the cap. -/
theorem formatRerankText_length {K : Type} (hit : SearchHit K) :
    (formatRerankText hit).length ≤ rerankPassageMaxChars := by
  unfold formatRerankText
  dsimp only
  generalize rerankHead hit = head
  by_cases hhead : head = []
  · simp only [if_pos hhead]
    split
    · exact List.length_take_le _ _
    · exact (List.length_take_le _ _).trans (Nat.sub_le _ _)
  · simp only [if_neg hhead]
    split
    · exact List.length_take_le _ _
    · next h =>
      rw [not_or, not_lt] at h
      rw [List.length_append, List.length_cons, List.length_take]
      omega

/-! ## The blend -/

section

variable {K : Type} [Field K] [LinearOrder K]

/-- `(v - lo) / (hi - lo)`, or one half where all values are the same. -/
def norm (lo hi v : K) : K := if hi = lo then 1 / ((2 : Nat) : K) else (v - lo) / (hi - lo)

/-- `_minmax`; in exact arithmetic the span is finite. -/
def minmax (values : List K) : List K :=
  values.map (norm (values.min?.getD 0) (values.max?.getD 0))

/-- `min(1.0, max(0.0, alpha))` -/
def clampAlpha (alpha : K) : K := min 1 (max 0 alpha)

/-- An entry of `ranked`. -/
structure Blended (K : Type) where
  blend : K
  ce : K
  hit : SearchHit K

/-- `ranked` before it is sorted. -/
def blended (candidates : List (SearchHit K)) (scores : List K) (alpha : K) : List (Blended K) :=
  let ceNorm := minmax scores
  let rrfNorm := minmax (candidates.map SearchHit.score)
  ((candidates.zip scores).zip (ceNorm.zip rrfNorm)).map fun ((cand, ce), (cn, rn)) =>
    { blend := alpha * cn + (1 - alpha) * rn, ce := ce, hit := cand.withRerank ce }

/-- `(t[0], t[2])` -/
def rrfKey (t : Blended K) : K ×ₗ K := toLex (t.blend, t.hit.score)

/-- `(t[0], t[1], t[2], t[3])` -/
def blendKey (t : Blended K) : K ×ₗ K ×ₗ K ×ₗ Text :=
  toLex (t.blend, toLex (t.ce, toLex (t.hit.score, t.hit.chunkId)))

/-- `out` of a scored pool; `alpha` is clamped. -/
def rerankOrder (candidates : List (SearchHit K)) (scores : List K) (alpha : K) :
    List (SearchHit K) :=
  let ranked := blended candidates scores alpha
  (if alpha = 0 then sortDescending rrfKey ranked else sortDescending blendKey ranked).map
    Blended.hit

/-- `out[:top_k]` -/
def takeTop {α : Type} : Option Int → List α → List α
  | none, l => l
  | some (.ofNat n), l => l.take n
  | some (.negSucc n), l => l.take (l.length - (n + 1))

/-- Why a rerank fails: the reranker raises, or answers with another number of scores. -/
inductive RerankError where
  | raised
  | counts (scores candidates : Nat)
  deriving DecidableEq

/-- `rerank_candidates` -/
def rerankCandidates (score : Text → List Text → Option (List K)) (query : Text)
    (candidates : List (SearchHit K)) (topK : Option Int) (alpha : K) :
    Except RerankError (List (SearchHit K)) :=
  if candidates = [] then .ok []
  else
    match score query (candidates.map formatRerankText) with
    | none => .error .raised
    | some scores =>
      if scores.length ≠ candidates.length then
        .error (.counts scores.length candidates.length)
      else .ok (takeTop topK (rerankOrder candidates scores (clampAlpha alpha)))

theorem mem_takeTop {α : Type} {topK : Option Int} {l : List α} {x : α} (h : x ∈ takeTop topK l) :
    x ∈ l := by
  unfold takeTop at h
  split at h
  · exact h
  · exact List.mem_of_mem_take h
  · exact List.mem_of_mem_take h

/-- A ranked hit is a candidate with its cross-encoder score. -/
theorem mem_rerankOrder {candidates : List (SearchHit K)} {scores : List K} {alpha : K}
    {x : SearchHit K} (h : x ∈ rerankOrder candidates scores alpha) :
    ∃ cand ∈ candidates, ∃ ce, x = cand.withRerank ce := by
  have hblended : ∀ t ∈ blended candidates scores alpha,
      ∃ cand ∈ candidates, ∃ ce, t.hit = cand.withRerank ce := by
    intro t ht
    obtain ⟨⟨⟨cand, ce⟩, norms⟩, he, rfl⟩ := List.mem_map.mp ht
    exact ⟨cand, (List.of_mem_zip (List.of_mem_zip he).1).1, ce, rfl⟩
  unfold rerankOrder at h
  dsimp only at h
  obtain ⟨t, ht, rfl⟩ := List.mem_map.mp h
  split at ht
  · exact hblended t ((sortDescending_perm _ _).mem_iff.mp ht)
  · exact hblended t ((sortDescending_perm _ _).mem_iff.mp ht)

theorem mem_rerankCandidates {score : Text → List Text → Option (List K)} {query : Text}
    {candidates ranked : List (SearchHit K)} {topK : Option Int} {alpha : K}
    (h : rerankCandidates score query candidates topK alpha = .ok ranked) :
    ∀ x ∈ ranked, ∃ cand ∈ candidates, ∃ ce, x = cand.withRerank ce := by
  intro x hx
  unfold rerankCandidates at h
  split at h
  · cases h
    cases hx
  · split at h
    · cases h
    · split at h
      · cases h
      · cases h
        exact mem_rerankOrder (mem_takeTop hx)

/-! ## Normalising keeps strict order -/

theorem minmax_eq {values : List K} {lo hi : K} (hlo : values.min? = some lo)
    (hhi : values.max? = some hi) : minmax values = values.map (norm lo hi) := by
  unfold minmax
  rw [hlo, hhi]
  rfl

omit [Field K] in
theorem exists_bounds {values : List K} (h : values ≠ []) : ∃ lo hi, values.min? = some lo ∧
    values.max? = some hi ∧ ∀ v ∈ values, lo ≤ v ∧ v ≤ hi := by
  obtain ⟨lo, hlo⟩ := Option.isSome_iff_exists.mp (List.isSome_min?_of_ne_nil h)
  obtain ⟨hi, hhi⟩ := Option.isSome_iff_exists.mp (List.isSome_max?_of_ne_nil h)
  exact ⟨lo, hi, hlo, hhi, fun v hv =>
    ⟨(List.min?_eq_some_iff.mp hlo).2 v hv, (List.max?_eq_some_iff.mp hhi).2 v hv⟩⟩

variable [IsStrictOrderedRing K]

theorem norm_lt_norm {lo hi v w : K} (hv : lo ≤ v ∧ v ≤ hi) (hw : lo ≤ w ∧ w ≤ hi) :
    norm lo hi v < norm lo hi w ↔ v < w := by
  unfold norm
  split
  · next h =>
    have hvw : v = w := by
      rw [le_antisymm (hv.2.trans h.le) hv.1, le_antisymm (hw.2.trans h.le) hw.1]
    rw [hvw]
    exact iff_of_false (lt_irrefl _) (lt_irrefl _)
  · next h =>
    have hspan : 0 < hi - lo := sub_pos.mpr (lt_of_le_of_ne (hv.1.trans hv.2) (Ne.symm h))
    rw [div_lt_div_iff_of_pos_right hspan, sub_lt_sub_iff_right]

theorem norm_le_norm {lo hi v w : K} (hv : lo ≤ v ∧ v ≤ hi) (hw : lo ≤ w ∧ w ≤ hi) :
    norm lo hi v ≤ norm lo hi w ↔ v ≤ w := by
  rw [← not_lt, ← not_lt, norm_lt_norm hw hv]

/-! ## The order of a pool -/

/-- A pool lies inside bounds of its two scores. -/
structure InPool (ceLo ceHi rrfLo rrfHi : K) (x : SearchHit K × K) : Prop where
  ce : ceLo ≤ x.2 ∧ x.2 ≤ ceHi
  rrf : rrfLo ≤ x.1.score ∧ x.1.score ≤ rrfHi

/-- The entry of a candidate and its cross-encoder score. -/
def entryOf (ceLo ceHi rrfLo rrfHi alpha : K) (x : SearchHit K × K) : Blended K :=
  { blend := alpha * norm ceLo ceHi x.2 + (1 - alpha) * norm rrfLo rrfHi x.1.score
    ce := x.2
    hit := x.1.withRerank x.2 }

omit [IsStrictOrderedRing K] in
theorem blended_eq {candidates : List (SearchHit K)} {scores : List K} {ceLo ceHi rrfLo rrfHi : K}
    (hceLo : scores.min? = some ceLo) (hceHi : scores.max? = some ceHi)
    (hrrfLo : (candidates.map SearchHit.score).min? = some rrfLo)
    (hrrfHi : (candidates.map SearchHit.score).max? = some rrfHi) (alpha : K) :
    blended candidates scores alpha =
      (candidates.zip scores).map (entryOf ceLo ceHi rrfLo rrfHi alpha) := by
  unfold blended
  dsimp only
  rw [minmax_eq hceLo hceHi, minmax_eq hrrfLo hrrfHi]
  clear hceLo hceHi hrrfLo hrrfHi
  induction candidates generalizing scores with
  | nil => rfl
  | cons cand candidates ih =>
    cases scores with
    | nil => rfl
    | cons ce scores =>
      simp only [List.map_cons, List.zip_cons_cons, List.cons.injEq]
      exact ⟨rfl, ih⟩

section

variable {ceLo ceHi rrfLo rrfHi alpha : K} {x y : SearchHit K × K}

/-- At least as good on both scores and better on one that has weight is a higher blend. -/
theorem blend_lt (hx : InPool ceLo ceHi rrfLo rrfHi x) (hy : InPool ceLo ceHi rrfLo rrfHi y)
    (hpos : 0 ≤ alpha) (hone : alpha ≤ 1) (hce : x.2 ≤ y.2) (hrrf : x.1.score ≤ y.1.score)
    (hstrict : x.2 < y.2 ∧ 0 < alpha ∨ x.1.score < y.1.score ∧ alpha < 1) :
    (entryOf ceLo ceHi rrfLo rrfHi alpha x).blend < (entryOf ceLo ceHi rrfLo rrfHi alpha y).blend := by
  have hcn := mul_le_mul_of_nonneg_left ((norm_le_norm hx.ce hy.ce).mpr hce) hpos
  have hrn := mul_le_mul_of_nonneg_left ((norm_le_norm hx.rrf hy.rrf).mpr hrrf)
    (sub_nonneg.mpr hone)
  rcases hstrict with ⟨hlt, hweight⟩ | ⟨hlt, hweight⟩
  · exact add_lt_add_of_lt_of_le
      (mul_lt_mul_of_pos_left ((norm_lt_norm hx.ce hy.ce).mpr hlt) hweight) hrn
  · exact add_lt_add_of_le_of_lt hcn
      (mul_lt_mul_of_pos_left ((norm_lt_norm hx.rrf hy.rrf).mpr hlt) (sub_pos.mpr hweight))

/-- With all the weight on the cross-encoder the blend is its order. -/
theorem blend_one (hx : InPool ceLo ceHi rrfLo rrfHi x) (hy : InPool ceLo ceHi rrfLo rrfHi y) :
    (entryOf ceLo ceHi rrfLo rrfHi 1 x).blend < (entryOf ceLo ceHi rrfLo rrfHi 1 y).blend ↔
      x.2 < y.2 := by
  simp only [entryOf, one_mul, sub_self, zero_mul, add_zero]
  exact norm_lt_norm hx.ce hy.ce

/-- With none it is the RRF order. -/
theorem blend_zero (hx : InPool ceLo ceHi rrfLo rrfHi x) (hy : InPool ceLo ceHi rrfLo rrfHi y) :
    (entryOf ceLo ceHi rrfLo rrfHi 0 x).blend < (entryOf ceLo ceHi rrfLo rrfHi 0 y).blend ↔
      x.1.score < y.1.score := by
  simp only [entryOf, zero_mul, sub_zero, one_mul, zero_add]
  exact norm_lt_norm hx.rrf hy.rrf

end

end

/-! ## What reranking returns -/

section

variable {K : Type} [Field K] [LinearOrder K]

/-- The cross-encoder score a hit carries. -/
def ceScore (h : SearchHit K) : K := h.rerankScore.getD 0

/-- `(rerank_score, RRF score, chunk_id)` -/
def legacyKey (h : SearchHit K) : K ×ₗ K ×ₗ Text :=
  toLex (ceScore h, toLex (h.score, h.chunkId))

/-- `a` is at least as good as `b` on both scores and better on one that has weight. -/
structure Better (alpha : K) (a b : SearchHit K) : Prop where
  ce : ceScore b ≤ ceScore a
  rrf : b.score ≤ a.score
  strict : ceScore b < ceScore a ∧ 0 < alpha ∨ b.score < a.score ∧ alpha < 1

/-- What a pool is ranked to. -/
structure Reranked (candidates : List (SearchHit K)) (scores : List K) (alpha : K)
    (ranked : List (SearchHit K)) : Prop where
  perm : ranked.Perm (candidates.zipWith SearchHit.withRerank scores)
  ceOrder : 1 ≤ alpha → ranked.Pairwise fun a b => legacyKey b ≤ legacyKey a
  ceStable : 1 ≤ alpha →
    ranked = sortDescending legacyKey (candidates.zipWith SearchHit.withRerank scores)
  rrfOrder : alpha ≤ 0 → (candidates.Pairwise fun a b => b.score ≤ a.score) →
    ranked = candidates.zipWith SearchHit.withRerank scores
  monotone : ranked.Pairwise fun a b => ¬ Better alpha b a

section

variable [IsStrictOrderedRing K] {candidates : List (SearchHit K)} {scores : List K} {alpha : K}

theorem clampAlpha_bounds (alpha : K) : 0 ≤ clampAlpha alpha ∧ clampAlpha alpha ≤ 1 :=
  ⟨le_min zero_le_one (le_max_left _ _), min_le_left _ _⟩

theorem clampAlpha_of_one_le (h : 1 ≤ alpha) : clampAlpha alpha = 1 := by
  unfold clampAlpha
  rw [max_eq_right (zero_le_one.trans h), min_eq_left h]

theorem clampAlpha_of_le_zero (h : alpha ≤ 0) : clampAlpha alpha = 0 := by
  unfold clampAlpha
  rw [max_eq_left h, min_eq_right zero_le_one]

/-- The clamped weight of a score is positive where the given one is. -/
theorem clampAlpha_weights (alpha : K) :
    (0 < alpha → 0 < clampAlpha alpha) ∧ (alpha < 1 → clampAlpha alpha < 1) := by
  unfold clampAlpha
  constructor
  · intro h
    rw [max_eq_right h.le]
    exact lt_min one_pos h
  · intro h
    exact (min_le_right _ _).trans_lt (max_lt one_pos h)

omit [IsStrictOrderedRing K] in
/-- A scored pool is entries inside the bounds of its scores. -/
theorem exists_pool (hne : candidates ≠ []) (hlen : scores.length = candidates.length) :
    ∃ ceLo ceHi rrfLo rrfHi : K, (∀ alpha, blended candidates scores alpha =
        (candidates.zip scores).map (entryOf ceLo ceHi rrfLo rrfHi alpha)) ∧
      ∀ x ∈ candidates.zip scores, InPool ceLo ceHi rrfLo rrfHi x := by
  have hscores : scores ≠ [] := by
    rintro rfl
    exact hne (List.length_eq_zero_iff.mp hlen.symm)
  have hrrf : candidates.map SearchHit.score ≠ [] := fun h => hne (List.map_eq_nil_iff.mp h)
  obtain ⟨ceLo, ceHi, hceLo, hceHi, hce⟩ := exists_bounds hscores
  obtain ⟨rrfLo, rrfHi, hrrfLo, hrrfHi, hrrf⟩ := exists_bounds hrrf
  refine ⟨ceLo, ceHi, rrfLo, rrfHi, blended_eq hceLo hceHi hrrfLo hrrfHi, fun x hx => ?_⟩
  have hmem := List.of_mem_zip hx
  exact ⟨hce _ hmem.2, hrrf _ (List.mem_map_of_mem hmem.1)⟩

omit [IsStrictOrderedRing K] in
/-- The last key of `rerank_candidates` refines the blend, whichever it is. -/
theorem rerankOrder_eq (candidates : List (SearchHit K)) (scores : List K) (alpha : K) :
    ∃ sorted : List (Blended K), rerankOrder candidates scores alpha = sorted.map Blended.hit ∧
      sorted.Perm (blended candidates scores alpha) ∧
      sorted.Pairwise fun a b => b.blend ≤ a.blend := by
  unfold rerankOrder
  dsimp only
  split
  · exact ⟨_, rfl, sortDescending_perm _ _,
      (sortDescending_pairwise rrfKey _).imp fun {a b} h =>
        Prod.Lex.monotone_fst (rrfKey b) (rrfKey a) h⟩
  · exact ⟨_, rfl, sortDescending_perm _ _,
      (sortDescending_pairwise blendKey _).imp fun {a b} h =>
        Prod.Lex.monotone_fst (blendKey b) (blendKey a) h⟩

omit [IsStrictOrderedRing K] in
theorem map_hit_entries (ceLo ceHi rrfLo rrfHi alpha : K) :
    ((candidates.zip scores).map (entryOf ceLo ceHi rrfLo rrfHi alpha)).map Blended.hit =
      candidates.zipWith SearchHit.withRerank scores := by
  rw [List.map_map, ← List.map_uncurry_zip_eq_zipWith]
  rfl

/-- With all the weight on the cross-encoder the key of an entry is the legacy key of its hit. -/
theorem blendKey_one {ceLo ceHi rrfLo rrfHi : K} {x y : SearchHit K × K}
    (hx : InPool ceLo ceHi rrfLo rrfHi x) (hy : InPool ceLo ceHi rrfLo rrfHi y) :
    blendKey (entryOf ceLo ceHi rrfLo rrfHi 1 y) ≤ blendKey (entryOf ceLo ceHi rrfLo rrfHi 1 x) ↔
      legacyKey (y.1.withRerank y.2) ≤ legacyKey (x.1.withRerank x.2) := by
  have hxy := blend_one hx hy
  have hyx := blend_one hy hx
  have heq : (entryOf ceLo ceHi rrfLo rrfHi 1 y).blend = (entryOf ceLo ceHi rrfLo rrfHi 1 x).blend ↔
      y.2 = x.2 := by
    rw [eq_iff_le_not_lt, eq_iff_le_not_lt, ← not_lt, ← not_lt, hxy, hyx]
  have hkey : ∀ z : SearchHit K × K, blendKey (entryOf ceLo ceHi rrfLo rrfHi 1 z) =
      toLex ((entryOf ceLo ceHi rrfLo rrfHi 1 z).blend, legacyKey (z.1.withRerank z.2)) :=
    fun z => rfl
  rw [hkey, hkey, Prod.Lex.toLex_le_toLex]
  dsimp only
  rw [hyx, heq]
  -- a cross-encoder tie of the blend is one of the legacy key
  constructor
  · rintro (hlt | ⟨-, hle⟩)
    · exact Prod.Lex.toLex_le_toLex.mpr (.inl hlt)
    · exact hle
  · intro hle
    rcases Prod.Lex.toLex_le_toLex.mp hle with hlt | ⟨htie, -⟩
    · exact .inl hlt
    · exact .inr ⟨htie, hle⟩

theorem rerankOrder_reranked (hne : candidates ≠ []) (hlen : scores.length = candidates.length)
    (alpha : K) :
    Reranked candidates scores alpha (rerankOrder candidates scores (clampAlpha alpha)) := by
  obtain ⟨ceLo, ceHi, rrfLo, rrfHi, hblended, hpool⟩ := exists_pool hne hlen
  have hstable : 1 ≤ alpha → rerankOrder candidates scores (clampAlpha alpha) =
      sortDescending legacyKey (candidates.zipWith SearchHit.withRerank scores) := by
    intro halpha
    unfold rerankOrder
    dsimp only
    rw [clampAlpha_of_one_le halpha, if_neg one_ne_zero, hblended,
      ← map_hit_entries ceLo ceHi rrfLo rrfHi 1]
    refine map_sortDescending fun a ha b hb => ?_
    obtain ⟨x, hx, rfl⟩ := List.mem_map.mp ha
    obtain ⟨y, hy, rfl⟩ := List.mem_map.mp hb
    exact blendKey_one (hpool x hx) (hpool y hy)
  refine ⟨?_, fun halpha => ?_, hstable, fun halpha hrrf => ?_, ?_⟩
  · obtain ⟨sorted, hsorted, hperm, -⟩ := rerankOrder_eq candidates scores (clampAlpha alpha)
    rw [hsorted, ← map_hit_entries ceLo ceHi rrfLo rrfHi (clampAlpha alpha), ← hblended]
    exact hperm.map Blended.hit
  · rw [hstable halpha]
    exact sortDescending_pairwise legacyKey _
  · unfold rerankOrder
    dsimp only
    rw [clampAlpha_of_le_zero halpha, if_pos rfl, hblended, sortDescending_of_pairwise,
      map_hit_entries]
    rw [List.pairwise_map]
    have hzip : (candidates.zip scores).Pairwise fun x y => y.1.score ≤ x.1.score := by
      rw [← List.map_fst_zip hlen.ge] at hrrf
      exact List.pairwise_map.mp hrrf
    refine hzip.imp_of_mem fun {x y} hx hy hxy => ?_
    unfold rrfKey
    rw [Prod.Lex.toLex_le_toLex]
    rcases hxy.lt_or_eq with hlt | heq
    · exact .inl ((blend_zero (hpool y hy) (hpool x hx)).mpr hlt)
    · refine .inr ⟨?_, heq.le⟩
      simp only [entryOf, zero_mul, heq]
  · obtain ⟨sorted, hsorted, hperm, hpair⟩ := rerankOrder_eq candidates scores (clampAlpha alpha)
    rw [hsorted, List.pairwise_map]
    refine hpair.imp_of_mem fun {a b} ha hb hab hbetter => hab.not_gt ?_
    have ha' := hperm.mem_iff.mp ha
    have hb' := hperm.mem_iff.mp hb
    rw [hblended] at ha' hb'
    obtain ⟨x, hx, rfl⟩ := List.mem_map.mp ha'
    obtain ⟨y, hy, rfl⟩ := List.mem_map.mp hb'
    have hbounds := clampAlpha_bounds alpha
    have hweights := clampAlpha_weights alpha
    exact blend_lt (hpool x hx) (hpool y hy) hbounds.1 hbounds.2 hbetter.ce hbetter.rrf
      (hbetter.strict.imp (And.imp_right hweights.1) (And.imp_right hweights.2))

/-- Whatever `top_k` keeps, the pool is ranked by the rules of the blend. -/
theorem rerankCandidates_spec {score : Text → List Text → Option (List K)} {query : Text}
    (hne : candidates ≠ []) (hscored : score query (candidates.map formatRerankText) = some scores)
    (hlen : scores.length = candidates.length) (alpha : K) :
    ∃ ranked, Reranked candidates scores alpha ranked ∧
      rerankCandidates score query candidates none alpha = .ok ranked ∧
      ∀ topK, rerankCandidates score query candidates topK alpha = .ok (takeTop topK ranked) := by
  have hrun : ∀ topK, rerankCandidates score query candidates topK alpha =
      .ok (takeTop topK (rerankOrder candidates scores (clampAlpha alpha))) := by
    intro topK
    unfold rerankCandidates
    rw [if_neg hne, hscored]
    dsimp only
    rw [if_neg (not_not.mpr hlen)]
  exact ⟨_, rerankOrder_reranked hne hlen alpha, hrun none, hrun⟩

end

end

/-- A candidate with an RRF score. -/
def fusedHit (id : String) (score : ℚ) : SearchHit ℚ where
  chunkId := id.toList
  score := score
  cite := []
  heading := []
  text := id.toList
  docId := "SA38-0683".toList
  title := []
  pageLabel := []
  chunkType := "narrative".toList
  messageIds := []

/-- Two candidates, the second of which the cross-encoder prefers. -/
theorem rerank_two : ∃ ranked, Reranked [fusedHit "a" (1 / 30), fusedHit "b" (1 / 31)]
      [1 / 4, 3 / 4] (1 / 2) ranked ∧
    rerankCandidates (fun _ _ => some [1 / 4, 3 / 4]) []
      [fusedHit "a" (1 / 30), fusedHit "b" (1 / 31)] none (1 / 2) = .ok ranked ∧
    ∀ topK, rerankCandidates (fun _ _ => some [1 / 4, 3 / 4]) []
      [fusedHit "a" (1 / 30), fusedHit "b" (1 / 31)] topK (1 / 2) = .ok (takeTop topK ranked) :=
  rerankCandidates_spec (List.cons_ne_nil _ _) rfl rfl (1 / 2)

end MainframeRag.Retrieve
