import MainframeRag.Ingest.PageLayout

/-!
# The order of the margin bars

`_margin_bar_lines` grows a run of bars from any bar that is left, and tests a neighbour with the
height of the popped bar, so a tall bar may reach a short one that does not reach back. What it
returns is the same in every order exactly when a bar that reaches enough for a run only reaches
bars of which those that reach each other are enough (`marginBarLines_unique_iff`).
-/

namespace MainframeRag.Ingest.MarginBars

open PyText PageLayout Peeling

theorem accepted_mono (prose : List Key) (boxes : LineBoxes) (s t : Finset Key) (hst : s ⊆ t)
    (h : Accepted prose boxes s) : Accepted prose boxes t :=
  ⟨h.1.trans (Finset.card_le_card hst),
    h.2.trans (Finset.card_le_card (Finset.filter_subset_filter _ hst))⟩

/-- Only bars are returned. -/
theorem subset_barLines {dict : List DictBlock} {blocks : List Block} {boxes : LineBoxes}
    {bars : Finset Key} (h : IsMarginBarLines dict blocks boxes bars) :
    bars ⊆ barLines blocks boxes := by
  unfold IsMarginBarLines at h
  split at h
  · rw [h]
    exact Finset.empty_subset _
  · split at h
    · rw [h]
      exact Finset.empty_subset _
    · intro key hkey
      rcases h.upper (accepted_mono _ boxes) (Cut.refl _ _) (Finset.Subset.refl _) key hkey with
        hnone | ⟨root, -, -, hreach⟩
      · exact absurd hnone (Finset.notMem_empty key)
      · exact (Finset.mem_filter.mp (mem_reach.mp hreach).1).1

/-- The isolated bars that a bar brings into its run, directly or through others. -/
noncomputable def brought (dict : List DictBlock) (blocks : List Block) (boxes : LineBoxes)
    (bar : Key) : Finset Key :=
  reach (fun key other => Near (boxAt boxes key) (boxAt boxes other))
    (candidates dict blocks boxes) bar

/-- Those of them that bring the bar back. -/
noncomputable def bound (dict : List DictBlock) (blocks : List Block) (boxes : LineBoxes)
    (bar : Key) : Finset Key :=
  part (fun key other => Near (boxAt boxes key) (boxAt boxes other))
    (candidates dict blocks boxes) bar

theorem candidates_eq_empty {dict : List DictBlock} {blocks : List Block} {boxes : LineBoxes}
    (h : barLines blocks boxes = ∅) : candidates dict blocks boxes = ∅ := by
  rw [candidates, h, Finset.filter_empty]

theorem marginBarLines_unique_iff (dict : List DictBlock) (blocks : List Block)
    (boxes : LineBoxes) :
    (∀ result result', IsMarginBarLines dict blocks boxes result →
      IsMarginBarLines dict blocks boxes result' → result = result') ↔
    (bodyBoxes blocks boxes ≠ [] → ∀ bar ∈ candidates dict blocks boxes,
      Accepted (proseLines dict blocks boxes) boxes (brought dict blocks boxes bar) →
        ∀ other ∈ brought dict blocks boxes bar,
          Accepted (proseLines dict blocks boxes) boxes (bound dict blocks boxes other)) := by
  unfold IsMarginBarLines
  by_cases hbars : barLines blocks boxes = ∅
  · simp only [if_pos hbars]
    constructor
    · intro _ _ bar hbar
      rw [candidates_eq_empty hbars] at hbar
      exact absurd hbar (Finset.notMem_empty bar)
    · intro _ result result' h h'
      rw [h, h']
  · simp only [if_neg hbars]
    by_cases hbody : bodyBoxes blocks boxes = []
    · simp only [if_pos hbody]
      constructor
      · intro _ hne
        exact absurd hbody hne
      · intro _ result result' h h'
        rw [h, h']
    · simp only [if_neg hbody]
      rw [sweep_unique_iff (accepted_mono (proseLines dict blocks boxes) boxes)]
      exact ⟨fun h _ => h, fun h => h hbody⟩

/-! ## A tall bar -/

def tallPage : Page where
  plain := "|\n|\n|\nThe first line ends.\nThe second line ends.\nThe third line ends.\n".toList
  blocks := [⟨⟨10, 100, 12, 160⟩, "|\n|\n|\n".toList, 0, some 0⟩,
    ⟨⟨50, 100, 200, 160⟩,
      "The first line ends.\nThe second line ends.\nThe third line ends.\n".toList, 1, some 0⟩]
  words := [⟨⟨10, 100, 12, 110⟩, 0, 0⟩, ⟨⟨10, 115, 12, 125⟩, 0, 1⟩, ⟨⟨10, 140, 12, 160⟩, 0, 2⟩,
    ⟨⟨50, 100, 200, 110⟩, 1, 0⟩, ⟨⟨50, 115, 200, 125⟩, 1, 1⟩, ⟨⟨50, 140, 200, 160⟩, 1, 2⟩]
  dict := []

def tallBoxes : LineBoxes := lineBoxes tallPage.words

theorem tall_candidates :
    candidates tallPage.dict (textBlocks tallPage) tallBoxes = {(0, 0), (0, 1), (0, 2)} := by
  decide +kernel

theorem tall_isMarginBarLines (result : Finset Key) :
    IsMarginBarLines tallPage.dict (textBlocks tallPage) tallBoxes result ↔
      Sweep (fun key other => Near (boxAt tallBoxes key) (boxAt tallBoxes other))
        (Accepted (proseLines tallPage.dict (textBlocks tallPage) tallBoxes) tallBoxes)
        {(0, 0), (0, 1), (0, 2)} ∅ result := by
  have hbars : barLines (textBlocks tallPage) tallBoxes ≠ ∅ := by decide +kernel
  have hbody : bodyBoxes (textBlocks tallPage) tallBoxes ≠ [] := by decide +kernel
  rw [IsMarginBarLines, if_neg hbars, if_neg hbody, tall_candidates]

def tallNear (key other : Key) : Prop := Near (boxAt tallBoxes key) (boxAt tallBoxes other)

instance : DecidableRel tallNear := fun _ _ => inferInstanceAs (Decidable (Near _ _))

/-- The tall bar is near the middle one, and the short ones are only near each other. -/
theorem tallNear_cases : tallNear (0, 2) (0, 1) ∧ tallNear (0, 1) (0, 0) ∧
    ∀ key ∈ [((0, 0) : Key), (0, 1)], ∀ other ∈ ({(0, 0), (0, 1), (0, 2)} : Finset Key),
      tallNear key other → other ∈ [((0, 0) : Key), (0, 1)] := by
  decide +kernel

theorem reaches_short {other : Key}
    (h : Reaches tallNear {(0, 0), (0, 1), (0, 2)} (0, 0) other) :
    other ∈ [((0, 0) : Key), (0, 1)] := by
  induction h with
  | refl => exact List.mem_cons_self
  | tail _ hstep ih => exact tallNear_cases.2.2 _ ih _ hstep.2 hstep.1

/-- Popped first, the tall bar takes the others along; popped last, it leaves all three too few. -/
theorem order_decides :
    (∃ result, IsMarginBarLines tallPage.dict (textBlocks tallPage) tallBoxes result ∧
      (0, 2) ∈ result) ∧
    IsMarginBarLines tallPage.dict (textBlocks tallPage) tallBoxes ∅ := by
  have hmono := accepted_mono (proseLines tallPage.dict (textBlocks tallPage) tallBoxes) tallBoxes
  obtain ⟨htall, hmiddle, -⟩ := tallNear_cases
  rw [tall_isMarginBarLines]
  constructor
  · have hbrought : reach tallNear {(0, 0), (0, 1), (0, 2)} (0, 2) = {(0, 0), (0, 1), (0, 2)} := by
      have h1 : Reaches tallNear {(0, 0), (0, 1), (0, 2)} (0, 2) (0, 1) :=
        .single ⟨htall, by decide⟩
      have h0 : Reaches tallNear {(0, 0), (0, 1), (0, 2)} (0, 2) (0, 0) :=
        h1.tail ⟨hmiddle, by decide⟩
      ext key
      rw [mem_reach]
      refine ⟨And.left, fun hkey => ⟨hkey, ?_⟩⟩
      simp only [Finset.mem_insert, Finset.mem_singleton] at hkey
      rcases hkey with rfl | rfl | rfl
      · exact h0
      · exact h1
      · exact .refl
    have hgood : Accepted (proseLines tallPage.dict (textBlocks tallPage) tallBoxes) tallBoxes
        (reach tallNear {(0, 0), (0, 1), (0, 2)} (0, 2)) := by
      rw [hbrought]
      decide +kernel
    obtain ⟨result, hresult, hsub⟩ := exists_sweep_reach hmono (by decide) hgood
    refine ⟨result, (tall_isMarginBarLines result).mpr hresult, hsub ?_⟩
    rw [hbrought]
    decide
  · obtain ⟨result, hresult, hparts⟩ := exists_sweep_parts (R := tallNear) hmono
      {(0, 0), (0, 1), (0, 2)} ∅ (Cut.refl _ _) (Finset.Subset.refl _)
    have hempty : result = ∅ := by
      refine Finset.eq_empty_of_forall_notMem fun key hkey => ?_
      have hgood := (hparts key hkey).resolve_left (Finset.notMem_empty key)
      have hall : part tallNear {(0, 0), (0, 1), (0, 2)} key = {(0, 0), (0, 1), (0, 2)} :=
        Finset.eq_of_subset_of_card_le (fun other hother => (mem_part.mp hother).1) hgood.1
      have hfirst : (0, 0) ∈ part tallNear {(0, 0), (0, 1), (0, 2)} key := by rw [hall]; decide
      have hlast : (0, 2) ∈ part tallNear {(0, 0), (0, 1), (0, 2)} key := by rw [hall]; decide
      have hback : Reaches tallNear {(0, 0), (0, 1), (0, 2)} (0, 0) (0, 2) :=
        (mem_part.mp hfirst).2.2.trans (mem_part.mp hlast).2.1
      exact absurd (reaches_short hback) (by decide)
    exact hempty ▸ hresult

end MainframeRag.Ingest.MarginBars
