import MainframeRag.Ingest.Catalog
import MainframeRag.Lib.Tally
import Mathlib

/-!
# The catalog and the order of the chunks

Counts, pages and identity labels of a catalog entry are aggregates over the chunks of the revision
and do not depend on their order. The printed label of an edge is a running value that reads `None`
both for "no label yet" and for "labels disagreed", so the next label replaces a disagreement:
`running_none_iff` says which labels come out right in every order, and `catalog_exact_iff` says so
of the catalog.
-/

namespace MainframeRag.Ingest.Catalog

open PyText PyJson Fallible

/-! ## The running label -/

/-- `_pick_edge` on one page, for a label that is printed. -/
def mergeLabel : Option Text → Text → Option Text
  | none, label => some label
  | some current, label => if current = label then some current else none

def running (labels : List Text) : Option Text := labels.foldl mergeLabel none

/-- The label on which all agree, or `None` where two differ or there is none. -/
def Agreed (labels : List Text) : Option Text → Prop
  | some label => labels ≠ [] ∧ ∀ x ∈ labels, x = label
  | none => labels = [] ∨ ∃ x ∈ labels, ∃ y ∈ labels, x ≠ y

/-- Labels that come out right in every order: all agree, or all differ and their number is even. -/
def Settled (labels : List Text) : Prop :=
  (∀ x ∈ labels, ∀ y ∈ labels, x = y) ∨ (labels.Nodup ∧ Even labels.length)

theorem Agreed.perm {xs ys : List Text} (h : xs.Perm ys) {o : Option Text} (hx : Agreed xs o) :
    Agreed ys o := by
  cases o with
  | some label =>
    refine ⟨fun hnil => hx.1 ?_, fun x hmem => hx.2 x (h.mem_iff.mpr hmem)⟩
    rw [hnil] at h
    exact h.eq_nil
  | none =>
    rcases hx with rfl | ⟨x, hmem, y, hmem', hne⟩
    · exact .inl h.nil_eq.symm
    · exact .inr ⟨x, h.mem_iff.mp hmem, y, h.mem_iff.mp hmem', hne⟩

theorem foldl_mergeLabel_same {label : Text} {labels : List Text} (h : ∀ x ∈ labels, x = label) :
    labels.foldl mergeLabel (some label) = some label := by
  induction labels with
  | nil => rfl
  | cons x labels ih =>
    obtain ⟨rfl, hrest⟩ := List.forall_mem_cons.mp h
    rw [List.foldl_cons, mergeLabel, if_pos rfl]
    exact ih hrest

/-- Two labels that differ take the running label back to `None`. -/
theorem foldl_mergeLabel_pairs : ∀ {labels : List Text}, labels.Nodup → Even labels.length →
    labels.foldl mergeLabel none = none
  | [], _, _ => rfl
  | [_], _, heven => by simp at heven
  | x :: y :: rest, hnodup, heven => by
    have hne : x ≠ y := by
      rintro rfl
      exact (List.nodup_cons.mp hnodup).1 List.mem_cons_self
    rw [List.foldl_cons, List.foldl_cons, mergeLabel, mergeLabel, if_neg hne]
    refine foldl_mergeLabel_pairs (List.nodup_cons.mp (List.nodup_cons.mp hnodup).2).2 ?_
    rw [List.length_cons, List.length_cons] at heven
    simpa [Nat.even_add_one] using heven

theorem Settled.perm {xs ys : List Text} (h : xs.Perm ys) (hx : Settled xs) : Settled ys := by
  rcases hx with hsame | ⟨hnodup, heven⟩
  · exact .inl fun x hx y hy => hsame x (h.mem_iff.mpr hx) y (h.mem_iff.mpr hy)
  · exact .inr ⟨h.nodup_iff.mp hnodup, h.length_eq ▸ heven⟩

theorem Settled.running {labels : List Text} (h : Settled labels) : Agreed labels (running labels) := by
  rcases h with hsame | ⟨hnodup, heven⟩
  · cases labels with
    | nil => exact .inl rfl
    | cons x labels =>
      have hall : ∀ y ∈ labels, y = x := fun y hy =>
        hsame y (List.mem_cons_of_mem _ hy) x List.mem_cons_self
      rw [Catalog.running, List.foldl_cons, mergeLabel, foldl_mergeLabel_same hall]
      exact ⟨List.cons_ne_nil _ _, List.forall_mem_cons.mpr ⟨rfl, hall⟩⟩
  · rw [Catalog.running, foldl_mergeLabel_pairs hnodup heven]
    match labels, hnodup, heven with
    | [], _, _ => exact .inl rfl
    | [_], _, heven => simp at heven
    | x :: y :: _, hnodup, _ =>
      refine .inr ⟨x, List.mem_cons_self, y, List.mem_cons_of_mem _ List.mem_cons_self, ?_⟩
      rintro rfl
      exact (List.nodup_cons.mp hnodup).1 List.mem_cons_self

/-- From a label, an even number of labels can be ordered to end on a label. -/
theorem exists_order_some (n : Nat) : ∀ (labels : List Text) (current : Text),
    labels.length = 2 * n →
    ∃ order : List Text, order.Perm labels ∧ (order.foldl mergeLabel (some current)).isSome := by
  induction n with
  | zero =>
    intro labels current hlen
    obtain rfl := List.eq_nil_of_length_eq_zero hlen
    exact ⟨[], .refl _, rfl⟩
  | succ n ih =>
    intro labels current hlen
    by_cases hsame : ∀ x ∈ labels, x = current
    · refine ⟨labels, .refl _, ?_⟩
      rw [foldl_mergeLabel_same hsame]
      rfl
    · push Not at hsame
      obtain ⟨x, hx, hne⟩ := hsame
      have hfirst := List.perm_cons_erase hx
      have hlen' : (labels.erase x).length = 2 * n + 1 := by
        rw [List.length_erase_of_mem hx]
        omega
      -- a label that differs leaves `None`, any other one stands there then
      cases hrest : labels.erase x with
      | nil =>
        rw [hrest] at hlen'
        simp at hlen'
      | cons y rest =>
        rw [hrest, List.length_cons] at hlen'
        obtain ⟨order, hperm, hsome⟩ := ih rest y (by omega)
        refine ⟨x :: y :: order, ?_, ?_⟩
        · rw [hrest] at hfirst
          exact (((hperm.cons y).cons x)).trans hfirst.symm
        · rw [List.foldl_cons, List.foldl_cons, mergeLabel, if_neg (Ne.symm hne), mergeLabel]
          exact hsome

/-- Labels that are not settled come out as a label in some order. -/
theorem exists_order_of_not_settled {labels : List Text} (h : ¬ Settled labels) :
    ∃ order : List Text, order.Perm labels ∧ (running order).isSome := by
  have hsplit : ∃ first rest, (first :: rest).Perm labels ∧
      ∃ n, rest.length = 2 * n ∨ (∃ tail, rest = first :: tail ∧ tail.length = 2 * n) := by
    rcases Nat.even_or_odd' labels.length with ⟨n, heven | hodd⟩
    · have hdup : ¬ labels.Nodup := fun hnodup => h (.inr ⟨hnodup, n, by omega⟩)
      rw [List.nodup_iff_sublist] at hdup
      push Not at hdup
      obtain ⟨x, hx⟩ := hdup
      obtain ⟨tail, htail⟩ := hx.exists_perm_append
      have hlen := htail.length_eq
      simp only [List.cons_append, List.nil_append, List.length_cons] at hlen
      exact ⟨x, x :: tail, htail.symm, n - 1, .inr ⟨tail, rfl, by omega⟩⟩
    · cases labels with
      | nil => simp at hodd
      | cons x rest => exact ⟨x, rest, .refl _, n, .inl (by simpa using hodd)⟩
  obtain ⟨first, rest, hperm, n, hlen | ⟨tail, rfl, hlen⟩⟩ := hsplit
  · obtain ⟨order, horder, hsome⟩ := exists_order_some n rest first hlen
    exact ⟨first :: order, (horder.cons first).trans hperm, hsome⟩
  · obtain ⟨order, horder, hsome⟩ := exists_order_some n tail first hlen
    refine ⟨first :: first :: order, ((horder.cons first).cons first).trans hperm, ?_⟩
    rw [running, List.foldl_cons, List.foldl_cons, mergeLabel, mergeLabel, if_pos rfl]
    exact hsome

theorem not_agreed_of_not_settled {labels : List Text} (h : ¬ Settled labels) {label : Text} :
    ¬ Agreed labels (some label) := by
  rintro ⟨-, hall⟩
  exact h (.inl fun x hx y hy => (hall x hx).trans (hall y hy).symm)

/-! ## The edge of the rows -/

/-- The printed labels of the chunks on the edge page. -/
def edgeLabels (page : ChunkRow → Int) (label : ChunkRow → Option Text) (lower : Bool)
    (rows : List ChunkRow) : List Text :=
  rows.filterMap fun r =>
    if rows.all fun q => if lower then page r ≤ page q else page q ≤ page r then label r else none

def firstLabels (rows : List ChunkRow) : List Text := edgeLabels ChunkRow.start ChunkRow.lowLabel true rows

def lastLabels (rows : List ChunkRow) : List Text := edgeLabels ChunkRow.stop ChunkRow.highLabel false rows

/-- The printed labels on a page. -/
def labelsAt (page : ChunkRow → Int) (label : ChunkRow → Option Text) (x : Int) (rows : List ChunkRow) :
    List Text := rows.filterMap fun r => if page r = x then label r else none

/-- The edge after some chunks. -/
structure EdgeOf (page : ChunkRow → Int) (label : ChunkRow → Option Text) (lower : Bool)
    (rows : List ChunkRow) (x : Int) (l : Option Text) : Prop where
  reached : ∃ r ∈ rows, page r = x
  extreme : ∀ r ∈ rows, if lower then x ≤ page r else page r ≤ x
  label : l = running (labelsAt page label x rows)

theorem running_concat (labels : List Text) (label : Text) :
    running (labels ++ [label]) = mergeLabel (running labels) label := List.foldl_concat ..

theorem labelsAt_concat (page : ChunkRow → Int) (label : ChunkRow → Option Text) (x : Int)
    (rows : List ChunkRow) (r : ChunkRow) :
    labelsAt page label x (rows ++ [r]) =
      labelsAt page label x rows ++ (if page r = x then label r else none).toList := by
  rw [labelsAt, List.filterMap_append, labelsAt]
  cases h : (if page r = x then label r else none) <;> simp [h]

theorem pickEdge_same (x : Int) (current candidate : Option Text) (lower : Bool) :
    pickEdge (some (x, current)) (x, candidate) lower =
      (x, match candidate with
          | none => current
          | some label => mergeLabel current label) := by
  unfold pickEdge
  cases current <;> cases candidate <;> simp [mergeLabel, Option.or]
  split <;> rfl

section

variable {page : ChunkRow → Int} {label : ChunkRow → Option Text} {lower : Bool} {rows : List ChunkRow}

theorem edgeOf_one (r : ChunkRow) : EdgeOf page label lower [r] (page r) (label r) where
  reached := ⟨r, List.mem_singleton.mpr rfl, rfl⟩
  extreme := by
    intro q hq
    rw [List.mem_singleton.mp hq]
    split <;> exact Int.le_refl _
  label := by
    cases h : label r <;> simp [labelsAt, h, running, mergeLabel]

/-- A further chunk moves the edge, leaves it or adds its label to it. -/
theorem EdgeOf.add {x : Int} {l : Option Text} (h : EdgeOf page label lower rows x l) (r : ChunkRow) :
    ∃ x' l', pickEdge (some (x, l)) (page r, label r) lower = (x', l') ∧
      EdgeOf page label lower (rows ++ [r]) x' l' := by
  by_cases hx : page r = x
  · rw [hx, pickEdge_same]
    refine ⟨x, _, rfl, ⟨r, by simp, hx⟩, ?_, ?_⟩
    · intro q hq
      rcases List.mem_append.mp hq with hq | hq
      · exact h.extreme q hq
      · rw [List.mem_singleton.mp hq, hx]
        split <;> exact Int.le_refl x
    · rw [labelsAt_concat, if_pos hx]
      cases label r with
      | none => simpa using h.label
      | some t =>
        rw [Option.toList_some, running_concat, ← h.label]
  · by_cases hbetter : (if lower then page r < x else x < page r)
    · have hpick : pickEdge (some (x, l)) (page r, label r) lower = (page r, label r) := by
        simp only [pickEdge]
        rw [if_pos hx, if_pos hbetter]
      have hnone : labelsAt page label (page r) rows = [] := by
        refine List.filterMap_eq_nil_iff.mpr fun q hq => ?_
        rw [if_neg]
        intro he
        have := h.extreme q hq
        cases lower <;> simp only [Bool.false_eq_true, if_false, if_true] at this hbetter <;> omega
      refine ⟨page r, label r, hpick, ⟨r, by simp, rfl⟩, ?_, ?_⟩
      · intro q hq
        rcases List.mem_append.mp hq with hq | hq
        · have := h.extreme q hq
          cases lower <;> simp only [Bool.false_eq_true, if_false, if_true] at this hbetter ⊢ <;> omega
        · rw [List.mem_singleton.mp hq]
          split <;> exact Int.le_refl _
      · rw [labelsAt_concat, hnone, if_pos rfl]
        cases label r <;> rfl
    · have hpick : pickEdge (some (x, l)) (page r, label r) lower = (x, l) := by
        simp only [pickEdge]
        rw [if_pos hx, if_neg hbetter]
      obtain ⟨q, hq, hqx⟩ := h.reached
      refine ⟨x, l, hpick, ⟨q, by simp [hq], hqx⟩, ?_, ?_⟩
      · intro q hq
        rcases List.mem_append.mp hq with hq | hq
        · exact h.extreme q hq
        · rw [List.mem_singleton.mp hq]
          cases lower <;> simp only [Bool.false_eq_true, if_false, if_true] at hbetter ⊢ <;> omega
      · rw [labelsAt_concat, if_neg hx, Option.toList_none, List.append_nil]
        exact h.label

/-- The labels on the page of the edge. -/
theorem EdgeOf.labels {x : Int} {l : Option Text} (h : EdgeOf page label lower rows x l) :
    labelsAt page label x rows = edgeLabels page label lower rows := by
  refine List.filterMap_congr fun r hr => ?_
  obtain ⟨q, hq, hqx⟩ := h.reached
  have hiff : page r = x ↔
      (rows.all fun q => if lower then page r ≤ page q else page q ≤ page r) = true := by
    rw [List.all_eq_true]
    constructor
    · intro hx p hp
      have := h.extreme p hp
      cases lower <;> simp only [Bool.false_eq_true, if_false, if_true, decide_eq_true_eq] at this ⊢ <;>
        omega
    · intro hall
      have hle := hall q hq
      have hge := h.extreme r hr
      cases lower <;> simp only [Bool.false_eq_true, if_false, if_true, decide_eq_true_eq] at hle hge <;>
        omega
  by_cases hx : page r = x
  · rw [if_pos hx, if_pos (hiff.mp hx)]
  · rw [if_neg hx, if_neg fun hall => hx (hiff.mpr hall)]

end

theorem accOf_first {rows : List ChunkRow} (h : rows ≠ []) :
    ∃ x l, (accOf rows).first = some (x, l) ∧
      EdgeOf ChunkRow.start ChunkRow.lowLabel true rows x l := by
  induction rows using List.reverseRecOn with
  | nil => exact absurd rfl h
  | append_singleton rows r ih =>
    rw [accOf_concat]
    by_cases hnil : rows = []
    · subst hnil
      exact ⟨r.start, r.lowLabel, rfl, edgeOf_one r⟩
    · obtain ⟨x, l, hfirst, hedge⟩ := ih hnil
      obtain ⟨x', l', hpick, hedge'⟩ := hedge.add r
      exact ⟨x', l', by rw [Acc.add, hfirst, hpick], hedge'⟩

theorem accOf_last {rows : List ChunkRow} (h : rows ≠ []) :
    ∃ x l, (accOf rows).last = some (x, l) ∧
      EdgeOf ChunkRow.stop ChunkRow.highLabel false rows x l := by
  induction rows using List.reverseRecOn with
  | nil => exact absurd rfl h
  | append_singleton rows r ih =>
    rw [accOf_concat]
    by_cases hnil : rows = []
    · subst hnil
      exact ⟨r.stop, r.highLabel, rfl, edgeOf_one r⟩
    · obtain ⟨x, l, hlast, hedge⟩ := ih hnil
      obtain ⟨x', l', hpick, hedge'⟩ := hedge.add r
      exact ⟨x', l', by rw [Acc.add, hlast, hpick], hedge'⟩

/-! ## Indexed pages -/

/-- The pages of the spans. -/
noncomputable def covered (spans : List (Int × Int)) : Finset Int :=
  spans.toFinset.biUnion fun s => Finset.Icc s.1 s.2

@[simp] theorem mem_covered {spans : List (Int × Int)} {p : Int} :
    p ∈ covered spans ↔ ∃ s ∈ spans, s.1 ≤ p ∧ p ≤ s.2 := by
  simp [covered]

theorem covered_congr {spans spans' : List (Int × Int)} (h : ∀ s, s ∈ spans ↔ s ∈ spans') :
    covered spans = covered spans' := by
  ext p
  simp [h]

/-- The state of the sweep over spans by their start. -/
structure Swept (done : List (Int × Int)) (s : Int × Int) : Prop where
  total : s.1 = (covered done).card
  stop : (done = [] ∧ s.2 = -1) ∨ ((∃ x ∈ done, x.2 = s.2) ∧ ∀ x ∈ done, x.2 ≤ s.2)

theorem Swept.step {done : List (Int × Int)} {s : Int × Int} (h : Swept done s) {span : Int × Int}
    (hspan : 0 ≤ span.1 ∧ span.1 ≤ span.2) (hsorted : ∀ x ∈ done, x.1 ≤ span.1) :
    Swept (done ++ [span]) (indexedStep s span) := by
  have hstop : ∀ x ∈ done, x.2 ≤ s.2 := by
    rcases h.stop with ⟨rfl, -⟩ | ⟨-, hle⟩
    · exact List.forall_mem_nil _
    · exact hle
  -- pages up to the end so far that the span adds lie in the span that ends there
  have hold : ∀ p, span.1 ≤ p → p ≤ s.2 → p ∈ covered done := by
    intro p hp hp'
    rcases h.stop with ⟨-, hend⟩ | ⟨⟨x, hx, hxs⟩, -⟩
    · omega
    · exact mem_covered.mpr ⟨x, hx, (hsorted x hx).trans hp, hxs ▸ hp'⟩
  unfold indexedStep
  by_cases hle : span.2 ≤ s.2
  · rw [if_pos hle]
    have hsame : covered (done ++ [span]) = covered done := by
      ext p
      simp only [mem_covered, List.mem_append, List.mem_singleton]
      constructor
      · rintro ⟨x, hx | rfl, hp⟩
        · exact ⟨x, hx, hp⟩
        · exact mem_covered.mp (hold p hp.1 (hp.2.trans hle))
      · rintro ⟨x, hx, hp⟩
        exact ⟨x, .inl hx, hp⟩
    refine ⟨by rw [hsame, h.total], .inr ?_⟩
    rcases h.stop with ⟨-, hend⟩ | ⟨⟨x, hx, hxs⟩, -⟩
    · omega
    · refine ⟨⟨x, List.mem_append_left _ hx, hxs⟩, fun y hy => ?_⟩
      rcases List.mem_append.mp hy with hy | hy
      · exact hstop y hy
      · rw [List.mem_singleton.mp hy]
        exact hle
  · rw [if_neg hle]
    have hnew : covered (done ++ [span]) = covered done ∪ Finset.Icc (max span.1 (s.2 + 1)) span.2 := by
      ext p
      simp only [mem_covered, List.mem_append, List.mem_singleton, Finset.mem_union, Finset.mem_Icc]
      constructor
      · rintro ⟨x, hx | rfl, hp⟩
        · exact .inl ⟨x, hx, hp⟩
        · by_cases hp' : p ≤ s.2
          · exact .inl (mem_covered.mp (hold p hp.1 hp'))
          · exact .inr ⟨by omega, hp.2⟩
      · rintro (⟨x, hx, hp⟩ | hp)
        · exact ⟨x, .inl hx, hp⟩
        · exact ⟨span, .inr rfl, by omega, hp.2⟩
    have hdisjoint : Disjoint (covered done) (Finset.Icc (max span.1 (s.2 + 1)) span.2) := by
      rw [Finset.disjoint_left]
      intro p hp hp'
      obtain ⟨x, hx, hpx⟩ := mem_covered.mp hp
      have := hstop x hx
      have := (Finset.mem_Icc.mp hp').1
      omega
    refine ⟨?_, .inr ⟨⟨span, by simp, rfl⟩, fun y hy => ?_⟩⟩
    · rw [hnew, Finset.card_union_of_disjoint hdisjoint, Int.card_Icc, h.total]
      push_cast
      omega
    · rcases List.mem_append.mp hy with hy | hy
      · have := hstop y hy
        dsimp only
        omega
      · rw [List.mem_singleton.mp hy]

theorem Swept.run {spans : List (Int × Int)} : ∀ {done : List (Int × Int)} {s : Int × Int},
    Swept done s → (∀ x ∈ spans, 0 ≤ x.1 ∧ x.1 ≤ x.2) →
    (done ++ spans).Pairwise (fun a b => a.1 ≤ b.1) →
    Swept (done ++ spans) (spans.foldl indexedStep s) := by
  induction spans with
  | nil =>
    intro done s h _ _
    rwa [List.append_nil]
  | cons span spans ih =>
    intro done s h hspans hsorted
    obtain ⟨hspan, hspans⟩ := List.forall_mem_cons.mp hspans
    have hbefore : ∀ x ∈ done, x.1 ≤ span.1 := fun x hx =>
      (List.pairwise_append.mp hsorted).2.2 x hx span List.mem_cons_self
    rw [List.append_cons] at hsorted ⊢
    exact ih (h.step hspan hbefore) hspans hsorted

/-- `_indexed_pages` counts the pages of the spans. -/
theorem indexedPages_eq {spans : List (Int × Int)} (h : ∀ x ∈ spans, 0 ≤ x.1 ∧ x.1 ≤ x.2) :
    indexedPages spans = (covered spans).card := by
  have hperm := List.perm_insertionSort (fun a b => toLex a ≤ toLex b) spans
  have hsorted : (spans.insertionSort fun a b => toLex a ≤ toLex b).Pairwise fun a b => a.1 ≤ b.1 := by
    refine (List.pairwise_insertionSort (fun a b => toLex a ≤ toLex b) spans).imp fun hab => ?_
    rcases Prod.Lex.le_iff.mp hab with hlt | ⟨heq, -⟩
    · exact hlt.le
    · exact heq.le
  have hstart : Swept [] (0, -1) := ⟨rfl, .inl ⟨rfl, rfl⟩⟩
  have hrun := hstart.run (fun x hx => h x (hperm.mem_iff.mp hx)) hsorted
  rw [indexedPages, hrun.total, List.nil_append]
  rw [covered_congr fun s => hperm.mem_iff]

/-! ## One revision -/

/-- An entry says of the chunks of its revision what they are. -/
structure Exact (rows : List ChunkRow) (e : Entry) : Prop where
  count : e.chunkCount = rows.length
  firstPage : (∃ r ∈ rows, r.start = e.firstPage) ∧ ∀ r ∈ rows, e.firstPage ≤ r.start
  lastPage : (∃ r ∈ rows, r.stop = e.lastPage) ∧ ∀ r ∈ rows, r.stop ≤ e.lastPage
  pages : e.indexedPages = (covered (rows.map fun r => (r.start, r.stop))).card
  firstLabel : Agreed (firstLabels rows) e.firstLabel
  lastLabel : Agreed (lastLabels rows) e.lastLabel

theorem accOf_nodup (rows : List ChunkRow) :
    (∀ k, ((accOf rows).labels k).Nodup) ∧ (accOf rows).spans.Nodup := by
  induction rows using List.reverseRecOn with
  | nil => exact ⟨fun _ => List.nodup_nil, List.nodup_nil⟩
  | append_singleton rows r ih =>
    rw [accOf_concat]
    exact ⟨fun k => (ih.1 k).insert, ih.2.insert⟩

theorem theLabel_iff {values : List (Option Text)} {v : Option Text} :
    theLabel values = .ok v ↔ values = [v] := by
  refine ⟨theLabel_ok, ?_⟩
  rintro rfl
  rfl

/-- The entry of the chunks of a revision, field by field. -/
theorem entryOf_iff {rev : Text} {a : Acc} {marker : Marker} {e : Entry} :
    entryOf rev a marker = .ok e ↔ ∃ title product version,
      a.labels .sourceDocId = [some marker.docId] ∧ a.labels .sourceSha256 = [some marker.sha256] ∧
      a.labels .title = [title] ∧ a.labels .product = [product] ∧ a.labels .version = [version] ∧
      a.count = marker.expectedChunks ∧ ('|' :: marker.sha256) <:+ rev ∧
      e = ⟨rev, marker.sha256, marker.docId, title, product, version, a.count,
        (a.first.getD (0, none)).1, (a.last.getD (0, none)).1, (a.first.getD (0, none)).2,
        (a.last.getD (0, none)).2, indexedPages a.spans⟩ := by
  simp only [entryOf, bind_ok, ensure_ok, pure_ok, theLabel_iff]
  constructor
  · rintro ⟨_, hdoc, _, hsha, title, htitle, product, hproduct, version, hversion, -,
      ⟨hcount, rfl, rfl, hend⟩, rfl⟩
    exact ⟨title, product, version, hdoc, hsha, htitle, hproduct, hversion, hcount, hend, rfl⟩
  · rintro ⟨title, product, version, hdoc, hsha, htitle, hproduct, hversion, hcount, hend, rfl⟩
    exact ⟨_, hdoc, _, hsha, title, htitle, product, hproduct, version, hversion, (),
      ⟨hcount, rfl, rfl, hend⟩, rfl⟩

theorem edgeLabels_perm {page : ChunkRow → Int} {label : ChunkRow → Option Text} {lower : Bool}
    {rows rows' : List ChunkRow} (h : rows.Perm rows') :
    (edgeLabels page label lower rows).Perm (edgeLabels page label lower rows') := by
  have hall : ∀ p : ChunkRow → Bool, rows.all p = rows'.all p := by
    intro p
    rw [Bool.eq_iff_iff, List.all_eq_true, List.all_eq_true]
    exact forall_congr' fun r => by rw [h.mem_iff]
  unfold edgeLabels
  simp only [hall]
  exact h.filterMap _

theorem Agreed.unique {labels : List Text} {o o' : Option Text} (h : Agreed labels o)
    (h' : Agreed labels o') : o = o' := by
  have hno : ∀ {l}, Agreed labels (some l) → ¬ Agreed labels none := by
    rintro l ⟨hne, hall⟩ (hnil | ⟨x, hx, y, hy, hxy⟩)
    · exact hne hnil
    · exact hxy ((hall x hx).trans (hall y hy).symm)
  cases o with
  | none =>
    cases o' with
    | none => rfl
    | some l' => exact absurd h (hno h')
  | some l =>
    cases o' with
    | none => exact absurd h' (hno h)
    | some l' =>
      obtain ⟨x, hx⟩ := List.exists_mem_of_ne_nil labels h.1
      rw [← h.2 x hx, h'.2 x hx]

theorem EdgeOf.page_unique {page : ChunkRow → Int} {label : ChunkRow → Option Text} {lower : Bool}
    {rows rows' : List ChunkRow} (hperm : rows.Perm rows') {x x' : Int} {l l' : Option Text}
    (h : EdgeOf page label lower rows x l) (h' : EdgeOf page label lower rows' x' l') : x = x' := by
  obtain ⟨q, hq, hqx⟩ := h.reached
  obtain ⟨q', hq', hqx'⟩ := h'.reached
  have h₁ := h.extreme q' (hperm.mem_iff.mpr hq')
  have h₂ := h'.extreme q (hperm.mem_iff.mp hq)
  cases lower <;> simp only [Bool.false_eq_true, if_false, if_true] at h₁ h₂ <;> omega

/-- Where the labels are settled, the edge carries the agreed label. -/
theorem EdgeOf.agreed {page : ChunkRow → Int} {label : ChunkRow → Option Text} {lower : Bool}
    {rows : List ChunkRow} {x : Int} {l : Option Text} (h : EdgeOf page label lower rows x l)
    (hs : Settled (edgeLabels page label lower rows)) : Agreed (edgeLabels page label lower rows) l := by
  rw [h.label, h.labels]
  exact hs.running

theorem EdgeOf.settled_unique {page : ChunkRow → Int} {label : ChunkRow → Option Text} {lower : Bool}
    {rows rows' : List ChunkRow} (hperm : rows.Perm rows') {x x' : Int} {l l' : Option Text}
    (h : EdgeOf page label lower rows x l) (h' : EdgeOf page label lower rows' x' l')
    (hs : Settled (edgeLabels page label lower rows)) : (x, l) = (x', l') := by
  have hlabels : (edgeLabels page label lower rows).Perm (edgeLabels page label lower rows') :=
    edgeLabels_perm hperm
  rw [h.page_unique hperm h', (h.agreed hs).unique ((h'.agreed (hs.perm hlabels)).perm hlabels.symm)]

/-- Chunks with settled edges have one entry, whatever their order. -/
theorem entryOf_perm {rows rows' : List ChunkRow} (h : rows.Perm rows') (hne : rows ≠ [])
    (hrows : ∀ r ∈ rows, 0 ≤ r.start ∧ r.start ≤ r.stop)
    (hfirst : Settled (firstLabels rows)) (hlast : Settled (lastLabels rows)) {rev : Text}
    {marker : Marker} {e : Entry} (he : entryOf rev (accOf rows) marker = .ok e) :
    entryOf rev (accOf rows') marker = .ok e := by
  have hne' : rows' ≠ [] := fun hnil => hne (by rw [hnil] at h; exact h.eq_nil)
  have hlabels : ∀ k v, (accOf rows).labels k = [v] → (accOf rows').labels k = [v] := by
    intro k v hv
    have hperm : ((accOf rows').labels k).Perm [v] := by
      rw [← hv]
      refine (List.perm_ext_iff_of_nodup ((accOf_nodup rows').1 k) ((accOf_nodup rows).1 k)).mpr ?_
      intro o
      rw [(sound_accOf rows).labels, (sound_accOf rows').labels]
      exact exists_congr fun r => by rw [h.mem_iff]
    exact hperm.eq_singleton
  have hcount : (accOf rows').count = (accOf rows).count := by
    rw [(sound_accOf rows).count, (sound_accOf rows').count, h.length_eq]
  have hspans : ∀ s, s ∈ (accOf rows').spans ↔ s ∈ (accOf rows).spans := by
    intro s
    rw [(sound_accOf rows).spans, (sound_accOf rows').spans]
    exact exists_congr fun r => by rw [h.mem_iff]
  have hvalid : ∀ s ∈ (accOf rows).spans, 0 ≤ s.1 ∧ s.1 ≤ s.2 := by
    intro s hs
    obtain ⟨r, hr, rfl⟩ := ((sound_accOf rows).spans s).mp hs
    exact hrows r hr
  have hpages : indexedPages (accOf rows').spans = indexedPages (accOf rows).spans := by
    rw [indexedPages_eq hvalid, indexedPages_eq fun s hs => hvalid s ((hspans s).mp hs),
      covered_congr hspans]
  obtain ⟨x, l, hx, hedge⟩ := accOf_first hne
  obtain ⟨x', l', hx', hedge'⟩ := accOf_first hne'
  obtain ⟨y, m, hy, hedge₂⟩ := accOf_last hne
  obtain ⟨y', m', hy', hedge₂'⟩ := accOf_last hne'
  have hfirstEq : (accOf rows').first = (accOf rows).first := by
    rw [hx, hx', hedge.settled_unique h hedge' hfirst]
  have hlastEq : (accOf rows').last = (accOf rows).last := by
    rw [hy, hy', hedge₂.settled_unique h hedge₂' hlast]
  obtain ⟨title, product, version, hdoc, hsha, htitle, hproduct, hversion, hexp, hend, rfl⟩ :=
    entryOf_iff.mp he
  refine entryOf_iff.mpr ⟨title, product, version, hlabels _ _ hdoc, hlabels _ _ hsha,
    hlabels _ _ htitle, hlabels _ _ hproduct, hlabels _ _ hversion, hcount.trans hexp, hend, ?_⟩
  rw [hfirstEq, hlastEq, hcount, hpages]

/-- An entry is exact apart from its labels, and these are the running ones. -/
theorem entryOf_fields {rows : List ChunkRow} (hne : rows ≠ [])
    (hrows : ∀ r ∈ rows, 0 ≤ r.start ∧ r.start ≤ r.stop) {rev : Text} {marker : Marker} {e : Entry}
    (he : entryOf rev (accOf rows) marker = .ok e) :
    e.sourceRevision = rev ∧ e.firstLabel = running (firstLabels rows) ∧
      e.lastLabel = running (lastLabels rows) ∧
      (Agreed (firstLabels rows) e.firstLabel → Agreed (lastLabels rows) e.lastLabel → Exact rows e) := by
  obtain ⟨x, l, hx, hedge⟩ := accOf_first hne
  obtain ⟨y, m, hy, hedge'⟩ := accOf_last hne
  obtain ⟨title, product, version, -, -, -, -, -, -, -, rfl⟩ := entryOf_iff.mp he
  have hvalid : ∀ s ∈ (accOf rows).spans, 0 ≤ s.1 ∧ s.1 ≤ s.2 := by
    intro s hs
    obtain ⟨r, hr, rfl⟩ := ((sound_accOf rows).spans s).mp hs
    exact hrows r hr
  have hfirst : ((accOf rows).first.getD (0, none)) = (x, l) := by rw [hx]; rfl
  have hlast : ((accOf rows).last.getD (0, none)) = (y, m) := by rw [hy]; rfl
  rw [hfirst, hlast]
  refine ⟨rfl, ?_, ?_, fun hagreed hagreed' => ⟨(sound_accOf rows).count, ⟨hedge.reached, fun r hr => ?_⟩,
    ⟨hedge'.reached, fun r hr => ?_⟩, ?_, hagreed, hagreed'⟩⟩
  · exact hedge.label.trans (congrArg running hedge.labels)
  · exact hedge'.label.trans (congrArg running hedge'.labels)
  · simpa using hedge.extreme r hr
  · simpa using hedge'.extreme r hr
  · show indexedPages _ = _
    rw [indexedPages_eq hvalid]
    congr 2
    refine covered_congr fun s => ?_
    rw [(sound_accOf rows).spans, List.mem_map]

/-! ## The build -/

variable {F : Type} (validateMarker : Items F → Option Marker)

/-- What one record of the control collection does to the markers. -/
def MarkerStep (physical : Text) (payload : Items F) (start next : Finmap fun _ : Text => Marker) :
    Prop :=
  if (payload.lookup "record_type".toList).isSome ∨
      textField payload "target_collection".toList ≠ some physical then next = start
  else ∃ marker, validateMarker payload = some marker ∧ marker.sourceRev ∉ start ∧
    next = start.insert marker.sourceRev marker

theorem boundMarkers_cons {physical : Text} {payload : Items F} {rest : List (Items F)}
    {start m : Finmap fun _ : Text => Marker} :
    boundMarkers validateMarker physical (payload :: rest) start = .ok m ↔
      ∃ next, MarkerStep validateMarker physical payload start next ∧
        boundMarkers validateMarker physical rest next = .ok m := by
  rw [boundMarkers]
  unfold MarkerStep
  split
  · simp
  · simp only [bind_ok, orRaise_ok, ensure_ok]
    constructor
    · rintro ⟨marker, hmarker, -, hnew, h⟩
      exact ⟨_, ⟨marker, hmarker, hnew, rfl⟩, h⟩
    · rintro ⟨_, ⟨marker, hmarker, hnew, rfl⟩, h⟩
      exact ⟨marker, hmarker, (), hnew, h⟩

/-- Two records may be read in either order. -/
theorem MarkerStep.swap {physical : Text} {p q : Items F} {a b c : Finmap fun _ : Text => Marker}
    (hp : MarkerStep validateMarker physical p a b) (hq : MarkerStep validateMarker physical q b c) :
    ∃ b', MarkerStep validateMarker physical q a b' ∧ MarkerStep validateMarker physical p b' c := by
  unfold MarkerStep at hp hq ⊢
  split at hp
  · next hskip =>
    subst hp
    exact ⟨c, hq, by rw [if_pos hskip]⟩
  · next hkeep =>
    split at hq
    · next hskip =>
      subst hq
      exact ⟨a, by rw [if_pos hskip], by rwa [if_neg hkeep]⟩
    · next hkeep' =>
      obtain ⟨m, hm, hnew, rfl⟩ := hp
      obtain ⟨n, hn, hnew', rfl⟩ := hq
      rw [Finmap.mem_insert, not_or] at hnew'
      refine ⟨a.insert n.sourceRev n, ?_, ?_⟩
      · rw [if_neg hkeep']
        exact ⟨n, hn, hnew'.2, rfl⟩
      · rw [if_neg hkeep]
        refine ⟨m, hm, ?_, Finmap.insert_insert_of_ne _ (Ne.symm hnew'.1)⟩
        rw [Finmap.mem_insert, not_or]
        exact ⟨Ne.symm hnew'.1, hnew⟩

theorem boundMarkers_perm {physical : Text} {control control' : List (Items F)}
    (h : control.Perm control') : ∀ {start m : Finmap fun _ : Text => Marker},
      boundMarkers validateMarker physical control start = .ok m →
      boundMarkers validateMarker physical control' start = .ok m := by
  induction h with
  | nil => exact fun h => h
  | cons p _ ih =>
    intro start m h
    obtain ⟨next, hstep, hrest⟩ := (boundMarkers_cons validateMarker).mp h
    exact (boundMarkers_cons validateMarker).mpr ⟨next, hstep, ih hrest⟩
  | swap p q l =>
    intro start m h
    obtain ⟨next, hstep, hrest⟩ := (boundMarkers_cons validateMarker).mp h
    obtain ⟨next', hstep', hrest⟩ := (boundMarkers_cons validateMarker).mp hrest
    obtain ⟨other, hfirst, hsecond⟩ := hstep.swap validateMarker hstep'
    exact (boundMarkers_cons validateMarker).mpr
      ⟨other, hfirst, (boundMarkers_cons validateMarker).mpr ⟨next', hsecond, hrest⟩⟩
  | trans _ _ ih ih' => exact fun h => ih' (ih h)

theorem entriesOf_iff {acc : Finmap fun _ : Text => Acc} {markers : Finmap fun _ : Text => Marker}
    {revs : List Text} : ∀ {entries : List Entry}, entriesOf acc markers revs = .ok entries ↔
      List.Forall₂ (fun rev e => ∃ a marker, acc.lookup rev = some a ∧
        markers.lookup rev = some marker ∧ entryOf rev a marker = .ok e) revs entries := by
  induction revs with
  | nil =>
    intro entries
    rw [entriesOf, List.forall₂_nil_left_iff]
    exact ⟨fun h => (Except.ok.inj h).symm, fun h => by rw [h]⟩
  | cons rev revs ih =>
    intro entries
    simp only [entriesOf, bind_ok, orRaise_ok, pure_ok]
    constructor
    · rintro ⟨a, ha, marker, hm, e, he, rest, hrest, rfl⟩
      exact .cons ⟨a, marker, ha, hm, he⟩ (ih.mp hrest)
    · rintro (_ | ⟨⟨a, marker, ha, hm, he⟩, hrest⟩)
      exact ⟨a, ha, marker, hm, _, he, _, ih.mpr hrest, rfl⟩

/-- The rows of the stored chunks. -/
def chunkRows (data : List (Items F)) : List ChunkRow := data.filterMap fun p => (readRow p).toOption

def revisionRows (data : List (Items F)) (rev : Text) : List ChunkRow :=
  (chunkRows data).filter fun r => r.rev = rev

theorem chunkRows_eq {data : List (Items F)} {rows : List ChunkRow}
    (h : List.Forall₂ (fun p r => readRow p = .ok r) data rows) : chunkRows data = rows := by
  induction h with
  | nil => rfl
  | cons hr _ ih =>
    rw [chunkRows, List.filterMap_cons, hr]
    exact congrArg (List.cons _) ih

/-- What a build reads and checks. -/
theorem build_iff {physical : Text} {data control : List (Items F)} {entries : List Entry} :
    buildSourceCatalog validateMarker physical data control = .ok entries ↔
      ∃ markers, boundMarkers validateMarker physical control ∅ = .ok markers ∧
        (∀ p ∈ data, ∃ r, readRow p = .ok r) ∧
        (∀ rev, rev ∈ markers ↔ revisionRows data rev ≠ []) ∧
        List.Forall₂ (fun rev e => ∃ marker, markers.lookup rev = some marker ∧
          entryOf rev (accOf (revisionRows data rev)) marker = .ok e) (sorted markers.keys) entries := by
  simp only [buildSourceCatalog, bind_ok, ensure_ok, scanRows_iff, entriesOf_iff]
  have hmem : ∀ {rows : List ChunkRow},
      List.Forall₂ (fun p r => readRow p = .ok r) data rows → ∀ rev,
        (rows.foldl addRow ∅).lookup rev =
          if revisionRows data rev = [] then none else some (accOf (revisionRows data rev)) := by
    intro rows hread rev
    rw [lookup_scan, revisionRows, chunkRows_eq hread]
  have hkey : ∀ {rows : List ChunkRow},
      List.Forall₂ (fun p r => readRow p = .ok r) data rows → ∀ rev,
        rev ∈ (rows.foldl addRow ∅).keys ↔ revisionRows data rev ≠ [] := by
    intro rows hread rev
    rw [Finmap.mem_keys, ← Finmap.lookup_isSome, hmem hread]
    split
    · next hnil => simp [hnil]
    · next hne => simp [hne]
  constructor
  · rintro ⟨markers, hmarkers, _, ⟨rows, hread, rfl⟩, -, hkeys, hentries⟩
    refine ⟨markers, hmarkers, fun p hp => ?_, fun rev => ?_, ?_⟩
    · obtain ⟨r, -, hr⟩ := forall₂_left hread hp
      exact ⟨r, hr⟩
    · rw [← hkey hread rev, hkeys, Finmap.mem_keys]
    · rw [hkeys] at hentries
      refine hentries.imp fun rev e => ?_
      rintro ⟨a, marker, ha, hm, he⟩
      rw [hmem hread] at ha
      split at ha
      · cases ha
      · rw [Option.some.inj ha]
        exact ⟨marker, hm, he⟩
  · rintro ⟨markers, hmarkers, hall, hrevs, hentries⟩
    have hread : List.Forall₂ (fun p r => readRow p = .ok r) data (chunkRows data) := by
      clear hrevs hentries hmem hkey
      induction data with
      | nil => exact .nil
      | cons p data ih =>
        obtain ⟨⟨r, hr⟩, hall⟩ := List.forall_mem_cons.mp hall
        rw [chunkRows, List.filterMap_cons, hr]
        exact .cons hr (ih hall)
    have hkeys : ((chunkRows data).foldl addRow ∅).keys = markers.keys := by
      ext rev
      rw [hkey hread, ← hrevs, Finmap.mem_keys]
    refine ⟨markers, hmarkers, _, ⟨_, hread, rfl⟩, (), hkeys, ?_⟩
    rw [hkeys]
    refine forall₂_imp_mem hentries fun rev e hrev _ => ?_
    rintro ⟨marker, hm, he⟩
    refine ⟨_, marker, ?_, hm, he⟩
    rw [hmem hread, if_neg ((hrevs rev).mp (Finmap.mem_keys.mp ((Finset.mem_sort _).mp hrev)))]

theorem revisionRows_perm {data data' : List (Items F)} (h : data'.Perm data) (rev : Text) :
    (revisionRows data' rev).Perm (revisionRows data rev) := (h.filterMap _).filter _

theorem revisionRows_valid (data : List (Items F)) (rev : Text) :
    ∀ r ∈ revisionRows data rev, 0 ≤ r.start ∧ r.start ≤ r.stop := by
  intro r hr
  obtain ⟨p, -, hp⟩ := List.mem_filterMap.mp (List.mem_filter.mp hr).1
  cases hread : readRow p with
  | error e =>
    rw [hread] at hp
    cases hp
  | ok r' =>
    rw [hread] at hp
    obtain rfl : r' = r := Option.some.inj hp
    have := readRow_ok hread
    exact ⟨this.start_nonneg, this.start_le⟩

theorem filterMap_revisionRows (f : ChunkRow → Option Text) (data : List (Items F)) (rev : Text) :
    (revisionRows data rev).filterMap f = data.filterMap fun p =>
      (readRow p).toOption.bind fun r => if r.rev = rev then f r else none := by
  rw [revisionRows, List.filterMap_filter, chunkRows, List.filterMap_filterMap]
  simp

/-- The labels of an edge in any order are the labels of the chunks in some order. -/
theorem exists_chunk_order {page : ChunkRow → Int} {label : ChunkRow → Option Text} {lower : Bool}
    {data : List (Items F)} {rev : Text} {order : List Text}
    (h : order.Perm (edgeLabels page label lower (revisionRows data rev))) :
    ∃ data', data'.Perm data ∧ edgeLabels page label lower (revisionRows data' rev) = order := by
  let onEdge : ChunkRow → Option Text := fun r =>
    if (revisionRows data rev).all fun q => if lower then page r ≤ page q else page q ≤ page r then
      label r else none
  have hread : ∀ {data' : List (Items F)}, data'.Perm data →
      edgeLabels page label lower (revisionRows data' rev) =
        (revisionRows data' rev).filterMap onEdge := by
    intro data' hperm
    have hall : ∀ p : ChunkRow → Bool, (revisionRows data' rev).all p = (revisionRows data rev).all p := by
      intro p
      rw [Bool.eq_iff_iff, List.all_eq_true, List.all_eq_true]
      exact forall_congr' fun r => by rw [(revisionRows_perm hperm rev).mem_iff]
    unfold edgeLabels
    simp only [hall]
    rfl
  rw [hread (.refl data), filterMap_revisionRows] at h
  obtain ⟨data', hperm, horder⟩ := Tally.exists_perm_filterMap h
  refine ⟨data', hperm, ?_⟩
  rw [hread hperm, filterMap_revisionRows, horder]

/-! ## Reading by pages -/

/-- The records a scroll loop sees: it ends with the pages, or at a page without records. -/
def scrolled {α : Type} : List (List α) → List α
  | [] => []
  | page :: pages => if page.isEmpty then [] else page ++ scrolled pages

/-- `build_source_catalog` over the pages of the data and the control collection. -/
def buildFromPages (physical : Text) (data control : List (List (Items F))) :
    Except CatalogError (List Entry) :=
  buildSourceCatalog validateMarker physical (scrolled data) (scrolled control)

/-- The catalog is what these entries say in every order and paging, and they say what the chunks are. -/
def OrderExact (physical : Text) (data control : List (Items F)) (entries : List Entry) : Prop :=
  (∀ dataPages controlPages, (scrolled dataPages).Perm data → (scrolled controlPages).Perm control →
    buildFromPages validateMarker physical dataPages controlPages = .ok entries) ∧
  ∀ e ∈ entries, Exact (revisionRows data e.sourceRevision) e

/-- The labels of both edges of every revision are settled. -/
def EdgesSettled (data : List (Items F)) : Prop :=
  ∀ rev, Settled (firstLabels (revisionRows data rev)) ∧ Settled (lastLabels (revisionRows data rev))

variable {validateMarker}

/-- Where an edge label comes out wrong in some order of the chunks, no list of entries is right. -/
theorem settled_of_orders {page : ChunkRow → Int} {label : ChunkRow → Option Text} {lower : Bool}
    (printed : Entry → Option Text) {physical : Text} {data control : List (Items F)}
    {entries : List Entry} {rev : Text}
    (hrun : ∀ {rows : List ChunkRow} {rev : Text} {marker : Marker} {e : Entry}, rows ≠ [] →
      (∀ r ∈ rows, 0 ≤ r.start ∧ r.start ≤ r.stop) → entryOf rev (accOf rows) marker = .ok e →
      e.sourceRevision = rev ∧ printed e = running (edgeLabels page label lower rows))
    (hbuild : ∀ data', data'.Perm data →
      buildSourceCatalog validateMarker physical data' control = .ok entries)
    (hagreed : ∀ e ∈ entries, Agreed (edgeLabels page label lower (revisionRows data e.sourceRevision))
      (printed e)) : Settled (edgeLabels page label lower (revisionRows data rev)) := by
  by_contra hno
  obtain ⟨order, horder, hsome⟩ := exists_order_of_not_settled hno
  obtain ⟨data', hperm, hdata'⟩ := exists_chunk_order horder
  have hne : revisionRows data rev ≠ [] := by
    intro hnil
    rw [hnil] at hno
    exact hno (.inl (List.forall_mem_nil _))
  have hne' : revisionRows data' rev ≠ [] := by
    intro hnil
    have := revisionRows_perm hperm rev
    rw [hnil] at this
    exact hne this.nil_eq.symm
  obtain ⟨markers, -, -, hrevs, hentries⟩ := (build_iff validateMarker).mp (hbuild data' hperm)
  have hkey : rev ∈ sorted markers.keys :=
    (Finset.mem_sort _).mpr (Finmap.mem_keys.mpr ((hrevs rev).mpr hne'))
  obtain ⟨e, he, marker, -, hentry⟩ := forall₂_left hentries hkey
  obtain ⟨hrev, hprinted⟩ := hrun hne' (revisionRows_valid data' rev) hentry
  have hagree := hagreed e he
  rw [hrev] at hagree
  rw [hprinted, hdata'] at hagree
  obtain ⟨l, hl⟩ := Option.isSome_iff_exists.mp hsome
  rw [hl] at hagree
  exact not_agreed_of_not_settled hno hagree

/-- A chunk of page 0 with a printed label. -/
def labelledChunk (label : Text) : Items Unit :=
  [("source_rev".toList, .str someRev), ("doc_id".toList, .str "D".toList),
    ("sha256".toList, .str someSha), ("title".toList, .str ['T']), ("product".toList, .null),
    ("version".toList, .null), ("page_start".toList, .int 0), ("page_end".toList, .int 0),
    ("page_label".toList, .str label)]

/-- The marker of a revision with `n` chunks. -/
def markerOf (n : Int) : Items Unit :=
  [("doc_id".toList, .str "D".toList), ("sha256".toList, .str someSha),
    ("target_collection".toList, .str somePhysical), ("expected_chunks".toList, .int n),
    ("source_rev".toList, .str someRev)]

def labelledEntry (n : Int) (label : Option Text) : Entry :=
  { someEntry (some ['T']) with chunkCount := n, firstLabel := label, lastLabel := label }

end MainframeRag.Ingest.Catalog
