import MainframeRag.Lib.Cutting

/-!
# Spans

Where the matches of a pattern start and end in a text. A span is a match in its place
(`mem_spans`).
-/

namespace MainframeRag.Regex

variable {α : Type}

/-- `t[s:e]` -/
def spanText (t : List α) (s e : Nat) : List α := (t.take e).drop s

def spansFrom : Nat → List (Segment α) → List (Nat × Nat)
  | _, [] => []
  | i, .gap _ :: segs => spansFrom (i + 1) segs
  | i, .found w :: segs => (i, i + w.length) :: spansFrom (i + w.length) segs

/-- `re.finditer` -/
def spans (p : Pattern α) (t : List α) : List (Nat × Nat) := spansFrom 0 (segments p t)

/-- `re.search`, where it matches. -/
def firstSpan (p : Pattern α) (t : List α) : Option (Nat × Nat) := (spans p t).head?

theorem length_spanText {t : List α} {s e : Nat} (h : e ≤ t.length) :
    (spanText t s e).length = e - s := by
  rw [spanText, List.length_drop, List.length_take, Nat.min_eq_left h]

theorem spanText_append_drop {t : List α} {s e : Nat} (h : s ≤ e) :
    spanText t s e ++ t.drop e = t.drop s := by
  rw [spanText, List.drop_take]
  conv_rhs => rw [← List.take_append_drop (e - s) (t.drop s)]
  rw [List.drop_drop, Nat.add_sub_cancel' h]

theorem mem_spansFrom {i s e : Nat} {segs : List (Segment α)} (h : (s, e) ∈ spansFrom i segs) :
    ∃ front w back, segs = front ++ .found w :: back ∧ s = i + (textOf front).length ∧
      e = s + w.length := by
  induction segs generalizing i with
  | nil => cases h
  | cons seg segs ih =>
    cases seg with
    | gap c =>
      obtain ⟨front, w, back, rfl, hs, he⟩ := ih h
      refine ⟨.gap c :: front, w, back, rfl, ?_, he⟩
      rw [textOf_cons, List.length_append, hs]
      exact Nat.add_assoc i 1 _
    | found v =>
      rcases List.mem_cons.mp h with h | h
      · cases h
        exact ⟨[], v, segs, rfl, rfl, rfl⟩
      · obtain ⟨front, w, back, rfl, hs, he⟩ := ih h
        refine ⟨.found v :: front, w, back, rfl, ?_, he⟩
        rw [textOf_cons, List.length_append, hs]
        exact Nat.add_assoc i v.length _

theorem take_append_spanText {t : List α} {s e : Nat} (h : s ≤ e) :
    t.take s ++ spanText t s e = t.take e := by
  conv_rhs => rw [← List.take_append_drop s (t.take e), List.take_take, Nat.min_eq_left h]
  rfl

theorem spanText_append {t : List α} {a b c : Nat} (hab : a ≤ b) (hbc : b ≤ c) :
    spanText t a b ++ spanText t b c = spanText t a c := by
  have htake : (t.take c).take b = t.take b := by rw [List.take_take, Nat.min_eq_left hbc]
  have h := spanText_append_drop (t := t.take c) hab
  rw [spanText, htake] at h
  exact h

theorem mem_of_mem_spanText {t : List α} {s e : Nat} {c : α} (h : c ∈ spanText t s e) :
    c ∈ t.take e := List.mem_of_mem_drop h

theorem spanText_drop (t : List α) (b i j : Nat) :
    spanText (t.drop b) i j = spanText t (b + i) (b + j) := by
  rw [spanText, spanText, List.take_drop, List.drop_drop]

/-- A span holds a match. -/
theorem mem_spans {p : Pattern α} {t : List α} {s e : Nat} (h : (s, e) ∈ spans p t) :
    s ≤ e ∧ e ≤ t.length ∧
      (⟨(t.take e).reverse, t.drop e⟩ : Place α) ∈ p.runs ⟨(t.take s).reverse, t.drop s⟩ := by
  obtain ⟨front, w, back, hsegs, hs, rfl⟩ := mem_spansFrom h
  rw [Nat.zero_add] at hs
  have htext := textOf_segments p t
  rw [hsegs, textOf_append, textOf_cons] at htext
  have htake : t.take s = textOf front := by rw [← htext, hs, List.take_left]
  have hdrop : t.drop s = w ++ textOf back := by rw [← htext, hs, List.drop_left]; rfl
  have hlen : t.length = s + w.length + (textOf back).length := by
    rw [← htext, List.length_append, List.length_append, ← hs, Segment.text, Nat.add_assoc]
  have htake' : t.take (s + w.length) = textOf front ++ w := by
    rw [List.take_add, htake, hdrop, List.take_left]
  have hdrop' : t.drop (s + w.length) = textOf back := by
    rw [← List.drop_drop, hdrop, List.drop_left]
  have hmem := List.mem_of_head? (segments_found hsegs)
  rw [← List.reverse_append, ← htake', ← htake, ← hdrop, ← hdrop'] at hmem
  exact ⟨Nat.le_add_right _ _, hlen ▸ Nat.le_add_right _ _, hmem⟩

/-- What is read between two places of a text. -/
theorem along_spanText {t : List α} {s e : Nat} (h : s ≤ e) :
    Along ⟨(t.take s).reverse, t.drop s⟩ (spanText t s e) ⟨(t.take e).reverse, t.drop e⟩ where
  rest := (spanText_append_drop h).symm
  before := by rw [← take_append_spanText h, List.reverse_append]

/-- The place behind what is read from a place of a text. -/
theorem Along.place {t w : List α} {s : Nat} {e : Place α}
    (h : Along ⟨(t.take s).reverse, t.drop s⟩ w e) :
    e = ⟨(t.take (s + w.length)).reverse, t.drop (s + w.length)⟩ := by
  have hrest : t.drop s = w ++ e.rest := h.rest
  rw [h.target, List.take_add, hrest, List.take_left, ← List.drop_drop, hrest, List.drop_left,
    List.reverse_append]

theorem firstSpan_mem {p : Pattern α} {t : List α} {m : Nat × Nat} (h : firstSpan p t = some m) :
    m ∈ spans p t := List.mem_of_head? h

/-- What is found has a span. -/
theorem found_eq_nil {p : Pattern α} {t : List α} (h : spans p t = []) : found p t = [] := by
  have hsegs : ∀ (segs : List (Segment α)) (i : Nat), spansFrom i segs = [] →
      ∀ w, Segment.found w ∉ segs := by
    intro segs
    induction segs with
    | nil => exact fun _ _ _ => List.not_mem_nil
    | cons seg segs ih =>
      intro i hi w hw
      cases seg with
      | gap c =>
        rcases List.mem_cons.1 hw with hw | hw
        · cases hw
        · exact ih (i + 1) hi w hw
      | found v => cases hi
  unfold found
  rw [List.filterMap_eq_nil_iff]
  intro seg hseg
  cases seg with
  | gap c => rfl
  | found w => exact absurd hseg (hsegs _ 0 h w)

/-- A match at a place is found there. -/
theorem segmentsFrom_found {p : Pattern α} {pl e : Place α} {w : List α} (fuel : Nat)
    (h : p.matchAt pl = some e) (hw : Along pl w e) (hne : w ≠ []) :
    segmentsFrom p (fuel + 1) pl = .found w :: segmentsFrom p fuel e := by
  have hpos : 0 < w.length := List.length_pos_iff.mpr hne
  have hrest := hw.rest
  have hlt : e.rest.length < pl.rest.length := by
    rw [hrest, List.length_append]
    omega
  rw [segmentsFrom]
  split
  · next hnil =>
    rw [hnil] at hlt
    cases hlt
  · rw [h, Option.filter_some, if_pos (by simpa using hlt)]
    simp [hrest]

/-- Behind a part in which no match starts, the first match is the one at its end. -/
theorem firstSpan_append {p : Pattern α} {front rest w : List α} {e : Place α}
    (hquiet : ∀ a c b, front = a ++ c :: b → p.runs ⟨a.reverse, c :: (b ++ rest)⟩ = [])
    (hmatch : p.matchAt ⟨front.reverse, rest⟩ = some e) (hw : Along ⟨front.reverse, rest⟩ w e)
    (hne : w ≠ []) : firstSpan p (front ++ rest) = some (front.length, front.length + w.length) := by
  have hrest : rest = w ++ e.rest := hw.rest
  have hpos : 0 < rest.length := by
    rw [hrest, List.length_append]
    exact Nat.add_pos_left (List.length_pos_iff.mpr hne) _
  have hscan : ∀ (done todo : List α) (fuel : Nat), front = done ++ todo →
      (todo ++ rest).length ≤ fuel →
      (spansFrom done.length (segmentsFrom p fuel ⟨done.reverse, todo ++ rest⟩)).head? =
        some (front.length, front.length + w.length) := by
    intro done todo
    induction todo generalizing done with
    | nil =>
      intro fuel hfront hfuel
      rw [List.append_nil] at hfront
      subst hfront
      cases fuel with
      | zero => exact absurd hfuel (Nat.not_le.mpr hpos)
      | succ fuel =>
        rw [List.nil_append, segmentsFrom_found fuel hmatch hw hne]
        rfl
    | cons c todo ih =>
      intro fuel hfront hfuel
      cases fuel with
      | zero => cases hfuel
      | succ fuel =>
        have hnone : p.matchAt ⟨done.reverse, c :: (todo ++ rest)⟩ = none :=
          Pattern.matchAt_none.mpr (hquiet done c todo hfront)
        have hnext := ih (done ++ [c]) fuel (by rw [hfront]; simp) (Nat.le_of_succ_le_succ hfuel)
        rw [List.length_append, List.reverse_append] at hnext
        rw [List.cons_append, segmentsFrom, hnone, Option.filter_none]
        exact hnext
  exact hscan [] front _ rfl Nat.le.refl

end MainframeRag.Regex
