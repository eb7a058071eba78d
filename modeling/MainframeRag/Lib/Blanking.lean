import MainframeRag.Lib.Spans
import MainframeRag.Lib.Words

/-!
# Blanking spans out of a text

A text with the places of some spans blanked. Words that no span touches stay (`words_untouched`).
Where the spans are solid, end at word edges and cover every occurrence of a language of solid words,
the rest holds no occurrence (`not_occurs_blanked`): what a blank cuts off was at an edge before.
-/

namespace MainframeRag.Blanking

open Regex Words

variable {α : Type}

/-! ## Places -/

/-- The place is inside one of the spans. -/
def covered (cuts : List (Nat × Nat)) (i : Nat) : Bool :=
  cuts.any fun cut => cut.1 ≤ i && i < cut.2

theorem covered_iff {cuts : List (Nat × Nat)} {i : Nat} :
    covered cuts i = true ↔ ∃ cut ∈ cuts, cut.1 ≤ i ∧ i < cut.2 := by
  simp [covered]

/-- The text with the places in the spans blanked. -/
def blanked (b : α) (cuts : List (Nat × Nat)) (t : List α) : List α :=
  t.mapIdx fun i c => if covered cuts i then b else c

section

variable {b : α} {cuts : List (Nat × Nat)} {t : List α}

theorem length_blanked : (blanked b cuts t).length = t.length := List.length_mapIdx

theorem getElem?_blanked (i : Nat) :
    (blanked b cuts t)[i]? = t[i]?.map fun c => if covered cuts i then b else c :=
  List.getElem?_mapIdx

theorem getElem?_uncovered {i : Nat} (h : covered cuts i = false) :
    (blanked b cuts t)[i]? = t[i]? := by
  rw [getElem?_blanked, h]
  cases t[i]? with
  | none => rfl
  | some c => rfl

theorem getElem?_covered {i : Nat} (h : covered cuts i = true) :
    (blanked b cuts t)[i]? = t[i]?.map fun _ => b := by
  rw [getElem?_blanked, h]
  rfl

theorem getElem?_spanText (t : List α) (i j k : Nat) :
    (spanText t i j)[k]? = if i + k < j then t[i + k]? else none := by
  rw [spanText, List.getElem?_drop, List.getElem?_take]

/-- Spans of texts that agree there. -/
theorem spanText_congr {t u : List α} {i j : Nat} (h : ∀ k, i ≤ k → k < j → t[k]? = u[k]?) :
    spanText t i j = spanText u i j := by
  refine List.ext_getElem? fun k => ?_
  rw [getElem?_spanText, getElem?_spanText]
  split
  · exact h (i + k) (Nat.le_add_right i k) ‹_›
  · rfl

theorem mem_spanText {t : List α} {i j : Nat} {c : α} :
    c ∈ spanText t i j ↔ ∃ k, i ≤ k ∧ k < j ∧ t[k]? = some c := by
  rw [List.mem_iff_getElem?]
  constructor
  · rintro ⟨k, hk⟩
    rw [getElem?_spanText] at hk
    split at hk
    · exact ⟨i + k, Nat.le_add_right i k, ‹_›, hk⟩
    · cases hk
  · rintro ⟨k, hik, hkj, hk⟩
    refine ⟨k - i, ?_⟩
    rw [getElem?_spanText, Nat.add_sub_cancel' hik, if_pos hkj, hk]

end

/-! ## Words -/

section

variable {sep : α → Bool} {b : α} {cuts : List (Nat × Nat)} {t : List α}

/-- A word of the text, by its place. -/
structure WordAt (sep : α → Bool) (t : List α) (p : Nat × Nat) : Prop where
  inside : p.2 ≤ t.length
  solid : Solid sep (spanText t p.1 p.2)
  before : ∀ c ∈ (t.take p.1).getLast?, sep c = true
  behind : ∀ c ∈ (t.drop p.2).head?, sep c = true

theorem WordAt.proper {p : Nat × Nat} (h : WordAt sep t p) : p.1 < p.2 := by
  by_contra hle
  refine h.solid.1 (List.drop_of_length_le ?_)
  exact (List.length_take_le _ _).trans (Nat.not_lt.mp hle)

/-- Words that stand behind each other in a text are words of it, in that order. -/
theorem words_of_places {ps : List (Nat × Nat)} (hps : ps.Pairwise fun p q => p.2 ≤ q.1)
    (hword : ∀ p ∈ ps, WordAt sep t p) {k : Nat} (hk : ∀ p ∈ ps, k ≤ p.1) :
    (ps.map fun p => spanText t p.1 p.2).Sublist (words sep (t.drop k)) := by
  induction ps generalizing k with
  | nil => exact List.nil_sublist _
  | cons p ps ih =>
    obtain ⟨hfirst, hps⟩ := List.pairwise_cons.mp hps
    obtain ⟨hp, hword⟩ := List.forall_mem_cons.mp hword
    have hkp : k ≤ p.1 := hk p List.mem_cons_self
    have hcut : t.drop k = spanText t k p.1 ++ (spanText t p.1 p.2 ++ t.drop p.2) := by
      rw [spanText_append_drop hp.proper.le, spanText_append_drop hkp]
    have hlast : ∀ c ∈ (spanText t k p.1).getLast?, sep c = true := by
      intro c hc
      refine hp.before c ?_
      rw [← take_append_spanText hkp, List.getLast?_append, Option.mem_def.mp hc]
      rfl
    rw [hcut, words_append_of_last hlast, words_append_of_head _ hp.behind, words_solid hp.solid,
      List.map_cons]
    exact (List.Sublist.cons_cons _ (ih hps hword hfirst)).trans (List.sublist_append_right _ _)

theorem WordAt.blanked {p : Nat × Nat} (hb : sep b = true) (h : WordAt sep t p)
    (hfree : ∀ i, p.1 ≤ i → i < p.2 → covered cuts i = false) :
    WordAt sep (blanked b cuts t) p ∧ spanText (blanked b cuts t) p.1 p.2 = spanText t p.1 p.2 := by
  have hspan : spanText (Blanking.blanked b cuts t) p.1 p.2 = spanText t p.1 p.2 :=
    spanText_congr fun i hi hj => getElem?_uncovered (hfree i hi hj)
  have hsep : ∀ (i : Nat) (c : α), (Blanking.blanked b cuts t)[i]? = some c →
      (∀ d, t[i]? = some d → sep d = true) → sep c = true := by
    intro i c hc hd
    rw [getElem?_blanked] at hc
    obtain ⟨d, hd', rfl⟩ := Option.map_eq_some_iff.mp hc
    split
    · exact hb
    · exact hd d hd'
  refine ⟨⟨?_, hspan ▸ h.solid, fun c hc => ?_, fun c hc => ?_⟩, hspan⟩
  · rw [length_blanked]
    exact h.inside
  · have hlen : p.1 ≤ t.length := h.proper.le.trans h.inside
    rw [List.getLast?_eq_getElem?, List.length_take, length_blanked, Nat.min_eq_left hlen] at hc
    have h1 : p.1 - 1 < p.1 := by
      rcases Nat.eq_zero_or_pos p.1 with h0 | h0
      · rw [h0, List.take_zero] at hc
        cases hc
      · omega
    rw [Option.mem_def, List.getElem?_take, if_pos h1] at hc
    refine hsep _ c hc fun d hd => h.before d ?_
    rw [List.getLast?_eq_getElem?, List.length_take, Nat.min_eq_left hlen, Option.mem_def,
      List.getElem?_take, if_pos h1, hd]
  · rw [List.head?_drop] at hc
    refine hsep _ c hc fun d hd => h.behind d ?_
    rw [List.head?_drop, hd]
    rfl

/-- A word that no span touches is still there. -/
theorem words_untouched (hb : sep b = true) {ps : List (Nat × Nat)}
    (hps : ps.Pairwise fun p q => p.2 ≤ q.1) (hword : ∀ p ∈ ps, WordAt sep t p)
    (hfree : ∀ p ∈ ps, ∀ i, p.1 ≤ i → i < p.2 → covered cuts i = false) :
    (ps.map fun p => spanText t p.1 p.2).Sublist (words sep (blanked b cuts t)) := by
  have hblanked := fun p hp => (hword p hp).blanked hb (hfree p hp)
  have hmap : (ps.map fun p => spanText t p.1 p.2) =
      ps.map fun p => spanText (blanked b cuts t) p.1 p.2 :=
    List.map_congr_left fun p hp => (hblanked p hp).2.symm
  rw [hmap]
  exact words_of_places hps (fun p hp => (hblanked p hp).1) fun p _ => Nat.zero_le p.1

/-- The words hold the elements that are no separators. -/
theorem flatten_words (t : List α) : (words sep t).flatten = t.filter (!sep ·) := by
  generalize hws : words sep t = ws
  induction ws generalizing t with
  | nil =>
    refine (List.filter_eq_nil_iff.mpr fun c hc => ?_).symm
    simp [words_eq_nil.mp hws c hc]
  | cons w ws ih =>
    obtain ⟨g, rest, rfl, hg, hw, -, hrest⟩ := words_first hws
    have hgap : g.filter (!sep ·) = [] := List.filter_eq_nil_iff.mpr fun c hc => by simp [hg c hc]
    have hword : w.filter (!sep ·) = w := List.filter_eq_self.mpr fun c hc => by simp [hw.2 c hc]
    rw [List.flatten_cons, ih rest hrest, List.filter_append, List.filter_append, hgap, hword]
    rfl

theorem countP_blanked_le (hb : sep b = true) (hide : Nat → Bool) (t : List α) :
    (t.mapIdx fun i c => if hide i then b else c).countP (!sep ·) ≤ t.countP (!sep ·) := by
  induction t generalizing hide with
  | nil => exact Nat.le.refl
  | cons c t ih =>
    rw [List.mapIdx_cons, List.countP_cons, List.countP_cons]
    refine Nat.add_le_add (ih fun i => hide (i + 1)) ?_
    cases hide 0 with
    | true => simp [hb]
    | false => exact Nat.le.refl

theorem countP_blanked_lt (hb : sep b = true) {hide : Nat → Bool} {t : List α} {i : Nat} {c : α}
    (hi : hide i = true) (ht : t[i]? = some c) (hc : sep c = false) :
    (t.mapIdx fun i c => if hide i then b else c).countP (!sep ·) < t.countP (!sep ·) := by
  induction t generalizing hide i with
  | nil => cases ht
  | cons d t ih =>
    rw [List.mapIdx_cons, List.countP_cons, List.countP_cons]
    cases i with
    | zero =>
      obtain rfl : d = c := Option.some.inj ht
      have hle := countP_blanked_le hb (fun i => hide (i + 1)) t
      simp only [hi, hb, hc, if_true, Bool.not_true, Bool.not_false, Bool.false_eq_true, if_false]
      omega
    | succ i =>
      have hlt := @ih (fun i => hide (i + 1)) i hi ht
      have hle : (if (!sep (if hide 0 = true then b else d)) = true then 1 else 0) ≤
          if (!sep d) = true then 1 else 0 := by
        cases hide 0 with
        | true => simp [hb]
        | false => exact Nat.le.refl
      exact Nat.add_lt_add_of_lt_of_le hlt hle

/-- A text of which something solid was blanked has other words. -/
theorem words_blanked_ne (hb : sep b = true) {i : Nat} {c : α} (hi : covered cuts i = true)
    (ht : t[i]? = some c) (hc : sep c = false) : words sep (blanked b cuts t) ≠ words sep t := by
  intro h
  have hflat : (blanked b cuts t).filter (!sep ·) = t.filter (!sep ·) := by
    rw [← flatten_words, h, flatten_words]
  have hcount := congrArg List.length hflat
  rw [← List.countP_eq_length_filter, ← List.countP_eq_length_filter] at hcount
  exact absurd hcount (countP_blanked_lt hb hi ht hc).ne

/-- What stands between spans that are sorted by their starts and may overlap. -/
def parts (t : List α) : Nat → List (Nat × Nat) → List (List α)
  | pos, [] => [t.drop pos]
  | pos, cut :: cuts => spanText t pos cut.1 :: parts t (max pos cut.2) cuts

theorem words_parts_from (hb : sep b = true) {all : List (Nat × Nat)}
    (hsorted : cuts.Pairwise fun c d => c.1 ≤ d.1)
    (hcuts : ∀ cut ∈ cuts, cut.1 < cut.2 ∧ cut.2 ≤ t.length) {pos : Nat}
    (hagree : ∀ i, pos ≤ i → covered all i = covered cuts i) :
    (parts t pos cuts).flatMap (words sep) = words sep ((blanked b all t).drop pos) := by
  induction cuts generalizing pos with
  | nil =>
    have hsame : (blanked b all t).drop pos = t.drop pos := by
      refine List.ext_getElem? fun k => ?_
      rw [List.getElem?_drop, List.getElem?_drop]
      exact getElem?_uncovered (hagree _ (Nat.le_add_right pos k))
    rw [parts, List.flatMap_cons, List.flatMap_nil, List.append_nil, hsame]
  | cons cut cuts ih =>
    obtain ⟨hfirst, hsorted⟩ := List.pairwise_cons.mp hsorted
    obtain ⟨⟨hlt, hle⟩, hcuts⟩ := List.forall_mem_cons.mp hcuts
    have hbehind : ∀ i, max pos cut.2 ≤ i → covered all i = covered cuts i := by
      intro i hi
      have hout : ¬ i < cut.2 := Nat.not_lt.mpr ((Nat.le_max_right pos cut.2).trans hi)
      rw [hagree i ((Nat.le_max_left pos cut.2).trans hi), covered, List.any_cons, covered]
      simp [hout]
    have hnext := ih hsorted hcuts hbehind
    rw [parts, List.flatMap_cons, hnext]
    rcases Nat.lt_or_ge pos cut.2 with hin | hout
    · -- the span hides the places from `m` on
      let m := max pos cut.1
      have hm : m < cut.2 := Nat.max_lt.mpr ⟨hin, hlt⟩
      have hkept : spanText t pos cut.1 = spanText (blanked b all t) pos m := by
        refine List.ext_getElem? fun k => ?_
        rw [getElem?_spanText, getElem?_spanText]
        by_cases hk : pos + k < cut.1
        · have hopen : covered all (pos + k) = false := by
            rw [hagree _ (Nat.le_add_right pos k), ← Bool.not_eq_true, covered_iff]
            rintro ⟨c, hc, hstart, -⟩
            have hge : cut.1 ≤ c.1 := (List.mem_cons.mp hc).elim (fun h => h ▸ Nat.le.refl) (hfirst c)
            omega
          rw [if_pos hk, if_pos (Nat.lt_of_lt_of_le hk (Nat.le_max_right _ _)),
            getElem?_uncovered hopen]
        · rw [if_neg hk, if_neg]
          exact Nat.not_lt.mpr (Nat.max_le.mpr ⟨Nat.le_add_right pos k, Nat.not_lt.mp hk⟩)
      have hhidden : ∀ c ∈ spanText (blanked b all t) m cut.2, sep c = true := by
        intro c hc
        obtain ⟨k, hk, hkc, hget⟩ := mem_spanText.mp hc
        have hcovered : covered all k = true := by
          rw [hagree k ((Nat.le_max_left _ _).trans hk), covered_iff]
          exact ⟨cut, List.mem_cons_self, (Nat.le_max_right _ _).trans hk, hkc⟩
        rw [getElem?_covered hcovered] at hget
        obtain ⟨d, -, rfl⟩ := Option.map_eq_some_iff.mp hget
        exact hb
      have hne : spanText (blanked b all t) m cut.2 ≠ [] := by
        rw [← List.length_pos_iff, length_spanText (by rw [length_blanked]; exact hle)]
        omega
      have hmax : max pos cut.2 = cut.2 := Nat.max_eq_right hin.le
      rw [hkept, hmax, ← spanText_append_drop (Nat.le_max_left pos cut.1),
        ← spanText_append_drop hm.le]
      obtain ⟨c, g, hg⟩ := List.exists_cons_of_ne_nil hne
      rw [words_append_of_head, words_gap hhidden]
      intro d hd
      rw [hg, List.cons_append] at hd
      exact hhidden d (hg ▸ Option.some.inj hd ▸ List.mem_cons_self)
    · have hnil : spanText t pos cut.1 = [] :=
        List.drop_of_length_le ((List.length_take_le _ _).trans (hlt.le.trans hout))
      rw [hnil, words_nil, List.nil_append, Nat.max_eq_left hout]

/-- The words between the spans are the words that are left. -/
theorem words_parts (hb : sep b = true) (hsorted : cuts.Pairwise fun c d => c.1 ≤ d.1)
    (hcuts : ∀ cut ∈ cuts, cut.1 < cut.2 ∧ cut.2 ≤ t.length) :
    (parts t 0 cuts).flatMap (words sep) = words sep (blanked b cuts t) :=
  words_parts_from hb hsorted hcuts fun _ _ => rfl

end

/-! ## Occurrences -/

/-- A word of the language in a text, between word edges. -/
structure OccursAt (word : α → Bool) (P : List α → Prop) (t x w y : List α) : Prop where
  text : t = x ++ (w ++ y)
  reads : P w
  start : x.getLast?.any word ≠ (w ++ y).head?.any word
  stop : (x ++ w).getLast?.any word ≠ y.head?.any word

def Occurs (word : α → Bool) (P : List α → Prop) (t : List α) : Prop :=
  ∃ x w y, OccursAt word P t x w y

/-- A word edge of a text. -/
def edge (word : α → Bool) (t : List α) (i : Nat) : Prop :=
  (t.take i).getLast?.any word ≠ (t.drop i).head?.any word

section

variable {sep word : α → Bool} {P : List α → Prop}

theorem any_getLast?_append {x y : List α} (hword : ∀ c, sep c = true → word c = false)
    (hx : ∀ c ∈ x.getLast?, sep c = true) :
    (x ++ y).getLast?.any word = y.getLast?.any word := by
  rw [List.getLast?_append]
  cases hy : y.getLast? with
  | some c => rfl
  | none =>
    cases hx' : x.getLast? with
    | none => rfl
    | some c => exact hword c (hx c hx')

theorem any_head?_append {x y : List α} (hword : ∀ c, sep c = true → word c = false)
    (hy : ∀ c ∈ y.head?, sep c = true) : (x ++ y).head?.any word = x.head?.any word := by
  rw [List.head?_append]
  cases hx : x.head? with
  | some c => rfl
  | none =>
    cases hy' : y.head? with
    | none => rfl
    | some c => exact hword c (hy c hy')

theorem sep_of_rdropWhile (x : List α) :
    ∀ c ∈ (x.rdropWhile (!sep ·)).getLast?, sep c = true := by
  intro c hc
  by_cases hnil : x.rdropWhile (!sep ·) = []
  · rw [hnil] at hc
    cases hc
  · have hnot := List.rdropWhile_last_not (!sep ·) x hnil
    rw [List.getLast?_eq_some_getLast hnil] at hc
    cases hc
    simpa using hnot

/-- A word in its text. -/
theorem mem_words_split {t v : List α} (h : v ∈ words sep t) : ∃ x y, t = x ++ (v ++ y) ∧
    (∀ c ∈ x.getLast?, sep c = true) ∧ ∀ c ∈ y.head?, sep c = true := by
  generalize hws : words sep t = ws at h
  induction ws generalizing t with
  | nil => cases h
  | cons w ws ih =>
    obtain ⟨g, rest, rfl, hg, hw, hhead, hrest⟩ := words_first hws
    rcases List.mem_cons.mp h with rfl | h
    · exact ⟨g, rest, rfl, fun c hc => hg c (List.mem_of_getLast? hc), hhead⟩
    · have hsolid : Solid sep v := solid_of_mem (show v ∈ words sep rest from hrest.symm ▸ h)
      obtain ⟨x, y, rfl, hx, hy⟩ := ih hrest h
      refine ⟨g ++ (w ++ x), y, by simp only [List.append_assoc], fun c hc => ?_, hy⟩
      rw [List.getLast?_append, List.getLast?_append] at hc
      cases hlast : x.getLast? with
      | some d =>
        rw [hlast] at hc
        exact hx c (hlast ▸ hc)
      | none =>
        -- a separator follows the first word
        obtain rfl := List.getLast?_eq_none_iff.mp hlast
        obtain ⟨d, u, rfl⟩ := List.exists_cons_of_ne_nil hsolid.1
        have hsep := hhead d rfl
        rw [hsolid.2 d List.mem_cons_self] at hsep
        cases hsep

/-- Solid words occur in the words of a text. -/
theorem occurs_iff_words (hsolid : ∀ w, P w → Solid sep w)
    (hword : ∀ c, sep c = true → word c = false) {t : List α} :
    Occurs word P t ↔ ∃ v ∈ words sep t, Occurs word P v := by
  constructor
  · rintro ⟨x, w, y, h⟩
    have hw := hsolid w h.reads
    let x1 := x.rdropWhile (!sep ·)
    let x2 := x.rtakeWhile (!sep ·)
    let y1 := y.takeWhile (!sep ·)
    let y2 := y.dropWhile (!sep ·)
    have hx : x = x1 ++ x2 := List.rdropWhile_append_rtakeWhile.symm
    have hy : y = y1 ++ y2 := List.takeWhile_append_dropWhile.symm
    have hx1 : ∀ c ∈ x1.getLast?, sep c = true := sep_of_rdropWhile x
    have hy2 : ∀ c ∈ y2.head?, sep c = true := sep_of_dropWhile y
    have hv : Solid sep (x2 ++ (w ++ y1)) := by
      refine ⟨by simp [hw.1], fun c hc => ?_⟩
      rcases List.mem_append.mp hc with hc | hc
      · simpa using List.mem_rtakeWhile_imp hc
      · rcases List.mem_append.mp hc with hc | hc
        · exact hw.2 c hc
        · simpa using List.mem_takeWhile_imp hc
    have ht : t = x1 ++ ((x2 ++ (w ++ y1)) ++ y2) := by
      rw [h.text]
      conv_lhs => rw [hx, hy]
      simp only [List.append_assoc]
    refine ⟨x2 ++ (w ++ y1), ?_, x2, w, y1, rfl, h.reads, ?_, ?_⟩
    · rw [ht, words_append_of_last hx1, words_append_of_head _ hy2, words_solid hv]
      exact List.mem_append_right _ (List.mem_append_left _ (List.mem_singleton_self _))
    · have hstart := h.start
      rw [hx, hy, any_getLast?_append hword hx1, ← List.append_assoc w,
        any_head?_append hword hy2] at hstart
      exact hstart
    · have hstop := h.stop
      rw [hx, hy, List.append_assoc, any_getLast?_append hword hx1,
        any_head?_append hword hy2] at hstop
      exact hstop
  · rintro ⟨v, hv, x, w, y, h⟩
    obtain ⟨a, d, rfl, ha, hd⟩ := mem_words_split hv
    have hne := (hsolid w h.reads).1
    refine ⟨a ++ x, w, y ++ d, ?_, h.reads, ?_, ?_⟩
    · rw [h.text]
      simp only [List.append_assoc]
    · have hstart := h.start
      rw [any_getLast?_append hword ha, ← List.append_assoc, any_head?_append hword hd]
      exact hstart
    · have hstop := h.stop
      rw [List.append_assoc, any_getLast?_append hword ha, any_head?_append hword hd]
      exact hstop

/-- Only the words of a text matter. -/
theorem Occurs.of_words_eq (hsolid : ∀ w, P w → Solid sep w)
    (hword : ∀ c, sep c = true → word c = false) {t u : List α} (h : words sep t = words sep u)
    (ht : Occurs word P t) : Occurs word P u := by
  rw [occurs_iff_words hsolid hword] at ht ⊢
  rwa [← h]

theorem any_map {f : α → α} {o : Option α} (hf : ∀ c ∈ o, word (f c) = word c) :
    (o.map f).any word = o.any word := by
  cases o with
  | none => rfl
  | some c => exact hf c rfl

/-- A text that is mapped without moving its edges holds what the text holds. -/
theorem OccursAt.map {f : α → α} {t x w y : List α} (hf : ∀ c ∈ t, word (f c) = word c)
    (h : OccursAt word (fun w => P (w.map f)) t x w y) :
    OccursAt word P (t.map f) (x.map f) (w.map f) (y.map f) := by
  obtain ⟨rfl, hreads, hstart, hstop⟩ := h
  refine ⟨by simp only [List.map_append], hreads, ?_, ?_⟩
  · rwa [← List.map_append, List.getLast?_map, List.head?_map,
      any_map fun c hc => hf c (List.mem_append_left _ (List.mem_of_getLast? hc)),
      any_map fun c hc => hf c (List.mem_append_right _ (List.mem_of_head? hc))]
  · rwa [← List.map_append, List.getLast?_map, List.head?_map, any_map fun c hc => hf c (by
        rw [← List.append_assoc]
        exact List.mem_append_left _ (List.mem_of_getLast? hc)),
      any_map fun c hc => hf c (List.mem_append_right _
        (List.mem_append_right _ (List.mem_of_head? hc)))]

/-- An occurrence in a text that is mapped, without moving its edges. -/
theorem Occurs.of_map {f : α → α} {Q : α → Prop} (hf : ∀ c, Q c → word (f c) = word c) {t : List α}
    (ht : ∀ c ∈ t, Q c) (h : Occurs word P (t.map f)) :
    Occurs word (fun w => P (w.map f) ∧ ∀ c ∈ w, Q c) t := by
  obtain ⟨x, w, y, h⟩ := h
  obtain ⟨x, wy, rfl, rfl, hwy⟩ := List.map_eq_append_iff.mp h.text
  obtain ⟨w, y, rfl, rfl, rfl⟩ := List.map_eq_append_iff.mp hwy
  have hany : ∀ {o : Option α}, (∀ c ∈ o, c ∈ x ++ (w ++ y)) →
      (o.map f).any word = o.any word :=
    fun ho => any_map fun c hc => hf c (ht c (ho c hc))
  have hw : ∀ c ∈ w, Q c := fun c hc =>
    ht c (List.mem_append_right _ (List.mem_append_left _ hc))
  refine ⟨x, w, y, rfl, ⟨h.reads, hw⟩, ?_, ?_⟩
  · have hstart := h.start
    rwa [← List.map_append, List.getLast?_map, List.head?_map,
      hany fun c hc => List.mem_append_left _ (List.mem_of_getLast? hc),
      hany fun c hc => List.mem_append_right _ (List.mem_of_head? hc)] at hstart
  · have hstop := h.stop
    rwa [← List.map_append, List.getLast?_map, List.head?_map, hany fun c hc => by
        rw [← List.append_assoc]
        exact List.mem_append_left _ (List.mem_of_getLast? hc),
      hany fun c hc => List.mem_append_right _
        (List.mem_append_right _ (List.mem_of_head? hc))] at hstop

theorem edge_map {f : α → α} {t : List α} (hf : ∀ c ∈ t, word (f c) = word c) (i : Nat) :
    edge word (t.map f) i ↔ edge word t i := by
  rw [edge, edge, ← List.map_take, ← List.map_drop, List.getLast?_map, List.head?_map,
    any_map fun c hc => hf c (List.mem_of_mem_take (List.mem_of_getLast? hc)),
    any_map fun c hc => hf c (List.mem_of_mem_drop (List.mem_of_head? hc))]

theorem spanText_map (f : α → α) (t : List α) (i j : Nat) :
    spanText (t.map f) i j = (spanText t i j).map f := by
  rw [spanText, spanText, List.map_drop, List.map_take]

/-! ### Occurrences that are blanked -/

variable {b : α} {cuts : List (Nat × Nat)} {t : List α}

theorem edge_of_blanked (hb : word b = false)
    (hcuts : ∀ cut ∈ cuts, edge word t cut.1 ∧ edge word t cut.2) {i : Nat} (hi : i ≤ t.length)
    (h : edge word (blanked b cuts t) i) : edge word t i := by
  have hlast : ∀ {u : List α}, u.length = t.length → 0 < i → (u.take i).getLast? = u[i - 1]? := by
    intro u hu hpos
    have h1 : i - 1 < u.length := by omega
    rw [List.getLast?_take, if_neg hpos.ne', List.getElem?_eq_getElem h1, Option.some_or]
  have hhidden : ∀ o : Option α, (o.map fun _ => b).any word = false := by
    intro o
    cases o with
    | none => rfl
    | some c => exact hb
  by_cases hleft : 0 < i ∧ covered cuts (i - 1) = true
  · obtain ⟨hpos, hcovered⟩ := hleft
    cases hright : covered cuts i with
    | false =>
      obtain ⟨cut, hcut, hstart, hend⟩ := covered_iff.mp hcovered
      have hout : ¬ (cut.1 ≤ i ∧ i < cut.2) := fun hin =>
        absurd (covered_iff.mpr ⟨cut, hcut, hin⟩) (by rw [hright]; exact Bool.false_ne_true)
      have heq : cut.2 = i := by omega
      exact heq ▸ (hcuts cut hcut).2
    | true =>
      refine absurd ?_ h
      rw [hlast length_blanked hpos, List.head?_drop, getElem?_covered hcovered,
        getElem?_covered hright, hhidden, hhidden]
  · cases hright : covered cuts i with
    | true =>
      obtain ⟨cut, hcut, hstart, hend⟩ := covered_iff.mp hright
      have heq : cut.1 = i := by
        by_contra hne
        refine hleft ⟨by omega, covered_iff.mpr ⟨cut, hcut, by omega, by omega⟩⟩
      exact heq ▸ (hcuts cut hcut).1
    | false =>
      rw [edge, List.head?_drop, getElem?_uncovered hright] at h
      rw [edge, List.head?_drop]
      rcases Nat.eq_zero_or_pos i with rfl | hpos
      · exact h
      · have hopen : covered cuts (i - 1) = false := by
          rw [← Bool.not_eq_true]
          exact fun hcovered => hleft ⟨hpos, hcovered⟩
        rw [hlast length_blanked hpos, getElem?_uncovered hopen] at h
        rwa [hlast rfl hpos]

/-- Where spans that end at edges cover every occurrence, what is left holds none. -/
theorem not_occurs_blanked (hsolid : ∀ w, P w → Solid sep w) (hb : sep b = true)
    (hword : ∀ c, sep c = true → word c = false)
    (hcuts : ∀ cut ∈ cuts, edge word t cut.1 ∧ edge word t cut.2)
    (hcovers : ∀ x w y, OccursAt word P t x w y → covered cuts x.length = true) :
    ¬ Occurs word P (blanked b cuts t) := by
  rintro ⟨x, w, y, h⟩
  have hlen : t.length = x.length + (w.length + y.length) := by
    have htext := congrArg List.length h.text
    rwa [length_blanked, List.length_append, List.length_append] at htext
  have hw := hsolid w h.reads
  have hopen : ∀ k, x.length ≤ k → k < x.length + w.length → covered cuts k = false := by
    intro k hk hkw
    have hget : (blanked b cuts t)[k]? = w[k - x.length]? := by
      rw [h.text, List.getElem?_append_right hk, List.getElem?_append_left (by omega)]
    rw [← Bool.not_eq_true]
    intro hcovered
    rw [getElem?_covered hcovered, List.getElem?_eq_getElem (by omega)] at hget
    have hmem : b ∈ w := List.mem_of_getElem? hget.symm
    rw [hw.2 b hmem] at hb
    cases hb
  have hspan : spanText t x.length (x.length + w.length) = w := by
    have hsame : spanText t x.length (x.length + w.length) =
        spanText (blanked b cuts t) x.length (x.length + w.length) :=
      spanText_congr fun k hk hkw => (getElem?_uncovered (hopen k hk hkw)).symm
    rw [hsame, h.text, spanText, List.take_length_add_append, List.take_left, List.drop_left]
  have hwb : word b = false := hword b hb
  have hstart : edge word t x.length := by
    refine edge_of_blanked hwb hcuts (by omega) ?_
    rw [edge, h.text, List.take_left, List.drop_left]
    exact h.start
  have hstop : edge word t (x.length + w.length) := by
    refine edge_of_blanked hwb hcuts (by omega) ?_
    rw [edge, h.text, ← List.append_assoc, ← List.length_append, List.take_left, List.drop_left]
    exact h.stop
  have hdrop : t.drop x.length = w ++ t.drop (x.length + w.length) := by
    rw [← spanText_append_drop (Nat.le_add_right x.length w.length), hspan]
  have htake : t.take x.length ++ w = t.take (x.length + w.length) := by
    rw [← take_append_spanText (Nat.le_add_right x.length w.length), hspan]
  have hoccurs : OccursAt word P t (t.take x.length) w (t.drop (x.length + w.length)) := by
    refine ⟨?_, h.reads, hdrop ▸ hstart, htake ▸ hstop⟩
    rw [← hdrop, List.take_append_drop]
  have hcovered := hcovers _ _ _ hoccurs
  rw [List.length_take, Nat.min_eq_left (by omega), hopen _ Nat.le.refl
    (Nat.lt_add_of_pos_right (List.length_pos_iff.mpr hw.1))] at hcovered
  cases hcovered

end

/-! ### Occurrences that a scan finds -/

theorem covered_cons (cut : Nat × Nat) (cuts : List (Nat × Nat)) (i : Nat) :
    covered (cut :: cuts) i = (cut.1 ≤ i && i < cut.2 || covered cuts i) := rfl

/-- A place is inside a match or is passed over. -/
theorem covered_or_gap (segs : List (Segment α)) (i : Nat) {k : Nat}
    (hk : k < (textOf segs).length) : covered (spansFrom i segs) (i + k) = true ∨
      ∃ front c back, segs = front ++ .gap c :: back ∧ (textOf front).length = k := by
  induction segs generalizing i k with
  | nil => cases hk
  | cons seg segs ih =>
    rw [textOf_cons, List.length_append] at hk
    cases seg with
    | gap c =>
      have hlen : (Segment.gap c).text.length = 1 := rfl
      cases k with
      | zero => exact .inr ⟨[], c, segs, rfl, rfl⟩
      | succ k =>
        rcases ih (i + 1) (show k < (textOf segs).length by omega) with
          h | ⟨front, d, back, rfl, hfront⟩
        · rw [Nat.add_assoc, Nat.add_comm 1 k] at h
          exact .inl h
        · refine .inr ⟨.gap c :: front, d, back, rfl, ?_⟩
          rw [textOf_cons, List.length_append, hfront, hlen, Nat.add_comm]
    | found w =>
      have hlen : (Segment.found w).text.length = w.length := rfl
      rw [spansFrom, covered_cons]
      rcases Nat.lt_or_ge k w.length with hin | hout
      · refine .inl ?_
        simp [hin]
      · rcases ih (i + w.length) (show k - w.length < (textOf segs).length by omega) with
          h | ⟨front, d, back, rfl, hfront⟩
        · rw [Nat.add_assoc, Nat.add_sub_cancel' hout] at h
          exact .inl (by rw [h, Bool.or_true])
        · refine .inr ⟨.found w :: front, d, back, rfl, ?_⟩
          rw [textOf_cons, List.length_append, hfront, hlen, Nat.add_sub_cancel' hout]

/-- Where a pattern has a run, the scan finds something. -/
theorem covered_of_runs {p : Pattern α} (heats : p.Eats) {x rest : List α}
    (h : p.runs ⟨x.reverse, rest⟩ ≠ []) : covered (spans p (x ++ rest)) x.length = true := by
  have hpos : 0 < rest.length := by
    obtain ⟨e, he⟩ := List.exists_mem_of_ne_nil _ h
    exact Nat.zero_lt_of_lt (heats _ e he)
  have hlen : x.length < (textOf (segments p (x ++ rest))).length := by
    rw [textOf_segments, List.length_append]
    exact Nat.lt_add_of_pos_right hpos
  rcases covered_or_gap _ 0 hlen with hcovered | ⟨front, c, back, hsegs, hfront⟩
  · rwa [Nat.zero_add] at hcovered
  · have htext := textOf_segments p (x ++ rest)
    rw [hsegs, textOf_append, textOf_cons] at htext
    obtain ⟨hx, hrest⟩ := List.append_inj htext hfront
    have hnone := segments_gap heats hsegs
    rw [hx] at hnone
    exact absurd (hrest ▸ hnone) h

/-! ## Patterns of solid words -/

/-- The pattern reads the same words everywhere, of elements that satisfy `Q`. -/
def Reads (Q : α → Prop) (p : Pattern α) : Prop :=
  ∃ P : List α → Prop, p.Words P ∧ ∀ w, P w → ∀ c ∈ w, Q c

namespace Reads

variable {Q : α → Prop} {p q : Pattern α}

theorem empty : Reads Q (Pattern.empty : Pattern α) := by
  refine ⟨_, .empty, ?_⟩
  rintro w rfl c hc
  cases hc

theorem one {f : α → Bool} (hf : ∀ c, f c = true → Q c) : Reads Q (.one f) := by
  refine ⟨_, .one f, ?_⟩
  rintro w ⟨c, rfl, hc⟩ d hd
  exact List.mem_singleton.mp hd ▸ hf c hc

theorem word [DecidableEq α] {v : List α} (hv : ∀ c ∈ v, Q c) : Reads Q (.word v) := by
  refine ⟨_, .word v, ?_⟩
  rintro w rfl
  exact hv

theorem seq (hp : Reads Q p) (hq : Reads Q q) : Reads Q (p.seq q) := by
  obtain ⟨P, hP, hPQ⟩ := hp
  obtain ⟨R, hR, hRQ⟩ := hq
  refine ⟨_, hP.seq hR, ?_⟩
  rintro w ⟨v, u, rfl, hv, hu⟩ c hc
  exact (List.mem_append.mp hc).elim (hPQ v hv c) (hRQ u hu c)

theorem alt (hp : Reads Q p) (hq : Reads Q q) : Reads Q (p.alt q) := by
  obtain ⟨P, hP, hPQ⟩ := hp
  obtain ⟨R, hR, hRQ⟩ := hq
  exact ⟨_, hP.alt hR, fun w hw => hw.elim (hPQ w) (hRQ w)⟩

theorem opt (hp : Reads Q p) : Reads Q (.opt p) := hp.alt empty

theorem exactly (n : Nat) (hp : Reads Q p) : Reads Q (.exactly n p) := by
  induction n with
  | zero => exact empty
  | succ n ih => exact hp.seq ih

theorem upTo (n : Nat) (hp : Reads Q p) : Reads Q (.upTo n p) := by
  induction n with
  | zero => exact empty
  | succ n ih => exact (hp.seq ih).opt

theorem row {ps : List (Pattern α)} (hps : ∀ p ∈ ps, Reads Q p) : Reads Q (.row ps) := by
  induction ps with
  | nil => exact empty
  | cons p ps ih =>
    exact (hps p List.mem_cons_self).seq (ih fun q hq => hps q (List.mem_cons_of_mem p hq))

/-- A pattern that reads something, and no separator, reads solid words. -/
theorem solid {sep : α → Bool} (hp : Reads (sep · = false) p) (heats : p.Eats) :
    ∃ P : List α → Prop, p.Words P ∧ ∀ w, P w → Solid sep w := by
  obtain ⟨P, hP, hPQ⟩ := hp
  refine ⟨P, hP, fun w hw => ⟨?_, hPQ w hw⟩⟩
  rintro rfl
  exact absurd (heats ⟨[], []⟩ _ ((hP _ _).mpr ⟨[], hw, .refl _⟩)) (Nat.lt_irrefl _)

end Reads

end MainframeRag.Blanking
