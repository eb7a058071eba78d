import MainframeRag.Lib.PyText
import Mathlib.Data.List.DropRight

/-!
# Words

A list cut at its separators, without the empty pieces (`str.split()` for blanks), and the search
for the words of a text one behind the other (`locate`).

Words of two parts are those of the whole where a separator or an end lies between the parts
(`words_append_of_last`, `words_append_of_head`). The search finds every word in its own place
(`cover_locate`): what it covers starts and ends beside a separator or an end of the part.
-/

namespace MainframeRag.Words

section

variable {α : Type} {sep : α → Bool}

def words (sep : α → Bool) (t : List α) : List (List α) := (t.splitOnP sep).filter (!·.isEmpty)

/-- Not empty, and without a separator. -/
def Solid (sep : α → Bool) (w : List α) : Prop := w ≠ [] ∧ ∀ c ∈ w, sep c = false

@[simp] theorem words_nil : words sep [] = [] := rfl

theorem words_append_cons {c : α} (hc : sep c = true) (x y : List α) :
    words sep (x ++ c :: y) = words sep x ++ words sep y := by
  rw [words, List.splitOnP_append_cons x y hc, List.filter_append]
  rfl

theorem words_cons {c : α} (hc : sep c = true) (y : List α) : words sep (c :: y) = words sep y :=
  words_append_cons hc [] y

theorem words_gap {g : List α} (hg : ∀ c ∈ g, sep c = true) (y : List α) :
    words sep (g ++ y) = words sep y := by
  induction g with
  | nil => rfl
  | cons c g ih =>
    rw [List.cons_append, words_cons (hg c List.mem_cons_self),
      ih fun d hd => hg d (List.mem_cons_of_mem _ hd)]

theorem words_solid {w : List α} (hw : Solid sep w) : words sep w = [w] := by
  rw [words, List.splitOnP_eq_singleton hw.2, List.filter_cons_of_pos (by simpa using hw.1)]
  rfl

theorem words_append_of_head (x : List α) {y : List α} (h : ∀ c ∈ y.head?, sep c = true) :
    words sep (x ++ y) = words sep x ++ words sep y := by
  cases y with
  | nil => rw [List.append_nil, words_nil, List.append_nil]
  | cons c y =>
    have hc : sep c = true := h c rfl
    rw [words_append_cons hc, words_cons hc]

theorem words_append_of_last {x : List α} (h : ∀ c ∈ x.getLast?, sep c = true) (y : List α) :
    words sep (x ++ y) = words sep x ++ words sep y := by
  rcases List.eq_nil_or_concat x with rfl | ⟨u, c, rfl⟩
  · rfl
  · have hc : sep c = true := h c (by simp)
    rw [List.concat_eq_append, List.append_assoc, List.singleton_append, words_append_cons hc,
      words_append_of_head u (by simpa using hc), words_cons hc, words_nil, List.append_nil]

theorem sep_of_dropWhile (y : List α) : ∀ c ∈ (y.dropWhile (!sep ·)).head?, sep c = true := by
  intro c hc
  have hne := List.head?_dropWhile_not (!sep ·) y
  rw [Option.mem_def.mp hc] at hne
  simpa using hne

/-- What starts a text belongs to its first word. -/
theorem words_solid_append {w : List α} (hw : Solid sep w) (y : List α) :
    words sep (w ++ y) = (w ++ y.takeWhile (!sep ·)) :: words sep (y.dropWhile (!sep ·)) := by
  have hsolid : Solid sep (w ++ y.takeWhile (!sep ·)) := by
    refine ⟨by simp [hw.1], fun c hc => ?_⟩
    rcases List.mem_append.mp hc with hc | hc
    · exact hw.2 c hc
    · simpa using List.mem_takeWhile_imp hc
  calc words sep (w ++ y)
      = words sep ((w ++ y.takeWhile (!sep ·)) ++ y.dropWhile (!sep ·)) := by
        rw [List.append_assoc, List.takeWhile_append_dropWhile]
    _ = _ := by
        rw [words_append_of_head _ (sep_of_dropWhile y), words_solid hsolid, List.singleton_append]

theorem words_takeWhile (y : List α) :
    words sep y = words sep (y.takeWhile (!sep ·)) ++ words sep (y.dropWhile (!sep ·)) := by
  rw [← words_append_of_head _ (sep_of_dropWhile y), List.takeWhile_append_dropWhile]

/-- A text with a word is a gap, the word and what is left behind it. -/
theorem words_first {t w : List α} {ws : List (List α)} (h : words sep t = w :: ws) :
    ∃ g rest, t = g ++ (w ++ rest) ∧ (∀ c ∈ g, sep c = true) ∧ Solid sep w ∧
      (∀ c ∈ rest.head?, sep c = true) ∧ words sep rest = ws := by
  induction t with
  | nil => cases h
  | cons c t ih =>
    cases hc : sep c with
    | true =>
      rw [words_cons hc] at h
      obtain ⟨g, rest, rfl, hg, hrest⟩ := ih h
      refine ⟨c :: g, rest, rfl, fun d hd => ?_, hrest⟩
      rcases List.mem_cons.mp hd with rfl | hd
      · exact hc
      · exact hg d hd
    | false =>
      have hsolid : Solid sep [c] := ⟨by simp, by simpa using hc⟩
      rw [← List.singleton_append, words_solid_append hsolid] at h
      obtain ⟨rfl, rfl⟩ := List.cons.inj h
      refine ⟨[], t.dropWhile (!sep ·), ?_, by simp, ⟨by simp, fun d hd => ?_⟩, sep_of_dropWhile t,
        rfl⟩
      · simp [List.takeWhile_append_dropWhile]
      · rcases List.mem_cons.mp hd with rfl | hd
        · exact hc
        · simpa using List.mem_takeWhile_imp hd

theorem solid_of_mem {t w : List α} (h : w ∈ words sep t) : Solid sep w := by
  generalize hws : words sep t = ws at h
  induction ws generalizing t with
  | nil => cases h
  | cons v ws ih =>
    obtain ⟨g, rest, -, -, hv, -, hrest⟩ := words_first hws
    rcases List.mem_cons.mp h with rfl | h
    · exact hv
    · exact ih hrest h

theorem mem_of_mem_words {t w : List α} (h : w ∈ words sep t) {d : α} (hd : d ∈ w) : d ∈ t := by
  generalize hws : words sep t = ws at h
  induction ws generalizing t with
  | nil => cases h
  | cons v ws ih =>
    obtain ⟨g, rest, rfl, -, -, -, hrest⟩ := words_first hws
    rcases List.mem_cons.mp h with rfl | h
    · simp [hd]
    · simp [ih hrest h]

/-- The word around an element, between the words of what stands before and behind it. -/
theorem words_around {c : α} (hc : sep c = false) (x y : List α) : ∃ front w back,
    words sep (x ++ c :: y) = front ++ w :: back ∧ c ∈ w ∧ (∀ v ∈ front, ∀ d ∈ v, d ∈ x) ∧
      ∀ v ∈ back, ∀ d ∈ v, d ∈ y := by
  have hcut : x.rdropWhile (!sep ·) ++ x.rtakeWhile (!sep ·) = x := List.rdropWhile_append_rtakeWhile
  have hlast : ∀ d ∈ (x.rdropWhile (!sep ·)).getLast?, sep d = true := by
    intro d hd
    by_cases hnil : x.rdropWhile (!sep ·) = []
    · rw [hnil] at hd
      cases hd
    · have hnot := List.rdropWhile_last_not (!sep ·) x hnil
      rw [List.getLast?_eq_some_getLast hnil] at hd
      cases hd
      simpa using hnot
  have hsolid : Solid sep (x.rtakeWhile (!sep ·) ++ [c]) := by
    refine ⟨by simp, fun d hd => ?_⟩
    rcases List.mem_append.mp hd with hd | hd
    · simpa using List.mem_rtakeWhile_imp hd
    · rw [List.mem_singleton.mp hd, hc]
  refine ⟨words sep (x.rdropWhile (!sep ·)), x.rtakeWhile (!sep ·) ++ [c] ++ y.takeWhile (!sep ·),
    words sep (y.dropWhile (!sep ·)), ?_, by simp, fun v hv d hd => ?_, fun v hv d hd => ?_⟩
  · conv_lhs => rw [← hcut]
    rw [← words_solid_append hsolid, List.append_assoc, words_append_of_last hlast, List.append_assoc,
      List.singleton_append]
  · rw [← hcut]
    exact List.mem_append_left _ (mem_of_mem_words hv hd)
  · exact (List.dropWhile_sublist _).subset (mem_of_mem_words hv hd)

/-- The words of texts joined by a separator are the words of each. -/
theorem words_intercalate {c : α} (hc : sep c = true) (ts : List (List α)) :
    words sep (List.intercalate [c] ts) = ts.flatMap (words sep) := by
  induction ts with
  | nil => rfl
  | cons t ts ih =>
    cases ts with
    | nil => simp
    | cons u ts =>
      rw [List.intercalate_cons_cons, List.append_assoc, List.singleton_append,
        words_append_cons hc, ih]
      rfl

theorem flatMap_words {ws : List (List α)} (h : ∀ w ∈ ws, Solid sep w) :
    ws.flatMap (words sep) = ws := by
  rw [List.flatMap_congr fun w hw => words_solid (h w hw)]
  exact List.flatMap_singleton' ws

theorem words_eq_nil {t : List α} : words sep t = [] ↔ ∀ c ∈ t, sep c = true := by
  constructor
  · intro h
    induction t with
    | nil => simp
    | cons c t ih =>
      cases hc : sep c with
      | true =>
        rw [words_cons hc] at h
        intro d hd
        rcases List.mem_cons.mp hd with rfl | hd
        · exact hc
        · exact ih h d hd
      | false =>
        have hsolid : Solid sep [c] := ⟨by simp, by simpa using hc⟩
        rw [← List.singleton_append, words_solid_append hsolid] at h
        cases h
  · intro h
    rw [← List.append_nil t, words_gap h, words_nil]

end

/-! ## Places -/

section

open PyText

/-- Where the words stand, each searched behind the one before; `none` if one is not found. -/
def locate (t : Text) : Nat → List Text → Option (List (Nat × Nat))
  | _, [] => some []
  | off, w :: ws => (find t w off).bind fun i =>
    (locate t (i + w.length) ws).map ((i, i + w.length) :: ·)

/-- From the start of one place to the end of another. -/
def cover (places : List (Nat × Nat)) (span : Nat × Nat) : Option (Nat × Nat) :=
  places[span.1]?.bind fun first => places[span.2 - 1]?.map fun last => (first.1, last.2)

theorem findAt_gap {sep : Char → Bool} {g w : Text} (hg : ∀ c ∈ g, sep c = true) (hw : Solid sep w)
    (rest : Text) (i : Nat) : findAt w (g ++ (w ++ rest)) i = some (i + g.length) := by
  induction g generalizing i with
  | nil =>
    obtain ⟨c, u, rfl⟩ := List.exists_cons_of_ne_nil hw.1
    rw [List.nil_append, List.cons_append, findAt, if_pos]
    · rfl
    · exact List.isPrefixOf_iff_prefix.mpr (List.prefix_append (c :: u) rest)
  | cons c g ih =>
    obtain ⟨d, u, rfl⟩ := List.exists_cons_of_ne_nil hw.1
    have hcd : d ≠ c := by
      rintro rfl
      have hd := hw.2 d List.mem_cons_self
      rw [hg d List.mem_cons_self] at hd
      cases hd
    rw [List.cons_append, findAt, if_neg (by simp [hcd]),
      ih (fun e he => hg e (List.mem_cons_of_mem _ he)), List.length_cons]
    congr 1
    omega

/-- Places inside a part of a text that starts at `off`, each in front of the next, that start and
end beside a separator or an end of the part. -/
structure Apart (sep : Char → Bool) (part : Text) (off : Nat) (places : List (Nat × Nat)) : Prop where
  behind : ∀ p ∈ places, off ≤ p.1
  proper : ∀ p ∈ places, p.1 < p.2
  inside : ∀ p ∈ places, p.2 ≤ off + part.length
  start : ∀ p ∈ places, ∀ c ∈ (part.take (p.1 - off)).getLast?, sep c = true
  stop : ∀ p ∈ places, ∀ c ∈ (part.drop (p.2 - off)).head?, sep c = true
  ordered : places.Pairwise fun p q => p.2 ≤ q.1

theorem apart_nil (sep : Char → Bool) (part : Text) (off : Nat) : Apart sep part off [] where
  behind := by simp
  proper := by simp
  inside := by simp
  start := by simp
  stop := by simp
  ordered := .nil

/-- The word in front, and the places in what is left behind it. -/
theorem Apart.cons {sep : Char → Bool} {g w rest : Text} {off : Nat} {places : List (Nat × Nat)}
    (hg : ∀ c ∈ g, sep c = true) (hw : Solid sep w) (hrest : ∀ c ∈ rest.head?, sep c = true)
    (h : Apart sep rest (off + g.length + w.length) places)
    (hlater : ∀ p ∈ places, off + g.length + w.length < p.1) :
    Apart sep (g ++ (w ++ rest)) off
      ((off + g.length, off + g.length + w.length) :: places) := by
  have hpos := List.length_pos_iff.mpr hw.1
  have hsplit : ∀ k, g.length + w.length ≤ k →
      (g ++ (w ++ rest)).take k = g ++ w ++ rest.take (k - (g.length + w.length)) ∧
        (g ++ (w ++ rest)).drop k = rest.drop (k - (g.length + w.length)) := by
    intro k hk
    rw [← List.append_assoc, List.take_append, List.drop_append, List.length_append,
      List.take_of_length_le (by simpa using hk), List.drop_of_length_le (by simpa using hk),
      List.nil_append]
    exact ⟨rfl, rfl⟩
  constructor
  case behind =>
    intro p hp
    rcases List.mem_cons.mp hp with rfl | hp
    · exact Nat.le_add_right _ _
    · have := h.behind p hp
      omega
  case proper =>
    intro p hp
    rcases List.mem_cons.mp hp with rfl | hp
    · exact Nat.lt_add_of_pos_right hpos
    · exact h.proper p hp
  case inside =>
    intro p hp
    simp only [List.length_append]
    rcases List.mem_cons.mp hp with rfl | hp
    · dsimp only
      omega
    · have := h.inside p hp
      omega
  case start =>
    intro p hp c hc
    rcases List.mem_cons.mp hp with rfl | hp
    · rw [show off + g.length - off = g.length by omega, List.take_left] at hc
      exact hg c (List.mem_of_getLast? hc)
    · have hlt := hlater p hp
      have hle := h.proper p hp
      have hin := h.inside p hp
      rw [(hsplit (p.1 - off) (by omega)).1] at hc
      refine h.start p hp c ?_
      have hne : rest.take (p.1 - off - (g.length + w.length)) ≠ [] := by
        rw [← List.length_pos_iff, List.length_take]
        omega
      rw [List.getLast?_append_of_ne_nil _ hne] at hc
      rwa [show p.1 - (off + g.length + w.length) = p.1 - off - (g.length + w.length) by omega]
  case stop =>
    intro p hp c hc
    rcases List.mem_cons.mp hp with rfl | hp
    · rw [(hsplit _ (by dsimp only; omega)).2] at hc
      dsimp only at hc
      rw [show off + g.length + w.length - off - (g.length + w.length) = 0 by omega,
        List.drop_zero] at hc
      exact hrest c hc
    · have hb := h.behind p hp
      have hlt := h.proper p hp
      rw [(hsplit (p.2 - off) (by omega)).2] at hc
      refine h.stop p hp c ?_
      rwa [show p.2 - (off + g.length + w.length) = p.2 - off - (g.length + w.length) by omega]
  case ordered =>
    refine List.pairwise_cons.mpr ⟨fun p hp => ?_, h.ordered⟩
    exact h.behind p hp

/-- The words of a part are found in their places. -/
theorem locate_words (sep : Char → Bool) (before part after : Text) : ∃ places,
    locate (before ++ (part ++ after)) before.length (words sep part) = some places ∧
      places.length = (words sep part).length ∧ Apart sep part before.length places ∧
      ((∀ c ∈ part.head?, sep c = true) → ∀ p ∈ places, before.length < p.1) := by
  generalize hws : words sep part = ws
  induction ws generalizing before part with
  | nil => exact ⟨[], rfl, rfl, apart_nil sep part _, by simp⟩
  | cons w ws ih =>
    obtain ⟨g, rest, rfl, hg, hw, hrest, hrestws⟩ := words_first hws
    obtain ⟨places, hlocate, hlength, hapart, hlater⟩ := ih (before ++ g ++ w) rest hrestws
    have htext : before ++ g ++ w ++ (rest ++ after) = before ++ (g ++ (w ++ rest) ++ after) := by
      simp only [List.append_assoc]
    have hlen : (before ++ g ++ w).length = before.length + g.length + w.length := by
      simp only [List.length_append]
    rw [hlen] at hapart
    rw [htext, hlen] at hlocate
    have hfind : find (before ++ (g ++ (w ++ rest) ++ after)) w before.length =
        some (before.length + g.length) := by
      rw [find, if_pos (by simp), List.drop_left, List.append_assoc, List.append_assoc]
      exact findAt_gap hg hw (rest ++ after) before.length
    refine ⟨(before.length + g.length, before.length + g.length + w.length) :: places, ?_, ?_, ?_, ?_⟩
    · rw [locate, hfind, Option.bind_some, hlocate, Option.map_some]
    · rw [List.length_cons, List.length_cons, hlength]
    · exact Apart.cons hg hw hrest hapart fun p hp => hlen ▸ hlater hrest p hp
    · intro hhead p hp
      have hgap : 0 < g.length := by
        rw [List.length_pos_iff]
        rintro rfl
        obtain ⟨c, u, rfl⟩ := List.exists_cons_of_ne_nil hw.1
        have hc : sep c = true := hhead c (by simp)
        rw [hw.2 c List.mem_cons_self] at hc
        cases hc
      rcases List.mem_cons.mp hp with rfl | hp
      · dsimp only
        omega
      · have := hlater hrest p hp
        omega

/-- What some of the places cover. -/
theorem Apart.cover {sep : Char → Bool} {part : Text} {off : Nat} {places : List (Nat × Nat)}
    (h : Apart sep part off places) {span : Nat × Nat} (hlt : span.1 < span.2)
    (hle : span.2 ≤ places.length) : ∃ s e, cover places span = some (s, e) ∧
      off ≤ s ∧ s < e ∧ e ≤ off + part.length ∧
      (∀ c ∈ (part.take (s - off)).getLast?, sep c = true) ∧
      (∀ c ∈ (part.drop (e - off)).head?, sep c = true) := by
  have hi : span.1 < places.length := by omega
  have hj : span.2 - 1 < places.length := by omega
  have hfirst := List.getElem_mem hi
  have hlast := List.getElem_mem hj
  refine ⟨(places[span.1]).1, (places[span.2 - 1]).2, ?_, h.behind _ hfirst, ?_, h.inside _ hlast,
    h.start _ hfirst, h.stop _ hlast⟩
  · rw [Words.cover, List.getElem?_eq_getElem hi, Option.bind_some, List.getElem?_eq_getElem hj,
      Option.map_some]
  · rcases Nat.lt_or_ge span.1 (span.2 - 1) with hij | hij
    · have hord := List.pairwise_iff_getElem.mp h.ordered _ _ hi hj hij
      have := h.proper _ hfirst
      have := h.proper _ hlast
      omega
    · have heq : span.1 = span.2 - 1 := by omega
      have hproper := h.proper _ hlast
      simp only [heq]
      exact hproper

end

end MainframeRag.Words
