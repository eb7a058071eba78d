import MainframeRag.Retrieve.SplitLegs

/-!
# The spelling of a comparison marker

Between blanks `versus` and `vs` are cut out whole, and the legs are those of the two sides
(`comparativePaths_between`). Of `vs.` the pattern takes the two letters: no word edge follows the
dot. It stays, as the first word of the right side, and is no entity, so the query is never split
(`comparativePaths_dot`). The three spellings agree exactly where the other two do not split either
(`spelling_agrees_iff`).
-/

namespace MainframeRag.Retrieve.Split

open PyText Regex Regex.Pattern Words
open Ingest.Chunking (ciChar)
open Agent (lit wordCi wordEdge)
open Screen (CharData screenQuery)

/-! ## The pattern -/

section

variable {U : CharTables}

theorem wordCi_words (w : String) : (wordCi w).Words (Spells w.toList) := by
  unfold wordCi
  generalize w.toList = l
  induction l with
  | nil =>
    refine Words.empty.congr fun t => ?_
    exact ⟨fun h => h ▸ .nil, fun h => List.forall₂_nil_left_iff.mp h⟩
  | cons c l ih =>
    refine ((Words.one (ciChar c)).seq ih).congr fun t => ?_
    constructor
    · rintro ⟨_, u, rfl, ⟨d, rfl, hd⟩, hu⟩
      exact .cons hd hu
    · intro h
      cases h with
      | cons hd hu => exact ⟨[_], _, rfl, ⟨_, rfl, hd⟩, hu⟩

theorem mem_runs_wholeWord {p : Pattern Char} {pl e : Place Char} :
    e ∈ (wholeWord U p).runs pl ↔ edgeHere U pl ∧ e ∈ p.runs pl ∧ edgeHere U e := by
  refine ⟨runs_wholeWord, fun ⟨hstart, hp, hstop⟩ => ?_⟩
  have hedge : ∀ {pl : Place Char}, edgeHere U pl → pl ∈ (wordEdge U).runs pl := fun {pl} h => by
    have hne : pl.before.head?.any U.isWord ≠ pl.rest.head?.any U.isWord := h
    rw [wordEdge, Pattern.runs, if_pos (decide_eq_true hne)]
    exact List.mem_singleton_self pl
  exact mem_runs_seq.mpr ⟨pl, hedge hstart, mem_runs_seq.mpr ⟨e, hp,
    mem_runs_seq.mpr ⟨e, hedge hstop, List.mem_singleton_self e⟩⟩⟩

/-- `versus`, or `vs` with or without a dot. -/
def IsVersus (w : Text) : Prop :=
  Spells "versus".toList w ∨ ∃ v d, w = v ++ d ∧ Spells "vs".toList v ∧ (d = [] ∨ d = ['.'])

theorem mem_runs_versusRe {pl e : Place Char} : e ∈ (versusRe U).runs pl ↔
    edgeHere U pl ∧ edgeHere U e ∧ ∃ w, IsVersus w ∧ Along pl w e := by
  have hlong := wordCi_words "versus" pl e
  have hshort := ((wordCi_words "vs").seq (Words.word ['.']).opt) pl e
  have hruns : e ∈ (versusRe U).runs pl ↔ e ∈ (wholeWord U (wordCi "versus")).runs pl ∨
      e ∈ (wholeWord U (seq (wordCi "vs") (opt (lit ".")))).runs pl := List.mem_append
  rw [hruns, mem_runs_wholeWord, mem_runs_wholeWord, hlong]
  constructor
  · rintro (⟨hstart, ⟨w, hw, ha⟩, hstop⟩ | ⟨hstart, hp, hstop⟩)
    · exact ⟨hstart, hstop, w, .inl hw, ha⟩
    · obtain ⟨w, ⟨v, d, hvd, hv, hd⟩, ha⟩ := hshort.mp hp
      exact ⟨hstart, hstop, w, .inr ⟨v, d, hvd, hv, hd⟩, ha⟩
  · rintro ⟨hstart, hstop, w, hw | ⟨v, d, hvd, hv, hd⟩, ha⟩
    · exact .inl ⟨hstart, ⟨w, hw, ha⟩, hstop⟩
    · exact .inr ⟨hstart, hshort.mpr ⟨w, ⟨v, d, hvd, hv, hd⟩, ha⟩, hstop⟩

theorem IsVersus.solid {w : Text} (h : IsVersus w) : Solid isSpace w := by
  rcases h with h | ⟨v, d, rfl, hv, rfl | rfl⟩
  · exact h.solid (by decide)
  · rw [List.append_nil]
    exact hv.solid (by decide)
  · exact Spells.solid (w := "vs.".toList) (by decide) (List.rel_append hv (.cons (by decide) .nil))

theorem versusRe_eats : (versusRe U).Eats := by
  intro pl e he
  obtain ⟨-, -, w, hw, ha⟩ := mem_runs_versusRe.mp he
  rw [ha.rest, List.length_append]
  exact Nat.lt_add_of_pos_left (List.length_pos_iff.mpr hw.solid.1)

/-- In a text that ends with a blank, nothing that follows makes a marker. -/
theorem quiet_append {l : Text} (hl : ∃ c, l.getLast? = some c ∧ isSpace c = true)
    (hquiet : search (versusRe U) l = false) (rest a : Text) (c : Char) (b : Text)
    (hsplit : l = a ++ c :: b) : (versusRe U).runs ⟨a.reverse, c :: (b ++ rest)⟩ = [] := by
  refine List.eq_nil_iff_forall_not_mem.mpr fun e he => ?_
  obtain ⟨hstart, hstop, w, hw, ha⟩ := mem_runs_versusRe.mp he
  have hrest : (c :: b) ++ rest = w ++ e.rest := ha.rest
  obtain ⟨s, hs, hblank⟩ := hl
  have hlast : s ∈ (c :: b).getLast? := by
    rw [hsplit, List.getLast?_append_of_ne_nil _ (List.cons_ne_nil c b)] at hs
    exact hs
  -- the marker is solid, so it ends before the last blank
  obtain ⟨x, hx, hxrest⟩ : ∃ x, c :: b = w ++ x ∧ e.rest = x ++ rest := by
    rcases List.append_eq_append_iff.mp hrest with ⟨u, hu, -⟩ | ⟨u, hu, hrest⟩
    · have hmem : s ∈ w := hu ▸ List.mem_append_left u (List.mem_of_getLast? hlast)
      have := hw.solid.2 s hmem
      rw [hblank] at this
      cases this
    · exact ⟨u, hu, hrest⟩
  have hxne : x ≠ [] := by
    rintro rfl
    rw [List.append_nil] at hx
    have := hw.solid.2 s (hx ▸ List.mem_of_getLast? hlast)
    rw [hblank] at this
    cases this
  obtain ⟨d, x, rfl⟩ := List.exists_cons_of_ne_nil hxne
  have hnone := search_false versusRe_eats hquiet
    (show l = a ++ w ++ d :: x by rw [hsplit, hx, List.append_assoc]) hw.solid.1
  have hin : (⟨w.reverse ++ a.reverse, d :: x⟩ : Place Char) ∈
      (versusRe U).runs ⟨a.reverse, w ++ d :: x⟩ := by
    refine mem_runs_versusRe.mpr ⟨?_, ?_, w, hw, rfl, rfl⟩
    · rw [← hx]
      exact hstart
    · rw [ha.target, hxrest] at hstop
      exact hstop
  rw [hnone] at hin
  cases hin

theorem matchAt_unique {α : Type} {p : Pattern α} {pl e : Place α} (he : e ∈ p.runs pl)
    (hunique : ∀ e' ∈ p.runs pl, e' = e) : p.matchAt pl = some e := by
  obtain ⟨e', more, hruns⟩ := List.exists_cons_of_ne_nil (List.ne_nil_of_mem he)
  rw [Pattern.matchAt, hruns, List.head?_cons, hunique e' (hruns ▸ List.mem_cons_self)]

/-! ## The marker between blanks -/

variable (U) in
/-- The tables tell the letters of a marker from blanks and the dot, and leave its words as they
are. -/
structure ReadsMarkers : Prop where
  blank : ∀ c, isSpace c = true → U.isWord c = false
  dot : U.isWord '.' = false
  letters : ∀ c ∈ "versus".toList, U.isWord c = true
  words : ∀ w ∈ ["versus".toList, "vs".toList], U.lower w = w

/-- The spellings of a marker. -/
def spellings : List Text := ["versus", "vs", "vs."].map String.toList

/-- What the pattern reads at `w`, where `rest` follows. -/
theorem matchAt_marker {before w rest : Text} (hw : IsVersus w)
    (hstart : edgeHere U ⟨before, w ++ rest⟩) (hstop : edgeHere U ⟨w.reverse ++ before, rest⟩)
    (hunique : ∀ v r, IsVersus v → w ++ rest = v ++ r →
      edgeHere U ⟨v.reverse ++ before, r⟩ → v = w) :
    (versusRe U).matchAt ⟨before, w ++ rest⟩ = some ⟨w.reverse ++ before, rest⟩ := by
  refine matchAt_unique (mem_runs_versusRe.mpr ⟨hstart, hstop, w, hw, rfl, rfl⟩) fun e he => ?_
  obtain ⟨-, hedge, v, hv, ha⟩ := mem_runs_versusRe.mp he
  have hrest : w ++ rest = v ++ e.rest := ha.rest
  rw [ha.target] at hedge ⊢
  obtain rfl := hunique v e.rest hv hrest hedge
  rw [← List.append_cancel_left hrest]

/-- The text begins with no word character, as a blank or a dot. -/
def Breaks (U : CharTables) (rest : Text) : Prop := ∃ c t, rest = c :: t ∧ U.isWord c = false

/-- A text that spells `vs` has two letters. -/
theorem spells_vs {v : Text} (h : Spells "vs".toList v) : ∃ a b, v = [a, b] ∧
    ciChar 's' b = true := by
  have hvs : "vs".toList = ['v', 's'] := by decide
  rw [hvs] at h
  obtain ⟨a, t, -, ht, rfl⟩ := List.forall₂_cons_left_iff.mp h
  obtain ⟨b, u, hb, hu, rfl⟩ := List.forall₂_cons_left_iff.mp ht
  obtain rfl := List.forall₂_nil_left_iff.mp hu
  exact ⟨a, b, rfl, hb⟩

theorem spells_versus {v : Text} (h : Spells "versus".toList v) : ∃ a b t, v = a :: b :: t ∧
    ciChar 'e' b = true := by
  have hversus : "versus".toList = 'v' :: 'e' :: "rsus".toList := by decide
  rw [hversus] at h
  obtain ⟨a, t, -, ht, rfl⟩ := List.forall₂_cons_left_iff.mp h
  obtain ⟨b, u, hb, -, rfl⟩ := List.forall₂_cons_left_iff.mp ht
  exact ⟨a, b, u, rfl, hb⟩

theorem isVersus_short {rest v r : Text} (h : IsVersus v) (hv : "vs".toList ++ rest = v ++ r) :
    v = "vs".toList ∨ v = "vs.".toList ∧ rest = '.' :: r := by
  have hvs : "vs".toList = ['v', 's'] := by decide
  rw [hvs, List.cons_append, List.cons_append, List.nil_append] at hv
  rcases h with h | ⟨v, d, rfl, h, hd⟩
  · obtain ⟨a, b, t, rfl, hb⟩ := spells_versus h
    simp only [List.cons_append, List.cons.injEq] at hv
    exact absurd (hv.2.1 ▸ hb) (by decide)
  · obtain ⟨a, b, rfl, -⟩ := spells_vs h
    simp only [List.cons_append, List.nil_append, List.cons.injEq] at hv
    obtain ⟨rfl, rfl, hv⟩ := hv
    rcases hd with rfl | rfl
    · exact .inl (by decide)
    · exact .inr ⟨by decide, hv⟩

theorem isVersus_long {rest v r : Text} (h : IsVersus v) (hv : "versus".toList ++ rest = v ++ r) :
    v = "versus".toList := by
  rcases h with h | ⟨v, d, rfl, h, hd⟩
  · exact (List.append_inj_left hv h.length_eq).symm
  · obtain ⟨a, b, rfl, hb⟩ := spells_vs h
    have hversus : "versus".toList = 'v' :: 'e' :: "rsus".toList := by decide
    rw [hversus] at hv
    simp only [List.cons_append, List.cons.injEq] at hv
    exact absurd (hv.2.1 ▸ hb) (by decide)

theorem edgeHere_start (hU : ReadsMarkers U) {before rest : Text} {c : Char}
    (hbefore : ∀ c ∈ before.head?, isSpace c = true) (hc : c ∈ "versus".toList) :
    edgeHere U ⟨before, c :: rest⟩ := by
  have hfalse : before.head?.any U.isWord = false := by
    cases before with
    | nil => rfl
    | cons d before => exact hU.blank d (hbefore d rfl)
  rw [edgeHere, hfalse, List.head?_cons, Option.any_some, hU.letters c hc]
  exact Bool.false_ne_true

theorem edgeHere_stop (hU : ReadsMarkers U) {before rest : Text} {c : Char}
    (hc : c ∈ "versus".toList) (hrest : Breaks U rest) : edgeHere U ⟨c :: before, rest⟩ := by
  obtain ⟨d, t, rfl, hd⟩ := hrest
  rw [edgeHere, List.head?_cons, List.head?_cons, Option.any_some, Option.any_some,
    hU.letters c hc, hd]
  exact Bool.noConfusion

/-- The whole word is read. -/
theorem matchAt_versus (hU : ReadsMarkers U) {before rest w : Text}
    (hbefore : ∀ c ∈ before.head?, isSpace c = true) (hrest : Breaks U rest)
    (hw : w = "versus".toList ∨ w = "vs".toList ∧ ∀ t, rest = '.' :: t → Breaks U t) :
    (versusRe U).matchAt ⟨before, w ++ rest⟩ = some ⟨w.reverse ++ before, rest⟩ := by
  rcases hw with rfl | ⟨rfl, hdot⟩
  · refine matchAt_marker (.inl (by decide)) (edgeHere_start hU hbefore (by decide))
      (edgeHere_stop hU (by decide) hrest) fun v r hv hvr _ => isVersus_long hv hvr
  · refine matchAt_marker (.inr ⟨_, [], (List.append_nil _).symm, by decide, .inl rfl⟩)
      (edgeHere_start hU hbefore (by decide)) (edgeHere_stop hU (by decide) hrest)
      fun v r hv hvr hedge => ?_
    rcases isVersus_short hv hvr with h | ⟨rfl, hr⟩
    · exact h
    · -- behind the dot there is no word edge
      obtain ⟨d, t, rfl, hd⟩ := hdot r hr
      refine absurd ?_ hedge
      have hlast : ("vs.".toList.reverse ++ before).head? = some '.' := rfl
      rw [hlast, List.head?_cons, Option.any_some, Option.any_some, hU.dot, hd]

end

/-! ## The legs of two sides -/

section

variable (U : CharTables)

/-- The words of the parts, without glue at the ends. -/
def cleaned (parts : List Text) : Text :=
  let text := splitText (joinWords (splitText (joinWords parts)))
  joinWords (cleanEdge U (cleanEdge U text .left) .right)

/-- Each leg is one side, and the other without its entity. -/
def sideSubs (l r : Text) : Option Span → Option Span → Option (Option (Text × Text))
  | some leftEnt, some rightEnt =>
    (locate l 0 (splitText l)).bind fun lSpans => (locate r 0 (splitText r)).bind fun rSpans =>
    (cover lSpans leftEnt).bind fun le => (cover rSpans rightEnt).map fun re =>
      legs U (cleaned U [l, r.take re.1, r.drop re.2]) (cleaned U [l.take le.1, l.drop le.2, r])
  | _, _ => some none

/-- The legs of two sides with words. -/
def aroundLegs (l r : Text) : Option (Option (Text × Text)) :=
  if splitText r = [] then some none
  else
    (entitySpan U (splitText l) .left).bind fun leftEnt =>
    (entitySpan U (splitText r) .right).bind fun rightEnt =>
    (mirroredContextSpans U (splitText l) (splitText r) leftEnt rightEnt).bind fun
      | some mirrored => sideSubs U l r (some mirrored.1) (some mirrored.2)
      | none => sideSubs U l r leftEnt rightEnt

/-- The legs of what stands behind a leading marker. -/
def behindLegs (r : Text) : Option (Option (Text × Text)) :=
  (findLead U r [',', ':']).bind fun
    | none => some none
    | some lead =>
      (locate r 0 (splitText lead.head)).bind fun hSpans =>
      (find r lead.tail 0).bind fun tailAt =>
      (locate lead.tail 0 (splitText lead.tail)).bind fun tSpans =>
      (cover hSpans lead.ent1).bind fun h => (cover tSpans lead.ent2).map fun t =>
        let rest := r.take h.1 ++ spanText r h.2 (tailAt + t.1) ++ r.drop (tailAt + t.2)
        let shared := joinWords (cleanEdge U (cleanEdge U (splitText rest) .left) .right)
        legs U (leadLeg U (spanText r h.1 h.2) shared)
          (leadLeg U (spanText r (tailAt + t.1) (tailAt + t.2)) shared)

/-- The legs of what stands before a marker and behind it. -/
def sideLegs (l r : Text) : Option (Option (Text × Text)) :=
  if splitText l = [] then behindLegs U r else aroundLegs U l r

end

/-! ### Around a marker -/

section

variable {U : CharTables}

/-- Where a marker stands between two sides. -/
def between (l w : Text) : Span := (l.length, l.length + w.length)

theorem take_between (l w r : Text) : (l ++ (w ++ r)).take (between l w).1 = l := List.take_left

theorem drop_between (l w r : Text) : (l ++ (w ++ r)).drop (between l w).2 = r := by
  rw [between, ← List.drop_drop, List.drop_left, List.drop_left]

theorem dropSpans_behind {l w r : Text} (hw : w ≠ []) (re : Span) :
    dropSpans U (l ++ (w ++ r)) (between l w)
      [((between l w).2 + re.1, (between l w).2 + re.2)] =
      cleaned U [l, r.take re.1, r.drop re.2] := by
  have hpos : 0 < w.length := List.length_pos_iff.mpr hw
  have hlt : (between l w).1 < (between l w).2 + re.1 := by
    simp only [between]
    omega
  have hmiddle : spanText (l ++ (w ++ r)) (between l w).2 ((between l w).2 + re.1) =
      r.take re.1 := by
    rw [← Nat.add_zero (between l w).2, Nat.add_assoc, Nat.zero_add, ← spanText_drop, drop_between]
    rfl
  have hend : (l ++ (w ++ r)).drop ((between l w).2 + re.2) = r.drop re.2 := by
    rw [← List.drop_drop, drop_between]
  have hfront : spanText (l ++ (w ++ r)) 0 (between l w).1 = l := take_between l w r
  rw [dropSpans, (sorted_pair (s := ((between l w).2 + re.1, (between l w).2 + re.2)) hlt).1, pieces,
    pieces, pieces, hfront, hmiddle, hend]
  rfl

theorem dropSpans_before {l w r : Text} (le : Span) (hlt : le.1 < le.2) (hin : le.2 ≤ l.length) :
    dropSpans U (l ++ (w ++ r)) (between l w) [le] =
      cleaned U [l.take le.1, l.drop le.2, r] := by
  have hfront : spanText (l ++ (w ++ r)) 0 le.1 = l.take le.1 :=
    List.take_append_of_le_length (hlt.le.trans hin)
  have hmiddle : spanText (l ++ (w ++ r)) le.2 (between l w).1 = l.drop le.2 := by
    rw [spanText, take_between]
  have hlt : le.1 < (between l w).1 := Nat.lt_of_lt_of_le hlt hin
  rw [dropSpans, (sorted_pair hlt).2, pieces, pieces, pieces, hfront, hmiddle, drop_between]
  rfl

theorem buildRemovalSubs_between {l w r : Text} (hw : w ≠ []) {leftEnt rightEnt : Option Span}
    (hl : ∀ s ∈ leftEnt, s.1 < s.2 ∧ s.2 ≤ (splitText l).length) :
    buildRemovalSubs U (l ++ (w ++ r)) (between l w) leftEnt rightEnt =
      sideSubs U l r leftEnt rightEnt := by
  cases leftEnt with
  | none => rfl
  | some left =>
    cases rightEnt with
    | none => rfl
    | some right =>
      obtain ⟨hl1, hl2⟩ := hl left rfl
      obtain ⟨lPlaces, ls, le, hlLocate, hlCover, hlLt, hlIn, -, -⟩ := locate_cover [] hl1 hl2
      rw [List.append_nil] at hlLocate
      simp only [buildRemovalSubs, sideSubs, take_between, drop_between, hlLocate, Option.bind_some,
        hlCover, dropSpans_behind hw, dropSpans_before (ls, le) hlLt hlIn]

theorem splitOnMarker_between {l w r : Text} (hw : w ≠ []) (hl : splitText l ≠ []) :
    splitOnMarker U (l ++ (w ++ r)) (between l w) = aroundLegs U l r := by
  unfold splitOnMarker aroundLegs
  dsimp only
  rw [take_between, drop_between]
  by_cases hr : splitText r = []
  · rw [if_pos (.inr hr), if_pos hr]
  · obtain ⟨leftEnt, hleft, hlspan⟩ := entitySpan_within (U := U) (splitText l) .left
    obtain ⟨rightEnt, hright, hrspan⟩ := entitySpan_within (U := U) (splitText r) .right
    obtain ⟨mirrored, hmirrored, hboth⟩ := mirroredContextSpans_within (U := U) hlspan hrspan
    rw [if_neg (not_or.mpr ⟨hl, hr⟩), if_neg hr, hleft, Option.bind_some, Option.bind_some, hright,
      Option.bind_some, Option.bind_some, hmirrored, Option.bind_some, Option.bind_some]
    cases mirrored with
    | none => exact buildRemovalSubs_between hw hlspan
    | some p =>
      refine buildRemovalSubs_between hw ?_
      rintro s ⟨⟩
      exact (hboth p rfl).1

/-! ### Behind a leading marker -/

/-- The first entity behind a blank is not at the start. -/
theorem cover_pos {part after : Text} (hhead : ∀ c ∈ part.head?, isSpace c = true)
    {places : List Span} (hlocate : locate (part ++ after) 0 (splitText part) = some places)
    {span : Span} {s e : Nat} (hcover : cover places span = some (s, e)) : 0 < s := by
  obtain ⟨places', hlocate', -, -, hpos⟩ := locate_words isSpace [] part after
  obtain rfl : places = places' := Option.some.inj (hlocate.symm.trans hlocate')
  obtain ⟨first, hfirst, hlast⟩ := Option.bind_eq_some_iff.mp hcover
  obtain ⟨last, -, heq⟩ := Option.map_eq_some_iff.mp hlast
  cases heq
  exact hpos hhead first (List.mem_of_getElem? hfirst)

/-- A glue word in front of a blank goes when the left end is cleaned. -/
theorem cleanEdge_marker {l w rest : Text} (hl : splitText l = []) (hw : Solid isSpace w)
    (hglue : isGlue U w = true) (hrest : ∀ c ∈ rest.head?, isSpace c = true) :
    cleanEdge U (splitText (l ++ (w ++ rest))) .left = cleanEdge U (splitText rest) .left := by
  have hgap : splitText (l ++ (w ++ rest)) = splitText (w ++ rest) :=
    words_gap (words_eq_nil.mp hl) _
  have hwords : splitText (w ++ rest) = w :: splitText rest := by
    rw [splitText, words_append_of_head w hrest, words_solid hw]
    rfl
  rw [hgap, hwords, cleanEdge_cons hglue]

theorem splitTopPlaced_between {l w r : Text} (hl : splitText l = []) (hw : Solid isSpace w)
    (hglue : isGlue U w = true) (hr : ∀ c ∈ r.head?, isSpace c = true) :
    splitTopPlaced U (l ++ (w ++ r)) (between l w) = behindLegs U r := by
  unfold splitTopPlaced behindLegs
  dsimp only
  rw [drop_between]
  obtain ⟨o, ho, hlead⟩ :=
    findLead_spec (U := U) r (show ∀ sep ∈ [',', ':'], sep = ',' ∨ sep = ':' by simp)
  rw [ho, Option.bind_some, Option.bind_some]
  cases o with
  | none => rfl
  | some lead =>
    obtain ⟨⟨sep, hsep, htext⟩, ⟨h1lt, h1le⟩, -⟩ := hlead lead rfl
    obtain ⟨hSpans, hs, he, hlocate, hcover, hlt, hin, -, -⟩ :=
      locate_cover (sep :: lead.tail) h1lt h1le
    have hhead : ∀ c ∈ lead.head.head?, isSpace c = true := by
      intro c hc
      refine hr c ?_
      rw [htext, List.head?_append, Option.mem_def.mp hc]
      rfl
    have hpos := cover_pos hhead hlocate hcover
    rw [← htext] at hlocate
    dsimp only
    rw [hlocate, Option.bind_some, Option.bind_some]
    refine Option.bind_congr fun tailAt _ => Option.bind_congr fun tSpans _ => ?_
    rw [hcover, Option.bind_some, Option.bind_some]
    refine Option.map_congr fun t _ => ?_
    have hfirst : (l ++ (w ++ r)).take ((between l w).2 + hs) = l ++ (w ++ r.take hs) := by
      rw [between, Nat.add_assoc, List.take_length_add_append, List.take_length_add_append]
    have hspan : ∀ i j, spanText (l ++ (w ++ r)) ((between l w).2 + i) ((between l w).2 + j) =
        spanText r i j := fun i j => by rw [← spanText_drop, drop_between]
    have hend : ∀ i, (l ++ (w ++ r)).drop ((between l w).2 + i) = r.drop i := fun i => by
      rw [← List.drop_drop, drop_between]
    have hblank : ∀ c ∈ (r.take hs ++ spanText r he (tailAt + t.1) ++
        r.drop (tailAt + t.2)).head?, isSpace c = true := by
      intro c hc
      obtain ⟨k, rfl⟩ := Nat.exists_eq_succ_of_ne_zero hpos.ne'
      cases r with
      | nil =>
        rw [spanText, List.take_nil, List.take_nil, List.drop_nil, List.drop_nil] at hc
        cases hc
      | cons d r => exact hr c hc
    simp only [Nat.add_assoc, hspan, hend, hfirst, splitText_strip]
    rw [List.append_assoc l, List.append_assoc w, List.append_assoc l, List.append_assoc w,
      cleanEdge_marker hl hw hglue hblank]

/-! ### The paths of the three spellings -/

/-- Behind a text without a marker that ends with a blank, the marker is found. -/
theorem firstSpan_between (hU : ReadsMarkers U) {l w rest : Text}
    (hl : ∃ c, l.getLast? = some c ∧ isSpace c = true) (hquiet : search (versusRe U) l = false)
    (hrest : Breaks U rest)
    (hw : w = "versus".toList ∨ w = "vs".toList ∧ ∀ t, rest = '.' :: t → Breaks U t) :
    firstSpan (versusRe U) (l ++ (w ++ rest)) = some (between l w) := by
  have hne : w ≠ [] := by
    rcases hw with rfl | ⟨rfl, -⟩
    · decide
    · decide
  have hbefore : ∀ c ∈ l.reverse.head?, isSpace c = true := by
    obtain ⟨d, hd, hblank⟩ := hl
    intro c hc
    rw [List.head?_reverse, hd] at hc
    exact Option.some.inj hc ▸ hblank
  exact firstSpan_append (quiet_append hl hquiet (w ++ rest)) (matchAt_versus hU hbefore hrest hw)
    ⟨rfl, rfl⟩ hne

theorem isGlue_marker (hU : ReadsMarkers U) {w : Text} (hw : w ∈ ["versus".toList, "vs".toList]) :
    isGlue U w = true := by
  have hplain : (["versus".toList, "vs".toList].all fun w =>
      stripToken w = w && compareWords.contains w) = true := by decide +kernel
  have hstrip := List.all_eq_true.mp hplain w hw
  simp only [Bool.and_eq_true, decide_eq_true_eq] at hstrip
  rw [isGlue, hstrip.1, hU.words w hw, hstrip.2, Bool.or_true]

theorem comparativePaths_between (hU : ReadsMarkers U) {l r w : Text}
    (hl : ∃ c, l.getLast? = some c ∧ isSpace c = true)
    (hr : ∃ c, r.head? = some c ∧ isSpace c = true) (hquiet : search (versusRe U) l = false)
    (hw : w ∈ ["versus".toList, "vs".toList]) :
    comparativePaths U (l ++ (w ++ r)) = sideLegs U l r := by
  obtain ⟨c, hc, hblank⟩ := hr
  obtain ⟨t, rfl⟩ := List.head?_eq_some_iff.mp hc
  have hrest : Breaks U (c :: t) := ⟨c, t, rfl, hU.blank c hblank⟩
  have hfirst := firstSpan_between (w := w) hU hl hquiet hrest (by
    rcases List.mem_cons.mp hw with h | h
    · exact .inl h
    · refine .inr ⟨List.mem_singleton.mp h, fun u hu => ?_⟩
      obtain ⟨rfl, -⟩ := List.cons.inj hu
      cases hblank)
  have hsolid : Solid isSpace w := by
    rcases List.mem_cons.mp hw with rfl | h
    · exact Spells.solid (by decide) (show Spells "versus".toList _ by decide)
    · obtain rfl := List.mem_singleton.mp h
      exact Spells.solid (by decide) (show Spells "vs".toList _ by decide)
  unfold comparativePaths sideLegs
  rw [hfirst]
  dsimp only
  rw [take_between]
  by_cases hnil : splitText l = []
  · rw [if_pos hnil, if_pos hnil]
    refine splitTopPlaced_between hnil hsolid (isGlue_marker hU hw) fun d hd => ?_
    exact Option.some.inj hd ▸ hblank
  · rw [if_neg hnil, if_neg hnil]
    exact splitOnMarker_between hsolid.1 hnil

/-- A lone dot is no entity. -/
theorem entitySpan_dot {t : Text} (ht : ∀ c ∈ t.head?, isSpace c = true) :
    entitySpan U (splitText ('.' :: t)) .right = some none := by
  have hwords : splitText ('.' :: t) = ['.'] :: splitText t := by
    have hdot : Solid isSpace ['.'] := by
      refine ⟨List.cons_ne_nil _ _, fun c hc => ?_⟩
      rw [List.mem_singleton.mp hc]
      decide
    rw [← List.singleton_append, splitText, words_append_of_head _ ht, words_solid hdot]
    rfl
  have hstrip : stripToken ['.'] = [] := by decide
  rw [entitySpan, hwords, if_neg (List.cons_ne_nil _ _), List.getElem?_cons_zero, Option.bind_some,
    if_pos hstrip]

theorem findLead_dot {t : Text} (ht : ∀ c ∈ t.head?, isSpace c = true) :
    findLead U ('.' :: t) [',', ':'] = some none := by
  have hlead : ∀ sep, sep ≠ '.' → isSpace sep = false → leadAt U ('.' :: t) sep = some none := by
    intro sep hsep hsolid
    unfold leadAt
    split
    · rfl
    · dsimp only
      split
      · rfl
      · have hhead : ('.' :: t).takeWhile (fun c => decide (c ≠ sep)) =
            '.' :: t.takeWhile fun c => decide (c ≠ sep) :=
          List.takeWhile_cons_of_pos (by simpa using hsep.symm)
        have hblank : ∀ c ∈ (t.takeWhile fun c => decide (c ≠ sep)).head?, isSpace c = true := by
          intro c hc
          cases t with
          | nil => cases hc
          | cons d t =>
            have hd := ht d rfl
            have hne : d ≠ sep := by
              rintro rfl
              rw [hd] at hsolid
              cases hsolid
            rw [List.takeWhile_cons_of_pos (by simpa using hne)] at hc
            exact Option.some.inj hc ▸ hd
        rw [hhead, entitySpan_dot hblank, Option.bind_some]
        obtain ⟨ent, hent, -⟩ := entitySpan_within (U := U) (splitText (('.' :: t).drop
          (('.' :: t.takeWhile fun c => decide (c ≠ sep)).length + 1))) .right
        rw [hent]
        rfl
  rw [findLead, hlead ',' (by decide) (by decide), Option.bind_some, findLead,
    hlead ':' (by decide) (by decide)]
  rfl

theorem aroundLegs_dot (l : Text) {t : Text} (ht : ∀ c ∈ t.head?, isSpace c = true) :
    aroundLegs U l ('.' :: t) = some none := by
  unfold aroundLegs
  split
  · rfl
  · obtain ⟨ent, hent, -⟩ := entitySpan_within (U := U) (splitText l) .left
    rw [hent, Option.bind_some, entitySpan_dot ht]
    cases ent with
    | none => rfl
    | some ent => rfl

/-- A dotted marker leaves its dot behind, and the query is not split. -/
theorem comparativePaths_dot (hU : ReadsMarkers U) {l r : Text}
    (hl : ∃ c, l.getLast? = some c ∧ isSpace c = true)
    (hr : ∃ c, r.head? = some c ∧ isSpace c = true) (hquiet : search (versusRe U) l = false) :
    comparativePaths U (l ++ ("vs.".toList ++ r)) = some none := by
  obtain ⟨c, hc, hblank⟩ := hr
  obtain ⟨t, rfl⟩ := List.head?_eq_some_iff.mp hc
  have htext : l ++ ("vs.".toList ++ c :: t) = l ++ ("vs".toList ++ '.' :: c :: t) := rfl
  have hfirst := firstSpan_between (w := "vs".toList) hU hl hquiet ⟨'.', c :: t, rfl, hU.dot⟩ (by
    refine .inr ⟨rfl, fun u hu => ?_⟩
    obtain ⟨-, rfl⟩ := List.cons.inj hu
    exact ⟨c, t, rfl, hU.blank c hblank⟩)
  have hhead : ∀ d ∈ (c :: t).head?, isSpace d = true := fun d hd => Option.some.inj hd ▸ hblank
  rw [htext, comparativePaths, hfirst]
  dsimp only
  rw [take_between]
  split
  · rw [splitTopPlaced, drop_between, findLead_dot hhead]
    rfl
  · next hnil =>
    rw [splitOnMarker_between (by decide) hnil]
    exact aroundLegs_dot l hhead

end

/-! ## The three spellings -/

section

variable (U : CharTables)

/-- No document and no message is named. -/
def unnamed (query : Text) : Bool :=
  (parseQuery U query).docIds.isEmpty && (parseQuery U query).messageIds.isEmpty

/-- The query is split for all spellings of the marker, into the same legs, or for none. -/
def SpellingsAgree (S : CharData) (l r : Text) (comparativeEnabled diagnosticEnabled : Bool) : Prop :=
  ∀ m ∈ spellings, ∀ m' ∈ spellings, ∀ legs,
    splitQuery U S (l ++ (m ++ r)) comparativeEnabled diagnosticEnabled =
      some (legs, .comparative) →
    splitQuery U S (l ++ (m' ++ r)) comparativeEnabled diagnosticEnabled =
      some (legs, .comparative)

end

section

variable {U : CharTables}

theorem splitQuery_comparative {S : CharData} {query : Text} (hstrip : strip query ≠ [])
    (htrap : screenQuery S query ≠ .trap) {comparativeEnabled diagnosticEnabled : Bool}
    {o : Option (Text × Text)} (ho : comparativePaths U query = some o) (legs : List Text) :
    splitQuery U S query comparativeEnabled diagnosticEnabled = some (legs, .comparative) ↔
      comparativeEnabled = true ∧ unnamed U query = true ∧
        ∃ a b, o = some (a, b) ∧ legs = [a, b] := by
  have hsingle := diagnosticPaths_mode (U := U) query (parseQuery U query) diagnosticEnabled
  unfold splitQuery
  rw [if_neg hstrip, if_neg htrap]
  dsimp only
  have hcond : (comparativeEnabled && (parseQuery U query).docIds.isEmpty &&
      (parseQuery U query).messageIds.isEmpty) = (comparativeEnabled && unnamed U query) :=
    Bool.and_assoc _ _ _
  rw [hcond, ho]
  by_cases h : (comparativeEnabled && unnamed U query) = true
  · rw [if_pos h, Option.map_some]
    have hboth := Bool.and_eq_true_iff.mp h
    cases o with
    | none =>
      constructor
      · intro heq
        exact absurd (congrArg Prod.snd (Option.some.inj heq)) hsingle
      · rintro ⟨-, -, a, b, hab, -⟩
        cases hab
    | some subs =>
      constructor
      · intro heq
        refine ⟨hboth.1, hboth.2, subs.1, subs.2, rfl, ?_⟩
        exact (congrArg Prod.fst (Option.some.inj heq)).symm
      · rintro ⟨-, -, a, b, hab, rfl⟩
        cases hab
        rfl
  · rw [if_neg h, Option.map_some]
    constructor
    · intro heq
      exact absurd (congrArg Prod.snd (Option.some.inj heq)) hsingle
    · rintro ⟨hc, hu, -⟩
      exact absurd (Bool.and_eq_true_iff.mpr ⟨hc, hu⟩) h

/-- The three spellings agree exactly where the sides have no legs or ids keep the query whole. -/
theorem spellings_agree_iff (hU : ReadsMarkers U) (S : CharData) {l r : Text}
    (hl : ∃ c, l.getLast? = some c ∧ isSpace c = true)
    (hr : ∃ c, r.head? = some c ∧ isSpace c = true) (hquiet : search (versusRe U) l = false)
    (htrap : ∀ m ∈ spellings, screenQuery S (l ++ (m ++ r)) ≠ .trap)
    (comparativeEnabled diagnosticEnabled : Bool) :
    SpellingsAgree U S l r comparativeEnabled diagnosticEnabled ↔
      ¬ (comparativeEnabled = true ∧ (∃ a b, sideLegs U l r = some (some (a, b))) ∧
        (unnamed U (l ++ ("versus".toList ++ r)) = true ∨
          unnamed U (l ++ ("vs".toList ++ r)) = true)) := by
  have hstrip : ∀ m ∈ spellings, strip (l ++ (m ++ r)) ≠ [] := by
    intro m hm hnil
    have hv : ∀ m ∈ spellings, 'v' ∈ m := by decide
    have hin : 'v' ∈ l ++ (m ++ r) :=
      List.mem_append_right l (List.mem_append_left r (hv m hm))
    exact absurd (strip_eq_nil.mp hnil 'v' hin) (by decide)
  have hsplit : ∀ m ∈ spellings, ∀ {o}, comparativePaths U (l ++ (m ++ r)) = some o → ∀ legs,
      splitQuery U S (l ++ (m ++ r)) comparativeEnabled diagnosticEnabled =
        some (legs, .comparative) ↔ comparativeEnabled = true ∧ unnamed U (l ++ (m ++ r)) = true ∧
          ∃ a b, o = some (a, b) ∧ legs = [a, b] :=
    fun m hm _ ho legs => splitQuery_comparative (hstrip m hm) (htrap m hm) ho legs
  have hdot : ∀ legs, splitQuery U S (l ++ ("vs.".toList ++ r)) comparativeEnabled
      diagnosticEnabled ≠ some (legs, .comparative) := by
    intro legs h
    have hpaths := comparativePaths_dot hU hl hr hquiet
    obtain ⟨-, -, a, b, hab, -⟩ := (hsplit _ (by decide) hpaths legs).mp h
    cases hab
  have hwhole : ∀ m ∈ ["versus".toList, "vs".toList], ∀ legs,
      splitQuery U S (l ++ (m ++ r)) comparativeEnabled diagnosticEnabled =
        some (legs, .comparative) ↔ comparativeEnabled = true ∧ unnamed U (l ++ (m ++ r)) = true ∧
          ∃ a b, sideLegs U l r = some (some (a, b)) ∧ legs = [a, b] := by
    intro m hm legs
    have hpaths := comparativePaths_between hU hl hr hquiet hm
    obtain ⟨o, ho, -⟩ := comparativePaths_compared (U := U) (l ++ (m ++ r))
    have hmem : m ∈ spellings := (show ∀ m ∈ ["versus".toList, "vs".toList], m ∈ spellings by
      decide) m hm
    rw [hsplit m hmem ho, ← hpaths, ho]
    simp only [Option.some.injEq]
  constructor
  · rintro hagree ⟨hc, ⟨a, b, hlegs⟩, hun | hun⟩
    · have h := (hwhole _ (by decide) [a, b]).mpr ⟨hc, hun, a, b, hlegs, rfl⟩
      exact hdot _ (hagree _ (by decide) "vs.".toList (by decide) _ h)
    · have h := (hwhole _ (by decide) [a, b]).mpr ⟨hc, hun, a, b, hlegs, rfl⟩
      exact hdot _ (hagree _ (by decide) "vs.".toList (by decide) _ h)
  · intro hnone m hm m' _ legs h
    refine absurd h fun h => ?_
    rcases List.mem_cons.mp hm with rfl | hm
    · obtain ⟨hc, hun, a, b, hlegs, -⟩ := (hwhole _ (by decide) legs).mp h
      exact hnone ⟨hc, ⟨a, b, hlegs⟩, .inl hun⟩
    · rcases List.mem_cons.mp hm with rfl | hm
      · obtain ⟨hc, hun, a, b, hlegs, -⟩ := (hwhole _ (by decide) legs).mp h
        exact hnone ⟨hc, ⟨a, b, hlegs⟩, .inr hun⟩
      · obtain rfl := List.mem_singleton.mp hm
        exact hdot legs h

end

/-! ### Two subsystems -/

theorem asciiTables_readsMarkers : ReadsMarkers asciiTables where
  blank c hc := by
    by_contra hword
    rw [Bool.not_eq_false] at hword
    simp only [asciiTables, Char.isAlphanum, Char.isAlpha, Char.isUpper, Char.isLower, Char.isDigit,
      Bool.or_eq_true, Bool.and_eq_true, decide_eq_true_eq, beq_iff_eq, ge_iff_le,
      UInt32.le_iff_toNat_le] at hword
    have hrange : ((((65 ≤ c.toNat ∧ c.toNat ≤ 90) ∨ (97 ≤ c.toNat ∧ c.toNat ≤ 122)) ∨
        (48 ≤ c.toNat ∧ c.toNat ≤ 57)) ∨ c = '_') := hword
    simp only [isSpace, Bool.or_eq_true, Bool.and_eq_true, decide_eq_true_eq, beq_iff_eq] at hc
    rcases hrange with h | rfl
    · omega
    · revert hc
      decide
  dot := by decide
  letters := List.all_eq_true.mp (by decide +kernel)
  words := by decide +kernel

/-- What stands on the sides of `JES2 versus JES3 spool`. -/
def jes2 : Text := "JES2 ".toList

def jes3 : Text := " JES3 spool".toList

theorem jes_sides : (∃ c, jes2.getLast? = some c ∧ isSpace c = true) ∧
    (∃ c, jes3.head? = some c ∧ isSpace c = true) ∧ search (versusRe asciiTables) jes2 = false ∧
    search (versusRe asciiTables) jes3 = false ∧
    ∀ m ∈ spellings, screenQuery Screen.plainData (jes2 ++ (m ++ jes3)) ≠ .trap := by
  refine ⟨⟨' ', by decide, by decide⟩, ⟨' ', by decide, by decide⟩, by decide +kernel,
    by decide +kernel, fun m hm => ?_⟩
  have hread : ∀ m ∈ spellings, ∀ glue ∈ Screen.glues,
      Screen.normalize Screen.plainData (jes2 ++ (m ++ jes3)) glue =
        "jes2 ".toList ++ (m ++ " jes3 spool".toList) := by
    decide +kernel
  have hpass : ∀ rx ∈ Screen.trapRes Screen.plainData, ∀ m ∈ spellings,
      search rx ("jes2 ".toList ++ (m ++ " jes3 spool".toList)) = false := by
    intro rx hrx
    iterate 13
      rcases List.mem_cons.mp hrx with rfl | hrx
      · decide +kernel
    cases hrx
  rw [Screen.screenQuery_answerable (hread m hm [] (by decide)) (hread m hm [' '] (by decide))
    fun rx hrx => ⟨hpass rx hrx m hm, hpass rx hrx m hm⟩]
  simp

theorem spellings_agree_iff_jes :
    SpellingsAgree asciiTables Screen.plainData jes2 jes3 true true ↔
      ¬ (true = true ∧ (∃ a b, sideLegs asciiTables jes2 jes3 = some (some (a, b))) ∧
        (unnamed asciiTables (jes2 ++ ("versus".toList ++ jes3)) = true ∨
          unnamed asciiTables (jes2 ++ ("vs".toList ++ jes3)) = true)) :=
  spellings_agree_iff asciiTables_readsMarkers Screen.plainData jes_sides.1 jes_sides.2.1
    jes_sides.2.2.1 jes_sides.2.2.2.2 true true

theorem jes_split :
    splitQuery asciiTables Screen.plainData (jes2 ++ ("vs".toList ++ jes3)) true true =
      some (["JES2 spool".toList, "JES3 spool".toList], .comparative) ∧
    splitQuery asciiTables Screen.plainData (jes2 ++ ("vs.".toList ++ jes3)) true true =
      some (["JES2 vs. JES3 spool".toList], .single) := by
  have hpass := jes_sides.2.2.2.2
  unfold splitQuery
  rw [if_neg (by decide +kernel), if_neg (hpass _ (by decide)), if_neg (by decide +kernel),
    if_neg (hpass _ (by decide))]
  exact ⟨by decide +kernel, by decide +kernel⟩

/-- Written `vs.`, the comparison is a single query. -/
theorem dotted_single : search (versusRe asciiTables) jes2 = false ∧
    search (versusRe asciiTables) jes3 = false ∧
    (∀ m ∈ spellings, screenQuery Screen.plainData (jes2 ++ (m ++ jes3)) ≠ .trap) ∧
    ¬ SpellingsAgree asciiTables Screen.plainData jes2 jes3 true true := by
  refine ⟨jes_sides.2.2.1, jes_sides.2.2.2.1, jes_sides.2.2.2.2, fun hagree => ?_⟩
  have h := hagree "vs".toList (by decide) "vs.".toList (by decide) _ jes_split.1
  rw [jes_split.2] at h
  cases h

end MainframeRag.Retrieve.Split
