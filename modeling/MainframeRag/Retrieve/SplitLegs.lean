import MainframeRag.Retrieve.Split

/-!
# The legs of a comparison

What the two legs of a split query keep of it. Every query gets an answer, and the legs of a
comparison only lose words (`splitQuery_removes`): each holds the words of the query without the
marker and the other entity, in order, less some glue at the ends. Behind a leading marker the
separator is lost too (`comma_dropped`), and two slips can cut elsewhere (`astray`).
-/

namespace MainframeRag.Retrieve.Split

open PyText Regex Regex.Pattern Words
open Ingest.Chunking (ciChar)
open Agent (lit wordCi wordEdge)
open Screen (CharData)

/-! ## What a leg keeps -/

/-- The words left of a query behind a place when spans, in order, are deleted. -/
def remaining (query : Text) : Nat → List Span → List Text
  | pos, [] => splitText (query.drop pos)
  | pos, cut :: cuts => splitText (spanText query pos cut.1) ++ remaining query cut.2 cuts

section

variable (U : CharTables)

/-- Words without some comparison glue at the ends. -/
def Trimmed (all kept : List Text) : Prop :=
  ∃ front back, all = front ++ kept ++ back ∧ (∀ w ∈ front, isGlue U w = true) ∧
    ∀ w ∈ back, isGlue U w = true

def markerWords : List Text := ["versus", "vs", "vs.", "and", "or"].map String.toList

/-- The letters of a word, in either case. -/
def Spells (w t : Text) : Prop := List.Forall₂ (fun p c => ciChar p c = true) w t

instance (w t : Text) : Decidable (Spells w t) := inferInstanceAs (Decidable (List.Forall₂ _ w t))

def edgeAt (query : Text) (i : Nat) : Prop :=
  (query.take i).getLast?.any U.isWord ≠ (query.drop i).head?.any U.isWord

/-- A comparison marker of the query. -/
structure IsMarker (query : Text) (m : Span) : Prop where
  proper : m.1 < m.2
  inside : m.2 ≤ query.length
  spells : ∃ w ∈ markerWords, Spells w (spanText query m.1 m.2)
  start : edgeAt U query m.1
  stop : edgeAt U query m.2

/-- Long enough, and different in lower case. -/
structure Legs (a b : Text) : Prop where
  left : minPathChars ≤ a.length
  right : minPathChars ≤ b.length
  differ : U.lower a ≠ U.lower b

/-- Two entities around a marker, and the legs without the marker and the other entity. -/
structure Around (query a b : Text) (m e1 e2 : Span) : Prop where
  first : e1.1 < e1.2
  before : e1.2 ≤ m.1
  behind : m.2 ≤ e2.1
  second : e2.1 < e2.2
  inside : e2.2 ≤ query.length
  left : Trimmed U (remaining query 0 [m, e2]) (splitText a)
  right : Trimmed U (remaining query 0 [e1, m]) (splitText b)

/-- Two entities behind a leading marker, a comma or a colon between them, and the legs that start
with their entity, as `Leg` says. -/
structure Behind (Leg : (entity rest leg : List Text) → Prop) (query a b : Text)
    (m e1 e2 : Span) : Prop where
  leading : splitText (query.take m.1) = []
  marker : m.2 ≤ e1.1
  first : e1.1 < e1.2
  separator : ∃ i, e1.2 ≤ i ∧ i < e2.1 ∧ (query[i]? = some ',' ∨ query[i]? = some ':')
  second : e2.1 < e2.2
  inside : e2.2 ≤ query.length
  left : Leg (splitText (spanText query e1.1 e1.2)) (remaining query 0 [m, e1, e2]) (splitText a)
  right : Leg (splitText (spanText query e2.1 e2.2)) (remaining query 0 [m, e1, e2]) (splitText b)

/-- The legs are the query without a marker and without one of two entities. -/
def Removes (Leg : (entity rest leg : List Text) → Prop) (query a b : Text) : Prop :=
  ∃ m e1 e2, IsMarker U query m ∧
    (Around U query a b m e1 e2 ∨ Behind Leg query a b m e1 e2)

/-- What stays beside a leading marker, up to a blank, when the entities are cut. -/
def besideMarker (right : Text) (lead : Lead) : Option Text :=
  (locate right 0 (splitText lead.head)).bind fun hSpans =>
  (locate lead.tail 0 (splitText lead.tail)).bind fun tSpans =>
  (cover hSpans lead.ent1).bind fun h => (cover tSpans lead.ent2).map fun t =>
    let middle := spanText right h.2 (lead.head.length + 1 + t.1)
    (right.take h.1 ++ (middle ++ lead.tail.drop t.2)).takeWhile (!isSpace ·)

/-- Behind a leading marker, what stands behind the separator also stands further in front, or the
marker's word is not only glue. -/
def astray (query : Text) : Bool :=
  match (firstSpan (versusRe U) query).filter fun m => (splitText (query.take m.1)).isEmpty with
  | none => false
  | some m =>
    match findLead U (query.drop m.2) [',', ':'] with
    | some (some lead) =>
      find (query.drop m.2) lead.tail 0 ≠ some (lead.head.length + 1) ||
        (besideMarker (query.drop m.2) lead).any fun beside =>
          !(isGlue U (spanText query m.1 m.2 ++ beside) && isGlue U beside)
    | _ => false

/-- The entity and the rest, without some glue at the ends. -/
def TrimmedWhole (entity rest leg : List Text) : Prop := Trimmed U (entity ++ rest) leg

/-- The entity and the rest, which loses glue at its own ends first. -/
def TrimmedShared (entity rest leg : List Text) : Prop :=
  ∃ shared, Trimmed U rest shared ∧ Trimmed U (entity ++ shared) leg

end

/-! ### Trimming -/

section

variable {U : CharTables}

theorem Trimmed.trans {k l n : List Text} (h : Trimmed U k l) (h' : Trimmed U l n) :
    Trimmed U k n := by
  obtain ⟨front, back, rfl, hf, hb⟩ := h
  obtain ⟨front', back', rfl, hf', hb'⟩ := h'
  refine ⟨front ++ front', back' ++ back, by simp, fun w hw => ?_, fun w hw => ?_⟩
  · exact (List.mem_append.mp hw).elim (hf w) (hf' w)
  · exact (List.mem_append.mp hw).elim (hb' w) (hb w)

/-- What only glue stands in front of. -/
theorem Trimmed.front {front l k : List Text} (hf : ∀ w ∈ front, isGlue U w = true)
    (h : Trimmed U l k) : Trimmed U (front ++ l) k := by
  obtain ⟨front', back, rfl, hf', hb⟩ := h
  refine ⟨front ++ front', back, by simp, fun w hw => ?_, hb⟩
  exact (List.mem_append.mp hw).elim (hf w) (hf' w)

theorem trimmed_cleanEdge (ws : List Text) (side : Side) : Trimmed U ws (cleanEdge U ws side) := by
  have hglue : ∀ (l : List Text), ∀ w ∈ l.takeWhile (isGlue U), isGlue U w = true :=
    fun l w hw => List.mem_takeWhile_imp hw
  cases side with
  | left =>
    refine ⟨ws.takeWhile (isGlue U), [], ?_, hglue ws, by simp⟩
    rw [cleanEdge, List.append_nil, List.takeWhile_append_dropWhile]
  | right =>
    refine ⟨[], (ws.reverse.takeWhile (isGlue U)).reverse, ?_, by simp, fun w hw => ?_⟩
    · rw [cleanEdge, List.nil_append, ← List.reverse_append, List.takeWhile_append_dropWhile,
        List.reverse_reverse]
    · exact hglue ws.reverse w (List.mem_reverse.mp hw)

/-- What is dropped is glue, and the rest is in order. -/
theorem cleanEdge_sublist (ws : List Text) (side : Side) : (cleanEdge U ws side).Sublist ws := by
  cases side with
  | left => exact List.dropWhile_sublist _
  | right =>
    have h := (List.dropWhile_sublist (isGlue U) (l := ws.reverse)).reverse
    rwa [List.reverse_reverse] at h

theorem cleaned_sublist (ws : List Text) :
    (cleanEdge U (cleanEdge U ws .left) .right).Sublist ws :=
  (cleanEdge_sublist _ .right).trans (cleanEdge_sublist ws .left)

/-- Behind a glue word the left end is cleaned as without it. -/
theorem cleanEdge_cons {w : Text} (hw : isGlue U w = true) (ws : List Text) :
    cleanEdge U (w :: ws) .left = cleanEdge U ws .left := by
  rw [cleanEdge, List.dropWhile_cons_of_pos hw]
  rfl

/-! ### Words and joins -/

theorem isSpace_blank : isSpace ' ' = true := by decide

theorem splitText_joinWords (ts : List Text) : splitText (joinWords ts) = ts.flatMap splitText :=
  words_intercalate isSpace_blank ts

/-- Words of a text that are joined are the words again. -/
theorem splitText_joined {t : Text} {ws : List Text} (h : ws.Sublist (splitText t)) :
    splitText (joinWords ws) = ws := by
  rw [splitText_joinWords]
  exact flatMap_words fun w hw => solid_of_mem (h.subset hw)

theorem remaining_eq (query : Text) (pos : Nat) (cuts : List Span) :
    remaining query pos cuts = (pieces query pos cuts).flatMap splitText := by
  induction cuts generalizing pos with
  | nil => simp [remaining, pieces]
  | cons cut cuts ih => rw [remaining, pieces, List.flatMap_cons, ih]

/-- A cleaned list of words, joined and split again. -/
theorem splitText_cleaned (t : Text) :
    splitText (joinWords (cleanEdge U (cleanEdge U (splitText t) .left) .right)) =
      cleanEdge U (cleanEdge U (splitText t) .left) .right :=
  splitText_joined (cleaned_sublist _)

theorem trimmed_cleaned (ws : List Text) :
    Trimmed U ws (cleanEdge U (cleanEdge U ws .left) .right) :=
  (trimmed_cleanEdge ws .left).trans (trimmed_cleanEdge _ .right)

/-! ### Around a marker -/

theorem dropSpans_trimmed {query : Text} {marker : Span} {spans cuts : List Span}
    (h : ((marker :: spans).insertionSort fun a b => toLex a ≤ toLex b) = cuts) :
    Trimmed U (remaining query 0 cuts) (splitText (dropSpans U query marker spans)) := by
  have htext : splitText (joinWords (splitText (joinWords (pieces query 0 cuts)))) =
      remaining query 0 cuts := by
    rw [splitText_joined (.refl _), splitText_joinWords, remaining_eq]
  rw [dropSpans, h, splitText_cleaned, htext]
  exact trimmed_cleaned _

theorem sorted_pair {m s : Span} (h : m.1 < s.1) :
    ([m, s].insertionSort fun a b => toLex a ≤ toLex b) = [m, s] ∧
      ([s, m].insertionSort fun a b => toLex a ≤ toLex b) = [m, s] := by
  have hle : toLex m ≤ toLex s := Prod.Lex.toLex_le_toLex.mpr (.inl h)
  have hnot : ¬ toLex s ≤ toLex m := by
    rw [Prod.Lex.toLex_le_toLex]
    omega
  refine ⟨?_, ?_⟩
  · simp only [List.insertionSort_cons, List.insertionSort_nil, List.orderedInsert_nil,
      List.orderedInsert_cons, if_pos hle]
  · simp only [List.insertionSort_cons, List.insertionSort_nil, List.orderedInsert_nil,
      List.orderedInsert_cons, if_neg hnot]

theorem legs_some {sub1 sub2 a b : Text} (h : legs U sub1 sub2 = some (a, b)) :
    a = sub1 ∧ b = sub2 ∧ Legs U a b := by
  unfold legs at h
  split at h
  · next hc =>
    cases h
    exact ⟨rfl, rfl, hc.1, hc.2.1, hc.2.2⟩
  · cases h

/-- The places of the words of a text, and what they cover. -/
theorem locate_cover {part : Text} (after : Text) {span : Span} (hlt : span.1 < span.2)
    (hle : span.2 ≤ (splitText part).length) : ∃ places s e,
    locate (part ++ after) 0 (splitText part) = some places ∧ cover places span = some (s, e) ∧
      s < e ∧ e ≤ part.length ∧ (∀ c ∈ (part.take s).getLast?, isSpace c = true) ∧
      ∀ c ∈ (part.drop e).head?, isSpace c = true := by
  obtain ⟨places, hlocate, hlength, hapart, -⟩ := locate_words isSpace [] part after
  obtain ⟨s, e, hcover, -, hlt, hin, hstart, hstop⟩ := hapart.cover hlt (hlength ▸ hle)
  exact ⟨places, s, e, hlocate, hcover, hlt, by simpa using hin, by simpa using hstart,
    by simpa using hstop⟩

theorem buildRemovalSubs_spec {query : Text} {m : Span} (hm : m.1 < m.2) (hin : m.2 ≤ query.length)
    {leftEnt rightEnt : Option Span}
    (hl : ∀ s ∈ leftEnt, s.1 < s.2 ∧ s.2 ≤ (splitText (query.take m.1)).length)
    (hr : ∀ s ∈ rightEnt, s.1 < s.2 ∧ s.2 ≤ (splitText (query.drop m.2)).length) :
    ∃ o, buildRemovalSubs U query m leftEnt rightEnt = some o ∧
      ∀ a b, o = some (a, b) → Legs U a b ∧ ∃ e1 e2, Around U query a b m e1 e2 := by
  cases leftEnt with
  | none => exact ⟨none, rfl, by simp⟩
  | some left =>
    cases rightEnt with
    | none => exact ⟨none, rfl, by simp⟩
    | some right =>
      obtain ⟨hl1, hl2⟩ := hl left rfl
      obtain ⟨hr1, hr2⟩ := hr right rfl
      obtain ⟨lPlaces, ls, le, hlLocate, hlCover, hlLt, hlIn, -, -⟩ :=
        locate_cover [] hl1 hl2
      obtain ⟨rPlaces, rs, re, hrLocate, hrCover, hrLt, hrIn, -, -⟩ :=
        locate_cover [] hr1 hr2
      rw [List.append_nil] at hlLocate hrLocate
      rw [List.length_take, Nat.min_eq_left (by omega)] at hlIn
      rw [List.length_drop] at hrIn
      unfold buildRemovalSubs
      dsimp only
      rw [hlLocate, Option.bind_some, hrLocate, Option.bind_some, hlCover, Option.bind_some, hrCover,
        Option.map_some]
      refine ⟨_, rfl, fun a b hlegs => ?_⟩
      obtain ⟨ha, hb, hab⟩ := legs_some hlegs
      refine ⟨hab, (ls, le), (m.2 + rs, m.2 + re), ?_⟩
      have hsecond : m.1 < m.2 + rs := by omega
      have hfirst : ls < m.1 := by omega
      constructor
      case first => exact hlLt
      case before => exact hlIn
      case behind => exact Nat.le_add_right _ _
      case second => exact Nat.add_lt_add_left hrLt _
      case inside =>
        dsimp only
        omega
      case left => exact ha ▸ dropSpans_trimmed (sorted_pair hsecond).1
      case right => exact hb ▸ dropSpans_trimmed (sorted_pair hfirst).2

/-- A marker inside the query gives two legs or none. -/
theorem splitOnMarker_spec {query : Text} {m : Span} (hm : m.1 < m.2) (hin : m.2 ≤ query.length) :
    ∃ o, splitOnMarker U query m = some o ∧
      ∀ a b, o = some (a, b) → Legs U a b ∧ ∃ e1 e2, Around U query a b m e1 e2 := by
  unfold splitOnMarker
  dsimp only
  split
  · exact ⟨none, rfl, by simp⟩
  · obtain ⟨leftEnt, hleft, hl⟩ := entitySpan_within (U := U) (splitText (query.take m.1)) .left
    obtain ⟨rightEnt, hright, hr⟩ := entitySpan_within (U := U) (splitText (query.drop m.2)) .right
    obtain ⟨mirrored, hmirrored, hboth⟩ := mirroredContextSpans_within (U := U) hl hr
    rw [hleft, Option.bind_some, hright, Option.bind_some, hmirrored, Option.bind_some]
    cases mirrored with
    | none => exact buildRemovalSubs_spec hm hin hl hr
    | some p =>
      obtain ⟨hp1, hp2⟩ := hboth p rfl
      dsimp only
      refine buildRemovalSubs_spec hm hin ?_ ?_
      · rintro s ⟨⟩
        exact hp1
      · rintro s ⟨⟩
        exact hp2

/-! ### Markers -/

theorem runs_wordCi {w : String} {pl e : Place Char} (h : e ∈ (wordCi w).runs pl) :
    ∃ t, Along pl t e ∧ Spells w.toList t := by
  unfold wordCi at h
  generalize w.toList = l at h
  induction l generalizing pl with
  | nil =>
    rw [List.foldr_nil, Pattern.runs, List.mem_singleton] at h
    exact ⟨[], h ▸ .refl pl, .nil⟩
  | cons c l ih =>
    obtain ⟨m, hm, he⟩ := mem_runs_seq.mp h
    obtain ⟨d, hd, hone⟩ := mem_runs_one hm
    obtain ⟨t, ht, hspells⟩ := ih he
    exact ⟨[d] ++ t, hone.trans ht, .cons hd hspells⟩

def edgeHere (U : CharTables) (pl : Place Char) : Prop :=
  pl.before.head?.any U.isWord ≠ pl.rest.head?.any U.isWord

theorem runs_wordEdge {pl e : Place Char} (h : e ∈ (wordEdge U).runs pl) :
    e = pl ∧ edgeHere U pl := by
  rw [wordEdge, Pattern.runs] at h
  split at h
  · next hedge =>
    rw [decide_eq_true_eq] at hedge
    exact ⟨List.mem_singleton.mp h, hedge⟩
  · cases h

theorem runs_wholeWord {p : Pattern Char} {pl e : Place Char} (h : e ∈ (wholeWord U p).runs pl) :
    edgeHere U pl ∧ e ∈ p.runs pl ∧ edgeHere U e := by
  obtain ⟨a, ha, h⟩ := mem_runs_seq.mp h
  obtain ⟨b, hb, h⟩ := mem_runs_seq.mp h
  obtain ⟨d, hd, h⟩ := mem_runs_seq.mp h
  obtain rfl : e = d := List.mem_singleton.mp h
  obtain ⟨rfl, hstart⟩ := runs_wordEdge ha
  obtain ⟨rfl, hstop⟩ := runs_wordEdge hd
  exact ⟨hstart, hb, hstop⟩

theorem edgeHere_place {t : Text} {i : Nat} :
    edgeHere U ⟨(t.take i).reverse, t.drop i⟩ ↔ edgeAt U t i := by
  rw [edgeHere, edgeAt, List.head?_reverse]

/-- A pattern that reads a marker. -/
def Marks (U : CharTables) (p : Pattern Char) : Prop :=
  ∀ pl, ∀ e ∈ p.runs pl, edgeHere U pl ∧ edgeHere U e ∧
    ∃ w ∈ markerWords, ∃ t, Along pl t e ∧ Spells w t

theorem marks_word {w : String} (hw : w.toList ∈ markerWords) : Marks U (wholeWord U (wordCi w)) := by
  intro pl e he
  obtain ⟨hstart, hp, hstop⟩ := runs_wholeWord he
  exact ⟨hstart, hstop, _, hw, runs_wordCi hp⟩

theorem marks_versusRe : Marks U (versusRe U) := by
  intro pl e he
  rcases List.mem_append.mp he with he | he
  · exact marks_word (by decide) pl e he
  · obtain ⟨hstart, hp, hstop⟩ := runs_wholeWord he
    obtain ⟨m, hm, he⟩ := mem_runs_seq.mp hp
    obtain ⟨t, ht, hspells⟩ := runs_wordCi hm
    rcases List.mem_append.mp he with he | he
    · have hdot : Along m ['.'] e := mem_runs_word.mp he
      exact ⟨hstart, hstop, "vs.".toList, by decide, t ++ ['.'], ht.trans hdot,
        List.rel_append hspells (.cons (by decide) .nil)⟩
    · obtain rfl : e = m := List.mem_singleton.mp he
      exact ⟨hstart, hstop, "vs".toList, by decide, t, ht, hspells⟩

theorem Marks.isMarker {p : Pattern Char} (hp : Marks U p) {query : Text} {m : Span}
    (h : m ∈ spans p query) : IsMarker U query m := by
  obtain ⟨hle, hin, hrun⟩ := mem_spans h
  obtain ⟨hstart, hstop, w, hw, t, ht, hspells⟩ := hp _ _ hrun
  rw [ht.unique (along_spanText hle)] at hspells
  have hpos : ∀ w ∈ markerWords, 0 < w.length := by decide
  have hlen := hspells.length_eq
  rw [length_spanText hin] at hlen
  have := hpos w hw
  exact ⟨by omega, hin, ⟨w, hw, hspells⟩, edgeHere_place.mp hstart, edgeHere_place.mp hstop⟩

/-- The edges of a part between edges are edges of the whole. -/
theorem edgeAt_shifted {query : Text} {b e i : Nat} (hbe : b ≤ e) (he : e ≤ query.length)
    (hi : b + i ≤ e) (hb : edgeAt U query b) (hend : e = query.length ∨ edgeAt U query e)
    (h : edgeAt U (spanText query b e) i) : edgeAt U query (b + i) := by
  have hdrop : (spanText query b e).drop i = spanText query (b + i) e := by
    rw [spanText, List.drop_drop, spanText]
  have htake : query.take b ++ (spanText query b e).take i = query.take (b + i) := by
    rw [spanText, List.take_drop, List.take_take, Nat.min_eq_left hi]
    exact take_append_spanText (Nat.le_add_right b i)
  rcases Nat.eq_zero_or_pos i with rfl | hpos
  · exact hb
  rcases hi.lt_or_eq with hlt | heq
  · have hlast : ((spanText query b e).take i) ≠ [] := by
      rw [← List.length_pos_iff, List.length_take, length_spanText he]
      omega
    have hhead : spanText query (b + i) e ≠ [] := by
      rw [← List.length_pos_iff, length_spanText he]
      omega
    obtain ⟨c, u, hu⟩ := List.exists_cons_of_ne_nil hhead
    have hwhole : query.drop (b + i) = c :: (u ++ query.drop e) := by
      rw [← spanText_append_drop hi, hu, List.cons_append]
    rw [edgeAt, hdrop, hu] at h
    rwa [edgeAt, ← htake, List.getLast?_append_of_ne_nil _ hlast, hwhole]
  · rcases hend with hend | hend
    · have hlast : ((spanText query b e).take i) ≠ [] := by
        rw [← List.length_pos_iff, List.length_take, length_spanText he]
        omega
      have hnone : query.drop (b + i) = [] := List.drop_of_length_le (by omega)
      have hnone' : spanText query (b + i) e = [] := by
        rw [spanText, List.drop_of_length_le]
        exact (List.length_take_le _ _).trans heq.ge
      rw [edgeAt, hdrop, hnone'] at h
      rwa [edgeAt, ← htake, List.getLast?_append_of_ne_nil _ hlast, hnone]
    · rwa [heq]

theorem IsMarker.shifted {query : Text} {b e : Nat} {m : Span} (hbe : b ≤ e)
    (he : e ≤ query.length) (hb : edgeAt U query b) (hend : e = query.length ∨ edgeAt U query e)
    (h : IsMarker U (spanText query b e) m) : IsMarker U query (shifted b m) := by
  have hin := h.inside
  have hlt := h.proper
  rw [length_spanText he] at hin
  constructor
  case proper => exact Nat.add_lt_add_left h.proper b
  case inside =>
    dsimp only [Split.shifted]
    omega
  case spells =>
    obtain ⟨w, hw, hspells⟩ := h.spells
    refine ⟨w, hw, ?_⟩
    dsimp only [Split.shifted]
    rw [← spanText_drop]
    have hpart : spanText (spanText query b e) m.1 m.2 = spanText (query.drop b) m.1 m.2 := by
      have htake : (spanText query b e).take m.2 = (query.drop b).take m.2 := by
        rw [spanText, List.take_drop, List.take_take, Nat.min_eq_left (by omega), List.take_drop]
      rw [spanText, htake, spanText]
    rwa [← hpart]
  case start => exact edgeAt_shifted hbe he (by omega) hb hend h.start
  case stop => exact edgeAt_shifted hbe he (by omega) hb hend h.stop

/-! ### Behind a leading marker -/

theorem findAt_infix (sub a b : Text) (i : Nat) : ∃ j, findAt sub (a ++ (sub ++ b)) i = some j := by
  induction a generalizing i with
  | nil =>
    cases hsub : sub with
    | nil => cases b <;> exact ⟨i, rfl⟩
    | cons c u =>
      refine ⟨i, ?_⟩
      rw [List.nil_append, List.cons_append, findAt, if_pos]
      exact List.isPrefixOf_iff_prefix.mpr (List.prefix_append (c :: u) b)
  | cons c a ih =>
    rw [List.cons_append, findAt]
    split
    · exact ⟨i, rfl⟩
    · exact ih (i + 1)

/-- A separator behind the marker with an entity on each side. -/
structure LeadOf (right : Text) (lead : Lead) : Prop where
  text : ∃ sep, (sep = ',' ∨ sep = ':') ∧ right = lead.head ++ sep :: lead.tail
  first : lead.ent1.1 < lead.ent1.2 ∧ lead.ent1.2 ≤ (splitText lead.head).length
  second : lead.ent2.1 < lead.ent2.2 ∧ lead.ent2.2 ≤ (splitText lead.tail).length

theorem leadAt_spec (right : Text) {sep : Char} (hsep : sep = ',' ∨ sep = ':') :
    ∃ o, leadAt U right sep = some o ∧ ∀ lead ∈ o, LeadOf right lead := by
  unfold leadAt
  split
  · exact ⟨none, rfl, by simp⟩
  · next hmem =>
    dsimp only
    split
    · exact ⟨none, rfl, by simp⟩
    · generalize hhead : right.takeWhile (· ≠ sep) = head
      generalize htail : right.drop (head.length + 1) = tail
      have htext : right = head ++ sep :: tail := by
        have hcut := List.takeWhile_append_dropWhile (p := fun c => decide (c ≠ sep)) (l := right)
        rw [hhead] at hcut
        have hne : right.dropWhile (fun c => decide (c ≠ sep)) ≠ [] := by
          intro hnil
          have hall := List.dropWhile_eq_nil_iff.mp hnil sep (by simpa using hmem)
          simp at hall
        obtain ⟨c, u, hu⟩ := List.exists_cons_of_ne_nil hne
        have hc := List.head?_dropWhile_not (fun c => decide (c ≠ sep)) right
        rw [hu] at hc hcut
        have hcsep : c = sep := by simpa using hc
        rw [← hcut, hcsep, ← List.drop_drop, List.drop_left, List.drop_succ_cons,
          List.drop_zero] at htail
        rw [← hcut, hcsep, htail]
      obtain ⟨ent1, hent1, h1⟩ := entitySpan_within (U := U) (splitText head) .right
      obtain ⟨ent2, hent2, h2⟩ := entitySpan_within (U := U) (splitText tail) .right
      rw [hent1, Option.bind_some, hent2, Option.map_some]
      refine ⟨_, rfl, fun lead hlead => ?_⟩
      cases ent1 with
      | none => cases hlead
      | some e1 =>
        cases ent2 with
        | none => cases hlead
        | some e2 =>
          cases hlead
          exact ⟨⟨sep, hsep, htext⟩, h1 e1 rfl, h2 e2 rfl⟩

theorem findLead_spec (right : Text) {seps : List Char}
    (hseps : ∀ sep ∈ seps, sep = ',' ∨ sep = ':') :
    ∃ o, findLead U right seps = some o ∧ ∀ lead ∈ o, LeadOf right lead := by
  induction seps with
  | nil => exact ⟨none, rfl, by simp⟩
  | cons sep seps ih =>
    obtain ⟨o, ho, hlead⟩ := leadAt_spec (U := U) right (hseps sep List.mem_cons_self)
    rw [findLead, ho, Option.bind_some]
    cases o with
    | none => exact ih fun s hs => hseps s (List.mem_cons_of_mem _ hs)
    | some lead => exact ⟨some lead, rfl, hlead⟩

theorem splitText_strip (t : Text) : splitText (strip t) = splitText t := by
  obtain ⟨v, w, hv, hw, ht⟩ := strip_spec t
  conv_rhs => rw [ht]
  have hlast : ∀ c ∈ w.head?, isSpace c = true := fun c hc => hw c (List.mem_of_head? hc)
  rw [splitText, splitText, List.append_assoc, words_gap hv, words_append_of_head _ hlast,
    words_eq_nil.mpr hw, List.append_nil]

theorem isSpace_of_ciChar {p c : Char} (h : ciChar p c = true) (hp : isSpace p = false) :
    isSpace c = false := by
  simp only [ciChar, Bool.or_eq_true, Bool.and_eq_true, beq_iff_eq] at h
  rcases h with ((h | ⟨-, rfl⟩) | ⟨-, rfl⟩) | ⟨-, rfl | rfl⟩
  · by_contra hc
    rw [Bool.not_eq_false] at hc
    have hsame : c.toLower = c := by
      rw [Char.toLower, dif_neg]
      rintro ⟨hlo, hhi⟩
      have hlo' : 65 ≤ c.toNat := hlo
      have hhi' : c.toNat ≤ 90 := hhi
      simp only [isSpace, Bool.or_eq_true, Bool.and_eq_true, decide_eq_true_eq, beq_iff_eq] at hc
      omega
    rw [← h, hsame, hc] at hp
    cases hp
  · decide
  · decide
  · decide
  · decide

theorem Spells.not_space {w t : Text} (h : Spells w t) (hw : ∀ c ∈ w, isSpace c = false) :
    ∀ c ∈ t, isSpace c = false := by
  induction h with
  | nil => simp
  | cons hc _ ih =>
    intro d hd
    rcases List.mem_cons.mp hd with rfl | hd
    · exact isSpace_of_ciChar hc (hw _ List.mem_cons_self)
    · exact ih (fun e he => hw e (List.mem_cons_of_mem _ he)) d hd

theorem Spells.solid {w t : Text} (hw : w ∈ markerWords) (h : Spells w t) : Solid isSpace t := by
  have hwords : (markerWords.all fun w => !w.isEmpty && w.all fun c => !isSpace c) = true := by decide
  have hword := List.all_eq_true.mp hwords w hw
  simp only [Bool.and_eq_true, Bool.not_eq_true', List.isEmpty_eq_false_iff,
    List.all_eq_true] at hword
  obtain ⟨hne, hsolid⟩ := hword
  refine ⟨?_, h.not_space hsolid⟩
  rintro rfl
  cases h
  exact hne rfl

/-- The marker's word goes, and with it what stays beside the marker. -/
theorem trimmed_behind_marker {marker rest : Text} (hm : Solid isSpace marker)
    (hword : isGlue U (marker ++ rest.takeWhile (!isSpace ·)) = true)
    (hbeside : isGlue U (rest.takeWhile (!isSpace ·)) = true) :
    Trimmed U (splitText rest)
      (cleanEdge U (cleanEdge U (splitText (marker ++ rest)) .left) .right) := by
  unfold splitText
  rw [words_solid_append hm, cleanEdge_cons hword, words_takeWhile rest]
  refine (trimmed_cleaned _).front fun w hw => ?_
  have hsolid := solid_of_mem hw
  by_cases hnil : rest.takeWhile (!isSpace ·) = []
  · rw [hnil] at hw
    cases hw
  · rw [words_solid ⟨hnil, fun c hc => by simpa using List.mem_takeWhile_imp hc⟩,
      List.mem_singleton] at hw
    rwa [hw]

/-- A leg behind a leading marker. -/
theorem trimmed_leadLeg (ent : Text) {ws : List Text} {t : Text} (hws : ws.Sublist (splitText t)) :
    Trimmed U (splitText ent ++ ws) (splitText (leadLeg U ent (joinWords ws))) := by
  have hall : splitText (ent ++ ' ' :: joinWords ws) = splitText ent ++ ws := by
    rw [splitText, words_append_cons isSpace_blank]
    exact congrArg _ (splitText_joined hws)
  rw [leadLeg, splitText_joined (cleanEdge_sublist _ .left),
    splitText_joined (t := ent ++ ' ' :: joinWords ws)
      ((cleanEdge_sublist _ .right).trans (cleanEdge_sublist _ .left)), hall]
  exact trimmed_cleaned _

/-- Where the entities behind a leading marker stand. -/
structure LeadPlaces (right : Text) (lead : Lead) (h t : Span) : Prop where
  text : ∃ sep, (sep = ',' ∨ sep = ':') ∧ right = lead.head ++ sep :: lead.tail
  first : h.1 < h.2
  firstIn : h.2 ≤ lead.head.length
  start : ∀ c ∈ (lead.head.take h.1).getLast?, isSpace c = true
  second : t.1 < t.2
  secondIn : t.2 ≤ lead.tail.length
  stop : ∀ c ∈ (lead.tail.drop t.2).head?, isSpace c = true

namespace LeadPlaces

variable {right : Text} {lead : Lead} {h t : Span}

/-- What stands behind the marker and is no entity. -/
def rest (right : Text) (lead : Lead) (h t : Span) : Text :=
  right.take h.1 ++ (spanText right h.2 (lead.head.length + 1 + t.1) ++ lead.tail.drop t.2)

theorem drop_tail (hp : LeadPlaces right lead h t) :
    right.drop (lead.head.length + 1) = lead.tail := by
  obtain ⟨sep, -, htext⟩ := hp.text
  rw [htext, ← List.drop_drop, List.drop_left]
  rfl

theorem splitText_rest (hp : LeadPlaces right lead h t) : splitText (rest right lead h t) =
    splitText (right.take h.1) ++ (splitText (spanText right h.2 (lead.head.length + 1 + t.1)) ++
      splitText (lead.tail.drop t.2)) := by
  obtain ⟨sep, -, htext⟩ := hp.text
  have htake : right.take h.1 = lead.head.take h.1 := by
    rw [htext, List.take_append_of_le_length (hp.first.le.trans hp.firstIn)]
  unfold splitText rest
  rw [words_append_of_last (htake ▸ hp.start), words_append_of_head _ hp.stop]

variable {query : Text} {m : Span}

/-- The entities of the query. -/
def ent1 (m h : Span) : Span := (m.2 + h.1, m.2 + h.2)

def ent2 (m : Span) (lead : Lead) (t : Span) : Span :=
  (m.2 + (lead.head.length + 1) + t.1, m.2 + (lead.head.length + 1) + t.2)

theorem between_entities (query : Text) (m h t : Span) (lead : Lead) :
    spanText query (ent1 m h).2 (ent2 m lead t).1 =
      spanText (query.drop m.2) h.2 (lead.head.length + 1 + t.1) := by
  rw [spanText_drop, ent1, ent2, Nat.add_assoc m.2]

theorem behind_entities (hp : LeadPlaces (query.drop m.2) lead h t) :
    query.drop (ent2 m lead t).2 = lead.tail.drop t.2 := by
  rw [ent2, Nat.add_assoc, ← List.drop_drop, ← List.drop_drop, hp.drop_tail]

/-- The query without the entities. -/
theorem without_entities (hp : LeadPlaces (query.drop m.2) lead h t) (hm : m.1 ≤ m.2) :
    query.take (ent1 m h).1 ++ spanText query (ent1 m h).2 (ent2 m lead t).1 ++
        query.drop (ent2 m lead t).2 =
      query.take m.1 ++ (spanText query m.1 m.2 ++ rest (query.drop m.2) lead h t) := by
  have hfirst : query.take (ent1 m h).1 =
      query.take m.1 ++ (spanText query m.1 m.2 ++ (query.drop m.2).take h.1) := by
    rw [← List.append_assoc, take_append_spanText hm, ent1, List.take_add]
  rw [hfirst, between_entities, hp.behind_entities, rest]
  simp only [List.append_assoc]

theorem remaining_rest (hp : LeadPlaces (query.drop m.2) lead h t)
    (hblank : splitText (query.take m.1) = []) :
    remaining query 0 [m, ent1 m h, ent2 m lead t] =
      splitText (rest (query.drop m.2) lead h t) := by
  have hzero : spanText query 0 m.1 = query.take m.1 := List.drop_zero
  have hone : spanText query m.2 (ent1 m h).1 = (query.drop m.2).take h.1 :=
    (spanText_drop query m.2 0 h.1).symm.trans List.drop_zero
  simp only [remaining]
  rw [hzero, hblank, List.nil_append, hone, between_entities, hp.behind_entities, hp.splitText_rest]

theorem length_right (hp : LeadPlaces right lead h t) :
    right.length = lead.head.length + 1 + lead.tail.length := by
  obtain ⟨sep, -, htext⟩ := hp.text
  rw [htext, List.length_append, List.length_cons, Nat.add_right_comm, Nat.add_assoc]

/-- Both legs keep the query without the marker and without the other entity. -/
theorem behind (hp : LeadPlaces (query.drop m.2) lead h t) (hm : IsMarker U query m)
    (hblank : splitText (query.take m.1) = []) {beside : Text}
    (hbeside : (rest (query.drop m.2) lead h t).takeWhile (!isSpace ·) = beside)
    (hglue : isGlue U (spanText query m.1 m.2 ++ beside) = true ∧ isGlue U beside = true)
    {shared a b : Text}
    (hshared : shared = joinWords (cleanEdge U (cleanEdge U (splitText (strip
      (query.take (ent1 m h).1 ++ spanText query (ent1 m h).2 (ent2 m lead t).1 ++
        query.drop (ent2 m lead t).2))) .left) .right))
    (ha : a = leadLeg U (spanText query (ent1 m h).1 (ent1 m h).2) shared)
    (hb : b = leadLeg U (spanText query (ent2 m lead t).1 (ent2 m lead t).2) shared) :
    Behind (TrimmedShared U) query a b m (ent1 m h) (ent2 m lead t) := by
  obtain ⟨w, hw, hspells⟩ := hm.spells
  have htrimmed := trimmed_behind_marker (hspells.solid hw) (hbeside ▸ hglue.1) (hbeside ▸ hglue.2)
  have hgap : splitText (query.take m.1 ++
      (spanText query m.1 m.2 ++ rest (query.drop m.2) lead h t)) =
      splitText (spanText query m.1 m.2 ++ rest (query.drop m.2) lead h t) :=
    words_gap (words_eq_nil.mp hblank) _
  rw [splitText_strip, hp.without_entities hm.proper.le, hgap] at hshared
  have hlength := hp.length_right
  have hin := hm.inside
  have hfirstIn := hp.firstIn
  have hsecondIn := hp.secondIn
  rw [List.length_drop] at hlength
  constructor
  case leading => exact hblank
  case marker => exact Nat.le_add_right _ _
  case first => exact Nat.add_lt_add_left hp.first _
  case separator =>
    obtain ⟨sep, hsep, htext⟩ := hp.text
    have hat : query[m.2 + lead.head.length]? = some sep := by
      rw [← List.getElem?_drop, htext, List.getElem?_append_right Nat.le.refl, Nat.sub_self]
      rfl
    refine ⟨m.2 + lead.head.length, Nat.add_le_add_left hfirstIn _, ?_, ?_⟩
    · dsimp only [ent2]
      omega
    · rw [hat]
      exact hsep.imp (congrArg some) (congrArg some)
  case second => exact Nat.add_lt_add_left hp.second _
  case inside =>
    dsimp only [ent2]
    omega
  case left =>
    rw [hp.remaining_rest hblank, ha, hshared]
    exact ⟨_, htrimmed, trimmed_leadLeg _ (cleaned_sublist _)⟩
  case right =>
    rw [hp.remaining_rest hblank, hb, hshared]
    exact ⟨_, htrimmed, trimmed_leadLeg _ (cleaned_sublist _)⟩

end LeadPlaces

/-- Two legs or none behind a leading marker. -/
theorem splitTopPlaced_spec {query : Text} {m : Span} (hm : IsMarker U query m)
    (hblank : splitText (query.take m.1) = []) :
    ∃ o, splitTopPlaced U query m = some o ∧ ∀ a b, o = some (a, b) → Legs U a b ∧
      ∃ lead, findLead U (query.drop m.2) [',', ':'] = some (some lead) ∧
        (find (query.drop m.2) lead.tail 0 = some (lead.head.length + 1) →
          (∀ w ∈ besideMarker (query.drop m.2) lead,
            isGlue U (spanText query m.1 m.2 ++ w) = true ∧ isGlue U w = true) →
          ∃ e1 e2, Behind (TrimmedShared U) query a b m e1 e2) := by
  unfold splitTopPlaced
  dsimp only
  obtain ⟨o, ho, hlead⟩ :=
    findLead_spec (U := U) (query.drop m.2) (show ∀ sep ∈ [',', ':'], sep = ',' ∨ sep = ':' by simp)
  rw [ho, Option.bind_some]
  cases o with
  | none => exact ⟨none, rfl, by simp⟩
  | some lead =>
    obtain ⟨⟨sep, hsep, htext⟩, ⟨h1lt, h1le⟩, ⟨h2lt, h2le⟩⟩ := hlead lead rfl
    obtain ⟨hSpans, hs, he, hlocate1, hcover1, hlt1, hin1, hstart, -⟩ :=
      locate_cover (sep :: lead.tail) h1lt h1le
    obtain ⟨tSpans, ts, te, hlocate2, hcover2, hlt2, hin2, -, hstop⟩ :=
      locate_cover [] h2lt h2le
    rw [List.append_nil] at hlocate2
    rw [← htext] at hlocate1
    obtain ⟨tailAt, hfind⟩ : ∃ i, find (query.drop m.2) lead.tail 0 = some i := by
      obtain ⟨i, hi⟩ := findAt_infix lead.tail (lead.head ++ [sep]) [] 0
      refine ⟨i, ?_⟩
      rw [find, if_pos (Nat.zero_le _), List.drop_zero, ← hi, htext]
      simp
    dsimp only
    rw [hlocate1, Option.bind_some, hfind, Option.bind_some, hlocate2, Option.bind_some, hcover1,
      Option.bind_some, hcover2, Option.map_some]
    refine ⟨_, rfl, fun a b hlegs => ?_⟩
    obtain ⟨ha, hb, hab⟩ := legs_some hlegs
    refine ⟨hab, lead, rfl, fun htail hbeside => ?_⟩
    obtain rfl : tailAt = lead.head.length + 1 := Option.some.inj (hfind.symm.trans htail)
    have hp : LeadPlaces (query.drop m.2) lead (hs, he) (ts, te) :=
      ⟨⟨sep, hsep, htext⟩, hlt1, hin1, hstart, hlt2, hin2, hstop⟩
    have hglue := hbeside _ (by
      rw [besideMarker, hlocate1, Option.bind_some, hlocate2, Option.bind_some, hcover1,
        Option.bind_some, hcover2, Option.map_some]
      rfl)
    exact ⟨_, _, hp.behind hm hblank rfl hglue rfl ha hb⟩

/-! ### The paths of a query -/

/-- What a comparison gives. -/
def Compared (U : CharTables) (query : Text) (o : Option (Text × Text)) : Prop :=
  ∀ a b, o = some (a, b) → Legs U a b ∧
    (astray U query = false → Removes U (TrimmedShared U) query a b)

theorem compared_none (U : CharTables) (query : Text) : Compared U query none := by
  intro a b h
  cases h

theorem splitOnMarker_compared {query : Text} {m : Span} (hm : IsMarker U query m) :
    ∃ o, splitOnMarker U query m = some o ∧ Compared U query o := by
  obtain ⟨o, ho, hlegs⟩ := splitOnMarker_spec (U := U) hm.proper hm.inside
  refine ⟨o, ho, fun a b hab => ?_⟩
  obtain ⟨hl, e1, e2, haround⟩ := hlegs a b hab
  exact ⟨hl, fun _ => ⟨m, e1, e2, hm, .inl haround⟩⟩

theorem splitTopPlaced_compared {query : Text} {m : Span} (hm : IsMarker U query m)
    (hfirst : firstSpan (versusRe U) query = some m) (hblank : splitText (query.take m.1) = []) :
    ∃ o, splitTopPlaced U query m = some o ∧ Compared U query o := by
  obtain ⟨o, ho, hlegs⟩ := splitTopPlaced_spec hm hblank
  refine ⟨o, ho, fun a b hab => ?_⟩
  obtain ⟨hl, lead, hlead, hbehind⟩ := hlegs a b hab
  refine ⟨hl, fun hastray => ?_⟩
  simp only [astray, hfirst, hblank, Option.filter_some, List.isEmpty_nil, if_true, hlead,
    Bool.or_eq_false_iff, decide_eq_false_iff_not, not_not, Option.any_eq_false] at hastray
  obtain ⟨htail, hmarker⟩ := hastray
  obtain ⟨e1, e2, h⟩ := hbehind htail fun w hw => by
    simpa using hmarker w hw
  exact ⟨m, e1, e2, hm, .inr h⟩

theorem firstPair_compared {query : Text} {ms : List Span} (hms : ∀ m ∈ ms, IsMarker U query m) :
    ∃ o, firstPair U query ms = some o ∧ Compared U query o := by
  induction ms with
  | nil => exact ⟨none, rfl, compared_none U query⟩
  | cons m ms ih =>
    have hnext := ih fun m' hm' => hms m' (List.mem_cons_of_mem _ hm')
    obtain ⟨o, ho, hcompared⟩ := splitOnMarker_compared (hms m List.mem_cons_self)
    unfold firstPair
    split
    · split
      · rw [ho, Option.bind_some]
        cases o with
        | none => exact hnext
        | some subs => exact ⟨some subs, rfl, hcompared⟩
      · exact hnext
    · exact hnext

theorem isMarker_and {query : Text} {m : Span} (h : m ∈ spans (andRe U) query) :
    IsMarker U query m := (marks_word (by decide)).isMarker h

/-- An `and` in the text between two edges. -/
theorem isMarker_and_between {query : Text} {b e : Nat} {m : Span} (hbe : b ≤ e)
    (he : e ≤ query.length) (hb : edgeAt U query b) (hend : e = query.length ∨ edgeAt U query e)
    (h : firstSpan (andRe U) (spanText query b e) = some m) : IsMarker U query (shifted b m) :=
  (isMarker_and (firstSpan_mem h)).shifted hbe he hb hend

/-- The group of `betweenAndRe` stands between edges. -/
theorem betweenAndRe_group {query : Text} {m : Span} (h : m ∈ spans (betweenAndRe U) query) :
    m.1 + 7 ≤ m.2 - 3 ∧ m.2 - 3 ≤ query.length ∧ edgeAt U query (m.1 + 7) ∧
      edgeAt U query (m.2 - 3) := by
  obtain ⟨hle, hin, hrun⟩ := mem_spans h
  obtain ⟨a, ha, hrun⟩ := mem_runs_seq.mp hrun
  obtain ⟨b, hb, hrun⟩ := mem_runs_seq.mp hrun
  obtain ⟨e, he, hrun⟩ := mem_runs_seq.mp hrun
  obtain rfl := List.mem_singleton.mp hrun
  obtain ⟨-, hword, hafter⟩ := runs_wholeWord ha
  obtain ⟨hbefore, hand, -⟩ := runs_wholeWord he
  obtain ⟨t, ht, htSpells⟩ := runs_wordCi hword
  obtain ⟨v, hv⟩ := runs_along _ a b hb
  obtain ⟨u, hu, huSpells⟩ := runs_wordCi hand
  have htLen : t.length = 7 := htSpells.length_eq.symm
  have huLen : u.length = 3 := huSpells.length_eq.symm
  have hall := congrArg List.length ((ht.trans hv).trans hu).rest
  simp only [List.length_append, List.length_drop, htLen, huLen] at hall
  have hend : m.1 + 7 + v.length = m.2 - 3 := by omega
  rw [ht.place, htLen] at hafter hv
  rw [hv.place, hend] at hbefore
  exact ⟨by omega, by omega, edgeHere_place.mp hafter, edgeHere_place.mp hbefore⟩

theorem comparativePaths_compared (query : Text) :
    ∃ o, comparativePaths U query = some o ∧ Compared U query o := by
  have hnone : ∃ o, (some none : Option (Option (Text × Text))) = some o ∧ Compared U query o :=
    ⟨none, rfl, compared_none U query⟩
  unfold comparativePaths
  split
  · next m hm =>
    have hmarker := marks_versusRe.isMarker (firstSpan_mem hm)
    split
    · next hblank => exact splitTopPlaced_compared hmarker hm hblank
    · exact splitOnMarker_compared hmarker
  · split
    · next m hm =>
      obtain ⟨hle, hin, hrun⟩ := mem_spans (firstSpan_mem hm)
      have hedge := edgeHere_place.mp (runs_wholeWord hrun).2.2
      split
      · next am ham =>
        have htail : query.drop m.2 = spanText query m.2 query.length := by
          rw [spanText, List.take_length]
        rw [htail] at ham
        exact splitOnMarker_compared (isMarker_and_between hin Nat.le.refl hedge (.inl rfl) ham)
      · exact hnone
    · split
      · next m hm =>
        obtain ⟨hle, hin, hstart, hstop⟩ :=
          betweenAndRe_group (firstSpan_mem (Option.filter_eq_some_iff.mp hm).1)
        dsimp only
        split
        · next am ham =>
          exact splitOnMarker_compared (isMarker_and_between hle hin hstart (.inr hstop) ham)
        · exact hnone
      · split
        · refine firstPair_compared fun m hm => ?_
          rcases List.mem_append.mp hm with hm | hm
          · exact isMarker_and hm
          · exact (marks_word (by decide)).isMarker hm
        · exact hnone

theorem diagnosticPaths_mode (query : Text) (ids : QueryIdentifiers) (enabled : Bool) :
    (diagnosticPaths U query ids enabled).2 ≠ .comparative := by
  unfold diagnosticPaths
  dsimp only
  split
  · intro h
    cases h
  · intro h
    cases h

/-- Every query gets an answer. The legs of a comparison are long enough and differ, and unless a
leading marker leads astray each of them is the query without the marker and without the other
entity. -/
theorem splitQuery_removes (U : CharTables) (S : CharData) (query : Text)
    (comparativeEnabled diagnosticEnabled : Bool) :
    ∃ r, splitQuery U S query comparativeEnabled diagnosticEnabled = some r ∧
      (r.2 = .comparative → ∃ a b, r.1 = [a, b] ∧ Legs U a b ∧
        (astray U query = false → Removes U (TrimmedShared U) query a b)) := by
  have hsingle : ∃ r : List Text × Mode, some ([query], Mode.single) = some r ∧
      (r.2 = .comparative → ∃ a b, r.1 = [a, b] ∧ Legs U a b ∧
        (astray U query = false → Removes U (TrimmedShared U) query a b)) :=
    ⟨_, rfl, by simp⟩
  unfold splitQuery
  split
  · exact hsingle
  · split
    · exact hsingle
    · obtain ⟨o, ho, hcompared⟩ : ∃ o, (if comparativeEnabled &&
          (parseQuery U query).docIds.isEmpty && (parseQuery U query).messageIds.isEmpty then
            comparativePaths U query else some none) = some o ∧ Compared U query o := by
        split
        · exact comparativePaths_compared query
        · exact ⟨none, rfl, compared_none U query⟩
      dsimp only
      rw [ho, Option.map_some]
      cases o with
      | none => exact ⟨_, rfl, fun h => absurd h (diagnosticPaths_mode _ _ _)⟩
      | some subs =>
        obtain ⟨hlegs, hremoves⟩ := hcompared subs.1 subs.2 rfl
        exact ⟨_, rfl, fun _ => ⟨subs.1, subs.2, rfl, hlegs, hremoves⟩⟩

/-- A kept word is in front of a word that is not kept, or behind it. -/
theorem Trimmed.beside {front back kept : List Text} {w : Text}
    (h : Trimmed U (front ++ w :: back) kept) (hw : w ∉ kept) : kept ⊆ front ∨ kept ⊆ back := by
  obtain ⟨cutFront, cutBack, htext, -, -⟩ := h
  rw [List.append_assoc] at htext
  rcases List.append_eq_append_iff.mp htext with ⟨l, hcut, hback⟩ | ⟨l, hfront, hback⟩
  · cases l with
    | nil =>
      cases kept with
      | nil => exact .inl (List.nil_subset _)
      | cons k kept =>
        rw [List.nil_append, List.cons_append] at hback
        cases (List.cons.inj hback).1
        exact absurd List.mem_cons_self hw
    | cons v l =>
      obtain ⟨-, hl⟩ := List.cons.inj hback
      rw [hl]
      exact .inr fun k hk => List.mem_append_right _ (List.mem_append_left _ hk)
  · rcases List.append_eq_append_iff.mp hback with ⟨j, hj, -⟩ | ⟨j, hj, hrest⟩
    · rw [hfront, hj]
      exact .inl fun k hk => List.mem_append_right _ (List.mem_append_left _ hk)
    · cases j with
      | nil =>
        rw [hfront, hj, List.append_nil]
        exact .inl (List.subset_append_right _ _)
      | cons v j =>
        cases (List.cons.inj hrest).1
        exact absurd (hj ▸ List.mem_append_right l List.mem_cons_self) hw

/-! ### A separator that is dropped -/

def commaQuery : Text := "Versus JES3, JES2 spool".toList

theorem commaQuery_split : splitQuery asciiTables Screen.plainData commaQuery true true =
    some (["JES3 spool".toList, "JES2 spool".toList], .comparative) := by
  have hread : ∀ glue ∈ Screen.glues, Screen.normalize Screen.plainData commaQuery glue =
      "versus jes3 jes2 spool".toList := by
    decide +kernel
  have hpass : ∀ rx ∈ Screen.trapRes Screen.plainData,
      search rx "versus jes3 jes2 spool".toList = false := by
    intro rx hrx
    iterate 13
      rcases List.mem_cons.mp hrx with rfl | hrx
      · decide +kernel
    cases hrx
  have hscreen := Screen.screenQuery_answerable (hread [] (by decide)) (hread [' '] (by decide))
    fun rx hrx => ⟨hpass rx hrx, hpass rx hrx⟩
  unfold splitQuery
  rw [if_neg (by decide +kernel), hscreen, if_neg (by decide)]
  decide +kernel

/-- The only marker is the first word. -/
theorem commaQuery_marker {m : Span} (h : IsMarker asciiTables commaQuery m) : m = (0, 6) := by
  have hall : (List.range 24).all (fun s => (List.range 24).all fun e =>
      !(markerWords.any fun w => decide (Spells w (spanText commaQuery s e))) || (s = 0 && e = 6)) =
        true := by
    decide +kernel
  obtain ⟨w, hw, hspells⟩ := h.spells
  have hlt := h.proper
  have hin : m.2 ≤ 23 := h.inside
  have hm := List.all_eq_true.mp (List.all_eq_true.mp hall m.1 (List.mem_range.mpr (by omega))) m.2
    (List.mem_range.mpr (by omega))
  have hany : (markerWords.any fun w => decide (Spells w (spanText commaQuery m.1 m.2))) = true :=
    List.any_eq_true.mpr ⟨w, hw, decide_eq_true hspells⟩
  rw [hany] at hm
  simp only [Bool.not_true, Bool.false_or, Bool.and_eq_true, decide_eq_true_eq] at hm
  exact Prod.ext hm.1 hm.2

theorem commaQuery_separator {i : Nat}
    (h : commaQuery[i]? = some ',' ∨ commaQuery[i]? = some ':') : i = 11 := by
  have hall : (List.range 23).all (fun i =>
      !(commaQuery[i]? = some ',' || commaQuery[i]? = some ':') || i = 11) = true := by decide
  have hi : i < 23 := by
    rcases h with h | h
    · exact (List.getElem?_eq_some_iff.mp h).1
    · exact (List.getElem?_eq_some_iff.mp h).1
  have hm := List.all_eq_true.mp hall i (List.mem_range.mpr hi)
  simp only [Bool.or_eq_true, Bool.not_eq_true', Bool.or_eq_false_iff, decide_eq_false_iff_not,
    decide_eq_true_eq] at hm
  exact hm.resolve_left fun hno => h.elim hno.1 hno.2

/-- The comma between the entities is dropped, though it stands inside the leg. -/
theorem comma_dropped : ∃ a b, splitQuery asciiTables Screen.plainData commaQuery true true =
    some ([a, b], .comparative) ∧
      ¬ Removes asciiTables (TrimmedWhole asciiTables) commaQuery a b := by
  refine ⟨_, _, commaQuery_split, ?_⟩
  rintro ⟨m, e1, e2, hm, h⟩
  obtain rfl := commaQuery_marker hm
  rcases h with h | h
  · have hfirst := h.first
    have hbefore := h.before
    omega
  · obtain ⟨i, hi1, hi2, hsep⟩ := h.separator
    obtain rfl := commaQuery_separator hsep
    have hin : e2.2 ≤ 23 := h.inside
    have hsecond := h.second
    have hpiece : spanText commaQuery e1.2 e2.1 =
        spanText commaQuery e1.2 11 ++ ',' :: spanText commaQuery 12 e2.1 := by
      have hcomma : spanText commaQuery 11 12 = [','] := by decide
      rw [← spanText_append hi1 hi2.le, ← spanText_append (Nat.le_succ 11) hi2, hcomma]
      rfl
    obtain ⟨front, w, back, hwords, hw, hfront, hback⟩ :=
      words_around (show isSpace ',' = false by decide) (spanText commaQuery e1.2 11)
        (spanText commaQuery 12 e2.1)
    let before := splitText (spanText commaQuery e1.1 e1.2) ++ (splitText (spanText commaQuery 0 0) ++
      (splitText (spanText commaQuery 6 e1.1) ++ front))
    let behind := back ++ splitText (commaQuery.drop e2.2)
    have hlist : splitText (spanText commaQuery e1.1 e1.2) ++
        remaining commaQuery 0 [(0, 6), e1, e2] =
        before ++ w :: behind := by
      have hsplit : splitText (spanText commaQuery e1.2 e2.1) = front ++ w :: back :=
        (congrArg splitText hpiece).trans hwords
      simp only [remaining, before, behind, hsplit, List.append_assoc, List.cons_append]
    have hleft : Trimmed asciiTables (before ++ w :: behind) (splitText "JES3 spool".toList) :=
      hlist ▸ h.left
    have hkept : w ∉ splitText "JES3 spool".toList := by
      intro hmem
      have hcomma : ',' ∉ "JES3 spool".toList := by decide
      exact hcomma (mem_of_mem_words hmem hw)
    rcases hleft.beside hkept with hsub | hsub
    · have hmem := hsub (show "spool".toList ∈ splitText "JES3 spool".toList by decide)
      have hfar : 'p' ∉ commaQuery.take 11 := by decide
      refine hfar ?_
      rcases List.mem_append.mp hmem with hmem | hmem
      · exact List.take_subset_take_left _ hi1
          (mem_of_mem_spanText (mem_of_mem_words hmem (by decide)))
      rcases List.mem_append.mp hmem with hmem | hmem
      · cases hmem
      rcases List.mem_append.mp hmem with hmem | hmem
      · exact List.take_subset_take_left _ (h.first.le.trans hi1)
          (mem_of_mem_spanText (mem_of_mem_words hmem (by decide)))
      · exact mem_of_mem_spanText (hfront _ hmem _ (by decide))
    · have hmem := hsub (show "JES3".toList ∈ splitText "JES3 spool".toList by decide)
      have hfar : '3' ∉ commaQuery.drop 12 := by decide
      refine hfar ?_
      rcases List.mem_append.mp hmem with hmem | hmem
      · have hin := hback _ hmem '3' (by decide)
        rw [spanText, List.drop_take] at hin
        exact List.mem_of_mem_take hin
      · have hin := mem_of_mem_words hmem (show '3' ∈ "JES3".toList by decide)
        have hle : 12 ≤ e2.2 := by omega
        exact List.drop_subset_drop_left _ hle hin

end

end MainframeRag.Retrieve.Split
