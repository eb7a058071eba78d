import MainframeRag.Lib.Words
import MainframeRag.Retrieve.ParseQuery
import MainframeRag.Retrieve.Screen

/-!
# Query splitting

`retrieve/split.py`: one query as two retrieval paths. A comparison is cut at its marker, and each
leg keeps the query without the marker and without the other entity.

`none` of a result is an index out of range or a search that finds nothing. The entities of a side
are spans inside it (`entitySpan_within`, `mirroredContextSpans_within`), so their words are found.
-/

namespace MainframeRag.Retrieve.Split

open PyText Regex Regex.Pattern Words
open Agent (lit wordCi wordEdge blanks blanks1 atEnd)
open Screen (CharData screenQuery)

abbrev Span := Nat × Nat

/-- `text.split()` -/
def splitText (t : Text) : List Text := words isSpace t

/-- `" ".join(ws)` -/
def joinWords (ws : List Text) : Text := List.intercalate [' '] ws

/-! ## Tokens -/

/-- `_COMPARE_WORDS` -/
def compareWords : List Text :=
  ["compare", "compares", "compared", "comparing", "comparison", "versus", "vs", "difference",
    "differences", "between"].map String.toList

/-- `_ARTICLES` -/
def articles : List Text := ["the", "a", "an"].map String.toList

/-- `_QUESTION_WORDS` -/
def questionWords : List Text :=
  ["what", "which", "when", "how", "why", "where", "who", "whom", "whose", "is", "are", "was",
    "were", "does", "do", "did", "each", "it", "this", "that", "these", "those"].map String.toList

def tokenFormat : Text := "\"'\x60*~_#>()[]\x7b\x7d|\\.,:;?!".toList

/-- `_strip_token` -/
def stripToken (token : Text) : Text :=
  let format := fun c => tokenFormat.contains c
  ((token.dropWhile format).reverse.dropWhile format).reverse

section

variable (U : CharTables)

/-- `_is_entity_token` -/
def isEntityToken (token : Text) : Bool :=
  let core := stripToken token
  2 ≤ core.length && core.length ≤ 2 * core.countP fun c => U.isUpper c || U.isDigit c

/-- Only formatting, or a comparison word. -/
def isGlue (token : Text) : Bool :=
  (stripToken token).isEmpty || compareWords.contains (U.lower (stripToken token))

inductive Side
  | left
  | right

/-- `_clean_edge` -/
def cleanEdge (ws : List Text) : Side → List Text
  | .left => ws.dropWhile (isGlue U)
  | .right => (ws.reverse.dropWhile (isGlue U)).reverse

def isArticle (token : Text) : Bool := articles.contains (U.lower (stripToken token))

/-! ## Entities -/

/-- `_WORD_NUM_RE` -/
def wordNumRe : Pattern Char := row [plus (one Char.isAlpha), blanks1, plus (one U.isDecimal), atEnd]

/-- `_finish` of `_entity_span` -/
def finishSpan (ws : List Text) (span : Span) : Option (Option Span) :=
  if (spanText ws span.1 span.2).all (isGlue U) then some none
  else if span.2 - span.1 = 1 then
    ws[span.1]?.map fun w =>
      let core := U.lower (stripToken w)
      if questionWords.contains core || articles.contains core then none else some span
  else some (some span)

/-- A word and its number. -/
def numbered (ws : List Text) (i : Nat) : Option Bool :=
  ws[i]?.bind fun word => ws[i + 1]?.map fun number =>
    ((wordNumRe U).matchStart (stripToken word ++ ' ' :: stripToken number)).isSome

/-- The entity at a word that may have a neighbour, which starts the pair of them. -/
def spanAt (ws : List Text) (idx : Nat) : Option Nat → Option (Option Span)
  | none => finishSpan U ws (idx, idx + 1)
  | some pair =>
    (numbered U ws pair).bind fun isPair => ws[idx]?.bind fun w =>
      if isPair then finishSpan U ws (pair, pair + 2)
      else if isEntityToken U w then finishSpan U ws (idx, idx + 1)
      else finishSpan U ws (pair, pair + 2)

/-- `_entity_span` -/
def entitySpan (ws : List Text) : Side → Option (Option Span)
  | .left =>
    if ws = [] then some none
    else
      let last := ws.length - 1
      ws[last]?.bind fun w =>
        if stripToken w = [] then some none
        else
          let idx := if isArticle U w && 0 < last then last - 1 else last
          spanAt U ws idx (if 1 ≤ idx then some (idx - 1) else none)
  | .right =>
    if ws = [] then some none
    else
      ws[0]?.bind fun w =>
        if stripToken w = [] then some none
        else
          let idx := if isArticle U w && 1 < ws.length then 1 else 0
          spanAt U ws idx (if idx + 1 < ws.length then some idx else none)

/-- How far two lists agree. -/
def agreement : List Text → List Text → Nat
  | a :: as, b :: bs => if a = b then agreement as bs + 1 else 0
  | _, _ => 0

/-- Two windows that agree at an end, and differ somewhere. -/
def mirrors (a b : List Text) : Bool :=
  let n := a.length
  let p := agreement a b
  let s := min (n - p) (agreement a.reverse b.reverse)
  0 < p + s && p + s < n

/-- `_mirrored_context_spans` -/
def mirroredContextSpans (leftWords rightWords : List Text) :
    Option Span → Option Span → Option (Option (Span × Span))
  | some leftEnt, some rightEnt =>
    let left := leftWords.map fun w => U.lower (stripToken w)
    let right := rightWords.map fun w => U.lower (stripToken w)
    let sizes := (List.range' 2 (min left.length right.length - 1)).reverse
    match sizes.find? fun n => mirrors (left.drop (left.length - n)) (right.take n) with
    | some n => some (some ((left.length - n, left.length), (0, n)))
    | none =>
      if rightEnt.2 - rightEnt.1 = 1 ∧ 2 ≤ leftEnt.2 - leftEnt.1 ∧ leftEnt.2 = leftWords.length ∧
          1 ≤ leftEnt.1 then
        leftWords[leftEnt.1 - 1]?.map fun w =>
          let n := leftWords.length - leftEnt.1 + 1
          if isEntityToken U w && rightEnt.1 + n ≤ rightWords.length then
            some ((leftEnt.1 - 1, leftWords.length), (rightEnt.1, rightEnt.1 + n))
          else none
      else some none
  | _, _ => some none

/-! ## Cutting -/

/-- `_MIN_PATH_CHARS` -/
def minPathChars : Nat := 3

/-- What stands between cuts. -/
def pieces (query : Text) : Nat → List Span → List Text
  | pos, [] => [query.drop pos]
  | pos, cut :: cuts => spanText query pos cut.1 :: pieces query cut.2 cuts

/-- `_drop` of `_build_removal_subs` -/
def dropSpans (query : Text) (marker : Span) (spans : List Span) : Text :=
  let cuts := (marker :: spans).insertionSort fun a b => toLex a ≤ toLex b
  let text := splitText (joinWords (splitText (joinWords (pieces query 0 cuts))))
  joinWords (cleanEdge U (cleanEdge U text .left) .right)

/-- Both legs, if they are long enough and differ. -/
def legs (sub1 sub2 : Text) : Option (Text × Text) :=
  if minPathChars ≤ sub1.length ∧ minPathChars ≤ sub2.length ∧ U.lower sub1 ≠ U.lower sub2 then
    some (sub1, sub2)
  else none

/-- `_build_removal_subs` -/
def buildRemovalSubs (query : Text) (marker : Span) :
    Option Span → Option Span → Option (Option (Text × Text))
  | some leftEnt, some rightEnt =>
    let leftPart := query.take marker.1
    let rightPart := query.drop marker.2
    (locate leftPart 0 (splitText leftPart)).bind fun lSpans =>
    (locate rightPart 0 (splitText rightPart)).bind fun rSpans =>
    (cover lSpans leftEnt).bind fun le => (cover rSpans rightEnt).map fun re =>
      let sub1 := dropSpans U query marker [(marker.2 + re.1, marker.2 + re.2)]
      let sub2 := dropSpans U query marker [le]
      legs U sub1 sub2
  | _, _ => some none

/-- What stands before and behind the separator of a leading marker, and the entities there. -/
structure Lead where
  head : Text
  tail : Text
  ent1 : Span
  ent2 : Span

/-- One separator of `_split_top_placed`. -/
def leadAt (right : Text) (sep : Char) : Option (Option Lead) :=
  if !right.contains sep then some none
  else
    let head := right.takeWhile (· ≠ sep)
    let tail := right.drop (head.length + 1)
    if splitText head = [] ∨ splitText tail = [] then some none
    else
      (entitySpan U (splitText head) .right).bind fun ent1 =>
      (entitySpan U (splitText tail) .right).map fun ent2 =>
        match ent1, ent2 with
        | some ent1, some ent2 => some ⟨head, tail, ent1, ent2⟩
        | _, _ => none

def findLead (right : Text) : List Char → Option (Option Lead)
  | [] => some none
  | sep :: seps => (leadAt U right sep).bind fun
    | some lead => some (some lead)
    | none => findLead right seps

/-- An entity in front of the shared words. -/
def leadLeg (ent shared : Text) : Text :=
  let sub := joinWords (cleanEdge U (splitText (ent ++ ' ' :: shared)) .left)
  joinWords (cleanEdge U (splitText sub) .right)

/-- `_split_top_placed` -/
def splitTopPlaced (query : Text) (marker : Span) : Option (Option (Text × Text)) :=
  let right := query.drop marker.2
  (findLead U right [',', ':']).bind fun
    | none => some none
    | some lead =>
      let base := marker.2
      (locate right 0 (splitText lead.head)).bind fun hSpans =>
      (find right lead.tail 0).bind fun tailAt =>
      (locate lead.tail 0 (splitText lead.tail)).bind fun tSpans =>
      (cover hSpans lead.ent1).bind fun h => (cover tSpans lead.ent2).map fun t =>
        let tBase := base + tailAt
        let e1 := (base + h.1, base + h.2)
        let e2 := (tBase + t.1, tBase + t.2)
        let shared := strip (query.take e1.1 ++ spanText query e1.2 e2.1 ++ query.drop e2.2)
        let shared := joinWords (cleanEdge U (cleanEdge U (splitText shared) .left) .right)
        legs U (leadLeg U (spanText query e1.1 e1.2) shared)
          (leadLeg U (spanText query e2.1 e2.2) shared)

/-- `_split_on_marker` -/
def splitOnMarker (query : Text) (marker : Span) : Option (Option (Text × Text)) :=
  let leftWords := splitText (query.take marker.1)
  let rightWords := splitText (query.drop marker.2)
  if leftWords = [] ∨ rightWords = [] then some none
  else
    (entitySpan U leftWords .left).bind fun leftEnt =>
    (entitySpan U rightWords .right).bind fun rightEnt =>
    (mirroredContextSpans U leftWords rightWords leftEnt rightEnt).bind fun
      | some mirrored => buildRemovalSubs U query marker (some mirrored.1) (some mirrored.2)
      | none => buildRemovalSubs U query marker leftEnt rightEnt

/-! ## Markers -/

/-- `_VERSUS_RE` -/
def versusRe : Pattern Char :=
  alt (wholeWord U (wordCi "versus")) (wholeWord U (seq (wordCi "vs") (opt (lit "."))))

/-- `_DIFF_BETWEEN_RE` -/
def diffBetweenRe : Pattern Char :=
  wholeWord U (row [wordCi "difference", opt (wordCi "s"), blanks1, wordCi "between"])

/-- `_COMPARE_RE` -/
def compareRe : Pattern Char :=
  wholeWord U (seq (wordCi "compar") (anyWordCi ["e", "es", "ed", "ing", "ison"]))

/-- `\band\b` and `\bor\b` -/
def andRe : Pattern Char := wholeWord U (wordCi "and")

def orRe : Pattern Char := wholeWord U (wordCi "or")

/-- `_BETWEEN_AND_RE` -/
def betweenAndRe : Pattern Char :=
  row [wholeWord U (wordCi "between"), lazyPlus (one fun _ => true), andRe U]

def shifted (base : Nat) (m : Span) : Span := (base + m.1, base + m.2)

/-- The first of the words between two entities that splits the query. -/
def firstPair (query : Text) : List Span → Option (Option (Text × Text))
  | [] => some none
  | m :: ms =>
    match (splitText (query.take m.1)).getLast?, (splitText (query.drop m.2)).head? with
    | some left, some right =>
      if isEntityToken U left && isEntityToken U right then
        (splitOnMarker U query m).bind fun
          | some subs => some (some subs)
          | none => firstPair query ms
      else firstPair query ms
    | _, _ => firstPair query ms

/-- `_comparative_paths` -/
def comparativePaths (query : Text) : Option (Option (Text × Text)) :=
  match firstSpan (versusRe U) query with
  | some m =>
    if splitText (query.take m.1) = [] then splitTopPlaced U query m else splitOnMarker U query m
  | none =>
    match firstSpan (diffBetweenRe U) query with
    | some m =>
      match firstSpan (andRe U) (query.drop m.2) with
      | some am => splitOnMarker U query (shifted m.2 am)
      | none => some none
    | none =>
      match (firstSpan (betweenAndRe U) query).filter fun _ => search (compareRe U) query with
      | some m =>
        -- the group between `between` and `and`
        let group := (m.1 + 7, m.2 - 3)
        match firstSpan (andRe U) (spanText query group.1 group.2) with
        | some am => splitOnMarker U query (shifted group.1 am)
        | none => some none
      | none =>
        if search (compareRe U) query then
          firstPair U query (spans (andRe U) query ++ spans (orRe U) query)
        else some none

/-! ## Diagnostics -/

/-- `_MIN_STRIPPED_CHARS` -/
def minStrippedChars : Nat := 20

/-- `_MIN_STRIPPED_WORDS` -/
def minStrippedWords : Nat := 3

/-- `_DIAGNOSTIC_SIGNAL_RE` -/
def diagnosticSignalRe : Pattern Char :=
  wholeWord U (alt (anyWordCi ["abend", "capacity", "contention", "stuck"])
    (seq (anyWordCi ["cascad", "caus", "diagnos", "drift", "dump", "error", "exhaust", "fail", "loop",
      "outage", "overflow", "pend", "recover", "shortage", "spill"]) (wordChars U)))

/-- `_FACTOID_RE` -/
def factoidRe : Pattern Char :=
  row [blanks, wordCi "what", blanks1,
    alt (row [wordCi "does", wordEdge U, star (one fun _ => true),
        wholeWord U (seq (wordCi "mean") (opt (wordCi "s")))])
      (row [anyWordCi ["is", "are"], wordEdge U, star (one (· ≠ '?'))]),
    blanks, opt (lit "?"), blanks, atEnd]

/-- `_identifier_spans` -/
def identifierSpans (query : Text) : List Span :=
  (spans (docnoRe U) query ++ spans (msgRe U) query ++ spans (memberRe U) query ++
    spans (docnoRe U) (upperText U query) ++ spans (msgRe U) (upperText U query) ++
    spans (memberQueryRe U) query).insertionSort fun a b => toLex a ≤ toLex b

def identifierPieces (query : Text) : Nat → List Span → List Text
  | pos, [] => [query.drop pos]
  | pos, cut :: cuts => spanText query pos cut.1 :: identifierPieces query (max pos cut.2) cuts

def stripIdentifiers (query : Text) : Text :=
  let spans := identifierSpans U query
  if spans = [] then joinWords (splitText query)
  else joinWords (splitText (joinWords (identifierPieces query 0 spans)))

inductive Mode
  | single
  | comparative
  | diagnostic
  deriving DecidableEq

/-- The query itself, with the cause leg if it asks for a diagnosis. -/
def diagnosticPaths (query : Text) (ids : QueryIdentifiers) (enabled : Bool) : List Text × Mode :=
  let stripped := stripIdentifiers U query
  if enabled && ids.hasIdentifiers && search (diagnosticSignalRe U) query &&
      !((factoidRe U).matchStart query).isSome && minStrippedChars ≤ stripped.length &&
      minStrippedWords ≤ (splitText stripped).length then
    ([query, stripped], .diagnostic)
  else ([query], .single)

def splitQuery (S : CharData) (query : Text) (comparativeEnabled diagnosticEnabled : Bool) :
    Option (List Text × Mode) :=
  if strip query = [] then some ([query], .single)
  else if screenQuery S query = .trap then some ([query], .single)
  else
    let ids := parseQuery U query
    (if comparativeEnabled && ids.docIds.isEmpty && ids.messageIds.isEmpty then
      comparativePaths U query else some none).map fun
      | some subs => ([subs.1, subs.2], .comparative)
      | none => diagnosticPaths U query ids diagnosticEnabled

end

/-! ## Indices in range -/

section

variable {U : CharTables}

/-- A result that is a span inside a list of `n` words, or nothing. -/
def Within (n : Nat) (r : Option (Option Span)) : Prop :=
  ∃ o, r = some o ∧ ∀ span ∈ o, span.1 < span.2 ∧ span.2 ≤ n

theorem within_none (n : Nat) : Within n (some none) := ⟨none, rfl, by simp⟩

theorem finishSpan_within {ws : List Text} {span : Span} (hlt : span.1 < span.2)
    (hle : span.2 ≤ ws.length) : Within ws.length (finishSpan U ws span) := by
  have hspan : ∀ s ∈ some span, s.1 < s.2 ∧ s.2 ≤ ws.length := by
    rintro s ⟨⟩
    exact ⟨hlt, hle⟩
  unfold finishSpan
  split
  · exact within_none _
  · split
    · rw [List.getElem?_eq_getElem (by omega), Option.map_some]
      dsimp only
      split
      · exact within_none _
      · exact ⟨_, rfl, hspan⟩
    · exact ⟨_, rfl, hspan⟩

theorem spanAt_within {ws : List Text} {idx : Nat} {pair : Option Nat} (hidx : idx < ws.length)
    (hpair : ∀ i ∈ pair, i + 1 < ws.length) : Within ws.length (spanAt U ws idx pair) := by
  cases pair with
  | none => exact finishSpan_within (Nat.lt_succ_self idx) hidx
  | some i =>
    have hi := hpair i rfl
    have hsingle : Within ws.length (finishSpan U ws (idx, idx + 1)) :=
      finishSpan_within (Nat.lt_succ_self idx) hidx
    have hdouble : Within ws.length (finishSpan U ws (i, i + 2)) :=
      finishSpan_within (by simp) hi
    rw [spanAt, numbered, List.getElem?_eq_getElem (Nat.lt_of_succ_lt hi), Option.bind_some,
      List.getElem?_eq_getElem hi, Option.map_some, Option.bind_some,
      List.getElem?_eq_getElem hidx, Option.bind_some]
    split
    · exact hdouble
    · split
      · exact hsingle
      · exact hdouble

theorem entitySpan_within (ws : List Text) (side : Side) :
    Within ws.length (entitySpan U ws side) := by
  by_cases hws : ws = []
  · subst hws
    cases side
    · exact within_none _
    · exact within_none _
  have hpos : 0 < ws.length := List.length_pos_iff.mpr hws
  cases side with
  | left =>
    have hlast : ws.length - 1 < ws.length := by omega
    rw [entitySpan, if_neg hws]
    dsimp only
    rw [List.getElem?_eq_getElem hlast, Option.bind_some]
    split
    · exact within_none _
    · generalize hidx : (if isArticle U ws[ws.length - 1] && 0 < ws.length - 1 then ws.length - 1 - 1
        else ws.length - 1) = idx
      have hlt : idx < ws.length := by
        split at hidx
        · omega
        · omega
      refine spanAt_within hlt fun i hi => ?_
      split at hi
      · cases hi
        omega
      · cases hi
  | right =>
    rw [entitySpan, if_neg hws, List.getElem?_eq_getElem hpos, Option.bind_some]
    split
    · exact within_none _
    · generalize hidx : (if isArticle U ws[0] && 1 < ws.length then 1 else 0) = idx
      have hlt : idx < ws.length := by
        split at hidx
        · next h =>
          simp only [Bool.and_eq_true, decide_eq_true_eq] at h
          omega
        · omega
      refine spanAt_within hlt fun i hi => ?_
      split at hi
      · next h =>
        cases hi
        exact h
      · cases hi

/-- Mirrored spans are inside both sides. -/
theorem mirroredContextSpans_within {leftWords rightWords : List Text}
    {leftEnt rightEnt : Option Span}
    (hl : ∀ s ∈ leftEnt, s.1 < s.2 ∧ s.2 ≤ leftWords.length)
    (hr : ∀ s ∈ rightEnt, s.1 < s.2 ∧ s.2 ≤ rightWords.length) :
    ∃ o, mirroredContextSpans U leftWords rightWords leftEnt rightEnt = some o ∧
      ∀ p ∈ o, (p.1.1 < p.1.2 ∧ p.1.2 ≤ leftWords.length) ∧
        (p.2.1 < p.2.2 ∧ p.2.2 ≤ rightWords.length) := by
  cases leftEnt with
  | none => exact ⟨none, rfl, by simp⟩
  | some left =>
    cases rightEnt with
    | none => exact ⟨none, rfl, by simp⟩
    | some right =>
      obtain ⟨hl1, hl2⟩ := hl left rfl
      obtain ⟨hr1, hr2⟩ := hr right rfl
      unfold mirroredContextSpans
      dsimp only
      split
      · next n hn =>
        have hmem := List.mem_of_find?_eq_some hn
        rw [List.mem_reverse, List.mem_range'_1] at hmem
        simp only [List.length_map] at hmem
        refine ⟨_, rfl, ?_⟩
        rintro p ⟨⟩
        simp only [List.length_map]
        omega
      · split
        · next h =>
          obtain ⟨-, -, hend, hfirst⟩ := h
          rw [List.getElem?_eq_getElem (by omega), Option.map_some]
          refine ⟨_, rfl, ?_⟩
          intro p hp
          split at hp
          · next hn =>
            simp only [Bool.and_eq_true, decide_eq_true_eq] at hn
            cases hp
            dsimp only
            omega
          · cases hp
        · exact ⟨none, rfl, by simp⟩

end

end MainframeRag.Retrieve.Split
