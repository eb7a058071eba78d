import MainframeRag.Lib.Lines
import MainframeRag.Lib.Regex
import MainframeRag.Ingest.Chunking.Expand

/-!
# Citation lines

The patterns and line scanners of `agent/cites.py`. Both citation paths, the list parser and the
body scanner, read a line through one normalizer (`normalizeCitationLine`), and what they return is
made of normalized lines (`extractBody_raw`, `extractTrailing_attempts`).

The doc ids stand in the order the source's set is walked in, which its first match depends on.
-/

namespace MainframeRag.Agent

open PyText Regex Ingest.Chunking

/-! ## Patterns -/

section

open Regex.Pattern

def lit (t : String) : Pattern Char := word t.toList

/-- A lower-case word under `re.IGNORECASE`. -/
def wordCi (t : String) : Pattern Char := t.toList.foldr (fun c p => seq (one (ciChar c)) p) empty

/-- `\s*` -/
def blanks : Pattern Char := star (one isSpace)

/-- `\s+` -/
def blanks1 : Pattern Char := plus (one isSpace)

/-- `.` -/
def dot : Pattern Char := one (· ≠ '\n')

def upper : Pattern Char := one (fun c => 'A' ≤ c && c ≤ 'Z')

def asciiAlnum (c : Char) : Bool := c.isAlpha || c.isDigit

def oneOf (t : String) : Pattern Char := one (fun c => t.toList.contains c)

/-- `$` -/
def atEnd : Pattern Char := test (fun pl => pl.rest = [] ∨ pl.rest = ['\n'])

/-- `^` and `$` under `re.MULTILINE` -/
def lineStart : Pattern Char := test (fun pl => pl.before = [] ∨ pl.before.head? = some '\n')

def lineEnd : Pattern Char := test (fun pl => pl.rest = [] ∨ pl.rest.head? = some '\n')

variable (U : CharTables)

/-- `\b` -/
def wordEdge : Pattern Char :=
  test (fun pl => pl.before.head?.any U.isWord ≠ pl.rest.head?.any U.isWord)

def digits (n : Nat) : Pattern Char := exactly n (one U.isDecimal)

/-- `[A-Z]{2,4}\d{2}-\d{4}` -/
def docBase : Pattern Char :=
  row [exactly 2 upper, upTo 2 upper, digits U 2, lit "-", digits U 4]

/-- `[A-Z]{2,4}\d{2}-\d{4}(?:-\d{2})?` -/
def docNumber : Pattern Char := row [docBase U, opt (row [lit "-", digits U 2])]

/-- `.+?,\s+p\.\s+.+?\s*$` -/
def headingAndPage : List (Pattern Char) :=
  [lazyPlus dot, lit ",", blanks1, lit "p.", blanks1, lazyPlus dot, blanks, atEnd]

/-- `CITATION_LINE_RE` -/
def citationLineRe : Pattern Char :=
  row ([blanks, docNumber U, blanks1, lazyPlus dot, lit ",", blanks1] ++ headingAndPage)

/-- `[*_]*` with the backtick -/
def emphasis : Pattern Char := star (oneOf "*_`")

/-- `[^\S\r\n]*` -/
def lineBlanks : Pattern Char := star (one (fun c => isSpace c && c ≠ '\r' && c ≠ '\n'))

def hashes : Pattern Char := row [lit "#", upTo 5 (lit "#")]

/-- `CITATIONS_HEADER_RE` -/
def citationsHeaderRe : Pattern Char :=
  row [lineStart, lineBlanks, opt (row [hashes, lineBlanks]), emphasis, wordCi "citation",
    opt (wordCi "s"), emphasis, lit ":", emphasis, lineBlanks, lineEnd]

/-- `_CITATION_ALIAS_HEADER_RE` -/
def citationAliasHeaderRe : Pattern Char :=
  row [blanks, opt (row [hashes, blanks]), emphasis, alt (wordCi "source") (wordCi "reference"),
    opt (wordCi "s"), emphasis, lit ":", emphasis, blanks, atEnd]

/-- `_MARKER_RE` -/
def markerRe : Pattern Char :=
  plus (alt (row [oneOf "-*•", blanks1])
    (alt (row [plus (one U.isDecimal), oneOf ".)", blanks1])
      (row [lit "[", plus (one U.isDecimal), lit "]", opt (lit ":"), blanks])))

/-- `_DOCNO_LED_RE` -/
def docnoLedRe : Pattern Char := row [docNumber U, blanks1, one (fun c => !isSpace c)]

/-- `_GENERIC_STEM_LED_RE` -/
def genericStemLedRe : Pattern Char :=
  row [plus (one asciiAlnum), plus (row [oneOf "-_.", plus (one asciiAlnum)]), blanks1]

/-- `_CITATION_TAIL_RE` -/
def citationTailRe : Pattern Char :=
  row ([one (fun c => !isSpace c), many true dot, lit ",", blanks1] ++ headingAndPage)

end

/-- `re.match` -/
def isMatch (p : Pattern Char) (t : Text) : Bool := (p.matchStart t).isSome

/-! ## Shapes -/

section

variable (U : CharTables)

def knownDocLed (candidate : Text) (docIds : List Text) : Option Text :=
  (docIds.find? (fun d => d ≠ [] && (d ++ [' ']).isPrefixOf candidate)).map
    (fun d => candidate.drop (d.length + 1))

def isCitationShaped (candidate : Text) (docIds : List Text) : Bool :=
  isMatch (citationLineRe U) candidate ||
    (knownDocLed candidate docIds).any (isMatch citationTailRe) ||
    (genericStemLedRe.matchStart candidate).any (isMatch citationTailRe)

def isDocnoLedFragment (candidate : Text) (docIds : List Text) : Bool :=
  (isMatch (docnoLedRe U) candidate || (knownDocLed candidate docIds).isSome) &&
    (find candidate " > ".toList 0).isSome &&
    !(candidate.getLast?.any (fun c => c == '.' || c == '!' || c == '?'))

/-! ## The normalizer -/

/-- `candidate[1:-1].strip()` -/
def unwrap (c : Text) : Text := strip c.tail.dropLast

def peelMarker (c : Text) : Text := ((markerRe U).matchStart c).getD c

def peelQuote (c : Text) : Text :=
  if c.head? = some '>' then strip (c.dropWhile (· = '>')) else c

/-- `_WRAP_CHARS` -/
def wrapChars : Text := "`\"'*_".toList

def peelWrap (c : Text) : Text :=
  if 2 ≤ c.length ∧ c.head? = c.getLast? ∧ c.head?.any wrapChars.contains then unwrap c else c

/-- `_WRAP_PAIRS` -/
def wrapPair (c : Char) : Option Char :=
  if c = '\u201c' then some '\u201d' else if c = '\u2018' then some '\u2019' else none

def peelPair (c : Text) : Text :=
  if 2 ≤ c.length ∧ c.head?.bind wrapPair = c.getLast? then unwrap c else c

def peelLink (c : Text) : Text :=
  if c.head? = some '[' ∧ c.getLast? = some ')' then
    match find c "](".toList 0 with
    | some i => (c.take i).drop 1
    | none => c
  else c

def peelBetween (opening closing : Char) (c : Text) : Text :=
  if c.head? = some opening ∧ c.getLast? = some closing then unwrap c else c

def normalizePass (c : Text) : Text :=
  peelBetween '(' ')' (peelBetween '<' '>' (peelLink (peelPair (peelWrap (peelQuote
    (peelMarker U c))))))

/-- Passes up to the first that changes nothing. -/
def normalizeFrom : Nat → Text → Text
  | 0, c => c
  | passes + 1, c => if normalizePass U c = c then c else normalizeFrom passes (normalizePass U c)

def normalizeCitationLine (line : Text) : Text :=
  normalizeFrom U ((strip line).length + 1) (strip line)

/-! ## Scanners -/

/-- The state of `extract_body_and_citations` between two lines. -/
structure BlockScan where
  body : List Text := []
  raw : List Text := []
  inCitations : Bool := false
  allowBullets : Bool := false
  pendingHeader : Option Text := none
  hasCites : Bool := false

variable (docIds allowed : List Text)

def BlockScan.feed (s : BlockScan) (line : Text) : BlockScan :=
  let canonical := isMatch citationsHeaderRe line
  if canonical || isMatch citationAliasHeaderRe line then
    { s with
      inCitations := true, allowBullets := canonical,
      pendingHeader := if canonical then none else some line, hasCites := false }
  else if s.inCitations then
    if strip line = [] then { s with inCitations := !s.hasCites }
    else
      let stripped := normalizeCitationLine U (strip line)
      let isCite := allowed.contains stripped || isCitationShaped U stripped docIds
      if isCite || (s.allowBullets && isMatch (markerRe U) (strip line)) then
        { s with raw := s.raw ++ [stripped], pendingHeader := none, hasCites := true }
      else
        { s with
          body := s.body ++ s.pendingHeader.toList ++ [line], inCitations := false,
          pendingHeader := none }
  else { s with body := s.body ++ [line] }

def extractBodyAndCitations (text : Text) : Text × List Text :=
  let s := (splitlines text).foldl (BlockScan.feed U docIds allowed) {}
  (joinLines s.body, s.raw)

/-- The attempts at the end of the lines and the lines in front of them, both the last first. -/
def trailingFrom : List Text → List Text × List Text
  | [] => ([], [])
  | line :: lines =>
    if strip line = [] then trailingFrom lines
    else
      let candidate := normalizeCitationLine U line
      if !allowed.contains candidate && !isCitationShaped U candidate docIds then ([], line :: lines)
      else (candidate :: (trailingFrom lines).1, (trailingFrom lines).2)

def extractTrailingCitations (text : Text) : Text × List Text :=
  let tail := trailingFrom U docIds allowed (splitlines text).reverse
  (joinLines tail.2.reverse, tail.1.reverse)

def isUnauthorized (line : Text) : Bool :=
  let candidate := normalizeCitationLine U line
  !allowed.contains candidate &&
    (isCitationShaped U candidate docIds || isDocnoLedFragment U candidate docIds)

def splitUnauthorizedCitations (text : Text) : Text × List Text :=
  (joinLines ((splitlines text).filter (fun line => !isUnauthorized U docIds allowed line)),
    ((splitlines text).filter (isUnauthorized U docIds allowed)).map (normalizeCitationLine U))

/-! ## What the normalizer keeps -/

/-- A step that changes a line makes it shorter. -/
def Peels (f : Text → Text) : Prop := ∀ c, f c = c ∨ (f c).length < c.length

theorem Peels.comp {f g : Text → Text} (hf : Peels f) (hg : Peels g) : Peels (fun c => f (g c)) := by
  intro c
  rcases hg c with h | h
  · dsimp only
    rw [h]
    exact hf c
  · rcases hf (g c) with h' | h'
    · exact .inr (by dsimp only; rw [h']; exact h)
    · exact .inr (h'.trans h)

theorem unwrap_length {c : Text} (h : 1 ≤ c.length) : (unwrap c).length < c.length := by
  have := strip_length c.tail.dropLast
  simp only [List.length_dropLast, List.length_tail] at this
  rw [unwrap]
  omega

theorem peelMarker_peels : Peels (peelMarker U) := by
  intro c
  unfold peelMarker Pattern.matchStart Pattern.matchAt
  cases hm : ((markerRe U).runs ⟨[], c⟩).head? with
  | none => exact .inl rfl
  | some e =>
    obtain ⟨w, hw⟩ := runs_along _ _ e (List.mem_of_head? hm)
    have hc : c = w ++ e.rest := hw.rest
    cases w with
    | nil => exact .inl hc.symm
    | cons d w =>
      refine .inr ?_
      show e.rest.length < c.length
      rw [hc]
      simp

theorem peelQuote_peels : Peels peelQuote := by
  intro c
  unfold peelQuote
  split
  · next h =>
    obtain ⟨t, rfl⟩ : ∃ t, c = '>' :: t := by
      cases c with
      | nil => cases h
      | cons d t => exact ⟨t, by rw [Option.some.inj h]⟩
    have h1 := strip_length (('>' :: t).dropWhile (· = '>'))
    have h2 : (('>' :: t).dropWhile (· = '>')).length ≤ t.length := by
      rw [List.dropWhile_cons_of_pos (by simp)]
      exact (List.dropWhile_sublist _).length_le
    exact .inr (by simp only [List.length_cons]; omega)
  · exact .inl rfl

theorem peelWrap_peels : Peels peelWrap := by
  intro c
  unfold peelWrap
  split
  · next h => exact .inr (unwrap_length (by omega))
  · exact .inl rfl

theorem peelPair_peels : Peels peelPair := by
  intro c
  unfold peelPair
  split
  · next h => exact .inr (unwrap_length (by omega))
  · exact .inl rfl

theorem peelLink_peels : Peels peelLink := by
  intro c
  unfold peelLink
  split
  · next h =>
    split
    · refine .inr ?_
      have hpos : 0 < c.length := by
        cases c with
        | nil => cases h.1
        | cons d t => simp
      simp only [List.length_drop, List.length_take]
      omega
    · exact .inl rfl
  · exact .inl rfl

theorem peelBetween_peels (opening closing : Char) : Peels (peelBetween opening closing) := by
  intro c
  unfold peelBetween
  split
  · next h =>
    refine .inr (unwrap_length ?_)
    cases c with
    | nil => cases h.1
    | cons d t => simp
  · exact .inl rfl

theorem normalizePass_peels : Peels (normalizePass U) :=
  (peelBetween_peels '(' ')').comp ((peelBetween_peels '<' '>').comp (peelLink_peels.comp
    (peelPair_peels.comp (peelWrap_peels.comp (peelQuote_peels.comp (peelMarker_peels U))))))

theorem normalizeFrom_length (passes : Nat) (c : Text) :
    (normalizeFrom U passes c).length ≤ c.length := by
  induction passes generalizing c with
  | zero => exact Nat.le.refl
  | succ passes ih =>
    rw [normalizeFrom]
    split
    · exact Nat.le.refl
    · next h =>
      have := (normalizePass_peels U c).resolve_left h
      exact (ih _).trans this.le

/-- Enough passes end in a line that no pass changes. -/
theorem normalizeFrom_fixed {passes : Nat} {c : Text} (h : c.length < passes) :
    normalizePass U (normalizeFrom U passes c) = normalizeFrom U passes c := by
  induction passes generalizing c with
  | zero => cases h
  | succ passes ih =>
    rw [normalizeFrom]
    split
    · next hc => exact hc
    · next hc =>
      have := (normalizePass_peels U c).resolve_left hc
      exact ih (by omega)

theorem normalizeCitationLine_length (line : Text) :
    (normalizeCitationLine U line).length ≤ line.length :=
  (normalizeFrom_length U _ _).trans (strip_length line)

theorem normalizeCitationLine_congr {k l : Text} (h : strip k = strip l) :
    normalizeCitationLine U k = normalizeCitationLine U l := by
  rw [normalizeCitationLine, normalizeCitationLine, h]

/-- A line is its own citation when it is stripped and no pass changes it. -/
theorem normalizeCitationLine_self {c : Text} :
    normalizeCitationLine U c = c ↔ strip c = c ∧ normalizePass U c = c := by
  constructor
  · intro h
    have hs : strip c = c := by
      refine strip_eq_of_length (Nat.le_antisymm (strip_length c) ?_)
      have := normalizeFrom_length U ((strip c).length + 1) (strip c)
      rw [← normalizeCitationLine, h] at this
      exact this
    have hf : normalizePass U (normalizeCitationLine U c) = normalizeCitationLine U c :=
      normalizeFrom_fixed U (Nat.lt_succ_self (strip c).length)
    rw [h] at hf
    exact ⟨hs, hf⟩
  · rintro ⟨hs, hp⟩
    rw [normalizeCitationLine, hs, normalizeFrom, if_pos hp]

/-! ## What the scanners return -/

/-- The citation of a line that is not blank. -/
def CitedIn (lines : List Text) (c : Text) : Prop :=
  ∃ l ∈ lines, strip l ≠ [] ∧ c = normalizeCitationLine U l

theorem CitedIn.mono {lines lines' : List Text} {c : Text} (h : CitedIn U lines c)
    (hs : ∀ l ∈ lines, l ∈ lines') : CitedIn U lines' c := by
  obtain ⟨l, hl, hb, hc⟩ := h
  exact ⟨l, hs l hl, hb, hc⟩

theorem BlockScan.feed_raw (s : BlockScan) (line : Text) :
    ∀ c ∈ (s.feed U docIds allowed line).raw, c ∈ s.raw ∨ CitedIn U [line] c := by
  intro c hc
  unfold BlockScan.feed at hc
  dsimp only at hc
  split at hc
  · exact .inl hc
  · split at hc
    · split at hc
      · exact .inl hc
      · next hblank =>
        split at hc
        · rcases List.mem_append.mp hc with hc | hc
          · exact .inl hc
          · refine .inr ⟨line, List.mem_cons_self, hblank, ?_⟩
            rw [List.mem_singleton.mp hc]
            exact normalizeCitationLine_congr U (strip_strip line)
        · exact .inl hc
    · exact .inl hc

/-- What the list parser returns is the citation of a line. -/
theorem extractBody_raw (text : Text) :
    ∀ c ∈ (extractBodyAndCitations U docIds allowed text).2, CitedIn U (splitlines text) c := by
  have hfold : ∀ (lines : List Text) (s : BlockScan),
      ∀ c ∈ (lines.foldl (BlockScan.feed U docIds allowed) s).raw, c ∈ s.raw ∨ CitedIn U lines c := by
    intro lines
    induction lines with
    | nil => exact fun s c hc => .inl hc
    | cons line lines ih =>
      intro s c hc
      rcases ih _ c hc with hc | hc
      · rcases s.feed_raw U docIds allowed line c hc with hc | hc
        · exact .inl hc
        · exact .inr (hc.mono U fun l hl => by simp [List.mem_singleton.mp hl])
      · exact .inr (hc.mono U fun l hl => List.mem_cons_of_mem _ hl)
  intro c hc
  exact (hfold _ _ c hc).resolve_left (by simp)

theorem trailingFrom_lines (lines : List Text) :
    (∀ c ∈ (trailingFrom U docIds allowed lines).1, CitedIn U lines c) ∧
      ∀ l ∈ (trailingFrom U docIds allowed lines).2, l ∈ lines := by
  induction lines with
  | nil => exact ⟨by simp [trailingFrom], by simp [trailingFrom]⟩
  | cons line lines ih =>
    have hlater : ∀ l ∈ lines, l ∈ line :: lines := fun l hl => List.mem_cons_of_mem _ hl
    rw [trailingFrom]
    split
    · exact ⟨fun c hc => (ih.1 c hc).mono U hlater, fun l hl => hlater l (ih.2 l hl)⟩
    · next hblank =>
      dsimp only
      split
      · exact ⟨by simp, fun l hl => hl⟩
      · refine ⟨fun c hc => ?_, fun l hl => hlater l (ih.2 l hl)⟩
        rcases List.mem_cons.mp hc with rfl | hc
        · exact ⟨line, List.mem_cons_self, hblank, rfl⟩
        · exact (ih.1 c hc).mono U hlater

theorem extractTrailing_attempts (text : Text) :
    ∀ c ∈ (extractTrailingCitations U docIds allowed text).2, CitedIn U (splitlines text) c := by
  intro c hc
  refine ((trailingFrom_lines U docIds allowed (splitlines text).reverse).1 c ?_).mono U
    fun l hl => List.mem_reverse.mp hl
  exact List.mem_reverse.mp hc

/-- The text in front of the attempts has lines of the text only. -/
theorem extractTrailing_lines (text : Text) :
    ∀ l ∈ splitlines (extractTrailingCitations U docIds allowed text).1, l ∈ splitlines text := by
  have hkept : ∀ l ∈ (trailingFrom U docIds allowed (splitlines text).reverse).2.reverse,
      l ∈ splitlines text := fun l hl =>
    List.mem_reverse.mp ((trailingFrom_lines U docIds allowed _).2 l (List.mem_reverse.mp hl))
  intro l hl
  exact hkept l (splitlines_joinLines (fun k hk => splitlines_noBreak (hkept k hk)) l hl)

/-- No line that is kept is unauthorized. -/
theorem splitUnauthorized_lines (text : Text) :
    ∀ l ∈ splitlines (strip (splitUnauthorizedCitations U docIds allowed text).1),
      isUnauthorized U docIds allowed l = false := by
  have hbreak : ∀ l ∈ (splitlines text).filter (fun l => !isUnauthorized U docIds allowed l),
      NoBreak l := fun l hl => splitlines_noBreak (List.mem_filter.mp hl).1
  intro l hl
  obtain ⟨k, hk, he⟩ := splitlines_strip (joinLines_noReturn hbreak) l hl
  have hmem := splitlines_joinLines hbreak k hk
  have hkept := (List.mem_filter.mp hmem).2
  rw [isUnauthorized, ← normalizeCitationLine_congr U he, ← isUnauthorized]
  simpa using hkept

end

end MainframeRag.Agent
