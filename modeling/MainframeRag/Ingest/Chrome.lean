import MainframeRag.Agent.Cites
import MainframeRag.Lib.Cutting
import Mathlib.Data.Rat.Floor

/-!
# Running headers and footers

`chrome.py` drops page furniture by frequency at the page edges, and folios and the like by shape.
What goes stands at an edge, and running chrome is measured over all pages (`mem_chromeLines`), so
the order of the pages is immaterial. A page has one folio, but every bare number at its bottom edge
is taken for one (`stripChrome_onlyFurniture_iff`).
-/

namespace MainframeRag.Ingest.Chrome

open PyText Regex Regex.Pattern
open Chunking (ciChar)
open Agent (lit wordCi oneOf upper wordEdge blanks blanks1 dot)

def frequencyThreshold : ℚ := 35 / 100

def minPagesForChrome : Nat := 8

def minHits : Nat := 3

def bodyShareMax : ℚ := 5 / 100

def edgeLines : Nat := 4

/-! ## Patterns -/

/-- `re.fullmatch` -/
def fullMatch (p : Pattern Char) (t : Text) : Bool := (p.runs ⟨[], t⟩).any (·.rest.isEmpty)

/-- A letter under `re.IGNORECASE`. -/
def letterCi (c : Char) : Pattern Char := one (ciChar c)

/-- `[ivxlcdm]` under `re.IGNORECASE` -/
def isRomanLetter (c : Char) : Bool := ['i', 'v', 'x', 'l', 'c', 'd', 'm'].any (ciChar · c)

/-- One place of a numeral: nine, four, or at most one `five` and three `one`s behind it. -/
def romanPlace (nine four : String) (five one : Char) : Pattern Char :=
  alt (wordCi nine) (alt (wordCi four) (seq (opt (letterCi five)) (upTo 3 (letterCi one))))

/-- `_ROMAN_NUMERAL_RE` -/
def romanNumeralRe : Pattern Char :=
  row [test fun pl => pl.rest.head?.any isRomanLetter, star (letterCi 'm'),
    romanPlace "cm" "cd" 'd' 'c', romanPlace "xc" "xl" 'l' 'x', romanPlace "ix" "iv" 'v' 'i',
    opt (oneOf "-.")]

/-- `[0-9]+` -/
def number : Pattern Char := plus (one Char.isDigit)

/-- `_DECIMAL_PAGE_RE` -/
def decimalPageRe : Pattern Char := row [number, opt (seq (lit "-") number), opt (oneOf "-.")]

def isHexDigit (c : Char) : Bool := c.isDigit || (decide ('A' ≤ c) && decide (c ≤ 'F'))

/-- `_ENTRY_TOKEN` -/
def entryToken : Pattern Char :=
  alt (row [one isHexDigit, one fun c => isHexDigit c || c == 'x',
      upTo 6 (one fun c => isHexDigit c || c == 'x')])
    (row [upper, upTo 7 upper, one Char.isDigit,
      upTo 10 (one fun c => c.isDigit || (decide ('A' ≤ c) && decide (c ≤ 'Z')) || c == 'x')])

/-- `_ENTRY_RANGE_RE` -/
def entryRangeRe : Pattern Char := row [entryToken, lit " \u2022 ", entryToken]

section

variable (U : CharTables)

/-- `_COPYRIGHT_RE` -/
def copyrightRe : Pattern Char :=
  row [opt (alt (lit "\u00a9") (alt (wordCi "(c)") (lit "\uf6d9"))), blanks, wordCi "copyright",
    wordEdge U, star dot, wordEdge U, alt (lit "19") (lit "20"), one U.isDecimal, one U.isDecimal,
    wordEdge U]

/-! ## Lines -/

/-- `_WHITESPACE_RE.sub(" ", line.strip())` -/
def collapsed (line : Text) : Text := sub blanks1 (fun _ => [' ']) (strip line)

def normalize (line : Text) : Text := U.lower (collapsed line)

def isPageNumber (line : Text) : Bool :=
  fullMatch decimalPageRe (strip line) || fullMatch romanNumeralRe (strip line)

def isCopyrightNotice (line : Text) : Bool := ((copyrightRe U).matchStart (strip line)).isSome

def isEntryRange (line : Text) : Bool := fullMatch entryRangeRe (collapsed line)

/-- `str.isalnum` at one character -/
def isAlnum (c : Char) : Bool := U.isWord c && c != '_'

/-- The indices of the text lines. -/
def textLines (lines : List Text) : List Nat :=
  (List.range lines.length).filter fun i => (lines.getD i []).any (isAlnum U)

/-- `_edges` -/
def edges (lines : List Text) : List Nat × List Nat :=
  let text := textLines U lines
  (text.take edgeLines, text.drop (text.length - edgeLines))

def atEdge (lines : List Text) (i : Nat) : Bool :=
  (edges U lines).1.contains i || (edges U lines).2.contains i

/-! ## Running lines -/

/-- The normalized lines at the indices that `here` picks, those that are blank left out. -/
def linesAt (here : Nat → Bool) (lines : List Text) : List Text :=
  ((((List.range lines.length).filter here).map fun i => normalize U (lines.getD i [])).filter
    (· ≠ [])).dedup

def edgeSet (page : Text) : List Text :=
  let raw := splitlines page
  linesAt U (atEdge U raw) raw

def bodySet (page : Text) : List Text :=
  let raw := splitlines page
  linesAt U (fun i => !atEdge U raw i) raw

/-- `counts[line]` -/
def edgeCount (pages : List Text) (line : Text) : Nat :=
  pages.countP fun page => line ∈ edgeSet U page

/-- `body_counts[line]` -/
def bodyCount (pages : List Text) (line : Text) : Nat :=
  pages.countP fun page => line ∈ bodySet U page

def threshold (pages : List Text) : Nat := max minHits ⌊frequencyThreshold * pages.length⌋.toNat

def chromeLines (pages : List Text) : List Text :=
  if pages.length < minPagesForChrome then []
  else (pages.flatMap (edgeSet U)).dedup.filter fun line =>
    decide (threshold pages ≤ edgeCount U pages line) &&
      decide ((bodyCount U pages line : ℚ) ≤ bodyShareMax * edgeCount U pages line)

/-! ## One page -/

/-- What a line is removed for. -/
inductive Rule
  | chrome
  | folio
  /-- an entry range or a copyright notice -/
  | shape
  deriving DecidableEq

def footerFolio (lines : List Text) : Bool :=
  (edges U lines).2.any fun i =>
    isPageNumber (lines.getD i []) || isEntryRange (lines.getD i [])

/-- The body of the loop over the lines of a page. -/
def ruleOf (chrome : List Text) (lines : List Text) (i : Nat) (line : Text) : Option Rule :=
  if normalize U line = [] then none
  else if atEdge U lines i && chrome.contains (normalize U line) then some .chrome
  else if isPageNumber line && ((edges U lines).2.contains i ||
      ((edges U lines).1.contains i && !footerFolio U lines)) then some .folio
  else if atEdge U lines i && (isEntryRange line || isCopyrightNotice U line) then some .shape
  else none

/-- `t.strip("\n")` -/
def trimNewlines (t : Text) : Text :=
  ((t.dropWhile (· = '\n')).reverse.dropWhile (· = '\n')).reverse

def keptLines (chrome : List Text) (lines : List Text) : List Text :=
  lines.zipIdx.filterMap fun (line, i) =>
    if ruleOf U chrome lines i line = none then some line else none

def stripPage (chrome : List Text) (text : Text) : Text :=
  trimNewlines (joinLines (keptLines U chrome (splitlines text)))

def stripChrome (pages : List Text) : List Text := pages.map (stripPage U (chromeLines U pages))

/-! ## What is removed -/

/-- The rule that removes the line at an index of a page of a document. -/
def removal (pages : List Text) (page : Text) (i : Nat) : Option Rule :=
  (splitlines page)[i]?.bind fun line =>
    ruleOf U (chromeLines U pages) (splitlines page) i line

/-- A line that runs: at the edge of many pages, and in the body of few. -/
structure Running (pages : List Text) (line : Text) : Prop where
  enough : minPagesForChrome ≤ pages.length
  edge : threshold pages ≤ edgeCount U pages line
  body : (bodyCount U pages line : ℚ) ≤ bodyShareMax * edgeCount U pages line

/-- Where a folio may stand: the bottom edge, or the top edge over a bottom edge without one. -/
def folioEdge (lines : List Text) : List Nat :=
  if footerFolio U lines then (edges U lines).2 else (edges U lines).1

/-- A bare page number that does not run, where a folio may stand. -/
structure FolioAt (pages : List Text) (page : Text) (i : Nat) (line : Text) : Prop where
  stands : (splitlines page)[i]? = some line
  place : i ∈ folioEdge U (splitlines page)
  number : isPageNumber line = true
  nonblank : normalize U line ≠ []
  once : ¬ Running U pages (normalize U line)

/-- Only page furniture goes, and the order of the pages is immaterial. -/
structure OnlyFurniture (pages : List Text) : Prop where
  in_order : ∀ page ∈ pages, ∃ kept, kept.Sublist (splitlines page) ∧
    stripPage U (chromeLines U pages) page = trimNewlines (joinLines kept)
  at_edge : ∀ page ∈ pages, ∀ i, removal U pages page i ≠ none →
    atEdge U (splitlines page) i = true
  one_number : ∀ page ∈ pages, ∀ i j, removal U pages page i = some .folio →
    removal U pages page j = some .folio → i = j
  number_only : ∀ page ∈ pages, ∀ i, removal U pages page i = some .folio →
    ∃ line, FolioAt U pages page i line ∧ isEntryRange line = false ∧
      isCopyrightNotice U line = false
  number_below : ∀ page ∈ pages, footerFolio U (splitlines page) = true → ∀ i,
    removal U pages page i = some .folio → i ∈ (edges U (splitlines page)).2
  running : ∀ page ∈ pages, ∀ i line, (splitlines page)[i]? = some line →
    removal U pages page i = some .chrome → Running U pages (normalize U line)
  permuted : ∀ pages', pages'.Perm pages →
    stripChrome U pages' = pages'.map (stripPage U (chromeLines U pages))

/-- No page has two folios. -/
def OneFolio (pages : List Text) : Prop :=
  ∀ page ∈ pages, ∀ i j a b, FolioAt U pages page i a → FolioAt U pages page j b → i = j

/-! ## Running lines are counted -/

theorem mem_chromeLines {pages : List Text} {line : Text} :
    line ∈ chromeLines U pages ↔ Running U pages line := by
  unfold chromeLines
  constructor
  · intro h
    split at h
    · cases h
    · next hlen =>
      obtain ⟨-, hcounts⟩ := List.mem_filter.mp h
      simp only [Bool.and_eq_true, decide_eq_true_eq] at hcounts
      exact ⟨not_lt.mp hlen, hcounts.1, hcounts.2⟩
  · intro h
    rw [if_neg (not_lt.mpr h.enough), List.mem_filter]
    have hpos : 0 < edgeCount U pages line :=
      lt_of_lt_of_le (lt_of_lt_of_le (by decide) (le_max_left minHits _)) h.edge
    obtain ⟨page, hpage, hline⟩ := List.countP_pos_iff.mp hpos
    refine ⟨List.mem_dedup.mpr (List.mem_flatMap.mpr ⟨page, hpage, by simpa using hline⟩), ?_⟩
    simp [h.edge, h.body]

theorem running_perm {pages pages' : List Text} (h : pages'.Perm pages) {line : Text}
    (hr : Running U pages line) : Running U pages' line := by
  have hedge : edgeCount U pages' line = edgeCount U pages line := h.countP_eq _
  have hbody : bodyCount U pages' line = bodyCount U pages line := h.countP_eq _
  refine ⟨h.length_eq ▸ hr.enough, ?_, by rw [hedge, hbody]; exact hr.body⟩
  rw [hedge, threshold, h.length_eq]
  exact hr.edge

/-- A page is stripped by what is in the chrome, not by its order. -/
theorem stripPage_congr {chrome chrome' : List Text} (h : ∀ l, l ∈ chrome ↔ l ∈ chrome') :
    stripPage U chrome = stripPage U chrome' := by
  have hcontains : ∀ l, chrome.contains l = chrome'.contains l := fun l =>
    Bool.eq_iff_iff.mpr (by simpa using h l)
  have hrule : ruleOf U chrome = ruleOf U chrome' := by
    funext lines i line
    rw [ruleOf, ruleOf, hcontains]
  funext text
  rw [stripPage, stripPage, keptLines, keptLines, hrule]

theorem stripChrome_perm {pages pages' : List Text} (h : pages'.Perm pages) :
    stripChrome U pages' = pages'.map (stripPage U (chromeLines U pages)) := by
  have hsame : ∀ l, l ∈ chromeLines U pages' ↔ l ∈ chromeLines U pages := fun l => by
    rw [mem_chromeLines, mem_chromeLines]
    exact ⟨running_perm U h.symm, running_perm U h⟩
  rw [stripChrome, stripPage_congr U hsame]

/-! ## Rules -/

/-- Folios are only recognized where one may stand. -/
theorem folio_place {lines : List Text} {i : Nat} {line : Text} (hi : lines[i]? = some line)
    (hn : isPageNumber line = true) :
    ((edges U lines).2.contains i || ((edges U lines).1.contains i && !footerFolio U lines)) = true ↔
      i ∈ folioEdge U lines := by
  have hgetD : lines.getD i [] = line := by rw [List.getD_eq_getElem?_getD, hi, Option.getD_some]
  unfold folioEdge
  by_cases hf : footerFolio U lines = true
  · simp [hf]
  · have hnot : i ∉ (edges U lines).2 := fun hbottom =>
      hf (List.any_eq_true.mpr ⟨i, hbottom, by rw [hgetD, hn]; rfl⟩)
    simp [hf, hnot]

theorem removal_eq {pages : List Text} {page : Text} {i : Nat} {line : Text}
    (hi : (splitlines page)[i]? = some line) :
    removal U pages page i = ruleOf U (chromeLines U pages) (splitlines page) i line := by
  rw [removal, hi, Option.bind_some]

theorem exists_of_removal {pages : List Text} {page : Text} {i : Nat}
    (h : removal U pages page i ≠ none) : ∃ line, (splitlines page)[i]? = some line := by
  cases hi : (splitlines page)[i]? with
  | none => exact absurd (by rw [removal, hi]; rfl) h
  | some line => exact ⟨line, rfl⟩

theorem ruleOf_edge {chrome lines : List Text} {i : Nat} {line : Text}
    (h : ruleOf U chrome lines i line ≠ none) : atEdge U lines i = true := by
  unfold ruleOf at h
  by_contra hedge
  have hout : i ∉ (edges U lines).1 ∧ i ∉ (edges U lines).2 := by simpa [atEdge] using hedge
  simp [hedge, hout] at h

theorem ruleOf_chrome {chrome lines : List Text} {i : Nat} {line : Text}
    (h : ruleOf U chrome lines i line = some .chrome) : normalize U line ∈ chrome := by
  unfold ruleOf at h
  split at h
  · cases h
  · split at h
    · next hc =>
      simp only [Bool.and_eq_true] at hc
      simpa using hc.2
    · split at h
      · cases h
      · split at h <;> cases h

theorem atEdge_of_folioEdge {lines : List Text} {i : Nat} (h : i ∈ folioEdge U lines) :
    atEdge U lines i = true := by
  unfold folioEdge at h
  unfold atEdge
  split at h <;> simp [h]

theorem removal_folio_iff {pages : List Text} {page : Text} {i : Nat} :
    removal U pages page i = some .folio ↔ ∃ line, FolioAt U pages page i line := by
  constructor
  · intro h
    obtain ⟨line, hi⟩ := exists_of_removal U (by rw [h]; simp)
    rw [removal_eq U hi] at h
    have hedge := ruleOf_edge U (by rw [h]; simp)
    unfold ruleOf at h
    split at h
    · cases h
    · next hblank =>
      split at h
      · cases h
      · next hchrome =>
        split at h
        · next hfolio =>
          simp only [Bool.and_eq_true] at hfolio
          have hplace := (folio_place U hi hfolio.1).mp (by simpa using hfolio.2)
          refine ⟨line, hi, hplace, hfolio.1, hblank, fun hrun => hchrome ?_⟩
          rw [hedge]
          simpa using (mem_chromeLines U).mpr hrun
        · split at h <;> cases h
  · rintro ⟨line, h⟩
    have hchrome : ¬ normalize U line ∈ chromeLines U pages := fun hin =>
      h.once ((mem_chromeLines U).mp hin)
    have hplace := (folio_place U h.stands h.number).mpr h.place
    rw [removal_eq U h.stands, ruleOf, if_neg h.nonblank, if_neg (by simp [hchrome]),
      if_pos (by rw [h.number, hplace]; rfl)]

theorem keptLines_sublist (chrome lines : List Text) :
    (keptLines U chrome lines).Sublist lines := by
  have hpairs : ∀ pairs : List (Text × Nat), (pairs.filterMap fun (line, i) =>
      if ruleOf U chrome lines i line = none then some line else none).Sublist
        (pairs.map Prod.fst) := by
    intro pairs
    induction pairs with
    | nil => exact .slnil
    | cons pair pairs ih =>
      obtain ⟨line, i⟩ := pair
      rw [List.filterMap_cons, List.map_cons]
      dsimp only
      by_cases hkeep : ruleOf U chrome lines i line = none
      · rw [if_pos hkeep]
        exact ih.cons_cons _
      · rw [if_neg hkeep]
        exact ih.cons _
  have hall := hpairs lines.zipIdx
  rwa [List.zipIdx_map_fst] at hall

/-! ## A bare number is nothing else -/

/-- The characters of page numbers. -/
def isNumberChar (c : Char) : Bool := c.isDigit || c == '-' || c == '.' || isRomanLetter c

theorem fullMatch_only {p : Pattern Char} {f : Char → Bool} (hp : p.Only f) {t : Text}
    (h : fullMatch p t = true) : ∀ c ∈ t, f c = true := by
  obtain ⟨e, he, hend⟩ := List.any_eq_true.mp h
  obtain ⟨w, hw, hall⟩ := hp _ e he
  have ht : t = w := by
    have hrest := hw.rest
    rwa [List.isEmpty_iff.mp hend, List.append_nil] at hrest
  rwa [ht]

theorem one_only {f g : Char → Bool} (h : ∀ c, f c = true → g c = true) : (one f).Only g :=
  Pattern.Only.one h

theorem opt_only {p : Pattern Char} {f : Char → Bool} (hp : p.Only f) : (opt p).Only f :=
  hp.alt (.empty f)

theorem upTo_only {p : Pattern Char} {f : Char → Bool} (hp : p.Only f) (n : Nat) :
    (upTo n p).Only f := by
  induction n with
  | zero => exact .empty f
  | succ n ih => exact opt_only (hp.seq ih)

theorem row_only {ps : List (Pattern Char)} {f : Char → Bool} (h : ∀ p ∈ ps, p.Only f) :
    (row ps).Only f := by
  induction ps with
  | nil => exact .empty f
  | cons p ps ih =>
    obtain ⟨hp, hps⟩ := List.forall_mem_cons.mp h
    exact hp.seq (ih hps)

theorem oneOf_only : (oneOf "-.").Only isNumberChar := one_only fun c hc => by
  have hmem : c ∈ ['-', '.'] := by simpa [oneOf] using hc
  rcases List.mem_cons.mp hmem with rfl | hmem
  · decide
  · rw [List.mem_singleton.mp hmem]
    decide

theorem number_only : number.Only isNumberChar := by
  have hdigit : (one Char.isDigit).Only isNumberChar := one_only fun c hc => by
    simp [isNumberChar, hc]
  exact hdigit.seq hdigit.many

theorem letterCi_only {p : Char} (hp : p ∈ ['i', 'v', 'x', 'l', 'c', 'd', 'm']) :
    (letterCi p).Only isNumberChar := one_only fun c hc => by
  have hroman : isRomanLetter c = true := List.any_eq_true.mpr ⟨p, hp, hc⟩
  simp [isNumberChar, hroman]

theorem wordCi_only {t : String} (h : ∀ p ∈ t.toList, p ∈ ['i', 'v', 'x', 'l', 'c', 'd', 'm']) :
    (wordCi t).Only isNumberChar := by
  unfold wordCi
  generalize t.toList = letters at h ⊢
  induction letters with
  | nil => exact .empty _
  | cons p ps ih =>
    obtain ⟨hp, hps⟩ := List.forall_mem_cons.mp h
    exact (letterCi_only hp).seq (ih hps)

theorem romanPlace_only {nine four : String} {five ones : Char}
    (h : ∀ p ∈ five :: ones :: nine.toList ++ four.toList,
      p ∈ ['i', 'v', 'x', 'l', 'c', 'd', 'm']) :
    (romanPlace nine four five ones).Only isNumberChar := by
  simp only [List.cons_append, List.forall_mem_cons, List.forall_mem_append] at h
  obtain ⟨hfive, hone, hnine, hfour⟩ := h
  exact (wordCi_only hnine).alt ((wordCi_only hfour).alt
    ((opt_only (letterCi_only hfive)).seq (upTo_only (letterCi_only hone) 3)))

theorem romanNumeralRe_only : romanNumeralRe.Only isNumberChar := by
  refine row_only fun p hp => ?_
  simp only [List.mem_cons, List.not_mem_nil, or_false] at hp
  rcases hp with rfl | rfl | rfl | rfl | rfl | rfl
  · exact .test _ _
  · exact (letterCi_only (by decide)).many
  · have hletters : ∀ p ∈ 'd' :: 'c' :: "cm".toList ++ "cd".toList,
        p ∈ ['i', 'v', 'x', 'l', 'c', 'd', 'm'] := by simp
    exact romanPlace_only hletters
  · have hletters : ∀ p ∈ 'l' :: 'x' :: "xc".toList ++ "xl".toList,
        p ∈ ['i', 'v', 'x', 'l', 'c', 'd', 'm'] := by simp
    exact romanPlace_only hletters
  · have hletters : ∀ p ∈ 'v' :: 'i' :: "ix".toList ++ "iv".toList,
        p ∈ ['i', 'v', 'x', 'l', 'c', 'd', 'm'] := by simp
    exact romanPlace_only hletters
  · exact opt_only oneOf_only

theorem decimalPageRe_only : decimalPageRe.Only isNumberChar := by
  refine row_only fun p hp => ?_
  simp only [List.mem_cons, List.not_mem_nil, or_false] at hp
  rcases hp with rfl | rfl | rfl
  · exact number_only
  · have hdash : (lit "-").Only isNumberChar :=
      (one_only fun c hc => by rw [of_decide_eq_true hc]; decide).seq (.empty _)
    exact opt_only (hdash.seq number_only)
  · exact opt_only oneOf_only

theorem isPageNumber_chars {line : Text} (h : isPageNumber line = true) :
    ∀ c ∈ strip line, isNumberChar c = true :=
  (Bool.or_eq_true _ _ ▸ h).elim (fullMatch_only decimalPageRe_only)
    (fullMatch_only romanNumeralRe_only)

theorem isNumberChar_toLower {c : Char} (h : isNumberChar c = true) : c.toLower ≠ 'o' := by
  intro hlower
  have hc : c = 'o' ∨ c = 'O' := by
    unfold Char.toLower at hlower
    split at hlower
    · next hup =>
      right
      obtain ⟨h1, h2⟩ := hup
      have h2' : c.val.toNat ≤ 90 := h2
      have hval : (c.val + 32).toNat = c.val.toNat + 32 := by
        rw [UInt32.toNat_add]
        exact Nat.mod_eq_of_lt (by show c.val.toNat + 32 < 4294967296; omega)
      have hsum : (c.val + 32).toNat = 111 := congrArg (fun d : Char => d.val.toNat) hlower
      refine Char.ext (UInt32.toNat_inj.mp ?_)
      have ho : 'O'.val.toNat = 79 := by decide
      omega
    · exact .inl hlower
  rcases hc with rfl | rfl
  · exact absurd h (by decide)
  · exact absurd h (by decide)

/-- A line removed as a folio is removed only for being a bare number. -/
theorem isPageNumber_only {line : Text} (h : isPageNumber line = true) :
    isEntryRange line = false ∧ isCopyrightNotice U line = false := by
  have hchars := isPageNumber_chars h
  constructor
  · rw [Bool.eq_false_iff]
    intro hrange
    have hcollapsed : ∀ c ∈ collapsed line, c = ' ' ∨ isNumberChar c = true :=
      forall_mem_sub (fun w _ c hc => .inl (List.mem_singleton.mp hc)) fun c hc => .inr (hchars c hc)
    obtain ⟨e, he, -⟩ := List.any_eq_true.mp hrange
    obtain ⟨m, hm, he⟩ := mem_runs_seq.mp he
    obtain ⟨m', hm', -⟩ := mem_runs_seq.mp he
    obtain ⟨v, hv⟩ := runs_along _ _ m hm
    have hbullet := (mem_runs_word.mp hm').rest
    have hmem : '\u2022' ∈ collapsed line := by
      have hrest := hv.rest
      rw [hbullet] at hrest
      simp only at hrest
      rw [hrest]
      simp
    exact absurd (hcollapsed _ hmem) (by decide)
  · rw [Bool.eq_false_iff]
    intro hcopy
    obtain ⟨r, hr⟩ := Option.isSome_iff_exists.mp hcopy
    obtain ⟨e, he, -⟩ := Option.map_eq_some_iff.mp hr
    obtain ⟨m, hm, he⟩ := mem_runs_seq.mp (List.mem_of_head? he)
    obtain ⟨m', hm', he⟩ := mem_runs_seq.mp he
    obtain ⟨n, hn, -⟩ := mem_runs_seq.mp he
    obtain ⟨n', hn', hn⟩ := mem_runs_seq.mp hn
    obtain ⟨k, hk, -⟩ := mem_runs_seq.mp hn
    obtain ⟨c, -, hc⟩ := mem_runs_one hn'
    obtain ⟨o, ho, hoa⟩ := mem_runs_one hk
    obtain ⟨v, hv⟩ := runs_along _ _ m hm
    obtain ⟨v', hv'⟩ := runs_along _ _ m' hm'
    have hmem : o ∈ strip line := by
      have hrest := hv.rest
      rw [hv'.rest, hc.rest, hoa.rest] at hrest
      simp only at hrest
      rw [hrest]
      simp
    have ho' : ciChar 'o' o = true := ho
    have hlower : o.toLower = 'o' := by simpa [ciChar] using ho'
    exact isNumberChar_toLower (hchars o hmem) hlower

/-- Only furniture goes exactly when no page has two folios. -/
theorem stripChrome_onlyFurniture_iff (pages : List Text) :
    OnlyFurniture U pages ↔ OneFolio U pages := by
  constructor
  · intro h page hpage i j a b ha hb
    exact h.one_number page hpage i j ((removal_folio_iff U).mpr ⟨a, ha⟩)
      ((removal_folio_iff U).mpr ⟨b, hb⟩)
  · intro h
    refine ⟨fun page _ => ⟨_, keptLines_sublist U _ _, rfl⟩, fun page _ i hi => ?_,
      fun page hpage i j hi hj => ?_, fun page _ i hi => ?_, fun page _ hf i hi => ?_,
      fun page _ i line hline hi => ?_, fun pages' hp => stripChrome_perm U hp⟩
    · obtain ⟨line, hline⟩ := exists_of_removal U hi
      exact ruleOf_edge U (removal_eq U hline ▸ hi)
    · obtain ⟨a, ha⟩ := (removal_folio_iff U).mp hi
      obtain ⟨b, hb⟩ := (removal_folio_iff U).mp hj
      exact h page hpage i j a b ha hb
    · obtain ⟨line, hat⟩ := (removal_folio_iff U).mp hi
      exact ⟨line, hat, isPageNumber_only U hat.number⟩
    · obtain ⟨line, hat⟩ := (removal_folio_iff U).mp hi
      have hplace := hat.place
      rwa [folioEdge, if_pos hf] at hplace
    · exact (mem_chromeLines U).mp (ruleOf_chrome U (removal_eq U hline ▸ hi))

end

/-- Two bare numbers at the bottom edge both go. -/
theorem two_numbers_removed :
    ¬ ∀ (U : CharTables) (pages : List Text), OnlyFurniture U pages := by
  intro h
  have hfirst : removal asciiTables ["12\n13".toList] "12\n13".toList 0 = some .folio := by
    decide +kernel
  have hsecond : removal asciiTables ["12\n13".toList] "12\n13".toList 1 = some .folio := by
    decide +kernel
  exact absurd ((h asciiTables ["12\n13".toList]).one_number _ List.mem_cons_self 0 1 hfirst hsecond)
    (by decide)

end MainframeRag.Ingest.Chrome
