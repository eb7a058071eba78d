import MainframeRag.Ingest.Chunking.Expand

/-!
# Sections

`outline_sections` files a document's pages under its bookmarks, and `fallback_sections` windows a
document without any. Levels and page numbers of the outline are arbitrary integers; section pages
are 0-based.
-/

namespace MainframeRag.Ingest.Chunking

open PyText

structure Section where
  headingPath : Text
  pageStart : Nat
  pageEnd : Nat
  startChar : Nat := 0
  endChar : Option Nat := none
  deriving DecidableEq

/-- One bookmark: level, title and 1-based page. -/
structure TocEntry where
  level : Int
  title : Text
  page : Int
  deriving DecidableEq

def frontMatterMinPages : Nat := 2

def headingPathMaxChars : Nat := 512

/-! ## Titles -/

def cleanTitle (title : Text) : Text := strip (collapseBlanks false title)

def titleKey (U : CharTables) (title : Text) : Text := (cleanTitle title).flatMap U.casefold

/-- Offset of the first line at or after `start` that opens with the title, in whole words; the
lines carry their ends, `offset` is where the first of them starts. -/
def titleLineFrom (U : CharTables) (want : Text) (start : Nat) : Nat → List Text → Option Nat
  | _, [] => none
  | offset, line :: lines =>
    let key := titleKey U line
    if start ≤ offset ∧ key ≠ [] ∧ (key = want ∨ (want ++ [' ']).isPrefixOf key) then
      some offset
    else titleLineFrom U want start (offset + line.length) lines

def titleLineOffset (U : CharTables) (t title : Text) (start : Nat) : Option Nat :=
  titleLineFrom U (titleKey U title) start 0 (splitlinesKeep t [])

/-- The text ends with a literal matched without case; the literal is lower case. -/
def endsCi (suffix t : Text) : Bool :=
  suffix.length ≤ t.length && dropPrefixCi suffix (t.drop (t.length - suffix.length)) = some []

/-- `(notices?|trademarks?|reader'?s comments|bibliography|copyright|index)\s*$`, searched without
case -/
def skipAlways (title : Text) : Bool :=
  ["notice", "notices", "trademark", "trademarks", "reader's comments", "readers comments",
    "bibliography", "copyright", "index"].any (fun w => endsCi w.toList (rstrip title))

/-- `^(contents|figures|tables|summary of changes)$` without case, on a stripped title -/
def frontMatter (title : Text) : Bool :=
  ["contents", "figures", "tables", "summary of changes"].any
    (fun w => dropPrefixCi w.toList title = some [])

def namedSkip (title : Text) (page frontMatterLimit : Int) : Bool :=
  skipAlways title || (frontMatter title && page ≤ frontMatterLimit)

def headingSep : Text := " > ".toList

/-- Drops the outermost ancestors until the path fits. -/
def joinHeadingPath : List Text → Text
  | [] => []
  | [title] => title
  | title :: titles =>
    let path := List.intercalate headingSep (title :: titles)
    if headingPathMaxChars < path.length then joinHeadingPath titles else path

/-! ## Bookmarks that share a page -/

/-- A kept bookmark with its heading path. -/
structure GroupEntry where
  level : Int
  title : Text
  path : Text

/-- Where each later bookmark's title line starts, in order; `last` is the previous start. -/
def laterStarts (U : CharTables) (pageText : Text) : Nat → Bool → List GroupEntry →
    Option (List Nat)
  | _, _, [] => some []
  | last, first, e :: es =>
    match titleLineOffset U pageText e.title (last + if first then 0 else 1) with
    | none => none
    | some s => (laterStarts U pageText s false es).map (s :: ·)

def slice (t : Text) (start stop : Nat) : Text := (t.take stop).drop start

/-- The page's pieces, an empty path marking one that folds into the next. -/
def foldPieces (U : CharTables) (pageText : Text) : List (GroupEntry × Nat) →
    List (Text × Nat) → Option (List (Text × Nat))
  | [], pieces => some pieces
  | (e, own) :: rest, pieces =>
    let folded := (pieces.getLast?.map Prod.fst) = some []
    let start := if folded then (pieces.getLast?.map Prod.snd).getD own else own
    let pieces := if folded then pieces.dropLast else pieces
    let folds := match rest with
      | [] => false
      | (next, nextStart) :: _ =>
        decide (e.level < next.level) || ((splitlines (slice pageText own nextStart)).filter
          (fun l => strip l ≠ [] ∧ titleKey U l ≠ titleKey U e.title)).isEmpty
    if folds then foldPieces U pageText rest (pieces ++ [([], start)])
    else if pieces.any (fun p => p.1 = e.path) then none
    else foldPieces U pageText rest (pieces ++ [(e.path, start)])

def sharedPagePieces (U : CharTables) (group : List GroupEntry) (pageText : Text)
    (uniqueTitles : List Text) : Option (List (Text × Nat)) :=
  match group with
  | [] => some []
  | e :: es =>
    let later := es.filter (fun e => titleKey U e.title ∈ uniqueTitles)
    match laterStarts U pageText 0 true later with
    | none => none
    | some starts => foldPieces U pageText ((e :: later).zip (0 :: starts)) []

/-! ## Leading pages -/

structure LeadState where
  sections : List Section := []
  runStart : Option Nat := none
  owner : Option (Text × Int) := none
  entries : List TocEntry

/-- One page of `_leading_sections`; `firstKept` is the page of the first kept bookmark. -/
def LeadState.feed (title : Text) (firstKept frontMatterLimit : Nat) (s : LeadState)
    (page : Nat) : LeadState :=
  let passed := s.entries.takeWhile (fun e => e.page ≤ (page : Int) + 1)
  let owner := match passed.getLast? with
    | none => s.owner
    | some e => some (cleanTitle e.title, e.page)
  let entries := s.entries.dropWhile (fun e => e.page ≤ (page : Int) + 1)
  let skipped := page < frontMatterLimit && match owner with
    | none => false
    | some o => namedSkip o.1 o.2 frontMatterLimit
  if page < firstKept ∧ !skipped then ⟨s.sections, s.runStart.or (some page), owner, entries⟩
  else match s.runStart with
    | none => ⟨s.sections, none, owner, entries⟩
    | some start => ⟨s.sections ++ [⟨title, start, page, 0, none⟩], none, owner, entries⟩

def leadingSections (title : Text) (entries : List TocEntry) (firstKept frontMatterLimit : Nat) :
    List Section :=
  ((List.range (firstKept + 1)).foldl (LeadState.feed title firstKept frontMatterLimit)
    { entries := entries }).sections

/-! ## The outline -/

structure ParsedDoc where
  path : Text
  sha256 : Text
  docId : Text
  title : Text
  product : Option Text := none
  version : Option Text := none
  vendor : Text := "unknown".toList
  toc : List TocEntry := []
  pageCount : Nat := 0

/-- `max(FRONT_MATTER_MIN_PAGES, int(0.15 * page_count))` -/
def frontMatterLimit (pageCount : Nat) : Nat := max frontMatterMinPages (15 * pageCount / 100)

def keptEntries (entries : List TocEntry) (limit : Nat) : List TocEntry :=
  (entries.map (fun e => { e with title := cleanTitle e.title })).filter
    (fun e => e.title ≠ [] ∧ !namedSkip e.title e.page limit)

/-- The sections of one page's group of bookmarks. -/
def groupSections (U : CharTables) (pageTexts : Option (List Text)) (uniqueTitles : List Text)
    (group : List GroupEntry) (headingPath : Text) (start stop : Nat) : List Section :=
  let pieces := match pageTexts.bind (fun ps => ps[start]?) with
    | none => none
    | some pageText =>
      if 1 < group.length then sharedPagePieces U group pageText uniqueTitles else none
  match pieces with
  | some (p :: q :: rest) =>
    let ps := p :: q :: rest
    (List.zipWith (fun a b => (⟨a.1, start, start + 1, a.2, some b.2⟩ : Section)) ps ps.tail) ++
      (ps.getLast?.map (fun l => (⟨l.1, start, stop, l.2, none⟩ : Section))).toList
  | _ => [⟨headingPath, start, stop, 0, none⟩]

/-- The main loop: `stack` holds the open ancestors, innermost first. -/
def outlineLoop (U : CharTables) (pageCount : Nat) (pageTexts : Option (List Text))
    (uniqueTitles : List Text) : List (Int × Text) → List GroupEntry → List TocEntry →
    List Section
  | _, _, [] => []
  | stack, group, e :: rest =>
    let stack := (e.level, e.title) :: stack.dropWhile (fun a => e.level ≤ a.1)
    let headingPath := joinHeadingPath (stack.reverse.map Prod.snd)
    let group := group ++ [⟨e.level, e.title, headingPath⟩]
    let start := (e.page - 1).toNat
    let stop := match rest with
      | [] => pageCount
      | next :: _ => max start (next.page - 1).toNat
    if start < stop then
      groupSections U pageTexts uniqueTitles group headingPath start stop ++
        outlineLoop U pageCount pageTexts uniqueTitles stack [] rest
    else outlineLoop U pageCount pageTexts uniqueTitles stack group rest

def outlineSections (U : CharTables) (parsed : ParsedDoc) (pageTexts : Option (List Text)) :
    List Section :=
  if parsed.toc = [] then [⟨parsed.title, 0, parsed.pageCount, 0, none⟩]
  else
    let limit := frontMatterLimit parsed.pageCount
    let entries := parsed.toc.mergeSort (fun a b => a.page ≤ b.page)
    let kept := keptEntries entries limit
    let keys := kept.map (fun e => titleKey U e.title)
    let uniqueTitles := keys.filter (fun k => keys.count k = 1)
    let firstKept := match kept with
      | [] => parsed.pageCount
      | e :: _ => min parsed.pageCount (e.page - 1).toNat
    leadingSections parsed.title entries firstKept limit ++
      outlineLoop U parsed.pageCount pageTexts uniqueTitles [] [] kept

/-! ## No outline -/

def fallbackMaxPages : Nat := 10

def fallbackHeadingChars : Nat := 100

/-- Where `\d+(?:\.\d+)+\s+\S` stands: before the first digit, in the first number, behind a dot, in
a later number. -/
inductive Numbering
  | lead
  | major
  | dot
  | minor

/-- `\d+(?:\.\d+)+\s+\S` -/
def numbered (U : CharTables) : Numbering → Text → Bool
  | _, [] => false
  | .lead, c :: t => U.isDecimal c && numbered U .major t
  | .major, c :: t =>
    if U.isDecimal c then numbered U .major t else c == '.' && numbered U .dot t
  | .dot, c :: t => U.isDecimal c && numbered U .minor t
  | .minor, c :: t =>
    if U.isDecimal c then numbered U .minor t
    else if c = '.' then numbered U .dot t
    else isSpace c && lstrip t ≠ []

/-- `^\s*(?:\d+(?:\.\d+)+\s+\S|(?:chapter|appendix|section)\b)` without case, on a stripped line -/
def fallbackHeading (U : CharTables) (lead : Text) : Bool :=
  numbered U .lead lead || ["chapter", "appendix", "section"].any fun w =>
    match dropPrefixCi w.toList lead with
    | none => false
    | some [] => true
    | some (c :: _) => !U.isWord c

structure FallbackState where
  sections : List Section := []
  start : Nat := 0
  headingPath : Text

def FallbackState.feed (U : CharTables) (title : Text) (s : FallbackState)
    (page : Text × Nat) : FallbackState :=
  let idx := page.2
  let lead := strip (((splitlines page.1).find? (fun l => strip l ≠ [])).getD [])
  let newHeading := lead ≠ [] && fallbackHeading U lead
  if s.start < idx ∧ (newHeading ∨ fallbackMaxPages ≤ idx - s.start) then
    ⟨s.sections ++ [⟨s.headingPath, s.start, idx, 0, none⟩], idx,
      if newHeading then title ++ headingSep ++ (cleanTitle lead).take fallbackHeadingChars
      else title⟩
  else s

def fallbackSections (U : CharTables) (pageTexts : List Text) (title : Text) : List Section :=
  let s := pageTexts.zipIdx.foldl (FallbackState.feed U title) { headingPath := title }
  let last : Section := ⟨s.headingPath, s.start, pageTexts.length, 0, none⟩
  (s.sections ++ [last]).filter (fun x => x.pageStart < x.pageEnd)

end MainframeRag.Ingest.Chunking
