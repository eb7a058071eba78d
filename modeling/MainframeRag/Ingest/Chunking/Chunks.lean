import MainframeRag.Ingest.Chunking.Outline
import MainframeRag.Ingest.Identity

/-!
# Chunks

`make_chunks`: the pages of each section are split into paragraphs, the paragraphs into blocks, and
every block becomes a chunk with its key, printed page label, codes and stored unit spans.

`Extractors` holds what a chunk takes from other modules: `uuid5`, `classify` and the identifier
extractors. Nothing here depends on what they return.
-/

namespace MainframeRag.Ingest.Chunking

open PyText

/-! ## Printed labels -/

inductive LabelClass
  | digits
  | letters
  | other
  deriving DecidableEq

def labelClass (U : CharTables) (c : Char) : LabelClass :=
  if U.isDecimal c then .digits else if c.isAlpha then .letters else .other

/-- `\d+|[A-Za-z]+|[^\dA-Za-z]+`, all matches: the runs of one class. -/
def labelTokens (U : CharTables) (label : Text) : List Text :=
  label.splitBy (fun a b => labelClass U a == labelClass U b)

def dropWord : Text → Text → Option Text
  | [], t => some t
  | _ :: _, [] => none
  | p :: ps, c :: t => if p = c then dropWord ps t else none

/-- `(?:m{0,3})(?:cm|cd|d?c{0,3})(?:xc|xl|l?x{0,3})(?:ix|iv|v?i{0,3})`, full match -/
def roman (t : Text) : Bool :=
  let thousands := ["", "m", "mm", "mmm"]
  let hundreds := ["cm", "cd", "", "c", "cc", "ccc", "d", "dc", "dcc", "dccc"]
  let tens := ["xc", "xl", "", "x", "xx", "xxx", "l", "lx", "lxx", "lxxx"]
  let ones := ["ix", "iv", "", "i", "ii", "iii", "v", "vi", "vii", "viii"]
  let behind := fun (ws : List String) (t : Text) => ws.filterMap (fun w => dropWord w.toList t)
  ([] : Text) ∈ ((behind thousands t).flatMap (behind hundreds)).flatMap
    (fun r => (behind tens r).flatMap (behind ones))

def romanDigit (c : Char) : Int :=
  match c with
  | 'i' => 1
  | 'v' => 5
  | 'x' => 10
  | 'l' => 50
  | 'c' => 100
  | 'd' => 500
  | 'm' => 1000
  | _ => 0

def romanSum : List Int → Int
  | [] => 0
  | [v] => v
  | v :: w :: vs => (if v < w then -v else v) + romanSum (w :: vs)

/-- `str.islower` -/
def islower (U : CharTables) (t : Text) : Bool :=
  t.all (fun c => !U.isUpper c && !U.isTitle c) && t.any U.isLower

/-- `str.isupper` -/
def isupper (U : CharTables) (t : Text) : Bool :=
  t.all (fun c => !U.isLower c && !U.isTitle c) && t.any U.isUpper

def romanValue (U : CharTables) (token : Text) : Option Int :=
  if !(islower U token || isupper U token) || !roman (U.lower token) then none
  else some (romanSum ((U.lower token).map romanDigit))

/-- Python converts at most this many digits. -/
def intMaxStrDigits : Nat := 4300

/-- `int(token)`; `none` is a `ValueError`. -/
def intValue (U : CharTables) (token : Text) : Option Nat :=
  if token = [] ∨ intMaxStrDigits < token.length ∨ !token.all U.isDecimal then none
  else some (token.foldl (fun n c => 10 * n + U.decimalValue c) 0)

def isdigit (U : CharTables) (t : Text) : Bool := t ≠ [] && t.all U.isDigit

/-- At the first differing run both must be numbers that grow. `none` is a `ValueError`. -/
def tokensAdvance (U : CharTables) : List Text → List Text → Option Bool
  | x :: xs, y :: ys =>
    if x = y then tokensAdvance U xs ys
    else if isdigit U x && isdigit U y then
      (intValue U y).bind (fun n => (intValue U x).map (fun m => decide (m < n)))
    else match romanValue U x, romanValue U y with
      | some rx, some ry =>
        if islower U x = islower U y then some (decide (rx < ry)) else some (letterAdvance x y)
      | _, _ => some (letterAdvance x y)
  | _, _ => some false
where
  letterAdvance (x y : Text) : Bool :=
    match x, y with
    | [c], [d] =>
      U.isAlpha c && U.isAlpha d && (islower U [c] == islower U [d]) && decide (c < d)
    | _, _ => false

def labelAdvances (U : CharTables) (prev cur : Text) : Option Bool :=
  if (labelTokens U prev).length ≠ (labelTokens U cur).length then some false
  else tokensAdvance U (labelTokens U prev) (labelTokens U cur)

def allAdvance (U : CharTables) : List Text → Option Bool
  | a :: b :: labels =>
    (labelAdvances U a b).bind (fun ok => if ok then allAdvance U (b :: labels) else some false)
  | _ => some true

/-- `_page_label_range`; `none` is an exception. -/
def pageLabelRange (U : CharTables) (labels : List (Option Text)) : Option Text :=
  let present := labels.filterMap (fun l => l.bind (fun t => if t = [] then none else some t))
  if present = [] ∨ present.length ≠ labels.length then some []
  else match present with
    | [] => some []
    | [first] => some first
    | first :: _ =>
      (allAdvance U present).map
        (fun ok => if ok then first ++ ['–'] ++ present.getLast?.getD [] else [])

/-! ## Paragraphs -/

/-- A whitespace run behind a line feed: all of it and what follows its last line feed, both
reversed, and whether it holds a second line feed. -/
structure Gap where
  run : Text
  tail : Text
  blankLine : Bool

/-- `re.split(r"\n\s*\n", …)`; `piece` is the paragraph read so far, reversed. -/
def blankSplitFrom : Option Gap → Text → Text → List Text
  | none, piece, [] => [piece.reverse]
  | some g, piece, [] =>
    if g.blankLine then [piece.reverse, g.tail.reverse] else [(g.run ++ piece).reverse]
  | none, piece, c :: t =>
    if c = '\n' then blankSplitFrom (some ⟨[c], [], false⟩) piece t
    else blankSplitFrom none (c :: piece) t
  | some g, piece, c :: t =>
    if c = '\n' then blankSplitFrom (some ⟨c :: g.run, [], true⟩) piece t
    else if isSpace c then blankSplitFrom (some ⟨c :: g.run, c :: g.tail, g.blankLine⟩) piece t
    else if g.blankLine then piece.reverse :: blankSplitFrom none (c :: g.tail) t
    else blankSplitFrom none (c :: (g.run ++ piece)) t

def blankSplit (t : Text) : List Text := blankSplitFrom none [] t

def bodyPages (s : Section) (pageTexts : List Text) : List Text :=
  match (pageTexts.take s.pageEnd).drop s.pageStart with
  | [] => []
  | p :: ps =>
    (match s.endChar with
      | none => p.drop s.startChar
      | some stop => slice p s.startChar stop) :: ps

def sectionParas (s : Section) (pageTexts : List Text) : List (Nat × Text) :=
  (bodyPages s pageTexts).zipIdx.flatMap fun (pageText, offset) =>
    ((blankSplit pageText).map strip).filterMap
      (fun para => if para = [] then none else some (s.pageStart + offset, para))

/-! ## Chunks -/

structure Extractors where
  uuid5 : Text → Text
  classify : Text → Text
  findMessageIds : Text → List Text
  findMembers : Text → List Text

structure Chunk where
  chunkId : Text
  docId : Text
  headingPath : Text
  pageStart : Nat
  pageLabel : Text
  chunkType : Text
  text : Text
  messageIds : List Text
  members : List Text
  ordinal : Nat
  systemCodes : List Text
  /-- `none`: unknown, past the bound; `some []`: known prose -/
  units : Option (List UnitSpan)
  pageEnd : Nat

def maxStoredSpans : Nat := 512

def storedSpans (spans : List UnitSpan) : Option (List UnitSpan) :=
  if spans.any (fun s => s.kind = .atomic) then
    if maxStoredSpans < spans.length then none else some spans
  else some []

def natText (n : Nat) : Text := Nat.toDigits 10 n

def makeChunkId (X : Extractors) (sourceRev headingPath : Text) (pageStart ordinal : Nat) : Text :=
  X.uuid5 (List.intercalate ['|'] [sourceRev, headingPath, natText pageStart, natText ordinal])

/-- `\bwait\s+states?\b`, searched without case; the flag says that a word character stands before
the text. -/
def waitstateFrom (U : CharTables) : Bool → Text → Bool
  | _, [] => false
  | inWord, c :: t =>
    (!inWord && match dropPrefixCi "wait".toList (c :: t) with
      | none => false
      | some r => startsSpace r && ["states", "state"].any fun w =>
        match dropPrefixCi w.toList (lstrip r) with
        | none => false
        | some [] => true
        | some (d :: _) => !U.isWord d) || waitstateFrom U (U.isWord c) t

/-- `path.stem` of a file path. -/
def pathStem (path : Text) : Text :=
  let name := (path.reverse.takeWhile (· ≠ '/')).reverse
  let suffix := (name.reverse.takeWhile (· ≠ '.')).reverse
  if suffix.length + 1 < name.length ∧ suffix ≠ [] then
    name.take (name.length - suffix.length - 1)
  else name

def docSections (U : CharTables) (parsed : ParsedDoc) (pageTexts : List Text) : List Section :=
  if parsed.toc = [] then fallbackSections U pageTexts parsed.title
  else outlineSections U parsed (some pageTexts)

/-- What the accumulation emits for a section's paragraphs. -/
def sectionEmissions (U : CharTables) (s : Section) (pageTexts : List Text) :
    List (Emission Char) :=
  let paras := sectionParas s pageTexts
  emissions '\n' (expand U paras (isCodeSection U paras))

def pageLabels (parsed : ParsedDoc) (labels : List (Option Text)) : List (Option Text) :=
  if labels = [] then List.replicate parsed.pageCount none else labels

/-- The chunk of one block; `none` is an exception from the label range. -/
def chunkOf (U : CharTables) (X : Extractors) (parsed : ParsedDoc) (pageTexts : List Text)
    (labels : List (Option Text)) (s : Section) (ordinal : Nat) (e : Emission Char) :
    Option Chunk :=
  let b := e.block '\n'
  let revision := sourceRevKey U (some parsed.vendor) parsed.product parsed.version parsed.sha256
  let spanLabels := (List.range' b.pageStart (b.pageEnd + 1 - b.pageStart)).map
    (fun idx => ((pageLabels parsed labels)[idx]?).getD none)
  (pageLabelRange U spanLabels).map fun label =>
    { chunkId := makeChunkId X revision s.headingPath b.pageStart ordinal
      docId := if parsed.docId = [] then pathStem parsed.path else parsed.docId
      headingPath := s.headingPath
      pageStart := b.pageStart
      pageLabel := label
      chunkType := X.classify b.text
      text := b.text
      messageIds := X.findMessageIds b.text
      members := X.findMembers b.text
      ordinal := ordinal
      systemCodes :=
        if isCodeSection U (sectionParas s pageTexts) then
          extractSystemCodes U b.text (waitstateFrom U false s.headingPath)
        else []
      units := storedSpans b.spans
      pageEnd := b.pageEnd }

/-- Every block of the document with its section and its ordinal there. -/
def docBlocks (U : CharTables) (parsed : ParsedDoc) (pageTexts : List Text) :
    List (Section × Nat × Emission Char) :=
  (docSections U parsed pageTexts).flatMap fun s =>
    (sectionEmissions U s pageTexts).zipIdx.map (fun p => (s, p.2, p.1))

/-- `make_chunks`; absent labels are the empty list. -/
def makeChunks (U : CharTables) (X : Extractors) (parsed : ParsedDoc) (pageTexts : List Text)
    (labels : List (Option Text)) : Option (List Chunk) :=
  (docBlocks U parsed pageTexts).mapM
    (fun b => chunkOf U X parsed pageTexts labels b.1 b.2.1 b.2.2)

end MainframeRag.Ingest.Chunking
