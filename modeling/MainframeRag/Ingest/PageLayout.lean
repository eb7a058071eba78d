import MainframeRag.Ingest.Chrome
import MainframeRag.Lib.Dict
import MainframeRag.Lib.Peeling
import MainframeRag.Lib.Words
import Mathlib.Algebra.Order.Field.Rat
import Mathlib.Data.List.Sort

/-!
# Page text extraction

`extract_page_text` of `ibm_pdf.py` over exact rational geometry: the boxes of the lines, the
revision bars in the margin (`IsMarginBarLines`, a relation, since the order in which elements leave
a set is open), the runs of short blocks (`groups`), and the rows rebuilt from a run (`tableOf`).
-/

namespace MainframeRag.Ingest.PageLayout

open PyText Regex

/-! ## The page -/

structure Box where
  x0 : ℚ
  y0 : ℚ
  x1 : ℚ
  y1 : ℚ
  deriving DecidableEq

structure Block where
  box : Box
  text : Text
  number : Nat
  /-- the seventh entry, of a tuple that has one -/
  kind : Option Nat

structure Word where
  box : Box
  block : Nat
  line : Nat

/-- A block of the `dict` output: the flags of the spans of its lines. -/
structure DictBlock where
  number : Nat
  type : Nat
  lines : List (List Nat)

structure Page where
  /-- `get_text()` -/
  plain : Text
  /-- `get_text("blocks")` -/
  blocks : List Block
  /-- `get_text("words")` -/
  words : List Word
  /-- `get_text("dict")["blocks"]` -/
  dict : List DictBlock

/-- A block number and a line index. -/
abbrev Key := Nat × Nat

abbrev LineBoxes := List (Key × Box)

def Box.cover (a b : Box) : Box := ⟨min a.x0 b.x0, min a.y0 b.y0, max a.x1 b.x1, max a.y1 b.y1⟩

def lineBoxes (words : List Word) : LineBoxes :=
  words.foldl (fun d w =>
    Dict.put d (w.block, w.line) (((Dict.get d (w.block, w.line)).getD w.box).cover w.box)) []

/-- `text.split("\n")`, with the place of each line. -/
def linesAt (number : Nat) (text : Text) : List (Key × Text) :=
  (text.splitOn '\n').zipIdx.map fun l => ((number, l.2), l.1)

def linesOf (blocks : List Block) : List (Key × Text) :=
  blocks.flatMap fun b => linesAt b.number b.text

/-- `b[6] == 0` -/
def textBlocks (page : Page) : List Block := page.blocks.filter fun b => b.kind = some 0

/-! ## Margin bars -/

def textFontMonospaced : Nat := 8

def monospaced (dict : List DictBlock) : List Key :=
  (dict.filter fun b => b.type = 0).flatMap fun b =>
    (b.lines.zipIdx.filter fun l => l.1.any fun flags => flags &&& textFontMonospaced ≠ 0).map
      fun l => (b.number, l.2)

def barLines (blocks : List Block) (boxes : LineBoxes) : Finset Key :=
  (((linesOf blocks).filter fun l => strip l.2 = ['|'] ∧ (Dict.get boxes l.1).isSome).map
    Prod.fst).toFinset

/-- The boxes of the lines that are no bar. -/
def bodyBoxes (blocks : List Block) (boxes : LineBoxes) : List Box :=
  (boxes.filter fun e => e.1 ∉ barLines blocks boxes).map Prod.snd

def proseLines (dict : List DictBlock) (blocks : List Block) (boxes : LineBoxes) : List Key :=
  ((linesOf blocks).filter fun l => 4 ≤ (Words.words isSpace l.2).length ∧
    (rstrip l.2).getLast?.any (fun c => c = '.' ∨ c = '?' ∨ c = '!') ∧ l.1 ∉ monospaced dict ∧
    (Dict.get boxes l.1).isSome).map Prod.fst

def boxAt (boxes : LineBoxes) (key : Key) : Box := (Dict.get boxes key).getD ⟨0, 0, 0, 0⟩

/-- No text on the bar's row comes within half its height. -/
def Isolated (body : List Box) (bar : Box) : Prop :=
  let height := bar.y1 - bar.y0
  let clear := height / 2
  ∀ box ∈ body.filter fun box => min bar.y1 box.y1 - max bar.y0 box.y0 > 3 / 10 * height,
    box.x1 ≤ bar.x0 - clear ∨ box.x0 ≥ bar.x1 + clear

instance (body : List Box) (bar : Box) : Decidable (Isolated body bar) :=
  inferInstanceAs (Decidable (∀ _ ∈ _, _))

def candidates (dict : List DictBlock) (blocks : List Block) (boxes : LineBoxes) : Finset Key :=
  (barLines blocks boxes).filter fun key =>
    key ∉ monospaced dict ∧ Isolated (bodyBoxes blocks boxes) (boxAt boxes key)

/-- The neighbour test, with the height of the popped bar. -/
def Near (key other : Box) : Prop :=
  |other.x0 - key.x0| ≤ 1 ∧ |(other.y0 + other.y1 - key.y0 - key.y1) / 2| ≤ 2 * (key.y1 - key.y0)

instance (key other : Box) : Decidable (Near key other) := inferInstanceAs (Decidable (_ ∧ _))

def SameRow (a b : ℚ × ℚ) : Prop :=
  let ca := (a.1 + a.2) / 2
  let cb := (b.1 + b.2) / 2
  (a.1 ≤ cb ∧ cb ≤ a.2) ∧ b.1 ≤ ca ∧ ca ≤ b.2

instance (a b : ℚ × ℚ) : Decidable (SameRow a b) := inferInstanceAs (Decidable (_ ∧ _))

def Box.span (b : Box) : ℚ × ℚ := (b.y0, b.y1)

/-- How many bars of a run have prose beside them. -/
def paired (prose : List Key) (boxes : LineBoxes) (run : Finset Key) : Nat :=
  (run.filter fun key => ∃ p ∈ prose, SameRow (boxAt boxes key).span (boxAt boxes p).span).card

def Accepted (prose : List Key) (boxes : LineBoxes) (run : Finset Key) : Prop :=
  3 ≤ run.card ∧ 3 ≤ paired prose boxes run

instance (prose : List Key) (boxes : LineBoxes) : DecidablePred (Accepted prose boxes) :=
  fun _ => inferInstanceAs (Decidable (_ ∧ _))

/-- `_margin_bar_lines`: what it may return. -/
def IsMarginBarLines (dict : List DictBlock) (blocks : List Block) (boxes : LineBoxes)
    (result : Finset Key) : Prop :=
  if barLines blocks boxes = ∅ then result = ∅
  else if bodyBoxes blocks boxes = [] then result = ∅
  else
    Peeling.Sweep (fun key other => Near (boxAt boxes key) (boxAt boxes other))
      (Accepted (proseLines dict blocks boxes) boxes) (candidates dict blocks boxes) ∅ result

/-! ## Cells -/

def cellMeanWords : ℚ := 5

def cellMaxWords : Nat := 8

def minTableRows : Nat := 3

def maxGapLines : ℚ := 3 / 2

def columnTolerance : ℚ := 3

def tableHeadings : List Text :=
  ["parameter".toList, "operand".toList, "default".toList, "meaning".toList, "description".toList,
    "name".toList, "value".toList, "values".toList, "key".toList, "val".toList, "note".toList,
    "notes".toList, "code".toList, "condition".toList, "conditions".toList, "type".toList,
    "setting".toList, "mnemonic".toList, "instruction".toList, "format".toList,
    "operation".toList, "parameter name".toList, "default value".toList, "return code".toList,
    "reason code".toList, "operand number".toList]

/-- What follows the capital of a name. -/
def isNameChar (c : Char) : Bool :=
  c.isUpper || c.isDigit || c == '_' || c == '.' || c == '/' || c == '-'

def isSign (c : Char) : Bool := c == '+' || c == '-'

/-- `_COMPACT_VALUE` -/
def compactValue (U : CharTables) : Pattern Char :=
  .alt (.seq (.one Char.isUpper) (.star (.one isNameChar)))
    (.seq (.opt (.one isSign)) (.seq (.plus (.one U.isDecimal))
      (.seq (.opt (.seq (.one (· == '.')) (.plus (.one U.isDecimal)))) (.opt (.one (· == '%'))))))

def nonblank (lines : List (Key × Text)) : List (Key × Text) :=
  lines.filter fun l => strip l.2 ≠ []

def isCellBlock (text : Text) : Bool :=
  let counts := (nonblank (linesAt 0 text)).map fun l => (Words.words isSpace l.2).length
  !counts.isEmpty && counts.all (· ≤ cellMaxWords) &&
    decide ((counts.sum : ℚ) / counts.length ≤ cellMeanWords)

structure Cell where
  y0 : ℚ
  y1 : ℚ
  x0 : ℚ
  block : Nat
  text : Text
  x1 : ℚ
  deriving DecidableEq

def Cell.span (c : Cell) : ℚ × ℚ := (c.y0, c.y1)

def cellAt (boxes : LineBoxes) (line : Key × Text) : Option Cell :=
  (Dict.get boxes line.1).map fun box => ⟨box.y0, box.y1, box.x0, line.1.1, strip line.2, box.x1⟩

/-- The cells of a group in stream order; `none` where a line has no box. -/
def tableCells (boxes : LineBoxes) (group : List (Nat × Text)) : Option (List Cell) :=
  (nonblank (group.flatMap fun b => linesAt b.1 b.2)).mapM (cellAt boxes)

/-! ## Rows -/

/-- The order of the cells: by top edge, then by left edge. -/
def Cell.before (a b : Cell) : Prop := a.y0 < b.y0 ∨ a.y0 = b.y0 ∧ a.x0 ≤ b.x0

instance : DecidableRel Cell.before := fun _ _ => inferInstanceAs (Decidable (_ ∨ _))

/-- The rows of sorted cells: a cell joins the last row if it shares a row with its first cell. -/
def rowsFrom (first : Cell) (row : List Cell) : List Cell → List (List Cell)
  | [] => [first :: row]
  | c :: cells =>
    if SameRow first.span c.span then rowsFrom first (row ++ [c]) cells
    else (first :: row) :: rowsFrom c [] cells

def rowsOf : List Cell → List (List Cell)
  | [] => []
  | c :: cells => rowsFrom c [] cells

def isHeading (U : CharTables) (c : Cell) : Bool := c.text.flatMap U.casefold ∈ tableHeadings

/-- `max(xs, key=key)`: the first of the greatest. -/
def firstMax (key : ℚ → Nat) : List ℚ → Option ℚ
  | [] => none
  | x :: xs =>
    match firstMax key xs with
    | none => some x
    | some y => if key x < key y then some y else some x

/-- Where most of the data beneath a heading starts; `none` where there is none. -/
def anchorOf (data : List Cell) (heading : Cell) : Option ℚ :=
  let beneath := data.filter fun c =>
    c.x0 ≤ heading.x1 + columnTolerance ∧ c.x1 ≥ heading.x0 - columnTolerance
  let starts := beneath.map Cell.x0
  firstMax (fun x => starts.countP fun v => |v - x| ≤ columnTolerance) starts

def isCompactColumn (U : CharTables) (data : List Cell) (anchor : ℚ) : Bool :=
  let values := (data.filter fun c => |c.x0 - anchor| ≤ columnTolerance).map Cell.text
  minTableRows - 1 ≤ values.length && values.all (Chrome.fullMatch (compactValue U))

/-- `pairwise(anchors)` holds two that stand too close, or the wrong way round. -/
def crowded (anchors : List ℚ) : Bool :=
  (anchors.zip anchors.tail).any fun p => p.2 - p.1 ≤ columnTolerance

def aligned (header : List Cell) (anchors : List ℚ) (c : Cell) : Bool :=
  c ∈ header || anchors.any fun x => |c.x0 - x| ≤ columnTolerance

/-- The cells of a row by left edge. -/
def sortedRow (row : List Cell) : List Cell := row.insertionSort fun a b => a.x0 ≤ b.x0

/-- What a table is made of: the cells of its rows, and the blocks they are taken from. -/
structure Table where
  rows : List (List Cell)
  selected : List Nat

/-- The rows, without the cells of other blocks. -/
def selectedRows (cells : List Cell) (selected : List Nat) : List (List Cell) :=
  ((rowsOf cells).map fun r => r.filter (·.block ∈ selected)).filter (· ≠ [])

/-- The rows of a table with a known header, if the cells agree with its columns. -/
def tableUnder (U : CharTables) (cells : List Cell) (top : Cell) (header : List Cell) :
    Option Table := do
  let data := cells.filter fun c => c.y0 > top.y0 ∧ ¬ isHeading U c
  let anchors ← header.mapM (anchorOf data)
  if crowded anchors then none
  else if !anchors.any (isCompactColumn U data) then none
  else
    let low := top.y0 - 1 / 2
    let selected :=
      (cells.filter fun c => c.y0 ≥ low ∧ aligned header anchors c).map Cell.block
    if cells.any fun c => c.block ∈ selected ∧ (c.y0 < low ∨ ¬ aligned header anchors c) then none
    else
      let table := selectedRows cells selected
      if table.countP (2 ≤ ·.length) < minTableRows then none
      else some ⟨table.map sortedRow, selected⟩

/-- `_table_rows`, with the cells of its rows. -/
def tableOf (U : CharTables) (boxes : LineBoxes) (group : List (Nat × Text)) : Option Table := do
  let stream ← tableCells boxes group
  let cells := stream.insertionSort Cell.before
  let headers := (rowsOf cells).map fun r => r.filter (isHeading U)
  match headers.find? (2 ≤ ·.length) with
  | some (top :: rest) => tableUnder U cells top (top :: rest)
  | _ => none

def rowText (row : List Cell) : Text := List.intercalate [' '] (row.map Cell.text)

/-! ## The page text -/

structure Entry where
  number : Nat
  box : Box
  /-- the text without bars -/
  stripped : Text
  text : Text

def entryOf (bars : Finset Key) (b : Block) : Entry where
  number := b.number
  box := b.box
  stripped :=
    joinLines (((linesAt b.number b.text).filter fun l => l.1 ∉ bars).map Prod.snd)
  text := b.text

/-- A group that more blocks may join: where it starts, its top and its bottom. -/
structure Group where
  start : Nat
  y0 : ℚ
  y1 : ℚ

def Group.joins (g : Group) (e : Entry) : Prop :=
  let lines : ℚ := max 1 (nonblank (linesAt 0 e.stripped)).length
  let gap := max (e.box.y0 - g.y1) (g.y0 - e.box.y1)
  ¬ gap > maxGapLines * (e.box.y1 - e.box.y0) / lines

instance (g : Group) (e : Entry) : Decidable (g.joins e) := inferInstanceAs (Decidable (¬ _))

def Group.extend (g : Group) (e : Entry) : Group := ⟨g.start, min g.y0 e.box.y0, max g.y1 e.box.y1⟩

/-- The runs of cell blocks from an index on, as index intervals. -/
def groupsFrom (i : Nat) : Option Group → List Entry → List (Nat × Nat)
  | none, [] => []
  | some g, [] => [(g.start, i)]
  | none, e :: entries =>
    if isCellBlock e.stripped then groupsFrom (i + 1) (some ⟨i, e.box.y0, e.box.y1⟩) entries
    else groupsFrom (i + 1) none entries
  | some g, e :: entries =>
    if isCellBlock e.stripped then
      if g.joins e then groupsFrom (i + 1) (some (g.extend e)) entries
      else (g.start, i) :: groupsFrom (i + 1) (some ⟨i, e.box.y0, e.box.y1⟩) entries
    else (g.start, i) :: groupsFrom (i + 1) none entries

def groups (entries : List Entry) : List (Nat × Nat) := groupsFrom 0 none entries

/-- `entries[start:end]` -/
def between (entries : List Entry) (start stop : Nat) : List Entry :=
  (entries.take stop).drop start

/-- The table of a group; a group with bars keeps stream order. -/
def rebuilt (U : CharTables) (boxes : LineBoxes) (group : List Entry) : Option Table :=
  if group.all fun e => e.stripped = e.text then
    tableOf U boxes (group.map fun e => (e.number, e.stripped))
  else none

/-- What is put out: the text of a block, or the rows of a table. -/
inductive Piece
  | kept (entry : Entry)
  | table (rows : List (List Cell))

def Piece.text : Piece → Text
  | .kept e => e.stripped
  | .table rows => joinLines (rows.map rowText) ++ ['\n']

/-- The table stands where its first block stood. -/
def emitTable (t : Table) : Bool → List Entry → List Piece
  | _, [] => []
  | emitted, e :: group =>
    if e.number ∉ t.selected then .kept e :: emitTable t emitted group
    else if emitted then emitTable t emitted group
    else .table t.rows :: emitTable t true group

def emit (U : CharTables) (boxes : LineBoxes) (group : List Entry) : List Piece :=
  match rebuilt U boxes group with
  | none => group.map .kept
  | some t => emitTable t false group

def outFrom (U : CharTables) (boxes : LineBoxes) (entries : List Entry) (cursor : Nat) :
    List (Nat × Nat) → List Piece
  | [] => (entries.drop cursor).map .kept
  | (start, stop) :: gs =>
    (between entries cursor start).map .kept ++ emit U boxes (between entries start stop) ++
      outFrom U boxes entries stop gs

def entriesOf (page : Page) (bars : Finset Key) : List Entry :=
  (textBlocks page).map (entryOf bars)

def out (U : CharTables) (page : Page) (bars : Finset Key) : List Piece :=
  outFrom U (lineBoxes page.words) (entriesOf page bars) 0 (groups (entriesOf page bars))

/-- `extract_page_text`, with the bars taken out. -/
def extractPageText (U : CharTables) (page : Page) (bars : Finset Key) : Text :=
  if textBlocks page = [] ∨ (textBlocks page).flatMap Block.text ≠ page.plain then page.plain
  else (out U page bars).flatMap Piece.text

end MainframeRag.Ingest.PageLayout
