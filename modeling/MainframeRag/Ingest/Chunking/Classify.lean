import MainframeRag.Ingest.Chunking.Chunks
import MainframeRag.Lib.Hex
import MainframeRag.Lib.Regex

/-!
# The type of a chunk

`ingest/classify.py`: message, syntax, table or narrative, read off the text of a block.
-/

namespace MainframeRag.Ingest.Chunking

open PyText Regex

inductive ChunkType
  | message
  | syntaxDiagram
  | table
  | narrative
  deriving DecidableEq

def ChunkType.text : ChunkType → Text
  | .message => "message".toList
  | .syntaxDiagram => "syntax".toList
  | .table => "table".toList
  | .narrative => "narrative".toList

/-- `_CHUNK_TYPES` -/
def chunkTypes : List Text := [.message, .syntaxDiagram, .table, .narrative].map ChunkType.text

theorem text_mem_chunkTypes (k : ChunkType) : k.text ∈ chunkTypes := by
  refine List.mem_map_of_mem ?_
  cases k <;> simp

/-- `set(line) & _BOX_CHARS` -/
def boxLine (line : Text) : Bool := line.any fun c => c ∈ "─│┌┐└┘├┤┬┴┼━┃┏┓┗┛".toList

def upperCase (c : Char) : Bool := 'A' ≤ c && c ≤ 'Z'

/-- `MESSAGE_LINE_RE`, with which a stripped line starts. -/
def messageLine (U : CharTables) : Pattern Char :=
  let letter := Pattern.one upperCase
  let decimal := Pattern.one U.isDecimal
  .seq (.star (.one isSpace))
    (.alt (.row [.exactly 3 letter, .exactly 2 decimal, .upTo 3 decimal, letter])
    (.alt (.row [.word "DFH".toList, .upTo 2 letter, .exactly 4 decimal, .upTo 1 decimal])
    (.alt (.row [.word "DFS".toList, .exactly 3 decimal, .upTo 1 decimal, .opt letter])
      (.row [.exactly 4 letter, .exactly 2 decimal, .upTo 3 decimal, letter]))))

/-- `_SYNTAX_RE`, searched in a line -/
def syntaxLine (line : Text) : Bool :=
  ["::=", ">>-", ">>+", "<--", "--+", "-+-", "--\\-"].any fun w => (find line w.toList 0).isSome

/-- `_PARM_RE`, searched in a text -/
def parameterMark (U : CharTables) : Text → Bool
  | [] => false
  | '<' :: c :: t =>
    (c.isAlpha && (t.dropWhile fun d => U.isWord d || d == '-').head? == some '>') ||
      parameterMark U (c :: t)
  | _ :: t => parameterMark U t

def messageScanLines : Nat := 6

def classify (U : CharTables) (t : Text) : ChunkType :=
  let lines := nonblankLines t
  if lines = [] then .narrative
  else if (lines.take messageScanLines).any fun l => ((messageLine U).matchStart (strip l)).isSome then
    .message
  else if (find t "::=".toList 0).isSome || 2 ≤ lines.countP boxLine ||
      2 ≤ lines.countP syntaxLine || parameterMark U t then .syntaxDiagram
  else if isTableBlock t then .table
  else .narrative

/-- The extractors of `make_chunks` with its own classification and point ids that are UUIDs. -/
def sourceExtractors (U : CharTables) (uuid5 : Text → Uuid)
    (findMessageIds findMembers : Text → List Text) : Extractors where
  uuid5 key := (uuid5 key).str
  classify t := (classify U t).text
  findMessageIds := findMessageIds
  findMembers := findMembers

end MainframeRag.Ingest.Chunking
