import MainframeRag.Ingest.Chunking.Blocks

/-!
# Paragraph expansion

The detectors and splitters of `ingest/chunk.py`, up to the items `_build_blocks` accumulates: JCL
cards, REXX programs and console blocks, code entries, table rows, SYSIN data and mixed paragraphs.

The source's regular expressions are written as functions on lines; each stands under its source
name with the pattern beside it. Matching without case follows Python's simple case folding
(`ciChar`), and the Unicode tables behind `\d` and `\w` are the parameter `U`.
-/

namespace MainframeRag.Ingest.Chunking

open PyText

/-! ## Patterns -/

/-- A pattern letter under `re.IGNORECASE`; `p` is lower case. -/
def ciChar (p c : Char) : Bool :=
  c.toLower == p || (p == 's' && c == 'ſ') || (p == 'k' && c == 'K') ||
    (p == 'i' && (c == 'İ' || c == 'ı'))

/-- The text behind a literal matched without case. -/
def dropPrefixCi : Text → Text → Option Text
  | [], t => some t
  | _ :: _, [] => none
  | p :: ps, c :: t => if ciChar p c then dropPrefixCi ps t else none

/-- `^//` -/
def jclCard : Text → Bool
  | '/' :: '/' :: _ => true
  | _ => false

/-- `^//\S` -/
def jclStmtStart : Text → Bool
  | '/' :: '/' :: c :: _ => !isSpace c
  | _ => false

/-- `^//\s\S` -/
def jclUnnamed : Text → Bool
  | '/' :: '/' :: c :: d :: _ => isSpace c && !isSpace d
  | _ => false

/-- `(?=[\s,]|$)` -/
def dataBoundary : Text → Bool
  | [] => true
  | c :: _ => isSpace c || c == ','

def startsSpace : Text → Bool
  | [] => false
  | c :: _ => isSpace c

/-- `^//\S+\s+DD\s+(\*|DATA)(?=[\s,]|$)` without case: every run of blanks is matched whole. -/
def jclDdData : Text → Bool
  | '/' :: '/' :: t =>
    let name := t.takeWhile (fun c => !isSpace c)
    let op := t.dropWhile (fun c => !isSpace c)
    name ≠ [] && startsSpace op &&
      match dropPrefixCi "dd".toList (lstrip op) with
      | none => false
      | some operand => startsSpace operand &&
        match lstrip operand with
        | '*' :: r => dataBoundary r
        | r => ((dropPrefixCi "data".toList r).map dataBoundary).getD false
  | _ => false

/-- `/\*\s*rexx`, searched without case -/
def rexxHeader : Text → Bool
  | [] => false
  | '/' :: t =>
    (match t with
      | '*' :: r => (dropPrefixCi "rexx".toList (lstrip r)).isSome
      | _ => false) || rexxHeader t
  | _ :: t => rexxHeader t

/-- `line.count` of a two-character text with distinct characters. -/
def countPair (a b : Char) : Text → Nat
  | c :: d :: t => (if c = a ∧ d = b then 1 else 0) + countPair a b (d :: t)
  | _ => 0

def rexxKeywords : List Text :=
  ["say", "do", "end", "parse", "pull", "push", "queue", "exit", "return", "address", "trace",
    "signal", "call", "select", "when", "otherwise", "nop", "drop", "interpret"].map String.toList

/-- `^\s*(say|do|…)\b` without case -/
def rexxKeyword (U : CharTables) (line : Text) : Bool :=
  rexxKeywords.any fun k =>
    match dropPrefixCi k (lstrip line) with
    | none => false
    | some [] => true
    | some (c :: _) => !U.isWord c

/-- `^\s*[A-Za-z_][\w.]*\s*=[^=]` -/
def rexxAssign (U : CharTables) (line : Text) : Bool :=
  match lstrip line with
  | [] => false
  | c :: t => (c.isAlpha || c == '_') &&
    match lstrip (t.dropWhile (fun d => U.isWord d || d == '.')) with
    | '=' :: d :: _ => d ≠ '='
    | _ => false

/-- `[.?!:]\s*$`, searched in a line -/
def sentenceEnd (line : Text) : Bool :=
  match (rstrip line).getLast? with
  | none => false
  | some c => c ∈ ".?!:".toList

def upperHex (c : Char) : Bool := c.isDigit || ('A' ≤ c && c ≤ 'F')

/-- `^(?:[0-9A-F]{3}|U\d{4})$` on a stripped line -/
def codeEntry (U : CharTables) : Text → Bool
  | [a, b, c] => upperHex a && upperHex b && upperHex c
  | ['U', a, b, c, d] => U.isDecimal a && U.isDecimal b && U.isDecimal c && U.isDecimal d
  | _ => false

/-- `^Explanation\s*(?::|$)` without case, on a stripped line -/
def entryLabel (line : Text) : Bool :=
  match dropPrefixCi "explanation".toList line with
  | none => false
  | some r =>
    match lstrip r with
    | [] => true
    | c :: _ => c == ':'

/-- Two blanks in a row. -/
def doubleSpace : Text → Bool
  | c :: d :: t => (isSpace c && isSpace d) || doubleSpace (d :: t)
  | _ => false

/-- `\S(?:.*\S)?(?:\s{2,}\S)+`, searched in a line: two blanks between other characters -/
def columnish (line : Text) : Bool := doubleSpace (strip line)

/-! ## Detection -/

inductive CodeKind
  | jcl
  | rexx
  | console
  deriving DecidableEq

/-- `n / m >= 0.6` -/
def dominates (n m : Nat) : Bool := 3 * m ≤ 5 * n

def detectCodeRegion (U : CharTables) (t : Text) : Option CodeKind :=
  let lines := nonblankLines t
  let stripped := lines.map lstrip
  if lines = [] then none
  else if dominates (stripped.countP jclCard) lines.length then some .jcl
  else if stripped.any jclDdData then some .jcl
  else if rexxHeader t || lines.any (fun l => countPair '*' '/' l < countPair '/' '*' l) then
    some .rexx
  else if 2 ≤ lines.countP (rexxKeyword U) ∧ (lines.any (rexxAssign U) ∨ ';' ∈ t) then some .rexx
  else if dominates (lines.countP startsSpace) lines.length then some .console
  else none

def isDdDataPara (t : Text) : Bool := (splitlines t).any (fun l => jclDdData (lstrip l))

/-- `classify.is_table_block` -/
def isTableBlock (t : Text) : Bool :=
  let lines := nonblankLines t
  lines ≠ [] && dominates (lines.countP columnish) lines.length

def detectTableRegion (U : CharTables) (t : Text) : Bool :=
  (detectCodeRegion U t).isNone && isTableBlock t

/-! ## Code entries -/

/-- Whether the first of the lines starts a code entry: description text within the two lines
behind it. -/
def isCodeEntryStart (U : CharTables) : List Text → Bool
  | [] => false
  | l :: rest => codeEntry U (strip l) &&
    match (rest.take 2).find? (fun x => strip x ≠ []) with
    | none => false
    | some x => !codeEntry U (strip x)

def entryStarts (U : CharTables) (lines : List Text) : List Nat :=
  (List.range lines.length).filter (fun i => isCodeEntryStart U (lines.drop i))

structure CapState where
  pieces : List Text := []
  current : List Text := []
  size : Nat := 0

def CapState.feed (s : CapState) (line : Text) : CapState :=
  if s.current ≠ [] ∧ sectionMaxChars < s.size + 1 + line.length then
    ⟨s.pieces ++ [joinLines s.current], [line], line.length⟩
  else ⟨s.pieces, s.current ++ [line], s.size + (line.length + if s.size = 0 then 0 else 1)⟩

def capEntry (entry : Text) : List Text :=
  if entry.length ≤ sectionMaxChars then [entry]
  else
    let s := (splitlines entry).foldl CapState.feed {}
    let pieces := if s.current = [] then s.pieces else s.pieces ++ [joinLines s.current]
    (pieces.map strip).filter (· ≠ [])

def codeEntries (U : CharTables) (t : Text) : Option (List (Text × Bool)) :=
  let lines := splitlines t
  let starts := entryStarts U lines
  match starts with
  | [] => none
  | first :: later =>
    let lead := strip (joinLines (lines.take first))
    let leadItems := if lead = [] then [] else [(lead, false)]
    let entries := (starts.zip (later ++ [lines.length])).flatMap fun (start, stop) =>
      let entry := strip (joinLines ((lines.take stop).drop start))
      if entry = [] then [] else (capEntry entry).map (·, true)
    if leadItems ++ entries = [] then none else some (leadItems ++ entries)

def canonicalCode (U : CharTables) (raw : Text) (waitState : Bool) : Text :=
  let upper := raw.flatMap U.upper
  if upper.head? = some 'U' then upper else if waitState then 'W' :: upper else upper

def extractSystemCodes (U : CharTables) (t : Text) (waitState : Bool) : List Text :=
  let lines := splitlines t
  (entryStarts U lines).foldl (fun codes i =>
    let code := canonicalCode U (strip (lines.getD i [])) waitState
    if code ∈ codes then codes else codes ++ [code]) []

/-- A code line directly followed by its description label. -/
def labelledEntry (U : CharTables) : List Text → Bool
  | l :: n :: rest => (codeEntry U l && entryLabel n) || labelledEntry U (n :: rest)
  | _ => false

def isCodeSection (U : CharTables) (paras : List (Nat × Text)) : Bool :=
  labelledEntry U (paras.flatMap (fun p => (nonblankLines p.2).map strip))

/-! ## JCL statements -/

/-- Rejoins a bare `//` line with the parameters extraction wrapped onto the next line. -/
def joinWrapped : List Text → List Text
  | [] => []
  | [line] => [line]
  | line :: next :: lines =>
    if strip line = ['/', '/'] ∧ '=' ∈ next ∧ strip next ≠ [] ∧ (lstrip next).head? ≠ some '/' then
      ('/' :: '/' :: lstrip next) :: joinWrapped lines
    else line :: joinWrapped (next :: lines)

structure StmtState where
  statements : List Text := []
  current : List Text := []

def StmtState.close (s : StmtState) : StmtState :=
  if s.current = [] then s else ⟨s.statements ++ [joinLines s.current], []⟩

def StmtState.feed (s : StmtState) (line : Text) : StmtState :=
  if jclStmtStart (lstrip line) || jclUnnamed (lstrip line) then ⟨s.close.statements, [line]⟩
  else if jclCard (lstrip line) then ⟨s.statements, s.current ++ [line]⟩
  else if strip line = [] then s.close
  else ⟨s.close.statements ++ [line], []⟩

def splitJclStatements (t : Text) : List Text :=
  let s := (joinWrapped (splitlines t)).foldl StmtState.feed {}
  (s.close.statements.map rstrip).filter (fun x => strip x ≠ [])

/-! ## REXX statements -/

structure RexxState where
  statements : List Text := []
  cur : Text := []
  inComment : Nat := 0
  quote : Option Char := none

def RexxState.keep (s : RexxState) (t : Text) : RexxState := { s with cur := s.cur ++ t }

/-- The pairs the scanner takes in one step: comment brackets, and a doubled quote in a string. -/
def rexxPair (s : RexxState) (c d : Char) : Option RexxState :=
  if 0 < s.inComment then
    if c = '*' ∧ d = '/' then some { s.keep ['*', '/'] with inComment := s.inComment - 1 }
    else if c = '/' ∧ d = '*' then some { s.keep ['/', '*'] with inComment := s.inComment + 1 }
    else none
  else match s.quote with
    | some q => if c = q ∧ d = q then some (s.keep [c, q]) else none
    | none =>
      if c = '/' ∧ d = '*' then some { s.keep ['/', '*'] with inComment := 1 } else none

def rexxChar (s : RexxState) (c : Char) : RexxState :=
  if 0 < s.inComment then s.keep [c]
  else match s.quote with
    | some q => if c = q then { s.keep [c] with quote := none } else s.keep [c]
    | none =>
      if c = '"' ∨ c = '\'' then { s.keep [c] with quote := some c }
      else if c = ';' then { s with statements := s.statements ++ [s.cur ++ [';']], cur := [] }
      else s.keep [c]

def rexxLine (s : RexxState) : Text → RexxState
  | [] => s
  | [c] => rexxChar s c
  | c :: d :: t =>
    match rexxPair s c d with
    | some s' => rexxLine s' t
    | none => rexxLine (rexxChar s c) (d :: t)

/-- The end of a line: it closes the statement unless a comment, a string or a comma carries on. -/
def rexxEndLine (s : RexxState) : RexxState :=
  if s.inComment = 0 ∧ s.quote = none then
    if (strip s.cur).getLast? = some ',' then s.keep ['\n']
    else if strip s.cur ≠ [] then { s with statements := s.statements ++ [s.cur], cur := [] }
    else s
  else s.keep ['\n']

def splitRexxStatements (t : Text) : List Text :=
  let s := (splitlines t).foldl (fun s l => rexxEndLine (rexxLine s l)) {}
  let statements := if strip s.cur = [] then s.statements else s.statements ++ [s.cur]
  (statements.filter (fun x => strip x ≠ [])).map rstrip

/-! ## Items -/

/-- Statement units of a code region; `none` for prose and when nothing is left. -/
def codeStatements (U : CharTables) (t : Text) : Option (List Text) :=
  let statements := match detectCodeRegion U t with
    | none => []
    | some .jcl => splitJclStatements t
    | some .rexx => splitRexxStatements t
    | some .console => nonblankLines t
  if statements = [] then none else some statements

def mixedJclMinStarts : Nat := 2

structure MixedState where
  items : List (Text × Bool) := []
  run : List Text := []
  prose : List Text := []

def MixedState.closeRun (s : MixedState) : MixedState :=
  if s.run = [] then s
  else ⟨s.items ++ (splitJclStatements (joinLines s.run)).map (·, true), [], s.prose⟩

def MixedState.closeProse (s : MixedState) : MixedState :=
  if s.prose = [] then s else ⟨s.items ++ [(joinLines s.prose, false)], s.run, []⟩

def MixedState.feed (s : MixedState) (line : Text) : MixedState :=
  if jclCard (lstrip line) then
    let s := s.closeProse
    { s with run := s.run ++ [line] }
  else
    let s := s.closeRun
    { s with prose := s.prose ++ [line] }

def mixedJclItems (para : Text) : List (Text × Bool) :=
  let starts := ((splitlines para).map lstrip).countP (fun l => jclStmtStart l || jclUnnamed l)
  if starts < mixedJclMinStarts then [(para, false)]
  else
    let s := ((splitlines para).foldl MixedState.feed {}).closeRun.closeProse
    let items := s.items.filter (fun i => strip i.1 ≠ [])
    if items = [] then [(para, false)] else items

/-- The items of one paragraph, and whether a SYSIN block is still open behind it. -/
def expandPara (U : CharTables) (codeSection ddDataOpen : Bool) (para : Text) :
    List (Text × Bool) × Bool :=
  match codeStatements U para with
  | some statements => (statements.map (·, true), isDdDataPara para)
  | none =>
    match (if codeSection then codeEntries U para else none) with
    | some items => (items, false)
    | none =>
      if detectTableRegion U para then ((nonblankLines para).map (·, true), false)
      else if ddDataOpen ∧ nonblankLines para ≠ [] then
        if (nonblankLines para).any sentenceEnd then ([(para, false)], false)
        else ((nonblankLines para).map (·, true), true)
      else (mixedJclItems para, false)

def expandFrom (U : CharTables) (codeSection : Bool) : Bool → List (Nat × Text) → List (Item Char)
  | _, [] => []
  | ddDataOpen, (page, para) :: paras =>
    let (items, ddDataOpen') := expandPara U codeSection ddDataOpen para
    items.map (fun i => ⟨page, i.1, i.2⟩) ++ expandFrom U codeSection ddDataOpen' paras

/-- The items `_build_blocks` accumulates. -/
def expand (U : CharTables) (paras : List (Nat × Text)) (codeSection : Bool) : List (Item Char) :=
  expandFrom U codeSection false paras

/-- `_build_blocks` -/
def buildBlocks (U : CharTables) (paras : List (Nat × Text)) (codeSection : Bool) :
    List (Block Char) :=
  (emissions '\n' (expand U paras codeSection)).map (Emission.block '\n')

end MainframeRag.Ingest.Chunking
