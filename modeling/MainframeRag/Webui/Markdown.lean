import MainframeRag.Agent.Cites
import MainframeRag.Lib.Markup

/-!
# Rendered markdown

`render_markdown_subset` of `webui/routes.py`. Escaped text is rewritten by `_md_inline` between
asterisks, backticks and private-use placeholders, none of which stands in a tag or an entity, so
every pass keeps it inert. Headings, list items, paragraphs, table cells and code fences put fixed
tags around inert text. The one tag with text of the document is the `language-` class of a fence:
a lower-cased run of word characters.
-/

namespace MainframeRag.Webui

open PyText Regex Regex.Pattern Agent Ingest.Chunking Markup

/-! ## Inline markdown -/

/-- The text between `n` characters on either side. -/
def inner (n : Nat) (w : Text) : Text := (w.drop n).take (w.length - 2 * n)

/-- `_MD_CODE_RE` -/
def mdCode : Pattern Char :=
  row [one (· = '\x60'), lazyPlus (one fun c => c ≠ '\x60' ∧ c ≠ '\n'), one (· = '\x60')]

/-- `_MD_BOLD_RE` -/
def mdBold : Pattern Char := row [lit "**", lazyPlus dot, lit "**"]

/-- `_MD_ITALIC_RE` -/
def mdItalic : Pattern Char :=
  row [seq (test fun pl => pl.before.head? ≠ some '*') (one (· = '*')),
    lazyPlus (one fun c => c ≠ '*' ∧ c ≠ '\n'),
    seq (one (· = '*')) (test fun pl => pl.rest.head? ≠ some '*')]

/-- What stands for the code span `n` until the end. -/
def placeholder (n : Nat) : Text := '\uE000' :: Nat.toDigits 10 n ++ ['\uE001']

def codeSpan (w : Text) : Text := "<code>".toList ++ inner 1 w ++ "</code>".toList

/-- `_MD_CODE_RE.sub(stash, ...)` from the span `n` on: the text, and the spans. -/
def stash : Nat → List (Segment Char) → Text × List Text
  | _, [] => ([], [])
  | n, .gap c :: segs => (c :: (stash n segs).1, (stash n segs).2)
  | n, .found w :: segs =>
    (placeholder n ++ (stash (n + 1) segs).1, codeSpan w :: (stash (n + 1) segs).2)

/-- `str.replace` -/
def replaceText (old new t : Text) : Text := sub (word old) (fun _ => new) t

/-- The spans from `n` on put back. -/
def unstash : Nat → List Text → Text → Text
  | _, [], t => t
  | n, s :: spans, t => unstash (n + 1) spans (replaceText (placeholder n) s t)

def strong (w : Text) : Text := "<strong>".toList ++ inner 2 w ++ "</strong>".toList

def emphasis (w : Text) : Text := "<em>".toList ++ inner 1 w ++ "</em>".toList

/-- `_md_inline` -/
def mdInline (escaped : Text) : Text :=
  let stashed := stash 0 (segments mdCode escaped)
  unstash 0 stashed.2 (sub mdItalic emphasis (sub mdBold strong stashed.1))

/-! ## Code -/

section

variable (U : CharTables)

def jclKeywords : List String :=
  ["COMMAND", "CNTL", "DD", "ELSE", "ENDCNTL", "ENDIF", "EXEC", "IF", "INCLUDE", "JCLLIB", "JOB",
    "OUTPUT", "PEND", "PROC", "SET", "THEN", "XMIT", "AVGREC", "BLKSIZE", "CATLG", "CLASS", "COND",
    "CONTIG", "COPIES", "CYL", "DATACLAS", "DCB", "DELETE", "DEST", "DISP", "DSN", "DSNAME",
    "DUMMY", "EXPDT", "FREE", "HOLD", "KEEP", "LABEL", "LIKE", "LRECL", "MGMTCLAS", "MOD",
    "MSGCLASS", "MSGLEVEL", "NEW", "NOTIFY", "OLD", "PARM", "PASS", "PASSWORD", "PGM", "RECFM",
    "REFDD", "REGION", "RESTART", "RETPD", "RLSE", "SHR", "SPACE", "STORCLAS", "SUBSYS", "SYSOUT",
    "TERM", "TIME", "TRK", "TYPRUN", "UNCATLG", "UNIT", "USER", "VOL", "VOLUME"]

def rexxKeywords : List String :=
  ["ADDRESS", "ARG", "BY", "CALL", "DIGITS", "DO", "DROP", "ELSE", "END", "EXIT", "EXPOSE", "FOR",
    "FOREVER", "FORM", "FUZZ", "IF", "INTERPRET", "ITERATE", "LEAVE", "NOP", "NUMERIC", "OPTIONS",
    "OTHERWISE", "PARSE", "PROCEDURE", "PULL", "PUSH", "QUEUE", "RETURN", "SAY", "SELECT", "SIGNAL",
    "THEN", "TO", "TRACE", "UNTIL", "UPPER", "VALUE", "VAR", "WHEN", "WHILE", "WITH", "ABBREV",
    "CENTER", "CENTRE", "COPIES", "C2D", "C2X", "DATATYPE", "DATE", "DELSTR", "DELWORD", "D2C",
    "D2X", "ERRORTEXT", "FORMAT", "INSERT", "LASTPOS", "LEFT", "LENGTH", "LINEIN", "LINEOUT",
    "LINES", "OVERLAY", "POS", "QUEUED", "RANDOM", "REVERSE", "RIGHT", "SOURCELINE", "SPACE",
    "STRIP", "SUBSTR", "SUBWORD", "SYMBOL", "TIME", "TRANSLATE", "TRUNC", "VERIFY", "WORD",
    "WORDINDEX", "WORDLENGTH", "WORDPOS", "WORDS", "X2C", "X2D"]

/-- The keywords joined with the longest first, under `re.IGNORECASE`. -/
def keywordRe (keywords : List String) : Pattern Char :=
  let sorted := keywords.insertionSort fun a b => b.length ≤ a.length
  row [wordEdge U,
    sorted.foldr (fun w p => alt (wordCi w.toLower) p) (one fun _ => false), wordEdge U]

/-- A quoted string with doubled quotes. -/
def quoted (q : Char) : Pattern Char :=
  row [one (· = q), star (alt (word [q, q]) (one fun c => c ≠ q ∧ c ≠ '\n')), one (· = q)]

inductive TokenKind
  | comment
  | string
  | keyword
  | number
  deriving DecidableEq

def TokenKind.text : TokenKind → String
  | .comment => "comment"
  | .string => "string"
  | .keyword => "keyword"
  | .number => "number"

/-- The groups of `_JCL_TOKEN_RE` -/
def jclTokens : List (TokenKind × Pattern Char) :=
  [(.comment, row [lineStart, star (oneOf " \t"), lit "//*", star dot, lineEnd]),
    (.string, quoted '\''), (.keyword, keywordRe U jclKeywords),
    (.number, row [wordEdge U, plus (one U.isDecimal), wordEdge U])]

/-- The groups of `_REXX_TOKEN_RE` -/
def rexxTokens : List (TokenKind × Pattern Char) :=
  [(.comment, row [lit "/*", many true (one fun _ => true), alt (lit "*/") atEnd]),
    (.string, alt (quoted '\'') (quoted '"')), (.keyword, keywordRe U rexxKeywords),
    (.number, row [wordEdge U, plus (one U.isDecimal),
      opt (seq (one (· = '.')) (plus (one U.isDecimal))), wordEdge U])]

/-- The first group that matches at a place. -/
def tokenAt (tokens : List (TokenKind × Pattern Char)) (pl : Place Char) :
    Option (TokenKind × Place Char) :=
  tokens.findSome? fun t =>
    ((t.2.matchAt pl).filter fun e => e.rest.length < pl.rest.length).map fun e => (t.1, e)

def tokenSpan (kind : TokenKind) (w : Text) : Text :=
  ("<span class=\"tok-" ++ kind.text ++ "\">").toList ++ escape w ++ "</span>".toList

/-- The loop over `finditer`. -/
def tokenizeFrom (tokens : List (TokenKind × Pattern Char)) : Nat → Place Char → Text
  | 0, _ => []
  | fuel + 1, pl =>
    match pl.rest with
    | [] => []
    | c :: t =>
      match tokenAt tokens pl with
      | some (kind, e) =>
        tokenSpan kind (pl.rest.take (pl.rest.length - e.rest.length)) ++ tokenizeFrom tokens fuel e
      | none => escapeChar c ++ tokenizeFrom tokens fuel ⟨c :: pl.before, t⟩

/-- `_tokenize_code` -/
def tokenizeCode (code lang : Text) : Text :=
  if lang = "jcl".toList then tokenizeFrom (jclTokens U) code.length ⟨[], code⟩
  else if lang = "rexx".toList then tokenizeFrom (rexxTokens U) code.length ⟨[], code⟩
  else escape code

/-! ## Tables -/

/-- `re.split` -/
def splitSegments : List (Segment Char) → List Text
  | [] => [[]]
  | .gap c :: segs =>
    match splitSegments segs with
    | [] => [[c]]
    | t :: ts => (c :: t) :: ts
  | .found _ :: segs => [] :: splitSegments segs

/-- `(?<!\\)\|` -/
def bareBar : Pattern Char :=
  row [test fun pl => pl.before.head? ≠ some '\\', one (· = '|')]

def withoutLead (r : Text) : Text := if r.head? = some '|' then r.drop 1 else r

def withoutTrail (r : Text) : Text :=
  if ['|'].isSuffixOf r && !(['\\', '|'].isSuffixOf r) then r.dropLast else r

/-- `_md_table_cells` -/
def mdTableCells (line : Text) : Option (List Text) :=
  if '|' ∉ strip line then none
  else
    let bare := withoutTrail (withoutLead (strip line))
    some ((splitSegments (segments bareBar bare)).map fun cell =>
      replaceText ['\\', '|'] ['|'] (strip cell))

/-- `_MD_TABLE_DELIM_CELL_RE` -/
def delimCell (cell : Text) : Bool :=
  ((row [opt (one (· = ':')), exactly 3 (one (· = '-')), star (one (· = '-')), opt (one (· = ':')),
    atEnd]).matchStart cell).isSome

def alignOf (cell : Text) : Text :=
  if [':'].isPrefixOf cell && [':'].isSuffixOf cell then "center".toList
  else if [':'].isSuffixOf cell then "right".toList
  else if [':'].isPrefixOf cell then "left".toList
  else []

/-- `_md_table_alignments` -/
def mdTableAlignments (line : Text) (width : Nat) : Option (List Text) :=
  match mdTableCells line with
  | none => none
  | some cells =>
    if cells.length ≠ width ∨ ¬ cells.all delimCell then none else some (cells.map alignOf)

def cellTag (tag : String) (align : Text) : Text :=
  ("<" ++ tag).toList ++
    (if align = [] then [] else " class=\"align-".toList ++ align ++ ['"']) ++ ['>']

def tableCell (tag : String) (t align : Text) : Text :=
  cellTag tag align ++ mdInline (escape t) ++ ("</" ++ tag ++ ">").toList

def tableRow (aligns row : List Text) : Text :=
  let padded := (row ++ List.replicate aligns.length []).take aligns.length
  "<tr>".toList ++ (padded.zipWith (tableCell "td") aligns).flatten ++ "</tr>".toList

/-- `_md_table_html` -/
def mdTableHtml (header aligns : List Text) (rows : List (List Text)) : Text :=
  "<div class=\"md-table\">".toList ++ "<table>".toList ++ "<thead>".toList ++ "<tr>".toList ++
    (header.zipWith (tableCell "th") aligns).flatten ++ "</tr>".toList ++ "</thead>".toList ++
    "<tbody>".toList ++ (rows.map (tableRow aligns)).flatten ++ "</tbody>".toList ++
    "</table>".toList ++ "</div>".toList

/-! ## Lines -/

/-- What is behind at most three blanks. -/
def behindIndent (line : Text) : Option Text :=
  if (line.takeWhile (· = ' ')).length ≤ 3 then some (line.dropWhile (· = ' ')) else none

def langChar (c : Char) : Bool := U.isWord c || c = '+' || c = '-'

/-- `_MD_FENCE_RE`: the language of a fence. -/
def fenceOf (line : Text) : Option Text :=
  match behindIndent line with
  | some ('\x60' :: '\x60' :: '\x60' :: t) =>
    if strip (t.dropWhile (langChar U)) = [] then some (t.takeWhile (langChar U)) else none
  | _ => none

/-- `_MD_HEADING_RE`: level and text of a heading. -/
def headingOf (line : Text) : Option (Nat × Text) :=
  let level := (line.takeWhile (· = '#')).length
  let rest := line.dropWhile (· = '#')
  if 1 ≤ level ∧ level ≤ 4 ∧ startsSpace rest then some (level, strip rest) else none

/-- `_MD_UL_RE` -/
def bulletOf (line : Text) : Option Text :=
  match behindIndent line with
  | some (c :: t) => if (c = '-' ∨ c = '*') ∧ startsSpace t then some (lstrip t) else none
  | _ => none

/-- `_MD_OL_RE` -/
def numberedOf (line : Text) : Option Text :=
  match behindIndent line with
  | some t =>
    match t.dropWhile U.isDecimal with
    | c :: rest =>
      if t.takeWhile U.isDecimal ≠ [] ∧ (c = '.' ∨ c = ')') ∧ startsSpace rest then
        some (lstrip rest)
      else none
    | [] => none
  | none => none

/-! ## The loop -/

inductive ListKind
  | ul
  | ol
  deriving DecidableEq

def ListKind.text : ListKind → String
  | .ul => "ul"
  | .ol => "ol"

/-- The local state of `render_markdown_subset`. -/
structure Draft where
  out : List Text := []
  para : List Text := []
  inList : Option ListKind := none
  item : List Text := []

def around (tag : String) (t : Text) : Text :=
  ("<" ++ tag ++ ">").toList ++ t ++ ("</" ++ tag ++ ">").toList

def Draft.put (d : Draft) (t : Text) : Draft := { d with out := d.out ++ [t] }

def Draft.flushPara (d : Draft) : Draft :=
  if d.para = [] then d
  else { d.put (around "p" (mdInline ([' '].intercalate d.para))) with para := [] }

def Draft.flushItem (d : Draft) : Draft :=
  if d.item = [] then d
  else { d.put (around "li" (mdInline ([' '].intercalate d.item))) with item := [] }

def Draft.closeList (d : Draft) : Draft :=
  match d.inList with
  | none => d.flushItem
  | some k => { d.flushItem.put ("</" ++ k.text ++ ">").toList with inList := none }

def kindName : CodeKind → Text
  | .jcl => "jcl".toList
  | .rexx => "rexx".toList
  | .console => "console".toList

/-- The language of a fence, from its info string or from its body. -/
def languageOf (info code : Text) : Option Text :=
  let lang := U.lower (strip info)
  if info = [] ∨ lang = [] then (detectCodeRegion U code).map kindName else some lang

def codeHtml (lang : Option Text) (code : Text) : Text :=
  match lang with
  | some l => tokenizeCode U code l
  | none => escape code

def languageAttr : Text := "code class=\"language-".toList

def languageTag (lang : Text) : Text := '<' :: (languageAttr ++ lang ++ ['"']) ++ ['>']

def codeTag (lang : Option Text) : Text :=
  match lang with
  | some l => languageTag l
  | none => "<code>".toList

def fenceHtml (info code : Text) : Text :=
  let lang := languageOf U info code
  "<pre>".toList ++ "<button class=\"copy-btn\" type=\"button\">".toList ++ "Copy".toList ++
    "</button>".toList ++ codeTag lang ++ codeHtml U lang code ++ "</code>".toList ++
    "</pre>".toList

/-- A table that starts with a line: header, alignments, rows and what is behind. -/
def tableAt (line : Text) (rest : List Text) :
    Option (List Text × List Text × List (List Text) × List Text) :=
  match mdTableCells line, rest with
  | some header, next :: tail =>
    (mdTableAlignments next header.length).map fun aligns =>
      let isRow := fun l => strip l ≠ [] && (mdTableCells l).isSome
      (header, aligns, (tail.takeWhile isRow).filterMap mdTableCells, tail.dropWhile isRow)
  | _, _ => none

theorem tableAt_shorter {line : Text} {rest : List Text}
    {table : List Text × List Text × List (List Text) × List Text}
    (h : tableAt line rest = some table) : table.2.2.2.length ≤ rest.length := by
  unfold tableAt at h
  split at h
  · rename_i next tail _
    obtain ⟨aligns, _, rfl⟩ := Option.map_eq_some_iff.mp h
    have hle := (List.dropWhile_sublist
      (fun l => decide (strip l ≠ []) && (mdTableCells l).isSome) (l := tail)).length_le
    exact hle.trans (Nat.le_succ _)
  · cases h

def Draft.putItem (d : Draft) (kind : ListKind) (t : Text) : Draft :=
  let d := d.flushPara
  let d := if d.inList = some kind then d
    else { d.closeList.put ("<" ++ kind.text ++ ">").toList with inList := some kind }
  { d.flushItem with item := [escape t] }

/-- A line that is neither in a fence nor in a table. -/
def Draft.line (d : Draft) (line : Text) : Draft :=
  match headingOf line with
  | some (level, t) =>
    d.flushPara.closeList.put (around ("h" ++ toString level) (mdInline (escape t)))
  | none =>
    match bulletOf line, numberedOf U line with
    | some t, _ => d.putItem .ul t
    | none, some t => d.putItem .ol t
    | none, none =>
      if strip line = [] then d.flushPara.closeList
      else if d.item = [] then { d with para := d.para ++ [escape (strip line)] }
      else { d with item := d.item ++ [escape (strip line)] }

def renderFrom : List Text → Draft → Draft
  | [], d => d.flushPara.closeList
  | line :: rest, d =>
    match fenceOf U line with
    | some info =>
      let inside := fun l => (fenceOf U l).isNone
      renderFrom ((rest.dropWhile inside).drop 1)
        (d.flushPara.closeList.put (fenceHtml U info (joinLines (rest.takeWhile inside))))
    | none =>
      match _h : tableAt line rest with
      | some (header, aligns, rows, behind) =>
        renderFrom behind (d.flushPara.closeList.put (mdTableHtml header aligns rows))
      | none => renderFrom rest (d.line U line)
termination_by lines => lines.length
decreasing_by
  · have hle := (List.dropWhile_sublist (fun l => (fenceOf U l).isNone) (l := rest)).length_le
    simp only [List.length_drop, List.length_cons]
    omega
  · have hle := tableAt_shorter _h
    change behind.length ≤ rest.length at hle
    simp only [List.length_cons]
    omega
  · simp

/-- `render_markdown_subset` -/
def renderMarkdownSubset (t : Text) : Text := joinLines (renderFrom U (t.splitOn '\n') {}).out

/-! ## Tags -/

def inlineTags : List Text :=
  ["<strong>".toList, "</strong>".toList, "<em>".toList, "</em>".toList, "<code>".toList,
    "</code>".toList]

def InlineTag (a : Text) : Prop := a ∈ inlineTags

def blockTags : List String :=
  ["<p>", "</p>", "<h1>", "</h1>", "<h2>", "</h2>", "<h3>", "</h3>", "<h4>", "</h4>", "<ul>",
    "</ul>", "<ol>", "</ol>", "<li>", "</li>", "<pre>", "</pre>",
    "<button class=\"copy-btn\" type=\"button\">", "</button>", "<span class=\"tok-comment\">",
    "<span class=\"tok-string\">", "<span class=\"tok-keyword\">", "<span class=\"tok-number\">",
    "</span>", "<div class=\"md-table\">", "</div>", "<table>", "</table>", "<thead>", "</thead>",
    "<tbody>", "</tbody>", "<tr>", "</tr>", "<th>", "</th>", "<td>", "</td>",
    "<th class=\"align-center\">", "<th class=\"align-right\">", "<th class=\"align-left\">",
    "<td class=\"align-center\">", "<td class=\"align-right\">", "<td class=\"align-left\">"]

/-- The tags without text of the document. -/
def fixedTags : List Text := inlineTags ++ blockTags.map String.toList

/-- The renderer's tags, with the languages a fence may name. -/
def OwnTag (lang : Text → Prop) (a : Text) : Prop :=
  a ∈ fixedTags ∨ ∃ l, lang l ∧ a = languageTag l

theorem fixed_own {lang : Text → Prop} {a : Text} (h : a ∈ fixedTags) : OwnTag lang a := .inl h

theorem inline_own {lang : Text → Prop} (a : Text) (h : InlineTag a) : OwnTag lang a :=
  .inl (List.mem_append_left _ h)

/-- The characters the inline passes cut at. -/
def inlineJoints : List Char := ['*', '\x60', '\uE000', '\uE001']

theorem joints_apart :
    (inlineJoints.all fun c => decide (Plain c) && (inlineTags ++ entities).all (!·.contains c)) =
      true := by decide +kernel

theorem inline_joint {c : Char} (hc : c ∈ inlineJoints) : Joint InlineTag c := by
  have h := List.all_eq_true.mp joints_apart c hc
  rw [Bool.and_eq_true, List.all_eq_true] at h
  have hnot : ∀ a ∈ inlineTags ++ entities, c ∉ a := by
    intro a ha
    simpa using h.2 a ha
  exact ⟨of_decide_eq_true h.1, fun a ha => hnot a (List.mem_append_left _ ha),
    fun e he => hnot e (List.mem_append_right _ he)⟩

/-! ## The inline passes -/

theorem inner_between {n : Nat} {d : Text} (hlen : d.length = n) (m : Text) :
    inner n (d ++ m ++ d) = m := by
  unfold inner
  have htake : (d ++ m ++ d).length - 2 * n = m.length := by
    simp only [List.length_append]
    omega
  rw [htake, List.append_assoc, ← hlen, List.drop_left, List.take_left]

/-- Matches that start and end with joints leave what is in front, between and behind. -/
theorem cuts_between {p : Pattern Char} {n : Nat} {d : Text} (hd : ∀ c ∈ d, c ∈ inlineJoints)
    (hlen : d.length = n) (hne : d ≠ [])
    (hshape : ∀ {pl e : Place Char} {w : Text}, e ∈ p.runs pl → Along pl w e →
      ∃ m, w = d ++ m ++ d) :
    Cuts p (Inert InlineTag) fun w => Inert InlineTag (inner n w) where
  append := Inert.append
  cut := by
    intro pl e w he hw u hu
    obtain ⟨m, rfl⟩ := hshape he hw
    rw [inner_between hlen]
    have hj : ∀ c ∈ d, Joint InlineTag c := fun c hc => inline_joint (hd c hc)
    have hsplit : Inert InlineTag (u ++ d ++ (m ++ d ++ e.rest)) := by simpa using hu
    obtain ⟨hu, hmd⟩ := hsplit.cutAll hj hne
    exact ⟨hu, hmd.cutAll hj hne⟩

theorem runs_char {c : Char} {pl e : Place Char} (h : e ∈ (Pattern.one (· = c)).runs pl) :
    Along pl [c] e := by
  obtain ⟨x, hx, hone⟩ := mem_runs_one h
  rwa [of_decide_eq_true hx] at hone

theorem mdCode_cuts : Cuts mdCode (Inert InlineTag) fun w => Inert InlineTag (inner 1 w) :=
  cuts_between (d := ['\x60']) (by simp [inlineJoints]) rfl (List.cons_ne_nil _ _) (runs_between runs_char runs_char)

theorem mdBold_cuts : Cuts mdBold (Inert InlineTag) fun w => Inert InlineTag (inner 2 w) :=
  cuts_between (d := ['*', '*']) (by simp [inlineJoints]) rfl (List.cons_ne_nil _ _)
    (runs_between mem_runs_word.mp mem_runs_word.mp)

theorem mdItalic_cuts : Cuts mdItalic (Inert InlineTag) fun w => Inert InlineTag (inner 1 w) := by
  refine cuts_between (d := ['*']) (by simp [inlineJoints]) rfl (List.cons_ne_nil _ _)
    (runs_between ?_ ?_)
  · intro pl e he
    obtain ⟨a, ha, he⟩ := mem_runs_seq.mp he
    rw [mem_runs_test ha] at he
    exact runs_char he
  · intro pl e he
    obtain ⟨a, ha, he⟩ := mem_runs_seq.mp he
    rw [mem_runs_test he]
    exact runs_char ha

theorem tags_around {o c t : Text} (ho : o ∈ inlineTags) (hc : c ∈ inlineTags)
    (h : Inert InlineTag t) : Inert InlineTag (o ++ t ++ c) :=
  ((Inert.ofTag ho).append h).append (Inert.ofTag hc)

theorem placeholder_inert (n : Nat) : Inert InlineTag (placeholder n) := by
  refine Inert.ofPlain fun c hc => ?_
  unfold placeholder at hc
  rcases List.mem_append.mp hc with hc | hc
  · rcases List.mem_cons.mp hc with rfl | hc
    · decide
    · have hdigit := Nat.isDigit_of_mem_toDigits (by decide) (by decide) hc
      refine ⟨?_, ?_, ?_⟩ <;> (rintro rfl; revert hdigit; decide)
  · rw [List.mem_singleton.mp hc]
    decide

/-- Each span stands for a match, so the spans are inert and so is the text without them. -/
theorem stash_fills (n : Nat) (segs : List (Segment Char)) :
    Fills (fun _ r => Inert InlineTag r) segs (stash n segs).1 ∧
      ∀ s ∈ (stash n segs).2, ∃ w, .found w ∈ segs ∧ s = codeSpan w := by
  induction segs generalizing n with
  | nil => exact ⟨.nil, fun s hs => by cases hs⟩
  | cons g segs ih =>
    cases g with
    | gap c =>
      obtain ⟨hfill, hspans⟩ := ih n
      refine ⟨.gap hfill, fun s hs => ?_⟩
      obtain ⟨w, hw, he⟩ := hspans s hs
      exact ⟨w, List.mem_cons_of_mem _ hw, he⟩
    | found w =>
      obtain ⟨hfill, hspans⟩ := ih (n + 1)
      refine ⟨.found (placeholder_inert n) hfill, fun s hs => ?_⟩
      rcases List.mem_cons.mp hs with rfl | hs
      · exact ⟨w, List.mem_cons_self, rfl⟩
      · obtain ⟨v, hv, he⟩ := hspans s hs
        exact ⟨v, List.mem_cons_of_mem _ hv, he⟩

theorem stash_inert {t : Text} (h : Inert InlineTag t) :
    Inert InlineTag (stash 0 (segments mdCode t)).1 ∧
      ∀ s ∈ (stash 0 (segments mdCode t)).2, Inert InlineTag s := by
  obtain ⟨hfill, hspans⟩ := stash_fills 0 (segments mdCode t)
  have hnil : Inert InlineTag ([] ++ t) := h
  obtain ⟨hfound, hout⟩ := @Cuts.segmentsFrom _ _ _ _ mdCode_cuts _ (fun _ _ _ hr => hr) _ ⟨[], t⟩
    Nat.le.refl [] _ hnil hfill
  refine ⟨hout, fun s hs => ?_⟩
  obtain ⟨w, hw, rfl⟩ := hspans s hs
  exact tags_around (by simp [inlineTags]) (by simp [inlineTags]) (hfound w hw)

theorem replacePlaceholder_inert {n : Nat} {s t : Text} (hs : Inert InlineTag s)
    (ht : Inert InlineTag t) : Inert InlineTag (replaceText (placeholder n) s t) := by
  refine Cuts.sub (Q := fun _ => True) ⟨Inert.append, ?_⟩ (fun _ _ => hs) ht
  intro pl e w he hw u hu
  rw [hw.unique (mem_runs_word.mp he)] at hu
  have hcut : Inert InlineTag
      (u ++ '\uE000' :: (Nat.toDigits 10 n ++ '\uE001' :: e.rest)) := by
    simpa [placeholder] using hu
  obtain ⟨hu, hrest⟩ := hcut.cut (inline_joint (by simp [inlineJoints]))
  exact ⟨hu, trivial, (hrest.cut (inline_joint (by simp [inlineJoints]))).2⟩

theorem unstash_inert {spans : List Text} (hs : ∀ s ∈ spans, Inert InlineTag s) {n : Nat} {t : Text}
    (ht : Inert InlineTag t) : Inert InlineTag (unstash n spans t) := by
  induction spans generalizing n t with
  | nil => exact ht
  | cons s spans ih =>
    exact ih (fun x hx => hs x (List.mem_cons_of_mem _ hx))
      (replacePlaceholder_inert (hs s List.mem_cons_self) ht)

/-- The inline passes keep a text inert, whatever placeholders it holds of its own. -/
theorem mdInline_inert {t : Text} (h : Inert InlineTag t) : Inert InlineTag (mdInline t) := by
  obtain ⟨hstash, hspans⟩ := stash_inert h
  have hstrong : ∀ w, Inert InlineTag (inner 2 w) → Inert InlineTag (strong w) :=
    fun w hw => tags_around (by simp [inlineTags]) (by simp [inlineTags]) hw
  have hemphasis : ∀ w, Inert InlineTag (inner 1 w) → Inert InlineTag (emphasis w) :=
    fun w hw => tags_around (by simp [inlineTags]) (by simp [inlineTags]) hw
  have hitalic := mdItalic_cuts.sub hemphasis (mdBold_cuts.sub hstrong hstash)
  exact unstash_inert hspans hitalic

/-! ## Languages -/

/-- Characters that end an attribute or mean something in markup. -/
def Quiet (t : Text) : Prop := ∀ c ∈ t, c ≠ '"' ∧ Plain c

/-- What a fence may name: a lower-cased run of word characters, `+` and `-`, or a kind of code that
was recognized. -/
def Language (l : Text) : Prop :=
  Quiet l ∧ ((∃ run, (∀ c ∈ run, langChar U c = true) ∧ l = U.lower run) ∨
    ∃ k : CodeKind, l = kindName k)

/-- Lower-casing makes no quote and no markup of word characters. -/
def LowerQuiet : Prop := ∀ run, (∀ c ∈ run, langChar U c = true) → Quiet (U.lower run)

theorem kind_quiet (k : CodeKind) : Quiet (kindName k) := by
  have h : ∀ k : CodeKind, ((kindName k).all fun c => decide (c ≠ '"' ∧ Plain c)) = true := by
    intro k
    cases k <;> decide
  intro c hc
  exact of_decide_eq_true (List.all_eq_true.mp (h k) c hc)

theorem languageOf_language (hU : LowerQuiet U) {info code l : Text}
    (hinfo : ∀ c ∈ info, langChar U c = true) (h : languageOf U info code = some l) :
    Language U l := by
  unfold languageOf at h
  dsimp only at h
  split at h
  · obtain ⟨k, _, rfl⟩ := Option.map_eq_some_iff.mp h
    exact ⟨kind_quiet k, .inr ⟨k, rfl⟩⟩
  · rename_i hne
    obtain rfl := Option.some.inj h
    have hstrip : ∀ c ∈ strip info, langChar U c = true := by
      intro c hc
      obtain ⟨v, w, _, _, he⟩ := strip_spec info
      refine hinfo c ?_
      rw [he]
      exact List.mem_append_left _ (List.mem_append_right _ hc)
    exact ⟨hU _ hstrip, .inl ⟨strip info, hstrip, rfl⟩⟩

/-! ## Blocks -/

/-- The tags of the renderer. -/
abbrev Own : Text → Prop := OwnTag (Language U)

variable {U}

theorem block_inert {t : String} (h : t ∈ blockTags) : Inert (Own U) t.toList :=
  Inert.ofTag (.inl (List.mem_append_right _ (List.mem_map_of_mem h)))

theorem inline_inert {t : Text} (h : Inert InlineTag t) : Inert (Own U) t := h.mono inline_own

theorem tokenSpan_inert (kind : TokenKind) (w : Text) : Inert (Own U) (tokenSpan kind w) := by
  have hopen : "<span class=\"tok-" ++ kind.text ++ "\">" ∈ blockTags := by
    cases kind <;> simp [blockTags, TokenKind.text]
  exact ((block_inert hopen).append (escape_inert w)).append (block_inert (by simp [blockTags]))

theorem tokenizeFrom_inert (tokens : List (TokenKind × Pattern Char)) (fuel : Nat)
    (pl : Place Char) : Inert (Own U) (tokenizeFrom tokens fuel pl) := by
  induction fuel generalizing pl with
  | zero => exact .nil
  | succ fuel ih =>
    rw [tokenizeFrom]
    split
    · exact .nil
    · split
      · exact (tokenSpan_inert _ _).append (ih _)
      · exact (escapeChar_inert _).append (ih _)

theorem codeHtml_inert (lang : Option Text) (code : Text) : Inert (Own U) (codeHtml U lang code) := by
  unfold codeHtml
  cases lang with
  | none => exact escape_inert code
  | some l =>
    show Inert (Own U) (tokenizeCode U code l)
    unfold tokenizeCode
    split
    · exact tokenizeFrom_inert _ _ _
    · split
      · exact tokenizeFrom_inert _ _ _
      · exact escape_inert code

theorem codeTag_inert {lang : Option Text} (h : ∀ l, lang = some l → Language U l) :
    Inert (Own U) (codeTag lang) := by
  cases lang with
  | none =>
    show Inert (Own U) "<code>".toList
    exact inline_inert (Inert.ofTag (by simp [inlineTags, InlineTag]))
  | some l => exact Inert.ofTag (.inr ⟨l, h l rfl, rfl⟩)

theorem fenceHtml_inert (hU : LowerQuiet U) {info : Text} (hinfo : ∀ c ∈ info, langChar U c = true)
    (code : Text) : Inert (Own U) (fenceHtml U info code) := by
  have hcopy : Inert (Own U) "Copy".toList := Inert.ofPlain (by simp [Plain])
  have hclose : Inert (Own U) "</code>".toList :=
    inline_inert (Inert.ofTag (by simp [inlineTags, InlineTag]))
  have hcode : Inert (Own U) (codeTag (languageOf U info code)) :=
    codeTag_inert fun l hl => languageOf_language U hU hinfo hl
  unfold fenceHtml
  refine Inert.append (Inert.append (Inert.append (Inert.append (Inert.append (Inert.append
    (Inert.append ?_ ?_) hcopy) ?_) hcode) (codeHtml_inert _ _)) hclose) ?_
  all_goals exact block_inert (by simp [blockTags])

/-! ## Tables -/

def alignNames : List Text := [[], "center".toList, "right".toList, "left".toList]

theorem alignOf_mem (cell : Text) : alignOf cell ∈ alignNames := by
  unfold alignOf
  split
  · simp [alignNames]
  split
  · simp [alignNames]
  split <;> simp [alignNames]

theorem cellTag_fixed {tag : String} (ht : tag ∈ ["td", "th"]) {align : Text}
    (ha : align ∈ alignNames) : cellTag tag align ∈ fixedTags := by
  have hof : ∀ t ∈ blockTags, cellTag tag align = t.toList → cellTag tag align ∈ fixedTags :=
    fun t ht he => he ▸ List.mem_append_right _ (List.mem_map_of_mem ht)
  simp only [alignNames, List.mem_cons, List.not_mem_nil, or_false] at ht ha
  rcases ht with rfl | rfl <;> rcases ha with rfl | rfl | rfl | rfl
  · exact hof "<td>" (by simp [blockTags]) (by decide +kernel)
  · exact hof "<td class=\"align-center\">" (by simp [blockTags]) (by decide +kernel)
  · exact hof "<td class=\"align-right\">" (by simp [blockTags]) (by decide +kernel)
  · exact hof "<td class=\"align-left\">" (by simp [blockTags]) (by decide +kernel)
  · exact hof "<th>" (by simp [blockTags]) (by decide +kernel)
  · exact hof "<th class=\"align-center\">" (by simp [blockTags]) (by decide +kernel)
  · exact hof "<th class=\"align-right\">" (by simp [blockTags]) (by decide +kernel)
  · exact hof "<th class=\"align-left\">" (by simp [blockTags]) (by decide +kernel)

theorem tableCell_inert {tag : String} (ht : tag ∈ ["td", "th"]) {align : Text}
    (ha : align ∈ alignNames) (t : Text) : Inert (Own U) (tableCell tag t align) := by
  have hopen : cellTag tag align ∈ fixedTags := cellTag_fixed ht ha
  have hclose : "</" ++ tag ++ ">" ∈ blockTags := by
    simp only [List.mem_cons, List.not_mem_nil, or_false] at ht
    rcases ht with rfl | rfl <;> simp [blockTags]
  exact ((Inert.ofTag (fixed_own hopen)).append
    (inline_inert (mdInline_inert (escape_inert t)))).append (block_inert hclose)

theorem cells_inert {tag : String} (ht : tag ∈ ["td", "th"]) {aligns : List Text}
    (ha : ∀ a ∈ aligns, a ∈ alignNames) (cells : List Text) :
    Inert (Own U) (cells.zipWith (tableCell tag) aligns).flatten := by
  refine Inert.flatten fun t htm => ?_
  rw [← List.map_uncurry_zip_eq_zipWith] at htm
  obtain ⟨⟨cell, a⟩, hm, rfl⟩ := List.mem_map.mp htm
  exact tableCell_inert ht (ha a (List.of_mem_zip hm).2) cell

theorem aligns_named {line : Text} {width : Nat} {aligns : List Text}
    (h : mdTableAlignments line width = some aligns) : ∀ a ∈ aligns, a ∈ alignNames := by
  unfold mdTableAlignments at h
  split at h
  · cases h
  · split at h
    · cases h
    · obtain rfl := Option.some.inj h
      intro a ha
      obtain ⟨cell, _, rfl⟩ := List.mem_map.mp ha
      exact alignOf_mem cell

theorem tableRow_inert {aligns : List Text} (ha : ∀ a ∈ aligns, a ∈ alignNames) (row : List Text) :
    Inert (Own U) (tableRow aligns row) :=
  ((block_inert (by simp [blockTags])).append (cells_inert (by decide) ha _)).append
    (block_inert (by simp [blockTags]))

theorem mdTableHtml_inert {aligns : List Text} (ha : ∀ a ∈ aligns, a ∈ alignNames)
    (header : List Text) (rows : List (List Text)) :
    Inert (Own U) (mdTableHtml header aligns rows) := by
  have hrows : Inert (Own U) (rows.map (tableRow aligns)).flatten := by
    refine Inert.flatten fun t ht => ?_
    obtain ⟨row, _, rfl⟩ := List.mem_map.mp ht
    exact tableRow_inert ha row
  have hhead : Inert (Own U) (header.zipWith (tableCell "th") aligns).flatten :=
    cells_inert (by decide) ha header
  unfold mdTableHtml
  refine Inert.append (Inert.append (Inert.append (Inert.append (Inert.append (Inert.append
    (Inert.append (Inert.append (Inert.append (Inert.append (Inert.append ?_ ?_) ?_) ?_) hhead)
      ?_) ?_) ?_) hrows) ?_) ?_) ?_
  all_goals exact block_inert (by simp [blockTags])

theorem tableAt_aligned {line : Text} {rest : List Text}
    {table : List Text × List Text × List (List Text) × List Text}
    (h : tableAt line rest = some table) : ∀ a ∈ table.2.1, a ∈ alignNames := by
  unfold tableAt at h
  split at h
  · obtain ⟨aligns, ha, rfl⟩ := Option.map_eq_some_iff.mp h
    exact aligns_named ha
  · cases h

/-! ## Drafts -/

/-- What a draft holds is inert: its output with the renderer's tags, its open texts with those of
the inline passes, which have not run yet. -/
structure Safe (U : CharTables) (d : Draft) : Prop where
  out : ∀ t ∈ d.out, Inert (Own U) t
  para : ∀ t ∈ d.para, Inert InlineTag t
  item : ∀ t ∈ d.item, Inert InlineTag t

theorem Safe.put {d : Draft} (h : Safe U d) {t : Text} (ht : Inert (Own U) t) : Safe U (d.put t) := by
  refine ⟨fun x hx => ?_, h.para, h.item⟩
  rcases List.mem_append.mp hx with hx | hx
  · exact h.out x hx
  · rw [List.mem_singleton.mp hx]
    exact ht

theorem around_inert {tag : String} (ho : "<" ++ tag ++ ">" ∈ blockTags)
    (hc : "</" ++ tag ++ ">" ∈ blockTags) {t : Text} (h : Inert InlineTag t) :
    Inert (Own U) (around tag t) :=
  ((block_inert ho).append (inline_inert h)).append (block_inert hc)

theorem joined_inert {ts : List Text} (h : ∀ t ∈ ts, Inert InlineTag t) :
    Inert InlineTag (mdInline ([' '].intercalate ts)) :=
  mdInline_inert (Inert.intercalate (Inert.ofPlain (by simp [Plain])) h)

theorem Safe.flushPara {d : Draft} (h : Safe U d) : Safe U d.flushPara := by
  unfold Draft.flushPara
  split
  · exact h
  · have hp : Inert (Own U) (around "p" (mdInline ([' '].intercalate d.para))) :=
      around_inert (by simp [blockTags]) (by simp [blockTags]) (joined_inert h.para)
    have hput := h.put hp
    exact ⟨hput.out, List.forall_mem_nil _, hput.item⟩

theorem Safe.flushItem {d : Draft} (h : Safe U d) : Safe U d.flushItem := by
  unfold Draft.flushItem
  split
  · exact h
  · have hli : Inert (Own U) (around "li" (mdInline ([' '].intercalate d.item))) :=
      around_inert (by simp [blockTags]) (by simp [blockTags]) (joined_inert h.item)
    have hput := h.put hli
    exact ⟨hput.out, hput.para, List.forall_mem_nil _⟩

theorem Safe.closeList {d : Draft} (h : Safe U d) : Safe U d.closeList := by
  unfold Draft.closeList
  split
  · exact h.flushItem
  · rename_i k _
    have hclose : "</" ++ k.text ++ ">" ∈ blockTags := by
      cases k <;> simp [blockTags, ListKind.text]
    have hput := h.flushItem.put (block_inert hclose)
    exact ⟨hput.out, hput.para, hput.item⟩

theorem Safe.putItem {d : Draft} (h : Safe U d) (kind : ListKind) (t : Text) :
    Safe U (d.putItem kind t) := by
  have hopen : "<" ++ kind.text ++ ">" ∈ blockTags := by
    cases kind <;> simp [blockTags, ListKind.text]
  have hlist : Safe U (if d.flushPara.inList = some kind then d.flushPara
      else { d.flushPara.closeList.put ("<" ++ kind.text ++ ">").toList with
        inList := some kind }) := by
    split
    · exact h.flushPara
    · have hput := h.flushPara.closeList.put (block_inert hopen)
      exact ⟨hput.out, hput.para, hput.item⟩
  have hflush := hlist.flushItem
  refine ⟨hflush.out, hflush.para, fun x hx => ?_⟩
  rw [List.mem_singleton.mp hx]
  exact escape_inert t

theorem headings_fixed :
    ([1, 2, 3, 4].all fun n => blockTags.contains ("<" ++ ("h" ++ toString n) ++ ">") &&
      blockTags.contains ("</" ++ ("h" ++ toString n) ++ ">")) = true := by decide +kernel

theorem headingOf_level {line t : Text} {level : Nat} (h : headingOf line = some (level, t)) :
    level ∈ [1, 2, 3, 4] := by
  unfold headingOf at h
  dsimp only at h
  split at h
  · rename_i hl
    cases h
    have h4 := hl.2.1
    have h1 := hl.1
    simp only [List.mem_cons, List.not_mem_nil, or_false]
    omega
  · cases h

theorem Safe.line {d : Draft} (h : Safe U d) (line : Text) : Safe U (d.line U line) := by
  have hopen : ∀ t, Inert InlineTag (escape t) := fun t => escape_inert t
  have hsnoc : ∀ ts : List Text, (∀ t ∈ ts, Inert InlineTag t) →
      ∀ t ∈ ts ++ [escape (strip line)], Inert InlineTag t := by
    intro ts hts t ht
    rcases List.mem_append.mp ht with ht | ht
    · exact hts t ht
    · rw [List.mem_singleton.mp ht]
      exact hopen _
  unfold Draft.line
  split
  · rename_i level t hh
    have hlevel := List.all_eq_true.mp headings_fixed level (headingOf_level hh)
    rw [Bool.and_eq_true] at hlevel
    exact h.flushPara.closeList.put (around_inert (List.contains_iff_mem.mp hlevel.1)
      (List.contains_iff_mem.mp hlevel.2) (mdInline_inert (hopen t)))
  · split
    · exact h.putItem _ _
    · exact h.putItem _ _
    · split
      · exact h.flushPara.closeList
      · split
        · exact ⟨h.out, hsnoc _ h.para, h.item⟩
        · exact ⟨h.out, h.para, hsnoc _ h.item⟩

theorem fenceOf_chars {line info : Text} (h : fenceOf U line = some info) :
    ∀ c ∈ info, langChar U c = true := by
  unfold fenceOf at h
  split at h
  · split at h
    · obtain rfl := Option.some.inj h
      exact fun c hc => List.mem_takeWhile_imp hc
    · cases h
  · cases h

theorem renderFrom_safe (hU : LowerQuiet U) (lines : List Text) (d : Draft) (h : Safe U d) :
    Safe U (renderFrom U lines d) := by
  induction lines, d using renderFrom.induct U with
  | case1 d =>
    rw [renderFrom]
    exact h.flushPara.closeList
  | case2 d line rest info hf inside ih =>
    rw [renderFrom, hf]
    exact ih (h.flushPara.closeList.put (fenceHtml_inert hU (fenceOf_chars hf) _))
  | case3 d line rest hf header aligns rows behind ht ih =>
    rw [renderFrom, hf]
    dsimp only
    split
    · rename_i header' aligns' rows' behind' ht'
      rw [ht] at ht'
      cases ht'
      exact ih (h.flushPara.closeList.put (mdTableHtml_inert (tableAt_aligned ht) _ _))
    · rename_i hn
      rw [ht] at hn
      cases hn
  | case4 d line rest hf ht ih =>
    rw [renderFrom, hf]
    dsimp only
    split
    · rename_i ht'
      rw [ht] at ht'
      cases ht'
    · exact ih (h.line _)

/-! ## Main results -/

theorem fixed_shaped {a : Text} (h : a ∈ fixedTags) :
    (a.head? = some '<' && a.getLast? = some '>' &&
      a.tail.dropLast.all fun c => decide (Plain c)) = true := by
  rcases List.mem_append.mp h with h | h
  · iterate 6
      rcases List.mem_cons.mp h with rfl | h
      · decide +kernel
    cases h
  · obtain ⟨t, ht, rfl⟩ := List.mem_map.mp h
    iterate 45
      rcases List.mem_cons.mp ht with rfl | ht
      · decide +kernel
    cases ht

theorem fixedTag_shape {a : Text} (h : a ∈ fixedTags) :
    ∃ b, a = '<' :: b ++ ['>'] ∧ ∀ c ∈ b, Plain c := by
  have hs := fixed_shaped h
  simp only [Bool.and_eq_true, decide_eq_true_eq, List.all_eq_true] at hs
  obtain ⟨⟨hh, hl⟩, hp⟩ := hs
  cases a with
  | nil => cases hh
  | cons x t =>
    obtain rfl := Option.some.inj hh
    have hne : t ≠ [] := by
      rintro rfl
      cases hl
    rw [List.getLast?_cons_of_ne_nil hne, List.getLast?_eq_some_getLast hne] at hl
    refine ⟨t.dropLast, ?_, hp⟩
    rw [List.cons_append, ← Option.some.inj hl, List.dropLast_append_getLast]

theorem own_shaped {lang : Text → Prop} (h : ∀ l, lang l → ∀ c ∈ l, Plain c) :
    Shaped (OwnTag lang) := by
  rintro a (ha | ⟨l, hl, rfl⟩)
  · exact fixedTag_shape ha
  · refine ⟨languageAttr ++ l ++ ['"'], rfl, fun c hc => ?_⟩
    rcases List.mem_append.mp hc with hc | hc
    · rcases List.mem_append.mp hc with hc | hc
      · have hplain : (languageAttr.all fun c => decide (Plain c)) = true := by
          decide +kernel
        exact of_decide_eq_true (List.all_eq_true.mp hplain c hc)
      · exact h l hl c hc
    · rw [List.mem_singleton.mp hc]
      decide

end

/-- The ASCII tables with the dotted capital I, which becomes two characters in lower case. -/
def dottedTables : CharTables :=
  { asciiTables with
    isWord := fun c => asciiTables.isWord c || c = 'İ'
    lower := fun t => t.flatMap fun c => if c = 'İ' then ['i', '\u0307'] else [c.toLower] }

/-- What lower-casing gives below the lower-case letters stood there before. -/
theorem eq_of_toLower {x y : Char} (h : x.toLower = y) (hy : y.toNat < 97) : x = y := by
  subst h
  unfold Char.toLower at hy ⊢
  split at hy
  · rename_i hup
    have h1 : 65 ≤ x.val.toNat := hup.1
    have h2 : x.val.toNat ≤ 90 := hup.2
    have hval : (x.val + 32).toNat = x.val.toNat + 32 := by
      rw [UInt32.toNat_add]
      exact Nat.mod_eq_of_lt (by show x.val.toNat + 32 < 4294967296; omega)
    change (x.val + 32).toNat < 97 at hy
    omega
  · rename_i hup
    rw [dif_neg hup]

theorem dotted_lower {run : Text} (h : ∀ c ∈ run, langChar dottedTables c = true) :
    Quiet (dottedTables.lower run) := by
  intro c hc
  obtain ⟨x, hx, hc⟩ := List.mem_flatMap.mp hc
  have hword := h x hx
  split at hc
  · have hall : (['i', '\u0307'].all fun c => decide (c ≠ '"' ∧ Plain c)) = true := by decide +kernel
    exact of_decide_eq_true (List.all_eq_true.mp hall c hc)
  · have hne : ∀ y : Char, y.toNat < 97 → langChar dottedTables y = false → c ≠ y := by
      intro y hy hl he
      rw [List.mem_singleton.mp hc] at he
      rw [eq_of_toLower he hy, hl] at hword
      cases hword
    exact ⟨hne '"' (by decide) (by decide), hne '<' (by decide) (by decide),
      hne '>' (by decide) (by decide), hne '&' (by decide) (by decide)⟩

def dottedHtml : Text :=
  ("<pre><button class=\"copy-btn\" type=\"button\">Copy</button><code class=\"language-i̇\">" ++
    "</code></pre>").toList

theorem rendered_dotted :
    renderMarkdownSubset dottedTables "\x60\x60\x60İ".toList = dottedHtml := by
  have hlines : "\x60\x60\x60İ".toList.splitOn '\n' = ["\x60\x60\x60İ".toList] := by decide +kernel
  have hfence : fenceOf dottedTables "\x60\x60\x60İ".toList = some ['İ'] := by decide +kernel
  rw [renderMarkdownSubset, hlines, renderFrom, hfence]
  dsimp only [List.takeWhile, List.dropWhile, List.drop]
  rw [renderFrom]
  decide +kernel

end MainframeRag.Webui
