import MainframeRag.Lib.Spans
import MainframeRag.Agent.Cites
import MainframeRag.Ingest.Chunking.Chunks
import MainframeRag.Retrieve.Filters

/-!
# The identifiers in a query

The patterns of `regexes.py` and `parse_query` of `retrieve/filters.py`.
-/

namespace MainframeRag.Retrieve

open PyText Regex Regex.Pattern Ingest.Chunking
open Agent (lit wordCi oneOf upper digits docNumber wordEdge atEnd blanks blanks1)

/-! ## Patterns -/

section

variable (U : CharTables)

/-- `\w*` -/
def wordChars : Pattern Char := star (one U.isWord)

/-- `p` between word edges. -/
def wholeWord (p : Pattern Char) : Pattern Char := row [wordEdge U, p, wordEdge U]

/-- One of the words in lower case under `re.IGNORECASE`. -/
def anyWordCi (ws : List String) : Pattern Char :=
  ws.foldr (fun w p => alt (wordCi w) p) (one fun _ => false)

/-- `DOCNO_RE` -/
def docnoRe : Pattern Char := wholeWord U (docNumber U)

/-- `[A-Z]{n}\d{2,5}[A-Z]` -/
def classicId (n : Nat) : Pattern Char :=
  row [exactly n upper, digits U 2, upTo 3 (one U.isDecimal), upper]

/-- `MSG_RE` -/
def msgRe : Pattern Char :=
  wholeWord U (alt (classicId U 3)
    (alt (row [lit "DFH", upTo 2 upper, digits U 4, upTo 1 (one U.isDecimal)])
      (alt (row [lit "DFS", digits U 3, upTo 1 (one U.isDecimal), opt upper]) (classicId U 4))))

/-- `MEMBER_RE` -/
def memberRe : Pattern Char :=
  wholeWord U (row [exactly 3 upper, upTo 5 upper, alt (lit "xx") (digits U 2)])

/-- `MEMBER_QUERY_RE` -/
def memberQueryRe : Pattern Char :=
  wholeWord U (row [exactly 3 (one Char.isAlpha), upTo 5 (one Char.isAlpha),
    alt (exactly 2 (oneOf "xX")) (digits U 2)])

/-- `_WILDCARD_TAIL_RE` -/
def wildcardTailRe : Pattern Char :=
  row [lit "-", oneOf "xX", opt (oneOf "xX"),
    test fun pl => !pl.rest.head?.any fun c => U.isWord c || c = '-']

/-- `_PARTIAL_TAIL_RE` -/
def partialTailRe : Pattern Char :=
  row [lit "-", one U.isDecimal, test fun pl => !pl.rest.head?.any fun c => U.isDecimal c || c = '-']

/-! ### Completion codes -/

/-- `[0-9A-F]` under `re.IGNORECASE` -/
def hexDigit : Pattern Char :=
  one fun c => c.isDigit || ('A' ≤ c && c ≤ 'F') || ('a' ≤ c && c ≤ 'f')

/-- `(?!p)` -/
def notAhead (p : Pattern Char) : Pattern Char := test fun pl => (p.runs pl).isEmpty

/-- `_SYSCODE_S_RE` -/
def syscodeSRe : Pattern Char :=
  row [wholeWord U (seq (wordCi "s") (exactly 3 hexDigit)),
    notAhead (row [star (one fun c => U.isDecimal c || c = '-'), lit "-", digits U 4])]

/-- `_SYSCODE_HEX_RE` -/
def syscodeHexRe : Pattern Char :=
  row [wordEdge U, wordCi "x", lit "'", exactly 3 hexDigit, lit "'", notAhead hexDigit]

/-- `_USERCODE_RE` -/
def usercodeRe : Pattern Char := wholeWord U (seq (wordCi "u") (digits U 4))

/-- `_WAITSTATE_RE` -/
def waitstateRe : Pattern Char :=
  wholeWord U (row [wordCi "wait", blanks1, wordCi "state", blanks1, exactly 3 hexDigit])

/-- `_SYSCODE_BARE_RE` -/
def syscodeBareRe : Pattern Char := wholeWord U (exactly 3 hexDigit)

/-- `_SYSCODE_CONNECTOR` -/
def syscodeConnector : Pattern Char :=
  opt (seq (alt (seq (wordCi "code") (opt (wordCi "s")))
    (anyWordCi ["error", "status", "value", "hex"])) blanks1)

/-- `_SYSCODE_PHRASE` -/
def syscodePhrase : Pattern Char :=
  alt (seq (wordCi "abend") (wordChars U))
    (row [anyWordCi ["completion", "system"], blanks1, wordCi "code", opt (wordCi "s")])

/-- `_SYSCODE_CONTEXT_BEFORE_RE` -/
def syscodeContextBeforeRe : Pattern Char := row [syscodePhrase U, blanks1, syscodeConnector, atEnd]

/-- `_SYSCODE_CONTEXT_AFTER_RE` -/
def syscodeContextAfterRe : Pattern Char :=
  row [blanks, syscodeConnector, syscodePhrase U, wordEdge U]

/-- `_SYSCODE_MODEL_RE` -/
def syscodeModelRe : Pattern Char :=
  wholeWord U (seq (wordCi "s") (alt (lit "370") (lit "390")))

/-! ## What is found -/

/-- `sorted(set(ts))` -/
def sortedSet (ts : List Text) : List Text := ts.dedup.insertionSort (· ≤ ·)

/-- `str.upper()` -/
def upperText (t : Text) : Text := t.flatMap U.upper

def findMessageIds (text : Text) : List Text := sortedSet (found (msgRe U) text)

def findMembers (text : Text) : List Text := sortedSet (found (memberRe U) text)

/-- `str.isupper()` -/
def isUpperText (t : Text) : Bool := t.any U.isUpper && !t.any fun c => U.isLower c || U.isTitle c

/-- `_is_letter_code` -/
def isLetterCode (text : Text) (m : Nat × Nat) : Bool :=
  isUpperText U (spanText text m.1 m.2) && search (syscodeContextBeforeRe U) (text.take m.1)

/-- The code of a bare match that a code phrase stands beside. -/
def bareCode (text : Text) (m : Nat × Nat) : Option Text :=
  let token := upperText U (spanText text m.1 m.2)
  if !token.any U.isDigit then if isLetterCode U text m then some token else none
  else if search (syscodeContextBeforeRe U) (text.take m.1) ||
      ((syscodeContextAfterRe U).matchStart (text.drop m.2)).isSome then some token
  else none

/-- `find_system_codes` -/
def findSystemCodes (text : Text) : List Text :=
  let text := sub (syscodeModelRe U) (fun _ => [' ']) text
  let prefixed := (spans (syscodeSRe U) text).filterMap fun m =>
    let token := upperText U (spanText text (m.1 + 1) m.2)
    if token.any U.isDigit || isLetterCode U text m then some token else none
  let literal := (found (syscodeHexRe U) text).map fun w => upperText U ((w.drop 2).take 3)
  let user := (found (usercodeRe U) text).map fun w => 'U' :: w.drop 1
  let waits := (found (waitstateRe U) text).map fun w => 'W' :: upperText U (w.drop (w.length - 3))
  let bare := (spans (syscodeBareRe U) text).filterMap (bareCode U text)
  sortedSet (prefixed ++ literal ++ user ++ waits ++ bare)

/-- `f"{n:0{width}d}"` -/
def padded (width n : Nat) : Text := List.replicate (width - (natText n).length) '0' ++ natText n

/-- `_doc_family` -/
def docFamily (stem digit : Text) : List Text :=
  let width := 2 - digit.length
  stem :: (List.range (10 ^ width)).map fun n : Nat => stem ++ '-' :: (digit ++ padded width n)

/-- What one document number of a query stands for. -/
def docFilterIds (text : Text) (m : Nat × Nat) : List Text :=
  let token := spanText text m.1 m.2
  let tail := text.drop m.2
  if token.count '-' = 1 then
    if tail.head? = some '-' then
      if ((wildcardTailRe U).matchStart tail).isSome then docFamily token []
      else if ((partialTailRe U).matchStart tail).isSome then docFamily token (spanText tail 1 2)
      else []
    else docFamily token []
  else if tail.head? = some '-' then [] else [token]

/-- `_find_doc_filter_ids` -/
def findDocFilterIds (text : Text) : List Text :=
  (spans (docnoRe U) text).flatMap (docFilterIds U text)

/-- `_fold_member_case` -/
def foldMemberCase (token : Text) : Text :=
  let up := upperText U token
  if "XX".toList <:+ up then up.take (up.length - 2) ++ "xx".toList else up

/-- `find_members_folded` -/
def findMembersFolded (query : Text) : List Text :=
  sortedSet (findMembers U query ++ (found (memberQueryRe U) query).map (foldMemberCase U))

def parseQuery (query : Text) : QueryIdentifiers where
  docIds := sortedSet (findDocFilterIds U query ++ findDocFilterIds U (upperText U query))
  messageIds := sortedSet (findMessageIds U query ++ findMessageIds U (upperText U query))
  members := findMembersFolded U query
  systemCodes := findSystemCodes U query

end

theorem mem_sortedSet {ts : List Text} {t : Text} : t ∈ sortedSet ts ↔ t ∈ ts := by
  rw [sortedSet, List.mem_insertionSort, List.mem_dedup]

/-- A set is listed in ascending order, each text once. -/
theorem sortedSet_ascending (ts : List Text) : (sortedSet ts).Pairwise (· < ·) := by
  have hle : (sortedSet ts).Pairwise (· ≤ ·) := List.pairwise_insertionSort _ _
  have hne : (sortedSet ts).Nodup :=
    (List.perm_insertionSort _ _).nodup_iff.mpr (List.nodup_dedup ts)
  exact (hle.and hne).imp fun h => lt_of_le_of_ne h.1 h.2

/-- A message id of a query is a match of the query or of its upper case. -/
theorem mem_messageIds {U : CharTables} {query t : Text} :
    t ∈ (parseQuery U query).messageIds ↔
      t ∈ found (msgRe U) query ∨ t ∈ found (msgRe U) (upperText U query) := by
  rw [parseQuery, mem_sortedSet, List.mem_append, findMessageIds, findMessageIds, mem_sortedSet,
    mem_sortedSet]

end MainframeRag.Retrieve
