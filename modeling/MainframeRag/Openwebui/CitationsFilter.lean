import MainframeRag.Agent.Cites

/-!
# The citations filter of the chat pipe

`_CitationsFilter` of `docs_pipe.py` hides the model's own citations section from a text that
arrives in deltas. The text it shows does not depend on how the deltas were cut (`feeds_flatten`):
a line is held only while it may still become a header or a line of a section, and what may still
become one has only such beginnings (`Scan.holdable_append`).

Line by line (`Scan.emits`) the filter is compared with the whole lines a reader is to see
(`keptLines`): the two agree exactly on the texts where no blank line that ends a section holds a
character and no line that opens a fence is read as a line of a section (`Scan.emits_kept`).
-/

namespace MainframeRag.Openwebui

open PyText Regex Agent

/-! ## Patterns -/

/-- `[^\S\n]` -/
def isGap (c : Char) : Bool := isSpace c && c ≠ '\n'

/-- `` [*_`] `` -/
def isMarkup (c : Char) : Bool := "*_`".toList.contains c

/-- `_HEADER_WORDS` -/
def headerWords : List Text :=
  ["citation".toList, "citations".toList, "source".toList, "sources".toList, "reference".toList,
    "references".toList]

def headerMaxChars : Nat := 64

def holdMaxChars : Nat := 2048

def dropColon (t : Text) : Text := if t.head? = some ':' then t.tail else t

/-- The second group of `_HEADER_START`, to the end of the line. -/
def tailStart (t : Text) : Bool :=
  (((dropColon (t.dropWhile isMarkup)).dropWhile isMarkup).dropWhile isGap).isEmpty

/-- The first group of `_HEADER_START` and what is asked of the word it holds. -/
def wordStart (t : Text) : Bool :=
  let word := (t.takeWhile Char.isAlpha).map Char.toLower
  let tail := t.dropWhile Char.isAlpha
  tailStart tail && headerWords.any (fun w => if tail = [] then word.isPrefixOf w else w == word)

/-- `(?:#+[^\S\n]*)?` -/
def dropHashes (t : Text) : Text :=
  if t.head? = some '#' then (t.dropWhile (· = '#')).dropWhile isGap else t

/-- A full match of `_HEADER_START` with a header word: no two of its classes share a character, so
the greedy match is the only one. -/
def headerStart (t : Text) : Bool :=
  wordStart ((dropHashes (t.dropWhile isGap)).dropWhile isMarkup)

section

open Regex.Pattern

/-- `_PAGE_TAIL` -/
def pageTail : Pattern Char := row [lit ",", blanks1, lit "p.", one isSpace]

/-- `_COMMA_GAP` -/
def commaGap : Pattern Char := row [lit ",", blanks1, dot]

end

/-- Where the matches of a scan start. -/
def startsFrom : Nat → List (Segment Char) → List Nat
  | _, [] => []
  | n, .gap _ :: rest => startsFrom (n + 1) rest
  | n, .found w :: rest => n :: startsFrom (n + w.length) rest

def citationLike (line : Text) : Bool :=
  match (startsFrom 0 (segments pageTail line)).getLast? with
  | some tail => search commaGap (line.take tail)
  | none => false

/-! ## The filter -/

inductive SectionKind
  | canonical
  | aliases
  deriving DecidableEq

/-- What the filter knows at the start of a line. -/
structure Scan where
  fence : Bool := false
  sectionKind : Option SectionKind := none
  hasCites : Bool := false
  aliasHeader : Option Text := none
  deriving DecidableEq

structure CitationsFilter extends Scan where
  line : Text := []
  isOpen : Bool := false
  head : Text := []
  newlines : Nat := 0
  emitted : Bool := false
  deriving DecidableEq

/-- An operation of the filter, with the text it hands out. -/
abbrev Act := CitationsFilter → CitationsFilter × Text

def skip : Act := fun f => (f, [])

def andThen (a b : Act) : Act := fun f => ((b (a f).1).1, (a f).2 ++ (b (a f).1).2)

def emit (text : Text) : Act := fun f =>
  if text = [] then (f, [])
  else ({ f with newlines := 0, emitted := true }, List.replicate f.newlines '\n' ++ text)

def addNewline : Act := fun f => ({ f with newlines := f.newlines + 1 }, [])

def endSection : Act := fun f =>
  let r := match f.sectionKind, f.aliasHeader with
    | some _, some header => andThen (emit header) addNewline f
    | _, _ => (f, [])
  ({ r.1 with sectionKind := none, aliasHeader := none }, r.2)

def Scan.holdable (s : Scan) (line : Text) : Bool :=
  match s.sectionKind with
  | some _ => (s.aliasHeader.getD []).length + line.length ≤ holdMaxChars
  | none => line.length ≤ headerMaxChars && headerStart line

/-- `raw.removesuffix("\r")` -/
def bare (raw : Text) : Text := if raw.getLast? = some '\r' then raw.dropLast else raw

def Scan.headerKind (s : Scan) (raw : Text) : Option SectionKind :=
  if !s.fence && (bare raw).length ≤ headerMaxChars then
    if isMatch citationsHeaderRe (bare raw) then some .canonical
    else if isMatch citationAliasHeaderRe (bare raw) then some .aliases
    else none
  else none

def Scan.enter (kind : SectionKind) (raw : Text) (s : Scan) : Scan :=
  { s with
    sectionKind := some kind
    aliasHeader := if kind = .canonical then none else some raw
    hasCites := false }

def fences : List Text := ["```".toList, "~~~".toList]

def fenceHead (head : Text) : Bool := fences.any (fun w => w.isPrefixOf (lstrip head))

variable (U : CharTables)

/-- A bullet or a citation of a section. -/
def sectionLine (kind : SectionKind) (stripped : Text) : Bool :=
  (kind = .canonical && isMatch (markerRe U) stripped) || citationLike stripped

def decideLine (raw : Text) (terminated : Bool) : Act := fun f =>
  let prose := andThen (emit raw) (if terminated then addNewline else skip)
  match f.headerKind raw with
  | some kind => ({ f with toScan := f.enter kind raw }, [])
  | none => match f.sectionKind with
    | none => prose f
    | some kind =>
      if strip (bare raw) = [] then
        if f.hasCites then
          addNewline { f with sectionKind := none, aliasHeader := none }
        else (f, [])
      else if sectionLine U kind (strip (bare raw)) then
        ({ f with hasCites := true, aliasHeader := none }, [])
      else andThen endSection prose f

/-- The line's first characters, which tell a fence. -/
def growHead (head part : Text) : Text :=
  if head.length < 8 then head ++ part.take (8 - head.length) else head

def add (part : Text) : Act := fun f =>
  let f := { f with head := growHead f.head part }
  if f.isOpen then emit part f
  else
    let f := { f with line := f.line ++ part }
    if f.fence || !f.holdable f.line then
      let r := andThen endSection (emit f.line) f
      ({ r.1 with line := [], isOpen := true }, r.2)
    else (f, [])

def endLine : Act := fun f =>
  let r := if f.isOpen then addNewline { f with isOpen := false } else decideLine U f.line true f
  ({ r.1 with
      fence := if fenceHead f.head then !r.1.fence else r.1.fence
      line := [], head := [] }, r.2)

/-- `if part: self._add(part, out)` -/
def addPart (part : Text) : Act := if part = [] then skip else add part

def feedParts : List Text → Act
  | [] => skip
  | part :: rest => andThen (andThen (endLine U) (addPart part)) (feedParts rest)

def feed (text : Text) : Act :=
  match text.splitOn '\n' with
  | [] => skip
  | part :: rest => andThen (addPart part) (feedParts U rest)

def close : Act := fun f =>
  let r := if !f.isOpen && f.line ≠ [] then decideLine U f.line false f else (f, [])
  ({ r.1 with line := [], isOpen := false }, r.2)

/-- `newlines()` -/
def flushNewlines : Act := fun f => ({ f with newlines := 0 }, List.replicate f.newlines '\n')

def feeds (deltas : List Text) : Act := deltas.foldr (fun d a => andThen (feed U d) a) skip

/-- All the text a stream of deltas shows. -/
def streamed (deltas : List Text) : Text :=
  (andThen (feeds U deltas) (andThen (close U) flushNewlines) {}).2

/-! ## The cut does not matter -/

theorem andThen_assoc (a b c : Act) : andThen (andThen a b) c = andThen a (andThen b c) := by
  funext f
  simp [andThen]

@[simp] theorem skip_andThen (a : Act) : andThen skip a = a := rfl

@[simp] theorem andThen_skip (a : Act) : andThen a skip = a := by
  funext f
  simp [andThen, skip]

/-- A test that holds of the empty text and of every beginning of a text it holds of. -/
structure PrefixClosed (P : Text → Bool) : Prop where
  nil : P [] = true
  snoc : ∀ t c, P (t ++ [c]) = true → P t = true

variable {P : Text → Bool}

theorem PrefixClosed.append (h : PrefixClosed P) {t u : Text} (htu : P (t ++ u) = true) :
    P t = true := by
  induction u using List.reverseRecOn with
  | nil => simpa using htu
  | append_singleton u c ih => exact ih (h.snoc (t ++ u) c (by simpa using htu))

theorem PrefixClosed.dropWhile (h : PrefixClosed P) (p : Char → Bool) :
    PrefixClosed (fun t => P (t.dropWhile p)) where
  nil := h.nil
  snoc t c hc := by
    rw [List.dropWhile_append] at hc
    split at hc
    next hall =>
      have hnil : t.dropWhile p = [] := by simpa using hall
      rw [hnil]
      exact h.nil
    next => exact h.snoc _ c hc

/-- A stage that looks at the first character alone. -/
theorem PrefixClosed.headCase (h : PrefixClosed P) {Q : Text → Bool} (hQ : PrefixClosed Q)
    (b : Char) : PrefixClosed (fun t => if t.head? = some b then Q t else P t) where
  nil := by simpa using h.nil
  snoc t c hc := by
    cases t with
    | nil => simpa using h.nil
    | cons a t =>
      by_cases hab : a = b
      · have hhead : ∀ u : Text, (a :: u).head? = some b := fun u => congrArg some hab
        rw [if_pos (hhead t)]
        exact hQ.snoc (a :: t) c (by rwa [List.cons_append, if_pos (hhead _)] at hc)
      · have hhead : ∀ u : Text, (a :: u).head? ≠ some b := fun u h => hab (Option.some.inj h)
        rw [if_neg (hhead t)]
        exact h.snoc (a :: t) c (by rwa [List.cons_append, if_neg (hhead _)] at hc)

theorem PrefixClosed.tail (h : PrefixClosed P) : PrefixClosed (fun t => P t.tail) where
  nil := h.nil
  snoc t c hc := by
    cases t with
    | nil => exact h.nil
    | cons a t => exact h.snoc t c hc

theorem isEmpty_closed : PrefixClosed List.isEmpty where
  nil := rfl
  snoc t c hc := by simp at hc

theorem tailStart_closed : PrefixClosed tailStart := by
  have h1 := (isEmpty_closed.dropWhile isGap).dropWhile isMarkup
  have h2 := (h1.headCase h1.tail ':').dropWhile isMarkup
  refine ⟨h2.nil, fun t c hc => ?_⟩
  have hstage : ∀ u : Text, tailStart u =
      (fun v => if v.head? = some ':' then
        ((v.tail.dropWhile isMarkup).dropWhile isGap).isEmpty
        else ((v.dropWhile isMarkup).dropWhile isGap).isEmpty) (u.dropWhile isMarkup) := by
    intro u
    simp only [tailStart, dropColon]
    split <;> rfl
  rw [hstage] at hc ⊢
  exact h2.snoc t c hc

/-- While the word grows it begins a header word; once something follows it, it is one. -/
theorem wordStart_closed : PrefixClosed wordStart where
  nil := by decide +kernel
  snoc t c hc := by
    simp only [wordStart, Bool.and_eq_true, List.any_eq_true] at hc ⊢
    obtain ⟨htail, w, hw, hword⟩ := hc
    rw [List.dropWhile_append] at htail hword
    rw [List.takeWhile_append] at hword
    by_cases hall : t.dropWhile Char.isAlpha = []
    · have htake : t.takeWhile Char.isAlpha = t := by
        have := List.takeWhile_append_dropWhile (p := Char.isAlpha) (l := t)
        rwa [hall, List.append_nil] at this
      refine ⟨by rw [hall]; exact tailStart_closed.nil, w, hw, ?_⟩
      rw [if_pos hall, htake, List.isPrefixOf_iff_prefix]
      simp only [hall, List.isEmpty_nil, if_true, htake] at hword
      split at hword
      · rw [List.isPrefixOf_iff_prefix, List.map_append] at hword
        exact (List.prefix_append _ _).trans hword
      · rw [beq_iff_eq] at hword
        rw [hword, List.map_append]
        exact List.prefix_append _ _
    · have hne : (t.dropWhile Char.isAlpha).isEmpty = false := by simpa using hall
      have hlen : (t.takeWhile Char.isAlpha).length ≠ t.length := by
        intro hlen
        have := congrArg List.length (List.takeWhile_append_dropWhile (p := Char.isAlpha) (l := t))
        rw [List.length_append] at this
        exact hall (List.length_eq_zero_iff.mp (by omega))
      simp only [hne, Bool.false_eq_true, if_false, if_neg hlen, List.append_eq_nil_iff, hall,
        false_and] at htail hword ⊢
      exact ⟨tailStart_closed.snoc _ c htail, w, hw, hword⟩

theorem headerStart_closed : PrefixClosed headerStart := by
  have h1 := wordStart_closed.dropWhile isMarkup
  have h2 := (h1.headCase ((h1.dropWhile isGap).dropWhile (· = '#')) '#').dropWhile isGap
  refine ⟨h2.nil, fun t c hc => ?_⟩
  have hstage : ∀ u : Text, headerStart u =
      (fun v => if v.head? = some '#' then
        wordStart (((v.dropWhile (· = '#')).dropWhile isGap).dropWhile isMarkup)
        else wordStart (v.dropWhile isMarkup)) (u.dropWhile isGap) := by
    intro u
    simp only [headerStart, dropHashes]
    split <;> rfl
  rw [hstage] at hc ⊢
  exact h2.snoc t c hc

/-- What may still be held has only beginnings that may be held. -/
theorem Scan.holdable_append {s : Scan} {line more : Text} (h : s.holdable (line ++ more) = true) :
    s.holdable line = true := by
  unfold Scan.holdable at h ⊢
  cases hk : s.sectionKind with
  | some k =>
    simp only [hk, List.length_append, decide_eq_true_eq] at h ⊢
    omega
  | none =>
    simp only [hk, List.length_append, Bool.and_eq_true, decide_eq_true_eq] at h ⊢
    exact ⟨by omega, headerStart_closed.append h.2⟩

theorem growHead_append (head p q : Text) :
    growHead head (p ++ q) = growHead (growHead head p) q := by
  unfold growHead
  by_cases h : head.length < 8
  · simp only [h, if_true, List.length_append, List.length_take, List.take_append]
    split
    next hlt =>
      rw [List.append_assoc]
      congr 3
      omega
    next hge =>
      have hq : 8 - head.length - p.length = 0 := by omega
      simp [hq]
  · simp only [h, if_false]

/-- The section's end and the text that ends it: a pending alias header stands before the text. -/
def Scan.pending (s : Scan) : Text :=
  match s.sectionKind, s.aliasHeader with
  | some _, some header => header ++ ['\n']
  | _, _ => []

theorem endSection_emit {text : Text} (h : text ≠ []) (f : CitationsFilter) :
    andThen endSection (emit text) f =
      ({ f with sectionKind := none, aliasHeader := none, newlines := 0, emitted := true },
        List.replicate f.newlines '\n' ++ f.pending ++ text) := by
  obtain ⟨⟨fence, kind, cites, header⟩, line, isOpen, head, newlines, emitted⟩ := f
  cases kind with
  | none => cases header <;> simp [andThen, endSection, emit, Scan.pending, h]
  | some kind =>
    cases header with
    | none => simp [andThen, endSection, emit, Scan.pending, h]
    | some header =>
      by_cases hh : header = [] <;>
        simp [andThen, endSection, emit, addNewline, Scan.pending, h, hh, List.replicate_succ']

/-- Once a line streams, so does the rest of it. -/
theorem add_open {p : Text} {f : CitationsFilter} (h : f.isOpen = true) :
    add p f = emit p { f with head := growHead f.head p } := by
  simp [add, h]

theorem add_shown {p : Text} {f : CitationsFilter} (hp : p ≠ []) (h : f.isOpen = false)
    (hs : (f.fence || !f.holdable (f.line ++ p)) = true) :
    add p f =
      ({ f with head := growHead f.head p, sectionKind := none, aliasHeader := none, newlines := 0,
                emitted := true, line := [], isOpen := true },
        List.replicate f.newlines '\n' ++ f.pending ++ (f.line ++ p)) := by
  have hne : f.line ++ p ≠ [] := by simp [hp]
  simp only [add, h, Bool.false_eq_true, if_false, hs, if_true]
  rw [endSection_emit hne]

theorem add_held {p : Text} {f : CitationsFilter} (h : f.isOpen = false)
    (hs : (f.fence || !f.holdable (f.line ++ p)) = false) :
    add p f = ({ f with head := growHead f.head p, line := f.line ++ p }, []) := by
  simp only [add, h, Bool.false_eq_true, if_false, hs]

theorem add_append {p q : Text} (hp : p ≠ []) (hq : q ≠ []) :
    add (p ++ q) = andThen (add p) (add q) := by
  funext f
  cases ho : f.isOpen with
  | true =>
    have h2 : (emit p { f with head := growHead f.head p }).1.isOpen = true := by
      simp [emit, hp, ho]
    simp only [andThen, add_open ho, add_open h2]
    simp [emit, hp, hq, growHead_append]
  | false =>
    by_cases hs : (f.fence || !f.holdable (f.line ++ p)) = true
    · have hall : (f.fence || !f.holdable (f.line ++ (p ++ q))) = true := by
        rw [Bool.or_eq_true, Bool.not_eq_true'] at hs ⊢
        refine hs.imp id fun hn => ?_
        rw [← Bool.not_eq_true] at hn ⊢
        exact fun hh => hn (Scan.holdable_append (by rwa [List.append_assoc]))
      rw [add_shown (by simp [hp]) ho hall]
      simp only [andThen, add_shown hp ho hs]
      rw [add_open rfl]
      simp [emit, hq, growHead_append]
    · have hs' := Bool.eq_false_iff.mpr hs
      have ho2 : ({ f with head := growHead f.head p, line := f.line ++ p } : CitationsFilter).isOpen =
          false := ho
      simp only [andThen, add_held ho hs']
      by_cases hall : (f.fence || !f.holdable (f.line ++ (p ++ q))) = true
      · rw [add_shown (by simp [hp]) ho hall, add_shown hq ho2 (by simpa using hall)]
        simp [growHead_append, Scan.pending]
      · have hall' := Bool.eq_false_iff.mpr hall
        rw [add_held ho hall', add_held ho2 (by simpa using hall')]
        simp [growHead_append]

theorem add_cons (c : Char) (p : Text) : add (c :: p) = andThen (add [c]) (addPart p) := by
  by_cases hp : p = []
  · subst hp
    simp [addPart]
  · rw [addPart, if_neg hp]
    exact add_append (p := [c]) (by simp) hp

/-- One character of a text. -/
def feedChar (c : Char) : Act := if c = '\n' then endLine U else add [c]

/-- Feeding a text is feeding its characters. -/
theorem feed_eq (text : Text) :
    feed U text = text.foldr (fun c a => andThen (feedChar U c) a) skip := by
  induction text with
  | nil => simp [feed, feedParts, addPart]
  | cons c text ih =>
    rw [List.foldr_cons, ← ih]
    unfold feed
    cases hp : text.splitOn '\n' with
    | nil => exact absurd hp (List.splitOn_ne_nil '\n' text)
    | cons p ps =>
      by_cases hc : c = '\n'
      · subst hc
        rw [show ('\n' :: text).splitOn '\n' = [] :: p :: ps by
          rw [List.splitOn_cons_eq_if_modifyHead, if_pos (by simp), hp]]
        simp [feedParts, addPart, feedChar, andThen_assoc]
      · rw [show (c :: text).splitOn '\n' = (c :: p) :: ps by
          rw [List.splitOn_cons_eq_if_modifyHead, if_neg (by simpa using hc), hp]
          rfl]
        simp only [feedChar, if_neg hc, ← andThen_assoc, ← add_cons]
        simp [addPart]

theorem feed_append (t u : Text) : feed U (t ++ u) = andThen (feed U t) (feed U u) := by
  simp only [feed_eq]
  induction t with
  | nil => simp
  | cons c t ih => simp only [List.cons_append, List.foldr_cons, ih, andThen_assoc]

/-- Feeding the deltas one by one is feeding the text they are cut from. -/
theorem feeds_flatten (deltas : List Text) : feeds U deltas = feed U deltas.flatten := by
  induction deltas with
  | nil => simp [feeds, feed_eq]
  | cons d ds ih =>
    rw [List.flatten_cons, feed_append, ← ih]
    rfl

/-! ## What is held -/

/-- Between calls the held start of a line is bounded. -/
def CitationsFilter.Bounded (f : CitationsFilter) : Prop :=
  f.line.length ≤ max headerMaxChars holdMaxChars

theorem holdable_length {s : Scan} {line : Text} (h : s.holdable line = true) :
    line.length ≤ max headerMaxChars holdMaxChars := by
  unfold Scan.holdable at h
  cases hk : s.sectionKind with
  | some k =>
    simp only [hk, decide_eq_true_eq] at h
    omega
  | none =>
    simp only [hk, Bool.and_eq_true, decide_eq_true_eq] at h
    omega

theorem add_bounded (p : Text) {f : CitationsFilter} (h : f.Bounded) : (add p f).1.Bounded := by
  cases ho : f.isOpen with
  | true =>
    rw [add_open ho]
    unfold emit
    split <;> exact h
  | false =>
    by_cases hs : (f.fence || !f.holdable (f.line ++ p)) = true
    · unfold CitationsFilter.Bounded
      simp [add, ho, hs]
    · have hs' := Bool.eq_false_iff.mpr hs
      rw [add_held ho hs']
      rw [Bool.or_eq_false_iff, Bool.not_eq_false'] at hs'
      exact holdable_length hs'.2

theorem feedChar_bounded (c : Char) {f : CitationsFilter} (h : f.Bounded) :
    (feedChar U c f).1.Bounded := by
  unfold feedChar
  split
  · exact Nat.zero_le _
  · exact add_bounded [c] h

theorem feed_bounded (text : Text) {f : CitationsFilter} (h : f.Bounded) :
    (feed U text f).1.Bounded := by
  rw [feed_eq]
  induction text generalizing f with
  | nil => exact h
  | cons c text ih => exact ih (feedChar_bounded U c h)

/-! ## Line by line -/

/-- What a line is, read from the state before it. -/
inductive Mark
  | prose
  | header (kind : SectionKind)
  | blank
  | closing
  | entry
  deriving DecidableEq

def Scan.mark (s : Scan) (raw : Text) : Mark :=
  if raw ≠ [] ∧ (s.fence || !s.holdable raw) = true then .prose
  else match s.headerKind raw with
    | some kind => .header kind
    | none => match s.sectionKind with
      | none => .prose
      | some kind =>
        if strip (bare raw) = [] then if s.hasCites then .closing else .blank
        else if sectionLine U kind (strip (bare raw)) then .entry
        else .prose

def Scan.moved (s : Scan) (raw : Text) : Mark → Scan
  | .prose => { s with sectionKind := none, aliasHeader := none }
  | .header kind => s.enter kind raw
  | .blank => s
  | .closing => { s with sectionKind := none, aliasHeader := none }
  | .entry => { s with hasCites := true, aliasHeader := none }

def fenceLine (raw : Text) : Bool := fenceHead (raw.take 8)

@[simp] theorem Scan.moved_fence (s : Scan) (raw : Text) (m : Mark) :
    (s.moved raw m).fence = s.fence := by
  cases m <;> rfl

/-- The state behind a line. -/
def Scan.after (s : Scan) (raw : Text) (m : Mark) : Scan :=
  { s.moved raw m with fence := if fenceLine raw then !s.fence else s.fence }

def eol (terminated : Bool) : Text := if terminated then ['\n'] else []

/-- What the filter shows for a line. -/
def Scan.shown (s : Scan) (raw : Text) (terminated : Bool) : Mark → Text
  | .prose => s.pending ++ raw ++ eol terminated
  | .closing => ['\n']
  | _ => []

/-- What the filter shows for lines, the last of them unterminated. -/
def Scan.emits (s : Scan) : List Text → Text
  | [] => []
  | raw :: rest =>
    (if raw = [] ∧ rest = [] then [] else s.shown raw (rest ≠ []) (s.mark U raw)) ++
      (s.after raw (s.mark U raw)).emits rest

/-- Outside a section no alias header is pending. -/
def Scan.Tidy (s : Scan) : Prop := s.sectionKind = none → s.aliasHeader = none

theorem Scan.Tidy.after {s : Scan} (h : s.Tidy) (raw : Text) (m : Mark) : (s.after raw m).Tidy := by
  cases m with
  | prose => exact fun _ => rfl
  | header kind => exact fun hk => by cases hk
  | blank => exact h
  | closing => exact fun _ => rfl
  | entry => exact fun _ => rfl

/-- The state between two lines. -/
structure CitationsFilter.Fresh (f : CitationsFilter) : Prop where
  line : f.line = []
  isOpen : f.isOpen = false
  head : f.head = []
  tidy : f.Tidy

/-- The text a step adds to what is shown, its pending line ends counted as shown. -/
def Shows (f : CitationsFilter) (r : CitationsFilter × Text) (text : Text) : Prop :=
  List.replicate f.newlines '\n' ++ text = r.2 ++ List.replicate r.1.newlines '\n'

theorem Shows.andThen {a b : Act} {f : CitationsFilter} {t u : Text} (ha : Shows f (a f) t)
    (hb : Shows (a f).1 (b (a f).1) u) : Shows f (andThen a b f) (t ++ u) := by
  unfold Shows at ha hb ⊢
  simp only [Openwebui.andThen]
  rw [← List.append_assoc, ha, List.append_assoc, hb, List.append_assoc]

theorem emit_shows (text : Text) (f : CitationsFilter) : Shows f (emit text f) text := by
  by_cases h : text = [] <;> simp [Shows, emit, h]

theorem addNewline_shows (f : CitationsFilter) : Shows f (addNewline f) ['\n'] := by
  simp [Shows, addNewline, List.replicate_succ']

theorem endSection_shows {text : Text} (h : text ≠ []) (f : CitationsFilter) :
    Shows f (andThen endSection (emit text) f) (f.pending ++ text) := by
  rw [endSection_emit h]
  simp [Shows]

theorem eol_shows (terminated : Bool) (f : CitationsFilter) :
    Shows f ((if terminated then addNewline else skip) f) (eol terminated) := by
  cases terminated with
  | true => exact addNewline_shows f
  | false => simp [Shows, skip, eol]

/-- A line of prose and its end change no more than the pending line ends. -/
theorem prose_shows (raw : Text) (terminated : Bool) (f : CitationsFilter) :
    (∃ n b, (andThen (emit raw) (if terminated then addNewline else skip) f).1 =
      { f with newlines := n, emitted := b }) ∧
      Shows f (andThen (emit raw) (if terminated then addNewline else skip) f)
        (raw ++ eol terminated) := by
  refine ⟨?_, (emit_shows raw f).andThen (eol_shows terminated _)⟩
  by_cases h : raw = []
  · simp only [andThen, emit, if_pos h]
    cases terminated <;> exact ⟨_, f.emitted, rfl⟩
  · simp only [andThen, emit, if_neg h]
    cases terminated <;> exact ⟨_, true, rfl⟩

/-- A held line, decided. -/
theorem decideLine_shows {f : CitationsFilter} {raw : Text} (terminated : Bool) (ht : f.Tidy)
    (hheld : ¬ (raw ≠ [] ∧ (f.fence || !f.holdable raw) = true)) :
    (∃ n b, (decideLine U raw terminated f).1 =
      { f with toScan := f.moved raw (f.mark U raw), newlines := n, emitted := b }) ∧
      Shows f (decideLine U raw terminated f) (f.shown raw terminated (f.mark U raw)) := by
  unfold decideLine Scan.mark
  rw [if_neg hheld]
  cases hh : f.headerKind raw with
  | some kind => exact ⟨⟨_, _, rfl⟩, by simp [Shows, Scan.shown]⟩
  | none =>
    cases hk : f.sectionKind with
    | none =>
      obtain ⟨⟨n, b, hstate⟩, hshows⟩ := prose_shows raw terminated f
      refine ⟨⟨n, b, ?_⟩, ?_⟩
      · rw [hstate]
        simp only [Scan.moved, ← hk, ← ht hk]
      · have hpending : f.pending = [] := by simp [Scan.pending, hk]
        simpa [Scan.shown, hpending] using hshows
    | some kind =>
      by_cases hs : strip (bare raw) = []
      · simp only [if_pos hs]
        by_cases hc : f.hasCites = true
        · rw [if_pos hc, if_pos hc]
          exact ⟨⟨_, _, rfl⟩, by simp [Shows, Scan.shown, addNewline, List.replicate_succ']⟩
        · rw [if_neg hc, if_neg hc]
          exact ⟨⟨_, _, rfl⟩, by simp [Shows, Scan.shown]⟩
      · simp only [if_neg hs]
        by_cases he : sectionLine U kind (strip (bare raw)) = true
        · rw [if_pos he, if_pos he]
          exact ⟨⟨_, _, by rw [← hk]; rfl⟩, by simp [Shows, Scan.shown]⟩
        · rw [if_neg he, if_neg he]
          have hraw : raw ≠ [] := by
            rintro rfl
            exact hs (by decide)
          rw [← andThen_assoc]
          refine ⟨?_, (endSection_shows hraw f).andThen (eol_shows terminated _)⟩
          show ∃ n b, ((if terminated then addNewline else skip)
            (andThen endSection (emit raw) f).1).1 = _
          rw [endSection_emit hraw]
          cases terminated <;> exact ⟨_, true, rfl⟩

theorem growHead_nil (raw : Text) : growHead [] raw = raw.take 8 := by simp [growHead]

/-- Adding a line to a fresh filter holds it, or shows it as prose. -/
theorem addPart_fresh {f : CitationsFilter} (hf : f.Fresh) (raw : Text) :
    (¬ (raw ≠ [] ∧ (f.fence || !f.holdable raw) = true) ∧
      addPart raw f = ({ f with head := raw.take 8, line := raw }, [])) ∨
    (f.mark U raw = .prose ∧ raw ≠ [] ∧
      addPart raw f = ({ f with toScan := f.moved raw .prose, head := raw.take 8, newlines := 0,
                                emitted := true, isOpen := true },
        List.replicate f.newlines '\n' ++ f.pending ++ raw)) := by
  obtain ⟨hline, hopen, hhead, -⟩ := hf
  by_cases hraw : raw = []
  · subst hraw
    refine .inl ⟨by simp, ?_⟩
    rw [addPart, if_pos rfl, skip]
    cases f
    simp_all
  · rw [addPart, if_neg hraw]
    by_cases hs : (f.fence || !f.holdable raw) = true
    · refine .inr ⟨by rw [Scan.mark, if_pos ⟨hraw, hs⟩], hraw, ?_⟩
      rw [add_shown hraw hopen (by rwa [hline]), hhead, growHead_nil, hline]
      rfl
    · refine .inl ⟨fun h => hs h.2, ?_⟩
      rw [add_held hopen (by rw [hline]; exact Bool.eq_false_iff.mpr hs), hhead, growHead_nil, hline]
      rfl

/-- A whole line takes a fresh filter to a fresh filter. -/
theorem line_shows {f : CitationsFilter} (hf : f.Fresh) (raw : Text) :
    (andThen (addPart raw) (endLine U) f).1.Fresh ∧
      (andThen (addPart raw) (endLine U) f).1.toScan = f.after raw (f.mark U raw) ∧
      Shows f (andThen (addPart raw) (endLine U) f) (f.shown raw true (f.mark U raw)) := by
  suffices h : (∃ n b, (andThen (addPart raw) (endLine U) f).1 =
      { toScan := f.after raw (f.mark U raw), newlines := n, emitted := b }) ∧
      Shows f (andThen (addPart raw) (endLine U) f) (f.shown raw true (f.mark U raw)) by
    obtain ⟨⟨n, b, hstate⟩, hshows⟩ := h
    refine ⟨?_, by rw [hstate], hshows⟩
    rw [hstate]
    exact ⟨rfl, rfl, rfl, hf.tidy.after raw _⟩
  obtain ⟨s, line, isOpen, head, newlines, emitted⟩ := f
  obtain rfl : line = [] := hf.line
  obtain rfl : isOpen = false := hf.isOpen
  rcases addPart_fresh U hf raw with ⟨hheld, hadd⟩ | ⟨hmark, hraw, hadd⟩
  · obtain ⟨⟨n, b, hstate⟩, hshows⟩ := decideLine_shows U
      (f := ⟨s, raw, false, raw.take 8, newlines, emitted⟩) true hf.tidy hheld
    have hend : andThen (addPart raw) (endLine U) ⟨s, [], false, head, newlines, emitted⟩ =
        ({ toScan := s.after raw (s.mark U raw), newlines := n, emitted := b },
          (decideLine U raw true ⟨s, raw, false, raw.take 8, newlines, emitted⟩).2) := by
      simp only [andThen, hadd, endLine, Bool.false_eq_true, if_false, List.nil_append, hstate,
        Scan.moved_fence]
      rfl
    rw [hend]
    refine ⟨⟨n, b, rfl⟩, ?_⟩
    unfold Shows at hshows ⊢
    rwa [hstate] at hshows
  · have hend : andThen (addPart raw) (endLine U) ⟨s, [], false, head, newlines, emitted⟩ =
        ({ toScan := s.after raw .prose, newlines := 1, emitted := true },
          List.replicate newlines '\n' ++ s.pending ++ raw) := by
      simp only [andThen, hadd, endLine, if_true, addNewline, List.append_nil]
      rfl
    rw [hmark, hend]
    exact ⟨⟨_, _, rfl⟩, by simp [Shows, Scan.shown, eol]⟩

/-- The last line, which no line end follows. -/
theorem last_shows {f : CitationsFilter} (hf : f.Fresh) (raw : Text) :
    Shows f (andThen (addPart raw) (close U) f)
      (if raw = [] then [] else f.shown raw false (f.mark U raw)) := by
  obtain ⟨s, line, isOpen, head, newlines, emitted⟩ := f
  obtain rfl : line = [] := hf.line
  obtain rfl : isOpen = false := hf.isOpen
  by_cases hnil : raw = []
  · simp [Shows, andThen, addPart, skip, close, hnil]
  rw [if_neg hnil]
  rcases addPart_fresh U hf raw with ⟨hheld, hadd⟩ | ⟨hmark, hraw, hadd⟩
  · obtain ⟨-, hshows⟩ := decideLine_shows U
      (f := ⟨s, raw, false, raw.take 8, newlines, emitted⟩) false hf.tidy hheld
    unfold Shows at hshows ⊢
    simp only [andThen, hadd, close, Bool.not_false, Bool.true_and, hnil, ne_eq,
      not_false_eq_true, decide_true, if_true, List.nil_append]
    exact hshows
  · rw [hmark]
    simp [Shows, andThen, hadd, close, Scan.shown, eol]

/-- The lines of a text, from the state at its start. -/
theorem runs_lines (raw : Text) (rest : List Text) {f : CitationsFilter} (hf : f.Fresh) :
    (andThen (andThen (addPart raw) (feedParts U rest)) (andThen (close U) flushNewlines) f).2 =
      List.replicate f.newlines '\n' ++ f.emits U (raw :: rest) := by
  induction rest generalizing raw f with
  | nil =>
    have h := last_shows U hf raw
    rw [feedParts, andThen_skip, ← andThen_assoc]
    simp only [Scan.emits, and_true, ne_eq, not_true_eq_false, decide_false, List.append_nil]
    exact h.symm
  | cons next rest ih =>
    obtain ⟨hfresh, hscan, hshows⟩ := line_shows U hf raw
    have hsplit : andThen (andThen (addPart raw) (feedParts U (next :: rest)))
        (andThen (close U) flushNewlines) =
        andThen (andThen (addPart raw) (endLine U))
          (andThen (andThen (addPart next) (feedParts U rest)) (andThen (close U) flushNewlines)) := by
      simp only [feedParts, andThen_assoc]
    rw [hsplit, andThen, ih next hfresh, hscan, ← List.append_assoc]
    unfold Shows at hshows
    rw [← hshows]
    simp [Scan.emits]

/-- The text a stream shows, line by line. -/
theorem streamed_emits (deltas : List Text) :
    streamed U deltas = ({} : Scan).emits U (deltas.flatten.splitOn '\n') := by
  rw [streamed, feeds_flatten, feed]
  cases hp : deltas.flatten.splitOn '\n' with
  | nil => exact absurd hp (List.splitOn_ne_nil '\n' _)
  | cons raw rest => exact runs_lines U raw rest ⟨rfl, rfl, rfl, fun _ => rfl⟩

/-! ## The lines a reader is to see -/

/-- The line opens a fenced block. -/
def Scan.opens (s : Scan) (raw : Text) : Bool := !s.fence && fenceLine raw

/-- What the line is to a reader: one that opens a fence is the fence's own. -/
def Scan.reading (s : Scan) (raw : Text) : Mark := if s.opens raw then .prose else s.mark U raw

def Scan.next (s : Scan) (raw : Text) : Scan := s.after raw (s.reading U raw)

/-- Blank lines apart, the lines of a section begin with prose. -/
def Scan.proseFollows (s : Scan) : List Text → Bool
  | [] => false
  | raw :: rest =>
    match s.reading U raw with
    | .prose => true
    | .blank => (s.next U raw).proseFollows rest
    | _ => false

def Scan.keeps (s : Scan) (raw : Text) (rest : List Text) : Bool :=
  match s.reading U raw with
  | .prose | .closing => true
  | .header .aliases => (s.next U raw).proseFollows U rest
  | _ => false

/-- Each line, and whether it is kept. -/
def Scan.keptLines (s : Scan) : List Text → List (Text × Bool)
  | [] => []
  | raw :: rest => (raw, s.keeps U raw rest) :: (s.next U raw).keptLines rest

/-- The kept lines as they stand in the text, the last of them unterminated. -/
def joinKept : List (Text × Bool) → Text
  | [] => []
  | (raw, keep) :: rest => (if keep then raw ++ eol (rest ≠ []) else []) ++ joinKept rest

/-- The line may be left out: it is a header that no prose follows, or a blank line, a bullet or a
citation of an open section, and it is no line of a fenced block. -/
structure Scan.Removable (s : Scan) (raw : Text) (rest : List Text) : Prop where
  noFence : s.fence = false
  opensNone : fenceLine raw = false
  why : (∃ kind, s.headerKind raw = some kind ∧
      (kind = .aliases → (s.next U raw).proseFollows U rest = false)) ∨
    ∃ kind, s.sectionKind = some kind ∧
      (strip (bare raw) = [] ∨ sectionLine U kind (strip (bare raw)) = true)

/-- What the states between two lines have in common. -/
structure Scan.Settled (s : Scan) : Prop where
  tidy : s.Tidy
  fenced : s.fence = true → s.sectionKind = none
  cited : s.hasCites = true → s.aliasHeader = none

/-- What a mark says of the line and the state before it. -/
def Scan.Fits (s : Scan) (raw : Text) : Mark → Prop
  | .prose => True
  | .header kind => s.headerKind raw = some kind ∧ s.fence = false
  | .blank => (∃ kind, s.sectionKind = some kind) ∧ strip (bare raw) = [] ∧ s.hasCites = false
  | .closing => (∃ kind, s.sectionKind = some kind) ∧ strip (bare raw) = [] ∧ s.hasCites = true
  | .entry => ∃ kind, s.sectionKind = some kind ∧ sectionLine U kind (strip (bare raw)) = true

theorem Scan.fits_mark (s : Scan) (raw : Text) : s.Fits U raw (s.mark U raw) := by
  unfold Scan.mark
  by_cases hprose : raw ≠ [] ∧ (s.fence || !s.holdable raw) = true
  · rw [if_pos hprose]
    trivial
  · rw [if_neg hprose]
    cases hh : s.headerKind raw with
    | some kind =>
      refine ⟨hh, ?_⟩
      unfold Scan.headerKind at hh
      split at hh
      next hcond =>
        rw [Bool.and_eq_true, Bool.not_eq_true'] at hcond
        exact hcond.1
      next => cases hh
    | none =>
      cases hk : s.sectionKind with
      | none => trivial
      | some kind =>
        by_cases hs : strip (bare raw) = []
        · simp only [if_pos hs]
          by_cases hc : s.hasCites = true
          · rw [if_pos hc]
            exact ⟨⟨_, hk⟩, hs, hc⟩
          · rw [if_neg hc]
            exact ⟨⟨_, hk⟩, hs, Bool.eq_false_iff.mpr hc⟩
        · simp only [if_neg hs]
          by_cases he : sectionLine U kind (strip (bare raw)) = true
          · rw [if_pos he]
            exact ⟨kind, hk, he⟩
          · rw [if_neg he]
            trivial

theorem Scan.reading_opens {s : Scan} {raw : Text} (h : s.opens raw = true) :
    s.reading U raw = .prose := if_pos h

theorem Scan.reading_inside {s : Scan} {raw : Text} (h : s.opens raw = false) :
    s.reading U raw = s.mark U raw := if_neg (by simp [h])

/-- A line read as part of a section stands outside fenced blocks. -/
theorem Scan.Settled.unfenced {s : Scan} (h : s.Settled) {raw : Text}
    (hm : s.reading U raw ≠ .prose ∧ s.reading U raw ≠ .closing) :
    s.fence = false ∧ fenceLine raw = false := by
  have hopens : s.opens raw = false := by
    rw [← Bool.not_eq_true]
    exact fun ho => hm.1 (reading_opens U ho)
  have hfence : s.fence = false := by
    have hfits := s.fits_mark U raw
    rw [← reading_inside U hopens] at hfits
    rw [← Bool.not_eq_true]
    intro hf
    cases hr : s.reading U raw with
    | prose => exact hm.1 hr
    | closing => exact hm.2 hr
    | header kind =>
      rw [hr] at hfits
      rw [hfits.2] at hf
      cases hf
    | blank =>
      rw [hr] at hfits
      obtain ⟨⟨kind, hk⟩, -⟩ := hfits
      rw [h.fenced hf] at hk
      cases hk
    | entry =>
      rw [hr] at hfits
      obtain ⟨kind, hk, -⟩ := hfits
      rw [h.fenced hf] at hk
      cases hk
  refine ⟨hfence, ?_⟩
  simpa [Scan.opens, hfence] using hopens

theorem Scan.Settled.next {s : Scan} (h : s.Settled) (raw : Text) : (s.next U raw).Settled := by
  refine ⟨h.tidy.after raw _, ?_, ?_⟩
  · intro hf
    unfold Scan.next Scan.after at hf ⊢
    cases hr : s.reading U raw with
    | prose => rfl
    | closing => rfl
    | header kind | blank | entry =>
      have hm : s.reading U raw ≠ .prose ∧ s.reading U raw ≠ .closing := by
        rw [hr]
        exact ⟨nofun, nofun⟩
      obtain ⟨h1, h2⟩ := h.unfenced U hm
      simp [h1, h2] at hf
  · unfold Scan.next Scan.after
    cases hr : s.reading U raw with
    | prose => exact fun _ => rfl
    | closing => exact fun _ => rfl
    | header kind => exact fun hc => by cases hc
    | blank => exact h.cited
    | entry => exact fun _ => rfl

/-- A line that is not kept may be left out. -/
theorem Scan.Settled.removable {s : Scan} (h : s.Settled) {raw : Text} {rest : List Text}
    (hk : s.keeps U raw rest = false) : s.Removable U raw rest := by
  unfold Scan.keeps at hk
  have hm : s.reading U raw ≠ .prose ∧ s.reading U raw ≠ .closing := by
    refine ⟨fun hr => ?_, fun hr => ?_⟩ <;> rw [hr] at hk <;> cases hk
  obtain ⟨h1, h2⟩ := h.unfenced U hm
  refine ⟨h1, h2, ?_⟩
  have hfits := s.fits_mark U raw
  rw [← reading_inside U (by simp [Scan.opens, h2])] at hfits
  cases hr : s.reading U raw with
  | prose => exact absurd hr hm.1
  | closing => exact absurd hr hm.2
  | header kind =>
    rw [hr] at hfits hk
    refine .inl ⟨kind, hfits.1, ?_⟩
    rintro rfl
    exact hk
  | blank =>
    rw [hr] at hfits
    obtain ⟨⟨kind, hkind⟩, hblank, -⟩ := hfits
    exact .inr ⟨kind, hkind, .inl hblank⟩
  | entry =>
    rw [hr] at hfits
    obtain ⟨kind, hkind, hline⟩ := hfits
    exact .inr ⟨kind, hkind, .inr hline⟩

theorem Scan.Settled.keptLines {s : Scan} (h : s.Settled) (before : List Text) (raw : Text)
    (rest : List Text) :
    (s.keptLines U (before ++ raw :: rest))[before.length]? = some (raw, true) ∨
      (before.foldl (Scan.next U) s).Removable U raw rest := by
  induction before generalizing s with
  | nil =>
    cases hk : s.keeps U raw rest with
    | true => exact .inl (by simp [Scan.keptLines, hk])
    | false => exact .inr (h.removable U hk)
  | cons line before ih => simpa [Scan.keptLines] using ih (h.next U line)

/-! ## Where the filter and the reader part -/

/-- The filter reads the line as a reader does, as far as what is shown goes. -/
def Scan.plain (s : Scan) (raw : Text) (rest : List Text) : Bool :=
  match s.mark U raw with
  | .closing => raw = []
  | .entry => !s.opens raw
  | .header kind => !s.opens raw ||
      (kind = .aliases && s.aliasHeader = none && rest.head?.any (· ≠ []))
  | _ => true

/-- No blank line that ends a section holds a character, and no line that opens a fence is read as a
line of a section, one alias header that its block follows apart. -/
def Scan.clean (s : Scan) : List Text → Bool
  | [] => true
  | raw :: rest => s.plain U raw rest && (s.next U raw).clean rest

/-- A character weighs more than a line end. -/
def weight (t : Text) : Nat := (t.map fun c => if c = '\n' then 1 else 2).sum

@[simp] theorem weight_nil : weight [] = 0 := rfl

@[simp] theorem weight_append (t u : Text) : weight (t ++ u) = weight t + weight u := by
  simp [weight]

@[simp] theorem weight_eol (terminated : Bool) : weight (eol terminated) = terminated.toNat := by
  cases terminated <;> rfl

theorem weight_pos {t : Text} (h : t ≠ []) : 0 < weight t := by
  cases t with
  | nil => exact absurd rfl h
  | cons c t =>
    simp only [weight, List.map_cons, List.sum_cons]
    split <;> omega

theorem weight_line {t : Text} (h : t ≠ []) (hline : '\n' ∉ t) : 2 ≤ weight t := by
  cases t with
  | nil => exact absurd rfl h
  | cons c t =>
    have hc : c ≠ '\n' := fun hc => hline (by simp [hc])
    simp only [weight, List.map_cons, List.sum_cons, if_neg hc]
    omega

/-- Outside a section it does not matter whether the last one had citations. -/
theorem Scan.emits_cites {s : Scan} (h : s.sectionKind = none) (b : Bool) (lines : List Text) :
    ({ s with hasCites := b } : Scan).emits U lines = s.emits U lines := by
  induction lines generalizing s with
  | nil => rfl
  | cons raw rest ih =>
    have hmark : ({ s with hasCites := b } : Scan).mark U raw = s.mark U raw := by
      unfold Scan.mark Scan.holdable Scan.headerKind
      simp only [h]
    have hfits := s.fits_mark U raw
    simp only [Scan.emits, hmark]
    congr 1
    cases hm : s.mark U raw with
    | prose => exact ih (s := s.after raw .prose) rfl
    | header kind => rfl
    | blank | closing =>
      rw [hm] at hfits
      obtain ⟨⟨kind, hk⟩, -⟩ := hfits
      rw [h] at hk
      cases hk
    | entry =>
      rw [hm] at hfits
      obtain ⟨kind, hk, -⟩ := hfits
      rw [h] at hk
      cases hk

/-- In a fenced block the filter still has a section open, a reader does not. -/
structure Astray (d e : Scan) : Prop where
  fenced : d.fence = true ∧ e.fence = true
  inside : ∃ kind, d.sectionKind = some kind
  outside : e.sectionKind = none ∧ e.aliasHeader = none

theorem Scan.mark_fenced {s : Scan} (h : s.fence = true) {raw : Text} (hraw : raw ≠ []) :
    s.mark U raw = .prose := if_pos ⟨hraw, by simp [h]⟩

/-- The next line of the block sets the filter right. -/
theorem Astray.line {d e : Scan} (h : Astray d e) {raw : Text} (hraw : raw ≠ []) (rest : List Text) :
    d.emits U (raw :: rest) = d.pending ++ e.emits U (raw :: rest) := by
  have hstate : d.after raw .prose = { e.after raw .prose with hasCites := d.hasCites } := by
    simp only [Scan.after, Scan.moved, h.fenced.1, h.fenced.2]
  have hpending : e.pending = [] := by simp [Scan.pending, h.outside.1]
  simp only [Scan.emits, Scan.mark_fenced U h.fenced.1 hraw, Scan.mark_fenced U h.fenced.2 hraw, hraw,
    false_and, if_false, Scan.shown, hpending, List.nil_append, List.append_assoc]
  rw [hstate, Scan.emits_cites U rfl]

theorem Scan.mark_empty {s : Scan} (h : s.fence = true) :
    s.mark U [] = if s.sectionKind = none then .prose
      else if s.hasCites then .closing else .blank := by
  have hkind : s.headerKind [] = none := by simp [Scan.headerKind, h]
  have hstrip : strip (bare []) = [] := by decide
  rw [Scan.mark, if_neg (by simp), hkind]
  cases hk : s.sectionKind with
  | none => rfl
  | some kind => simp [hstrip]

theorem fenceLine_empty : fenceLine [] = false := by decide

/-- An empty line of the block, which the filter may take for a blank of its section. -/
theorem Astray.empty {d e : Scan} (h : Astray d e) (rest : List Text) :
    (d.hasCites = true ∧ d.emits U ([] :: rest) = e.emits U ([] :: rest)) ∨
      (d.hasCites = false ∧ d.emits U ([] :: rest) = d.emits U rest ∧
        e.emits U ([] :: rest) = eol (rest ≠ []) ++ e.emits U rest) := by
  obtain ⟨kind, hkind⟩ := h.inside
  have hpending : e.pending = [] := by simp [Scan.pending, h.outside.1]
  have he : e.emits U ([] :: rest) = eol (rest ≠ []) ++ e.emits U rest := by
    have hstate : e.after [] .prose = e := by
      simp [Scan.after, Scan.moved, fenceLine_empty, ← h.outside.1, ← h.outside.2]
    rw [Scan.emits, Scan.mark_empty U h.fenced.2, if_pos h.outside.1, hstate]
    by_cases hrest : rest = [] <;> simp [hrest, Scan.shown, hpending, eol]
  have hmark : d.mark U [] = if d.hasCites then .closing else .blank := by
    rw [Scan.mark_empty U h.fenced.1, if_neg (by simp [hkind])]
  cases hc : d.hasCites with
  | true =>
    refine .inl ⟨rfl, ?_⟩
    have hstate : d.after [] .closing = { e with hasCites := d.hasCites } := by
      simp [Scan.after, Scan.moved, fenceLine_empty, h.outside.1, h.outside.2, h.fenced.1, h.fenced.2]
    rw [he, Scan.emits, hmark, if_pos hc, hstate, Scan.emits_cites U h.outside.1]
    by_cases hrest : rest = [] <;> simp [hrest, Scan.shown, eol]
  | false =>
    refine .inr ⟨rfl, ?_, he⟩
    have hstate : d.after [] .blank = d := by simp [Scan.after, Scan.moved, fenceLine_empty]
    have hblank : d.mark U [] = .blank := by rw [hmark, hc, if_neg Bool.false_ne_true]
    rw [Scan.emits, hblank, hstate]
    simp [Scan.shown]

theorem Astray.weight_le {d e : Scan} (h : Astray d e) (lines : List Text) :
    weight (d.emits U lines) ≤ weight d.pending + weight (e.emits U lines) := by
  induction lines with
  | nil => exact Nat.zero_le _
  | cons raw rest ih =>
    by_cases hraw : raw = []
    · subst hraw
      rcases h.empty U rest with ⟨-, heq⟩ | ⟨-, hd, he⟩
      · rw [heq]
        omega
      · rw [hd, he, weight_append]
        omega
    · rw [h.line U hraw, weight_append]

/-- The alias header that waits for prose, if the lines begin with prose. -/
def Scan.waits (s : Scan) (lines : List Text) : Text :=
  match s.aliasHeader with
  | some header => if s.proseFollows U lines then header ++ ['\n'] else []
  | none => []

theorem Scan.waits_none {s : Scan} (h : s.aliasHeader = none) (lines : List Text) :
    s.waits U lines = [] := by rw [Scan.waits, h]

/-- What the filter shows of lines against what a reader is to see of them. -/
def Scan.Faithful (s : Scan) (lines : List Text) : Prop :=
  if s.clean U lines then s.emits U lines = s.waits U lines ++ joinKept (s.keptLines U lines)
  else weight (s.emits U lines) < weight (s.waits U lines) + weight (joinKept (s.keptLines U lines))

theorem Scan.Faithful.weight_le {s : Scan} {lines : List Text} (h : s.Faithful U lines) :
    weight (s.emits U lines) ≤
      weight (s.waits U lines) + weight (joinKept (s.keptLines U lines)) := by
  unfold Scan.Faithful at h
  split at h
  · rw [h, weight_append]
  · exact h.le

/-- What a line adds on both sides carries the comparison of the lines behind it over. -/
theorem Scan.Faithful.cons {s : Scan} {raw : Text} {rest : List Text}
    (h : (s.next U raw).Faithful U rest) (hplain : s.plain U raw rest = true)
    (shown : Text) (hemits : s.emits U (raw :: rest) = shown ++ (s.next U raw).emits U rest)
    (hkept : shown ++ (s.next U raw).waits U rest =
      s.waits U (raw :: rest) ++ if s.keeps U raw rest then raw ++ eol (rest ≠ []) else []) :
    s.Faithful U (raw :: rest) := by
  have hnil : (s.next U raw).keptLines U rest ≠ [] ↔ rest ≠ [] := by
    cases rest <;> simp [Scan.keptLines]
  have hjoin : s.waits U (raw :: rest) ++ joinKept (s.keptLines U (raw :: rest)) =
      shown ++ ((s.next U raw).waits U rest ++ joinKept ((s.next U raw).keptLines U rest)) := by
    rw [Scan.keptLines, joinKept, ← List.append_assoc, ← List.append_assoc, hkept]
    simp only [hnil]
  unfold Scan.Faithful at h ⊢
  rw [Scan.clean, hplain, Bool.true_and, hemits, ← weight_append, hjoin]
  by_cases hc : (s.next U raw).clean U rest = true
  · rw [if_pos hc] at h ⊢
    rw [h]
  · rw [if_neg hc] at h ⊢
    rw [weight_append, weight_append, weight_append]
    omega

theorem Scan.Faithful.of_lt {s : Scan} {raw : Text} {rest : List Text}
    (hplain : s.plain U raw rest = false)
    (h : weight (s.emits U (raw :: rest)) <
      weight (s.waits U (raw :: rest)) + weight (joinKept (s.keptLines U (raw :: rest)))) :
    s.Faithful U (raw :: rest) := by
  unfold Scan.Faithful
  rw [Scan.clean, hplain, Bool.false_and, if_neg Bool.false_ne_true]
  exact h

theorem Scan.joinKept_kept {s : Scan} {raw : Text} {rest : List Text} (h : s.keeps U raw rest = true) :
    joinKept (s.keptLines U (raw :: rest)) =
      raw ++ eol (rest ≠ []) ++ joinKept ((s.next U raw).keptLines U rest) := by
  rw [Scan.keptLines, joinKept, h, if_pos rfl]
  cases rest <;> simp [Scan.keptLines]

theorem Scan.emits_cons {s : Scan} {raw : Text} {m : Mark} (hm : s.mark U raw = m)
    (rest : List Text) :
    s.emits U (raw :: rest) = (if raw = [] ∧ rest = [] then [] else s.shown raw (rest ≠ []) m) ++
      (s.after raw m).emits U rest := by
  rw [Scan.emits, hm]

/-- Prose that a section's header waits for. -/
theorem Scan.Settled.waits_prose {s : Scan} (h : s.Settled) {raw : Text}
    (hr : s.reading U raw = .prose) (rest : List Text) : s.waits U (raw :: rest) = s.pending := by
  rw [Scan.waits, Scan.proseFollows, hr, Scan.pending]
  cases hk : s.sectionKind with
  | none => rw [h.tidy hk]
  | some kind => cases s.aliasHeader <;> rfl

theorem Scan.mark_empty_prose {s : Scan} (h : s.mark U [] = .prose) : s.sectionKind = none := by
  have hstrip : strip (bare []) = [] := by decide
  rw [Scan.mark, if_neg (by simp)] at h
  cases hh : s.headerKind [] with
  | some kind => rw [hh] at h; cases h
  | none =>
    cases hk : s.sectionKind with
    | none => rfl
    | some kind =>
      rw [hh, hk] at h
      simp only [hstrip, if_true] at h
      split at h <;> cases h

/-- Prose is shown as it is, behind the header that waited for it. -/
theorem Scan.Settled.faithful_prose {s : Scan} (h : s.Settled) {raw : Text} {rest : List Text}
    (hm : s.mark U raw = .prose) (ih : (s.next U raw).Faithful U rest) :
    s.Faithful U (raw :: rest) := by
  have hr : s.reading U raw = .prose := by
    unfold Scan.reading
    split
    · rfl
    · exact hm
  have hnext : s.next U raw = s.after raw .prose := by rw [Scan.next, hr]
  refine ih.cons U (by rw [Scan.plain, hm]) _ (by rw [Scan.emits_cons U hm, hnext]) ?_
  rw [h.waits_prose U hr, Scan.keeps, hr, if_pos rfl, Scan.waits_none U (by rw [hnext]; rfl)]
  by_cases hend : raw = [] ∧ rest = []
  · obtain ⟨rfl, rfl⟩ := hend
    have hpending : s.pending = [] := by simp [Scan.pending, Scan.mark_empty_prose U hm]
    simp [hpending, eol]
  · rw [if_neg hend]
    simp [Scan.shown]

theorem Scan.Settled.faithful_inside {s : Scan} (h : s.Settled) {raw : Text} {rest : List Text}
    (hline : '\n' ∉ raw) (ho : s.opens raw = false) (ih : (s.next U raw).Faithful U rest) :
    s.Faithful U (raw :: rest) := by
  have hr := Scan.reading_inside U ho
  have hfits := s.fits_mark U raw
  cases hm : s.mark U raw with
  | prose => exact h.faithful_prose U hm ih
  | header kind =>
    rw [hm] at hr
    have hnext : s.next U raw = s.after raw (.header kind) := by rw [Scan.next, hr]
    refine ih.cons U (by simp [Scan.plain, hm, ho]) []
      (by simp [Scan.emits_cons U hm, hnext, Scan.shown]) ?_
    have hwaits : s.waits U (raw :: rest) = [] := by
      rw [Scan.waits, Scan.proseFollows, hr]
      cases s.aliasHeader <;> rfl
    rw [hwaits, Scan.keeps, hr]
    cases kind with
    | canonical => rw [Scan.waits_none U (by rw [hnext]; rfl)]; rfl
    | aliases =>
      have hheader : (s.next U raw).aliasHeader = some raw := by rw [hnext]; rfl
      rw [Scan.waits, hheader]
      cases rest with
      | nil => rfl
      | cons line rest => rfl
  | blank =>
    rw [hm] at hr
    have hnext : s.next U raw = s.after raw .blank := by rw [Scan.next, hr]
    refine ih.cons U (by rw [Scan.plain, hm]) []
      (by simp [Scan.emits_cons U hm, hnext, Scan.shown]) ?_
    have hheader : (s.next U raw).aliasHeader = s.aliasHeader := by rw [hnext]; rfl
    rw [Scan.keeps, hr, Scan.waits, Scan.waits, Scan.proseFollows, hr, hheader]
    simp
  | closing =>
    rw [hm] at hr hfits
    have hnext : s.next U raw = s.after raw .closing := by rw [Scan.next, hr]
    have hwaits : s.waits U (raw :: rest) = [] := Scan.waits_none U (h.cited hfits.2.2) _
    have hafter : (s.next U raw).waits U rest = [] := Scan.waits_none U (by rw [hnext]; rfl) _
    have hkeeps : s.keeps U raw rest = true := by rw [Scan.keeps, hr]
    by_cases hraw : raw = []
    · refine ih.cons U (by rw [Scan.plain, hm]; exact decide_eq_true hraw) (eol (rest ≠ [])) ?_ ?_
      · rw [Scan.emits_cons U hm, hnext]
        by_cases hrest : rest = [] <;> simp [hraw, hrest, Scan.shown, eol]
      · rw [hwaits, hafter, hkeeps]
        simp [hraw]
    · refine .of_lt U (by simp [Scan.plain, hm, hraw]) ?_
      have hle := ih.weight_le
      have hshort : weight ['\n'] = 1 := rfl
      have hlong := weight_line hraw hline
      rw [hafter] at hle
      rw [Scan.emits_cons U hm, ← hnext, if_neg (fun hn => hraw hn.1), hwaits,
        Scan.joinKept_kept U hkeeps]
      simp only [Scan.shown, weight_append, weight_nil, hshort] at hle ⊢
      omega
  | entry =>
    rw [hm] at hr
    have hnext : s.next U raw = s.after raw .entry := by rw [Scan.next, hr]
    refine ih.cons U (by simp [Scan.plain, hm, ho]) []
      (by simp [Scan.emits_cons U hm, hnext, Scan.shown]) ?_
    have hwaits : s.waits U (raw :: rest) = [] := by
      rw [Scan.waits, Scan.proseFollows, hr]
      cases s.aliasHeader <;> rfl
    rw [hwaits, Scan.waits_none U (by rw [hnext]; rfl), Scan.keeps, hr]
    rfl

/-- A line that starts a fence is not blank. -/
theorem fenceLine_not_blank {raw : Text} (h : fenceLine raw = true) : strip (bare raw) ≠ [] := by
  obtain ⟨w, hw, hpre⟩ := List.any_eq_true.mp h
  have hc : ∃ c ∈ raw, isSpace c = false := by
    obtain ⟨c, t, rfl, hc⟩ : ∃ c t, w = c :: t ∧ isSpace c = false := by
      rcases List.mem_pair.mp hw with rfl | rfl
      · exact ⟨_, _, rfl, by decide⟩
      · exact ⟨_, _, rfl, by decide⟩
    have hmem : c ∈ lstrip (raw.take 8) :=
      (List.isPrefixOf_iff_prefix.mp hpre).subset List.mem_cons_self
    exact ⟨c, List.mem_of_mem_take ((List.dropWhile_sublist _).subset hmem), hc⟩
  obtain ⟨c, hmem, hspace⟩ := hc
  intro hblank
  have hbare : c ∈ bare raw := by
    unfold bare
    split
    next hlast =>
      rcases List.eq_nil_or_concat raw with rfl | ⟨t, d, rfl⟩
      · cases hmem
      · rw [List.concat_eq_append] at hmem hlast ⊢
        rw [List.getLast?_concat] at hlast
        rw [List.dropLast_concat]
        rcases List.mem_append.mp hmem with hin | hin
        · exact hin
        · rw [List.mem_singleton.mp hin, Option.some.inj hlast] at hspace
          cases hspace
    next => exact hmem
  rw [strip_eq_nil.mp hblank c hbare] at hspace
  cases hspace

/-- The filter leaves the fence's own line out, and is astray inside its block. -/
theorem Scan.Settled.faithful_opens {s : Scan} (h : s.Settled) {raw : Text} {rest : List Text}
    (ho : s.opens raw = true) (ih : (s.next U raw).Faithful U rest) :
    s.Faithful U (raw :: rest) := by
  have hcond := ho
  rw [Scan.opens, Bool.and_eq_true, Bool.not_eq_true'] at hcond
  obtain ⟨hfence, hline⟩ := hcond
  have hr := Scan.reading_opens U ho
  have hraw : raw ≠ [] := by
    rintro rfl
    rw [fenceLine_empty] at hline
    cases hline
  have hnext : s.next U raw = s.after raw .prose := by rw [Scan.next, hr]
  have hafter : ∀ lines, (s.next U raw).waits U lines = [] := fun lines =>
    Scan.waits_none U (by rw [hnext]; rfl) lines
  have hastray : ∀ m kind, (s.moved raw m).sectionKind = some kind →
      Astray (s.after raw m) (s.next U raw) := fun m kind hk =>
    ⟨⟨by simp [Scan.after, hline, hfence], by rw [hnext]; simp [Scan.after, hline, hfence]⟩,
      ⟨kind, hk⟩, by rw [hnext]; exact ⟨rfl, rfl⟩⟩
  have hle := ih.weight_le
  rw [hafter, weight_nil, Nat.zero_add] at hle
  have hkeeps : s.keeps U raw rest = true := by rw [Scan.keeps, hr]
  have hjoin := Scan.joinKept_kept U hkeeps
  have hpos := weight_pos hraw
  have hfits := s.fits_mark U raw
  cases hm : s.mark U raw with
  | prose => exact h.faithful_prose U hm ih
  | blank | closing =>
    rw [hm] at hfits
    exact absurd hfits.2.1 (fenceLine_not_blank hline)
  | entry =>
    rw [hm] at hfits
    obtain ⟨kind, hk, -⟩ := hfits
    have hlost := (hastray .entry kind hk).weight_le U rest
    have hpending : (s.after raw .entry).pending = [] := by
      simp [Scan.pending, Scan.after, Scan.moved]
    refine .of_lt U (by simp [Scan.plain, hm, ho]) ?_
    rw [Scan.emits_cons U hm, hjoin]
    simp only [hpending, Scan.shown, ite_self, weight_append, weight_nil] at hlost ⊢
    omega
  | header kind =>
    have hlost := (hastray (.header kind) kind rfl).weight_le U rest
    have hshown : s.emits U (raw :: rest) = (s.after raw (.header kind)).emits U rest := by
      simp [Scan.emits_cons U hm, Scan.shown]
    cases kind with
    | canonical =>
      refine .of_lt U (by simp [Scan.plain, hm, ho]) ?_
      have hpending : (s.after raw (.header .canonical)).pending = [] := rfl
      rw [hshown, hjoin]
      simp only [hpending, weight_append, weight_nil] at hlost ⊢
      omega
    | aliases =>
      have hpending : (s.after raw (.header .aliases)).pending = raw ++ ['\n'] := rfl
      have hshort : weight ['\n'] = 1 := rfl
      cases rest with
      | nil =>
        refine .of_lt U (by simp [Scan.plain, hm, ho]) ?_
        rw [hshown, hjoin]
        simp only [Scan.emits, weight_append, weight_nil]
        omega
      | cons line rest =>
        by_cases hempty : line = []
        · subst hempty
          refine .of_lt U (by simp [Scan.plain, hm, ho]) ?_
          rcases (hastray (.header .aliases) .aliases rfl).empty U rest with
            ⟨hc, -⟩ | ⟨-, hd, he⟩
          · cases hc
          · have hlost := (hastray (.header .aliases) .aliases rfl).weight_le U rest
            rw [hshown, hjoin, hd]
            rw [he] at hle
            simp only [hpending, hshort, weight_append, weight_eol] at hlost hle ⊢
            by_cases hrest : rest = []
            · simp only [hrest, Scan.emits, weight_nil]
              omega
            · simp only [hrest, ne_eq, not_false_eq_true, decide_true, Bool.toNat_true,
                reduceCtorEq] at hle ⊢
              omega
        · have hset := (hastray (.header .aliases) .aliases rfl).line U hempty rest
          rw [hpending] at hset
          cases hheader : s.aliasHeader with
          | none =>
            refine ih.cons U (by simp [Scan.plain, hm, hheader, hempty]) (raw ++ ['\n'])
              (by rw [hshown, hset]) ?_
            rw [Scan.waits_none U hheader, hafter, Scan.keeps, hr]
            simp [eol]
          | some header =>
            refine .of_lt U (by simp [Scan.plain, hm, ho, hheader]) ?_
            have hwaits : s.waits U (raw :: line :: rest) = header ++ ['\n'] := by
              rw [Scan.waits, hheader, Scan.proseFollows, hr]
              rfl
            rw [hshown, hset, hjoin, hwaits]
            simp only [weight_append, hshort, weight_eol, ne_eq, reduceCtorEq, not_false_eq_true,
              decide_true, Bool.toNat_true] at hle ⊢
            omega

/-- Every line the filter takes is compared, whatever section or block it stands in. -/
theorem Scan.emits_kept {lines : List Text} (hlines : ∀ raw ∈ lines, '\n' ∉ raw) {s : Scan}
    (h : s.Settled) : s.Faithful U lines := by
  induction lines generalizing s with
  | nil =>
    have hwaits : s.waits U [] = [] := by
      rw [Scan.waits]
      cases s.aliasHeader <;> rfl
    simp [Scan.Faithful, Scan.clean, Scan.emits, Scan.keptLines, joinKept, hwaits]
  | cons raw rest ih =>
    have hrest := ih (fun line hl => hlines line (List.mem_cons_of_mem _ hl)) (h.next U raw)
    cases ho : s.opens raw with
    | true => exact h.faithful_opens U ho hrest
    | false => exact h.faithful_inside U (hlines raw List.mem_cons_self) ho hrest

theorem not_mem_splitOn {text raw : Text} (h : raw ∈ text.splitOn '\n') : '\n' ∉ raw := by
  induction text generalizing raw with
  | nil =>
    rw [List.splitOn_nil, List.mem_singleton] at h
    simp [h]
  | cons c text ih =>
    rw [List.splitOn_cons_eq_if_modifyHead] at h
    by_cases hc : c = '\n'
    · rw [if_pos (by simp [hc]), List.mem_cons] at h
      rcases h with rfl | h
      · simp
      · exact ih h
    · rw [if_neg (by simpa using hc)] at h
      cases hp : text.splitOn '\n' with
      | nil => exact absurd hp (List.splitOn_ne_nil '\n' text)
      | cons p ps =>
        rw [hp] at h ih
        rcases List.mem_cons.mp h with rfl | h
        · exact fun hmem => (List.mem_cons.mp hmem).elim (fun he => hc he.symm)
            (ih List.mem_cons_self)
        · exact ih (List.mem_cons_of_mem _ h)

/-- However a text is cut into deltas, the filter shows the same of it and holds no more than a
bounded start of a line. What it shows is the text's kept lines exactly where the filter reads each
line as a reader does; a line that is not kept may be left out. -/
theorem citations_hidden (deltas : List Text) :
    (streamed U deltas = streamed U [deltas.flatten] ∧
      ∀ n, ((feeds U (deltas.take n) {}).1).Bounded) ∧
    (streamed U deltas = joinKept (({} : Scan).keptLines U (deltas.flatten.splitOn '\n')) ↔
      ({} : Scan).clean U (deltas.flatten.splitOn '\n') = true) ∧
    ∀ before raw rest, deltas.flatten.splitOn '\n' = before ++ raw :: rest →
      (({} : Scan).keptLines U (deltas.flatten.splitOn '\n'))[before.length]? = some (raw, true) ∨
        (before.foldl (Scan.next U) {}).Removable U raw rest := by
  have hsettled : ({} : Scan).Settled := ⟨fun _ => rfl, fun _ => rfl, fun _ => rfl⟩
  refine ⟨⟨?_, fun n => ?_⟩, ?_, fun before raw rest hsplit => ?_⟩
  · rw [streamed_emits, streamed_emits]
    simp
  · rw [feeds_flatten]
    exact feed_bounded U _ (Nat.zero_le _)
  · have hfaithful : ({} : Scan).Faithful U (deltas.flatten.splitOn '\n') :=
      Scan.emits_kept U (fun raw hraw => not_mem_splitOn hraw) hsettled
    unfold Scan.Faithful at hfaithful
    rw [Scan.waits_none U rfl, List.nil_append, weight_nil, Nat.zero_add] at hfaithful
    rw [streamed_emits]
    split at hfaithful
    next hclean => exact ⟨fun _ => hclean, fun _ => hfaithful⟩
    next hclean =>
      refine ⟨fun heq => ?_, fun hc => absurd hc hclean⟩
      rw [heq] at hfaithful
      exact absurd hfaithful (lt_irrefl _)
  · rw [hsplit]
    exact hsettled.keptLines U before raw rest

/-- A line that opens a fence is taken for a citation: its block stands without it. -/
theorem fence_line_lost :
    let text := "Sources:\n```x, y, p. 3 \ncode\n```".toList
    let kept := joinKept (({} : Scan).keptLines asciiTables (text.splitOn '\n'))
    streamed asciiTables [text] = "code\n```".toList ∧ kept = text ∧
      streamed asciiTables [text] ≠ kept := by
  decide +kernel

end MainframeRag.Openwebui
