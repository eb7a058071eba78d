import MainframeRag.Agent.CopiedCites
import MainframeRag.Lib.Cutting

/-!
# The location of a citation

Which stored titles and headings can make `format_citation` name a second location
(`oneLocation_iff`): those in which two pieces of text, joined where a foreign document number was
taken out, read as a page mark or as another foreign document number. The passes behind the deletions
only rewrite separators, and page marks taken out join nothing.
-/

namespace MainframeRag.Agent

open PyText Regex Ingest.Chunking

/-- What the tables say of the characters of form numbers, page marks and separators. -/
structure CiteLaws (U : CharTables) (C : CiteTables) : Prop where
  ascii_decimal : ∀ c, c.toNat < 128 → U.isDecimal c = c.isDigit
  decimal_word : ∀ c, U.isDecimal c = true → U.isWord c = true
  separator_word : ∀ c, (isSpace c || isComma c) = true → U.isWord c = false
  p_word : U.isWord 'p' = true ∧ U.isWord 'P' = true
  break_category : ∀ c, isLineBreak c = true → C.spaceCategory c = true

def citeSep (c : Char) : Bool := isSpace c || isComma c

theorem isSpace_citeSep (c : Char) (h : isSpace c = true) : citeSep c = true :=
  Bool.or_eq_true_iff.mpr (.inl h)

theorem isComma_citeSep (c : Char) (h : isComma c = true) : citeSep c = true :=
  Bool.or_eq_true_iff.mpr (.inr h)

section

open Regex.Pattern

variable (U : CharTables)

/-- The `p.` or `pp.` of `_CITE_PAGE_MARK_RE`. -/
def pageMarkRe : Pattern Char := row [wordEdge U, oneOf "Pp", opt (oneOf "Pp"), lit "."]

end

/-- The pattern reads the word at its place; the text before it stands last first. -/
def ReadAt (p : Pattern Char) (before word behind : Text) : Prop :=
  ⟨word.reverse ++ before, behind⟩ ∈ p.runs ⟨before, word ++ behind⟩

section

variable (U : CharTables) (C : CiteTables)

/-- A page mark, or a document number other than the hit's own. -/
def Forged (docId before word behind : Text) : Prop :=
  ReadAt (pageMarkRe U) before word behind ∨
    ReadAt (citeDocnoRe U) before word behind ∧ word ∉ ownDocs U docId

/-- The document, title and heading of a citation. -/
def citeHead (p : CitePayload) : Text :=
  List.intercalate ", ".toList
    ([strip (p.docId ++ [' '] ++ citePart U (cleanCiteField C p.title citeTitleMaxChars) p.docId),
      citePart U (cleanCiteField C p.headingPath citeHeadingMaxChars) p.docId].filter (· ≠ []))

/-- The page designation behind the head. -/
def citeLocation (p : CitePayload) : Text :=
  let label := plainPageLabel U C p.pageLabel
  if label ≠ [] then ", p. ".toList ++ label
  else match p.pageStart with
    | none => []
    | some start =>
      let first := start + 1
      let last := (match p.pageEnd with
        | some stop => if start ≤ stop then stop else start
        | none => start) + 1
      ", p. PDF ".toList ++ natText first ++ (if first = last then [] else '\u2013' :: natText last)

/-- One line with no document number but the hit's own and no page mark but the one that
`format_citation` writes behind the heading. -/
structure OneLocation (p : CitePayload) : Prop where
  oneLine : NoBreak (formatCitation U C p)
  ownDocno : ∀ a w r, formatCitation U C p = a ++ w ++ r →
    ReadAt (citeDocnoRe U) a.reverse w r → w ∈ ownDocs U p.docId
  onePage : ∀ a w r, formatCitation U C p = a ++ w ++ r →
    ReadAt (pageMarkRe U) a.reverse w r → a = citeHead U C p ++ ", ".toList

def withoutPages (t : Text) : Text := sub (citePageMarkRe U) (fun _ => []) t

/-- A field in which taking out the foreign document numbers joins a page mark or a foreign document
number: it is read across the place of one, or right behind it. -/
def JoinsForged (docId field : Text) : Prop :=
  Joined (Forged U docId)
    (cutSegments (citeDocnoRe U) (ownDocs U docId).contains (withoutPages U field))

/-- `re.fullmatch` of a form number -/
def PlainFormNumber (docId : Text) : Prop := ReadAt (docNumber U) [] docId []

end

/-! ## Document numbers -/

section

variable {U : CharTables} {C : CiteTables}

def isUpper (c : Char) : Bool := 'A' ≤ c && c ≤ 'Z'

/-- A number without its edition. -/
structure IsBase (U : CharTables) (w : Text) (letters digits tail : Text) : Prop where
  text : w = letters ++ digits ++ '-' :: tail
  letters_two : 2 ≤ letters.length
  letters_upper : ∀ c ∈ letters, isUpper c = true
  digits_decimal : ∀ c ∈ digits, U.isDecimal c = true
  tail_four : tail.length = 4
  tail_decimal : ∀ c ∈ tail, U.isDecimal c = true

def IsEdition (U : CharTables) (w : Text) : Prop :=
  ∃ d, w = '-' :: d ∧ d.length = 2 ∧ ∀ c ∈ d, U.isDecimal c = true

theorem docBase_words : (docBase U).Words (fun w => ∃ l d t, d.length = 2 ∧ l.length ≤ 4 ∧
    IsBase U w l d t) := by
  have h := (Pattern.Words.exactly 2 isUpper).seq ((Pattern.Words.upTo 2 isUpper).seq
    ((Pattern.Words.exactly 2 U.isDecimal).seq ((Pattern.Words.word "-".toList).seq
      ((Pattern.Words.exactly 4 U.isDecimal).seq Pattern.Words.empty))))
  refine Pattern.Words.congr h fun w => ?_
  constructor
  · rintro ⟨l1, _, rfl, ⟨h1, hl1⟩, l2, _, rfl, ⟨h2, hl2⟩, d, _, rfl, ⟨hd, hdd⟩, _, _, rfl, rfl, t, _,
      rfl, ⟨ht, htd⟩, rfl⟩
    refine ⟨l1 ++ l2, d, t, hd, by simp; omega, ?_, by simp; omega, ?_, hdd, ht, htd⟩
    · simp
    · exact fun c hc => (List.mem_append.mp hc).elim (hl1 c) (hl2 c)
  · rintro ⟨l, d, t, hd, hl4, rfl, hl2, hl, hdd, ht, htd⟩
    refine ⟨l.take 2, _, ?_, ⟨by simp; omega, fun c hc => hl c (List.mem_of_mem_take hc)⟩, l.drop 2,
      _, rfl, ⟨by simp; omega, fun c hc => hl c (List.mem_of_mem_drop hc)⟩, d, _, rfl, ⟨hd, hdd⟩, _,
      _, rfl, rfl, t, [], (List.append_nil t).symm, ⟨ht, htd⟩, rfl⟩
    rw [← List.append_assoc, List.take_append_drop, List.append_assoc]
    rfl

theorem edition_words : (Pattern.row [lit "-", digits U 2]).Words (IsEdition U) := by
  have h := (Pattern.Words.word "-".toList).seq
    ((Pattern.Words.exactly 2 U.isDecimal).seq Pattern.Words.empty)
  refine Pattern.Words.congr h fun w => ?_
  constructor
  · rintro ⟨_, _, rfl, rfl, d, _, rfl, ⟨hd, hdd⟩, rfl⟩
    exact ⟨d, by simp, hd, hdd⟩
  · rintro ⟨d, rfl, hd, hdd⟩
    exact ⟨_, _, rfl, rfl, d, [], (List.append_nil d).symm, ⟨hd, hdd⟩, rfl⟩

/-- A document number: its base, and its edition if it has one. -/
structure IsDocno (U : CharTables) (w base edition : Text) : Prop where
  text : w = base ++ edition
  isBase : ∃ l d t, d.length = 2 ∧ l.length ≤ 4 ∧ IsBase U base l d t
  isEdition : edition = [] ∨ IsEdition U edition

theorem docNumber_words : (docNumber U).Words (fun w => ∃ b e, IsDocno U w b e) := by
  have h := (docBase_words (U := U)).seq ((edition_words (U := U)).opt.seq Pattern.Words.empty)
  refine Pattern.Words.congr h fun w => ?_
  constructor
  · rintro ⟨b, _, rfl, hb, e, _, rfl, he, rfl⟩
    exact ⟨b, e, by rw [List.append_nil], hb, he⟩
  · rintro ⟨b, e, rfl, hb, he⟩
    exact ⟨b, e, rfl, hb, e, [], (List.append_nil e).symm, he, rfl⟩

theorem readAt_words {p : Pattern Char} {P : Text → Prop} (hp : p.Words P) {b w r : Text} :
    ReadAt p b w r ↔ P w := by
  rw [ReadAt, hp]
  constructor
  · rintro ⟨v, hv, ha⟩
    have hvw : v = w := List.append_cancel_right ha.rest.symm
    exact hvw ▸ hv
  · exact fun hw => ⟨w, hw, rfl, rfl⟩

theorem docno_iff {b w r : Text} : ReadAt (citeDocnoRe U) b w r ↔
    b.head?.any asciiAlnum = false ∧ (∃ base e, IsDocno U w base e) ∧
      r.head?.any Char.isDigit = false := by
  rw [ReadAt, citeDocnoRe, Pattern.row, List.foldr_cons, mem_runs_test_seq, List.foldr_cons,
    mem_runs_seq, ← readAt_words docNumber_words]
  simp only [Bool.not_eq_eq_eq_not, Bool.not_true]
  refine and_congr_right fun _ => ?_
  constructor
  · rintro ⟨m, hm, he⟩
    rw [List.foldr_cons, mem_runs_test_seq] at he
    obtain ⟨hd, he⟩ := he
    obtain rfl := List.mem_singleton.mp he
    exact ⟨hm, by simpa using hd⟩
  · rintro ⟨hm, hd⟩
    refine ⟨_, hm, ?_⟩
    rw [List.foldr_cons, mem_runs_test_seq]
    exact ⟨by simpa using hd, List.mem_singleton.mpr rfl⟩

/-! ## What the characters of a number are -/

theorem isUpper_ascii {c : Char} (h : isUpper c = true) : c.toNat < 128 ∧ c.isDigit = false ∧
    asciiAlnum c = true := by
  have hc : 65 ≤ c.toNat ∧ c.toNat ≤ 90 := by
    simp only [isUpper, Bool.and_eq_true, decide_eq_true_eq] at h
    exact h
  have hval : c.val.toNat = c.toNat := rfl
  refine ⟨by omega, ?_, ?_⟩
  · simp only [Char.isDigit, Bool.and_eq_false_iff, decide_eq_false_iff_not, ge_iff_le,
      UInt32.le_iff_toNat_le]
    exact .inr (by simp; omega)
  · simp only [asciiAlnum, Char.isAlpha, Char.isUpper, Bool.or_eq_true, decide_eq_true_eq,
      ge_iff_le, UInt32.le_iff_toNat_le]
    exact .inl (.inl ⟨by simp; omega, by simp; omega⟩)

/-- The preferred run at a place: its base, and the edition when the number may end behind it. -/
theorem docno_matchAt {pl e : Place Char} (h : (citeDocnoRe U).matchAt pl = some e) :
    ∃ m b, (∃ l d t, IsBase U b l d t) ∧ Along pl b m ∧
      ((∃ g, IsEdition U g ∧ Along m g e) ∨
        e = m ∧ ∀ g e', IsEdition U g → Along m g e' → e'.rest.head?.any Char.isDigit = true) := by
  let behind : Pattern Char := .test fun pl => !pl.rest.head?.any Char.isDigit
  obtain ⟨pl', hpl, hrow⟩ := Pattern.matchAt_seq h
  obtain rfl := mem_runs_test hpl
  -- the base, and then the option with all that stands behind it
  have hruns : ((docNumber U).seq (behind.seq .empty)).runs pl' =
      ((docBase U).seq ((Pattern.opt (.row [lit "-", digits U 2])).seq
        (Pattern.empty.seq (behind.seq .empty)))).runs pl' := by
    refine (Pattern.seq_assoc_runs _ _ _ _).trans (List.flatMap_congr fun m _ => ?_)
    exact Pattern.seq_assoc_runs _ _ _ _
  have hassoc := (congrArg List.head? hruns.symm).trans hrow
  obtain ⟨m, hm, hopt⟩ := Pattern.matchAt_seq hassoc
  obtain ⟨b, ⟨l, d, t, -, -, hb⟩, ha⟩ := (docBase_words _ _).mp hm
  have hbehind : ∀ {m e : Place Char}, e ∈ (Pattern.empty.seq (behind.seq .empty)).runs m ↔
      m.rest.head?.any Char.isDigit = false ∧ e = m := by
    intro m e
    rw [mem_runs_seq]
    constructor
    · rintro ⟨m', hm', he⟩
      obtain rfl := List.mem_singleton.mp hm'
      obtain ⟨hd, he⟩ := mem_runs_test_seq.mp he
      exact ⟨by simpa using hd, List.mem_singleton.mp he⟩
    · rintro ⟨hd, rfl⟩
      exact ⟨e, List.mem_singleton.mpr rfl, mem_runs_test_seq.mpr ⟨by simpa using hd,
        List.mem_singleton.mpr rfl⟩⟩
  refine ⟨m, b, ⟨l, d, t, hb⟩, ha, ?_⟩
  rcases Pattern.matchAt_opt_seq hopt with ⟨m', hm', he⟩ | ⟨hnone, he⟩
  · obtain ⟨g, hg, hga⟩ := (edition_words _ _).mp hm'
    obtain ⟨-, rfl⟩ := hbehind.mp (List.mem_of_head? he)
    exact .inl ⟨g, hg, hga⟩
  · refine .inr ⟨(hbehind.mp (List.mem_of_head? he)).2, fun g e' hg hga => ?_⟩
    have hrun := hnone e' ((edition_words _ _).mpr ⟨g, hg, hga⟩)
    by_contra hd
    have hin : e' ∈ (Pattern.empty.seq (behind.seq .empty)).runs e' :=
      hbehind.mpr ⟨by simpa using hd, rfl⟩
    rw [hrun] at hin
    cases hin

theorem IsDocno.hyphen {w b e : Text} (h : IsDocno U w b e) : '-' ∈ w := by
  obtain ⟨l, d, t, -, -, hb⟩ := h.isBase
  rw [h.text, hb.text]
  simp

/-! ## Page marks -/

def isP (c : Char) : Bool := "Pp".toList.contains c

def IsPageMark (w : Text) : Prop :=
  ∃ x y, w = x :: (y ++ ['.']) ∧ isP x = true ∧ (y = [] ∨ ∃ z, y = [z] ∧ isP z = true)

theorem pageWord_words :
    (Pattern.row [oneOf "Pp", Pattern.opt (oneOf "Pp"), lit "."]).Words IsPageMark := by
  have h := (Pattern.Words.one isP).seq ((Pattern.Words.one isP).opt.seq
    ((Pattern.Words.word ".".toList).seq Pattern.Words.empty))
  refine Pattern.Words.congr h fun w => ?_
  constructor
  · rintro ⟨_, _, rfl, ⟨x, rfl, hx⟩, y, _, rfl, hy, _, _, rfl, rfl, rfl⟩
    exact ⟨x, y, rfl, hx, hy⟩
  · rintro ⟨x, y, rfl, hx, hy⟩
    exact ⟨[x], _, rfl, ⟨x, rfl, hx⟩, y, _, rfl, hy, _, [], rfl, rfl, rfl⟩

theorem isP_iff {c : Char} : isP c = true ↔ c = 'P' ∨ c = 'p' := by
  rw [isP, List.contains_iff_mem]
  simp

theorem IsPageMark.point {w : Text} (h : IsPageMark w) : '.' ∈ w := by
  obtain ⟨x, y, rfl, -⟩ := h
  simp

theorem IsPageMark.noSep {w : Text} (h : IsPageMark w) : ∀ c ∈ w, citeSep c = false := by
  have hp : ∀ c, isP c = true → citeSep c = false := by
    intro c hc
    rcases isP_iff.mp hc with rfl | rfl
    · decide
    · decide
  obtain ⟨x, y, rfl, hx, hy⟩ := h
  intro c hc
  rcases List.mem_cons.mp hc with rfl | hc
  · exact hp c hx
  · rcases List.mem_append.mp hc with hc | hc
    · rcases hy with rfl | ⟨z, rfl, hz⟩
      · cases hc
      · exact List.mem_singleton.mp hc ▸ hp z hz
    · rw [List.mem_singleton.mp hc]
      decide

theorem citePageMarkRe_eats : (citePageMarkRe U).Eats :=
  .second _ (.second _ (.first (.one _) _))

/-- A page mark is taken out wherever the scan comes by. -/
theorem pageMark_starts {b w r : Text} (h : ReadAt (pageMarkRe U) b w r) :
    (citePageMarkRe U).runs ⟨b, w ++ r⟩ ≠ [] := by
  obtain ⟨m1, h1, h⟩ := mem_runs_seq.mp h
  obtain ⟨m2, h2, h⟩ := mem_runs_seq.mp h
  obtain ⟨m3, h3, h⟩ := mem_runs_seq.mp h
  obtain ⟨m4, h4, -⟩ := mem_runs_seq.mp h
  have hlast : m4 ∈ ((Pattern.opt (.row [blanks,
      .plus (.one fun c => !isSpace c && !isComma c)])).seq .empty).runs m4 :=
    mem_runs_seq.mpr ⟨m4, List.mem_append_right _ (List.mem_singleton.mpr rfl),
      List.mem_singleton.mpr rfl⟩
  exact List.ne_nil_of_mem (mem_runs_seq.mpr ⟨_, repeatRuns_stop _ _ _ _, mem_runs_seq.mpr ⟨m1, h1,
    mem_runs_seq.mpr ⟨m2, h2, mem_runs_seq.mpr ⟨m3, h3, mem_runs_seq.mpr ⟨m4, h4, hlast⟩⟩⟩⟩⟩)

/-- Behind a page designation stands a separator, or nothing. -/
theorem citePageMarkRe_end {pl e : Place Char} (h : (citePageMarkRe U).matchAt pl = some e) :
    ∀ c, e.rest.head? = some c → citeSep c = true := by
  obtain ⟨m1, -, h⟩ := Pattern.matchAt_seq h
  obtain ⟨m2, -, h⟩ := Pattern.matchAt_seq h
  obtain ⟨m3, -, h⟩ := Pattern.matchAt_seq h
  obtain ⟨m4, -, h⟩ := Pattern.matchAt_seq h
  obtain ⟨m5, -, h⟩ := Pattern.matchAt_seq h
  intro c hc
  cases hsep : citeSep c with
  | true => rfl
  | false =>
    have hplain : (!isSpace c && !isComma c) = true := by
      obtain ⟨h1, h2⟩ := Bool.or_eq_false_iff.mp hsep
      rw [h1, h2]
      rfl
    rw [List.foldr_cons, List.foldr_nil, Pattern.matchAt_seq_empty] at h
    rcases Pattern.matchAt_opt h with h | ⟨hnone, rfl⟩
    · -- the token was read to its end
      obtain ⟨m6, -, h⟩ := Pattern.matchAt_seq h
      rw [List.foldr_cons, List.foldr_nil, Pattern.matchAt_seq_empty] at h
      obtain ⟨m7, -, h⟩ := Pattern.matchAt_seq h
      have hstop := star_one_matchAt h c hc
      rw [hplain] at hstop
      cases hstop
    · -- a token that starts at once would have been read
      obtain ⟨b, r⟩ := e
      cases r with
      | nil => cases hc
      | cons d r =>
        cases hc
        have hone : (⟨c :: b, r⟩ : Place Char) ∈
            (Pattern.one fun c => !isSpace c && !isComma c).runs ⟨b, c :: r⟩ := by
          rw [Pattern.runs]
          simp only [hplain, if_true, List.mem_singleton]
        have hrun : (⟨c :: b, r⟩ : Place Char) ∈ (Pattern.row [blanks,
            .plus (.one fun c => !isSpace c && !isComma c)]).runs ⟨b, c :: r⟩ :=
          mem_runs_seq.mpr ⟨_, repeatRuns_stop _ _ _ _, mem_runs_seq.mpr ⟨_,
            mem_runs_seq.mpr ⟨_, hone, repeatRuns_stop _ _ _ _⟩, List.mem_singleton.mpr rfl⟩⟩
        rw [hnone] at hrun
        cases hrun

/-- What page designations leave: behind each place stands a separator, or nothing. -/
theorem left_behind_page {t : Text} {front back : List (Segment Char)} {w : Text}
    (h : cutSegments (citePageMarkRe U) (fun _ => false) t = front ++ .found w :: back) :
    ∀ c, (left back).head? = some c → citeSep c = true := by
  induction back generalizing front w with
  | nil => exact fun c hc => by cases hc
  | cons s back ih =>
    cases s with
    | gap d =>
      intro c hc
      refine citePageMarkRe_end (cutSegments_found h).2 c ?_
      rw [← hc]
      rfl
    | found v => exact @ih (front ++ [.found w]) v (by rw [h, List.append_assoc]; rfl)

theorem citeDocnoRe_eats : (citeDocnoRe U).Eats :=
  .second _ (.first (.first (.first (.first (.one _) _) _) _) _)

/-! ## The passes over separators -/

theorem any_near {f : Char → Bool} (hf : ∀ c, citeSep c = true → f c = false) {o o' : Option Char}
    (h : o.filter (fun c => !citeSep c) = o'.filter (fun c => !citeSep c)) : o.any f = o'.any f := by
  have hfilter : ∀ o : Option Char, o.any f = (o.filter (fun c => !citeSep c)).any f := by
    intro o
    cases o with
    | none => rfl
    | some c =>
      rw [Option.filter_some]
      cases hc : citeSep c with
      | false => rfl
      | true => exact hf c hc
  rw [hfilter, h, ← hfilter]

theorem citeSep_alnum {c : Char} (h : citeSep c = true) : asciiAlnum c = false := by
  cases ha : asciiAlnum c with
  | false => rfl
  | true =>
    exfalso
    simp only [asciiAlnum, Char.isAlpha, Char.isUpper, Char.isLower, Char.isDigit, Bool.or_eq_true,
      Bool.and_eq_true, decide_eq_true_eq, ge_iff_le, UInt32.le_iff_toNat_le] at ha
    have hval : c.val.toNat = c.toNat := rfl
    have hnum : (48 ≤ c.toNat ∧ c.toNat ≤ 57) ∨ (65 ≤ c.toNat ∧ c.toNat ≤ 90) ∨
        (97 ≤ c.toNat ∧ c.toNat ≤ 122) := by
      simp at ha
      omega
    rw [citeSep, Bool.or_eq_true] at h
    rcases h with h | h
    · simp only [isSpace, Bool.or_eq_true, Bool.and_eq_true, decide_eq_true_eq, beq_iff_eq] at h
      omega
    · simp only [isComma, Bool.or_eq_true, beq_iff_eq] at h
      rcases h with rfl | rfl
      · revert hnum
        decide
      · revert hnum
        decide

theorem collapseBlanks_same {H : Text → Text → Text → Prop} (hl : Local citeSep H) (t : Text) :
    SameReadings H t (collapseBlanks false t) ∧
      ∀ c, isSpace c = true → SameReadings H (c :: t) (c :: collapseBlanks true t) := by
  have hblank : isSpace ' ' = true := by decide
  have hseps : ∀ {w : Text}, (∀ c ∈ w, isSpace c = true) → ∀ c ∈ w, citeSep c = true :=
    fun h c hc => isSpace_citeSep c (h c hc)
  induction t with
  | nil => exact ⟨.refl [], fun c _ => .refl [c]⟩
  | cons d t ih =>
    rw [collapseBlanks, collapseBlanks]
    cases hd : isSpace d with
    | true =>
      refine ⟨?_, fun c hc => ?_⟩
      · exact (SameReadings.seps hl (hseps (by simpa using hd)) (hseps (by simpa using hblank))
          (List.cons_ne_nil d []) (List.cons_ne_nil ' ' []) t).trans (ih.2 ' ' hblank)
      · exact (SameReadings.seps hl (hseps (by simpa using ⟨hc, hd⟩)) (hseps (by simpa using hc))
          (List.cons_ne_nil c [d]) (List.cons_ne_nil c []) t).trans (ih.2 c hc)
    | false => exact ⟨ih.1.cons d, fun c _ => (ih.1.cons d).cons c⟩

theorem occurs_strip {H : Text → Text → Text → Prop} (hl : Local citeSep H) (t : Text) :
    Occurs H (strip t) ↔ Occurs H t := by
  have hsep : ∀ {w : Text}, blank w → ∀ c ∈ w, citeSep c = true :=
    fun h c hc => isSpace_citeSep c (h c hc)
  obtain ⟨v, w, hv, hw, he⟩ := strip_spec t
  have h := (hl.occurs_front (hsep hw) (v ++ strip t)).trans (hl.occurs_behind (hsep hv) (strip t))
  rw [← he] at h
  exact h.symm

theorem occurs_squeeze {H : Text → Text → Text → Prop} (hl : Local citeSep H) (t : Text) :
    Occurs H (squeeze t) ↔ Occurs H t :=
  (occurs_strip hl _).trans (collapseBlanks_same hl t).1.occurs.symm

theorem blanksBeforeComma_same {H : Text → Text → Text → Prop} (hl : Local citeSep H) (t : Text) :
    SameReadings H t (sub blanksBeforeCommaRe (fun _ => []) t) := by
  refine SameReadings.sub (fun {pl e w} he ha => ?_) t
  obtain ⟨m, hm, he⟩ := mem_runs_seq.mp he
  obtain ⟨hcomma, he⟩ := mem_runs_test_seq.mp he
  obtain rfl := List.mem_singleton.mp he
  have hw : ∀ c ∈ w, citeSep c = true := by
    obtain ⟨v, hv, hall⟩ := (Pattern.Only.one isSpace_citeSep).seq (.many (.one isSpace_citeSep)) _ _ hm
    rwa [ha.unique hv]
  obtain ⟨b, r⟩ := e
  cases r with
  | nil => cases hcomma
  | cons c r =>
    have hc : citeSep c = true := isComma_citeSep c hcomma
    have hwc : ∀ d ∈ w ++ [c], citeSep d = true := by
      intro d hd
      rcases List.mem_append.mp hd with hd | hd
      · exact hw d hd
      · exact List.mem_singleton.mp hd ▸ hc
    have hsame := SameReadings.seps hl hwc (by simpa using hc) (by simp) (List.cons_ne_nil c []) r
    rwa [List.append_assoc] at hsame

/-- A run of commas holds only separators. -/
theorem commaRun_seps {pl e : Place Char} {w : Text} (h : e ∈ commaRunRe.runs pl)
    (ha : Along pl w e) : w ≠ [] ∧ ∀ c ∈ w, citeSep c = true := by
  have hstep : (Pattern.row [blanks, .one isComma]).Only citeSep :=
    (Pattern.Only.many (.one isSpace_citeSep)).seq ((Pattern.Only.one isComma_citeSep).seq (.empty _))
  obtain ⟨m, hm, hmore⟩ := mem_runs_seq.mp h
  obtain ⟨c, hc, hone⟩ := mem_runs_one hm
  obtain ⟨v, hv, hall⟩ := (hstep.seq (.many hstep)).seq (.empty _) _ _ hmore
  rw [ha.unique (hone.trans hv)]
  refine ⟨List.cons_ne_nil _ _, fun d hd => ?_⟩
  rcases List.mem_cons.mp hd with rfl | hd
  · exact isComma_citeSep d hc
  · exact hall d hd

theorem commaRun_same {H : Text → Text → Text → Prop} (hl : Local citeSep H) (t : Text) :
    SameReadings H t (sub commaRunRe (fun w => w.take 1) t) := by
  refine SameReadings.sub (fun {pl e w} he ha => ?_) t
  obtain ⟨hne, hw⟩ := commaRun_seps he ha
  obtain ⟨c, w, rfl⟩ := List.exists_cons_of_ne_nil hne
  exact SameReadings.seps hl hw (fun d hd => hw d (List.mem_of_mem_take hd)) hne (by simp) e.rest

theorem occurs_fields {H : Text → Text → Text → Prop} (hl : Local citeSep H) {docId : Text}
    (hdoc : ¬Occurs H docId) (title heading : Text) :
    Occurs H (List.intercalate ", ".toList
        ([strip (docId ++ [' '] ++ title), heading].filter (· ≠ []))) ↔
      Occurs H title ∨ Occurs H heading := by
  have hfirst : Occurs H (strip (docId ++ [' '] ++ title)) ↔ Occurs H title := by
    rw [occurs_strip hl, List.append_assoc, List.singleton_append, hl.occurs_append (by decide)]
    exact or_iff_right hdoc
  rw [← hfirst]
  generalize strip (docId ++ [' '] ++ title) = first
  have hnil := hl.occurs_nil
  have hblank : ∀ c ∈ [' '], citeSep c = true := by simp [citeSep, isSpace]
  by_cases h1 : first = []
  · by_cases h2 : heading = []
    · rw [h1, h2]
      simp [List.intercalate, hnil]
    · rw [h1]
      simp [List.intercalate, h2, hnil]
  · by_cases h2 : heading = []
    · rw [h2]
      simp [List.intercalate, h1, hnil]
    · have hjoin : List.intercalate ", ".toList ([first, heading].filter (· ≠ [])) =
          first ++ ',' :: ([' '] ++ heading) := by
        simp [List.intercalate, h1, h2]
      rw [hjoin, hl.occurs_append (by decide), hl.occurs_behind hblank]

/-! ## Head and location -/

theorem formatCitation_eq (p : CitePayload) :
    formatCitation U C p = citeHead U C p ++ citeLocation U C p := by
  have hassoc : ∀ a b c d : Text, a ++ b ++ c ++ d = a ++ (b ++ c ++ d) := by
    intro a b c d
    simp only [List.append_assoc]
  unfold formatCitation citeHead citeLocation
  dsimp only
  split
  · exact List.append_assoc _ _ _
  · cases p.pageStart with
    | none => exact (List.append_nil _).symm
    | some start => exact hassoc _ _ _ _

/-- The page token is the printed label, or names pages of the PDF. -/
theorem citeLocation_cases (p : CitePayload) : citeLocation U C p = [] ∨
    ∃ token, citeLocation U C p = ", p. ".toList ++ token ∧
      (token = plainPageLabel U C p.pageLabel ∨ ∃ (first : Nat) (more : Option Nat),
        token = "PDF ".toList ++ (natText first ++ more.toList.flatMap ('\u2013' :: natText ·))) := by
  have hpages : ∀ first last : Nat, ∃ more : Option Nat,
      (if first = last then [] else '\u2013' :: natText last) =
        more.toList.flatMap ('\u2013' :: natText ·) := by
    intro first last
    split
    · exact ⟨none, rfl⟩
    · exact ⟨some last, (List.flatMap_singleton (fun n => '\u2013' :: natText n) last).symm⟩
  unfold citeLocation
  dsimp only
  split
  · exact .inr ⟨_, rfl, .inl rfl⟩
  · cases p.pageStart with
    | none => exact .inl rfl
    | some start =>
      obtain ⟨more, hmore⟩ := hpages (start + 1) _
      refine .inr ⟨_, ?_, .inr ⟨start + 1, more, rfl⟩⟩
      rw [← hmore]
      exact List.append_assoc _ _ _

/-! ## One line -/

theorem noBreak_append {t u : Text} (ht : NoBreak t) (hu : NoBreak u) : NoBreak (t ++ u) :=
  fun c hc => (List.mem_append.mp hc).elim (ht c) (hu c)

theorem noBreak_strip {t : Text} (ht : NoBreak t) : NoBreak (strip t) := by
  obtain ⟨v, w, -, -, he⟩ := strip_spec t
  intro c hc
  refine ht c ?_
  rw [he]
  simp [hc]

theorem noBreak_rstrip {t : Text} (ht : NoBreak t) : NoBreak (rstrip t) := by
  obtain ⟨w, -, he⟩ := rstrip_spec t
  intro c hc
  refine ht c ?_
  rw [he]
  exact List.mem_append_left _ hc

theorem noBreak_intercalate {ls : List Text} (h : ∀ l ∈ ls, NoBreak l) :
    NoBreak (List.intercalate ", ".toList ls) := by
  have hcomma : NoBreak ", ".toList := by
    have hall : ", ".toList.all (fun c => !isLineBreak c) = true := by decide
    exact fun c hc => by simpa using List.all_eq_true.mp hall c hc
  induction ls with
  | nil => exact fun c hc => by cases hc
  | cons l ls ih =>
    obtain ⟨hl, hls⟩ := List.forall_mem_cons.mp h
    cases ls with
    | nil => simpa [List.intercalate] using hl
    | cons m ls =>
      have hjoin : List.intercalate ", ".toList (l :: m :: ls) =
          l ++ (", ".toList ++ List.intercalate ", ".toList (m :: ls)) := by
        simp [List.intercalate]
      rw [hjoin]
      exact noBreak_append hl (noBreak_append hcomma (ih hls))

theorem mem_collapseBlanks {t : Text} {b : Bool} {c : Char} (h : c ∈ collapseBlanks b t) :
    c = ' ' ∨ c ∈ t := by
  induction t generalizing b with
  | nil => cases h
  | cons d t ih =>
    have hmore : ∀ b, c ∈ collapseBlanks b t → c = ' ' ∨ c ∈ d :: t :=
      fun b h => (ih h).imp_right (List.mem_cons_of_mem d)
    rw [collapseBlanks] at h
    split at h
    · split at h
      · exact hmore true h
      · exact (List.mem_cons.mp h).elim .inl (hmore true)
    · rcases List.mem_cons.mp h with rfl | h
      · exact .inr List.mem_cons_self
      · exact hmore false h

theorem noBreak_squeeze {t : Text} (ht : NoBreak t) : NoBreak (squeeze t) := by
  refine noBreak_strip fun c hc => ?_
  rcases mem_collapseBlanks hc with rfl | hc
  · decide
  · exact ht c hc

theorem citePart_noBreak {t : Text} (h : NoBreak t) (docId : Text) :
    NoBreak (citePart U t docId) := by
  have hsub : ∀ (p : Pattern Char) (replace : Text → Text), (∀ w, replace w <:+: w) →
      ∀ {t : Text}, NoBreak t → NoBreak (sub p replace t) :=
    fun p replace hr t ht => forall_mem_sub (fun w hw c hc => hw c ((hr w).subset hc)) ht
  have hnil : ∀ w : Text, [] <:+: w := fun w => List.nil_infix
  have h1 := hsub (citePageMarkRe U) (fun _ => []) hnil h
  have h2 := hsub (citeDocnoRe U) (fun w => if (ownDocs U docId).contains w then w else [])
    (fun w => by split; exacts [List.infix_rfl, hnil w]) h1
  have h3 := hsub blanksBeforeCommaRe (fun _ => []) hnil h2
  have h4 := hsub commaRunRe (fun w => w.take 1) (fun w => (List.take_prefix 1 w).isInfix) h3
  have hdrop : ∀ (f : Char → Bool) {t : Text}, NoBreak t → NoBreak (t.dropWhile f) :=
    fun f t ht c hc => ht c ((List.dropWhile_suffix f).subset hc)
  have hreverse : ∀ {t : Text}, NoBreak t → NoBreak t.reverse :=
    fun ht c hc => ht c (List.mem_reverse.mp hc)
  exact hreverse (hdrop _ (hreverse (hdrop _ (noBreak_squeeze h4))))

end

section

variable {U : CharTables} {C : CiteTables} (hL : CiteLaws U C)

include hL

/-! ## The hit's own numbers -/

theorem CiteLaws.upper_decimal {c : Char} (h : isUpper c = true) : U.isDecimal c = false := by
  obtain ⟨hlt, hd, -⟩ := isUpper_ascii h
  rw [hL.ascii_decimal c hlt, hd]

theorem CiteLaws.sep_decimal {c : Char} (h : citeSep c = true) : U.isDecimal c = false := by
  cases hd : U.isDecimal c with
  | false => rfl
  | true =>
    have := hL.separator_word c h
    rw [hL.decimal_word c hd] at this
    cases this

/-- The base of a number is its text up to four characters behind the first hyphen. -/
theorem IsBase.eq_take {w l d t x : Text} (h : IsBase U w l d t) :
    w = (w ++ x).take (((w ++ x).takeWhile (· ≠ '-')).length + 5) ∧
      ((w ++ x).takeWhile (· ≠ '-')).length + 5 = w.length := by
  have hhyphen : ∀ c ∈ l ++ d, (decide (c ≠ '-')) = true := by
    intro c hc
    rw [decide_eq_true_eq]
    rintro rfl
    rcases List.mem_append.mp hc with hc | hc
    · exact absurd (h.letters_upper _ hc) (by decide)
    · have := h.digits_decimal _ hc
      rw [hL.ascii_decimal _ (by decide)] at this
      exact absurd this (by decide)
  have htake : (w ++ x).takeWhile (· ≠ '-') = l ++ d := by
    rw [h.text, List.append_assoc, List.cons_append, List.takeWhile_append_of_pos hhyphen,
      List.takeWhile_cons_of_neg (by simp), List.append_nil]
  have hlen : w.length = (l ++ d).length + 5 := by
    rw [h.text, List.length_append, List.length_cons, h.tail_four]
  rw [htake, ← hlen, List.take_left]
  exact ⟨rfl, rfl⟩

/-- The letters of a number stand in front of everything else. -/
theorem IsDocno.letters {w b e : Text} (h : IsDocno U w b e) : ∃ l r, w = l ++ r ∧ 2 ≤ l.length ∧
    (∀ c ∈ l, isUpper c = true) ∧ ∀ c ∈ r, isUpper c = false := by
  obtain ⟨l, d, t, -, -, hb⟩ := h.isBase
  refine ⟨l, d ++ '-' :: t ++ e, ?_, hb.letters_two, hb.letters_upper, ?_⟩
  · rw [h.text, hb.text]
    simp only [List.append_assoc, List.cons_append]
  · have hdec : ∀ c, U.isDecimal c = true → isUpper c = false := by
      intro c hc
      cases hu : isUpper c with
      | false => rfl
      | true =>
        rw [hL.upper_decimal hu] at hc
        cases hc
    have htail : ∀ t : Text, (∀ c ∈ t, U.isDecimal c = true) → ∀ c ∈ '-' :: t, isUpper c = false := by
      intro t ht c hc
      rcases List.mem_cons.mp hc with rfl | hc
      · decide
      · exact hdec c (ht c hc)
    intro c hc
    rcases List.mem_append.mp hc with hc | hc
    · rcases List.mem_append.mp hc with hc | hc
      · exact hdec c (hb.digits_decimal c hc)
      · exact htail t hb.tail_decimal c hc
    · rcases h.isEdition with rfl | ⟨g, rfl, -, hg⟩
      · cases hc
      · exact htail g hg c hc

theorem IsDocno.first {w b e : Text} (h : IsDocno U w b e) :
    ∃ c v, w = c :: v ∧ isUpper c = true := by
  obtain ⟨l, r, rfl, hlen, hl, -⟩ := h.letters hL
  cases l with
  | nil => simp at hlen
  | cons c l => exact ⟨c, l ++ r, rfl, hl c List.mem_cons_self⟩

/-- No number starts inside a number. -/
theorem IsDocno.inside {w b e u v : Text} {c : Char} (h : IsDocno U w b e) (hw : w = u ++ c :: v)
    (hu : u ≠ []) (hc : isUpper c = true) : u.reverse.head?.any asciiAlnum = true := by
  obtain ⟨l, r, rfl, -, hl, hr⟩ := h.letters hL
  obtain ⟨u, d, rfl⟩ := (List.eq_nil_or_concat' u).resolve_left hu
  rw [List.reverse_append]
  refine (isUpper_ascii (hl d ?_)).2.2
  rcases List.append_eq_append_iff.mp hw with ⟨m, hm, hr'⟩ | ⟨m, hm, hr'⟩
  · exfalso
    rw [hr'] at hr
    rw [hr c (by simp)] at hc
    cases hc
  · rw [hm]
    simp

theorem IsDocno.noPoint {w b e : Text} (h : IsDocno U w b e) : '.' ∉ w := by
  have hdec : ∀ t : Text, (∀ c ∈ t, U.isDecimal c = true) → '.' ∉ t := by
    intro t ht hm
    have := ht _ hm
    rw [hL.ascii_decimal _ (by decide)] at this
    exact absurd this (by decide)
  obtain ⟨l, d, t, -, -, hb⟩ := h.isBase
  rw [h.text, hb.text]
  simp only [List.mem_append, List.mem_cons, not_or]
  refine ⟨⟨⟨fun hm => ?_, hdec d hb.digits_decimal⟩, by decide, hdec t hb.tail_decimal⟩, ?_⟩
  · exact absurd (hb.letters_upper _ hm) (by decide)
  · rcases h.isEdition with rfl | ⟨g, rfl, -, hg⟩
    · exact List.not_mem_nil
    · exact fun hm => (List.mem_cons.mp hm).elim (by decide) (hdec g hg)

theorem IsDocno.noSep {w b e : Text} (h : IsDocno U w b e) : ∀ c ∈ w, citeSep c = false := by
  obtain ⟨l, d, t, -, -, hb⟩ := h.isBase
  have hdec : ∀ c, U.isDecimal c = true → citeSep c = false := by
    intro c hc
    cases hs : citeSep c with
    | false => rfl
    | true =>
      rw [hL.sep_decimal hs] at hc
      cases hc
  have htail : ∀ t : Text, (∀ c ∈ t, U.isDecimal c = true) → ∀ c ∈ '-' :: t, citeSep c = false := by
    intro t ht c hc
    rcases List.mem_cons.mp hc with rfl | hc
    · decide
    · exact hdec c (ht c hc)
  intro c hc
  rw [h.text, hb.text] at hc
  rcases List.mem_append.mp hc with hc | hc
  · rcases List.mem_append.mp hc with hc | hc
    · rcases List.mem_append.mp hc with hc | hc
      · cases hs : citeSep c with
        | false => rfl
        | true =>
          have := citeSep_alnum hs
          rw [(isUpper_ascii (hb.letters_upper c hc)).2.2] at this
          cases this
      · exact hdec c (hb.digits_decimal c hc)
    · exact htail t hb.tail_decimal c hc
  · rcases h.isEdition with rfl | ⟨g, rfl, -, hg⟩
    · cases hc
    · exact htail g hg c hc

/-- The hit's own numbers are its number and the base of it. -/
theorem ownDocs_eq {docId : Text} (h : PlainFormNumber U docId) :
    ∃ b e, IsDocno U docId b e ∧ ownDocs U docId = [docId, b] := by
  obtain ⟨b, e, hd⟩ := (readAt_words docNumber_words).mp h
  refine ⟨b, e, hd, ?_⟩
  obtain ⟨l, d, t, hd2, hl4, hb⟩ := hd.isBase
  have hrun : (⟨b.reverse, e⟩ : Place Char) ∈ (docBase U).runs ⟨[], docId⟩ :=
    (docBase_words _ _).mpr ⟨b, ⟨l, d, t, hd2, hl4, hb⟩, hd.text, (List.append_nil _).symm⟩
  cases hm : (docBase U).matchAt ⟨[], docId⟩ with
  | none =>
    rw [Pattern.matchAt_none.mp hm] at hrun
    cases hrun
  | some m =>
    obtain ⟨w, ⟨l', d', t', -, -, hw⟩, ha⟩ := (docBase_words _ _).mp (List.mem_of_head? hm)
    have hrest : docId = w ++ m.rest := ha.rest
    have hwb : w = b := by
      rw [(hw.eq_take hL (x := m.rest)).1, (hb.eq_take hL (x := e)).1, ← hrest, ← hd.text]
    rw [ownDocs, Pattern.matchStart, hm]
    have hlen : docId.length - m.rest.length = b.length := by
      rw [hrest, List.length_append, Nat.add_sub_cancel, hwb]
    simp only [Option.map_some, Option.toList_some]
    rw [hlen]
    congr 2
    rw [hd.text, List.take_left]

/-- A kept number is kept in every reading. -/
theorem own_of_preferred {docId before w0 r0 w r : Text} (hdoc : PlainFormNumber U docId)
    (hm : (citeDocnoRe U).matchAt ⟨before, w0 ++ r0⟩ = some ⟨w0.reverse ++ before, r0⟩)
    (hown : w0 ∈ ownDocs U docId) (ht : w ++ r = w0 ++ r0)
    (hr : ReadAt (citeDocnoRe U) before w r) : w ∈ ownDocs U docId := by
  obtain ⟨-, ⟨b, e, hw⟩, hend⟩ := docno_iff.mp hr
  obtain ⟨l, d, t, -, -, hb⟩ := hw.isBase
  obtain ⟨m, b0, ⟨l0, d0, t0, hb0⟩, ha, hpref⟩ := docno_matchAt hm
  have hbase : b0 = b := by
    have h1 : w0 ++ r0 = b0 ++ m.rest := ha.rest
    have h2 : w0 ++ r0 = b ++ (e ++ r) := by rw [← ht, hw.text, List.append_assoc]
    rw [(hb0.eq_take hL (x := m.rest)).1, (hb.eq_take hL (x := e ++ r)).1, ← h1, ← h2]
  subst hbase
  have hrest : m.rest = e ++ r := by
    have h1 : w0 ++ r0 = b0 ++ m.rest := ha.rest
    rw [← ht, hw.text, List.append_assoc] at h1
    exact (List.append_cancel_left h1).symm
  have hlen : ∀ g, IsEdition U g → g.length = 3 := by
    rintro g ⟨d, rfl, hd, -⟩
    rw [List.length_cons, hd]
  obtain ⟨bd, ed, hdocno, hdocs⟩ := ownDocs_eq hL hdoc
  obtain ⟨ld, dd, td, -, -, hbd⟩ := hdocno.isBase
  rcases hpref with ⟨g, hg, hga⟩ | ⟨he, hno⟩
  · have hw0 : w0 = b0 ++ g := by
      have h1 : Along ⟨before, w0 ++ r0⟩ (b0 ++ g) ⟨w0.reverse ++ before, r0⟩ := ha.trans hga
      exact Along.unique ⟨rfl, rfl⟩ h1
    rcases hw.isEdition with rfl | hedition
    · -- the base of an own number is an own number
      rw [hw.text, List.append_nil, hdocs]
      rw [hdocs] at hown
      have htake := hb.eq_take hL (x := g)
      rw [← hw0] at htake
      rcases List.mem_cons.mp hown with hown | hown
      · have h1 := hbd.eq_take hL (x := ed)
        rw [← hdocno.text, ← hown] at h1
        rw [htake.1, ← h1.1]
        simp
      · have h1 := hbd.eq_take hL (x := [])
        rw [List.append_nil, ← List.mem_singleton.mp hown] at h1
        have h2 := congrArg List.length hw0
        rw [List.length_append, hlen g hg] at h2
        omega
    · have hsame : w = w0 := by
        refine (List.append_inj ht ?_).1
        rw [hw.text, hw0, List.length_append, List.length_append, hlen g hg, hlen e hedition]
      exact hsame ▸ hown
  · have hw0 : w0 = b0 := by
      rw [← he] at ha
      exact Along.unique ⟨rfl, rfl⟩ ha
    rcases hw.isEdition with rfl | hedition
    · rw [hw.text, List.append_nil, ← hw0]
      exact hown
    · have hd := hno e ⟨e.reverse ++ m.before, r⟩ hedition ⟨hrest, rfl⟩
      rw [hend] at hd
      cases hd

/-! ## Readings between separators -/

theorem pageMark_iff {b w r : Text} : ReadAt (pageMarkRe U) b w r ↔
    b.head?.any U.isWord = false ∧ IsPageMark w := by
  have hrow : ReadAt (pageMarkRe U) b w r ↔ (b.head?.any U.isWord ≠ (w ++ r).head?.any U.isWord) ∧
      IsPageMark w := by
    rw [← readAt_words pageWord_words, ReadAt, pageMarkRe, Pattern.row, List.foldr_cons, wordEdge,
      mem_runs_test_seq, decide_eq_true_eq]
    rfl
  rw [hrow]
  refine and_congr_left fun hw => ?_
  obtain ⟨x, y, rfl, hx, -⟩ := hw
  have hword : U.isWord x = true := by
    rcases isP_iff.mp hx with rfl | rfl
    · exact hL.p_word.2
    · exact hL.p_word.1
  rw [List.cons_append, List.head?_cons, Option.any_some, hword]
  simp

theorem pageMark_local : Local citeSep (ReadAt (pageMarkRe U)) where
  nonempty h := by
    obtain ⟨x, y, rfl, -⟩ := ((pageMark_iff hL).mp h).2
    exact List.cons_ne_nil _ _
  noSep h := ((pageMark_iff hL).mp h).2.noSep
  near hb _ h := by
    rw [pageMark_iff hL] at h ⊢
    rwa [← any_near hL.separator_word hb]

theorem docno_local (P : Text → Prop) :
    Local citeSep (fun b w r => ReadAt (citeDocnoRe U) b w r ∧ P w) where
  nonempty h := by
    obtain ⟨-, ⟨b, e, hw⟩, -⟩ := docno_iff.mp h.1
    obtain ⟨c, v, rfl, -⟩ := hw.first hL
    exact List.cons_ne_nil _ _
  noSep h := by
    obtain ⟨-, ⟨b, e, hw⟩, -⟩ := docno_iff.mp h.1
    exact hw.noSep hL
  near hb hr h := by
    have hdigit : ∀ c, citeSep c = true → c.isDigit = false := by
      intro c hc
      exact (Bool.or_eq_false_iff.mp (citeSep_alnum hc)).2
    rw [docno_iff] at h ⊢
    rwa [← any_near (fun c => citeSep_alnum) hb, ← any_near hdigit hr]

theorem forged_local (docId : Text) : Local citeSep (Forged U docId) where
  nonempty h := h.elim (pageMark_local hL).nonempty (docno_local hL (· ∉ ownDocs U docId)).nonempty
  noSep h := h.elim (pageMark_local hL).noSep (docno_local hL (· ∉ ownDocs U docId)).noSep
  near hb hr h := h.imp ((pageMark_local hL).near hb hr)
    ((docno_local hL (· ∉ ownDocs U docId)).near hb hr)

/-! ## Taking out marks and numbers -/

/-- No page mark is left. -/
theorem withoutPages_clean (t : Text) : ¬Occurs (ReadAt (pageMarkRe U)) (withoutPages U t) := by
  have hleft : withoutPages U t = left (cutSegments (citePageMarkRe U) (fun _ => false) t) :=
    (left_cutSegments (citePageMarkRe U) (fun _ => false) t).symm
  rw [hleft, occurs_left_iff (pageMark_local hL)]
  · rintro ⟨front, w, back, hsegs, a, u, v, r, -, hv, hne, hH⟩
    obtain ⟨c, v, rfl⟩ := List.exists_cons_of_ne_nil hne
    have hsep := left_behind_page hsegs c (by rw [hv]; rfl)
    rw [(pageMark_local hL).noSep hH c (by simp)] at hsep
    cases hsep
  · intro front c w back hsegs hH
    rcases cutSegments_gap hsegs with ⟨front', back', hscan, hf, hb⟩ | ⟨-, -, -, -, hk, -⟩
    · have hmark : ReadAt (pageMarkRe U) (textOf front).reverse (c :: w) (textOf back) :=
        (pageMark_iff hL).mpr ((pageMark_iff hL).mp hH)
      refine pageMark_starts hmark ?_
      have hnone := segments_gap citePageMarkRe_eats hscan
      rwa [hf, hb, textOf_append, textOf_gaps] at hnone
    · cases hk

/-- What the document numbers leave is forged just where their deletion joins it. -/
theorem occurs_cut_iff {docId t : Text} (hdoc : PlainFormNumber U docId)
    (ht : ¬Occurs (ReadAt (pageMarkRe U)) t) :
    Occurs (Forged U docId) (left (cutSegments (citeDocnoRe U) (ownDocs U docId).contains t)) ↔
      Joined (Forged U docId) (cutSegments (citeDocnoRe U) (ownDocs U docId).contains t) := by
  refine occurs_left_iff (forged_local hL docId) ?_
  intro front c w back hsegs hH
  have htext : t = textOf front ++ (c :: w) ++ textOf back := by
    have := congrArg textOf hsegs
    rw [cutSegments, textOf_cut, textOf_segments, textOf_append, textOf_cons, textOf_append,
      textOf_gaps] at this
    rw [this]
    simp [Segment.text]
  rcases hH with hmark | ⟨hread, hforeign⟩
  · exact ht ⟨_, _, _, htext, (pageMark_iff hL).mpr ((pageMark_iff hL).mp hmark)⟩
  · obtain ⟨hbefore, ⟨b, e, hw⟩, hbehind⟩ := docno_iff.mp hread
    -- the number ends in the text as it ends in what is left
    have hend : (textOf back).head?.any Char.isDigit = false := by
      cases back with
      | nil => rfl
      | cons s back =>
        cases s with
        | gap d => exact hbehind
        | found v =>
          have hfront : cutSegments (citeDocnoRe U) (ownDocs U docId).contains t =
              (front ++ .gap c :: w.map .gap) ++ .found v :: back := by
            rw [hsegs]
            simp
          have hrun := List.mem_of_head? (cutSegments_found hfront).2
          obtain ⟨-, ⟨b', e', hv⟩, -⟩ := docno_iff.mp hrun
          obtain ⟨d, v, rfl, hd⟩ := hv.first hL
          exact (isUpper_ascii hd).2.1
    have hhere : ReadAt (citeDocnoRe U) (textOf front).reverse (c :: w) (textOf back) :=
      docno_iff.mpr ⟨hbefore, ⟨b, e, hw⟩, hend⟩
    rcases cutSegments_gap hsegs with ⟨front', back', hscan, hf, hb⟩ |
      ⟨a, u, v, r, hk, hf, hb, hpref⟩
    · have hnone := segments_gap citeDocnoRe_eats hscan
      rw [hf, hb, textOf_append, textOf_gaps] at hnone
      rw [ReadAt, List.cons_append, hnone] at hhere
      cases hhere
    · rw [textOf_append, textOf_gaps] at hb
      cases u with
      | nil =>
        rw [List.append_nil] at hf
        rw [List.nil_append] at hk hpref
        rw [hf] at hhere
        refine hforeign (own_of_preferred hL hdoc hpref (List.contains_iff_mem.mp hk) ?_ hhere)
        rw [List.cons_append, hb, List.cons_append]
      | cons x u =>
        obtain ⟨-, ⟨b', e', hkept⟩, -⟩ := docno_iff.mp (List.mem_of_head? hpref)
        obtain ⟨d, v', hcw, hd⟩ := hw.first hL
        cases hcw
        have halnum := hkept.inside hL rfl (List.cons_ne_nil x u) hd
        rw [hf, List.reverse_append, List.head?_append_of_ne_nil _ (by simp), halnum] at hbefore
        cases hbefore

/-- A sanitized field is forged just where a deletion joins it. -/
theorem citePart_iff {docId : Text} (hdoc : PlainFormNumber U docId) (field : Text) :
    Occurs (Forged U docId) (citePart U field docId) ↔ JoinsForged U docId field := by
  have hl := forged_local hL docId
  let left' := sub (citeDocnoRe U) (fun w => if (ownDocs U docId).contains w then w else [])
    (withoutPages U field)
  let tidy := sub commaRunRe (fun w => w.take 1) (sub blanksBeforeCommaRe (fun _ => []) left')
  let edge : Char → Bool := fun c => c == ' ' || isComma c
  have hpart : citePart U field docId =
      (((squeeze tidy).dropWhile edge).reverse.dropWhile edge).reverse := rfl
  have hedge : ∀ {w : Text}, (∀ c ∈ w, edge c = true) → ∀ c ∈ w, citeSep c = true := by
    intro w hw c hc
    rcases Bool.or_eq_true_iff.mp (hw c hc) with h | h
    · rw [beq_iff_eq.mp h]
      decide
    · exact isComma_citeSep c h
  have hfront : ∀ t : Text, Occurs (Forged U docId) (t.dropWhile edge) ↔
      Occurs (Forged U docId) t := by
    intro t
    have hw : ∀ c ∈ t.takeWhile edge, edge c = true := fun c => List.mem_takeWhile_imp
    have h := hl.occurs_behind (hedge hw) (t.dropWhile edge)
    rw [List.takeWhile_append_dropWhile] at h
    exact h.symm
  have hback : ∀ t : Text, Occurs (Forged U docId) (t.reverse.dropWhile edge).reverse ↔
      Occurs (Forged U docId) t := by
    intro t
    have hw : ∀ c ∈ (t.reverse.takeWhile edge).reverse, edge c = true :=
      fun c hc => List.mem_takeWhile_imp (List.mem_reverse.mp hc)
    have h := hl.occurs_front (hedge hw) (t.reverse.dropWhile edge).reverse
    rw [← List.reverse_append, List.takeWhile_append_dropWhile, List.reverse_reverse] at h
    exact h.symm
  rw [hpart, hback, hfront, occurs_squeeze hl, ← (commaRun_same hl _).occurs,
    ← (blanksBeforeComma_same hl _).occurs]
  have hleft : left' = left (cutSegments (citeDocnoRe U) (ownDocs U docId).contains
      (withoutPages U field)) :=
    (left_cutSegments _ _ _).symm
  rw [hleft, occurs_cut_iff hL hdoc (withoutPages_clean hL field)]
  rfl

/-! ## What a citation forges -/

/-- The number of the hit names no other document. -/
theorem docId_clean {docId : Text} (hdoc : PlainFormNumber U docId) :
    ¬Occurs (Forged U docId) docId := by
  rintro ⟨a, w, r, ht, hH⟩
  obtain ⟨b, e, hd, hdocs⟩ := ownDocs_eq hL hdoc
  rcases hH with hmark | ⟨hread, hforeign⟩
  · refine hd.noPoint hL ?_
    rw [ht]
    simp [((pageMark_iff hL).mp hmark).2.point]
  · obtain ⟨hbefore, ⟨b', e', hw⟩, hend⟩ := docno_iff.mp hread
    cases a with
    | cons x a =>
      obtain ⟨c, v, rfl, hc⟩ := hw.first hL
      have halnum := hd.inside hL (by rw [ht, List.append_assoc]; rfl) (List.cons_ne_nil x a) hc
      rw [halnum] at hbefore
      cases hbefore
    | nil =>
      rw [List.nil_append] at ht
      obtain ⟨l, d, t, -, -, hb⟩ := hd.isBase
      obtain ⟨l', d', t', -, -, hb'⟩ := hw.isBase
      have hsame : b' = b := by
        rw [(hb.eq_take hL (x := e)).1, (hb'.eq_take hL (x := e' ++ r)).1, ← hd.text, ht, hw.text,
          List.append_assoc]
      refine hforeign ?_
      rw [hdocs]
      rcases hw.isEdition with rfl | ⟨g, rfl, hg, hgd⟩
      · rw [hw.text, List.append_nil, hsame]
        simp
      · -- the edition read is the edition of the hit
        have hlen := congrArg List.length ht
        rw [hd.text, hw.text, hsame] at hlen
        simp only [List.length_append, List.length_cons, hg] at hlen
        have hr : r = [] := by
          rcases hd.isEdition with rfl | ⟨g', rfl, hg', -⟩
          · simp at hlen
            omega
          · simp only [List.length_cons, hg'] at hlen
            exact List.eq_nil_of_length_eq_zero (by omega)
        rw [hr, List.append_nil] at ht
        rw [ht]
        exact List.mem_cons_self

theorem citeHead_iff {p : CitePayload} (hdoc : PlainFormNumber U p.docId) :
    Occurs (Forged U p.docId) (citeHead U C p) ↔
      JoinsForged U p.docId (cleanCiteField C p.title citeTitleMaxChars) ∨
        JoinsForged U p.docId (cleanCiteField C p.headingPath citeHeadingMaxChars) := by
  rw [citeHead, occurs_fields (forged_local hL p.docId) (docId_clean hL hdoc), citePart_iff hL hdoc,
    citePart_iff hL hdoc]

/-- A printed label is one token without marks and numbers. -/
theorem plainPageLabel_clean (docId value : Text) :
    ¬Occurs (Forged U docId) (plainPageLabel U C value) := by
  unfold plainPageLabel
  dsimp only
  split
  · exact (forged_local hL docId).occurs_nil
  · next hplain =>
    simp only [Bool.or_eq_true, not_or, Bool.not_eq_true] at hplain
    obtain ⟨⟨-, hmark⟩, hnumber⟩ := hplain
    rintro ⟨a, w, r, ht, hH⟩
    have hne := (forged_local hL docId).nonempty hH
    rcases hH with hread | ⟨hread, -⟩
    · exact pageMark_starts hread (search_false citePageMarkRe_eats hmark ht hne)
    · rw [ReadAt, search_false citeDocnoRe_eats hnumber ht hne] at hread
      cases hread

/-- A text without points and hyphens forges nothing. -/
theorem plain_clean {docId t : Text} (hpoint : '.' ∉ t) (hhyphen : '-' ∉ t) :
    ¬Occurs (Forged U docId) t := by
  rintro ⟨a, w, r, rfl, hmark | ⟨hread, -⟩⟩
  · exact hpoint (by simp [((pageMark_iff hL).mp hmark).2.point])
  · obtain ⟨-, ⟨b, e, hw⟩, -⟩ := docno_iff.mp hread
    exact hhyphen (by simp [hw.hyphen])

theorem citeLocation_token (p : CitePayload) : citeLocation U C p = [] ∨
    ∃ token, citeLocation U C p = ", p. ".toList ++ token ∧ ¬Occurs (Forged U p.docId) token := by
  rcases citeLocation_cases (U := U) (C := C) p with h | ⟨token, h, rfl | ⟨first, more, rfl⟩⟩
  · exact .inl h
  · exact .inr ⟨_, h, plainPageLabel_clean hL _ _⟩
  · refine .inr ⟨_, h, ?_⟩
    have hdigits : ∀ (n : Nat) (c : Char), c.isDigit = false → c ∉ natText n := by
      intro n c hc hm
      rw [Nat.isDigit_of_mem_toDigits (by decide) (by decide) hm] at hc
      cases hc
    have hnot : ∀ c : Char, c.isDigit = false → c ≠ '\u2013' → c ∉ "PDF ".toList →
        c ∉ "PDF ".toList ++ (natText first ++ more.toList.flatMap ('\u2013' :: natText ·)) := by
      intro c hc hdash hpdf hm
      rcases List.mem_append.mp hm with hm | hm
      · exact hpdf hm
      · rcases List.mem_append.mp hm with hm | hm
        · exact hdigits first c hc hm
        · obtain ⟨n, -, hn⟩ := List.mem_flatMap.mp hm
          exact (List.mem_cons.mp hn).elim hdash (hdigits n c hc)
    exact plain_clean hL (hnot '.' (by decide) (by decide) (by decide))
      (hnot '-' (by decide) (by decide) (by decide))

theorem cleanCiteField_noBreak (value : Text) (limit : Nat) :
    NoBreak (cleanCiteField C value limit) := by
  unfold cleanCiteField
  dsimp only
  have hout : NoBreak (((value.take (limit * 8)).filter (fun c => !C.dropCategory c)).map
      (fun c => if C.spaceCategory c then ' ' else c)) := by
    intro c hc
    obtain ⟨d, -, rfl⟩ := List.mem_map.mp hc
    split
    · decide
    · next hcat =>
      cases hb : isLineBreak d with
      | false => rfl
      | true => exact absurd (hL.break_category d hb) hcat
  split
  · refine noBreak_append (noBreak_rstrip fun c hc => ?_) (by simp [NoBreak, isLineBreak])
    exact noBreak_squeeze hout c (List.mem_of_mem_take hc)
  · exact noBreak_squeeze hout

theorem formatCitation_noBreak {p : CitePayload} (hdoc : PlainFormNumber U p.docId) :
    NoBreak (formatCitation U C p) := by
  have hspace : NoBreak [' '] := by simp [NoBreak, isLineBreak]
  have hnumber : NoBreak p.docId := by
    obtain ⟨b, e, hd, -⟩ := ownDocs_eq hL hdoc
    intro c hc
    cases hb : isLineBreak c with
    | false => rfl
    | true =>
      have hsep := (Bool.or_eq_false_iff.mp (hd.noSep hL c hc)).1
      rw [isSpace_of_isLineBreak hb] at hsep
      cases hsep
  have htitle :=
    citePart_noBreak (U := U) (cleanCiteField_noBreak hL p.title citeTitleMaxChars) p.docId
  have hheading :=
    citePart_noBreak (U := U) (cleanCiteField_noBreak hL p.headingPath citeHeadingMaxChars) p.docId
  have hplain : ∀ t : Text, t.all (fun c => !isLineBreak c) = true → NoBreak t :=
    fun t h c hc => by simpa using List.all_eq_true.mp h c hc
  have hdigits : ∀ n, NoBreak (natText n) := by
    intro n c hc
    have hd : c.isDigit = true := Nat.isDigit_of_mem_toDigits (by decide) (by decide) hc
    cases hb : isLineBreak c with
    | false => rfl
    | true =>
      have halnum := citeSep_alnum (isSpace_citeSep c (isSpace_of_isLineBreak hb))
      rw [asciiAlnum, hd, Bool.or_true] at halnum
      cases halnum
  rw [formatCitation_eq]
  refine noBreak_append (noBreak_intercalate fun l hl => ?_) ?_
  · rcases List.mem_cons.mp (List.mem_filter.mp hl).1 with rfl | hl
    · exact noBreak_strip (noBreak_append (noBreak_append hnumber hspace) htitle)
    · exact List.mem_singleton.mp hl ▸ hheading
  · rcases citeLocation_cases (U := U) (C := C) p with h | ⟨token, h, rfl | ⟨first, more, rfl⟩⟩
    · rw [h]
      exact fun c hc => by cases hc
    · rw [h]
      refine noBreak_append (hplain _ (by decide)) ?_
      unfold plainPageLabel
      dsimp only
      split
      · exact fun c hc => by cases hc
      · exact cleanCiteField_noBreak hL _ _
    · rw [h]
      refine noBreak_append (hplain _ (by decide)) (noBreak_append (hplain _ (by decide))
        (noBreak_append (hdigits first) fun c hc => ?_))
      obtain ⟨n, -, hn⟩ := List.mem_flatMap.mp hc
      rcases List.mem_cons.mp hn with rfl | hn
      · decide
      · exact hdigits n c hn

/-- A citation names one location just when no deletion in its title and heading joins a mark or a
number. -/
theorem oneLocation_iff (p : CitePayload) (hdoc : PlainFormNumber U p.docId) :
    OneLocation U C p ↔
      ¬JoinsForged U p.docId (cleanCiteField C p.title citeTitleMaxChars) ∧
        ¬JoinsForged U p.docId (cleanCiteField C p.headingPath citeHeadingMaxChars) := by
  have hl := forged_local hL p.docId
  have hcomma : citeSep ',' = true := by decide
  have hspace : citeSep ' ' = true := by decide
  rw [← not_or, ← citeHead_iff hL hdoc]
  have hcite := formatCitation_eq (U := U) (C := C) p
  constructor
  · -- what is read in the head is read in the citation
    rintro h ⟨a, w, r, hhead, hH⟩
    have hextend : ∃ r', formatCitation U C p = a ++ w ++ r' ∧ Forged U p.docId a.reverse w r' := by
      rcases citeLocation_token hL p with hnone | ⟨token, hloc, -⟩
      · exact ⟨r, by rw [hcite, hnone, List.append_nil, hhead], hH⟩
      · refine ⟨r ++ ',' :: (" p. ".toList ++ token), ?_, hl.extend hcomma hH _⟩
        rw [hcite, hloc, hhead, List.append_assoc]
        rfl
    obtain ⟨r', hr', hmark | ⟨hread, hforeign⟩⟩ := hextend
    · have := congrArg List.length (h.onePage a w r' hr' hmark)
      have hlen := congrArg List.length hhead
      simp only [List.length_append] at this hlen
      have htwo : 0 < ", ".toList.length := by decide
      omega
    · exact hforeign (h.ownDocno a w r' hr' hread)
  · intro hhead
    -- a reading of the citation is the mark of the location
    have hreading : ∀ a w r, formatCitation U C p = a ++ w ++ r → Forged U p.docId a.reverse w r →
        a = citeHead U C p ++ ", ".toList ∧ w = "p.".toList := by
      intro a w r ht hH
      rcases citeLocation_token hL p with hnone | ⟨token, hloc, htoken⟩
      · rw [hcite, hnone, List.append_nil] at ht
        exact absurd ⟨a, w, r, ht, hH⟩ hhead
      · have hsplit : formatCitation U C p =
            citeHead U C p ++ ',' :: ([] ++ ' ' :: ("p.".toList ++ ' ' :: token)) := by
          rw [hcite, hloc]
          rfl
        rw [hsplit] at ht
        rcases hl.split hcomma ht hH with ⟨r', h1, hH⟩ | ⟨a, rfl, h1, hH⟩
        · exact absurd ⟨_, w, r', h1, hH⟩ hhead
        rcases hl.split hspace h1 hH with ⟨r', h2, hH⟩ | ⟨a, rfl, h2, hH⟩
        · exact absurd ⟨_, w, r', h2, hH⟩ hl.occurs_nil
        rcases hl.split hspace h2 hH with ⟨r', h3, hH⟩ | ⟨a, rfl, h3, hH⟩
        · rcases hH with hmark | ⟨hread, -⟩
          · obtain ⟨-, x, y, rfl, -⟩ := (pageMark_iff hL).mp hmark
            have hlen := congrArg List.length h3
            have htwo : "p.".toList.length = 2 := by decide
            simp only [List.length_append, List.length_cons, List.length_nil, htwo] at hlen
            obtain rfl : a = [] := List.eq_nil_of_length_eq_zero (by omega)
            obtain rfl : r' = [] := List.eq_nil_of_length_eq_zero (by omega)
            rw [List.append_nil, List.nil_append] at h3
            exact ⟨rfl, h3.symm⟩
          · obtain ⟨-, ⟨b, e, hw⟩, -⟩ := docno_iff.mp hread
            have hin : '-' ∈ "p.".toList := by
              rw [h3]
              simp [hw.hyphen]
            exact absurd hin (by decide)
        · exact absurd ⟨a, w, r, h3, hH⟩ htoken
    refine ⟨formatCitation_noBreak hL hdoc, fun a w r ht hread => ?_, fun a w r ht hmark =>
      (hreading a w r ht (.inl hmark)).1⟩
    by_contra hforeign
    obtain ⟨-, rfl⟩ := hreading a w r ht (.inr ⟨hread, hforeign⟩)
    obtain ⟨-, ⟨b, e, hw⟩, -⟩ := docno_iff.mp hread
    exact hw.noPoint hL (by decide)

end

/-! ## Numbers that join marks -/

/-- `Cc`, `Zl` and `Zp`; no format characters. -/
def latinCites : CiteTables where
  spaceCategory c := c.toNat < 32 || (127 ≤ c.toNat && c.toNat < 160) || c.toNat == 0x2028 ||
    c.toNat == 0x2029
  dropCategory _ := false

theorem latinCites_laws : CiteLaws asciiTables latinCites where
  ascii_decimal _ _ := rfl
  decimal_word c h := by
    simp only [asciiTables, Char.isAlphanum] at h ⊢
    simp [h]
  separator_word c h := by
    have halnum := citeSep_alnum h
    have hunder : c ≠ '_' := by
      rintro rfl
      revert h
      decide
    simp only [asciiTables, Char.isAlphanum]
    simpa [asciiAlnum, hunder] using halnum
  p_word := by decide
  break_category c h := by
    simp only [isLineBreak, latinCites, Bool.or_eq_true, Bool.and_eq_true, decide_eq_true_eq,
      beq_iff_eq] at h ⊢
    omega

def titled (title : Text) : CitePayload where
  docId := "SA22-7592-05".toList
  title := title
  headingPath := "IEASYSxx > LFAREA".toList
  pageLabel := "1-17".toList

theorem plain_isDocno {letters digits tail : Text} (hl : 2 ≤ letters.length ∧ letters.length ≤ 4)
    (hu : letters.all isUpper = true) (hd : digits.length = 2 ∧ digits.all Char.isDigit = true)
    (ht : tail.length = 4 ∧ tail.all Char.isDigit = true) {edition : Text}
    (he : edition = [] ∨ IsEdition asciiTables edition) :
    IsDocno asciiTables (letters ++ digits ++ '-' :: tail ++ edition)
      (letters ++ digits ++ '-' :: tail) edition :=
  ⟨rfl, ⟨letters, digits, tail, hd.1, hl.2, rfl, hl.1, List.all_eq_true.mp hu,
    List.all_eq_true.mp hd.2, ht.1, List.all_eq_true.mp ht.2⟩, he⟩

theorem titled_number (title : Text) : PlainFormNumber asciiTables (titled title).docId := by
  have hedition : IsEdition asciiTables "-05".toList :=
    ⟨"05".toList, by decide +kernel, by decide +kernel, List.all_eq_true.mp (by decide +kernel)⟩
  have hnumber := @plain_isDocno "SA".toList "22".toList "7592".toList (by decide +kernel)
    (by decide +kernel) (by decide +kernel) (by decide +kernel) _ (.inr hedition)
  exact (readAt_words docNumber_words).mpr ⟨_, _, hnumber⟩

theorem titled_location :
    PlainFormNumber asciiTables (titled "MVS p. 3, Tuning GC28-1234".toList).docId ∧
      (OneLocation asciiTables latinCites (titled "MVS p. 3, Tuning GC28-1234".toList) ↔
        ¬JoinsForged asciiTables "SA22-7592-05".toList
            (cleanCiteField latinCites "MVS p. 3, Tuning GC28-1234".toList citeTitleMaxChars) ∧
          ¬JoinsForged asciiTables "SA22-7592-05".toList
            (cleanCiteField latinCites "IEASYSxx > LFAREA".toList citeHeadingMaxChars)) :=
  ⟨titled_number _, oneLocation_iff latinCites_laws (titled _) (titled_number _)⟩

/-- A deleted number brings up a page mark, or another number. -/
theorem joined_location :
    (formatCitation asciiTables latinCites (titled "X GC28-1234p. 5".toList) =
        "SA22-7592-05 X p. 5, IEASYSxx > LFAREA, p. 1-17".toList ∧
      ¬OneLocation asciiTables latinCites (titled "X GC28-1234p. 5".toList)) ∧
    formatCitation asciiTables latinCites (titled "GC28-1234SC33-5678".toList) =
        "SA22-7592-05 SC33-5678, IEASYSxx > LFAREA, p. 1-17".toList ∧
      ¬OneLocation asciiTables latinCites (titled "GC28-1234SC33-5678".toList) := by
  have hpage : formatCitation asciiTables latinCites (titled "X GC28-1234p. 5".toList) =
      "SA22-7592-05 X ".toList ++ "p.".toList ++ " 5, IEASYSxx > LFAREA, p. 1-17".toList := by
    decide +kernel
  have hnumber : formatCitation asciiTables latinCites (titled "GC28-1234SC33-5678".toList) =
      "SA22-7592-05 ".toList ++ "SC33-5678".toList ++ ", IEASYSxx > LFAREA, p. 1-17".toList := by
    decide +kernel
  refine ⟨⟨by rw [hpage]; decide +kernel, fun h => ?_⟩, by rw [hnumber]; decide +kernel, fun h => ?_⟩
  · have hmark : ReadAt (pageMarkRe asciiTables) "SA22-7592-05 X ".toList.reverse "p.".toList
        " 5, IEASYSxx > LFAREA, p. 1-17".toList :=
      (pageMark_iff latinCites_laws).mpr
        ⟨by decide +kernel, 'p', [], by decide +kernel, by decide +kernel, .inl rfl⟩
    have hplace := h.onePage _ _ _ hpage hmark
    revert hplace
    decide +kernel
  · have hshape := @plain_isDocno "SC".toList "33".toList "5678".toList (by decide +kernel)
      (by decide +kernel) (by decide +kernel) (by decide +kernel) _ (.inl rfl)
    have hread : ReadAt (citeDocnoRe asciiTables) "SA22-7592-05 ".toList.reverse "SC33-5678".toList
        ", IEASYSxx > LFAREA, p. 1-17".toList :=
      docno_iff.mpr ⟨by decide +kernel, ⟨_, _, hshape⟩, by decide +kernel⟩
    have hown := h.ownDocno _ _ _ hnumber hread
    revert hown
    decide +kernel

end MainframeRag.Agent
