import MainframeRag.Agent.ParseAnswer

/-!
# Copied citations

The citation a payload gets (`format_citation` of `retrieve/query.py`) and when an answer that
copies it behind a `Citations:` line is credited with it (`copied_iff`): when the normalizer of
citation lines leaves it alone, it is one line, and it holds no fence mark.
-/

namespace MainframeRag.Agent

open PyText Regex Ingest.Chunking

/-! ## Formatting -/

/-- The Unicode categories that `clean_cite_field` asks for. -/
structure CiteTables where
  /-- `Cc`, `Zl` or `Zp` -/
  spaceCategory : Char → Bool
  /-- `Cf` or `Cs` -/
  dropCategory : Char → Bool

def citeTitleMaxChars : Nat := 200

def citeHeadingMaxChars : Nat := 400

def citeLabelMaxChars : Nat := 32

def isComma (c : Char) : Bool := c == ',' || c == '\uff0c'

section

open Regex.Pattern

variable (U : CharTables)

/-- `_CITE_DOCNO_RE` -/
def citeDocnoRe : Pattern Char :=
  row [test (fun pl => !pl.before.head?.any asciiAlnum), docNumber U,
    test (fun pl => !pl.rest.head?.any Char.isDigit)]

/-- `_CITE_PAGE_MARK_RE` -/
def citePageMarkRe : Pattern Char :=
  row [star (one (fun c => isSpace c || isComma c)), wordEdge U, oneOf "Pp", opt (oneOf "Pp"),
    lit ".", opt (row [blanks, plus (one (fun c => !isSpace c && !isComma c))])]

/-- `\s+(?=[,，])` -/
def blanksBeforeCommaRe : Pattern Char :=
  row [blanks1, test (fun pl => pl.rest.head?.any isComma)]

/-- `([,，])(?:\s*[,，])+` -/
def commaRunRe : Pattern Char := row [one isComma, plus (row [blanks, one isComma])]

end

section

variable (U : CharTables) (C : CiteTables)

def cleanCiteField (value : Text) (limit : Nat) : Text :=
  let out := ((value.take (limit * 8)).filter (fun c => !C.dropCategory c)).map
    (fun c => if C.spaceCategory c then ' ' else c)
  let text := squeeze out
  if limit < text.length then rstrip (text.take (limit - 1)) ++ ['\u2026'] else text

def plainPageLabel (value : Text) : Text :=
  let label := cleanCiteField C value (citeLabelMaxChars + 1)
  if citeLabelMaxChars < label.length || label.any isComma || search (citePageMarkRe U) label ||
      search (citeDocnoRe U) label then []
  else label

/-- The hit's own document, with and without its edition. -/
def ownDocs (docId : Text) : List Text :=
  docId :: (((docBase U).matchStart docId).map
    (fun rest => docId.take (docId.length - rest.length))).toList

def citePart (text docId : Text) : Text :=
  let text := sub (citePageMarkRe U) (fun _ => []) text
  let text := sub (citeDocnoRe U) (fun w => if (ownDocs U docId).contains w then w else []) text
  let text := sub blanksBeforeCommaRe (fun _ => []) text
  let text := sub commaRunRe (fun w => w.take 1) text
  let edge := fun c => c == ' ' || isComma c
  (((squeeze text).dropWhile edge).reverse.dropWhile edge).reverse

/-- What `format_citation` reads of a stored payload. -/
structure CitePayload where
  docId : Text
  title : Text
  headingPath : Text
  pageLabel : Text
  pageStart : Option Nat := none
  pageEnd : Option Nat := none

def formatCitation (p : CitePayload) : Text :=
  let title := citePart U (cleanCiteField C p.title citeTitleMaxChars) p.docId
  let heading := citePart U (cleanCiteField C p.headingPath citeHeadingMaxChars) p.docId
  let label := plainPageLabel U C p.pageLabel
  let parts := [strip (p.docId ++ [' '] ++ title), heading]
  let cite := List.intercalate ", ".toList (parts.filter (· ≠ []))
  if label ≠ [] then cite ++ ", p. ".toList ++ label
  else match p.pageStart with
    | none => cite
    | some start =>
      let first := start + 1
      let last := (match p.pageEnd with
        | some stop => if start ≤ stop then stop else start
        | none => start) + 1
      cite ++ ", p. PDF ".toList ++ natText first ++
        (if first = last then [] else '\u2013' :: natText last)

end

/-! ## The copied line -/

def headerLine : Text := "Citations:".toList

/-- The list an answer closes with. -/
def citedBehind (prose cite : Text) : Text := prose ++ '\n' :: (headerLine ++ '\n' :: cite)

/-- Whatever the prose, an answer that copies the citation and is not an abstention is credited
with it. -/
def AcceptedVerbatim (U : CharTables) (evidence : PromptEvidence) (cite : Text) : Prop :=
  ∀ A prose, (parseAnswer U A (citedBehind prose cite) evidence).abstained = false →
    cite ∈ (parseAnswer U A (citedBehind prose cite) evidence).citations ∧
      (parseAnswer U A (citedBehind prose cite) evidence).citationsInferred = false

/-- One line without a fence mark that the normalizer leaves alone. -/
structure Copyable (U : CharTables) (cite : Text) : Prop where
  nonempty : cite ≠ []
  oneLine : NoBreak cite
  noFence : ¬fenceMark <:+: cite
  normal : normalizeCitationLine U cite = cite

section

variable (U : CharTables) (A : AnswerReaders)

/-! ## Fences -/

/-- The parts of a matched fence. -/
theorem fence_run {pl e : Place Char} (h : e ∈ fenceRe.runs pl) : ∃ lang body : Text,
    Along pl (fenceMark ++ (lang ++ ('\n' :: (body ++ fenceMark)))) e ∧
      ∀ c ∈ lang, isLangChar c = true := by
  obtain ⟨m1, h1, h⟩ := mem_runs_seq.mp h
  obtain ⟨m2, h2, h⟩ := mem_runs_seq.mp h
  obtain ⟨m3, h3, h⟩ := mem_runs_seq.mp h
  obtain ⟨m4, h4, h⟩ := mem_runs_seq.mp h
  obtain ⟨m5, h5, h⟩ := mem_runs_seq.mp h
  obtain rfl := List.mem_singleton.mp h
  obtain ⟨lang, hl, hlang⟩ := runs_many_all h2
  obtain ⟨body, hb, -⟩ := runs_many_all h4
  refine ⟨lang, body, ?_, hlang⟩
  have h3' : Along m2 ['\n'] m3 := mem_runs_word.mp h3
  exact (mem_runs_word.mp h1).trans (hl.trans (h3'.trans (hb.trans (mem_runs_word.mp h5))))

theorem mem_fence_runs {pl e : Place Char} {lang body : Text}
    (h : Along pl (fenceMark ++ (lang ++ ('\n' :: (body ++ fenceMark)))) e)
    (hlang : ∀ c ∈ lang, isLangChar c = true) : e ∈ fenceRe.runs pl := by
  obtain ⟨b, r⟩ := pl
  obtain ⟨hr, hb⟩ := h
  dsimp only at hr hb
  simp only [List.append_assoc, List.cons_append] at hr
  have step : ∀ (b w r : Text), Along ⟨b, w ++ r⟩ w ⟨w.reverse ++ b, r⟩ := fun _ _ _ => ⟨rfl, rfl⟩
  refine mem_runs_seq.mpr ⟨_, mem_runs_word.mpr (hr ▸ step b fenceMark _), ?_⟩
  refine mem_runs_seq.mpr ⟨_, mem_runs_many hlang (step _ lang _), ?_⟩
  refine mem_runs_seq.mpr ⟨_, mem_runs_word.mpr (step _ ['\n'] _), ?_⟩
  refine mem_runs_seq.mpr ⟨_, mem_runs_many (fun _ _ => rfl) (step _ body _), ?_⟩
  refine mem_runs_seq.mpr ⟨_, mem_runs_word.mpr (step _ fenceMark _), ?_⟩
  refine List.mem_singleton.mpr ?_
  obtain ⟨b', r'⟩ := e
  dsimp only at hb
  rw [hb]
  simp

/-- A matched fence begins and ends with the mark, so a text without the mark holds none of it. -/
theorem fence_end {pl e : Place Char} (h : e ∈ fenceRe.runs pl) :
    ∃ w, pl.rest = w ++ fenceMark ++ e.rest := by
  obtain ⟨lang, body, ha, -⟩ := fence_run h
  refine ⟨fenceMark ++ (lang ++ ('\n' :: body)), ?_⟩
  rw [ha.rest]
  simp

/-- No fence reaches into a text without the mark that does not begin with a backtick. -/
theorem textProcessed_tail {tail : Text} (hfree : ¬fenceMark <:+: tail)
    (hhead : ∀ c, tail.head? = some c → c ∉ fenceMark) (v : Text) :
    ∃ front, textProcessed (v ++ tail) = front ++ tail := by
  refine sub_tail unfence (fun pl e hs he => ?_) (fun pl e v hv he => ?_) v
  · obtain ⟨w, hw⟩ := fence_end he
    have hin : fenceMark <:+: pl.rest := ⟨w, e.rest, hw.symm⟩
    exact absurd (hin.trans hs.isInfix) hfree
  · obtain ⟨w, hw⟩ := fence_end he
    by_contra hlt
    -- the mark would end inside the tail
    have hsplit : v ++ tail = (w ++ fenceMark) ++ e.rest := by rw [← hv, hw]
    rcases List.append_eq_append_iff.mp hsplit with ⟨x, hx, ht⟩ | ⟨x, hx, ht⟩
    · cases x with
      | nil =>
        rw [List.nil_append] at ht
        rw [ht] at hlt
        exact hlt Nat.le.refl
      | cons c x =>
        have hc := hhead c (by rw [ht]; rfl)
        rcases List.append_eq_append_iff.mp hx.symm with ⟨y, hy, hm⟩ | ⟨y, hy, hm⟩
        · exact hfree ⟨y, e.rest, by rw [ht, hm]⟩
        · -- the mark begins in front of the tail
          exact hc (by rw [hm]; simp)
    · have := congrArg List.length ht
      rw [List.length_append] at this
      omega

/-! ## Accepted lines -/

theorem tally_kept {docIds allowed : List Text} {c : Text} (hc : allowed.contains c = true)
    (raw : List Text) (s : CiteTally) (h : c ∈ raw ∨ c ∈ s.citations) :
    c ∈ (raw.foldl (CiteTally.add U docIds allowed) s).citations := by
  have hstep : ∀ (s : CiteTally) (x : Text), c ∈ s.citations →
      c ∈ (s.add U docIds allowed x).citations := by
    intro s x hs
    unfold CiteTally.add
    split
    · split
      · exact hs
      · exact List.mem_append_left _ hs
    · split
      · exact hs
      · split
        · exact hs
        · exact hs
  induction raw generalizing s with
  | nil => exact h.resolve_left (by simp)
  | cons x raw ih =>
    rw [List.foldl_cons]
    refine ih _ ?_
    rcases h with h | h
    · rcases List.mem_cons.mp h with rfl | h
      · refine .inr ?_
        unfold CiteTally.add
        rw [if_pos hc]
        split
        · next hin => exact List.contains_iff_mem.mp hin
        · exact List.mem_append_right _ List.mem_cons_self
      · exact .inl h
    · exact .inr (hstep s x h)

/-- Every citation of the lists is the citation of a line. -/
theorem readCitations_cited (content : Text) (evidence : PromptEvidence) :
    ∀ c ∈ (readCitations U A content evidence).2.citations,
      CitedIn U (splitlines (textProcessed content)) c := by
  have hsub : ∀ (docIds allowed raw : List Text) (s : CiteTally),
      ∀ c ∈ (raw.foldl (CiteTally.add U docIds allowed) s).citations, c ∈ s.citations ∨ c ∈ raw := by
    intro docIds allowed raw
    induction raw with
    | nil => exact fun s c hc => .inl hc
    | cons x raw ih =>
      intro s c hc
      rcases ih _ c hc with hc | hc
      · have hadd : c ∈ s.citations ∨ c = x := by
          unfold CiteTally.add at hc
          split at hc
          · split at hc
            · exact .inl hc
            · exact (List.mem_append.mp hc).imp_right List.mem_singleton.mp
          · split at hc
            · exact .inl hc
            · split at hc
              · exact .inl hc
              · exact .inl hc
        exact hadd.imp_right fun h => List.mem_cons.mpr (.inl h)
      · exact .inr (List.mem_cons_of_mem _ hc)
  intro c hc
  unfold readCitations at hc
  dsimp only at hc
  rcases List.mem_append.mp ((hsub _ _ _ _ c hc).resolve_left (by simp)) with hc | hc
  · exact (extractBody_raw U _ _ _ c hc).mono U (extractTrailing_lines U _ _ _)
  · exact extractTrailing_attempts U _ _ _ c hc

/-- An allowed line at the end of the text that is its own citation is in the lists. -/
theorem readCitations_last {content cite : Text} {evidence : PromptEvidence}
    (hin : cite ∈ evidence.allowedCitations) (hne : cite ≠ [])
    (hnormal : normalizeCitationLine U cite = cite) {front : List Text}
    (hlast : splitlines (textProcessed content) = front ++ [cite]) :
    cite ∈ (readCitations U A content evidence).2.citations := by
  have hc : evidence.allowedCitations.contains cite = true := List.contains_iff_mem.mpr hin
  have hblank : ¬strip cite = [] := by
    rw [((normalizeCitationLine_self U).mp hnormal).1]
    exact hne
  unfold readCitations
  dsimp only
  refine tally_kept U hc _ _ (.inl (List.mem_append_right _ ?_))
  rw [extractTrailingCitations, hlast, List.reverse_append, List.reverse_singleton,
    List.singleton_append, trailingFrom, if_neg hblank]
  dsimp only
  rw [hnormal, hc]
  simp

/-- Inference that adds no label adds no citation. -/
theorem inferred_nil {evidence : PromptEvidence} {text : Text}
    (h : (inferred U evidence text).2 = []) : (inferred U evidence text).1 = [] := by
  have hlen : ∀ (indices : List Nat) (s : List Text × List Nat), s.1.length = s.2.length →
      (indices.foldl (inferCite evidence) s).1.length =
        (indices.foldl (inferCite evidence) s).2.length := by
    intro indices
    induction indices with
    | nil => exact fun s hs => hs
    | cons i indices ih =>
      intro s hs
      refine ih _ ?_
      unfold inferCite
      split
      · exact hs
      · split
        · exact hs
        · simp [hs]
  have := hlen ((found (inlineIndexRe U) text).flatMap (bracketLabels U)) ([], []) rfl
  rw [← inferred, h] at this
  exact List.eq_nil_of_length_eq_zero this

/-- A credited citation that is not inferred stands in the lists. -/
theorem credited_listed {content cite : Text} {evidence : PromptEvidence}
    (hab : (parseAnswer U A content evidence).abstained = false)
    (hc : cite ∈ (parseAnswer U A content evidence).citations)
    (hi : (parseAnswer U A content evidence).citationsInferred = false) :
    cite ∈ (readCitations U A content evidence).2.citations := by
  obtain ⟨abstained, h, hcites, hinf, -⟩ := parseAnswer_reset U A content evidence
  rw [hab] at h
  subst h
  rw [hcites, if_neg (by simp)] at hc
  rw [hinf] at hi
  have hnil : (offered U A content evidence).2 = [] := by simpa using hi
  unfold offered at hc hnil
  split at hc
  · next hcond =>
    rw [if_pos hcond] at hnil
    rw [inferred_nil U hnil] at hc
    cases hc
  · dsimp only at hc
    exact hc

/-- A listed citation is credited, and not inferred, unless the answer is an abstention. -/
theorem listed_credited {content cite : Text} {evidence : PromptEvidence}
    (hab : (parseAnswer U A content evidence).abstained = false)
    (hc : cite ∈ (readCitations U A content evidence).2.citations) :
    cite ∈ (parseAnswer U A content evidence).citations ∧
      (parseAnswer U A content evidence).citationsInferred = false := by
  obtain ⟨abstained, h, hcites, hinf, -⟩ := parseAnswer_reset U A content evidence
  rw [hab] at h
  subst h
  have hoff : offered U A content evidence =
      ((readCitations U A content evidence).2.citations, []) :=
    if_neg fun hn => by
      rw [hn.1] at hc
      cases hc
  rw [hcites, hinf, hoff]
  dsimp only
  exact ⟨hc, rfl⟩

/-! ## The header line -/

theorem along_suffix {pl e : Place Char} {w : Text} (h : Along pl w e) : e.rest <:+ pl.rest :=
  ⟨w, h.rest.symm⟩

def markerChars : Text := "-*•[.)".toList

/-- A list marker reads a bullet, a bracket or a point. -/
theorem marker_char {pl e : Place Char} (h : e ∈ (markerRe U).runs pl) :
    ∃ c ∈ pl.rest, markerChars.contains c = true := by
  have hsub : ∀ t : Text, t.all markerChars.contains = true → ∀ c, t.contains c = true →
      markerChars.contains c = true :=
    fun t ht c hc => List.all_eq_true.mp ht c (List.contains_iff_mem.mp hc)
  obtain ⟨m, hm, -⟩ := mem_runs_seq.mp h
  rcases List.mem_append.mp hm with hm | hm
  · obtain ⟨m1, h1, -⟩ := mem_runs_seq.mp hm
    obtain ⟨c, hc, ha⟩ := mem_runs_one h1
    exact ⟨c, by rw [ha.rest]; simp, hsub "-*•".toList (by decide) c hc⟩
  · rcases List.mem_append.mp hm with hm | hm
    · obtain ⟨m1, h1, hm⟩ := mem_runs_seq.mp hm
      obtain ⟨m2, h2, -⟩ := mem_runs_seq.mp hm
      obtain ⟨w, hw⟩ := runs_along _ _ m1 h1
      obtain ⟨c, hc, ha⟩ := mem_runs_one h2
      exact ⟨c, (along_suffix hw).subset (by rw [ha.rest]; simp),
        hsub ".)".toList (by decide) c hc⟩
    · obtain ⟨m1, h1, -⟩ := mem_runs_seq.mp hm
      have ha : Along pl ['['] m1 := mem_runs_word.mp h1
      exact ⟨'[', by rw [ha.rest]; simp, by decide⟩

theorem headerLine_normal : normalizeCitationLine U headerLine = headerLine := by
  have hstrip : strip headerLine = headerLine := by decide
  have hmarker : peelMarker U headerLine = headerLine := by
    unfold peelMarker Pattern.matchStart Pattern.matchAt
    cases hr : (markerRe U).runs ⟨[], headerLine⟩ with
    | nil => rfl
    | cons e es =>
      have hnone : headerLine.all (fun c => !markerChars.contains c) = true := by decide
      obtain ⟨c, hc, hm⟩ := @marker_char U ⟨[], headerLine⟩ e (by rw [hr]; simp)
      have := List.all_eq_true.mp hnone c hc
      rw [hm] at this
      cases this
  have hrest : peelBetween '(' ')' (peelBetween '<' '>' (peelLink (peelPair (peelWrap (peelQuote
      headerLine))))) = headerLine := by decide
  refine (normalizeCitationLine_self U).mpr ⟨hstrip, ?_⟩
  rw [normalizePass, hmarker, hrest]

theorem headerLine_noBreak : NoBreak headerLine := by
  have hall : headerLine.all (fun c => !isLineBreak c) = true := by decide
  intro c hc
  simpa using List.all_eq_true.mp hall c hc

theorem universalNewlines_line {l : Text} (h : '\r' ∉ l) (t : Text) :
    universalNewlines (l ++ '\n' :: t) = l ++ '\n' :: universalNewlines t := by
  induction l with
  | nil =>
    rw [List.nil_append, List.nil_append, universalNewlines.eq_3 _ _ (by intro x hx; cases hx)]
    rfl
  | cons c l ih =>
    obtain ⟨hc, hl⟩ := not_or.mp (List.mem_cons.not.mp h)
    rw [List.cons_append, universalNewlines.eq_3 _ _ (by intro x hx; exact absurd hx.symm hc),
      ih hl, if_neg (Ne.symm hc)]
    rfl

theorem splitlines_line {l : Text} (h : NoBreak l) (t : Text) :
    splitlines (l ++ '\n' :: t) = l :: splitlines t := by
  have hr : '\r' ∉ l := fun hm => by
    have := h '\r' hm
    revert this
    decide
  rw [splitlines, universalNewlines_line hr, cutLines_break h, splitlines]

/-! ## Which lines are accepted -/

def neverAbstains : AnswerReaders where
  isAbstention _ _ := false
  setOrder ids := ids

theorem neverAbstains_abstained (content : Text) (evidence : PromptEvidence) :
    (parseAnswer U neverAbstains content evidence).abstained = false := by
  simp only [parseAnswer, neverAbstains]

/-- An accepted line is the citation of a line of the processed answer. -/
theorem accepted_cited {evidence : PromptEvidence} {cite : Text}
    (h : AcceptedVerbatim U evidence cite) (prose : Text) :
    CitedIn U (splitlines (textProcessed (citedBehind prose cite))) cite := by
  have hab := neverAbstains_abstained U (citedBehind prose cite) evidence
  obtain ⟨hc, hi⟩ := h neverAbstains prose hab
  exact readCitations_cited U neverAbstains _ _ cite (credited_listed U neverAbstains hab hc hi)

/-- A text without a backtick in front of the citation adds no mark. -/
theorem fence_within {a cite : Text} (ha : (a.all fun c => !fenceMark.contains c) = true)
    (hf : fenceMark <:+: a ++ cite) : fenceMark <:+: cite := by
  have hplain : ∀ c ∈ a, c ∉ fenceMark := fun c hc hm => by
    have := List.all_eq_true.mp ha c hc
    rw [List.contains_iff_mem.mpr hm] at this
    cases this
  have hmark : ∃ c u, fenceMark = c :: u := ⟨_, _, rfl⟩
  obtain ⟨c, u, hcu⟩ := hmark
  obtain ⟨s, t, hst⟩ := hf
  rcases List.append_eq_append_iff.mp hst with ⟨y, hy, -⟩ | ⟨y, hy, hc⟩
  · exact absurd (by rw [hcu]; simp) (hplain c (by rw [hy, hcu]; simp))
  · rcases List.append_eq_append_iff.mp hy with ⟨z, hz, hm⟩ | ⟨z, hz, hm⟩
    · cases z with
      | nil => exact ⟨[], t, by rw [hc, hm]; rfl⟩
      | cons d z => exact absurd (by rw [hm]; simp) (hplain d (by rw [hz]; simp))
    · exact ⟨z, t, by rw [hc, hm]⟩

theorem unfence_length (w : Text) : (unfence w).length ≤ w.length := by
  unfold unfence
  split
  · exact Nat.zero_le _
  · split
    · exact Nat.zero_le _
    · refine (strip_length _).trans ?_
      simp only [List.length_drop, List.length_take]
      omega

def jclLang : Text := "jcl".toList

theorem unfence_jcl (rest : Text) : unfence (fenceMark ++ (jclLang ++ '\n' :: rest)) = [] := by
  have hraw : rawLang (fenceMark ++ (jclLang ++ '\n' :: rest)) = jclLang := rfl
  have hlang : (strip jclLang).map Char.toLower = jclLang := by decide
  have hscript : scriptLangs.contains jclLang = true := by decide
  rw [unfence, fenceLang, hraw, hlang, if_pos hscript]

/-- A fence that opens in the prose and closes in the citation swallows it. -/
theorem fenced_not_accepted {evidence : PromptEvidence} {cite : Text} (hf : fenceMark <:+: cite) :
    ¬AcceptedVerbatim U evidence cite := by
  intro h
  obtain ⟨x, y, hxy⟩ := hf
  let between : Text := '\n' :: (headerLine ++ ['\n'])
  have hbetween : (between.all fun c => !fenceMark.contains c) = true := by decide
  let content : Text := fenceMark ++ (jclLang ++ '\n' :: (between ++ cite))
  have hcontent : citedBehind (fenceMark ++ (jclLang ++ ['\n'])) cite = content := by
    simp only [citedBehind, content, between, List.append_assoc, List.cons_append, List.nil_append]
  -- a fence matches at the start
  have hrun : ∃ e, e ∈ fenceRe.runs ⟨[], content⟩ := by
    have hall : jclLang.all isLangChar = true := by decide
    have hto : Along ⟨[], content⟩ (fenceMark ++ (jclLang ++ '\n' :: ((between ++ x) ++ fenceMark)))
        ⟨(fenceMark ++ (jclLang ++ '\n' :: ((between ++ x) ++ fenceMark))).reverse ++ [], y⟩ := by
      refine ⟨?_, rfl⟩
      simp only [content, ← hxy, List.append_assoc, List.cons_append]
    exact ⟨_, mem_fence_runs hto (List.all_eq_true.mp hall)⟩
  obtain ⟨e, hm⟩ : ∃ e, fenceRe.matchAt ⟨[], content⟩ = some e := by
    obtain ⟨e, he⟩ := hrun
    unfold Pattern.matchAt
    cases hr : fenceRe.runs ⟨[], content⟩ with
    | nil =>
      rw [hr] at he
      cases he
    | cons e' es => exact ⟨e', rfl⟩
  obtain ⟨lang, body, ha, hlang⟩ := fence_run (List.mem_of_head? hm)
  -- it is the JCL fence, and it ends in the citation
  have hrest : jclLang ++ '\n' :: (between ++ cite) = lang ++ '\n' :: (body ++ fenceMark ++ e.rest) := by
    have := ha.rest
    simp only [content, List.append_assoc, List.cons_append] at this ⊢
    exact List.append_cancel_left this
  have htake : ∀ l u : Text, (∀ c ∈ l, isLangChar c = true) →
      (l ++ '\n' :: u).takeWhile isLangChar = l := by
    intro l u hl
    rw [List.takeWhile_append_of_pos hl, List.takeWhile_cons_of_neg (by decide), List.append_nil]
  have hl : lang = jclLang := by
    rw [← htake lang (body ++ fenceMark ++ e.rest) hlang, ← hrest]
    exact htake jclLang _ (List.all_eq_true.mp (by decide))
  subst hl
  have hbody : between ++ cite = body ++ fenceMark ++ e.rest :=
    (List.cons.inj (List.append_cancel_left hrest)).2
  have hshort : e.rest.length < cite.length := by
    by_contra hge
    have hlen := congrArg List.length hbody
    simp only [List.length_append] at hlen
    have hpre : body ++ fenceMark <+: between :=
      List.prefix_of_prefix_length_le ⟨e.rest, hbody.symm⟩ (List.prefix_append between cite)
        (by rw [List.length_append]; omega)
    obtain ⟨z, hz⟩ := hpre
    have hin : '\u0060' ∈ between := by
      rw [← hz]
      simp [fenceMark]
    have := List.all_eq_true.mp hbetween _ hin
    revert this
    decide
  obtain ⟨rest, hsub, hle⟩ := sub_first unfence_length hm ha (by simp [fenceMark])
  have htext : textProcessed content = rest := by
    rw [textProcessed, hsub, unfence_jcl, List.nil_append]
  obtain ⟨l, hl, -, hc⟩ := accepted_cited U h (fenceMark ++ (jclLang ++ ['\n']))
  rw [hcontent, htext] at hl
  have h1 := splitlines_length hl
  have h2 := normalizeCitationLine_length U l
  rw [← hc] at h2
  omega

theorem copyable_of_accepted {evidence : PromptEvidence} {cite : Text}
    (h : AcceptedVerbatim U evidence cite) : Copyable U cite := by
  have hfree : ¬fenceMark <:+: cite := fun hf => fenced_not_accepted U hf h
  have htext : textProcessed (citedBehind [] cite) = citedBehind [] cite := by
    refine sub_gaps unfence fun pl e hs he => ?_
    obtain ⟨w, hw⟩ := fence_end he
    have hin : fenceMark <:+: pl.rest := ⟨w, e.rest, hw.symm⟩
    have hall : fenceMark <:+: ('\n' :: (headerLine ++ ['\n'])) ++ cite := by
      have := hin.trans hs.isInfix
      simpa only [citedBehind, List.append_assoc, List.cons_append, List.nil_append] using this
    exact absurd (fence_within (by decide) hall) hfree
  have hlines : splitlines (citedBehind [] cite) = [] :: headerLine :: splitlines cite := by
    have hnil : NoBreak [] := by simp [NoBreak]
    rw [citedBehind, splitlines_line hnil, splitlines_line headerLine_noBreak]
  obtain ⟨l, hl, hblank, hc⟩ := accepted_cited U h []
  rw [htext, hlines] at hl
  rcases List.mem_cons.mp hl with rfl | hl
  · exact absurd rfl hblank
  · rcases List.mem_cons.mp hl with rfl | hl
    · rw [headerLine_normal] at hc
      subst hc
      exact ⟨by decide, headerLine_noBreak, hfree, headerLine_normal U⟩
    · -- a line as long as the citation is the citation
      have hlen := normalizeCitationLine_length U l
      rw [← hc] at hlen
      have he := splitlines_eq hl hlen
      subst he
      refine ⟨?_, splitlines_noBreak hl, hfree, hc.symm⟩
      rintro rfl
      exact hblank rfl

theorem accepted_of_copyable {evidence : PromptEvidence} {cite : Text}
    (hin : cite ∈ evidence.allowedCitations) (h : Copyable U cite) :
    AcceptedVerbatim U evidence cite := by
  intro A prose hab
  have htail : ∃ front, textProcessed (citedBehind prose cite) =
      front ++ '\n' :: (headerLine ++ '\n' :: cite) := by
    refine textProcessed_tail (fun hf => h.noFence ?_) ?_ prose
    · have hf' : fenceMark <:+: ('\n' :: (headerLine ++ ['\n'])) ++ cite := by
        simpa only [List.cons_append, List.append_assoc, List.nil_append] using hf
      exact fence_within (by decide) hf'
    · intro c hc
      cases hc
      decide
  obtain ⟨front, hfront⟩ := htail
  obtain ⟨lines, hlines⟩ := splitlines_last h.oneLine h.nonempty (front ++ '\n' :: headerLine)
  have hlast : splitlines (textProcessed (citedBehind prose cite)) = lines ++ [cite] := by
    rw [hfront, ← hlines]
    simp
  exact listed_credited U A hab (readCitations_last U A hin h.nonempty h.normal hlast)

/-- A supplied citation is accepted in every copy just when it is copyable. -/
theorem copied_iff (C : CiteTables) (payload : CitePayload) (evidence : PromptEvidence)
    (h : formatCitation U C payload ∈ evidence.allowedCitations) :
    AcceptedVerbatim U evidence (formatCitation U C payload) ↔
      Copyable U (formatCitation U C payload) :=
  ⟨copyable_of_accepted U, accepted_of_copyable U h⟩

end

/-! ## A numbered filename stem -/

def asciiCites : CiteTables where
  spaceCategory c := c.toNat < 32 || c.toNat == 127
  dropCategory _ := false

def numberedPayload : CitePayload where
  docId := "1. JES2 Commands".toList
  title := "JES2 Commands".toList
  headingPath := "Starting JES2".toList
  pageLabel := "1-17".toList

def suppliedAs (p : CitePayload) : PromptEvidence where
  entries := [{
    promptIndex := 1, chunkId := "c1".toList, docId := p.docId,
    cite := formatCitation asciiTables asciiCites p, truncated := false, includedChars := 9,
    sourceChars := 9, estTokens := 2 }]

def docnoPayload : CitePayload := { numberedPayload with docId := "SA22-7532".toList }

theorem docno_copied :
    formatCitation asciiTables asciiCites docnoPayload ∈
        (suppliedAs docnoPayload).allowedCitations ∧
      (AcceptedVerbatim asciiTables (suppliedAs docnoPayload)
        (formatCitation asciiTables asciiCites docnoPayload) ↔
          Copyable asciiTables (formatCitation asciiTables asciiCites docnoPayload)) :=
  ⟨List.mem_cons_self, copied_iff asciiTables asciiCites docnoPayload _ List.mem_cons_self⟩

/-- The normalizer takes the number of the stem for a list marker. -/
theorem numbered_rejected :
    let cite := formatCitation asciiTables asciiCites numberedPayload
    cite = "1. JES2 Commands JES2 Commands, Starting JES2, p. 1-17".toList ∧
      cite ∈ (suppliedAs numberedPayload).allowedCitations ∧
      (parseAnswer asciiTables neverAbstains (citedBehind "Issue it.".toList cite)
        (suppliedAs numberedPayload)).abstained = false ∧
      cite ∉ (parseAnswer asciiTables neverAbstains (citedBehind "Issue it.".toList cite)
        (suppliedAs numberedPayload)).citations := by
  decide +kernel

end MainframeRag.Agent
