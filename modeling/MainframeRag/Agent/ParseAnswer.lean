import MainframeRag.Agent.Cites
import MainframeRag.Agent.Prompt

/-!
# Parsed answers

`parse_answer` of `agent/answer.py`: fences, the citation lists, the inference from bracketed
prompt labels, the body filter and the abstention reset. `AnswerReaders` holds the abstention
predicate and the order in which the set of doc ids is walked.
-/

namespace MainframeRag.Agent

open PyText Regex

/-! ## Fences -/

section

open Regex.Pattern

def isLangChar (c : Char) : Bool := asciiAlnum c || c == '_' || c == '-'

def fenceMark : Text := "```".toList

/-- `FENCE_RE` -/
def fenceRe : Pattern Char :=
  row [word fenceMark, star (one isLangChar), word ['\n'], many true (one (fun _ => true)),
    word fenceMark]

variable (U : CharTables)

/-- `_INLINE_INDEX_RE` -/
def inlineIndexRe : Pattern Char :=
  row [lit "[", blanks, plus (one U.isDecimal),
    star (row [blanks, lit ",", blanks, plus (one U.isDecimal)]), blanks, lit "]"]

/-- `\b\d{1,9}\b` -/
def labelRe : Pattern Char :=
  row [wordEdge U, one U.isDecimal, upTo 8 (one U.isDecimal), wordEdge U]

end

def scriptLangs : List Text :=
  ["jcl", "rexx", "sh", "bash", "shell", "python", "py", "yaml", "yml", "json", "ops", "rule",
    "parmlib"].map String.toList

def thoughtLangs : List Text := ["thought", "thinking"].map String.toList

def rawLang (fence : Text) : Text := (fence.drop 3).takeWhile isLangChar

def fenceLang (fence : Text) : Text := (strip (rawLang fence)).map Char.toLower

/-- The text between the first line of a fence and its end. -/
def fenceCode (fence : Text) : Text :=
  strip ((fence.take (fence.length - 3)).drop (3 + (rawLang fence).length + 1))

/-- What stays of a fence in the answer: scripts and thinking go, prose is unwrapped. -/
def unfence (fence : Text) : Text :=
  if scriptLangs.contains (fenceLang fence) then []
  else if thoughtLangs.contains (fenceLang fence) then []
  else fenceCode fence

def textProcessed (content : Text) : Text := sub fenceRe unfence content

def scripts (content : Text) : List (Text × Text) :=
  ((found fenceRe content).filter (fun f => scriptLangs.contains (fenceLang f))).map
    (fun f => (fenceLang f, fenceCode f))

/-! ## The manifest's citations -/

def PromptEvidence.allowedCitations (e : PromptEvidence) : List Text :=
  e.entries.map EvidenceEntry.cite

def PromptEvidence.citeForIndex (e : PromptEvidence) (index : Nat) : Option Text :=
  (e.entries.find? (fun x => x.promptIndex = index)).map EvidenceEntry.cite

def PromptEvidence.docIds (e : PromptEvidence) : List Text :=
  ((e.entries.map EvidenceEntry.docId).filter (· ≠ [])).dedup

structure AnswerReaders where
  /-- `is_abstention` -/
  isAbstention : Text → List Text → Bool
  /-- the order in which a set is walked -/
  setOrder : List Text → List Text

structure ParsedAnswer where
  answer : Text
  citations : List Text
  script : Option Text
  scriptLang : Option Text
  citationsInferred : Bool
  inferredIndices : List Nat
  abstained : Bool
  inlineBracketPresent : Bool
  citationsHeaderPresent : Bool
  citesRejectedShapeBad : Nat
  citesRejectedUnmapped : Nat
  deriving DecidableEq

section

variable (U : CharTables)

/-! ## Validation -/

/-- The lists and counters over the raw citation lines. -/
structure CiteTally where
  citations : List Text := []
  rejectedSeen : List Text := []
  shapeBad : Nat := 0
  unmapped : Nat := 0

def CiteTally.add (docIds allowed : List Text) (s : CiteTally) (c : Text) : CiteTally :=
  if allowed.contains c then
    if s.citations.contains c then s else { s with citations := s.citations ++ [c] }
  else if s.rejectedSeen.contains c then s
  else if isCitationShaped U c docIds then
    { s with rejectedSeen := s.rejectedSeen ++ [c], unmapped := s.unmapped + 1 }
  else { s with rejectedSeen := s.rejectedSeen ++ [c], shapeBad := s.shapeBad + 1 }

/-- Shape-valid lines of the body count as unmapped once. -/
def CiteTally.reject (docIds : List Text) (s : CiteTally) (c : Text) : CiteTally :=
  if s.rejectedSeen.contains c || !isCitationShaped U c docIds then s
  else { s with rejectedSeen := s.rejectedSeen ++ [c], unmapped := s.unmapped + 1 }

/-! ## Inference -/

/-- `int` of a run of decimals. -/
def decimal (w : Text) : Nat := w.foldl (fun n c => 10 * n + U.decimalValue c) 0

/-- The labels in one bracket; its group is what stands inside, without the blanks around it. -/
def bracketLabels (bracket : Text) : List Nat := (found (labelRe U) (unwrap bracket)).map (decimal U)

def inferCite (evidence : PromptEvidence) (s : List Text × List Nat) (index : Nat) :
    List Text × List Nat :=
  match evidence.citeForIndex index with
  | none => s
  | some cite => if s.1.contains cite then s else (s.1 ++ [cite], s.2 ++ [index])

def inferred (evidence : PromptEvidence) (text : Text) : List Text × List Nat :=
  ((found (inlineIndexRe U) text).flatMap (bracketLabels U)).foldl (inferCite evidence) ([], [])

/-! ## The parser -/

variable (A : AnswerReaders)

/-- The citations of the answer's lists and the body in front of them. -/
def readCitations (content : Text) (evidence : PromptEvidence) : Text × CiteTally :=
  let allowed := evidence.allowedCitations
  let docIds := A.setOrder evidence.docIds
  let trailing := extractTrailingCitations U docIds allowed (textProcessed content)
  let block := extractBodyAndCitations U docIds allowed trailing.1
  (block.1, (block.2 ++ trailing.2).foldl (CiteTally.add U docIds allowed) {})

/-- The citations and inferred labels before the abstention reset. -/
def offered (content : Text) (evidence : PromptEvidence) : List Text × List Nat :=
  if (readCitations U A content evidence).2.citations = [] ∧ evidence.entries ≠ [] then
    inferred U evidence (textProcessed content)
  else ((readCitations U A content evidence).2.citations, [])

def parseAnswer (content : Text) (evidence : PromptEvidence) : ParsedAnswer :=
  let docIds := A.setOrder evidence.docIds
  let read := readCitations U A content evidence
  let offer := offered U A content evidence
  let body := splitUnauthorizedCitations U docIds evidence.allowedCitations read.1
  let tally := body.2.foldl (CiteTally.reject U docIds) read.2
  let abstained := A.isAbstention body.1 offer.1
  { answer := strip body.1
    citations := if abstained then [] else offer.1
    script := if scripts content = [] then none
      else some (strip (List.intercalate "\n\n".toList ((scripts content).map Prod.snd)))
    scriptLang := (scripts content).head?.map Prod.fst
    citationsInferred := !abstained && !offer.2.isEmpty
    inferredIndices := if abstained then [] else offer.2
    abstained := abstained
    inlineBracketPresent := search (inlineIndexRe U) (textProcessed content)
    citationsHeaderPresent := search citationsHeaderRe (textProcessed content)
    citesRejectedShapeBad := tally.shapeBad
    citesRejectedUnmapped := tally.unmapped }

/-! ## What is returned -/

theorem CiteTally.add_citations {docIds allowed : List Text} {s : CiteTally} (c : Text)
    (hn : s.citations.Nodup) (ha : ∀ x ∈ s.citations, x ∈ allowed) :
    (s.add U docIds allowed c).citations.Nodup ∧
      ∀ x ∈ (s.add U docIds allowed c).citations, x ∈ allowed := by
  unfold CiteTally.add
  split
  · next hc =>
    split
    · exact ⟨hn, ha⟩
    · next hnew =>
      refine ⟨List.nodup_append.mpr ⟨hn, List.nodup_singleton c, ?_⟩, fun x hx => ?_⟩
      · intro x hx y hy
        rw [List.mem_singleton.mp hy]
        rintro rfl
        exact hnew (List.contains_iff_mem.mpr hx)
      · rcases List.mem_append.mp hx with hx | hx
        · exact ha x hx
        · rw [List.mem_singleton.mp hx]
          exact List.contains_iff_mem.mp hc
  · split
    · exact ⟨hn, ha⟩
    · split
      · exact ⟨hn, ha⟩
      · exact ⟨hn, ha⟩

theorem tally_citations (docIds allowed raw : List Text) :
    (raw.foldl (CiteTally.add U docIds allowed) {}).citations.Nodup ∧
      ∀ x ∈ (raw.foldl (CiteTally.add U docIds allowed) {}).citations, x ∈ allowed := by
  suffices h : ∀ (s : CiteTally), s.citations.Nodup → (∀ x ∈ s.citations, x ∈ allowed) →
      (raw.foldl (CiteTally.add U docIds allowed) s).citations.Nodup ∧
        ∀ x ∈ (raw.foldl (CiteTally.add U docIds allowed) s).citations, x ∈ allowed from
    h {} List.nodup_nil (by simp)
  induction raw with
  | nil => exact fun s hn ha => ⟨hn, ha⟩
  | cons c raw ih =>
    intro s hn ha
    obtain ⟨hn', ha'⟩ := CiteTally.add_citations U c hn ha
    exact ih _ hn' ha'

/-- The cite of a label that stands in a bracket of the text. -/
def Labelled (evidence : PromptEvidence) (text c : Text) : Prop :=
  ∃ bracket ∈ found (inlineIndexRe U) text, ∃ index ∈ bracketLabels U bracket,
    evidence.citeForIndex index = some c

theorem citeForIndex_allowed {evidence : PromptEvidence} {index : Nat} {c : Text}
    (h : evidence.citeForIndex index = some c) : c ∈ evidence.allowedCitations := by
  obtain ⟨e, he, rfl⟩ := Option.map_eq_some_iff.mp h
  exact List.mem_map_of_mem (List.mem_of_find?_eq_some he)

theorem inferCite_fold (evidence : PromptEvidence) (indices : List Nat)
    (s : List Text × List Nat) (hn : s.1.Nodup) :
    (indices.foldl (inferCite evidence) s).1.Nodup ∧
      ∀ c ∈ (indices.foldl (inferCite evidence) s).1,
        c ∈ s.1 ∨ ∃ i ∈ indices, evidence.citeForIndex i = some c := by
  induction indices generalizing s with
  | nil => exact ⟨hn, fun c hc => .inl hc⟩
  | cons i indices ih =>
    have hstep : (inferCite evidence s i).1.Nodup ∧
        ∀ c ∈ (inferCite evidence s i).1, c ∈ s.1 ∨ evidence.citeForIndex i = some c := by
      unfold inferCite
      split
      · exact ⟨hn, fun c hc => .inl hc⟩
      · next cite hc =>
        split
        · exact ⟨hn, fun c hc => .inl hc⟩
        · next hnew =>
          refine ⟨List.nodup_append.mpr ⟨hn, List.nodup_singleton cite, ?_⟩, fun c hmem => ?_⟩
          · intro x hx y hy
            rw [List.mem_singleton.mp hy]
            rintro rfl
            exact hnew (List.contains_iff_mem.mpr hx)
          · rcases List.mem_append.mp hmem with hmem | hmem
            · exact .inl hmem
            · rw [List.mem_singleton.mp hmem]
              exact .inr hc
    obtain ⟨h1, h2⟩ := ih _ hstep.1
    refine ⟨h1, fun c hc => ?_⟩
    rcases h2 c hc with hc | ⟨j, hj, hc⟩
    · rcases hstep.2 c hc with hc | hc
      · exact .inl hc
      · exact .inr ⟨i, List.mem_cons_self, hc⟩
    · exact .inr ⟨j, List.mem_cons_of_mem _ hj, hc⟩

theorem inferred_labelled (evidence : PromptEvidence) (text : Text) :
    (inferred U evidence text).1.Nodup ∧
      ∀ c ∈ (inferred U evidence text).1, Labelled U evidence text c := by
  obtain ⟨h1, h2⟩ := inferCite_fold evidence
    ((found (inlineIndexRe U) text).flatMap (bracketLabels U)) ([], []) List.nodup_nil
  refine ⟨h1, fun c hc => ?_⟩
  rcases h2 c hc with hc | ⟨i, hi, hc⟩
  · cases hc
  · obtain ⟨bracket, hb, hi⟩ := List.mem_flatMap.mp hi
    exact ⟨bracket, hb, i, hi, hc⟩

/-- The reset: an abstention carries nothing, any other answer what it offered. -/
theorem parseAnswer_reset (content : Text) (evidence : PromptEvidence) :
    ∃ abstained, (parseAnswer U A content evidence).abstained = abstained ∧
      (parseAnswer U A content evidence).citations =
        (if abstained then [] else (offered U A content evidence).1) ∧
      (parseAnswer U A content evidence).citationsInferred =
        (!abstained && !(offered U A content evidence).2.isEmpty) ∧
      (parseAnswer U A content evidence).inferredIndices =
        (if abstained then [] else (offered U A content evidence).2) := by
  unfold parseAnswer
  exact ⟨_, rfl, rfl, rfl, rfl⟩

theorem parseAnswer_answer (content : Text) (evidence : PromptEvidence) :
    (parseAnswer U A content evidence).answer =
      strip (splitUnauthorizedCitations U (A.setOrder evidence.docIds) evidence.allowedCitations
        (readCitations U A content evidence).1).1 := by
  simp only [parseAnswer]

/-- Nothing in a parsed answer cites what was not supplied. -/
structure NothingFabricated (content : Text) (evidence : PromptEvidence) (r : ParsedAnswer) :
    Prop where
  distinct : r.citations.Nodup
  allowed : ∀ c ∈ r.citations, c ∈ evidence.allowedCitations
  inferred : r.citationsInferred = true →
    ∀ c ∈ r.citations, Labelled U evidence (textProcessed content) c
  abstained : r.abstained = true →
    r.citations = [] ∧ r.citationsInferred = false ∧ r.inferredIndices = []
  body : ∀ line ∈ splitlines r.answer,
    normalizeCitationLine U line ∈ evidence.allowedCitations ∨
      (isCitationShaped U (normalizeCitationLine U line) (A.setOrder evidence.docIds) = false ∧
        isDocnoLedFragment U (normalizeCitationLine U line) (A.setOrder evidence.docIds) = false)

theorem readCitations_tally (content : Text) (evidence : PromptEvidence) :
    (readCitations U A content evidence).2.citations.Nodup ∧
      ∀ c ∈ (readCitations U A content evidence).2.citations, c ∈ evidence.allowedCitations := by
  unfold readCitations
  exact tally_citations U _ _ _

theorem offered_allowed (content : Text) (evidence : PromptEvidence) :
    (offered U A content evidence).1.Nodup ∧
      (∀ c ∈ (offered U A content evidence).1, c ∈ evidence.allowedCitations) ∧
      ((offered U A content evidence).2 ≠ [] → ∀ c ∈ (offered U A content evidence).1,
        Labelled U evidence (textProcessed content) c) := by
  unfold offered
  split
  · obtain ⟨hn, hl⟩ := inferred_labelled U evidence (textProcessed content)
    refine ⟨hn, fun c hc => ?_, fun _ => hl⟩
    obtain ⟨bracket, -, index, -, h⟩ := hl c hc
    exact citeForIndex_allowed h
  · obtain ⟨hn, ha⟩ := readCitations_tally U A content evidence
    dsimp only
    exact ⟨hn, ha, fun hne => (hne rfl).elim⟩

end

end MainframeRag.Agent
