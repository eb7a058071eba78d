import MainframeRag.Lib.Blanking
import MainframeRag.Retrieve.SplitSpelling

/-!
# The cause leg of a diagnosis

`strip_identifiers` blanks the document numbers, message ids and members of the query
(`stripIdentifiers_eq`). Words beside them stay, and no such identifier is left: each was found, and
what a blank cuts off was at a word edge before (`diagnostic_cause_leg`). This needs a query whose
characters keep their kind in upper case, since places of the upper-cased copy are used in the query.
Completion codes are not blanked, and a blank stays inside a word (`parenthesized_id`).
-/

namespace MainframeRag.Retrieve.Split

open PyText Regex Regex.Pattern Words Blanking
open Agent (lit wordCi wordEdge oneOf upper digits docNumber docBase)
open Screen (CharData)

/-! ## Families of identifiers -/

section

variable (U : CharTables)

/-- The pattern finds the words of `P` between word edges, which are solid. -/
structure Finds (re : Pattern Char) (P : Text → Prop) : Prop where
  solid : ∀ w, P w → Solid isSpace w
  span : ∀ t, ∀ cut ∈ spans re t, cut.2 ≤ t.length ∧
    OccursAt U.isWord P t (t.take cut.1) (spanText t cut.1 cut.2) (t.drop cut.2)
  covers : ∀ t x w y, OccursAt U.isWord P t x w y → covered (spans re t) x.length = true

def IsFamily (re : Pattern Char) : Prop := ∃ P, Finds U re P

/-- Blanks are no word characters and decimals no blanks, and a blank has no upper case. -/
structure TellsBlanks : Prop where
  word : ∀ c, isSpace c = true → U.isWord c = false
  decimal : ∀ c, U.isDecimal c = true → isSpace c = false
  upper : U.upper ' ' = [' ']

/-- In upper case the character is one character of the same kind. -/
def KeepsKind (c : Char) : Prop :=
  ∃ d, U.upper c = [d] ∧ U.isWord d = U.isWord c ∧ isSpace d = isSpace c

/-- In upper case every character is one character of the same kind. -/
def Steady (t : Text) : Prop := ∀ c ∈ t, KeepsKind U c

/-- The tokens of document numbers, message ids and members, typed in any case. -/
def identifierTokens (query : Text) : List Span :=
  spans (docnoRe U) query ++ spans (msgRe U) query ++ spans (memberRe U) query ++
    spans (docnoRe U) (upperText U query) ++ spans (msgRe U) (upperText U query) ++
    spans (memberQueryRe U) query

end

section

variable {U : CharTables}

theorem finds_wholeWord {p : Pattern Char} {P : Text → Prop} (hp : p.Words P)
    (hsolid : ∀ w, P w → Solid isSpace w) : Finds U (wholeWord U p) P where
  solid := hsolid
  span t cut hcut := by
    obtain ⟨hle, hin, hrun⟩ := mem_spans hcut
    obtain ⟨hstart, hread, hstop⟩ := runs_wholeWord hrun
    obtain ⟨w, hw, ha⟩ := (hp _ _).mp hread
    rw [ha.unique (along_spanText hle)] at hw
    rw [edgeHere, List.head?_reverse] at hstart hstop
    refine ⟨hin, ?_, hw, ?_, ?_⟩
    · rw [spanText_append_drop hle, List.take_append_drop]
    · rwa [spanText_append_drop hle]
    · rwa [take_append_spanText hle]
  covers t x w y h := by
    have heats : (wholeWord U p).Eats := by
      intro pl e he
      obtain ⟨v, hv, ha⟩ := (hp _ _).mp (runs_wholeWord he).2.1
      rw [ha.rest, List.length_append]
      exact Nat.lt_add_of_pos_left (List.length_pos_iff.mpr (hsolid v hv).1)
    have hstart : edgeHere U ⟨x.reverse, w ++ y⟩ := by
      rw [edgeHere, List.head?_reverse]
      exact h.start
    have hstop : edgeHere U ⟨w.reverse ++ x.reverse, y⟩ := by
      rw [edgeHere, ← List.reverse_append, List.head?_reverse]
      exact h.stop
    rw [h.text]
    exact covered_of_runs heats (List.ne_nil_of_mem (mem_runs_wholeWord.mpr
      ⟨hstart, (hp _ _).mpr ⟨w, h.reads, rfl, rfl⟩, hstop⟩))

theorem family_of_reads {p : Pattern Char} (hp : Reads (isSpace · = false) p) (heats : p.Eats) :
    IsFamily U (wholeWord U p) := by
  obtain ⟨P, hP, hsolid⟩ := hp.solid heats
  exact ⟨P, finds_wholeWord hP hsolid⟩

/-- A printable ASCII character. -/
theorem isSpace_printable {c : Char} (h : 33 ≤ c.toNat ∧ c.toNat ≤ 126) : isSpace c = false := by
  rw [← Bool.not_eq_true]
  intro hc
  simp only [isSpace, Bool.or_eq_true, Bool.and_eq_true, decide_eq_true_eq, beq_iff_eq] at hc
  omega

theorem isSpace_letter {c : Char} (h : c.isAlpha = true) : isSpace c = false := by
  simp only [Char.isAlpha, Char.isUpper, Char.isLower, Bool.or_eq_true, Bool.and_eq_true,
    decide_eq_true_eq, UInt32.le_iff_toNat_le, ge_iff_le] at h
  have hrange : (65 ≤ c.toNat ∧ c.toNat ≤ 90) ∨ (97 ≤ c.toNat ∧ c.toNat ≤ 122) := h
  exact isSpace_printable (by omega)

theorem reads_upper : Reads (isSpace · = false) upper :=
  .one fun c hc => by
    simp only [Bool.and_eq_true, decide_eq_true_eq] at hc
    have hlow : 65 ≤ c.toNat := hc.1
    have hhigh : c.toNat ≤ 90 := hc.2
    exact isSpace_printable (by omega)

theorem reads_lit {t : String} (h : (t.toList.all fun c => !isSpace c) = true) :
    Reads (isSpace · = false) (lit t) :=
  .word fun c hc => by simpa using List.all_eq_true.mp h c hc

theorem reads_digits (hU : TellsBlanks U) (n : Nat) : Reads (isSpace · = false) (digits U n) :=
  .exactly n (.one hU.decimal)

theorem docnoRe_family (hU : TellsBlanks U) : IsFamily U (docnoRe U) := by
  have hdash : Reads (isSpace · = false) (lit "-") := reads_lit (by decide)
  have hbase : Reads (isSpace · = false) (docBase U) := .row (by
    simp only [List.forall_mem_cons, List.not_mem_nil, false_implies, implies_true, and_true]
    exact ⟨.exactly 2 reads_upper, .upTo 2 reads_upper, reads_digits hU 2, hdash, reads_digits hU 4⟩)
  refine family_of_reads (.row ?_) (.first (.first (.first (.one _) _) _) _)
  simp only [List.forall_mem_cons, List.not_mem_nil, false_implies, implies_true, and_true]
  refine ⟨hbase, .opt (.row ?_)⟩
  simp only [List.forall_mem_cons, List.not_mem_nil, false_implies, implies_true, and_true]
  exact ⟨hdash, reads_digits hU 2⟩

theorem reads_classicId (hU : TellsBlanks U) (n : Nat) :
    Reads (isSpace · = false) (classicId U n) := by
  refine .row ?_
  simp only [List.forall_mem_cons, List.not_mem_nil, false_implies, implies_true, and_true]
  exact ⟨.exactly n reads_upper, reads_digits hU 2, .upTo 3 (.one hU.decimal), reads_upper⟩

theorem msgRe_family (hU : TellsBlanks U) : IsFamily U (msgRe U) := by
  refine family_of_reads (.alt (reads_classicId hU 3) (.alt (.row ?_) (.alt (.row ?_)
    (reads_classicId hU 4)))) (.alt (.first (.first (.one _) _) _) (.alt ?_ (.alt ?_
    (.first (.first (.one _) _) _))))
  · simp only [List.forall_mem_cons, List.not_mem_nil, false_implies, implies_true, and_true]
    exact ⟨reads_lit (by decide), .upTo 2 reads_upper, reads_digits hU 4, .upTo 1 (.one hU.decimal)⟩
  · simp only [List.forall_mem_cons, List.not_mem_nil, false_implies, implies_true, and_true]
    exact ⟨reads_lit (by decide), reads_digits hU 3, .upTo 1 (.one hU.decimal), .opt reads_upper⟩
  · exact .second _ (.second _ (.first (.first (.one _) _) _))
  · exact .second _ (.first (.first (.one _) _) _)

theorem memberRe_family (hU : TellsBlanks U) : IsFamily U (memberRe U) := by
  refine family_of_reads (.row ?_) (.first (.first (.one _) _) _)
  simp only [List.forall_mem_cons, List.not_mem_nil, false_implies, implies_true, and_true]
  exact ⟨.exactly 3 reads_upper, .upTo 5 reads_upper,
    .alt (reads_lit (by decide)) (reads_digits hU 2)⟩

theorem memberQueryRe_family (hU : TellsBlanks U) : IsFamily U (memberQueryRe U) := by
  have hletter : Reads (isSpace · = false) (one Char.isAlpha) := .one fun _ => isSpace_letter
  have hx : Reads (isSpace · = false) (oneOf "xX") := .one fun c hc => by
    have hxs : ("xX".toList.all fun c => !isSpace c) = true := by decide
    simpa using List.all_eq_true.mp hxs c (List.contains_iff_mem.mp hc)
  refine family_of_reads (.row ?_) (.first (.first (.one _) _) _)
  simp only [List.forall_mem_cons, List.not_mem_nil, false_implies, implies_true, and_true]
  exact ⟨.exactly 3 hletter, .upTo 5 hletter, .alt (.exactly 2 hx) (reads_digits hU 2)⟩

/-! ## Upper case -/

/-- The upper case of a character that keeps its kind. -/
def up (U : CharTables) (c : Char) : Char := (U.upper c).headD c

theorem up_spec {c : Char} (h : KeepsKind U c) :
    U.upper c = [up U c] ∧ U.isWord (up U c) = U.isWord c ∧ isSpace (up U c) = isSpace c := by
  obtain ⟨d, hd, hword, hspace⟩ := h
  have hup : up U c = d := by rw [up, hd, List.headD_cons]
  exact ⟨hup ▸ hd, hup ▸ hword, hup ▸ hspace⟩

theorem upperText_steady {t : Text} (ht : Steady U t) : upperText U t = t.map (up U) := by
  induction t with
  | nil => rfl
  | cons c t ih =>
    obtain ⟨hc, ht⟩ := List.forall_mem_cons.mp ht
    rw [upperText, List.flatMap_cons, (up_spec hc).1, List.map_cons, ← ih ht]
    rfl

/-! ## Tokens -/

theorem fenced {t : Text} {re : Pattern Char} (hre : IsFamily U re) {cut : Span}
    (hcut : cut ∈ spans re t) : cut.2 ≤ t.length ∧
      Solid isSpace (spanText t cut.1 cut.2) ∧ edge U.isWord t cut.1 ∧ edge U.isWord t cut.2 := by
  obtain ⟨P, hP⟩ := hre
  obtain ⟨hin, hoccurs⟩ := hP.span t cut hcut
  have hsolid := hP.solid _ hoccurs.reads
  have hle : cut.1 ≤ cut.2 := by
    by_contra hlt
    exact hsolid.1 (List.drop_of_length_le ((List.length_take_le _ _).trans (by omega)))
  have hstart := hoccurs.start
  have hstop := hoccurs.stop
  rw [spanText_append_drop hle] at hstart
  rw [take_append_spanText hle] at hstop
  exact ⟨hin, hsolid, hstart, hstop⟩

/-- A span of the upper-cased copy is one of the text. -/
theorem fenced_upper {t : Text} (ht : Steady U t) {re : Pattern Char} (hre : IsFamily U re)
    {cut : Span} (hcut : cut ∈ spans re (upperText U t)) : cut.2 ≤ t.length ∧
      Solid isSpace (spanText t cut.1 cut.2) ∧ edge U.isWord t cut.1 ∧ edge U.isWord t cut.2 := by
  rw [upperText_steady ht] at hcut
  obtain ⟨hin, ⟨hne, hsolid⟩, hstart, hstop⟩ := fenced hre hcut
  have hword : ∀ c ∈ t, U.isWord (up U c) = U.isWord c := fun c hc => (up_spec (ht c hc)).2.1
  rw [List.length_map] at hin
  rw [spanText_map] at hne hsolid
  refine ⟨hin, ⟨fun h => hne (by rw [h]; rfl), fun c hc => ?_⟩, (edge_map hword _).mp hstart,
    (edge_map hword _).mp hstop⟩
  have hmem : c ∈ t := List.mem_of_mem_take (List.mem_of_mem_drop hc)
  rw [← (up_spec (ht c hmem)).2.2]
  exact hsolid _ (List.mem_map_of_mem hc)

theorem mem_identifierTokens {query : Text} {cut : Span} : cut ∈ identifierTokens U query ↔
    (cut ∈ spans (docnoRe U) query ∨ cut ∈ spans (msgRe U) query ∨ cut ∈ spans (memberRe U) query) ∨
      (cut ∈ spans (docnoRe U) (upperText U query) ∨ cut ∈ spans (msgRe U) (upperText U query)) ∨
        cut ∈ spans (memberQueryRe U) query := by
  simp only [identifierTokens, List.mem_append]
  tauto

/-- Tokens are solid and end at word edges. -/
theorem tokens_fenced (hU : TellsBlanks U) {query : Text} (hq : Steady U query) {cut : Span}
    (hcut : cut ∈ identifierTokens U query) : cut.2 ≤ query.length ∧
      Solid isSpace (spanText query cut.1 cut.2) ∧ edge U.isWord query cut.1 ∧
        edge U.isWord query cut.2 := by
  rcases mem_identifierTokens.mp hcut with (h | h | h) | (h | h) | h
  · exact fenced (docnoRe_family hU) h
  · exact fenced (msgRe_family hU) h
  · exact fenced (memberRe_family hU) h
  · exact fenced_upper hq (docnoRe_family hU) h
  · exact fenced_upper hq (msgRe_family hU) h
  · exact fenced (memberQueryRe_family hU) h

theorem proper_of_solid {t : Text} {i j : Nat} (h : Solid isSpace (spanText t i j)) : i < j := by
  by_contra hlt
  exact h.1 (List.drop_of_length_le ((List.length_take_le _ _).trans (Nat.not_lt.mp hlt)))

/-- What is left of a query without its tokens. -/
theorem stripIdentifiers_eq (hU : TellsBlanks U) {query : Text} (hq : Steady U query) :
    stripIdentifiers U query =
      joinWords (splitText (blanked ' ' (identifierTokens U query) query)) := by
  have hmem : ∀ cut, cut ∈ identifierSpans U query ↔ cut ∈ identifierTokens U query := by
    intro cut
    rw [identifierSpans, List.mem_insertionSort, identifierTokens]
  have hcovered : covered (identifierSpans U query) = covered (identifierTokens U query) := by
    funext i
    rw [Bool.eq_iff_iff, covered_iff, covered_iff]
    simp only [hmem]
  have hblanked : blanked ' ' (identifierSpans U query) query =
      blanked ' ' (identifierTokens U query) query := by
    rw [blanked, hcovered]
    rfl
  have hsorted : (identifierSpans U query).Pairwise fun c d => c.1 ≤ d.1 := by
    refine (List.pairwise_insertionSort (fun a b : Span => toLex a ≤ toLex b) _).imp fun h => ?_
    rcases Prod.Lex.toLex_le_toLex.mp h with h | h
    · exact h.le
    · exact h.1.le
  have hcuts : ∀ cut ∈ identifierSpans U query, cut.1 < cut.2 ∧ cut.2 ≤ query.length := by
    intro cut hcut
    obtain ⟨hin, hsolid, -⟩ := tokens_fenced hU hq ((hmem cut).mp hcut)
    exact ⟨proper_of_solid hsolid, hin⟩
  have hpieces : ∀ pos cuts, identifierPieces query pos cuts = parts query pos cuts := by
    intro pos cuts
    induction cuts generalizing pos with
    | nil => rfl
    | cons cut cuts ih => rw [identifierPieces, parts, ih]
  have hwords : splitText (joinWords (identifierPieces query 0 (identifierSpans U query))) =
      splitText (blanked ' ' (identifierTokens U query) query) := by
    rw [splitText_joinWords, hpieces, ← hblanked]
    exact words_parts isSpace_blank hsorted hcuts
  unfold stripIdentifiers
  dsimp only
  split
  · next hnil =>
    rw [hnil] at hwords
    rw [← hwords, splitText_joinWords, identifierPieces, List.flatMap_cons, List.flatMap_nil,
      List.append_nil]
    rfl
  · rw [hwords]

/-! ## The leg -/

theorem mem_joinWords {ws : List Text} {c : Char} (h : c ∈ joinWords ws) :
    c = ' ' ∨ ∃ w ∈ ws, c ∈ w := by
  induction ws with
  | nil => cases h
  | cons w ws ih =>
    cases ws with
    | nil => exact .inr ⟨w, List.mem_cons_self, by simpa [joinWords] using h⟩
    | cons v ws =>
      rw [joinWords, List.intercalate_cons_cons, List.append_assoc] at h
      rcases List.mem_append.mp h with h | h
      · exact .inr ⟨w, List.mem_cons_self, h⟩
      · rcases List.mem_append.mp h with h | h
        · exact .inl (List.mem_singleton.mp h)
        · exact (ih h).imp_right fun ⟨u, hu, hc⟩ => ⟨u, List.mem_cons_of_mem w hu, hc⟩

theorem mem_blanked {cuts : List Span} {t : Text} {c : Char} (h : c ∈ blanked ' ' cuts t) :
    c = ' ' ∨ c ∈ t := by
  obtain ⟨i, hi⟩ := List.mem_iff_getElem?.mp h
  rw [getElem?_blanked] at hi
  obtain ⟨d, hd, rfl⟩ := Option.map_eq_some_iff.mp hi
  split
  · exact .inl rfl
  · exact .inr (List.mem_of_getElem? hd)

/-- The leg keeps the kinds of its characters, too. -/
theorem steady_strip (hU : TellsBlanks U) {query : Text} (hq : Steady U query) :
    Steady U (stripIdentifiers U query) := by
  have hblank : KeepsKind U ' ' := ⟨' ', hU.upper, rfl, rfl⟩
  intro c hc
  rw [stripIdentifiers_eq hU hq] at hc
  rcases mem_joinWords hc with rfl | ⟨w, hw, hc⟩
  · exact hblank
  · rcases mem_blanked (mem_of_mem_words hw hc) with rfl | hc
    · exact hblank
    · exact hq c hc

theorem splitText_strip_identifiers (hU : TellsBlanks U) {query : Text} (hq : Steady U query) :
    splitText (stripIdentifiers U query) =
      splitText (blanked ' ' (identifierTokens U query) query) := by
  rw [stripIdentifiers_eq hU hq, splitText_joined (.refl _)]

theorem spans_eq_nil {re : Pattern Char} {P : Text → Prop} (hre : Finds U re P) {t : Text}
    (h : ¬ Occurs U.isWord P t) : spans re t = [] :=
  List.eq_nil_iff_forall_not_mem.mpr fun cut hcut => h ⟨_, _, _, (hre.span t cut hcut).2⟩

theorem covered_mono {cuts more : List Span} (h : ∀ cut ∈ cuts, cut ∈ more) {i : Nat}
    (hi : covered cuts i = true) : covered more i = true := by
  obtain ⟨cut, hcut, hin⟩ := covered_iff.mp hi
  exact covered_iff.mpr ⟨cut, h cut hcut, hin⟩

/-- A family whose tokens are blanked is not in the leg. -/
theorem strip_unnamed (hU : TellsBlanks U) {query : Text} (hq : Steady U query) {re : Pattern Char}
    (hre : IsFamily U re) (htokens : ∀ cut ∈ spans re query, cut ∈ identifierTokens U query) :
    spans re (stripIdentifiers U query) = [] := by
  obtain ⟨P, hP⟩ := hre
  refine spans_eq_nil hP fun h => ?_
  refine not_occurs_blanked hP.solid isSpace_blank hU.word
    (fun cut hcut => (tokens_fenced hU hq hcut).2.2)
    (fun x w y hat => covered_mono htokens (hP.covers query x w y hat))
    (h.of_words_eq hP.solid hU.word (splitText_strip_identifiers hU hq))

theorem strip_unnamed_upper (hU : TellsBlanks U) {query : Text} (hq : Steady U query)
    {re : Pattern Char} (hre : IsFamily U re)
    (htokens : ∀ cut ∈ spans re (upperText U query), cut ∈ identifierTokens U query) :
    spans re (upperText U (stripIdentifiers U query)) = [] := by
  obtain ⟨P, hP⟩ := hre
  have hkind : ∀ c, KeepsKind U c → U.isWord (up U c) = U.isWord c := fun c hc => (up_spec hc).2.1
  have hsolid : ∀ w, P (w.map (up U)) ∧ Steady U w → Solid isSpace w := by
    rintro w ⟨hw, hsteady⟩
    obtain ⟨hne, hall⟩ := hP.solid _ hw
    refine ⟨fun h => hne (by rw [h]; rfl), fun c hc => ?_⟩
    rw [← (up_spec (hsteady c hc)).2.2]
    exact hall _ (List.mem_map_of_mem hc)
  refine spans_eq_nil hP fun h => ?_
  rw [upperText_steady (steady_strip hU hq)] at h
  have hleg := Occurs.of_map hkind (steady_strip hU hq) h
  refine not_occurs_blanked hsolid isSpace_blank hU.word
    (fun cut hcut => (tokens_fenced hU hq hcut).2.2) (fun x w y hat => ?_)
    (hleg.of_words_eq hsolid hU.word (splitText_strip_identifiers hU hq))
  -- an occurrence in the copy is at the same place
  have hmap : OccursAt U.isWord P (query.map (up U)) (x.map (up U)) (w.map (up U))
      (y.map (up U)) :=
    OccursAt.map (fun c hc => hkind c (hq c hc)) ⟨hat.text, hat.reads.1, hat.start, hat.stop⟩
  have hcovered := hP.covers _ _ _ _ hmap
  rw [← upperText_steady hq, List.length_map] at hcovered
  exact covered_mono htokens hcovered

/-- No identifier of the three families is left in the leg. -/
theorem strip_no_tokens (hU : TellsBlanks U) {query : Text} (hq : Steady U query) :
    identifierTokens U (stripIdentifiers U query) = [] := by
  rw [identifierTokens,
    strip_unnamed hU hq (docnoRe_family hU) fun _ h => mem_identifierTokens.mpr (.inl (.inl h)),
    strip_unnamed hU hq (msgRe_family hU) fun _ h => mem_identifierTokens.mpr (.inl (.inr (.inl h))),
    strip_unnamed hU hq (memberRe_family hU)
      fun _ h => mem_identifierTokens.mpr (.inl (.inr (.inr h))),
    strip_unnamed_upper hU hq (docnoRe_family hU)
      fun _ h => mem_identifierTokens.mpr (.inr (.inl (.inl h))),
    strip_unnamed_upper hU hq (msgRe_family hU)
      fun _ h => mem_identifierTokens.mpr (.inr (.inl (.inr h))),
    strip_unnamed hU hq (memberQueryRe_family hU)
      fun _ h => mem_identifierTokens.mpr (.inr (.inr h))]
  rfl

/-- Without tokens nothing but completion codes is parsed. -/
theorem parseQuery_of_no_tokens {t : Text} (h : identifierTokens U t = []) :
    (parseQuery U t).docIds = [] ∧ (parseQuery U t).messageIds = [] ∧
      (parseQuery U t).members = [] := by
  simp only [identifierTokens, List.append_eq_nil_iff] at h
  obtain ⟨⟨⟨⟨⟨hdoc, hmsg⟩, hmember⟩, hdocUp⟩, hmsgUp⟩, hquery⟩ := h
  refine ⟨?_, ?_, ?_⟩
  · rw [parseQuery, findDocFilterIds, findDocFilterIds, hdoc, hdocUp]
    rfl
  · rw [parseQuery, findMessageIds, findMessageIds, found_eq_nil hmsg, found_eq_nil hmsgUp]
    rfl
  · rw [parseQuery, findMembersFolded, findMembers, found_eq_nil hmember, found_eq_nil hquery]
    rfl

end

/-- The leg of a query that asks for a diagnosis. -/
structure CauseLeg (U : CharTables) (query leg : Text) : Prop where
  unnamed : (parseQuery U leg).docIds = [] ∧ (parseQuery U leg).messageIds = [] ∧
    (parseQuery U leg).members = []
  /-- where one of these identifiers is in the query, the leg is another text -/
  distinct : (parseQuery U query).docIds ≠ [] ∨ (parseQuery U query).messageIds ≠ [] ∨
    (parseQuery U query).members ≠ [] → leg ≠ joinWords (splitText query)
  /-- the characters of the tokens are blanked, and white space is collapsed -/
  deleted : leg = joinWords (splitText (blanked ' ' (identifierTokens U query) query))
  /-- words that no token touches stay, in order and as often as they stand there -/
  kept : ∀ ps : List Span, ps.Pairwise (fun p p' => p.2 ≤ p'.1) →
    (∀ p ∈ ps, WordAt isSpace query p ∧
      ∀ i, p.1 ≤ i → i < p.2 → covered (identifierTokens U query) i = false) →
    (ps.map fun p => spanText query p.1 p.2).Sublist (splitText leg)

section

variable {U : CharTables}

theorem causeLeg_strip (hU : TellsBlanks U) {query : Text} (hq : Steady U query) :
    CauseLeg U query (stripIdentifiers U query) where
  unnamed := parseQuery_of_no_tokens (strip_no_tokens hU hq)
  distinct hnamed heq := by
    have hne : identifierTokens U query ≠ [] := by
      intro hnil
      obtain ⟨hdoc, hmsg, hmember⟩ := parseQuery_of_no_tokens hnil
      rcases hnamed with h | h | h
      · exact h hdoc
      · exact h hmsg
      · exact h hmember
    obtain ⟨cut, hcut⟩ := List.exists_mem_of_ne_nil _ hne
    obtain ⟨hin, hsolid, -⟩ := tokens_fenced hU hq hcut
    have hlt := proper_of_solid hsolid
    have hget : query[cut.1]? = some query[cut.1] := List.getElem?_eq_getElem (by omega)
    have hspace : isSpace query[cut.1] = false :=
      hsolid.2 _ (mem_spanText.mpr ⟨cut.1, Nat.le.refl, hlt, hget⟩)
    have hcovered : covered (identifierTokens U query) cut.1 = true :=
      covered_iff.mpr ⟨cut, hcut, Nat.le.refl, hlt⟩
    refine words_blanked_ne isSpace_blank hcovered hget hspace ?_
    have hwords := splitText_strip_identifiers hU hq
    rw [heq, splitText_joined (.refl _)] at hwords
    exact hwords.symm
  deleted := stripIdentifiers_eq hU hq
  kept ps hps hword := by
    rw [splitText_strip_identifiers hU hq]
    exact words_untouched isSpace_blank hps (fun p hp => (hword p hp).1) fun p hp => (hword p hp).2

/-- The cause leg of a diagnosis keeps everything but document numbers, message ids and members. -/
theorem diagnostic_cause_leg (hU : TellsBlanks U) (S : CharData) {query : Text}
    (hq : Steady U query) {comparativeEnabled diagnosticEnabled : Bool} {paths : List Text}
    (h : splitQuery U S query comparativeEnabled diagnosticEnabled = some (paths, .diagnostic)) :
    ∃ leg, paths = [query, leg] ∧ CauseLeg U query leg := by
  refine ⟨stripIdentifiers U query, ?_, causeLeg_strip hU hq⟩
  unfold splitQuery at h
  split at h
  · cases h
  · split at h
    · cases h
    · dsimp only at h
      obtain ⟨o, -, ho⟩ := Option.map_eq_some_iff.mp h
      cases o with
      | some subs => cases ho
      | none =>
        dsimp only [diagnosticPaths] at ho
        split at ho
        · cases ho
          rfl
        · cases ho

end

/-! ### Three diagnoses -/

theorem asciiTables_tellsBlanks : TellsBlanks asciiTables where
  word := asciiTables_readsMarkers.blank
  decimal c hc := by
    simp only [asciiTables, Char.isDigit, Bool.and_eq_true, decide_eq_true_eq,
      UInt32.le_iff_toNat_le, ge_iff_le] at hc
    have hrange : 48 ≤ c.toNat ∧ c.toNat ≤ 57 := hc
    exact isSpace_printable (by omega)
  upper := by decide

def abendQuery : Text := "IEA500I abend, which recovery applies?".toList

theorem abendQuery_steady : Steady asciiTables abendQuery := by
  have hkinds : (abendQuery.all fun c => asciiTables.isWord c.toUpper = asciiTables.isWord c &&
      isSpace c.toUpper = isSpace c) = true := by decide +kernel
  intro c hc
  have hkind := List.all_eq_true.mp hkinds c hc
  simp only [Bool.and_eq_true, decide_eq_true_eq] at hkind
  exact ⟨c.toUpper, rfl, hkind⟩

/-- What the screen reads of the queries below. -/
def abendReadings : List Text :=
  ["iea500i abend which recovery applies", "s0c4 abend which recovery applies"].map String.toList

theorem abend_passes {query read : Text} (hmem : read ∈ abendReadings)
    (hread : ∀ glue ∈ Screen.glues, Screen.normalize Screen.plainData query glue = read) :
    Screen.screenQuery Screen.plainData query ≠ .trap := by
  have hpass : ∀ rx ∈ Screen.trapRes Screen.plainData, ∀ t ∈ abendReadings,
      search rx t = false := by
    intro rx hrx
    iterate 13
      rcases List.mem_cons.mp hrx with rfl | hrx
      · decide +kernel
    cases hrx
  rw [Screen.screenQuery_answerable (hread [] (by decide)) (hread [' '] (by decide))
    fun rx hrx => ⟨hpass rx hrx read hmem, hpass rx hrx read hmem⟩]
  simp

theorem abendQuery_split : splitQuery asciiTables Screen.plainData abendQuery true true =
    some ([abendQuery, "abend, which recovery applies?".toList], .diagnostic) := by
  unfold splitQuery
  rw [if_neg (by decide +kernel), if_neg (abend_passes List.mem_cons_self (by decide +kernel))]
  decide +kernel

theorem diagnostic_cause_leg_abend : ∃ leg,
    [abendQuery, "abend, which recovery applies?".toList] = [abendQuery, leg] ∧
      CauseLeg asciiTables abendQuery leg :=
  diagnostic_cause_leg asciiTables_tellsBlanks Screen.plainData abendQuery_steady abendQuery_split

/-- The text without the places in the spans. -/
def deletedText (cuts : List Span) (t : Text) : Text :=
  (t.zipIdx.filter fun p => !covered cuts p.2).map Prod.fst

def parenthesized : Text := "(IEA500I) abend, which recovery applies?".toList

def codeQuery : Text := "S0C4 abend, which recovery applies?".toList

/-- A blank stays where an id is taken out of a word, and a completion code is not taken out. -/
theorem parenthesized_id : (∃ leg, splitQuery asciiTables Screen.plainData parenthesized true true =
      some ([parenthesized, leg], .diagnostic) ∧
    leg ≠ joinWords (splitText (deletedText (identifierTokens asciiTables parenthesized)
      parenthesized))) ∧
    splitQuery asciiTables Screen.plainData codeQuery true true =
      some ([codeQuery, codeQuery], .diagnostic) ∧
    (parseQuery asciiTables codeQuery).systemCodes ≠ [] := by
  refine ⟨⟨"( ) abend, which recovery applies?".toList, ?_, ?_⟩, ?_, ?_⟩
  · unfold splitQuery
    rw [if_neg (by decide +kernel), if_neg (abend_passes List.mem_cons_self (by decide +kernel))]
    decide +kernel
  · decide +kernel
  · unfold splitQuery
    rw [if_neg (by decide +kernel),
      if_neg (abend_passes (List.mem_cons_of_mem _ List.mem_cons_self) (by decide +kernel))]
    decide +kernel
  · decide +kernel

end MainframeRag.Retrieve.Split
