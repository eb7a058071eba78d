import MainframeRag.Agent.Cites
import MainframeRag.Lib.Cutting

/-!
# Fixed points of the citation normalizer

When `normalize_citation_line` leaves its own result alone (`normalize_idempotent_iff`). Every step
of a pass strips what it leaves but the one that peels a markdown link, so the result is stripped
just when no pass leaves a label with a blank at an end (`TightLinks`).
-/

namespace MainframeRag.Agent

open PyText Regex

/-! ## List markers -/

def isBullet (c : Char) : Bool := "-*•".toList.contains c

def isClose (c : Char) : Bool := ".)".toList.contains c

inductive Marker
  | bullet (mark : Char) (gap : Text)
  | number (digits : Text) (close : Char) (gap : Text)
  | footnote (digits colon gap : Text)

def Marker.text : Marker → Text
  | bullet mark gap => mark :: gap
  | number digits close gap => digits ++ close :: gap
  | footnote digits colon gap => '[' :: (digits ++ ']' :: (colon ++ gap))

/-- The markers of `_MARKER_RE`. -/
def Marker.Valid (U : CharTables) : Marker → Prop
  | bullet mark gap => isBullet mark = true ∧ gap ≠ [] ∧ blank gap
  | number digits close gap => (digits ≠ [] ∧ ∀ c ∈ digits, U.isDecimal c = true) ∧
      isClose close = true ∧ gap ≠ [] ∧ blank gap
  | footnote digits colon gap => (digits ≠ [] ∧ ∀ c ∈ digits, U.isDecimal c = true) ∧
      (colon = [] ∨ colon = [':']) ∧ blank gap

section

open Regex.Pattern

variable (U : CharTables)

/-- A text that starts with a list marker. -/
def MarkerStart (t : Text) : Prop := ∃ m : Marker, m.Valid U ∧ m.text <+: t

/-- One list marker of `_MARKER_RE`. -/
def oneMarker : Pattern Char :=
  alt (row [oneOf "-*•", blanks1])
    (alt (row [plus (one U.isDecimal), oneOf ".)", blanks1])
      (row [lit "[", plus (one U.isDecimal), lit "]", opt (lit ":"), blanks]))

theorem markerRe_eq : markerRe U = plus (oneMarker U) := rfl

end

variable {U : CharTables}

theorem oneMarker_words :
    (oneMarker U).Words (fun w => ∃ m : Marker, m.Valid U ∧ w = m.text) := by
  have hbullet := (Pattern.Words.one isBullet).seq
    ((Pattern.Words.plus isSpace).seq Pattern.Words.empty)
  have hnumber := (Pattern.Words.plus U.isDecimal).seq ((Pattern.Words.one isClose).seq
    ((Pattern.Words.plus isSpace).seq Pattern.Words.empty))
  have hfootnote := (Pattern.Words.word "[".toList).seq ((Pattern.Words.plus U.isDecimal).seq
    ((Pattern.Words.word "]".toList).seq ((Pattern.Words.word ":".toList).opt.seq
      ((Pattern.Words.many false isSpace).seq Pattern.Words.empty))))
  refine Pattern.Words.congr (hbullet.alt (hnumber.alt hfootnote)) fun w => ?_
  constructor
  · rintro (⟨_, _, rfl, ⟨c, rfl, hc⟩, g, _, rfl, ⟨hne, hg⟩, rfl⟩ |
      ⟨d, _, rfl, hd, _, _, rfl, ⟨c, rfl, hc⟩, g, _, rfl, ⟨hne, hg⟩, rfl⟩ |
      ⟨_, _, rfl, rfl, d, _, rfl, hd, _, _, rfl, rfl, n, _, rfl, hn, g, _, rfl, hg, rfl⟩)
    · exact ⟨.bullet c g, ⟨hc, hne, hg⟩, by simp [Marker.text]⟩
    · exact ⟨.number d c g, ⟨hd, hc, hne, hg⟩, by simp [Marker.text]⟩
    · exact ⟨.footnote d n g, ⟨hd, hn, hg⟩, by simp [Marker.text]⟩
  · rintro ⟨m, hm, rfl⟩
    cases m with
    | bullet c g =>
      obtain ⟨hc, hne, hg⟩ := hm
      exact .inl ⟨[c], g, rfl, ⟨c, rfl, hc⟩, g, [], by simp, ⟨hne, hg⟩, rfl⟩
    | number d c g =>
      obtain ⟨hd, hc, hne, hg⟩ := hm
      exact .inr (.inl ⟨d, c :: g, rfl, hd, [c], g, rfl, ⟨c, rfl, hc⟩, g, [], by simp, ⟨hne, hg⟩, rfl⟩)
    | footnote d n g =>
      obtain ⟨hd, hn, hg⟩ := hm
      exact .inr (.inr ⟨['['], _, rfl, rfl, d, _, rfl, hd, [']'], _, rfl, rfl, n, g, rfl, hn, g, [],
        by simp, hg, rfl⟩)

theorem oneMarker_eats : (oneMarker U).Eats :=
  .alt (.first (.one _) _) (.alt (.first (.first (.one _) _) _)
    (.second _ (.first (.first (.one _) _) _)))

theorem markerStart_runs {b t : Text} : MarkerStart U t ↔ (oneMarker U).runs ⟨b, t⟩ ≠ [] := by
  constructor
  · rintro ⟨m, hm, r, rfl⟩
    exact List.ne_nil_of_mem ((oneMarker_words _ ⟨m.text.reverse ++ b, r⟩).mpr
      ⟨m.text, ⟨m, hm, rfl⟩, rfl, rfl⟩)
  · intro h
    obtain ⟨e, he⟩ := List.exists_mem_of_ne_nil _ h
    obtain ⟨w, ⟨m, hm, rfl⟩, ha⟩ := (oneMarker_words _ _).mp he
    exact ⟨m, hm, e.rest, ha.rest.symm⟩

theorem peelMarker_self {t : Text} (h : ¬MarkerStart U t) : peelMarker U t = t := by
  have hnone : (markerRe U).matchAt ⟨[], t⟩ = none := by
    rw [Pattern.matchAt_none]
    have hruns := not_not.mp (mt (markerStart_runs (b := [])).mpr h)
    rw [markerRe_eq, Pattern.plus, Pattern.runs, hruns, List.flatMap_nil]
  rw [peelMarker, Pattern.matchStart, hnone]
  rfl

theorem peelMarker_run {t : Text} (h : MarkerStart U t) : ∃ e, peelMarker U t = e.rest ∧
    (markerRe U).matchAt ⟨[], t⟩ = some e := by
  cases hm : (markerRe U).matchAt ⟨[], t⟩ with
  | none =>
    obtain ⟨m, hm'⟩ := List.exists_mem_of_ne_nil _ ((markerStart_runs (b := [])).mp h)
    have hrun : m ∈ (markerRe U).runs ⟨[], t⟩ :=
      mem_runs_seq.mpr ⟨m, hm', repeatRuns_stop _ _ _ _⟩
    rw [Pattern.matchAt_none.mp hm] at hrun
    cases hrun
  | some e => exact ⟨e, by rw [peelMarker, Pattern.matchStart, hm]; rfl, rfl⟩

/-- Markers are peeled to the last. -/
theorem peelMarker_done (t : Text) : ¬MarkerStart U (peelMarker U t) := by
  by_cases h : MarkerStart U t
  · obtain ⟨e, he, hm⟩ := peelMarker_run h
    obtain ⟨m, -, hstar⟩ := Pattern.matchAt_seq hm
    rw [he]
    intro hstart
    obtain ⟨m', hm'⟩ := List.exists_mem_of_ne_nil _ ((markerStart_runs (b := e.before)).mp hstart)
    exact star_matchAt hstar m' hm' (oneMarker_eats _ m' hm')
  · rw [peelMarker_self h]
    exact h

/-- The preferred run of a marker reads all the blanks behind it. -/
theorem oneMarker_end {pl e : Place Char} (h : (oneMarker U).matchAt pl = some e) :
    ∀ c, e.rest.head? = some c → isSpace c = false := by
  have hplus : ∀ {pl e : Place Char}, (Pattern.row [blanks1]).matchAt pl = some e →
      ∀ c, e.rest.head? = some c → isSpace c = false := by
    intro pl e h
    rw [Pattern.row, List.foldr_cons, List.foldr_nil, Pattern.matchAt_seq_empty] at h
    obtain ⟨m, -, h⟩ := Pattern.matchAt_seq h
    exact star_one_matchAt h
  rcases Pattern.matchAt_alt h with h | h
  · obtain ⟨m, -, h⟩ := Pattern.matchAt_seq h
    exact hplus h
  rcases Pattern.matchAt_alt h with h | h
  · obtain ⟨m, -, h⟩ := Pattern.matchAt_seq h
    obtain ⟨m, -, h⟩ := Pattern.matchAt_seq h
    exact hplus h
  · obtain ⟨m, -, h⟩ := Pattern.matchAt_seq h
    obtain ⟨m, -, h⟩ := Pattern.matchAt_seq h
    obtain ⟨m, -, h⟩ := Pattern.matchAt_seq h
    obtain ⟨m, -, h⟩ := Pattern.matchAt_seq h
    rw [List.foldr_cons, List.foldr_nil, Pattern.matchAt_seq_empty] at h
    exact star_one_matchAt h

theorem peelMarker_head {t : Text} (h : MarkerStart U t) :
    ∀ c, (peelMarker U t).head? = some c → isSpace c = false := by
  obtain ⟨e, he, hm⟩ := peelMarker_run h
  obtain ⟨m, hlast⟩ := plus_matchAt oneMarker_eats hm
  rw [he]
  exact oneMarker_end hlast

theorem peelMarker_suffix (t : Text) : peelMarker U t <:+ t := by
  by_cases h : MarkerStart U t
  · obtain ⟨e, he, hm⟩ := peelMarker_run h
    obtain ⟨w, hw⟩ := runs_along _ _ e (List.mem_of_head? hm)
    rw [he]
    exact ⟨w, hw.rest.symm⟩
  · rw [peelMarker_self h]

/-! ## Labels that keep a blank -/

section

variable (U)

/-- A pass up to its links. -/
def beforeLink (c : Text) : Text := peelPair (peelWrap (peelQuote (peelMarker U c)))

/-- Behind its list markers the text has a blank at an end, and no blockquote that would strip it. -/
def LooseLabel (y : Text) : Prop :=
  strip (peelMarker U y) ≠ peelMarker U y ∧ (peelMarker U y).head? ≠ some '>'

/-- The pass peels no link with a loose label. -/
def TightPass (c : Text) : Prop :=
  peelLink (beforeLink U c) ≠ beforeLink U c → ¬LooseLabel U (peelLink (beforeLink U c))

/-- No pass over the line peels a link with a loose label. -/
def TightLinks (line : Text) : Prop := ∀ k, TightPass U ((normalizePass U)^[k] (strip line))

end

theorem strip_self_iff {t : Text} : strip t = t ↔
    (∀ c, t.head? = some c → isSpace c = false) ∧ ∀ c, t.getLast? = some c → isSpace c = false := by
  constructor
  · intro h
    refine ⟨fun c hc => ?_, fun c hc => strip_getLast (by rw [h]; exact hc)⟩
    cases t with
    | nil => cases hc
    | cons d t =>
      cases hc
      exact strip_head h
  · rintro ⟨hhead, hlast⟩
    rcases List.eq_nil_or_concat' t with rfl | ⟨s, d, rfl⟩
    · rfl
    · have hl : lstrip (s ++ [d]) = s ++ [d] := by
        cases hs : s ++ [d] with
        | nil => rfl
        | cons c u => exact lstrip_of_head (hhead c (by rw [hs]; rfl)) u
      rw [strip, hl, rstrip_of_last (hlast d (by simp))]

/-- What a step changes is stripped. -/
def Strips (f : Text → Text) : Prop := ∀ t, f t = t ∨ strip (f t) = f t

theorem peelQuote_strips : Strips peelQuote := by
  intro t
  unfold peelQuote
  split
  · exact .inr (strip_strip _)
  · exact .inl rfl

theorem peelWrap_strips : Strips peelWrap := by
  intro t
  unfold peelWrap
  split
  · exact .inr (strip_strip _)
  · exact .inl rfl

theorem peelPair_strips : Strips peelPair := by
  intro t
  unfold peelPair
  split
  · exact .inr (strip_strip _)
  · exact .inl rfl

theorem peelBetween_strips (opening closing : Char) : Strips (peelBetween opening closing) := by
  intro t
  unfold peelBetween
  split
  · exact .inr (strip_strip _)
  · exact .inl rfl

theorem Strips.keeps {f : Text → Text} (hf : Strips f) {t : Text} (h : strip t = t) :
    strip (f t) = f t := by
  rcases hf t with he | he
  · rw [he, h]
  · exact he

theorem peelMarker_strip {t : Text} (h : strip t = t) : strip (peelMarker U t) = peelMarker U t := by
  by_cases hstart : MarkerStart U t
  · obtain ⟨w, hw⟩ := peelMarker_suffix (U := U) t
    refine strip_self_iff.mpr ⟨peelMarker_head hstart, fun c hc => ?_⟩
    refine (strip_self_iff.mp h).2 c ?_
    rw [← hw, List.getLast?_append, hc, Option.some_or]
  · rw [peelMarker_self hstart, h]

/-- No step but the markers and the blockquote changes a text with a blank at an end. -/
theorem unstripped_kept {t : Text} (h : strip t ≠ t) : peelWrap t = t ∧ peelPair t = t ∧
    peelLink t = t ∧ peelBetween '<' '>' t = t ∧ peelBetween '(' ')' t = t := by
  have hend : ∃ c, isSpace c = true ∧ (t.head? = some c ∨ t.getLast? = some c) := by
    by_contra hnone
    refine h (strip_self_iff.mpr ⟨fun c hc => ?_, fun c hc => ?_⟩)
    · by_contra hs
      exact hnone ⟨c, by simpa using hs, .inl hc⟩
    · by_contra hs
      exact hnone ⟨c, by simpa using hs, .inr hc⟩
  obtain ⟨c, hc, hend⟩ := hend
  have hends : ∀ a b : Char, isSpace a = false → isSpace b = false →
      ¬(t.head? = some a ∧ t.getLast? = some b) := by
    rintro a b ha hb ⟨hh, hl⟩
    rcases hend with he | he
    · rw [he] at hh
      rw [Option.some.inj hh, ha] at hc
      cases hc
    · rw [he] at hl
      rw [Option.some.inj hl, hb] at hc
      cases hc
  have hwrap : ∀ a, wrapChars.contains a = true → isSpace a = false := by
    have hall : wrapChars.all (fun a => !isSpace a) = true := by decide
    exact fun a ha => by simpa using List.all_eq_true.mp hall a (List.contains_iff_mem.mp ha)
  refine ⟨if_neg ?_, if_neg ?_, if_neg ?_, if_neg ?_, if_neg ?_⟩
  · rintro ⟨-, hsame, hmark⟩
    cases ha : t.head? with
    | none =>
      rw [ha] at hmark
      cases hmark
    | some a =>
      rw [ha] at hmark
      exact hends a a (hwrap a hmark) (hwrap a hmark) ⟨ha, by rw [← hsame, ha]⟩
  · rintro ⟨hlen, hpair⟩
    cases t with
    | nil => simp at hlen
    | cons a t =>
      rw [List.head?_cons, Option.bind_some] at hpair
      have hclose : ∀ b, wrapPair a = some b → isSpace a = false ∧ isSpace b = false := by
        intro b hb
        unfold wrapPair at hb
        split at hb
        · next ha =>
          cases hb
          subst ha
          decide
        · split at hb
          · next ha =>
            cases hb
            subst ha
            decide
          · cases hb
      cases hb : wrapPair a with
      | none =>
        rw [hb] at hpair
        exact absurd hpair.symm (by simp)
      | some b =>
        rw [hb] at hpair
        exact hends a b (hclose b hb).1 (hclose b hb).2 ⟨rfl, hpair.symm⟩
  · exact hends '[' ')' (by decide) (by decide)
  · exact hends '<' '>' (by decide) (by decide)
  · exact hends '(' ')' (by decide) (by decide)

/-- A loose label stays loose. -/
theorem LooseLabel.pass {y : Text} (h : LooseLabel U y) :
    normalizePass U y = peelMarker U y ∧ LooseLabel U (normalizePass U y) := by
  obtain ⟨hends, hquote⟩ := h
  obtain ⟨h1, h2, h3, h4, h5⟩ := unstripped_kept hends
  have hpass : normalizePass U y = peelMarker U y := by
    rw [normalizePass, peelQuote, if_neg hquote, h1, h2, h3, h4, h5]
  refine ⟨hpass, ?_⟩
  rw [hpass, LooseLabel, peelMarker_self (peelMarker_done y)]
  exact ⟨hends, hquote⟩

theorem LooseLabel.passes {y : Text} (h : LooseLabel U y) (k : Nat) :
    LooseLabel U ((normalizePass U)^[k] y) := by
  induction k generalizing y with
  | zero => exact h
  | succ k ih => exact ih h.pass.2

theorem not_loose_of_strip {t : Text} (h : strip t = t) : ¬LooseLabel U t :=
  fun hl => hl.1 (peelMarker_strip h)

/-- A pass without loose labels. -/
theorem TightPass.pass {c : Text} (h : TightPass U c) (hc : ¬LooseLabel U c) :
    ¬LooseLabel U (normalizePass U c) := by
  have hquote : strip (peelQuote (peelMarker U c)) = peelQuote (peelMarker U c) := by
    by_cases hs : strip (peelMarker U c) = peelMarker U c
    · exact peelQuote_strips.keeps hs
    · have hhead : (peelMarker U c).head? = some '>' := by
        by_contra hno
        exact hc ⟨hs, hno⟩
      rw [peelQuote, if_pos hhead]
      exact strip_strip _
  have hbefore : strip (beforeLink U c) = beforeLink U c :=
    peelPair_strips.keeps (peelWrap_strips.keeps hquote)
  have hlabel : ¬LooseLabel U (peelLink (beforeLink U c)) := by
    by_cases hl : peelLink (beforeLink U c) = beforeLink U c
    · rw [hl]
      exact not_loose_of_strip hbefore
    · exact h hl
  have hpass : normalizePass U c =
      peelBetween '(' ')' (peelBetween '<' '>' (peelLink (beforeLink U c))) := rfl
  have hkeep : ∀ {f : Text → Text} {t : Text}, Strips f → ¬LooseLabel U t → ¬LooseLabel U (f t) := by
    intro f t hf ht
    rcases hf t with he | he
    · rwa [he]
    · exact not_loose_of_strip he
  rw [hpass]
  exact hkeep (peelBetween_strips _ _) (hkeep (peelBetween_strips _ _) hlabel)

/-- A pass that peels a loose label leaves it loose. -/
theorem loose_of_not_tight {c : Text} (h : ¬TightPass U c) : LooseLabel U (normalizePass U c) := by
  obtain ⟨-, hlabel⟩ := Classical.not_imp.mp h
  have hloose := not_not.mp hlabel
  have hends : strip (peelLink (beforeLink U c)) ≠ peelLink (beforeLink U c) :=
    fun hs => not_loose_of_strip hs hloose
  obtain ⟨-, -, -, h4, h5⟩ := unstripped_kept hends
  have hpass : normalizePass U c =
      peelBetween '(' ')' (peelBetween '<' '>' (peelLink (beforeLink U c))) := rfl
  rwa [hpass, h4, h5]

/-! ## The normal form of a normal form -/

theorem normalizeFrom_iterate (passes : Nat) (c : Text) :
    normalizeFrom U passes c = (normalizePass U)^[passes] c := by
  induction passes generalizing c with
  | zero => rfl
  | succ passes ih =>
    rw [normalizeFrom, Function.iterate_succ_apply]
    split
    · next h =>
      rw [h]
      exact (Function.iterate_fixed h passes).symm
    · exact ih _

theorem Peels.fixed_comp {f g : Text → Text} (hf : Peels f) (hg : Peels g) {c : Text}
    (h : f (g c) = c) : g c = c ∧ f c = c := by
  have hgc : g c = c := by
    rcases hg c with he | hlt
    · exact he
    · exfalso
      rcases hf (g c) with he | hlt'
      · rw [h] at he
        rw [← he] at hlt
        exact Nat.lt_irrefl _ hlt
      · rw [h] at hlt'
        omega
  rw [hgc] at h
  exact ⟨hgc, h⟩

/-- A line that a pass leaves alone starts with no marker and no blockquote. -/
theorem normalizePass_fixed {c : Text} (h : normalizePass U c = c) :
    peelMarker U c = c ∧ c.head? ≠ some '>' := by
  have hlater : Peels fun c => peelBetween '(' ')' (peelBetween '<' '>' (peelLink (peelPair
      (peelWrap c)))) :=
    (peelBetween_peels '(' ')').comp ((peelBetween_peels '<' '>').comp (peelLink_peels.comp
      (peelPair_peels.comp peelWrap_peels)))
  obtain ⟨hmarker, hrest⟩ := (hlater.comp peelQuote_peels).fixed_comp (peelMarker_peels U) h
  obtain ⟨hquote, -⟩ := hlater.fixed_comp peelQuote_peels hrest
  refine ⟨hmarker, fun hhead => ?_⟩
  rw [peelQuote, if_pos hhead] at hquote
  have hlen := congrArg List.length hquote
  cases c with
  | nil => cases hhead
  | cons d t =>
    cases hhead
    have h1 := strip_length (('>' :: t).dropWhile (· = '>'))
    have h2 : (('>' :: t).dropWhile (· = '>')).length ≤ t.length := by
      rw [List.dropWhile_cons_of_pos (by simp)]
      exact (List.dropWhile_sublist _).length_le
    rw [List.length_cons] at hlen
    omega

theorem strip_of_fixed {c : Text} (h : normalizePass U c = c) (hc : ¬LooseLabel U c) :
    strip c = c := by
  obtain ⟨hmarker, hquote⟩ := normalizePass_fixed h
  by_contra hs
  refine hc ⟨?_, ?_⟩
  · rwa [hmarker]
  · rwa [hmarker]

/-- The result is stripped just when no pass peels a loose label. -/
theorem strip_normalize_iff (line : Text) :
    strip (normalizeCitationLine U line) = normalizeCitationLine U line ↔ TightLinks U line := by
  have hiterate : normalizeCitationLine U line =
      (normalizePass U)^[(strip line).length + 1] (strip line) := normalizeFrom_iterate _ _
  have hfixed : normalizePass U (normalizeCitationLine U line) = normalizeCitationLine U line :=
    normalizeFrom_fixed U (Nat.lt_succ_self _)
  constructor
  · intro hs k
    by_contra hk
    have hloose : ∀ n, k < n → LooseLabel U ((normalizePass U)^[n] (strip line)) := by
      intro n hn
      have hsplit : n = (n - (k + 1)) + (k + 1) := by omega
      rw [hsplit, Function.iterate_add_apply, Function.iterate_succ_apply']
      exact (loose_of_not_tight hk).passes _
    -- the passes past the last change nothing
    have hlast : (normalizePass U)^[k + 1] (normalizeCitationLine U line) =
        normalizeCitationLine U line := Function.iterate_fixed hfixed _
    rw [hiterate, ← Function.iterate_add_apply] at hlast
    have := hloose (k + 1 + ((strip line).length + 1)) (by omega)
    rw [hlast, ← hiterate] at this
    exact not_loose_of_strip hs this
  · intro htight
    have hnot : ∀ k, ¬LooseLabel U ((normalizePass U)^[k] (strip line)) := by
      intro k
      induction k with
      | zero => exact not_loose_of_strip (strip_strip line)
      | succ k ih =>
        rw [Function.iterate_succ_apply']
        exact (htight k).pass ih
    refine strip_of_fixed hfixed ?_
    rw [hiterate]
    exact hnot _

theorem normalize_idempotent_iff (line : Text) :
    normalizeCitationLine U (normalizeCitationLine U line) = normalizeCitationLine U line ↔
      TightLinks U line := by
  rw [normalizeCitationLine_self, ← strip_normalize_iff]
  exact and_iff_left (normalizeFrom_fixed U (Nat.lt_succ_self _))

end MainframeRag.Agent
