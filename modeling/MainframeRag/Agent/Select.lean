import MainframeRag.Ingest.Chunking.UnitSpans

/-!
# Range selection

`_snap_window` and `_select_range` of `agent/answer.py`: which contiguous range of a hit's stripped
text is kept within a number of characters. A cut inside an atomic unit moves back to the unit's
start, a cut inside prose to a sentence boundary.

The result bounds (`snapWindow_bound`, `selectRange_snapped`) and the unit rule (`WholeUnits`) are all
that packing uses of it.
-/

namespace MainframeRag.Agent

open PyText Ingest.Chunking

/-! ## Sentence boundaries -/

def isCloser (c : Char) : Bool := c == '"' || c == '\'' || c == ')' || c == ']'

def abbreviations : List Text :=
  ["e.g", "i.e", "vs", "etc", "no", "fig", "approx"].map String.toList

/-- `([A-Za-z.]+)$` searched in the text, lowered and without its last dots, is an abbreviation.
`$` also stands before a last line feed. -/
def endsAbbreviation (before : Text) : Bool :=
  let t := if before.getLast? = some '\n' then before.dropLast else before
  let word := t.reverse.takeWhile (fun c => c.isAlpha || c == '.')
  let stem := (word.dropWhile (· == '.')).reverse.map Char.toLower
  word ≠ [] && abbreviations.contains stem

/-- Ends of `[.!?]["')\]]*(?=\s|$)`, abbreviations left out; `before` is what was read, reversed. -/
def sentenceEnds : Text → Nat → Text → List Nat
  | _, _, [] => []
  | before, at', c :: t =>
    let closers := t.takeWhile isCloser
    let ends := (c == '.' || c == '!' || c == '?') &&
      match t.drop closers.length with
      | [] => true
      | d :: _ => isSpace d
    let abbreviated := c == '.' && closers = [] && endsAbbreviation before.reverse
    let rest := sentenceEnds (c :: before) (at' + 1) t
    if ends && !abbreviated then (at' + 1 + closers.length) :: rest else rest

/-- Starts of `\n[ \t]*\n`; `skip` characters belong to the last match. -/
def blankLines : Nat → Nat → Text → List Nat
  | _, _, [] => []
  | skip + 1, at', _ :: t => blankLines skip (at' + 1) t
  | 0, at', c :: t =>
    let gap := (t.takeWhile (fun d => d == ' ' || d == '\t')).length
    if c = '\n' ∧ (t.drop gap).head? = some '\n' then at' :: blankLines (gap + 1) (at' + 1) t
    else blankLines 0 (at' + 1) t

def qualifiers : List (List Text) :=
  [["however"], ["unless"], ["except"], ["but"], ["otherwise"], ["only", "if"], ["only", "when"],
    ["if", "not"], ["do", "not"], ["does", "not"], ["never"], ["note", "that"]].map
    (List.map String.toList)

/-- The words without case, blanks between them, and a word boundary behind the last. -/
def matchWords (U : CharTables) : List Text → Text → Bool
  | [], _ => true
  | w :: ws, t =>
    match dropPrefixCi w t with
    | none => false
    | some r =>
      match ws with
      | [] => (r.head?.map U.isWord) ≠ some true
      | _ :: _ => startsSpace r && matchWords U ws (lstrip r)

def startsQualifier (U : CharTables) (t : Text) : Bool := qualifiers.any (fun ws => matchWords U ws t)

inductive SentenceCut
  /-- no complete sentence in the range -/
  | noBoundary
  /-- every boundary would strand a qualifier -/
  | strands
  | boundary (cut : Nat)
  deriving DecidableEq

def sentenceCut (U : CharTables) (source : Text) (lo hi : Nat) : SentenceCut :=
  let window := (source.take (hi + 1)).drop lo
  let cuts := (sentenceEnds [] 0 window ++ blankLines 0 0 window).map (lo + ·)
  let candidates := ((cuts.filter (fun c => lo < c ∧ c ≤ hi)).dedup).mergeSort (fun a b => b ≤ a)
  if candidates = [] then .noBoundary
  else match candidates.find? (fun c => !startsQualifier U (lstrip (source.drop c))) with
    | some c => .boundary c
    | none => .strands

/-! ## Snapping -/

def minTailChars : Nat := 80

/-- `source[start:end]` -/
def textRange (source : Text) (start stop : Nat) : Text := (source.take stop).drop start

/-- Where the cut at `limit` goes when the spans are known. -/
def spanCut (U : CharTables) (source : Text) (spans : List UnitSpan) (start limit : Nat) : Nat :=
  match spans.find? (fun s => limit < s.stop) with
  | none => limit
  | some span =>
    if limit ≤ span.start then limit
    else match span.kind with
      | .prose =>
        match sentenceCut U source (max span.start start) limit with
        | .noBoundary => limit
        | .strands => span.start
        | .boundary c => c
      | .atomic => span.start

def snapWindow (U : CharTables) (source : Text) (spans : List UnitSpan) (start : Nat)
    (maxChars : Int) : Option Nat :=
  let limit := start + (max 0 maxChars).toNat
  if source.length ≤ limit then some source.length
  else if spans = [] then
    match sentenceCut U source start limit with
    | .strands => none
    | .noBoundary =>
      let kept := rstrip (textRange source start limit)
      if kept.length < minTailChars then none else some (start + kept.length)
    | .boundary stop =>
      let kept := rstrip (textRange source start stop)
      if kept.length < minTailChars then none else some (start + kept.length)
  else
    let stop := start + (rstrip (textRange source start (spanCut U source spans start limit))).length
    if start < stop then some stop else none

/-! ## Selection -/

/-- Spans whose first line opens with a requested identifier; `none` when the query names none. -/
def entryAnchors (source : Text) (spans : List UnitSpan) (requested : Option (Text → Bool)) :
    List UnitSpan :=
  match requested with
  | none => []
  | some opens => spans.filter fun s =>
    opens (((textRange source s.start s.stop).dropWhile (· == '\n')).takeWhile (· ≠ '\n'))

/-- `[... earlier text omitted]` and a line feed -/
def leadingMarker : Text := "[... earlier text omitted]\n".toList

/-- A range with the end of the first requested entry in it, 0 when none. -/
structure Range where
  start : Nat
  stop : Nat
  requiredEnd : Nat
  deriving DecidableEq

/-- The best range so far with its key: the entries inside it, then the earlier start. -/
def betterRange (U : CharTables) (source : Text) (spans anchors : List UnitSpan) (maxChars : Int)
    (best : Option (Nat × Range)) (anchor : UnitSpan) : Option (Nat × Range) :=
  if anchor.start = 0 then best
  else match snapWindow U source spans anchor.start (maxChars - leadingMarker.length) with
    | none => best
    | some wEnd =>
      match anchors.filter (fun a => anchor.start ≤ a.start ∧ a.stop ≤ wEnd) with
      | [] => best
      | first :: inside =>
        let found := (inside.length + 1, (⟨anchor.start, wEnd, first.stop⟩ : Range))
        match best with
        | none => some found
        | some b =>
          if b.1 < found.1 ∨ (b.1 = found.1 ∧ anchor.start < b.2.start) then some found else best

/-- The anchors whose entries the prefix up to `stop` holds. -/
def coveredBy (anchors : List UnitSpan) : Option Nat → List UnitSpan
  | none => []
  | some e => anchors.filter (fun a => a.stop ≤ e)

def selectRange (U : CharTables) (source : Text) (spans : List UnitSpan) (maxChars : Int)
    (requested : Option (Text → Bool)) : Option Range :=
  let stop := snapWindow U source spans 0 maxChars
  let anchors := entryAnchors source spans requested
  let covered := coveredBy anchors stop
  let prefixRange := stop.map fun e => (⟨0, e, (covered.head?.map UnitSpan.stop).getD 0⟩ : Range)
  if anchors = [] ∨ source.length ≤ maxChars ∨ covered.length = anchors.length then prefixRange
  else match anchors.foldl (betterRange U source spans anchors maxChars) none with
    | none => prefixRange
    | some b => if covered.length < b.1 then some b.2 else prefixRange

/-! ## Bounds -/

theorem rstrip_within (t : Text) : rstrip t <+: t := by
  obtain ⟨w, -, h⟩ := rstrip_spec t
  exact ⟨w, h.symm⟩

theorem textRange_length (source : Text) (start stop : Nat) :
    (textRange source start stop).length = min stop source.length - start := by
  simp [textRange]

theorem sentenceCut_bound {U : CharTables} {source : Text} {lo hi c : Nat}
    (h : sentenceCut U source lo hi = .boundary c) : lo < c ∧ c ≤ hi := by
  unfold sentenceCut at h
  simp only at h
  split at h
  · cases h
  · split at h
    · next hf =>
      cases h
      have hm := List.mem_of_find?_eq_some hf
      rw [List.mem_mergeSort, List.mem_dedup, List.mem_filter] at hm
      simpa using hm.2
    · cases h

theorem spanCut_le (U : CharTables) (source : Text) (spans : List UnitSpan) (start limit : Nat) :
    spanCut U source spans start limit ≤ limit := by
  unfold spanCut
  split
  · exact Nat.le.refl
  · next span _ =>
    by_cases hlim : limit ≤ span.start
    · rw [if_pos hlim]
    · rw [if_neg hlim]
      split
      · split
        · exact Nat.le.refl
        · omega
        · next c hc => exact (sentenceCut_bound hc).2
      · omega

/-- A snapped end lies in the text and, unless it is the text's end, within the limit. -/
theorem snapWindow_bound {U : CharTables} {source : Text} {spans : List UnitSpan} {start e : Nat}
    {maxChars : Int} (h : snapWindow U source spans start maxChars = some e) :
    e ≤ source.length ∧
      ((e = source.length ∧ source.length ≤ start + (max 0 maxChars).toNat) ∨
        (start < e ∧ e ≤ start + (max 0 maxChars).toNat)) := by
  unfold snapWindow at h
  simp only at h
  have hmin : 0 < minTailChars := by decide
  by_cases hall : source.length ≤ start + (max 0 maxChars).toNat
  · rw [if_pos hall] at h
    cases h
    exact ⟨Nat.le.refl, .inl ⟨rfl, hall⟩⟩
  · rw [if_neg hall] at h
    generalize start + (max 0 maxChars).toNat = limit at h hall ⊢
    have hkept : ∀ cut, cut ≤ limit → ∀ k, 0 < k →
        start + (rstrip (textRange source start cut)).length = start + k →
        start + k ≤ source.length ∧ start < start + k ∧ start + k ≤ limit := by
      intro cut hcut k hk he
      have h1 := (rstrip_within (textRange source start cut)).length_le
      rw [textRange_length] at h1
      omega
    split at h
    · split at h
      · cases h
      · split at h
        · cases h
        · next hk =>
          cases h
          have := hkept limit Nat.le.refl _ (by omega) rfl
          exact ⟨this.1, .inr this.2⟩
      · next c hc =>
        split at h
        · cases h
        · next hk =>
          cases h
          have := hkept c (sentenceCut_bound hc).2 _ (by omega) rfl
          exact ⟨this.1, .inr this.2⟩
    · split at h
      · next hlt =>
        cases h
        have := hkept _ (spanCut_le U source spans start limit) _ (by omega) rfl
        exact ⟨this.1, .inr this.2⟩
      · cases h

/-- A range of the text. -/
def InText (source : Text) (r : Range) : Prop := r.start ≤ r.stop ∧ r.stop ≤ source.length

theorem snapWindow_inText {U : CharTables} {source : Text} {spans : List UnitSpan} {start e : Nat}
    {maxChars : Int} (hs : start ≤ source.length)
    (h : snapWindow U source spans start maxChars = some e) : start ≤ e ∧ e ≤ source.length := by
  obtain ⟨h1, h2 | h2⟩ := snapWindow_bound h
  · exact ⟨by omega, h1⟩
  · exact ⟨by omega, h1⟩

theorem entryAnchors_mem {source : Text} {spans : List UnitSpan} {requested : Option (Text → Bool)}
    {a : UnitSpan} (h : a ∈ entryAnchors source spans requested) : a ∈ spans := by
  unfold entryAnchors at h
  split at h
  · cases h
  · exact (List.mem_filter.mp h).1

/-- A range that is snapped from its start within `maxChars`. -/
def Snapped (U : CharTables) (source : Text) (spans : List UnitSpan) (maxChars : Int) (r : Range) :
    Prop :=
  ∃ m, snapWindow U source spans r.start m = some r.stop ∧ m ≤ maxChars ∧
    (r.start = 0 ∨ ∃ s ∈ spans, s.start = r.start)

theorem betterRange_snapped {U : CharTables} {source : Text} {spans anchors : List UnitSpan}
    {maxChars : Int} {best : Option (Nat × Range)} {a : UnitSpan} (ha : a ∈ spans)
    (hb : ∀ b, best = some b → Snapped U source spans maxChars b.2) {b : Nat × Range}
    (h : betterRange U source spans anchors maxChars best a = some b) :
    Snapped U source spans maxChars b.2 := by
  unfold betterRange at h
  by_cases h0 : a.start = 0
  · rw [if_pos h0] at h
    exact hb b h
  · rw [if_neg h0] at h
    split at h
    · exact hb b h
    · next wEnd hw =>
      split at h
      · exact hb b h
      · next first inside _ =>
        have hnew : Snapped U source spans maxChars ⟨a.start, wEnd, first.stop⟩ :=
          ⟨_, hw, by omega, .inr ⟨a, ha, rfl⟩⟩
        dsimp only at h
        split at h
        · cases h
          exact hnew
        · split at h
          · cases h
            exact hnew
          · cases h
            exact hb b rfl

/-- A selected range is snapped from the text's start or from the start of a span. -/
theorem selectRange_snapped {U : CharTables} {source : Text} {spans : List UnitSpan}
    {maxChars : Int} {requested : Option (Text → Bool)} {r : Range}
    (h : selectRange U source spans maxChars requested = some r) :
    Snapped U source spans maxChars r := by
  have hfold : ∀ (l : List UnitSpan) (best : Option (Nat × Range)),
      (∀ b, best = some b → Snapped U source spans maxChars b.2) → (∀ a ∈ l, a ∈ spans) →
      ∀ b, l.foldl (betterRange U source spans (entryAnchors source spans requested) maxChars)
        best = some b → Snapped U source spans maxChars b.2 := by
    intro l
    induction l with
    | nil => exact fun best hb _ => hb
    | cons a l ih =>
      intro best hb hl
      refine ih _ (fun b hbest => ?_) (fun x hx => hl x (List.mem_cons_of_mem _ hx))
      exact betterRange_snapped (hl a List.mem_cons_self) hb hbest
  have hprefix : ∀ q : Nat, (snapWindow U source spans 0 maxChars).map
      (fun e => (⟨0, e, q⟩ : Range)) = some r → Snapped U source spans maxChars r := by
    intro q hq
    obtain ⟨e, he, rfl⟩ := Option.map_eq_some_iff.mp hq
    exact ⟨maxChars, he, Int.le_refl _, .inl rfl⟩
  unfold selectRange at h
  dsimp only at h
  split at h
  · exact hprefix _ h
  · split at h
    · exact hprefix _ h
    · next b hb =>
      split at h
      · cases h
        exact hfold _ none (fun _ h => by cases h) (fun a ha => entryAnchors_mem ha) b hb
      · exact hprefix _ h

/-! ## Whole units -/

/-- Spans in order, apart, and inside a text of length `len`. -/
def Ordered (len : Nat) : Nat → List UnitSpan → Prop
  | _, [] => True
  | cursor, s :: spans =>
    cursor ≤ s.start ∧ s.start ≤ s.stop ∧ s.stop ≤ len ∧ Ordered len s.stop spans

theorem Ordered.mem {len cursor : Nat} {spans : List UnitSpan} (h : Ordered len cursor spans)
    {s : UnitSpan} (hs : s ∈ spans) : cursor ≤ s.start ∧ s.start ≤ s.stop ∧ s.stop ≤ len := by
  induction spans generalizing cursor with
  | nil => cases hs
  | cons x spans ih =>
    obtain ⟨h1, h2, h3, h4⟩ := h
    rcases List.mem_cons.mp hs with rfl | hs
    · exact ⟨h1, h2, h3⟩
    · obtain ⟨h5, h6, h7⟩ := ih h4 hs
      exact ⟨by omega, h6, h7⟩

/-- Two spans are the same or one ends before the other starts. -/
theorem Ordered.apart {len cursor : Nat} {spans : List UnitSpan} (h : Ordered len cursor spans)
    {s t : UnitSpan} (hs : s ∈ spans) (ht : t ∈ spans) :
    s = t ∨ s.stop ≤ t.start ∨ t.stop ≤ s.start := by
  induction spans generalizing cursor with
  | nil => cases hs
  | cons x spans ih =>
    obtain ⟨-, -, -, h4⟩ := h
    rcases List.mem_cons.mp hs with hsx | hs'
    · rcases List.mem_cons.mp ht with htx | ht'
      · exact .inl (hsx.trans htx.symm)
      · exact .inr (.inl (hsx ▸ (h4.mem ht').1))
    · rcases List.mem_cons.mp ht with htx | ht'
      · exact .inr (.inr (htx ▸ (h4.mem hs').1))
      · exact ih h4 hs' ht'

/-- Spans in front of the first one that ends behind the limit end within it. -/
theorem Ordered.before_found {len cursor limit : Nat} {spans : List UnitSpan}
    (h : Ordered len cursor spans) {found : UnitSpan}
    (hf : spans.find? (fun s => limit < s.stop) = some found) {s : UnitSpan} (hs : s ∈ spans) :
    s = found ∨ (s.stop ≤ limit ∧ s.stop ≤ found.start) ∨ found.stop ≤ s.start := by
  induction spans generalizing cursor with
  | nil => cases hs
  | cons x spans ih =>
    obtain ⟨-, -, -, h4⟩ := h
    by_cases hx : limit < x.stop
    · rw [List.find?_cons_of_pos (by simpa using hx), Option.some.injEq] at hf
      subst hf
      rcases List.mem_cons.mp hs with rfl | hs
      · exact .inl rfl
      · exact .inr (.inr (h4.mem hs).1)
    · rw [List.find?_cons_of_neg (by simpa using hx)] at hf
      rcases List.mem_cons.mp hs with rfl | hs
      · exact .inr (.inl ⟨by omega, (h4.mem (List.mem_of_find?_eq_some hf)).1⟩)
      · exact ih h4 hf hs

/-- A position is not inside an atomic unit, its trailing blanks apart. -/
def WholeUnits (source : Text) (spans : List UnitSpan) (pos : Nat) : Prop :=
  ∀ s ∈ spans, s.kind = .atomic → s.start < pos → pos < s.stop → blank (textRange source pos s.stop)

theorem wholeUnits_end {source : Text} {spans : List UnitSpan} {cursor : Nat}
    (h : Ordered source.length cursor spans) : WholeUnits source spans source.length := by
  intro s hs _ _ hlt
  have := (h.mem hs).2.2
  omega

theorem wholeUnits_start {source : Text} {spans : List UnitSpan} {cursor : Nat}
    (h : Ordered source.length cursor spans) {start : Nat}
    (hs : start = 0 ∨ ∃ s ∈ spans, s.start = start) : WholeUnits source spans start := by
  intro s hm _ hlt hlt'
  rcases hs with rfl | ⟨t, ht, rfl⟩
  · omega
  · have h1 := (h.mem ht).2.1
    rcases h.apart hm ht with rfl | h2 | h2
    · omega
    · omega
    · omega

/-- Stripping the blanks in front of a cut leaves a position that separates nothing the cut does
not. -/
theorem wholeUnits_rstrip {source : Text} {spans : List UnitSpan} {start cut : Nat}
    (hsc : start ≤ cut) (hcl : cut ≤ source.length)
    (hcut : ∀ s ∈ spans, s.kind = .atomic → s.stop ≤ cut ∨ cut ≤ s.start) :
    WholeUnits source spans (start + (rstrip (textRange source start cut)).length) := by
  obtain ⟨w, hw, he⟩ := rstrip_spec (textRange source start cut)
  have hlen := textRange_length source start cut
  have hlen' := congrArg List.length he
  rw [List.length_append] at hlen'
  intro s hs ha hlt hlt'
  rcases hcut s hs ha with h | h
  · -- the unit ends at the cut or before it, so what is left of it was stripped
    generalize hk : (rstrip (textRange source start cut)).length = k at hlt hlt' ⊢
    have hdrop : textRange source (start + k) cut = (textRange source start cut).drop k := by
      rw [textRange, textRange, List.drop_drop]
    have hrest : textRange source (start + k) cut = w := by
      rw [hdrop, he, ← hk]
      exact List.drop_left
    have hpre : textRange source (start + k) s.stop <+: textRange source (start + k) cut := by
      have ht : source.take s.stop = (source.take cut).take s.stop := by
        rw [List.take_take, min_eq_left h]
      rw [textRange, textRange, ht, List.drop_take]
      exact List.take_prefix _ _
    rw [hrest] at hpre
    exact fun c hc => hw c (hpre.subset hc)
  · omega

theorem spanCut_apart {U : CharTables} {source : Text} {spans : List UnitSpan} {cursor start limit :
    Nat} (h : Ordered source.length cursor spans) :
    ∀ s ∈ spans, s.kind = .atomic →
      s.stop ≤ spanCut U source spans start limit ∨ spanCut U source spans start limit ≤ s.start := by
  intro s hs ha
  unfold spanCut
  split
  · next hn =>
    have := List.find?_eq_none.mp hn s hs
    exact .inl (by simpa using this)
  · next found hf =>
    have hb := h.before_found hf hs
    have hstop : limit < found.stop := by simpa using List.find?_some hf
    have hfo := (h.mem (List.mem_of_find?_eq_some hf)).2.1
    by_cases hlim : limit ≤ found.start
    · rw [if_pos hlim]
      rcases hb with rfl | hb | hb
      · exact .inr hlim
      · exact .inl hb.1
      · exact .inr (by omega)
    · rw [if_neg hlim]
      split
      · next hk =>
        have hne : s ≠ found := fun e => by rw [e, hk] at ha; cases ha
        have hbounds : ∀ c, found.start ≤ c → c ≤ limit → s.stop ≤ c ∨ c ≤ s.start := by
          intro c hc1 hc2
          rcases hb with rfl | hb | hb
          · exact absurd rfl hne
          · exact .inl (by omega)
          · exact .inr (by omega)
        split
        · exact hbounds limit (by omega) Nat.le.refl
        · exact hbounds found.start Nat.le.refl (by omega)
        · next c hc =>
          have := sentenceCut_bound hc
          exact hbounds c (by omega) this.2
      · rcases hb with rfl | hb | hb
        · exact .inr Nat.le.refl
        · exact .inl hb.2
        · exact .inr (by omega)

/-- A snapped end separates no atomic unit. -/
theorem snapWindow_whole {U : CharTables} {source : Text} {spans : List UnitSpan} {cursor start e :
    Nat} {maxChars : Int} (ho : Ordered source.length cursor spans)
    (h : snapWindow U source spans start maxChars = some e) : WholeUnits source spans e := by
  have hall := h
  unfold snapWindow at h
  simp only at h
  split at h
  · cases h
    exact wholeUnits_end ho
  · next hlim =>
    split at h
    · next hn =>
      intro s hs
      rw [hn] at hs
      cases hs
    · split at h
      · next hlt =>
        cases h
        have hle := spanCut_le U source spans start (start + (max 0 maxChars).toNat)
        refine wholeUnits_rstrip ?_ (by omega) (spanCut_apart ho)
        have := (rstrip_within (textRange source start
          (spanCut U source spans start (start + (max 0 maxChars).toNat)))).length_le
        rw [textRange_length] at this
        omega
      · cases h

theorem find_ge {t sub : Text} {start k : Nat} (h : find t sub start = some k) : start ≤ k := by
  have hat : ∀ (t : Text) (i : Nat), findAt sub t i = some k → i ≤ k := by
    intro t
    induction t with
    | nil =>
      intro i hi
      simp only [findAt] at hi
      split at hi
      · cases hi
        exact Nat.le.refl
      · cases hi
    | cons c t ih =>
      intro i hi
      simp only [findAt] at hi
      split at hi
      · cases hi
        exact Nat.le.refl
      · exact Nat.le_of_succ_le (ih _ hi)
  unfold find at h
  split at h
  · exact hat _ _ h
  · cases h

theorem locateParts_ordered {stripped : Text} {cursor : Nat} {parts : List (Text × UnitKind)}
    {spans : List UnitSpan} (h : locateParts stripped cursor parts = some spans) :
    Ordered stripped.length cursor spans := by
  induction parts generalizing cursor spans with
  | nil =>
    cases h
    trivial
  | cons p parts ih =>
    obtain ⟨part, kind⟩ := p
    simp only [locateParts] at h
    split at h
    · cases h
    · next pos hf =>
      obtain ⟨rest, hr, rfl⟩ := Option.map_eq_some_iff.mp h
      exact ⟨find_ge hf, Nat.le_add_right _ _, find_bound hf, ih hr⟩

theorem Ordered.mono {len len' cursor : Nat} {spans : List UnitSpan} (h : Ordered len cursor spans)
    (hl : len ≤ len') : Ordered len' cursor spans := by
  induction spans generalizing cursor with
  | nil => trivial
  | cons s spans ih => exact ⟨h.1, h.2.1, h.2.2.1.trans hl, ih h.2.2.2⟩

theorem unitsForText_ordered (U : CharTables) (t : Text) :
    Ordered t.length 0 (unitsForText U t) := by
  have hloc : ∀ parts, Ordered t.length 0 ((locateParts (strip t) 0 parts).getD []) := by
    intro parts
    cases h : locateParts (strip t) 0 parts with
    | none => trivial
    | some spans => exact (locateParts_ordered h).mono (strip_length_le t)
  unfold unitsForText
  dsimp only
  split
  · trivial
  · split
    · exact hloc _
    · split
      · exact hloc _
      · split
        · exact hloc _
        · trivial

theorem validSpans_ordered {len : Nat} {cursor : Int} {entries : List (Int × Int × Text)}
    {spans : List UnitSpan} (h : validSpans len cursor entries = some spans) :
    Ordered len cursor.toNat spans := by
  induction entries generalizing cursor spans with
  | nil =>
    cases h
    trivial
  | cons e entries ih =>
    obtain ⟨start, stop, kind⟩ := e
    unfold validSpans at h
    split at h
    · cases h
    · split at h
      · next hc =>
        obtain ⟨rest, hr, rfl⟩ := Option.map_eq_some_iff.mp h
        refine ⟨?_, ?_, ?_, ih hr⟩
        · dsimp only
          omega
        · dsimp only
          omega
        · dsimp only
          omega
      · cases h

theorem hitSpans_ordered (U : CharTables) (units : Option (List (Int × Int × Text)))
    (stripped : Text) : Ordered stripped.length 0 (hitSpans U units stripped) := by
  unfold hitSpans
  split
  · next spans h =>
    obtain ⟨us, -, h⟩ := Option.bind_eq_some_iff.mp h
    exact validSpans_ordered h
  · exact unitsForText_ordered U stripped

end MainframeRag.Agent
