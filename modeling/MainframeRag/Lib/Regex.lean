import Mathlib.Data.List.Basic
import Mathlib.Data.List.Infix

/-!
# Backtracking patterns

Patterns over any alphabet, run as a backtracking matcher runs them. `Pattern.runs` lists the places
where a match may end, the preferred one first, so alternatives, greedy and lazy repetition are the
order of a list. `segments` is the scan for matches that do not overlap, from left to right.

A run reads a prefix of what is left (`runs_along`), and the segments are the text in pieces
(`segmentsFrom_text`).
-/

namespace MainframeRag.Regex

variable {α : Type}

/-- A place in a text: what was read, the last first, and what is left. -/
structure Place (α : Type) where
  before : List α
  rest : List α

inductive Pattern (α : Type)
  | empty
  /-- a condition on the place that reads nothing -/
  | test (f : Place α → Bool)
  | one (f : α → Bool)
  | seq (p q : Pattern α)
  | alt (p q : Pattern α)
  | many (lazily : Bool) (p : Pattern α)

/-- Repeats a step that reads something; greedy repetition prefers to go on. -/
def repeatRuns (lazily : Bool) (step : Place α → List (Place α)) : Nat → Place α → List (Place α)
  | 0, pl => [pl]
  | fuel + 1, pl =>
    let more := ((step pl).filter (fun e => e.rest.length < pl.rest.length)).flatMap
      (repeatRuns lazily step fuel)
    if lazily then pl :: more else more ++ [pl]

namespace Pattern

def runs : Pattern α → Place α → List (Place α)
  | empty, pl => [pl]
  | test f, pl => if f pl then [pl] else []
  | one f, pl => match pl.rest with
    | [] => []
    | c :: t => if f c then [⟨c :: pl.before, t⟩] else []
  | seq p q, pl => (p.runs pl).flatMap q.runs
  | alt p q, pl => p.runs pl ++ q.runs pl
  | many lazily p, pl => repeatRuns lazily p.runs pl.rest.length pl

def word [DecidableEq α] (w : List α) : Pattern α :=
  w.foldr (fun c p => seq (one (· = c)) p) empty

def opt (p : Pattern α) : Pattern α := alt p empty

def star (p : Pattern α) : Pattern α := many false p

def plus (p : Pattern α) : Pattern α := seq p (star p)

def lazyPlus (p : Pattern α) : Pattern α := seq p (many true p)

def exactly : Nat → Pattern α → Pattern α
  | 0, _ => empty
  | n + 1, p => seq p (exactly n p)

def upTo : Nat → Pattern α → Pattern α
  | 0, _ => empty
  | n + 1, p => opt (seq p (upTo n p))

/-- Patterns one behind the other. -/
def row (ps : List (Pattern α)) : Pattern α := ps.foldr seq empty

/-- Where the preferred match at a place ends. -/
def matchAt (p : Pattern α) (pl : Place α) : Option (Place α) := (p.runs pl).head?

/-- `re.match`: what is left behind a match at the start. -/
def matchStart (p : Pattern α) (t : List α) : Option (List α) := (p.matchAt ⟨[], t⟩).map Place.rest

end Pattern

/-! ## Runs -/

/-- From one place to another by reading `w`. -/
structure Along (pl : Place α) (w : List α) (e : Place α) : Prop where
  rest : pl.rest = w ++ e.rest
  before : e.before = w.reverse ++ pl.before

theorem Along.refl (pl : Place α) : Along pl [] pl := ⟨rfl, rfl⟩

theorem Along.trans {a b c : Place α} {v w : List α} (h1 : Along a v b) (h2 : Along b w c) :
    Along a (v ++ w) c :=
  ⟨by rw [h1.rest, h2.rest, List.append_assoc], by
    rw [h2.before, h1.before, List.reverse_append, List.append_assoc]⟩

theorem Along.le {pl e : Place α} {w : List α} (h : Along pl w e) :
    e.rest.length ≤ pl.rest.length := by
  rw [h.rest, List.length_append]
  exact Nat.le_add_left _ _

theorem repeatRuns_cases {lazily : Bool} {step : Place α → List (Place α)} {fuel : Nat}
    {pl e : Place α} (h : e ∈ repeatRuns lazily step (fuel + 1) pl) :
    e = pl ∨ ∃ m ∈ step pl, e ∈ repeatRuns lazily step fuel m := by
  have hmore : ∀ {e}, e ∈ ((step pl).filter (fun e => e.rest.length < pl.rest.length)).flatMap
      (repeatRuns lazily step fuel) → ∃ m ∈ step pl, e ∈ repeatRuns lazily step fuel m := by
    intro e he
    obtain ⟨m, hm, he⟩ := List.mem_flatMap.mp he
    exact ⟨m, (List.mem_filter.mp hm).1, he⟩
  unfold repeatRuns at h
  dsimp only at h
  split at h
  · exact (List.mem_cons.mp h).imp_right hmore
  · rcases List.mem_append.mp h with h | h
    · exact .inr (hmore h)
    · exact .inl (List.mem_singleton.mp h)

theorem repeatRuns_along {lazily : Bool} {step : Place α → List (Place α)}
    (hstep : ∀ pl, ∀ e ∈ step pl, ∃ w, Along pl w e) (fuel : Nat) (pl : Place α) :
    ∀ e ∈ repeatRuns lazily step fuel pl, ∃ w, Along pl w e := by
  induction fuel generalizing pl with
  | zero =>
    intro e he
    rw [repeatRuns, List.mem_singleton] at he
    exact ⟨[], he ▸ .refl pl⟩
  | succ fuel ih =>
    intro e he
    rcases repeatRuns_cases he with rfl | ⟨m, hm, he⟩
    · exact ⟨[], .refl e⟩
    · obtain ⟨v, hv⟩ := hstep pl m hm
      obtain ⟨w, hw⟩ := ih m e he
      exact ⟨v ++ w, hv.trans hw⟩

theorem runs_along (p : Pattern α) (pl : Place α) : ∀ e ∈ p.runs pl, ∃ w, Along pl w e := by
  induction p generalizing pl with
  | empty =>
    intro e he
    rw [Pattern.runs, List.mem_singleton] at he
    exact ⟨[], he ▸ .refl pl⟩
  | test f =>
    intro e he
    rw [Pattern.runs] at he
    split at he
    · exact ⟨[], List.mem_singleton.mp he ▸ .refl pl⟩
    · cases he
  | one f =>
    intro e he
    rw [Pattern.runs] at he
    split at he
    · cases he
    · next c t ht =>
      split at he
      · rw [List.mem_singleton.mp he]
        exact ⟨[c], ht, rfl⟩
      · cases he
  | seq p q ihp ihq =>
    intro e he
    obtain ⟨m, hm, he⟩ := List.mem_flatMap.mp he
    obtain ⟨v, hv⟩ := ihp pl m hm
    obtain ⟨w, hw⟩ := ihq m e he
    exact ⟨v ++ w, hv.trans hw⟩
  | alt p q ihp ihq =>
    intro e he
    rcases List.mem_append.mp he with he | he
    · exact ihp pl e he
    · exact ihq pl e he
  | many lazily p ih => exact repeatRuns_along ih pl.rest.length pl

theorem mem_runs_seq {p q : Pattern α} {pl e : Place α} :
    e ∈ (p.seq q).runs pl ↔ ∃ m ∈ p.runs pl, e ∈ q.runs m := List.mem_flatMap

theorem mem_runs_one {f : α → Bool} {pl e : Place α} (h : e ∈ (Pattern.one f).runs pl) :
    ∃ c, f c = true ∧ Along pl [c] e := by
  rw [Pattern.runs] at h
  split at h
  · cases h
  · next c t ht =>
    split at h
    · next hc =>
      rw [List.mem_singleton.mp h]
      exact ⟨c, hc, ht, rfl⟩
    · cases h

theorem mem_runs_word [DecidableEq α] {w : List α} {pl e : Place α} :
    e ∈ (Pattern.word w).runs pl ↔ Along pl w e := by
  induction w generalizing pl with
  | nil =>
    constructor
    · intro h
      rw [List.mem_singleton.mp h]
      exact .refl pl
    · rintro ⟨hr, hb⟩
      obtain ⟨b, r⟩ := pl
      obtain ⟨b', r'⟩ := e
      cases hr
      cases hb
      exact List.mem_singleton.mpr rfl
  | cons c w ih =>
    obtain ⟨b, r⟩ := pl
    have hw : Pattern.word (c :: w) = .seq (.one (· = c)) (Pattern.word w) := rfl
    rw [hw, mem_runs_seq]
    constructor
    · rintro ⟨m, hm, he⟩
      obtain ⟨d, hd, hone⟩ := mem_runs_one hm
      obtain rfl : d = c := of_decide_eq_true hd
      exact hone.trans (ih.mp he)
    · rintro ⟨hr, hb⟩
      dsimp only at hr hb
      refine ⟨⟨c :: b, w ++ e.rest⟩, ?_, ih.mpr ⟨rfl, by simp [hb]⟩⟩
      rw [Pattern.runs, hr]
      simp

theorem mem_runs_test {f : Place α → Bool} {pl e : Place α} (h : e ∈ (Pattern.test f).runs pl) :
    e = pl := by
  rw [Pattern.runs] at h
  split at h
  · exact List.mem_singleton.mp h
  · cases h

/-- What is read between two places. -/
theorem Along.unique {pl e : Place α} {v w : List α} (hv : Along pl v e) (hw : Along pl w e) :
    v = w :=
  List.append_cancel_right (hv.rest.symm.trans hw.rest)

/-- A match between two patterns that read `d`. -/
theorem runs_between {p q r : Pattern α} {d : List α}
    (hp : ∀ {pl e}, e ∈ p.runs pl → Along pl d e) (hr : ∀ {pl e}, e ∈ r.runs pl → Along pl d e)
    {pl e : Place α} {w : List α} (he : e ∈ (Pattern.row [p, q, r]).runs pl) (hw : Along pl w e) :
    ∃ m, w = d ++ m ++ d := by
  obtain ⟨a, ha, he⟩ := mem_runs_seq.mp he
  obtain ⟨b, hb, he⟩ := mem_runs_seq.mp he
  obtain ⟨c, hc, he⟩ := mem_runs_seq.mp he
  obtain rfl : e = c := List.mem_singleton.mp he
  obtain ⟨m, hm⟩ := runs_along q a b hb
  exact ⟨m, hw.unique (((hp ha).trans hm).trans (hr hc))⟩

/-- A repetition may stop at once, and go on behind a step that reads something. -/
theorem repeatRuns_stop (lazily : Bool) (step : Place α → List (Place α)) (fuel : Nat)
    (pl : Place α) : pl ∈ repeatRuns lazily step fuel pl := by
  cases fuel with
  | zero => exact List.mem_singleton.mpr rfl
  | succ fuel =>
    unfold repeatRuns
    dsimp only
    split
    · exact List.mem_cons_self
    · exact List.mem_append_right _ List.mem_cons_self

theorem mem_repeatRuns_next {lazily : Bool} {step : Place α → List (Place α)} {fuel : Nat}
    {pl m e : Place α} (hm : m ∈ step pl) (hlt : m.rest.length < pl.rest.length)
    (he : e ∈ repeatRuns lazily step fuel m) : e ∈ repeatRuns lazily step (fuel + 1) pl := by
  have hmore : e ∈ ((step pl).filter (fun e => e.rest.length < pl.rest.length)).flatMap
      (repeatRuns lazily step fuel) :=
    List.mem_flatMap.mpr ⟨m, List.mem_filter.mpr ⟨hm, by simpa using hlt⟩, he⟩
  unfold repeatRuns
  dsimp only
  split
  · exact List.mem_cons_of_mem _ hmore
  · exact List.mem_append_left _ hmore

/-- A repetition of single elements reads any run of them. -/
theorem mem_runs_many {lazily : Bool} {f : α → Bool} {w : List α} {pl e : Place α}
    (hw : ∀ c ∈ w, f c = true) (h : Along pl w e) :
    e ∈ (Pattern.many lazily (.one f)).runs pl := by
  suffices hfuel : ∀ fuel, w.length ≤ fuel → e ∈ repeatRuns lazily (Pattern.one f).runs fuel pl by
    refine hfuel _ ?_
    rw [h.rest, List.length_append]
    exact Nat.le_add_right _ _
  intro fuel
  induction w generalizing pl fuel with
  | nil =>
    intro _
    have he : e = pl := by
      obtain ⟨b, r⟩ := pl
      obtain ⟨b', r'⟩ := e
      obtain ⟨hr, hb⟩ := h
      cases hr
      cases hb
      rfl
    exact he ▸ repeatRuns_stop lazily _ fuel e
  | cons c w ih =>
    intro hf
    obtain ⟨b, r⟩ := pl
    obtain ⟨hr, hb⟩ := h
    dsimp only at hr hb
    cases fuel with
    | zero => exact absurd hf (by simp)
    | succ fuel =>
      have hnext : Along ⟨c :: b, w ++ e.rest⟩ w e := ⟨rfl, by simp [hb]⟩
      refine mem_repeatRuns_next (m := ⟨c :: b, w ++ e.rest⟩) ?_ ?_
        (ih (fun d hd => hw d (List.mem_cons_of_mem _ hd)) hnext fuel (by simpa using hf))
      · rw [Pattern.runs, hr]
        simp [hw c List.mem_cons_self]
      · rw [hr]
        simp

/-- A repetition of single elements reads only such elements. -/
theorem runs_many_all {lazily : Bool} {f : α → Bool} {pl e : Place α}
    (h : e ∈ (Pattern.many lazily (.one f)).runs pl) :
    ∃ w, Along pl w e ∧ ∀ c ∈ w, f c = true := by
  have hfuel : ∀ (fuel : Nat) (pl : Place α), e ∈ repeatRuns lazily (Pattern.one f).runs fuel pl →
      ∃ w, Along pl w e ∧ ∀ c ∈ w, f c = true := by
    intro fuel
    induction fuel with
    | zero =>
      intro pl he
      rw [repeatRuns, List.mem_singleton] at he
      exact ⟨[], he ▸ .refl pl, by simp⟩
    | succ fuel ih =>
      intro pl he
      rcases repeatRuns_cases he with rfl | ⟨m, hm, he⟩
      · exact ⟨[], .refl e, by simp⟩
      · obtain ⟨c, hc, hone⟩ := mem_runs_one hm
        obtain ⟨w, hw, hall⟩ := ih m he
        refine ⟨[c] ++ w, hone.trans hw, fun d hd => ?_⟩
        rcases List.mem_cons.mp hd with rfl | hd
        · exact hc
        · exact hall d hd
  exact hfuel _ pl h

/-! ## Scans -/

/-- A piece of a scanned text. -/
inductive Segment (α : Type)
  | gap (c : α)
  | found (w : List α)

def Segment.text : Segment α → List α
  | gap c => [c]
  | found w => w

/-- The matches of a pattern and the gaps between them; a match that reads nothing is passed over. -/
def segmentsFrom (p : Pattern α) : Nat → Place α → List (Segment α)
  | 0, _ => []
  | fuel + 1, pl => match pl.rest with
    | [] => []
    | c :: t =>
      match (p.matchAt pl).filter (fun e => e.rest.length < pl.rest.length) with
      | some e => .found (pl.rest.take (pl.rest.length - e.rest.length)) :: segmentsFrom p fuel e
      | none => .gap c :: segmentsFrom p fuel ⟨c :: pl.before, t⟩

def segments (p : Pattern α) (t : List α) : List (Segment α) := segmentsFrom p t.length ⟨[], t⟩

/-- `re.findall` without groups. -/
def found (p : Pattern α) (t : List α) : List (List α) :=
  (segments p t).filterMap fun
    | .gap _ => none
    | .found w => some w

/-- `re.search` -/
def search (p : Pattern α) (t : List α) : Bool := !(found p t).isEmpty

/-- `re.sub` -/
def sub (p : Pattern α) (replace : List α → List α) (t : List α) : List α :=
  (segments p t).flatMap fun
    | .gap c => [c]
    | .found w => replace w

theorem Along.take {pl e : Place α} {w : List α} (h : Along pl w e) :
    pl.rest.take (pl.rest.length - e.rest.length) = w := by
  rw [h.rest, List.length_append, Nat.add_sub_cancel, List.take_left]

/-- A match of the scan is a run of the pattern that reads something. -/
theorem matchAt_along {p : Pattern α} {pl e : Place α}
    (h : (p.matchAt pl).filter (fun e => e.rest.length < pl.rest.length) = some e) :
    e ∈ p.runs pl ∧ e.rest.length < pl.rest.length := by
  obtain ⟨hm, hlt⟩ := Option.filter_eq_some_iff.mp h
  exact ⟨List.mem_of_head? hm, by simpa using hlt⟩

theorem segmentsFrom_text (p : Pattern α) {fuel : Nat} {pl : Place α} (h : pl.rest.length ≤ fuel) :
    (segmentsFrom p fuel pl).flatMap Segment.text = pl.rest := by
  induction fuel generalizing pl with
  | zero =>
    rw [segmentsFrom, List.flatMap_nil, List.length_eq_zero_iff.mp (Nat.le_zero.mp h)]
  | succ fuel ih =>
    rw [segmentsFrom]
    split
    · next hr => rw [hr, List.flatMap_nil]
    · next c t hr =>
      split
      · next e he =>
        obtain ⟨hmem, hlt⟩ := matchAt_along he
        obtain ⟨w, hw⟩ := runs_along p pl e hmem
        rw [List.flatMap_cons, Segment.text, hw.take, ih (by omega), hw.rest]
      · rw [hr] at h
        rw [List.flatMap_cons, ih (by simpa using h), hr]
        rfl

/-- Where nothing matches there are only gaps. -/
theorem segmentsFrom_gaps {p : Pattern α} {tail : List α}
    (hinside : ∀ pl e, pl.rest <:+ tail → e ∈ p.runs pl → pl.rest.length ≤ e.rest.length)
    {fuel : Nat} {pl : Place α} (hs : pl.rest <:+ tail) (hf : pl.rest.length ≤ fuel) :
    segmentsFrom p fuel pl = pl.rest.map Segment.gap := by
  induction fuel generalizing pl with
  | zero =>
    rw [List.eq_nil_of_length_eq_zero (Nat.le_zero.mp hf)]
    rfl
  | succ fuel ih =>
    rw [segmentsFrom]
    split
    · next hr => rw [hr, List.map_nil]
    · next c t hr =>
      split
      · next e he =>
        obtain ⟨hmem, hlt⟩ := matchAt_along he
        have := hinside pl e hs hmem
        omega
      · rw [hr] at hs hf
        rw [hr, List.map_cons, ih ((List.suffix_cons c t).trans hs) (by simpa using hf)]

/-- A text whose end no match reaches into ends in gaps. -/
theorem segmentsFrom_tail {p : Pattern α} {tail : List α}
    (hinside : ∀ pl e, pl.rest <:+ tail → e ∈ p.runs pl → pl.rest.length ≤ e.rest.length)
    (hinto : ∀ pl e v, pl.rest = v ++ tail → e ∈ p.runs pl → tail.length ≤ e.rest.length)
    {fuel : Nat} {pl : Place α} {v : List α} (hv : pl.rest = v ++ tail)
    (hf : pl.rest.length ≤ fuel) :
    ∃ front, segmentsFrom p fuel pl = front ++ tail.map Segment.gap := by
  induction fuel generalizing pl v with
  | zero =>
    rw [List.eq_nil_of_length_eq_zero (Nat.le_zero.mp hf)] at hv
    exact ⟨[], by rw [(List.append_eq_nil_iff.mp hv.symm).2]; rfl⟩
  | succ fuel ih =>
    cases v with
    | nil =>
      rw [List.nil_append] at hv
      exact ⟨[], by rw [segmentsFrom_gaps hinside (hv ▸ List.suffix_refl _) hf, hv]; rfl⟩
    | cons c v =>
      rw [segmentsFrom]
      split
      · next hr =>
        rw [hr] at hv
        cases hv
      · next d t hr =>
        split
        · next e he =>
          obtain ⟨hmem, hlt⟩ := matchAt_along he
          obtain ⟨w, hw⟩ := runs_along p pl e hmem
          -- the match ends in front of the tail
          have hsuf : tail <:+ e.rest :=
            List.suffix_of_suffix_length_le (hv ▸ List.suffix_append _ _)
              (hw.rest ▸ List.suffix_append _ _) (hinto pl e _ hv hmem)
          obtain ⟨u, hu⟩ := hsuf
          obtain ⟨front, hfront⟩ := ih hu.symm (by omega)
          exact ⟨_ :: front, by rw [hfront]; rfl⟩
        · have ht : t = v ++ tail := by
            rw [hr] at hv
            exact (List.cons.inj hv).2
          rw [hr] at hf
          obtain ⟨front, hfront⟩ := @ih ⟨d :: pl.before, t⟩ _ ht (by simpa using hf)
          exact ⟨.gap d :: front, by rw [hfront]; rfl⟩

theorem sub_tail {p : Pattern α} {tail : List α} (replace : List α → List α)
    (hinside : ∀ pl e, pl.rest <:+ tail → e ∈ p.runs pl → pl.rest.length ≤ e.rest.length)
    (hinto : ∀ pl e v, pl.rest = v ++ tail → e ∈ p.runs pl → tail.length ≤ e.rest.length)
    (v : List α) : ∃ front, sub p replace (v ++ tail) = front ++ tail := by
  obtain ⟨front, hfront⟩ := @segmentsFrom_tail _ _ _ hinside hinto _ ⟨[], v ++ tail⟩ v rfl Nat.le.refl
  refine ⟨front.flatMap fun
    | .gap c => [c]
    | .found w => replace w, ?_⟩
  rw [sub, segments, hfront, List.flatMap_append, List.flatMap_map]
  congr 1
  exact List.flatMap_singleton' tail

/-- Replacements that are no longer than what they replace make no text longer. -/
theorem segments_length {replace : List α → List α} (h : ∀ w, (replace w).length ≤ w.length)
    (segs : List (Segment α)) :
    (segs.flatMap fun
      | .gap c => [c]
      | .found w => replace w).length ≤ (segs.flatMap Segment.text).length := by
  induction segs with
  | nil => exact Nat.le.refl
  | cons s segs ih =>
    rw [List.flatMap_cons, List.flatMap_cons, List.length_append, List.length_append]
    refine Nat.add_le_add ?_ ih
    cases s with
    | gap c => exact Nat.le.refl
    | found w => exact h w

/-- A text without a match is kept. -/
theorem sub_gaps {p : Pattern α} (replace : List α → List α) {t : List α}
    (hinside : ∀ pl e, pl.rest <:+ t → e ∈ p.runs pl → pl.rest.length ≤ e.rest.length) :
    sub p replace t = t := by
  have hgaps := @segmentsFrom_gaps _ _ _ hinside _ ⟨[], t⟩ (List.suffix_refl t) Nat.le.refl
  rw [sub, segments, hgaps, List.flatMap_map]
  exact List.flatMap_singleton' t

/-- A match at the start is replaced, and what comes of the rest is no longer than the rest. -/
theorem sub_first {p : Pattern α} {replace : List α → List α}
    (hshort : ∀ w, (replace w).length ≤ w.length) {t w : List α} {e : Place α}
    (hm : p.matchAt ⟨[], t⟩ = some e) (hw : Along ⟨[], t⟩ w e) (hne : w ≠ []) :
    ∃ rest, sub p replace t = replace w ++ rest ∧ rest.length ≤ e.rest.length := by
  have ht : t = w ++ e.rest := hw.rest
  have hlen := congrArg List.length ht
  have hpos := List.length_pos_iff.mpr hne
  rw [List.length_append] at hlen
  obtain ⟨c, u, hcons⟩ : ∃ c u, t = c :: u := List.exists_cons_of_ne_nil (by
    rintro rfl
    simp only [List.length_nil] at hlen
    omega)
  have hfilter : (p.matchAt ⟨[], t⟩).filter (fun e => e.rest.length < t.length) = some e := by
    rw [hm, Option.filter_some, if_pos (by simp; omega)]
  have hseg : segments p t = .found w :: segmentsFrom p u.length e := by
    rw [segments]
    have hl : t.length = u.length + 1 := by rw [hcons]; rfl
    rw [hl, segmentsFrom]
    split
    · next hr =>
      dsimp only at hr
      rw [hcons] at hr
      cases hr
    · split
      · next e' he =>
        rw [hfilter] at he
        obtain rfl := Option.some.inj he
        rw [hw.take]
      · next he =>
        rw [hfilter] at he
        cases he
  refine ⟨(segmentsFrom p u.length e).flatMap fun
    | .gap c => [c]
    | .found w => replace w, by rw [sub, hseg, List.flatMap_cons], ?_⟩
  refine (segments_length hshort _).trans ?_
  rw [segmentsFrom_text p (by rw [hcons, List.length_cons] at hlen; omega)]

/-! ## Texts filled in -/

/-- `out` is the segments with every match replaced by something `R` allows. -/
inductive Fills (R : List α → List α → Prop) : List (Segment α) → List α → Prop
  | nil : Fills R [] []
  | gap {c : α} {segs : List (Segment α)} {out : List α} (h : Fills R segs out) :
    Fills R (.gap c :: segs) (c :: out)
  | found {w r : List α} {segs : List (Segment α)} {out : List α} (hr : R w r) (h : Fills R segs out) :
    Fills R (.found w :: segs) (r ++ out)

theorem fills_sub (replace : List α → List α) (segs : List (Segment α)) :
    Fills (fun w r => r = replace w) segs (segs.flatMap fun
      | .gap c => [c]
      | .found w => replace w) := by
  induction segs with
  | nil => exact .nil
  | cons s segs ih =>
    cases s with
    | gap c => exact .gap ih
    | found w => exact .found rfl ih

/-- A property of texts that survives cutting a match out and putting texts one behind the other. -/
structure Cuts (p : Pattern α) (P Q : List α → Prop) : Prop where
  append : ∀ {t u}, P t → P u → P (t ++ u)
  cut : ∀ {pl e : Place α} {w : List α}, e ∈ p.runs pl → Along pl w e →
    ∀ {u}, P (u ++ w ++ e.rest) → P u ∧ Q w ∧ P e.rest

/-- What is found in a text with such a property, and the text with the matches replaced. -/
theorem Cuts.segmentsFrom {p : Pattern α} {P Q : List α → Prop} (hp : Cuts p P Q)
    {R : List α → List α → Prop} (hR : ∀ w r, Q w → R w r → P r) {fuel : Nat} {pl : Place α}
    (hf : pl.rest.length ≤ fuel) {u out : List α} (hu : P (u ++ pl.rest))
    (hout : Fills R (segmentsFrom p fuel pl) out) :
    (∀ w, .found w ∈ segmentsFrom p fuel pl → Q w) ∧ P (u ++ out) := by
  induction fuel generalizing pl u out with
  | zero =>
    rw [Regex.segmentsFrom] at hout ⊢
    cases hout
    rw [List.eq_nil_of_length_eq_zero (Nat.le_zero.mp hf)] at hu
    exact ⟨nofun, hu⟩
  | succ fuel ih =>
    rw [Regex.segmentsFrom] at hout ⊢
    split at hout
    · next hr =>
      cases hout
      rw [hr] at hu
      exact ⟨nofun, hu⟩
    · next c t hr =>
      rw [hr] at hf hu
      split at hout
      · next e he =>
        obtain ⟨hmem, hlt⟩ := matchAt_along he
        obtain ⟨w, hw⟩ := runs_along p pl e hmem
        rw [hw.take] at hout ⊢
        have hrest := hw.rest
        rw [hr] at hrest hlt
        rw [hrest, ← List.append_assoc] at hu
        obtain ⟨hu, hq, he⟩ := hp.cut hmem hw hu
        cases hout with
        | found hrep hout =>
          obtain ⟨hfound, hpout⟩ := @ih e (by omega) [] _ he hout
          refine ⟨fun v hv => ?_, hp.append hu (hp.append (hR _ _ hq hrep) hpout)⟩
          rcases List.mem_cons.mp hv with hv | hv
          · cases hv
            exact hq
          · exact hfound v hv
      · cases hout with
        | gap hout =>
          have hu' : P (u ++ [c] ++ t) := by rwa [List.append_assoc]
          obtain ⟨hfound, hpout⟩ := @ih ⟨c :: pl.before, t⟩ (by simpa using hf) (u ++ [c]) _ hu' hout
          refine ⟨fun v hv => ?_, by rwa [List.append_assoc] at hpout⟩
          rcases List.mem_cons.mp hv with hv | hv
          · cases hv
          · exact hfound v hv

theorem Cuts.sub {p : Pattern α} {P Q : List α → Prop} (hp : Cuts p P Q)
    {replace : List α → List α} (hr : ∀ w, Q w → P (replace w)) {t : List α} (h : P t) :
    P (sub p replace t) := by
  have hkeep : ∀ w r, Q w → r = replace w → P r := by
    rintro w r hq rfl
    exact hr w hq
  have hnil : P ([] ++ t) := h
  exact (@Cuts.segmentsFrom _ _ _ _ hp _ hkeep _ ⟨[], t⟩ Nat.le.refl [] _ hnil
    (fills_sub replace (segments p t))).2

end MainframeRag.Regex
