import MainframeRag.Lib.Regex

/-!
# Reading a text with matches cut out

`cutSegments` are the pieces of a scan in which the matches to keep are gaps, `left` is what they
leave. A reading (`H before word behind`) of what is left was one of the text before, or it is
joined across a place where a match was cut out (`occurs_left_iff`). A reading that never holds a
separator is one of a text between separators (`Local.occurs_append`), so a pass that only rewrites
separators changes none (`SameReadings.sub`).
-/

namespace MainframeRag.Regex

variable {α : Type}

/-! ## Patterns that read words -/

/-- The pattern reads the words of `P`, wherever it stands. -/
def Pattern.Words (p : Pattern α) (P : List α → Prop) : Prop :=
  ∀ pl e, e ∈ p.runs pl ↔ ∃ w, P w ∧ Along pl w e

theorem Along.target {pl e : Place α} {w : List α} (h : Along pl w e) :
    e = ⟨w.reverse ++ pl.before, e.rest⟩ := by
  obtain ⟨b, r⟩ := e
  rw [← h.before]

namespace Pattern.Words

theorem empty : (Pattern.empty : Pattern α).Words (· = []) := by
  intro pl e
  constructor
  · intro h
    exact ⟨[], rfl, List.mem_singleton.mp h ▸ .refl pl⟩
  · rintro ⟨w, rfl, h⟩
    obtain ⟨b, r⟩ := pl
    have hr : r = e.rest := h.rest
    rw [h.target, ← hr]
    exact List.mem_singleton.mpr rfl

theorem one (f : α → Bool) : (Pattern.one f).Words (fun w => ∃ c, w = [c] ∧ f c = true) := by
  intro pl e
  constructor
  · intro h
    obtain ⟨c, hc, ha⟩ := mem_runs_one h
    exact ⟨[c], ⟨c, rfl, hc⟩, ha⟩
  · rintro ⟨w, ⟨c, rfl, hc⟩, ha⟩
    rw [Pattern.runs, ha.rest, ha.target]
    simp [hc]

theorem word [DecidableEq α] (v : List α) : (Pattern.word v).Words (· = v) := by
  intro pl e
  rw [mem_runs_word]
  exact ⟨fun h => ⟨v, rfl, h⟩, fun ⟨_, hw, h⟩ => hw ▸ h⟩

theorem seq {p q : Pattern α} {P Q : List α → Prop} (hp : p.Words P) (hq : q.Words Q) :
    (p.seq q).Words (fun w => ∃ v u, w = v ++ u ∧ P v ∧ Q u) := by
  intro pl e
  rw [mem_runs_seq]
  constructor
  · rintro ⟨m, hm, he⟩
    obtain ⟨v, hv, h1⟩ := (hp pl m).mp hm
    obtain ⟨u, hu, h2⟩ := (hq m e).mp he
    exact ⟨v ++ u, ⟨v, u, rfl, hv, hu⟩, h1.trans h2⟩
  · rintro ⟨w, ⟨v, u, rfl, hv, hu⟩, ha⟩
    have h1 : Along pl v ⟨v.reverse ++ pl.before, u ++ e.rest⟩ :=
      ⟨by rw [ha.rest, List.append_assoc], rfl⟩
    have h2 : Along ⟨v.reverse ++ pl.before, u ++ e.rest⟩ u e :=
      ⟨rfl, by rw [ha.before, List.reverse_append, List.append_assoc]⟩
    exact ⟨_, (hp _ _).mpr ⟨v, hv, h1⟩, (hq _ _).mpr ⟨u, hu, h2⟩⟩

theorem alt {p q : Pattern α} {P Q : List α → Prop} (hp : p.Words P) (hq : q.Words Q) :
    (p.alt q).Words (fun w => P w ∨ Q w) := by
  intro pl e
  rw [Pattern.runs, List.mem_append, hp pl e, hq pl e]
  constructor
  · rintro (⟨w, hw, h⟩ | ⟨w, hw, h⟩)
    · exact ⟨w, .inl hw, h⟩
    · exact ⟨w, .inr hw, h⟩
  · rintro ⟨w, hw | hw, h⟩
    · exact .inl ⟨w, hw, h⟩
    · exact .inr ⟨w, hw, h⟩

theorem congr {p : Pattern α} {P Q : List α → Prop} (h : p.Words P) (hPQ : ∀ w, P w ↔ Q w) :
    p.Words Q := by
  intro pl e
  rw [h pl e]
  exact exists_congr fun w => and_congr_left fun _ => hPQ w

theorem opt {p : Pattern α} {P : List α → Prop} (hp : p.Words P) :
    (Pattern.opt p).Words (fun w => w = [] ∨ P w) :=
  (hp.alt empty).congr fun _ => or_comm

theorem exactly (n : Nat) (f : α → Bool) :
    (Pattern.exactly n (.one f)).Words (fun w => w.length = n ∧ ∀ c ∈ w, f c = true) := by
  induction n with
  | zero =>
    refine empty.congr fun w => ⟨?_, fun h => List.eq_nil_of_length_eq_zero h.1⟩
    rintro rfl
    exact ⟨rfl, by simp⟩
  | succ n ih =>
    refine ((one f).seq ih).congr fun w => ?_
    constructor
    · rintro ⟨v, u, rfl, ⟨c, rfl, hc⟩, hlen, hall⟩
      exact ⟨by simp [hlen], List.forall_mem_cons.mpr ⟨hc, hall⟩⟩
    · rintro ⟨hlen, hall⟩
      cases w with
      | nil => cases hlen
      | cons c u =>
        obtain ⟨hc, hall⟩ := List.forall_mem_cons.mp hall
        exact ⟨[c], u, rfl, ⟨c, rfl, hc⟩, by simpa using hlen, hall⟩

theorem upTo (n : Nat) (f : α → Bool) :
    (Pattern.upTo n (.one f)).Words (fun w => w.length ≤ n ∧ ∀ c ∈ w, f c = true) := by
  induction n with
  | zero =>
    refine empty.congr fun w => ⟨?_, fun h => List.eq_nil_of_length_eq_zero (Nat.le_zero.mp h.1)⟩
    rintro rfl
    exact ⟨Nat.le.refl, by simp⟩
  | succ n ih =>
    refine ((one f).seq ih).opt.congr fun w => ?_
    constructor
    · rintro (rfl | ⟨v, u, rfl, ⟨c, rfl, hc⟩, hlen, hall⟩)
      · exact ⟨Nat.zero_le _, by simp⟩
      · exact ⟨by simpa using hlen, List.forall_mem_cons.mpr ⟨hc, hall⟩⟩
    · rintro ⟨hlen, hall⟩
      cases w with
      | nil => exact .inl rfl
      | cons c u =>
        obtain ⟨hc, hall⟩ := List.forall_mem_cons.mp hall
        exact .inr ⟨[c], u, rfl, ⟨c, rfl, hc⟩, by simpa using hlen, hall⟩

theorem many (lazily : Bool) (f : α → Bool) :
    (Pattern.many lazily (.one f)).Words (fun w => ∀ c ∈ w, f c = true) :=
  fun _ _ => ⟨fun h => (runs_many_all h).imp fun _ hw => ⟨hw.2, hw.1⟩,
    fun ⟨_, hw, h⟩ => mem_runs_many hw h⟩

theorem plus (f : α → Bool) :
    (Pattern.plus (.one f)).Words (fun w => w ≠ [] ∧ ∀ c ∈ w, f c = true) := by
  refine ((one f).seq (many false f)).congr fun w => ?_
  constructor
  · rintro ⟨_, u, rfl, ⟨c, rfl, hc⟩, hu⟩
    exact ⟨List.cons_ne_nil c u, List.forall_mem_cons.mpr ⟨hc, hu⟩⟩
  · rintro ⟨hne, hw⟩
    obtain ⟨c, u, rfl⟩ := List.exists_cons_of_ne_nil hne
    obtain ⟨hc, hu⟩ := List.forall_mem_cons.mp hw
    exact ⟨[c], u, rfl, ⟨c, rfl, hc⟩, hu⟩

end Pattern.Words

theorem mem_runs_test_seq {f : Place α → Bool} {q : Pattern α} {pl e : Place α} :
    e ∈ ((Pattern.test f).seq q).runs pl ↔ f pl = true ∧ e ∈ q.runs pl := by
  rw [mem_runs_seq]
  constructor
  · rintro ⟨m, hm, he⟩
    obtain rfl := mem_runs_test hm
    rw [Pattern.runs] at hm
    split at hm
    · next hf => exact ⟨hf, he⟩
    · cases hm
  · rintro ⟨hf, he⟩
    refine ⟨pl, ?_, he⟩
    rw [Pattern.runs, if_pos hf]
    exact List.mem_singleton.mpr rfl

/-- The runs read elements of `f` only. -/
def Pattern.Only (p : Pattern α) (f : α → Bool) : Prop :=
  ∀ pl, ∀ e ∈ p.runs pl, ∃ w, Along pl w e ∧ ∀ c ∈ w, f c = true

namespace Pattern.Only

theorem empty (f : α → Bool) : (Pattern.empty : Pattern α).Only f := by
  intro pl e he
  exact ⟨[], List.mem_singleton.mp he ▸ .refl pl, by simp⟩

theorem one {f g : α → Bool} (h : ∀ c, f c = true → g c = true) : (Pattern.one f).Only g := by
  intro pl e he
  obtain ⟨c, hc, ha⟩ := mem_runs_one he
  exact ⟨[c], ha, by simpa using h c hc⟩

theorem seq {p q : Pattern α} {f : α → Bool} (hp : p.Only f) (hq : q.Only f) : (p.seq q).Only f := by
  intro pl e he
  obtain ⟨m, hm, he⟩ := mem_runs_seq.mp he
  obtain ⟨v, hv, h1⟩ := hp pl m hm
  obtain ⟨w, hw, h2⟩ := hq m e he
  exact ⟨v ++ w, hv.trans hw, fun c hc => (List.mem_append.mp hc).elim (h1 c) (h2 c)⟩

theorem test (g : Place α → Bool) (f : α → Bool) : (Pattern.test g).Only f := by
  intro pl e he
  rw [mem_runs_test he]
  exact ⟨[], .refl pl, by simp⟩

theorem alt {p q : Pattern α} {f : α → Bool} (hp : p.Only f) (hq : q.Only f) : (p.alt q).Only f :=
  fun pl e he => (List.mem_append.mp he).elim (hp pl e) (hq pl e)

theorem many {lazily : Bool} {p : Pattern α} {f : α → Bool} (hp : p.Only f) :
    (Pattern.many lazily p).Only f := by
  have hfuel : ∀ (fuel : Nat) (pl : Place α), ∀ e ∈ repeatRuns lazily p.runs fuel pl,
      ∃ w, Along pl w e ∧ ∀ c ∈ w, f c = true := by
    intro fuel
    induction fuel with
    | zero =>
      intro pl e he
      rw [repeatRuns, List.mem_singleton] at he
      exact ⟨[], he ▸ .refl pl, by simp⟩
    | succ fuel ih =>
      intro pl e he
      rcases repeatRuns_cases he with rfl | ⟨m, hm, he⟩
      · exact ⟨[], .refl e, by simp⟩
      · obtain ⟨v, hv, h1⟩ := hp pl m hm
        obtain ⟨w, hw, h2⟩ := ih m e he
        exact ⟨v ++ w, hv.trans hw, fun c hc => (List.mem_append.mp hc).elim (h1 c) (h2 c)⟩
  exact fun pl => hfuel _ pl

end Pattern.Only

/-! ## Preferred runs -/

theorem head?_flatMap {β γ : Type} {f : β → List γ} {l : List β} {e : γ}
    (h : (l.flatMap f).head? = some e) : ∃ m ∈ l, (f m).head? = some e := by
  induction l with
  | nil => cases h
  | cons m l ih =>
    rw [List.flatMap_cons, List.head?_append] at h
    cases hm : (f m).head? with
    | none =>
      rw [hm, Option.none_or] at h
      obtain ⟨m', hm', he⟩ := ih h
      exact ⟨m', List.mem_cons_of_mem m hm', he⟩
    | some e' =>
      rw [hm, Option.some_or] at h
      exact ⟨m, List.mem_cons_self, hm.trans h⟩

namespace Pattern

theorem matchAt_none {p : Pattern α} {pl : Place α} : p.matchAt pl = none ↔ p.runs pl = [] :=
  List.head?_eq_none_iff

theorem seq_runs {p q : Pattern α} {pl m : Place α} (hm : m ∈ p.runs pl) (hq : q.runs m ≠ []) :
    (p.seq q).runs pl ≠ [] := by
  obtain ⟨e, he⟩ := List.exists_mem_of_ne_nil _ hq
  exact List.ne_nil_of_mem (mem_runs_seq.mpr ⟨m, hm, he⟩)

theorem matchAt_seq {p q : Pattern α} {pl e : Place α} (h : (p.seq q).matchAt pl = some e) :
    ∃ m ∈ p.runs pl, q.matchAt m = some e := head?_flatMap h

/-- An option is passed over only when nothing behind it goes on. -/
theorem matchAt_opt_seq {p q : Pattern α} {pl e : Place α}
    (h : ((opt p).seq q).matchAt pl = some e) :
    (∃ m ∈ p.runs pl, q.matchAt m = some e) ∨
      (∀ m ∈ p.runs pl, q.runs m = []) ∧ q.matchAt pl = some e := by
  have hruns : ((opt p).seq q).runs pl = (p.runs pl).flatMap q.runs ++ q.runs pl := by
    rw [runs, opt, runs, List.flatMap_append, runs, List.flatMap_singleton]
  rw [matchAt, hruns, List.head?_append] at h
  cases hp : ((p.runs pl).flatMap q.runs).head? with
  | none =>
    rw [hp, Option.none_or] at h
    exact .inr ⟨List.flatMap_eq_nil_iff.mp (List.head?_eq_none_iff.mp hp), h⟩
  | some e' =>
    rw [hp, Option.some_or] at h
    exact .inl (head?_flatMap (hp.trans h))

theorem seq_assoc_runs (p q r : Pattern α) (pl : Place α) :
    ((p.seq q).seq r).runs pl = (p.seq (q.seq r)).runs pl := List.flatMap_assoc

theorem matchAt_alt {p q : Pattern α} {pl e : Place α} (h : (p.alt q).matchAt pl = some e) :
    p.matchAt pl = some e ∨ q.matchAt pl = some e := by
  rw [matchAt, runs, List.head?_append] at h
  cases hp : (p.runs pl).head? with
  | none =>
    rw [hp, Option.none_or] at h
    exact .inr h
  | some e' =>
    rw [hp, Option.some_or] at h
    exact .inl (hp.trans h)

theorem matchAt_seq_empty (p : Pattern α) (pl : Place α) :
    (p.seq empty).matchAt pl = p.matchAt pl :=
  congrArg List.head? (List.flatMap_singleton' _)

/-- An option is passed over only when it cannot be read. -/
theorem matchAt_opt {p : Pattern α} {pl e : Place α} (h : (opt p).matchAt pl = some e) :
    p.matchAt pl = some e ∨ p.runs pl = [] ∧ e = pl := by
  rw [matchAt, opt, runs, List.head?_append] at h
  cases hp : (p.runs pl).head? with
  | none =>
    rw [hp, Option.none_or] at h
    exact .inr ⟨List.head?_eq_none_iff.mp hp, (Option.some.inj h).symm⟩
  | some e' =>
    rw [hp, Option.some_or] at h
    exact .inl (hp.trans h)

end Pattern

/-- Every run reads something. -/
def Pattern.Eats (p : Pattern α) : Prop := ∀ pl, ∀ e ∈ p.runs pl, e.rest.length < pl.rest.length

theorem Pattern.Eats.one (f : α → Bool) : (Pattern.one f).Eats := by
  intro pl e he
  obtain ⟨c, -, ha⟩ := mem_runs_one he
  rw [ha.rest, List.length_append]
  exact Nat.lt_add_of_pos_left Nat.zero_lt_one

theorem Pattern.Eats.first {p : Pattern α} (hp : p.Eats) (q : Pattern α) : (p.seq q).Eats := by
  intro pl e he
  obtain ⟨m, hm, he⟩ := mem_runs_seq.mp he
  obtain ⟨w, hw⟩ := runs_along q m e he
  exact Nat.lt_of_le_of_lt hw.le (hp pl m hm)

theorem Pattern.Eats.second (p : Pattern α) {q : Pattern α} (hq : q.Eats) : (p.seq q).Eats := by
  intro pl e he
  obtain ⟨m, hm, he⟩ := mem_runs_seq.mp he
  obtain ⟨w, hw⟩ := runs_along p pl m hm
  exact Nat.lt_of_lt_of_le (hq m e he) hw.le

theorem Pattern.Eats.alt {p q : Pattern α} (hp : p.Eats) (hq : q.Eats) : (p.alt q).Eats := by
  intro pl e he
  exact (List.mem_append.mp he).elim (hp pl e) (hq pl e)

/-- What a repetition reads last is a preferred run. -/
theorem plus_matchAt {p : Pattern α} (heats : p.Eats) {pl e : Place α}
    (h : (Pattern.plus p).matchAt pl = some e) : ∃ m, p.matchAt m = some e := by
  have hfuel : ∀ (fuel : Nat) (pl : Place α), (repeatRuns false p.runs fuel pl).head? = some e →
      e = pl ∨ ∃ m, p.matchAt m = some e := by
    intro fuel
    induction fuel with
    | zero => exact fun pl h => .inl (Option.some.inj h).symm
    | succ fuel ih =>
      intro pl h
      have hall : (p.runs pl).filter (fun e => e.rest.length < pl.rest.length) = p.runs pl :=
        List.filter_eq_self.mpr fun m hm => by simpa using heats pl m hm
      rw [repeatRuns, if_neg Bool.false_ne_true, hall] at h
      cases hm : p.matchAt pl with
      | none =>
        rw [Pattern.matchAt_none.mp hm] at h
        exact .inl (Option.some.inj h).symm
      | some m =>
        obtain ⟨more, hmore⟩ := List.head?_eq_some_iff.mp hm
        rw [hmore, List.flatMap_cons, List.append_assoc, List.head?_append_of_ne_nil _
          (List.ne_nil_of_mem (repeatRuns_stop false _ fuel m))] at h
        rcases ih m h with rfl | h
        · exact .inr ⟨pl, hm⟩
        · exact .inr h
  cases hm : p.matchAt pl with
  | none =>
    rw [Pattern.matchAt, Pattern.plus, Pattern.runs, Pattern.matchAt_none.mp hm] at h
    cases h
  | some m =>
    obtain ⟨more, hmore⟩ := List.head?_eq_some_iff.mp hm
    have hne : (Pattern.star p).runs m ≠ [] := List.ne_nil_of_mem (repeatRuns_stop false _ _ m)
    rw [Pattern.matchAt, Pattern.plus, Pattern.runs, hmore, List.flatMap_cons,
      List.head?_append_of_ne_nil _ hne] at h
    rcases hfuel _ m h with rfl | h
    · exact ⟨pl, hm⟩
    · exact h

/-- A greedy repetition does not stop where it could read more. -/
theorem star_matchAt {p : Pattern α} {pl e : Place α} (h : (Pattern.star p).matchAt pl = some e) :
    ∀ m ∈ p.runs e, ¬m.rest.length < e.rest.length := by
  have hfuel : ∀ (fuel : Nat) (pl : Place α), pl.rest.length ≤ fuel →
      (repeatRuns false p.runs fuel pl).head? = some e →
      ∀ m ∈ p.runs e, ¬m.rest.length < e.rest.length := by
    intro fuel
    induction fuel with
    | zero =>
      intro pl hlen h m _
      cases h
      omega
    | succ fuel ih =>
      intro pl hlen h
      rw [repeatRuns, if_neg Bool.false_ne_true, List.head?_append] at h
      cases hmore : (((p.runs pl).filter (fun e => e.rest.length < pl.rest.length)).flatMap
          (repeatRuns false p.runs fuel)).head? with
      | some e' =>
        rw [hmore, Option.some_or] at h
        cases h
        obtain ⟨m, hm, he⟩ := head?_flatMap hmore
        have hlt : m.rest.length < pl.rest.length := by simpa using (List.mem_filter.mp hm).2
        exact ih m (by omega) he
      | none =>
        rw [hmore, Option.none_or] at h
        cases h
        intro m hm hlt
        have hin : m ∈ (p.runs e).filter (fun m => m.rest.length < e.rest.length) :=
          List.mem_filter.mpr ⟨hm, by simpa using hlt⟩
        have hnil := List.flatMap_eq_nil_iff.mp (List.head?_eq_none_iff.mp hmore) m hin
        exact List.ne_nil_of_mem (repeatRuns_stop false _ fuel m) hnil
  exact hfuel _ pl Nat.le.refl h

theorem star_one_matchAt {f : α → Bool} {pl e : Place α}
    (h : (Pattern.star (.one f)).matchAt pl = some e) : ∀ c, e.rest.head? = some c → f c = false := by
  intro c hc
  obtain ⟨b, r⟩ := e
  cases r with
  | nil => cases hc
  | cons d r =>
    cases hc
    cases hf : f c with
    | false => rfl
    | true =>
      have hrun : (⟨c :: b, r⟩ : Place α) ∈ (Pattern.one f).runs ⟨b, c :: r⟩ :=
        (Pattern.Words.one f _ _).mpr ⟨[c], ⟨c, rfl, hf⟩, rfl, rfl⟩
      exact absurd (Nat.lt_succ_self r.length) (star_matchAt h _ hrun)

/-! ## Places of a scan -/

def textOf (segs : List (Segment α)) : List α := segs.flatMap Segment.text

theorem textOf_append (l m : List (Segment α)) : textOf (l ++ m) = textOf l ++ textOf m :=
  List.flatMap_append

theorem textOf_cons (s : Segment α) (l : List (Segment α)) : textOf (s :: l) = s.text ++ textOf l :=
  List.flatMap_cons

theorem textOf_gaps (w : List α) : textOf (w.map Segment.gap) = w := by
  rw [textOf, List.flatMap_map]
  exact List.flatMap_singleton' w

theorem textOf_segments (p : Pattern α) (t : List α) : textOf (segments p t) = t :=
  @segmentsFrom_text _ p _ ⟨[], t⟩ Nat.le.refl

/-- The end of a scan is a scan of the end. -/
theorem segmentsFrom_suffix {p : Pattern α} {fuel : Nat} {pl : Place α}
    {front back : List (Segment α)} (hf : pl.rest.length ≤ fuel)
    (h : segmentsFrom p fuel pl = front ++ back) : ∃ fuel', (textOf back).length ≤ fuel' ∧
      segmentsFrom p fuel' ⟨(textOf front).reverse ++ pl.before, textOf back⟩ = back := by
  induction front generalizing fuel pl with
  | nil =>
    rw [List.nil_append] at h
    have htext : textOf back = pl.rest := h ▸ segmentsFrom_text p hf
    exact ⟨fuel, htext ▸ hf, by rw [htext]; exact h⟩
  | cons s front ih =>
    cases fuel with
    | zero =>
      rw [segmentsFrom] at h
      cases h
    | succ fuel =>
      rw [segmentsFrom] at h
      split at h
      · cases h
      · next c t hr =>
        split at h
        · next e he =>
          obtain ⟨hmem, hlt⟩ := matchAt_along he
          obtain ⟨w, hw⟩ := runs_along p pl e hmem
          rw [hw.take] at h
          obtain ⟨rfl, hscan⟩ := List.cons.inj h
          obtain ⟨fuel', hlen, hback⟩ := ih (by omega) hscan
          refine ⟨fuel', hlen, ?_⟩
          rwa [hw.before, ← List.append_assoc, ← List.reverse_append] at hback
        · obtain ⟨rfl, hscan⟩ := List.cons.inj h
          rw [hr] at hf
          obtain ⟨fuel', hlen, hback⟩ := @ih fuel ⟨c :: pl.before, t⟩ (by simpa using hf) hscan
          refine ⟨fuel', hlen, ?_⟩
          rwa [textOf_cons, List.reverse_append, List.append_assoc]

/-- No run starts where the scan passes an element over. -/
theorem segments_gap {p : Pattern α} (heats : p.Eats) {t : List α} {c : α}
    {front back : List (Segment α)} (h : segments p t = front ++ .gap c :: back) :
    p.runs ⟨(textOf front).reverse, c :: textOf back⟩ = [] := by
  obtain ⟨fuel, hlen, hscan⟩ := @segmentsFrom_suffix _ p _ ⟨[], t⟩ _ _ Nat.le.refl h
  rw [List.append_nil] at hscan
  cases fuel with
  | zero =>
    rw [segmentsFrom] at hscan
    cases hscan
  | succ fuel =>
    rw [segmentsFrom] at hscan
    split at hscan
    · cases hscan
    · next d u hr =>
      split at hscan
      · cases hscan
      · next hnone =>
        refine Pattern.matchAt_none.mp (Option.eq_none_iff_forall_not_mem.mpr fun e he => ?_)
        have he' : p.matchAt ⟨(textOf front).reverse, textOf (.gap c :: back)⟩ = some e := he
        have hlt := heats _ e (List.mem_of_head? he')
        rw [he', Option.filter_some, if_pos (by simpa using hlt)] at hnone
        cases hnone

/-- What the scan finds is the preferred run there. -/
theorem segments_found {p : Pattern α} {t w : List α} {front back : List (Segment α)}
    (h : segments p t = front ++ .found w :: back) :
    p.matchAt ⟨(textOf front).reverse, w ++ textOf back⟩ =
      some ⟨w.reverse ++ (textOf front).reverse, textOf back⟩ := by
  obtain ⟨fuel, hlen, hscan⟩ := @segmentsFrom_suffix _ p _ ⟨[], t⟩ _ _ Nat.le.refl h
  rw [List.append_nil] at hscan
  cases fuel with
  | zero =>
    rw [segmentsFrom] at hscan
    cases hscan
  | succ fuel =>
    rw [segmentsFrom] at hscan
    split at hscan
    · cases hscan
    · split at hscan
      · next e he =>
        obtain ⟨hmem, hlt⟩ := matchAt_along he
        obtain ⟨v, hv⟩ := runs_along p _ e hmem
        rw [hv.take] at hscan
        obtain ⟨hw, -⟩ := List.cons.inj hscan
        cases hw
        have hrest : e.rest = textOf back := List.append_cancel_left (hv.rest.symm.trans rfl)
        rw [hv.target, hrest] at he
        exact (Option.filter_eq_some_iff.mp he).1
      · cases hscan

/-- A text in which nothing is found holds no run. -/
theorem search_false {p : Pattern α} (heats : p.Eats) {t : List α} (h : search p t = false)
    {a w r : List α} (ht : t = a ++ w ++ r) (hne : w ≠ []) : p.runs ⟨a.reverse, w ++ r⟩ = [] := by
  have hnil : found p t = [] := List.isEmpty_iff.mp (by simpa [search] using h)
  have hgap : ∀ s ∈ segments p t, ∃ c, s = .gap c := by
    intro s hs
    cases s with
    | gap c => exact ⟨c, rfl⟩
    | found w =>
      have hin : w ∈ found p t := List.mem_filterMap.mpr ⟨_, hs, rfl⟩
      rw [hnil] at hin
      cases hin
  have hgaps : ∀ segs : List (Segment α), (∀ s ∈ segs, ∃ c, s = .gap c) →
      segs = (textOf segs).map .gap := by
    intro segs hsegs
    induction segs with
    | nil => rfl
    | cons s segs ih =>
      obtain ⟨⟨c, rfl⟩, htail⟩ := List.forall_mem_cons.mp hsegs
      exact congrArg (.gap c :: ·) (ih htail)
  have hall := hgaps (segments p t) hgap
  rw [textOf_segments, ht] at hall
  obtain ⟨c, w, rfl⟩ := List.exists_cons_of_ne_nil hne
  have hsplit : segments p t = a.map .gap ++ .gap c :: (w ++ r).map .gap := by
    rw [ht, hall]
    simp
  have hnone := segments_gap heats hsplit
  rwa [textOf_gaps, textOf_gaps] at hnone

/-- What replacements keep of a property of the elements. -/
theorem forall_mem_sub {p : Pattern α} {replace : List α → List α} {P : α → Prop}
    (hr : ∀ w, (∀ c ∈ w, P c) → ∀ c ∈ replace w, P c) {t : List α} (h : ∀ c ∈ t, P c) :
    ∀ c ∈ sub p replace t, P c := by
  have hsegs : ∀ s ∈ segments p t, ∀ c ∈ s.text, P c := by
    intro s hs c hc
    refine h c ?_
    rw [← textOf_segments p t]
    exact List.mem_flatMap.mpr ⟨s, hs, hc⟩
  intro c hc
  obtain ⟨s, hs, hc⟩ := List.mem_flatMap.mp hc
  cases s with
  | gap d => exact hsegs _ hs c hc
  | found w => exact hr w (hsegs _ hs) c hc

/-! ## Matches cut out -/

/-- The pieces of a scan, the matches to keep in gaps. -/
def cutSegments (p : Pattern α) (keep : List α → Bool) (t : List α) : List (Segment α) :=
  (segments p t).flatMap fun
    | .gap c => [.gap c]
    | .found w => if keep w then w.map .gap else [.found w]

/-- The elements outside the matches. -/
def left (segs : List (Segment α)) : List α :=
  segs.filterMap fun
    | .gap c => some c
    | .found _ => none

theorem left_append (l m : List (Segment α)) : left (l ++ m) = left l ++ left m :=
  List.filterMap_append

theorem left_gaps (w : List α) : left (w.map Segment.gap) = w := by
  rw [left, List.filterMap_map]
  exact List.filterMap_some

theorem left_cutSegments (p : Pattern α) (keep : List α → Bool) (t : List α) :
    left (cutSegments p keep t) = sub p (fun w => if keep w then w else []) t := by
  rw [cutSegments, sub, left, List.filterMap_flatMap]
  refine List.flatMap_congr fun s _ => ?_
  cases s with
  | gap c => rfl
  | found w =>
    dsimp only
    split
    · exact left_gaps w
    · rfl

theorem mem_flatMap_split {β γ : Type} {f : β → List γ} {l : List β} {front back : List γ} {x : γ}
    (h : l.flatMap f = front ++ x :: back) : ∃ l1 s l2 u v, l = l1 ++ s :: l2 ∧
      f s = u ++ x :: v ∧ front = l1.flatMap f ++ u ∧ back = v ++ l2.flatMap f := by
  induction l generalizing front with
  | nil =>
    have := congrArg List.length h
    simp at this
  | cons s l ih =>
    rw [List.flatMap_cons] at h
    rcases List.append_eq_append_iff.mp h with ⟨m, hm, hr⟩ | ⟨m, hm, hr⟩
    · obtain ⟨l1, s', l2, u, v, rfl, hs', hfront, hback⟩ := ih hr
      refine ⟨s :: l1, s', l2, u, v, rfl, hs', ?_, hback⟩
      rw [List.flatMap_cons, List.append_assoc, ← hfront, hm]
    · cases m with
      | nil =>
        rw [List.nil_append] at hr
        obtain ⟨l1, s', l2, u, v, rfl, hs', hfront, hback⟩ := @ih [] hr.symm
        refine ⟨s :: l1, s', l2, u, v, rfl, hs', ?_, hback⟩
        rw [List.flatMap_cons, List.append_assoc, ← hfront, List.append_nil, hm, List.append_nil]
      | cons y m =>
        obtain ⟨rfl, rfl⟩ := List.cons.inj hr
        exact ⟨[], s, l, front, m, rfl, hm, rfl, rfl⟩

section

variable {p : Pattern α} {keep : List α → Bool} {t : List α} {front back : List (Segment α)}

theorem textOf_cut (keep : List α → Bool) (l : List (Segment α)) :
    textOf (l.flatMap fun
      | .gap c => [.gap c]
      | .found w => if keep w then w.map .gap else [.found w]) = textOf l := by
  rw [textOf, List.flatMap_assoc]
  refine List.flatMap_congr fun s _ => ?_
  cases s with
  | gap c => rfl
  | found w =>
    dsimp only
    split
    · exact textOf_gaps w
    · exact List.append_nil w

/-- A match cut out is one of the scan. -/
theorem cutSegments_found {w : List α} (h : cutSegments p keep t = front ++ .found w :: back) :
    keep w = false ∧ p.matchAt ⟨(textOf front).reverse, w ++ textOf back⟩ =
      some ⟨w.reverse ++ (textOf front).reverse, textOf back⟩ := by
  obtain ⟨l1, s, l2, u, v, hsegs, hs, hfront, hback⟩ := mem_flatMap_split h
  cases s with
  | gap c =>
    have hlen := congrArg List.length hs
    cases u with
    | nil => cases hs
    | cons x u => simp at hlen
  | found w' =>
    dsimp only at hs
    split at hs
    · have hin : Segment.found w ∈ w'.map Segment.gap := by rw [hs]; simp
      obtain ⟨c, -, hc⟩ := List.mem_map.mp hin
      cases hc
    · next hk =>
      cases u with
      | cons x u =>
        have hlen := congrArg List.length hs
        simp at hlen
      | nil =>
        rw [List.nil_append] at hs
        obtain ⟨hw, hv⟩ := List.cons.inj hs
        cases hw
        subst hv
        rw [List.append_nil] at hfront
        rw [List.nil_append] at hback
        rw [hfront, hback, textOf_cut, textOf_cut]
        exact ⟨by simpa using hk, segments_found hsegs⟩

/-- A gap is one of the scan, or inside a match that is kept. -/
theorem cutSegments_gap {c : α} (h : cutSegments p keep t = front ++ .gap c :: back) :
    (∃ front' back', segments p t = front' ++ .gap c :: back' ∧
      textOf front' = textOf front ∧ textOf back' = textOf back) ∨
    ∃ a u v r, keep (u ++ c :: v) = true ∧ textOf front = a ++ u ∧ textOf back = v ++ r ∧
      p.matchAt ⟨a.reverse, u ++ c :: v ++ r⟩ = some ⟨(u ++ c :: v).reverse ++ a.reverse, r⟩ := by
  obtain ⟨l1, s, l2, u, v, hsegs, hs, hfront, hback⟩ := mem_flatMap_split h
  cases s with
  | gap d =>
    cases u with
    | cons x u =>
      have hlen := congrArg List.length hs
      simp at hlen
    | nil =>
      rw [List.nil_append] at hs
      obtain ⟨hd, hv⟩ := List.cons.inj hs
      cases hd
      subst hv
      rw [List.append_nil] at hfront
      rw [List.nil_append] at hback
      exact .inl ⟨l1, l2, hsegs, by rw [hfront, textOf_cut], by rw [hback, textOf_cut]⟩
  | found w =>
    dsimp only at hs
    split at hs
    · next hk =>
      obtain ⟨u', v', rfl, hu, hv⟩ := List.map_eq_append_iff.mp hs
      obtain ⟨d, v', rfl, hd, hv'⟩ := List.map_eq_cons_iff.mp hv
      cases hd
      refine .inr ⟨textOf l1, u', v', textOf l2, hk, ?_, ?_, segments_found hsegs⟩
      · rw [hfront, textOf_append, textOf_cut, ← hu, textOf_gaps]
      · rw [hback, textOf_append, textOf_cut, ← hv', textOf_gaps]
    · cases u with
      | nil => cases hs
      | cons x u =>
        have hlen := congrArg List.length hs
        simp at hlen

end

/-! ## What is read in a text -/

section

variable (H : List α → List α → List α → Prop)

/-- Something is read in the text; what stands before it is given to `H` last first. -/
def Occurs (t : List α) : Prop := ∃ a w r, t = a ++ w ++ r ∧ H a.reverse w r

/-- Something is read across a place where a match was cut out, or right behind it. -/
def Joined (segs : List (Segment α)) : Prop :=
  ∃ front w back, segs = front ++ .found w :: back ∧ ∃ a u v r, left front = a ++ u ∧
    left back = v ++ r ∧ v ≠ [] ∧ H a.reverse (u ++ v) r

end

/-- Readings that never hold a separator, and for which a separator is as good as an end. -/
structure Local (sep : α → Bool) (H : List α → List α → List α → Prop) : Prop where
  nonempty : ∀ {b w r}, H b w r → w ≠ []
  noSep : ∀ {b w r}, H b w r → ∀ c ∈ w, sep c = false
  near : ∀ {b b' w r r'}, b.head?.filter (fun c => !sep c) = b'.head?.filter (fun c => !sep c) →
    r.head?.filter (fun c => !sep c) = r'.head?.filter (fun c => !sep c) → H b w r → H b' w r'

section

variable {sep : α → Bool} {H : List α → List α → List α → Prop}

theorem left_run {segs : List (Segment α)} {u r : List α} (h : left segs = u ++ r) :
    (∃ back, segs = u.map .gap ++ back ∧ left back = r) ∨
      ∃ u' w back v, segs = u'.map .gap ++ .found w :: back ∧ u = u' ++ v ∧ v ≠ [] ∧
        left back = v ++ r := by
  induction segs generalizing u with
  | nil =>
    obtain ⟨rfl, rfl⟩ := List.append_eq_nil_iff.mp h.symm
    exact .inl ⟨[], rfl, rfl⟩
  | cons s segs ih =>
    cases u with
    | nil => exact .inl ⟨_, rfl, h⟩
    | cons c u =>
      cases s with
      | found w => exact .inr ⟨[], w, segs, c :: u, rfl, rfl, List.cons_ne_nil _ _, h⟩
      | gap d =>
        obtain ⟨rfl, htail⟩ := List.cons.inj h
        rcases ih htail with ⟨back, rfl, hb⟩ | ⟨u', w, back, v, rfl, rfl, hv, hb⟩
        · exact .inl ⟨back, rfl, hb⟩
        · exact .inr ⟨d :: u', w, back, v, rfl, rfl, hv, hb⟩

/-- A reading of what is left is joined, or its word stood in one piece. -/
theorem occurs_left (hl : Local sep H) {segs : List (Segment α)} (h : Occurs H (left segs)) :
    Joined H segs ∨ ∃ front c w back, segs = front ++ .gap c :: (w.map .gap ++ back) ∧
      H (textOf front).reverse (c :: w) (left back) := by
  obtain ⟨a, w, r, ht, hH⟩ := h
  rw [List.append_assoc] at ht
  obtain ⟨front, segs', rfl, hfront, hleft⟩ := List.filterMap_eq_append_iff.mp ht
  rcases left_run hleft with ⟨back, rfl, hb⟩ | ⟨u, w', back, v, rfl, rfl, hv, hb⟩
  · obtain ⟨c, w, rfl⟩ := List.exists_cons_of_ne_nil (hl.nonempty hH)
    rcases List.eq_nil_or_concat front with rfl | ⟨front', s, rfl⟩
    · refine .inr ⟨[], c, w, back, rfl, ?_⟩
      rw [hb]
      cases hfront
      exact hH
    · rw [List.concat_eq_append] at hfront ⊢
      cases s with
      | found w' =>
        refine .inl ⟨front', w', (c :: w).map .gap ++ back, by simp, a, [], c :: w, r, ?_, ?_, ?_, hH⟩
        · rw [List.append_nil, ← hfront, left, List.filterMap_append]
          simp
        · rw [left_append, left_gaps, hb]
        · exact List.cons_ne_nil _ _
      | gap d =>
        refine .inr ⟨front' ++ [.gap d], c, w, back, by simp, ?_⟩
        refine hl.near ?_ (by rw [hb]) hH
        have hlast : a = left front' ++ [d] := by
          rw [← hfront, List.filterMap_append]
          rfl
        rw [hlast, textOf_append]
        simp [textOf, Segment.text]
  · refine .inl ⟨front ++ u.map .gap, w', back, by simp, a, u, v, r, ?_, hb, hv, hH⟩
    rw [left_append, left_gaps]
    exact congrArg (· ++ u) hfront

/-- Where nothing is read at a gap, all that is read in what is left is joined. -/
theorem occurs_left_iff (hl : Local sep H) {segs : List (Segment α)}
    (hgap : ∀ {front c w back}, segs = front ++ .gap c :: (w.map .gap ++ back) →
      ¬H (textOf front).reverse (c :: w) (left back)) :
    Occurs H (left segs) ↔ Joined H segs := by
  constructor
  · intro h
    rcases occurs_left hl h with h | ⟨front, c, w, back, hsegs, hH⟩
    · exact h
    · exact absurd hH (hgap hsegs)
  · rintro ⟨front, w, back, rfl, a, u, v, r, hf, hb, -, hH⟩
    refine ⟨a, u ++ v, r, ?_, hH⟩
    have hcons : left (.found w :: back) = left back := rfl
    rw [left_append, hcons, hf, hb]
    simp only [List.append_assoc]

/-! ## Separators -/

theorem head?_sep {c : α} (hc : sep c = true) (x y : List α) :
    (x ++ c :: y).head?.filter (fun c => !sep c) = x.head?.filter (fun c => !sep c) := by
  cases x with
  | nil =>
    rw [List.nil_append, List.head?_cons, Option.filter_some, hc]
    rfl
  | cons d x => rfl

theorem Local.before_sep {c : α} (hc : sep c = true) (u a : List α) :
    (u ++ c :: a).reverse.head?.filter (fun c => !sep c) =
      a.reverse.head?.filter (fun c => !sep c) := by
  rw [List.reverse_append, List.reverse_cons, List.append_assoc]
  exact head?_sep hc _ _

/-- A reading lies on one side of a separator. -/
theorem Local.split (hl : Local sep H) {c : α} (hc : sep c = true) {u v a w r : List α}
    (ht : u ++ c :: v = a ++ w ++ r) (hH : H a.reverse w r) :
    (∃ r', u = a ++ w ++ r' ∧ H a.reverse w r') ∨
      ∃ a', a = u ++ c :: a' ∧ v = a' ++ w ++ r ∧ H a'.reverse w r := by
  have hnot : c ∉ w := fun hm => by
    rw [hl.noSep hH c hm] at hc
    cases hc
  rcases List.append_eq_append_iff.mp ht with ⟨m, hm, hr⟩ | ⟨m, hm, hr⟩
  · cases m with
    | nil =>
      rw [List.append_nil] at hm
      rw [List.nil_append] at hr
      refine .inl ⟨[], by rw [List.append_nil, hm], hl.near rfl ?_ hH⟩
      rw [← hr]
      exact head?_sep hc [] v
    | cons d m =>
      obtain ⟨rfl, hv⟩ := List.cons.inj hr
      rcases List.append_eq_append_iff.mp hm with ⟨n, hn, hw⟩ | ⟨n, hn, hw⟩
      · exact absurd (by rw [hw]; simp) hnot
      · cases n with
        | nil => exact absurd (by rw [← List.nil_append w, ← hw]; simp) hnot
        | cons d n =>
          obtain ⟨rfl, hm⟩ := List.cons.inj hw
          refine .inr ⟨n, hn, by rw [hv, hm]; rfl, hl.near ?_ rfl hH⟩
          rw [hn]
          exact before_sep hc u n
  · refine .inl ⟨m, hm, hl.near rfl ?_ hH⟩
    rw [hr]
    exact head?_sep hc m v

/-- A reading in front of a separator stays one in front of whatever follows. -/
theorem Local.extend (hl : Local sep H) {c : α} (hc : sep c = true) {b w r : List α} (hH : H b w r)
    (v : List α) : H b w (r ++ c :: v) :=
  hl.near rfl (head?_sep hc r v).symm hH

theorem Local.occurs_append (hl : Local sep H) {c : α} (hc : sep c = true) (u v : List α) :
    Occurs H (u ++ c :: v) ↔ Occurs H u ∨ Occurs H v := by
  constructor
  · rintro ⟨a, w, r, ht, hH⟩
    rcases hl.split hc ht hH with ⟨r', hu, hH⟩ | ⟨a', -, hv, hH⟩
    · exact .inl ⟨a, w, r', hu, hH⟩
    · exact .inr ⟨a', w, r, hv, hH⟩
  · rintro (⟨a, w, r, rfl, hH⟩ | ⟨a, w, r, rfl, hH⟩)
    · exact ⟨a, w, r ++ c :: v, by simp, hl.extend hc hH v⟩
    · exact ⟨u ++ c :: a, w, r, by simp, hl.near (before_sep hc u a).symm rfl hH⟩

theorem Local.occurs_nil (hl : Local sep H) : ¬Occurs H [] := by
  rintro ⟨a, w, r, ht, hH⟩
  obtain ⟨ht, -⟩ := List.append_eq_nil_iff.mp ht.symm
  exact hl.nonempty hH (List.append_eq_nil_iff.mp ht).2

theorem Local.occurs_behind (hl : Local sep H) {w : List α} (hw : ∀ c ∈ w, sep c = true)
    (u : List α) : Occurs H (w ++ u) ↔ Occurs H u := by
  induction w with
  | nil => exact Iff.rfl
  | cons c w ih =>
    obtain ⟨hc, hw⟩ := List.forall_mem_cons.mp hw
    exact (hl.occurs_append hc [] (w ++ u)).trans ((or_iff_right hl.occurs_nil).trans (ih hw))

theorem Local.occurs_front (hl : Local sep H) {w : List α} (hw : ∀ c ∈ w, sep c = true)
    (u : List α) : Occurs H (u ++ w) ↔ Occurs H u := by
  cases w with
  | nil => rw [List.append_nil]
  | cons c w =>
    obtain ⟨hc, hw⟩ := List.forall_mem_cons.mp hw
    have hnone : ¬Occurs H w := by
      rw [← List.append_nil w, hl.occurs_behind hw]
      exact hl.occurs_nil
    exact (hl.occurs_append hc u w).trans (or_iff_left hnone)

/-- The same is read in both texts, whatever stands in front of them. -/
def SameReadings (H : List α → List α → List α → Prop) (t u : List α) : Prop :=
  ∀ v, Occurs H (v ++ t) ↔ Occurs H (v ++ u)

namespace SameReadings

theorem refl (t : List α) : SameReadings H t t := fun _ => Iff.rfl

theorem trans {t u v : List α} (h : SameReadings H t u) (h' : SameReadings H u v) :
    SameReadings H t v :=
  fun w => (h w).trans (h' w)

theorem append {t u : List α} (h : SameReadings H t u) (w : List α) :
    SameReadings H (w ++ t) (w ++ u) := by
  intro v
  rw [← List.append_assoc, ← List.append_assoc]
  exact h (v ++ w)

theorem occurs {t u : List α} (h : SameReadings H t u) : Occurs H t ↔ Occurs H u := h []

theorem cons {t u : List α} (h : SameReadings H t u) (c : α) : SameReadings H (c :: t) (c :: u) :=
  h.append [c]

/-- Of separators in a row one is enough. -/
theorem seps (hl : Local sep H) {w w' : List α} (hw : ∀ c ∈ w, sep c = true)
    (hw' : ∀ c ∈ w', sep c = true) (hne : w ≠ []) (hne' : w' ≠ []) (t : List α) :
    SameReadings H (w ++ t) (w' ++ t) := by
  have hone : ∀ (w : List α), (∀ c ∈ w, sep c = true) → w ≠ [] → ∀ v,
      Occurs H (v ++ (w ++ t)) ↔ Occurs H v ∨ Occurs H t := by
    intro w hw hne v
    obtain ⟨c, w, rfl⟩ := List.exists_cons_of_ne_nil hne
    obtain ⟨hc, hw⟩ := List.forall_mem_cons.mp hw
    exact (hl.occurs_append hc v (w ++ t)).trans (or_congr_right (hl.occurs_behind hw t))
  exact fun v => (hone w hw hne v).trans (hone w' hw' hne' v).symm

/-- A rewriting whose every step keeps the readings. -/
theorem sub {p : Pattern α} {replace : List α → List α}
    (hstep : ∀ {pl e w}, e ∈ p.runs pl → Along pl w e →
      SameReadings H (w ++ e.rest) (replace w ++ e.rest)) (t : List α) :
    SameReadings H t (Regex.sub p replace t) := by
  have hscan : ∀ (fuel : Nat) (pl : Place α), pl.rest.length ≤ fuel →
      SameReadings H pl.rest ((segmentsFrom p fuel pl).flatMap fun
        | .gap c => [c]
        | .found w => replace w) := by
    intro fuel
    induction fuel with
    | zero =>
      intro pl hf
      rw [List.eq_nil_of_length_eq_zero (Nat.le_zero.mp hf)]
      exact refl []
    | succ fuel ih =>
      intro pl hf
      rw [segmentsFrom]
      split
      · next hr =>
        rw [hr]
        exact refl []
      · next c t hr =>
        split
        · next e he =>
          obtain ⟨hmem, hlt⟩ := matchAt_along he
          obtain ⟨w, hw⟩ := runs_along p pl e hmem
          rw [List.flatMap_cons, hw.take, hw.rest]
          exact (hstep hmem hw).trans ((ih e (by omega)).append _)
        · rw [hr] at hf
          rw [List.flatMap_cons, hr]
          exact (ih ⟨c :: pl.before, t⟩ (by simpa using hf)).cons c
  exact hscan t.length ⟨[], t⟩ Nat.le.refl

end SameReadings

end

end MainframeRag.Regex
