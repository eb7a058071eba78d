import MainframeRag.Lib.Cutting

/-!
# Cutting marks out of padded texts

The words of a language of which none begins another are found one behind the other (`sub_mark`,
`sub_other`). Where each opens with an element it holds nowhere else, a text may be padded with
elements that never show and with whole words, and what it shows without its marks is the same
exactly when no padding breaks a mark (`shown_padded_iff`).
-/

namespace MainframeRag.Regex

variable {α β : Type}

/-! ## Words of which none begins another -/

structure PrefixFree (P : List α → Prop) : Prop where
  nonempty : ∀ w, P w → w ≠ []
  single : ∀ w v r s, P w → P v → w ++ r = v ++ s → w = v

/-- A word of the language begins the text. -/
def Begins (P : List α → Prop) (t : List α) : Prop := ∃ w r, P w ∧ t = w ++ r

section

variable {p : Pattern α} {P : List α → Prop}

theorem matchAt_word (hp : p.Words P) (hP : PrefixFree P) {pl : Place α} {w r : List α} (hw : P w)
    (hr : pl.rest = w ++ r) : p.matchAt pl = some ⟨w.reverse ++ pl.before, r⟩ := by
  have hmem : (⟨w.reverse ++ pl.before, r⟩ : Place α) ∈ p.runs pl := (hp pl _).mpr ⟨w, hw, hr, rfl⟩
  obtain ⟨e, more, hruns⟩ := List.exists_cons_of_ne_nil (List.ne_nil_of_mem hmem)
  obtain ⟨v, hv, ha⟩ := (hp pl e).mp (by rw [hruns]; exact List.mem_cons_self)
  obtain rfl : w = v := hP.single w v r e.rest hw hv (hr.symm.trans ha.rest)
  have hrest : r = e.rest := List.append_cancel_left (hr.symm.trans ha.rest)
  rw [Pattern.matchAt, hruns, List.head?_cons, ha.target, ← hrest]

theorem matchAt_other (hp : p.Words P) {pl : Place α} (h : ¬ Begins P pl.rest) :
    p.matchAt pl = none := by
  refine Pattern.matchAt_none.mpr (List.eq_nil_iff_forall_not_mem.mpr fun e he => h ?_)
  obtain ⟨w, hw, ha⟩ := (hp pl e).mp he
  exact ⟨w, e.rest, hw, ha.rest⟩

theorem segmentsFrom_word (hp : p.Words P) (hP : PrefixFree P) {pl : Place α} {w r : List α}
    (fuel : Nat) (hw : P w) (hr : pl.rest = w ++ r) :
    segmentsFrom p (fuel + 1) pl = .found w :: segmentsFrom p fuel ⟨w.reverse ++ pl.before, r⟩ := by
  have hpos : 0 < w.length := List.length_pos_iff.mpr (hP.nonempty w hw)
  have hlt : r.length < pl.rest.length := by
    rw [hr, List.length_append]
    omega
  rw [segmentsFrom]
  split
  · next hnil =>
    rw [hnil] at hlt
    cases hlt
  · rw [matchAt_word hp hP hw hr, Option.filter_some, if_pos (by simpa using hlt)]
    simp [hr]

theorem segmentsFrom_other (hp : p.Words P) {pl : Place α} {c : α} {t : List α} (fuel : Nat)
    (hr : pl.rest = c :: t) (h : ¬ Begins P (c :: t)) :
    segmentsFrom p (fuel + 1) pl = .gap c :: segmentsFrom p fuel ⟨c :: pl.before, t⟩ := by
  rw [segmentsFrom, matchAt_other hp (hr ▸ h), hr]
  rfl

/-- Texts by what begins them. -/
theorem scan_induction {motive : List α → Prop} (hP : PrefixFree P) (nil : motive [])
    (mark : ∀ w r, P w → motive r → motive (w ++ r))
    (other : ∀ c t, ¬ Begins P (c :: t) → motive t → motive (c :: t)) (t : List α) : motive t := by
  induction hn : t.length using Nat.strong_induction_on generalizing t with
  | _ n ih =>
    subst hn
    by_cases h : Begins P t
    · obtain ⟨w, r, hw, rfl⟩ := h
      have hpos : 0 < w.length := List.length_pos_iff.mpr (hP.nonempty w hw)
      exact mark w r hw (ih _ (by simp [hpos]) r rfl)
    · cases t with
      | nil => exact nil
      | cons c t => exact other c t h (ih _ (by simp) t rfl)

/-- What was read before a place and the fuel left do not matter. -/
theorem segmentsFrom_rest (hp : p.Words P) (hP : PrefixFree P) (t : List α) {f g : Nat}
    {a b : List α} (hf : t.length ≤ f) (hg : t.length ≤ g) :
    segmentsFrom p f ⟨a, t⟩ = segmentsFrom p g ⟨b, t⟩ := by
  induction t using scan_induction hP generalizing f g a b with
  | nil => cases f <;> cases g <;> rfl
  | mark w r hw ih =>
    have hpos : 0 < w.length := List.length_pos_iff.mpr (hP.nonempty w hw)
    rw [List.length_append] at hf hg
    obtain ⟨f, rfl⟩ : ∃ n, f = n + 1 := ⟨f - 1, by omega⟩
    obtain ⟨g, rfl⟩ : ∃ n, g = n + 1 := ⟨g - 1, by omega⟩
    rw [segmentsFrom_word hp hP f hw rfl, segmentsFrom_word hp hP g hw rfl,
      @ih f g _ _ (by omega) (by omega)]
  | other c t h ih =>
    rw [List.length_cons] at hf hg
    obtain ⟨f, rfl⟩ : ∃ n, f = n + 1 := ⟨f - 1, by omega⟩
    obtain ⟨g, rfl⟩ : ∃ n, g = n + 1 := ⟨g - 1, by omega⟩
    rw [segmentsFrom_other hp f rfl h, segmentsFrom_other hp g rfl h,
      @ih f g _ _ (by omega) (by omega)]

theorem sub_nil (p : Pattern α) (replace : List α → List α) : sub p replace [] = [] := rfl

theorem sub_mark (hp : p.Words P) (hP : PrefixFree P) (replace : List α → List α) {w : List α}
    (hw : P w) (r : List α) : sub p replace (w ++ r) = replace w ++ sub p replace r := by
  have hpos : 0 < w.length := List.length_pos_iff.mpr (hP.nonempty w hw)
  obtain ⟨n, hn⟩ : ∃ n, (w ++ r).length = n + 1 := ⟨(w ++ r).length - 1, by simp; omega⟩
  have hlen : r.length ≤ n := by
    rw [List.length_append] at hn
    omega
  rw [sub, sub, segments, segments, hn, segmentsFrom_word hp hP n hw rfl, List.flatMap_cons,
    segmentsFrom_rest hp hP r hlen Nat.le.refl]

theorem sub_other (hp : p.Words P) (hP : PrefixFree P) (replace : List α → List α) {c : α}
    {t : List α} (h : ¬ Begins P (c :: t)) : sub p replace (c :: t) = c :: sub p replace t := by
  rw [sub, sub, segments, segments, List.length_cons, segmentsFrom_other hp _ rfl h,
    List.flatMap_cons, segmentsFrom_rest hp hP t Nat.le.refl Nat.le.refl]
  rfl

/-- Cutting out single elements is a filter. -/
theorem sub_one (f : α → Bool) (t : List α) :
    sub (.one f) (fun _ => []) t = t.filter fun c => !f c := by
  have hwords := Pattern.Words.one f
  have hfree : PrefixFree fun w : List α => ∃ c, w = [c] ∧ f c = true :=
    ⟨by rintro w ⟨c, rfl, -⟩; simp, by
      rintro w v r s ⟨c, rfl, -⟩ ⟨d, rfl, -⟩ h
      rw [(List.cons.inj h).1]⟩
  induction t with
  | nil => rfl
  | cons c t ih =>
    by_cases hc : f c = true
    · have hmark := sub_mark hwords hfree (fun _ => []) ⟨c, rfl, hc⟩ t
      rw [List.singleton_append] at hmark
      rw [hmark, ih, List.filter_cons_of_neg (by simp [hc]), List.nil_append]
    · have hnone : ¬ Begins (fun w : List α => ∃ c, w = [c] ∧ f c = true) (c :: t) := by
        rintro ⟨w, r, ⟨d, rfl, hd⟩, ht⟩
        rw [(List.cons.inj ht).1] at hc
        exact hc hd
      rw [sub_other hwords hfree _ hnone, ih, List.filter_cons_of_pos (by simp [hc])]

end

/-! ## Marks and padding -/

/-- Marks open with `esc` and hold it nowhere else, and they hold nothing quiet; what is quiet, and
`esc`, does not show, the rest of a mark does. -/
structure Marks (esc : α) (P : List α → Prop) (quiet : α → Prop) (visible : α → List β) : Prop
    extends PrefixFree P where
  opens : ∀ w, P w → ∃ v, w = esc :: v ∧ v ≠ [] ∧ ∀ c ∈ v, c ≠ esc ∧ ¬ quiet c ∧ visible c ≠ []
  esc_loud : ¬ quiet esc
  esc_hidden : visible esc = []
  quiet_hidden : ∀ c, quiet c → visible c = []

/-- Quiet elements and whole marks, in any order. -/
inductive Padding (P : List α → Prop) (quiet : α → Prop) : List α → Prop
  | nil : Padding P quiet []
  | quiet {c : α} {g : List α} : quiet c → Padding P quiet g → Padding P quiet (c :: g)
  | mark {w g : List α} : P w → Padding P quiet g → Padding P quiet (w ++ g)

/-- A text and what is put in front of each element. -/
abbrev Padded (α : Type) := List (List α × α)

def bare (ps : Padded α) : List α := ps.map Prod.snd

/-- The padded text, with padding behind it. -/
def weave (ps : Padded α) (last : List α) : List α := ps.flatMap (fun g => g.1 ++ [g.2]) ++ last

/-- What a text shows without its marks. -/
def shown (p : Pattern α) (visible : α → List β) (t : List α) : List β :=
  (sub p (fun _ => []) t).flatMap visible

/-- No padding stands inside a mark of the text. -/
def Unbroken (P : List α → Prop) (ps : Padded α) : Prop :=
  ∀ qs g ms rs, ps = qs ++ g :: ms ++ rs → P (bare (g :: ms)) → ∀ m ∈ ms, m.1 = []

theorem bare_append (ps qs : Padded α) : bare (ps ++ qs) = bare ps ++ bare qs := List.map_append

theorem weave_nil (last : List α) : weave [] last = last := rfl

theorem weave_cons (g : List α × α) (ps : Padded α) (last : List α) :
    weave (g :: ps) last = g.1 ++ g.2 :: weave ps last := by
  simp [weave]

section

variable {p : Pattern α} {P : List α → Prop} {quiet : α → Prop} {visible : α → List β} {esc : α}
  (hp : p.Words P) (hM : Marks esc P quiet visible)

include hM in
theorem Marks.begins {w : List α} (hw : P w) {t r : List α} {c : α} (h : c :: t = w ++ r) :
    c = esc ∧ ∃ v, w = esc :: v ∧ t = v ++ r := by
  obtain ⟨v, rfl, -, -⟩ := hM.opens w hw
  obtain ⟨rfl, rfl⟩ := List.cons.inj h
  exact ⟨rfl, v, rfl, rfl⟩

include hM in
theorem Marks.not_begins {c : α} (hc : c ≠ esc) (t : List α) : ¬ Begins P (c :: t) := by
  rintro ⟨w, r, hw, h⟩
  exact hc (hM.begins hw h).1

include hM in
/-- Padding begins with nothing that stands inside a mark. -/
theorem Marks.padding_head {c : α} {g : List α} (h : Padding P quiet (c :: g)) :
    c = esc ∨ quiet c := by
  generalize ht : c :: g = t at h
  induction h with
  | nil => cases ht
  | quiet hq _ _ =>
    obtain ⟨rfl, -⟩ := List.cons.inj ht
    exact .inr hq
  | mark hw _ _ => exact .inl (hM.begins hw ht).1

include hp hM in
theorem shown_other {c : α} {t : List α} (h : ¬ Begins P (c :: t)) :
    shown p visible (c :: t) = visible c ++ shown p visible t := by
  rw [shown, sub_other hp hM.toPrefixFree _ h, List.flatMap_cons, shown]

include hp hM in
theorem shown_mark {w : List α} (hw : P w) (r : List α) :
    shown p visible (w ++ r) = shown p visible r := by
  rw [shown, sub_mark hp hM.toPrefixFree _ hw, List.nil_append, shown]

include hp hM in
theorem shown_padding {g : List α} (hg : Padding P quiet g) (t : List α) :
    shown p visible (g ++ t) = shown p visible t := by
  induction hg with
  | nil => rfl
  | @quiet c g hc _ ih =>
    have hne : c ≠ esc := fun he => hM.esc_loud (he ▸ hc)
    rw [List.cons_append, shown_other hp hM (hM.not_begins hne _), hM.quiet_hidden c hc, ih,
      List.nil_append]
  | mark hw _ ih => rw [List.append_assoc, shown_mark hp hM hw, ih]

include hM in
/-- A run of elements of a mark in a padded text is one of the text, without padding in it. -/
theorem Marks.weave_run {ps : Padded α} {last v r : List α}
    (hps : ∀ g ∈ ps, Padding P quiet g.1) (hlast : Padding P quiet last)
    (hv : ∀ c ∈ v, c ≠ esc ∧ ¬ quiet c) (h : weave ps last = v ++ r) :
    ∃ ms rs, ps = ms ++ rs ∧ bare ms = v ∧ ∀ m ∈ ms, m.1 = [] := by
  induction v generalizing ps with
  | nil => exact ⟨[], ps, rfl, rfl, by simp⟩
  | cons c v ih =>
    obtain ⟨hc, hvs⟩ := List.forall_mem_cons.mp hv
    have hloud : ∀ g, Padding P quiet (c :: g) → False := fun g hg =>
      (hM.padding_head hg).elim hc.1 hc.2
    cases ps with
    | nil =>
      rw [weave_nil] at h
      rw [h] at hlast
      exact (hloud (v ++ r) hlast).elim
    | cons g ps =>
      obtain ⟨hg, htail⟩ := List.forall_mem_cons.mp hps
      obtain ⟨pad, d⟩ := g
      rw [weave_cons] at h
      cases pad with
      | nil =>
        obtain ⟨hd, hrest⟩ := List.cons.inj h
        obtain ⟨ms, rs, rfl, rfl, hms⟩ := ih htail hvs hrest
        exact ⟨([], d) :: ms, rs, rfl, congrArg (· :: bare ms) hd, by simpa using hms⟩
      | cons e pad =>
        obtain ⟨rfl, -⟩ := List.cons.inj h
        exact (hloud pad hg).elim

include hp hM in
/-- Elements behind which no mark begins show one by one. -/
theorem shown_run {ms : Padded α} (rs : Padded α) (last : List α)
    (hms : ∀ g ∈ ms, Padding P quiet g.1) (hne : ∀ c ∈ bare ms, c ≠ esc) :
    shown p visible (weave (ms ++ rs) last) =
      (bare ms).flatMap visible ++ shown p visible (weave rs last) := by
  induction ms with
  | nil => rfl
  | cons g ms ih =>
    obtain ⟨hg, hms⟩ := List.forall_mem_cons.mp hms
    obtain ⟨hc, hne⟩ := List.forall_mem_cons.mp hne
    rw [List.cons_append, weave_cons, shown_padding hp hM hg,
      shown_other hp hM (hM.not_begins hc _), ih hms hne, ← List.append_assoc]
    rfl

include hM in
theorem unbroken_mark {g : List α × α} {ms : Padded α} (rs : Padded α) (hw : P (bare (g :: ms))) :
    Unbroken P (g :: ms ++ rs) ↔ (∀ m ∈ ms, m.1 = []) ∧ Unbroken P rs := by
  constructor
  · intro h
    refine ⟨h [] g ms rs rfl hw, fun qs g' ms' rs' hrs => h (g :: ms ++ qs) g' ms' rs' ?_⟩
    simp [hrs]
  · rintro ⟨hfirst, hrest⟩ qs g' ms' rs' h hw'
    cases qs with
    | nil =>
      obtain ⟨rfl, htail⟩ := List.cons.inj h
      have hbare : bare (g :: ms) ++ bare rs = bare (g :: ms') ++ bare rs' := by
        rw [← bare_append, ← bare_append]
        exact congrArg (fun l => g.2 :: bare l) htail
      have hlen := congrArg List.length (hM.single _ _ _ _ hw hw' hbare)
      obtain ⟨rfl, -⟩ := List.append_inj htail (by simpa [bare] using hlen)
      exact hfirst
    | cons q qs =>
      obtain ⟨-, htail⟩ := List.cons.inj h
      have hopen : g'.2 = esc := (hM.begins hw' (List.append_nil _).symm).1
      obtain ⟨v, hv, -, hvs⟩ := hM.opens _ hw
      obtain ⟨-, rfl⟩ := List.cons.inj hv
      have htail' : ms ++ rs = qs ++ (g' :: ms' ++ rs') := by
        rw [← List.append_assoc]
        exact htail
      rcases List.append_eq_append_iff.mp htail' with ⟨mid, rfl, hmid⟩ | ⟨mid, rfl, hmid⟩
      · exact hrest mid g' ms' rs' (by rw [hmid, List.append_assoc]) hw'
      · cases mid with
        | nil => exact hrest [] g' ms' rs' hmid.symm hw'
        | cons m mid =>
          obtain ⟨rfl, -⟩ := List.cons.inj hmid
          exact absurd hopen (hvs g'.2 (by simp)).1

theorem unbroken_other {g : List α × α} {ps : Padded α} (h : ¬ Begins P (bare (g :: ps))) :
    Unbroken P (g :: ps) ↔ Unbroken P ps := by
  constructor
  · intro hall qs g' ms' rs' hps
    exact hall (g :: qs) g' ms' rs' (by rw [hps]; rfl)
  · intro hall qs g' ms' rs' hps hw'
    cases qs with
    | nil =>
      refine absurd ⟨bare (g' :: ms'), bare rs', hw', ?_⟩ h
      rw [hps, ← bare_append]
      rfl
    | cons q qs => exact hall qs g' ms' rs' (List.cons.inj hps).2 hw'

theorem weave_plain {ms : Padded α} (rs : Padded α) (last : List α) (h : ∀ m ∈ ms, m.1 = []) :
    weave (ms ++ rs) last = bare ms ++ weave rs last := by
  induction ms with
  | nil => rfl
  | cons m ms ih =>
    obtain ⟨hm, hms⟩ := List.forall_mem_cons.mp h
    rw [List.cons_append, weave_cons, hm, ih hms]
    rfl

include hp hM in
/-- A mark with padding in it is none, and all of it but its first element shows. -/
theorem shown_broken {g : List α × α} {ms : Padded α} (rs : Padded α) {last : List α}
    (hps : ∀ x ∈ g :: ms ++ rs, Padding P quiet x.1) (hlast : Padding P quiet last)
    (hw : P (bare (g :: ms))) (hbroken : ¬ ∀ m ∈ ms, m.1 = []) :
    shown p visible (weave (g :: ms ++ rs) last) =
      (bare ms).flatMap visible ++ shown p visible (weave rs last) := by
  have hg := hps g (by simp)
  have htail : ∀ x ∈ ms ++ rs, Padding P quiet x.1 := fun x hx => hps x (List.mem_cons_of_mem _ hx)
  obtain ⟨v, hv, -, hvs⟩ := hM.opens _ hw
  obtain ⟨hesc, rfl⟩ := List.cons.inj hv
  have hnone : ¬ Begins P (g.2 :: weave (ms ++ rs) last) := by
    rintro ⟨w, r, hw', hr⟩
    obtain ⟨-, u, rfl, hu⟩ := hM.begins hw' hr
    obtain ⟨u', hu', -, hus⟩ := hM.opens _ hw'
    obtain ⟨-, rfl⟩ := List.cons.inj hu'
    obtain ⟨ms', rs', hsplit, rfl, hempty⟩ :=
      hM.weave_run htail hlast (fun c hc => ⟨(hus c hc).1, (hus c hc).2.1⟩) hu
    -- both words begin the bare text, so the unpadded run is the whole mark
    have hbare : bare (g :: ms) ++ bare rs = (esc :: bare ms') ++ bare rs' := by
      rw [← bare_append, List.cons_append, hsplit, ← hesc]
      exact congrArg (g.2 :: ·) (bare_append ms' rs')
    have hlen := congrArg List.length (hM.single _ _ _ _ hw hw' hbare)
    obtain ⟨rfl, -⟩ := List.append_inj hsplit (by simpa [bare] using hlen)
    exact hbroken hempty
  rw [List.cons_append, weave_cons, shown_padding hp hM hg, shown_other hp hM hnone, hesc,
    hM.esc_hidden, List.nil_append]
  exact shown_run hp hM rs last (fun x hx => htail x (List.mem_append_left _ hx))
    fun c hc => (hvs c hc).1

include hp hM in
/-- Padding hides nothing, and something shows for it exactly where it breaks a mark. -/
theorem shown_padded {ps : Padded α} {last : List α} (hps : ∀ g ∈ ps, Padding P quiet g.1)
    (hlast : Padding P quiet last) :
    (Unbroken P ps → shown p visible (weave ps last) = shown p visible (bare ps)) ∧
      (¬ Unbroken P ps →
        (shown p visible (bare ps)).length < (shown p visible (weave ps last)).length) := by
  induction hn : ps.length using Nat.strong_induction_on generalizing ps with
  | _ n ih =>
    subst hn
    cases ps with
    | nil =>
      have hend := shown_padding hp hM hlast []
      rw [List.append_nil] at hend
      refine ⟨fun _ => by rw [weave_nil, hend]; rfl, fun h => (h ?_).elim⟩
      intro qs g ms rs h
      simp at h
    | cons g ps =>
      obtain ⟨hg, htail⟩ := List.forall_mem_cons.mp hps
      by_cases hbegin : Begins P (bare (g :: ps))
      · obtain ⟨w, r, hw, hbare⟩ := hbegin
        obtain ⟨hesc, v, rfl, hvr⟩ := hM.begins hw hbare
        obtain ⟨ms, rs, rfl, hms, rfl⟩ := List.map_eq_append_iff.mp hvr
        have hword : P (bare (g :: ms)) := by
          rw [bare, List.map_cons, hms, hesc]
          exact hw
        have hcons : g :: (ms ++ rs) = g :: ms ++ rs := rfl
        have hplain : shown p visible (bare (g :: ms ++ rs)) = shown p visible (bare rs) := by
          rw [bare_append, shown_mark hp hM hword]
        obtain ⟨hsame, hmore⟩ := ih rs.length
          (by rw [List.length_cons, List.length_append]; omega)
          (fun x hx => htail x (List.mem_append_right _ hx)) rfl
        rw [hcons, hplain, unbroken_mark hM rs hword]
        by_cases hempty : ∀ m ∈ ms, m.1 = []
        · have hwoven : shown p visible (weave (g :: ms ++ rs) last) =
              shown p visible (weave rs last) := by
            rw [List.cons_append, weave_cons, shown_padding hp hM hg, weave_plain rs last hempty]
            exact shown_mark hp hM hword _
          rw [hwoven]
          exact ⟨fun h => hsame h.2, fun h => hmore fun hrs => h ⟨hempty, hrs⟩⟩
        · refine ⟨fun h => absurd h.1 hempty, fun _ => ?_⟩
          obtain ⟨u, hu, hune, hus⟩ := hM.opens _ hword
          obtain ⟨-, rfl⟩ := List.cons.inj hu
          obtain ⟨c, u, hcu⟩ : ∃ c u, bare ms = c :: u := List.exists_cons_of_ne_nil hune
          have hc : c ∈ bare ms := by rw [hcu]; exact List.mem_cons_self
          have hvisible := List.length_pos_iff.mpr (hus c hc).2.2
          have hle : (shown p visible (bare rs)).length ≤
              (shown p visible (weave rs last)).length := by
            by_cases h : Unbroken P rs
            · exact (congrArg List.length (hsame h)).ge
            · exact (hmore h).le
          rw [shown_broken hp hM rs hps hlast hword hempty, hcu, List.flatMap_cons]
          simp only [List.length_append]
          omega
      · obtain ⟨hsame, hmore⟩ := ih ps.length (by simp) htail rfl
        have hwoven : shown p visible (weave (g :: ps) last) =
            visible g.2 ++ shown p visible (weave ps last) := by
          rw [weave_cons, shown_padding hp hM hg]
          refine shown_other hp hM ?_
          rintro ⟨w, r, hw, hr⟩
          obtain ⟨hesc, u, rfl, hu⟩ := hM.begins hw hr
          obtain ⟨u', hu', -, hus⟩ := hM.opens _ hw
          obtain ⟨-, rfl⟩ := List.cons.inj hu'
          obtain ⟨ms, rs, rfl, rfl, -⟩ :=
            hM.weave_run htail hlast (fun c hc => ⟨(hus c hc).1, (hus c hc).2.1⟩) hu
          refine hbegin ⟨_, bare rs, hw, ?_⟩
          rw [List.cons_append, ← bare_append, ← hesc]
          rfl
        have hbare : shown p visible (bare (g :: ps)) = visible g.2 ++ shown p visible (bare ps) :=
          shown_other hp hM hbegin
        rw [unbroken_other hbegin, hwoven, hbare]
        refine ⟨fun h => by rw [hsame h], fun h => ?_⟩
        have hlt := hmore h
        simp only [List.length_append]
        omega

include hp hM in
/-- Padding leaves what a text shows alone exactly when it breaks no mark. -/
theorem shown_padded_iff {ps : Padded α} {last : List α} (hps : ∀ g ∈ ps, Padding P quiet g.1)
    (hlast : Padding P quiet last) :
    shown p visible (weave ps last) = shown p visible (bare ps) ↔ Unbroken P ps := by
  obtain ⟨hsame, hmore⟩ := shown_padded hp hM hps hlast
  refine ⟨fun h => ?_, hsame⟩
  by_contra hbroken
  have hlt := hmore hbroken
  rw [h] at hlt
  omega

end

end MainframeRag.Regex
