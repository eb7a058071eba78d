import MainframeRag.Ingest.Chunking.Provenance

/-!
# Atomic units across flushes

When the blocks of `_build_blocks` keep every statement, row and record whole. `_overlap_seed`
backs off from a cut inside an atomic item of the block it closes, but the seed it makes is one
prose item: at the next flush nothing guards the atomic text inside it. `neverSliced_iff` says that
this is the only way a block is cut.
-/

namespace MainframeRag.Ingest.Chunking

open PyText

section

variable {items : List (Item Char)}

/-- Each character of an atomic item stands in a copy of the whole item. -/
def Uncut (items : List (Item Char)) (b : List Tagged) : Prop :=
  ∀ x y i o c it, b = x ++ (some (i, o), c) :: y → items[i]? = some it → it.atomic = true →
    ∃ u v, b = u ++ tagText i it.text ++ v ∧ u.length + o = x.length ∧ o < it.text.length

/-- The text starts strictly inside an atomic item. -/
def Inner (items : List (Item Char)) (b : List Tagged) : Prop :=
  ∃ i o c y it, b = (some (i, o + 1), c) :: y ∧ items[i]? = some it ∧ it.atomic = true

/-! ## Cutting and joining -/

theorem Uncut.append {a b : List Tagged} (ha : Uncut items a) (hb : Uncut items b) :
    Uncut items (a ++ b) := by
  intro x y i o c it h hi hat
  have inB : ∀ m, x = a ++ m → b = m ++ (some (i, o), c) :: y →
      ∃ u v, a ++ b = u ++ tagText i it.text ++ v ∧ u.length + o = x.length ∧
        o < it.text.length := by
    rintro m rfl hm
    obtain ⟨u, v, e, hu⟩ := hb m y i o c it hm hi hat
    exact ⟨a ++ u, v, by rw [e]; simp, by simp; omega, hu.2⟩
  rcases List.append_eq_append_iff.mp h with ⟨m, hx, hm⟩ | ⟨m, hx, hm⟩
  · exact inB m hx hm
  · cases m with
    | nil => exact inB [] (by simpa using hx.symm) (by simpa using hm.symm)
    | cons t m =>
      obtain ⟨rfl, rfl⟩ := List.cons.inj hm
      obtain ⟨u, v, e, hu⟩ := ha x m i o c it hx hi hat
      exact ⟨u, v ++ b, by rw [e]; simp, hu⟩

/-- Text without characters of atomic items. -/
def Loose (items : List (Item Char)) (b : List Tagged) : Prop :=
  ∀ t ∈ b, ∀ i o it, t.1 = some (i, o) → items[i]? = some it → it.atomic = false

theorem Loose.uncut {b : List Tagged} (h : Loose items b) : Uncut items b := by
  intro x y i o c it hb hi hat
  have := h (some (i, o), c) (by simp [hb]) i o it rfl hi
  rw [this] at hat
  cases hat

theorem uncut_separator (prev : Bool) (it : Item Tagged) :
    Uncut items (separator taggedNl prev it) := by
  apply Loose.uncut
  intro t ht i o it' hs
  have : t = taggedNl := by
    unfold separator at ht
    split at ht <;> simp at ht <;> exact ht
  rw [this] at hs
  cases hs

theorem uncut_tagText {i : Nat} {it : Item Char} (h : items[i]? = some it) :
    Uncut items (tagText i it.text) := by
  intro x y j o c it' hb hi _
  obtain ⟨rfl, ho⟩ := tagText_split hb
  rw [h] at hi
  cases hi
  have hm : (some (j, o), c) ∈ tagText j it.text := by rw [hb]; simp
  exact ⟨[], [], by simp, by simp [ho], (mem_tagText hm).2⟩

theorem uncut_joinRest {prev : Bool} {is : List (Item Tagged)}
    (h : ∀ it ∈ is, Uncut items it.text) : Uncut items (joinRest taggedNl prev is) := by
  induction is generalizing prev with
  | nil => exact Loose.uncut (by intro t ht; simp [joinRest] at ht)
  | cons it is ih =>
    simp only [joinRest]
    exact ((uncut_separator prev it).append (h it (by simp))).append
      (ih (fun i hi => h i (by simp [hi])))

theorem uncut_joinText {is : List (Item Tagged)} (h : ∀ it ∈ is, Uncut items it.text) :
    Uncut items (joinText taggedNl is) := by
  cases is with
  | nil => exact Loose.uncut (by intro t ht; simp [joinText] at ht)
  | cons it is => exact (h it (by simp)).append (uncut_joinRest (fun i hi => h i (by simp [hi])))

/-- A tail of uncut text is uncut unless it starts inside an atomic item. -/
theorem Uncut.tail {p q : List Tagged} (h : Uncut items (p ++ q)) (hq : ¬Inner items q) :
    Uncut items q := by
  intro x y i o c it hb hi hat
  obtain ⟨u, v, e, hu, ho⟩ := h (p ++ x) y i o c it (by rw [hb, List.append_assoc]) hi hat
  rw [List.length_append] at hu
  by_cases hp : p.length ≤ u.length
  · rw [List.append_assoc] at e
    obtain ⟨m, rfl⟩ : p <+: u :=
      List.prefix_of_prefix_length_le (List.prefix_append p q) (e ▸ List.prefix_append u _) hp
    rw [List.append_assoc] at e
    have hm := List.append_cancel_left e
    refine ⟨m, v, by rw [hm, List.append_assoc], ?_, ho⟩
    rw [List.length_append] at hu
    omega
  · -- the copy starts before the cut and reaches behind it: the tail starts inside it
    exfalso
    have hk : p.length - u.length < it.text.length := by omega
    have hq0 : q[0]? = some (some (i, p.length - u.length), it.text[p.length - u.length]) := by
      have hg := congrArg (fun l => l[p.length]?) e
      simp only [List.getElem?_append_right (Nat.le_refl p.length), Nat.sub_self] at hg
      rw [hg, List.append_assoc, List.getElem?_append_right (by omega),
        List.getElem?_append_left (by rw [tagText_length]; exact hk), tagText_get,
        List.getElem?_eq_getElem hk, Option.map_some]
    cases q with
    | nil => simp at hq0
    | cons t q =>
      simp only [List.getElem?_cons_zero, Option.some.injEq] at hq0
      refine hq ⟨i, p.length - u.length - 1, it.text[p.length - u.length], q, it, ?_, hi, hat⟩
      rw [hq0, Nat.sub_add_cancel (by omega)]

theorem Inner.append {q : List Tagged} (h : Inner items q) (z : List Tagged) :
    Inner items (q ++ z) := by
  obtain ⟨i, o, c, y, it, rfl, hi, hat⟩ := h
  exact ⟨i, o, c, y ++ z, it, rfl, hi, hat⟩

theorem Inner.not_uncut {q : List Tagged} (h : Inner items q) : ¬Uncut items q := by
  obtain ⟨i, o, c, y, it, rfl, hi, hat⟩ := h
  intro hu
  obtain ⟨u, v, -, hlen, -⟩ := hu [] y i (o + 1) c it rfl hi hat
  simp at hlen

/-! ## The loop -/

structure AllUncut (items : List (Item Char)) (s : Acc Tagged) : Prop where
  out : ∀ e ∈ s.out, Uncut items (e.text taggedNl)
  current : ∀ it ∈ s.current, Uncut items it.text

theorem AllUncut.flush {s : Acc Tagged} (h : AllUncut items s) : AllUncut items s.flush := by
  unfold Acc.flush
  split
  · exact h
  · refine ⟨?_, by simp⟩
    intro e he
    rcases List.mem_append.mp he with he | he
    · exact h.out e he
    · rw [List.mem_singleton.mp he]
      exact uncut_joinText h.current

theorem mem_slices {α : Type} {n fuel : Nat} {t s : List α} (h : s ∈ slices n fuel t) :
    ∀ x ∈ s, x ∈ t := by
  induction fuel generalizing t with
  | zero => simp [slices] at h
  | succ fuel ih =>
    cases t with
    | nil => simp [slices] at h
    | cons c t =>
      simp only [slices, List.mem_cons] at h
      rcases h with rfl | h
      · exact fun x hx => List.mem_of_mem_take hx
      · exact fun x hx => List.mem_of_mem_drop (ih h x hx)

theorem loose_slice {j n fuel : Nat} {it : Item Char} (hj : items[j]? = some it)
    (ha : it.atomic = false) {s : List Tagged} (h : s ∈ slices n fuel (tagText j it.text)) :
    Loose items s := by
  intro t ht i o it' hs hi
  obtain ⟨k, hk⟩ := tagText_tag (mem_slices h t ht)
  rw [hk, Option.some.injEq, Prod.mk.injEq] at hs
  obtain ⟨rfl, -⟩ := hs
  rw [hj, Option.some.injEq] at hi
  rw [← hi, ha]

/-- The seed is uncut unless the blind tail starts inside an atomic item. -/
theorem AllUncut.seed {s : Acc Tagged} (h : AllUncut items s)
    (ht : ∀ t, blindTail taggedNl s.current = some t → ¬Inner items t) :
    ∀ it ∈ overlapSeed taggedNl s.current, Uncut items it.text := by
  rcases overlapSeed_cases taggedNl s.current with ⟨t, hb, hs, p, hp⟩ | ⟨-, hs⟩
  · rw [hs]
    intro it hit
    rw [List.mem_singleton.mp hit]
    have hj := uncut_joinText h.current
    rw [← hp] at hj
    exact hj.tail (ht t hb)
  · exact fun it hit => h.current it (hs.subset hit)

theorem AllUncut.push {s : Acc Tagged} (h : AllUncut items s) {j : Nat} {it : Item Char}
    (hj : items[j]? = some it)
    (ht : s.overflows (tagItem j it) →
      ∀ t, blindTail taggedNl s.current = some t → ¬Inner items t) :
    AllUncut items (s.push taggedNl (tagItem j it)) := by
  have hit : Uncut items (tagItem j it).text := uncut_tagText hj
  unfold Acc.push
  split_ifs with hbig hat hov
  · refine ⟨?_, h.flush.current⟩
    intro e he
    rcases List.mem_append.mp he with he | he
    · exact h.flush.out e he
    · rw [List.mem_singleton.mp he]
      exact hit
  · refine ⟨?_, h.flush.current⟩
    intro e he
    rcases List.mem_append.mp he with he | he
    · exact h.flush.out e he
    · obtain ⟨t, ht', rfl⟩ := List.mem_map.mp he
      exact (loose_slice hj (by simpa [tagItem] using hat) ht').uncut
  · refine ⟨?_, ?_⟩
    · intro e he
      rcases List.mem_append.mp he with he | he
      · exact h.out e he
      · rw [List.mem_singleton.mp he]
        exact uncut_joinText h.current
    · intro i hi
      rcases List.mem_append.mp hi with hi | hi
      · exact h.seed (ht ⟨by omega, hov⟩) i hi
      · rw [List.mem_singleton.mp hi]
        exact hit
  · refine ⟨h.out, ?_⟩
    intro i hi
    rcases List.mem_append.mp hi with hi | hi
    · exact h.current i hi
    · rw [List.mem_singleton.mp hi]
      exact hit

/-- At no flush does the blind tail start strictly inside an atomic item. -/
def NoInnerTail (items : List (Item Char)) : Prop :=
  ∀ s it post t, FlushAt taggedNl (tagItems items) s it post →
    blindTail taggedNl s.current = some t → ¬Inner items t

theorem allUncut_accumulate (h : NoInnerTail items) {pre : List (Item Tagged)}
    (hp : pre <+: tagItems items) : AllUncut items (accumulate taggedNl pre) := by
  induction pre using List.reverseRecOn with
  | nil => exact ⟨by simp [accumulate], by simp [accumulate]⟩
  | append_singleton pre it ih =>
    obtain ⟨post, hpost⟩ := hp
    rw [List.append_assoc] at hpost
    obtain ⟨it', hi, rfl⟩ := tagItems_get hpost.symm
    have hprev := ih ⟨_, hpost⟩
    have hstep := hprev.push hi
      (fun hov t ht => h _ _ post t ⟨⟨pre, hpost.symm, rfl⟩, hov⟩ ht)
    rw [accumulate, List.foldl_append]
    exact hstep

/-- Every part of an atomic item in a block is a part of the whole item in that block. -/
def NeverSliced (U : CharTables) (paras : List (Nat × Text)) (codeSection : Bool) : Prop :=
  ∀ e ∈ provenance (expand U paras codeSection),
    Uncut (expand U paras codeSection) (e.text taggedNl)

theorem Inner.not_neverSliced {s : Acc Tagged} {it : Item Tagged} {post : List (Item Tagged)}
    {t : List Tagged} (hf : FlushAt taggedNl (tagItems items) s it post)
    (hb : blindTail taggedNl s.current = some t) (h : Inner items t) :
    ∃ e ∈ provenance items, ¬Uncut items (e.text taggedNl) := by
  obtain ⟨more, -, he⟩ := hf.seed_emitted
  refine ⟨_, he, ?_⟩
  rcases overlapSeed_cases taggedNl s.current with ⟨t', hb', hs, -⟩ | ⟨hb', -⟩
  · rw [hb, Option.some.injEq] at hb'
    subst hb'
    rw [hs]
    exact (h.append _).not_uncut
  · rw [hb] at hb'
    cases hb'

/-- Blocks never slice an atomic item exactly when no blind tail starts inside one. -/
theorem neverSliced_iff (U : CharTables) (paras : List (Nat × Text)) (codeSection : Bool) :
    NeverSliced U paras codeSection ↔ NoInnerTail (expand U paras codeSection) := by
  constructor
  · intro h s it post t hf hb hin
    obtain ⟨e, he, hne⟩ := hin.not_neverSliced hf hb
    exact hne (h e he)
  · intro h e he
    exact (allUncut_accumulate h List.prefix_rfl).flush.out e he

end

/-! ## A sliced statement -/

/-- `n` lines of prose. -/
def proseLines (n : Nat) : Text := joinLines (List.replicate n (List.replicate 59 'a'))

def cardText : Text := "//A EXEC PGM=".toList ++ List.replicate 287 'X'

/-- A statement near the end of a block, then a paragraph that flushes and one that flushes again. -/
def slicedParas : List (Nat × Text) :=
  [(0, proseLines 50), (0, cardText), (0, proseLines 4), (0, proseLines 50)]

theorem expand_slicedParas : expand asciiTables slicedParas true =
    [⟨0, proseLines 50, false⟩, ⟨0, cardText, true⟩, ⟨0, proseLines 4, false⟩,
      ⟨0, proseLines 50, false⟩] := by
  decide +kernel

/-- The third block opens with the statement from its 142nd character on. -/
theorem slicedParas_third_block :
    (provenance [⟨0, proseLines 50, false⟩, ⟨0, cardText, true⟩, ⟨0, proseLines 4, false⟩,
      ⟨0, proseLines 50, false⟩])[2]?.map (fun e => (e.text taggedNl).head?) =
        some (some (some (1, 141), 'X')) := by
  decide +kernel

/-- Two flushes slice a JCL statement. -/
theorem second_flush_slices_statement :
    ¬∀ U paras codeSection, NeverSliced U paras codeSection := by
  intro h
  have hn := h asciiTables slicedParas true
  rw [NeverSliced, expand_slicedParas] at hn
  obtain ⟨e, he, hh⟩ := Option.map_eq_some_iff.mp slicedParas_third_block
  obtain ⟨y, hy⟩ := List.head?_eq_some_iff.mp hh
  exact Inner.not_uncut ⟨1, 140, 'X', y, ⟨0, cardText, true⟩, hy, rfl, rfl⟩
    (hn e (List.mem_of_getElem? he))

end MainframeRag.Ingest.Chunking
