import MainframeRag.Ingest.Chunking.Chunks
import Mathlib

/-!
# Printed page ranges

When `_page_label_range` locates a span. A label advances by the first run that differs, compared as a
decimal, a roman numeral or a letter (`Step`). Each of the three orders is free of cycles, also where
runs further right change in between, so a label comes back only where one place mixes two of them
(`mixes_of_return`).
-/

namespace MainframeRag.Ingest.Chunking

open PyText

/-! ## Steps -/

/-- The runs two labels share, and the first ones that differ. -/
def firstDifference : List Text → List Text → Option (List Text × Text × Text)
  | x :: xs, y :: ys =>
    if x = y then (firstDifference xs ys).map fun d => (x :: d.1, d.2) else some ([], x, y)
  | _, _ => none

section

variable (U : CharTables)

/-- How two runs are compared. -/
inductive Comparison
  | decimal
  | roman
  | letter
  deriving DecidableEq, Inhabited

/-- `int` is asked. -/
def BothDigits (x y : Text) : Prop := isdigit U x = true ∧ isdigit U y = true

/-- The second run is the greater one, by the comparison the two runs call for. -/
def Grows : Comparison → Text → Text → Prop
  | .decimal, x, y => BothDigits U x y ∧
    ∃ m n, intValue U x = some m ∧ intValue U y = some n ∧ m < n
  | .roman, x, y => ¬ BothDigits U x y ∧ islower U x = islower U y ∧
    ∃ m n, romanValue U x = some m ∧ romanValue U y = some n ∧ m < n
  | .letter, x, y => ¬ BothDigits U x y ∧
    ¬ (islower U x = islower U y ∧ (romanValue U x).isSome ∧ (romanValue U y).isSome) ∧
    ∃ c d, x = [c] ∧ y = [d] ∧ U.isAlpha c = true ∧ U.isAlpha d = true ∧
      islower U [c] = islower U [d] ∧ c < d

/-- The deciding runs of two labels with as many runs: the shared ones, and two that differ. -/
def deciding (a b : Text) : Option (List Text × Text × Text) :=
  if (labelTokens U a).length = (labelTokens U b).length then
    firstDifference (labelTokens U a) (labelTokens U b)
  else none

/-- The second label follows the first, by the runs behind `place`. -/
def Step (k : Comparison) (place : List Text) (a b : Text) : Prop :=
  ∃ x y, deciding U a b = some (place, x, y) ∧ Grows U k x y

def Advances (a b : Text) : Prop := ∃ k place, Step U k place a b

/-- The deciding runs are digits that `int` cannot both read. -/
def Unreadable (a b : Text) : Prop :=
  ∃ place x y, deciding U a b = some (place, x, y) ∧ BothDigits U x y ∧
    (intValue U x = none ∨ intValue U y = none)

/-- What is made of two runs that differ. -/
def runsAdvance (x y : Text) : Option Bool :=
  if isdigit U x && isdigit U y then
    (intValue U y).bind fun n => (intValue U x).map fun m => decide (m < n)
  else match romanValue U x, romanValue U y with
    | some rx, some ry =>
      if islower U x = islower U y then some (decide (rx < ry))
      else some (tokensAdvance.letterAdvance U x y)
    | _, _ => some (tokensAdvance.letterAdvance U x y)

end

section

variable {U : CharTables}

theorem firstDifference_some {as bs : List Text} {place : List Text} {x y : Text}
    (h : firstDifference as bs = some (place, x, y)) :
    ∃ xs ys, as = place ++ x :: xs ∧ bs = place ++ y :: ys := by
  induction as generalizing bs place with
  | nil => cases h
  | cons a as ih =>
    cases bs with
    | nil => cases h
    | cons b bs =>
      unfold firstDifference at h
      split at h
      · next hab =>
        subst hab
        obtain ⟨⟨rest, x', y'⟩, hrest, heq⟩ := Option.map_eq_some_iff.mp h
        cases heq
        obtain ⟨xs, ys, rfl, rfl⟩ := ih hrest
        exact ⟨xs, ys, rfl, rfl⟩
      · cases h
        exact ⟨as, bs, rfl, rfl⟩

theorem tokensAdvance_eq (as bs : List Text) : tokensAdvance U as bs =
    (firstDifference as bs).elim (some false) fun d => runsAdvance U d.2.1 d.2.2 := by
  induction as generalizing bs with
  | nil => rfl
  | cons a as ih =>
    cases bs with
    | nil => rfl
    | cons b bs =>
      unfold tokensAdvance firstDifference
      by_cases hab : a = b
      · rw [if_pos hab, if_pos hab, ih]
        cases firstDifference as bs <;> rfl
      · rw [if_neg hab, if_neg hab]
        rfl

theorem labelAdvances_eq (a b : Text) : labelAdvances U a b =
    (deciding U a b).elim (some false) fun d => runsAdvance U d.2.1 d.2.2 := by
  unfold labelAdvances deciding
  by_cases hlen : (labelTokens U a).length = (labelTokens U b).length
  · rw [if_neg (not_not.mpr hlen), if_pos hlen, tokensAdvance_eq]
  · rw [if_pos hlen, if_neg hlen]
    rfl

theorem letterAdvance_iff {x y : Text} : tokensAdvance.letterAdvance U x y = true ↔
    ∃ c d, x = [c] ∧ y = [d] ∧ U.isAlpha c = true ∧ U.isAlpha d = true ∧
      islower U [c] = islower U [d] ∧ c < d := by
  unfold tokensAdvance.letterAdvance
  split
  · next c d =>
    simp only [Bool.and_eq_true, beq_iff_eq, decide_eq_true_eq, and_assoc]
    constructor
    · exact fun h => ⟨c, d, rfl, rfl, h⟩
    · rintro ⟨c', d', hc, hd, h⟩
      cases hc
      cases hd
      exact h
  · next hne =>
    refine iff_of_false Bool.false_ne_true ?_
    rintro ⟨c, d, rfl, rfl, -⟩
    exact hne c d rfl rfl

/-- Two differing runs advance by one of the three comparisons. -/
theorem runsAdvance_true {x y : Text} : runsAdvance U x y = some true ↔ ∃ k, Grows U k x y := by
  unfold runsAdvance
  by_cases hdigits : BothDigits U x y
  · rw [if_pos (by simpa [BothDigits] using hdigits)]
    constructor
    · intro h
      obtain ⟨n, hn, h⟩ := Option.bind_eq_some_iff.mp h
      obtain ⟨m, hm, h⟩ := Option.map_eq_some_iff.mp h
      exact ⟨.decimal, hdigits, m, n, hm, hn, of_decide_eq_true h⟩
    · rintro ⟨k, h⟩
      cases k with
      | decimal =>
        obtain ⟨-, m, n, hm, hn, hlt⟩ := h
        rw [hn, Option.bind_some, hm, Option.map_some, decide_eq_true hlt]
      | roman => exact absurd hdigits h.1
      | letter => exact absurd hdigits h.1
  · rw [if_neg (by simpa [BothDigits] using hdigits)]
    have hletter : ¬ (islower U x = islower U y ∧ (romanValue U x).isSome ∧ (romanValue U y).isSome) →
        (tokensAdvance.letterAdvance U x y = true ↔ ∃ k, Grows U k x y) := by
      intro hroman
      rw [letterAdvance_iff]
      constructor
      · exact fun h => ⟨.letter, hdigits, hroman, h⟩
      · rintro ⟨k, h⟩
        cases k with
        | decimal => exact absurd h.1 hdigits
        | roman =>
          obtain ⟨-, hcase, m, n, hm, hn, -⟩ := h
          exact absurd ⟨hcase, by rw [hm]; rfl, by rw [hn]; rfl⟩ hroman
        | letter => exact h.2.2
    split
    · next m n hm hn =>
      split
      · next hcase =>
        constructor
        · intro h
          exact ⟨.roman, hdigits, hcase, m, n, hm, hn, of_decide_eq_true (Option.some.inj h)⟩
        · rintro ⟨k, h⟩
          cases k with
          | decimal => exact absurd h.1 hdigits
          | roman =>
            obtain ⟨-, -, m', n', hm', hn', hlt⟩ := h
            rw [hm] at hm'
            rw [hn] at hn'
            obtain rfl := Option.some.inj hm'
            obtain rfl := Option.some.inj hn'
            rw [decide_eq_true hlt]
          | letter => exact absurd ⟨hcase, by rw [hm]; rfl, by rw [hn]; rfl⟩ h.2.1
      · next hcase => rw [Option.some_inj, hletter fun h => hcase h.1]
    · next hnone =>
      rw [Option.some_inj, hletter]
      rintro ⟨-, hx, hy⟩
      obtain ⟨m, hm⟩ := Option.isSome_iff_exists.mp hx
      obtain ⟨n, hn⟩ := Option.isSome_iff_exists.mp hy
      exact hnone m n hm hn

theorem runsAdvance_none {x y : Text} : runsAdvance U x y = none ↔
    BothDigits U x y ∧ (intValue U x = none ∨ intValue U y = none) := by
  unfold runsAdvance
  by_cases hdigits : BothDigits U x y
  · rw [if_pos (by simpa [BothDigits] using hdigits)]
    cases intValue U y with
    | none => simp [hdigits]
    | some n => cases intValue U x <;> simp [hdigits]
  · rw [if_neg (by simpa [BothDigits] using hdigits)]
    refine iff_of_false (fun h => ?_) fun h => hdigits h.1
    split at h
    · split at h <;> cases h
    · cases h

theorem labelAdvances_true {a b : Text} : labelAdvances U a b = some true ↔ Advances U a b := by
  rw [labelAdvances_eq]
  unfold Advances Step
  cases hd : deciding U a b with
  | none =>
    refine iff_of_false (fun h => (by cases h)) ?_
    rintro ⟨k, place, x, y, h, -⟩
    cases h
  | some d =>
    obtain ⟨place, x, y⟩ := d
    rw [Option.elim_some, runsAdvance_true]
    constructor
    · rintro ⟨k, h⟩
      exact ⟨k, place, x, y, rfl, h⟩
    · rintro ⟨k, place', x', y', h, hgrows⟩
      cases h
      exact ⟨k, hgrows⟩

theorem labelAdvances_none {a b : Text} : labelAdvances U a b = none ↔ Unreadable U a b := by
  rw [labelAdvances_eq]
  unfold Unreadable
  cases hd : deciding U a b with
  | none =>
    refine iff_of_false (fun h => (by cases h)) ?_
    rintro ⟨place, x, y, h, -⟩
    cases h
  | some d =>
    obtain ⟨place, x, y⟩ := d
    rw [Option.elim_some, runsAdvance_none]
    constructor
    · exact fun h => ⟨place, x, y, rfl, h⟩
    · rintro ⟨place', x', y', h, hread⟩
      cases h
      exact hread

/-! ## Spans -/

theorem allAdvance_true {ls : List Text} : allAdvance U ls = some true ↔ ls.IsChain (Advances U) := by
  fun_induction allAdvance U ls with
  | case1 a b labels ih =>
    rw [List.isChain_cons_cons, ← labelAdvances_true, Option.bind_eq_some_iff]
    constructor
    · rintro ⟨ok, hok, h⟩
      cases ok with
      | false => cases h
      | true => exact ⟨hok, ih.mp h⟩
    · rintro ⟨hok, h⟩
      exact ⟨true, hok, ih.mpr h⟩
  | case2 ls hne =>
    refine iff_of_true rfl ?_
    rcases ls with _ | ⟨a, _ | ⟨b, rest⟩⟩
    · exact .nil
    · exact .singleton a
    · exact absurd rfl (hne a b rest)

/-- A span whose labels advance up to a pair `int` cannot read. -/
def Stuck (U : CharTables) (ls : List Text) : Prop :=
  ∃ before a b rest, ls = before ++ a :: b :: rest ∧ (before ++ [a]).IsChain (Advances U) ∧
    Unreadable U a b

theorem allAdvance_none {ls : List Text} : allAdvance U ls = none ↔ Stuck U ls := by
  fun_induction allAdvance U ls with
  | case1 a b labels ih =>
    rw [Option.bind_eq_none_iff]
    constructor
    · intro h
      cases hab : labelAdvances U a b with
      | none => exact ⟨[], a, b, labels, rfl, .singleton a, labelAdvances_none.mp hab⟩
      | some ok =>
        have hrest := h ok hab
        cases ok with
        | false => cases hrest
        | true =>
          obtain ⟨before, a', b', rest, heq, hchain, hunread⟩ := ih.mp hrest
          refine ⟨a :: before, a', b', rest, congrArg (a :: ·) heq, ?_, hunread⟩
          cases before with
          | nil =>
            obtain ⟨rfl, -⟩ := List.cons.inj heq
            exact List.isChain_cons_cons.mpr ⟨labelAdvances_true.mp hab, .singleton _⟩
          | cons c before =>
            obtain ⟨rfl, -⟩ := List.cons.inj heq
            exact List.isChain_cons_cons.mpr ⟨labelAdvances_true.mp hab, hchain⟩
    · rintro ⟨before, a', b', rest, heq, hchain, hunread⟩ ok hok
      cases before with
      | nil =>
        cases heq
        rw [labelAdvances_none.mpr hunread] at hok
        cases hok
      | cons c before =>
        obtain ⟨rfl, heq'⟩ := List.cons.inj heq
        have hadv : Advances U a b := by
          cases before with
          | nil =>
            obtain ⟨rfl, -⟩ := List.cons.inj heq'
            exact (List.isChain_cons_cons.mp hchain).1
          | cons c' before =>
            obtain ⟨rfl, -⟩ := List.cons.inj heq'
            exact (List.isChain_cons_cons.mp hchain).1
        rw [labelAdvances_true.mpr hadv] at hok
        cases hok
        refine ih.mpr ⟨before, a', b', rest, heq', ?_, hunread⟩
        exact hchain.tail
  | case2 ls hne =>
    refine iff_of_false (fun h => (by cases h)) ?_
    rintro ⟨before, a, b, rest, rfl, -, -⟩
    rcases before with _ | ⟨c, _ | ⟨c', before⟩⟩
    · exact hne a b rest rfl
    · exact hne c a (b :: rest) rfl
    · exact hne c c' (before ++ a :: b :: rest) rfl

/-! ## One comparison never comes back -/

/-- What a comparison looks at. -/
def runRank (U : CharTables) : Comparison → Text → Int
  | .decimal, x => ((intValue U x).getD 0 : Nat)
  | .roman, x => (romanValue U x).getD 0
  | .letter, x => ((x.headD 'a').toNat : Nat)

theorem Grows.rank_lt {k : Comparison} {x y : Text} (h : Grows U k x y) :
    runRank U k x < runRank U k y := by
  cases k with
  | decimal =>
    obtain ⟨-, m, n, hm, hn, hlt⟩ := h
    rw [runRank, runRank, hm, hn]
    exact Int.ofNat_lt.mpr hlt
  | roman =>
    obtain ⟨-, -, m, n, hm, hn, hlt⟩ := h
    rw [runRank, runRank, hm, hn]
    exact hlt
  | letter =>
    obtain ⟨-, -, c, d, rfl, rfl, -, -, -, hlt⟩ := h
    exact Int.ofNat_lt.mpr hlt

theorem Step.tokens {k : Comparison} {place : List Text} {a b : Text} (h : Step U k place a b) :
    ∃ x y xs ys, labelTokens U a = place ++ x :: xs ∧ labelTokens U b = place ++ y :: ys ∧
      Grows U k x y := by
  obtain ⟨x, y, hdeciding, hgrows⟩ := h
  obtain ⟨-, hdifference⟩ := Option.ite_none_right_eq_some.mp hdeciding
  obtain ⟨xs, ys, ha, hb⟩ := firstDifference_some hdifference
  exact ⟨x, y, xs, ys, ha, hb, hgrows⟩

/-- The run at a place left of the deciding ones stays, and the deciding one grows. -/
theorem Step.rank_le {k c : Comparison} {place : List Text} {a b : Text} (h : Step U c place a b)
    {p : Nat} (hp : p ≤ place.length) (hsame : place.length = p → c = k) :
    runRank U k ((labelTokens U a)[p]?.getD []) ≤ runRank U k ((labelTokens U b)[p]?.getD []) ∧
      (place.length = p → runRank U k ((labelTokens U a)[p]?.getD []) <
        runRank U k ((labelTokens U b)[p]?.getD [])) := by
  obtain ⟨x, y, xs, ys, ha, hb, hgrows⟩ := h.tokens
  rw [ha, hb]
  rcases Nat.lt_or_eq_of_le hp with hlt | rfl
  · rw [List.getElem?_append_left hlt, List.getElem?_append_left hlt]
    exact ⟨le_rfl, fun he => absurd he hlt.ne'⟩
  · have hlt : runRank U k x < runRank U k y := hsame rfl ▸ hgrows.rank_lt
    rw [List.getElem?_append_right le_rfl, List.getElem?_append_right le_rfl, Nat.sub_self,
      List.getElem?_cons_zero, List.getElem?_cons_zero]
    exact ⟨hlt.le, fun _ => hlt⟩

theorem Step.take_eq {c : Comparison} {place : List Text} {a b : Text} (h : Step U c place a b)
    {p : Nat} (hp : p ≤ place.length) :
    (labelTokens U b).take p = (labelTokens U a).take p ∧ (place.length = p →
      (labelTokens U a).take p = place) := by
  obtain ⟨x, y, xs, ys, ha, hb, -⟩ := h.tokens
  rw [ha, hb, List.take_append_of_le_length hp, List.take_append_of_le_length hp]
  refine ⟨rfl, ?_⟩
  rintro rfl
  exact List.take_length

/-- Labels that advance step by step and come back have mixed two comparisons at one place. -/
theorem mixes_of_return {a : Nat → Text} {k : Nat} (hk : 0 < k)
    (hsteps : ∀ i < k, Advances U (a i) (a (i + 1))) (hback : a k = a 0) :
    ∃ place, ∃ i < k, ∃ j < k, ∃ c d, c ≠ d ∧ Step U c place (a i) (a (i + 1)) ∧
      Step U d place (a j) (a (j + 1)) := by
  choose! kind place hstep using hsteps
  -- at the leftmost place that decides, everything to the left stays as it is
  obtain ⟨m, hm, hmin⟩ := Finset.exists_min_image (Finset.range k) (fun i => (place i).length)
    ⟨0, Finset.mem_range.mpr hk⟩
  rw [Finset.mem_range] at hm
  have hleft : ∀ i < k, (place m).length ≤ (place i).length :=
    fun i hi => hmin i (Finset.mem_range.mpr hi)
  have htake : ∀ i ≤ k, (labelTokens U (a i)).take (place m).length =
      (labelTokens U (a 0)).take (place m).length := by
    intro i
    induction i with
    | zero => exact fun _ => rfl
    | succ i ih => exact fun hi => ((hstep i hi).take_eq (hleft i hi)).1.trans (ih (Nat.le_of_lt hi))
  have hplace : ∀ i < k, (place i).length = (place m).length → place i = place m := by
    intro i hi hlen
    rw [← ((hstep i hi).take_eq (hleft i hi)).2 hlen, htake i hi.le, ← htake m hm.le,
      ((hstep m hm).take_eq le_rfl).2 rfl]
  by_contra hnot
  have hsame : ∀ i < k, (place i).length = (place m).length → kind i = kind m := by
    intro i hi hlen
    by_contra hne
    exact hnot ⟨place m, i, hi, m, hm, kind i, kind m, hne, hplace i hi hlen ▸ hstep i hi, hstep m hm⟩
  have hrank := fun i (hi : i < k) => (hstep i hi).rank_le (hleft i hi) (hsame i hi)
  have hle : ∀ i j, i ≤ j → j ≤ k →
      runRank U (kind m) ((labelTokens U (a i))[(place m).length]?.getD []) ≤
        runRank U (kind m) ((labelTokens U (a j))[(place m).length]?.getD []) := by
    intro i j hij
    induction j, hij using Nat.le_induction with
    | base => exact fun _ => le_rfl
    | succ j _ ih => exact fun hj => (ih (Nat.le_of_lt hj)).trans (hrank j hj).1
  have hlow := hle 0 m (Nat.zero_le m) hm.le
  have hhigh := hle (m + 1) k hm le_rfl
  rw [hback] at hhigh
  exact absurd (hlow.trans_lt ((hrank m hm).2 rfl)) hhigh.not_gt

/-! ## Ranges -/

/-- One step of a span. -/
def StepAt (U : CharTables) (ls : List Text) (c : Comparison) (place : List Text) (u : Nat) : Prop :=
  ∃ a b, ls[u]? = some a ∧ ls[u + 1]? = some b ∧ Step U c place a b

/-- A span that advances all the way and carries a label twice, having mixed two comparisons at one
place in between. -/
structure Wraps (U : CharTables) (ls : List Text) : Prop where
  advances : ls.IsChain (Advances U)
  back : ∃ i j, i < j ∧ j < ls.length ∧ ls[i]? = ls[j]? ∧ ∃ place c d, c ≠ d ∧
    (∃ u, i ≤ u ∧ u < j ∧ StepAt U ls c place u) ∧ ∃ v, i ≤ v ∧ v < j ∧ StepAt U ls d place v

theorem wraps_of_repeat {ls : List Text} (h : ls.IsChain (Advances U)) (hrepeat : ¬ ls.Nodup) :
    Wraps U ls := by
  refine ⟨h, ?_⟩
  rw [List.Nodup, List.pairwise_iff_getElem] at hrepeat
  push Not at hrepeat
  obtain ⟨i, j, hi, hj, hij, heq⟩ := hrepeat
  have hget : ∀ n, i + n < ls.length → ls[i + n]? = some (ls.getD (i + n) []) := by
    intro n hn
    rw [List.getD_eq_getElem?_getD, List.getElem?_eq_getElem hn]
    rfl
  have hsteps : ∀ n < j - i, Advances U (ls.getD (i + n) []) (ls.getD (i + (n + 1)) []) := by
    intro n hn
    have hlt : i + n + 1 < ls.length := by omega
    have hstep := List.isChain_iff_getElem.mp h (i + n) hlt
    rw [List.getD_eq_getElem _ _ (by omega), List.getD_eq_getElem _ _ (by omega)]
    exact hstep
  have hback : ls.getD (i + (j - i)) [] = ls.getD (i + 0) [] := by
    rw [Nat.add_sub_of_le hij.le, Nat.add_zero, List.getD_eq_getElem _ _ hj,
      List.getD_eq_getElem _ _ hi, heq]
  obtain ⟨place, u, hu, v, hv, c, d, hne, hc, hd⟩ :=
    mixes_of_return (Nat.sub_pos_of_lt hij) hsteps hback
  refine ⟨i, j, hij, hj, ?_, place, c, d, hne, ⟨i + u, by omega, by omega, ?_⟩,
    ⟨i + v, by omega, by omega, ?_⟩⟩
  · rw [List.getElem?_eq_getElem hi, List.getElem?_eq_getElem hj, heq]
  · exact ⟨_, _, hget u (by omega), hget (u + 1) (by omega), hc⟩
  · exact ⟨_, _, hget v (by omega), hget (v + 1) (by omega), hd⟩

theorem Wraps.repeats {ls : List Text} (h : Wraps U ls) : ¬ ls.Nodup := by
  obtain ⟨i, j, hij, hj, heq, -⟩ := h.back
  intro hnodup
  rw [List.getElem?_eq_getElem (hij.trans hj), List.getElem?_eq_getElem hj] at heq
  exact List.pairwise_iff_getElem.mp hnodup i j (hij.trans hj) hj hij (Option.some.inj heq)

/-- Every page of the span is labelled. -/
structure Labelled (labels : List (Option Text)) (ls : List Text) : Prop where
  labels : labels = ls.map some
  nonempty : ∀ l ∈ ls, l ≠ []

/-- A single label, or the first and the last one. -/
def Ends (r : Text) (ls : List Text) : Prop :=
  ls = [r] ∨ ∃ first mid last, ls = first :: (mid ++ [last]) ∧ r = first ++ ['–'] ++ last

/-- The range returns, and what it prints locates the span: every page is labelled, and no label
occurs twice. -/
def HonestRange (U : CharTables) (labels : List (Option Text)) : Prop :=
  ∃ r, pageLabelRange U labels = some r ∧
    (r ≠ [] → ∃ ls, Labelled labels ls ∧ ls.Nodup ∧ Ends r ls)

/-- The labels `_page_label_range` keeps. -/
def present (labels : List (Option Text)) : List Text :=
  labels.filterMap fun l => l.bind fun t => if t = [] then none else some t

theorem Labelled.present {labels : List (Option Text)} {ls : List Text} (h : Labelled labels ls) :
    present labels = ls := by
  obtain ⟨rfl, hne⟩ := h
  induction ls with
  | nil => rfl
  | cons l ls ih =>
    obtain ⟨hl, hrest⟩ := List.forall_mem_cons.mp hne
    have hcons : Chunking.present ((l :: ls).map some) = l :: Chunking.present (ls.map some) := by
      simp [Chunking.present, hl]
    rw [hcons, ih hrest]

theorem labelled_of_length {labels : List (Option Text)}
    (h : (present labels).length = labels.length) : Labelled labels (present labels) := by
  induction labels with
  | nil => exact ⟨rfl, fun _ hl => absurd hl List.not_mem_nil⟩
  | cons l labels ih =>
    have hle : (present labels).length ≤ labels.length := List.length_filterMap_le _ _
    cases hl : l.bind (fun t => if t = [] then none else some t) with
    | none =>
      have hcons : present (l :: labels) = present labels := by
        unfold present
        rw [List.filterMap_cons, hl]
      rw [hcons, List.length_cons] at h
      omega
    | some t =>
      have hcons : present (l :: labels) = t :: present labels := by
        unfold present
        rw [List.filterMap_cons, hl]
      obtain ⟨t', rfl, ht⟩ := Option.bind_eq_some_iff.mp hl
      rw [Option.ite_none_left_eq_some] at ht
      obtain ⟨hne, ht⟩ := ht
      obtain rfl := Option.some.inj ht
      rw [hcons, List.length_cons, List.length_cons, Nat.add_right_cancel_iff] at h
      obtain ⟨hlabels, hall⟩ := ih h
      rw [hcons]
      exact ⟨by rw [List.map_cons, ← hlabels], List.forall_mem_cons.mpr ⟨hne, hall⟩⟩

/-- A span is not fully labelled, or has one page, or its labels decide. -/
theorem pageLabelRange_eq (labels : List (Option Text)) : pageLabelRange U labels =
    if present labels = [] ∨ (present labels).length ≠ labels.length then some []
    else match present labels with
      | [] => some []
      | [first] => some first
      | first :: _ => (allAdvance U (present labels)).map fun ok =>
          if ok then first ++ ['–'] ++ (present labels).getLast?.getD [] else [] := rfl

theorem not_stuck_short {ls : List Text} (h : ls.length < 2) : ¬ Stuck U ls := by
  rintro ⟨before, a, b, rest, rfl, -⟩
  simp only [List.length_append, List.length_cons] at h
  omega

theorem not_wraps_short {ls : List Text} (h : ls.length < 2) : ¬ Wraps U ls := by
  intro hwraps
  obtain ⟨i, j, hij, hj, -⟩ := hwraps.back
  omega

/-- A span of several labelled pages. -/
theorem honest_several {labels : List (Option Text)} {first second : Text} {rest : List Text}
    (hls : Labelled labels (first :: second :: rest)) :
    (∃ r, ((allAdvance U (first :: second :: rest)).map fun ok =>
        if ok then first ++ ['–'] ++ (first :: second :: rest).getLast?.getD [] else []) = some r ∧
      (r ≠ [] → ∃ ls, Labelled labels ls ∧ ls.Nodup ∧ Ends r ls)) ↔
    ¬ Stuck U (first :: second :: rest) ∧ ¬ Wraps U (first :: second :: rest) := by
  have hends : Ends (first ++ ['–'] ++ (first :: second :: rest).getLast?.getD [])
      (first :: second :: rest) := by
    obtain ⟨mid, last, hsplit⟩ := List.eq_nil_or_concat (second :: rest) |>.resolve_left
      (List.cons_ne_nil _ _)
    rw [hsplit, List.concat_eq_append]
    refine .inr ⟨first, mid, last, rfl, ?_⟩
    rw [← List.cons_append, List.getLast?_concat]
    rfl
  generalize first :: second :: rest = ls at hls hends ⊢
  generalize hr : first ++ ['–'] ++ ls.getLast?.getD [] = r at hends ⊢
  have hne : r ≠ [] := by
    rintro rfl
    simp at hr
  cases hall : allAdvance U ls with
  | none =>
    refine iff_of_false ?_ fun h => h.1 (allAdvance_none.mp hall)
    rintro ⟨r', h, -⟩
    cases h
  | some ok =>
    have hstuck : ¬ Stuck U ls := by
      intro h
      rw [allAdvance_none.mpr h] at hall
      cases hall
    cases ok with
    | false =>
      refine iff_of_true ⟨[], rfl, fun h => absurd rfl h⟩ ⟨hstuck, fun h => ?_⟩
      rw [allAdvance_true.mpr h.advances] at hall
      cases hall
    | true =>
      constructor
      · rintro ⟨r', h, hlocates⟩
        cases h
        obtain ⟨ls', hls', hnodup, -⟩ := hlocates hne
        obtain rfl := hls.present.symm.trans hls'.present
        exact ⟨hstuck, fun h => h.repeats hnodup⟩
      · rintro ⟨-, hwraps⟩
        refine ⟨r, rfl, fun _ => ⟨ls, hls, ?_, hends⟩⟩
        by_contra hrepeat
        exact hwraps (wraps_of_repeat (allAdvance_true.mp hall) hrepeat)

theorem honestRange_iff (labels : List (Option Text)) : HonestRange U labels ↔
    ∀ ls, Labelled labels ls → ¬ Stuck U ls ∧ ¬ Wraps U ls := by
  unfold HonestRange
  rw [pageLabelRange_eq]
  by_cases hshort : present labels = [] ∨ (present labels).length ≠ labels.length
  · rw [if_pos hshort]
    refine iff_of_true ⟨[], rfl, fun h => absurd rfl h⟩ fun ls hls => ?_
    have hlen : ls.length = labels.length := by rw [hls.labels, List.length_map]
    rw [hls.present] at hshort
    obtain rfl := hshort.resolve_right (not_not.mpr hlen)
    exact ⟨not_stuck_short (Nat.zero_lt_two), not_wraps_short (Nat.zero_lt_two)⟩
  · rw [if_neg hshort]
    rw [not_or, not_not] at hshort
    have hls := labelled_of_length hshort.2
    have honly : ∀ ls, Labelled labels ls → ls = present labels := fun ls h => h.present.symm
    generalize present labels = ls at hshort hls honly ⊢
    have hcond : (∀ ls', Labelled labels ls' → ¬ Stuck U ls' ∧ ¬ Wraps U ls') ↔
        ¬ Stuck U ls ∧ ¬ Wraps U ls :=
      ⟨fun h => h ls hls, fun h ls' hls' => honly ls' hls' ▸ h⟩
    rw [hcond]
    match ls, hshort.1 with
    | [first], _ =>
      refine iff_of_true ⟨first, rfl, fun _ => ⟨[first], hls, List.nodup_singleton first, .inl rfl⟩⟩
        ⟨not_stuck_short Nat.one_lt_two, not_wraps_short Nat.one_lt_two⟩
    | first :: second :: rest, _ => exact honest_several hls

end

/-- ASCII and the superscripts two and three, which are digits but no decimals. -/
def superscriptTables : CharTables :=
  { asciiTables with isDigit := fun c => c.isDigit || c = '²' || c = '³' }

/-- A roman step down the alphabet and letter steps back, and digits that `int` cannot read. -/
theorem dishonest_ranges :
    pageLabelRange superscriptTables (["x", "l", "n", "x"].map fun l => some l.toList) =
        some "x–x".toList ∧
      pageLabelRange superscriptTables (["²", "³"].map fun l => some l.toList) = none ∧
      ¬ HonestRange superscriptTables (["x", "l", "n", "x"].map fun l => some l.toList) ∧
      ¬ HonestRange superscriptTables (["²", "³"].map fun l => some l.toList) := by
  have hback : pageLabelRange superscriptTables (["x", "l", "n", "x"].map fun l => some l.toList) =
      some "x–x".toList := by decide +kernel
  have hraise : pageLabelRange superscriptTables (["²", "³"].map fun l => some l.toList) = none := by
    decide +kernel
  refine ⟨hback, hraise, ?_, ?_⟩
  · rintro ⟨r, hr, hlocates⟩
    obtain rfl := Option.some.inj (hback.symm.trans hr)
    obtain ⟨ls, hls, hnodup, -⟩ := hlocates (by decide +kernel)
    obtain rfl : ls = ["x".toList, "l".toList, "n".toList, "x".toList] :=
      hls.present.symm.trans (by decide +kernel)
    exact absurd hnodup (by decide +kernel)
  · rintro ⟨r, hr, -⟩
    rw [hraise] at hr
    cases hr

end MainframeRag.Ingest.Chunking
