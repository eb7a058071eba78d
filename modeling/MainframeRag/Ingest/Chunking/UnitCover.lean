import MainframeRag.Ingest.Chunking.BlockShape
import MainframeRag.Ingest.Chunking.Ink
import MainframeRag.Ingest.Chunking.UnitSpans

/-!
# Redetected units cover the text

`units_for_text` searches the parts of a splitter one behind the other, each at its first
occurrence. Where all are found the spans select exactly the parts, and since a splitter keeps the
ink of its text, what lies between the spans is blank (`unitsForText_cover`). The search finds the
parts whenever they can be placed in order at all.
-/

namespace MainframeRag.Ingest.Chunking

open PyText

/-! ## The search -/

theorem findAt_split {sub t : Text} {i k : Nat} (h : findAt sub t i = some k) :
    ∃ gap rest, t = gap ++ (sub ++ rest) ∧ k = i + gap.length := by
  induction t generalizing i with
  | nil =>
    rw [findAt] at h
    split at h
    · next hsub =>
      cases h
      exact ⟨[], [], by rw [hsub]; rfl, rfl⟩
    · cases h
  | cons c t ih =>
    rw [findAt] at h
    split at h
    · next hhead =>
      cases h
      obtain ⟨rest, hrest⟩ := List.isPrefixOf_iff_prefix.mp hhead
      exact ⟨[], rest, hrest.symm, rfl⟩
    · obtain ⟨gap, rest, hsplit, hk⟩ := ih h
      refine ⟨c :: gap, rest, by rw [hsplit]; rfl, ?_⟩
      rw [hk, List.length_cons]
      omega

/-- The first occurrence stands before every other. -/
theorem findAt_le {sub t : Text} {p : Nat} (h : sub <+: t.drop p) (i : Nat) :
    ∃ k, findAt sub t i = some k ∧ k ≤ i + p := by
  induction t generalizing i p with
  | nil =>
    rw [List.drop_nil] at h
    exact ⟨i, by rw [findAt, if_pos (List.prefix_nil.mp h)], Nat.le_add_right i p⟩
  | cons c t ih =>
    rw [findAt]
    by_cases hhead : sub.isPrefixOf (c :: t) = true
    · exact ⟨i, if_pos hhead, Nat.le_add_right i p⟩
    · rw [if_neg hhead]
      cases p with
      | zero => exact absurd (List.isPrefixOf_iff_prefix.mpr h) hhead
      | succ p =>
        obtain ⟨k, hk, hle⟩ := ih h (i + 1)
        exact ⟨k, hk, by omega⟩

theorem find_split {t sub : Text} {start k : Nat} (h : find t sub start = some k) :
    ∃ gap rest, t.drop start = gap ++ (sub ++ rest) ∧ k = start + gap.length := by
  unfold find at h
  split at h
  · exact findAt_split h
  · cases h

theorem find_le {t sub : Text} {start p : Nat} (hp : start ≤ p) (hlen : p ≤ t.length)
    (h : sub <+: t.drop p) : ∃ k, find t sub start = some k ∧ k ≤ p := by
  have hdrop : (t.drop start).drop (p - start) = t.drop p := by
    rw [List.drop_drop, Nat.add_sub_cancel' hp]
  obtain ⟨k, hk, hle⟩ := findAt_le (hdrop ▸ h) start
  exact ⟨k, by rw [find, if_pos (hp.trans hlen), hk], by omega⟩

/-! ## Places -/

/-- The parts stand in the text at the spans, one behind the other. -/
structure Places (t : Text) (parts : List (Text × UnitKind)) (spans : List UnitSpan) : Prop where
  texts : spans.map (fun s => (s.select t, s.kind)) = parts
  ordered : spans.Pairwise fun a b => a.stop ≤ b.start
  inside : ∀ s ∈ spans, s.start ≤ s.stop ∧ s.stop ≤ t.length

theorem select_of_drop {t gap part rest : Text} {cursor : Nat} (kind : UnitKind)
    (h : t.drop cursor = gap ++ (part ++ rest)) :
    UnitSpan.select ⟨cursor + gap.length, cursor + gap.length + part.length, kind⟩ t = part := by
  have hdrop : t.drop (cursor + gap.length) = part ++ rest := by
    rw [← List.drop_drop, h, List.drop_left]
  rw [UnitSpan.select, List.drop_take, hdrop, Nat.add_sub_cancel_left, List.take_left]

theorem locateParts_places {t : Text} {cursor : Nat} {parts : List (Text × UnitKind)}
    {spans : List UnitSpan} (h : locateParts t cursor parts = some spans) :
    Places t parts spans ∧ ∀ s ∈ spans, cursor ≤ s.start := by
  induction parts generalizing cursor spans with
  | nil =>
    cases h
    exact ⟨⟨rfl, .nil, by simp⟩, by simp⟩
  | cons p parts ih =>
    obtain ⟨part, kind⟩ := p
    rw [locateParts] at h
    split at h
    · cases h
    · next pos hpos =>
      obtain ⟨later, hlater, rfl⟩ := Option.map_eq_some_iff.mp h
      obtain ⟨hplaces, hbehind⟩ := ih hlater
      obtain ⟨gap, rest, hsplit, hk⟩ := find_split hpos
      refine ⟨⟨?_, ?_, ?_⟩, fun s hs => ?_⟩
      · have hpart := select_of_drop kind hsplit
        rw [← hk] at hpart
        rw [List.map_cons, hplaces.texts, hpart]
      · exact List.pairwise_cons.mpr ⟨hbehind, hplaces.ordered⟩
      · refine List.forall_mem_cons.mpr ⟨⟨Nat.le_add_right _ _, find_bound hpos⟩, hplaces.inside⟩
      · rcases List.mem_cons.mp hs with rfl | hs
        · exact Nat.le.intro hk.symm
        · have := hbehind s hs
          omega

/-- Parts that can be placed in order are found. -/
theorem exists_locateParts {t : Text} {cursor : Nat} {parts : List (Text × UnitKind)}
    {spans : List UnitSpan} (h : Places t parts spans) (hbehind : ∀ s ∈ spans, cursor ≤ s.start) :
    ∃ found, locateParts t cursor parts = some found := by
  induction spans generalizing cursor parts with
  | nil =>
    obtain rfl : [] = parts := h.texts
    exact ⟨[], rfl⟩
  | cons s spans ih =>
    obtain ⟨hstop, hinside⟩ := List.forall_mem_cons.mp h.inside
    obtain ⟨hnext, hordered⟩ := List.pairwise_cons.mp h.ordered
    have hparts := h.texts
    rw [List.map_cons] at hparts
    subst hparts
    have hlen : (s.select t).length = s.stop - s.start := by
      rw [UnitSpan.select, List.length_drop, List.length_take, Nat.min_eq_left hstop.2]
    have hprefix : s.select t <+: t.drop s.start := by
      rw [UnitSpan.select, List.drop_take]
      exact List.take_prefix _ _
    obtain ⟨k, hk, hle⟩ := find_le (hbehind s List.mem_cons_self) (hstop.1.trans hstop.2) hprefix
    have hlater : ∀ other ∈ spans, k + (s.select t).length ≤ other.start := fun other hother => by
      have := hnext other hother
      omega
    obtain ⟨found, hfound⟩ := ih ⟨rfl, hordered, hinside⟩ hlater
    exact ⟨_, by rw [locateParts, hk]; dsimp only; rw [hfound]; rfl⟩

/-! ## What lies between -/

/-- Where the parts have the ink of the text, every character outside their spans is blank. -/
theorem locateParts_outside {t : Text} {cursor : Nat} {parts : List (Text × UnitKind)}
    {spans : List UnitSpan} (h : locateParts t cursor parts = some spans) :
    (inks (parts.map Prod.fst)).length ≤ (ink (t.drop cursor)).length ∧
      ((inks (parts.map Prod.fst)).length = (ink (t.drop cursor)).length →
        ∀ i c, cursor ≤ i → t[i]? = some c → (∀ s ∈ spans, ¬ (s.start ≤ i ∧ i < s.stop)) →
          isSpace c = true) := by
  have hchar : ∀ {u : Text} {i : Nat} {c : Char}, u[i]? = some c → (ink u).length = 0 →
      isSpace c = true := fun {u i c} hget hnone => by
    by_contra hc
    have hmem : c ∈ ink u := List.mem_filter.mpr ⟨List.mem_of_getElem? hget, by simpa using hc⟩
    rw [List.length_eq_zero_iff.mp hnone] at hmem
    cases hmem
  induction parts generalizing cursor spans with
  | nil =>
    cases h
    refine ⟨Nat.zero_le _, fun hzero i c hi hget _ => ?_⟩
    refine hchar (u := t.drop cursor) (i := i - cursor) ?_ hzero.symm
    rw [List.getElem?_drop, Nat.add_sub_cancel' hi]
    exact hget
  | cons p parts ih =>
    obtain ⟨part, kind⟩ := p
    rw [locateParts] at h
    split at h
    · cases h
    · next pos hpos =>
      obtain ⟨later, hlater, rfl⟩ := Option.map_eq_some_iff.mp h
      obtain ⟨hle, hblank⟩ := ih hlater
      obtain ⟨gap, rest, hsplit, hk⟩ := find_split hpos
      have hrest : t.drop (pos + part.length) = rest := by
        rw [hk, Nat.add_assoc, ← List.drop_drop, hsplit, ← List.append_assoc,
          ← List.length_append, List.drop_left]
      have hink : (ink (t.drop cursor)).length =
          (ink gap).length + (ink part).length + (ink (t.drop (pos + part.length))).length := by
        rw [hsplit, ink_append, ink_append, hrest]
        simp only [List.length_append]
        omega
      have hparts : (inks (((part, kind) :: parts).map Prod.fst)).length =
          (ink part).length + (inks (parts.map Prod.fst)).length := by
        rw [List.map_cons, inks_cons, List.length_append]
      rw [hink, hparts]
      refine ⟨by omega, fun heq i c hi hget hout => ?_⟩
      obtain ⟨hhere, hthere⟩ := List.forall_mem_cons.mp hout
      by_cases hbefore : i < pos
      · refine hchar (u := gap) (i := i - cursor) ?_ (by omega)
        have hdrop : (t.drop cursor)[i - cursor]? = some c := by
          rw [List.getElem?_drop, Nat.add_sub_cancel' hi]
          exact hget
        rwa [hsplit, List.getElem?_append_left (by omega)] at hdrop
      · have hbehind : pos + part.length ≤ i := by
          by_contra hlt
          exact hhere ⟨not_lt.mp hbefore, not_le.mp hlt⟩
        exact hblank (by omega) i c hbehind hget hthere

/-! ## The units of a text -/

/-- The parts of the splitter that applies. -/
def unitParts (U : CharTables) (stripped : Text) : List (Text × UnitKind) :=
  if stripped = [] then []
  else match codeStatements U stripped with
    | some statements => statements.map (·, .atomic)
    | none =>
      if detectTableRegion U stripped then (nonblankLines stripped).map (·, .atomic)
      else
        let items := mixedJclItems stripped
        if 1 < items.length ∨ items.any (·.2) then
          items.map fun i => (i.1, if i.2 then .atomic else .prose)
        else []

theorem unitsForText_eq (U : CharTables) (t : Text) :
    unitsForText U t = (locateParts (strip t) 0 (unitParts U (strip t))).getD [] := by
  unfold unitsForText unitParts
  dsimp only
  by_cases hblank : strip t = []
  · rw [if_pos hblank, if_pos hblank]
    rfl
  · rw [if_neg hblank, if_neg hblank]
    cases codeStatements U (strip t) with
    | some statements => rfl
    | none =>
      dsimp only
      split
      · rfl
      · split <;> rfl

theorem map_atomic (ts : List Text) : (ts.map fun t => (t, UnitKind.atomic)).map Prod.fst = ts := by
  rw [List.map_map]
  exact List.map_id _

/-- The parts have the ink of the text, and none is empty. -/
theorem unitParts_spec {U : CharTables} {stripped : Text} (h : unitParts U stripped ≠ []) :
    inks ((unitParts U stripped).map Prod.fst) = ink stripped ∧
      ∀ p ∈ unitParts U stripped, p.1 ≠ [] := by
  have hatomic : ∀ {ts : List Text}, (∀ x ∈ ts, x ≠ []) →
      ∀ p ∈ ts.map fun t => (t, UnitKind.atomic), p.1 ≠ [] := fun hts p hp => by
    obtain ⟨x, hx, rfl⟩ := List.mem_map.mp hp
    exact hts x hx
  unfold unitParts at h ⊢
  by_cases hblank : stripped = []
  · exact absurd (if_pos hblank) h
  · rw [if_neg hblank] at h ⊢
    cases hcode : codeStatements U stripped with
    | some statements =>
      dsimp only
      rw [map_atomic]
      exact ⟨inks_codeStatements hcode, hatomic fun x hx => codeStatements_ne hcode hx⟩
    | none =>
      rw [hcode] at h
      dsimp only at h ⊢
      split at h
      · next htable =>
        rw [if_pos htable, map_atomic]
        exact ⟨inks_nonblankLines stripped, hatomic fun x hx => nonblankLines_ne hx⟩
      · next htable =>
        rw [if_neg htable]
        split at h
        · next hmixed =>
          rw [if_pos hmixed, List.map_map]
          refine ⟨inks_mixedJclItems stripped, fun p hp => ?_⟩
          obtain ⟨i, hi, rfl⟩ := List.mem_map.mp hp
          exact mixedJclItems_ne hblank hi
        · exact absurd rfl h

/-- The spans stand in order inside the stripped text; if there are any they select the parts of the
splitter that applied and leave only blanks outside, and there are none exactly where no splitter
applied or its parts stand nowhere in order. -/
theorem unitsForText_cover (U : CharTables) (t : Text) :
    ((unitsForText U t).Pairwise fun a b => a.stop ≤ b.start) ∧
      (∀ s ∈ unitsForText U t, s.start < s.stop ∧ s.stop ≤ (strip t).length) ∧
      (unitsForText U t ≠ [] →
        (unitsForText U t).map (fun s => (s.select (strip t), s.kind)) = unitParts U (strip t) ∧
          ∀ i c, (strip t)[i]? = some c →
            (∀ s ∈ unitsForText U t, ¬ (s.start ≤ i ∧ i < s.stop)) → isSpace c = true) ∧
      (unitsForText U t = [] ↔ unitParts U (strip t) = [] ∨
        ∀ spans, ¬ Places (strip t) (unitParts U (strip t)) spans) := by
  rw [unitsForText_eq]
  cases hfound : locateParts (strip t) 0 (unitParts U (strip t)) with
  | none =>
    refine ⟨.nil, by simp, fun h => absurd rfl h, fun _ => .inr fun spans hspans => ?_, fun _ => rfl⟩
    obtain ⟨found, h⟩ := exists_locateParts hspans fun s _ => Nat.zero_le s.start
    rw [hfound] at h
    cases h
  | some spans =>
    rw [Option.getD_some]
    obtain ⟨hplaces, -⟩ := locateParts_places hfound
    have hnil : spans = [] ↔ unitParts U (strip t) = [] := by
      rw [← hplaces.texts, List.map_eq_nil_iff]
    refine ⟨hplaces.ordered, fun s hs => ?_, fun hne => ⟨hplaces.texts, ?_⟩, fun h => ?_, fun h => ?_⟩
    · obtain ⟨hle, hlen⟩ := hplaces.inside s hs
      have hparts := (unitParts_spec (hnil.not.mp (List.ne_nil_of_mem hs))).2
      rw [← hplaces.texts] at hparts
      have hpart : s.select (strip t) ≠ [] := hparts _ (List.mem_map_of_mem hs)
      refine ⟨lt_of_le_of_ne hle fun heq => hpart ?_, hlen⟩
      rw [UnitSpan.select, heq]
      exact List.drop_of_length_le (List.length_take_le _ _)
    · have hink := congrArg List.length (unitParts_spec (hnil.not.mp hne)).1
      intro i c hget
      exact (locateParts_outside hfound).2 hink i c (Nat.zero_le i) hget
    · exact .inl (hnil.mp h)
    · exact hnil.mpr (h.resolve_right fun hnone => hnone spans hplaces)

end MainframeRag.Ingest.Chunking
