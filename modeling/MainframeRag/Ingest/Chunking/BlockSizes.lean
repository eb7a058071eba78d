import MainframeRag.Ingest.Chunking.Expand
import Mathlib

/-!
# Block sizes

Every block is overlap from the block before it and then items of its own (`Covers`), and its length
is bounded. The running length of the loop never falls behind the text it stands for (`Sized`),
whichever way a flush accounted for its seed.
-/

namespace MainframeRag.Ingest.Chunking

open PyText

section

variable {α : Type} (nl : α)

/-! ## Lengths of joined texts -/

theorem separator_length_le (prev : Bool) (it : Item α) : (separator nl prev it).length ≤ 2 := by
  unfold separator
  split
  · exact Nat.le_succ 1
  · exact Nat.le_refl 2

theorem joinRest_append_length (prev : Bool) (items : List (Item α)) (it : Item α) :
    (joinRest nl prev (items ++ [it])).length ≤
      (joinRest nl prev items).length + it.text.length + 2 := by
  induction items generalizing prev with
  | nil =>
    have := separator_length_le nl prev it
    simp only [List.nil_append, joinRest, List.append_nil, List.length_append, List.length_nil]
    omega
  | cons i items ih =>
    have := ih i.atomic
    simp only [List.cons_append, joinRest, List.length_append] at this ⊢
    omega

theorem joinText_append_length (items : List (Item α)) (it : Item α) :
    (joinText nl (items ++ [it])).length ≤ (joinText nl items).length + it.text.length + 2 := by
  cases items with
  | nil =>
    simp only [List.nil_append, joinText, joinRest, List.append_nil, List.length_nil]
    omega
  | cons i items =>
    have := joinRest_append_length nl i.atomic items it
    simp only [List.cons_append, joinText, List.length_append]
    omega

theorem joinRest_length_le (prev : Bool) (items : List (Item α)) :
    (joinRest nl prev items).length ≤ textLen items + 2 * items.length := by
  induction items generalizing prev with
  | nil => exact Nat.le_refl 0
  | cons it items ih =>
    have := separator_length_le nl prev it
    have := ih it.atomic
    simp only [joinRest, textLen, List.length_append, List.map_cons, List.sum_cons,
      List.length_cons] at this ⊢
    omega

theorem joinText_length_le (items : List (Item α)) :
    (joinText nl items).length ≤ textLen items + 2 * items.length := by
  cases items with
  | nil => exact Nat.le_refl 0
  | cons it items =>
    have := joinRest_length_le nl it.atomic items
    simp only [joinText, textLen, List.length_append, List.map_cons, List.sum_cons,
      List.length_cons] at this ⊢
    omega

theorem joinText_le_joinRest (prev : Bool) (items : List (Item α)) :
    (joinText nl items).length ≤ (joinRest nl prev items).length := by
  cases items with
  | nil => exact Nat.le_refl 0
  | cons it items =>
    simp only [joinText, joinRest, List.length_append]
    omega

/-! ## The overlap seed is short -/

theorem backOff_length {k pos : Nat} {prev : Bool} {items rest : List (Item α)}
    (h : backOff k items (offsetsRest nl pos prev items) = some rest) :
    (joinText nl rest).length + k ≤ pos + (joinRest nl prev items).length := by
  induction items generalizing pos prev with
  | nil => cases h
  | cons it items ih =>
    simp only [offsetsRest, backOff] at h
    split at h
    · next hcut =>
      obtain rfl := Option.some.inj h
      have := joinText_le_joinRest nl it.atomic items
      simp only [joinRest, List.length_append]
      omega
    · have := ih h
      simp only [joinRest, List.length_append] at this ⊢
      omega

theorem backOff_joinOffsets {k : Nat} {items rest : List (Item α)}
    (h : backOff k items (joinOffsets nl items) = some rest) :
    (joinText nl rest).length + k ≤ (joinText nl items).length := by
  cases items with
  | nil => cases h
  | cons it items =>
    simp only [joinOffsets, backOff] at h
    split at h
    · next hcut =>
      obtain rfl := Option.some.inj h
      have := joinText_le_joinRest nl it.atomic items
      simp only [joinText, List.length_append] at this ⊢
      omega
    · have := backOff_length nl h
      simpa only [joinText, List.length_append] using this

theorem joinText_singleton (it : Item α) : joinText nl [it] = it.text := List.append_nil _

/-- A seed never exceeds the overlap, blind tail or not. -/
theorem overlapSeed_length (items : List (Item α)) :
    (joinText nl (overlapSeed nl items)).length ≤ splitOverlapChars := by
  unfold overlapSeed
  dsimp only
  split
  · next h => rwa [joinText_singleton]
  · next h =>
    split
    · next rest hrest =>
      have := backOff_joinOffsets nl hrest
      omega
    · rw [joinText_singleton, List.length_drop]
      omega

/-- Both ways of accounting for a seed cover the text it starts. -/
theorem seedLen_ge (seed : List (Item α)) (it : Item α) :
    (joinText nl (seed ++ [it])).length ≤ seedLen seed it := by
  unfold seedLen
  split
  · next page t =>
    have := joinText_append_length nl [⟨page, t, false⟩] it
    rwa [joinText_singleton] at this
  · exact joinText_length_le nl _

/-! ## The running length -/

/-- The length a block may have. -/
def blockMaxChars : Nat := sectionMaxChars + splitOverlapChars + 2

/-- The running length covers the accumulated text, and that fits a block. -/
structure Sized (s : Acc α) : Prop where
  covered : (joinText nl s.current).length ≤ s.currentLen
  fits : (joinText nl s.current).length ≤ blockMaxChars

/-- The emission is one oversize statement, or fits a block. -/
def Emission.Bounded (e : Emission α) : Prop :=
  (e.text nl).length ≤ blockMaxChars ∨
    ∃ it, e = .whole it ∧ it.atomic = true ∧ sectionMaxChars < it.text.length

structure AllBounded (s : Acc α) : Prop where
  out : ∀ e ∈ s.out, e.Bounded nl
  current : Sized nl s

theorem AllBounded.flush {s : Acc α} (h : AllBounded nl s) : AllBounded nl s.flush := by
  unfold Acc.flush
  split
  · exact h
  · refine ⟨fun e he => ?_, ⟨Nat.zero_le _, Nat.zero_le _⟩⟩
    rcases List.mem_append.mp he with he | he
    · exact h.out e he
    · rw [List.mem_singleton.mp he]
      exact .inl h.current.fits

theorem slices_length {n fuel : Nat} {t x : List α} (h : x ∈ slices n fuel t) : x.length ≤ n := by
  induction fuel generalizing t with
  | zero => cases h
  | succ fuel ih =>
    cases t with
    | nil => cases h
    | cons c t =>
      rcases List.mem_cons.mp h with rfl | h
      · exact List.length_take_le _ _
      · exact ih h

theorem AllBounded.push {s : Acc α} (h : AllBounded nl s) (it : Item α) :
    AllBounded nl (s.push nl it) := by
  have hmax : blockMaxChars = sectionMaxChars + splitOverlapChars + 2 := rfl
  unfold Acc.push
  split_ifs with hbig hat hov
  · refine ⟨fun e he => ?_, ⟨(h.flush nl).current.covered, (h.flush nl).current.fits⟩⟩
    rcases List.mem_append.mp he with he | he
    · exact (h.flush nl).out e he
    · exact .inr ⟨it, List.mem_singleton.mp he, hat, hbig⟩
  · refine ⟨fun e he => ?_, ⟨(h.flush nl).current.covered, (h.flush nl).current.fits⟩⟩
    rcases List.mem_append.mp he with he | he
    · exact (h.flush nl).out e he
    · obtain ⟨t, ht, rfl⟩ := List.mem_map.mp he
      have hle := slices_length ht
      refine .inl (hle.trans ?_)
      omega
  · -- behind a flush the text is the seed and one item
    refine ⟨fun e he => ?_, ⟨seedLen_ge nl _ it, ?_⟩⟩
    · rcases List.mem_append.mp he with he | he
      · exact h.out e he
      · rw [List.mem_singleton.mp he]
        exact .inl h.current.fits
    · have hseed := overlapSeed_length nl s.current
      have hjoin := joinText_append_length nl (overlapSeed nl s.current) it
      dsimp only
      omega
  · have hjoin := joinText_append_length nl s.current it
    have hcovered := h.current.covered
    refine ⟨h.out, ⟨?_, ?_⟩⟩
    · dsimp only
      omega
    · dsimp only
      by_cases hcur : s.current = []
      · rw [hcur, List.nil_append, joinText_singleton]
        omega
      · have := not_and_or.mp hov
        rw [not_not] at this
        have := this.resolve_right hcur
        omega

theorem emissions_bounded (items : List (Item α)) : ∀ e ∈ emissions nl items, e.Bounded nl := by
  have hacc : ∀ s, AllBounded nl s → AllBounded nl (items.foldl (Acc.push nl) s) := by
    induction items with
    | nil => exact fun s hs => hs
    | cons it items ih => exact fun s hs => ih _ (hs.push nl it)
  have hempty : AllBounded nl ({} : Acc α) :=
    ⟨fun e he => absurd he List.not_mem_nil, ⟨Nat.le_refl 0, Nat.zero_le _⟩⟩
  exact ((hacc {} hempty).flush nl).out

/-! ## Blocks have items of their own -/

/-- Blocks that cover a list of items in order, each item once: a joined block is overlap from the
joined block before it, if any, and at least one item that no block had before. -/
inductive Covers : Option (List (Item α)) → List (Item α) → List (Emission α) → Prop
  | nil {prev} : Covers prev [] []
  | joined {prev seed fresh items es} (hseed : seed = [] ∨ prev.map (overlapSeed nl) = some seed)
      (hfresh : fresh ≠ []) (rest : Covers (some (seed ++ fresh)) items es) :
      Covers prev (fresh ++ items) (.joined (seed ++ fresh) :: es)
  | whole {prev it items es} (hatomic : it.atomic = true)
      (hbig : sectionMaxChars < it.text.length) (rest : Covers none items es) :
      Covers prev (it :: items) (.whole it :: es)
  | sliced {prev it items es} (hprose : it.atomic = false)
      (hbig : sectionMaxChars < it.text.length) (rest : Covers none items es) :
      Covers prev (it :: items)
        ((slices sectionMaxChars it.text.length it.text).map (.slice it.page) ++ es)

/-- The accumulated items: a seed from the block before, and items no block had before. -/
structure Pending (prev : Option (List (Item α))) (fresh : List (Item α)) (s : Acc α) : Prop where
  split : ∃ seed, s.current = seed ++ fresh ∧ (seed = [] ∨ prev.map (overlapSeed nl) = some seed)
  own : fresh = [] → s.current = []

theorem pending_empty {prev : Option (List (Item α))} {s : Acc α} (h : s.current = []) :
    Pending nl prev [] s :=
  ⟨⟨[], h, .inl rfl⟩, fun _ => h⟩

theorem Pending.flush {prev : Option (List (Item α))} {fresh : List (Item α)} {s : Acc α}
    (h : Pending nl prev fresh s) : ∃ emitted, s.flush.out = s.out ++ emitted ∧
      ∀ items es, (∀ prev, Covers nl prev items es) →
        Covers nl prev (fresh ++ items) (emitted ++ es) := by
  unfold Acc.flush
  split
  · next hcur =>
    obtain ⟨seed, hsplit, -⟩ := h.split
    rw [hcur] at hsplit
    obtain ⟨-, rfl⟩ := List.append_eq_nil_iff.mp hsplit.symm
    exact ⟨[], (List.append_nil _).symm, fun items es hes => hes prev⟩
  · next hcur =>
    obtain ⟨seed, hsplit, hseed⟩ := h.split
    rw [hsplit]
    exact ⟨_, rfl, fun items es hes => .joined hseed (fun hf => hcur (h.own hf)) (hes _)⟩

theorem Acc.flush_current (s : Acc α) : s.flush.current = [] := by
  unfold Acc.flush
  split
  · next h => exact h
  · rfl

/-- Behind an oversize item the chain of seeds starts again. -/
theorem Pending.restart {prev : Option (List (Item α))} {fresh items : List (Item α)} {s : Acc α}
    (h : Pending nl prev fresh s) {it : Item α} {emitted : List (Emission α)} {out : List (Emission α)}
    (hcovers : ∀ es, Covers nl none items es → ∀ prev, Covers nl prev (it :: items) (emitted ++ es))
    (hrun : ∃ es, out = (s.flush.out ++ emitted) ++ es ∧ Covers nl none ([] ++ items) es) :
    ∃ es, out = s.out ++ es ∧ Covers nl prev (fresh ++ it :: items) es := by
  obtain ⟨es, rfl, hes⟩ := hrun
  obtain ⟨first, hfirst, hall⟩ := h.flush
  refine ⟨first ++ (emitted ++ es), ?_, hall _ _ (hcovers es hes)⟩
  rw [hfirst, List.append_assoc, List.append_assoc]

/-- From any state on, what is emitted covers what is pending and what comes. -/
theorem run_covers (items : List (Item α)) : ∀ {prev fresh} {s : Acc α}, Pending nl prev fresh s →
    ∃ es, (items.foldl (Acc.push nl) s).flush.out = s.out ++ es ∧
      Covers nl prev (fresh ++ items) es := by
  induction items with
  | nil =>
    intro prev fresh s h
    obtain ⟨emitted, hout, hcovers⟩ := h.flush nl
    refine ⟨emitted, hout, ?_⟩
    have hnil := hcovers [] [] fun prev => .nil
    rwa [List.append_nil emitted] at hnil
  | cons it items ih =>
    intro prev fresh s h
    rw [List.foldl_cons]
    by_cases hbig : sectionMaxChars < it.text.length
    · cases hat : it.atomic with
      | true =>
        have hpush : s.push nl it = { s.flush with out := s.flush.out ++ [.whole it] } := by
          unfold Acc.push
          rw [if_pos hbig, if_pos hat]
        rw [hpush]
        exact h.restart nl (fun es hes prev => .whole hat hbig hes)
          (ih (pending_empty nl s.flush_current))
      | false =>
        have hpush : s.push nl it = { s.flush with
            out := s.flush.out ++
              (slices sectionMaxChars it.text.length it.text).map (.slice it.page) } := by
          unfold Acc.push
          rw [if_pos hbig, hat]
          rfl
        rw [hpush]
        exact h.restart nl (fun es hes prev => .sliced hat hbig hes)
          (ih (pending_empty nl s.flush_current))
    · by_cases hov : sectionMaxChars < s.currentLen + it.text.length ∧ s.current ≠ []
      · have hpush : s.push nl it = ⟨s.out ++ [.joined s.current],
            overlapSeed nl s.current ++ [it], seedLen (overlapSeed nl s.current) it⟩ := by
          unfold Acc.push
          rw [if_neg hbig, if_pos hov]
        have hseeded : Pending nl (some s.current) [it] (s.push nl it) := by
          rw [hpush]
          exact ⟨⟨_, rfl, .inr rfl⟩, fun hnil => absurd hnil (List.cons_ne_nil _ _)⟩
        obtain ⟨es, hes, hrest⟩ := ih hseeded
        obtain ⟨seed, hsplit, hseed⟩ := h.split
        refine ⟨.joined s.current :: es, ?_, ?_⟩
        · rw [hes, hpush]
          exact List.append_assoc _ _ _
        · rw [hsplit] at hrest ⊢
          exact .joined hseed (fun hf => hov.2 (h.own hf)) hrest
      · have hpush : s.push nl it = ⟨s.out, s.current ++ [it], s.currentLen + it.text.length + 2⟩ := by
          unfold Acc.push
          rw [if_neg hbig, if_neg hov]
        obtain ⟨seed, hsplit, hseed⟩ := h.split
        have hgrown : Pending nl prev (fresh ++ [it]) (s.push nl it) := by
          rw [hpush]
          exact ⟨⟨seed, by rw [hsplit, List.append_assoc], hseed⟩,
            fun hnil => absurd hnil (List.append_ne_nil_of_right_ne_nil _ (List.cons_ne_nil _ _))⟩
        obtain ⟨es, hes, hrest⟩ := ih hgrown
        refine ⟨es, by rw [hes, hpush], ?_⟩
        rwa [List.append_assoc] at hrest

theorem emissions_cover (items : List (Item α)) : Covers nl none items (emissions nl items) := by
  have hstart : Pending nl none [] ({} : Acc α) := pending_empty nl rfl
  obtain ⟨es, hes, hcovers⟩ := run_covers nl items hstart
  have hout : emissions nl items = es := hes
  rw [hout]
  exact hcovers

end

/-! ## Sections -/

/-- A block of a section fits, or is one oversize statement; and its blocks cover its items, each
with items of its own. -/
theorem buildBlocks_sizes (U : CharTables) (paras : List (Nat × Text)) (codeSection : Bool) :
    ∃ es, buildBlocks U paras codeSection = es.map (Emission.block '\n') ∧
      Covers '\n' none (expand U paras codeSection) es ∧
      ∀ e ∈ es, (e.block '\n').text.length ≤ sectionMaxChars + splitOverlapChars + 2 ∨
        ∃ it, e = .whole it ∧ it.atomic = true ∧ sectionMaxChars < it.text.length := by
  refine ⟨_, rfl, emissions_cover '\n' _, fun e he => ?_⟩
  have htext : (e.block '\n').text = e.text '\n' := by cases e <;> rfl
  rw [htext]
  exact emissions_bounded '\n' _ e he

end MainframeRag.Ingest.Chunking
