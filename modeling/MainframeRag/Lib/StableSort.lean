import Mathlib

/-!
# Stable sorts

`Ahead l a b`: `a` stands ahead of `b` in `l`. A stable sort keeps that order where the keys tie
(`stable_mergeSort`), and so does splitting a list by a test (`pairwise_passFirst`).
`sortDescending` sorts by a key, the greatest first.
-/

namespace MainframeRag.StableSort

open scoped List

variable {α : Type}

/-- One element stands ahead of another. -/
def Ahead (l : List α) (a b : α) : Prop := [a, b] <+ l

theorem Ahead.mem_left {l : List α} {a b : α} (h : Ahead l a b) : a ∈ l :=
  List.Sublist.subset h List.mem_cons_self

theorem Ahead.mem_right {l : List α} {a b : α} (h : Ahead l a b) : b ∈ l :=
  List.Sublist.subset h (List.mem_cons_of_mem a List.mem_cons_self)

theorem Ahead.mono {l l' : List α} {a b : α} (h : Ahead l a b) (hl : l <+ l') : Ahead l' a b :=
  List.Sublist.trans h hl

theorem ahead_cons {l : List α} {x a b : α} : Ahead (x :: l) a b ↔ Ahead l a b ∨ a = x ∧ b ∈ l := by
  unfold Ahead
  constructor
  · intro h
    cases h with
    | cons _ h => exact .inl h
    | cons_cons _ h => exact .inr ⟨rfl, List.singleton_sublist.mp h⟩
  · rintro (h | ⟨rfl, h⟩)
    · exact h.cons x
    · exact (List.singleton_sublist.mpr h).cons_cons a

/-- Of two elements one stands ahead. -/
theorem ahead_total {l : List α} {a b : α} (ha : a ∈ l) (hb : b ∈ l) (h : a ≠ b) :
    Ahead l a b ∨ Ahead l b a := by
  induction l with
  | nil => cases ha
  | cons x l ih =>
    simp only [ahead_cons]
    rcases List.mem_cons.mp ha with rfl | ha'
    · rcases List.mem_cons.mp hb with rfl | hb'
      · exact absurd rfl h
      · exact .inl (.inr ⟨rfl, hb'⟩)
    · rcases List.mem_cons.mp hb with rfl | hb'
      · exact .inr (.inr ⟨rfl, ha'⟩)
      · exact (ih ha' hb').imp .inl .inl

/-- Not both, where nothing is repeated. -/
theorem ahead_asymm {l : List α} (hl : l.Nodup) {a b : α} (hab : Ahead l a b) : ¬ Ahead l b a := by
  induction l with
  | nil => cases hab
  | cons x l ih =>
    rw [List.nodup_cons] at hl
    rw [ahead_cons] at hab ⊢
    rintro (hba | ⟨rfl, hba⟩)
    · rcases hab with hab | ⟨rfl, hb⟩
      · exact ih hl.2 hab hba
      · exact hl.1 (Ahead.mem_right hba)
    · rcases hab with hab | ⟨rfl, hb⟩
      · exact hl.1 (Ahead.mem_right hab)
      · exact hl.1 hb

theorem pairwise_ahead {l : List α} {R : α → α → Prop} :
    l.Pairwise R ↔ ∀ a b, Ahead l a b → R a b := by
  rw [List.pairwise_iff_forall_sublist]
  rfl

/-- A stable sort is sorted, and keeps the order of what ties. -/
theorem stable_mergeSort {le : α → α → Bool} {l : List α} (hl : l.Nodup)
    (trans : ∀ a b c, le a b = true → le b c = true → le a c = true)
    (total : ∀ a b, (le a b || le b a) = true) :
    (l.mergeSort le).Pairwise fun a b => le a b = true ∧ (le b a = true → Ahead l a b) := by
  have hnodup : (l.mergeSort le).Nodup := (List.mergeSort_perm l le).nodup_iff.mpr hl
  rw [pairwise_ahead]
  intro a b hab
  refine ⟨pairwise_ahead.mp (List.pairwise_mergeSort trans total l) a b hab, fun hba => ?_⟩
  have ha := (List.mergeSort_perm l le).mem_iff.mp hab.mem_left
  have hb := (List.mergeSort_perm l le).mem_iff.mp hab.mem_right
  have hne : a ≠ b := by
    rintro rfl
    exact ahead_asymm hnodup hab hab
  refine (ahead_total ha hb hne).resolve_right fun hlater => ?_
  exact ahead_asymm hnodup hab (List.pair_sublist_mergeSort trans total hba hlater)

/-! ## Descending sorts -/

section

variable {β K L : Type} [LinearOrder K] [LinearOrder L]

/-- The stable sort by a key, the greatest first. -/
def sortDescending (key : α → K) (l : List α) : List α :=
  l.mergeSort fun a b => decide (key b ≤ key a)

theorem sortDescending_perm (key : α → K) (l : List α) : (sortDescending key l).Perm l :=
  List.mergeSort_perm l _

theorem sortDescending_pairwise (key : α → K) (l : List α) :
    (sortDescending key l).Pairwise fun a b => key b ≤ key a := by
  have htrans : ∀ a b c : α, decide (key b ≤ key a) = true → decide (key c ≤ key b) = true →
      decide (key c ≤ key a) = true := by
    intro a b c hab hbc
    rw [decide_eq_true_eq] at hab hbc ⊢
    exact hbc.trans hab
  have htotal : ∀ a b : α, (decide (key b ≤ key a) || decide (key a ≤ key b)) = true := by
    intro a b
    simpa using le_total (key b) (key a)
  exact (List.pairwise_mergeSort htrans htotal l).imp fun hab => of_decide_eq_true hab

theorem sortDescending_of_pairwise {key : α → K} {l : List α}
    (h : l.Pairwise fun a b => key b ≤ key a) : sortDescending key l = l :=
  List.mergeSort_of_pairwise (h.imp fun hab => decide_eq_true hab)

/-- A map may be taken before or behind the sort where both keys order the list alike. -/
theorem map_sortDescending {key : α → K} {key' : β → L} {f : α → β} {l : List α}
    (h : ∀ a ∈ l, ∀ b ∈ l, key b ≤ key a ↔ key' (f b) ≤ key' (f a)) :
    (sortDescending key l).map f = sortDescending key' (l.map f) :=
  List.map_mergeSort fun a ha b hb => decide_eq_decide.mpr (h a ha b hb)

end

/-! ## Splitting by a test -/

/-- What passes a test goes first, both parts in order. -/
def passFirst (p : α → Bool) (l : List α) : List α := l.filter p ++ l.filter fun x => !p x

theorem passFirst_perm (p : α → Bool) (l : List α) : (passFirst p l).Perm l :=
  List.filter_append_perm p l

/-- What held of the list in order holds inside each part. -/
theorem pairwise_passFirst {p : α → Bool} {l : List α} {R : α → α → Prop} (h : l.Pairwise R) :
    (passFirst p l).Pairwise fun a b => (p b = true → p a = true) ∧ (p a = p b → R a b) := by
  unfold passFirst
  rw [List.pairwise_append]
  refine ⟨?_, ?_, ?_⟩
  · refine (h.filter p).imp_of_mem fun ha _ hab => ⟨fun _ => ?_, fun _ => hab⟩
    exact (List.mem_filter.mp ha).2
  · refine (h.filter _).imp_of_mem fun _ hb hab => ⟨fun hp => ?_, fun _ => hab⟩
    have hnot := (List.mem_filter.mp hb).2
    simp [hp] at hnot
  · intro a ha b hb
    have hpass := (List.mem_filter.mp ha).2
    have hfail := (List.mem_filter.mp hb).2
    refine ⟨fun _ => hpass, fun he => ?_⟩
    simp [← he, hpass] at hfail

end MainframeRag.StableSort
