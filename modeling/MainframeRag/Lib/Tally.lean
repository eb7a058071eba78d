import Mathlib

/-!
# Labels of a list

The labels that occur in a list, each once and in order (`labels`), and sorting by a total order that
tells the elements apart. Neither depends on the order of the list.
-/

namespace MainframeRag.Tally

variable {κ β : Type}

/-- A sort by a total order that tells the elements apart depends on what is sorted alone. -/
theorem mergeSort_eq {le : β → β → Bool} {xs ys : List β} (h : xs.Perm ys)
    (trans : ∀ a b c, le a b = true → le b c = true → le a c = true)
    (total : ∀ a b, (le a b || le b a) = true)
    (anti : ∀ a ∈ xs, ∀ b ∈ xs, le a b = true → le b a = true → a = b) :
    xs.mergeSort le = ys.mergeSort le := by
  have hperm : (xs.mergeSort le).Perm (ys.mergeSort le) :=
    (List.mergeSort_perm xs le).trans (h.trans (List.mergeSort_perm ys le).symm)
  refine hperm.eq_of_pairwise ?_ (List.pairwise_mergeSort trans total xs)
    (List.pairwise_mergeSort trans total ys)
  intro a b ha hb hab hba
  refine anti a ((List.mergeSort_perm xs le).mem_iff.mp ha) b ?_ hab hba
  exact h.mem_iff.mpr ((List.mergeSort_perm ys le).mem_iff.mp hb)

/-- An order of what is read off a list is had by an order of the list. -/
theorem exists_perm_filterMap {α : Type} {f : α → Option β} {order : List β} : ∀ {xs : List α},
    order.Perm (xs.filterMap f) → ∃ ys : List α, ys.Perm xs ∧ ys.filterMap f = order := by
  induction order with
  | nil =>
    intro xs h
    exact ⟨xs, .refl _, h.nil_eq.symm⟩
  | cons b order ih =>
    intro xs h
    obtain ⟨x, hx, hb⟩ := List.mem_filterMap.mp (h.mem_iff.mp List.mem_cons_self)
    obtain ⟨before, after, rfl⟩ := List.append_of_mem hx
    have hrest : order.Perm ((before ++ after).filterMap f) := by
      have hmove := (List.perm_middle : (before ++ x :: after).Perm (x :: (before ++ after)))
      have hread := hmove.filterMap f
      rw [List.filterMap_cons, hb] at hread
      exact (h.trans hread).cons_inv
    obtain ⟨ys, hperm, hys⟩ := ih hrest
    refine ⟨x :: ys, (hperm.cons x).trans List.perm_middle.symm, ?_⟩
    rw [List.filterMap_cons, hb, hys]

variable [LinearOrder κ]

/-- Sorting by a figure that tells the elements apart depends on what is sorted alone. -/
theorem mergeSort_key_eq {key : β → κ} {xs ys : List β} (h : xs.Perm ys)
    (hkey : ∀ a ∈ xs, ∀ b ∈ xs, key a = key b → a = b) :
    (xs.mergeSort fun a b => decide (key a ≤ key b)) =
      ys.mergeSort fun a b => decide (key a ≤ key b) := by
  refine mergeSort_eq h ?_ ?_ ?_
  · intro a b c hab hbc
    rw [decide_eq_true_eq] at hab hbc ⊢
    exact hab.trans hbc
  · intro a b
    simpa using le_total (key a) (key b)
  · intro a ha b hb hab hba
    rw [decide_eq_true_eq] at hab hba
    exact hkey a ha b hb (le_antisymm hab hba)

/-- The labels that occur, in order. -/
def labels (xs : List κ) : List κ := xs.dedup.mergeSort (· ≤ ·)

theorem labels_perm (xs : List κ) : (labels xs).Perm xs.dedup := List.mergeSort_perm _ _

theorem labels_nodup (xs : List κ) : (labels xs).Nodup :=
  (labels_perm xs).nodup_iff.mpr xs.nodup_dedup

@[simp] theorem mem_labels {xs : List κ} {k : κ} : k ∈ labels xs ↔ k ∈ xs := by
  rw [(labels_perm xs).mem_iff, List.mem_dedup]

theorem labels_eq {xs ys : List κ} (h : xs.Perm ys) : labels xs = labels ys :=
  mergeSort_key_eq h.dedup fun _ _ _ _ => id

/-- Every element stands under one label. -/
theorem flatten_filter_perm {key : β → κ} {ks : List κ} (hks : ks.Nodup) {xs : List β}
    (h : ∀ x ∈ xs, key x ∈ ks) :
    (ks.map fun k => xs.filter fun x => key x = k).flatten.Perm xs := by
  induction ks generalizing xs with
  | nil =>
    cases xs with
    | nil => exact .refl _
    | cons x xs => exact absurd (h x List.mem_cons_self) List.not_mem_nil
  | cons k ks ih =>
    rw [List.nodup_cons] at hks
    rw [List.map_cons, List.flatten_cons]
    refine List.Perm.trans (List.Perm.append_left _ ?_) (List.filter_append_perm (fun x => key x = k) xs)
    have hrest : ∀ x ∈ xs.filter (fun x => !decide (key x = k)), key x ∈ ks := by
      intro x hx
      obtain ⟨hx, hne⟩ := List.mem_filter.mp hx
      rcases List.mem_cons.mp (h x hx) with he | he
      · simp [he] at hne
      · exact he
    refine List.Perm.trans (List.Perm.of_eq ?_) (ih hks.2 hrest)
    congr 1
    refine List.map_congr_left fun j hj => ?_
    rw [List.filter_filter]
    refine List.filter_congr fun x _ => ?_
    by_cases hxj : key x = j
    · have hjk : j ≠ k := fun e => hks.1 (e ▸ hj)
      simp [hxj, hjk]
    · simp [hxj]

end MainframeRag.Tally
