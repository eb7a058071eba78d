import Mathlib

/-!
# Selections

A selection with some room (`Selects`): items of a list, and every one of them where the distinct ones
have room. Selections compose with the smaller room.
-/

namespace Selection

variable {α : Type} [DecidableEq α]

structure Selects (xs : List α) (room : Nat) (shown : List α) : Prop where
  among : shown ⊆ xs
  complete : xs.dedup.length ≤ room → xs ⊆ shown

theorem dedup_length_mono {xs ys : List α} (h : ys ⊆ xs) : ys.dedup.length ≤ xs.dedup.length := by
  rw [← List.card_toFinset, ← List.card_toFinset]
  exact Finset.card_le_card fun x hx => List.mem_toFinset.mpr (h (List.mem_toFinset.mp hx))

variable {xs ys zs : List α} {r s : Nat}

theorem Selects.mono (h : Selects xs r ys) (hs : s ≤ r) : Selects xs s ys :=
  ⟨h.among, fun hlen => h.complete (hlen.trans hs)⟩

theorem Selects.trans (h : Selects xs r ys) (h' : Selects ys s zs) : Selects xs (min r s) zs := by
  refine ⟨fun x hx => h.among (h'.among hx), fun hlen => ?_⟩
  have hall := h.complete (hlen.trans (min_le_left r s))
  have hroom := (dedup_length_mono h.among).trans (hlen.trans (min_le_right r s))
  exact fun x hx => h'.complete hroom (hall hx)

/-- The same items. -/
theorem Selects.of_perm (h : ys.Perm xs) (r : Nat) : Selects xs r ys :=
  ⟨h.subset, fun _ => h.symm.subset⟩

/-- The first of the distinct items, in any order. -/
theorem Selects.of_take (h : ys.Perm xs.dedup) (n : Nat) : Selects xs n (ys.take n) := by
  refine ⟨fun x hx => List.mem_dedup.mp (h.subset (List.mem_of_mem_take hx)), fun hlen x hx => ?_⟩
  rw [List.take_of_length_le (h.length_eq.trans_le hlen)]
  exact h.symm.subset (List.mem_dedup.mpr hx)

/-- The selections of the parts are one of the whole. -/
theorem Selects.flatten {xss yss : List (List α)}
    (h : List.Forall₂ (fun xs ys => Selects xs r ys) xss yss) : Selects xss.flatten r yss.flatten := by
  induction h with
  | nil => exact .of_perm (.refl _) r
  | @cons xs ys xss yss hone _ ih =>
    rw [List.flatten_cons, List.flatten_cons]
    refine ⟨fun x hx => ?_, fun hlen x hx => ?_⟩
    · exact List.mem_append.mpr ((List.mem_append.mp hx).imp (fun h => hone.among h) fun h => ih.among h)
    · have hfirst := (dedup_length_mono (List.subset_append_left xs xss.flatten)).trans hlen
      have hrest := (dedup_length_mono (List.subset_append_right xs xss.flatten)).trans hlen
      exact List.mem_append.mpr
        ((List.mem_append.mp hx).imp (fun h => hone.complete hfirst h) fun h => ih.complete hrest h)

/-- What a key says of the items of a `filterMap` that drops nothing. -/
theorem map_filterMap {β γ δ : Type} {f : β → Option γ} {g : γ → δ} {key : β → δ} {bs : List β}
    (h : ∀ b ∈ bs, ∃ c, f b = some c ∧ g c = key b) : (bs.filterMap f).map g = bs.map key := by
  induction bs with
  | nil => rfl
  | cons b bs ih =>
    obtain ⟨⟨c, hc, hkey⟩, hrest⟩ := List.forall_mem_cons.mp h
    rw [List.filterMap_cons, hc, List.map_cons, List.map_cons, hkey, ih hrest]

end Selection
