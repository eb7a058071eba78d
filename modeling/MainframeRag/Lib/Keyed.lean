import Mathlib.Data.Multiset.Filter
import Mathlib.Data.List.Nodup

/-!
# Keyed collections

A collection of records each of which carries its key, with one record per key: `upsert` replaces
the record of a key, `remove` drops the records a filter selects. Readers see a collection as a
set of records (`Keyed.selected`), so two collections with the same members are indistinguishable
(`Keyed.selected_congr`).
-/

/-- The records of a store, one per key. -/
structure Keyed (α : Type) {κ : Type} (key : α → κ) where
  items : List α
  distinct : (items.map key).Nodup

namespace Keyed

variable {α κ : Type} {key : α → κ}

instance : Membership α (Keyed α key) := ⟨fun c x => x ∈ c.items⟩

theorem mem_def {c : Keyed α key} {x : α} : x ∈ c ↔ x ∈ c.items := Iff.rfl

def empty : Keyed α key := ⟨[], List.nodup_nil⟩

@[simp] theorem not_mem_empty (x : α) : x ∉ (empty : Keyed α key) := by simp [mem_def, empty]

theorem eq_of_key {c : Keyed α key} {x y : α} (hx : x ∈ c) (hy : y ∈ c) (h : key x = key y) :
    x = y :=
  List.inj_on_of_nodup_map c.distinct hx hy h

theorem items_nodup (c : Keyed α key) : c.items.Nodup := List.Nodup.of_map key c.distinct

/-! ## Operations -/

/-- Drop what the filter selects. -/
def remove (c : Keyed α key) (p : α → Bool) : Keyed α key where
  items := c.items.filter (fun x => !p x)
  distinct := c.distinct.sublist (List.filter_sublist.map key)

@[simp] theorem mem_remove {c : Keyed α key} {p : α → Bool} {x : α} :
    x ∈ c.remove p ↔ x ∈ c ∧ p x = false := by
  simp [mem_def, remove]

section

variable [DecidableEq κ]

/-- Write a record under its key. -/
def upsert (c : Keyed α key) (x : α) : Keyed α key where
  items := (c.remove (fun y => key y = key x)).items ++ [x]
  distinct := by
    rw [List.map_append, List.nodup_append]
    refine ⟨(c.remove _).distinct, by simp, fun a ha b hb => ?_⟩
    obtain ⟨y, hy, rfl⟩ := List.mem_map.mp ha
    have hn := (mem_remove.mp hy).2
    simp only [decide_eq_false_iff_not] at hn
    simp only [List.map_cons, List.map_nil, List.mem_singleton] at hb
    exact hb ▸ hn

@[simp] theorem mem_upsert {c : Keyed α key} {x y : α} :
    y ∈ c.upsert x ↔ y = x ∨ (y ∈ c ∧ key y ≠ key x) := by
  have h : y ∈ c.upsert x ↔ y ∈ c.remove (fun y => key y = key x) ∨ y = x := by
    simp [mem_def, upsert]
  rw [h, mem_remove, decide_eq_false_iff_not, or_comm]

/-- Write records one after the other. -/
def upsertAll (c : Keyed α key) (xs : List α) : Keyed α key := xs.foldl upsert c

@[simp] theorem upsertAll_nil (c : Keyed α key) : c.upsertAll [] = c := rfl

@[simp] theorem upsertAll_cons (c : Keyed α key) (x : α) (xs : List α) :
    c.upsertAll (x :: xs) = (c.upsert x).upsertAll xs := rfl

theorem upsertAll_append (c : Keyed α key) (xs ys : List α) :
    c.upsertAll (xs ++ ys) = (c.upsertAll xs).upsertAll ys := List.foldl_append

/-- A record under a key that is not written stays. -/
theorem mem_upsertAll_of_not_mem {c : Keyed α key} {xs : List α} {y : α}
    (h : key y ∉ xs.map key) : y ∈ c.upsertAll xs ↔ y ∈ c := by
  induction xs generalizing c with
  | nil => simp
  | cons x xs ih =>
    simp only [List.map_cons, List.mem_cons, not_or] at h
    rw [upsertAll_cons, ih h.2, mem_upsert]
    constructor
    · rintro (rfl | hy)
      · exact absurd rfl h.1
      · exact hy.1
    · exact fun hy => .inr ⟨hy, h.1⟩

/-- A stored record was written or stood there under a key that is not written. -/
theorem mem_upsertAll_cases {c : Keyed α key} {xs : List α} {y : α} (h : y ∈ c.upsertAll xs) :
    y ∈ xs ∨ (y ∈ c ∧ key y ∉ xs.map key) := by
  induction xs generalizing c with
  | nil => exact .inr ⟨h, by simp⟩
  | cons x xs ih =>
    rcases ih h with hy | ⟨hy, hk⟩
    · exact .inl (List.mem_cons_of_mem _ hy)
    · rcases mem_upsert.mp hy with rfl | ⟨hy, hne⟩
      · exact .inl List.mem_cons_self
      · exact .inr ⟨hy, by simp [hne, hk]⟩

/-- The last record written under a key is the one stored. -/
theorem exists_mem_upsertAll {c : Keyed α key} {xs : List α} {x : α} (h : x ∈ xs) :
    ∃ y ∈ c.upsertAll xs, key y = key x := by
  induction xs generalizing c x with
  | nil => cases h
  | cons z xs ih =>
    by_cases hx : ∃ w ∈ xs, key w = key x
    · obtain ⟨w, hw, hk⟩ := hx
      obtain ⟨y, hy, hyw⟩ := ih (c := c.upsert z) hw
      exact ⟨y, hy, hyw.trans hk⟩
    · rcases List.mem_cons.mp h with rfl | h
      · refine ⟨x, ?_, rfl⟩
        rw [upsertAll_cons, mem_upsertAll_of_not_mem, mem_upsert]
        · exact .inl rfl
        · intro hm
          obtain ⟨w, hw, hk⟩ := List.mem_map.mp hm
          exact hx ⟨w, hw, hk⟩
      · exact absurd ⟨x, h, rfl⟩ hx

/-- Records under different keys are all stored. -/
theorem mem_upsertAll {c : Keyed α key} {xs : List α} (hd : (xs.map key).Nodup) {y : α} :
    y ∈ c.upsertAll xs ↔ y ∈ xs ∨ (y ∈ c ∧ key y ∉ xs.map key) := by
  refine ⟨mem_upsertAll_cases, ?_⟩
  rintro (hy | ⟨hy, hk⟩)
  · obtain ⟨z, hz, hzk⟩ := exists_mem_upsertAll (c := c) hy
    rcases mem_upsertAll_cases hz with hz' | ⟨_, hk⟩
    · rwa [← List.inj_on_of_nodup_map hd hz' hy hzk]
    · exact absurd (List.mem_map_of_mem hy) (hzk ▸ hk)
  · exact (mem_upsertAll_of_not_mem hk).mpr hy

/-- What is stored was written, where no two records written under one key differ. -/
theorem mem_upsertAll_of_agree {xs : List α} (h : ∀ x ∈ xs, ∀ y ∈ xs, key x = key y → x = y) {y : α} :
    y ∈ (empty : Keyed α key).upsertAll xs ↔ y ∈ xs := by
  constructor
  · intro hy
    rcases mem_upsertAll_cases hy with hy | ⟨hy, _⟩
    · exact hy
    · exact absurd hy (not_mem_empty y)
  · intro hy
    obtain ⟨z, hz, hk⟩ := exists_mem_upsertAll (c := (empty : Keyed α key)) hy
    rcases mem_upsertAll_cases hz with hz' | ⟨hz', _⟩
    · rwa [← h z hz' y hy hk]
    · exact absurd hz' (not_mem_empty z)

/-- A record under a fresh key is appended. -/
theorem upsert_items {c : Keyed α key} {x : α} (hfresh : ∀ y ∈ c, key y ≠ key x) :
    (c.upsert x).items = c.items ++ [x] := by
  show (c.items.filter fun y => !decide (key y = key x)) ++ [x] = c.items ++ [x]
  rw [List.filter_eq_self.mpr]
  intro y hy
  simpa using hfresh y hy

/-- Records under fresh keys are appended. -/
theorem upsertAll_items {c : Keyed α key} {xs : List α} (hd : (xs.map key).Nodup)
    (hfresh : ∀ x ∈ xs, ∀ y ∈ c, key y ≠ key x) : (c.upsertAll xs).items = c.items ++ xs := by
  induction xs generalizing c with
  | nil => simp
  | cons x xs ih =>
    rw [List.map_cons, List.nodup_cons] at hd
    rw [upsertAll_cons, ih hd.2, upsert_items (hfresh x List.mem_cons_self), List.append_assoc,
      List.singleton_append]
    intro z hz y hy
    rcases mem_upsert.mp hy with rfl | ⟨hy, -⟩
    · exact fun e => hd.1 (e ▸ List.mem_map_of_mem hz)
    · exact hfresh z (List.mem_cons_of_mem _ hz) y hy

end

/-! ## Reading -/

/-- The records a filter selects. -/
def selected (c : Keyed α key) (p : α → Bool) : Multiset α := ((c.items.filter p : List α) : Multiset α)

@[simp] theorem mem_selected {c : Keyed α key} {p : α → Bool} {x : α} :
    x ∈ c.selected p ↔ x ∈ c ∧ p x = true := by
  simp [selected, mem_def]

/-- Collections that agree on what the filter selects read the same. -/
theorem selected_congr {c d : Keyed α key} {p : α → Bool}
    (h : ∀ x, p x = true → (x ∈ c ↔ x ∈ d)) : c.selected p = d.selected p := by
  apply Multiset.coe_eq_coe.mpr
  refine (List.perm_ext_iff_of_nodup (c.items_nodup.filter p) (d.items_nodup.filter p)).mpr ?_
  intro x
  simp only [List.mem_filter]
  constructor
  · exact fun hx => ⟨(h x hx.2).mp hx.1, hx.2⟩
  · exact fun hx => ⟨(h x hx.2).mpr hx.1, hx.2⟩

section

variable [DecidableEq κ]

/-- The record under a key. -/
def find (c : Keyed α key) (k : κ) : Option α := c.items.find? fun x => key x = k

theorem find_eq_some {c : Keyed α key} {k : κ} {x : α} : c.find k = some x ↔ x ∈ c ∧ key x = k := by
  constructor
  · intro h
    exact ⟨List.mem_of_find?_eq_some h, by simpa using List.find?_some h⟩
  · rintro ⟨hx, rfl⟩
    cases h : c.find (key x) with
    | none =>
      have := List.find?_eq_none.mp h x hx
      simp at this
    | some y =>
      have hy : key y = key x := by simpa using List.find?_some h
      rw [eq_of_key (List.mem_of_find?_eq_some h) hx hy]

theorem find_eq_none {c : Keyed α key} {k : κ} : c.find k = none ↔ ∀ x ∈ c, key x ≠ k := by
  simp [find, List.find?_eq_none, mem_def]

theorem find_upsert {c : Keyed α key} {x : α} {k : κ} :
    (c.upsert x).find k = if key x = k then some x else c.find k := by
  split
  · next h => exact find_eq_some.mpr ⟨mem_upsert.mpr (.inl rfl), h⟩
  · next h =>
    ext y
    rw [find_eq_some, find_eq_some, mem_upsert]
    constructor
    · rintro ⟨rfl | ⟨hy, -⟩, hk⟩
      · exact absurd hk h
      · exact ⟨hy, hk⟩
    · rintro ⟨hy, hk⟩
      exact ⟨.inr ⟨hy, fun e => h (e.symm.trans hk)⟩, hk⟩

end

/-- Whether some record is selected. -/
def any (c : Keyed α key) (p : α → Bool) : Bool := c.items.any p

@[simp] theorem any_iff {c : Keyed α key} {p : α → Bool} :
    c.any p = true ↔ ∃ x ∈ c, p x = true := by
  simp [any, mem_def]

end Keyed
