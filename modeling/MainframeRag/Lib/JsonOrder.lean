import MainframeRag.Lib.PyJson
import MainframeRag.Lib.StableSort
import Mathlib

/-!
# Comparing Python values read from JSON

`<` on the values `json.loads` returns, and `sorted` by a key that is one. Numbers compare by value,
whatever their types, texts and lists lexicographically; everything else raises, and then so does the
sort.
-/

namespace MainframeRag.PyJson

open PyText StableSort

/-- The value of a number that is not `NaN`. -/
abbrev Magnitude := WithBot (WithTop ℚ)

/-- The value of a finite number. -/
def Magnitude.of (q : ℚ) : Magnitude := ((q : WithTop ℚ) : WithBot (WithTop ℚ))

/-- The natural number a value is. -/
def Magnitude.toNat? : Magnitude → Option Nat
  | ((q : ℚ) : WithTop ℚ) => if q = q.num.toNat then some q.num.toNat else none
  | _ => none

theorem Magnitude.of_lt_of {q r : ℚ} : of q < of r ↔ q < r := by
  unfold of
  rw [WithBot.coe_lt_coe, WithTop.coe_lt_coe]

theorem Magnitude.toNat?_eq_some {v : Magnitude} {i : Nat} : v.toNat? = some i ↔ v = of i := by
  unfold toNat?
  split
  · next q =>
    rw [Option.ite_none_right_eq_some]
    constructor
    · rintro ⟨hq, hi⟩
      obtain rfl := Option.some.inj hi
      rw [← hq]
      rfl
    · intro h
      obtain rfl : q = (i : ℚ) := WithTop.coe_injective (WithBot.coe_injective h)
      rw [Rat.num_natCast, Int.toNat_natCast]
      exact ⟨rfl, rfl⟩
  · next hne =>
    refine iff_of_false (fun h => (by cases h)) ?_
    rintro rfl
    exact hne i rfl

section

variable {F : Type} (value : F → Option Magnitude)

/-- The value of a number, a `bool` among them; `some none` is `NaN`. -/
def numberOf : Json F → Option (Option Magnitude)
  | .bool b => some (some (.of (if b then 1 else 0)))
  | .int n => some (some (.of n))
  | .float x => some (value x)
  | _ => none

def ltNumber : Option Magnitude → Option Magnitude → Bool
  | some v, some w => v < w
  | _, _ => false

/-- Equality of list elements; the reader's `NaN` is one object, and so equal to itself. -/
def sameNumber : Option Magnitude → Option Magnitude → Bool
  | some v, some w => v = w
  | none, none => true
  | _, _ => false

mutual

/-- `v is w or v == w` -/
def same : Json F → Json F → Bool
  | .null, .null => true
  | .str s, .str t => s = t
  | .arr xs, .arr ys => sameElems xs ys
  | .obj d, .obj e => d.length = e.length && sameMembers d e
  | v, w =>
    match numberOf value v, numberOf value w with
    | some m, some k => sameNumber m k
    | _, _ => false

def sameElems : List (Json F) → List (Json F) → Bool
  | [], [] => true
  | x :: xs, y :: ys => same x y && sameElems xs ys
  | _, _ => false

def sameMembers : Items F → Items F → Bool
  | [], _ => true
  | (key, v) :: rest, e =>
    (match e.lookup key with
      | some w => same v w
      | none => false) && sameMembers rest e

end

mutual

/-- `v < w`; `none` is a `TypeError`. -/
def ltValue : Json F → Json F → Option Bool
  | .str s, .str t => some (decide (s < t))
  | .arr xs, .arr ys => ltElems xs ys
  | v, w =>
    match numberOf value v, numberOf value w with
    | some m, some k => some (ltNumber m k)
    | _, _ => none

def ltElems : List (Json F) → List (Json F) → Option Bool
  | [], ys => some (!ys.isEmpty)
  | _ :: _, [] => some false
  | x :: xs, y :: ys => if same value x y then ltElems xs ys else ltValue x y

end

/-- `sorted(items, key=key)`; a sort orders every two items, so it raises if two do not compare. -/
def sortedBy {α : Type} (key : α → Json F) (items : List α) : Option (List α) :=
  if items.Pairwise fun a b => (ltValue value (key b) (key a)).isSome then
    some (items.mergeSort fun a b => ltValue value (key b) (key a) ≠ some true)
  else none

/-! ## Indices -/

/-- The natural number a value is, a `bool` being none. -/
def indexOf : Json F → Option Nat
  | .int n => if 0 ≤ n then some n.toNat else none
  | .float x => (value x).bind Magnitude.toNat?
  | _ => none

variable {value}

theorem numberOf_of_index {v : Json F} {i : Nat} (h : indexOf value v = some i) :
    numberOf value v = some (some (.of i)) := by
  unfold indexOf at h
  split at h
  · next n =>
    obtain ⟨hn, hi⟩ := Option.ite_none_right_eq_some.mp h
    obtain rfl := Option.some.inj hi
    have hcast : (n : ℚ) = (n.toNat : ℚ) := by
      rw [← Int.cast_natCast n.toNat, Int.toNat_of_nonneg hn]
    unfold numberOf
    dsimp only
    rw [hcast]
  · next x =>
    obtain ⟨m, hm, hi⟩ := Option.bind_eq_some_iff.mp h
    unfold numberOf
    dsimp only
    rw [hm, Magnitude.toNat?_eq_some.mp hi]
  · cases h

theorem ltValue_index {v w : Json F} {i j : Nat} (hv : indexOf value v = some i)
    (hw : indexOf value w = some j) : ltValue value v w = some (decide (i < j)) := by
  have hlt : ltValue value v w = some (ltNumber (some (.of i)) (some (.of j))) := by
    unfold ltValue
    split
    · cases hv
    · cases hv
    · rw [numberOf_of_index hv, numberOf_of_index hw]
  rw [hlt]
  simp only [ltNumber, Magnitude.of_lt_of, Nat.cast_lt]

theorem sortedBy_eq_some {α : Type} {key : α → Json F} {items sorted : List α}
    (h : sortedBy value key items = some sorted) :
    sorted.Perm items ∧ items.Pairwise fun a b => (ltValue value (key b) (key a)).isSome := by
  obtain ⟨hcompare, hsorted⟩ := Option.ite_none_right_eq_some.mp h
  obtain rfl := Option.some.inj hsorted
  exact ⟨List.mergeSort_perm _ _, hcompare⟩

theorem exists_sortedBy {α : Type} {key : α → Json F} {items : List α}
    (h : items.Pairwise fun a b => (ltValue value (key b) (key a)).isSome) :
    ∃ sorted, sortedBy value key items = some sorted := ⟨_, if_pos h⟩

/-- Sorting by keys that are indices puts the items in their order. -/
theorem sortedBy_index {α : Type} {key : α → Json F} {place : α → Nat} {items : List α}
    (h : ∀ a ∈ items, indexOf value (key a) = some (place a)) :
    ∃ sorted, sortedBy value key items = some sorted ∧
      sorted.Pairwise fun a b => place a ≤ place b := by
  have hcompare : items.Pairwise fun a b => (ltValue value (key b) (key a)).isSome := by
    refine List.pairwise_of_forall_mem_list fun a ha b hb => ?_
    rw [ltValue_index (h b hb) (h a ha)]
    rfl
  refine ⟨_, if_pos hcompare, ?_⟩
  -- on these items the keys compare as the indices do, and the least index is the greatest dual
  have hplaces := @List.map_mergeSort α α
    (fun a b => decide (ltValue value (key b) (key a) ≠ some true))
    (fun a b => decide (OrderDual.toDual (place b) ≤ OrderDual.toDual (place a))) id items
    fun a ha b hb => by
      rw [ltValue_index (h b hb) (h a ha)]
      simp
  rw [List.map_id, List.map_id] at hplaces
  rw [hplaces]
  exact sortDescending_pairwise (fun a => OrderDual.toDual (place a)) items

end

end MainframeRag.PyJson
