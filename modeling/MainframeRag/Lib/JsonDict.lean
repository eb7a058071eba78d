import MainframeRag.Lib.JsonText

/-!
# JSON values up to the order of dict items

`Same` is the equality of values read from JSON: a dict is its keys and what lies under them, in any
order. An integer, a float and a truth value are never the same. Writing with sorted keys tells
exactly the values apart that are not the same (`same_iff_sortKeys`, `dumps_eq_iff`).

`dictOf` is the dict of pairs with repeated keys.
-/

namespace MainframeRag.JsonText

open PyText PyJson

variable {F : Type}

mutual

/-- `v == w`, with numbers of different types apart. -/
def Same : Json F → Json F → Prop
  | .arr xs, w => ∃ ys, w = .arr ys ∧ SameElems xs ys
  | .obj d, w => ∃ e, w = .obj e ∧ (∀ k, k ∈ d.map Prod.fst ↔ k ∈ e.map Prod.fst) ∧ SameMembers d e
  | .null, w => w = .null
  | .bool b, w => w = .bool b
  | .int n, w => w = .int n
  | .float x, w => w = .float x
  | .str t, w => w = .str t

def SameElems : List (Json F) → List (Json F) → Prop
  | [], ys => ys = []
  | x :: xs, ys => ∃ y rest, ys = y :: rest ∧ Same x y ∧ SameElems xs rest

/-- Each of the items stands in `e`. -/
def SameMembers : List (Text × Json F) → List (Text × Json F) → Prop
  | [], _ => True
  | (k, v) :: rest, e => (∃ w, e.lookup k = some w ∧ Same v w) ∧ SameMembers rest e

end

/-! ## Sorted items -/

theorem sortedItems_nodup {d : Items F} (h : (d.map Prod.fst).Nodup) :
    ((sortedItems d).map Prod.fst).Nodup :=
  (sortedItems_keys d).nodup_iff.mpr h

theorem sortedItems_ordered (d : Items F) : (sortedItems d).Pairwise fun a b => a.1 ≤ b.1 :=
  List.pairwise_insertionSort _ _

/-- Sorted dicts are equal where the same values lie under the same keys. -/
theorem sortedItems_eq_iff {d e : Items F} (hd : (d.map Prod.fst).Nodup)
    (he : (e.map Prod.fst).Nodup) : sortedItems d = sortedItems e ↔
      ∀ k, (d.lookup k).map sortKeys = (e.lookup k).map sortKeys := by
  constructor
  · intro h k
    rw [← lookup_sortedItems hd, ← lookup_sortedItems he, h]
  · intro h
    have hd' := sortedItems_nodup hd
    have he' := sortedItems_nodup he
    have hperm : (sortedItems d).Perm (sortedItems e) := by
      rw [List.perm_ext_iff_of_nodup (List.Nodup.of_map _ hd') (List.Nodup.of_map _ he')]
      rintro ⟨k, v⟩
      rw [← lookup_eq_some hd', ← lookup_eq_some he', lookup_sortedItems hd,
        lookup_sortedItems he, h]
    refine hperm.eq_of_pairwise ?_ (sortedItems_ordered d) (sortedItems_ordered e)
    intro a b ha hb hab hba
    exact List.inj_on_of_nodup_map hd' ha (hperm.mem_iff.mpr hb) (le_antisymm hab hba)

theorem lookup_isSome {d : Items F} {k : Text} :
    (d.lookup k).isSome = true ↔ k ∈ d.map Prod.fst := by
  rw [List.lookup_isSome_iff, List.mem_map]
  exact exists_congr fun x => and_congr_right fun _ => beq_iff_eq.trans eq_comm

theorem mem_of_lookup {d : Items F} {k : Text} {v : Json F} (h : d.lookup k = some v) :
    (k, v) ∈ d := by
  obtain ⟨l₁, l₂, rfl, -⟩ := List.lookup_eq_some_iff.mp h
  simp

/-! ## Same values have the same sorted form -/

theorem sortKeys_eq_arr {w : Json F} {xs : List (Json F)} :
    sortKeys w = .arr xs ↔ ∃ ys, w = .arr ys ∧ ys.map sortKeys = xs := by
  cases w <;> simp [sortKeys, sortKeysElems_eq]

theorem sortKeys_eq_obj {w : Json F} {d : Items F} :
    sortKeys w = .obj d ↔ ∃ e, w = .obj e ∧ sortedItems e = d := by
  cases w <;> simp [sortKeys, sortedItems]

mutual

theorem same_iff_sortKeys : ∀ v w : Json F, distinctKeys v = true → distinctKeys w = true →
    (Same v w ↔ sortKeys v = sortKeys w)
  | .null, w, _, _ => by
    cases w <;> simp [Same, sortKeys]
  | .bool _, w, _, _ => by
    cases w <;> simp [Same, sortKeys, eq_comm]
  | .int _, w, _, _ => by
    cases w <;> simp [Same, sortKeys, eq_comm]
  | .float _, w, _, _ => by
    cases w <;> simp [Same, sortKeys, eq_comm]
  | .str _, w, _, _ => by
    cases w <;> simp [Same, sortKeys, eq_comm]
  | .arr xs, w, hv, hw => by
    rw [Same, sortKeys, sortKeysElems_eq, eq_comm (a := Json.arr _), sortKeys_eq_arr]
    refine exists_congr fun ys => and_congr_right ?_
    rintro rfl
    rw [eq_comm (a := ys.map sortKeys)]
    exact sameElems_iff xs ys (distinctKeys_arr.mp hv) (distinctKeys_arr.mp hw)
  | .obj d, w, hv, hw => by
    rw [Same, sortKeys_obj, eq_comm (a := Json.obj _), sortKeys_eq_obj]
    refine exists_congr fun e => and_congr_right ?_
    rintro rfl
    obtain ⟨hd, hdv⟩ := distinctKeys_obj.mp hv
    obtain ⟨he, hev⟩ := distinctKeys_obj.mp hw
    rw [eq_comm (a := sortedItems e), sortedItems_eq_iff hd he,
      sameMembers_iff d e hdv hev]
    constructor
    · rintro ⟨hkeys, hall⟩ k
      cases hk : d.lookup k with
      | some v =>
        obtain ⟨u, hu, hvu⟩ := hall (k, v) ((lookup_eq_some hd).mp hk)
        rw [hu, Option.map_some, Option.map_some, hvu]
      | none =>
        have hno : ¬ (e.lookup k).isSome = true := by
          rw [lookup_isSome, ← hkeys, ← lookup_isSome, hk]
          simp
        rw [Option.not_isSome_iff_eq_none.mp hno]
    · intro h
      have hkeys : ∀ k, (d.lookup k).isSome = (e.lookup k).isSome := by
        intro k
        rw [← Option.isSome_map (f := sortKeys), h, Option.isSome_map]
      refine ⟨fun k => by rw [← lookup_isSome, ← lookup_isSome, hkeys], ?_⟩
      rintro ⟨k, v⟩ hx
      have hk := h k
      rw [(lookup_eq_some hd).mpr hx, Option.map_some] at hk
      obtain ⟨u, hu, hvu⟩ := Option.map_eq_some_iff.mp hk.symm
      exact ⟨u, hu, hvu.symm⟩

theorem sameElems_iff : ∀ xs ys : List (Json F), (∀ x ∈ xs, distinctKeys x = true) →
    (∀ y ∈ ys, distinctKeys y = true) → (SameElems xs ys ↔ xs.map sortKeys = ys.map sortKeys)
  | [], ys, _, _ => by
    rw [SameElems, List.map_nil, eq_comm (a := []), List.map_eq_nil_iff]
  | x :: xs, [], _, _ => by
    simp [SameElems]
  | x :: xs, y :: ys, hx, hy => by
    obtain ⟨hx, hxs⟩ := List.forall_mem_cons.mp hx
    obtain ⟨hy, hys⟩ := List.forall_mem_cons.mp hy
    rw [List.map_cons, List.map_cons, List.cons.injEq, ← same_iff_sortKeys x y hx hy,
      ← sameElems_iff xs ys hxs hys, SameElems]
    constructor
    · rintro ⟨_, _, h, hsame, hrest⟩
      obtain ⟨rfl, rfl⟩ := List.cons.inj h
      exact ⟨hsame, hrest⟩
    · rintro ⟨hsame, hrest⟩
      exact ⟨y, ys, rfl, hsame, hrest⟩

theorem sameMembers_iff : ∀ d e : List (Text × Json F), (∀ x ∈ d, distinctKeys x.2 = true) →
    (∀ y ∈ e, distinctKeys y.2 = true) → (SameMembers d e ↔
      ∀ x ∈ d, ∃ w, e.lookup x.1 = some w ∧ sortKeys x.2 = sortKeys w)
  | [], e, _, _ => by simp [SameMembers]
  | (k, v) :: rest, e, hd, he => by
    obtain ⟨hv, hrest⟩ := List.forall_mem_cons.mp hd
    rw [SameMembers, List.forall_mem_cons, sameMembers_iff rest e hrest he]
    refine and_congr_left' (exists_congr fun w => and_congr_right fun hw => ?_)
    exact same_iff_sortKeys v w hv (he (k, w) (mem_of_lookup hw))

end

/-- The texts written with sorted keys are equal for the same values only. -/
theorem dumps_eq_iff (N : Floats F) (style : Style) {v w : Json F} (hv : distinctKeys v = true)
    (hw : distinctKeys w = true) : dumps N style v = dumps N style w ↔ Same v w := by
  rw [same_iff_sortKeys v w hv hw]
  exact (render_injective N style).eq_iff

/-! ## Leaves -/

mutual

/-- What stands in the lists and dicts of a value satisfies `p`. -/
def allLeaves (p : Json F → Bool) : Json F → Bool
  | .arr items => allLeavesElems p items
  | .obj items => allLeavesMembers p items
  | v => p v

def allLeavesElems (p : Json F → Bool) : List (Json F) → Bool
  | [] => true
  | v :: rest => allLeaves p v && allLeavesElems p rest

def allLeavesMembers (p : Json F → Bool) : List (Text × Json F) → Bool
  | [] => true
  | (_, v) :: rest => allLeaves p v && allLeavesMembers p rest

end

section

variable {p : Json F → Bool}

theorem allLeavesElems_iff {items : List (Json F)} :
    allLeavesElems p items = true ↔ ∀ v ∈ items, allLeaves p v = true := by
  induction items with
  | nil => simp [allLeavesElems]
  | cons v items ih => simp [allLeavesElems, ih]

theorem allLeavesMembers_iff {items : Items F} :
    allLeavesMembers p items = true ↔ ∀ x ∈ items, allLeaves p x.2 = true := by
  induction items with
  | nil => simp [allLeavesMembers]
  | cons x items ih => simp [allLeavesMembers, ih]

theorem allLeaves_arr {items : List (Json F)} :
    allLeaves p (.arr items) = true ↔ ∀ v ∈ items, allLeaves p v = true := by
  rw [allLeaves, allLeavesElems_iff]

theorem allLeaves_obj {items : Items F} :
    allLeaves p (.obj items) = true ↔ ∀ x ∈ items, allLeaves p x.2 = true := by
  rw [allLeaves, allLeavesMembers_iff]

mutual

theorem allLeaves_sortKeys : ∀ v : Json F, allLeaves p v = true → allLeaves p (sortKeys v) = true
  | .null | .bool _ | .int _ | .float _ | .str _ => by rw [sortKeys]; exact id
  | .arr items => by
    intro h
    rw [sortKeys, allLeaves]
    exact allLeavesElems_sortKeys items (by rwa [allLeaves] at h)
  | .obj items => by
    intro h
    have hmembers := allLeavesMembers_sortKeys items (by rwa [allLeaves] at h)
    rw [sortKeys_obj, allLeaves_obj]
    intro x hx
    rw [sortKeysMembers_eq, allLeavesMembers_iff] at hmembers
    exact hmembers x ((sortedItems_perm items).mem_iff.mp hx)

theorem allLeavesElems_sortKeys : ∀ items : List (Json F),
    allLeavesElems p items = true → allLeavesElems p (sortKeysElems items) = true
  | [] => id
  | v :: rest => by
    simp only [sortKeysElems, allLeavesElems, Bool.and_eq_true]
    exact fun h => ⟨allLeaves_sortKeys v h.1, allLeavesElems_sortKeys rest h.2⟩

theorem allLeavesMembers_sortKeys : ∀ items : List (Text × Json F),
    allLeavesMembers p items = true → allLeavesMembers p (sortKeysMembers items) = true
  | [] => id
  | (k, v) :: rest => by
    simp only [sortKeysMembers, allLeavesMembers, Bool.and_eq_true]
    exact fun h => ⟨allLeaves_sortKeys v h.1, allLeavesMembers_sortKeys rest h.2⟩

end

end

/-- An integer of more digits is neither written nor read. -/
def maxStrDigits : Nat := 4300

@[irreducible] def digitLimit : Nat := 10 ^ maxStrDigits

theorem lt_digitLimit {n : Nat} (h : n < 10 ^ 63) : n < digitLimit := by
  unfold digitLimit
  calc n < 10 ^ 63 := h
    _ ≤ 10 ^ maxStrDigits := Nat.pow_le_pow_right (by omega) (by unfold maxStrDigits; omega)

def shortLeaf : Json F → Bool
  | .int n => n.natAbs < digitLimit
  | _ => true

/-- Every integer is within the limit of digits. -/
def shortInts : Json F → Bool := allLeaves shortLeaf

/-! ## Repeated keys -/

/-- An item of a dict, put in place of the one with its key. -/
def putItem (d : Items F) (x : Text × Json F) : Items F :=
  if x.1 ∈ d.map Prod.fst then d.map fun y => if y.1 = x.1 then x else y else d ++ [x]

/-- The dict of the pairs that were read; the last value of a key counts. -/
def dictOf (pairs : Items F) : Items F := pairs.foldl putItem []

theorem putItem_keys (d : Items F) (x : Text × Json F) : (putItem d x).map Prod.fst =
    if x.1 ∈ d.map Prod.fst then d.map Prod.fst else d.map Prod.fst ++ [x.1] := by
  unfold putItem
  split
  · rw [List.map_map]
    apply List.map_congr_left
    intro y _
    show (if y.1 = x.1 then x else y).1 = y.1
    split
    · next h => exact h.symm
    · rfl
  · rw [List.map_append, List.map_singleton]

theorem putItem_nodup {d : Items F} (x : Text × Json F) (h : (d.map Prod.fst).Nodup) :
    ((putItem d x).map Prod.fst).Nodup := by
  rw [putItem_keys]
  split
  · exact h
  · next hno =>
    rw [← List.concat_eq_append]
    exact h.concat hno

theorem dictOf_nodup (pairs : Items F) : ((dictOf pairs).map Prod.fst).Nodup := by
  unfold dictOf
  suffices ∀ d : Items F, (d.map Prod.fst).Nodup →
      ((pairs.foldl putItem d).map Prod.fst).Nodup from this [] List.nodup_nil
  induction pairs with
  | nil => exact fun _ h => h
  | cons x pairs ih => exact fun d h => ih _ (putItem_nodup x h)

theorem foldl_putItem {pairs d : Items F} (h : ((d ++ pairs).map Prod.fst).Nodup) :
    pairs.foldl putItem d = d ++ pairs := by
  induction pairs generalizing d with
  | nil => simp
  | cons x pairs ih =>
    have hno : x.1 ∉ d.map Prod.fst := by
      rw [List.map_append, List.map_cons] at h
      exact fun hm => (List.disjoint_of_nodup_append h) hm List.mem_cons_self
    rw [List.foldl_cons, putItem, if_neg hno, ih, List.append_assoc, List.singleton_append]
    rwa [List.append_assoc, List.singleton_append]

theorem dictOf_eq {pairs : Items F} (h : (pairs.map Prod.fst).Nodup) : dictOf pairs = pairs :=
  foldl_putItem (d := []) h

end MainframeRag.JsonText
