import MainframeRag.Lib.Ranking
import Mathlib

/-!
# Python dicts

A dict is its items, in the order the keys came in. Writing under a key that is there keeps its
place (`keys_put`), and reading back gives the value last written (`get_put`). The keys of a dict
filled from a list are the first items of each key (`keys_putAll`).
-/

namespace MainframeRag.Dict

variable {κ ν : Type} [DecidableEq κ]

/-- `d.get(key)` -/
def get (d : List (κ × ν)) (key : κ) : Option ν := (d.find? fun e => e.1 = key).map Prod.snd

/-- `d[key] = value` -/
def put (d : List (κ × ν)) (key : κ) (value : ν) : List (κ × ν) :=
  if key ∈ d.map Prod.fst then d.map fun e => if e.1 = key then (key, value) else e
  else d ++ [(key, value)]

@[simp] theorem get_nil (key : κ) : get ([] : List (κ × ν)) key = none := rfl

theorem get_cons (e : κ × ν) (d : List (κ × ν)) (key : κ) :
    get (e :: d) key = if e.1 = key then some e.2 else get d key := by
  unfold get
  by_cases h : e.1 = key <;> simp [h]

theorem get_eq_none {d : List (κ × ν)} {key : κ} : get d key = none ↔ key ∉ d.map Prod.fst := by
  induction d with
  | nil => simp
  | cons e d ih =>
    rw [get_cons, List.map_cons, List.mem_cons]
    by_cases h : e.1 = key
    · simp [h]
    · simp [h, ih, Ne.symm h]

theorem mem_of_get {d : List (κ × ν)} {key : κ} {v : ν} (h : get d key = some v) : (key, v) ∈ d := by
  unfold get at h
  obtain ⟨e, he, rfl⟩ := Option.map_eq_some_iff.mp h
  have hkey : e.1 = key := by simpa using List.find?_some he
  rw [← hkey]
  exact List.mem_of_find?_eq_some he

theorem exists_get {d : List (κ × ν)} {key : κ} (h : key ∈ d.map Prod.fst) :
    ∃ v, get d key = some v :=
  Option.ne_none_iff_exists'.mp fun he => get_eq_none.mp he h

theorem get_of_mem {d : List (κ × ν)} (hd : (d.map Prod.fst).Nodup) {key : κ} {v : ν}
    (h : (key, v) ∈ d) : get d key = some v := by
  obtain ⟨w, hw⟩ := exists_get (List.mem_map_of_mem h)
  rw [hw, (Prod.mk.inj (List.inj_on_of_nodup_map hd (mem_of_get hw) h rfl)).2]

/-! ## Writing -/

theorem keys_put (d : List (κ × ν)) (key : κ) (value : ν) : (put d key value).map Prod.fst =
    if key ∈ d.map Prod.fst then d.map Prod.fst else d.map Prod.fst ++ [key] := by
  unfold put
  split
  · rw [List.map_map]
    refine List.map_congr_left fun e _ => ?_
    by_cases h : e.1 = key <;> simp [h]
  · rw [List.map_append]
    rfl

/-- The items of a dict with a value replaced under its key. -/
theorem get_replaced {d : List (κ × ν)} {key : κ} (h : key ∈ d.map Prod.fst) (value : ν) :
    get (d.map fun e => if e.1 = key then (key, value) else e) key = some value := by
  induction d with
  | nil => cases h
  | cons e d ih =>
    rw [List.map_cons, get_cons]
    by_cases he : e.1 = key
    · simp [he]
    · have hrest : key ∈ d.map Prod.fst := by simpa [Ne.symm he] using h
      rw [if_neg he, if_neg he, ih hrest]

theorem get_unreplaced {key other : κ} (h : other ≠ key) (d : List (κ × ν)) (value : ν) :
    get (d.map fun e => if e.1 = key then (key, value) else e) other = get d other := by
  induction d with
  | nil => rfl
  | cons e d ih =>
    rw [List.map_cons, get_cons, get_cons, ih]
    by_cases he : e.1 = key
    · simp [he, h.symm]
    · rw [if_neg he]

@[simp] theorem get_put_self (d : List (κ × ν)) (key : κ) (value : ν) :
    get (put d key value) key = some value := by
  unfold put
  split
  · next h => exact get_replaced h value
  · next h =>
    have hnone := get_eq_none.mpr h
    unfold get at hnone ⊢
    rw [Option.map_eq_none_iff] at hnone
    simp [List.find?_append, hnone]

theorem get_put_ne {key other : κ} (h : other ≠ key) (d : List (κ × ν)) (value : ν) :
    get (put d key value) other = get d other := by
  unfold put
  split
  · exact get_unreplaced h d value
  · unfold get
    simp [List.find?_append, h.symm]

theorem get_put (d : List (κ × ν)) (key : κ) (value : ν) (other : κ) :
    get (put d key value) other = if other = key then some value else get d other := by
  by_cases h : other = key
  · rw [if_pos h, h, get_put_self]
  · rw [if_neg h, get_put_ne h]

theorem nodup_put {d : List (κ × ν)} (h : (d.map Prod.fst).Nodup) (key : κ) (value : ν) :
    ((put d key value).map Prod.fst).Nodup := by
  rw [keys_put]
  split
  · exact h
  · next hk =>
    rw [List.nodup_append]
    refine ⟨h, List.nodup_singleton key, fun a ha b hb e => hk ?_⟩
    rwa [← List.mem_singleton.mp hb, ← e]

/-! ## Filling a dict -/

section

variable {β : Type} {key : β → κ} {write : List (κ × ν) → β → List (κ × ν)}

/-- The keys of a dict each item of a list writes its own key of. -/
theorem keys_foldl (hwrite : ∀ d x, (write d x).map Prod.fst =
      if key x ∈ d.map Prod.fst then d.map Prod.fst else d.map Prod.fst ++ [key x])
    (xs : List β) : ∀ d : List (κ × ν), (xs.foldl write d).map Prod.fst =
      d.map Prod.fst ++ (Ranking.firsts key (d.map Prod.fst) xs).map key := by
  induction xs with
  | nil => exact fun d => (List.append_nil _).symm
  | cons x xs ih =>
    intro d
    rw [List.foldl_cons, ih, hwrite]
    by_cases h : key x ∈ d.map Prod.fst
    · rw [if_pos h, Ranking.firsts_seen h]
    · rw [if_neg h, Ranking.firsts_new h, List.map_cons, List.append_assoc, List.singleton_append]
      congr 3
      refine Ranking.firsts_congr fun k => ?_
      rw [List.mem_append, List.mem_singleton, List.mem_cons, or_comm]

end

end MainframeRag.Dict
