import MainframeRag.Lib.PyText

/-!
# Python values read from JSON

What `json.loads` returns, and the operations of Python on such values: `d.get`, truth, `v or w`,
`int`. An absent key and a `null` both read as `None`.
-/

namespace MainframeRag.PyJson

open PyText

/-- A dict is its items. `F` is the type of floats. -/
inductive Json (F : Type)
  | null
  | bool (b : Bool)
  | int (n : Int)
  | float (x : F)
  | str (t : Text)
  | arr (items : List (Json F))
  | obj (items : List (Text × Json F))

abbrev Items (F : Type) := List (Text × Json F)

/-- What reading a text comes to. `raised` is an exception besides `JSONDecodeError`: an integer
over the digit limit, a nesting over the recursion limit. -/
inductive Loaded (F : Type)
  | value (v : Json F)
  | decodeError
  | raised

/-- The conversions of floats and texts; `none` is an exception. -/
structure Numbers (F : Type) where
  /-- `bool(x)` -/
  isTrue : F → Bool
  /-- `int(x)` -/
  intOfFloat : F → Option Int
  /-- `int(t)` -/
  intOfText : Text → Option Int

variable {F : Type}

/-- `d.get(key)` -/
def get (d : Items F) (key : Text) : Json F := (d.lookup key).getD .null

@[simp] theorem get_nil (key : Text) : get ([] : Items F) key = .null := rfl

theorem get_cons_self (d : Items F) (key : Text) (v : Json F) : get ((key, v) :: d) key = v := by
  simp [get]

theorem get_cons_ne {key k : Text} (h : key ≠ k) (d : Items F) (v : Json F) :
    get ((k, v) :: d) key = get d key := by
  have e : (key == k) = false := by simpa using h
  simp [get, List.lookup_cons, e]

def Json.isNull : Json F → Bool
  | .null => true
  | _ => false

variable (N : Numbers F)

/-- `bool(v)` -/
def Json.isTrue : Json F → Bool
  | .null => false
  | .bool b => b
  | .int n => n != 0
  | .float x => N.isTrue x
  | .str t => !t.isEmpty
  | .arr items => !items.isEmpty
  | .obj items => !items.isEmpty

/-- `v or w` -/
def Json.orElse (v w : Json F) : Json F := if v.isTrue N then v else w

theorem Json.orElse_of_true {v : Json F} (h : v.isTrue N = true) (w : Json F) :
    v.orElse N w = v := if_pos h

theorem Json.orElse_of_false {v : Json F} (h : v.isTrue N = false) (w : Json F) :
    v.orElse N w = w := by
  simp [orElse, h]

@[simp] theorem Json.orElse_null (w : Json F) : Json.null.orElse N w = w := rfl

/-- `int(v)` -/
def Json.toInt : Json F → Option Int
  | .null => none
  | .bool b => some (if b then 1 else 0)
  | .int n => some n
  | .float x => N.intOfFloat x
  | .str t => N.intOfText t
  | .arr _ => none
  | .obj _ => none

theorem Json.toInt_orElse_zero (n : Int) : ((Json.int n).orElse N (.int 0)).toInt N = some n := by
  by_cases h : n = 0 <;> simp [Json.orElse, Json.isTrue, Json.toInt, h]

section

variable (finite : F → Bool)

mutual

/-- No float of the value is `NaN` or infinite. -/
def allFinite : Json F → Bool
  | .float x => finite x
  | .arr items => allFiniteElems items
  | .obj items => allFiniteMembers items
  | .null => true
  | .bool _ => true
  | .int _ => true
  | .str _ => true

def allFiniteElems : List (Json F) → Bool
  | [] => true
  | v :: rest => allFinite v && allFiniteElems rest

def allFiniteMembers : List (Text × Json F) → Bool
  | [] => true
  | (_, v) :: rest => allFinite v && allFiniteMembers rest

end

theorem allFiniteElems_iff {vs : List (Json F)} :
    allFiniteElems finite vs = true ↔ ∀ v ∈ vs, allFinite finite v = true := by
  induction vs with
  | nil => simp [allFiniteElems]
  | cons v vs ih => simp [allFiniteElems, ih]

theorem allFiniteMembers_iff {items : Items F} :
    allFiniteMembers finite items = true ↔ ∀ x ∈ items, allFinite finite x.2 = true := by
  induction items with
  | nil => simp [allFiniteMembers]
  | cons x items ih => simp [allFiniteMembers, ih]

theorem allFinite_arr_map {α : Type} (f : α → Json F) (as : List α) :
    allFinite finite (.arr (as.map f)) = true ↔ ∀ a ∈ as, allFinite finite (f a) = true := by
  rw [allFinite, allFiniteElems_iff]
  exact List.forall_mem_map

end

end MainframeRag.PyJson
