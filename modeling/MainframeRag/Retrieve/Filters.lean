import MainframeRag.Lib.PyText

/-!
# Filters

`QueryIdentifiers` of `retrieve/filters.py` and the filters built from them. A filter reads the
values of a few payload fields (`Filter.holds`). The relaxed filter keeps the scope and what the query
asks of codes, and lets documents and members go (`buildFallbackFilter_accepts`).
-/

namespace MainframeRag.Retrieve

open PyText

structure QueryIdentifiers where
  docIds : List Text := []
  messageIds : List Text := []
  members : List Text := []
  systemCodes : List Text := []
  deriving DecidableEq

def QueryIdentifiers.hasIdentifiers (ids : QueryIdentifiers) : Bool :=
  ids.docIds ≠ [] || ids.messageIds ≠ [] || ids.members ≠ [] || ids.systemCodes ≠ []

/-- `query_kind` -/
def queryKind (ids : QueryIdentifiers) : Text :=
  if ids.hasIdentifiers then "identifier".toList else "nl".toList

/-! ## The language of filters -/

/-- The payload fields filters are about. -/
inductive PayloadField
  | product
  | version
  | docId
  | messageIds
  | members
  | systemCodes
  deriving DecidableEq

/-- `FieldCondition` and `IsEmptyCondition` -/
inductive Clause
  | matchValue (key : PayloadField) (value : Text)
  | matchAny (key : PayloadField) (values : List Text)
  | isEmpty (key : PayloadField)
  deriving DecidableEq

/-- `models.Filter`: every condition of `must`, and one of `should` if there are any. -/
structure Filter (C : Type) where
  must : List C := []
  should : List C := []
  deriving DecidableEq

/-- A clause, or a filter of clauses. -/
inductive Condition
  | clause (c : Clause)
  | nested (f : Filter Clause)
  deriving DecidableEq

def Clause.holds (values : PayloadField → List Text) : Clause → Bool
  | .matchValue key value => (values key).contains value
  | .matchAny key any => (values key).any any.contains
  | .isEmpty key => (values key).isEmpty

def Filter.holds {C : Type} (holdsOf : C → Bool) (f : Filter C) : Bool :=
  f.must.all holdsOf && (f.should.isEmpty || f.should.any holdsOf)

def Condition.holds (values : PayloadField → List Text) : Condition → Bool
  | .clause c => c.holds values
  | .nested f => f.holds (Clause.holds values)

/-- A filter that may be missing. -/
def accepts (flt : Option (Filter Condition)) (values : PayloadField → List Text) : Bool :=
  flt.all (Filter.holds (Condition.holds values))

/-- A filter of clauses as a filter of its own. -/
def Filter.plain (f : Filter Clause) : Filter Condition :=
  ⟨f.must.map .clause, f.should.map .clause⟩

/-! ## Builders -/

def valueClause (key : PayloadField) : Option Text → List Clause
  | none => []
  | some value => if value = [] then [] else [.matchValue key value]

def anyClause (key : PayloadField) (values : List Text) : List Clause :=
  if values = [] then [] else [.matchAny key values]

def buildFilter (ids : QueryIdentifiers) (product version : Option Text) : Option (Filter Clause) :=
  let must := valueClause .product product ++ valueClause .version version ++
    anyClause .docId ids.docIds ++ anyClause .messageIds ids.messageIds ++
    anyClause .members ids.members ++ anyClause .systemCodes ids.systemCodes
  if must = [] then none else some { must := must }

def buildScopeFilter (product version : Option Text) : Option (Filter Clause) :=
  buildFilter {} product version

/-- The field is empty or shares a value. -/
def compatible (key : PayloadField) (values : List Text) : List Condition :=
  if values = [] then [] else
    [.nested { should := [.isEmpty key, .matchAny key values] }]

def buildFallbackFilter (ids : QueryIdentifiers) (scope : Option (Filter Clause)) :
    Option (Filter Condition) :=
  if ids.messageIds = [] ∧ ids.systemCodes = [] then scope.map Filter.plain
  else
    let must := scope.toList.map .nested ++ compatible .messageIds ids.messageIds ++
      compatible .systemCodes ids.systemCodes
    if must = [] then none else some { must := must }

/-- `_query_filters` -/
def queryFilters (ids : QueryIdentifiers) (product version : Option Text) :
    Option (Filter Condition) × Option (Filter Condition) :=
  ((buildFilter ids product version).map Filter.plain,
    buildFallbackFilter ids (buildScopeFilter product version))

/-! ## What a filter accepts -/

section

variable {values : PayloadField → List Text}

theorem clauses_holds {f : Filter Clause} :
    f.plain.holds (Condition.holds values) = f.holds (Clause.holds values) := by
  simp [Filter.holds, Filter.plain, List.all_map, List.any_map, Function.comp_def, Condition.holds]

/-- What a caller asks of a field, if anything. -/
def Asked (values : PayloadField → List Text) (key : PayloadField) (asked : Option Text) : Prop :=
  ∀ value, asked = some value → value ≠ [] → value ∈ values key

/-- The field shares a value with what the query names, if it names any. -/
def Shares (values : PayloadField → List Text) (key : PayloadField) (named : List Text) : Prop :=
  named ≠ [] → ∃ value ∈ values key, value ∈ named

/-- The field is empty or shares a value with what the query names, if it names any. -/
def Compatible (values : PayloadField → List Text) (key : PayloadField) (named : List Text) : Prop :=
  named ≠ [] → values key = [] ∨ ∃ value ∈ values key, value ∈ named

theorem Shares.compatible {key : PayloadField} {named : List Text} (h : Shares values key named) :
    Compatible values key named := fun hne => .inr (h hne)

theorem valueClause_holds {key : PayloadField} {asked : Option Text} :
    (valueClause key asked).all (Clause.holds values) = true ↔ Asked values key asked := by
  unfold valueClause Asked
  cases asked with
  | none => simp
  | some value =>
    by_cases h : value = []
    · simp [h]
    · simp [h, Clause.holds]

theorem anyClause_holds {key : PayloadField} {named : List Text} :
    (anyClause key named).all (Clause.holds values) = true ↔ Shares values key named := by
  unfold anyClause Shares
  by_cases h : named = []
  · simp [h]
  · simp [h, Clause.holds]

theorem compatible_holds {key : PayloadField} {named : List Text} :
    (compatible key named).all (Condition.holds values) = true ↔ Compatible values key named := by
  unfold compatible Compatible
  by_cases h : named = []
  · simp [h]
  · simp [h, Clause.holds, Condition.holds, Filter.holds, List.isEmpty_iff]

/-- The filter accepts what has the scope and shares a value of every kind the query names. -/
theorem buildFilter_accepts {ids : QueryIdentifiers} {product version : Option Text} :
    accepts ((buildFilter ids product version).map Filter.plain) values = true ↔
      (Asked values .product product ∧ Asked values .version version) ∧
        Shares values .docId ids.docIds ∧ Shares values .messageIds ids.messageIds ∧
        Shares values .members ids.members ∧ Shares values .systemCodes ids.systemCodes := by
  have hall : accepts ((buildFilter ids product version).map Filter.plain) values =
      (valueClause .product product ++ valueClause .version version ++
        anyClause .docId ids.docIds ++ anyClause .messageIds ids.messageIds ++
        anyClause .members ids.members ++ anyClause .systemCodes ids.systemCodes).all
          (Clause.holds values) := by
    unfold buildFilter
    dsimp only
    split
    · next h => rw [h]; rfl
    · rw [accepts, Option.map_some, Option.all_some, clauses_holds, Filter.holds]
      exact Bool.and_true _
  rw [hall]
  simp only [List.all_append, Bool.and_eq_true, valueClause_holds, anyClause_holds, and_assoc]

/-- The scope filter accepts what has the scope. -/
theorem buildScopeFilter_accepts {product version : Option Text} :
    accepts ((buildScopeFilter product version).map Filter.plain) values = true ↔
      Asked values .product product ∧ Asked values .version version := by
  rw [buildScopeFilter, buildFilter_accepts]
  simp [Shares]

/-- The relaxed filter accepts what has the scope and is compatible with every code the query names. -/
theorem buildFallbackFilter_accepts {ids : QueryIdentifiers} {product version : Option Text} :
    accepts (buildFallbackFilter ids (buildScopeFilter product version)) values = true ↔
      (Asked values .product product ∧ Asked values .version version) ∧
        Compatible values .messageIds ids.messageIds ∧
        Compatible values .systemCodes ids.systemCodes := by
  rw [← buildScopeFilter_accepts]
  generalize buildScopeFilter product version = scope
  unfold buildFallbackFilter
  split
  · next h => simp [Compatible, h.1, h.2]
  · next h =>
    have hscope : (scope.toList.map Condition.nested).all (Condition.holds values) =
        accepts (scope.map Filter.plain) values := by
      cases scope with
      | none => rfl
      | some f =>
        rw [accepts, Option.map_some, Option.all_some, clauses_holds]
        simp [Condition.holds]
    have hmust : ∀ must : List Condition,
        accepts (if must = [] then none else some { must := must }) values =
          must.all (Condition.holds values) := by
      intro must
      split
      · next hnil => rw [hnil]; rfl
      · exact Bool.and_true _
    dsimp only
    rw [hmust]
    simp only [List.all_append, Bool.and_eq_true, hscope, compatible_holds, and_assoc]

end

end MainframeRag.Retrieve
