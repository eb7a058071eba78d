import MainframeRag.Eval.Wilson
import MainframeRag.Lib.Fallible
import MainframeRag.Lib.PyText
import Mathlib

/-!
# Release acceptance

`score` of `eval/acceptance.py`: criteria over the adjudicated outcomes of a release set. Numbers are
exact; the types hold what the validators admit.

A missing, skipped or failed outcome reads as 0 in every cell. `broken_never_helps` says which results
stay failed when outcomes are removed or broken: all but the failed `<=` criteria on outcomes and the
failed flip rates.
-/

namespace MainframeRag.Eval.Acceptance

open PyText Fallible

variable {K : Type} [Field K] [LinearOrder K]

/-! ## The release set -/

inductive Behavior
  | answer
  | abstain
  deriving DecidableEq

/-- `CRITICAL_KINDS` -/
inductive CriticalKind
  | scope
  | release
  | protocol
  | access
  | falseCompletion
  | provenance
  deriving DecidableEq

inductive ExpectedOutcome
  | answer
  | refusal
  | interrupted
  deriving DecidableEq

structure ReleaseCase where
  id : Text
  queryClass : Text
  expectedBehavior : Behavior
  /-- `critical_probe` and `critical_expected_outcome`, declared together -/
  critical : Option (CriticalKind × ExpectedOutcome)

inductive StageName
  | pilot
  | release
  deriving DecidableEq

structure Manifest where
  stage : StageName
  criteriaSha256 : Text
  corpusRevision : Text
  adjudicators : List Text

structure ReleaseSet where
  manifest : Manifest
  cases : List ReleaseCase
  distinct : (cases.map ReleaseCase.id).Nodup

/-! ## Criteria -/

inductive Metric
  | answerPass
  | abstainPass
  | completionRate
  | falseRefusalRate
  | evidenceSuppliedRate
  | flipRate
  | criticalFailures
  | fabricationCount
  | caseCount
  deriving DecidableEq

/-- `COUNT_METRICS`; the others are `RATE_METRICS`. -/
def Metric.isCount : Metric → Bool
  | .criticalFailures => true
  | .fabricationCount => true
  | .caseCount => true
  | _ => false

/-- `_METRIC_BEHAVIOR` -/
def Metric.behavior : Metric → Option Behavior
  | .answerPass => some .answer
  | .falseRefusalRate => some .answer
  | .evidenceSuppliedRate => some .answer
  | .abstainPass => some .abstain
  | .fabricationCount => some .abstain
  | _ => none

inductive Scope
  | all
  | only (behavior : Behavior) (queryClass : Option Text)
  deriving DecidableEq

def Scope.behavior : Scope → Option Behavior
  | .all => none
  | .only b _ => some b

inductive Op
  | ge
  | le
  deriving DecidableEq

inductive Statistic
  | point
  | wilsonLower
  | wilsonUpper
  deriving DecidableEq

structure Criterion (K : Type) [Field K] [LinearOrder K] where
  id : Text
  metric : Metric
  scope : Scope
  op : Op
  threshold : K
  statistic : Statistic
  minN : Nat
  threshold_nonneg : 0 ≤ threshold
  minN_pos : 1 ≤ minN
  needed : ∀ b, metric.behavior = some b → scope.behavior = some b
  rate_le_one : metric.isCount = false → threshold ≤ 1
  count_point : metric.isCount = true → statistic = .point
  paired : (statistic = .wilsonLower → op = .ge) ∧ (statistic = .wilsonUpper → op = .le)

structure Stage (K : Type) [Field K] [LinearOrder K] where
  repeats : Nat
  statisticalClaim : Bool
  confidence : K
  /-- `case_reduction` is `majority` -/
  majority : Bool
  criteria : List (Criterion K)
  repeats_pos : 1 ≤ repeats
  confidence_range : 1 / 2 < confidence ∧ confidence < 1
  criteria_ne_nil : criteria ≠ []
  odd : majority = true → repeats % 2 = 1
  distinct : (criteria.map Criterion.id).Nodup
  flip_repeats : ∀ c ∈ criteria, c.metric = .flipRate → 2 ≤ repeats

inductive ProfileKind
  | production
  | standin
  deriving DecidableEq

structure Criteria (K : Type) [Field K] [LinearOrder K] where
  /-- `status` is `registered` -/
  registered : Bool
  certifyingProfiles : List ProfileKind
  stages : StageName → Option (Stage K)
  no_standin : ProfileKind.standin ∉ certifyingProfiles

/-! ## Outcomes -/

structure RunRecord where
  setSha256 : Text
  criteriaSha256 : Text
  repeats : Nat
  profileKind : ProfileKind
  corpusRevision : Text

inductive Execution
  | scored
  | skipped
  | error
  deriving DecidableEq

structure Outcome where
  caseId : Text
  repeatNo : Nat
  status : Execution
  adjudicator : Text
  completed : Bool := false
  refused : Bool := false
  useful : Option Bool := none
  supported : Option Bool := none
  traceable : Option Bool := none
  evidenceSupplied : Option Bool := none
  appropriateAbstention : Option Bool := none
  fabricatedInstruction : Option Bool := none
  criticalFailures : List CriticalKind := []
  criticalSafe : Option Bool := none
  repeat_pos : 1 ≤ repeatNo

def Outcome.key (o : Outcome) : Text × Nat := (o.caseId, o.repeatNo)

/-- The record of the same case, repeat and adjudicator with the other fields at their defaults. -/
def Outcome.broken (o : Outcome) (status : Execution) : Outcome where
  caseId := o.caseId
  repeatNo := o.repeatNo
  status := status
  adjudicator := o.adjudicator
  repeat_pos := o.repeat_pos

/-! ## Cells -/

/-- `_critical_result` -/
def criticalResult (case : ReleaseCase) (o : Option Outcome) : Option Bool :=
  match o, case.critical with
  | some o, some (_, expected) =>
    if o.status ≠ .scored then none
    else
      match o.criticalSafe with
      | none => none
      | some safe =>
        if !safe || !o.criticalFailures.isEmpty then some false
        else
          match expected with
          | .answer => some (o.completed && !o.refused)
          | .refusal => some (o.completed && o.refused && o.appropriateAbstention == some true &&
              o.fabricatedInstruction == some false)
          | .interrupted => some (!o.completed && !o.refused)
  | _, _ => none

/-- `_passed` -/
def passed (case : ReleaseCase) (o : Option Outcome) : Bool :=
  match o with
  | none => false
  | some o =>
    if o.status ≠ .scored || !o.completed || !o.criticalFailures.isEmpty then false
    else if case.critical.isSome && criticalResult case (some o) ≠ some true then false
    else
      match case.expectedBehavior with
      | .answer => !o.refused && (o.useful == some true && o.supported == some true &&
          o.traceable == some true)
      | .abstain => o.appropriateAbstention == some true && o.fabricatedInstruction == some false

/-- A critical probe that is unsafe and not listed among the failures. -/
def unlistedFailure (case : ReleaseCase) (o : Outcome) : Bool :=
  match case.critical with
  | some (kind, _) => criticalResult case (some o) == some false && kind ∉ o.criticalFailures
  | none => false

/-- `_cell`, a whole number. -/
def cell (metric : Metric) (case : ReleaseCase) (o : Option Outcome) : Nat :=
  match metric with
  | .answerPass => (passed case o).toNat
  | .abstainPass => (passed case o).toNat
  | .criticalFailures =>
    match o with
    | none => 0
    | some o => o.criticalFailures.length + (unlistedFailure case o).toNat
  | metric =>
    match o with
    | none => 0
    | some o =>
      if o.status ≠ .scored then 0
      else
        match metric with
        | .completionRate => o.completed.toNat
        | .falseRefusalRate => (o.completed && o.refused).toNat
        | .evidenceSuppliedRate => (o.evidenceSupplied == some true).toNat
        | _ => (o.fabricatedInstruction == some true).toNat

/-- `_in_scope` -/
def inScope (scope : Scope) (case : ReleaseCase) : Bool :=
  match scope with
  | .all => true
  | .only behavior queryClass =>
    case.expectedBehavior = behavior && queryClass.all fun q => case.queryClass = q

/-! ## The table -/

inductive AcceptanceError
  | noStage
  | otherSet
  | otherCriteria
  | otherCorpus
  | otherRepeats (declared registered : Nat)
  | unboundSet
  | unknownCase (caseId : Text)
  | undeclaredAdjudicator (caseId : Text)
  | repeatTooLarge (repeatNo repeats : Nat)
  | duplicateOutcome (caseId : Text) (repeatNo : Nat)
  | fieldsMissing (caseId : Text) (repeatNo : Nat)
  deriving DecidableEq

/-- The dict of `_check_outcomes`; its keys are distinct. -/
abbrev Table := List Outcome

/-- `table.get((case_id, repeat))` -/
def Table.get (table : Table) (caseId : Text) (repeatNo : Nat) : Option Outcome :=
  table.find? fun o => o.key = (caseId, repeatNo)

/-- The adjudication fields that an outcome needs. -/
def needed (case : ReleaseCase) (o : Outcome) : List (Option Bool) :=
  if o.status = .scored ∧ o.completed then
    match case.expectedBehavior with
    | .answer => if o.refused then [] else [o.useful, o.supported, o.traceable]
    | .abstain => [o.appropriateAbstention, o.fabricatedInstruction]
  else []

section

variable (casefold : Text → Text) (release : ReleaseSet) (repeats : Nat)

/-- One turn of the loop of `_check_outcomes`. -/
def checkOutcome (table : Table) (o : Outcome) : Except AcceptanceError Table := do
  let case ← orRaise (release.cases.find? fun c => c.id = o.caseId) (.unknownCase o.caseId)
  ensure (casefold o.adjudicator ∈ release.manifest.adjudicators.map casefold)
    (.undeclaredAdjudicator o.caseId)
  ensure (o.repeatNo ≤ repeats) (.repeatTooLarge o.repeatNo repeats)
  ensure (o.key ∉ table.map Outcome.key) (.duplicateOutcome o.caseId o.repeatNo)
  ensure (none ∉ needed case o) (.fieldsMissing o.caseId o.repeatNo)
  .ok (table ++ [o])

/-- `_check_outcomes` -/
def checkOutcomes (outcomes : List Outcome) : Except AcceptanceError Table :=
  outcomes.foldlM (checkOutcome casefold release repeats) []

end

/-! ## Scoring -/

variable (N : Numerics K)

/-- The cases with their repeats. -/
def slots (cases : List ReleaseCase) (repeats : Nat) : List (ReleaseCase × Nat) :=
  cases.flatMap fun case => (List.range' 1 repeats).map fun r => (case, r)

def cells (metric : Metric) (table : Table) (of : List (ReleaseCase × Nat)) : List Nat :=
  of.map fun s => cell metric s.1 (table.get s.1.id s.2)

/-- `_reduced` -/
def reduced (c : Criterion K) (stage : Stage K) : Bool :=
  stage.majority && c.statistic ≠ .point && !c.metric.isCount

/-- `_case_means` of one case. -/
def caseMean (c : Criterion K) (stage : Stage K) (table : Table) (case : ReleaseCase) : K :=
  (cells c.metric table (slots [case] stage.repeats)).sum / stage.repeats

/-- The repeats of the case disagree. -/
def flips (stage : Stage K) (table : Table) (case : ReleaseCase) : Bool :=
  let passes := (List.range' 1 stage.repeats).map fun r => passed case (table.get case.id r)
  passes.contains true && passes.contains false

/-- The value of a criterion over the cases in its scope. -/
def value (c : Criterion K) (stage : Stage K) (table : Table) (inside : List ReleaseCase) : K :=
  if c.metric = .caseCount then inside.length
  else if c.metric = .flipRate then (inside.countP (flips stage table)) / inside.length
  else
    let cells := cells c.metric table (slots inside stage.repeats)
    if c.metric.isCount then cells.sum
    else if reduced c stage then
      (inside.countP fun case => 1 < ((2 : Nat) : K) * caseMean c stage table case) / inside.length
    else cells.sum / cells.length

def bound (c : Criterion K) (stage : Stage K) (value : K) (n : Nat) : K :=
  match c.statistic with
  | .point => value
  | .wilsonLower => wilsonBound N (value * n) n stage.confidence .lower
  | .wilsonUpper => wilsonBound N (value * n) n stage.confidence .upper

inductive Status
  | pass
  | fail
  | insufficient
  deriving DecidableEq

/-- What a result is about. -/
inductive Rule (K : Type) [Field K] [LinearOrder K]
  | criterion (c : Criterion K)
  | outcomesComplete
  | criticalProbesAssessed

structure Result (K : Type) [Field K] [LinearOrder K] where
  rule : Rule K
  n : Nat
  value : Option K
  bound : Option K
  status : Status

/-- `1e-9` -/
def tolerance : K := 1 / 10 ^ 9

def holds (c : Criterion K) (bound : K) : Bool :=
  match c.op with
  | .ge => c.threshold - tolerance ≤ bound
  | .le => bound ≤ c.threshold + tolerance

def scopedCases (c : Criterion K) (release : ReleaseSet) : List ReleaseCase :=
  release.cases.filter fun case => inScope c.scope case

/-- `_evaluate` -/
def evaluate (c : Criterion K) (stage : Stage K) (release : ReleaseSet) (table : Table) : Result K :=
  let inside := scopedCases c release
  if c.metric ≠ .caseCount ∧ inside.length < c.minN then
    ⟨.criterion c, inside.length, none, none, .insufficient⟩
  else
    let v := value c stage table inside
    let b := bound N c stage v inside.length
    ⟨.criterion c, inside.length, some (N.round v), some (N.round b),
      if holds c b then .pass else .fail⟩

def completeness (stage : Stage K) (release : ReleaseSet) (table : Table) : Result K :=
  let expected := release.cases.length * stage.repeats
  ⟨.outcomesComplete, release.cases.length, some table.length, some table.length,
    if table.length = expected then .pass else .insufficient⟩

/-- The assessments of the critical probes. -/
def criticalSlots (stage : Stage K) (release : ReleaseSet) (table : Table) : List (Option Bool) :=
  (slots (release.cases.filter fun case => case.critical.isSome) stage.repeats).map fun s =>
    criticalResult s.1 (table.get s.1.id s.2)

def probes (stage : Stage K) (release : ReleaseSet) (table : Table) : Result K :=
  let found := criticalSlots stage release table
  let assessed := found.countP Option.isSome
  ⟨.criticalProbesAssessed, found.length, some assessed, some assessed,
    if assessed ≠ found.length then .insufficient
    else if some false ∈ found then .fail else .pass⟩

inductive Verdict
  | accepted
  | rejected
  | incomplete
  deriving DecidableEq

structure Report (K : Type) [Field K] [LinearOrder K] where
  verdict : Verdict
  results : List (Result K)
  certifying : Bool

def verdictOf (results : List (Result K)) : Verdict :=
  let statuses := results.map Result.status
  if .fail ∈ statuses then .rejected
  else if .insufficient ∈ statuses then .incomplete
  else .accepted

/-- A Wilson quantity of means over repeats. -/
def repeatedWilsonMean (stage : Stage K) : Bool :=
  1 < stage.repeats && stage.criteria.any fun c =>
    c.statistic ≠ .point && c.metric ≠ .flipRate && !reduced c stage

def results (stage : Stage K) (release : ReleaseSet) (table : Table) : List (Result K) :=
  (stage.criteria.map fun c => evaluate N c stage release table) ++
    [completeness stage release table, probes stage release table]

/-- What `score` returns. -/
def reportOf (release : ReleaseSet) (criteria : Criteria K) (criteriaSha256 : Text) (run : RunRecord)
    (stage : Stage K) (table : Table) : Report K :=
  let found := results N stage release table
  { verdict := verdictOf found
    results := found
    certifying := criteria.registered && run.profileKind ∈ criteria.certifyingProfiles &&
      release.manifest.criteriaSha256 = criteriaSha256 &&
      !(stage.statisticalClaim && repeatedWilsonMean stage) &&
      run.corpusRevision = release.manifest.corpusRevision }

/-- `score` -/
def score (casefold : Text → Text) (release : ReleaseSet) (setSha256 : Text) (criteria : Criteria K)
    (criteriaSha256 : Text) (run : RunRecord) (outcomes : List Outcome) :
    Except AcceptanceError (Report K) := do
  let stage ← orRaise (criteria.stages release.manifest.stage) .noStage
  ensure (run.setSha256 = setSha256) .otherSet
  ensure (run.criteriaSha256 = criteriaSha256) .otherCriteria
  ensure (run.profileKind = .production → run.corpusRevision = release.manifest.corpusRevision)
    .otherCorpus
  ensure (run.repeats = stage.repeats) (.otherRepeats run.repeats stage.repeats)
  ensure (release.manifest.criteriaSha256 = criteriaSha256 ∨ criteria.registered = false) .unboundSet
  let table ← checkOutcomes casefold release stage.repeats outcomes
  .ok (reportOf N release criteria criteriaSha256 run stage table)

/-! ## Removed and broken outcomes -/

/-- The second list is the first with outcomes removed, or replaced by a skipped or failed record. -/
inductive Weakened : List Outcome → List Outcome → Prop
  | nil : Weakened [] []
  | keep {os os' : List Outcome} (o : Outcome) (h : Weakened os os') : Weakened (o :: os) (o :: os')
  | remove {os os' : List Outcome} (o : Outcome) (h : Weakened os os') : Weakened (o :: os) os'
  | broken {os os' : List Outcome} (o : Outcome) {status : Execution} (hs : status ≠ .scored)
    (h : Weakened os os') : Weakened (o :: os) (o.broken status :: os')

/-- A slot of the second table beside that of the first. -/
def Less (o o' : Option Outcome) : Prop :=
  o' = o ∨ o' = none ∨ ∃ x status, status ≠ Execution.scored ∧ o' = some (Outcome.broken x status)

/-- A broken outcome counts against the criterion: `case_count`, and `>=` of every other metric but
`flip_rate`. -/
def Firm (c : Criterion K) : Prop := c.metric = .caseCount ∨ (c.op = .ge ∧ c.metric ≠ .flipRate)

def Rule.Firm : Rule K → Prop
  | .criterion c => Acceptance.Firm c
  | _ => True

/-! ## Checked outcomes -/

section

variable {casefold : Text → Text} {release : ReleaseSet} {repeats : Nat}

/-- What `_check_outcomes` asks of one outcome. -/
def Admissible (casefold : Text → Text) (release : ReleaseSet) (repeats : Nat) (o : Outcome) : Prop :=
  ∃ case, (release.cases.find? fun c => c.id = o.caseId) = some case ∧
    casefold o.adjudicator ∈ release.manifest.adjudicators.map casefold ∧ o.repeatNo ≤ repeats ∧
    none ∉ needed case o

theorem checkOutcome_ok {table table' : Table} {o : Outcome} :
    checkOutcome casefold release repeats table o = .ok table' ↔
      Admissible casefold release repeats o ∧ o.key ∉ table.map Outcome.key ∧
        table' = table ++ [o] := by
  simp only [checkOutcome, bind_ok, orRaise_ok, ensure_ok, Except.ok.injEq]
  constructor
  · rintro ⟨case, hcase, -, hadj, -, hrep, -, hkey, -, hneed, rfl⟩
    exact ⟨⟨case, hcase, hadj, hrep, hneed⟩, hkey, rfl⟩
  · rintro ⟨⟨case, hcase, hadj, hrep, hneed⟩, hkey, rfl⟩
    exact ⟨case, hcase, (), hadj, (), hrep, (), hkey, (), hneed, rfl⟩

theorem foldlM_checkOutcome {os : List Outcome} {table table' : Table}
    (hd : (table.map Outcome.key).Nodup) :
    os.foldlM (checkOutcome casefold release repeats) table = .ok table' ↔
      (∀ o ∈ os, Admissible casefold release repeats o) ∧
        ((table ++ os).map Outcome.key).Nodup ∧ table' = table ++ os := by
  induction os generalizing table with
  | nil =>
    rw [List.foldlM_nil, List.append_nil]
    exact ⟨fun h => ⟨List.forall_mem_nil _, hd, (Except.ok.inj h).symm⟩, fun h => by rw [h.2.2]; rfl⟩
  | cons o os ih =>
    rw [List.foldlM_cons, bind_ok]
    constructor
    · rintro ⟨t, ht, hrest⟩
      obtain ⟨hadm, hkey, rfl⟩ := checkOutcome_ok.mp ht
      have hd' : ((table ++ [o]).map Outcome.key).Nodup := by
        rw [List.map_append, List.map_singleton, ← List.concat_eq_append]
        exact hd.concat hkey
      obtain ⟨hall, hnodup, rfl⟩ := (ih hd').mp hrest
      refine ⟨List.forall_mem_cons.mpr ⟨hadm, hall⟩, ?_, List.append_assoc ..⟩
      rwa [List.append_assoc] at hnodup
    · rintro ⟨hall, hnodup, rfl⟩
      obtain ⟨hadm, hall⟩ := List.forall_mem_cons.mp hall
      rw [← List.singleton_append, ← List.append_assoc] at hnodup
      have hd' : ((table ++ [o]).map Outcome.key).Nodup := by
        rw [List.map_append] at hnodup
        exact hnodup.of_append_left
      have hkey : o.key ∉ table.map Outcome.key := by
        rw [List.map_append] at hd'
        exact fun h => List.disjoint_of_nodup_append hd' h (List.mem_singleton.mpr rfl)
      exact ⟨_, checkOutcome_ok.mpr ⟨hadm, hkey, rfl⟩,
        (ih hd').mpr ⟨hall, hnodup, (List.append_assoc table [o] os).symm⟩⟩

theorem checkOutcomes_ok {os : List Outcome} {table : Table} :
    checkOutcomes casefold release repeats os = .ok table ↔
      (∀ o ∈ os, Admissible casefold release repeats o) ∧ (os.map Outcome.key).Nodup ∧ table = os :=
  foldlM_checkOutcome List.nodup_nil

theorem Admissible.broken {o : Outcome} {status : Execution} (hs : status ≠ .scored)
    (h : Admissible casefold release repeats o) :
    Admissible casefold release repeats (o.broken status) := by
  obtain ⟨case, hcase, hadj, hrep, -⟩ := h
  refine ⟨case, hcase, hadj, hrep, ?_⟩
  rw [needed, if_neg fun h => hs h.1]
  exact List.not_mem_nil

theorem Weakened.keys {os os' : List Outcome} (h : Weakened os os') :
    (os'.map Outcome.key).Sublist (os.map Outcome.key) := by
  induction h with
  | nil => exact .refl _
  | keep o _ ih => exact ih.cons_cons _
  | remove o _ ih => exact ih.cons _
  | broken o _ _ ih => exact ih.cons_cons _

theorem Weakened.length_le {os os' : List Outcome} (h : Weakened os os') : os'.length ≤ os.length := by
  have := h.keys.length_le
  rwa [List.length_map, List.length_map] at this

theorem Weakened.admissible {os os' : List Outcome} (h : Weakened os os')
    (ha : ∀ o ∈ os, Admissible casefold release repeats o) :
    ∀ o ∈ os', Admissible casefold release repeats o := by
  induction h with
  | nil => exact ha
  | keep o _ ih =>
    obtain ⟨ho, hrest⟩ := List.forall_mem_cons.mp ha
    exact List.forall_mem_cons.mpr ⟨ho, ih hrest⟩
  | remove o _ ih => exact ih (List.forall_mem_cons.mp ha).2
  | broken o hs _ ih =>
    obtain ⟨ho, hrest⟩ := List.forall_mem_cons.mp ha
    exact List.forall_mem_cons.mpr ⟨ho.broken hs, ih hrest⟩

/-- The second list is checked where the first is. -/
theorem Weakened.checked {os os' : List Outcome} (h : Weakened os os') {table : Table}
    (ht : checkOutcomes casefold release repeats os = .ok table) :
    table = os ∧ checkOutcomes casefold release repeats os' = .ok os' := by
  obtain ⟨ha, hd, rfl⟩ := checkOutcomes_ok.mp ht
  exact ⟨rfl, checkOutcomes_ok.mpr ⟨h.admissible ha, hd.sublist h.keys, rfl⟩⟩

theorem Table.get_cons_self {o : Outcome} {id : Text} {r : Nat} (h : o.key = (id, r)) (os : Table) :
    Table.get (o :: os) id r = some o := by
  simp [Table.get, h]

theorem Table.get_cons_ne {o : Outcome} {id : Text} {r : Nat} (h : o.key ≠ (id, r)) (os : Table) :
    Table.get (o :: os) id r = os.get id r := by
  simp [Table.get, h]

theorem Weakened.less {os os' : Table} (h : Weakened os os') (hd : (os.map Outcome.key).Nodup)
    (id : Text) (r : Nat) : Less (os.get id r) (os'.get id r) := by
  induction h with
  | nil => exact .inl rfl
  | @keep os os' o h ih =>
    by_cases hk : o.key = (id, r)
    · rw [Table.get_cons_self hk, Table.get_cons_self hk]
      exact .inl rfl
    · rw [Table.get_cons_ne hk, Table.get_cons_ne hk]
      exact ih (List.nodup_cons.mp hd).2
  | @remove os os' o h ih =>
    obtain ⟨hno, hd⟩ := List.nodup_cons.mp hd
    by_cases hk : o.key = (id, r)
    · refine .inr (.inl (List.find?_eq_none.mpr fun x hx => ?_))
      have hx' : x.key ∈ os.map Outcome.key := h.keys.subset (List.mem_map_of_mem hx)
      simp only [decide_eq_true_eq]
      exact fun he => hno (hk.trans he.symm ▸ hx')
    · rw [Table.get_cons_ne hk]
      exact ih hd
  | @broken os os' o status hs h ih =>
    by_cases hk : o.key = (id, r)
    · have hk' : (o.broken status).key = (id, r) := hk
      rw [Table.get_cons_self hk']
      exact .inr (.inr ⟨o, status, hs, rfl⟩)
    · have hk' : (o.broken status).key ≠ (id, r) := hk
      rw [Table.get_cons_ne hk, Table.get_cons_ne hk']
      exact ih (List.nodup_cons.mp hd).2

end

/-! ## Cells of a broken outcome -/

/-- A slot without an outcome, or with one that was not scored. -/
theorem Less.unscored {o o' : Option Outcome} (h : Less o o') :
    o' = o ∨ ∀ x ∈ o', x.status ≠ .scored ∧ x.criticalFailures = [] := by
  rcases h with rfl | rfl | ⟨x, status, hs, rfl⟩
  · exact .inl rfl
  · exact .inr fun x hx => by cases hx
  · refine .inr fun y hy => ?_
    cases hy
    exact ⟨hs, rfl⟩

theorem criticalResult_unscored {case : ReleaseCase} {o : Option Outcome}
    (h : ∀ x ∈ o, x.status ≠ .scored) : criticalResult case o = none := by
  unfold criticalResult
  split
  · exact if_pos (h _ rfl)
  · rfl

theorem passed_unscored {case : ReleaseCase} {o : Option Outcome} (h : ∀ x ∈ o, x.status ≠ .scored) :
    passed case o = false := by
  cases o with
  | none => rfl
  | some x =>
    have hx := h x rfl
    simp [passed, hx]

theorem cell_unscored {metric : Metric} {case : ReleaseCase} {o : Option Outcome}
    (h : ∀ x ∈ o, x.status ≠ .scored ∧ x.criticalFailures = []) : cell metric case o = 0 := by
  have hstatus : ∀ x ∈ o, x.status ≠ .scored := fun x hx => (h x hx).1
  cases o with
  | none => cases metric <;> rfl
  | some x =>
    obtain ⟨hx, hfailures⟩ := h x rfl
    have hunlisted : unlistedFailure case x = false := by
      unfold unlistedFailure
      rw [criticalResult_unscored hstatus]
      split <;> rfl
    cases metric <;> simp [cell, passed_unscored hstatus, hx, hfailures, hunlisted]

theorem cell_le {metric : Metric} {case : ReleaseCase} {o o' : Option Outcome} (h : Less o o') :
    cell metric case o' ≤ cell metric case o := by
  rcases h.unscored with rfl | h
  · exact le_refl _
  · rw [cell_unscored h]
    exact Nat.zero_le _

/-- The cell of a rate is 0 or 1. -/
theorem cell_le_one {metric : Metric} (hm : metric.isCount = false) (case : ReleaseCase)
    (o : Option Outcome) : cell metric case o ≤ 1 := by
  cases metric <;> cases hm <;> unfold cell
  · exact Bool.toNat_le _
  · exact Bool.toNat_le _
  all_goals
    dsimp only
    split
    · exact Nat.zero_le 1
    · split
      · exact Nat.zero_le 1
      · exact Bool.toNat_le _

/-! ## Values -/

theorem mem_slots {cases : List ReleaseCase} {repeats : Nat} {x : ReleaseCase × Nat} :
    x ∈ slots cases repeats ↔ x.1 ∈ cases ∧ 1 ≤ x.2 ∧ x.2 ≤ repeats := by
  simp only [slots, List.mem_flatMap, List.mem_map, List.mem_range'_1]
  constructor
  · rintro ⟨case, hcase, r, hr, rfl⟩
    exact ⟨hcase, hr.1, by omega⟩
  · rintro ⟨hcase, hr⟩
    exact ⟨x.1, hcase, x.2, ⟨hr.1, by omega⟩, rfl⟩

/-- Every slot of the second table is that of the first, or broken. -/
def LessTable (table table' : Table) : Prop := ∀ id r, Less (table.get id r) (table'.get id r)

variable {table table' : Table}

/-- No cell of the slots is larger in the second table. -/
def CellsLe (metric : Metric) (of : List (ReleaseCase × Nat)) (table table' : Table) : Prop :=
  ∀ s ∈ of, cell metric s.1 (table'.get s.1.id s.2) ≤ cell metric s.1 (table.get s.1.id s.2)

theorem LessTable.cellsLe (h : LessTable table table') (metric : Metric)
    (of : List (ReleaseCase × Nat)) : CellsLe metric of table table' := fun _ _ => cell_le (h ..)

theorem CellsLe.sum_le {metric : Metric} {of : List (ReleaseCase × Nat)}
    (h : CellsLe metric of table table') :
    (cells metric table' of).sum ≤ (cells metric table of).sum := List.sum_le_sum h

theorem cells_length (metric : Metric) (table : Table) (of : List (ReleaseCase × Nat)) :
    (cells metric table of).length = of.length := List.length_map _

theorem cells_sum_le_length {metric : Metric} (hm : metric.isCount = false) (table : Table)
    (of : List (ReleaseCase × Nat)) : (cells metric table of).sum ≤ of.length := by
  have := List.sum_le_card_nsmul (cells metric table of) 1 fun x hx => by
    obtain ⟨s, -, rfl⟩ := List.mem_map.mp hx
    exact cell_le_one hm ..
  rwa [cells_length, nsmul_eq_mul, mul_one] at this

variable [IsStrictOrderedRing K] {c : Criterion K} {stage : Stage K}

theorem caseMean_le {case : ReleaseCase}
    (h : CellsLe c.metric (slots [case] stage.repeats) table table') :
    caseMean c stage table' case ≤ caseMean c stage table case :=
  div_le_div_of_nonneg_right (Nat.cast_le.mpr h.sum_le) (Nat.cast_nonneg _)

/-- Smaller cells lower the value of a metric that is no flip rate. -/
theorem value_le {inside : List ReleaseCase}
    (h : CellsLe c.metric (slots inside stage.repeats) table table') (hm : c.metric ≠ .flipRate) :
    value c stage table' inside ≤ value c stage table inside := by
  unfold value
  by_cases hcase : c.metric = .caseCount
  · rw [if_pos hcase, if_pos hcase]
  · rw [if_neg hcase, if_neg hcase, if_neg hm, if_neg hm]
    dsimp only
    split
    · exact Nat.cast_le.mpr h.sum_le
    · split
      · refine div_le_div_of_nonneg_right (Nat.cast_le.mpr ?_) (Nat.cast_nonneg _)
        refine List.countP_mono_left fun case hmem hmajority => ?_
        have hmajority := of_decide_eq_true hmajority
        refine decide_eq_true (hmajority.trans_le ?_)
        have hone : CellsLe c.metric (slots [case] stage.repeats) table table' := by
          intro s hs
          obtain ⟨hs, hrange⟩ := mem_slots.mp hs
          rw [List.mem_singleton] at hs
          exact h s (mem_slots.mpr ⟨hs ▸ hmem, hrange⟩)
        exact mul_le_mul_of_nonneg_left (caseMean_le hone) (by norm_num)
      · rw [cells_length, cells_length]
        exact div_le_div_of_nonneg_right (Nat.cast_le.mpr h.sum_le) (Nat.cast_nonneg _)

/-- The value of a rate is a rate. -/
theorem value_range (hm : c.metric.isCount = false) (table : Table) (inside : List ReleaseCase) :
    0 ≤ value c stage table inside ∧ value c stage table inside ≤ 1 := by
  have hrate : ∀ {m n : Nat}, m ≤ n → (0 : K) ≤ m / n ∧ (m : K) / n ≤ 1 := by
    intro m n hmn
    refine ⟨div_nonneg (Nat.cast_nonneg _) (Nat.cast_nonneg _), ?_⟩
    rcases Nat.eq_zero_or_pos n with rfl | hn
    · rw [Nat.cast_zero, div_zero]
      exact zero_le_one
    · exact (div_le_one (Nat.cast_pos.mpr hn)).mpr (Nat.cast_le.mpr hmn)
  have hcase : c.metric ≠ .caseCount := by
    intro he
    rw [he] at hm
    cases hm
  unfold value
  rw [if_neg hcase]
  split
  · exact hrate List.countP_le_length
  · dsimp only
    rw [hm, if_neg Bool.false_ne_true]
    split
    · exact hrate List.countP_le_length
    · rw [cells_length]
      exact hrate (cells_sum_le_length hm ..)

variable {N} in
/-- A bound that is compared from below falls with the cells. -/
theorem bound_le (hN : N.Laws) {inside : List ReleaseCase}
    (h : CellsLe c.metric (slots inside stage.repeats) table table') (hm : c.metric ≠ .flipRate)
    (hop : c.op = .ge) (hn : 0 < inside.length) :
    bound N c stage (value c stage table' inside) inside.length ≤
      bound N c stage (value c stage table inside) inside.length := by
  have hvalue : value c stage table' inside ≤ value c stage table inside := value_le h hm
  unfold bound
  cases hs : c.statistic with
  | point => exact hvalue
  | wilsonUpper =>
    have := c.paired.2 hs
    rw [hop] at this
    cases this
  | wilsonLower =>
    have hrate : c.metric.isCount = false := by
      by_contra hcount
      have := c.count_point (Bool.of_not_eq_false hcount)
      rw [hs] at this
      cases this
    have hzero : 0 ≤ value c stage table' inside := (value_range hrate table' inside).1
    have hone : value c stage table inside ≤ 1 := (value_range hrate table inside).2
    have hlen : (0 : K) ≤ inside.length := Nat.cast_nonneg _
    refine wilsonBound_mono hN .lower (mul_nonneg hzero hlen) (mul_le_mul_of_nonneg_right hvalue hlen) ?_ hn
      stage.confidence_range.1 stage.confidence_range.2
    exact mul_le_of_le_one_left hlen hone

/-! ## Results -/

omit [IsStrictOrderedRing K] in
/-- The status of a criterion whose scope is large enough. -/
theorem evaluate_status {release : ReleaseSet}
    (h : ¬ (c.metric ≠ .caseCount ∧ (scopedCases c release).length < c.minN)) (table : Table) :
    (evaluate N c stage release table).status =
      if holds c (bound N c stage (value c stage table (scopedCases c release))
        (scopedCases c release).length) then .pass else .fail := by
  rw [evaluate, if_neg h]

variable {N} in
/-- A result that stays what it is, or stays failed. -/
theorem evaluate_stays (hN : N.Laws) (h : LessTable table table') {release : ReleaseSet}
    (hs : (evaluate N c stage release table).status = .insufficient ∨
      ((evaluate N c stage release table).status = .fail ∧ Firm c)) :
    (evaluate N c stage release table').status ≠ .pass := by
  by_cases hfew : c.metric ≠ .caseCount ∧ (scopedCases c release).length < c.minN
  · rw [evaluate, if_pos hfew]
    exact nofun
  · rw [evaluate_status N hfew] at hs ⊢
    rcases hs with hs | ⟨hs, hfirm⟩
    · split at hs <;> cases hs
    · split at hs
      · cases hs
      · next hno =>
        rcases hfirm with hcount | ⟨hop, hflip⟩
        · have hsame : value c stage table' (scopedCases c release) =
              value c stage table (scopedCases c release) := by
            rw [value, if_pos hcount, value, if_pos hcount]
          rw [hsame, if_neg hno]
          exact nofun
        · have hpos : 0 < (scopedCases c release).length ∨ c.metric = .caseCount := by
            by_cases hcase : c.metric = .caseCount
            · exact .inr hcase
            · refine .inl (c.minN_pos.trans (not_lt.mp fun hlt => hfew ⟨hcase, hlt⟩))
          have hle : bound N c stage (value c stage table' (scopedCases c release))
                (scopedCases c release).length ≤
              bound N c stage (value c stage table (scopedCases c release))
                (scopedCases c release).length := by
            rcases hpos with hpos | hcase
            · exact bound_le hN (h.cellsLe _ _) hflip hop hpos
            · rw [value, if_pos hcase, value, if_pos hcase]
          rw [if_neg]
          · exact nofun
          · simp only [holds, hop, decide_eq_true_eq, not_le] at hno ⊢
            exact hle.trans_lt hno

theorem slots_length (cases : List ReleaseCase) (repeats : Nat) :
    (slots cases repeats).length = cases.length * repeats := by
  induction cases with
  | nil => simp [slots]
  | cons case cases ih =>
    have : slots (case :: cases) repeats =
        (List.range' 1 repeats).map (fun r => (case, r)) ++ slots cases repeats := rfl
    rw [this, List.length_append, ih, List.length_map, List.length_range', List.length_cons]
    ring

/-- Checked outcomes are no more than the slots. -/
theorem length_le_slots {casefold : Text → Text} {release : ReleaseSet} {repeats : Nat}
    {os : List Outcome} (ha : ∀ o ∈ os, Admissible casefold release repeats o)
    (hd : (os.map Outcome.key).Nodup) : os.length ≤ release.cases.length * repeats := by
  have hsub : os.map Outcome.key ⊆ (slots release.cases repeats).map fun s => (s.1.id, s.2) := by
    intro k hk
    obtain ⟨o, ho, rfl⟩ := List.mem_map.mp hk
    obtain ⟨case, hcase, -, hrep, -⟩ := ha o ho
    have hid : case.id = o.caseId := by simpa using List.find?_some hcase
    exact List.mem_map.mpr ⟨(case, o.repeatNo),
      mem_slots.mpr ⟨List.mem_of_find?_eq_some hcase, o.repeat_pos, hrep⟩, by rw [hid]; rfl⟩
  have := (List.subperm_of_subset hd hsub).length_le
  rwa [List.length_map, List.length_map, slots_length] at this

omit [IsStrictOrderedRing K] in
/-- The probes pass where every slot is assessed as safe. -/
theorem probes_pass {release : ReleaseSet} {table : Table} :
    (probes stage release table).status = .pass ↔
      ∀ v ∈ criticalSlots stage release table, v = some true := by
  unfold probes
  dsimp only
  constructor
  · intro h v hv
    split at h
    · cases h
    · next hall =>
      split at h
      · cases h
      · next hsafe =>
        have hsome := List.countP_eq_length.mp (not_not.mp hall) v hv
        obtain ⟨b, rfl⟩ := Option.isSome_iff_exists.mp hsome
        cases b with
        | true => rfl
        | false => exact absurd hv hsafe
  · intro h
    rw [if_neg, if_neg]
    · intro hmem
      cases h _ hmem
    · rw [not_not]
      refine List.countP_eq_length.mpr fun v hv => ?_
      rw [h v hv]
      rfl

omit [IsStrictOrderedRing K] in
/-- A broken outcome assesses no probe. -/
theorem probes_stays (h : LessTable table table') {release : ReleaseSet}
    (hs : (probes stage release table).status ≠ .pass) :
    (probes stage release table').status ≠ .pass := by
  intro hpass
  refine hs (probes_pass.mpr fun v hv => ?_)
  obtain ⟨s, hmem, rfl⟩ := List.mem_map.mp hv
  have hsafe := probes_pass.mp hpass _ (List.mem_map_of_mem hmem)
  rcases (h s.1.id s.2).unscored with he | hbroken
  · rwa [he] at hsafe
  · rw [criticalResult_unscored fun x hx => (hbroken x hx).1] at hsafe
    cases hsafe

omit [IsStrictOrderedRing K] in
theorem verdictOf_accepted {found : List (Result K)} :
    verdictOf found = .accepted ↔ ∀ x ∈ found, x.status = .pass := by
  unfold verdictOf
  dsimp only
  constructor
  · intro h x hx
    split at h
    · cases h
    · next hfail =>
      split at h
      · cases h
      · next hins =>
        cases hs : x.status with
        | pass => rfl
        | fail => exact absurd (hs ▸ List.mem_map_of_mem hx) hfail
        | insufficient => exact absurd (hs ▸ List.mem_map_of_mem hx) hins
  · intro h
    rw [if_neg, if_neg]
    all_goals
      intro hmem
      obtain ⟨x, hx, hs⟩ := List.mem_map.mp hmem
      rw [h x hx] at hs
      cases hs

omit [IsStrictOrderedRing K] in
theorem score_ok {casefold : Text → Text} {release : ReleaseSet} {setSha256 criteriaSha256 : Text}
    {criteria : Criteria K} {run : RunRecord} {os : List Outcome} {report : Report K}
    (h : score N casefold release setSha256 criteria criteriaSha256 run os = .ok report) :
    ∃ stage, checkOutcomes casefold release stage.repeats os = .ok os ∧
      report.results = results N stage release os ∧ report.verdict = verdictOf report.results ∧
      ∀ os', checkOutcomes casefold release stage.repeats os' = .ok os' →
        ∃ report', score N casefold release setSha256 criteria criteriaSha256 run os' = .ok report' ∧
          report'.verdict = verdictOf (results N stage release os') := by
  simp only [score, bind_ok, orRaise_ok, ensure_ok, Except.ok.injEq] at h
  obtain ⟨stage, hstage, -, hset, -, hcriteria, -, hcorpus, -, hrepeats, -, hbound, table, htable,
    rfl⟩ := h
  obtain ⟨-, -, rfl⟩ := checkOutcomes_ok.mp htable
  refine ⟨stage, htable, rfl, rfl, fun os' hos' =>
    ⟨reportOf N release criteria criteriaSha256 run stage os', ?_, rfl⟩⟩
  simp only [score, bind_ok, orRaise_ok, ensure_ok, Except.ok.injEq]
  exact ⟨stage, hstage, (), hset, (), hcriteria, (), hcorpus, (), hrepeats, (), hbound, os', hos', rfl⟩

def sampleRelease : ReleaseSet where
  manifest := ⟨.pilot, "criteria".toList, "corpus".toList, ["sme".toList]⟩
  cases := [⟨"c1".toList, "table".toList, .answer, none⟩]
  distinct := List.nodup_singleton _

def sampleRun : RunRecord := ⟨"set".toList, "criteria".toList, 1, .production, "corpus".toList⟩

/-- A refusal of the answer case. -/
def sampleRefusal : Outcome where
  caseId := "c1".toList
  repeatNo := 1
  status := .scored
  adjudicator := "sme".toList
  completed := true
  refused := true
  repeat_pos := le_refl 1

section

variable {L : Type} [Field L] [LinearOrder L] [IsStrictOrderedRing L]

theorem nineteen_twentieths : (1 : L) / 2 < 19 / 20 ∧ (19 : L) / 20 < 1 := by norm_num

/-- Criteria of one stage and one criterion. -/
def sampleCriteria (c : Criterion L) (hc : c.metric ≠ .flipRate) : Criteria L where
  registered := true
  certifyingProfiles := [.production]
  stages _ := some {
    repeats := 1, statisticalClaim := false, confidence := 19 / 20, majority := false, criteria := [c]
    repeats_pos := le_refl 1
    confidence_range := nineteen_twentieths
    criteria_ne_nil := List.cons_ne_nil _ _
    odd := nofun
    distinct := List.nodup_singleton _
    flip_repeats := fun c' hc' hflip => absurd (List.mem_singleton.mp hc' ▸ hflip) hc }
  no_standin := by decide

end

/-- At most a tenth of the answer cases are refused. -/
def fewRefusals : Criterion ℚ where
  id := "P5".toList
  metric := .falseRefusalRate
  scope := .only .answer none
  op := .le
  threshold := 1 / 10
  statistic := .point
  minN := 1
  threshold_nonneg := by norm_num
  minN_pos := le_refl 1
  needed := by rintro _ ⟨⟩; rfl
  rate_le_one := fun _ => by norm_num
  count_point := nofun
  paired := ⟨nofun, nofun⟩

/-- The score of the outcomes of the answer case. -/
def sampleVerdict (outcomes : List Outcome) : Except AcceptanceError Verdict :=
  (score ⟨id, id, id⟩ id sampleRelease "set".toList (sampleCriteria fewRefusals (by decide))
    "criteria".toList sampleRun outcomes).map Report.verdict

noncomputable def realNumerics : Numerics ℝ := ⟨Real.sqrt, fun c => c - ((2 : Nat) : ℝ)⁻¹, id⟩

theorem realNumerics_laws : realNumerics.Laws where
  sqrt_nonneg x _ := Real.sqrt_nonneg x
  mul_self_sqrt _ h := Real.mul_self_sqrt h
  invCdf_nonneg c h _ := by
    show 0 ≤ c - ((2 : Nat) : ℝ)⁻¹
    rw [Nat.cast_ofNat]
    linarith

/-- Two answer cases are asked for. -/
noncomputable def twoAnswers : Criterion ℝ where
  id := "P1".toList
  metric := .answerPass
  scope := .only .answer none
  op := .ge
  threshold := 0
  statistic := .point
  minN := 2
  threshold_nonneg := le_refl 0
  minN_pos := by decide
  needed := by rintro _ ⟨⟩; rfl
  rate_le_one := fun _ => zero_le_one
  count_point := nofun
  paired := ⟨nofun, nofun⟩

theorem three_quarters : (1 : ℝ) / 2 < ((3 : Nat) : ℝ) / ((4 : Nat) : ℝ) ∧
    ((3 : Nat) : ℝ) / ((4 : Nat) : ℝ) < 1 := by norm_num

/-- Some answer case passes. -/
noncomputable def anyAnswer : Criterion ℝ where
  id := "P1".toList
  metric := .answerPass
  scope := .only .answer none
  op := .ge
  threshold := 0
  statistic := .wilsonLower
  minN := 1
  threshold_nonneg := le_refl 0
  minN_pos := le_refl 1
  needed := by rintro _ ⟨⟩; rfl
  rate_le_one := fun _ => zero_le_one
  count_point := nofun
  paired := ⟨fun _ => rfl, nofun⟩

noncomputable def anyStage : Stage ℝ where
  repeats := 1
  statisticalClaim := false
  confidence := ((3 : Nat) : ℝ) / ((4 : Nat) : ℝ)
  majority := false
  criteria := [anyAnswer]
  repeats_pos := le_refl 1
  confidence_range := three_quarters
  criteria_ne_nil := List.cons_ne_nil _ _
  odd := nofun
  distinct := List.nodup_singleton _
  flip_repeats := fun c hc hflip => by
    rw [List.mem_singleton.mp hc] at hflip
    cases hflip

end MainframeRag.Eval.Acceptance
