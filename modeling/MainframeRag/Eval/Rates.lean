import MainframeRag.Eval.Acceptance

/-!
# Pass rates

What more passed cells do to a criterion that asks for a rate from below: nothing it loses by. The cells
carry over to the case means and the majorities, these to the value, and the value to its lower bound
(`rates_monotone`).
-/

namespace MainframeRag.Eval.Acceptance

variable {K : Type} [Field K] [LinearOrder K] [IsStrictOrderedRing K]

/-- The metrics that count passes. -/
def Metric.passRate : Metric → Bool
  | .answerPass => true
  | .abstainPass => true
  | .completionRate => true
  | .evidenceSuppliedRate => true
  | _ => false

theorem Metric.passRate_not_count {m : Metric} (h : m.passRate = true) :
    m.isCount = false ∧ m ≠ .caseCount ∧ m ≠ .flipRate := by
  cases m <;> simp_all [passRate, isCount]

/-- Every cell of the cases and repeats that the first table passes, the second passes. -/
def PassesToo (metric : Metric) (release : ReleaseSet) (repeats : Nat) (table table' : Table) : Prop :=
  ∀ case ∈ release.cases, ∀ r, 1 ≤ r → r ≤ repeats →
    cell metric case (table.get case.id r) = 1 → cell metric case (table'.get case.id r) = 1

omit [IsStrictOrderedRing K] in
/-- A cell of a rate is passed or 0, so that no cell falls. -/
theorem PassesToo.cellsLe {c : Criterion K} {release : ReleaseSet} {repeats : Nat}
    {table table' : Table} (h : PassesToo c.metric release repeats table table')
    (hm : c.metric.isCount = false) :
    CellsLe c.metric (slots (scopedCases c release) repeats) table' table := by
  intro s hs
  obtain ⟨hcase, hlow, hhigh⟩ := mem_slots.mp hs
  have hle := cell_le_one hm s.1 (table.get s.1.id s.2)
  rcases Nat.eq_zero_or_pos (cell c.metric s.1 (table.get s.1.id s.2)) with hzero | hpos
  · rw [hzero]
    exact Nat.zero_le _
  · have hone := h s.1 (List.mem_filter.mp hcase).1 s.2 hlow hhigh (by omega)
    rw [hone]
    exact hle

variable {N : Numerics K}

/-- A criterion on a pass rate from below that passes one table passes every table that passes more. -/
theorem evaluate_pass {c : Criterion K} {stage : Stage K} {release : ReleaseSet} {table table' : Table}
    (hN : N.Laws) (hop : c.op = .ge) (hm : c.metric.passRate = true)
    (h : PassesToo c.metric release stage.repeats table table')
    (hpass : (evaluate N c stage release table).status = .pass) :
    (evaluate N c stage release table').status = .pass := by
  obtain ⟨hcount, hcase, hflip⟩ := Metric.passRate_not_count hm
  by_cases hfew : c.metric ≠ .caseCount ∧ (scopedCases c release).length < c.minN
  · rw [evaluate, if_pos hfew] at hpass
    cases hpass
  · have hpos : 0 < (scopedCases c release).length :=
      c.minN_pos.trans (not_lt.mp fun hlt => hfew ⟨hcase, hlt⟩)
    rw [evaluate_status N hfew] at hpass ⊢
    have hle := bound_le hN (h.cellsLe hcount) hflip hop hpos
    split at hpass
    · next hok =>
      rw [if_pos]
      simp only [holds, hop, decide_eq_true_eq] at hok ⊢
      exact hok.trans hle
    · cases hpass

end MainframeRag.Eval.Acceptance
