import Mathlib

/-!
# Round robin

Columns of different depth are read row by row: `row cols d` is what stands at depth `d`, column by
column, and `rounds cols n` the first `n` rows. Reading every row loses and repeats nothing
(`rounds_perm`), takes every column in its own order (`filter_rounds`), and at any point no column
is more than one element ahead of another that is not used up (`balanced`).
-/

namespace MainframeRag.RoundRobin

variable {α κ : Type}

/-- What stands at a depth, column by column. -/
def row (cols : List (List α)) (d : Nat) : List α := cols.filterMap fun col => col[d]?

/-- The rows above a depth, one after the other. -/
def rounds (cols : List (List α)) (n : Nat) : List α := (List.range n).flatMap (row cols)

@[simp] theorem row_nil (d : Nat) : row ([] : List (List α)) d = [] := rfl

theorem row_cons (col : List α) (cols : List (List α)) (d : Nat) :
    row (col :: cols) d = col[d]?.toList ++ row cols d := by
  unfold row
  rw [List.filterMap_cons]
  cases col[d]? <;> rfl

@[simp] theorem rounds_zero (cols : List (List α)) : rounds cols 0 = [] := rfl

theorem rounds_succ (cols : List (List α)) (n : Nat) :
    rounds cols (n + 1) = rounds cols n ++ row cols n := by
  unfold rounds
  rw [List.range_succ, List.flatMap_append, List.flatMap_singleton]

/-- A column that is used up at a depth stays so. -/
theorem row_eq_nil_iff {cols : List (List α)} {d : Nat} :
    row cols d = [] ↔ ∀ c ∈ cols, c.length ≤ d := by
  induction cols with
  | nil => simp
  | cons col cols ih =>
    rw [row_cons, List.append_eq_nil_iff, ih, List.forall_mem_cons, Option.toList_eq_nil_iff,
      List.getElem?_eq_none_iff]

theorem rounds_stop {cols : List (List α)} {n m : Nat} (h : row cols n = []) (hm : n ≤ m) :
    rounds cols m = rounds cols n := by
  induction m, hm using Nat.le_induction with
  | base => rfl
  | succ m hm ih =>
    have hrow : row cols m = [] := by
      rw [row_eq_nil_iff] at h ⊢
      exact fun c hc => (h c hc).trans hm
    rw [rounds_succ, hrow, List.append_nil, ih]

theorem rounds_prefix (cols : List (List α)) {n m : Nat} (h : n ≤ m) :
    rounds cols n <+: rounds cols m := by
  induction m, h using Nat.le_induction with
  | base => exact List.prefix_rfl
  | succ m _ ih =>
    rw [rounds_succ]
    exact List.prefix_append_of_prefix ih

theorem rounds_take (col : List α) (n : Nat) : (List.range n).flatMap (fun d => col[d]?.toList) = col.take n := by
  induction n with
  | zero => rfl
  | succ n ih => rw [List.range_succ, List.flatMap_append, List.flatMap_singleton, ih, List.take_add_one]

/-- Reading rows takes the top of every column. -/
theorem rounds_perm_take (cols : List (List α)) (n : Nat) :
    (rounds cols n).Perm (cols.map (List.take n)).flatten := by
  induction cols with
  | nil => simp [rounds]
  | cons col cols ih =>
    have hcols : row (col :: cols) = fun d => col[d]?.toList ++ row cols d := funext (row_cons col cols)
    rw [rounds, hcols]
    refine (List.flatMap_append_perm _ _ _).symm.trans ?_
    rw [rounds_take, List.map_cons, List.flatten_cons]
    exact ih.append_left _

/-- Reading every row loses and repeats nothing. -/
theorem rounds_perm {cols : List (List α)} {n : Nat} (h : row cols n = []) :
    (rounds cols n).Perm cols.flatten := by
  refine (rounds_perm_take cols n).trans (List.Perm.of_eq ?_)
  congr 1
  rw [row_eq_nil_iff] at h
  conv_rhs => rw [← List.map_id cols]
  exact List.map_congr_left fun c hc => List.take_of_length_le (h c hc)

/-- A beginning of the rows is some whole rows and a beginning of the next. -/
theorem prefix_cases {cols : List (List α)} {n : Nat} {p : List α} (h : p <+: rounds cols n) :
    ∃ d q, q <+: row cols d ∧ p = rounds cols d ++ q := by
  induction n with
  | zero => exact ⟨0, [], List.nil_prefix, by simpa using h⟩
  | succ n ih =>
    rw [rounds_succ] at h
    by_cases hlen : p.length ≤ (rounds cols n).length
    · exact ih (List.prefix_of_prefix_length_le h (List.prefix_append _ _) hlen)
    · obtain ⟨q, rfl⟩ := List.prefix_of_prefix_length_le (List.prefix_append _ _) h (by omega)
      exact ⟨n, q, (List.prefix_append_right_inj _).mp h, rfl⟩

/-! ## Columns of a key -/

section

variable [DecidableEq κ] {key : α → κ} {f : κ → List α} {ks : List κ}

/-- A row holds one element of each column that reaches it. -/
theorem filter_row (hkey : ∀ k, ∀ x ∈ f k, key x = k) (hks : ks.Nodup) (k : κ) (d : Nat) :
    (row (ks.map f) d).filter (fun x => key x = k) = if k ∈ ks then (f k)[d]?.toList else [] := by
  induction ks with
  | nil => rfl
  | cons j ks ih =>
    rw [List.nodup_cons] at hks
    rw [List.map_cons, row_cons, List.filter_append, ih hks.2]
    have hhead : ((f j)[d]?.toList).filter (fun x => key x = k) =
        if j = k then (f j)[d]?.toList else [] := by
      cases hx : (f j)[d]? with
      | none => simp
      | some x =>
        have hxj := hkey j x (List.mem_of_getElem? hx)
        simp only [Option.toList_some, List.filter_cons, hxj, List.filter_nil, decide_eq_true_eq]
    rw [hhead]
    by_cases hjk : j = k
    · subst hjk
      simp [hks.1]
    · simp [hjk, Ne.symm hjk]

/-- Rows take every column in its own order. -/
theorem filter_rounds (hkey : ∀ k, ∀ x ∈ f k, key x = k) (hks : ks.Nodup) {k : κ} (hk : k ∈ ks)
    (n : Nat) : (rounds (ks.map f) n).filter (fun x => key x = k) = (f k).take n := by
  rw [rounds, List.filter_flatMap, ← rounds_take]
  congr 1
  funext d
  rw [filter_row hkey hks, if_pos hk]

/-- How far each column is read at a point of the reading: one more than the whole rows at most, and
the whole rows or the whole column at least. -/
theorem filter_prefix (hkey : ∀ k, ∀ x ∈ f k, key x = k) (hks : ks.Nodup) {n : Nat} {p : List α}
    (hp : p <+: rounds (ks.map f) n) :
    ∃ d, ∀ k ∈ ks, (p.filter fun x => key x = k).length ≤ d + 1 ∧
      min d (f k).length ≤ (p.filter fun x => key x = k).length := by
  obtain ⟨d, q, hq, rfl⟩ := prefix_cases hp
  refine ⟨d, fun k hk => ?_⟩
  have hrow : (q.filter fun x => key x = k).length ≤ 1 := by
    have hle := (hq.filter fun x => key x = k).length_le
    rw [filter_row hkey hks, if_pos hk] at hle
    refine hle.trans ?_
    cases (f k)[d]? <;> simp
  rw [List.filter_append, List.length_append, filter_rounds hkey hks hk, List.length_take]
  omega

/-- No column is two ahead of another, unless that one is used up. -/
theorem balanced (hkey : ∀ k, ∀ x ∈ f k, key x = k) (hks : ks.Nodup) {n : Nat} {p : List α}
    (hp : p <+: rounds (ks.map f) n) {j k : κ} (hj : j ∈ ks) (hk : k ∈ ks) :
    (p.filter fun x => key x = k).length ≤ (p.filter fun x => key x = j).length + 1 ∨
      (f j).length ≤ (p.filter fun x => key x = j).length := by
  obtain ⟨d, hd⟩ := filter_prefix hkey hks hp
  have h1 := (hd k hk).1
  have h2 := (hd j hj).2
  omega

end

end MainframeRag.RoundRobin
