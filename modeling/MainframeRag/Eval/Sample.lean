import MainframeRag.Lib.RoundRobin
import MainframeRag.Lib.Tally

/-!
# The evaluation sample

`select_sample` reads the query classes in turn, one entry of each a round, until the sample is full
or a whole round adds nothing. The sample is the beginning of one reading of all entries
(`selectSample_eq`), which makes it complete, balanced and stable (`sample_stratified`).
-/

namespace MainframeRag.Eval

open RoundRobin Tally

/-- A golden entry: the two fields that place it, and the rest of the row. -/
structure Entry (ρ : Type) where
  queryClass : String
  id : String
  row : ρ

variable {ρ : Type}

namespace Entry

/-- `(x["query_class"], x["id"])`, compared field by field. -/
def sortKey (e : Entry ρ) : Lex (String × String) := toLex (e.queryClass, e.id)

/-- The entries of a class. -/
def ofClass (entries : List (Entry ρ)) (cls : String) : List (Entry ρ) :=
  entries.filter fun e => e.queryClass = cls

end Entry

open Entry

def sortedEntries (entries : List (Entry ρ)) : List (Entry ρ) :=
  entries.mergeSort fun a b => decide (a.sortKey ≤ b.sortKey)

/-- `by_class[cls]`: the sorted entries of the class, in the order they are appended. -/
def byClass (entries : List (Entry ρ)) (cls : String) : List (Entry ρ) :=
  ofClass (sortedEntries entries) cls

def classes (entries : List (Entry ρ)) : List String := labels (entries.map Entry.queryClass)

/-- How the loop over the classes at one depth ends. -/
inductive Sweep (α : Type) where
  | full (picked : List α)
  | swept (picked : List α) (progressed : Bool)

/-- The loop over the classes at one depth. -/
def sweep (maxQueries depth : Nat) {α : Type} : List (List α) → List α → Bool → Sweep α
  | [], picked, progressed => .swept picked progressed
  | rows :: rest, picked, progressed =>
    match rows[depth]? with
    | none => sweep maxQueries depth rest picked progressed
    | some e =>
      if (picked ++ [e]).length ≥ maxQueries then .full (picked ++ [e])
      else sweep maxQueries depth rest (picked ++ [e]) true

/-- The loop over the depths; `none` where the rounds given do not reach its end. -/
def sampleFrom (maxQueries : Nat) {α : Type} (cols : List (List α)) :
    Nat → List α → Nat → Option (List α)
  | 0, _, _ => none
  | fuel + 1, picked, depth =>
    if picked.length < maxQueries then
      match sweep maxQueries depth cols picked false with
      | .full picked => some picked
      | .swept picked false => some picked
      | .swept picked true => sampleFrom maxQueries cols fuel picked (depth + 1)
    else some picked

/-- `select_sample`: every round but the last adds an entry, so one round more than the sample is
large is enough. -/
def selectSample (entries : List (Entry ρ)) (maxQueries : Nat) : Option (List (Entry ρ)) :=
  sampleFrom maxQueries ((classes entries).map (byClass entries)) (maxQueries + 1) [] 0

/-! ## One round -/

section

variable {α : Type} {maxQueries depth : Nat}

/-- A round adds its row, as far as the sample has room. -/
theorem sweep_eq (cols : List (List α)) {picked : List α} (progressed : Bool)
    (hroom : picked.length < maxQueries) :
    sweep maxQueries depth cols picked progressed =
      if maxQueries ≤ (picked ++ row cols depth).length then
        .full ((picked ++ row cols depth).take maxQueries)
      else .swept (picked ++ row cols depth) (progressed || !(row cols depth).isEmpty) := by
  induction cols generalizing picked progressed with
  | nil => simp [sweep, Nat.not_le.mpr hroom]
  | cons rows cols ih =>
    rw [row_cons, sweep]
    cases rows[depth]? with
    | none => simpa using ih progressed hroom
    | some e =>
      have hcons : picked ++ ((some e).toList ++ RoundRobin.row cols depth) =
          picked ++ [e] ++ RoundRobin.row cols depth := (List.append_assoc ..).symm
      have hne : ((some e).toList ++ RoundRobin.row cols depth).isEmpty = false := rfl
      simp only [hcons, hne, ge_iff_le]
      by_cases hfull : maxQueries ≤ (picked ++ [e]).length
      · have hlen : (picked ++ [e]).length = maxQueries := by
          rw [List.length_append, List.length_singleton] at hfull ⊢
          omega
        have hmore : maxQueries ≤ (picked ++ [e] ++ RoundRobin.row cols depth).length := by
          rw [List.length_append]
          omega
        rw [if_pos hfull, if_pos hmore, List.take_append_of_le_length hlen.ge,
          List.take_of_length_le hlen.le]
      · rw [if_neg hfull, ih true (by omega)]
        simp

/-- Every round that goes on adds an entry, so the loop ends; what it has picked is the beginning of
the rows. -/
theorem sampleFrom_eq (cols : List (List α)) {fuel picked} (hpicked : picked = rounds cols depth)
    (hroom : picked.length ≤ maxQueries) (hfuel : maxQueries < fuel + picked.length) :
    ∃ n, (maxQueries ≤ (rounds cols n).length ∨ row cols n = []) ∧
      sampleFrom maxQueries cols fuel picked depth = some ((rounds cols n).take maxQueries) := by
  induction fuel generalizing picked depth with
  | zero => omega
  | succ fuel ih =>
    rw [sampleFrom]
    by_cases hlt : picked.length < maxQueries
    · rw [if_pos hlt, sweep_eq cols false hlt, hpicked, ← rounds_succ, Bool.false_or]
      by_cases hfull : maxQueries ≤ (rounds cols (depth + 1)).length
      · rw [if_pos hfull]
        exact ⟨depth + 1, .inl hfull, rfl⟩
      · rw [if_neg hfull]
        have hle : (rounds cols (depth + 1)).length ≤ maxQueries := by omega
        cases hrow : (row cols depth).isEmpty with
        | true =>
          rw [List.isEmpty_iff] at hrow
          have hnext : rounds cols (depth + 1) = rounds cols depth :=
            rounds_stop hrow (Nat.le_succ depth)
          rw [hnext] at hle ⊢
          exact ⟨depth, .inr hrow, by rw [List.take_of_length_le hle]; rfl⟩
        | false =>
          have hpos : 0 < (row cols depth).length := by
            rw [List.length_pos_iff]
            rintro h
            rw [h] at hrow
            cases hrow
          refine ih rfl hle ?_
          rw [rounds_succ, List.length_append, ← hpicked]
          omega
    · rw [if_neg hlt]
      refine ⟨depth, .inl (by rw [← hpicked]; omega), ?_⟩
      rw [← hpicked, List.take_of_length_le hroom]

end

/-! ## The reading of all entries -/

/-- Every entry, in the order in which the rounds reach it. -/
def reading (entries : List (Entry ρ)) : List (Entry ρ) :=
  rounds ((classes entries).map (byClass entries)) entries.length

theorem sortedEntries_perm (entries : List (Entry ρ)) : (sortedEntries entries).Perm entries :=
  List.mergeSort_perm _ _

theorem byClass_length_le (entries : List (Entry ρ)) (cls : String) :
    (byClass entries cls).length ≤ entries.length :=
  (List.length_filter_le _ _).trans (sortedEntries_perm entries).length_eq.le

theorem row_reading (entries : List (Entry ρ)) :
    row ((classes entries).map (byClass entries)) entries.length = [] := by
  rw [row_eq_nil_iff]
  intro c hc
  obtain ⟨cls, -, rfl⟩ := List.mem_map.mp hc
  exact byClass_length_le entries cls

/-- The sample is the beginning of the reading. -/
theorem selectSample_eq (entries : List (Entry ρ)) (maxQueries : Nat) :
    selectSample entries maxQueries = some ((reading entries).take maxQueries) := by
  let cols := (classes entries).map (byClass entries)
  obtain ⟨n, hn, hrun⟩ : ∃ n, (maxQueries ≤ (rounds cols n).length ∨ row cols n = []) ∧
      sampleFrom maxQueries cols (maxQueries + 1) [] 0 = some ((rounds cols n).take maxQueries) :=
    sampleFrom_eq cols rfl (Nat.zero_le _) (by simp)
  rw [selectSample, hrun]
  congr 1
  rcases Nat.le_total n entries.length with hle | hle
  · rcases hn with hn | hn
    · obtain ⟨t, ht⟩ := rounds_prefix cols hle
      rw [reading, ← ht, List.take_append_of_le_length hn]
    · rw [reading, rounds_stop hn hle]
  · rw [reading, rounds_stop (row_reading entries) hle]

theorem queryClass_of_mem_byClass {entries : List (Entry ρ)} (cls : String) :
    ∀ e ∈ byClass entries cls, e.queryClass = cls := by
  intro e he
  simpa using (List.mem_filter.mp he).2

theorem mem_classes {entries : List (Entry ρ)} {cls : String} :
    cls ∈ classes entries ↔ ∃ e ∈ entries, e.queryClass = cls := by
  simp [classes]

/-- The reading loses and repeats nothing. -/
theorem reading_perm (entries : List (Entry ρ)) : (reading entries).Perm entries := by
  refine (rounds_perm (row_reading entries)).trans ?_
  refine List.Perm.trans ?_ (sortedEntries_perm entries)
  refine flatten_filter_perm (labels_nodup _) fun e he => ?_
  exact mem_classes.mpr ⟨e, (sortedEntries_perm entries).mem_iff.mp he, rfl⟩

theorem sample_begins (entries : List (Entry ρ)) (maxQueries : Nat) :
    (reading entries).take maxQueries <+: reading entries := List.take_prefix _ _

/-- No class is more than one entry ahead of another that is not used up. -/
theorem sample_balanced (entries : List (Entry ρ)) (maxQueries : Nat) (c d : String) :
    (ofClass ((reading entries).take maxQueries) d).length ≤
        (ofClass ((reading entries).take maxQueries) c).length + 1 ∨
      (ofClass entries c).length ≤ (ofClass ((reading entries).take maxQueries) c).length := by
  have hperm : ∀ cls, (ofClass entries cls).length = (byClass entries cls).length := fun cls =>
    ((sortedEntries_perm entries).filter _).length_eq.symm
  by_cases hc : c ∈ classes entries
  · by_cases hd : d ∈ classes entries
    · rw [hperm c]
      exact balanced queryClass_of_mem_byClass (labels_nodup _) (sample_begins entries maxQueries) hc hd
    · left
      have hnone : ofClass ((reading entries).take maxQueries) d = [] := by
        refine List.filter_eq_nil_iff.mpr fun e he => ?_
        rw [decide_eq_true_eq]
        exact fun h => hd (mem_classes.mpr
          ⟨e, (reading_perm entries).mem_iff.mp (List.mem_of_mem_take he), h⟩)
      rw [hnone]
      exact Nat.zero_le _
  · right
    have hnone : ofClass entries c = [] := by
      refine List.filter_eq_nil_iff.mpr fun e he => ?_
      rw [decide_eq_true_eq]
      exact fun h => hc (mem_classes.mpr ⟨e, he, h⟩)
    rw [hnone]
    exact Nat.zero_le _

/-! ## Distinct entries -/

/-- No two entries share class and id. -/
def Distinct (entries : List (Entry ρ)) : Prop := (entries.map Entry.sortKey).Nodup

namespace Distinct

variable {entries : List (Entry ρ)} (h : Distinct entries)
include h

theorem eq_of_key : ∀ a ∈ entries, ∀ b ∈ entries, a.sortKey = b.sortKey → a = b :=
  fun _ ha _ hb hab => List.inj_on_of_nodup_map h ha hb hab

/-- The order of the input does not matter. -/
theorem reading_eq {other : List (Entry ρ)} (hperm : other.Perm entries) :
    reading other = reading entries := by
  have hsort : sortedEntries other = sortedEntries entries :=
    (mergeSort_key_eq hperm.symm h.eq_of_key).symm
  have hclasses : classes other = classes entries := labels_eq (hperm.map _)
  have hby : byClass other = byClass entries := by
    funext cls
    rw [byClass, byClass, hsort]
  rw [reading, reading, hclasses, hby, hperm.length_eq]

/-- The entries of a class, by id. -/
theorem byClass_eq (cls : String) :
    byClass entries cls = (ofClass entries cls).mergeSort fun a b => decide (a.id ≤ b.id) := by
  have hperm : (byClass entries cls).Perm (ofClass entries cls) := (sortedEntries_perm entries).filter _
  have hmem : ∀ e ∈ byClass entries cls, e ∈ entries := fun e he =>
    (List.mem_filter.mp (hperm.mem_iff.mp he)).1
  have hkey : ∀ a ∈ byClass entries cls, ∀ b ∈ byClass entries cls, a.id = b.id → a = b := by
    intro a ha b hb hab
    refine h.eq_of_key a (hmem a ha) b (hmem b hb) ?_
    rw [sortKey, sortKey, queryClass_of_mem_byClass cls a ha, queryClass_of_mem_byClass cls b hb, hab]
  have hsorted : (byClass entries cls).Pairwise fun a b => decide (a.id ≤ b.id) = true := by
    have hall : (sortedEntries entries).Pairwise fun a b => decide (a.sortKey ≤ b.sortKey) = true := by
      refine List.pairwise_mergeSort ?_ ?_ entries
      · intro a b c hab hbc
        rw [decide_eq_true_eq] at hab hbc ⊢
        exact hab.trans hbc
      · intro a b
        simpa using le_total a.sortKey b.sortKey
    refine (hall.filter _).imp_of_mem fun ha hb hab => ?_
    rw [decide_eq_true_eq] at hab ⊢
    rcases Prod.Lex.le_iff.mp hab with hlt | ⟨-, hle⟩
    · have heq := (queryClass_of_mem_byClass cls _ ha).trans (queryClass_of_mem_byClass cls _ hb).symm
      exact absurd heq hlt.ne
    · exact hle
  rw [← mergeSort_key_eq hperm hkey, List.mergeSort_of_pairwise hsorted]

/-- Of each class, the sample holds the first entries by id. -/
theorem ofClass_prefix (maxQueries : Nat) (cls : String) :
    ofClass ((reading entries).take maxQueries) cls <+:
      (ofClass entries cls).mergeSort fun a b => decide (a.id ≤ b.id) := by
  rw [← h.byClass_eq]
  by_cases hcls : cls ∈ classes entries
  · refine ((sample_begins entries maxQueries).filter _).trans ?_
    have htake : ofClass (reading entries) cls = (byClass entries cls).take entries.length :=
      filter_rounds queryClass_of_mem_byClass (labels_nodup _) hcls entries.length
    change ofClass (reading entries) cls <+: _
    rw [htake]
    exact List.take_prefix _ _
  · have hnone : ofClass ((reading entries).take maxQueries) cls = [] := by
      refine List.filter_eq_nil_iff.mpr fun e he => ?_
      rw [decide_eq_true_eq]
      exact fun he' => hcls (mem_classes.mpr
        ⟨e, (reading_perm entries).mem_iff.mp (List.mem_of_mem_take he), he'⟩)
    rw [hnone]
    exact List.nil_prefix

end Distinct

/-- The sample is as large as asked for or as there are entries, distinct, balanced over the classes,
the first of each class by id, a beginning of every larger sample and the same for every order of
the input. -/
theorem sample_stratified (entries : List (Entry ρ)) (maxQueries : Nat) (hd : Distinct entries) :
    ∃ picked, selectSample entries maxQueries = some picked ∧
      picked.length = min maxQueries entries.length ∧ picked.Nodup ∧ (∀ e ∈ picked, e ∈ entries) ∧
      (∀ c d, (ofClass picked c).length < (ofClass picked d).length →
        (ofClass picked d).length ≤ (ofClass picked c).length + 1 ∨
          ∀ e ∈ ofClass entries c, e ∈ picked) ∧
      (∀ c, ofClass picked c <+: (ofClass entries c).mergeSort fun a b => decide (a.id ≤ b.id)) ∧
      (∃ more, selectSample entries (maxQueries + 1) = some more ∧ picked <+: more) ∧
      ∀ other : List (Entry ρ), other.Perm entries → selectSample other maxQueries = some picked := by
  have hperm := reading_perm entries
  refine ⟨(reading entries).take maxQueries, selectSample_eq entries maxQueries, ?_, ?_, ?_, ?_,
    hd.ofClass_prefix maxQueries, ⟨_, selectSample_eq entries (maxQueries + 1), ?_⟩, ?_⟩
  · rw [List.length_take, hperm.length_eq]
  · exact (hperm.nodup_iff.mpr (List.Nodup.of_map _ hd)).sublist (List.take_sublist _ _)
  · exact fun e he => hperm.mem_iff.mp (List.mem_of_mem_take he)
  · intro c d _
    rcases sample_balanced entries maxQueries c d with hle | hall
    · exact .inl hle
    · right
      intro e he
      have hpre := hd.ofClass_prefix maxQueries c
      have hsort := List.mergeSort_perm (ofClass entries c) fun a b => decide (a.id ≤ b.id)
      have heq := hpre.eq_of_length_le (hsort.length_eq.le.trans hall)
      exact (List.mem_filter.mp (heq ▸ hsort.mem_iff.mpr he)).1
  · exact List.take_prefix_take_left (Nat.le_succ maxQueries)
  · intro other hother
    rw [selectSample_eq, hd.reading_eq hother]

def goldenEntries : List (Entry Nat) := [⟨"trap", "t-1", 5⟩, ⟨"lookup", "l-2", 7⟩, ⟨"lookup", "l-1", 9⟩]

theorem sample_stratified_golden :
    ∃ picked, selectSample goldenEntries 2 = some picked ∧ picked.length = 2 ∧
      ∀ other : List (Entry Nat), other.Perm goldenEntries → selectSample other 2 = some picked := by
  have hdistinct : Distinct goldenEntries := by
    unfold Distinct
    decide +kernel
  obtain ⟨picked, hrun, hlen, -, -, -, -, -, hall⟩ := sample_stratified goldenEntries 2 hdistinct
  exact ⟨picked, hrun, hlen, hall⟩

end MainframeRag.Eval
