import Mathlib.Data.Finset.Basic
import Mathlib.Data.Finset.Card
import Mathlib.Data.Finset.Max
import Mathlib.Data.Fintype.Card
import Mathlib.Logic.Relation
import Mathlib.Tactic.Common

/-!
# Peeling runs off a graph

A worklist takes an element off a set, grows a run from it along a relation that need not be
symmetric, and keeps the runs that are good; in which order elements leave the set and the worklist
is open. A run is what is reachable and left (`Grow.run_eq`), and the result does not depend on the
order exactly when a good run only reaches strongly connected parts that are good
(`sweep_unique_iff`).
-/

namespace MainframeRag.Peeling

variable {α : Type} [DecidableEq α] (R : α → α → Prop) [DecidableRel R]

def neighbours (key : α) (remaining : Finset α) : Finset α := remaining.filter (R key)

/-- Growing a run: any pending element may be popped, and its neighbours leave what remains and are
put behind the pending ones in any order. -/
inductive Grow : Finset α → List α → Finset α → Finset α → Finset α → Prop
  | done (remaining run : Finset α) : Grow remaining [] run remaining run
  | pop {remaining run remaining' run' : Finset α} {pending rest new : List α} {key : α}
      (picked : pending.Perm (key :: rest)) (nodup : new.Nodup)
      (found : new.toFinset = neighbours R key remaining)
      (next : Grow (remaining \ neighbours R key remaining) (rest ++ new)
        (run ∪ neighbours R key remaining) remaining' run') :
      Grow remaining pending run remaining' run'

variable (Good : Finset α → Prop) [DecidablePred Good]

/-- The sweep over what remains: any element may start the next run. -/
inductive Sweep : Finset α → Finset α → Finset α → Prop
  | done (accepted : Finset α) : Sweep ∅ accepted accepted
  | pop {remaining remaining' run accepted final : Finset α} {root : α} (member : root ∈ remaining)
      (grown : Grow R (remaining.erase root) [root] {root} remaining' run)
      (next : Sweep remaining' (if Good run then accepted ∪ run else accepted) final) :
      Sweep remaining accepted final

/-- `b` can be reached from `a` by steps into `nodes`. -/
def Reaches (nodes : Finset α) : α → α → Prop := Relation.ReflTransGen fun a b => R a b ∧ b ∈ nodes

/-- No step leads from the nodes that are gone to those that remain. -/
def Cut (nodes remaining : Finset α) : Prop :=
  ∀ a ∈ nodes, a ∉ remaining → ∀ b ∈ remaining, ¬ R a b

variable {R Good}

/-! ## One run -/

/-- What grows is taken from what remains, and steps from what was pending or taken stay in it. -/
theorem Grow.closed {remaining run remaining' run' : Finset α} {pending : List α}
    (h : Grow R remaining pending run remaining' run') :
    remaining' ⊆ remaining ∧ run' = run ∪ (remaining \ remaining') ∧
      ∀ a, a ∈ pending ∨ a ∈ remaining \ remaining' → ∀ b ∈ remaining, R a b →
        b ∈ remaining \ remaining' := by
  induction h with
  | done remaining run => simp
  | @pop remaining run remaining' run' pending rest new key picked nodup found next ih =>
    obtain ⟨hsub, hrun, hclosed⟩ := ih
    have hle : remaining' ⊆ remaining := hsub.trans Finset.sdiff_subset
    have htaken : ∀ b ∈ neighbours R key remaining, b ∈ remaining \ remaining' := fun b hb =>
      Finset.mem_sdiff.mpr ⟨(Finset.mem_filter.mp hb).1, fun hin =>
        (Finset.mem_sdiff.mp (hsub hin)).2 hb⟩
    have hrest : ∀ a, a ∈ rest ++ new ∨ a ∈ (remaining \ neighbours R key remaining) \ remaining' →
        ∀ b ∈ remaining, R a b → b ∈ remaining \ remaining' := fun a ha b hb hab => by
      by_cases hn : b ∈ neighbours R key remaining
      · exact htaken b hn
      · have hmem := hclosed a ha b (Finset.mem_sdiff.mpr ⟨hb, hn⟩) hab
        exact Finset.mem_sdiff.mpr ⟨hb, (Finset.mem_sdiff.mp hmem).2⟩
    refine ⟨hle, ?_, fun a ha b hb hab => ?_⟩
    · rw [hrun, Finset.union_assoc]
      congr 1
      ext b
      have hnew := htaken b
      simp only [Finset.mem_union, Finset.mem_sdiff] at hnew ⊢
      tauto
    · rcases ha with ha | ha
      · rcases List.mem_cons.mp (picked.mem_iff.mp ha) with rfl | ha
        · exact htaken b (Finset.mem_filter.mpr ⟨hb, hab⟩)
        · exact hrest a (.inl (List.mem_append_left _ ha)) b hb hab
      · by_cases hn : a ∈ neighbours R key remaining
        · have hnew : a ∈ new := List.mem_toFinset.mp (found ▸ hn)
          exact hrest a (.inl (List.mem_append_right _ hnew)) b hb hab
        · obtain ⟨hin, hout⟩ := Finset.mem_sdiff.mp ha
          exact hrest a (.inr (Finset.mem_sdiff.mpr ⟨Finset.mem_sdiff.mpr ⟨hin, hn⟩, hout⟩)) b hb hab

/-- Only what can be reached is taken. -/
theorem Grow.within {remaining run remaining' run' : Finset α} {pending : List α}
    (h : Grow R remaining pending run remaining' run') {T : α → Prop}
    (hpending : ∀ a ∈ pending, T a) (hstep : ∀ a b, T a → b ∈ remaining → R a b → T b) :
    ∀ b ∈ remaining \ remaining', T b := by
  induction h with
  | done remaining run => simp
  | @pop remaining run remaining' run' pending rest new key picked nodup found next ih =>
    have hnew : ∀ b ∈ neighbours R key remaining, T b := fun b hb =>
      hstep key b (hpending key (picked.mem_iff.mpr List.mem_cons_self)) (Finset.mem_filter.mp hb).1
        (Finset.mem_filter.mp hb).2
    have hlater := ih (fun a ha => (List.mem_append.mp ha).elim
      (fun ha => hpending a (picked.mem_iff.mpr (List.mem_cons_of_mem _ ha)))
      fun ha => hnew a (by rw [← found]; exact List.mem_toFinset.mpr ha))
      fun a b ha hb hab => hstep a b ha (Finset.mem_sdiff.mp hb).1 hab
    intro b hb
    by_cases hn : b ∈ neighbours R key remaining
    · exact hnew b hn
    · obtain ⟨hin, hout⟩ := Finset.mem_sdiff.mp hb
      exact hlater b (Finset.mem_sdiff.mpr ⟨Finset.mem_sdiff.mpr ⟨hin, hn⟩, hout⟩)

theorem exists_grow (remaining : Finset α) (pending : List α) (run : Finset α) :
    ∃ remaining' run', Grow R remaining pending run remaining' run' := by
  induction hn : remaining.card + pending.length using Nat.strong_induction_on
    generalizing remaining pending run with
  | _ n ih =>
    subst hn
    cases pending with
    | nil => exact ⟨_, _, .done remaining run⟩
    | cons key rest =>
      have hcard : (remaining \ neighbours R key remaining).card +
          (neighbours R key remaining).toList.length = remaining.card := by
        rw [Finset.length_toList]
        exact Finset.card_sdiff_add_card_eq_card (Finset.filter_subset _ _)
      obtain ⟨remaining', run', h⟩ := ih _
        (by simp only [List.length_append, List.length_cons]; omega)
        (remaining \ neighbours R key remaining) (rest ++ (neighbours R key remaining).toList)
        (run ∪ neighbours R key remaining) rfl
      exact ⟨remaining', run', .pop (.refl _) (Finset.nodup_toList _) (Finset.toList_toFinset _) h⟩

/-- A run from a root is what the root reaches of what remains. -/
theorem Grow.run_eq {nodes remaining remaining' run : Finset α} {root : α}
    (h : Grow R (remaining.erase root) [root] {root} remaining' run) (hcut : Cut R nodes remaining)
    (hsub : remaining ⊆ nodes) (hroot : root ∈ remaining) :
    (∀ b, b ∈ run ↔ b ∈ remaining ∧ Reaches R nodes root b) ∧ remaining' ⊆ remaining ∧
      (∀ b, b ∈ remaining' ↔ b ∈ remaining ∧ b ∉ run) ∧ Cut R nodes remaining' := by
  obtain ⟨hle, hrun, hclosed⟩ := h.closed
  have hmem : ∀ b, b ∈ run ↔ b = root ∨ b ∈ remaining.erase root \ remaining' := fun b => by
    rw [hrun, Finset.mem_union, Finset.mem_singleton]
  have hstep : ∀ a ∈ run, ∀ b ∈ remaining, R a b → b ∈ run := fun a ha b hb hab => by
    by_cases hbr : b = root
    · exact (hmem b).mpr (.inl hbr)
    · refine (hmem b).mpr (.inr (hclosed a ?_ b (Finset.mem_erase.mpr ⟨hbr, hb⟩) hab))
      exact ((hmem a).mp ha).imp_left fun ha => List.mem_singleton.mpr ha
  have hreach : ∀ b, Reaches R nodes root b → b ∈ nodes ∧ (b ∈ remaining → b ∈ run) := by
    intro b hb
    induction hb with
    | refl => exact ⟨hsub hroot, fun _ => (hmem root).mpr (.inl rfl)⟩
    | @tail a b _ hab ih =>
      refine ⟨hab.2, fun hb => hstep a (ih.2 ?_) b hb hab.1⟩
      -- what is gone leads nowhere that remains
      by_contra hgone
      exact hcut a ih.1 hgone b hb hab.1
  have hin : ∀ b ∈ run, b ∈ remaining ∧ Reaches R nodes root b := fun b hb => by
    rcases (hmem b).mp hb with rfl | hb
    · exact ⟨hroot, .refl⟩
    · have hb' := Finset.mem_of_mem_erase (Finset.mem_sdiff.mp hb).1
      refine ⟨hb', h.within (T := Reaches R nodes root) (fun a ha => ?_)
        (fun a c ha hc hac => ?_) b hb⟩
      · rw [List.mem_singleton.mp ha]
        exact .refl
      · exact ha.tail ⟨hac, hsub (Finset.mem_of_mem_erase hc)⟩
  have hout : ∀ b, b ∈ remaining' ↔ b ∈ remaining ∧ b ∉ run := fun b => by
    rw [hmem]
    constructor
    · intro hb
      have herase := Finset.mem_erase.mp (hle hb)
      exact ⟨herase.2, fun hor => hor.elim herase.1 fun hb' => (Finset.mem_sdiff.mp hb').2 hb⟩
    · rintro ⟨hb, hnot⟩
      obtain ⟨hne, hnot⟩ := not_or.mp hnot
      by_contra hgone
      exact hnot (Finset.mem_sdiff.mpr ⟨Finset.mem_erase.mpr ⟨hne, hb⟩, hgone⟩)
  refine ⟨fun b => ⟨hin b, fun hb => (hreach b hb.2).2 hb.1⟩,
    fun b hb => ((hout b).mp hb).1, hout, fun a ha hgone b hb hab => ?_⟩
  obtain ⟨hbr, hbrun⟩ := (hout b).mp hb
  by_cases har : a ∈ remaining
  · have harun : a ∈ run := by
      by_contra hnot
      exact hgone ((hout a).mpr ⟨har, hnot⟩)
    exact hbrun (hstep a harun b hbr hab)
  · exact hcut a ha har b hbr hab

/-! ## The whole sweep -/

/-- What a node reaches. -/
noncomputable def reach (R : α → α → Prop) (nodes : Finset α) (a : α) : Finset α :=
  @Finset.filter α (Reaches R nodes a) (Classical.decPred _) nodes

/-- The strongly connected part of a node. -/
noncomputable def part (R : α → α → Prop) (nodes : Finset α) (a : α) : Finset α :=
  @Finset.filter α (fun b => Reaches R nodes a b ∧ Reaches R nodes b a) (Classical.decPred _) nodes

variable {nodes : Finset α}

omit [DecidableEq α] [DecidableRel R] in
theorem mem_reach {a b : α} : b ∈ reach R nodes a ↔ b ∈ nodes ∧ Reaches R nodes a b := by
  unfold reach
  exact @Finset.mem_filter _ _ (Classical.decPred _) _ _

omit [DecidableEq α] [DecidableRel R] in
theorem mem_part {a b : α} :
    b ∈ part R nodes a ↔ b ∈ nodes ∧ Reaches R nodes a b ∧ Reaches R nodes b a := by
  unfold part
  exact @Finset.mem_filter _ _ (Classical.decPred _) _ _

omit [DecidableEq α] [DecidableRel R] in
theorem part_eq {a b : α} (hab : Reaches R nodes a b) (hba : Reaches R nodes b a) :
    part R nodes a = part R nodes b := by
  ext c
  rw [mem_part, mem_part]
  exact ⟨fun h => ⟨h.1, hba.trans h.2.1, h.2.2.trans hab⟩,
    fun h => ⟨h.1, hab.trans h.2.1, h.2.2.trans hba⟩⟩

omit [DecidableEq α] [DecidableRel R] in
theorem Cut.refl (R : α → α → Prop) (nodes : Finset α) : Cut R nodes nodes :=
  fun _ ha hgone => absurd ha hgone

omit [DecidableEq α] [DecidableRel R] in
/-- What reaches a node that remains, remains. -/
theorem Cut.reaches {remaining : Finset α} (hcut : Cut R nodes remaining) {a b : α}
    (h : Reaches R nodes a b) (ha : a ∈ nodes) (hb : b ∈ remaining) : a ∈ remaining := by
  induction h using Relation.ReflTransGen.head_induction_on with
  | refl => exact hb
  | head hac _ ih =>
    by_contra hgone
    exact hcut _ ha hgone _ (ih hac.2) hac.1

variable (R Good) in
theorem exists_sweep (remaining accepted : Finset α) :
    ∃ final, Sweep R Good remaining accepted final := by
  induction hn : remaining.card using Nat.strong_induction_on generalizing remaining accepted with
  | _ n ih =>
    subst hn
    rcases remaining.eq_empty_or_nonempty with rfl | ⟨root, hroot⟩
    · exact ⟨accepted, .done accepted⟩
    · obtain ⟨remaining', run, hgrow⟩ := exists_grow (R := R) (remaining.erase root) [root] {root}
      have hcard : remaining'.card < remaining.card :=
        (Finset.card_le_card hgrow.closed.1).trans_lt (Finset.card_erase_lt_of_mem hroot)
      obtain ⟨final, hfinal⟩ := ih _ hcard remaining'
        (if Good run then accepted ∪ run else accepted) rfl
      exact ⟨final, .pop hroot hgrow hfinal⟩

/-- What is accepted stays, and every good part of what remains gets accepted. -/
theorem Sweep.lower (hmono : ∀ s t, s ⊆ t → Good s → Good t) {remaining accepted final : Finset α}
    (h : Sweep R Good remaining accepted final) (hcut : Cut R nodes remaining)
    (hsub : remaining ⊆ nodes) :
    accepted ⊆ final ∧ ∀ x ∈ remaining, Good (part R nodes x) → x ∈ final := by
  induction h with
  | done accepted => simp
  | @pop remaining remaining' run accepted final root member grown next ih =>
    obtain ⟨hrun, hle, hout, hcut'⟩ := grown.run_eq hcut hsub member
    obtain ⟨hacc, hparts⟩ := ih hcut' (hle.trans hsub)
    have hkeep : accepted ⊆ if Good run then accepted ∪ run else accepted := by
      split
      · exact Finset.subset_union_left
      · exact Finset.Subset.refl _
    refine ⟨hkeep.trans hacc, fun x hx hgood => ?_⟩
    by_cases hxr : x ∈ run
    · have hpart : part R nodes x ⊆ run := fun y hy => by
        obtain ⟨hyn, hxy, hyx⟩ := mem_part.mp hy
        exact (hrun y).mpr ⟨hcut.reaches hyx hyn hx, ((hrun x).mp hxr).2.trans hxy⟩
      rw [if_pos (hmono _ _ hpart hgood)] at hacc
      exact hacc (Finset.mem_union_right _ hxr)
    · exact hparts x ((hout x).mpr ⟨hx, hxr⟩) hgood

/-- What gets accepted is reached by a root that reaches enough. -/
theorem Sweep.upper (hmono : ∀ s t, s ⊆ t → Good s → Good t) {remaining accepted final : Finset α}
    (h : Sweep R Good remaining accepted final) (hcut : Cut R nodes remaining)
    (hsub : remaining ⊆ nodes) :
    ∀ x ∈ final, x ∈ accepted ∨ ∃ root ∈ nodes, Good (reach R nodes root) ∧
      x ∈ reach R nodes root := by
  induction h with
  | done accepted => exact fun x hx => .inl hx
  | @pop remaining remaining' run accepted final root member grown next ih =>
    obtain ⟨hrun, hle, -, hcut'⟩ := grown.run_eq hcut hsub member
    intro x hx
    rcases ih hcut' (hle.trans hsub) x hx with hacc | hlater
    · split at hacc
      · next hgood =>
        have hreach : run ⊆ reach R nodes root := fun y hy =>
          mem_reach.mpr ⟨hsub ((hrun y).mp hy).1, ((hrun y).mp hy).2⟩
        exact (Finset.mem_union.mp hacc).imp_right fun hxr =>
          ⟨root, hsub member, hmono _ _ hreach hgood, hreach hxr⟩
      · exact .inl hacc
    · exact .inr hlater

/-- Some order starts with a given root, and takes all that it reaches. -/
theorem exists_sweep_reach (hmono : ∀ s t, s ⊆ t → Good s → Good t) {root : α} (hroot : root ∈ nodes)
    (hgood : Good (reach R nodes root)) :
    ∃ final, Sweep R Good nodes ∅ final ∧ reach R nodes root ⊆ final := by
  obtain ⟨remaining', run, hgrow⟩ := exists_grow (R := R) (nodes.erase root) [root] {root}
  obtain ⟨hrun, hle, -, hcut⟩ := hgrow.run_eq (Cut.refl R nodes) (Finset.Subset.refl _) hroot
  have hall : run = reach R nodes root := by
    ext b
    rw [hrun, mem_reach]
  obtain ⟨final, hfinal⟩ := exists_sweep R Good remaining'
    (if Good run then ∅ ∪ run else ∅)
  refine ⟨final, .pop hroot hgrow hfinal, ?_⟩
  have hacc := (hfinal.lower hmono hcut hle).1
  rw [hall, if_pos hgood, Finset.empty_union] at hacc
  exact hacc

omit [DecidableRel R] in
/-- Among the nodes that remain, one reaches only what reaches it. -/
theorem exists_sink {remaining : Finset α} (hsub : remaining ⊆ nodes) (hne : remaining.Nonempty) :
    ∃ root ∈ remaining, ∀ y ∈ remaining, Reaches R nodes root y → Reaches R nodes y root := by
  obtain ⟨root, hroot, hmin⟩ := Finset.exists_min_image remaining
    (fun a => (reach R nodes a ∩ remaining).card) hne
  refine ⟨root, hroot, fun y hy hry => ?_⟩
  have hle : reach R nodes y ∩ remaining ⊆ reach R nodes root ∩ remaining := fun z hz => by
    obtain ⟨hz, hzr⟩ := Finset.mem_inter.mp hz
    obtain ⟨hzn, hyz⟩ := mem_reach.mp hz
    exact Finset.mem_inter.mpr ⟨mem_reach.mpr ⟨hzn, hry.trans hyz⟩, hzr⟩
  have heq := Finset.eq_of_subset_of_card_le hle (hmin y hy)
  have hself : root ∈ reach R nodes root ∩ remaining :=
    Finset.mem_inter.mpr ⟨mem_reach.mpr ⟨hsub hroot, .refl⟩, hroot⟩
  rw [← heq] at hself
  exact (mem_reach.mp (Finset.mem_inter.mp hself).1).2

/-- Some order takes the strongly connected parts one by one. -/
theorem exists_sweep_parts (hmono : ∀ s t, s ⊆ t → Good s → Good t) (remaining accepted : Finset α)
    (hcut : Cut R nodes remaining) (hsub : remaining ⊆ nodes) :
    ∃ final, Sweep R Good remaining accepted final ∧
      ∀ x ∈ final, x ∈ accepted ∨ Good (part R nodes x) := by
  induction hn : remaining.card using Nat.strong_induction_on generalizing remaining accepted with
  | _ n ih =>
    subst hn
    rcases remaining.eq_empty_or_nonempty with rfl | hne
    · exact ⟨accepted, .done accepted, fun x hx => .inl hx⟩
    · obtain ⟨root, hroot, hsink⟩ := exists_sink (R := R) hsub hne
      obtain ⟨remaining', run, hgrow⟩ := exists_grow (R := R) (remaining.erase root) [root] {root}
      obtain ⟨hrun, hle, -, hcut'⟩ := hgrow.run_eq hcut hsub hroot
      have hcard : remaining'.card < remaining.card :=
        (Finset.card_le_card hgrow.closed.1).trans_lt (Finset.card_erase_lt_of_mem hroot)
      obtain ⟨final, hfinal, hparts⟩ := ih _ hcard remaining'
        (if Good run then accepted ∪ run else accepted) hcut' (hle.trans hsub) rfl
      refine ⟨final, .pop hroot hgrow hfinal, fun x hx => ?_⟩
      rcases hparts x hx with hacc | hgood
      · split at hacc
        · next hgood =>
          refine (Finset.mem_union.mp hacc).imp_right fun hxr => ?_
          obtain ⟨hxrem, hrx⟩ := (hrun x).mp hxr
          have hpart : run ⊆ part R nodes root := fun y hy => by
            obtain ⟨hyr, hry⟩ := (hrun y).mp hy
            exact mem_part.mpr ⟨hsub hyr, hry, hsink y hyr hry⟩
          rw [← part_eq hrx (hsink x hxrem hrx)]
          exact hmono _ _ hpart hgood
        · exact .inl hacc
      · exact .inr hgood

/-- Every order accepts the same nodes exactly when a root that reaches enough reaches only good
parts. -/
theorem sweep_unique_iff (hmono : ∀ s t, s ⊆ t → Good s → Good t) (nodes : Finset α) :
    (∀ final final', Sweep R Good nodes ∅ final → Sweep R Good nodes ∅ final' → final = final') ↔
      ∀ root ∈ nodes, Good (reach R nodes root) → ∀ x ∈ reach R nodes root,
        Good (part R nodes x) := by
  have hcut := Cut.refl R nodes
  have hself := Finset.Subset.refl nodes
  constructor
  · intro hall root hroot hgood x hx
    obtain ⟨final, hfinal, hreach⟩ := exists_sweep_reach hmono hroot hgood
    obtain ⟨final', hfinal', hparts⟩ := exists_sweep_parts hmono nodes ∅ hcut hself
    have hx' := hreach hx
    rw [hall _ _ hfinal hfinal'] at hx'
    exact (hparts x hx').resolve_left (Finset.notMem_empty x)
  · intro hall
    have hle : ∀ final final', Sweep R Good nodes ∅ final → Sweep R Good nodes ∅ final' →
        final ⊆ final' := fun final final' h h' x hx => by
      rcases h.upper hmono hcut hself x hx with hnone | ⟨root, hroot, hgood, hxr⟩
      · exact absurd hnone (Finset.notMem_empty x)
      · exact (h'.lower hmono hcut hself).2 x (mem_reach.mp hxr).1 (hall root hroot hgood x hxr)
    exact fun final final' h h' => Finset.Subset.antisymm (hle _ _ h h') (hle _ _ h' h)

end MainframeRag.Peeling
