import Mathlib

/-!
# Rankings

A ranking read by key counts the first item of each key (`firsts`), and its score is the sum of the
gains weighted by rank (`weigh`). With positive weights that fall, no ranking of a given number of
gains scores above the best gains on top, and only that one scores as high (`weigh_spec`).
-/

namespace MainframeRag.Ranking

/-! ## The first item of each key -/

section

variable {α κ : Type} [DecidableEq κ] (key : α → κ)

/-- The first item of each key that is not seen yet. -/
def firsts : List κ → List α → List α
  | _, [] => []
  | seen, x :: xs => if key x ∈ seen then firsts seen xs else x :: firsts (key x :: seen) xs

variable {key}

theorem firsts_seen {seen : List κ} {x : α} (h : key x ∈ seen) (xs : List α) :
    firsts key seen (x :: xs) = firsts key seen xs := if_pos h

theorem firsts_new {seen : List κ} {x : α} (h : key x ∉ seen) (xs : List α) :
    firsts key seen (x :: xs) = x :: firsts key (key x :: seen) xs := if_neg h

/-- Only which keys are seen matters. -/
theorem firsts_congr {xs : List α} : ∀ {seen seen' : List κ}, (∀ k, k ∈ seen ↔ k ∈ seen') →
    firsts key seen xs = firsts key seen' xs := by
  induction xs with
  | nil => exact fun _ => rfl
  | cons x xs ih =>
    intro seen seen' h
    by_cases hx : key x ∈ seen
    · rw [firsts_seen hx, firsts_seen ((h _).mp hx), ih h]
    · rw [firsts_new hx, firsts_new fun hx' => hx ((h _).mpr hx')]
      congr 1
      exact ih fun k => by rw [List.mem_cons, List.mem_cons, h]

theorem firsts_append {ys : List α} (xs : List α) : ∀ seen : List κ,
    firsts key seen (xs ++ ys) = firsts key seen xs ++ firsts key (xs.map key ++ seen) ys := by
  induction xs with
  | nil => exact fun _ => rfl
  | cons x xs ih =>
    intro seen
    rw [List.cons_append]
    by_cases hx : key x ∈ seen
    · rw [firsts_seen hx, firsts_seen hx, ih]
      congr 1
      refine firsts_congr fun k => ?_
      simp only [List.map_cons, List.cons_append, List.mem_cons, List.mem_append]
      constructor
      · exact .inr
      · rintro (rfl | hk)
        · exact .inr hx
        · exact hk
    · rw [firsts_new hx, firsts_new hx, ih, List.cons_append]
      congr 2
      refine firsts_congr fun k => ?_
      simp only [List.map_cons, List.cons_append, List.mem_cons, List.mem_append]
      exact or_left_comm

/-- The first items by what is read off them. -/
theorem map_firsts {β : Type} (f : β → α) (xs : List β) : ∀ seen : List κ,
    (firsts (fun x => key (f x)) seen xs).map f = firsts key seen (xs.map f) := by
  induction xs with
  | nil => exact fun _ => rfl
  | cons x xs ih =>
    intro seen
    rw [List.map_cons, firsts, firsts]
    split
    · exact ih seen
    · rw [List.map_cons, ih]

theorem firsts_eq_nil {xs : List α} {seen : List κ} (h : ∀ x ∈ xs, key x ∈ seen) :
    firsts key seen xs = [] := by
  induction xs with
  | nil => rfl
  | cons x xs ih =>
    obtain ⟨hx, hxs⟩ := List.forall_mem_cons.mp h
    rw [firsts_seen hx, ih hxs]

/-- Two keys, the first of which is repeated in between. -/
theorem firsts_pair {seen : List κ} {x y : α} {between after : List α} (hx : key x ∉ seen)
    (hy : key y ∉ key x :: seen) (hbetween : ∀ z ∈ between, key z ∈ key x :: seen) :
    firsts key seen (x :: (between ++ y :: after)) =
      x :: y :: firsts key (key y :: key x :: seen) after := by
  have hsame : ∀ k, k ∈ between.map key ++ key x :: seen ↔ k ∈ key x :: seen := by
    intro k
    rw [List.mem_append]
    refine or_iff_right_of_imp fun hk => ?_
    obtain ⟨z, hz, rfl⟩ := List.mem_map.mp hk
    exact hbetween z hz
  rw [firsts_new hx, firsts_append, firsts_eq_nil hbetween, List.nil_append, firsts_congr hsame,
    firsts_new hy]

/-- A key that is not seen, with repetitions of seen keys before it. -/
theorem firsts_later {seen : List κ} {x : α} {between after : List α} (hx : key x ∉ seen)
    (hbetween : ∀ z ∈ between, key z ∈ key x :: seen) :
    ∃ z, key z = key x ∧
      firsts key seen (between ++ x :: after) = z :: firsts key (key x :: seen) after := by
  induction between with
  | nil => exact ⟨x, rfl, firsts_new hx after⟩
  | cons z between ih =>
    obtain ⟨hz, hrest⟩ := List.forall_mem_cons.mp hbetween
    rcases List.mem_cons.mp hz with hzx | hz
    · refine ⟨z, hzx, ?_⟩
      have hskip : ∀ w ∈ between ++ [x], key w ∈ key x :: seen := by
        intro w hw
        rcases List.mem_append.mp hw with hw | hw
        · exact hrest w hw
        · rw [List.mem_singleton.mp hw]
          exact List.mem_cons_self
      rw [List.cons_append, firsts_new (hzx ▸ hx), hzx, List.append_cons, firsts_append,
        firsts_eq_nil hskip, List.nil_append]
      congr 1
      refine firsts_congr fun k => ?_
      rw [List.mem_append]
      refine or_iff_right_of_imp fun hk => ?_
      obtain ⟨w, hw, rfl⟩ := List.mem_map.mp hk
      exact hskip w hw
    · rw [List.cons_append, firsts_seen hz]
      exact ih hrest

theorem mem_firsts {xs : List α} : ∀ {seen : List κ} {x : α}, x ∈ firsts key seen xs →
    x ∈ xs ∧ key x ∉ seen := by
  induction xs with
  | nil => exact fun h => absurd h List.not_mem_nil
  | cons y xs ih =>
    intro seen x hx
    by_cases hy : key y ∈ seen
    · rw [firsts_seen hy] at hx
      exact ⟨List.mem_cons_of_mem _ (ih hx).1, (ih hx).2⟩
    · rw [firsts_new hy] at hx
      rcases List.mem_cons.mp hx with rfl | hx
      · exact ⟨List.mem_cons_self, hy⟩
      · exact ⟨List.mem_cons_of_mem _ (ih hx).1, fun hs => (ih hx).2 (List.mem_cons_of_mem _ hs)⟩

theorem firsts_of_nodup {xs : List α} : ∀ {seen : List κ}, (xs.map key).Nodup →
    (∀ x ∈ xs, key x ∉ seen) → firsts key seen xs = xs := by
  induction xs with
  | nil => exact fun _ _ => rfl
  | cons x xs ih =>
    intro seen hnodup hnew
    rw [List.map_cons, List.nodup_cons] at hnodup
    obtain ⟨hx, hrest⟩ := List.forall_mem_cons.mp hnew
    rw [firsts_new hx, ih hnodup.2]
    intro y hy
    rw [List.mem_cons, not_or]
    exact ⟨fun he => hnodup.1 (he ▸ List.mem_map_of_mem hy), hrest y hy⟩

theorem firsts_sublist {xs : List α} : ∀ seen : List κ,
    (firsts key seen xs).Sublist xs := by
  induction xs with
  | nil => exact fun _ => .slnil
  | cons x xs ih =>
    intro seen
    by_cases hx : key x ∈ seen
    · rw [firsts_seen hx]
      exact (ih seen).cons x
    · rw [firsts_new hx]
      exact (ih _).cons_cons x

/-- No key is lost. -/
theorem mem_firsts_key {xs : List α} : ∀ {seen : List κ} {x : α}, x ∈ xs → key x ∉ seen →
    key x ∈ (firsts key seen xs).map key := by
  induction xs with
  | nil => exact fun h => absurd h List.not_mem_nil
  | cons y xs ih =>
    intro seen x hx hnew
    by_cases hy : key y ∈ seen
    · rw [firsts_seen hy]
      rcases List.mem_cons.mp hx with rfl | hx
      · exact absurd hy hnew
      · exact ih hx hnew
    · rw [firsts_new hy, List.map_cons, List.mem_cons]
      by_cases hxy : key x = key y
      · exact .inl hxy
      · rcases List.mem_cons.mp hx with rfl | hx
        · exact absurd rfl hxy
        · refine .inr (ih hx fun hs => ?_)
          rcases List.mem_cons.mp hs with he | hs
          · exact hxy he
          · exact hnew hs

theorem firsts_nodup {xs : List α} : ∀ seen : List κ, ((firsts key seen xs).map key).Nodup := by
  induction xs with
  | nil => exact fun _ => List.nodup_nil
  | cons x xs ih =>
    intro seen
    by_cases hx : key x ∈ seen
    · rw [firsts_seen hx]
      exact ih seen
    · rw [firsts_new hx, List.map_cons, List.nodup_cons]
      refine ⟨fun hmem => ?_, ih _⟩
      obtain ⟨y, hy, hkey⟩ := List.mem_map.mp hmem
      exact (mem_firsts hy).2 (hkey ▸ List.mem_cons_self)

/-- The keys of the first items are the keys, each once. -/
theorem firsts_keys_perm (xs : List α) : ((firsts key [] xs).map key).Perm (xs.map key).dedup := by
  rw [List.perm_ext_iff_of_nodup (firsts_nodup []) (List.nodup_dedup _)]
  intro k
  rw [List.mem_dedup]
  constructor
  · intro hk
    have hsub : (firsts key [] xs).Sublist xs := firsts_sublist []
    exact (hsub.map key).subset hk
  · intro hk
    obtain ⟨x, hx, rfl⟩ := List.mem_map.mp hk
    exact mem_firsts_key hx List.not_mem_nil

end

/-! ## Weighted gains -/

section

variable {K : Type} [Field K] (weight : Nat → K)

/-- The gains from a rank on, weighted. -/
def weigh : Nat → List Nat → K
  | _, [] => 0
  | rank, g :: gains => g * weight rank + weigh (rank + 1) gains

variable {weight}

@[simp] theorem weigh_nil (rank : Nat) : weigh weight rank [] = 0 := rfl

@[simp] theorem weigh_cons (rank g : Nat) (gains : List Nat) :
    weigh weight rank (g :: gains) = g * weight rank + weigh weight (rank + 1) gains := rfl

variable [LinearOrder K]

/-- Weights that are positive and fall with the rank. -/
structure Falling (weight : Nat → K) : Prop where
  pos : ∀ i, 0 < weight i
  lt : ∀ i, weight (i + 1) < weight i

variable [IsStrictOrderedRing K] (h : Falling weight)
include h

theorem weigh_nonneg (gains : List Nat) (rank : Nat) : 0 ≤ weigh weight rank gains := by
  induction gains generalizing rank with
  | nil => exact le_refl 0
  | cons g gains ih => exact add_nonneg (mul_nonneg (Nat.cast_nonneg g) (h.pos rank).le) (ih _)

/-- The same gains one rank further down score no more, and less where there are any. -/
theorem weigh_shift_lt {m top : Nat} (htop : 0 < top) (hm : 0 < m) (rank : Nat) :
    weigh weight (rank + 1) (List.replicate m top) < weigh weight rank (List.replicate m top) := by
  have hle : ∀ m rank, weigh weight (rank + 1) (List.replicate m top) ≤
      weigh weight rank (List.replicate m top) := by
    intro m
    induction m with
    | zero => exact fun rank => le_refl 0
    | succ m ih =>
      intro rank
      rw [List.replicate_succ, weigh_cons, weigh_cons]
      exact add_le_add (mul_le_mul_of_nonneg_left (h.lt rank).le (Nat.cast_nonneg top)) (ih _)
  obtain ⟨m, rfl⟩ := Nat.exists_eq_succ_of_ne_zero hm.ne'
  rw [List.replicate_succ, weigh_cons, weigh_cons]
  exact add_lt_add_of_lt_of_le (mul_lt_mul_of_pos_left (h.lt rank) (Nat.cast_pos.mpr htop)) (hle _ _)

theorem weigh_replicate_lt {m n top : Nat} (htop : 0 < top) (hmn : m < n) (rank : Nat) :
    weigh weight rank (List.replicate m top) < weigh weight rank (List.replicate n top) := by
  induction m generalizing n rank with
  | zero =>
    obtain ⟨n, rfl⟩ := Nat.exists_eq_succ_of_ne_zero hmn.ne'
    rw [List.replicate_zero, weigh_nil, List.replicate_succ, weigh_cons]
    exact add_pos_of_pos_of_nonneg (mul_pos (Nat.cast_pos.mpr htop) (h.pos rank)) (weigh_nonneg h _ _)
  | succ m ih =>
    obtain ⟨n, rfl⟩ := Nat.exists_eq_succ_of_ne_zero (Nat.zero_lt_of_lt hmn).ne'
    rw [List.replicate_succ, List.replicate_succ, weigh_cons, weigh_cons]
    exact add_lt_add_right (ih (Nat.lt_of_succ_lt_succ hmn) _) _

/-- The best gains on top score highest, and no other ranking scores as high. -/
theorem weigh_spec {gains : List Nat} {m top : Nat} (htop : 0 < top) (hle : ∀ g ∈ gains, g ≤ top)
    (hcount : gains.countP (fun g => 0 < g) ≤ m) (rank : Nat) :
    weigh weight rank gains ≤ weigh weight rank (List.replicate m top) ∧
      (weigh weight rank gains = weigh weight rank (List.replicate m top) ↔
        gains.take m = List.replicate m top) := by
  induction gains generalizing m rank with
  | nil =>
    cases m with
    | zero => simp
    | succ m =>
      have hlt := weigh_replicate_lt h htop (Nat.succ_pos m) rank
      rw [List.replicate_zero, weigh_nil] at hlt
      exact ⟨hlt.le, fun he => absurd he hlt.ne, fun he => by simp at he⟩
  | cons g gains ih =>
    obtain ⟨hg, hall⟩ := List.forall_mem_cons.mp hle
    rcases Nat.eq_zero_or_pos g with rfl | hpos
    · have hcount' : gains.countP (fun g => 0 < g) ≤ m := by simpa using hcount
      have hrest := (ih hall hcount' (rank + 1)).1
      rw [weigh_cons, Nat.cast_zero, zero_mul, zero_add]
      cases m with
      | zero =>
        have hzero : weigh weight (rank + 1) gains = 0 :=
          le_antisymm hrest (weigh_nonneg h _ _)
        simp [hzero]
      | succ m =>
        have hlt := hrest.trans_lt (weigh_shift_lt h htop (Nat.succ_pos m) rank)
        refine ⟨hlt.le, fun he => absurd he hlt.ne, fun he => ?_⟩
        rw [List.take_succ_cons, List.replicate_succ] at he
        exact absurd (List.cons.inj he).1 htop.ne
    · cases m with
      | zero => simp [hpos] at hcount
      | succ m =>
        have hcount' : gains.countP (fun g => 0 < g) ≤ m := by simpa [hpos] using hcount
        obtain ⟨hrest, heq⟩ := ih hall hcount' (rank + 1)
        have hhead : (g : K) * weight rank ≤ top * weight rank :=
          mul_le_mul_of_nonneg_right (Nat.cast_le.mpr hg) (h.pos rank).le
        rw [List.take_succ_cons, List.replicate_succ, weigh_cons, weigh_cons, List.cons.injEq]
        refine ⟨add_le_add hhead hrest, ?_⟩
        constructor
        · intro he
          have hboth := (add_eq_add_iff_eq_and_eq hhead hrest).mp he
          exact ⟨Nat.cast_injective (mul_right_cancel₀ (h.pos rank).ne' hboth.1), heq.mp hboth.2⟩
        · rintro ⟨rfl, hg⟩
          rw [heq.mpr hg]

/-- A gain that moves up past none scores no less, wherever the ranking is cut. -/
theorem weigh_promote (before after : List Nat) (g k rank : Nat) :
    weigh weight rank ((before ++ 0 :: g :: after).take k) ≤
      weigh weight rank ((before ++ g :: 0 :: after).take k) := by
  induction before generalizing k rank with
  | nil =>
    match k with
    | 0 => exact le_refl _
    | 1 =>
      simp only [List.nil_append, List.take_succ_cons, List.take_zero, weigh_cons, weigh_nil,
        Nat.cast_zero, zero_mul, add_zero]
      exact mul_nonneg (Nat.cast_nonneg g) (h.pos rank).le
    | k + 2 =>
      simp only [List.nil_append, List.take_succ_cons, weigh_cons, Nat.cast_zero, zero_mul, zero_add]
      exact add_le_add_left (mul_le_mul_of_nonneg_left (h.lt rank).le (Nat.cast_nonneg g)) _
  | cons b before ih =>
    cases k with
    | zero => exact le_refl _
    | succ k =>
      simp only [List.cons_append, List.take_succ_cons, weigh_cons]
      exact add_le_add_right (ih k (rank + 1)) _

end

end MainframeRag.Ranking
