import Mathlib.Data.List.Forall2
import Mathlib.Tactic.Common

/-!
# Computations that may raise

`Except E α` for code that returns or raises: checks that raise (`ensure`), and what a sequence that
returned went through (`bind_ok`).
-/

namespace MainframeRag.Fallible

variable {E α β : Type}

/-- `if not c: raise e` -/
def ensure (c : Prop) [Decidable c] (e : E) : Except E Unit := if c then .ok () else .error e

/-- `None` raises. -/
def orRaise (o : Option α) (e : E) : Except E α :=
  match o with
  | some a => .ok a
  | none => .error e

@[simp] theorem ensure_ok {c : Prop} [Decidable c] {e : E} {u : Unit} :
    ensure c e = .ok u ↔ c := by
  unfold ensure
  split <;> simp_all

theorem ensure_true {c : Prop} [Decidable c] (e : E) (h : c) : ensure c e = .ok () := if_pos h

@[simp] theorem orRaise_ok {o : Option α} {e : E} {a : α} : orRaise o e = .ok a ↔ o = some a := by
  cases o <;> simp [orRaise]

@[simp] theorem orRaise_some (a : α) (e : E) : orRaise (some a) e = .ok a := rfl

theorem bind_ok {x : Except E α} {f : α → Except E β} {b : β} :
    (x >>= f) = .ok b ↔ ∃ a, x = .ok a ∧ f a = .ok b := by
  cases x with
  | ok a => simp [bind, Except.bind]
  | error e => simp [bind, Except.bind]

@[simp] theorem ok_bind (a : α) (f : α → Except E β) : (Except.ok a >>= f) = f a := rfl

@[simp] theorem error_bind (e : E) (f : α → Except E β) : (Except.error e >>= f) = .error e := rfl

@[simp] theorem pure_ok {a b : α} : (pure a : Except E α) = .ok b ↔ a = b := by
  simp [pure, Except.pure]

theorem ensure_bind_error {c : Prop} [Decidable c] {e e' : E} {f : Unit → Except E β} :
    (ensure c e >>= f) = .error e' ↔ ¬c ∧ e = e' ∨ c ∧ f () = .error e' := by
  unfold ensure
  split
  · next h => simp [h]
  · next h => simp [h]

theorem orRaise_bind_error {o : Option α} {e e' : E} {f : α → Except E β} :
    (orRaise o e >>= f) = .error e' ↔ o = none ∧ e = e' ∨ ∃ a, o = some a ∧ f a = .error e' := by
  cases o <;> simp [orRaise]

/-! ## Lists item by item -/

theorem forall₂_right {R : α → β → Prop} {as : List α} {bs : List β}
    (h : List.Forall₂ R as bs) {b : β} (hb : b ∈ bs) : ∃ a ∈ as, R a b := by
  induction h with
  | nil => cases hb
  | cons hab _ ih =>
    rcases List.mem_cons.mp hb with rfl | hb
    · exact ⟨_, List.mem_cons_self, hab⟩
    · obtain ⟨a, ha, hr⟩ := ih hb
      exact ⟨a, List.mem_cons_of_mem _ ha, hr⟩

theorem forall₂_left {R : α → β → Prop} {as : List α} {bs : List β}
    (h : List.Forall₂ R as bs) {a : α} (ha : a ∈ as) : ∃ b ∈ bs, R a b :=
  forall₂_right (List.Forall₂.flip h) ha

theorem forall₂_imp_mem {R S : α → β → Prop} {as : List α} {bs : List β}
    (h : List.Forall₂ R as bs) (himp : ∀ a b, a ∈ as → b ∈ bs → R a b → S a b) :
    List.Forall₂ S as bs := by
  induction h with
  | nil => exact .nil
  | cons hab _ ih =>
    refine .cons (himp _ _ List.mem_cons_self List.mem_cons_self hab) (ih fun a b ha hb => ?_)
    exact himp a b (List.mem_cons_of_mem _ ha) (List.mem_cons_of_mem _ hb)

/-- What a function that may return nothing gives for every item. -/
theorem mapM_eq_some_iff {f : α → Option β} {xs : List α} {ys : List β} :
    xs.mapM f = some ys ↔ List.Forall₂ (fun x y => f x = some y) xs ys := by
  induction xs generalizing ys with
  | nil => simp [eq_comm]
  | cons x xs ih =>
    simp only [List.mapM_cons, Option.bind_eq_bind, Option.bind_eq_some_iff, Option.pure_def,
      Option.some.injEq, List.forall₂_cons_left_iff, ih]
    constructor
    · rintro ⟨y, hy, rest, hrest, rfl⟩
      exact ⟨y, rest, hy, hrest, rfl⟩
    · rintro ⟨y, rest, hy, hrest, rfl⟩
      exact ⟨y, hy, rest, hrest, rfl⟩

theorem exists_mapM {f : α → Option β} {xs : List α} (h : ∀ x ∈ xs, (f x).isSome) :
    ∃ ys, xs.mapM f = some ys := by
  induction xs with
  | nil => exact ⟨[], rfl⟩
  | cons x xs ih =>
    obtain ⟨hx, hrest⟩ := List.forall_mem_cons.mp h
    obtain ⟨y, hy⟩ := Option.isSome_iff_exists.mp hx
    obtain ⟨ys, hys⟩ := ih hrest
    exact ⟨y :: ys, mapM_eq_some_iff.mpr (.cons hy (mapM_eq_some_iff.mp hys))⟩

/-! ## Loops -/

theorem foldlM_cons_ok {σ : Type} {step : σ → α → Except E σ} {x : α} {xs : List α} {s s' : σ} :
    (x :: xs).foldlM step s = .ok s' ↔ ∃ t, step s x = .ok t ∧ xs.foldlM step t = .ok s' := by
  rw [List.foldlM_cons, bind_ok]

/-- What every turn of a loop keeps, the loop keeps. -/
theorem foldlM_inv {σ : Type} {step : σ → α → Except E σ} {P : σ → Prop} {xs : List α}
    (hstep : ∀ s s', ∀ x ∈ xs, P s → step s x = .ok s' → P s') {s s' : σ} (hs : P s)
    (h : xs.foldlM step s = .ok s') : P s' := by
  induction xs generalizing s with
  | nil => cases h; exact hs
  | cons x xs ih =>
    obtain ⟨t, ht, hrest⟩ := foldlM_cons_ok.mp h
    exact ih (fun s s' y hy => hstep s s' y (List.mem_cons_of_mem x hy))
      (hstep s t x List.mem_cons_self hs ht) hrest

/-- A loop whose turns do not raise while an invariant holds. -/
theorem foldlM_total {σ : Type} {f : σ → α → Except E σ} {P : σ → Prop} {l : List α}
    (hstep : ∀ s, ∀ x ∈ l, P s → ∃ s', f s x = .ok s' ∧ P s') {s : σ} (hs : P s) :
    ∃ s', l.foldlM f s = .ok s' ∧ P s' := by
  induction l generalizing s with
  | nil => exact ⟨s, rfl, hs⟩
  | cons x l ih =>
    obtain ⟨t, ht, hP⟩ := hstep s x List.mem_cons_self hs
    obtain ⟨s', hs', hP'⟩ := ih (fun s y hy => hstep s y (List.mem_cons_of_mem x hy)) hP
    exact ⟨s', foldlM_cons_ok.mpr ⟨t, ht, hs'⟩, hP'⟩

/-- A loop each turn of which touches the slot of its item only, and counts one verdict on it. With a
slot for each item, a turn meets its slot as it was before the loop and leaves it as it is after. -/
theorem foldlM_slots {σ κ τ ν : Type} [DecidableEq ν] {step : σ → α → Except E σ} {key : α → κ}
    {S : σ → κ → τ} {P : σ → Prop} {R : α → τ → τ → ν → Prop} {T : σ → ν → Nat} {xs : List α}
    (hstep : ∀ s s', ∀ x ∈ xs, P s → step s x = .ok s' → P s' ∧
      (∀ k, k ≠ key x → S s' k = S s k) ∧
      ∃ v, R x (S s (key x)) (S s' (key x)) v ∧
        ∀ w, T s' w = T s w + if v = w then 1 else 0)
    (hd : (xs.map key).Nodup) {s s' : σ} (hs : P s) (h : xs.foldlM step s = .ok s') :
    P s' ∧ (∀ k, k ∉ xs.map key → S s' k = S s k) ∧
      ∃ vs, List.Forall₂ (fun x v => R x (S s (key x)) (S s' (key x)) v) xs vs ∧
        ∀ w, T s' w = T s w + vs.count w := by
  induction xs generalizing s with
  | nil =>
    cases h
    exact ⟨hs, fun _ _ => rfl, [], .nil, fun _ => rfl⟩
  | cons x xs ih =>
    obtain ⟨t, ht, hrest⟩ := foldlM_cons_ok.mp h
    obtain ⟨hP, hother, v, hR, htally⟩ := hstep s t x List.mem_cons_self hs ht
    rw [List.map_cons, List.nodup_cons] at hd
    obtain ⟨hP', hother', vs, hRs, htally'⟩ :=
      ih (fun s s' y hy => hstep s s' y (List.mem_cons_of_mem x hy)) hd.2 hP hrest
    refine ⟨hP', ?_, v :: vs, .cons ?_ ?_, ?_⟩
    · intro k hk
      rw [List.map_cons, List.mem_cons, not_or] at hk
      rw [hother' k hk.2, hother k hk.1]
    · rwa [hother' _ hd.1]
    · refine forall₂_imp_mem hRs fun y v' hy _ hR' => ?_
      rwa [hother _ fun e => hd.1 (e ▸ List.mem_map_of_mem hy)] at hR'
    · intro w
      rw [htally', htally, List.count_cons, beq_eq_decide, Nat.add_assoc,
        Nat.add_comm (ite _ _ _)]
      simp only [decide_eq_true_eq]

end MainframeRag.Fallible
