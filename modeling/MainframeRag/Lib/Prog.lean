import Mathlib.Tactic.Common

/-!
# Programs over a store

`Prog W E α` is a program that reads and writes a store `W`, one write at a time, and returns an
`α` or fails with an `E`. `Prog.run` executes it to the end.
-/

inductive Prog (W E α : Type) : Type
  | ret (a : α)
  | fail (e : E)
  | read (k : W → Prog W E α)
  | write (f : W → W) (k : Prog W E α)

namespace Prog

variable {W E α β : Type}

def bind : Prog W E α → (α → Prog W E β) → Prog W E β
  | ret a, g => g a
  | fail e, _ => fail e
  | read k, g => read (fun w => (k w).bind g)
  | write f k, g => write f (k.bind g)

instance : Monad (Prog W E) where
  pure := ret
  bind := bind

/-- The store as it is now. -/
def get : Prog W E W := read ret

/-- One write. -/
def modify (f : W → W) : Prog W E Unit := write f (ret ())

/-- One write for each of the items, in order. -/
def writeEach (f : β → W → W) : List β → Prog W E Unit
  | [] => ret ()
  | b :: bs => write (f b) (writeEach f bs)

/-- Stop unless the condition holds. -/
def require (c : Bool) (e : E) : Prog W E Unit := if c then ret () else fail e

/-- A result that is known already. -/
def ofExcept : Except E α → Prog W E α
  | .ok a => ret a
  | .error e => fail e

/-! ## Execution -/

def run : Prog W E α → W → Except E α × W
  | ret a, w => (.ok a, w)
  | fail e, w => (.error e, w)
  | read k, w => (k w).run w
  | write f k, w => k.run (f w)

@[simp] theorem run_pure (a : α) (w : W) : (pure a : Prog W E α).run w = (.ok a, w) := rfl

@[simp] theorem run_ret (a : α) (w : W) : (ret a : Prog W E α).run w = (.ok a, w) := rfl

@[simp] theorem run_fail (e : E) (w : W) : (fail e : Prog W E α).run w = (.error e, w) := rfl

@[simp] theorem run_bind (p : Prog W E α) (g : α → Prog W E β) (w : W) :
    (p >>= g).run w = match p.run w with
      | (.ok a, w') => (g a).run w'
      | (.error e, w') => (.error e, w') := by
  show (p.bind g).run w = _
  induction p generalizing w with
  | ret a => rfl
  | fail e => rfl
  | read k ih => exact ih w w
  | write f k ih => exact ih (f w)

@[simp] theorem run_get (w : W) : (get : Prog W E W).run w = (.ok w, w) := rfl

@[simp] theorem run_ofExcept (x : Except E α) (w : W) :
    (ofExcept x : Prog W E α).run w = (x, w) := by
  cases x <;> rfl

@[simp] theorem run_modify (f : W → W) (w : W) :
    (modify f : Prog W E Unit).run w = (.ok (), f w) := rfl

@[simp] theorem run_writeEach (f : β → W → W) (bs : List β) (w : W) :
    (writeEach f bs : Prog W E Unit).run w = (.ok (), bs.foldl (fun w b => f b w) w) := by
  induction bs generalizing w with
  | nil => rfl
  | cons b bs ih => exact ih (f b w)

theorem run_require (c : Bool) (e : E) (w : W) :
    (require c e : Prog W E Unit).run w = (if c then .ok () else .error e, w) := by
  unfold require
  split <;> rfl

/-! ## Programs that only read -/

/-- The store stays as it is, and a result has the property. -/
def Finds (p : Prog W E α) (w : W) (P : α → Prop) : Prop :=
  ∃ r, p.run w = (r, w) ∧ ∀ a, r = .ok a → P a

variable {P : α → Prop} {Q : β → Prop} {w : W}

theorem Finds.pure {a : α} (h : P a) : Finds (E := E) (Pure.pure a) w P :=
  ⟨.ok a, rfl, fun _ e => Except.ok.inj e ▸ h⟩

theorem Finds.fail (e : E) : Finds (.fail e) w P := ⟨.error e, rfl, nofun⟩

theorem Finds.get : Finds (E := E) Prog.get w (· = w) := ⟨.ok w, rfl, fun _ e => (Except.ok.inj e).symm⟩

theorem Finds.ofExcept {x : Except E α} (h : ∀ a, x = .ok a → P a) : Finds (.ofExcept x) w P :=
  ⟨x, run_ofExcept x w, h⟩

theorem Finds.bind {p : Prog W E α} {g : α → Prog W E β} (hp : Finds p w P)
    (hg : ∀ a, P a → Finds (g a) w Q) : Finds (p >>= g) w Q := by
  obtain ⟨r, hr, hP⟩ := hp
  cases r with
  | error e => exact ⟨.error e, by rw [run_bind, hr], nofun⟩
  | ok a =>
    obtain ⟨r, hr', hQ⟩ := hg a (hP a rfl)
    exact ⟨r, by rw [run_bind, hr]; exact hr', hQ⟩

theorem Finds.store {p : Prog W E α} (h : Finds p w P) : (p.run w).2 = w := by
  obtain ⟨r, hr, -⟩ := h
  rw [hr]

theorem Finds.result {p : Prog W E α} (h : Finds p w P) {a : α} (ha : (p.run w).1 = .ok a) : P a := by
  obtain ⟨r, hr, hP⟩ := h
  rw [hr] at ha
  exact hP a ha

/-- What the program comes to when it is run `n` times over. -/
def results (p : Prog W E α) : Nat → W → List (Except E α)
  | 0, _ => []
  | n + 1, w => (p.run w).1 :: results p n (p.run w).2

theorem Finds.results_eq {p : Prog W E α} (h : Finds p w P) (n : Nat) :
    p.results n w = List.replicate n (p.run w).1 := by
  induction n with
  | zero => rfl
  | succ n ih => rw [results, h.store, ih, List.replicate_succ]

end Prog
