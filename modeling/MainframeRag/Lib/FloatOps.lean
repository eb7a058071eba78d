import Mathlib.Data.Rat.Defs
import Mathlib.Algebra.Order.Ring.Rat
import Mathlib.Algebra.Order.Floor.Ring
import Mathlib.Data.Rat.Floor

/-!
# Float operations

The operations of Python on floats, over any type of floats. A program that only compares, adds and
divides is stated over `FloatOps`; what it relies on is a structure of laws beside it.
-/

namespace MainframeRag

structure FloatOps (K : Type) where
  /-- the float nearest to `m / 10 ^ e` -/
  ofDecimal : Int → Nat → K
  add : K → K → K
  sub : K → K → K
  mul : K → K → K
  div : K → K → K
  lt : K → K → Bool
  /-- the built-in `sum` -/
  sum : List K → K
  /-- `round(x, n)` -/
  round : K → Nat → K
  /-- `int(x)` -/
  trunc : K → Int

namespace FloatOps

variable {K : Type} (A : FloatOps K)

def ofInt (n : Int) : K := A.ofDecimal n 0

def zero : K := A.ofInt 0

/-- `Null` holds of the zeros and of `NaN`. -/
structure NullLaws (Null : K → Prop) : Prop where
  sub_self : ∀ x, Null (A.sub x x)
  add : ∀ x y, Null x → Null y → Null (A.add x y)
  mul : ∀ x y, Null x → Null (A.mul x y)
  div : ∀ x n, Null x → n ≠ 0 → Null (A.div x (A.ofInt n))
  sum : ∀ xs, (∀ x ∈ xs, Null x) → Null (A.sum xs)
  not_pos : ∀ x, Null x → A.lt A.zero x = false

/-- Exact arithmetic. -/
def exact : FloatOps ℚ where
  ofDecimal m e := m / 10 ^ e
  add := (· + ·)
  sub := (· - ·)
  mul := (· * ·)
  div := (· / ·)
  lt x y := x < y
  sum := List.sum
  round x n := ⌊x * 10 ^ n + 1 / 2⌋ / 10 ^ n
  trunc x := if 0 ≤ x then ⌊x⌋ else ⌈x⌉

theorem exact_null : exact.NullLaws (· = 0) where
  sub_self x := Rat.sub_self
  add x y hx hy := by
    show x + y = 0
    rw [hx, hy, add_zero]
  mul x y hx := by
    show x * y = 0
    rw [hx, zero_mul]
  div x n hx _ := by
    show x / _ = 0
    rw [hx, zero_div]
  sum xs h := List.sum_eq_zero h
  not_pos x hx := by
    subst hx
    show decide ((0 : Int) / 10 ^ 0 < (0 : ℚ)) = false
    simp

end FloatOps

end MainframeRag
