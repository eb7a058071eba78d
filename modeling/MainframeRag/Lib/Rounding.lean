import Mathlib

/-!
# Rounding half to even

The nearest whole number, the even one of two equally near, and the same on a grid of
`1 / scale`. Both are monotone and leave the points of the grid alone.
-/

namespace MainframeRag.Rounding

variable {K : Type} [Field K] [LinearOrder K] [FloorRing K]

/-- The whole number next to `q`, the even one where two are equally near. -/
def halfEven (q : K) : ℤ :=
  if q - ⌊q⌋ < ⌊q⌋ + 1 - q then ⌊q⌋
  else if ⌊q⌋ + 1 - q < q - ⌊q⌋ then ⌊q⌋ + 1
  else if ⌊q⌋ % 2 = 0 then ⌊q⌋ else ⌊q⌋ + 1

/-- `halfEven` on the grid of `1 / scale`. -/
def onGrid (scale : ℕ) (q : K) : K := halfEven (q * scale) / scale

theorem floor_le_halfEven (q : K) : ⌊q⌋ ≤ halfEven q := by
  unfold halfEven
  split_ifs <;> omega

theorem halfEven_le_floor_add_one (q : K) : halfEven q ≤ ⌊q⌋ + 1 := by
  unfold halfEven
  split_ifs <;> omega

variable [IsStrictOrderedRing K]

theorem halfEven_intCast (n : ℤ) : halfEven (n : K) = n := by
  have hlt : (n : K) - ⌊(n : K)⌋ < ⌊(n : K)⌋ + 1 - n := by
    rw [Int.floor_intCast]
    linarith
  rw [halfEven, if_pos hlt, Int.floor_intCast]

/-- Between two whole numbers the order is that of the distances to them. -/
theorem halfEven_mono : Monotone (halfEven : K → ℤ) := by
  intro p q hpq
  rcases (Int.floor_mono hpq).lt_or_eq with hlt | heq
  · calc halfEven p ≤ ⌊p⌋ + 1 := halfEven_le_floor_add_one p
      _ ≤ ⌊q⌋ := hlt
      _ ≤ halfEven q := floor_le_halfEven q
  · unfold halfEven
    rw [← heq]
    split_ifs with hp hq hq' heven hp' hq hq' heven hq hq' <;> first | omega | (exfalso; linarith)

theorem onGrid_mono {scale : ℕ} (hs : 0 < scale) : Monotone (onGrid scale : K → K) := by
  intro p q hpq
  have hscale : (0 : K) < scale := by exact_mod_cast hs
  have hle : halfEven (p * scale) ≤ halfEven (q * scale) :=
    halfEven_mono (mul_le_mul_of_nonneg_right hpq hscale.le)
  exact div_le_div_of_nonneg_right (by exact_mod_cast hle) hscale.le

/-- The points of the grid stay. -/
theorem onGrid_point (scale : ℕ) (hs : 0 < scale) (n : ℤ) :
    onGrid scale ((n : K) / scale) = n / scale := by
  have hscale : (scale : K) ≠ 0 := by exact_mod_cast hs.ne'
  rw [onGrid, div_mul_cancel₀ _ hscale, halfEven_intCast]

example : [5 / 2, 7 / 2, 33 / 10, 18 / 5].map (halfEven : ℚ → ℤ) = [2, 4, 3, 4] := by
  decide +kernel

end MainframeRag.Rounding
