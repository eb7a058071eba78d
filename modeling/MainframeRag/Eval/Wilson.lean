import Mathlib.Algebra.Order.Field.Basic
import Mathlib.Tactic.FieldSimp
import Mathlib.Tactic.Linarith
import Mathlib.Tactic.Positivity
import Mathlib.Tactic.Ring

/-!
# Wilson bounds

`wilson_bound` of `eval/acceptance.py` in exact arithmetic: both bounds grow with the rate
(`wilsonBound_mono`), stand on either side of it and stay between 0 and 1.
-/

namespace MainframeRag.Eval

variable {K : Type} [Field K] [LinearOrder K] [IsStrictOrderedRing K]

/-- What is taken from `math` and `statistics`, and `round` to four digits. -/
structure Numerics (K : Type) where
  sqrt : K → K
  /-- `NormalDist().inv_cdf` -/
  invCdf : K → K
  round : K → K

structure Numerics.Laws (N : Numerics K) : Prop where
  sqrt_nonneg : ∀ x, 0 ≤ x → 0 ≤ N.sqrt x
  mul_self_sqrt : ∀ x, 0 ≤ x → N.sqrt x * N.sqrt x = x
  invCdf_nonneg : ∀ c, 1 / 2 < c → c < 1 → 0 ≤ N.invCdf c

inductive Side
  | lower
  | upper
  deriving DecidableEq

variable (N : Numerics K)

/-- What the margin is the root of. -/
def wilsonSpread (p z : K) (n : Nat) : K := p * (1 - p) / n + z * z / (4 * n * n)

/-- `wilson_bound` for `n > 0`. -/
def wilsonBound (successes : K) (n : Nat) (confidence : K) (side : Side) : K :=
  let z := N.invCdf confidence
  let p := successes / n
  let centre := p + z * z / (2 * n)
  let margin := z * N.sqrt (wilsonSpread p z n)
  let denom := 1 + z * z / n
  match side with
  | .lower => (centre - margin) / denom
  | .upper => (centre + margin) / denom

variable {N}

theorem wilsonSpread_ge {p z : K} {n : Nat} (hp : 0 ≤ p) (hp' : p ≤ 1) (hn : 0 < n) :
    z / (2 * n) * (z / (2 * n)) ≤ wilsonSpread p z n := by
  have hn' : (0 : K) < n := Nat.cast_pos.mpr hn
  have hvar : 0 ≤ p * (1 - p) / n := by
    have := mul_nonneg hp (sub_nonneg.mpr hp')
    positivity
  have hsq : z / (2 * n) * (z / (2 * n)) = z * z / (4 * n * n) := by
    field_simp
    ring
  rw [wilsonSpread, hsq]
  exact le_add_of_nonneg_left hvar

/-- The root is at least its value at the rate 0. -/
theorem le_sqrt_wilsonSpread (hN : N.Laws) {p z : K} {n : Nat} (hp : 0 ≤ p) (hp' : p ≤ 1) (hz : 0 ≤ z)
    (hn : 0 < n) : z / (2 * n) ≤ N.sqrt (wilsonSpread p z n) := by
  have hn' : (0 : K) < n := Nat.cast_pos.mpr hn
  have hlow : 0 ≤ z / (2 * n) := by positivity
  have hspread := wilsonSpread_ge (z := z) hp hp' hn
  have hpos : 0 ≤ wilsonSpread p z n := (mul_self_nonneg _).trans hspread
  rw [← hN.mul_self_sqrt _ hpos] at hspread
  exact (mul_self_le_mul_self_iff hlow (hN.sqrt_nonneg _ hpos)).mpr hspread

/-- The margin grows slower than the rate. -/
theorem margin_le (hN : N.Laws) {p q z : K} {n : Nat} (hp : 0 ≤ p) (hpq : p ≤ q) (hq : q ≤ 1)
    (hz : 0 ≤ z) (hn : 0 < n) :
    z * (N.sqrt (wilsonSpread q z n) - N.sqrt (wilsonSpread p z n)) ≤ q - p := by
  have hn' : (0 : K) < n := Nat.cast_pos.mpr hn
  have hSp := le_sqrt_wilsonSpread hN hp (hpq.trans hq) hz hn
  have hSq := le_sqrt_wilsonSpread hN (hp.trans hpq) hq hz hn
  have hp0 : 0 ≤ wilsonSpread p z n :=
    (mul_self_nonneg _).trans (wilsonSpread_ge (z := z) hp (hpq.trans hq) hn)
  have hq0 : 0 ≤ wilsonSpread q z n :=
    (mul_self_nonneg _).trans (wilsonSpread_ge (z := z) (hp.trans hpq) hq hn)
  have hlow : 0 ≤ z / (2 * n) := by positivity
  have hpp := hN.mul_self_sqrt _ hp0
  have hqq := hN.mul_self_sqrt _ hq0
  set Sp := N.sqrt (wilsonSpread p z n)
  set Sq := N.sqrt (wilsonSpread q z n)
  rcases le_or_gt Sq Sp with hle | hlt
  · exact (mul_nonpos_of_nonneg_of_nonpos hz (sub_nonpos.mpr hle)).trans (sub_nonneg.mpr hpq)
  · have hsum : 0 < Sq + Sp := by linarith
    have hprod : (Sq - Sp) * (Sq + Sp) = (q - p) * (1 - p - q) / n := by
      have : (Sq - Sp) * (Sq + Sp) = Sq * Sq - Sp * Sp := by ring
      rw [this, hqq, hpp, wilsonSpread, wilsonSpread]
      ring
    have hhalf : z / n ≤ Sq + Sp := by
      have : z / n = z / (2 * n) + z / (2 * n) := by
        field_simp
        ring
      linarith
    have hone : z * (1 - p - q) / n ≤ z / n := by
      apply div_le_div_of_nonneg_right _ hn'.le
      have := mul_nonneg hz (add_nonneg hp (hp.trans hpq))
      linarith
    refine le_of_mul_le_mul_right ?_ hsum
    calc z * (Sq - Sp) * (Sq + Sp) = (q - p) * (z * (1 - p - q) / n) := by
          rw [mul_assoc, hprod]
          ring
      _ ≤ (q - p) * (Sq + Sp) :=
          mul_le_mul_of_nonneg_left (hone.trans hhalf) (sub_nonneg.mpr hpq)

/-- Failures have the spread of successes. -/
theorem wilsonSpread_symm (p z : K) (n : Nat) : wilsonSpread (1 - p) z n = wilsonSpread p z n := by
  unfold wilsonSpread
  ring

/-- The margin falls slower than the rate grows. -/
theorem margin_ge (hN : N.Laws) {p q z : K} {n : Nat} (hp : 0 ≤ p) (hpq : p ≤ q) (hq : q ≤ 1)
    (hz : 0 ≤ z) (hn : 0 < n) :
    z * (N.sqrt (wilsonSpread p z n) - N.sqrt (wilsonSpread q z n)) ≤ q - p := by
  have h := margin_le hN (sub_nonneg.mpr hq) (sub_le_sub_left hpq 1) (sub_le_self 1 hp) hz hn
  rw [wilsonSpread_symm, wilsonSpread_symm] at h
  linarith

theorem wilsonDenom_pos (z : K) {n : Nat} (hn : 0 < n) : 0 < 1 + z * z / n := by
  have hn' : (0 : K) < n := Nat.cast_pos.mpr hn
  have := mul_self_nonneg z
  positivity

/-- More successes have higher bounds. -/
theorem wilsonBound_mono (hN : N.Laws) {s t c : K} {n : Nat} (side : Side) (hs : 0 ≤ s) (hst : s ≤ t)
    (ht : t ≤ n) (hn : 0 < n) (hc : 1 / 2 < c) (hc' : c < 1) :
    wilsonBound N s n c side ≤ wilsonBound N t n c side := by
  have hn' : (0 : K) < n := Nat.cast_pos.mpr hn
  have hz := hN.invCdf_nonneg c hc hc'
  have hp : 0 ≤ s / n := div_nonneg hs hn'.le
  have hpq : s / n ≤ t / n := div_le_div_of_nonneg_right hst hn'.le
  have hq : t / n ≤ 1 := (div_le_one hn').mpr ht
  have hdenom := wilsonDenom_pos (N.invCdf c) hn
  cases side with
  | lower =>
    have hmargin := margin_le hN hp hpq hq hz hn
    refine div_le_div_of_nonneg_right ?_ hdenom.le
    rw [mul_sub] at hmargin
    linarith
  | upper =>
    have hmargin := margin_ge hN hp hpq hq hz hn
    refine div_le_div_of_nonneg_right ?_ hdenom.le
    rw [mul_sub] at hmargin
    linarith

/-! ## The bounds around the rate -/

section

variable (hN : N.Laws) {s c : K} {n : Nat} (hn : 0 < n) (hc : 1 / 2 < c) (hc' : c < 1)
include hN hn hc hc'

theorem wilsonLower_le (hs : 0 ≤ s) (hs' : s ≤ n) : wilsonBound N s n c .lower ≤ s / n := by
  have hn' : (0 : K) < n := Nat.cast_pos.mpr hn
  have hz := hN.invCdf_nonneg c hc hc'
  have hp : 0 ≤ s / n := div_nonneg hs hn'.le
  have hroot := le_sqrt_wilsonSpread hN hp ((div_le_one hn').mpr hs') hz hn
  refine (div_le_iff₀ (wilsonDenom_pos (N.invCdf c) hn)).mpr ?_
  have hmargin : N.invCdf c * (N.invCdf c / (2 * n)) ≤
      N.invCdf c * N.sqrt (wilsonSpread (s / n) (N.invCdf c) n) := mul_le_mul_of_nonneg_left hroot hz
  have hcentre : N.invCdf c * N.invCdf c / (2 * n) = N.invCdf c * (N.invCdf c / (2 * n)) :=
    mul_div_assoc ..
  have hrate : 0 ≤ s / n * (N.invCdf c * N.invCdf c / n) := by positivity
  rw [mul_add, mul_one]
  linarith

theorem le_wilsonUpper (hs : 0 ≤ s) (hs' : s ≤ n) : s / n ≤ wilsonBound N s n c .upper := by
  have hn' : (0 : K) < n := Nat.cast_pos.mpr hn
  have hz := hN.invCdf_nonneg c hc hc'
  have hp : 0 ≤ s / n := div_nonneg hs hn'.le
  have hp' : s / n ≤ 1 := (div_le_one hn').mpr hs'
  have hroot := le_sqrt_wilsonSpread hN hp hp' hz hn
  refine (le_div_iff₀ (wilsonDenom_pos (N.invCdf c) hn)).mpr ?_
  have hmargin : N.invCdf c * (N.invCdf c / (2 * n)) ≤
      N.invCdf c * N.sqrt (wilsonSpread (s / n) (N.invCdf c) n) := mul_le_mul_of_nonneg_left hroot hz
  have hcentre : N.invCdf c * N.invCdf c / (2 * n) = N.invCdf c * (N.invCdf c / (2 * n)) :=
    mul_div_assoc ..
  have hhalves : N.invCdf c * N.invCdf c / n =
      N.invCdf c * (N.invCdf c / (2 * n)) + N.invCdf c * (N.invCdf c / (2 * n)) := by
    field_simp
    ring
  have hrate : s / n * (N.invCdf c * N.invCdf c / n) ≤ N.invCdf c * N.invCdf c / n :=
    mul_le_of_le_one_left (by positivity) hp'
  rw [mul_add, mul_one]
  linarith

/-- The root where the rate is 0 or 1. -/
theorem sqrt_wilsonSpread_edge {p : K} (hp : p * (1 - p) = 0) :
    N.sqrt (wilsonSpread p (N.invCdf c) n) = N.invCdf c / (2 * n) := by
  have hn' : (0 : K) < n := Nat.cast_pos.mpr hn
  have hz := hN.invCdf_nonneg c hc hc'
  have hlow : 0 ≤ N.invCdf c / (2 * n) := by positivity
  have hsq : wilsonSpread p (N.invCdf c) n = N.invCdf c / (2 * n) * (N.invCdf c / (2 * n)) := by
    unfold wilsonSpread
    rw [hp]
    field_simp
    ring
  have hpos : 0 ≤ wilsonSpread p (N.invCdf c) n := hsq ▸ mul_self_nonneg _
  refine (mul_self_inj (hN.sqrt_nonneg _ hpos) hlow).mp ?_
  rw [hN.mul_self_sqrt _ hpos, hsq]

theorem wilsonLower_zero : wilsonBound N 0 n c .lower = 0 := by
  have hroot := sqrt_wilsonSpread_edge hN hn hc hc' (p := 0) (zero_mul _)
  simp only [wilsonBound, zero_div, hroot]
  rw [zero_add, ← mul_div_assoc, sub_self, zero_div]

theorem wilsonUpper_all : wilsonBound N (n : K) n c .upper = 1 := by
  have hn' : (0 : K) < n := Nat.cast_pos.mpr hn
  have hroot := sqrt_wilsonSpread_edge hN hn hc hc' (p := 1) (by rw [sub_self, mul_zero])
  simp only [wilsonBound, div_self hn'.ne', hroot]
  rw [div_eq_one_iff_eq (wilsonDenom_pos _ hn).ne']
  field_simp
  ring

theorem wilsonLower_nonneg (hs : 0 ≤ s) (hs' : s ≤ n) : 0 ≤ wilsonBound N s n c .lower := by
  have h := wilsonBound_mono hN .lower (le_refl 0) hs hs' hn hc hc'
  rwa [wilsonLower_zero hN hn hc hc'] at h

theorem wilsonUpper_le_one (hs : 0 ≤ s) (hs' : s ≤ n) : wilsonBound N s n c .upper ≤ 1 := by
  have h := wilsonBound_mono hN .upper hs hs' (le_refl _) hn hc hc'
  rwa [wilsonUpper_all hN hn hc hc'] at h

end

end MainframeRag.Eval
