import Mathlib.Analysis.SpecialFunctions.Sqrt
import Mathlib.Data.Int.Log

/-!
Numbers with a significand of 53 bits, and rounding to one that is nearest, with any rule for ties.
The exponent is not bounded: sizes that a 64-bit integer or its square root can have are far from
the ends of the range.
-/
namespace Mosbench.Doubles

def Double : Set ℝ := {x | ∃ m e : ℤ, |m| ≤ 2 ^ 53 ∧ x = m * 2 ^ e}

/-- `y` is what `x` is rounded to. -/
structure Nearest (x y : ℝ) : Prop where
  mem : y ∈ Double
  le : ∀ z ∈ Double, |x - y| ≤ |x - z|

theorem natCast_mem_double {n : ℕ} (hn : n ≤ 2 ^ 53) : (n : ℝ) ∈ Double := by
  refine ⟨n, 0, ?_, by simp⟩
  rw [Nat.abs_cast]
  exact_mod_cast hn

namespace Nearest

theorem le_of_le (h : Nearest x y) (hz : z ∈ Double) (hxz : x ≤ z) : y ≤ z := by
  by_contra hlt
  have hle := h.le z hz
  rw [abs_of_nonpos (by linarith), abs_of_nonpos (by linarith)] at hle
  linarith

theorem ge_of_ge (h : Nearest x y) (hz : z ∈ Double) (hzx : z ≤ x) : z ≤ y := by
  by_contra hlt
  have hle := h.le z hz
  rw [abs_of_nonneg (by linarith), abs_of_nonneg (by linarith)] at hle
  linarith

end Nearest

theorem exists_near (hx : 0 < x) : ∃ z ∈ Double, |x - z| ≤ x / 2 ^ 53 := by
  have hunit : (0 : ℝ) < 2 ^ (Int.log 2 x - 52) := by positivity
  have hlow : 2 ^ 52 * (2 : ℝ) ^ (Int.log 2 x - 52) ≤ x := by
    rw [← zpow_natCast, ← zpow_add₀ two_ne_zero]
    simpa using Int.zpow_log_le_self (b := 2) Nat.one_lt_two hx
  have hhigh : x < 2 ^ 53 * (2 : ℝ) ^ (Int.log 2 x - 52) := by
    rw [← zpow_natCast, ← zpow_add₀ two_ne_zero, show ((53 : ℕ) : ℤ) + (Int.log 2 x - 52) = Int.log 2 x + 1 by omega]
    exact_mod_cast Int.lt_zpow_succ_log_self (b := 2) Nat.one_lt_two x
  generalize Int.log 2 x - 52 = e at hunit hlow hhigh
  have hround := abs_le.mp (abs_sub_round (x / 2 ^ e))
  have hlt : x / 2 ^ e < 2 ^ 53 := (div_lt_iff₀ hunit).mpr hhigh
  have hpos := div_pos hx hunit
  refine ⟨round (x / 2 ^ e) * 2 ^ e, ⟨_, e, ?_, rfl⟩, ?_⟩
  · have hbound : |(round (x / 2 ^ e) : ℝ)| < 2 ^ 53 + 1 := abs_lt.mpr ⟨by linarith, by linarith⟩
    exact Int.lt_add_one_iff.mp (by exact_mod_cast hbound)
  · calc |x - round (x / 2 ^ e) * 2 ^ e|
      _ = |x / 2 ^ e - round (x / 2 ^ e)| * 2 ^ e := by
        rw [← abs_of_pos hunit, ← abs_mul, abs_of_pos hunit, sub_mul, div_mul_cancel₀ x hunit.ne']
      _ ≤ 1 / 2 * 2 ^ e := mul_le_mul_of_nonneg_right (abs_sub_round _) hunit.le
      _ ≤ x / 2 ^ 53 := by linarith

theorem Nearest.error (h : Nearest x y) (hx : 0 ≤ x) : |x - y| ≤ x / 2 ^ 53 := by
  rcases hx.eq_or_lt with rfl | hpos
  · have hzero := h.le 0 (by simpa using natCast_mem_double (Nat.zero_le _))
    simpa using hzero
  · obtain ⟨z, hz, hle⟩ := exists_near hpos
    exact (h.le z hz).trans hle

theorem add_lt_of_lt {q : ℕ} (hy : y ∈ Double) (hq : q < 2 ^ 53) (hlt : (q : ℝ) < y) :
    (q : ℝ) + q / 2 ^ 53 < y := by
  obtain ⟨m, e, hm, rfl⟩ := hy
  have hq' : (q : ℝ) < 2 ^ 53 := by exact_mod_cast hq
  obtain ⟨d, rfl | rfl⟩ := e.eq_nat_or_neg
  · -- a number without a fraction
    have hlt' : (q : ℤ) < m * 2 ^ d := by exact_mod_cast hlt
    have hsucc : (q : ℝ) + 1 ≤ m * 2 ^ d := by exact_mod_cast hlt'
    rw [zpow_natCast]
    linarith
  · -- the unit is more than a part of 2^53 of the number
    have hunit : (0 : ℝ) < 2 ^ d := by positivity
    rw [zpow_neg, zpow_natCast, ← div_eq_mul_inv] at hlt ⊢
    have hlt' : (q : ℤ) * 2 ^ d < m := by exact_mod_cast (lt_div_iff₀ hunit).mp hlt
    have hsucc : (q : ℝ) * 2 ^ d + 1 ≤ m := by exact_mod_cast hlt'
    have hmle : (m : ℝ) ≤ 2 ^ 53 := by exact_mod_cast (abs_le.mp hm).2
    rw [lt_div_iff₀ hunit]
    linarith

theorem Nearest.sqrt_le {q : ℕ} (hs : Nearest (√x) s) (hq : q < 2 ^ 53) (hx : x ≤ q * q * (1 + 1 / 2 ^ 53)) : s ≤ q := by
  by_contra hlt
  have hgap := add_lt_of_lt hs.mem hq (not_le.mp hlt)
  have hnear := hs.le q (natCast_mem_double hq.le)
  have hroot : √x ≤ q + q / 2 ^ 54 := by
    refine Real.sqrt_le_iff.mpr ⟨by positivity, ?_⟩
    nlinarith [sq_nonneg ((q : ℝ) / 2 ^ 54)]
  rw [abs_of_nonpos (by linarith)] at hnear
  rcases abs_cases (√x - q) with ⟨habs, -⟩ | ⟨habs, -⟩ <;> rw [habs] at hnear <;> linarith

end Mosbench.Doubles
