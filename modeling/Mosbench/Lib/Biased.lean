import Mathlib.Data.BitVec

/-!
Two counts in one signed 64-bit word. The word for `a` active and `w` waiting
units is `a - 2^32 * w` modulo `2^64`, so that one atomic addition moves units
between the counts. While the counts stay in range the low half is `a`, the word
is zero only when both are, and its sign tells whether `w` is.
-/
namespace Mosbench.Biased

open BitVec

def word (a w : ℕ) : BitVec 64 := BitVec.ofInt 64 (a - 2 ^ 32 * w)

theorem word_add_ofInt {a w a' w' : ℕ} (h : (a' : ℤ) - 2 ^ 32 * w' = a - 2 ^ 32 * w + d) :
    word a w + BitVec.ofInt 64 d = word a' w' := by
  unfold word
  rw [← ofInt_add, h]

theorem toNat_word (a w : ℕ) : ((word a w).toNat : ℤ) = ((a : ℤ) - 2 ^ 32 * w) % 2 ^ 64 := by
  unfold word
  rw [toNat_ofInt, Int.toNat_of_nonneg (Int.emod_nonneg _ (by decide))]
  rfl

theorem word_and_low_eq_zero (a w : ℕ) : word a w &&& 0xffffffff#64 = 0#64 ↔ a % 2 ^ 32 = 0 := by
  have hlow : (word a w &&& 0xffffffff#64).toNat = (word a w).toNat % 2 ^ 32 := by
    rw [toNat_and]
    exact Nat.and_two_pow_sub_one_eq_mod _ 32
  have hword := toNat_word a w
  rw [← toNat_inj, hlow]
  simp only [toNat_ofNat]
  omega

theorem word_eq_zero (ha : a < 2 ^ 32) (hw : w < 2 ^ 32) : word a w = 0#64 ↔ a = 0 ∧ w = 0 := by
  have hword := toNat_word a w
  rw [← toNat_inj]
  simp only [toNat_ofNat]
  omega

theorem msb_word (ha : a < 2 ^ 32) (hw : w < 2 ^ 31) : (word a w).msb = true ↔ w ≠ 0 := by
  have hword := toNat_word a w
  rw [msb_eq_decide, decide_eq_true_iff]
  omega

end Mosbench.Biased
