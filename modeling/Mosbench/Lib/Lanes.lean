import Mathlib.Algebra.BigOperators.Fin
import Mathlib.Data.Nat.Bitwise
import Mathlib.Tactic.Ring

/-!
Words made of equally wide lanes. `pack w v` places the numbers `v 0, v 1, …`
side by side in lanes of `w` bits. Sums of packed words are packed lane by
lane as long as no lane overflows; single bits are read inside their lane.
-/
namespace Mosbench.Lanes

open Finset

def pack (w : ℕ) (v : Fin k → ℕ) : ℕ := ∑ i, v i * 2 ^ (w * i.val)

theorem pack_succ (w : ℕ) (v : Fin (k + 1) → ℕ) :
    pack w v = v 0 + 2 ^ w * pack w (fun i => v i.succ) := by
  unfold pack
  rw [Fin.sum_univ_succ, mul_sum]
  congr 1
  · simp
  · apply sum_congr rfl
    intro i _
    rw [Fin.val_succ, Nat.mul_add, pow_add]
    ring

theorem pack_add (w : ℕ) (u v : Fin k → ℕ) : pack w (fun i => u i + v i) = pack w u + pack w v := by
  unfold pack
  rw [← sum_add_distrib]
  exact sum_congr rfl fun i _ => Nat.add_mul _ _ _

theorem pack_single (w : ℕ) (i : Fin k) (x : ℕ) :
    pack w (fun j => if j = i then x else 0) = x * 2 ^ (w * i.val) := by
  unfold pack
  rw [sum_eq_single i]
  · simp
  · intro j _ hj
    simp [hj]
  · simp

theorem testBit_pack (w : ℕ) (v : Fin k → ℕ) (hv : ∀ i, v i < 2 ^ w)
    (i : Fin k) (j : ℕ) (hj : j < w) :
    (pack w v).testBit (w * i.val + j) = (v i).testBit j := by
  induction k with
  | zero => exact i.elim0
  | succ k ih =>
    rw [pack_succ, Nat.add_comm]
    cases i using Fin.cases with
    | zero =>
      rw [Fin.val_zero, Nat.mul_zero, Nat.zero_add]
      rw [Nat.testBit_two_pow_mul_add _ (hv 0), if_pos hj]
    | succ i =>
      have hidx : w * i.succ.val + j = w + (w * i.val + j) := by
        rw [Fin.val_succ]
        ring
      rw [hidx, Nat.testBit_two_pow_mul_add _ (hv 0), if_neg (by omega)]
      rw [Nat.add_sub_cancel_left]
      exact ih (fun i => v i.succ) (fun i => hv i.succ) i

end Mosbench.Lanes
