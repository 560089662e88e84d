import Mathlib.Algebra.GroupWithZero.Nat

/-!
Integers written in decimal, as the conversion `%d` writes them: a number of at most `k`
digits takes at most `k + 1` characters.
-/
namespace Mosbench.Decimal

def decimal : Int → List Char
  | .ofNat n => Nat.toDigits 10 n
  | .negSucc n => '-' :: Nat.toDigits 10 (n + 1)

theorem length_decimal_le (hk : 0 < k) (hz : z.natAbs < 10 ^ k) : (decimal z).length ≤ k + 1 := by
  cases z with
  | ofNat n =>
    have hlen : (Nat.toDigits 10 n).length ≤ k := (Nat.length_toDigits_le_iff (by decide) hk).mpr hz
    exact Nat.le_succ_of_le hlen
  | negSucc n =>
    have hlen : (Nat.toDigits 10 (n + 1)).length ≤ k :=
      (Nat.length_toDigits_le_iff (by decide) hk).mpr hz
    exact Nat.succ_le_succ hlen

end Mosbench.Decimal
