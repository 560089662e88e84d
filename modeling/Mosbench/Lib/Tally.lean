import Mathlib.Algebra.GroupWithZero.Nat
import Mathlib.Algebra.Order.BigOperators.Group.Finset
import Mathlib.Data.Fintype.BigOperators

/-!
Tallies over a finite set of processes. A global counter is the sum of what
each process contributes; a step of one process changes one summand.
-/
namespace Mosbench.Tally

open List

variable [Fintype P] [DecidableEq P] {f g : P → ℕ}

theorem sum_add_of_agree (h : ∀ q, q ≠ p → g q = f q) : ∑ q, g q + f p = ∑ q, f q + g p := by
  rw [← Finset.add_sum_erase _ g (Finset.mem_univ p), ← Finset.add_sum_erase _ f (Finset.mem_univ p)]
  have hrest : ∑ q ∈ Finset.univ.erase p, g q = ∑ q ∈ Finset.univ.erase p, f q :=
    Finset.sum_congr rfl fun q hq => h q (Finset.ne_of_mem_erase hq)
  omega

theorem sum_eq_add_length {X : List P} (hX : X.Nodup) (hin : ∀ q ∈ X, g q = f q + 1)
    (hout : ∀ q, q ∉ X → g q = f q) : ∑ q, g q = ∑ q, f q + X.length := by
  have hg : ∀ q, g q = f q + if q ∈ X.toFinset then 1 else 0 := by
    intro q
    by_cases hq : q ∈ X
    · simp [hq, hin q hq]
    · simp [hq, hout q hq]
  simp only [hg, Finset.sum_add_distrib, Finset.sum_ite_mem, Finset.univ_inter]
  rw [← Finset.card_eq_sum_ones, toFinset_card_of_nodup hX]

theorem sum_range_of_agree {f g : ℕ → ℕ} (hi : i < n) (h : ∀ j, j ≠ i → g j = f j) :
    ((List.range n).map g).sum + f i = ((List.range n).map f).sum + g i := by
  induction n with
  | zero => exact absurd hi (Nat.not_lt_zero i)
  | succ n ih =>
    rw [range_succ, map_append, map_append, sum_append, sum_append, map_singleton,
      map_singleton, sum_singleton, sum_singleton]
    rcases Nat.lt_succ_iff_lt_or_eq.mp hi with hlt | rfl
    · have := ih hlt
      rw [h n hlt.ne']
      omega
    · rw [map_congr_left fun j hj => h j (mem_range.mp hj).ne]
      omega

omit [DecidableEq P] in
theorem le_sum (f : P → ℕ) (p : P) : f p ≤ ∑ q, f q :=
  Finset.single_le_sum (fun _ _ => Nat.zero_le _) (Finset.mem_univ p)

theorem eq_zero_of_sum_le (h : ∑ q, f q ≤ f p) (hq : q ≠ p) : f q = 0 := by
  rw [← Finset.add_sum_erase _ f (Finset.mem_univ p)] at h
  have hle : f q ≤ ∑ x ∈ Finset.univ.erase p, f x :=
    Finset.single_le_sum (fun _ _ => Nat.zero_le _) (Finset.mem_erase.mpr ⟨hq, Finset.mem_univ q⟩)
  omega

omit [DecidableEq P] in
theorem sum_le_card (h : ∀ q, f q ≤ 1) : ∑ q, f q ≤ Fintype.card P := by
  calc ∑ q, f q ≤ ∑ _q : P, 1 := Finset.sum_le_sum fun q _ => h q
    _ = Fintype.card P := by simp

end Mosbench.Tally
