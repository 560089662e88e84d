import Mathlib.Data.List.Sort

/-!
Comparison functions as C has them: the sign of an integer. A `Comparator` orders
its elements by a total preorder, so that different elements may compare equal. A
`KeyComparator` agrees with a linear order. Sorting is a parameter: anything that
returns the same elements in order.
-/
namespace Mosbench

structure Comparator (α : Type*) where
  cmp : α → α → ℤ
  swap : ∀ a b, 0 ≤ cmp a b ↔ cmp b a ≤ 0
  trans : ∀ a b c, cmp a b ≤ 0 → cmp b c ≤ 0 → cmp a c ≤ 0

namespace Comparator

variable (c : Comparator α)

def le (a b : α) : Prop := c.cmp a b ≤ 0

def lt (a b : α) : Prop := c.cmp a b < 0

instance : DecidableRel c.le := fun a b => inferInstanceAs (Decidable (c.cmp a b ≤ 0))

instance : DecidableRel c.lt := fun a b => inferInstanceAs (Decidable (c.cmp a b < 0))

variable {c}

theorem nonneg_iff : 0 ≤ c.cmp x y ↔ c.le y x := c.swap x y

theorem not_le : ¬ c.le x y ↔ c.lt y x := by
  rw [← nonneg_iff, lt, Int.not_le]

theorem not_lt : ¬ c.lt x y ↔ c.le y x := by
  rw [← nonneg_iff, lt, Int.not_lt]

theorem pos_iff : 0 < c.cmp x y ↔ c.lt y x := by
  rw [← not_le, le, Int.not_le]

theorem le_refl (x : α) : c.le x x := by
  have h := c.swap x x
  unfold le
  omega

theorem le_trans (h : c.le x y) (h' : c.le y z) : c.le x z := c.trans x y z h h'

theorem lt_of_lt_of_le (h : c.lt x y) (h' : c.le y z) : c.lt x z := by
  rw [← not_le] at h ⊢
  exact fun hzx => h (le_trans h' hzx)

theorem lt_of_le_of_lt (h : c.le x y) (h' : c.lt y z) : c.lt x z := by
  rw [← not_le] at h' ⊢
  exact fun hzx => h' (le_trans hzx h)

theorem le_of_lt (h : c.lt x y) : c.le x y := Int.le_of_lt h

theorem le_total (x y : α) : c.le x y ∨ c.le y x := by
  by_cases h : c.le x y
  · exact .inl h
  · exact .inr (le_of_lt (not_le.mp h))

def comap (c : Comparator α) (f : β → α) : Comparator β where
  cmp a b := c.cmp (f a) (f b)
  swap a b := c.swap (f a) (f b)
  trans a b d := c.trans (f a) (f b) (f d)

end Comparator

structure KeyComparator (K : Type*) [LinearOrder K] where
  cmp : K → K → ℤ
  neg_iff : ∀ a b, cmp a b < 0 ↔ a < b
  pos_iff : ∀ a b, 0 < cmp a b ↔ b < a

namespace KeyComparator

variable [LinearOrder K] (c : KeyComparator K)

theorem eq_zero_iff (a b : K) : c.cmp a b = 0 ↔ a = b := by
  have hneg := c.neg_iff a b
  have hpos := c.pos_iff a b
  constructor
  · intro h
    exact le_antisymm (not_lt.mp fun hlt => by have := hpos.mpr hlt; omega)
      (not_lt.mp fun hlt => by have := hneg.mpr hlt; omega)
  · rintro rfl
    have h := lt_irrefl a
    rw [← hpos] at h
    have h' := lt_irrefl a
    rw [← hneg] at h'
    omega

def toComparator : Comparator K where
  cmp := c.cmp
  swap a b := by
    have hneg := c.neg_iff a b
    have hpos := c.pos_iff b a
    rw [← not_lt, hneg, ← not_lt, hpos]
  trans a b d hab hbd := by
    have hle : ∀ {x y}, c.cmp x y ≤ 0 ↔ x ≤ y := by
      intro x y
      rw [← not_lt, c.pos_iff, not_lt]
    rw [hle] at hab hbd ⊢
    exact hab.trans hbd

theorem le_iff : c.toComparator.le a b ↔ a ≤ b := by
  rw [← not_lt, ← c.pos_iff, not_lt]
  rfl

theorem lt_iff : c.toComparator.lt a b ↔ a < b := c.neg_iff a b

def difference : KeyComparator ℕ where
  cmp a b := (a : ℤ) - b
  neg_iff a b := by omega
  pos_iff a b := by omega

end KeyComparator

/-- What is assumed of the C library's qsort. -/
structure QSort {α : Type*} (c : Comparator α) where
  sort : List α → List α
  perm : ∀ l, (sort l).Perm l
  sorted : ∀ l, (sort l).Pairwise c.le

namespace QSort

variable {α : Type*}

theorem length_sort (q : QSort c) (l : List α) : (q.sort l).length = l.length :=
  (q.perm l).length_eq

def insertion (c : Comparator α) : QSort c where
  sort := List.insertionSort c.le
  perm := List.perm_insertionSort c.le
  sorted l := by
    have : Std.Total c.le := ⟨Comparator.le_total⟩
    have : IsTrans α c.le := ⟨fun _ _ _ => Comparator.le_trans⟩
    exact List.pairwise_insertionSort c.le l

end QSort

end Mosbench
