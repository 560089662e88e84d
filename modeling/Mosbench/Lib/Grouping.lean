import Mathlib.Data.List.Perm.Basic
import Mathlib.Order.Lattice

/-!
Grouping pairs by their keys. What is to be grouped is given by the values of each key;
a key without values does not occur. The groups come in the order of the keys, one for each
key that occurs, with all values of the key. The order of the values within a group is left
open.
-/
namespace Mosbench.Grouping

open List

variable {K V : Type} [LinearOrder K]

def valuesOf (pairs : List (K × V)) (k : K) : List V := (pairs.filter fun p => p.1 = k).map Prod.snd

@[simp] theorem valuesOf_nil (k : K) : valuesOf ([] : List (K × V)) k = [] := rfl

theorem valuesOf_append (l m : List (K × V)) (k : K) : valuesOf (l ++ m) k = valuesOf l k ++ valuesOf m k := by
  rw [valuesOf, filter_append, map_append, valuesOf, valuesOf]

theorem valuesOf_singleton (key : K) (val : V) (k : K) :
    valuesOf [(key, val)] k = if key = k then [val] else [] := by
  rw [valuesOf, filter_singleton]
  split_ifs <;> simp_all

theorem valuesOf_cons (key : K) (val : V) (l : List (K × V)) (k : K) :
    valuesOf ((key, val) :: l) k = (if key = k then [val] else []) ++ valuesOf l k := by
  rw [← singleton_append, valuesOf_append, valuesOf_singleton]

theorem length_valuesOf_le (l : List (K × V)) (k : K) : (valuesOf l k).length ≤ l.length := by
  rw [valuesOf, length_map]
  exact length_filter_le _ l

theorem valuesOf_perm (h : l.Perm m) (k : K) : (valuesOf l k).Perm (valuesOf m k) :=
  (h.filter _).map _

theorem valuesOf_ne_nil {k : K} : valuesOf pairs k ≠ [] ↔ k ∈ pairs.map Prod.fst := by
  rw [valuesOf, ne_eq, map_eq_nil_iff, filter_eq_nil_iff, mem_map]
  simp

theorem flatMap_range_perm {A : Type*} {f g : ℕ → List A} (hi : i < n) (extra : List A)
    (hother : ∀ j, j ≠ i → g j = f j) (hself : (g i).Perm (f i ++ extra)) :
    ((range n).flatMap g).Perm ((range n).flatMap f ++ extra) := by
  induction n with
  | zero => exact absurd hi (Nat.not_lt_zero i)
  | succ n ih =>
    rw [range_succ, flatMap_append, flatMap_append, flatMap_singleton, flatMap_singleton]
    rcases Nat.lt_succ_iff_lt_or_eq.mp hi with hlt | rfl
    · rw [hother n (Nat.ne_of_gt hlt)]
      exact ((ih hlt).append_right _).trans (by
        rw [append_assoc, append_assoc]
        exact perm_append_comm.append_left _)
    · rw [append_assoc, flatMap_congr fun j hj => hother j (Nat.ne_of_lt (mem_range.mp hj))]
      exact hself.append_left _

theorem valuesOf_map (key : K) (vals : List V) (k : K) :
    valuesOf (vals.map (key, ·)) k = if key = k then vals else [] := by
  rw [valuesOf]
  split_ifs with hk
  · rw [filter_eq_self.mpr (by simp [hk]), map_map]
    exact map_id vals
  · rw [filter_eq_nil_iff.mpr (by simp [hk]), map_nil]

structure Groups (groups : List (K × List V)) (vals : K → List V) : Prop where
  sorted : groups.Pairwise fun x y => x.1 < y.1
  keys : ∀ k, k ∈ groups.map Prod.fst ↔ vals k ≠ []
  values : ∀ x ∈ groups, x.2.Perm (vals x.1)

structure Collects (groups : List (K × List V)) (vals : K → List V) : Prop where
  nodup : (groups.map Prod.fst).Nodup
  keys : ∀ k, k ∈ groups.map Prod.fst ↔ vals k ≠ []
  values : ∀ x ∈ groups, x.2.Perm (vals x.1)

namespace Groups

variable {vals : K → List V}

theorem nil (h : ∀ k, vals k = []) : Groups [] vals := ⟨.nil, by simp [h], by simp⟩

theorem congr (h : Groups groups vals) (hvals : ∀ k, (vals k).Perm (vals' k)) : Groups groups vals' where
  sorted := h.sorted
  keys k := by
    rw [h.keys, ne_eq, ne_eq, ← length_eq_zero_iff, ← length_eq_zero_iff, (hvals k).length_eq]
  values x hx := (h.values x hx).trans (hvals x.1)

theorem cons (h : Groups groups vals) (hlt : ∀ k', vals k' ≠ [] → k < k') (hne : vals' k ≠ [])
    (hother : ∀ k', k' ≠ k → vals' k' = vals k') : Groups ((k, vals' k) :: groups) vals' := by
  have hgroup : ∀ x ∈ groups, k < x.1 := fun x hx => hlt x.1 ((h.keys x.1).mp (mem_map_of_mem hx))
  refine ⟨pairwise_cons.mpr ⟨hgroup, h.sorted⟩, fun k' => ?_, fun x hx => ?_⟩
  · rw [map_cons, mem_cons, h.keys]
    by_cases hk : k' = k
    · simpa [hk] using hne
    · rw [hother k' hk]
      simp [hk]
  · rcases mem_cons.mp hx with rfl | hx
    · exact .refl _
    · rw [hother x.1 (hgroup x hx).ne']
      exact h.values x hx

theorem agree (h : Groups groups vals) (h' : Groups groups' vals) :
    Forall₂ (fun x y => x.1 = y.1 ∧ x.2.Perm y.2) groups groups' := by
  have hkeys : groups.map Prod.fst = groups'.map Prod.fst := by
    have hsorted := pairwise_map.mpr h.sorted
    have hsorted' := pairwise_map.mpr h'.sorted
    refine Perm.eq_of_pairwise (fun a b _ _ hab hba => absurd hba hab.not_gt) hsorted hsorted' ?_
    rw [perm_ext_iff_of_nodup (hsorted.imp ne_of_lt) (hsorted'.imp ne_of_lt)]
    intro k
    rw [h.keys, h'.keys]
  rw [← forall₂_eq_eq_eq, forall₂_map_left_iff, forall₂_map_right_iff] at hkeys
  refine forall₂_iff_zip.mpr ⟨hkeys.length_eq, fun {x y} hxy => ?_⟩
  obtain ⟨hx, hy⟩ := of_mem_zip hxy
  have heq : x.1 = y.1 := forall₂_zip hkeys hxy
  refine ⟨heq, (h.values x hx).trans ?_⟩
  rw [heq]
  exact (h'.values y hy).symm

theorem collects (h : Groups groups vals) : Collects groups vals :=
  ⟨(pairwise_map.mpr h.sorted).imp ne_of_lt, h.keys, h.values⟩

end Groups

namespace Collects

section

omit [LinearOrder K]

theorem nil (h : ∀ k, vals k = []) : Collects [] vals := ⟨.nil, by simp [h], by simp⟩

theorem congr (h : Collects groups vals) (hvals : ∀ k, (vals k).Perm (vals' k)) : Collects groups vals' where
  nodup := h.nodup
  keys k := by
    rw [h.keys, ne_eq, ne_eq, ← length_eq_zero_iff, ← length_eq_zero_iff, (hvals k).length_eq]
  values x hx := (h.values x hx).trans (hvals x.1)

theorem append (h : Collects groups vals) (h' : Collects groups' vals') (hdisj : ∀ k, vals k ≠ [] → vals' k = []) :
    Collects (groups ++ groups') fun k => vals k ++ vals' k := by
  have hother : ∀ k, vals' k ≠ [] → vals k = [] := fun k hk => not_not.mp fun hv => hk (hdisj k hv)
  refine ⟨?_, fun k => ?_, fun x hx => ?_⟩
  · rw [map_append, nodup_append]
    refine ⟨h.nodup, h'.nodup, fun k hk k' hk' heq => ?_⟩
    subst heq
    exact (h'.keys k).mp hk' (hdisj k ((h.keys k).mp hk))
  · rw [map_append, mem_append, h.keys, h'.keys, ne_eq, ne_eq, ne_eq, append_eq_nil_iff, not_and_or]
  · rcases mem_append.mp hx with hx | hx
    · rw [hdisj x.1 ((h.keys x.1).mp (mem_map_of_mem hx)), append_nil]
      exact h.values x hx
    · rw [hother x.1 ((h'.keys x.1).mp (mem_map_of_mem hx)), nil_append]
      exact h'.values x hx

end

end Collects

end Mosbench.Grouping
