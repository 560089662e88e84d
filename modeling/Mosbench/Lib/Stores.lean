import Mathlib.Data.List.Nodup
import Mathlib.Algebra.Ring.Int.Defs

/-!
Memory that several writers fill. Where no place is written twice, the order of the writes
does not matter, so the result of one order is the result of every interleaving.
-/
namespace Mosbench.Stores

open List

variable {I A : Type}

section Order

variable [DecidableEq I] {mem : I → Option A}

def store (mem : I → Option A) (ws : List (I × A)) : I → Option A :=
  ws.foldl (fun mem w => Function.update mem w.1 (some w.2)) mem

theorem store_of_notMem (h : i ∉ ws.map Prod.fst) : store mem ws i = mem i := by
  induction ws generalizing mem with
  | nil => rfl
  | cons w ws ih =>
    rw [map_cons, mem_cons, not_or] at h
    rw [store, foldl_cons, ← store, ih h.2, Function.update_of_ne h.1]

theorem store_of_mem (hnodup : (ws.map Prod.fst).Nodup) (h : (i, x) ∈ ws) : store mem ws i = some x := by
  induction ws generalizing mem with
  | nil => simp at h
  | cons w ws ih =>
    obtain ⟨hw, hnodup'⟩ := nodup_cons.mp hnodup
    rw [store, foldl_cons, ← store]
    rcases mem_cons.mp h with rfl | h
    · rw [store_of_notMem hw, Function.update_self]
    · exact ih hnodup' h

theorem store_perm (hnodup : (ws.map Prod.fst).Nodup) (hperm : ws'.Perm ws) : store mem ws' = store mem ws := by
  have hnodup' : (ws'.map Prod.fst).Nodup := (hperm.map Prod.fst).nodup_iff.mpr hnodup
  funext i
  by_cases hi : i ∈ ws.map Prod.fst
  · obtain ⟨w, hw, rfl⟩ := mem_map.mp hi
    rw [store_of_mem hnodup hw, store_of_mem hnodup' (hperm.mem_iff.mpr hw)]
  · rw [store_of_notMem hi, store_of_notMem fun h => hi ((hperm.map Prod.fst).mem_iff.mp h)]

end Order

def block (start : ℤ) : List A → List (ℤ × A)
  | [] => []
  | x :: xs => (start, x) :: block (start + 1) xs

theorem block_append (start : ℤ) (xs ys : List A) :
    block start (xs ++ ys) = block start xs ++ block (start + xs.length) ys := by
  induction xs generalizing start with
  | nil => simp [block]
  | cons x xs ih =>
    rw [cons_append, block, block, ih, cons_append, length_cons]
    congr 3
    omega

theorem map_fst_block (start : ℤ) (xs : List A) :
    (block start xs).map Prod.fst = (List.range xs.length).map fun i : ℕ => start + i := by
  induction xs generalizing start with
  | nil => rfl
  | cons x xs ih =>
    rw [block, map_cons, ih, length_cons, range_succ_eq_map, map_cons, map_map]
    congr 1
    · omega
    · refine map_congr_left fun i _ => ?_
      simp only [Function.comp_apply, Nat.succ_eq_add_one]
      omega

theorem nodup_block (start : ℤ) (xs : List A) : ((block start xs).map Prod.fst).Nodup := by
  rw [map_fst_block]
  refine List.Nodup.map (fun i j hij => ?_) nodup_range
  omega

theorem mem_block {k : ℕ} (h : xs[k]? = some x) :
    (start + k, x) ∈ block start xs := by
  induction xs generalizing start k with
  | nil => simp at h
  | cons y xs ih =>
    cases k with
    | zero =>
      obtain rfl := Option.some.inj h
      simp [block]
    | succ k =>
      rw [block, show start + ((k + 1 : ℕ) : ℤ) = start + 1 + k by omega]
      exact mem_cons_of_mem _ (ih h)

theorem store_block {start : ℤ} (hperm : ws.Perm (block start xs)) (k : ℕ) :
    store (fun _ => none) ws (start + k) = xs[k]? := by
  rw [store_perm (nodup_block start xs) hperm]
  cases hk : xs[k]? with
  | some x => exact store_of_mem (nodup_block start xs) (mem_block hk)
  | none =>
    refine store_of_notMem fun hmem => ?_
    rw [map_fst_block] at hmem
    obtain ⟨j, hj, heq⟩ := mem_map.mp hmem
    rw [mem_range] at hj
    have hlen := List.getElem?_eq_none_iff.mp hk
    omega

end Mosbench.Stores
