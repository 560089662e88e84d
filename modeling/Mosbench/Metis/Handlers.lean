import Mathlib.Data.List.Dedup
import Mosbench.Metis.Arrays
import Mosbench.Metis.BTreeIter

/-!
The interface to collections of pairs (pc_handler_t in pchandler.h) and the two handlers that
keep the pairs in the order of their keys.
-/
namespace Mosbench.Metis

open Option
open KeyComparator (difference)

structure Handler (K V : Type) where
  Coll : Type
  Iter : Type
  init : Coll
  insertKv : Coll → K → V → ℕ → Option (Coll × Bool)
  insertKvs : Coll → KeyVals K V → Option Coll
  getLen : Coll → ℕ
  iterBegin : Coll → Option (Option Iter)
  iterNext : Bool → Coll × Iter → Option (Option (KeyVals K V × Coll × Iter))
  shallowFree : Coll → Coll

def hkvsbtree (cmp : K → K → ℤ) : Handler K V where
  Coll := BTree.Tree K V
  Iter := BTree.Iter
  init := .init
  insertKv bt key val hash := BTree.insertKvWith cmp bt key (·.insert? val) hash
  insertKvs := BTree.insertKvs cmp
  getLen := BTree.getLen
  iterBegin := BTree.iterBegin
  iterNext := BTree.iterNext
  shallowFree := BTree.shallowFree

def hkvsarr (cmp : K → K → ℤ) : Handler K V where
  Coll := KvsArr K V
  Iter := ℕ
  init := .init
  insertKv := KvsArr.insertKv cmp
  insertKvs := KvsArr.insertKvs cmp
  getLen := KvsArr.getLen
  iterBegin := KvsArr.iterBegin
  iterNext := KvsArr.iterNext
  shallowFree := Arr.shallowFree

namespace Handler

def insertAll (h : Handler K V) : h.Coll → List (KeyVal K V) → Option (h.Coll × List Bool)
  | coll, [] => some (coll, [])
  | coll, kv :: kvs =>
    (h.insertKv coll kv.key kv.val kv.hash).bind fun (coll, bnewkey) =>
    (insertAll h coll kvs).map fun (coll, flags) => (coll, bnewkey :: flags)

def iterate (h : Handler K V) (bclear : Bool) (coll : h.Coll) : Option (List (KeyVals K V)) :=
  (h.iterBegin coll).bind fun iter =>
  match iter with
  | none => some []
  | some iter => Iterator.toList (h.iterNext bclear) (h.getLen coll + 1) (coll, iter)

theorem insertAll_append (h : Handler K V) (coll : h.Coll) (kvs kvs' : List (KeyVal K V)) :
    h.insertAll coll (kvs ++ kvs') = (h.insertAll coll kvs).bind fun (coll, flags) =>
      (h.insertAll coll kvs').map fun (coll, flags') => (coll, flags ++ flags') := by
  induction kvs generalizing coll with
  | nil => simp [insertAll]
  | cons kv kvs ih =>
    simp only [List.cons_append, insertAll, ih]
    cases h.insertKv coll kv.key kv.val kv.hash with
    | none => rfl
    | some x =>
      simp only [bind_some]
      cases h.insertAll x.1 kvs with
      | none => rfl
      | some y => simp [Function.comp_def]

/-- What a handler does to the pairs that its collections have, as long as they fit. -/
structure Lawful [LinearOrder K] (h : Handler K V) (searched : Bool)
    (Rep : h.Coll → List (KeyVals K V) → Prop) : Prop where
  init : Rep h.init []
  insertKv : ∀ {coll es}, Rep coll es → Keyed.Sorted KeyVals.key es → ∀ key val hash,
    Fits searched (put key val hash es) → ∃ coll', h.insertKv coll key val hash = some (coll', decide (key ∉ es.map KeyVals.key)) ∧
      Rep coll' (put key val hash es)
  insertKvs : ∀ {coll es}, Rep coll es → ∀ kvs : KeyVals K V, kvs.key ∉ es.map KeyVals.key →
    (searched = true → es.length ≤ 2 ^ 30 + 2) → ∃ coll', h.insertKvs coll kvs = some coll' ∧ Rep coll' (putPair kvs es)
  getLen : ∀ {coll es}, Rep coll es → h.getLen coll = es.length
  iterBegin : ∀ {coll es}, Rep coll es → (h.iterBegin coll = some none ∧ es = []) ∨
    ∃ iter, h.iterBegin coll = some (some iter) ∧
      ∀ bclear, Iterator.Yields (h.iterNext bclear) (coll, iter) es

end Handler

section Laws

variable [LinearOrder K]

theorem hkvsbtree_lawful (c : KeyComparator K) :
    (hkvsbtree c.cmp : Handler K V).Lawful false BTree.Represents where
  init := BTree.represents_init
  insertKv h hsorted key val hash hfits := BTree.insertKvWith_spec h key hash
    (fun e => KeyVals.key_insert e val) (fun _ he hkey => hfits.insert?_eq hsorted he hkey)
    (KeyVals.insert?_fresh key hash val)
  insertKvs h kvs hnew _ := BTree.insertKvs_spec h kvs hnew
  getLen h := BTree.getLen_spec h
  iterBegin h := BTree.iterBegin_spec h

theorem hkvsarr_lawful (c : KeyComparator K) :
    (hkvsarr c.cmp : Handler K V).Lawful true KvsArr.Represents where
  init := KvsArr.represents_init
  insertKv h _ := KvsArr.insertKv_spec h
  insertKvs h kvs hnew hshort := KvsArr.insertKvs_spec h kvs hnew (hshort rfl)
  getLen h := (congrArg List.length h.elems).trans (List.length_map _)
  iterBegin h := .inr ⟨(0 : ℕ), rfl, KvsArr.iter_spec h⟩

end Laws

namespace Handler.Lawful

variable [LinearOrder K] {h : Handler K V} {Rep : h.Coll → List (KeyVals K V) → Prop}
  (law : h.Lawful searched Rep)

include law

theorem insertAll_spec (hrep : Rep coll es) (hsorted : Keyed.Sorted KeyVals.key es)
    (kvs : List (KeyVal K V)) (hfits : Fits searched (putAll es kvs)) :
    ∃ coll', h.insertAll coll kvs = some (coll', newKeys es kvs) ∧ Rep coll' (putAll es kvs) := by
  induction kvs generalizing coll es with
  | nil => exact ⟨coll, rfl, hrep⟩
  | cons kv kvs ih =>
    obtain ⟨coll₁, hinsert, hrep₁⟩ := law.insertKv hrep hsorted kv.key kv.val kv.hash
      (.of_putAll (sorted_put hsorted) kvs hfits)
    obtain ⟨coll₂, hall, hrep₂⟩ := ih hrep₁ (sorted_put hsorted) hfits
    refine ⟨coll₂, ?_, hrep₂⟩
    simp only [insertAll, hinsert, bind_some, hall, map_some, newKeys]

theorem iterate_spec (hrep : Rep coll es) (bclear : Bool) : h.iterate bclear coll = some es := by
  rw [iterate]
  rcases law.iterBegin hrep with ⟨hbegin, rfl⟩ | ⟨iter, hbegin, hyields⟩
  · rw [hbegin, bind_some]
  · rw [hbegin, bind_some]
    exact (hyields bclear).toList_eq (by rw [law.getLen hrep]; exact Nat.lt_succ_self _)

end Handler.Lawful

theorem fits_putAll [LinearOrder K] {kvs : List (KeyVal K V)}
    (hvals : ∀ k, (kvs.filter fun kv => kv.key = k).length ≤ 2 ^ 31)
    (hkeys : (kvs.map KeyVal.key).dedup.length ≤ 2 ^ 30 + 2) (searched : Bool) :
    Fits searched (putAll [] kvs) where
  values e he := by
    rw [← valuesAt_of_mem (sorted_putAll .nil kvs) he, valuesAt_putAll .nil,
      valuesAt_of_absent (by simp), List.nil_append, valuesOf_pair, List.length_map]
    exact hvals e.key
  keys _ := by
    refine le_trans ?_ hkeys
    rw [← List.length_map KeyVals.key]
    have hnodup : ((putAll [] kvs).map KeyVals.key).Nodup :=
      List.pairwise_map.mpr ((sorted_putAll .nil kvs).imp ne_of_lt)
    refine (List.subperm_of_subset hnodup fun k hk => ?_).length_le
    simpa using mem_key_putAll kvs |>.mp hk

/-- With at most 2^31 values of a key and 2^30 + 2 keys the two handlers cannot be told apart: they
return the same flags and the same length, and iterate over the same pairs. These are the inserted
keys, once each and in increasing order, each with its values in the order of insertion. -/
theorem handlers_agree [LinearOrder K] (c : KeyComparator K) (kvs : List (KeyVal K V)) (bclear : Bool)
    (hvals : ∀ k, (kvs.filter fun kv => kv.key = k).length ≤ 2 ^ 31)
    (hkeys : (kvs.map KeyVal.key).dedup.length ≤ 2 ^ 30 + 2) :
    ∃ bt arr flags es, (hkvsbtree c.cmp).insertAll (hkvsbtree c.cmp).init kvs = some (bt, flags) ∧
      (hkvsarr c.cmp).insertAll (hkvsarr c.cmp).init kvs = some (arr, flags) ∧
      (hkvsbtree c.cmp).getLen bt = es.length ∧ (hkvsarr c.cmp).getLen arr = es.length ∧
      (hkvsbtree c.cmp).iterate bclear bt = some es ∧ (hkvsarr c.cmp).iterate bclear arr = some es ∧
      es.Pairwise (fun e e' => e.key < e'.key) ∧
      (∀ k, k ∈ es.map KeyVals.key ↔ k ∈ kvs.map KeyVal.key) ∧
      ∀ e ∈ es, e.vals.items = (kvs.filter fun kv => kv.key = e.key).map KeyVal.val := by
  have hbtree := hkvsbtree_lawful (V := V) c
  have harr := hkvsarr_lawful (V := V) c
  have hfits := fits_putAll hvals hkeys
  obtain ⟨bt, hbt, hrep⟩ := hbtree.insertAll_spec hbtree.init .nil kvs (hfits _)
  obtain ⟨arr, harr', hrep'⟩ := harr.insertAll_spec harr.init .nil kvs (hfits _)
  have hsorted : Keyed.Sorted KeyVals.key (putAll [] kvs) := sorted_putAll List.Pairwise.nil kvs
  refine ⟨bt, arr, newKeys [] kvs, putAll [] kvs, hbt, harr', hbtree.getLen hrep, harr.getLen hrep',
    hbtree.iterate_spec hrep bclear, harr.iterate_spec hrep' bclear, hsorted, fun k => ?_,
    fun e he => ?_⟩
  · rw [mem_key_putAll]
    simp
  · rw [← valuesAt_of_mem hsorted he, valuesAt_putAll List.Pairwise.nil, valuesAt_of_absent (by simp),
      List.nil_append, valuesOf_pair]

theorem handlers_agree_three : ∃ bt arr flags es,
    (hkvsbtree difference.cmp).insertAll (hkvsbtree difference.cmp).init
      [⟨2, 20, 0⟩, ⟨1, 10, 0⟩, ⟨2, 21, 0⟩] = some (bt, flags) ∧
    (hkvsarr difference.cmp).insertAll (hkvsarr difference.cmp).init
      [⟨2, 20, 0⟩, ⟨1, 10, 0⟩, ⟨2, 21, 0⟩] = some (arr, flags) ∧
    (hkvsbtree difference.cmp).iterate true bt = some es ∧
    (hkvsarr difference.cmp).iterate true arr = some es := by
  obtain ⟨bt, arr, flags, es, hbt, harr, -, -, hes, hes', -⟩ :=
    handlers_agree difference [⟨2, 20, 0⟩, ⟨1, 10, 0⟩, ⟨2, 21, 0⟩] true
      (fun k => (List.length_filter_le _ _).trans (show 3 ≤ 2 ^ 31 by decide)) (by decide)
  exact ⟨bt, arr, flags, es, hbt, harr, hes, hes'⟩

/-- One value more than 2^31 for a key is too many. -/
theorem hkvsarr_overflows : (hkvsarr difference.cmp : Handler ℕ ℕ).insertAll
    (hkvsarr difference.cmp).init (List.replicate (2 ^ 31 + 1) ⟨0, 0, 0⟩) = none := by
  have law := hkvsarr_lawful (V := ℕ) difference
  obtain ⟨n, hn⟩ : ∃ n, 2 ^ 31 = n + 1 := ⟨2 ^ 31 - 1, by decide⟩
  have hdoubled : ((List.replicate (n + 1) 0).foldl Values.insert .empty).Doubled :=
    Values.doubled_foldl_insert _ (.inl rfl)
  have hitems := Values.items_foldl_insert (List.replicate (n + 1) 0) .empty
  have hlen : ((List.replicate (n + 1) 0).foldl Values.insert .empty).items.length = 2 ^ 31 := by
    rw [hitems, List.length_append, List.length_replicate, hn]
    exact Nat.zero_add _
  have hfits : Fits true (putAll [] (List.replicate (n + 1) (⟨0, 0, 0⟩ : KeyVal ℕ ℕ))) := by
    rw [putAll_replicate]
    exact ⟨fun e he => by rw [List.mem_singleton.mp he]; exact hlen.le, fun _ => show 1 ≤ _ by decide⟩
  obtain ⟨arr, harr, hrep⟩ := law.insertAll_spec law.init .nil _ hfits
  rw [putAll_replicate] at hrep
  have hnone : (hkvsarr difference.cmp).insertAll arr [⟨0, 0, 0⟩] = none := by
    change (KvsArr.insertKv difference.cmp arr 0 0 0).bind _ = none
    rw [KvsArr.insertKv_of_full (c := difference) hrep (hdoubled.full hlen)]
    rfl
  rw [hn, List.replicate_succ', Handler.insertAll_append, harr, bind_some]
  dsimp only
  rw [hnone, map_none]

end Mosbench.Metis
