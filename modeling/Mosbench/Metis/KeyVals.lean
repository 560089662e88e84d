import Mosbench.Lib.Grouping
import Mosbench.Lib.Keyed
import Mosbench.Metis.Bsearch

/-!
The pairs Metis collects (keyvals_t in mr-types.h): a key with the values emitted for
it, and how values are added (value_helper.c). There is neither a combiner nor a value
modifier. The lengths are unsigned, so that a full block of 2^31 values cannot grow.
-/
namespace Mosbench.Metis

open Keyed List

/-- `vals`, `len` and `alloc_len` of a keyvals_t: no more values than there is room for. -/
structure Values (V : Type) where
  items : List V
  allocLen : ℕ
  fits : items.length ≤ allocLen
deriving DecidableEq

namespace Values

variable {V : Type}

def empty : Values V := ⟨[], 0, le_rfl⟩

def combinerThreshold : ℕ := 8

def insert (vals : Values V) (val : V) : Values V where
  items := vals.items ++ [val]
  allocLen :=
    if vals.allocLen = 0 then combinerThreshold
    else if vals.allocLen = vals.items.length then vals.allocLen * 2
    else vals.allocLen
  fits := by
    have h := vals.fits
    rw [length_append, length_singleton]
    split_ifs with h0 hfull
    · unfold combinerThreshold
      omega
    · omega
    · omega

/-- Doubled, the length is no unsigned any more. -/
def Full (vals : Values V) : Prop := vals.allocLen = vals.items.length ∧ 2 ^ 31 ≤ vals.allocLen

instance (vals : Values V) : Decidable vals.Full := inferInstanceAs (Decidable (_ ∧ _))

/-- `values_insert`. The assertion on the memory fails when a full block cannot grow. -/
def insert? (vals : Values V) (val : V) : Option (Values V) :=
  if vals.Full then none else some (vals.insert val)

theorem insert?_eq {vals : Values V} (h : vals.items.length < 2 ^ 31) (val : V) :
    vals.insert? val = some (vals.insert val) :=
  if_neg fun hfull => by have := hfull.1; have := hfull.2; omega

theorem foldlM_insert?_eq (vals : Values V) (items : List V)
    (h : vals.items.length + items.length ≤ 2 ^ 31) :
    items.foldlM insert? vals = some (items.foldl insert vals) := by
  induction items generalizing vals with
  | nil => rfl
  | cons v items ih =>
    rw [length_cons] at h
    rw [foldlM_cons, insert?_eq (by omega), foldl_cons]
    exact ih _ (by simp only [insert, length_append, length_singleton]; omega)

theorem items_foldl_insert (items : List V) (vals : Values V) :
    (items.foldl insert vals).items = vals.items ++ items := by
  induction items generalizing vals with
  | nil => simp
  | cons v items ih => rw [foldl_cons, ih, insert, append_assoc, singleton_append]

/-- A block that grew by doubling has no more than twice the size of what it holds. -/
def Doubled (vals : Values V) : Prop :=
  vals = empty ∨ ∃ j, vals.allocLen = 2 ^ (j + 3) ∧ (j = 0 ∨ 2 ^ (j + 2) < vals.items.length)

theorem Doubled.insert {vals : Values V} (h : vals.Doubled) (val : V) : (vals.insert val).Doubled := by
  right
  rcases h with rfl | ⟨j, hj, hlen⟩
  · exact ⟨0, rfl, .inl rfl⟩
  have hfits := vals.fits
  have hpos := Nat.two_pow_pos (j + 3)
  simp only [Values.insert, length_append, length_singleton]
  rw [if_neg (by omega)]
  split_ifs with hfull
  · exact ⟨j + 1, by rw [hj, ← pow_succ], .inr (by rw [← hfull, hj]; exact Nat.lt_succ_self _)⟩
  · exact ⟨j, hj, hlen.imp id (Nat.lt_succ_of_lt ·)⟩

theorem Doubled.full {vals : Values V} (h : vals.Doubled) (hlen : vals.items.length = 2 ^ 31) :
    vals.Full := by
  rcases h with rfl | ⟨j, hj, hhalf⟩
  · cases hlen
  have hfits := vals.fits
  rw [hj, hlen] at hfits
  have hge : 31 ≤ j + 3 := (Nat.pow_le_pow_iff_right (by decide)).mp hfits
  have hlt : j + 2 < 31 := by
    rcases hhalf with rfl | hhalf
    · decide
    · rw [hlen] at hhalf
      exact (Nat.pow_lt_pow_iff_right (by decide)).mp hhalf
  obtain rfl : j = 28 := by omega
  exact ⟨hj.trans hlen.symm, hj.ge⟩

theorem doubled_foldl_insert (items : List V) {vals : Values V} (h : vals.Doubled) :
    (items.foldl insert vals).Doubled := by
  induction items generalizing vals with
  | nil => exact h
  | cons v items ih => exact ih (h.insert v)

def grow (need : ℕ) : ℕ → ℕ → ℕ
  | 0, allocLen => allocLen
  | fuel + 1, allocLen => if allocLen < need then grow need fuel (allocLen * 2) else allocLen

theorem le_grow (need fuel allocLen : ℕ) (hpos : 0 < allocLen) (h : need ≤ allocLen + fuel) :
    need ≤ grow need fuel allocLen := by
  induction fuel generalizing allocLen with
  | zero => exact h
  | succ fuel ih =>
    rw [grow]
    split_ifs with hlt
    · exact ih (allocLen * 2) (by omega) (by omega)
    · omega

def append (dst src : Values V) : Values V where
  items := dst.items ++ src.items
  allocLen :=
    if dst.allocLen = 0 then src.items.length
    else grow (dst.items.length + src.items.length) (dst.items.length + src.items.length) dst.allocLen
  fits := by
    have h := dst.fits
    rw [length_append]
    split_ifs with h0
    · omega
    · exact le_grow _ _ _ (by omega) (by omega)

end Values

structure KeyVals (K V : Type) where
  key : K
  vals : Values V
  hash : ℕ
deriving DecidableEq

structure KeyVal (K V : Type) where
  key : K
  val : V
  hash : ℕ
deriving DecidableEq

def KeyVal.pair {K V : Type} (kv : KeyVal K V) : K × V := (kv.key, kv.val)

namespace KeyVals

variable {K V : Type}

def fresh (key : K) (hash : ℕ) : KeyVals K V := ⟨key, .empty, hash⟩

def insert (kvs : KeyVals K V) (val : V) : KeyVals K V := { kvs with vals := kvs.vals.insert val }

def insert? (kvs : KeyVals K V) (val : V) : Option (KeyVals K V) :=
  (kvs.vals.insert? val).map fun vals => { kvs with vals := vals }

theorem insert?_eq {kvs : KeyVals K V} (h : kvs.vals.items.length < 2 ^ 31) (val : V) :
    kvs.insert? val = some (kvs.insert val) := by
  rw [insert?, Values.insert?_eq h]
  rfl

theorem insert?_fresh (key : K) (hash : ℕ) (val : V) :
    (fresh key hash : KeyVals K V).insert? val = some ((fresh key hash).insert val) := by
  refine insert?_eq ?_ val
  exact Nat.two_pow_pos 31

@[simp] theorem key_fresh (key : K) (hash : ℕ) : (fresh key hash : KeyVals K V).key = key := rfl

@[simp] theorem key_insert (kvs : KeyVals K V) (val : V) : (kvs.insert val).key = kvs.key := rfl

@[simp] theorem items_insert (kvs : KeyVals K V) (val : V) :
    (kvs.insert val).vals.items = kvs.vals.items ++ [val] := rfl

end KeyVals

section

variable {K V : Type} [LinearOrder K]

def put (key : K) (val : V) (hash : ℕ) (es : List (KeyVals K V)) : List (KeyVals K V) :=
  Keyed.upsert KeyVals.key key ((KeyVals.fresh key hash).insert val) (·.insert val) es

def putPair (kvs : KeyVals K V) (es : List (KeyVals K V)) : List (KeyVals K V) :=
  Keyed.upsert KeyVals.key kvs.key kvs id es

def valuesAt (k : K) (es : List (KeyVals K V)) : List V :=
  ((Keyed.lookup KeyVals.key k es).map fun kvs => kvs.vals.items).getD []

theorem length_valuesAt_append_le (k : K) (a b : List (KeyVals K V)) :
    (valuesAt k a).length ≤ (valuesAt k (a ++ b)).length := by
  rw [valuesAt, valuesAt, Keyed.lookup, Keyed.lookup, find?_append]
  cases a.find? fun e => e.key = k with
  | none => exact Nat.zero_le _
  | some e => exact le_rfl

def putAll (es : List (KeyVals K V)) (kvs : List (KeyVal K V)) : List (KeyVals K V) :=
  kvs.foldl (fun es kv => put kv.key kv.val kv.hash es) es

def newKeys : List (KeyVals K V) → List (KeyVal K V) → List Bool
  | _, [] => []
  | es, kv :: kvs => decide (kv.key ∉ es.map KeyVals.key) :: newKeys (put kv.key kv.val kv.hash es) kvs

variable {es : List (KeyVals K V)}

/-- What there is room for: 2^31 values for a key and, where keys are searched in one array,
2^30 + 2 keys. -/
structure Fits (searched : Bool) (es : List (KeyVals K V)) : Prop where
  values : ∀ e ∈ es, e.vals.items.length ≤ 2 ^ 31
  keys : searched = true → es.length ≤ 2 ^ 30 + 2

theorem mem_key_put {hash : ℕ} :
    k ∈ (put key val hash es).map KeyVals.key ↔ k = key ∨ k ∈ es.map KeyVals.key := by
  rw [put, mem_key_upsert (by simp) fun x => KeyVals.key_insert x val]

theorem mem_key_putPair :
    k ∈ (putPair kvs es).map KeyVals.key ↔ k = kvs.key ∨ k ∈ es.map KeyVals.key := by
  rw [putPair, mem_key_upsert rfl fun x => congrArg KeyVals.key (id_eq x)]

theorem sorted_put {hash : ℕ} (h : Sorted KeyVals.key es) :
    Sorted KeyVals.key (put key val hash es) :=
  h.upsert (by simp) fun x => KeyVals.key_insert x val

theorem sorted_putPair (h : Sorted KeyVals.key es) : Sorted KeyVals.key (putPair kvs es) :=
  h.upsert rfl fun x => congrArg KeyVals.key (id_eq x)

theorem Fits.insert?_eq {hash : ℕ} (hsorted : Sorted KeyVals.key es) (h : Fits searched (put key val hash es))
    (he : e ∈ es) (hkey : e.key = key) : e.insert? val = some (e.insert val) := by
  refine KeyVals.insert?_eq ?_ val
  have hlen := h.values _ (hsorted.change_mem_upsert he hkey)
  rw [KeyVals.items_insert, length_append, length_singleton] at hlen
  omega

theorem Fits.of_put {hash : ℕ} (hsorted : Sorted KeyVals.key es)
    (h : Fits searched (put key val hash es)) :
    Fits searched es where
  values e he := by
    by_cases hkey : e.key = key
    · have hlen := h.values _ (hsorted.change_mem_upsert he hkey)
      rw [KeyVals.items_insert, length_append] at hlen
      omega
    · exact h.values e (mem_upsert_of_ne he hkey)
  keys hs := (length_le_length_upsert ..).trans (h.keys hs)

theorem Fits.of_putAll (hsorted : Sorted KeyVals.key es) (kvs : List (KeyVal K V))
    (h : Fits searched (putAll es kvs)) : Fits searched es := by
  induction kvs generalizing es with
  | nil => exact h
  | cons kv kvs ih => exact .of_put hsorted (ih (sorted_put hsorted) h)

theorem valuesAt_of_absent (h : k ∉ es.map KeyVals.key) : valuesAt k es = [] := by
  rw [valuesAt, lookup_eq_none.mpr h]
  rfl

theorem valuesAt_of_mem (h : Sorted KeyVals.key es) (he : e ∈ es) :
    valuesAt e.key es = e.vals.items := by
  rw [valuesAt, h.lookup_of_mem he]
  rfl

theorem valuesAt_concat (h : e.key ∉ es.map KeyVals.key) :
    valuesAt k (es ++ [e]) = valuesAt k es ++ if e.key = k then e.vals.items else [] := by
  rw [valuesAt, valuesAt, Keyed.lookup, find?_append, ← Keyed.lookup]
  by_cases hk : e.key = k
  · subst hk
    rw [lookup_eq_none.mpr h]
    simp
  · cases lookup KeyVals.key k es <;> simp [hk]

theorem valuesAt_put {hash : ℕ} (h : Sorted KeyVals.key es) :
    valuesAt k (put key val hash es) = valuesAt k es ++ if key = k then [val] else [] := by
  by_cases hk : key = k
  · subst hk
    rw [valuesAt, valuesAt, put, h.lookup_upsert (by simp) fun x => KeyVals.key_insert x val, if_pos rfl]
    cases lookup KeyVals.key key es <;> rfl
  · rw [valuesAt, valuesAt, put,
      lookup_upsert_of_ne (Ne.symm hk) (by simp) fun x => KeyVals.key_insert x val, if_neg hk, append_nil]

theorem valuesAt_putPair (h : Sorted KeyVals.key es) (hnew : kvs.key ∉ es.map KeyVals.key) :
    valuesAt k (putPair kvs es) = valuesAt k es ++ if kvs.key = k then kvs.vals.items else [] := by
  by_cases hk : kvs.key = k
  · subst hk
    rw [valuesAt_of_absent hnew, valuesAt, putPair, h.lookup_upsert rfl fun x => congrArg KeyVals.key (id_eq x),
      lookup_eq_none.mpr hnew, if_pos rfl]
    rfl
  · rw [valuesAt, valuesAt, putPair,
      lookup_upsert_of_ne (Ne.symm hk) rfl fun x => congrArg KeyVals.key (id_eq x), if_neg hk, append_nil]

theorem valuesOf_pair (kvs : List (KeyVal K V)) :
    Grouping.valuesOf (kvs.map KeyVal.pair) k = (kvs.filter fun kv => kv.key = k).map KeyVal.val := by
  rw [Grouping.valuesOf, filter_map, map_map]
  rfl

theorem sorted_putAll (h : Sorted KeyVals.key es) (kvs : List (KeyVal K V)) :
    Sorted KeyVals.key (putAll es kvs) := by
  induction kvs generalizing es with
  | nil => exact h
  | cons kv kvs ih => exact ih (sorted_put h)

theorem mem_key_putAll (kvs : List (KeyVal K V)) :
    k ∈ (putAll es kvs).map KeyVals.key ↔ k ∈ es.map KeyVals.key ∨ k ∈ kvs.map KeyVal.key := by
  induction kvs generalizing es with
  | nil => simp [putAll]
  | cons kv kvs ih =>
    rw [putAll, foldl_cons]
    refine ih.trans ?_
    rw [mem_key_put, map_cons, mem_cons]
    tauto

theorem valuesAt_putAll (h : Sorted KeyVals.key es) (kvs : List (KeyVal K V)) :
    valuesAt k (putAll es kvs) = valuesAt k es ++ Grouping.valuesOf (kvs.map KeyVal.pair) k := by
  induction kvs generalizing es with
  | nil => simp [putAll]
  | cons kv kvs ih =>
    rw [putAll, foldl_cons, map_cons, KeyVal.pair, Grouping.valuesOf_cons, ← append_assoc,
      ← valuesAt_put h]
    exact ih (sorted_put h)

theorem putAll_replicate (kv : KeyVal K V) (n : ℕ) :
    putAll [] (replicate (n + 1) kv) =
      [⟨kv.key, (replicate (n + 1) kv.val).foldl Values.insert .empty, kv.hash⟩] := by
  have hput : ∀ (vals : Values V) (n : ℕ), putAll [⟨kv.key, vals, kv.hash⟩] (replicate n kv) =
      [⟨kv.key, (replicate n kv.val).foldl Values.insert vals, kv.hash⟩] := by
    intro vals n
    induction n generalizing vals with
    | zero => rfl
    | succ n ih =>
      rw [replicate_succ, putAll, foldl_cons]
      have hone : put kv.key kv.val kv.hash [(⟨kv.key, vals, kv.hash⟩ : KeyVals K V)] =
          [⟨kv.key, vals.insert kv.val, kv.hash⟩] := upsert_of_present (a := []) (by simp) rfl
      rw [hone]
      exact ih (vals.insert kv.val)
  exact hput _ n

theorem bsearchEq_pairs {c : KeyComparator K} {elem : ℤ → Option K} (h : Holds elem (es.map KeyVals.key))
    (hsorted : Sorted KeyVals.key es) (hlen : es.length ≤ 2 ^ 30 + 2) (key : K) :
    (∃ a e b, es = a ++ e :: b ∧ e.key = key ∧ (∀ x ∈ a, x.key < key) ∧
      bsearchEq c.cmp key elem es.length = some ((a.length : ℤ), true)) ∨
    ∃ a b, es = a ++ b ∧ (∀ x ∈ a, x.key < key) ∧ (∀ x ∈ b, key < x.key) ∧
      bsearchEq c.cmp key elem es.length = some ((a.length : ℤ), false) := by
  have hle : (es.map KeyVals.key).Pairwise c.toComparator.le :=
    pairwise_map.mpr (hsorted.imp fun hab => c.le_iff.mpr hab.le)
  obtain ⟨pos, found, hsearch, hlocated⟩ := bsearchEq_spec key hle h (by rwa [length_map])
  rw [length_map] at hsearch
  cases hlocated with
  | found hpos heq =>
    rw [length_map] at hpos
    rw [getElem_map] at heq
    have hkey : key = es[pos].key := (c.eq_zero_iff _ _).mp heq
    refine .inl ⟨es.take pos, es[pos], es.drop (pos + 1), ?_, hkey.symm, fun x hx => ?_, ?_⟩
    · rw [← drop_eq_getElem_cons hpos, take_append_drop]
    · obtain ⟨i, hi, rfl⟩ := mem_take_iff_getElem.mp hx
      rw [hkey]
      exact pairwise_iff_getElem.mp hsorted i pos (by omega) hpos (by omega)
    · rw [length_take, Nat.min_eq_left hpos.le]
      exact hsearch
  | absent hpos hbefore hafter =>
    rw [length_map] at hpos
    refine .inr ⟨es.take pos, es.drop pos, (take_append_drop pos es).symm, fun x hx => ?_,
      fun x hx => ?_, ?_⟩
    · refine c.lt_iff.mp (hbefore x.key ?_)
      rw [← map_take]
      exact mem_map_of_mem hx
    · refine c.lt_iff.mp (hafter x.key ?_)
      rw [← map_drop]
      exact mem_map_of_mem hx
    · rw [length_take, Nat.min_eq_left hpos]
      exact hsearch

end

end Mosbench.Metis
