import Mosbench.Lib.Iterator
import Mosbench.Metis.KeyVals

/-!
The arrays of Metis that grow: keyvals_array.c, which keeps pairs in the order of their
keys and searches them, and keyval_array.c, which appends every pair it is given.

As in the model of the B+tree, nothing is the result where the code would read or write
outside of its memory, or where an assertion fails.
-/
namespace Mosbench.Metis

open List Option Keyed

/-- keyvals_arr_t or keyval_arr_t: `len` elements in a block that has room for `alloc_len`. -/
structure Arr (E : Type) where
  null : Bool
  elems : List E
  allocLen : ℕ
  fits : elems.length ≤ allocLen

namespace Arr

variable {E : Type}

def initArraySize : ℕ := 8

theorem length_nil_le : ([] : List E).length ≤ 0 := le_rfl

def init : Arr E := ⟨true, [], 0, length_nil_le⟩

def checkfull (arr : Arr E) : Arr E where
  null := if arr.allocLen = 0 ∨ arr.elems.length = arr.allocLen then false else arr.null
  elems := arr.elems
  allocLen :=
    if arr.allocLen = 0 then initArraySize
    else if arr.elems.length = arr.allocLen then arr.allocLen * 2
    else arr.allocLen
  fits := by
    have h := arr.fits
    split_ifs <;> omega

def insertAt (arr : Arr E) (dst : ℕ) (e : E) : Option (Arr E) :=
  if h : arr.null = false ∧ arr.elems.length < arr.allocLen ∧ dst ≤ arr.elems.length then
    some { arr with
        elems := arr.elems.take dst ++ e :: arr.elems.drop dst
        fits := by
          rw [length_append, length_cons, length_take, length_drop]
          omega }
  else none

def setAt (arr : Arr E) (i : ℕ) (e : E) : Arr E :=
  { arr with elems := arr.elems.set i e, fits := by rw [length_set]; exact arr.fits }

@[simp] theorem elems_setAt (arr : Arr E) (i : ℕ) (e : E) : (arr.setAt i e).elems = arr.elems.set i e := rfl

@[simp] theorem elems_checkfull (arr : Arr E) : arr.checkfull.elems = arr.elems := rfl

/-- `pch_shallow_free`. It leaves `alloc_len` as it is. -/
def shallowFree (arr : Arr E) : Arr E :=
  if arr.null then arr else ⟨true, [], arr.allocLen, Nat.zero_le _⟩

/-- Memory was allocated if there is room for any element. -/
def Sound (arr : Arr E) : Prop := arr.null = true → arr.allocLen = 0

theorem sound_init : (init : Arr E).Sound := fun _ => rfl

theorem Sound.insertAt {arr : Arr E} (h : arr.Sound) (hab : arr.elems = a ++ b) (e : E) :
    ∃ arr', arr.checkfull.insertAt a.length e = some arr' ∧ arr'.Sound ∧ arr'.elems = a ++ e :: b := by
  have hfits := arr.fits
  have hnull : arr.checkfull.null = false := by
    simp only [checkfull]
    split_ifs with hfull
    · rfl
    · cases hn : arr.null with
      | false => rfl
      | true => exact absurd (.inl (h hn)) hfull
  have hroom : arr.checkfull.elems.length < arr.checkfull.allocLen := by
    simp only [checkfull, initArraySize]
    split_ifs <;> omega
  have hdst : a.length ≤ arr.checkfull.elems.length := by
    simp only [elems_checkfull, hab, length_append]
    omega
  rw [Arr.insertAt, dif_pos ⟨hnull, hroom, hdst⟩]
  refine ⟨_, rfl, fun hn => ?_, ?_⟩
  · simp [hnull] at hn
  · simp [hab]

end Arr

/-- A slot that was cleared holds no pair. -/
abbrev KvsArr (K V : Type) := Arr (Option (KeyVals K V))

namespace KvsArr

variable {K V : Type}

def read (arr : KvsArr K V) (i : ℕ) : Option (KeyVals K V) := arr.elems[i]?.join

def keyAt (arr : KvsArr K V) (i : ℤ) : Option K := if 0 ≤ i then (arr.read i.toNat).map KeyVals.key else none

def insertKvs (cmp : K → K → ℤ) (arr : KvsArr K V) (kvs : KeyVals K V) : Option (KvsArr K V) :=
  let arr : KvsArr K V := arr.checkfull
  (bsearchEq cmp kvs.key (keyAt arr) arr.elems.length).bind fun (dst, bfound) =>
  if bfound then none else arr.insertAt dst.toNat (some kvs)

def insertKv (cmp : K → K → ℤ) (arr : KvsArr K V) (key : K) (val : V) (hash : ℕ) :
    Option (KvsArr K V × Bool) :=
  (bsearchEq cmp key arr.keyAt arr.elems.length).bind fun (dst, bfound) =>
  let dst := dst.toNat
  if bfound then
    (arr.read dst).bind fun kvs => (kvs.insert? val).map fun kvs => (arr.setAt dst (some kvs), false)
  else
    ((KeyVals.fresh key hash).insert? val).bind fun kvs =>
    (arr.checkfull.insertAt dst (some kvs)).map fun arr => (arr, true)

def getLen (arr : KvsArr K V) : ℕ := arr.elems.length

def iterBegin (_ : KvsArr K V) : Option (Option ℕ) := some (some 0)

def iterNext (bclear : Bool) : KvsArr K V × ℕ → Option (Option (KeyVals K V × KvsArr K V × ℕ))
  | (arr, next) =>
    if next = arr.elems.length then some none
    else (arr.read next).map fun kvs => some (kvs, if bclear then arr.setAt next none else arr, next + 1)

structure Represents [LinearOrder K] (arr : KvsArr K V) (es : List (KeyVals K V)) : Prop where
  sound : arr.Sound
  elems : arr.elems = es.map some
  sorted : Keyed.Sorted KeyVals.key es

theorem represents_init [LinearOrder K] : Represents (Arr.init : KvsArr K V) [] :=
  ⟨Arr.sound_init, rfl, List.Pairwise.nil⟩

theorem read_of_elems {arr : KvsArr K V} {es : List (KeyVals K V)} (h : arr.elems = es.map some) (i : ℕ) :
    arr.read i = es[i]? := by
  rw [read, h, getElem?_map]
  cases es[i]? <;> rfl

theorem holds_of_elems {arr : KvsArr K V} {es : List (KeyVals K V)} (h : arr.elems = es.map some) :
    Holds arr.keyAt (es.map KeyVals.key) := by
  intro i _
  rw [keyAt, if_pos (by omega), Int.toNat_natCast, read_of_elems h, getElem?_map]

section Specs

variable [LinearOrder K] {c : KeyComparator K} {es : List (KeyVals K V)}

theorem insertKv_spec (h : Represents arr es) (key : K) (val : V) (hash : ℕ)
    (hfits : Fits true (put key val hash es)) :
    ∃ arr', insertKv c.cmp arr key val hash = some (arr', decide (key ∉ es.map KeyVals.key)) ∧
      Represents arr' (put key val hash es) := by
  have hlen : arr.elems.length = es.length := by rw [h.elems, length_map]
  have hsorted : Sorted KeyVals.key (put key val hash es) := sorted_put h.sorted
  have hshort : es.length ≤ 2 ^ 30 + 2 := (hfits.of_put h.sorted).keys rfl
  rcases bsearchEq_pairs (c := c) (holds_of_elems h.elems) h.sorted hshort key with
    ⟨a, e, b, rfl, rfl, ha, hsearch⟩ | ⟨a, b, rfl, ha, hb, hsearch⟩
  · have hput : put e.key val hash (a ++ e :: b) = a ++ e.insert val :: b := upsert_of_present ha rfl
    refine ⟨arr.setAt a.length (some (e.insert val)), ?_, h.sound, ?_, hsorted⟩
    · have hinsert := hfits.insert?_eq h.sorted (mem_append_right a mem_cons_self) rfl
      rw [insertKv, hlen, hsearch, bind_some]
      simp [read_of_elems h.elems, hinsert]
    · rw [hput, Arr.elems_setAt, h.elems]
      simp
  · have hput : put key val hash (a ++ b) = a ++ (KeyVals.fresh key hash).insert val :: b :=
      upsert_of_absent ha hb
    obtain ⟨arr', hinsert, hsound, helems⟩ := h.sound.insertAt (h.elems.trans map_append)
      (some ((KeyVals.fresh key hash).insert val))
    rw [length_map] at hinsert
    refine ⟨arr', ?_, hsound, by rw [helems, hput]; simp, hsorted⟩
    have hnew : key ∉ (a ++ b).map KeyVals.key := notMem_of_between ha hb
    rw [insertKv, hlen, hsearch, bind_some, decide_eq_true hnew]
    simp [hinsert, KeyVals.insert?_fresh]

theorem insertKv_of_full (h : Represents arr [e]) (hfull : e.vals.Full) (val : V) (hash : ℕ) :
    insertKv c.cmp arr e.key val hash = none := by
  have hlen : arr.elems.length = [e].length := by rw [h.elems, length_map]
  rcases bsearchEq_pairs (c := c) (holds_of_elems h.elems) h.sorted (show 1 ≤ 2 ^ 30 + 2 by decide) e.key with
    ⟨a, e', b, heq, -, -, hsearch⟩ | ⟨a, b, heq, ha, hb, -⟩
  · obtain ⟨rfl, rfl, rfl⟩ : a = [] ∧ e = e' ∧ b = [] := by
      cases a <;> simp_all
    rw [insertKv, hlen, hsearch, bind_some]
    simp [read_of_elems h.elems, KeyVals.insert?, Values.insert?, hfull]
  · exact absurd (show e.key ∈ (a ++ b).map KeyVals.key by rw [← heq]; simp) (notMem_of_between ha hb)

theorem insertKvs_spec (h : Represents arr es) (kvs : KeyVals K V) (hnew : kvs.key ∉ es.map KeyVals.key)
    (hshort : es.length ≤ 2 ^ 30 + 2) :
    ∃ arr', insertKvs c.cmp arr kvs = some arr' ∧ Represents arr' (putPair kvs es) := by
  have hlen : arr.checkfull.elems.length = es.length := by
    rw [Arr.elems_checkfull, h.elems, length_map]
  have helems : arr.checkfull.elems = es.map some := h.elems
  rcases bsearchEq_pairs (c := c) (holds_of_elems helems) h.sorted hshort kvs.key with
    ⟨a, e, b, rfl, hkey, -, -⟩ | ⟨a, b, rfl, ha, hb, hsearch⟩
  · exact absurd (by simp [← hkey]) hnew
  · have hput : putPair kvs (a ++ b) = a ++ kvs :: b := upsert_of_absent ha hb
    obtain ⟨arr', hinsert, hsound, helems⟩ := h.sound.insertAt (h.elems.trans map_append) (some kvs)
    rw [length_map] at hinsert
    refine ⟨arr', ?_, hsound, by rw [helems, hput]; simp, sorted_putPair h.sorted⟩
    simp only [insertKvs, hlen, hsearch, bind_some, Int.toNat_natCast, Bool.false_eq_true, if_false]
    exact hinsert

omit [LinearOrder K] in
theorem yields_from (bclear : Bool) (arr : KvsArr K V) (seen : List (Option (KeyVals K V)))
    (rest : List (KeyVals K V)) (h : arr.elems = seen ++ rest.map some) :
    Iterator.Yields (iterNext bclear) (arr, seen.length) rest := by
  induction rest generalizing arr seen with
  | nil =>
    refine .nil ?_
    rw [iterNext, h, if_pos (by simp)]
  | cons e rest ih =>
    have hread : arr.read seen.length = some e := by simp [read, h]
    have hlen : seen.length ≠ arr.elems.length := by simp [h]
    refine .cons (by rw [iterNext, if_neg hlen, hread]; rfl) ?_
    cases bclear with
    | false =>
      have hrest := ih arr (seen ++ [some e]) (by rw [h]; simp)
      rwa [length_append] at hrest
    | true =>
      have hrest := ih (arr.setAt seen.length none) (seen ++ [none]) (by simp [h])
      rwa [length_append] at hrest

theorem iter_spec (h : Represents arr es) (bclear : Bool) :
    Iterator.Yields (iterNext bclear) (arr, 0) es := yields_from bclear arr [] es h.elems

end Specs

end KvsArr

abbrev KvArr (K V : Type) := Arr (KeyVal K V)

namespace KvArr

variable {K V : Type}

def insertKv (arr : KvArr K V) (kv : KeyVal K V) : Option (KvArr K V × Bool) :=
  (arr.checkfull.insertAt arr.elems.length kv).map fun arr => (arr, true)

theorem insertKv_spec {arr : KvArr K V} (h : arr.Sound) (kv : KeyVal K V) :
    ∃ arr', arr.insertKv kv = some (arr', true) ∧ Arr.Sound arr' ∧ Arr.elems arr' = arr.elems ++ [kv] := by
  obtain ⟨arr', hinsert, hsound, helems⟩ := h.insertAt (append_nil arr.elems).symm kv
  exact ⟨arr', by rw [insertKv, hinsert, map_some], hsound, helems⟩

end KvArr

end Mosbench.Metis
