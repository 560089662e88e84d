import Mosbench.Metis.Reduce

/-!
The three ways in which word count brings the counts of a word together (wc.c), in
values_insert, values_mv and reduce_or_groupkvs: the value modifier keeps one sum, the
combiner sums up whenever eight values are there, the reduce function sums up in the end.
A row is the B+tree of one mapper, with the emissions of the words of one reduce task.
-/
namespace Mosbench.Metis

open List Option Grouping Keyed
open KeyComparator (difference)

/-- Which functions the_app.mapreduce has besides or instead of reduce_func. -/
inductive Aggregation
  | reduce
  | combiner
  | vm
deriving DecidableEq

/-- A value, taken as a long or a uint64_t. -/
abbrev Count := BitVec 64

def wordcountReduce (vals : List Count) : Count := vals.foldl (· + ·) 0#64

def wordcountCombine : List Count → List Count
  | [] => []
  | v :: vals => [vals.foldl (· + ·) v]

def wordcountVm (oldv newv : Count) (isnew : Bool) : Count := if isnew then newv else oldv + newv

theorem length_wordcountCombine_le (vals : List Count) : (wordcountCombine vals).length ≤ vals.length := by
  cases vals <;> simp [wordcountCombine]

namespace Values

/-- With a value modifier `vals` is not an array but the value itself: there is room for one,
and `alloc_len` is not used. -/
def single (v : Count) : Values Count := ⟨[v], 1, le_rfl⟩

def combine (vals : Values Count) : Values Count :=
  ⟨wordcountCombine vals.items, vals.allocLen, (length_wordcountCombine_le _).trans vals.fits⟩

def insertBy (agg : Aggregation) (vals : Values Count) (val : Count) : Values Count :=
  match agg with
  | .vm =>
    match vals.items with
    | [] => single (wordcountVm 0 val true)
    | old :: _ => single (wordcountVm old val false)
  | .combiner =>
    let vals := vals.insert val
    if combinerThreshold ≤ vals.items.length then vals.combine else vals
  | .reduce => vals.insert val

/-- `values_insert`. Only an array of values can be too long to grow. -/
def insertBy? (agg : Aggregation) (vals : Values Count) (val : Count) : Option (Values Count) :=
  if agg ≠ .vm ∧ vals.Full then none else some (vals.insertBy agg val)

theorem insertBy?_eq {vals : Values Count} (h : vals.items.length < 2 ^ 31) (agg : Aggregation)
    (val : Count) : vals.insertBy? agg val = some (vals.insertBy agg val) :=
  if_neg fun hfull => by have := hfull.2.1; have := hfull.2.2; omega

def mvBy (agg : Aggregation) (dst src : Values Count) : Option (Values Count) :=
  match agg with
  | .vm =>
    match dst.items, src.items with
    | [], [_] => some src
    | old :: _, [v] => some (single (wordcountVm old v false))
    | _, _ => none
  | _ => some (dst.append src)

def emitBy (agg : Aggregation) (dst : Values Count) : Option Count :=
  match agg with
  | .vm => dst.items.head?
  | _ => some (wordcountReduce dst.items)

end Values

def KeyVals.insertBy (agg : Aggregation) (val : Count) (kvs : KeyVals K Count) : KeyVals K Count :=
  { kvs with vals := kvs.vals.insertBy agg val }

@[simp] theorem KeyVals.key_insertBy (agg : Aggregation) (val : Count) (kvs : KeyVals K Count) :
    (kvs.insertBy agg val).key = kvs.key := rfl

def KeyVals.insertBy? (agg : Aggregation) (val : Count) (kvs : KeyVals K Count) :
    Option (KeyVals K Count) :=
  (kvs.vals.insertBy? agg val).map fun vals => { kvs with vals := vals }

theorem KeyVals.insertBy?_eq {kvs : KeyVals K Count} (h : kvs.vals.items.length < 2 ^ 31)
    (agg : Aggregation) (val : Count) : kvs.insertBy? agg val = some (kvs.insertBy agg val) := by
  rw [KeyVals.insertBy?, Values.insertBy?_eq h]
  rfl

def buildRow (agg : Aggregation) (cmp : K → K → ℤ) (row : List (KeyVal K Count)) :
    Option (BTree.Tree K Count) :=
  row.foldlM (fun bt kv =>
    (BTree.insertKvWith cmp bt kv.key (KeyVals.insertBy? agg kv.val) kv.hash).map Prod.fst) .init

/-- A value modifier starts every round with a cleared `dst`. -/
def wordcount (agg : Aggregation) (cmp : K → K → ℤ) (rows : List (List (KeyVal K Count))) :
    Option (List (K × Count)) :=
  (rows.mapM (buildRow agg cmp)).bind fun nodes =>
  (nodes.mapM (openCursor (hkvsbtree cmp))).bind fun curs =>
  (groupRounds cmp (Values.mvBy agg) (fun key dst => (dst.emitBy agg).map (key, ·)) (agg ≠ .vm)
    ((nodes.map BTree.getLen).sum + 1) curs 0).map Prod.fst

theorem foldl_add (vals : List Count) (v : Count) : vals.foldl (· + ·) v = v + wordcountReduce vals := by
  induction vals generalizing v with
  | nil => exact (BitVec.add_zero v).symm
  | cons x vals ih =>
    calc
      _ = v + x + wordcountReduce vals := ih (v + x)
      _ = v + (0#64 + x + wordcountReduce vals) := by rw [BitVec.zero_add, BitVec.add_assoc]
      _ = v + wordcountReduce (x :: vals) := by rw [← ih]; rfl

@[simp] theorem wordcountReduce_nil : wordcountReduce [] = 0#64 := rfl

@[simp] theorem wordcountReduce_cons (v : Count) (vals : List Count) :
    wordcountReduce (v :: vals) = v + wordcountReduce vals := by
  rw [← foldl_add, wordcountReduce, foldl_cons, BitVec.zero_add]

@[simp] theorem wordcountReduce_append (l m : List Count) :
    wordcountReduce (l ++ m) = wordcountReduce l + wordcountReduce m := by
  rw [wordcountReduce, foldl_append, foldl_add]
  rfl

theorem wordcountReduce_combine (vals : List Count) :
    wordcountReduce (wordcountCombine vals) = wordcountReduce vals := by
  cases vals with
  | nil => rfl
  | cons v vals => simp [wordcountCombine, foldl_add]

theorem wordcountReduce_perm (h : l.Perm m) : wordcountReduce l = wordcountReduce m := by
  induction h with
  | nil => rfl
  | cons x _ ih => simp [ih]
  | swap x y l => simp [← BitVec.add_assoc, BitVec.add_comm]
  | trans _ _ ih ih' => exact ih.trans ih'

theorem toNat_wordcountReduce (vals : List Count) :
    (wordcountReduce vals).toNat = (vals.map BitVec.toNat).sum % 2 ^ 64 := by
  induction vals with
  | nil => rfl
  | cons v vals ih => rw [wordcountReduce_cons, BitVec.toNat_add, ih, Nat.add_mod_mod]; rfl

/-- The stored values stand for `vs`: they are not more and have the same sum. Without any
function they are the same, and a value modifier keeps one value if there is any. -/
structure StandsFor (agg : Aggregation) (vals : Values Count) (vs : List Count) : Prop where
  sum : wordcountReduce vals.items = wordcountReduce vs
  length_le : vals.items.length ≤ vs.length
  all : agg = .reduce → vals.items = vs
  single : agg = .vm → vals.items.length = min 1 vs.length

namespace StandsFor

theorem insertBy (h : StandsFor agg vals vs) (val : Count) :
    StandsFor agg (vals.insertBy agg val) (vs ++ [val]) := by
  obtain ⟨hsum, hle, hall, hsingle⟩ := h
  have hinsert : wordcountReduce (vals.insert val).items = wordcountReduce (vs ++ [val]) := by
    simp [Values.insert, hsum]
  have hle' : (vals.insert val).items.length ≤ (vs ++ [val]).length := by
    simpa [Values.insert] using hle
  cases agg with
  | reduce => exact ⟨hinsert, hle', fun _ => congrArg (· ++ [val]) (hall rfl), by simp⟩
  | combiner =>
    rw [Values.insertBy]
    split
    · exact ⟨(wordcountReduce_combine _).trans hinsert, (length_wordcountCombine_le _).trans hle',
        by simp, by simp⟩
    · exact ⟨hinsert, hle', by simp, by simp⟩
  | vm =>
    have hlen := hsingle rfl
    rw [Values.insertBy]
    split
    · rename_i hnil
      rw [hnil] at hsum
      exact ⟨by simp [Values.single, wordcountVm, ← hsum], by simp [Values.single], by simp,
        by simp [Values.single]⟩
    · rename_i old rest hold
      obtain rfl : rest = [] := by
        rw [hold, length_cons] at hlen
        exact length_eq_zero_iff.mp (by omega)
      rw [hold] at hsum
      exact ⟨by simp [Values.single, wordcountVm, ← hsum], by simp [Values.single], by simp,
        by simp [Values.single]⟩

theorem mvBy (h : StandsFor agg vals vs) (hsrc : agg = .vm → src.items.length = 1) :
    ∃ dst, vals.mvBy agg src = some dst ∧ StandsFor agg dst (vs ++ src.items) := by
  obtain ⟨hsum, hle, hall, hsingle⟩ := h
  have happend : wordcountReduce (vals.append src).items = wordcountReduce (vs ++ src.items) := by
    simp [Values.append, hsum]
  have hle' : (vals.append src).items.length ≤ (vs ++ src.items).length := by
    simpa [Values.append] using hle
  cases agg with
  | reduce => exact ⟨_, rfl, happend, hle', fun _ => congrArg (· ++ src.items) (hall rfl), by simp⟩
  | combiner => exact ⟨_, rfl, happend, hle', by simp, by simp⟩
  | vm =>
    obtain ⟨v, hv⟩ := length_eq_one_iff.mp (hsrc rfl)
    have hlen := hsingle rfl
    cases hitems : vals.items with
    | nil =>
      rw [hitems] at hsum
      exact ⟨src, by simp [Values.mvBy, hitems, hv], by simp [← hsum], by simp [hv], by simp,
        by simp [hv]⟩
    | cons old rest =>
      obtain rfl : rest = [] := by
        rw [hitems, length_cons] at hlen
        exact length_eq_zero_iff.mp (by omega)
      rw [hitems] at hsum
      exact ⟨.single (wordcountVm old v false), by simp [Values.mvBy, hitems, hv],
        by simp [Values.single, wordcountVm, hv, ← hsum], by simp [Values.single, hv], by simp,
        by simp [Values.single, hv]⟩

theorem emitBy (h : StandsFor agg vals vs) (hvs : agg = .vm → vs ≠ []) :
    vals.emitBy agg = some (wordcountReduce vs) := by
  cases agg with
  | reduce | combiner => exact congrArg some h.sum
  | vm =>
    have hpos := length_pos_iff.mpr (hvs rfl)
    obtain ⟨v, hv⟩ := length_eq_one_iff.mp ((h.single rfl).trans (by omega))
    have hsum := h.sum
    simp [hv] at hsum
    simp [Values.emitBy, hv, hsum]

end StandsFor

variable [LinearOrder K] {c : KeyComparator K}

def slot (k : K) (es : List (KeyVals K Count)) : Values Count :=
  ((Keyed.lookup KeyVals.key k es).map KeyVals.vals).getD .empty

structure Row (agg : Aggregation) (es : List (KeyVals K Count)) (row : List (KeyVal K Count)) : Prop where
  sorted : Keyed.Sorted KeyVals.key es
  keys : ∀ k, k ∈ es.map KeyVals.key ↔ k ∈ (row.map KeyVal.pair).map Prod.fst
  values : ∀ k, StandsFor agg (slot k es) (valuesOf (row.map KeyVal.pair) k)

def Single (agg : Aggregation) (e : KeyVals K Count) : Prop := agg = .vm → e.vals.items.length = 1

variable {row : List (KeyVal K Count)}

namespace Row

theorem insert (h : Row agg es row) (kv : KeyVal K Count) :
    Row agg (upsert KeyVals.key kv.key (.insertBy agg kv.val (.fresh kv.key kv.hash)) (.insertBy agg kv.val) es)
      (row ++ [kv]) where
  sorted := h.sorted.upsert (by simp) (KeyVals.key_insertBy agg kv.val)
  keys k := by
    rw [mem_key_upsert (by simp) (KeyVals.key_insertBy agg kv.val), h.keys]
    simp [KeyVal.pair, or_comm, eq_comm]
  values k := by
    rw [map_append, map_singleton, valuesOf_append, KeyVal.pair, valuesOf_singleton]
    by_cases hk : kv.key = k
    · subst hk
      rw [slot, h.sorted.lookup_upsert (by simp) (KeyVals.key_insertBy agg kv.val), if_pos rfl]
      have hvalues := (h.values kv.key).insertBy kv.val
      rw [slot] at hvalues
      cases hl : lookup KeyVals.key kv.key es <;> rw [hl] at hvalues <;> exact hvalues
    · rw [slot, lookup_upsert_of_ne (Ne.symm hk) (by simp) (KeyVals.key_insertBy agg kv.val), if_neg hk, append_nil]
      exact h.values k

theorem valuesAt_eq (h : Row agg es row) (k : K) :
    wordcountReduce (valuesAt k es) = wordcountReduce (valuesOf (row.map KeyVal.pair) k) := by
  rw [← (h.values k).sum, valuesAt, slot]
  cases lookup KeyVals.key k es <;> rfl

theorem length_valuesAt_le (h : Row agg es row) (k : K) :
    (valuesAt k es).length ≤ (valuesOf (row.map KeyVal.pair) k).length := by
  refine le_trans (Nat.le_of_eq ?_) (h.values k).length_le
  rw [valuesAt, slot]
  cases lookup KeyVals.key k es <;> rfl

theorem single (h : Row agg es row) (he : e ∈ es) : Single agg e := by
  intro hvm
  have hlen := (h.values e.key).single hvm
  rw [slot, h.sorted.lookup_of_mem he, map_some, getD_some] at hlen
  have hpos := length_pos_iff.mpr (valuesOf_ne_nil.mpr ((h.keys e.key).mp (mem_map_of_mem he)))
  omega

end Row

theorem buildRow_spec (agg : Aggregation) (row : List (KeyVal K Count))
    (hshort : ∀ k, (valuesOf (row.map KeyVal.pair) k).length ≤ 2 ^ 31) :
    ∃ bt, buildRow agg c.cmp row = some bt ∧ ∃ es, BTree.Represents bt es ∧ Row agg es row := by
  refine Fallible.foldlM_invariant (fun seen bt => ∃ es, BTree.Represents bt es ∧ Row agg es seen) row
    ⟨[], BTree.represents_init, .nil, by simp, fun k => ⟨rfl, le_rfl, fun _ => rfl, fun _ => rfl⟩⟩ ?_
  rintro seen kv rest bt hseen ⟨es, hrep, hrow⟩
  have hfresh : KeyVals.insertBy? agg kv.val (.fresh kv.key kv.hash) =
      some (KeyVals.insertBy agg kv.val (.fresh kv.key kv.hash)) := by
    refine KeyVals.insertBy?_eq ?_ agg kv.val
    exact Nat.two_pow_pos 31
  obtain ⟨bt', hinsert, hrep'⟩ := BTree.insertKvWith_spec (c := c) hrep kv.key kv.hash (KeyVals.key_insertBy agg kv.val)
    (fun e he hkey => KeyVals.insertBy?_eq (by
      have hle := hrow.length_valuesAt_le e.key
      have hall := hshort kv.key
      rw [valuesAt_of_mem hrow.sorted he] at hle
      rw [hseen, map_append, valuesOf_append, map_cons, KeyVal.pair, valuesOf_cons, if_pos rfl,
        length_append, length_append, ← hkey] at hall
      simp only [length_singleton] at hall
      omega) agg kv.val)
    hfresh
  exact ⟨bt', by rw [hinsert, map_some], _, hrep', hrow.insert kv⟩

omit [LinearOrder K] in
theorem moves_by (agg : Aggregation) : Moves (K := K) (Values.mvBy agg)
    (fun key dst => (dst.emitBy agg).map (key, ·)) (Single agg) (StandsFor agg)
    fun x => (x.1, wordcountReduce x.2) where
  room _ := ⟨rfl, Nat.zero_le _, fun _ => rfl, fun _ => rfl⟩
  move hdst he := hdst.mvBy he
  emit hdst he hsub := by
    rw [hdst.emitBy fun hvm hnil => ?_, map_some]
    obtain ⟨v, hv⟩ := length_eq_one_iff.mp (he hvm)
    rw [hv, hnil] at hsub
    exact absurd (hsub (mem_singleton_self v)) not_mem_nil

theorem exists_nodes (agg : Aggregation) (rows : List (List (KeyVal K Count)))
    (hshort : ∀ row ∈ rows, ∀ k, (valuesOf (row.map KeyVal.pair) k).length ≤ 2 ^ 31) :
    ∃ nodes rests, rows.mapM (buildRow agg c.cmp) = some nodes ∧
      Forall₂ BTree.Represents nodes rests ∧ Forall₂ (Row agg) rests rows := by
  induction rows with
  | nil => exact ⟨[], [], rfl, .nil, .nil⟩
  | cons row rows ih =>
    obtain ⟨hfirst, hrest⟩ := forall_mem_cons.mp hshort
    obtain ⟨bt, hbuild, es, hrep, hrow⟩ := buildRow_spec (c := c) agg row hfirst
    obtain ⟨nodes, rests, hnodes, hreps, hrows⟩ := ih hrest
    exact ⟨bt :: nodes, es :: rests, by simp [hbuild, hnodes], .cons hrep hreps, .cons hrow hrows⟩

theorem length_merged_row_le (hrows : Forall₂ (Row agg) rests rows) (k : K) :
    (merged rests k).length ≤ (valuesOf (rows.flatten.map KeyVal.pair) k).length := by
  induction hrows with
  | nil => exact le_rfl
  | cons hrow _ ih =>
    rw [merged] at ih ⊢
    rw [flatMap_cons, flatten_cons, map_append, valuesOf_append, length_append, length_append]
    exact Nat.add_le_add (hrow.length_valuesAt_le k) ih

theorem length_valuesOf_row_le {rows : List (List (KeyVal K Count))} (hrow : row ∈ rows) (k : K) :
    (valuesOf (row.map KeyVal.pair) k).length ≤ (valuesOf (rows.flatten.map KeyVal.pair) k).length := by
  obtain ⟨a, b, rfl⟩ := append_of_mem hrow
  simp only [flatten_append, flatten_cons, map_append, valuesOf_append, length_append]
  omega

theorem reduce_merged (hrows : Forall₂ (Row agg) rests rows) (k : K) :
    wordcountReduce (merged rests k) = wordcountReduce (valuesOf (rows.flatten.map KeyVal.pair) k) := by
  induction hrows with
  | nil => rfl
  | cons hrow _ ih =>
    rw [merged] at ih ⊢
    simp only [flatMap_cons, flatten_cons, map_append, valuesOf_append, wordcountReduce_append, ih, hrow.valuesAt_eq]

theorem exists_key_iff (hrows : Forall₂ (Row agg) rests rows) (k : K) :
    (∃ es ∈ rests, k ∈ es.map KeyVals.key) ↔ k ∈ (rows.flatten.map KeyVal.pair).map Prod.fst := by
  induction hrows with
  | nil => simp
  | cons hrow _ ih =>
    rw [flatten_cons, map_append, map_append, mem_append, ← ih, ← hrow.keys]
    simp

structure Counts (out : List (K × Count)) (emitted : List (K × Count)) : Prop where
  sorted : out.Pairwise fun x y => x.1 < y.1
  counts : ∀ k n, (k, n) ∈ out ↔ k ∈ emitted.map Prod.fst ∧ n = wordcountReduce (valuesOf emitted k)

theorem wordcount_spec (agg : Aggregation) (rows : List (List (KeyVal K Count)))
    (hshort : ∀ k, (valuesOf (rows.flatten.map KeyVal.pair) k).length < 2 ^ 31) :
    ∃ out, wordcount agg c.cmp rows = some out ∧ Counts out (rows.flatten.map KeyVal.pair) := by
  obtain ⟨nodes, rests, hnodes, hreps, hrows⟩ := exists_nodes (c := c) agg rows
    fun row hrow k => (length_valuesOf_row_le hrow k).trans (hshort k).le
  have law := hkvsbtree_lawful (V := Count) c
  have hrow : ∀ es ∈ rests, ∃ row, Row agg es row := fun es hes => by
    obtain ⟨row, -, hrow⟩ := Fallible.exists_of_mem_right hrows.flip hes
    exact ⟨row, hrow⟩
  obtain ⟨curs, hcurs, hreads⟩ := law.mapM_openCursor hreps
  obtain ⟨calls, left, hloop, hmerges, -⟩ := groupRounds_spec (c := c) (moves_by agg) (agg ≠ .vm)
    ((nodes.map BTree.getLen).sum + 1) hreads (fun es hes => (hrow es hes).elim fun _ h => h.sorted)
    (fun es hes e he => (hrow es hes).elim fun _ h => h.single he)
    (fun k => (length_merged_row_le hrows k).trans_lt (hshort k))
    (by rw [← law.sum_getLen hreps]; exact Nat.lt_succ_self _) 0
  refine ⟨_, by rw [wordcount, hnodes, bind_some, hcurs, bind_some, hloop, map_some],
    pairwise_map.mpr hmerges.sorted, ?_⟩
  intro k n
  rw [← exists_key_iff hrows, ← hmerges.keys, List.mem_map, List.mem_map, ← reduce_merged hrows]
  constructor
  · rintro ⟨x, hx, heq⟩
    obtain ⟨rfl, rfl⟩ := Prod.mk.inj heq
    exact ⟨⟨x, hx, rfl⟩, by rw [hmerges.values x hx]⟩
  · rintro ⟨⟨x, hx, rfl⟩, rfl⟩
    exact ⟨x, hx, by rw [hmerges.values x hx]⟩

namespace Counts

variable {emitted : List (K × Count)}

theorem perm (h : Counts out emitted) (hperm : emitted.Perm emitted') : Counts out emitted' where
  sorted := h.sorted
  counts k n := by rw [h.counts, (hperm.map _).mem_iff, wordcountReduce_perm (valuesOf_perm hperm k)]

theorem unique (h : Counts out emitted) (h' : Counts out' emitted) : out = out' := by
  refine Perm.eq_of_pairwise (fun a b _ _ hab hba => absurd hba hab.not_gt) h.sorted h'.sorted ?_
  rw [perm_ext_iff_of_nodup (h.sorted.imp fun hlt heq => hlt.ne (congrArg _ heq))
    (h'.sorted.imp fun hlt heq => hlt.ne (congrArg _ heq))]
  rintro ⟨k, n⟩
  rw [h.counts, h'.counts]

end Counts

/-- With fewer than 2^31 emissions of each word the value modifier, the combiner and the reduce
function alone count the same, whatever the order of the emissions and the rows they are in: for
each word that was emitted the sum of its counts modulo 2^64. -/
theorem wordcount_paths_agree (c : KeyComparator K) (rows rows' : List (List (KeyVal K Count)))
    (hperm : (rows.flatten.map KeyVal.pair).Perm (rows'.flatten.map KeyVal.pair))
    (hshort : ∀ k, (valuesOf (rows.flatten.map KeyVal.pair) k).length < 2 ^ 31)
    (agg agg' : Aggregation) :
    ∃ out, wordcount agg c.cmp rows = some out ∧ wordcount agg' c.cmp rows' = some out ∧
      (out.Pairwise fun x y => x.1 < y.1) ∧
      ∀ k n, (k, n) ∈ out ↔ k ∈ (rows.flatten.map KeyVal.pair).map Prod.fst ∧
        n.toNat = ((valuesOf (rows.flatten.map KeyVal.pair) k).map BitVec.toNat).sum % 2 ^ 64 := by
  obtain ⟨out, hrun, hout⟩ := wordcount_spec (c := c) agg rows hshort
  obtain ⟨out', hrun', hout'⟩ := wordcount_spec (c := c) agg' rows' fun k => by
    rw [← (valuesOf_perm hperm k).length_eq]
    exact hshort k
  obtain rfl := hout.unique (hout'.perm hperm.symm)
  refine ⟨out, hrun, hrun', hout.sorted, fun k n => ?_⟩
  rw [hout.counts, ← toNat_wordcountReduce, BitVec.toNat_inj]

/-- Nine emissions of one word in one row, combined at the eighth, or in two rows. -/
theorem wordcount_paths_agree_nine : ∃ out,
    wordcount .combiner difference.cmp [replicate 9 ⟨1, 1, 0⟩ ++ [⟨2, 5, 0⟩]] = some out ∧
    wordcount .vm difference.cmp
      [⟨2, 5, 0⟩ :: replicate 4 ⟨1, 1, 0⟩, replicate 5 ⟨1, 1, 0⟩] = some out := by
  obtain ⟨out, hrun, hrun', -⟩ := wordcount_paths_agree difference
    [replicate 9 ⟨1, 1, 0⟩ ++ [⟨2, 5, 0⟩]] [⟨2, 5, 0⟩ :: replicate 4 ⟨1, 1, 0⟩, replicate 5 ⟨1, 1, 0⟩]
    (by decide) (fun k => (length_valuesOf_le _ k).trans_lt (by decide)) .combiner .vm
  exact ⟨out, hrun, hrun'⟩

theorem wordcount_reduce_fails {n : ℕ} (hn : n ≤ 2 ^ 31) (hlong : 2 ^ 31 ≤ n) :
    wordcount .reduce difference.cmp [replicate n ⟨0, 1, 0⟩] = none := by
  have hvals : valuesOf ((replicate n (⟨0, 1, 0⟩ : KeyVal ℕ Count)).map KeyVal.pair) 0 =
      replicate n 1 := by
    simp [valuesOf, KeyVal.pair]
  have hle : ∀ k, (valuesOf ((replicate n (⟨0, 1, 0⟩ : KeyVal ℕ Count)).map KeyVal.pair) k).length ≤
      2 ^ 31 := fun k => (length_valuesOf_le _ k).trans (by simpa using hn)
  obtain ⟨nodes, rests, hnodes, hreps, hrows⟩ := exists_nodes (c := .difference) .reduce
    [replicate n ⟨0, 1, 0⟩] (by simpa using hle)
  obtain ⟨es, _, hrow, ⟨⟩, rfl⟩ := forall₂_cons_right_iff.mp hrows
  obtain ⟨curs, hcurs, hreads⟩ := (hkvsbtree_lawful (V := Count) difference).mapM_openCursor hreps
  have hkeys : ∀ e ∈ es, e.key = 0 := by
    intro e he
    have hkey := (hrow.keys e.key).mp (mem_map_of_mem he)
    simp only [map_replicate, KeyVal.pair, mem_replicate] at hkey
    exact hkey.2
  have hmerged : (merged [es] 0).length = n := by
    have hslot := (hrow.values 0).all rfl
    rw [hvals] at hslot
    have hlen := congrArg List.length hslot
    rw [length_replicate] at hlen
    rw [← hlen, merged, flatMap_singleton, valuesAt, slot]
    cases lookup KeyVals.key 0 es <;> rfl
  have hsingle : ∀ es' ∈ [es], ∀ e ∈ es', Single .reduce e := by
    intro _ _ _ _ h
    cases h
  rw [wordcount, hnodes, bind_some, hcurs, bind_some, groupRounds_fails (k := 0) (moves_by .reduce) hreads
    (forall_mem_singleton.mpr hrow.sorted) hsingle (forall_mem_singleton.mpr hkeys) (by rwa [hmerged]), map_none]

/-- 2^31 emissions of one word cannot be brought together. -/
theorem wordcount_reduce_overflows :
    wordcount .reduce difference.cmp [replicate (2 ^ 31) ⟨0, 1, 0⟩] = none :=
  wordcount_reduce_fails le_rfl le_rfl

end Mosbench.Metis
