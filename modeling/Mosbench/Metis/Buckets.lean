import Mosbench.Metis.Reduce

/-!
The bucket managers (btreebktmgr.c, arraybktmgr.c, appendbktmgr.c). The pairs that a worker
emits go to its row of a table of buckets, to the column that the hash of the key selects. A
reduce task takes one column. The table that was filled while sampling is set aside, and each
worker moves its row of it to the new table before it maps its first split.
-/
namespace Mosbench.Metis

/-- mapper_t. A row may have been freed. -/
structure Mapper (C : Type) where
  mapRows : ℕ
  mapCols : ℕ
  mbks : ℕ → Option (ℕ → C)

/-- The variables of a bucket manager; a table with `mbks` null is none. -/
structure Mgr (C : Type) where
  mapper : Option (Mapper C)
  mapperBak : Option (Mapper C)

namespace Mapper

variable {C B : Type}

def bucket (m : Mapper C) (row col : ℕ) : Option C :=
  if row < m.mapRows ∧ col < m.mapCols then (m.mbks row).map (· col) else none

def setBucket (m : Mapper C) (row col : ℕ) (b : C) : Mapper C :=
  { m with mbks := Function.update m.mbks row ((m.mbks row).map fun cells => Function.update cells col b) }

def change (m : Mapper C) (row hash : ℕ) (f : C → Option (C × B)) : Option (Mapper C × B) :=
  (m.bucket row (hash % m.mapCols)).bind fun b =>
  (f b).map fun (b, x) => (m.setBucket row (hash % m.mapCols) b, x)

def column (m : Mapper C) (col : ℕ) : Option (List C) := (List.range m.mapRows).mapM fun row => m.bucket row col

def freeColumn (m : Mapper C) (free : C → C) (col : ℕ) : Mapper C :=
  { m with mbks := fun row => (m.mbks row).map fun cells => Function.update cells col (free (cells col)) }

end Mapper

namespace Mgr

variable {C B : Type}

def start : Mgr C := ⟨none, none⟩

def mbksInit (s : Mgr C) (init : C) (rows cols : ℕ) : Mgr C :=
  { s with mapper := some ⟨rows, cols, fun _ => some fun _ => init⟩ }

def mbksBak (s : Mgr C) : Mgr C := ⟨none, s.mapper⟩

def withMapper (s : Mgr C) (f : Mapper C → Option (Mapper C × B)) : Option (Mgr C × B) :=
  s.mapper.bind fun m => (f m).map fun (m, x) => ({ s with mapper := some m }, x)

/-- What mbm_rehash_bak does: nothing without a backup; otherwise `move` moves the buckets of
the row, one after the other, and `left` is what stays of the row. -/
def rehashWith (move : Mapper C → C → Option (Mapper C)) (left : (ℕ → C) → Option (ℕ → C))
    (s : Mgr C) (row : ℕ) : Option (Mgr C) :=
  match s.mapperBak with
  | none => some s
  | some bak =>
    if row < bak.mapRows then
      (bak.mbks row).bind fun cells =>
      s.mapper.bind fun m =>
      ((List.range bak.mapCols).foldlM (fun m i => move m (cells i)) m).map fun m =>
        ⟨some m, some { bak with mbks := Function.update bak.mbks row (left cells) }⟩
    else none

/-- The reduce calls for a column, whose buckets are freed afterwards. What the iterations cleared
in them is lost with them. -/
def reduceWith (reduce : List C → Option B) (free : C → C) (m : Mapper C) (col : ℕ) : Option (Mapper C × B) :=
  (m.column col).bind fun nodes => (reduce nodes).map fun calls => (m.freeColumn free col, calls)

end Mgr

variable {K V : Type}

/-- mbkts_mgr_t. mbm_map_put also returns whether the key is new, which it reports to the
estimation. -/
structure Manager (K V : Type) where
  Bucket : Type
  init : Bucket
  mapPut : Mgr Bucket → ℕ → KeyVal K V → Option (Mgr Bucket × Bool)
  rehashBak : Mgr Bucket → ℕ → Option (Mgr Bucket)
  doReduceTask : AppType → Mgr Bucket → ℕ → Option (Mgr Bucket × List (K × List V))

section

variable (h : Handler K V)

def insertKvAt (m : Mapper h.Coll) (row : ℕ) (kv : KeyVal K V) : Option (Mapper h.Coll × Bool) :=
  m.change row kv.hash fun b => h.insertKv b kv.key kv.val kv.hash

def mapPutKvs (row : ℕ) (m : Mapper h.Coll) (kvs : KeyVals K V) : Option (Mapper h.Coll) :=
  (m.change row kvs.hash fun b => (h.insertKvs b kvs).map (·, ())).map Prod.fst

def bktRehash (row : ℕ) (m : Mapper h.Coll) (entry : h.Coll) : Option (Mapper h.Coll) :=
  (h.iterBegin entry).bind fun iter =>
  match iter with
  | none => some m
  | some iter => Iterator.forEach (h.iterNext true) (mapPutKvs h row) (h.getLen entry + 1) (entry, iter) m

end

/-- btreebktmgr.c. The row of the backup is freed when it has been moved. -/
def btreebktmgr (cmp : K → K → ℤ) : Manager K V where
  Bucket := (hkvsbtree cmp : Handler K V).Coll
  init := (hkvsbtree cmp).init
  mapPut s row kv := s.withMapper fun m => insertKvAt (hkvsbtree cmp) m row kv
  rehashBak s row := s.rehashWith (bktRehash (hkvsbtree cmp) row) (fun _ => none) row
  doReduceTask atype s col := s.withMapper fun m =>
    Mgr.reduceWith (reduceOrGroupkvs (hkvsbtree cmp) cmp atype) (hkvsbtree cmp).shallowFree m col

/-- arraybktmgr.c. A reduce task without a table does nothing. -/
def arraybktmgr (cmp : K → K → ℤ) : Manager K V where
  Bucket := (hkvsarr cmp : Handler K V).Coll
  init := (hkvsarr cmp).init
  mapPut s row kv := s.withMapper fun m => insertKvAt (hkvsarr cmp) m row kv
  rehashBak s row := s.rehashWith (bktRehash (hkvsarr cmp) row)
    (fun cells => some fun i => (hkvsarr cmp).shallowFree (cells i)) row
  doReduceTask atype s col :=
    if s.mapper.isNone then some (s, [])
    else s.withMapper fun m =>
      Mgr.reduceWith (reduceOrGroupkvs (hkvsarr cmp) cmp atype) (hkvsarr cmp).shallowFree m col

def appendAt (m : Mapper (KvArr K V)) (row : ℕ) (kv : KeyVal K V) : Option (Mapper (KvArr K V) × Bool) :=
  m.change row kv.hash fun b => b.insertKv kv

def appendRehash (row : ℕ) (m : Mapper (KvArr K V)) (bucket : KvArr K V) : Option (Mapper (KvArr K V)) :=
  bucket.elems.foldlM (fun m kv => (appendAt m row kv).map Prod.fst) m

def appendbktmgr (cmp : K → K → ℤ) (sort : List (KeyVal K V) → List (KeyVal K V)) : Manager K V where
  Bucket := KvArr K V
  init := .init
  mapPut s row kv := s.withMapper fun m => appendAt m row kv
  rehashBak s row := s.rehashWith (appendRehash row) (fun cells => some fun i => (cells i).shallowFree) row
  doReduceTask atype s col :=
    if s.mapper.isNone then some (s, [])
    else if atype = .maponly then none
    else s.withMapper fun m =>
      Mgr.reduceWith (fun nodes => reduceOrGroupkv cmp sort atype (nodes.map Arr.elems)) Arr.shallowFree m col

end Mosbench.Metis
