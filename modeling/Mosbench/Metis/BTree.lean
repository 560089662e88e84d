import Mosbench.Metis.KeyVals

/-!
The B+tree of Metis (keyvals_btree.c). Nodes live in a heap and are named by pointers;
a pointer is valid once the node was created, and none is freed while the tree is in
use. A node does not say whether it is a leaf: the code counts levels. In an internal
node the field `vals` of a slot holds the pointer to a child.

Nothing (`none`) is the result where the code uses a slot outside its array, a pointer
that is null or not valid, a slot that does not hold what is read from it, or where an
assertion fails.
-/
namespace Mosbench.Metis.BTree

def order : ℕ := 3

def slots : ℕ := 2 * order + 2

abbrev Ptr := ℕ

inductive Cell (V : Type) where
  | null
  | node (p : Ptr)
  | values (vals : Values V)

structure Slot (K V : Type) where
  key : Option K
  vals : Cell V
  hash : ℕ

structure Node (K V : Type) where
  nkeys : ℕ
  parent : Option Ptr
  arr : ℕ → Slot K V
  next : Option Ptr

structure Tree (K V : Type) where
  nkeys : ℕ
  nlevel : ℕ
  root : Option Ptr
  heap : Ptr → Node K V
  size : ℕ

variable {K V : Type}

def Slot.zero : Slot K V := ⟨none, .null, 0⟩

def Slot.ofKeyVals (kvs : KeyVals K V) : Slot K V := ⟨some kvs.key, .values kvs.vals, kvs.hash⟩

def Slot.keyVals : Slot K V → Option (KeyVals K V)
  | ⟨some key, .values vals, hash⟩ => some ⟨key, vals, hash⟩
  | _ => none

def Slot.child : Slot K V → Option Ptr
  | ⟨_, .node p, _⟩ => some p
  | _ => none

namespace Node

def zero : Node K V := ⟨0, none, fun _ => .zero, none⟩

def read (nd : Node K V) (i : ℕ) : Option (Slot K V) := if i < slots then some (nd.arr i) else none

def write (nd : Node K V) (i : ℕ) (s : Slot K V) : Option (Node K V) :=
  if i < slots then some { nd with arr := Function.update nd.arr i s } else none

def keyAt (nd : Node K V) (i : ℤ) : Option K :=
  if 0 ≤ i then (nd.read i.toNat).bind Slot.key else none

def childAt (nd : Node K V) (i : ℕ) : Option Ptr := (nd.read i).bind Slot.child

def copySlots (nd nd' : Node K V) (dst src n : ℕ) : Option (Node K V) :=
  if src + n ≤ slots ∧ dst + n ≤ slots then
    some { nd with arr := fun i => if dst ≤ i ∧ i < dst + n then nd'.arr (src + (i - dst)) else nd.arr i }
  else none

/-- A loop that moves a field of `n` slots from `base` on by one slot, from the last one
down. -/
def shift (mv : Slot K V → Slot K V → Slot K V) (base : ℕ) : ℕ → Node K V → Option (Node K V)
  | 0, nd => some nd
  | n + 1, nd =>
    (nd.read (base + n)).bind fun src =>
    (nd.read (base + n + 1)).bind fun dst =>
    (nd.write (base + n + 1) (mv dst src)).bind (shift mv base n)

def moveKey (dst src : Slot K V) : Slot K V := { dst with key := src.key }

def moveVals (dst src : Slot K V) : Slot K V := { dst with vals := src.vals }

def setKey (nd : Node K V) (i : ℕ) (key : K) : Option (Node K V) :=
  (nd.read i).bind fun s => nd.write i { s with key := some key }

def setChild (nd : Node K V) (i : ℕ) (p : Ptr) : Option (Node K V) :=
  (nd.read i).bind fun s => nd.write i { s with vals := .node p }

end Node

namespace Tree

def init : Tree K V := ⟨0, 0, none, fun _ => .zero, 0⟩

def load (bt : Tree K V) (p : Ptr) : Option (Node K V) := if p < bt.size then some (bt.heap p) else none

def store (bt : Tree K V) (p : Ptr) (nd : Node K V) : Tree K V :=
  { bt with heap := Function.update bt.heap p nd }

def modify (bt : Tree K V) (p : Ptr) (f : Node K V → Option (Node K V)) : Option (Tree K V) :=
  (bt.load p).bind fun nd => (f nd).map (bt.store p)

def setParent (bt : Tree K V) (p parent : Ptr) : Option (Tree K V) :=
  bt.modify p fun nd => some { nd with parent := some parent }

def create (bt : Tree K V) (nd : Node K V) : Tree K V :=
  { bt with heap := Function.update bt.heap bt.size nd, size := bt.size + 1 }

end Tree

variable (cmp : K → K → ℤ)

def splitInternal (bt : Tree K V) (node : Ptr) : Option (Tree K V × Ptr) :=
  (bt.load node).bind fun nd =>
  (Node.zero.copySlots nd 0 (order + 1) (order + 1)).bind fun newsib =>
  ((bt.create { newsib with nkeys := order }).modify node fun nd => some { nd with nkeys := order }).map
    fun bt' => (bt', bt.size)

def newRoot (bt : Tree K V) (key : K) (left right : Ptr) : Option (Tree K V) :=
  let arr : ℕ → Slot K V := Function.update (Function.update (fun _ => .zero) 0 ⟨some key, .node left, 0⟩) 1
    ⟨none, .node right, 0⟩
  let newroot := bt.size
  let bt := bt.create ⟨1, none, arr, none⟩
  (Tree.setParent { bt with root := some newroot } left newroot).bind fun bt =>
  (bt.setParent right newroot).map fun bt => { bt with nlevel := bt.nlevel + 1 }

def insertSlot (nd : Node K V) (key : K) (right : Ptr) : Option (Node K V) :=
  (bsearchLar cmp key nd.keyAt nd.nkeys).bind fun ikey =>
  let ikey := ikey.toNat
  (nd.shift Node.moveKey ikey (nd.nkeys - ikey)).bind fun nd =>
  (nd.shift Node.moveVals (ikey + 1) (nd.nkeys - ikey)).bind fun nd =>
  (nd.setKey ikey key).bind fun nd =>
  (nd.setChild (ikey + 1) right).map fun nd => { nd with nkeys := nd.nkeys + 1 }

/-- The loop that fixes the parent pointers of the children of `newparent` from slot `i` on. -/
def fixParents (newparent : Ptr) : ℕ → ℕ → Tree K V → Option (Tree K V)
  | 0, _, bt => some bt
  | n + 1, i, bt =>
    (bt.load newparent).bind fun nd =>
    (nd.childAt i).bind fun child =>
    (bt.setParent child newparent).bind (fixParents newparent n (i + 1))

def insertIndex : ℕ → Tree K V → K → Ptr → Ptr → Option (Tree K V)
  | 0, _, _, _, _ => none
  | fuel + 1, bt, key, left, right =>
    (bt.load left).bind fun nd =>
    match nd.parent with
    | none => newRoot bt key left right
    | some parent =>
      (bt.modify parent fun nd => insertSlot cmp nd key right).bind fun bt =>
      (bt.setParent right parent).bind fun bt =>
      (bt.load parent).bind fun nd =>
      if nd.nkeys = 2 * order + 1 then
        ((nd.read order).bind Slot.key).bind fun newkey =>
        (splitInternal bt parent).bind fun (bt, newparent) =>
        (insertIndex fuel bt newkey parent newparent).bind fun bt =>
        (bt.load newparent).bind fun nd => fixParents newparent (nd.nkeys + 1) 0 bt
      else some bt

/-- The loop of get_leaf, from the node `p` down. -/
def descend (bt : Tree K V) (key : K) : ℕ → Ptr → Option Ptr
  | 0, p => some p
  | n + 1, p =>
    (bt.load p).bind fun nd =>
    (bsearchLar cmp key nd.keyAt nd.nkeys).bind fun ipt =>
    (nd.childAt ipt.toNat).bind (descend bt key n)

def getLeaf (bt : Tree K V) (key : K) : Option (Tree K V × Ptr) :=
  if bt.nlevel = 0 then
    some ({ bt.create .zero with root := some bt.size, nlevel := 1, nkeys := 0 }, bt.size)
  else
    bt.root.bind fun root =>
    (descend cmp bt key (bt.nlevel - 1) root).map fun leaf => (bt, leaf)

/-- The arrays of a leaf in insert_key: the slot gets the key and has no values yet. -/
def Node.openSlot (nd : Node K V) (key : K) (pos : ℕ) : Option (Node K V) :=
  (if pos < nd.nkeys then nd.copySlots nd (pos + 1) pos (nd.nkeys - pos) else some nd).bind fun nd =>
  (nd.read pos).bind fun s =>
  ({ nd with nkeys := nd.nkeys + 1 } : Node K V).write pos { s with key := some key, vals := .values .empty }

def insertKey (bt : Tree K V) (leaf : Ptr) (key : K) (pos : ℕ) : Option (Tree K V) :=
  (bt.modify leaf fun nd => nd.openSlot key pos).map fun bt => { bt with nkeys := bt.nkeys + 1 }

def Node.setHash (nd : Node K V) (pos hash : ℕ) : Option (Node K V) :=
  (nd.read pos).bind fun s => nd.write pos { s with hash := hash }

def Node.insertValue (nd : Node K V) (pos : ℕ) (insert : KeyVals K V → Option (KeyVals K V)) :
    Option (Node K V) :=
  (nd.read pos).bind fun s =>
  s.keyVals.bind fun kvs => (insert kvs).bind fun kvs => nd.write pos (.ofKeyVals kvs)

def splitLeaf (bt : Tree K V) (leaf : Ptr) : Option (Tree K V) :=
  let right := bt.size
  (bt.load leaf).bind fun nd =>
  (Node.zero.copySlots nd 0 (order + 1) (1 + order)).bind fun rnd =>
  ((bt.create { rnd with nkeys := order + 1 }).modify leaf fun nd => some { nd with nkeys := order + 1 }).bind
    fun bt =>
  ((rnd.read 0).bind Slot.key).bind fun key =>
  (insertIndex cmp bt.nlevel bt key leaf right).bind fun bt =>
  (bt.load leaf).bind fun nd =>
  (bt.modify leaf fun nd => some { nd with next := some right }).bind fun bt =>
  bt.modify right fun rnd => some { rnd with next := nd.next }

def splitFull (bt : Tree K V) (leaf : Ptr) : Option (Tree K V) :=
  (bt.load leaf).bind fun nd => if nd.nkeys = order * 2 + 2 then splitLeaf cmp bt leaf else some bt

/-- `pch_insert_kv`, with what values_insert does to the values of the key. -/
def insertKvWith (bt : Tree K V) (key : K) (insert : KeyVals K V → Option (KeyVals K V)) (hash : ℕ) :
    Option (Tree K V × Bool) :=
  (getLeaf cmp bt key).bind fun (bt, leaf) =>
  (bt.load leaf).bind fun nd =>
  (bsearchEq cmp key nd.keyAt nd.nkeys).bind fun (pos, bfound) =>
  let pos := pos.toNat
  (if bfound then some bt
    else (insertKey bt leaf key pos).bind fun bt => bt.modify leaf fun nd => nd.setHash pos hash).bind
    fun bt =>
  (bt.modify leaf fun nd => nd.insertValue pos insert).bind fun bt =>
  (splitFull cmp bt leaf).map fun bt => (bt, !bfound)

/-- The insertion of a value that there is room for. -/
def insertKv (bt : Tree K V) (key : K) (val : V) (hash : ℕ) : Option (Tree K V × Bool) :=
  insertKvWith cmp bt key (fun kvs => some (kvs.insert val)) hash

def insertKvs (bt : Tree K V) (k : KeyVals K V) : Option (Tree K V) :=
  (getLeaf cmp bt k.key).bind fun (bt, leaf) =>
  (bt.load leaf).bind fun nd =>
  (bsearchEq cmp k.key nd.keyAt nd.nkeys).bind fun (pos, bfound) =>
  if bfound then none
  else
    (insertKey bt leaf k.key pos.toNat).bind fun bt =>
    (bt.modify leaf fun nd => nd.write pos.toNat (.ofKeyVals k)).bind fun bt => splitFull cmp bt leaf

def shallowFree (bt : Tree K V) : Tree K V := { bt with nlevel := 0 }

def getLen (bt : Tree K V) : ℕ := bt.nkeys

def leftmost (bt : Tree K V) : ℕ → Ptr → Option Ptr
  | 0, p => some p
  | n + 1, p => (bt.load p).bind fun nd => (nd.childAt 0).bind (leftmost bt n)

structure Iter where
  next : ℕ
  node : Ptr

/-- `pch_iter_begin`; there is no iterator for an empty tree. -/
def iterBegin (bt : Tree K V) : Option (Option Iter) :=
  if bt.nlevel = 0 then some none
  else
    bt.root.bind fun root =>
    (leftmost bt (bt.nlevel - 1) root).map fun node => some ⟨0, node⟩

/-- Where pch_iter_next_kvs looks next, or nothing at the end. -/
def iterAdvance (bt : Tree K V) (iter : Iter) : Option (Option Iter) :=
  (bt.load iter.node).map fun nd =>
    if iter.next = nd.nkeys then nd.next.map fun node => ⟨0, node⟩ else some iter

/-- `pch_iter_next_kvs`. A slot that is cleared has no key and no values. -/
def iterNext (bclear : Bool) : Tree K V × Iter → Option (Option (KeyVals K V × Tree K V × Iter))
  | (bt, iter) =>
    (iterAdvance bt iter).bind fun place =>
    match place with
    | none => some none
    | some iter =>
      (bt.load iter.node).bind fun nd =>
      (nd.read iter.next).bind fun src =>
      src.keyVals.bind fun kvs =>
      (if bclear then bt.modify iter.node fun nd => nd.write iter.next .zero else some bt).map fun bt =>
        some (kvs, bt, ⟨iter.next + 1, iter.node⟩)

def copyLeaves (bt : Tree K V) : ℕ → Option Ptr → Option (List (KeyVals K V))
  | _, none => some []
  | 0, some _ => none
  | fuel + 1, some p =>
    (bt.load p).bind fun nd =>
    ((List.range nd.nkeys).mapM fun i => (nd.read i).bind Slot.keyVals).bind fun kvs =>
    (copyLeaves bt fuel nd.next).map (kvs ++ ·)

def copyKvs (bt : Tree K V) : Option (List (KeyVals K V)) :=
  if bt.nlevel = 0 then some []
  else
    bt.root.bind fun root =>
    (leftmost bt (bt.nlevel - 1) root).bind fun node =>
    (copyLeaves bt bt.size (some node)).bind fun kvs =>
    if kvs.length = bt.nkeys then some kvs else none

end Mosbench.Metis.BTree
