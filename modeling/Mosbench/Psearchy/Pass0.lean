import Mosbench.Psearchy.Records
import Mathlib.Data.List.Lex
import Mathlib.Data.List.Sort

/-!
The first pass of pedsort.C: pass0 reads the words of a document into a hash table with
the list of their postings, and flushwords writes the table to a temporary file when
one of the buffers is full, and once more at the end (dofiles).

A word is a pointer into `wordbytes` and a posting is a pointer into `infobuf`. The
postings of a word are in blocks, each with a pointer to the next; the chain is a list
here. An access outside a buffer is a fault.
-/
namespace Mosbench.Psearchy

open Bytes

/-- The sizes of the buffers. maxinfo is the size of `wordbytes`, which is an int,
divided by the size of a posting. -/
structure Sizes where
  maxwordlen : ℕ
  maxinfo : ℕ
  maxword : ℕ
  maxhash : ℕ
  maxblocks : ℕ
  small : maxinfo < 2 ^ 27

def blockSize : ℕ := 128

/-- A used bucket points to its word and has the blocks from `b0` to `bN`. -/
structure Bucket where
  word : Option ℕ
  blocks : List (List ℕ)
  n : UInt32
  deriving DecidableEq

structure Pass0 where
  wordbytes : List Byte
  infobuf : List Slot
  table : List Bucket
  wordi : ℕ
  infoi : ℕ
  blocki : ℕ
  bucketsUsed : ℤ
  deriving DecidableEq

def upper (c : Byte) : Bool := 65 ≤ c.val && c.val ≤ 90

def wordChar (c : Byte) : Bool := upper c || 97 ≤ c.val && c.val ≤ 122 || 48 ≤ c.val && c.val ≤ 57

def lower (c : Byte) : Byte := if upper c then c + 32 else c

def str (mem : List Byte) (q : ℕ) : Except Fault (List Byte) :=
  if 0 ∈ mem.drop q then .ok (cstr (mem.drop q)) else .error .range

def store (mem : List Byte) (i : ℕ) (c : Byte) : Except Fault (List Byte) :=
  if i < mem.length then .ok (mem.set i c) else .error .range

/-- What the inner loop of pass0 leaves: where the word is, its length with the zero,
how many separators there were before it, and the rest of the file. -/
structure Token where
  mem : List Byte
  p : ℕ
  len : ℕ
  skip : ℕ
  rest : List Byte
  deriving DecidableEq

/-- The inner loop. A separator before the word moves the place of the word. A file
that ends within a word leaves it without a zero. -/
def readWord (mem : List Byte) (p len skip : ℕ) : List Byte → Except Fault Token
  | [] => .ok ⟨mem, p, len, skip, []⟩
  | c :: input =>
    if wordChar c then do
      let mem ← store mem (p + len) (lower c)
      readWord mem p (len + 1) skip input
    else do
      let mem ← store mem (p + len) 0
      if len = 0 then readWord mem (p + 1) 0 (skip + 1) input else return ⟨mem, p, len + 1, skip, input⟩

/-- A char is signed. -/
def signExtend (c : Byte) : UInt32 := UInt32.ofNat (if c.val < 128 then c.val else c.val + (2 ^ 32 - 256))

def hash (word : List Byte) : ℕ := (word.foldl (fun k c => k * 33 + signExtend c) (0 : UInt32)).toNat

/-- The loop of lookup, with the step `o`. A full table ends the program. -/
def probe (mem : List Byte) (table : List Bucket) (word : List Byte) (o : ℕ) : ℕ → ℕ → Except Fault ℕ
  | 0, _ => .error .abort
  | turns + 1, h =>
    match table[h]? with
    | none => .error .range
    | some bu =>
      match bu.word with
      | none => .ok h
      | some q => do
        let s ← str mem q
        if s = word then return h
        else probe mem table word o turns (if h + o ≥ table.length then h + o - table.length else h + o)

/-- The division by `maxhash - 1` needs a table of two buckets. -/
def lookup (mem : List Byte) (table : List Bucket) (word : List Byte) : Except Fault ℕ :=
  if table.length ≤ 1 then .error .abort
  else probe mem table word (1 + hash word % (table.length - 1)) table.length (hash word % table.length)

def pushLast (i : ℕ) : List (List ℕ) → List (List ℕ)
  | [] => [[i]]
  | [bl] => [bl ++ [i]]
  | bl :: bls => bl :: pushLast i bls

def lastFull (blocks : List (List ℕ)) : Bool := blocks.getLast?.any fun bl => bl.length ≥ blockSize

def takeBlock (sz : Sizes) (ps : Pass0) : Except Fault Pass0 :=
  if ps.blocki < sz.maxblocks then .ok { ps with blocki := ps.blocki + 1 } else .error .range

/-- The end of a turn of pass0: posting `i` goes to bucket `h`, which gets the word if
it was free. -/
def addPosting (sz : Sizes) (ps : Pass0) (tok : Token) (h i : ℕ) : Except Fault Pass0 :=
  match ps.table[h]? with
  | none => .error .range
  | some bu =>
    match bu.word with
    | none => do
      let ps ← takeBlock sz ps
      return { ps with
        table := ps.table.set h ⟨some tok.p, [[i]], 1⟩
        wordi := ps.wordi + (tok.len + tok.skip)
        bucketsUsed := ps.bucketsUsed + 1 }
    | some _ =>
      if lastFull bu.blocks then do
        let ps ← takeBlock sz ps
        return { ps with table := ps.table.set h { bu with blocks := bu.blocks ++ [[i]], n := bu.n + 1 } }
      else
        return { ps with table := ps.table.set h { bu with blocks := pushLast i bu.blocks, n := bu.n + 1 } }

def enterWord (sz : Sizes) (ps : Pass0) (did : Int64) (wc : UInt32) (tok : Token) : Except Fault Pass0 :=
  match ps.infobuf[ps.infoi]? with
  | none => .error .range
  | some infop => do
    let ps := { ps with
      wordbytes := tok.mem
      infobuf := ps.infobuf.set ps.infoi { infop with dn := did, wc := wc }
      infoi := ps.infoi + 1 }
    let word ← str ps.wordbytes tok.p
    let h ← lookup ps.wordbytes ps.table word
    addPosting sz ps tok h (ps.infoi - 1)

def Bucket.named (mem : List Byte) (bu : Bucket) : Except Fault (List Byte × Bucket) :=
  match bu.word with
  | none => .error .range
  | some q => (str mem q).map (·, bu)

def slotAtIndex (infobuf : List Slot) (i : ℕ) : Except Fault Slot :=
  match infobuf[i]? with
  | none => .error .range
  | some s => .ok s

def writeBucket (infobuf : List Slot) (e : List Byte × Bucket) : Except Fault (List Byte) := do
  let slots ← e.2.blocks.flatten.mapM (slotAtIndex infobuf)
  return e.1 ++ 0 :: (encode 4 e.2.n.toNat ++ slotBytes slots)

/-- The order that qsort gives the used buckets with tablecompar; the free ones come
behind them. -/
def sortTable (named : List (List Byte × Bucket)) : List (List Byte × Bucket) := named.insertionSort fun a b => a.1 ≤ b.1

def flushwords (ps : Pass0) : Except Fault (List Byte × Pass0) := do
  let named ← (ps.table.filter fun bu => bu.word.isSome).mapM (Bucket.named ps.wordbytes)
  let bytes ← (sortTable named).mapM (writeBucket ps.infobuf)
  return (bytes.flatten, { ps with
    table := ps.table.map fun bu => { bu with word := none }
    wordi := 0
    infoi := 0
    blocki := 0
    bucketsUsed := 0 })

def full (sz : Sizes) (ps : Pass0) : Bool :=
  ps.wordi + sz.maxwordlen + 1 > sz.maxword || ps.infoi + 1 > sz.maxinfo || ps.blocki + 1 ≥ sz.maxblocks ||
    ps.bucketsUsed ≥ sz.maxhash

structure Core where
  ps : Pass0
  files : List (List Byte)
  deriving DecidableEq

def Core.flush (c : Core) : Except Fault Core :=
  (flushwords c.ps).map fun r => ⟨r.2, c.files ++ [r.1]⟩

/-- When a buffer is full; `early` asks for a flush at other places, by the document and
the number of words read of it. -/
def Core.makeRoom (sz : Sizes) (early : Int64 → UInt32 → Bool) (did : Int64) (wc : UInt32) (c : Core) : Except Fault Core :=
  if full sz c.ps || early did wc then c.flush else .ok c

def pass0Loop (sz : Sizes) (early : Int64 → UInt32 → Bool) (did : Int64) :
    ℕ → List Byte → UInt32 → Core → Except Fault Core
  | 0, _, _, _ => .error .fuel
  | fuel + 1, input, wc, c => do
    let c ← c.makeRoom sz early did wc
    let tok ← readWord c.ps.wordbytes c.ps.wordi 0 0 input
    if tok.len = 0 then return { c with ps := { c.ps with wordbytes := tok.mem } }
    else
      let ps ← enterWord sz c.ps did (wc + 1) tok
      pass0Loop sz early did fuel tok.rest (wc + 1) { c with ps := ps }

def pass0 (sz : Sizes) (early : Int64 → UInt32 → Bool) (c : Core) (doc : Int64 × List Byte) : Except Fault Core :=
  pass0Loop sz early doc.1 (doc.2.length + 1) doc.2 0 c

def tempFiles (sz : Sizes) (early : Int64 → UInt32 → Bool) (ps : Pass0) (docs : List (Int64 × List Byte)) :
    Except Fault (List (List Byte)) := do
  let c ← docs.foldlM (pass0 sz early) ⟨ps, []⟩
  let c ← c.flush
  return c.files

end Mosbench.Psearchy
