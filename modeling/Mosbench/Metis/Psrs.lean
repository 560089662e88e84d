import Mosbench.Metis.Bsearch

/-!
The parallel sort of Metis (psrs.c): every CPU copies and sorts its share of the
input, pivots are chosen from regular samples of all shares, the pivots divide each
share into one slice for each CPU, and each CPU merges the slices that belong to it.

Between two barriers every CPU reads what was there at the first one and writes its
own part of the shared arrays, so that one phase of all CPUs is a function of what
the last one left. qsort is a parameter, and so is the size of a pair. Nothing (`none`)
is the result where the code reads outside an array, fails an assertion or multiplies the
size of a pair with a number of pairs for which an int has no room.
-/
namespace Mosbench.Metis.Psrs

variable {α : Type}

/-- The size of a keyval_t, and of a keyvals_len_t. -/
def pairSize : ℕ := 24

/-- The loop of copy_elems from the collection whose first element has the global index
`glbStart`. -/
def copyLoop (psz : ℕ) (dstStart dstEnd : ℤ) : ℤ → List (List α) → Option (List α)
  | _, [] => some []
  | glbStart, coll :: colls =>
    if coll.length = 0 then copyLoop psz dstStart dstEnd glbStart colls
    else
      let glbEnd := glbStart + coll.length - 1
      let locStart := max dstStart glbStart - glbStart
      let locEnd := min dstEnd glbEnd - glbStart
      (if glbStart ≤ dstEnd ∧ dstStart ≤ glbEnd then
        if locStart * psz < 2 ^ 31 then
          some ((coll.drop locStart.toNat).take (locEnd - locStart + 1).toNat)
        else none
      else some []).bind fun elems =>
        (copyLoop psz dstStart dstEnd (glbEnd + 1) colls).map (elems ++ ·)

def copyElems (psz : ℕ) (colls : List (List α)) (dstStart dstEnd : ℤ) : Option (List α) :=
  if (dstEnd - dstStart + 1) * psz < 2 ^ 31 then do
    let dest ← copyLoop psz dstStart dstEnd 0 colls
    if (dest.length : ℤ) = dstEnd - dstStart + 1 then some dest else none
  else none

def totalLen (colls : List (List α)) : ℕ := (colls.map List.length).sum

/-- The range of the input a CPU copies. A short input is left to the main CPU. -/
def share (total ncpus lcpu : ℕ) : ℤ × ℤ :=
  if total < ncpus * ncpus * ncpus then (0, total - 1)
  else
    let w : ℤ := (total + ncpus - 1) / ncpus
    let last := w * (lcpu + 1) - 1
    (w * lcpu, if total ≤ last then total - 1 else last)

def localPivots (ncpus : ℕ) (l : List α) : Option (List α) :=
  let rsize := (l.length + ncpus - 1) / ncpus
  (List.range (ncpus - 1)).mapM fun i =>
    if (i + 1) * rsize < l.length then l[(i + 1) * rsize]? else arrElem l (l.length - 1)

/-- The main CPU moves the pivots it selects to the places from 1 on, in the array that
holds all samples in order. -/
def selectPivots (ncpus : ℕ) (samples : List α) : Option (List α) :=
  (List.range (ncpus - 1)).foldlM (fun pivots i => do
    let x ← pivots[i * ncpus + ncpus / 2]?
    pure (pivots.set (i + 1) x)) samples

def fill (subsize : ℕ → ℤ) (a b : ℕ) (v : ℤ) : ℕ → ℤ :=
  fun i => if a ≤ i ∧ i < b then v else subsize i

/-- `sublists` on the array with the elements `elem`. The length it hands to the search is
`last - start - 1`. -/
def sublists (cmp : α → α → ℤ) (elem : ℤ → Option α) (pivots : List α) :
    ℕ → ℤ → ℤ → (ℕ → ℤ) → ℕ → ℕ → Option (ℕ → ℤ)
  | 0, _, _, _, _, _ => none
  | fuel + 1, start, last, subsize, fp, lp => do
    let mid := (fp + lp) / 2
    let pv ← pivots[mid]?
    let found ← bsearchLar cmp pv (fun i => elem (start + i)) (last - start - 1)
    let pos := found + start
    let subsize := Function.update subsize mid pos
    (if fp < mid then
      if start < pos then sublists cmp elem pivots fuel start (pos - 1) subsize fp (mid - 1)
      else some (fill subsize fp mid start)
    else some subsize).bind fun subsize =>
      if mid < lp then
        if pos ≤ last then sublists cmp elem pivots fuel pos last subsize (mid + 1) lp
        else some (fill subsize (mid + 1) (lp + 1) (last + 1))
      else some subsize

def boundaries (cmp : α → α → ℤ) (ncpus : ℕ) (pivots l : List α) : Option (ℕ → ℤ) :=
  sublists cmp (arrElem l) pivots ncpus 0 (l.length - 1)
    (Function.update (Function.update (fun _ => 0) 0 0) ncpus l.length) 1 (ncpus - 1)

def slice (l : List α) (start stop : ℤ) : Option (List α) :=
  if 0 ≤ start ∧ stop ≤ l.length then some ((l.drop start.toNat).take (stop - start).toNat) else none

/-- The loop over the heads of the runs: the least one, and of equal ones the first. -/
def minHead (cmp : α → α → ℤ) : List (List α) → ℕ → Option (ℕ × α) → Option (ℕ × α)
  | [], _, best => best
  | [] :: runs, i, best => minHead cmp runs (i + 1) best
  | (x :: _) :: runs, i, none => minHead cmp runs (i + 1) (some (i, x))
  | (x :: _) :: runs, i, some (j, y) =>
    if 0 < cmp y x then minHead cmp runs (i + 1) (some (i, x))
    else minHead cmp runs (i + 1) (some (j, y))

def mergesort (cmp : α → α → ℤ) : ℕ → List (List α) → Option (List α)
  | 0, _ => some []
  | n + 1, runs => do
    let (i, x) ← minHead cmp runs 0 none
    let rest ← mergesort cmp n (runs.modify i List.tail)
    pure (x :: rest)

abbrev Shares (α : Type) := List (List α × (ℕ → ℤ))

def slices (shares : Shares α) (lcpu : ℕ) : Option (List (List α)) :=
  shares.mapM fun s => slice s.1 (s.2 lcpu) (s.2 (lcpu + 1))

def partsize (shares : Shares α) (lcpu : ℕ) : ℤ :=
  (shares.map fun s => s.2 (lcpu + 1) - s.2 lcpu).sum

/-- The merge of the CPU `lcpu`; a negative size is a huge one for the loop, which then
runs out of elements. -/
def mergePart (cmp : α → α → ℤ) (shares : Shares α) (lcpu : ℕ) : Option (List α) := do
  let runs ← slices shares lcpu
  if 0 ≤ partsize shares lcpu then mergesort cmp (partsize shares lcpu).toNat runs else none

/-- The merge into an output that the main CPU allocates for `total` elements. -/
def mergeAll (cmp : α → α → ℤ) (psz ncpus total : ℕ) (shares : Shares α) : Option (List (List α)) :=
  if total * psz < 2 ^ 31 then (List.range ncpus).mapM (mergePart cmp shares) else none

def setFirst (out : List α) : List (List α) → Option (List (List α))
  | [] => none
  | _ :: colls => some (out :: colls.map fun _ => [])

section

variable {c : Comparator α} (psz : ℕ) (q : QSort c) (ncpus : ℕ) (colls : List (List α))

def localPairs (lcpu : ℕ) : Option (List α) :=
  let (start, last) := share (totalLen colls) ncpus lcpu
  (copyElems psz colls start last).map q.sort

/-- psrs up to the barrier behind the selection of the pivots, for an input that is not
too short: the sorted shares and the pivots. -/
def prepare : Option (List (List α) × List α) := do
  let lpairs ← (List.range ncpus).mapM (localPairs psz q ncpus colls)
  let samples ← lpairs.mapM (localPivots ncpus)
  let pivots ← selectPivots ncpus (q.sort samples.flatten)
  pure (lpairs, pivots)

def distribute : Option (Shares α) := do
  let (lpairs, pivots) ← prepare psz q ncpus colls
  lpairs.mapM fun l => do
    let subsize ← boundaries c.cmp ncpus pivots l
    pure (l, subsize)

def Sequential : Prop := ncpus = 1 ∨ totalLen colls < ncpus * ncpus * ncpus

instance : Decidable (Sequential ncpus colls) := inferInstanceAs (Decidable (_ ∨ _))

def psrs : Option (List (List α)) :=
  if Sequential ncpus colls then do
    let out ← localPairs psz q ncpus colls 0
    setFirst out colls
  else do
    let shares ← distribute psz q ncpus colls
    let parts ← mergeAll c.cmp psz ncpus (totalLen colls) shares
    setFirst parts.flatten colls

end

end Mosbench.Metis.Psrs
