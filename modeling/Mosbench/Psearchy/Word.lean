import Mosbench.Psearchy.Records

/-!
The query operator for one word (class Word in queryop.C): a cursor over the postings
of the word, which the constructor finds in the index and maps into memory. `advance`
looks for the first posting that is not before a given one. Positions in the list are
unsigned ints, and so is the sum the binary search divides by two.

Scores are left out: no cursor depends on them.
-/
namespace Mosbench.Psearchy

open Bytes

structure Match where
  s : PostIt
  e : PostIt
  deriving DecidableEq

/-- The document number 0 says that there is no match. The source does not set the positions. -/
def Match.none : Match := ⟨⟨0, 0⟩, ⟨0, 0⟩⟩

def Match.at (x : PostIt) : Match := ⟨x, x⟩

structure Word where
  inCore : List PostIt
  inCoreP : ℕ
  curr : Match
  eof : Bool
  deriving DecidableEq

namespace Word

def pageSize : ℕ := 4096

/-- The part of a file that xmmap gives access to. mmap refuses an empty mapping, and
what lies past the end of the file cannot be read. -/
def xmmap (file : List Byte) (len offset : ℕ) : Except Fault (List Byte) :=
  if len + offset % pageSize = 0 then .error .abort
  else if file.length < offset + len then .error .range
  else .ok ((file.drop offset).take len)

/-- A word without postings. The constructor does not set the current match then. -/
def absent (garbage : Match) : Word := ⟨[], 0, garbage, false⟩

/-- The constructor: `w2p` is the word database and `file` the index. -/
def construct (maxlen : ℕ) (w : List Byte) (file : List Byte) (w2p : List (List Byte × ℕ)) (garbage : Match) :
    Except Fault Word :=
  match w2p.lookup w with
  | none => .ok (absent garbage)
  | some offset =>
    -- wordbuf has room for maxlen + 2 bytes and the count
    if maxlen + 2 + 4 < w.length + 1 + 4 then .error .range
    else
      let wordbuf := (file.drop offset).take (w.length + 1 + 4)
      if wordbuf.length ≠ w.length + 1 + 4 ∨ wordbuf.take (w.length + 1) ≠ w ++ [0] then .ok (absent garbage)
      else
        let max := decode (wordbuf.drop (w.length + 1))
        (xmmap file (max * Slot.size) (offset + (w.length + 1 + 4))).map fun mem =>
          ⟨(List.range max).map fun i => (Slot.ofBytes (mem.drop (i * Slot.size))).toPostIt, 0, .none, false⟩

def get (w : Word) (i : ℕ) : Except Fault PostIt :=
  match w.inCore[i]? with
  | some x => .ok x
  | none => .error .range

def maskTags (tagmask : UInt32) (x : PostIt) : PostIt := { x with wc := x.wc &&& tagmask }

def finish (w : Word) : Word := { w with eof := true, curr := .none }

def goto (tagmask : UInt32) (w : Word) (i : ℕ) : Except Fault Word :=
  (w.get i).map fun x => { w with inCoreP := i + 1, curr := .at (maskTags tagmask x) }

/-- The match that a call returns is the current one. -/
def next (tagmask : UInt32) (w : Word) : Except Fault Word :=
  if w.inCore.length ≤ w.inCoreP then .ok w.finish
  else do
    let x ← w.get w.inCoreP
    if 0 < w.inCoreP then
      let prev ← w.get (w.inCoreP - 1)
      if x.dn < prev.dn then throw .abort
    w.goto tagmask w.inCoreP

/-- The loop of advance within a document. -/
def skip (tagmask : UInt32) (w : Word) (target : PostIt) : ℕ → ℕ → Except Fault ℕ
  | 0, _ => .error .fuel
  | fuel + 1, p => do
    let x ← w.get p
    if x.dn = target.dn ∧ x.wc &&& tagmask < target.wc then w.skip tagmask target fuel (p + 1) else return p

def search (w : Word) (target : PostIt) : ℕ → ℕ → ℕ → Except Fault ℕ
  | 0, _, _ => .error .fuel
  | fuel + 1, p, stop =>
    if p < stop then do
      let mid := (p + stop) % 2 ^ 32 / 2
      let x ← w.get mid
      if x < target then
        let y ← w.get (mid + 1)
        if y > target then return mid + 1 else w.search target fuel (mid + 1) stop
      else if x ≥ target then w.search target fuel p mid
      else w.search target fuel p stop
    else .ok p

/-- Move on to the first posting that is not before `target`. -/
def advance (tagmask : UInt32) (fuel : ℕ) (w : Word) (target : PostIt) : Except Fault Word :=
  if w.inCore.length ≤ w.inCoreP then .ok w.finish
  else do
    let last ← w.get (w.inCore.length - 1)
    if last < target then return w.finish
    if 0 < w.inCoreP then
      let prev ← w.get (w.inCoreP - 1)
      if prev.dn > target.dn then return w
    if w.curr.s.dn = target.dn then
      let p ← w.skip tagmask target fuel w.inCoreP
      w.goto tagmask p
    else
      let x ← w.get w.inCoreP
      if x < target then
        let p ← w.search target fuel 0 (w.inCore.length - 1)
        w.goto tagmask p
      else w.goto tagmask w.inCoreP

end Word

end Mosbench.Psearchy
