import Mosbench.Psearchy.Posting

/-!
The temporary files and the index of pedsort.C, and how passN reads them (zword, znum,
zcopy). A file is a sequence of records; a record is a word with its terminating zero,
the number of its postings as an unsigned int, and the postings as they are in memory.
A stream is given by the bytes that are still to be read.
-/
namespace Mosbench.Psearchy

open List Bytes

abbrev Record := List Byte × List Slot

def slotBytes (slots : List Slot) : List Byte := slots.flatMap Slot.toBytes

namespace Record

/-- The count has 32 bits, however long the list is. -/
def toBytes (r : Record) : List Byte := r.1 ++ 0 :: (encode 4 r.2.length ++ slotBytes r.2)

/-- The word ends at its terminating zero and fits the buffers of passN, and the size
of the list in bytes fits an unsigned int. -/
structure WellFormed (maxwordlen : ℕ) (r : Record) : Prop where
  string : ∀ b ∈ r.1, b ≠ 0
  fits : r.1.length ≤ maxwordlen
  short : r.2.length < 2 ^ 28

end Record

def fileBytes (rs : List Record) : List Byte := rs.flatMap Record.toBytes

@[simp] theorem slotBytes_cons (s : Slot) (slots : List Slot) : slotBytes (s :: slots) = s.toBytes ++ slotBytes slots :=
  rfl

@[simp] theorem length_slotBytes (slots : List Slot) : (slotBytes slots).length = slots.length * Slot.size := by
  induction slots with
  | nil => exact (Nat.zero_mul _).symm
  | cons s slots ih => rw [slotBytes_cons, length_append, Slot.length_toBytes, ih, length_cons, Nat.succ_mul,
      Nat.add_comm]

@[simp] theorem fileBytes_nil : fileBytes [] = [] := rfl

@[simp] theorem fileBytes_cons (r : Record) (rs : List Record) : fileBytes (r :: rs) = r.toBytes ++ fileBytes rs := rfl

/-- The loop of zword: bytes go into the buffer from `i` on as long as it has room. -/
def zwordLoop : List Byte → List Byte → ℕ → ℕ × List Byte × List Byte
  | [], buf, i => (i, buf, [])
  | c :: fp, buf, i =>
    let (buf', i') := if i < buf.length then (buf.set i c, i + 1) else (buf, i)
    if c = 0 then (i', buf', fp) else zwordLoop fp buf' i'

/-- Whether the file had ended, the buffer, and what is left of the file. -/
def zword (fp buf : List Byte) : Bool × List Byte × List Byte :=
  let (i, buf', fp') := zwordLoop fp buf 0
  (decide (i = 0), if i = buf'.length then buf'.set (buf'.length - 1) 0 else buf', fp')

def znum (fp : List Byte) : ℕ × List Byte := (decode (fp.take 4), fp.drop 4)

def zcopy (fp : List Byte) (n : ℕ) : List Byte × List Byte := (fp.take n, fp.drop n)

theorem zwordLoop_word (hw : ∀ b ∈ w, b ≠ 0) (rest filled old : List Byte) (hlen : w.length < old.length) :
    zwordLoop (w ++ 0 :: rest) (filled ++ old) filled.length =
      (filled.length + w.length + 1, filled ++ w ++ 0 :: old.drop (w.length + 1), rest) := by
  induction w generalizing filled old with
  | nil =>
    obtain ⟨o, old, rfl⟩ := exists_cons_of_length_pos hlen
    rw [nil_append, zwordLoop, if_pos (by simp)]
    simp
  | cons c w ih =>
    obtain ⟨hc, hw⟩ := forall_mem_cons.mp hw
    obtain ⟨o, old, rfl⟩ := exists_cons_of_length_pos (Nat.zero_lt_of_lt hlen)
    have hset : (filled ++ o :: old).set filled.length c = (filled ++ [c]) ++ old := by simp
    have hlen' : (filled ++ [c]).length = filled.length + 1 := by simp
    rw [cons_append, zwordLoop, if_pos (by simp)]
    dsimp only
    rw [if_neg hc, hset, ← hlen', ih hw (filled ++ [c]) old (Nat.lt_of_succ_lt_succ hlen), hlen', length_cons]
    simp
    omega

theorem zword_word (hw : ∀ b ∈ w, b ≠ 0) (rest : List Byte) (hlen : w.length < buf.length) :
    ∃ buf', zword (w ++ 0 :: rest) buf = (false, buf', rest) ∧ buf'.length = buf.length ∧ cstr buf' = w := by
  have hloop := zwordLoop_word hw rest [] buf hlen
  simp only [nil_append, length_nil, Nat.zero_add] at hloop
  have hbuf : (w ++ 0 :: buf.drop (w.length + 1)).length = buf.length := by
    rw [length_append, length_cons, length_drop]
    omega
  refine ⟨w ++ 0 :: buf.drop (w.length + 1), ?_, hbuf, cstr_append_zero hw _⟩
  rw [zword, hloop]
  dsimp only
  rw [hbuf]
  split_ifs with hfull
  · -- the zero that closes a full buffer is the one of the word
    have hdrop : buf.drop (w.length + 1) = [] := drop_eq_nil_of_le hfull.ge
    rw [hdrop, ← hfull, Nat.add_sub_cancel]
    simp
  · simp

theorem zword_nil (buf : List Byte) (hpos : 0 < buf.length) : zword [] buf = (true, buf, []) := by
  rw [zword, zwordLoop]
  dsimp only
  rw [if_neg hpos.ne]
  rfl

theorem znum_encode (h : n < 2 ^ 32) (rest : List Byte) : znum (encode 4 n ++ rest) = (n, rest) := by
  rw [znum, take_left' (length_encode _ _), drop_left' (length_encode _ _), decode_encode]
  exact congrArg (·, rest) (Nat.mod_eq_of_lt h)

theorem zcopy_append (h : l.length = n) (rest : List Byte) : zcopy (l ++ rest) n = (l, rest) := by
  rw [zcopy, take_left' h, drop_left' h]

structure Input where
  fp : List Byte
  word : List Byte
  eof : Bool

namespace Input

def zword (fp buf : List Byte) : Input :=
  let (eof, word, fp) := Psearchy.zword fp buf
  ⟨fp, word, eof⟩

def fopen (maxwordlen : ℕ) (file : List Byte) : Input := zword file (List.replicate (maxwordlen + 1) 0)

def Reads (maxwordlen : ℕ) (inp : Input) (rs : List Record) : Prop :=
  inp.word.length = maxwordlen + 1 ∧
    match rs with
    | [] => inp.eof = true
    | r :: rs => inp.eof = false ∧ cstr inp.word = r.1 ∧
        inp.fp = encode 4 r.2.length ++ (slotBytes r.2 ++ fileBytes rs)

theorem reads_zword (h : ∀ r ∈ rs, r.WellFormed maxwordlen)
    (hbuf : buf.length = maxwordlen + 1) : (zword (fileBytes rs) buf).Reads maxwordlen rs := by
  cases rs with
  | nil =>
    rw [fileBytes_nil, zword, zword_nil buf (by omega)]
    exact ⟨hbuf, rfl⟩
  | cons r rs =>
    obtain ⟨hr, -⟩ := forall_mem_cons.mp h
    have hlen : r.1.length < buf.length := by
      have := hr.fits
      omega
    obtain ⟨buf', hword, hlen', hcstr⟩ :=
      zword_word hr.string (encode 4 r.2.length ++ slotBytes r.2 ++ fileBytes rs) hlen
    rw [fileBytes_cons, Record.toBytes, append_assoc, cons_append, zword, hword]
    exact ⟨hlen'.trans hbuf, rfl, hcstr, append_assoc ..⟩

theorem reads_fopen (h : ∀ r ∈ rs, r.WellFormed maxwordlen) :
    (fopen maxwordlen (fileBytes rs)).Reads maxwordlen rs :=
  reads_zword h length_replicate

end Input

end Mosbench.Psearchy
