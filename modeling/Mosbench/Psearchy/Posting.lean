import Mosbench.Lib.Bytes

/-!
The postings of mkdb.h, as they are on a 64-bit machine: a document number of 64 bits,
a word position of 32 bits, and four bytes of padding that nobody sets. The order is
the one of the comparison operators of `PostIt`.
-/
namespace Mosbench.Psearchy

open List Bytes

structure PostIt where
  dn : Int64
  wc : UInt32
  deriving DecidableEq

namespace PostIt

variable {b : PostIt}

instance : LT PostIt := ⟨fun a b => a.dn < b.dn ∨ a.dn = b.dn ∧ a.wc < b.wc⟩

/-- operator>= with its sides exchanged. -/
instance : LE PostIt := ⟨fun a b => b.dn > a.dn ∨ b.dn = a.dn ∧ b.wc ≥ a.wc⟩

instance : DecidableLT PostIt := fun a b => inferInstanceAs (Decidable (a.dn < b.dn ∨ a.dn = b.dn ∧ a.wc < b.wc))

instance : DecidableLE PostIt := fun a b => inferInstanceAs (Decidable (b.dn > a.dn ∨ b.dn = a.dn ∧ b.wc ≥ a.wc))

theorem lt_iff : a < b ↔ a.dn.toInt < b.dn.toInt ∨ a.dn.toInt = b.dn.toInt ∧ a.wc.toNat < b.wc.toNat := by
  rw [Int64.toInt_inj, ← Int64.lt_iff_toInt_lt, ← UInt32.lt_iff_toNat_lt]
  exact Iff.rfl

theorem le_iff : a ≤ b ↔ a.dn.toInt < b.dn.toInt ∨ a.dn.toInt = b.dn.toInt ∧ a.wc.toNat ≤ b.wc.toNat := by
  rw [Int64.toInt_inj, ← Int64.lt_iff_toInt_lt, ← UInt32.le_iff_toNat_le, eq_comm (a := a.dn)]
  exact Iff.rfl

theorem eq_iff : a = b ↔ a.dn.toInt = b.dn.toInt ∧ a.wc.toNat = b.wc.toNat := by
  rw [Int64.toInt_inj, UInt32.toNat_inj, PostIt.mk.injEq]

instance : LinearOrder PostIt where
  le_refl a := by
    rw [le_iff]
    omega
  le_trans a b c := by
    rw [le_iff, le_iff, le_iff]
    omega
  le_antisymm a b := by
    rw [le_iff, le_iff, eq_iff]
    omega
  le_total a b := by
    rw [le_iff, le_iff]
    omega
  lt_iff_le_not_ge a b := by
    rw [lt_iff, le_iff, le_iff]
    omega
  toDecidableLE := inferInstance
  toDecidableLT := inferInstance
  toDecidableEq := inferInstance

end PostIt

/-- A posting in memory, with its padding. -/
structure Slot extends PostIt where
  pad : UInt32
  deriving DecidableEq

namespace Slot

def size : ℕ := 16

def toBytes (s : Slot) : List Byte :=
  encode 8 s.dn.toUInt64.toNat ++ encode 4 s.wc.toNat ++ encode 4 s.pad.toNat

def ofBytes (bs : List Byte) : Slot where
  dn := (UInt64.ofNat (decode (bs.take 8))).toInt64
  wc := UInt32.ofNat (decode ((bs.drop 8).take 4))
  pad := UInt32.ofNat (decode ((bs.drop 12).take 4))

@[simp] theorem length_toBytes (s : Slot) : s.toBytes.length = size := by
  simp [toBytes, size]

theorem ofBytes_toBytes (s : Slot) (rest : List Byte) : ofBytes (s.toBytes ++ rest) = s := by
  have hdn : (s.toBytes ++ rest).take 8 = encode 8 s.dn.toUInt64.toNat := by
    rw [toBytes, append_assoc, append_assoc, take_left' (length_encode _ _)]
  have hwc : ((s.toBytes ++ rest).drop 8).take 4 = encode 4 s.wc.toNat := by
    rw [toBytes, append_assoc, append_assoc, drop_left' (length_encode _ _),
      take_left' (length_encode _ _)]
  have hpad : ((s.toBytes ++ rest).drop 12).take 4 = encode 4 s.pad.toNat := by
    rw [toBytes, append_assoc, drop_left' (by simp), take_left' (length_encode _ _)]
  obtain ⟨⟨dn, wc⟩, pad⟩ := s
  simp only [ofBytes, hdn, hwc, hpad, decode_encode, mk.injEq, PostIt.mk.injEq]
  refine ⟨⟨?_, ?_⟩, ?_⟩
  · have hlt : dn.toUInt64.toNat < 256 ^ 8 := dn.toUInt64.toNat_lt
    rw [Nat.mod_eq_of_lt hlt, UInt64.ofNat_toNat]
    rfl
  · have hlt : wc.toNat < 256 ^ 4 := wc.toNat_lt
    rw [Nat.mod_eq_of_lt hlt, UInt32.ofNat_toNat]
  · have hlt : pad.toNat < 256 ^ 4 := pad.toNat_lt
    rw [Nat.mod_eq_of_lt hlt, UInt32.ofNat_toNat]

end Slot

/-- How a call can go wrong: an access outside an array or a mapping, an assertion that
fails or a call of exit, and a loop that needs more turns than it is given. -/
inductive Fault
  | range
  | abort
  | fuel
  deriving DecidableEq

end Mosbench.Psearchy
