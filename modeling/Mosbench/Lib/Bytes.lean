import Mathlib.Algebra.GroupWithZero.Nat
import Mathlib.Data.List.TakeWhile
import Mathlib.Order.Fin.Basic

/-!
Numbers and strings in memory: little-endian numbers of a fixed width, and strings
that end at the first zero byte of a buffer.
-/
namespace Mosbench.Bytes

open List

abbrev Byte := Fin 256

instance neZero_256 : NeZero 256 := ⟨by decide⟩

def encode : ℕ → ℕ → List Byte
  | 0, _ => []
  | width + 1, n => Fin.ofNat 256 n :: encode width (n / 256)

def decode : List Byte → ℕ
  | [] => 0
  | b :: bs => b.val + 256 * decode bs

@[simp] theorem length_encode (width n : ℕ) : (encode width n).length = width := by
  induction width generalizing n with
  | zero => rfl
  | succ width ih => rw [encode, length_cons, ih]

theorem decode_encode (width n : ℕ) : decode (encode width n) = n % 256 ^ width := by
  induction width generalizing n with
  | zero => rw [encode, decode, Nat.pow_zero, Nat.mod_one]
  | succ width ih => rw [encode, decode, ih, Nat.pow_succ', Nat.mod_mul, Fin.val_ofNat]

theorem encode_mod (width n : ℕ) : encode width (n % 256 ^ width) = encode width n := by
  induction width generalizing n with
  | zero => rfl
  | succ width ih =>
    have hlow : Fin.ofNat 256 (n % 256 ^ (width + 1)) = Fin.ofNat 256 n := by
      apply Fin.ext
      rw [Fin.val_ofNat, Fin.val_ofNat, Nat.pow_succ', Nat.mod_mul_right_mod]
    rw [encode, encode, hlow, Nat.pow_succ', Nat.mod_mul_right_div_self, ih]

def cstr (buf : List Byte) : List Byte := buf.takeWhile (· ≠ 0)

theorem cstr_append_zero (h : ∀ b ∈ w, b ≠ 0) (rest : List Byte) : cstr (w ++ 0 :: rest) = w := by
  rw [cstr, takeWhile_append_of_pos (by simpa using h), takeWhile_cons_of_neg (by simp), append_nil]

theorem ne_zero_of_mem_cstr (h : b ∈ cstr buf) : b ≠ 0 := by
  simpa using mem_takeWhile_imp h

def overwrite (mem : List Byte) (i : ℕ) (bs : List Byte) : List Byte := mem.take i ++ bs ++ mem.drop (i + bs.length)

variable {mem bs : List Byte}

@[simp] theorem overwrite_nil (mem : List Byte) (i : ℕ) : overwrite mem i [] = mem := by
  simp [overwrite]

section

variable (h : i + bs.length ≤ mem.length)

include h

theorem length_overwrite : (overwrite mem i bs).length = mem.length := by
  simp only [overwrite, length_append, length_take, length_drop]
  omega

theorem take_overwrite : (overwrite mem i bs).take i = mem.take i := by
  rw [overwrite, append_assoc, take_left' (length_take_of_le (by omega))]

theorem drop_overwrite :
    (overwrite mem i bs).drop i = bs ++ mem.drop (i + bs.length) := by
  rw [overwrite, append_assoc, drop_left' (length_take_of_le (by omega))]

theorem overwrite_append (bs' : List Byte) :
    overwrite (overwrite mem i bs) (i + bs.length) bs' = overwrite mem i (bs ++ bs') := by
  have hfront : (mem.take i ++ bs).length = i + bs.length := by
    rw [length_append, length_take_of_le (by omega)]
  have hback : (mem.take i ++ bs ++ mem.drop (i + bs.length)).drop (i + bs.length + bs'.length) =
      mem.drop (i + (bs ++ bs').length) := by
    rw [← drop_drop, drop_left' hfront, drop_drop, length_append, Nat.add_assoc]
  rw [overwrite, overwrite, overwrite, take_left' hfront, hback, append_assoc (mem.take i)]

end

theorem set_eq_overwrite (h : i < mem.length) : mem.set i c = overwrite mem i [c] := by
  rw [overwrite, set_eq_take_append_cons_drop, if_pos h, append_assoc]
  rfl

end Mosbench.Bytes
