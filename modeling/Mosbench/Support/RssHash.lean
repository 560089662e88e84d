import Mathlib.Data.List.Induction
import Mathlib.Data.Nat.Bitwise

/-!
The Toeplitz hash of receive-side scaling (rsshash.py) and the generator of destination ports
that fall into given queues. Python's numbers are not bounded: the key that is shifted to the
left keeps all its bits, and the hash takes 32 of them at a fixed place.
-/
namespace Mosbench.Support

open List

/-- The bits of the bytes, the most significant ones first; a number that is not a byte
fails the assertion. -/
def bits (bytes : List ℕ) : Option (List Bool) :=
  if ∀ byte ∈ bytes, byte ≤ 255 then
    some (bytes.flatMap fun byte => (range 8).map fun bit => (byte >>> (7 - bit)) % 2 = 1)
  else none

def hashLoop : List Bool → ℕ → ℕ → ℕ
  | [], _, result => result
  | bit :: bs, nkey, result =>
    hashLoop bs (nkey <<< 1) (if bit then result ^^^ (nkey >>> (320 - 32)) % 2 ^ 32 else result)

def hashData (key : ℕ) (data : List ℕ) : Option ℕ := (bits data).map fun bs => hashLoop bs key 0

/-- The bit at position `i` of the data. -/
def dataBit (data : List ℕ) (i : ℕ) : Bool := (data.getD (i / 8) 0).testBit (7 - i % 8)

/-- The 32 bits of the key that start at position `i` from the top. -/
def window (key : BitVec 320) (i : ℕ) : BitVec 32 := key.extractLsb' (320 - 32 - i) 32

/-- The windows at the bits that are set, added up. -/
def toeplitz (key : BitVec 320) (bit : ℕ → Bool) (n : ℕ) : BitVec 32 :=
  (range n).foldl (fun sum i => sum ^^^ if bit i then window key i else 0#32) 0#32

theorem toeplitz_succ (key : BitVec 320) (bit : ℕ → Bool) (n : ℕ) :
    toeplitz key bit (n + 1) = toeplitz key bit n ^^^ if bit n then window key n else 0#32 := by
  rw [toeplitz, range_succ, foldl_append]
  rfl

theorem toNat_window (hi : i ≤ 288) : (window key i).toNat = (key.toNat <<< i >>> 288) % 2 ^ 32 := by
  obtain ⟨d, hd⟩ := Nat.exists_eq_add_of_le hi
  have hsub : 320 - 32 - i = d := by omega
  have hshift : key.toNat <<< i >>> 288 = key.toNat >>> d := by
    rw [hd, Nat.shiftRight_add, Nat.shiftLeft_shiftRight]
  rw [window, BitVec.extractLsb'_toNat, hsub, hshift]

theorem hashLoop_eq (key : BitVec 320) (n : ℕ) (bs : List Bool) (hlen : n + bs.length ≤ 288) (bit : ℕ → Bool)
    (hbit : ∀ i (h : i < bs.length), bit (n + i) = bs[i]) :
    hashLoop bs (key.toNat <<< n) (toeplitz key bit n).toNat = (toeplitz key bit (n + bs.length)).toNat := by
  induction bs generalizing n with
  | nil => rfl
  | cons b bs ih =>
    rw [length_cons] at hlen ⊢
    have hb : bit n = b := hbit 0 (Nat.succ_pos _)
    have hnext : (if b = true then (toeplitz key bit n).toNat ^^^ (key.toNat <<< n >>> (320 - 32)) % 2 ^ 32
        else (toeplitz key bit n).toNat) = (toeplitz key bit (n + 1)).toNat := by
      rw [toeplitz_succ, hb, ← toNat_window (by omega)]
      cases b with
      | false => simp
      | true => simp
    rw [hashLoop, hnext, ← Nat.shiftLeft_add, ih (n + 1) (by omega) fun i hi => ?_]
    · congr 2
      omega
    · have hnth := hbit (i + 1) (Nat.succ_lt_succ hi)
      rwa [← Nat.add_assoc, Nat.add_right_comm] at hnth

theorem flatMap_bits (data : List ℕ) :
    (data.flatMap fun byte => (range 8).map fun bit => decide ((byte >>> (7 - bit)) % 2 = 1)) =
      (range (8 * data.length)).map (dataBit data) := by
  induction data with
  | nil => rfl
  | cons byte data ih =>
    rw [flatMap_cons, ih, length_cons, Nat.mul_succ, Nat.add_comm, range_add, map_append, map_map]
    refine congrArg₂ _ (map_congr_left fun i hi => ?_) (map_congr_left fun i _ => ?_)
    · have hi : i < 8 := mem_range.mp hi
      rw [dataBit, Nat.div_eq_of_lt hi, Nat.mod_eq_of_lt hi, getD_cons_zero, Nat.testBit_eq_decide_div_mod_eq,
        Nat.shiftRight_eq_div_pow]
    · have hdiv : (8 + i) / 8 = i / 8 + 1 := by omega
      rw [Function.comp_apply, dataBit, dataBit, hdiv, getD_cons_succ, Nat.add_mod_left]

theorem hashData_spec (key : BitVec 320) (hbytes : ∀ byte ∈ data, byte ≤ 255) (hlen : data.length ≤ 36) :
    hashData key.toNat data = some (toeplitz key (dataBit data) (8 * data.length)).toNat := by
  have hloop := hashLoop_eq key 0 ((range (8 * data.length)).map (dataBit data))
    (by rw [length_map, length_range]; omega) (dataBit data) (by simp)
  rw [length_map, length_range, Nat.zero_add] at hloop
  rw [hashData, bits, if_pos hbytes, flatMap_bits, Option.map_some, ← hloop]
  rfl

theorem toeplitz_xor (key : BitVec 320) (bit bit' : ℕ → Bool) (n : ℕ) :
    toeplitz key (fun i => bit i ^^ bit' i) n = toeplitz key bit n ^^^ toeplitz key bit' n := by
  induction n with
  | zero => exact BitVec.xor_self.symm
  | succ n ih =>
    have hbit : (if (bit n ^^ bit' n) = true then window key n else 0#32) =
        (if bit n = true then window key n else 0#32) ^^^ if bit' n = true then window key n else 0#32 := by
      cases bit n <;> cases bit' n <;> simp
    rw [toeplitz_succ, toeplitz_succ, toeplitz_succ, ih, hbit]
    ac_rfl

theorem dataBit_zipWith (h : data'.length = data.length) (i : ℕ) :
    dataBit (zipWith (· ^^^ ·) data data') i = (dataBit data i ^^ dataBit data' i) := by
  simp only [dataBit, getD_eq_getElem?_getD, getElem?_zipWith]
  rcases Nat.lt_or_ge (i / 8) data.length with hi | hi
  · simp [hi, h]
  · simp [hi, h]

/-- The hash is the sum of the windows at the bits that are set, and therefore linear. -/
theorem hashData_toeplitz (key : BitVec 320) (data : List ℕ) (hbytes : ∀ byte ∈ data, byte ≤ 255) (hlen : data.length ≤ 36) :
    hashData key.toNat data = some (toeplitz key (dataBit data) (8 * data.length)).toNat ∧
      ∀ data' : List ℕ, data'.length = data.length → (∀ byte ∈ data', byte ≤ 255) →
        ∃ h h', hashData key.toNat data = some h ∧ hashData key.toNat data' = some h' ∧
          hashData key.toNat (zipWith (· ^^^ ·) data data') = some (h ^^^ h') := by
  refine ⟨hashData_spec key hbytes hlen, fun data' hlen' hbytes' => ?_⟩
  refine ⟨_, _, hashData_spec key hbytes hlen, hashData_spec key hbytes' (by omega), ?_⟩
  have hxor : ∀ byte ∈ zipWith (· ^^^ ·) data data', byte ≤ 255 := by
    intro byte hbyte
    obtain ⟨i, hi, rfl⟩ := mem_iff_getElem.mp hbyte
    rw [getElem_zipWith]
    refine Nat.le_of_lt_succ (Nat.xor_lt_two_pow (n := 8) (Nat.lt_succ_of_le ?_) (Nat.lt_succ_of_le ?_))
    · exact hbytes _ (getElem_mem _)
    · exact hbytes' _ (getElem_mem _)
  have hsame : (zipWith (· ^^^ ·) data data').length = data.length := by rw [length_zipWith, hlen', Nat.min_self]
  rw [hashData_spec key hxor (by omega), hsame, hlen', funext (dataBit_zipWith hlen'), toeplitz_xor, BitVec.toNat_xor]

theorem hashData_toeplitz_two : ∃ h h', hashData (1#320 <<< 300).toNat [128, 3] = some h ∧
    hashData (1#320 <<< 300).toNat [7, 1] = some h' ∧ hashData (1#320 <<< 300).toNat [135, 2] = some (h ^^^ h') :=
  (hashData_toeplitz (1#320 <<< 300) [128, 3] (by simp) (by simp)).2 [7, 1] rfl (by simp)

/-- The random key of the Linux driver. -/
def linuxKey : ℕ := 0x3dd791e26cec05180db3942aec2b4fa57caf49ea3dad14e2beaa55b8ea673e6a174d36140d20ed3b

/-- The indirection table: the queues in turn, each block of four reversed. -/
def reta (onlineCPUs : ℕ) : List ℕ :=
  (range 32).foldl (fun reta i => reta.take (4 * i) ++ ((reta.drop (4 * i)).take 4).reverse ++ reta.drop (4 * i + 4))
    ((replicate 128 (range (max 16 onlineCPUs))).flatten.take 128)

def queueOf (onlineCPUs h : ℕ) : Option ℕ := (reta onlineCPUs)[h % 128]?

/-- The arguments of a call; `H` are the names and addresses of hosts. -/
structure PortCall (H : Type) where
  src : H
  srcPort : ℕ
  dst : H
  dstQueue : ℕ

section Ports

variable (ipv4Tuple : H → Option (List ℕ)) (onlineCPUs first : ℕ)

/-- The queue of the packet to port `dp`; nothing if the source is not one. -/
def queueFor (c : PortCall H) (dp : ℕ) : Option ℕ := do
  let src ← ipv4Tuple c.src
  let dst ← ipv4Tuple c.dst
  let h ← hashData linuxKey (src ++ dst ++ [c.srcPort >>> 8, c.srcPort % 256, dp >>> 8, dp % 256])
  queueOf onlineCPUs h

/-- The loop over the ports. -/
def findPort (queue : ℕ → Option ℕ) (dstQueue : ℕ) (used : List ℕ) : List ℕ → Option ℕ
  | [] => none
  | dp :: dps =>
    if dp ∈ used then findPort queue dstQueue used dps
    else do
      let q ← queue dp
      if q = dstQueue then some dp else findPort queue dstQueue used dps

def genIPv4UDP (used : List ℕ) (c : PortCall H) : Option ℕ :=
  findPort (queueFor ipv4Tuple onlineCPUs c) c.dstQueue used (range' first (65536 - first))

/-- The ports that the calls return, the last one first. -/
def generated (calls : List (PortCall H)) : List ℕ :=
  calls.foldl (fun used c => (genIPv4UDP ipv4Tuple onlineCPUs first used c).toList ++ used) []

end Ports

theorem length_reta (onlineCPUs : ℕ) : (reta onlineCPUs).length = 128 := by
  have hstart : ((replicate 128 (range (max 16 onlineCPUs))).flatten.take 128).length = 128 := by
    simp
    omega
  have hkeep : ∀ (is : List ℕ) (l : List ℕ), (∀ i ∈ is, i < 32) → l.length = 128 →
      (is.foldl (fun reta i => reta.take (4 * i) ++ ((reta.drop (4 * i)).take 4).reverse ++ reta.drop (4 * i + 4)) l).length =
        128 := by
    intro is
    induction is with
    | nil => exact fun l _ hl => hl
    | cons i is ih =>
      intro l his hl
      obtain ⟨hi, his⟩ := forall_mem_cons.mp his
      refine ih _ his ?_
      simp [hl]
      omega
  exact hkeep _ _ (fun i hi => mem_range.mp hi) hstart

theorem findPort_eq_some (h : findPort queue dstQueue used dps = some dp) :
    dp ∈ dps ∧ dp ∉ used ∧ queue dp = some dstQueue := by
  induction dps with
  | nil => cases h
  | cons p dps ih =>
    rw [findPort] at h
    split_ifs at h with hused
    · exact (ih h).imp_left (mem_cons_of_mem p)
    · obtain ⟨q, hq, h⟩ := Option.bind_eq_some_iff.mp h
      split_ifs at h with hqueue
      · obtain rfl := Option.some.inj h
        exact ⟨mem_cons_self, hused, hqueue ▸ hq⟩
      · exact (ih h).imp_left (mem_cons_of_mem p)

theorem findPort_eq_none (hall : ∀ dp ∈ dps, ∀ dp' ∈ dps, queue dp = none → queue dp' = none)
    (h : findPort queue dstQueue used dps = none) (hdp : dp ∈ dps) (hused : dp ∉ used) : queue dp ≠ some dstQueue := by
  induction dps with
  | nil => cases hdp
  | cons p dps ih =>
    rw [findPort] at h
    cases hq : queue p with
    | none =>
      rw [hall p mem_cons_self dp hdp hq]
      exact (Option.some_ne_none _).symm
    | some q =>
      rw [hq, Option.bind_eq_bind, Option.bind_some] at h
      rcases mem_cons.mp hdp with rfl | hdp
      · rw [if_neg hused] at h
        intro hqueue
        rw [if_pos (Option.some.inj (hq.symm.trans hqueue))] at h
        cases h
      · refine ih (fun d hd d' hd' => hall d (mem_cons_of_mem p hd) d' (mem_cons_of_mem p hd')) ?_ hdp
        split_ifs at h <;> exact h

theorem hashData_eq_none_iff (hdp : dp ≤ 65535) :
    hashData n (data ++ [dp >>> 8, dp % 256]) = none ↔ ¬∀ byte ∈ data, byte ≤ 255 := by
  have hhigh : dp >>> 8 ≤ 255 := by
    rw [Nat.shiftRight_eq_div_pow]
    omega
  have hlow : dp % 256 ≤ 255 := by omega
  rw [hashData, bits, Option.map_eq_none_iff, ite_eq_right_iff, forall_mem_append]
  simp [hhigh, hlow]

theorem queueFor_eq_none (hdp : dp ≤ 65535) (hdp' : dp' ≤ 65535) (h : queueFor ipv4Tuple onlineCPUs c dp = none) :
    queueFor ipv4Tuple onlineCPUs c dp' = none := by
  rw [queueFor] at h ⊢
  cases hsrc : ipv4Tuple c.src with
  | none => rfl
  | some src =>
    cases hdst : ipv4Tuple c.dst with
    | none => rfl
    | some dst =>
      simp only [hsrc, hdst, Option.bind_eq_bind, Option.bind_some, Option.bind_eq_none_iff] at h ⊢
      have hfail : hashData linuxKey (src ++ dst ++ [c.srcPort >>> 8, c.srcPort % 256, dp >>> 8, dp % 256]) = none := by
        refine Option.eq_none_iff_forall_ne_some.mpr fun x hx => ?_
        have hnone := getElem?_eq_none_iff.mp (h x hx)
        rw [length_reta] at hnone
        omega
      have hsplit : ∀ d, src ++ dst ++ [c.srcPort >>> 8, c.srcPort % 256, d >>> 8, d % 256] =
          src ++ dst ++ [c.srcPort >>> 8, c.srcPort % 256] ++ [d >>> 8, d % 256] := by simp
      intro x hx
      rw [hsplit, hashData_eq_none_iff hdp, ← hashData_eq_none_iff hdp', ← hsplit, hx] at hfail
      cases hfail

/-- In any sequence of calls the ports are different, and the next call returns a port that is
new, in the range and falls into the queue, or there is none. -/
theorem ports_generated (ipv4Tuple : H → Option (List ℕ)) (onlineCPUs first : ℕ) (calls : List (PortCall H)) :
    (generated ipv4Tuple onlineCPUs first calls).Nodup ∧ ∀ c : PortCall H,
      (∀ dp, genIPv4UDP ipv4Tuple onlineCPUs first (generated ipv4Tuple onlineCPUs first calls) c = some dp →
        dp ∉ generated ipv4Tuple onlineCPUs first calls ∧ first ≤ dp ∧ dp ≤ 65535 ∧
          queueFor ipv4Tuple onlineCPUs c dp = some c.dstQueue) ∧
      (genIPv4UDP ipv4Tuple onlineCPUs first (generated ipv4Tuple onlineCPUs first calls) c = none →
        ∀ dp ∉ generated ipv4Tuple onlineCPUs first calls, first ≤ dp → dp ≤ 65535 →
          queueFor ipv4Tuple onlineCPUs c dp ≠ some c.dstQueue) := by
  refine ⟨?_, fun c => ⟨fun dp h => ?_, fun h dp hdp hfirst hlast => ?_⟩⟩
  · induction calls using reverseRecOn with
    | nil => exact nodup_nil
    | append_singleton calls c ih =>
      rw [generated, foldl_append]
      change (Option.toList (genIPv4UDP ipv4Tuple onlineCPUs first (generated ipv4Tuple onlineCPUs first calls) c) ++
        generated ipv4Tuple onlineCPUs first calls).Nodup
      cases hdp : genIPv4UDP ipv4Tuple onlineCPUs first (generated ipv4Tuple onlineCPUs first calls) c with
      | none => exact ih
      | some dp => exact nodup_cons.mpr ⟨(findPort_eq_some hdp).2.1, ih⟩
  · obtain ⟨hmem, hused, hqueue⟩ := findPort_eq_some h
    rw [mem_range'_1] at hmem
    exact ⟨hused, hmem.1, by omega, hqueue⟩
  · have hrange : ∀ dp ∈ range' first (65536 - first), dp ≤ 65535 := fun dp hdp => by
      rw [mem_range'_1] at hdp
      omega
    refine findPort_eq_none (fun d hd d' hd' => queueFor_eq_none ?_ ?_) h (mem_range'_1.mpr ⟨hfirst, by omega⟩) hdp
    · exact hrange d hd
    · exact hrange d' hd'

end Mosbench.Support
