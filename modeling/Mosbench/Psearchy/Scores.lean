import Mosbench.Psearchy.Cursor
import Mathlib.Data.Nat.Size

/-!
The scores of matches. A word has a weight that its constructor divides by the number of
postings; score divides it by the number of bits of the position, and by the square root of
the document number. A conjunction divides the sum of its words' scores by the number of
bits of the distance. Both count the bits with the same loop, which looks at 16 bits.

The document number -1 that is divided is a signed one, so that the weight is 0 for every
word that has more than one posting.
-/
namespace Mosbench.Psearchy

/-- Shift until bit 31 is set, at most `i` times. -/
def countBits {width : ℕ} : ℕ → BitVec width → ℕ
  | 0, _ => 0
  | i + 1, t => if t.getLsbD 31 then i + 1 else countBits i (t <<< 1)

theorem countBits_eq (hwidth : 32 ≤ width) (hi : i ≤ 16) (x : ℕ) :
    countBits i (BitVec.ofNat width (x * 2 ^ (32 - i))) = (x % 2 ^ i).size := by
  induction i with
  | zero =>
    rw [pow_zero, Nat.mod_one]
    rfl
  | succ i ih =>
    have hpow : (2 : ℕ) ^ (32 - i) = 2 ^ (32 - (i + 1)) * 2 := by
      rw [← pow_succ]
      congr 1
      omega
    have hbit : (BitVec.ofNat width (x * 2 ^ (32 - (i + 1)))).getLsbD 31 = x.testBit i := by
      rw [BitVec.getLsbD_ofNat, decide_eq_true (by omega), Bool.true_and, Nat.testBit_mul_two_pow,
        decide_eq_true (by omega), Bool.true_and]
      congr 1
      omega
    rw [countBits, hbit, Nat.mod_pow_succ, ← Nat.toNat_testBit]
    cases hset : x.testBit i with
    | false =>
      rw [if_neg Bool.false_ne_true, Bool.toNat_false, mul_zero, add_zero, ← ih (by omega), hpow,
        ← mul_assoc]
      congr 1
      apply BitVec.eq_of_toNat_eq
      rw [BitVec.toNat_shiftLeft, BitVec.toNat_ofNat, BitVec.toNat_ofNat, Nat.shiftLeft_eq, pow_one,
        Nat.mod_mul_mod]
    | true =>
      have hlt : x % 2 ^ i < 2 ^ i := Nat.mod_lt _ (Nat.two_pow_pos _)
      rw [if_pos rfl, Bool.toNat_true, mul_one]
      refine (le_antisymm (Nat.size_le.mpr ?_) (Nat.lt_size.mpr (Nat.le_add_left ..))).symm
      rw [pow_succ]
      omega

/-- The number of bits that both scores see of a position or a distance. -/
def bits (x : UInt32) : ℕ := (x.toNat % 2 ^ 16).size

theorem bits_le (x : UInt32) : bits x ≤ 16 := Nat.size_le.mpr (Nat.mod_lt _ (Nat.two_pow_pos _))

theorem bits_of_lt {x : UInt32} (h : x.toNat < 2 ^ 16) : bits x = x.toNat.size := by
  rw [bits, Nat.mod_eq_of_lt h]

/-- Both scores start from a position or a distance that is shifted by 16 bits. -/
theorem countBits_shiftLeft (t : BitVec width) (hwidth : 32 ≤ width) :
    countBits 16 (t <<< 16) = (t.toNat % 2 ^ 16).size := by
  have hshift : t <<< 16 = BitVec.ofNat width (t.toNat * 2 ^ (32 - 16)) := by
    apply BitVec.eq_of_toNat_eq
    rw [BitVec.toNat_shiftLeft, BitVec.toNat_ofNat, Nat.shiftLeft_eq]
  rw [hshift, countBits_eq hwidth le_rfl]

def AndOperator.score (sum : UInt32) (m : Match) : UInt32 :=
  sum / UInt32.ofNat (countBits 16 ((m.e.wc - m.s.wc).toBitVec <<< 16) + 1)

structure Scorer where
  s : UInt32
  sDn : Int64
  sSqrt : UInt32

namespace Scorer

/-- The constructor for a word with `max` postings. It does not set the square root. -/
def construct (max : UInt32) (garbage : UInt32) : Scorer :=
  ⟨if max > 0 then ((-1 : Int64) / max.toUInt64.toInt64).toUInt64.toUInt32 else 0, 0, garbage⟩

/-- The square root is only computed for another document. -/
def root (sqrt : Int64 → UInt32) (w : Scorer) (dn : Int64) : Scorer :=
  if w.sDn ≠ dn then { w with sDn := dn, sSqrt := sqrt dn } else w

def scaleTags (wc : UInt32) : List UInt32 → UInt32 → UInt32 → UInt32
  | [], _, s => s
  | multi :: tags, mask, s => scaleTags wc tags (mask >>> 1) (if mask &&& wc ≠ 0 then s * multi else s)

/-- Word::score. An int that is divided by an unsigned is taken as one. -/
def score (sqrt : Int64 → UInt32) (tagmask : UInt32) (tags : List UInt32) (w : Scorer) (p : PostIt) : Scorer × UInt32 :=
  let s := w.s.toInt32 / Int32.ofNat (countBits 16 ((tagmask &&& p.wc).toUInt64.toBitVec <<< 16) + 1)
  let w := w.root sqrt p.dn
  (w, scaleTags p.wc tags (1 <<< UInt32.ofNat (32 - tags.length)) (s.toUInt32 / w.sSqrt))

/-- The square root that is kept belongs to the document. Document numbers are not 0. -/
def Consistent (sqrt : Int64 → UInt32) (w : Scorer) : Prop := w.sDn ≠ 0 → w.sSqrt = sqrt w.sDn

variable {w : Scorer} {p : PostIt}

theorem consistent_construct (max garbage : UInt32) : Consistent sqrt (construct max garbage) := fun h => absurd rfl h

theorem root_sSqrt (h : w.Consistent sqrt) (hdn : p.dn ≠ 0) : (w.root sqrt p.dn).sSqrt = sqrt p.dn := by
  rw [root]
  split_ifs with hne
  · rfl
  · rw [not_not] at hne
    rw [h (hne ▸ hdn), hne]

/-- The weight over the number of bits of the position, with the weight as an int. -/
def scaled (s : UInt32) (i : ℕ) : UInt32 := (s.toInt32 / Int32.ofNat (i + 1)).toUInt32

theorem score_eq (h : w.Consistent sqrt) (hdn : p.dn ≠ 0) :
    (w.score sqrt allTags [] p).2 = scaled w.s (bits p.wc) / sqrt p.dn := by
  have hnat : p.wc.toUInt64.toBitVec.toNat = p.wc.toNat := by simp
  have hbits : countBits 16 (p.wc.toUInt64.toBitVec <<< 16) = bits p.wc := by
    rw [countBits_shiftLeft _ (by decide), hnat, bits]
  rw [score, UInt32.and_comm, and_allTags, hbits]
  dsimp only
  rw [root_sSqrt h hdn, scaleTags, scaled]

theorem size_le (h : p.wc.toNat < 2 ^ 16) : p.wc.toNat.size ≤ 16 := Nat.size_le.mpr h

theorem toNat_scaled {s : UInt32} (hs : s.toNat < 2 ^ 31) (hi : i ≤ 16) : (scaled s i).toNat = s.toNat / (i + 1) := by
  have hsmall : (BitVec.ofNat 32 (i + 1)).toNat = i + 1 := by
    rw [BitVec.toNat_ofNat]
    omega
  have hmsb : (BitVec.ofNat 32 (i + 1)).msb = false := by
    rw [BitVec.msb_eq_false_iff_two_mul_lt, hsmall]
    omega
  have hmsb' : s.toBitVec.msb = false := by
    rw [BitVec.msb_eq_false_iff_two_mul_lt]
    change 2 * s.toNat < _
    omega
  change (BitVec.sdiv s.toBitVec (BitVec.ofNat 32 (i + 1))).toNat = _
  rw [BitVec.sdiv_eq, hmsb, hmsb']
  change (s.toBitVec.udiv (BitVec.ofNat 32 (i + 1))).toNat = _
  rw [BitVec.udiv_eq, BitVec.toNat_udiv, hsmall]
  rfl

/-- The weight of a word with one posting is the int -1. -/
theorem scaled_last : ∀ i ≤ 16, scaled 4294967295 i = if i = 0 then 4294967295 else 0 := by decide

/-- A weight that is not negative as an int, or the one of a word with one posting. -/
def Weight (s : UInt32) : Prop := s.toNat < 2 ^ 31 ∨ s = 4294967295

theorem scaled_antitone {s : UInt32} (hs : Weight s) (hij : i ≤ j) (hj : j ≤ 16) :
    scaled s j ≤ scaled s i := by
  rcases hs with hs | rfl
  · rw [UInt32.le_iff_toNat_le, toNat_scaled hs hj, toNat_scaled hs (hij.trans hj)]
    exact Nat.div_le_div_left (by omega) (by omega)
  · rw [scaled_last j hj, scaled_last i (hij.trans hj)]
    by_cases hi : i = 0
    · rw [if_pos hi]
      split_ifs <;> decide
    · rw [if_neg hi, if_neg (by omega)]
      exact UInt32.le_refl 0

/-- Half of a negative weight is greater. -/
theorem scaled_one_gt {s : UInt32} (hs : ¬Weight s) : scaled s 0 < scaled s 1 := by
  obtain ⟨hneg, hlast⟩ := not_or.mp hs
  have hlt := s.toNat_lt
  have hne : s.toNat ≠ 4294967295 := fun h => hlast (UInt32.toNat_inj.mp h)
  have hmsb : s.toBitVec.msb = true := by
    rw [BitVec.msb_eq_true_iff_two_mul_ge]
    change _ ≤ 2 * s.toNat
    omega
  have hscaled : ∀ i ≤ 1, (scaled s i).toNat = 2 ^ 32 - (2 ^ 32 - s.toNat) / (i + 1) := by
    intro i hi
    have hsmall : (BitVec.ofNat 32 (i + 1)).toNat = i + 1 := by
      rw [BitVec.toNat_ofNat]
      omega
    have hmsb' : (BitVec.ofNat 32 (i + 1)).msb = false := by
      rw [BitVec.msb_eq_false_iff_two_mul_lt, hsmall]
      omega
    change (BitVec.sdiv s.toBitVec (BitVec.ofNat 32 (i + 1))).toNat = _
    rw [BitVec.sdiv_eq, hmsb, hmsb']
    change (-((-s.toBitVec).udiv (BitVec.ofNat 32 (i + 1)))).toNat = _
    rw [BitVec.toNat_neg, BitVec.udiv_eq, BitVec.toNat_udiv, hsmall, BitVec.toNat_neg]
    change (2 ^ 32 - (2 ^ 32 - s.toNat) % 2 ^ 32 / (i + 1)) % 2 ^ 32 = _
    rw [Nat.mod_eq_of_lt (show 2 ^ 32 - s.toNat < 2 ^ 32 by omega)]
    obtain rfl | rfl : i = 0 ∨ i = 1 := by omega
    · omega
    · omega
  rw [UInt32.lt_iff_toNat_lt, hscaled 0 (by omega), hscaled 1 le_rfl]
  omega

theorem div_le_div (h : a ≤ b) (c : UInt32) : a / c ≤ b / c := by
  rw [UInt32.le_iff_toNat_le] at h ⊢
  rw [UInt32.toNat_div, UInt32.toNat_div]
  exact Nat.div_le_div_right h

/-- (DID)-1/_max is -1 or 0. -/
theorem construct_s {max : UInt32} (hmax : 0 < max) (garbage : UInt32) :
    (construct max garbage).s = if max = 1 then 4294967295 else 0 := by
  rw [construct, if_pos hmax]
  split_ifs with hone
  · subst hone
    rfl
  · have hnat : max.toUInt64.toBitVec.toNat = max.toNat := by simp
    have hmsb : max.toUInt64.toBitVec.msb = false := by
      have := max.toNat_lt
      rw [BitVec.msb_eq_false_iff_two_mul_lt, hnat]
      omega
    have htwo : 1 < max.toNat := by
      have hne : max.toNat ≠ 1 := fun h => hone (UInt32.toNat_inj.mp h)
      have hpos := UInt32.lt_iff_toNat_lt.mp hmax
      change 0 < max.toNat at hpos
      omega
    have hzero : (1#64).udiv max.toUInt64.toBitVec = 0 := by
      apply BitVec.eq_of_toNat_eq
      rw [BitVec.udiv_eq, BitVec.toNat_udiv, hnat]
      exact Nat.div_eq_of_lt htwo
    have hdiv : (-1 : Int64) / max.toUInt64.toInt64 = 0 := by
      apply Int64.toBitVec_inj.mp
      change BitVec.sdiv (-1#64) max.toUInt64.toBitVec = 0
      rw [BitVec.sdiv_eq, hmsb]
      change -((1#64).udiv max.toUInt64.toBitVec) = 0
      rw [hzero]
      rfl
    dsimp only
    rw [hdiv]
    rfl

end Scorer

open Scorer UInt32

/-- The score of a word with the weight `s` is not greater at the position `wc'`, in every document. -/
def Falls (sqrt : Int64 → UInt32) (s wc wc' : UInt32) : Prop :=
  ∀ w : Scorer, w.Consistent sqrt → w.s = s → ∀ dn ≠ 0,
    (w.score sqrt allTags [] ⟨dn, wc'⟩).2 ≤ (w.score sqrt allTags [] ⟨dn, wc⟩).2

theorem score_first (hsqrt : sqrt 1 = 1) (s wc : UInt32) :
    (Scorer.score sqrt allTags [] ⟨s, 0, 0⟩ ⟨1, wc⟩).2 = scaled s (bits wc) := by
  rw [score_eq (fun h => absurd rfl h) (show (1 : Int64) ≠ 0 by decide), hsqrt, UInt32.div_one]

/-- Of two numbers of bits, the sum that shows which one is greater. -/
theorem div_lt_of_lt (h : j < i) : (i + 1) * (j + 1) / (i + 1) < (i + 1) * (j + 1) / (j + 1) := by
  rw [Nat.mul_div_cancel_left _ i.succ_pos, Nat.mul_div_cancel _ j.succ_pos]
  omega

theorem toNat_product (hi : i ≤ 16) (hj : j ≤ 16) : (ofNat ((i + 1) * (j + 1))).toNat = (i + 1) * (j + 1) := by
  have hle : (i + 1) * (j + 1) ≤ 17 * 17 := Nat.mul_le_mul (by omega) (by omega)
  rw [toNat_ofNat', Nat.mod_eq_of_lt (by omega)]

theorem andScore_toNat (sum : UInt32) (m : Match) :
    (AndOperator.score sum m).toNat = sum.toNat / (bits (m.e.wc - m.s.wc) + 1) := by
  have hbits : countBits 16 ((m.e.wc - m.s.wc).toBitVec <<< 16) = bits (m.e.wc - m.s.wc) :=
    countBits_shiftLeft _ le_rfl
  have hle := bits_le (m.e.wc - m.s.wc)
  rw [AndOperator.score, hbits, UInt32.toNat_div, toNat_ofNat', Nat.mod_eq_of_lt (by omega)]

/-- Which distances and positions do not score higher than smaller ones: those that have at least
as many bits as these in their lower half. The weight must not be negative as an int, except for
the one of a word with one posting. -/
theorem scores_fall (sqrt : Int64 → UInt32) (hsqrt : sqrt 1 = 1) :
    (∀ m m' : Match, m.e.wc - m.s.wc ≤ m'.e.wc - m'.s.wc →
      ((∀ sum, AndOperator.score sum m' ≤ AndOperator.score sum m) ↔
        bits (m.e.wc - m.s.wc) ≤ bits (m'.e.wc - m'.s.wc))) ∧
    (∀ wc wc' : UInt32, wc ≤ wc' →
      ((∀ s, Weight s → Falls sqrt s wc wc') ↔ bits wc ≤ bits wc')) ∧
    ∀ s, (∀ wc wc' : UInt32, wc ≤ wc' → bits wc ≤ bits wc' → Falls sqrt s wc wc') ↔ Weight s := by
  have hfalls : ∀ s wc wc', Weight s → bits wc ≤ bits wc' → Falls sqrt s wc wc' := by
    rintro s wc wc' hs hle w hw rfl dn hdn
    rw [score_eq hw hdn, score_eq hw hdn]
    exact div_le_div (scaled_antitone hs hle (bits_le wc')) _
  refine ⟨fun m m' _ => ⟨fun h => ?_, fun hle sum => ?_⟩, fun wc wc' _ => ⟨fun h => ?_, fun hle s hs =>
    hfalls s wc wc' hs hle⟩, fun s => ⟨fun h => ?_, fun hs wc wc' _ => hfalls s wc wc' hs⟩⟩
  · by_contra hlt
    have hsum := h (ofNat ((bits (m.e.wc - m.s.wc) + 1) * (bits (m'.e.wc - m'.s.wc) + 1)))
    rw [le_iff_toNat_le, andScore_toNat, andScore_toNat, toNat_product (bits_le _) (bits_le _)] at hsum
    exact absurd hsum (not_le.mpr (div_lt_of_lt (not_le.mp hlt)))
  · rw [le_iff_toNat_le, andScore_toNat, andScore_toNat]
    exact Nat.div_le_div_left (by omega) (Nat.succ_pos _)
  · by_contra hlt
    have hproduct := toNat_product (bits_le wc) (bits_le wc')
    have hsmall : (ofNat ((bits wc + 1) * (bits wc' + 1))).toNat < 2 ^ 31 := by
      have hle : (bits wc + 1) * (bits wc' + 1) ≤ 17 * 17 :=
        Nat.mul_le_mul (Nat.succ_le_succ (bits_le wc)) (Nat.succ_le_succ (bits_le wc'))
      omega
    generalize ofNat ((bits wc + 1) * (bits wc' + 1)) = s at hproduct hsmall
    have hword := h s (.inl hsmall) ⟨s, 0, 0⟩ (fun h => absurd rfl h) rfl 1 (by decide)
    rw [score_first hsqrt, score_first hsqrt, le_iff_toNat_le, toNat_scaled hsmall (bits_le _),
      toNat_scaled hsmall (bits_le _), hproduct] at hword
    exact absurd hword (not_le.mpr (div_lt_of_lt (not_le.mp hlt)))
  · by_contra hs
    have hzero : bits 0 = 0 := by decide
    have hone : bits 1 = 1 := by decide
    have hword := h 0 1 (by decide) (by rw [hzero]; exact Nat.zero_le _) ⟨s, 0, 0⟩
      (fun h => absurd rfl h) rfl 1 (by decide)
    rw [score_first hsqrt, score_first hsqrt, hzero, hone] at hword
    exact absurd (scaled_one_gt hs) (UInt32.not_lt.mpr hword)

def natSqrt (dn : Int64) : UInt32 := ofNat dn.toNatClampNeg.sqrt

/-- The distances 1 and 7, and the positions 2 and 65545, of which 9 is seen. -/
theorem scores_fall_near :
    AndOperator.score 100 ⟨⟨1, 2⟩, ⟨1, 9⟩⟩ ≤ AndOperator.score 100 ⟨⟨1, 2⟩, ⟨1, 3⟩⟩ ∧
      (Scorer.score natSqrt allTags [] ⟨100, 0, 0⟩ ⟨4, 65545⟩).2 ≤
        (Scorer.score natSqrt allTags [] ⟨100, 0, 0⟩ ⟨4, 2⟩).2 := by
  obtain ⟨hand, hword, -⟩ := scores_fall natSqrt (by decide)
  exact ⟨(hand ⟨⟨1, 2⟩, ⟨1, 3⟩⟩ ⟨⟨1, 2⟩, ⟨1, 9⟩⟩ (by decide)).mpr (by decide) 100,
    (hword 2 65545 (by decide)).mpr (by decide) 100 (.inl (by decide)) ⟨100, 0, 0⟩
      (fun h => absurd rfl h) rfl 4 (by decide)⟩

/-- A distance or a position of `2^16` counts as one of 0 bits, and the weight of half of all
numbers as a negative one. -/
theorem scores_rise :
    AndOperator.score 100 ⟨⟨1, 0⟩, ⟨1, 1⟩⟩ < AndOperator.score 100 ⟨⟨1, 0⟩, ⟨1, 65536⟩⟩ ∧
      (Scorer.score natSqrt allTags [] ⟨100, 0, 0⟩ ⟨1, 1⟩).2 < (Scorer.score natSqrt allTags [] ⟨100, 0, 0⟩ ⟨1, 65536⟩).2 ∧
      (Scorer.score natSqrt allTags [] ⟨4294967290, 0, 0⟩ ⟨1, 0⟩).2 <
        (Scorer.score natSqrt allTags [] ⟨4294967290, 0, 0⟩ ⟨1, 1⟩).2 := by
  decide

/-- A weighted word: positive only with one posting, at the beginning of a document; and it
does not grow with the number of postings. -/
theorem rarity_score (sqrt : Int64 → UInt32) (garbage n : UInt32) (hn : 1 ≤ n) (p : PostIt) (hdn : 0 < p.dn)
    (hroot : sqrt p.dn ≠ 0) (hwc : p.wc.toNat < 2 ^ 16) :
    (0 < ((construct n garbage).score sqrt allTags [] p).2 ↔ n = 1 ∧ p.wc = 0) ∧
      ∀ n' ≥ n, ((construct n' garbage).score sqrt allTags [] p).2 ≤ ((construct n garbage).score sqrt allTags [] p).2 := by
  have hne : p.dn ≠ 0 := (Int64.ne_of_lt hdn).symm
  have hpos : ∀ n' ≥ n, (0 : UInt32) < n' := fun n' hn' => UInt32.lt_of_lt_of_le (by decide) (UInt32.le_trans hn hn')
  have hscore : ∀ n' ≥ n, ((construct n' garbage).score sqrt allTags [] p).2 =
      scaled (if n' = 1 then 4294967295 else 0) p.wc.toNat.size / sqrt p.dn := fun n' hn' => by
    rw [score_eq (consistent_construct n' garbage) hne, bits_of_lt hwc, construct_s (hpos n' hn')]
  have hzero : scaled 0 p.wc.toNat.size = 0 := UInt32.toNat_inj.mp (by rw [toNat_scaled (by decide) (size_le hwc)]; simp)
  have hnone : (0 : UInt32) / sqrt p.dn = 0 := UInt32.zero_div
  constructor
  · rw [hscore n (UInt32.le_refl n)]
    by_cases hone : n = 1
    · rw [if_pos hone, scaled_last _ (size_le hwc), and_iff_right hone]
      by_cases hwc0 : p.wc = 0
      · rw [hwc0, if_pos (show (0 : UInt32).toNat.size = 0 from Nat.size_zero), lt_iff_toNat_lt, UInt32.toNat_div]
        refine iff_of_true (Nat.div_pos (Nat.lt_succ_iff.mp (sqrt p.dn).toNat_lt) (Nat.pos_of_ne_zero fun h => ?_)) rfl
        exact hroot (UInt32.toNat_inj.mp h)
      · rw [if_neg fun h => hwc0 (UInt32.toNat_inj.mp (Nat.size_eq_zero.mp h)), hnone]
        exact iff_of_false (by decide) hwc0
    · rw [if_neg hone, hzero, hnone]
      exact iff_of_false (by decide) fun h => hone h.1
  · intro n' hn'
    rw [hscore n' hn', hscore n (UInt32.le_refl n)]
    by_cases hone : n' = 1
    · obtain rfl : n = 1 := UInt32.le_antisymm (hone ▸ hn') hn
      rw [hone]
      exact UInt32.le_refl _
    · rw [if_neg hone, hzero, hnone, UInt32.le_iff_toNat_le]
      exact Nat.zero_le _

theorem rarity_score_once :
    (0 < ((construct 1 0).score natSqrt allTags [] ⟨1, 0⟩).2 ↔ (1 : UInt32) = 1 ∧ (0 : UInt32) = 0) ∧
      ∀ n' ≥ 1, ((construct n' 0).score natSqrt allTags [] ⟨1, 0⟩).2 ≤ ((construct 1 0).score natSqrt allTags [] ⟨1, 0⟩).2 :=
  rarity_score natSqrt 0 1 (by decide) ⟨1, 0⟩ (by decide) (by decide) (by decide)

/-- A word with two postings has the score 0 everywhere, also at the beginning of the first
document. -/
theorem rarity_score_twice :
    2 * (1 + (0 : UInt32).toNat.size) * Nat.sqrt 1 ≤ 2 ^ 31 - 1 ∧ ((construct 2 0).score natSqrt allTags [] ⟨1, 0⟩).2 = 0 := by
  decide

end Mosbench.Psearchy
