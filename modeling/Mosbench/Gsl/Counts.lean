import Mathlib.Tactic.IntervalCases
import Mosbench.Lib.Lanes

/-!
The packed lock counts of lc-int128-impl.h. A 128-bit word has eight lanes of
sixteen bits, one for each lock mode: fifteen bits of active count and, on
top, the mode's wait bit. `counts a w` is the word with active counts `a` and
wait bits `w`; every operation of the header is described on such words.
-/
namespace Mosbench.Gsl

open BitVec List Lanes Function

abbrev Mode := Fin 8

instance neZero_8 : NeZero 8 := ⟨by decide⟩

abbrev LockCounts := BitVec 128

def lcBitsPerMode : ℕ := 16

def lcActiveMask : LockCounts := 0x7FFF#128

def lcWaitMask : LockCounts := 0x8000#128

/-- `conflictTable_t`: the masks, indexed by active, waiting and mode. -/
structure ConflictTable where
  bits : Bool → Bool → Mode → LockCounts

/-- One row of `lcInitConflictTable`: bit 0 of the lane of each conflicting mode. -/
def conflictRow (conflicts : List (BitVec 32)) (i : Mode) : LockCounts :=
  if i.val < conflicts.length then
    (List.range conflicts.length).foldl (fun bits j =>
        if (conflicts.getD i.val 0).getLsbD j then
          bits ||| 1#128 <<< (j * lcBitsPerMode)
        else bits) 0#128
  else 0#128

def lcInitConflictTable (conflicts : List (BitVec 32)) : ConflictTable where
  bits active waiting i :=
    conflictRow conflicts i *
      ((if active then lcActiveMask else 0#128) ||| (if waiting then lcWaitMask else 0#128))

def lcActive (mode : Mode) : LockCounts := 1#128 <<< (lcBitsPerMode * mode.val)

def lcSetWait (c : LockCounts) (mode : Mode) (wait : Bool) : LockCounts :=
  let bit := lcWaitMask <<< (lcBitsPerMode * mode.val)
  if wait then c ||| bit else c &&& ~~~bit

def lcAdd (a b : LockCounts) : LockCounts := a + b

def lcSubtract (a b : LockCounts) : LockCounts := a - b

def lcNonZero (c : LockCounts) : Bool := c != 0#128

def lcZero (c : LockCounts) : Bool := c == 0#128

def lcGetActive (c : LockCounts) (mode : Mode) : ℕ :=
  ((c >>> (lcBitsPerMode * mode.val)) &&& lcActiveMask).toNat

def lcConflictMask (conflicts : ConflictTable) (mode : Mode) (active waiting : Bool) :
    LockCounts :=
  conflicts.bits active waiting mode

def lcAnd (a b : LockCounts) : LockCounts := a &&& b

def lcOr (a b : LockCounts) : LockCounts := a ||| b

def lcMaskSet : LockCounts := BitVec.allOnes 128

/-- The relation a conflict array describes: both modes are in the array and
bit `n` of row `m` is set. -/
def Conflicts (conflicts : List (BitVec 32)) (m n : Mode) : Prop :=
  m.val < conflicts.length ∧ n.val < conflicts.length ∧
    (conflicts.getD m.val 0).getLsbD n.val = true

instance (conflicts : List (BitVec 32)) (m n : Mode) : Decidable (Conflicts conflicts m n) :=
  inferInstanceAs (Decidable (_ ∧ _ ∧ _))

structure Symmetric (conflicts : List (BitVec 32)) : Prop where
  length_le : conflicts.length ≤ 8
  symm : ∀ m n, Conflicts conflicts m n → Conflicts conflicts n m

instance (conflicts : List (BitVec 32)) : Decidable (Symmetric conflicts) :=
  decidable_of_iff (conflicts.length ≤ 8 ∧ ∀ m n, Conflicts conflicts m n → Conflicts conflicts n m)
    ⟨fun h => ⟨h.1, h.2⟩, fun h => ⟨h.length_le, h.symm⟩⟩

def lane (a : Mode → ℕ) (w : Mode → Bool) (m : Mode) : ℕ := a m + if w m then 2 ^ 15 else 0

def counts (a : Mode → ℕ) (w : Mode → Bool) : LockCounts :=
  BitVec.ofNat 128 (pack 16 (lane a w))

def waitBit (c : LockCounts) (m : Mode) : Bool := c.getLsbD (lcBitsPerMode * m.val + 15)

def InRange (a : Mode → ℕ) : Prop := ∀ m, a m < 2 ^ 15

variable (a : Mode → ℕ) (w : Mode → Bool) (m : Mode) (j : ℕ) (b : Mode → ℕ) (h : Mode → Bool)
  (conflicts : List (BitVec 32))

theorem lane_lt (ha : InRange a) (m : Mode) : lane a w m < 2 ^ 16 := by
  have h := ha m
  unfold lane
  split <;> omega

theorem getLsbD_ofNat_pack (v : Mode → ℕ) (hv : ∀ m, v m < 2 ^ 16) (m : Mode) (j : ℕ)
    (hj : j < 16) : (BitVec.ofNat 128 (pack 16 v)).getLsbD (16 * m.val + j) = (v m).testBit j := by
  have hm := m.isLt
  rw [getLsbD_ofNat, testBit_pack 16 v hv m j hj]
  simp only [Bool.and_eq_right_iff_imp, decide_eq_true_eq]
  omega

theorem eq_of_lanes {x : LockCounts} (h : ∀ (m : Mode) (j : ℕ), j < 16 →
      x.getLsbD (16 * m.val + j) = y.getLsbD (16 * m.val + j)) : x = y := by
  apply eq_of_getLsbD_eq
  intro i hi
  have hm : i / 16 < 8 := by omega
  have hsplit : 16 * (i / 16) + i % 16 = i := Nat.div_add_mod i 16
  have hbit := h ⟨i / 16, hm⟩ (i % 16) (Nat.mod_lt _ (by omega))
  simpa only [hsplit] using hbit

theorem testBit_lane (ha : InRange a) (m : Mode) (j : ℕ)
    (hj : j < 16) : (lane a w m).testBit j = if j = 15 then w m else (a m).testBit j := by
  have hlt := ha m
  have hlow : (a m).testBit 15 = false := Nat.testBit_lt_two_pow hlt
  unfold lane
  cases hw : w m with
  | false =>
    by_cases hj15 : j = 15
    · simp [hj15, hlow]
    · simp [hj15]
  | true =>
    have hform : a m + 2 ^ 15 = 2 ^ 15 * 1 + a m := by omega
    simp only [if_true]
    rw [hform, Nat.testBit_two_pow_mul_add _ hlt]
    by_cases hj15 : j = 15
    · simp [hj15]
    · simp [hj15, show j < 15 by omega]

theorem getLsbD_counts (ha : InRange a) (m : Mode) (j : ℕ) (hj : j < 16) :
    (counts a w).getLsbD (16 * m.val + j) = if j = 15 then w m else (a m).testBit j := by
  rw [counts, getLsbD_ofNat_pack _ (lane_lt a w ha) m j hj, testBit_lane a w ha m j hj]

theorem getLsbD_shift (n : Mode) (j : ℕ) (hj : j < 16) (x : ℕ) (hx : x < 2 ^ 16) :
    (BitVec.ofNat 128 x <<< (16 * m.val)).getLsbD (16 * n.val + j) =
      if n = m then x.testBit j else false := by
  have hpack : (BitVec.ofNat 128 x <<< (16 * m.val)) =
      BitVec.ofNat 128 (pack 16 fun k => if k = m then x else 0) := by
    apply eq_of_toNat_eq
    rw [pack_single, toNat_shiftLeft, toNat_ofNat, toNat_ofNat, Nat.shiftLeft_eq, Nat.mod_mul_mod]
  rw [hpack, getLsbD_ofNat_pack _ (fun k => by split <;> omega) n j hj]
  split <;> simp

theorem lcActive_eq : lcActive m = BitVec.ofNat 128 (pack 16 fun k => if k = m then 1 else 0) := by
  apply eq_of_toNat_eq
  rw [pack_single, lcActive, toNat_shiftLeft, toNat_ofNat, toNat_ofNat,
    Nat.shiftLeft_eq, lcBitsPerMode, Nat.mod_mul_mod]

theorem lcAdd_counts (w v : Mode → Bool) (hwait : ∀ m, ¬ (w m = true ∧ v m = true)) :
    lcAdd (counts a w) (counts b v) = counts (fun m => a m + b m) fun m => w m || v m := by
  rw [lcAdd, counts, counts, counts, ← ofNat_add, ← pack_add]
  congr 2
  funext m
  simp only [lane, Bool.or_eq_true]
  by_cases hw : w m = true <;> by_cases hv : v m = true
  · exact absurd ⟨hw, hv⟩ (hwait m)
  · rw [if_pos hw, if_neg hv, if_pos (Or.inl hw)]
    omega
  · rw [if_neg hw, if_pos hv, if_pos (Or.inr hv)]
    omega
  · rw [if_neg hw, if_neg hv, if_neg (by simp [hw, hv])]
    omega

theorem counts_single : lcActive m = counts (fun k => if k = m then 1 else 0) fun _ => false := by
  rw [lcActive_eq, counts]
  congr 2

theorem lcAdd_active : lcAdd (counts a w) (lcActive m) = counts (update a m (a m + 1)) w := by
  rw [counts_single, lcAdd_counts a _ w _ (by simp)]
  congr 1
  · funext k
    by_cases hk : k = m
    · subst k
      simp
    · simp [hk]
  · funext k
    exact Bool.or_false _

theorem lcSubtract_words (w v : Mode → Bool) (hle : ∀ m, b m ≤ a m)
    (hwait : ∀ m, v m = true → w m = true) :
    lcSubtract (counts a w) (counts b v) = counts (fun m => a m - b m) fun m => w m && !v m := by
  have hsum : counts a w = lcAdd (counts (fun m => a m - b m) fun m => w m && !v m) (counts b v) := by
    rw [lcAdd_counts]
    · congr 1
      · funext m
        exact (Nat.sub_add_cancel (hle m)).symm
      · funext m
        have h := hwait m
        cases hw : w m <;> cases hv : v m <;> simp_all
    · intro m
      simp
  rw [lcSubtract, hsum, lcAdd, add_sub_cancel]

theorem lcSubtract_counts (w : Mode → Bool) (hle : ∀ m, b m ≤ a m) :
    lcSubtract (counts a w) (counts b fun _ => false) = counts (fun m => a m - b m) w := by
  rw [lcSubtract_words a b w _ hle (by simp)]
  congr 1
  funext m
  exact Bool.and_true _

theorem lcSubtract_active (hm : 1 ≤ a m) :
    lcSubtract (counts a w) (lcActive m) = counts (update a m (a m - 1)) w := by
  rw [counts_single, lcSubtract_counts a _ w]
  · congr 1
    funext k
    by_cases hk : k = m
    · subst k
      simp
    · simp [hk]
  · intro k
    split
    · subst k
      exact hm
    · exact Nat.zero_le _

theorem lcWaitMask_testBit : (32768 : ℕ).testBit j = decide (j = 15) := by
  rw [show (32768 : ℕ) = 2 ^ 15 from rfl, Nat.testBit_two_pow]
  exact decide_eq_decide.mpr eq_comm

theorem getLsbD_waitBit (n : Mode) (j : ℕ) (hj : j < 16) :
    (lcWaitMask <<< (lcBitsPerMode * m.val)).getLsbD (16 * n.val + j) =
      (decide (n = m) && decide (j = 15)) := by
  have h := getLsbD_shift m n j hj 32768 (by omega)
  rw [lcWaitMask_testBit] at h
  rw [lcWaitMask, lcBitsPerMode]
  refine h.trans ?_
  by_cases hn : n = m <;> simp [hn]

theorem lcOr_setWait (ha : InRange a) (m : Mode) :
    lcOr (counts a w) (lcSetWait 0#128 m true) = counts a (update w m true) := by
  apply eq_of_lanes
  intro n j hj
  rw [lcOr, lcSetWait, if_pos rfl, getLsbD_or, getLsbD_or, getLsbD_waitBit m n j hj,
    getLsbD_counts a w ha n j hj, getLsbD_counts a _ ha n j hj, getLsbD_zero]
  by_cases hn : n = m
  · subst n
    by_cases hj15 : j = 15 <;> simp [hj15]
  · by_cases hj15 : j = 15 <;> simp [hj15, hn]

theorem lcAnd_clearWait (ha : InRange a) (m : Mode) :
    lcAnd (counts a w) (lcSetWait lcMaskSet m false) = counts a (update w m false) := by
  apply eq_of_lanes
  intro n j hj
  have hn8 := n.isLt
  rw [lcAnd, lcSetWait, if_neg (by simp), lcMaskSet, getLsbD_and, getLsbD_and,
    getLsbD_not, getLsbD_waitBit m n j hj, getLsbD_counts a w ha n j hj,
    getLsbD_counts a _ ha n j hj, getLsbD_allOnes]
  have hlt : 16 * n.val + j < 128 := by omega
  by_cases hn : n = m
  · subst n
    by_cases hj15 : j = 15 <;> simp [hj15, hlt]
  · by_cases hj15 : j = 15
    · subst hj15
      simp [hlt, hn]
    · simp [hj15, hlt, hn]

theorem waitBit_counts (ha : InRange a) (m : Mode) : waitBit (counts a w) m = w m := by
  rw [waitBit, lcBitsPerMode, getLsbD_counts a w ha m 15 (by omega), if_pos rfl]

theorem lcAnd_maskSet (c : LockCounts) : lcAnd c lcMaskSet = c := by
  rw [lcAnd, lcMaskSet, and_allOnes]

theorem lcGetActive_counts (ha : InRange a) (m : Mode) : lcGetActive (counts a w) m = a m := by
  have hm := m.isLt
  have hlt := ha m
  apply Nat.eq_of_testBit_eq
  intro j
  rw [lcGetActive, testBit_toNat, getLsbD_and, getLsbD_ushiftRight, lcBitsPerMode]
  by_cases hj : j < 15
  · rw [getLsbD_counts a w ha m j (by omega), if_neg (by omega)]
    have hmask : lcActiveMask.getLsbD j = true := by
      interval_cases j <;> rfl
    rw [hmask, Bool.and_true]
  · have hmask : lcActiveMask.getLsbD j = false := by
      rw [lcActiveMask, getLsbD_ofNat]
      rw [Nat.testBit_lt_two_pow (Nat.lt_of_lt_of_le (by omega : 0x7FFF < 2 ^ 15)
        (Nat.pow_le_pow_right (by omega) (by omega : 15 ≤ j)))]
      simp
    rw [hmask, Bool.and_false]
    exact (Nat.testBit_lt_two_pow (Nat.lt_of_lt_of_le hlt
      (Nat.pow_le_pow_right (by omega) (by omega)))).symm

theorem counts_eq_zero_iff (ha : InRange a) : counts a w = 0#128 ↔ ∀ m, a m = 0 ∧ w m = false := by
  constructor
  · intro h m
    constructor
    · rw [← lcGetActive_counts a w ha m, h]
      simp [lcGetActive]
    · have hbit := getLsbD_counts a w ha m 15 (by omega)
      rw [h] at hbit
      simpa using hbit.symm
  · intro h
    have hlane : lane a w = fun _ => 0 := by
      funext m
      simp [lane, h m]
    simp [counts, hlane, pack]

def heldWord (h : Mode → Bool) : LockCounts := counts (fun m => (h m).toNat) fun _ => false

theorem inRange_toNat : InRange fun m => (h m).toNat := by
  intro m
  have hle := Bool.toNat_le (h m)
  change (h m).toNat < 2 ^ 15
  omega

theorem lcGetActive_heldWord (m : Mode) : lcGetActive (heldWord h) m = (h m).toNat :=
  lcGetActive_counts _ _ (inRange_toNat h) m

theorem lcAdd_heldWord (m : Mode) (hm : h m = false) :
    lcAdd (heldWord h) (lcActive m) = heldWord (update h m true) := by
  rw [heldWord, lcAdd_active, heldWord]
  congr 1
  funext k
  by_cases hk : k = m
  · subst k
    simp [hm]
  · simp [hk]

theorem lcSubtract_heldWord (m : Mode) (hm : h m = true) :
    lcSubtract (heldWord h) (lcActive m) = heldWord (update h m false) := by
  rw [heldWord, lcSubtract_active _ _ _ (by simp [hm]), heldWord]
  congr 1
  funext k
  by_cases hk : k = m
  · subst k
    simp [hm]
  · simp [hk]

theorem heldWord_none : heldWord (fun _ => false) = 0#128 := by
  rw [heldWord, counts_eq_zero_iff _ _ (inRange_toNat _)]
  simp

theorem getLsbD_conflictRow (hlen : conflicts.length ≤ 8) (i : Mode) (p : ℕ) :
    (conflictRow conflicts i).getLsbD p = true ↔
      ∃ n : Mode, Conflicts conflicts i n ∧ p = 16 * n.val := by
  have hfold : ∀ k ≤ conflicts.length, i.val < conflicts.length →
      (((List.range k).foldl (fun bits j =>
        if (conflicts.getD i.val 0).getLsbD j then bits ||| 1#128 <<< (j * lcBitsPerMode)
        else bits) 0#128).getLsbD p = true ↔
      ∃ n : Mode, n.val < k ∧ Conflicts conflicts i n ∧ p = 16 * n.val) := by
    intro k hk hi
    induction k with
    | zero => simp
    | succ k ih =>
      have hk8 : k < 8 := by omega
      have hbit : (1#128 <<< (k * lcBitsPerMode)).getLsbD p = decide (p = 16 * k) := by
        rw [getLsbD_shiftLeft, getLsbD_one, lcBitsPerMode]
        by_cases hp : p = 16 * k
        · subst p
          have hlt : k * 16 < 128 := by omega
          simp [Nat.mul_comm, hlt]
        · simp only [hp, decide_false]
          by_cases hlt : p < k * 16
          · simp [hlt]
          · simp [show p - k * 16 ≠ 0 by omega]
      rw [range_succ, foldl_append, foldl_cons, foldl_nil]
      split
      · next hset =>
        rw [getLsbD_or, Bool.or_eq_true, ih (by omega), hbit, decide_eq_true_eq]
        constructor
        · rintro (⟨n, hn, hc⟩ | hp)
          · exact ⟨n, by omega, hc⟩
          · exact ⟨⟨k, hk8⟩, Nat.lt_succ_self k, ⟨hi, hk, hset⟩, hp⟩
        · rintro ⟨n, hn, hc, hp⟩
          rcases Nat.lt_succ_iff_lt_or_eq.mp hn with hlt | heq
          · exact Or.inl ⟨n, hlt, hc, hp⟩
          · exact Or.inr (heq ▸ hp)
      · next hset =>
        rw [ih (by omega)]
        constructor
        · rintro ⟨n, hn, hc⟩
          exact ⟨n, by omega, hc⟩
        · rintro ⟨n, hn, hc, hp⟩
          rcases Nat.lt_succ_iff_lt_or_eq.mp hn with hlt | heq
          · exact ⟨n, hlt, hc, hp⟩
          · exact absurd (heq ▸ hc.2.2) hset
  unfold conflictRow
  split
  · next hi =>
    rw [hfold _ le_rfl hi]
    constructor
    · rintro ⟨n, -, hc⟩
      exact ⟨n, hc⟩
    · rintro ⟨n, hc⟩
      exact ⟨n, hc.1.2.1, hc⟩
  · next hi =>
    simp only [getLsbD_zero, Bool.false_eq_true, false_iff]
    rintro ⟨n, hc, -⟩
    exact hi hc.1

theorem conflictRow_eq (hlen : conflicts.length ≤ 8) (m : Mode) : conflictRow conflicts m =
      BitVec.ofNat 128 (pack 16 fun n => if Conflicts conflicts m n then 1 else 0) := by
  apply eq_of_lanes
  intro n j hj
  rw [getLsbD_ofNat_pack _ (fun k => by split <;> omega) n j hj, Bool.eq_iff_iff,
    getLsbD_conflictRow conflicts hlen]
  constructor
  · rintro ⟨k, hk, hp⟩
    have hn : n = k := Fin.ext (by omega)
    subst n
    obtain rfl : j = 0 := by omega
    simp [hk]
  · intro h
    split at h
    · next hc =>
      refine ⟨n, hc, ?_⟩
      cases j with
      | zero => rfl
      | succ j => simp [Nat.testBit_succ] at h
    · simp at h

def laneMask (active waiting : Bool) : ℕ :=
  (if active then 0x7FFF else 0) + if waiting then 0x8000 else 0

theorem lcConflictMask_eq (hlen : conflicts.length ≤ 8) (m : Mode) (active waiting : Bool) :
    lcConflictMask (lcInitConflictTable conflicts) m active waiting =
      BitVec.ofNat 128 (pack 16 fun n =>
        if Conflicts conflicts m n then laneMask active waiting else 0) := by
  have hfactor : ((if active then lcActiveMask else 0#128) |||
      (if waiting then lcWaitMask else 0#128)) = BitVec.ofNat 128 (laneMask active waiting) := by
    cases active <;> cases waiting <;> rfl
  rw [lcConflictMask, lcInitConflictTable]
  simp only
  rw [hfactor, conflictRow_eq conflicts hlen, ← ofNat_mul, pack, pack, Finset.sum_mul]
  congr 1
  apply Finset.sum_congr rfl
  intro n _
  split <;> ring

theorem testBit_laneMask (active waiting : Bool) (j : ℕ) (hj : j < 16) :
    (laneMask active waiting).testBit j = if j = 15 then waiting else active := by
  interval_cases j <;> cases active <;> cases waiting <;> rfl

theorem getLsbD_conflictMask (hlen : conflicts.length ≤ 8)
    (m n : Mode) (active waiting : Bool) (j : ℕ) (hj : j < 16) :
    (lcConflictMask (lcInitConflictTable conflicts) m active waiting).getLsbD (16 * n.val + j) =
      (decide (Conflicts conflicts m n) && if j = 15 then waiting else active) := by
  rw [lcConflictMask_eq conflicts hlen, getLsbD_ofNat_pack _ _ n j hj]
  · split
    · next hc => simp [hc, testBit_laneMask active waiting j hj]
    · next hc => simp [hc]
  · intro k
    split
    · cases active <;> cases waiting <;> simp [laneMask]
    · omega

theorem lcAnd_conflictMask (hlen : conflicts.length ≤ 8)
    (a : Mode → ℕ) (w : Mode → Bool) (ha : InRange a) (m : Mode) (active waiting : Bool) :
    lcZero (lcAnd (counts a w)
        (lcConflictMask (lcInitConflictTable conflicts) m active waiting)) = true ↔
      ∀ n, Conflicts conflicts m n →
        (active = true → a n = 0) ∧ (waiting = true → w n = false) := by
  rw [lcZero, beq_iff_eq, lcAnd]
  constructor
  · intro hzero n hn
    have hbit : ∀ j < 16, (((if j = 15 then w n else (a n).testBit j) &&
        if j = 15 then waiting else active) = false) := by
      intro j hj
      have h := congrArg (fun x => x.getLsbD (16 * n.val + j)) hzero
      simpa [getLsbD_counts a w ha n j hj, getLsbD_conflictMask conflicts hlen m n active
        waiting j hj, hn] using h
    constructor
    · intro hactive
      apply Nat.eq_of_testBit_eq
      intro j
      rw [Nat.zero_testBit]
      by_cases hj : j < 15
      · simpa [hactive, show j ≠ 15 by omega] using hbit j (by omega)
      · exact Nat.testBit_lt_two_pow (Nat.lt_of_lt_of_le (ha n)
          (Nat.pow_le_pow_right (by omega) (by omega)))
    · intro hwaiting
      simpa [hwaiting] using hbit 15 (by omega)
  · intro h
    apply eq_of_lanes
    intro n j hj
    rw [getLsbD_and, getLsbD_counts a w ha n j hj,
      getLsbD_conflictMask conflicts hlen m n active waiting j hj, getLsbD_zero]
    by_cases hn : Conflicts conflicts m n
    · obtain ⟨hact, hwait⟩ := h n hn
      by_cases hj15 : j = 15
      · cases waiting with
        | false => simp [hj15]
        | true => simp [hj15, hwait rfl]
      · cases active with
        | false => simp [hj15]
        | true => simp [hj15, hact rfl]
    · simp [hn]

end Mosbench.Gsl
