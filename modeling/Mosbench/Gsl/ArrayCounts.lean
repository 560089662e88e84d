import Mosbench.Gsl.Counts

/-!
The lock counts of lc-array.h, one count and one flag for each mode, and the packed word of lc-
int128-impl.h as an implementation of them: every lane holds the low fifteen bits of its mode's
count and, on top, its flag.
-/
namespace Mosbench.Gsl

open BitVec

structure LockArray where
  active : Mode → BitVec 32
  waiting : Mode → Bool

namespace LockArray

def lcZeroCounts : LockArray := ⟨fun _ => 0#32, fun _ => false⟩

def lcSet (c old new : LockArray) : Bool × LockArray :=
  if ∀ i, c.active i = old.active i ∧ c.waiting i = old.waiting i then (true, new) else (false, c)

def lcActive (mode : Mode) : LockArray :=
  { lcZeroCounts with active := Function.update lcZeroCounts.active mode 1#32 }

def lcSetWait (c : LockArray) (mode : Mode) (wait : Bool) : LockArray :=
  { c with waiting := Function.update c.waiting mode wait }

/-- Nothing where an assertion fails. -/
def lcAdd (a b : LockArray) : Option LockArray :=
  if ∀ i, ¬ (a.waiting i = true ∧ b.waiting i = true) then
    some ⟨fun i => a.active i + b.active i, fun i => a.waiting i || b.waiting i⟩
  else none

/-- Nothing where an assertion fails. -/
def lcSubtract (a b : LockArray) : Option LockArray :=
  if ∀ i, b.active i ≤ a.active i ∧ (b.waiting i = true → a.waiting i = true) then
    some ⟨fun i => a.active i - b.active i, fun i => a.waiting i && !b.waiting i⟩
  else none

def lcNonZero (c : LockArray) : Bool := (List.finRange 8).any fun i => c.active i != 0#32 || c.waiting i

def lcZero (c : LockArray) : Bool := !c.lcNonZero

def lcGetActive (c : LockArray) (mode : Mode) : ℤ := (c.active mode).toInt

/-- The rows of `conflicts` are read as they are, all eight bits of them; nothing where there is
no row. -/
def lcConflictMask (conflicts : List (BitVec 32)) (mode : Mode) (active waiting : Bool) : Option LockArray :=
  conflicts[mode.val]?.map fun row =>
    ⟨fun i => if row.getLsbD i.val && active then BitVec.allOnes 32 else 0#32,
      fun i => row.getLsbD i.val && waiting⟩

def lcAnd (a b : LockArray) : LockArray :=
  ⟨fun i => a.active i &&& b.active i, fun i => a.waiting i && b.waiting i⟩

def lcOr (a b : LockArray) : LockArray :=
  ⟨fun i => a.active i ||| b.active i, fun i => a.waiting i || b.waiting i⟩

def lcMaskSet : LockArray := ⟨fun _ => BitVec.allOnes 32, fun _ => true⟩

end LockArray

def lcSet (c old new : LockCounts) : Bool × LockCounts := if c = old then (true, new) else (false, c)

def Agrees (c : LockCounts) (s : LockArray) : Prop :=
  ∀ (m : Mode) (j : ℕ), j < 16 →
    c.getLsbD (16 * m.val + j) = if j = 15 then s.waiting m else (s.active m).getLsbD j

structure Refines (c : LockCounts) (s : LockArray) : Prop where
  agrees : Agrees c s
  inRange : InRange fun m => (s.active m).toNat

theorem agrees_counts (s : LockArray) (h : InRange fun m => (s.active m).toNat) :
    Agrees (counts (fun m => (s.active m).toNat) s.waiting) s := by
  intro m j hj
  rw [getLsbD_counts _ _ h m j hj, testBit_toNat]

theorem Agrees.eq (hc : Agrees c s) (hd : Agrees d s) : c = d :=
  eq_of_lanes fun m j hj => (hc m j hj).trans (hd m j hj).symm

theorem refines_iff :
    Refines c s ↔ (InRange fun m => (s.active m).toNat) ∧ c = counts (fun m => (s.active m).toNat) s.waiting := by
  constructor
  · intro h
    exact ⟨h.inRange, h.agrees.eq (agrees_counts s h.inRange)⟩
  · rintro ⟨hrange, rfl⟩
    exact ⟨agrees_counts s hrange, hrange⟩

theorem agrees_zero : Agrees 0#128 LockArray.lcZeroCounts := by
  intro m j hj
  simp [LockArray.lcZeroCounts]

theorem agrees_maskSet : Agrees lcMaskSet LockArray.lcMaskSet := by
  intro m j hj
  have hm := m.isLt
  rw [lcMaskSet, getLsbD_allOnes, LockArray.lcMaskSet]
  simp only [getLsbD_allOnes]
  rw [decide_eq_true (by omega : 16 * m.val + j < 128), decide_eq_true (by omega : j < 32), ite_self]

namespace Agrees

theorem and (hc : Agrees c s) (hd : Agrees d t) : Agrees (lcAnd c d) (s.lcAnd t) := by
  intro m j hj
  rw [lcAnd, getLsbD_and, hc m j hj, hd m j hj, LockArray.lcAnd]
  by_cases hj15 : j = 15
  · simp [hj15]
  · simp [hj15]

theorem or (hc : Agrees c s) (hd : Agrees d t) : Agrees (lcOr c d) (s.lcOr t) := by
  intro m j hj
  rw [lcOr, getLsbD_or, hc m j hj, hd m j hj, LockArray.lcOr]
  by_cases hj15 : j = 15
  · simp [hj15]
  · simp [hj15]

theorem setWait (hc : Agrees c s) (mode : Mode) (wait : Bool) :
    Agrees (lcSetWait c mode wait) (s.lcSetWait mode wait) := by
  intro m j hj
  have hm := m.isLt
  have hlt : 16 * m.val + j < 128 := by omega
  have hbit := getLsbD_waitBit mode m j hj
  have hrest : (lcSetWait c mode wait).getLsbD (16 * m.val + j) =
      if m = mode ∧ j = 15 then wait else c.getLsbD (16 * m.val + j) := by
    cases wait with
    | true =>
      rw [lcSetWait, if_pos rfl, getLsbD_or, hbit]
      by_cases h : m = mode ∧ j = 15
      · simp [h]
      · rw [if_neg h, ← Bool.decide_and, decide_eq_false h, Bool.or_false]
    | false =>
      rw [lcSetWait, if_neg (by simp), getLsbD_and, getLsbD_not, hbit]
      by_cases h : m = mode ∧ j = 15
      · simp [h]
      · rw [if_neg h, ← Bool.decide_and, decide_eq_false h, decide_eq_true hlt]
        simp
  rw [hrest, hc m j hj, LockArray.lcSetWait]
  by_cases hmode : m = mode
  · subst hmode
    by_cases hj15 : j = 15
    · simp [hj15]
    · simp [hj15]
  · simp [hmode]

end Agrees

theorem refines_zero : Refines 0#128 LockArray.lcZeroCounts :=
  ⟨agrees_zero, fun _ => by simp [LockArray.lcZeroCounts]⟩

theorem LockArray.active_lcActive (mode m : Mode) :
    ((lcActive mode).active m).toNat = if m = mode then 1 else 0 := by
  by_cases hm : m = mode
  · simp [lcActive, hm]
  · simp [lcActive, lcZeroCounts, hm]

theorem refines_active (mode : Mode) : Refines (lcActive mode) (LockArray.lcActive mode) := by
  refine refines_iff.mpr ⟨fun m => ?_, ?_⟩
  · simp only [LockArray.active_lcActive]
    split <;> omega
  · rw [counts_single]
    simp only [LockArray.active_lcActive]
    rfl

namespace Refines

section

variable (h : Refines c s)

include h

theorem eq_counts : c = counts (fun m => (s.active m).toNat) s.waiting := (refines_iff.mp h).2

theorem and (hd : Agrees d t) : Refines (lcAnd c d) (s.lcAnd t) where
  agrees := h.agrees.and hd
  inRange m := by
    simp only [LockArray.lcAnd, toNat_and]
    exact Nat.lt_of_le_of_lt Nat.and_le_left (h.inRange m)

theorem or (hd : Refines d t) : Refines (lcOr c d) (s.lcOr t) where
  agrees := h.agrees.or hd.agrees
  inRange m := by
    simp only [LockArray.lcOr, toNat_or]
    exact Nat.or_lt_two_pow (h.inRange m) (hd.inRange m)

theorem setWait (mode : Mode) (wait : Bool) :
    Refines (lcSetWait c mode wait) (s.lcSetWait mode wait) :=
  ⟨h.agrees.setWait mode wait, h.inRange⟩

theorem add (hd : Refines d t) (hsum : ∀ m, (s.active m).toNat + (t.active m).toNat < 2 ^ 15)
    (hwait : ∀ m, ¬ (s.waiting m = true ∧ t.waiting m = true)) :
    ∃ u, s.lcAdd t = some u ∧ Refines (lcAdd c d) u := by
  refine ⟨_, if_pos hwait, refines_iff.mpr ?_⟩
  have htoNat : ∀ m, (s.active m + t.active m).toNat = (s.active m).toNat + (t.active m).toNat := by
    intro m
    have hm := hsum m
    rw [toNat_add, Nat.mod_eq_of_lt (by omega)]
  simp only [htoNat]
  exact ⟨hsum, by rw [h.eq_counts, hd.eq_counts, lcAdd_counts _ _ _ _ hwait]⟩

theorem subtract (hd : Refines d t) (hle : ∀ m, t.active m ≤ s.active m)
    (hwait : ∀ m, t.waiting m = true → s.waiting m = true) :
    ∃ u, s.lcSubtract t = some u ∧ Refines (lcSubtract c d) u := by
  refine ⟨_, if_pos fun m => ⟨hle m, hwait m⟩, refines_iff.mpr ?_⟩
  have htoNat : ∀ m, (s.active m - t.active m).toNat = (s.active m).toNat - (t.active m).toNat := fun m =>
    toNat_sub_of_le (hle m)
  simp only [htoNat]
  refine ⟨fun m => Nat.lt_of_le_of_lt (Nat.sub_le _ _) (h.inRange m), ?_⟩
  rw [h.eq_counts, hd.eq_counts, lcSubtract_words _ _ _ _ (fun m => le_def.mp (hle m)) hwait]

/-- Masking with a row of the conflict table. A row of the array is read beyond the modes of the
table, which makes a difference only for a mode that is not in the table and in use. -/
theorem and_conflictMask (hlen : conflicts.length ≤ 8)
    (hmode : mode.val < conflicts.length)
    (hstray : ∀ m : Mode, (conflicts.getD mode.val 0).getLsbD m.val = true →
      m.val < conflicts.length ∨ s.active m = 0#32 ∧ s.waiting m = false) (active waiting : Bool) :
    ∃ mask, LockArray.lcConflictMask conflicts mode active waiting = some mask ∧
      Refines (lcAnd c (lcConflictMask (lcInitConflictTable conflicts) mode active waiting)) (s.lcAnd mask) := by
  have hrow : conflicts[mode.val]? = some (conflicts.getD mode.val 0) := by
    rw [List.getD_eq_getElem?_getD, List.getElem?_eq_getElem hmode, Option.getD_some]
  refine ⟨_, by rw [LockArray.lcConflictMask, hrow, Option.map_some], fun m j hj => ?_, fun m => ?_⟩
  · rw [lcAnd, getLsbD_and, h.agrees m j hj, getLsbD_conflictMask conflicts hlen mode m active waiting j hj]
    simp only [LockArray.lcAnd]
    by_cases hbit : (conflicts.getD mode.val 0).getLsbD m.val = true
    · rcases hstray m hbit with hm | ⟨hzero, hnone⟩
      · have hconf : Conflicts conflicts mode m := ⟨hmode, hm, hbit⟩
        rw [decide_eq_true hconf, hbit]
        by_cases hj15 : j = 15
        · simp [hj15]
        · cases active with
          | false => simp [hj15]
          | true =>
            simp only [if_neg hj15, Bool.and_true, if_true, getLsbD_and, getLsbD_allOnes]
            rw [decide_eq_true (show j < 32 by omega), Bool.and_true]
      · rw [hzero, hnone]
        by_cases hj15 : j = 15
        · simp [hj15]
        · simp [hj15]
    · have hconf : ¬ Conflicts conflicts mode m := fun hc => hbit hc.2.2
      rw [decide_eq_false hconf, Bool.eq_false_iff.mpr hbit]
      by_cases hj15 : j = 15
      · simp [hj15]
      · simp [hj15]
  · simp only [LockArray.lcAnd, toNat_and]
    exact Nat.lt_of_le_of_lt Nat.and_le_left (h.inRange m)

theorem nonZero : lcNonZero c = s.lcNonZero := by
  have hzero : c = 0#128 ↔ ∀ m, s.active m = 0#32 ∧ s.waiting m = false := by
    rw [h.eq_counts, counts_eq_zero_iff _ _ h.inRange]
    refine forall_congr' fun m => and_congr_left fun _ => ?_
    rw [← toNat_inj, toNat_ofNat, Nat.zero_mod]
  rw [Bool.eq_iff_iff, lcNonZero, bne_iff_ne, ne_eq, hzero, LockArray.lcNonZero, List.any_eq_true]
  simp only [List.mem_finRange, true_and, Bool.or_eq_true, bne_iff_ne, not_forall, not_and_or,
    Bool.not_eq_false, ne_eq]

theorem zero : lcZero c = s.lcZero := by
  rw [LockArray.lcZero, ← h.nonZero, lcZero, lcNonZero, bne, Bool.not_not]

theorem getActive (mode : Mode) : (lcGetActive c mode : ℤ) = s.lcGetActive mode := by
  have hlt : (s.active mode).toNat < 2 ^ 15 := h.inRange mode
  rw [h.eq_counts, lcGetActive_counts _ _ h.inRange, LockArray.lcGetActive,
    toInt_eq_toNat_of_lt (by omega)]

theorem eq_iff (hd : Refines d t) :
    c = d ↔ ∀ i, s.active i = t.active i ∧ s.waiting i = t.waiting i := by
  constructor
  · rintro rfl i
    constructor
    · rw [← toNat_inj, ← lcGetActive_counts _ s.waiting h.inRange i, ← h.eq_counts, hd.eq_counts,
        lcGetActive_counts _ _ hd.inRange]
    · rw [← waitBit_counts _ s.waiting h.inRange i, ← h.eq_counts, hd.eq_counts, waitBit_counts _ _ hd.inRange]
  · intro heq
    rw [h.eq_counts, hd.eq_counts]
    congr 1
    · funext i
      rw [(heq i).1]
    · funext i
      exact (heq i).2

theorem set (hd : Refines d t) (he : Refines e u) :
    (lcSet c d e).1 = (s.lcSet t u).1 ∧ Refines (lcSet c d e).2 (s.lcSet t u).2 := by
  by_cases heq : c = d
  · rw [lcSet, if_pos heq, LockArray.lcSet, if_pos ((h.eq_iff hd).mp heq)]
    exact ⟨rfl, he⟩
  · rw [lcSet, if_neg heq, LockArray.lcSet, if_neg fun hall => heq ((h.eq_iff hd).mpr hall)]
    exact ⟨rfl, h⟩

end

end Refines

inductive Change
  | add (mode : Mode)
  | subtract (mode : Mode)
  | setWait (mode : Mode)
  | clearWait (mode : Mode)

def LockArray.change (s : LockArray) : Change → Option LockArray
  | .add mode => s.lcAdd (lcActive mode)
  | .subtract mode => s.lcSubtract (lcActive mode)
  | .setWait mode => some (s.lcOr (lcZeroCounts.lcSetWait mode true))
  | .clearWait mode => some (s.lcAnd (LockArray.lcMaskSet.lcSetWait mode false))

def change (c : LockCounts) : Change → LockCounts
  | .add mode => lcAdd c (lcActive mode)
  | .subtract mode => lcSubtract c (lcActive mode)
  | .setWait mode => lcOr c (lcSetWait 0#128 mode true)
  | .clearWait mode => lcAnd c (lcSetWait lcMaskSet mode false)

def LockArray.Allows (s : LockArray) : Change → Prop
  | .add mode => (s.active mode).toNat + 1 < 2 ^ 15
  | .subtract mode => 1 ≤ (s.active mode).toNat
  | .setWait _ => True
  | .clearWait _ => True

theorem Refines.change (h : Refines c s) (op : Change) (hop : s.Allows op) :
    ∃ s', s.change op = some s' ∧ Refines (Gsl.change c op) s' := by
  cases op with
  | add mode =>
    refine h.add (refines_active mode) (fun m => ?_) fun m hm => absurd hm.2 (by simp [LockArray.lcActive, LockArray.lcZeroCounts])
    have hm : (s.active m).toNat < 2 ^ 15 := h.inRange m
    rw [LockArray.active_lcActive]
    split_ifs with heq
    · rw [heq]
      exact hop
    · exact hm
  | subtract mode =>
    refine h.subtract (refines_active mode) (fun m => ?_) fun m hm => absurd hm (by simp [LockArray.lcActive, LockArray.lcZeroCounts])
    rw [le_def, LockArray.active_lcActive]
    split_ifs with heq
    · rw [heq]
      exact hop
    · exact Nat.zero_le _
  | setWait mode => exact ⟨_, rfl, h.or (refines_zero.setWait mode true)⟩
  | clearWait mode => exact ⟨_, rfl, h.and (agrees_maskSet.setWait mode false)⟩

inductive LockArray.Run : LockArray → List Change → LockArray → Prop
  | nil (s : LockArray) : Run s [] s
  | cons {s s' s'' : LockArray} {op : Change} {ops : List Change} :
      s.Allows op → s.change op = some s' → Run s' ops s'' → Run s (op :: ops) s''

theorem LockArray.Run.refines (hrun : LockArray.Run s ops s')
    (h : Refines c s) : Refines (ops.foldl Gsl.change c) s' := by
  induction hrun generalizing c with
  | nil => exact h
  | cons hop hstep _ ih =>
    obtain ⟨t, ht, href⟩ := h.change _ hop
    obtain rfl := Option.some.inj (hstep.symm.trans ht)
    exact ih href

/-- Every operation that gsl-impl.h makes on counts, or on counts and a holding word `d`, gives
on the packed words what it gives on the arrays. -/
structure Implements (c : LockCounts) (s : LockArray) (d : LockCounts) (t : LockArray) (mode : Mode) : Prop where
  add : (s.active mode).toNat + 1 < 2 ^ 15 →
    ∃ u, s.lcAdd (.lcActive mode) = some u ∧ Refines (lcAdd c (lcActive mode)) u
  subtractUnit : 1 ≤ (s.active mode).toNat →
    ∃ u, s.lcSubtract (.lcActive mode) = some u ∧ Refines (lcSubtract c (lcActive mode)) u
  subtract : (∀ m, t.active m ≤ s.active m) → (∀ m, t.waiting m = true → s.waiting m = true) →
    ∃ u, s.lcSubtract t = some u ∧ Refines (lcSubtract c d) u
  setWait : Refines (lcOr c (lcSetWait 0#128 mode true)) (s.lcOr (LockArray.lcZeroCounts.lcSetWait mode true))
  clearWait : Refines (lcAnd c (lcSetWait lcMaskSet mode false)) (s.lcAnd (LockArray.lcMaskSet.lcSetWait mode false))
  /-- A row may name a mode beyond the matrix only if that mode is not in use. -/
  mask : ∀ conflicts : List (BitVec 32), conflicts.length ≤ 8 → mode.val < conflicts.length →
    (∀ m : Mode, (conflicts.getD mode.val 0).getLsbD m.val = true →
      m.val < conflicts.length ∨ s.active m = 0#32 ∧ s.waiting m = false) →
    ∀ active waiting, ∃ u, LockArray.lcConflictMask conflicts mode active waiting = some u ∧
      Refines (lcAnd c (lcConflictMask (lcInitConflictTable conflicts) mode active waiting)) (s.lcAnd u)
  nonZero : lcNonZero c = s.lcNonZero
  zero : lcZero c = s.lcZero
  getActive : (lcGetActive c mode : ℤ) = s.lcGetActive mode
  set : ∀ e u, Refines e u → (lcSet c d e).1 = (s.lcSet t u).1 ∧ Refines (lcSet c d e).2 (s.lcSet t u).2
  run : ∀ ops s', LockArray.Run s ops s' → Refines (ops.foldl change c) s'

/-- The packed counts implement the array. -/
theorem packed_implements_array {c d : LockCounts} {s t : LockArray} (h : Refines c s) (hd : Refines d t)
    (mode : Mode) : Implements c s d t mode where
  add hop := h.change (.add mode) hop
  subtractUnit hop := h.change (.subtract mode) hop
  subtract := h.subtract hd
  setWait := h.or (refines_zero.setWait mode true)
  clearWait := h.and (agrees_maskSet.setWait mode false)
  mask _ hlen hmode hstray := h.and_conflictMask hlen hmode hstray
  nonZero := h.nonZero
  zero := h.zero
  getActive := h.getActive mode
  set _ _ he := h.set hd he
  run _ _ hrun := hrun.refines h

/-- Two processes hold mode 0, one waits for mode 1, and one of the two looks at the counts. -/
theorem packed_implements_array_shared :
    Implements (counts (fun m => if m = 0 then 2 else 0) fun m => m = 1)
      ⟨fun m => if m = 0 then 2#32 else 0#32, fun m => m = 1⟩ (lcActive 0) (.lcActive 0) 0 := by
  refine packed_implements_array (refines_iff.mpr ⟨fun m => ?_, ?_⟩) (refines_active 0) 0
  · dsimp only
    split <;> decide
  · congr 1
    funext m
    dsimp only
    split <;> rfl

end Mosbench.Gsl
