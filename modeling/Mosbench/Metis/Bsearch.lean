import Mosbench.Lib.Comparator
import Mathlib.Algebra.GroupWithZero.Nat
import Mathlib.Algebra.Ring.Int.Defs

/-!
The two binary searches of Metis (bsearch.c). An array is what reading one of its
elements gives, and nothing where there is no element. The index is an int and the
searches are called with a negative length too, so that reading before the start of
the array has to be part of the model. The sum of both ends has to be an int as well,
so that an array can be too long to be searched.
-/
namespace Mosbench.Metis

open Comparator List Option
open KeyComparator (difference)

/-- An array that has the elements of `l` and no others. -/
def arrElem {α : Type} (l : List α) (i : ℤ) : Option α := if 0 ≤ i then l[i.toNat]? else none

variable {α : Type} (cmp : α → α → ℤ) (key : α) (elem : ℤ → Option α)

/-- The element in the middle, if the sum of the ends is an int. -/
def middle (left right : ℤ) : Option α :=
  if left + right < 2 ^ 31 then elem ((left + right) / 2) else none

/-- The loop of bsearch_lar; it leaves `left`. -/
def larLoop : ℕ → ℤ → ℤ → Option ℤ
  | 0, left, right => if left < right then none else some left
  | fuel + 1, left, right =>
    if left < right then do
      let mid := (left + right) / 2
      let x ← middle elem left right
      if 0 ≤ cmp key x then larLoop fuel (mid + 1) right else larLoop fuel left (mid - 1)
    else some left

def bsearchLar (nelems : ℤ) : Option ℤ :=
  if nelems = 0 then some 0 else do
    let x ← elem (nelems - 1)
    if 0 ≤ cmp key x then some nelems
    else if nelems = 1 then some 0
    else if nelems = 2 then do
      let x ← elem 0
      if cmp key x < 0 then some 0 else some 1
    else do
      let left ← larLoop cmp key elem nelems.toNat 0 (nelems - 2)
      let x ← elem left
      if 0 ≤ cmp key x then some (left + 1) else some left

theorem larLoop_bounds (h : larLoop cmp key elem fuel left right = some r) :
    left ≤ r ∧ r ≤ max left right := by
  induction fuel generalizing left right with
  | zero =>
    rw [larLoop] at h
    split_ifs at h
    obtain rfl := Option.some.inj h
    omega
  | succ fuel ih =>
    rw [larLoop] at h
    split_ifs at h
    · obtain ⟨x, -, h⟩ := Option.bind_eq_some_iff.mp h
      split_ifs at h
      · have := ih h
        omega
      · have := ih h
        omega
    · obtain rfl := Option.some.inj h
      omega

theorem bsearchLar_bounds (h : bsearchLar cmp key elem nelems = some r) (hn : 0 ≤ nelems) :
    0 ≤ r ∧ r ≤ nelems := by
  rw [bsearchLar] at h
  by_cases h0 : nelems = 0
  · rw [if_pos h0] at h
    obtain rfl := Option.some.inj h
    omega
  rw [if_neg h0] at h
  obtain ⟨x, -, h⟩ := Option.bind_eq_some_iff.mp h
  split_ifs at h
  · obtain rfl := Option.some.inj h
    omega
  · obtain rfl := Option.some.inj h
    omega
  · obtain ⟨y, -, h⟩ := Option.bind_eq_some_iff.mp h
    split_ifs at h <;> obtain rfl := Option.some.inj h <;> omega
  · obtain ⟨left, hleft, h⟩ := Option.bind_eq_some_iff.mp h
    obtain ⟨y, -, h⟩ := Option.bind_eq_some_iff.mp h
    have := larLoop_bounds cmp key elem hleft
    split_ifs at h <;> obtain rfl := Option.some.inj h <;> omega

def eqLoop : ℕ → ℤ → ℤ → Option (ℤ × Bool)
  | 0, left, right => if left < right then none else some (left, false)
  | fuel + 1, left, right =>
    if left < right then do
      let mid := (left + right) / 2
      let x ← middle elem left right
      if cmp key x = 0 then some (mid, true)
      else if cmp key x < 0 then eqLoop fuel left (mid - 1)
      else eqLoop fuel (mid + 1) right
    else some (left, false)

def bsearchEq (nelems : ℤ) : Option (ℤ × Bool) :=
  if nelems = 0 then some (0, false) else do
    let x ← elem (nelems - 1)
    if cmp key x = 0 then some (nelems - 1, true)
    else if 0 < cmp key x then some (nelems, false)
    else if nelems = 1 then some (0, false)
    else if nelems = 2 then do
      let x ← elem 0
      if cmp key x = 0 then some (0, true)
      else if cmp key x < 0 then some (0, false)
      else some (1, false)
    else do
      let (pos, bfound) ← eqLoop cmp key elem nelems.toNat 0 (nelems - 2)
      if bfound then some (pos, true) else do
        let x ← elem pos
        if cmp key x = 0 then some (pos, true)
        else if 0 < cmp key x then some (pos + 1, false)
        else some (pos, false)

def Holds (elem : ℤ → Option α) (l : List α) : Prop :=
  ∀ i : ℕ, i < l.length → elem i = l[i]?

structure Splits (c : Comparator α) (key : α) (l : List α) (k : ℕ) : Prop where
  le_length : k ≤ l.length
  before : ∀ x ∈ l.take k, c.le x key
  after : ∀ x ∈ l.drop k, c.lt key x

/-- What bsearch_eq reports: the place of an element that compares equal to the key, or
the place between the smaller and the greater elements. -/
inductive Located (c : Comparator α) (key : α) (l : List α) : ℕ → Bool → Prop
  | found {pos : ℕ} (h : pos < l.length) : c.cmp key l[pos] = 0 → Located c key l pos true
  | absent {pos : ℕ} : pos ≤ l.length → (∀ x ∈ l.take pos, c.lt x key) →
      (∀ x ∈ l.drop pos, c.lt key x) → Located c key l pos false

section Sorted

variable {c : Comparator α} {key : α} {elem : ℤ → Option α} {l : List α}

theorem le_of_mem_drop (hl : l.Pairwise c.le) (hk : k < l.length)
    (hx : x ∈ l.drop k) : c.le l[k] x := by
  obtain ⟨i, hi, rfl⟩ := mem_iff_getElem.mp hx
  simp only [length_drop] at hi
  rw [getElem_drop]
  rcases Nat.eq_zero_or_pos i with rfl | hpos
  · exact le_refl _
  · exact pairwise_iff_getElem.mp hl k (k + i) _ _ (by omega)

theorem Holds.get (h : Holds elem l) (hk : k < l.length) : elem (k : ℤ) = some l[k] := by
  rw [h k hk, List.getElem?_eq_getElem hk]

theorem mem_drop_of_le (h : m ≤ n) (hx : x ∈ l.drop n) : x ∈ l.drop m := by
  obtain ⟨d, rfl⟩ := Nat.exists_eq_add_of_le h
  rw [← drop_drop] at hx
  exact mem_of_mem_drop hx

theorem forall_mem_drop {P : α → Prop} (hk : k < l.length) (hP : P l[k])
    (h : ∀ x ∈ l.drop (k + 1), P x) : ∀ x ∈ l.drop k, P x := by
  rw [drop_eq_getElem_cons hk]
  exact forall_mem_cons.mpr ⟨hP, h⟩

theorem forall_mem_take {P : α → Prop} (hk : k < l.length) (hP : P l[k])
    (h : ∀ x ∈ l.take k, P x) : ∀ x ∈ l.take (k + 1), P x := by
  rw [take_succ_eq_append_getElem hk]
  intro x hx
  rcases mem_append.mp hx with hx | hx
  · exact h x hx
  · rw [mem_singleton.mp hx]
    exact hP

theorem Splits.mono (h : Splits c key l k) (h' : Splits c key' l k')
    (hle : c.le key key') : k ≤ k' := by
  by_contra hlt
  have hk := h.le_length
  have hmem : l[k'] ∈ l.take k := mem_take_iff_getElem.mpr ⟨k', by omega, rfl⟩
  have hmem' : l[k'] ∈ l.drop k' := mem_drop_iff_getElem.mpr ⟨0, by omega, rfl⟩
  exact not_le.mpr (h'.after _ hmem') (le_trans (h.before _ hmem) hle)

theorem Holds.middle_eq {left right : ℕ} (h : Holds elem l) (hlen : l.length ≤ 2 ^ 30 + 2)
    (hlt : left < right) (hright : right + 1 < l.length) :
    ∃ mid, ∃ hm : mid < l.length, left ≤ mid ∧ mid < right ∧ ((left : ℤ) + right) / 2 = mid ∧
      middle elem left right = some l[mid] := by
  have hm : (left + right) / 2 < l.length := by omega
  have hmid : ((left : ℤ) + right) / 2 = ((left + right) / 2 : ℕ) := by omega
  refine ⟨(left + right) / 2, hm, by omega, by omega, hmid, ?_⟩
  rw [middle, if_pos (by omega), hmid, h.get hm]

/-- What a search leaves when `sign` tells on which side of the key an element is. -/
def Found (sign : α → ℤ) (l : List α) (k : ℕ) : Bool → Prop
  | true => ∃ hk : k < l.length, sign l[k] = 0
  | false => k ≤ l.length ∧ (∀ x ∈ l.take k, 0 < sign x) ∧ ∀ x ∈ l.drop k, sign x < 0

section Sign

variable {cmp : α → α → ℤ}
  (hmono : l.Pairwise fun x y => (cmp key x < 0 → cmp key y < 0) ∧ (0 < cmp key y → 0 < cmp key x))

include hmono

theorem neg_of_mem_drop (hk : k < l.length) (h : cmp key l[k] < 0) : ∀ x ∈ l.drop k, cmp key x < 0 := by
  refine forall_mem_drop hk h fun x hx => ?_
  obtain ⟨i, hi, rfl⟩ := mem_drop_iff_getElem.mp hx
  exact (pairwise_iff_getElem.mp hmono k (k + 1 + i) hk (by omega) (by omega)).1 h

theorem pos_of_mem_take (hk : k < l.length) (h : 0 < cmp key l[k]) : ∀ x ∈ l.take (k + 1), 0 < cmp key x := by
  refine forall_mem_take hk h fun x hx => ?_
  obtain ⟨i, hi, rfl⟩ := mem_take_iff_getElem.mp hx
  exact (pairwise_iff_getElem.mp hmono i k (by omega) hk (by omega)).2 h

theorem eqLoop_spec (h : Holds elem l) (hlen : l.length ≤ 2 ^ 30 + 2)
    (fuel left : ℕ) (right : ℤ) (hfuel : right - left ≤ fuel) (hle : (left : ℤ) ≤ right + 1) (hright : right + 1 < l.length)
    (hbefore : ∀ x ∈ l.take left, 0 < cmp key x) (hafter : ∀ x ∈ l.drop (right + 1).toNat, cmp key x < 0) :
    ∃ (k : ℕ) (found : Bool), eqLoop cmp key elem fuel left right = some ((k : ℤ), found) ∧
      if found then Found (cmp key) l k true
      else k < l.length ∧ (∀ x ∈ l.take k, 0 < cmp key x) ∧ ∀ x ∈ l.drop (k + 1), cmp key x < 0 := by
  induction fuel generalizing left right with
  | zero =>
    exact ⟨left, false, if_neg (by omega), by omega, hbefore, fun x hx => hafter x (mem_drop_of_le (by omega) hx)⟩
  | succ fuel ih =>
    by_cases hlt : (left : ℤ) < right
    · obtain ⟨right, rfl⟩ : ∃ n : ℕ, right = n := ⟨right.toNat, by omega⟩
      obtain ⟨mid, hm, hge, hlt', hmid, hget⟩ := h.middle_eq hlen (Int.ofNat_lt.mp hlt) (by omega)
      simp only [eqLoop, if_pos hlt, hmid, hget, bind_eq_bind, bind_some]
      rcases lt_trichotomy (cmp key l[mid]) 0 with hc | hc | hc
      · rw [if_neg hc.ne, if_pos hc]
        refine ih left (mid - 1) (by omega) (by omega) (by omega) hbefore ?_
        rw [show ((mid : ℤ) - 1 + 1).toNat = mid by omega]
        exact neg_of_mem_drop hmono hm hc
      · exact ⟨mid, true, if_pos hc, hm, hc⟩
      · rw [if_neg hc.ne', if_neg hc.not_gt]
        exact ih (mid + 1) right (by omega) (by omega) hright (pos_of_mem_take hmono hm hc) hafter
    · exact ⟨left, false, if_neg hlt, by omega, hbefore, fun x hx => hafter x (mem_drop_of_le (by omega) hx)⟩

variable (cmp key) in
theorem bsearchEq_found (h : Holds elem l) (hlen : l.length ≤ 2 ^ 30 + 2) :
    ∃ (k : ℕ) (found : Bool), bsearchEq cmp key elem l.length = some ((k : ℤ), found) ∧
      Found (cmp key) l k found := by
  unfold bsearchEq
  by_cases h0 : l.length = 0
  · exact ⟨0, false, by simp [h0], Nat.zero_le _, by simp, by simp [length_eq_zero_iff.mp h0]⟩
  have hlast : elem ((l.length : ℤ) - 1) = some l[l.length - 1] := by
    rw [← h.get (by omega)]
    congr 1
    omega
  rw [if_neg (by omega), hlast, bind_eq_bind, bind_some]
  rcases lt_trichotomy (cmp key l[l.length - 1]) 0 with hc | hc | hc
  swap
  · refine ⟨l.length - 1, true, ?_, by omega, hc⟩
    rw [if_pos hc, show ((l.length - 1 : ℕ) : ℤ) = l.length - 1 by omega]
  swap
  · refine ⟨l.length, false, by rw [if_neg hc.ne', if_pos hc], le_rfl, fun x hx => ?_, by simp⟩
    refine pos_of_mem_take hmono (k := l.length - 1) (by omega) hc x ?_
    rwa [Nat.sub_add_cancel (by omega)]
  rw [if_neg hc.ne, if_neg hc.not_gt]
  have hafter := neg_of_mem_drop hmono (k := l.length - 1) (by omega) hc
  by_cases h1 : l.length = 1
  · refine ⟨0, false, by simp [h1], Nat.zero_le _, by simp, ?_⟩
    simpa [h1] using hafter
  rw [if_neg (by omega)]
  -- the element at the last place that is left decides
  have hend : ∀ k, ∀ hk : k < l.length, (∀ x ∈ l.take k, 0 < cmp key x) → (∀ x ∈ l.drop (k + 1), cmp key x < 0) →
      ∃ (k' : ℕ) (found : Bool), (if cmp key l[k] = 0 then some ((k : ℤ), true)
        else if 0 < cmp key l[k] then some ((k : ℤ) + 1, false) else some ((k : ℤ), false)) = some ((k' : ℤ), found) ∧
        Found (cmp key) l k' found := by
    intro k hk hbefore hafter
    rcases lt_trichotomy (cmp key l[k]) 0 with hc | hc | hc
    · exact ⟨k, false, by rw [if_neg hc.ne, if_neg hc.not_gt], hk.le, hbefore, forall_mem_drop hk hc hafter⟩
    · exact ⟨k, true, if_pos hc, hk, hc⟩
    · exact ⟨k + 1, false, by rw [if_neg hc.ne', if_pos hc]; rfl, hk, forall_mem_take hk hc hbefore, hafter⟩
  by_cases h2 : l.length = 2
  · have hfirst : elem 0 = some l[0] := h.get (k := 0) (by omega)
    rw [if_pos (by omega), hfirst, bind_some]
    obtain ⟨k, found, hk, hfound⟩ := hend 0 (by omega) (by simp) (by simpa [h2] using hafter)
    refine ⟨k, found, ?_, hfound⟩
    rw [← hk]
    split_ifs <;> first | rfl | omega
  rw [if_neg (by omega)]
  obtain ⟨k, found, hk, hspec⟩ := eqLoop_spec hmono h hlen l.length 0 (l.length - 2)
    (by omega) (by omega) (by omega) (by simp)
    (by rwa [show ((l.length : ℤ) - 2 + 1).toNat = l.length - 1 by omega])
  rw [show ((0 : ℕ) : ℤ) = 0 from rfl] at hk
  rw [Int.toNat_natCast, hk, bind_eq_bind, bind_some]
  cases found with
  | true => exact ⟨k, true, rfl, hspec⟩
  | false =>
    obtain ⟨hklt, hbefore, hgt⟩ := hspec
    simp only [h.get hklt, bind_some, Bool.false_eq_true, if_false]
    exact hend k hklt hbefore hgt

end Sign

variable (key) in
theorem bsearchEq_spec (hl : l.Pairwise c.le) (h : Holds elem l) (hlen : l.length ≤ 2 ^ 30 + 2) :
    ∃ (k : ℕ) (found : Bool), bsearchEq c.cmp key elem l.length = some ((k : ℤ), found) ∧
      Located c key l k found := by
  obtain ⟨k, found, hk, hfound⟩ := bsearchEq_found key c.cmp (hl.imp fun hxy =>
    ⟨fun h => lt_of_lt_of_le h hxy, fun h => pos_iff.mpr (lt_of_le_of_lt hxy (pos_iff.mp h))⟩) h hlen
  refine ⟨k, found, hk, ?_⟩
  cases found with
  | true => exact .found hfound.1 hfound.2
  | false => exact .absent hfound.1 (fun x hx => pos_iff.mp (hfound.2.1 x hx)) hfound.2.2

/-- bsearch_lar is bsearch_eq for a comparison that takes equal for greater. -/
def past (cmp : α → α → ℤ) (key x : α) : ℤ := if 0 ≤ cmp key x then 1 else -1

theorem larLoop_eq (cmp : α → α → ℤ) (fuel : ℕ) (left right : ℤ) :
    eqLoop (past cmp) key elem fuel left right = (larLoop cmp key elem fuel left right).map (·, false) := by
  induction fuel generalizing left right with
  | zero =>
    rw [eqLoop, larLoop]
    split_ifs <;> rfl
  | succ fuel ih =>
    rw [eqLoop, larLoop]
    split_ifs
    · cases middle elem left right with
      | none => rfl
      | some x =>
        simp only [bind_eq_bind, bind_some, past]
        split_ifs <;> simp_all
    · rfl

theorem bsearchLar_eq (cmp : α → α → ℤ) (nelems : ℤ) :
    bsearchEq (past cmp) key elem nelems = (bsearchLar cmp key elem nelems).map (·, false) := by
  rw [bsearchEq, bsearchLar, larLoop_eq]
  by_cases h0 : nelems = 0
  · rw [if_pos h0, if_pos h0]
    rfl
  rw [if_neg h0, if_neg h0]
  cases elem (nelems - 1) with
  | none => rfl
  | some x =>
    by_cases hx : 0 ≤ cmp key x
    · simp [past, hx]
    by_cases h1 : nelems = 1
    · simp [past, hx, h1]
    by_cases h2 : nelems = 2
    · cases elem 0 with
      | none => simp [past, hx, h2]
      | some y =>
        have hneg : cmp key y < 0 ↔ ¬0 ≤ cmp key y := Int.not_le.symm
        by_cases hy : 0 ≤ cmp key y <;> simp [past, hx, h2, hneg, hy]
    cases larLoop cmp key elem nelems.toNat 0 (nelems - 2) with
    | none => simp [past, hx, h1, h2]
    | some left =>
      simp only [past, hx, h1, h2, if_false, bind_eq_bind, bind_some, map_some]
      cases elem left with
      | none => rfl
      | some y => by_cases hy : 0 ≤ cmp key y <;> simp [hy]

variable (key) in
theorem bsearchLar_spec (hl : l.Pairwise c.le) (h : Holds elem l) (hlen : l.length ≤ 2 ^ 30 + 2) :
    ∃ k : ℕ, bsearchLar c.cmp key elem l.length = some (k : ℤ) ∧ Splits c key l k := by
  have hneg : ∀ x, past c.cmp key x < 0 ↔ c.lt key x := fun x => by
    rw [past, Comparator.lt]
    split_ifs <;> omega
  have hpos : ∀ x, 0 < past c.cmp key x ↔ c.le x key := fun x => by
    rw [past, ← nonneg_iff]
    split_ifs <;> omega
  obtain ⟨k, found, hk, hfound⟩ := bsearchEq_found key (past c.cmp) (hl.imp fun hxy =>
    ⟨fun h => (hneg _).mpr (lt_of_lt_of_le ((hneg _).mp h) hxy), fun h => (hpos _).mpr (le_trans hxy ((hpos _).mp h))⟩) h hlen
  rw [bsearchLar_eq, map_eq_some_iff] at hk
  obtain ⟨pos, hk, ⟨⟩⟩ := hk
  exact ⟨k, hk, hfound.1, fun x hx => (hpos x).mp (hfound.2.1 x hx), fun x hx => (hneg x).mp (hfound.2.2 x hx)⟩

theorem countP_eq {P : α → Bool} (hk : k ≤ l.length) (hbefore : ∀ x ∈ l.take k, P x = true)
    (hafter : ∀ x ∈ l.drop k, P x = false) : l.countP P = k := by
  have hfront : (l.take k).countP P = k :=
    (countP_eq_length.mpr hbefore).trans (length_take_of_le hk)
  have hrest : (l.drop k).countP P = 0 :=
    countP_eq_zero.mpr fun x hx => by rw [hafter x hx]; exact Bool.false_ne_true
  rw [← take_append_drop k l, countP_append, hfront, hrest, Nat.add_zero]

theorem Splits.countP_eq (h : Splits c key l k) : l.countP (fun x => c.le x key) = k :=
  Metis.countP_eq h.le_length (fun x hx => decide_eq_true (h.before x hx)) fun x hx =>
    decide_eq_false (not_le.mpr (h.after x hx))

theorem Located.countP_eq (hl : l.Pairwise c.lt) (h : Located c key l k bfound) :
    l.countP (fun x => c.lt x key) = k ∧ (bfound = true ↔ ∃ x ∈ l, c.cmp key x = 0) := by
  cases h with
  | found hk hcmp =>
    have hle : c.le l[k] key := nonneg_iff.mp hcmp.ge
    refine ⟨Metis.countP_eq hk.le (fun x hx => ?_) (fun x hx => ?_),
      iff_of_true rfl ⟨_, getElem_mem hk, hcmp⟩⟩
    · obtain ⟨i, hi, rfl⟩ := mem_take_iff_getElem.mp hx
      exact decide_eq_true (lt_of_lt_of_le (pairwise_iff_getElem.mp hl i k _ _ (by omega)) hle)
    · have hge := le_of_mem_drop (hl.imp le_of_lt) hk hx
      exact decide_eq_false (not_lt.mpr (le_trans (show c.le key l[k] from hcmp.le) hge))
  | absent hk hbefore hafter =>
    refine ⟨Metis.countP_eq hk (fun x hx => decide_eq_true (hbefore x hx)) (fun x hx => ?_), ?_⟩
    · exact decide_eq_false (Comparator.not_lt.mpr (Comparator.le_of_lt (hafter x hx)))
    · refine iff_of_false Bool.false_ne_true ?_
      rintro ⟨x, hx, hcmp⟩
      rw [← take_append_drop k l] at hx
      rcases mem_append.mp hx with hx | hx
      · exact absurd (pos_iff.mpr (hbefore x hx)) (by omega)
      · exact absurd (hafter x hx) (by unfold Comparator.lt; omega)

end Sorted

/-- Both searches count the elements, and read no others. -/
def Locates (c : Comparator α) (key : α) (l : List α) : Prop :=
  bsearchLar c.cmp key (arrElem l) l.length = some (l.countP (fun x => c.le x key) : ℤ) ∧
    ∃ found, bsearchEq c.cmp key (arrElem l) l.length =
        some ((l.countP (fun x => c.lt x key) : ℤ), found) ∧
      (found = true ↔ ∃ x ∈ l, c.cmp key x = 0)

theorem holds_arrElem (l : List α) : Holds (arrElem l) l := fun i _ => if_pos (Int.natCast_nonneg i)

theorem locates_of_le {c : Comparator α} (key : α) {l : List α} (hl : l.Pairwise c.lt)
    (hlen : l.length ≤ 2 ^ 30 + 2) : Locates c key l := by
  constructor
  · obtain ⟨k, hk, hsplits⟩ := bsearchLar_spec key (hl.imp le_of_lt) (holds_arrElem l) hlen
    rw [hk, hsplits.countP_eq]
  · obtain ⟨k, found, hk, hlocated⟩ := bsearchEq_spec key (hl.imp le_of_lt) (holds_arrElem l) hlen
    obtain ⟨hcount, hfound⟩ := hlocated.countP_eq hl
    exact ⟨found, by rw [hk, hcount], hfound⟩

/-- The even numbers below `2 * n`. -/
def evens (n : ℕ) : List ℕ := (List.range n).map (2 * ·)

theorem arrElem_evens {n : ℕ} (i : ℕ) (hi : i < n) : arrElem (evens n) i = some (2 * i) := by
  rw [holds_arrElem (evens n) i (by simpa [evens] using hi)]
  simp [evens, hi]

/-- With a key before the last element only, the search stays to the right until the sum of its
ends is no int. -/
theorem larLoop_evens {n : ℕ} (hn : 2 ^ 30 + 2 < n) (fuel left : ℕ) (hlt : left < n - 2) :
    larLoop difference.toComparator.cmp (2 * (n - 2) + 1) (arrElem (evens n)) fuel left
      (n - 2 : ℕ) = none := by
  induction fuel generalizing left with
  | zero => exact if_pos (by omega)
  | succ fuel ih =>
    rw [larLoop, if_pos (by omega), middle]
    split_ifs with hsum
    · have hmid : ((left : ℤ) + (n - 2 : ℕ)) / 2 = ((left + (n - 2)) / 2 : ℕ) := by omega
      have hge : 0 ≤ difference.toComparator.cmp (2 * (n - 2) + 1)
          (2 * ((left + (n - 2)) / 2)) := by
        change (0 : ℤ) ≤ ((2 * (n - 2) + 1 : ℕ) : ℤ) - (2 * ((left + (n - 2)) / 2) : ℕ)
        omega
      rw [hmid, arrElem_evens _ (by omega), bind_eq_bind, bind_some, if_pos hge]
      exact ih ((left + (n - 2)) / 2 + 1) (by omega)
    · rfl

theorem not_locates_evens {n : ℕ} (hn : 2 ^ 30 + 2 < n) :
    ¬Locates difference.toComparator (2 * (n - 2) + 1) (evens n) := by
  rintro ⟨hlar, -⟩
  have hlen : (evens n).length = n := by simp [evens]
  have hlast : arrElem (evens n) ((n : ℤ) - 1) = some (2 * (n - 1)) := by
    rw [show (n : ℤ) - 1 = (n - 1 : ℕ) by omega, arrElem_evens _ (by omega)]
  have hneg : ¬0 ≤ difference.toComparator.cmp (2 * (n - 2) + 1) (2 * (n - 1)) := by
    change ¬(0 : ℤ) ≤ ((2 * (n - 2) + 1 : ℕ) : ℤ) - (2 * (n - 1) : ℕ)
    omega
  have hloop := larLoop_evens hn n 0 (by omega)
  rw [show ((n - 2 : ℕ) : ℤ) = (n : ℤ) - 2 by omega] at hloop
  rw [hlen, bsearchLar, if_neg (by omega), hlast, bind_eq_bind, bind_some, if_neg hneg,
    if_neg (by omega), if_neg (by omega), Int.toNat_natCast] at hlar
  change (larLoop _ _ _ n ((0 : ℕ) : ℤ) _ >>= _) = _ at hlar
  rw [hloop] at hlar
  cases hlar

/-- The searches count the elements of every increasing array of a length exactly if it is at
most 2^30 + 2. -/
theorem bsearch_counts (n : ℕ) :
    (∀ (α : Type) (c : Comparator α) (key : α) (l : List α), l.Pairwise c.lt → l.length = n →
      Locates c key l) ↔ n ≤ 2 ^ 30 + 2 := by
  constructor
  · intro h
    by_contra hn
    refine not_locates_evens (not_le.mp hn) (h ℕ _ _ _ ?_ (by simp [evens]))
    rw [evens, pairwise_map]
    refine pairwise_lt_range.imp fun {i j} hij => ?_
    change ((2 * i : ℕ) : ℤ) - (2 * j : ℕ) < 0
    omega
  · rintro hn α c key l hl rfl
    exact locates_of_le key hl hn

/-- In an array of 2^31 - 1 numbers the second sum overflows. -/
theorem bsearch_overflows :
    bsearchLar difference.cmp 2147483645
        (fun i => if 0 ≤ i ∧ i < 2147483647 then some i.toNat else none) 2147483647 = none ∧
      bsearchEq difference.cmp 2147483645
        (fun i => if 0 ≤ i ∧ i < 2147483647 then some i.toNat else none) 2147483647 = none :=
  ⟨rfl, rfl⟩

end Mosbench.Metis
