import Mosbench.Lib.Fallible
import Mosbench.Metis.Psrs

/-!
The shares of the parallel sort. The shares of all CPUs are the input, cut into
pieces; the selected pivots are in order; and where sublists leaves out enough elements
above each pivot, it cuts an array at the pivots.
-/
namespace Mosbench.Metis.Psrs

open Comparator List Option Function

variable {α : Type}

theorem arrElem_natCast (l : List α) (i : ℕ) : arrElem l (i : ℤ) = l[i]? := by
  rw [arrElem, if_pos (by omega), Int.toNat_natCast]

theorem copyLoop_eq {psz : ℕ} (s e : ℤ) (g : ℕ) (colls : List (List α)) (hs : 0 ≤ s) (hbytes : s * psz < 2 ^ 31) :
    copyLoop psz s e g colls = some ((colls.flatten.drop (s - g).toNat).take (e + 1 - max s g).toNat) := by
  induction colls generalizing g with
  | nil => simp [copyLoop]
  | cons coll colls ih =>
    by_cases h0 : coll.length = 0
    · rw [copyLoop, if_pos h0, ih, flatten_cons, length_eq_zero_iff.mp h0, nil_append]
    · rw [copyLoop, if_neg h0]
      have hnext : (g : ℤ) + coll.length - 1 + 1 = ((g + coll.length : ℕ) : ℤ) := by omega
      have hloc : (max s (g : ℤ) - g) * psz < 2 ^ 31 := by
        refine lt_of_le_of_lt (Int.mul_le_mul_of_nonneg_right ?_ (Int.natCast_nonneg psz)) hbytes
        omega
      have helems : (if (g : ℤ) ≤ e ∧ s ≤ (g : ℤ) + coll.length - 1 then
          if (max s (g : ℤ) - g) * psz < 2 ^ 31 then
            some ((coll.drop (max s (g : ℤ) - g).toNat).take
              (min e ((g : ℤ) + coll.length - 1) - g - (max s (g : ℤ) - g) + 1).toNat)
          else none
        else some []) = some ((coll.drop (s - g).toNat).take (e + 1 - max s g).toNat) := by
        rw [if_pos hloc]
        split
        · rw [show (max s (g : ℤ) - g).toNat = (s - g).toNat by omega, some.injEq, take_eq_take_iff,
            length_drop]
          omega
        · next h =>
          have hnone : coll.length ≤ (s - g).toNat ∨ (e + 1 - max s g).toNat = 0 := by omega
          rcases hnone with hnone | hnone
          · rw [drop_eq_nil_of_le hnone, take_nil]
          · rw [hnone, take_zero]
      simp only [hnext, ih, flatten_cons, drop_append, take_append, helems, bind_some, map_some, some.injEq]
      congr 1
      rw [length_drop]
      congr 1
      · omega
      · congr 1
        omega

theorem copyElems_eq {start stop : ℕ} (hle : start ≤ stop) (hstop : stop ≤ colls.flatten.length)
    (hbytes : stop * psz < 2 ^ 31) :
    copyElems psz colls start (stop - 1) = some ((colls.flatten.drop start).take (stop - start)) := by
  have hall : (stop : ℤ) * psz < 2 ^ 31 := by exact_mod_cast hbytes
  have hmul : ∀ {i : ℤ}, i ≤ stop → i * psz < 2 ^ 31 := fun hi =>
    lt_of_le_of_lt (Int.mul_le_mul_of_nonneg_right hi (Int.natCast_nonneg psz)) hall
  have hcopy : copyLoop psz (start : ℤ) (stop - 1) 0 colls =
      some ((colls.flatten.drop start).take (stop - start)) := by
    have h := copyLoop_eq (start : ℤ) (stop - 1) 0 colls (Int.natCast_nonneg start) (hmul (by omega))
    rw [show ((0 : ℕ) : ℤ) = 0 from rfl] at h
    rw [h, show ((start : ℤ) - 0).toNat = start by omega,
      show ((stop : ℤ) - 1 + 1 - max (start : ℤ) 0).toNat = stop - start by omega]
  rw [copyElems, if_pos (hmul (by omega)), hcopy, bind_eq_bind, bind_some, if_pos]
  rw [length_take, length_drop]
  omega

theorem totalLen_eq (colls : List (List α)) : totalLen colls = colls.flatten.length := by
  rw [totalLen, length_flatten]

/-- The size of a share; the last one may be smaller. -/
def width (total ncpus : ℕ) : ℕ := (total + ncpus - 1) / ncpus

def piece (ncpus : ℕ) (input : List α) (lcpu : ℕ) : List α :=
  (input.drop (width input.length ncpus * lcpu)).take (width input.length ncpus)

theorem width_mul_lt (hcpus : 2 ≤ ncpus) (hlong : ncpus * ncpus * ncpus ≤ total) :
    width total ncpus * (ncpus - 1) < total ∧ total ≤ width total ncpus * ncpus := by
  have hmod : ncpus * width total ncpus + (total + ncpus - 1) % ncpus = total + ncpus - 1 :=
    Nat.div_add_mod _ _
  have hrest := Nat.mod_lt (total + ncpus - 1) (show 0 < ncpus by omega)
  have hsq : ncpus * ncpus * 1 ≤ ncpus * ncpus * ncpus := Nat.mul_le_mul_left _ (by omega)
  have hone : ncpus * 1 ≤ ncpus * ncpus := Nat.mul_le_mul_left _ (by omega)
  have hw : ncpus ≤ width total ncpus := by
    rw [width, Nat.le_div_iff_mul_le (by omega)]
    omega
  have hsub : width total ncpus * (ncpus - 1) = ncpus * width total ncpus - width total ncpus := by
    rw [Nat.mul_sub_one, Nat.mul_comm]
  have hcomm : width total ncpus * ncpus = ncpus * width total ncpus := Nat.mul_comm _ _
  rw [hsub, hcomm]
  generalize (total + ncpus - 1) % ncpus = rest at hmod hrest
  omega

theorem flatten_pieces (w n : ℕ) (input : List α) :
    ((range n).map fun i => (input.drop (w * i)).take w).flatten = input.take (w * n) := by
  induction n with
  | zero => simp
  | succ n ih =>
    rw [range_succ, map_append, flatten_append, ih]
    simp only [map_cons, map_nil, flatten_cons, flatten_nil, append_nil]
    rw [Nat.mul_succ, take_add]

theorem flatten_map_piece (hcpus : 2 ≤ ncpus) (hlong : ncpus * ncpus * ncpus ≤ input.length) :
    ((range ncpus).map (piece ncpus input)).flatten = input := by
  rw [show piece ncpus input = fun i => (input.drop (width input.length ncpus * i)).take
    (width input.length ncpus) from rfl, flatten_pieces]
  exact take_of_length_le (width_mul_lt hcpus hlong).2

theorem length_piece_pos (hcpus : 2 ≤ ncpus)
    (hlong : ncpus * ncpus * ncpus ≤ input.length) (hlcpu : lcpu < ncpus) :
    0 < (piece ncpus input lcpu).length := by
  obtain ⟨hlast, hall⟩ := width_mul_lt hcpus hlong
  have hstart := Nat.mul_le_mul_left (width input.length ncpus) (show lcpu ≤ ncpus - 1 by omega)
  have hpos : 0 < width input.length ncpus := by
    rcases Nat.eq_zero_or_pos (width input.length ncpus) with h0 | hpos
    · rw [h0, Nat.zero_mul] at hlast hall
      omega
    · exact hpos
  rw [piece, length_take, length_drop]
  omega

theorem share_of_long (hcpus : 1 ≤ ncpus) (hlong : ncpus * ncpus * ncpus ≤ total) :
    share total ncpus lcpu = (((width total ncpus * lcpu : ℕ) : ℤ),
      ((min (width total ncpus * (lcpu + 1)) total : ℕ) : ℤ) - 1) := by
  have hw : ((total : ℤ) + ncpus - 1) / ncpus = (width total ncpus : ℤ) := by
    rw [width, show (total : ℤ) + ncpus - 1 = ((total + ncpus - 1 : ℕ) : ℤ) by omega]
    rfl
  rw [share, if_neg (by omega)]
  simp only [hw]
  have hmul : (width total ncpus : ℤ) * (lcpu + 1) = ((width total ncpus * (lcpu + 1) : ℕ) : ℤ) := by
    simp
  rw [hmul, Prod.mk.injEq]
  refine ⟨by simp, ?_⟩
  split <;> omega

variable {c : Comparator α} (q : QSort c)

omit c q in
theorem copyElems_share (hcpus : 2 ≤ ncpus) (hlong : ncpus * ncpus * ncpus ≤ totalLen colls)
    (hbytes : totalLen colls * psz < 2 ^ 31) (hlcpu : lcpu < ncpus) :
    copyElems psz colls (share (totalLen colls) ncpus lcpu).1 (share (totalLen colls) ncpus lcpu).2 =
      some (piece ncpus colls.flatten lcpu) := by
  rw [totalLen_eq] at hlong hbytes ⊢
  obtain ⟨hlast, -⟩ := width_mul_lt hcpus hlong
  have hstart : width colls.flatten.length ncpus * lcpu ≤ colls.flatten.length := by
    have := Nat.mul_le_mul_left (width colls.flatten.length ncpus) (show lcpu ≤ ncpus - 1 by omega)
    omega
  have hnext : width colls.flatten.length ncpus * (lcpu + 1) =
      width colls.flatten.length ncpus * lcpu + width colls.flatten.length ncpus := Nat.mul_succ _ _
  rw [share_of_long (by omega) hlong, copyElems_eq (by omega) (by omega)
    (lt_of_le_of_lt (Nat.mul_le_mul_right psz (Nat.min_le_right _ _)) hbytes), piece]
  congr 1
  rw [take_eq_take_iff, length_drop]
  omega

theorem localPairs_of_long (hcpus : 2 ≤ ncpus) (hlong : ncpus * ncpus * ncpus ≤ totalLen colls)
    (hbytes : totalLen colls * psz < 2 ^ 31) (hlcpu : lcpu < ncpus) :
    localPairs psz q ncpus colls lcpu = some (q.sort (piece ncpus colls.flatten lcpu)) := by
  simp only [localPairs, copyElems_share hcpus hlong hbytes hlcpu, map_some]

omit c q in
theorem share_of_sequential (hseq : Sequential ncpus colls) :
    share (totalLen colls) ncpus 0 = (0, (totalLen colls : ℤ) - 1) := by
  by_cases hshort : totalLen colls < ncpus * ncpus * ncpus
  · rw [share, if_pos hshort]
  · obtain rfl := hseq.resolve_right hshort
    rw [share_of_long le_rfl (by omega)]
    simp [width]

theorem localPairs_of_sequential (hseq : Sequential ncpus colls) (hbytes : totalLen colls * psz < 2 ^ 31) :
    localPairs psz q ncpus colls 0 = some (q.sort colls.flatten) := by
  have hall : copyElems psz colls 0 (totalLen colls - 1) = some colls.flatten := by
    have h := @copyElems_eq _ _ colls 0 _ (Nat.zero_le _) le_rfl (totalLen_eq colls ▸ hbytes)
    rw [drop_zero, Nat.sub_zero, take_length] at h
    rw [totalLen_eq]
    exact h
  simp only [localPairs, share_of_sequential hseq, hall, map_some]

theorem localPivots_length (hl : 0 < l.length) :
    ∃ samples, localPivots ncpus l = some samples ∧ samples.length = ncpus - 1 := by
  have hread : ∀ i ∈ range (ncpus - 1), ∃ x, (if (i + 1) * ((l.length + ncpus - 1) / ncpus) < l.length
      then l[(i + 1) * ((l.length + ncpus - 1) / ncpus)]? else arrElem l (l.length - 1)) = some x ∧ True := by
    intro i _
    split
    · next h => exact ⟨_, getElem?_eq_getElem h, trivial⟩
    · rw [show (l.length : ℤ) - 1 = ((l.length - 1 : ℕ) : ℤ) by omega, arrElem_natCast]
      exact ⟨_, getElem?_eq_getElem (by omega), trivial⟩
  obtain ⟨samples, hsamples, hall⟩ := Fallible.mapM_forall₂ hread
  exact ⟨samples, hsamples, by simpa using hall.length_eq.symm⟩

structure Ordered (c : Comparator α) (ncpus : ℕ) (pivots : List α) : Prop where
  length : ncpus ≤ pivots.length
  mono : ∀ i j x y, 1 ≤ i → i ≤ j → j < ncpus → pivots[i]? = some x → pivots[j]? = some y → c.le x y

/-- The first `m` turns of the selection: nothing is read that was overwritten. -/
theorem selectPivots_turns {samples : List α} (hcpus : 2 ≤ ncpus)
    (hlen : samples.length = ncpus * (ncpus - 1)) (m : ℕ) (hm : m ≤ ncpus - 1) :
    ∃ pivots, (range m).foldlM (fun pivots i => do
        let x ← pivots[i * ncpus + ncpus / 2]?
        pure (pivots.set (i + 1) x)) samples = some pivots ∧
      pivots.length = samples.length ∧
      (∀ i, i < m → pivots[i + 1]? = samples[i * ncpus + ncpus / 2]?) ∧
      ∀ i, m < i → pivots[i]? = samples[i]? := by
  induction m with
  | zero => exact ⟨samples, rfl, rfl, by simp, by simp⟩
  | succ m ih =>
    obtain ⟨pivots, hfold, hlength, hset, hrest⟩ := ih (by omega)
    have hmul : m * ncpus ≤ (ncpus - 2) * ncpus := Nat.mul_le_mul_right _ (by omega)
    have hm1 : m * 1 ≤ m * ncpus := Nat.mul_le_mul_left _ (by omega)
    have htotal : ncpus * (ncpus - 1) = (ncpus - 2) * ncpus + ncpus := by
      obtain ⟨k, rfl⟩ : ∃ k, ncpus = k + 2 := ⟨ncpus - 2, by omega⟩
      simp only [Nat.add_sub_cancel, show k + 2 - 1 = k + 1 by omega]
      rw [Nat.mul_comm, Nat.succ_mul]
    have hread : m * ncpus + ncpus / 2 < samples.length := by omega
    have hx : pivots[m * ncpus + ncpus / 2]? = some samples[m * ncpus + ncpus / 2] := by
      rw [hrest _ (by omega), getElem?_eq_getElem hread]
    refine ⟨pivots.set (m + 1) samples[m * ncpus + ncpus / 2], ?_, by simp [hlength], ?_, ?_⟩
    · rw [range_succ, foldlM_append, hfold]
      simp [hx]
    · intro i hi
      rcases Nat.lt_succ_iff_lt_or_eq.mp hi with hi | rfl
      · rw [getElem?_set_ne (by omega), hset i hi]
      · rw [getElem?_set_self (by omega), getElem?_eq_getElem hread]
    · intro i hi
      rw [getElem?_set_ne (by omega), hrest i (by omega)]

theorem selectPivots_ordered (hcpus : 2 ≤ ncpus)
    (hlen : samples.length = ncpus * (ncpus - 1)) (hsorted : samples.Pairwise c.le) :
    ∃ pivots, selectPivots ncpus samples = some pivots ∧ Ordered c ncpus pivots ∧
      pivots[ncpus - 1]? = samples[(ncpus - 2) * ncpus + ncpus / 2]? := by
  obtain ⟨pivots, hfold, hlength, hset, -⟩ := selectPivots_turns hcpus hlen (ncpus - 1) le_rfl
  have hle : ncpus ≤ pivots.length := by
    rw [hlength, hlen]
    exact Nat.le_mul_of_pos_right _ (by omega)
  refine ⟨pivots, hfold, ⟨hle, ?_⟩, by rw [show ncpus - 1 = ncpus - 2 + 1 by omega, hset _ (by omega)]⟩
  intro i j x y hi hij hj hx hy
  rw [← Nat.sub_add_cancel hi, hset _ (by omega)] at hx
  rw [← Nat.sub_add_cancel (hi.trans hij), hset _ (by omega)] at hy
  obtain ⟨hilt, rfl⟩ := List.getElem?_eq_some_iff.mp hx
  obtain ⟨hjlt, rfl⟩ := List.getElem?_eq_some_iff.mp hy
  rcases Nat.eq_or_lt_of_le hij with rfl | hlt
  · exact le_refl _
  · refine pairwise_iff_getElem.mp hsorted _ _ hilt hjlt ?_
    have := Nat.mul_lt_mul_of_pos_right (show i - 1 < j - 1 by omega) (show 0 < ncpus by omega)
    omega

/-- The number of elements at most `pv`. -/
def upto (c : Comparator α) (l : List α) (pv : α) : ℕ := l.countP fun x => c.le x pv

/-- Of the elements from `start` up to `stop`, two at least are greater than the pivot in the
middle, and so on for the pivots below it, with the elements at most this one, and for those above
it, with the other elements. -/
def fits (c : Comparator α) (l pivots : List α) : ℕ → ℕ → ℕ → ℕ → ℕ → Bool
  | 0, _, _, _, _ => false
  | fuel + 1, start, stop, fp, lp =>
    let mid := (fp + lp) / 2
    match pivots[mid]? with
    | none => false
    | some pv =>
      let pos := upto c l pv
      decide (start + 2 ≤ stop ∧ pos + 2 ≤ stop) &&
        (!decide (fp < mid ∧ start < pos) || fits c l pivots fuel start pos fp (mid - 1)) &&
        (!decide (mid < lp ∧ pos < stop) || fits c l pivots fuel pos stop (mid + 1) lp)

theorem lt_of_upto_le (hl : l.Pairwise c.le) (hpos : upto c l pv ≤ i) (hi : i < l.length) :
    c.lt pv l[i] := by
  by_contra hnot
  have hall : (l.take (i + 1)).countP (fun x => c.le x pv) = (l.take (i + 1)).length := by
    refine countP_eq_length.mpr fun x hx => decide_eq_true ?_
    obtain ⟨j, hj, rfl⟩ := mem_take_iff_getElem.mp hx
    refine Comparator.le_trans ?_ (not_lt.mp hnot)
    rcases Nat.lt_or_eq_of_le (show j ≤ i by omega) with hlt | rfl
    · exact pairwise_iff_getElem.mp hl j i (by omega) hi hlt
    · exact Comparator.le_refl _
  have hle : (l.take (i + 1)).countP (fun x => c.le x pv) ≤ upto c l pv :=
    (take_sublist _ _).countP_le
  rw [hall, length_take] at hle
  omega

theorem arrElem_slice (l : List α) (s n : ℕ) :
    Holds (fun i => arrElem l (s + i)) ((l.drop s).take n) := by
  intro i hi
  rw [length_take, length_drop] at hi
  have hin : i < n := by omega
  rw [getElem?_take_of_lt hin, getElem?_drop, ← arrElem_natCast]
  congr 1

theorem splits_of_upto {s e : ℕ} (hl : l.Pairwise c.le) (hshort : l.length ≤ 2 ^ 30 + 4)
    (he : e ≤ l.length) (hbefore : ∀ x ∈ l.take s, c.le x pv) (hse : s + 2 ≤ e)
    (hpos : upto c l pv + 2 ≤ e) :
    ∃ r : ℕ, bsearchLar c.cmp pv (fun i => arrElem l (s + i)) ((e : ℤ) - 1 - s - 1) = some (r : ℤ) ∧
      Splits c pv l (s + r) := by
  have habove : c.lt pv l[e - 2] := lt_of_upto_le hl (by omega) (by omega)
  have hlen : ((l.drop s).take (e - 2 - s)).length = e - 2 - s := by
    rw [length_take, length_drop]
    omega
  obtain ⟨r, hr, hsplit⟩ := bsearchLar_spec pv
    ((hl.drop (i := s)).take (i := e - 2 - s)) (arrElem_slice l s (e - 2 - s)) (by rw [hlen]; omega)
  rw [hlen, show ((e - 2 - s : ℕ) : ℤ) = (e : ℤ) - 1 - s - 1 by omega] at hr
  have hle := hsplit.le_length
  rw [hlen] at hle
  refine ⟨r, hr, by omega, ?_, ?_⟩
  · intro x hx
    rw [take_add] at hx
    rcases mem_append.mp hx with hx | hx
    · exact hbefore x hx
    · refine hsplit.before x ?_
      rwa [take_take, Nat.min_eq_left hle]
  · intro x hx
    have hcut : l.drop (s + r) = ((l.drop s).take (e - 2 - s)).drop r ++ l.drop (e - 2) := by
      rw [drop_take, drop_drop]
      conv_lhs => rw [← take_append_drop (e - 2 - s - r) (l.drop (s + r))]
      rw [drop_drop, show s + r + (e - 2 - s - r) = e - 2 by omega]
    rw [hcut] at hx
    rcases mem_append.mp hx with hx | hx
    · exact hsplit.after x hx
    · exact lt_of_lt_of_le habove (le_of_mem_drop hl (by omega) hx)

structure SortedRange (c : Comparator α) (pivots : List α) (first last : ℕ) : Prop where
  length : last < pivots.length
  mono : ∀ i j x y, first ≤ i → i ≤ j → j ≤ last → pivots[i]? = some x → pivots[j]? = some y → c.le x y

/-- `sub` is `old` with the boundaries for the pivots from `a` up to `b` put in their places. -/
structure CutBetween (c : Comparator α) (l pivots : List α) (a b : ℕ) (old sub : ℕ → ℤ) : Prop where
  keep : ∀ k, k < a ∨ b ≤ k → sub k = old k
  cut : ∀ k p, a ≤ k → k < b → pivots[k]? = some p → ∃ r : ℕ, sub k = r ∧ Splits c p l r

namespace CutBetween

theorem of_le (h : b ≤ a) : CutBetween c l pivots a b old old where
  keep _ _ := rfl
  cut _ _ ha hb := by omega

theorem filled (hs : ∀ k p, a ≤ k → k < b → pivots[k]? = some p → Splits c p l s) :
    CutBetween c l pivots a b old (fill old a b s) where
  keep _ hk := if_neg (by omega)
  cut k p ha hb hp := ⟨s, if_pos ⟨ha, hb⟩, hs k p ha hb hp⟩

/-- The boundary in the middle, then those below it, then those above. -/
theorem around (ham : a ≤ mid) (hmb : mid < b) (hpv : pivots[mid]? = some pv)
    (hsplit : Splits c pv l pos) (hleft : CutBetween c l pivots a mid (update old mid (pos : ℤ)) sub)
    (hright : CutBetween c l pivots (mid + 1) b sub sub') : CutBetween c l pivots a b old sub' where
  keep k hk := by
    rw [hright.keep k (by omega), hleft.keep k (by omega), update_of_ne (by omega)]
  cut k p hk hkb hpk := by
    rcases Nat.lt_trichotomy k mid with hkm | rfl | hkm
    · rw [hright.keep k (by omega)]
      exact hleft.cut k p hk hkm hpk
    · rw [hright.keep k (by omega), hleft.keep k (by omega), update_self]
      obtain rfl : pv = p := some.inj (hpv.symm.trans hpk)
      exact ⟨pos, rfl, hsplit⟩
    · exact hright.cut k p hkm hkb hpk

end CutBetween

theorem sublists_spec (hl : l.Pairwise c.le) (hshort : l.length ≤ 2 ^ 30 + 4) (hp : SortedRange c pivots first last)
    (fuel s e fp lp : ℕ) (subsize : ℕ → ℤ) (he : e ≤ l.length) (hse : s ≤ e) (hfp : first ≤ fp)
    (hle : fp ≤ lp) (hlp : lp ≤ last)
    (hbefore : ∀ k p x, fp ≤ k → k ≤ lp → pivots[k]? = some p → x ∈ l.take s → c.le x p)
    (hfit : fits c l pivots fuel s e fp lp = true) :
    ∃ sub, sublists c.cmp (arrElem l) pivots fuel s (e - 1) subsize fp lp = some sub ∧
      CutBetween c l pivots fp (lp + 1) subsize sub := by
  induction fuel generalizing s e fp lp subsize with
  | zero => simp [fits] at hfit
  | succ fuel ih =>
    obtain ⟨mid, hmid⟩ : ∃ mid, mid = (fp + lp) / 2 := ⟨_, rfl⟩
    have hmidlt : mid < pivots.length := by
      have := hp.length
      omega
    obtain ⟨pv, hpv⟩ : ∃ pv, pivots[mid]? = some pv := ⟨_, getElem?_eq_getElem hmidlt⟩
    rw [fits] at hfit
    simp only [← hmid, hpv] at hfit
    simp only [Bool.and_eq_true, decide_eq_true_eq] at hfit
    obtain ⟨⟨⟨hse, hupto⟩, hleft⟩, hright⟩ := hfit
    obtain ⟨r, hb, hsplit⟩ := splits_of_upto hl hshort he
      (fun x => hbefore mid pv x (by omega) (by omega) hpv) hse hupto
    rw [upto, hsplit.countP_eq] at hupto hleft hright
    have hpos : (r : ℤ) + s = ((s + r : ℕ) : ℤ) := by omega
    -- the pivots below mid cut the part before the boundary
    obtain ⟨sub, hsub, hcut⟩ : ∃ sub, (if fp < mid then
          if (s : ℤ) < ((s + r : ℕ) : ℤ) then
            sublists c.cmp (arrElem l) pivots fuel s (((s + r : ℕ) : ℤ) - 1)
              (update subsize mid ((s + r : ℕ) : ℤ)) fp (mid - 1)
          else some (fill (update subsize mid ((s + r : ℕ) : ℤ)) fp mid s)
        else some (update subsize mid ((s + r : ℕ) : ℤ))) = some sub ∧
        CutBetween c l pivots fp mid (update subsize mid ((s + r : ℕ) : ℤ)) sub := by
      by_cases hfm : fp < mid
      · rw [if_pos hfm]
        by_cases hr0 : r = 0
        · subst hr0
          rw [if_neg (by omega)]
          refine ⟨_, rfl, .filled fun k p hk hkm hpk => ⟨by omega, fun x => hbefore k p x hk (by omega) hpk, ?_⟩⟩
          intro x hx
          exact lt_of_le_of_lt (hp.mono k mid p pv (by omega) hkm.le (by omega) hpk hpv)
            (hsplit.after x hx)
        · rw [if_pos (by omega)]
          simp only [hfm, show s < s + r by omega, and_self, decide_true,
            Bool.not_true, Bool.false_or] at hleft
          obtain ⟨sub, hsub, hcut⟩ := ih s (s + r) fp (mid - 1) _ (by omega) (by omega) hfp
            (by omega) (by omega)
            (fun k p x hk hkm => hbefore k p x hk (by omega)) hleft
          rw [Nat.sub_add_cancel (by omega)] at hcut
          exact ⟨sub, hsub, hcut⟩
      · rw [if_neg hfm]
        exact ⟨_, rfl, .of_le (by omega)⟩
    -- the pivots above mid cut the part behind it
    obtain ⟨sub', hsub', hcut'⟩ : ∃ sub', (if mid < lp then
          if ((s + r : ℕ) : ℤ) ≤ (e : ℤ) - 1 then
            sublists c.cmp (arrElem l) pivots fuel ((s + r : ℕ) : ℤ) ((e : ℤ) - 1) sub (mid + 1) lp
          else some (fill sub (mid + 1) (lp + 1) ((e : ℤ) - 1 + 1))
        else some sub) = some sub' ∧ CutBetween c l pivots (mid + 1) (lp + 1) sub sub' := by
      by_cases hml : mid < lp
      · rw [if_pos hml, if_pos (by omega)]
        simp only [hml, show s + r < e by omega, and_self, decide_true,
          Bool.not_true, Bool.false_or] at hright
        exact ih (s + r) e (mid + 1) lp sub he (by omega) (by omega) (by omega) hlp
          (fun k p x hk hkl hpk hx => le_trans (hsplit.before x hx)
            (hp.mono mid k pv p (by omega) (by omega) (by omega) hpv hpk)) hright
      · rw [if_neg hml]
        exact ⟨_, rfl, .of_le (by omega)⟩
    refine ⟨sub', ?_, hcut.around (by omega) (by omega) hpv hsplit hcut'⟩
    simp only [sublists, ← hmid, hpv, hb, bind_eq_bind, bind_some, hpos, hsub, hsub']

structure Cut (c : Comparator α) (ncpus : ℕ) (pivots : List α) (s : List α × (ℕ → ℤ)) : Prop where
  sorted : s.1.Pairwise c.le
  first : s.2 0 = 0
  last : s.2 ncpus = s.1.length
  inner : ∀ k p, 1 ≤ k → k < ncpus → pivots[k]? = some p → ∃ r : ℕ, s.2 k = r ∧ Splits c p s.1 r

def part (s : List α × (ℕ → ℤ)) (k : ℕ) : List α :=
  (s.1.drop (s.2 k).toNat).take (s.2 (k + 1) - s.2 k).toNat

namespace Cut

section

variable {pivots : List α} {s : List α × (ℕ → ℤ)} (h : Cut c ncpus pivots s)

include h

section

variable (hp : Ordered c ncpus pivots)

include hp

theorem exists_bound (k : ℕ)
    (hk : k ≤ ncpus) : ∃ r : ℕ, s.2 k = r ∧ r ≤ s.1.length := by
  rcases Nat.eq_zero_or_pos k with rfl | hpos
  · exact ⟨0, h.first, Nat.zero_le _⟩
  rcases Nat.eq_or_lt_of_le hk with rfl | hlt
  · exact ⟨_, h.last, le_rfl⟩
  have hlen := hp.length
  obtain ⟨r, hr, hsplit⟩ := h.inner k _ hpos hlt (getElem?_eq_getElem (by omega))
  exact ⟨r, hr, hsplit.le_length⟩

theorem mono (hk : k < ncpus) :
    s.2 k ≤ s.2 (k + 1) := by
  have hlen := hp.length
  rcases Nat.eq_zero_or_pos k with rfl | hpos
  · obtain ⟨r, hr, -⟩ := h.exists_bound hp 1 hk
    rw [h.first, hr]
    omega
  rcases Nat.eq_or_lt_of_le (Nat.succ_le_of_lt hk) with hlast | hlt
  · obtain ⟨r, hr, hle⟩ := h.exists_bound hp k hk.le
    rw [Nat.succ_eq_add_one] at hlast
    rw [hlast, h.last, hr]
    omega
  obtain ⟨r, hr, hsplit⟩ := h.inner k _ hpos hk (getElem?_eq_getElem (by omega))
  obtain ⟨r', hr', hsplit'⟩ := h.inner (k + 1) _ (by omega) hlt (getElem?_eq_getElem (by omega))
  have hle := hsplit.mono hsplit' (hp.mono k (k + 1) _ _ hpos (by omega) hlt
    (getElem?_eq_getElem (by omega)) (getElem?_eq_getElem (by omega)))
  rw [hr, hr']
  omega

theorem slice_eq (hk : k < ncpus) :
    slice s.1 (s.2 k) (s.2 (k + 1)) = some (part s k) := by
  obtain ⟨r, hr, -⟩ := h.exists_bound hp k hk.le
  obtain ⟨r', hr', hle⟩ := h.exists_bound hp (k + 1) hk
  rw [slice, if_pos ⟨by omega, by omega⟩, part]

theorem length_part
    (hk : k < ncpus) : ((part s k).length : ℤ) = s.2 (k + 1) - s.2 k := by
  obtain ⟨r, hr, -⟩ := h.exists_bound hp k hk.le
  obtain ⟨r', hr', hle⟩ := h.exists_bound hp (k + 1) hk
  have hmono := h.mono hp hk
  rw [part, length_take, length_drop]
  omega

theorem flatten_parts :
    (range ncpus).flatMap (part s) = s.1 := by
  have htake : ∀ n, n ≤ ncpus → (range n).flatMap (part s) = s.1.take (s.2 n).toNat := by
    intro n hn
    induction n with
    | zero => simp [h.first]
    | succ n ih =>
      have hmono := h.mono hp (k := n) hn
      obtain ⟨r, hr, -⟩ := h.exists_bound hp n (by omega)
      rw [range_succ, flatMap_append, ih (by omega), flatMap_singleton, part, ← take_add]
      congr 1
      omega
  rw [htake ncpus le_rfl, h.last, Int.toNat_natCast, take_length]

theorem between
    (hk : k < ncpus) (hx : x ∈ part s k) :
    (1 ≤ k → pivots[k]? = some p → c.lt p x) ∧
      (k + 1 < ncpus → pivots[k + 1]? = some p → c.le x p) := by
  constructor
  · intro hpos hpk
    obtain ⟨r, hr, hsplit⟩ := h.inner k p hpos hk hpk
    refine hsplit.after x ?_
    rw [part, hr, Int.toNat_natCast] at hx
    exact mem_of_mem_take hx
  · intro hlt hpk
    obtain ⟨r, hr, hsplit⟩ := h.inner (k + 1) p (by omega) hlt hpk
    refine hsplit.before x ?_
    obtain ⟨a, ha, -⟩ := h.exists_bound hp k hk.le
    rw [part, hr, ha, Int.toNat_natCast, show ((r : ℤ) - a).toNat = r - a by omega,
      ← drop_take] at hx
    exact mem_of_mem_drop hx

end

theorem sorted_part (k : ℕ) : (part s k).Pairwise c.le :=
  (h.sorted.drop).take

end

end Cut

/-- Parts of different CPUs are apart, whatever shares they come from: elements that
compare equal go to the same CPU. -/
theorem lt_of_parts (hp : Ordered c ncpus pivots)
    (h : Cut c ncpus pivots s) (h' : Cut c ncpus pivots s') (hkk : k < k')
    (hk : k' < ncpus) (hx : x ∈ part s k) (hy : y ∈ part s' k') : c.lt x y := by
  have hlen := hp.length
  have hpk : pivots[k + 1]? = some pivots[k + 1] := getElem?_eq_getElem (by omega)
  have hpk' : pivots[k']? = some pivots[k'] := getElem?_eq_getElem (by omega)
  have hle := (h.between hp (p := pivots[k + 1]) (by omega) hx).2 (by omega) hpk
  have hgt := (h'.between hp (p := pivots[k']) hk hy).1 (by omega) hpk'
  exact lt_of_le_of_lt (le_trans hle (hp.mono (k + 1) k' _ _ (by omega) hkk hk hpk hpk')) hgt

theorem prepare_of_long (hcpus : 2 ≤ ncpus) (hlong : ncpus * ncpus * ncpus ≤ totalLen colls)
    (hbytes : totalLen colls * psz < 2 ^ 31) :
    ∃ pivots, prepare psz q ncpus colls =
        some ((range ncpus).map fun i => q.sort (piece ncpus colls.flatten i), pivots) ∧
      Ordered c ncpus pivots ∧ ∃ samples,
        Forall₂ (fun i s => localPivots ncpus (q.sort (piece ncpus colls.flatten i)) = some s) (range ncpus) samples ∧
        pivots[ncpus - 1]? = (q.sort samples.flatten)[(ncpus - 2) * ncpus + ncpus / 2]? := by
  have hpairs := Fallible.mapM_eq_some (l := range ncpus)
    (g := fun i => q.sort (piece ncpus colls.flatten i)) fun i hi =>
      localPairs_of_long q hcpus hlong hbytes (mem_range.mp hi)
  generalize hlp : (range ncpus).map (fun i => q.sort (piece ncpus colls.flatten i)) = lpairs
    at hpairs
  have hcount : lpairs.length = ncpus := by rw [← hlp, length_map, length_range]
  have hpos : ∀ l ∈ lpairs, 0 < l.length := by
    intro l hl
    rw [← hlp] at hl
    obtain ⟨i, hi, rfl⟩ := mem_map.mp hl
    rw [q.length_sort]
    exact length_piece_pos hcpus (totalLen_eq colls ▸ hlong) (mem_range.mp hi)
  obtain ⟨samples, hsamples, hall⟩ := Fallible.mapM_forall₂
    (P := fun (_ : List α) (ps : List α) => ps.length = ncpus - 1) fun l hl => localPivots_length (hpos l hl)
  have hlen : (q.sort samples.flatten).length = ncpus * (ncpus - 1) := by
    have hrep : samples.map length = replicate ncpus (ncpus - 1) := by
      rw [eq_replicate_iff, length_map, ← hall.length_eq]
      refine ⟨hcount, fun n hn => ?_⟩
      obtain ⟨ps, hps, rfl⟩ := mem_map.mp hn
      obtain ⟨l, -, h⟩ := Fallible.exists_of_mem_right hall hps
      exact h
    rw [q.length_sort, length_flatten, hrep, sum_replicate_nat]
  obtain ⟨pivots, hselect, hordered, hlast⟩ := selectPivots_ordered hcpus hlen (q.sorted _)
  refine ⟨pivots, ?_, hordered, samples, ?_, hlast⟩
  swap
  · have hread := Fallible.forall₂_of_mapM_eq_some hsamples
    rwa [← hlp, forall₂_map_left_iff] at hread
  simp only [prepare, hpairs, hsamples, hselect, bind_eq_bind, bind_some, Option.pure_def]

end Mosbench.Metis.Psrs
