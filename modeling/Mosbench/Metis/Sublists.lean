import Mosbench.Metis.Shares

/-!
The splitting step of the parallel sort on a slice of an array. Of the array only the slice can
be read. The length that sublists hands to the search is too short by two, so the boundaries are
right only where each pivot has two greater elements in its part of the slice.
-/
namespace Mosbench.Metis.Psrs

open List Option Function
open KeyComparator (difference)

/-- An array of which only the elements of `l` can be read, the first of them at `start`. -/
def window (start : ℤ) (l : List α) (i : ℤ) : Option α := arrElem l (i - start)

def shift (start : ℤ) (subsize : ℕ → ℤ) : ℕ → ℤ := fun k => start + subsize k

theorem shift_update (start : ℤ) (subsize : ℕ → ℤ) (i : ℕ) (v : ℤ) :
    update (shift start subsize) i (start + v) = shift start (update subsize i v) := by
  funext k
  by_cases hk : k = i
  · rw [hk, shift, update_self, update_self]
  · rw [shift, update_of_ne hk, update_of_ne hk, shift]

theorem shift_fill (start : ℤ) (subsize : ℕ → ℤ) (a b : ℕ) (v : ℤ) :
    fill (shift start subsize) a b (start + v) = shift start (fill subsize a b v) := by
  funext k
  simp only [fill, shift]
  split_ifs
  · rfl
  · rfl

theorem sublists_window (cmp : α → α → ℤ) (start : ℤ) (l pivots : List α) (fuel : ℕ) (s e : ℤ)
    (subsize : ℕ → ℤ) (fp lp : ℕ) :
    sublists cmp (window start l) pivots fuel (start + s) (start + e) (shift start subsize) fp lp =
      (sublists cmp (arrElem l) pivots fuel s e subsize fp lp).map (shift start) := by
  induction fuel generalizing s e subsize fp lp with
  | zero => rfl
  | succ fuel ih =>
    have helem : (fun i => window start l (start + s + i)) = fun i => arrElem l (s + i) := by
      funext i
      rw [window]
      congr 1
      omega
    have hlen : start + e - (start + s) - 1 = e - s - 1 := by omega
    simp only [sublists, helem, hlen, bind_eq_bind, map_bind]
    congr 1
    funext pv
    simp only [comp_apply, map_bind]
    congr 1
    funext found
    have hpos : found + (start + s) = start + (found + s) := by omega
    have hbefore : start + (found + s) - 1 = start + (found + s - 1) := by omega
    have hend : start + e + 1 = start + (e + 1) := by omega
    have hlt : start + s < start + (found + s) ↔ s < found + s := by omega
    have hle : start + (found + s) ≤ start + e ↔ found + s ≤ e := by omega
    simp only [hpos, hbefore, hend, hlt, hle, shift_update]
    -- both sides go on with what the pivots below leave
    have hleft : ∀ sub, (if fp < (fp + lp) / 2 then
          if s < found + s then sublists cmp (window start l) pivots fuel (start + s) (start + (found + s - 1))
            (shift start sub) fp ((fp + lp) / 2 - 1)
          else some (fill (shift start sub) fp ((fp + lp) / 2) (start + s))
        else some (shift start sub)) =
        (if fp < (fp + lp) / 2 then
          if s < found + s then sublists cmp (arrElem l) pivots fuel s (found + s - 1) sub fp ((fp + lp) / 2 - 1)
          else some (fill sub fp ((fp + lp) / 2) s)
        else some sub).map (shift start) := by
      intro sub
      split_ifs
      · exact ih s (found + s - 1) sub fp _
      · rw [shift_fill, map_some]
      · rfl
    rw [hleft, bind_map]
    congr 1
    funext sub
    simp only [comp_apply]
    split_ifs
    · exact ih (found + s) e sub _ lp
    · rw [shift_fill, map_some]
    · rfl

section Exact

variable {l : List α}

theorem sublists_eq_some {cmp : α → α → ℤ} {lp : ℕ}
    (h : sublists cmp (arrElem l) pivots (fuel + 1) start last subsize fp lp = some sub) :
    ∃ pv found below, pivots[(fp + lp) / 2]? = some pv ∧
      bsearchLar cmp pv (fun i => arrElem l (start + i)) (last - start - 1) = some found ∧
      (if fp < (fp + lp) / 2 then
        if start < found + start then
          sublists cmp (arrElem l) pivots fuel start (found + start - 1)
            (update subsize ((fp + lp) / 2) (found + start)) fp ((fp + lp) / 2 - 1)
        else some (fill (update subsize ((fp + lp) / 2) (found + start)) fp ((fp + lp) / 2) start)
      else some (update subsize ((fp + lp) / 2) (found + start))) = some below ∧
      (if (fp + lp) / 2 < lp then
        if found + start ≤ last then
          sublists cmp (arrElem l) pivots fuel (found + start) last below ((fp + lp) / 2 + 1) lp
        else some (fill below ((fp + lp) / 2 + 1) (lp + 1) (last + 1))
      else some below) = some sub := by
  rw [sublists] at h
  obtain ⟨pv, hpv, h⟩ := bind_eq_some_iff.mp h
  obtain ⟨found, hfound, h⟩ := bind_eq_some_iff.mp h
  obtain ⟨below, hbelow, h⟩ := bind_eq_some_iff.mp h
  exact ⟨pv, found, below, hpv, hfound, hbelow, h⟩

theorem sublists_frame {cmp : α → α → ℤ} {lp : ℕ}
    (hle : fp ≤ lp) (h : sublists cmp (arrElem l) pivots fuel start last subsize fp lp = some sub) (k : ℕ)
    (hk : k < fp ∨ lp < k) : sub k = subsize k := by
  induction fuel generalizing start last subsize sub fp lp with
  | zero => simp [sublists] at h
  | succ fuel ih =>
    obtain ⟨pv, found, below, -, -, hbelow, habove⟩ := sublists_eq_some h
    have hleft : below k = update subsize ((fp + lp) / 2) (found + start) k := by
      split_ifs at hbelow with hfp hpos
      · exact ih (by omega) hbelow (by omega)
      · obtain rfl := some.inj hbelow
        exact if_neg (by omega)
      · obtain rfl := some.inj hbelow
        rfl
    have hright : sub k = below k := by
      split_ifs at habove with hlp hpos
      · exact ih (by omega) habove (by omega)
      · obtain rfl := some.inj habove
        exact if_neg (by omega)
      · obtain rfl := some.inj habove
        rfl
    rw [hright, hleft, update_of_ne (by omega)]

theorem add_two_le_of_splits {r : ℕ} (hl : l.Pairwise c.le) (hshort : l.length ≤ 2 ^ 30 + 4) (hse : s < e)
    (he : e ≤ l.length) (hbefore : ∀ x ∈ l.take s, c.le x pv)
    (hfound : bsearchLar c.cmp pv (fun i => arrElem l (s + i)) ((e : ℤ) - 1 - s - 1) = some found)
    (hr : found + s = r) (hsplit : Splits c pv l r) : s + 2 ≤ e ∧ r + 2 ≤ e := by
  rcases Nat.eq_or_lt_of_le (Nat.succ_le_of_lt hse) with heq | hlt
  · -- the slice has one element: the search reads the second one before it
    have hneg : (e : ℤ) - 1 - s - 1 = -1 := by omega
    rw [hneg, bsearchLar, if_neg (by omega)] at hfound
    obtain ⟨x, hx, hfound⟩ := bind_eq_some_iff.mp hfound
    have hs : 2 ≤ s := by
      by_contra hs
      rw [arrElem, if_neg (by omega)] at hx
      exact some_ne_none x hx.symm
    rw [show (s : ℤ) + (-1 - 1) = ((s - 2 : ℕ) : ℤ) by omega, arrElem_natCast] at hx
    obtain ⟨hlt, rfl⟩ := List.getElem?_eq_some_iff.mp hx
    have hle : c.le l[s - 2] pv := hbefore _ (mem_take_iff_getElem.mpr ⟨s - 2, by omega, rfl⟩)
    rw [if_pos (Comparator.nonneg_iff.mpr hle)] at hfound
    obtain rfl : -1 = found := some.inj hfound
    have hmem : l[s - 1] ∈ l.drop r := mem_drop_iff_getElem.mpr ⟨0, by omega, by congr 1; omega⟩
    have hmem' : l[s - 1] ∈ l.take s := mem_take_iff_getElem.mpr ⟨s - 1, by omega, rfl⟩
    exact absurd (hsplit.after _ hmem) (Comparator.not_lt.mpr (hbefore _ hmem'))
  · have hlen : ((l.drop s).take (e - 2 - s)).length = e - 2 - s := by
      rw [length_take, length_drop]
      omega
    obtain ⟨r', hr', hsplit'⟩ := bsearchLar_spec pv
      ((hl.drop (i := s)).take (i := e - 2 - s)) (arrElem_slice l s (e - 2 - s)) (by rw [hlen]; omega)
    rw [hlen, show ((e - 2 - s : ℕ) : ℤ) = (e : ℤ) - 1 - s - 1 by omega, hfound] at hr'
    obtain rfl : found = r' := some.inj hr'
    have hle := hsplit'.le_length
    rw [hlen] at hle
    omega

def SplitsAll (c : Comparator α) (l pivots : List α) (fp lp : ℕ) (sub : ℕ → ℤ) : Prop :=
  ∀ k p, fp ≤ k → k ≤ lp → pivots[k]? = some p → ∃ r : ℕ, sub k = r ∧ Splits c p l r

theorem fits_of_splits (hl : l.Pairwise c.le) (hshort : l.length ≤ 2 ^ 30 + 4) (hp : SortedRange c pivots first last)
    (fuel s e fp lp : ℕ) (subsize sub : ℕ → ℤ) (hse : s < e) (he : e ≤ l.length) (hfp : first ≤ fp)
    (hle : fp ≤ lp) (hlp : lp ≤ last)
    (hbefore : ∀ k p x, fp ≤ k → k ≤ lp → pivots[k]? = some p → x ∈ l.take s → c.le x p)
    (hsub : sublists c.cmp (arrElem l) pivots fuel s (e - 1) subsize fp lp = some sub)
    (hright : SplitsAll c l pivots fp lp sub) : fits c l pivots fuel s e fp lp = true := by
  induction fuel generalizing s e fp lp subsize sub with
  | zero => simp [sublists] at hsub
  | succ fuel ih =>
    obtain ⟨pv, found, below, hpv, hfound, hbelow, habove⟩ := sublists_eq_some hsub
    obtain ⟨mid, hmid⟩ : ∃ mid, mid = (fp + lp) / 2 := ⟨_, rfl⟩
    rw [← hmid] at hpv hbelow habove
    -- the calls for the other pivots leave the boundary of this one
    have hkeep : ∀ k, k ≤ mid → sub k = below k := by
      intro k hk
      split_ifs at habove with hml hpos
      · exact sublists_frame (by omega) habove k (by omega)
      · obtain rfl := some.inj habove
        exact if_neg (by omega)
      · obtain rfl := some.inj habove
        rfl
    have hbelowMid : below mid = found + s := by
      split_ifs at hbelow with hfm hpos
      · rw [sublists_frame (by omega) hbelow mid (by omega), update_self]
      · obtain rfl := some.inj hbelow
        rw [fill, if_neg (by omega), update_self]
      · obtain rfl := some.inj hbelow
        exact update_self ..
    obtain ⟨r, hr, hsplit⟩ := hright mid pv (by omega) (by omega) hpv
    have hpos : found + s = (r : ℤ) := by rw [← hbelowMid, ← hkeep mid le_rfl, hr]
    have htwo := add_two_le_of_splits hl hshort hse he (fun x => hbefore mid pv x (by omega) (by omega) hpv)
      hfound hpos hsplit
    have hrl := hsplit.le_length
    rw [hpos] at hbelow habove
    simp only [fits, ← hmid, hpv, upto, hsplit.countP_eq, htwo, and_self, decide_true, Bool.true_and,
      Bool.and_eq_true, Bool.or_eq_true, Bool.not_eq_true', decide_eq_false_iff_not]
    refine ⟨or_iff_not_imp_left.mpr fun hleft => ?_, or_iff_not_imp_left.mpr fun habv => ?_⟩
    · obtain ⟨hfm, hsr⟩ := not_not.mp hleft
      rw [if_pos hfm, if_pos (by omega)] at hbelow
      refine ih s r fp (mid - 1) _ below (by omega) hrl hfp (by omega) (by omega)
        (fun k p x hk hkm => hbefore k p x hk (by omega)) hbelow fun k p hk hkm hpk => ?_
      rw [← hkeep k (by omega)]
      exact hright k p hk (by omega) hpk
    · obtain ⟨hml, hre⟩ := not_not.mp habv
      rw [if_pos hml, if_pos (by omega)] at habove
      refine ih r e (mid + 1) lp below sub (by omega) he (by omega) (by omega) hlp
        (fun k p x hk hkl hpk hx => ?_) habove fun k p hk => hright k p (by omega)
      exact Comparator.le_trans (hsplit.before x hx)
        (hp.mono mid k pv p (by omega) (by omega) (by omega) hpv hpk)

end Exact

end Mosbench.Metis.Psrs
