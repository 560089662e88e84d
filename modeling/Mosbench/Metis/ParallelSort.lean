import Mathlib.Data.List.Perm.Basic
import Mathlib.Tactic.Linarith
import Mosbench.Metis.Sublists

/-!
The parallel sort as a whole. The output is sorted when the slices are apart. The search of
sublists is handed two elements too few, so that the last CPU gets the last two elements of each
share, whatever they are: there is always an input that comes out unsorted.
-/
namespace Mosbench.Metis.Psrs

open List Option Function
open KeyComparator (difference)

variable {c : Comparator α}

theorem minHead_spec (runs : List (List α)) (i : ℕ) (best : Option (ℕ × α)) :
    (minHead c.cmp runs i best = none → best = none ∧ ∀ run ∈ runs, run = []) ∧
    ∀ j x, minHead c.cmp runs i best = some (j, x) →
      (best = some (j, x) ∨ i ≤ j ∧ ∃ rest, runs[j - i]? = some (x :: rest)) ∧
      (∀ j' y, best = some (j', y) → c.le x y) ∧
      ∀ run ∈ runs, ∀ y, run.head? = some y → c.le x y := by
  induction runs generalizing i best with
  | nil =>
    refine ⟨fun h => ⟨h, by simp⟩, fun j x h => ⟨.inl h, ?_, by simp⟩⟩
    rintro j' y hy
    have hxy : (j, x) = (j', y) := some.inj (h.symm.trans hy)
    rw [(Prod.mk.inj hxy).2]
    exact Comparator.le_refl y
  | cons run runs ih =>
    cases run with
    | nil =>
      obtain ⟨hnone, hsome⟩ := ih (i + 1) best
      refine ⟨fun h => ?_, fun j x h => ?_⟩
      · obtain ⟨hbest, hall⟩ := hnone h
        exact ⟨hbest, by simpa using hall⟩
      · obtain ⟨hwhere, hle, hall⟩ := hsome j x h
        refine ⟨hwhere.imp_right ?_, hle, by simpa using hall⟩
        rintro ⟨hj, rest, hget⟩
        refine ⟨by omega, rest, ?_⟩
        rw [show j - i = (j - (i + 1)) + 1 by omega, getElem?_cons_succ]
        exact hget
    | cons z zs =>
      -- either this head is taken, or the best one so far stays and is not greater
      obtain ⟨b, hmin, hb⟩ : ∃ b, minHead c.cmp ((z :: zs) :: runs) i best =
          minHead c.cmp runs (i + 1) (some b) ∧ c.le b.2 z ∧
          (∀ j' y, best = some (j', y) → c.le b.2 y) ∧ (b = (i, z) ∨ best = some b) := by
        cases best with
        | none => exact ⟨(i, z), rfl, Comparator.le_refl z, by simp, .inl rfl⟩
        | some b =>
          obtain ⟨j', y⟩ := b
          by_cases hlt : 0 < c.cmp y z
          · refine ⟨(i, z), by rw [minHead, if_pos hlt], Comparator.le_refl z, ?_, .inl rfl⟩
            rintro _ _ ⟨⟩
            exact Comparator.le_of_lt (Comparator.pos_iff.mp hlt)
          · refine ⟨(j', y), by rw [minHead, if_neg hlt], ?_, ?_, .inr rfl⟩
            · exact Comparator.not_lt.mp fun h => hlt (Comparator.pos_iff.mpr h)
            · rintro _ _ ⟨⟩
              exact Comparator.le_refl y
      obtain ⟨hz, hle, hwhich⟩ := hb
      obtain ⟨hnone, hsome⟩ := ih (i + 1) (some b)
      rw [hmin]
      refine ⟨fun h => by simpa using (hnone h).1, fun j x h => ?_⟩
      obtain ⟨hwhere, hxb, hall⟩ := hsome j x h
      have hxb : c.le x b.2 := hxb b.1 b.2 rfl
      refine ⟨?_, fun j' y hy => Comparator.le_trans hxb (hle j' y hy), ?_⟩
      · rcases hwhere with hb | ⟨hj, rest, hget⟩
        · obtain rfl : b = (j, x) := some.inj hb
          rcases hwhich with heq | hbest
          · obtain ⟨rfl, rfl⟩ := Prod.mk.inj heq
            exact .inr ⟨le_rfl, zs, by simp⟩
          · exact .inl hbest
        · refine .inr ⟨by omega, rest, ?_⟩
          rw [show j - i = (j - (i + 1)) + 1 by omega, getElem?_cons_succ]
          exact hget
      · intro run hrun y hy
        rcases mem_cons.mp hrun with rfl | hrun
        · obtain rfl : z = y := some.inj hy
          exact Comparator.le_trans hxb hz
        · exact hall run hrun y hy

theorem perm_modify_tail {runs : List (List α)} (hget : runs[j]? = some (x :: rest)) :
    runs.flatten.Perm (x :: (runs.modify j tail).flatten) := by
  induction runs generalizing j with
  | nil => simp at hget
  | cons run runs ih =>
    cases j with
    | zero =>
      obtain rfl : run = x :: rest := some.inj hget
      exact Perm.refl _
    | succ j =>
      have hperm := (ih (by simpa using hget)).append_left run
      rw [modify_succ_cons, flatten_cons, flatten_cons]
      exact hperm.trans perm_middle

theorem sorted_modify_tail {runs : List (List α)} (j : ℕ) (hruns : ∀ run ∈ runs, run.Pairwise c.le) :
    ∀ run ∈ runs.modify j tail, run.Pairwise c.le := by
  intro run hrun
  obtain ⟨i, hi, rfl⟩ := mem_iff_getElem.mp hrun
  rw [length_modify] at hi
  rw [getElem_modify]
  split
  · exact (hruns _ (getElem_mem hi)).tail
  · exact hruns _ (getElem_mem hi)

theorem mergesort_spec (n : ℕ) (runs : List (List α)) (hruns : ∀ run ∈ runs, run.Pairwise c.le)
    (hn : n = runs.flatten.length) :
    ∃ out, mergesort c.cmp n runs = some out ∧ out.Perm runs.flatten ∧ out.Pairwise c.le := by
  induction n generalizing runs with
  | zero =>
    have hnil : runs.flatten = [] := length_eq_zero_iff.mp hn.symm
    exact ⟨[], rfl, by rw [hnil], Pairwise.nil⟩
  | succ n ih =>
    obtain ⟨hnone, hsome⟩ := minHead_spec (c := c) runs 0 none
    cases hmin : minHead c.cmp runs 0 none with
    | none =>
      have hnil : runs.flatten = [] := flatten_eq_nil_iff.mpr (hnone hmin).2
      rw [hnil] at hn
      simp at hn
    | some best =>
      obtain ⟨j, x⟩ := best
      obtain ⟨hwhere, -, hleast⟩ := hsome j x hmin
      obtain ⟨rest, hget⟩ : ∃ rest, runs[j]? = some (x :: rest) := by simpa using hwhere
      have hperm := perm_modify_tail hget
      obtain ⟨out, hout, houtp, houts⟩ := ih (runs.modify j tail) (sorted_modify_tail j hruns)
        (by have := hperm.length_eq; simp only [length_cons] at this; omega)
      refine ⟨x :: out, by simp [mergesort, hmin, hout], (houtp.cons x).trans hperm.symm, ?_⟩
      refine pairwise_cons.mpr ⟨fun y hy => ?_, houts⟩
      -- y is in some run, and the head of that run is not smaller than x
      have hmem : y ∈ runs.flatten := hperm.mem_iff.mpr (mem_cons_of_mem x (houtp.mem_iff.mp hy))
      obtain ⟨run, hrun, hyrun⟩ := mem_flatten.mp hmem
      cases run with
      | nil => simp at hyrun
      | cons z zs =>
        have hxz : c.le x z := hleast _ hrun z rfl
        rcases mem_cons.mp hyrun with rfl | hyzs
        · exact hxz
        · exact Comparator.le_trans hxz ((pairwise_cons.mp (hruns _ hrun)).1 y hyzs)

theorem flatMap_swap_perm (l : List β) (l' : List γ) (f : β → γ → List α) :
    (l.flatMap fun a => l'.flatMap (f a)).Perm (l'.flatMap fun b => l.flatMap fun a => f a b) := by
  induction l with
  | nil => simp
  | cons a l ih =>
    simp only [flatMap_cons]
    exact (ih.append_left _).trans (flatMap_append_perm l' (f a) _)

theorem flatten_perm_of_forall₂ {f : β → List α} {l : List β}
    (h : Forall₂ (fun k out => out.Perm (f k)) l outs) : outs.flatten.Perm (l.flatMap f) := by
  induction h with
  | nil => exact .refl _
  | cons hout _ ih => exact hout.append ih

variable {shares : Shares α} {pivots : List α}

section

variable (hp : Ordered c ncpus pivots)

include hp

section

variable (hcut : ∀ s ∈ shares, Cut c ncpus pivots s)

include hcut

theorem slices_of_cut
    (hk : k < ncpus) : slices shares k = some (shares.map fun s => part s k) :=
  Fallible.mapM_eq_some fun s hs => (hcut s hs).slice_eq hp hk

theorem partsize_of_cut
    (hk : k < ncpus) :
    partsize shares k = ((shares.map fun s => part s k).flatten.length : ℤ) := by
  induction shares with
  | nil => rfl
  | cons s shares ih =>
    have hrest := ih fun s' hs' => hcut s' (mem_cons_of_mem s hs')
    have hlen := (hcut s mem_cons_self).length_part hp hk
    rw [partsize] at hrest ⊢
    rw [map_cons, sum_cons, hrest, ← hlen, map_cons, flatten_cons, length_append, Int.natCast_add]

theorem mergePart_spec
    (hk : k < ncpus) :
    ∃ out, mergePart c.cmp shares k = some out ∧
      out.Perm (shares.flatMap fun s => part s k) ∧ out.Pairwise c.le := by
  have hruns : ∀ run ∈ shares.map fun s => part s k, run.Pairwise c.le := by
    intro run hrun
    obtain ⟨s, hs, rfl⟩ := mem_map.mp hrun
    exact (hcut s hs).sorted_part k
  obtain ⟨out, hout, hperm, hsorted⟩ := mergesort_spec _ _ hruns rfl
  refine ⟨out, ?_, by rwa [flatMap_def], hsorted⟩
  simp only [mergePart, slices_of_cut hp hcut hk, partsize_of_cut hp hcut hk, bind_eq_bind,
    bind_some, Int.natCast_nonneg, if_true, Int.toNat_natCast, hout]

theorem parts_perm :
    ((range ncpus).flatMap fun k => shares.flatMap fun s => part s k).Perm (shares.map Prod.fst).flatten := by
  have hshares : (shares.map Prod.fst).flatten = shares.flatMap fun s => (range ncpus).flatMap (part s) := by
    rw [← flatMap_def]
    exact flatMap_congr fun s hs => ((hcut s hs).flatten_parts hp).symm
  rw [hshares]
  exact flatMap_swap_perm _ _ _

end

end

structure Merged (c : Comparator α) (ncpus : ℕ) (shares : Shares α) (outs : List (List α)) : Prop where
  length : outs.length = ncpus
  perm : ∀ k (hk : k < outs.length), outs[k].Perm (shares.flatMap fun s => part s k)
  sorted : ∀ k (hk : k < outs.length), outs[k].Pairwise c.le

theorem merge_of_cut (hp : Ordered c ncpus pivots) (hcut : ∀ s ∈ shares, Cut c ncpus pivots s) :
    ∃ outs, (range ncpus).mapM (mergePart c.cmp shares) = some outs ∧ Merged c ncpus shares outs := by
  obtain ⟨outs, houts, hall⟩ := Fallible.mapM_forall₂ (f := mergePart c.cmp shares) (l := range ncpus)
    fun k hk => mergePart_spec hp hcut (mem_range.mp hk)
  have hindex : ∀ k (hk : k < outs.length),
      outs[k].Perm (shares.flatMap fun s => part s k) ∧ outs[k].Pairwise c.le := by
    intro k hk
    have h := hall.get (hall.length_eq ▸ hk) hk
    simpa only [get_eq_getElem, getElem_range] using h
  exact ⟨outs, houts, hall.length_eq ▸ length_range, fun k hk => (hindex k hk).1, fun k hk => (hindex k hk).2⟩

namespace Merged

variable {outs : List (List α)} (h : Merged c ncpus shares outs) (hp : Ordered c ncpus pivots)
  (hcut : ∀ s ∈ shares, Cut c ncpus pivots s)

include h hp hcut

theorem lt (hi : i < outs.length) (hj : j < outs.length) (hij : i < j) (hx : x ∈ outs[i])
    (hy : y ∈ outs[j]) : c.lt x y := by
  obtain ⟨s, hs, hxs⟩ := mem_flatMap.mp ((h.perm i hi).mem_iff.mp hx)
  obtain ⟨s', hs', hys⟩ := mem_flatMap.mp ((h.perm j hj).mem_iff.mp hy)
  exact lt_of_parts hp (hcut s hs) (hcut s' hs') hij (h.length ▸ hj) hxs hys

theorem flatten_perm : outs.flatten.Perm (shares.map Prod.fst).flatten := by
  have hall : Forall₂ (fun k out => out.Perm (shares.flatMap fun s => part s k)) (range ncpus) outs := by
    refine forall₂_iff_get.mpr ⟨by rw [length_range, h.length], fun k hk hk' => ?_⟩
    simpa only [get_eq_getElem, getElem_range] using h.perm k hk'
  exact (flatten_perm_of_forall₂ hall).trans (parts_perm hp hcut)

theorem flatten_sorted : outs.flatten.Pairwise c.le := by
  refine pairwise_flatten.mpr ⟨fun out hout => ?_, ?_⟩
  · obtain ⟨k, hk, rfl⟩ := mem_iff_getElem.mp hout
    exact h.sorted k hk
  · exact pairwise_iff_getElem.mpr fun i j hi hj hij x hx y hy =>
      Comparator.le_of_lt (h.lt hp hcut hi hj hij hx hy)

end Merged

theorem flatten_map_sort_perm (q : QSort c) (l : List β) (f : β → List α) :
    (l.map fun i => q.sort (f i)).flatten.Perm (l.map f).flatten := by
  induction l with
  | nil => exact .refl _
  | cons i l ih => exact (q.perm (f i)).append ih

theorem psrs_of_sequential (q : QSort c) (hseq : Sequential ncpus (coll :: colls))
    (hbytes : totalLen (coll :: colls) * psz < 2 ^ 31) :
    psrs psz q ncpus (coll :: colls) = some (q.sort (coll :: colls).flatten :: colls.map fun _ => []) := by
  rw [psrs, if_pos hseq, localPairs_of_sequential q hseq hbytes]
  rfl

theorem psrs_of_long (q : QSort c) (hbytes : 2 ^ 31 ≤ totalLen colls * psz) : psrs psz q ncpus colls = none := by
  rw [psrs]
  split_ifs with hseq
  · have hcopy : copyElems psz colls 0 (totalLen colls - 1) = none := by
      rw [copyElems, if_neg]
      have hall : (2 : ℤ) ^ 31 ≤ totalLen colls * psz := by exact_mod_cast hbytes
      rw [show (totalLen colls : ℤ) - 1 - 0 + 1 = totalLen colls by omega]
      exact Int.not_lt.mpr hall
    simp only [localPairs, share_of_sequential hseq, hcopy]
    rfl
  · cases distribute psz q ncpus colls with
    | none => rfl
    | some shares =>
      simp only [bind_eq_bind, bind_some, mergeAll, if_neg (Nat.not_lt.mpr hbytes)]
      rfl

/-- When all CPUs have finished psrs, the first collection holds the input, sorted. -/
def Sorts (psz : ℕ) (q : QSort c) (ncpus : ℕ) (colls : List (List α)) : Prop :=
  ∃ out rest, psrs psz q ncpus colls = some (out :: rest) ∧ out.Perm colls.flatten ∧ out.Pairwise c.le

section Unsorted

/-- If no element is greater than the last pivot, its boundary comes out two elements too low. -/
theorem sublists_last {start : ℤ} {lp : ℕ} {l : List α} (hpv : pivots[lp]? = some pv) (hall : ∀ x ∈ l, c.le x pv)
    (hlen : 3 ≤ l.length) (hle : fp ≤ lp) (hstart : 0 ≤ start) (hend : start + 2 ≤ l.length)
    (h : sublists c.cmp (arrElem l) pivots fuel start (l.length - 1) subsize fp lp = some sub) :
    sub lp = l.length - 2 := by
  induction fuel generalizing start subsize sub fp with
  | zero => simp [sublists] at h
  | succ fuel ih =>
    obtain ⟨pv', found, below, hpv', hfound, hbelow, habove⟩ := sublists_eq_some h
    by_cases hmid : (fp + lp) / 2 < lp
    · obtain ⟨h0, hn⟩ := bsearchLar_bounds _ _ _ hfound (by omega)
      rw [if_pos hmid, if_pos (by omega)] at habove
      exact ih (by omega) (by omega) (by omega) habove
    · obtain rfl : fp = lp := by omega
      have hself : (fp + fp) / 2 = fp := by omega
      rw [hself] at hpv' hbelow
      rw [if_neg hmid] at habove
      rw [if_neg (Nat.lt_irrefl fp)] at hbelow
      obtain rfl : pv = pv' := some.inj (hpv.symm.trans hpv')
      obtain rfl := some.inj hbelow
      obtain rfl := some.inj habove
      rw [update_self]
      rw [bsearchLar] at hfound
      by_cases h0 : (l.length : ℤ) - 1 - start - 1 = 0
      · rw [if_pos h0] at hfound
        obtain rfl := some.inj hfound
        omega
      · have hread : arrElem l (start + ((l.length : ℤ) - 1 - start - 1 - 1)) = some l[l.length - 3] := by
          rw [show start + ((l.length : ℤ) - 1 - start - 1 - 1) = ((l.length - 3 : ℕ) : ℤ) by omega,
            arrElem_natCast, getElem?_eq_getElem]
        rw [if_neg h0, hread, bind_eq_bind, bind_some, if_pos (Comparator.nonneg_iff.mpr (hall _ (getElem_mem _)))] at hfound
        obtain rfl := some.inj hfound
        omega

/-- What the last CPU merges. -/
def lastTwo (l : List α) : List α := l.drop (l.length - 2)

structure EndsEarly (c : Comparator α) (ncpus : ℕ) (s : List α × (ℕ → ℤ)) : Prop where
  sorted : s.1.Pairwise c.le
  length : 3 ≤ s.1.length
  last : s.2 (ncpus - 1) = s.1.length - 2
  total : s.2 ncpus = s.1.length

theorem endsEarly_of_boundaries {l : List α} (hcpus : 2 ≤ ncpus) (hl : l.Pairwise c.le) (hlen : 3 ≤ l.length)
    (hpv : pivots[ncpus - 1]? = some pv) (hall : ∀ x ∈ l, c.le x pv)
    (h : boundaries c.cmp ncpus pivots l = some sub) : EndsEarly c ncpus (l, sub) where
  sorted := hl
  length := hlen
  last := sublists_last hpv hall hlen (by omega) (Int.le_refl 0) (by change 0 + 2 ≤ (l.length : ℤ); omega) h
  total := by
    have hkeep := sublists_frame (by omega) h ncpus (by omega)
    rwa [update_self] at hkeep

theorem length_lastTwo (hlen : 3 ≤ l.length) : (lastTwo l).length = 2 := by
  rw [lastTwo, length_drop]
  omega

theorem mergePart_last (hcpus : 2 ≤ ncpus) (hshares : ∀ s ∈ shares, EndsEarly c ncpus s)
    (h : mergePart c.cmp shares (ncpus - 1) = some out) :
    out.Perm (shares.flatMap fun s => lastTwo s.1) := by
  have hnext : ncpus - 1 + 1 = ncpus := by omega
  have hslices : slices shares (ncpus - 1) = some (shares.map fun s => lastTwo s.1) := by
    refine Fallible.mapM_eq_some fun s hs => ?_
    have hearly := hshares s hs
    have hlen := hearly.length
    rw [hnext, slice, hearly.last, hearly.total, if_pos (by omega), lastTwo,
      show ((s.1.length : ℤ) - 2).toNat = s.1.length - 2 by omega, take_of_length_le]
    rw [length_drop]
    omega
  have hsize : partsize shares (ncpus - 1) = ((shares.map fun s => lastTwo s.1).flatten.length : ℤ) := by
    rw [partsize, hnext, length_flatten, List.map_map]
    clear hslices h
    induction shares with
    | nil => rfl
    | cons s shares ih =>
      obtain ⟨hs, hrest⟩ := forall_mem_cons.mp hshares
      rw [map_cons, sum_cons, ih hrest, map_cons, sum_cons, comp_apply, length_lastTwo hs.length, hs.last, hs.total]
      omega
  obtain ⟨out', hout', hperm, -⟩ := mergesort_spec (c := c) _ (shares.map fun s => lastTwo s.1)
    (by
      intro run hrun
      obtain ⟨s, hs, rfl⟩ := mem_map.mp hrun
      exact (hshares s hs).sorted.drop) rfl
  simp only [mergePart, hslices, hsize, bind_eq_bind, bind_some, Int.natCast_nonneg, if_true, Int.toNat_natCast,
    hout'] at h
  obtain rfl := some.inj h
  rwa [flatMap_def]

theorem mem_of_localPivots (h : localPivots ncpus l = some samples) (hx : x ∈ samples) : x ∈ l := by
  obtain ⟨i, -, hread⟩ := Fallible.exists_of_mem_right (Fallible.forall₂_of_mapM_eq_some h) hx
  split_ifs at hread
  · exact mem_of_getElem? hread
  · rw [arrElem] at hread
    split_ifs at hread
    exact mem_of_getElem? hread

/-- An input of `n` elements: the first share has zeros, the others have ones. -/
def twoValues (n ncpus : ℕ) : List (List ℕ) :=
  [replicate (width n ncpus) 0 ++ replicate (n - width n ncpus) 1]

theorem two_mul_lt (hcpus : 2 ≤ ncpus) (hlong : ncpus * ncpus * ncpus ≤ n) :
    width n ncpus ≤ n ∧ 2 * (ncpus - 1) < n - width n ncpus := by
  obtain ⟨m, rfl⟩ : ∃ m, ncpus = m + 2 := ⟨ncpus - 2, by omega⟩
  have hw : (m + 2) * width n (m + 2) ≤ n + m + 1 := Nat.mul_div_le _ _
  have hlow : 2 * (m + 2) + 1 < n := by nlinarith
  have hlt : width n (m + 2) + 2 * (m + 1) < n := by nlinarith
  omega

section

variable {n : ℕ} (hcpus : 2 ≤ ncpus) (hlong : ncpus * ncpus * ncpus ≤ n)

include hcpus hlong

theorem length_twoValues : (twoValues n ncpus).flatten.length = n := by
  have := (two_mul_lt hcpus hlong).1
  simp only [twoValues, flatten_singleton, length_append, length_replicate]
  omega

theorem eq_zero_of_mem_piece (hx : x ∈ piece ncpus (twoValues n ncpus).flatten 0) : x = 0 := by
  rw [piece, length_twoValues hcpus hlong, Nat.mul_zero, drop_zero, twoValues, flatten_singleton,
    take_left' length_replicate] at hx
  exact eq_of_mem_replicate hx

theorem eq_one_of_mem_piece (hi : 1 ≤ i) (hx : x ∈ piece ncpus (twoValues n ncpus).flatten i) : x = 1 := by
  have hle := Nat.mul_le_mul_left (width n ncpus) hi
  rw [Nat.mul_one] at hle
  rw [piece, length_twoValues hcpus hlong, twoValues, flatten_singleton, drop_append, length_replicate,
    drop_eq_nil_of_le (by rwa [length_replicate]), nil_append] at hx
  exact eq_of_mem_replicate (mem_of_mem_drop (mem_of_mem_take hx))

theorem three_le_length_piece (hi : i < ncpus) :
    3 ≤ (piece ncpus (twoValues n ncpus).flatten i).length := by
  have hle := Nat.mul_le_mul_left (width n ncpus) (show i ≤ ncpus - 1 by omega)
  obtain ⟨m, rfl⟩ : ∃ m, ncpus = m + 2 := ⟨ncpus - 2, by omega⟩
  have hw : (m + 2) * width n (m + 2) ≤ n + m + 1 := Nat.mul_div_le _ _
  have hmul : n < (m + 2) * width n (m + 2) + (m + 2) := by
    have := Nat.div_add_mod (n + (m + 2) - 1) (m + 2)
    have := Nat.mod_lt (n + (m + 2) - 1) (show 0 < m + 2 by omega)
    rw [width]
    omega
  have hrest : width n (m + 2) * (m + 1) + 3 ≤ n := by nlinarith
  have hwide : 3 ≤ width n (m + 2) := by nlinarith
  rw [show m + 2 - 1 = m + 1 by omega] at hle
  rw [piece, length_twoValues hcpus hlong, length_take, length_drop, length_twoValues hcpus hlong]
  omega

end

theorem count_le_of_last {L : List ℕ} (hsorted : L.Pairwise (· ≤ ·)) (hy : L[i]? = some 0) : i + 1 ≤ L.count 0 := by
  obtain ⟨hi, hzero⟩ := List.getElem?_eq_some_iff.mp hy
  have hall : ∀ x ∈ L.take (i + 1), 0 = x := by
    intro x hx
    obtain ⟨j, hj, rfl⟩ := mem_take_iff_getElem.mp hx
    rcases Nat.lt_or_eq_of_le (show j ≤ i by omega) with hlt | rfl
    · have := pairwise_iff_getElem.mp hsorted j i (by omega) hi hlt
      omega
    · exact hzero.symm
  have hcount : (L.take (i + 1)).count 0 = (L.take (i + 1)).length := count_eq_length.mpr hall
  have hle := (take_sublist (i + 1) L).count_le 0
  rw [hcount, length_take] at hle
  omega

theorem last_pivot_twoValues {pivots : List ℕ} (q : QSort difference.toComparator) (hcpus : 2 ≤ ncpus)
    (hlong : ncpus * ncpus * ncpus ≤ n) (hp : Ordered difference.toComparator ncpus pivots)
    (hsamples : Forall₂ (fun i s => localPivots ncpus (q.sort (piece ncpus (twoValues n ncpus).flatten i)) = some s)
      (range ncpus) samples)
    (hlast : pivots[ncpus - 1]? = (q.sort samples.flatten)[(ncpus - 2) * ncpus + ncpus / 2]?) :
    pivots[ncpus - 1]? = some 1 := by
  have hlen := hp.length
  obtain ⟨y, hy⟩ : ∃ y, pivots[ncpus - 1]? = some y := ⟨_, getElem?_eq_getElem (by omega)⟩
  obtain ⟨m, rfl⟩ : ∃ m, ncpus = m + 1 := ⟨ncpus - 1, by omega⟩
  rw [range_succ_eq_map] at hsamples
  obtain ⟨s₀, rest, hs₀, hrest, rfl⟩ := forall₂_cons_left_iff.mp hsamples
  have hones : ∀ x ∈ rest.flatten, x = 1 := by
    intro x hx
    obtain ⟨s, hs, hxs⟩ := mem_flatten.mp hx
    obtain ⟨i, hi, hread⟩ := Fallible.exists_of_mem_right hrest hs
    obtain ⟨i, -, rfl⟩ := mem_map.mp hi
    exact eq_one_of_mem_piece hcpus hlong (Nat.succ_pos i) ((q.perm _).mem_iff.mp (mem_of_localPivots hread hxs))
  have hsorted : (q.sort (s₀ :: rest).flatten).Pairwise (· ≤ ·) :=
    (q.sorted _).imp fun h => difference.le_iff.mp h
  by_cases hzero : y = 0
  · -- there are only as many zeros as samples of the first share
    subst hzero
    have hcount := count_le_of_last hsorted (hlast.symm.trans hy)
    obtain ⟨s, hs, hslen⟩ : ∃ s, localPivots (m + 1) (q.sort (piece (m + 1) (twoValues n (m + 1)).flatten 0)) =
        some s ∧ s.length = m + 1 - 1 := localPivots_length (by
      rw [q.length_sort]
      have := three_le_length_piece hcpus hlong (Nat.succ_pos m)
      omega)
    obtain rfl : s = s₀ := some.inj (hs.symm.trans hs₀)
    have hnone : rest.flatten.count 0 = 0 := count_eq_zero.mpr fun h => absurd (hones 0 h) (by decide)
    have hle := count_le_length (a := 0) (l := s)
    rw [(q.perm _).count_eq, flatten_cons, count_append, hnone] at hcount
    have hfar : m + 1 ≤ (m + 1 - 2) * (m + 1) + (m + 1) / 2 + 1 := by
      rcases Nat.eq_or_lt_of_le hcpus with h | h
      · rw [← h]
      · have := Nat.mul_le_mul_right (m + 1) (show 1 ≤ m + 1 - 2 by omega)
        omega
    omega
  · have hmem : y ∈ (s₀ :: rest).flatten := (q.perm _).mem_iff.mp (mem_of_getElem? (hlast.symm.trans hy))
    rcases mem_append.mp (flatten_cons ▸ hmem) with h | h
    · exact absurd (eq_zero_of_mem_piece hcpus hlong ((q.perm _).mem_iff.mp (mem_of_localPivots hs₀ h))) hzero
    · rw [hy, hones y h]

/-- The last CPU gets two of the zeros, and not all ones. -/
theorem not_sorts_twoValues (q : QSort difference.toComparator) (hcpus : 2 ≤ ncpus)
    (hlong : ncpus * ncpus * ncpus ≤ n) : ¬ Sorts psz q ncpus (twoValues n ncpus) := by
  rintro ⟨out, rest, hrun, hperm, hsorted⟩
  have htotal : totalLen (twoValues n ncpus) = n := by rw [totalLen_eq, length_twoValues hcpus hlong]
  have hseq : ¬ Sequential ncpus (twoValues n ncpus) := by
    rw [Sequential, htotal]
    omega
  by_cases hbytes : n * psz < 2 ^ 31
  swap
  · rw [psrs_of_long q (by rw [htotal]; omega)] at hrun
    cases hrun
  rw [← htotal] at hbytes
  obtain ⟨pivots, hprepare, hp, samples, hsamples, hlast⟩ := prepare_of_long q hcpus (htotal.symm ▸ hlong) hbytes
  have hone := last_pivot_twoValues q hcpus hlong hp hsamples hlast
  rw [psrs, if_neg hseq] at hrun
  obtain ⟨shares, hdist, hrun⟩ := bind_eq_some_iff.mp hrun
  obtain ⟨parts, hparts, hset⟩ := bind_eq_some_iff.mp hrun
  rw [mergeAll, if_pos hbytes] at hparts
  obtain rfl : parts.flatten = out := by
    rw [twoValues, setFirst, some.injEq, cons.injEq] at hset
    exact hset.1
  simp only [distribute, hprepare, bind_eq_bind, bind_some] at hdist
  have hshares := Fallible.forall₂_of_mapM_eq_some hdist
  rw [forall₂_map_left_iff] at hshares
  have hstored : Forall₂ (fun i s => s.1 = q.sort (piece ncpus (twoValues n ncpus).flatten i) ∧
      EndsEarly difference.toComparator ncpus s) (range ncpus) shares := by
    refine (forall₂_iff_zip.mpr ⟨hshares.length_eq, fun {i s} his => ?_⟩)
    obtain ⟨sub, hsub, ⟨⟩⟩ := bind_eq_some_iff.mp (forall₂_zip hshares his)
    have hi := mem_range.mp (of_mem_zip his).1
    refine ⟨rfl, endsEarly_of_boundaries hcpus (q.sorted _)
      (by rw [q.length_sort]; exact three_le_length_piece hcpus hlong hi) hone (fun x hx => ?_) hsub⟩
    have hx := (q.perm _).mem_iff.mp hx
    refine difference.le_iff.mpr ?_
    rcases Nat.eq_zero_or_pos i with rfl | hpos
    · rw [eq_zero_of_mem_piece hcpus hlong hx]
      exact Nat.zero_le 1
    · rw [eq_one_of_mem_piece hcpus hlong hpos hx]
  obtain ⟨m, rfl⟩ : ∃ m, ncpus = m + 1 := ⟨ncpus - 1, by omega⟩
  have hparts := Fallible.forall₂_of_mapM_eq_some hparts
  have hcount : parts.length = m + 1 := by rw [← hparts.length_eq, length_range]
  have hmerge : mergePart difference.toComparator.cmp shares m = some parts[m] := by
    simpa using hparts.get (i := m) (by simp) (by omega)
  obtain ⟨firsts, last, rfl, hlast⟩ : ∃ firsts last, parts = firsts ++ [last] ∧ parts[m] = last :=
    ⟨parts.take m, parts[m], by rw [take_append_getElem, take_of_length_le hcount.le], rfl⟩
  rw [hlast] at hmerge
  have hlastPerm := mergePart_last hcpus (fun s hs => by
    obtain ⟨i, -, h⟩ := Fallible.exists_of_mem_right hstored hs
    exact h.2) hmerge
  rw [range_succ_eq_map] at hstored
  obtain ⟨s₀, shares', ⟨hfst, hearly⟩, hothers, rfl⟩ := forall₂_cons_left_iff.mp hstored
  rw [flatMap_cons] at hlastPerm
  have hzeros : ∀ x ∈ lastTwo s₀.1, x = 0 := fun x hx =>
    eq_zero_of_mem_piece hcpus hlong ((q.perm _).mem_iff.mp (hfst ▸ mem_of_mem_drop hx))
  -- a zero in the last part: there are no ones before it
  obtain ⟨z, hz⟩ : ∃ z, z ∈ lastTwo s₀.1 := exists_mem_of_length_pos (by rw [length_lastTwo hearly.length]; decide)
  rw [flatten_append, flatten_singleton] at hsorted hperm
  have hfirst : firsts.flatten.count 1 = 0 := by
    refine count_eq_zero.mpr fun hmem => ?_
    have hle := (pairwise_append.mp hsorted).2.2 1 hmem z (hlastPerm.mem_iff.mpr (mem_append_left _ hz))
    rw [hzeros z hz] at hle
    exact absurd (difference.le_iff.mp hle) (by decide)
  have hcount := hperm.count_eq 1
  have hnone : (lastTwo s₀.1).count 1 = 0 := count_eq_zero.mpr fun h => absurd (hzeros 1 h) (by decide)
  have hfew : (shares'.flatMap fun s => lastTwo s.1).length = 2 * m := by
    have hlen : shares'.length = m := by
      rw [← hothers.length_eq, length_map, length_range]
    have htwo : shares'.map (fun s => (lastTwo s.1).length) = replicate shares'.length 2 := by
      refine eq_replicate_iff.mpr ⟨length_map _, fun k hk => ?_⟩
      obtain ⟨s, hs, rfl⟩ := mem_map.mp hk
      obtain ⟨i, -, h⟩ := Fallible.exists_of_mem_right hothers hs
      exact length_lastTwo h.2.length
    rw [length_flatMap, htwo, sum_replicate_nat, hlen, Nat.mul_comm]
  have hle := count_le_length (a := 1) (l := shares'.flatMap fun s => lastTwo s.1)
  rw [count_append, hfirst, hlastPerm.count_eq, count_append, hnone, twoValues, flatten_singleton, count_append,
    count_replicate, count_replicate_self] at hcount
  have := (two_mul_lt hcpus hlong).2
  simp at hcount
  omega

end Unsorted

/-- The inputs with `n` elements in all come out sorted on `ncpus` CPUs exactly if one CPU sorts
them and an int has room for their size. -/
theorem psrs_sorts (psz ncpus n : ℕ) (hcpus : 1 ≤ ncpus) :
    (∀ (α : Type) (c : Comparator α) (q : QSort c) (colls : List (List α)), colls ≠ [] → totalLen colls = n →
      Sorts psz q ncpus colls) ↔ (ncpus = 1 ∨ n < ncpus * ncpus * ncpus) ∧ n * psz < 2 ^ 31 := by
  constructor
  · intro hall
    have hbytes : n * psz < 2 ^ 31 := by
      by_contra hlong
      obtain ⟨out, rest, hrun, -⟩ := hall ℕ difference.toComparator (.insertion _) [replicate n 0]
        (by simp) (by simp [totalLen])
      rw [psrs_of_long _ (by simpa [totalLen] using hlong)] at hrun
      cases hrun
    refine ⟨?_, hbytes⟩
    by_contra hseq
    obtain ⟨hone, hlong⟩ := not_or.mp hseq
    refine not_sorts_twoValues (.insertion _) (by omega) (Nat.not_lt.mp hlong) (hall ℕ _ _ (twoValues n ncpus)
      (by simp [twoValues]) ?_)
    rw [totalLen_eq, length_twoValues (by omega) (Nat.not_lt.mp hlong)]
  · rintro ⟨hseq, hbytes⟩ α c q colls hcolls rfl
    obtain ⟨coll, colls', rfl⟩ := exists_cons_of_ne_nil hcolls
    exact ⟨_, _, psrs_of_sequential q hseq hbytes, q.perm _, q.sorted _⟩

/-- Seven elements are too few for two CPUs to share. -/
theorem psrs_sorts_seven : Sorts 24 (QSort.insertion difference.toComparator) 2 [[5, 3, 9, 1], [], [4, 2, 9]] :=
  (psrs_sorts 24 2 7 (by decide)).mpr (by decide) ℕ _ _ [[5, 3, 9, 1], [], [4, 2, 9]] (by simp) (by decide)

/-- The shares are four zeros and 1, 2, 3, 4, the pivot is 3. No search sees the last two
elements of a share, so two zeros come behind 1 and 2. -/
theorem psrs_leaves_unsorted :
    psrs 24 (QSort.insertion difference.toComparator) 2 [[0, 0, 0, 0, 1, 2, 3, 4]] =
      some [[0, 0, 1, 2, 0, 0, 3, 4]] ∧
    ¬ [0, 0, 1, 2, 0, 0, 3, 4].Pairwise difference.toComparator.le := by
  constructor <;> decide +kernel

end Mosbench.Metis.Psrs
