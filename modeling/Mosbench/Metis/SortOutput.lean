import Mosbench.Lib.Stores
import Mosbench.Metis.ParallelSort

/-!
The parallel sort around its splitting step: copying, the choice of the pivots and the merge into
the shared output, for any boundaries that are what sublists is documented to leave.
-/
namespace Mosbench.Metis.Psrs

open List Option
open KeyComparator (difference)

variable {c : Comparator α}

def copied (psz ncpus : ℕ) (colls : List (List α)) : Option (List (List α)) :=
  (List.range ncpus).mapM fun lcpu =>
    copyElems psz colls (share (totalLen colls) ncpus lcpu).1 (share (totalLen colls) ncpus lcpu).2

/-- A row of `subsize` as sublists is documented to leave it: at each pivot the first element that
is greater. The two ends are set before the call. -/
structure Documented (c : Comparator α) (ncpus : ℕ) (pivots l : List α) (row : ℕ → ℤ) : Prop where
  first : row 0 = 0
  last : row ncpus = l.length
  inner : ∀ k p, 1 ≤ k → k < ncpus → pivots[k]? = some p → ∃ r : ℕ, row k = r ∧ Splits c p l r

def startPos (shares : Shares α) (lcpu : ℕ) : ℤ := ((List.range lcpu).map (partsize shares)).sum

def outputWrites (shares : Shares α) (outs : List (List α)) : List (ℤ × α) :=
  outs.zipIdx.flatMap fun x => Stores.block (startPos shares x.2) x.1

theorem startPos_succ (shares : Shares α) (lcpu : ℕ) :
    startPos shares (lcpu + 1) = startPos shares lcpu + partsize shares lcpu := by
  simp [startPos, range_succ]

theorem flatMap_block (shares : Shares α) (outs : List (List α)) (n : ℕ)
    (hlen : ∀ k (hk : k < outs.length), partsize shares (n + k) = outs[k].length) :
    ((outs.zipIdx n).flatMap fun x => Stores.block (startPos shares x.2) x.1) =
      Stores.block (startPos shares n) outs.flatten := by
  induction outs generalizing n with
  | nil => rfl
  | cons out outs ih =>
    have hfirst : partsize shares n = out.length := hlen 0 (Nat.succ_pos _)
    have hrest : ∀ k (hk : k < outs.length), partsize shares (n + 1 + k) = outs[k].length := by
      intro k hk
      have h := hlen (k + 1) (Nat.succ_lt_succ hk)
      rwa [getElem_cons_succ, show n + (k + 1) = n + 1 + k by omega] at h
    rw [zipIdx_cons, flatMap_cons, ih (n + 1) hrest, flatten_cons, Stores.block_append,
      startPos_succ, hfirst]

theorem copied_of_long (hcpus : 2 ≤ ncpus) (hlong : ncpus * ncpus * ncpus ≤ totalLen colls)
    (hbytes : totalLen colls * psz < 2 ^ 31) :
    copied psz ncpus colls = some ((range ncpus).map (piece ncpus colls.flatten)) :=
  Fallible.mapM_eq_some fun _ hlcpu => copyElems_share hcpus hlong hbytes (mem_range.mp hlcpu)

theorem cut_of_documented
    (hsorted : ∀ l ∈ lpairs, l.Pairwise c.le) (hrows : Forall₂ (Documented c ncpus pivots) lpairs rows) :
    ∀ s ∈ lpairs.zip rows, Cut c ncpus pivots s := by
  intro s hs
  have hrow := forall₂_zip hrows hs
  exact ⟨hsorted s.1 (of_mem_zip hs).1, hrow.first, hrow.last, hrow.inner⟩

theorem outputWrites_eq (hp : Ordered c ncpus pivots) (hcut : ∀ s ∈ shares, Cut c ncpus pivots s)
    (hmerged : Merged c ncpus shares outs) : outputWrites shares outs = Stores.block 0 outs.flatten := by
  refine flatMap_block shares outs 0 fun k hk => ?_
  rw [Nat.zero_add, partsize_of_cut hp hcut (hmerged.length ▸ hk), ← flatMap_def,
    (hmerged.perm k hk).length_eq]

/-- For at least two CPUs and an input that is not short and not larger than an int can say,
whatever boundaries the splitting step leaves as long as they are the documented ones: the slices
that the CPUs copy are the input, cut into pieces that are not empty; the CPUs write each place of
the output once; elements that compare equal are merged by the same CPU; and the output is the
input, sorted. -/
theorem sort_around_splitting (psz : ℕ) (q : QSort c) (ncpus : ℕ) (colls : List (List α)) (hcpus : 2 ≤ ncpus)
    (hlong : ncpus * ncpus * ncpus ≤ totalLen colls) (hbytes : totalLen colls * psz < 2 ^ 31) :
    ∃ pieces pivots, copied psz ncpus colls = some pieces ∧ pieces.length = ncpus ∧ (∀ l ∈ pieces, l ≠ []) ∧
      pieces.flatten = colls.flatten ∧ prepare psz q ncpus colls = some (pieces.map q.sort, pivots) ∧
      ∀ rows, List.Forall₂ (Documented c ncpus pivots) (pieces.map q.sort) rows →
        ∃ outs, mergeAll c.cmp psz ncpus (totalLen colls) ((pieces.map q.sort).zip rows) = some outs ∧
          (outputWrites ((pieces.map q.sort).zip rows) outs).map Prod.fst =
            (List.range (totalLen colls)).map (fun i : ℕ => (i : ℤ)) ∧
          (∀ i j (hi : i < outs.length) (hj : j < outs.length),
            ∀ x ∈ outs[i], ∀ y ∈ outs[j], c.cmp x y = 0 → i = j) ∧
          ∃ out : List α, out.Perm colls.flatten ∧ out.Pairwise c.le ∧
            ∀ ws : List (ℤ × α), ws.Perm (outputWrites ((pieces.map q.sort).zip rows) outs) →
              ∀ k : ℕ, Stores.store (fun _ => none) ws (k : ℤ) = out[k]? := by
  have hlong' : ncpus * ncpus * ncpus ≤ colls.flatten.length := totalLen_eq colls ▸ hlong
  obtain ⟨pivots, hprepare, hp, -⟩ := prepare_of_long q hcpus hlong hbytes
  refine ⟨_, pivots, copied_of_long hcpus hlong hbytes, by rw [length_map, length_range], ?_,
    flatten_map_piece hcpus hlong', by rw [hprepare, List.map_map]; rfl, fun rows hrows => ?_⟩
  · intro l hl
    obtain ⟨i, hi, rfl⟩ := mem_map.mp hl
    exact ne_nil_of_length_pos (length_piece_pos hcpus hlong' (mem_range.mp hi))
  generalize hpieces : (range ncpus).map (piece ncpus colls.flatten) = pieces at hrows ⊢
  have hsorted : ∀ l ∈ pieces.map q.sort, l.Pairwise c.le := by
    intro l hl
    obtain ⟨l', -, rfl⟩ := mem_map.mp hl
    exact q.sorted l'
  have hcut := cut_of_documented hsorted hrows
  obtain ⟨outs, houts, hmerged⟩ := merge_of_cut hp hcut
  have hperm : outs.flatten.Perm colls.flatten := by
    refine (hmerged.flatten_perm hp hcut).trans ?_
    rw [map_fst_zip hrows.length_eq.le]
    have hpieces' := flatten_map_sort_perm q pieces id
    rw [List.map_id, ← hpieces, flatten_map_piece hcpus hlong', hpieces] at hpieces'
    exact hpieces'
  have hwrites := outputWrites_eq hp hcut hmerged
  refine ⟨outs, by rw [mergeAll, if_pos hbytes, houts], ?_, ?_, outs.flatten, hperm, hmerged.flatten_sorted hp hcut, fun ws hws k => ?_⟩
  · rw [hwrites, Stores.map_fst_block, hperm.length_eq, totalLen_eq]
    exact map_congr_left fun i _ => Int.zero_add _
  · intro i j hi hj x hx y hy heq
    rcases Nat.lt_trichotomy i j with hij | hij | hij
    · exact absurd heq (hmerged.lt hp hcut hi hj hij hx hy).ne
    · exact hij
    · have hlt := hmerged.lt hp hcut hj hi hij hy hx
      exact absurd heq (Comparator.pos_iff.mpr hlt).ne'
  · rw [hwrites] at hws
    have h := Stores.store_block hws k
    rwa [Int.zero_add] at h

/-- The input that comes out unsorted, with the boundaries that sublists should find. -/
theorem sort_around_splitting_eight : ∃ outs : List (List ℕ),
    mergeAll difference.toComparator.cmp 24 2 8
      [([0, 0, 0, 0], fun k => if k = 0 then 0 else 4),
        ([1, 2, 3, 4], fun k => if k = 0 then 0 else if k = 1 then 3 else 4)] = some outs ∧
    ∃ out : List ℕ, out.Perm [0, 0, 0, 0, 1, 2, 3, 4] ∧
      out.Pairwise difference.toComparator.le := by
  obtain ⟨pieces, pivots, hcopied, -, -, -, hprepare, hrest⟩ :=
    sort_around_splitting 24 (QSort.insertion difference.toComparator) 2 [[0, 0, 0, 0, 1, 2, 3, 4]]
      (by decide) (by decide) (by decide)
  have hpieces : copied 24 2 [[0, 0, 0, 0, 1, 2, 3, 4]] = some [[0, 0, 0, 0], [1, 2, 3, 4]] := by decide +kernel
  have hpivots : prepare 24 (QSort.insertion difference.toComparator) 2 [[0, 0, 0, 0, 1, 2, 3, 4]] =
      some ([[0, 0, 0, 0], [1, 2, 3, 4]], [0, 3]) := by decide +kernel
  obtain rfl := some.inj (hpieces.symm.trans hcopied)
  obtain ⟨-, rfl⟩ := Prod.mk.inj (some.inj (hpivots.symm.trans hprepare))
  have hrows : Forall₂ (Documented difference.toComparator 2 [0, 3])
      [[0, 0, 0, 0], [1, 2, 3, 4]]
      [fun k => if k = 0 then 0 else 4, fun k => if k = 0 then 0 else if k = 1 then 3 else 4] := by
    refine .cons ⟨rfl, rfl, fun k p hk hk' hp => ?_⟩ (.cons ⟨rfl, rfl, fun k p hk hk' hp => ?_⟩ .nil)
    · obtain rfl : k = 1 := by omega
      obtain rfl := some.inj hp
      exact ⟨4, rfl, by decide, by decide, by decide⟩
    · obtain rfl : k = 1 := by omega
      obtain rfl := some.inj hp
      exact ⟨3, rfl, by decide, by decide, by decide⟩
  obtain ⟨outs, houts, -, -, out, hperm, hsorted, -⟩ := hrest _ hrows
  exact ⟨outs, houts, out, hperm, hsorted⟩

/-- For 89478486 pairs of 24 bytes the size of the output is not an int. -/
theorem sort_around_splitting_overflows : ¬∃ (shares : Shares ℕ) (outs : List (List ℕ)),
    mergeAll difference.toComparator.cmp 24 2 (totalLen [replicate 89478486 0]) shares = some outs := by
  rintro ⟨shares, outs, h⟩
  rw [totalLen_eq, flatten_singleton, length_replicate, mergeAll, if_neg (by decide)] at h
  cases h

end Mosbench.Metis.Psrs
