import Mosbench.Metis.ParallelSort

/-!
The merge phase without the parallel sort: mergesort.c and the rounds of
mr_run_scheduler. In a round with `ncpus` CPUs each CPU merges the buckets whose number
leaves the CPU's own as remainder into the first of them. The CPUs of a round finish in
any order.
-/
namespace Mosbench.Metis

open List Option
open KeyComparator (difference)

variable {α : Type}

def taskColls (ncolls ncpus lcpu : ℕ) : List ℕ :=
  let mycolls := ncolls / ncpus + if lcpu < ncolls % ncpus then 1 else 0
  (List.range mycolls).map fun i => lcpu + i * ncpus

def shallowFree (colls : List (List α)) (mine : List ℕ) : List (List α) :=
  mine.foldl (fun colls i => colls.set i []) colls

/-- `mergesort` on one CPU. `none` is a read outside the array of buckets, or one that is not at
the pair it is meant for: the product of the size of a pair and an index has 32 bits. -/
def mergesort (cmp : α → α → ℤ) (psz ncpus : ℕ) (colls : List (List α)) (lcpu : ℕ) :
    Option (List (List α)) := do
  let mine := taskColls colls.length ncpus lcpu
  let runs ← mine.mapM fun i => colls[i]?
  let npairs := runs.flatten.length
  if npairs = 0 then pure colls
  else if ∀ run ∈ runs, (run.length - 1) * psz < 2 ^ 32 then
    let out ← Psrs.mergesort cmp npairs runs
    pure ((shallowFree colls mine).set lcpu out)
  else none

/-- The loop of the merge phase; `order ncpus` is the order in which the CPUs of a
round of `ncpus` finish. -/
def mergeRounds (cmp : α → α → ℤ) (psz : ℕ) (order : ℕ → List ℕ) (nsplits ncpus : ℕ)
    (colls : List (List α)) : Option (List (List α)) :=
  if 1 < nsplits then do
    let colls ← (order ncpus).foldlM (mergesort cmp psz ncpus) colls
    mergeRounds cmp psz order ncpus (ncpus / 2) colls
  else some colls
termination_by if 1 < nsplits then ncpus + 1 else 0
decreasing_by
  rename_i h
  rw [if_pos h]
  split <;> omega

def mergePhase (cmp : α → α → ℤ) (psz : ℕ) (order : ℕ → List ℕ) (nrCpus : ℕ) (colls : List (List α)) :
    Option (List (List α)) :=
  mergeRounds cmp psz order colls.length (min (colls.length / 2) nrCpus) colls

theorem mem_taskColls (hcpu : lcpu < ncpus) :
    i ∈ taskColls n ncpus lcpu ↔ i < n ∧ i % ncpus = lcpu := by
  have hn := Nat.div_add_mod n ncpus
  simp only [taskColls, List.mem_map, mem_range]
  constructor
  · rintro ⟨j, hj, rfl⟩
    rw [Nat.add_mul_mod_self_right, Nat.mod_eq_of_lt hcpu]
    refine ⟨?_, rfl⟩
    split at hj
    · have := Nat.mul_le_mul_left ncpus (Nat.le_of_lt_succ hj)
      rw [Nat.mul_comm j]
      omega
    · have := Nat.mul_le_mul_left ncpus (Nat.succ_le_of_lt hj)
      rw [Nat.add_zero, Nat.mul_succ] at this
      rw [Nat.mul_comm j]
      omega
  · rintro ⟨hi, rfl⟩
    have hdiv := Nat.div_add_mod i ncpus
    refine ⟨i / ncpus, ?_, by rw [Nat.mul_comm]; omega⟩
    have hle : i / ncpus ≤ n / ncpus := Nat.div_le_div_right hi.le
    rcases hle.lt_or_eq with hlt | heq
    · omega
    · rw [heq] at hdiv
      rw [if_pos (by omega)]
      omega

theorem nodup_taskColls (hcpu : lcpu < ncpus) : (taskColls n ncpus lcpu).Nodup := by
  refine (nodup_range).map fun i j hij => ?_
  exact Nat.eq_of_mul_eq_mul_right (by omega : 0 < ncpus) (Nat.add_left_cancel hij)

theorem disjoint_taskColls (hcpu : lcpu < ncpus) (hcpu' : lcpu' < ncpus)
    (hne : lcpu ≠ lcpu') : (taskColls n ncpus lcpu).Disjoint (taskColls n ncpus lcpu') := by
  intro i hi hi'
  exact hne (((mem_taskColls hcpu).mp hi).2.symm.trans ((mem_taskColls hcpu').mp hi').2)

theorem length_shallowFree (colls : List (List α)) (mine : List ℕ) :
    (shallowFree colls mine).length = colls.length := by
  induction mine generalizing colls with
  | nil => rfl
  | cons i mine ih => exact (ih _).trans length_set

theorem getElem?_shallowFree (colls : List (List α)) (mine : List ℕ) (i : ℕ) :
    (shallowFree colls mine)[i]? = if i ∈ mine then colls[i]?.map fun _ => [] else colls[i]? := by
  induction mine generalizing colls with
  | nil => simp [shallowFree]
  | cons j mine ih =>
    rw [shallowFree, foldl_cons, ← shallowFree, ih, getElem?_set']
    by_cases hj : j = i
    · subst hj
      cases colls[j]? <;> simp
    · simp [hj, Ne.symm hj]

theorem flatten_perm_set {colls : List (List α)} (hget : colls[i]? = some coll) :
    colls.flatten.Perm (coll ++ (colls.set i []).flatten) := by
  induction colls generalizing i with
  | nil => simp at hget
  | cons first colls ih =>
    cases i with
    | zero =>
      obtain rfl : first = coll := by simpa using hget
      exact .refl _
    | succ i =>
      have hperm := (ih (by simpa using hget)).append_left first
      simp only [set_cons_succ, flatten_cons, ← append_assoc] at hperm ⊢
      exact hperm.trans (perm_append_comm.append_right _)

theorem flatten_perm_shallowFree {colls : List (List α)} (hnodup : mine.Nodup)
    (hmine : ∀ i ∈ mine, i < colls.length) :
    colls.flatten.Perm ((mine.map fun i => colls[i]?.getD []).flatten ++ (shallowFree colls mine).flatten) := by
  induction mine generalizing colls with
  | nil => exact .refl _
  | cons i mine ih =>
    obtain ⟨hi, hnodup⟩ := nodup_cons.mp hnodup
    obtain ⟨coll, hget⟩ : ∃ coll, colls[i]? = some coll :=
      ⟨_, getElem?_eq_getElem (hmine i mem_cons_self)⟩
    have hrest := @ih (colls.set i []) hnodup fun j hj => by
      simpa using hmine j (mem_cons_of_mem i hj)
    have hsame : (mine.map fun j => (colls.set i [])[j]?.getD []) = mine.map fun j => colls[j]?.getD [] :=
      map_congr_left fun j hj => by rw [getElem?_set_ne (ne_of_mem_of_not_mem hj hi).symm]
    rw [hsame] at hrest
    rw [map_cons, flatten_cons, append_assoc, hget]
    exact (flatten_perm_set hget).trans (hrest.append_left _)

theorem flatten_perm_merged {colls : List (List α)} (hnodup : mine.Nodup)
    (hmine : ∀ i ∈ mine, i < colls.length) (hself : lcpu ∈ mine)
    (hout : out.Perm (mine.map fun i => colls[i]?.getD []).flatten) :
    ((shallowFree colls mine).set lcpu out).flatten.Perm colls.flatten := by
  have hfreed : (shallowFree colls mine)[lcpu]? = some [] := by
    rw [getElem?_shallowFree, if_pos hself]
    simp [hmine lcpu hself]
  obtain ⟨hlt, hnil⟩ := List.getElem?_eq_some_iff.mp hfreed
  have hset := flatten_perm_set (getElem?_set_self (a := out) hlt)
  rw [set_set, ← hnil, set_getElem_self hlt] at hset
  exact hset.trans ((hout.append_right _).trans (flatten_perm_shallowFree hnodup hmine).symm)

theorem mergesort_frame {cmp : α → α → ℤ} (hcpu : lcpu < ncpus)
    (h : mergesort cmp psz ncpus colls lcpu = some colls') (hi : i ∉ taskColls colls.length ncpus lcpu) :
    colls'[i]? = colls[i]? := by
  obtain ⟨runs, -, h⟩ := bind_eq_some_iff.mp h
  rcases ite_eq_iff.mp h with ⟨-, ⟨⟩⟩ | ⟨-, h⟩
  · rfl
  · split_ifs at h
    obtain ⟨out, -, ⟨⟩⟩ := bind_eq_some_iff.mp h
    rw [getElem?_set, length_shallowFree, getElem?_shallowFree, if_neg hi]
    -- the first of the CPU's buckets is one of them if it is there at all
    split_ifs with heq hlen
    · exact absurd ((mem_taskColls hcpu).mpr ⟨hlen, Nat.mod_eq_of_lt hcpu⟩) (heq ▸ hi)
    · rw [getElem?_eq_none (by omega)]
    · rfl

structure Gathered (c : Comparator α) (n : ℕ) (all : List α) (colls : List (List α)) : Prop where
  length : colls.length = n
  perm : colls.flatten.Perm all
  sorted : ∀ coll ∈ colls, coll.Pairwise c.le

variable {all : List α}

theorem Gathered.exists_mergesort (h : Gathered c n all colls) (hbytes : (all.length - 1) * psz < 2 ^ 32) (hcpu : lcpu < ncpus) (hn : lcpu < n) :
    ∃ colls', mergesort c.cmp psz ncpus colls lcpu = some colls' ∧ Gathered c n all colls' ∧
      ∀ i < n, i ≠ lcpu → colls'[i]? = if i % ncpus = lcpu then some [] else colls[i]? := by
  have hmine : ∀ i ∈ taskColls n ncpus lcpu, i < colls.length := fun i hi =>
    h.length ▸ ((mem_taskColls hcpu).mp hi).1
  have hruns : (taskColls n ncpus lcpu).mapM (fun i => colls[i]?) =
      some ((taskColls n ncpus lcpu).map fun i => colls[i]?.getD []) :=
    Fallible.mapM_eq_some fun i hi => by simp [hmine i hi]
  have hsorted : ∀ run ∈ (taskColls n ncpus lcpu).map fun i => colls[i]?.getD [], run.Pairwise c.le := by
    intro run hrun
    obtain ⟨i, hi, rfl⟩ := mem_map.mp hrun
    simpa [hmine i hi] using h.sorted _ (getElem_mem (hmine i hi))
  have hfits : ∀ run ∈ (taskColls n ncpus lcpu).map fun i => colls[i]?.getD [], (run.length - 1) * psz < 2 ^ 32 := by
    intro run hrun
    obtain ⟨i, hi, rfl⟩ := mem_map.mp hrun
    have hlt := hmine i hi
    have hle : colls[i].length ≤ all.length := by
      rw [← h.perm.length_eq]
      exact (sublist_flatten_of_mem (getElem_mem hlt)).length_le
    rw [List.getElem?_eq_getElem hlt, getD_some]
    exact lt_of_le_of_lt (Nat.mul_le_mul_right psz (by omega)) hbytes
  rw [mergesort, h.length, hruns]
  simp only [bind_eq_bind, bind_some]
  by_cases hnone : ((taskColls n ncpus lcpu).map fun i => colls[i]?.getD []).flatten.length = 0
  · refine ⟨colls, if_pos hnone, h, fun i hi _ => ?_⟩
    split
    · rename_i hmod
      have hmem := (mem_taskColls hcpu).mpr ⟨hi, hmod⟩
      have hnil := flatten_eq_nil_iff.mp (length_eq_zero_iff.mp hnone) _ (mem_map_of_mem hmem)
      simpa [hmine i hmem] using hnil
    · rfl
  · obtain ⟨out, hout, hperm, houts⟩ := Psrs.mergesort_spec _ _ hsorted rfl
    refine ⟨_, by rw [if_neg hnone, if_pos hfits, hout]; rfl, ⟨?_, ?_, ?_⟩, fun i hi hne => ?_⟩
    · rw [length_set, length_shallowFree, h.length]
    · have hself : lcpu ∈ taskColls n ncpus lcpu := (mem_taskColls hcpu).mpr ⟨hn, Nat.mod_eq_of_lt hcpu⟩
      exact (flatten_perm_merged (nodup_taskColls hcpu) hmine hself hperm).trans h.perm
    · intro coll hcoll
      rcases mem_or_eq_of_mem_set hcoll with hcoll | rfl
      · obtain ⟨i, hi⟩ := mem_iff_getElem?.mp hcoll
        rw [getElem?_shallowFree] at hi
        split at hi
        · obtain ⟨-, -, rfl⟩ := Option.map_eq_some_iff.mp hi
          exact .nil
        · exact h.sorted coll (mem_of_getElem? hi)
      · exact houts
    · rw [getElem?_set_ne hne.symm, getElem?_shallowFree]
      simp [mem_taskColls hcpu, hi, h.length]

theorem Gathered.round {order : List ℕ} (h : Gathered c n all colls) (hbytes : (all.length - 1) * psz < 2 ^ 32)
    (horder : order.Perm (range ncpus))
    (hpos : 1 ≤ ncpus) (hle : ncpus ≤ n) :
    ∃ colls', order.foldlM (mergesort c.cmp psz ncpus) colls = some colls' ∧ Gathered c n all colls' ∧
      ∀ i < n, ncpus ≤ i → colls'[i]? = some [] := by
  obtain ⟨colls', hrun, hsorted, hempty⟩ := Fallible.foldlM_invariant (f := mergesort c.cmp psz ncpus)
    (fun seen colls => Gathered c n all colls ∧ ∀ i < n, ncpus ≤ i → i % ncpus ∈ seen → colls[i]? = some [])
    order (a := colls) ⟨h, by simp⟩ (by
      rintro seen lcpu rest colls hsplit ⟨h, hempty⟩
      have hcpu : lcpu < ncpus := mem_range.mp (horder.mem_iff.mp (by simp [hsplit]))
      obtain ⟨colls', hstep, h', hget⟩ := h.exists_mergesort hbytes hcpu (by omega)
      refine ⟨colls', hstep, h', fun i hi hge hmem => ?_⟩
      rw [hget i hi (by omega)]
      split
      · rfl
      · rename_i hmod
        exact hempty i hi hge ((mem_append.mp hmem).resolve_right fun h => hmod (mem_singleton.mp h)))
  exact ⟨colls', hrun, hsorted, fun i hi hge =>
    hempty i hi hge (horder.mem_iff.mpr (mem_range.mpr (Nat.mod_lt i hpos)))⟩

theorem Gathered.exists_mergeRounds (h : Gathered c n all colls) (hbytes : (all.length - 1) * psz < 2 ^ 32)
    (horder : ∀ k, (order k).Perm (range k)) (hsplits : 1 ≤ nsplits)
    (hpos : 1 < nsplits → 1 ≤ ncpus) (hle : ncpus ≤ n)
    (hempty : ∀ i < n, nsplits ≤ i → colls[i]? = some []) :
    ∃ colls', mergeRounds c.cmp psz order nsplits ncpus colls = some colls' ∧ Gathered c n all colls' ∧
      ∀ i < n, 1 ≤ i → colls'[i]? = some [] := by
  fun_induction mergeRounds c.cmp psz order nsplits ncpus colls with
  | case1 nsplits ncpus colls hmore ih =>
    obtain ⟨colls₁, hround, h₁, hempty₁⟩ := h.round hbytes (horder ncpus) (hpos hmore) hle
    obtain ⟨colls₂, hrest, hdone⟩ := ih colls₁ h₁ (hpos hmore) (by omega) (by omega) hempty₁
    exact ⟨colls₂, by simp [hround, hrest], hdone⟩
  | case2 nsplits ncpus colls hlast =>
    exact ⟨colls, rfl, h, fun i hi hge => hempty i hi (by omega)⟩

theorem mergePhase_fails {n : ℕ} (hn : 2 ^ 32 ≤ n * 24) :
    mergePhase difference.cmp 24 List.range 1 [replicate (n + 1) 0, []] = none := by
  have hmerge : mergesort difference.cmp 24 1 [replicate (n + 1) 0, []] 0 = none := by
    have hmine : taskColls 2 1 0 = [0, 1] := by decide
    rw [mergesort, show ([replicate (n + 1) 0, []] : List (List ℕ)).length = 2 from rfl, hmine]
    have hruns : [0, 1].mapM (fun i => ([replicate (n + 1) 0, []] : List (List ℕ))[i]?) =
        some [replicate (n + 1) 0, []] := rfl
    rw [hruns, bind_eq_bind, bind_some, if_neg, if_neg]
    · intro hall
      have := hall (replicate (n + 1) 0) mem_cons_self
      rw [length_replicate] at this
      omega
    · rw [flatten_cons, length_append, length_replicate]
      omega
  have hcpus : min (([replicate (n + 1) 0, []] : List (List ℕ)).length / 2) 1 = 1 := by simp
  rw [mergePhase, hcpus, mergeRounds, if_pos (show 1 < ([replicate (n + 1) 0, []] : List (List ℕ)).length by simp),
    show List.range 1 = [0] from rfl, foldlM_cons, hmerge]
  rfl

end Mosbench.Metis
