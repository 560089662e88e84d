import Mosbench.Psearchy.Merge
import Mathlib.Data.List.Flatten

/-!
The passes of passN in pedsort.C, without an old index to update. A pass that is not
the last merges the files of the pass before in groups of `MaxFDS`. A pass is the last
one when there are at most `MaxFDS + 1` files, and it merges at most `MaxFDS` of them.
-/
namespace Mosbench.Psearchy

open Bytes MultiMerge
open List hiding merge

def maxFDS : ℕ := 800

def filesAfter (onf : ℕ) : ℕ := (onf + maxFDS - 1) / maxFDS

/-- The inputs of its merges: `ifn` goes up by `MaxFDS`. -/
def groups {A : Type} (files : List A) : List (List A) :=
  (range (filesAfter files.length)).map fun g => (files.drop (g * maxFDS)).take maxFDS

/-- The two loops of passN; `mid` merges some files into the next one and `last` into
the index. Without files the outer loop never ends. -/
def schedule {A B : Type} (mid : List A → A) (last : List A → B) : ℕ → List A → Option B
  | 0, _ => none
  | fuel + 1, files =>
    if files.length = 0 then schedule mid last fuel files
    else if maxFDS + 1 ≥ files.length then some (last (files.take maxFDS))
    else schedule mid last fuel ((groups files).map mid)

/-- The index and the word databases, or nothing if there is no end. Every pass but the
last leaves fewer files, so there are not more passes than files. -/
def passN (maxwordlen dblim : ℕ) (files : List (List Byte)) : Option (List Byte × List (List (List Byte × ℕ))) :=
  schedule (fun fs => (mergeFiles maxwordlen dblim false fs).ofp)
    (fun fs => ((mergeFiles maxwordlen dblim true fs).ofp, (mergeFiles maxwordlen dblim true fs).w2p.w2pClose.shards))
    files.length files

def mergePasses (ts : List (List Record)) : Option (List Record) := schedule merge merge ts.length ts

theorem length_groups (files : List A) : (groups files).length = filesAfter files.length := by
  rw [groups, length_map, length_range]

theorem filesAfter_lt (h : 1 < n) : filesAfter n < n := by
  rw [filesAfter, maxFDS, Nat.div_lt_iff_lt_mul (by omega)]
  omega

theorem filesAfter_pos (h : 0 < n) : 0 < filesAfter n := by
  rw [filesAfter, maxFDS]
  omega

theorem flatMap_range_take_drop (l : List A) (c k : ℕ) :
    ((range k).flatMap fun g => (l.drop (g * c)).take c) = l.take (k * c) := by
  induction k with
  | zero => rw [Nat.zero_mul, take_zero, range_zero, flatMap_nil]
  | succ k ih =>
    rw [range_succ, flatMap_append, ih, flatMap_singleton, Nat.succ_mul, take_add]

theorem flatten_groups (files : List A) : (groups files).flatten = files := by
  have hall : files.length ≤ filesAfter files.length * maxFDS := by
    rw [filesAfter, maxFDS]
    omega
  rw [groups, ← flatMap_def, flatMap_range_take_drop, take_of_length_le hall]

theorem groups_map (f : A → B) (files : List A) : groups (files.map f) = (groups files).map (map f) := by
  rw [groups, groups, length_map, map_map]
  exact map_congr_left fun i _ => by rw [Function.comp_apply, map_take, map_drop]

theorem sublist_of_mem_groups (hg : g ∈ groups files) : g.Sublist files := by
  obtain ⟨i, -, rfl⟩ := mem_map.mp hg
  exact (take_sublist _ _).trans (drop_sublist _ _)

theorem mem_of_mem_groups {files g : List A} {x : A} (hg : g ∈ groups files) (hx : x ∈ g) : x ∈ files := by
  exact (sublist_of_mem_groups hg).subset hx

section

theorem schedule_last (hpos : 0 < files.length) (h : files.length ≤ maxFDS + 1) :
    schedule mid last (fuel + 1) files = some (last (files.take maxFDS)) := by
  rw [schedule, if_neg hpos.ne', if_pos h]

theorem schedule_pass (h : maxFDS + 1 < files.length) :
    schedule mid last (fuel + 1) files = schedule mid last fuel ((groups files).map mid) := by
  rw [schedule, if_neg (by omega), if_neg (by omega)]

theorem schedule_induction (mid : List A → A) {P : ℕ → List A → Prop}
    (hlast : ∀ fuel files, 0 < files.length → files.length ≤ maxFDS + 1 → P (fuel + 1) files)
    (hpass : ∀ fuel files, maxFDS + 1 < files.length → P fuel ((groups files).map mid) → P (fuel + 1) files)
    (fuel : ℕ) (files : List A) (hpos : 0 < files.length) (hfuel : files.length ≤ fuel) : P fuel files := by
  induction fuel generalizing files with
  | zero => omega
  | succ fuel ih =>
    by_cases h : files.length ≤ maxFDS + 1
    · exact hlast fuel files hpos h
    · have hlt := filesAfter_lt (n := files.length) (by omega)
      have hlen : ((groups files).map mid).length = filesAfter files.length := by
        rw [length_map, length_groups]
      exact hpass fuel files (by omega) (ih _ (hlen ▸ filesAfter_pos hpos) (by omega))

theorem schedule_map {f : A' → A} {P : List A' → Prop} (hmid : ∀ l, P l → mid (l.map f) = f (mid' l))
    (hlast : ∀ l, P l → last (l.map f) = g (last' l)) (hsub : ∀ l m, P l → m.Sublist l → P m)
    (hpass : ∀ l, P l → P ((groups l).map mid')) (fuel : ℕ) (files : List A') (h : P files) :
    schedule mid last fuel (files.map f) = (schedule mid' last' fuel files).map g := by
  induction fuel generalizing files with
  | zero => rfl
  | succ fuel ih =>
    rw [schedule, schedule, length_map]
    split_ifs
    · exact ih files h
    · rw [← map_take, hlast _ (hsub _ _ h (take_sublist _ _))]
      rfl
    · have hgroups : (groups (files.map f)).map mid = ((groups files).map mid').map f := by
        rw [groups_map, map_map, map_map]
        exact map_congr_left fun g hg => hmid g (hsub _ _ h (sublist_of_mem_groups hg))
      rw [hgroups, ih _ (hpass _ h)]

end

variable {ts : List (List Record)}

def total (w : List Byte) (ts : List (List Record)) : ℕ := (ts.flatMap (values w)).length

theorem total_le_of_sublist (h : ts'.Sublist ts) (w : List Byte) : total w ts' ≤ total w ts := by
  exact (h.flatMap _).length_le

theorem wellFormed_merge (hsorted : ∀ t ∈ ts, Sorted t) (hwf : ∀ t ∈ ts, ∀ r ∈ t, r.WellFormed maxwordlen)
    (hfew : ∀ w, total w ts < 2 ^ 28) : ∀ r ∈ merge ts, Record.WellFormed maxwordlen r := by
  intro r hr
  have hmerges := merges_merge hsorted
  obtain ⟨t, ht, hw⟩ := (hmerges.keys r.1).mp (mem_map_of_mem hr)
  obtain ⟨r', hr', hword⟩ := mem_map.mp hw
  have hwf' := hwf t ht r' hr'
  refine ⟨hword ▸ hwf'.string, hword ▸ hwf'.fits, ?_⟩
  rw [← hmerges.sorted.values_of_mem hr, hmerges.values]
  exact hfew r.1

structure Mergeable (maxwordlen : ℕ) (ts : List (List Record)) : Prop where
  sorted : ∀ t ∈ ts, Sorted t
  wellFormed : ∀ t ∈ ts, ∀ r ∈ t, r.WellFormed maxwordlen
  few : ∀ w, total w ts < 2 ^ 28

namespace Mergeable

section

variable (h : Mergeable maxwordlen ts)

include h

theorem sublist (hsub : ts'.Sublist ts) : Mergeable maxwordlen ts' where
  sorted t ht := h.sorted t (hsub.subset ht)
  wellFormed t ht := h.wellFormed t (hsub.subset ht)
  few w := (total_le_of_sublist hsub w).trans_lt (h.few w)

theorem merges_group (hg : g ∈ groups ts) : Merges g (merge g) :=
  merges_merge (h.sublist (sublist_of_mem_groups hg)).sorted

theorem pass : Mergeable maxwordlen ((groups ts).map merge) where
  sorted := forall_mem_map.mpr fun _ hg => (h.merges_group hg).sorted
  wellFormed := forall_mem_map.mpr fun _ hg =>
    have hgroup := h.sublist (sublist_of_mem_groups hg)
    wellFormed_merge hgroup.sorted hgroup.wellFormed hgroup.few
  few w := by
    have hflat : ((groups ts).map merge).flatMap (values w) = ts.flatMap (values w) := by
      rw [flatMap_map, flatMap_congr fun g hg => (h.merges_group hg).values w]
      conv_rhs => rw [← flatten_groups ts]
      rw [flatMap_def, flatMap_def, map_flatten, flatten_flatten, map_map]
      rfl
    rw [total, hflat]
    exact h.few w

end

end Mergeable

def indexShards (dblim : ℕ) (idx : List Record) : List (List (List Byte × ℕ)) :=
  (idx.foldl (enter dblim) (.empty, 0)).1.w2pClose.shards

theorem mergeFiles_last (h : ∀ t ∈ ts, ∀ r ∈ t, r.WellFormed maxwordlen) :
    ((mergeFiles maxwordlen dblim true (ts.map fileBytes)).ofp,
      (mergeFiles maxwordlen dblim true (ts.map fileBytes)).w2p.w2pClose.shards) =
      (fileBytes (merge ts), indexShards dblim (merge ts)) := by
  obtain ⟨hofp, hdb⟩ := mergeFiles_spec dblim true h
  have hw2p : (mergeFiles maxwordlen dblim true (ts.map fileBytes)).w2p = _ := congrArg Prod.fst hdb
  rw [hofp, hw2p]
  rfl

theorem passN_eq (dblim : ℕ) (h : Mergeable maxwordlen ts) :
    passN maxwordlen dblim (ts.map fileBytes) =
      (mergePasses ts).map fun idx => (fileBytes idx, indexShards dblim idx) := by
  rw [passN, length_map, mergePasses]
  refine schedule_map (P := Mergeable maxwordlen) (fun l hl => ?_) (fun l hl => ?_) (fun l m hl => hl.sublist)
    (fun l hl => hl.pass) _ ts h
  · exact (mergeFiles_spec dblim false hl.wellFormed).1
  · exact mergeFiles_last hl.wellFormed

theorem passN_one_pass (dblim : ℕ) (hne : ts ≠ []) (hlen : ts.length ≤ maxFDS + 1)
    (h : ∀ t ∈ ts, ∀ r ∈ t, r.WellFormed maxwordlen) :
    passN maxwordlen dblim (ts.map fileBytes) =
      some (fileBytes (merge (ts.take maxFDS)), indexShards dblim (merge (ts.take maxFDS))) := by
  have hpos : 0 < ts.length := length_pos_iff.mpr hne
  obtain ⟨n, hn⟩ : ∃ n, ts.length = n + 1 := ⟨ts.length - 1, by omega⟩
  rw [passN, length_map, hn, schedule_last (by simpa using hpos) (by simpa using hlen), ← map_take,
    mergeFiles_last fun t ht => h t (mem_of_mem_take ht)]

/-- No pass has one file more than it opens, and the postings of each word fit: in each
group of a pass, whose bytes the next one copies with 32 bits, and in all files, which
the last one counts with 32 bits. A file of a pass stands for a block of the first files. -/
inductive PassesFit : List (List (List Record)) → Prop
  | last {blocks : List (List (List Record))} (hlen : blocks.length ≤ maxFDS)
      (hfew : ∀ w, total w blocks.flatten < 2 ^ 32) : PassesFit blocks
  | pass {blocks : List (List (List Record))} (hlen : maxFDS + 1 < blocks.length)
      (hfew : ∀ g ∈ groups blocks, ∀ w, total w g.flatten < 2 ^ 28)
      (hnext : PassesFit ((groups blocks).map flatten)) : PassesFit blocks

theorem flatten_pass (blocks : List (List A)) : ((groups blocks).map flatten).flatten = blocks.flatten := by
  rw [← flatten_flatten, flatten_groups]

theorem wellFormed_blocks {blocks : List (List (List Record))} (hsorted : ∀ t ∈ blocks.flatten, Sorted t)
    (hwf : ∀ t ∈ blocks.flatten, ∀ r ∈ t, r.WellFormed maxwordlen) (hread : ∀ b ∈ blocks, ∀ w, total w b < 2 ^ 28) :
    ∀ b ∈ blocks, ∀ r ∈ merge b, Record.WellFormed maxwordlen r := fun b hb =>
  wellFormed_merge (fun t ht => hsorted t (mem_flatten.mpr ⟨b, hb, ht⟩))
    (fun t ht => hwf t (mem_flatten.mpr ⟨b, hb, ht⟩)) (hread b hb)

namespace PassesFit

theorem total_lt (h : PassesFit blocks) (w : List Byte) : total w blocks.flatten < 2 ^ 32 := by
  induction h with
  | last _ hfew => exact hfew w
  | pass _ _ _ ih => rwa [flatten_pass] at ih

/-- Each file of a pass is the merge of its block. -/
theorem schedule_eq (maxwordlen dblim : ℕ) (h : PassesFit blocks) (hne : blocks ≠ []) (hfuel : blocks.length ≤ fuel)
    (hsorted : ∀ t ∈ blocks.flatten, Sorted t) (hwf : ∀ t ∈ blocks.flatten, ∀ r ∈ t, r.WellFormed maxwordlen)
    (hread : ∀ b ∈ blocks, ∀ w, total w b < 2 ^ 28) :
    schedule (fun fs => (mergeFiles maxwordlen dblim false fs).ofp)
      (fun fs => ((mergeFiles maxwordlen dblim true fs).ofp, (mergeFiles maxwordlen dblim true fs).w2p.w2pClose.shards))
      fuel ((blocks.map merge).map fileBytes) =
      some (fileBytes (merge blocks.flatten), indexShards dblim (merge blocks.flatten)) := by
  induction h generalizing fuel with
  | @last blocks hlen _ =>
    obtain ⟨fuel, rfl⟩ : ∃ n, fuel = n + 1 := Nat.exists_eq_add_one.mpr ((length_pos_iff.mpr hne).trans_le hfuel)
    rw [schedule_last (by simpa using length_pos_iff.mpr hne) (by simp only [length_map]; omega),
      take_of_length_le (by simpa using hlen),
      mergeFiles_last (forall_mem_map.mpr (wellFormed_blocks hsorted hwf hread)),
      merge_groups blocks fun b hb t ht => hsorted t (mem_flatten.mpr ⟨b, hb, ht⟩)]
  | @pass blocks hlen hfew _ ih =>
    obtain ⟨fuel, rfl⟩ : ∃ n, fuel = n + 1 := Nat.exists_eq_add_one.mpr (by omega)
    have hfiles : (groups ((blocks.map merge).map fileBytes)).map (fun fs => (mergeFiles maxwordlen dblim false fs).ofp) =
        (((groups blocks).map flatten).map merge).map fileBytes := by
      simp only [groups_map, map_map]
      refine map_congr_left fun g hg => ?_
      have hgroup : ∀ b ∈ g, b ∈ blocks := fun b => mem_of_mem_groups hg
      have hfiles : ∀ t ∈ g.map merge, ∀ r ∈ t, Record.WellFormed maxwordlen r :=
        forall_mem_map.mpr fun b hb => wellFormed_blocks hsorted hwf hread b (hgroup b hb)
      have hspec := (mergeFiles_spec dblim false hfiles).1
      rw [merge_groups g fun b hb t ht => hsorted t (mem_flatten.mpr ⟨b, hgroup b hb, ht⟩), map_map] at hspec
      exact hspec
    have hnext := filesAfter_lt (n := blocks.length) (by omega)
    have hpos := filesAfter_pos (n := blocks.length) (by omega)
    rw [schedule_pass (by simpa using hlen), hfiles, ih, flatten_pass]
    · exact length_pos_iff.mp (by rwa [length_map, length_groups])
    · rw [length_map, length_groups]
      omega
    · rwa [flatten_pass]
    · rwa [flatten_pass]
    · exact forall_mem_map.mpr hfew

end PassesFit

theorem merge_singleton {t : List Record} (h : Sorted t) : merge [t] = t := by
  refine (merges_merge fun t' ht' => mem_singleton.mp ht' ▸ h).eq ⟨h, fun w => ?_, fun w => ?_⟩
  · simp only [mem_singleton, exists_eq_left]
  · rw [flatMap_singleton]

theorem total_singleton_lt {t : List Record} (h : Sorted t) (hwf : ∀ r ∈ t, r.WellFormed maxwordlen) (w : List Byte) :
    total w [t] < 2 ^ 28 := by
  rw [total, flatMap_singleton]
  by_cases hw : w ∈ t.map Prod.fst
  · obtain ⟨r, hr, rfl⟩ := mem_map.mp hw
    rw [h.values_of_mem hr]
    exact (hwf r hr).short
  · rw [values_eq_nil hw]
    decide

/-- passN writes one index with every word of the files once, in increasing order and
with all its postings in the order of the files: when no pass is left with one file
more than it opens, and the postings of a word can be copied (those of a group) and
counted (in all files) with 32 bits. -/
theorem passN_index (maxwordlen dblim : ℕ) (ts : List (List Record)) (hne : ts ≠ []) (hsorted : ∀ t ∈ ts, Sorted t)
    (hwf : ∀ t ∈ ts, ∀ r ∈ t, r.WellFormed maxwordlen) (hpasses : PassesFit (ts.map fun t => [t])) :
    ∃ idx shards, passN maxwordlen dblim (ts.map fileBytes) = some (fileBytes idx, shards) ∧
      Sorted idx ∧ (∀ w, w ∈ idx.map Prod.fst ↔ ∃ t ∈ ts, w ∈ t.map Prod.fst) ∧
      ∀ r ∈ idx, r.2 = ts.flatMap (values r.1) ∧ r.2.length < 2 ^ 32 := by
  have hmerges := merges_merge hsorted
  have hlist : ∀ r ∈ merge ts, r.2 = ts.flatMap (values r.1) := fun r hr => by
    rw [← hmerges.values, hmerges.sorted.values_of_mem hr]
  have hflat : (ts.map fun t => [t]).flatten = ts := by rw [← flatMap_def, flatMap_singleton']
  have htotal := hpasses.total_lt
  rw [hflat] at htotal
  refine ⟨merge ts, indexShards dblim (merge ts), ?_, hmerges.sorted, hmerges.keys, fun r hr => ⟨hlist r hr, ?_⟩⟩
  · have hfiles : (ts.map fun t => [t]).map merge = ts := by
      rw [map_map]
      exact (map_congr_left fun t ht => merge_singleton (hsorted t ht)).trans (map_id ts)
    have hread : ∀ b ∈ ts.map fun t => [t], ∀ w, total w b < 2 ^ 28 :=
      forall_mem_map.mpr fun t ht => total_singleton_lt (hsorted t ht) (hwf t ht)
    have hrun := hpasses.schedule_eq maxwordlen dblim (by simpa using hne) le_rfl (hflat.symm ▸ hsorted)
      (hflat.symm ▸ hwf) hread
    rw [hfiles, hflat, length_map] at hrun
    rwa [passN, length_map]
  · rw [hlist r hr]
    exact htotal r.1

def wordA : List Byte := [97]

def wordB : List Byte := [98]

def slotAt (dn : Int64) (wc : UInt32) : Slot := ⟨⟨dn, wc⟩, 0⟩

def twoFiles : List (List Record) :=
  [[(wordA, [slotAt 1 1])], [(wordA, [slotAt 2 1]), (wordB, [slotAt 2 2])]]

theorem sorted_twoFiles : ∀ t ∈ twoFiles, Sorted t := by
  have hlt : wordA < wordB := by decide
  simp [twoFiles, Sorted, hlt]

theorem wellFormed_twoFiles : ∀ t ∈ twoFiles, ∀ r ∈ t, r.WellFormed 1 := by
  intro t ht r hr
  have hall : ∀ t ∈ twoFiles, ∀ r ∈ t, (∀ b ∈ r.1, b ≠ 0) ∧ r.1.length ≤ 1 ∧ r.2.length ≤ 1 := by decide +kernel
  obtain ⟨hstring, hfits, hshort⟩ := hall t ht r hr
  exact ⟨hstring, hfits, by omega⟩

theorem total_twoFiles_le (w : List Byte) : total w twoFiles ≤ 3 := by
  simp only [total, twoFiles, flatMap_cons, flatMap_nil, values_cons, values_nil, length_append]
  split_ifs <;> simp

theorem passN_index_twoFiles :
    ∃ idx shards, passN 1 0 (twoFiles.map fileBytes) = some (fileBytes idx, shards) ∧
      Sorted idx ∧ (∀ w, w ∈ idx.map Prod.fst ↔ ∃ t ∈ twoFiles, w ∈ t.map Prod.fst) ∧
      ∀ r ∈ idx, r.2 = twoFiles.flatMap (values r.1) ∧ r.2.length < 2 ^ 32 :=
  passN_index 1 0 twoFiles (by simp [twoFiles]) sorted_twoFiles wellFormed_twoFiles
    (.last (by decide) fun w => (total_twoFiles_le w).trans_lt (by decide))

/-- One merge of files: it ends when all of them are read to their ends, and has written every
word of the files once, in increasing order, with the sum of its counts and with its lists one
behind the other in the order of the files. -/
theorem merge_records (maxwordlen dblim : ℕ) (done : Bool) (ts : List (List Record)) (hsorted : ∀ t ∈ ts, Sorted t)
    (hwf : ∀ t ∈ ts, ∀ r ∈ t, r.WellFormed maxwordlen) (htotal : ∀ w, total w ts < 2 ^ 28) :
    mergeStep dblim done (mergeFiles maxwordlen dblim done (ts.map fileBytes)) = none ∧
      (mergeFiles maxwordlen dblim done (ts.map fileBytes)).inputs.length = ts.length ∧
      (∀ inp ∈ (mergeFiles maxwordlen dblim done (ts.map fileBytes)).inputs, inp.eof = true ∧ inp.fp = []) ∧
      ∃ out, (mergeFiles maxwordlen dblim done (ts.map fileBytes)).ofp = fileBytes out ∧ Sorted out ∧
        (∀ r ∈ out, r.WellFormed maxwordlen) ∧ (∀ w, w ∈ out.map Prod.fst ↔ ∃ t ∈ ts, w ∈ t.map Prod.fst) ∧
        ∀ r ∈ out, r.2 = ts.flatMap (values r.1) ∧ r.2.length = (ts.map fun t => (values r.1 t).length).sum := by
  obtain ⟨hstep, hlen, hends⟩ := mergeFiles_ends maxwordlen dblim done (ts.map fileBytes)
  have hmerges := merges_merge hsorted
  have hlist : ∀ r ∈ merge ts, r.2 = ts.flatMap (values r.1) := fun r hr => by
    rw [← hmerges.values, hmerges.sorted.values_of_mem hr]
  refine ⟨hstep, hlen.trans (length_map _), hends, merge ts, (mergeFiles_spec dblim done hwf).1, hmerges.sorted,
    fun r hr => ?_, hmerges.keys, fun r hr => ⟨hlist r hr, ?_⟩⟩
  · exact wellFormed_merge hsorted hwf htotal r hr
  · rw [hlist r hr, length_flatMap]

theorem merge_records_twoFiles :
    mergeStep 0 false (mergeFiles 1 0 false (twoFiles.map fileBytes)) = none ∧
      (mergeFiles 1 0 false (twoFiles.map fileBytes)).inputs.length = 2 ∧
      (∀ inp ∈ (mergeFiles 1 0 false (twoFiles.map fileBytes)).inputs, inp.eof = true ∧ inp.fp = []) ∧
      ∃ out, (mergeFiles 1 0 false (twoFiles.map fileBytes)).ofp = fileBytes out ∧ Sorted out ∧
        (∀ r ∈ out, r.WellFormed 1) ∧ (∀ w, w ∈ out.map Prod.fst ↔ ∃ t ∈ twoFiles, w ∈ t.map Prod.fst) ∧
        ∀ r ∈ out, r.2 = twoFiles.flatMap (values r.1) ∧
          r.2.length = (twoFiles.map fun t => (values r.1 t).length).sum :=
  merge_records 1 0 false twoFiles sorted_twoFiles wellFormed_twoFiles fun w => by
    have htotal := total_twoFiles_le w
    omega

def oneTooMany : List (List Record) :=
  replicate maxFDS [(wordA, [slotAt 1 1])] ++ [[(wordB, [slotAt 2 1])]]

/-- Of 801 files the last one is left out of the index. -/
theorem last_file_left_out :
    oneTooMany.length = 801 ∧ (∀ t ∈ oneTooMany, Sorted t) ∧ (∀ t ∈ oneTooMany, ∀ r ∈ t, r.WellFormed 1) ∧
      ∃ idx shards, passN 1 0 (oneTooMany.map fileBytes) = some (fileBytes idx, shards) ∧
        (∃ t ∈ oneTooMany, wordB ∈ t.map Prod.fst) ∧ wordB ∉ idx.map Prod.fst := by
  have hmem : ∀ t ∈ oneTooMany, t = [(wordA, [slotAt 1 1])] ∨ t = [(wordB, [slotAt 2 1])] := by
    intro t ht
    rcases mem_append.mp ht with ht | ht
    · exact .inl (eq_of_mem_replicate ht)
    · exact .inr (mem_singleton.mp ht)
  have hlen : oneTooMany.length = 801 := by
    rw [oneTooMany, length_append, length_replicate, length_singleton, maxFDS]
  have hsorted : ∀ t ∈ oneTooMany, Sorted t := by
    intro t ht
    rcases hmem t ht with rfl | rfl <;> exact pairwise_singleton _ _
  have hwf : ∀ t ∈ oneTooMany, ∀ r ∈ t, r.WellFormed 1 := by
    intro t ht r hr
    rcases hmem t ht with rfl | rfl <;> rw [mem_singleton.mp hr] <;>
      exact ⟨by decide +kernel, by decide, by simp⟩
  refine ⟨hlen, hsorted, hwf, _, _, passN_one_pass 0 (by simp [oneTooMany]) hlen.le hwf, ?_, ?_⟩
  · exact ⟨_, mem_append_right _ mem_cons_self, by simp⟩
  · have htake : oneTooMany.take maxFDS = replicate maxFDS [(wordA, [slotAt 1 1])] :=
      take_left' length_replicate
    rw [htake, (merges_merge fun t ht => eq_of_mem_replicate ht ▸ pairwise_singleton _ _).keys]
    rintro ⟨t, ht, hw⟩
    rw [eq_of_mem_replicate ht] at hw
    exact absurd hw (by decide)

end Mosbench.Psearchy
