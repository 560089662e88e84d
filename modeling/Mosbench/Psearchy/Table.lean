import Mosbench.Psearchy.Bounds

/-!
The table of pass0 from flush to flush. It is flushed when the count of used buckets reaches its
size, so in a table of prime size lookup comes to a free bucket or to the word.
-/
namespace Mosbench.Psearchy

open List Bytes Fallible MultiMerge Probing

/-- The states of the table, with the words that were entered since the last flush and their
postings. A word is entered while the count is below the size of the table; what is written behind
the words is of no importance; a flush may come at any time. -/
inductive Filling (sz : Sizes) (ps₀ : Pass0) : Pass0 → List (List Byte × PostIt) → Prop
  | start : Filling sz ps₀ ps₀ []
  | word {ps ps' : Pass0} {occ : List (List Byte × PostIt)} {tok : Token} {w : List Byte} {did : Int64} {wc : UInt32} :
      Filling sz ps₀ ps occ → ps.bucketsUsed < sz.maxhash → tok.Holds ps w → enterWord sz ps did wc tok = .ok ps' →
      Filling sz ps₀ ps' (occ ++ [(w, ⟨did, wc⟩)])
  | scan :
      Filling sz ps₀ ps occ → mem.length = ps.wordbytes.length → mem.take ps.wordi = ps.wordbytes.take ps.wordi →
      Filling sz ps₀ { ps with wordbytes := mem } occ
  | flush {ps ps' : Pass0} {occ : List (List Byte × PostIt)} {file : List Byte} :
      Filling sz ps₀ ps occ → flushwords ps = .ok (file, ps') → Filling sz ps₀ ps' []

variable {tok : Token}

structure Filled (sz : Sizes) (ps : Pass0) (occ : List (List Byte × Slot)) : Prop extends Filed sz ps occ where
  blocks : BlocksFit ps
  used : (usedBuckets ps).length ≤ ps.bucketsUsed

theorem length_usedBuckets (ps : Pass0) : (usedBuckets ps).length = ps.table.countP fun bu => bu.word.isSome :=
  countP_eq_length_filter.symm

theorem used_addPosting (hused : (usedBuckets ps).length ≤ ps.bucketsUsed)
    (hadd : addPosting sz ps tok h i = .ok ps') : (usedBuckets ps').length ≤ ps'.bucketsUsed := by
  rw [length_usedBuckets] at hused ⊢
  obtain ⟨bu, hbu, ⟨hfree, rfl⟩ | ⟨hword, blocks, blocki, -, -, -, rfl⟩⟩ := addPosting_cases hadd
  · obtain ⟨hlt, rfl⟩ := List.getElem?_eq_some_iff.mp hbu
    rw [countP_set hlt, hfree]
    simpa using hused
  · obtain ⟨hlt, rfl⟩ := List.getElem?_eq_some_iff.mp hbu
    have hsome : ps.table[h].word.isSome = true := Option.isSome_iff_ne_none.mpr hword
    have hpos : 0 < ps.table.countP fun bu => bu.word.isSome := countP_pos_iff.mpr ⟨_, getElem_mem hlt, hsome⟩
    rw [countP_set hlt, if_pos hsome, Nat.sub_add_cancel hpos]
    exact hused

namespace Filled

theorem enterWord (h : Filled sz ps occ) (htok : tok.Holds ps w) (hent : enterWord sz ps did wc tok = .ok ps') :
    ∃ s : Slot, s.toPostIt = ⟨did, wc⟩ ∧ Filled sz ps' (occ ++ [(w, s)]) := by
  obtain ⟨s, hs, hfiled, -⟩ := h.toFiled.enterWord htok hent
  have hsized : Sized sz ps := ⟨h.sizeWord, h.sizeInfo, h.blocks⟩
  obtain ⟨infop, word, r, -, -, -, hadd⟩ := enterWord_cases hent
  refine ⟨s, hs, hfiled, (hsized.enterWord htok.length hent).blocks, ?_⟩
  exact used_addPosting (show (usedBuckets { ps with
    wordbytes := tok.mem
    infobuf := ps.infobuf.set ps.infoi { infop with dn := did, wc := wc }
    infoi := ps.infoi + 1 }).length ≤ ps.bucketsUsed from h.used) hadd

theorem memory (h : Filled sz ps occ) (hlen : mem.length = ps.wordbytes.length)
    (hfront : mem.take ps.wordi = ps.wordbytes.take ps.wordi) : Filled sz { ps with wordbytes := mem } occ :=
  ⟨h.toFiled.memory hlen hfront, h.blocks, h.used⟩

theorem emptied (h : Filled sz ps occ) : Filled sz (emptied ps) [] := by
  have hfree : ∀ bu ∈ (Psearchy.emptied ps).table, bu.word = none := by
    intro bu hbu
    obtain ⟨bu', -, rfl⟩ := mem_map.mp hbu
    rfl
  refine ⟨h.toFiled.emptied, fun bu hbu hused => absurd (hfree bu hbu) hused, ?_⟩
  rw [length_usedBuckets, countP_eq_zero.mpr fun bu hbu => by rw [hfree bu hbu]; exact Bool.false_ne_true]
  exact le_rfl

theorem exists_free (h : Filled sz ps occ) (hlt : ps.bucketsUsed < sz.maxhash) :
    ∃ r < sz.maxhash, naming ps.wordbytes ps.table r = none := by
  have hless : ps.table.countP (fun bu => bu.word.isSome) < ps.table.length := by
    have hused := h.used
    rw [length_usedBuckets] at hused
    rw [h.sizeTable]
    omega
  have hnot : ¬ ∀ bu ∈ ps.table, bu.word.isSome = true := fun hall => hless.ne (countP_eq_length.mpr hall)
  push Not at hnot
  obtain ⟨bu, hbu, hnone⟩ := hnot
  obtain ⟨r, hr⟩ := mem_iff_getElem?.mp hbu
  obtain ⟨hlen, -⟩ := List.getElem?_eq_some_iff.mp hr
  refine ⟨r, h.sizeTable ▸ hlen, ?_⟩
  rw [naming_of_getElem? _ hr, Option.not_isSome_iff_eq_none.mp hnone]
  rfl

end Filled

theorem Fresh.filled (h : Fresh sz ps) (hused : 0 ≤ ps.bucketsUsed) : Filled sz ps [] := by
  have hfree : ∀ bu ∈ ps.table, bu.word = none := by
    intro bu hbu
    rw [h.table] at hbu
    rw [eq_of_mem_replicate hbu]
  refine ⟨.empty h.wordbytes h.infobuf (by rw [h.table, length_replicate]) hfree h.wordi h.infoi, h.sized.blocks, ?_⟩
  rw [length_usedBuckets, countP_eq_zero.mpr fun bu hbu => by rw [hfree bu hbu]; exact Bool.false_ne_true]
  exact hused

theorem Filling.filled {read : List (List Byte × PostIt)} (h : Filling sz ps₀ ps read) (hps₀ : Fresh sz ps₀)
    (hused : 0 ≤ ps₀.bucketsUsed) : ∃ occ, occ.map unpad = read ∧ Filled sz ps occ := by
  induction h with
  | start => exact ⟨[], rfl, hps₀.filled hused⟩
  | word _ _ htok hent ih =>
    obtain ⟨occ, rfl, hps⟩ := ih
    obtain ⟨s, hs, hps'⟩ := hps.enterWord htok hent
    exact ⟨_, by rw [map_append, ← hs]; rfl, hps'⟩
  | scan _ hlen hfront ih =>
    obtain ⟨occ, hocc, hps⟩ := ih
    exact ⟨occ, hocc, hps.memory hlen hfront⟩
  | flush _ hflush ih =>
    obtain ⟨occ, -, hps⟩ := ih
    rw [hps.flushwords_eq] at hflush
    obtain ⟨-, rfl⟩ := Prod.mk.inj (Except.ok.inj hflush)
    exact ⟨[], rfl, hps.emptied⟩

theorem exists_addPosting (hh : h < ps.table.length) (hblocks : ps.blocki < sz.maxblocks) :
    ∃ ps', addPosting sz ps tok h i = .ok ps' := by
  have htake : takeBlock sz ps = .ok { ps with blocki := ps.blocki + 1 } := if_pos hblocks
  rw [addPosting, List.getElem?_eq_getElem hh]
  dsimp only
  cases ps.table[h].word with
  | none => exact ⟨_, by rw [htake]; rfl⟩
  | some q =>
    dsimp only
    split_ifs
    · exact ⟨_, by rw [htake]; rfl⟩
    · exact ⟨_, rfl⟩

theorem Filed.exists_enterWord (h : Filed sz ps occ) (htok : tok.Holds ps w) (hp : sz.maxhash.Prime)
    (hfree : ∃ r < sz.maxhash, naming ps.wordbytes ps.table r = none) (hinfo : ps.infoi < sz.maxinfo)
    (hblocks : ps.blocki < sz.maxblocks) (did : Int64) (wc : UInt32) :
    ∃ ps', Psearchy.enterWord sz ps did wc tok = .ok ps' := by
  obtain ⟨r, hr, hnone⟩ := hfree
  rw [← naming_congr h.ended htok.front] at hnone
  obtain ⟨r', hr'⟩ := exists_lookup (w := w) (h.str_eq htok) h.sizeTable hp hr hnone
  obtain ⟨i, hi, -⟩ := lookup_eq_ok (h.str_eq htok) h.sizeTable hr'
  have hlt : r' < ps.table.length := by
    rw [hi, h.sizeTable]
    exact place_lt hp.pos i
  obtain ⟨more, hmore⟩ := htok.back
  have hstr : str tok.mem tok.p = .ok w := by
    rw [str, hmore, if_pos (mem_append_right _ mem_cons_self), cstr_append_zero htok.string]
  rw [Psearchy.enterWord, List.getElem?_eq_getElem (h.sizeInfo.symm ▸ hinfo)]
  dsimp only
  rw [hstr, ok_bind, hr', ok_bind]
  exact exists_addPosting hlt hblocks

namespace Filled

theorem exists_lookup (h : Filled sz ps occ) (hp : sz.maxhash.Prime) (hlt : ps.bucketsUsed < sz.maxhash)
    (htok : tok.Holds ps w) : ∃ r < sz.maxhash, lookup tok.mem ps.table w = .ok r ∧
      (naming ps.wordbytes ps.table r = some w ∨
        naming ps.wordbytes ps.table r = none ∧ ∀ r', naming ps.wordbytes ps.table r' ≠ some w) := by
  have hnaming := naming_congr h.ended htok.front
  obtain ⟨r, hr, hnone⟩ := h.exists_free hlt
  rw [← hnaming] at hnone
  obtain ⟨r', hr'⟩ := Psearchy.exists_lookup (w := w) (h.str_eq htok) h.sizeTable hp hr hnone
  obtain ⟨i, hi, hpass, hcase⟩ := lookup_eq_ok (h.str_eq htok) h.sizeTable hr'
  rw [hnaming] at hpass hcase
  refine ⟨r', hi ▸ place_lt hp.pos i, hr', ?_⟩
  rcases hcase with hfree | hword
  · exact .inr ⟨hfree, fun r'' => h.placed.absent hpass (hi ▸ hfree)⟩
  · exact .inl hword

theorem existsUnique_bucket (h : Filled sz ps occ) (hw : w ∈ occ.map Prod.fst) :
    ∃! r, naming ps.wordbytes ps.table r = some w := by
  obtain ⟨r, hr⟩ := (h.words w).mpr hw
  exact ⟨r, hr, fun r' hr' => h.placed.unique hr' hr⟩

/-- The count of a bucket does not go around, because `infobuf` has too few places for that. -/
theorem bucket_count (h : Filled sz ps occ) (hbu : bu ∈ ps.table) (hused : bu.word ≠ none) :
    bu.n.toNat = bu.blocks.flatten.length := by
  have hmem : bu ∈ usedBuckets ps := mem_filter.mpr ⟨hbu, Option.isSome_iff_ne_none.mpr hused⟩
  obtain ⟨i, q, hi, -, hname, -⟩ := h.getElem?_of_mem_used hmem
  obtain ⟨hlist, hn⟩ := h.lists i bu _ hi hname
  have hshort : bu.blocks.flatten.length < 2 ^ 32 := by
    rw [hlist.length_eq]
    have hle := (length_values_posted_le (withName ps.wordbytes bu).1 occ).trans (h.count ▸ h.infoi_le)
    exact hle.trans_lt (sz.small.trans (by decide))
  rw [hn, UInt32.toNat_ofNat', ← hlist.length_eq, Nat.mod_eq_of_lt hshort]

end Filled

section Runs

variable {c : Core} {read : List (List Byte × PostIt)}

theorem Filling.makeRoom (hp : sz.maxhash.Prime) (h : Filling sz ps₀ c.ps read)
    (hroom : c.makeRoom sz early did wc = .ok c') :
    ∃ read', Filling sz ps₀ c'.ps read' ∧ c'.ps.bucketsUsed < sz.maxhash := by
  rw [Core.makeRoom] at hroom
  split_ifs at hroom with hfull
  · obtain ⟨r, hr, rfl⟩ := map_eq_ok.mp hroom
    refine ⟨[], h.flush hr, ?_⟩
    rw [flushwords_snd hr]
    exact Int.natCast_pos.mpr hp.pos
  · obtain rfl := Except.ok.inj hroom
    simp only [Bool.or_eq_true, full, decide_eq_true_eq, not_or] at hfull
    exact ⟨read, h, by omega⟩

theorem Filling.pass0Loop (hp : sz.maxhash.Prime) (hps₀ : Fresh sz ps₀) (hused : 0 ≤ ps₀.bucketsUsed)
    (hclosed : Closed input) (h : Filling sz ps₀ c.ps read)
    (hrun : pass0Loop sz early did fuel input wc c = .ok c') : ∃ read', Filling sz ps₀ c'.ps read' := by
  induction fuel generalizing input wc c read with
  | zero => cases hrun
  | succ fuel ih =>
    rw [Psearchy.pass0Loop] at hrun
    obtain ⟨c₁, hroom, hrun⟩ := bind_eq_ok.mp hrun
    obtain ⟨tok, htok, hrun⟩ := bind_eq_ok.mp hrun
    obtain ⟨read₁, hc₁, hlt⟩ := h.makeRoom hp hroom
    obtain ⟨occ, -, hfilled⟩ := hc₁.filled hps₀ hused
    have hle : c₁.ps.wordi ≤ c₁.ps.wordbytes.length := hfilled.sizeWord.symm ▸ hfilled.room
    obtain ⟨hlen, -, hmem, hfront⟩ | ⟨hlen, w, hholds, -, hrest⟩ := hclosed.readWord_cases hle htok
    · rw [if_pos hlen] at hrun
      obtain rfl := Except.ok.inj hrun
      exact ⟨read₁, hc₁.scan hmem hfront⟩
    · rw [if_neg hlen] at hrun
      obtain ⟨ps', hent, hrun⟩ := bind_eq_ok.mp hrun
      exact ih hrest (Filling.word hc₁ hlt hholds hent) hrun

/-- Every state that pass0 leaves the table in is described by `Filling`. -/
theorem documents_filling (hp : sz.maxhash.Prime) (hps₀ : Fresh sz ps₀) (hused : 0 ≤ ps₀.bucketsUsed)
    {docs : List (Int64 × List Byte)} (hclosed : ∀ doc ∈ docs, Closed doc.2) (h : Filling sz ps₀ c.ps read)
    (hrun : docs.foldlM (pass0 sz early) c = .ok c') : ∃ read', Filling sz ps₀ c'.ps read' := by
  induction docs generalizing c read with
  | nil =>
    obtain rfl := Except.ok.inj hrun
    exact ⟨read, h⟩
  | cons doc docs ih =>
    obtain ⟨hdoc, hclosed⟩ := forall_mem_cons.mp hclosed
    rw [foldlM_cons] at hrun
    obtain ⟨c₁, hfirst, hrun⟩ := bind_eq_ok.mp hrun
    obtain ⟨read₁, hc₁⟩ := h.pass0Loop hp hps₀ hused hdoc hfirst
    exact ih hclosed hc₁ hrun

/-- "a ". -/
theorem documents_filling_oneWord : ∃ c, [(1, [97, 32])].foldlM (pass0 leastSizes fun _ _ => false) ⟨leastStart, []⟩ = .ok c ∧
    ∃ read, Filling leastSizes leastStart c.ps read := by
  obtain ⟨c, hc⟩ : ∃ c, [(1, [97, 32])].foldlM (pass0 leastSizes fun _ _ => false) ⟨leastStart, []⟩ = .ok c := ⟨_, rfl⟩
  refine ⟨c, hc, documents_filling Nat.prime_three fresh_leastStart le_rfl (forall_mem_singleton.mpr ?_) .start hc⟩
  rintro _ ⟨⟩
  rfl

end Runs

/-- The table of pass0 in every state, when its size is prime and the count starts at zero: a word
that is to be entered is found or has a free bucket, every word has one bucket with all its
postings, and a flush writes the words in order and empties the table. -/
theorem table_correct (sz : Sizes) (hp : sz.maxhash.Prime) (ps₀ : Pass0) (hps₀ : Fresh sz ps₀) (hzero : ps₀.bucketsUsed = 0)
    (ps : Pass0) (read : List (List Byte × PostIt)) (h : Filling sz ps₀ ps read) :
    (ps.bucketsUsed < sz.maxhash → ∀ (tok : Token) (w : List Byte), tok.Holds ps w →
        ∃ r < sz.maxhash, lookup tok.mem ps.table w = .ok r ∧ (naming ps.wordbytes ps.table r = some w ∨
          naming ps.wordbytes ps.table r = none ∧ ∀ r', naming ps.wordbytes ps.table r' ≠ some w)) ∧
      (∀ w ∈ read.map Prod.fst, ∃! r, naming ps.wordbytes ps.table r = some w) ∧
      (∀ bu ∈ ps.table, bu.word ≠ none →
        bu.n.toNat = bu.blocks.flatten.length ∧ ∀ bl ∈ bu.blocks, bl.length ≤ 128) ∧
      ∃ rs ps', flushwords ps = .ok (fileBytes rs, ps') ∧ Sorted rs ∧
        (∀ w, w ∈ rs.map Prod.fst ↔ w ∈ read.map Prod.fst) ∧
        (∀ r ∈ rs, r.2.map Slot.toPostIt = (read.filter fun e => e.1 = r.1).map Prod.snd) ∧
        ∀ bu ∈ ps'.table, bu.word = none := by
  obtain ⟨occ, rfl, hfilled⟩ := h.filled hps₀ hzero.ge
  have hfst : (occ.map unpad).map Prod.fst = occ.map Prod.fst := by
    rw [map_map]
    rfl
  have hmerges := hfilled.merges_flushed
  refine ⟨fun hlt tok w htok => hfilled.exists_lookup hp hlt htok, fun w hw => hfilled.existsUnique_bucket (hfst ▸ hw),
    fun bu hbu hused => ⟨hfilled.bucket_count hbu hused, hfilled.blocks bu hbu hused⟩, flushed ps occ, emptied ps,
    hfilled.flushwords_eq, hmerges.sorted, fun w => ?_, fun r hr => ?_, fun bu hbu => ?_⟩
  · rw [hfst, hmerges.keys w]
    simp only [mem_singleton, exists_eq_left, posted, map_map]
    rfl
  · rw [← values_posted, ← hmerges.sorted.values_of_mem hr, hmerges.values, flatMap_singleton]
  · obtain ⟨bu', -, rfl⟩ := mem_map.mp hbu
    rfl

/-- "a" in a table of three buckets. -/
theorem table_correct_oneWord :
    ∃ ps, enterWord leastSizes leastStart 1 1 ⟨[97, 0, 0], 0, 2, 0, []⟩ = .ok ps ∧
      (∃! r, naming ps.wordbytes ps.table r = some [97]) ∧
      ∃ rs ps', flushwords ps = .ok (fileBytes rs, ps') ∧ Sorted rs ∧ rs.map Prod.fst = [[97]] ∧
        ∀ bu ∈ ps'.table, bu.word = none := by
  have htok : Token.Holds ⟨[97, 0, 0], 0, 2, 0, []⟩ leastStart [97] :=
    ⟨rfl, rfl, by simp, ⟨[0], rfl⟩, rfl, by decide⟩
  obtain ⟨ps, hps⟩ : ∃ ps, enterWord leastSizes leastStart 1 1 ⟨[97, 0, 0], 0, 2, 0, []⟩ = .ok ps := ⟨_, rfl⟩
  have hfilling : Filling leastSizes leastStart ps [([97], ⟨1, 1⟩)] := Filling.word .start (by decide) htok hps
  obtain ⟨-, hbucket, -, rs, ps', hflush, hsorted, hkeys, -, hempty⟩ :=
    table_correct leastSizes Nat.prime_three leastStart fresh_leastStart rfl ps _ hfilling
  refine ⟨ps, hps, hbucket [97] (by simp), rs, ps', hflush, hsorted, ?_, hempty⟩
  refine Pairwise.eq_of_mem_iff (r := (· < ·)) (pairwise_map.mpr hsorted) (pairwise_singleton _ _) fun w => ?_
  exact hkeys w

end Mosbench.Psearchy
