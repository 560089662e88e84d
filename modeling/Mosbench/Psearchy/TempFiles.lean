import Mosbench.Psearchy.HashTable

/-!
The temporary files of pass0. A flush writes the words that are filed in the table, in
strictly increasing order and each with its postings in the order in which they were
read. So the files of a core together have the words of its documents.
-/
namespace Mosbench.Psearchy

open List Option Bytes Fallible MultiMerge

theorem Filed.empty (hword : ps.wordbytes.length = sz.maxword) (hinfo : ps.infobuf.length = sz.maxinfo)
    (htable : ps.table.length = sz.maxhash) (hfree : ∀ bu ∈ ps.table, bu.word = none) (hwordi : ps.wordi = 0)
    (hinfoi : ps.infoi = 0) : Filed sz ps [] := by
  have hnaming : ∀ h, naming ps.wordbytes ps.table h = none := by
    intro h
    cases hget : ps.table[h]? with
    | none => rw [naming, hget]; rfl
    | some bu =>
      rw [naming_of_getElem? _ hget, hfree bu (mem_of_getElem? hget)]
      rfl
  refine ⟨hword, hinfo, htable, hwordi.trans_le (Nat.zero_le _), hinfoi, by rw [hinfoi]; rfl, ?_, .of_free hnaming, ?_, ?_⟩
  · intro bu hbu q hq
    rw [hfree bu hbu] at hq
    cases hq
  · intro h bu w _ hname
    rw [hnaming h] at hname
    cases hname
  · intro w
    refine iff_of_false ?_ not_mem_nil
    rintro ⟨h, hname⟩
    rw [hnaming h] at hname
    cases hname

def withName (mem : List Byte) (bu : Bucket) : List Byte × Bucket := (cstr (mem.drop (bu.word.getD 0)), bu)

def recordOf (occ : List (List Byte × Slot)) (e : List Byte × Bucket) : Record := (e.1, values e.1 (posted occ))

def usedBuckets (ps : Pass0) : List Bucket := ps.table.filter fun bu => bu.word.isSome

def flushed (ps : Pass0) (occ : List (List Byte × Slot)) : List Record :=
  (sortTable ((usedBuckets ps).map (withName ps.wordbytes))).map (recordOf occ)

def emptied (ps : Pass0) : Pass0 := { ps with
  table := ps.table.map fun bu => { bu with word := none }
  wordi := 0
  infoi := 0
  blocki := 0
  bucketsUsed := 0 }

theorem flushwords_snd (h : flushwords ps = .ok r) : r.2 = emptied ps := by
  rw [flushwords] at h
  obtain ⟨named, -, h⟩ := bind_eq_ok.mp h
  obtain ⟨bytes, -, h⟩ := bind_eq_ok.mp h
  obtain rfl := Except.ok.inj h
  rfl

theorem mem_sortTable : e ∈ sortTable named ↔ e ∈ named :=
  (perm_insertionSort _ _).mem_iff

theorem sortTable_sorted (h : (named.map Prod.fst).Nodup) :
    (sortTable named).Pairwise fun a b => a.1 < b.1 := by
  have hnodup : (sortTable named).Pairwise fun a b => a.1 ≠ b.1 :=
    pairwise_map.mp (((perm_insertionSort _ _).map _).nodup_iff.mpr h)
  have hle : (sortTable named).Pairwise fun a b => a.1 ≤ b.1 := by
    have : Std.Total fun a b : List Byte × Bucket => a.1 ≤ b.1 := ⟨fun a b => le_total a.1 b.1⟩
    have : IsTrans (List Byte × Bucket) fun a b => a.1 ≤ b.1 := ⟨fun _ _ _ => le_trans⟩
    exact pairwise_insertionSort _ _
  exact hle.imp₂ (fun _ _ => lt_of_le_of_ne) hnodup

theorem string_flushed (ps : Pass0) (occ : List (List Byte × Slot)) : ∀ r ∈ flushed ps occ, ∀ b ∈ r.1, b ≠ 0 := by
  intro r hr b hb
  obtain ⟨e, he, rfl⟩ := mem_map.mp hr
  obtain ⟨bu, -, rfl⟩ := mem_map.mp (mem_sortTable.mp he)
  exact ne_zero_of_mem_cstr hb

theorem length_values_posted_le (w : List Byte) (occ : List (List Byte × Slot)) :
    (values w (posted occ)).length ≤ occ.length := by
  rw [values, length_flatMap]
  refine (((filter_sublist (l := posted occ)).map _).sum_le_sum fun _ _ => Nat.zero_le _).trans ?_
  rw [posted, List.map_map]
  change (occ.map fun _ => 1).sum ≤ _
  simp

namespace Filed

theorem getElem?_of_mem_used (h : Filed sz ps occ) (hbu : bu ∈ usedBuckets ps) :
    ∃ i q, ps.table[i]? = some bu ∧ bu.word = some q ∧
      naming ps.wordbytes ps.table i = some (withName ps.wordbytes bu).1 ∧
      Bucket.named ps.wordbytes bu = .ok (withName ps.wordbytes bu) := by
  obtain ⟨hmem, hsome⟩ := mem_filter.mp hbu
  obtain ⟨i, hi⟩ := mem_iff_getElem?.mp hmem
  obtain ⟨q, hq⟩ := isSome_iff_exists.mp hsome
  refine ⟨i, q, hi, hq, ?_, ?_⟩
  · rw [naming_of_getElem? _ hi, withName, hq]
    rfl
  · rw [Bucket.named, withName, hq]
    dsimp only
    rw [str_eq_ok (h.ended bu hmem q hq)]
    rfl

theorem nodup_names (h : Filed sz ps occ) : (((usedBuckets ps).map (withName ps.wordbytes)).map Prod.fst).Nodup := by
  rw [List.map_map, List.Nodup, pairwise_map, usedBuckets, pairwise_filter, pairwise_iff_getElem]
  intro i j hi hj hij hsome hsome' heq
  obtain ⟨q, hq⟩ := Option.isSome_iff_exists.mp hsome
  obtain ⟨q', hq'⟩ := Option.isSome_iff_exists.mp hsome'
  have hname : ∀ {i q} (hi : i < ps.table.length), ps.table[i].word = some q →
      naming ps.wordbytes ps.table i = some (withName ps.wordbytes ps.table[i]).1 := by
    intro i q hi hq
    rw [naming_of_getElem? _ (getElem?_eq_getElem hi), withName, hq]
    rfl
  have hsame : (withName ps.wordbytes ps.table[i]).1 = (withName ps.wordbytes ps.table[j]).1 := heq
  exact absurd (h.placed.unique (hname hi hq) (hsame ▸ hname hj hq')) hij.ne

theorem flatten_writeBucket (h : Filed sz ps occ) (hbu : bu ∈ usedBuckets ps) :
    writeBucket ps.infobuf (withName ps.wordbytes bu) = .ok (recordOf occ (withName ps.wordbytes bu)).toBytes := by
  obtain ⟨i, q, hi, -, hname, -⟩ := h.getElem?_of_mem_used hbu
  obtain ⟨hlist, hn⟩ := h.lists i bu _ hi hname
  have hslots : bu.blocks.flatten.mapM (slotAtIndex ps.infobuf) =
      .ok (values (withName ps.wordbytes bu).1 (posted occ)) := by
    refine mapM_eq_ok (hlist.imp fun i s his => ?_)
    rw [← h.slots, getElem?_take] at his
    split_ifs at his
    rw [slotAtIndex, his]
  rw [writeBucket]
  change (bu.blocks.flatten.mapM (slotAtIndex ps.infobuf) >>= _) = _
  rw [hslots, ok_bind, recordOf, Record.toBytes]
  -- the count is stored modulo the width of the field
  have hcount : encode 4 bu.n.toNat = encode 4 (values (withName ps.wordbytes bu).1 (posted occ)).length := by
    rw [hn, UInt32.toNat_ofNat']
    exact encode_mod 4 _
  rw [← hcount]
  rfl

theorem flushwords_eq (h : Filed sz ps occ) : flushwords ps = .ok (fileBytes (flushed ps occ), emptied ps) := by
  have hnamed : (usedBuckets ps).mapM (Bucket.named ps.wordbytes) = .ok ((usedBuckets ps).map (withName ps.wordbytes)) := by
    refine mapM_eq_ok ?_
    rw [forall₂_map_right_iff, forall₂_same]
    intro bu hbu
    obtain ⟨-, -, -, -, -, hok⟩ := h.getElem?_of_mem_used hbu
    exact hok
  have hbytes : (sortTable ((usedBuckets ps).map (withName ps.wordbytes))).mapM (writeBucket ps.infobuf) =
      .ok ((flushed ps occ).map Record.toBytes) := by
    refine mapM_eq_ok ?_
    rw [flushed, List.map_map, forall₂_map_right_iff, forall₂_same]
    intro e he
    obtain ⟨bu, hbu, rfl⟩ := mem_map.mp (mem_sortTable.mp he)
    exact h.flatten_writeBucket hbu
  rw [flushwords]
  change ((usedBuckets ps).mapM (Bucket.named ps.wordbytes) >>= _) = _
  rw [hnamed, ok_bind, hbytes, ok_bind, fileBytes, flatMap_def]
  rfl

theorem flush {c : Core} (h : Filed sz c.ps occ) : c.flush = .ok ⟨emptied c.ps, c.files ++ [fileBytes (flushed c.ps occ)]⟩ := by
  rw [Core.flush, h.flushwords_eq]
  rfl

theorem emptied (h : Filed sz ps occ) : Filed sz (emptied ps) [] := by
  refine .empty h.sizeWord h.sizeInfo (length_map _ |>.trans h.sizeTable) ?_ rfl rfl
  intro bu hbu
  obtain ⟨bu', -, rfl⟩ := mem_map.mp hbu
  rfl

theorem merges_flushed (h : Filed sz ps occ) : Merges [posted occ] (flushed ps occ) := by
  have hsorted : Sorted (flushed ps occ) := by
    rw [Sorted, flushed, pairwise_map]
    exact sortTable_sorted h.nodup_names
  have hkeys : ∀ w, w ∈ (flushed ps occ).map Prod.fst ↔ w ∈ occ.map Prod.fst := by
    intro w
    rw [← h.words, flushed, List.map_map, List.mem_map]
    constructor
    · rintro ⟨e, he, rfl⟩
      obtain ⟨bu, hbu, rfl⟩ := mem_map.mp (mem_sortTable.mp he)
      obtain ⟨i, -, -, -, hname, -⟩ := h.getElem?_of_mem_used hbu
      exact ⟨i, hname⟩
    · rintro ⟨i, hname⟩
      rw [naming, map_eq_some_iff] at hname
      obtain ⟨q, hq, rfl⟩ := hname
      obtain ⟨bu, hbu, hq⟩ := bind_eq_some_iff.mp hq
      have hused : bu ∈ usedBuckets ps := mem_filter.mpr ⟨mem_of_getElem? hbu, by rw [hq]; rfl⟩
      refine ⟨_, mem_sortTable.mpr (mem_map_of_mem hused), ?_⟩
      rw [Function.comp_apply, recordOf, withName, hq]
      rfl
  have hposted : (posted occ).map Prod.fst = occ.map Prod.fst := by
    rw [posted, List.map_map]
    rfl
  refine ⟨hsorted, fun w => ?_, fun w => ?_⟩
  · simp only [hkeys, mem_singleton, exists_eq_left, hposted]
  · rw [flatMap_singleton]
    by_cases hw : w ∈ (flushed ps occ).map Prod.fst
    · obtain ⟨r, hr, rfl⟩ := mem_map.mp hw
      rw [hsorted.values_of_mem hr]
      obtain ⟨e, -, rfl⟩ := mem_map.mp hr
      rfl
    · rw [values_eq_nil hw, values_eq_nil]
      rwa [hposted, ← hkeys]

theorem short_flushed (h : Filed sz ps occ) : ∀ r ∈ flushed ps occ, r.2.length ≤ sz.maxinfo := by
  intro r hr
  obtain ⟨e, -, rfl⟩ := mem_map.mp hr
  exact (length_values_posted_le e.1 occ).trans (h.count ▸ h.infoi_le)

end Filed

structure Written (sz : Sizes) (ts : List (List Record)) (done : List (List Byte × Slot)) : Prop where
  sorted : ∀ t ∈ ts, Sorted t
  string : ∀ t ∈ ts, ∀ r ∈ t, ∀ b ∈ r.1, b ≠ 0
  short : ∀ t ∈ ts, ∀ r ∈ t, r.2.length ≤ sz.maxinfo
  keys : ∀ w, (∃ t ∈ ts, w ∈ t.map Prod.fst) ↔ w ∈ done.map Prod.fst
  values : ∀ w, ts.flatMap (values w) = values w (posted done)

/-- A core has read the words `all`: some are in its files, the others in its table. -/
def Core.Has (sz : Sizes) (c : Core) (all : List (List Byte × Slot)) : Prop :=
  ∃ ts done occ, all = done ++ occ ∧ c.files = ts.map fileBytes ∧ Written sz ts done ∧ Filed sz c.ps occ

theorem Written.concat (h : Written sz ts done)
    (hps : Filed sz ps occ) : Written sz (ts ++ [flushed ps occ]) (done ++ occ) := by
  have hmerges := hps.merges_flushed
  constructor
  · intro t ht
    rcases mem_append.mp ht with ht | ht
    · exact h.sorted t ht
    · exact mem_singleton.mp ht ▸ hmerges.sorted
  · intro t ht
    rcases mem_append.mp ht with ht | ht
    · exact h.string t ht
    · exact mem_singleton.mp ht ▸ string_flushed ps occ
  · intro t ht
    rcases mem_append.mp ht with ht | ht
    · exact h.short t ht
    · exact mem_singleton.mp ht ▸ hps.short_flushed
  · intro w
    have hkeys := hmerges.keys w
    simp only [List.mem_singleton, exists_eq_left, posted, List.map_map] at hkeys
    simp only [List.mem_append, List.mem_singleton, or_and_right, exists_or, exists_eq_left, h.keys, hkeys,
      List.map_append]
    rfl
  · intro w
    rw [List.flatMap_append, h.values, List.flatMap_singleton, hmerges.values, List.flatMap_singleton, posted, posted,
      posted, List.map_append, values_append]

namespace Core.Has

variable {c : Core} {all : List (List Byte × Slot)}

theorem flush (h : c.Has sz all) : ∃ c', c.flush = .ok c' ∧ c'.Has sz all := by
  obtain ⟨ts, done, occ, rfl, hfiles, hwritten, hps⟩ := h
  refine ⟨_, hps.flush, ?_⟩
  exact ⟨ts ++ [flushed c.ps occ], done ++ occ, [], by simp, by simp [hfiles], hwritten.concat hps, hps.emptied⟩

theorem makeRoom (h : c.Has sz all)
    (hroom : c.makeRoom sz early did wc = .ok c') : c'.Has sz all := by
  rw [Core.makeRoom] at hroom
  split_ifs at hroom
  · obtain ⟨c'', hflush, hhas⟩ := h.flush
    exact Except.ok.inj (hflush.symm.trans hroom) ▸ hhas
  · exact Except.ok.inj hroom ▸ h

end Core.Has

/-- The words of a document from the one after the `wc`-th on, with their postings. -/
def entries (did : Int64) : UInt32 → List (List Byte) → List (List Byte × PostIt)
  | _, [] => []
  | wc, w :: ws => (w, ⟨did, wc + 1⟩) :: entries did (wc + 1) ws

/-- A word with its posting, without the bytes that no one sets. -/
def unpad (e : List Byte × Slot) : List Byte × PostIt := (e.1, e.2.toPostIt)

theorem values_posted (w : List Byte) (occ : List (List Byte × Slot)) :
    (values w (posted occ)).map Slot.toPostIt = ((occ.map unpad).filter fun e => e.1 = w).map Prod.snd := by
  induction occ with
  | nil => rfl
  | cons e occ ih =>
    rw [posted, map_cons, values_cons, map_append, ← posted, ih, map_cons]
    by_cases he : e.1 = w
    · have hpos : (unpad e).1 = w := he
      rw [if_pos he, filter_cons_of_pos (by simpa only [decide_eq_true_eq] using hpos)]
      rfl
    · have hneg : (unpad e).1 ≠ w := he
      rw [if_neg he, filter_cons_of_neg (by simpa only [decide_eq_true_eq] using hneg)]
      rfl

theorem lower_ne_zero : ∀ b : Byte, wordChar b = true → lower b ≠ 0 := by decide +kernel

theorem holds_overwrite (seps : List Byte) {run : List Byte} (hrun : ∀ b ∈ run, wordChar b = true)
    (hfit : ps.wordi + seps.length + run.length < ps.wordbytes.length) (rest : List Byte) :
    Token.Holds ⟨overwrite ps.wordbytes ps.wordi (replicate seps.length 0 ++ (run.map lower ++ [0])),
      ps.wordi + seps.length, run.length + 1, seps.length, rest⟩ ps (run.map lower) := by
  have hbytes : (replicate seps.length (0 : Byte) ++ (run.map lower ++ [0])).length = seps.length + (run.length + 1) := by
    simp
  have hle : ps.wordi + (replicate seps.length (0 : Byte) ++ (run.map lower ++ [0])).length ≤ ps.wordbytes.length := by
    omega
  refine ⟨length_overwrite hle, take_overwrite hle, ?_, ?_, ?_, ?_⟩
  · intro b hb
    obtain ⟨b', hb', rfl⟩ := mem_map.mp hb
    exact lower_ne_zero b' (hrun b' hb')
  · refine ⟨ps.wordbytes.drop (ps.wordi + (seps.length + (run.length + 1))), ?_⟩
    dsimp only
    rw [← drop_drop, drop_overwrite hle, append_assoc, drop_left' length_replicate, hbytes,
      append_assoc]
    rfl
  · dsimp only
    rw [length_map]
    omega
  · dsimp only
    omega

theorem Closed.readWord_cases (hclosed : Closed input) (hp : ps.wordi ≤ ps.wordbytes.length)
    (htok : readWord ps.wordbytes ps.wordi 0 0 input = .ok tok) :
    (tok.len = 0 ∧ words input = [] ∧ tok.mem.length = ps.wordbytes.length ∧
        tok.mem.take ps.wordi = ps.wordbytes.take ps.wordi) ∨
      (tok.len ≠ 0 ∧ ∃ w, tok.Holds ps w ∧ words input = w :: words tok.rest ∧ Closed tok.rest) := by
  obtain hseps | ⟨seps, run, d, rest, rfl, hseps, hrun, hne, hd, hrest⟩ := hclosed.cases
  · -- no word is left; the separators are written behind the words
    rw [readWord_end hseps hp] at htok
    split_ifs at htok with hfit
    obtain rfl := Except.ok.inj htok
    have hle : ps.wordi + (replicate input.length (0 : Byte)).length ≤ ps.wordbytes.length := by
      rwa [length_replicate]
    have hwords : words input = [] := by
      have := words_seps hseps []
      rwa [append_nil, words_nil] at this
    exact .inl ⟨rfl, hwords, length_overwrite hle, take_overwrite hle⟩
  · rw [readWord_word hseps hrun hne hd hp] at htok
    split_ifs at htok with hfit
    obtain rfl := Except.ok.inj htok
    refine .inr ⟨Nat.succ_ne_zero _, run.map lower, holds_overwrite seps hrun hfit rest, ?_, hrest⟩
    rw [words_seps hseps, words_run hrun hne hd]

namespace Filed

theorem memory (h : Filed sz ps occ) (hlen : mem.length = ps.wordbytes.length)
    (hfront : mem.take ps.wordi = ps.wordbytes.take ps.wordi) : Filed sz { ps with wordbytes := mem } occ := by
  have hnaming := naming_congr h.ended hfront
  refine ⟨hlen.trans h.sizeWord, h.sizeInfo, h.sizeTable, h.room, h.count, h.slots, ?_, ?_, ?_, ?_⟩
  · intro bu hbu q hq
    exact hfront.symm ▸ h.ended bu hbu q hq
  · exact hnaming.symm ▸ h.placed
  · exact hnaming.symm ▸ h.lists
  · exact hnaming.symm ▸ h.words

end Filed

namespace Core.Has

variable {all : List (List Byte × Slot)}

theorem pass0Loop (hclosed : Closed input) (h : c.Has sz all)
    (hrun : pass0Loop sz early did fuel input wc c = .ok c') :
    ∃ new, new.map unpad = entries did wc (words input) ∧ c'.Has sz (all ++ new) := by
  induction fuel generalizing input wc c all with
  | zero => exact nomatch hrun
  | succ fuel ih =>
    rw [Psearchy.pass0Loop] at hrun
    obtain ⟨c₁, hroom, hrun⟩ := bind_eq_ok.mp hrun
    obtain ⟨tok, htok, hrun⟩ := bind_eq_ok.mp hrun
    obtain ⟨ts, done, occ, rfl, hfiles, hwritten, hps⟩ := h.makeRoom hroom
    have hp : c₁.ps.wordi ≤ c₁.ps.wordbytes.length := hps.sizeWord.symm ▸ hps.room
    obtain ⟨hlen, hwords, hmem, hfront⟩ | ⟨hlen, w, hholds, hwords, hrest⟩ := hclosed.readWord_cases hp htok
    · rw [if_pos hlen] at hrun
      obtain rfl := Except.ok.inj hrun
      refine ⟨[], by rw [hwords]; rfl, ts, done, occ, by rw [append_nil], hfiles, hwritten, ?_⟩
      exact hps.memory hmem hfront
    · rw [if_neg hlen] at hrun
      obtain ⟨ps', hent, hrun⟩ := bind_eq_ok.mp hrun
      obtain ⟨s, hs, hps', -⟩ := hps.enterWord hholds hent
      have hhas : Core.Has sz { c₁ with ps := ps' } (done ++ occ ++ [(w, s)]) :=
        ⟨ts, done, occ ++ [(w, s)], by rw [append_assoc], hfiles, hwritten, hps'⟩
      obtain ⟨new, hnew, hc'⟩ := ih hrest hhas hrun
      refine ⟨(w, s) :: new, ?_, ?_⟩
      · rw [hwords, map_cons, hnew, unpad, hs, entries]
      · rwa [append_assoc] at hc'

theorem documents {docs : List (Int64 × List Byte)} (hclosed : ∀ doc ∈ docs, Closed doc.2) (h : c.Has sz all)
    (hrun : docs.foldlM (pass0 sz early) c = .ok c') :
    ∃ new, new.map unpad = docs.flatMap (fun doc => entries doc.1 0 (words doc.2)) ∧ c'.Has sz (all ++ new) := by
  induction docs generalizing c all with
  | nil =>
    obtain rfl := Except.ok.inj hrun
    exact ⟨[], rfl, by rwa [append_nil]⟩
  | cons doc docs ih =>
    obtain ⟨hdoc, hclosed⟩ := forall_mem_cons.mp hclosed
    rw [foldlM_cons] at hrun
    obtain ⟨c₁, hfirst, hrun⟩ := bind_eq_ok.mp hrun
    obtain ⟨new, hnew, hc₁⟩ := h.pass0Loop hdoc hfirst
    obtain ⟨new', hnew', hc'⟩ := ih hclosed hc₁ hrun
    refine ⟨new ++ new', ?_, by rwa [append_assoc] at hc'⟩
    rw [map_append, hnew, hnew', flatMap_cons]

end Core.Has

structure Fresh (sz : Sizes) (ps : Pass0) : Prop where
  wordbytes : ps.wordbytes.length = sz.maxword
  infobuf : ps.infobuf.length = sz.maxinfo
  table : ps.table = List.replicate sz.maxhash ⟨none, [], 0⟩
  wordi : ps.wordi = 0
  infoi : ps.infoi = 0
  blocki : ps.blocki = 0

theorem Fresh.has (h : Fresh sz ps) : Core.Has sz ⟨ps, []⟩ [] := by
  refine ⟨[], [], [], rfl, rfl, ⟨nofun, nofun, nofun, by simp, by simp [posted]⟩, ?_⟩
  refine .empty h.wordbytes h.infobuf (by rw [h.table, length_replicate]) ?_ h.wordi h.infoi
  intro bu hbu
  rw [h.table] at hbu
  rw [eq_of_mem_replicate hbu]

theorem tempFiles_written
    (hps : Fresh sz ps) (hclosed : ∀ doc ∈ docs, Closed doc.2) (h : tempFiles sz early ps docs = .ok files) :
    ∃ ts all, files = ts.map fileBytes ∧ ts ≠ [] ∧ Written sz ts all ∧
      all.map unpad = docs.flatMap fun doc => entries doc.1 0 (words doc.2) := by
  rw [tempFiles] at h
  obtain ⟨c, hrun, h⟩ := bind_eq_ok.mp h
  obtain ⟨c', hflush, h⟩ := bind_eq_ok.mp h
  obtain rfl := Except.ok.inj h
  obtain ⟨all, hall, ts, done, occ, heq, hfiles, hwritten, hc⟩ := hps.has.documents hclosed hrun
  rw [nil_append] at heq
  subst heq
  rw [hc.flush] at hflush
  obtain rfl := Except.ok.inj hflush
  refine ⟨ts ++ [flushed c.ps occ], _, ?_, by simp, hwritten.concat hc, hall⟩
  rw [map_append, ← hfiles]
  rfl

end Mosbench.Psearchy
