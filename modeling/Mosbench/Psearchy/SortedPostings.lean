import Mosbench.Psearchy.PassN
import Mosbench.Psearchy.Table
import Mathlib.Tactic.NormNum.Prime

/-!
The order of the postings in the index of a core. A core is given documents with
increasing numbers, and the words of a document are counted, so the postings increase
in the order of reading; the temporary files and their merge keep that order.

The count has 32 bits, and goes around in a document of `2^32` words.
-/
namespace Mosbench.Psearchy

open List Bytes Fallible MultiMerge UInt32

theorem fst_mem_of_mem_entries (he : e ∈ entries did wc ws) : e.1 ∈ ws := by
  induction ws generalizing wc with
  | nil => exact absurd he not_mem_nil
  | cons w ws ih =>
    rcases mem_cons.mp he with rfl | he
    · exact mem_cons_self
    · exact mem_cons_of_mem w (ih he)

theorem toNat_succ {wc : UInt32} (hcount : wc.toNat + (w :: ws).length < 2 ^ 32) :
    (wc + 1).toNat = wc.toNat + 1 ∧ (wc + 1).toNat + ws.length < 2 ^ 32 := by
  rw [length_cons] at hcount
  have hsucc : (wc + 1).toNat = wc.toNat + 1 := by
    rw [UInt32.toNat_add, toNat_one, Nat.mod_eq_of_lt (by omega)]
  exact ⟨hsucc, by omega⟩

theorem mem_entries (hcount : wc.toNat + ws.length < 2 ^ 32)
    (he : e ∈ entries did wc ws) : e.2.dn = did ∧ wc.toNat < e.2.wc.toNat := by
  induction ws generalizing wc with
  | nil => exact absurd he not_mem_nil
  | cons w ws ih =>
    obtain ⟨hsucc, hcount'⟩ := toNat_succ hcount
    rcases mem_cons.mp he with rfl | he
    · exact ⟨rfl, by rw [hsucc]; omega⟩
    · obtain ⟨hdn, hwc⟩ := ih hcount' he
      exact ⟨hdn, by omega⟩

theorem sorted_entries (hcount : wc.toNat + ws.length < 2 ^ 32) :
    (entries did wc ws).Pairwise fun a b => a.2 < b.2 := by
  induction ws generalizing wc with
  | nil => exact .nil
  | cons w ws ih =>
    obtain ⟨hsucc, hcount'⟩ := toNat_succ hcount
    refine pairwise_cons.mpr ⟨fun e he => ?_, ih hcount'⟩
    obtain ⟨hdn, hwc⟩ := mem_entries hcount' he
    exact PostIt.lt_iff.mpr (.inr ⟨by rw [hdn], hwc⟩)

variable {docs : List (Int64 × List Byte)}

theorem sorted_documents (hdocs : docs.Pairwise fun a b => a.1 < b.1)
    (hcount : ∀ doc ∈ docs, (words doc.2).length < 2 ^ 32) :
    (docs.flatMap fun doc => entries doc.1 0 (words doc.2)).Pairwise fun a b => a.2 < b.2 := by
  have hzero : ∀ doc ∈ docs, (0 : UInt32).toNat + (words doc.2).length < 2 ^ 32 := fun doc hdoc => by
    rw [UInt32.toNat_zero, Nat.zero_add]
    exact hcount doc hdoc
  rw [pairwise_flatMap]
  refine ⟨fun doc hdoc => sorted_entries (hzero doc hdoc), hdocs.imp_of_mem fun {a b} ha hb hlt x hx y hy => ?_⟩
  obtain ⟨hdn, -⟩ := mem_entries (hzero a ha) hx
  obtain ⟨hdn', -⟩ := mem_entries (hzero b hb) hy
  exact PostIt.lt_iff.mpr (.inl (by rwa [hdn, hdn', ← Int64.lt_iff_toInt_lt]))

variable {all : List (List Byte × Slot)}

theorem Written.wellFormed (h : Written sz ts all) (hfits : ∀ w ∈ all.map Prod.fst, w.length ≤ sz.maxwordlen) :
    ∀ t ∈ ts, ∀ r ∈ t, r.WellFormed sz.maxwordlen := by
  intro t ht r hr
  have hmem := (h.keys r.1).mp ⟨t, ht, mem_map_of_mem hr⟩
  refine ⟨h.string t ht r hr, hfits r.1 hmem, (h.short t ht r hr).trans_lt (sz.small.trans (by decide))⟩

theorem Written.passN (h : Written sz ts all) (hne : ts ≠ []) (hlen : ts.length ≤ maxFDS)
    (hfits : ∀ w ∈ all.map Prod.fst, w.length ≤ sz.maxwordlen) (dblim : ℕ) :
    ∃ idx shards, passN sz.maxwordlen dblim (ts.map fileBytes) = some (fileBytes idx, shards) ∧ Sorted idx ∧
      (∀ w, w ∈ idx.map Prod.fst ↔ w ∈ all.map Prod.fst) ∧
      ∀ r ∈ idx, r.2.map Slot.toPostIt = ((all.map unpad).filter fun e => e.1 = r.1).map Prod.snd := by
  have hmerges := merges_merge h.sorted
  refine ⟨merge ts, indexShards dblim (merge ts), ?_, hmerges.sorted, fun w => (hmerges.keys w).trans (h.keys w), ?_⟩
  · rw [passN_one_pass dblim hne (by omega) (h.wellFormed hfits), take_of_length_le hlen]
  · intro r hr
    rw [← values_posted, ← h.values, ← hmerges.values, hmerges.sorted.values_of_mem hr]

theorem length_le_of_words (hfits : ∀ doc ∈ docs, ∀ w ∈ words doc.2, w.length ≤ n)
    (hall : all.map unpad = docs.flatMap fun doc => entries doc.1 0 (words doc.2)) :
    ∀ w ∈ all.map Prod.fst, w.length ≤ n := by
  intro w hw
  have hfst : all.map Prod.fst = (all.map unpad).map Prod.fst := by
    rw [map_map]
    rfl
  rw [hfst, hall] at hw
  obtain ⟨e, he, rfl⟩ := mem_map.mp hw
  obtain ⟨doc, hdoc, he⟩ := mem_flatMap.mp he
  exact hfits doc hdoc e.1 (fst_mem_of_mem_entries he)

/-- The posting lists of an index that is written from at most `MaxFDS` temporary files
increase strictly, wherever the table was flushed: when no document has `2^32` words. -/
theorem postings_increasing (sz : Sizes) (early : Int64 → UInt32 → Bool) (dblim : ℕ) (ps : Pass0) (hps : Fresh sz ps)
    (docs : List (Int64 × List Byte)) (hdocs : docs.Pairwise fun a b => a.1 < b.1) (hclosed : ∀ doc ∈ docs, Closed doc.2)
    (hfits : ∀ doc ∈ docs, ∀ w ∈ words doc.2, w.length ≤ sz.maxwordlen)
    (hcount : ∀ doc ∈ docs, (words doc.2).length < 2 ^ 32) (files : List (List Byte))
    (hfiles : tempFiles sz early ps docs = .ok files) (hlen : files.length ≤ maxFDS) :
    ∃ idx shards, passN sz.maxwordlen dblim files = some (fileBytes idx, shards) ∧ Sorted idx ∧
      ∀ r ∈ idx, (r.2.map Slot.toPostIt).Pairwise (· < ·) := by
  obtain ⟨ts, all, rfl, hne, hwritten, hall⟩ := tempFiles_written hps hclosed hfiles
  rw [length_map] at hlen
  obtain ⟨idx, shards, hpassN, hsorted, -, hlists⟩ := hwritten.passN hne hlen (length_le_of_words hfits hall) dblim
  refine ⟨idx, shards, hpassN, hsorted, fun r hr => ?_⟩
  rw [hlists r hr, pairwise_map, hall]
  exact (sorted_documents hdocs hcount).filter _

def smallSizes : Sizes := ⟨1, 2, 4, 3, 4, by decide⟩

def start (sz : Sizes) : Pass0 :=
  ⟨replicate sz.maxword 0, replicate sz.maxinfo (slotAt 0 0), replicate sz.maxhash ⟨none, [], 0⟩, 0, 0, 0, 0⟩

theorem fresh_start (sz : Sizes) : Fresh sz (start sz) :=
  ⟨length_replicate, length_replicate, rfl, rfl, rfl, rfl⟩

/-- "a b " and "a ". -/
def twoDocuments : List (Int64 × List Byte) := [(1, [97, 32, 98, 32]), (2, [97, 32])]

/-- The second document does not fit the buffers together with the first. -/
theorem postings_increasing_twoDocuments :
    ∃ files, tempFiles smallSizes (fun _ _ => false) (start smallSizes) twoDocuments = .ok files ∧ files.length = 2 ∧
      ∃ idx shards, passN 1 0 files = some (fileBytes idx, shards) ∧ Sorted idx ∧
        ∀ r ∈ idx, (r.2.map Slot.toPostIt).Pairwise (· < ·) := by
  have hrun : (tempFiles smallSizes (fun _ _ => false) (start smallSizes) twoDocuments).toOption.map length = some 2 := by
    decide +kernel
  cases hfiles : tempFiles smallSizes (fun _ _ => false) (start smallSizes) twoDocuments with
  | error e =>
    rw [hfiles] at hrun
    exact nomatch hrun
  | ok files =>
    rw [hfiles] at hrun
    have hlen : files.length = 2 := Option.some.inj hrun
    have hwords : ∀ doc ∈ twoDocuments, (∀ w ∈ words doc.2, w.length ≤ 1) ∧ (words doc.2).length ≤ 2 := by decide +kernel
    refine ⟨files, rfl, hlen, postings_increasing smallSizes _ 0 _ (fresh_start _) twoDocuments (by decide) ?_
      (fun doc hdoc => (hwords doc hdoc).1) (fun doc hdoc => (hwords doc hdoc).2.trans_lt (by decide)) files hfiles ?_⟩
    · intro doc hdoc
      have hlast : ∀ doc ∈ twoDocuments, ∀ c ∈ doc.2.getLast?, wordChar c = false := by decide +kernel
      exact hlast doc hdoc
    · rw [hlen]
      decide

/-- Only the buffer for the postings can become full, and lookup goes through the whole
table. -/
structure Roomy (sz : Sizes) : Prop where
  prime : sz.maxhash.Prime
  hash : sz.maxinfo < sz.maxhash
  blocks : sz.maxinfo + 1 < sz.maxblocks
  word : sz.maxinfo * (sz.maxwordlen + 1) ≤ sz.maxword
  info : 0 < sz.maxinfo

def text (ws : List (List Byte)) : List Byte := ws.flatMap fun w => w ++ [32]

structure Steady (sz : Sizes) (c : Core) (read : ℕ) (occ : List (List Byte × Slot)) : Prop where
  filed : Filed sz c.ps occ
  wordi : c.ps.wordi ≤ occ.length * (sz.maxwordlen + 1)
  blocki : c.ps.blocki ≤ occ.length
  used : c.ps.bucketsUsed ≤ occ.length
  read : c.files.length * sz.maxinfo + occ.length = read

theorem text_cons (w : List Byte) (ws : List (List Byte)) : text (w :: ws) = w ++ 32 :: text ws := by
  rw [text, flatMap_cons, append_assoc]
  rfl

theorem words_text (hws : ∀ w ∈ ws, w ≠ [] ∧ ∀ b ∈ w, wordChar b = true) :
    words (text ws) = ws.map fun w => w.map lower := by
  induction ws with
  | nil => exact words_nil
  | cons w ws ih =>
    obtain ⟨⟨hne, hw⟩, hws⟩ := forall_mem_cons.mp hws
    rw [text_cons, words_run hw hne rfl, ih hws, map_cons]

theorem closed_text (ws : List (List Byte)) : Closed (text ws) := by
  intro c hc
  induction ws using reverseRecOn with
  | nil => exact nomatch hc
  | append_singleton ws w _ =>
    rw [text, flatMap_append, flatMap_singleton, ← append_assoc, getLast?_append] at hc
    obtain rfl := Option.some.inj hc
    rfl

theorem Filed.exists_free (h : Filed sz ps occ) (hlt : occ.length < sz.maxhash) :
    ∃ r < sz.maxhash, naming ps.wordbytes ps.table r = none := by
  by_contra hall
  push Not at hall
  have hsome : ∀ r < sz.maxhash, ∃ w, naming ps.wordbytes ps.table r = some w := fun r hr =>
    Option.ne_none_iff_exists'.mp (hall r hr)
  let names := (range sz.maxhash).map fun r => (naming ps.wordbytes ps.table r).getD []
  have hnodup : names.Nodup := by
    refine Nodup.map_on (fun r hr r' hr' heq => ?_) nodup_range
    obtain ⟨w, hw⟩ := hsome r (mem_range.mp hr)
    obtain ⟨w', hw'⟩ := hsome r' (mem_range.mp hr')
    rw [hw, hw'] at heq
    have hsame : w = w' := heq
    exact h.placed.unique hw (hsame ▸ hw')
  have hsub : names ⊆ occ.map Prod.fst := by
    intro w hw
    obtain ⟨r, hr, rfl⟩ := mem_map.mp hw
    obtain ⟨w, hw⟩ := hsome r (mem_range.mp hr)
    rw [hw]
    exact (h.words w).mp ⟨r, hw⟩
  have hle := (hnodup.subperm hsub).length_le
  rw [length_map, length_range, length_map] at hle
  omega

namespace Steady

variable {read : ℕ}

theorem makeRoom (h : Steady sz c read occ) (hroomy : Roomy sz) (did : Int64) (wc : UInt32) :
    ∃ c' occ', c.makeRoom sz (fun _ _ => false) did wc = .ok c' ∧ Steady sz c' read occ' ∧ occ'.length < sz.maxinfo := by
  have hle : occ.length ≤ sz.maxinfo := h.filed.count ▸ h.filed.infoi_le
  rw [Core.makeRoom, Bool.or_false]
  rcases hle.lt_or_eq with hlt | heq
  · have hnot : full sz c.ps = false := by
      have hword : c.ps.wordi + sz.maxwordlen + 1 ≤ sz.maxword :=
        calc c.ps.wordi + sz.maxwordlen + 1
          _ ≤ occ.length * (sz.maxwordlen + 1) + (sz.maxwordlen + 1) := by have := h.wordi; omega
          _ = (occ.length + 1) * (sz.maxwordlen + 1) := (Nat.succ_mul ..).symm
          _ ≤ sz.maxinfo * (sz.maxwordlen + 1) := Nat.mul_le_mul_right _ hlt
          _ ≤ sz.maxword := hroomy.word
      have hinfo := h.filed.count
      have hblocki := h.blocki
      have hused := h.used
      have hhash := hroomy.hash
      have hblocks := hroomy.blocks
      simp only [full, Bool.or_eq_false_iff, decide_eq_false_iff_not]
      omega
    rw [hnot, if_neg Bool.false_ne_true]
    exact ⟨c, occ, rfl, h, hlt⟩
  · have hfull : full sz c.ps = true := by
      have hinfo := h.filed.count
      simp only [full, Bool.or_eq_true, decide_eq_true_eq]
      omega
    rw [hfull, if_pos rfl]
    refine ⟨_, [], h.filed.flush, ⟨h.filed.emptied, Nat.zero_le _, Nat.zero_le _, le_rfl, ?_⟩, hroomy.info⟩
    have hread := h.read
    rw [length_append, length_singleton, Nat.succ_mul, length_nil]
    omega

theorem word (h : Steady sz c read occ) (hroomy : Roomy sz) (hlt : occ.length < sz.maxinfo) (hne : w ≠ [])
    (hw : ∀ b ∈ w, wordChar b = true) (hfits : w.length ≤ sz.maxwordlen) (rest : List Byte) (did : Int64) (wc : UInt32) :
    ∃ tok ps' occ', readWord c.ps.wordbytes c.ps.wordi 0 0 (w ++ 32 :: rest) = .ok tok ∧ tok.len ≠ 0 ∧ tok.rest = rest ∧
      enterWord sz c.ps did wc tok = .ok ps' ∧ Steady sz { c with ps := ps' } (read + 1) occ' := by
  have hroom : c.ps.wordi + w.length < c.ps.wordbytes.length := by
    have hnext : (occ.length + 1) * (sz.maxwordlen + 1) ≤ sz.maxword :=
      (Nat.mul_le_mul_right _ hlt).trans hroomy.word
    have hwordi := h.wordi
    rw [Nat.succ_mul] at hnext
    rw [h.filed.sizeWord]
    omega
  have hread : readWord c.ps.wordbytes c.ps.wordi 0 0 ([] ++ (w ++ 32 :: rest)) = _ :=
    readWord_word (fun b hb => absurd hb not_mem_nil) hw hne rfl (by omega) rest
  rw [nil_append, length_nil, Nat.add_zero, if_pos hroom] at hread
  have htok := holds_overwrite [] hw hroom rest
  have hblocks := hroomy.blocks
  have hblocki := h.blocki
  obtain ⟨ps', hps'⟩ := h.filed.exists_enterWord htok hroomy.prime (h.filed.exists_free (hlt.trans hroomy.hash))
    (h.filed.count ▸ hlt) (by omega) did wc
  obtain ⟨s, -, hfiled, hwordi, hblocki', hused⟩ := h.filed.enterWord htok hps'
  refine ⟨_, ps', occ ++ [(w.map lower, s)], hread, Nat.succ_ne_zero _, rfl, hps', hfiled, ?_, ?_, ?_, ?_⟩
  · have := h.wordi
    dsimp only [length_nil] at hwordi
    rw [length_append, length_singleton, Nat.succ_mul]
    dsimp only
    omega
  · rw [length_append, length_singleton]
    dsimp only
    omega
  · have := h.used
    rw [length_append, length_singleton]
    dsimp only
    omega
  · rw [length_append, length_singleton, ← Nat.add_assoc, h.read]

theorem pass0Loop (hroomy : Roomy sz)
    (hws : ∀ w ∈ ws, w ≠ [] ∧ (∀ b ∈ w, wordChar b = true) ∧ w.length ≤ sz.maxwordlen)
    (hfuel : (text ws).length < fuel) (h : Steady sz c read occ) (did : Int64) (wc : UInt32) :
    ∃ c' occ', pass0Loop sz (fun _ _ => false) did fuel (text ws) wc c = .ok c' ∧ Steady sz c' (read + ws.length) occ' := by
  induction ws generalizing fuel wc c read occ with
  | nil =>
    obtain ⟨fuel, rfl⟩ : ∃ n, fuel = n + 1 := ⟨fuel - 1, by omega⟩
    obtain ⟨c₁, occ₁, hroom, hsteady, -⟩ := h.makeRoom hroomy did wc
    exact ⟨c₁, occ₁, by rw [Psearchy.pass0Loop, hroom]; rfl, hsteady⟩
  | cons w ws ih =>
    obtain ⟨fuel, rfl⟩ : ∃ n, fuel = n + 1 := ⟨fuel - 1, by omega⟩
    obtain ⟨⟨hne, hw, hfits⟩, hws⟩ := forall_mem_cons.mp hws
    obtain ⟨c₁, occ₁, hroom, hsteady, hlt⟩ := h.makeRoom hroomy did wc
    obtain ⟨tok, ps', occ₂, hread, hlen, hrest, hent, hsteady'⟩ :=
      hsteady.word hroomy hlt hne hw hfits (text ws) did (wc + 1)
    have hfuel' : (text ws).length < fuel := by
      rw [text_cons, length_append, length_cons] at hfuel
      omega
    obtain ⟨c', occ', hrun, hsteady''⟩ := ih hws hfuel' hsteady' (wc + 1)
    refine ⟨c', occ', ?_, by rwa [length_cons, Nat.add_comm ws.length, ← Nat.add_assoc]⟩
    rw [Psearchy.pass0Loop, hroom, ok_bind, text_cons, hread, ok_bind, if_neg hlen, hent, ok_bind, hrest, hrun]

end Steady

/-- The temporary files of one text: each but the last has as many postings as fit. -/
theorem exists_tempFiles (hroomy : Roomy sz)
    (hws : ∀ w ∈ ws, w ≠ [] ∧ (∀ b ∈ w, wordChar b = true) ∧ w.length ≤ sz.maxwordlen) (did : Int64) :
    ∃ files, tempFiles sz (fun _ _ => false) (start sz) [(did, text ws)] = .ok files ∧
      (files.length - 1) * sz.maxinfo ≤ ws.length := by
  have hfiled : Filed sz (start sz) [] := by
    refine .empty length_replicate length_replicate length_replicate (fun bu hbu => ?_) rfl rfl
    rw [eq_of_mem_replicate hbu]
  have hsteady : Steady sz ⟨start sz, []⟩ 0 [] :=
    ⟨hfiled, Nat.zero_le _, le_rfl, le_rfl, Nat.zero_mul _⟩
  obtain ⟨c, occ, hrun, hc⟩ := hsteady.pass0Loop hroomy hws (Nat.lt_succ_self _) did 0
  refine ⟨c.files ++ [fileBytes (flushed c.ps occ)], ?_, ?_⟩
  · rw [tempFiles, foldlM_cons, pass0, hrun, ok_bind, foldlM_nil]
    change (c.flush >>= _) = _
    rw [hc.filed.flush]
    rfl
  · have hread := hc.read
    rw [length_append, length_singleton, Nat.add_sub_cancel]
    omega

def longWords (n : ℕ) : List (List Byte) := wordA :: (replicate n wordB ++ [wordA])

theorem entries_append (did : Int64) (wc : UInt32) (ws ws' : List (List Byte)) :
    entries did wc (ws ++ ws') = entries did wc ws ++ entries did (wc + ofNat ws.length) ws' := by
  induction ws generalizing wc with
  | nil =>
    change _ = entries did (wc + 0) ws'
    rw [UInt32.add_zero]
    rfl
  | cons w ws ih =>
    have hcount : wc + 1 + ofNat ws.length = wc + ofNat (ws.length + 1) := by
      rw [ofNat_add, UInt32.add_assoc, UInt32.add_comm 1]
      rfl
    rw [cons_append, entries, ih, entries, cons_append, length_cons, hcount]

theorem mem_longWords (hw : w ∈ longWords n) : w = wordA ∨ w = wordB := by
  rcases mem_cons.mp hw with rfl | hw
  · exact .inl rfl
  · rcases mem_append.mp hw with hw | hw
    · exact .inr (eq_of_mem_replicate hw)
    · exact .inl (mem_singleton.mp hw)

theorem filter_entries_longWords (n : ℕ) :
    ((entries 1 0 (longWords n)).filter fun e => e.1 = wordA).map Prod.snd = [⟨1, 1⟩, ⟨1, 1 + ofNat n + 1⟩] := by
  have hb : ((entries 1 1 (replicate n wordB)).filter fun e => e.1 = wordA) = [] := by
    rw [filter_eq_nil_iff]
    intro e he
    rw [eq_of_mem_replicate (fst_mem_of_mem_entries he)]
    decide
  rw [longWords, entries, UInt32.zero_add, entries_append, length_replicate, filter_cons_of_pos (by decide),
    filter_append, hb]
  rfl

theorem longWords_repeat (hwc : 1 + ofNat n + 1 = 1) (hroomy : Roomy sz) (hmax : sz.maxwordlen = 1)
    (hfiles : n + 2 < maxFDS * sz.maxinfo) :
    Closed (text (longWords n)) ∧ (∀ w ∈ words (text (longWords n)), w.length ≤ 1) ∧
      ∃ files, tempFiles sz (fun _ _ => false) (start sz) [(1, text (longWords n))] = .ok files ∧
        files.length ≤ maxFDS ∧ ∃ idx shards, passN 1 0 files = some (fileBytes idx, shards) ∧ Sorted idx ∧
          ∃ r ∈ idx, r.1 = wordA ∧ r.2.map Slot.toPostIt = [⟨1, 1⟩, ⟨1, 1⟩] := by
  have hgood : ∀ w ∈ longWords n, w ≠ [] ∧ (∀ b ∈ w, wordChar b = true) ∧ w.length ≤ 1 ∧ w.map lower = w := by
    intro w hw
    rcases mem_longWords hw with rfl | rfl <;> decide +kernel
  have hwords : words (text (longWords n)) = longWords n := by
    rw [words_text fun w hw => ⟨(hgood w hw).1, (hgood w hw).2.1⟩]
    exact (map_congr_left fun w hw => (hgood w hw).2.2.2).trans (map_id' _)
  have hshort : ∀ w ∈ words (text (longWords n)), w.length ≤ 1 := fun w hw => (hgood w (hwords ▸ hw)).2.2.1
  obtain ⟨files, hrun, hcount⟩ := exists_tempFiles hroomy
    (fun w hw => ⟨(hgood w hw).1, (hgood w hw).2.1, hmax.symm ▸ (hgood w hw).2.2.1⟩) 1
  have hlen : files.length ≤ maxFDS := by
    have hlength : (longWords n).length = n + 2 := by simp [longWords]
    rw [hlength] at hcount
    have hlt := Nat.lt_of_mul_lt_mul_right (hcount.trans_lt hfiles)
    omega
  have hclosed : ∀ doc ∈ [((1 : Int64), text (longWords n))], Closed doc.2 := fun doc hdoc => by
    rw [mem_singleton.mp hdoc]
    exact closed_text _
  obtain ⟨ts, all, rfl, hne, hwritten, hall⟩ := tempFiles_written (fresh_start sz) hclosed hrun
  have hfits : ∀ w ∈ all.map Prod.fst, w.length ≤ sz.maxwordlen := by
    refine length_le_of_words (fun doc hdoc => ?_) hall
    rw [mem_singleton.mp hdoc, hmax]
    exact hshort
  have hlen' := hlen
  rw [length_map] at hlen'
  obtain ⟨idx, shards, hpassN, hsorted, hkeys, hlists⟩ := hwritten.passN hne hlen' hfits 0
  rw [flatMap_singleton, hwords] at hall
  have hmem : wordA ∈ idx.map Prod.fst := by
    have hfst : all.map Prod.fst = (all.map unpad).map Prod.fst := by
      rw [map_map]
      rfl
    rw [hkeys, hfst, hall]
    exact mem_cons_self
  obtain ⟨r, hr, hrA⟩ := mem_map.mp hmem
  refine ⟨closed_text _, hshort, _, hrun, hlen, idx, shards, hmax ▸ hpassN, hsorted, r, hr, hrA, ?_⟩
  rw [hlists r hr, hall, hrA, filter_entries_longWords, hwc]

def largeSizes : Sizes := ⟨1, 2 ^ 26, 2 ^ 27, 67108879, 2 ^ 27, by decide⟩

theorem roomy_largeSizes : Roomy largeSizes where
  prime := show Nat.Prime 67108879 by norm_num
  hash := by decide
  blocks := by decide
  word := by decide
  info := by decide

/-- In a document with more than `2^32` words two places of a word get the same posting. -/
theorem position_wraps :
    Closed (text (longWords 4294967295)) ∧ (∀ w ∈ words (text (longWords 4294967295)), w.length ≤ 1) ∧
      ∃ files, tempFiles largeSizes (fun _ _ => false) (start largeSizes) [(1, text (longWords 4294967295))] = .ok files ∧
        files.length ≤ maxFDS ∧ ∃ idx shards, passN 1 0 files = some (fileBytes idx, shards) ∧ Sorted idx ∧
          ∃ r ∈ idx, r.1 = wordA ∧ r.2.map Slot.toPostIt = [⟨1, 1⟩, ⟨1, 1⟩] :=
  longWords_repeat (by decide) roomy_largeSizes rfl (by decide)

end Mosbench.Psearchy
