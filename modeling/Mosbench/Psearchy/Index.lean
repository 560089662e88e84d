import Mosbench.Psearchy.SortedPostings
import Mosbench.Psearchy.Word

/-!
From the index that passN writes to the cursors of a query. passN computes the offset
it stores for a word from the lengths of the records before, not from what it has
written; the constructor of Word goes to that offset and takes the record apart again.
-/
namespace Mosbench.Psearchy

open Bytes MultiMerge
open List hiding merge all
open Prod hiding map map_map

namespace W2p

def all (w : W2p) : List (List Byte × ℕ) := w.shards.flatten ++ w.db.getD []

theorem all_w2pClose (w : W2p) : w.w2pClose.all = w.all := by
  cases h : w.db <;> simp [all, w2pClose, h]

theorem all_w2pOpen {w : W2p} (h : w.db = none) : w.w2pOpen.all = w.all := by
  simp [all, w2pOpen, h]

theorem all_insert {w : W2p} (hopen : w.db ≠ none) (hnew : word ∉ w.all.map fst) (offset : ℕ) :
    (w.insert word offset).all = w.all ++ [(word, offset)] := by
  obtain ⟨db, hdb⟩ := Option.ne_none_iff_exists'.mp hopen
  have habsent : ¬ (db.any fun e => e.1 = word) = true := by
    rw [any_eq_true]
    rintro ⟨e, he, heq⟩
    refine hnew (mem_map.mpr ⟨e, ?_, of_decide_eq_true heq⟩)
    rw [all, hdb]
    exact mem_append_right _ he
  rw [insert, all, all, hdb, Option.map_some, if_neg habsent]
  exact (append_assoc _ _ _).symm

theorem all_put (dblim : ℕ) (w : W2p) (hnew : word ∉ w.all.map fst) (offset : ℕ) :
    (w.put dblim word offset).all = w.all ++ [(word, offset)] := by
  have hcount : ∀ (v : W2p) n, ({ v with count := n } : W2p).all = v.all := fun _ _ => rfl
  have hput : ∀ v : W2p, v.all = w.all →
      ((if v.db.isNone then v.w2pOpen else v).insert word offset).all = w.all ++ [(word, offset)] := by
    intro v hv
    rw [← hv] at hnew ⊢
    cases hdb : v.db with
    | none =>
      rw [if_pos Option.isNone_none, all_insert (by simp [w2pOpen]) (by rwa [all_w2pOpen hdb]), all_w2pOpen hdb]
    | some db => rw [if_neg (by simp), all_insert (by simp [hdb]) hnew]
  rw [put, hcount]
  apply hput
  by_cases hlim : dblim ≠ 0
  · rw [if_pos hlim]
    dsimp only
    split_ifs
    · exact all_w2pClose _
    · exact hcount w _
  · rw [if_neg hlim]

end W2p

def offsets : ℕ → List Record → List (List Byte × ℕ)
  | _, [] => []
  | offset, r :: rs => (r.1, offset) :: offsets (offset + r.toBytes.length) rs

theorem length_toBytes (r : Record) : r.toBytes.length = r.1.length + 1 + 4 + r.2.length * Slot.size := by
  rw [Record.toBytes, length_append, length_cons, length_append, length_encode, length_slotBytes]
  omega

theorem map_fst_offsets (offset : ℕ) (rs : List Record) : (offsets offset rs).map fst = rs.map fst := by
  induction rs generalizing offset with
  | nil => rfl
  | cons r rs ih => rw [offsets, map_cons, map_cons, ih]

theorem offsets_append (offset : ℕ) (l rs : List Record) :
    offsets offset (l ++ rs) = offsets offset l ++ offsets (offset + (fileBytes l).length) rs := by
  induction l generalizing offset with
  | nil => rfl
  | cons r l ih =>
    rw [cons_append, offsets, ih, offsets, cons_append, fileBytes_cons, length_append, Nat.add_assoc]

theorem all_entered (dblim : ℕ) (rs : List Record) (hdistinct : (rs.map fst).Nodup)
    (hcount : ∀ r ∈ rs, r.2.length < 2 ^ 32) (st : W2p × ℕ) (hnew : ∀ w ∈ rs.map fst, w ∉ st.1.all.map fst) :
    (rs.foldl (enter dblim) st).1.all = st.1.all ++ offsets st.2 rs := by
  induction rs generalizing st with
  | nil => exact (append_nil _).symm
  | cons r rs ih =>
    obtain ⟨hr, hdistinct⟩ := nodup_cons.mp hdistinct
    obtain ⟨hrcount, hcount⟩ := forall_mem_cons.mp hcount
    obtain ⟨hrnew, hnew⟩ := forall_mem_cons.mp hnew
    have hput := st.1.all_put dblim hrnew st.2
    have hoffset : (enter dblim st r).2 = st.2 + r.toBytes.length := by
      rw [enter, length_toBytes, Nat.mod_eq_of_lt hrcount]
    have hnew' : ∀ w ∈ rs.map fst, w ∉ (enter dblim st r).1.all.map fst := by
      intro w hw
      rw [enter, hput, map_append, mem_append, not_or]
      refine ⟨hnew w hw, fun hmem => hr ?_⟩
      rwa [← mem_singleton.mp hmem]
    rw [foldl_cons, ih hdistinct hcount _ hnew', hoffset, enter, hput, append_assoc]
    rfl

theorem flatten_indexShards (dblim : ℕ) (hdistinct : (idx.map fst).Nodup)
    (hcount : ∀ r ∈ idx, r.2.length < 2 ^ 32) : (indexShards dblim idx).flatten = offsets 0 idx := by
  have hall := all_entered dblim idx hdistinct hcount (.empty, 0) fun _ _ => not_mem_nil
  rw [← W2p.all_w2pClose] at hall
  rw [indexShards, ← append_nil (flatten _)]
  exact hall

theorem mem_indexShards_iff (dblim : ℕ)
    (hdistinct : ((l ++ r :: rs).map fst).Nodup) (hcount : ∀ r' ∈ l ++ r :: rs, r'.2.length < 2 ^ 32) (offset : ℕ) :
    (r.1, offset) ∈ (indexShards dblim (l ++ r :: rs)).flatten ↔ offset = (fileBytes l).length := by
  rw [flatten_indexShards dblim hdistinct hcount, offsets_append, offsets, Nat.zero_add]
  constructor
  · intro hmem
    rw [map_append, nodup_append] at hdistinct
    obtain ⟨-, hrs, hdisj⟩ := hdistinct
    rcases mem_append.mp hmem with hmem | hmem
    · have hl : r.1 ∈ l.map fst := map_fst_offsets 0 l ▸ mem_map_of_mem hmem
      exact absurd rfl (hdisj r.1 hl r.1 mem_cons_self)
    · rcases mem_cons.mp hmem with heq | hmem
      · exact congrArg snd heq
      · have hr : r.1 ∈ rs.map fst := map_fst_offsets _ rs ▸ mem_map_of_mem hmem
        exact absurd hr (nodup_cons.mp hrs).1
  · rintro rfl
    exact mem_append_right _ mem_cons_self

theorem map_ofBytes_slotBytes (slots : List Slot) (rest : List Byte) :
    ((range slots.length).map fun i => (Slot.ofBytes ((slotBytes slots ++ rest).drop (i * Slot.size))).toPostIt) =
      slots.map Slot.toPostIt := by
  induction slots with
  | nil => rfl
  | cons s slots ih =>
    rw [length_cons, range_succ_eq_map, map_cons, map_map, map_cons, Nat.zero_mul, drop_zero,
      slotBytes_cons, append_assoc, Slot.ofBytes_toBytes, ← ih]
    refine congrArg (s.toPostIt :: ·) (map_congr_left fun i _ => ?_)
    rw [Function.comp_apply, Nat.succ_mul, Nat.add_comm, ← drop_drop, drop_left' s.length_toBytes]

/-- A cursor for a word whose record stands at the offset in the database sees the
postings of the record. -/
theorem construct_record {r : Record}
    (hlen : r.1.length ≤ maxlen + 1) (hne : r.2 ≠ []) (hcount : r.2.length < 2 ^ 32)
    (hlookup : w2p.lookup r.1 = some front.length) (garbage : Match) :
    Word.construct maxlen r.1 (front ++ (r.toBytes ++ rest)) w2p garbage =
      .ok ⟨r.2.map Slot.toPostIt, 0, .none, false⟩ := by
  obtain ⟨w, slots⟩ := r
  dsimp only at hlen hne hcount hlookup ⊢
  have hhead : (Record.toBytes (w, slots) ++ rest) =
      (w ++ [0] ++ encode 4 slots.length) ++ (slotBytes slots ++ rest) := by
    simp [Record.toBytes]
  have hheadlen : (w ++ [0] ++ encode 4 slots.length).length = w.length + 1 + 4 := by simp
  have hwordbuf : ((front ++ (Record.toBytes (w, slots) ++ rest)).drop front.length).take (w.length + 1 + 4) =
      w ++ [0] ++ encode 4 slots.length := by
    rw [drop_left, hhead, take_left' hheadlen]
  have hword : (w ++ [0] ++ encode 4 slots.length).take (w.length + 1) = w ++ [0] := take_left' (by simp)
  have hmax : decode ((w ++ [0] ++ encode 4 slots.length).drop (w.length + 1)) = slots.length := by
    rw [drop_left' (by simp), decode_encode]
    exact Nat.mod_eq_of_lt hcount
  have hpos : 0 < slots.length := length_pos_iff.mpr hne
  have hmem : Word.xmmap (front ++ (Record.toBytes (w, slots) ++ rest)) (slots.length * Slot.size)
      (front.length + (w.length + 1 + 4)) = .ok (slotBytes slots) := by
    have hnonempty : ¬ slots.length * Slot.size + (front.length + (w.length + 1 + 4)) % Word.pageSize = 0 := by
      rw [Slot.size]
      omega
    have hinside : ¬ (front ++ (Record.toBytes (w, slots) ++ rest)).length <
        front.length + (w.length + 1 + 4) + slots.length * Slot.size := by
      have hfile : (Record.toBytes (w, slots) ++ rest).length =
          w.length + 1 + 4 + (slots.length * Slot.size + rest.length) := by
        rw [length_append, length_toBytes, Nat.add_assoc]
      rw [length_append, hfile]
      omega
    rw [Word.xmmap, if_neg hnonempty, if_neg hinside, ← drop_drop, drop_left, hhead, drop_left' hheadlen,
      take_left' (length_slotBytes slots)]
  rw [Word.construct, hlookup]
  dsimp only
  rw [if_neg (by omega), hwordbuf,
    if_neg (not_or.mpr ⟨not_not.mpr hheadlen, not_not.mpr hword⟩), hmax, hmem]
  have hslots := map_ofBytes_slotBytes slots []
  rw [append_nil] at hslots
  exact congrArg (fun l => Except.ok (⟨l, 0, .none, false⟩ : Word)) hslots

variable {ts : List (List Record)}

/-- What the offsets and the constructor rely on. -/
structure Readable (maxwordlen : ℕ) (idx : List Record) : Prop where
  sorted : Sorted idx
  fits : ∀ r ∈ idx, r.1.length ≤ maxwordlen
  filled : ∀ r ∈ idx, r.2 ≠ []
  counted : ∀ r ∈ idx, r.2.length < 2 ^ 32

theorem flatMap_values_ne_nil (hsorted : ∀ t ∈ ts, Sorted t) (hfilled : ∀ t ∈ ts, ∀ r ∈ t, r.2 ≠ [])
    (hw : ∃ t ∈ ts, w ∈ t.map fst) : ts.flatMap (values w) ≠ [] := by
  obtain ⟨t, ht, hw⟩ := hw
  obtain ⟨r, hr, rfl⟩ := mem_map.mp hw
  intro hnil
  have hval := flatMap_eq_nil_iff.mp hnil t ht
  rw [(hsorted t ht).values_of_mem hr] at hval
  exact hfilled t ht r hr hval

theorem readable_merge (hsorted : ∀ t ∈ ts, Sorted t) (hwf : ∀ t ∈ ts, ∀ r ∈ t, r.WellFormed maxwordlen)
    (hfilled : ∀ t ∈ ts, ∀ r ∈ t, r.2 ≠ []) (hfew : ∀ w, total w ts < 2 ^ 32) : Readable maxwordlen (merge ts) := by
  have hmerges := merges_merge hsorted
  have hkey : ∀ r ∈ merge ts, ∃ t ∈ ts, r.1 ∈ t.map fst :=
    fun r hr => (hmerges.keys r.1).mp (mem_map_of_mem hr)
  have hlist : ∀ r ∈ merge ts, r.2 = ts.flatMap (values r.1) := fun r hr => by
    rw [← hmerges.values, hmerges.sorted.values_of_mem hr]
  refine ⟨hmerges.sorted, fun r hr => ?_, fun r hr => ?_, fun r hr => ?_⟩
  · obtain ⟨t, ht, hw⟩ := hkey r hr
    obtain ⟨r', hr', hword⟩ := mem_map.mp hw
    exact hword ▸ (hwf t ht r' hr').fits
  · rw [hlist r hr]
    exact flatMap_values_ne_nil hsorted hfilled (hkey r hr)
  · rw [hlist r hr]
    exact hfew r.1

theorem readable_mergePasses (hne : ts ≠ []) (h : Mergeable maxwordlen ts) (hfilled : ∀ t ∈ ts, ∀ r ∈ t, r.2 ≠ []) :
    ∃ idx, mergePasses ts = some idx ∧ Readable maxwordlen idx := by
  rw [mergePasses]
  refine schedule_induction merge (P := fun fuel ts => Mergeable maxwordlen ts → (∀ t ∈ ts, ∀ r ∈ t, r.2 ≠ []) →
    ∃ idx, schedule merge merge fuel ts = some idx ∧ Readable maxwordlen idx) ?_ ?_ _ ts (length_pos_iff.mpr hne)
    le_rfl h hfilled
  · intro fuel ts hpos hlen h hfilled
    have htake := h.sublist (take_sublist maxFDS ts)
    refine ⟨_, schedule_last hpos hlen, readable_merge htake.sorted htake.wellFormed
      (fun t ht => hfilled t (mem_of_mem_take ht)) fun w => ?_⟩
    exact (htake.few w).trans (by omega)
  · intro fuel ts hlen ih h hfilled
    rw [schedule_pass hlen]
    refine ih h.pass fun t ht r hr => ?_
    obtain ⟨g, hg, rfl⟩ := mem_map.mp ht
    have hmerges := h.merges_group hg
    have hr2 : r.2 = g.flatMap (values r.1) := by rw [← hmerges.values, hmerges.sorted.values_of_mem hr]
    rw [hr2]
    exact flatMap_values_ne_nil (fun t ht => h.sorted t (mem_of_mem_groups hg ht))
      (fun t ht => hfilled t (mem_of_mem_groups hg ht)) ((hmerges.keys r.1).mp (mem_map_of_mem hr))

theorem Readable.round_trip (h : Readable maxwordlen idx) (hidx : idx = l ++ r :: rs) (dblim : ℕ) :
    (∀ offset, (r.1, offset) ∈ (indexShards dblim idx).flatten ↔ offset = (fileBytes l).length) ∧
      ∀ db ∈ indexShards dblim idx, r.1 ∈ db.map fst → ∀ garbage,
        Word.construct maxwordlen r.1 (fileBytes idx) db garbage = .ok ⟨r.2.map Slot.toPostIt, 0, .none, false⟩ := by
  subst hidx
  have hmem : r ∈ l ++ r :: rs := mem_append_right _ mem_cons_self
  have hoffset := mem_indexShards_iff dblim ((pairwise_map.mpr h.sorted).imp ne_of_lt) h.counted
  refine ⟨hoffset, fun db hdb hword garbage => ?_⟩
  have hlookup : db.lookup r.1 = some (fileBytes l).length := by
    cases hl : db.lookup r.1 with
    | none =>
      obtain ⟨e, he, heq⟩ := mem_map.mp hword
      exact absurd heq.symm (by simpa using lookup_eq_none_iff.mp hl e he)
    | some offset =>
      obtain ⟨l₁, l₂, rfl, -⟩ := lookup_eq_some_iff.mp hl
      rw [(hoffset offset).mp (mem_flatten.mpr ⟨_, hdb, mem_append_right _ mem_cons_self⟩)]
  have hbytes : fileBytes (l ++ r :: rs) = fileBytes l ++ (r.toBytes ++ fileBytes rs) := flatMap_append
  rw [hbytes]
  exact construct_record ((h.fits r hmem).trans (Nat.le_succ _)) (h.filled r hmem) (h.counted r hmem) hlookup garbage

/-- The postings of a word, in the order in which the documents are read. -/
def postings (docs : List (Int64 × List Byte)) (w : List Byte) : List PostIt :=
  ((docs.flatMap fun doc => entries doc.1 0 (words doc.2)).filter fun e => e.1 = w).map snd

theorem map_fst_entries (did : Int64) (wc : UInt32) (ws : List (List Byte)) : (entries did wc ws).map fst = ws := by
  induction ws generalizing wc with
  | nil => rfl
  | cons w ws ih => rw [entries, map_cons, ih]

theorem Written.readable {docs : List (Int64 × List Byte)} (h : Written sz ts all)
    (hall : all.map unpad = docs.flatMap fun doc => entries doc.1 0 (words doc.2))
    (hfits : ∀ w ∈ all.map fst, w.length ≤ sz.maxwordlen) (hfew : ∀ w, (postings docs w).length < 2 ^ 32) :
    Readable sz.maxwordlen (merge ts) ∧ ∀ r ∈ merge ts, r.2.map Slot.toPostIt = postings docs r.1 := by
  have hmerges := merges_merge h.sorted
  have hlists : ∀ r ∈ merge ts, r.2.map Slot.toPostIt = postings docs r.1 := fun r hr => by
    rw [postings, ← hall, ← values_posted, ← h.values, ← hmerges.values, hmerges.sorted.values_of_mem hr]
  have hkeys : ∀ r ∈ merge ts, r.1 ∈ all.map fst := fun r hr =>
    (h.keys r.1).mp ((hmerges.keys r.1).mp (mem_map_of_mem hr))
  refine ⟨⟨hmerges.sorted, fun r hr => hfits r.1 (hkeys r hr), fun r hr hnil => ?_, fun r hr => ?_⟩, hlists⟩
  · obtain ⟨e, he, heq⟩ := mem_map.mp (hkeys r hr)
    have hmem : e.2.toPostIt ∈ postings docs r.1 := by
      rw [postings, ← hall]
      exact mem_map.mpr ⟨unpad e, mem_filter.mpr ⟨mem_map_of_mem he, decide_eq_true heq⟩, rfl⟩
    rw [← hlists r hr, hnil] at hmem
    exact absurd hmem not_mem_nil
  · rw [← length_map Slot.toPostIt, hlists r hr]
    exact hfew r.1

/-- From the texts of the documents to the cursors, when at most `MaxFDS` temporary files are written:
the words of the database are those of the documents, and a cursor sees every place of its word, in order. -/
theorem documents_to_cursors (sz : Sizes) (early : Int64 → UInt32 → Bool) (dblim : ℕ) (ps : Pass0) (hps : Fresh sz ps)
    (docs : List (Int64 × List Byte)) (hclosed : ∀ doc ∈ docs, Closed doc.2)
    (hfits : ∀ doc ∈ docs, ∀ w ∈ words doc.2, w.length ≤ sz.maxwordlen)
    (hfew : ∀ w, (postings docs w).length < 2 ^ 32) (files : List (List Byte))
    (hfiles : tempFiles sz early ps docs = .ok files) (hlen : files.length ≤ maxFDS) :
    ∃ file shards, passN sz.maxwordlen dblim files = some (file, shards) ∧
      (∀ w, w ∈ shards.flatten.map fst ↔ ∃ doc ∈ docs, w ∈ words doc.2) ∧
      ∀ db ∈ shards, ∀ w ∈ db.map fst, ∀ garbage,
        Word.construct sz.maxwordlen w file db garbage = .ok ⟨postings docs w, 0, .none, false⟩ := by
  obtain ⟨ts, all, rfl, hne, hwritten, hall⟩ := tempFiles_written hps hclosed hfiles
  rw [length_map] at hlen
  have hshort := length_le_of_words hfits hall
  obtain ⟨hread, hlists⟩ := hwritten.readable hall hshort hfew
  have hkeys : (indexShards dblim (merge ts)).flatten.map fst = (merge ts).map fst := by
    rw [flatten_indexShards dblim ((pairwise_map.mpr hread.sorted).imp ne_of_lt) hread.counted, map_fst_offsets]
  refine ⟨_, _, by rw [passN_one_pass dblim hne (by omega) (hwritten.wellFormed hshort), take_of_length_le hlen],
    fun w => ?_, fun db hdb w hw garbage => ?_⟩
  · have hwords : all.map fst = docs.flatMap fun doc => words doc.2 := by
      have hfst : (all.map unpad).map fst = all.map fst := map_map
      simp only [← hfst, hall, map_flatMap, map_fst_entries]
    rw [hkeys, (merges_merge hwritten.sorted).keys, hwritten.keys, hwords, mem_flatMap]
  · have hmem : w ∈ (merge ts).map fst := by
      obtain ⟨e, he, rfl⟩ := mem_map.mp hw
      exact hkeys ▸ mem_map_of_mem (mem_flatten.mpr ⟨db, hdb, he⟩)
    obtain ⟨r, hr, rfl⟩ := mem_map.mp hmem
    obtain ⟨l, rs, hidx⟩ := append_of_mem hr
    rw [← hlists r hr]
    exact (hread.round_trip hidx dblim).2 db hdb hw garbage

theorem documents_to_cursors_twoDocuments :
    ∃ files file shards, tempFiles smallSizes (fun _ _ => false) (start smallSizes) twoDocuments = .ok files ∧
      passN 1 0 files = some (file, shards) ∧ wordB ∈ shards.flatten.map fst ∧ ∀ db ∈ shards, ∀ w ∈ db.map fst, ∀ garbage,
        Word.construct 1 w file db garbage = .ok ⟨postings twoDocuments w, 0, .none, false⟩ := by
  have hdocs : ∀ doc ∈ twoDocuments, (∀ c ∈ doc.2.getLast?, wordChar c = false) ∧ ∀ w ∈ words doc.2, w.length ≤ 1 := by
    decide +kernel
  obtain ⟨file, shards, hpass, hkeys, hcursors⟩ := documents_to_cursors smallSizes (fun _ _ => false) 0 _ (fresh_start _)
    twoDocuments (fun doc hdoc => (hdocs doc hdoc).1) (fun doc hdoc => (hdocs doc hdoc).2)
    (fun w => (length_map ..).trans_lt ((length_filter_le ..).trans_lt (by decide +kernel))) _ rfl (by decide)
  exact ⟨_, file, shards, rfl, hpass, (hkeys wordB).mpr (by decide +kernel), hcursors⟩

def manyPostings (n : ℕ) : List (List Record) :=
  replicate 17 [(wordA, replicate n (slotAt 1 1))] ++ [[(wordB, [slotAt 2 1])]]

section

theorem mem_manyPostings (h : t ∈ manyPostings n) :
    t = [(wordA, replicate n (slotAt 1 1))] ∨ t = [(wordB, [slotAt 2 1])] := by
  rcases mem_append.mp h with h | h
  · exact .inl (eq_of_mem_replicate h)
  · exact .inr (mem_singleton.mp h)

theorem sorted_manyPostings : ∀ t ∈ manyPostings n, Sorted t := by
  intro t ht
  rcases mem_manyPostings ht with rfl | rfl <;> exact pairwise_singleton _ _

theorem wellFormed_manyPostings (hn : n < 2 ^ 28) : ∀ t ∈ manyPostings n, ∀ r ∈ t, r.WellFormed 1 := by
  intro t ht r hr
  have hA : ∀ b ∈ wordA, b ≠ 0 := by decide +kernel
  have hB : ∀ b ∈ wordB, b ≠ 0 := by decide +kernel
  rcases mem_manyPostings ht with rfl | rfl <;> rw [mem_singleton.mp hr]
  · exact ⟨hA, le_rfl, by rwa [length_replicate]⟩
  · exact ⟨hB, le_rfl, by simp⟩

theorem merge_manyPostings :
    merge (manyPostings n) = [(wordA, replicate (17 * n) (slotAt 1 1)), (wordB, [slotAt 2 1])] := by
  refine (merges_merge sorted_manyPostings).eq ⟨?_, fun w => ?_, fun w => ?_⟩
  · have hlt : wordA < wordB := by decide
    simp [Sorted, hlt]
  · simp [manyPostings, or_comm]
  · have hflat : ∀ c, (replicate c [(wordA, replicate n (slotAt 1 1))]).flatMap (values w) =
        if wordA = w then replicate (c * n) (slotAt 1 1) else [] := by
      intro c
      rw [flatMap_replicate, values_cons, values_nil, append_nil]
      split_ifs
      · exact flatten_replicate_replicate
      · simp
    rw [manyPostings, flatMap_append, hflat, flatMap_singleton, values_cons, values_cons, values_nil]
    by_cases hA : wordA = w
    · rw [if_pos hA, if_pos hA]
    · rw [if_neg hA, if_neg hA]

end

end Mosbench.Psearchy
