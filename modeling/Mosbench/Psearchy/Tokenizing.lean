import Mosbench.Psearchy.SortedPostings

/-!
What pass0 records, for files that end with a separator. A run at the end of a file is left
without a zero, and the next word is written right behind it.
-/
namespace Mosbench.Psearchy

open List Bytes Fallible MultiMerge

def Bucket.postings (infobuf : List Slot) (bu : Bucket) : List Slot := bu.blocks.flatten.filterMap fun i => infobuf[i]?

def tabled (ps : Pass0) (w : List Byte) : List Slot :=
  (ps.table.filter fun bu => (bu.word.map fun q => cstr (ps.wordbytes.drop q)) = some w).flatMap (Bucket.postings ps.infobuf)

def Slot.spot (s : Slot) : Int64 × ℕ := (s.dn, s.wc.toNat)

def occurrences (docs : List (Int64 × List Byte)) (w : List Byte) : List (Int64 × ℕ) :=
  docs.flatMap fun doc => (((words doc.2).zipIdx 1).filter fun e => e.1 = w).map fun e => (doc.1, e.2)

variable {docs : List (Int64 × List Byte)}

theorem filter_eq_singleton {p : α → Bool} {l : List α} {i : ℕ} {a : α} (hi : l[i]? = some a) (hp : p a = true)
    (hunique : ∀ j b, l[j]? = some b → p b = true → j = i) : l.filter p = [a] := by
  induction l generalizing i with
  | nil => cases hi
  | cons x l ih =>
    cases i with
    | zero =>
      obtain rfl := Option.some.inj hi
      have hrest : l.filter p = [] := by
        rw [filter_eq_nil_iff]
        intro b hb hpb
        obtain ⟨j, hj⟩ := mem_iff_getElem?.mp hb
        cases hunique (j + 1) b hj hpb
      rw [filter_cons_of_pos hp, hrest]
    | succ i =>
      have hx : ¬ p x = true := fun hpx => by cases hunique 0 x rfl hpx
      rw [filter_cons_of_neg hx]
      exact ih hi fun j b hj hpb => Nat.succ.inj (hunique (j + 1) b hj hpb)

theorem filterMap_of_forall₂ {f : α → Option β} {l : List α} {m : List β}
    (h : List.Forall₂ (fun a b => f a = some b) l m) : l.filterMap f = m := by
  induction h with
  | nil => rfl
  | cons hab _ ih => rw [filterMap_cons, hab, ih]

theorem Filed.tabled_eq (h : Filed sz ps occ) (w : List Byte) : tabled ps w = values w (posted occ) := by
  by_cases hw : w ∈ occ.map Prod.fst
  · obtain ⟨r, hr⟩ := (h.words w).mpr hw
    have hget : ∃ bu, ps.table[r]? = some bu := by
      rw [naming, Option.map_eq_some_iff] at hr
      obtain ⟨q, hq, -⟩ := hr
      obtain ⟨bu, hbu, -⟩ := Option.bind_eq_some_iff.mp hq
      exact ⟨bu, hbu⟩
    obtain ⟨bu, hbu⟩ := hget
    have hone : (ps.table.filter fun bu => (bu.word.map fun q => cstr (ps.wordbytes.drop q)) = some w) = [bu] := by
      refine filter_eq_singleton hbu ?_ fun j b hj hb => ?_
      · rwa [decide_eq_true_eq, ← naming_of_getElem? _ hbu]
      · rw [decide_eq_true_eq, ← naming_of_getElem? _ hj] at hb
        exact h.placed.unique hb hr
    rw [tabled, hone, flatMap_singleton]
    refine filterMap_of_forall₂ ((h.lists r bu w hbu hr).1.imp fun i s his => ?_)
    rw [← h.slots, List.getElem?_take] at his
    split_ifs at his
    exact his
  · have hnone : (ps.table.filter fun bu => (bu.word.map fun q => cstr (ps.wordbytes.drop q)) = some w) = [] := by
      rw [filter_eq_nil_iff]
      intro bu hbu hname
      obtain ⟨r, hr⟩ := mem_iff_getElem?.mp hbu
      rw [decide_eq_true_eq, ← naming_of_getElem? _ hr] at hname
      exact hw ((h.words w).mp ⟨r, hname⟩)
    have hposted : w ∉ (posted occ).map Prod.fst := by
      rw [posted, map_map]
      exact hw
    rw [tabled, hnone, flatMap_nil, values_eq_nil hposted]

section Runs

variable {c : Core}

theorem Filled.makeRoom (hsz : sz.Enough) (hp : sz.maxhash.Prime) (h : Filled sz c.ps occ) (did : Int64) (wc : UInt32) :
    ∃ c' occ', c.makeRoom sz (fun _ _ => false) did wc = .ok c' ∧ Filled sz c'.ps occ' ∧ Roomed sz c'.ps ∧
      c'.ps.bucketsUsed < sz.maxhash := by
  have hsized : Sized sz c.ps := ⟨h.sizeWord, h.sizeInfo, h.blocks⟩
  by_cases hfull : full sz c.ps = true
  · have hroom : c.makeRoom sz (fun _ _ => false) did wc = .ok ⟨Psearchy.emptied c.ps, c.files ++ [fileBytes (flushed c.ps occ)]⟩ := by
      rw [Core.makeRoom, hfull, Bool.true_or, if_pos rfl, h.flush]
    exact ⟨_, [], hroom, h.emptied, hsized.makeRoom hsz hroom, Int.natCast_pos.mpr hp.pos⟩
  · have hroom : c.makeRoom sz (fun _ _ => false) did wc = .ok c := by
      rw [Core.makeRoom, Bool.or_false, if_neg hfull]
    simp only [Bool.or_eq_true, full, decide_eq_true_eq, not_or] at hfull
    exact ⟨c, occ, hroom, h, hsized.makeRoom hsz hroom, by omega⟩

theorem Filled.pass0Loop (hsz : sz.Enough) (hp : sz.maxhash.Prime) (hclosed : Closed input)
    (hspaced : Spaced sz.maxwordlen input) (hfuel : input.length < fuel) (h : Filled sz c.ps occ) :
    ∃ c' occ', pass0Loop sz (fun _ _ => false) did fuel input wc c = .ok c' ∧ Filled sz c'.ps occ' := by
  induction fuel generalizing input wc c occ with
  | zero => omega
  | succ fuel ih =>
    obtain ⟨c₁, occ₁, hroom, hfilled, hroomed, hlt⟩ := h.makeRoom hsz hp did wc
    obtain ⟨tok, htok, -, ⟨front, hfront⟩, hless⟩ := hroomed.readWord hspaced
    have hle : c₁.ps.wordi ≤ c₁.ps.wordbytes.length := hfilled.sizeWord.symm ▸ hfilled.room
    rw [Psearchy.pass0Loop, hroom, ok_bind, htok, ok_bind]
    obtain ⟨hlen, -, hmem, htake⟩ | ⟨hlen, w, hholds, -, hrest⟩ := hclosed.readWord_cases hle htok
    · rw [if_pos hlen]
      exact ⟨_, occ₁, rfl, hfilled.memory hmem htake⟩
    · obtain ⟨ps', hent⟩ := hfilled.exists_enterWord hholds hp (hfilled.exists_free hlt) hroomed.infoi hroomed.blocki
        did (wc + 1)
      obtain ⟨s, -, hps'⟩ := hfilled.enterWord hholds hent
      have hshort := hless hlen
      rw [if_neg hlen, hent, ok_bind]
      exact ih hrest (Spaced.drop (hfront ▸ hspaced)) (by omega) hps'

theorem Filled.documents (hsz : sz.Enough) (hp : sz.maxhash.Prime) (hclosed : ∀ doc ∈ docs, Closed doc.2)
    (hspaced : ∀ doc ∈ docs, Spaced sz.maxwordlen doc.2) (h : Filled sz c.ps occ) :
    ∃ c', docs.foldlM (pass0 sz fun _ _ => false) c = .ok c' := by
  induction docs generalizing c occ with
  | nil => exact ⟨c, rfl⟩
  | cons doc docs ih =>
    obtain ⟨hdoc, hclosed⟩ := forall_mem_cons.mp hclosed
    obtain ⟨hdoc', hspaced⟩ := forall_mem_cons.mp hspaced
    obtain ⟨c₁, occ₁, hrun, hc₁⟩ := h.pass0Loop hsz hp hdoc hdoc' (Nat.lt_succ_self _)
    rw [foldlM_cons, pass0, hrun, ok_bind]
    exact ih hclosed hspaced hc₁

end Runs

theorem Closed.length_le_of_mem_words (hclosed : Closed file) (hspaced : Spaced n file) :
    ∀ w ∈ words file, w.length ≤ n := by
  induction hlen : file.length using Nat.strong_induction_on generalizing file with
  | _ m ih =>
    obtain hseps | ⟨seps, run, d, rest, rfl, hseps, hrun, hne, hd, hrest⟩ := hclosed.cases
    · have hwords := words_seps hseps []
      rw [append_nil, words_nil] at hwords
      rw [hwords]
      exact fun w hw => absurd hw not_mem_nil
    · rw [words_seps hseps, words_run hrun hne hd]
      refine forall_mem_cons.mpr ⟨?_, ?_⟩
      · have hle := hspaced [] seps run (d :: rest) rfl hseps hrun
        rw [length_map]
        omega
      · have hdrop : seps ++ (run ++ d :: rest) = (seps ++ (run ++ [d])) ++ rest := by simp
        refine ih rest.length ?_ hrest (Spaced.drop (hdrop ▸ hspaced)) rfl
        simp only [length_append, length_cons] at hlen
        omega

theorem spots_entries (did : Int64) (w : List Byte) (hcount : wc.toNat + ws.length < 2 ^ 32) :
    ((entries did wc ws).filter fun e => e.1 = w).map (fun e => (e.2.dn, e.2.wc.toNat)) =
      ((ws.zipIdx (wc.toNat + 1)).filter fun e => e.1 = w).map fun e => (did, e.2) := by
  induction ws generalizing wc with
  | nil => rfl
  | cons w' ws ih =>
    obtain ⟨hsucc, hcount'⟩ := toNat_succ hcount
    have htail := ih hcount'
    rw [hsucc] at htail
    rw [entries, zipIdx_cons]
    by_cases hw : w' = w
    · rw [filter_cons_of_pos (by simpa using hw), filter_cons_of_pos (by simpa using hw), map_cons,
        map_cons, htail, hsucc]
    · rw [filter_cons_of_neg (by simpa using hw), filter_cons_of_neg (by simpa using hw), htail]

theorem spots_posted {all : List (List Byte × Slot)} (hcount : ∀ doc ∈ docs, (words doc.2).length < 2 ^ 32)
    (hall : all.map unpad = docs.flatMap fun doc => entries doc.1 0 (words doc.2)) (w : List Byte) :
    (values w (posted all)).map Slot.spot = occurrences docs w := by
  have hspot : Slot.spot = (fun e : PostIt => (e.dn, e.wc.toNat)) ∘ Slot.toPostIt := rfl
  rw [hspot, ← map_map, values_posted, hall, map_map, filter_flatMap, map_flatMap, occurrences]
  refine flatMap_congr fun doc hdoc => ?_
  exact spots_entries doc.1 w (by rw [UInt32.toNat_zero, Nat.zero_add]; exact hcount doc hdoc)

/-- pass0 records every word of files that end with separators, if no file has `2^32` words: under the
word, with the document and the number of the word there. The files and the table have them in the
order of reading. -/
theorem pass0_records (sz : Sizes) (hsz : sz.Enough) (hp : sz.maxhash.Prime) (ps : Pass0) (hps : Fresh sz ps)
    (hused : 0 ≤ ps.bucketsUsed) (docs : List (Int64 × List Byte)) (hspaced : ∀ doc ∈ docs, Spaced sz.maxwordlen doc.2)
    (hclosed : ∀ doc ∈ docs, Closed doc.2) (hcount : ∀ doc ∈ docs, (words doc.2).length < 2 ^ 32) :
    ∃ (c : Core) (ts : List (List Record)), docs.foldlM (pass0 sz fun _ _ => false) ⟨ps, []⟩ = .ok c ∧ c.files = ts.map fileBytes ∧
      (∀ t ∈ ts, ∀ r ∈ t, r.WellFormed sz.maxwordlen) ∧
      ∀ w, (ts.flatMap (values w) ++ tabled c.ps w).map Slot.spot = occurrences docs w := by
  have hfilled : Filled sz (Core.mk ps []).ps [] := hps.filled hused
  obtain ⟨c, hrun⟩ := hfilled.documents hsz hp hclosed hspaced
  obtain ⟨all, hall, ts, done, occ, hsplit, hfiles, hwritten, hc⟩ := hps.has.documents hclosed hrun
  rw [nil_append] at hsplit
  have hfits : ∀ w ∈ all.map Prod.fst, w.length ≤ sz.maxwordlen :=
    length_le_of_words (fun doc hdoc => (hclosed doc hdoc).length_le_of_mem_words (hspaced doc hdoc)) hall
  refine ⟨c, ts, hrun, hfiles, hwritten.wellFormed fun w hw => hfits w ?_, fun w => ?_⟩
  · rw [hsplit, map_append]
    exact mem_append_left _ hw
  · rw [hwritten.values, hc.tabled_eq, ← values_append, posted, posted, ← map_append, ← posted, ← hsplit,
      spots_posted hcount hall]

def wideSizes : Sizes := ⟨4, 4, 8, 5, 8, by decide⟩

/-- "a b " and "a ". -/
theorem pass0_records_twoDocuments : (∀ doc ∈ twoDocuments, Spaced 4 doc.2) ∧
      ∃ (c : Core) (ts : List (List Record)), twoDocuments.foldlM (pass0 wideSizes fun _ _ => false)
          ⟨start wideSizes, []⟩ = .ok c ∧ c.files = ts.map fileBytes ∧
        (ts.flatMap (values wordA) ++ tabled c.ps wordA).map Slot.spot = [(1, 1), (2, 1)] := by
  have hshort : ∀ doc ∈ twoDocuments, doc.2.length ≤ 4 ∧ (words doc.2).length ≤ 2 := by decide +kernel
  have hlast : ∀ doc ∈ twoDocuments, ∀ c ∈ doc.2.getLast?, wordChar c = false := by decide +kernel
  have hspaced : ∀ doc ∈ twoDocuments, Spaced 4 doc.2 := fun doc hdoc => spaced_of_length_le (hshort doc hdoc).1
  obtain ⟨c, ts, hrun, hfiles, -, hspots⟩ := pass0_records wideSizes ⟨by decide, by decide, by decide⟩
    Nat.prime_five _ (fresh_start _) le_rfl twoDocuments hspaced hlast
    fun doc hdoc => (hshort doc hdoc).2.trans_lt (by decide)
  refine ⟨hspaced, c, ts, hrun, hfiles, (hspots wordA).trans ?_⟩
  decide +kernel

/-- Zeroed buffers, and the files "a" and "b ". The word of the second file is
written behind the "a", and nothing is left under that word. -/
theorem word_at_end_extended :
    (∀ doc ∈ [((1 : Int64), ([97] : List Byte)), (2, [98, 32])], Spaced 4 doc.2) ∧
      ∃ c, [((1 : Int64), ([97] : List Byte)), (2, [98, 32])].foldlM (pass0 wideSizes fun _ _ => false)
          ⟨start wideSizes, []⟩ = .ok c ∧ c.files = [] ∧ tabled c.ps [97] = [] ∧
        (tabled c.ps [97, 98]).map Slot.spot = [(1, 1)] ∧
        occurrences [(1, [97]), (2, [98, 32])] [97] = [(1, 1)] ∧ occurrences [(1, [97]), (2, [98, 32])] [97, 98] = [] := by
  refine ⟨fun doc hdoc => spaced_of_length_le ?_, _, rfl, rfl, ?_, ?_, ?_, ?_⟩
  · rcases mem_cons.mp hdoc with rfl | hdoc
    · decide
    · rw [mem_singleton.mp hdoc]
      decide
  all_goals decide +kernel

end Mosbench.Psearchy
