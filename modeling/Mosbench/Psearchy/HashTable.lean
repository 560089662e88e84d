import Mosbench.Lib.MultiMerge
import Mosbench.Lib.Probing
import Mosbench.Psearchy.Tokens

/-!
The hash table of pass0. It is a table with double hashing (Lib/Probing) whose keys
are strings in `wordbytes`. Between two flushes it files the postings that were read
under their words: `Filed` says so of the whole state of pass0.
-/
namespace Mosbench.Psearchy

open List Option Function Bytes Fallible MultiMerge Probing

def naming (mem : List Byte) (table : List Bucket) (h : ℕ) : Option (List Byte) :=
  (table[h]?.bind Bucket.word).map fun q => cstr (mem.drop q)

def places (maxhash : ℕ) (w : List Byte) (i : ℕ) : ℕ := place maxhash (hash w % maxhash) (1 + hash w % (maxhash - 1)) i

def posted (occ : List (List Byte × Slot)) : List Record := occ.map fun e => (e.1, [e.2])

/-- The state after the words `occ` were read since the last flush. Every word of the
table ends before `wordi`, and what is read next is written behind that. -/
structure Filed (sz : Sizes) (ps : Pass0) (occ : List (List Byte × Slot)) : Prop where
  sizeWord : ps.wordbytes.length = sz.maxword
  sizeInfo : ps.infobuf.length = sz.maxinfo
  sizeTable : ps.table.length = sz.maxhash
  room : ps.wordi ≤ sz.maxword
  count : ps.infoi = occ.length
  slots : ps.infobuf.take ps.infoi = occ.map Prod.snd
  ended : ∀ bu ∈ ps.table, ∀ q ∈ bu.word, 0 ∈ (ps.wordbytes.take ps.wordi).drop q
  placed : Placed (places sz.maxhash) (naming ps.wordbytes ps.table)
  lists : ∀ h bu w, ps.table[h]? = some bu → naming ps.wordbytes ps.table h = some w →
    List.Forall₂ (fun i s => (occ.map Prod.snd)[i]? = some s) bu.blocks.flatten (values w (posted occ)) ∧
      bu.n = UInt32.ofNat (values w (posted occ)).length
  words : ∀ w, (∃ h, naming ps.wordbytes ps.table h = some w) ↔ w ∈ occ.map Prod.fst

/-- What readWord leaves after a word that a separator ends: the old words are still
there and the new one lies between them and the next free byte. -/
structure Token.Holds (tok : Token) (ps : Pass0) (w : List Byte) : Prop where
  length : tok.mem.length = ps.wordbytes.length
  front : tok.mem.take ps.wordi = ps.wordbytes.take ps.wordi
  string : ∀ b ∈ w, b ≠ 0
  back : ∃ more, tok.mem.drop tok.p = w ++ 0 :: more
  next : tok.p + w.length + 1 = ps.wordi + (tok.len + tok.skip)
  fits : ps.wordi + (tok.len + tok.skip) ≤ ps.wordbytes.length

section Strings

variable {mem mem' : List Byte}

theorem cstr_append_of_mem (h : 0 ∈ l) (m : List Byte) : cstr (l ++ m) = cstr l := by
  induction l with
  | nil => exact absurd h not_mem_nil
  | cons b l ih =>
    by_cases hb : b = 0
    · simp [cstr, hb]
    · have hl : 0 ∈ l := (mem_cons.mp h).resolve_left (Ne.symm hb)
      simpa [cstr, hb] using ih hl

theorem drop_eq_append_of_mem (h : 0 ∈ (mem.take k).drop q) : mem.drop q = (mem.take k).drop q ++ mem.drop k := by
  have hq : q ≤ (mem.take k).length := by
    by_contra hgt
    rw [drop_eq_nil_of_le (by omega)] at h
    exact absurd h not_mem_nil
  rw [← drop_append_of_le_length hq, take_append_drop]

theorem cstr_drop_congr (h : 0 ∈ (mem.take k).drop q) (heq : mem'.take k = mem.take k) :
    cstr (mem'.drop q) = cstr (mem.drop q) := by
  rw [drop_eq_append_of_mem h, drop_eq_append_of_mem (heq.symm ▸ h), cstr_append_of_mem h, heq, cstr_append_of_mem h]

theorem str_eq_ok (h : 0 ∈ (mem.take k).drop q) : str mem q = .ok (cstr (mem.drop q)) := by
  rw [str, if_pos]
  rw [drop_eq_append_of_mem h]
  exact mem_append_left _ h

end Strings

section Lookup

variable {table : List Bucket}

theorem naming_of_getElem? (mem : List Byte) (h' : table[h]? = some bu) :
    naming mem table h = bu.word.map fun q => cstr (mem.drop q) := by
  rw [naming, h', bind_some]

theorem probe_spec (hstr : ∀ bu ∈ table, ∀ q ∈ bu.word, str mem q = .ok (cstr (mem.drop q)))
    (hlen : table.length = n) (hn : 0 < n) (ho : o ≤ n) (turns i : ℕ)
    (hpass : Passed (fun _ => place n h o) (naming mem table) w i) :
    match probe mem table w o turns (place n h o i) with
    | .ok r => ∃ j, r = place n h o j ∧ Passed (fun _ => place n h o) (naming mem table) w j ∧
        (naming mem table r = none ∨ naming mem table r = some w)
    | .error e => e = .abort ∧ Passed (fun _ => place n h o) (naming mem table) w (i + turns) := by
  induction turns generalizing i with
  | zero => exact ⟨rfl, hpass⟩
  | succ turns ih =>
    have hlt : place n h o i < table.length := hlen ▸ place_lt hn i
    have hget := getElem?_eq_getElem hlt
    have hname := naming_of_getElem? mem hget
    rw [probe, hget]
    dsimp only
    cases hword : table[place n h o i].word with
    | none =>
      rw [hword] at hname
      exact ⟨i, rfl, hpass, .inl hname⟩
    | some q =>
      rw [hword] at hname
      dsimp only
      rw [hstr _ (getElem_mem hlt) q hword, ok_bind]
      by_cases hq : cstr (mem.drop q) = w
      · rw [if_pos hq]
        exact ⟨i, rfl, hpass, .inr (hname.trans (congrArg some hq))⟩
      · have hpass' : Passed (fun _ => place n h o) (naming mem table) w (i + 1) := by
          intro j hj
          rcases Nat.lt_succ_iff_lt_or_eq.mp hj with hj | rfl
          · exact hpass j hj
          · exact ⟨_, hname, hq⟩
        rw [if_neg hq, hlen, ← place_succ ho hn, Nat.add_comm turns, ← Nat.add_assoc]
        exact ih (i + 1) hpass'

theorem naming_set (mem : List Byte) (hh : h < table.length) (bu : Bucket) :
    naming mem (table.set h bu) = Function.update (naming mem table) h (bu.word.map fun q => cstr (mem.drop q)) := by
  funext h'
  by_cases heq : h' = h
  · subst heq
    rw [update_self, naming_of_getElem? mem (getElem?_set_self hh)]
  · rw [update_of_ne heq, naming, naming, getElem?_set_ne (Ne.symm heq)]

theorem naming_congr (hended : ∀ bu ∈ table, ∀ q ∈ bu.word, 0 ∈ (mem.take k).drop q)
    (heq : mem'.take k = mem.take k) : naming mem' table = naming mem table := by
  funext h'
  rw [naming, naming]
  cases hget : table[h']? with
  | none => rfl
  | some bu =>
    rw [bind_some]
    cases hword : bu.word with
    | none => rfl
    | some q => rw [map_some, map_some, cstr_drop_congr (hended bu (mem_of_getElem? hget) q hword) heq]

variable (hstr : ∀ bu ∈ table, ∀ q ∈ bu.word, str mem q = .ok (cstr (mem.drop q)))
  (hlen : table.length = n)

include hstr hlen

theorem lookup_eq_ok (hr : lookup mem table w = .ok r) :
    ∃ i, r = places n w i ∧ Passed (places n) (naming mem table) w i ∧ (naming mem table r = none ∨ naming mem table r = some w) := by
  rw [lookup, hlen] at hr
  split_ifs at hr with hone
  have hh : hash w % n < n := Nat.mod_lt _ (by omega)
  have ho : 1 + hash w % (n - 1) ≤ n := by
    have := Nat.mod_lt (hash w) (show 0 < n - 1 by omega)
    omega
  have hspec := probe_spec (h := hash w % n) (w := w) hstr hlen (by omega) ho n 0 nofun
  rw [place_zero hh, hr] at hspec
  exact hspec

theorem exists_lookup (hp : n.Prime) (hr : r < n) (hfree : naming mem table r = none) :
    ∃ r', lookup mem table w = .ok r' := by
  have hone : 1 < n := hp.one_lt
  have hh : hash w % n < n := Nat.mod_lt _ (by omega)
  have ho : 1 + hash w % (n - 1) < n := by
    have := Nat.mod_lt (hash w) (show 0 < n - 1 by omega)
    omega
  have hspec := probe_spec (h := hash w % n) (w := w) hstr hlen (by omega) ho.le n 0 nofun
  rw [place_zero hh, Nat.zero_add] at hspec
  rw [lookup, hlen, if_neg (by omega)]
  cases hprobe : probe mem table w (1 + hash w % (n - 1)) n (hash w % n) with
  | ok r' => exact ⟨r', rfl⟩
  | error e =>
    rw [hprobe] at hspec
    obtain ⟨i, hi, rfl⟩ := exists_place_eq (h := hash w % n) hp (by omega) ho hr
    exact absurd hfree (hspec.2.ne hi).1

end Lookup

theorem flatten_pushLast (i : ℕ) (blocks : List (List ℕ)) : (pushLast i blocks).flatten = blocks.flatten ++ [i] := by
  induction blocks with
  | nil => rfl
  | cons bl bls ih =>
    cases bls with
    | nil => simp [pushLast]
    | cons bl' bls =>
      rw [pushLast, flatten_cons, ih, ← append_assoc, ← flatten_cons]
      exact cons_ne_nil _ _

theorem length_of_mem_pushLast (hfit : ∀ bl ∈ blocks, bl.length ≤ blockSize)
    (hfull : lastFull blocks = false) : ∀ bl ∈ pushLast i blocks, bl.length ≤ blockSize := by
  induction blocks with
  | nil =>
    intro bl hbl
    rw [mem_singleton.mp hbl]
    simp [blockSize]
  | cons bl bls ih =>
    obtain ⟨hbl, hbls⟩ := forall_mem_cons.mp hfit
    cases bls with
    | nil =>
      intro bl' hbl'
      have hlt : bl.length < blockSize := by simpa [lastFull] using hfull
      rw [mem_singleton.mp hbl', length_append, length_singleton]
      omega
    | cons bl' bls =>
      have hfull' : lastFull (bl' :: bls) = false := by
        rwa [lastFull, getLast?_cons_cons] at hfull
      exact forall_mem_cons.mpr ⟨hbl, ih hbls hfull'⟩

theorem addPosting_cases (hadd : addPosting sz ps tok h i = .ok ps') :
    ∃ bu, ps.table[h]? = some bu ∧ ((bu.word = none ∧ ps' = { ps with
          table := ps.table.set h ⟨some tok.p, [[i]], 1⟩
          wordi := ps.wordi + (tok.len + tok.skip)
          blocki := ps.blocki + 1
          bucketsUsed := ps.bucketsUsed + 1 }) ∨
        (bu.word ≠ none ∧ ∃ blocks blocki, blocks.flatten = bu.blocks.flatten ++ [i] ∧
          ((∀ bl ∈ bu.blocks, bl.length ≤ blockSize) → ∀ bl ∈ blocks, bl.length ≤ blockSize) ∧ blocki ≤ ps.blocki + 1 ∧
          ps' = { ps with
            table := ps.table.set h { bu with blocks := blocks, n := bu.n + 1 }
            blocki := blocki })) := by
  rw [addPosting] at hadd
  cases hget : ps.table[h]? with
  | none =>
    rw [hget] at hadd
    exact nomatch hadd
  | some bu =>
    rw [hget] at hadd
    dsimp only at hadd
    refine ⟨bu, rfl, ?_⟩
    cases hword : bu.word with
    | none =>
      rw [hword] at hadd
      obtain ⟨ps₁, htake, hps'⟩ := bind_eq_ok.mp hadd
      rw [takeBlock] at htake
      split_ifs at htake
      obtain rfl := Except.ok.inj htake
      exact .inl ⟨rfl, (Except.ok.inj hps').symm⟩
    | some q =>
      rw [hword] at hadd
      dsimp only at hadd
      refine .inr ⟨nofun, ?_⟩
      split_ifs at hadd with hfull
      · obtain ⟨ps₁, htake, hps'⟩ := bind_eq_ok.mp hadd
        rw [takeBlock] at htake
        split_ifs at htake
        obtain rfl := Except.ok.inj htake
        refine ⟨bu.blocks ++ [[i]], ps.blocki + 1, by simp, fun hfit bl hbl => ?_, le_rfl, (Except.ok.inj hps').symm⟩
        rcases mem_append.mp hbl with hbl | hbl
        · exact hfit bl hbl
        · rw [mem_singleton.mp hbl]
          simp [blockSize]
      · exact ⟨pushLast i bu.blocks, ps.blocki, flatten_pushLast i _,
          fun hfit => length_of_mem_pushLast hfit (by simpa using hfull), Nat.le_succ _, (Except.ok.inj hadd).symm⟩

theorem values_posted_self (w : List Byte) (s : Slot) (occ : List (List Byte × Slot)) :
    values w (posted (occ ++ [(w, s)])) = values w (posted occ) ++ [s] := by
  rw [posted, map_append, values_append, posted, map_cons, map_nil, values_cons, if_pos rfl, values_nil,
    append_nil]

theorem values_posted_of_ne (hne : w' ≠ w) (s : Slot) (occ : List (List Byte × Slot)) :
    values w (posted (occ ++ [(w', s)])) = values w (posted occ) := by
  rw [posted, map_append, values_append, posted, map_cons, map_nil, values_cons, if_neg hne, values_nil,
    append_nil, append_nil]

theorem enterWord_cases (hent : enterWord sz ps did wc tok = .ok ps') :
    ∃ infop word r, ps.infobuf[ps.infoi]? = some infop ∧ str tok.mem tok.p = .ok word ∧
      lookup tok.mem ps.table word = .ok r ∧
      addPosting sz { ps with
        wordbytes := tok.mem
        infobuf := ps.infobuf.set ps.infoi { infop with dn := did, wc := wc }
        infoi := ps.infoi + 1 } tok r ps.infoi = .ok ps' := by
  rw [enterWord] at hent
  cases hget : ps.infobuf[ps.infoi]? with
  | none =>
    rw [hget] at hent
    cases hent
  | some infop =>
    rw [hget] at hent
    dsimp only at hent
    obtain ⟨word, hword, hent⟩ := bind_eq_ok.mp hent
    obtain ⟨r, hr, hadd⟩ := bind_eq_ok.mp hent
    exact ⟨infop, word, r, rfl, hword, hr, hadd⟩

namespace Filed

variable {tok : Token}

theorem infoi_le (h : Filed sz ps occ) : ps.infoi ≤ sz.maxinfo := by
  have hlen := congrArg length h.slots
  rw [length_take, length_map, h.sizeInfo, ← h.count] at hlen
  omega

theorem str_eq (h : Filed sz ps occ) (htok : tok.Holds ps w) :
    ∀ bu ∈ ps.table, ∀ q ∈ bu.word, str tok.mem q = .ok (cstr (tok.mem.drop q)) := fun bu hbu q hq =>
  str_eq_ok (htok.front.symm ▸ h.ended bu hbu q hq)

theorem getElem?_concat {i : ℕ} (hi : (occ.map Prod.snd)[i]? = some s) :
    ((occ ++ [e]).map Prod.snd)[i]? = some s := by
  obtain ⟨hlt, -⟩ := List.getElem?_eq_some_iff.mp hi
  rw [map_append, getElem?_append_left hlt, hi]

section

variable (h : Filed sz ps occ)

include h

theorem slots_concat (hlt : ps.infoi < ps.infobuf.length) (s : Slot) :
    (ps.infobuf.set ps.infoi s).take (ps.infoi + 1) = (occ ++ [(w, s)]).map Prod.snd := by
  have hkeep : (ps.infobuf.set ps.infoi s).take ps.infoi = ps.infobuf.take ps.infoi := by
    rw [take_set, set_eq_of_length_le (length_take_le _ _)]
  rw [take_add_one, hkeep, h.slots, getElem?_set_self hlt, map_append]
  rfl

theorem ended_of_holds (htok : tok.Holds ps w) :
    0 ∈ (tok.mem.take (ps.wordi + (tok.len + tok.skip))).drop tok.p ∧
      ∀ bu ∈ ps.table, ∀ q ∈ bu.word, 0 ∈ (tok.mem.take ps.wordi).drop q ∧
        0 ∈ (tok.mem.take (ps.wordi + (tok.len + tok.skip))).drop q := by
  constructor
  · obtain ⟨more, hmore⟩ := htok.back
    have hsub : ps.wordi + (tok.len + tok.skip) - tok.p = (w ++ [0]).length := by
      have := htok.next
      rw [length_append, length_singleton]
      omega
    rw [append_cons] at hmore
    rw [drop_take, hmore, hsub, take_left' rfl]
    exact mem_append_right _ (mem_singleton_self _)
  · intro bu hbu q hq
    have hold : 0 ∈ (tok.mem.take ps.wordi).drop q := htok.front.symm ▸ h.ended bu hbu q hq
    refine ⟨hold, ?_⟩
    rw [drop_take] at hold ⊢
    exact take_subset_take_left _ (by omega) hold

theorem newWord (htok : tok.Holds ps w) (hr : r = places sz.maxhash w i)
    (hpass : Passed (places sz.maxhash) (naming ps.wordbytes ps.table) w i) (hfree : naming ps.wordbytes ps.table r = none)
    (hlt : ps.infoi < ps.infobuf.length) (hrlt : r < ps.table.length) (s : Slot) (blocki : ℕ) (used : ℤ) :
    Filed sz ⟨tok.mem, ps.infobuf.set ps.infoi s, ps.table.set r ⟨some tok.p, [[ps.infoi]], 1⟩,
      ps.wordi + (tok.len + tok.skip), ps.infoi + 1, blocki, used⟩ (occ ++ [(w, s)]) := by
  subst hr
  obtain ⟨more, hmore⟩ := htok.back
  have hword : cstr (tok.mem.drop tok.p) = w := by rw [hmore, cstr_append_zero htok.string]
  have hnaming : naming tok.mem (ps.table.set (places sz.maxhash w i) ⟨some tok.p, [[ps.infoi]], 1⟩) =
      Function.update (naming ps.wordbytes ps.table) (places sz.maxhash w i) (some w) := by
    rw [naming_set _ hrlt, naming_congr h.ended htok.front, map_some, hword]
  have habsent : ∀ h', naming ps.wordbytes ps.table h' ≠ some w := fun h' => h.placed.absent hpass hfree
  have hnew : w ∉ occ.map Prod.fst := fun hmem => by
    obtain ⟨h', hh'⟩ := (h.words w).mpr hmem
    exact habsent h' hh'
  have hnone : values w (posted occ) = [] := by
    refine values_eq_nil ?_
    rw [posted, List.map_map]
    exact hnew
  constructor
  · exact htok.length.trans h.sizeWord
  · exact length_set.trans h.sizeInfo
  · exact length_set.trans h.sizeTable
  · exact htok.fits.trans_eq h.sizeWord
  · rw [h.count, length_append]
    rfl
  · exact h.slots_concat hlt s
  · intro bu hbu q hq
    rcases mem_or_eq_of_mem_set hbu with hbu | rfl
    · exact ((h.ended_of_holds htok).2 bu hbu q hq).2
    · obtain rfl := some.inj hq
      exact (h.ended_of_holds htok).1
  · rw [hnaming]
    exact h.placed.insert hpass hfree
  · intro h' bu w' hbu hname
    rw [hnaming] at hname
    by_cases heq : h' = places sz.maxhash w i
    · subst heq
      rw [update_self] at hname
      obtain rfl := some.inj hname
      rw [getElem?_set_self hrlt] at hbu
      obtain rfl := some.inj hbu
      rw [values_posted_self, hnone]
      refine ⟨.cons ?_ .nil, rfl⟩
      rw [h.count, map_append, getElem?_append_right (by rw [length_map]), length_map, Nat.sub_self]
      rfl
    · rw [update_of_ne heq] at hname
      rw [getElem?_set_ne (Ne.symm heq)] at hbu
      have hne : w ≠ w' := fun hww => habsent h' (hww ▸ hname)
      rw [values_posted_of_ne hne]
      obtain ⟨hlist, hn⟩ := h.lists h' bu w' hbu hname
      exact ⟨hlist.imp fun _ _ => getElem?_concat, hn⟩
  · intro w'
    rw [hnaming, map_append, mem_append, ← h.words]
    constructor
    · rintro ⟨h', hh'⟩
      by_cases heq : h' = places sz.maxhash w i
      · subst heq
        rw [update_self] at hh'
        exact .inr (mem_singleton.mpr (some.inj hh').symm)
      · rw [update_of_ne heq] at hh'
        exact .inl ⟨h', hh'⟩
    · rintro (⟨h', hh'⟩ | hw')
      · have heq : h' ≠ places sz.maxhash w i := fun heq => nomatch (heq ▸ hh').symm.trans hfree
        exact ⟨h', by rw [update_of_ne heq, hh']⟩
      · obtain rfl := mem_singleton.mp hw'
        exact ⟨_, update_self ..⟩

theorem knownWord (htok : tok.Holds ps w) (hbu : ps.table[r]? = some bu)
    (hname : naming ps.wordbytes ps.table r = some w) (hlt : ps.infoi < ps.infobuf.length) (s : Slot)
    (hblocks : blocks.flatten = bu.blocks.flatten ++ [ps.infoi]) (blocki : ℕ) (used : ℤ) :
    Filed sz ⟨tok.mem, ps.infobuf.set ps.infoi s, ps.table.set r { bu with blocks := blocks, n := bu.n + 1 },
      ps.wordi, ps.infoi + 1, blocki, used⟩ (occ ++ [(w, s)]) := by
  have hrlt : r < ps.table.length := (List.getElem?_eq_some_iff.mp hbu).1
  have hnaming : naming tok.mem (ps.table.set r { bu with blocks := blocks, n := bu.n + 1 }) =
      naming ps.wordbytes ps.table := by
    rw [naming_set _ hrlt]
    dsimp only
    rw [← naming_of_getElem? tok.mem hbu, update_eq_self, naming_congr h.ended htok.front]
  constructor
  · exact htok.length.trans h.sizeWord
  · exact length_set.trans h.sizeInfo
  · exact length_set.trans h.sizeTable
  · exact h.room
  · rw [h.count, length_append]
    rfl
  · exact h.slots_concat hlt s
  · intro bu' hbu' q hq
    rcases mem_or_eq_of_mem_set hbu' with hbu' | rfl
    · exact ((h.ended_of_holds htok).2 bu' hbu' q hq).1
    · exact ((h.ended_of_holds htok).2 bu (mem_of_getElem? hbu) q hq).1
  · rw [hnaming]
    exact h.placed
  · intro h' bu' w' hbu' hname'
    rw [hnaming] at hname'
    by_cases heq : h' = r
    · subst heq
      obtain rfl := some.inj (hname.symm.trans hname')
      rw [getElem?_set_self hrlt] at hbu'
      obtain rfl := some.inj hbu'
      obtain ⟨hlist, hn⟩ := h.lists h' bu w hbu hname
      rw [values_posted_self, length_append, UInt32.ofNat_add, ← hn]
      refine ⟨?_, rfl⟩
      rw [hblocks]
      refine rel_append (hlist.imp fun _ _ => getElem?_concat) (.cons ?_ .nil)
      rw [h.count, map_append, getElem?_append_right (by rw [length_map]), length_map, Nat.sub_self]
      rfl
    · rw [getElem?_set_ne (Ne.symm heq)] at hbu'
      have hne : w ≠ w' := fun hww => heq (h.placed.unique hname' (hww ▸ hname))
      rw [values_posted_of_ne hne]
      obtain ⟨hlist, hn⟩ := h.lists h' bu' w' hbu' hname'
      exact ⟨hlist.imp fun _ _ => getElem?_concat, hn⟩
  · intro w'
    rw [hnaming, h.words, map_append, mem_append]
    refine ⟨.inl, fun hw' => hw'.elim id fun hw' => ?_⟩
    rw [mem_singleton.mp hw']
    exact (h.words w).mp ⟨r, hname⟩

theorem enterWord (htok : tok.Holds ps w) (hent : enterWord sz ps did wc tok = .ok ps') :
    ∃ s : Slot, s.toPostIt = ⟨did, wc⟩ ∧ Filed sz ps' (occ ++ [(w, s)]) ∧
      ps'.wordi ≤ ps.wordi + (tok.len + tok.skip) ∧ ps'.blocki ≤ ps.blocki + 1 ∧
      ps'.bucketsUsed ≤ ps.bucketsUsed + 1 := by
  obtain ⟨infop, word, r, hget, hword, hr, hadd⟩ := enterWord_cases hent
  obtain ⟨hlt, -⟩ := List.getElem?_eq_some_iff.mp hget
  have hnaming := naming_congr h.ended htok.front
  obtain rfl : word = w := by
    obtain ⟨more, hmore⟩ := htok.back
    rw [str, hmore, if_pos (mem_append_right _ mem_cons_self), cstr_append_zero htok.string] at hword
    exact (Except.ok.inj hword).symm
  obtain ⟨i, hri, hpass, hcase⟩ := lookup_eq_ok (h.str_eq htok) h.sizeTable hr
  rw [hnaming] at hpass hcase
  refine ⟨{ infop with dn := did, wc := wc }, rfl, ?_⟩
  obtain ⟨bu, hbu, ⟨hfree, rfl⟩ | ⟨hused, blocks, blocki, hblocks, -, hblocki, rfl⟩⟩ := addPosting_cases hadd
  · have hnone : naming ps.wordbytes ps.table r = none := by
      rw [naming_of_getElem? _ hbu, hfree]
      rfl
    exact ⟨h.newWord htok hri hpass hnone hlt (List.getElem?_eq_some_iff.mp hbu).1 _ _ _, le_rfl, le_rfl, le_rfl⟩
  · have hsome : naming ps.wordbytes ps.table r = some word := by
      refine hcase.resolve_left ?_
      rw [naming_of_getElem? _ hbu, map_eq_none_iff]
      exact hused
    exact ⟨h.knownWord htok hbu hsome hlt _ hblocks _ _, Nat.le_add_right _ _, hblocki, by simp⟩

end

end Filed

end Mosbench.Psearchy
