import Mosbench.Psearchy.Cursor

/-!
What a call of advance returns in any state that earlier calls leave the cursor in: the
first posting of the whole list that is not before the target.
-/
namespace Mosbench.Psearchy

open List Fallible Int64

namespace Word

variable {w : Word}

structure Fresh (w : Word) : Prop where
  start : w.inCoreP = 0
  isOpen : w.eof = false
  current : w.curr = .none ∨ w.inCore = []

theorem Fresh.seen (h : w.Fresh) : w.seen.getLast? = none := by
  rw [Word.seen, h.start]
  rfl

theorem Fresh.cursor (h : w.Fresh) : w.Cursor := by
  refine ⟨h.isOpen, by rw [h.start]; exact Nat.zero_le _, ?_⟩
  rw [h.seen]
  exact h.current

inductive Reached (fuel : ℕ) (l : List PostIt) : Word → Prop
  | fresh {w : Word} (h : w.Fresh) (hl : w.inCore = l) : Reached fuel l w
  | next {w w' : Word} (h : Reached fuel l w) (hcall : w.next allTags = .ok w') (hopen : w'.eof = false) : Reached fuel l w'
  | advance {w w' : Word} (t : PostIt) (h : Reached fuel l w) (hcall : w.advance allTags fuel t = .ok w')
      (hopen : w'.eof = false) : Reached fuel l w'

theorem Cursor.advance_back (h : w.Cursor) (hl : Postings w.inCore) (hfuel : 0 < fuel)
    (hx : w.seen.getLast? = some x) (htx : t ≤ x) :
    ∃ w', w.advance allTags fuel t = .ok w' ∧ (w'.eof = true ∨ w'.Cursor ∧ w'.inCore = w.inCore) := by
  have hpos : 0 < w.inCoreP := by
    by_contra hzero
    rw [seen, Nat.eq_zero_of_not_pos hzero] at hx
    cases hx
  have hcurr : w.curr = .at x := by
    have := h.current
    rwa [hx] at this
  rw [getLast?_seen h.inside hpos] at hx
  rw [Word.advance]
  by_cases hend : w.inCore.length ≤ w.inCoreP
  · rw [if_pos hend]
    exact ⟨_, rfl, .inl rfl⟩
  have hlast : w.inCore[w.inCore.length - 1]? = some w.inCore[w.inCore.length - 1] := getElem?_eq_getElem (by omega)
  have hnext : w.inCore[w.inCoreP]? = some w.inCore[w.inCoreP] := getElem?_eq_getElem (by omega)
  have hlt := htx.trans_lt (hl.lt_of_lt (by omega) hx hnext)
  rw [if_neg hend, get_eq hlast, ok_bind, if_neg (not_lt.mpr (htx.trans (hl.le_of_le (by omega) hx hlast)))]
  dsimp only
  rw [if_pos hpos, get_eq hx, ok_bind]
  by_cases hdn : x.dn > t.dn
  · rw [if_pos hdn]
    exact ⟨_, rfl, .inr ⟨h, rfl⟩⟩
  · have hdoc : w.curr.s.dn = t.dn := by
      rw [gt_iff_lt, Int64.lt_iff_toInt_lt] at hdn
      have hle := PostIt.le_iff.mp htx
      rw [hcurr, ← Int64.toInt_inj]
      change x.dn.toInt = t.dn.toInt
      omega
    have hskip : w.skip allTags t fuel w.inCoreP = .ok w.inCoreP := by
      obtain ⟨fuel, rfl⟩ := Nat.exists_eq_add_of_lt hfuel
      rw [Nat.zero_add, skip, get_eq hnext, ok_bind, and_allTags, if_neg]
      · rfl
      · rintro ⟨heq, hwc⟩
        exact absurd hlt (not_lt.mpr (PostIt.le_iff.mpr (.inr ⟨by rw [heq], (UInt32.lt_iff_toNat_lt.mp hwc).le⟩)))
    rw [if_neg hdn, if_pos hdoc, hskip, ok_bind, goto_eq hnext]
    exact ⟨_, rfl, .inr ⟨cursor_moved h.isOpen hnext, rfl⟩⟩

theorem Moves.cursor (h : w.Moves t w') (hopen : w'.eof = false) : w'.Cursor ∧ w'.inCore = w.inCore := by
  rcases h with ⟨heof, -⟩ | ⟨_, _, -, -, hcore, hcursor, -⟩
  · exact absurd heof (by simp [hopen])
  · exact ⟨hcursor, hcore⟩

theorem Reached.cursor (hl : Postings l) (hlen : l.length ≤ maxPostings) (hfuel : l.length < fuel) (h : Reached fuel l w) :
    w.Cursor ∧ w.inCore = l := by
  induction h with
  | fresh h hl => exact ⟨h.cursor, hl⟩
  | @next w w' _ hcall hopen ih =>
    obtain ⟨hcursor, rfl⟩ := ih
    obtain ⟨w'', hrun, hmoves⟩ := hcursor.next hl ⟨0, 0⟩ fun x hx =>
      PostIt.le_iff.mpr (.inl (Int64.lt_iff_toInt_lt.mp (hl.positive x (mem_of_mem_drop hx))))
    cases hcall.symm.trans hrun
    exact hmoves.cursor hopen
  | @advance w w' t _ hcall hopen ih =>
    obtain ⟨hcursor, rfl⟩ := ih
    by_cases ht : ∀ x ∈ w.seen.getLast?, x < t
    · obtain ⟨w'', hrun, hmoves⟩ := hcursor.advance hl hlen hfuel ht
      cases hcall.symm.trans hrun
      exact hmoves.cursor hopen
    · simp only [not_forall, not_lt] at ht
      obtain ⟨x, hx, htx⟩ := ht
      obtain ⟨w'', hrun, heof | hkept⟩ := hcursor.advance_back hl (Nat.zero_lt_of_lt hfuel) hx htx
      · cases hcall.symm.trans hrun
        exact absurd heof (by simp [hopen])
      · cases hcall.symm.trans hrun
        exact hkept

theorem Moves.find (hl : Postings w.inCore) (ht : ∀ x ∈ w.seen.getLast?, x < t) (h : w.Moves t w') :
    match w.inCore.find? fun x => t ≤ x with
    | none => w'.eof = true
    | some x => w'.eof = false ∧ w'.curr = .at x := by
  have hseen : ∀ y ∈ w.seen, y < t := by
    intro y hy
    cases hlast : w.seen.getLast? with
    | none => simp [getLast?_eq_none_iff.mp hlast] at hy
    | some x =>
      obtain ⟨before, heq⟩ := getLast?_eq_some_iff.mp hlast
      have hsorted := hl.increasing.sublist (take_sublist w.inCoreP w.inCore)
      change w.seen.Pairwise (· < ·) at hsorted
      rw [heq] at hy hsorted
      rcases mem_append.mp hy with hy | hy
      · exact (pairwise_append.mp hsorted).2.2 y hy x (mem_singleton_self x) |>.trans (ht x hlast)
      · exact mem_singleton.mp hy ▸ ht x hlast
  rw [← seen_append_rest w, find?_append, find?_eq_none.mpr fun y hy => by simpa using hseen y hy]
  rcases h with ⟨heof, hrest⟩ | ⟨skipped, x, hrest, hseen', -, hcursor, hskipped, htx⟩
  · rw [find?_eq_none.mpr fun y hy => by simpa using hrest y hy]
    exact heof
  · rw [hrest, find?_append, find?_eq_none.mpr fun y hy => by simpa using hskipped y hy,
      find?_cons_of_pos (by simpa using htx)]
    have hcurr := hcursor.current
    rw [hseen', getLast?_concat] at hcurr
    exact ⟨hcursor.isOpen, hcurr⟩

end Word

/-- advance returns the first posting that is not before the target and makes it current, or
reports the end if there is none, without reading outside the list: for a list of at most
`2^31 + 1` postings, after any calls that did not report the end. -/
theorem advance_first (l : List PostIt) (hl : Postings l) (hlen : l.length ≤ maxPostings) (fuel : ℕ) (hfuel : l.length < fuel)
    (w : Word) (hw : w.Reached fuel l) (t : PostIt) (ht : 0 < w.inCoreP → w.curr.s < t) :
    ∃ w', w.advance allTags fuel t = .ok w' ∧
      match l.find? fun x => t ≤ x with
      | none => w'.eof = true
      | some x => w'.eof = false ∧ w'.curr = .at x := by
  obtain ⟨hcursor, rfl⟩ := hw.cursor hl hlen hfuel
  have ht' : ∀ x ∈ w.seen.getLast?, x < t := by
    intro x hx
    have hcurr := hcursor.current
    rw [Option.mem_def.mp hx] at hcurr
    rw [hcurr] at ht
    refine ht (Nat.pos_of_ne_zero fun hzero => ?_)
    rw [Word.seen, hzero] at hx
    cases hx
  obtain ⟨w', hrun, hmoves⟩ := hcursor.advance hl hlen hfuel ht'
  exact ⟨w', hrun, hmoves.find hl ht'⟩

def fourPostings : List PostIt := [⟨1, 4⟩, ⟨2, 1⟩, ⟨3, 7⟩, ⟨5, 1⟩]

theorem advance_first_four :
    ∃ w', Word.advance allTags 5 ⟨fourPostings, 1, .at ⟨1, 4⟩, false⟩ ⟨4, 0⟩ = .ok w' ∧
      match fourPostings.find? fun x => ⟨4, 0⟩ ≤ x with
      | none => w'.eof = true
      | some x => w'.eof = false ∧ w'.curr = .at x := by
  have hl : Postings fourPostings := ⟨by decide, by decide⟩
  have hstart : Word.Reached 5 fourPostings ⟨fourPostings, 0, .none, false⟩ := .fresh ⟨rfl, rfl, .inl rfl⟩ rfl
  have hcall : Word.next allTags ⟨fourPostings, 0, .none, false⟩ = .ok ⟨fourPostings, 1, .at ⟨1, 4⟩, false⟩ := rfl
  exact advance_first _ hl (by decide) 5 (by decide) _ (hstart.next hcall rfl) _ (by decide)

def oneEach (n : ℕ) : List PostIt := (List.range n).map fun i => ⟨ofNat (i + 1), 1⟩

def oneEachWord (n : ℕ) : Word := ⟨oneEach n, 0, .none, false⟩

theorem getElem?_oneEach (hi : i < n) : (oneEach n)[i]? = some ⟨ofNat (i + 1), 1⟩ := by
  rw [oneEach, getElem?_map, getElem?_range hi]
  rfl

theorem ofNat_pos (hk : k < n) (hn : n < 2 ^ 63) : 0 < ofNat n := by
  rw [lt_iff_toInt_lt, toInt_ofNat_of_lt hn]
  change (0 : ℤ) < n
  omega

theorem postings_oneEach (hn : n < 2 ^ 63) : Postings (oneEach n) := by
  constructor
  · rw [oneEach, pairwise_map]
    refine pairwise_lt_range.imp_of_mem fun {i j} hi hj hij => PostIt.lt_iff.mpr (.inl ?_)
    rw [mem_range] at hi hj
    dsimp only
    rw [toInt_ofNat_of_lt (by omega), toInt_ofNat_of_lt (by omega)]
    omega
  · intro x hx
    obtain ⟨i, hi, rfl⟩ := mem_map.mp hx
    rw [mem_range] at hi
    exact ofNat_pos i.lt_succ_self (by omega)

/-- Half of a sum of 32 bits is below `2^31`, so the search does not get to a posting
behind that. -/
theorem search_oneEach (hn : 2 ^ 31 + 1 < n) (hn' : n < 2 ^ 63) (fuel p : ℕ) (hp : p ≤ 2 ^ 31) :
    (oneEachWord n).search ⟨ofNat n, 0⟩ fuel p (n - 1) = .error .fuel := by
  induction fuel generalizing p with
  | zero => rfl
  | succ fuel ih =>
    have hmid : (p + (n - 1)) % 2 ^ 32 / 2 < 2 ^ 31 := by
      have := Nat.mod_lt (p + (n - 1)) (show 0 < 2 ^ 32 by decide)
      omega
    generalize hm : (p + (n - 1)) % 2 ^ 32 / 2 = mid at hmid
    have hget : ∀ i < n, (oneEachWord n).get i = .ok ⟨ofNat (i + 1), 1⟩ := fun i hi =>
      Word.get_eq (getElem?_oneEach hi)
    have hlt : ∀ i, i + 1 < n → (⟨ofNat (i + 1), 1⟩ : PostIt) < ⟨ofNat n, 0⟩ := by
      intro i hi
      refine PostIt.lt_iff.mpr (.inl ?_)
      dsimp only
      rw [toInt_ofNat_of_lt (by omega), toInt_ofNat_of_lt hn']
      omega
    rw [Word.search, if_pos (by omega), hm]
    dsimp only
    rw [hget mid (by omega), ok_bind, if_pos (hlt mid (by omega)), hget (mid + 1) (by omega), ok_bind,
      if_neg (not_lt.mpr (hlt (mid + 1) (by omega)).le), ih _ (by omega)]

theorem advance_oneEach (hn : 2 ^ 31 + 1 < n) (hn' : n < 2 ^ 63) (fuel : ℕ) :
    (oneEachWord n).advance allTags fuel ⟨ofNat n, 0⟩ = .error .fuel := by
  have hlen : (oneEachWord n).inCore.length = n := by
    change (oneEach n).length = n
    rw [oneEach, length_map, length_range]
  have hlast : (oneEachWord n).get (n - 1) = .ok ⟨ofNat n, 1⟩ := by
    have := Word.get_eq (w := oneEachWord n) (getElem?_oneEach (show n - 1 < n by omega))
    rwa [Nat.sub_add_cancel (by omega)] at this
  have hfirst : (oneEachWord n).get 0 = .ok ⟨ofNat 1, 1⟩ := Word.get_eq (getElem?_oneEach (by omega))
  have hnot : ¬(⟨ofNat n, 1⟩ : PostIt) < ⟨ofNat n, 0⟩ := by
    rw [PostIt.lt_iff]
    simp
  have hlt : (⟨ofNat 1, 1⟩ : PostIt) < ⟨ofNat n, 0⟩ := by
    refine PostIt.lt_iff.mpr (.inl ?_)
    dsimp only
    rw [toInt_ofNat_of_lt (by omega), toInt_ofNat_of_lt hn']
    omega
  have hdoc : ¬(oneEachWord n).curr.s.dn = (⟨ofNat n, 0⟩ : PostIt).dn := Int64.ne_of_lt (ofNat_pos hn hn')
  rw [Word.advance, if_neg (by rw [hlen]; exact Nat.not_le.mpr (by change 0 < n; omega)), hlen, hlast, ok_bind, if_neg hnot]
  dsimp only
  rw [if_neg (show ¬0 < (oneEachWord n).inCoreP from Nat.lt_irrefl 0), if_neg hdoc]
  change ((oneEachWord n).get 0 >>= _) = _
  rw [hfirst, ok_bind, if_pos hlt, search_oneEach hn hn' fuel 0 (Nat.zero_le _)]
  rfl

/-- Among `2^31 + 2` postings the search for one in the last document does not end. -/
theorem advance_endless :
    ∃ (w : Word) (t : PostIt), w.Fresh ∧ Postings w.inCore ∧ ∀ fuel, w.advance allTags fuel t = .error .fuel := by
  obtain ⟨n, hn⟩ : ∃ n, n = 2147483650 := ⟨_, rfl⟩
  refine ⟨oneEachWord n, ⟨Int64.ofNat n, 0⟩, ⟨rfl, rfl, .inl rfl⟩, postings_oneEach (by omega), fun fuel => ?_⟩
  exact advance_oneEach (by omega) (by omega) fuel

end Mosbench.Psearchy
