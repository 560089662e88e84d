import Mosbench.Lib.Fallible
import Mosbench.Psearchy.Word

/-!
What the calls of a word operator do to its cursor. The postings before the cursor have been
seen; the last of them is the current match. `next` moves on by one posting, and `advance` to the
first posting that is not before its target.
-/
namespace Mosbench.Psearchy

open List Fallible

def allTags : UInt32 := 4294967295

structure Postings (l : List PostIt) : Prop where
  increasing : l.Pairwise (· < ·)
  positive : ∀ x ∈ l, 0 < x.dn

def maxPostings : ℕ := 2 ^ 31 + 1

theorem and_allTags (wc : UInt32) : wc &&& allTags = wc := by
  apply UInt32.toBitVec_inj.mp
  rw [UInt32.toBitVec_and]
  exact BitVec.and_allOnes

namespace Postings

variable {j : ℕ}

theorem lt_of_lt (h : Postings l) (hij : i < j) (hi : l[i]? = some x) (hj : l[j]? = some y) : x < y := by
  obtain ⟨hil, rfl⟩ := List.getElem?_eq_some_iff.mp hi
  obtain ⟨hjl, rfl⟩ := List.getElem?_eq_some_iff.mp hj
  exact pairwise_iff_getElem.mp h.increasing i j hil hjl hij

theorem le_of_le (h : Postings l) (hij : i ≤ j) (hi : l[i]? = some x) (hj : l[j]? = some y) : x ≤ y := by
  rcases hij.lt_or_eq with hlt | rfl
  · exact (h.lt_of_lt hlt hi hj).le
  · exact (Option.some.inj (hi.symm.trans hj)).le

end Postings

namespace Word

variable {w : Word} {t : PostIt}

def seen (w : Word) : List PostIt := w.inCore.take w.inCoreP

def rest (w : Word) : List PostIt := w.inCore.drop w.inCoreP

/-- The current match is the last posting that was seen. Before the first call there is
none; for a word that is not in the index the constructor does not even set it. -/
structure Cursor (w : Word) : Prop where
  isOpen : w.eof = false
  inside : w.inCoreP ≤ w.inCore.length
  current : match w.seen.getLast? with
    | none => w.curr = .none ∨ w.inCore = []
    | some x => w.curr = .at x

def moved (w : Word) (i : ℕ) (x : PostIt) : Word := { w with inCoreP := i + 1, curr := .at x }

theorem get_eq (h : w.inCore[i]? = some x) : w.get i = .ok x := by rw [get, h]

theorem goto_eq (h : w.inCore[i]? = some x) : w.goto allTags i = .ok (w.moved i x) := by
  have hmask : maskTags allTags x = x := congrArg (PostIt.mk x.dn) (and_allTags x.wc)
  rw [goto, get_eq h]
  exact congrArg (fun y => Except.ok (w.moved i y)) hmask

theorem seen_append_rest (w : Word) : w.seen ++ w.rest = w.inCore := take_append_drop _ _

theorem mem_rest (hip : w.inCoreP ≤ i) (h : w.inCore[i]? = some x) : x ∈ w.rest := by
  refine mem_of_getElem? (i := i - w.inCoreP) ?_
  rw [rest, getElem?_drop, Nat.add_sub_cancel' hip, h]

theorem seen_moved (h : w.inCore[i]? = some x) : (w.moved i x).seen = w.inCore.take i ++ [x] := by
  rw [seen, moved, take_add_one, h]
  rfl

theorem cursor_moved (hopen : w.eof = false) (h : w.inCore[i]? = some x) : (w.moved i x).Cursor := by
  obtain ⟨hi, -⟩ := List.getElem?_eq_some_iff.mp h
  refine ⟨hopen, hi, ?_⟩
  rw [seen_moved h, getLast?_concat]
  rfl

theorem search_spec (hl : Postings w.inCore) (hlen : w.inCore.length ≤ maxPostings) (hle : lo ≤ stop)
    (hbefore : ∀ j y, j < lo → w.inCore[j]? = some y → y < t) (hz : w.inCore[stop]? = some z) (htz : t ≤ z)
    (hfuel : stop - lo < fuel) :
    ∃ i x, w.search t fuel lo stop = .ok i ∧ w.inCore[i]? = some x ∧ t ≤ x ∧
      ∀ j y, j < i → w.inCore[j]? = some y → y < t := by
  induction fuel generalizing lo stop z with
  | zero => omega
  | succ fuel ih =>
    rw [search]
    by_cases hlt : lo < stop
    · obtain ⟨hstop, -⟩ := List.getElem?_eq_some_iff.mp hz
      have hmid : (lo + stop) % 2 ^ 32 / 2 = (lo + stop) / 2 := by
        rw [maxPostings] at hlen
        rw [Nat.mod_eq_of_lt (by omega)]
      rw [if_pos hlt, hmid]
      dsimp only
      generalize hm : (lo + stop) / 2 = mid
      have hx : w.inCore[mid]? = some w.inCore[mid] := getElem?_eq_getElem (by omega)
      have hy : w.inCore[mid + 1]? = some w.inCore[mid + 1] := getElem?_eq_getElem (by omega)
      rw [get_eq hx, ok_bind]
      by_cases hxt : w.inCore[mid] < t
      · have hbefore' : ∀ j y, j < mid + 1 → w.inCore[j]? = some y → y < t := fun j y hj hjy =>
          (hl.le_of_le (by omega) hjy hx).trans_lt hxt
        rw [if_pos hxt, get_eq hy, ok_bind]
        by_cases hyt : w.inCore[mid + 1] > t
        · rw [if_pos hyt]
          exact ⟨mid + 1, _, rfl, hy, hyt.le, hbefore'⟩
        · rw [if_neg hyt]
          exact ih (by omega) hbefore' hz htz (by omega)
      · have hge : t ≤ w.inCore[mid] := not_lt.mp hxt
        rw [if_neg hxt, if_pos hge]
        exact ih (by omega) hbefore hx hge (by omega)
    · obtain rfl : lo = stop := by omega
      rw [if_neg hlt]
      exact ⟨lo, z, rfl, hz, htz, hbefore⟩

theorem skip_spec (hdoc : ∀ j y, p ≤ j → w.inCore[j]? = some y → t.dn ≤ y.dn) (hps : p ≤ stop)
    (hz : w.inCore[stop]? = some z) (htz : t ≤ z) (hfuel : stop - p < fuel) :
    ∃ i x, w.skip allTags t fuel p = .ok i ∧ p ≤ i ∧ w.inCore[i]? = some x ∧ t ≤ x ∧
      ∀ j y, p ≤ j → j < i → w.inCore[j]? = some y → y < t := by
  induction fuel generalizing p with
  | zero => omega
  | succ fuel ih =>
    obtain ⟨hstop, -⟩ := List.getElem?_eq_some_iff.mp hz
    have hx : w.inCore[p]? = some w.inCore[p] := getElem?_eq_getElem (by omega)
    have hdn := hdoc p _ le_rfl hx
    have hiff : (w.inCore[p].dn = t.dn ∧ w.inCore[p].wc < t.wc) ↔ w.inCore[p] < t := by
      rw [Int64.le_iff_toInt_le] at hdn
      rw [PostIt.lt_iff, ← Int64.toInt_inj, UInt32.lt_iff_toNat_lt]
      omega
    rw [skip, get_eq hx, ok_bind, and_allTags]
    by_cases hlt : w.inCore[p] < t
    · have hne : p ≠ stop := by
        rintro rfl
        obtain rfl := Option.some.inj (hx.symm.trans hz)
        exact absurd htz (not_le.mpr hlt)
      obtain ⟨i, x, hrun, hpi, hi, htx, hbefore⟩ :=
        ih (fun j y (hj : p + 1 ≤ j) => hdoc j y (by omega)) (by omega) (by omega)
      rw [if_pos (hiff.mpr hlt)]
      refine ⟨i, x, hrun, by omega, hi, htx, fun j y hj hji hjy => ?_⟩
      rcases hj.lt_or_eq with hj | rfl
      · exact hbefore j y hj hji hjy
      · exact Option.some.inj (hx.symm.trans hjy) ▸ hlt
    · rw [if_neg fun h => hlt (hiff.mp h)]
      exact ⟨p, _, rfl, le_rfl, hx, not_lt.mp hlt, fun j y hj hjp => by omega⟩

def Moves (w : Word) (t : PostIt) (w' : Word) : Prop :=
  (w'.eof = true ∧ ∀ x ∈ w.rest, x < t) ∨
    ∃ skipped x, w.rest = skipped ++ x :: w'.rest ∧ w'.seen = w.seen ++ skipped ++ [x] ∧ w'.inCore = w.inCore ∧
      w'.Cursor ∧ (∀ y ∈ skipped, y < t) ∧ t ≤ x

theorem moves_finish (h : ∀ x ∈ w.rest, x < t) : w.Moves t w.finish := .inl ⟨rfl, h⟩

theorem moves_moved (hopen : w.eof = false) (hpi : w.inCoreP ≤ i) (hi : w.inCore[i]? = some x) (htx : t ≤ x)
    (hbefore : ∀ j y, w.inCoreP ≤ j → j < i → w.inCore[j]? = some y → y < t) : w.Moves t (w.moved i x) := by
  obtain ⟨hlt, hget⟩ := List.getElem?_eq_some_iff.mp hi
  have hrest : w.rest = w.rest.take (i - w.inCoreP) ++ x :: (w.moved i x).rest := by
    conv_lhs => rw [← take_append_drop (i - w.inCoreP) w.rest]
    rw [rest, drop_drop, Nat.add_sub_cancel' hpi, drop_eq_getElem_cons hlt, hget]
    rfl
  have hseen : (w.moved i x).seen = w.seen ++ w.rest.take (i - w.inCoreP) ++ [x] := by
    rw [seen_moved hi, seen, rest, ← take_add, Nat.add_sub_cancel' hpi]
  refine .inr ⟨w.rest.take (i - w.inCoreP), x, hrest, hseen, rfl, cursor_moved hopen hi, fun y hy => ?_, htx⟩
  obtain ⟨j, hj⟩ := mem_iff_getElem?.mp hy
  rw [getElem?_take, rest, getElem?_drop] at hj
  split_ifs at hj with hji
  exact hbefore (w.inCoreP + j) y (by omega) (by omega) hj

theorem getLast?_seen (hinside : w.inCoreP ≤ w.inCore.length) (hpos : 0 < w.inCoreP) :
    w.seen.getLast? = w.inCore[w.inCoreP - 1]? := by
  rw [seen, getLast?_take, if_neg hpos.ne', getElem?_eq_getElem (by omega)]
  rfl

theorem Cursor.next (h : w.Cursor) (hl : Postings w.inCore) (t : PostIt) (ht : ∀ x ∈ w.rest, t ≤ x) :
    ∃ w', w.next allTags = .ok w' ∧ w.Moves t w' := by
  rw [Word.next]
  by_cases hend : w.inCore.length ≤ w.inCoreP
  · have hrest : w.rest = [] := drop_eq_nil_of_le hend
    rw [if_pos hend]
    exact ⟨_, rfl, moves_finish (by rw [hrest]; exact fun x hx => absurd hx not_mem_nil)⟩
  · have hx : w.inCore[w.inCoreP]? = some w.inCore[w.inCoreP] := getElem?_eq_getElem (by omega)
    have hgoto : w.goto allTags w.inCoreP = .ok (w.moved w.inCoreP w.inCore[w.inCoreP]) := goto_eq hx
    refine ⟨_, ?_, moves_moved h.isOpen le_rfl hx (ht _ (mem_rest le_rfl hx)) fun j y hj hjp => by omega⟩
    rw [if_neg hend, get_eq hx, ok_bind]
    dsimp only
    by_cases hpos : 0 < w.inCoreP
    · have hprev : w.inCore[w.inCoreP - 1]? = some w.inCore[w.inCoreP - 1] := getElem?_eq_getElem (by omega)
      have hord := PostIt.lt_iff.mp (hl.lt_of_lt (by omega) hprev hx)
      rw [if_pos hpos, get_eq hprev, ok_bind, if_neg, hgoto]
      rw [Int64.lt_iff_toInt_lt]
      omega
    · rw [if_neg hpos, hgoto]

theorem Cursor.doc_le (h : w.Cursor) (hl : Postings w.inCore) (hlt : w.inCoreP < w.inCore.length)
    (hdn : w.curr.s.dn = t.dn) : ∀ j y, w.inCoreP ≤ j → w.inCore[j]? = some y → t.dn ≤ y.dn := by
  intro j y hj hy
  have hcur := h.current
  rw [Int64.le_iff_toInt_le, ← hdn]
  cases hlast : w.seen.getLast? with
  | none =>
    rw [hlast] at hcur
    have hpos := hl.positive y (mem_of_getElem? hy)
    rw [Int64.lt_iff_toInt_lt] at hpos
    rcases hcur with hnone | hnil
    · rw [hnone]
      exact hpos.le
    · rw [hnil] at hlt
      exact absurd hlt (Nat.not_lt_zero _)
  | some prev =>
    rw [hlast] at hcur
    have hpos : 0 < w.inCoreP := by
      by_contra hzero
      rw [seen, Nat.eq_zero_of_not_pos hzero] at hlast
      exact nomatch hlast
    rw [getLast?_seen h.inside hpos] at hlast
    have hlt := PostIt.lt_iff.mp (hl.lt_of_lt (by omega) hlast hy)
    rw [hcur]
    change prev.dn.toInt ≤ y.dn.toInt
    omega

theorem Cursor.advance (h : w.Cursor) (hl : Postings w.inCore) (hlen : w.inCore.length ≤ maxPostings)
    (hfuel : w.inCore.length < fuel) (ht : ∀ x ∈ w.seen.getLast?, x < t) :
    ∃ w', w.advance allTags fuel t = .ok w' ∧ w.Moves t w' := by
  rw [Word.advance]
  by_cases hend : w.inCore.length ≤ w.inCoreP
  · have hrest : w.rest = [] := drop_eq_nil_of_le hend
    rw [if_pos hend]
    exact ⟨_, rfl, moves_finish (by rw [hrest]; exact fun x hx => absurd hx not_mem_nil)⟩
  have hlast : w.inCore[w.inCore.length - 1]? = some w.inCore[w.inCore.length - 1] := getElem?_eq_getElem (by omega)
  rw [if_neg hend, get_eq hlast, ok_bind]
  by_cases hlt : w.inCore[w.inCore.length - 1] < t
  · rw [if_pos hlt]
    refine ⟨_, rfl, moves_finish fun x hx => ?_⟩
    obtain ⟨j, hj⟩ := mem_iff_getElem?.mp hx
    rw [rest, getElem?_drop] at hj
    obtain ⟨hjl, -⟩ := List.getElem?_eq_some_iff.mp hj
    exact (hl.le_of_le (by omega) hj hlast).trans_lt hlt
  have hge : t ≤ w.inCore[w.inCore.length - 1] := not_lt.mp hlt
  rw [if_neg hlt]
  dsimp only
  have hprev : ∀ prev, 0 < w.inCoreP → w.inCore[w.inCoreP - 1]? = some prev → prev < t := fun prev hpos hget =>
    ht prev (by rw [getLast?_seen h.inside hpos, hget]; rfl)
  have hskip : ∀ body : Except Fault Word, (if 0 < w.inCoreP then do
      let prev ← w.get (w.inCoreP - 1)
      if prev.dn > t.dn then pure w else body
    else body) = body := by
    intro body
    by_cases hpos : 0 < w.inCoreP
    · have hget : w.inCore[w.inCoreP - 1]? = some w.inCore[w.inCoreP - 1] := getElem?_eq_getElem (by omega)
      have hlt := PostIt.lt_iff.mp (hprev _ hpos hget)
      rw [if_pos hpos, get_eq hget, ok_bind, if_neg]
      rw [gt_iff_lt, Int64.lt_iff_toInt_lt]
      omega
    · rw [if_neg hpos]
  rw [hskip]
  by_cases hdn : w.curr.s.dn = t.dn
  · obtain ⟨i, x, hrun, hpi, hi, htx, hbefore⟩ := skip_spec (h.doc_le hl (by omega) hdn) (by omega) hlast hge
      (show w.inCore.length - 1 - w.inCoreP < fuel by omega)
    rw [if_pos hdn, hrun, ok_bind, goto_eq hi]
    exact ⟨_, rfl, moves_moved h.isOpen hpi hi htx hbefore⟩
  · have hx : w.inCore[w.inCoreP]? = some w.inCore[w.inCoreP] := getElem?_eq_getElem (by omega)
    rw [if_neg hdn, get_eq hx, ok_bind]
    by_cases hxt : w.inCore[w.inCoreP] < t
    · obtain ⟨i, x, hrun, hi, htx, hbefore⟩ := search_spec hl hlen (Nat.zero_le _) (fun j y hj => absurd hj (Nat.not_lt_zero j))
        hlast hge (show w.inCore.length - 1 - 0 < fuel by omega)
      have hpi : w.inCoreP ≤ i := by
        by_contra hip
        exact absurd (htx.trans (hl.le_of_le (by omega) hi hx)) (not_le.mpr hxt)
      rw [if_pos hxt, hrun, ok_bind, goto_eq hi]
      exact ⟨_, rfl, moves_moved h.isOpen hpi hi htx fun j y _ => hbefore j y⟩
    · rw [if_neg hxt, goto_eq hx]
      exact ⟨_, rfl, moves_moved h.isOpen le_rfl hx (not_lt.mp hxt) fun j y hj hjp => by omega⟩

end Word

end Mosbench.Psearchy
