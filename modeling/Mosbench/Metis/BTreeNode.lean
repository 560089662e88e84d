import Mathlib.Order.WithBot
import Mosbench.Metis.BTree

/-!
What a node of the B+tree holds. A child is kept together with its lower bound: the key
in front of it, or that of its node if it is the first child. The first node of a level
has none, so that bounds are keys or bottom. With this the children of an internal node
are one list, and so is every level of the tree.
-/
namespace Mosbench.Metis.BTree

open List Option Function

variable [LinearOrder K]

abbrev Item (K : Type) := WithBot K × Ptr

def Increasing (items : List (Item K)) : Prop := items.Pairwise fun x y => x.1 < y.1

structure Inner (nd : Node K V) (kids : List (Item K)) : Prop where
  nkeys : nd.nkeys + 1 = kids.length
  fits : kids.length ≤ slots
  child : ∀ i (x : Item K), kids[i]? = some x → (nd.arr i).vals = .node x.2
  key : ∀ i (x : Item K), kids[i + 1]? = some x → ∃ k : K, x.1 = k ∧ (nd.arr i).key = some k

structure Leaf (nd : Node K V) (es : List (KeyVals K V)) : Prop where
  nkeys : nd.nkeys = es.length
  fits : es.length ≤ slots
  pair : ∀ i e, es[i]? = some e → nd.arr i = .ofKeyVals e

section

omit [LinearOrder K]

theorem Inner.childAt (h : Inner nd (C ++ x :: D)) : nd.childAt C.length = some x.2 := by
  have hlen := h.fits
  rw [length_append, length_cons] at hlen
  have hvals := h.child C.length x (by simp)
  rw [Node.childAt, Node.read, if_pos (by omega), bind_some]
  generalize nd.arr C.length = s at hvals
  obtain ⟨key, vals, hash⟩ := s
  obtain rfl : vals = .node x.2 := hvals
  rfl

theorem exists_map_coe {l : List (WithBot K)} (h : ∀ x ∈ l, ∃ k : K, x = k) :
    ∃ ks : List K, l = ks.map WithBot.some := by
  induction l with
  | nil => exact ⟨[], rfl⟩
  | cons x l ih =>
    obtain ⟨k, rfl⟩ := h x mem_cons_self
    obtain ⟨ks, rfl⟩ := ih fun y hy => h y (mem_cons_of_mem _ hy)
    exact ⟨k :: ks, rfl⟩

theorem Inner.exists_keys (h : Inner nd kids) :
    ∃ ks : List K, kids.tail.map Prod.fst = ks.map WithBot.some ∧
      ks.length = nd.nkeys ∧ Holds nd.keyAt ks := by
  have hnkeys := h.nkeys
  have hfits := h.fits
  obtain ⟨ks, hks⟩ : ∃ ks : List K, kids.tail.map Prod.fst = ks.map WithBot.some := by
    refine exists_map_coe fun b hb => ?_
    obtain ⟨x, hx, rfl⟩ := mem_map.mp hb
    obtain ⟨i, hi⟩ := mem_iff_getElem?.mp hx
    rw [getElem?_tail] at hi
    obtain ⟨k, hk, -⟩ := h.key i x hi
    exact ⟨k, hk⟩
  have hlen : ks.length = nd.nkeys := by
    have hlength := congrArg length hks
    simp only [length_map, length_tail] at hlength
    omega
  refine ⟨ks, hks, hlen, fun i hi => ?_⟩
  have hlt : i + 1 < kids.length := by omega
  obtain ⟨k, hk, hkey⟩ := h.key i kids[i + 1] (getElem?_eq_getElem hlt)
  have hget : (kids.tail.map Prod.fst)[i]? = some (k : WithBot K) := by
    rw [getElem?_map, getElem?_tail, getElem?_eq_getElem hlt, map_some, hk]
  rw [hks, getElem?_map, getElem?_eq_getElem hi, map_some] at hget
  have hki : ks[i] = k := WithBot.coe_injective (some.inj hget)
  rw [Node.keyAt, if_pos (by omega), Int.toNat_natCast, Node.read, if_pos (by omega), bind_some,
    hkey, getElem?_eq_getElem hi, hki]

end

theorem Inner.route {c : KeyComparator K} (key : K)
    (h : Inner nd kids) (hinc : Increasing kids) (hlow : ∀ x ∈ kids.head?, x.1 ≤ (key : WithBot K)) :
    ∃ (C : List (Item K)) (x : Item K) (D : List (Item K)), kids = C ++ x :: D ∧ x.1 ≤ key ∧
      (∀ y ∈ D, (key : WithBot K) < y.1) ∧
      bsearchLar c.cmp key nd.keyAt nd.nkeys = some (C.length : ℤ) := by
  obtain ⟨ks, hks, hlen, hholds⟩ := h.exists_keys
  have hnkeys := h.nkeys
  have hsorted : ks.Pairwise c.toComparator.le := by
    have hlows : (kids.tail.map Prod.fst).Pairwise (· < ·) := pairwise_map.mpr hinc.tail
    rw [hks, pairwise_map] at hlows
    exact hlows.imp fun hab => c.le_iff.mpr (WithBot.coe_lt_coe.mp hab).le
  obtain ⟨i, hi, hsplit⟩ := bsearchLar_spec key hsorted hholds
    (by have := h.fits; rw [slots, order] at this; omega)
  have hle := hsplit.le_length
  have hlt : i < kids.length := by omega
  rw [hlen] at hi
  refine ⟨kids.take i, kids[i], kids.drop (i + 1), ?_, ?_, ?_, ?_⟩
  · rw [← drop_eq_getElem_cons hlt, take_append_drop]
  · -- the first child has the bound of the node, the others have a key in front
    cases i with
    | zero => exact hlow _ (by rw [head?_eq_getElem?]; exact getElem?_eq_getElem hlt)
    | succ i =>
      have hmem : ks[i] ∈ ks.take (i + 1) := mem_take_iff_getElem.mpr ⟨i, by omega, rfl⟩
      have hget : (kids.tail.map Prod.fst)[i]? = some (ks[i] : WithBot K) := by
        rw [hks, getElem?_map, getElem?_eq_getElem (by omega), map_some]
      rw [getElem?_map, getElem?_tail, getElem?_eq_getElem hlt, map_some] at hget
      rw [some.inj hget]
      exact WithBot.coe_le_coe.mpr (c.le_iff.mp (hsplit.before _ hmem))
  · intro y hy
    have hmem : y.1 ∈ (kids.tail.map Prod.fst).drop i := by
      rw [← map_drop, drop_tail]
      exact mem_map_of_mem hy
    rw [hks, ← map_drop] at hmem
    obtain ⟨k, hk, hky⟩ := mem_map.mp hmem
    rw [← hky]
    exact WithBot.coe_lt_coe.mpr (c.lt_iff.mp (hsplit.after k hk))
  · rw [length_take, Nat.min_eq_left hlt.le]
    exact hi

theorem route_unique {C : List (Item K)}
    (heq : C ++ x :: D = C' ++ x' :: D') (hx : x.1 ≤ key) (hx' : x'.1 ≤ key) (hD : ∀ y ∈ D, key < y.1) (hD' : ∀ y ∈ D', key < y.1) : C.length = C'.length := by
  have key_lt : ∀ {C C' D D' : List (Item K)} {x x' : Item K}, C ++ x :: D = C' ++ x' :: D' →
      x'.1 ≤ key → (∀ y ∈ D, key < y.1) → C'.length ≤ C.length := by
    intro C C' D D' x x' heq hx' hD
    by_contra hlt
    have hget : (C ++ x :: D)[C'.length]? = some x' := by rw [heq]; simp
    rw [getElem?_append_right (by omega), show C'.length - C.length = C'.length - C.length - 1 + 1 by omega,
      getElem?_cons_succ] at hget
    exact absurd hx' (not_le.mpr (hD x' (mem_of_getElem? hget)))
  exact le_antisymm (key_lt heq.symm hx hD') (key_lt heq hx' hD)

section Arrays

omit [LinearOrder K]

variable {nd : Node K V}

theorem read_of_lt (h : i < slots) : nd.read i = some (nd.arr i) := if_pos h

theorem write_of_lt (h : i < slots) :
    nd.write i s = some { nd with arr := update nd.arr i s } := if_pos h

theorem shift_eq (mv : Slot K V → Slot K V → Slot K V) (base n : ℕ) (h : base + n < slots) :
    nd.shift mv base n = some { nd with arr := fun i =>
      if base < i ∧ i ≤ base + n then mv (nd.arr i) (nd.arr (i - 1)) else nd.arr i } := by
  induction n generalizing nd with
  | zero =>
    have harr : nd.arr = fun i =>
        if base < i ∧ i ≤ base + 0 then mv (nd.arr i) (nd.arr (i - 1)) else nd.arr i := by
      funext i
      rw [if_neg (by omega)]
    rw [Node.shift, ← harr]
  | succ n ih =>
    rw [Node.shift, read_of_lt (by omega), bind_some, read_of_lt (by omega), bind_some,
      write_of_lt (by omega), bind_some, ih (by omega)]
    congr 2
    funext i
    dsimp only
    rcases Nat.lt_trichotomy i (base + n + 1) with hlt | rfl | hgt
    · rw [update_of_ne hlt.ne, update_of_ne (show i - 1 ≠ base + n + 1 by omega)]
      by_cases hb : base < i
      · rw [if_pos (by omega), if_pos (by omega)]
      · rw [if_neg (by omega), if_neg (by omega)]
    · rw [if_neg (by omega), if_pos (by omega), update_self, Nat.add_sub_cancel]
    · rw [if_neg (by omega), if_neg (by omega), update_of_ne hgt.ne']

theorem setKey_eq (key : K) (h : i < slots) : nd.setKey i key =
    some { nd with arr := update nd.arr i { nd.arr i with key := some key } } := by
  rw [Node.setKey, read_of_lt h, bind_some, write_of_lt h]

theorem setChild_eq (p : Ptr) (h : i < slots) : nd.setChild i p =
    some { nd with arr := update nd.arr i { nd.arr i with vals := .node p } } := by
  rw [Node.setChild, read_of_lt h, bind_some, write_of_lt h]

theorem exists_insertSlot {cmp : K → K → ℤ} (right : Ptr) (hm : m ≤ nd.nkeys)
    (hfits : nd.nkeys + 1 < slots) (hsearch : bsearchLar cmp key nd.keyAt nd.nkeys = some (m : ℤ)) :
    ∃ nd', insertSlot cmp nd key right = some nd' ∧ nd'.nkeys = nd.nkeys + 1 ∧
      nd'.parent = nd.parent ∧ nd'.next = nd.next ∧
      (∀ i, i ≤ nd.nkeys → (nd'.arr i).key =
        if i < m then (nd.arr i).key else if i = m then some key else (nd.arr (i - 1)).key) ∧
      ∀ i, i ≤ nd.nkeys + 1 → (nd'.arr i).vals =
        if i ≤ m then (nd.arr i).vals else if i = m + 1 then .node right else (nd.arr (i - 1)).vals := by
  simp only [insertSlot, hsearch, bind_some, Int.toNat_natCast]
  rw [shift_eq _ _ _ (by omega), bind_some, shift_eq _ _ _ (by simp only; omega), bind_some,
    setKey_eq _ (by omega), bind_some, setChild_eq _ (by omega), map_some]
  refine ⟨_, rfl, rfl, rfl, rfl, fun i hi => ?_, fun i hi => ?_⟩
  · simp only [update_apply, Node.moveKey, Node.moveVals]
    split_ifs <;> first | rfl | omega | (subst_vars; rfl)
  · simp only [update_apply, Node.moveKey, Node.moveVals]
    split_ifs <;> first | rfl | omega | (subst_vars; rfl)

theorem copySlots_eq (h : src + n ≤ slots ∧ dst + n ≤ slots) : nd.copySlots nd' dst src n = some
      { nd with arr := fun i => if dst ≤ i ∧ i < dst + n then nd'.arr (src + (i - dst)) else nd.arr i } :=
  if_pos h

end Arrays

theorem insertIdx_behind (C D : List α) (x y : α) :
    C ++ x :: y :: D = (C ++ x :: D).insertIdx (C.length + 1) y := by
  induction C with
  | nil => rfl
  | cons z C ih => rw [cons_append, ih, cons_append, length_cons, insertIdx_succ_cons]

theorem Inner.insert {c : KeyComparator K} {key : K}
    (right : Ptr) (h : Inner nd (C ++ x :: D)) (hinc : Increasing (C ++ x :: D))
    (hx : x.1 ≤ (key : WithBot K)) (hD : ∀ y ∈ D, (key : WithBot K) < y.1)
    (hfits : (C ++ x :: D).length < slots) :
    ∃ nd', insertSlot c.cmp nd key right = some nd' ∧ Inner nd' (C ++ x :: ((key : WithBot K), right) :: D) ∧
      nd'.parent = nd.parent ∧ nd'.next = nd.next := by
  have hlow : ∀ y ∈ (C ++ x :: D).head?, y.1 ≤ (key : WithBot K) := by
    intro y hy
    cases C with
    | nil =>
      obtain rfl : x = y := some.inj hy
      exact hx
    | cons z C =>
      obtain rfl : z = y := some.inj hy
      exact ((pairwise_cons.mp hinc).1 x (by simp)).le.trans hx
  obtain ⟨C', x', D', heq, hx', hD', hsearch⟩ := h.route (c := c) key hinc hlow
  rw [← route_unique heq hx hx' hD hD'] at hsearch
  have hnkeys := h.nkeys
  have hlength : (C ++ x :: D).length = C.length + 1 + D.length := by
    rw [length_append, length_cons]
    omega
  obtain ⟨nd', hinsert, hn, hparent, hnext, hkeys, hvals⟩ :=
    exists_insertSlot right (show C.length ≤ nd.nkeys by omega) (by omega) hsearch
  refine ⟨nd', hinsert, ?_, hparent, hnext⟩
  rw [insertIdx_behind]
  refine ⟨?_, ?_, fun i y hy => ?_, fun i y hy => ?_⟩
  · rw [length_insertIdx_of_le_length (by omega)]
    omega
  · rw [length_insertIdx_of_le_length (by omega)]
    omega
  · rw [getElem?_insertIdx] at hy
    split_ifs at hy with hlt heq hle
    · rw [hvals i (by omega), if_pos (by omega), h.child i y hy]
    · obtain rfl := some.inj hy
      rw [hvals i (by omega), if_neg (by omega), if_pos heq]
    · have hi := (List.getElem?_eq_some_iff.mp hy).1
      rw [hvals i (by omega), if_neg (by omega), if_neg heq, h.child (i - 1) y hy]
  · rw [getElem?_insertIdx] at hy
    split_ifs at hy with hlt heq hle
    · obtain ⟨k, hk, hkey⟩ := h.key i y hy
      exact ⟨k, hk, by rw [hkeys i (by omega), if_pos (by omega), hkey]⟩
    · obtain rfl := some.inj hy
      exact ⟨key, rfl, by rw [hkeys i (by omega), if_neg (by omega), if_pos (by omega)]⟩
    · have hi := (List.getElem?_eq_some_iff.mp hy).1
      obtain ⟨k, hk, hkey⟩ := h.key (i - 1) y (by rw [show i - 1 + 1 = i + 1 - 1 by omega]; exact hy)
      exact ⟨k, hk, by rw [hkeys i (by omega), if_neg (by omega), if_neg (by omega), hkey]⟩

section Halves

omit [LinearOrder K]

variable {nd' : Node K V} {R : List (Item K)}

theorem Inner.left (h : Inner nd (L ++ R)) (hn : nd'.nkeys + 1 = L.length)
    (harr : ∀ i, i < L.length → nd'.arr i = nd.arr i) : Inner nd' L := by
  have hfits := h.fits
  rw [length_append] at hfits
  refine ⟨hn, by omega, fun i x hx => ?_, fun i x hx => ?_⟩
  · have hi := (List.getElem?_eq_some_iff.mp hx).1
    rw [harr i hi]
    exact h.child i x (by rw [getElem?_append_left hi]; exact hx)
  · have hi := (List.getElem?_eq_some_iff.mp hx).1
    rw [harr i (by omega)]
    exact h.key i x (by rw [getElem?_append_left hi]; exact hx)

theorem Inner.right (h : Inner nd (L ++ R)) (hn : nd'.nkeys + 1 = R.length)
    (harr : ∀ i, i < R.length → nd'.arr i = nd.arr (L.length + i)) : Inner nd' R := by
  have hfits := h.fits
  rw [length_append] at hfits
  refine ⟨hn, by omega, fun i x hx => ?_, fun i x hx => ?_⟩
  · rw [harr i (List.getElem?_eq_some_iff.mp hx).1]
    refine h.child _ x ?_
    rw [getElem?_append_right (by omega), Nat.add_sub_cancel_left]
    exact hx
  · have hi := (List.getElem?_eq_some_iff.mp hx).1
    rw [harr i (by omega)]
    refine h.key _ x ?_
    rw [getElem?_append_right (by omega), Nat.add_assoc, Nat.add_sub_cancel_left]
    exact hx

theorem Inner.middle (h : Inner nd (L ++ x :: R)) (hL : 0 < L.length) :
    ∃ k : K, x.1 = k ∧ (nd.read (L.length - 1)).bind Slot.key = some k := by
  have hfits := h.fits
  rw [length_append] at hfits
  obtain ⟨k, hk, hkey⟩ := h.key (L.length - 1) x (by rw [Nat.sub_add_cancel hL]; simp)
  exact ⟨k, hk, by rw [read_of_lt (by omega), bind_some, hkey]⟩

end Halves

section Leaves

omit [LinearOrder K]

variable {b : List (KeyVals K V)}

theorem Slot.keyVals_ofKeyVals (e : KeyVals K V) : (Slot.ofKeyVals e).keyVals = some e := rfl

theorem Leaf.holds (h : Leaf nd es) : Holds nd.keyAt (es.map KeyVals.key) := by
  intro i hi
  rw [length_map] at hi
  have hfits := h.fits
  rw [Node.keyAt, if_pos (by omega), Int.toNat_natCast, read_of_lt (by omega), bind_some,
    h.pair i _ (getElem?_eq_getElem hi), getElem?_map, getElem?_eq_getElem hi]
  rfl

theorem Leaf.left (h : Leaf nd (a ++ b)) (hn : nd'.nkeys = a.length)
    (harr : ∀ i, i < a.length → nd'.arr i = nd.arr i) : Leaf nd' a := by
  have hfits := h.fits
  rw [length_append] at hfits
  refine ⟨hn, by omega, fun i x hx => ?_⟩
  have hi := (List.getElem?_eq_some_iff.mp hx).1
  rw [harr i hi]
  exact h.pair i x (by rw [List.getElem?_append_left hi]; exact hx)

theorem Leaf.right (h : Leaf nd (a ++ b)) (hn : nd'.nkeys = b.length)
    (harr : ∀ i, i < b.length → nd'.arr i = nd.arr (a.length + i)) : Leaf nd' b := by
  have hfits := h.fits
  rw [length_append] at hfits
  refine ⟨hn, by omega, fun i x hx => ?_⟩
  rw [harr i (List.getElem?_eq_some_iff.mp hx).1]
  refine h.pair _ x ?_
  rw [getElem?_append_right (by omega), Nat.add_sub_cancel_left]
  exact hx

theorem Leaf.write (h : Leaf nd (a ++ e :: b)) (e' : KeyVals K V) :
    ∃ nd', nd.write a.length (.ofKeyVals e') = some nd' ∧ Leaf nd' (a ++ e' :: b) ∧
      nd'.parent = nd.parent ∧ nd'.next = nd.next := by
  have hnkeys := h.nkeys
  have hfits := h.fits
  rw [length_append, length_cons] at hfits hnkeys
  refine ⟨_, write_of_lt (by omega), ⟨?_, ?_, fun i x hx => ?_⟩, rfl, rfl⟩
  · rw [length_append, length_cons]
    exact hnkeys
  · rw [length_append, length_cons]
    exact hfits
  · dsimp only
    rcases Nat.lt_trichotomy i a.length with hi | rfl | hi
    · rw [getElem?_append_left hi] at hx
      rw [update_of_ne hi.ne]
      exact h.pair i x (by rw [getElem?_append_left hi]; exact hx)
    · rw [getElem?_append_right le_rfl, Nat.sub_self, getElem?_cons_zero] at hx
      rw [update_self, some.inj hx]
    · have hget : (a ++ e :: b)[i]? = some x := by
        rw [getElem?_append_right hi.le, show i - a.length = i - a.length - 1 + 1 by omega,
          getElem?_cons_succ] at hx ⊢
        exact hx
      rw [update_of_ne hi.ne']
      exact h.pair i x hget

theorem Leaf.read (h : Leaf nd (a ++ e :: b)) : nd.read a.length = some (.ofKeyVals e) := by
  have hfits := h.fits
  rw [length_append, length_cons] at hfits
  rw [read_of_lt (by omega), h.pair a.length e (by simp)]

theorem Leaf.setHash (h : Leaf nd (a ++ e :: b)) (hash : ℕ) :
    ∃ nd', nd.setHash a.length hash = some nd' ∧ Leaf nd' (a ++ { e with hash := hash } :: b) ∧
      nd'.parent = nd.parent ∧ nd'.next = nd.next := by
  rw [Node.setHash, h.read, bind_some]
  exact h.write { e with hash := hash }

theorem Leaf.insertValue {insert : KeyVals K V → Option (KeyVals K V)} (h : Leaf nd (a ++ e :: b))
    (hinsert : insert e = some e') :
    ∃ nd', nd.insertValue a.length insert = some nd' ∧ Leaf nd' (a ++ e' :: b) ∧
      nd'.parent = nd.parent ∧ nd'.next = nd.next := by
  rw [Node.insertValue, h.read, bind_some, Slot.keyVals_ofKeyVals, bind_some, hinsert, bind_some]
  exact h.write e'

theorem Leaf.openSlot (h : Leaf nd (a ++ b)) (hfits : (a ++ b).length < slots) (key : K) :
    ∃ nd' hash, nd.openSlot key a.length = some nd' ∧ Leaf nd' (a ++ ⟨key, .empty, hash⟩ :: b) ∧
      nd'.parent = nd.parent ∧ nd'.next = nd.next := by
  have hnkeys := h.nkeys
  rw [length_append] at hfits hnkeys
  obtain ⟨arr, hmove, hbefore, hbehind⟩ : ∃ arr : ℕ → Slot K V,
      (if a.length < nd.nkeys then nd.copySlots nd (a.length + 1) a.length (nd.nkeys - a.length)
        else some nd) = some { nd with arr := arr } ∧
      (∀ i, i < a.length → arr i = nd.arr i) ∧
      ∀ i, a.length < i → i ≤ nd.nkeys → arr i = nd.arr (i - 1) := by
    by_cases hpos : a.length < nd.nkeys
    · rw [if_pos hpos, copySlots_eq (by omega)]
      refine ⟨_, rfl, fun i hi => if_neg (by omega), fun i hi hle => ?_⟩
      rw [if_pos (by omega)]
      congr 1
      omega
    · rw [if_neg hpos]
      exact ⟨nd.arr, rfl, fun i _ => rfl, fun i hi hle => by omega⟩
  have hopen : nd.openSlot key a.length = some { nd with
      nkeys := nd.nkeys + 1
      arr := update arr a.length { arr a.length with key := some key, vals := .values .empty } } := by
    rw [Node.openSlot, hmove, bind_some, read_of_lt (by omega), bind_some, write_of_lt (by omega)]
  refine ⟨_, (arr a.length).hash, hopen, ⟨?_, ?_, fun i x hx => ?_⟩, rfl, rfl⟩
  · rw [length_append, length_cons]
    dsimp only
    omega
  · rw [length_append, length_cons]
    omega
  · dsimp only
    rcases Nat.lt_trichotomy i a.length with hi | rfl | hi
    · rw [getElem?_append_left hi] at hx
      rw [update_of_ne hi.ne, hbefore i hi]
      exact h.pair i x (by rw [getElem?_append_left hi]; exact hx)
    · rw [getElem?_append_right le_rfl, Nat.sub_self, getElem?_cons_zero] at hx
      rw [update_self, ← some.inj hx]
      rfl
    · rw [getElem?_append_right hi.le, show i - a.length = i - a.length - 1 + 1 by omega,
        getElem?_cons_succ] at hx
      have hi' := (List.getElem?_eq_some_iff.mp hx).1
      rw [update_of_ne hi.ne', hbehind i hi (by omega)]
      refine h.pair _ x ?_
      rw [getElem?_append_right (by omega), show i - 1 - a.length = i - a.length - 1 by omega]
      exact hx

end Leaves

theorem Leaf.locate {c : KeyComparator K} {nd : Node K V} (h : Leaf nd es)
    (hsorted : Keyed.Sorted KeyVals.key es) (key : K) :
    (∃ a e b, es = a ++ e :: b ∧ e.key = key ∧ (∀ x ∈ a, x.key < key) ∧
      bsearchEq c.cmp key nd.keyAt nd.nkeys = some ((a.length : ℤ), true)) ∨
    ∃ a b, es = a ++ b ∧ (∀ x ∈ a, x.key < key) ∧ (∀ x ∈ b, key < x.key) ∧
      bsearchEq c.cmp key nd.keyAt nd.nkeys = some ((a.length : ℤ), false) := by
  rw [h.nkeys]
  exact bsearchEq_pairs h.holds hsorted (h.fits.trans (by decide)) key

end Mosbench.Metis.BTree
