import Mosbench.Lib.Fallible
import Mosbench.Lib.Iterator
import Mosbench.Metis.BTreeInsert

/-!
Reading the B+tree along the links between its leaves, with pch_iter_next_kvs, which may
clear the slots it has read, and with pch_copy_kvs.
-/
namespace Mosbench.Metis.BTree

open List Option

variable {bt : Tree K V}

theorem leftmost_succ (bt : Tree K V) (n : ℕ) (p : Ptr) :
    leftmost bt (n + 1) p = (leftmost bt n p).bind (leftmost bt 1) := by
  induction n generalizing p with
  | zero => rfl
  | succ n ih =>
    rw [leftmost, leftmost]
    cases bt.load p with
    | none => rfl
    | some nd =>
      simp only [bind_some]
      cases nd.childAt 0 with
      | none => rfl
      | some child => simp only [bind_some, ih]

theorem Tower.leftmost_eq (h : Tower bt levels items) (hlt : ∀ p ∈ above levels, p < bt.size) :
    ∃ root x rest, bt.root = some root ∧ items = x :: rest ∧ leftmost bt levels.length root = some x.2 := by
  induction levels generalizing items with
  | nil =>
    obtain ⟨p, rfl, hroot, -⟩ := h
    exact ⟨p, (⊥, p), [], hroot, rfl, rfl⟩
  | cons ns levels ih =>
    obtain ⟨rfl, hnodes, htower⟩ := h
    rw [above_cons] at hlt
    obtain ⟨root, x, rest, hroot, hmap, hleft⟩ := ih htower fun p hp => hlt p (mem_append_right _ hp)
    obtain ⟨n, ns, rfl, rfl, rfl⟩ := map_eq_cons_iff.mp hmap
    obtain ⟨q, kids, hfirst⟩ := (hnodes n mem_cons_self).1.exists_first
    have hinner := (hnodes n mem_cons_self).1.inner
    rw [hfirst] at hinner
    refine ⟨root, (n.low, q), kids ++ ns.flatMap Branch.kids, hroot, ?_, ?_⟩
    · rw [flatMap_cons, hfirst, cons_append]
    · have hP : n.ptr < bt.size := hlt _ (mem_append_left _ (by simp))
      rw [length_cons, leftmost_succ, hleft, bind_some, leftmost]
      change (bt.load n.ptr).bind _ = _
      have hchild : (bt.heap n.ptr).childAt 0 = some q := Inner.childAt (C := []) hinner
      rw [load_of_lt hP, bind_some, hchild]
      rfl

structure Scan (bt : Tree K V) (iter : Iter) (es : List (KeyVals K V)) (pages : List (Page K V)) : Prop where
  lt : iter.node < bt.size
  nkeys : (bt.heap iter.node).nkeys = iter.next + es.length
  fits : iter.next + es.length ≤ slots
  pair : ∀ i e, es[i]? = some e → (bt.heap iter.node).arr (iter.next + i) = .ofKeyVals e
  chain : Links.Chain (cells bt none) (.next iter.node) (pages.map Page.ptr)
  leaf : ∀ l ∈ pages, l.ptr < bt.size ∧ Leaf (bt.heap l.ptr) l.pairs ∧ l.pairs ≠ []
  nodup : (iter.node :: pages.map Page.ptr).Nodup

namespace Scan

variable {iter : Iter}

theorem advance (h : Scan bt iter (e :: es) pages) : iterAdvance bt iter = some (some iter) := by
  rw [iterAdvance, load_of_lt h.lt, map_some, h.nkeys, length_cons, if_neg (by omega)]

theorem next_leaf (h : Scan bt iter es (l :: pages)) :
    (bt.heap iter.node).next = some l.ptr ∧ Scan bt ⟨0, l.ptr⟩ l.pairs pages := by
  have hchain : (bt.heap iter.node).next = some l.ptr ∧ Links.Chain (cells bt none) (.next l.ptr) (pages.map Page.ptr) :=
    h.chain
  obtain ⟨hlt, hleaf, -⟩ := h.leaf l mem_cons_self
  exact ⟨hchain.1, hlt, by rw [hleaf.nkeys, Nat.zero_add], by rw [Nat.zero_add]; exact hleaf.fits,
    fun i e he => by rw [Nat.zero_add]; exact hleaf.pair i e he, hchain.2,
    fun m hm => h.leaf m (mem_cons_of_mem l hm), (nodup_cons.mp h.nodup).2⟩

theorem advance_next (h : Scan bt iter [] (l :: pages)) : iterAdvance bt iter = some (some ⟨0, l.ptr⟩) := by
  rw [iterAdvance, load_of_lt h.lt, map_some, h.nkeys, length_nil, Nat.add_zero, if_pos rfl,
    h.next_leaf.1, map_some]

theorem advance_end (h : Scan bt iter [] []) : iterAdvance bt iter = some none := by
  have hchain : (bt.heap iter.node).next = none := h.chain
  rw [iterAdvance, load_of_lt h.lt, map_some, h.nkeys, length_nil, Nat.add_zero, if_pos rfl, hchain]
  rfl

theorem keyVals_eq (h : Scan bt iter (e :: es) pages) :
    (bt.load iter.node).bind (fun nd => (nd.read iter.next).bind Slot.keyVals) = some e := by
  have hfits := h.fits
  rw [length_cons] at hfits
  have hpair := h.pair 0 e rfl
  rw [Nat.add_zero] at hpair
  rw [load_of_lt h.lt, bind_some, read_of_lt (by omega), bind_some, hpair, Slot.keyVals_ofKeyVals]

theorem clear (h : Scan bt iter (e :: es) pages) (bclear : Bool) :
    ∃ bt', (if bclear then bt.modify iter.node fun nd => nd.write iter.next .zero else some bt) = some bt' ∧
      Scan bt' ⟨iter.next + 1, iter.node⟩ es pages := by
  have hnkeys := h.nkeys
  have hfits := h.fits
  rw [length_cons] at hnkeys hfits
  cases bclear with
  | false =>
    refine ⟨bt, rfl, h.lt, by rw [hnkeys]; simp only; omega, by simp only; omega, fun i x hx => ?_, h.chain, h.leaf, h.nodup⟩
    have hpair := h.pair (i + 1) x (by simpa using hx)
    rwa [← Nat.add_assoc, Nat.add_right_comm] at hpair
  | true =>
    have hlt : iter.next < slots := by omega
    have hmodify : (bt.modify iter.node fun nd => nd.write iter.next .zero) = some _ :=
      modify_eq h.lt (write_of_lt hlt)
    refine ⟨_, hmodify, h.lt, ?_, by simp only; omega, fun i x hx => ?_, ?_, fun m hm => ?_, h.nodup⟩
    · rw [heap_store_self]
      simp only
      omega
    · have hpair := h.pair (i + 1) x (by simpa using hx)
      rw [heap_store_self]
      dsimp only
      rw [Function.update_of_ne (by omega), Nat.add_right_comm, Nat.add_assoc]
      exact hpair
    · refine h.chain.congr ?_ fun p hp => ?_
      · simp only [cells, heap_store_self]
      · have hne : p ≠ iter.node := fun heq => (nodup_cons.mp h.nodup).1 (heq ▸ hp)
        exact congrArg Node.next (heap_store_of_ne hne)
    · have hne : m.ptr ≠ iter.node := fun heq =>
        (nodup_cons.mp h.nodup).1 (heq ▸ mem_map_of_mem hm)
      rw [heap_store_of_ne hne]
      exact h.leaf m hm

theorem next_of_advance (h : Scan bt iter' (e :: es) pages) (bclear : Bool)
    (hadvance : iterAdvance bt iter = some (some iter')) :
    ∃ bt', iterNext bclear (bt, iter) = some (some (e, bt', ⟨iter'.next + 1, iter'.node⟩)) ∧
      Scan bt' ⟨iter'.next + 1, iter'.node⟩ es pages := by
  obtain ⟨bt', hclear, hscan⟩ := h.clear bclear
  refine ⟨bt', ?_, hscan⟩
  have hread := h.keyVals_eq
  rw [load_of_lt h.lt, bind_some] at hread
  obtain ⟨src, hsrc, hkvs⟩ := bind_eq_some_iff.mp hread
  simp only [iterNext, hadvance, bind_some, load_of_lt h.lt, hsrc, hkvs, hclear, map_some]

theorem yields (bclear : Bool) (h : Scan bt iter es pages) :
    Iterator.Yields (iterNext bclear) (bt, iter) (es ++ pages.flatMap Page.pairs) := by
  induction pages generalizing bt iter es with
  | nil =>
    induction es generalizing bt iter with
    | nil => exact .nil (by simp only [iterNext, h.advance_end, bind_some])
    | cons e es ih =>
      obtain ⟨bt', hnext, hscan⟩ := h.next_of_advance bclear h.advance
      exact .cons hnext (ih hscan)
  | cons l pages ihpages =>
    induction es generalizing bt iter with
    | nil =>
      have hscan := h.next_leaf.2
      obtain ⟨e, es, hes⟩ := exists_cons_of_ne_nil (h.leaf l mem_cons_self).2.2
      rw [hes] at hscan
      obtain ⟨bt', hnext, hscan'⟩ := hscan.next_of_advance bclear h.advance_next
      rw [nil_append, flatMap_cons, hes]
      exact .cons hnext (ihpages hscan')
    | cons e es ih =>
      obtain ⟨bt', hnext, hscan⟩ := h.next_of_advance bclear h.advance
      exact .cons hnext (ih hscan)

theorem copy_leaf (h : Scan bt ⟨0, p⟩ es pages) :
    ((range (bt.heap p).nkeys).mapM fun i => ((bt.heap p).read i).bind Slot.keyVals) = some es := by
  have hnkeys : (bt.heap p).nkeys = es.length := by simpa using h.nkeys
  have hfits : es.length ≤ slots := by simpa using h.fits
  have hslot : ∀ i (hi : i < es.length), ((bt.heap p).read i).bind Slot.keyVals = some es[i] := by
    intro i hi
    have hpair := h.pair i es[i] (getElem?_eq_getElem hi)
    rw [Nat.zero_add] at hpair
    rw [read_of_lt (hi.trans_le hfits), bind_some, hpair, Slot.keyVals_ofKeyVals]
  rw [hnkeys]
  exact Fallible.mapM_range hslot

theorem copyLeaves_eq (h : Scan bt ⟨0, p⟩ es pages) (hfuel : pages.length < fuel) :
    copyLeaves bt fuel (some p) = some (es ++ pages.flatMap Page.pairs) := by
  induction pages generalizing p es fuel with
  | nil =>
    obtain ⟨fuel, rfl⟩ := Nat.exists_eq_add_one_of_ne_zero (Nat.ne_of_gt hfuel)
    have hnext : (bt.heap p).next = none := h.chain
    rw [copyLeaves, load_of_lt h.lt, bind_some, h.copy_leaf, bind_some, hnext]
    cases fuel <;> simp [copyLeaves]
  | cons l pages ih =>
    obtain ⟨fuel, rfl⟩ := Nat.exists_eq_add_one_of_ne_zero (Nat.ne_of_gt (Nat.zero_lt_of_lt hfuel))
    rw [length_cons, Nat.add_lt_add_iff_right] at hfuel
    obtain ⟨hnext, hscan⟩ := h.next_leaf
    rw [copyLeaves, load_of_lt h.lt, bind_some, h.copy_leaf, bind_some, hnext, ih hscan hfuel,
      map_some, flatMap_cons]

end Scan

section Whole

variable [LinearOrder K]

theorem pages_ne_nil (h : Valid bt pages levels)
    (hsized : ∀ l ∈ pages, PageSized levels l) (hes : pages.flatMap Page.pairs ≠ []) :
    ∀ l ∈ pages, l.pairs ≠ [] := by
  intro l hl hnil
  rcases (hsized l hl).2 with rfl | hhalf
  · obtain ⟨p, hitems, -⟩ := h.tower
    obtain ⟨m, rfl⟩ := length_eq_one_iff.mp (by simpa using congrArg length hitems)
    rw [mem_singleton.mp hl] at hnil
    simp [hnil] at hes
  · simp [hnil] at hhalf

theorem Valid.scan (h : Valid bt pages levels) (hne : ∀ l ∈ pages, l.pairs ≠ []) :
    ∃ root l rest, bt.root = some root ∧ leftmost bt (bt.nlevel - 1) root = some l.ptr ∧ pages = l :: rest ∧
      Scan bt ⟨0, l.ptr⟩ l.pairs rest := by
  obtain ⟨root, x, rest, hroot, hmap, hleft⟩ := h.tower.leftmost_eq fun p hp => h.lt p (mem_append_right _ hp)
  obtain ⟨l, rest, rfl, rfl, rfl⟩ := map_eq_cons_iff.mp hmap
  refine ⟨root, l, rest, hroot, by rw [h.nlevel]; exact hleft, rfl, ?_⟩
  have hleaf := h.leaf l mem_cons_self
  have hlt : ∀ m ∈ l :: rest, m.ptr < bt.size := fun m hm =>
    h.lt _ (mem_append_left _ (mem_map_of_mem hm))
  refine ⟨hlt l mem_cons_self, by rw [hleaf.nkeys, Nat.zero_add], by rw [Nat.zero_add]; exact hleaf.fits,
    fun i e he => by rw [Nat.zero_add]; exact hleaf.pair i e he, ?_, fun m hm => ?_, ?_⟩
  · exact h.chain.2.congr rfl fun p _ => rfl
  · exact ⟨hlt m (mem_cons_of_mem l hm), h.leaf m (mem_cons_of_mem l hm), hne m (mem_cons_of_mem l hm)⟩
  · exact (nodup_append.mp h.nodup).1

theorem iterBegin_spec (h : Represents bt es) : (iterBegin bt = some none ∧ es = []) ∨
    ∃ iter, iterBegin bt = some (some iter) ∧ ∀ bclear, Iterator.Yields (iterNext bclear) (bt, iter) es := by
  rcases h with ⟨hlevel, -, rfl⟩ | ⟨pages, levels, hvalid, hsized, rfl, hne⟩
  · exact .inl ⟨by rw [iterBegin, if_pos hlevel], rfl⟩
  · right
    obtain ⟨root, l, rest, hroot, hleft, rfl, hscan⟩ := hvalid.scan (pages_ne_nil hvalid hsized hne)
    have hlevel : bt.nlevel ≠ 0 := by rw [hvalid.nlevel]; exact Nat.succ_ne_zero _
    refine ⟨⟨0, l.ptr⟩, ?_, fun bclear => hscan.yields bclear⟩
    rw [iterBegin, if_neg hlevel, hroot, bind_some, hleft, map_some]

theorem copyKvs_spec (h : Represents bt es) : copyKvs bt = some es := by
  rcases h with ⟨hlevel, -, rfl⟩ | ⟨pages, levels, hvalid, hsized, rfl, hne⟩
  · rw [copyKvs, if_pos hlevel]
  · have hnkeys := hvalid.nkeys
    have hlevel : bt.nlevel ≠ 0 := by rw [hvalid.nlevel]; exact Nat.succ_ne_zero _
    have hsize : pages.length ≤ bt.size := by
      have hnodup : (pages.map Page.ptr).Nodup := (nodup_append.mp hvalid.nodup).1
      have hsub : pages.map Page.ptr ⊆ range bt.size := fun p hp =>
        mem_range.mpr (hvalid.lt p (mem_append_left _ hp))
      simpa using (subperm_of_subset hnodup hsub).length_le
    obtain ⟨root, l, rest, hroot, hleft, rfl, hscan⟩ := hvalid.scan (pages_ne_nil hvalid hsized hne)
    have hcopy := hscan.copyLeaves_eq hsize
    rw [copyKvs, if_neg hlevel, hroot, bind_some, hleft, bind_some, hcopy, bind_some,
      ← flatMap_cons, if_pos hnkeys.symm]

theorem getLen_spec (h : Represents bt es) : getLen bt = es.length := by
  rcases h with ⟨-, hkeys, rfl⟩ | ⟨pages, levels, hvalid, -, rfl, -⟩
  · exact hkeys
  · exact hvalid.nkeys

end Whole

end Mosbench.Metis.BTree
