import Mosbench.Lib.Links
import Mosbench.Metis.BTreeIndex

/-!
Insertion into the B+tree. The leaves from left to right, each with its lower bound, are
the list of pages that the index stands on; the pairs of the pages, one after the other,
are what the tree holds. An insertion changes one page, and splits it when it is full.
-/
namespace Mosbench.Metis.BTree

open Keyed List Option

variable {K V : Type} [LinearOrder K]

structure Page (K V : Type) where
  low : WithBot K
  ptr : Ptr
  pairs : List (KeyVals K V)

def Page.item (l : Page K V) : Item K := (l.low, l.ptr)

def cells (bt : Tree K V) (first : Option Ptr) : Links.Memory Ptr
  | .head => first
  | .next p => (bt.heap p).next

structure Valid (bt : Tree K V) (pages : List (Page K V)) (levels : List (List (Branch K))) : Prop where
  tower : Tower bt levels (pages.map Page.item)
  leaf : ∀ l ∈ pages, Leaf (bt.heap l.ptr) l.pairs
  nodup : (pages.map Page.ptr ++ above levels).Nodup
  lt : ∀ p ∈ pages.map Page.ptr ++ above levels, p < bt.size
  sorted : ∀ l ∈ pages, Keyed.Sorted KeyVals.key l.pairs
  low : ∀ l ∈ pages, ∀ e ∈ l.pairs, l.low ≤ e.key
  apart : pages.Pairwise fun l m => l.low < m.low ∧ ∀ e ∈ l.pairs, (e.key : WithBot K) < m.low
  chain : Links.Chain (cells bt (pages.head?.map Page.ptr)) .head (pages.map Page.ptr)
  nlevel : bt.nlevel = levels.length + 1
  nkeys : bt.nkeys = (pages.flatMap Page.pairs).length

def PageSized (levels : List (List (Branch K))) (l : Page K V) : Prop :=
  l.pairs.length < slots ∧ (levels = [] ∨ order < l.pairs.length)

def Represents (bt : Tree K V) (es : List (KeyVals K V)) : Prop :=
  (bt.nlevel = 0 ∧ bt.nkeys = 0 ∧ es = []) ∨
  ∃ pages levels, Valid bt pages levels ∧ (∀ l ∈ pages, PageSized levels l) ∧
    es = pages.flatMap Page.pairs ∧ es ≠ []

theorem represents_init : Represents (Tree.init : Tree K V) [] := .inl ⟨rfl, rfl, rfl⟩

omit [LinearOrder K] in
theorem descend_succ (cmp : K → K → ℤ) (bt : Tree K V) (key : K) (n : ℕ) (p : Ptr) :
    descend cmp bt key (n + 1) p = (descend cmp bt key n p).bind (descend cmp bt key 1) := by
  induction n generalizing p with
  | zero => rfl
  | succ n ih =>
    rw [descend, descend]
    cases bt.load p with
    | none => rfl
    | some nd =>
      simp only [bind_some]
      cases bsearchLar cmp key nd.keyAt nd.nkeys with
      | none => rfl
      | some ipt =>
        simp only [bind_some]
        cases nd.childAt ipt.toNat with
        | none => rfl
        | some child => simp only [bind_some, ih]

variable {c : KeyComparator K} {bt : Tree K V}

theorem descend_spec (key : K) (h : Tower bt levels items) (hinc : Increasing items)
    (hlt : ∀ p ∈ above levels, p < bt.size) :
    ∃ root A x B, bt.root = some root ∧ items = A ++ x :: B ∧ x.1 ≤ (key : WithBot K) ∧
      (∀ y ∈ B, (key : WithBot K) < y.1) ∧ descend c.cmp bt key levels.length root = some x.2 := by
  induction levels generalizing items with
  | nil =>
    obtain ⟨p, rfl, hroot, -⟩ := h
    exact ⟨p, [], (⊥, p), [], hroot, rfl, bot_le, by simp, rfl⟩
  | cons ns levels ih =>
    obtain ⟨rfl, hnodes, htower⟩ := h
    rw [above_cons] at hlt
    obtain ⟨root, A, x, B, hroot, hmap, hx, hB, hdescend⟩ := ih htower
      (Increasing.up ns hinc fun n hn => (hnodes n hn).1.exists_first) fun p hp => hlt p (mem_append_right _ hp)
    obtain ⟨X, Y', rfl, rfl, hY'⟩ := map_eq_append_iff.mp hmap
    obtain ⟨n, Y, rfl, rfl, rfl⟩ := map_eq_cons_iff.mp hY'
    have hn : n ∈ X ++ n :: Y := mem_append_right _ mem_cons_self
    have hstored := (hnodes n hn).1
    obtain ⟨hkids, hpair⟩ := pairwise_flatMap.mp hinc
    obtain ⟨C, y, D, hCD, hy, hD, hsearch⟩ := hstored.inner.route (c := c) key (hkids n hn)
      fun z hz => (hstored.first z hz).trans_le hx
    refine ⟨root, X.flatMap Branch.kids ++ C, y, D ++ Y.flatMap Branch.kids, hroot, ?_, hy, ?_, ?_⟩
    · rw [flatMap_append, flatMap_cons, hCD]
      simp
    · intro z hz
      rcases mem_append.mp hz with hz | hz
      · exact hD z hz
      · obtain ⟨m, hm, hz⟩ := mem_flatMap.mp hz
        have hm' : m ∈ X ++ n :: Y := mem_append_right _ (mem_cons_of_mem n hm)
        obtain ⟨p, rest, hfirst⟩ := (hnodes m hm').1.exists_first
        refine (hB _ (mem_map_of_mem hm)).trans_le ?_
        have hinc' := hkids m hm'
        rw [hfirst] at hz hinc'
        rcases mem_cons.mp hz with rfl | hz
        · exact le_rfl
        · exact ((pairwise_cons.mp hinc').1 z hz).le
    · have hP : n.ptr < bt.size := hlt _ (mem_append_left _ (mem_map_of_mem hn))
      have hchild := hstored.inner
      rw [hCD] at hchild
      rw [length_cons, descend_succ, hdescend, bind_some, descend]
      change (bt.load n.ptr).bind _ = _
      rw [load_of_lt hP, bind_some, hsearch, bind_some, Int.toNat_natCast, hchild.childAt]
      rfl

omit [LinearOrder K] in
theorem map_page_item_snd (pages : List (Page K V)) :
    (pages.map Page.item).map Prod.snd = pages.map Page.ptr := by
  rw [List.map_map]
  rfl

namespace Valid

variable {l : Page K V}

theorem page_lt (h : Valid bt (X ++ l :: Y) levels) : l.ptr < bt.size :=
  h.lt _ (mem_append_left _ (mem_map_of_mem (by simp)))

theorem above_lt (h : Valid bt (X ++ l :: Y) levels) (hp : p ∈ above levels) : p < bt.size :=
  h.lt _ (mem_append_right _ hp)

theorem page_notin (h : Valid bt (X ++ l :: Y) levels) (hm : m ∈ X ++ l :: Y) :
    m.ptr ∉ above levels := fun hp =>
  (nodup_append.mp h.nodup).2.2 m.ptr (mem_map_of_mem hm) m.ptr hp rfl

theorem page_ne (h : Valid bt (X ++ l :: Y) levels) (hm : m ∈ X ++ Y) : m.ptr ≠ l.ptr := by
  have hnodup := (nodup_append.mp h.nodup).1
  have hperm : (X ++ l :: Y).Perm (l :: (X ++ Y)) := perm_middle
  rw [(hperm.map Page.ptr).nodup_iff, map_cons, nodup_cons] at hnodup
  exact fun heq => hnodup.1 (heq ▸ mem_map_of_mem hm)

theorem update {nd : Node K V} (nkeys : ℕ) (h : Valid bt (X ++ l :: Y) levels)
    (hleaf : Leaf nd es) (hparent : nd.parent = (bt.heap l.ptr).parent)
    (hnext : nd.next = (bt.heap l.ptr).next) (hsorted : Sorted KeyVals.key es)
    (hlow : ∀ e ∈ es, l.low ≤ e.key) (hhigh : ∀ e ∈ es, ∀ m ∈ Y, (e.key : WithBot K) < m.low)
    (hnkeys : nkeys + l.pairs.length = bt.nkeys + es.length) :
    Valid { bt.store l.ptr nd with nkeys := nkeys } (X ++ { l with pairs := es } :: Y) levels := by
  have hheap : ∀ p, p ≠ l.ptr → (bt.store l.ptr nd).heap p = bt.heap p := fun p hp => heap_store_of_ne hp
  have hparents : ∀ p, ((bt.store l.ptr nd).heap p).parent = (bt.heap p).parent := by
    intro p
    by_cases hp : p = l.ptr
    · rw [hp, heap_store_self, hparent]
    · rw [hheap p hp]
  have hnexts : ∀ p, ((bt.store l.ptr nd).heap p).next = (bt.heap p).next := by
    intro p
    by_cases hp : p = l.ptr
    · rw [hp, heap_store_self, hnext]
    · rw [hheap p hp]
  have hpages : ∀ m ∈ X ++ { l with pairs := es } :: Y, m = { l with pairs := es } ∨ m ∈ X ++ Y := by
    intro m hm
    simp only [mem_append, mem_cons] at hm ⊢
    tauto
  have hl : l ∈ X ++ l :: Y := mem_append_right _ mem_cons_self
  have hptrs : (X ++ { l with pairs := es } :: Y).map Page.ptr = (X ++ l :: Y).map Page.ptr := by simp
  have hitems : (X ++ { l with pairs := es } :: Y).map Page.item = (X ++ l :: Y).map Page.item := by
    simp [Page.item]
  have hfirst : (X ++ { l with pairs := es } :: Y).head?.map Page.ptr = (X ++ l :: Y).head?.map Page.ptr := by
    cases X <;> rfl
  refine ⟨?_, fun m hm => ?_, ?_, ?_, fun m hm => ?_, fun m hm => ?_, ?_, ?_, h.nlevel, ?_⟩
  · rw [hitems]
    refine h.tower.congr rfl (fun p hp => .of_eq (hheap p fun heq => ?_)) fun p _ => hparents p
    exact h.page_notin hl (heq ▸ hp)
  · rcases hpages m hm with rfl | hm
    · change Leaf ((bt.store l.ptr nd).heap l.ptr) es
      rw [heap_store_self]
      exact hleaf
    · change Leaf ((bt.store l.ptr nd).heap m.ptr) m.pairs
      rw [hheap _ (h.page_ne hm)]
      exact h.leaf m (mem_of_sibling hm)
  · rw [hptrs]
    exact h.nodup
  · rw [hptrs]
    exact h.lt
  · rcases hpages m hm with rfl | hm
    · exact hsorted
    · exact h.sorted m (mem_of_sibling hm)
  · rcases hpages m hm with rfl | hm
    · exact hlow
    · exact h.low m (mem_of_sibling hm)
  · obtain ⟨hX, hY, hXY⟩ := pairwise_append.mp h.apart
    obtain ⟨hlY, hY⟩ := pairwise_cons.mp hY
    refine pairwise_append.mpr ⟨hX, pairwise_cons.mpr ⟨fun m hm => ?_, hY⟩, fun m hm m' hm' => ?_⟩
    · exact ⟨(hlY m hm).1, fun e he => hhigh e he m hm⟩
    · rcases mem_cons.mp hm' with rfl | hm'
      · exact hXY m hm l mem_cons_self
      · exact hXY m hm m' (mem_cons_of_mem l hm')
  · rw [hptrs, hfirst]
    exact h.chain.congr rfl fun p _ => hnexts p
  · have hsum := h.nkeys
    simp only [flatMap_append, flatMap_cons, length_append] at hsum ⊢
    change nkeys = _
    omega

end Valid

section Split

omit [LinearOrder K]

theorem Leaf.congr (h : Leaf nd es)
    (hnkeys : nd'.nkeys = nd.nkeys) (harr : nd'.arr = nd.arr) : Leaf nd' es :=
  ⟨hnkeys.trans h.nkeys, h.fits, by rw [harr]; exact h.pair⟩

theorem exists_halves (hlt : leaf < bt.size)
    (hleaf : Leaf (bt.heap leaf) (a ++ e :: b)) (ha : a.length = order + 1) (hb : b.length = order) :
    ∃ rnd bt', Node.zero.copySlots (bt.heap leaf) 0 (order + 1) (1 + order) = some rnd ∧
      ((bt.create { rnd with nkeys := order + 1 }).modify leaf fun nd => some { nd with nkeys := order + 1 }) =
        some bt' ∧
      (rnd.read 0).bind Slot.key = some e.key ∧
      bt' = { bt with heap := bt'.heap, size := bt.size + 1 } ∧
      Leaf (bt'.heap leaf) a ∧ (bt'.heap leaf).parent = (bt.heap leaf).parent ∧
      (bt'.heap leaf).next = (bt.heap leaf).next ∧ Leaf (bt'.heap bt.size) (e :: b) ∧
      ∀ p, p ≠ leaf → p ≠ bt.size → bt'.heap p = bt.heap p := by
  have hne : leaf ≠ bt.size := hlt.ne
  obtain ⟨rnd, hcopy, harr⟩ : ∃ rnd : Node K V,
      Node.zero.copySlots (bt.heap leaf) 0 (order + 1) (1 + order) = some rnd ∧
      ∀ i, i < order + 1 → rnd.arr i = (bt.heap leaf).arr (order + 1 + i) := by
    refine ⟨_, copySlots_eq (by decide), fun i hi => ?_⟩
    exact (if_pos ⟨Nat.zero_le i, by omega⟩).trans (by rw [Nat.sub_zero])
  have hlt' : leaf < (bt.create { rnd with nkeys := order + 1 }).size := by
    rw [size_create]
    exact Nat.lt_succ_of_lt hlt
  refine ⟨rnd, _, hcopy, modify_some _ hlt', ?_, rfl, ?_, ?_, ?_, ?_, fun p hp hps => ?_⟩
  · rw [read_of_lt (by decide), bind_some, harr 0 (Nat.succ_pos _),
      hleaf.pair (order + 1 + 0) e (by rw [← ha]; simp)]
    rfl
  · refine hleaf.left ?_ fun i _ => ?_
    · rw [heap_store_self, ha]
    · rw [heap_store_self, heap_create_of_ne hne]
  · rw [heap_store_self, heap_create_of_ne hne]
  · rw [heap_store_self, heap_create_of_ne hne]
  · rw [heap_store_of_ne hne.symm, heap_create_self]
    refine hleaf.right (by rw [length_cons, hb]) fun i hi => ?_
    rw [length_cons, hb] at hi
    rw [ha]
    exact harr i hi
  · rw [heap_store_of_ne hp, heap_create_of_ne hps]

theorem exists_linked (bt : Tree K V) (hleaf : leaf < bt.size) (hright : right < bt.size) (hne : right ≠ leaf) :
    ∃ bt', ((bt.load leaf).bind fun nd =>
        (bt.modify leaf fun nd => some { nd with next := some right }).bind fun bt =>
        bt.modify right fun rnd => some { rnd with next := nd.next }) = some bt' ∧
      SameRecord bt bt' ∧ bt'.heap leaf = { bt.heap leaf with next := some right } ∧
      bt'.heap right = { bt.heap right with next := (bt.heap leaf).next } ∧
      ∀ p, p ≠ leaf → p ≠ right → bt'.heap p = bt.heap p := by
  rw [load_of_lt hleaf, bind_some, modify_some _ hleaf, bind_some]
  refine ⟨_, modify_some _ hright, rfl, ?_, ?_, fun p hp hpr => ?_⟩
  · rw [heap_store_of_ne hne.symm, heap_store_self]
  · rw [heap_store_self, heap_store_of_ne hne]
  · rw [heap_store_of_ne hpr, heap_store_of_ne hp]

end Split

theorem apart_of_divide {Y : List (Page K V)}
    (right : Ptr) (hpairs : l.pairs = a ++ e :: b) (ha : a ≠ [])
    (hsorted : Sorted KeyVals.key l.pairs) (hlow : ∀ x ∈ l.pairs, l.low ≤ x.key)
    (h : (X ++ l :: Y).Pairwise fun l m => l.low < m.low ∧ ∀ e ∈ l.pairs, (e.key : WithBot K) < m.low) :
    (X ++ { l with pairs := a } :: ⟨e.key, right, e :: b⟩ :: Y).Pairwise fun l m =>
      l.low < m.low ∧ ∀ e ∈ l.pairs, (e.key : WithBot K) < m.low := by
  rw [hpairs] at hsorted hlow
  obtain ⟨-, -, hae⟩ := pairwise_append.mp hsorted
  have hlt : ∀ x ∈ a, (x.key : WithBot K) < e.key := fun x hx =>
    WithBot.coe_lt_coe.mpr (hae x hx e mem_cons_self)
  have hle : l.low < e.key := by
    obtain ⟨x, hx⟩ := exists_mem_of_ne_nil a ha
    exact (hlow x (mem_append_left _ hx)).trans_lt (hlt x hx)
  obtain ⟨hX, hlY, hXl⟩ := pairwise_append.mp h
  obtain ⟨hlY, hY⟩ := pairwise_cons.mp hlY
  have hhigh : ∀ m ∈ Y, ∀ x ∈ a ++ e :: b, (x.key : WithBot K) < m.low := fun m hm x hx =>
    (hlY m hm).2 x (hpairs ▸ hx)
  refine pairwise_append.mpr ⟨hX, pairwise_cons.mpr ⟨fun m hm => ?_,
    pairwise_cons.mpr ⟨fun m hm => ⟨?_, fun x hx => ?_⟩, hY⟩⟩, fun m hm m' hm' => ?_⟩
  · rcases mem_cons.mp hm with rfl | hm
    · exact ⟨hle, hlt⟩
    · exact ⟨(hlY m hm).1, fun x hx => hhigh m hm x (mem_append_left _ hx)⟩
  · exact hhigh m hm e (by simp)
  · exact hhigh m hm x (mem_append_right _ hx)
  · obtain ⟨hlow', hkeys⟩ := hXl m hm l mem_cons_self
    rcases mem_cons.mp hm' with rfl | hm'
    · exact ⟨hlow', hkeys⟩
    rcases mem_cons.mp hm' with rfl | hm'
    · exact ⟨hlow'.trans hle, fun x hx => (hkeys x hx).trans hle⟩
    · exact hXl m hm m' (mem_cons_of_mem l hm')

theorem halves_sorted {low : WithBot K} {b : List (KeyVals K V)}
    (hsorted : Sorted KeyVals.key (a ++ e :: b)) (hlow : ∀ x ∈ a ++ e :: b, low ≤ x.key) :
    (Sorted KeyVals.key a ∧ ∀ x ∈ a, low ≤ x.key) ∧
      Sorted KeyVals.key (e :: b) ∧ ∀ x ∈ e :: b, (e.key : WithBot K) ≤ x.key := by
  obtain ⟨hsa, hsb, -⟩ := pairwise_append.mp hsorted
  refine ⟨⟨hsa, fun x hx => hlow x (mem_append_left _ hx)⟩, hsb, ?_⟩
  intro x hx
  rcases mem_cons.mp hx with rfl | hx
  · exact le_rfl
  · exact WithBot.coe_le_coe.mpr ((pairwise_cons.mp hsb).1 x hx).le

section Pages

omit [LinearOrder K]

theorem mem_divided (hm : m ∈ X ++ left :: right :: Y) : m = left ∨ m = right ∨ m ∈ X ++ Y := by
  simp only [mem_append, mem_cons] at hm ⊢
  tauto

theorem ptrs_divided (hleft : left.ptr = l.ptr) :
    ((X ++ left :: right :: Y).map Page.ptr).Perm (right.ptr :: (X ++ l :: Y).map Page.ptr) := by
  simp only [map_append, map_cons, hleft]
  exact ((Perm.swap _ _ _).append_left _).trans perm_middle

theorem chain_divided {bt' : Tree K V}
    (h : Links.Chain (cells bt ((X ++ l :: Y).head?.map Page.ptr)) .head ((X ++ l :: Y).map Page.ptr))
    (hleft : left.ptr = l.ptr) (hl : (bt'.heap l.ptr).next = some right.ptr)
    (hr : (bt'.heap right.ptr).next = (bt.heap l.ptr).next)
    (hkeep : ∀ m ∈ X ++ Y, (bt'.heap m.ptr).next = (bt.heap m.ptr).next) :
    Links.Chain (cells bt' ((X ++ left :: right :: Y).head?.map Page.ptr)) .head
      ((X ++ left :: right :: Y).map Page.ptr) := by
  have hfirst : (X ++ left :: right :: Y).head?.map Page.ptr = (X ++ l :: Y).head?.map Page.ptr := by
    cases X with
    | nil => exact congrArg some hleft
    | cons m X => rfl
  rw [hfirst]
  simp only [map_append, map_cons, hleft] at h ⊢
  refine h.insert_behind rfl hl hr ?_
  intro p hp
  rw [← map_append] at hp
  obtain ⟨m, hm, rfl⟩ := mem_map.mp hp
  exact hkeep m hm

end Pages

theorem Valid.splitLeaf

    (h : Valid bt (X ++ l :: Y) levels) (hpairs : l.pairs = a ++ e :: b) (ha : a.length = order + 1)
    (hb : b.length = order) :
    ∃ bt' levels', splitLeaf c.cmp bt l.ptr = some bt' ∧ levels' ≠ [] ∧
      Valid bt' (X ++ { l with pairs := a } :: ⟨e.key, bt.size, e :: b⟩ :: Y) levels' := by
  have hl : l ∈ X ++ l :: Y := mem_append_right _ mem_cons_self
  have hane : a ≠ [] := fun hnil => by simp [hnil] at ha
  have hapart := apart_of_divide bt.size hpairs hane (h.sorted l hl) (h.low l hl) h.apart
  have hleaf := h.leaf l hl
  rw [hpairs] at hleaf
  obtain ⟨rnd, bt₂, hcopy, hmodify, hkey, hrecord, hleft, hparent, hnext, hright, hother⟩ :=
    exists_halves h.page_lt hleaf ha hb
  have hsize₂ : bt₂.size = bt.size + 1 := by rw [hrecord]
  have hnlevel₂ : bt₂.nlevel = levels.length + 1 := by rw [hrecord]; exact h.nlevel
  have hnew : ∀ {p : Ptr}, p < bt.size → p ≠ bt.size := fun hp => hp.ne
  have hlt₂ : ∀ {p : Ptr}, p < bt.size → p < bt₂.size := fun hp => hsize₂ ▸ Nat.lt_succ_of_lt hp
  have hptrs : (X.map Page.item ++ l.item :: Y.map Page.item).map Prod.snd = (X ++ l :: Y).map Page.ptr := by
    rw [← map_page_item_snd, map_append (f := Page.item), map_cons]
  -- the index learns about the new leaf
  have htower₂ : Tower bt₂ levels (X.map Page.item ++ l.item :: Y.map Page.item) := by
    rw [← map_cons, ← map_append]
    refine h.tower.congr (by rw [hrecord]) (fun p hp => .of_eq (hother p ?_ (hnew (h.above_lt hp)))) fun p hp => ?_
    · exact fun heq => h.page_notin hl (heq ▸ hp)
    · rw [map_page_item_snd] at hp
      by_cases heq : p = l.ptr
      · rw [heq, hparent]
      · rw [hother p heq (hnew (h.lt p (mem_append.mpr hp)))]
  have hinc : Increasing (X.map Page.item ++ l.item :: ((e.key : WithBot K), bt.size) :: Y.map Page.item) := by
    have hitems : Increasing ((X ++ { l with pairs := a } :: ⟨e.key, bt.size, e :: b⟩ :: Y).map Page.item) :=
      pairwise_map.mpr (hapart.imp fun hlm => hlm.1)
    rw [map_append, map_cons, map_cons] at hitems
    exact hitems
  have hfresh : bt.size ∉ (X ++ l :: Y).map Page.ptr ++ above levels := fun hp => (h.lt _ hp).ne rfl
  obtain ⟨bt₃, levels', hidx, htower₃, hne, hkept, hgrown⟩ := insertIndex_spec (c := c) levels bt₂
    (X.map Page.item) (Y.map Page.item) l.item e.key bt.size bt₂.nlevel htower₂ hinc
    (by rw [hptrs]; exact nodup_cons.mpr ⟨hfresh, h.nodup⟩)
    (fun p hp => by
      rw [hptrs] at hp
      rcases mem_cons.mp hp with rfl | hp
      · exact hsize₂ ▸ Nat.lt_succ_self _
      · exact hlt₂ (h.lt p hp))
    (by omega)
  have hrightlt : bt.size < bt₂.size := hsize₂ ▸ Nat.lt_succ_self _
  have hnotup : bt.size ∉ above levels := fun hp => hfresh (mem_append_right _ hp)
  obtain ⟨bt₅, hlink, hrecord₅, hleaf₅, hright₅, hother₅⟩ := exists_linked bt₃
    ((hlt₂ h.page_lt).trans_le hkept.size) (hrightlt.trans_le hkept.size) (hnew h.page_lt).symm
  have hrun : BTree.splitLeaf c.cmp bt l.ptr = some bt₅ := by
    rw [BTree.splitLeaf, load_of_lt h.page_lt, bind_some, hcopy, bind_some, hmodify,
      bind_some, hkey, bind_some]
    rw [show insertIndex c.cmp bt₂.nlevel bt₂ e.key l.ptr bt.size = some bt₃ from hidx, bind_some]
    exact hlink
  -- what the leaves are in the end
  have hold : ∀ p, p ∈ above levels' → p ≠ l.ptr ∧ p ≠ bt.size ∧ ∀ m ∈ X ++ Y, p ≠ m.ptr := by
    intro p hp
    rcases hgrown.old p hp with hp | hp
    · refine ⟨fun heq => h.page_notin hl (heq ▸ hp), hnew (h.above_lt hp), fun m hm heq => ?_⟩
      exact h.page_notin (mem_of_sibling hm) (heq ▸ hp)
    · have hge : bt.size < p := hrightlt.trans_le hp
      refine ⟨(h.page_lt.trans hge).ne', hge.ne', fun m hm => ?_⟩
      exact (hge.trans' (h.lt _ (mem_append_left _ (mem_map_of_mem (mem_of_sibling hm))))).ne'
  have hsibling : ∀ m ∈ X ++ Y, SameBody (bt.heap m.ptr) (bt₅.heap m.ptr) := by
    intro m hm
    have hm' := mem_of_sibling (b := l) hm
    have hlt : m.ptr < bt.size := h.lt _ (mem_append_left _ (mem_map_of_mem hm'))
    refine (SameBody.of_eq (hother m.ptr (h.page_ne hm) (hnew hlt))).trans
      ((hkept.body m.ptr (hlt₂ hlt) (h.page_notin hm')).trans (.of_eq ?_))
    exact hother₅ m.ptr (h.page_ne hm) (hnew hlt)
  have hbody := hkept.body l.ptr (hlt₂ h.page_lt) (h.page_notin hl)
  have hperm : ((X ++ { l with pairs := a } :: ⟨e.key, bt.size, e :: b⟩ :: Y).map Page.ptr).Perm
      (bt.size :: (X ++ l :: Y).map Page.ptr) := ptrs_divided rfl
  have hsorted := h.sorted l hl
  have hlow := h.low l hl
  rw [hpairs] at hsorted hlow
  obtain ⟨⟨hsa, hla⟩, hsb, hlb⟩ := halves_sorted hsorted hlow
  refine ⟨bt₅, levels', hrun, hne, ⟨?_, fun m hm => ?_, ?_, fun p hp => ?_, fun m hm => ?_, fun m hm => ?_,
    hapart, ?_, ?_, ?_⟩⟩
  · rw [map_append, map_cons, map_cons]
    refine htower₃.congr (by rw [hrecord₅]) (fun p hp => ?_) fun p _ => ?_
    · exact .of_eq (hother₅ p (hold p hp).1 (hold p hp).2.1)
    · by_cases hpl : p = l.ptr
      · rw [hpl, hleaf₅]
      by_cases hpr : p = bt.size
      · rw [hpr, hright₅]
      · rw [hother₅ p hpl hpr]
  · rcases mem_divided hm with rfl | rfl | hm
    · exact (hbody.leaf hleft).congr (by rw [hleaf₅]) (by rw [hleaf₅])
    · exact ((hkept.body bt.size hrightlt hnotup).leaf hright).congr (by rw [hright₅]) (by rw [hright₅])
    · exact (hsibling m hm).leaf (h.leaf m (mem_of_sibling hm))
  · refine nodup_append.mpr ⟨?_, hgrown.nodup, fun p hp q hq heq => ?_⟩
    · rw [hperm.nodup_iff, nodup_cons]
      exact ⟨fun hp => hfresh (mem_append_left _ hp), (nodup_append.mp h.nodup).1⟩
    · subst heq
      obtain ⟨hpl, hpr, hsib⟩ := hold p hq
      obtain ⟨m, hm, rfl⟩ := mem_map.mp hp
      rcases mem_divided hm with rfl | rfl | hm
      · exact hpl rfl
      · exact hpr rfl
      · exact hsib m hm rfl
  · have hsize₅ : bt₅.size = bt₃.size := by rw [hrecord₅]
    rw [hsize₅]
    rcases mem_append.mp hp with hp | hp
    · rcases mem_cons.mp (hperm.mem_iff.mp hp) with rfl | hp
      · exact hrightlt.trans_le hkept.size
      · exact (hlt₂ (h.lt p (mem_append_left _ hp))).trans_le hkept.size
    · exact hgrown.lt p hp
  · rcases mem_divided hm with rfl | rfl | hm
    · exact hsa
    · exact hsb
    · exact h.sorted m (mem_of_sibling hm)
  · rcases mem_divided hm with rfl | rfl | hm
    · exact hla
    · exact hlb
    · exact h.low m (mem_of_sibling hm)
  · refine chain_divided h.chain rfl (by rw [hleaf₅]) ?_ fun m hm => (hsibling m hm).next
    rw [hright₅]
    exact hbody.next.trans hnext
  · have hnlevel := hgrown.nlevel
    rw [hrecord₅]
    change bt₃.nlevel = _
    omega
  · have hnkeys := h.nkeys
    have hnkeys₃ := hkept.nkeys
    have hnkeys₂ : bt₂.nkeys = bt.nkeys := by rw [hrecord]
    rw [hrecord₅]
    change bt₃.nkeys = _
    simp only [flatMap_append, flatMap_cons, length_append, hpairs] at hnkeys ⊢
    omega

theorem getLeaf_spec (h : Represents bt es) (key : K) :
    ∃ bt' X l Y levels, getLeaf c.cmp bt key = some (bt', l.ptr) ∧ Valid bt' (X ++ l :: Y) levels ∧
      (∀ m ∈ X ++ l :: Y, PageSized levels m) ∧ es = (X ++ l :: Y).flatMap Page.pairs ∧
      l.low ≤ (key : WithBot K) ∧ ∀ m ∈ Y, (key : WithBot K) < m.low := by
  rcases h with ⟨hempty, -, rfl⟩ | ⟨pages, levels, hvalid, hsized, rfl, -⟩
  · refine ⟨_, [], ⟨⊥, bt.size, []⟩, [], [], by rw [getLeaf, if_pos hempty], ?_, ?_, rfl, bot_le, by simp⟩
    · have hheap : (bt.create (.zero : Node K V)).heap bt.size = .zero := heap_create_self
      refine ⟨⟨bt.size, rfl, rfl, ?_⟩, fun m hm => ?_, ?_, fun p hp => ?_, ?_, ?_, ?_, ?_, rfl, rfl⟩
      · change ((bt.create .zero).heap bt.size).parent = none
        rw [hheap]
        rfl
      · obtain rfl := mem_singleton.mp hm
        change Leaf ((bt.create .zero).heap bt.size) []
        rw [hheap]
        exact ⟨rfl, Nat.zero_le _, by simp⟩
      · exact nodup_singleton _
      · obtain rfl := mem_singleton.mp hp
        exact Nat.lt_succ_self _
      · intro m hm
        obtain rfl := mem_singleton.mp hm
        exact Pairwise.nil
      · intro m hm
        obtain rfl := mem_singleton.mp hm
        simp
      · exact pairwise_singleton _ _
      · refine ⟨rfl, ?_⟩
        change ((bt.create .zero).heap bt.size).next = none
        rw [hheap]
        rfl
    · intro m hm
      obtain rfl := mem_singleton.mp hm
      exact ⟨Nat.succ_pos _, .inl rfl⟩
  · have hinc : Increasing (pages.map Page.item) := pairwise_map.mpr (hvalid.apart.imp fun hlm => hlm.1)
    obtain ⟨root, A, x, B, hroot, hmap, hx, hB, hdescend⟩ := descend_spec (c := c) key hvalid.tower hinc
      fun p hp => hvalid.lt p (mem_append_right _ hp)
    obtain ⟨X, Y', rfl, rfl, hY'⟩ := map_eq_append_iff.mp hmap
    obtain ⟨l, Y, rfl, rfl, rfl⟩ := map_eq_cons_iff.mp hY'
    refine ⟨bt, X, l, Y, levels, ?_, hvalid, hsized, rfl, hx, fun m hm => hB _ (mem_map_of_mem hm)⟩
    rw [getLeaf, if_neg (by rw [hvalid.nlevel]; exact Nat.succ_ne_zero _), hroot, bind_some,
      hvalid.nlevel, Nat.add_sub_cancel, hdescend]
    rfl

theorem splitFull_spec (h : Valid bt (X ++ l :: Y) levels)
    (hold : ∀ m ∈ X ++ Y, PageSized levels m) (hl : levels = [] ∨ order < l.pairs.length) :
    ∃ bt' pages levels', splitFull c.cmp bt l.ptr = some bt' ∧ Valid bt' pages levels' ∧
      (∀ m ∈ pages, PageSized levels' m) ∧
      pages.flatMap Page.pairs = (X ++ l :: Y).flatMap Page.pairs := by
  have hmem : l ∈ X ++ l :: Y := mem_append_right _ mem_cons_self
  have hleaf := h.leaf l hmem
  rw [splitFull, load_of_lt h.page_lt, bind_some, hleaf.nkeys]
  by_cases hfull : l.pairs.length = order * 2 + 2
  · obtain ⟨a, e, b, hpairs, ha, hb⟩ : ∃ a e b, l.pairs = a ++ e :: b ∧ a.length = order + 1 ∧
        b.length = order := by
      have hlt : order + 1 < l.pairs.length := by omega
      refine ⟨_, _, _, (take_append_drop (order + 1) _).symm.trans
        (by rw [drop_eq_getElem_cons hlt]), ?_, ?_⟩
      · rw [length_take]
        omega
      · rw [length_drop]
        omega
    obtain ⟨bt', levels', hsplit, hne, hvalid⟩ := h.splitLeaf (c := c) hpairs ha hb
    rw [if_pos hfull]
    refine ⟨bt', _, levels', hsplit, hvalid, fun m hm => ?_, by simp [hpairs]⟩
    have hcases : m = { l with pairs := a } ∨ m = ⟨e.key, bt.size, e :: b⟩ ∨ m ∈ X ++ Y := by
      simp only [mem_append, mem_cons] at hm ⊢
      tauto
    rcases hcases with rfl | rfl | hm
    · simp [PageSized, ha, slots, order]
    · simp [PageSized, hb, slots, order]
    · -- a leaf that has siblings is not the root
      obtain ⟨hlt, hroot | hhalf⟩ := hold m hm
      · subst hroot
        obtain ⟨p, hp, -⟩ := h.tower
        have hlen := congrArg length hp
        have hpos := length_pos_of_mem hm
        simp only [length_map, length_append, length_cons, length_nil] at hlen hpos
        omega
      · exact ⟨hlt, .inr hhalf⟩
  · rw [if_neg hfull]
    refine ⟨bt, _, levels, rfl, h, fun m hm => ?_, rfl⟩
    have hfits := hleaf.fits
    have hslots : slots = order * 2 + 2 := rfl
    rcases mem_append.mp hm with hm | hm
    · exact hold m (mem_append_left _ hm)
    · rcases mem_cons.mp hm with rfl | hm
      · exact ⟨by omega, hl⟩
      · exact hold m (mem_append_right _ hm)

namespace Valid

variable {key : K}

theorem before (h : Valid bt (X ++ l :: Y) levels) (hlow : l.low ≤ (key : WithBot K)) :
    ∀ x ∈ X.flatMap Page.pairs, x.key < key := by
  intro x hx
  obtain ⟨m, hm, hx⟩ := mem_flatMap.mp hx
  have hlt := ((pairwise_append.mp h.apart).2.2 m hm l mem_cons_self).2 x hx
  exact WithBot.coe_lt_coe.mp (hlt.trans_le hlow)

theorem behind (h : Valid bt (X ++ l :: Y) levels) (hhigh : ∀ m ∈ Y, (key : WithBot K) < m.low) :
    ∀ x ∈ Y.flatMap Page.pairs, key < x.key := by
  intro x hx
  obtain ⟨m, hm, hx⟩ := mem_flatMap.mp hx
  exact WithBot.coe_lt_coe.mp ((hhigh m hm).trans_le (h.low m (mem_of_sibling (mem_append_right _ hm)) x hx))

theorem notin (h : Valid bt (X ++ l :: Y) levels)
    (hlow : l.low ≤ (key : WithBot K)) (hhigh : ∀ m ∈ Y, (key : WithBot K) < m.low)
    (hpairs : l.pairs = a ++ b) (ha : ∀ x ∈ a, x.key < key) (hb : ∀ x ∈ b, key < x.key) :
    key ∉ ((X ++ l :: Y).flatMap Page.pairs).map KeyVals.key := by
  intro hmem
  obtain ⟨x, hx, heq⟩ := mem_map.mp hmem
  rw [flatMap_append, flatMap_cons, hpairs] at hx
  simp only [mem_append] at hx
  rcases hx with hx | (hx | hx) | hx
  · exact (h.before hlow x hx).ne heq
  · exact (ha x hx).ne heq
  · exact (hb x hx).ne' heq
  · exact (h.behind hhigh x hx).ne' heq

theorem changed (fresh : KeyVals K V)
    (change : KeyVals K V → KeyVals K V) (nkeys : ℕ) (h : Valid bt (X ++ l :: Y) levels)
    (hsized : ∀ m ∈ X ++ l :: Y, PageSized levels m) (hlow : l.low ≤ (key : WithBot K))
    (hhigh : ∀ m ∈ Y, (key : WithBot K) < m.low) (hfresh : fresh.key = key)
    (hchange : ∀ x, (change x).key = x.key)
    (hleaf : Leaf nd (upsert KeyVals.key key fresh change l.pairs))
    (hparent : nd.parent = (bt.heap l.ptr).parent) (hnext : nd.next = (bt.heap l.ptr).next)
    (hnkeys : nkeys + l.pairs.length =
      bt.nkeys + (upsert KeyVals.key key fresh change l.pairs).length)
    (hlength : l.pairs.length ≤ (upsert KeyVals.key key fresh change l.pairs).length) :
    ∃ bt', splitFull c.cmp { bt.store l.ptr nd with nkeys := nkeys } l.ptr = some bt' ∧
      Represents bt' (upsert KeyVals.key key fresh change ((X ++ l :: Y).flatMap Page.pairs)) := by
  have hl : l ∈ X ++ l :: Y := mem_append_right _ mem_cons_self
  generalize hes : upsert KeyVals.key key fresh change l.pairs = es at hleaf hnkeys hlength
  have hall : upsert KeyVals.key key fresh change ((X ++ l :: Y).flatMap Page.pairs) =
      (X ++ { l with pairs := es } :: Y).flatMap Page.pairs := by
    rw [flatMap_append, flatMap_cons, upsert_append_left (h.before hlow),
      upsert_append_right (h.behind hhigh), hes, flatMap_append, flatMap_cons]
  have hkeys : ∀ e ∈ es, e.key = key ∨ ∃ x ∈ l.pairs, x.key = e.key := by
    intro e he
    rw [← hes] at he
    exact ((mem_key_upsert hfresh hchange).mp (mem_map_of_mem he)).imp_right mem_map.mp
  have hvalid := h.update nkeys hleaf hparent hnext (hes ▸ (h.sorted l hl).upsert hfresh hchange)
    (fun e he => by
      rcases hkeys e he with heq | ⟨x, hx, heq⟩
      · rw [heq]
        exact hlow
      · rw [← heq]
        exact h.low l hl x hx)
    (fun e he m hm => by
      rcases hkeys e he with heq | ⟨x, hx, heq⟩
      · rw [heq]
        exact hhigh m hm
      · rw [← heq]
        exact ((pairwise_cons.mp (pairwise_append.mp h.apart).2.1).1 m hm).2 x hx)
    hnkeys
  obtain ⟨bt', pages, levels', hsplit, hvalid', hsized', hpairs⟩ := splitFull_spec (c := c) hvalid
    (fun m hm => hsized m (mem_of_sibling hm)) ((hsized l hl).2.imp_right fun hlt => hlt.trans_le hlength)
  refine ⟨bt', hsplit, .inr ⟨pages, levels', hvalid', hsized', hall.trans hpairs.symm, fun hnil => ?_⟩⟩
  have hmem : key ∈ (upsert KeyVals.key key fresh change ((X ++ l :: Y).flatMap Page.pairs)).map
      KeyVals.key := (mem_key_upsert hfresh hchange).mpr (.inl rfl)
  rw [hnil] at hmem
  simp at hmem

end Valid

omit [LinearOrder K] in
theorem modify_stored (hp : p < bt.size) (hf : f nd = some nd') :
    Tree.modify { bt.store p nd with nkeys := nkeys } p f = some { bt.store p nd' with nkeys := nkeys } := by
  have hheap : (bt.store p nd).heap p = nd := heap_store_self
  generalize hbt : ({ bt.store p nd with nkeys := nkeys } : Tree K V) = bt₁
  have hp₁ : p < bt₁.size := hbt ▸ hp
  have hf₁ : f (bt₁.heap p) = some nd' := by
    rw [← hbt]
    exact (congrArg f hheap).trans hf
  rw [modify_eq hp₁ hf₁, ← hbt]
  simp only [Tree.store, Function.update_idem]

theorem insertKvWith_spec (h : Represents bt es) (key : K)
    {insert : KeyVals K V → Option (KeyVals K V)} {f : KeyVals K V → KeyVals K V} (hash : ℕ)
    (hkeys : ∀ e, (f e).key = e.key) (hinsert : ∀ e ∈ es, e.key = key → insert e = some (f e))
    (hfresh : insert (.fresh key hash) = some (f (.fresh key hash))) :
    ∃ bt', insertKvWith c.cmp bt key insert hash = some (bt', decide (key ∉ es.map KeyVals.key)) ∧
      Represents bt' (upsert KeyVals.key key (f (.fresh key hash)) f es) := by
  obtain ⟨bt₁, X, l, Y, levels, hget, hvalid, hsized, rfl, hlow, hhigh⟩ := getLeaf_spec (c := c) h key
  have hl : l ∈ X ++ l :: Y := mem_append_right _ mem_cons_self
  have hleaf := hvalid.leaf l hl
  have hlt := hvalid.page_lt
  rcases hleaf.locate (c := c) (hvalid.sorted l hl) key with
    ⟨a, e, b, hpairs, hkey, ha, hsearch⟩ | ⟨a, b, hpairs, ha, hb, hsearch⟩
  · have hput : upsert KeyVals.key key (f (.fresh key hash)) f l.pairs = a ++ f e :: b := by
      rw [hpairs, upsert_of_present ha hkey]
    have hold : key ∈ ((X ++ l :: Y).flatMap Page.pairs).map KeyVals.key :=
      mem_map.mpr ⟨e, mem_flatMap.mpr ⟨l, hl, by rw [hpairs]; simp⟩, hkey⟩
    rw [hpairs] at hleaf
    obtain ⟨nd, hchange, hleaf', hparent, hnext⟩ := hleaf.insertValue
      (hinsert e (mem_flatMap.mpr ⟨l, hl, by rw [hpairs]; simp⟩) hkey)
    obtain ⟨bt', hsplit, hrep⟩ := hvalid.changed (c := c)
      (f (.fresh key hash)) f bt₁.nkeys hsized hlow hhigh (hkeys _)
      hkeys (hput ▸ hleaf') hparent hnext (by rw [hput, hpairs]; simp) (by rw [hput, hpairs]; simp)
    refine ⟨bt', ?_, hrep⟩
    simp only [insertKvWith, hget, bind_some, load_of_lt hlt, hsearch, Int.toNat_natCast, if_true]
    rw [modify_eq hlt hchange, bind_some]
    change (splitFull c.cmp { bt₁.store l.ptr nd with nkeys := bt₁.nkeys } l.ptr).map _ = _
    rw [hsplit, map_some, decide_eq_false (not_not.mpr hold)]
    rfl
  · have hput : upsert KeyVals.key key (f (.fresh key hash)) f l.pairs =
        a ++ f (.fresh key hash) :: b := by
      rw [hpairs, upsert_of_absent ha hb]
    have hnew := hvalid.notin hlow hhigh hpairs ha hb
    rw [hpairs] at hleaf
    obtain ⟨nd, stale, hopen, hleaf, hparent, hnext⟩ := hleaf.openSlot (hpairs ▸ (hsized l hl).1) key
    obtain ⟨nd', hhash, hleaf, hparent', hnext'⟩ := hleaf.setHash hash
    obtain ⟨nd'', hchange, hleaf, hparent'', hnext''⟩ := hleaf.insertValue hfresh
    obtain ⟨bt', hsplit, hrep⟩ := hvalid.changed (c := c)
      (f (.fresh key hash)) f (bt₁.nkeys + 1) hsized hlow hhigh (hkeys _)
      hkeys (hput ▸ hleaf) (hparent''.trans (hparent'.trans hparent))
      (hnext''.trans (hnext'.trans hnext))
      (by rw [hput, hpairs]; simp only [length_append, length_cons]; omega)
      (by rw [hput, hpairs]; simp only [length_append, length_cons]; omega)
    refine ⟨bt', ?_, hrep⟩
    have hkey : insertKey bt₁ l.ptr key a.length = some { bt₁.store l.ptr nd with nkeys := bt₁.nkeys + 1 } := by
      rw [insertKey, modify_eq hlt hopen]
      rfl
    simp only [insertKvWith, hget, bind_some, load_of_lt hlt, hsearch, Int.toNat_natCast,
      Bool.false_eq_true, if_false, hkey, modify_stored (f := fun nd => nd.setHash a.length hash) hlt hhash,
      modify_stored (f := fun nd => nd.insertValue a.length insert) hlt hchange, hsplit,
      map_some, decide_eq_true hnew, Bool.not_false]

theorem insertKv_spec (h : Represents bt es) (key : K) (val : V) (hash : ℕ) :
    ∃ bt', insertKv c.cmp bt key val hash = some (bt', decide (key ∉ es.map KeyVals.key)) ∧
      Represents bt' (put key val hash es) :=
  insertKvWith_spec h key hash (fun e => KeyVals.key_insert e val) (fun _ _ _ => rfl) rfl

theorem insertKvs_spec
    (h : Represents bt es) (k : KeyVals K V) (hnew : k.key ∉ es.map KeyVals.key) :
    ∃ bt', insertKvs c.cmp bt k = some bt' ∧ Represents bt' (putPair k es) := by
  obtain ⟨bt₁, X, l, Y, levels, hget, hvalid, hsized, rfl, hlow, hhigh⟩ := getLeaf_spec (c := c) h k.key
  have hl : l ∈ X ++ l :: Y := mem_append_right _ mem_cons_self
  have hleaf := hvalid.leaf l hl
  have hlt := hvalid.page_lt
  rcases hleaf.locate (c := c) (hvalid.sorted l hl) k.key with
    ⟨a, e, b, hpairs, hkey, ha, hsearch⟩ | ⟨a, b, hpairs, ha, hb, hsearch⟩
  · exact absurd (List.mem_map.mpr ⟨e, List.mem_flatMap.mpr ⟨l, hl, by rw [hpairs]; simp⟩, hkey⟩) hnew
  · have hput : upsert KeyVals.key k.key k id l.pairs = a ++ k :: b := by
      rw [hpairs, upsert_of_absent ha hb]
    rw [hpairs] at hleaf
    obtain ⟨nd, stale, hopen, hleaf, hparent, hnext⟩ := hleaf.openSlot (hpairs ▸ (hsized l hl).1) k.key
    obtain ⟨nd', hwrite, hleaf, hparent', hnext'⟩ := hleaf.write k
    obtain ⟨bt', hsplit, hrep⟩ := hvalid.changed (c := c) k id (bt₁.nkeys + 1) hsized hlow hhigh rfl (fun _ => rfl) (hput ▸ hleaf)
      (hparent'.trans hparent) (hnext'.trans hnext)
      (by rw [hput, hpairs]; simp only [length_append, length_cons]; omega)
      (by rw [hput, hpairs]; simp only [length_append, length_cons]; omega)
    refine ⟨bt', ?_, hrep⟩
    have hkey : insertKey bt₁ l.ptr k.key a.length =
        some { bt₁.store l.ptr nd with nkeys := bt₁.nkeys + 1 } := by
      rw [insertKey, modify_eq hlt hopen]
      rfl
    simp only [insertKvs, hget, bind_some, load_of_lt hlt, hsearch, Int.toNat_natCast,
      Bool.false_eq_true, if_false, hkey,
      modify_stored (f := fun nd => nd.write a.length (.ofKeyVals k)) hlt hwrite, hsplit]

end Mosbench.Metis.BTree
