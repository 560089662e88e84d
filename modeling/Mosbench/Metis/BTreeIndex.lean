import Mosbench.Metis.BTreeNode

/-!
The index of the B+tree. A level is the list of its nodes from left to right, each with
its children, and the children of a level, one after the other, are the level below. A
`Tower` stands on a list of nodes and goes up to the root. Splits go up the tower level
by level; `insertIndex_spec` follows them by induction on the levels.
-/
namespace Mosbench.Metis.BTree

open List Option Function Prod

variable [LinearOrder K]

structure Branch (K : Type) where
  low : WithBot K
  ptr : Ptr
  kids : List (Item K)

def Branch.item (n : Branch K) : Item K := (n.low, n.ptr)

structure Stored (bt : Tree K V) (n : Branch K) : Prop where
  inner : Inner (bt.heap n.ptr) n.kids
  first : ∀ x ∈ n.kids.head?, x.1 = n.low
  parent : ∀ x ∈ n.kids, (bt.heap x.2).parent = some n.ptr

def Sized (levels : List (List (Branch K))) (n : Branch K) : Prop :=
  2 ≤ n.kids.length ∧ n.kids.length < slots ∧ (levels = [] ∨ order < n.kids.length)

/-- The levels above the nodes `items`, from the lowest one up. -/
def Tower (bt : Tree K V) : List (List (Branch K)) → List (Item K) → Prop
  | [], items => ∃ p, items = [(⊥, p)] ∧ bt.root = some p ∧ (bt.heap p).parent = none
  | ns :: levels, items =>
    ns.flatMap Branch.kids = items ∧ (∀ n ∈ ns, Stored bt n ∧ Sized levels n) ∧
    Tower bt levels (ns.map Branch.item)

def above (levels : List (List (Branch K))) : List Ptr := levels.flatten.map Branch.ptr

structure SameBody (nd nd' : Node K V) : Prop where
  nkeys : nd'.nkeys = nd.nkeys
  arr : nd'.arr = nd.arr
  next : nd'.next = nd.next

section Heap

omit [LinearOrder K]

variable {bt : Tree K V}

theorem SameBody.refl (nd : Node K V) : SameBody nd nd := ⟨rfl, rfl, rfl⟩

theorem SameBody.of_eq (h : nd' = nd) : SameBody nd nd' := h ▸ .refl nd

theorem SameBody.trans (h : SameBody nd nd') (h' : SameBody nd' nd'') : SameBody nd nd'' :=
  ⟨h'.nkeys.trans h.nkeys, h'.arr.trans h.arr, h'.next.trans h.next⟩

theorem SameBody.inner (h : SameBody nd nd') (hinner : Inner nd kids) : Inner nd' kids :=
  ⟨by rw [h.nkeys]; exact hinner.nkeys, hinner.fits, by rw [h.arr]; exact hinner.child,
    by rw [h.arr]; exact hinner.key⟩

theorem SameBody.leaf (h : SameBody nd nd') (hleaf : Leaf nd es) : Leaf nd' es :=
  ⟨by rw [h.nkeys]; exact hleaf.nkeys, hleaf.fits, by rw [h.arr]; exact hleaf.pair⟩

section

@[simp] theorem heap_store_self : (bt.store p nd).heap p = nd := update_self ..

theorem heap_store_of_ne (h : q ≠ p) : (bt.store p nd).heap q = bt.heap q := update_of_ne h ..

@[simp] theorem size_store : (bt.store p nd).size = bt.size := rfl

@[simp] theorem heap_create_self : (bt.create nd).heap bt.size = nd := update_self ..

theorem heap_create_of_ne (h : q ≠ bt.size) : (bt.create nd).heap q = bt.heap q := update_of_ne h ..

@[simp] theorem size_create : (bt.create nd).size = bt.size + 1 := rfl

end

theorem load_of_lt (h : p < bt.size) : bt.load p = some (bt.heap p) := if_pos h

theorem modify_eq (h : p < bt.size)
    (hf : f (bt.heap p) = some nd) : bt.modify p f = some (bt.store p nd) := by
  rw [Tree.modify, load_of_lt h, bind_some, hf, map_some]

theorem modify_some (g : Node K V → Node K V) (h : p < bt.size) :
    (bt.modify p fun nd => some (g nd)) = some (bt.store p (g (bt.heap p))) := modify_eq h rfl

theorem setParent_eq (h : p < bt.size) :
    bt.setParent p parent = some (bt.store p { bt.heap p with parent := some parent }) :=
  modify_eq h rfl

theorem Stored.congr (h : Stored bt n) (hbody : SameBody (bt.heap n.ptr) (bt'.heap n.ptr))
    (hparent : ∀ x ∈ n.kids, (bt'.heap x.2).parent = (bt.heap x.2).parent) : Stored bt' n :=
  ⟨hbody.inner h.inner, h.first, fun x hx => (hparent x hx).trans (h.parent x hx)⟩

theorem above_cons (ns : List (Branch K)) (levels : List (List (Branch K))) :
    above (ns :: levels) = ns.map Branch.ptr ++ above levels := by
  rw [above, List.flatten_cons, List.map_append, above]

theorem map_item_snd (ns : List (Branch K)) : (ns.map Branch.item).map snd = ns.map Branch.ptr := by
  rw [List.map_map]
  rfl

theorem Tower.congr (h : Tower bt levels items)
    (hroot : bt'.root = bt.root) (hbody : ∀ p ∈ above levels, SameBody (bt.heap p) (bt'.heap p))
    (hparent : ∀ p, p ∈ items.map snd ∨ p ∈ above levels →
      (bt'.heap p).parent = (bt.heap p).parent) : Tower bt' levels items := by
  induction levels generalizing items with
  | nil =>
    obtain ⟨p, rfl, hp, hnone⟩ := h
    exact ⟨p, rfl, hroot.trans hp, (hparent p (.inl (by simp))).trans hnone⟩
  | cons ns levels ih =>
    obtain ⟨rfl, hnodes, htower⟩ := h
    rw [above_cons] at hbody hparent
    refine ⟨rfl, fun n hn => ⟨?_, (hnodes n hn).2⟩, ih htower (fun p hp => hbody p (mem_append_right _ hp)) ?_⟩
    · refine (hnodes n hn).1.congr (hbody n.ptr (mem_append_left _ (mem_map_of_mem hn))) ?_
      intro x hx
      exact hparent x.2 (.inl (mem_map_of_mem (mem_flatMap.mpr ⟨n, hn, hx⟩)))
    · rw [map_item_snd]
      exact fun p hp => hparent p (.inr (mem_append.mpr hp))

def SameRecord (bt bt' : Tree K V) : Prop := bt' = { bt with heap := bt'.heap }

structure Attached (bt bt' : Tree K V) (parent right : Ptr) (kids : List (Item K)) : Prop where
  record : SameRecord bt bt'
  inner : Inner (bt'.heap parent) kids
  child : (bt'.heap right).parent = some parent
  body : ∀ p, p ≠ parent → SameBody (bt.heap p) (bt'.heap p)
  parents : ∀ p, p ≠ right → (bt'.heap p).parent = (bt.heap p).parent

theorem exists_attached {cmp : K → K → ℤ}
    (hparent : parent < bt.size) (hright : right < bt.size) (hne : right ≠ parent)
    (hinsert : insertSlot cmp (bt.heap parent) key right = some nd) (hinner : Inner nd kids)
    (hkeep : nd.parent = (bt.heap parent).parent) :
    ∃ bt₁ bt₂, (bt.modify parent fun nd => insertSlot cmp nd key right) = some bt₁ ∧
      bt₁.setParent right parent = some bt₂ ∧ Attached bt bt₂ parent right kids := by
  refine ⟨bt.store parent nd, _, modify_eq hparent hinsert, setParent_eq hright, rfl, ?_, ?_,
    fun p hp => ?_, fun p hp => ?_⟩
  · rw [heap_store_of_ne hne.symm, heap_store_self]
    exact hinner
  · rw [heap_store_self]
  · by_cases hpr : p = right
    · rw [hpr, heap_store_self, heap_store_of_ne hne]
      exact ⟨rfl, rfl, rfl⟩
    · rw [heap_store_of_ne hpr, heap_store_of_ne hp]
      exact .refl _
  · rw [heap_store_of_ne hp]
    by_cases hpp : p = parent
    · rw [hpp, heap_store_self, hkeep]
    · rw [heap_store_of_ne hpp]

theorem exists_splitInternal (hnode : node < bt.size)
    (hinner : Inner (bt.heap node) (L ++ R)) (hL : L.length = order + 1) (hR : R.length = order + 1) :
    ∃ bt', splitInternal bt node = some (bt', bt.size) ∧ bt'.size = bt.size + 1 ∧
      bt' = { bt with heap := bt'.heap, size := bt'.size } ∧ Inner (bt'.heap node) L ∧
      (bt'.heap node).parent = (bt.heap node).parent ∧ Inner (bt'.heap bt.size) R ∧
      ∀ p, p ≠ node → p ≠ bt.size → bt'.heap p = bt.heap p := by
  have hne : node ≠ bt.size := hnode.ne
  obtain ⟨newsib, hcopy, harr⟩ : ∃ newsib : Node K V,
      Node.zero.copySlots (bt.heap node) 0 (order + 1) (order + 1) = some newsib ∧
      ∀ i, i < order + 1 → newsib.arr i = (bt.heap node).arr (order + 1 + i) := by
    refine ⟨_, copySlots_eq (by decide), fun i hi => ?_⟩
    exact (if_pos ⟨Nat.zero_le i, by rwa [Nat.zero_add]⟩).trans (by rw [Nat.sub_zero])
  have hlt : node < (bt.create { newsib with nkeys := order }).size := by
    rw [size_create]
    exact Nat.lt_succ_of_lt hnode
  generalize hbt : bt.create { newsib with nkeys := order } = bt₁ at hlt
  have hsplit : splitInternal bt node =
      some (bt₁.store node { bt₁.heap node with nkeys := order }, bt.size) := by
    rw [splitInternal, load_of_lt hnode, bind_some, hcopy, bind_some, hbt,
      modify_some _ hlt, map_some]
  subst hbt
  refine ⟨_, hsplit, rfl, rfl, ?_, ?_, ?_, fun p hp hps => ?_⟩
  · refine hinner.left ?_ fun i _ => ?_
    · rw [heap_store_self, hL]
    · rw [heap_store_self, heap_create_of_ne hne]
  · rw [heap_store_self, heap_create_of_ne hne]
  · rw [heap_store_of_ne hne.symm, heap_create_self]
    exact hinner.right hR.symm fun i hi => by rw [hL]; exact harr i (hR ▸ hi)
  · rw [heap_store_of_ne hp, heap_create_of_ne hps]

structure Moved (bt bt' : Tree K V) (ps : List Ptr) (parent : Ptr) : Prop where
  record : SameRecord bt bt'
  body : ∀ p, SameBody (bt.heap p) (bt'.heap p)
  parent : ∀ p ∈ ps, (bt'.heap p).parent = some parent
  other : ∀ p, p ∉ ps → bt'.heap p = bt.heap p

theorem fixParents_spec (todo : List (Item K)) : ∀ (bt : Tree K V) (done : List (Item K)),
    newparent < bt.size → Inner (bt.heap newparent) (done ++ todo) → (∀ x ∈ todo, x.2 < bt.size) →
    ∃ bt', fixParents newparent todo.length done.length bt = some bt' ∧
      Moved bt bt' (todo.map snd) newparent := by
  induction todo with
  | nil => exact fun _ _ _ _ _ => ⟨_, rfl, rfl, fun _ => .refl _, by simp, fun _ _ => rfl⟩
  | cons x todo ih =>
    intro bt done hlt hinner hkids
    have hx := hkids x mem_cons_self
    have hbody : ∀ p, SameBody (bt.heap p)
        ((bt.store x.2 { bt.heap x.2 with parent := some newparent }).heap p) := by
      intro p
      by_cases hp : p = x.2
      · rw [hp, heap_store_self]
        exact ⟨rfl, rfl, rfl⟩
      · exact .of_eq (heap_store_of_ne hp)
    obtain ⟨bt', hfix, hmoved⟩ := ih (bt.store x.2 { bt.heap x.2 with parent := some newparent })
      (done ++ [x]) hlt ((hbody newparent).inner (by rwa [append_assoc]))
      fun y hy => hkids y (mem_cons_of_mem x hy)
    refine ⟨bt', ?_, ?_, fun p => (hbody p).trans (hmoved.body p), fun p hp => ?_, fun p hp => ?_⟩
    · rw [length_cons, fixParents, load_of_lt hlt, bind_some, hinner.childAt, bind_some,
        setParent_eq hx, bind_some]
      rw [length_append, length_singleton] at hfix
      exact hfix
    · rw [SameRecord, hmoved.record]
      rfl
    · by_cases hmem : p ∈ todo.map snd
      · exact hmoved.parent p hmem
      · obtain rfl : p = x.2 := (mem_cons.mp hp).resolve_right hmem
        rw [hmoved.other _ hmem, heap_store_self]
    · rw [map_cons, mem_cons, not_or] at hp
      rw [hmoved.other p hp.2, heap_store_of_ne hp.1]

structure Kept (bt bt' : Tree K V) (own ps : List Ptr) : Prop where
  nkeys : bt'.nkeys = bt.nkeys
  size : bt.size ≤ bt'.size
  body : ∀ p, p < bt.size → p ∉ own → SameBody (bt.heap p) (bt'.heap p)
  parent : ∀ p, p < bt.size → p ∉ own → p ∉ ps → (bt'.heap p).parent = (bt.heap p).parent

structure Grown (bt bt' : Tree K V) (levels levels' : List (List (Branch K))) : Prop where
  nodup : (above levels').Nodup
  lt : ∀ p ∈ above levels', p < bt'.size
  old : ∀ p ∈ above levels', p ∈ above levels ∨ bt.size ≤ p
  nlevel : bt'.nlevel + levels.length = bt.nlevel + levels'.length

theorem exists_newRoot (key : K) (hleft : left < bt.size) (hright : right < bt.size)
    (hne : right ≠ left) :
    ∃ bt', newRoot bt key left right = some bt' ∧
      bt' = { bt with nlevel := bt.nlevel + 1, root := some bt.size, heap := bt'.heap, size := bt.size + 1 } ∧
      Inner (bt'.heap bt.size) [(⊥, left), ((key : WithBot K), right)] ∧ (bt'.heap bt.size).parent = none ∧
      bt'.heap left = { bt.heap left with parent := some bt.size } ∧
      bt'.heap right = { bt.heap right with parent := some bt.size } ∧
      ∀ p, p ≠ left → p ≠ right → p ≠ bt.size → bt'.heap p = bt.heap p := by
  have hls : left ≠ bt.size := hleft.ne
  have hrs : right ≠ bt.size := hright.ne
  generalize harr : (Function.update (Function.update (fun _ => .zero) 0 ⟨some key, .node left, 0⟩) 1
    ⟨none, .node right, 0⟩ : ℕ → Slot K V) = arr
  generalize hbt₁ : ({ bt.create ⟨1, none, arr, none⟩ with root := some bt.size } : Tree K V) = bt₁
  have hsize : bt₁.size = bt.size + 1 := hbt₁ ▸ rfl
  have hheap : ∀ p, p ≠ bt.size → bt₁.heap p = bt.heap p := fun p hp => hbt₁ ▸ heap_create_of_ne hp
  have hroot : bt₁.heap bt.size = ⟨1, none, arr, none⟩ := hbt₁ ▸ heap_create_self
  have hleft₁ : left < bt₁.size := hsize ▸ Nat.lt_succ_of_lt hleft
  have hright₁ : right < (bt₁.store left { bt₁.heap left with parent := some bt.size }).size := by
    rw [size_store, hsize]
    exact Nat.lt_succ_of_lt hright
  have hnew : newRoot bt key left right = some { (bt₁.store left { bt₁.heap left with
      parent := some bt.size }).store right { (bt₁.store left { bt₁.heap left with
      parent := some bt.size }).heap right with parent := some bt.size } with nlevel := bt₁.nlevel + 1 } := by
    simp only [newRoot]
    rw [harr, hbt₁, setParent_eq hleft₁, bind_some, setParent_eq hright₁, map_some]
    rfl
  refine ⟨_, hnew, ?_, ?_, ?_, ?_, ?_, fun p hpl hpr hps => ?_⟩
  · rw [← hbt₁]
    rfl
  · change Inner (((bt₁.store left _).store right _).heap bt.size) _
    rw [heap_store_of_ne hrs.symm, heap_store_of_ne hls.symm, hroot, ← harr]
    refine ⟨rfl, by simp [slots, order], fun i x hx => ?_, fun i x hx => ?_⟩
    · rcases i with - | - | i
      · obtain rfl := some.inj hx
        rfl
      · obtain rfl := some.inj hx
        rfl
      · simp at hx
    · rcases i with - | i
      · obtain rfl := some.inj hx
        exact ⟨key, rfl, rfl⟩
      · simp at hx
  · change (((bt₁.store left _).store right _).heap bt.size).parent = none
    rw [heap_store_of_ne hrs.symm, heap_store_of_ne hls.symm, hroot]
  · change ((bt₁.store left _).store right _).heap left = _
    rw [heap_store_of_ne hne.symm, heap_store_self, hheap left hls]
  · change ((bt₁.store left _).store right _).heap right = _
    rw [heap_store_self, heap_store_of_ne hne, hheap right hrs]
  · change ((bt₁.store left _).store right _).heap p = _
    rw [heap_store_of_ne hpr, heap_store_of_ne hpl, hheap p hps]

theorem newRoot_spec (hleft : left < bt.size) (hright : right < bt.size) (hne : right ≠ left) :
    ∃ bt' levels', newRoot bt key left right = some bt' ∧
      Tower bt' levels' [(⊥, left), ((key : WithBot K), right)] ∧ levels' ≠ [] ∧
      Kept bt bt' [] [right, left] ∧ Grown bt bt' [] levels' := by
  obtain ⟨bt', hnew, hrecord, hinner, hnone, hl, hr, hother⟩ := exists_newRoot key hleft hright hne
  have hsize : bt'.size = bt.size + 1 := by rw [hrecord]
  refine ⟨bt', [[⟨⊥, bt.size, [(⊥, left), ((key : WithBot K), right)]⟩]], hnew, ?_, by simp, ?_, ?_⟩
  · refine ⟨rfl, fun n hn => ?_, bt.size, rfl, by rw [hrecord], hnone⟩
    obtain rfl := mem_singleton.mp hn
    refine ⟨⟨hinner, by simp, fun x hx => ?_⟩, le_rfl, by simp [slots, order], .inl rfl⟩
    rcases mem_pair.mp hx with rfl | rfl
    · exact hl ▸ rfl
    · exact hr ▸ rfl
  · refine ⟨by rw [hrecord], by omega, fun p hp _ => ?_, fun p hp _ hps => ?_⟩
    · by_cases hpr : p = right
      · rw [hpr, hr]
        exact ⟨rfl, rfl, rfl⟩
      by_cases hpl : p = left
      · rw [hpl, hl]
        exact ⟨rfl, rfl, rfl⟩
      · exact .of_eq (hother p hpl hpr hp.ne)
    · rw [mem_pair, not_or] at hps
      rw [hother p hps.2 hps.1 hp.ne]
  · refine ⟨nodup_singleton _, fun p hp => ?_, fun p hp => ?_, by rw [hrecord]; rfl⟩
    · obtain rfl := mem_singleton.mp hp
      exact hsize ▸ Nat.lt_succ_self _
    · obtain rfl := mem_singleton.mp hp
      exact .inr le_rfl

end Heap

theorem flatMap_eq_append_cons {f : α → List β} {l : List α} {A B : List β} {x : β}
    (h : l.flatMap f = A ++ x :: B) :
    ∃ X a Y C D, l = X ++ a :: Y ∧ f a = C ++ x :: D ∧ A = X.flatMap f ++ C ∧ B = D ++ Y.flatMap f := by
  induction l generalizing A with
  | nil => simp at h
  | cons a l ih =>
    rw [flatMap_cons, append_eq_append_iff] at h
    rcases h with ⟨A', rfl, hl⟩ | ⟨C, ha, hB⟩
    · obtain ⟨X, b, Y, C, D, rfl, hb, rfl, rfl⟩ := ih hl
      exact ⟨a :: X, b, Y, C, D, rfl, hb, by simp, rfl⟩
    · cases C with
      | nil =>
        obtain ⟨X, b, Y, C, D, rfl, hb, hA, rfl⟩ := ih (A := []) hB.symm
        refine ⟨a :: X, b, Y, C, D, rfl, hb, ?_, rfl⟩
        rw [flatMap_cons, append_assoc, ← hA, ha]
        simp
      | cons y D =>
        obtain ⟨rfl, rfl⟩ := cons.inj hB
        exact ⟨[], a, l, A, D, rfl, ha, by simp, rfl⟩

theorem mem_of_sibling {X Y : List α} {a b : α} (h : a ∈ X ++ Y) : a ∈ X ++ b :: Y := by
  rcases mem_append.mp h with h | h
  · exact mem_append_left _ h
  · exact mem_append_right _ (mem_cons_of_mem b h)

theorem Increasing.up (ns : List (Branch K)) (h : Increasing (ns.flatMap Branch.kids))
    (hfirst : ∀ n ∈ ns, ∃ p rest, n.kids = (n.low, p) :: rest) : Increasing (ns.map Branch.item) := by
  refine pairwise_map.mpr ((pairwise_flatMap.mp h).2.imp_of_mem ?_)
  intro n m hn hm hnm
  obtain ⟨p, rest, hkids⟩ := hfirst n hn
  obtain ⟨q, rest', hkids'⟩ := hfirst m hm
  exact hnm (n.low, p) (hkids ▸ mem_cons_self) (m.low, q) (hkids' ▸ mem_cons_self)

omit [LinearOrder K] in
theorem Stored.exists_first (h : Stored bt n) : ∃ p rest, n.kids = (n.low, p) :: rest := by
  have hlen := h.inner.nkeys
  have hfirst := h.first
  cases hkids : n.kids with
  | nil =>
    rw [hkids] at hlen
    simp at hlen
  | cons x rest =>
    obtain ⟨b, p⟩ := x
    rw [hkids] at hfirst
    obtain rfl : b = n.low := hfirst (b, p) rfl
    exact ⟨p, rest, rfl⟩

omit [LinearOrder K] in
theorem Tower.replace {X Y : List (Branch K)} (ms : List (Branch K)) {levels : List (List (Branch K))}
    (hold : ∀ m ∈ X ++ Y, Stored bt m ∧ Sized levels m) (hnew : ∀ m ∈ ms, Stored bt m ∧ Sized levels m)
    (h : Tower bt levels (X.map Branch.item ++ ms.map Branch.item ++ Y.map Branch.item)) :
    Tower bt ((X ++ ms ++ Y) :: levels)
      (X.flatMap Branch.kids ++ ms.flatMap Branch.kids ++ Y.flatMap Branch.kids) := by
  refine ⟨by rw [flatMap_append, flatMap_append], fun m hm => ?_, ?_⟩
  · rcases mem_append.mp hm with hm | hm
    · rcases mem_append.mp hm with hm | hm
      · exact hold m (mem_append_left _ hm)
      · exact hnew m hm
    · exact hold m (mem_append_right _ hm)
  · rw [map_append, map_append]
    exact h

structure Place (bt : Tree K V) (X : List (Branch K)) (n : Branch K) (Y : List (Branch K))
    (levels : List (List (Branch K))) (right : Ptr) : Prop where
  nodup : (right :: (((X ++ n :: Y).flatMap Branch.kids).map snd ++
    above ((X ++ n :: Y) :: levels))).Nodup
  lt : ∀ p ∈ right :: (((X ++ n :: Y).flatMap Branch.kids).map snd ++
    above ((X ++ n :: Y) :: levels)), p < bt.size

namespace Place

omit [LinearOrder K]

variable {n : Branch K}

section

variable {bt : Tree K V} {X Y : List (Branch K)} {levels : List (List (Branch K))} (h : Place bt X n Y levels right)

include h

theorem right_lt : right < bt.size := h.lt right mem_cons_self

theorem kid (hm : m ∈ X ++ n :: Y)
    (hy : y ∈ m.kids) : y.2 < bt.size ∧ y.2 ≠ right ∧ y.2 ∉ (X ++ n :: Y).map Branch.ptr ∧
      y.2 ∉ above levels := by
  have hmem : y.2 ∈ ((X ++ n :: Y).flatMap Branch.kids).map snd :=
    mem_map_of_mem (mem_flatMap.mpr ⟨m, hm, hy⟩)
  obtain ⟨hright, hnodup⟩ := nodup_cons.mp h.nodup
  have hup := (nodup_append.mp hnodup).2.2 y.2 hmem
  rw [above_cons] at hup
  refine ⟨h.lt _ (mem_cons_of_mem _ (mem_append_left _ hmem)), fun heq => ?_, fun hp => ?_,
    fun hp => ?_⟩
  · exact hright (heq ▸ mem_append_left _ hmem)
  · exact hup _ (mem_append_left _ hp) rfl
  · exact hup _ (mem_append_right _ hp) rfl

theorem ptr (hp : p ∈ (X ++ n :: Y).map Branch.ptr) :
    p < bt.size ∧ p ≠ right ∧ p ∉ above levels := by
  obtain ⟨hright, hnodup⟩ := nodup_cons.mp h.nodup
  have hup := (nodup_append.mp hnodup).2.1
  have hlt := h.lt
  rw [above_cons] at hright hup hlt
  have hmem := mem_append_right (((X ++ n :: Y).flatMap Branch.kids).map snd)
    (mem_append_left (above levels) hp)
  exact ⟨hlt p (mem_cons_of_mem _ hmem), fun heq => hright (heq ▸ hmem),
    fun hp' => (nodup_append.mp hup).2.2 p hp p hp' rfl⟩

theorem up (hp : p ∈ above levels) : p < bt.size ∧ p ≠ right := by
  obtain ⟨hright, -⟩ := nodup_cons.mp h.nodup
  have hlt := h.lt
  rw [above_cons] at hright hlt
  have hmem := mem_append_right (((X ++ n :: Y).flatMap Branch.kids).map snd)
    (mem_append_right ((X ++ n :: Y).map Branch.ptr) hp)
  exact ⟨hlt p (mem_cons_of_mem _ hmem), fun heq => hright (heq ▸ hmem)⟩

theorem sibling (hm : m ∈ X ++ Y) :
    m.ptr ≠ n.ptr ∧ ∀ y ∈ m.kids, ∀ z ∈ n.kids, y.2 ≠ z.2 := by
  obtain ⟨-, hnodup⟩ := nodup_cons.mp h.nodup
  rw [above_cons] at hnodup
  obtain ⟨hkids, hptrs, -⟩ := nodup_append.mp hnodup
  have hptrs := (nodup_append.mp hptrs).1
  have hperm : (X ++ n :: Y).Perm (n :: (X ++ Y)) := perm_middle
  rw [(hperm.map Branch.ptr).nodup_iff, map_cons, nodup_cons] at hptrs
  rw [((hperm.flatMap_right Branch.kids).map snd).nodup_iff, flatMap_cons, map_append,
    nodup_append] at hkids
  refine ⟨fun heq => hptrs.1 (heq ▸ mem_map_of_mem hm), fun y hy z hz heq => ?_⟩
  exact hkids.2.2 z.2 (mem_map_of_mem hz) y.2
    (mem_map_of_mem (mem_flatMap.mpr ⟨m, hm, hy⟩)) heq.symm

theorem nodup_ptrs :
    ((X ++ n :: Y).map Branch.ptr ++ above levels).Nodup := by
  obtain ⟨-, hnodup⟩ := nodup_cons.mp h.nodup
  rw [above_cons] at hnodup
  exact (nodup_append.mp hnodup).2.1

theorem nodup_kids : (n.kids.map snd).Nodup := by
  obtain ⟨-, hnodup⟩ := nodup_cons.mp h.nodup
  have hkids := (nodup_append.mp hnodup).1
  rw [flatMap_append, map_append, flatMap_cons, map_append] at hkids
  exact (nodup_append.mp (nodup_append.mp hkids).2.1).1

theorem attached
    (hatt : Attached bt bt₂ n.ptr right kids) (hnodes : ∀ m ∈ X ++ n :: Y, Stored bt m)
    (htower : Tower bt levels ((X ++ n :: Y).map Branch.item)) :
    (∀ m ∈ X ++ Y, Stored bt₂ m) ∧ Tower bt₂ levels ((X ++ n :: Y).map Branch.item) := by
  have hn : n.ptr ∈ (X ++ n :: Y).map Branch.ptr := mem_map_of_mem (by simp)
  constructor
  · intro m hm
    refine (hnodes m (mem_of_sibling hm)).congr (hatt.body _ (h.sibling hm).1) fun y hy => ?_
    exact hatt.parents _ (h.kid (mem_of_sibling hm) hy).2.1
  · refine htower.congr (by rw [hatt.record]) (fun p hp => hatt.body p fun heq => ?_) fun p hp => ?_
    · exact (h.ptr hn).2.2 (heq ▸ hp)
    · rw [map_item_snd] at hp
      exact hatt.parents p (hp.elim (fun hp => (h.ptr hp).2.1) fun hp => (h.up hp).2)

end

theorem mem_attached (hkids : n.kids = C ++ x :: D)
    (hz : z ∈ C ++ x :: (b, right) :: D) : z = (b, right) ∨ z ∈ n.kids := by
  rw [hkids]
  simp only [mem_append, mem_cons] at hz ⊢
  tauto

theorem stored_attached
    (h : Place bt X n Y levels right) (hkids : n.kids = C ++ x :: D) (hstored : Stored bt n)
    (hatt : Attached bt bt₂ n.ptr right (C ++ x :: (b, right) :: D)) :
    Stored bt₂ { n with kids := C ++ x :: (b, right) :: D } := by
  refine ⟨hatt.inner, fun y hy => hstored.first y ?_, fun y hy => ?_⟩
  · rw [hkids]
    cases C with
    | nil | cons z C => exact hy
  · rcases mem_attached hkids hy with rfl | hy
    · exact hatt.child
    · exact (hatt.parents _ (h.kid (by simp) hy).2.1).trans (hstored.parent y hy)

theorem fresh (h : Place bt X n Y levels right)
    (hkids : n.kids = C ++ x :: D) (hz : z ∈ C ++ x :: (b, right) :: D) :
    z.2 < bt.size ∧ z.2 ∉ above levels ∧ z.2 ∉ (X ++ n :: Y).map Branch.ptr := by
  rcases mem_attached hkids hz with rfl | hz
  · exact ⟨h.right_lt, fun hp => (h.up hp).2 rfl, fun hp => (h.ptr hp).2.1 rfl⟩
  · obtain ⟨hlt, -, hptr, hup⟩ := h.kid (by simp) hz
    exact ⟨hlt, hup, hptr⟩

theorem room (h : Place bt X n Y levels right)
    (hatt : Attached bt bt₂ n.ptr right kids) (hold : ∀ m ∈ X ++ Y, Stored bt₂ m ∧ Sized levels m)
    (hnew : Stored bt₂ { n with kids := kids } ∧ Sized levels { n with kids := kids })
    (htower : Tower bt₂ levels ((X ++ n :: Y).map Branch.item)) :
    Tower bt₂ ((X ++ [{ n with kids := kids }] ++ Y) :: levels)
        (X.flatMap Branch.kids ++ kids ++ Y.flatMap Branch.kids) ∧
      Kept bt bt₂ (above ((X ++ n :: Y) :: levels))
        (right :: ((X ++ n :: Y).flatMap Branch.kids).map snd) ∧
      Grown bt bt₂ ((X ++ n :: Y) :: levels) ((X ++ [{ n with kids := kids }] ++ Y) :: levels) := by
  have habove : above ((X ++ [{ n with kids := kids }] ++ Y) :: levels) = above ((X ++ n :: Y) :: levels) := by
    simp [above]
  have hsize : bt₂.size = bt.size := by rw [hatt.record]
  refine ⟨?_, ⟨by rw [hatt.record], hsize.ge, fun p _ hp => ?_, fun p _ _ hp => ?_⟩, ⟨?_, fun p hp => ?_,
    fun p hp => .inl (habove ▸ hp), by rw [hatt.record]; rfl⟩⟩
  · have htower' := Tower.replace [{ n with kids := kids }] hold
      (fun m hm => mem_singleton.mp hm ▸ hnew) (by simpa [Branch.item] using htower)
    simpa using htower'
  · refine hatt.body p fun heq => hp ?_
    rw [above_cons, heq]
    exact mem_append_left _ (mem_map_of_mem (by simp))
  · exact hatt.parents p (ne_of_not_mem_cons hp)
  · rw [habove, above_cons]
    exact h.nodup_ptrs
  · rw [habove] at hp
    rw [hsize]
    exact h.lt p (mem_cons_of_mem _ (mem_append_right _ hp))

structure Divided (bt₂ bt₅ : Tree K V) (X : List (Branch K)) (n : Branch K) (Y : List (Branch K))
    (levels levels' : List (List (Branch K))) (L R : List (Item K)) (low : WithBot K) : Prop where
  nkeys : bt₅.nkeys = bt₂.nkeys
  size : bt₂.size < bt₅.size
  body : ∀ p, p < bt₂.size → p ∉ above levels → p ≠ n.ptr → SameBody (bt₂.heap p) (bt₅.heap p)
  parent : ∀ p, p < bt₂.size → p ∉ above levels → p ∉ (X ++ n :: Y).map Branch.ptr →
    p ∉ R.map snd → (bt₅.heap p).parent = (bt₂.heap p).parent
  left : Inner (bt₅.heap n.ptr) L
  right : Inner (bt₅.heap bt₂.size) R
  moved : ∀ p ∈ R.map snd, (bt₅.heap p).parent = some bt₂.size
  tower : Tower bt₅ levels' (X.map Branch.item ++ n.item :: (low, bt₂.size) :: Y.map Branch.item)
  nonempty : levels' ≠ []
  nodup : (above levels').Nodup
  lt : ∀ p ∈ above levels', p < bt₅.size
  old : ∀ p ∈ above levels', p ∈ above levels ∨ bt₂.size < p
  nlevel : bt₅.nlevel + levels.length = bt₂.nlevel + levels'.length

theorem divide (h : Place bt X n Y levels right) (hkids : n.kids = C ++ x :: D)
    (hLR : C ++ x :: (b, right) :: D = L ++ y :: R) (hL : L.length = order + 1) (hR : R.length = order)
    (hatt : Attached bt bt₂ n.ptr right (C ++ x :: (b, right) :: D))
    (hnew : Stored bt₂ { n with kids := C ++ x :: (b, right) :: D })
    (hold : ∀ m ∈ X ++ Y, Stored bt₂ m ∧ Sized levels m)
    (htower : Tower bt₂ levels ((X ++ n :: Y).map Branch.item))
    (hdiv : Divided bt₂ bt₅ X n Y levels levels' L (y :: R) y.1) :
    ∃ levels'', levels'' ≠ [] ∧
      Tower bt₅ levels'' (X.flatMap Branch.kids ++ (C ++ x :: (b, right) :: D) ++ Y.flatMap Branch.kids) ∧
      Kept bt bt₅ (above ((X ++ n :: Y) :: levels))
        (right :: ((X ++ n :: Y).flatMap Branch.kids).map snd) ∧
      Grown bt bt₅ ((X ++ n :: Y) :: levels) levels'' := by
  have hsize : bt₂.size = bt.size := by rw [hatt.record]
  have hn : n ∈ X ++ n :: Y := mem_append_right _ mem_cons_self
  have hcases : ∀ z ∈ L ++ y :: R, z = (b, right) ∨ z ∈ n.kids := fun z hz => mem_attached hkids (hLR ▸ hz)
  have hmoved : ∀ z ∈ y :: R, z ∈ L ++ y :: R := fun z hz => mem_append_right _ hz
  have hnodup : ((L ++ y :: R).map snd).Nodup := by
    have hperm : (C ++ x :: (b, right) :: D).Perm ((b, right) :: n.kids) := by
      rw [hkids]
      exact ((Perm.swap _ _ D).append_left C).trans perm_middle
    rw [← hLR, (hperm.map snd).nodup_iff, map_cons, nodup_cons]
    refine ⟨fun hp => ?_, h.nodup_kids⟩
    obtain ⟨z, hz, heq⟩ := mem_map.mp hp
    exact (h.kid hn hz).2.1 heq
  have hptrs : ∀ m ∈ X ++ n :: Y, m.ptr < bt₂.size ∧ m.ptr ∉ above levels := by
    intro m hm
    obtain ⟨hlt, -, hup⟩ := h.ptr (mem_map_of_mem hm)
    exact ⟨hsize.symm ▸ hlt, hup⟩
  refine ⟨(X ++ [{ n with kids := L }, ⟨y.1, bt₂.size, y :: R⟩] ++ Y) :: levels', by simp, ?_, ?_, ?_⟩
  · have htower' := @Tower.replace _ _ bt₅ X Y
      [{ n with kids := L }, ⟨y.1, bt₂.size, y :: R⟩] levels' (fun m hm => ⟨?_, ?_⟩)
      (fun m hm => ?_) (by simpa [Branch.item] using hdiv.tower)
    · rw [hLR]
      simpa using htower'
    · -- the other nodes of the level
      have hm' := mem_of_sibling (b := n) hm
      refine (hold m hm).1.congr (hdiv.body m.ptr (hptrs m hm').1 (hptrs m hm').2 (h.sibling hm).1) fun z hz => ?_
      obtain ⟨hlt, hne, hptr, hup⟩ := h.kid hm' hz
      refine hdiv.parent z.2 (hsize.symm ▸ hlt) hup hptr fun hp => ?_
      obtain ⟨w, hw, heq⟩ := mem_map.mp hp
      rcases hcases w (hmoved w hw) with rfl | hw
      · exact hne heq.symm
      · exact (h.sibling hm).2 z hz w hw heq.symm
    · -- a level with more than one node is not that of the root
      obtain ⟨htwo, hlt, hroot | hhalf⟩ := (hold m hm).2
      · subst hroot
        obtain ⟨p, hp, -⟩ := htower
        have hlen := congrArg length hp
        have hpos := length_pos_of_mem hm
        simp only [length_map, length_append, length_cons, length_nil] at hlen hpos
        omega
      · exact ⟨htwo, hlt, .inr hhalf⟩
    · rcases mem_pair.mp hm with rfl | rfl
      · refine ⟨⟨hdiv.left, fun z hz => hnew.first z ?_, fun z hz => ?_⟩, ?_⟩
        · change z ∈ (C ++ x :: (b, right) :: D).head?
          rw [hLR]
          cases L with
          | nil => simp at hz
          | cons w L => exact hz
        · have hz' : z ∈ L ++ y :: R := mem_append_left _ hz
          obtain ⟨hlt, hup, hptr⟩ := h.fresh hkids (hLR ▸ hz')
          refine (hdiv.parent z.2 (hsize.symm ▸ hlt) hup hptr fun hp => ?_).trans (hnew.parent z (by rw [hLR]; exact hz'))
          rw [map_append, nodup_append] at hnodup
          exact hnodup.2.2 z.2 (mem_map_of_mem hz) z.2 hp rfl
        · simp [Sized, hL, slots, order]
      · refine ⟨⟨hdiv.right, by simp, fun z hz => hdiv.moved z.2 (mem_map_of_mem hz)⟩, ?_⟩
        simp [Sized, hR, slots, order]
  · refine ⟨hdiv.nkeys.trans (by rw [hatt.record]), hsize ▸ hdiv.size.le, fun p hlt hp => ?_,
      fun p hlt hp hps => ?_⟩
    · rw [above_cons, mem_append, not_or] at hp
      have hne : p ≠ n.ptr := fun heq => hp.1 (heq ▸ mem_map_of_mem hn)
      exact (hatt.body p hne).trans (hdiv.body p (hsize.symm ▸ hlt) hp.2 hne)
    · rw [above_cons, mem_append, not_or] at hp
      rw [mem_cons, not_or] at hps
      refine (hdiv.parent p (hsize.symm ▸ hlt) hp.2 hp.1 fun hpR => ?_).trans (hatt.parents p hps.1)
      obtain ⟨z, hz, rfl⟩ := mem_map.mp hpR
      rcases hcases z (hmoved z hz) with rfl | hz
      · exact hps.1 rfl
      · exact hps.2 (mem_map_of_mem (mem_flatMap.mpr ⟨n, hn, hz⟩))
  · have hperm : (above ((X ++ [{ n with kids := L }, ⟨y.1, bt₂.size, y :: R⟩] ++ Y) :: levels')).Perm
        (bt.size :: ((X ++ n :: Y).map Branch.ptr ++ above levels')) := by
      rw [above_cons, hsize]
      simp only [map_append, map_cons, append_assoc, cons_append, nil_append]
      exact ((Perm.swap _ _ _).append_left _).trans perm_middle
    have hup : ∀ p ∈ above levels', p ∈ above levels ∨ bt.size < p := hsize ▸ hdiv.old
    refine ⟨?_, fun p hp => ?_, fun p hp => ?_, ?_⟩
    · rw [hperm.nodup_iff, nodup_cons, mem_append, not_or, nodup_append]
      refine ⟨⟨fun hp => (h.ptr hp).1.ne rfl, fun hp => ?_⟩, ?_, hdiv.nodup, fun p hp q hq heq => ?_⟩
      · exact (hup _ hp).elim (fun hp => (h.up hp).1.ne rfl) (lt_irrefl _)
      · exact (nodup_append.mp h.nodup_ptrs).1
      · subst heq
        exact (hup p hq).elim (h.ptr hp).2.2 fun hlt => lt_asymm hlt (h.ptr hp).1
    · rcases mem_cons.mp (hperm.mem_iff.mp hp) with rfl | hp
      · exact hsize ▸ hdiv.size
      · rcases mem_append.mp hp with hp | hp
        · exact (h.ptr hp).1.trans (hsize ▸ hdiv.size)
        · exact hdiv.lt p hp
    · rw [above_cons, mem_append]
      rcases mem_cons.mp (hperm.mem_iff.mp hp) with rfl | hp
      · exact .inr le_rfl
      · rcases mem_append.mp hp with hp | hp
        · exact .inl (.inl hp)
        · exact (hup p hp).elim (fun hp => .inl (.inr hp)) fun hlt => .inr hlt.le
    · have hnlevel := hdiv.nlevel
      have hsame : bt₂.nlevel = bt.nlevel := by rw [hatt.record]
      rw [length_cons, length_cons]
      omega

end Place

/-- What btree_insert_index does: it puts the new node `right` behind its left sibling. -/
def Inserts (V : Type) (c : KeyComparator K) (levels : List (List (Branch K))) : Prop :=
  ∀ (bt : Tree K V) (A B : List (Item K)) (x : Item K) (key : K) (right : Ptr) (fuel : ℕ),
    Tower bt levels (A ++ x :: B) → Increasing (A ++ x :: ((key : WithBot K), right) :: B) →
    (right :: ((A ++ x :: B).map snd ++ above levels)).Nodup →
    (∀ p ∈ right :: ((A ++ x :: B).map snd ++ above levels), p < bt.size) →
    levels.length < fuel →
    ∃ bt' levels', insertIndex c.cmp fuel bt key x.2 right = some bt' ∧
      Tower bt' levels' (A ++ x :: ((key : WithBot K), right) :: B) ∧ levels' ≠ [] ∧
      Kept bt bt' (above levels) (right :: (A ++ x :: B).map snd) ∧
      Grown bt bt' levels levels'

theorem Place.exists_divided {bt : Tree K V}
    (hspec : Inserts V c levels) (h : Place bt X n Y levels right)
    (hatt : Attached bt bt₂ n.ptr right kids) (hkids : kids = L ++ y :: R) (hL : L.length = order + 1)
    (hR : R.length = order) (hlt : ∀ z ∈ y :: R, z.2 < bt.size ∧ z.2 ∉ above levels ∧
      z.2 ∉ (X ++ n :: Y).map Branch.ptr)
    (htower : Tower bt₂ levels ((X ++ n :: Y).map Branch.item))
    (hinc : Increasing (X.map Branch.item ++ n.item :: (y.1, bt.size) :: Y.map Branch.item))
    (hfuel : levels.length < fuel) :
    ∃ bt₅ levels', ((((bt₂.heap n.ptr).read order).bind Slot.key).bind fun newkey =>
        (splitInternal bt₂ n.ptr).bind fun (bt, newparent) =>
        (insertIndex c.cmp fuel bt newkey n.ptr newparent).bind fun bt =>
        (bt.load newparent).bind fun nd => fixParents newparent (nd.nkeys + 1) 0 bt) = some bt₅ ∧
      Divided bt₂ bt₅ X n Y levels levels' L (y :: R) y.1 := by
  have hsize : bt₂.size = bt.size := by rw [hatt.record]
  have hn : n.ptr ∈ (X ++ n :: Y).map Branch.ptr := mem_map_of_mem (by simp)
  have hinner := hatt.inner
  rw [hkids] at hinner
  obtain ⟨k, hk, hread⟩ := hinner.middle (by rw [hL]; exact Nat.succ_pos _)
  rw [hL, Nat.add_sub_cancel] at hread
  obtain ⟨bt₃, hsplit, hsize₃, hrecord, hleft, hparent, hright, hother⟩ :=
    exists_splitInternal (hsize.symm ▸ (h.ptr hn).1) hinner hL (by rw [length_cons, hR])
  rw [hsize] at hsplit hsize₃ hright hother
  have hheap : ∀ p, p < bt.size → p ≠ n.ptr → bt₃.heap p = bt₂.heap p := fun p hp hne => hother p hne hp.ne
  have hparent₃ : ∀ p, p < bt.size → (bt₃.heap p).parent = (bt₂.heap p).parent := by
    intro p hp
    by_cases hne : p = n.ptr
    · rw [hne, hparent]
    · rw [hheap p hp hne]
  have htower₃ : Tower bt₃ levels (X.map Branch.item ++ n.item :: Y.map Branch.item) := by
    rw [map_append, map_cons] at htower
    refine htower.congr (by rw [hrecord]) (fun p hp => ?_) fun p hp => hparent₃ p ?_
    · refine .of_eq (hheap p (h.up hp).1 fun heq => (h.ptr hn).2.2 (heq ▸ hp))
    · rw [← map_cons, ← map_append, map_item_snd] at hp
      exact hp.elim (fun hp => (h.ptr hp).1) fun hp => (h.up hp).1
  have hptrs : (X.map Branch.item ++ n.item :: Y.map Branch.item).map snd =
      (X ++ n :: Y).map Branch.ptr := by
    rw [← map_item_snd, map_append (f := Branch.item), map_cons]
  have hnotptr : bt.size ∉ (X ++ n :: Y).map Branch.ptr := fun hp => (h.ptr hp).1.ne rfl
  have hnotup : bt.size ∉ above levels := fun hp => (h.up hp).1.ne rfl
  have hnodup₃ : (bt.size :: ((X.map Branch.item ++ n.item :: Y.map Branch.item).map snd ++
      above levels)).Nodup := by
    rw [hptrs, nodup_cons, mem_append, not_or]
    exact ⟨⟨hnotptr, hnotup⟩, h.nodup_ptrs⟩
  have hlt₃ : ∀ p ∈ bt.size :: ((X.map Branch.item ++ n.item :: Y.map Branch.item).map snd ++
      above levels), p < bt₃.size := by
    intro p hp
    rw [hsize₃]
    rw [hptrs, mem_cons, mem_append] at hp
    rcases hp with rfl | hp | hp
    · exact Nat.lt_succ_self _
    · exact Nat.lt_succ_of_lt (h.ptr hp).1
    · exact Nat.lt_succ_of_lt (h.up hp).1
  rw [hk] at hinc
  obtain ⟨bt₄, levels', hidx, htower₄, hne, hkept, hgrown⟩ := hspec bt₃ (X.map Branch.item)
    (Y.map Branch.item) n.item k bt.size fuel htower₃ hinc hnodup₃ hlt₃ hfuel
  -- the children of the new sibling
  have hlt₄ : bt.size < bt₄.size := lt_of_lt_of_le (hsize₃ ▸ Nat.lt_succ_self _) hkept.size
  have hright₄ := (hkept.body bt.size (hsize₃ ▸ Nat.lt_succ_self _) hnotup).inner hright
  obtain ⟨bt₅, hfix, hmoved⟩ := fixParents_spec (y :: R) bt₄ [] hlt₄ hright₄
    fun z hz => (hlt z hz).1.trans hlt₄
  have hbody : ∀ p, p < bt.size → p ∉ above levels → SameBody (bt₃.heap p) (bt₅.heap p) := fun p hp hup =>
    (hkept.body p (hsize₃ ▸ Nat.lt_succ_of_lt hp) hup).trans (hmoved.body p)
  have hnotmoved : ∀ p, p ∈ (X ++ n :: Y).map Branch.ptr ∨ bt.size ≤ p ∨ p ∈ above levels →
      p ∉ (y :: R).map snd := by
    intro p hp hmem
    obtain ⟨z, hz, rfl⟩ := mem_map.mp hmem
    obtain ⟨hzlt, hzup, hzptr⟩ := hlt z hz
    rcases hp with hp | hp | hp
    · exact hzptr hp
    · exact absurd hzlt (not_lt.mpr hp)
    · exact hzup hp
  refine ⟨bt₅, levels', ?_, ?_⟩
  · rw [hread, bind_some, hsplit, bind_some]
    change (insertIndex c.cmp fuel bt₃ k n.ptr bt.size).bind _ = _
    rw [show insertIndex c.cmp fuel bt₃ k n.ptr bt.size = some bt₄ from hidx, bind_some,
      load_of_lt hlt₄, bind_some, hright₄.nkeys]
    exact hfix
  · have hsize₅ : bt₅.size = bt₄.size := by rw [hmoved.record]
    refine ⟨?_, ?_, fun p hp hup hne => ?_, fun p hp hup hptr hR => ?_, ?_, ?_, ?_, ?_, hne, hgrown.nodup,
      fun p hp => hsize₅ ▸ hgrown.lt p hp, fun p hp => ?_, ?_⟩
    · have hnkeys := hkept.nkeys
      rw [hrecord] at hnkeys
      rw [hmoved.record]
      exact hnkeys
    · rw [hsize, hsize₅]
      exact hlt₄
    · rw [hsize] at hp
      exact (SameBody.of_eq (hheap p hp hne)).trans (hbody p hp hup)
    · rw [hsize] at hp
      rw [hmoved.other p hR]
      refine (hkept.parent p (hsize₃ ▸ Nat.lt_succ_of_lt hp) hup ?_).trans (hparent₃ p hp)
      rw [hptrs, mem_cons, not_or]
      exact ⟨hp.ne, hptr⟩
    · exact (hbody n.ptr (h.ptr hn).1 (h.ptr hn).2.2).inner hleft
    · rw [hsize]
      exact (hmoved.body _).inner hright₄
    · rw [hsize]
      exact hmoved.parent
    · rw [hsize, hk]
      refine htower₄.congr (by rw [hmoved.record]) (fun p _ => hmoved.body p) fun p hp => ?_
      rw [hmoved.other p (hnotmoved p ?_)]
      rcases hp with hp | hp
      · have hp : p = bt.size ∨ p ∈ (X.map Branch.item ++ n.item :: Y.map Branch.item).map snd := by
          simp only [map_append, map_cons, mem_append, mem_cons] at hp ⊢
          tauto
        rw [hptrs] at hp
        exact hp.elim (fun hp => .inr (.inl hp.ge)) .inl
      · rcases hgrown.old p hp with hp | hp
        · exact .inr (.inr hp)
        · exact .inr (.inl (le_trans (hsize₃ ▸ Nat.le_succ _) hp))
    · rw [hsize]
      exact (hgrown.old p hp).imp_right fun hp => lt_of_lt_of_le (hsize₃ ▸ Nat.lt_succ_self _) hp
    · have hnlevel := hgrown.nlevel
      rw [hrecord] at hnlevel
      rw [hmoved.record]
      exact hnlevel

theorem insertIndex_spec (levels : List (List (Branch K))) : Inserts V c levels := by
  induction levels with
  | nil =>
    intro bt A B x key right fuel htower hinc hnodup hlt hfuel
    obtain ⟨fuel, rfl⟩ : ∃ f, fuel = f + 1 := ⟨fuel - 1, by simp only [length_nil] at hfuel; omega⟩
    obtain ⟨p, hitems, hroot, hnone⟩ := htower
    obtain ⟨rfl, rfl, rfl⟩ : A = [] ∧ x = (⊥, p) ∧ B = [] := by
      cases A with
      | nil => simpa using hitems
      | cons y A => simp at hitems
    have hp : p < bt.size := hlt p (by simp)
    have hne : right ≠ p := by
      have := (nodup_cons.mp hnodup).1
      simpa [above] using this
    rw [insertIndex, load_of_lt hp, bind_some, hnone]
    exact newRoot_spec hp (hlt right (by simp)) hne
  | cons ns levels ih =>
    intro bt A B x key right fuel htower hinc hnodup hlt hfuel
    obtain ⟨fuel, rfl⟩ : ∃ f, fuel = f + 1 := ⟨fuel - 1, by simp only [length_cons] at hfuel; omega⟩
    obtain ⟨hitems, hnodes, htower⟩ := htower
    obtain ⟨X, n, Y, C, D, rfl, hkids, rfl, rfl⟩ := flatMap_eq_append_cons hitems
    have hplace : Place bt X n Y levels right := ⟨by rw [hitems]; exact hnodup, by rw [hitems]; exact hlt⟩
    have hmem : n ∈ X ++ n :: Y := mem_append_right _ mem_cons_self
    obtain ⟨hstored, hsized⟩ := hnodes n hmem
    obtain ⟨hPlt, hPr, hPup⟩ := hplace.ptr (mem_map_of_mem hmem)
    have hx : x ∈ n.kids := by rw [hkids]; simp
    -- the parent gets the child
    have hinner := hstored.inner
    rw [hkids] at hinner
    have hsub : (C ++ x :: ((key : WithBot K), right) :: D).Sublist
        (X.flatMap Branch.kids ++ C ++ x :: ((key : WithBot K), right) :: (D ++ Y.flatMap Branch.kids)) := by
      rw [append_assoc, ← cons_append, ← cons_append, ← append_assoc C]
      exact (sublist_append_left _ _).trans (sublist_append_right _ _)
    have hinc' : Increasing (C ++ x :: ((key : WithBot K), right) :: D) := hinc.sublist hsub
    obtain ⟨hxkey, hkeyD⟩ : x.1 < (key : WithBot K) ∧ ∀ y ∈ D, (key : WithBot K) < y.1 := by
      have h := (pairwise_append.mp hinc').2.1
      obtain ⟨h1, h2⟩ := pairwise_cons.mp h
      exact ⟨h1 _ mem_cons_self, (pairwise_cons.mp h2).1⟩
    obtain ⟨nd, hinsert, hinner', hkeep, -⟩ := hinner.insert (c := c) right
      (hinc'.sublist (by simp)) hxkey.le hkeyD (hkids ▸ hsized.2.1)
    obtain ⟨bt₁, bt₂, h₁, h₂, hatt⟩ := exists_attached hPlt hplace.right_lt hPr.symm hinsert hinner' hkeep
    obtain ⟨hold, htower₂⟩ := hplace.attached hatt (fun m hm => (hnodes m hm).1) htower
    have hsize₂ : bt₂.size = bt.size := by rw [hatt.record]
    have hPlt₂ : n.ptr < bt₂.size := hsize₂.symm ▸ hPlt
    have hold' : ∀ m ∈ X ++ Y, Stored bt₂ m ∧ Sized levels m := fun m hm =>
      ⟨hold m hm, (hnodes m (mem_of_sibling hm)).2⟩
    have hnew := hplace.stored_attached hkids hstored hatt
    have hlist : X.flatMap Branch.kids ++ C ++ x :: ((key : WithBot K), right) :: (D ++ Y.flatMap Branch.kids) =
        X.flatMap Branch.kids ++ (C ++ x :: ((key : WithBot K), right) :: D) ++ Y.flatMap Branch.kids := by
      simp
    have hrun : insertIndex c.cmp (fuel + 1) bt key x.2 right =
        if (bt₂.heap n.ptr).nkeys = 2 * order + 1 then
          (((bt₂.heap n.ptr).read order).bind Slot.key).bind fun newkey =>
          (splitInternal bt₂ n.ptr).bind fun (bt, newparent) =>
          (insertIndex c.cmp fuel bt newkey n.ptr newparent).bind fun bt =>
          (bt.load newparent).bind fun nd => fixParents newparent (nd.nkeys + 1) 0 bt
        else some bt₂ := by
      rw [insertIndex, load_of_lt (hplace.kid hmem hx).1, bind_some, hstored.parent x hx]
      simp only [h₁, h₂, bind_some, load_of_lt hPlt₂]
    rw [hlist, ← hitems]
    by_cases hfull : (bt₂.heap n.ptr).nkeys = 2 * order + 1
    · obtain ⟨L, y, R, hLR, hL, hR⟩ : ∃ L y R, C ++ x :: ((key : WithBot K), right) :: D = L ++ y :: R ∧
          L.length = order + 1 ∧ R.length = order := by
        have hnkeys := hatt.inner.nkeys
        rw [hfull] at hnkeys
        have hlt : order + 1 < (C ++ x :: ((key : WithBot K), right) :: D).length := by omega
        refine ⟨_, _, _, (take_append_drop (order + 1) _).symm.trans
          (by rw [drop_eq_getElem_cons hlt]), ?_, ?_⟩
        · rw [length_take]
          omega
        · rw [length_drop]
          omega
      have hup : Increasing (X.map Branch.item ++ n.item :: (y.1, bt.size) :: Y.map Branch.item) := by
        have hnodes' : ∀ m ∈ X ++ [{ n with kids := L }, ⟨y.1, bt.size, y :: R⟩] ++ Y,
            ∃ p rest, m.kids = (m.low, p) :: rest := by
          intro m hm
          rw [append_assoc, mem_append, mem_append, mem_pair] at hm
          rcases hm with hm | (rfl | rfl) | hm
          · exact (hnodes m (mem_append_left _ hm)).1.exists_first
          · obtain ⟨p, rest, hfirst⟩ := hnew.exists_first
            cases L with
            | nil => simp at hL
            | cons z L =>
              rw [hLR] at hfirst
              exact ⟨p, L, by rw [(cons.inj hfirst).1]⟩
          · exact ⟨y.2, R, rfl⟩
          · exact (hnodes m (mem_of_sibling (mem_append_right _ hm))).1.exists_first
        have hlevel := Increasing.up (X ++ [{ n with kids := L }, ⟨y.1, bt.size, y :: R⟩] ++ Y)
          (by rw [hlist, hLR] at hinc; simpa using hinc) hnodes'
        simpa [Branch.item] using hlevel
      obtain ⟨bt₅, levels', hrun', hdiv⟩ := hplace.exists_divided ih hatt hLR hL hR
        (fun z hz => hplace.fresh hkids (hLR ▸ mem_append_right L hz)) htower₂ hup
        (Nat.lt_of_succ_lt_succ hfuel)
      obtain ⟨levels'', hne, htower', hkept, hgrown⟩ :=
        hplace.divide hkids hLR hL hR hatt hnew hold' htower₂ hdiv
      exact ⟨bt₅, levels'', hrun.trans ((if_pos hfull).trans hrun'), htower', hne, hkept, hgrown⟩
    · rw [hrun, if_neg hfull]
      have hnkeys := hatt.inner.nkeys
      have hfits := hatt.inner.fits
      have hlen : (C ++ x :: ((key : WithBot K), right) :: D).length = n.kids.length + 1 := by
        rw [hkids]
        simp only [length_append, length_cons]
        omega
      obtain ⟨h2, hlt, hhalf⟩ := hsized
      have hsized' : Sized levels { n with kids := C ++ x :: ((key : WithBot K), right) :: D } := by
        refine ⟨?_, ?_, hhalf.imp_right fun h => ?_⟩
        · rw [hlen]
          omega
        · have hslots : slots = 2 * order + 2 := rfl
          change (C ++ x :: ((key : WithBot K), right) :: D).length < slots
          omega
        · rw [hlen]
          omega
      obtain ⟨htower', hkept, hgrown⟩ := hplace.room hatt hold' ⟨hnew, hsized'⟩ htower₂
      exact ⟨bt₂, _, rfl, htower', by simp, hkept, hgrown⟩

end Mosbench.Metis.BTree
