import Mosbench.Metis.BTreeInvariant
import Mosbench.Metis.BTreeIter

/-!
Freeing the nodes of a B+tree (btree_delete_level and pch_shallow_free in keyvals_btree.c).

An internal node has one child more than keys. The code visits a child for each key, so it leaves
out the last child of every internal node with all that is below it.
-/
namespace Mosbench.Metis.BTree

open List Option

/-- The tree and the nodes that are freed already. A freed node can neither be used nor freed again. -/
structure Released (K V : Type) where
  bt : Tree K V
  freed : List Ptr

namespace Released

def load (st : Released K V) (p : Ptr) : Option (Node K V) := if p ∈ st.freed then none else st.bt.load p

def clearVals (st : Released K V) (p : Ptr) (i : ℕ) : Option (Released K V) :=
  (st.load p).bind fun nd =>
  (nd.read i).bind fun s =>
  (nd.write i { s with vals := .null }).map fun nd => { st with bt := st.bt.store p nd }

def free (st : Released K V) (p : Ptr) : Option (Released K V) :=
  (st.load p).map fun _ => { st with freed := st.freed ++ [p] }

end Released

/-- `btree_delete_level`. The loop does not change the number of keys. -/
def deleteLevel : ℕ → Ptr → Released K V → Option (Released K V)
  | 0, _, _ => none
  | level + 1, node, st =>
    (if level = 0 then some st
      else (st.load node).bind fun nd => (List.range nd.nkeys).foldlM (fun st i =>
        (st.load node).bind fun nd =>
        (nd.childAt i).bind fun child =>
        (deleteLevel level child st).bind fun st => st.clearVals node i) st).bind
    fun st => st.free node

def release (bt : Tree K V) : Option (Released K V) :=
  if bt.nlevel = 0 then some ⟨bt, []⟩
  else
    bt.root.bind fun root =>
    (deleteLevel bt.nlevel root ⟨bt, []⟩).map fun st => { st with bt := shallowFree st.bt }

def under (bt : Tree K V) : ℕ → Ptr → List Ptr
  | 0, p => [p]
  | n + 1, p => (bt.heap p).kids.flatMap (under bt n) ++ [p]

def doomed (bt : Tree K V) : ℕ → Ptr → List Ptr
  | 0, p => [p]
  | n + 1, p => ((bt.heap p).kids.take (bt.heap p).nkeys).flatMap (doomed bt n) ++ [p]

def Subtree (bt : Tree K V) : ℕ → Ptr → Prop
  | 0, p => p < bt.size
  | n + 1, p => p < bt.size ∧ (bt.heap p).kids.length = (bt.heap p).nkeys + 1 ∧
      (∀ (i : ℕ) (child : Ptr), (bt.heap p).kids[i]? = some child → (bt.heap p).childAt i = some child) ∧
      ∀ child ∈ (bt.heap p).kids, Subtree bt n child

variable {bt : Tree K V}

theorem mem_under_self (bt : Tree K V) (n : ℕ) (p : Ptr) : p ∈ under bt n p := by
  cases n <;> simp [under]

theorem flatMap_sublist {f g : α → List β} (h : ∀ a, (f a).Sublist (g a)) (l : List α) :
    (l.flatMap f).Sublist (l.flatMap g) := by
  induction l with
  | nil => exact .refl _
  | cons a l ih =>
    rw [flatMap_cons, flatMap_cons]
    exact (h a).append ih

theorem doomed_sublist (bt : Tree K V) (n : ℕ) (p : Ptr) : (doomed bt n p).Sublist (under bt n p) := by
  induction n generalizing p with
  | zero => exact .refl _
  | succ n ih =>
    refine Sublist.append ((flatMap_sublist ih _).trans ?_) (.refl _)
    nth_rewrite 2 [← take_append_drop (bt.heap p).nkeys (bt.heap p).kids]
    rw [flatMap_append]
    exact sublist_append_left _ _

theorem Subtree.lt (h : Subtree bt n p) : p < bt.size := by
  cases n with
  | zero => exact h
  | succ n => exact h.1

theorem length_doomed_lt (h : Subtree bt (n + 1) p) : (doomed bt (n + 1) p).length < (under bt (n + 1) p).length := by
  obtain ⟨-, hlen, -⟩ := h
  rcases eq_nil_or_concat (bt.heap p).kids with hnil | ⟨front, last, hkids⟩
  · simp [hnil] at hlen
  rw [concat_eq_append] at hkids
  rw [hkids, length_append, length_singleton, Nat.add_right_cancel_iff] at hlen
  have hle := (flatMap_sublist (doomed_sublist bt n) front).length_le
  have hpos : 0 < (under bt n last).length := length_pos_of_mem (mem_under_self bt n last)
  rw [doomed, under, hkids, take_left' hlen, flatMap_append, flatMap_singleton]
  simp only [length_append]
  omega

def Intact (bt : Tree K V) (st : Released K V) (ps : List Ptr) : Prop := ∀ p ∈ ps, st.bt.heap p = bt.heap p ∧ p ∉ st.freed

structure Frees (st st' : Released K V) (ps qs : List Ptr) : Prop where
  freed : st'.freed = st.freed ++ ps
  heap : ∀ q ∉ qs, st'.bt.heap q = st.bt.heap q
  size : st'.bt.size = st.bt.size

section

variable {st : Released K V}

theorem Released.load_eq (hlt : p < st.bt.size) (hp : p ∉ st.freed) : st.load p = some (st.bt.heap p) := by
  rw [Released.load, if_neg hp, load_of_lt hlt]

theorem Released.free_eq (hlt : p < st.bt.size) (hp : p ∉ st.freed) :
    st.free p = some { st with freed := st.freed ++ [p] } := by
  rw [Released.free, Released.load_eq hlt hp]
  rfl

structure Cleared (nd nd' : Node K V) (m : ℕ) : Prop where
  nkeys : nd'.nkeys = nd.nkeys
  arr : ∀ i, m ≤ i → nd'.arr i = nd.arr i

theorem Released.clearVals_eq (hlt : p < st.bt.size) (hp : p ∉ st.freed) (hm : m < slots)
    (hnd : Cleared nd (st.bt.heap p) m) :
    ∃ st', st.clearVals p m = some st' ∧ Frees st st' [] [p] ∧ Cleared nd (st'.bt.heap p) (m + 1) := by
  let nd' : Node K V :=
    { st.bt.heap p with arr := Function.update (st.bt.heap p).arr m { (st.bt.heap p).arr m with vals := .null } }
  have hrun : st.clearVals p m = some { st with bt := st.bt.store p nd' } := by
    rw [Released.clearVals, Released.load_eq hlt hp, bind_some, read_of_lt hm, bind_some, write_of_lt hm]
    rfl
  refine ⟨_, hrun, ⟨(append_nil _).symm, fun q hq => ?_, rfl⟩, ?_⟩
  · exact heap_store_of_ne fun heq => hq (heq ▸ mem_singleton_self p)
  · simp only [heap_store_self]
    refine ⟨hnd.nkeys, fun i hi => ?_⟩
    rw [← hnd.arr i (by omega)]
    exact Function.update_of_ne (by omega) _ _

theorem Frees.trans (h : Frees st st₁ ps qs)
    (h' : Frees st₁ st₂ ps' qs') : Frees st st₂ (ps ++ ps') (qs ++ qs') := by
  refine ⟨by rw [h'.freed, h.freed, append_assoc], fun q hq => ?_, h'.size.trans h.size⟩
  rw [mem_append, not_or] at hq
  exact (h'.heap q hq.2).trans (h.heap q hq.1)

theorem lt_slots_of_childAt {nd : Node K V} (h : nd.childAt i = some child) : i < slots := by
  by_contra hge
  rw [Node.childAt, Node.read, if_neg hge] at h
  cases h

theorem deleteKids (hsub : Subtree bt (n + 1) p) (hnodup : (under bt (n + 1) p).Nodup) (hsize : st.bt.size = bt.size)
    (hintact : Intact bt st (under bt (n + 1) p))
    (hchild : ∀ child ∈ (bt.heap p).kids, ∀ st : Released K V, st.bt.size = bt.size → Intact bt st (under bt n child) →
      ∃ st', deleteLevel (n + 1) child st = some st' ∧ Frees st st' (doomed bt n child) (under bt n child))
    (hm : m ≤ (bt.heap p).nkeys) :
    ∃ st', (range m).foldlM (fun st i => (st.load p).bind fun nd => (nd.childAt i).bind fun child =>
        (deleteLevel (n + 1) child st).bind fun st => st.clearVals p i) st = some st' ∧
      Frees st st' (((bt.heap p).kids.take m).flatMap (doomed bt n)) (((bt.heap p).kids.take m).flatMap (under bt n) ++ [p]) ∧
      Cleared (bt.heap p) (st'.bt.heap p) m := by
  obtain ⟨hlt, hlen, hkids, -⟩ := hsub
  rw [under] at hnodup hintact
  obtain ⟨hnodup, -, hself⟩ := nodup_append.mp hnodup
  have hp : p ∉ (bt.heap p).kids.flatMap (under bt n) := fun hmem => hself p hmem p (mem_singleton_self p) rfl
  obtain ⟨hheap, hpfreed⟩ := hintact p (mem_append_right _ (mem_singleton_self p))
  induction m with
  | zero =>
    refine ⟨st, rfl, ⟨(append_nil _).symm, fun _ _ => rfl, rfl⟩, ?_⟩
    rw [hheap]
    exact ⟨rfl, fun _ _ => rfl⟩
  | succ m ih =>
    obtain ⟨st₁, hrun, hfrees, hcleared⟩ := ih (by omega)
    have hmlt : m < (bt.heap p).kids.length := by omega
    obtain ⟨child, hget⟩ : ∃ child, (bt.heap p).kids[m]? = some child := ⟨_, getElem?_eq_getElem hmlt⟩
    have hslot := lt_slots_of_childAt (hkids m child hget)
    have htake : (bt.heap p).kids.take (m + 1) = (bt.heap p).kids.take m ++ [child] := by
      rw [take_add_one, hget]
      rfl
    have hmem : child ∈ (bt.heap p).kids := mem_of_getElem? hget
    -- the subtree of the child has nothing in common with those before it
    have happart : ∀ q ∈ under bt n child, q ∉ ((bt.heap p).kids.take m).flatMap (under bt n) := by
      have hnodup' := hnodup
      rw [← take_append_drop (m + 1) (bt.heap p).kids, htake, flatMap_append, flatMap_append,
        flatMap_singleton] at hnodup'
      have hdisj := (nodup_append.mp (nodup_append.mp hnodup').1).2.2
      exact fun q hq hq' => hdisj q hq' q hq rfl
    have hbefore : ∀ q, q ∉ ((bt.heap p).kids.take m).flatMap (under bt n) → q ∉ st.freed → q ∉ st₁.freed := by
      intro q hq hfree hmem'
      rw [hfrees.freed, mem_append] at hmem'
      exact hq ((flatMap_sublist (doomed_sublist bt n) _).subset (hmem'.resolve_left hfree))
    have hptake : p ∉ ((bt.heap p).kids.take m).flatMap (under bt n) := fun hmem' => by
      obtain ⟨q, hq, hpq⟩ := mem_flatMap.mp hmem'
      exact hp (mem_flatMap.mpr ⟨q, mem_of_mem_take hq, hpq⟩)
    have hpchild : p ∉ under bt n child := fun hpc => hp (mem_flatMap.mpr ⟨child, hmem, hpc⟩)
    have hsize₁ : st₁.bt.size = bt.size := hfrees.size.trans hsize
    have hpfreed₁ : p ∉ st₁.freed := hbefore p hptake hpfreed
    have hintact₁ : Intact bt st₁ (under bt n child) := by
      intro q hq
      obtain ⟨hsame, hfree⟩ := hintact q (mem_append_left _ (mem_flatMap.mpr ⟨child, hmem, hq⟩))
      have hnot : q ∉ ((bt.heap p).kids.take m).flatMap (under bt n) ++ [p] := by
        rw [mem_append, mem_singleton, not_or]
        exact ⟨happart q hq, fun heq => hpchild (heq ▸ hq)⟩
      exact ⟨(hfrees.heap q hnot).trans hsame, hbefore q (happart q hq) hfree⟩
    obtain ⟨st₂, hdelete, hfrees₂⟩ := hchild child hmem st₁ hsize₁ hintact₁
    have hpfreed₂ : p ∉ st₂.freed := by
      rw [hfrees₂.freed, mem_append, not_or]
      exact ⟨hpfreed₁, fun hmem' => hpchild ((doomed_sublist bt n child).subset hmem')⟩
    have hlt₂ : p < st₂.bt.size := by rwa [hfrees₂.size, hsize₁]
    obtain ⟨st₃, hclear, hfrees₃, hcleared₃⟩ := Released.clearVals_eq hlt₂ hpfreed₂ hslot ((hfrees₂.heap p hpchild).symm ▸ hcleared)
    have hchildAt : (st₁.bt.heap p).childAt m = some child := by
      rw [← hkids m child hget, Node.childAt, Node.childAt, Node.read, Node.read, hcleared.arr m le_rfl]
    refine ⟨st₃, ?_, ?_, hcleared₃⟩
    · rw [range_succ, foldlM_append, hrun]
      simp only [bind_eq_bind, bind_some, foldlM_cons, foldlM_nil]
      rw [Released.load_eq (hsize₁ ▸ hlt) hpfreed₁, bind_some, hchildAt, bind_some, hdelete,
        bind_some, hclear]
      rfl
    · have hall := (hfrees.trans hfrees₂).trans hfrees₃
      rw [htake, flatMap_append, flatMap_append, flatMap_singleton, flatMap_singleton]
      refine ⟨by rw [hall.freed, append_nil], fun q hq => hall.heap q ?_, hall.size⟩
      simp only [mem_append, mem_singleton, not_or] at hq ⊢
      exact ⟨⟨⟨hq.1.1, hq.2⟩, hq.1.2⟩, hq.2⟩

theorem deleteLevel_spec (hsub : Subtree bt n p) (hnodup : (under bt n p).Nodup) (hsize : st.bt.size = bt.size)
    (hintact : Intact bt st (under bt n p)) :
    ∃ st', deleteLevel (n + 1) p st = some st' ∧ Frees st st' (doomed bt n p) (under bt n p) := by
  induction n generalizing p st with
  | zero =>
    obtain ⟨-, hp⟩ := hintact p (mem_under_self bt 0 p)
    have hfree := Released.free_eq (hsize ▸ hsub.lt) hp
    refine ⟨{ st with freed := st.freed ++ [p] }, ?_, ⟨rfl, fun _ _ => rfl, rfl⟩⟩
    rw [deleteLevel, if_pos rfl, bind_some, hfree]
  | succ n ih =>
    obtain ⟨hheap, hp⟩ := hintact p (mem_under_self bt (n + 1) p)
    have hchildren : ∀ child ∈ (bt.heap p).kids, Subtree bt n child ∧ (under bt n child).Nodup := by
      intro child hchild
      have hkids : ((bt.heap p).kids.flatMap (under bt n)).Nodup := (nodup_append.mp hnodup).1
      exact ⟨hsub.2.2.2 child hchild, (nodup_flatMap.mp hkids).1 child hchild⟩
    obtain ⟨st₁, hrun, hfrees, -⟩ := deleteKids hsub hnodup hsize hintact
      (fun child hchild st hsize hintact => ih (hchildren child hchild).1 (hchildren child hchild).2 hsize hintact) le_rfl
    have hpkids : p ∉ (bt.heap p).kids.flatMap (under bt n) := fun hmem =>
      (nodup_append.mp hnodup).2.2 p hmem p (mem_singleton_self p) rfl
    have hp₁ : p ∉ st₁.freed := by
      rw [hfrees.freed, mem_append, not_or]
      refine ⟨hp, fun hmem => ?_⟩
      obtain ⟨q, hq, hpq⟩ := mem_flatMap.mp hmem
      exact hpkids (mem_flatMap.mpr ⟨q, mem_of_mem_take hq, (doomed_sublist bt n q).subset hpq⟩)
    have hlt₁ : p < st₁.bt.size := by
      rw [hfrees.size, hsize]
      exact hsub.lt
    refine ⟨{ st₁ with freed := st₁.freed ++ [p] }, ?_, ⟨by rw [hfrees.freed, append_assoc]; rfl, fun q hq => hfrees.heap q fun hmem => hq ?_, hfrees.size⟩⟩
    · rw [deleteLevel, if_neg (Nat.succ_ne_zero n), Released.load_eq (hsize ▸ hsub.lt) hp, bind_some, hheap, hrun,
        bind_some, Released.free_eq hlt₁ hp₁]
    · rw [under]
      rcases mem_append.mp hmem with hmem | hmem
      · obtain ⟨r, hr, hqr⟩ := mem_flatMap.mp hmem
        exact mem_append_left _ (mem_flatMap.mpr ⟨r, mem_of_mem_take hr, hqr⟩)
      · exact mem_append_right _ hmem

end

def below (bt : Tree K V) : ℕ → List Ptr → List Ptr
  | 0, ps => ps
  | d + 1, ps => below bt d (ps.flatMap fun p => (bt.heap p).kids)

theorem below_succ (bt : Tree K V) (d : ℕ) (ps : List Ptr) :
    below bt (d + 1) ps = (below bt d ps).flatMap fun p => (bt.heap p).kids := by
  induction d generalizing ps with
  | zero => rfl
  | succ d ih => exact ih _

theorem nodesAt_eq_below (bt : Tree K V) (d : ℕ) : nodesAt bt d = below bt d bt.root.toList := by
  induction d with
  | zero => rfl
  | succ d ih => rw [nodesAt, ih, below_succ]

theorem under_perm (bt : Tree K V) (n : ℕ) (ps : List Ptr) :
    (ps.flatMap (under bt n)).Perm ((range (n + 1)).flatMap fun d => below bt d ps) := by
  induction n generalizing ps with
  | zero => simp [under, below]
  | succ n ih =>
    have hparts : (ps.flatMap (under bt (n + 1))).Perm ((ps.flatMap fun p => (bt.heap p).kids.flatMap (under bt n)) ++
        ps.flatMap fun p => [p]) := (flatMap_append_perm ps _ _).symm
    rw [← flatMap_assoc, flatMap_singleton'] at hparts
    refine hparts.trans (((ih _).append_right ps).trans (perm_append_comm.trans ?_))
    have hrange : range (n + 1 + 1) = 0 :: (range (n + 1)).map Nat.succ := range_succ_eq_map
    rw [hrange, flatMap_cons, flatMap_map]
    exact .refl _

def reachable (bt : Tree K V) : List Ptr := (List.range bt.nlevel).flatMap (nodesAt bt)

theorem under_root_perm (hroot : bt.root = some root) (hlevel : bt.nlevel = n + 1) :
    (under bt n root).Perm (reachable bt) := by
  have hperm := under_perm bt n [root]
  rw [flatMap_singleton] at hperm
  refine hperm.trans ?_
  rw [reachable, hlevel]
  refine Perm.of_eq (flatMap_congr fun d _ => ?_)
  rw [nodesAt_eq_below, hroot]
  rfl

theorem childAt_of_kids {nd : Node K V} (hlen : nd.kids.length = nd.nkeys + 1) (hfits : nd.nkeys < slots)
    (hi : nd.kids[i]? = some child) : nd.childAt i = some child := by
  have hall : ∀ i ∈ range (nd.nkeys + 1), (nd.arr i).child.isSome = true :=
    filterMap_length_eq_length.mp (hlen.trans length_range.symm)
  let kids := (range (nd.nkeys + 1)).map fun i => ((nd.arr i).child).getD 0
  have hkids : nd.kids = kids := by
    have hklen : kids.length = nd.nkeys + 1 := by simp [kids]
    rw [Node.kids, ← hklen, filterMap_range _ le_rfl, take_length]
    intro j hj
    obtain ⟨q, hq⟩ := isSome_iff_exists.mp (hall j (mem_range.mpr (hklen ▸ hj)))
    simp [kids, hq]
  rw [hkids, getElem?_map] at hi
  obtain ⟨j, hj, rfl⟩ := map_eq_some_iff.mp hi
  obtain ⟨hlt, hij⟩ := List.getElem?_eq_some_iff.mp hj
  rw [getElem_range] at hij
  subst hij
  rw [length_range] at hlt
  obtain ⟨q, hq⟩ := isSome_iff_exists.mp (hall i (mem_range.mpr hlt))
  rw [Node.childAt, read_of_lt (by omega), bind_some, hq]
  rfl

section Whole

variable [LinearOrder K]

theorem WellFormed.subtree (h : WellFormed bt) (hlt : ∀ p ∈ reachable bt, p < bt.size) (hd : d + n + 1 = bt.nlevel)
    (hp : p ∈ nodesAt bt d) : Subtree bt n p := by
  induction n generalizing d p with
  | zero => exact hlt p (mem_flatMap.mpr ⟨d, mem_range.mpr (by omega), hp⟩)
  | succ n ih =>
    obtain ⟨-, hlen⟩ := h.inner d (by omega) p hp
    obtain ⟨-, hsix, -⟩ := h.inner_size d (by omega) p hp
    have hslots : slots = 8 := rfl
    refine ⟨hlt p (mem_flatMap.mpr ⟨d, mem_range.mpr (by omega), hp⟩), hlen,
      fun i child hi => childAt_of_kids hlen (by omega) hi, fun child hchild => ?_⟩
    exact ih (d := d + 1) (by omega) (mem_flatMap.mpr ⟨p, hp, hchild⟩)

theorem WellFormed.two_le_length_nodesAt (h : WellFormed bt) (hroot : bt.root = some root)
    (hd : d + 1 < bt.nlevel) : 2 ≤ (nodesAt bt (d + 1)).length := by
  have hnode : ∃ p, p ∈ nodesAt bt d := by
    induction d with
    | zero => exact ⟨root, by rw [nodesAt, hroot]; exact mem_singleton_self root⟩
    | succ d ih =>
      obtain ⟨p, hp⟩ := ih (by omega)
      obtain ⟨-, hlen⟩ := h.inner d (by omega) p hp
      have hpos : 0 < (bt.heap p).kids.length := by omega
      exact ⟨_, mem_flatMap.mpr ⟨p, hp, getElem_mem hpos⟩⟩
  obtain ⟨p, hp⟩ := hnode
  obtain ⟨-, hlen⟩ := h.inner d hd p hp
  obtain ⟨hone, -⟩ := h.inner_size d hd p hp
  obtain ⟨X, Y, hXY⟩ := append_of_mem hp
  rw [nodesAt, hXY, flatMap_append, flatMap_cons, length_append, length_append]
  omega

theorem WellFormed.nlevel_le_one_iff (h : WellFormed bt) (hroot : bt.root = some root) :
    bt.nlevel ≤ 1 ↔ getLen bt ≤ 7 := by
  rw [getLen, h.nkeys]
  constructor
  · intro hle
    have hleaves : leaves bt = [root] := by
      rw [leaves, show bt.nlevel - 1 = 0 by omega, nodesAt, hroot]
      rfl
    have hsize := (h.leaf_size root (by rw [hleaves]; exact mem_singleton_self root)).1
    rw [hleaves]
    simpa using hsize
  · intro hle
    by_contra hlevel
    have htwo : 2 ≤ (leaves bt).length := by
      have := h.two_le_length_nodesAt hroot (d := bt.nlevel - 2) (by omega)
      rwa [show bt.nlevel - 2 + 1 = bt.nlevel - 1 by omega] at this
    have hfour : ∀ x ∈ (leaves bt).map fun p => (bt.heap p).nkeys, 4 ≤ x := by
      intro x hx
      obtain ⟨p, hp, rfl⟩ := mem_map.mp hx
      exact (h.leaf_size p hp).2 (by omega)
    obtain ⟨p, ps, hps⟩ := exists_cons_of_length_pos (show 0 < (leaves bt).length by omega)
    obtain ⟨q, qs, rfl⟩ := exists_cons_of_length_pos (show 0 < ps.length by rw [hps, length_cons] at htwo; omega)
    rw [hps, map_cons, map_cons] at hfour hle
    obtain ⟨hp, hq, -⟩ := forall_mem_cons.mp hfour |>.imp_right forall_mem_cons.mp
    rw [sum_cons, sum_cons] at hle
    omega

theorem exists_release (h : Valid bt pages levels) (hsized : ∀ l ∈ pages, PageSized levels l) :
    ∃ st, release bt = some st ∧ st.bt.nlevel = 0 ∧ st.freed.Nodup ∧ (∀ p ∈ st.freed, p ∈ reachable bt) ∧
      ((∀ p ∈ reachable bt, p ∈ st.freed) ↔ getLen bt ≤ 7) := by
  have hformed := h.wellFormed hsized
  have hlevel := h.nlevel
  obtain ⟨root, -, -, hroot, -⟩ := h.tower.leftmost_eq fun p hp => h.lt p (mem_append_right _ hp)
  have hlt : ∀ p ∈ reachable bt, p < bt.size := by
    intro p hp
    rw [reachable, hlevel, h.tower.nodes_perm.mem_iff, map_page_item_snd] at hp
    exact h.lt p hp
  have hperm := under_root_perm hroot hlevel
  have hnodup : (under bt levels.length root).Nodup := hperm.nodup_iff.mpr hformed.distinct
  have hsub : Subtree bt levels.length root := by
    refine hformed.subtree hlt (d := 0) (by omega) ?_
    rw [nodesAt, hroot]
    exact mem_singleton_self root
  have hintact : Intact bt ⟨bt, []⟩ (under bt levels.length root) := fun p _ => ⟨rfl, not_mem_nil⟩
  obtain ⟨st, hdelete, hfrees⟩ := deleteLevel_spec hsub hnodup rfl hintact
  have hfreed : st.freed = doomed bt levels.length root := hfrees.freed
  refine ⟨{ st with bt := shallowFree st.bt }, ?_, rfl, ?_, fun p hp => ?_, ?_⟩
  · rw [release, if_neg (by omega), hroot, bind_some, hlevel, hdelete]
    rfl
  · rw [hfreed]
    exact (doomed_sublist bt _ root).nodup hnodup
  · rw [hfreed] at hp
    exact hperm.subset ((doomed_sublist bt _ root).subset hp)
  · rw [← hformed.nlevel_le_one_iff hroot, hlevel, hfreed]
    constructor
    · intro hall
      by_contra hle
      obtain ⟨m, hm⟩ := Nat.exists_eq_add_one_of_ne_zero (show levels.length ≠ 0 by omega)
      rw [hm] at hall hperm hnodup hsub
      have hlen := (subperm_of_subset hnodup fun p hp => hall p (hperm.subset hp)).length_le
      exact absurd (length_doomed_lt hsub) (not_lt.mpr hlen)
    · intro hle p hp
      have hzero : levels.length = 0 := by omega
      rw [hzero] at hperm ⊢
      exact hperm.symm.subset hp

omit [LinearOrder K] in
/-- Insertions into a tree without levels start a new tree, whatever else is left of the old one. -/
theorem run_eq_of_nlevel_zero (cmp : K → K → ℤ) (hlevel : bt.nlevel = 0) (call : Call K V) :
    call.run cmp bt = call.run cmp { bt with nkeys := 0 } := by
  have hleaf : ∀ key, getLeaf cmp bt key = getLeaf cmp { bt with nkeys := 0 } key := by
    intro key
    rw [getLeaf, getLeaf, if_pos hlevel, if_pos hlevel]
    rfl
  cases call with
  | insertKv key val hash => rw [Call.run, Call.run, insertKv, insertKv, insertKvWith, insertKvWith, hleaf]
  | insertKvs kvs => rw [Call.run, Call.run, insertKvs, insertKvs, hleaf]

theorem represents_of_later_calls {c : KeyComparator K} (hlevel : bt.nlevel = 0)
    (hnew : NewPairs later) (hne : later ≠ []) :
    ∃ bt', later.foldlM (Call.run c.cmp) bt = some bt' ∧ Represents bt' (later.foldl Call.effect []) ∧
      later.foldl Call.effect [] ≠ [] := by
  have hempty : Represents { bt with nkeys := 0 } [] := .inl ⟨hlevel, rfl, rfl⟩
  obtain ⟨bt', hrun, hrep, hkeys⟩ := represents_of_calls (c := c) hempty later hnew
  obtain ⟨call, later, rfl⟩ := exists_cons_of_ne_nil hne
  refine ⟨bt', ?_, hrep, fun hnil => ?_⟩
  · rw [foldlM_cons, run_eq_of_nlevel_zero c.cmp hlevel, ← foldlM_cons, hrun]
  · have hmem := (hkeys call.key).mpr (by simp)
    rw [hnil] at hmem
    exact absurd hmem not_mem_nil

/-- pch_shallow_free on a tree that was built by insertions: it frees no node twice and only nodes of
the tree, but all of them only as long as there are at most seven keys. The tree is empty then:
whatever becomes of its memory, an iteration finds nothing, and later insertions find only each
other. -/
theorem release_spec (c : KeyComparator K) (calls : List (Call K V)) (hnew : NewPairs calls) :
    ∃ bt st, calls.foldlM (Call.run c.cmp) Tree.init = some bt ∧ release bt = some st ∧ st.freed.Nodup ∧
      (∀ p ∈ st.freed, p ∈ reachable bt) ∧ ((∀ p ∈ reachable bt, p ∈ st.freed) ↔ getLen bt ≤ 7) ∧
      ∀ (heap : Ptr → Node K V) (size : ℕ), iterBegin { st.bt with heap := heap, size := size } = some none ∧
        ∀ later : List (Call K V), NewPairs later → later ≠ [] →
          ∃ bt', later.foldlM (Call.run c.cmp) { st.bt with heap := heap, size := size } = some bt' ∧
            copyKvs bt' = some (later.foldl Call.effect []) ∧
            ∃ iter, iterBegin bt' = some (some iter) ∧
              ∀ bclear, Iterator.Yields (iterNext bclear) (bt', iter) (later.foldl Call.effect []) := by
  obtain ⟨bt, hrun, hrep, -⟩ := represents_of_calls (c := c) represents_init calls hnew
  have hrelease : ∃ st, release bt = some st ∧ st.bt.nlevel = 0 ∧ st.freed.Nodup ∧ (∀ p ∈ st.freed, p ∈ reachable bt) ∧
      ((∀ p ∈ reachable bt, p ∈ st.freed) ↔ getLen bt ≤ 7) := by
    rcases hrep with ⟨hlevel, hnkeys, -⟩ | ⟨pages, levels, hvalid, hsized, -, -⟩
    · refine ⟨⟨bt, []⟩, by rw [release, if_pos hlevel], hlevel, nodup_nil, fun p hp => absurd hp not_mem_nil, ?_⟩
      rw [reachable, hlevel, getLen, hnkeys]
      exact iff_of_true (fun p hp => absurd hp not_mem_nil) (Nat.zero_le 7)
    · exact exists_release hvalid hsized
  obtain ⟨st, hst, hlevel, hnodup, hsubset, hall⟩ := hrelease
  refine ⟨bt, st, hrun, hst, hnodup, hsubset, hall, fun heap size => ⟨?_, fun later hlater hne => ?_⟩⟩
  · rw [iterBegin, if_pos hlevel]
  · have hempty : ({ st.bt with heap := heap, size := size } : Tree K V).nlevel = 0 := hlevel
    obtain ⟨bt', hrun', hrep', hne'⟩ := represents_of_later_calls (c := c) hempty hlater hne
    exact ⟨bt', hrun', copyKvs_spec hrep', (iterBegin_spec hrep').resolve_left fun hnil => hne' hnil.2⟩

end Whole

/-- Three keys, in one leaf. -/
theorem release_spec_three :
    ∃ bt st, ([Call.insertKv 5 0 0, .insertKvs ⟨3, Values.empty.insert 1, 0⟩, .insertKv 3 2 0] : List (Call ℕ ℕ)).foldlM
        (Call.run KeyComparator.difference.cmp) Tree.init = some bt ∧ release bt = some st ∧
      ∀ p ∈ reachable bt, p ∈ st.freed := by
  obtain ⟨bt, st, hrun, hst, -, -, hall, -⟩ := release_spec .difference
    ([Call.insertKv 5 0 0, .insertKvs ⟨3, Values.empty.insert 1, 0⟩, .insertKv 3 2 0] : List (Call ℕ ℕ))
    (by unfold NewPairs; decide)
  refine ⟨bt, st, hrun, hst, hall.mpr ?_⟩
  have hlen : (([Call.insertKv 5 0 0, .insertKvs ⟨3, Values.empty.insert 1, 0⟩, .insertKv 3 2 0] : List (Call ℕ ℕ)).foldlM
      (Call.run KeyComparator.difference.cmp) Tree.init).map getLen = some 2 := by decide +kernel
  rw [hrun] at hlen
  exact (some.inj hlen).trans_le (by decide)

/-- Eight keys, in two leaves below a root: the second leaf is never freed. -/
theorem release_leaks_leaf :
    (((List.range 8).map fun i => Call.insertKv i i 0).foldlM (Call.run KeyComparator.difference.cmp) Tree.init).bind
      (fun bt : Tree ℕ ℕ => (release bt).map fun st => (reachable bt, st.freed)) = some ([2, 0, 1], [0, 2]) := by
  decide +kernel

end Mosbench.Metis.BTree
