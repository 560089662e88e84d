import Mathlib.Data.List.Induction
import Mosbench.Metis.BTreeInsert

/-!
The representation invariant of the B+tree, read off the heap: what is reached from the
root is a tree of uniform depth whose nodes are filled, ordered and linked as they should
be. It holds after every sequence of insertions, none of which uses a slot that a node
does not have.
-/
namespace Mosbench.Metis.BTree

open List Option

variable {V : Type} [LinearOrder K]

section

omit [LinearOrder K]

def Node.keys (nd : Node K V) : List K := (range nd.nkeys).filterMap fun i => (nd.arr i).key

def Node.kids (nd : Node K V) : List Ptr := (range (nd.nkeys + 1)).filterMap fun i => (nd.arr i).child

def Node.pairs (nd : Node K V) : List (KeyVals K V) :=
  (range nd.nkeys).filterMap fun i => (nd.arr i).keyVals

def nodesAt (bt : Tree K V) : ℕ → List Ptr
  | 0 => bt.root.toList
  | d + 1 => (nodesAt bt d).flatMap fun p => (bt.heap p).kids

def leaves (bt : Tree K V) : List Ptr := nodesAt bt (bt.nlevel - 1)

def keysUnder (bt : Tree K V) : ℕ → Ptr → List K
  | 0, p => (bt.heap p).keys
  | n + 1, p => (bt.heap p).keys ++ (bt.heap p).kids.flatMap (keysUnder bt n)

end

/-- The invariant. The root is 0 levels below the root, so that the leaves are
`nlevel - 1` levels below it. -/
structure WellFormed (bt : Tree K V) : Prop where
  inner : ∀ d, d + 1 < bt.nlevel → ∀ p ∈ nodesAt bt d,
    (bt.heap p).keys.length = (bt.heap p).nkeys ∧ (bt.heap p).kids.length = (bt.heap p).nkeys + 1
  leaf : ∀ p ∈ leaves bt, (bt.heap p).pairs.length = (bt.heap p).nkeys ∧
    (bt.heap p).keys = (bt.heap p).pairs.map KeyVals.key
  leaf_size : ∀ p ∈ leaves bt, (bt.heap p).nkeys ≤ 7 ∧ (1 < bt.nlevel → 4 ≤ (bt.heap p).nkeys)
  inner_size : ∀ d, d + 1 < bt.nlevel → ∀ p ∈ nodesAt bt d,
    1 ≤ (bt.heap p).nkeys ∧ (bt.heap p).nkeys ≤ 6 ∧ (0 < d → 3 ≤ (bt.heap p).nkeys)
  sorted : ∀ d, d < bt.nlevel → ∀ p ∈ nodesAt bt d, (bt.heap p).keys.Pairwise (· < ·)
  separates : ∀ d n, d + n + 2 = bt.nlevel → ∀ p ∈ nodesAt bt d,
    ∀ (i : ℕ) (k : K), (bt.heap p).keys[i]? = some k → ∀ (j : ℕ) (child : Ptr),
      (bt.heap p).kids[j]? = some child →
      (j ≤ i → ∀ x ∈ keysUnder bt n child, x < k) ∧ (i < j → ∀ x ∈ keysUnder bt n child, k ≤ x)
  root_parent : ∀ p ∈ nodesAt bt 0, (bt.heap p).parent = none
  parent : ∀ d, d + 1 < bt.nlevel → ∀ p ∈ nodesAt bt d, ∀ child ∈ (bt.heap p).kids,
    (bt.heap child).parent = some p
  distinct : ((range bt.nlevel).flatMap (nodesAt bt)).Nodup
  chain : Links.Chain (cells bt (leaves bt).head?) .head (leaves bt)
  nkeys : bt.nkeys = ((leaves bt).map fun p => (bt.heap p).nkeys).sum

section Nodes

omit [LinearOrder K]

theorem filterMap_range {f : ℕ → Option α} {l : List α} (n : ℕ) (hn : n ≤ l.length)
    (h : ∀ i (hi : i < l.length), f i = some l[i]) : (range n).filterMap f = l.take n := by
  induction n with
  | zero => rfl
  | succ n ih =>
    rw [range_succ, filterMap_append, ih (by omega), take_succ_eq_append_getElem hn]
    simp [h n hn]

theorem Inner.kids_eq (h : Inner nd kids) : nd.kids = kids.map Prod.snd := by
  have hlen : nd.nkeys + 1 = (kids.map Prod.snd).length := by rw [length_map, h.nkeys]
  rw [Node.kids, hlen, filterMap_range _ le_rfl, take_length]
  intro i hi
  rw [length_map] at hi
  have hvals := h.child i kids[i] (getElem?_eq_getElem hi)
  rw [getElem_map]
  generalize nd.arr i = s at hvals
  obtain ⟨key, vals, hash⟩ := s
  obtain rfl : vals = .node kids[i].2 := hvals
  rfl

theorem Inner.keys_eq (h : Inner nd kids) : nd.keys.map WithBot.some = kids.tail.map Prod.fst := by
  obtain ⟨ks, hks, hlen, hholds⟩ := h.exists_keys
  have hnkeys := h.nkeys
  have hfits := h.fits
  have hkeys : nd.keys = ks := by
    rw [Node.keys, ← hlen, filterMap_range _ le_rfl, take_length]
    intro i hi
    have hget := hholds.get hi
    rwa [Node.keyAt, if_pos (by omega), Int.toNat_natCast, read_of_lt (by omega), bind_some] at hget
  rw [hkeys, hks]

theorem Leaf.pairs_eq (h : Leaf nd es) : nd.pairs = es := by
  rw [Node.pairs, h.nkeys, filterMap_range _ le_rfl, take_length]
  intro i hi
  rw [h.pair i es[i] (getElem?_eq_getElem hi), Slot.keyVals_ofKeyVals]

theorem Leaf.keys_eq (h : Leaf nd es) : nd.keys = es.map KeyVals.key := by
  have hlen : nd.nkeys = (es.map KeyVals.key).length := by rw [length_map, h.nkeys]
  rw [Node.keys, hlen, filterMap_range _ le_rfl, take_length]
  intro i hi
  rw [length_map] at hi
  rw [h.pair i es[i] (getElem?_eq_getElem hi), getElem_map]
  rfl

end Nodes

section Levels

variable {bt : Tree K V}

section

omit [LinearOrder K]

theorem kids_of_stored {ns : List (Branch K)} (h : ∀ n ∈ ns, Stored bt n) :
    (ns.map Branch.ptr).flatMap (fun p => (bt.heap p).kids) = (ns.flatMap Branch.kids).map Prod.snd := by
  rw [flatMap_map, map_flatMap]
  exact flatMap_congr fun n hn => (h n hn).inner.kids_eq

theorem Tower.nodesAt_eq (h : Tower bt levels items) :
    nodesAt bt levels.length = items.map Prod.snd := by
  induction levels generalizing items with
  | nil =>
    obtain ⟨p, rfl, hroot, -⟩ := h
    rw [length_nil, nodesAt, hroot]
    rfl
  | cons ns levels ih =>
    obtain ⟨rfl, hnodes, htower⟩ := h
    rw [length_cons, nodesAt, ih htower, map_item_snd, kids_of_stored fun n hn => (hnodes n hn).1]

theorem Tower.nodes_perm (h : Tower bt levels items) :
    ((range (levels.length + 1)).flatMap (nodesAt bt)).Perm (items.map Prod.snd ++ above levels) := by
  induction levels generalizing items with
  | nil =>
    have hnodes := h.nodesAt_eq
    rw [length_nil] at hnodes ⊢
    simp [hnodes, above]
  | cons ns levels ih =>
    have hnodes := h.nodesAt_eq
    have hperm := ih h.2.2
    rw [map_item_snd] at hperm
    rw [length_cons, range_succ, flatMap_append, flatMap_singleton,
      ← length_cons (a := ns), hnodes, above_cons]
    exact (hperm.append_right _).trans perm_append_comm

theorem Tower.root_parent (h : Tower bt levels items) :
    ∀ p ∈ nodesAt bt 0, (bt.heap p).parent = none := by
  induction levels generalizing items with
  | nil =>
    obtain ⟨q, -, hroot, hnone⟩ := h
    intro p hp
    rw [nodesAt, hroot] at hp
    obtain rfl := mem_singleton.mp hp
    exact hnone
  | cons ns levels ih => exact ih h.2.2

theorem Tower.exists_level (h : Tower bt levels items) (hd : d < levels.length) :
    ∃ lower ns upper, levels = lower ++ ns :: upper ∧ upper.length = d ∧
      nodesAt bt d = ns.map Branch.ptr ∧ ∀ n ∈ ns, Stored bt n ∧ Sized upper n := by
  induction levels generalizing items with
  | nil => simp at hd
  | cons ns levels ih =>
    obtain ⟨-, hnodes, htower⟩ := h
    rcases Nat.lt_succ_iff_lt_or_eq.mp hd with hlt | rfl
    · obtain ⟨lower, ms, upper, rfl, hlen, hat, hms⟩ := ih htower hlt
      exact ⟨ns :: lower, ms, upper, rfl, hlen, hat, hms⟩
    · exact ⟨[], ns, levels, rfl, rfl, by rw [htower.nodesAt_eq, map_item_snd], hnodes⟩

end

structure Bounded (bt : Tree K V) (n : ℕ) (items : List (Item K)) : Prop where
  low : ∀ x ∈ items, ∀ k ∈ keysUnder bt n x.2, x.1 ≤ (k : WithBot K)
  high : items.Pairwise fun x y => ∀ k ∈ keysUnder bt n x.2, (k : WithBot K) < y.1

omit [LinearOrder K] in
theorem Stored.mem_keysUnder (h : Stored bt n) (hk : k ∈ keysUnder bt (m + 1) n.ptr) :
    (k : WithBot K) ∈ n.kids.tail.map Prod.fst ∨ ∃ x ∈ n.kids, k ∈ keysUnder bt m x.2 := by
  rw [keysUnder, mem_append, h.inner.kids_eq] at hk
  rcases hk with hk | hk
  · rw [← h.inner.keys_eq]
    exact .inl (mem_map_of_mem hk)
  · obtain ⟨p, hp, hk⟩ := mem_flatMap.mp hk
    obtain ⟨x, hx, rfl⟩ := mem_map.mp hp
    exact .inr ⟨x, hx, hk⟩

theorem Bounded.up {ns : List (Branch K)} (hnodes : ∀ m ∈ ns, Stored bt m)
    (hinc : Increasing (ns.flatMap Branch.kids)) (h : Bounded bt n (ns.flatMap Branch.kids)) :
    Bounded bt (n + 1) (ns.map Branch.item) := by
  obtain ⟨hkids, hpair⟩ := pairwise_flatMap.mp hinc
  obtain ⟨-, hhigh⟩ := pairwise_flatMap.mp h.high
  refine ⟨fun x hx k hk => ?_, pairwise_map.mpr ((hpair.and hhigh).imp_of_mem ?_)⟩
  · obtain ⟨m, hm, rfl⟩ := mem_map.mp hx
    obtain ⟨p, rest, hfirst⟩ := (hnodes m hm).exists_first
    have hinc' := hkids m hm
    rw [hfirst] at hinc'
    have hlow : ∀ z ∈ rest, m.low < z.1 := (pairwise_cons.mp hinc').1
    rcases (hnodes m hm).mem_keysUnder hk with hk | ⟨z, hz, hk⟩
    · rw [hfirst, tail_cons] at hk
      obtain ⟨z, hz, heq⟩ := mem_map.mp hk
      rw [← heq]
      exact (hlow z hz).le
    · refine le_trans ?_ (h.low z (mem_flatMap.mpr ⟨m, hm, hz⟩) k hk)
      rw [hfirst] at hz
      rcases mem_cons.mp hz with rfl | hz
      · exact le_rfl
      · exact (hlow z hz).le
  · intro m m' hm hm' hmm k hk
    obtain ⟨p, rest, hfirst⟩ := (hnodes m' hm').exists_first
    have hmem : (m'.low, p) ∈ m'.kids := by rw [hfirst]; exact mem_cons_self
    rcases (hnodes m hm).mem_keysUnder hk with hk | ⟨z, hz, hk⟩
    · obtain ⟨z, hz, heq⟩ := mem_map.mp hk
      rw [← heq]
      exact hmm.1 z (mem_of_mem_tail hz) (m'.low, p) hmem
    · exact hmm.2 z hz (m'.low, p) hmem k hk

theorem Tower.bounded (lower : List (List (Branch K))) (h : Tower bt levels items)
    (hlevels : levels = lower ++ ns :: upper) (hinc : Increasing items) (hbounded : Bounded bt n items) :
    Increasing (ns.flatMap Branch.kids) ∧ Bounded bt (n + lower.length) (ns.flatMap Branch.kids) := by
  induction lower generalizing levels items n with
  | nil =>
    subst hlevels
    obtain ⟨rfl, -, -⟩ := h
    exact ⟨hinc, hbounded⟩
  | cons ms lower ih =>
    subst hlevels
    obtain ⟨rfl, hnodes, htower⟩ := h
    have hstored : ∀ m ∈ ms, Stored bt m := fun m hm => (hnodes m hm).1
    obtain ⟨hinc', hbounded'⟩ := ih htower rfl (Increasing.up ms hinc fun m hm => (hstored m hm).exists_first)
      (Bounded.up hstored hinc hbounded)
    rw [length_cons, show n + (lower.length + 1) = n + 1 + lower.length by omega]
    exact ⟨hinc', hbounded'⟩

end Levels

theorem Valid.bounded {bt : Tree K V}
    (h : Valid bt pages levels) : Bounded bt 0 (pages.map Page.item) := by
  have hkeys : ∀ l ∈ pages, ∀ k ∈ keysUnder bt 0 l.ptr, ∃ e ∈ l.pairs, e.key = k := by
    intro l hl k hk
    rw [keysUnder, (h.leaf l hl).keys_eq] at hk
    exact mem_map.mp hk
  refine ⟨fun x hx k hk => ?_, pairwise_map.mpr (h.apart.imp_of_mem fun {l m} hl _ hlm k hk => ?_)⟩
  · obtain ⟨l, hl, rfl⟩ := mem_map.mp hx
    obtain ⟨e, he, rfl⟩ := hkeys l hl k hk
    exact h.low l hl e he
  · obtain ⟨e, he, rfl⟩ := hkeys l hl k hk
    exact hlm.2 e he

theorem separates_of_bounded {bt : Tree K V} {i : ℕ}
    (hstored : Stored bt n) (hinc : Increasing n.kids) (h : Bounded bt m n.kids)
    (hkey : (bt.heap n.ptr).keys[i]? = some k) (hchild : (bt.heap n.ptr).kids[j]? = some child) :
    (j ≤ i → ∀ x ∈ keysUnder bt m child, x < k) ∧ (i < j → ∀ x ∈ keysUnder bt m child, k ≤ x) := by
  have hkey' : (n.kids.tail.map Prod.fst)[i]? = some (k : WithBot K) := by
    rw [← hstored.inner.keys_eq, getElem?_map, hkey, map_some]
  rw [getElem?_map, getElem?_tail] at hkey'
  obtain ⟨y, hy, hyk⟩ := map_eq_some_iff.mp hkey'
  rw [hstored.inner.kids_eq, getElem?_map] at hchild
  obtain ⟨z, hz, rfl⟩ := map_eq_some_iff.mp hchild
  obtain ⟨hi, rfl⟩ := List.getElem?_eq_some_iff.mp hy
  obtain ⟨hj, rfl⟩ := List.getElem?_eq_some_iff.mp hz
  refine ⟨fun hle x hx => ?_, fun hlt x hx => ?_⟩
  · refine WithBot.coe_lt_coe.mp ?_
    rw [← hyk]
    exact pairwise_iff_getElem.mp h.high j (i + 1) hj hi (by omega) x hx
  · refine WithBot.coe_le_coe.mp (le_trans ?_ (h.low _ (getElem_mem hj) x hx))
    rw [← hyk]
    rcases Nat.eq_or_lt_of_le (Nat.succ_le_of_lt hlt) with heq | hlt'
    · exact le_of_eq (by congr 2)
    · exact (pairwise_iff_getElem.mp hinc (i + 1) j hi hj hlt').le

theorem Valid.wellFormed {bt : Tree K V}
    (h : Valid bt pages levels) (hsized : ∀ l ∈ pages, PageSized levels l) : WellFormed bt := by
  have hleaves : leaves bt = pages.map Page.ptr := by
    rw [leaves, h.nlevel, Nat.add_sub_cancel, h.tower.nodesAt_eq, map_page_item_snd]
  have hinc : Increasing (pages.map Page.item) := pairwise_map.mpr (h.apart.imp fun hlm => hlm.1)
  have hlevel : ∀ d, d + 1 < bt.nlevel → ∀ p ∈ nodesAt bt d, ∃ lower n upper,
      n.ptr = p ∧ Stored bt n ∧ Sized upper n ∧ upper.length = d ∧ lower + d + 2 = bt.nlevel ∧
      Increasing n.kids ∧ Bounded bt lower n.kids := by
    intro d hd p hp
    obtain ⟨lower, ns, upper, hlevels, hlen, hat, hnodes⟩ := h.tower.exists_level
      (d := d) (by have := h.nlevel; omega)
    rw [hat] at hp
    obtain ⟨n, hn, rfl⟩ := mem_map.mp hp
    obtain ⟨hinc', hbounded⟩ := h.tower.bounded lower hlevels hinc h.bounded
    refine ⟨lower.length, n, upper, rfl, (hnodes n hn).1, (hnodes n hn).2, hlen, ?_,
      (pairwise_flatMap.mp hinc').1 n hn, fun x hx => ?_, ?_⟩
    · rw [h.nlevel, hlevels, length_append, length_cons, hlen]
      omega
    · rw [← Nat.zero_add lower.length]
      exact hbounded.low x (mem_flatMap.mpr ⟨n, hn, hx⟩)
    · rw [← Nat.zero_add lower.length]
      exact (pairwise_flatMap.mp hbounded.high).1 n hn
  have hkeys : ∀ n : Branch K, Stored bt n → (bt.heap n.ptr).keys.length = (bt.heap n.ptr).nkeys := by
    intro n hn
    have hlen := congrArg length hn.inner.keys_eq
    have hnkeys := hn.inner.nkeys
    rw [length_map, length_map, length_tail] at hlen
    omega
  refine ⟨fun d hd p hp => ?_, fun p hp => ?_, fun p hp => ?_, fun d hd p hp => ?_, fun d hd p hp => ?_,
    fun d n hdn p hp i k hk j child hchild => ?_, fun p hp => ?_, fun d hd p hp child hchild => ?_, ?_, ?_, ?_⟩
  · obtain ⟨lower, n, upper, rfl, hstored, -⟩ := hlevel d hd p hp
    refine ⟨hkeys n hstored, ?_⟩
    rw [hstored.inner.kids_eq, length_map, hstored.inner.nkeys]
  · rw [hleaves] at hp
    obtain ⟨l, hl, rfl⟩ := mem_map.mp hp
    rw [(h.leaf l hl).pairs_eq, (h.leaf l hl).keys_eq, (h.leaf l hl).nkeys]
    exact ⟨rfl, rfl⟩
  · rw [hleaves] at hp
    obtain ⟨l, hl, rfl⟩ := mem_map.mp hp
    obtain ⟨hlt, hhalf⟩ := hsized l hl
    rw [(h.leaf l hl).nkeys]
    refine ⟨Nat.le_of_lt_succ hlt, fun hroot => hhalf.resolve_left fun hnil => ?_⟩
    rw [h.nlevel, hnil] at hroot
    exact absurd hroot (lt_irrefl 1)
  · obtain ⟨lower, n, upper, rfl, hstored, ⟨htwo, hlt, hhalf⟩, hlen, -⟩ := hlevel d hd p hp
    have hnkeys := hstored.inner.nkeys
    have hslots : slots = 8 := rfl
    refine ⟨by omega, by omega, fun hpos => ?_⟩
    have hhalf := hhalf.resolve_left fun hnil => by
      rw [hnil, length_nil] at hlen
      omega
    have horder : order = 3 := rfl
    omega
  · rcases Nat.lt_or_ge (d + 1) bt.nlevel with hd' | hd'
    · obtain ⟨lower, n, upper, rfl, hstored, -, -, -, hinc', -⟩ := hlevel d hd' p hp
      have hlows : (n.kids.tail.map Prod.fst).Pairwise (· < ·) := pairwise_map.mpr hinc'.tail
      rw [← hstored.inner.keys_eq, pairwise_map] at hlows
      exact hlows.imp WithBot.coe_lt_coe.mp
    · have hlast : nodesAt bt d = leaves bt := by
        rw [leaves]
        congr 1
        omega
      rw [hlast, hleaves] at hp
      obtain ⟨l, hl, rfl⟩ := mem_map.mp hp
      rw [(h.leaf l hl).keys_eq]
      exact pairwise_map.mpr (h.sorted l hl)
  · obtain ⟨lower, n', upper, rfl, hstored, -, -, hsum, hinc', hbounded⟩ := hlevel d (by omega) p hp
    obtain rfl : n = lower := by omega
    exact separates_of_bounded hstored hinc' hbounded hk hchild
  · exact h.tower.root_parent p hp
  · obtain ⟨lower, n, upper, rfl, hstored, -⟩ := hlevel d hd p hp
    rw [hstored.inner.kids_eq] at hchild
    obtain ⟨x, hx, rfl⟩ := mem_map.mp hchild
    exact hstored.parent x hx
  · rw [h.nlevel, h.tower.nodes_perm.nodup_iff, map_page_item_snd]
    exact h.nodup
  · rw [hleaves, head?_map]
    exact h.chain
  · rw [hleaves, h.nkeys, length_flatMap, List.map_map]
    congr 1
    exact map_congr_left fun l hl => (h.leaf l hl).nkeys.symm

inductive Call (K V : Type)
  | insertKv (key : K) (val : V) (hash : ℕ)
  | insertKvs (kvs : KeyVals K V)

def Call.key : Call K V → K
  | .insertKv key _ _ => key
  | .insertKvs kvs => kvs.key

def Call.run (cmp : K → K → ℤ) (bt : Tree K V) : Call K V → Option (Tree K V)
  | .insertKv key val hash => (BTree.insertKv cmp bt key val hash).map Prod.fst
  | .insertKvs kvs => BTree.insertKvs cmp bt kvs

def Call.effect (es : List (KeyVals K V)) : Call K V → List (KeyVals K V)
  | .insertKv key val hash => put key val hash es
  | .insertKvs kvs => putPair kvs es

def Call.Allows (call : Call K V) : Call K V → Prop
  | .insertKv _ _ _ => True
  | .insertKvs kvs => kvs.key ≠ call.key

instance (call : Call K V) : DecidablePred call.Allows
  | .insertKv _ _ _ => inferInstanceAs (Decidable True)
  | .insertKvs kvs => inferInstanceAs (Decidable (kvs.key ≠ call.key))

def NewPairs (calls : List (Call K V)) : Prop := calls.Pairwise Call.Allows

theorem wellFormed_init : WellFormed (Tree.init : Tree K V) where
  inner _ hd := absurd hd (Nat.not_lt_zero _)
  leaf _ hp := absurd hp not_mem_nil
  leaf_size _ hp := absurd hp not_mem_nil
  inner_size _ hd := absurd hd (Nat.not_lt_zero _)
  sorted _ hd := absurd hd (Nat.not_lt_zero _)
  separates _ _ hd := absurd hd (Nat.succ_ne_zero _)
  root_parent _ hp := absurd hp not_mem_nil
  parent _ hd := absurd hd (Nat.not_lt_zero _)
  distinct := nodup_nil
  chain := rfl
  nkeys := rfl

theorem mem_key_effect (es : List (KeyVals K V)) (call : Call K V) (k : K) :
    k ∈ (call.effect es).map KeyVals.key ↔ k = call.key ∨ k ∈ es.map KeyVals.key := by
  cases call with
  | insertKv key val hash => exact mem_key_put
  | insertKvs kvs => exact mem_key_putPair

theorem Represents.call {c : KeyComparator K} (h : Represents bt es)
    (call : Call K V) (hnew : ∀ kvs, call = .insertKvs kvs → kvs.key ∉ es.map KeyVals.key) :
    ∃ bt', call.run c.cmp bt = some bt' ∧ Represents bt' (call.effect es) := by
  cases call with
  | insertKv key val hash =>
    obtain ⟨bt', hrun, hrep⟩ := insertKv_spec (c := c) h key val hash
    exact ⟨bt', by rw [Call.run, hrun]; rfl, hrep⟩
  | insertKvs kvs => exact insertKvs_spec h kvs (hnew kvs rfl)

theorem represents_of_calls {c : KeyComparator K} (hempty : Represents bt₀ []) (calls : List (Call K V))
    (hnew : NewPairs calls) :
    ∃ bt, calls.foldlM (Call.run c.cmp) bt₀ = some bt ∧ Represents bt (calls.foldl Call.effect []) ∧
      ∀ k, k ∈ (calls.foldl Call.effect []).map KeyVals.key ↔ k ∈ calls.map Call.key := by
  induction calls using reverseRecOn with
  | nil => exact ⟨_, rfl, hempty, by simp⟩
  | append_singleton calls call ih =>
    obtain ⟨hcalls, -, hlast⟩ := pairwise_append.mp hnew
    obtain ⟨bt, hrun, hrep, hkeys⟩ := ih hcalls
    obtain ⟨bt', hcall, hrep'⟩ := hrep.call (c := c) call fun kvs heq hmem => by
      obtain ⟨earlier, hearlier, hkey⟩ := mem_map.mp ((hkeys kvs.key).mp hmem)
      have hallows := hlast earlier hearlier call (mem_singleton_self call)
      rw [heq] at hallows
      exact hallows hkey.symm
    refine ⟨bt', ?_, ?_, fun k => ?_⟩
    · rw [foldlM_append, hrun]
      simpa using hcall
    · rw [foldl_append]
      exact hrep'
    · rw [foldl_append, foldl_cons, foldl_nil, mem_key_effect, hkeys, map_append,
        mem_append, map_singleton, mem_singleton, or_comm]

/-- The invariant holds after every sequence of calls on an empty tree, and no call fails:
none uses a slot that its node does not have. -/
theorem wellFormed_of_calls (c : KeyComparator K) (calls : List (Call K V)) (hnew : NewPairs calls) :
    ∃ bt, calls.foldlM (Call.run c.cmp) Tree.init = some bt ∧ WellFormed bt := by
  obtain ⟨bt, hrun, hrep, hkeys⟩ := represents_of_calls (c := c) represents_init calls hnew
  refine ⟨bt, hrun, ?_⟩
  rcases hrep with ⟨-, -, hnil⟩ | ⟨pages, levels, hvalid, hsized, -, -⟩
  · -- without a key there was no call
    have hcalls : calls = [] := by
      cases calls with
      | nil => rfl
      | cons call calls =>
        have hmem := (hkeys call.key).mpr (by simp)
        rw [hnil] at hmem
        simp at hmem
    subst hcalls
    obtain rfl := some.inj hrun
    exact wellFormed_init
  · exact hvalid.wellFormed hsized

/-- Twelve keys in falling order, so that leaves are split, then a pair, then its key again. -/
theorem wellFormed_of_fourteen_calls :
    ∃ bt, ((List.range 12).map (fun i => Call.insertKv (20 - i) i 0) ++
      [Call.insertKvs ⟨3, Values.empty.insert 5, 0⟩, Call.insertKv 3 6 0]).foldlM
        (Call.run KeyComparator.difference.cmp) Tree.init = some bt ∧ WellFormed bt :=
  wellFormed_of_calls .difference _ (by unfold NewPairs; decide)

end Mosbench.Metis.BTree
