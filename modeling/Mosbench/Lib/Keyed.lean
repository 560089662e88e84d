import Mathlib.Order.Lattice

/-!
Lists kept in the order of a key, with at most one element for each key. `lookup` finds
the element that has a key; `upsert` changes it, or puts a new one in its place.
-/
namespace Mosbench.Keyed

open List

variable {E K : Type} [LinearOrder K] (key : E → K)

def Sorted (l : List E) : Prop := l.Pairwise fun a b => key a < key b

def upsert (k : K) (fresh : E) (change : E → E) : List E → List E
  | [] => [fresh]
  | e :: l =>
    if k < key e then fresh :: e :: l
    else if key e = k then change e :: l
    else e :: upsert k fresh change l

def lookup (k : K) (l : List E) : Option E := l.find? fun e => key e = k

variable {key} {a : List E}

theorem upsert_append_left (ha : ∀ x ∈ a, key x < k) :
    upsert key k fresh change (a ++ l) = a ++ upsert key k fresh change l := by
  induction a with
  | nil => rfl
  | cons x a ih =>
    have hx := ha x mem_cons_self
    rw [cons_append, upsert, if_neg hx.not_gt, if_neg hx.ne,
      ih fun y hy => ha y (mem_cons_of_mem x hy), cons_append]

theorem upsert_append_right (hb : ∀ x ∈ b, k < key x) :
    upsert key k fresh change (l ++ b) = upsert key k fresh change l ++ b := by
  induction l with
  | nil =>
    cases b with
    | nil => rfl
    | cons x b => exact if_pos (hb x mem_cons_self)
  | cons x l ih =>
    rw [cons_append, upsert, upsert]
    split_ifs
    · rfl
    · rfl
    · rw [ih, cons_append]

theorem upsert_of_absent (ha : ∀ x ∈ a, key x < k) (hb : ∀ x ∈ b, k < key x) :
    upsert key k fresh change (a ++ b) = a ++ fresh :: b := by
  rw [upsert_append_left ha]
  exact congrArg (a ++ ·) (upsert_append_right (l := []) hb)

theorem upsert_of_present (ha : ∀ x ∈ a, key x < k) (he : key e = k) :
    upsert key k fresh change (a ++ e :: b) = a ++ change e :: b := by
  rw [upsert_append_left ha, upsert, if_neg (by rw [he]; exact lt_irrefl k), if_pos he]

theorem notMem_of_between (ha : ∀ x ∈ a, key x < k) (hb : ∀ x ∈ b, k < key x) : k ∉ (a ++ b).map key := by
  intro hmem
  obtain ⟨x, hx, rfl⟩ := mem_map.mp hmem
  rcases mem_append.mp hx with hx | hx
  · exact lt_irrefl _ (ha x hx)
  · exact lt_irrefl _ (hb x hx)

theorem mem_key_upsert (hfresh : key fresh = k) (hchange : ∀ x, key (change x) = key x) :
    k' ∈ (upsert key k fresh change l).map key ↔ k' = k ∨ k' ∈ l.map key := by
  induction l with
  | nil => simp [upsert, hfresh]
  | cons x l ih =>
    rw [upsert]
    split_ifs with hlt heq
    · simp [hfresh]
    · simp [hchange, heq]
    · rw [map_cons, mem_cons, ih, map_cons, mem_cons]
      exact or_left_comm

theorem forall_mem_upsert {P : E → Prop} (hfresh : P fresh) (hchange : ∀ x, key x = k → P x → P (change x))
    (h : ∀ x ∈ l, P x) : ∀ x ∈ upsert key k fresh change l, P x := by
  induction l with
  | nil => simpa [upsert] using hfresh
  | cons x l ih =>
    obtain ⟨hx, hl⟩ := forall_mem_cons.mp h
    rw [upsert]
    split_ifs with hlt heq
    · exact forall_mem_cons.mpr ⟨hfresh, h⟩
    · exact forall_mem_cons.mpr ⟨hchange x heq hx, hl⟩
    · exact forall_mem_cons.mpr ⟨hx, ih hl⟩

theorem Sorted.upsert (h : Sorted key l) (hfresh : key fresh = k)
    (hchange : ∀ x, key (change x) = key x) : Sorted key (upsert key k fresh change l) := by
  induction l with
  | nil => exact pairwise_singleton _ _
  | cons x l ih =>
    obtain ⟨hx, hl⟩ := pairwise_cons.mp h
    rw [Keyed.upsert]
    split_ifs with hlt heq
    · refine pairwise_cons.mpr ⟨fun y hy => ?_, h⟩
      rw [hfresh]
      rcases mem_cons.mp hy with rfl | hy
      · exact hlt
      · exact hlt.trans (hx y hy)
    · exact pairwise_cons.mpr ⟨fun y hy => by rw [hchange]; exact hx y hy, hl⟩
    · refine pairwise_cons.mpr ⟨fun y hy => ?_, ih hl⟩
      rcases (mem_key_upsert hfresh hchange).mp (mem_map_of_mem hy) with hy | hy
      · rw [hy]
        exact lt_of_le_of_ne (not_lt.mp hlt) heq
      · obtain ⟨z, hz, hzy⟩ := mem_map.mp hy
        rw [← hzy]
        exact hx z hz

theorem length_le_length_upsert (k : K) (fresh : E) (change : E → E) (l : List E) :
    l.length ≤ (upsert key k fresh change l).length := by
  induction l with
  | nil => exact Nat.zero_le _
  | cons x l ih =>
    rw [upsert]
    split_ifs
    · exact Nat.le_succ _
    · exact Nat.le_refl _
    · exact Nat.succ_le_succ ih

theorem mem_upsert_of_ne {l : List E} (he : e ∈ l) (hk : key e ≠ k) : e ∈ upsert key k fresh change l := by
  induction l with
  | nil => exact absurd he not_mem_nil
  | cons x l ih =>
    rw [upsert]
    split_ifs with hlt heq
    · exact mem_cons_of_mem _ he
    · exact mem_cons_of_mem _ ((mem_cons.mp he).resolve_left fun h => hk (h ▸ heq))
    · rcases mem_cons.mp he with rfl | he
      · exact mem_cons_self
      · exact mem_cons_of_mem _ (ih he)

theorem Sorted.change_mem_upsert {l : List E} (h : Sorted key l) (he : e ∈ l) (hk : key e = k) :
    change e ∈ Keyed.upsert key k fresh change l := by
  obtain ⟨a, b, rfl⟩ := append_of_mem he
  rw [upsert_of_present (fun x hx => hk ▸ (pairwise_append.mp h).2.2 x hx e mem_cons_self) hk]
  exact mem_append_right a mem_cons_self

theorem lookup_cons_self (he : key e = k) : lookup key k (e :: l) = some e := by
  rw [lookup, List.find?_cons_of_pos (by simpa using he)]

theorem lookup_cons_of_ne (he : key e ≠ k) : lookup key k (e :: l) = lookup key k l := by
  rw [lookup, List.find?_cons_of_neg (by simpa using he), lookup]

theorem lookup_eq_none : lookup key k l = none ↔ k ∉ l.map key := by
  rw [lookup, List.find?_eq_none, mem_map]
  simp

theorem Sorted.lookup_of_mem (h : Sorted key l) (he : e ∈ l) : lookup key (key e) l = some e := by
  induction l with
  | nil => exact absurd he not_mem_nil
  | cons x l ih =>
    obtain ⟨hx, hl⟩ := pairwise_cons.mp h
    rcases mem_cons.mp he with rfl | he
    · exact lookup_cons_self rfl
    · rw [lookup_cons_of_ne (hx e he).ne, ih hl he]

theorem lookup_upsert_of_ne (hk : k' ≠ k) (hfresh : key fresh = k)
    (hchange : ∀ x, key (change x) = key x) :
    lookup key k' (upsert key k fresh change l) = lookup key k' l := by
  have hfresh' : key fresh ≠ k' := fun heq => hk (heq.symm.trans hfresh)
  induction l with
  | nil => exact lookup_cons_of_ne hfresh'
  | cons x l ih =>
    rw [upsert]
    split_ifs with hlt heq
    · exact lookup_cons_of_ne hfresh'
    · have hx : key x ≠ k' := fun h => hk (h.symm.trans heq)
      rw [lookup_cons_of_ne hx, lookup_cons_of_ne (by rwa [hchange])]
    · by_cases hx : key x = k'
      · rw [lookup_cons_self hx, lookup_cons_self hx]
      · rw [lookup_cons_of_ne hx, lookup_cons_of_ne hx, ih]

theorem Sorted.lookup_upsert (h : Sorted key l) (hfresh : key fresh = k)
    (hchange : ∀ x, key (change x) = key x) :
    lookup key k (Keyed.upsert key k fresh change l) = some (((lookup key k l).map change).getD fresh) := by
  induction l with
  | nil => exact lookup_cons_self hfresh
  | cons x l ih =>
    obtain ⟨hx, hl⟩ := pairwise_cons.mp h
    rw [Keyed.upsert]
    split_ifs with hlt heq
    · have hnone : lookup key k (x :: l) = none := lookup_eq_none.mpr
        (notMem_of_between (a := []) (by simp) (forall_mem_cons.mpr ⟨hlt, fun y hy => hlt.trans (hx y hy)⟩))
      rw [lookup_cons_self hfresh, hnone]
      rfl
    · rw [lookup_cons_self heq, lookup_cons_self ((hchange x).trans heq)]
      rfl
    · rw [lookup_cons_of_ne heq, lookup_cons_of_ne heq, ih hl]

end Mosbench.Keyed
