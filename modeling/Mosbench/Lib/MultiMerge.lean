import Mathlib.Data.List.Lex
import Mathlib.Algebra.Order.BigOperators.Group.List
import Mathlib.Algebra.Order.Ring.Nat

/-!
Merging any number of tapes. A tape is a list of entries, each a key with a list of
values. A step of the merge takes the least key at the head of a tape, removes it from
every tape that has it there, and puts their values together in the order of the tapes.

On tapes in strictly increasing order of keys the merge gives a tape of that kind with
every key of the tapes and all its values. Such a tape is determined by its keys and
their values, so tapes may be merged in groups first.
-/
namespace Mosbench.MultiMerge

open List

variable {K V : Type} [LinearOrder K]

def Sorted (t : List (K × List V)) : Prop := t.Pairwise fun x y => x.1 < y.1

def values (k : K) (t : List (K × List V)) : List V := (t.filter fun e => e.1 = k).flatMap Prod.snd

def heads (ts : List (List (K × List V))) : List K := ts.filterMap fun t => t.head?.map Prod.fst

def pop (k : K) : List (K × List V) → List V × List (K × List V)
  | [] => ([], [])
  | e :: t => if e.1 = k then (e.2, t) else ([], e :: t)

def step (ts : List (List (K × List V))) : Option ((K × List V) × List (List (K × List V))) :=
  (heads ts).min?.map fun k => ((k, ts.flatMap fun t => (pop k t).1), ts.map fun t => (pop k t).2)

def steps : ℕ → List (List (K × List V)) → List (K × List V)
  | 0, _ => []
  | n + 1, ts =>
    match step ts with
    | none => []
    | some (e, ts') => e :: steps n ts'

def size (ts : List (List (K × List V))) : ℕ := (ts.map length).sum

def merge (ts : List (List (K × List V))) : List (K × List V) := steps (size ts) ts

variable {t : List (K × List V)} {ts ts' : List (List (K × List V))}

@[simp] theorem values_nil (k : K) : values k ([] : List (K × List V)) = [] := rfl

theorem values_cons (k : K) (e : K × List V) (t : List (K × List V)) :
    values k (e :: t) = (if e.1 = k then e.2 else []) ++ values k t := by
  by_cases h : e.1 = k
  · rw [if_pos h, values, filter_cons_of_pos (by simpa using h), flatMap_cons, values]
  · rw [if_neg h, values, filter_cons_of_neg (by simpa using h), nil_append, values]

theorem values_append (k : K) (t t' : List (K × List V)) : values k (t ++ t') = values k t ++ values k t' := by
  rw [values, filter_append, flatMap_append, ← values, ← values]

theorem values_eq_nil (h : k ∉ t.map Prod.fst) : values k t = [] := by
  rw [values, filter_eq_nil_iff.mpr, flatMap_nil]
  intro e he
  have hne : e.1 ≠ k := fun heq => h (heq ▸ mem_map_of_mem he)
  simpa using hne

theorem Sorted.tail (h : Sorted (e :: t)) : Sorted t := (pairwise_cons.mp h).2

theorem Sorted.notMem (h : Sorted (e :: t)) : e.1 ∉ t.map Prod.fst := by
  intro hmem
  obtain ⟨x, hx, heq⟩ := mem_map.mp hmem
  exact absurd heq ((pairwise_cons.mp h).1 x hx).ne'

theorem Sorted.values_of_mem (h : Sorted t) (he : e ∈ t) : values e.1 t = e.2 := by
  induction t with
  | nil => exact absurd he not_mem_nil
  | cons x t ih =>
    rw [values_cons]
    rcases mem_cons.mp he with rfl | he
    · rw [if_pos rfl, values_eq_nil h.notMem, append_nil]
    · rw [if_neg ((pairwise_cons.mp h).1 e he).ne, nil_append, ih h.tail he]

theorem Sorted.ext (h : Sorted t) (h' : Sorted t') (hkeys : ∀ k, k ∈ t.map Prod.fst ↔ k ∈ t'.map Prod.fst)
    (hvalues : ∀ k, values k t = values k t') : t = t' := by
  refine Perm.eq_of_pairwise (fun a b _ _ hab hba => absurd hba hab.not_gt) h h' ?_
  rw [perm_ext_iff_of_nodup (h.imp fun hlt heq => hlt.ne (congrArg Prod.fst heq))
    (h'.imp fun hlt heq => hlt.ne (congrArg Prod.fst heq))]
  have hsub : ∀ {a b : List (K × List V)}, Sorted a → Sorted b → (∀ k, k ∈ a.map Prod.fst → k ∈ b.map Prod.fst) →
      (∀ k, values k a = values k b) → ∀ e ∈ a, e ∈ b := by
    intro a b ha hb hk hv e he
    obtain ⟨x, hx, heq⟩ := mem_map.mp (hk e.1 (mem_map_of_mem he))
    have hval : x.2 = e.2 := by rw [← hb.values_of_mem hx, ← ha.values_of_mem he, heq, hv]
    rwa [← Prod.ext heq hval]
  exact fun e => ⟨hsub h h' (fun k => (hkeys k).mp) hvalues e,
    hsub h' h (fun k => (hkeys k).mpr) (fun k => (hvalues k).symm) e⟩

omit [LinearOrder K] in
theorem mem_heads : k ∈ heads ts ↔ ∃ vs t, (k, vs) :: t ∈ ts := by
  rw [heads, mem_filterMap]
  constructor
  · rintro ⟨t, ht, hk⟩
    cases t with
    | nil => exact nomatch hk
    | cons e t =>
      obtain rfl : e.1 = k := by simpa using hk
      exact ⟨e.2, t, ht⟩
  · rintro ⟨vs, t, ht⟩
    exact ⟨_, ht, rfl⟩

theorem step_eq_some (h : step ts = some (e, ts')) :
    e.1 ∈ heads ts ∧ (∀ k ∈ heads ts, e.1 ≤ k) ∧ e.2 = (ts.flatMap fun t => (pop e.1 t).1) ∧
      ts' = ts.map fun t => (pop e.1 t).2 := by
  rw [step, Option.map_eq_some_iff] at h
  obtain ⟨k, hk, heq⟩ := h
  obtain ⟨hmem, hmin⟩ := min?_eq_some_iff.mp hk
  cases heq
  exact ⟨hmem, hmin, rfl, rfl⟩

theorem step_eq_none : step ts = none ↔ ∀ t ∈ ts, t = [] := by
  rw [step, Option.map_eq_none_iff, min?_eq_none_iff, heads, filterMap_eq_nil_iff]
  refine forall₂_congr fun t _ => ?_
  cases t <;> simp

theorem length_pop_le (k : K) (t : List (K × List V)) : (pop k t).2.length ≤ t.length := by
  cases t with
  | nil => exact le_rfl
  | cons e t =>
    rw [pop]
    split_ifs
    · exact Nat.le_succ _
    · exact le_rfl

theorem size_map_pop_lt (h : k ∈ heads ts) : size (ts.map fun t => (pop k t).2) < size ts := by
  obtain ⟨vs, t, ht⟩ := mem_heads.mp h
  rw [size, size, map_map]
  refine sum_lt_sum _ _ (fun t _ => length_pop_le k t) ⟨_, ht, ?_⟩
  simp [pop]

theorem size_step (h : step ts = some (e, ts')) : size ts' < size ts := by
  obtain ⟨hmem, -, -, rfl⟩ := step_eq_some h
  exact size_map_pop_lt hmem

theorem steps_eq_merge (h : size ts ≤ n) : steps n ts = merge ts := by
  induction n using Nat.strong_induction_on generalizing ts with
  | _ n ih =>
    rw [merge]
    cases hstep : step ts with
    | none =>
      have hzero : ∀ m, steps m ts = [] := by
        intro m
        cases m with
        | zero => rfl
        | succ m => rw [steps, hstep]
      rw [hzero, hzero]
    | some r =>
      obtain ⟨e, ts'⟩ := r
      have hlt := size_step hstep
      obtain ⟨n, rfl⟩ : ∃ m, n = m + 1 := ⟨n - 1, by omega⟩
      obtain ⟨m, hm⟩ : ∃ m, size ts = m + 1 := ⟨size ts - 1, by omega⟩
      rw [hm, steps, steps, hstep]
      dsimp only
      rw [ih n (by omega) (by omega), ih m (by omega) (by omega)]

theorem merge_of_none (h : step ts = none) : merge ts = [] := by
  rw [← steps_eq_merge (Nat.le_succ _), steps, h]

theorem merge_of_some (h : step ts = some (e, ts')) : merge ts = e :: merge ts' := by
  rw [← steps_eq_merge (Nat.le_succ (size ts)), steps, h]
  exact congrArg (e :: ·) (steps_eq_merge (size_step h).le)

theorem merge_induction {P : List (List (K × List V)) → Prop} (hnone : ∀ ts, step ts = none → P ts)
    (hsome : ∀ ts e ts', step ts = some (e, ts') → P ts' → P ts) (ts : List (List (K × List V))) : P ts := by
  induction hn : size ts using Nat.strong_induction_on generalizing ts with
  | _ n ih =>
    cases hstep : step ts with
    | none => exact hnone ts hstep
    | some r => exact hsome ts r.1 r.2 hstep (ih _ (hn ▸ size_step hstep) _ rfl)

theorem sorted_pop (k : K) (h : Sorted t) : Sorted (pop k t).2 := by
  cases t with
  | nil => exact h
  | cons e t =>
    rw [pop]
    split_ifs
    · exact h.tail
    · exact h

theorem values_pop_self (h : Sorted t) (hle : ∀ e ∈ t.head?, k ≤ e.1) :
    (pop k t).1 = values k t ∧ k ∉ (pop k t).2.map Prod.fst := by
  cases t with
  | nil => simp [pop]
  | cons e t =>
    rw [pop, values_cons]
    by_cases hk : e.1 = k
    · subst hk
      rw [if_pos rfl, if_pos rfl, values_eq_nil h.notMem, append_nil]
      exact ⟨rfl, h.notMem⟩
    · have hlt : k < e.1 := lt_of_le_of_ne (hle e rfl) fun heq => hk heq.symm
      have hnot : k ∉ (e :: t).map Prod.fst := by
        intro hmem
        obtain ⟨x, hx, heq⟩ := mem_map.mp hmem
        rcases mem_cons.mp hx with rfl | hx
        · exact hk heq
        · exact absurd heq (hlt.trans ((pairwise_cons.mp h).1 x hx)).ne'
      rw [if_neg hk, if_neg hk, values_eq_nil fun hmem => hnot (mem_cons_of_mem _ hmem)]
      exact ⟨rfl, hnot⟩

theorem values_pop_of_ne (hk : k' ≠ k) (t : List (K × List V)) :
    values k' (pop k t).2 = values k' t ∧ (k' ∈ (pop k t).2.map Prod.fst ↔ k' ∈ t.map Prod.fst) := by
  cases t with
  | nil => simp [pop]
  | cons e t =>
    rw [pop]
    split_ifs with he
    · have hne : e.1 ≠ k' := fun heq => hk (heq.symm.trans he)
      rw [values_cons, if_neg hne, map_cons, mem_cons]
      exact ⟨rfl, by simp [hne.symm]⟩
    · exact ⟨rfl, Iff.rfl⟩

theorem head_le (hmin : ∀ k' ∈ heads ts, k ≤ k') (ht : t ∈ ts) : ∀ e ∈ t.head?, k ≤ e.1 := by
  intro e he
  obtain ⟨t', rfl⟩ := head?_eq_some_iff.mp he
  exact hmin e.1 (mem_heads.mpr ⟨e.2, t', ht⟩)

omit [LinearOrder K] in
theorem exists_mem_map {A : Type} (f : A → List (K × List V)) (l : List A) :
    (∃ t ∈ l.map f, k ∈ t.map Prod.fst) ↔ ∃ x ∈ l, k ∈ (f x).map Prod.fst := by
  constructor
  · rintro ⟨t, ht, hk⟩
    obtain ⟨x, hx, rfl⟩ := mem_map.mp ht
    exact ⟨x, hx, hk⟩
  · rintro ⟨x, hx, hk⟩
    exact ⟨f x, mem_map_of_mem hx, hk⟩

structure Merges (ts : List (List (K × List V))) (out : List (K × List V)) : Prop where
  sorted : Sorted out
  keys : ∀ k, k ∈ out.map Prod.fst ↔ ∃ t ∈ ts, k ∈ t.map Prod.fst
  values : ∀ k, values k out = ts.flatMap (values k)

theorem Merges.cons (hts : ∀ t ∈ ts, Sorted t) (hstep : step ts = some (e, ts'))
    (h : Merges ts' out) : Merges ts (e :: out) := by
  obtain ⟨hmem, hmin, hvals, rfl⟩ := step_eq_some hstep
  have hself := fun t ht => values_pop_self (hts t ht) (head_le hmin ht)
  have hother : ∀ k, k ≠ e.1 → (k ∈ out.map Prod.fst ↔ ∃ t ∈ ts, k ∈ t.map Prod.fst) := by
    intro k hk
    rw [h.keys, exists_mem_map]
    exact exists_congr fun t => and_congr_right fun _ => (values_pop_of_ne hk t).2
  have hnot : e.1 ∉ out.map Prod.fst := by
    rw [h.keys, exists_mem_map]
    rintro ⟨t, ht, hk⟩
    exact (hself t ht).2 hk
  have hthere : ∃ t ∈ ts, e.1 ∈ t.map Prod.fst := by
    obtain ⟨vs, t, ht⟩ := mem_heads.mp hmem
    exact ⟨_, ht, by simp⟩
  refine ⟨pairwise_cons.mpr ⟨fun x hx => ?_, h.sorted⟩, fun k => ?_, fun k => ?_⟩
  · -- the least head is below everything, and its key is gone from the tapes
    have hxkey := mem_map_of_mem (f := Prod.fst) hx
    have hne : x.1 ≠ e.1 := fun heq => hnot (heq ▸ hxkey)
    obtain ⟨t, ht, hxt⟩ := (hother x.1 hne).mp hxkey
    refine lt_of_le_of_ne ?_ hne.symm
    cases t with
    | nil => exact absurd hxt not_mem_nil
    | cons y t =>
      have hy := head_le hmin ht y rfl
      obtain ⟨z, hz, hzx⟩ := mem_map.mp hxt
      rw [← hzx]
      rcases mem_cons.mp hz with rfl | hz
      · exact hy
      · exact hy.trans ((pairwise_cons.mp (hts _ ht)).1 z hz).le
  · rw [map_cons, mem_cons]
    by_cases hk : k = e.1
    · subst hk
      exact iff_of_true (.inl rfl) hthere
    · rw [← hother k hk]
      simp [hk]
  · rw [values_cons]
    by_cases hk : k = e.1
    · subst hk
      rw [if_pos rfl, values_eq_nil hnot, append_nil, hvals]
      exact flatMap_congr fun t ht => (hself t ht).1
    · rw [if_neg fun heq => hk heq.symm, nil_append, h.values, flatMap_map]
      exact flatMap_congr fun t _ => (values_pop_of_ne hk t).1

theorem merges_merge (hts : ∀ t ∈ ts, Sorted t) : Merges ts (merge ts) := by
  induction ts using merge_induction with
  | hnone ts hstep =>
    rw [merge_of_none hstep]
    have hnil := step_eq_none.mp hstep
    refine ⟨.nil, fun k => ?_, fun k => ?_⟩
    · refine iff_of_false not_mem_nil ?_
      rintro ⟨t, ht, hk⟩
      rw [hnil t ht] at hk
      exact not_mem_nil hk
    · rw [values_nil, eq_comm, flatMap_eq_nil_iff]
      intro t ht
      rw [hnil t ht, values_nil]
  | hsome ts e ts' hstep ih =>
    rw [merge_of_some hstep]
    refine Merges.cons hts hstep (ih ?_)
    obtain ⟨-, -, -, rfl⟩ := step_eq_some hstep
    intro t ht
    obtain ⟨t', ht', rfl⟩ := mem_map.mp ht
    exact sorted_pop e.1 (hts t' ht')

theorem Merges.eq (h : Merges ts out) (h' : Merges ts out') : out = out' :=
  h.sorted.ext h'.sorted (fun k => (h.keys k).trans (h'.keys k).symm) fun k => (h.values k).trans (h'.values k).symm

theorem merge_groups (groups : List (List (List (K × List V)))) (h : ∀ g ∈ groups, ∀ t ∈ g, Sorted t) :
    merge (groups.map merge) = merge groups.flatten := by
  have hgroup := fun g hg => merges_merge (h g hg)
  have hflat : Merges groups.flatten (merge groups.flatten) := by
    apply merges_merge
    intro t ht
    obtain ⟨g, hg, ht⟩ := mem_flatten.mp ht
    exact h g hg t ht
  have houter : Merges (groups.map merge) (merge (groups.map merge)) := by
    apply merges_merge
    intro t ht
    obtain ⟨g, hg, rfl⟩ := mem_map.mp ht
    exact (hgroup g hg).sorted
  refine Merges.eq ⟨houter.sorted, fun k => ?_, fun k => ?_⟩ hflat
  · rw [houter.keys, exists_mem_map]
    constructor
    · rintro ⟨g, hg, hk⟩
      obtain ⟨t, ht, hk⟩ := ((hgroup g hg).keys k).mp hk
      exact ⟨t, mem_flatten.mpr ⟨g, hg, ht⟩, hk⟩
    · rintro ⟨t, ht, hk⟩
      obtain ⟨g, hg, ht⟩ := mem_flatten.mp ht
      exact ⟨g, hg, ((hgroup g hg).keys k).mpr ⟨t, ht, hk⟩⟩
  · rw [houter.values, flatMap_map, flatMap_congr fun g hg => (hgroup g hg).values k]
    rw [flatMap_def, flatMap_def, map_flatten, flatten_flatten, map_map]
    rfl

end Mosbench.MultiMerge
