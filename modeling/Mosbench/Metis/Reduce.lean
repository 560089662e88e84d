import Mathlib.Algebra.Order.BigOperators.Group.List
import Mathlib.Algebra.Order.Ring.Nat
import Mosbench.Metis.Handlers

/-!
How Metis brings the values of a key together (reduce.c). reduce_or_groupkvs merges
collections in which pairs come in the order of their keys and no key comes twice;
reduce_or_groupkv sorts single pairs and looks for runs of equal keys. Both return the
calls of the reduce function, or the groups that are emitted instead.
-/
namespace Mosbench.Metis

open Keyed List Option Grouping
open KeyComparator (difference)

inductive AppType
  | mapreduce
  | mapgroup
  | maponly
deriving DecidableEq

variable {K V : Type}

def Values.room (allocLen : ℕ) : Values V := ⟨[], allocLen, Nat.zero_le _⟩

/-- `kvs[i]`, with what is left to iterate over; nothing when `ended[i]`. -/
abbrev Cursor (h : Handler K V) := Option (KeyVals K V × h.Coll × h.Iter)

def openCursor (h : Handler K V) (coll : h.Coll) : Option (Cursor h) :=
  (h.iterBegin coll).bind fun iter =>
  match iter with
  | none => some none
  | some iter => h.iterNext true (coll, iter)

def Cursor.key {h : Handler K V} (cur : Cursor h) : Option K := cur.map fun x => x.1.key

/-- The scan for the minimum key. A node is marked with `m`, which counts how often a
smaller key was found; the marks that are equal to `m` in the end are those of the minimum. -/
def mark (cmp : K → K → ℤ) : List (Option K) → Option K → ℕ → Option K × ℕ × List ℕ
  | [], min, m => (min, m, [])
  | key :: keys, min, m =>
    match key, min with
    | none, min =>
      let (min, m, marks) := mark cmp keys min m
      (min, m, 0 :: marks)
    | some key, none =>
      let (min, m', marks) := mark cmp keys (some key) (m + 1)
      (min, m', (m + 1) :: marks)
    | some key, some least =>
      if 0 < cmp least key then
        let (min, m', marks) := mark cmp keys (some key) (m + 1)
        (min, m', (m + 1) :: marks)
      else
        let (min, m', marks) := mark cmp keys (some least) m
        (min, m', (if cmp least key = 0 then m else 0) :: marks)

def neededLen {h : Handler K V} (m : ℕ) (marks : List ℕ) (curs : List (Cursor h)) : ℕ :=
  ((marks.zip curs).map fun (mark, cur) =>
    if mark = m then (cur.map fun x => x.1.vals.items.length).getD 0 else 0).sum

def moveMarked {h : Handler K V} (mv : Values V → Values V → Option (Values V)) (m : ℕ) :
    List ℕ → List (Cursor h) → Values V → Option (Values V × List (Cursor h))
  | mark :: marks, cur :: curs, dst =>
    if mark = m then
      cur.bind fun (kvs, rest) =>
      (mv dst kvs.vals).bind fun dst =>
      (h.iterNext true rest).bind fun cur =>
      (moveMarked mv m marks curs dst).map fun (dst, curs) => (dst, cur :: curs)
    else (moveMarked mv m marks curs dst).map fun (dst, curs) => (dst, cur :: curs)
  | _, _, dst => some (dst, [])

/-- One round: the minimum key with its values, or nothing when all nodes have ended. There is no
memory for as many values as are no int. -/
def groupRound {h : Handler K V} (cmp : K → K → ℤ) (mv : Values V → Values V → Option (Values V))
    (curs : List (Cursor h)) (allocLen : ℕ) : Option (Option (K × Values V × List (Cursor h))) :=
  let (min, m, marks) := mark cmp (curs.map Cursor.key) none 0
  match min with
  | none => some none
  | some key =>
    let needed := neededLen m marks curs
    if needed < 2 ^ 31 then
      let dst := Values.room (if allocLen < needed then needed else allocLen)
      (moveMarked mv m marks curs dst).map fun (dst, curs) => some (key, dst, curs)
    else none

/-- The rounds, with what is emitted and what is left of the nodes. The values of a reduce call are
used again; others are given away. -/
def groupRounds {h : Handler K V} {E : Type} (cmp : K → K → ℤ)
    (mv : Values V → Values V → Option (Values V)) (emit : K → Values V → Option E) (reuse : Bool) :
    ℕ → List (Cursor h) → ℕ → Option (List E × List (Cursor h))
  | 0, _, _ => none
  | fuel + 1, curs, allocLen =>
    (groupRound cmp mv curs allocLen).bind fun round =>
    match round with
    | none => some ([], curs)
    | some (key, dst, curs) =>
      (emit key dst).bind fun e =>
      (groupRounds cmp mv emit reuse fuel curs (if reuse then dst.allocLen else 0)).map
        fun (es, curs) => (e :: es, curs)

/-- `values_mv` without a value modifier. -/
def Values.mv (dst src : Values V) : Option (Values V) := some (dst.append src)

def groupKvs {h : Handler K V} (cmp : K → K → ℤ) (atype : AppType) (fuel : ℕ) (curs : List (Cursor h)) :
    Option (List (K × List V) × List (Cursor h)) :=
  groupRounds cmp Values.mv (fun key dst => some (key, dst.items)) (atype = .mapreduce) fuel curs 0

def reduceOrGroupkvs (h : Handler K V) (cmp : K → K → ℤ) (atype : AppType) (nodes : List h.Coll) :
    Option (List (K × List V)) :=
  (nodes.mapM (openCursor h)).bind fun curs =>
  (groupKvs cmp atype ((nodes.map h.getLen).sum + 1) curs).map Prod.fst

section

variable [LinearOrder K] {c : KeyComparator K}

structure Marked (keys : List (Option K)) (min min' : Option K) (m m' : ℕ) (marks : List ℕ) : Prop where
  started : m' = 0 ↔ min' = none
  least : ∀ k, min = some k ∨ some k ∈ keys → ∃ k', min' = some k' ∧ k' ≤ k
  old_or_new : (min' = min ∧ m' = m) ∨ (m < m' ∧ min' ≠ min ∧ min' ∈ keys)
  marks : List.Forall₂ (fun key mark => mark = m' ↔ key = min') keys marks

namespace Marked

variable {keys : List (Option K)} {min : Option K} {marks : List ℕ} {least : K}

theorem ended (h : Marked keys min min' m m' marks) : Marked (none :: keys) min min' m m' (0 :: marks) where
  started := h.started
  least k hk := h.least k (by simpa using hk)
  old_or_new := h.old_or_new.imp id fun ⟨hlt, hne, hmem⟩ => ⟨hlt, hne, mem_cons_of_mem _ hmem⟩
  marks := .cons (by rw [eq_comm, h.started, eq_comm]) h.marks

theorem eq_iff (h : Marked keys min min' m m' marks) : m = m' ↔ min = min' := by
  rcases h.old_or_new with ⟨hmin, hm⟩ | ⟨hlt, hne, -⟩
  · simp [hmin, hm]
  · exact iff_of_false hlt.ne (Ne.symm hne)

theorem smaller (h : Marked keys (some k) min' (m + 1) m' marks) (hk : ∀ least, min = some least → k < least) :
    Marked (some k :: keys) min min' m m' ((m + 1) :: marks) := by
  obtain ⟨k', hk', hle⟩ := h.least k (.inl rfl)
  have hne : min' ≠ min := fun heq => (hk k' (heq ▸ hk')).not_ge hle
  refine ⟨h.started, fun x hx => ?_, .inr ?_, .cons h.eq_iff h.marks⟩
  · rcases hx with hx | hx
    · exact ⟨k', hk', hle.trans (hk x hx).le⟩
    · rcases mem_cons.mp hx with hx | hx
      · obtain rfl := some.inj hx
        exact ⟨k', hk', hle⟩
      · exact h.least x (.inr hx)
  · rcases h.old_or_new with ⟨hmin, hm⟩ | ⟨hlt, -, hmem⟩
    · exact ⟨by omega, hne, hmin ▸ mem_cons_self⟩
    · exact ⟨by omega, hne, mem_cons_of_mem _ hmem⟩

theorem other (h : Marked keys (some least) min' m m' marks) (hk : least ≤ k) :
    Marked (some k :: keys) (some least) min' m m' ((if least = k then m else 0) :: marks) := by
  obtain ⟨k', hk', hle⟩ := h.least least (.inl rfl)
  refine ⟨h.started, fun x hx => ?_,
    h.old_or_new.imp id fun ⟨hlt, hne, hmem⟩ => ⟨hlt, hne, mem_cons_of_mem _ hmem⟩, .cons ?_ h.marks⟩
  · rcases hx with hx | hx
    · exact h.least x (.inl hx)
    · rcases mem_cons.mp hx with hx | hx
      · obtain rfl := some.inj hx
        exact ⟨k', hk', hle.trans hk⟩
      · exact h.least x (.inr hx)
  · split_ifs with heq
    · rw [← heq]
      exact h.eq_iff
    · refine iff_of_false (fun hm => ?_) (fun hmin => heq (le_antisymm hk ?_))
      · rw [h.started.mp hm.symm] at hk'
        exact some_ne_none k' hk'.symm
      · rw [hk', some.injEq] at hmin
        rwa [hmin]

end Marked

theorem mark_spec (keys : List (Option K)) (min : Option K) (m : ℕ) (hm : m = 0 ↔ min = none) :
    Marked keys min (mark c.cmp keys min m).1 m (mark c.cmp keys min m).2.1 (mark c.cmp keys min m).2.2 := by
  induction keys generalizing min m with
  | nil => exact ⟨hm, fun k hk => ⟨k, hk.resolve_right (by simp), le_rfl⟩, .inl ⟨rfl, rfl⟩, .nil⟩
  | cons key keys ih =>
    cases key with
    | none => exact (ih min m hm).ended
    | some k =>
      cases min with
      | none => exact (ih (some k) (m + 1) (by simp)).smaller (by simp)
      | some least =>
        by_cases hcmp : 0 < c.cmp least k
        · simp only [mark, if_pos hcmp]
          refine (ih (some k) (m + 1) (by simp)).smaller fun x hx => ?_
          obtain rfl := some.inj hx
          exact (c.pos_iff _ _).mp hcmp
        · simp only [mark, if_neg hcmp, c.eq_zero_iff]
          rw [c.pos_iff, not_lt] at hcmp
          exact (ih (some least) m hm).other hcmp

end

inductive Reads (h : Handler K V) : Cursor h → List (KeyVals K V) → Prop
  | ended : Reads h none []
  | at {e : KeyVals K V} {es : List (KeyVals K V)} {rest : h.Coll × h.Iter} :
      Iterator.Yields (h.iterNext true) rest es → Reads h (some (e, rest)) (e :: es)

theorem Reads.key (hreads : Reads h cur es) : cur.key = es.head?.map KeyVals.key := by
  cases hreads <;> rfl

theorem Reads.next {h : Handler K V} {rest : h.Coll × h.Iter}
    (hrest : Iterator.Yields (h.iterNext true) rest es) :
    ∃ cur, h.iterNext true rest = some cur ∧ Reads h cur es := by
  cases hrest with
  | nil hnext => exact ⟨none, hnext, .ended⟩
  | cons hnext hrest => exact ⟨_, hnext, .at hrest⟩

theorem Reads.eq_none (hreads : Reads h cur []) : cur = none := by
  cases hreads
  rfl

section

variable [LinearOrder K] {c : KeyComparator K}

variable {h : Handler K V} {Rep : h.Coll → List (KeyVals K V) → Prop} {es : List (KeyVals K V)}

theorem Handler.Lawful.openCursor_spec (law : h.Lawful searched Rep) (hrep : Rep coll es) :
    ∃ cur, openCursor h coll = some cur ∧ Reads h cur es := by
  rw [openCursor]
  rcases law.iterBegin hrep with ⟨hbegin, rfl⟩ | ⟨iter, hbegin, hyields⟩
  · exact ⟨none, by rw [hbegin, bind_some], .ended⟩
  · rw [hbegin, bind_some]
    exact Reads.next (hyields true)

def without (k : K) (es : List (KeyVals K V)) : List (KeyVals K V) := es.filter fun e => e.key ≠ k

theorem without_of_lt (h : ∀ e ∈ es, k < e.key) : without k es = es :=
  filter_eq_self.mpr fun e he => by simpa using (h e he).ne'

theorem lookup_without (hk : k' ≠ k) (es : List (KeyVals K V)) :
    valuesAt k' (without k es) = valuesAt k' es := by
  rw [valuesAt, valuesAt]
  congr 2
  induction es with
  | nil => rfl
  | cons e es ih =>
    by_cases he : e.key = k
    · rw [without, filter_cons_of_neg (by simpa using he), lookup_cons_of_ne (he ▸ Ne.symm hk)]
      exact ih
    · rw [without, filter_cons_of_pos (by simpa using he)]
      by_cases he' : e.key = k'
      · rw [lookup_cons_self he', lookup_cons_self he']
      · rw [lookup_cons_of_ne he', lookup_cons_of_ne he']
        exact ih

def merged (rests : List (List (KeyVals K V))) (k : K) : List V := rests.flatMap (valuesAt k)

theorem length_merged_without_le (k k' : K) (rests : List (List (KeyVals K V))) :
    (merged (rests.map (without k)) k').length ≤ (merged rests k').length := by
  induction rests with
  | nil => exact le_rfl
  | cons es rests ih =>
    rw [merged, map_cons, flatMap_cons, merged, flatMap_cons, length_append, length_append]
    refine Nat.add_le_add ?_ ih
    by_cases hk : k' = k
    · have hnil : valuesAt k' (without k es) = [] := by
        refine valuesAt_of_absent fun hmem => ?_
        obtain ⟨e, he, hkey⟩ := mem_map.mp hmem
        exact of_decide_eq_true (mem_filter.mp he).2 (hkey.trans hk)
      rw [hnil]
      exact Nat.zero_le _
    · rw [lookup_without hk]

theorem length_merged_le {rests : List (List (KeyVals K V))}
    (h : ∀ es ∈ rests, ∀ e ∈ es, e.vals.items.length ≤ n) (k : K) :
    (merged rests k).length ≤ rests.length * n := by
  induction rests with
  | nil => exact Nat.zero_le _
  | cons es rests ih =>
    obtain ⟨hes, hrests⟩ := forall_mem_cons.mp h
    have hfirst : (valuesAt k es).length ≤ n := by
      rw [valuesAt]
      cases hlookup : lookup KeyVals.key k es with
      | none => exact Nat.zero_le n
      | some e => exact hes e (mem_of_find?_eq_some hlookup)
    have hrest := ih hrests
    rw [merged, flatMap_cons, length_append, length_cons, Nat.succ_mul]
    rw [merged] at hrest
    omega

theorem merged_without (hk : k' ≠ k) (rests : List (List (KeyVals K V))) :
    merged (rests.map (without k)) k' = merged rests k' := by
  rw [merged, merged, flatMap_map]
  exact flatMap_congr fun es _ => lookup_without hk es

variable {rests : List (List (KeyVals K V))}

theorem exists_of_merged_ne_nil (h : merged rests k ≠ []) :
    ∃ es ∈ rests, k ∈ es.map KeyVals.key := by
  by_contra hnone
  exact h (flatMap_eq_nil_iff.mpr fun es hes => valuesAt_of_absent fun hk => hnone ⟨es, hes, hk⟩)

theorem merged_ne_nil (hsorted : ∀ es ∈ rests, Sorted KeyVals.key es)
    (hvals : ∀ es ∈ rests, ∀ e ∈ es, e.vals.items ≠ []) (h : ∃ es ∈ rests, k ∈ es.map KeyVals.key) :
    merged rests k ≠ [] := by
  obtain ⟨es, hes, hk⟩ := h
  obtain ⟨e, he, rfl⟩ := mem_map.mp hk
  intro hnil
  have hes' := flatMap_eq_nil_iff.mp hnil es hes
  rw [valuesAt_of_mem (hsorted es hes) he] at hes'
  exact hvals es hes e he hes'

theorem lt_of_head_ne (hsorted : Sorted KeyVals.key es)
    (hleast : ∀ e ∈ es, k ≤ e.key) (hne : es.head?.map KeyVals.key ≠ some k) : ∀ e ∈ es, k < e.key := by
  cases es with
  | nil => simp
  | cons e es =>
    have hlt : k < e.key := lt_of_le_of_ne (hleast e mem_cons_self) fun heq => hne (by simp [heq])
    exact forall_mem_cons.mpr ⟨hlt, fun x hx => hlt.trans ((pairwise_cons.mp hsorted).1 x hx)⟩

/-- How values are moved and emitted: what was moved to `dst` stands for the values in `vs`, and
a pair that has `P` can be moved. -/
structure Moves {E : Type} (mv : Values V → Values V → Option (Values V)) (emit : K → Values V → Option E)
    (P : KeyVals K V → Prop) (R : Values V → List V → Prop) (out : K × List V → E) : Prop where
  room : ∀ n, R (.room n) []
  move : ∀ {dst vs e}, R dst vs → P e → ∃ dst', mv dst e.vals = some dst' ∧ R dst' (vs ++ e.vals.items)
  emit : ∀ {k dst vs e}, R dst vs → P e → e.vals.items ⊆ vs → emit k dst = some (out (k, vs))

omit [LinearOrder K] in
theorem moves_mv : Moves (K := K) (V := V) Values.mv (fun key dst => some (key, dst.items))
    (fun _ => True) (fun dst vs => dst.items = vs) id where
  room _ := rfl
  move hdst _ := ⟨_, rfl, congrArg (· ++ _) hdst⟩
  emit hdst _ _ := by rw [hdst, id]

variable {E : Type} {mv : Values V → Values V → Option (Values V)} {emit : K → Values V → Option E}
  {P : KeyVals K V → Prop} {R : Values V → List V → Prop} {out : K × List V → E}

theorem moveMarked_spec (hmoves : Moves mv emit P R out) (hreads : Forall₂ (Reads h) curs rests)
    (hmarks : Forall₂ (fun key mark => mark = m ↔ key = some k) (curs.map Cursor.key) marks)
    (hsorted : ∀ es ∈ rests, Sorted KeyVals.key es) (hleast : ∀ es ∈ rests, ∀ e ∈ es, k ≤ e.key)
    (hP : ∀ es ∈ rests, ∀ e ∈ es, P e) (hdst : R dst vs) :
    neededLen m marks curs = (merged rests k).length ∧
    ∃ dst' curs', moveMarked mv m marks curs dst = some (dst', curs') ∧
      R dst' (vs ++ merged rests k) ∧ Forall₂ (Reads h) curs' (rests.map (without k)) := by
  induction hreads generalizing marks dst vs with
  | nil =>
    refine ⟨by simp [neededLen, merged], dst, [], by simp [moveMarked], ?_, .nil⟩
    rwa [merged, flatMap_nil, append_nil]
  | @cons cur es curs rests hcur _ ih =>
    obtain ⟨mark, marks, hmark, hmarks', rfl⟩ := forall₂_cons_left_iff.mp hmarks
    obtain ⟨hes, hsorted'⟩ := forall_mem_cons.mp hsorted
    obtain ⟨hfirst, hleast'⟩ := forall_mem_cons.mp hleast
    obtain ⟨hPes, hP'⟩ := forall_mem_cons.mp hP
    have hcons : merged (es :: rests) k = valuesAt k es ++ merged rests k := flatMap_cons
    have hneed : neededLen m (mark :: marks) (cur :: curs) =
        (if mark = m then (cur.map fun x => x.1.vals.items.length).getD 0 else 0) +
          neededLen m marks curs := by simp [neededLen]
    by_cases hm : mark = m
    · have hkey := hmark.mp hm
      cases hcur with
      | ended => simp [Cursor.key] at hkey
      | @«at» e es rest hrest =>
        obtain rfl : e.key = k := some.inj hkey
        obtain ⟨cur', hnext, hcur'⟩ := Reads.next hrest
        obtain ⟨dst₁, hmv, hdst₁⟩ := hmoves.move hdst (hPes e mem_cons_self)
        obtain ⟨hlen, dst', curs', hmove, hitems, hreads⟩ := ih hmarks' hsorted' hleast' hP' hdst₁
        have hlt : ∀ x ∈ es, e.key < x.key := (pairwise_cons.mp hes).1
        have hwithout : without e.key (e :: es) = es := by
          rw [without, filter_cons_of_neg (by simp)]
          exact without_of_lt hlt
        have hvals := valuesAt_of_mem hes mem_cons_self
        refine ⟨?_, dst', cur' :: curs', ?_, ?_, ?_⟩
        · rw [hneed, if_pos hm, hlen, hcons, hvals, length_append]
          rfl
        · rw [moveMarked, if_pos hm, bind_some]
          simp only [hmv, hnext, bind_some, hmove, map_some]
        · rwa [hcons, hvals, ← append_assoc]
        · rw [map_cons, hwithout]
          exact .cons hcur' hreads
    · have hlt : ∀ e ∈ es, k < e.key :=
        lt_of_head_ne hes hfirst fun heq => hm (hmark.mpr (hcur.key.trans heq))
      have habsent : k ∉ es.map KeyVals.key := notMem_of_between (a := []) (by simp) hlt
      obtain ⟨hlen, dst', curs', hmove, hitems, hreads⟩ := ih hmarks' hsorted' hleast' hP' hdst
      rw [hcons, valuesAt_of_absent habsent, nil_append]
      refine ⟨by rw [hneed, if_neg hm, hlen, Nat.zero_add], dst', cur :: curs', ?_, hitems, ?_⟩
      · rw [moveMarked, if_neg hm, hmove, map_some]
      · rw [map_cons, without_of_lt hlt]
        exact .cons hcur hreads

omit [LinearOrder K] in
theorem map_key_eq (hreads : Forall₂ (Reads h) curs rests) :
    curs.map Cursor.key = rests.map fun es => es.head?.map KeyVals.key := by
  rw [← forall₂_eq_eq_eq, forall₂_map_left_iff, forall₂_map_right_iff]
  exact hreads.imp fun _ _ => Reads.key

theorem exists_least
    (hreads : Forall₂ (Reads h) curs rests) (hsorted : ∀ es ∈ rests, Sorted KeyVals.key es)
    (hmarked : Marked (curs.map Cursor.key) none (some k) 0 m marks) :
    (∀ es ∈ rests, ∀ e ∈ es, k ≤ e.key) ∧ ∃ es ∈ rests, k ∈ es.map KeyVals.key := by
  have hheads := map_key_eq hreads
  constructor
  · intro es hes e he
    obtain ⟨x, es', rfl⟩ := exists_cons_of_ne_nil (ne_nil_of_mem he)
    obtain ⟨k', hk', hle⟩ := hmarked.least x.key (.inr (by rw [hheads]; exact mem_map.mpr ⟨_, hes, rfl⟩))
    obtain rfl := some.inj hk'
    rcases mem_cons.mp he with rfl | he
    · exact hle
    · exact hle.trans ((pairwise_cons.mp (hsorted _ hes)).1 e he).le
  · rcases hmarked.old_or_new with ⟨hnone, -⟩ | ⟨-, -, hmem⟩
    · exact absurd hnone (some_ne_none k)
    · rw [hheads] at hmem
      obtain ⟨es, hes, hhead⟩ := mem_map.mp hmem
      obtain ⟨e, he, hkey⟩ := map_eq_some_iff.mp hhead
      exact ⟨es, hes, mem_map.mpr ⟨e, mem_of_mem_head? he, hkey⟩⟩

theorem groupRound_spec (hmoves : Moves mv emit P R out)
    (hreads : Forall₂ (Reads h) curs rests) (hsorted : ∀ es ∈ rests, Sorted KeyVals.key es)
    (hP : ∀ es ∈ rests, ∀ e ∈ es, P e) (allocLen : ℕ) :
    (groupRound c.cmp mv curs allocLen = some none ∧ ∀ es ∈ rests, es = []) ∨
    ∃ k dst curs', groupRound c.cmp mv curs allocLen =
        (if (merged rests k).length < 2 ^ 31 then some (some (k, dst, curs')) else none) ∧
      R dst (merged rests k) ∧ Forall₂ (Reads h) curs' (rests.map (without k)) ∧
      (∀ es ∈ rests, ∀ e ∈ es, k ≤ e.key) ∧ ∃ es ∈ rests, k ∈ es.map KeyVals.key := by
  have hmarked := mark_spec (c := c) (curs.map Cursor.key) none 0 (by simp)
  generalize hmark : mark c.cmp (curs.map Cursor.key) none 0 = scan at hmarked
  obtain ⟨min, m, marks⟩ := scan
  dsimp only at hmarked
  cases min with
  | none =>
    refine .inl ⟨by simp only [groupRound, hmark], fun es hes => ?_⟩
    cases es with
    | nil => rfl
    | cons e es =>
      have hmem : some e.key ∈ curs.map Cursor.key := by
        rw [map_key_eq hreads]
        exact mem_map.mpr ⟨_, hes, rfl⟩
      obtain ⟨k', hk', -⟩ := hmarked.least e.key (.inr hmem)
      exact absurd hk'.symm (some_ne_none k')
  | some k =>
    obtain ⟨hleast, hmem⟩ := exists_least hreads hsorted hmarked
    obtain ⟨hlen, dst, curs', hmove, hitems, hreads'⟩ := moveMarked_spec hmoves hreads hmarked.marks
      hsorted hleast hP
      (hmoves.room (if allocLen < neededLen m marks curs then neededLen m marks curs else allocLen))
    refine .inr ⟨k, dst, curs', ?_, hitems, hreads', hleast, hmem⟩
    simp only [groupRound, hmark, hmove, map_some]
    rw [hlen]

theorem length_without_lt (hk : k ∈ es.map KeyVals.key) : (without k es).length < es.length := by
  obtain ⟨e, he, hkey⟩ := mem_map.mp hk
  exact length_filter_lt_length_iff_exists.mpr ⟨e, he, by simpa using hkey⟩

theorem sum_without_lt (h : ∃ es ∈ rests, k ∈ es.map KeyVals.key) :
    ((rests.map (without k)).map length).sum < (rests.map length).sum := by
  obtain ⟨es, hes, hk⟩ := h
  rw [List.map_map]
  exact sum_lt_sum _ _ (fun es _ => length_filter_le _ _) ⟨es, hes, length_without_lt hk⟩

theorem sorted_without (hsorted : ∀ es ∈ rests, Sorted KeyVals.key es) :
    ∀ es ∈ rests.map (without k), Sorted KeyVals.key es := by
  intro es' hes'
  obtain ⟨es, hes, rfl⟩ := mem_map.mp hes'
  exact (hsorted es hes).filter _

structure Merges (calls : List (K × List V)) (rests : List (List (KeyVals K V))) : Prop where
  sorted : calls.Pairwise fun x y => x.1 < y.1
  keys : ∀ k, k ∈ calls.map Prod.fst ↔ ∃ es ∈ rests, k ∈ es.map KeyVals.key
  values : ∀ x ∈ calls, x.2 = merged rests x.1

theorem mem_key_without :
    k' ∈ (without k es).map KeyVals.key ↔ k' ∈ es.map KeyVals.key ∧ k' ≠ k := by
  simp only [without, List.mem_map, mem_filter, decide_eq_true_eq]
  constructor
  · rintro ⟨e, ⟨he, hne⟩, rfl⟩
    exact ⟨⟨e, he, rfl⟩, hne⟩
  · rintro ⟨⟨e, he, rfl⟩, hne⟩
    exact ⟨e, ⟨he, hne⟩, rfl⟩

theorem Merges.nil (h : ∀ es ∈ rests, es = []) : Merges [] rests where
  sorted := .nil
  keys k := by
    refine iff_of_false (by simp) ?_
    rintro ⟨es, hes, hk⟩
    rw [h es hes] at hk
    exact absurd hk (by simp)
  values := by simp

theorem Merges.cons
    (h : Merges calls (rests.map (without k))) (hleast : ∀ es ∈ rests, ∀ e ∈ es, k ≤ e.key)
    (hmem : ∃ es ∈ rests, k ∈ es.map KeyVals.key) : Merges ((k, merged rests k) :: calls) rests := by
  have hkeys : ∀ k', k' ∈ calls.map Prod.fst ↔ (∃ es ∈ rests, k' ∈ es.map KeyVals.key) ∧ k' ≠ k := by
    intro k'
    rw [h.keys]
    simp only [List.mem_map (f := without k), exists_exists_and_eq_and, mem_key_without]
    exact ⟨fun ⟨es, hes, hk, hne⟩ => ⟨⟨es, hes, hk⟩, hne⟩, fun ⟨⟨es, hes, hk⟩, hne⟩ => ⟨es, hes, hk, hne⟩⟩
  have hne : ∀ x ∈ calls, x.1 ≠ k := fun x hx => ((hkeys x.1).mp (mem_map_of_mem hx)).2
  refine ⟨pairwise_cons.mpr ⟨fun x hx => ?_, h.sorted⟩, fun k' => ?_, ?_⟩
  · obtain ⟨⟨es, hes, hk⟩, -⟩ := (hkeys x.1).mp (mem_map_of_mem hx)
    obtain ⟨e, he, heq⟩ := mem_map.mp hk
    exact lt_of_le_of_ne (heq ▸ hleast es hes e he) (hne x hx).symm
  · rw [map_cons, mem_cons, hkeys]
    by_cases hk' : k' = k
    · subst hk'
      exact iff_of_true (.inl rfl) hmem
    · simp [hk']
  · refine forall_mem_cons.mpr ⟨rfl, fun x hx => ?_⟩
    rw [h.values x hx, merged_without (hne x hx)]

theorem Merges.groups (h : Merges calls rests)
    (hsorted : ∀ es ∈ rests, Sorted KeyVals.key es) (hvals : ∀ es ∈ rests, ∀ e ∈ es, e.vals.items ≠ []) :
    Groups calls (merged rests) where
  sorted := h.sorted
  keys k := (h.keys k).trans ⟨merged_ne_nil hsorted hvals, exists_of_merged_ne_nil⟩
  values x hx := .of_eq (h.values x hx)

theorem groupRounds_spec (hmoves : Moves mv emit P R out) (reuse : Bool) (fuel : ℕ)
    (hreads : Forall₂ (Reads h) curs rests) (hsorted : ∀ es ∈ rests, Sorted KeyVals.key es)
    (hP : ∀ es ∈ rests, ∀ e ∈ es, P e) (hshort : ∀ k, (merged rests k).length < 2 ^ 31)
    (hfuel : (rests.map length).sum < fuel) (allocLen : ℕ) :
    ∃ calls curs', groupRounds c.cmp mv emit reuse fuel curs allocLen = some (calls.map out, curs') ∧
      Merges calls rests ∧ curs' = replicate rests.length none := by
  induction fuel generalizing curs rests allocLen with
  | zero => exact absurd hfuel (Nat.not_lt_zero _)
  | succ fuel ih =>
    rw [groupRounds]
    rcases groupRound_spec (c := c) hmoves hreads hsorted hP allocLen with
      ⟨hround, hnil⟩ | ⟨k, dst, curs', hround, hitems, hreads', hleast, hmem⟩
    · refine ⟨[], curs, by rw [hround, bind_some]; rfl, .nil hnil, ?_⟩
      refine eq_replicate_iff.mpr ⟨hreads.length_eq, fun cur hcur => ?_⟩
      obtain ⟨es, hes, hread⟩ := Fallible.exists_of_mem_right hreads.flip hcur
      exact Reads.eq_none (hnil es hes ▸ hread)
    · rw [if_pos (hshort k)] at hround
      have hlt := sum_without_lt hmem
      obtain ⟨es, hes, hk⟩ := hmem
      obtain ⟨e, he, rfl⟩ := mem_map.mp hk
      have hemit := hmoves.emit (k := e.key) hitems (hP es hes e he) fun v hv =>
        mem_flatMap.mpr ⟨es, hes, by rwa [valuesAt_of_mem (hsorted es hes) he]⟩
      obtain ⟨calls, curs'', hrounds, hmerges, hended⟩ := ih hreads' (sorted_without hsorted)
        (fun es' hes' x hx => by
          obtain ⟨es, hes, rfl⟩ := mem_map.mp hes'
          exact hP es hes x (mem_of_mem_filter hx))
        (fun k => (length_merged_without_le ..).trans_lt (hshort k)) (by omega)
        (if reuse then dst.allocLen else 0)
      refine ⟨(e.key, merged rests e.key) :: calls, curs'', ?_, hmerges.cons hleast ⟨es, hes, hk⟩, ?_⟩
      · simp only [hround, bind_some, hemit, hrounds, map_some, map_cons]
      · rwa [length_map] at hended

theorem Handler.Lawful.mapM_openCursor (law : h.Lawful searched Rep) (hnodes : Forall₂ Rep nodes rests) :
    ∃ curs, nodes.mapM (openCursor h) = some curs ∧ Forall₂ (Reads h) curs rests := by
  obtain ⟨curs, hcurs, hreads⟩ := Fallible.mapM_of_forall₂ hnodes.flip fun _ _ => law.openCursor_spec
  exact ⟨curs, hcurs, hreads.flip⟩

theorem Handler.Lawful.sum_getLen (law : h.Lawful searched Rep)
    (hnodes : Forall₂ Rep nodes rests) : (nodes.map h.getLen).sum = (rests.map length).sum := by
  congr 1
  rw [← forall₂_eq_eq_eq, forall₂_map_left_iff, forall₂_map_right_iff]
  exact hnodes.imp fun _ _ => law.getLen

def MergesNodes (h : Handler K V) (cmp : K → K → ℤ) (atype : AppType) (nodes : List h.Coll)
    (rests : List (List (KeyVals K V))) : Prop :=
  ∃ opened calls left, nodes.mapM (openCursor h) = some opened ∧
    groupKvs cmp atype ((nodes.map h.getLen).sum + 1) opened = some (calls, left) ∧
    reduceOrGroupkvs h cmp atype nodes = some calls ∧ Merges calls rests ∧
    left = replicate nodes.length none

theorem Handler.Lawful.mergesNodes (law : h.Lawful searched Rep) (atype : AppType)
    (hnodes : Forall₂ Rep nodes rests) (hsorted : ∀ es ∈ rests, Sorted KeyVals.key es)
    (hshort : ∀ k, (merged rests k).length < 2 ^ 31) : MergesNodes h c.cmp atype nodes rests := by
  obtain ⟨curs, hcurs, hreads⟩ := law.mapM_openCursor hnodes
  obtain ⟨calls, left, hrounds, hmerges, hleft⟩ := groupRounds_spec (c := c) moves_mv (atype = .mapreduce)
    ((nodes.map h.getLen).sum + 1) hreads hsorted (fun _ _ _ _ => trivial) hshort
    (by rw [law.sum_getLen hnodes]; exact Nat.lt_succ_self _) 0
  rw [List.map_id] at hrounds
  refine ⟨curs, calls, left, hcurs, hrounds, ?_, hmerges, by rw [hleft, hnodes.length_eq]⟩
  rw [reduceOrGroupkvs, hcurs, bind_some, groupKvs, hrounds, map_some]

theorem Handler.Lawful.reduceOrGroupkvs_spec (law : h.Lawful searched Rep) (atype : AppType)
    (hnodes : Forall₂ Rep nodes rests) (hsorted : ∀ es ∈ rests, Sorted KeyVals.key es)
    (hvals : ∀ es ∈ rests, ∀ e ∈ es, e.vals.items ≠ []) (hshort : ∀ k, (merged rests k).length < 2 ^ 31) :
    ∃ calls, reduceOrGroupkvs h c.cmp atype nodes = some calls ∧ Groups calls (merged rests) := by
  obtain ⟨-, calls, -, -, -, hcalls, hmerges, -⟩ := law.mergesNodes (c := c) atype hnodes hsorted hshort
  exact ⟨calls, hcalls, hmerges.groups hsorted hvals⟩

/-- The values of a single key that are too many. -/
theorem groupRounds_fails (hmoves : Moves mv emit P R out) (hreads : Forall₂ (Reads h) curs rests)
    (hsorted : ∀ es ∈ rests, Sorted KeyVals.key es) (hP : ∀ es ∈ rests, ∀ e ∈ es, P e)
    (hkeys : ∀ es ∈ rests, ∀ e ∈ es, e.key = k) (hlong : 2 ^ 31 ≤ (merged rests k).length) (reuse : Bool)
    (fuel allocLen : ℕ) : groupRounds c.cmp mv emit reuse (fuel + 1) curs allocLen = none := by
  have hsome : merged rests k ≠ [] := by
    intro hnil
    rw [hnil] at hlong
    exact absurd hlong (Nat.not_le.mpr (Nat.two_pow_pos 31))
  rw [groupRounds]
  rcases groupRound_spec (c := c) hmoves hreads hsorted hP allocLen with
    ⟨-, hnil⟩ | ⟨k', dst, curs', hround, -, -, -, es, hes, hk⟩
  · obtain ⟨es, hes, hk⟩ := exists_of_merged_ne_nil hsome
    rw [hnil es hes] at hk
    exact absurd hk not_mem_nil
  · obtain ⟨e, he, rfl⟩ := mem_map.mp hk
    rw [hkeys es hes e he, if_neg (Nat.not_lt.mpr hlong)] at hround
    rw [hround, bind_none]

theorem Handler.Lawful.reduceOrGroupkvs_fails (law : h.Lawful searched Rep) (atype : AppType)
    (hnodes : Forall₂ Rep nodes rests) (hsorted : ∀ es ∈ rests, Sorted KeyVals.key es)
    (hkeys : ∀ es ∈ rests, ∀ e ∈ es, e.key = k) (hlong : 2 ^ 31 ≤ (merged rests k).length) :
    reduceOrGroupkvs h c.cmp atype nodes = none := by
  obtain ⟨curs, hcurs, hreads⟩ := law.mapM_openCursor hnodes
  rw [reduceOrGroupkvs, hcurs, bind_some, groupKvs,
    groupRounds_fails moves_mv hreads hsorted (fun _ _ _ _ => trivial) hkeys hlong, map_none]

theorem Handler.Lawful.exists_rep (law : h.Lawful searched Rep) (hsorted : Sorted KeyVals.key es)
    (hlen : es.length ≤ 2 ^ 30 + 2) : ∃ coll, Rep coll es := by
  induction es with
  | nil => exact ⟨h.init, law.init⟩
  | cons e es ih =>
    obtain ⟨hlt, hsorted'⟩ := pairwise_cons.mp hsorted
    rw [length_cons] at hlen
    obtain ⟨coll, hrep⟩ := ih hsorted' (by omega)
    have habsent : e.key ∉ es.map KeyVals.key := notMem_of_between (a := []) (by simp) hlt
    obtain ⟨coll', -, hrep'⟩ := law.insertKvs hrep e habsent fun _ => by omega
    have hput : putPair e es = e :: es := upsert_of_absent (a := []) (by simp) hlt
    exact ⟨coll', hput ▸ hrep'⟩

theorem Handler.Lawful.exists_reps (law : h.Lawful searched Rep)
    (hsorted : ∀ es ∈ rests, Sorted KeyVals.key es) (hlen : ∀ es ∈ rests, es.length ≤ 2 ^ 30 + 2) :
    ∃ nodes, Forall₂ Rep nodes rests := by
  induction rests with
  | nil => exact ⟨[], .nil⟩
  | cons es rests ih =>
    obtain ⟨hes, hsorted'⟩ := forall_mem_cons.mp hsorted
    obtain ⟨hlen, hlen'⟩ := forall_mem_cons.mp hlen
    obtain ⟨coll, hrep⟩ := law.exists_rep hes hlen
    obtain ⟨nodes, hreps⟩ := ih hsorted' hlen'
    exact ⟨coll :: nodes, .cons hrep hreps⟩

/-- Whatever nodes reduce_or_groupkvs is given, B+trees or arrays, with fewer than 2^31 values of
any key: it makes one call for each key, in increasing order and with the values of that key in the
order of the nodes, and it reads all nodes to their end. -/
theorem group_merge_calls (c : KeyComparator K) (atype : AppType) (rests : List (List (KeyVals K V)))
    (hsorted : ∀ es ∈ rests, Keyed.Sorted KeyVals.key es)
    (hshort : ∀ k, (merged rests k).length < 2 ^ 31) :
    (∀ nodes : List (BTree.Tree K V), List.Forall₂ BTree.Represents nodes rests →
      MergesNodes (hkvsbtree c.cmp) c.cmp atype nodes rests) ∧
    ∀ nodes : List (KvsArr K V), List.Forall₂ KvsArr.Represents nodes rests →
      MergesNodes (hkvsarr c.cmp) c.cmp atype nodes rests :=
  ⟨fun _ hnodes => (hkvsbtree_lawful c).mergesNodes atype hnodes hsorted hshort,
    fun _ hnodes => (hkvsarr_lawful c).mergesNodes atype hnodes hsorted hshort⟩

def threeNodes : List (List (KeyVals ℕ ℕ)) :=
  [[((KeyVals.fresh 1 0).insert 10).insert 11, (KeyVals.fresh 3 0).insert 30], [],
    [(KeyVals.fresh 1 0).insert 12, .fresh 2 0]]

theorem group_merge_calls_three :
    (∃ nodes : List (BTree.Tree ℕ ℕ), List.Forall₂ BTree.Represents nodes threeNodes ∧
      MergesNodes (hkvsbtree difference.cmp) difference.cmp .mapreduce nodes threeNodes) ∧
    ∃ nodes : List (KvsArr ℕ ℕ), List.Forall₂ KvsArr.Represents nodes threeNodes ∧
      MergesNodes (hkvsarr difference.cmp) difference.cmp .mapreduce nodes threeNodes := by
  have hsorted : ∀ es ∈ threeNodes, Sorted KeyVals.key es := by
    simp [threeNodes, Sorted]
  have hlen : ∀ es ∈ threeNodes, es.length ≤ 2 ^ 30 + 2 := by
    have hall : ∀ es ∈ threeNodes, es.length ≤ 2 := by decide
    exact fun es hes => (hall es hes).trans (by decide)
  obtain ⟨hbtree, harr⟩ := group_merge_calls difference .mapreduce threeNodes hsorted
    fun k => (length_merged_le (n := 2) (by decide) k).trans_lt (by decide)
  obtain ⟨trees, htrees⟩ := (hkvsbtree_lawful difference).exists_reps hsorted hlen
  obtain ⟨arrs, harrs⟩ := (hkvsarr_lawful difference).exists_reps hsorted hlen
  exact ⟨⟨trees, htrees, hbtree trees htrees⟩, arrs, harrs, harr arrs harrs⟩

/-- A node with `n` values of one key. -/
def oneKey (n : ℕ) : List (KeyVals ℕ ℕ) := [⟨0, ⟨replicate n 0, n, by simp⟩, 0⟩]

theorem reduceOrGroupkvs_oneKey {n : ℕ} (hn : 2 ^ 31 ≤ n) : ∃ nodes : List (BTree.Tree ℕ ℕ),
    Forall₂ BTree.Represents nodes [oneKey n] ∧
      reduceOrGroupkvs (hkvsbtree difference.cmp) difference.cmp .mapreduce
        nodes = none := by
  have law := hkvsbtree_lawful (V := ℕ) difference
  have hsorted : ∀ es ∈ [oneKey n], Sorted KeyVals.key es := by simp [oneKey, Sorted]
  have hvals : merged [oneKey n] 0 = replicate n 0 := flatMap_singleton ..
  obtain ⟨nodes, hnodes⟩ := law.exists_reps hsorted (by simp [oneKey])
  refine ⟨nodes, hnodes, law.reduceOrGroupkvs_fails (k := 0) .mapreduce hnodes hsorted ?_ ?_⟩
  · simp [oneKey]
  · rwa [hvals, length_replicate]

/-- A node with 2^31 values of one key: their number is no int. -/
theorem group_merge_overflows : ∃ nodes : List (BTree.Tree ℕ ℕ),
    List.Forall₂ BTree.Represents nodes [oneKey (2 ^ 31)] ∧
      reduceOrGroupkvs (hkvsbtree difference.cmp) difference.cmp .mapreduce
        nodes = none :=
  reduceOrGroupkvs_oneKey le_rfl

end

def runLoop (cmp : K → K → ℤ) (atype : AppType) : ℕ → List (KeyVal K V) → ℕ → Option (List (K × List V))
  | _, [], _ => some []
  | 0, _ :: _, _ => none
  | fuel + 1, kv :: kvs, allocLen =>
    let run := kvs.takeWhile fun kv' => cmp kv.key kv'.key = 0
    (((kv :: run).map KeyVal.val).foldlM Values.insert? (.room allocLen)).bind fun vals =>
    (runLoop cmp atype fuel (kvs.drop run.length) (if atype = .mapreduce then vals.allocLen else 0)).map
      ((kv.key, vals.items) :: ·)

/-- The indices into the array of all pairs have to be ints. -/
def reduceOrGroupkv (cmp : K → K → ℤ) (sort : List (KeyVal K V) → List (KeyVal K V)) (atype : AppType)
    (nodes : List (List (KeyVal K V))) : Option (List (K × List V)) :=
  let arr := sort nodes.flatten
  if arr.length < 2 ^ 31 then runLoop cmp atype arr.length arr 0 else none

section Runs

variable [LinearOrder K] {c : KeyComparator K}

theorem exists_run {kvs : List (KeyVal K V)} (hsorted : kvs.Pairwise fun x y => x.key ≤ y.key)
    (hle : ∀ kv ∈ kvs, k ≤ kv.key) :
    ∃ run rest, kvs.takeWhile (fun kv => c.cmp k kv.key = 0) = run ∧ kvs = run ++ rest ∧
      (∀ kv ∈ run, kv.key = k) ∧ ∀ kv ∈ rest, k < kv.key := by
  induction kvs with
  | nil => exact ⟨[], [], rfl, rfl, by simp, by simp⟩
  | cons kv kvs ih =>
    obtain ⟨hkv, hsorted'⟩ := pairwise_cons.mp hsorted
    obtain ⟨hfirst, hle'⟩ := forall_mem_cons.mp hle
    by_cases hcmp : c.cmp k kv.key = 0
    · obtain ⟨run, rest, hrun, rfl, hkeys, hrest⟩ := ih hsorted' hle'
      refine ⟨kv :: run, rest, by simp [hcmp, hrun], rfl, forall_mem_cons.mpr ⟨?_, hkeys⟩, hrest⟩
      exact ((c.eq_zero_iff _ _).mp hcmp).symm
    · have hlt : k < kv.key := lt_of_le_of_ne hfirst fun heq => hcmp ((c.eq_zero_iff _ _).mpr heq)
      exact ⟨[], kv :: kvs, by simp [hcmp], rfl, by simp,
        forall_mem_cons.mpr ⟨hlt, fun x hx => hlt.trans_le (hkv x hx)⟩⟩

theorem runLoop_spec (atype : AppType) (fuel : ℕ) {kvs : List (KeyVal K V)}
    (hsorted : kvs.Pairwise fun x y => x.key ≤ y.key) (hfuel : kvs.length ≤ fuel)
    (hshort : kvs.length ≤ 2 ^ 31) (allocLen : ℕ) :
    ∃ calls, runLoop c.cmp atype fuel kvs allocLen = some calls ∧ Groups calls (valuesOf (kvs.map KeyVal.pair)) := by
  induction fuel generalizing kvs allocLen with
  | zero =>
    obtain rfl := length_eq_zero_iff.mp (Nat.le_zero.mp hfuel)
    exact ⟨[], rfl, .nil fun _ => rfl⟩
  | succ fuel ih =>
    cases kvs with
    | nil => exact ⟨[], rfl, .nil fun _ => rfl⟩
    | cons kv kvs =>
      obtain ⟨hle, hsorted'⟩ := pairwise_cons.mp hsorted
      obtain ⟨run, rest, hrun, rfl, hkeys, hlt⟩ := exists_run (c := c) hsorted' hle
      rw [length_cons, length_append] at hfuel hshort
      have hvals := Values.foldlM_insert?_eq (.room allocLen) ((kv :: run).map KeyVal.val)
        (by simp only [Values.room, length_nil, length_map, length_cons]; omega)
      obtain ⟨calls, hloop, hgroups⟩ := ih (pairwise_append.mp hsorted').2.1 (by omega) (by omega)
        (if atype = .mapreduce then
          (((kv :: run).map KeyVal.val).foldl Values.insert (.room allocLen)).allocLen else 0)
      refine ⟨(kv.key, (kv :: run).map KeyVal.val) :: calls, ?_, ?_⟩
      · simp only [runLoop, hrun, drop_left, hvals, bind_some, hloop, map_some]
        rw [Values.items_foldl_insert]
        rfl
      · have hpairs : (kv :: (run ++ rest)).map KeyVal.pair =
            ((kv :: run).map KeyVal.val).map (kv.key, ·) ++ rest.map KeyVal.pair := by
          rw [← cons_append, map_append, List.map_map]
          refine congrArg (· ++ _) (map_congr_left fun x hx => ?_)
          rcases mem_cons.mp hx with rfl | hx
          · rfl
          · simp [KeyVal.pair, hkeys x hx]
        have hvals : ∀ k, valuesOf ((kv :: (run ++ rest)).map KeyVal.pair) k =
            (if kv.key = k then (kv :: run).map KeyVal.val else []) ++
              valuesOf (rest.map KeyVal.pair) k := fun k => by
          rw [hpairs, valuesOf_append, valuesOf_map]
        have hgt : ∀ k, valuesOf (rest.map KeyVal.pair) k ≠ [] → kv.key < k := fun k hk => by
          obtain ⟨p, hp, rfl⟩ := mem_map.mp (valuesOf_ne_nil.mp hk)
          obtain ⟨x, hx, rfl⟩ := mem_map.mp hp
          exact hlt x hx
        have hself : valuesOf (rest.map KeyVal.pair) kv.key = [] :=
          not_not.mp fun hk => lt_irrefl _ (hgt _ hk)
        have hfirst : valuesOf ((kv :: (run ++ rest)).map KeyVal.pair) kv.key =
            (kv :: run).map KeyVal.val := by rw [hvals, if_pos rfl, hself, append_nil]
        rw [← hfirst]
        refine hgroups.cons hgt (by rw [hfirst]; simp) fun k hk => ?_
        rw [hvals, if_neg (Ne.symm hk), nil_append]

theorem reduceOrGroupkv_spec (q : QSort (c.toComparator.comap (KeyVal.key (V := V)))) (atype : AppType)
    (nodes : List (List (KeyVal K V))) (hshort : nodes.flatten.length < 2 ^ 31) :
    ∃ calls, reduceOrGroupkv c.cmp q.sort atype nodes = some calls ∧
      Groups calls (valuesOf (nodes.flatten.map KeyVal.pair)) := by
  have hsorted : (q.sort nodes.flatten).Pairwise fun x y => x.key ≤ y.key :=
    (q.sorted nodes.flatten).imp fun h => c.le_iff.mp h
  rw [← (q.perm nodes.flatten).length_eq] at hshort
  obtain ⟨calls, hloop, hgroups⟩ := runLoop_spec (c := c) atype _ hsorted le_rfl hshort.le 0
  exact ⟨calls, by rw [reduceOrGroupkv, if_pos hshort, hloop], hgroups.congr (valuesOf_perm ((q.perm nodes.flatten).map _))⟩

end Runs

end Mosbench.Metis
