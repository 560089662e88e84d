import Mathlib.Algebra.BigOperators.Group.List.Lemmas
import Mosbench.Metis.Buckets

/-!
What a bucket manager has to do. A row of a table stands for the values of each key; a bucket
of the row has those of the keys whose hash selects its column. Putting a pair adds a value to
a row, rehashing moves a row from the backup to the table, and a reduce task brings the values
of a column together. All three managers do so while there is room for the values.
-/
namespace Mosbench.Metis

open Grouping List Option Function Keyed

variable {K V : Type} [LinearOrder K]

def addValues (vals : K → List V) (key : K) (new : List V) (k : K) : List V :=
  if key = k then vals k ++ new else vals k

def share (hashOf : K → ℕ) (cols col : ℕ) (vals : K → List V) (k : K) : List V :=
  if hashOf k % cols = col then vals k else []

omit [LinearOrder K] in
theorem length_share_le (hashOf : K → ℕ) (cols col : ℕ) (vals : K → List V) (k : K) :
    (share hashOf cols col vals k).length ≤ (vals k).length := by
  rw [share]
  split_ifs
  · exact le_rfl
  · exact Nat.zero_le _

omit [LinearOrder K] in
theorem share_nil (hashOf : K → ℕ) (cols col : ℕ) : share hashOf cols col (fun _ => ([] : List V)) = fun _ => [] :=
  funext fun _ => ite_self _

theorem share_addValues_self (hashOf : K → ℕ) (cols : ℕ) (vals : K → List V) (key : K) (new : List V) :
    share hashOf cols (hashOf key % cols) (addValues vals key new) =
      addValues (share hashOf cols (hashOf key % cols) vals) key new := by
  funext k
  simp only [share, addValues]
  by_cases hk : key = k
  · simp [hk]
  · simp [hk]

theorem share_addValues_of_ne (vals : K → List V) (new : List V) (hcol : col ≠ hashOf key % cols) :
    share hashOf cols col (addValues vals key new) = share hashOf cols col vals := by
  funext k
  simp only [share, addValues]
  by_cases hk : key = k
  · subst hk
    rw [if_neg (Ne.symm hcol), if_neg (Ne.symm hcol)]
  · rw [if_neg hk]

section Rows

variable {C B : Type}

structure RowHolds (Stores : C → (K → List V) → Prop) (hashOf : K → ℕ) (m : Mapper C) (row : ℕ)
    (vals : K → List V) : Prop where
  lt : row < m.mapRows
  pos : 0 < m.mapCols
  bucket : ∀ col < m.mapCols, ∃ b, m.bucket row col = some b ∧ Stores b (share hashOf m.mapCols col vals)

structure SameExcept (row : ℕ) (m m' : Mapper C) : Prop where
  mapRows : m'.mapRows = m.mapRows
  mapCols : m'.mapCols = m.mapCols
  other : ∀ r, r ≠ row → m'.mbks r = m.mbks r

theorem SameExcept.refl (row : ℕ) (m : Mapper C) : SameExcept row m m := ⟨rfl, rfl, fun _ _ => rfl⟩

theorem SameExcept.trans (h : SameExcept row m m') (h' : SameExcept row m' m'') :
    SameExcept row m m'' :=
  ⟨h'.mapRows.trans h.mapRows, h'.mapCols.trans h.mapCols, fun r hr => (h'.other r hr).trans (h.other r hr)⟩

theorem SameExcept.bucket (h : SameExcept row m m') (hr : r ≠ row) (col : ℕ) :
    m'.bucket r col = m.bucket r col := by
  rw [Mapper.bucket, Mapper.bucket, h.mapRows, h.mapCols, h.other r hr]

theorem sameExcept_setBucket (m : Mapper C) (row col : ℕ) (b : C) : SameExcept row m (m.setBucket row col b) :=
  ⟨rfl, rfl, fun _ hr => update_of_ne hr ..⟩

theorem bucket_setBucket_self {m : Mapper C} (h : m.bucket row col = some b) (b' : C) :
    (m.setBucket row col b').bucket row col = some b' := by
  rw [Mapper.bucket] at h ⊢
  split_ifs at h with hlt
  obtain ⟨cells, hcells, -⟩ := map_eq_some_iff.mp h
  simp [Mapper.setBucket, hcells, hlt]

theorem bucket_setBucket_of_ne (m : Mapper C) (hcol : col' ≠ col) (b : C) :
    (m.setBucket row col b).bucket row col' = m.bucket row col' := by
  rw [Mapper.bucket, Mapper.bucket]
  simp only [Mapper.setBucket, update_self, Option.map_map]
  congr 2
  funext cells
  exact update_of_ne hcol ..

omit [LinearOrder K] in
theorem RowHolds.other (h : RowHolds Stores hashOf m r vals) (hsame : SameExcept row m m')
    (hr : r ≠ row) : RowHolds Stores hashOf m' r vals := by
  refine ⟨hsame.mapRows ▸ h.lt, hsame.mapCols ▸ h.pos, fun col hcol => ?_⟩
  rw [hsame.mapCols] at hcol ⊢
  rw [hsame.bucket hr]
  exact h.bucket col hcol

theorem RowHolds.change (h : RowHolds Stores hashOf m row vals) (key : K) (new : List V)
    (hf : ∀ b, Stores b (share hashOf m.mapCols (hashOf key % m.mapCols) vals) →
      ∃ b' x, f b = some (b', x) ∧
        Stores b' (addValues (share hashOf m.mapCols (hashOf key % m.mapCols) vals) key new)) :
    ∃ m' x, m.change row (hashOf key) f = some (m', x) ∧ SameExcept row m m' ∧
      RowHolds Stores hashOf m' row (addValues vals key new) := by
  obtain ⟨b, hb, hstores⟩ := h.bucket (hashOf key % m.mapCols) (Nat.mod_lt _ h.pos)
  obtain ⟨b', x, hfb, hstores'⟩ := hf b hstores
  refine ⟨m.setBucket row (hashOf key % m.mapCols) b', x, ?_, sameExcept_setBucket .., h.lt, h.pos,
    fun col hcol => ?_⟩
  · rw [Mapper.change, hb, bind_some, hfb, map_some]
  · change col < m.mapCols at hcol
    change ∃ b, _ ∧ Stores b (share hashOf m.mapCols col _)
    by_cases hkey : col = hashOf key % m.mapCols
    · subst hkey
      exact ⟨b', bucket_setBucket_self hb b', by rwa [share_addValues_self]⟩
    · rw [bucket_setBucket_of_ne m hkey, share_addValues_of_ne vals new hkey]
      exact h.bucket col hcol

omit [LinearOrder K] in
theorem withMapper_eq {s : Mgr C}
    (hmapper : s.mapper = some m) (hf : f m = some (m', x)) :
    s.withMapper f = some ({ s with mapper := some m' }, x) := by
  rw [Mgr.withMapper, hmapper, bind_some, hf, map_some]

omit [LinearOrder K] in
theorem rehashWith_spec {s : Mgr C} {Room : (K → List V) → Prop}
    (left : (ℕ → C) → Option (ℕ → C))
    (hmono : ∀ {vals vals' : K → List V}, (∀ k, (vals k).length ≤ (vals' k).length) → Room vals' → Room vals)
    (hroom : Room vals) (hmapper : s.mapper = some m) (hbak : s.mapperBak = some bak)
    (hrow : RowHolds Stores hashOf bak row vals) (hempty : RowHolds Stores hashOf m row fun _ => [])
    (hmove : ∀ m b (old new : K → List V), RowHolds Stores hashOf m row old → Stores b new →
      (∀ k, new k ≠ [] → old k = []) → (Room fun k => old k ++ new k) → ∃ m', move m b = some m' ∧ SameExcept row m m' ∧
        RowHolds Stores hashOf m' row fun k => old k ++ new k) :
    ∃ m' bak', s.rehashWith move left row = some ⟨some m', some bak'⟩ ∧ SameExcept row m m' ∧
      SameExcept row bak bak' ∧ RowHolds Stores hashOf m' row vals := by
  obtain ⟨b₀, hb₀, -⟩ := hrow.bucket 0 hrow.pos
  rw [Mapper.bucket, if_pos ⟨hrow.lt, hrow.pos⟩] at hb₀
  obtain ⟨cells, hcells, -⟩ := map_eq_some_iff.mp hb₀
  have hstores : ∀ col < bak.mapCols, Stores (cells col) (share hashOf bak.mapCols col vals) := by
    intro col hcol
    obtain ⟨b, hb, hstores⟩ := hrow.bucket col hcol
    rw [Mapper.bucket, if_pos ⟨hrow.lt, hcol⟩, hcells, map_some, some.injEq] at hb
    rwa [hb]
  -- the columns before `n` have been moved
  have hloop := Fallible.foldlM_range (f := fun m i => move m (cells i)) (a := m)
    (fun n m' => SameExcept row m m' ∧
      RowHolds Stores hashOf m' row fun k => if hashOf k % bak.mapCols < n then vals k else [])
    bak.mapCols ⟨.refl row m, by simpa using hempty⟩ fun i hi m₁ ⟨hsame, hholds⟩ => by
      obtain ⟨m', hmove', hsame', hholds'⟩ := hmove m₁ (cells i) _ _ hholds (hstores i hi) (fun k hk => by
        by_cases hcol : hashOf k % bak.mapCols = i
        · exact if_neg (by omega)
        · exact absurd (if_neg hcol) hk) (hmono (fun k => by
          rw [share]
          by_cases hcol : hashOf k % bak.mapCols = i
          · rw [if_neg (by omega), if_pos hcol, nil_append]
          · rw [if_neg hcol, append_nil]
            split_ifs
            · exact le_rfl
            · exact Nat.zero_le _) hroom)
      refine ⟨m', hmove', hsame.trans hsame', ?_⟩
      convert hholds' using 2 with k
      rw [share]
      by_cases hcol : hashOf k % bak.mapCols = i
      · simp [hcol]
      · have hiff : hashOf k % bak.mapCols < i + 1 ↔ hashOf k % bak.mapCols < i := by omega
        simp [hcol, hiff]
  obtain ⟨m', hrun, hsame, hholds⟩ := hloop
  refine ⟨m', { bak with mbks := update bak.mbks row (left cells) }, ?_, hsame,
    ⟨rfl, rfl, fun r hr => update_of_ne hr ..⟩, ?_⟩
  · simp only [Mgr.rehashWith, hbak, if_pos hrow.lt, hcells, hmapper, bind_some, hrun, map_some]
  · simpa only [if_pos (Nat.mod_lt _ hrow.pos)] using hholds

theorem reduceWith_spec (free : C → C) (colVals : ℕ → K → List V)
    (hcol : ∀ row < m.mapRows, ∃ b, m.bucket row col = some b ∧ Stores b (colVals row))
    (hreduce : ∀ nodes, Forall₂ Stores nodes ((range m.mapRows).map colVals) →
      ∃ calls, reduce nodes = some calls ∧
        Groups calls fun k => (range m.mapRows).flatMap fun row => colVals row k) :
    ∃ m' calls, Mgr.reduceWith reduce free m col = some (m', calls) ∧ m'.mapRows = m.mapRows ∧
      m'.mapCols = m.mapCols ∧ (∀ row col', col' ≠ col → m'.bucket row col' = m.bucket row col') ∧
      Groups calls fun k => (range m.mapRows).flatMap fun row => colVals row k := by
  obtain ⟨nodes, hnodes, hall⟩ := Fallible.mapM_forall₂ (f := fun row => m.bucket row col)
    (P := fun row b => Stores b (colVals row)) fun row hrow => hcol row (mem_range.mp hrow)
  obtain ⟨calls, hcalls, hgroups⟩ := hreduce nodes (forall₂_map_right_iff.mpr hall.flip)
  refine ⟨m.freeColumn free col, calls, ?_, rfl, rfl, fun row col' hne => ?_, hgroups⟩
  · rw [Mgr.reduceWith, Mapper.column, hnodes, bind_some, hcalls, map_some]
  · simp only [Mapper.bucket, Mapper.freeColumn, Option.map_map]
    congr 2
    funext cells
    exact update_of_ne hne ..

end Rows

/-- What the functions of a manager do to the values in its tables, if there is room for them. -/
structure Manager.Lawful (mgr : Manager K V) (hashOf : K → ℕ) (Room : (K → List V) → Prop)
    (Stores : mgr.Bucket → (K → List V) → Prop) : Prop where
  init : Stores mgr.init fun _ => []
  room_mono : ∀ {vals vals' : K → List V}, (∀ k, (vals k).length ≤ (vals' k).length) → Room vals' → Room vals
  mapPut : ∀ {s m row vals}, s.mapper = some m → RowHolds Stores hashOf m row vals →
    ∀ kv : KeyVal K V, kv.hash = hashOf kv.key → Room (addValues vals kv.key [kv.val]) → ∃ m' bnewkey,
      mgr.mapPut s row kv = some ({ s with mapper := some m' }, bnewkey) ∧ SameExcept row m m' ∧
      RowHolds Stores hashOf m' row (addValues vals kv.key [kv.val])
  rehashBak_none : ∀ {s row}, s.mapperBak = none → mgr.rehashBak s row = some s
  rehashBak : ∀ {s m bak row vals}, s.mapper = some m → s.mapperBak = some bak →
    RowHolds Stores hashOf bak row vals → (RowHolds Stores hashOf m row fun _ => []) → Room vals → ∃ m' bak',
      mgr.rehashBak s row = some ⟨some m', some bak'⟩ ∧ SameExcept row m m' ∧ SameExcept row bak bak' ∧
      RowHolds Stores hashOf m' row vals
  doReduceTask : ∀ {s m col atype} (colVals : ℕ → K → List V), s.mapper = some m → atype ≠ .maponly →
    (∀ row < m.mapRows, ∃ b, m.bucket row col = some b ∧ Stores b (colVals row)) →
    (Room fun k => (List.range m.mapRows).flatMap fun row => colVals row k) →
    (∀ k, ((List.range m.mapRows).flatMap fun row => colVals row k).length < 2 ^ 31) → ∃ m' calls,
      mgr.doReduceTask atype s col = some ({ s with mapper := some m' }, calls) ∧ m'.mapRows = m.mapRows ∧
      m'.mapCols = m.mapCols ∧ (∀ row col', col' ≠ col → m'.bucket row col' = m.bucket row col') ∧
      Grouping.Groups calls fun k => (List.range m.mapRows).flatMap fun row => colVals row k

/-- At most 2^31 values of a key and, where keys are searched in one array, at most 2^30 + 2
keys. -/
structure Roomy (searched : Bool) (vals : K → List V) : Prop where
  values : ∀ k, (vals k).length ≤ 2 ^ 31
  keys : searched = true → ∀ l : List K, l.Nodup → (∀ k ∈ l, vals k ≠ []) → l.length ≤ 2 ^ 30 + 2

omit [LinearOrder K] in
theorem Roomy.mono {vals vals' : K → List V} (hle : ∀ k, (vals k).length ≤ (vals' k).length)
    (h : Roomy searched vals') : Roomy searched vals where
  values k := (hle k).trans (h.values k)
  keys hsearched l hl hvals := h.keys hsearched l hl fun k hk hnil => hvals k hk (by
    have := hle k
    rw [hnil] at this
    exact length_eq_zero_iff.mp (Nat.le_zero.mp this))

structure Content (hashOf : K → ℕ) (es : List (KeyVals K V)) (vals : K → List V) : Prop where
  sorted : Keyed.Sorted KeyVals.key es
  values : ∀ k, valuesAt k es = vals k
  nonempty : ∀ e ∈ es, e.vals.items ≠ []
  hash : ∀ e ∈ es, e.hash = hashOf e.key

namespace Content

variable {es : List (KeyVals K V)}

theorem nil : Content hashOf ([] : List (KeyVals K V)) fun _ => [] :=
  ⟨.nil, fun _ => rfl, by simp, by simp⟩

theorem absent (h : Content hashOf es vals) (hk : vals k = []) : k ∉ es.map KeyVals.key := by
  intro hmem
  obtain ⟨e, he, rfl⟩ := mem_map.mp hmem
  refine h.nonempty e he ?_
  rw [← valuesAt_of_mem h.sorted he, h.values, hk]

theorem fits (h : Content hashOf es vals) (hroom : Roomy searched vals) : Fits searched es where
  values e he := by
    rw [← valuesAt_of_mem h.sorted he, h.values]
    exact hroom.values e.key
  keys hsearched := by
    rw [← length_map (f := KeyVals.key)]
    exact hroom.keys hsearched _ (pairwise_map.mpr (h.sorted.imp ne_of_lt)) fun k hk hnil => h.absent hnil hk

theorem put (h : Content hashOf es vals) (key : K) (val : V) :
    Content hashOf (Metis.put key val (hashOf key) es) (addValues vals key [val]) where
  sorted := sorted_put h.sorted
  values k := by
    rw [valuesAt_put h.sorted, addValues, h.values]
    split_ifs <;> simp
  nonempty := forall_mem_upsert (by simp) (fun e _ he => by simp) h.nonempty
  hash := forall_mem_upsert rfl (fun e _ he => he) h.hash

theorem putPair (h : Content hashOf es vals) (hnew : vals kvs.key = [])
    (hhash : kvs.hash = hashOf kvs.key) (hne : kvs.vals.items ≠ []) :
    Content hashOf (Metis.putPair kvs es) (addValues vals kvs.key kvs.vals.items) where
  sorted := sorted_putPair h.sorted
  values k := by
    rw [valuesAt_putPair h.sorted (h.absent hnew), addValues, h.values]
    split_ifs <;> simp
  nonempty := forall_mem_upsert hne (fun e _ he => he) h.nonempty
  hash := forall_mem_upsert hhash (fun e _ he => he) h.hash

end Content

section

variable {h : Handler K V} {Rep : h.Coll → List (KeyVals K V) → Prop}

def Keeps (Rep : h.Coll → List (KeyVals K V) → Prop) (hashOf : K → ℕ) (coll : h.Coll) (vals : K → List V) : Prop :=
  ∃ es, Rep coll es ∧ Content hashOf es vals

theorem exists_contents (hnodes : Forall₂ (Keeps Rep hashOf) nodes valss) :
    ∃ ess, Forall₂ Rep nodes ess ∧ Forall₂ (Content hashOf) ess valss := by
  induction hnodes with
  | nil => exact ⟨[], .nil, .nil⟩
  | cons hkeeps _ ih =>
    obtain ⟨es, hrep, hcontent⟩ := hkeeps
    obtain ⟨ess, hreps, hcontents⟩ := ih
    exact ⟨es :: ess, .cons hrep hreps, .cons hcontent hcontents⟩

theorem merged_contents {valss : List (K → List V)} (h : Forall₂ (Content hashOf) ess valss) :
    merged ess = fun k => valss.flatMap fun vals => vals k := by
  funext k
  rw [merged]
  induction h with
  | nil => rfl
  | cons hcontent _ ih => rw [flatMap_cons, flatMap_cons, hcontent.values, ih]

variable (law : h.Lawful searched Rep)

include law

theorem insertKvAt_spec (hrow : RowHolds (Keeps Rep hashOf) hashOf m row vals) (kv : KeyVal K V)
    (hhash : kv.hash = hashOf kv.key) (hroom : Roomy searched (addValues vals kv.key [kv.val])) :
    ∃ m' bnewkey, insertKvAt h m row kv = some (m', bnewkey) ∧ SameExcept row m m' ∧
      RowHolds (Keeps Rep hashOf) hashOf m' row (addValues vals kv.key [kv.val]) := by
  rw [insertKvAt, hhash]
  refine hrow.change kv.key [kv.val] fun b ⟨es, hrep, hcontent⟩ => ?_
  have hput := hcontent.put kv.key kv.val
  have hroom' : Roomy searched (addValues (share hashOf m.mapCols (hashOf kv.key % m.mapCols) vals)
      kv.key [kv.val]) := by
    rw [← share_addValues_self]
    exact hroom.mono (length_share_le _ _ _ _)
  obtain ⟨b', hinsert, hrep'⟩ := law.insertKv hrep hcontent.sorted kv.key kv.val (hashOf kv.key)
    (hput.fits hroom')
  exact ⟨b', _, hinsert, _, hrep', hput⟩

theorem mapPutKvs_spec (hrow : RowHolds (Keeps Rep hashOf) hashOf m row vals) (kvs : KeyVals K V)
    (hnew : vals kvs.key = []) (hhash : kvs.hash = hashOf kvs.key) (hne : kvs.vals.items ≠ [])
    (hroom : Roomy searched vals) :
    ∃ m', mapPutKvs h row m kvs = some m' ∧ SameExcept row m m' ∧
      RowHolds (Keeps Rep hashOf) hashOf m' row (addValues vals kvs.key kvs.vals.items) := by
  obtain ⟨m', x, hchange, hsame, hrow'⟩ := hrow.change kvs.key kvs.vals.items
    (f := fun b => (h.insertKvs b kvs).map (·, ())) fun b ⟨es, hrep, hcontent⟩ => by
      have hnew' : share hashOf m.mapCols (hashOf kvs.key % m.mapCols) vals kvs.key = [] := by
        rw [share, if_pos rfl, hnew]
      obtain ⟨b', hinsert, hrep'⟩ := law.insertKvs hrep kvs (hcontent.absent hnew')
        (hcontent.fits (hroom.mono (length_share_le _ _ _ _))).keys
      exact ⟨b', (), by rw [hinsert, map_some], _, hrep', hcontent.putPair hnew' hhash hne⟩
  exact ⟨m', by rw [mapPutKvs, hhash, hchange, map_some], hsame, hrow'⟩

theorem bktRehash_spec (hrow : RowHolds (Keeps Rep hashOf) hashOf m row vals)
    (hentry : Keeps Rep hashOf entry new) (hnew : ∀ k, new k ≠ [] → vals k = [])
    (hroom : Roomy searched fun k => vals k ++ new k) :
    ∃ m', bktRehash h row m entry = some m' ∧ SameExcept row m m' ∧
      RowHolds (Keeps Rep hashOf) hashOf m' row fun k => vals k ++ new k := by
  obtain ⟨es, hrep, hcontent⟩ := hentry
  have hmove : ∃ m', es.foldlM (mapPutKvs h row) m = some m' ∧ SameExcept row m m' ∧
      RowHolds (Keeps Rep hashOf) hashOf m' row fun k => vals k ++ valuesAt k es := by
    refine Fallible.foldlM_invariant (fun seen m' => SameExcept row m m' ∧
      RowHolds (Keeps Rep hashOf) hashOf m' row fun k => vals k ++ valuesAt k seen) es
      ⟨.refl row m, by simpa [valuesAt, Keyed.lookup] using hrow⟩ fun seen e rest m₁ heq ⟨hsame, hrow₁⟩ => ?_
    have he : e ∈ es := by simp [heq]
    have hsorted := hcontent.sorted
    rw [heq] at hsorted
    have hseen : e.key ∉ seen.map KeyVals.key := by
      intro hmem
      obtain ⟨x, hx, hkey⟩ := mem_map.mp hmem
      exact ((pairwise_append.mp hsorted).2.2 x hx e mem_cons_self).ne hkey
    have hvals : vals e.key = [] := hnew e.key (by
      rw [← hcontent.values, valuesAt_of_mem hcontent.sorted he]
      exact hcontent.nonempty e he)
    obtain ⟨m₂, hput, hsame', hrow₂⟩ := mapPutKvs_spec law hrow₁ e
      (by rw [hvals, valuesAt_of_absent hseen, nil_append]) (hcontent.hash e he) (hcontent.nonempty e he)
      (hroom.mono fun k => by
        rw [length_append, length_append, ← hcontent.values, heq]
        exact Nat.add_le_add_left (length_valuesAt_append_le k seen _) _)
    refine ⟨m₂, hput, hsame.trans hsame', ?_⟩
    convert hrow₂ using 2 with k
    rw [addValues, valuesAt_concat hseen]
    split_ifs <;> simp
  simp only [hcontent.values] at hmove
  rw [bktRehash]
  rcases law.iterBegin hrep with ⟨hbegin, rfl⟩ | ⟨iter, hbegin, hyields⟩
  · rw [hbegin, bind_some]
    exact hmove
  · rw [hbegin, bind_some]
    dsimp only
    rw [(hyields true).forEach_eq _ (by rw [law.getLen hrep]; exact Nat.lt_succ_self _)]
    exact hmove

theorem reduceOrGroupkvs_keeps (c : KeyComparator K) (atype : AppType)
    (hnodes : Forall₂ (Keeps Rep hashOf) nodes valss)
    (hshort : ∀ k, (valss.flatMap fun vals => vals k).length < 2 ^ 31) :
    ∃ calls, reduceOrGroupkvs h c.cmp atype nodes = some calls ∧
      Groups calls fun k => valss.flatMap fun vals => vals k := by
  obtain ⟨ess, hreps, hcontents⟩ := exists_contents hnodes
  have hall : ∀ es ∈ ess, ∃ vals, Content hashOf es vals := fun es hes => by
    obtain ⟨vals, -, hcontent⟩ := Fallible.exists_of_mem_right hcontents.flip hes
    exact ⟨vals, hcontent⟩
  have hmerged := merged_contents hcontents
  simp only [← congrFun hmerged] at hshort ⊢
  exact law.reduceOrGroupkvs_spec (c := c) atype hreps (fun es hes => (hall es hes).choose_spec.sorted)
    (fun es hes => (hall es hes).choose_spec.nonempty) hshort

theorem reduceOrGroupkvs_keeps_fails (c : KeyComparator K) (atype : AppType)
    (hnodes : Forall₂ (Keeps Rep hashOf) nodes valss)
    (hkeys : ∀ vals ∈ valss, ∀ k', vals k' ≠ [] → k' = k)
    (hlong : 2 ^ 31 ≤ (valss.flatMap fun vals => vals k).length) :
    reduceOrGroupkvs h c.cmp atype nodes = none := by
  obtain ⟨ess, hreps, hcontents⟩ := exists_contents hnodes
  have hall : ∀ es ∈ ess, ∃ vals ∈ valss, Content hashOf es vals := fun es hes =>
    Fallible.exists_of_mem_right hcontents.flip hes
  rw [← congrFun (merged_contents hcontents) k] at hlong
  refine law.reduceOrGroupkvs_fails (c := c) atype hreps (fun es hes => ?_) (fun es hes e he => ?_) hlong
  · obtain ⟨vals, -, hcontent⟩ := hall es hes
    exact hcontent.sorted
  · obtain ⟨vals, hvals, hcontent⟩ := hall es hes
    exact hkeys vals hvals e.key fun hnil => hcontent.absent hnil (mem_map_of_mem he)

end

theorem btreebktmgr_lawful (c : KeyComparator K) (hashOf : K → ℕ) :
    (btreebktmgr c.cmp : Manager K V).Lawful hashOf (Roomy false)
      (Keeps BTree.Represents hashOf) where
  room_mono := Roomy.mono
  init := ⟨[], BTree.represents_init, .nil⟩
  mapPut hmapper hrow kv hhash hroom := by
    obtain ⟨m', bnewkey, hput, hsame, hrow'⟩ := insertKvAt_spec (hkvsbtree_lawful c) hrow kv hhash hroom
    exact ⟨m', bnewkey, withMapper_eq hmapper hput, hsame, hrow'⟩
  rehashBak_none hbak := by simp only [btreebktmgr, Mgr.rehashWith, hbak]
  rehashBak hmapper hbak hrow hempty hroom := rehashWith_spec _ Roomy.mono hroom hmapper hbak hrow hempty
    fun _ _ _ _ hrow hentry hnew hroom => bktRehash_spec (hkvsbtree_lawful c) hrow hentry hnew hroom
  doReduceTask {_ _ _ atype} colVals hmapper _ hcol _ hshort := by
    obtain ⟨m', calls, hreduce, hrest⟩ := reduceWith_spec (hkvsbtree c.cmp).shallowFree colVals hcol
      fun nodes hnodes => by
        have hgroups := reduceOrGroupkvs_keeps (hkvsbtree_lawful c) c atype hnodes
          (by simpa only [flatMap_map] using hshort)
        simp only [flatMap_map] at hgroups
        exact hgroups
    exact ⟨m', calls, withMapper_eq hmapper hreduce, hrest⟩

/-- The values of a single key that are too many for a reduce task. -/
theorem btreebktmgr_fails (c : KeyComparator K) (atype : AppType) (col : ℕ) {s : Mgr (BTree.Tree K V)}
    (colVals : ℕ → K → List V) (hmapper : s.mapper = some m)
    (hcol : ∀ row < m.mapRows, ∃ b, m.bucket row col = some b ∧
      Keeps (h := hkvsbtree c.cmp) BTree.Represents hashOf b (colVals row))
    (hkeys : ∀ row < m.mapRows, ∀ k', colVals row k' ≠ [] → k' = k)
    (hlong : 2 ^ 31 ≤ ((range m.mapRows).flatMap fun row => colVals row k).length) :
    (btreebktmgr c.cmp).doReduceTask atype s col = none := by
  obtain ⟨nodes, hnodes, hall⟩ := Fallible.mapM_forall₂ (f := fun row => m.bucket row col)
    (P := fun row b => Keeps (h := hkvsbtree c.cmp) BTree.Represents hashOf b (colVals row))
    fun row hrow => hcol row (mem_range.mp hrow)
  have hfails := reduceOrGroupkvs_keeps_fails (hkvsbtree_lawful c) c atype (k := k)
    (forall₂_map_right_iff.mpr hall.flip)
    (fun vals hvals => by
      obtain ⟨row, hrow, rfl⟩ := mem_map.mp hvals
      exact hkeys row (mem_range.mp hrow))
    (by rwa [flatMap_map])
  change (s.mapper.bind fun m => (Mgr.reduceWith _ _ m col).map _) = none
  rw [hmapper]
  change (((range m.mapRows).mapM fun row => m.bucket row col).bind _).map _ = none
  rw [hnodes]
  change ((reduceOrGroupkvs (hkvsbtree c.cmp) c.cmp atype nodes).map _).map _ = none
  rw [hfails]
  rfl

theorem arraybktmgr_lawful (c : KeyComparator K) (hashOf : K → ℕ) :
    (arraybktmgr c.cmp : Manager K V).Lawful hashOf (Roomy true)
      (Keeps KvsArr.Represents hashOf) where
  room_mono := Roomy.mono
  init := ⟨[], KvsArr.represents_init, .nil⟩
  mapPut hmapper hrow kv hhash hroom := by
    obtain ⟨m', bnewkey, hput, hsame, hrow'⟩ := insertKvAt_spec (hkvsarr_lawful c) hrow kv hhash hroom
    exact ⟨m', bnewkey, withMapper_eq hmapper hput, hsame, hrow'⟩
  rehashBak_none hbak := by simp only [arraybktmgr, Mgr.rehashWith, hbak]
  rehashBak hmapper hbak hrow hempty hroom := rehashWith_spec _ Roomy.mono hroom hmapper hbak hrow hempty
    fun _ _ _ _ hrow hentry hnew hroom => bktRehash_spec (hkvsarr_lawful c) hrow hentry hnew hroom
  doReduceTask {s _ _ atype} colVals hmapper _ hcol _ hshort := by
    obtain ⟨m', calls, hreduce, hrest⟩ := reduceWith_spec (hkvsarr c.cmp).shallowFree colVals hcol
      fun nodes hnodes => by
        have hgroups := reduceOrGroupkvs_keeps (hkvsarr_lawful c) c atype hnodes
          (by simpa only [flatMap_map] using hshort)
        simp only [flatMap_map] at hgroups
        exact hgroups
    have hsome : s.mapper.isNone ≠ true := by simp [hmapper]
    exact ⟨m', calls, (if_neg hsome).trans (withMapper_eq hmapper hreduce), hrest⟩

/-- Fewer than 2^31 values in all. -/
def RoomyInAll (vals : K → List V) : Prop := ∀ l : List K, l.Nodup → (l.flatMap vals).length < 2 ^ 31

omit [LinearOrder K] in
theorem RoomyInAll.mono {vals vals' : K → List V} (hle : ∀ k, (vals k).length ≤ (vals' k).length)
    (h : RoomyInAll vals') : RoomyInAll vals := by
  intro l hl
  refine lt_of_le_of_lt ?_ (h l hl)
  rw [length_flatMap, length_flatMap]
  exact sum_le_sum fun k _ => hle k

theorem RoomyInAll.length_lt {pairs : List (K × V)} (h : RoomyInAll (valuesOf pairs)) :
    pairs.length < 2 ^ 31 := by
  have hlen := h _ (nodup_dedup (pairs.map Prod.fst))
  have hcount : ∀ k, (valuesOf pairs k).length = (pairs.map Prod.fst).count k := fun k => by
    rw [valuesOf, length_map, count_eq_countP, countP_map, countP_eq_length_filter]
    rfl
  rw [length_flatMap] at hlen
  simp only [hcount] at hlen
  rwa [List.sum_map_count_dedup_eq_length, length_map] at hlen

structure Appended (hashOf : K → ℕ) (arr : KvArr K V) (vals : K → List V) : Prop where
  sound : arr.Sound
  values : ∀ k, Grouping.valuesOf (arr.elems.map KeyVal.pair) k = vals k
  hash : ∀ kv ∈ arr.elems, kv.hash = hashOf kv.key

section Append

variable {m : Mapper (KvArr K V)}

theorem appendAt_spec (hrow : RowHolds (Appended hashOf) hashOf m row vals) (kv : KeyVal K V)
    (hhash : kv.hash = hashOf kv.key) :
    ∃ m' bnewkey, appendAt m row kv = some (m', bnewkey) ∧ SameExcept row m m' ∧
      RowHolds (Appended hashOf) hashOf m' row (addValues vals kv.key [kv.val]) := by
  rw [appendAt, hhash]
  refine hrow.change kv.key [kv.val] fun b hb => ?_
  obtain ⟨b', hinsert, hsound, helems⟩ := KvArr.insertKv_spec hb.sound kv
  refine ⟨b', true, hinsert, hsound, fun k => ?_, fun x hx => ?_⟩
  · rw [helems, map_append, valuesOf_append, hb.values, addValues, map_singleton, KeyVal.pair,
      valuesOf_singleton]
    split_ifs <;> simp
  · rw [helems] at hx
    rcases mem_append.mp hx with hx | hx
    · exact hb.hash x hx
    · rw [mem_singleton.mp hx, hhash]

theorem appendRehash_spec (hrow : RowHolds (Appended hashOf) hashOf m row vals)
    (hbucket : Appended hashOf bucket new) :
    ∃ m', appendRehash row m bucket = some m' ∧ SameExcept row m m' ∧
      RowHolds (Appended hashOf) hashOf m' row fun k => vals k ++ new k := by
  have hmove := Fallible.foldlM_invariant (f := fun m kv => (appendAt m row kv).map Prod.fst) (a := m)
    (fun seen m' => SameExcept row m m' ∧ RowHolds (Appended hashOf) hashOf m' row fun k =>
      vals k ++ valuesOf (seen.map KeyVal.pair) k) bucket.elems
    ⟨.refl row m, by simpa using hrow⟩ fun seen kv rest m₁ heq ⟨hsame, hrow₁⟩ => by
      obtain ⟨m₂, bnewkey, hput, hsame', hrow₂⟩ := appendAt_spec hrow₁ kv (hbucket.hash kv (by simp [heq]))
      refine ⟨m₂, by rw [hput, map_some], hsame.trans hsame', ?_⟩
      convert hrow₂ using 2 with k
      rw [addValues, map_append, valuesOf_append, map_singleton, KeyVal.pair, valuesOf_singleton]
      split_ifs <;> simp
  simp only [hbucket.values] at hmove
  exact hmove

theorem valuesOf_flatten (h : Forall₂ (Appended hashOf) bs valss) (k : K) :
    valuesOf ((bs.map Arr.elems).flatten.map KeyVal.pair) k = valss.flatMap fun vals => vals k := by
  induction h with
  | nil => rfl
  | cons hb _ ih =>
    rw [map_cons, flatten_cons, map_append, valuesOf_append, hb.values, flatMap_cons, ih]

end Append

theorem appendbktmgr_lawful (c : KeyComparator K) (q : QSort (c.toComparator.comap (KeyVal.key (V := V))))
    (hashOf : K → ℕ) : (appendbktmgr c.cmp q.sort).Lawful hashOf RoomyInAll (Appended hashOf) where
  room_mono := RoomyInAll.mono
  init := ⟨Arr.sound_init, fun _ => rfl, fun _ hkv => absurd hkv not_mem_nil⟩
  mapPut hmapper hrow kv hhash _ := by
    obtain ⟨m', bnewkey, hput, hsame, hrow'⟩ := appendAt_spec hrow kv hhash
    exact ⟨m', bnewkey, withMapper_eq hmapper hput, hsame, hrow'⟩
  rehashBak_none hbak := by simp only [appendbktmgr, Mgr.rehashWith, hbak]
  rehashBak hmapper hbak hrow hempty hroom := rehashWith_spec _ RoomyInAll.mono hroom hmapper hbak hrow hempty
    fun _ _ _ _ hrow hbucket _ _ => appendRehash_spec hrow hbucket
  doReduceTask {s _ _ atype} colVals hmapper hatype hcol hroom _ := by
    obtain ⟨m', calls, hreduce, hrest⟩ := reduceWith_spec Arr.shallowFree colVals hcol
      fun nodes hnodes => by
        have hvals : valuesOf ((nodes.map Arr.elems).flatten.map KeyVal.pair) =
            fun k => (range _).flatMap fun row => colVals row k :=
          funext fun k => by rw [valuesOf_flatten hnodes, flatMap_map]
        rw [← hvals] at hroom ⊢
        exact reduceOrGroupkv_spec q atype (nodes.map Arr.elems) (by simpa only [length_map] using hroom.length_lt)
    have hsome : s.mapper.isNone ≠ true := by simp [hmapper]
    exact ⟨m', calls, (if_neg hsome).trans ((if_neg hatype).trans (withMapper_eq hmapper hreduce)), hrest⟩

end Mosbench.Metis
