import Mosbench.Metis.BucketLaws

/-!
A bucket manager at work: the workers put pairs into their rows, after each has moved its row of
the backup if there is one, and then the reduce tasks run.
-/
namespace Mosbench.Metis

open List Option Function Grouping
open KeyComparator (difference)

inductive Event (K V : Type)
  | rehash (row : ℕ)
  | put (row : ℕ) (kv : KeyVal K V)
deriving DecidableEq

def Event.row : Event K V → ℕ
  | .rehash row => row
  | .put row _ => row

def Event.kv : Event K V → Option (KeyVal K V)
  | .rehash _ => none
  | .put _ kv => some kv

namespace Manager

variable (mgr : Manager K V)

def step (s : Mgr mgr.Bucket) : Event K V → Option (Mgr mgr.Bucket)
  | .rehash row => mgr.rehashBak s row
  | .put row kv => (mgr.mapPut s row kv).map Prod.fst

def tasks (atype : AppType) : List ℕ → Mgr mgr.Bucket → Option (List (List (K × List V)))
  | [], _ => some []
  | col :: cols, s =>
    (mgr.doReduceTask atype s col).bind fun (s, calls) => (tasks atype cols s).map (calls :: ·)

end Manager

structure Job (K V : Type) where
  rows : ℕ
  cols : ℕ
  sample : Option (ℕ × List (ℕ × KeyVal K V))
  events : List (Event K V)

def Manager.sampled (mgr : Manager K V) (job : Job K V) : Option (Mgr mgr.Bucket) :=
  match job.sample with
  | none => some .start
  | some (cols, emitted) =>
    ((emitted.map fun x => Event.put x.1 x.2).foldlM mgr.step (Mgr.start.mbksInit mgr.init job.rows cols)).map Mgr.mbksBak

def Manager.run (mgr : Manager K V) (atype : AppType) (job : Job K V) (order : List ℕ) :
    Option (List (List (K × List V))) :=
  (mgr.sampled job).bind fun s =>
  (job.events.foldlM mgr.step (s.mbksInit mgr.init job.rows job.cols)).bind fun s =>
  mgr.tasks atype order s

inductive RowState (K V : Type)
  | waiting (vals : K → List V)
  | ready (vals : K → List V)

def RowState.after [LinearOrder K] : RowState K V → Event K V → RowState K V
  | .waiting vals, .rehash _ => .ready vals
  | .ready vals, .put _ kv => .ready (addValues vals kv.key [kv.val])
  | st, _ => st

def RowState.vals : RowState K V → K → List V
  | .waiting vals => vals
  | .ready vals => vals

def InOrder : RowState K V → Event K V → Prop
  | .waiting _, .rehash _ => True
  | .ready _, .put _ _ => True
  | _, _ => False

def Proper (row : ℕ) : RowState K V → List (Event K V) → Prop
  | .waiting _, es => ∃ kvs : List (KeyVal K V), es = .rehash row :: kvs.map (Event.put row)
  | .ready _, es => ∃ kvs : List (KeyVal K V), es = kvs.map (Event.put row)

section Runs

variable [LinearOrder K]

theorem foldl_after_puts (row : ℕ) (kvs : List (KeyVal K V)) (vals : K → List V) :
    (kvs.map (Event.put row)).foldl RowState.after (.ready vals) =
      .ready fun k => vals k ++ valuesOf (kvs.map KeyVal.pair) k := by
  induction kvs generalizing vals with
  | nil => simp
  | cons kv kvs ih =>
    rw [map_cons, foldl_cons, RowState.after, ih, RowState.ready.injEq]
    funext k
    rw [map_cons, KeyVal.pair, valuesOf_cons, addValues]
    split_ifs <;> simp

theorem length_vals_after_le (st : RowState K V) (e : Event K V) (k : K) :
    (st.vals k).length ≤ ((st.after e).vals k).length := by
  cases st with
  | waiting vals => cases e <;> exact le_rfl
  | ready vals =>
    cases e with
    | rehash row => exact le_rfl
    | put row kv =>
      change _ ≤ (addValues vals kv.key [kv.val] k).length
      rw [addValues]
      split_ifs <;> simp [RowState.vals]

theorem length_vals_foldl_after_le (st : RowState K V) (es : List (Event K V)) (k : K) :
    (st.vals k).length ≤ ((es.foldl RowState.after st).vals k).length := by
  induction es generalizing st with
  | nil => exact le_rfl
  | cons e es ih => exact (length_vals_after_le st e k).trans (ih _)

theorem inOrder_of_puts {kvs : List (KeyVal K V)}
    (vals : K → List V) (h : seen ++ e :: rest = kvs.map (Event.put row)) :
    InOrder (seen.foldl RowState.after (.ready vals)) e := by
  obtain ⟨kvs₁, kvs', rfl, rfl, hkvs'⟩ := map_eq_append_iff.mp h.symm
  obtain ⟨kv, kvs₂, -, rfl, -⟩ := map_eq_cons_iff.mp hkvs'
  rw [foldl_after_puts]
  trivial

theorem Proper.inOrder {st : RowState K V}
    (h : Proper row st (seen ++ e :: rest)) : InOrder (seen.foldl RowState.after st) e := by
  cases st with
  | waiting vals =>
    obtain ⟨kvs, hkvs⟩ := h
    cases seen with
    | nil =>
      obtain ⟨rfl, -⟩ := cons.inj hkvs
      trivial
    | cons x seen =>
      obtain ⟨rfl, hputs⟩ := cons.inj hkvs
      exact inOrder_of_puts vals hputs
  | ready vals =>
    obtain ⟨kvs, hkvs⟩ := h
    exact inOrder_of_puts vals hkvs

variable {mgr : Manager K V}

structure Sim (Stores : mgr.Bucket → (K → List V) → Prop) (hashOf : K → ℕ) (rows cols : ℕ) (s : Mgr mgr.Bucket)
    (m : Mapper mgr.Bucket) (st : ℕ → RowState K V) : Prop where
  mapper : s.mapper = some m
  mapRows : m.mapRows = rows
  mapCols : m.mapCols = cols
  ready : ∀ row < rows, ∀ vals, st row = .ready vals → RowHolds Stores hashOf m row vals
  waiting : ∀ row < rows, ∀ vals, st row = .waiting vals → (RowHolds Stores hashOf m row fun _ => []) ∧
    ∃ bak, s.mapperBak = some bak ∧ RowHolds Stores hashOf bak row vals

namespace Sim

omit [LinearOrder K] in
theorem update (h : Sim Stores hashOf rows cols s m st) (hsame : SameExcept row m m')
    (hbak : ∀ b, s.mapperBak = some b → ∃ b', bak = some b' ∧ SameExcept row b b')
    (hrow : RowHolds Stores hashOf m' row vals) :
    Sim Stores hashOf rows cols ⟨some m', bak⟩ m' (Function.update st row (.ready vals)) := by
  refine ⟨rfl, hsame.mapRows.trans h.mapRows, hsame.mapCols.trans h.mapCols, fun r hr v hv => ?_,
    fun r hr v hv => ?_⟩
  · by_cases heq : r = row
    · subst heq
      rw [update_self, RowState.ready.injEq] at hv
      rwa [← hv]
    · rw [update_of_ne heq] at hv
      exact (h.ready r hr v hv).other hsame heq
  · by_cases heq : r = row
    · subst heq
      rw [update_self] at hv
      cases hv
    · rw [update_of_ne heq] at hv
      obtain ⟨hempty, b, hb, hholds⟩ := h.waiting r hr v hv
      obtain ⟨b', hb', hsame'⟩ := hbak b hb
      exact ⟨hempty.other hsame heq, b', hb', hholds.other hsame' heq⟩

theorem step (law : mgr.Lawful hashOf Room Stores) (h : Sim Stores hashOf rows cols s m st)
    (hrow : e.row < rows) (horder : InOrder (st e.row) e)
    (hhash : ∀ row kv, e = .put row kv → kv.hash = hashOf kv.key)
    (hroom : Room ((st e.row).after e).vals) :
    ∃ s' m', mgr.step s e = some s' ∧
      Sim Stores hashOf rows cols s' m' (Function.update st e.row ((st e.row).after e)) := by
  cases e with
  | rehash row =>
    obtain ⟨vals, hvals⟩ : ∃ vals, st row = .waiting vals := by
      change InOrder (st row) _ at horder
      generalize st row = x at horder
      cases x with
      | waiting vals => exact ⟨vals, rfl⟩
      | ready vals => exact horder.elim
    obtain ⟨hempty, bak, hbak, hholds⟩ := h.waiting row hrow vals hvals
    obtain ⟨m', bak', hrehash, hsame, hsame', hholds'⟩ := law.rehashBak h.mapper hbak hholds hempty
      (by rwa [show st (Event.rehash row).row = _ from hvals] at hroom)
    refine ⟨_, m', hrehash, ?_⟩
    change Sim _ _ _ _ _ _ (Function.update st row ((st row).after (.rehash row)))
    rw [hvals]
    refine h.update hsame (fun b hb => ?_) hholds'
    obtain rfl : bak = b := some.inj (hbak.symm.trans hb)
    exact ⟨bak', rfl, hsame'⟩
  | put row kv =>
    obtain ⟨vals, hvals⟩ : ∃ vals, st row = .ready vals := by
      change InOrder (st row) _ at horder
      generalize st row = x at horder
      cases x with
      | waiting vals => exact horder.elim
      | ready vals => exact ⟨vals, rfl⟩
    obtain ⟨m', bnewkey, hput, hsame, hholds⟩ :=
      law.mapPut h.mapper (h.ready row hrow vals hvals) kv (hhash row kv rfl)
        (by rwa [show st (Event.put row kv).row = _ from hvals] at hroom)
    refine ⟨_, m', by rw [Manager.step, hput, map_some], ?_⟩
    change Sim _ _ _ _ _ _ (Function.update st row ((st row).after (.put row kv)))
    rw [hvals]
    exact h.update hsame (fun b hb => ⟨b, hb, .refl row b⟩) hholds

theorem run (law : mgr.Lawful hashOf Room Stores) (h : Sim Stores hashOf rows cols s m st)
    (events : List (Event K V))
    (hrows : ∀ e ∈ events, e.row < rows) (hhash : ∀ row kv, .put row kv ∈ events → kv.hash = hashOf kv.key)
    (horder : ∀ row < rows, Proper row (st row) (events.filter fun e => e.row = row))
    (hroom : ∀ row < rows, Room ((events.filter fun e => e.row = row).foldl RowState.after (st row)).vals) :
    ∃ s' m', events.foldlM mgr.step s = some s' ∧
      Sim Stores hashOf rows cols s' m' fun row => (events.filter fun e => e.row = row).foldl RowState.after (st row) := by
  obtain ⟨s', hrun, m', hsim⟩ := Fallible.foldlM_invariant (f := mgr.step) (a := s)
    (fun seen s' => ∃ m', Sim Stores hashOf rows cols s' m' fun row =>
      (seen.filter fun e => e.row = row).foldl RowState.after (st row)) events ⟨m, h⟩
    fun seen e rest s₁ heq ⟨m₁, hsim⟩ => by
      have he : e ∈ events := by simp [heq]
      have hproper := horder e.row (hrows e he)
      rw [heq, filter_append, filter_cons_of_pos (by simp)] at hproper
      obtain ⟨s', m', hstep, hsim'⟩ := hsim.step law (hrows e he) (hproper.inOrder)
        (fun row kv hput => hhash row kv (hput ▸ he)) (law.room_mono (fun k => by
          rw [heq, filter_append, filter_cons_of_pos (by simp), foldl_append, foldl_cons]
          exact length_vals_foldl_after_le _ _ k) (hroom e.row (hrows e he)))
      refine ⟨s', hstep, m', ?_⟩
      convert hsim' using 2 with row
      by_cases hrow : row = e.row
      · subst hrow
        simp [filter_append]
      · simp [filter_append, hrow, Ne.symm hrow]
  exact ⟨s', m', hrun, hsim⟩

theorem init (law : mgr.Lawful hashOf Room Stores) (s : Mgr mgr.Bucket) (rows : ℕ)
    (st : ℕ → RowState K V) (hcols : 0 < cols)
    (hst : ∀ row < rows, st row = .ready (fun _ => []) ∨ ∃ bak vals, st row = .waiting vals ∧
      s.mapperBak = some bak ∧ RowHolds Stores hashOf bak row vals) :
    ∃ m, Sim Stores hashOf rows cols (s.mbksInit mgr.init rows cols) m st := by
  have hempty : ∀ row < rows, RowHolds Stores hashOf
      (⟨rows, cols, fun _ => some fun _ => mgr.init⟩ : Mapper mgr.Bucket) row fun _ => [] := by
    refine fun row hrow => ⟨hrow, hcols, fun col hcol => ⟨mgr.init, ?_, by rw [share_nil]; exact law.init⟩⟩
    rw [Mapper.bucket, if_pos ⟨hrow, hcol⟩, map_some]
  refine ⟨_, rfl, rfl, rfl, fun row hrow vals hvals => ?_, fun row hrow vals hvals => ?_⟩
  · rcases hst row hrow with hready | ⟨bak, w, hwaiting, -⟩
    · rw [hready, RowState.ready.injEq] at hvals
      rw [← hvals]
      exact hempty row hrow
    · rw [hwaiting] at hvals
      cases hvals
  · rcases hst row hrow with hready | ⟨bak, w, hwaiting, hbak, hholds⟩
    · rw [hready] at hvals
      cases hvals
    · rw [hwaiting, RowState.waiting.injEq] at hvals
      rw [← hvals]
      exact ⟨hempty row hrow, bak, hbak, hholds⟩

end Sim

theorem Manager.Lawful.tasks_spec (law : mgr.Lawful hashOf Room Stores) (hatype : atype ≠ .maponly)
    (vals : ℕ → K → List V) (order : List ℕ) (hnodup : order.Nodup)
    (hmapper : s.mapper = some m)
    (hcols : ∀ col ∈ order, ∀ row < m.mapRows, ∃ b, m.bucket row col = some b ∧
      Stores b (share hashOf m.mapCols col (vals row)))
    (hroom : Room fun k => (range m.mapRows).flatMap fun row => vals row k)
    (hshort : ∀ k, ((range m.mapRows).flatMap fun row => vals row k).length < 2 ^ 31) :
    ∃ calls, mgr.tasks atype order s = some calls ∧ Forall₂ (fun col cs => Groups cs fun k =>
        (range m.mapRows).flatMap fun row => share hashOf m.mapCols col (vals row) k) order calls := by
  induction order generalizing s m with
  | nil => exact ⟨[], rfl, .nil⟩
  | cons col order ih =>
    obtain ⟨hcol, hnodup'⟩ := nodup_cons.mp hnodup
    have hle : ∀ k, ((range m.mapRows).flatMap fun row => share hashOf m.mapCols col (vals row) k).length ≤
        ((range m.mapRows).flatMap fun row => vals row k).length := by
      intro k
      rw [length_flatMap, length_flatMap]
      exact sum_le_sum fun row _ => length_share_le _ _ _ _ k
    obtain ⟨m', cs, htask, hrows, hmapCols, hother, hgroups⟩ := law.doReduceTask _ hmapper hatype
      (hcols col mem_cons_self) (law.room_mono hle hroom) fun k => (hle k).trans_lt (hshort k)
    obtain ⟨calls, htasks, hall⟩ := ih hnodup' (s := { s with mapper := some m' }) (m := m') rfl
      (fun col' hcol' row hrow => by
        rw [hother row col' fun heq => hcol (heq ▸ hcol'), hmapCols]
        exact hcols col' (mem_cons_of_mem col hcol') row (hrows ▸ hrow)) (by rwa [hrows]) (by rwa [hrows])
    rw [hrows, hmapCols] at hall
    exact ⟨cs :: calls, by simp only [tasks, htask, bind_some, htasks, map_some], .cons hgroups hall⟩

end Runs

namespace Job

def sampleOf (job : Job K V) (row : ℕ) : List (KeyVal K V) :=
  match job.sample with
  | none => []
  | some (_, emitted) => (emitted.filter fun x => x.1 = row).map Prod.snd

def putsOf (job : Job K V) (row : ℕ) : List (KeyVal K V) :=
  (job.events.filter fun e => e.row = row).filterMap Event.kv

def emitted (job : Job K V) : List (KeyVal K V) :=
  (List.range job.rows).flatMap fun row => job.sampleOf row ++ job.putsOf row

def column (job : Job K V) (col : ℕ) : List (KeyVal K V) := job.emitted.filter fun kv => kv.hash % job.cols = col

/-- Workers use their own rows, and rehash before they put if there was sampling. Equal keys have
equal hashes. -/
structure Valid (job : Job K V) : Prop where
  cols_pos : 0 < job.cols
  sample_pos : ∀ x, job.sample = some x → 0 < x.1
  sample_rows : ∀ x, job.sample = some x → ∀ e ∈ x.2, e.1 < job.rows
  rows : ∀ e ∈ job.events, e.row < job.rows
  order : ∀ row < job.rows, ∃ kvs : List (KeyVal K V), (job.events.filter fun e => e.row = row) =
    (if job.sample.isSome then [.rehash row] else []) ++ kvs.map (Event.put row)
  hash : ∀ kv ∈ job.emitted, ∀ kv' ∈ job.emitted, kv.key = kv'.key → kv.hash = kv'.hash

end Job

section Calls

variable [LinearOrder K]

theorem valuesOf_flatMap (l : List A) (f : A → List (KeyVal K V)) (k : K) :
    valuesOf ((l.flatMap f).map KeyVal.pair) k =
      l.flatMap fun x => valuesOf ((f x).map KeyVal.pair) k := by
  induction l with
  | nil => rfl
  | cons x l ih =>
    rw [flatMap_cons, map_append, valuesOf_append, ih, flatMap_cons]

theorem valuesOf_filter_hash {l : List (KeyVal K V)} (h : ∀ kv ∈ l, kv.hash = hashOf kv.key)
    (cols col : ℕ) (k : K) :
    valuesOf ((l.filter fun kv => kv.hash % cols = col).map KeyVal.pair) k =
      share hashOf cols col (valuesOf (l.map KeyVal.pair)) k := by
  rw [share, valuesOf_pair, valuesOf_pair, List.filter_filter]
  split_ifs with hcol
  · congr 1
    refine List.filter_congr fun kv hkv => ?_
    by_cases hkey : kv.key = k
    · simp [hkey, h kv hkv, hcol]
    · simp [hkey]
  · rw [map_eq_nil_iff, filter_eq_nil_iff]
    intro kv hkv hboth
    simp only [Bool.and_eq_true, decide_eq_true_eq] at hboth
    rw [← hboth.1, ← h kv hkv] at hcol
    exact hcol hboth.2

namespace Job

variable {job : Job K V}

theorem Valid.exists_hashOf (h : job.Valid) : ∃ hashOf : K → ℕ, ∀ kv ∈ job.emitted, kv.hash = hashOf kv.key := by
  refine ⟨fun k => ((job.emitted.find? fun kv => kv.key = k).map KeyVal.hash).getD 0, fun kv hkv => ?_⟩
  dsimp only
  cases hfind : job.emitted.find? fun x => x.key = kv.key with
  | none => simpa using find?_eq_none.mp hfind kv hkv
  | some x =>
    have hkey : x.key = kv.key := by simpa using find?_some hfind
    exact h.hash kv hkv x (mem_of_find?_eq_some hfind) hkey.symm

section

omit [LinearOrder K]

theorem mem_emitted (hrow : row < job.rows)
    (hkv : kv ∈ job.sampleOf row ∨ kv ∈ job.putsOf row) : kv ∈ job.emitted :=
  mem_flatMap.mpr ⟨row, mem_range.mpr hrow, mem_append.mpr hkv⟩

theorem mem_putsOf (h : Event.put row kv ∈ job.events) : kv ∈ job.putsOf row :=
  mem_filterMap.mpr ⟨_, mem_filter.mpr ⟨h, by simp [Event.row]⟩, rfl⟩

theorem mem_sampleOf (hsample : job.sample = some x)
    (h : (row, kv) ∈ x.2) : kv ∈ job.sampleOf row := by
  rw [sampleOf, hsample]
  exact mem_map.mpr ⟨(row, kv), mem_filter.mpr ⟨h, by simp⟩, rfl⟩

theorem filterMap_kv_puts (row : ℕ) (kvs : List (KeyVal K V)) : (kvs.map (Event.put row)).filterMap Event.kv = kvs := by
  rw [filterMap_map]
  exact filterMap_some

theorem Valid.events_of_row (h : job.Valid) (hrow : row < job.rows) :
    (job.events.filter fun e => e.row = row) =
      (if job.sample.isSome then [.rehash row] else []) ++ (job.putsOf row).map (Event.put row) := by
  obtain ⟨kvs, hkvs⟩ := h.order row hrow
  have hputs : job.putsOf row = kvs := by
    rw [putsOf, hkvs, filterMap_append, filterMap_kv_puts]
    split_ifs <;> rfl
  rw [hputs, hkvs]

end

def start (job : Job K V) (row : ℕ) : RowState K V :=
  if job.sample.isSome then .waiting (Grouping.valuesOf ((job.sampleOf row).map KeyVal.pair)) else .ready fun _ => []

theorem Valid.proper (h : job.Valid) (hrow : row < job.rows) :
    Proper row (job.start row) (job.events.filter fun e => e.row = row) := by
  rw [h.events_of_row hrow, start]
  split_ifs
  · exact ⟨_, rfl⟩
  · exact ⟨_, rfl⟩

theorem Valid.finish (h : job.Valid) (hrow : row < job.rows) :
    (job.events.filter fun e => e.row = row).foldl RowState.after (job.start row) =
      .ready (valuesOf ((job.sampleOf row ++ job.putsOf row).map KeyVal.pair)) := by
  have hvals : valuesOf ((job.sampleOf row ++ job.putsOf row).map KeyVal.pair) = fun k =>
      valuesOf ((job.sampleOf row).map KeyVal.pair) k ++
        valuesOf ((job.putsOf row).map KeyVal.pair) k := by
    funext k
    rw [map_append, valuesOf_append]
  rw [h.events_of_row hrow, start, hvals]
  split_ifs with hsample
  · exact foldl_after_puts row _ _
  · have hnone : job.sampleOf row = [] := by
      rw [sampleOf, not_isSome_iff_eq_none.mp hsample]
    rw [hnone]
    exact foldl_after_puts row _ _

end Job

variable {mgr : Manager K V}

theorem length_row_le (job : Job K V) (hrow : row < job.rows) (k : K) :
    (valuesOf ((job.sampleOf row ++ job.putsOf row).map KeyVal.pair) k).length ≤
      (valuesOf (job.emitted.map KeyVal.pair) k).length := by
  obtain ⟨a, b, hab⟩ := append_of_mem (mem_range.mpr hrow)
  simp only [Job.emitted, hab, flatMap_append, flatMap_cons, map_append, valuesOf_append, length_append]
  omega

theorem Manager.Lawful.sampled_spec (law : mgr.Lawful hashOf Room Stores) (h : job.Valid)
    (hhash : ∀ kv ∈ job.emitted, kv.hash = hashOf kv.key)
    (hroom : Room (valuesOf (job.emitted.map KeyVal.pair))) :
    ∃ s m, mgr.sampled job = some s ∧
      Sim Stores hashOf job.rows job.cols (s.mbksInit mgr.init job.rows job.cols) m job.start := by
  cases hsample : job.sample with
  | none =>
    obtain ⟨m, hsim⟩ := Sim.init law Mgr.start job.rows job.start h.cols_pos fun row _ =>
      .inl (by rw [Job.start, hsample]; rfl)
    exact ⟨.start, m, by rw [Manager.sampled, hsample], hsim⟩
  | some x =>
    obtain ⟨cols, emitted⟩ := x
    obtain ⟨m, hsim⟩ := Sim.init law Mgr.start job.rows (fun _ => .ready fun _ => []) (h.sample_pos _ hsample)
      fun row _ => .inl rfl
    have hfilter : ∀ row, ((emitted.map fun x => Event.put x.1 x.2).filter fun e => e.row = row) =
        (job.sampleOf row).map (Event.put row) := by
      intro row
      rw [Job.sampleOf, hsample, List.filter_map, List.map_map]
      refine map_congr_left fun x hx => ?_
      have hrow : x.1 = row := of_decide_eq_true (mem_filter.mp hx).2
      simp [hrow]
    obtain ⟨s, m', hrun, hsim'⟩ := hsim.run law (emitted.map fun x => Event.put x.1 x.2)
      (fun e he => by
        obtain ⟨x, hx, rfl⟩ := mem_map.mp he
        exact h.sample_rows _ hsample x hx)
      (fun row kv hput => by
        obtain ⟨x, hx, heq⟩ := mem_map.mp hput
        cases heq
        exact hhash _ (Job.mem_emitted (h.sample_rows _ hsample x hx) (.inl (Job.mem_sampleOf hsample hx))))
      (fun row _ => by
        rw [hfilter]
        exact ⟨_, rfl⟩)
      fun row hrow => law.room_mono (fun k => le_trans (by
        rw [hfilter, foldl_after_puts, map_append, valuesOf_append, length_append]
        exact Nat.le_add_right _ _) (length_row_le job hrow k)) hroom
    obtain ⟨m'', hsim''⟩ := Sim.init law s.mbksBak job.rows job.start h.cols_pos fun row hrow => by
      refine .inr ⟨m', _, by rw [Job.start, hsample]; rfl, hsim'.mapper, hsim'.ready row hrow _ ?_⟩
      rw [hfilter, foldl_after_puts]
      rfl
    refine ⟨s.mbksBak, m'', ?_, hsim''⟩
    rw [Manager.sampled, hsample]
    simp only [hrun, map_some]

theorem Manager.Lawful.run_spec (law : mgr.Lawful hashOf Room Stores) (h : job.Valid)
    (hhash : ∀ kv ∈ job.emitted, kv.hash = hashOf kv.key) (hatype : atype ≠ .maponly)
    (hnodup : order.Nodup) (hcols : ∀ col ∈ order, col < job.cols)
    (hroom : Room (valuesOf (job.emitted.map KeyVal.pair)))
    (hshort : ∀ k, (valuesOf (job.emitted.map KeyVal.pair) k).length < 2 ^ 31) :
    ∃ calls, mgr.run atype job order = some calls ∧
      Forall₂ (fun col cs => Groups cs (valuesOf ((job.column col).map KeyVal.pair)))
        order calls := by
  obtain ⟨s, m, hsampled, hsim⟩ := law.sampled_spec h hhash hroom
  obtain ⟨s', m', hrun, hsim'⟩ := hsim.run law job.events h.rows
    (fun row kv hput => hhash kv (Job.mem_emitted (h.rows _ hput) (.inr (Job.mem_putsOf hput))))
    (fun row hrow => h.proper hrow) fun row hrow => by
      rw [h.finish hrow]
      exact law.room_mono (length_row_le job hrow) hroom
  obtain ⟨calls, htasks, hall⟩ := law.tasks_spec hatype
    (fun row => valuesOf ((job.sampleOf row ++ job.putsOf row).map KeyVal.pair)) order hnodup hsim'.mapper
    (fun col hcol row hrow => by
      rw [hsim'.mapRows] at hrow
      exact (hsim'.ready row hrow _ (h.finish hrow)).bucket col (by rw [hsim'.mapCols]; exact hcols col hcol))
    (by simpa only [hsim'.mapRows, ← valuesOf_flatMap] using! hroom)
    (by simpa only [hsim'.mapRows, ← valuesOf_flatMap] using! hshort)
  refine ⟨calls, ?_, hall.imp fun col cs hgroups => hgroups.congr fun k => .of_eq ?_⟩
  · simp only [Manager.run, hsampled, bind_some, hrun, htasks]
  · rw [hsim'.mapRows, hsim'.mapCols, Job.column, valuesOf_filter_hash hhash, Job.emitted, share]
    simp only [share, valuesOf_flatMap]
    split_ifs <;> simp

def SameCalls (calls calls' : List (K × List V)) : Prop :=
  List.Forall₂ (fun x y => x.1 = y.1 ∧ x.2.Perm y.2) calls calls'

theorem roomyInAll_of_length {l : List (KeyVal K V)} (hlen : l.length < 2 ^ 31) :
    RoomyInAll (valuesOf (l.map KeyVal.pair)) := by
  refine fun keys hkeys => lt_of_le_of_lt ?_ hlen
  clear hlen
  induction keys generalizing l with
  | nil => exact Nat.zero_le _
  | cons k keys ih =>
    obtain ⟨hk, hkeys'⟩ := nodup_cons.mp hkeys
    have hothers : ∀ k' ∈ keys, valuesOf (l.map KeyVal.pair) k' =
        valuesOf ((l.filter fun kv => ¬kv.key = k).map KeyVal.pair) k' := by
      intro k' hk'
      rw [valuesOf_pair, valuesOf_pair, List.filter_filter]
      congr 1
      refine List.filter_congr fun kv _ => ?_
      by_cases hkey : kv.key = k'
      · have : k' ≠ k := fun heq => hk (heq ▸ hk')
        simp [hkey, this]
      · simp [hkey]
    have hsplit := length_eq_length_filter_add (l := l) fun kv => decide (kv.key = k)
    have hrest := ih (l := l.filter fun kv => ¬kv.key = k) hkeys'
    rw [flatMap_cons, length_append, flatMap_congr hothers, valuesOf_pair, length_map]
    simp only [decide_not] at hrest ⊢
    omega

theorem roomy_of_length {l : List (KeyVal K V)} (hlen : l.length < 2 ^ 31)
    (hkeys : (l.map KeyVal.key).dedup.length ≤ 2 ^ 30 + 2) (searched : Bool) :
    Roomy searched (valuesOf (l.map KeyVal.pair)) where
  values k := (length_valuesOf_le _ k).trans (by rw [length_map]; exact hlen.le)
  keys _ keys hnodup hvals := (subperm_of_subset hnodup fun k hk => mem_dedup.mpr (by
    have hmem := valuesOf_ne_nil.mp (hvals k hk)
    rwa [List.map_map] at hmem)).length_le.trans hkeys

/-- The managers make the same reduce calls in each of the columns: one for each key that was
emitted to it, in increasing order, with its values. -/
def Interchange (c : KeyComparator K) (q : QSort (c.toComparator.comap (KeyVal.key (V := V)))) (job : Job K V)
    (atype : AppType) (order : List ℕ) : Prop :=
  ∃ append array btree, (appendbktmgr c.cmp q.sort).run atype job order = some append ∧
    (arraybktmgr c.cmp).run atype job order = some array ∧
    (btreebktmgr c.cmp).run atype job order = some btree ∧
    List.Forall₂ SameCalls append array ∧ List.Forall₂ SameCalls append btree ∧
    List.Forall₂ (fun col cs => cs.Pairwise (fun x y => x.1 < y.1) ∧
      (∀ k, k ∈ cs.map Prod.fst ↔ k ∈ (job.column col).map KeyVal.key) ∧
      ∀ x ∈ cs, x.2.Perm (((job.column col).filter fun kv => kv.key = x.1).map KeyVal.val)) order append

/-- The three bucket managers are interchangeable, if fewer than 2^31 pairs are emitted and they
have at most 2^30 + 2 keys. -/
theorem managers_interchangeable (c : KeyComparator K) (q : QSort (c.toComparator.comap (KeyVal.key (V := V))))
    (job : Job K V) (h : job.Valid) (atype : AppType) (hatype : atype ≠ .maponly) (order : List ℕ)
    (hnodup : order.Nodup) (hcols : ∀ col ∈ order, col < job.cols) (hlen : job.emitted.length < 2 ^ 31)
    (hkeys : (job.emitted.map KeyVal.key).dedup.length ≤ 2 ^ 30 + 2) :
    Interchange c q job atype order := by
  obtain ⟨hashOf, hhash⟩ := h.exists_hashOf
  have hshort : ∀ k, (valuesOf (job.emitted.map KeyVal.pair) k).length < 2 ^ 31 := fun k =>
    (length_valuesOf_le _ k).trans_lt (by rwa [length_map])
  obtain ⟨append, happend, hgroups⟩ := (appendbktmgr_lawful c q hashOf).run_spec h hhash hatype hnodup hcols
    (roomyInAll_of_length hlen) hshort
  obtain ⟨array, harray, hgroups'⟩ := (arraybktmgr_lawful c hashOf).run_spec h hhash hatype hnodup hcols
    (roomy_of_length hlen hkeys true) hshort
  obtain ⟨btree, hbtree, hgroups''⟩ := (btreebktmgr_lawful c hashOf).run_spec h hhash hatype hnodup hcols
    (roomy_of_length hlen hkeys false) hshort
  refine ⟨append, array, btree, happend, harray, hbtree, Fallible.forall₂_join hgroups hgroups' fun _ _ _ => Groups.agree,
    Fallible.forall₂_join hgroups hgroups'' fun _ _ _ => Groups.agree,
    hgroups.imp fun col cs hg => ⟨hg.sorted, fun k => ?_, fun x hx => ?_⟩⟩
  · rw [hg.keys, valuesOf_ne_nil, List.map_map]
    rfl
  · rw [← valuesOf_pair]
    exact hg.values x hx

def sampledJob : Job ℕ ℕ where
  rows := 2
  cols := 2
  sample := some (3, [(0, ⟨1, 10, 7⟩), (1, ⟨1, 11, 7⟩)])
  events := [.rehash 1, .put 1 ⟨2, 12, 4⟩, .rehash 0, .put 0 ⟨1, 13, 7⟩]

theorem sampledJob_valid : sampledJob.Valid where
  cols_pos := by decide
  sample_pos x hx := by
    obtain rfl := some.inj hx
    decide
  sample_rows x hx := by
    obtain rfl := some.inj hx
    decide
  rows := by decide
  order
    | 0, _ => ⟨[⟨1, 13, 7⟩], by decide⟩
    | 1, _ => ⟨[⟨2, 12, 4⟩], by decide⟩
    | row + 2, hrow => absurd hrow (Nat.not_lt_of_le (Nat.le_add_left 2 row))
  hash := by decide

def insertionSort : QSort (difference.toComparator.comap (KeyVal.key : KeyVal ℕ ℕ → ℕ)) := .insertion _

theorem managers_interchangeable_sampled : Interchange difference insertionSort sampledJob .mapreduce [1, 0] :=
  managers_interchangeable .difference insertionSort sampledJob sampledJob_valid .mapreduce (by decide) [1, 0]
    (by decide) (by decide) (by decide) (by decide)

/-- A worker puts `n` pairs with one key. -/
def oneKeyJob (n : ℕ) : Job ℕ ℕ where
  rows := 1
  cols := 1
  sample := none
  events := replicate n (.put 0 ⟨0, 0, 0⟩)

theorem oneKeyJob_fails {n : ℕ} (hn : n ≤ 2 ^ 31) (hlong : 2 ^ 31 ≤ n) :
    (btreebktmgr difference.cmp).run .mapreduce (oneKeyJob n) [0] = none := by
  have law := btreebktmgr_lawful (V := ℕ) difference fun _ => 0
  have hvals : ∀ k, valuesOf ((replicate n (⟨0, 0, 0⟩ : KeyVal ℕ ℕ)).map KeyVal.pair) k =
      if 0 = k then replicate n 0 else [] := by
    intro k
    rw [valuesOf, map_replicate, KeyVal.pair, filter_replicate]
    split_ifs <;> simp_all
  have hrow : ∀ row < 1, ((oneKeyJob n).events.filter fun e => e.row = row) =
      (replicate n ⟨0, 0, 0⟩).map (Event.put row) := by
    intro row hrow
    obtain rfl := Nat.lt_one_iff.mp hrow
    simp [oneKeyJob, Event.row]
  have hfinal : ∀ row < 1, ((oneKeyJob n).events.filter fun e => e.row = row).foldl RowState.after
      (.ready fun _ => []) = .ready (valuesOf ((replicate n ⟨0, 0, 0⟩).map KeyVal.pair)) := by
    intro row h
    rw [hrow row h, foldl_after_puts]
    rfl
  obtain ⟨m, hsim⟩ := Sim.init law Mgr.start 1 (fun _ => .ready fun _ => []) Nat.one_pos fun _ _ => .inl rfl
  obtain ⟨s', m', hrun, hsim'⟩ := hsim.run law (oneKeyJob n).events
    (fun e he => by
      rw [eq_of_mem_replicate he]
      decide)
    (fun row kv hput => by
      cases eq_of_mem_replicate hput
      rfl)
    (fun row h => ⟨_, hrow row h⟩)
    fun row h => by
      rw [hfinal row h]
      refine ⟨fun k => (length_valuesOf_le _ k).trans ?_, by simp⟩
      rwa [length_map, length_replicate]
  have hfails := btreebktmgr_fails .difference .mapreduce 0 (k := 0)
    (fun _ => share (fun _ => 0) 1 0 (valuesOf ((replicate n ⟨0, 0, 0⟩).map KeyVal.pair))) hsim'.mapper
    (fun row hrow => by
      rw [hsim'.mapRows] at hrow
      have hbucket := (hsim'.ready row hrow _ (hfinal row hrow)).bucket 0 (by rw [hsim'.mapCols]; decide)
      rwa [hsim'.mapCols] at hbucket)
    (fun row _ k hk => by
      by_contra hne
      refine hk ?_
      rw [share, if_pos rfl, hvals, if_neg (Ne.symm hne)])
    (by
      rw [hsim'.mapRows, length_flatMap]
      simp only [share, hvals]
      simpa using hlong)
  have hsampled : (btreebktmgr difference.cmp).sampled (oneKeyJob n) = some .start := rfl
  have htasks : (btreebktmgr difference.cmp).tasks .mapreduce [0] s' = none := by
    rw [Manager.tasks, hfails]
    rfl
  have hfold : (oneKeyJob n).events.foldlM (btreebktmgr difference.cmp).step
      (Mgr.start.mbksInit (btreebktmgr difference.cmp).init (oneKeyJob n).rows (oneKeyJob n).cols) =
      some s' := hrun
  rw [Manager.run, hsampled, bind_some, hfold, bind_some, htasks]

/-- With 2^31 pairs there is no reduce call. -/
theorem btreebktmgr_overflows :
    (btreebktmgr difference.cmp).run .mapreduce (oneKeyJob (2 ^ 31)) [0] = none :=
  oneKeyJob_fails le_rfl le_rfl

end Calls

end Mosbench.Metis
