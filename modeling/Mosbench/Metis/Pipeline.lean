import Mosbench.Lib.Tally
import Mosbench.Lib.Transition
import Mosbench.Metis.Managers

/-!
A run of Metis that maps, groups and reduces (mr_run_scheduler and mr_sample in mr-sched.c,
kvstore.c). The workers take splits one after the other and emit the pairs of each into their
rows of the table, first for the splits that are sampled and then, when the main thread has
joined all of them and set the table aside, for the others. Each reduce task takes a column.

A step is what one worker does between two accesses to what others use: it takes a split, emits
a pair, moves its row of the backup or runs a reduce task. How many splits are sampled, how many
columns the tables have, and which worker takes which split is left open.
-/
namespace Mosbench.Metis.Pipeline

open Grouping List Option Function Transition
open KeyComparator (difference)

structure Params (S K V : Type) where
  rows : ℕ
  rows_pos : 0 < rows
  /-- With sampling, the number of splits that are sampled and the columns of the first table. -/
  sampling : Option (ℕ × ℕ)
  sampleCols_pos : ∀ x, sampling = some x → 0 < x.2
  cols : ℕ
  cols_pos : 0 < cols
  splits : List S
  /-- The position of the next split is an int. -/
  splits_lt : splits.length < 2 ^ 31
  mapFunc : S → List (K × V)
  partFunc : K → ℕ
  atype : AppType
  reduces : atype ≠ .maponly

inductive Phase
  | sample
  | map
  | reduce
  | finished
  deriving DecidableEq

inductive Worker (K V : Type)
  | begin
  | busy (pending : List (KeyVal K V))
  | done

structure State (S K V C : Type) where
  phase : Phase
  splits : List S
  /-- The splits that are not sampled, while the others are. -/
  rest : List S
  worker : ℕ → Worker K V
  table : Mgr C
  taskPos : ℕ
  calls : List (K × List V)

inductive Action
  | work (row : ℕ)
  | advance
  deriving DecidableEq

variable {S K V : Type}

namespace Worker

def isDone : Worker K V → Bool
  | .done => true
  | _ => false

def pending : Worker K V → List (KeyVal K V)
  | .busy kvs => kvs
  | _ => []

theorem busy_ne_begin (kvs : List (KeyVal K V)) : Worker.busy kvs ≠ .begin := by
  intro h
  cases h

theorem done_ne_begin : (Worker.done : Worker K V) ≠ .begin := by
  intro h
  cases h

theorem not_isDone_busy (kvs : List (KeyVal K V)) {P : Prop} (h : (Worker.busy kvs).isDone = true) : P := by
  cases h

end Worker

namespace Params

def kvs (j : Params S K V) (split : S) : List (KeyVal K V) :=
  (j.mapFunc split).map fun p => ⟨p.1, p.2, j.partFunc p.1⟩

def emitted (j : Params S K V) : List (K × V) := j.splits.flatMap j.mapFunc

end Params

section Steps

variable (mgr : Manager K V) (j : Params S K V)

def start : State S K V mgr.Bucket :=
  match j.sampling with
  | none => ⟨.map, j.splits, [], fun _ => .begin, Mgr.start.mbksInit mgr.init j.rows j.cols, 0, []⟩
  | some (n, cols) =>
    ⟨.sample, j.splits.take n, j.splits.drop n, fun _ => .begin, Mgr.start.mbksInit mgr.init j.rows cols, 0, []⟩

namespace State

variable {mgr}

def setWorker {C : Type} (s : State S K V C) (row : ℕ) (w : Worker K V) : State S K V C :=
  { s with worker := Function.update s.worker row w }

/-- One step of mr_map_worker. Only in the map phase can there be a backup. -/
def mapStep (s : State S K V mgr.Bucket) (row : ℕ) : Option (State S K V mgr.Bucket) :=
  match s.worker row with
  | .begin =>
    if s.phase = .map ∧ j.sampling.isSome then
      (mgr.rehashBak s.table row).map fun table => { s.setWorker row (.busy []) with table := table }
    else some (s.setWorker row (.busy []))
  | .busy [] =>
    match s.splits with
    | [] => some (s.setWorker row .done)
    | split :: splits => some { s.setWorker row (.busy (j.kvs split)) with splits := splits }
  | .busy (kv :: kvs) =>
    (mgr.mapPut s.table row kv).map fun x => { s.setWorker row (.busy kvs) with table := x.1 }
  | .done => none

def reduceStep (s : State S K V mgr.Bucket) (row : ℕ) : Option (State S K V mgr.Bucket) :=
  if (s.worker row).isDone then none
  else if s.taskPos < j.cols then
    (mgr.doReduceTask j.atype s.table s.taskPos).map fun x =>
      { s with table := x.1, taskPos := s.taskPos + 1, calls := s.calls ++ x.2 }
  else some (s.setWorker row .done)

/-- The main thread goes on when it has joined all workers. -/
def advance (s : State S K V mgr.Bucket) : Option (State S K V mgr.Bucket) :=
  if ∀ row < j.rows, (s.worker row).isDone = true then
    match s.phase with
    | .sample =>
      some { s with
        phase := .map, splits := s.rest, rest := [], worker := fun _ => .begin
        table := s.table.mbksBak.mbksInit mgr.init j.rows j.cols }
    | .map => some { s with phase := .reduce, worker := fun _ => .begin }
    | .reduce => some { s with phase := .finished }
    | .finished => none
  else none

end State

def step (s : State S K V mgr.Bucket) : Action → Option (State S K V mgr.Bucket)
  | .work row =>
    if row < j.rows then
      match s.phase with
      | .sample | .map => s.mapStep j row
      | .reduce => s.reduceStep j row
      | .finished => none
    else none
  | .advance => s.advance j

def system : System (State S K V mgr.Bucket) Action where
  initial s := s = start mgr j
  step := step mgr j

end Steps

section

variable {mgr : Manager K V}

def Worker.remaining : Worker K V → ℕ
  | .begin => 2
  | .busy kvs => kvs.length + 1
  | .done => 0

def Phase.remaining : Phase → ℕ
  | .sample => 3
  | .map => 2
  | .reduce => 1
  | .finished => 0

def State.remaining {C : Type} (j : Params S K V) (s : State S K V C) : ℕ :=
  s.phase.remaining * (2 * j.rows + 1) + ((List.range j.rows).map fun row => (s.worker row).remaining).sum +
    ((s.splits ++ s.rest).map fun split => (j.kvs split).length + 1).sum + (j.cols - s.taskPos)

theorem sum_update_worker (worker : ℕ → Worker K V) (hrow : row < rows) (w : Worker K V) :
    ((range rows).map fun r => (update worker row w r).remaining).sum + (worker row).remaining =
      ((range rows).map fun r => (worker r).remaining).sum + w.remaining := by
  have h := Tally.sum_range_of_agree (f := fun r => (worker r).remaining)
    (g := fun r => (update worker row w r).remaining) hrow fun r hr => by rw [update_of_ne hr]
  rwa [update_self] at h

variable {s : State S K V mgr.Bucket}

open State

theorem State.mapStep_remaining (hrow : row < j.rows)
    (h : s.mapStep j row = some s') : s'.remaining j < s.remaining j := by
  have hsum := sum_update_worker s.worker hrow
  unfold mapStep at h
  split at h
  · next hw =>
    have := hsum (.busy [])
    rw [hw] at this
    split at h
    · obtain ⟨table, -, rfl⟩ := map_eq_some_iff.mp h
      simp only [remaining, setWorker, Worker.remaining, length_nil] at this ⊢
      omega
    · obtain rfl := some.inj h
      simp only [remaining, setWorker, Worker.remaining, length_nil] at this ⊢
      omega
  · next hw =>
    split at h
    · next hsplits =>
      obtain rfl := some.inj h
      have := hsum .done
      rw [hw] at this
      simp only [remaining, setWorker, Worker.remaining, length_nil] at this ⊢
      omega
    · next split splits hsplits =>
      obtain rfl := some.inj h
      have := hsum (.busy (j.kvs split))
      rw [hw] at this
      simp only [remaining, setWorker, Worker.remaining, length_nil, hsplits, cons_append,
        map_cons, sum_cons] at this ⊢
      omega
  · next kv kvs hw =>
    obtain ⟨x, -, rfl⟩ := map_eq_some_iff.mp h
    have := hsum (.busy kvs)
    rw [hw] at this
    simp only [remaining, setWorker, Worker.remaining, length_cons] at this ⊢
    omega
  · cases h

theorem State.reduceStep_remaining (hrow : row < j.rows)
    (h : s.reduceStep j row = some s') : s'.remaining j < s.remaining j := by
  unfold reduceStep at h
  split_ifs at h with hdone hpos
  · obtain ⟨x, -, rfl⟩ := map_eq_some_iff.mp h
    simp only [remaining]
    omega
  · obtain rfl := some.inj h
    have hsum := sum_update_worker s.worker hrow .done
    have hwork : 0 < (s.worker row).remaining := by
      cases hw : s.worker row with
      | done => simp [hw, Worker.isDone] at hdone
      | begin | busy kvs => simp [Worker.remaining]
    rw [show (Worker.done : Worker K V).remaining = 0 from rfl] at hsum
    simp only [remaining, setWorker]
    omega

theorem State.advance_remaining (h : s.advance j = some s') : s'.remaining j < s.remaining j := by
  have hbegin : ((range j.rows).map fun _ => (Worker.begin : Worker K V).remaining).sum = 2 * j.rows := by
    simp [Worker.remaining, Nat.mul_comm]
  unfold advance at h
  split_ifs at h
  cases hphase : s.phase with
  | sample =>
    simp only [hphase, some.injEq] at h
    subst h
    simp only [remaining, hphase, Phase.remaining, hbegin, append_nil, map_append, sum_append]
    omega
  | map =>
    simp only [hphase, some.injEq] at h
    subst h
    simp only [remaining, hphase, Phase.remaining, hbegin]
    omega
  | reduce =>
    simp only [hphase, some.injEq] at h
    subst h
    simp only [remaining, hphase, Phase.remaining]
    omega
  | finished => simp [hphase] at h

theorem step_remaining (h : step mgr j s a = some s') : s'.remaining j < s.remaining j := by
  cases a with
  | work row =>
    simp only [step] at h
    split_ifs at h with hrow
    split at h
    · exact mapStep_remaining hrow h
    · exact mapStep_remaining hrow h
    · exact reduceStep_remaining hrow h
    · cases h
  | advance => exact advance_remaining h

end

section

variable [LinearOrder K] {mgr : Manager K V} {j : Params S K V}

def tableCols (j : Params S K V) : Phase → ℕ
  | .sample => (j.sampling.map Prod.snd).getD j.cols
  | _ => j.cols

/-- A row that holds the pairs `log`: in the map phase a worker that has not begun has them in the
backup, if there is one. -/
def rowState (j : Params S K V) (phase : Phase) (w : Worker K V) (log : List (KeyVal K V)) : RowState K V :=
  match phase, j.sampling, w with
  | .map, some _, .begin => .waiting (Grouping.valuesOf (log.map KeyVal.pair))
  | _, _, _ => .ready (Grouping.valuesOf (log.map KeyVal.pair))

/-- While splits are mapped: `log row` is what the worker has emitted. Together with what is left
to emit this makes up the input. -/
structure Mapping (Stores : mgr.Bucket → (K → List V) → Prop) (j : Params S K V) (s : State S K V mgr.Bucket)
    (m : Mapper mgr.Bucket) (log : ℕ → List (KeyVal K V)) : Prop where
  sim : Sim Stores j.partFunc j.rows (tableCols j s.phase) s.table m fun row =>
    rowState j s.phase (s.worker row) (log row)
  account : ((List.range j.rows).flatMap (fun row => log row ++ (s.worker row).pending) ++
    (s.splits ++ s.rest).flatMap j.kvs).Perm (j.splits.flatMap j.kvs)
  begun : ∀ row, s.worker row = .begin → s.phase = .sample ∨ j.sampling = none → log row = []
  rest : s.phase = .map → s.rest = []
  exhausted : ∀ row, (s.worker row).isDone = true → s.splits = []
  taskPos : s.taskPos = 0
  calls : s.calls = []

structure Reducing (Stores : mgr.Bucket → (K → List V) → Prop) (j : Params S K V) (s : State S K V mgr.Bucket)
    (m : Mapper mgr.Bucket) (vals : ℕ → K → List V) : Prop where
  mapper : s.table.mapper = some m
  mapRows : m.mapRows = j.rows
  mapCols : m.mapCols = j.cols
  columns : ∀ col, s.taskPos ≤ col → col < j.cols → ∀ row < j.rows, ∃ b, m.bucket row col = some b ∧
    Stores b (share j.partFunc j.cols col (vals row))
  all : ∀ k, ((List.range j.rows).flatMap fun row => vals row k).Perm (Grouping.valuesOf j.emitted k)
  le : s.taskPos ≤ j.cols
  calls : Grouping.Collects s.calls fun k => if j.partFunc k % j.cols < s.taskPos then Grouping.valuesOf j.emitted k else []
  exhausted : ∀ row, (s.worker row).isDone = true → s.taskPos = j.cols

def Inv (Stores : mgr.Bucket → (K → List V) → Prop) (j : Params S K V) (s : State S K V mgr.Bucket) : Prop :=
  match s.phase with
  | .sample => j.sampling.isSome ∧ ∃ m log, Mapping Stores j s m log
  | .map => ∃ m log, Mapping Stores j s m log
  | .reduce => ∃ m vals, Reducing Stores j s m vals
  | .finished => Grouping.Collects s.calls (Grouping.valuesOf j.emitted)

theorem rowState_busy (j : Params S K V) (phase : Phase) (kvs log : List (KeyVal K V)) :
    rowState j phase (.busy kvs) log = .ready (valuesOf (log.map KeyVal.pair)) := by
  cases phase <;> cases hs : j.sampling <;> simp [rowState, hs]

theorem rowState_done (j : Params S K V) (phase : Phase) (log : List (KeyVal K V)) :
    rowState j phase .done log = .ready (valuesOf (log.map KeyVal.pair)) := by
  cases phase <;> cases hs : j.sampling <;> simp [rowState, hs]

theorem rowState_begin (j : Params S K V) (log : List (KeyVal K V))
    (h : ¬ (phase = .map ∧ j.sampling.isSome = true)) :
    rowState j phase .begin log = .ready (valuesOf (log.map KeyVal.pair)) := by
  cases phase <;> cases hs : j.sampling <;> simp_all [rowState]

theorem rowState_waiting (j : Params S K V) (log : List (KeyVal K V)) (h : j.sampling.isSome = true) :
    rowState j .map .begin log = .waiting (valuesOf (log.map KeyVal.pair)) := by
  cases hs : j.sampling with
  | none => simp [hs] at h
  | some x => simp [rowState, hs]

omit [LinearOrder K] in
theorem hash_of_mem_kvs {splits : List S} (h : kv ∈ splits.flatMap j.kvs) :
    kv.hash = j.partFunc kv.key := by
  obtain ⟨split, -, hkv⟩ := mem_flatMap.mp h
  obtain ⟨p, -, rfl⟩ := mem_map.mp hkv
  rfl

omit [LinearOrder K] in
theorem map_pair_kvs (j : Params S K V) : (j.splits.flatMap j.kvs).map KeyVal.pair = j.emitted := by
  simp [Params.emitted, Params.kvs, map_flatMap, KeyVal.pair, comp_def]

theorem addValues_valuesOf (pairs : List (K × V)) (key : K) (val : V) :
    addValues (valuesOf pairs) key [val] = valuesOf (pairs ++ [(key, val)]) := by
  funext k
  rw [addValues, valuesOf_append, valuesOf_singleton]
  split_ifs <;> simp

theorem update_rowState (j : Params S K V) (phase : Phase) (worker : ℕ → Worker K V) (log : ℕ → List (KeyVal K V))
    (row : ℕ) (w : Worker K V) (l : List (KeyVal K V)) :
    (fun r => rowState j phase (update worker row w r) (update log row l r)) =
      update (fun r => rowState j phase (worker r) (log r)) row (rowState j phase w l) := by
  funext r
  by_cases hr : r = row
  · subst hr
    simp
  · simp [hr]

variable {s : State S K V mgr.Bucket}

namespace Mapping

theorem hash_eq (h : Mapping Stores j s m log) (hrow : row < j.rows)
    (hkv : kv ∈ (s.worker row).pending) : kv.hash = j.partFunc kv.key :=
  hash_of_mem_kvs (h.account.subset (mem_append_left _
    (mem_flatMap.mpr ⟨row, mem_range.mpr hrow, mem_append_right _ hkv⟩)))

theorem length_row_le (h : Mapping Stores j s m log) (hrow : row < j.rows) (k : K) :
    (valuesOf ((log row ++ (s.worker row).pending).map KeyVal.pair) k).length ≤ (valuesOf j.emitted k).length := by
  obtain ⟨a, b, hab⟩ := append_of_mem (mem_range.mpr hrow)
  rw [← map_pair_kvs, ← (valuesOf_perm (h.account.map KeyVal.pair) k).length_eq, hab]
  simp only [flatMap_append, flatMap_cons, map_append, valuesOf_append, length_append]
  omega

theorem update (h : Mapping Stores j s m log) (hrow : row < j.rows) (taken : List S)
    (hw : w ≠ .begin) (hpending : l ++ w.pending = log row ++ (s.worker row).pending ++ taken.flatMap j.kvs)
    (hsplits : s.splits = taken ++ splits) (hdone : w.isDone = true → splits = [])
    (hsim : Sim Stores j.partFunc j.rows (tableCols j s.phase) table m'
      (update (fun r => rowState j s.phase (s.worker r) (log r)) row (rowState j s.phase w l))) :
    Mapping Stores j ⟨s.phase, splits, s.rest, update s.worker row w, table, s.taskPos, s.calls⟩ m'
      (update log row l) where
  sim := by
    rw [← update_rowState] at hsim
    exact hsim
  account := by
    refine .trans ?_ h.account
    have hrows : (fun r => Function.update log row l r ++ (Function.update s.worker row w r).pending) =
        Function.update (fun r => log r ++ (s.worker r).pending) row
          (log row ++ (s.worker row).pending ++ taken.flatMap j.kvs) := by
      funext r
      by_cases hr : r = row
      · subst hr
        simp [hpending]
      · simp [hr]
    refine .trans (.append_right _ (.trans (.of_eq (congrArg (flatMap · (range j.rows)) hrows))
      (flatMap_range_perm hrow (taken.flatMap j.kvs) (fun r hr => update_of_ne hr _ _)
        (.of_eq (update_self row _ _))))) ?_
    rw [hsplits, append_assoc taken, append_assoc, ← flatMap_append]
  begun := by
    intro r hr hphase
    by_cases hne : r = row
    · subst hne
      exact absurd ((update_self r w s.worker).symm.trans hr) hw
    · simp only [update_of_ne hne] at hr ⊢
      exact h.begun r hr hphase
  rest := h.rest
  taskPos := h.taskPos
  calls := h.calls
  exhausted := by
    intro r hr
    by_cases hne : r = row
    · subst hne
      simp only [update_self] at hr
      exact hdone hr
    · simp only [update_of_ne hne] at hr
      exact (append_eq_nil_iff.mp (hsplits.symm.trans (h.exhausted r hr))).2

theorem same_table (h : Mapping Stores j s m log)
    (hstate : rowState j s.phase (s.worker row) (log row) = rowState j s.phase w (log row)) :
    Sim Stores j.partFunc j.rows (tableCols j s.phase) s.table m
      (Function.update (fun r => rowState j s.phase (s.worker r) (log r)) row (rowState j s.phase w (log row))) := by
  rw [← hstate]
  exact (update_eq_self row _).symm ▸ h.sim

theorem mapStep_spec (law : mgr.Lawful j.partFunc Room Stores) (hroom : Room (valuesOf j.emitted))
    (h : Mapping Stores j s m log)
    (hrow : row < j.rows) (hdone : (s.worker row).isDone = false) :
    ∃ s', s.mapStep j row = some s' ∧ s'.phase = s.phase ∧ ∃ m' log', Mapping Stores j s' m' log' := by
  unfold State.mapStep
  cases hw : s.worker row with
  | begin =>
    by_cases hbak : s.phase = .map ∧ j.sampling.isSome = true
    · -- the row waits in the backup
      have hwaiting : rowState j s.phase (s.worker row) (log row) =
          .waiting (valuesOf ((log row).map KeyVal.pair)) := by
        rw [hw, hbak.1]
        exact rowState_waiting j (log row) hbak.2
      obtain ⟨table, m', hstep, hsim⟩ := h.sim.step law (e := .rehash row) hrow
        (by simp only [Event.row, hwaiting, InOrder]) (by intro _ _ he; cases he)
        (law.room_mono (fun k => by
          simp only [Event.row, hwaiting, RowState.after, RowState.vals]
          simpa [hw, Worker.pending] using h.length_row_le hrow k) hroom)
      refine ⟨{ s.setWorker row (.busy []) with table := table }, ?_, rfl, m', Function.update log row (log row), ?_⟩
      · simp only [if_pos hbak]
        exact congrArg (Option.map _) hstep
      · refine h.update hrow [] (Worker.busy_ne_begin _) (by simp [hw, Worker.pending]) rfl (Worker.not_isDone_busy _) ?_
        simp only [Event.row, hwaiting, RowState.after] at hsim
        rw [rowState_busy]
        exact hsim
    · refine ⟨s.setWorker row (.busy []), by rw [if_neg hbak], rfl, m, Function.update log row (log row), ?_⟩
      refine h.update hrow [] (Worker.busy_ne_begin _) (by simp [hw, Worker.pending]) rfl (Worker.not_isDone_busy _)
        (h.same_table ?_)
      rw [hw, rowState_begin j _ hbak, rowState_busy]
  | busy pending =>
    cases pending with
    | nil =>
      cases hsplits : s.splits with
      | nil =>
        refine ⟨s.setWorker row .done, rfl, rfl, m, Function.update log row (log row), ?_⟩
        refine h.update hrow [] Worker.done_ne_begin (by simp [hw, Worker.pending]) rfl (fun _ => hsplits) (h.same_table ?_)
        rw [hw, rowState_busy, rowState_done]
      | cons split splits =>
        refine ⟨{ s.setWorker row (.busy (j.kvs split)) with splits := splits }, rfl, rfl, m,
          Function.update log row (log row), ?_⟩
        refine h.update hrow [split] (Worker.busy_ne_begin _) (by simp [hw, Worker.pending]) hsplits
          (Worker.not_isDone_busy _) (h.same_table ?_)
        rw [hw, rowState_busy, rowState_busy]
    | cons kv kvs =>
      have hready : rowState j s.phase (s.worker row) (log row) =
          .ready (valuesOf ((log row).map KeyVal.pair)) := by
        rw [hw]
        exact rowState_busy j s.phase _ (log row)
      obtain ⟨table, m', hstep, hsim⟩ := h.sim.step law (e := .put row kv) hrow
        (by simp only [Event.row, hready, InOrder]) (fun r kv' he => by
          obtain ⟨rfl, rfl⟩ := Event.put.inj he
          exact h.hash_eq hrow (by simp [hw, Worker.pending]))
        (law.room_mono (fun k => by
          have hle := h.length_row_le hrow k
          simp only [hw, Worker.pending, map_append, map_cons, valuesOf_append, KeyVal.pair, valuesOf_cons,
            length_append] at hle
          simp only [Event.row, hready, RowState.after, RowState.vals, addValues_valuesOf, valuesOf_append,
            valuesOf_singleton, length_append]
          omega) hroom)
      obtain ⟨⟨table', newKey⟩, hput, rfl⟩ := map_eq_some_iff.mp hstep
      refine ⟨{ s.setWorker row (.busy kvs) with table := table' }, ?_, rfl, m', Function.update log row (log row ++ [kv]), ?_⟩
      · simp only [hput, map_some]
      · refine h.update hrow [] (Worker.busy_ne_begin _) (by simp [hw, Worker.pending]) rfl (Worker.not_isDone_busy _) ?_
        simp only [Event.row, hready, RowState.after] at hsim
        rw [rowState_busy, map_append, map_singleton, KeyVal.pair, ← addValues_valuesOf]
        exact hsim
  | done => simp [hw, Worker.isDone] at hdone

theorem all_logged (h : Mapping Stores j s m log) (hdone : ∀ row < j.rows, (s.worker row).isDone = true) :
    ((range j.rows).flatMap log ++ s.rest.flatMap j.kvs).Perm (j.splits.flatMap j.kvs) := by
  refine .trans (.of_eq ?_) h.account
  rw [h.exhausted 0 (hdone 0 j.rows_pos), nil_append]
  refine congrArg (· ++ _) (flatMap_congr fun row hrow => ?_)
  have hrow' := hdone row (mem_range.mp hrow)
  cases hw : s.worker row with
  | done => simp [Worker.pending]
  | begin | busy kvs => simp [hw, Worker.isDone] at hrow'

theorem row_holds (h : Mapping Stores j s m log) (hrow : row < j.rows)
    (hdone : (s.worker row).isDone = true) :
    RowHolds Stores j.partFunc m row (valuesOf ((log row).map KeyVal.pair)) := by
  refine h.sim.ready row hrow _ ?_
  cases hw : s.worker row with
  | done => exact rowState_done j s.phase (log row)
  | begin | busy kvs => simp [hw, Worker.isDone] at hdone

theorem advance_sample (law : mgr.Lawful j.partFunc Room Stores) (h : Mapping Stores j s m log)
    (hsampling : j.sampling.isSome = true) (hdone : ∀ row < j.rows, (s.worker row).isDone = true) :
    ∃ m', Mapping Stores j ⟨.map, s.rest, [], fun _ => .begin, s.table.mbksBak.mbksInit mgr.init j.rows j.cols,
      s.taskPos, s.calls⟩ m' log := by
  obtain ⟨m', hsim⟩ := Sim.init law s.table.mbksBak j.rows
    (fun row => rowState j .map .begin (log row)) j.cols_pos fun row hrow =>
      .inr ⟨m, _, rowState_waiting j (log row) hsampling, h.sim.mapper, h.row_holds hrow (hdone row hrow)⟩
  refine ⟨m', hsim, ?_, fun row _ hphase => ?_, fun _ => rfl, fun row hrow => (nomatch hrow), h.taskPos, h.calls⟩
  · simpa [Worker.pending] using h.all_logged hdone
  · rcases hphase with hphase | hnone
    · cases hphase
    · simp [hnone] at hsampling

theorem advance_map (h : Mapping Stores j s m log) (hphase : s.phase = .map)
    (hdone : ∀ row < j.rows, (s.worker row).isDone = true) :
    Reducing Stores j ⟨.reduce, s.splits, s.rest, fun _ => .begin, s.table, s.taskPos, s.calls⟩ m
      fun row => valuesOf ((log row).map KeyVal.pair) where
  mapper := h.sim.mapper
  mapRows := h.sim.mapRows
  mapCols := by
    rw [h.sim.mapCols, hphase]
    rfl
  columns := by
    intro col _ hcol row hrow
    have hcols : m.mapCols = j.cols := by
      rw [h.sim.mapCols, hphase]
      rfl
    rw [← hcols] at hcol ⊢
    exact (h.row_holds hrow (hdone row hrow)).bucket col hcol
  all := by
    intro k
    have hall := h.all_logged hdone
    rw [h.rest hphase, flatMap_nil, append_nil] at hall
    rw [← map_pair_kvs, ← valuesOf_flatMap]
    exact valuesOf_perm (hall.map _) k
  le := h.taskPos ▸ Nat.zero_le _
  calls := by
    rw [h.taskPos, h.calls]
    exact .nil fun k => by simp
  exhausted := fun row hrow => nomatch hrow

end Mapping

theorem Reducing.length_column_le (h : Reducing Stores j s m vals) (col : ℕ) (k : K) :
    ((range m.mapRows).flatMap fun row => share j.partFunc j.cols col (vals row) k).length ≤
      (valuesOf j.emitted k).length := by
  rw [← (h.all k).length_eq, h.mapRows, length_flatMap, length_flatMap]
  exact sum_le_sum fun row _ => length_share_le _ _ _ _ k

theorem Reducing.reduceStep_spec (law : mgr.Lawful j.partFunc Room Stores) (hroom : Room (valuesOf j.emitted))
    (hshort : ∀ k, (valuesOf j.emitted k).length < 2 ^ 31) (h : Reducing Stores j s m vals) (hdone : (s.worker row).isDone = false) :
    ∃ s', s.reduceStep j row = some s' ∧ s'.phase = s.phase ∧ ∃ m', Reducing Stores j s' m' vals := by
  rw [State.reduceStep, if_neg (by simp [hdone])]
  by_cases hpos : s.taskPos < j.cols
  · obtain ⟨m', cs, htask, hrows, hcols, hother, hgroups⟩ := law.doReduceTask
      (fun row => share j.partFunc j.cols s.taskPos (vals row)) h.mapper j.reduces
      (fun r hr => h.columns s.taskPos le_rfl hpos r (h.mapRows ▸ hr))
      (law.room_mono (h.length_column_le s.taskPos) hroom)
      fun k => (h.length_column_le s.taskPos k).trans_lt (hshort k)
    refine ⟨{ s with
        table := { s.table with mapper := some m' }
        taskPos := s.taskPos + 1
        calls := s.calls ++ cs }, by rw [if_pos hpos, htask, map_some], rfl, m', rfl, hrows.trans h.mapRows,
      hcols.trans h.mapCols, fun col hle hcol r hr => ?_, h.all, hpos, ?_, fun r hr => ?_⟩
    · rw [hother r col (Nat.ne_of_gt hle)]
      exact h.columns col (Nat.le_of_lt hle) hcol r hr
    · refine (h.calls.append hgroups.collects fun k hk => ?_).congr fun k => ?_
      · have hlt : j.partFunc k % j.cols < s.taskPos := by
          by_contra hge
          simp [hge] at hk
        simp [share, hlt.ne]
      · have hnone : (range j.rows).flatMap (fun _ => ([] : List V)) = [] :=
          flatMap_eq_nil_iff.mpr fun _ _ => rfl
        rw [h.mapRows]
        rcases lt_trichotomy (j.partFunc k % j.cols) s.taskPos with hlt | heq | hgt
        · simp [share, hlt, hlt.ne, hnone, Nat.lt_succ_of_lt hlt]
        · simpa [share, heq] using h.all k
        · simp [share, hgt.ne', hnone, Nat.not_lt.mpr hgt.le, Nat.not_lt.mpr (Nat.succ_le_of_lt hgt)]
    · exact absurd (h.exhausted r hr) hpos.ne
  · have hend : s.taskPos = j.cols := Nat.le_antisymm h.le (Nat.le_of_not_lt hpos)
    exact ⟨s.setWorker row .done, by rw [if_neg hpos], rfl, m, h.mapper, h.mapRows, h.mapCols, h.columns, h.all, h.le, h.calls,
      fun _ _ => hend⟩

omit [LinearOrder K] in
theorem isDone_of_mapStep (h : s.mapStep j row = some s') : (s.worker row).isDone = false := by
  cases hw : s.worker row with
  | done => simp [State.mapStep, hw] at h
  | begin | busy kvs => rfl

omit [LinearOrder K] in
theorem isDone_of_reduceStep (h : s.reduceStep j row = some s') :
    (s.worker row).isDone = false := by
  rw [State.reduceStep] at h
  split_ifs at h with hdone
  · simpa using hdone
  · simpa using hdone

namespace Inv

section

variable {Stores : mgr.Bucket → (K → List V) → Prop} {Room : (K → List V) → Prop}
  (law : mgr.Lawful j.partFunc Room Stores)

include law

theorem start : Inv Stores j (start mgr j) := by
  cases hs : j.sampling with
  | none =>
    have hstart : Pipeline.start mgr j =
        ⟨.map, j.splits, [], fun _ => .begin, Mgr.start.mbksInit mgr.init j.rows j.cols, 0, []⟩ := by
      simp only [Pipeline.start, hs]
    obtain ⟨m, hsim⟩ := Sim.init law Mgr.start j.rows (fun _ => rowState j .map .begin []) j.cols_pos
      fun row _ => .inl (rowState_begin j [] (by simp [hs]))
    rw [hstart]
    refine ⟨m, fun _ => [], hsim, ?_, fun _ _ _ => rfl, fun _ => rfl, fun _ hrow => (nomatch hrow), rfl, rfl⟩
    simp [Worker.pending, flatMap_eq_nil_iff.mpr]
  | some x =>
    obtain ⟨n, cols⟩ := x
    have hstart : Pipeline.start mgr j = ⟨.sample, j.splits.take n, j.splits.drop n, fun _ => .begin,
        Mgr.start.mbksInit mgr.init j.rows cols, 0, []⟩ := by
      simp only [Pipeline.start, hs]
    obtain ⟨m, hsim⟩ := Sim.init law Mgr.start j.rows (fun _ => rowState j .sample .begin []) (j.sampleCols_pos _ hs)
      fun row _ => .inl (rowState_begin j [] (by simp))
    rw [hstart]
    refine ⟨by simp [hs], m, fun _ => [], ?_, ?_, fun _ _ _ => rfl, fun hphase => (nomatch hphase),
      fun _ hrow => (nomatch hrow), rfl, rfl⟩
    · have hcols : tableCols j .sample = cols := by simp [tableCols, hs]
      rw [hcols]
      exact hsim
    · simp [Worker.pending, flatMap_eq_nil_iff.mpr]

theorem advance (h : Inv Stores j s)
    (hstep : s.advance j = some s') : Inv Stores j s' := by
  rw [State.advance] at hstep
  split_ifs at hstep with hdone
  cases hphase : s.phase with
  | sample =>
    simp only [Inv, hphase] at h hstep
    obtain ⟨hsampling, m, log, hmap⟩ := h
    obtain ⟨m', hmap'⟩ := hmap.advance_sample law hsampling hdone
    obtain rfl := some.inj hstep
    exact ⟨m', log, hmap'⟩
  | map =>
    simp only [Inv, hphase] at h hstep
    obtain ⟨m, log, hmap⟩ := h
    obtain rfl := some.inj hstep
    exact ⟨m, _, hmap.advance_map hphase hdone⟩
  | reduce =>
    simp only [Inv, hphase] at h hstep
    obtain ⟨m, vals, hred⟩ := h
    obtain rfl := some.inj hstep
    refine hred.calls.congr fun k => ?_
    rw [hred.exhausted 0 (hdone 0 j.rows_pos), if_pos (Nat.mod_lt _ j.cols_pos)]
  | finished => simp [hphase] at hstep

variable (hroom : Room (valuesOf j.emitted))

include hroom

theorem mapStep (h : Inv Stores j s) (hphase : s.phase = .sample ∨ s.phase = .map) (hrow : row < j.rows)
    (hstep : s.mapStep j row = some s') : Inv Stores j s' ∧ s'.phase = s.phase := by
  rcases hphase with hphase | hphase
  · simp only [Inv, hphase] at h
    obtain ⟨hsampling, m, log, hmap⟩ := h
    obtain ⟨s'', hsome, hsame, hmap'⟩ := hmap.mapStep_spec law hroom hrow (isDone_of_mapStep hstep)
    obtain rfl := some.inj (hsome.symm.trans hstep)
    simp only [Inv, hsame, hphase]
    exact ⟨⟨hsampling, hmap'⟩, trivial⟩
  · simp only [Inv, hphase] at h
    obtain ⟨m, log, hmap⟩ := h
    obtain ⟨s'', hsome, hsame, hmap'⟩ := hmap.mapStep_spec law hroom hrow (isDone_of_mapStep hstep)
    obtain rfl := some.inj (hsome.symm.trans hstep)
    simp only [Inv, hsame, hphase]
    exact ⟨hmap', trivial⟩

variable (hshort : ∀ k, (valuesOf j.emitted k).length < 2 ^ 31)

include hshort

theorem work (h : Inv Stores j s)
    (hstep : step mgr j s (.work row) = some s') : Inv Stores j s' := by
  simp only [step] at hstep
  split_ifs at hstep with hrow
  cases hphase : s.phase with
  | sample =>
    simp only [hphase] at hstep
    exact (h.mapStep law hroom (.inl hphase) hrow hstep).1
  | map =>
    simp only [hphase] at hstep
    exact (h.mapStep law hroom (.inr hphase) hrow hstep).1
  | reduce =>
    simp only [Inv, hphase] at h hstep
    obtain ⟨m, vals, hred⟩ := h
    obtain ⟨s'', hsome, hsame, m', hred'⟩ := hred.reduceStep_spec law hroom hshort (isDone_of_reduceStep hstep)
    obtain rfl := some.inj (hsome.symm.trans hstep)
    simp only [Inv, hsame, hphase]
    exact ⟨m', vals, hred'⟩
  | finished => simp [hphase] at hstep

theorem enabled (h : Inv Stores j s) (hphase : s.phase ≠ .finished) :
    ∃ a s', step mgr j s a = some s' := by
  by_cases hdone : ∀ row < j.rows, (s.worker row).isDone = true
  · refine ⟨.advance, ?_⟩
    simp only [step, State.advance, if_pos hdone]
    cases hp : s.phase with
    | finished => exact absurd hp hphase
    | _ => exact ⟨_, rfl⟩
  · simp only [not_forall, Bool.not_eq_true] at hdone
    obtain ⟨row, hrow, hbusy⟩ := hdone
    refine ⟨.work row, ?_⟩
    simp only [step, if_pos hrow]
    cases hp : s.phase with
    | finished => exact absurd hp hphase
    | sample =>
      simp only [Inv, hp] at h
      obtain ⟨-, m, log, hmap⟩ := h
      obtain ⟨s', hsome, -⟩ := hmap.mapStep_spec law hroom hrow hbusy
      exact ⟨s', hsome⟩
    | map =>
      simp only [Inv, hp] at h
      obtain ⟨m, log, hmap⟩ := h
      obtain ⟨s', hsome, -⟩ := hmap.mapStep_spec law hroom hrow hbusy
      exact ⟨s', hsome⟩
    | reduce =>
      simp only [Inv, hp] at h
      obtain ⟨m, vals, hred⟩ := h
      obtain ⟨s', hsome, -⟩ := hred.reduceStep_spec law hroom hshort hbusy
      exact ⟨s', hsome⟩

theorem of_reachable (h : Reachable (system mgr j) (fun _ _ => True) s) :
    Inv Stores j s := by
  refine h.invariant (I := Inv Stores j) (fun s₀ hs₀ => ?_) fun s₁ a s₂ _ hinv _ hstep => ?_
  · rw [show s₀ = Pipeline.start mgr j from hs₀]
    exact start law
  · cases a with
    | work row => exact hinv.work law hroom hshort hstep
    | advance => exact hinv.advance law hstep

end

end Inv

def twoWorkers : Params ℕ ℕ ℕ where
  rows := 2
  rows_pos := by decide
  sampling := some (1, 3)
  sampleCols_pos x hx := by
    obtain rfl := Option.some.inj hx
    decide
  cols := 2
  cols_pos := by decide
  splits := [5, 6, 7]
  splits_lt := by decide
  mapFunc split := [(1, split), (split, 0)]
  partFunc k := k
  atype := .mapreduce
  reduces := by decide

/-- One split with `n` values of one key. -/
def manyValues (n : ℕ) : Params Unit ℕ ℕ where
  rows := 1
  rows_pos := by decide
  sampling := none
  sampleCols_pos _ hx := by cases hx
  cols := 1
  cols_pos := by decide
  splits := [()]
  splits_lt := by decide
  mapFunc _ := replicate n (0, 0)
  partFunc _ := 0
  atype := .mapreduce
  reduces := by decide

theorem valuesOf_manyValues (n k : ℕ) :
    valuesOf (manyValues n).emitted k = if 0 = k then replicate n 0 else [] := by
  rw [Params.emitted, manyValues, flatMap_singleton, valuesOf, filter_replicate]
  split_ifs <;> simp_all

theorem reduceStep_manyValues {s : State Unit ℕ ℕ (btreebktmgr difference.cmp).Bucket} (hlong : 2 ^ 31 ≤ n) (hpos : s.taskPos = 0)
    (h : Reducing (Keeps BTree.Represents (manyValues n).partFunc) (manyValues n) s m vals) :
    s.reduceStep (manyValues n) row = none := by
  have hfails := btreebktmgr_fails .difference .mapreduce 0 (k := 0)
    (fun row => share (manyValues n).partFunc 1 0 (vals row)) h.mapper
    (fun r hr => h.columns 0 hpos.le Nat.one_pos r (h.mapRows ▸ hr))
    (fun r hr k hk => by
      by_contra hne
      have hall := h.all k
      rw [valuesOf_manyValues, if_neg (Ne.symm hne), perm_nil, flatMap_eq_nil_iff] at hall
      refine hk ?_
      rw [share, hall r (mem_range.mpr (h.mapRows ▸ hr)), ite_self])
    (by
      have hall := (h.all 0).length_eq
      rw [valuesOf_manyValues, if_pos rfl, length_replicate, ← h.mapRows] at hall
      simp only [share, manyValues, if_true, Nat.mod_one]
      rwa [hall])
  rw [State.reduceStep, hpos]
  split_ifs with hdone hlt
  · rfl
  · exact congrArg (Option.map _) hfails
  · exact absurd Nat.one_pos hlt

theorem manyValues_stuck {s : State Unit ℕ ℕ (btreebktmgr difference.cmp).Bucket}
    (hlen : n ≤ 2 ^ 31) (hlong : 2 ^ 31 ≤ n)
    (h : Reachable (system (btreebktmgr difference.cmp) (manyValues n)) (fun _ _ => True) s) :
    s.phase ≠ .finished := by
  have law := btreebktmgr_lawful (V := ℕ) difference (manyValues n).partFunc
  have hroom : Roomy false (valuesOf (manyValues n).emitted) := by
    refine ⟨fun k => ?_, by simp⟩
    rw [valuesOf_manyValues]
    split_ifs
    · rwa [length_replicate]
    · exact Nat.zero_le _
  refine (h.invariant (I := fun s => Inv (Keeps BTree.Represents (manyValues n).partFunc) (manyValues n) s ∧
    (s.phase = .reduce → s.taskPos = 0) ∧ s.phase ≠ .finished) (fun s₀ hs₀ => ?_)
    fun s₁ a s₂ _ ⟨hinv, hpos, hphase⟩ _ hstep => ?_).2.2
  · rw [show s₀ = start _ _ from hs₀]
    exact ⟨Inv.start law, by simp [start, manyValues], by simp [start, manyValues]⟩
  · cases a with
    | work row =>
      simp only [system, step] at hstep
      split_ifs at hstep with hrow
      cases hp : s₁.phase with
      | sample | map =>
        simp only [hp] at hstep
        obtain ⟨hinv', hsame⟩ := hinv.mapStep law hroom (by simp [hp]) hrow hstep
        rw [hsame, hp]
        exact ⟨hinv', by simp, by simp⟩
      | reduce =>
        simp only [hp] at hstep
        simp only [Inv, hp] at hinv
        obtain ⟨m, vals, hred⟩ := hinv
        rw [reduceStep_manyValues hlong (hpos hp) hred] at hstep
        cases hstep
      | finished => exact absurd hp hphase
    | advance =>
      have hinv' := hinv.advance law hstep
      change State.advance _ _ = _ at hstep
      rw [State.advance] at hstep
      split_ifs at hstep with hdone
      cases hp : s₁.phase with
      | sample =>
        simp only [hp, some.injEq] at hstep
        subst hstep
        exact ⟨hinv', by simp, by simp⟩
      | map =>
        simp only [hp, some.injEq] at hstep
        subst hstep
        simp only [Inv, hp] at hinv
        obtain ⟨m, log, hmap⟩ := hinv
        exact ⟨hinv', fun _ => hmap.taskPos, by simp⟩
      | reduce =>
        simp only [Inv, hp] at hinv
        obtain ⟨m, vals, hred⟩ := hinv
        have hend := hred.exhausted 0 (hdone 0 Nat.one_pos)
        rw [hpos hp] at hend
        cases hend
      | finished => exact absurd hp hphase

end

end Mosbench.Metis.Pipeline
