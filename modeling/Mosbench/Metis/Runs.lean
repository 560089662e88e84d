import Mosbench.Lib.Transition
import Mosbench.Metis.Buckets
import Mosbench.Metis.Estimation
import Mosbench.Metis.ParallelSort

/-!
mr_run_scheduler in mr-sched.c as it is configured by default, called again and again in one
process. The variables that live as long as the process (kvstore.c, estimation.c, the bucket
managers, rbktsmgr.c and the thread pool) make up the store. A run takes it as the runs before
have left it.

The workers take splits, emit pairs and take reduce tasks in any order. A worker that meets a
failed assertion, or that reads outside of its memory, takes the whole process down.
-/
namespace Mosbench.Metis.Runs

open Option Transition

structure Params (S K V R : Type) where
  nrCpus : ℕ
  nrCpus_pos : 0 < nrCpus
  splits : List S
  /-- presplitter_init asserts it. -/
  splits_ne : splits ≠ []
  mapFunc : S → List (K × V)
  partFunc : K → ℕ
  keyCmp : K → K → ℤ
  atype : AppType
  /-- `reduce_tasks` or `group_tasks`; none are fixed if it is 0. -/
  tasks : ℕ
  reduce : K → List V → List R
  outCmp : Comparator R
  qsort : QSort outCmp

structure Store (K V R : Type) where
  hasBackup : Bool
  bsampling : Bool
  nkeysPerMapper : ℕ
  npairsPerMapper : ℕ
  mstate : ℕ → MState
  btree : Mgr (BTree.Tree K V)
  append : Mgr (KvArr K V)
  mapOut : ℕ → KvArr K V
  rbkts : ℕ → List R
  nbkts : ℕ
  /-- The number of threads, if mthread_init has been called. -/
  pool : Option ℕ

def Store.fresh : Store K V R :=
  ⟨false, false, 0, 0, fun _ => {}, .start, .start, fun _ => .init, fun _ => [], 0, none⟩

def Store.finalize (st : Store K V R) : Store K V R := { st with rbkts := fun _ => [], pool := none }

def defGrTasksPerCpu : ℕ := 16

def defSampleReduceTasks : ℕ := 10000

def samplePercent : ℕ := 5

namespace Params

variable (p : Params S K V R)

def Samples : Prop := p.atype ≠ .maponly ∧ p.tasks = 0

instance : Decidable p.Samples := inferInstanceAs (Decidable (_ ∧ _))

def nsampled : ℕ :=
  let n := samplePercent * p.splits.length / 100
  let n := if n < p.nrCpus then min p.nrCpus p.splits.length else n
  if n = 0 then 1 else n

def kvs (split : S) : List (KeyVal K V) := (p.mapFunc split).map fun x => ⟨x.1, x.2, p.partFunc x.1⟩

def emitted : List (KeyVal K V) := p.splits.flatMap p.kvs

end Params

section

variable (p : Params S K V R) (st : Store K V R)

def mapWorkerInit (row : ℕ) : Option (Store K V R) :=
  if st.hasBackup then
    if p.atype = .maponly then none
    else ((btreebktmgr p.keyCmp).rehashBak st.btree row).map fun t => { st with btree := t }
  else some st

def insert (row : ℕ) (kv : KeyVal K V) : Option (Store K V R × Bool) :=
  if p.atype = .maponly then
    (st.append.withMapper fun m => appendAt m row kv).map fun x => ({ st with append := x.1 }, x.2)
  else ((btreebktmgr p.keyCmp).mapPut st.btree row kv).map fun x => ({ st with btree := x.1 }, x.2)

/-- `kvst_map_put`. The pair is also reported to the estimation. -/
def mapPut (row : ℕ) (kv : KeyVal K V) : Option (Store K V R) :=
  (insert p st row kv).map fun x =>
    { x.1 with mstate := Function.update x.1.mstate row ((x.1.mstate row).newPair x.2) }

def mapTaskFinished (row : ℕ) : Store K V R :=
  if st.bsampling then { st with mstate := Function.update st.mstate row (st.mstate row).taskFinished } else st

/-- mbm_map_prepare_merge of appendbktmgr.c: the bucket is handed over to map_out. -/
def mapPrepareMerge (row : ℕ) : Option (Store K V R) :=
  st.append.mapper.bind fun m =>
  if m.mapCols = 1 then
    (m.bucket row 0).map fun b =>
      { st with
        append := { st.append with mapper := some (m.setBucket row 0 .init) }
        mapOut := Function.update st.mapOut row b }
  else none

/-- `kvst_map_worker_finished`. The reduce phase is skipped by map-only applications. -/
def mapWorkerFinished (row : ℕ) : Option (Store K V R) :=
  if p.atype = .maponly then if st.bsampling then none else mapPrepareMerge st row else some st

def sampleInit : Store K V R :=
  { st with
    hasBackup := false
    btree := st.btree.mbksInit (btreebktmgr p.keyCmp).init p.nrCpus defSampleReduceTasks
    mstate := fun _ => {}
    bsampling := true }

def validRows : List ℕ := (List.range p.nrCpus).filter fun row => (st.mstate row).nsampled ≠ 0

/-- The mean of what the workers estimate, to which `old` is added first. -/
def meanEstimate (old : ℕ) (which : ℕ × ℕ → ℕ) : ℕ :=
  (old + ((validRows p st).map fun row => which ((st.mstate row).estimate p.splits.length)).sum) /
    (validRows p st).length

/-- `kvst_sample_finished`: the number of reduce tasks. It divides by the number of workers that have
finished a split. -/
def sampleFinished : Option (Store K V R × ℕ) :=
  if validRows p st = [] then none
  else
    let nkeys := meanEstimate p st st.nkeysPerMapper Prod.fst
    some ({ st with
      nkeysPerMapper := nkeys
      npairsPerMapper := meanEstimate p st st.npairsPerMapper Prod.snd
      btree := st.btree.mbksBak
      hasBackup := true
      bsampling := false }, estimatedTasks nkeys)

def kvstInit (cols nsplits : ℕ) : Store K V R :=
  { (if p.atype = .maponly then
      { st with append := st.append.mbksInit .init p.nrCpus cols, mapOut := fun _ => .init }
    else { st with btree := st.btree.mbksInit (btreebktmgr p.keyCmp).init p.nrCpus cols }) with
    rbkts := fun _ => []
    nbkts := nsplits }

def reduceDoTask (col : ℕ) : Option (Store K V R × List (K × List V)) :=
  ((btreebktmgr p.keyCmp).doReduceTask p.atype st.btree col).map fun x =>
    ({ st with
      btree := x.1
      rbkts := Function.update st.rbkts col (st.rbkts col ++ x.2.flatMap fun call => p.reduce call.1 call.2) }, x.2)

/-- `kvst_merge` on all CPUs. The reduce buckets are merged also for map-only applications; the first
one is the final result. -/
def merge : Option (Store K V R × List R) :=
  (Psrs.psrs Psrs.pairSize p.qsort p.nrCpus ((List.range st.nbkts).map st.rbkts)).bind fun colls =>
  colls.head?.map fun out => ({ st with rbkts := fun i => colls.getD i [] }, out)

end

inductive Phase
  | sample
  | map
  | reduce
  | merge
  | finished
  | crashed
deriving DecidableEq

inductive Worker (K V : Type)
  | begin
  | idle
  | busy (pending : List (KeyVal K V))
  | done

def Worker.isDone : Worker K V → Bool
  | .done => true
  | _ => false

structure State (S K V R : Type) where
  store : Store K V R
  phase : Phase
  splits : List S
  rest : List S
  worker : ℕ → Worker K V
  tasks : ℕ
  taskPos : ℕ
  calls : List (K × List V)
  results : List R

inductive Action
  | work (row : ℕ)
  | advance
deriving DecidableEq

namespace State

def attempt {A : Type} (s : State S K V R) (r : Option A) (f : A → State S K V R) : State S K V R :=
  match r with
  | none => { s with phase := .crashed }
  | some x => f x

def setWorker (s : State S K V R) (row : ℕ) (w : Worker K V) (st : Store K V R) : State S K V R :=
  { s with store := st, worker := Function.update s.worker row w }

end State

section Steps

variable (p : Params S K V R)

/-- The state behind mr_setup, up to the first phase that is run by workers. -/
def start (st : Store K V R) : State S K V R :=
  let st := { st with pool := some (st.pool.getD p.nrCpus) }
  if p.atype = .maponly then
    ⟨kvstInit p st 1 p.nrCpus, .map, p.splits, [], fun _ => .begin, 0, 0, [], []⟩
  else if p.tasks = 0 then
    ⟨sampleInit p st, .sample, p.splits.take p.nsampled, p.splits.drop p.nsampled, fun _ => .begin,
      defSampleReduceTasks, 0, [], []⟩
  else ⟨kvstInit p st p.tasks p.tasks, .map, p.splits, [], fun _ => .begin, p.tasks, 0, [], []⟩

/-- The worker of a row runs: the row has a thread, and the main thread, which works on row 0, has
found one for every other row. -/
def hasThread (st : Store K V R) (row : ℕ) : Bool :=
  st.pool.any fun n => if row = 0 then decide (p.nrCpus ≤ n) else decide (row < n)

variable (s : State S K V R)

def mapStep (row : ℕ) : Option (State S K V R) :=
  match s.worker row with
  | .begin => some (s.attempt (mapWorkerInit p s.store row) (s.setWorker row .idle))
  | .idle =>
    match s.splits with
    | [] => some (s.attempt (mapWorkerFinished p s.store row) (s.setWorker row .done))
    | split :: splits => some { s.setWorker row (.busy (p.kvs split)) s.store with splits := splits }
  | .busy [] => some (s.setWorker row .idle (mapTaskFinished s.store row))
  | .busy (kv :: kvs) => some (s.attempt (mapPut p s.store row kv) (s.setWorker row (.busy kvs)))
  | .done => none

def reduceStep (row : ℕ) : Option (State S K V R) :=
  if (s.worker row).isDone then none
  else if s.taskPos < s.tasks then
    some (s.attempt (reduceDoTask p s.store s.taskPos) fun x =>
      { s with store := x.1, taskPos := s.taskPos + 1, calls := s.calls ++ x.2 })
  else some (s.setWorker row .done s.store)

def advanceTo : Option (State S K V R) :=
  match s.phase with
  | .sample =>
    some (s.attempt (sampleFinished p s.store) fun x =>
      let tasks := max x.2 (p.nrCpus * defGrTasksPerCpu)
      { s with
        store := kvstInit p x.1 tasks tasks, phase := .map, splits := s.rest, rest := []
        worker := fun _ => .begin, tasks := tasks })
  | .map => some { s with phase := if p.atype = .maponly then .merge else .reduce, worker := fun _ => .begin }
  | .reduce => some { s with phase := .merge }
  | _ => none

def step : Action → Option (State S K V R)
  | .work row =>
    if row < p.nrCpus ∧ hasThread p s.store row = true then
      match s.phase with
      | .sample | .map => mapStep p s row
      | .reduce => reduceStep p s row
      | _ => none
    else none
  | .advance =>
    if s.phase = .merge then
      if hasThread p s.store 0 then
        some (s.attempt (merge p s.store) fun x => { s with store := x.1, phase := .finished, results := x.2 })
      else none
    else if ∀ row < p.nrCpus, (s.worker row).isDone = true then advanceTo p s
    else none

end Steps

def system (p : Params S K V R) (st : Store K V R) : System (State S K V R) Action where
  initial s := s = start p st
  step := step p

/-- The store that is left by some runs, one after the other; mr_finalize may be called after any of
them. -/
inductive History : List (Params S K V R) → Store K V R → Prop
  | nil : History [] .fresh
  | run {ps : List (Params S K V R)} {st : Store K V R} {p : Params S K V R} {s : State S K V R} :
    History ps st → Reachable (system p st) (fun _ _ => True) s → s.phase = .finished → History (ps ++ [p]) s.store
  | finalize {ps : List (Params S K V R)} {st : Store K V R} : History ps st → History ps st.finalize

def State.outcome (s : State S K V R) : Phase × ℕ × List (K × List V) × List R :=
  (s.phase, s.tasks, s.calls, s.results)

section

def Serves (p : Params S K V R) (st : Store K V R) : Prop := ∃ n, st.pool = some n ∧ p.nrCpus ≤ n

/-- The stores agree on what a run still uses. The estimation is used only by sampling, which does not
use the reduce buckets, and there is a bucket manager for map-only applications and one for the others. -/
structure Agree (p : Params S K V R) (phase : Phase) (st st' : Store K V R) : Prop where
  hasBackup : st.hasBackup = st'.hasBackup
  bsampling : st.bsampling = st'.bsampling
  nkeys : st.nkeysPerMapper = st'.nkeysPerMapper
  npairs : st.npairsPerMapper = st'.npairsPerMapper
  mstate : phase = .sample → st.mstate = st'.mstate
  btree : p.atype ≠ .maponly → st.btree = st'.btree
  append : p.atype = .maponly → st.append = st'.append
  rbkts : phase ≠ .sample → phase ≠ .crashed → st.rbkts = st'.rbkts ∧ st.nbkts = st'.nbkts
  serves : Serves p st
  serves' : Serves p st'

/-- Two runs that differ at most in what they do not use. -/
def SameRun (p : Params S K V R) (s t : State S K V R) : Prop :=
  (∃ st, t = { s with store := st } ∧ Agree p s.phase s.store st) ∧
    (s.phase = .sample ∨ s.phase = .reduce → p.atype ≠ .maponly)

variable {st' : Store K V R}

theorem hasThread_of_serves (h : Serves p st) (hrow : row < p.nrCpus) : hasThread p st row = true := by
  obtain ⟨n, hn, hle⟩ := h
  rw [hasThread, hn, any_some]
  split_ifs with hzero
  · exact decide_eq_true hle
  · exact decide_eq_true (by omega)

namespace Agree

theorem mapWorkerInit (h : Agree p phase st st') :
    Option.Rel (Agree p phase) (mapWorkerInit p st row) (mapWorkerInit p st' row) := by
  unfold Runs.mapWorkerInit
  by_cases hbak : st.hasBackup = true
  · have hbak' : st'.hasBackup = true := h.hasBackup ▸ hbak
    rw [if_pos hbak, if_pos hbak']
    split_ifs with honly
    · exact .none
    · rw [h.btree honly]
      cases (btreebktmgr p.keyCmp).rehashBak st'.btree row with
      | none => exact .none
      | some t => exact .some { h with btree := fun _ => rfl, append := fun ho => absurd ho honly }
  · rw [if_neg hbak, if_neg (h.hasBackup ▸ hbak)]
    exact .some h

theorem insert (h : Agree p phase st st') (row : ℕ) (kv : KeyVal K V) :
    Option.Rel (fun x y => Agree p phase x.1 y.1 ∧ x.2 = y.2) (insert p st row kv) (insert p st' row kv) := by
  unfold Runs.insert
  split_ifs with honly
  · rw [h.append honly]
    cases st'.append.withMapper fun m => appendAt m row kv with
    | none => exact .none
    | some x => exact .some ⟨{ h with append := fun _ => rfl, btree := fun hne => absurd honly hne }, rfl⟩
  · rw [h.btree honly]
    cases (btreebktmgr p.keyCmp).mapPut st'.btree row kv with
    | none => exact .none
    | some x => exact .some ⟨{ h with btree := fun _ => rfl, append := fun ho => absurd ho honly }, rfl⟩

theorem mapPut (h : Agree p phase st st') (kv : KeyVal K V) :
    Option.Rel (Agree p phase) (mapPut p st row kv) (mapPut p st' row kv) := by
  have hrel := h.insert row kv
  unfold Runs.mapPut
  cases hx : Runs.insert p st row kv with
  | none =>
    rw [hx] at hrel
    generalize Runs.insert p st' row kv = y at hrel
    cases hrel
    exact .none
  | some x =>
    rw [hx] at hrel
    generalize Runs.insert p st' row kv = y at hrel
    cases hrel with
    | some hxy =>
      obtain ⟨hagree, hnew⟩ := hxy
      exact .some { hagree with mstate := fun hs => by simp only [hagree.mstate hs, hnew] }

theorem mapTaskFinished (h : Agree p phase st st') :
    Agree p phase (mapTaskFinished st row) (mapTaskFinished st' row) := by
  unfold Runs.mapTaskFinished
  by_cases hs : st.bsampling = true
  · rw [if_pos hs, if_pos (h.bsampling ▸ hs)]
    exact { h with mstate := fun hp => by simp only [h.mstate hp] }
  · rw [if_neg hs, if_neg (h.bsampling ▸ hs)]
    exact h

theorem mapPrepareMerge (h : Agree p phase st st') (honly : p.atype = .maponly) :
    Option.Rel (Agree p phase) (mapPrepareMerge st row) (mapPrepareMerge st' row) := by
  unfold Runs.mapPrepareMerge
  rw [h.append honly]
  cases st'.append.mapper with
  | none => exact .none
  | some m =>
    simp only [bind_some]
    split_ifs with hcols
    · cases m.bucket row 0 with
      | none => exact .none
      | some b => exact .some { h with append := fun _ => rfl, btree := fun hne => absurd honly hne }
    · exact .none

theorem mapWorkerFinished (h : Agree p phase st st') :
    Option.Rel (Agree p phase) (mapWorkerFinished p st row) (mapWorkerFinished p st' row) := by
  unfold Runs.mapWorkerFinished
  by_cases honly : p.atype = .maponly
  · rw [if_pos honly, if_pos honly]
    by_cases hs : st.bsampling = true
    · rw [if_pos hs, if_pos (h.bsampling ▸ hs)]
      exact .none
    · rw [if_neg hs, if_neg (h.bsampling ▸ hs)]
      exact h.mapPrepareMerge honly
  · rw [if_neg honly, if_neg honly]
    exact .some h

theorem kvstInit (h : Agree p phase st st') (phase' : Phase) (hphase : phase' ≠ .sample) (cols nsplits : ℕ) :
    Agree p phase' (kvstInit p st cols nsplits) (kvstInit p st' cols nsplits) := by
  unfold Runs.kvstInit
  split_ifs with honly
  · exact { h with
      mstate := fun hs => absurd hs hphase
      btree := fun hne => absurd honly hne
      append := fun _ => by simp only [h.append honly]
      rbkts := fun _ _ => ⟨rfl, rfl⟩ }
  · exact { h with
      mstate := fun hs => absurd hs hphase
      btree := fun _ => by simp only [h.btree honly]
      append := fun ho => absurd ho honly
      rbkts := fun _ _ => ⟨rfl, rfl⟩ }

theorem sampleFinished (h : Agree p .sample st st') (hmaps : p.atype ≠ .maponly) :
    Option.Rel (fun x y => Agree p .sample x.1 y.1 ∧ x.2 = y.2) (sampleFinished p st) (sampleFinished p st') := by
  have hvalid : validRows p st = validRows p st' := by rw [validRows, validRows, h.mstate rfl]
  have hmean : ∀ old which, meanEstimate p st old which = meanEstimate p st' old which := by
    intro old which
    rw [meanEstimate, meanEstimate, hvalid, h.mstate rfl]
  unfold Runs.sampleFinished
  rw [hvalid]
  split_ifs with hnone
  · exact .none
  · refine .some ⟨{ h with
      nkeys := ?_
      npairs := ?_
      hasBackup := rfl
      bsampling := rfl
      btree := fun _ => by simp only [h.btree hmaps]
      append := fun ho => absurd ho hmaps }, ?_⟩
    · simp only [hmean, h.nkeys]
    · simp only [hmean, h.npairs]
    · simp only [hmean, h.nkeys]

theorem reduceDoTask (h : Agree p .reduce st st') (hmaps : p.atype ≠ .maponly) (col : ℕ) :
    Option.Rel (fun x y => Agree p .reduce x.1 y.1 ∧ x.2 = y.2) (reduceDoTask p st col) (reduceDoTask p st' col) := by
  obtain ⟨hrbkts, hnbkts⟩ := h.rbkts (by decide) (by decide)
  unfold Runs.reduceDoTask
  rw [h.btree hmaps]
  cases (btreebktmgr p.keyCmp).doReduceTask p.atype st'.btree col with
  | none => exact .none
  | some x =>
    exact .some ⟨{ h with
      btree := fun _ => rfl
      append := fun ho => absurd ho hmaps
      rbkts := fun _ _ => ⟨by simp only [hrbkts], hnbkts⟩ }, rfl⟩

theorem merge (h : Agree p .merge st st') :
    Option.Rel (fun x y => Agree p .finished x.1 y.1 ∧ x.2 = y.2) (merge p st) (merge p st') := by
  obtain ⟨hrbkts, hnbkts⟩ := h.rbkts (by decide) (by decide)
  unfold Runs.merge
  rw [hrbkts, hnbkts]
  cases Psrs.psrs Psrs.pairSize p.qsort p.nrCpus ((List.range st'.nbkts).map st'.rbkts) with
  | none => exact .none
  | some colls =>
    cases colls with
    | nil => exact .none
    | cons out rest =>
      exact .some ⟨{ h with
        mstate := fun hs => nomatch hs
        rbkts := fun _ _ => ⟨rfl, rfl⟩ }, rfl⟩

end Agree

namespace SameRun

theorem attempt {Q : A → A → Prop} {r r' : Option A} {f g : A → State S K V R} (h : SameRun p s t)
    (hr : Option.Rel Q r r') (hf : ∀ x y, Q x y → SameRun p (f x) (g y)) :
    SameRun p (s.attempt r f) (t.attempt r' g) := by
  cases hr with
  | some hxy => exact hf _ _ hxy
  | none =>
    obtain ⟨⟨st, rfl, hagree⟩, -⟩ := h
    refine ⟨⟨st, rfl, ?_⟩, by simp [State.attempt]⟩
    exact { hagree with mstate := fun hs => (nomatch hs), rbkts := fun _ hne => absurd rfl hne }

theorem mapStep (h : SameRun p s t) : Option.Rel (SameRun p) (mapStep p s row) (mapStep p t row) := by
  have h' := h
  obtain ⟨⟨st, rfl, hagree⟩, hmaps⟩ := h
  obtain ⟨store, phase, splits, rest, worker, tasks, taskPos, calls, results⟩ := s
  unfold Runs.mapStep
  dsimp only at hagree ⊢
  cases worker row with
  | begin => exact .some (h'.attempt hagree.mapWorkerInit fun x y hxy => ⟨⟨y, rfl, hxy⟩, hmaps⟩)
  | idle =>
    cases splits with
    | nil => exact .some (h'.attempt hagree.mapWorkerFinished fun x y hxy => ⟨⟨y, rfl, hxy⟩, hmaps⟩)
    | cons split splits => exact .some ⟨⟨st, rfl, hagree⟩, hmaps⟩
  | busy pending =>
    cases pending with
    | nil => exact .some ⟨⟨_, rfl, hagree.mapTaskFinished⟩, hmaps⟩
    | cons kv kvs => exact .some (h'.attempt (hagree.mapPut kv) fun x y hxy => ⟨⟨y, rfl, hxy⟩, hmaps⟩)
  | done => exact .none

theorem reduceStep (h : SameRun p s t) (hphase : s.phase = .reduce) :
    Option.Rel (SameRun p) (reduceStep p s row) (reduceStep p t row) := by
  have h' := h
  obtain ⟨⟨st, rfl, hagree⟩, hmaps⟩ := h
  unfold Runs.reduceStep
  dsimp only
  split_ifs with hdone hpos
  · exact .none
  · rw [hphase] at hagree
    refine .some (h'.attempt (hagree.reduceDoTask (hmaps (.inr hphase)) s.taskPos) fun x y hxy => ?_)
    obtain ⟨hstore, hcalls⟩ := hxy
    refine ⟨⟨y.1, by rw [hcalls], ?_⟩, hmaps⟩
    rw [hphase]
    exact hstore
  · exact .some ⟨⟨st, rfl, hagree⟩, hmaps⟩

theorem advanceTo (h : SameRun p s t) : Option.Rel (SameRun p) (advanceTo p s) (advanceTo p t) := by
  have h' := h
  obtain ⟨⟨st, rfl, hagree⟩, hmaps⟩ := h
  obtain ⟨store, phase, splits, rest, worker, tasks, taskPos, calls, results⟩ := s
  unfold Runs.advanceTo
  dsimp only at hagree ⊢
  cases phase with
  | sample =>
    refine .some (h'.attempt (hagree.sampleFinished (hmaps (.inl rfl))) fun x y hxy => ?_)
    obtain ⟨hstore, htasks⟩ := hxy
    exact ⟨⟨_, by rw [htasks], hstore.kvstInit .map (by decide) _ _⟩, by simp⟩
  | map =>
    have hrbkts := hagree.rbkts (by decide) (by decide)
    refine .some ⟨⟨st, rfl, ?_⟩, fun hp honly => by simp [honly] at hp⟩
    split_ifs
    · exact { hagree with mstate := fun hs => (nomatch hs), rbkts := fun _ _ => hrbkts }
    · exact { hagree with mstate := fun hs => (nomatch hs), rbkts := fun _ _ => hrbkts }
  | reduce =>
    have hrbkts := hagree.rbkts (by decide) (by decide)
    exact .some ⟨⟨st, rfl, { hagree with mstate := fun hs => (nomatch hs), rbkts := fun _ _ => hrbkts }⟩, by simp⟩
  | merge | finished | crashed => exact .none

theorem step (h : SameRun p s t) (a : Action) : Option.Rel (SameRun p) (step p s a) (step p t a) := by
  have h' := h
  obtain ⟨⟨st, rfl, hagree⟩, hmaps⟩ := h
  obtain ⟨store, phase, splits, rest, worker, tasks, taskPos, calls, results⟩ := s
  dsimp only at hagree
  cases a with
  | work row =>
    simp only [Runs.step]
    by_cases hrow : row < p.nrCpus
    · rw [if_pos ⟨hrow, hasThread_of_serves hagree.serves hrow⟩, if_pos ⟨hrow, hasThread_of_serves hagree.serves' hrow⟩]
      cases phase with
      | sample | map => exact h'.mapStep
      | reduce => exact h'.reduceStep rfl
      | merge | finished | crashed => exact .none
    · rw [if_neg fun hand => hrow hand.1, if_neg fun hand => hrow hand.1]
      exact .none
  | advance =>
    simp only [Runs.step]
    by_cases hphase : phase = .merge
    · subst hphase
      rw [if_pos rfl, if_pos rfl, if_pos (hasThread_of_serves hagree.serves p.nrCpus_pos),
        if_pos (hasThread_of_serves hagree.serves' p.nrCpus_pos)]
      refine .some (h'.attempt hagree.merge fun x y hxy => ?_)
      obtain ⟨hstore, hresults⟩ := hxy
      exact ⟨⟨y.1, by rw [hresults], hstore⟩, by simp⟩
    · rw [if_neg hphase, if_neg hphase]
      split_ifs with hdone
      · exact h'.advanceTo
      · exact .none

end SameRun

end

section Clean

variable {p : Params S K V R} {st : Store K V R}

structure Clean (st : Store K V R) : Prop where
  hasBackup : st.hasBackup = false
  bsampling : st.bsampling = false
  nkeys : st.nkeysPerMapper = 0
  npairs : st.npairsPerMapper = 0
  btree : st.btree.mapperBak = none
  append : st.append.mapperBak = none

theorem mapperBak_withMapper {m m' : Mgr C} {f : Mapper C → Option (Mapper C × B)} {x : B}
    (h : m.withMapper f = some (m', x)) : m'.mapperBak = m.mapperBak := by
  obtain ⟨mapper, -, hf⟩ := bind_eq_some_iff.mp h
  obtain ⟨y, -, hy⟩ := map_eq_some_iff.mp hf
  obtain ⟨rfl, -⟩ := Prod.mk.inj hy
  rfl

namespace Clean

theorem fresh : Clean (.fresh : Store K V R) := ⟨rfl, rfl, rfl, rfl, rfl, rfl⟩

section

variable (h : Clean st)

include h

theorem insert (hx : insert p st row kv = some x) : Clean x.1 := by
  unfold Runs.insert at hx
  split_ifs at hx
  · obtain ⟨y, hy, rfl⟩ := map_eq_some_iff.mp hx
    exact { h with append := (mapperBak_withMapper hy).trans h.append }
  · obtain ⟨y, hy, rfl⟩ := map_eq_some_iff.mp hx
    exact { h with btree := (mapperBak_withMapper hy).trans h.btree }

theorem mapWorkerInit : mapWorkerInit p st row = some st := by
  rw [Runs.mapWorkerInit, h.hasBackup]
  rfl

theorem mapPut (hput : mapPut p st row kv = some st') : Clean st' := by
  obtain ⟨x, hx, rfl⟩ := map_eq_some_iff.mp hput
  exact { h.insert hx with }

theorem mapTaskFinished : mapTaskFinished st row = st := by
  rw [Runs.mapTaskFinished, h.bsampling]
  rfl

theorem mapWorkerFinished (hfin : mapWorkerFinished p st row = some st') : Clean st' := by
  unfold Runs.mapWorkerFinished at hfin
  split_ifs at hfin
  · obtain ⟨m, -, hm⟩ := bind_eq_some_iff.mp hfin
    split_ifs at hm
    obtain ⟨b, -, rfl⟩ := map_eq_some_iff.mp hm
    exact { h with append := h.append }
  · exact some.inj hfin ▸ h

theorem reduceDoTask
    (hx : reduceDoTask p st col = some x) : Clean x.1 := by
  obtain ⟨y, hy, rfl⟩ := map_eq_some_iff.mp hx
  exact { h with btree := (mapperBak_withMapper hy).trans h.btree }

theorem merge (hx : merge p st = some x) : Clean x.1 := by
  obtain ⟨colls, -, hcolls⟩ := bind_eq_some_iff.mp hx
  obtain ⟨out, -, rfl⟩ := map_eq_some_iff.mp hcolls
  exact { h with }

theorem kvstInit (cols nsplits : ℕ) : Clean (kvstInit p st cols nsplits) := by
  unfold Runs.kvstInit
  split_ifs
  · exact { h with }
  · exact { h with }

theorem finalize : Clean st.finalize := { h with }

end

end Clean

def Tidy (s : State S K V R) : Prop := s.phase ≠ .sample ∧ Clean s.store

namespace Tidy

theorem attempt {r : Option A} {f : A → State S K V R} (h : Tidy s) (hf : ∀ x, r = some x → Tidy (f x)) :
    Tidy (s.attempt r f) := by
  cases hr : r with
  | none => exact ⟨nofun, h.2⟩
  | some x => exact hf x hr

theorem mapStep (h : Tidy s) (hstep : mapStep p s row = some t) : Tidy t := by
  unfold Runs.mapStep at hstep
  split at hstep
  · obtain rfl := some.inj hstep
    rw [h.2.mapWorkerInit]
    exact h
  · split at hstep
    · obtain rfl := some.inj hstep
      exact h.attempt fun x hx => ⟨h.1, h.2.mapWorkerFinished hx⟩
    · obtain rfl := some.inj hstep
      exact h
  · obtain rfl := some.inj hstep
    rw [h.2.mapTaskFinished]
    exact h
  · obtain rfl := some.inj hstep
    exact h.attempt fun x hx => ⟨h.1, h.2.mapPut hx⟩
  · cases hstep

theorem reduceStep (h : Tidy s) (hstep : reduceStep p s row = some t) : Tidy t := by
  unfold Runs.reduceStep at hstep
  split_ifs at hstep
  · obtain rfl := some.inj hstep
    exact h.attempt fun x hx => ⟨h.1, h.2.reduceDoTask hx⟩
  · obtain rfl := some.inj hstep
    exact h

theorem advanceTo (h : Tidy s) (hstep : advanceTo p s = some t) : Tidy t := by
  unfold Runs.advanceTo at hstep
  split at hstep
  · next hphase => exact absurd hphase h.1
  · obtain rfl := some.inj hstep
    refine ⟨?_, h.2⟩
    dsimp only
    split_ifs <;> decide
  · obtain rfl := some.inj hstep
    exact ⟨nofun, h.2⟩
  · cases hstep

theorem step (h : Tidy s) (hstep : step p s a = some t) : Tidy t := by
  cases a with
  | work row =>
    simp only [Runs.step] at hstep
    split_ifs at hstep
    split at hstep
    · exact h.mapStep hstep
    · exact h.mapStep hstep
    · exact h.reduceStep hstep
    · cases hstep
  | advance =>
    simp only [Runs.step] at hstep
    split_ifs at hstep
    · obtain rfl := some.inj hstep
      exact h.attempt fun x hx => ⟨nofun, h.2.merge hx⟩
    · exact h.advanceTo hstep

theorem start (h : Clean st) (hp : ¬ p.Samples) : Tidy (start p st) := by
  have hpool : Clean { st with pool := some (st.pool.getD p.nrCpus) } := { h with }
  unfold Runs.start
  dsimp only
  split_ifs with honly htasks
  · exact ⟨nofun, hpool.kvstInit _ _⟩
  · exact absurd ⟨honly, htasks⟩ hp
  · exact ⟨nofun, hpool.kvstInit _ _⟩

end Tidy

theorem History.clean (h : History ps st) (hps : ∀ p ∈ ps, ¬ p.Samples) : Clean st := by
  induction h with
  | nil => exact .fresh
  | @run ps st p s _ hreach _ ih =>
    have hst := ih fun q hq => hps q (List.mem_append_left _ hq)
    have hp := hps p (List.mem_append_right _ (List.mem_singleton_self p))
    refine (hreach.invariant (I := Tidy) (fun s₀ hs₀ => ?_) fun _ _ _ _ hs _ hstep => hs.step hstep).2
    rw [show s₀ = start p st from hs₀]
    exact .start hst hp
  | finalize _ ih => exact (ih hps).finalize

theorem mbksInit_congr {m m' : Mgr C} (h : m.mapperBak = m'.mapperBak) (init : C) (rows cols : ℕ) :
    m.mbksInit init rows cols = m'.mbksInit init rows cols := by
  rw [Mgr.mbksInit, Mgr.mbksInit, h]

theorem Clean.serves (hpool : ∀ n, st.pool = some n → p.nrCpus ≤ n) :
    Serves p { st with pool := some (st.pool.getD p.nrCpus) } := by
  refine ⟨_, rfl, ?_⟩
  cases hn : st.pool with
  | none => exact le_rfl
  | some n => exact hpool n hn

theorem Clean.kvstInit_agree (h : Clean st) (h' : Clean st') (hserves : Serves p st) (hserves' : Serves p st')
    (cols nsplits : ℕ) : Agree p .map (Runs.kvstInit p st cols nsplits) (Runs.kvstInit p st' cols nsplits) := by
  have hbackup := h.hasBackup.trans h'.hasBackup.symm
  have hsampling := h.bsampling.trans h'.bsampling.symm
  have hnkeys := h.nkeys.trans h'.nkeys.symm
  have hnpairs := h.npairs.trans h'.npairs.symm
  unfold Runs.kvstInit
  split_ifs with honly
  · exact ⟨hbackup, hsampling, hnkeys, hnpairs, nofun, fun hne => absurd honly hne,
      fun _ => mbksInit_congr (h.append.trans h'.append.symm) _ _ _, fun _ _ => ⟨rfl, rfl⟩, hserves, hserves'⟩
  · exact ⟨hbackup, hsampling, hnkeys, hnpairs, nofun, fun _ => mbksInit_congr (h.btree.trans h'.btree.symm) _ _ _,
      fun ho => absurd ho honly, fun _ _ => ⟨rfl, rfl⟩, hserves, hserves'⟩

theorem SameRun.start (h : Clean st) (hpool : ∀ n, st.pool = some n → p.nrCpus ≤ n) :
    SameRun p (start p st) (start p .fresh) := by
  have hclean : Clean { st with pool := some (st.pool.getD p.nrCpus) } := { h with }
  have hfresh : Clean { (.fresh : Store K V R) with pool := some p.nrCpus } := ⟨rfl, rfl, rfl, rfl, rfl, rfl⟩
  have hserves := Clean.serves hpool
  have hserves' : Serves p { (.fresh : Store K V R) with pool := some p.nrCpus } := ⟨_, rfl, le_rfl⟩
  unfold Runs.start
  dsimp only
  split_ifs with honly htasks
  · exact ⟨⟨_, rfl, hclean.kvstInit_agree hfresh hserves hserves' _ _⟩, by simp⟩
  · refine ⟨⟨_, rfl, ?_⟩, fun _ => honly⟩
    exact ⟨rfl, rfl, hclean.nkeys, hclean.npairs, fun _ => rfl, fun _ => mbksInit_congr hclean.btree _ _ _,
      fun ho => absurd ho honly, fun hne => absurd rfl hne, hserves, hserves'⟩
  · exact ⟨⟨_, rfl, hclean.kvstInit_agree hfresh hserves hserves' _ _⟩, by simp⟩

/-- After runs that do not sample, a run for which there are threads goes as in a process of its own:
each order in which its workers go on leads to the same outcome. -/
theorem run_independent {ps : List (Params S K V R)} {st : Store K V R} (h : History ps st)
    (hps : ∀ q ∈ ps, ¬ q.Samples) (p : Params S K V R) (hpool : ∀ n, st.pool = some n → p.nrCpus ≤ n)
    (as : List Action) :
    (exec (system p st) (fun _ _ => True) (start p st) as).map State.outcome =
      (exec (system p .fresh) (fun _ _ => True) (start p .fresh) as).map State.outcome := by
  have hrel := exec_rel (system p st) (system p .fresh) (fun _ _ a hst => SameRun.step hst a)
    (SameRun.start (h.clean hps) hpool) as
  generalize exec (system p st) (fun _ _ => True) (start p st) as = x at hrel ⊢
  generalize exec (system p .fresh) (fun _ _ => True) (start p .fresh) as = y at hrel ⊢
  cases hrel with
  | none => rfl
  | some hst =>
    obtain ⟨⟨st', rfl, -⟩, -⟩ := hst
    rfl

end Clean

section Fixed

def oneSplit (atype : AppType) (tasks : ℕ) : Params ℕ ℕ ℕ (ℕ × ℕ) where
  nrCpus := 1
  nrCpus_pos := Nat.one_pos
  splits := [7]
  splits_ne := by decide
  mapFunc split := [(split, 1)]
  partFunc k := k
  keyCmp := KeyComparator.difference.cmp
  atype := atype
  tasks := tasks
  reduce k vals := [(k, vals.length)]
  outCmp := KeyComparator.difference.toComparator.comap Prod.fst
  qsort := .insertion _

def turns (n : ℕ) : List Action := List.replicate n (.work 0)

def fixedActions : List Action := turns 5 ++ [.advance] ++ turns 4 ++ [.advance, .advance]

def sampledActions : List Action := turns 5 ++ [.advance] ++ turns 2 ++ [.advance] ++ turns 17 ++ [.advance, .advance]

/-- A map-only run after one with a fixed number of tasks, which has left a pool of one thread. -/
theorem run_independent_maponly : ∃ st : Store ℕ ℕ (ℕ × ℕ), History [oneSplit .mapreduce 3] st ∧
    ∀ as, (exec (system (oneSplit .maponly 0) st) (fun _ _ => True) (start (oneSplit .maponly 0) st) as).map
        State.outcome =
      (exec (system (oneSplit .maponly 0) .fresh) (fun _ _ => True) (start (oneSplit .maponly 0) .fresh) as).map
        State.outcome := by
  obtain ⟨s, hreach, hphase, hpool⟩ := exists_reachable (system (oneSplit .mapreduce 3) .fresh) (fun _ _ => True)
    (fun s => s.phase = .finished ∧ s.store.pool = some 1) fixedActions rfl (by decide +kernel)
  have hhistory : History [oneSplit .mapreduce 3] s.store := History.run .nil hreach hphase
  refine ⟨s.store, hhistory, run_independent hhistory (by decide) (oneSplit .maponly 0) fun n hn => ?_⟩
  rw [hpool] at hn
  exact (some.inj hn).le

/-- A run that samples leaves `has_backup` set and a backup whose rows are freed. With them the
first step of a later run crashes, be it one with a fixed number of tasks or a map-only one, while
both come to their ends in processes of their own. -/
theorem run_after_sampling_crashes : (∃ st : Store ℕ ℕ (ℕ × ℕ), History [oneSplit .mapreduce 0] st ∧
      ∀ p ∈ [oneSplit .mapreduce 3, oneSplit .maponly 0],
        (exec (system p st) (fun _ _ => True) (start p st) (turns 1)).map State.phase = some .crashed) ∧
    (exec (system (oneSplit .mapreduce 3) .fresh) (fun _ _ => True) (start (oneSplit .mapreduce 3) .fresh)
      fixedActions).map State.phase = some .finished ∧
    (exec (system (oneSplit .maponly 0) .fresh) (fun _ _ => True) (start (oneSplit .maponly 0) .fresh)
      (turns 5 ++ [.advance, .advance])).map State.phase = some .finished := by
  refine ⟨?_, by decide +kernel, by decide +kernel⟩
  obtain ⟨s, hreach, hphase, hcrash⟩ := exists_reachable (system (oneSplit .mapreduce 0) .fresh) (fun _ _ => True)
    (fun s => s.phase = .finished ∧ ∀ p ∈ [oneSplit .mapreduce 3, oneSplit .maponly 0],
      (exec (system p s.store) (fun _ _ => True) (start p s.store) (turns 1)).map State.phase = some .crashed)
    sampledActions rfl (by decide +kernel)
  exact ⟨s.store, History.run .nil hreach hphase, hcrash⟩

end Fixed

end Mosbench.Metis.Runs
