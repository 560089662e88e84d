import Mosbench.Lib.Raising
import Mosbench.Mparts.ConfigSpace

/-!
The life cycle of a manager's tasks (manager.py). A task's four methods are arbitrary
computations on the state `σ` of everything outside the manager, and may raise any
exception. The manager keeps the state and the owner of each task; the calls it makes
are recorded in order. Task objects are told apart by their names, which are unique in
a manager.
-/
namespace Mosbench.Mparts

open List Function Raising

inductive Status
  | stopped
  | running
  deriving DecidableEq

/-- `_state` and `_manager` of a task; managers are told apart by `M`. -/
structure TaskState (M : Type) where
  state : Status
  manager : Option M
  deriving DecidableEq

inductive Phase
  | start
  | wait
  | stop
  | reset
  deriving DecidableEq

inductive Exc (E : Type)
  | raised (e : E)
  | valueError (text : List Char)
  | assertionError
  deriving DecidableEq

/-- A method is passed the acting manager. -/
abbrev Method (σ E M : Type) := M → EStateM E σ Unit

/-- `none` is a method that is missing or set to a false value. -/
structure Task (σ E M : Type) where
  name : Name
  start : Option (Method σ E M)
  wait : Option (Method σ E M)
  stop : Option (Method σ E M)
  reset : Option (Method σ E M)

structure Manager (σ E M : Type) where
  self : M
  tasks : List (Task σ E M)
  names_nodup : (tasks.map Task.name).Nodup

structure World (σ M : Type) where
  task : Name → TaskState M
  user : σ
  calls : List (Phase × Name)

variable {σ E M : Type}

theorem nodup_names_append {tasks : List (Task σ E M)} (h : (tasks.map Task.name).Nodup)
    (hnew : ¬ ∃ t ∈ tasks, t.name = task.name) :
    ((tasks ++ [task]).map Task.name).Nodup := by
  rw [map_append, map_singleton, ← concat_eq_append]
  exact List.Nodup.concat (fun hmem => hnew (mem_map.mp hmem)) h

def Manager.add (m : Manager σ E M) (task : Task σ E M) : Except (Exc E) (Manager σ E M) :=
  if hname : ∃ t ∈ m.tasks, t.name = task.name then
    .error (.valueError ("A task with the name ".toList ++ task.name ++ " already exists".toList))
  else
    .ok ⟨m.self, m.tasks ++ [task], nodup_names_append m.names_nodup hname⟩

def callMeMethod (self : M) (phase : Phase) (obj : Name) (fn : Option (Method σ E M)) :
    EStateM (Exc E) (World σ M) Unit := fun w =>
  match fn with
  | none => .ok () w
  | some fn =>
    match fn self w.user with
    | .ok _ user => .ok () ⟨w.task, user, w.calls ++ [(phase, obj)]⟩
    | .error e user => .error (.raised e) ⟨w.task, user, w.calls ++ [(phase, obj)]⟩

def setTask (obj : Name) (state : TaskState M) : EStateM (Exc E) (World σ M) Unit :=
  modify fun w => { w with task := Function.update w.task obj state }

def Manager.OwnsTasks (m : Manager σ E M) (w : World σ M) : Prop :=
  ∀ t ∈ m.tasks, (w.task t.name).manager = none ∨ (w.task t.name).manager = some m.self

theorem task_callMeMethod (self : M) (phase : Phase) (obj : Name) (fn : Option (Method σ E M))
    (w : World σ M) : (final (callMeMethod self phase obj fn w)).task = w.task := by
  unfold callMeMethod
  cases fn with
  | none => rfl
  | some fn =>
    cases hres : fn self w.user with
    | ok _ user => simp only [hres, final_ok]
    | error e user => simp only [hres, final_error]

variable {m : Manager σ E M}

theorem keeps_callMeMethod (phase : Phase) (obj : Name) (fn : Option (Method σ E M)) :
    Keeps m.OwnsTasks (callMeMethod m.self phase obj fn) := by
  intro w hown t ht
  rw [task_callMeMethod]
  exact hown t ht

theorem keeps_setTask (hstate : state.manager = none ∨ state.manager = some m.self) :
    Keeps m.OwnsTasks (setTask (σ := σ) (E := E) obj state) := by
  intro w hown t ht
  change (update w.task obj state t.name).manager = none ∨
    (update w.task obj state t.name).manager = some m.self
  by_cases hname : t.name = obj
  · rw [hname, update_self]
    exact hstate
  · rw [update_of_ne hname]
    exact hown t ht

def callsOf (phase : Phase) (method : Task σ E M → Option (Method σ E M))
    (tasks : List (Task σ E M)) : List (Phase × Name) :=
  (tasks.filter fun t => (method t).isSome).map fun t => (phase, t.name)

theorem tryCatch_callMeMethod (self : M) (phase : Phase) (obj : Task σ E M)
    (method : Task σ E M → Option (Method σ E M)) (w : World σ M) :
    ∃ user, tryCatch (callMeMethod self phase obj.name (method obj)) (fun _ => pure ()) w =
      .ok () ⟨w.task, user, w.calls ++ callsOf phase method [obj]⟩ := by
  cases hmethod : method obj with
  | none =>
    refine ⟨w.user, ?_⟩
    have hcalls : callsOf phase method [obj] = [] := by simp [callsOf, hmethod]
    rw [hcalls, append_nil]
    exact tryCatch_of_ok rfl _
  | some fn =>
    have hcalls : callsOf phase method [obj] = [(phase, obj.name)] := by simp [callsOf, hmethod]
    rw [hcalls]
    cases hres : fn self w.user with
    | ok u user =>
      refine ⟨user, ?_⟩
      apply tryCatch_of_ok
      unfold callMeMethod
      simp only [hres]
    | error e user =>
      refine ⟨user, ?_⟩
      have hraise : callMeMethod self phase obj.name (some fn) w =
          .error (.raised e) ⟨w.task, user, w.calls ++ [(phase, obj.name)]⟩ := by
        unfold callMeMethod
        simp only [hres]
      rw [tryCatch_of_error hraise]
      rfl

theorem callsOf_cons (phase : Phase) (method : Task σ E M → Option (Method σ E M))
    (obj : Task σ E M) (tasks : List (Task σ E M)) :
    callsOf phase method (obj :: tasks) = callsOf phase method [obj] ++ callsOf phase method tasks := by
  unfold callsOf
  rw [← map_append, ← filter_append, singleton_append]

theorem keeps_task_callMeMethod (self : M) (phase : Phase) (obj : Name) (fn : Option (Method σ E M)) :
    Keeps (fun w : World σ M => w.task n = s) (callMeMethod self phase obj fn) := by
  intro w hw
  rw [task_callMeMethod, hw]

theorem keeps_task_setTask (hname : obj ≠ n) (state : TaskState M) :
    Keeps (fun w : World σ M => w.task n = s) (setTask (E := E) obj state) := by
  intro w hw
  exact (update_of_ne (Ne.symm hname) ..).trans hw

variable [DecidableEq M]

def startTask (self : M) (obj : Task σ E M) : EStateM (Exc E) (World σ M) Unit := do
  let w ← get
  if (w.task obj.name).state = .running then
    if (w.task obj.name).manager ≠ some self then
      throw (.valueError ("Task ".toList ++ obj.name ++ " is running in another manager".toList))
    else
      pure ()
  else
    callMeMethod self .start obj.name obj.start
    setTask obj.name ⟨.running, some self⟩

def waitTask (self : M) (obj : Task σ E M) : EStateM (Exc E) (World σ M) Unit := do
  let w ← get
  if (w.task obj.name).state = .running ∧ obj.wait.isSome then
    if (w.task obj.name).manager = some self then
      callMeMethod self .wait obj.name obj.wait
    else
      throw .assertionError
  else
    pure ()

def stopTask (self : M) (obj : Task σ E M) : EStateM (Exc E) (World σ M) Unit := do
  let w ← get
  if (w.task obj.name).state = .stopped then
    pure ()
  else if (w.task obj.name).manager = some self then
    callMeMethod self .stop obj.name obj.stop
    setTask obj.name ⟨.stopped, none⟩
  else
    throw .assertionError

/-- An exception of the reset method is printed and ignored. -/
def resetTask (self : M) (obj : Task σ E M) : EStateM (Exc E) (World σ M) Unit := do
  let w ← get
  if (w.task obj.name).manager = none ∨ (w.task obj.name).manager = some self then
    tryCatch (callMeMethod self .reset obj.name obj.reset) fun _ => pure ()
    setTask obj.name ⟨.stopped, none⟩
  else
    throw .assertionError

namespace Manager

def start (m : Manager σ E M) : EStateM (Exc E) (World σ M) Unit := m.tasks.forM (startTask m.self)

def wait (m : Manager σ E M) : EStateM (Exc E) (World σ M) Unit := m.tasks.forM (waitTask m.self)

def stop (m : Manager σ E M) : EStateM (Exc E) (World σ M) Unit :=
  m.tasks.reverse.forM (stopTask m.self)

def reset (m : Manager σ E M) : EStateM (Exc E) (World σ M) Unit :=
  m.tasks.reverse.forM (resetTask m.self)

def lifeCycle (m : Manager σ E M) : EStateM (Exc E) (World σ M) Unit := do
  m.start
  m.wait
  m.stop

def run (m : Manager σ E M) : EStateM (Exc E) (World σ M) Unit :=
  tryCatch m.lifeCycle fun e => do
    m.reset
    throw e

end Manager

theorem keeps_startTask (obj : Task σ E M) : Keeps m.OwnsTasks (startTask m.self obj) := by
  unfold startTask
  refine Keeps.bind Keeps.get ?_
  intro w
  split_ifs
  · exact Keeps.throw _
  · exact Keeps.pure ()
  · refine Keeps.bind (keeps_callMeMethod _ _ _) ?_
    intro _
    exact keeps_setTask (Or.inr rfl)

theorem keeps_waitTask (obj : Task σ E M) : Keeps m.OwnsTasks (waitTask m.self obj) := by
  unfold waitTask
  refine Keeps.bind Keeps.get ?_
  intro w
  split_ifs
  · exact keeps_callMeMethod _ _ _
  · exact Keeps.throw _
  · exact Keeps.pure ()

theorem keeps_stopTask (obj : Task σ E M) : Keeps m.OwnsTasks (stopTask m.self obj) := by
  unfold stopTask
  refine Keeps.bind Keeps.get ?_
  intro w
  split_ifs
  · exact Keeps.pure ()
  · refine Keeps.bind (keeps_callMeMethod _ _ _) ?_
    intro _
    exact keeps_setTask (Or.inl rfl)
  · exact Keeps.throw _

theorem keeps_lifeCycle : Keeps m.OwnsTasks m.lifeCycle := by
  unfold Manager.lifeCycle
  apply Keeps.bind
  · exact Keeps.forM fun obj _ => keeps_startTask obj
  · intro _
    apply Keeps.bind
    · exact Keeps.forM fun obj _ => keeps_waitTask obj
    · intro _
      exact Keeps.forM fun obj _ => keeps_stopTask obj

theorem resetTask_eq {obj : Task σ E M}
    (hown : (w.task obj.name).manager = none ∨ (w.task obj.name).manager = some self) :
    ∃ user, resetTask self obj w = .ok () ⟨Function.update w.task obj.name ⟨.stopped, none⟩, user,
      w.calls ++ callsOf .reset Task.reset [obj]⟩ := by
  obtain ⟨user, hcall⟩ := tryCatch_callMeMethod self .reset obj Task.reset w
  refine ⟨user, ?_⟩
  unfold resetTask
  rw [bind_of_ok (show (get : EStateM (Exc E) (World σ M) _) w = .ok w w from rfl), if_pos hown,
    bind_of_ok hcall]
  rfl

theorem forM_resetTask {tasks : List (Task σ E M)}
    (hown : ∀ t ∈ tasks, (w.task t.name).manager = none ∨ (w.task t.name).manager = some self) :
    ∃ w', tasks.forM (resetTask self) w = .ok () w' ∧
      w'.calls = w.calls ++ callsOf .reset Task.reset tasks ∧
      (∀ t ∈ tasks, w'.task t.name = ⟨.stopped, none⟩) ∧
      ∀ n, w.task n = ⟨.stopped, none⟩ → w'.task n = ⟨.stopped, none⟩ := by
  induction tasks generalizing w with
  | nil => exact ⟨w, rfl, by simp [callsOf], by simp, fun n hn => hn⟩
  | cons obj tasks ih =>
    obtain ⟨user, hreset⟩ := resetTask_eq (hown obj (by simp))
    -- The remaining tasks still belong to nobody else after this one is reset.
    have hrest : ∀ t ∈ tasks, (update w.task obj.name ⟨.stopped, none⟩ t.name).manager = none ∨
          (update w.task obj.name ⟨.stopped, none⟩ t.name).manager = some self := by
      intro t ht
      by_cases hname : t.name = obj.name
      · rw [hname, update_self]
        exact Or.inl rfl
      · rw [update_of_ne hname]
        exact hown t (by simp [ht])
    obtain ⟨w', hloop, hcalls, hstopped, hstays⟩ := ih (w := ⟨_, user, _⟩) hrest
    refine ⟨w', ?_, ?_, ?_, ?_⟩
    · exact (bind_of_ok hreset _).trans hloop
    · rw [hcalls, callsOf_cons _ _ obj tasks, append_assoc]
    · intro t ht
      rcases mem_cons.mp ht with rfl | ht
      · exact hstays _ (update_self ..)
      · exact hstopped t ht
    · intro n hn
      apply hstays
      by_cases hname : n = obj.name
      · rw [hname]
        exact update_self ..
      · exact (update_of_ne hname ..).trans hn

theorem reset_eq (hown : m.OwnsTasks w) : ∃ w', m.reset w = .ok () w' ∧
      w'.calls = w.calls ++ callsOf .reset Task.reset m.tasks.reverse ∧
      ∀ t ∈ m.tasks, w'.task t.name = ⟨.stopped, none⟩ := by
  have hrev : ∀ t ∈ m.tasks.reverse,
      (w.task t.name).manager = none ∨ (w.task t.name).manager = some m.self :=
    fun t ht => hown t (mem_reverse.mp ht)
  obtain ⟨w', hloop, hcalls, hstopped, -⟩ := forM_resetTask hrev
  exact ⟨w', hloop, hcalls, fun t ht => hstopped t (mem_reverse.mpr ht)⟩

/-- The clean-up stops at the first task of another manager, which it leaves as it is. -/
theorem forM_resetTask_elsewhere {tasks : List (Task σ E M)} (ht : t ∈ tasks)
    (hnone : (w.task t.name).manager ≠ none) (hself : (w.task t.name).manager ≠ some self) :
    ∃ w', tasks.forM (resetTask self) w = .error .assertionError w' ∧
      ∃ t ∈ tasks, (w'.task t.name).manager ≠ none := by
  induction tasks generalizing w with
  | nil => cases ht
  | cons obj tasks ih =>
    by_cases hown : (w.task obj.name).manager = none ∨ (w.task obj.name).manager = some self
    · obtain ⟨user, hreset⟩ := resetTask_eq hown
      have hname : t.name ≠ obj.name := fun h => by
        rw [h] at hnone hself
        exact hown.elim hnone hself
      have hkept : update w.task obj.name ⟨.stopped, none⟩ t.name = w.task t.name := update_of_ne hname ..
      rw [← hkept] at hnone hself
      obtain ⟨w', hloop, t', ht', hmanager⟩ := ih (w := ⟨_, user, _⟩)
        ((mem_cons.mp ht).resolve_left fun h => hname (congrArg Task.name h)) hnone hself
      exact ⟨w', (bind_of_ok hreset _).trans hloop, t', mem_cons_of_mem _ ht', hmanager⟩
    · have hfails : resetTask self obj w = .error .assertionError w := by
        unfold resetTask
        rw [bind_of_ok (show (get : EStateM (Exc E) (World σ M) _) w = .ok w w from rfl), if_neg hown]
        rfl
      exact ⟨w, bind_of_error hfails _, obj, mem_cons_self, (not_or.mp hown).1⟩

theorem keeps_task_startTask (hrunning : s.state = .running) (helsewhere : s.manager ≠ some self)
    (obj : Task σ E M) : Keeps (fun w : World σ M => w.task n = s) (startTask self obj) := by
  intro w hw
  unfold startTask
  rw [bind_of_ok (show (get : EStateM (Exc E) (World σ M) _) w = .ok w w from rfl)]
  by_cases hname : obj.name = n
  · rw [hname, hw, if_pos hrunning, if_pos helsewhere]
    exact hw
  · split_ifs
    · exact hw
    · exact hw
    · exact Keeps.bind (keeps_task_callMeMethod _ _ _ _) (fun _ => keeps_task_setTask hname _) w hw

theorem keeps_task_waitTask (self : M) (obj : Task σ E M) :
    Keeps (fun w : World σ M => w.task n = s) (waitTask self obj) := by
  unfold waitTask
  refine Keeps.bind Keeps.get ?_
  intro w
  split_ifs
  · exact keeps_task_callMeMethod _ _ _ _
  · exact Keeps.throw _
  · exact Keeps.pure ()

theorem keeps_task_stopTask (hrunning : s.state = .running) (helsewhere : s.manager ≠ some self)
    (obj : Task σ E M) : Keeps (fun w : World σ M => w.task n = s) (stopTask self obj) := by
  intro w hw
  unfold stopTask
  rw [bind_of_ok (show (get : EStateM (Exc E) (World σ M) _) w = .ok w w from rfl)]
  by_cases hname : obj.name = n
  · rw [hname, hw, if_neg (by rw [hrunning]; decide), if_neg helsewhere]
    exact hw
  · split_ifs
    · exact hw
    · exact Keeps.bind (keeps_task_callMeMethod _ _ _ _) (fun _ => keeps_task_setTask hname _) w hw
    · exact hw

/-- A task that runs in another manager is left alone. -/
theorem keeps_elsewhere {s : TaskState M} (hrunning : s.state = .running) (helsewhere : s.manager ≠ some m.self) :
    Keeps (fun w : World σ M => w.task n = s) m.lifeCycle := by
  unfold Manager.lifeCycle
  apply Keeps.bind
  · exact Keeps.forM fun obj _ => keeps_task_startTask hrunning helsewhere obj
  · intro _
    apply Keeps.bind
    · exact Keeps.forM fun obj _ => keeps_task_waitTask m.self obj
    · intro _
      exact Keeps.forM fun obj _ => keeps_task_stopTask hrunning helsewhere obj

/-- What is expected of `run` when the life cycle has raised `e` in the state `w₁`: every reset
method is called, in reverse order, every task ends stopped and without an owner, and the exception
is raised again. -/
def Manager.CleansUp (m : Manager σ E M) (w : World σ M) (e : Exc E) (w₁ : World σ M) : Prop :=
  ∃ w₂, m.run w = .error e w₂ ∧ w₂.calls = w₁.calls ++ callsOf .reset Task.reset m.tasks.reverse ∧
    ∀ t ∈ m.tasks, w₂.task t.name = ⟨.stopped, none⟩

theorem cleansUp_iff (hraise : m.lifeCycle w = .error e w₁) : m.CleansUp w e w₁ ↔ m.OwnsTasks w₁ := by
  constructor
  · rintro ⟨w₂, hrun, -, hstopped⟩ t ht
    by_contra hown
    obtain ⟨hnone, hself⟩ := not_or.mp hown
    obtain ⟨w', hreset, t', ht', hmanager⟩ := forM_resetTask_elsewhere (mem_reverse.mpr ht) hnone hself
    have hfails : m.run w = .error .assertionError w' := by
      unfold Manager.run
      rw [tryCatch_of_error hraise]
      exact bind_of_error hreset _
    obtain ⟨-, rfl⟩ := EStateM.Result.error.inj (hfails.symm.trans hrun)
    rw [hstopped t' (mem_reverse.mp ht')] at hmanager
    exact hmanager rfl
  · intro hown
    obtain ⟨w₂, hreset, hcalls, hstopped⟩ := reset_eq hown
    refine ⟨w₂, ?_, hcalls, hstopped⟩
    unfold Manager.run
    rw [tryCatch_of_error hraise, bind_of_ok hreset]
    rfl

/-- When the life cycle raises, the clean-up is right if no task belongs to another manager then. It
is enough that no task does when `run` is called; and where stopped tasks have no owner, as every
manager leaves them, that is exactly when the clean-up is right. -/
theorem run_failure (m : Manager σ E M) (w : World σ M) (e : Exc E) (w₁ : World σ M)
    (hraise : m.lifeCycle w = .error e w₁) :
    (m.CleansUp w e w₁ ↔ m.OwnsTasks w₁) ∧ (m.OwnsTasks w → m.CleansUp w e w₁) ∧
      ((∀ t ∈ m.tasks, (w.task t.name).state = .stopped → (w.task t.name).manager = none) →
        (m.CleansUp w e w₁ ↔ m.OwnsTasks w)) := by
  have hiff := cleansUp_iff hraise
  have henough : m.OwnsTasks w → m.CleansUp w e w₁ := by
    intro hown
    have h := keeps_lifeCycle w hown
    rw [hraise] at h
    exact hiff.mpr h
  refine ⟨hiff, henough, fun hconsistent => ⟨fun hclean t ht => ?_, henough⟩⟩
  by_contra hown
  obtain ⟨hnone, hself⟩ := not_or.mp hown
  have hrunning : (w.task t.name).state = .running := by
    cases hstate : (w.task t.name).state with
    | running => rfl
    | stopped => exact absurd (hconsistent t ht hstate) hnone
  have hkept := keeps_elsewhere (m := m) (n := t.name) hrunning hself w rfl
  rw [hraise] at hkept
  have hown₁ := hiff.mp hclean t ht
  rw [show w₁.task t.name = w.task t.name from hkept] at hown₁
  exact hown hown₁

def taskReset (name : Name) : Task Unit Unit ℕ := ⟨name, none, none, none, some fun _ => throw ()⟩

def taskFails (name : Name) : Task Unit Unit ℕ := ⟨name, some fun _ => throw (), none, none, none⟩

def worldStopped : World Unit ℕ := ⟨fun _ => ⟨.stopped, none⟩, (), []⟩

/-- The second task fails to start after the first was started. -/
theorem run_failure_start :
    let m : Manager Unit Unit ℕ := ⟨0, [taskReset ['a'], taskFails ['b']], by decide⟩
    ∃ w₂, m.run worldStopped = .error (.raised ()) w₂ ∧
      w₂.calls = [(.start, ['b'])] ++ [(.reset, ['a'])] ∧
      ∀ t ∈ m.tasks, w₂.task t.name = ⟨.stopped, none⟩ :=
  (run_failure ⟨0, [taskReset ['a'], taskFails ['b']], by decide⟩ worldStopped (.raised ()) _
    rfl).2.1 fun _ _ => Or.inl rfl

def worldElsewhere : World Unit ℕ :=
  ⟨fun n => if n = ['b'] then ⟨.running, some 1⟩ else ⟨.stopped, none⟩, (), []⟩

/-- The clean-up stops at a task of another manager: the first task is not reset, it is
left running, and an assertion failure replaces the exception of `start`. -/
theorem run_failure_elsewhere :
    let m : Manager Unit Unit ℕ := ⟨0, [taskReset ['a'], taskReset ['b']], by decide⟩
    ∃ w₁ w₂, m.lifeCycle worldElsewhere =
        .error (.valueError "Task b is running in another manager".toList) w₁ ∧
      m.run worldElsewhere = .error .assertionError w₂ ∧ w₂.calls = [] ∧
      w₂.task ['a'] = ⟨.running, some 0⟩ :=
  ⟨_, _, rfl, rfl, rfl, rfl⟩

end Mosbench.Mparts
