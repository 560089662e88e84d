import Mathlib.Data.List.FinRange

/-!
The explorer of interleavings (parex.c). Processes are threads that run until they call
_swtch, which hands control back to the scheduler unless the process is runnable and the
bound on switches is used up; that defines the steps of a schedule. The search runs as a
thread of its own: procSearchRec picks the next process and yields, the scheduler makes the
step, from the reset state after a branch was finished, and yields back. The threads of the
library switch only where one yields, so the two are one sequence of steps, with the stack of
procSearchRec written out. What is printed is left out, and so is fail().
-/
namespace Mosbench.Parex

inductive ProcState
  | uninitialized
  | runnable
  | stopped
  | done
deriving DecidableEq

structure World (n : ℕ) (U : Type) where
  states : Fin n → ProcState
  user : U

/-- The processes: what resetFn leaves, and what a process does up to its next call of _swtch. -/
structure Procs (n : ℕ) (U : Type) where
  resetFn : U
  segment : Fin n → World n U → World n U

structure Point (n : ℕ) (U : Type) where
  world : World n U
  curProc : Option (Fin n)
  switches : ℕ

def maxDepth : ℕ := 100

variable {n : ℕ} {U : Type}

namespace Point

def state (σ : Point n U) (p : Fin n) : ProcState := σ.world.states p

def procReset (procs : Procs n U) : Point n U := ⟨⟨fun _ => .runnable, procs.resetFn⟩, none, 0⟩

/-- `procYield` up to the switch to the thread. -/
def select (σ : Point n U) (p : Fin n) : Point n U where
  world := σ.world
  curProc := some p
  switches := if σ.curProc = some p then σ.switches else σ.switches + 1

/-- The process runs up to its next call of _swtch. -/
def run (procs : Procs n U) (p : Fin n) (σ : Point n U) : Point n U := { σ with world := procs.segment p σ.world }

/-- `_swtch` returns to the process at once. -/
def Stays (maxSwitches : ℤ) (σ : Point n U) (p : Fin n) : Prop :=
  σ.state p = .runnable ∧ maxSwitches < σ.switches

instance (maxSwitches : ℤ) (σ : Point n U) (p : Fin n) : Decidable (σ.Stays maxSwitches p) :=
  inferInstanceAs (Decidable (_ ∧ _))

def AllDone (σ : Point n U) : Prop := ∀ i, σ.state i = .done

instance (σ : Point n U) : Decidable σ.AllDone := inferInstanceAs (Decidable (∀ _, _))

def Deadlocked (σ : Point n U) : Prop := ¬ σ.AllDone ∧ ∀ i, σ.state i ≠ .runnable

end Point

section Steps

variable (procs : Procs n U) (maxSwitches : ℤ)

inductive Runs (p : Fin n) : Point n U → Point n U → Prop
  | yields {σ : Point n U} : ¬ (σ.run procs p).Stays maxSwitches p → Runs p σ (σ.run procs p)
  | stays {σ σ' : Point n U} : (σ.run procs p).Stays maxSwitches p → Runs p (σ.run procs p) σ' → Runs p σ σ'

def Step (σ : Point n U) (p : Fin n) (σ' : Point n U) : Prop :=
  σ.state p = .runnable ∧ Runs procs maxSwitches p (σ.select p) σ'

inductive Schedule : Point n U → List (Fin n) → Point n U → Prop
  | nil (σ : Point n U) : Schedule σ [] σ
  | cons {σ σ' σ'' : Point n U} {p : Fin n} {ps : List (Fin n)} :
      Step procs maxSwitches σ p σ' → Schedule σ' ps σ'' → Schedule σ (p :: ps) σ''

/-- Every step ends, and all schedules are shorter than MAX_DEPTH steps. -/
structure Finite : Prop where
  ends : ∀ ps σ p, Schedule procs maxSwitches (.procReset procs) ps σ → σ.state p = .runnable →
    ∃ σ', Step procs maxSwitches σ p σ'
  short : ∀ ps σ, Schedule procs maxSwitches (.procReset procs) ps σ → ps.length < maxDepth

def MaximalSchedule (ps : List (Fin n)) : Prop :=
  ∃ σ, Schedule procs maxSwitches (.procReset procs) ps σ ∧ ∀ i, σ.state i ≠ .runnable

end Steps

/-- A call of procSearchRec that is not finished: the snapshot and the variables of its loop. -/
structure Frame (n : ℕ) where
  states : Fin n → ProcState
  i : ℕ
  anyRunnable : Bool

/-- What is done next. The number of frames is the depth. -/
inductive Control (n : ℕ)
  | call
  | loop
  | ret
  /-- The scheduler goes on behind pth_yield(searcher). -/
  | schedule
  /-- procYield(path[i]), or back to the searcher if all of the path was stepped. -/
  | procYield (i : ℕ)
  | running (i : ℕ) (p : Fin n)

/-- How procRun ends: it returns, it aborts, or an access is out of bounds. -/
inductive Halt
  | exhausted
  | deadlock
  | assertion
  | outOfBounds
deriving DecidableEq

structure Config (n : ℕ) (U : Type) where
  control : Control n
  stack : List (Frame n)
  initPath : ℕ → ℕ
  path : ℕ → Option (Fin n)
  pathLength : ℕ
  backtracked : Bool
  point : Point n U
  /-- For the proofs: the steps made between the resets before the last one. -/
  past : List (List (Fin n))
  /-- For the proofs: the steps made since the last reset. -/
  current : List (Fin n)

/-- The sequences of process steps executed so far, each from the reset state. -/
def Config.executed (c : Config n U) : List (List (Fin n)) := c.past ++ [c.current]

def start (procs : Procs n U) : Config n U where
  control := .call
  stack := []
  initPath _ := 0
  path _ := none
  pathLength := 0
  backtracked := false
  point := .procReset procs
  past := []
  current := []

def step (procs : Procs n U) (maxSwitches : ℤ) (c : Config n U) : Except Halt (Config n U) :=
  match c.control with
  | .call =>
    -- initPath[depth] is read before the depth is compared with MAX_DEPTH
    if maxDepth ≤ c.stack.length then .error .outOfBounds
    else
      let init := c.initPath c.stack.length
      let initPath := Function.update c.initPath c.stack.length 0
      if c.point.AllDone then .ok { c with control := .ret, initPath }
      else .ok { c with control := .loop, initPath, stack := ⟨c.point.world.states, init, false⟩ :: c.stack }
  | .loop =>
    match c.stack with
    | [] => .error .outOfBounds
    | f :: stack =>
      if h : f.i < n then
        if f.states ⟨f.i, h⟩ = .runnable then
          .ok { c with
            control := .schedule
            stack := { f with anyRunnable := true } :: stack
            path := Function.update c.path stack.length (some ⟨f.i, h⟩)
            pathLength := stack.length + 1 }
        else .ok { c with stack := { f with i := f.i + 1 } :: stack }
      else if f.anyRunnable then .ok { c with control := .ret, stack }
      else .error .deadlock
  | .ret =>
    match c.stack with
    | [] => .ok { c with control := .schedule, pathLength := 0 }
    | f :: stack =>
      .ok { c with control := .loop, stack := { f with i := f.i + 1 } :: stack, backtracked := true }
  | .schedule =>
    if c.pathLength = 0 then .error .exhausted
    else if c.backtracked then
      .ok { c with
        control := .procYield 0
        backtracked := false
        point := .procReset procs
        past := c.executed
        current := [] }
    else .ok { c with control := .procYield (c.pathLength - 1) }
  | .procYield i =>
    if i < c.pathLength then
      match c.path i with
      | none => .error .outOfBounds
      | some p =>
        if c.point.state p = .runnable then
          .ok { c with control := .running i p, point := c.point.select p, current := c.current ++ [p] }
        else .error .assertion
    else .ok { c with control := .call }
  | .running i p =>
    let point := c.point.run procs p
    if point.Stays maxSwitches p then .ok { c with point }
    else .ok { c with control := .procYield (i + 1), point }

def Reaches (procs : Procs n U) (maxSwitches : ℤ) : Config n U → Config n U → Prop :=
  Relation.ReflTransGen fun c c' => step procs maxSwitches c = .ok c'

end Mosbench.Parex
