import Mosbench.Lib.Links
import Mosbench.Lib.Transition
import Mosbench.Gsl.Counts

/-!
The GSL lock of gsl-impl.h as a transition system over any number of
processes. A process is somewhere in gslAcquire, gslRelease or gslCancel, and
one step takes it from one access of shared memory to the next: a read of the
counts word, a compare-and-set on it, the queue mutex, or a stretch of code
under that mutex. Purely local code is part of the step before it.

The GSL_PARANOID recount in wake and the assertions on awaitedLock are left
out; they never change the state, so leaving them out only adds runs. A failed
assertion of gslCancel stops the process. GSL_WAKE is delivered together with
the compare-and-set that grants the mode, which lets the sleeper resume no
later than in the source, and GSL_ACQUIRE_SLEEP follows its documentation.
-/
namespace Mosbench.Gsl

open Links

variable {P : Type*}

structure PerProcShared (P : Type*) where
  lockNext : Option P
  wantMode : Mode
  isUpgrade : Bool
  waitHolding : LockCounts

/-- `gslLock_t`. The mutex is its owner; `waiterTail` is the address of a link. -/
structure Lock (P : Type*) where
  c : LockCounts
  queueLock : Option P
  waiter : Option P
  waiterTail : Option (Cell P)
  waitCounts : Mode → ℤ

/-- The function that called wake and what it does next. -/
inductive Caller
  | acquire (mode : Mode)
  | release
  deriving DecidableEq

/--
Program points, with the local variables that outlive a step. A pair such as
acqGet and acqSet is a retry label with its lcGet and the lcSet behind it:
try is gslAcquire with dontWait (retry1), acq is the blocking path (retry),
undo is retry2 under the queue mutex, rel is gslRelease. The wake points are
the loop test, its retry label, the lcSet and the unlinking after a grant.
A sleeping process is inside GSL_ACQUIRE_SLEEP; an interrupted one was thrown
out of it and calls gslCancel next.
-/
inductive Pc (P : Type*)
  | idle
  | tryGet (mode : Mode)
  | trySet (mode : Mode) (preCounts : LockCounts)
  | acqGet (mode : Mode)
  | acqSet (mode : Mode) (preCounts : LockCounts)
  | acqMutex (mode : Mode)
  | undoGet (mode : Mode)
  | undoSet (mode : Mode) (preCounts : LockCounts)
  | enqueue (mode : Mode)
  | sleep (mode : Mode)
  | interrupted (mode : Mode)
  | wake (caller : Caller) (prevLink : Cell P)
  | wakeGet (caller : Caller) (prevLink : Cell P) (proc : P)
  | wakeSet (caller : Caller) (prevLink : Cell P) (proc : P) (preCounts : LockCounts)
  | wakeUnlink (caller : Caller) (prevLink : Cell P) (proc : P)
  | relGet (mode : Mode)
  | relSet (mode : Mode) (preCounts : LockCounts)
  | relMutex (mode : Mode)
  | cancelMutex (mode : Mode)
  | cancelLocked (mode : Mode)
  deriving DecidableEq

/-- One process: its shared part, its holding word for this lock, whether a
wake for its current wait is pending, and what its last call returned. -/
structure Proc (P : Type*) where
  shared : PerProcShared P
  holding : LockCounts
  woken : Bool
  result : Bool
  lastLocalHold : Bool
  lastHold : Bool
  pc : Pc P

structure State (P : Type*) where
  lock : Lock P
  proc : P → Proc P

def gslLockInit : Lock P where
  c := 0#128
  queueLock := none
  waiter := none
  waiterTail := none
  waitCounts _ := 0

structure Initial (s : State P) : Prop where
  lock : s.lock = gslLockInit
  holding : ∀ p, (s.proc p).holding = 0#128
  woken : ∀ p, (s.proc p).woken = false
  pc : ∀ p, (s.proc p).pc = .idle

def fresh : State P where
  lock := gslLockInit
  proc _ := {
    shared := ⟨none, 0, false, 0#128⟩
    holding := 0#128
    woken := false
    result := false
    lastLocalHold := false
    lastHold := false
    pc := .idle }

theorem fresh_initial : Initial (fresh : State P) :=
  ⟨rfl, fun _ => rfl, fun _ => rfl, fun _ => rfl⟩

namespace State

def cell (s : State P) : Memory P
  | .head => s.lock.waiter
  | .next p => (s.proc p).shared.lockNext

def setCounts (s : State P) (c : LockCounts) : State P := { s with lock := { s.lock with c := c } }

def setQueueLock (s : State P) (owner : Option P) : State P :=
  { s with lock := { s.lock with queueLock := owner } }

def setTail (s : State P) (k : Cell P) : State P :=
  { s with lock := { s.lock with waiterTail := some k } }

variable [DecidableEq P]

def modify (s : State P) (p : P) (f : Proc P → Proc P) : State P :=
  { s with proc := Function.update s.proc p (f (s.proc p)) }

def setPc (s : State P) (p : P) (pc : Pc P) : State P := s.modify p fun me => { me with pc := pc }

def setCell (s : State P) (k : Cell P) (v : Option P) : State P :=
  match k with
  | .head => { s with lock := { s.lock with waiter := v } }
  | .next p => s.modify p fun me => { me with shared := { me.shared with lockNext := v } }

def addWaitCount (s : State P) (mode : Mode) (d : ℤ) : State P :=
  { s with lock := { s.lock with
      waitCounts := Function.update s.lock.waitCounts mode (s.lock.waitCounts mode + d) } }

end State

variable [DecidableEq P]

def holdLock (me : Proc P) : Bool := lcNonZero me.holding

def conflictFree (table : ConflictTable) (me : Proc P) (mode : Mode) (preCounts : LockCounts) :
    Bool :=
  lcZero (lcAnd (lcSubtract preCounts me.holding) (lcConflictMask table mode true (!holdLock me)))

def acquired (s : State P) (p : P) (mode : Mode) : State P :=
  s.modify p fun me => { me with
    holding := lcAdd me.holding (lcActive mode)
    woken := false
    result := true
    pc := .idle }

def returnFalse (s : State P) (p : P) : State P :=
  s.modify p fun me => { me with result := false, pc := .idle }

def undoCounts (mode : Mode) (preCounts : LockCounts) : LockCounts :=
  lcOr (lcSubtract preCounts (lcActive mode)) (lcSetWait 0#128 mode true)

def pushHead (s : State P) (p : P) : State P :=
  let s := if s.lock.waiter = none then s.setTail (.next p) else s
  (s.setCell (.next p) s.lock.waiter).setCell .head (some p)

def pushTail (s : State P) (p : P) : State P :=
  let s := if s.lock.waiter = none then s.setTail .head else s
  let s := match s.lock.waiterTail with
    | some k => s.setCell k (some p)
    | none => s
  (s.setTail (.next p)).setCell (.next p) none

def enqueue (s : State P) (p : P) (mode : Mode) : State P :=
  let upgrade := holdLock (s.proc p)
  let s := if upgrade then pushHead s p else pushTail s p
  (s.addWaitCount mode 1).modify p fun me => { me with
    shared := { me.shared with
      isUpgrade := upgrade
      wantMode := mode
      waitHolding := me.holding }
    pc := .wake (.acquire mode) .head }

def wakeFree (table : ConflictTable) (waiter : PerProcShared P) (preCounts : LockCounts) : Bool :=
  lcZero (lcAnd (lcSubtract preCounts waiter.waitHolding)
    (lcConflictMask table waiter.wantMode true false))

/-- The counts after a grant; the last waiter of a mode takes its wait bit along. -/
def grantCounts (waitCounts : Mode → ℤ) (wantMode : Mode) (preCounts : LockCounts) : LockCounts :=
  lcAnd (lcAdd preCounts (lcActive wantMode))
    (if waitCounts wantMode = 1 then lcSetWait lcMaskSet wantMode false else lcMaskSet)

def grant (s : State P) (proc : P) (preCounts : LockCounts) : State P :=
  (s.setCounts (grantCounts s.lock.waitCounts (s.proc proc).shared.wantMode preCounts)).modify
    proc fun q => { q with woken := true }

/-- `--waitCounts[wantMode]; *prevLink = proc->lockNext; proc->lockNext = NULL` -/
def unlink (s : State P) (prevLink : Cell P) (proc : P) : State P :=
  ((s.addWaitCount (s.proc proc).shared.wantMode (-1)).setCell prevLink
    (s.proc proc).shared.lockNext).setCell (.next proc) none

/-- After wake: gslAcquire goes to sleep, gslRelease returns; both leave the mutex. -/
def leaveWake (s : State P) (p : P) : Caller → State P
  | .acquire mode => (s.setQueueLock none).setPc p (.sleep mode)
  | .release => (s.setQueueLock none).modify p fun me => { me with lastHold := false, pc := .idle }

/-- After the decrement: update `holding` and see whether anyone has to be woken. -/
def released (table : ConflictTable) (s : State P) (p : P) (mode : Mode)
    (postCounts : LockCounts) : State P :=
  (s.setCounts postCounts).modify p fun me =>
    let holding := lcSubtract me.holding (lcActive mode)
    if lcZero (lcAnd postCounts (lcConflictMask table mode false true)) then
      { me with
        holding := holding
        lastLocalHold := lcZero holding
        lastHold := lcZero postCounts
        pc := .idle }
    else
      { me with holding := holding, lastLocalHold := lcZero holding, pc := .relMutex mode }

def findLink (cell : Memory P) (p : P) : ℕ → Cell P → Option (Cell P)
  | 0, _ => none
  | fuel + 1, prevLink =>
    match cell prevLink with
    | none => none
    | some proc => if proc = p then some prevLink else findLink cell p fuel (.next proc)

/-- "I was given the lock some time after sleep was aborted": return false. -/
def cancelGranted (s : State P) (p : P) : State P :=
  (s.setQueueLock none).modify p fun me => { me with
    holding := lcAdd me.holding (lcActive me.shared.wantMode)
    woken := false
    result := false
    pc := .idle }

/-- "I'm still on the wait list": unlink `p`, fix the wait count and return true. -/
def cancelQueued (s : State P) (p : P) (prevLink : Cell P) : State P :=
  ((unlink s prevLink p).setQueueLock none).modify p fun me => { me with
    lastLocalHold := lcZero me.holding
    result := true
    pc := .idle }

/-- gslCancel under the queue mutex; `none` is a failed assertion. -/
def cancel [Fintype P] (s : State P) (p : P) : Option (State P) :=
  if (s.proc p).shared.lockNext = none then some (cancelGranted s p)
  else
    match findLink s.cell p (Fintype.card P + 1) .head with
    | none => none
    | some prevLink =>
      if s.lock.waitCounts (s.proc p).shared.wantMode = 0 then none
      else some (cancelQueued s p prevLink)

inductive Act
  | acquire (mode : Mode) (dontWait : Bool)
  | release (mode : Mode)
  | interrupt
  | cancel
  | run
  deriving DecidableEq

def lockQueue (s : State P) (p : P) (pc : Pc P) : Option (State P) :=
  if s.lock.queueLock = none then some ((s.setQueueLock (some p)).setPc p pc) else none

def run [Fintype P] (table : ConflictTable) (s : State P) (p : P) : Option (State P) :=
  let me := s.proc p
  match me.pc with
  | .idle | .interrupted _ => none
  | .tryGet mode =>
    if conflictFree table me mode s.lock.c then some (s.setPc p (.trySet mode s.lock.c))
    else some (returnFalse s p)
  | .trySet mode preCounts =>
    if s.lock.c = preCounts then
      some (acquired (s.setCounts (lcAdd preCounts (lcActive mode))) p mode)
    else some (s.setPc p (.tryGet mode))
  | .acqGet mode => some (s.setPc p (.acqSet mode s.lock.c))
  | .acqSet mode preCounts =>
    if s.lock.c = preCounts then
      let s := s.setCounts (lcAdd preCounts (lcActive mode))
      if conflictFree table me mode preCounts then some (acquired s p mode)
      else some (s.setPc p (.acqMutex mode))
    else some (s.setPc p (.acqGet mode))
  | .acqMutex mode => lockQueue s p (.undoGet mode)
  | .undoGet mode => some (s.setPc p (.undoSet mode s.lock.c))
  | .undoSet mode preCounts =>
    if s.lock.c = preCounts then
      some ((s.setCounts (undoCounts mode preCounts)).setPc p (.enqueue mode))
    else some (s.setPc p (.undoGet mode))
  | .enqueue mode => some (Gsl.enqueue s p mode)
  | .wake caller prevLink =>
    match s.cell prevLink with
    | none => some (leaveWake s p caller)
    | some proc => some (s.setPc p (.wakeGet caller prevLink proc))
  | .wakeGet caller prevLink proc =>
    if wakeFree table (s.proc proc).shared s.lock.c then
      some (s.setPc p (.wakeSet caller prevLink proc s.lock.c))
    else if (s.proc proc).shared.isUpgrade then some (s.setPc p (.wake caller (.next proc)))
    else some (leaveWake s p caller)
  | .wakeSet caller prevLink proc preCounts =>
    if s.lock.c = preCounts then
      some ((grant s proc preCounts).setPc p (.wakeUnlink caller prevLink proc))
    else some (s.setPc p (.wakeGet caller prevLink proc))
  | .wakeUnlink caller prevLink proc =>
    some ((unlink s prevLink proc).setPc p (.wake caller prevLink))
  | .sleep mode => if me.woken then some (acquired s p mode) else none
  | .relGet mode => some (s.setPc p (.relSet mode s.lock.c))
  | .relSet mode preCounts =>
    if s.lock.c = preCounts then
      some (released table s p mode (lcSubtract preCounts (lcActive mode)))
    else some (s.setPc p (.relGet mode))
  | .relMutex _ => lockQueue s p (.wake .release .head)
  | .cancelMutex mode => lockQueue s p (.cancelLocked mode)
  | .cancelLocked _ => Gsl.cancel s p

/-- gslAcquire asserts that the mode is not held yet; gslRelease is called for
a mode the process holds. -/
def step [Fintype P] (table : ConflictTable) (s : State P) : P × Act → Option (State P)
  | (p, .acquire mode dontWait) =>
    if (s.proc p).pc = .idle ∧ lcGetActive (s.proc p).holding mode = 0 then
      some (s.setPc p (if dontWait then .tryGet mode else .acqGet mode))
    else none
  | (p, .release mode) =>
    if (s.proc p).pc = .idle ∧ lcGetActive (s.proc p).holding mode ≠ 0 then
      some (s.setPc p (.relGet mode))
    else none
  | (p, .interrupt) =>
    match (s.proc p).pc with
    | .sleep mode => some (s.setPc p (.interrupted mode))
    | _ => none
  | (p, .cancel) =>
    match (s.proc p).pc with
    | .interrupted mode => some (s.setPc p (.cancelMutex mode))
    | _ => none
  | (p, .run) => run table s p

def system [Fintype P] (table : ConflictTable) : Transition.System (State P) (P × Act) where
  initial := Initial
  step := step table

end Mosbench.Gsl
