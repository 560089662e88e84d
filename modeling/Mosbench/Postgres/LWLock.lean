import Mosbench.Lib.Links
import Mosbench.Lib.Transition

/-!
The LWLOCK_SCALABLE lightweight locks of lwlock.c: one lock and any number of
processes, each somewhere in LWLockAcquire, LWLockConditionalAcquire or
LWLockRelease. One step takes a process from one access of shared memory to the
next: an atomic update of the count, the spinlock, or a stretch of code under
that spinlock. Purely local code is part of the step before it.

A process asks for the lock only while it does not hold it. A lightweight lock
is not reentrant: its holder would queue up behind itself. The semaphore is left
out; a sleeper goes on as soon as its lwWaiting is false, which is no later than
PGSemaphoreUnlock allows it to. Statistics and traces are left out.
-/
namespace Mosbench.LW

open Option Links

variable {P : Type*}

inductive LWLockMode
  | exclusive
  | shared
  deriving DecidableEq

/-! The count: the low half counts readers and writers that are in or on their
way in, the high half counts writers and waiters downwards. -/

def activeMask : BitVec 64 := 0xffffffff#64

def unlockedValue : BitVec 64 := 0#64

def activeBias : BitVec 64 := 1#64

def waitingBias : BitVec 64 := -activeMask - 1#64

def activeReadBias : BitVec 64 := activeBias

def activeWriteBias : BitVec 64 := waitingBias + activeBias

def bias : LWLockMode → BitVec 64
  | .exclusive => activeWriteBias
  | .shared => activeReadBias

/-- The local of LWLockAcquire that turns a failed attempt into a waiter. -/
def adjustment : LWLockMode → BitVec 64
  | .exclusive => -activeBias
  | .shared => waitingBias - activeBias

/-- The test of LWLockAcquire: a writer looks at the old count, a reader at the
sign of the new one. -/
def mustwait : LWLockMode → BitVec 64 → Bool
  | .exclusive, count => count != unlockedValue
  | .shared, count => (count + activeReadBias).msb

def mustwake : LWLockMode → BitVec 64 → Bool
  | .exclusive, count => count != 0#64
  | .shared, count => count.msb

def wakeDelta (count : ℕ) : BitVec 64 :=
  BitVec.ofNat 64 count * (activeBias - waitingBias) - activeBias

/-- `LWLock`. The spinlock is its owner; `tail` means nothing while `head` is null. -/
structure LWLock (P : Type*) where
  count : BitVec 64
  mutex : Option P
  head : Option P
  tail : Option P

structure PGPROC (P : Type*) where
  lwWaiting : Bool
  lwExclusive : Bool
  lwWaitLink : Option P

inductive Caller
  | acquire (mode : LWLockMode)
  | release
  deriving DecidableEq

/--
Program points, with the local variables that outlive a step. From queueMutex
to sleep is the slow path of LWLockAcquire, relMutex and relHead are that of
LWLockRelease. The wake points are LWLockGetWakeChain: its busy check, the undo,
the test of the head and the loop over the readers behind it. wakeChain is the
loop of LWLockWakeChain.
-/
inductive Pc (P : Type*)
  | idle
  | acquire (mode : LWLockMode)
  | queueMutex (mode : LWLockMode)
  | enqueue (mode : LWLockMode)
  | adjust (mode : LWLockMode)
  | wakeAdd (caller : Caller)
  | wakeUndo (caller : Caller)
  | wakeHead (caller : Caller)
  | wakeWalk (caller : Caller) (head proc : P) (count : ℕ)
  | unlock (caller : Caller) (chain : Option P)
  | wakeChain (caller : Caller) (head : Option P)
  | sleep (mode : LWLockMode)
  | tryExclusive
  | tryShared
  | trySharedSet (result : BitVec 64)
  | release (mode : LWLockMode)
  | relMutex
  | relHead
  deriving DecidableEq

/-- A process: the entry of held_mode for this lock, what its last
LWLockConditionalAcquire returned, and where it is. -/
structure Backend (P : Type*) where
  held : Option LWLockMode
  result : Bool
  pc : Pc P
  deriving DecidableEq

structure State (P : Type*) where
  lock : LWLock P
  proc : P → PGPROC P
  backend : P → Backend P

def createLWLock : LWLock P where
  count := unlockedValue
  mutex := none
  head := none
  tail := none

structure Initial (s : State P) : Prop where
  lock : s.lock = createLWLock
  held : ∀ p, (s.backend p).held = none
  pc : ∀ p, (s.backend p).pc = .idle

def fresh : State P where
  lock := createLWLock
  proc _ := ⟨false, false, none⟩
  backend _ := ⟨none, false, .idle⟩

theorem fresh_initial : Initial (fresh : State P) :=
  ⟨rfl, fun _ => rfl, fun _ => rfl⟩

namespace Backend

def goto (b : Backend P) (pc : Pc P) : Backend P := { b with pc := pc }

def got (_b : Backend P) (mode : LWLockMode) : Backend P := ⟨some mode, true, .idle⟩

def refused (b : Backend P) : Backend P := { b with result := false, pc := .idle }

section

variable (b : Backend P)

include b

@[simp] theorem goto_pc (pc : Pc P) : (b.goto pc).pc = pc := rfl
@[simp] theorem goto_held (pc : Pc P) : (b.goto pc).held = b.held := rfl
@[simp] theorem got_pc (mode : LWLockMode) : (b.got mode).pc = .idle := rfl
@[simp] theorem got_held (mode : LWLockMode) : (b.got mode).held = some mode := rfl
@[simp] theorem refused_pc : b.refused.pc = .idle := rfl
@[simp] theorem refused_held : b.refused.held = b.held := rfl

end

end Backend

inductive Effect (P : Type*)
  | skip
  | update (delta : BitVec 64)
  | store (count : BitVec 64)
  | spinLockAcquire
  | spinLockRelease
  | enqueue (mode : LWLockMode)
  | dequeue (proc : P)
  | dequeueReaders (proc : P) (count : ℕ)
  | signal (proc : P)

namespace State

def cell (s : State P) : Memory P
  | .head => s.lock.head
  | .next p => (s.proc p).lwWaitLink

def setCount (s : State P) (count : BitVec 64) : State P :=
  { s with lock := { s.lock with count := count } }

def setMutex (s : State P) (owner : Option P) : State P :=
  { s with lock := { s.lock with mutex := owner } }

def nextReader (s : State P) (proc : P) : Option P :=
  (s.proc proc).lwWaitLink.filter fun q => !(s.proc q).lwExclusive

variable [DecidableEq P]

def modify (s : State P) (p : P) (f : PGPROC P → PGPROC P) : State P :=
  { s with proc := Function.update s.proc p (f (s.proc p)) }

def setLink (s : State P) (p : P) (v : Option P) : State P :=
  s.modify p fun proc => { proc with lwWaitLink := v }

def setBackend (s : State P) (p : P) (b : Backend P) : State P :=
  { s with backend := Function.update s.backend p b }

def enqueue (s : State P) (p : P) (mode : LWLockMode) : State P :=
  let s := s.modify p fun _ => ⟨true, mode = .exclusive, none⟩
  let s := match s.lock.head, s.lock.tail with
    | none, _ => { s with lock := { s.lock with head := some p } }
    | some _, some tail => s.setLink tail (some p)
    | some _, none => s
  { s with lock := { s.lock with tail := some p } }

/-- The end of LWLockGetWakeChain: `proc` is the last one to be released. -/
def dequeue (s : State P) (proc : P) : State P :=
  ({ s with lock := { s.lock with head := (s.proc proc).lwWaitLink } }).setLink proc none

def signal (s : State P) (proc : P) : State P :=
  s.modify proc fun pgproc => { pgproc with lwWaiting := false, lwWaitLink := none }

end State

variable [DecidableEq P]

def Effect.apply (s : State P) (p : P) : Effect P → State P
  | .skip => s
  | .update delta => s.setCount (s.lock.count + delta)
  | .store count => s.setCount count
  | .spinLockAcquire => s.setMutex (some p)
  | .spinLockRelease => s.setMutex none
  | .enqueue mode => s.enqueue p mode
  | .dequeue proc => s.dequeue proc
  | .dequeueReaders proc count => (s.setCount (s.lock.count + wakeDelta count)).dequeue proc
  | .signal proc => s.signal proc

omit [DecidableEq P] in
def runNext (s : State P) (p : P) : Option (Effect P × Backend P) :=
  let b := s.backend p
  let count := s.lock.count
  match b.pc with
  | .idle => none
  | .acquire mode =>
    if mustwait mode count then some (.update (bias mode), b.goto (.queueMutex mode))
    else some (.update (bias mode), b.got mode)
  | .queueMutex mode =>
    match s.lock.mutex with
    | none => some (.spinLockAcquire, b.goto (.enqueue mode))
    | some _ => none
  | .enqueue mode => some (.enqueue mode, b.goto (.adjust mode))
  | .adjust mode =>
    if (count + adjustment mode) &&& activeMask = 0#64 then
      some (.update (adjustment mode), b.goto (.wakeAdd (.acquire mode)))
    else some (.update (adjustment mode), b.goto (.unlock (.acquire mode) none))
  | .wakeAdd caller =>
    let old := count + activeBias - activeBias
    if old &&& activeMask = 0#64 then some (.update activeBias, b.goto (.wakeHead caller))
    else some (.update activeBias, b.goto (.wakeUndo caller))
  | .wakeUndo caller =>
    let old := count + -activeBias
    if old ≠ 0#64 then some (.update (-activeBias), b.goto (.unlock caller none))
    else some (.update (-activeBias), b.goto (.wakeAdd caller))
  | .wakeHead caller =>
    match s.lock.head with
    | none => none
    | some head =>
      if (s.proc head).lwExclusive then some (.dequeue head, b.goto (.unlock caller (some head)))
      else some (.skip, b.goto (.wakeWalk caller head head 1))
  | .wakeWalk caller head proc n =>
    match s.nextReader proc with
    | some q => some (.skip, b.goto (.wakeWalk caller head q (n + 1)))
    | none => some (.dequeueReaders proc n, b.goto (.unlock caller (some head)))
  | .unlock caller chain => some (.spinLockRelease, b.goto (.wakeChain caller chain))
  | .wakeChain caller (some proc) =>
    some (.signal proc, b.goto (.wakeChain caller (s.proc proc).lwWaitLink))
  | .wakeChain (.acquire mode) none => some (.skip, b.goto (.sleep mode))
  | .wakeChain .release none => some (.skip, b.goto .idle)
  | .sleep mode => if (s.proc p).lwWaiting then none else some (.skip, b.got mode)
  | .tryExclusive =>
    if count = unlockedValue then some (.store activeWriteBias, b.got .exclusive)
    else some (.skip, b.refused)
  | .tryShared => some (.skip, b.goto (.trySharedSet count))
  | .trySharedSet result =>
    if result.toInt + 1 ≤ 0 then some (.skip, b.refused)
    else if count = result then some (.store (result + activeReadBias), b.got .shared)
    else some (.skip, b.goto (.trySharedSet count))
  | .release mode =>
    if mustwake mode (count + -bias mode) then some (.update (-bias mode), b.goto .relMutex)
    else some (.update (-bias mode), b.goto .idle)
  | .relMutex =>
    match s.lock.mutex with
    | none => some (.spinLockAcquire, b.goto .relHead)
    | some _ => none
  | .relHead =>
    match s.lock.head with
    | some _ => some (.skip, b.goto (.wakeAdd .release))
    | none => some (.skip, b.goto (.unlock .release none))

inductive Act
  | acquire (mode : LWLockMode)
  | conditionalAcquire (mode : LWLockMode)
  | release
  | run
  deriving DecidableEq

omit [DecidableEq P] in
/-- LWLockRelease of a lock that is not held reports an error and changes nothing. -/
def next (s : State P) : P × Act → Option (Effect P × Backend P)
  | (p, .acquire mode) =>
    let b := s.backend p
    match b.pc, b.held with
    | .idle, none => some (.skip, b.goto (.acquire mode))
    | _, _ => none
  | (p, .conditionalAcquire mode) =>
    let b := s.backend p
    match b.pc, b.held, mode with
    | .idle, none, .exclusive => some (.skip, b.goto .tryExclusive)
    | .idle, none, .shared => some (.skip, b.goto .tryShared)
    | _, _, _ => none
  | (p, .release) =>
    let b := s.backend p
    match b.pc, b.held with
    | .idle, some mode => some (.skip, { b with held := none, pc := .release mode })
    | _, _ => none
  | (p, .run) => runNext s p

def step (s : State P) (x : P × Act) : Option (State P) :=
  (next s x).map fun r => (r.1.apply s x.1).setBackend x.1 r.2

def system : Transition.System (State P) (P × Act) where
  initial := Initial
  step := step

inductive Move (s : State P) (p : P) : Effect P → Backend P → Prop
  | acquire (hpc : (s.backend p).pc = .idle) (hheld : (s.backend p).held = none) :
      Move s p .skip ((s.backend p).goto (.acquire m))
  | tryExclusive (hpc : (s.backend p).pc = .idle) (hheld : (s.backend p).held = none) :
      Move s p .skip ((s.backend p).goto .tryExclusive)
  | tryShared (hpc : (s.backend p).pc = .idle) (hheld : (s.backend p).held = none) :
      Move s p .skip ((s.backend p).goto .tryShared)
  | release (hpc : (s.backend p).pc = .idle) (hheld : (s.backend p).held = some m) :
      Move s p .skip { s.backend p with held := none, pc := .release m }
  | failed (hpc : (s.backend p).pc = .acquire m) (hwait : mustwait m s.lock.count = true) :
      Move s p (.update (bias m)) ((s.backend p).goto (.queueMutex m))
  | acquired (hpc : (s.backend p).pc = .acquire m) (hwait : mustwait m s.lock.count = false) :
      Move s p (.update (bias m)) ((s.backend p).got m)
  | queueMutex (hpc : (s.backend p).pc = .queueMutex m) (hfree : s.lock.mutex = none) :
      Move s p .spinLockAcquire ((s.backend p).goto (.enqueue m))
  | enqueue (hpc : (s.backend p).pc = .enqueue m) :
      Move s p (.enqueue m) ((s.backend p).goto (.adjust m))
  | adjustIdle (hpc : (s.backend p).pc = .adjust m)
      (hidle : (s.lock.count + adjustment m) &&& activeMask = 0#64) :
      Move s p (.update (adjustment m)) ((s.backend p).goto (.wakeAdd (.acquire m)))
  | adjustBusy (hpc : (s.backend p).pc = .adjust m)
      (hbusy : (s.lock.count + adjustment m) &&& activeMask ≠ 0#64) :
      Move s p (.update (adjustment m)) ((s.backend p).goto (.unlock (.acquire m) none))
  | wakeIdle (hpc : (s.backend p).pc = .wakeAdd c) (hidle : s.lock.count &&& activeMask = 0#64) :
      Move s p (.update activeBias) ((s.backend p).goto (.wakeHead c))
  | wakeBusy (hpc : (s.backend p).pc = .wakeAdd c) (hbusy : s.lock.count &&& activeMask ≠ 0#64) :
      Move s p (.update activeBias) ((s.backend p).goto (.wakeUndo c))
  | giveUp (hpc : (s.backend p).pc = .wakeUndo c) (hused : s.lock.count + -activeBias ≠ 0#64) :
      Move s p (.update (-activeBias)) ((s.backend p).goto (.unlock c none))
  | again (hpc : (s.backend p).pc = .wakeUndo c) (hunused : s.lock.count + -activeBias = 0#64) :
      Move s p (.update (-activeBias)) ((s.backend p).goto (.wakeAdd c))
  | wakeWriter (hpc : (s.backend p).pc = .wakeHead c)
      (hhead : s.lock.head = some x) (hx : (s.proc x).lwExclusive = true) :
      Move s p (.dequeue x) ((s.backend p).goto (.unlock c (some x)))
  | wakeReader (hpc : (s.backend p).pc = .wakeHead c)
      (hhead : s.lock.head = some x) (hx : (s.proc x).lwExclusive = false) :
      Move s p .skip ((s.backend p).goto (.wakeWalk c x x 1))
  | walk {c : Caller} {h x y : P} {n : ℕ} (hpc : (s.backend p).pc = .wakeWalk c h x n)
      (hlink : (s.proc x).lwWaitLink = some y) (hy : (s.proc y).lwExclusive = false) :
      Move s p .skip ((s.backend p).goto (.wakeWalk c h y (n + 1)))
  | wakeReaders (hpc : (s.backend p).pc = .wakeWalk c h x n) (hlast : s.nextReader x = none) :
      Move s p (.dequeueReaders x n) ((s.backend p).goto (.unlock c (some h)))
  | unlock (hpc : (s.backend p).pc = .unlock c chain) :
      Move s p .spinLockRelease ((s.backend p).goto (.wakeChain c chain))
  | signal (hpc : (s.backend p).pc = .wakeChain c (some x)) :
      Move s p (.signal x) ((s.backend p).goto (.wakeChain c (s.proc x).lwWaitLink))
  | sleep (hpc : (s.backend p).pc = .wakeChain (.acquire m) none) :
      Move s p .skip ((s.backend p).goto (.sleep m))
  | released (hpc : (s.backend p).pc = .wakeChain .release none) :
      Move s p .skip ((s.backend p).goto .idle)
  | resume (hpc : (s.backend p).pc = .sleep m) (hwoken : (s.proc p).lwWaiting = false) :
      Move s p .skip ((s.backend p).got m)
  | tryGot (hpc : (s.backend p).pc = .tryExclusive) (hfree : s.lock.count = unlockedValue) :
      Move s p (.store activeWriteBias) ((s.backend p).got .exclusive)
  | tryRefused (hpc : (s.backend p).pc = .tryExclusive ∨
      ∃ result, (s.backend p).pc = .trySharedSet result) :
      Move s p .skip (s.backend p).refused
  | tryRead (hpc : (s.backend p).pc = .tryShared ∨ ∃ result, (s.backend p).pc = .trySharedSet result) :
      Move s p .skip ((s.backend p).goto (.trySharedSet s.lock.count))
  | trySharedGot (hpc : (s.backend p).pc = .trySharedSet s.lock.count)
      (hpos : ¬ s.lock.count.toInt + 1 ≤ 0) :
      Move s p (.store (s.lock.count + activeReadBias)) ((s.backend p).got .shared)
  | lowered (hpc : (s.backend p).pc = .release m)
      (hwake : mustwake m (s.lock.count + -bias m) = false) :
      Move s p (.update (-bias m)) ((s.backend p).goto .idle)
  | loweredWake (hpc : (s.backend p).pc = .release m)
      (hwake : mustwake m (s.lock.count + -bias m) = true) :
      Move s p (.update (-bias m)) ((s.backend p).goto .relMutex)
  | relMutex (hpc : (s.backend p).pc = .relMutex) (hfree : s.lock.mutex = none) :
      Move s p .spinLockAcquire ((s.backend p).goto .relHead)
  | relWake (hpc : (s.backend p).pc = .relHead) (hhead : s.lock.head ≠ none) :
      Move s p .skip ((s.backend p).goto (.wakeAdd .release))
  | relEmpty (hpc : (s.backend p).pc = .relHead) (hhead : s.lock.head = none) :
      Move s p .skip ((s.backend p).goto (.unlock .release none))

section

variable {t : State P}

section

omit [DecidableEq P]

theorem move_of_wakeHead
    (hpc : (s.backend p).pc = .wakeHead c) (h : runNext s p = some r) : Move s p r.1 r.2 := by
  simp only [runNext, hpc] at h
  cases hhead : s.lock.head with
  | none => simp [hhead] at h
  | some x =>
    simp only [hhead] at h
    split at h
    · next hx => exact some.inj h ▸ .wakeWriter hpc hhead hx
    · next hx => exact some.inj h ▸ .wakeReader hpc hhead (by simpa using hx)

theorem move_of_wakeWalk (hpc : (s.backend p).pc = .wakeWalk c h x n) (hr : runNext s p = some r) :
    Move s p r.1 r.2 := by
  simp only [runNext, hpc] at hr
  cases hnext : s.nextReader x <;> rw [hnext] at hr
  · exact some.inj hr ▸ .wakeReaders hpc hnext
  · obtain ⟨hlink, hy⟩ := filter_eq_some_iff.mp hnext
    exact some.inj hr ▸ .walk hpc hlink (by simpa using hy)

theorem move_of_wakeChain
    (hpc : (s.backend p).pc = .wakeChain c head) (h : runNext s p = some r) : Move s p r.1 r.2 := by
  cases head with
  | some x =>
    simp only [runNext, hpc, some.injEq] at h
    exact h ▸ .signal hpc
  | none =>
    cases c <;> simp only [runNext, hpc, some.injEq] at h
    · exact h ▸ .sleep hpc
    · exact h ▸ .released hpc

theorem move_of_trySharedSet
    (hpc : (s.backend p).pc = .trySharedSet result) (h : runNext s p = some r) :
    Move s p r.1 r.2 := by
  simp only [runNext, hpc] at h
  split at h
  · exact some.inj h ▸ .tryRefused (Or.inr ⟨result, hpc⟩)
  · next hpos =>
    split at h
    · next hsame =>
      subst hsame
      exact some.inj h ▸ .trySharedGot hpc hpos
    · exact some.inj h ▸ .tryRead (Or.inr ⟨result, hpc⟩)

theorem move_of_runNext (h : runNext s p = some r) : Move s p r.1 r.2 := by
  cases hpc : (s.backend p).pc
  case wakeHead c => exact move_of_wakeHead hpc h
  case wakeWalk c x y n => exact move_of_wakeWalk hpc h
  case wakeChain c head => exact move_of_wakeChain hpc h
  case trySharedSet result => exact move_of_trySharedSet hpc h
  all_goals simp only [runNext, hpc, BitVec.add_sub_cancel, reduceCtorEq] at h
  case acquire m =>
    rcases ite_eq_iff.mp h with ⟨hwait, ⟨⟩⟩ | ⟨hwait, ⟨⟩⟩
    · exact .failed hpc hwait
    · exact .acquired hpc (by simpa using hwait)
  case queueMutex m =>
    split at h
    · next hfree => exact some.inj h ▸ .queueMutex hpc hfree
    · cases h
  case enqueue m => exact some.inj h ▸ .enqueue hpc
  case adjust m =>
    rcases ite_eq_iff.mp h with ⟨hidle, ⟨⟩⟩ | ⟨hbusy, ⟨⟩⟩
    · exact .adjustIdle hpc hidle
    · exact .adjustBusy hpc hbusy
  case wakeAdd c =>
    rcases ite_eq_iff.mp h with ⟨hidle, ⟨⟩⟩ | ⟨hbusy, ⟨⟩⟩
    · exact .wakeIdle hpc hidle
    · exact .wakeBusy hpc hbusy
  case wakeUndo c =>
    rcases ite_eq_iff.mp h with ⟨hused, ⟨⟩⟩ | ⟨hunused, ⟨⟩⟩
    · exact .giveUp hpc hused
    · exact .again hpc (by simpa using hunused)
  case unlock c chain => exact some.inj h ▸ .unlock hpc
  case sleep m =>
    obtain ⟨-, ⟨⟩⟩ | ⟨hwoken, ⟨⟩⟩ := ite_eq_iff.mp h
    exact .resume hpc (by simpa using hwoken)
  case tryExclusive =>
    rcases ite_eq_iff.mp h with ⟨hfree, ⟨⟩⟩ | ⟨-, ⟨⟩⟩
    · exact .tryGot hpc hfree
    · exact .tryRefused (Or.inl hpc)
  case tryShared => exact some.inj h ▸ .tryRead (Or.inl hpc)
  case release m =>
    rcases ite_eq_iff.mp h with ⟨hwake, ⟨⟩⟩ | ⟨hwake, ⟨⟩⟩
    · exact .loweredWake hpc hwake
    · exact .lowered hpc (by simpa using hwake)
  case relMutex =>
    split at h
    · next hfree => exact some.inj h ▸ .relMutex hpc hfree
    · cases h
  case relHead =>
    split at h
    · next hhead => exact some.inj h ▸ .relWake hpc (by simp [hhead])
    · next hhead => exact some.inj h ▸ .relEmpty hpc hhead

theorem move_of_next (h : next s (p, x) = some r) : Move s p r.1 r.2 := by
  cases x with
  | acquire m =>
    simp only [next] at h
    split at h
    · next hpc hheld => exact some.inj h ▸ .acquire hpc hheld
    · cases h
  | conditionalAcquire m =>
    simp only [next] at h
    split at h
    · next hpc hheld => exact some.inj h ▸ .tryExclusive hpc hheld
    · next hpc hheld => exact some.inj h ▸ .tryShared hpc hheld
    · cases h
  | release =>
    simp only [next] at h
    split at h
    · next hpc hheld => exact some.inj h ▸ .release hpc hheld
    · cases h
  | run => exact move_of_runNext h

end

theorem move_of_step (h : step s x = some t) :
    ∃ e b, Move s x.1 e b ∧ t = (e.apply s x.1).setBackend x.1 b := by
  obtain ⟨r, hr, rfl⟩ := map_eq_some_iff.mp h
  exact ⟨r.1, r.2, move_of_next (x := x.2) hr, rfl⟩

end

end Mosbench.LW
