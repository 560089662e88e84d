import Mosbench.Gsl.Lock

/-!
The shared lock table of lock.c (LOCK_SCALABLE) for one lock tag: LockAcquire,
LockRelease with CleanUpLock, and the pins that ProcSleep drops and takes back.
The entry of the tag lives at an address that HASH_ENTER chooses, and memory
keeps its content after HASH_REMOVE. The GSL lock inside an entry is the model
of gsl-impl.h, with the partition lock as its queue mutex.

One step is one access of shared memory: the partition lock, the hash table, a
pin, or a step of gslAcquire or gslRelease. Interrupts, statistics and the
hash table of per-lock holding words are left out; a missing holding word is a
zero one.
-/
namespace Mosbench.Postgres

open Option

open Gsl (Mode LockCounts ConflictTable)

variable {P A : Type*}

structure Entry (P : Type*) where
  gsl : Gsl.State P
  pins : ℤ

structure LocalLock (A : Type*) where
  lock : A
  nLocks : ℕ
  deriving DecidableEq

/--
Program points of LockAcquire, ProcSleep, LockRelease and CleanUpLock, named
by the shared access that comes next; `a` is the local variable lock.
-/
inductive Pc (A : Type*)
  | idle
  | lockShared (mode : Mode) (dontWait : Bool)
  | lookup (mode : Mode) (dontWait : Bool)
  | pinFound (a : A) (mode : Mode) (dontWait : Bool)
  | unlockFound (a : A) (mode : Mode) (dontWait : Bool)
  | unlockMissing (mode : Mode) (dontWait : Bool)
  | lockCreate (mode : Mode) (dontWait : Bool)
  | create (mode : Mode) (dontWait : Bool)
  | pinCreated (a : A) (mode : Mode) (dontWait : Bool)
  | unlockCreated (a : A) (mode : Mode) (dontWait : Bool)
  | callAcquire (a : A) (mode : Mode) (dontWait : Bool)
  | acquire (a : A) (mode : Mode)
  | sleepUnpin (a : A) (mode : Mode)
  | sleepUnlock (a : A) (mode : Mode)
  | asleep (a : A) (mode : Mode)
  | acquireUnpin (a : A) (mode : Mode) (status : Bool)
  | releasePin (a : A) (mode : Mode)
  | callRelease (a : A) (mode : Mode)
  | release (a : A) (mode : Mode)
  | cleanUp (a : A) (lastHold : Bool)
  | cleanUpUnpin (a : A)
  | cleanUpTest (a : A)
  | cleanUpRemove (a : A)
  | cleanUpUnlock
  | panicked
  deriving DecidableEq

structure Backend (A : Type*) where
  pc : Pc A
  locallock : Mode → Option (LocalLock A)

/-- `table` is what HASH_FIND returns for the tag. The partition lock has a
writer or readers. -/
structure State (P A : Type*) where
  table : Option A
  entry : A → Entry P
  writer : Option P
  readers : P → Bool
  backend : P → Backend A

structure Initial (s : State P A) : Prop where
  table : s.table = none
  gsl : ∀ a, Gsl.Initial (s.entry a).gsl
  pins : ∀ a, (s.entry a).pins = 0
  writer : s.writer = none
  readers : ∀ p, s.readers p = false
  pc : ∀ p, (s.backend p).pc = .idle
  locallock : ∀ p m, (s.backend p).locallock m = none

def fresh : State P A where
  table := none
  entry _ := ⟨Gsl.fresh, 0⟩
  writer := none
  readers _ := false
  backend _ := ⟨.idle, fun _ => none⟩

theorem fresh_initial : Initial (fresh : State P A) :=
  ⟨rfl, fun _ => Gsl.fresh_initial, fun _ => rfl, rfl, fun _ => rfl, fun _ => rfl, fun _ _ => rfl⟩

inductive Effect (P A : Type*)
  | skip
  | lockShared
  | unlockShared
  | lockExclusive
  | unlockExclusive
  | pin (a : A)
  | unpin (a : A)
  | create (a : A)
  | remove
  | gsl (a : A) (g : Gsl.State P)
  | gslLock (a : A) (g : Gsl.State P)
  | gslUnlock (a : A) (g : Gsl.State P)

variable [DecidableEq P] [DecidableEq A]

namespace State

def setEntry (s : State P A) (a : A) (e : Entry P) : State P A :=
  { s with entry := Function.update s.entry a e }

def setGsl (s : State P A) (a : A) (g : Gsl.State P) : State P A :=
  s.setEntry a { s.entry a with gsl := g }

def addPins (s : State P A) (a : A) (d : ℤ) : State P A :=
  s.setEntry a { s.entry a with pins := (s.entry a).pins + d }

def setBackend (s : State P A) (p : P) (b : Backend A) : State P A :=
  { s with backend := Function.update s.backend p b }

/-- gslLockInit of a new entry; the pin count is not touched. -/
def initEntry (s : State P A) (a : A) : State P A :=
  s.setGsl a { (s.entry a).gsl with lock := Gsl.gslLockInit }

def setReader (s : State P A) (p : P) (b : Bool) : State P A :=
  { s with readers := Function.update s.readers p b }

end State

def Unlocked [Fintype P] (s : State P A) : Prop := s.writer = none ∧ ∀ q, s.readers q = false

instance [Fintype P] (s : State P A) : Decidable (Unlocked s) := inferInstanceAs (Decidable (_ ∧ _))

def Effect.apply (s : State P A) (p : P) : Effect P A → State P A
  | .skip => s
  | .lockShared => s.setReader p true
  | .unlockShared => s.setReader p false
  | .lockExclusive => { s with writer := some p }
  | .unlockExclusive => { s with writer := none }
  | .pin a => s.addPins a 1
  | .unpin a => s.addPins a (-1)
  | .create a => { s.initEntry a with table := some a }
  | .remove => { s with table := none }
  | .gsl a g => s.setGsl a g
  | .gslLock a g => { s.setGsl a g with writer := some p }
  | .gslUnlock a g => { s.setGsl a g with writer := none }

section

theorem apply_backend (s : State P A) (p : P) (e : Effect P A) :
    (e.apply s p).backend = s.backend := by
  cases e <;> rfl

namespace State

variable {s : State P A}

omit [DecidableEq A]

@[simp] theorem setBackend_table : (s.setBackend p b).table = s.table := rfl
@[simp] theorem setBackend_self : (s.setBackend p b).backend p = b := Function.update_self ..

theorem setBackend_of_ne (hq : q ≠ p) : (s.setBackend p b).backend q = s.backend q :=
  Function.update_of_ne hq ..

omit [DecidableEq P]
variable [DecidableEq A]

theorem setGsl_gsl (s : State P A) (a a' : A) (g : Gsl.State P) :
    ((s.setGsl a g).entry a').gsl = if a' = a then g else (s.entry a').gsl := by
  by_cases ha : a' = a
  · subst a'
    simp [setGsl, setEntry]
  · simp [setGsl, setEntry, ha]

theorem addPins_gsl (s : State P A) (a a' : A) (d : ℤ) :
    ((s.addPins a d).entry a').gsl = (s.entry a').gsl := by
  by_cases ha : a' = a
  · subst a'
    simp [addPins, setEntry]
  · simp [addPins, setEntry, ha]

theorem setGsl_pins (s : State P A) (a a' : A) (g : Gsl.State P) :
    ((s.setGsl a g).entry a').pins = (s.entry a').pins := by
  by_cases ha : a' = a
  · subst a'
    simp [setGsl, setEntry]
  · simp [setGsl, setEntry, ha]

theorem addPins_pins (s : State P A) (a a' : A) (d : ℤ) :
    ((s.addPins a d).entry a').pins = (s.entry a').pins + if a' = a then d else 0 := by
  by_cases ha : a' = a
  · subst a'
    simp [addPins, setEntry]
  · simp [addPins, setEntry, ha]

end State

end

namespace Backend

def goto (b : Backend A) (pc : Pc A) : Backend A := { b with pc := pc }

def setLocal (b : Backend A) (m : Mode) (l : Option (LocalLock A)) : Backend A :=
  { b with locallock := Function.update b.locallock m l }

omit [DecidableEq A]

@[simp] theorem goto_pc (b : Backend A) (pc : Pc A) : (b.goto pc).pc = pc := rfl
@[simp] theorem goto_locallock (b : Backend A) (pc : Pc A) :
    (b.goto pc).locallock = b.locallock := rfl
@[simp] theorem setLocal_pc (b : Backend A) (m : Mode) (l : Option (LocalLock A)) :
    (b.setLocal m l).pc = b.pc := rfl

theorem setLocal_locallock (b : Backend A) (m k : Mode) (l : Option (LocalLock A)) :
    (b.setLocal m l).locallock k = if k = m then l else b.locallock k := by
  by_cases hk : k = m
  · subst k
    simp [setLocal]
  · simp [setLocal, hk]

end Backend

inductive Act (A : Type*)
  | acquire (mode : Mode) (dontWait : Bool)
  | release (mode : Mode)
  | create (a : A)
  | run
  deriving DecidableEq

/-- The point after a step of gslAcquire or gslRelease that left the GSL lock in `me`. -/
def afterGsl (pc : Pc A) (me : Gsl.Proc P) : Pc A :=
  match pc, me.pc with
  | .acquire a mode, .idle => .acquireUnpin a mode me.result
  | .acquire a mode, .sleep _ => .sleepUnpin a mode
  | .release a _, .idle => .cleanUp a me.lastHold
  | pc, _ => pc

/-- One step of the GSL call that `p` is in, on the entry at `a`. Its queue
mutex is the partition lock, which gslAcquire hands over to ProcSleep. -/
def gslNext [Fintype P] (conflicts : ConflictTable) (s : State P A) (p : P) (a : A) :
    Option (Effect P A × Backend A) :=
  match Gsl.run conflicts (s.entry a).gsl p with
  | none => none
  | some g =>
    let b := s.backend p
    let b' := b.goto (afterGsl b.pc (g.proc p))
    if g.lock.queueLock = (s.entry a).gsl.lock.queueLock then some (.gsl a g, b')
    else if g.lock.queueLock = some p then
      if Unlocked s then some (.gslLock a g, b') else none
    else
      match b.pc with
      | .release _ _ => some (.gslUnlock a g, b')
      | _ => some (.gsl a g, b')

def runNext [Fintype P] (conflicts : ConflictTable) (s : State P A) (p : P) :
    Option (Effect P A × Backend A) :=
  let b := s.backend p
  match b.pc with
  | .idle | .create _ _ | .panicked => none
  | .lockShared mode dontWait =>
    if s.writer = none then some (.lockShared, b.goto (.lookup mode dontWait)) else none
  | .lookup mode dontWait =>
    match s.table with
    | some a => some (.skip, b.goto (.pinFound a mode dontWait))
    | none => some (.skip, b.goto (.unlockMissing mode dontWait))
  | .pinFound a mode dontWait => some (.pin a, b.goto (.unlockFound a mode dontWait))
  | .unlockFound a mode dontWait => some (.unlockShared, b.goto (.callAcquire a mode dontWait))
  | .unlockMissing mode dontWait => some (.unlockShared, b.goto (.lockCreate mode dontWait))
  | .lockCreate mode dontWait =>
    if Unlocked s then some (.lockExclusive, b.goto (.create mode dontWait)) else none
  | .pinCreated a mode dontWait => some (.pin a, b.goto (.unlockCreated a mode dontWait))
  | .unlockCreated a mode dontWait =>
    some (.unlockExclusive, b.goto (.callAcquire a mode dontWait))
  | .callAcquire a mode dontWait =>
    (Gsl.step conflicts (s.entry a).gsl (p, .acquire mode dontWait)).map fun g =>
      (.gsl a g, b.goto (.acquire a mode))
  | .acquire a _ => gslNext conflicts s p a
  | .sleepUnpin a mode => some (.unpin a, b.goto (.sleepUnlock a mode))
  | .sleepUnlock a mode => some (.unlockExclusive, b.goto (.asleep a mode))
  | .asleep a mode =>
    if ((s.entry a).gsl.proc p).woken then some (.pin a, b.goto (.acquire a mode)) else none
  | .acquireUnpin a mode status =>
    if status then some (.unpin a, (b.setLocal mode (some ⟨a, 1⟩)).goto .idle)
    else some (.unpin a, b.goto .idle)
  | .releasePin a mode => some (.pin a, b.goto (.callRelease a mode))
  | .callRelease a mode =>
    (Gsl.step conflicts (s.entry a).gsl (p, .release mode)).map fun g =>
      (.gsl a g, b.goto (.release a mode))
  | .release a _ => gslNext conflicts s p a
  | .cleanUp a lastHold =>
    if lastHold then
      if Unlocked s then some (.lockExclusive, b.goto (.cleanUpUnpin a)) else none
    else some (.unpin a, b.goto .idle)
  | .cleanUpUnpin a =>
    if (s.entry a).pins - 1 > 0 then some (.unpin a, b.goto .cleanUpUnlock)
    else some (.unpin a, b.goto (.cleanUpTest a))
  | .cleanUpTest a =>
    if Gsl.lcNonZero (s.entry a).gsl.lock.c then some (.skip, b.goto .cleanUpUnlock)
    else some (.skip, b.goto (.cleanUpRemove a))
  | .cleanUpRemove _ =>
    if s.table = none then some (.skip, b.goto .panicked)
    else some (.remove, b.goto .cleanUpUnlock)
  | .cleanUpUnlock => some (.unlockExclusive, b.goto .idle)

/-- A backend that already has the mode, or gives back one of several grabs of
it, only counts in its LOCALLOCK. -/
def next [Fintype P] (conflicts : ConflictTable) (s : State P A) :
    P × Act A → Option (Effect P A × Backend A)
  | (p, .acquire mode dontWait) =>
    let b := s.backend p
    if b.pc = .idle then
      match b.locallock mode with
      | some l => some (.skip, b.setLocal mode (some ⟨l.lock, l.nLocks + 1⟩))
      | none => some (.skip, b.goto (.lockShared mode dontWait))
    else none
  | (p, .release mode) =>
    let b := s.backend p
    if b.pc = .idle then
      match b.locallock mode with
      | some l =>
        if l.nLocks - 1 > 0 then some (.skip, b.setLocal mode (some ⟨l.lock, l.nLocks - 1⟩))
        else some (.skip, (b.setLocal mode none).goto (.releasePin l.lock mode))
      | none => none
    else none
  | (p, .create fresh) =>
    let b := s.backend p
    match b.pc with
    | .create mode dontWait =>
      match s.table with
      | some a => some (.skip, b.goto (.pinCreated a mode dontWait))
      | none => some (.create fresh, b.goto (.pinCreated fresh mode dontWait))
    | _ => none
  | (p, .run) => runNext conflicts s p

def step [Fintype P] (conflicts : ConflictTable) (s : State P A) (x : P × Act A) :
    Option (State P A) :=
  (next conflicts s x).map fun r => (r.1.apply s x.1).setBackend x.1 r.2

def system [Fintype P] (conflicts : ConflictTable) : Transition.System (State P A) (P × Act A) where
  initial := Initial
  step := step conflicts

/-- A step inside gslAcquire or gslRelease: the queue mutex stays as it is, is
taken together with the partition lock, is left to ProcSleep, or is given back. -/
inductive GslMove [Fintype P] (s : State P A) (p : P) (a : A) (g : Gsl.State P) : Effect P A → Prop
  | inside (hq : g.lock.queueLock = (s.entry a).gsl.lock.queueLock) : GslMove s p a g (.gsl a g)
  | lock (hne : g.lock.queueLock ≠ (s.entry a).gsl.lock.queueLock)
      (hq : g.lock.queueLock = some p) (hfree : Unlocked s) : GslMove s p a g (.gslLock a g)
  | sleep (hpc : (s.backend p).pc = .acquire a mode)
      (hne : g.lock.queueLock ≠ (s.entry a).gsl.lock.queueLock)
      (hq : g.lock.queueLock ≠ some p) : GslMove s p a g (.gsl a g)
  | unlock (hpc : (s.backend p).pc = .release a mode)
      (hne : g.lock.queueLock ≠ (s.entry a).gsl.lock.queueLock)
      (hq : g.lock.queueLock ≠ some p) : GslMove s p a g (.gslUnlock a g)

inductive Move [Fintype P] (conflicts : ConflictTable) (s : State P A) (p : P) :
    Effect P A → Backend A → Prop
  | count (hpc : (s.backend p).pc = .idle) (hl : (s.backend p).locallock m = some l) :
      Move conflicts s p .skip ((s.backend p).setLocal m (some ⟨l.lock, n⟩))
  | acquire (hpc : (s.backend p).pc = .idle) (hl : (s.backend p).locallock m = none) :
      Move conflicts s p .skip ((s.backend p).goto (.lockShared m d))
  | release (hpc : (s.backend p).pc = .idle) (hl : (s.backend p).locallock m = some l) :
      Move conflicts s p .skip (((s.backend p).setLocal m none).goto (.releasePin l.lock m))
  | lockShared (hpc : (s.backend p).pc = .lockShared m d) (hfree : s.writer = none) :
      Move conflicts s p .lockShared ((s.backend p).goto (.lookup m d))
  | found {a : A} {m : Mode} {d : Bool} (hpc : (s.backend p).pc = .lookup m d)
      (ht : s.table = some a) :
      Move conflicts s p .skip ((s.backend p).goto (.pinFound a m d))
  | missing (hpc : (s.backend p).pc = .lookup m d) (ht : s.table = none) :
      Move conflicts s p .skip ((s.backend p).goto (.unlockMissing m d))
  | pinFound (hpc : (s.backend p).pc = .pinFound a m d) :
      Move conflicts s p (.pin a) ((s.backend p).goto (.unlockFound a m d))
  | unlockFound (hpc : (s.backend p).pc = .unlockFound a m d) :
      Move conflicts s p .unlockShared ((s.backend p).goto (.callAcquire a m d))
  | unlockMissing (hpc : (s.backend p).pc = .unlockMissing m d) :
      Move conflicts s p .unlockShared ((s.backend p).goto (.lockCreate m d))
  | lockCreate (hpc : (s.backend p).pc = .lockCreate m d) (hfree : Unlocked s) :
      Move conflicts s p .lockExclusive ((s.backend p).goto (.create m d))
  | createFound {a : A} {m : Mode} {d : Bool} (hpc : (s.backend p).pc = .create m d)
      (ht : s.table = some a) :
      Move conflicts s p .skip ((s.backend p).goto (.pinCreated a m d))
  | create {a : A} {m : Mode} {d : Bool} (hpc : (s.backend p).pc = .create m d)
      (ht : s.table = none) :
      Move conflicts s p (.create a) ((s.backend p).goto (.pinCreated a m d))
  | pinCreated (hpc : (s.backend p).pc = .pinCreated a m d) :
      Move conflicts s p (.pin a) ((s.backend p).goto (.unlockCreated a m d))
  | unlockCreated (hpc : (s.backend p).pc = .unlockCreated a m d) :
      Move conflicts s p .unlockExclusive ((s.backend p).goto (.callAcquire a m d))
  | callAcquire (hpc : (s.backend p).pc = .callAcquire a m d)
      (hg : Gsl.step conflicts (s.entry a).gsl (p, .acquire m d) = some g) :
      Move conflicts s p (.gsl a g) ((s.backend p).goto (.acquire a m))
  | gsl (hpc : (s.backend p).pc = .acquire a m ∨ (s.backend p).pc = .release a m)
      (hg : Gsl.run conflicts (s.entry a).gsl p = some g) (he : GslMove s p a g e) :
      Move conflicts s p e ((s.backend p).goto (afterGsl (s.backend p).pc (g.proc p)))
  | sleepUnpin (hpc : (s.backend p).pc = .sleepUnpin a m) :
      Move conflicts s p (.unpin a) ((s.backend p).goto (.sleepUnlock a m))
  | sleepUnlock (hpc : (s.backend p).pc = .sleepUnlock a m) :
      Move conflicts s p .unlockExclusive ((s.backend p).goto (.asleep a m))
  | resume (hpc : (s.backend p).pc = .asleep a m) (hwoken : ((s.entry a).gsl.proc p).woken = true) :
      Move conflicts s p (.pin a) ((s.backend p).goto (.acquire a m))
  | granted (hpc : (s.backend p).pc = .acquireUnpin a m true) :
      Move conflicts s p (.unpin a) (((s.backend p).setLocal m (some ⟨a, 1⟩)).goto .idle)
  | refused (hpc : (s.backend p).pc = .acquireUnpin a m false) :
      Move conflicts s p (.unpin a) ((s.backend p).goto .idle)
  | releasePin (hpc : (s.backend p).pc = .releasePin a m) :
      Move conflicts s p (.pin a) ((s.backend p).goto (.callRelease a m))
  | callRelease (hpc : (s.backend p).pc = .callRelease a m)
      (hg : Gsl.step conflicts (s.entry a).gsl (p, .release m) = some g) :
      Move conflicts s p (.gsl a g) ((s.backend p).goto (.release a m))
  | leaveCleanUp (hpc : (s.backend p).pc = .cleanUp a false) :
      Move conflicts s p (.unpin a) ((s.backend p).goto .idle)
  | lockCleanUp (hpc : (s.backend p).pc = .cleanUp a true) (hfree : Unlocked s) :
      Move conflicts s p .lockExclusive ((s.backend p).goto (.cleanUpUnpin a))
  | stillPinned (hpc : (s.backend p).pc = .cleanUpUnpin a) (hpins : (s.entry a).pins - 1 > 0) :
      Move conflicts s p (.unpin a) ((s.backend p).goto .cleanUpUnlock)
  | lastPin (hpc : (s.backend p).pc = .cleanUpUnpin a) (hpins : ¬ (s.entry a).pins - 1 > 0) :
      Move conflicts s p (.unpin a) ((s.backend p).goto (.cleanUpTest a))
  | stillHeld (hpc : (s.backend p).pc = .cleanUpTest a) (hc : (s.entry a).gsl.lock.c ≠ 0#128) :
      Move conflicts s p .skip ((s.backend p).goto .cleanUpUnlock)
  | unheld (hpc : (s.backend p).pc = .cleanUpTest a) (hc : (s.entry a).gsl.lock.c = 0#128) :
      Move conflicts s p .skip ((s.backend p).goto (.cleanUpRemove a))
  | corrupted (hpc : (s.backend p).pc = .cleanUpRemove a) (ht : s.table = none) :
      Move conflicts s p .skip ((s.backend p).goto .panicked)
  | remove (hpc : (s.backend p).pc = .cleanUpRemove a) (ht : s.table ≠ none) :
      Move conflicts s p .remove ((s.backend p).goto .cleanUpUnlock)
  | cleanUpUnlock (hpc : (s.backend p).pc = .cleanUpUnlock) :
      Move conflicts s p .unlockExclusive ((s.backend p).goto .idle)

section

variable [Fintype P] {s : State P A}

omit [DecidableEq A] in
theorem move_of_gslNext (hpc : (s.backend p).pc = .acquire a m ∨ (s.backend p).pc = .release a m)
    (h : gslNext conflicts s p a = some r) : Move conflicts s p r.1 r.2 := by
  unfold gslNext at h
  split at h
  · cases h
  · next g hg =>
    dsimp only at h
    split at h
    · next hq =>
      cases h
      exact .gsl hpc hg (.inside hq)
    · next hne =>
      split at h
      · next hq =>
        split at h
        · next hfree =>
          cases h
          exact .gsl hpc hg (.lock hne hq hfree)
        · cases h
      · next hq =>
        rcases hpc with hpc | hpc <;> simp only [hpc] at h <;> cases h
        · exact hpc ▸ .gsl (Or.inl hpc) hg (.sleep hpc hne hq)
        · exact hpc ▸ .gsl (Or.inr hpc) hg (.unlock hpc hne hq)

omit [DecidableEq A] in
theorem move_of_runNext (h : runNext conflicts s p = some r) : Move conflicts s p r.1 r.2 := by
  unfold runNext at h
  cases hpc : (s.backend p).pc <;> simp only [hpc, reduceCtorEq] at h
  case lockShared m d =>
    obtain ⟨hfree, ⟨⟩⟩ | ⟨-, ⟨⟩⟩ := ite_eq_iff.mp h
    exact .lockShared hpc hfree
  case lookup m d =>
    split at h
    · next a ht => exact some.inj h ▸ .found hpc ht
    · next ht => exact some.inj h ▸ .missing hpc ht
  case pinFound a m d => exact some.inj h ▸ .pinFound hpc
  case unlockFound a m d => exact some.inj h ▸ .unlockFound hpc
  case unlockMissing m d => exact some.inj h ▸ .unlockMissing hpc
  case lockCreate m d =>
    obtain ⟨hfree, ⟨⟩⟩ | ⟨-, ⟨⟩⟩ := ite_eq_iff.mp h
    exact .lockCreate hpc hfree
  case pinCreated a m d => exact some.inj h ▸ .pinCreated hpc
  case unlockCreated a m d => exact some.inj h ▸ .unlockCreated hpc
  case callAcquire a m d =>
    obtain ⟨g, hg, rfl⟩ := map_eq_some_iff.mp h
    exact .callAcquire hpc hg
  case acquire a m => exact move_of_gslNext (Or.inl hpc) h
  case sleepUnpin a m => exact some.inj h ▸ .sleepUnpin hpc
  case sleepUnlock a m => exact some.inj h ▸ .sleepUnlock hpc
  case asleep a m =>
    obtain ⟨hwoken, ⟨⟩⟩ | ⟨-, ⟨⟩⟩ := ite_eq_iff.mp h
    exact .resume hpc hwoken
  case acquireUnpin a m status =>
    cases status with
    | true => exact some.inj h ▸ .granted hpc
    | false => exact some.inj h ▸ .refused hpc
  case releasePin a m => exact some.inj h ▸ .releasePin hpc
  case callRelease a m =>
    obtain ⟨g, hg, rfl⟩ := map_eq_some_iff.mp h
    exact .callRelease hpc hg
  case release a m => exact move_of_gslNext (Or.inr hpc) h
  case cleanUp a lastHold =>
    cases lastHold with
    | true =>
      rw [if_pos rfl] at h
      obtain ⟨hfree, ⟨⟩⟩ | ⟨-, ⟨⟩⟩ := ite_eq_iff.mp h
      exact .lockCleanUp hpc hfree
    | false => exact some.inj h ▸ .leaveCleanUp hpc
  case cleanUpUnpin a =>
    rcases ite_eq_iff.mp h with ⟨hpins, ⟨⟩⟩ | ⟨hpins, ⟨⟩⟩
    · exact .stillPinned hpc hpins
    · exact .lastPin hpc hpins
  case cleanUpTest a =>
    rcases ite_eq_iff.mp h with ⟨hc, ⟨⟩⟩ | ⟨hc, ⟨⟩⟩
    · exact .stillHeld hpc (by simpa [Gsl.lcNonZero] using hc)
    · exact .unheld hpc (by simpa [Gsl.lcNonZero] using hc)
  case cleanUpRemove a =>
    rcases ite_eq_iff.mp h with ⟨ht, ⟨⟩⟩ | ⟨ht, ⟨⟩⟩
    · exact .corrupted hpc ht
    · exact .remove hpc ht
  case cleanUpUnlock => exact some.inj h ▸ .cleanUpUnlock hpc

theorem move_of_next (h : next conflicts s (p, x) = some r) : Move conflicts s p r.1 r.2 := by
  cases x with
  | acquire m d =>
    simp only [next, ite_none_right_eq_some] at h
    obtain ⟨hpc, h⟩ := h
    cases hl : (s.backend p).locallock m <;> rw [hl] at h <;> cases h
    · exact .acquire hpc hl
    · exact .count hpc hl
  | release m =>
    simp only [next, ite_none_right_eq_some] at h
    obtain ⟨hpc, h⟩ := h
    cases hl : (s.backend p).locallock m with
    | some l =>
      simp only [hl] at h
      split at h
      · exact some.inj h ▸ .count hpc hl
      · exact some.inj h ▸ .release hpc hl
    | none => simp [hl] at h
  | create fresh =>
    simp only [next] at h
    split at h
    · next m d hpc =>
      cases ht : s.table <;> rw [ht] at h <;> cases h
      · exact .create hpc ht
      · exact .createFound hpc ht
    · cases h
  | run => exact move_of_runNext h

theorem move_of_step (h : step conflicts s x = some t) :
    ∃ e b, Move conflicts s x.1 e b ∧ t = (e.apply s x.1).setBackend x.1 b := by
  obtain ⟨r, hr, rfl⟩ := map_eq_some_iff.mp h
  exact ⟨r.1, r.2, move_of_next (x := x.2) hr, rfl⟩

end

end Mosbench.Postgres
