import Mosbench.Gsl.Lock

/-!
Inversion of the step function: everything a step can do, guards included. The later modules
argue over `Trans` and never unfold the step function.
-/
namespace Mosbench.Gsl

open State Option Links Function

namespace Pc

def ownsQueue : Pc P → Bool
  | .undoGet _ | .undoSet _ _ | .enqueue _ | .wake _ _ | .wakeGet _ _ _ | .wakeSet _ _ _ _
  | .wakeUnlink _ _ _ | .cancelLocked _ => true
  | _ => false

/-- The mode whose active count is raised by a failed fast path. -/
def transient : Pc P → Option Mode
  | .acqMutex mode | .undoGet mode | .undoSet mode _ => some mode
  | _ => none

def waitingCaller : Caller → Option Mode
  | .acquire mode => some mode
  | .release => none

def queued : Pc P → Option Mode
  | .sleep mode | .interrupted mode | .cancelMutex mode | .cancelLocked mode => some mode
  | .wake caller _ | .wakeGet caller _ _ | .wakeSet caller _ _ _ | .wakeUnlink caller _ _ =>
    waitingCaller caller
  | _ => none

/-- As `queued`, but from the publication of the wait bit on. -/
def published : Pc P → Option Mode
  | .enqueue mode => some mode
  | pc => pc.queued

def acquiring : Pc P → Option Mode
  | .tryGet mode | .trySet mode _ | .acqGet mode | .acqSet mode _ => some mode
  | pc => pc.transient.or pc.published

def releasing : Pc P → Option Mode
  | .relGet mode | .relSet mode _ => some mode
  | _ => none

def unlinking : Pc P → Option P
  | .wakeUnlink _ _ proc => some proc
  | _ => none

end Pc

def Holds (s : State P) (p : P) (m : Mode) : Prop :=
  lcGetActive (s.proc p).holding m ≠ 0 ∨ ((s.proc p).woken = true ∧ (s.proc p).shared.wantMode = m)

instance (s : State P) (p : P) (m : Mode) : Decidable (Holds s p m) :=
  inferInstanceAs (Decidable (_ ∨ _))

def Queued (s : State P) (p : P) (m : Mode) : Prop :=
  (s.proc p).pc.queued = some m ∧ (s.proc p).woken = false

instance (s : State P) (p : P) (m : Mode) : Decidable (Queued s p m) :=
  inferInstanceAs (Decidable (_ ∧ _))

def Published (s : State P) (p : P) (m : Mode) : Prop :=
  (s.proc p).pc.published = some m ∧ (s.proc p).woken = false

instance (s : State P) (p : P) (m : Mode) : Decidable (Published s p m) :=
  inferInstanceAs (Decidable (_ ∧ _))

/-- The wait bits after the next step of `p`: an undo publishes a bit, and the
grant of the last counted waiter of a mode clears it. -/
def nextWait (s : State P) (p : P) (w : Mode → Bool) : Mode → Bool :=
  match (s.proc p).pc with
  | .undoSet mode pre => if s.lock.c = pre then Function.update w mode true else w
  | .wakeSet _ _ q pre =>
    if s.lock.c = pre ∧ s.lock.waitCounts (s.proc q).shared.wantMode = 1 then
      Function.update w (s.proc q).shared.wantMode false
    else w
  | _ => w

namespace State

variable (s : State P) (c : LockCounts) (o : Option P) (p : P) (f : Proc P → Proc P) (pc : Pc P)
  (k : Cell P) (v : Option P)

@[simp] theorem setCounts_c : (s.setCounts c).lock.c = c := rfl
@[simp] theorem setCounts_queueLock : (s.setCounts c).lock.queueLock = s.lock.queueLock := rfl
@[simp] theorem setCounts_proc : (s.setCounts c).proc = s.proc := rfl
@[simp] theorem setCounts_cell : (s.setCounts c).cell = s.cell := by
  funext k
  cases k <;> rfl

@[simp] theorem setQueueLock_c : (s.setQueueLock o).lock.c = s.lock.c := rfl
@[simp] theorem setQueueLock_queueLock : (s.setQueueLock o).lock.queueLock = o := rfl
@[simp] theorem setQueueLock_waitCounts :
    (s.setQueueLock o).lock.waitCounts = s.lock.waitCounts := rfl
@[simp] theorem setQueueLock_waiterTail :
    (s.setQueueLock o).lock.waiterTail = s.lock.waiterTail := rfl
@[simp] theorem setQueueLock_proc : (s.setQueueLock o).proc = s.proc := rfl
@[simp] theorem setQueueLock_cell : (s.setQueueLock o).cell = s.cell := by
  funext k
  cases k <;> rfl

variable [DecidableEq P]

@[simp] theorem modify_lock : (s.modify p f).lock = s.lock := rfl
@[simp] theorem modify_proc_self : (s.modify p f).proc p = f (s.proc p) := by simp [modify]
theorem modify_proc_of_ne {p q : P} (h : q ≠ p) (f : Proc P → Proc P) :
    (s.modify p f).proc q = s.proc q := by simp [modify, h]

theorem modify_cell (hf : (f (s.proc p)).shared.lockNext = (s.proc p).shared.lockNext) :
    (s.modify p f).cell = s.cell := by
  funext k
  cases k with
  | head => rfl
  | next q =>
    by_cases hq : q = p
    · subst q
      simpa [cell] using hf
    · simp [cell, modify_proc_of_ne s hq]

@[simp] theorem setPc_lock : (s.setPc p pc).lock = s.lock := rfl
@[simp] theorem setPc_proc_self :
    (s.setPc p pc).proc p = { s.proc p with pc := pc } := by simp [setPc]
theorem setPc_proc_of_ne {p q : P} (h : q ≠ p) (pc : Pc P) :
    (s.setPc p pc).proc q = s.proc q := modify_proc_of_ne s h _
@[simp] theorem setPc_cell : (s.setPc p pc).cell = s.cell :=
  modify_cell s p _ rfl

@[simp] theorem setCell_c : (s.setCell k v).lock.c = s.lock.c := by cases k <;> rfl
@[simp] theorem setCell_queueLock :
    (s.setCell k v).lock.queueLock = s.lock.queueLock := by cases k <;> rfl
@[simp] theorem setCell_waitCounts :
    (s.setCell k v).lock.waitCounts = s.lock.waitCounts := by cases k <;> rfl
@[simp] theorem setCell_waiterTail :
    (s.setCell k v).lock.waiterTail = s.lock.waiterTail := by cases k <;> rfl

@[simp] theorem setCell_cell : (s.setCell k v).cell = update s.cell k v := by
  funext l
  cases k with
  | head => cases l <;> rfl
  | next p =>
    cases l with
    | head => rfl
    | next q =>
      by_cases hq : q = p
      · subst q
        simp [setCell, cell]
      · simp [setCell, cell, modify_proc_of_ne s hq, hq]

end State

def Proc.relink (me : Proc P) (v : Option P) : Proc P :=
  { me with shared := { me.shared with lockNext := v } }

namespace Proc

variable (me : Proc P) (v w : Option P)

@[simp] theorem relink_pc : (me.relink v).pc = me.pc := rfl
@[simp] theorem relink_woken : (me.relink v).woken = me.woken := rfl
@[simp] theorem relink_holding : (me.relink v).holding = me.holding := rfl
@[simp] theorem relink_wantMode : (me.relink v).shared.wantMode = me.shared.wantMode := rfl
@[simp] theorem relink_isUpgrade : (me.relink v).shared.isUpgrade = me.shared.isUpgrade := rfl
@[simp] theorem relink_lockNext : (me.relink v).shared.lockNext = v := rfl
@[simp] theorem relink_waitHolding : (me.relink v).shared.waitHolding = me.shared.waitHolding := rfl
@[simp] theorem relink_relink : (me.relink v).relink w = me.relink w := rfl
@[simp] theorem relink_self : me.relink me.shared.lockNext = me := rfl

end Proc

variable (s : State P) (k : Cell P) (m : Mode) (d : ℤ)

@[simp] theorem State.setCell_proc [DecidableEq P] (v : Option P)
    (q : P) : (s.setCell k v).proc q = (s.proc q).relink (update s.cell k v (.next q)) := by
  cases k with
  | head => rfl
  | next p =>
    by_cases hq : q = p
    · subst q
      simp [setCell, Proc.relink]
    · simp [setCell, modify_proc_of_ne s hq, hq, cell]

@[simp] theorem State.addWaitCount_cell : (s.addWaitCount m d).cell = s.cell := by
  funext k
  cases k <;> rfl
@[simp] theorem State.addWaitCount_proc : (s.addWaitCount m d).proc = s.proc := rfl
@[simp] theorem State.addWaitCount_c : (s.addWaitCount m d).lock.c = s.lock.c := rfl
@[simp] theorem State.addWaitCount_queueLock :
    (s.addWaitCount m d).lock.queueLock = s.lock.queueLock := rfl
@[simp] theorem State.addWaitCount_waiterTail :
    (s.addWaitCount m d).lock.waiterTail = s.lock.waiterTail := rfl
@[simp] theorem State.addWaitCount_waitCounts : (s.addWaitCount m d).lock.waitCounts =
      update s.lock.waitCounts m (s.lock.waitCounts m + d) := rfl
@[simp] theorem State.setTail_cell : (s.setTail k).cell = s.cell := by
  funext k
  cases k <;> rfl
@[simp] theorem State.setTail_proc : (s.setTail k).proc = s.proc := rfl
@[simp] theorem State.setTail_c : (s.setTail k).lock.c = s.lock.c := rfl
@[simp] theorem State.setTail_queueLock : (s.setTail k).lock.queueLock = s.lock.queueLock := rfl
@[simp] theorem State.setTail_waiter : (s.setTail k).lock.waiter = s.lock.waiter := rfl
@[simp] theorem State.setTail_waitCounts : (s.setTail k).lock.waitCounts = s.lock.waitCounts := rfl
@[simp] theorem State.setTail_waiterTail : (s.setTail k).lock.waiterTail = some k := rfl

section

variable [DecidableEq P]

variable (s : State P) (prev : Cell P) (p q : P) (mode : Mode) (pre : LockCounts)

theorem unlink_cell : (unlink s prev q).cell =
      update (update s.cell prev (s.cell (.next q))) (.next q) none := by
  simp [unlink, State.cell]

theorem unlink_proc (x : P) :
    (unlink s prev q).proc x = (s.proc x).relink ((unlink s prev q).cell (.next x)) := by
  simp [unlink]

@[simp] theorem unlink_c : (unlink s prev q).lock.c = s.lock.c := by simp [unlink]
@[simp] theorem unlink_queueLock :
    (unlink s prev q).lock.queueLock = s.lock.queueLock := by simp [unlink]
@[simp] theorem unlink_waitCounts : (unlink s prev q).lock.waitCounts = update s.lock.waitCounts
      (s.proc q).shared.wantMode (s.lock.waitCounts (s.proc q).shared.wantMode - 1) := by
  simp [unlink, Int.sub_eq_add_neg]
@[simp] theorem unlink_waiterTail :
    (unlink s prev q).lock.waiterTail = s.lock.waiterTail := by simp [unlink]

def tailCell (s : State P) : Option (Cell P) :=
  if s.lock.waiter = none then some .head else s.lock.waiterTail

theorem enqueue_cell_upgrade (h : holdLock (s.proc p) = true) : (enqueue s p mode).cell =
      update (update s.cell (.next p) (s.cell .head)) .head (some p) := by
  have hpush : (pushHead s p).cell =
      update (update s.cell (.next p) (s.cell .head)) .head (some p) := by
    change (pushHead s p).cell = update (update s.cell (.next p) s.lock.waiter) .head (some p)
    unfold pushHead
    split <;> simp
  rw [enqueue, modify_cell _ _ _ rfl, h, if_pos rfl, addWaitCount_cell, hpush]

theorem enqueue_cell_fair (h : holdLock (s.proc p) = false) :
    (enqueue s p mode).cell = match tailCell s with
      | some k => update (update s.cell k (some p)) (.next p) none
      | none => update s.cell (.next p) none := by
  have hpush : (pushTail s p).cell = match tailCell s with
      | some k => update (update s.cell k (some p)) (.next p) none
      | none => update s.cell (.next p) none := by
    unfold pushTail tailCell
    split
    · simp
    · cases hk : s.lock.waiterTail <;> simp [hk]
  rw [enqueue, modify_cell _ _ _ rfl, h, if_neg (by simp), addWaitCount_cell, hpush]

theorem enqueue_waiterTail_upgrade (h : holdLock (s.proc p) = true) :
    (enqueue s p mode).lock.waiterTail =
      if s.cell .head = none then some (.next p) else s.lock.waiterTail := by
  rw [enqueue, modify_lock, addWaitCount_waiterTail, h, if_pos rfl]
  change (pushHead s p).lock.waiterTail =
    if s.lock.waiter = none then some (.next p) else s.lock.waiterTail
  unfold pushHead
  split <;> simp

theorem enqueue_waiterTail_fair (h : holdLock (s.proc p) = false) :
    (enqueue s p mode).lock.waiterTail = some (.next p) := by
  rw [enqueue, modify_lock, addWaitCount_waiterTail, h, if_neg (by simp), pushTail]
  simp

def push (s : State P) (p : P) : State P :=
  if holdLock (s.proc p) then pushHead s p else pushTail s p

theorem push_proc : ∃ v, (push s p).proc q = (s.proc q).relink v := by
  unfold push pushHead pushTail
  split
  · split <;> exact ⟨_, by simp; rfl⟩
  · split
    · exact ⟨_, by simp; rfl⟩
    · cases hk : s.lock.waiterTail <;> exact ⟨_, by simp [hk]; rfl⟩

theorem push_lock : (push s p).lock.c = s.lock.c ∧ (push s p).lock.queueLock = s.lock.queueLock ∧
    (push s p).lock.waitCounts = s.lock.waitCounts := by
  unfold push pushHead pushTail
  split
  · split <;> simp
  · split
    · simp
    · cases hk : s.lock.waiterTail <;> simp [hk]

theorem enqueue_eq :
    enqueue s p mode = ((push s p).addWaitCount mode 1).modify p fun me => { me with
      shared := { me.shared with
        isUpgrade := holdLock (s.proc p)
        wantMode := mode
        waitHolding := me.holding }
      pc := .wake (.acquire mode) .head } := rfl

@[simp] theorem enqueue_c : (enqueue s p mode).lock.c = s.lock.c := (push_lock s p).1
@[simp] theorem enqueue_queueLock :
    (enqueue s p mode).lock.queueLock = s.lock.queueLock := (push_lock s p).2.1
@[simp] theorem enqueue_waitCounts : (enqueue s p mode).lock.waitCounts =
      update s.lock.waitCounts mode (s.lock.waitCounts mode + 1) := by
  rw [enqueue_eq, modify_lock, addWaitCount_waitCounts, (push_lock s p).2.2]

theorem enqueue_proc_of_ne {p q : P} (hq : q ≠ p) :
    ∃ v, (enqueue s p mode).proc q = (s.proc q).relink v := by
  rw [enqueue_eq, modify_proc_of_ne _ hq, addWaitCount_proc]
  exact push_proc s p q

theorem enqueue_proc_self : ∃ v, (enqueue s p mode).proc p = { s.proc p with
      shared := ⟨v, mode, holdLock (s.proc p), (s.proc p).holding⟩
      pc := .wake (.acquire mode) .head } := by
  obtain ⟨v, hv⟩ := push_proc s p p
  refine ⟨v, ?_⟩
  rw [enqueue_eq, modify_proc_self, addWaitCount_proc, hv]
  rfl

theorem grant_proc (pc : Pc P) (x : P) : ((grant s q pre).setPc p pc).proc x = { s.proc x with
      woken := if x = q then true else (s.proc x).woken
      pc := if x = p then pc else (s.proc x).pc } := by
  have hgrant : (grant s q pre).proc x = { s.proc x with
      woken := if x = q then true else (s.proc x).woken } := by
    by_cases hxq : x = q
    · subst x
      simp [grant]
    · rw [grant, modify_proc_of_ne _ hxq]
      simp [hxq]
  by_cases hxp : x = p
  · subst x
    rw [setPc_proc_self, hgrant]
    simp
  · rw [setPc_proc_of_ne _ hxp, hgrant]
    simp [hxp]

theorem released_proc_self (table : ConflictTable) (s : State P) (p : P) (mode : Mode)
    (post : LockCounts) : ((released table s p mode post).proc p).holding =
        lcSubtract (s.proc p).holding (lcActive mode) ∧
      ((released table s p mode post).proc p).woken = (s.proc p).woken ∧
      ((released table s p mode post).proc p).shared = (s.proc p).shared ∧
      ((released table s p mode post).proc p).pc.transient = none := by
  rw [released, modify_proc_self]
  dsimp only
  split <;> exact ⟨rfl, rfl, rfl, rfl⟩

@[simp] theorem grant_cell : (grant s q pre).cell = s.cell := by
  rw [grant, modify_cell _ _ _ rfl, setCounts_cell]
@[simp] theorem grant_queueLock : (grant s q pre).lock.queueLock = s.lock.queueLock := rfl
@[simp] theorem grant_waitCounts : (grant s q pre).lock.waitCounts = s.lock.waitCounts := rfl

end

inductive Move (table : ConflictTable) (s : State P) (p : P) : Act → Pc P → Prop
  | acquireTry (hpc : (s.proc p).pc = .idle) (hnew : lcGetActive (s.proc p).holding mode = 0) :
      Move table s p (.acquire mode true) (.tryGet mode)
  | acquire (hpc : (s.proc p).pc = .idle) (hnew : lcGetActive (s.proc p).holding mode = 0) :
      Move table s p (.acquire mode false) (.acqGet mode)
  | release (hpc : (s.proc p).pc = .idle) (hheld : lcGetActive (s.proc p).holding mode ≠ 0) :
      Move table s p (.release mode) (.relGet mode)
  | interrupt (hpc : (s.proc p).pc = .sleep mode) : Move table s p .interrupt (.interrupted mode)
  | cancel (hpc : (s.proc p).pc = .interrupted mode) : Move table s p .cancel (.cancelMutex mode)
  | tryGet (hpc : (s.proc p).pc = .tryGet mode)
      (hfree : conflictFree table (s.proc p) mode s.lock.c = true) :
      Move table s p .run (.trySet mode s.lock.c)
  | tryRetry (hpc : (s.proc p).pc = .trySet mode pre)
      (hne : s.lock.c ≠ pre) : Move table s p .run (.tryGet mode)
  | acqGet (hpc : (s.proc p).pc = .acqGet mode) : Move table s p .run (.acqSet mode s.lock.c)
  | acqRetry (hpc : (s.proc p).pc = .acqSet mode pre)
      (hne : s.lock.c ≠ pre) : Move table s p .run (.acqGet mode)
  | undoGet (hpc : (s.proc p).pc = .undoGet mode) : Move table s p .run (.undoSet mode s.lock.c)
  | undoRetry (hpc : (s.proc p).pc = .undoSet mode pre)
      (hne : s.lock.c ≠ pre) : Move table s p .run (.undoGet mode)
  | wakeNext (hpc : (s.proc p).pc = .wake caller prev)
      (hcell : s.cell prev = some q) : Move table s p .run (.wakeGet caller prev q)
  | wakeGet (hpc : (s.proc p).pc = .wakeGet caller prev q)
      (hfree : wakeFree table (s.proc q).shared s.lock.c = true) :
      Move table s p .run (.wakeSet caller prev q s.lock.c)
  | wakeSkip (hpc : (s.proc p).pc = .wakeGet caller prev q)
      (hbusy : wakeFree table (s.proc q).shared s.lock.c = false)
      (hup : (s.proc q).shared.isUpgrade = true) : Move table s p .run (.wake caller (.next q))
  | wakeRetry (hpc : (s.proc p).pc = .wakeSet caller prev q pre) (hne : s.lock.c ≠ pre) :
      Move table s p .run (.wakeGet caller prev q)
  | relGet (hpc : (s.proc p).pc = .relGet mode) : Move table s p .run (.relSet mode s.lock.c)
  | relRetry (hpc : (s.proc p).pc = .relSet mode pre)
      (hne : s.lock.c ≠ pre) : Move table s p .run (.relGet mode)

inductive Enter : Pc P → Pc P → Prop
  | acquire (mode : Mode) : Enter (.acqMutex mode) (.undoGet mode)
  | release (mode : Mode) : Enter (.relMutex mode) (.wake .release .head)
  | cancel (mode : Mode) : Enter (.cancelMutex mode) (.cancelLocked mode)

inductive Leave (table : ConflictTable) (s : State P) : Pc P → Caller → Prop
  | queueEnd {caller : Caller} {prev : Cell P} (hcell : s.cell prev = none) :
      Leave table s (.wake caller prev) caller
  | blocked {caller : Caller} {prev : Cell P} {q : P}
      (hbusy : wakeFree table (s.proc q).shared s.lock.c = false)
      (hfair : (s.proc q).shared.isUpgrade = false) :
      Leave table s (.wakeGet caller prev q) caller

namespace Move

theorem queued (h : Move table s p a pc) : pc.queued = (s.proc p).pc.queued := by
  cases h <;> simp_all [Pc.queued]

theorem published (h : Move table s p a pc) : pc.published = (s.proc p).pc.published := by
  cases h <;> simp_all [Pc.published, Pc.queued]

theorem transient (h : Move table s p a pc) : pc.transient = (s.proc p).pc.transient := by
  cases h <;> simp_all [Pc.transient]

theorem unlinking (h : Move table s p a pc) : pc.unlinking = (s.proc p).pc.unlinking := by
  cases h <;> simp_all [Pc.unlinking]

theorem ownsQueue (h : Move table s p a pc) : pc.ownsQueue = (s.proc p).pc.ownsQueue := by
  cases h <;> simp_all [Pc.ownsQueue]

theorem acquiring (h : Move table s p a pc) (m : Mode) (hm : pc.acquiring = some m) :
    (s.proc p).pc.acquiring = some m ∨ lcGetActive (s.proc p).holding m = 0 := by
  cases h <;> simp_all [Pc.acquiring, Pc.transient, Pc.published, Pc.queued]

theorem releasing (h : Move table s p a pc) (m : Mode) (hm : pc.releasing = some m) :
    (s.proc p).pc.releasing = some m ∨ lcGetActive (s.proc p).holding m ≠ 0 := by
  cases h <;> simp_all [Pc.releasing]

end Move

variable [DecidableEq P]

inductive Trans [Fintype P] (table : ConflictTable) (s : State P) (p : P) : Act → State P → Prop
  | move (h : Move table s p a pc) : Trans table s p a (s.setPc p pc)
  | fail (hpc : (s.proc p).pc = .tryGet mode)
      (hbusy : conflictFree table (s.proc p) mode s.lock.c = false) :
      Trans table s p .run (returnFalse s p)
  | enter (hfree : s.lock.queueLock = none) (h : Enter (s.proc p).pc pc) :
      Trans table s p .run ((s.setQueueLock (some p)).setPc p pc)
  | leave (h : Leave table s (s.proc p).pc caller) : Trans table s p .run (leaveWake s p caller)
  | fastTry (hpc : (s.proc p).pc = .trySet mode s.lock.c) :
      Trans table s p .run (acquired (s.setCounts (lcAdd s.lock.c (lcActive mode))) p mode)
  | fast (hpc : (s.proc p).pc = .acqSet mode s.lock.c)
      (hfree : conflictFree table (s.proc p) mode s.lock.c = true) :
      Trans table s p .run (acquired (s.setCounts (lcAdd s.lock.c (lcActive mode))) p mode)
  | raise (hpc : (s.proc p).pc = .acqSet mode s.lock.c)
      (hbusy : conflictFree table (s.proc p) mode s.lock.c = false) :
      Trans table s p .run ((s.setCounts (lcAdd s.lock.c (lcActive mode))).setPc p (.acqMutex mode))
  | undo (hpc : (s.proc p).pc = .undoSet mode s.lock.c) :
      Trans table s p .run ((s.setCounts (undoCounts mode s.lock.c)).setPc p (.enqueue mode))
  | enqueue (hpc : (s.proc p).pc = .enqueue mode) : Trans table s p .run (enqueue s p mode)
  | grant (hpc : (s.proc p).pc = .wakeSet caller prev q s.lock.c) :
      Trans table s p .run ((grant s q s.lock.c).setPc p (.wakeUnlink caller prev q))
  | unlink (hpc : (s.proc p).pc = .wakeUnlink caller prev q) :
      Trans table s p .run ((unlink s prev q).setPc p (.wake caller prev))
  | resume (hpc : (s.proc p).pc = .sleep mode) (hwoken : (s.proc p).woken = true) :
      Trans table s p .run (acquired s p mode)
  | release (hpc : (s.proc p).pc = .relSet mode s.lock.c) :
      Trans table s p .run (released table s p mode (lcSubtract s.lock.c (lcActive mode)))
  | cancelGranted (hpc : (s.proc p).pc = .cancelLocked mode)
      (hnull : (s.proc p).shared.lockNext = none) : Trans table s p .run (cancelGranted s p)
  | cancelQueued (hpc : (s.proc p).pc = .cancelLocked mode)
      (hnext : (s.proc p).shared.lockNext ≠ none)
      (hfind : findLink s.cell p (Fintype.card P + 1) .head = some prev)
      (hcount : s.lock.waitCounts (s.proc p).shared.wantMode ≠ 0) :
      Trans table s p .run (cancelQueued s p prev)

theorem trans_of_run [Fintype P] {s t : State P} {p : P}
    (h : run table s p = some t) : Trans table s p .run t := by
  unfold run at h
  cases hpc : (s.proc p).pc <;> simp only [hpc, lockQueue, Gsl.cancel, reduceCtorEq] at h
  case tryGet mode =>
    rcases ite_eq_iff.mp h with ⟨hfree, ⟨⟩⟩ | ⟨hbusy, ⟨⟩⟩
    · exact .move (.tryGet hpc hfree)
    · exact .fail hpc (by simpa using hbusy)
  case trySet mode pre =>
    rcases ite_eq_iff.mp h with ⟨rfl, ⟨⟩⟩ | ⟨hne, ⟨⟩⟩
    · exact .fastTry hpc
    · exact .move (.tryRetry hpc hne)
  case acqGet mode => exact some.inj h ▸ .move (.acqGet hpc)
  case acqSet mode pre =>
    rcases ite_eq_iff.mp h with ⟨rfl, h⟩ | ⟨hne, ⟨⟩⟩
    · rcases ite_eq_iff.mp h with ⟨hfree, ⟨⟩⟩ | ⟨hbusy, ⟨⟩⟩
      · exact .fast hpc hfree
      · exact .raise hpc (by simpa using hbusy)
    · exact .move (.acqRetry hpc hne)
  case acqMutex mode =>
    obtain ⟨hfree, ⟨⟩⟩ | ⟨-, ⟨⟩⟩ := ite_eq_iff.mp h
    exact .enter hfree (hpc ▸ .acquire mode)
  case undoGet mode => exact some.inj h ▸ .move (.undoGet hpc)
  case undoSet mode pre =>
    rcases ite_eq_iff.mp h with ⟨rfl, ⟨⟩⟩ | ⟨hne, ⟨⟩⟩
    · exact .undo hpc
    · exact .move (.undoRetry hpc hne)
  case enqueue mode => exact some.inj h ▸ .enqueue hpc
  case sleep mode =>
    obtain ⟨hwoken, ⟨⟩⟩ | ⟨-, ⟨⟩⟩ := ite_eq_iff.mp h
    exact .resume hpc hwoken
  case wake caller prev =>
    split at h
    · next hcell => exact some.inj h ▸ .leave (hpc ▸ .queueEnd hcell)
    · next q hcell => exact some.inj h ▸ .move (.wakeNext hpc hcell)
  case wakeGet caller prev q =>
    rcases ite_eq_iff.mp h with ⟨hfree, ⟨⟩⟩ | ⟨hbusy, h⟩
    · exact .move (.wakeGet hpc hfree)
    · rcases ite_eq_iff.mp h with ⟨hup, ⟨⟩⟩ | ⟨hfair, ⟨⟩⟩
      · exact .move (.wakeSkip hpc (by simpa using hbusy) hup)
      · exact .leave (hpc ▸ .blocked (by simpa using hbusy) (by simpa using hfair))
  case wakeSet caller prev q pre =>
    rcases ite_eq_iff.mp h with ⟨rfl, ⟨⟩⟩ | ⟨hne, ⟨⟩⟩
    · exact .grant hpc
    · exact .move (.wakeRetry hpc hne)
  case wakeUnlink caller prev q => exact some.inj h ▸ .unlink hpc
  case relGet mode => exact some.inj h ▸ .move (.relGet hpc)
  case relSet mode pre =>
    rcases ite_eq_iff.mp h with ⟨rfl, ⟨⟩⟩ | ⟨hne, ⟨⟩⟩
    · exact .release hpc
    · exact .move (.relRetry hpc hne)
  case relMutex mode =>
    obtain ⟨hfree, ⟨⟩⟩ | ⟨-, ⟨⟩⟩ := ite_eq_iff.mp h
    exact .enter hfree (hpc ▸ .release mode)
  case cancelMutex mode =>
    obtain ⟨hfree, ⟨⟩⟩ | ⟨-, ⟨⟩⟩ := ite_eq_iff.mp h
    exact .enter hfree (hpc ▸ .cancel mode)
  case cancelLocked mode =>
    rcases ite_eq_iff.mp h with ⟨hnull, ⟨⟩⟩ | ⟨hnext, h⟩
    · exact .cancelGranted hpc hnull
    · split at h
      · cases h
      · next prev hfind =>
        obtain ⟨-, ⟨⟩⟩ | ⟨hcount, ⟨⟩⟩ := ite_eq_iff.mp h
        exact .cancelQueued hpc hnext hfind hcount

theorem trans_of_step [Fintype P] {s t : State P} {p : P} {a : Act}
    (h : step table s (p, a) = some t) : Trans table s p a t := by
  cases a <;> simp only [step] at h
  case acquire mode dontWait =>
    obtain ⟨hguard, ⟨⟩⟩ | ⟨-, ⟨⟩⟩ := ite_eq_iff.mp h
    cases dontWait with
    | false => exact .move (.acquire hguard.1 hguard.2)
    | true => exact .move (.acquireTry hguard.1 hguard.2)
  case release mode =>
    obtain ⟨hguard, ⟨⟩⟩ | ⟨-, ⟨⟩⟩ := ite_eq_iff.mp h
    exact .move (.release hguard.1 hguard.2)
  case interrupt =>
    split at h
    · next mode hpc => exact some.inj h ▸ .move (.interrupt hpc)
    · cases h
  case cancel =>
    split at h
    · next mode hpc => exact some.inj h ▸ .move (.cancel hpc)
    · cases h
  case run => exact trans_of_run h

theorem Trans.proc_of_ne [Fintype P] {s t : State P} {p x : P} {a : Act}
    (h : Trans table s p a t) (hx : x ≠ p) : (∃ v, t.proc x = (s.proc x).relink v) ∨
      ((∃ caller prev, (s.proc p).pc = .wakeSet caller prev x s.lock.c) ∧
        t.proc x = { s.proc x with woken := true }) := by
  have hmodify : ∀ (u : State P) (f : Proc P → Proc P), u.proc x = s.proc x →
      ∃ v, (u.modify p f).proc x = (s.proc x).relink v := by
    intro u f hu
    rw [modify_proc_of_ne _ hx, hu]
    exact ⟨_, (Proc.relink_self _).symm⟩
  cases h with
  | move _ | fail _ _ | enter _ _ | fastTry _ | fast _ _ | raise _ _ | undo _ | resume _ _
  | release _ | cancelGranted _ _ => exact Or.inl (hmodify _ _ rfl)
  | @leave caller _ =>
    left
    cases caller <;> rw [leaveWake]
    · exact hmodify _ _ rfl
    · exact hmodify _ _ rfl
  | enqueue _ => exact Or.inl (enqueue_proc_of_ne s _ hx)
  | @grant caller prev q hpc =>
    rw [grant_proc]
    by_cases hxq : x = q
    · subst x
      exact Or.inr ⟨⟨caller, prev, hpc⟩, by simp [hx]⟩
    · exact Or.inl ⟨(s.proc x).shared.lockNext, by simp [hx, hxq]⟩
  | unlink _ =>
    rw [setPc_proc_of_ne _ hx, unlink_proc]
    exact Or.inl ⟨_, rfl⟩
  | cancelQueued _ _ _ _ =>
    rw [Gsl.cancelQueued, modify_proc_of_ne _ hx, setQueueLock_proc, unlink_proc]
    exact Or.inl ⟨_, rfl⟩

theorem Trans.pc_of_ne [Fintype P] {s t : State P} {p x : P} {a : Act}
    (h : Trans table s p a t) (hx : x ≠ p) : (t.proc x).pc = (s.proc x).pc := by
  rcases h.proc_of_ne hx with ⟨v, hv⟩ | ⟨-, hv⟩
  · rw [hv, Proc.relink_pc]
  · rw [hv]

end Mosbench.Gsl
