import Mosbench.Gsl.Steps

/-!
The wait queue. `Basic` is the invariant every later argument starts from: one
owner of the queue mutex, consistent local data in each process, and a
null-terminated queue whose members all wait for a grant. It survives the
stale `waiterTail` that wake can leave behind, because a link that leads out of
the queue can only lose waiters, never list a process that does not wait.
-/
namespace Mosbench.Gsl

open State List Option Links

def OnQueue (s : State P) (p : P) : Prop := ∃ L, Chain s.cell .head L ∧ p ∈ L

structure ProcOk (table : ConflictTable) (me : Proc P) : Prop where
  held : ∃ h, me.holding = heldWord h
  want : ∀ m, me.pc.queued = some m → me.shared.wantMode = m ∧ me.shared.waitHolding = me.holding
  woken : me.woken = true → me.pc.queued = some me.shared.wantMode
  acquiring : ∀ m, me.pc.acquiring = some m → lcGetActive me.holding m = 0
  releasing : ∀ m, me.pc.releasing = some m → lcGetActive me.holding m ≠ 0
  trying : ∀ m pre, me.pc = .trySet m pre → conflictFree table me m pre = true

def Position (table : ConflictTable) (s : State P) (L : List P) : Pc P → Prop
  | .wake _ prev => ∃ L₁ L₂, L = L₁ ++ L₂ ∧ prev = lastCell .head L₁
  | .wakeGet _ prev q => ∃ L₁ L₂, L = L₁ ++ q :: L₂ ∧ prev = lastCell .head L₁
  | .wakeSet _ prev q pre => wakeFree table (s.proc q).shared pre = true ∧
      ∃ L₁ L₂, L = L₁ ++ q :: L₂ ∧ prev = lastCell .head L₁
  | .wakeUnlink _ prev q => ∃ L₁ L₂, L = L₁ ++ q :: L₂ ∧ prev = lastCell .head L₁
  | _ => True

structure QueueOk (table : ConflictTable) (s : State P) (L : List P) : Prop where
  chain : Chain s.cell .head L
  listed : ∀ q ∈ L, (∃ m, Queued s q m) ∨ ∃ w, (s.proc w).pc.unlinking = some q
  position : ∀ w, Position table s L (s.proc w).pc

structure Basic (table : ConflictTable) (s : State P) : Prop where
  mutex : ∀ p, (s.proc p).pc.ownsQueue = true ↔ s.lock.queueLock = some p
  proc : ∀ p, ProcOk table (s.proc p)
  queue : ∃ L, QueueOk table s L

/-- gslCancel takes a null link for a grant. The step is not one where the
caller's link is null although it was not granted: the caller would have to be
the last element of the queue, or off the queue. -/
def CancelsOk (s : State P) (a : P × Act) : Prop :=
  ∀ m, (s.proc a.1).pc = .cancelLocked m → (s.proc a.1).shared.lockNext = none →
    (s.proc a.1).woken = true

instance [DecidableEq P] (s : State P) (a : P × Act) : Decidable (CancelsOk s a) :=
  inferInstanceAs (Decidable (∀ _ : Mode, _ → _ → _))

variable {s : State P}

theorem position_congr
    (hshared : ∀ q, wakeFree table (t.proc q).shared = wakeFree table (s.proc q).shared)
    (h : Position table s L pc) : Position table t L pc := by
  cases pc with
  | wakeSet caller prev q pre => exact ⟨by rw [hshared]; exact h.1, h.2⟩
  | _ => exact h

theorem position_of_not_owner (h : pc.ownsQueue = false) : Position table s L pc := by
  cases pc <;> simp_all [Position, Pc.ownsQueue]

theorem ProcOk.relink (h : ProcOk table me) (v : Option P) : ProcOk table (me.relink v) :=
  ⟨h.held, h.want, h.woken, h.acquiring, h.releasing, h.trying⟩

theorem Pc.ownsQueue_of_unlinking {pc : Pc P} (h : pc.unlinking = some q) :
    pc.ownsQueue = true := by
  cases pc <;> simp_all [Pc.unlinking, Pc.ownsQueue]

theorem Pc.acquiring_of_queued {pc : Pc P} (h : pc.queued = some m) : pc.acquiring = some m := by
  cases pc <;> simp_all [Pc.queued, Pc.acquiring, Pc.transient, Pc.published]

theorem findLink_eq_some [DecidableEq P] {cell : Memory P}
    (hchain : Chain cell l L) (h : findLink cell p fuel l = some k) :
    ∃ L₁ L₂, L = L₁ ++ p :: L₂ ∧ k = lastCell l L₁ := by
  induction fuel generalizing l L with
  | zero => simp [findLink] at h
  | succ fuel ih =>
    cases L with
    | nil => simp_all [findLink]
    | cons x xs =>
      simp only [findLink, hchain.1] at h
      split at h
      · next hx =>
        exact ⟨[], xs, by simp [hx], (some.inj h).symm⟩
      · obtain ⟨L₁, L₂, rfl, rfl⟩ := ih hchain.2 h
        exact ⟨x :: L₁, L₂, rfl, rfl⟩

theorem findLink_isSome [DecidableEq P] {cell : Memory P}
    (hchain : Chain cell l L) (hmem : p ∈ L) (hfuel : L.length ≤ fuel) :
    ∃ k, findLink cell p fuel l = some k := by
  induction fuel generalizing l L with
  | zero =>
    obtain rfl := length_eq_zero_iff.mp (Nat.le_zero.mp hfuel)
    cases hmem
  | succ fuel ih =>
    cases L with
    | nil => cases hmem
    | cons x xs =>
      simp only [findLink, hchain.1]
      split
      · exact ⟨l, rfl⟩
      · next hx =>
        refine ih hchain.2 ((mem_cons.mp hmem).resolve_left (Ne.symm hx)) ?_
        simpa using hfuel

theorem Initial.basic (h : Initial s) : Basic table s where
  mutex p := by simp [h.pc p, Pc.ownsQueue, h.lock, gslLockInit]
  proc p := {
    held := ⟨fun _ => false, by rw [h.holding p, heldWord_none]⟩
    want := by simp [h.pc p, Pc.queued]
    woken := by simp [h.woken p]
    acquiring := by simp [h.pc p, Pc.acquiring, Pc.transient, Pc.published, Pc.queued]
    releasing := by simp [h.pc p, Pc.releasing]
    trying := by simp [h.pc p] }
  queue := ⟨[], {
    chain := by simp [State.cell, h.lock, gslLockInit]
    listed := by simp
    position := fun w => by simp [h.pc w, Position] }⟩

namespace Basic

variable {t : State P} {prev : Cell P}

theorem owner_unique (h : Basic table s) (hp : (s.proc p).pc.ownsQueue = true)
    (hq : (s.proc q).pc.ownsQueue = true) : p = q :=
  some.inj (((h.mutex p).mp hp).symm.trans ((h.mutex q).mp hq))

theorem listed_queued (h : Basic table s) (hL : QueueOk table s L)
    (hp : (s.proc p).pc.ownsQueue = true) (hun : (s.proc p).pc.unlinking = none)
    (hq : q ∈ L) : ∃ m, Queued s q m := by
  rcases hL.listed q hq with hm | ⟨w, hw⟩
  · exact hm
  · have hwp : w = p := h.owner_unique (Pc.ownsQueue_of_unlinking hw) hp
    rw [hwp, hun] at hw
    cases hw

theorem queued_target (hs : Basic table s) (hpc : (s.proc p).pc = .wakeSet caller prev q pre) :
    Queued s q (s.proc q).shared.wantMode := by
  obtain ⟨L, hL⟩ := hs.queue
  have hpos := hL.position p
  rw [hpc] at hpos
  obtain ⟨-, L₁, L₂, rfl, -⟩ := hpos
  obtain ⟨m, hm⟩ := hs.listed_queued hL (p := p) (by rw [hpc]; rfl) (by rw [hpc]; rfl)
    (q := q) (by simp)
  rw [((hs.proc q).want m hm.1).1]
  exact hm

section

variable (h : Basic table s)

include h

theorem frame (hcell : t.cell = s.cell)
    (hother : ∀ q, q ≠ p → t.proc q = s.proc q)
    (hshared : (t.proc p).shared = (s.proc p).shared)
    (hqueued : ∀ m, Queued s p m → ∃ m', Queued t p m')
    (hunlink : (t.proc p).pc.unlinking = (s.proc p).pc.unlinking)
    (hown : (t.proc p).pc.ownsQueue = true ↔ t.lock.queueLock = some p)
    (hmutex : ∀ q, q ≠ p → (t.lock.queueLock = some q ↔ s.lock.queueLock = some q))
    (hproc : ProcOk table (t.proc p))
    (hpos : ∀ L, QueueOk table s L → Position table t L (t.proc p).pc) : Basic table t := by
  have hall : ∀ q, (t.proc q).shared = (s.proc q).shared := by
    intro q
    by_cases hq : q = p
    · exact hq ▸ hshared
    · rw [hother q hq]
  obtain ⟨L, hL⟩ := h.queue
  refine ⟨?_, ?_, L, ?_, ?_, ?_⟩
  · intro q
    by_cases hq : q = p
    · exact hq ▸ hown
    · rw [hother q hq, hmutex q hq]
      exact h.mutex q
  · intro q
    by_cases hq : q = p
    · exact hq ▸ hproc
    · rw [hother q hq]
      exact h.proc q
  · rw [hcell]
    exact hL.chain
  · intro q hq
    rcases hL.listed q hq with ⟨m, hm⟩ | ⟨w, hw⟩
    · left
      by_cases hqp : q = p
      · exact hqp ▸ hqueued m (hqp ▸ hm)
      · exact ⟨m, by simpa only [Queued, hother q hqp] using hm⟩
    · right
      refine ⟨w, ?_⟩
      by_cases hwp : w = p
      · rw [hwp] at hw ⊢
        rw [hunlink, hw]
      · rw [hother w hwp, hw]
  · intro w
    by_cases hwp : w = p
    · exact hwp ▸ hpos L hL
    · rw [hother w hwp]
      exact position_congr (fun q => by rw [hall q]) (hL.position w)

theorem rePc (hcell : t.cell = s.cell)
    (hother : ∀ q, q ≠ p → t.proc q = s.proc q)
    (hself : t.proc p = { s.proc p with pc := pc })
    (hqueued : pc.queued = (s.proc p).pc.queued)
    (hunlink : pc.unlinking = (s.proc p).pc.unlinking)
    (hown : pc.ownsQueue = true ↔ t.lock.queueLock = some p)
    (hmutex : ∀ q, q ≠ p → (t.lock.queueLock = some q ↔ s.lock.queueLock = some q))
    (hacq : ∀ m, pc.acquiring = some m →
      (s.proc p).pc.acquiring = some m ∨ lcGetActive (s.proc p).holding m = 0)
    (hrel : ∀ m, pc.releasing = some m →
      (s.proc p).pc.releasing = some m ∨ lcGetActive (s.proc p).holding m ≠ 0)
    (htry : ∀ m pre, pc = .trySet m pre → conflictFree table (s.proc p) m pre = true)
    (hpos : ∀ L, QueueOk table s L → Position table s L pc) : Basic table t := by
  have hp := h.proc p
  have hshared : (t.proc p).shared = (s.proc p).shared := by rw [hself]
  refine h.frame hcell hother hshared ?_ (by rw [hself]; exact hunlink) (by rw [hself]; exact hown)
    hmutex ?_ ?_
  · intro m hm
    exact ⟨m, by simpa [Queued, hself, hqueued] using hm⟩
  · rw [hself]
    exact {
      held := hp.held
      want := fun m hm => hp.want m (hqueued ▸ hm)
      woken := fun hw => hqueued.trans (hp.woken hw)
      acquiring := fun m hm => (hacq m hm).elim (hp.acquiring m) id
      releasing := fun m hm => (hrel m hm).elim (hp.releasing m) id
      trying := htry }
  · intro L hL
    rw [hself]
    refine position_congr ?_ (hpos L hL)
    intro q
    by_cases hq : q = p
    · rw [hq, hshared]
    · rw [hother q hq]

theorem toIdle (hcell : t.cell = s.cell)
    (hother : ∀ q, q ≠ p → t.proc q = s.proc q)
    (hshared : (t.proc p).shared = (s.proc p).shared)
    (hwaits : ∀ m, ¬ Queued s p m)
    (hunlink : (s.proc p).pc.unlinking = none)
    (hidle : (t.proc p).pc = .idle) (hwoken : (t.proc p).woken = false)
    (hheld : ∃ h, (t.proc p).holding = heldWord h)
    (hown : t.lock.queueLock ≠ some p)
    (hmutex : ∀ q, q ≠ p → (t.lock.queueLock = some q ↔ s.lock.queueLock = some q)) :
    Basic table t := by
  refine h.frame hcell hother hshared (fun m hm => absurd hm (hwaits m)) ?_ ?_ hmutex ?_ ?_
  · rw [hidle, hunlink]
    rfl
  · simp [hidle, Pc.ownsQueue, hown]
  · exact {
      held := hheld
      want := by simp [hidle, Pc.queued]
      woken := by simp [hwoken]
      acquiring := by simp [hidle, Pc.acquiring, Pc.transient, Pc.published, Pc.queued]
      releasing := by simp [hidle, Pc.releasing]
      trying := by simp [hidle] }
  · intro L _
    simp [hidle, Position]

theorem held_acquired (hm : (s.proc p).pc.acquiring = some m) :
    ∃ h, lcAdd (s.proc p).holding (lcActive m) = heldWord h := by
  obtain ⟨held, hheld⟩ := (h.proc p).held
  have hzero := (h.proc p).acquiring m hm
  rw [hheld, lcGetActive_heldWord] at hzero
  rw [hheld, lcAdd_heldWord held m (by simpa using hzero)]
  exact ⟨_, rfl⟩

theorem held_released (hm : (s.proc p).pc.releasing = some m) :
    ∃ h, lcSubtract (s.proc p).holding (lcActive m) = heldWord h := by
  obtain ⟨held, hheld⟩ := (h.proc p).held
  have hone := (h.proc p).releasing m hm
  rw [hheld, lcGetActive_heldWord] at hone
  rw [hheld, lcSubtract_heldWord held m (by simpa using hone)]
  exact ⟨_, rfl⟩

theorem not_owner (hp : (s.proc p).pc.ownsQueue = false) :
    s.lock.queueLock ≠ some p := by
  intro howner
  rw [← h.mutex p, hp] at howner
  cases howner

theorem woken_false (hp : (s.proc p).pc.queued = none) :
    (s.proc p).woken = false := by
  by_contra hw
  have hq := (h.proc p).woken (by simpa using hw)
  rw [hp] at hq
  cases hq

theorem other_not_owner (hp : (s.proc p).pc.ownsQueue = true)
    (hq : q ≠ p) : (s.proc q).pc.ownsQueue = false := by
  by_contra hown
  exact hq (h.owner_unique (by simpa using hown) hp)

theorem relist (hp : (s.proc p).pc.ownsQueue = true)
    (hother : ∀ q, q ≠ p → ∃ v, t.proc q = (s.proc q).relink v)
    (hown : (t.proc p).pc.ownsQueue = true ↔ t.lock.queueLock = some p)
    (hmutex : ∀ q, q ≠ p → t.lock.queueLock ≠ some q)
    (hproc : ProcOk table (t.proc p)) (hchain : Chain t.cell .head L)
    (hlisted : ∀ q ∈ L, ∃ m, Queued t q m) (hpos : Position table t L (t.proc p).pc) :
    Basic table t := by
  have hoff : ∀ q, q ≠ p → (t.proc q).pc.ownsQueue = false := by
    intro q hq
    obtain ⟨v, hv⟩ := hother q hq
    rw [hv]
    exact h.other_not_owner hp hq
  refine ⟨?_, ?_, L, hchain, fun q hq => Or.inl (hlisted q hq), ?_⟩
  · intro q
    by_cases hq : q = p
    · exact hq ▸ hown
    · simp [hoff q hq, hmutex q hq]
  · intro q
    by_cases hq : q = p
    · exact hq ▸ hproc
    · obtain ⟨v, hv⟩ := hother q hq
      rw [hv]
      exact (h.proc q).relink v
  · intro w
    by_cases hw : w = p
    · exact hw ▸ hpos
    · exact position_of_not_owner (hoff w hw)

end

theorem queued_relink (hv : t.proc q = (s.proc q).relink v) : Queued t q m ↔ Queued s q m := by
  simp [Queued, hv]

variable [DecidableEq P]

section

variable (h : Basic table s)

include h

theorem move (hm : Move table s p a pc) : Basic table (s.setPc p pc) := by
  refine h.rePc (setPc_cell s p pc) (fun q hq => setPc_proc_of_ne s hq pc)
    (setPc_proc_self s p pc) hm.queued hm.unlinking ?_ (fun _ _ => Iff.rfl)
    hm.acquiring hm.releasing ?_ ?_
  · rw [hm.ownsQueue]
    exact h.mutex p
  · rintro m pre rfl
    cases hm with
    | tryGet hpc hfree => exact hfree
  · intro L hL
    have hpos := hL.position p
    cases hm with
    | wakeNext hpc hcell =>
      rw [hpc] at hpos
      obtain ⟨L₁, L₂, rfl, rfl⟩ := hpos
      have hrest := hL.chain.drop
      cases L₂ with
      | nil => simp_all
      | cons x xs =>
        obtain rfl := some.inj (hrest.1.symm.trans hcell)
        exact ⟨L₁, xs, rfl, rfl⟩
    | wakeGet hpc hfree =>
      rw [hpc] at hpos
      exact ⟨hfree, hpos⟩
    | @wakeSkip caller prev q hpc hbusy hup =>
      rw [hpc] at hpos
      obtain ⟨L₁, L₂, rfl, -⟩ := hpos
      exact ⟨L₁ ++ [q], L₂, by simp, by simp⟩
    | wakeRetry hpc hne =>
      rw [hpc] at hpos
      exact hpos.2
    | _ => trivial

theorem fail (hpc : (s.proc p).pc = .tryGet mode) :
    Basic table (returnFalse s p) := by
  have hwoken := h.woken_false (p := p) (by rw [hpc]; rfl)
  have hown := h.not_owner (p := p) (by simp [hpc, Pc.ownsQueue])
  refine h.toIdle (modify_cell _ _ _ rfl) (fun q hq => modify_proc_of_ne s hq _)
    ?_ ?_ ?_ ?_ ?_ ?_ hown (fun _ _ => Iff.rfl)
  · simp [returnFalse]
  · simp [Queued, hpc, Pc.queued]
  · simp [hpc, Pc.unlinking]
  · simp [returnFalse]
  · simpa [returnFalse] using hwoken
  · simpa [returnFalse] using (h.proc p).held

theorem enter (hfree : s.lock.queueLock = none)
    (he : Enter (s.proc p).pc pc) : Basic table ((s.setQueueLock (some p)).setPc p pc) := by
  refine h.rePc (by simp) (fun q hq => setPc_proc_of_ne _ hq pc)
    (setPc_proc_self _ p pc) ?_ ?_ ?_ ?_ ?_ ?_ ?_ ?_
  · generalize (s.proc p).pc = old at he
    cases he <;> rfl
  · generalize (s.proc p).pc = old at he
    cases he <;> rfl
  · generalize (s.proc p).pc = old at he
    cases he <;> simp [Pc.ownsQueue]
  · intro q hq
    simp [hfree, Ne.symm hq]
  · intro m hm
    left
    generalize (s.proc p).pc = old at he
    cases he <;> exact hm
  · intro m hm
    left
    generalize (s.proc p).pc = old at he
    cases he <;> cases hm
  · intro m pre hset
    generalize (s.proc p).pc = old at he
    cases he <;> cases hset
  · intro L hL
    generalize (s.proc p).pc = old at he
    cases he with
    | release mode => exact ⟨[], L, rfl, rfl⟩
    | _ => trivial

theorem leave (hl : Leave table s (s.proc p).pc caller) :
    Basic table (leaveWake s p caller) := by
  have howns : (s.proc p).pc.ownsQueue = true := by
    generalize (s.proc p).pc = old at hl
    cases hl <;> rfl
  have hqueued : (s.proc p).pc.queued = Pc.waitingCaller caller := by
    generalize (s.proc p).pc = old at hl
    cases hl <;> rfl
  have hunlink : (s.proc p).pc.unlinking = none := by
    generalize (s.proc p).pc = old at hl
    cases hl <;> rfl
  have howner := (h.mutex p).mp howns
  have hmutex : ∀ q, q ≠ p → ((none : Option P) = some q ↔ s.lock.queueLock = some q) := by
    intro q hq
    simp [howner, Ne.symm hq]
  cases caller with
  | acquire mode =>
    refine h.rePc (by simp [leaveWake]) (fun q hq => setPc_proc_of_ne _ hq _)
      (setPc_proc_self _ p (.sleep mode)) hqueued.symm
      hunlink.symm (by simp [Pc.ownsQueue, leaveWake]) hmutex ?_ (by simp [Pc.releasing])
      (by simp) (fun _ _ => trivial)
    intro m hm
    exact Or.inl (Pc.acquiring_of_queued (hqueued.trans hm))
  | release =>
    have hother : ∀ q, q ≠ p → (leaveWake s p .release).proc q = s.proc q := by
      intro q hq
      rw [leaveWake, modify_proc_of_ne _ hq, setQueueLock_proc]
    refine h.toIdle (modify_cell _ _ _ rfl) hother
      (by simp [leaveWake]) ?_ hunlink (by simp [leaveWake]) ?_ ?_ (by simp [leaveWake]) hmutex
    · simp [Queued, hqueued, Pc.waitingCaller]
    · simpa [leaveWake] using h.woken_false hqueued
    · simpa [leaveWake] using (h.proc p).held

theorem acquired (c : LockCounts)
    (hacq : (s.proc p).pc.acquiring = some mode) (hwaits : ∀ m, ¬ Queued s p m)
    (hown : (s.proc p).pc.ownsQueue = false) : Basic table (acquired (s.setCounts c) p mode) := by
  have hunlink : (s.proc p).pc.unlinking = none := by
    cases hu : (s.proc p).pc.unlinking with
    | none => rfl
    | some q =>
      rw [Pc.ownsQueue_of_unlinking hu] at hown
      cases hown
  have hcell : (Gsl.acquired (s.setCounts c) p mode).cell = s.cell := by
    rw [Gsl.acquired, modify_cell _ _ _ rfl, setCounts_cell]
  refine h.toIdle hcell (fun q hq => modify_proc_of_ne _ hq _)
    (by simp [Gsl.acquired]) hwaits hunlink (by simp [Gsl.acquired]) (by simp [Gsl.acquired]) ?_
    (h.not_owner hown) (fun _ _ => Iff.rfl)
  simpa [Gsl.acquired] using h.held_acquired hacq

theorem raise (c : LockCounts) (hpc : (s.proc p).pc = .acqSet mode pre) :
    Basic table ((s.setCounts c).setPc p (.acqMutex mode)) := by
  refine h.rePc (by simp) (fun q hq => setPc_proc_of_ne _ hq _)
    (setPc_proc_self _ p _) ?_ ?_ ?_ (fun _ _ => Iff.rfl) ?_ ?_ ?_ (fun _ _ => trivial)
  · simp [hpc, Pc.queued]
  · simp [hpc, Pc.unlinking]
  · simpa [hpc, Pc.ownsQueue] using h.mutex p
  · simp [hpc, Pc.acquiring, Pc.transient]
  · simp [Pc.releasing]
  · simp

theorem undo (c : LockCounts) (hpc : (s.proc p).pc = .undoSet mode pre) :
    Basic table ((s.setCounts c).setPc p (.enqueue mode)) := by
  refine h.rePc (by simp) (fun q hq => setPc_proc_of_ne _ hq _)
    (setPc_proc_self _ p _) ?_ ?_ ?_ (fun _ _ => Iff.rfl) ?_ ?_ ?_ (fun _ _ => trivial)
  · simp [hpc, Pc.queued]
  · simp [hpc, Pc.unlinking]
  · simpa [hpc, Pc.ownsQueue] using h.mutex p
  · simp [hpc, Pc.acquiring, Pc.transient, Pc.published]
  · simp [Pc.releasing]
  · simp

theorem release (post : LockCounts) (hpc : (s.proc p).pc = .relSet mode pre) :
    Basic table (released table s p mode post) := by
  have hheld := h.held_released (p := p) (m := mode) (by rw [hpc]; rfl)
  have hwoken := h.woken_false (p := p) (by rw [hpc]; rfl)
  have hmutex := h.mutex p
  have hself := modify_proc_self (s.setCounts post) p
  refine h.frame (p := p) ?_ (fun q hq => modify_proc_of_ne _ hq _) ?_ ?_ ?_ ?_
    (fun _ _ => Iff.rfl) ?_ ?_
  · rw [released, modify_cell, setCounts_cell]
    dsimp only
    split <;> rfl
  · rw [released, hself]
    dsimp only
    split <;> rfl
  · simp [Queued, hpc, Pc.queued]
  · rw [released, hself, hpc]
    dsimp only
    split <;> rfl
  · rw [released, hself]
    dsimp only
    split <;> simpa [hpc, Pc.ownsQueue] using hmutex
  · rw [released, hself]
    dsimp only
    split <;> exact {
      held := hheld
      want := by simp [Pc.queued]
      woken := by simp [hwoken]
      acquiring := by simp [Pc.acquiring, Pc.transient, Pc.published, Pc.queued]
      releasing := by simp [Pc.releasing]
      trying := by simp }
  · intro L _
    rw [released, hself]
    dsimp only
    split <;> trivial

end

theorem chain_enqueue (hnot : ∀ L, QueueOk table s L → p ∉ L)
    (hL : QueueOk table s L) (mode : Mode) :
    ∃ L', Chain (Gsl.enqueue s p mode).cell .head L' ∧ ∀ q ∈ L', q ∈ L ∨ q = p := by
  have hp := hnot L hL
  cases hhold : holdLock (s.proc p) with
  | true =>
    rw [enqueue_cell_upgrade s p mode hhold]
    refine ⟨p :: L, hL.chain.push hp, ?_⟩
    intro q hq
    rcases mem_cons.mp hq with hq | hq
    · exact Or.inr hq
    · exact Or.inl hq
  | false =>
    rw [enqueue_cell_fair s p mode hhold]
    cases tailCell s with
    | some k => exact hL.chain.append_through hp k
    | none => exact ⟨L, hL.chain.write_outside hp none, fun q hq => Or.inl hq⟩

theorem enqueue (h : Basic table s) (hpc : (s.proc p).pc = .enqueue mode) :
    Basic table (enqueue s p mode) := by
  have hown : (s.proc p).pc.ownsQueue = true := by rw [hpc]; rfl
  have hunlink : (s.proc p).pc.unlinking = none := by rw [hpc]; rfl
  have hwoken := h.woken_false (p := p) (by rw [hpc]; rfl)
  have hacq := (h.proc p).acquiring mode (by rw [hpc]; rfl)
  have howner := (h.mutex p).mp hown
  have hnot : ∀ L, QueueOk table s L → p ∉ L := by
    intro L hL hmem
    obtain ⟨m, hm⟩ := h.listed_queued hL hown hunlink hmem
    simp [Queued, hpc, Pc.queued] at hm
  obtain ⟨L, hL⟩ := h.queue
  obtain ⟨L', hchain, hmem⟩ := chain_enqueue hnot hL mode
  obtain ⟨v, hself⟩ := enqueue_proc_self s p mode
  refine h.relist hown (fun q hq => enqueue_proc_of_ne s mode hq) ?_ ?_ ?_ hchain ?_ ?_
  · simp [hself, Pc.ownsQueue, howner]
  · intro q hq
    simp [howner, Ne.symm hq]
  · rw [hself]
    exact {
      held := (h.proc p).held
      want := by simp [Pc.queued, Pc.waitingCaller]
      woken := by simp [hwoken]
      acquiring := by simpa [Pc.acquiring, Pc.transient, Pc.published, Pc.queued,
        Pc.waitingCaller] using hacq
      releasing := by simp [Pc.releasing]
      trying := by simp }
  · intro q hq
    by_cases hqp : q = p
    · subst q
      exact ⟨mode, by simp [Queued, hself, Pc.queued, Pc.waitingCaller, hwoken]⟩
    · obtain ⟨w, hw⟩ := enqueue_proc_of_ne s mode hqp
      obtain ⟨m, hm⟩ := h.listed_queued hL hown hunlink ((hmem q hq).resolve_right hqp)
      exact ⟨m, (queued_relink hw).mpr hm⟩
  · rw [hself]
    exact ⟨[], L', rfl, rfl⟩

theorem unlink (h : Basic table s) {prev : Cell P}
    (hpc : (s.proc p).pc = .wakeUnlink caller prev q) :
    Basic table ((unlink s prev q).setPc p (.wake caller prev)) := by
  have hown : (s.proc p).pc.ownsQueue = true := by rw [hpc]; rfl
  have howner := (h.mutex p).mp hown
  have hp := h.proc p
  obtain ⟨L, hL⟩ := h.queue
  have hpos := hL.position p
  rw [hpc] at hpos
  obtain ⟨L₁, L₂, rfl, rfl⟩ := hpos
  have hchain := hL.chain.unlink
  have hnodup := hL.chain.nodup
  have hrelink : ∀ x, ∃ v, (Gsl.unlink s (lastCell .head L₁) q).proc x = (s.proc x).relink v :=
    fun x => ⟨_, unlink_proc s (lastCell .head L₁) q x⟩
  have hother : ∀ x, x ≠ p → ∃ v, ((Gsl.unlink s (lastCell .head L₁) q).setPc p
      (.wake caller (lastCell .head L₁))).proc x = (s.proc x).relink v := by
    intro x hx
    rw [setPc_proc_of_ne _ hx]
    exact hrelink x
  obtain ⟨v, hv⟩ := hrelink p
  have hself := setPc_proc_self (Gsl.unlink s (lastCell .head L₁) q) p
    (.wake caller (lastCell .head L₁))
  rw [hv] at hself
  refine h.relist hown hother ?_ ?_ ?_ (L := L₁ ++ L₂) ?_ ?_ ?_
  · simp [Pc.ownsQueue, howner]
  · intro x hx
    simp [howner, Ne.symm hx]
  · rw [hself]
    refine ⟨hp.held, ?_, ?_, ?_, by simp [Pc.releasing], by simp⟩
    · simpa [hpc, Pc.queued] using hp.want
    · simpa [hpc, Pc.queued] using hp.woken
    · simpa [hpc, Pc.acquiring, Pc.transient, Pc.published, Pc.queued] using hp.acquiring
  · rw [setPc_cell, unlink_cell]
    exact hchain
  · intro x hx
    have hxL : x ∈ L₁ ++ q :: L₂ := by
      rcases mem_append.mp hx with hx | hx <;> simp [hx]
    have hxq : x ≠ q := by
      rintro rfl
      rw [nodup_append] at hnodup
      rcases mem_append.mp hx with hx | hx
      · exact hnodup.2.2 x hx x (by simp) rfl
      · exact (nodup_cons.mp hnodup.2.1).1 hx
    rcases hL.listed x hxL with ⟨m, hm⟩ | ⟨w, hw⟩
    · refine ⟨m, ?_⟩
      by_cases hxp : x = p
      · subst x
        rw [Queued, hself]
        rw [Queued, hpc] at hm
        exact hm
      · obtain ⟨w, hw⟩ := hother x hxp
        exact (queued_relink hw).mpr hm
    · obtain rfl := h.owner_unique (Pc.ownsQueue_of_unlinking hw) hown
      rw [hpc] at hw
      exact absurd (some.inj hw).symm hxq
  · rw [hself]
    exact ⟨L₁, L₂, rfl, rfl⟩

theorem grant (h : Basic table s) (hpc : (s.proc p).pc = .wakeSet caller prev q pre) :
    Basic table ((grant s q pre).setPc p (.wakeUnlink caller prev q)) := by
  have hown : (s.proc p).pc.ownsQueue = true := by rw [hpc]; rfl
  have hunlink : (s.proc p).pc.unlinking = none := by rw [hpc]; rfl
  have howner := (h.mutex p).mp hown
  obtain ⟨L, hL⟩ := h.queue
  have hpos := hL.position p
  rw [hpc] at hpos
  obtain ⟨-, L₁, L₂, rfl, rfl⟩ := hpos
  obtain ⟨mq, hq⟩ := h.listed_queued hL hown hunlink (q := q) (by simp)
  have hwant := ((h.proc q).want mq hq.1).1
  have hproc := grant_proc s p q pre (.wakeUnlink caller (lastCell .head L₁) q)
  have hqueued : ∀ x, (if x = p then .wakeUnlink caller (lastCell .head L₁) q
      else (s.proc x).pc).queued = (s.proc x).pc.queued := by
    intro x
    by_cases hx : x = p
    · simp [hx, hpc, Pc.queued]
    · simp [hx]
  refine ⟨?_, ?_, L₁ ++ q :: L₂, ?_, ?_, ?_⟩
  · intro x
    rw [hproc x]
    by_cases hx : x = p
    · simp [hx, Pc.ownsQueue, howner]
    · simpa [hx] using h.mutex x
  · intro x
    have hx := h.proc x
    rw [hproc x]
    refine ⟨hx.held, ?_, ?_, ?_, ?_, ?_⟩
    · intro m hm
      exact hx.want m ((hqueued x).symm.trans hm)
    · intro hw
      rw [hqueued x]
      by_cases hxq : x = q
      · subst x
        exact hq.1.trans (congrArg some hwant.symm)
      · exact hx.woken (by simpa [hxq] using hw)
    · intro m hm
      by_cases hxp : x = p
      · subst x
        refine hx.acquiring m ?_
        simpa [hpc, Pc.acquiring, Pc.transient, Pc.published, Pc.queued] using hm
      · exact hx.acquiring m (by simpa [hxp] using hm)
    · intro m hm
      by_cases hxp : x = p
      · simp [hxp, Pc.releasing] at hm
      · exact hx.releasing m (by simpa [hxp] using hm)
    · intro m c hm
      by_cases hxp : x = p
      · simp [hxp] at hm
      · exact hx.trying m c (by simpa [hxp] using hm)
  · simpa using hL.chain
  · intro x hx
    by_cases hxq : x = q
    · right
      refine ⟨p, ?_⟩
      rw [hproc p, hxq]
      simp [Pc.unlinking]
    · left
      obtain ⟨m, hm⟩ := h.listed_queued hL hown hunlink hx
      refine ⟨m, ?_⟩
      rw [Queued, hproc x]
      exact ⟨(hqueued x).trans hm.1, by simpa [hxq] using hm.2⟩
  · intro w
    rw [hproc w]
    by_cases hw : w = p
    · simpa [hw] using ⟨L₁, L₂, rfl, rfl⟩
    · refine position_of_not_owner ?_
      simpa [hw] using h.other_not_owner hown hw

theorem cancelGranted (h : Basic table s)
    (hpc : (s.proc p).pc = .cancelLocked mode) (hwoken : (s.proc p).woken = true) :
    Basic table (cancelGranted s p) := by
  have howner := (h.mutex p).mp (by rw [hpc]; rfl)
  have hwant := ((h.proc p).want mode (by rw [hpc]; rfl)).1
  have hcell : (Gsl.cancelGranted s p).cell = s.cell := by
    rw [Gsl.cancelGranted, modify_cell _ _ _ rfl, setQueueLock_cell]
  refine h.toIdle hcell (fun q hq => modify_proc_of_ne _ hq _)
    (by simp [Gsl.cancelGranted]) ?_ ?_ (by simp [Gsl.cancelGranted])
    (by simp [Gsl.cancelGranted]) ?_ (by simp [Gsl.cancelGranted]) ?_
  · simp [Queued, hwoken]
  · rw [hpc]
    rfl
  · have hheld := h.held_acquired (p := p) (m := mode) (by rw [hpc]; rfl)
    simpa [Gsl.cancelGranted, hwant] using hheld
  · intro q hq
    simp [Gsl.cancelGranted, howner, Ne.symm hq]

theorem queued_found [Fintype P] (hs : Basic table s) {prev : Cell P}
    (hpc : (s.proc p).pc = .cancelLocked mode)
    (hfind : findLink s.cell p (Fintype.card P + 1) .head = some prev) :
    Queued s p mode ∧ (s.proc p).shared.wantMode = mode := by
  obtain ⟨L, hL⟩ := hs.queue
  obtain ⟨L₁, L₂, rfl, -⟩ := findLink_eq_some hL.chain hfind
  obtain ⟨m, hm⟩ := hs.listed_queued hL (p := p) (by rw [hpc]; rfl) (by rw [hpc]; rfl)
    (q := p) (by simp)
  have hqueued : (s.proc p).pc.queued = some mode := by
    rw [hpc]
    rfl
  exact ⟨⟨hqueued, hm.2⟩, ((hs.proc p).want mode hqueued).1⟩

theorem cancelQueued [Fintype P] (h : Basic table s) {prev : Cell P}
    (hpc : (s.proc p).pc = .cancelLocked mode)
    (hfind : findLink s.cell p (Fintype.card P + 1) .head = some prev) :
    Basic table (cancelQueued s p prev) := by
  have hown : (s.proc p).pc.ownsQueue = true := by rw [hpc]; rfl
  have hunlink : (s.proc p).pc.unlinking = none := by rw [hpc]; rfl
  have hp := h.proc p
  obtain ⟨L, hL⟩ := h.queue
  obtain ⟨L₁, L₂, rfl, rfl⟩ := findLink_eq_some hL.chain hfind
  obtain ⟨m, hm⟩ := h.listed_queued hL hown hunlink (q := p) (by simp)
  have hchain := hL.chain.unlink
  have hnodup := hL.chain.nodup
  have hcell : (Gsl.cancelQueued s p (lastCell .head L₁)).cell =
      (Gsl.unlink s (lastCell .head L₁) p).cell := by
    rw [Gsl.cancelQueued, modify_cell _ _ _ rfl, setQueueLock_cell]
  have hother : ∀ x, x ≠ p →
      ∃ v, (Gsl.cancelQueued s p (lastCell .head L₁)).proc x = (s.proc x).relink v := by
    intro x hx
    refine ⟨(Gsl.unlink s (lastCell .head L₁) p).cell (.next x), ?_⟩
    rw [Gsl.cancelQueued, modify_proc_of_ne _ hx, setQueueLock_proc, unlink_proc]
  have hself : (Gsl.cancelQueued s p (lastCell .head L₁)).proc p =
      { (s.proc p).relink ((Gsl.unlink s (lastCell .head L₁) p).cell (.next p)) with
        lastLocalHold := lcZero (s.proc p).holding, result := true, pc := .idle } := by
    rw [Gsl.cancelQueued, modify_proc_self, setQueueLock_proc, unlink_proc]
    rfl
  refine h.relist hown hother ?_ ?_ ?_ (L := L₁ ++ L₂) ?_ ?_ ?_
  · rw [hself]
    simp [Pc.ownsQueue, Gsl.cancelQueued]
  · simp [Gsl.cancelQueued]
  · rw [hself]
    refine ⟨hp.held, by simp [Pc.queued], ?_, ?_, by simp [Pc.releasing], by simp⟩
    · simp [hm.2]
    · simp [Pc.acquiring, Pc.transient, Pc.published, Pc.queued]
  · rw [hcell, unlink_cell]
    exact hchain
  · intro x hx
    have hxp : x ≠ p := by
      rintro rfl
      rw [nodup_append] at hnodup
      rcases mem_append.mp hx with hx | hx
      · exact hnodup.2.2 x hx x (by simp) rfl
      · exact (nodup_cons.mp hnodup.2.1).1 hx
    have hxL : x ∈ L₁ ++ p :: L₂ := by
      rcases mem_append.mp hx with hx | hx <;> simp [hx]
    obtain ⟨m', hm'⟩ := h.listed_queued hL hown hunlink hxL
    obtain ⟨v, hv⟩ := hother x hxp
    exact ⟨m', (queued_relink hv).mpr hm'⟩
  · rw [hself]
    trivial

theorem trans [Fintype P] (h : Basic table s) (hok : CancelsOk s (p, a))
    (ht : Trans table s p a t) : Basic table t := by
  cases ht with
  | move hm => exact h.move hm
  | fail hpc _ => exact h.fail hpc
  | enter hfree he => exact h.enter hfree he
  | leave hl => exact h.leave hl
  | fastTry hpc | fast hpc _ =>
    exact h.acquired _ (by rw [hpc]; rfl) (by simp [Queued, hpc, Pc.queued]) (by rw [hpc]; rfl)
  | raise hpc _ => exact h.raise _ hpc
  | undo hpc => exact h.undo _ hpc
  | enqueue hpc => exact h.enqueue hpc
  | grant hpc => exact h.grant hpc
  | unlink hpc => exact h.unlink hpc
  | resume hpc hwoken =>
    exact h.acquired s.lock.c (by rw [hpc]; rfl) (by simp [Queued, hwoken]) (by rw [hpc]; rfl)
  | release hpc => exact h.release _ hpc
  | cancelGranted hpc hnull => exact h.cancelGranted hpc (hok _ hpc hnull)
  | cancelQueued hpc _ hfind _ => exact h.cancelQueued hpc hfind

end Basic

theorem basic_of_reachable [DecidableEq P] [Fintype P] (hok : ∀ s a, ok s a → CancelsOk s a)
    (h : Transition.Reachable (system table) ok s) : Basic table s := by
  refine h.invariant (fun s (hs : Initial s) => hs.basic) ?_
  intro s a t _ hs hallowed hstep
  exact hs.trans (hok s a hallowed) (trans_of_step hstep)

def NoCancel (_ : State P) (a : P × Act) : Prop := a.2 ≠ .cancel

instance (s : State P) (a : P × Act) : Decidable (NoCancel s a) :=
  inferInstanceAs (Decidable (_ ≠ _))

def Pc.canceling : Pc P → Bool
  | .cancelMutex _ | .cancelLocked _ => true
  | _ => false

theorem Trans.canceling [DecidableEq P] [Fintype P] (h : Trans table s p a t) (ha : a ≠ .cancel)
    (hx : (t.proc x).pc.canceling = true) : (s.proc x).pc.canceling = true := by
  by_cases hxp : x = p
  · subst x
    cases h with
    | move hm =>
      rw [setPc_proc_self] at hx
      cases hm <;> simp_all [Pc.canceling]
    | enter _ he =>
      rw [setPc_proc_self] at hx
      generalize (s.proc p).pc = old at he
      cases he <;> first | rfl | cases hx
    | @leave caller _ => cases caller <;> simp [leaveWake, Pc.canceling] at hx
    | @enqueue mode _ =>
      obtain ⟨v, hself⟩ := enqueue_proc_self s p mode
      simp [hself, Pc.canceling] at hx
    | release _ =>
      rw [released, modify_proc_self] at hx
      dsimp only at hx
      split at hx <;> cases hx
    | grant _ => simp [Pc.canceling] at hx
    | _ => simp_all [returnFalse, acquired, Gsl.cancelGranted, Gsl.cancelQueued, Pc.canceling]
  · rwa [h.pc_of_ne hxp] at hx

theorem canceling_eq_false [DecidableEq P] [Fintype P] (hok : ∀ s a, ok s a → NoCancel s a)
    (h : Transition.Reachable (system table) ok s) : ∀ p, (s.proc p).pc.canceling = false := by
  refine h.invariant (I := fun s => ∀ p, (s.proc p).pc.canceling = false) ?_ ?_
  · intro s hs p
    rw [Initial.pc hs p]
    rfl
  · intro s a t _ hnot hallowed hstep p
    by_contra hp
    have hold := (trans_of_step hstep).canceling (hok s a hallowed) (by simpa using hp)
    simp [hnot p] at hold

theorem reachable_cancelsOk [DecidableEq P] [Fintype P] (hok : ∀ s a, ok s a → NoCancel s a)
    (h : Transition.Reachable (system table) ok s) :
    Transition.Reachable (system table) (fun s a => CancelsOk s a ∧ ok s a) s := by
  refine (h.strengthen fun s hs => canceling_eq_false hok hs).mono ?_
  intro s a ha
  refine ⟨?_, ha.2⟩
  intro m hpc _
  have hcancel := ha.1 a.1
  rw [hpc] at hcancel
  cases hcancel

end Mosbench.Gsl
