import Mosbench.Gsl.WaitBits

/-!
Runs without upgrades and without cancellation. Wake only ever works at the head of the queue,
`waiterTail` is always right, and a wait bit keeps every later conflicting request behind the
process that set it.
-/
namespace Mosbench.Gsl

open State Links

def NoUpgrade (s : State P) (a : P × Act) : Prop :=
  ∀ mode dontWait, a.2 = .acquire mode dontWait → (s.proc a.1).holding = 0#128

instance (s : State P) (a : P × Act) : Decidable (NoUpgrade s a) :=
  inferInstanceAs (Decidable (∀ _ : Mode, ∀ _ : Bool, _ → _))

def FairStep (s : State P) (a : P × Act) : Prop := NoCancel s a ∧ NoUpgrade s a

instance (s : State P) (a : P × Act) : Decidable (FairStep s a) :=
  inferInstanceAs (Decidable (_ ∧ _))

def Pc.cursor : Pc P → Option (Cell P)
  | .wake _ prev | .wakeGet _ prev _ | .wakeSet _ prev _ _ | .wakeUnlink _ prev _ => some prev
  | _ => none

/-- Whoever acquires holds nothing, waiters are fair, and wake works at the head. -/
structure FairState (s : State P) : Prop where
  fresh : ∀ p m, (s.proc p).pc.acquiring = some m → (s.proc p).holding = 0#128
  fair : ∀ p m, (s.proc p).pc.queued = some m → (s.proc p).shared.isUpgrade = false
  head : ∀ p prev, (s.proc p).pc.cursor = some prev → prev = .head
  calm : ∀ p, (s.proc p).pc.canceling = false

theorem Initial.fairState (h : Initial s) : FairState s where
  fresh p m hm := by
    rw [h.pc p] at hm
    cases hm
  fair p m hm := by
    rw [h.pc p] at hm
    cases hm
  head p prev hm := by
    rw [h.pc p] at hm
    cases hm
  calm p := by
    rw [h.pc p]
    rfl

namespace FairState

variable [DecidableEq P] [Fintype P] {s : State P}

theorem of_self (h : FairState s) (ht : Trans table s p a t)
    (hfresh : ∀ m, (t.proc p).pc.acquiring = some m → (t.proc p).holding = 0#128)
    (hfair : ∀ m, (t.proc p).pc.queued = some m → (t.proc p).shared.isUpgrade = false)
    (hhead : ∀ prev, (t.proc p).pc.cursor = some prev → prev = .head)
    (hcalm : (t.proc p).pc.canceling = false) : FairState t := by
  have hother : ∀ x, x ≠ p → (t.proc x).holding = (s.proc x).holding ∧
      (t.proc x).shared.isUpgrade = (s.proc x).shared.isUpgrade := by
    intro x hx
    rcases ht.proc_of_ne hx with ⟨v, hv⟩ | ⟨-, hv⟩
    · rw [hv]
      exact ⟨rfl, rfl⟩
    · rw [hv]
      exact ⟨rfl, rfl⟩
  refine ⟨?_, ?_, ?_, ?_⟩
  · intro x m hm
    by_cases hx : x = p
    · rw [hx] at hm ⊢
      exact hfresh m hm
    · rw [ht.pc_of_ne hx] at hm
      rw [(hother x hx).1]
      exact h.fresh x m hm
  · intro x m hm
    by_cases hx : x = p
    · rw [hx] at hm ⊢
      exact hfair m hm
    · rw [ht.pc_of_ne hx] at hm
      rw [(hother x hx).2]
      exact h.fair x m hm
  · intro x prev hm
    by_cases hx : x = p
    · rw [hx] at hm
      exact hhead prev hm
    · rw [ht.pc_of_ne hx] at hm
      exact h.head x prev hm
  · intro x
    by_cases hx : x = p
    · rw [hx]
      exact hcalm
    · rw [ht.pc_of_ne hx]
      exact h.calm x

theorem of_done (h : FairState s) (ht : Trans table s p a t)
    (hdone : (t.proc p).pc = .idle ∨ ∃ m, (t.proc p).pc = .relMutex m) : FairState t := by
  refine h.of_self ht ?_ ?_ ?_ ?_
  · intro m hm
    rcases hdone with hpc | ⟨n, hpc⟩ <;> rw [hpc] at hm <;> cases hm
  · intro m hm
    rcases hdone with hpc | ⟨n, hpc⟩ <;> rw [hpc] at hm <;> cases hm
  · intro prev hm
    rcases hdone with hpc | ⟨n, hpc⟩ <;> rw [hpc] at hm <;> cases hm
  · rcases hdone with hpc | ⟨n, hpc⟩ <;> rw [hpc] <;> rfl

theorem of_kept (h : FairState s) (ht : Trans table s p a t)
    (hholding : (t.proc p).holding = (s.proc p).holding)
    (hupgrade : (t.proc p).shared.isUpgrade = (s.proc p).shared.isUpgrade)
    (hacq : ∀ m, (t.proc p).pc.acquiring = some m → (s.proc p).pc.acquiring = some m)
    (hqueued : ∀ m, (t.proc p).pc.queued = some m → (s.proc p).pc.queued = some m)
    (hcursor : ∀ prev, (t.proc p).pc.cursor = some prev →
      (s.proc p).pc.cursor = some prev ∨ prev = .head)
    (hcalm : (t.proc p).pc.canceling = false) : FairState t := by
  refine h.of_self ht ?_ ?_ ?_ hcalm
  · intro m hm
    rw [hholding]
    exact h.fresh p m (hacq m hm)
  · intro m hm
    rw [hupgrade]
    exact h.fair p m (hqueued m hm)
  · intro prev hm
    rcases hcursor prev hm with hold | rfl
    · exact h.head p prev hold
    · rfl

omit [DecidableEq P] [Fintype P] in
theorem target_fair (h : FairState s) (hs : Basic table s)
    (hpc : (s.proc p).pc = .wakeGet caller prev q) :
    (s.proc q).shared.isUpgrade = false := by
  obtain ⟨L, hL⟩ := hs.queue
  have hpos := hL.position p
  rw [hpc] at hpos
  obtain ⟨L₁, L₂, rfl, -⟩ := hpos
  obtain ⟨m, hm⟩ := hs.listed_queued hL (p := p) (by rw [hpc]; rfl) (by rw [hpc]; rfl)
    (q := q) (by simp)
  exact h.fair q m hm.1

theorem move (h : FairState s) (hs : Basic table s)
    (hok : FairStep s (p, a)) (hm : Move table s p a pc) : FairState (s.setPc p pc) := by
  have hqueued := hm.queued
  refine h.of_self (.move hm) ?_ ?_ ?_ ?_
  · intro m hacq
    rw [setPc_proc_self] at hacq ⊢
    have hold : (s.proc p).pc.acquiring = some m ∨ ∃ d, a = .acquire m d := by
      cases hm <;> simp_all [Pc.acquiring, Pc.transient, Pc.published, Pc.queued]
    rcases hold with hold | ⟨d, rfl⟩
    · exact h.fresh p m hold
    · exact hok.2 m d rfl
  · intro m hm'
    rw [setPc_proc_self] at hm' ⊢
    exact h.fair p m (hqueued ▸ hm')
  · intro prev hcursor
    rw [setPc_proc_self] at hcursor
    cases hm with
    | wakeSkip hpc _ hup =>
      rw [h.target_fair hs hpc] at hup
      cases hup
    | wakeNext hpc _ | wakeGet hpc _ | wakeRetry hpc _ =>
      exact h.head p prev (by rw [hpc]; exact hcursor)
    | _ => cases hcursor
  · rw [setPc_proc_self]
    have hcalm := h.calm p
    have hcancel := hok.1
    cases hm <;> simp_all [Pc.canceling, NoCancel]

theorem trans (h : FairState s) (hs : Basic table s) (hok : FairStep s (p, a))
    (ht : Trans table s p a t) : FairState t := by
  have hcalm := h.calm p
  have hself := h.of_self ht
  have hkept := h.of_kept ht
  have hdone := h.of_done ht
  cases ht with
  | move hm => exact h.move hs hok hm
  | fail hpc hbusy => exact hdone (Or.inl (by simp [returnFalse]))
  | enter hfree he =>
    rw [setPc_proc_self] at hkept
    refine hkept rfl rfl ?_ ?_ ?_ ?_
    · intro m hm
      generalize (s.proc p).pc = old at he
      cases he <;> exact hm
    · intro m hm
      generalize (s.proc p).pc = old at he
      cases he <;> exact hm
    · intro prev hprev
      generalize (s.proc p).pc = old at he
      cases he with
      | release mode => exact Or.inr (Option.some.inj hprev).symm
      | _ => cases hprev
    · generalize (s.proc p).pc = old at he hcalm
      cases he with
      | cancel mode => cases hcalm
      | _ => rfl
  | @leave caller hl =>
    cases caller with
    | acquire mode =>
      have hqueued : (s.proc p).pc.queued = some mode := by
        generalize (s.proc p).pc = old at hl
        cases hl <;> rfl
      rw [leaveWake, setPc_proc_self] at hkept
      exact hkept rfl rfl (fun m hm => Pc.acquiring_of_queued (hqueued.trans hm))
        (fun m hm => hqueued.trans hm) (fun prev hprev => by cases hprev) rfl
    | release => exact hdone (Or.inl (by simp [leaveWake]))
  | fastTry hpc | fast hpc hfree | resume hpc hwoken => exact hdone (Or.inl (by simp [acquired]))
  | raise hpc hbusy | undo hpc =>
    rw [setPc_proc_self] at hkept
    exact hkept rfl rfl (fun m hm => by rw [hpc]; exact hm) (fun m hm => by cases hm)
      (fun prev hprev => by cases hprev) rfl
  | @enqueue mode hpc =>
    obtain ⟨v, hv⟩ := enqueue_proc_self s p mode
    have hzero := h.fresh p mode (by rw [hpc]; rfl)
    rw [hv] at hself
    refine hself (fun _ _ => hzero) (fun _ _ => ?_) (fun prev hprev => ?_) rfl
    · simp [holdLock, hzero, lcNonZero]
    · exact (Option.some.inj hprev).symm
  | grant hpc =>
    refine hkept (by rw [grant_proc]) (by rw [grant_proc]) ?_ ?_ ?_ ?_
    · intro m hm
      rw [grant_proc, if_pos rfl] at hm
      rw [hpc]
      exact hm
    · intro m hm
      rw [grant_proc, if_pos rfl] at hm
      rw [hpc]
      exact hm
    · intro prev hprev
      rw [grant_proc, if_pos rfl] at hprev
      rw [hpc]
      exact Or.inl hprev
    · rw [grant_proc, if_pos rfl]
      rfl
  | unlink hpc =>
    rw [setPc_proc_self, unlink_proc] at hkept
    exact hkept rfl rfl (fun m hm => by rw [hpc]; exact hm) (fun m hm => by rw [hpc]; exact hm)
      (fun prev hprev => by rw [hpc]; exact Or.inl hprev) rfl
  | @release mode hpc =>
    refine hdone ?_
    rw [released, modify_proc_self]
    dsimp only
    split
    · exact Or.inl rfl
    · exact Or.inr ⟨mode, rfl⟩
  | cancelGranted hpc _ | cancelQueued hpc _ _ _ =>
    rw [hpc] at hcalm
    cases hcalm

end FairState

variable [DecidableEq P] [Fintype P] {s : State P}

theorem fair_of_reachable (h : Transition.Reachable (system table) FairStep s) : FairState s := by
  refine (reachable_cancelsOk (fun _ _ h => h.1) h).invariant
    (fun s (hs : Initial s) => hs.fairState) ?_
  intro s a t hreach hI hok hstep
  exact hI.trans (basic_of_reachable (fun _ _ h => h.1) hreach) (a := a.2) hok.2
    (trans_of_step hstep)

omit [DecidableEq P] [Fintype P] in
theorem FairState.stepOk (h : FairState s) (a : P × Act) :
    CancelsOk s a ∧ TailKept s a ∧ CancelsShared s a := by
  have hcalm := h.calm a.1
  refine ⟨?_, ?_, ?_⟩
  · intro m hpc _
    rw [hpc] at hcalm
    cases hcalm
  · cases hpc : (s.proc a.1).pc <;> simp only [TailKept, hpc]
    intro _
    exact h.head a.1 _ (by rw [hpc]; rfl)
  · intro m hpc _
    rw [hpc] at hcalm
    cases hcalm

theorem fair_reachable (h : Transition.Reachable (system table) FairStep s) :
    Transition.Reachable (system table)
      (fun s a => CancelsOk s a ∧ TailKept s a ∧ CancelsShared s a) s :=
  (h.strengthen fun _ hs => fair_of_reachable hs).mono fun _ a hI => hI.1.stepOk a

/-- The invariants of all the earlier modules, for runs without upgrades and cancellation. -/
structure FairInvariant (table : ConflictTable) (s : State P) : Prop where
  fairState : FairState s
  basic : Basic table s
  waitCounted : WaitCounted s
  linked : ∃ L, Linked s L

theorem fairInvariant_of_reachable (h : Transition.Reachable (system table) FairStep s) :
    FairInvariant table s := by
  have hsafe := fair_reachable h
  exact ⟨fair_of_reachable h, basic_of_reachable (fun _ _ h => h.1) hsafe,
    waitCounted_of_reachable (fun _ _ h => h.1) hsafe,
    linked_of_reachable (fun _ _ h => ⟨h.1, h.2.1⟩) hsafe⟩

theorem fair_waitBits (hcard : Fintype.card P < 2 ^ 15)
    (h : Transition.Reachable (system table) FairStep s) : CountsAre s (waitBits s) :=
  waitBits_of_reachable (fun _ _ h => ⟨h.1, h.2.2⟩) hcard (fair_reachable h)

end Mosbench.Gsl
