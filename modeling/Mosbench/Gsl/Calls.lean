import Mosbench.Gsl.WaitBits

/-!
What a caller of gslAcquire and gslRelease can rely on, without cancellation.
-/
namespace Mosbench.Gsl

open State

variable [DecidableEq P] [Fintype P] {s : State P}

def Used (table : ConflictTable) (s : State P) : Prop :=
  Transition.Reachable (system table) NoCancel s

theorem Used.basic (h : Used table s) : Basic table s :=
  basic_of_reachable (fun _ _ h => h.1) (reachable_cancelsOk (fun _ _ h => h) h)

theorem Used.canceling (h : Used table s) (x : P) : (s.proc x).pc.canceling = false :=
  canceling_eq_false (fun _ _ h => h) h x

theorem Used.countsAre (hcard : Fintype.card P < 2 ^ 15) (h : Used table s) :
    CountsAre s (waitBits s) := by
  have hsafe : Transition.Reachable (system table)
      (fun s a => CancelsOk s a ∧ CancelsShared s a) s := by
    refine (h.strengthen fun s hs => canceling_eq_false (fun _ _ h => h) hs).mono ?_
    intro s a ha
    have hcancel := ha.1 a.1
    constructor
    · intro m hpc _
      rw [hpc] at hcancel
      cases hcancel
    · intro m hpc _
      rw [hpc] at hcancel
      cases hcancel
  exact waitBits_of_reachable (fun _ _ h => h) hcard hsafe

theorem Used.unused (hcard : Fintype.card P < 2 ^ 15) (h : Used table s)
    (hzero : s.lock.c = 0#128) (x : P) (m : Mode) :
    ¬ Holds s x m ∧ (s.proc x).pc.transient ≠ some m ∧ ¬ Published s x m := by
  have hcounts := h.countsAre hcard
  have hall := (counts_eq_zero_iff _ _ (h.basic.inRange hcard)).mp (hcounts.symm.trans hzero) m
  have hnone : contribution (s.proc x) m = 0 := by
    have hle := Tally.le_sum (fun q => contribution (s.proc q) m) x
    have htotal : ∑ q, contribution (s.proc q) m = 0 := hall.1
    omega
  refine ⟨?_, ?_, ?_⟩
  · intro hholds
    have hpos := hholds.contribution_pos
    omega
  · intro htr
    rw [contribution, if_pos htr] at hnone
    omega
  · intro hpub
    exact of_decide_eq_false hall.2 ⟨x, hpub⟩

theorem Used.holding_eq_zero (hcard : Fintype.card P < 2 ^ 15) (h : Used table s)
    (hzero : s.lock.c = 0#128) (x : P) :
    (s.proc x).holding = 0#128 ∧ (s.proc x).woken = false := by
  have hunused := h.unused hcard hzero x
  constructor
  · obtain ⟨held, hheld⟩ := (h.basic.proc x).held
    have hnone : held = fun _ => false := by
      funext m
      by_contra hm
      refine (hunused m).1 (.inl ?_)
      rw [hheld, lcGetActive_heldWord]
      simpa using hm
    rw [hheld, hnone, heldWord_none]
  · by_contra hwoken
    exact (hunused _).1 (.inr ⟨by simpa using hwoken, rfl⟩)

theorem Used.after_run (h : Used table s) (hrun : run table s p = some t) : Used table t :=
  Transition.Reachable.step h (a := (p, .run)) (by simp [NoCancel]) hrun

/-- A call as its caller sees it: a step inside it, a successful or refused
return of gslAcquire, the decrement of gslRelease, or its return after a wake. -/
inductive Call (s t : State P) (p : P) : Prop
  | inside (hholding : (t.proc p).holding = (s.proc p).holding)
      (hacq : (t.proc p).pc.acquiring = (s.proc p).pc.acquiring)
      (hrel : ∀ m, (t.proc p).pc.releasing = some m → (s.proc p).pc.releasing = some m)
      (hbusy : (t.proc p).pc ≠ .idle)
  | acquired {m : Mode} (hacq : (s.proc p).pc.acquiring = some m)
      (hholding : (t.proc p).holding = lcAdd (s.proc p).holding (lcActive m))
      (hpc : (t.proc p).pc = .idle)
  | refused (hacq : (s.proc p).pc.acquiring ≠ none)
      (hholding : (t.proc p).holding = (s.proc p).holding)
      (hpc : (t.proc p).pc = .idle) (hresult : (t.proc p).result = false)
  | lowered {m : Mode} (hrel : (s.proc p).pc.releasing = some m)
      (hholding : (t.proc p).holding = lcSubtract (s.proc p).holding (lcActive m))
      (hpc : (t.proc p).pc = .idle ∨ (t.proc p).pc = .relMutex m)
  | returned (hacq : (s.proc p).pc.acquiring = none)
      (hholding : (t.proc p).holding = (s.proc p).holding) (hpc : (t.proc p).pc = .idle)

omit [DecidableEq P] [Fintype P] in
theorem Pc.acquiring_of_releasing {pc : Pc P} (h : pc.releasing = some m) :
    pc.acquiring = none := by
  cases pc <;> first | rfl | cases h

omit [Fintype P] in
theorem Move.call (h : Move table s p .run pc) : Call s (s.setPc p pc) p := by
  refine .inside ?_ ?_ ?_ ?_
  · rw [setPc_proc_self]
  · rw [setPc_proc_self]
    cases h <;> simp_all [Pc.acquiring, Pc.transient, Pc.published, Pc.queued]
  · intro m
    rw [setPc_proc_self]
    cases h <;> simp_all [Pc.releasing]
  · rw [setPc_proc_self]
    cases h <;> simp

omit [Fintype P] in
theorem Call.setPc {u : State P} (hproc : u.proc p = s.proc p)
    (hacq : pc.acquiring = (s.proc p).pc.acquiring)
    (hrel : pc.releasing = none) (hbusy : pc ≠ .idle) : Call s (u.setPc p pc) p := by
  refine .inside ?_ ?_ ?_ ?_
  · rw [setPc_proc_self, hproc]
  · rw [setPc_proc_self]
    exact hacq
  · intro m hm
    rw [setPc_proc_self] at hm
    exact absurd (hrel.symm.trans hm) (by simp)
  · rw [setPc_proc_self]
    exact hbusy

theorem Trans.call (h : Trans table s p .run t) (hcalm : (s.proc p).pc.canceling = false) :
    Call s t p := by
  cases h with
  | move hm => exact hm.call
  | fail hpc _ =>
    exact .refused (by rw [hpc]; simp [Pc.acquiring]) (by simp [returnFalse])
      (by simp [returnFalse]) (by simp [returnFalse])
  | enter _ he =>
    generalize hold : (s.proc p).pc = old at he hcalm
    cases he with
    | acquire mode | release mode => exact .setPc rfl (by rw [hold]; rfl) rfl (by simp)
    | cancel mode => cases hcalm
  | @leave caller hl =>
    generalize hold : (s.proc p).pc = old at hl
    cases caller with
    | acquire mode =>
      refine .setPc rfl ?_ rfl (by simp)
      rw [hold]
      cases hl <;> rfl
    | release =>
      refine .returned ?_ (by simp [leaveWake]) (by simp [leaveWake])
      rw [hold]
      cases hl <;> rfl
  | fastTry hpc | fast hpc _ | resume hpc _ =>
    exact .acquired (by rw [hpc]; rfl) (by simp [acquired]) (by simp [acquired])
  | raise hpc _ | undo hpc => exact .setPc rfl (by rw [hpc]; rfl) rfl (by simp)
  | @enqueue mode hpc =>
    obtain ⟨v, hv⟩ := enqueue_proc_self s p mode
    refine .inside (by rw [hv]) (by rw [hv, hpc]; rfl) ?_ (by rw [hv]; simp)
    intro m hm
    rw [hv] at hm
    cases hm
  | grant hpc =>
    refine .inside (by rw [grant_proc]) (by rw [grant_proc, if_pos rfl, hpc]; rfl) ?_
      (by rw [grant_proc, if_pos rfl]; simp)
    intro m hm
    rw [grant_proc, if_pos rfl] at hm
    cases hm
  | unlink hpc =>
    refine .inside ?_ ?_ ?_ ?_
    · rw [setPc_proc_self, unlink_proc]
      rfl
    · rw [setPc_proc_self, hpc]
      rfl
    · intro m hm
      rw [setPc_proc_self] at hm
      cases hm
    · rw [setPc_proc_self]
      simp
  | @release mode hpc =>
    refine .lowered (m := mode) (by rw [hpc]; rfl) (released_proc_self table s p mode _).1 ?_
    rw [released, modify_proc_self]
    dsimp only
    split
    · exact .inl rfl
    · exact .inr rfl
  | cancelGranted hpc _ | cancelQueued hpc _ _ _ =>
    rw [hpc] at hcalm
    cases hcalm

theorem Trans.queueLock (h : Trans table s p .run t) (hs : Basic table s) :
    t.lock.queueLock = s.lock.queueLock ∨ s.lock.queueLock = none ∧ t.lock.queueLock = some p ∨
      s.lock.queueLock = some p ∧ t.lock.queueLock = none := by
  have howner : (s.proc p).pc.ownsQueue = true → s.lock.queueLock = some p := (hs.mutex p).mp
  cases h with
  | enter hfree _ => exact .inr (.inl ⟨hfree, rfl⟩)
  | @leave caller hl =>
    refine .inr (.inr ⟨howner ?_, ?_⟩)
    · generalize (s.proc p).pc = old at hl
      cases hl <;> rfl
    · cases caller <;> rfl
  | enqueue _ => exact .inl (enqueue_queueLock ..)
  | unlink _ => exact .inl (by simp)
  | cancelGranted hpc _ | cancelQueued hpc _ _ _ =>
    exact .inr (.inr ⟨howner (by rw [hpc]; rfl), rfl⟩)
  | _ => exact .inl rfl

theorem Trans.to_sleep (h : Trans table s p .run t) (hs : Basic table s)
    (hpc : (t.proc p).pc = .sleep m) : s.lock.queueLock = some p ∧ t.lock.queueLock = none := by
  cases h with
  | @leave caller hl =>
    refine ⟨(hs.mutex p).mp ?_, by cases caller <;> rfl⟩
    generalize (s.proc p).pc = old at hl
    cases hl <;> rfl
  | move hm =>
    rw [setPc_proc_self] at hpc
    subst hpc
    cases hm
  | enter _ he =>
    rw [setPc_proc_self] at hpc
    subst hpc
    generalize (s.proc p).pc = old at he
    cases he
  | @enqueue mode _ =>
    obtain ⟨v, hv⟩ := enqueue_proc_self s p mode
    rw [hv] at hpc
    cases hpc
  | grant _ =>
    rw [grant_proc, if_pos rfl] at hpc
    cases hpc
  | release _ =>
    rw [released, modify_proc_self] at hpc
    dsimp only at hpc
    split at hpc <;> cases hpc
  | _ => simp [returnFalse, acquired, Gsl.cancelGranted, Gsl.cancelQueued] at hpc

theorem Used.zero_of_release (hcard : Fintype.card P < 2 ^ 15) (h : Used table s)
    (hrun : run table s p = some t) (hbefore : s.lock.c ≠ 0#128) (hafter : t.lock.c = 0#128) :
    ∃ m, (s.proc p).pc = .relSet m s.lock.c ∧ lcSubtract s.lock.c (lcActive m) = 0#128 := by
  have hunused := (h.after_run hrun).unused hcard hafter
  have hacquired : ∀ m c, (s.proc p).pc.acquiring = some m →
      Holds (acquired (s.setCounts c) p m) p m := by
    intro m c hm
    left
    rw [acquired, modify_proc_self, setCounts_proc]
    rw [(h.basic.proc p).active_add ((h.basic.proc p).acquiring m hm)]
    simp
  cases trans_of_run hrun with
  | move _ | fail _ _ | enter _ _ | resume _ _ | cancelGranted _ _ => exact absurd hafter hbefore
  | @leave caller _ => cases caller <;> exact absurd hafter hbefore
  | fastTry hpc | fast hpc _ => exact absurd (hacquired _ _ (by rw [hpc]; rfl)) (hunused p _).1
  | @raise mode hpc _ =>
    exact absurd (by rw [setPc_proc_self]; rfl) (hunused p mode).2.1
  | @undo mode hpc =>
    refine absurd ⟨by rw [setPc_proc_self]; rfl, ?_⟩ (hunused p mode).2.2
    rw [setPc_proc_self]
    exact h.basic.woken_false (by rw [hpc]; rfl)
  | enqueue _ =>
    rw [enqueue_c] at hafter
    exact absurd hafter hbefore
  | @grant caller prev q hpc =>
    refine absurd (.inr ⟨?_, rfl⟩) (hunused q _).1
    rw [grant_proc, if_pos rfl]
  | unlink _ =>
    rw [setPc_lock, unlink_c] at hafter
    exact absurd hafter hbefore
  | @release mode hpc => exact ⟨mode, hpc, hafter⟩
  | cancelQueued _ _ _ _ =>
    rw [cancelQueued, modify_lock, setQueueLock_c, unlink_c] at hafter
    exact absurd hafter hbefore

end Mosbench.Gsl
