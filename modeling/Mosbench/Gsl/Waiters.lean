import Mosbench.Lib.Tally
import Mosbench.Gsl.Queue

/-!
The waiters and their bookkeeping. Seen from the queue there are only five
kinds of steps besides the silent ones: a process publishes its wait bit,
queues, is granted, is unlinked, or gives up. `waitCounts` counts the queued processes and the one
being unlinked; the list visits all of them as long as `waiterTail` is kept.
-/
namespace Mosbench.Gsl

open State List Links

structure Quiet (s t : State P) : Prop where
  queued : ∀ x m, Queued t x m ↔ Queued s x m
  shared : ∀ x, (t.proc x).shared = (s.proc x).shared
  unlinking : ∀ x, (t.proc x).pc.unlinking = (s.proc x).pc.unlinking
  waiter : t.lock.waiter = s.lock.waiter
  waiterTail : t.lock.waiterTail = s.lock.waiterTail
  waitCounts : t.lock.waitCounts = s.lock.waitCounts

theorem Quiet.cell (h : Quiet s t) : t.cell = s.cell := by
  funext k
  cases k with
  | head => exact h.waiter
  | next x => exact congrArg PerProcShared.lockNext (h.shared x)

/-- As `Quiet`, and no wait bit gets published or loses its reason. -/
structure Silent (s t : State P) : Prop extends Quiet s t where
  published : ∀ x m, Published t x m ↔ Published s x m

theorem Quiet.of_self {s : State P} (hother : ∀ x, x ≠ p → t.proc x = s.proc x)
    (hqueued : ∀ m, Queued t p m ↔ Queued s p m)
    (hshared : (t.proc p).shared = (s.proc p).shared)
    (hunlinking : (t.proc p).pc.unlinking = (s.proc p).pc.unlinking)
    (hlock : t.lock.waiter = s.lock.waiter ∧ t.lock.waiterTail = s.lock.waiterTail ∧
      t.lock.waitCounts = s.lock.waitCounts) : Quiet s t := by
  refine ⟨?_, ?_, ?_, hlock.1, hlock.2.1, hlock.2.2⟩
  · intro x m
    by_cases hx : x = p
    · exact hx ▸ hqueued m
    · rw [Queued, Queued, hother x hx]
  · intro x
    by_cases hx : x = p
    · exact hx ▸ hshared
    · rw [hother x hx]
  · intro x
    by_cases hx : x = p
    · exact hx ▸ hunlinking
    · rw [hother x hx]

theorem not_queued (h : (s.proc p).pc.queued = none) (m : Mode) : ¬ Queued s p m := by
  rw [Queued, h]
  simp

theorem Published.of_queued (h : Queued s p m) : Published s p m := by
  refine ⟨?_, h.2⟩
  have hqueued := h.1
  cases hpc : (s.proc p).pc <;> rw [hpc] at hqueued <;> first | exact hqueued | cases hqueued

variable [DecidableEq P]

/-- A step as the queue sees it. -/
inductive QueueStep [Fintype P] (s : State P) (p : P) : State P → Prop
  | silent (h : Silent s t) (hwait : ∀ w, nextWait s p w = w) : QueueStep s p t
  | publish (hpc : (s.proc p).pc = .undoSet mode s.lock.c) :
      QueueStep s p ((s.setCounts (undoCounts mode s.lock.c)).setPc p (.enqueue mode))
  | enqueue (hpc : (s.proc p).pc = .enqueue mode) : QueueStep s p (enqueue s p mode)
  | grant {caller : Caller} {prev : Cell P} {q : P} (hpc : (s.proc p).pc = .wakeSet caller prev q s.lock.c) :
      QueueStep s p ((grant s q s.lock.c).setPc p (.wakeUnlink caller prev q))
  | unlink {caller : Caller} {prev : Cell P} {q : P} (hpc : (s.proc p).pc = .wakeUnlink caller prev q) :
      QueueStep s p ((unlink s prev q).setPc p (.wake caller prev))
  | cancel {mode : Mode} {prev : Cell P} (hpc : (s.proc p).pc = .cancelLocked mode) (hnext : (s.proc p).shared.lockNext ≠ none)
      (hfind : findLink s.cell p (Fintype.card P + 1) .head = some prev)
      (hcount : s.lock.waitCounts (s.proc p).shared.wantMode ≠ 0) :
      QueueStep s p (cancelQueued s p prev)

theorem Quiet.setPc {u : State P} (hproc : u.proc = s.proc)
    (hqueued : pc.queued = (s.proc p).pc.queued)
    (hunlinking : pc.unlinking = (s.proc p).pc.unlinking)
    (hlock : u.lock.waiter = s.lock.waiter ∧ u.lock.waiterTail = s.lock.waiterTail ∧
      u.lock.waitCounts = s.lock.waitCounts) : Quiet s (u.setPc p pc) := by
  refine Quiet.of_self (p := p) ?_ ?_ ?_ ?_ hlock
  · intro x hx
    rw [setPc_proc_of_ne _ hx, hproc]
  · intro m
    rw [Queued, Queued, setPc_proc_self, hproc, ← hqueued]
  · rw [setPc_proc_self, hproc]
  · rw [setPc_proc_self, ← hunlinking]

theorem Silent.setPc {u : State P} (hproc : u.proc = s.proc)
    (hqueued : pc.queued = (s.proc p).pc.queued)
    (hpublished : pc.published = (s.proc p).pc.published)
    (hunlinking : pc.unlinking = (s.proc p).pc.unlinking)
    (hlock : u.lock.waiter = s.lock.waiter ∧ u.lock.waiterTail = s.lock.waiterTail ∧
      u.lock.waitCounts = s.lock.waitCounts) : Silent s (u.setPc p pc) := by
  refine ⟨Quiet.setPc hproc hqueued hunlinking hlock, ?_⟩
  intro x m
  by_cases hx : x = p
  · subst x
    rw [Published, Published, setPc_proc_self, hproc, ← hpublished]
  · rw [Published, Published, setPc_proc_of_ne _ hx, hproc]

theorem Silent.modify {u : State P} (hproc : u.proc = s.proc)
    (hbefore : ∀ m, ¬ Published s p m) (hafter : (f (s.proc p)).pc.published = none)
    (hshared : (f (s.proc p)).shared = (s.proc p).shared)
    (hunlinking : (f (s.proc p)).pc.unlinking = (s.proc p).pc.unlinking)
    (hlock : u.lock.waiter = s.lock.waiter ∧ u.lock.waiterTail = s.lock.waiterTail ∧
      u.lock.waitCounts = s.lock.waitCounts) : Silent s (u.modify p f) := by
  have hself : (u.modify p f).proc p = f (s.proc p) := by rw [modify_proc_self, hproc]
  have hother : ∀ x, x ≠ p → (u.modify p f).proc x = s.proc x := by
    intro x hx
    rw [modify_proc_of_ne _ hx, hproc]
  have hdone : ∀ m, ¬ Published (u.modify p f) p m := by
    intro m
    rw [Published, hself, hafter]
    simp
  refine ⟨Quiet.of_self hother ?_ (by rw [hself, hshared]) (by rw [hself, hunlinking]) hlock, ?_⟩
  · intro m
    exact iff_of_false (fun h => hdone m (.of_queued h)) (fun h => hbefore m (.of_queued h))
  · intro x m
    by_cases hx : x = p
    · subst x
      exact iff_of_false (hdone m) (hbefore m)
    · rw [Published, Published, hother x hx]

theorem Trans.queueStep [Fintype P] {s : State P}
    (h : Trans table s p a t) (hok : CancelsOk s (p, a)) : QueueStep s p t := by
  have hnone : (s.proc p).pc.published = none → ∀ m, ¬ Published s p m := by
    intro hp m
    rw [Published, hp]
    simp
  have hgranted : (s.proc p).woken = true → ∀ m, ¬ Published s p m := by
    intro hp m
    simp [Published, hp]
  cases h with
  | move hm =>
    refine .silent (.setPc rfl hm.queued hm.published hm.unlinking ⟨rfl, rfl, rfl⟩) ?_
    intro w
    cases hm <;> simp_all [nextWait]
  | fail hpc _ | fastTry hpc | fast hpc _ =>
    exact .silent (.modify rfl (hnone (by rw [hpc]; rfl)) rfl rfl (by rw [hpc]; rfl)
      ⟨rfl, rfl, rfl⟩) (fun w => by simp [nextWait, hpc])
  | enter _ he =>
    refine .silent (.setPc rfl ?_ ?_ ?_ ⟨rfl, rfl, rfl⟩) ?_
    · generalize (s.proc p).pc = old at he
      cases he <;> rfl
    · generalize (s.proc p).pc = old at he
      cases he <;> rfl
    · generalize (s.proc p).pc = old at he
      cases he <;> rfl
    · intro w
      unfold nextWait
      generalize (s.proc p).pc = old at he
      cases he <;> rfl
  | @leave caller hl =>
    have hwait : ∀ w, nextWait s p w = w := by
      intro w
      unfold nextWait
      generalize (s.proc p).pc = old at hl
      cases hl <;> rfl
    have hpublished : (s.proc p).pc.published = Pc.waitingCaller caller ∧
        (s.proc p).pc.queued = Pc.waitingCaller caller ∧ (s.proc p).pc.unlinking = none := by
      generalize (s.proc p).pc = old at hl
      cases hl <;> exact ⟨rfl, rfl, rfl⟩
    obtain ⟨hpub, hqueued, hunlinking⟩ := hpublished
    cases caller with
    | acquire mode =>
      exact .silent (.setPc rfl hqueued.symm hpub.symm hunlinking.symm ⟨rfl, rfl, rfl⟩) hwait
    | release =>
      rw [leaveWake]
      exact .silent (.modify rfl (hnone hpub) rfl rfl hunlinking.symm ⟨rfl, rfl, rfl⟩) hwait
  | raise hpc _ =>
    exact .silent (.setPc rfl (by rw [hpc]; rfl) (by rw [hpc]; rfl) (by rw [hpc]; rfl)
      ⟨rfl, rfl, rfl⟩) (fun w => by simp [nextWait, hpc])
  | undo hpc => exact .publish hpc
  | enqueue hpc => exact .enqueue hpc
  | grant hpc => exact .grant hpc
  | unlink hpc => exact .unlink hpc
  | resume hpc hwoken =>
    exact .silent (.modify rfl (hgranted hwoken) rfl rfl (by rw [hpc]; rfl) ⟨rfl, rfl, rfl⟩)
      (fun w => by simp [nextWait, hpc])
  | release hpc =>
    refine .silent (.modify rfl (hnone (by rw [hpc]; rfl)) ?_ ?_ ?_ ⟨rfl, rfl, rfl⟩)
      (fun w => by simp [nextWait, hpc])
    · dsimp only
      split <;> rfl
    · dsimp only
      split <;> rfl
    · rw [hpc]
      dsimp only
      split <;> rfl
  | cancelGranted hpc hnull =>
    exact .silent (.modify rfl (hgranted (hok _ hpc hnull)) rfl rfl (by rw [hpc]; rfl)
      ⟨rfl, rfl, rfl⟩) (fun w => by simp [nextWait, hpc])
  | cancelQueued hpc hnext hfind hcount => exact .cancel hpc hnext hfind hcount

theorem Quiet.publish {s : State P} (hpc : (s.proc p).pc = .undoSet mode pre) :
    Quiet s ((s.setCounts c).setPc p (.enqueue mode)) :=
  .setPc rfl (by rw [hpc]; rfl) (by rw [hpc]; rfl) ⟨rfl, rfl, rfl⟩

section

variable [Fintype P]

def queuedCount (s : State P) (m : Mode) : ℕ := ∑ q, if Queued s q m then 1 else 0

def pendingShare (s : State P) (m : Mode) (w : P) : ℕ :=
  match (s.proc w).pc.unlinking with
  | some q => if (s.proc q).shared.wantMode = m then 1 else 0
  | none => 0

def pendingCount (s : State P) (m : Mode) : ℕ := ∑ w, pendingShare s m w

def WaitCounted (s : State P) : Prop :=
  ∀ m, s.lock.waitCounts m = (queuedCount s m + pendingCount s m : ℕ)

theorem update_add_one (f : Mode → ℤ) (k m : Mode) :
    Function.update f k (f k + 1) m = f m + (if m = k then 1 else 0 : ℕ) := by
  by_cases hm : m = k
  · simp [hm]
  · simp [hm]

theorem update_sub_one (f : Mode → ℤ) (k m : Mode) :
    Function.update f k (f k - 1) m = f m - (if m = k then 1 else 0 : ℕ) := by
  by_cases hm : m = k
  · simp [hm]
  · simp [hm]

variable {s : State P} {prev : Cell P}

omit [DecidableEq P] in
theorem queuedCount_congr (h : ∀ x m, Queued t x m ↔ Queued s x m) (m : Mode) :
    queuedCount t m = queuedCount s m := by
  unfold queuedCount
  simp only [h]

theorem queuedCount_add (hother : ∀ x, x ≠ p → ∀ m, Queued t x m ↔ Queued s x m)
    (hbefore : ∀ m, ¬ Queued s p m) (hafter : ∀ m, Queued t p m ↔ m = n)
    (m : Mode) : queuedCount t m = queuedCount s m + if m = n then 1 else 0 := by
  have hsum := Tally.sum_add_of_agree (p := p) (f := fun q => if Queued s q m then 1 else 0)
    (g := fun q => if Queued t q m then 1 else 0) fun x hx => by simp only [hother x hx m]
  simp only [if_neg (hbefore m), hafter m] at hsum
  exact hsum

omit [DecidableEq P] [Fintype P] in
theorem pendingShare_congr (hunlinking : (t.proc w).pc.unlinking = (s.proc w).pc.unlinking)
    (hwant : ∀ q, (s.proc w).pc.unlinking = some q →
      (t.proc q).shared.wantMode = (s.proc q).shared.wantMode) (m : Mode) :
    pendingShare t m w = pendingShare s m w := by
  unfold pendingShare
  rw [hunlinking]
  split
  · next q hq => rw [hwant q hq]
  · rfl

omit [DecidableEq P] in
theorem pendingCount_eq (h : ∀ w, w ≠ p → (s.proc w).pc.unlinking = none) (m : Mode) :
    pendingCount s m = pendingShare s m p := by
  refine Finset.sum_eq_single p ?_ (by simp)
  intro w _ hw
  rw [pendingShare, h w hw]

omit [DecidableEq P] [Fintype P] in
theorem Basic.unlinking_eq_none (hs : Basic table s) (hown : (s.proc p).pc.ownsQueue = true)
    (hw : w ≠ p) : (s.proc w).pc.unlinking = none := by
  cases hu : (s.proc w).pc.unlinking with
  | none => rfl
  | some q => exact absurd (hs.owner_unique (Pc.ownsQueue_of_unlinking hu) hown) hw

section

omit [Fintype P]

theorem queued_enqueue (hs : Basic table s) (hpc : (s.proc p).pc = .enqueue mode) :
    (∀ x, x ≠ p → ∀ m, Queued (enqueue s p mode) x m ↔ Queued s x m) ∧
      ∀ m, Queued (enqueue s p mode) p m ↔ m = mode := by
  refine ⟨?_, ?_⟩
  · intro x hx m
    obtain ⟨v, hv⟩ := enqueue_proc_of_ne s mode hx
    exact Basic.queued_relink hv
  · intro m
    obtain ⟨v, hv⟩ := enqueue_proc_self s p mode
    have hwoken := hs.woken_false (p := p) (by rw [hpc]; rfl)
    simp [Queued, hv, Pc.queued, Pc.waitingCaller, hwoken, eq_comm]

theorem queued_grant (hpc : (s.proc p).pc = .wakeSet caller prev q pre) (x : P) (m : Mode) :
    Queued ((grant s q pre).setPc p (.wakeUnlink caller prev q)) x m ↔ Queued s x m ∧ x ≠ q := by
  have hqueued : (if x = p then .wakeUnlink caller prev q else (s.proc x).pc).queued =
      (s.proc x).pc.queued := by
    by_cases hx : x = p
    · simp [hx, hpc, Pc.queued]
    · simp [hx]
  rw [Queued, Queued, grant_proc]
  simp only [hqueued]
  by_cases hxq : x = q <;> simp [hxq]

theorem queued_unlink (hpc : (s.proc p).pc = .wakeUnlink caller prev q) (x : P) (m : Mode) :
    Queued ((unlink s prev q).setPc p (.wake caller prev)) x m ↔ Queued s x m := by
  by_cases hx : x = p
  · subst x
    rw [Queued, Queued, setPc_proc_self, unlink_proc, hpc]
    rfl
  · rw [Queued, Queued, setPc_proc_of_ne _ hx, unlink_proc]
    rfl

theorem queued_cancel (prev : Cell P) :
    (∀ x, x ≠ p → ∀ m, Queued (cancelQueued s p prev) x m ↔ Queued s x m) ∧
      ∀ m, ¬ Queued (cancelQueued s p prev) p m := by
  refine ⟨?_, ?_⟩
  · intro x hx m
    rw [Queued, Queued, cancelQueued, modify_proc_of_ne _ hx, setQueueLock_proc, unlink_proc]
    rfl
  · intro m
    exact not_queued (by rw [cancelQueued, modify_proc_self]; rfl) m

end

omit [DecidableEq P] in
theorem WaitCounted.quiet (h : WaitCounted s) (hq : Quiet s t) : WaitCounted t := by
  intro m
  have hshare : pendingCount t m = pendingCount s m :=
    Finset.sum_congr rfl fun w _ =>
      pendingShare_congr (hq.unlinking w) (fun q _ => by rw [hq.shared q]) m
  rw [hq.waitCounts, queuedCount_congr hq.queued, hshare]
  exact h m

theorem WaitCounted.step (h : WaitCounted s) (hs : Basic table s) (hstep : QueueStep s p t)
    (hpc : ∀ x, x ≠ p → (t.proc x).pc = (s.proc x).pc) : WaitCounted t := by
  have hpending : (s.proc p).pc.ownsQueue = true → ∀ m,
      pendingCount s m = pendingShare s m p ∧ pendingCount t m = pendingShare t m p := by
    intro hown m
    have hnone := fun w (hw : w ≠ p) => hs.unlinking_eq_none hown hw
    exact ⟨pendingCount_eq hnone m, pendingCount_eq (fun w hw => by rw [hpc w hw, hnone w hw]) m⟩
  intro m
  have hm := h m
  cases hstep with
  | silent hq _ => exact h.quiet hq.toQuiet m
  | publish hp => exact h.quiet (.publish hp) m
  | @enqueue mode hp =>
    obtain ⟨hother, hself⟩ := queued_enqueue hs hp
    have hcount := queuedCount_add hother (not_queued (by rw [hp]; rfl)) hself m
    obtain ⟨hps, hpt⟩ := hpending (by rw [hp]; rfl) m
    obtain ⟨v, hv⟩ := enqueue_proc_self s p mode
    have hzero : pendingShare s m p = 0 := by simp [pendingShare, hp, Pc.unlinking]
    have hzero' : pendingShare (enqueue s p mode) m p = 0 := by
      simp [pendingShare, hv, Pc.unlinking]
    rw [enqueue_waitCounts, update_add_one]
    omega
  | @grant caller prev q hp =>
    have htarget := hs.queued_target hp
    have hcount := queuedCount_add (s := (grant s q s.lock.c).setPc p (.wakeUnlink caller prev q))
      (t := s) (p := q) (n := (s.proc q).shared.wantMode)
      (fun x hx m => by simp [queued_grant hp, hx]) (fun m => by simp [queued_grant hp])
      (fun m => ⟨fun hq => ((hs.proc q).want m hq.1).1.symm, fun hq => hq ▸ htarget⟩) m
    obtain ⟨hps, hpt⟩ := hpending (by rw [hp]; rfl) m
    have hzero : pendingShare s m p = 0 := by simp [pendingShare, hp, Pc.unlinking]
    have hone : pendingShare ((grant s q s.lock.c).setPc p (.wakeUnlink caller prev q)) m p =
        if m = (s.proc q).shared.wantMode then 1 else 0 := by
      simp [pendingShare, grant_proc, Pc.unlinking, eq_comm]
    rw [setPc_lock, grant_waitCounts]
    omega
  | @unlink caller prev q hp =>
    have hcount := queuedCount_congr (queued_unlink hp) m
    obtain ⟨hps, hpt⟩ := hpending (by rw [hp]; rfl) m
    have hone : pendingShare s m p = if m = (s.proc q).shared.wantMode then 1 else 0 := by
      simp [pendingShare, hp, Pc.unlinking, eq_comm]
    have hzero : pendingShare ((unlink s prev q).setPc p (.wake caller prev)) m p = 0 := by
      simp [pendingShare, Pc.unlinking]
    rw [setPc_lock, unlink_waitCounts, update_sub_one]
    omega
  | @cancel mode prev hp _ hfind _ =>
    obtain ⟨hqueued, hwant⟩ := hs.queued_found hp hfind
    obtain ⟨hother, hself⟩ := queued_cancel (s := s) (p := p) prev
    have hcount := queuedCount_add (s := cancelQueued s p prev) (t := s) (p := p) (n := mode)
      (fun x hx m => (hother x hx m).symm) hself
      (fun m => ⟨fun hq => Option.some.inj (hq.1.symm.trans hqueued.1), fun hq => hq ▸ hqueued⟩) m
    obtain ⟨hps, hpt⟩ := hpending (by rw [hp]; rfl) m
    have hzero : pendingShare s m p = 0 := by simp [pendingShare, hp, Pc.unlinking]
    have hzero' : pendingShare (cancelQueued s p prev) m p = 0 := by
      simp [pendingShare, cancelQueued, Pc.unlinking]
    have hcounts : (cancelQueued s p prev).lock.waitCounts m =
        s.lock.waitCounts m - (if m = mode then 1 else 0 : ℕ) := by
      rw [cancelQueued, modify_lock, setQueueLock_waitCounts, unlink_waitCounts,
        update_sub_one, hwant]
    omega

theorem waitCounted_of_reachable
    (hok : ∀ s a, ok s a → CancelsOk s a) (h : Transition.Reachable (system table) ok s) :
    WaitCounted s := by
  refine h.invariant ?_ ?_
  · intro s hs m
    have hqueued : queuedCount s m = 0 := by
      refine Finset.sum_eq_zero ?_
      intro q _
      exact if_neg (not_queued (by rw [Initial.pc hs q]; rfl) m)
    have hpending : pendingCount s m = 0 := by
      refine Finset.sum_eq_zero ?_
      intro q _
      simp [pendingShare, Initial.pc hs q, Pc.unlinking]
    rw [hqueued, hpending, Initial.lock hs]
    rfl
  · intro s a t hreach hI hallowed hstep
    have htrans := trans_of_step hstep
    exact hI.step (basic_of_reachable hok hreach) (htrans.queueStep (hok s a hallowed))
      (fun x hx => htrans.pc_of_ne hx)

end

structure Linked (s : State P) (L : List P) : Prop where
  chain : Chain s.cell .head L
  complete : ∀ x m, Queued s x m → x ∈ L
  unlinked : ∀ w q, (s.proc w).pc.unlinking = some q → ∀ m, ¬ Queued s q m
  tail : L ≠ [] → s.lock.waiterTail = some (lastCell .head L)

/-- wake does not fix `waiterTail` when it removes the last element. The step
is not one where that element stands behind a skipped upgrade. -/
def TailKept (s : State P) (a : P × Act) : Prop :=
  match (s.proc a.1).pc with
  | .wakeUnlink _ prev q => (s.proc q).shared.lockNext = none → prev = .head
  | _ => True

instance (s : State P) (a : P × Act) : Decidable (TailKept s a) :=
  match h : (s.proc a.1).pc with
  | .wakeUnlink _ prev q =>
    decidable_of_iff ((s.proc q).shared.lockNext = none → prev = .head) (by simp [TailKept, h])
  | .idle | .tryGet _ | .trySet _ _ | .acqGet _ | .acqSet _ _ | .acqMutex _ | .undoGet _
  | .undoSet _ _ | .enqueue _ | .sleep _ | .interrupted _ | .wake _ _ | .wakeGet _ _ _
  | .wakeSet _ _ _ _ | .relGet _ | .relSet _ _ | .relMutex _ | .cancelMutex _
  | .cancelLocked _ => isTrue (by simp [TailKept, h])

namespace Linked

variable {t : State P} {L : List P} {prev : Cell P}

omit [DecidableEq P] in
theorem quiet (h : Linked s L) (hq : Quiet s t) : Linked t L where
  chain := hq.cell ▸ h.chain
  complete x m hx := h.complete x m ((hq.queued x m).mp hx)
  unlinked w q hw m hm := h.unlinked w q (hq.unlinking w ▸ hw) m ((hq.queued q m).mp hm)
  tail hL := hq.waiterTail ▸ h.tail hL

theorem enqueue_fair (h : Linked s L) (hp : p ∉ L) (mode : Mode)
    (hhold : holdLock (s.proc p) = false) :
    Chain (Gsl.enqueue s p mode).cell .head (L ++ [p]) := by
  have htail : tailCell s = some (lastCell .head L) := by
    unfold tailCell
    cases L with
    | nil => exact if_pos h.chain
    | cons x xs =>
      have hwaiter : s.lock.waiter = some x := h.chain.1
      rw [if_neg (by simp [hwaiter]), h.tail (by simp)]
  have hcell := enqueue_cell_fair s p mode hhold
  rw [htail] at hcell
  have hchain : Chain s.cell .head (L ++ []) := by simpa using h.chain
  rw [hcell]
  exact hchain.append_at hp

theorem enqueue_list (h : Linked s L) (hp : p ∉ L) (mode : Mode) :
    ∃ L', Chain (Gsl.enqueue s p mode).cell .head L' ∧ (∀ x ∈ L, x ∈ L') ∧ p ∈ L' ∧
      (Gsl.enqueue s p mode).lock.waiterTail = some (lastCell .head L') := by
  cases hhold : holdLock (s.proc p) with
  | true =>
    refine ⟨p :: L, ?_, fun x hx => mem_cons_of_mem p hx, mem_cons_self .., ?_⟩
    · rw [enqueue_cell_upgrade s p mode hhold]
      exact h.chain.push hp
    · rw [enqueue_waiterTail_upgrade s p mode hhold]
      cases L with
      | nil => exact if_pos h.chain
      | cons x xs =>
        rw [if_neg (by simp [h.chain.1]), h.tail (by simp)]
        rfl
  | false =>
    refine ⟨L ++ [p], h.enqueue_fair hp mode hhold, fun x hx => mem_append_left _ hx, by simp, ?_⟩
    rw [enqueue_waiterTail_fair s p mode hhold, lastCell_append_singleton]

theorem enqueue (h : Linked s L) (hs : Basic table s)
    (hpc : (s.proc p).pc = .enqueue mode) : ∃ L', Linked (enqueue s p mode) L' := by
  have hown : (s.proc p).pc.ownsQueue = true := by rw [hpc]; rfl
  obtain ⟨M, hM⟩ := hs.queue
  obtain rfl := hM.chain.unique h.chain
  have hp : p ∉ M := by
    intro hmem
    obtain ⟨m, hm⟩ := hs.listed_queued hM hown (by rw [hpc]; rfl) hmem
    exact not_queued (by rw [hpc]; rfl) m hm
  obtain ⟨L', hchain, hold, hnew, htail⟩ := h.enqueue_list hp mode
  obtain ⟨hother, -⟩ := queued_enqueue hs hpc
  refine ⟨L', hchain, ?_, ?_, fun _ => htail⟩
  · intro x m hx
    by_cases hxp : x = p
    · exact hxp ▸ hnew
    · exact hold x (h.complete x m ((hother x hxp m).mp hx))
  · intro w q hw
    have hnone : ((Gsl.enqueue s p mode).proc w).pc.unlinking = none := by
      by_cases hwp : w = p
      · obtain ⟨v, hv⟩ := enqueue_proc_self s p mode
        rw [hwp, hv]
        rfl
      · obtain ⟨v, hv⟩ := enqueue_proc_of_ne s mode hwp
        rw [hv]
        exact hs.unlinking_eq_none hown hwp
    rw [hnone] at hw
    cases hw

theorem grant (h : Linked s L) (hs : Basic table s)
    (hpc : (s.proc p).pc = .wakeSet caller prev q pre) :
    Linked ((grant s q pre).setPc p (.wakeUnlink caller prev q)) L where
  chain := by simpa using h.chain
  complete x m hx := h.complete x m ((queued_grant hpc x m).mp hx).1
  unlinked w r hw m hm := by
    have hown : (s.proc p).pc.ownsQueue = true := by rw [hpc]; rfl
    rw [queued_grant hpc] at hm
    rw [grant_proc] at hw
    by_cases hwp : w = p
    · rw [if_pos hwp] at hw
      exact hm.2 (Option.some.inj hw).symm
    · rw [if_neg hwp, hs.unlinking_eq_none hown hwp] at hw
      cases hw
  tail hL := h.tail hL

omit [DecidableEq P] in
theorem remove (h : Linked s (L₁ ++ q :: L₂)) (hchain : Chain t.cell .head (L₁ ++ L₂))
    (hqueued : ∀ x m, Queued t x m → Queued s x m ∧ x ≠ q)
    (hunlinking : ∀ w, (t.proc w).pc.unlinking = none)
    (htail : t.lock.waiterTail = s.lock.waiterTail) (hlast : L₂ = [] → L₁ = []) :
    Linked t (L₁ ++ L₂) where
  chain := hchain
  complete x m hx := by
    obtain ⟨hx, hxq⟩ := hqueued x m hx
    have hmem := h.complete x m hx
    simp only [mem_append, mem_cons] at hmem ⊢
    rcases hmem with hmem | hmem | hmem
    · exact Or.inl hmem
    · exact absurd hmem hxq
    · exact Or.inr hmem
  unlinked w r hw := by
    rw [hunlinking w] at hw
    cases hw
  tail hL := by
    have hne : L₂ ≠ [] := by
      intro hnil
      rw [hlast hnil, hnil] at hL
      exact hL rfl
    rw [htail, h.tail (by simp), lastCell_append, lastCell_append]
    exact congrArg some (lastCell_of_ne_nil _ _ hne)

theorem unlink (h : Linked s L) (hs : Basic table s)
    (hpc : (s.proc p).pc = .wakeUnlink caller prev q)
    (hkept : (s.proc q).shared.lockNext = none → prev = .head) :
    ∃ L', Linked ((unlink s prev q).setPc p (.wake caller prev)) L' := by
  have hown : (s.proc p).pc.ownsQueue = true := by rw [hpc]; rfl
  obtain ⟨M, hM⟩ := hs.queue
  obtain rfl := hM.chain.unique h.chain
  have hpos := hM.position p
  rw [hpc] at hpos
  obtain ⟨L₁, L₂, rfl, rfl⟩ := hpos
  refine ⟨L₁ ++ L₂, h.remove ?_ ?_ ?_ (by simp) ?_⟩
  · rw [setPc_cell, unlink_cell]
    exact h.chain.unlink
  · intro x m hx
    rw [queued_unlink hpc] at hx
    refine ⟨hx, ?_⟩
    intro hxq
    exact h.unlinked p q (by rw [hpc]; rfl) m (hxq ▸ hx)
  · intro w
    by_cases hwp : w = p
    · rw [hwp, setPc_proc_self]
      rfl
    · rw [setPc_proc_of_ne _ hwp, unlink_proc]
      exact hs.unlinking_eq_none hown hwp
  · intro hnil
    have hnext : Chain s.cell (.next q) L₂ := h.chain.drop.2
    rw [hnil] at hnext
    exact lastCell_eq_head (hkept hnext)

theorem cancel [Fintype P] (h : Linked s L) (hs : Basic table s)
    (hpc : (s.proc p).pc = .cancelLocked mode) (hnext : (s.proc p).shared.lockNext ≠ none)
    (hfind : findLink s.cell p (Fintype.card P + 1) .head = some prev) :
    ∃ L', Linked (cancelQueued s p prev) L' := by
  have hown : (s.proc p).pc.ownsQueue = true := by rw [hpc]; rfl
  obtain ⟨L₁, L₂, rfl, rfl⟩ := findLink_eq_some h.chain hfind
  obtain ⟨hother, hself⟩ := queued_cancel (s := s) (p := p) (lastCell .head L₁)
  refine ⟨L₁ ++ L₂, h.remove ?_ ?_ ?_ (by simp [cancelQueued]) ?_⟩
  · rw [cancelQueued, modify_cell _ _ _ rfl, setQueueLock_cell, unlink_cell]
    exact h.chain.unlink
  · intro x m hx
    by_cases hxp : x = p
    · exact absurd (hxp ▸ hx) (hself m)
    · exact ⟨(hother x hxp m).mp hx, hxp⟩
  · intro w
    by_cases hwp : w = p
    · rw [hwp, cancelQueued, modify_proc_self]
      rfl
    · rw [cancelQueued, modify_proc_of_ne _ hwp, setQueueLock_proc, unlink_proc]
      exact hs.unlinking_eq_none hown hwp
  · intro hnil
    have hrest : Chain s.cell (.next p) L₂ := h.chain.drop.2
    rw [hnil] at hrest
    exact absurd hrest hnext

theorem step [Fintype P] (h : Linked s L) (hs : Basic table s)
    (hkept : TailKept s (p, a)) (hstep : QueueStep s p t) : ∃ L', Linked t L' := by
  cases hstep with
  | silent hq _ => exact ⟨L, h.quiet hq.toQuiet⟩
  | publish hpc => exact ⟨L, h.quiet (.publish hpc)⟩
  | enqueue hpc => exact h.enqueue hs hpc
  | grant hpc => exact ⟨L, h.grant hs hpc⟩
  | unlink hpc => exact h.unlink hs hpc (by simpa [TailKept, hpc] using hkept)
  | cancel hpc hnext hfind _ => exact h.cancel hs hpc hnext hfind

end Linked

theorem linked_of_reachable [Fintype P] {ok : State P → P × Act → Prop}
    (hok : ∀ s a, ok s a → CancelsOk s a ∧ TailKept s a)
    (h : Transition.Reachable (system table) ok s) : ∃ L, Linked s L := by
  refine h.invariant (I := fun s => ∃ L, Linked s L) ?_ ?_
  · intro s hs
    refine ⟨[], ?_, ?_, ?_, by simp⟩
    · rw [chain_nil, State.cell, Initial.lock hs]
      rfl
    · intro x m hx
      exact absurd hx (not_queued (by rw [Initial.pc hs x]; rfl) m)
    · intro w q hw
      rw [Initial.pc hs w] at hw
      cases hw
  · intro s a t hreach hI hallowed hstep
    obtain ⟨L, hL⟩ := hI
    obtain ⟨hcancel, hkept⟩ := hok s a hallowed
    exact hL.step (basic_of_reachable (fun s a h => (hok s a h).1) hreach) (a := a.2) hkept
      ((trans_of_step hstep).queueStep hcancel)

/-- Following lockNext from lock->waiter visits exactly the queued processes,
each once; waiterTail is the link of the last one, and waitCounts counts the
visited processes by the mode they want. -/
def QueueIntact (s : State P) : Prop :=
  ∃ L, Chain s.cell .head L ∧ L.Nodup ∧ (∀ q, q ∈ L ↔ ∃ m, Queued s q m) ∧
    (∀ q, L.getLast? = some q → s.lock.waiterTail = some (.next q)) ∧
    ∀ m, s.lock.waitCounts m = (L.countP fun q => (s.proc q).shared.wantMode = m : ℕ)

theorem queuedCount_eq_countP [Fintype P] {L : List P}
    (hs : Basic table s) (hnodup : L.Nodup) (hmem : ∀ q, q ∈ L ↔ ∃ m, Queued s q m) (m : Mode) :
    queuedCount s m = L.countP fun q => (s.proc q).shared.wantMode = m := by
  have hset : Finset.univ.filter (fun q => Queued s q m) =
      (L.filter fun q => (s.proc q).shared.wantMode = m).toFinset := by
    ext q
    simp only [Finset.mem_filter, Finset.mem_univ, true_and, mem_toFinset, mem_filter,
      decide_eq_true_eq, hmem q]
    constructor
    · intro hq
      exact ⟨⟨m, hq⟩, ((hs.proc q).want m hq.1).1⟩
    · intro hq
      obtain ⟨⟨n, hn⟩, hwant⟩ := hq
      rw [← hwant, ((hs.proc q).want n hn.1).1]
      exact hn
  rw [queuedCount, ← Finset.card_filter, hset, toFinset_card_of_nodup (hnodup.filter _),
    countP_eq_length_filter]

/-- The wait queue stays intact in every run of gslAcquire and gslRelease in
which no wake removes the last element from behind a skipped upgrade. -/
theorem queue_intact_of_tail_kept [Fintype P] {table : ConflictTable} {s : State P}
    (h : Transition.Reachable (system table) (fun s a => NoCancel s a ∧ TailKept s a) s)
    (hfree : s.lock.queueLock = none) : QueueIntact s := by
  have hreach := reachable_cancelsOk (fun _ _ h => h.1) h
  have hs := basic_of_reachable (fun _ _ h => h.1) hreach
  have hcounts := waitCounted_of_reachable (fun _ _ h => h.1) hreach
  obtain ⟨L, hL⟩ := linked_of_reachable (fun _ _ h => ⟨h.1, h.2.2⟩) hreach
  obtain ⟨M, hM⟩ := hs.queue
  obtain rfl := hM.chain.unique hL.chain
  have hnone : ∀ w, (s.proc w).pc.unlinking = none := by
    intro w
    cases hw : (s.proc w).pc.unlinking with
    | none => rfl
    | some q =>
      have howner := (hs.mutex w).mp (Pc.ownsQueue_of_unlinking hw)
      rw [hfree] at howner
      cases howner
  have hmem : ∀ q, q ∈ M ↔ ∃ m, Queued s q m := by
    intro q
    constructor
    · intro hq
      rcases hM.listed q hq with hm | ⟨w, hw⟩
      · exact hm
      · rw [hnone w] at hw
        cases hw
    · intro hq
      obtain ⟨m, hm⟩ := hq
      exact hL.complete q m hm
  refine ⟨M, hL.chain, hL.chain.nodup, hmem, ?_, ?_⟩
  · intro q hq
    obtain ⟨ys, rfl⟩ := getLast?_eq_some_iff.mp hq
    rw [hL.tail (by simp), lastCell_append_singleton]
  · intro m
    have hpending : pendingCount s m = 0 := by
      refine Finset.sum_eq_zero ?_
      intro w _
      rw [pendingShare, hnone w]
    rw [hcounts m, hpending, queuedCount_eq_countP hs hL.chain.nodup hmem m, Nat.add_zero]

/-- A waiter behind a holder of a mode that conflicts with itself. -/
theorem queue_intact_one_waiter : ∃ s : State (Fin 2),
    s.lock.queueLock = none ∧ s.lock.waiter = some 1 ∧ QueueIntact s := by
  obtain ⟨s, hreach, hfree, hwaiter⟩ := Transition.exists_reachable
    (system (lcInitConflictTable [1#32])) (fun s a => NoCancel s a ∧ TailKept s a)
    (fun s => s.lock.queueLock = none ∧ s.lock.waiter = some 1)
    ([((0 : Fin 2), .acquire 0 false), (0, .run), (0, .run), (1, .acquire 0 false)] ++
      replicate 8 (1, .run))
    fresh_initial (by decide +kernel)
  exact ⟨s, hfree, hwaiter, queue_intact_of_tail_kept hreach hfree⟩

/-- Process 0 holds modes 1 and 3, process 1 waits to upgrade to mode 1 and
process 2 waits for mode 3 to go. The wake of the release of mode 3 skips
process 1 and removes process 2, and `waiterTail` still points at its link. -/
theorem queue_tail_lost : Symmetric [0#32, 2#32, 8#32, 4#32] ∧ ∃ s : State (Fin 3),
    Transition.Reachable (system (lcInitConflictTable [0#32, 2#32, 8#32, 4#32])) NoCancel s ∧
      s.lock.queueLock = none ∧ s.lock.waiter = some 1 ∧ (s.proc 1).shared.lockNext = none ∧
      s.lock.waiterTail = some (.next 2) ∧ ¬ QueueIntact s := by
  refine ⟨by decide, ?_⟩
  obtain ⟨s, hreach, hfree, hwaiter, hnext, htail⟩ := Transition.exists_reachable
    (system (lcInitConflictTable [0#32, 2#32, 8#32, 4#32])) NoCancel
    (fun s => s.lock.queueLock = none ∧ s.lock.waiter = some 1 ∧
      (s.proc 1).shared.lockNext = none ∧ s.lock.waiterTail = some (.next 2))
    ([((0 : Fin 3), .acquire 1 false), (0, .run), (0, .run), (0, .acquire 3 false), (0, .run),
      (0, .run), (1, .acquire 0 false), (1, .run), (1, .run), (1, .acquire 1 false)] ++
      replicate 9 (1, .run) ++ [(2, .acquire 2 false)] ++ replicate 10 (2, .run) ++
      [(0, .release 3)] ++ replicate 10 (0, .run))
    fresh_initial (by decide +kernel)
  refine ⟨s, hreach, hfree, hwaiter, hnext, htail, ?_⟩
  intro hintact
  obtain ⟨L, hchain, -, -, hlast, -⟩ := hintact
  have hL : L = [1] := hchain.unique ⟨hwaiter, hnext⟩
  have hone := hlast 1 (by rw [hL]; rfl)
  rw [htail] at hone
  simp at hone

end Mosbench.Gsl
