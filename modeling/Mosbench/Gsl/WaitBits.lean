import Mosbench.Gsl.Exclusion
import Mosbench.Gsl.Waiters

/-!
The wait bits. A bit is set from the moment a process gives its transient
count back until the last process waiting for the mode is granted it. That is
exact as long as nobody cancels as the only waiter of a mode, since gslCancel
lowers the wait counter but leaves the bit.
-/
namespace Mosbench.Gsl

open Finset State Function Links

variable [DecidableEq P] [Fintype P]

def waitBits (s : State P) (m : Mode) : Bool := decide (∃ q, Published s q m)

/-- gslCancel does not clear wait bits. The step does not remove the only waiter of a mode. -/
def CancelsShared (s : State P) (a : P × Act) : Prop :=
  ∀ m, (s.proc a.1).pc = .cancelLocked m → (s.proc a.1).shared.lockNext ≠ none →
    ∃ q, q ≠ a.1 ∧ Queued s q m

instance (s : State P) (a : P × Act) : Decidable (CancelsShared s a) :=
  inferInstanceAs (Decidable (∀ _ : Mode, _ → _ → _))

variable {s : State P}

omit [DecidableEq P] in
theorem waitBits_congr (h : ∀ x m, Published t x m ↔ Published s x m) :
    waitBits t = waitBits s := by
  funext m
  simp only [waitBits, h]

omit [DecidableEq P] [Fintype P] in
theorem Published.cases (h : Published s x m) : Queued s x m ∨ (s.proc x).pc = .enqueue m := by
  have hpub := h.1
  cases hpc : (s.proc x).pc with
  | enqueue mode =>
    rw [hpc] at hpub
    exact Or.inr (congrArg _ (Option.some.inj hpub))
  | _ =>
    rw [hpc] at hpub
    exact Or.inl ⟨by rw [hpc]; exact hpub, h.2⟩

omit [DecidableEq P] [Fintype P] in
theorem Basic.queued_of_published (hs : Basic table s) (hown : (s.proc p).pc.ownsQueue = true)
    (hp : ∀ m, (s.proc p).pc ≠ .enqueue m) (h : Published s x m) :
    Queued s x m := by
  rcases h.cases with hx | hx
  · exact hx
  · have hxp : x = p := hs.owner_unique (by rw [hx]; rfl) hown
    exact absurd (hxp ▸ hx) (hp m)

omit [DecidableEq P] in
theorem queuedCount_eq_one_iff (hq : Queued s q m) :
    queuedCount s m = 1 ↔ ∀ x, Queued s x m → x = q := by
  rw [queuedCount, ← card_filter]
  constructor
  · intro hone x hx
    exact card_le_one.mp (le_of_eq hone) x (by simp [hx]) q (by simp [hq])
  · intro honly
    refine card_eq_one.mpr ⟨q, ?_⟩
    ext x
    simp only [mem_filter, mem_univ, true_and, mem_singleton]
    exact ⟨honly x, fun hx => hx ▸ hq⟩

omit [DecidableEq P] in
theorem waitCounts_eq_one_iff (hs : Basic table s) (hc : WaitCounted s)
    (hpc : (s.proc p).pc = .wakeSet caller prev q s.lock.c) :
    s.lock.waitCounts (s.proc q).shared.wantMode = 1 ↔
      ∀ x, Queued s x (s.proc q).shared.wantMode → x = q := by
  have hown : (s.proc p).pc.ownsQueue = true := by rw [hpc]; rfl
  have hcount := hc (s.proc q).shared.wantMode
  have hpending := pendingCount_eq (fun w hw => hs.unlinking_eq_none hown hw)
    (s.proc q).shared.wantMode
  have hnone : pendingShare s (s.proc q).shared.wantMode p = 0 := by
    simp [pendingShare, hpc, Pc.unlinking]
  rw [← queuedCount_eq_one_iff (hs.queued_target hpc), hcount]
  omega

theorem waitBits_publish (hs : Basic table s) (hpc : (s.proc p).pc = .undoSet mode s.lock.c) :
    waitBits ((s.setCounts c).setPc p (.enqueue mode)) =
      Function.update (waitBits s) mode true := by
  have hother : ∀ x, x ≠ p → ∀ m, Published ((s.setCounts c).setPc p (.enqueue mode)) x m ↔
      Published s x m := by
    intro x hx m
    rw [Published, Published, setPc_proc_of_ne _ hx, setCounts_proc]
  have hself : ∀ m, Published ((s.setCounts c).setPc p (.enqueue mode)) p m ↔ m = mode := by
    intro m
    have hwoken := hs.woken_false (p := p) (by rw [hpc]; rfl)
    simp [Published, Pc.published, hwoken, eq_comm]
  have hbefore : ∀ m, ¬ Published s p m := by
    intro m
    simp [Published, hpc, Pc.published, Pc.queued]
  funext m
  by_cases hm : m = mode
  · rw [hm, update_self]
    exact decide_eq_true ⟨p, (hself mode).mpr rfl⟩
  · rw [update_of_ne hm]
    refine decide_eq_decide.mpr (exists_congr fun x => ?_)
    by_cases hx : x = p
    · subst x
      simp [hself, hbefore, hm]
    · rw [hother x hx]

section

omit [Fintype P]

theorem published_enqueue (hpc : (s.proc p).pc = .enqueue mode) (x : P) (m : Mode) :
    Published (enqueue s p mode) x m ↔ Published s x m := by
  by_cases hx : x = p
  · subst x
    obtain ⟨v, hv⟩ := enqueue_proc_self s p mode
    rw [Published, Published, hv, hpc]
    rfl
  · obtain ⟨v, hv⟩ := enqueue_proc_of_ne s mode hx
    rw [Published, Published, hv]
    rfl

theorem published_unlink (hpc : (s.proc p).pc = .wakeUnlink caller prev q) (x : P) (m : Mode) :
    Published ((unlink s prev q).setPc p (.wake caller prev)) x m ↔ Published s x m := by
  by_cases hx : x = p
  · subst x
    rw [Published, Published, setPc_proc_self, unlink_proc, hpc]
    rfl
  · rw [Published, Published, setPc_proc_of_ne _ hx, unlink_proc]
    rfl

theorem published_grant (hpc : (s.proc p).pc = .wakeSet caller prev q pre) (x : P) (m : Mode) :
    Published ((grant s q pre).setPc p (.wakeUnlink caller prev q)) x m ↔
      Published s x m ∧ x ≠ q := by
  have hpub : (if x = p then .wakeUnlink caller prev q else (s.proc x).pc).published =
      (s.proc x).pc.published := by
    by_cases hx : x = p
    · simp [hx, hpc, Pc.published, Pc.queued]
    · simp [hx]
  rw [Published, Published, grant_proc]
  simp only [hpub]
  by_cases hxq : x = q <;> simp [hxq]

end

theorem waitBits_remove (hpublished : ∀ x m, Published t x m ↔ Published s x m ∧ x ≠ q)
    (hq : ∀ m, Published s q m → m = mode) (m : Mode) :
    waitBits t m = if m = mode ∧ ∀ x, Published s x mode → x = q then false else waitBits s m := by
  split
  · next h =>
    rw [h.1]
    refine decide_eq_false ?_
    intro hx
    obtain ⟨x, hx⟩ := hx
    rw [hpublished] at hx
    exact hx.2 (h.2 x hx.1)
  · next h =>
    refine decide_eq_decide.mpr ?_
    simp only [hpublished]
    constructor
    · intro hx
      obtain ⟨x, hx, -⟩ := hx
      exact ⟨x, hx⟩
    · intro hx
      obtain ⟨x, hx⟩ := hx
      by_cases hm : m = mode
      · have hother : ¬ ∀ x, Published s x mode → x = q := fun hall => h ⟨hm, hall⟩
        obtain ⟨y, hother⟩ := not_forall.mp hother
        obtain ⟨hy, hyq⟩ := Classical.not_imp.mp hother
        exact ⟨y, hm ▸ hy, hyq⟩
      · refine ⟨x, hx, ?_⟩
        intro hxq
        exact hm (hq m (hxq ▸ hx))

theorem waitBits_grant (hs : Basic table s) (hc : WaitCounted s)
    (hpc : (s.proc p).pc = .wakeSet caller prev q s.lock.c) :
    waitBits ((grant s q s.lock.c).setPc p (.wakeUnlink caller prev q)) =
      nextWait s p (waitBits s) := by
  have hown : (s.proc p).pc.ownsQueue = true := by rw [hpc]; rfl
  have hqueue : ∀ x m, Published s x m ↔ Queued s x m := by
    intro x m
    exact ⟨hs.queued_of_published hown (by simp [hpc]), .of_queued⟩
  have hwant : ∀ m, Published s q m → m = (s.proc q).shared.wantMode := by
    intro m hm
    exact ((hs.proc q).want m ((hqueue q m).mp hm).1).1.symm
  funext m
  rw [waitBits_remove (published_grant hpc) hwant]
  simp only [nextWait, hpc, true_and, waitCounts_eq_one_iff hs hc hpc, hqueue]
  by_cases hm : m = (s.proc q).shared.wantMode
  · by_cases hall : ∀ x, Queued s x (s.proc q).shared.wantMode → x = q
    · rw [if_pos ⟨hm, hall⟩, if_pos hall, hm, update_self]
    · rw [if_neg (fun h => hall h.2), if_neg hall]
  · rw [if_neg (fun h => hm h.1)]
    split
    · rw [update_of_ne hm]
    · rfl

theorem waitBits_cancel (hs : Basic table s) (hpc : (s.proc p).pc = .cancelLocked mode)
    (hfind : findLink s.cell p (Fintype.card P + 1) .head = some prev)
    (hother : ∃ q, q ≠ p ∧ Queued s q mode) : waitBits (cancelQueued s p prev) = waitBits s := by
  obtain ⟨hqueued, -⟩ := hs.queued_found hpc hfind
  obtain ⟨q, hqp, hq⟩ := hother
  have hpublished : ∀ x m, Published (cancelQueued s p prev) x m ↔ Published s x m ∧ x ≠ p := by
    intro x m
    by_cases hx : x = p
    · subst x
      rw [Published, cancelQueued, modify_proc_self]
      simp [Pc.published, Pc.queued]
    · rw [Published, Published, cancelQueued, modify_proc_of_ne _ hx,
        setQueueLock_proc, unlink_proc]
      simp [hx]
  have hmode : ∀ m, Published s p m → m = mode := by
    intro m hm
    rw [Published, hpc] at hm
    exact (Option.some.inj hm.1).symm
  funext m
  rw [waitBits_remove hpublished hmode, if_neg]
  intro hall
  exact hqp (hall.2 q (.of_queued hq))

theorem nextWait_waitBits (hs : Basic table s) (hc : WaitCounted s)
    (hshared : CancelsShared s (p, a)) (hstep : QueueStep s p t) :
    nextWait s p (waitBits s) = waitBits t := by
  cases hstep with
  | silent h hwait => rw [hwait, waitBits_congr h.published]
  | publish hpc =>
    rw [waitBits_publish hs hpc]
    simp [nextWait, hpc]
  | enqueue hpc =>
    rw [waitBits_congr (published_enqueue hpc)]
    simp [nextWait, hpc]
  | grant hpc => rw [waitBits_grant hs hc hpc]
  | unlink hpc =>
    rw [waitBits_congr (published_unlink hpc)]
    simp [nextWait, hpc]
  | cancel hpc hnext hfind _ =>
    rw [waitBits_cancel hs hpc hfind (hshared _ hpc hnext)]
    simp [nextWait, hpc]

theorem waitBits_of_reachable (hok : ∀ s a, ok s a → CancelsOk s a ∧ CancelsShared s a)
    (hcard : Fintype.card P < 2 ^ 15) (h : Transition.Reachable (system table) ok s) :
    CountsAre s (waitBits s) := by
  refine h.invariant (I := fun s => CountsAre s (waitBits s)) ?_ ?_
  · intro s hs
    have hnone : waitBits s = fun _ => false := by
      funext m
      refine decide_eq_false ?_
      intro hx
      obtain ⟨x, hx, -⟩ := hx
      rw [Initial.pc hs x] at hx
      cases hx
    rw [hnone]
    exact Initial.countsAre hs
  · intro s a t hreach hI hallowed hstep
    obtain ⟨hcancel, hshared⟩ := hok s a hallowed
    have hs := basic_of_reachable (fun s a h => (hok s a h).1) hreach
    have hc := waitCounted_of_reachable (fun s a h => (hok s a h).1) hreach
    have htrans := trans_of_step hstep
    have hnext := nextWait_waitBits hs hc (a := a.2) hshared (htrans.queueStep hcancel)
    rw [← hnext]
    exact hI.trans hs (hs.trans hcancel htrans) hcard htrans hcancel

omit [DecidableEq P] in
/-- What makes a dontWait request of a process without holdings fail: a
conflicting mode that somebody holds, has raised in passing, or waits for. -/
theorem conflict_of_busy (hlen : conflicts.length ≤ 8)
    (hs : Basic table s) (hc : CountsAre s (waitBits s)) (hcard : Fintype.card P < 2 ^ 15)
    (hzero : (s.proc p).holding = 0#128)
    (hbusy : conflictFree (lcInitConflictTable conflicts) (s.proc p) mode s.lock.c = false) :
    ∃ n, Conflicts conflicts mode n ∧
      ∃ x, Holds s x n ∨ (s.proc x).pc.transient = some n ∨ Published s x n := by
  have hmask := mask_free_iff (p := p) hlen hc hs hcard mode (!holdLock (s.proc p))
  have hnot := (not_congr hmask).mp (by simpa [conflictFree] using hbusy)
  obtain ⟨n, hn⟩ := not_forall.mp hnot
  obtain ⟨hconf, hn⟩ := Classical.not_imp.mp hn
  refine ⟨n, hconf, ?_⟩
  have hown : lcGetActive (s.proc p).holding n = 0 := by simp [hzero, lcGetActive]
  rw [hown] at hn
  by_cases htotal : total s n = 0
  · have hbit : waitBits s n = true := by
      by_contra hbit
      exact hn ⟨htotal, fun _ => by simpa using hbit⟩
    obtain ⟨x, hx⟩ := of_decide_eq_true hbit
    exact ⟨x, Or.inr (Or.inr hx)⟩
  · obtain ⟨x, -, hx⟩ := exists_ne_zero_of_sum_ne_zero htotal
    rcases holds_or_transient hx with hholds | htr
    · exact ⟨x, Or.inl hholds⟩
    · exact ⟨x, Or.inr (Or.inl htr)⟩

/-- In runs where every cancellation is read right and removes a waiter of a
mode that somebody else still waits for, the wait bits are exact whenever the
queue mutex is free, and a dontWait request of a process without holdings
fails only over a conflicting mode that is held, attempted or waited for. -/
theorem wait_bits_exact {conflicts : List (BitVec 32)} (hlen : conflicts.length ≤ 8)
    (hcard : Fintype.card P < 2 ^ 15)
    (h : Transition.Reachable (system (lcInitConflictTable conflicts))
      (fun s a => CancelsOk s a ∧ CancelsShared s a) s) :
    (s.lock.queueLock = none → ∀ m, waitBit s.lock.c m = true ↔ ∃ q, Queued s q m) ∧
    ∀ p mode, (s.proc p).pc = .tryGet mode → (s.proc p).holding = 0#128 →
      (∀ n, Conflicts conflicts mode n → ∀ x, ¬ Holds s x n ∧
        (s.proc x).pc.transient ≠ some n ∧ ¬ Published s x n) →
      step (lcInitConflictTable conflicts) s (p, .run) =
        some (s.setPc p (.trySet mode s.lock.c)) := by
  have hs := basic_of_reachable (fun _ _ h => h.1) h
  have hc := waitBits_of_reachable (fun _ _ h => h) hcard h
  refine ⟨?_, ?_⟩
  · intro hfree m
    rw [hc, waitBit_counts _ _ (hs.inRange hcard), waitBits, decide_eq_true_eq]
    refine exists_congr fun x => ⟨?_, .of_queued⟩
    intro hx
    refine hx.cases.resolve_right ?_
    intro hpc
    have howner := (hs.mutex x).mp (by rw [hpc]; rfl)
    rw [hfree] at howner
    cases howner
  · intro p mode hpc hzero hnone
    cases hbusy : conflictFree (lcInitConflictTable conflicts) (s.proc p) mode s.lock.c with
    | true => simp [step, run, hpc, hbusy]
    | false =>
      obtain ⟨n, hn, x, hx⟩ := conflict_of_busy hlen hs hc hcard hzero hbusy
      have hclear := hnone n hn x
      rcases hx with hx | hx | hx
      · exact absurd hx hclear.1
      · exact absurd hx hclear.2.1
      · exact absurd hx hclear.2.2

/-- Processes 1 and 2 wait for the mode process 0 holds, and process 1 gives up. -/
theorem wait_bits_exact_after_cancel : ∃ s : State (Fin 3),
    Transition.Reachable (system (lcInitConflictTable [1#32]))
      (fun s a => CancelsOk s a ∧ CancelsShared s a) s ∧
    (s.proc 1).result = true ∧ s.lock.queueLock = none ∧
    (waitBit s.lock.c 0 = true ↔ ∃ q, Queued s q 0) := by
  obtain ⟨s, hreach, hresult, hfree⟩ := Transition.exists_reachable
    (system (lcInitConflictTable [1#32])) (fun s a => CancelsOk s a ∧ CancelsShared s a)
    (fun s => (s.proc 1).result = true ∧ s.lock.queueLock = none)
    ([((0 : Fin 3), .acquire 0 false), (0, .run), (0, .run), (1, .acquire 0 false)] ++
      List.replicate 8 (1, .run) ++ [(2, .acquire 0 false)] ++ List.replicate 8 (2, .run) ++
      [(1, .interrupt), (1, .cancel), (1, .run), (1, .run)])
    fresh_initial (by decide +kernel)
  exact ⟨s, hreach, hresult, hfree, (wait_bits_exact (by decide) (by decide) hreach).1 hfree 0⟩

/-- Process 1 was the only waiter for mode 1 and cancelled; its wait bit stays.
When everything has been released, a dontWait request for mode 0 still fails. -/
theorem wait_bit_left_by_cancel : ∃ s : State (Fin 3),
    Transition.Reachable (system (lcInitConflictTable [6#32, 1#32, 1#32])) CancelsOk s ∧
    s.lock.queueLock = none ∧ waitBit s.lock.c 1 = true ∧ (∀ q m, ¬ Queued s q m) ∧
    (∀ x n, ¬ Holds s x n) ∧ (s.proc 1).pc = .idle ∧ (s.proc 2).pc = .idle ∧
    (s.proc 0).pc = .tryGet 0 ∧ (s.proc 0).holding = 0#128 ∧
    step (lcInitConflictTable [6#32, 1#32, 1#32]) s (0, .run) = some (returnFalse s 0) := by
  obtain ⟨s, hreach, hfree, hbit, hqueued, hholds, h1, h2, h0, hzero, hbusy⟩ :=
    Transition.exists_reachable (system (lcInitConflictTable [6#32, 1#32, 1#32])) CancelsOk
      (fun s : State (Fin 3) => s.lock.queueLock = none ∧ waitBit s.lock.c 1 = true ∧
        (∀ q m, ¬ Queued s q m) ∧ (∀ x n, ¬ Holds s x n) ∧ (s.proc 1).pc = .idle ∧
        (s.proc 2).pc = .idle ∧ (s.proc 0).pc = .tryGet 0 ∧ (s.proc 0).holding = 0#128 ∧
        conflictFree (lcInitConflictTable [6#32, 1#32, 1#32]) (s.proc 0) 0 s.lock.c = false)
      ([((0 : Fin 3), .acquire 0 false), (0, .run), (0, .run), (1, .acquire 1 false)] ++
        List.replicate 8 (1, .run) ++ [(2, .acquire 2 false)] ++ List.replicate 8 (2, .run) ++
        [(1, .interrupt), (1, .cancel), (1, .run), (1, .run), (0, .release 0)] ++
        List.replicate 8 (0, .run) ++ [(2, .run), (2, .release 2), (2, .run), (2, .run),
        (0, .acquire 0 true)])
      fresh_initial (by decide +kernel)
  exact ⟨s, hreach, hfree, hbit, hqueued, hholds, h1, h2, h0, hzero, by simp [step, run, h0, hbusy]⟩

end Mosbench.Gsl
