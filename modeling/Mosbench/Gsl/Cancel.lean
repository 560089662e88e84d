import Mosbench.Gsl.Exclusion
import Mosbench.Gsl.Waiters

/-!
The verdict of gslCancel. A null link is taken for a grant, but the last waiter of the queue has
a null link too and is told that it holds the lock.
-/
namespace Mosbench.Gsl

open State Links

/-- The link of a cancelling process tells its fate: it is null if the process
was granted its mode, and otherwise the process stands in the queue with
another waiter behind it. -/
def CancelReadable (s : State P) (a : P × Act) : Prop :=
  ∀ m, (s.proc a.1).pc = .cancelLocked m →
    ((s.proc a.1).woken = true → (s.proc a.1).shared.lockNext = none) ∧
    ((s.proc a.1).woken = false → OnQueue s a.1 ∧ (s.proc a.1).shared.lockNext ≠ none)

theorem CancelReadable.cancelsOk (h : CancelReadable s a) : CancelsOk s a := by
  intro m hpc hnull
  by_contra hwoken
  exact ((h m hpc).2 (by simpa using hwoken)).2 hnull

variable [DecidableEq P] [Fintype P] {s : State P}

theorem step_cancelGranted (hpc : (s.proc p).pc = .cancelLocked m)
    (hnull : (s.proc p).shared.lockNext = none) :
    step table s (p, .run) = some (cancelGranted s p) := by
  simp [step, run, hpc, cancel, hnull]

theorem step_cancelQueued (hs : Basic table s) (hc : WaitCounted s)
    (hpc : (s.proc p).pc = .cancelLocked m) (hqueue : OnQueue s p)
    (hnext : (s.proc p).shared.lockNext ≠ none) :
    ∃ prev, findLink s.cell p (Fintype.card P + 1) .head = some prev ∧
      step table s (p, .run) = some (cancelQueued s p prev) := by
  obtain ⟨L, hchain, hmem⟩ := hqueue
  have hlen : L.length ≤ Fintype.card P + 1 :=
    (hchain.nodup.length_le_card).trans (Nat.le_succ _)
  obtain ⟨prev, hfind⟩ := findLink_isSome hchain hmem hlen
  obtain ⟨hqueued, hwant⟩ := hs.queued_found hpc hfind
  have hcount : s.lock.waitCounts (s.proc p).shared.wantMode ≠ 0 := by
    have hpos := Tally.le_sum (fun q => if Queued s q m then 1 else 0) p
    simp only [if_pos hqueued] at hpos
    change 1 ≤ queuedCount s m at hpos
    have hm := hc m
    rw [hwant]
    omega
  exact ⟨prev, hfind, by simp [step, run, hpc, cancel, hnext, hfind, hcount]⟩

theorem not_onQueue_cancelQueued (hchain : Chain s.cell .head L)
    (hfind : findLink s.cell p (Fintype.card P + 1) .head = some prev) :
    ¬ OnQueue (cancelQueued s p prev) p := by
  obtain ⟨L₁, L₂, rfl, rfl⟩ := findLink_eq_some hchain hfind
  have hnew : Chain (cancelQueued s p (lastCell .head L₁)).cell .head (L₁ ++ L₂) := by
    rw [cancelQueued, modify_cell _ _ _ rfl, setQueueLock_cell, unlink_cell]
    exact hchain.unlink
  intro hqueue
  obtain ⟨M, hM, hmem⟩ := hqueue
  rw [hM.unique hnew] at hmem
  have hnodup := List.nodup_middle.mp hchain.nodup
  exact (List.nodup_cons.mp hnodup).1 hmem

/-- The outcome of gslCancel by `p` for mode `m`, from `s` to `t`. -/
structure Verdict (conflicts : List (BitVec 32)) (s t : State P) (p : P) (m : Mode) : Prop where
  result : (t.proc p).result = true ↔ (s.proc p).woken = false
  idle : (t.proc p).pc = .idle
  canceled : (s.proc p).woken = false →
    (t.proc p).holding = (s.proc p).holding ∧ ¬ OnQueue t p ∧ ∀ n, ¬ Queued t p n
  granted : (s.proc p).woken = true → lcGetActive (t.proc p).holding m ≠ 0 ∧
    lcGetActive t.lock.c m = ∑ q, contribution (t.proc q) m ∧ contribution (t.proc p) m = 1
  exclusive : Exclusive conflicts t

/-- In every run in which the links of cancelling processes tell their fate,
gslCancel returns and its verdict is right. -/
theorem cancel_verdict {conflicts : List (BitVec 32)} (hsym : Symmetric conflicts)
    (hcard : Fintype.card P < 2 ^ 15)
    (h : Transition.Reachable (system (lcInitConflictTable conflicts)) CancelReadable s)
    (hpc : (s.proc p).pc = .cancelLocked m) (hok : CancelReadable s (p, .run)) :
    ∃ t, step (lcInitConflictTable conflicts) s (p, .run) = some t ∧ Verdict conflicts s t p m := by
  have hcancel : ∀ s a, CancelReadable s a → CancelsOk (P := P) s a := fun _ _ h => h.cancelsOk
  have hs := basic_of_reachable hcancel h
  have hwant := (hs.proc p).want m (by rw [hpc]; rfl)
  cases hwoken : (s.proc p).woken with
  | true =>
    have hstep : step (lcInitConflictTable conflicts) s (p, .run) = some (cancelGranted s p) :=
      step_cancelGranted hpc ((hok m hpc).1 hwoken)
    have hreach := h.step hok hstep
    have ht := basic_of_reachable hcancel hreach
    obtain ⟨w, hw⟩ := countsAre_of_reachable hcancel hcard hreach
    have hadd := (hs.proc p).active_add ((hs.proc p).acquiring m (by rw [hpc]; rfl)) m
    have hholding : ((cancelGranted s p).proc p).holding =
        lcAdd (s.proc p).holding (lcActive m) := by
      rw [cancelGranted, modify_proc_self, ← hwant.1]
      rfl
    have hactive : lcGetActive ((cancelGranted s p).proc p).holding m ≠ 0 := by
      rw [hholding, hadd, if_pos rfl]
      omega
    have hone := (ht.proc p).contribution_le_one m
    have hpos := Holds.contribution_pos (s := cancelGranted s p) (Or.inl hactive)
    refine ⟨_, hstep, ?_, ?_, ?_, ?_, exclusive_of_reachable hsym hcancel hcard hreach⟩
    · simp [cancelGranted, hwoken]
    · simp [cancelGranted]
    · simp [hwoken]
    · intro _
      refine ⟨hactive, ?_, by omega⟩
      rw [hw, lcGetActive_counts _ _ (ht.inRange hcard)]
      rfl
  | false =>
    obtain ⟨hqueue, hnext⟩ := (hok m hpc).2 hwoken
    obtain ⟨L, hL⟩ := hs.queue
    obtain ⟨prev, hfind, hstep⟩ := step_cancelQueued hs (waitCounted_of_reachable hcancel h)
      hpc hqueue hnext
    refine ⟨_, hstep, ?_, ?_, ?_, ?_, exclusive_of_reachable hsym hcancel hcard (h.step hok hstep)⟩
    · simp [cancelQueued, hwoken]
    · simp [cancelQueued]
    · intro _
      refine ⟨?_, not_onQueue_cancelQueued hL.chain hfind, (queued_cancel prev).2⟩
      rw [cancelQueued, modify_proc_self, setQueueLock_proc, unlink_proc]
      rfl
    · simp [hwoken]

/-- Process 1 gives up its wait with process 2 queued behind it. -/
theorem cancel_verdict_middle : ∃ s t : State (Fin 3),
    (s.proc 1).pc = .cancelLocked 0 ∧ (s.proc 1).woken = false ∧
    step (lcInitConflictTable [1#32]) s (1, .run) = some t ∧ Verdict [1#32] s t 1 0 := by
  obtain ⟨s, hreach, hpc, hwoken, hwaiter, hnext, hlast⟩ := Transition.exists_reachable
    (system (lcInitConflictTable [1#32])) (fun s a => ∀ m, (s.proc a.1).pc ≠ .cancelLocked m)
    (fun s => (s.proc 1).pc = .cancelLocked 0 ∧ (s.proc 1).woken = false ∧
      s.lock.waiter = some 1 ∧ (s.proc 1).shared.lockNext = some 2 ∧
      (s.proc 2).shared.lockNext = none)
    ([((0 : Fin 3), .acquire 0 false), (0, .run), (0, .run), (1, .acquire 0 false)] ++
      List.replicate 8 (1, .run) ++ [(2, .acquire 0 false)] ++ List.replicate 8 (2, .run) ++
      [(1, .interrupt), (1, .cancel), (1, .run)])
    fresh_initial (by decide +kernel)
  have hreadable : Transition.Reachable (system (lcInitConflictTable [1#32])) CancelReadable s :=
    hreach.mono fun s a h m hm => absurd hm (h m)
  have hok : CancelReadable s (1, .run) := by
    intro m _
    refine ⟨by simp [hwoken], fun _ => ⟨⟨[1, 2], ?_, by simp⟩, by simp [hnext]⟩⟩
    exact ⟨hwaiter, hnext, hlast⟩
  obtain ⟨t, hstep, hverdict⟩ := cancel_verdict (by decide) (by decide) hreadable hpc hok
  exact ⟨s, t, hpc, hwoken, hstep, hverdict⟩

/-- Process 1 is the only waiter for the mode process 0 holds, is thrown out of
its sleep and cancels: it is told that it holds the lock, and both hold it. -/
theorem cancel_misread : ∃ s t : State (Fin 2),
    Transition.Reachable (system (lcInitConflictTable [1#32])) (fun _ _ => True) s ∧
    (s.proc 1).pc = .cancelLocked 0 ∧ (s.proc 1).woken = false ∧
    step (lcInitConflictTable [1#32]) s (1, .run) = some t ∧ (t.proc 1).result = false ∧
    Holds t 0 0 ∧ Holds t 1 0 ∧ Conflicts [1#32] 0 0 := by
  obtain ⟨s, hreach, hpc, hwoken, hnull, hwant, hzero, hother⟩ := Transition.exists_reachable
    (system (lcInitConflictTable [1#32])) (fun _ _ => True)
    (fun s => (s.proc 1).pc = .cancelLocked 0 ∧ (s.proc 1).woken = false ∧
      (s.proc 1).shared.lockNext = none ∧ (s.proc 1).shared.wantMode = 0 ∧
      (s.proc 1).holding = 0#128 ∧ Holds s 0 0)
    ([((0 : Fin 2), .acquire 0 false), (0, .run), (0, .run), (1, .acquire 0 false)] ++
      List.replicate 8 (1, .run) ++ [(1, .interrupt), (1, .cancel), (1, .run)])
    fresh_initial (by decide +kernel)
  refine ⟨s, _, hreach, hpc, hwoken, step_cancelGranted hpc hnull, ?_, ?_, ?_, by decide⟩
  · simp [cancelGranted]
  · rw [Holds, cancelGranted, modify_proc_of_ne _ (by decide), setQueueLock_proc]
    exact hother
  · left
    have hmode : lcGetActive (lcAdd 0#128 (lcActive 0)) 0 ≠ 0 := by decide
    rw [cancelGranted, modify_proc_self, setQueueLock_proc, hzero, hwant]
    exact hmode

end Mosbench.Gsl
