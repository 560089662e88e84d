import Mosbench.Gsl.Fair

/-!
Runs with many processes. A request that fails its fast path raises the active count and stops
before the queue mutex, so any number of processes can have raised the same count at once.
-/
namespace Mosbench.Gsl

open State List Transition

variable [DecidableEq P]

theorem State.setPc_setPc (s : State P) (p : P) (pc pc' : Pc P) :
    (s.setPc p pc).setPc p pc' = s.setPc p pc' := by
  simp [setPc, modify]

omit [DecidableEq P] in
theorem fairStep_run (s : State P) (p : P) : FairStep s (p, .run) :=
  ⟨by simp [NoCancel], by simp [NoUpgrade]⟩

omit [DecidableEq P] in
theorem fairStep_release (s : State P) (p : P) (m : Mode) : FairStep s (p, .release m) :=
  ⟨by simp [NoCancel], by simp [NoUpgrade]⟩

variable [Fintype P] {s : State P}

section

variable (h : Reachable (system table) FairStep s)

include h

theorem reach_acqSet (hpc : (s.proc p).pc = .idle)
    (hzero : (s.proc p).holding = 0#128) :
    Reachable (system table) FairStep (s.setPc p (.acqSet m s.lock.c)) := by
  have hactive : lcGetActive (0#128) m = 0 := by simp [lcGetActive]
  have hcall : step table s (p, .acquire m false) = some (s.setPc p (.acqGet m)) := by
    simp [step, hpc, hzero, hactive]
  have hget : step table (s.setPc p (.acqGet m)) (p, .run) =
      some (s.setPc p (.acqSet m s.lock.c)) := by
    simp [step, run, setPc_setPc]
  have hfair : FairStep s (p, .acquire m false) :=
    ⟨by simp [NoCancel], fun _ _ _ => hzero⟩
  exact (h.step hfair hcall).step (fairStep_run _ p) hget

theorem reach_fast (hpc : (s.proc p).pc = .idle)
    (hzero : (s.proc p).holding = 0#128)
    (hfree : conflictFree table (s.proc p) m s.lock.c = true) :
    Reachable (system table) FairStep
      (acquired ((s.setCounts (lcAdd s.lock.c (lcActive m))).setPc p (.acqSet m s.lock.c)) p m) := by
  have hset : step table (s.setPc p (.acqSet m s.lock.c)) (p, .run) =
      some (acquired ((s.setPc p (.acqSet m s.lock.c)).setCounts
        (lcAdd s.lock.c (lcActive m))) p m) := by
    have hfree' : conflictFree table { s.proc p with pc := .acqSet m s.lock.c } m s.lock.c =
        true := hfree
    simp [step, run, hfree']
  exact (reach_acqSet h hpc hzero).step (fairStep_run _ p) hset

theorem reach_raise (hpc : (s.proc p).pc = .idle)
    (hzero : (s.proc p).holding = 0#128)
    (hbusy : conflictFree table (s.proc p) m s.lock.c = false) :
    Reachable (system table) FairStep
      ((s.setCounts (lcAdd s.lock.c (lcActive m))).setPc p (.acqMutex m)) := by
  have hset : step table (s.setPc p (.acqSet m s.lock.c)) (p, .run) =
      some ((s.setCounts (lcAdd s.lock.c (lcActive m))).setPc p (.acqMutex m)) := by
    have hbusy' : conflictFree table { s.proc p with pc := .acqSet m s.lock.c } m s.lock.c =
        false := hbusy
    have hcomm : ((s.setPc p (.acqSet m s.lock.c)).setCounts (lcAdd s.lock.c (lcActive m))).setPc
        p (.acqMutex m) = (s.setCounts (lcAdd s.lock.c (lcActive m))).setPc p (.acqMutex m) := by
      simp [setPc, State.modify, setCounts]
    simp [step, run, hbusy', hcomm]
  exact (reach_acqSet h hpc hzero).step (fairStep_run _ p) hset

end

def atEnqueue (s : State P) (p : P) (m : Mode) : State P :=
  ((s.setQueueLock (some p)).setCounts (undoCounts m s.lock.c)).setPc p (.enqueue m)

theorem reach_enqueue (h : Reachable (system table) FairStep s)
    (hpc : (s.proc p).pc = .acqMutex m) (hfree : s.lock.queueLock = none) :
    Reachable (system table) FairStep (enqueue (atEnqueue s p m) p m) := by
  have hmutex : step table s (p, .run) = some ((s.setQueueLock (some p)).setPc p (.undoGet m)) := by
    simp [step, run, hpc, lockQueue, hfree]
  have hget : step table ((s.setQueueLock (some p)).setPc p (.undoGet m)) (p, .run) =
      some ((s.setQueueLock (some p)).setPc p (.undoSet m s.lock.c)) := by
    simp [step, run, setPc_setPc]
  have hset : step table ((s.setQueueLock (some p)).setPc p (.undoSet m s.lock.c)) (p, .run) =
      some (atEnqueue s p m) := by
    have hcomm : (((s.setQueueLock (some p)).setPc p (.undoSet m s.lock.c)).setCounts
        (undoCounts m s.lock.c)).setPc p (.enqueue m) = atEnqueue s p m := by
      simp [atEnqueue, setPc, State.modify, setCounts]
    simp [step, run, hcomm]
  have hqueue : step table (atEnqueue s p m) (p, .run) = some (enqueue (atEnqueue s p m) p m) := by
    simp [step, run, atEnqueue]
  exact (((h.step (fairStep_run _ p) hmutex).step (fairStep_run _ p) hget).step
    (fairStep_run _ p) hset).step (fairStep_run _ p) hqueue

theorem reach_leave (h : Reachable (system table) FairStep s)
    (hpc : (s.proc p).pc = .wake caller .head) (hf : s.lock.waiter = some f)
    (hbusy : wakeFree table (s.proc f).shared s.lock.c = false)
    (hfair : (s.proc f).shared.isUpgrade = false) :
    Reachable (system table) FairStep
      (leaveWake (s.setPc p (.wakeGet caller .head f)) p caller) := by
  have hnext : step table s (p, .run) = some (s.setPc p (.wakeGet caller .head f)) := by
    simp [step, run, hpc, cell, hf]
  have hshared : ((s.setPc p (.wakeGet caller .head f)).proc f).shared = (s.proc f).shared := by
    by_cases hfp : f = p
    · rw [hfp, setPc_proc_self]
    · rw [setPc_proc_of_ne _ hfp]
  have hleave : step table (s.setPc p (.wakeGet caller .head f)) (p, .run) =
      some (leaveWake (s.setPc p (.wakeGet caller .head f)) p caller) := by
    simp [step, run, hshared, hbusy, hfair]
  exact (h.step (fairStep_run _ p) hnext).step (fairStep_run _ p) hleave

structure Front (s : State P) (f : P) (m : Mode) : Prop where
  waiter : s.lock.waiter = some f
  wantMode : (s.proc f).shared.wantMode = m
  waitHolding : (s.proc f).shared.waitHolding = 0#128
  isUpgrade : (s.proc f).shared.isUpgrade = false
  tail : ∃ y, s.lock.waiterTail = some (.next y)

/-- What a failed request leaves behind: its process asleep, and the rest as it
was but for the counts and the links. -/
structure Slept (s t : State P) (p : P) (m : Mode) : Prop where
  c : t.lock.c = undoCounts m s.lock.c
  queueLock : t.lock.queueLock = none
  pc : (t.proc p).pc = .sleep m
  holding : (t.proc p).holding = 0#128
  woken : (t.proc p).woken = (s.proc p).woken
  other : ∀ x, x ≠ p → ∃ v, t.proc x = (s.proc x).relink v

omit [Fintype P] in
theorem Front.enqueue_first (hempty : s.lock.waiter = none)
    (hzero : (s.proc p).holding = 0#128) : Front (enqueue s p m) p m := by
  have hhold : holdLock (s.proc p) = false := by simp [holdLock, hzero, lcNonZero]
  obtain ⟨v, hv⟩ := enqueue_proc_self s p m
  have hcell := congrFun (enqueue_cell_fair s p m hhold) .head
  refine ⟨?_, by rw [hv], by rw [hv, hzero], by rw [hv, hhold], p,
    enqueue_waiterTail_fair s p m hhold⟩
  have htail : tailCell s = some .head := if_pos hempty
  rw [htail] at hcell
  exact hcell

omit [Fintype P] in
theorem Front.enqueue_behind (h : Front s f m) (hfp : f ≠ p)
    (hzero : (s.proc p).holding = 0#128) : Front (enqueue s p m) f m := by
  have hhold : holdLock (s.proc p) = false := by simp [holdLock, hzero, lcNonZero]
  obtain ⟨v, hv⟩ := enqueue_proc_of_ne s m hfp
  obtain ⟨y, hy⟩ := h.tail
  have hcell := congrFun (enqueue_cell_fair s p m hhold) .head
  refine ⟨?_, by rw [hv]; exact h.wantMode, by rw [hv]; exact h.waitHolding,
    by rw [hv]; exact h.isUpgrade, p, enqueue_waiterTail_fair s p m hhold⟩
  have htail : tailCell s = some (.next y) := by
    rw [tailCell, if_neg (by simp [h.waiter]), hy]
  rw [htail] at hcell
  have hhead : (enqueue s p m).lock.waiter = s.lock.waiter := hcell
  rw [hhead]
  exact h.waiter

theorem reach_sleep (h : Reachable (system table) FairStep s)
    (hpc : (s.proc p).pc = .acqMutex m) (hfree : s.lock.queueLock = none)
    (hzero : (s.proc p).holding = 0#128)
    (hfront : Front (enqueue (atEnqueue s p m) p m) f m)
    (hbusy : lcZero (lcAnd (undoCounts m s.lock.c) (lcConflictMask table m true false)) = false) :
    ∃ t, Reachable (system table) FairStep t ∧ Slept s t p m ∧ Front t f m := by
  obtain ⟨v, hv⟩ := enqueue_proc_self (atEnqueue s p m) p m
  have hc : (enqueue (atEnqueue s p m) p m).lock.c = undoCounts m s.lock.c := by
    rw [enqueue_c]
    rfl
  have hwake : wakeFree table ((enqueue (atEnqueue s p m) p m).proc f).shared
      (enqueue (atEnqueue s p m) p m).lock.c = false := by
    rw [wakeFree, hfront.wantMode, hfront.waitHolding, hc, lcSubtract, BitVec.sub_zero]
    exact hbusy
  refine ⟨_, reach_leave (reach_enqueue h hpc hfree) (by rw [hv]) hfront.waiter hwake
    hfront.isUpgrade, ?_, ?_⟩
  · refine ⟨?_, rfl, ?_, ?_, ?_, ?_⟩
    · exact hc
    · simp [leaveWake]
    · simp only [leaveWake, setPc_proc_self, setQueueLock_proc, hv]
      simpa [atEnqueue] using hzero
    · simp only [leaveWake, setPc_proc_self, setQueueLock_proc, hv]
      simp [atEnqueue]
    · intro x hx
      obtain ⟨u, hu⟩ := enqueue_proc_of_ne (atEnqueue s p m) m hx
      refine ⟨u, ?_⟩
      rw [leaveWake, setPc_proc_of_ne _ hx, setQueueLock_proc,
        setPc_proc_of_ne _ hx, hu, atEnqueue, setPc_proc_of_ne _ hx]
      rfl
  · have hshared : ((leaveWake ((enqueue (atEnqueue s p m) p m).setPc p
        (.wakeGet (.acquire m) .head f)) p (.acquire m)).proc f).shared =
        ((enqueue (atEnqueue s p m) p m).proc f).shared := by
      by_cases hfp : f = p
      · subst f
        simp [leaveWake]
      · rw [leaveWake, setPc_proc_of_ne _ hfp, setQueueLock_proc, setPc_proc_of_ne _ hfp]
    exact ⟨hfront.waiter, by rw [hshared]; exact hfront.wantMode,
      by rw [hshared]; exact hfront.waitHolding, by rw [hshared]; exact hfront.isUpgrade,
      hfront.tail⟩

/-! A crowd of requests for mode 0, which conflicts with mode 1 and nothing else. -/

def crowdCounts (j k : ℕ) : LockCounts :=
  counts (fun m => if m = 0 then j else if m = 1 then k else 0) fun m => m = 0

/-- `e` holds mode 1 and `a` waits for mode 0 in front of the queue. The
processes in `raised` have raised mode 0, those in `idle` are idle, and all
the others sleep. -/
structure Jam (s : State P) (e a : P) (idle raised : List P) : Prop where
  reach : Reachable (system (lcInitConflictTable [2#32, 1#32])) FairStep s
  queueLock : s.lock.queueLock = none
  front : Front s a 0
  holder : (s.proc e).pc = .idle ∧ (s.proc e).holding = lcActive 1 ∧ (s.proc e).woken = false
  idle_pc : ∀ x ∈ idle, (s.proc x).pc = .idle
  raised_pc : ∀ x ∈ raised, (s.proc x).pc = .acqMutex 0
  rest : ∀ x, x = e ∨ x ∈ idle ∨ x ∈ raised ∨ (s.proc x).pc = .sleep 0
  plain : ∀ x, x ≠ e → (s.proc x).holding = 0#128 ∧ (s.proc x).woken = false
  nodup : (e :: a :: (idle ++ raised)).Nodup

namespace Jam

variable {idle : List P}

theorem raise (h : Jam s e a (x :: idle) raised) (hbusy : lcZero (lcAnd s.lock.c
      (lcConflictMask (lcInitConflictTable [2#32, 1#32]) 0 true true)) = false) :
    ∃ t, Jam t e a idle (x :: raised) ∧ t.lock.c = lcAdd s.lock.c (lcActive 0) := by
  have hnodup : (x :: e :: a :: (idle ++ raised)).Nodup := by
    have hperm : ([e, a] ++ x :: (idle ++ raised)).Perm (x :: ([e, a] ++ (idle ++ raised))) :=
      perm_middle
    exact hperm.nodup_iff.mp h.nodup
  obtain ⟨hx, hrest⟩ := nodup_cons.mp hnodup
  have hxe : x ≠ e := fun hxe => hx (by simp [hxe])
  have hxa : a ≠ x := fun hxa => hx (by simp [hxa])
  have hzero := (h.plain x hxe).1
  have hconf : conflictFree (lcInitConflictTable [2#32, 1#32]) (s.proc x) 0 s.lock.c = false := by
    simp only [conflictFree, holdLock, hzero, lcNonZero, lcSubtract, BitVec.sub_zero, bne_self_eq_false,
      Bool.not_false]
    exact hbusy
  have hother : ∀ (y : P), y ≠ x → ((s.setCounts (lcAdd s.lock.c (lcActive 0))).setPc x
      (.acqMutex 0)).proc y = s.proc y := fun y hy => setPc_proc_of_ne _ hy _
  have hself : ((s.setCounts (lcAdd s.lock.c (lcActive 0))).setPc x (.acqMutex 0)).proc x =
      { s.proc x with pc := .acqMutex 0 } := setPc_proc_self _ x _
  refine ⟨_, ⟨reach_raise h.reach (h.idle_pc x (by simp)) hzero hconf, h.queueLock, ?_, ?_, ?_, ?_,
    ?_, ?_, ?_⟩, rfl⟩
  · have hfront := h.front
    exact ⟨hfront.waiter, by rw [hother a hxa]; exact hfront.wantMode,
      by rw [hother a hxa]; exact hfront.waitHolding, by rw [hother a hxa]; exact hfront.isUpgrade,
      hfront.tail⟩
  · rw [hother e (Ne.symm hxe)]
    exact h.holder
  · intro y hy
    rw [hother y (fun hyx => hx (by simp [← hyx, hy]))]
    exact h.idle_pc y (by simp [hy])
  · intro y hy
    by_cases hyx : y = x
    · rw [hyx, hself]
    · rw [hother y hyx]
      exact h.raised_pc y ((mem_cons.mp hy).resolve_left hyx)
  · intro y
    by_cases hyx : y = x
    · exact .inr (.inr (.inl (by simp [hyx])))
    · rw [hother y hyx]
      rcases h.rest y with hy | hy | hy | hy
      · exact .inl hy
      · exact .inr (.inl ((mem_cons.mp hy).resolve_left hyx))
      · exact .inr (.inr (.inl (by simp [hy])))
      · exact .inr (.inr (.inr hy))
  · intro y hy
    by_cases hyx : y = x
    · rw [hyx, hself]
      exact h.plain x hxe
    · rw [hother y hyx]
      exact h.plain y hy
  · have hperm : (e :: a :: idle ++ x :: raised).Perm (x :: (e :: a :: idle ++ raised)) :=
      perm_middle
    exact hperm.nodup_iff.mpr hnodup

theorem sleep (h : Jam s e a idle (x :: raised)) (hbusy : lcZero (lcAnd (undoCounts 0 s.lock.c)
      (lcConflictMask (lcInitConflictTable [2#32, 1#32]) 0 true false)) = false) :
    ∃ t, Jam t e a idle raised ∧ t.lock.c = undoCounts 0 s.lock.c := by
  have hnodup : (x :: e :: a :: (idle ++ raised)).Nodup := by
    have hperm : (e :: a :: idle ++ x :: raised).Perm (x :: (e :: a :: idle ++ raised)) :=
      perm_middle
    exact hperm.nodup_iff.mp h.nodup
  obtain ⟨hx, hrest⟩ := nodup_cons.mp hnodup
  have hxe : x ≠ e := fun hxe => hx (by simp [hxe])
  have hxa : a ≠ x := fun hxa => hx (by simp [hxa])
  have hpc := h.raised_pc x (by simp)
  have hzero := (h.plain x hxe).1
  have hfront : Front (enqueue (atEnqueue s x 0) x 0) a 0 := by
    have hat : ∀ y, ((atEnqueue s x 0).proc y).shared = (s.proc y).shared := by
      intro y
      by_cases hyx : y = x
      · simp [hyx, atEnqueue]
      · rw [atEnqueue, setPc_proc_of_ne _ hyx]
        rfl
    refine Front.enqueue_behind ?_ hxa (by simpa [atEnqueue] using hzero)
    exact ⟨h.front.waiter, by rw [hat]; exact h.front.wantMode,
      by rw [hat]; exact h.front.waitHolding, by rw [hat]; exact h.front.isUpgrade, h.front.tail⟩
  obtain ⟨t, hreach, hslept, hfront'⟩ := reach_sleep h.reach hpc h.queueLock hzero hfront hbusy
  have hkept : ∀ y, y ≠ x → (t.proc y).pc = (s.proc y).pc ∧
      (t.proc y).holding = (s.proc y).holding ∧ (t.proc y).woken = (s.proc y).woken := by
    intro y hy
    obtain ⟨v, hv⟩ := hslept.other y hy
    rw [hv]
    exact ⟨rfl, rfl, rfl⟩
  refine ⟨t, ⟨hreach, hslept.queueLock, hfront', ?_, ?_, ?_, ?_, ?_, hrest⟩, hslept.c⟩
  · obtain ⟨h1, h2, h3⟩ := hkept e (Ne.symm hxe)
    rw [h1, h2, h3]
    exact h.holder
  · intro y hy
    rw [(hkept y (fun hyx => hx (by simp [← hyx, hy]))).1]
    exact h.idle_pc y hy
  · intro y hy
    rw [(hkept y (fun hyx => hx (by simp [← hyx, hy]))).1]
    exact h.raised_pc y (by simp [hy])
  · intro y
    by_cases hyx : y = x
    · rw [hyx]
      exact .inr (.inr (.inr hslept.pc))
    · rw [(hkept y hyx).1]
      rcases h.rest y with hy | hy | hy | hy
      · exact .inl hy
      · exact .inr (.inl hy)
      · exact .inr (.inr (.inl ((mem_cons.mp hy).resolve_left hyx)))
      · exact .inr (.inr (.inr hy))
  · intro y hy
    by_cases hyx : y = x
    · subst y
      exact ⟨hslept.holding, hslept.woken.trans (h.plain x hxe).2⟩
    · rw [(hkept y hyx).2.1, (hkept y hyx).2.2]
      exact h.plain y hy

omit [DecidableEq P] [Fintype P] in
theorem crowd_inRange (hj : j < 2 ^ 15) (hk : k < 2 ^ 15) :
    InRange fun m => if m = 0 then j else if m = 1 then k else 0 := by
  intro m
  dsimp only
  split
  · exact hj
  · split <;> omega

theorem crowd_busy (hj : j < 2 ^ 15) (hk : k < 2 ^ 15) (hpos : k ≠ 0) (waiting : Bool) :
    lcZero (lcAnd (crowdCounts j k)
      (lcConflictMask (lcInitConflictTable [2#32, 1#32]) 0 true waiting)) = false := by
  by_contra hzero
  have hfree := (lcAnd_conflictMask [2#32, 1#32] (by decide) _ _ (crowd_inRange hj hk) 0 true
    waiting).mp (by simpa [crowdCounts] using hzero)
  have hone := (hfree 1 (by decide)).1 rfl
  simp [hpos] at hone

theorem crowd_raise (j k : ℕ) : lcAdd (crowdCounts j k) (lcActive 0) = crowdCounts (j + 1) k := by
  rw [crowdCounts, lcAdd_active, crowdCounts]
  congr 1
  funext m
  by_cases hm : m = 0
  · subst m
    simp
  · simp [hm]

theorem crowd_undo (hj : j < 2 ^ 15) (hk : k < 2 ^ 15) :
    undoCounts 0 (crowdCounts (j + 1) k) = crowdCounts j k := by
  have hlower : lcSubtract (crowdCounts (j + 1) k) (lcActive 0) = crowdCounts j k := by
    rw [← crowd_raise, lcSubtract, lcAdd, BitVec.add_sub_cancel]
  rw [undoCounts, hlower, crowdCounts, lcOr_setWait _ _ (crowd_inRange hj hk)]
  congr 1
  funext m
  by_cases hm : m = 0
  · simp [hm]
  · simp [hm]

theorem raise_all (crowd : List P) (h : Jam s e a (crowd ++ idle) raised)
    (hc : s.lock.c = crowdCounts j 1) (hlen : j + crowd.length ≤ 2 ^ 15) :
    ∃ t, Jam t e a idle (crowd.reverse ++ raised) ∧
      t.lock.c = crowdCounts (j + crowd.length) 1 := by
  induction crowd generalizing s j raised with
  | nil => exact ⟨s, h, hc⟩
  | cons x crowd ih =>
    simp only [length_cons] at hlen
    obtain ⟨t, ht, htc⟩ := h.raise (by rw [hc]; exact crowd_busy (by omega) (by omega) (by omega) _)
    rw [hc, crowd_raise] at htc
    obtain ⟨u, hu, huc⟩ := ih ht htc (by omega)
    refine ⟨u, by simpa using hu, ?_⟩
    rw [huc, length_cons]
    congr 1
    omega

theorem sleep_all (hk : k < 2 ^ 15) (hpos : k ≠ 0) (h : Jam s e a idle raised)
    (hc : s.lock.c = crowdCounts raised.length k) (hlen : raised.length ≤ 2 ^ 15) :
    ∃ t, Jam t e a idle [] ∧ t.lock.c = crowdCounts 0 k := by
  induction raised generalizing s with
  | nil => exact ⟨s, h, hc⟩
  | cons x raised ih =>
    simp only [length_cons] at hlen hc
    have hundo : undoCounts 0 s.lock.c = crowdCounts raised.length k := by
      rw [hc, crowd_undo (by omega) hk]
    obtain ⟨t, ht, htc⟩ := h.sleep (by rw [hundo]; exact crowd_busy (by omega) hk hpos _)
    exact ih ht (htc.trans hundo) (by omega)

theorem start (hnodup : (e :: a :: idle).Nodup) (hall : ∀ x, x = e ∨ x = a ∨ x ∈ idle) :
    ∃ s, Jam s e a idle [] ∧ s.lock.c = crowdCounts 0 1 := by
  have hae : a ≠ e := by
    intro hae
    simp [hae] at hnodup
  have hfree : conflictFree (lcInitConflictTable [2#32, 1#32]) ((fresh : State P).proc e) 1
      (fresh : State P).lock.c = true := by
    simp [conflictFree, fresh, gslLockInit, lcSubtract, lcAnd, lcZero]
  have hholder := reach_fast (Reachable.of_initial (fresh_initial : Initial (fresh : State P)))
    (p := e) rfl rfl hfree
  generalize hs : acquired (((fresh : State P).setCounts (lcAdd (fresh : State P).lock.c
    (lcActive 1))).setPc e (.acqSet 1 (fresh : State P).lock.c)) e 1 = s at hholder
  have hc : s.lock.c = lcAdd 0#128 (lcActive 1) := by rw [← hs]; rfl
  have he : (s.proc e).pc = .idle ∧ (s.proc e).holding = lcActive 1 ∧ (s.proc e).woken = false := by
    have hone : lcAdd 0#128 (lcActive 1) = lcActive 1 := by decide
    rw [← hs, acquired, modify_proc_self, setPc_proc_self]
    exact ⟨rfl, hone, rfl⟩
  have hother : ∀ x, x ≠ e → s.proc x = (fresh : State P).proc x := by
    intro x hx
    rw [← hs, acquired, modify_proc_of_ne _ hx, setPc_proc_of_ne _ hx]
    rfl
  have hlock : s.lock.waiter = none ∧ s.lock.queueLock = none := by
    rw [← hs]
    exact ⟨rfl, rfl⟩
  have hbusy : conflictFree (lcInitConflictTable [2#32, 1#32]) (s.proc a) 0 s.lock.c = false := by
    have hmask : lcZero (lcAnd (lcSubtract (lcAdd 0#128 (lcActive 1)) 0#128)
        (lcConflictMask (lcInitConflictTable [2#32, 1#32]) 0 true true)) = false := by
      decide +kernel
    rw [hother a hae, hc]
    exact hmask
  have hraise := reach_raise hholder (p := a) (by rw [hother a hae]; rfl)
    (by rw [hother a hae]; rfl) hbusy
  have hfront : Front (enqueue (atEnqueue ((s.setCounts (lcAdd s.lock.c (lcActive 0))).setPc a
      (.acqMutex 0)) a 0) a 0) a 0 := by
    refine Front.enqueue_first hlock.1 ?_
    simp only [atEnqueue, setPc_proc_self, setCounts_proc, setQueueLock_proc]
    rw [hother a hae]
    rfl
  obtain ⟨t, hreach, hslept, hfront'⟩ := reach_sleep hraise (by simp) hlock.2
    (by simp [hother a hae, fresh]) hfront (by
      rw [setPc_lock, setCounts_c, hc]
      decide +kernel)
  have hrest : ∀ x, x ≠ a → ∃ v, t.proc x = (s.proc x).relink v := by
    intro x hx
    obtain ⟨v, hv⟩ := hslept.other x hx
    rw [setPc_proc_of_ne _ hx] at hv
    exact ⟨v, hv⟩
  refine ⟨t, ⟨hreach, hslept.queueLock, hfront', ?_, ?_, by simp, ?_, ?_, by simpa using hnodup⟩,
    ?_⟩
  · obtain ⟨v, hv⟩ := hrest e (Ne.symm hae)
    rw [hv]
    exact he
  · intro x hx
    have hxa : x ≠ a := by
      intro hxa
      simp [← hxa, hx] at hnodup
    have hxe : x ≠ e := by
      intro hxe
      simp [← hxe, hx] at hnodup
    obtain ⟨v, hv⟩ := hrest x hxa
    rw [hv, hother x hxe]
    rfl
  · intro x
    rcases hall x with hx | hx | hx
    · exact .inl hx
    · rw [hx]
      exact .inr (.inr (.inr hslept.pc))
    · exact .inr (.inl hx)
  · intro x hx
    by_cases hxa : x = a
    · subst x
      refine ⟨hslept.holding, hslept.woken.trans ?_⟩
      simp [hother a hae, fresh]
    · obtain ⟨v, hv⟩ := hrest x hxa
      rw [hv, hother x hx]
      exact ⟨rfl, rfl⟩
  · rw [hslept.c, setPc_lock, setCounts_c, hc]
    decide +kernel

end Jam

abbrev Crowd := Bool ⊕ Option (Fin (2 ^ 15))

def crowd : List Crowd := (List.finRange (2 ^ 15)).map fun i => .inr (some i)

theorem crowd_start : ∃ s, Jam s (.inl false) (.inl true) (crowd ++ [.inr none]) [] ∧
    s.lock.c = crowdCounts 0 1 := by
  refine Jam.start ?_ ?_
  · have hcrowd : crowd.Nodup :=
      (nodup_finRange _).map fun i j hij => Option.some.inj (Sum.inr.inj hij)
    simp [crowd, nodup_append] at hcrowd ⊢
    exact hcrowd
  · intro x
    rcases x with (_ | _) | (_ | i)
    · exact .inl rfl
    · exact .inr (.inl rfl)
    · simp
    · simp [crowd]

end Mosbench.Gsl
