import Mosbench.Gsl.Crowd

/-!
No lost wake-up. In runs without upgrades and cancellation the first waiter is blocked by a mode
somebody holds, or some process is still on its way to a wake.
-/
namespace Mosbench.Gsl

open State Links

variable {P : Type*}

def Pc.willWake : Pc P → Bool
  | .acqMutex _ | .undoGet _ | .undoSet _ _ | .enqueue _ | .wake _ _ | .wakeGet _ _ _
  | .wakeSet _ _ _ _ | .wakeUnlink _ _ _ | .relMutex _ => true
  | _ => false

def Blocked (conflicts : List (BitVec 32)) (s : State P) (f : P) : Prop :=
  ∃ x, x ≠ f ∧ ∃ n, Holds s x n ∧ Conflicts conflicts (s.proc f).shared.wantMode n

/-- The first waiter is blocked by a holder, or somebody will run wake. -/
def Attended (conflicts : List (BitVec 32)) (s : State P) : Prop :=
  ∀ f, s.lock.waiter = some f → (∃ r, (s.proc r).pc.willWake = true) ∨ Blocked conflicts s f

theorem Blocked.mono (h : Blocked conflicts s f) (hholds : ∀ x n, Holds s x n → Holds t x n)
    (hwant : (t.proc f).shared.wantMode = (s.proc f).shared.wantMode) :
    Blocked conflicts t f := by
  obtain ⟨x, hx, n, hn, hconf⟩ := h
  exact ⟨x, hx, n, hholds x n hn, by rwa [hwant]⟩

theorem Move.willWake (h : Move table s p a pc) : pc.willWake = (s.proc p).pc.willWake := by
  cases h <;> simp_all [Pc.willWake]

theorem Pc.willWake_of_transient {pc : Pc P} (h : pc.transient = some m) : pc.willWake = true := by
  cases pc <;> simp_all [Pc.willWake, Pc.transient]

variable [DecidableEq P] [Fintype P] {conflicts : List (BitVec 32)} {s : State P}

theorem blocked_of_busy (hlen : conflicts.length ≤ 8)
    (hs : Basic table s) (hc : CountsAre s w) (hcard : Fintype.card P < 2 ^ 15)
    (hf : Queued s f m)
    (hbusy : wakeFree (lcInitConflictTable conflicts) (s.proc f).shared s.lock.c = false) :
    Blocked conflicts s f ∨ ∃ x n, x ≠ f ∧ (s.proc x).pc.transient = some n := by
  obtain ⟨hwant, hholding⟩ := (hs.proc f).want m hf.1
  have hmask := mask_free_iff (p := f) hlen hc hs hcard (s.proc f).shared.wantMode false
  have hnot := (not_congr hmask).mp (by rw [← hholding]; simpa [wakeFree] using hbusy)
  obtain ⟨n, hn⟩ := not_forall.mp hnot
  obtain ⟨hconf, hn⟩ := Classical.not_imp.mp hn
  have hown : contribution (s.proc f) n = lcGetActive (s.proc f).holding n := by
    have htr : (s.proc f).pc.transient ≠ some n := by
      intro htr
      have hqueued := hf.1
      rw [Pc.queued_of_transient htr] at hqueued
      cases hqueued
    simp [contribution, hf.2, htr]
  obtain ⟨x, hx, hpos⟩ : ∃ x, x ≠ f ∧ contribution (s.proc x) n ≠ 0 := by
    by_contra hnone
    refine hn ⟨?_, by simp⟩
    rw [← hown, total]
    refine Finset.sum_eq_single f ?_ (by simp)
    intro x _ hx
    by_contra hpos
    exact hnone ⟨x, hx, hpos⟩
  rcases holds_or_transient hpos with hholds | htr
  · exact .inl ⟨x, hx, n, hholds, hconf⟩
  · exact .inr ⟨x, n, hx, htr⟩

namespace Attended

omit [DecidableEq P] [Fintype P] in
theorem of_willWake (h : (t.proc p).pc.willWake = true) : Attended conflicts t :=
  fun _ _ => .inl ⟨p, h⟩

theorem kept (h : Attended conflicts s)
    (ht : Trans table s p a t) (hp : (s.proc p).pc.willWake = false)
    (hwaiter : t.lock.waiter = s.lock.waiter)
    (hwant : (t.proc p).shared.wantMode = (s.proc p).shared.wantMode)
    (hholds : ∀ n, Holds s p n → Holds t p n) : Attended conflicts t := by
  have hother : ∀ x, (t.proc x).shared.wantMode = (s.proc x).shared.wantMode ∧
      ∀ n, Holds s x n → Holds t x n := by
    intro x
    by_cases hx : x = p
    · subst x
      exact ⟨hwant, hholds⟩
    · rcases ht.proc_of_ne hx with ⟨v, hv⟩ | ⟨-, hv⟩
      · rw [hv]
        refine ⟨rfl, fun n hn => ?_⟩
        rw [Holds, hv]
        exact hn
      · rw [hv]
        refine ⟨rfl, fun n hn => ?_⟩
        rw [Holds, hv]
        exact hn.imp id fun hn => ⟨rfl, hn.2⟩
  intro f hf
  rcases h f (hwaiter ▸ hf) with ⟨r, hr⟩ | hblocked
  · have hrp : r ≠ p := by
      intro hrp
      rw [hrp, hp] at hr
      cases hr
    exact .inl ⟨r, by rwa [ht.pc_of_ne hrp]⟩
  · exact .inr (hblocked.mono (fun x => (hother x).2) (hother f).1)

omit [Fintype P] in
theorem holds_acquired (hs : Basic table s) (c : LockCounts)
    (hacq : (s.proc p).pc.acquiring = some mode)
    (hwoken : (s.proc p).woken = true → (s.proc p).shared.wantMode = mode)
    (hn : Holds s p n) : Holds (acquired (s.setCounts c) p mode) p n := by
  left
  rw [acquired, modify_proc_self, setCounts_proc]
  rw [(hs.proc p).active_add ((hs.proc p).acquiring mode hacq)]
  rcases hn with hn | ⟨hw, rfl⟩
  · omega
  · rw [if_pos (hwoken hw)]
    omega

omit [Fintype P] in
theorem leaveWake_fields (caller : Caller) (x : P) :
    ((leaveWake s p caller).proc x).shared = (s.proc x).shared ∧
      ((leaveWake s p caller).proc x).holding = (s.proc x).holding ∧
      ((leaveWake s p caller).proc x).woken = (s.proc x).woken := by
  by_cases hx : x = p
  · subst x
    cases caller <;> simp [leaveWake]
  · cases caller
    · rw [leaveWake, setPc_proc_of_ne _ hx]
      exact ⟨rfl, rfl, rfl⟩
    · rw [leaveWake, modify_proc_of_ne _ hx]
      exact ⟨rfl, rfl, rfl⟩

theorem leave (hlen : conflicts.length ≤ 8)
    (hs : Basic (lcInitConflictTable conflicts) s) (hfair : FairState s) (hc : CountsAre s w)
    (hcard : Fintype.card P < 2 ^ 15)
    (hl : Leave (lcInitConflictTable conflicts) s (s.proc p).pc caller) :
    Attended conflicts (leaveWake s p caller) := by
  have ht : Trans (lcInitConflictTable conflicts) s p .run (leaveWake s p caller) := .leave hl
  have hlock : (leaveWake s p caller).lock.waiter = s.lock.waiter := by
    cases caller <;> rfl
  intro f hf
  rw [hlock] at hf
  generalize hpc : (s.proc p).pc = pc at hl
  cases hl with
  | @queueEnd _ prev hcell =>
    have hprev := hfair.head p prev (by rw [hpc]; rfl)
    rw [hprev] at hcell
    exact absurd (hcell.symm.trans hf) (by simp)
  | @blocked _ prev q hbusy _ =>
    obtain ⟨L, hL⟩ := hs.queue
    have hpos := hL.position p
    rw [hpc] at hpos
    obtain ⟨L₁, L₂, rfl, hprev⟩ := hpos
    have hnil : L₁ = [] := by
      refine lastCell_eq_head ?_
      rw [← hprev]
      exact hfair.head p prev (by rw [hpc]; rfl)
    subst L₁
    obtain rfl : q = f := Option.some.inj (hL.chain.1.symm.trans hf)
    obtain ⟨m, hm⟩ := hs.listed_queued hL (p := p) (by rw [hpc]; rfl) (by rw [hpc]; rfl)
      (q := q) (by simp)
    rcases blocked_of_busy hlen hs hc hcard hm hbusy with hblocked | ⟨x, n, -, htr⟩
    · refine .inr (hblocked.mono ?_ (by rw [(leaveWake_fields caller q).1]))
      intro x n hx
      obtain ⟨hshared, hholding, hwoken⟩ := leaveWake_fields (s := s) (p := p) caller x
      rw [Holds, hshared, hholding, hwoken]
      exact hx
    · left
      have hxp : x ≠ p := by
        intro hxp
        rw [hxp, hpc] at htr
        cases htr
      refine ⟨x, ?_⟩
      rw [ht.pc_of_ne hxp]
      exact Pc.willWake_of_transient htr

omit [DecidableEq P] [Fintype P] in
theorem first_queued (hs : Basic table s) (hf : s.lock.waiter = some f) :
    Queued s f (s.proc f).shared.wantMode ∨ ∃ r, (s.proc r).pc.willWake = true := by
  obtain ⟨L, hL⟩ := hs.queue
  cases L with
  | nil => exact absurd (hL.chain.symm.trans hf) (by simp)
  | cons x xs =>
    obtain rfl : x = f := Option.some.inj (hL.chain.1.symm.trans hf)
    rcases hL.listed x (by simp) with ⟨m, hm⟩ | ⟨r, hr⟩
    · rw [((hs.proc x).want m hm.1).1]
      exact .inl hm
    · refine .inr ⟨r, ?_⟩
      cases hpc : (s.proc r).pc <;> rw [hpc] at hr <;> first | rfl | cases hr

omit [Fintype P] in
theorem holds_released (hs : Basic table s)
    (hpc : (s.proc p).pc = .relSet mode pre) (hx : Holds s x n)
    (hne : ¬ (x = p ∧ n = mode)) : Holds (released table s p mode post) x n := by
  by_cases hxp : x = p
  · subst x
    have hsub := (hs.proc p).active_subtract ((hs.proc p).releasing mode (by rw [hpc]; rfl)) n
    have hwoken := hs.woken_false (p := p) (by rw [hpc]; rfl)
    rw [if_neg (fun hn => hne ⟨rfl, hn⟩)] at hsub
    left
    rw [(released_proc_self table s p mode post).1, ← Nat.add_zero (lcGetActive _ _), ← hsub]
    exact hx.resolve_right (by simp [hwoken])
  · rw [Holds, released, modify_proc_of_ne _ hxp]
    exact hx

theorem release (hsym : Symmetric conflicts) (h : Attended conflicts s)
    (hs : Basic (lcInitConflictTable conflicts) s)
    (ht : Basic (lcInitConflictTable conflicts) (released (lcInitConflictTable conflicts) s p mode
      (lcSubtract s.lock.c (lcActive mode)))) (hc : CountsAre s (waitBits s))
    (hcard : Fintype.card P < 2 ^ 15) (hpc : (s.proc p).pc = .relSet mode s.lock.c) :
    Attended conflicts (released (lcInitConflictTable conflicts) s p mode
      (lcSubtract s.lock.c (lcActive mode))) := by
  have htrans : Trans (lcInitConflictTable conflicts) s p .run
      (released (lcInitConflictTable conflicts) s p mode (lcSubtract s.lock.c (lcActive mode))) :=
    .release hpc
  have hpost := hc.subtract (total_released hs (lcSubtract s.lock.c (lcActive mode)) hpc)
  have hrange := ht.inRange hcard
  have hself := modify_proc_self (s.setCounts (lcSubtract s.lock.c (lcActive mode))) p
  by_cases hzero : lcZero (lcAnd (lcSubtract s.lock.c (lcActive mode))
      (lcConflictMask (lcInitConflictTable conflicts) mode false true)) = true
  · have hbits := hzero
    rw [hpost, lcAnd_conflictMask conflicts hsym.length_le _ _ hrange] at hbits
    intro f hf
    have hresponsible : (∃ r, (s.proc r).pc.willWake = true) → ∃ r,
        ((released (lcInitConflictTable conflicts) s p mode
          (lcSubtract s.lock.c (lcActive mode))).proc r).pc.willWake = true := by
      intro hex
      obtain ⟨r, hr⟩ := hex
      have hrp : r ≠ p := by
        intro hrp
        rw [hrp, hpc] at hr
        cases hr
      exact ⟨r, by rwa [htrans.pc_of_ne hrp]⟩
    rcases h f hf with hex | ⟨x, hx, n, hholds, hconf⟩
    · exact .inl (hresponsible hex)
    · rcases first_queued hs hf with hqueued | hex
      · have hne : ¬ (x = p ∧ n = mode) := by
          intro hxn
          have hbit := (hbits _ (hsym.symm _ _ (hxn.2 ▸ hconf))).2 rfl
          exact of_decide_eq_false hbit ⟨f, .of_queued hqueued⟩
        refine .inr ⟨x, hx, n, holds_released hs hpc hholds hne, ?_⟩
        by_cases hfp : f = p
        · subst f
          rw [(released_proc_self _ s p mode _).2.2.1]
          exact hconf
        · rw [released, modify_proc_of_ne _ hfp]
          exact hconf
      · exact .inl (hresponsible hex)
  · refine of_willWake (p := p) ?_
    rw [released, hself]
    simp [hzero, Pc.willWake]

theorem trans (hsym : Symmetric conflicts) (h : Attended conflicts s)
    (hs : Basic (lcInitConflictTable conflicts) s)
    (htb : Basic (lcInitConflictTable conflicts) t) (hfair : FairState s)
    (hc : CountsAre s (waitBits s)) (hcard : Fintype.card P < 2 ^ 15)
    (ht : Trans (lcInitConflictTable conflicts) s p a t) : Attended conflicts t := by
  have hkept := h.kept ht
  have hcalm := hfair.calm p
  cases ht with
  | @move _ pc hm =>
    cases hw : pc.willWake with
    | true => exact of_willWake (p := p) (by rw [setPc_proc_self]; exact hw)
    | false =>
      refine hkept (by rw [← hm.willWake, hw]) rfl (by rw [setPc_proc_self]) ?_
      intro n hn
      rw [Holds, setPc_proc_self]
      exact hn
  | fail hpc _ =>
    refine hkept (by rw [hpc]; rfl) rfl (by simp [returnFalse]) ?_
    intro n hn
    rw [Holds, returnFalse, modify_proc_self]
    exact hn
  | enter _ he =>
    refine of_willWake (p := p) ?_
    rw [setPc_proc_self]
    generalize (s.proc p).pc = old at he hcalm
    cases he with
    | cancel mode => cases hcalm
    | _ => rfl
  | leave hl => exact leave hsym.length_le hs hfair hc hcard hl
  | fastTry hpc | fast hpc _ =>
    have hwoken := hs.woken_false (p := p) (by rw [hpc]; rfl)
    exact hkept (by rw [hpc]; rfl) rfl (by simp [acquired]) fun n hn =>
      holds_acquired hs _ (by rw [hpc]; rfl) (by simp [hwoken]) hn
  | raise _ _ | undo _ | grant _ | unlink _ =>
    exact of_willWake (p := p) (by rw [setPc_proc_self]; rfl)
  | @enqueue mode hpc =>
    obtain ⟨v, hv⟩ := enqueue_proc_self s p mode
    exact of_willWake (p := p) (by rw [hv]; rfl)
  | @resume mode hpc hwoken =>
    have hwant := ((hs.proc p).want mode (by rw [hpc]; rfl)).1
    exact hkept (by rw [hpc]; rfl) rfl (by simp [acquired]) fun n hn =>
      holds_acquired hs s.lock.c (by rw [hpc]; rfl) (fun _ => hwant) hn
  | release hpc => exact release hsym h hs htb hc hcard hpc
  | cancelGranted hpc _ | cancelQueued hpc _ _ _ =>
    rw [hpc] at hcalm
    cases hcalm

end Attended

theorem attended_of_reachable (hsym : Symmetric conflicts) (hcard : Fintype.card P < 2 ^ 15)
    (h : Transition.Reachable (system (lcInitConflictTable conflicts)) FairStep s) :
    Attended conflicts s := by
  refine h.invariant ?_ ?_
  · intro s hs f hf
    rw [Initial.lock hs] at hf
    cases hf
  · intro s a t hreach hI hok hstep
    have hinv := fairInvariant_of_reachable hreach
    have ht := (fairInvariant_of_reachable (hreach.step hok hstep)).basic
    exact hI.trans hsym hinv.basic ht hinv.fairState (fair_waitBits hcard hreach) hcard
      (trans_of_step hstep)

/-- No wake-up is lost: when every process is idle or asleep and a process is
queued, the mode the first waiter wants conflicts with a mode another process holds. -/
theorem no_lost_wakeup (hsym : Symmetric conflicts) (hcard : Fintype.card P < 2 ^ 15)
    (h : Transition.Reachable (system (lcInitConflictTable conflicts)) FairStep s)
    (hquiet : ∀ p, (s.proc p).pc = .idle ∨ ∃ m, (s.proc p).pc = .sleep m) {f : P}
    (hf : s.lock.waiter = some f) :
    ∃ x, x ≠ f ∧ ∃ n, Holds s x n ∧ Conflicts conflicts (s.proc f).shared.wantMode n := by
  rcases attended_of_reachable hsym hcard h f hf with ⟨r, hr⟩ | hblocked
  · rcases hquiet r with hpc | ⟨m, hpc⟩ <;> rw [hpc] at hr <;> cases hr
  · exact hblocked

/-- Process 1 sleeps behind process 0, which holds a mode that conflicts with itself. -/
theorem no_lost_wakeup_one_waiter : ∃ s : State (Fin 2), s.lock.waiter = some 1 ∧
    ∃ x, x ≠ 1 ∧ ∃ n, Holds s x n ∧ Conflicts [1#32] (s.proc 1).shared.wantMode n := by
  obtain ⟨s, hreach, hquiet, hwaiter⟩ := Transition.exists_reachable
    (system (lcInitConflictTable [1#32])) FairStep
    (fun s => (∀ p, (s.proc p).pc = .idle ∨ ∃ m, (s.proc p).pc = .sleep m) ∧ s.lock.waiter = some 1)
    ([((0 : Fin 2), .acquire 0 false), (0, .run), (0, .run), (1, .acquire 0 false)] ++
      List.replicate 8 (1, .run))
    fresh_initial (by decide +kernel)
  exact ⟨s, hwaiter, no_lost_wakeup (by decide) (by decide) hreach hquiet hwaiter⟩

theorem Jam.release_phantom (h : Jam s e a [] []) (hpost : lcSubtract s.lock.c (lcActive 1) = post)
    (hbits : lcZero (lcAnd post
      (lcConflictMask (lcInitConflictTable [2#32, 1#32]) 1 false true)) = false)
    (hblocked : lcZero (lcAnd post
      (lcConflictMask (lcInitConflictTable [2#32, 1#32]) 0 true false)) = false) :
    ∃ t, Transition.Reachable (system (lcInitConflictTable [2#32, 1#32])) FairStep t ∧
      (∀ x, (t.proc x).pc = .idle ∨ ∃ m, (t.proc x).pc = .sleep m) ∧
      t.lock.waiter = some a ∧ ∀ x n, ¬ Holds t x n := by
  obtain ⟨hpc, hholding, hwoken⟩ := h.holder
  have hactive : lcGetActive (lcActive 1) 1 ≠ 0 := by decide
  have hempty : lcSubtract (lcActive 1) (lcActive 1) = 0#128 := by decide
  have hnone : ∀ n, lcGetActive (0#128) n = 0 := by simp [lcGetActive]
  have hcall : step (lcInitConflictTable [2#32, 1#32]) s (e, .release 1) =
      some (s.setPc e (.relGet 1)) := by
    simp [step, hpc, hholding, hactive]
  have hget : step (lcInitConflictTable [2#32, 1#32]) (s.setPc e (.relGet 1)) (e, .run) =
      some (s.setPc e (.relSet 1 s.lock.c)) := by
    simp [step, run, setPc_setPc]
  have hset : step (lcInitConflictTable [2#32, 1#32]) (s.setPc e (.relSet 1 s.lock.c))
      (e, .run) = some (released (lcInitConflictTable [2#32, 1#32])
        (s.setPc e (.relSet 1 s.lock.c)) e 1 post) := by
    simp [step, run, hpost]
  have hreach := ((h.reach.step (fairStep_release s e 1) hcall).step (fairStep_run _ e) hget).step
    (fairStep_run _ e) hset
  generalize hu : released (lcInitConflictTable [2#32, 1#32])
    (s.setPc e (.relSet 1 s.lock.c)) e 1 post = u at hreach
  have hother : ∀ x, x ≠ e → u.proc x = s.proc x := by
    intro x hx
    rw [← hu, released, modify_proc_of_ne _ hx, setCounts_proc, setPc_proc_of_ne _ hx]
  have hself : (u.proc e).pc = .relMutex 1 ∧ (u.proc e).holding = 0#128 ∧
      (u.proc e).woken = false := by
    rw [← hu, released, modify_proc_self, setCounts_proc, setPc_proc_self]
    simp [hbits, hholding, hempty, hwoken]
  have hlock : u.lock.c = post ∧ u.lock.queueLock = none ∧ u.lock.waiter = some a := by
    rw [← hu]
    exact ⟨rfl, h.queueLock, h.front.waiter⟩
  have hmutex : step (lcInitConflictTable [2#32, 1#32]) u (e, .run) =
      some ((u.setQueueLock (some e)).setPc e (.wake .release .head)) := by
    simp [step, run, hself.1, lockQueue, hlock.2.1]
  have hae : a ≠ e := by
    have hnodup := h.nodup
    intro hae
    simp [hae] at hnodup
  have hfirst : (((u.setQueueLock (some e)).setPc e (.wake .release .head)).proc a).shared =
      (s.proc a).shared := by
    rw [setPc_proc_of_ne _ hae, setQueueLock_proc, hother a hae]
  have hleave := reach_leave (hreach.step (fairStep_run _ e) hmutex) (p := e) (f := a)
    (by rw [setPc_proc_self]) hlock.2.2
    (by
      rw [hfirst, wakeFree, h.front.wantMode, h.front.waitHolding, setPc_lock,
        setQueueLock_c, hlock.1, lcSubtract, BitVec.sub_zero]
      exact hblocked)
    (by rw [hfirst]; exact h.front.isUpgrade)
  generalize ht : leaveWake (((u.setQueueLock (some e)).setPc e (.wake .release .head)).setPc e
    (.wakeGet .release .head a)) e .release = t at hleave
  have hrest : ∀ x, x ≠ e → t.proc x = s.proc x := by
    intro x hx
    rw [← ht, leaveWake, modify_proc_of_ne _ hx, setQueueLock_proc,
      setPc_proc_of_ne _ hx, setPc_proc_of_ne _ hx, setQueueLock_proc,
      hother x hx]
  have hdone : (t.proc e).pc = .idle ∧ (t.proc e).holding = 0#128 ∧ (t.proc e).woken = false := by
    rw [← ht, leaveWake, modify_proc_self]
    simp [hself.2]
  refine ⟨t, hleave, ?_, by rw [← ht]; exact hlock.2.2, ?_⟩
  · intro x
    by_cases hx : x = e
    · rw [hx]
      exact .inl hdone.1
    · rw [hrest x hx]
      rcases h.rest x with hx' | hx' | hx' | hx'
      · exact absurd hx' hx
      · cases hx'
      · cases hx'
      · exact .inr ⟨0, hx'⟩
  · intro x n
    by_cases hx : x = e
    · rw [hx, Holds, hdone.2.1, hdone.2.2]
      simp [hnone]
    · rw [Holds, hrest x hx, (h.plain x hx).1, (h.plain x hx).2]
      simp [hnone]

/-- One request more than a lane can count: when all have gone to sleep, mode 1
is counted once more than it is held. -/
theorem Jam.overflow (h : Jam s e a [x] raised)
    (hlen : raised.length = 2 ^ 15) (hc : s.lock.c = crowdCounts (2 ^ 15) 1) :
    ∃ t, Jam t e a [] [] ∧ t.lock.c = crowdCounts 0 2 := by
  have hfull : lcZero (lcAnd (crowdCounts (2 ^ 15) 1)
      (lcConflictMask (lcInitConflictTable [2#32, 1#32]) 0 true true)) = false := by
    decide +kernel
  have hcarry : undoCounts 0 (crowdCounts (2 ^ 15 + 1) 1) = crowdCounts 0 2 := by decide +kernel
  have hborrow : undoCounts 0 (crowdCounts 0 2) = crowdCounts (2 ^ 15 - 1) 2 := by decide +kernel
  obtain ⟨s, hs, hsc⟩ := h.raise (by rw [hc]; exact hfull)
  rw [hc, crowd_raise] at hsc
  obtain ⟨s, hs, hsc'⟩ := hs.sleep (by
    rw [hsc, hcarry]
    exact crowd_busy (by omega) (by omega) (by omega) _)
  rw [hsc, hcarry] at hsc'
  cases raised with
  | nil => simp at hlen
  | cons y raised =>
    rw [List.length_cons] at hlen
    obtain ⟨s, hs, hsc''⟩ := hs.sleep (by
      rw [hsc', hborrow]
      exact crowd_busy (by omega) (by omega) (by omega) _)
    rw [hsc', hborrow] at hsc''
    have hraised : raised.length = 2 ^ 15 - 1 := by omega
    exact hs.sleep_all (by omega) (by omega) (by rw [hraised]; exact hsc'') (by omega)

/-- With 2^15 + 3 processes a wake-up is lost. The crowd carries the count of
mode 0 into that of mode 1, the wait bit set after that is not the one that was
carried away, and a count for mode 1 without a holder remains. -/
theorem wakeup_lost_in_crowd : Symmetric [2#32, 1#32] ∧ ∃ s : State Crowd,
    Transition.Reachable (system (lcInitConflictTable [2#32, 1#32])) FairStep s ∧
    (∀ x, (s.proc x).pc = .idle ∨ ∃ m, (s.proc x).pc = .sleep m) ∧
    s.lock.waiter = some (.inl true) ∧ ∀ x n, ¬ Holds s x n := by
  refine ⟨by decide, ?_⟩
  have hlen : crowd.length = 2 ^ 15 := by simp [crowd]
  have hbits : lcZero (lcAnd (lcSubtract (crowdCounts 0 2) (lcActive 1)) (lcConflictMask
      (lcInitConflictTable [2#32, 1#32]) 1 false true)) = false := by decide +kernel
  have hblocked : lcZero (lcAnd (lcSubtract (crowdCounts 0 2) (lcActive 1)) (lcConflictMask
      (lcInitConflictTable [2#32, 1#32]) 0 true false)) = false := by decide +kernel
  obtain ⟨s, hs, hc⟩ := crowd_start
  obtain ⟨s, hs, hc⟩ := hs.raise_all crowd hc (by omega)
  obtain ⟨s, hs, hc⟩ := hs.overflow (by simp [hlen]) (by rw [hc, hlen, Nat.zero_add])
  exact hs.release_phantom (congrArg (fun c => lcSubtract c (lcActive 1)) hc) hbits hblocked

end Mosbench.Gsl
