import Mosbench.Lib.Tally
import Mosbench.Gsl.Queue

/-!
Mutual exclusion. The active count of a mode is the number of processes that
hold it, have been granted it, or raised it in a fast path that failed. Below
2^15 processes the packed counts never leave their lanes, so the conflict test
before a grant sees every other holder.
-/
namespace Mosbench.Gsl

open State Links Function

def contribution (me : Proc P) (m : Mode) : ℕ :=
  lcGetActive me.holding m + (if me.woken = true ∧ me.shared.wantMode = m then 1 else 0) +
    if me.pc.transient = some m then 1 else 0

@[simp] theorem contribution_relink (me : Proc P) (v : Option P) :
    contribution (me.relink v) = contribution me := rfl

theorem contribution_congr (hholding : me'.holding = me.holding)
    (hwoken : me'.woken = me.woken) (hwant : me'.shared.wantMode = me.shared.wantMode)
    (htransient : me'.pc.transient = me.pc.transient) : contribution me' = contribution me := by
  unfold contribution
  rw [hholding, hwoken, hwant, htransient]

theorem Pc.acquiring_of_transient {pc : Pc P} (h : pc.transient = some m) :
    pc.acquiring = some m := by
  cases pc <;> simp_all [Pc.acquiring, Pc.transient]

theorem Pc.queued_of_transient {pc : Pc P} (h : pc.transient = some m) : pc.queued = none := by
  cases pc <;> simp_all [Pc.queued, Pc.transient]

theorem ProcOk.active_le_one (h : ProcOk table me) (m : Mode) : lcGetActive me.holding m ≤ 1 := by
  obtain ⟨held, hheld⟩ := h.held
  rw [hheld, lcGetActive_heldWord]
  exact Bool.toNat_le _

theorem ProcOk.contribution_le_one (h : ProcOk table me) (m : Mode) : contribution me m ≤ 1 := by
  have hactive := h.active_le_one m
  unfold contribution
  by_cases htr : me.pc.transient = some m
  · have hzero := h.acquiring m (Pc.acquiring_of_transient htr)
    have hwoken : me.woken ≠ true := by
      intro hw
      have hq := h.woken hw
      rw [Pc.queued_of_transient htr] at hq
      cases hq
    simp [htr, hzero, hwoken]
  · by_cases hw : me.woken = true ∧ me.shared.wantMode = m
    · have hzero := h.acquiring m (Pc.acquiring_of_queued (hw.2 ▸ h.woken hw.1))
      simp [htr, hzero, hw]
    · simp [htr, hw, hactive]

variable {s : State P}

theorem Holds.contribution_pos (h : Holds s p m) : 1 ≤ contribution (s.proc p) m := by
  unfold contribution
  rcases h with h | h
  · omega
  · rw [if_pos h]
    omega

theorem holds_or_transient (h : contribution (s.proc p) m ≠ 0) :
    Holds s p m ∨ (s.proc p).pc.transient = some m := by
  unfold contribution at h
  by_cases hactive : lcGetActive (s.proc p).holding m = 0
  · by_cases hgranted : (s.proc p).woken = true ∧ (s.proc p).shared.wantMode = m
    · exact .inl (.inr hgranted)
    · by_cases htr : (s.proc p).pc.transient = some m
      · exact .inr htr
      · simp [hactive, hgranted, htr] at h
  · exact .inl (.inl hactive)

theorem ProcOk.active_add (h : ProcOk table me) (hm : lcGetActive me.holding m = 0) (k : Mode) :
    lcGetActive (lcAdd me.holding (lcActive m)) k =
      lcGetActive me.holding k + if k = m then 1 else 0 := by
  obtain ⟨held, hheld⟩ := h.held
  rw [hheld, lcGetActive_heldWord] at hm
  rw [hheld, lcAdd_heldWord held m (by simpa using hm), lcGetActive_heldWord, lcGetActive_heldWord]
  by_cases hk : k = m
  · simp [hk, hm]
  · simp [hk]

theorem ProcOk.active_subtract (h : ProcOk table me)
    (hm : lcGetActive me.holding m ≠ 0) (k : Mode) :
    lcGetActive me.holding k =
      lcGetActive (lcSubtract me.holding (lcActive m)) k + if k = m then 1 else 0 := by
  obtain ⟨held, hheld⟩ := h.held
  rw [hheld, lcGetActive_heldWord] at hm
  rw [hheld, lcSubtract_heldWord held m (by simpa using hm), lcGetActive_heldWord,
    lcGetActive_heldWord]
  by_cases hk : k = m
  · subst k
    simpa using hm
  · simp [hk]

variable [Fintype P]

def total (s : State P) (m : Mode) : ℕ := ∑ q, contribution (s.proc q) m

theorem Basic.inRange (h : Basic table s)
    (hcard : Fintype.card P < 2 ^ 15) : InRange (total s) := by
  intro m
  exact Nat.lt_of_le_of_lt (Tally.sum_le_card fun q => (h.proc q).contribution_le_one m) hcard

def CountsAre (s : State P) (w : Mode → Bool) : Prop := s.lock.c = counts (total s) w

namespace CountsAre

variable {t : State P}

section

variable (h : CountsAre s w)

include h

theorem keep (hc : t.lock.c = s.lock.c) (htotal : total t = total s) :
    CountsAre t w := by
  rw [CountsAre, hc, htotal]
  exact h

theorem add (hc : t.lock.c = lcAdd s.lock.c (lcActive m))
    (htotal : total t = update (total s) m (total s m + 1)) : CountsAre t w := by
  rw [CountsAre, hc, h, lcAdd_active, htotal]

theorem subtract (htotal : total s = update (total t) m (total t m + 1)) :
    lcSubtract s.lock.c (lcActive m) = counts (total t) w := by
  have hone : total s m = total t m + 1 := by rw [htotal, update_self]
  rw [h, lcSubtract_active _ _ _ (by omega), hone, htotal]
  simp

theorem publish (hrange : InRange (total t))
    (hc : t.lock.c = undoCounts m s.lock.c)
    (htotal : total s = update (total t) m (total t m + 1)) :
    CountsAre t (update w m true) := by
  rw [CountsAre, hc, undoCounts, h.subtract htotal, lcOr_setWait _ _ hrange]

theorem granted (hrange : InRange (total t))
    (hc : t.lock.c = grantCounts s.lock.waitCounts m s.lock.c)
    (htotal : total t = update (total s) m (total s m + 1)) :
    CountsAre t (if s.lock.waitCounts m = 1 then update w m false else w) := by
  have hadd : lcAdd s.lock.c (lcActive m) = counts (total t) w := by
    rw [htotal, h, lcAdd_active]
  rw [CountsAre, hc, grantCounts, hadd]
  split
  · rw [lcAnd_clearWait _ _ hrange]
  · rw [lcAnd_maskSet]

end

end CountsAre

variable [DecidableEq P]

theorem total_congr (hother : ∀ q, q ≠ p → contribution (t.proc q) = contribution (s.proc q))
    (hself : contribution (t.proc p) = contribution (s.proc p)) : total t = total s := by
  funext m
  refine Finset.sum_congr rfl ?_
  intro q _
  by_cases hq : q = p
  · rw [hq, hself]
  · rw [hother q hq]

theorem total_raise (hother : ∀ q, q ≠ p → contribution (t.proc q) = contribution (s.proc q))
    (hself : ∀ k, contribution (t.proc p) k = contribution (s.proc p) k + if k = m then 1 else 0) :
    total t = update (total s) m (total s m + 1) := by
  funext k
  have hsum := Tally.sum_add_of_agree (p := p) (f := fun q => contribution (s.proc q) k)
    (g := fun q => contribution (t.proc q) k) fun q hq => by rw [hother q hq]
  have hk := hself k
  by_cases hkm : k = m
  · subst k
    rw [if_pos rfl] at hk
    rw [update_self]
    unfold total
    omega
  · rw [if_neg hkm] at hk
    rw [update_of_ne hkm]
    unfold total
    omega

section

theorem total_setPc {t : State P} (hproc : t.proc = s.proc)
    (hpc : pc.transient = (s.proc p).pc.transient) : total (t.setPc p pc) = total s := by
  refine total_congr (p := p) ?_ ?_
  · intro q hq
    rw [setPc_proc_of_ne _ hq, hproc]
  · rw [setPc_proc_self, hproc]
    exact contribution_congr rfl rfl rfl hpc

theorem total_raised {t : State P} (hproc : t.proc = s.proc)
    (hold : (s.proc p).pc.transient = none) (hpc : pc.transient = some m) :
    total (t.setPc p pc) = update (total s) m (total s m + 1) := by
  refine total_raise (p := p) ?_ ?_
  · intro q hq
    rw [setPc_proc_of_ne _ hq, hproc]
  · intro k
    rw [setPc_proc_self, hproc]
    simp only [contribution, hold, hpc, Option.some.injEq, reduceCtorEq, if_false]
    simp only [eq_comm, Nat.add_zero]

theorem total_lowered {t : State P} (hproc : t.proc = s.proc)
    (hold : (s.proc p).pc.transient = some m) (hpc : pc.transient = none) :
    total s = update (total (t.setPc p pc)) m (total (t.setPc p pc) m + 1) := by
  refine total_raise (p := p) ?_ ?_
  · intro q hq
    rw [setPc_proc_of_ne _ hq, hproc]
  · intro k
    rw [setPc_proc_self, hproc]
    simp only [contribution, hold, hpc, Option.some.injEq, reduceCtorEq, if_false]
    simp only [eq_comm, Nat.add_zero]

theorem total_recorded (h : Basic table s)
    (hacq : (s.proc p).pc.acquiring = some m) (htr : (s.proc p).pc.transient = none)
    (hfresh : (s.proc p).woken = false)
    (hother : ∀ q, q ≠ p → t.proc q = s.proc q)
    (hholding : (t.proc p).holding = lcAdd (s.proc p).holding (lcActive m))
    (hwoken : (t.proc p).woken = false) (htr' : (t.proc p).pc.transient = none) :
    total t = update (total s) m (total s m + 1) := by
  have hadd := (h.proc p).active_add ((h.proc p).acquiring m hacq)
  refine total_raise (fun q hq => by rw [hother q hq]) ?_
  intro k
  simp only [contribution, hholding, hwoken, htr', htr, hadd, hfresh, Bool.false_eq_true,
    false_and, reduceCtorEq, if_false]
  omega

theorem total_resumed (h : Basic table s)
    (hqueued : (s.proc p).pc.queued = some m) (hgranted : (s.proc p).woken = true)
    (hother : ∀ q, q ≠ p → t.proc q = s.proc q)
    (hholding : (t.proc p).holding = lcAdd (s.proc p).holding (lcActive m))
    (hwoken : (t.proc p).woken = false) (htr' : (t.proc p).pc.transient = none) :
    total t = total s := by
  have hadd := (h.proc p).active_add ((h.proc p).acquiring m (Pc.acquiring_of_queued hqueued))
  have hwant := ((h.proc p).want m hqueued).1
  have htr : (s.proc p).pc.transient = none := by
    cases hpc : (s.proc p).pc.transient with
    | none => rfl
    | some k =>
      rw [Pc.queued_of_transient hpc] at hqueued
      cases hqueued
  refine total_congr (fun q hq => by rw [hother q hq]) ?_
  funext k
  simp only [contribution, hholding, hwoken, htr', htr, hadd, hgranted, hwant, Bool.false_eq_true,
    false_and, true_and, reduceCtorEq, if_false]
  simp only [eq_comm]

theorem total_granted (hwant : (s.proc q).shared.wantMode = m)
    (hq : (s.proc q).woken = false) (pre : LockCounts)
    (hpc : pc.transient = (s.proc p).pc.transient) :
    total ((grant s q pre).setPc p pc) = update (total s) m (total s m + 1) := by
  have htr : ∀ x, (if x = p then pc else (s.proc x).pc).transient = (s.proc x).pc.transient := by
    intro x
    by_cases hx : x = p
    · rw [if_pos hx, hpc, hx]
    · rw [if_neg hx]
  refine total_raise (p := q) ?_ ?_
  · intro x hx
    refine contribution_congr ?_ ?_ ?_ ?_
    · rw [grant_proc]
    · rw [grant_proc]
      exact if_neg hx
    · rw [grant_proc]
    · rw [grant_proc]
      exact htr x
  · intro k
    rw [grant_proc]
    simp only [contribution, htr q, hq, hwant, if_true, true_and, Bool.false_eq_true, false_and,
      if_false, eq_comm (a := m)]
    omega

theorem total_released (h : Basic table s) (post : LockCounts)
    (hpc : (s.proc p).pc = .relSet m pre) :
    total s = update (total (released table s p m post)) m
      (total (released table s p m post) m + 1) := by
  have hsub := (h.proc p).active_subtract ((h.proc p).releasing m (by rw [hpc]; rfl))
  refine total_raise (p := p) (fun q hq => by rw [released, modify_proc_of_ne _ hq]; rfl) ?_
  intro k
  have hk := hsub k
  have hself := released_proc_self table s p m post
  have htr : (s.proc p).pc.transient = none := by rw [hpc]; rfl
  simp only [contribution, hself.1, hself.2.1, hself.2.2.1, hself.2.2.2, htr, reduceCtorEq, if_false]
  omega

end

theorem CountsAre.record (h : CountsAre s w) (hs : Basic table s)
    (hacq : (s.proc p).pc.acquiring = some mode) (htr : (s.proc p).pc.transient = none)
    (hqueued : (s.proc p).pc.queued = none) :
    CountsAre (acquired (s.setCounts (lcAdd s.lock.c (lcActive mode))) p mode) w :=
  h.add rfl (total_recorded hs hacq htr (hs.woken_false hqueued)
    (fun q hq => modify_proc_of_ne _ hq _) (by simp [acquired]) (by simp [acquired])
    (by simp [acquired, Pc.transient]))

theorem CountsAre.trans
    (h : CountsAre s w) (hs : Basic table s) (ht : Basic table t)
    (hcard : Fintype.card P < 2 ^ 15) (htrans : Trans table s p a t)
    (hok : CancelsOk s (p, a)) : CountsAre t (nextWait s p w) := by
  have hrange := ht.inRange hcard
  cases htrans with
  | move hm =>
    have hw : nextWait s p w = w := by
      cases hm <;> simp_all [nextWait]
    rw [hw]
    exact h.keep rfl (total_setPc rfl hm.transient)
  | fail hpc _ =>
    rw [nextWait, hpc]
    refine h.keep rfl (total_congr (p := p) (fun q hq => ?_) ?_)
    · rw [returnFalse, modify_proc_of_ne _ hq]
    · rw [returnFalse, modify_proc_self]
      exact contribution_congr rfl rfl rfl (by rw [hpc]; rfl)
  | enter hfree he =>
    have hw : nextWait s p w = w := by
      unfold nextWait
      generalize (s.proc p).pc = old at he
      cases he <;> rfl
    rw [hw]
    refine h.keep rfl (total_setPc rfl ?_)
    generalize (s.proc p).pc = old at he
    cases he <;> rfl
  | @leave caller hl =>
    have hw : nextWait s p w = w := by
      unfold nextWait
      generalize (s.proc p).pc = old at hl
      cases hl <;> rfl
    have htr : (s.proc p).pc.transient = none := by
      generalize (s.proc p).pc = old at hl
      cases hl <;> rfl
    rw [hw]
    cases caller with
    | acquire mode => exact h.keep rfl (total_setPc rfl htr.symm)
    | release =>
      refine h.keep rfl (total_congr (p := p) (fun q hq => ?_) ?_)
      · rw [leaveWake, modify_proc_of_ne _ hq]
        rfl
      · rw [leaveWake, modify_proc_self]
        exact contribution_congr rfl rfl rfl htr.symm
  | fastTry hpc | fast hpc _ =>
    rw [nextWait, hpc]
    exact h.record hs (by rw [hpc]; rfl) (by rw [hpc]; rfl) (by rw [hpc]; rfl)
  | raise hpc _ =>
    rw [nextWait, hpc]
    exact h.add rfl (total_raised rfl (by rw [hpc]; rfl) rfl)
  | @undo mode hpc =>
    rw [show nextWait s p w = update w mode true by simp [nextWait, hpc]]
    exact h.publish hrange rfl (total_lowered rfl (by rw [hpc]; rfl) rfl)
  | @enqueue mode hpc =>
    rw [nextWait, hpc]
    obtain ⟨v, hself⟩ := enqueue_proc_self s p mode
    refine h.keep (enqueue_c s p mode) (total_congr (p := p) (fun q hq => ?_) ?_)
    · obtain ⟨v, hv⟩ := enqueue_proc_of_ne s mode hq
      rw [hv, contribution_relink]
    · have hwoken := hs.woken_false (p := p) (by rw [hpc]; rfl)
      rw [hself]
      funext k
      simp [contribution, hwoken, hpc, Pc.transient]
  | @grant caller prev q hpc =>
    have hq := hs.queued_target hpc
    have htr : (Pc.wakeUnlink caller prev q).transient = (s.proc p).pc.transient := by
      rw [hpc]
      rfl
    have hw : nextWait s p w = if s.lock.waitCounts (s.proc q).shared.wantMode = 1 then
        update w (s.proc q).shared.wantMode false else w := by
      simp [nextWait, hpc]
    rw [hw]
    exact h.granted hrange rfl (total_granted rfl hq.2 s.lock.c htr)
  | @unlink caller prev q hpc =>
    rw [nextWait, hpc]
    refine h.keep (by simp) (total_congr (p := p) (fun x hx => ?_) ?_)
    · rw [setPc_proc_of_ne _ hx, unlink_proc, contribution_relink]
    · rw [setPc_proc_self, unlink_proc]
      exact contribution_congr rfl rfl rfl (by rw [hpc]; rfl)
  | resume hpc hwoken =>
    rw [nextWait, hpc]
    exact h.keep rfl (total_resumed hs (by rw [hpc]; rfl) hwoken
      (fun q hq => modify_proc_of_ne _ hq _) (by simp [acquired]) (by simp [acquired])
      (by simp [acquired, Pc.transient]))
  | @release mode hpc =>
    rw [nextWait, hpc]
    exact h.subtract (total_released hs _ hpc)
  | @cancelGranted mode hpc hnull =>
    rw [nextWait, hpc]
    have hwant := ((hs.proc p).want mode (by rw [hpc]; rfl)).1
    exact h.keep rfl (total_resumed (m := mode) hs (by rw [hpc]; rfl) (hok _ hpc hnull)
      (fun q hq => modify_proc_of_ne _ hq _) (by simp [cancelGranted, hwant])
      (by simp [cancelGranted]) (by simp [cancelGranted, Pc.transient]))
  | @cancelQueued mode prev hpc _ hfind _ =>
    rw [nextWait, hpc]
    refine h.keep (by simp [cancelQueued]) (total_congr (p := p) (fun x hx => ?_) ?_)
    · rw [cancelQueued, modify_proc_of_ne _ hx, setQueueLock_proc, unlink_proc, contribution_relink]
    · rw [cancelQueued, modify_proc_self, setQueueLock_proc, unlink_proc]
      exact contribution_congr rfl rfl rfl (by rw [hpc]; rfl)

omit [DecidableEq P] in
/-- A conflict test for `m` on the counts without `p`'s own holding succeeds
when every active count of a conflicting mode is `p`'s own, and, if the test
includes waiters, no conflicting mode has its wait bit set. -/
theorem mask_free_iff (hlen : conflicts.length ≤ 8) (h : CountsAre s w)
    (hs : Basic table s) (hcard : Fintype.card P < 2 ^ 15) (m : Mode) (waiting : Bool) :
    lcZero (lcAnd (lcSubtract s.lock.c (s.proc p).holding)
        (lcConflictMask (lcInitConflictTable conflicts) m true waiting)) = true ↔
      ∀ n, Conflicts conflicts m n →
        total s n = lcGetActive (s.proc p).holding n ∧ (waiting = true → w n = false) := by
  obtain ⟨held, hheld⟩ := (hs.proc p).held
  have hle : ∀ n, (held n).toNat ≤ total s n := by
    intro n
    have hself : (held n).toNat ≤ contribution (s.proc p) n := by
      rw [contribution, hheld, lcGetActive_heldWord]
      omega
    exact hself.trans (Tally.le_sum (fun q => contribution (s.proc q) n) p)
  have hrange : InRange fun n => total s n - (held n).toNat := by
    intro n
    exact Nat.lt_of_le_of_lt (Nat.sub_le _ _) (hs.inRange hcard n)
  rw [h, hheld, heldWord, lcSubtract_counts _ _ _ hle, lcAnd_conflictMask conflicts hlen _ _ hrange]
  refine forall_congr' fun n => imp_congr_right fun _ => and_congr_left fun _ => ?_
  rw [← heldWord, lcGetActive_heldWord]
  have hn := hle n
  simp only [true_imp_iff]
  omega

theorem contribution_eq_zero (h : total s n = lcGetActive (s.proc p).holding n) (hq : q ≠ p) :
    contribution (s.proc q) n = 0 := by
  refine Tally.eq_zero_of_sum_le (f := fun x => contribution (s.proc x) n) (p := p) ?_ hq
  calc total s n = lcGetActive (s.proc p).holding n := h
    _ ≤ contribution (s.proc p) n := by
      unfold contribution
      omega

inductive Grants (table : ConflictTable) (s : State P) (p : P) : P → Mode → Prop
  | fast {m : Mode} (hpc : (s.proc p).pc = .trySet m s.lock.c ∨ (s.proc p).pc = .acqSet m s.lock.c)
      (hfree : conflictFree table (s.proc p) m s.lock.c = true) : Grants table s p p m
  | wake {caller : Caller} {prev : Cell P} {q : P}
      (hpc : (s.proc p).pc = .wakeSet caller prev q s.lock.c) :
      Grants table s p q (s.proc q).shared.wantMode

omit [Fintype P] [DecidableEq P] in
theorem holds_recorded (hs : Basic table s) (hacq : (s.proc p).pc.acquiring = some mode)
    (hholding : (t.proc p).holding = lcAdd (s.proc p).holding (lcActive mode))
    (hwoken : (t.proc p).woken = false) (hx : Holds t p m) : Holds s p m ∨ m = mode := by
  rw [Holds, hholding, hwoken] at hx
  have hm := hx.resolve_right (by simp)
  rw [(hs.proc p).active_add ((hs.proc p).acquiring mode hacq)] at hm
  by_cases heq : m = mode
  · exact .inr heq
  · rw [if_neg heq] at hm
    exact .inl (.inl (by omega))

theorem Trans.holds (h : Trans table s p a t) (hs : Basic table s) (hok : CancelsOk s (p, a))
    (hx : Holds t x m) : Holds s x m ∨ Grants table s p x m := by
  by_cases hxp : x = p
  · subst x
    cases h with
    | move hm | enter _ _ | raise _ _ | undo _ =>
      rw [Holds, setPc_proc_self] at hx
      exact .inl hx
    | fail _ _ =>
      rw [Holds, returnFalse, modify_proc_self] at hx
      exact .inl hx
    | @leave caller _ =>
      left
      cases caller <;> simpa [Holds, leaveWake] using hx
    | @fastTry mode hpc =>
      rcases holds_recorded hs (by rw [hpc]; rfl) (by simp [acquired]) (by simp [acquired]) hx with hold | rfl
      · exact .inl hold
      · exact .inr (.fast (.inl hpc) ((hs.proc p).trying _ _ hpc))
    | @fast mode hpc hfree =>
      rcases holds_recorded hs (by rw [hpc]; rfl) (by simp [acquired]) (by simp [acquired]) hx with hold | rfl
      · exact .inl hold
      · exact .inr (.fast (.inr hpc) hfree)
    | @enqueue mode hpc =>
      obtain ⟨v, hself⟩ := enqueue_proc_self s p mode
      have hwoken := hs.woken_false (p := p) (by rw [hpc]; rfl)
      rw [Holds, hself] at hx
      exact .inl (.inl (hx.resolve_right (by simp [hwoken])))
    | @grant caller prev q hpc =>
      rw [Holds, grant_proc] at hx
      by_cases hpq : p = q
      · subst q
        rcases hx with hx | hx
        · exact .inl (.inl hx)
        · exact .inr (hx.2 ▸ .wake hpc)
      · rw [if_neg hpq] at hx
        exact .inl hx
    | unlink _ =>
      rw [Holds, setPc_proc_self, unlink_proc] at hx
      exact .inl hx
    | @resume mode hpc hwoken =>
      rcases holds_recorded hs (by rw [hpc]; rfl) (by simp [acquired]) (by simp [acquired]) hx with hold | rfl
      · exact .inl hold
      · exact .inl (.inr ⟨hwoken, ((hs.proc p).want m (by rw [hpc]; rfl)).1⟩)
    | @release mode hpc =>
      have hsub := (hs.proc p).active_subtract ((hs.proc p).releasing mode (by rw [hpc]; rfl)) m
      have hwoken := hs.woken_false (p := p) (by rw [hpc]; rfl)
      obtain ⟨hholding, hw, -, -⟩ := released_proc_self table s p mode
        (lcSubtract s.lock.c (lcActive mode))
      rw [Holds, hholding, hw, hwoken] at hx
      have hleft := hx.resolve_right (by simp)
      exact .inl (.inl (by omega))
    | @cancelGranted mode hpc hnull =>
      have hwant := ((hs.proc p).want mode (by rw [hpc]; rfl)).1
      rcases holds_recorded hs (by rw [hpc]; rfl) (by simp [Gsl.cancelGranted, hwant])
        (by simp [Gsl.cancelGranted]) hx with hold | rfl
      · exact .inl hold
      · exact .inl (.inr ⟨hok m hpc hnull, hwant⟩)
    | @cancelQueued mode prev hpc _ _ _ =>
      rw [Holds, Gsl.cancelQueued, modify_proc_self, setQueueLock_proc, unlink_proc] at hx
      exact .inl hx
  · rcases h.proc_of_ne hxp with ⟨v, hv⟩ | ⟨⟨caller, prev, hpc⟩, hv⟩
    · rw [Holds, hv] at hx
      exact .inl hx
    · rw [Holds, hv] at hx
      rcases hx with hx | hx
      · exact .inl (.inl hx)
      · exact .inr (hx.2 ▸ .wake hpc)

theorem Grants.free (hlen : conflicts.length ≤ 8)
    (h : Grants (lcInitConflictTable conflicts) s p q m)
    (hs : Basic (lcInitConflictTable conflicts) s) (hc : CountsAre s w)
    (hcard : Fintype.card P < 2 ^ 15) (hmn : Conflicts conflicts m n)
    (hx : x ≠ q) : contribution (s.proc x) n = 0 := by
  cases h with
  | fast hpc hfree =>
    exact contribution_eq_zero ((mask_free_iff hlen hc hs hcard m _).mp hfree n hmn).1 hx
  | wake hpc =>
    obtain ⟨L, hL⟩ := hs.queue
    have hpos := hL.position p
    rw [hpc] at hpos
    have hfree := hpos.1
    rw [wakeFree, ((hs.proc q).want _ (hs.queued_target hpc).1).2] at hfree
    exact contribution_eq_zero ((mask_free_iff hlen hc hs hcard _ _).mp hfree n hmn).1 hx

def Exclusive (conflicts : List (BitVec 32)) (s : State P) : Prop :=
  ∀ p q m n, p ≠ q → Holds s p m → Holds s q n → ¬ Conflicts conflicts m n

theorem Exclusive.trans (hsym : Symmetric conflicts) (h : Exclusive conflicts s)
    (hs : Basic (lcInitConflictTable conflicts) s) (hc : CountsAre s w)
    (hcard : Fintype.card P < 2 ^ 15) (hok : CancelsOk s (p, a))
    (ht : Trans (lcInitConflictTable conflicts) s p a t) : Exclusive conflicts t := by
  have hgrant : ∀ x y m n, x ≠ y → Grants (lcInitConflictTable conflicts) s p x m →
      Holds s y n → ¬ Conflicts conflicts m n := by
    intro x y m n hxy hx hy hmn
    have hzero := hx.free hsym.length_le hs hc hcard hmn (Ne.symm hxy)
    have hpos := hy.contribution_pos
    omega
  have hone : ∀ x y m n, Grants (lcInitConflictTable conflicts) s p x m →
      Grants (lcInitConflictTable conflicts) s p y n → x = y := by
    intro x y m n hx hy
    cases hx with
    | fast hpc _ =>
      cases hy with
      | fast => rfl
      | wake hpc' => simp [hpc'] at hpc
    | wake hpc =>
      cases hy with
      | fast hpc' _ => simp [hpc] at hpc'
      | wake hpc' =>
        rw [hpc] at hpc'
        exact (Pc.wakeSet.inj hpc').2.2.1
  intro x y m n hxy hx hy
  rcases ht.holds hs hok hx with hx | hx
  · rcases ht.holds hs hok hy with hy | hy
    · exact h x y m n hxy hx hy
    · exact fun hmn => hgrant y x n m (Ne.symm hxy) hy hx (hsym.symm m n hmn)
  · rcases ht.holds hs hok hy with hy | hy
    · exact hgrant x y m n hxy hx hy
    · exact absurd (hone x y m n hx hy) hxy

omit [DecidableEq P] in
theorem Initial.countsAre (hs : Initial s) : CountsAre s fun _ => false := by
  have hzero : total s = fun _ => 0 := by
    funext m
    refine Finset.sum_eq_zero ?_
    intro q _
    have hactive : lcGetActive (0#128) m = 0 := by simp [lcGetActive]
    simp [contribution, hs.holding q, hs.woken q, hs.pc q, Pc.transient, hactive]
  rw [CountsAre, hzero, hs.lock, eq_comm, gslLockInit]
  exact (counts_eq_zero_iff _ _ (fun _ => by simp)).mpr fun _ => ⟨rfl, rfl⟩

theorem countsAre_of_reachable
    (hok : ∀ s a, ok s a → CancelsOk s a) (hcard : Fintype.card P < 2 ^ 15)
    (h : Transition.Reachable (system table) ok s) : ∃ w, CountsAre s w := by
  refine h.invariant (I := fun s => ∃ w, CountsAre s w) (fun s hs => ⟨_, Initial.countsAre hs⟩) ?_
  intro s a t hreach ⟨w, hw⟩ hallowed hstep
  have hs := basic_of_reachable hok hreach
  have htrans := trans_of_step hstep
  have hcancel := hok s a hallowed
  exact ⟨_, hw.trans hs (hs.trans hcancel htrans) hcard htrans hcancel⟩

theorem exclusive_of_reachable (hsym : Symmetric conflicts) (hok : ∀ s a, ok s a → CancelsOk s a)
    (hcard : Fintype.card P < 2 ^ 15)
    (h : Transition.Reachable (system (lcInitConflictTable conflicts)) ok s) :
    Exclusive conflicts s := by
  refine h.invariant ?_ ?_
  · intro s hs p q m n _ hp _
    have hactive : lcGetActive (0#128) m = 0 := by simp [lcGetActive]
    simp [Holds, Initial.holding hs p, Initial.woken hs p, hactive] at hp
  · intro s a t hreach hI hallowed hstep
    obtain ⟨w, hw⟩ := countsAre_of_reachable hok hcard hreach
    exact hI.trans hsym (basic_of_reachable hok hreach) hw hcard (hok s a hallowed)
      (trans_of_step hstep)

/-- Mutual exclusion in every interleaving of gslAcquire and gslRelease. -/
theorem mutual_exclusion {conflicts : List (BitVec 32)} (hsym : Symmetric conflicts)
    (hcard : Fintype.card P < 2 ^ 15) {s : State P}
    (h : Transition.Reachable (system (lcInitConflictTable conflicts)) NoCancel s) {p q : P}
    (hpq : p ≠ q) {m n : Mode} (hp : Holds s p m) (hq : Holds s q n) :
    ¬ Conflicts conflicts m n :=
  exclusive_of_reachable hsym (fun _ _ h => h.1) hcard
    (reachable_cancelsOk (fun _ _ h => h) h) p q m n hpq hp hq

/-- Two processes that hold different modes, each in conflict with itself only. -/
theorem mutual_exclusion_two_holders : ∃ s : State (Fin 2),
    Transition.Reachable (system (lcInitConflictTable [1#32, 2#32])) NoCancel s ∧
      Holds s 0 0 ∧ Holds s 1 1 ∧ ¬ Conflicts [1#32, 2#32] 0 1 := by
  obtain ⟨s, hreach, h0, h1⟩ := Transition.exists_reachable
    (system (lcInitConflictTable [1#32, 2#32])) NoCancel (fun s => Holds s 0 0 ∧ Holds s 1 1)
    [((0 : Fin 2), .acquire 0 false), (0, .run), (0, .run), (1, .acquire 1 false), (1, .run),
      (1, .run)]
    fresh_initial (by decide +kernel)
  exact ⟨s, hreach, h0, h1, mutual_exclusion (by decide) (by decide) hreach (by decide) h0 h1⟩

end Mosbench.Gsl
