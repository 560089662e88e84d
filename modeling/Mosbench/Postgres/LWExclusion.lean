import Mosbench.Postgres.LWProtocol
import Mosbench.Postgres.LWQueue

/-!
The lock of lwlock.c follows the counting protocol: every step either leaves roles, errands and
the count alone or is one of the changes of the protocol.
-/
namespace Mosbench.LW

open View Backend List Links

namespace Pc

def role (pc : Pc P) (inQueue : Bool) : Role :=
  match pc with
  | .queueMutex m | .enqueue m | .adjust m => .pending m
  | .release m => .holder m
  | pc =>
    match pc.waits with
    | some m => if inQueue then .queued m else .holder m
    | none => .out

def errand : Pc P → Errand
  | .relMutex | .relHead => .called
  | .wakeAdd _ => .adding
  | .wakeUndo _ => .undoing
  | .wakeHead _ | .wakeWalk _ _ _ _ => .waking
  | _ => .none

theorem role_of_waits {pc : Pc P} (h : pc.waits = some m) (inQueue : Bool) :
    pc.role inQueue = if inQueue then .queued m else .holder m := by
  cases pc <;> simp_all [waits, role]

theorem waits_of_role_queued {pc : Pc P}
    (h : pc.role inQueue = .queued m) : inQueue = true ∧ pc.waits = some m := by
  unfold role at h
  split at h
  · cases h
  · cases h
  · cases h
  · cases h
  · split at h
    · next hwaits =>
      split at h
      · next hq =>
        cases h
        exact ⟨hq, hwaits⟩
      · cases h
    · cases h

theorem role_eq_holder {pc : Pc P} (hadj : ∀ k, pc = .adjust k → inQueue = true) :
    pc.role inQueue = .holder m ↔ pc = .release m ∨ pc.enlisted = some m ∧ inQueue = false := by
  cases hw : pc.waits with
  | some k =>
    have hrel : pc ≠ .release m := by
      rintro rfl
      cases hw
    rw [role_of_waits hw, enlisted_of_waits hw]
    cases inQueue <;> simp [hrel]
  | none => cases pc <;> simp_all [role, waits, enlisted]

theorem role_unlock {pc : Pc P} (h : pc.waking = true) (hc : pc.waits = c.mode)
    (chain : Option P) (inQueue : Bool) : (Pc.unlock c chain).role inQueue = pc.role inQueue := by
  cases pc <;> simp_all [waking, waits, role]

theorem waking_of_inner {pc : Pc P} (h : pc.errand.Inner) : pc.waking = true := by
  cases pc <;> simp_all [errand, waking]

end Pc

def Backend.role (b : Backend P) (inQueue : Bool) : Role :=
  match b.held with
  | some m => .holder m
  | none => b.pc.role inQueue

theorem Backend.role_of_held {b : Backend P} (h : b.held = none) (inQueue : Bool) :
    b.role inQueue = b.pc.role inQueue := by
  simp [role, h]

variable [DecidableEq P]

def view (s : State P) (L : List P) : View P where
  count := s.lock.count
  role p := (s.backend p).role (decide (p ∈ L))
  errand p := (s.backend p).pc.errand

section Stay

variable {s : State P} {e : Effect P}

@[simp] theorem view_count : (view s L).count = s.lock.count := rfl

@[simp] theorem view_role (q : P) : (view s L).role q = (s.backend q).role (decide (q ∈ L)) := rfl

@[simp] theorem view_errand (q : P) : (view s L).errand q = (s.backend q).pc.errand := rfl

theorem view_set (hother : ∀ q, q ≠ p → t.backend q = s.backend q) :
    view t L = (view s L).set p t.lock.count ((t.backend p).role (decide (p ∈ L)))
      (t.backend p).pc.errand := by
  refine View.ext rfl ?_ ?_
  · funext q
    by_cases hq : q = p
    · rw [hq, set_role_self, view_role]
    · rw [set_role_of_ne hq, view_role, view_role, hother q hq]
  · funext q
    by_cases hq : q = p
    · rw [hq, set_errand_self, view_errand]
    · rw [set_errand_of_ne hq, view_errand, view_errand, hother q hq]

theorem view_stay (e : Effect P) (b : Backend P) : view ((e.apply s p).setBackend p b) L =
      (view s L).set p (e.apply s p).lock.count (b.role (decide (p ∈ L))) b.pc.errand := by
  rw [view_set (s := s) (p := p), setBackend_self, setBackend_lock]
  intro q hq
  rw [setBackend_of_ne hq, apply_backend]

theorem View.set_same (v : View P) {count : BitVec 64} {e : Errand}
    (hcount : count = v.count) (hr : r = v.role p) (he : e = v.errand p) :
    v.set p count r e = v := by
  subst hcount hr he
  simp [View.set]

omit [DecidableEq P] in
theorem Linked.held_eq_none (h : Linked s L K) (hpc : (s.backend p).pc ≠ .idle) :
    (s.backend p).held = none := by
  rcases h.held p with hheld | hidle
  · exact hheld
  · exact absurd hidle hpc

omit [DecidableEq P] in
theorem admits_of_mustwait {count : BitVec 64} (h : mustwait m count = false) : Admits m count := by
  cases m with
  | exclusive => simpa [mustwait, Admits, unlockedValue] using h
  | shared => exact .inr h

theorem Linked.alone (h : Linked s L K) (hlocked : (s.backend p).pc.locked = true)
    (hp : ¬ (s.backend p).pc.errand.Inner) (q : P) : ¬ ((view s L).errand q).Inner := by
  intro hq
  rw [view_errand] at hq
  have hqp := h.eq_of_locked hlocked (Pc.locked_of_waking (Pc.waking_of_inner hq))
  exact hp (hqp ▸ hq)

theorem Linked.role_of_mem (h : Linked s L K) (hx : x ∈ L)
    (hm : (s.backend x).pc.waits = some m) : (view s L).role x = .queued m := by
  have hheld : (s.backend x).held = none := by
    refine h.held_eq_none ?_
    intro hidle
    rw [hidle] at hm
    cases hm
  rw [view_role, role_of_held hheld, Pc.role_of_waits hm]
  simp [hx]

theorem mem_of_role_queued (hx : (view s L).role x = .queued m) : x ∈ L := by
  rw [view_role, Backend.role] at hx
  split at hx
  · cases hx
  · exact of_decide_eq_true (Pc.waits_of_role_queued hx).1

theorem view_silent (e : Effect P) (b : Backend P) (hcount : (e.apply s p).lock.count = s.lock.count)
    (hrole : b.role (decide (p ∈ L)) = (s.backend p).role (decide (p ∈ L)))
    (herr : b.pc.errand = (s.backend p).pc.errand) :
    view ((e.apply s p).setBackend p b) L = view s L := by
  rw [view_stay]
  exact set_same _ hcount hrole herr

theorem apply_update_count (d : BitVec 64) :
    ((Effect.update d).apply s p).lock.count = s.lock.count + d := setCount_count ..

theorem change_got (hheld : (s.backend p).held = none)
    (hout : ∀ inQueue, (s.backend p).pc.role inQueue = .out)
    (herr : (s.backend p).pc.errand = .none) (hopen : Admits m s.lock.count)
    (hcount : (e.apply s p).lock.count = s.lock.count + bias m) :
    Change (view s L) p (view ((e.apply s p).setBackend p ((s.backend p).got m)) L) := by
  rw [view_stay, hcount]
  exact .got (by rw [view_role, role_of_held hheld, hout]) herr hopen

omit [DecidableEq P] in
theorem role_goto (hheld : (s.backend p).held = none) {pc : Pc P} (inQueue : Bool)
    (hrole : pc.role inQueue = (s.backend p).pc.role inQueue) :
    ((s.backend p).goto pc).role inQueue = (s.backend p).role inQueue := by
  rw [role_of_held (by simpa using hheld), role_of_held hheld, goto_pc, hrole]

theorem change_errand (hheld : (s.backend p).held = none) {pc : Pc P}
    (hrole : ∀ inQueue, pc.role inQueue = (s.backend p).pc.role inQueue) (d : BitVec 64)
    (hchange : Change (view s L) p ((view s L).set p (s.lock.count + d) ((view s L).role p)
      pc.errand)) :
    Change (view s L) p
      (view (((Effect.update d).apply s p).setBackend p ((s.backend p).goto pc)) L) := by
  rw [view_stay, role_goto hheld _ (hrole _), apply_update_count]
  exact hchange

theorem Linked.adjust_change (h : Linked s L K) {pc : Pc P}
    (hpc : (s.backend p).pc = .adjust m) (hwaits : pc.waits = some m)
    (herr : pc.errand = .adding ∨
      pc.errand = .none ∧ (s.lock.count + adjustment m) &&& activeMask ≠ 0#64) :
    Change (view s L) p (view (((Effect.update (adjustment m)).apply s p).setBackend p
      ((s.backend p).goto pc)) L) := by
  have hheld := h.held_eq_none (p := p) (by simp [hpc])
  have hrole : ((s.backend p).goto pc).role (decide (p ∈ L)) = .queued m := by
    rw [role_of_held (by simpa using hheld), goto_pc, Pc.role_of_waits hwaits]
    simp [h.adjusting p m hpc]
  rw [view_stay, hrole, apply_update_count]
  refine .adjusted ?_ (by rw [view_errand, hpc]; rfl) ?_ herr
  · rw [view_role, role_of_held hheld, hpc]
    rfl
  · exact h.alone (p := p) (by rw [hpc]; rfl) (by simp [hpc, Pc.errand])

theorem Linked.enter_change (h : Linked s L K) (hpc : (s.backend p).pc = .relHead)
    (hhead : s.lock.head ≠ none) :
    Change (view s L) p ((view s L).set p s.lock.count ((view s L).role p) .adding) := by
  have hlocked : (s.backend p).pc.locked = true := by rw [hpc]; rfl
  refine .entered (by rw [view_errand, hpc]; rfl) (h.alone hlocked (by simp [hpc, Pc.errand])) ?_
  rw [h.head_eq] at hhead
  obtain ⟨x, hx⟩ := Option.ne_none_iff_exists'.mp hhead
  have hxL := mem_of_head? hx
  obtain ⟨m, hm, -⟩ := h.waits_of_mem hlocked (by simp [hpc]) hxL
  exact ⟨x, m, h.role_of_mem hxL hm⟩

theorem Linked.leave_change (h : Linked s L K) (hpc : (s.backend p).pc = .relHead)
    (hhead : s.lock.head = none) :
    Change (view s L) p ((view s L).set p s.lock.count ((view s L).role p) .none) := by
  refine .left (by rw [view_errand, hpc]; rfl) ?_
  intro x m hx
  have hxL := mem_of_role_queued hx
  rw [h.head_eq, List.head?_eq_none_iff] at hhead
  rw [hhead] at hxL
  cases hxL

theorem lower_change {pc : Pc P} (hheld : (s.backend p).held = none)
    (hpc : (s.backend p).pc = .release m) (hout : ∀ inQueue, pc.role inQueue = .out)
    (herr : pc.errand = .called ∨ pc.errand = .none ∧ mustwake m (s.lock.count + -bias m) = false) :
    Change (view s L) p (view (((Effect.update (-bias m)).apply s p).setBackend p
      ((s.backend p).goto pc)) L) := by
  have hrole : ((s.backend p).goto pc).role (decide (p ∈ L)) = .out := by
    rw [role_of_held (by simpa using hheld), goto_pc, hout]
  rw [view_stay, hrole, apply_update_count]
  refine .lowered ?_ (by rw [view_errand, hpc]; rfl) herr
  rw [view_role, role_of_held hheld, hpc]
  rfl

theorem skip_silent (hrole : b.role (decide (p ∈ L)) = (s.backend p).role (decide (p ∈ L)))
    (herr : b.pc.errand = (s.backend p).pc.errand) :
    view ((Effect.skip.apply s p).setBackend p b) L = view s L :=
  view_silent .skip b rfl hrole herr

theorem Linked.stay_change (h : Linked s L K) (hm : Move s p e b) (he : e.stays = true) :
    view ((e.apply s p).setBackend p b) L = view s L ∨
      Change (view s L) p (view ((e.apply s p).setBackend p b) L) := by
  have hnone : (s.backend p).pc ≠ .idle → (s.backend p).held = none := h.held_eq_none
  cases hm with
  | enqueue | wakeWriter | wakeReaders | signal => cases he
  | acquire hpc hheld | tryExclusive hpc hheld | tryShared hpc hheld =>
    exact .inl (skip_silent (role_goto hheld _ (by rw [hpc]; rfl)) (by rw [hpc]; rfl))
  | release hpc hheld =>
    refine .inl (skip_silent ?_ (by rw [hpc]; rfl))
    simp [Backend.role, Pc.role, hheld]
  | @failed m hpc hwait =>
    have hheld := hnone (by simp [hpc])
    refine .inr ?_
    rw [view_stay, apply_update_count, role_of_held (by simpa using hheld)]
    refine .failed ?_ (by rw [view_errand, hpc]; rfl)
    rw [view_role, role_of_held hheld, hpc]
    rfl
  | acquired hpc hwait =>
    exact .inr (change_got (hnone (by simp [hpc])) (by rw [hpc]; exact fun _ => rfl)
      (by rw [hpc]; rfl) (admits_of_mustwait hwait) (apply_update_count _))
  | queueMutex hpc | unlock hpc | released hpc | relMutex hpc =>
    exact .inl (view_silent _ _ rfl (role_goto (hnone (by simp [hpc])) _ (by rw [hpc]; rfl))
      (by rw [hpc]; rfl))
  | adjustIdle hpc => exact .inr (h.adjust_change hpc rfl (.inl rfl))
  | adjustBusy hpc hbusy => exact .inr (h.adjust_change hpc rfl (.inr ⟨rfl, hbusy⟩))
  | wakeIdle hpc hidle =>
    refine .inr (change_errand (hnone (by simp [hpc])) (by rw [hpc]; exact fun _ => rfl) _ ?_)
    exact .idle (by rw [view_errand, hpc]; rfl) hidle
  | wakeBusy hpc hbusy =>
    refine .inr (change_errand (hnone (by simp [hpc])) (by rw [hpc]; exact fun _ => rfl) _ ?_)
    exact .busy (by rw [view_errand, hpc]; rfl) hbusy
  | giveUp hpc =>
    refine .inr (change_errand (hnone (by simp [hpc])) (by rw [hpc]; exact fun _ => rfl) _ ?_)
    exact .undone (by rw [view_errand, hpc]; rfl) (.inl rfl)
  | again hpc =>
    refine .inr (change_errand (hnone (by simp [hpc])) (by rw [hpc]; exact fun _ => rfl) _ ?_)
    exact .undone (by rw [view_errand, hpc]; rfl) (.inr rfl)
  | wakeReader hpc | walk hpc | sleep hpc =>
    exact .inl (skip_silent (role_goto (hnone (by simp [hpc])) _ (by rw [hpc]; rfl))
      (by rw [hpc]; rfl))
  | @resume m hpc hwoken =>
    -- it was removed from the queue before it was signalled
    have hpL := (h.notMem_of_woken hwoken).1
    refine .inl (skip_silent ?_ (by rw [hpc]; rfl))
    rw [role_of_held (hnone (by simp [hpc])), hpc]
    simp [hpL, Backend.role, Pc.role, Pc.waits]
  | tryGot hpc hfree =>
    refine .inr (change_got (hnone (by simp [hpc])) (by rw [hpc]; exact fun _ => rfl)
      (by rw [hpc]; rfl) hfree ?_)
    rw [hfree]
    exact (setCount_count _ _).trans (BitVec.zero_add _).symm
  | tryRefused hpc =>
    rcases hpc with hpc | ⟨result, hpc⟩
    all_goals
      have hheld := hnone (by simp [hpc])
      refine .inl (skip_silent ?_ (by rw [hpc]; rfl))
      rw [role_of_held hheld, role_of_held (by simpa using hheld), hpc]
      rfl
  | tryRead hpc =>
    rcases hpc with hpc | ⟨result, hpc⟩
    all_goals
      exact .inl (skip_silent (role_goto (hnone (by simp [hpc])) _ (by rw [hpc]; rfl))
        (by rw [hpc]; rfl))
  | trySharedGot hpc hpos =>
    refine .inr (change_got (hnone (by simp [hpc])) (by rw [hpc]; exact fun _ => rfl)
      (by rw [hpc]; rfl) (.inl ?_) (setCount_count _ _))
    rw [BitVec.msb_eq_toInt, decide_eq_false_iff_not]
    omega
  | lowered hpc hwake =>
    exact .inr (lower_change (hnone (by simp [hpc])) hpc (fun _ => rfl) (.inr ⟨rfl, hwake⟩))
  | loweredWake hpc =>
    exact .inr (lower_change (hnone (by simp [hpc])) hpc (fun _ => rfl) (.inl rfl))
  | relWake hpc hhead =>
    refine .inr ?_
    rw [view_stay, role_goto (hnone (by simp [hpc])) _ (by rw [hpc]; rfl)]
    exact h.enter_change hpc hhead
  | relEmpty hpc hhead =>
    refine .inr ?_
    rw [view_stay, role_goto (hnone (by simp [hpc])) _ (by rw [hpc]; rfl)]
    exact h.leave_change hpc hhead

end Stay

section Lists

variable {s : State P}

theorem enqueue_count : (s.enqueue p m).lock.count = s.lock.count := by
  simp only [State.enqueue]
  split <;> rfl

theorem Linked.enqueue_silent (h : Linked s L K) (hpc : (s.backend p).pc = .enqueue m) :
    view ((s.enqueue p m).setBackend p ((s.backend p).goto (.adjust m))) (L ++ [p]) = view s L := by
  have hheld := h.held_eq_none (p := p) (by simp [hpc])
  refine View.ext enqueue_count ?_ ?_
  · funext q
    by_cases hq : q = p
    · rw [hq, view_role, view_role, setBackend_self, role_of_held (by simpa using hheld),
        role_of_held hheld, hpc]
      rfl
    · rw [view_role, view_role, setBackend_of_ne hq, enqueue_backend]
      simp [hq]
  · funext q
    by_cases hq : q = p
    · rw [hq, view_errand, view_errand, setBackend_self, hpc]
      rfl
    · rw [view_errand, view_errand, setBackend_of_ne hq, enqueue_backend]

theorem Linked.signal_silent (h : Linked s L K) (hpc : (s.backend p).pc = .wakeChain c (some x)) :
    view ((s.signal x).setBackend p ((s.backend p).goto (.wakeChain c (s.proc x).lwWaitLink))) L =
      view s L := by
  have hother : ∀ q, q ≠ p → ((s.signal x).setBackend p
      ((s.backend p).goto (.wakeChain c (s.proc x).lwWaitLink))).backend q = s.backend q :=
    fun q hq => setBackend_of_ne hq
  rw [view_set hother, setBackend_self]
  refine set_same _ rfl (role_goto (h.held_eq_none (by simp [hpc])) _ ?_) ?_
  · rw [hpc]
    rfl
  · rw [view_errand, hpc]
    rfl

theorem Linked.view_dequeue (h : Linked s L K) (hL : L = X ++ x :: Y)
    (hwaking : (s.backend p).pc.waking = true) (hc : (s.backend p).pc.waits = c.mode)
    (hm : ∀ z ∈ X ++ [x], (s.backend z).pc.waits = some m) :
    view ((s.dequeue x).setBackend p ((s.backend p).goto (.unlock c (some y)))) Y =
      (view s L).wake p s.lock.count (X ++ [x]) m := by
  have hwaits : ∀ q, (((s.dequeue x).setBackend p
      ((s.backend p).goto (.unlock c (some y)))).backend q).pc.waits = (s.backend q).pc.waits := by
    intro q
    by_cases hq : q = p
    · rw [hq, setBackend_self, hc]
      rfl
    · rw [setBackend_of_ne hq, dequeue_backend]
  have hheld : ∀ q, (((s.dequeue x).setBackend p
      ((s.backend p).goto (.unlock c (some y)))).backend q).held = (s.backend q).held := by
    intro q
    by_cases hq : q = p
    · rw [hq, setBackend_self, goto_held]
    · rw [setBackend_of_ne hq, dequeue_backend]
  have hnodup := h.queue.nodup
  rw [hL, append_cons] at hnodup
  refine View.ext rfl ?_ ?_
  · funext q
    by_cases hq : q ∈ X ++ [x]
    · have hqY : q ∉ Y := fun hqY => (nodup_append.mp hnodup).2.2 q hq q hqY rfl
      have hnone : (s.backend q).held = none := by
        refine h.held_eq_none ?_
        intro hidle
        have hwait := hm q hq
        rw [hidle] at hwait
        cases hwait
      rw [wake_role_of_mem hq, view_role, role_of_held ((hheld q).trans hnone),
        Pc.role_of_waits ((hwaits q).trans (hm q hq))]
      simp [hqY]
    · have hmem : q ∈ Y ↔ q ∈ L := by
        rw [hL, append_cons, mem_append]
        simp [hq]
      rw [wake_role_of_notMem hq, view_role, view_role, decide_eq_decide.mpr hmem]
      by_cases hqp : q = p
      · generalize decide (q ∈ L) = inQueue
        rw [hqp, setBackend_self]
        refine role_goto ?_ _ ?_
        · refine h.held_eq_none ?_
          intro hidle
          rw [hidle] at hwaking
          cases hwaking
        · exact Pc.role_unlock hwaking hc _ _
      · rw [setBackend_of_ne hqp, dequeue_backend]
  · funext q
    by_cases hq : q = p
    · rw [hq, wake_errand_self, view_errand, setBackend_self]
      rfl
    · rw [wake_errand_of_ne hq, view_errand, view_errand, setBackend_of_ne hq, dequeue_backend]

end Lists

inductive Flow (s : State P) (p : P) (L : List P) : List P → Prop
  | same (hpc : ∀ m, (s.backend p).pc ≠ .enqueue m) : Flow s p L L
  | joined {m : LWLockMode} (hpc : (s.backend p).pc = .enqueue m) : Flow s p L (L ++ [p])
  | left {X Y : List P} (hpc : (s.backend p).pc.waking = true) (h : L = X ++ Y) : Flow s p L Y

section Step

variable {s : State P}

theorem Linked.wakeWriter (h : Linked s L K)
    (hpc : (s.backend p).pc = .wakeHead c) (hhead : s.lock.head = some x)
    (hx : (s.proc x).lwExclusive = true) :
    ∃ L' K', Linked ((s.dequeue x).setBackend p ((s.backend p).goto (.unlock c (some x)))) L' K' ∧
      Flow s p L L' ∧ Change (view s L) p
        (view ((s.dequeue x).setBackend p ((s.backend p).goto (.unlock c (some x)))) L') := by
  rw [h.head_eq] at hhead
  obtain ⟨Y, hY⟩ := List.head?_eq_some_iff.mp hhead
  have hL : L = [] ++ x :: Y := hY
  have hwaking : (s.backend p).pc.waking = true := by rw [hpc]; rfl
  have hwaits : (s.backend x).pc.waits = some .exclusive := by
    obtain ⟨m, hm, hexcl⟩ := h.waits_of_mem (Pc.locked_of_waking hwaking) (by simp [hpc])
      (mem_of_head? hhead)
    rw [hx, eq_comm, decide_eq_true_iff] at hexcl
    rw [hm, hexcl]
  refine ⟨Y, _, h.dequeue hL hhead hwaking (by rw [hpc]; rfl), .left (X := [x]) hwaking hY, ?_⟩
  rw [h.view_dequeue (m := .exclusive) hL hwaking (by rw [hpc]; rfl) (by simpa using hwaits)]
  exact .wakeWriter (by rw [view_errand, hpc]; rfl) (h.role_of_mem (mem_of_head? hhead) hwaits)

theorem Linked.wakeReaders (h : Linked s L K)
    (hpc : (s.backend p).pc = .wakeWalk c y x n) {count : BitVec 64}
    (hcount : count = s.lock.count + wakeDelta n) :
    ∃ L' K', Linked (((s.setCount count).dequeue x).setBackend p
        ((s.backend p).goto (.unlock c (some y)))) L' K' ∧
      Flow s p L L' ∧ Change (view s L) p (view (((s.setCount count).dequeue x).setBackend p
        ((s.backend p).goto (.unlock c (some y)))) L') := by
  obtain ⟨X, Y, hL, hhead, hlen, hreaders⟩ := h.walk p c y x n hpc
  have hwaking : (s.backend p).pc.waking = true := by rw [hpc]; rfl
  have hmem : ∀ z ∈ X ++ [x], z ∈ L := by
    intro z hz
    rw [hL, append_cons]
    exact mem_append_left _ hz
  have hwaits : ∀ z ∈ X ++ [x], (s.backend z).pc.waits = some .shared := by
    intro z hz
    obtain ⟨m, hm, hexcl⟩ := h.waits_of_mem (Pc.locked_of_waking hwaking) (by simp [hpc])
      (hmem z hz)
    rw [hreaders z hz, eq_comm, decide_eq_false_iff_not] at hexcl
    cases m with
    | exclusive => exact absurd rfl hexcl
    | shared => exact hm
  have hset := h.setCount count
  refine ⟨Y, _, hset.dequeue hL hhead hwaking (by rw [setCount_backend, hpc]; rfl),
    .left hwaking (hL.trans (append_cons ..)), ?_⟩
  have hview := hset.view_dequeue (y := y) (m := .shared) hL hwaking
    (by rw [setCount_backend, hpc]; rfl) hwaits
  have hchange : Change (view s L) p ((view s L).wake p
      (s.lock.count + wakeDelta (X ++ [x]).length) (X ++ [x]) .shared) := by
    refine .wakeReaders (by rw [view_errand, hpc]; rfl) (by simp) ?_ ?_
    · have hnodup := h.queue.nodup
      rw [hL, append_cons] at hnodup
      exact (nodup_append.mp hnodup).1
    · intro z hz
      exact h.role_of_mem (hmem z hz) (hwaits z hz)
  rw [show (X ++ [x]).length = n by simpa using hlen, ← hcount] at hchange
  exact hview ▸ hchange

theorem Linked.step (h : Linked s L K) (hm : Move s p e b) :
    ∃ L' K', Linked ((e.apply s p).setBackend p b) L' K' ∧ Flow s p L L' ∧
      (view ((e.apply s p).setBackend p b) L' = view s L ∨
        Change (view s L) p (view ((e.apply s p).setBackend p b) L')) := by
  by_cases he : e.stays = true
  · exact ⟨L, K, h.stay hm he, .same (hm.ne_enqueue he), h.stay_change hm he⟩
  · cases hm with
    | enqueue hpc => exact ⟨_, K, h.enqueue hpc, .joined hpc, .inl (h.enqueue_silent hpc)⟩
    | wakeWriter hpc hhead hx =>
      obtain ⟨L', K', hlinked, hflow, hchange⟩ := h.wakeWriter hpc hhead hx
      exact ⟨L', K', hlinked, hflow, .inr hchange⟩
    | wakeReaders hpc hlast =>
      obtain ⟨L', K', hlinked, hflow, hchange⟩ := h.wakeReaders hpc rfl
      exact ⟨L', K', hlinked, hflow, .inr hchange⟩
    | signal hpc =>
      obtain ⟨K', hlinked⟩ := h.signal hpc
      exact ⟨L, K', hlinked, .same (by simp [hpc]), .inl (h.signal_silent hpc)⟩
    | _ => exact absurd rfl he

end Step

section Runs

variable [Fintype P] {s : State P}

/-- The protocol's invariants; the last two need the count in range. -/
structure Sound (v : View P) : Prop where
  orderly : Orderly v
  counted : Counted v
  exclusion : Fintype.card P < 2 ^ 31 → Exclusion v
  attended : Fintype.card P < 2 ^ 31 → Attended v

omit [DecidableEq P] in
theorem Sound.inRange {v : View P} (h : Sound v) (hcard : Fintype.card P < 2 ^ 31) : InRange v :=
  .of_card hcard h.orderly h.counted

theorem Sound.change {v : View P} (h : Sound v) (hc : Change v p w) : Sound w := by
  have ho := h.orderly.step hc
  have hcount := h.counted.step hc
  refine ⟨ho, hcount, ?_, ?_⟩
  · intro hcard
    exact (h.exclusion hcard).step h.orderly (h.inRange hcard) hc
  · intro hcard
    exact (h.attended hcard).step h.orderly h.counted (.of_card hcard ho hcount) hc

omit [DecidableEq P] in
theorem Sound.of_unused {v : View P} (hrole : ∀ p, v.role p = .out)
    (herr : ∀ p, v.errand p = .none) (hcount : v.count = 0#64) : Sound v := by
  have hactive : v.active = 0 := by simp [View.active, hrole, herr, Role.active]
  have hwaiting : v.waiting = 0 := by simp [View.waiting, hrole, Role.waiting]
  refine ⟨⟨?_, ?_, ?_, ?_⟩, ?_, fun _ => ⟨?_, ?_⟩, fun _ => ⟨?_, ?_⟩⟩
  case refine_5 =>
    unfold Counted
    rw [hactive, hwaiting, hcount]
    rfl
  all_goals simp [hrole, herr]

theorem Sound.of_initial (h : Initial s) : Sound (view s []) := by
  refine .of_unused (fun p => ?_) (fun p => ?_) ?_
  · simp [Backend.role, h.held p, h.pc p, Pc.role, Pc.waits]
  · rw [view_errand, h.pc p]
    rfl
  · rw [view_count, h.lock]
    rfl

theorem sound_of_reachable (hs : Transition.Reachable system (fun _ _ => True) s) :
    ∃ L K, Linked s L K ∧ Sound (view s L) := by
  refine hs.invariant (I := fun s => ∃ L K, Linked s L K ∧ Sound (view s L))
    (fun s₀ h₀ => ⟨[], _, .of_initial h₀, .of_initial h₀⟩) ?_
  rintro u a w - ⟨L, K, hlinked, hsound⟩ - hstep
  obtain ⟨e, b, hm, rfl⟩ := move_of_step hstep
  obtain ⟨L', K', hlinked', -, hview⟩ := hlinked.step hm
  refine ⟨L', K', hlinked', ?_⟩
  rcases hview with hsame | hchange
  · rw [hsame]
    exact hsound
  · exact hsound.change hchange

end Runs

def Queued (s : State P) (p : P) : Prop := ∃ L, Chain s.cell .head L ∧ p ∈ L

/-- `p` got the lock and did not give it back yet, or it waits in LWLockAcquire and
was removed from the queue. -/
def Holds (s : State P) (p : P) (m : LWLockMode) : Prop :=
  (s.backend p).held = some m ∨ (s.backend p).pc = .release m ∨
    (s.backend p).pc.enlisted = some m ∧ ¬ Queued s p

section

variable {s : State P}

omit [DecidableEq P] in
theorem Linked.queued_iff (h : Linked s L K) : Queued s p ↔ p ∈ L := by
  constructor
  · rintro ⟨L', hL', hp⟩
    rwa [h.queue.unique hL']
  · intro hp
    exact ⟨L, h.queue, hp⟩

theorem Linked.holds_iff (h : Linked s L K) : Holds s p m ↔ (view s L).role p = .holder m := by
  rw [Holds, h.queued_iff, view_role]
  rcases h.held p with hheld | hidle
  · have hadj : ∀ k, (s.backend p).pc = .adjust k → decide (p ∈ L) = true :=
      fun k hk => decide_eq_true (h.adjusting p k hk)
    rw [role_of_held hheld, hheld, Pc.role_eq_holder hadj, decide_eq_false_iff_not]
    simp
  · rw [Backend.role, hidle]
    cases (s.backend p).held <;> simp [Pc.role, Pc.enlisted, Pc.waits]

end

/-- A writer that holds the lock is its only holder, from the moment the lock is
handed to it. -/
theorem exclusive_holder_alone [Fintype P] (hcard : Fintype.card P < 2 ^ 31) {s : State P}
    (hs : Transition.Reachable system (fun _ _ => True) s) {p q : P} {m : LWLockMode}
    (hp : Holds s p .exclusive) (hq : Holds s q m) : q = p := by
  obtain ⟨L, K, hlinked, hsound⟩ := sound_of_reachable hs
  exact (hsound.exclusion hcard).exclusive p q m (hlinked.holds_iff.mp hp) (hlinked.holds_iff.mp hq)

/-- A release has just removed a sleeping writer from the queue. -/
theorem exclusive_holder_alone_handover :
    ∃ s : State (Fin 2), Transition.Reachable system (fun _ _ => True) s ∧
      (s.backend 1).pc = .sleep .exclusive ∧ Holds s 1 .exclusive ∧ ∀ q m, Holds s q m → q = 1 := by
  have hrun := Transition.exists_reachable (system (P := Fin 2)) (fun _ _ => True)
    (fun s => (s.backend 1).pc = .sleep .exclusive ∧ s.lock.head = none)
    [(0, .acquire .exclusive), (0, .run), (1, .acquire .exclusive), (1, .run), (1, .run),
      (1, .run), (1, .run), (1, .run), (1, .run), (0, .release), (0, .run), (0, .run), (0, .run),
      (0, .run), (0, .run)] fresh_initial (by decide +kernel)
  obtain ⟨s, hs, hsleep, hhead⟩ := hrun
  have hholds : Holds s 1 .exclusive := by
    refine .inr (.inr ⟨by rw [hsleep]; rfl, ?_⟩)
    rintro ⟨L, hL, hmem⟩
    have hnil : L = [] := hL.unique (chain_nil .. |>.mpr hhead)
    rw [hnil] at hmem
    cases hmem
  exact ⟨s, hs, hsleep, hholds, fun q m hq =>
    exclusive_holder_alone (by decide) hs hholds hq⟩

end Mosbench.LW
