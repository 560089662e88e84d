import Mosbench.Lib.Biased
import Mosbench.Lib.Tally
import Mosbench.Postgres.LWLock

/-!
What a lightweight lock is for, without its program points and its list of waiters. Each process
has a role: it is out, has counted itself in and failed, waits in the queue, or holds the lock.
On top of that it may have an errand: it was told by its release to look after the waiters, or it
is inside LWLockGetWakeChain. The count is the sum of what roles and errands add to it, and every
change of a role is decided by the count alone.
-/
namespace Mosbench.LW

open List Function Biased

inductive Role
  | out
  | pending (mode : LWLockMode)
  | queued (mode : LWLockMode)
  | holder (mode : LWLockMode)
  deriving DecidableEq

inductive Errand
  | none
  | called
  | adding
  | undoing
  | waking
  deriving DecidableEq

namespace Role

def active : Role → ℕ
  | .pending _ | .holder _ => 1
  | .out | .queued _ => 0

def waiting : Role → ℕ
  | .pending .exclusive | .holder .exclusive | .queued _ => 1
  | .out | .pending .shared | .holder .shared => 0

def weight (r : Role) : ℤ := r.active - 2 ^ 32 * r.waiting

@[simp] theorem weight_out : Role.out.weight = 0 := rfl

theorem weight_pending (m : LWLockMode) : (Role.pending m).weight = (Role.holder m).weight := by
  cases m <;> rfl

theorem active_le_one (r : Role) : r.active ≤ 1 := by
  cases r <;> simp [active]

theorem waiting_le_one (r : Role) : r.waiting ≤ 1 := by
  cases r with
  | out | queued m => simp [waiting]
  | pending m | holder m => cases m <;> simp [waiting]

end Role

namespace Errand

def active : Errand → ℕ
  | .undoing | .waking => 1
  | .none | .called | .adding => 0

def Inner (e : Errand) : Prop := e = .adding ∨ e = .undoing ∨ e = .waking

theorem active_le_one (e : Errand) : e.active ≤ 1 := by
  cases e <;> simp [active]

@[simp] theorem active_none : Errand.none.active = 0 := rfl
@[simp] theorem active_called : Errand.called.active = 0 := rfl
@[simp] theorem active_adding : Errand.adding.active = 0 := rfl
@[simp] theorem active_undoing : Errand.undoing.active = 1 := rfl
@[simp] theorem active_waking : Errand.waking.active = 1 := rfl

@[simp] theorem not_inner_none : ¬ Errand.none.Inner := by simp [Inner]
@[simp] theorem not_inner_called : ¬ Errand.called.Inner := by simp [Inner]
@[simp] theorem inner_adding : Errand.adding.Inner := .inl rfl
@[simp] theorem inner_undoing : Errand.undoing.Inner := .inr (.inl rfl)
@[simp] theorem inner_waking : Errand.waking.Inner := .inr (.inr rfl)

end Errand

theorem bias_eq (m : LWLockMode) : bias m = BitVec.ofInt 64 (Role.holder m).weight := by
  cases m <;> decide

theorem neg_bias_eq (m : LWLockMode) : -bias m = BitVec.ofInt 64 (-(Role.holder m).weight) := by
  cases m <;> decide

theorem adjustment_eq (m : LWLockMode) :
    adjustment m = BitVec.ofInt 64 ((Role.queued m).weight - (Role.pending m).weight) := by
  cases m <;> decide

theorem activeBias_eq : activeBias = BitVec.ofInt 64 1 := rfl

theorem neg_activeBias_eq : -activeBias = BitVec.ofInt 64 (-1) := by decide

theorem wakeDelta_eq (n : ℕ) : wakeDelta n = BitVec.ofInt 64
      (n * ((Role.holder .shared).weight - (Role.queued .shared).weight) - 1) := by
  have hunit : activeBias - waitingBias =
      BitVec.ofInt 64 ((Role.holder .shared).weight - (Role.queued .shared).weight) := by decide
  rw [wakeDelta, hunit, sub_eq_add_neg (n * _ : ℤ) 1, BitVec.ofInt_add, BitVec.ofInt_mul,
    BitVec.ofInt_natCast, BitVec.sub_eq_add_neg, neg_activeBias_eq]

@[ext]
structure View (P : Type*) where
  count : BitVec 64
  role : P → Role
  errand : P → Errand

def View.set [DecidableEq P] (v : View P) (p : P) (count : BitVec 64) (r : Role) (e : Errand) :
    View P :=
  ⟨count, update v.role p r, update v.errand p e⟩

def View.wake [DecidableEq P] (v : View P) (p : P) (count : BitVec 64) (X : List P)
    (m : LWLockMode) : View P :=
  ⟨count, fun q => if q ∈ X then .holder m else v.role q, update v.errand p .none⟩

def Admits : LWLockMode → BitVec 64 → Prop
  | .exclusive, count => count = 0#64
  | .shared, count => count.msb = false ∨ (count + activeReadBias).msb = false

variable [DecidableEq P]

/-- What a step of `p` can do to roles, errands and the count. The spinlock keeps
everybody else out of LWLockGetWakeChain while `p` queues up or enters it. -/
inductive Change (v : View P) (p : P) : View P → Prop
  | got {m : LWLockMode} (hrole : v.role p = .out) (herr : v.errand p = .none)
      (hfree : Admits m v.count) : Change v p (v.set p (v.count + bias m) (.holder m) .none)
  | failed {m : LWLockMode} (hrole : v.role p = .out) (herr : v.errand p = .none) :
      Change v p (v.set p (v.count + bias m) (.pending m) .none)
  | adjusted {m : LWLockMode} {e : Errand} (hrole : v.role p = .pending m)
      (herr : v.errand p = .none) (halone : ∀ q, ¬ (v.errand q).Inner)
      (he : e = .adding ∨ e = .none ∧ (v.count + adjustment m) &&& activeMask ≠ 0#64) :
      Change v p (v.set p (v.count + adjustment m) (.queued m) e)
  | entered (herr : v.errand p = .called) (halone : ∀ q, ¬ (v.errand q).Inner)
      (hqueued : ∃ x m, v.role x = .queued m) :
      Change v p (v.set p v.count (v.role p) .adding)
  | left (herr : v.errand p = .called) (hempty : ∀ x m, v.role x ≠ .queued m) :
      Change v p (v.set p v.count (v.role p) .none)
  | idle (herr : v.errand p = .adding) (hidle : v.count &&& activeMask = 0#64) :
      Change v p (v.set p (v.count + activeBias) (v.role p) .waking)
  | busy (herr : v.errand p = .adding) (hbusy : v.count &&& activeMask ≠ 0#64) :
      Change v p (v.set p (v.count + activeBias) (v.role p) .undoing)
  | undone {e : Errand} (herr : v.errand p = .undoing) (he : e = .none ∨ e = .adding) :
      Change v p (v.set p (v.count + -activeBias) (v.role p) e)
  | wakeWriter {x : P} (herr : v.errand p = .waking) (hx : v.role x = .queued .exclusive) :
      Change v p (v.wake p v.count [x] .exclusive)
  | wakeReaders {X : List P} (herr : v.errand p = .waking) (hne : X ≠ []) (hnodup : X.Nodup)
      (hX : ∀ x ∈ X, v.role x = .queued .shared) :
      Change v p (v.wake p (v.count + wakeDelta X.length) X .shared)
  | lowered {m : LWLockMode} {e : Errand} (hrole : v.role p = .holder m) (herr : v.errand p = .none)
      (he : e = .called ∨ e = .none ∧ mustwake m (v.count + -bias m) = false) :
      Change v p (v.set p (v.count + -bias m) .out e)

section Set

variable {v : View P} {count : BitVec 64}

@[simp] theorem View.set_role_self : (v.set p count r e).role p = r := update_self ..
@[simp] theorem View.set_errand_self : (v.set p count r e).errand p = e := update_self ..

theorem View.set_role_of_ne (h : q ≠ p) : (v.set p count r e).role q = v.role q :=
  update_of_ne h ..

theorem View.set_errand_of_ne (h : q ≠ p) : (v.set p count r e).errand q = v.errand q :=
  update_of_ne h ..

@[simp] theorem View.wake_errand_self : (v.wake p count X m).errand p = .none :=
  update_self ..

theorem View.wake_errand_of_ne (h : q ≠ p) : (v.wake p count X m).errand q = v.errand q :=
  update_of_ne h ..

theorem View.wake_role_of_mem (h : q ∈ X) : (v.wake p count X m).role q = .holder m := if_pos h

theorem View.wake_role_of_notMem (h : q ∉ X) : (v.wake p count X m).role q = v.role q := if_neg h

end Set

namespace Change

variable {w : View P}

theorem errand_of_ne (h : Change v p w) (hq : q ≠ p) : w.errand q = v.errand q := by
  cases h <;> exact update_of_ne hq ..

theorem role_of_ne (h : Change v p w) (hq : q ≠ p) : w.role q = v.role q ∨
      v.errand p = .waking ∧ ∃ m, v.role q = .queued m ∧ w.role q = .holder m := by
  cases h with
  | @wakeWriter x herr hx =>
    by_cases hqx : q ∈ [x]
    · obtain rfl := mem_singleton.mp hqx
      exact .inr ⟨herr, .exclusive, hx, View.wake_role_of_mem hqx⟩
    · exact .inl (View.wake_role_of_notMem hqx)
  | @wakeReaders X herr hne hnodup hX =>
    by_cases hqX : q ∈ X
    · exact .inr ⟨herr, .shared, hX q hqX, View.wake_role_of_mem hqX⟩
    · exact .inl (View.wake_role_of_notMem hqX)
  | _ => exact .inl (update_of_ne hq ..)

theorem errand_waking (h : Change v p w) (herr : v.errand p = .waking) : w.errand p = .none := by
  cases h with
  | wakeWriter | wakeReaders => exact View.wake_errand_self
  | got _ herr' | failed _ herr' | adjusted _ herr' | entered herr' | left herr' | idle herr'
  | busy herr' | undone herr' | lowered _ herr' =>
    rw [herr] at herr'
    cases herr'

theorem queued (h : Change v p w) (hq : v.role q = .queued m) :
    w.role q = .queued m ∨ v.errand p = .waking := by
  by_cases hqp : q = p
  · subst hqp
    cases h with
    | got hrole | failed hrole | adjusted hrole | lowered hrole =>
      rw [hrole] at hq
      cases hq
    | wakeWriter herr | wakeReaders herr => exact .inr herr
    | _ => exact .inl (View.set_role_self.trans hq)
  · rcases h.role_of_ne hqp with hrole | ⟨herr, -⟩
    · exact .inl (hrole.trans hq)
    · exact .inr herr

theorem holder (h : Change v p w) (hq : w.role q = .holder m) :
    v.role q = .holder m ∨ v.errand p = .waking ∨ q = p ∧ v.errand p = .none ∧ Admits m v.count := by
  by_cases hqp : q = p
  · subst hqp
    cases h with
    | got hrole herr hfree =>
      rw [View.set_role_self] at hq
      cases hq
      exact .inr (.inr ⟨rfl, herr, hfree⟩)
    | failed | adjusted | lowered =>
      rw [View.set_role_self] at hq
      cases hq
    | wakeWriter herr | wakeReaders herr => exact .inr (.inl herr)
    | _ =>
      rw [View.set_role_self] at hq
      exact .inl hq
  · rcases h.role_of_ne hqp with hrole | ⟨herr, -⟩
    · exact .inl (hrole ▸ hq)
    · exact .inr (.inl herr)

theorem inner_self (h : Change v p w) (hp : (w.errand p).Inner) :
    (v.errand p).Inner ∨ (∀ q, ¬ (v.errand q).Inner) ∧ ∃ x m, w.role x = .queued m := by
  cases h with
  | got | failed | left =>
    rw [View.set_errand_self] at hp
    simp at hp
  | @adjusted m e hrole herr halone he => exact .inr ⟨halone, p, m, View.set_role_self⟩
  | entered herr halone hqueued =>
    obtain ⟨x, m, hx⟩ := hqueued
    refine .inr ⟨halone, x, m, ?_⟩
    by_cases hxp : x = p
    · subst hxp
      exact View.set_role_self.trans hx
    · exact (View.set_role_of_ne hxp).trans hx
  | idle herr | busy herr | undone herr => exact .inl (by simp [herr])
  | wakeWriter | wakeReaders =>
    rw [View.wake_errand_self] at hp
    simp at hp
  | lowered hrole herr he =>
    rw [View.set_errand_self] at hp
    rcases he with rfl | ⟨rfl, -⟩ <;> simp at hp

end Change

structure Orderly (v : View P) : Prop where
  called : ∀ p, v.errand p = .called → v.role p = .out
  inner : ∀ p, (v.errand p).Inner → v.role p = .out ∨ ∃ m, v.role p = .queued m
  alone : ∀ p q, (v.errand p).Inner → (v.errand q).Inner → p = q
  queue : ∀ p, (v.errand p).Inner → ∃ x m, v.role x = .queued m

namespace Orderly

variable {w : View P}

theorem step_called (h : Orderly v) (hc : Change v p w) (q : P) (hq : w.errand q = .called) :
    w.role q = .out := by
  by_cases hqp : q = p
  · subst hqp
    cases hc with
    | lowered => exact View.set_role_self
    | adjusted hrole herr halone he =>
      rw [View.set_errand_self] at hq
      rcases he with rfl | ⟨rfl, -⟩ <;> cases hq
    | undone herr he =>
      rw [View.set_errand_self] at hq
      rcases he with rfl | rfl <;> cases hq
    | wakeWriter | wakeReaders =>
      rw [View.wake_errand_self] at hq
      cases hq
    | _ =>
      rw [View.set_errand_self] at hq
      cases hq
  · have hout := h.called q (hc.errand_of_ne hqp ▸ hq)
    rcases hc.role_of_ne hqp with hrole | ⟨-, m, hqueued, -⟩
    · exact hrole.trans hout
    · rw [hout] at hqueued
      cases hqueued

theorem step_inner_self (h : Orderly v) (hc : Change v p w) (hp : (w.errand p).Inner) :
    w.role p = .out ∨ ∃ m, w.role p = .queued m := by
  have hkeep : ∀ {count e}, (v.role p = .out ∨ ∃ m, v.role p = .queued m) →
      (v.set p count (v.role p) e).role p = .out ∨
        ∃ m, (v.set p count (v.role p) e).role p = .queued m := by
    intro count e
    rw [View.set_role_self]
    exact id
  cases hc with
  | @adjusted m => exact .inr ⟨m, View.set_role_self⟩
  | lowered => exact .inl View.set_role_self
  | entered herr => exact hkeep (.inl (h.called p herr))
  | idle herr | busy herr | undone herr => exact hkeep (h.inner p (by simp [herr]))
  | got | failed | left =>
    rw [View.set_errand_self] at hp
    simp at hp
  | wakeWriter | wakeReaders =>
    rw [View.wake_errand_self] at hp
    simp at hp

theorem step_inner (h : Orderly v) (hc : Change v p w) (q : P) (hq : (w.errand q).Inner) :
    w.role q = .out ∨ ∃ m, w.role q = .queued m := by
  by_cases hqp : q = p
  · subst hqp
    exact h.step_inner_self hc hq
  · rw [hc.errand_of_ne hqp] at hq
    rcases hc.role_of_ne hqp with hrole | ⟨herr, -⟩
    · rw [hrole]
      exact h.inner q hq
    · exact absurd (h.alone q p hq (by simp [herr])) hqp

theorem step_alone (h : Orderly v) (hc : Change v p w) (q r : P) (hq : (w.errand q).Inner)
    (hr : (w.errand r).Inner) : q = r := by
  -- whoever is inside next to `p` was inside before
  have hother : ∀ x, x ≠ p → (w.errand x).Inner → (w.errand p).Inner → x = p := by
    intro x hxp hx hp
    rw [hc.errand_of_ne hxp] at hx
    rcases hc.inner_self hp with hin | ⟨halone, -⟩
    · exact h.alone x p hx hin
    · exact absurd hx (halone x)
  by_cases hqp : q = p
  · by_cases hrp : r = p
    · rw [hqp, hrp]
    · exact absurd (hother r hrp hr (hqp ▸ hq)) hrp
  · by_cases hrp : r = p
    · exact absurd (hother q hqp hq (hrp ▸ hr)) hqp
    · rw [hc.errand_of_ne hqp] at hq
      rw [hc.errand_of_ne hrp] at hr
      exact h.alone q r hq hr

theorem step_queue (h : Orderly v) (hc : Change v p w) (q : P) (hq : (w.errand q).Inner) :
    ∃ x m, w.role x = .queued m := by
  have hkeep : (v.errand q).Inner → ∃ x m, w.role x = .queued m := by
    intro hin
    obtain ⟨x, m, hx⟩ := h.queue q hin
    rcases hc.queued hx with hx' | herr
    · exact ⟨x, m, hx'⟩
    · -- the process that wakes the queue leaves LWLockGetWakeChain
      obtain rfl := h.alone q p hin (by simp [herr])
      rw [hc.errand_waking herr] at hq
      simp at hq
  by_cases hqp : q = p
  · subst hqp
    rcases hc.inner_self hq with hin | ⟨-, hqueued⟩
    · exact hkeep hin
    · exact hqueued
  · exact hkeep (hc.errand_of_ne hqp ▸ hq)

theorem step (h : Orderly v) (hc : Change v p w) : Orderly w where
  called := h.step_called hc
  inner := h.step_inner hc
  alone := h.step_alone hc
  queue := h.step_queue hc

end Orderly

section

variable [Fintype P]

omit [DecidableEq P]

def View.active (v : View P) : ℕ := ∑ q, (v.role q).active + ∑ q, (v.errand q).active

def View.waiting (v : View P) : ℕ := ∑ q, (v.role q).waiting

def Counted (v : View P) : Prop := v.count = word v.active v.waiting

variable {v : View P}

theorem View.waiting_le_card (v : View P) : v.waiting ≤ Fintype.card P :=
  Tally.sum_le_card fun q => (v.role q).waiting_le_one

theorem Orderly.active_le_card (h : Orderly v) : v.active ≤ Fintype.card P := by
  unfold View.active
  rw [← Finset.sum_add_distrib]
  refine Tally.sum_le_card ?_
  intro q
  by_cases herr : (v.errand q).Inner
  · have hrole : (v.role q).active = 0 := by
      rcases h.inner q herr with hq | ⟨m, hq⟩ <;> rw [hq] <;> rfl
    have := (v.errand q).active_le_one
    omega
  · have hzero : (v.errand q).active = 0 := by
      cases he : v.errand q <;> simp_all [Errand.active]
    have := (v.role q).active_le_one
    omega

theorem View.role_active_le (v : View P) (q : P) : (v.role q).active ≤ v.active :=
  (Tally.le_sum (fun q => (v.role q).active) q).trans (Nat.le_add_right ..)

theorem View.errand_active_le (v : View P) (q : P) : (v.errand q).active ≤ v.active :=
  (Tally.le_sum (fun q => (v.errand q).active) q).trans (Nat.le_add_left ..)

theorem View.role_waiting_le (v : View P) (q : P) : (v.role q).waiting ≤ v.waiting :=
  Tally.le_sum (fun q => (v.role q).waiting) q

theorem View.exists_active (h : v.active ≠ 0) :
    ∃ q, (v.role q).active ≠ 0 ∨ (v.errand q).active ≠ 0 := by
  by_contra hnone
  simp only [not_exists, not_or, not_not] at hnone
  apply h
  unfold View.active
  rw [Finset.sum_eq_zero fun q _ => (hnone q).1, Finset.sum_eq_zero fun q _ => (hnone q).2,
    add_zero]

variable [DecidableEq P]

theorem Counted.set (h : Counted v) {count : BitVec 64}
    (hcount : count = v.count + BitVec.ofInt 64 d)
    (hd : r.weight + e.active = (v.role p).weight + (v.errand p).active + d) :
    Counted (v.set p count r e) := by
  have hrole : ∀ (f : Role → ℕ), ∑ q, f ((v.set p count r e).role q) + f (v.role p) =
      ∑ q, f (v.role q) + f r := by
    intro f
    have hagree := Tally.sum_add_of_agree (p := p) (f := fun q => f (v.role q))
      (g := fun q => f ((v.set p count r e).role q))
      (fun q hq => congrArg f (View.set_role_of_ne hq))
    rwa [View.set_role_self] at hagree
  have herrand := Tally.sum_add_of_agree (p := p) (f := fun q => (v.errand q).active)
    (g := fun q => ((v.set p count r e).errand q).active)
    (fun q hq => congrArg Errand.active (View.set_errand_of_ne hq))
  rw [View.set_errand_self] at herrand
  have hactive := hrole Role.active
  have hwaiting := hrole Role.waiting
  unfold Role.weight at hd
  refine hcount.trans ((congrArg (· + BitVec.ofInt 64 d) h).trans (word_add_ofInt ?_))
  unfold View.active View.waiting
  omega

/-- Handing over moves a waiting unit to the active half, and for a reader it also
takes the waiting unit away. -/
theorem Counted.wake (h : Counted v) {count : BitVec 64}
    (hcount : count = v.count + BitVec.ofInt 64 d) (hnodup : X.Nodup)
    (herr : v.errand p = .waking) (hX : ∀ x ∈ X, v.role x = .queued m)
    (hd : X.length * ((Role.holder m).weight - (Role.queued m).weight) = d + 1) :
    Counted (v.wake p count X m) := by
  have hactive : ∑ q, ((v.wake p count X m).role q).active = ∑ q, (v.role q).active + X.length := by
    refine Tally.sum_eq_add_length hnodup ?_ ?_
    · intro q hq
      rw [View.wake_role_of_mem hq, hX q hq]
      rfl
    · intro q hq
      rw [View.wake_role_of_notMem hq]
  have hwaiting : ∃ k, ∑ q, (v.role q).waiting = ∑ q, ((v.wake p count X m).role q).waiting + k ∧
      X.length * ((Role.holder m).weight - (Role.queued m).weight) =
        (X.length + 2 ^ 32 * k : ℤ) := by
    cases m with
    | exclusive =>
      refine ⟨0, Finset.sum_congr rfl ?_, by simp [Role.weight, Role.active, Role.waiting]⟩
      intro q _
      by_cases hq : q ∈ X
      · rw [View.wake_role_of_mem hq, hX q hq]
        rfl
      · rw [View.wake_role_of_notMem hq]
    | shared =>
      refine ⟨X.length, Tally.sum_eq_add_length hnodup ?_ ?_, ?_⟩
      · intro q hq
        rw [View.wake_role_of_mem hq, hX q hq]
        rfl
      · intro q hq
        rw [View.wake_role_of_notMem hq]
      · simp only [Role.weight, Role.active, Role.waiting]
        omega
  obtain ⟨k, hwaiting, hk⟩ := hwaiting
  have herrand := Tally.sum_add_of_agree (p := p) (f := fun q => (v.errand q).active)
    (g := fun q => ((v.wake p count X m).errand q).active)
    (fun q hq => congrArg Errand.active (View.wake_errand_of_ne hq))
  rw [View.wake_errand_self, herr, Errand.active_none, Errand.active_waking] at herrand
  refine hcount.trans ((congrArg (· + BitVec.ofInt 64 d) h).trans (word_add_ofInt ?_))
  unfold View.active View.waiting
  omega

theorem Counted.step (h : Counted v) (hc : Change v p w) : Counted w := by
  have hsame : v.count = v.count + BitVec.ofInt 64 0 := (BitVec.add_zero _).symm
  cases hc with
  | got hrole herr _ => exact h.set (by rw [bias_eq]) (by simp [hrole, herr])
  | failed hrole herr =>
    exact h.set (by rw [bias_eq]) (by simp [hrole, herr, Role.weight_pending])
  | @adjusted m e hrole herr _ he =>
    have hzero : e.active = 0 := by rcases he with rfl | ⟨rfl, -⟩ <;> rfl
    exact h.set (by rw [adjustment_eq]) (by simp [hrole, herr, hzero])
  | entered herr | left herr => exact h.set hsame (by simp [herr])
  | idle herr | busy herr => exact h.set (by rw [activeBias_eq]) (by simp [herr])
  | @undone e herr he =>
    have hzero : e.active = 0 := by rcases he with rfl | rfl <;> rfl
    exact h.set (by rw [neg_activeBias_eq]) (by simp [herr, hzero])
  | wakeWriter herr hx =>
    exact h.wake hsame (nodup_singleton _) herr (by simpa using hx) rfl
  | wakeReaders herr hne hnodup hX => exact h.wake (by rw [wakeDelta_eq]) hnodup herr hX (by omega)
  | @lowered m e hrole herr he =>
    have hzero : e.active = 0 := by rcases he with rfl | ⟨rfl, -⟩ <;> rfl
    exact h.set (by rw [neg_bias_eq]) (by simp [hrole, herr, hzero])

end

section Tests

variable [Fintype P] {v : View P}

omit [DecidableEq P]

structure InRange (v : View P) : Prop where
  counted : Counted v
  active : v.active < 2 ^ 31
  waiting : v.waiting < 2 ^ 31

theorem InRange.of_card (hcard : Fintype.card P < 2 ^ 31) (ho : Orderly v) (hc : Counted v) :
    InRange v :=
  ⟨hc, ho.active_le_card.trans_lt hcard, v.waiting_le_card.trans_lt hcard⟩

namespace InRange

theorem eq_zero_iff (h : InRange v) : v.count = 0#64 ↔ v.active = 0 ∧ v.waiting = 0 := by
  have ha := h.active
  have hw := h.waiting
  rw [h.counted, word_eq_zero (by omega) (by omega)]

theorem waiting_eq_zero_of_msb (h : InRange v) (hmsb : v.count.msb = false) : v.waiting = 0 := by
  have ha := h.active
  have hneg := msb_word (a := v.active) (by omega) h.waiting
  rw [← show v.count = _ from h.counted, hmsb] at hneg
  simpa using hneg

theorem waiting_eq_zero_of_admits (h : InRange v) (hm : Admits .shared v.count) :
    v.waiting = 0 := by
  rcases hm with hmsb | hmsb
  · exact h.waiting_eq_zero_of_msb hmsb
  · have ha := h.active
    have hnew : v.count + activeReadBias = word (v.active + 1) v.waiting := by
      rw [show v.count = _ from h.counted, activeReadBias, activeBias_eq]
      exact word_add_ofInt (by omega)
    have hneg := msb_word (a := v.active + 1) (by omega) h.waiting
    rw [← hnew, hmsb] at hneg
    simpa using hneg

theorem active_eq_zero_of_idle (h : InRange v) (hidle : v.count &&& activeMask = 0#64) :
    v.active = 0 := by
  have ha := h.active
  rw [show v.count = _ from h.counted] at hidle
  have hmod := (word_and_low_eq_zero _ _).mp hidle
  omega

theorem waiting_eq_zero_of_mustwake (h : InRange v)
    (hwake : mustwake m v.count = false) : v.waiting = 0 := by
  cases m with
  | exclusive => exact (h.eq_zero_iff.mp (by simpa [mustwake] using hwake)).2
  | shared => exact h.waiting_eq_zero_of_msb hwake

end InRange

theorem View.not_holder_of_active (h : v.active = 0) (q : P) (m : LWLockMode) :
    v.role q ≠ .holder m := by
  intro hq
  have hle := v.role_active_le q
  rw [hq, h] at hle
  simp [Role.active] at hle

theorem View.not_queued_of_waiting (h : v.waiting = 0) (q : P) (m : LWLockMode) :
    v.role q ≠ .queued m := by
  intro hq
  have hle := v.role_waiting_le q
  rw [hq, h] at hle
  simp [Role.waiting] at hle

theorem View.not_exclusive_of_waiting (h : v.waiting = 0) (q : P) :
    v.role q ≠ .holder .exclusive := by
  intro hq
  have hle := v.role_waiting_le q
  rw [hq, h] at hle
  simp [Role.waiting] at hle

end Tests

/-- Nobody holds the lock while it is being handed over, and a writer holds it alone. -/
structure Exclusion (v : View P) : Prop where
  waking : ∀ p, v.errand p = .waking → ∀ q m, v.role q ≠ .holder m
  exclusive : ∀ p q m, v.role p = .holder .exclusive → v.role q = .holder m → q = p

namespace Exclusion

variable [Fintype P] {w : View P}

theorem step_waking (h : Exclusion v) (ho : Orderly v) (hr : InRange v) (hc : Change v p w)
    (r : P) (herr : w.errand r = .waking) (q : P) (m : LWLockMode) : w.role q ≠ .holder m := by
  intro hq
  -- when `r` is already handing over, nobody else gets in
  have hold : v.errand r = .waking → r ≠ p → False := by
    intro hwaking hrp
    rcases hc.holder hq with hq' | herr' | ⟨-, -, hopen⟩
    · exact h.waking r hwaking q m hq'
    · exact hrp (ho.alone r p (by simp [hwaking]) (by simp [herr']))
    · cases m with
      | exclusive =>
        have hle := v.errand_active_le r
        rw [hwaking, (hr.eq_zero_iff.mp hopen).1] at hle
        simp at hle
      | shared =>
        obtain ⟨x, k, hx⟩ := ho.queue r (by simp [hwaking])
        exact View.not_queued_of_waiting (hr.waiting_eq_zero_of_admits hopen) x k hx
  by_cases hrp : r = p
  · subst hrp
    cases hc with
    | idle herr' hidle =>
      have hnobody := View.not_holder_of_active (hr.active_eq_zero_of_idle hidle) q m
      by_cases hqr : q = r
      · subst hqr
        rw [View.set_role_self] at hq
        exact hnobody hq
      · rw [View.set_role_of_ne hqr] at hq
        exact hnobody hq
    | adjusted _ _ _ he | lowered _ _ he =>
      rw [View.set_errand_self] at herr
      rcases he with rfl | ⟨rfl, -⟩ <;> cases herr
    | undone _ he =>
      rw [View.set_errand_self] at herr
      rcases he with rfl | rfl <;> cases herr
    | wakeWriter | wakeReaders =>
      rw [View.wake_errand_self] at herr
      cases herr
    | _ =>
      rw [View.set_errand_self] at herr
      cases herr
  · exact hold (hc.errand_of_ne hrp ▸ herr) hrp

omit [Fintype P] in
theorem step_exclusive_of_waking (h : Exclusion v) (hc : Change v p w)
    (herr : v.errand p = .waking) (q r : P) (m : LWLockMode)
    (hq : w.role q = .holder .exclusive) (hr : w.role r = .holder m) : r = q := by
  have hnobody := h.waking p herr
  cases hc with
  | @wakeWriter x =>
    have honly : ∀ y k, (v.wake p v.count [x] .exclusive).role y = .holder k → y = x := by
      intro y k hy
      by_contra hyx
      rw [View.wake_role_of_notMem (by simpa using hyx)] at hy
      exact hnobody y k hy
    rw [honly r m hr, honly q _ hq]
  | @wakeReaders X =>
    by_cases hqX : q ∈ X
    · rw [View.wake_role_of_mem hqX] at hq
      cases hq
    · rw [View.wake_role_of_notMem hqX] at hq
      exact absurd hq (hnobody q _)
  | got _ herr' | failed _ herr' | adjusted _ herr' | entered herr' | left herr' | idle herr'
  | busy herr' | undone herr' | lowered _ herr' =>
    rw [herr] at herr'
    cases herr'

theorem step_exclusive (h : Exclusion v) (hrange : InRange v) (hc : Change v p w) (q r : P)
    (m : LWLockMode) (hq : w.role q = .holder .exclusive) (hr : w.role r = .holder m) : r = q := by
  rcases hc.holder hq with hq' | herr | ⟨rfl, -, hopen⟩
  · rcases hc.holder hr with hr' | herr | ⟨rfl, -, hopen⟩
    · exact h.exclusive q r m hq' hr'
    · exact h.step_exclusive_of_waking hc herr q r m hq hr
    · cases m with
      | exclusive =>
        exact absurd hq' (View.not_holder_of_active (hrange.eq_zero_iff.mp hopen).1 q _)
      | shared =>
        exact absurd hq' (View.not_exclusive_of_waiting (hrange.waiting_eq_zero_of_admits hopen) q)
  · exact h.step_exclusive_of_waking hc herr q r m hq hr
  · rcases hc.holder hr with hr' | herr | ⟨hrq, -⟩
    · exact absurd hr' (View.not_holder_of_active (hrange.eq_zero_iff.mp hopen).1 r _)
    · exact h.step_exclusive_of_waking hc herr q r m hq hr
    · exact hrq

theorem step (h : Exclusion v) (ho : Orderly v) (hr : InRange v) (hc : Change v p w) :
    Exclusion w where
  waking := h.step_waking ho hr hc
  exclusive := h.step_exclusive hr hc

end Exclusion

/-- A process that holds the lock, or that will still look after the queue: it has
counted itself in and tests the count when it takes that back, or it is on an errand. -/
def Keeper (v : View P) (q : P) : Prop := (v.role q).active ≠ 0 ∨ v.errand q ≠ .none

omit [DecidableEq P] in
theorem Keeper.of_holder (h : v.role q = .holder m) : Keeper v q :=
  .inl (by simp [h, Role.active])

/-- Somebody keeps a non-empty queue, also when a process inside LWLockGetWakeChain
is about to leave the queue to others. -/
structure Attended (v : View P) : Prop where
  queue : ∀ x m, v.role x = .queued m → ∃ q, Keeper v q
  undoing : ∀ p, v.errand p = .undoing → ∃ q, q ≠ p ∧ Keeper v q

theorem Change.keeper_of_ne {v : View P} (h : Change v p w) (hq : q ≠ p)
    (hk : Keeper v q) : Keeper w q := by
  rcases hk with hrole | herr
  · rcases h.role_of_ne hq with heq | ⟨-, m, -, heq⟩
    · exact .inl (heq ▸ hrole)
    · exact .of_holder heq
  · exact .inr (h.errand_of_ne hq ▸ herr)

namespace Attended

variable [Fintype P] {v : View P}

omit [DecidableEq P] in
theorem keeper_of_busy (hc : Counted v) (hbusy : v.count &&& activeMask ≠ 0#64) :
    ∃ q, Keeper v q ∧ ((v.role q).active ≠ 0 ∨ (v.errand q).active ≠ 0) := by
  have hactive : v.active ≠ 0 := by
    intro hzero
    apply hbusy
    rw [show v.count = _ from hc]
    exact (word_and_low_eq_zero _ _).mpr (by simp [hzero])
  obtain ⟨q, hq⟩ := View.exists_active hactive
  refine ⟨q, hq.imp_right ?_, hq⟩
  intro herr hnone
  rw [hnone] at herr
  exact herr rfl

theorem step_queue (h : Attended v) (hw : InRange w) (hc : Change v p w) (x : P)
    (k : LWLockMode) (hx : w.role x = .queued k) : ∃ q, Keeper w q := by
  cases hc with
  | got | failed => exact ⟨p, .inl (by simp [Role.active])⟩
  | entered | idle | busy => exact ⟨p, .inr (by simp)⟩
  | adjusted _ _ _ he =>
    rcases he with rfl | ⟨rfl, hbusy⟩
    · exact ⟨p, .inr (by simp)⟩
    · obtain ⟨q, hq, -⟩ := keeper_of_busy hw.counted hbusy
      exact ⟨q, hq⟩
  | left herr hempty =>
    by_cases hxp : x = p
    · subst hxp
      rw [View.set_role_self] at hx
      exact absurd hx (hempty x k)
    · rw [View.set_role_of_ne hxp] at hx
      exact absurd hx (hempty x k)
  | undone herr he =>
    rcases he with rfl | rfl
    · -- the undo relies on the process that made the lock look busy
      obtain ⟨q, hqp, hq⟩ := h.undoing p herr
      exact ⟨q, (Change.undone herr (.inl rfl)).keeper_of_ne hqp hq⟩
    · exact ⟨p, .inr (by simp)⟩
  | @wakeWriter y => exact ⟨y, .of_holder (View.wake_role_of_mem (mem_singleton_self y))⟩
  | @wakeReaders X _ hne =>
    exact ⟨X.head hne, .of_holder (View.wake_role_of_mem (head_mem hne))⟩
  | lowered _ _ he =>
    rcases he with rfl | ⟨rfl, hwake⟩
    · exact ⟨p, .inr (by simp)⟩
    · exact absurd hx (View.not_queued_of_waiting (hw.waiting_eq_zero_of_mustwake hwake) x k)

/-- The lock looked busy to `p`, so another process is behind an active unit. -/
theorem step_undoing_self (ho : Orderly v) (hcount : Counted v) (hc : Change v p w)
    (herr : w.errand p = .undoing) : ∃ q, q ≠ p ∧ Keeper w q := by
  cases hc with
  | busy herr' hbusy =>
    obtain ⟨q, hkeeper, hq⟩ := keeper_of_busy hcount hbusy
    have hqp : q ≠ p := by
      rintro rfl
      rcases ho.inner q (by simp [herr']) with hrole | ⟨m, hrole⟩ <;>
        simp [hrole, herr', Role.active] at hq
    exact ⟨q, hqp, (Change.busy herr' hbusy).keeper_of_ne hqp hkeeper⟩
  | adjusted _ _ _ he | lowered _ _ he =>
    rw [View.set_errand_self] at herr
    rcases he with rfl | ⟨rfl, -⟩ <;> cases herr
  | undone _ he =>
    rw [View.set_errand_self] at herr
    rcases he with rfl | rfl <;> cases herr
  | wakeWriter | wakeReaders =>
    rw [View.wake_errand_self] at herr
    cases herr
  | _ =>
    rw [View.set_errand_self] at herr
    cases herr

/-- While another process is inside LWLockGetWakeChain, whoever changes is a keeper
afterwards. -/
theorem keeper_self (ho : Orderly v) (hw : InRange w) (hc : Change v p w)
    (hr : (v.errand r).Inner) (hrp : r ≠ p) : Keeper w p := by
  obtain ⟨x, m, hx⟩ := ho.queue r hr
  have hinner : (v.errand p).Inner → False := fun hp => hrp (ho.alone r p hr hp)
  have hx' : w.role x = .queued m := by
    rcases hc.queued hx with hx' | herr
    · exact hx'
    · exact (hinner (by simp [herr])).elim
  cases hc with
  | got | failed => exact .inl (by simp [Role.active])
  | adjusted _ _ halone | entered _ halone => exact absurd hr (halone r)
  | left _ hempty => exact absurd hx (hempty x m)
  | idle herr | busy herr | undone herr | wakeWriter herr | wakeReaders herr =>
    exact (hinner (by simp [herr])).elim
  | lowered _ _ he =>
    rcases he with rfl | ⟨rfl, hwake⟩
    · exact .inr (by simp)
    · exact absurd hx' (View.not_queued_of_waiting (hw.waiting_eq_zero_of_mustwake hwake) x m)

theorem step_undoing (h : Attended v) (ho : Orderly v) (hcount : Counted v) (hw : InRange w)
    (hc : Change v p w) (r : P) (herr : w.errand r = .undoing) : ∃ q, q ≠ r ∧ Keeper w q := by
  by_cases hrp : r = p
  · subst hrp
    exact step_undoing_self ho hcount hc herr
  · rw [hc.errand_of_ne hrp] at herr
    obtain ⟨q, hqr, hq⟩ := h.undoing r herr
    refine ⟨q, hqr, ?_⟩
    by_cases hqp : q = p
    · subst hqp
      exact keeper_self ho hw hc (by simp [herr]) hrp
    · exact hc.keeper_of_ne hqp hq

theorem step (h : Attended v) (ho : Orderly v) (hcount : Counted v) (hw : InRange w)
    (hc : Change v p w) : Attended w where
  queue := h.step_queue hw hc
  undoing := h.step_undoing ho hcount hw hc

end Attended

end Mosbench.LW
