import Mosbench.Postgres.LWLock

/-!
The wait queue of a lightweight lock and the chains of woken processes that LWLockWakeChain still
has to signal. All of them run through lwWaitLink, so the invariant keeps them apart: a process
is on at most one of these lists, and only after it queued up and before it returns.
-/
namespace Mosbench.LW

open List Function Links State

def Caller.mode : Caller → Option LWLockMode
  | .acquire m => some m
  | .release => none

namespace Pc

/-- LWLockAcquire has counted the process as a waiter and has not returned. -/
def waits : Pc P → Option LWLockMode
  | .wakeAdd c | .wakeUndo c | .wakeHead c | .wakeWalk c _ _ _ | .unlock c _ | .wakeChain c _ =>
    c.mode
  | .sleep m => some m
  | _ => none

def enlisted : Pc P → Option LWLockMode
  | .adjust m => some m
  | pc => pc.waits

def locked : Pc P → Bool
  | .enqueue _ | .adjust _ | .wakeAdd _ | .wakeUndo _ | .wakeHead _ | .wakeWalk _ _ _ _
  | .unlock _ _ | .relHead => true
  | _ => false

def waking : Pc P → Bool
  | .wakeAdd _ | .wakeUndo _ | .wakeHead _ | .wakeWalk _ _ _ _ => true
  | _ => false

def chain : Pc P → Option P
  | .unlock _ c | .wakeChain _ c => c
  | _ => none

theorem locked_of_waking {pc : Pc P} (h : pc.waking = true) : pc.locked = true := by
  cases pc <;> simp_all [waking, locked]

theorem enlisted_of_waits {pc : Pc P} (h : pc.waits = some m) : pc.enlisted = some m := by
  cases pc <;> simp_all [waits, enlisted]

end Pc

/-- The readers up to `x` are the first `n` of the queue `L`, whose head is `h`. -/
def Readers (s : State P) (L : List P) (h x : P) (n : ℕ) : Prop :=
  ∃ X Y, L = X ++ x :: Y ∧ L.head? = some h ∧ X.length + 1 = n ∧
    ∀ y ∈ X ++ [x], (s.proc y).lwExclusive = false

structure Linked (s : State P) (L : List P) (K : P → List P) : Prop where
  queue : Chain s.cell .head L
  tail : ∀ x, L.getLast? = some x → s.lock.tail = some x
  chain : ∀ p, ChainFrom s.cell (s.backend p).pc.chain (K p)
  mutex : ∀ p, (s.backend p).pc.locked = true → s.lock.mutex = some p
  held : ∀ p, (s.backend p).held = none ∨ (s.backend p).pc = .idle
  queued : ∀ x ∈ L, (s.proc x).lwWaiting = true ∧
    ∃ m, (s.backend x).pc.enlisted = some m ∧ (s.proc x).lwExclusive = decide (m = .exclusive)
  chained : ∀ p, ∀ x ∈ K p, x ∉ L ∧ (s.proc x).lwWaiting = true ∧ (s.backend x).pc.enlisted ≠ none
  apart : ∀ p q x, x ∈ K p → x ∈ K q → p = q
  adjusting : ∀ p m, (s.backend p).pc = .adjust m → p ∈ L
  nonempty : ∀ p, (s.backend p).pc.waking = true → L ≠ []
  walk : ∀ p c h x n, (s.backend p).pc = .wakeWalk c h x n → Readers s L h x n

namespace Linked

theorem of_initial (h : Initial s) : Linked s [] fun _ => [] := by
  have hpc := h.pc
  refine ⟨?_, by simp, fun p => ?_, fun p hp => ?_, fun p => .inr (hpc p), by simp, by simp,
    by simp, fun p m hp => ?_, fun p hp => ?_, fun p c x y n hp => ?_⟩
  · simp [cell, h.lock, createLWLock]
  · rw [hpc p]
    rfl
  all_goals
    rw [hpc p] at hp
    cases hp

theorem eq_of_locked (h : Linked s L K) (hp : (s.backend p).pc.locked = true)
    (hq : (s.backend q).pc.locked = true) : q = p :=
  Option.some.inj ((h.mutex q hq).symm.trans (h.mutex p hp))

theorem head_eq (h : Linked s L K) : s.lock.head = L.head? := by
  have hqueue := h.queue
  cases L with
  | nil => exact hqueue
  | cons x L => exact hqueue.1

theorem notMem_of_enlisted (h : Linked s L K) (hp : (s.backend p).pc.enlisted = none) :
    p ∉ L ∧ ∀ q, p ∉ K q := by
  constructor
  · intro hmem
    obtain ⟨-, m, hm, -⟩ := h.queued p hmem
    rw [hp] at hm
    cases hm
  · intro q hmem
    exact (h.chained q p hmem).2.2 hp

theorem notMem_of_woken (h : Linked s L K) (hp : (s.proc p).lwWaiting = false) :
    p ∉ L ∧ ∀ q, p ∉ K q := by
  constructor
  · intro hmem
    rw [(h.queued p hmem).1] at hp
    cases hp
  · intro q hmem
    rw [(h.chained q p hmem).2.1] at hp
    cases hp

theorem waits_of_mem (h : Linked s L K) (hp : (s.backend p).pc.locked = true)
    (hadj : ∀ m, (s.backend p).pc ≠ .adjust m) (hx : x ∈ L) :
    ∃ m, (s.backend x).pc.waits = some m ∧ (s.proc x).lwExclusive = decide (m = .exclusive) := by
  obtain ⟨-, m, hm, hexcl⟩ := h.queued x hx
  refine ⟨m, ?_, hexcl⟩
  cases hpc : (s.backend x).pc with
  | adjust k =>
    obtain rfl := h.eq_of_locked hp (by rw [hpc]; rfl)
    exact absurd hpc (hadj k)
  | _ => simpa [hpc, Pc.enlisted] using hm

end Linked

def Effect.stays : Effect P → Bool
  | .enqueue _ | .dequeue _ | .dequeueReaders _ _ | .signal _ => false
  | _ => true

section Stay

variable [DecidableEq P] {s : State P} {e : Effect P}

@[simp] theorem setBackend_self : (s.setBackend p b).backend p = b := update_self ..

theorem setBackend_of_ne (hq : q ≠ p) : (s.setBackend p b).backend q = s.backend q :=
  update_of_ne hq ..

@[simp] theorem setBackend_lock : (s.setBackend p b).lock = s.lock := rfl
@[simp] theorem setBackend_proc : (s.setBackend p b).proc = s.proc := rfl
@[simp] theorem setBackend_cell : (s.setBackend p b).cell = s.cell := rfl

section

variable (s : State P) (count : BitVec 64)

omit [DecidableEq P]

@[simp] theorem setCount_backend : (s.setCount count).backend = s.backend := rfl
@[simp] theorem setCount_proc : (s.setCount count).proc = s.proc := rfl
@[simp] theorem setCount_cell : (s.setCount count).cell = s.cell := rfl
@[simp] theorem setCount_tail : (s.setCount count).lock.tail = s.lock.tail := rfl
@[simp] theorem setCount_mutex : (s.setCount count).lock.mutex = s.lock.mutex := rfl
@[simp] theorem setCount_count : (s.setCount count).lock.count = count := rfl

end

theorem enqueue_backend (m : LWLockMode) : (s.enqueue p m).backend = s.backend := by
  simp only [enqueue]
  split <;> rfl

theorem dequeue_backend (x : P) : (s.dequeue x).backend = s.backend := rfl

theorem apply_backend (e : Effect P) : (e.apply s p).backend = s.backend := by
  cases e with
  | update | store => exact setCount_backend ..
  | enqueue m => exact enqueue_backend m
  | dequeueReaders x n => exact (dequeue_backend x).trans (setCount_backend ..)
  | _ => rfl

theorem stays_proc (he : e.stays = true) : (e.apply s p).proc = s.proc := by
  cases e with
  | update | store => exact setCount_proc ..
  | enqueue | dequeue | dequeueReaders | signal => cases he
  | _ => rfl

theorem stays_cell (he : e.stays = true) : (e.apply s p).cell = s.cell := by
  cases e with
  | update | store => exact setCount_cell ..
  | enqueue | dequeue | dequeueReaders | signal => cases he
  | _ => rfl

theorem stays_tail (he : e.stays = true) : (e.apply s p).lock.tail = s.lock.tail := by
  cases e with
  | update | store => exact setCount_tail ..
  | enqueue | dequeue | dequeueReaders | signal => cases he
  | _ => rfl

theorem stays_mutex (he : e.stays = true) (hacq : e ≠ .spinLockAcquire)
    (hrel : e ≠ .spinLockRelease) : (e.apply s p).lock.mutex = s.lock.mutex := by
  cases e with
  | update | store => exact setCount_mutex ..
  | enqueue | dequeue | dequeueReaders | signal => cases he
  | spinLockAcquire => exact absurd rfl hacq
  | spinLockRelease => exact absurd rfl hrel
  | skip => rfl

namespace Move

omit [DecidableEq P]

section

variable {p : P} {b : Backend P} (hm : Move s p e b)

include hm

theorem chain_eq (he : e.stays = true) :
    b.pc.chain = (s.backend p).pc.chain := by
  cases hm with
  | tryRefused hpc | tryRead hpc => rcases hpc with hpc | ⟨_, hpc⟩ <;> simp [hpc, Pc.chain]
  | enqueue | wakeWriter | wakeReaders | signal => cases he
  | _ => simp_all [Pc.chain]

theorem held_eq (hheld : (s.backend p).held = none ∨ (s.backend p).pc = .idle) :
    b.held = none ∨ b.pc = .idle := by
  cases hm with
  | tryRefused hpc => simp
  | tryRead hpc => rcases hpc with hpc | ⟨_, hpc⟩ <;> simp_all
  | _ => simp_all

theorem enlisted_eq (he : e.stays = true) :
    b.pc.enlisted = (s.backend p).pc.enlisted ∨ (s.proc p).lwWaiting = false := by
  cases hm with
  | tryRefused hpc | tryRead hpc =>
    rcases hpc with hpc | ⟨_, hpc⟩ <;> simp [hpc, Pc.enlisted, Pc.waits]
  | enqueue | wakeWriter | wakeReaders | signal => cases he
  | _ => simp_all [Pc.enlisted, Pc.waits, Caller.mode]

theorem ne_adjust (he : e.stays = true) (m : LWLockMode) :
    b.pc ≠ .adjust m := by
  cases hm with
  | enqueue => cases he
  | _ => simp

theorem ne_enqueue (he : e.stays = true) (m : LWLockMode) :
    (s.backend p).pc ≠ .enqueue m := by
  cases hm with
  | enqueue => cases he
  | tryRefused hpc | tryRead hpc => rcases hpc with hpc | ⟨_, hpc⟩ <;> simp [hpc]
  | _ => simp_all

theorem locked_eq (he : e.stays = true) (hlocked : b.pc.locked = true) :
    e = .spinLockAcquire ∨ (s.backend p).pc.locked = true ∧ e ≠ .spinLockRelease := by
  cases hm with
  | enqueue | wakeWriter | wakeReaders | signal => cases he
  | tryRefused hpc => simp [Pc.locked] at hlocked
  | _ => simp_all [Pc.locked]

theorem acquires (he : e = .spinLockAcquire) : s.lock.mutex = none := by
  cases hm with
  | queueMutex _ hfree | relMutex _ hfree => exact hfree
  | _ => cases he

theorem releases (he : e = .spinLockRelease) :
    (s.backend p).pc.locked = true ∧ b.pc.locked = false := by
  cases hm with
  | unlock hpc => simp [hpc, Pc.locked]
  | _ => cases he

end

end Move

namespace Linked

theorem stay_mutex (h : Linked s L K) (hm : Move s p e b) (he : e.stays = true) (q : P)
    (hq : (((e.apply s p).setBackend p b).backend q).pc.locked = true) :
    ((e.apply s p).setBackend p b).lock.mutex = some q := by
  rw [setBackend_lock]
  by_cases hacq : e = .spinLockAcquire
  · by_cases hqp : q = p
    · rw [hacq, hqp]
      rfl
    · rw [setBackend_of_ne hqp, apply_backend] at hq
      have howner := h.mutex q hq
      rw [hm.acquires hacq] at howner
      cases howner
  · by_cases hrel : e = .spinLockRelease
    · obtain ⟨hp, hb⟩ := hm.releases hrel
      by_cases hqp : q = p
      · rw [hqp, setBackend_self, hb] at hq
        cases hq
      · rw [setBackend_of_ne hqp, apply_backend] at hq
        exact absurd (h.eq_of_locked hp hq) hqp
    · rw [stays_mutex he hacq hrel]
      by_cases hqp : q = p
      · rw [hqp, setBackend_self] at hq
        rcases hm.locked_eq he hq with hacq' | ⟨hp, -⟩
        · exact absurd hacq' hacq
        · rw [hqp]
          exact h.mutex p hp
      · rw [setBackend_of_ne hqp, apply_backend] at hq
        exact h.mutex q hq

omit [DecidableEq P] in
theorem stay_nonempty (h : Linked s L K) (hm : Move s p e b) (he : e.stays = true)
    (hb : b.pc.waking = true) : L ≠ [] := by
  cases hm with
  | enqueue | wakeWriter | wakeReaders | signal => cases he
  | adjustIdle hpc =>
    exact ne_nil_of_mem (h.adjusting p _ hpc)
  | relWake hpc hhead =>
    intro hnil
    rw [h.head_eq, hnil] at hhead
    exact hhead rfl
  | wakeIdle hpc | wakeBusy hpc | again hpc | wakeReader hpc | walk hpc =>
    exact h.nonempty p (by simp [hpc, Pc.waking])
  | _ => simp [Pc.waking] at hb

omit [DecidableEq P] in
theorem stay_walk (h : Linked s L K) (hm : Move s p e b) (he : e.stays = true)
    (hb : b.pc = .wakeWalk c y x n) : Readers s L y x n := by
  cases hm with
  | enqueue | wakeWriter | wakeReaders | signal => cases he
  | @wakeReader c' z hpc hhead hz =>
    cases hb
    rw [h.head_eq] at hhead
    obtain ⟨Y, rfl⟩ := List.head?_eq_some_iff.mp hhead
    exact ⟨[], Y, rfl, rfl, rfl, by simpa using hz⟩
  | @walk c' y' z x' k hpc hlink hx' =>
    cases hb
    obtain ⟨X, Y, rfl, hhead, hlen, hreaders⟩ := h.walk p _ _ _ _ hpc
    have hback : Chain s.cell (.next z) Y := (h.queue.drop).2
    cases Y with
    | nil =>
      rw [chain_nil, cell, hlink] at hback
      cases hback
    | cons w Y =>
      obtain rfl : w = x := Option.some.inj (hback.1.symm.trans hlink)
      refine ⟨X ++ [z], Y, by simp, hhead, by simpa using hlen, ?_⟩
      intro v hv
      rcases mem_append.mp hv with hv | hv
      · exact hreaders v hv
      · rw [mem_singleton.mp hv]
        exact hx'
  | _ => simp at hb

theorem stay (h : Linked s L K) (hm : Move s p e b) (he : e.stays = true) :
    Linked ((e.apply s p).setBackend p b) L K := by
  have hother : ∀ q, q ≠ p → ((e.apply s p).setBackend p b).backend q = s.backend q := by
    intro q hq
    rw [setBackend_of_ne hq, apply_backend]
  -- a listed process is still enlisted: it returns only after it was signalled
  have hlisted : ∀ q, (q ∈ L ∨ ∃ r, q ∈ K r) →
      (((e.apply s p).setBackend p b).backend q).pc.enlisted = (s.backend q).pc.enlisted := by
    intro q hq
    by_cases hqp : q = p
    · subst hqp
      rw [setBackend_self]
      rcases hm.enlisted_eq he with heq | hwoken
      · exact heq
      · obtain ⟨hL, hK⟩ := h.notMem_of_woken hwoken
        rcases hq with hq | ⟨r, hq⟩
        · exact absurd hq hL
        · exact absurd hq (hK r)
    · rw [hother q hqp]
  refine ⟨?_, ?_, ?_, h.stay_mutex hm he, ?_, ?_, ?_, h.apart, ?_, ?_, ?_⟩
  · rw [setBackend_cell, stays_cell he]
    exact h.queue
  · rw [setBackend_lock, stays_tail he]
    exact h.tail
  · intro q
    rw [setBackend_cell, stays_cell he]
    by_cases hqp : q = p
    · rw [hqp, setBackend_self, hm.chain_eq he]
      exact h.chain p
    · rw [hother q hqp]
      exact h.chain q
  · intro q
    by_cases hqp : q = p
    · rw [hqp, setBackend_self]
      exact hm.held_eq (h.held p)
    · rw [hother q hqp]
      exact h.held q
  · intro x hx
    rw [setBackend_proc, stays_proc he, hlisted x (.inl hx)]
    exact h.queued x hx
  · intro q x hx
    rw [setBackend_proc, stays_proc he, hlisted x (.inr ⟨q, hx⟩)]
    exact h.chained q x hx
  · intro q m hq
    by_cases hqp : q = p
    · rw [hqp, setBackend_self] at hq
      exact absurd hq (hm.ne_adjust he m)
    · rw [hother q hqp] at hq
      exact h.adjusting q m hq
  · intro q hq
    by_cases hqp : q = p
    · rw [hqp, setBackend_self] at hq
      exact h.stay_nonempty hm he hq
    · rw [hother q hqp] at hq
      exact h.nonempty q hq
  · intro q c y x n hq
    have hread : Readers s L y x n := by
      by_cases hqp : q = p
      · rw [hqp, setBackend_self] at hq
        exact h.stay_walk hm he hq
      · rw [hother q hqp] at hq
        exact h.walk q c y x n hq
    unfold Readers at hread ⊢
    rwa [setBackend_proc, stays_proc he]

end Linked

end Stay

section

variable [DecidableEq P] {s : State P}

structure Enqueued (s : State P) (L : List P) (p : P) (m : LWLockMode) (t : State P) : Prop where
  cell : t.cell =
    update (update s.cell (lastCell .head L) (some p)) (.next p) none
  tail : t.lock.tail = some p
  mutex : t.lock.mutex = s.lock.mutex
  self : (t.proc p).lwWaiting = true ∧ (t.proc p).lwExclusive = decide (m = .exclusive)
  other : ∀ q, q ≠ p → (t.proc q).lwWaiting = (s.proc q).lwWaiting ∧
    (t.proc q).lwExclusive = (s.proc q).lwExclusive

theorem enqueued_of_empty (hhead : s.lock.head = none) : Enqueued s [] p m (s.enqueue p m) := by
  have heq : s.enqueue p m = { s.modify p fun _ => ⟨true, m = .exclusive, none⟩ with
      lock := { s.lock with head := some p, tail := some p } } := by
    simp [enqueue, State.modify, hhead]
  rw [heq]
  refine ⟨?_, rfl, rfl, by simp [State.modify], fun q hq => by simp [State.modify, hq]⟩
  funext k
  cases k with
  | head => rfl
  | next q =>
    by_cases hq : q = p
    · simp [cell, State.modify, hq]
    · simp [cell, State.modify, hq, lastCell]

theorem enqueued_of_tail (hhead : s.lock.head = some y)
    (htail : s.lock.tail = some z) (hzp : z ≠ p) :
    Enqueued s (X ++ [z]) p m (s.enqueue p m) := by
  have heq : s.enqueue p m = { (s.modify p fun _ => ⟨true, m = .exclusive, none⟩).setLink z
      (some p) with lock := { s.lock with tail := some p } } := by
    simp [enqueue, State.modify, setLink, hhead, htail]
  rw [heq]
  refine ⟨?_, rfl, rfl, by simp [State.modify, State.setLink, hzp.symm], ?_⟩
  · rw [lastCell_append_singleton]
    funext k
    cases k with
    | head => rfl
    | next q =>
      by_cases hq : q = p
      · simp [State.cell, State.modify, State.setLink, hq, hzp.symm]
      · by_cases hqz : q = z
        · subst hqz
          simp [State.cell, State.modify, State.setLink, hq]
        · simp [State.cell, State.modify, State.setLink, hq, hqz]
  · intro q hq
    by_cases hqz : q = z
    · subst hqz
      simp [State.modify, State.setLink, hq]
    · simp [State.modify, State.setLink, hq, hqz]

theorem Linked.enqueued (h : Linked s L K) (hp : p ∉ L) : Enqueued s L p m (s.enqueue p m) := by
  have hhead := h.head_eq
  rcases eq_nil_or_concat L with rfl | ⟨X, z, rfl⟩
  · exact enqueued_of_empty hhead
  · rw [concat_eq_append] at *
    have htail := h.tail z (by simp)
    cases hX : (X ++ [z]).head? with
    | none => simp at hX
    | some y => exact enqueued_of_tail (hhead.trans hX) htail (by rintro rfl; exact hp (by simp))

theorem Linked.enqueue (h : Linked s L K) (hpc : (s.backend p).pc = .enqueue m) :
    Linked ((s.enqueue p m).setBackend p ((s.backend p).goto (.adjust m))) (L ++ [p]) K := by
  obtain ⟨hpL, hpK⟩ := h.notMem_of_enlisted (by rw [hpc]; rfl)
  obtain ⟨hcell, htail, hmutex, hself, hproc⟩ := h.enqueued (m := m) hpL
  have hlocked : (s.backend p).pc.locked = true := by rw [hpc]; rfl
  have hother : ∀ q, q ≠ p → ((s.enqueue p m).setBackend p
      ((s.backend p).goto (.adjust m))).backend q = s.backend q := by
    intro q hq
    rw [setBackend_of_ne hq, enqueue_backend]
  have hK : ∀ q, ∀ x ∈ K q, x ≠ p := by
    rintro q x hx rfl
    exact hpK q hx
  refine ⟨?_, ?_, ?_, ?_, ?_, ?_, ?_, h.apart, ?_, ?_, ?_⟩
  · rw [setBackend_cell, hcell]
    have hqueue := h.queue
    rw [← append_nil L] at hqueue
    exact hqueue.append_at hpL
  · intro x hx
    rw [List.getLast?_concat] at hx
    exact hx ▸ htail
  · intro q
    -- the write goes to a cell of the queue or to `p`, and the chains have neither
    have hkeep : ChainFrom (s.enqueue p m).cell (s.backend q).pc.chain (K q) := by
      refine (h.chain q).congr ?_
      intro x hx
      have hxL := (h.chained q x hx).1
      have hlast : lastCell .head L ≠ .next x := by
        rcases lastCell_cases (.head : Cell P) L with ⟨_, heq⟩ | ⟨X, z, rfl, heq⟩
        · simp [heq]
        · rw [heq]
          rintro ⟨⟩
          exact hxL (by simp)
      rw [hcell, update_of_ne (by simpa using hK q x hx), update_of_ne hlast.symm]
    rw [setBackend_cell]
    by_cases hqp : q = p
    · rw [hqp, setBackend_self]
      rw [hqp, hpc] at hkeep
      exact hkeep
    · rw [hother q hqp]
      exact hkeep
  · intro q hq
    rw [setBackend_lock, hmutex]
    by_cases hqp : q = p
    · rw [hqp]
      exact h.mutex p hlocked
    · rw [hother q hqp] at hq
      exact h.mutex q hq
  · intro q
    by_cases hqp : q = p
    · rw [hqp, setBackend_self, Backend.goto_held]
      rcases h.held p with hheld | hidle
      · exact .inl hheld
      · rw [hpc] at hidle
        cases hidle
    · rw [hother q hqp]
      exact h.held q
  · intro x hx
    rw [setBackend_proc]
    by_cases hxp : x = p
    · rw [hxp, setBackend_self]
      exact ⟨hself.1, m, rfl, hself.2⟩
    · rw [hother x hxp, (hproc x hxp).1, (hproc x hxp).2]
      exact h.queued x (by simpa [hxp] using hx)
  · intro q x hx
    have hxp := hK q x hx
    rw [setBackend_proc, hother x hxp, (hproc x hxp).1]
    obtain ⟨hxL, hrest⟩ := h.chained q x hx
    exact ⟨by simp [hxL, hxp], hrest⟩
  · intro q k hq
    by_cases hqp : q = p
    · simp [hqp]
    · rw [hother q hqp] at hq
      exact mem_append_left _ (h.adjusting q k hq)
  · intro q hq
    simp
  · intro q c y x n hq
    by_cases hqp : q = p
    · rw [hqp, setBackend_self] at hq
      cases hq
    · -- nobody else is under the spinlock
      rw [hother q hqp] at hq
      exact absurd (h.eq_of_locked hlocked (by rw [hq]; rfl)) hqp

end

section

variable [DecidableEq P] {Y : List P}

theorem dequeue_cell (s : State P) (x : P) : (s.dequeue x).cell =
    update (update s.cell .head (s.cell (.next x))) (.next x) none := by
  funext k
  cases k with
  | head => simp [State.dequeue, State.setLink, State.modify, State.cell]
  | next q =>
    by_cases hq : q = x
    · simp [State.dequeue, State.setLink, State.modify, State.cell, hq]
    · simp [State.dequeue, State.setLink, State.modify, State.cell, hq]

theorem dequeue_waiting (s : State P) (x q : P) :
    ((s.dequeue x).proc q).lwWaiting = (s.proc q).lwWaiting := by
  by_cases hq : q = x
  · subst hq
    simp [State.dequeue, State.setLink, State.modify]
  · simp [State.dequeue, State.setLink, State.modify, hq]

theorem dequeue_exclusive (s : State P) (x q : P) :
    ((s.dequeue x).proc q).lwExclusive = (s.proc q).lwExclusive := by
  by_cases hq : q = x
  · subst hq
    simp [State.dequeue, State.setLink, State.modify]
  · simp [State.dequeue, State.setLink, State.modify, hq]

omit [DecidableEq P] in
theorem Linked.setCount (h : Linked s L K) (count : BitVec 64) : Linked (s.setCount count) L K :=
  ⟨h.queue, h.tail, h.chain, h.mutex, h.held, h.queued, h.chained, h.apart, h.adjusting, h.nonempty,
    h.walk⟩

theorem Linked.dequeue (h : Linked s L K) (hL : L = X ++ x :: Y) (hy : L.head? = some y)
    (hwaking : (s.backend p).pc.waking = true) (hc : (s.backend p).pc.enlisted = c.mode) :
    Linked ((s.dequeue x).setBackend p ((s.backend p).goto (.unlock c (some y)))) Y
      (update K p (X ++ [x])) := by
  subst hL
  have hlocked := Pc.locked_of_waking hwaking
  have hother : ∀ q, q ≠ p → ((s.dequeue x).setBackend p
      ((s.backend p).goto (.unlock c (some y)))).backend q = s.backend q := by
    intro q hq
    rw [setBackend_of_ne hq, dequeue_backend]
  have henl : ∀ q, (((s.dequeue x).setBackend p
      ((s.backend p).goto (.unlock c (some y)))).backend q).pc.enlisted =
        (s.backend q).pc.enlisted := by
    intro q
    by_cases hq : q = p
    · rw [hq, setBackend_self, hc]
      rfl
    · rw [hother q hq]
  -- nobody else is under the spinlock
  have halone : ∀ q, (((s.dequeue x).setBackend p
      ((s.backend p).goto (.unlock c (some y)))).backend q).pc.locked = true → q = p := by
    intro q hq
    by_contra hqp
    rw [hother q hqp] at hq
    exact hqp (h.eq_of_locked hlocked hq)
  have hcut := h.queue.cut
  rw [← dequeue_cell] at hcut
  have hsplit : ∀ z, z ∈ X ++ [x] → z ∈ X ++ x :: Y ∧ z ∉ Y := by
    intro z hz
    have hnodup := h.queue.nodup
    rw [append_cons] at hnodup ⊢
    exact ⟨mem_append_left _ hz, fun hzY => (nodup_append.mp hnodup).2.2 z hz z hzY rfl⟩
  have hY : ∀ z ∈ Y, z ∈ X ++ x :: Y := by
    intro z hz
    simp [hz]
  have hK : ∀ q z, z ∈ update K p (X ++ [x]) q → q = p ∧ z ∈ X ++ [x] ∨ q ≠ p ∧ z ∈ K q := by
    intro q z hz
    by_cases hq : q = p
    · subst hq
      rw [update_self] at hz
      exact .inl ⟨rfl, hz⟩
    · rw [update_of_ne hq] at hz
      exact .inr ⟨hq, hz⟩
  refine ⟨hcut.1, ?_, ?_, ?_, ?_, ?_, ?_, ?_, ?_, ?_, ?_⟩
  · intro z hz
    refine h.tail z ?_
    rw [append_cons, List.getLast?_append, hz]
    rfl
  · intro q
    rw [setBackend_cell]
    by_cases hq : q = p
    · subst hq
      have hstart : s.cell .head = some y := h.head_eq.trans hy
      rw [setBackend_self, update_self]
      exact hstart ▸ hcut.2
    · rw [hother q hq, update_of_ne hq]
      refine (h.chain q).congr ?_
      intro z hz
      have hzx : z ≠ x := by
        rintro rfl
        exact (h.chained q z hz).1 (by simp)
      rw [dequeue_cell, update_of_ne (by simpa using hzx), update_of_ne (by simp)]
  · intro q hq
    rw [halone q hq]
    exact h.mutex p hlocked
  · intro q
    by_cases hq : q = p
    · rw [hq, setBackend_self, Backend.goto_held]
      rcases h.held p with hheld | hidle
      · exact .inl hheld
      · rw [hidle] at hwaking
        cases hwaking
    · rw [hother q hq]
      exact h.held q
  · intro z hz
    rw [setBackend_proc, dequeue_waiting, dequeue_exclusive, henl]
    exact h.queued z (hY z hz)
  · intro q z hz
    rw [setBackend_proc, dequeue_waiting, henl]
    rcases hK q z hz with ⟨-, hz⟩ | ⟨-, hz⟩
    · obtain ⟨hzL, hzY⟩ := hsplit z hz
      obtain ⟨hwaiting, k, hk, -⟩ := h.queued z hzL
      exact ⟨hzY, hwaiting, by simp [hk]⟩
    · obtain ⟨hzL, hrest⟩ := h.chained q z hz
      exact ⟨fun hzY => hzL (hY z hzY), hrest⟩
  · intro q r z hq hr
    rcases hK q z hq with ⟨hqp, hq'⟩ | ⟨-, hq'⟩ <;> rcases hK r z hr with ⟨hrp, hr'⟩ | ⟨-, hr'⟩
    · rw [hqp, hrp]
    · exact absurd (hsplit z hq').1 (h.chained r z hr').1
    · exact absurd (hsplit z hr').1 (h.chained q z hq').1
    · exact h.apart q r z hq' hr'
  · intro q k hq
    rw [halone q (by rw [hq]; rfl), setBackend_self] at hq
    cases hq
  · intro q hq
    rw [halone q (Pc.locked_of_waking hq), setBackend_self] at hq
    cases hq
  · intro q c' z w n hq
    rw [halone q (by rw [hq]; rfl), setBackend_self] at hq
    cases hq

end

section Signal

variable [DecidableEq P] {s : State P}

theorem signal_cell (s : State P) (x : P) : (s.signal x).cell = update s.cell (.next x) none := by
  funext k
  cases k with
  | head => rfl
  | next q =>
    by_cases hq : q = x
    · simp [State.signal, State.modify, State.cell, hq]
    · simp [State.signal, State.modify, State.cell, hq]

theorem signal_of_ne (hq : q ≠ x) : (s.signal x).proc q = s.proc q :=
  update_of_ne hq ..

theorem signal_exclusive (s : State P) (x q : P) :
    ((s.signal x).proc q).lwExclusive = (s.proc q).lwExclusive := by
  by_cases hq : q = x
  · subst hq
    simp [State.signal, State.modify]
  · rw [signal_of_ne hq]

theorem Linked.signal (h : Linked s L K) (hpc : (s.backend p).pc = .wakeChain c (some x)) :
    ∃ K', Linked ((s.signal x).setBackend p
      ((s.backend p).goto (.wakeChain c (s.proc x).lwWaitLink))) L K' := by
  have hchain := h.chain p
  rw [hpc] at hchain
  obtain ⟨Z, hZ, hrest⟩ := ChainFrom.follow hchain
  have hnodup := (h.chain p).nodup
  rw [hZ] at hnodup
  have hxZ : x ∉ Z := (nodup_cons.mp hnodup).1
  have hxp : x ∈ K p := by simp [hZ]
  have hxL : x ∉ L := (h.chained p x hxp).1
  have hxK : ∀ q, q ≠ p → x ∉ K q := fun q hq hx => hq (h.apart q p x hx hxp)
  have hpc' : ∀ q, (((s.signal x).setBackend p
      ((s.backend p).goto (.wakeChain c (s.proc x).lwWaitLink))).backend q) = s.backend q ∨
        q = p := by
    intro q
    by_cases hq : q = p
    · exact .inr hq
    · exact .inl (setBackend_of_ne hq)
  have henl : ∀ q, (((s.signal x).setBackend p
      ((s.backend p).goto (.wakeChain c (s.proc x).lwWaitLink))).backend q).pc.enlisted =
        (s.backend q).pc.enlisted := by
    intro q
    rcases hpc' q with hq | rfl
    · rw [hq]
    · rw [setBackend_self, hpc]
      rfl
  have hK : ∀ q z, z ∈ update K p Z q → z ∈ K q ∧ z ≠ x := by
    intro q z hz
    by_cases hq : q = p
    · subst hq
      rw [update_self] at hz
      exact ⟨by simp [hZ, hz], by rintro rfl; exact hxZ hz⟩
    · rw [update_of_ne hq] at hz
      exact ⟨hz, by rintro rfl; exact hxK q hq hz⟩
  refine ⟨update K p Z, ?_, h.tail, ?_, ?_, ?_, ?_, ?_, ?_, ?_, ?_, ?_⟩
  · rw [setBackend_cell, signal_cell]
    exact h.queue.write_outside hxL none
  · intro q
    rw [setBackend_cell, signal_cell]
    by_cases hq : q = p
    · subst hq
      rw [setBackend_self, update_self]
      refine ChainFrom.congr hrest ?_
      intro z hz
      exact update_of_ne (by rintro ⟨⟩; exact hxZ hz) ..
    · rw [setBackend_of_ne hq, update_of_ne hq]
      refine (h.chain q).congr ?_
      intro z hz
      exact update_of_ne (by rintro ⟨⟩; exact hxK q hq hz) ..
  · intro q hq
    rcases hpc' q with heq | rfl
    · rw [heq] at hq
      exact h.mutex q hq
    · rw [setBackend_self] at hq
      cases hq
  · intro q
    rcases hpc' q with heq | rfl
    · rw [heq]
      exact h.held q
    · rw [setBackend_self, Backend.goto_held]
      rcases h.held q with hheld | hidle
      · exact .inl hheld
      · rw [hpc] at hidle
        cases hidle
  · intro z hz
    rw [setBackend_proc, signal_of_ne (by rintro rfl; exact hxL hz), henl]
    exact h.queued z hz
  · intro q z hz
    obtain ⟨hzK, hzx⟩ := hK q z hz
    rw [setBackend_proc, signal_of_ne hzx, henl]
    exact h.chained q z hzK
  · intro q r z hq hr
    exact h.apart q r z (hK q z hq).1 (hK r z hr).1
  · intro q k hq
    rcases hpc' q with heq | rfl
    · rw [heq] at hq
      exact h.adjusting q k hq
    · rw [setBackend_self] at hq
      cases hq
  · intro q hq
    rcases hpc' q with heq | rfl
    · rw [heq] at hq
      exact h.nonempty q hq
    · rw [setBackend_self] at hq
      cases hq
  · intro q c' y z n hq
    rcases hpc' q with heq | rfl
    · rw [heq] at hq
      obtain ⟨X, Y, hL, hhead, hlen, hreaders⟩ := h.walk q c' y z n hq
      refine ⟨X, Y, hL, hhead, hlen, ?_⟩
      intro v hv
      rw [setBackend_proc, signal_exclusive]
      exact hreaders v hv
    · rw [setBackend_self] at hq
      cases hq

end Signal

end Mosbench.LW
