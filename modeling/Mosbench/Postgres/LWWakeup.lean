import Mosbench.Postgres.LWExclusion

/-!
Nobody sleeps on a lightweight lock that is free: whoever takes back the last active unit looks
after the queue. With 2^31 + 1 writers behind one reader the count has wrapped around to a
positive number, and the reader leaves without waking anybody.
-/
namespace Mosbench.LW

open List Function Links Biased

def Quiet (s : State P) : Prop := ∀ p, (s.backend p).pc = .idle ∨ ∃ m, (s.backend p).pc = .sleep m

def joinedBy (e : State P × (P × Act)) : Option P :=
  match (e.1.backend e.2.1).pc with
  | .enqueue _ => some e.2.1
  | _ => none

theorem joinedBy_eq_none {s : State P} (h : ∀ m, (s.backend a.1).pc ≠ .enqueue m) :
    joinedBy (s, a) = none := by
  unfold joinedBy
  split
  · next hpc => exact absurd hpc (h _)
  · rfl

variable [DecidableEq P]

omit [DecidableEq P] in
theorem Flow.arrivals (h : Flow s a.1 L L') (harr : arrived = removed ++ L) :
    ∃ removed', arrived ++ (joinedBy (s, a)).toList = removed' ++ L' := by
  cases h with
  | same hpc => exact ⟨removed, by rw [joinedBy_eq_none hpc, harr]; simp⟩
  | joined hpc =>
    have hjoin : joinedBy (s, a) = some a.1 := by simp only [joinedBy, hpc]
    exact ⟨removed, by rw [hjoin, harr]; simp⟩
  | @left X Y hpc hL =>
    have hnone : joinedBy (s, a) = none := by
      refine joinedBy_eq_none ?_
      intro m hm
      rw [hm] at hpc
      cases hpc
    exact ⟨removed ++ X, by rw [hnone, harr, hL]; simp⟩

theorem linked_of_run {s₀ : State P} (h₀ : Initial s₀)
    (hrun : Transition.Run system (fun _ _ => True) s₀ tr s) :
    ∃ L K removed, Linked s L K ∧ tr.filterMap joinedBy = removed ++ L := by
  induction hrun with
  | nil => exact ⟨[], _, [], .of_initial h₀, rfl⟩
  | @snoc u t tr a hprev _ hstep ih =>
    obtain ⟨L, K, removed, hlinked, harr⟩ := ih
    obtain ⟨e, b, hm, rfl⟩ := move_of_step hstep
    obtain ⟨L', K', hlinked', hflow, -⟩ := hlinked.step hm
    obtain ⟨removed', harr'⟩ := hflow.arrivals harr
    refine ⟨L', K', removed', hlinked', ?_⟩
    rw [filterMap_append, ← harr']
    cases hjoin : joinedBy (_, a) <;> simp [hjoin]

theorem Linked.holder_of_quiet [Fintype P] {s : State P}
    (h : Linked s L K) (ha : Attended (view s L)) (hquiet : Quiet s) (hhead : s.lock.head ≠ none) :
    ∃ p m, Holds s p m := by
  rw [h.head_eq] at hhead
  obtain ⟨x, hx⟩ := Option.ne_none_iff_exists'.mp hhead
  have hxL := mem_of_head? hx
  obtain ⟨-, k, hk, -⟩ := h.queued x hxL
  have hwaits : (s.backend x).pc.waits = some k := by
    rcases hquiet x with hpc | ⟨m, hpc⟩ <;> rw [hpc] at hk ⊢ <;> exact hk
  obtain ⟨q, hq⟩ := ha.queue x k (h.role_of_mem hxL hwaits)
  -- a keeper that is not in the middle of a call is a holder
  have hactive : ((view s L).role q).active ≠ 0 := by
    rcases hq with hrole | herr
    · exact hrole
    · rw [view_errand] at herr
      rcases hquiet q with hpc | ⟨m, hpc⟩ <;> rw [hpc] at herr <;> exact absurd rfl herr
  cases hrole : (view s L).role q with
  | holder m => exact ⟨q, m, h.holds_iff.mpr hrole⟩
  | pending m =>
    rw [view_role, Backend.role] at hrole
    split at hrole
    · cases hrole
    · rcases hquiet q with hpc | ⟨k', hpc⟩ <;> rw [hpc] at hrole <;>
        simp only [Pc.role, Pc.waits] at hrole
      · cases hrole
      · split at hrole <;> cases hrole
  | out | queued m =>
    rw [hrole] at hactive
    exact absurd rfl hactive

/-- After any run, the queue is what is left of the arrivals when a prefix of them
is removed, and the next step keeps it, lets its process join at the end, or removes
a prefix. LWLockGetWakeChain gets past its busy check only with somebody queued. With
the processes in range, a lock that nobody holds has nobody asleep in its queue. -/
theorem queue_attended [Fintype P] {s₀ s : State P} {tr : List (State P × (P × Act))}
    (h₀ : Initial s₀) (hrun : Transition.Run system (fun _ _ => True) s₀ tr s) :
    (Fintype.card P < 2 ^ 31 → Quiet s → s.lock.head ≠ none → ∃ p m, Holds s p m) ∧
    (∃ L removed, Chain s.cell .head L ∧ tr.filterMap joinedBy = removed ++ L ∧
      ∀ a t, step s a = some t → ∃ L', Chain t.cell .head L' ∧
        (L' = L ∨ L' = L ++ [a.1] ∨ ∃ X, L = X ++ L')) ∧
    ∀ p c, (s.backend p).pc = .wakeHead c → s.lock.head ≠ none := by
  obtain ⟨L, K, removed, hlinked, harr⟩ := linked_of_run h₀ hrun
  refine ⟨?_, ⟨L, removed, hlinked.queue, harr, ?_⟩, ?_⟩
  · intro hcard hquiet hhead
    obtain ⟨M, J, hlinked', hsound⟩ := sound_of_reachable ⟨s₀, tr, h₀, hrun⟩
    exact hlinked'.holder_of_quiet (hsound.attended hcard) hquiet hhead
  · intro a t hstep
    obtain ⟨e, b, hm, rfl⟩ := move_of_step hstep
    obtain ⟨L', K', hlinked', hflow, -⟩ := hlinked.step hm
    refine ⟨L', hlinked'.queue, ?_⟩
    cases hflow with
    | same => exact Or.inl rfl
    | joined => exact Or.inr (Or.inl rfl)
    | @left X _ _ hL => exact Or.inr (Or.inr ⟨X, hL⟩)
  · intro p c hpc hhead
    have hne := hlinked.nonempty p (by rw [hpc]; rfl)
    rw [hlinked.head_eq, head?_eq_none_iff] at hhead
    exact hne hhead

/-- A writer holds the lock while a writer and a reader sleep. -/
theorem queue_attended_two_waiters :
    ∃ (s₀ s : State (Fin 3)) (tr : List (State (Fin 3) × (Fin 3 × Act))), Initial s₀ ∧
      Transition.Run system (fun _ _ => True) s₀ tr s ∧ Quiet s ∧ s.lock.head ≠ none ∧
        (∃ p m, Holds s p m) ∧
        (∃ L removed, Chain s.cell .head L ∧ tr.filterMap joinedBy = removed ++ L) ∧
        ∀ p c, (s.backend p).pc = .wakeHead c → s.lock.head ≠ none := by
  have hreach := Transition.exists_reachable (system (P := Fin 3)) (fun _ _ => True)
    (fun s => (s.backend 0).pc = .idle ∧ (s.backend 1).pc = .sleep .exclusive ∧
      (s.backend 2).pc = .sleep .shared ∧ s.lock.head ≠ none)
    [(0, .acquire .exclusive), (0, .run), (1, .acquire .exclusive), (1, .run), (1, .run),
      (1, .run), (1, .run), (1, .run), (1, .run), (2, .acquire .shared), (2, .run), (2, .run),
      (2, .run), (2, .run), (2, .run), (2, .run)] fresh_initial (by decide +kernel)
  obtain ⟨s, ⟨s₀, tr, h₀, hrun⟩, hzero, hone, htwo, hhead⟩ := hreach
  have hquiet : Quiet s := by
    intro p
    match p with
    | 0 => exact Or.inl hzero
    | 1 => exact Or.inr ⟨_, hone⟩
    | 2 => exact Or.inr ⟨_, htwo⟩
  obtain ⟨hheld, ⟨L, removed, hL, harr, -⟩, hpast⟩ := queue_attended h₀ hrun
  exact ⟨s₀, s, tr, h₀, hrun, hquiet, hhead, hheld (by decide) hquiet hhead,
    ⟨L, removed, hL, harr⟩, hpast⟩

section Crowd

open Transition

variable {s : State P} {count : BitVec 64} {mutex : Option P}

/-- The reader `r` holds the lock, everybody in `L` but perhaps `x` sleeps as a
writer, `x` is at `pc`, and nobody else uses the lock. -/
structure Crowd (s : State P) (r : P) (L : List P) (x : P) (pc : Pc P) (count : BitVec 64)
    (mutex : Option P) : Prop where
  count : s.lock.count = count
  mutex : s.lock.mutex = mutex
  linked : ∃ K, Linked s L K
  reader : (s.backend r).held = some .shared ∧ (s.backend r).pc = .idle
  self : (s.backend x).held = none ∧ (s.backend x).pc = pc
  asleep : ∀ y ∈ L, y ≠ x → (s.backend y).held = none ∧ (s.backend y).pc = .sleep .exclusive
  others : ∀ y, y ≠ r → y ∉ L → y ≠ x → (s.backend y).held = none ∧ (s.backend y).pc = .idle

section

variable (hs : Reachable system (fun _ _ => True) s)

include hs

theorem reach_step (hnext : next s a = some (e, b)) :
    Reachable system (fun _ _ => True) ((e.apply s a.1).setBackend a.1 b) := by
  refine hs.step (a := a) trivial ?_
  change (next s a).map _ = _
  rw [hnext]
  rfl

theorem reach_stay (h : Linked s L K)
    (hnext : next s a = some (e, b)) (he : e.stays = true) :
    ∃ t, Reachable system (fun _ _ => True) t ∧ Linked t L K ∧
      t.backend = Function.update s.backend a.1 b ∧
      t.lock.count = (e.apply s a.1).lock.count ∧ t.lock.mutex = (e.apply s a.1).lock.mutex := by
  refine ⟨_, reach_step hs hnext, h.stay (move_of_next (x := a.2) hnext) he, ?_, rfl, rfl⟩
  rw [← apply_backend (s := s) (p := a.1) e]
  rfl

theorem Crowd.run (h : Crowd s r L x pc count mutex) (hrx : r ≠ x)
    (hnext : next s (x, a) = some (e, (s.backend x).goto pc')) (he : e.stays = true)
    (hcount : (e.apply s x).lock.count = count') (hmutex : (e.apply s x).lock.mutex = mutex') :
    ∃ t, Reachable system (fun _ _ => True) t ∧ Crowd t r L x pc' count' mutex' := by
  obtain ⟨K, hlinked⟩ := h.linked
  obtain ⟨t, ht, hlinked', hbackend, hcount', hmutex'⟩ := reach_stay hs hlinked hnext he
  have hself : t.backend x = (s.backend x).goto pc' := by rw [hbackend, update_self]
  have hother : ∀ y, y ≠ x → t.backend y = s.backend y := by
    intro y hy
    rw [hbackend, update_of_ne hy]
  refine ⟨t, ht, hcount'.trans hcount, hmutex'.trans hmutex, ⟨K, hlinked'⟩, ?_, ?_, ?_, ?_⟩
  · rw [hother r hrx]
    exact h.reader
  · rw [hself]
    exact ⟨h.self.1, rfl⟩
  · intro y hy hyx
    rw [hother y hyx]
    exact h.asleep y hy hyx
  · intro y hyr hyL hyx
    rw [hother y hyx]
    exact h.others y hyr hyL hyx

end

theorem Crowd.enqueue (h : Crowd s r L x (.enqueue m) count mutex) (hrx : r ≠ x) :
    Crowd ((s.enqueue x m).setBackend x ((s.backend x).goto (.adjust m))) r (L ++ [x]) x
      (.adjust m) count mutex := by
  have hother : ∀ y, y ≠ x → ((s.enqueue x m).setBackend x
      ((s.backend x).goto (.adjust m))).backend y = s.backend y := by
    intro y hy
    rw [setBackend_of_ne hy, enqueue_backend]
  obtain ⟨K, hlinked⟩ := h.linked
  have hmem := (hlinked.notMem_of_enlisted (p := x) (by rw [h.self.2]; rfl)).1
  refine ⟨?_, ?_, ⟨K, hlinked.enqueue h.self.2⟩, ?_, ?_, ?_, ?_⟩
  · rw [setBackend_lock, enqueue_count]
    exact h.count
  · rw [setBackend_lock, (hlinked.enqueued hmem).mutex]
    exact h.mutex
  · rw [hother r hrx]
    exact h.reader
  · rw [setBackend_self]
    exact ⟨h.self.1, rfl⟩
  · intro y hy hyx
    rw [hother y hyx]
    exact h.asleep y (by simpa [hyx] using hy) hyx
  · intro y hyr hyL hyx
    rw [hother y hyx]
    exact h.others y hyr (by simpa [hyx] using hyL) hyx

theorem word_writer (k : ℕ) : word 1 k + bias .exclusive = word 2 (k + 1) := by
  rw [bias_eq]
  refine word_add_ofInt ?_
  simp only [Role.weight, Role.active, Role.waiting]
  omega

theorem word_waiter (k : ℕ) : word 2 (k + 1) + adjustment .exclusive = word 1 (k + 1) := by
  rw [adjustment_eq]
  refine word_add_ofInt ?_
  simp only [Role.weight, Role.active, Role.waiting]
  omega

theorem word_reader_left (k : ℕ) : word 1 k + -bias .shared = word 0 k := by
  rw [neg_bias_eq]
  refine word_add_ofInt ?_
  simp only [Role.weight, Role.active, Role.waiting]
  omega

theorem Crowd.fail (hs : Reachable system (fun _ _ => True) s)
    (h : Crowd s r L x .idle (word 1 k) none) (hrx : r ≠ x) (hk : k < 2 ^ 32) :
    ∃ t, Reachable system (fun _ _ => True) t ∧
      Crowd t r L x (.queueMutex .exclusive) (word 2 (k + 1)) none := by
  have hcall : next s (x, .acquire .exclusive) =
      some (.skip, (s.backend x).goto (.acquire .exclusive)) := by
    simp [next, h.self.1, h.self.2]
  obtain ⟨s₁, hs₁, h₁⟩ := h.run hs hrx hcall rfl h.count h.mutex
  have hbusy : mustwait .exclusive s₁.lock.count = true := by
    have hne : word 1 k ≠ 0#64 := by
      rw [Ne, word_eq_zero (by omega) hk]
      omega
    simpa [mustwait, unlockedValue, h₁.count] using hne
  have hfail : next s₁ (x, .run) = some (.update (bias .exclusive),
      (s₁.backend x).goto (.queueMutex .exclusive)) := by
    simp [next, runNext, h₁.self.2, hbusy]
  refine h₁.run hs₁ hrx hfail rfl ?_ ((setCount_mutex _ _).trans h₁.mutex)
  rw [apply_update_count, h₁.count, word_writer]

theorem Crowd.sleep (hs : Reachable system (fun _ _ => True) s)
    (h : Crowd s r L x (.queueMutex .exclusive) (word 2 (k + 1)) none) (hrx : r ≠ x) :
    ∃ t, Reachable system (fun _ _ => True) t ∧
      Crowd t r (L ++ [x]) x (.sleep .exclusive) (word 1 (k + 1)) none := by
  have hmutex : next s (x, .run) = some (.spinLockAcquire,
      (s.backend x).goto (.enqueue .exclusive)) := by
    simp [next, runNext, h.self.2, h.mutex]
  obtain ⟨s₁, hs₁, h₁⟩ := h.run hs hrx hmutex rfl h.count rfl
  have henqueue : next s₁ (x, .run) = some (.enqueue .exclusive,
      (s₁.backend x).goto (.adjust .exclusive)) := by
    simp [next, runNext, h₁.self.2]
  have hs₂ := reach_step hs₁ henqueue
  have h₂ := h₁.enqueue hrx
  rw [show Effect.apply s₁ x (.enqueue .exclusive) = s₁.enqueue x .exclusive from rfl] at hs₂
  generalize (s₁.enqueue x .exclusive).setBackend x _ = s₂ at h₂ hs₂
  have hactive : (s₂.lock.count + adjustment .exclusive) &&& activeMask ≠ 0#64 := by
    rw [h₂.count, word_waiter, activeMask, Ne, word_and_low_eq_zero]
    omega
  have hadjust : next s₂ (x, .run) = some (.update (adjustment .exclusive),
      (s₂.backend x).goto (.unlock (.acquire .exclusive) none)) := by
    simp [next, runNext, h₂.self.2, hactive]
  obtain ⟨s₃, hs₃, h₃⟩ := h₂.run hs₂ hrx hadjust rfl
    (by rw [apply_update_count, h₂.count, word_waiter]) ((setCount_mutex _ _).trans h₂.mutex)
  have hunlock : next s₃ (x, .run) = some (.spinLockRelease,
      (s₃.backend x).goto (.wakeChain (.acquire .exclusive) none)) := by
    simp [next, runNext, h₃.self.2]
  obtain ⟨s₄, hs₄, h₄⟩ := h₃.run hs₃ hrx hunlock rfl h₃.count rfl
  have hsleep : next s₄ (x, .run) = some (.skip, (s₄.backend x).goto (.sleep .exclusive)) := by
    simp [next, runNext, h₄.self.2]
  exact h₄.run hs₄ hrx hsleep rfl h₄.count h₄.mutex

structure Parked (s : State P) (r : P) (L : List P) : Prop where
  count : s.lock.count = word 1 L.length
  mutex : s.lock.mutex = none
  linked : ∃ K, Linked s L K
  reader : (s.backend r).held = some .shared ∧ (s.backend r).pc = .idle
  asleep : ∀ y ∈ L, (s.backend y).held = none ∧ (s.backend y).pc = .sleep .exclusive
  others : ∀ y, y ≠ r → y ∉ L → (s.backend y).held = none ∧ (s.backend y).pc = .idle

theorem Parked.join (hs : Reachable system (fun _ _ => True) s) (h : Parked s r L) (hxr : x ≠ r)
    (hx : x ∉ L) (hL : L.length < 2 ^ 32) :
    ∃ t, Reachable system (fun _ _ => True) t ∧ Parked t r (L ++ [x]) := by
  have hcrowd : Crowd s r L x .idle (word 1 L.length) none :=
    ⟨h.count, h.mutex, h.linked, h.reader, h.others x hxr hx, fun y hy _ => h.asleep y hy,
      fun y hyr hyL _ => h.others y hyr hyL⟩
  obtain ⟨s₁, hs₁, h₁⟩ := hcrowd.fail hs hxr.symm hL
  obtain ⟨t, ht, h₂⟩ := h₁.sleep hs₁ hxr.symm
  refine ⟨t, ht, by simpa using h₂.count, h₂.mutex, h₂.linked, h₂.reader, ?_, ?_⟩
  · intro y hy
    by_cases hyx : y = x
    · rw [hyx]
      exact h₂.self
    · exact h₂.asleep y hy hyx
  · intro y hyr hyL
    exact h₂.others y hyr hyL (by rintro rfl; exact hyL (by simp))

theorem Parked.join_all (hs : Reachable system (fun _ _ => True) s) (h : Parked s r [])
    (hr : r ∉ L) (hnodup : L.Nodup) (hL : L.length < 2 ^ 32) :
    ∃ t, Reachable system (fun _ _ => True) t ∧ Parked t r L := by
  induction L using reverseRecOn with
  | nil => exact ⟨s, hs, h⟩
  | append_singleton L x ih =>
    rw [length_append, length_singleton] at hL
    obtain ⟨hr', hxr⟩ : r ∉ L ∧ r ≠ x := by simpa using hr
    have hx : x ∉ L := by
      intro hmem
      exact (nodup_append.mp hnodup).2.2 x hmem x (by simp) rfl
    obtain ⟨t, ht, hparked⟩ := ih hr' (nodup_append.mp hnodup).1 (by omega)
    exact hparked.join ht hxr.symm hx (by omega)

theorem parked_start (r : P) : ∃ s, Reachable system (fun _ _ => True) s ∧ Parked s r [] := by
  have hs₀ : Reachable system (fun _ _ => True) (fresh : State P) := .of_initial fresh_initial
  have hcall : next (fresh : State P) (r, .acquire .shared) =
      some (.skip, ⟨none, false, .acquire .shared⟩) := rfl
  obtain ⟨s₁, hs₁, h₁, hbackend₁, hcount₁, hmutex₁⟩ :=
    reach_stay hs₀ (.of_initial fresh_initial) hcall rfl
  have hself : s₁.backend r = ⟨none, false, .acquire .shared⟩ := by
    rw [hbackend₁, update_self]
  have hzero : s₁.lock.count = 0#64 := hcount₁
  have hfree : mustwait .shared 0#64 = false := by decide
  have hrun : next s₁ (r, .run) = some (.update (bias .shared), ⟨some .shared, true, .idle⟩) := by
    simp [next, runNext, hself, hzero, hfree, Backend.got]
  obtain ⟨s₂, hs₂, h₂, hbackend₂, hcount₂, hmutex₂⟩ := reach_stay hs₁ h₁ hrun rfl
  refine ⟨s₂, hs₂, ?_, ?_, ⟨_, h₂⟩, ?_, by simp, ?_⟩
  · rw [hcount₂, apply_update_count, hzero]
    rfl
  · exact hmutex₂.trans ((setCount_mutex _ _).trans hmutex₁)
  · rw [hbackend₂, update_self]
    exact ⟨rfl, rfl⟩
  · intro y hyr _
    rw [hbackend₂, update_of_ne hyr, hbackend₁, update_of_ne hyr]
    exact ⟨rfl, rfl⟩

theorem Parked.leave (hs : Reachable system (fun _ _ => True) s) (h : Parked s r L) (hr : r ∉ L)
    (hL : (word 0 L.length).msb = false) :
    ∃ t, Reachable system (fun _ _ => True) t ∧ Quiet t ∧ t.lock.head = s.lock.head ∧
      ∀ p m, ¬ Holds t p m := by
  obtain ⟨K, hlinked⟩ := h.linked
  have hcall : next s (r, .release) =
      some (.skip, { s.backend r with held := none, pc := .release .shared }) := by
    simp [next, h.reader.1, h.reader.2]
  obtain ⟨s₁, hs₁, h₁, hbackend₁, hcount₁, -⟩ := reach_stay hs hlinked hcall rfl
  have hself : s₁.backend r = { s.backend r with held := none, pc := .release .shared } := by
    rw [hbackend₁, update_self]
  have hwake : mustwake .shared (s₁.lock.count + -bias .shared) = false := by
    rw [hcount₁, show (Effect.skip.apply s r).lock.count = _ from h.count, word_reader_left]
    exact hL
  have hrun : next s₁ (r, .run) = some (.update (-bias .shared), (s₁.backend r).goto .idle) := by
    simp [next, runNext, hself, hwake]
  obtain ⟨t, ht, h₂, hbackend₂, -, -⟩ := reach_stay hs₁ h₁ hrun rfl
  have hother : ∀ y, y ≠ r → t.backend y = s.backend y := by
    intro y hy
    rw [hbackend₂, update_of_ne hy, hbackend₁, update_of_ne hy]
  have hidle : ∀ y, y ∉ L → (t.backend y).held = none ∧ (t.backend y).pc = .idle := by
    intro y hyL
    by_cases hyr : y = r
    · rw [hyr, hbackend₂, update_self, hself]
      exact ⟨rfl, rfl⟩
    · rw [hother y hyr]
      exact h.others y hyr hyL
  have hasleep : ∀ y ∈ L, (t.backend y).held = none ∧ (t.backend y).pc = .sleep .exclusive := by
    intro y hy
    rw [hother y (by rintro rfl; exact hr hy)]
    exact h.asleep y hy
  refine ⟨t, ht, ?_, h₂.head_eq.trans hlinked.head_eq.symm, ?_⟩
  · intro y
    by_cases hy : y ∈ L
    · exact Or.inr ⟨_, (hasleep y hy).2⟩
    · exact Or.inl (hidle y hy).2
  · intro y m hholds
    by_cases hy : y ∈ L
    · rcases hholds with hheld | hpc | ⟨-, hqueued⟩
      · rw [(hasleep y hy).1] at hheld
        cases hheld
      · rw [(hasleep y hy).2] at hpc
        cases hpc
      · exact hqueued (h₂.queued_iff.mpr hy)
    · obtain ⟨hheld, hpc⟩ := hidle y hy
      simp [Holds, hheld, hpc, Pc.enlisted, Pc.waits] at hholds

end Crowd

/-- One reader and 2^31 + 1 writers: the reader's release leaves them all asleep. -/
theorem wakeup_lost_beyond_count : ∃ s : State (Option (Fin (2 ^ 31 + 1))),
      Transition.Reachable system (fun _ _ => True) s ∧ Quiet s ∧ s.lock.head ≠ none ∧
        ∀ p m, ¬ Holds s p m := by
  have hlength : ((finRange (2 ^ 31 + 1)).map some).length = 2 ^ 31 + 1 := by
    rw [length_map, length_finRange]
  have hmem : none ∉ (finRange (2 ^ 31 + 1)).map some := by simp
  have hnodup : ((finRange (2 ^ 31 + 1)).map some).Nodup :=
    (nodup_finRange _).map (Option.some_injective _)
  obtain ⟨s₀, hs₀, hstart⟩ := parked_start (none : Option (Fin (2 ^ 31 + 1)))
  generalize (finRange (2 ^ 31 + 1)).map some = L at hlength hmem hnodup
  obtain ⟨s, hs, hparked⟩ := hstart.join_all hs₀ hmem hnodup (by omega)
  have hpositive : (word 0 L.length).msb = false := by
    rw [hlength]
    decide
  obtain ⟨t, ht, hquiet, hhead, hnobody⟩ := hparked.leave hs hmem hpositive
  refine ⟨t, ht, hquiet, ?_, hnobody⟩
  obtain ⟨K, hlinked⟩ := hparked.linked
  rw [hhead, hlinked.head_eq]
  intro hnil
  rw [head?_eq_none_iff] at hnil
  rw [hnil] at hlength
  simp at hlength

end Mosbench.LW
