import Mosbench.Mparts.RpcClient

/-!
Who holds `oLock` (`Locked`), and which call has which id (`Owned`). Each invariant is stated
over the parts of the client's state that it is about, so that steps which do not touch them
keep it as it is.
-/
namespace Mosbench.Mparts.Client

open List Option Function

variable [DecidableEq C] {next : Pc V E}

abbrev Table (C : Type) := AList fun _ : ℕ => C

structure Locked (oLock : Option (Holder C)) (pc : C → Pc V E) (recv : Recv C V E) : Prop where
  call : ∀ c, oLock = some (.call c) ↔ (pc c).holds = true
  recv : oLock = some .recv ↔ recv.holds = true

section

variable {recv : Recv C V E}

theorem Locked.goto (h : Locked oLock pc recv) (hsame : next.holds = (pc c).holds) :
    Locked oLock (update pc c next) recv := by
  refine ⟨?_, h.recv⟩
  refine (forall_update_iff pc fun c' p => oLock = some (.call c') ↔ p.holds = true).mpr ⟨?_, ?_⟩
  · rw [hsame]
    exact h.call c
  · intro c' _
    exact h.call c'

theorem Locked.lock (h : Locked none pc recv) (hnext : next.holds = true) :
    Locked (some (.call c)) (update pc c next) recv := by
  constructor
  · refine (forall_update_iff pc fun c' p =>
      some (Holder.call c) = some (.call c') ↔ p.holds = true).mpr ⟨?_, ?_⟩
    · simp [hnext]
    · intro c' hne
      have hfree := (h.call c').not.mp (by simp)
      simp [hfree, hne.symm]
  · have hfree := h.recv.not.mp (by simp)
    simp [hfree]

theorem Locked.unlock (h : Locked oLock pc recv) (hheld : (pc c).holds = true)
    (hnext : next.holds = false) : Locked none (update pc c next) recv := by
  have hlock := (h.call c).mpr hheld
  subst hlock
  constructor
  · refine (forall_update_iff pc fun c' p =>
      none = some (Holder.call c') ↔ p.holds = true).mpr ⟨?_, ?_⟩
    · simp [hnext]
    · intro c' hne
      have hfree := (h.call c').not.mp (by simp [hne.symm])
      simp [hfree]
  · have hfree := h.recv.not.mp (by simp)
    simp [hfree]

omit [DecidableEq C]

theorem Locked.setRecv (h : Locked oLock pc recv) (hsame : recv'.holds = recv.holds) :
    Locked oLock pc recv' := ⟨h.call, hsame ▸ h.recv⟩

theorem Locked.recvLock (h : Locked none pc recv) (hnext : recv'.holds = true) :
    Locked (some .recv) pc recv' := by
  refine ⟨?_, by simp [hnext]⟩
  intro c
  have hfree := (h.call c).not.mp (by simp)
  simp [hfree]

theorem Locked.recvUnlock (h : Locked oLock pc recv) (hheld : recv.holds = true)
    (hnext : recv'.holds = false) : Locked none pc recv' := by
  have hlock := h.recv.mpr hheld
  subst hlock
  refine ⟨?_, by simp [hnext]⟩
  intro c
  have hfree := (h.call c).not.mp (by simp)
  simp [hfree]

end

theorem Moves.holds (h : Moves pc next) : next.holds = pc.holds := by
  cases h <;> rfl

theorem Locks.holds (h : Locks pc next) : next.holds = true := by
  cases h <;> rfl

theorem Unlocks.holds (h : Unlocks pc next) : pc.holds = true ∧ next.holds = false := by
  cases h with
  | registered | deleted => exact ⟨rfl, rfl⟩
  | interrupt hheld => exact ⟨hheld, rfl⟩

theorem Locked.step {s : State C V E} (h : Locked s.oLock s.pc s.recv) (htrans : Trans s t) :
    Locked t.oLock t.pc t.recv := by
  cases htrans with
  | move hmove => exact h.goto hmove.holds
  | lock hfree hlock => exact Locked.lock (hfree ▸ h) hlock.holds
  | unlock hunlock => exact h.unlock hunlock.holds.1 hunlock.holds.2
  | refuse hpc => exact h.unlock (by rw [hpc]; rfl) rfl
  | register hpc | put hpc | read hpc | take hpc | delete hpc | closeRead hpc | closeWrite hpc =>
    exact h.goto (by rw [hpc]; rfl)
  | load hrecv | pop hrecv | discard hrecv | deliver hrecv | wake hrecv | lose hrecv
  | fill hrecv | fillWake hrecv | clear hrecv => exact h.setRecv (by rw [hrecv]; rfl)
  | recvLock hrecv hfree | lockLost hrecv hfree => exact Locked.recvLock (hfree ▸ h) rfl
  | crash hrecv | release hrecv | stop hrecv => exact h.recvUnlock (by rw [hrecv]; rfl) rfl
  | close | send | sendEnds | answer => exact h

def Pc.rid : Pc V E → Option ℕ
  | .registered rid | .putting rid | .waiting rid | .woken rid => some rid
  | .leaving rid _ | .relocked rid _ => some rid
  | _ => none

def Pc.early : Pc V E → Bool
  | .start | .piped | .locked => true
  | _ => false

/-- A place with no new id, and not before the registration if `pc` is not. -/
def Pc.Follows (next pc : Pc V E) : Prop :=
  (∀ r, next.rid = some r → pc.rid = some r) ∧ (next.early = true → pc.early = true)

def SendQ.requests : SendQ C → List (Request C)
  | .full (some req) => [req]
  | _ => []

def State.requests (s : State C V E) : List (Request C) :=
  s.sendQ.requests ++ s.toServer ++ s.produced.map Prod.fst

/-- Ids are given to one call each, and everything that carries an id belongs to that call. -/
structure Owned (rid : ℕ) (owner : ℕ → Option C) (pc : C → Pc V E)
    (outstanding : Option (Table C)) (requests : List (Request C)) : Prop where
  lt : ∀ {r c}, owner r = some c → r < rid
  inj : ∀ {r r' c}, owner r = some c → owner r' = some c → r = r'
  early : ∀ c, (pc c).early = true → ∀ r, owner r ≠ some c
  pc : ∀ c r, (pc c).rid = some r → owner r = some c
  table : ∀ {table r c}, outstanding = some table → table.lookup r = some c → owner r = some c
  requests : ∀ req ∈ requests, owner req.rid = some req.caller

section

variable {pc : C → Pc V E}
  {requests : List (Request C)}

theorem Owned.goto (h : Owned rid owner pc outstanding requests) (hnext : next.Follows (pc c)) :
    Owned rid owner (update pc c next) outstanding requests where
  lt := h.lt
  inj := h.inj
  early := (forall_update_iff pc fun c' p => p.early = true → ∀ r, owner r ≠ some c').mpr
    ⟨fun he => h.early c (hnext.2 he), fun c' _ => h.early c'⟩
  pc := (forall_update_iff pc fun c' p => ∀ r, p.rid = some r → owner r = some c').mpr
    ⟨fun r hr => h.pc c r (hnext.1 r hr), fun c' _ => h.pc c'⟩
  table := h.table
  requests := h.requests

theorem Owned.register {table : Table C} (h : Owned rid owner pc (some table) requests)
    (hpc : pc c = .locked) :
    Owned (rid + 1) (update owner rid (some c)) (update pc c (.registered rid))
      (some (table.insert rid c)) requests := by
  have hearly : ∀ r, owner r ≠ some c := h.early c (by rw [hpc]; rfl)
  have hcases : ∀ {r c'}, update owner rid (some c) r = some c' →
      (r = rid ∧ c' = c) ∨ (r ≠ rid ∧ owner r = some c') := by
    intro r c' howner
    by_cases hr : r = rid
    · rw [hr, update_self, some.injEq] at howner
      exact .inl ⟨hr, howner.symm⟩
    · rw [update_of_ne hr] at howner
      exact .inr ⟨hr, howner⟩
  have hkeep : ∀ {r c'}, owner r = some c' → update owner rid (some c) r = some c' := by
    intro r c' howner
    have hr : r ≠ rid := Nat.ne_of_lt (h.lt howner)
    rw [update_of_ne hr]
    exact howner
  constructor
  · intro r c' howner
    rcases hcases howner with ⟨rfl, -⟩ | ⟨-, howner⟩
    · exact Nat.lt_succ_self r
    · exact Nat.lt_succ_of_lt (h.lt howner)
  · intro r r' c' howner howner'
    rcases hcases howner with ⟨hr, hc⟩ | ⟨-, hold⟩
    · rcases hcases howner' with ⟨hr', -⟩ | ⟨-, hold'⟩
      · rw [hr, hr']
      · exact absurd (hc ▸ hold') (hearly r')
    · rcases hcases howner' with ⟨-, hc'⟩ | ⟨-, hold'⟩
      · exact absurd (hc' ▸ hold) (hearly r)
      · exact h.inj hold hold'
  · refine (forall_update_iff pc fun c' p => p.early = true → ∀ r,
      update owner rid (some c) r ≠ some c').mpr ⟨by simp [Pc.early], ?_⟩
    intro c' hne he r howner
    rcases hcases howner with ⟨-, rfl⟩ | ⟨-, howner⟩
    · exact hne rfl
    · exact h.early c' he r howner
  · refine (forall_update_iff pc fun c' p => ∀ r, p.rid = some r →
      update owner rid (some c) r = some c').mpr ⟨?_, ?_⟩
    · intro r hr
      rw [← some.inj hr]
      exact update_self ..
    · intro c' _ r hr
      exact hkeep (h.pc c' r hr)
  · intro table' r c' htable hlookup
    rw [← some.inj htable] at hlookup
    by_cases hr : r = rid
    · rw [hr, AList.lookup_insert, some.injEq] at hlookup
      rw [hr, ← hlookup]
      exact update_self ..
    · rw [AList.lookup_insert_ne hr] at hlookup
      exact hkeep (h.table rfl hlookup)
  · intro req hreq
    exact hkeep (h.requests req hreq)

omit [DecidableEq C]

theorem Owned.mono (h : Owned rid owner pc outstanding requests)
    (htable : ∀ {table' r c}, outstanding' = some table' → table'.lookup r = some c →
      ∃ table, outstanding = some table ∧ table.lookup r = some c)
    (hrequests : ∀ req ∈ requests', req ∈ requests ∨ owner req.rid = some req.caller) :
    Owned rid owner pc outstanding' requests' where
  lt := h.lt
  inj := h.inj
  early := h.early
  pc := h.pc
  table := by
    intro table' r c houtstanding hlookup
    obtain ⟨table, htable, hlookup⟩ := htable houtstanding hlookup
    exact h.table htable hlookup
  requests := by
    intro req hreq
    rcases hrequests req hreq with hreq | hreq
    · exact h.requests req hreq
    · exact hreq

theorem Owned.mono_requests (h : Owned rid owner pc outstanding requests)
    (hrequests : ∀ req ∈ requests', req ∈ requests ∨ owner req.rid = some req.caller) :
    Owned rid owner pc outstanding requests' :=
  h.mono (fun htable hlookup => ⟨_, htable, hlookup⟩) hrequests

theorem Owned.succ (h : Owned rid owner pc outstanding requests) :
    Owned (rid + 1) owner pc outstanding requests :=
  ⟨fun howner => Nat.lt_succ_of_lt (h.lt howner), h.inj, h.early, h.pc, h.table, h.requests⟩

end

omit [DecidableEq C] in
theorem lookup_erase_eq_some {table : Table C}
    (h : (table.erase r).lookup r' = some c) : r' ≠ r ∧ table.lookup r' = some c := by
  by_cases heq : r' = r
  · rw [heq, AList.lookup_erase] at h
    cases h
  · rw [AList.lookup_erase_ne heq] at h
    exact ⟨heq, h⟩

theorem Moves.follows (h : Moves pc next) : next.Follows pc := by
  cases h <;> simp [Pc.Follows, Pc.rid, Pc.early]

theorem Locks.follows (h : Locks pc next) : next.Follows pc := by
  cases h <;> simp [Pc.Follows, Pc.rid, Pc.early]

theorem Unlocks.follows (h : Unlocks pc next) : next.Follows pc := by
  cases h <;> simp [Pc.Follows, Pc.rid, Pc.early]

theorem Owned.step {s : State C V E} (h : Owned s.rid s.owner s.pc s.outstanding s.requests)
    (htrans : Trans s t) : Owned t.rid t.owner t.pc t.outstanding t.requests := by
  cases htrans with
  | move hmove => exact h.goto hmove.follows
  | lock _ hlock => exact h.goto hlock.follows
  | unlock hunlock => exact h.goto hunlock.follows
  | refuse hpc => exact h.succ.goto ⟨by simp [Pc.rid], by simp [Pc.early]⟩
  | register hpc htable => exact Owned.register (htable ▸ h) hpc
  | @put c rid hpc =>
    have howner : s.owner rid = some c := h.pc c rid (by rw [hpc]; rfl)
    refine Owned.goto (h.mono_requests ?_) (by rw [hpc]; exact ⟨fun r hr => hr, by simp [Pc.early]⟩)
    intro req hreq
    rcases mem_append.mp hreq with hreq | hreq
    · rcases mem_append.mp hreq with hreq | hreq
      · rw [mem_singleton.mp hreq]
        exact .inr howner
      · exact .inl (mem_append_left _ (mem_append_right _ hreq))
    · exact .inl (mem_append_right _ hreq)
  | read hpc | take hpc => exact h.goto (by rw [hpc]; exact ⟨fun r hr => hr, by simp [Pc.early]⟩)
  | delete hpc =>
    refine Owned.goto (h.mono ?_ fun req hreq => .inl hreq) ⟨by simp [Pc.rid], by simp [Pc.early]⟩
    intro table' r c houtstanding hlookup
    obtain ⟨table, htable, rfl⟩ := map_eq_some_iff.mp houtstanding
    exact ⟨table, htable, (lookup_erase_eq_some hlookup).2⟩
  | closeRead hpc | closeWrite hpc => exact h.goto ⟨by simp [Pc.rid], by simp [Pc.early]⟩
  | load | recvLock | crash | discard | deliver | wake | release | lose | lockLost | fill
  | fillWake | stop => exact h
  | pop _ htable _ =>
    refine h.mono ?_ fun req hreq => .inl hreq
    intro table' r c houtstanding hlookup
    rw [← some.inj houtstanding] at hlookup
    exact ⟨_, htable, (lookup_erase_eq_some hlookup).2⟩
  | clear => exact h.mono (fun houtstanding => by cases houtstanding) fun req hreq => .inl hreq
  | close =>
    refine h.mono_requests fun req hreq => .inl ?_
    simp only [State.requests, SendQ.requests, nil_append, mem_append] at hreq ⊢
    tauto
  | send hfull =>
    refine h.mono_requests fun req hreq => .inl ?_
    simp only [State.requests, hfull, SendQ.requests, nil_append, mem_append,
      mem_singleton] at hreq ⊢
    tauto
  | sendEnds hq =>
    refine h.mono_requests fun req hreq => .inl ?_
    rcases hq with rfl | rfl <;>
    · simp only [State.requests, SendQ.requests, nil_append, mem_append] at hreq ⊢
      tauto
  | @answer i req' res hmem =>
    refine h.mono_requests fun req hreq => .inl ?_
    have hkept : req ∈ s.toServer.eraseIdx i → req ∈ s.toServer := mem_of_mem_eraseIdx
    simp only [State.requests, map_append, map_singleton, mem_append, mem_singleton] at hreq ⊢
    rcases hreq with (hreq | hreq) | hreq | rfl
    · exact .inl (.inl hreq)
    · exact .inl (.inr (hkept hreq))
    · exact .inr hreq
    · exact .inl (.inr hmem)

end Mosbench.Mparts.Client
