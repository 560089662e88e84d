import Mosbench.Mparts.RpcOwners

/-!
Replies reach their own calls: which calls the receive loop can still write to (`Separate`),
where results come from (`Valued`), and that no reply is delivered twice (`Once`).
-/
namespace Mosbench.Mparts.Client

open List Option Function Transition

variable [DecidableEq C] {next : Pc V E}

def Pc.past : Pc V E → Bool
  | .deleted _ | .closing _ | .halfClosed _ => true
  | _ => false

/-- Nothing is registered or closed by the call any more, apart from the second end. -/
def Pc.late : Pc V E → Bool
  | .halfClosed _ | .done _ => true
  | _ => false

def Gone (outstanding : Option (Table C)) (recv : Recv C V E) (c : C) : Prop :=
  (∀ table r, outstanding = some table → table.lookup r ≠ some c) ∧ c ∉ recv.pending

structure Separate (pc : C → Pc V E) (outstanding : Option (Table C)) (recv : Recv C V E)
    (prClosed pwClosed : C → Bool) : Prop where
  past : ∀ c, (pc c).past = true → Gone outstanding recv c
  closed : ∀ c, prClosed c = true ∨ pwClosed c = true → Gone outstanding recv c ∧ (pc c).late = true

section

variable {recv : Recv C V E}

theorem Separate.goto (h : Separate pc outstanding recv prClosed pwClosed)
    (hpast : next.past = true → (pc c).past = true)
    (hlate : (pc c).late = true → next.late = true) :
    Separate (update pc c next) outstanding recv prClosed pwClosed where
  past := (forall_update_iff pc fun c' p => p.past = true → Gone outstanding recv c').mpr
    ⟨fun hnext => h.past c (hpast hnext), fun c' _ => h.past c'⟩
  closed := (forall_update_iff pc fun c' p => prClosed c' = true ∨ pwClosed c' = true →
      Gone outstanding recv c' ∧ p.late = true).mpr
    ⟨fun hclosed => ⟨(h.closed c hclosed).1, hlate (h.closed c hclosed).2⟩, fun c' _ => h.closed c'⟩

theorem Separate.close (h : Separate pc outstanding recv prClosed pwClosed)
    (hpast : (pc c).past = true) (hlate : next.late = true)
    (hclosed : ∀ c', c' ≠ c → prClosed' c' = prClosed c' ∧ pwClosed' c' = pwClosed c') :
    Separate (update pc c next) outstanding recv prClosed' pwClosed' where
  past := (forall_update_iff pc fun c' p => p.past = true → Gone outstanding recv c').mpr
    ⟨fun _ => h.past c hpast, fun c' _ => h.past c'⟩
  closed := by
    refine (forall_update_iff pc fun c' p => prClosed' c' = true ∨ pwClosed' c' = true →
      Gone outstanding recv c' ∧ p.late = true).mpr ⟨fun _ => ⟨h.past c hpast, hlate⟩, ?_⟩
    intro c' hne
    rw [(hclosed c' hne).1, (hclosed c' hne).2]
    exact h.closed c'

omit [DecidableEq C]

theorem Separate.mono (h : Separate pc outstanding recv prClosed pwClosed)
    (hgone : ∀ c, Gone outstanding recv c → Gone outstanding' recv' c) :
    Separate pc outstanding' recv' prClosed pwClosed :=
  ⟨fun c hc => hgone c (h.past c hc), fun c hc => ⟨hgone c (h.closed c hc).1, (h.closed c hc).2⟩⟩

theorem Separate.setRecv (h : Separate pc outstanding recv prClosed pwClosed)
    (hpending : ∀ c ∈ recv'.pending, c ∈ recv.pending) :
    Separate pc outstanding recv' prClosed pwClosed :=
  h.mono fun _ hgone => ⟨hgone.1, fun hmem => hgone.2 (hpending _ hmem)⟩

theorem mem_values (h : c ∈ values outstanding) :
    ∃ table r, outstanding = some table ∧ table.lookup r = some c := by
  cases outstanding with
  | none => cases h
  | some table =>
    obtain ⟨⟨r, c'⟩, hentry, rfl⟩ := mem_map.mp h
    exact ⟨table, r, rfl, AList.mem_lookup_iff.mpr hentry⟩

theorem Recv.pending_eq_nil (h : recv.holds = false) : recv.pending = [] := by
  cases recv <;> first | rfl | cases h

end

theorem Separate.register {pc : C → Pc V E}
    (h : Separate pc (some table) recv prClosed pwClosed) (hpc : pc c = .locked) :
    Separate (update pc c (.registered rid)) (some (table.insert rid c)) recv prClosed
      pwClosed := by
  have hgone : ∀ c', c' ≠ c → Gone (some table) recv c' → Gone (some (table.insert rid c)) recv c' := by
    intro c' hne hgone
    refine ⟨?_, hgone.2⟩
    intro table' r htable hlookup
    rw [← some.inj htable] at hlookup
    by_cases hr : r = rid
    · rw [hr, AList.lookup_insert, some.injEq] at hlookup
      exact hne hlookup.symm
    · rw [AList.lookup_insert_ne hr] at hlookup
      exact hgone.1 table r rfl hlookup
  constructor
  · refine (forall_update_iff pc fun c' p => p.past = true →
      Gone (some (table.insert rid c)) recv c').mpr ⟨by simp [Pc.past], ?_⟩
    intro c' hne hpast
    exact hgone c' hne (h.past c' hpast)
  · intro c' hclosed
    obtain ⟨hold, hlate⟩ := h.closed c' hclosed
    have hne : c' ≠ c := by
      rintro rfl
      rw [hpc] at hlate
      cases hlate
    rw [update_of_ne hne]
    exact ⟨hgone c' hne hold, hlate⟩

variable {s : State C V E}

theorem Separate.delete (h : Separate s.pc s.outstanding s.recv s.prClosed s.pwClosed)
    (hlocked : Locked s.oLock s.pc s.recv)
    (howned : Owned s.rid s.owner s.pc s.outstanding s.requests) (hpc : s.pc c = .relocked rid out) :
    Separate (update s.pc c (.deleted out)) (s.outstanding.map (AList.erase rid)) s.recv
      s.prClosed s.pwClosed := by
  have hlock : s.oLock = some (.call c) := (hlocked.call c).mpr (by rw [hpc]; rfl)
  have hfree : s.recv.holds = false := by
    have hnot := hlocked.recv.not.mp (by simp [hlock])
    simpa using hnot
  have hgone : Gone (s.outstanding.map (AList.erase rid)) s.recv c := by
    refine ⟨?_, by simp [Recv.pending_eq_nil hfree]⟩
    intro table' r htable' hlookup
    obtain ⟨table, htable, rfl⟩ := map_eq_some_iff.mp htable'
    obtain ⟨hne, hold⟩ := lookup_erase_eq_some hlookup
    exact hne (howned.inj (howned.table htable hold) (howned.pc c rid (by rw [hpc]; rfl)))
  have hothers : ∀ c', Gone s.outstanding s.recv c' →
      Gone (s.outstanding.map (AList.erase rid)) s.recv c' := by
    intro c' hold
    refine ⟨?_, hold.2⟩
    intro table' r htable' hlookup
    obtain ⟨table, htable, rfl⟩ := map_eq_some_iff.mp htable'
    exact hold.1 table r htable (lookup_erase_eq_some hlookup).2
  constructor
  · exact (forall_update_iff s.pc fun c' p => p.past = true → Gone _ s.recv c').mpr
      ⟨fun _ => hgone, fun c' _ hpast => hothers c' (h.past c' hpast)⟩
  · intro c' hclosed
    obtain ⟨hold, hlate⟩ := h.closed c' hclosed
    have hne : c' ≠ c := by
      rintro rfl
      rw [hpc] at hlate
      cases hlate
    rw [update_of_ne hne]
    exact ⟨hothers c' hold, hlate⟩

variable {pc : Pc V E}

theorem Moves.past (h : Moves pc next) :
    (next.past = true → pc.past = true) ∧ (pc.late = true → next.late = true) := by
  cases h <;> simp [Pc.past, Pc.late]

theorem Locks.past (h : Locks pc next) :
    (next.past = true → pc.past = true) ∧ (pc.late = true → next.late = true) := by
  cases h <;> simp [Pc.past, Pc.late]

theorem Unlocks.past (h : Unlocks pc next) :
    (next.past = true → pc.past = true) ∧ (pc.late = true → next.late = true) := by
  cases h <;> simp [Pc.past, Pc.late]

theorem Separate.step (h : Separate s.pc s.outstanding s.recv s.prClosed s.pwClosed)
    (hlocked : Locked s.oLock s.pc s.recv)
    (howned : Owned s.rid s.owner s.pc s.outstanding s.requests) (htrans : Trans s t) :
    Separate t.pc t.outstanding t.recv t.prClosed t.pwClosed := by
  cases htrans with
  | move hmove => exact h.goto hmove.past.1 hmove.past.2
  | lock _ hlock => exact h.goto hlock.past.1 hlock.past.2
  | unlock hunlock => exact h.goto hunlock.past.1 hunlock.past.2
  | refuse hpc => exact h.goto (by simp [Pc.past]) (by simp [Pc.late])
  | register hpc htable => exact Separate.register (htable ▸ h) hpc
  | put hpc | read hpc | take hpc => exact h.goto (by simp [Pc.past]) (by simp [hpc, Pc.late])
  | delete hpc => exact h.delete hlocked howned hpc
  | closeRead hpc =>
    exact h.close (by simp [hpc, Pc.past]) rfl fun c' hne => ⟨update_of_ne hne .., rfl⟩
  | closeWrite hpc =>
    exact h.close (by simp [hpc, Pc.past]) rfl fun c' hne => ⟨rfl, update_of_ne hne ..⟩
  | load | recvLock | crash | discard | wake | release | lose | stop =>
    exact h.setRecv (by simp [State.setRecv, Recv.pending])
  | pop _ htable hlookup =>
    refine h.mono fun c' hgone => ⟨?_, ?_⟩
    · intro table' r htable' hlookup'
      rw [← some.inj htable'] at hlookup'
      exact hgone.1 _ r htable (lookup_erase_eq_some hlookup').2
    · intro hmem
      rw [mem_singleton.mp hmem] at hgone
      exact hgone.1 _ _ htable hlookup
  | deliver hrecv | fill hrecv => exact h.setRecv (by simp [State.setRecv, Recv.pending, hrecv])
  | lockLost =>
    refine h.mono fun c' hgone => ⟨hgone.1, ?_⟩
    intro hmem
    obtain ⟨table, r, htable, hlookup⟩ := mem_values hmem
    exact hgone.1 table r htable hlookup
  | fillWake hrecv =>
    refine h.setRecv fun c' hc' => ?_
    rw [hrecv]
    exact mem_cons_of_mem _ hc'
  | clear hrecv =>
    refine h.mono fun c' hgone => ⟨?_, by simp [State.setRecv, Recv.pending]⟩
    intro table r htable
    cases htable
  | close | send | sendEnds | answer => exact h

def Pc.out : Pc V E → Option (Outcome V E)
  | .leaving _ out | .relocked _ out => some out
  | .deleted out | .closing out | .halfClosed out | .done out => some out
  | _ => none

def Recv.reply : Recv C V E → Option (ℕ × Except E V)
  | .loaded rid res | .locked rid res => some (rid, res)
  | _ => none

def Produced (produced : List (Request C × Except E V)) (c : C) (v : V) : Prop :=
  ∃ r, (⟨r, c⟩, .ok v) ∈ produced

structure Valued (produced : List (Request C × Except E V)) (fromServer : List (ℕ × Except E V))
    (recv : Recv C V E) (cell : C → Option (Except E V)) (pc : C → Pc V E) : Prop where
  reply : ∀ p ∈ fromServer, ∃ c, (⟨p.1, c⟩, p.2) ∈ produced
  loaded : ∀ p, recv.reply = some p → ∃ c, (⟨p.1, c⟩, p.2) ∈ produced
  found : ∀ {r c res}, recv = .found r c res → (⟨r, c⟩, res) ∈ produced
  cell : ∀ c v, cell c = some (.ok v) → Produced produced c v
  out : ∀ c v, (pc c).out = some (.got (.ok v)) → Produced produced c v

section

variable {cell : C → Option (Except E V)} {pc : C → Pc V E}

theorem Valued.goto (h : Valued produced fromServer recv cell pc)
    (hout : ∀ v, next.out = some (.got (.ok v)) → Produced produced c v) :
    Valued produced fromServer recv cell (update pc c next) :=
  ⟨h.reply, h.loaded, h.found, h.cell,
    (forall_update_iff pc fun c' p => ∀ v, p.out = some (.got (.ok v)) →
      Produced produced c' v).mpr ⟨hout, fun c' _ => h.out c'⟩⟩

theorem Valued.setCell (h : Valued produced fromServer recv cell pc)
    (hres : ∀ v, res = .ok v → Produced produced c v) :
    Valued produced fromServer recv (update cell c (some res)) pc :=
  ⟨h.reply, h.loaded, h.found,
    (forall_update_iff cell fun c' p => ∀ v, p = some (.ok v) → Produced produced c' v).mpr
      ⟨fun v hv => hres v (some.inj hv), fun c' _ => h.cell c'⟩, h.out⟩

omit [DecidableEq C]

theorem Valued.setRecv (h : Valued produced fromServer recv cell pc) (hreply : recv'.reply = none)
    (hfound : ∀ {r c res}, recv' ≠ .found r c res) : Valued produced fromServer recv' cell pc :=
  ⟨h.reply, fun p hp => (by rw [hreply] at hp; cases hp), fun hrecv => absurd hrecv hfound, h.cell,
    h.out⟩

theorem Valued.mono (h : Valued produced fromServer recv cell pc)
    (hsub : ∀ p ∈ produced, p ∈ produced')
    (hreply : ∀ p ∈ fromServer', p ∈ fromServer ∨ ∃ c, (⟨p.1, c⟩, p.2) ∈ produced') :
    Valued produced' fromServer' recv cell pc where
  reply := by
    intro p hp
    rcases hreply p hp with hp | hp
    · obtain ⟨c, hc⟩ := h.reply p hp
      exact ⟨c, hsub _ hc⟩
    · exact hp
  loaded := by
    intro p hp
    obtain ⟨c, hc⟩ := h.loaded p hp
    exact ⟨c, hsub _ hc⟩
  found := fun hrecv => hsub _ (h.found hrecv)
  cell := by
    intro c v hv
    obtain ⟨r, hr⟩ := h.cell c v hv
    exact ⟨r, hsub _ hr⟩
  out := by
    intro c v hv
    obtain ⟨r, hr⟩ := h.out c v hv
    exact ⟨r, hsub _ hr⟩

end

theorem Moves.out (h : Moves pc next) (v : V) : next.out ≠ some (.got (.ok v)) := by
  cases h <;> simp [Pc.out]

theorem Locks.out (h : Locks pc next) : next.out = pc.out := by
  cases h <;> rfl

theorem Unlocks.out (h : Unlocks pc next) (v : V)
    (hout : next.out = some (.got (.ok v))) : pc.out = some (.got (.ok v)) := by
  cases h with
  | registered | interrupt => cases hout
  | deleted => exact hout

theorem outcome_eq_got (h : outcome cell = .got res) :
    cell = some res := by
  cases cell with
  | none => cases h
  | some res' => rw [Outcome.got.inj h]

omit [DecidableEq C] in
theorem mem_requests_of_produced (hp : p ∈ s.produced) : p.1 ∈ s.requests :=
  mem_append_right _ (mem_map_of_mem hp)

theorem Valued.step (h : Valued s.produced s.fromServer s.recv s.cell s.pc)
    (howned : Owned s.rid s.owner s.pc s.outstanding s.requests) (htrans : Trans s t) :
    Valued t.produced t.fromServer t.recv t.cell t.pc := by
  cases htrans with
  | move hmove => exact h.goto fun v hv => absurd hv (hmove.out v)
  | lock _ hlock => exact h.goto fun v hv => h.out _ v (hlock.out ▸ hv)
  | unlock hunlock => exact h.goto fun v hv => h.out _ v (hunlock.out v hv)
  | refuse | register | put | read => exact h.goto (by simp [Pc.out])
  | take hpc => exact h.goto fun v hv => h.cell _ v (outcome_eq_got (some.inj hv))
  | delete hpc | closeRead hpc | closeWrite hpc =>
    exact h.goto fun v hv => h.out _ v (by rw [hpc]; exact hv)
  | load _ hreplies =>
    refine ⟨?_, ?_, fun hrecv => (by cases hrecv), h.cell, h.out⟩
    · intro p hp
      exact h.reply p (by rw [hreplies]; exact mem_cons_of_mem _ hp)
    · intro p hp
      rw [← some.inj hp]
      exact h.reply _ (by rw [hreplies]; exact mem_cons_self ..)
  | recvLock hrecv =>
    exact ⟨h.reply, fun p hp => h.loaded p (by rw [hrecv]; exact hp), fun hfound => (by cases hfound),
      h.cell, h.out⟩
  | crash | discard | wake | release | lose | lockLost | fillWake | clear | stop =>
    exact h.setRecv rfl (by simp [State.setRecv])
  | pop hrecv htable hlookup =>
    -- The entry and the request of the reply have the same id, hence the same call.
    refine ⟨h.reply, fun p hp => (by cases hp), ?_, h.cell, h.out⟩
    intro r c res hfound
    obtain ⟨rfl, rfl, rfl⟩ := Recv.found.inj hfound
    obtain ⟨c', hc'⟩ := h.loaded (_, _) (by rw [hrecv]; rfl)
    have howner := howned.requests _ (mem_requests_of_produced hc')
    rw [howned.table htable hlookup] at howner
    rw [some.inj howner]
    exact hc'
  | deliver hrecv =>
    refine Valued.setRecv (h.setCell ?_) rfl (by simp [State.setRecv])
    rintro v rfl
    exact ⟨_, h.found hrecv⟩
  | fill => exact Valued.setRecv (h.setCell (by simp)) rfl (by simp [State.setRecv])
  | close | send | sendEnds => exact h
  | @answer i req res hmem =>
    refine h.mono (fun p hp => mem_append_left _ hp) ?_
    intro p hp
    rcases mem_append.mp hp with hp | hp
    · exact .inl hp
    · rw [mem_singleton.mp hp]
      exact .inr ⟨req.caller, mem_append_right _ (mem_singleton.mpr rfl)⟩

def Spent (rid : ℕ) (outstanding : Option (Table C)) (r : ℕ) : Prop :=
  r < rid ∧ ∀ table, outstanding = some table → table.lookup r = none

structure Once (rid : ℕ) (outstanding : Option (Table C)) (recv : Recv C V E)
    (delivered : List (ℕ × C)) : Prop where
  nodup : (delivered.map Prod.fst).Nodup
  spent : ∀ r ∈ delivered.map Prod.fst, Spent rid outstanding r
  found : ∀ {r c res}, recv = .found r c res → Spent rid outstanding r ∧ r ∉ delivered.map Prod.fst

section

omit [DecidableEq C]

variable {recv' : Recv C V E}

theorem Once.mono (h : Once rid outstanding recv delivered)
    (hspent : ∀ r, Spent rid outstanding r → Spent rid' outstanding' r) :
    Once rid' outstanding' recv delivered :=
  ⟨h.nodup, fun r hr => hspent r (h.spent r hr), fun hrecv =>
    ⟨hspent _ (h.found hrecv).1, (h.found hrecv).2⟩⟩

theorem Once.setRecv (h : Once rid outstanding recv delivered)
    (hfound : ∀ {r c res}, recv' ≠ .found r c res) : Once rid outstanding recv' delivered :=
  ⟨h.nodup, h.spent, fun hrecv => absurd hrecv hfound⟩

theorem Spent.erase (h : Spent rid (some table) r) : Spent rid (some (table.erase r')) r := by
  refine ⟨h.1, ?_⟩
  intro table' htable
  rw [← some.inj htable]
  cases hlookup : (table.erase r').lookup r with
  | none => rfl
  | some c =>
    have hold := (lookup_erase_eq_some hlookup).2
    rw [h.2 table rfl] at hold
    cases hold

end

theorem Once.step (h : Once s.rid s.outstanding s.recv s.delivered)
    (howned : Owned s.rid s.owner s.pc s.outstanding s.requests) (htrans : Trans s t) :
    Once t.rid t.outstanding t.recv t.delivered := by
  cases htrans with
  | move | lock | unlock | put | read | take | closeRead | closeWrite | close | send | sendEnds
  | answer => exact h
  | refuse => exact h.mono fun r hr => ⟨Nat.lt_succ_of_lt hr.1, hr.2⟩
  | register _ htable =>
    refine h.mono fun r hr => ⟨Nat.lt_succ_of_lt hr.1, ?_⟩
    intro table' htable'
    rw [← some.inj htable', AList.lookup_insert_ne (Nat.ne_of_lt hr.1)]
    exact hr.2 _ htable
  | delete =>
    refine h.mono fun r hr => ?_
    change Spent s.rid (s.outstanding.map _) r
    cases htable : s.outstanding with
    | none => exact ⟨hr.1, by simp⟩
    | some table => exact Spent.erase (htable ▸ hr)
  | load | recvLock | crash | discard | wake | release | lose | lockLost | fill | fillWake
  | stop => exact h.setRecv (by simp [State.setRecv])
  | pop hrecv htable hlookup =>
    refine ⟨h.nodup, fun r hr => Spent.erase (htable ▸ h.spent r hr), ?_⟩
    intro r c res hfound
    obtain ⟨rfl, rfl, rfl⟩ := Recv.found.inj hfound
    refine ⟨⟨howned.lt (howned.table htable hlookup), ?_⟩, ?_⟩
    · intro table' htable'
      rw [← some.inj htable']
      exact AList.lookup_erase ..
    · intro hmem
      have hnone := (h.spent _ hmem).2 _ htable
      rw [hlookup] at hnone
      cases hnone
  | deliver hrecv =>
    obtain ⟨hspent, hnew⟩ := h.found hrecv
    refine ⟨?_, ?_, fun hfound => by cases hfound⟩
    · change ((s.delivered ++ [_]).map Prod.fst).Nodup
      rw [map_append, map_singleton, ← concat_eq_append]
      exact h.nodup.concat hnew
    · intro r hr
      change r ∈ (s.delivered ++ [_]).map Prod.fst at hr
      rw [map_append, map_singleton] at hr
      rcases mem_append.mp hr with hr | hr
      · exact h.spent r hr
      · rw [mem_singleton.mp hr]
        exact hspent
  | clear =>
    refine Once.setRecv (h.mono fun r hr => ⟨hr.1, ?_⟩) (by simp [State.setRecv])
    intro table htable
    cases htable

def Pc.returned : Pc V E → Option V
  | .done (.got (.ok v)) => some v
  | _ => none

theorem Pc.out_of_returned (h : pc.returned = some v) : pc.out = some (.got (.ok v)) := by
  unfold Pc.returned at h
  split at h
  · rw [← some.inj h]
    rfl
  · cases h

structure Inv (s : State C V E) : Prop where
  locked : Locked s.oLock s.pc s.recv
  owned : Owned s.rid s.owner s.pc s.outstanding s.requests
  separate : Separate s.pc s.outstanding s.recv s.prClosed s.pwClosed
  valued : Valued s.produced s.fromServer s.recv s.cell s.pc
  once : Once s.rid s.outstanding s.recv s.delivered

omit [DecidableEq C] in
theorem Inv.init : Inv (init : State C V E) where
  locked := ⟨fun c => by simp [Client.init, Pc.holds], by simp [Client.init, Recv.holds]⟩
  owned := by
    refine ⟨by simp [Client.init], by simp [Client.init], by simp [Client.init],
      by simp [Client.init, Pc.rid], ?_, by simp [Client.init, State.requests, SendQ.requests]⟩
    intro table r c htable hlookup
    rw [← some.inj htable, AList.lookup_empty] at hlookup
    cases hlookup
  separate := ⟨by simp [Client.init, Pc.past], by simp [Client.init]⟩
  valued := by
    refine ⟨?_, ?_, ?_, ?_, ?_⟩ <;> simp [Client.init, Recv.reply, Pc.out]
  once := ⟨by simp [Client.init], by simp [Client.init], by simp [Client.init]⟩

theorem Inv.step (h : Inv s) (htrans : Trans s t) : Inv t where
  locked := h.locked.step htrans
  owned := h.owned.step htrans
  separate := h.separate.step h.locked h.owned htrans
  valued := h.valued.step h.owned htrans
  once := h.once.step h.owned htrans

/-- In every run: a call that returned got what the server produced for its own request, no
reply was delivered twice, and the pipes that the receive loop is going to write are open. -/
theorem replies_reach_calls (s : State C V E) (hs : Reachable system (fun _ _ => True) s) :
    (∀ c v, (s.pc c).returned = some v → ∃ r, (⟨r, c⟩, .ok v) ∈ s.produced) ∧
      (s.delivered.map Prod.fst).Nodup ∧
      ∀ c ∈ s.recv.pending, s.prClosed c = false ∧ s.pwClosed c = false := by
  have hinv : Inv s := by
    refine hs.invariant ?_ ?_
    · intro s hinit
      rw [show s = Client.init from hinit]
      exact Inv.init
    · intro s a t _ hinv _ hstep
      exact hinv.step (trans_of_step hstep)
  refine ⟨fun c v hv => hinv.valued.out c v (Pc.out_of_returned hv), hinv.once.nodup, ?_⟩
  intro c hpending
  have hopen := not_or.mp fun hclosed => (hinv.separate.closed c hclosed).1.2 hpending
  exact ⟨Bool.not_eq_true _ ▸ hopen.1, Bool.not_eq_true _ ▸ hopen.2⟩

/-- A call is answered with 7 while another one is interrupted as it waits; the reply to the
second is discarded. -/
theorem replies_reach_calls_seven :
    ∃ s : State (Fin 2) ℕ Unit, (s.pc 0).returned = some 7 ∧ s.delivered = [(0, 0)] ∧
      ((∀ c v, (s.pc c).returned = some v → ∃ r, (⟨r, c⟩, .ok v) ∈ s.produced) ∧
        (s.delivered.map Prod.fst).Nodup ∧
        ∀ c ∈ s.recv.pending, s.prClosed c = false ∧ s.pwClosed c = false) := by
  have hinit : system.initial (Client.init : State (Fin 2) ℕ Unit) := rfl
  obtain ⟨s, hs, hreturned, hdelivered⟩ := exists_reachable system (fun _ _ => True)
    (fun s : State (Fin 2) ℕ Unit => (s.pc 0).returned = some 7 ∧ s.delivered = [(0, 0)])
    (replicate 5 (.call 0) ++ [.send] ++ replicate 5 (.call 1) ++
      [.send, .answer 1 (.ok 8), .answer 0 (.ok 7), .interrupt 1] ++ replicate 3 (.call 1) ++
      replicate 10 .recv ++ replicate 7 (.call 0)) hinit
    (by decide +kernel)
  exact ⟨s, hreturned, hdelivered, replies_reach_calls s hs⟩

end Mosbench.Mparts.Client
