import Mathlib.Data.List.AList
import Mosbench.Lib.Transition

/-!
The RPC client (rpc.py): any number of calls, the send loop, the receive loop, and a server
that answers the requests it gets in any order, each at most once. A call is one execution of
`_call`; its wake-up pipe and its cell are told apart by the call. A step is one access of
what the threads share; `oLock` is taken and released in steps of its own, so that the
receive loop can be stopped anywhere while it delivers a reply. An interrupt may hit a call
between any two of its steps.

The arguments of a call are fixed by the call. A reply is a value or an exception; the proxy
object that `_call` builds around a value of type RPCProxy is left out.
-/
namespace Mosbench.Mparts.Client

open Option Transition Function

variable {C V E : Type}

inductive Outcome (V E : Type)
  | got (res : Except E V)
  | raised

inductive Pc (V E : Type)
  | start
  | piped
  | locked
  | registered (rid : ℕ)
  /-- The try block: the request is queued, a byte is read, the cell is read. -/
  | putting (rid : ℕ)
  | waiting (rid : ℕ)
  | woken (rid : ℕ)
  /-- The finally block: `oLock`, the entry, and the two ends of the pipe. -/
  | leaving (rid : ℕ) (out : Outcome V E)
  | relocked (rid : ℕ) (out : Outcome V E)
  | deleted (out : Outcome V E)
  | closing (out : Outcome V E)
  | halfClosed (out : Outcome V E)
  | done (out : Outcome V E)

inductive Recv (C V E : Type)
  | loading
  | loaded (rid : ℕ) (res : Except E V)
  | locked (rid : ℕ) (res : Except E V)
  | found (rid : ℕ) (c : C) (res : Except E V)
  /-- The cell is set; the pipe of the call is written next. -/
  | wake (c : C)
  | releasing
  | lost (e : E)
  /-- The connection is lost: the calls that still have to be told. -/
  | failing (e : E) (todo : List C)
  | failWake (e : E) (c : C) (todo : List C)
  | cleared
  | stopped

inductive Holder (C : Type)
  | call (c : C)
  | recv
  deriving DecidableEq

structure Request (C : Type) where
  rid : ℕ
  caller : C

inductive SendQ (C : Type)
  | gone
  | empty
  | full (req : Option (Request C))

structure State (C V E : Type) where
  rid : ℕ
  outstanding : Option (AList fun _ : ℕ => C)
  oLock : Option (Holder C)
  pc : C → Pc V E
  cell : C → Option (Except E V)
  bytes : C → ℕ
  prClosed : C → Bool
  pwClosed : C → Bool
  sendQ : SendQ C
  sending : Bool
  toServer : List (Request C)
  fromServer : List (ℕ × Except E V)
  recv : Recv C V E
  produced : List (Request C × Except E V)
  /-- The replies put in a cell: the id of the reply and the call of the cell. -/
  delivered : List (ℕ × C)
  owner : ℕ → Option C

def init : State C V E :=
  ⟨0, some ∅, none, fun _ => .start, fun _ => none, fun _ => 0, fun _ => false, fun _ => false, .empty,
    true, [], [], .loading, [], [], fun _ => none⟩

inductive Act (C V E : Type)
  | call (c : C)
  | interrupt (c : C)
  | close
  | send
  | sendFails
  | answer (i : ℕ) (res : Except E V)
  | lose (e : E)
  | recv

def Pc.holds : Pc V E → Bool
  | .locked | .registered _ | .relocked _ _ | .deleted _ => true
  | _ => false

def Pc.inTry : Pc V E → Option ℕ
  | .putting rid | .waiting rid | .woken rid => some rid
  | _ => none

def Pc.inactive : Pc V E → Bool
  | .start | .done _ => true
  | _ => false

def Recv.pending : Recv C V E → List C
  | .found _ c _ => [c]
  | .wake c => [c]
  | .failing _ todo => todo
  | .failWake _ c todo => c :: todo
  | _ => []

def Recv.holds : Recv C V E → Bool
  | .locked _ _ | .found _ _ _ | .wake _ | .releasing | .failing _ _ | .failWake _ _ _ | .cleared => true
  | _ => false

def outcome : Option (Except E V) → Outcome V E
  | some res => .got res
  | none => .raised

def values (outstanding : Option (AList fun _ : ℕ => C)) : List C :=
  (outstanding.map fun table => table.entries.map Sigma.snd).getD []

namespace State

variable [DecidableEq C] (s : State C V E) (c : C)

def goto (pc : Pc V E) : State C V E := { s with pc := update s.pc c pc }

def setLock (holder : Option (Holder C)) : State C V E := { s with oLock := holder }

/-- The next step of a call; `none` while it has to wait, and when it is over. -/
def callStep : Option (State C V E) :=
  match s.pc c with
  | .start => some (s.goto c .piped)
  | .piped => if s.oLock.isNone then some ((s.setLock (some (.call c))).goto c .locked) else none
  | .locked =>
    let s' := { s with rid := s.rid + 1 }
    match s.outstanding with
    -- Storing in None raises, and the with statement releases the lock.
    | none => some ((s'.setLock none).goto c (.done .raised))
    | some table =>
      some ({ s' with
        outstanding := some (table.insert s.rid c)
        owner := update s.owner s.rid (some c) }.goto c (.registered s.rid))
  | .registered rid => some ((s.setLock none).goto c (.putting rid))
  | .putting rid =>
    match s.sendQ with
    | .gone => some (s.goto c (.leaving rid .raised))
    | .empty => some ({ s with sendQ := .full (some ⟨rid, c⟩) }.goto c (.waiting rid))
    | .full _ => none
  | .waiting rid =>
    if 0 < s.bytes c then
      some ({ s with bytes := update s.bytes c (s.bytes c - 1) }.goto c (.woken rid))
    else none
  | .woken rid => some (s.goto c (.leaving rid (outcome (s.cell c))))
  | .leaving rid out =>
    if s.oLock.isNone then some ((s.setLock (some (.call c))).goto c (.relocked rid out)) else none
  | .relocked rid out =>
    some ({ s with outstanding := s.outstanding.map (AList.erase rid) }.goto c (.deleted out))
  | .deleted out => some ((s.setLock none).goto c (.closing out))
  | .closing out =>
    some ({ s with prClosed := update s.prClosed c true }.goto c (.halfClosed out))
  | .halfClosed out =>
    some ({ s with pwClosed := update s.pwClosed c true }.goto c (.done out))
  | .done _ => none

/-- An exception between two steps of a call. Inside the try block the finally block runs;
elsewhere a with statement releases the lock, and nothing else is done. -/
def interrupt : Option (State C V E) :=
  match (s.pc c).inTry with
  | some rid => some (s.goto c (.leaving rid .raised))
  | none =>
    if (s.pc c).inactive then none
    else if (s.pc c).holds then some ((s.setLock none).goto c (.done .raised))
    else some (s.goto c (.done .raised))

def setCell (res : Except E V) : State C V E := { s with cell := update s.cell c (some res) }

def writePipe : State C V E := { s with bytes := update s.bytes c (s.bytes c + 1) }

def setRecv (recv : Recv C V E) : State C V E := { s with recv := recv }

omit c

def recvStep : Option (State C V E) :=
  match s.recv with
  | .loading =>
    match s.fromServer with
    | [] => none
    | (rid, res) :: rest => some ({ s with fromServer := rest }.setRecv (.loaded rid res))
  | .loaded rid res =>
    if s.oLock.isNone then some ((s.setLock (some .recv)).setRecv (.locked rid res)) else none
  | .locked rid res =>
    match s.outstanding with
    | none => some ((s.setLock none).setRecv .stopped)
    | some table =>
      match table.lookup rid with
      | some c => some ({ s with outstanding := some (table.erase rid) }.setRecv (.found rid c res))
      | none => some (s.setRecv .releasing)
  | .found rid c res =>
    some (({ s with delivered := s.delivered ++ [(rid, c)] }.setCell c res).setRecv (.wake c))
  | .wake c => some ((s.writePipe c).setRecv .releasing)
  | .releasing => some ((s.setLock none).setRecv .loading)
  | .lost e =>
    if s.oLock.isNone then
      some ((s.setLock (some .recv)).setRecv (.failing e (values s.outstanding)))
    else none
  | .failing e (c :: todo) => some ((s.setCell c (.error e)).setRecv (.failWake e c todo))
  | .failing _ [] => some ({ s with outstanding := none }.setRecv .cleared)
  | .failWake e c todo => some ((s.writePipe c).setRecv (.failing e todo))
  | .cleared => some ((s.setLock none).setRecv .stopped)
  | .stopped => none

def sendStep : Option (State C V E) :=
  if s.sending then
    match s.sendQ with
    | .full (some req) => some { s with sendQ := .empty, toServer := s.toServer ++ [req] }
    | .full none => some { s with sendQ := .gone, sending := false }
    | _ => none
  else none

/-- Writing to the connection raises, which ends the send loop. -/
def sendFails : Option (State C V E) :=
  if s.sending then
    match s.sendQ with
    | .full (some _) => some { s with sendQ := .empty, sending := false }
    | _ => none
  else none

def answer (i : ℕ) (res : Except E V) : Option (State C V E) :=
  (s.toServer[i]?).map fun req =>
    { s with
      toServer := s.toServer.eraseIdx i
      fromServer := s.fromServer ++ [(req.rid, res)]
      produced := s.produced ++ [(req, res)] }

def lose (e : E) : Option (State C V E) :=
  match s.recv with
  | .loading => some (s.setRecv (.lost e))
  | _ => none

def close : Option (State C V E) :=
  match s.sendQ with
  | .empty => some { s with sendQ := .full none }
  | _ => none

end State

variable [DecidableEq C]

def step (s : State C V E) : Act C V E → Option (State C V E)
  | .call c => s.callStep c
  | .interrupt c => s.interrupt c
  | .close => s.close
  | .send => s.sendStep
  | .sendFails => s.sendFails
  | .answer i res => s.answer i res
  | .lose e => s.lose e
  | .recv => s.recvStep

def system : System (State C V E) (Act C V E) := ⟨(· = init), step⟩

/-! What a step does. The steps of a call that share their effect are taken together. -/

inductive Moves : Pc V E → Pc V E → Prop
  | pipe : Moves .start .piped
  | putting (rid : ℕ) : Moves (.putting rid) (.leaving rid .raised)
  | waiting (rid : ℕ) : Moves (.waiting rid) (.leaving rid .raised)
  | woken (rid : ℕ) : Moves (.woken rid) (.leaving rid .raised)
  | piped : Moves .piped (.done .raised)
  | leaving (rid : ℕ) (out : Outcome V E) : Moves (.leaving rid out) (.done .raised)
  | closing (out : Outcome V E) : Moves (.closing out) (.done .raised)
  | halfClosed (out : Outcome V E) : Moves (.halfClosed out) (.done .raised)

inductive Locks : Pc V E → Pc V E → Prop
  | piped : Locks .piped .locked
  | leaving (rid : ℕ) (out : Outcome V E) : Locks (.leaving rid out) (.relocked rid out)

inductive Unlocks : Pc V E → Pc V E → Prop
  | registered (rid : ℕ) : Unlocks (.registered rid) (.putting rid)
  | deleted (out : Outcome V E) : Unlocks (.deleted out) (.closing out)
  | interrupt : pc.holds = true → Unlocks pc (.done .raised)

inductive Trans (s : State C V E) : State C V E → Prop
  | move : Moves (s.pc c) pc → Trans s (s.goto c pc)
  | lock : s.oLock = none → Locks (s.pc c) pc → Trans s ((s.setLock (some (.call c))).goto c pc)
  | unlock : Unlocks (s.pc c) pc → Trans s ((s.setLock none).goto c pc)
  | refuse : s.pc c = .locked →
      Trans s (({ s with rid := s.rid + 1 }.setLock none).goto c (.done .raised))
  | register : s.pc c = .locked → s.outstanding = some table → Trans s ({ s with
        rid := s.rid + 1
        outstanding := some (table.insert s.rid c)
        owner := update s.owner s.rid (some c) }.goto c (.registered s.rid))
  | put : s.pc c = .putting rid →
      Trans s ({ s with sendQ := .full (some ⟨rid, c⟩) }.goto c (.waiting rid))
  | read : s.pc c = .waiting rid →
      Trans s ({ s with bytes := update s.bytes c n }.goto c (.woken rid))
  | take : s.pc c = .woken rid → Trans s (s.goto c (.leaving rid (outcome (s.cell c))))
  | delete : s.pc c = .relocked rid out →
      Trans s ({ s with outstanding := s.outstanding.map (AList.erase rid) }.goto c (.deleted out))
  | closeRead : s.pc c = .closing out →
      Trans s ({ s with prClosed := update s.prClosed c true }.goto c (.halfClosed out))
  | closeWrite : s.pc c = .halfClosed out →
      Trans s ({ s with pwClosed := update s.pwClosed c true }.goto c (.done out))
  | load : s.recv = .loading → s.fromServer = (rid, res) :: rest →
      Trans s ({ s with fromServer := rest }.setRecv (.loaded rid res))
  | recvLock : s.recv = .loaded rid res → s.oLock = none →
      Trans s ((s.setLock (some .recv)).setRecv (.locked rid res))
  | crash : s.recv = .locked rid res → Trans s ((s.setLock none).setRecv .stopped)
  | pop : s.recv = .locked rid res → s.outstanding = some table → table.lookup rid = some c →
      Trans s ({ s with outstanding := some (table.erase rid) }.setRecv (.found rid c res))
  | discard : s.recv = .locked rid res → Trans s (s.setRecv .releasing)
  | deliver : s.recv = .found rid c res →
      Trans s (({ s with delivered := s.delivered ++ [(rid, c)] }.setCell c res).setRecv (.wake c))
  | wake : s.recv = .wake c → Trans s ((s.writePipe c).setRecv .releasing)
  | release : s.recv = .releasing → Trans s ((s.setLock none).setRecv .loading)
  | lose : s.recv = .loading → Trans s (s.setRecv (.lost e))
  | lockLost : s.recv = .lost e → s.oLock = none →
      Trans s ((s.setLock (some .recv)).setRecv (.failing e (values s.outstanding)))
  | fill : s.recv = .failing e (c :: todo) →
      Trans s ((s.setCell c (.error e)).setRecv (.failWake e c todo))
  | fillWake : s.recv = .failWake e c todo → Trans s ((s.writePipe c).setRecv (.failing e todo))
  | clear : s.recv = .failing e [] → Trans s ({ s with outstanding := none }.setRecv .cleared)
  | stop : s.recv = .cleared → Trans s ((s.setLock none).setRecv .stopped)
  | close : Trans s { s with sendQ := .full none }
  | send : s.sendQ = .full (some req) →
      Trans s { s with sendQ := .empty, toServer := s.toServer ++ [req] }
  | sendEnds : (q = .gone ∨ q = .empty) → Trans s { s with sendQ := q, sending := false }
  | answer {i : ℕ} {req : Request C} {res : Except E V} : req ∈ s.toServer → Trans s { s with
        toServer := s.toServer.eraseIdx i
        fromServer := s.fromServer ++ [(req.rid, res)]
        produced := s.produced ++ [(req, res)] }

theorem trans_of_callStep {s : State C V E} (h : s.callStep c = some t) : Trans s t := by
  unfold State.callStep at h
  split at h
  · next hpc => exact some.inj h ▸ .move (hpc ▸ .pipe)
  · next hpc =>
    split at h
    · next hlock => exact some.inj h ▸ .lock (isNone_iff_eq_none.mp hlock) (hpc ▸ .piped)
    · cases h
  · next hpc =>
    simp only at h
    split at h
    · exact some.inj h ▸ .refuse hpc
    · next table htable => exact some.inj h ▸ .register hpc htable
  · next rid hpc => exact some.inj h ▸ .unlock (hpc ▸ .registered rid)
  · next rid hpc =>
    split at h
    · exact some.inj h ▸ .move (hpc ▸ .putting rid)
    · exact some.inj h ▸ .put hpc
    · cases h
  · next rid hpc =>
    split at h
    · exact some.inj h ▸ .read hpc
    · cases h
  · next rid hpc => exact some.inj h ▸ .take hpc
  · next rid out hpc =>
    split at h
    · next hlock =>
      exact some.inj h ▸ .lock (isNone_iff_eq_none.mp hlock) (hpc ▸ .leaving rid out)
    · cases h
  · next rid out hpc => exact some.inj h ▸ .delete hpc
  · next out hpc => exact some.inj h ▸ .unlock (hpc ▸ .deleted out)
  · next out hpc => exact some.inj h ▸ .closeRead hpc
  · next out hpc => exact some.inj h ▸ .closeWrite hpc
  · cases h

theorem trans_of_interrupt {s : State C V E} (h : s.interrupt c = some t) : Trans s t := by
  unfold State.interrupt at h
  split at h
  · next rid htry =>
    rw [← some.inj h]
    refine .move ?_
    cases hpc : s.pc c <;> rw [hpc] at htry <;> cases htry
    · exact .putting rid
    · exact .waiting rid
    · exact .woken rid
  · next htry =>
    split_ifs at h with hinactive hholds
    · rw [← some.inj h]
      exact .unlock (.interrupt hholds)
    · rw [← some.inj h]
      refine .move ?_
      cases hpc : s.pc c <;> rw [hpc] at htry hinactive hholds <;>
        simp only [Pc.inTry, Pc.inactive, Pc.holds, reduceCtorEq, not_true_eq_false] at htry hinactive hholds
      · exact .piped
      · exact .leaving _ _
      · exact .closing _
      · exact .halfClosed _

theorem trans_of_recvStep {s : State C V E} (h : s.recvStep = some t) : Trans s t := by
  unfold State.recvStep at h
  split at h
  · next hrecv =>
    split at h
    · cases h
    · next rid res rest hreplies => exact some.inj h ▸ .load hrecv hreplies
  · next rid res hrecv =>
    split at h
    · next hlock => exact some.inj h ▸ .recvLock hrecv (isNone_iff_eq_none.mp hlock)
    · cases h
  · next rid res hrecv =>
    split at h
    · exact some.inj h ▸ .crash hrecv
    · next table htable =>
      split at h
      · next c hfound => exact some.inj h ▸ .pop hrecv htable hfound
      · exact some.inj h ▸ .discard hrecv
  · next rid c res hrecv => exact some.inj h ▸ .deliver hrecv
  · next c hrecv => exact some.inj h ▸ .wake hrecv
  · next hrecv => exact some.inj h ▸ .release hrecv
  · next e hrecv =>
    split at h
    · next hlock => exact some.inj h ▸ .lockLost hrecv (isNone_iff_eq_none.mp hlock)
    · cases h
  · next e c todo hrecv => exact some.inj h ▸ .fill hrecv
  · next e hrecv => exact some.inj h ▸ .clear hrecv
  · next e c todo hrecv => exact some.inj h ▸ .fillWake hrecv
  · next hrecv => exact some.inj h ▸ .stop hrecv
  · cases h

theorem trans_of_step {s : State C V E} (h : step s a = some t) : Trans s t := by
  cases a with
  | call c => exact trans_of_callStep h
  | interrupt c => exact trans_of_interrupt h
  | recv => exact trans_of_recvStep h
  | close =>
    simp only [step, State.close] at h
    split at h
    · exact some.inj h ▸ .close
    · cases h
  | send =>
    simp only [step, State.sendStep] at h
    split at h
    · split at h
      · next req hfull => exact some.inj h ▸ .send hfull
      · exact some.inj h ▸ .sendEnds (.inl rfl)
      · cases h
    · cases h
  | sendFails =>
    simp only [step, State.sendFails] at h
    split at h
    · split at h
      · exact some.inj h ▸ .sendEnds (.inr rfl)
      · cases h
    · cases h
  | answer i res =>
    obtain ⟨req, hreq, rfl⟩ := map_eq_some_iff.mp h
    exact .answer (List.mem_of_getElem? hreq)
  | lose e =>
    simp only [step, State.lose] at h
    split at h
    · next hrecv => exact some.inj h ▸ .lose hrecv
    · cases h

end Mosbench.Mparts.Client
