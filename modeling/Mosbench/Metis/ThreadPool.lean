import Mosbench.Lib.Transition
import Mathlib.Data.Nat.Basic
import Mathlib.Logic.Function.Basic

/-!
The thread pool of Metis (pthreadpool.c). The main thread hands a routine to the
worker of a slot with mthread_create and waits for it with mthread_join; the
worker of each slot other than the main one runs the loop of mthread_entry.

One step is one access of a field of the pool. A thread that spins is at its
loop until the field has the value it waits for. A routine is one step of
arbitrary length: it starts, and some time later it returns.
-/
namespace Mosbench.Metis.ThreadPool

open List Option Transition

variable {C R A : Type}

structure Slot (R A : Type) where
  arg : A
  startRoutine : R
  ready : Bool
  running : Bool
  deriving DecidableEq

inductive Call (C R A : Type)
  | create (lid : C) (routine : R) (arg : A)
  | join (lid : C)
  deriving DecidableEq

/-- Where the main thread is: outside the pool's functions, at an access of
mthread_create or mthread_join, or in a routine of the main slot, which
mthread_create calls itself. -/
inductive MainPc (C R A : Type)
  | outside
  | createWait (lid : C) (routine : R) (arg : A)
  | storeArg (lid : C) (routine : R) (arg : A)
  | storeRoutine (lid : C) (routine : R) (arg : A)
  | setReady (lid : C) (routine : R) (arg : A)
  | awaitTaken (lid : C)
  | routine (routine : R) (arg : A)
  | joinWait (lid : C)
  deriving DecidableEq

inductive WorkerPc (R A : Type)
  | await
  | setRunning
  | clearReady
  | loadRoutine
  | loadArg (routine : R)
  | call (routine : R) (arg : A)
  | executing (routine : R) (arg : A)
  | clearRunning
  deriving DecidableEq

structure History (R A : Type) where
  created : List (R × A)
  started : List (R × A)
  finished : List (R × A)
  deriving DecidableEq

structure State (C R A : Type) where
  pool : C → Slot R A
  main : MainPc C R A
  worker : C → WorkerPc R A
  log : C → History R A

namespace History

def create (g : History R A) (ra : R × A) : History R A := { g with created := g.created ++ [ra] }

def start (g : History R A) (ra : R × A) : History R A := { g with started := g.started ++ [ra] }

def finish (g : History R A) (ra : R × A) : History R A := { g with finished := g.finished ++ [ra] }

end History

structure Initial (s : State C R A) : Prop where
  pool : ∀ c, (s.pool c).ready = false ∧ (s.pool c).running = false
  main : s.main = .outside
  worker : ∀ c, s.worker c = .await
  log : ∀ c, s.log c = ⟨[], [], []⟩

inductive Action (C R A : Type)
  | call (k : Call C R A)
  | main
  | worker (c : C)
  deriving DecidableEq

namespace State

variable [DecidableEq C]

def setSlot (s : State C R A) (c : C) (e : Slot R A) : State C R A :=
  { s with pool := Function.update s.pool c e }

def setWorker (s : State C R A) (c : C) (w : WorkerPc R A) : State C R A :=
  { s with worker := Function.update s.worker c w }

def setLog (s : State C R A) (c : C) (g : History R A) : State C R A :=
  { s with log := Function.update s.log c g }

def goto (s : State C R A) (m : MainPc C R A) : State C R A := { s with main := m }

@[simp] theorem setSlot_self (s : State C R A) (c : C) : s.setSlot c (s.pool c) = s := by
  simp [setSlot]

@[simp] theorem setLog_self (s : State C R A) (c : C) : s.setLog c (s.log c) = s := by
  simp [setLog]

end State

section Steps

variable [DecidableEq C] (mainLcpu : C)

/-- The main thread calls a function of the pool. A routine of the main slot
starts at once. -/
def enter (s : State C R A) : Call C R A → State C R A
  | .create lid routine arg =>
    if lid = mainLcpu then
      (s.setLog lid (((s.log lid).create (routine, arg)).start (routine, arg))).goto (.routine routine arg)
    else
      (s.setLog lid ((s.log lid).create (routine, arg))).goto (.createWait lid routine arg)
  | .join lid => s.goto (.joinWait lid)

def mainStep (s : State C R A) : Option (State C R A) :=
  match s.main with
  | .outside => none
  | .createWait lid routine arg =>
    if (s.pool lid).running then none else some (s.goto (.storeArg lid routine arg))
  | .storeArg lid routine arg =>
    some ((s.setSlot lid { s.pool lid with arg := arg }).goto (.storeRoutine lid routine arg))
  | .storeRoutine lid routine arg =>
    some ((s.setSlot lid { s.pool lid with startRoutine := routine }).goto (.setReady lid routine arg))
  | .setReady lid _ _ =>
    some ((s.setSlot lid { s.pool lid with ready := true }).goto (.awaitTaken lid))
  | .awaitTaken lid => if (s.pool lid).ready then none else some (s.goto .outside)
  | .routine routine arg =>
    some ((s.setLog mainLcpu ((s.log mainLcpu).finish (routine, arg))).goto .outside)
  | .joinWait lid => if (s.pool lid).running then none else some (s.goto .outside)

/-- One access of mthread_entry, or the start or the return of a routine. -/
def workerStep (s : State C R A) (c : C) : Option (State C R A) :=
  match s.worker c with
  | .await => if (s.pool c).ready then some (s.setWorker c .setRunning) else none
  | .setRunning =>
    some ((s.setSlot c { s.pool c with running := true }).setWorker c .clearReady)
  | .clearReady =>
    some ((s.setSlot c { s.pool c with ready := false }).setWorker c .loadRoutine)
  | .loadRoutine => some (s.setWorker c (.loadArg (s.pool c).startRoutine))
  | .loadArg routine => some (s.setWorker c (.call routine (s.pool c).arg))
  | .call routine arg =>
    some ((s.setLog c ((s.log c).start (routine, arg))).setWorker c (.executing routine arg))
  | .executing routine arg =>
    some ((s.setLog c ((s.log c).finish (routine, arg))).setWorker c .clearRunning)
  | .clearRunning => some ((s.setSlot c { s.pool c with running := false }).setWorker c .await)

/-- The main thread makes one call after the other; the main slot has no worker. -/
def step (s : State C R A) : Action C R A → Option (State C R A)
  | .call k => if s.main matches .outside then some (enter mainLcpu s k) else none
  | .main => mainStep mainLcpu s
  | .worker c => if c = mainLcpu then none else workerStep s c

def system : System (State C R A) (Action C R A) where
  initial := Initial
  step := step mainLcpu

end Steps

/-- The create that the main thread has called on `c` and not yet published. -/
def offered [DecidableEq C] (c : C) : MainPc C R A → List (R × A)
  | .createWait lid routine arg | .storeArg lid routine arg | .storeRoutine lid routine arg
  | .setReady lid routine arg => if lid = c then [(routine, arg)] else []
  | _ => []

/-- The pair that is published on a slot and not yet started by its worker. -/
def taken (e : Slot R A) : WorkerPc R A → List (R × A)
  | .await => if e.ready then [(e.startRoutine, e.arg)] else []
  | .setRunning | .clearReady | .loadRoutine => [(e.startRoutine, e.arg)]
  | .loadArg routine => [(routine, e.arg)]
  | .call routine arg => [(routine, arg)]
  | .executing _ _ | .clearRunning => []

def active : WorkerPc R A → List (R × A)
  | .executing routine arg => [(routine, arg)]
  | _ => []

def WorkerPc.isRunning : WorkerPc R A → Bool
  | .await | .setRunning => false
  | _ => true

def MainPc.lid? : MainPc C R A → Option C
  | .createWait lid _ _ | .storeArg lid _ _ | .storeRoutine lid _ _ | .setReady lid _ _
  | .awaitTaken lid => some lid
  | _ => none

/-- The main thread has seen running clear and writes to the slot. -/
def MainPc.Storing (c : C) (m : MainPc C R A) : Prop :=
  ∃ routine arg, m = .storeArg c routine arg ∨ m = .storeRoutine c routine arg ∨
    m = .setReady c routine arg

/-- The hand-shake on one slot `c` with a worker: the main thread is at `m`, the
worker at `w`. While ready is set the main thread stays in its create, and while
it writes to the slot the worker waits. -/
structure Handshake [DecidableEq C] (c : C) (m : MainPc C R A) (e : Slot R A) (w : WorkerPc R A)
    (g : History R A) : Prop where
  created : g.created = g.started ++ taken e w ++ offered c m
  started : g.started = g.finished ++ active w
  running : e.running = w.isRunning
  ready : e.ready = true → m = .awaitTaken c ∧ (w = .await ∨ w = .setRunning ∨ w = .clearReady)
  claimed : w = .setRunning ∨ w = .clearReady → e.ready = true
  storing : m.Storing c → w = .await
  arg : ∀ routine arg, m = .storeRoutine c routine arg ∨ m = .setReady c routine arg → e.arg = arg
  routine : ∀ routine arg, m = .setReady c routine arg → e.startRoutine = routine

namespace Handshake

variable [DecidableEq C] {c : C} {m : MainPc C R A}

theorem offered_eq_nil (h : m.lid? ≠ some c) : offered c m = [] := by
  cases m <;> simp_all [offered, MainPc.lid?]

omit [DecidableEq C] in
theorem not_storing (h : m.lid? ≠ some c) : ¬ m.Storing c := by
  rintro ⟨routine, arg, rfl | rfl | rfl⟩ <;> simp [MainPc.lid?] at h

theorem elsewhere (h : Handshake c m e w g) (m' : MainPc C R A) (hm : m.lid? ≠ some c)
    (hm' : m'.lid? ≠ some c) : Handshake c m' e w g where
  created := by rw [h.created, offered_eq_nil hm, offered_eq_nil hm']
  started := h.started
  running := h.running
  ready := by
    intro hready
    obtain ⟨rfl, -⟩ := h.ready hready
    simp [MainPc.lid?] at hm
  claimed := h.claimed
  storing hs := absurd hs (not_storing hm')
  arg routine arg hs := absurd ⟨routine, arg, .inr hs⟩ (not_storing hm')
  routine routine arg hs := absurd ⟨routine, arg, .inr (.inr hs)⟩ (not_storing hm')

theorem ready_clear (h : Handshake c m e w g) (hm : m ≠ .awaitTaken c) : e.ready = false := by
  cases hr : e.ready with
  | false => rfl
  | true => exact absurd (h.ready hr).1 hm

theorem await_of_not_running (h : Handshake c m e w g) (hrun : e.running = false)
    (hm : m ≠ .awaitTaken c) : w = .await ∧ e.ready = false := by
  have hclear := h.ready_clear hm
  refine ⟨?_, hclear⟩
  have hw := h.running
  rw [hrun] at hw
  cases w with
  | await => rfl
  | setRunning => exact absurd (h.claimed (.inl rfl)) (by simp [hclear])
  | _ => simp [WorkerPc.isRunning] at hw

theorem created_of_elsewhere (h : Handshake c m e w g) (hm : m.lid? ≠ some c) :
    g.created = g.started ++ taken e w := by
  rw [h.created, offered_eq_nil hm, append_nil]

variable {routine : R} {arg : A}

theorem call_create (h : Handshake c m e w g) (hm : m.lid? ≠ some c) :
    Handshake c (.createWait c routine arg) e w (g.create (routine, arg)) where
  created := by
    rw [History.create, h.created_of_elsewhere hm]
    simp [offered]
  started := h.started
  running := h.running
  ready := by
    intro hready
    obtain ⟨rfl, -⟩ := h.ready hready
    simp [MainPc.lid?] at hm
  claimed := h.claimed
  storing := by simp [MainPc.Storing]
  arg := by simp
  routine := by simp

theorem seen_idle (h : Handshake c (.createWait c routine arg) e w g) (hrun : e.running = false) :
    Handshake c (.storeArg c routine arg) e w g := by
  obtain ⟨rfl, hready⟩ := h.await_of_not_running hrun (by simp)
  exact { h with
    created := by simpa [offered] using h.created
    ready := by simp [hready]
    storing := by simp
    arg := by simp
    routine := by simp }

theorem store_arg (h : Handshake c (.storeArg c routine arg) e w g) :
    Handshake c (.storeRoutine c routine arg) { e with arg := arg } w g := by
  have hready := h.ready_clear (by simp)
  obtain rfl := h.storing ⟨routine, arg, .inl rfl⟩
  exact { h with
    created := by simpa [offered, taken, hready] using h.created
    ready := by simp [hready]
    storing := by simp
    arg := by simp
    routine := by simp }

theorem store_routine (h : Handshake c (.storeRoutine c routine arg) e w g) :
    Handshake c (.setReady c routine arg) { e with startRoutine := routine } w g := by
  have hready := h.ready_clear (by simp)
  obtain rfl := h.storing ⟨routine, arg, .inr (.inl rfl)⟩
  have harg := h.arg routine arg (.inl rfl)
  exact { h with
    created := by simpa [offered, taken, hready] using h.created
    ready := by simp [hready]
    storing := by simp
    arg := by simpa using harg
    routine := by simp }

theorem set_ready (h : Handshake c (.setReady c routine arg) e w g) :
    Handshake c (.awaitTaken c) { e with ready := true } w g := by
  have hready := h.ready_clear (by simp)
  obtain rfl := h.storing ⟨routine, arg, .inr (.inr rfl)⟩
  have harg := h.arg routine arg (.inr rfl)
  have hroutine := h.routine routine arg rfl
  exact { h with
    created := by simpa [offered, taken, hready, harg, hroutine] using h.created
    ready := by simp
    claimed := by simp
    storing := by simp [MainPc.Storing]
    arg := by simp
    routine := by simp }

theorem seen_taken (h : Handshake c (.awaitTaken c) e w g) (hready : e.ready = false) :
    Handshake c .outside e w g :=
  { h with
    created := by simpa [offered] using h.created
    ready := by simp [hready]
    storing := by simp [MainPc.Storing]
    arg := by simp
    routine := by simp }

theorem see_ready (h : Handshake c m e .await g) (hready : e.ready = true) :
    Handshake c m e .setRunning g where
  created := by simpa [taken, hready] using h.created
  started := h.started
  running := h.running
  ready _ := ⟨(h.ready hready).1, by simp⟩
  claimed _ := hready
  storing hs := by
    obtain ⟨rfl, -⟩ := h.ready hready
    simp [MainPc.Storing] at hs
  arg := h.arg
  routine := h.routine

theorem not_storing_of_ready (h : Handshake c m e w g) (hready : e.ready = true) : ¬ m.Storing c := by
  obtain ⟨rfl, -⟩ := h.ready hready
  simp [MainPc.Storing]

theorem set_running (h : Handshake c m e .setRunning g) :
    Handshake c m { e with running := true } .clearReady g where
  created := h.created
  started := h.started
  running := rfl
  ready hr := ⟨(h.ready hr).1, by simp⟩
  claimed _ := h.claimed (.inl rfl)
  storing hs := absurd hs (h.not_storing_of_ready (h.claimed (.inl rfl)))
  arg := h.arg
  routine := h.routine

theorem clear_ready (h : Handshake c m e .clearReady g) :
    Handshake c m { e with ready := false } .loadRoutine g where
  created := h.created
  started := h.started
  running := h.running
  ready := by simp
  claimed := by simp
  storing hs := absurd hs (h.not_storing_of_ready (h.claimed (.inr rfl)))
  arg := h.arg
  routine := h.routine

theorem running_facts (h : Handshake c m e w g) (hw : w ≠ .await) (hs : w ≠ .setRunning)
    (hc : w ≠ .clearReady) : e.ready = false ∧ ¬ m.Storing c := by
  refine ⟨?_, fun hst => hw (h.storing hst)⟩
  cases hr : e.ready with
  | false => rfl
  | true => obtain ⟨-, h' | h' | h'⟩ := h.ready hr <;> contradiction

theorem worker_runs (h : Handshake c m e w g) (hw : w ≠ .await ∧ w ≠ .setRunning ∧ w ≠ .clearReady)
    (hw' : w' ≠ .await ∧ w' ≠ .setRunning ∧ w' ≠ .clearReady) (hrun : w'.isRunning = w.isRunning)
    (hcreated : g'.created = g'.started ++ taken e w' ++ offered c m)
    (hstarted : g'.started = g'.finished ++ active w') : Handshake c m e w' g' := by
  obtain ⟨hready, hst⟩ := h.running_facts hw.1 hw.2.1 hw.2.2
  exact {
    created := hcreated
    started := hstarted
    running := by rw [h.running, hrun]
    ready := by simp [hready]
    claimed := by simp [hw'.2.1, hw'.2.2]
    storing := fun hs => absurd hs hst
    arg := h.arg
    routine := h.routine }

theorem load_routine (h : Handshake c m e .loadRoutine g) :
    Handshake c m e (.loadArg e.startRoutine) g :=
  h.worker_runs (by simp) (by simp) rfl h.created h.started

theorem load_arg (h : Handshake c m e (.loadArg routine) g) :
    Handshake c m e (.call routine e.arg) g :=
  h.worker_runs (by simp) (by simp) rfl h.created h.started

theorem call_routine (h : Handshake c m e (.call routine arg) g) :
    Handshake c m e (.executing routine arg) (g.start (routine, arg)) := by
  refine h.worker_runs (by simp) (by simp) rfl ?_ ?_
  · simpa [taken, History.start] using h.created
  · simpa [active, History.start] using h.started

theorem return_routine (h : Handshake c m e (.executing routine arg) g) :
    Handshake c m e .clearRunning (g.finish (routine, arg)) := by
  refine h.worker_runs (by simp) (by simp) rfl ?_ ?_
  · simpa [taken, History.finish] using h.created
  · simpa [active, History.finish] using h.started

theorem clear_running (h : Handshake c m e .clearRunning g) :
    Handshake c m { e with running := false } .await g := by
  obtain ⟨hready, hst⟩ := h.running_facts (by simp) (by simp) (by simp)
  exact {
    created := by simpa [taken, hready] using h.created
    started := h.started
    running := rfl
    ready := by simp [hready]
    claimed := by simp
    storing := fun _ => rfl
    arg := h.arg
    routine := h.routine }

end Handshake

section Runs

variable [DecidableEq C] {mainLcpu : C} {s : State C R A}

def ownRoutine : MainPc C R A → List (R × A)
  | .routine routine arg => [(routine, arg)]
  | _ => []

structure Sound (mainLcpu : C) (s : State C R A) : Prop where
  slot : ∀ c, c ≠ mainLcpu → Handshake c s.main (s.pool c) (s.worker c) (s.log c)
  lid : s.main.lid? ≠ some mainLcpu
  own : (s.pool mainLcpu).running = false
  created : (s.log mainLcpu).created = (s.log mainLcpu).started
  started : (s.log mainLcpu).started = (s.log mainLcpu).finished ++ ownRoutine s.main

theorem sound_of_initial (h : Initial s) : Sound mainLcpu s where
  slot c _ := by
    rw [h.main, h.worker c, h.log c]
    exact {
      created := by simp [taken, (h.pool c).1, offered]
      started := by simp [active]
      running := (h.pool c).2
      ready := by simp [(h.pool c).1]
      claimed := by simp
      storing := by simp
      arg := by simp
      routine := by simp }
  lid := by simp [h.main, MainPc.lid?]
  own := (h.pool mainLcpu).2
  created := by simp [h.log]
  started := by simp [h.log, h.main, ownRoutine]

open State

theorem Sound.main_in_create {lid : C} (hs : Sound mainLcpu s)
    (hfrom : s.main.lid? = some lid) (hto : m.lid? = some lid ∨ m = .outside)
    (hslot : e.running = (s.pool lid).running)
    (h : Handshake lid s.main (s.pool lid) (s.worker lid) (s.log lid) →
      Handshake lid m e (s.worker lid) (s.log lid)) :
    Sound mainLcpu ((s.setSlot lid e).goto m) := by
  have hne : lid ≠ mainLcpu := fun heq => hs.lid (heq ▸ hfrom)
  have hown : ownRoutine s.main = [] := by
    cases hm : s.main <;> simp_all [ownRoutine, MainPc.lid?]
  refine ⟨?_, ?_, ?_, hs.created, ?_⟩
  · intro c hc
    by_cases hcl : c = lid
    · subst hcl
      simpa [goto, setSlot] using h (hs.slot c hc)
    · have hm' : m.lid? ≠ some c := by
        rcases hto with hto | rfl
        · simpa [hto] using Ne.symm hcl
        · simp [MainPc.lid?]
      simpa [goto, setSlot, hcl] using
        (hs.slot c hc).elsewhere m (by simpa [hfrom] using Ne.symm hcl) hm'
  · rcases hto with hto | rfl
    · simpa [goto, hto] using hne
    · simp [goto, MainPc.lid?]
  · simpa [goto, setSlot, hne.symm] using hs.own
  · have hown' : ownRoutine m = [] := by
      rcases hto with hto | rfl
      · cases m <;> simp_all [ownRoutine, MainPc.lid?]
      · rfl
    simpa [goto, setSlot, hown, hown'] using hs.started

theorem Sound.worker_moves
    (hs : Sound mainLcpu s) (hc : c ≠ mainLcpu) (h : Handshake c s.main e w g) :
    Sound mainLcpu (((s.setSlot c e).setLog c g).setWorker c w) where
  slot c' hc' := by
    by_cases hcc : c' = c
    · subst hcc
      simpa [setSlot, setLog, setWorker] using h
    · simpa [setSlot, setLog, setWorker, hcc] using hs.slot c' hc'
  lid := hs.lid
  own := by simpa [setSlot, setLog, setWorker, hc.symm] using hs.own
  created := by simpa [setSlot, setLog, setWorker, hc.symm] using hs.created
  started := by simpa [setSlot, setLog, setWorker, hc.symm] using hs.started

theorem Sound.enter (hs : Sound mainLcpu s) (hout : s.main = .outside) (k : Call C R A) :
    Sound mainLcpu (enter mainLcpu s k) := by
  have hlid : ∀ c, s.main.lid? ≠ some c := by simp [hout, MainPc.lid?]
  cases k with
  | create lid routine arg =>
    by_cases hmain : lid = mainLcpu
    · subst hmain
      simp only [ThreadPool.enter, if_pos]
      refine ⟨?_, by simp [goto, MainPc.lid?], hs.own, ?_, ?_⟩
      · intro c hc
        simpa [goto, setLog, hc] using
          (hs.slot c hc).elsewhere (.routine routine arg) (hlid c) (by simp [MainPc.lid?])
      · simp [goto, setLog, History.create, History.start, hs.created]
      · simpa [goto, setLog, History.create, History.start, ownRoutine, hout] using hs.started
    · simp only [ThreadPool.enter, if_neg hmain]
      refine ⟨?_, by simpa [goto, MainPc.lid?] using hmain, hs.own, ?_, ?_⟩
      · intro c hc
        by_cases hcl : c = lid
        · subst hcl
          simpa [goto, setLog] using (hs.slot c hc).call_create (hlid c)
        · simpa [goto, setLog, hcl] using
            (hs.slot c hc).elsewhere (.createWait lid routine arg) (hlid c)
              (by simpa [MainPc.lid?] using Ne.symm hcl)
      · simpa [goto, setLog, Ne.symm hmain] using hs.created
      · simpa [goto, setLog, Ne.symm hmain, hout, ownRoutine] using hs.started
  | join lid =>
    refine ⟨fun c hc => (hs.slot c hc).elsewhere (.joinWait lid) (hlid c) (by simp [MainPc.lid?]),
      by simp [ThreadPool.enter, goto, MainPc.lid?], hs.own, hs.created, ?_⟩
    simpa [ThreadPool.enter, goto, hout, ownRoutine] using hs.started

theorem Sound.mainStep (hs : Sound mainLcpu s) (hstep : mainStep mainLcpu s = some t) :
    Sound mainLcpu t := by
  have hmain := @Sound.main_in_create C R A _ mainLcpu s
  unfold ThreadPool.mainStep at hstep
  cases hm : s.main <;> simp only [hm] at hstep hmain
  case outside => cases hstep
  case createWait lid routine arg =>
    split at hstep
    · cases hstep
    · next hrun =>
      obtain rfl := some.inj hstep
      simpa using hmain (m := .storeArg lid routine arg) hs rfl (.inl rfl) rfl
        fun h => h.seen_idle (by simpa using hrun)
  case storeArg lid routine arg =>
    obtain rfl := some.inj hstep
    exact hmain hs rfl (.inl rfl) rfl fun h => h.store_arg
  case storeRoutine lid routine arg =>
    obtain rfl := some.inj hstep
    exact hmain hs rfl (.inl rfl) rfl fun h => h.store_routine
  case setReady lid routine arg =>
    obtain rfl := some.inj hstep
    exact hmain hs rfl (.inl rfl) rfl fun h => h.set_ready
  case awaitTaken lid =>
    split at hstep
    · cases hstep
    · next hready =>
      obtain rfl := some.inj hstep
      simpa using hmain (m := .outside) hs rfl (.inr rfl) rfl
        fun h => h.seen_taken (by simpa using hready)
  case routine routine arg =>
    obtain rfl := some.inj hstep
    refine ⟨?_, by simp [goto, MainPc.lid?], hs.own, ?_, ?_⟩
    · intro c hc
      simpa [goto, setLog, hc] using
        (hs.slot c hc).elsewhere .outside (by simp [hm, MainPc.lid?]) (by simp [MainPc.lid?])
    · simpa [goto, setLog, History.finish] using hs.created
    · simpa [goto, setLog, History.finish, hm, ownRoutine] using hs.started
  case joinWait lid =>
    split at hstep
    · cases hstep
    · obtain rfl := some.inj hstep
      refine ⟨fun c hc => (hs.slot c hc).elsewhere .outside (by simp [hm, MainPc.lid?]) (by simp [MainPc.lid?]),
        by simp [goto, MainPc.lid?], hs.own, hs.created, ?_⟩
      simpa [goto, hm, ownRoutine] using hs.started

theorem Sound.workerStep (hs : Sound mainLcpu s) (hc : c ≠ mainLcpu)
    (hstep : workerStep s c = some t) : Sound mainLcpu t := by
  have h := hs.slot c hc
  have hmoves := @Sound.worker_moves C R A _ mainLcpu s c
  unfold ThreadPool.workerStep at hstep
  cases hw : s.worker c <;> simp only [hw, some.injEq] at hstep h
  case await =>
    split at hstep
    · next hready =>
      obtain rfl := some.inj hstep
      simpa using hmoves hs hc (h.see_ready hready)
    · cases hstep
  all_goals subst hstep
  case setRunning => simpa [setSlot, setLog] using hmoves hs hc h.set_running
  case clearReady => simpa [setSlot, setLog] using hmoves hs hc h.clear_ready
  case loadRoutine => simpa using hmoves hs hc h.load_routine
  case loadArg routine => simpa using hmoves hs hc h.load_arg
  case call routine arg => simpa using hmoves hs hc h.call_routine
  case executing routine arg => simpa using hmoves hs hc h.return_routine
  case clearRunning => simpa [setSlot, setLog] using hmoves hs hc h.clear_running

theorem Sound.step (hs : Sound mainLcpu s) (hstep : step mainLcpu s a = some t) :
    Sound mainLcpu t := by
  cases a with
  | call k =>
    simp only [ThreadPool.step] at hstep
    split at hstep
    · next hout =>
      obtain rfl := some.inj hstep
      exact hs.enter (by cases hm : s.main <;> simp_all) k
    · cases hstep
  | main => exact hs.mainStep hstep
  | worker c =>
    simp only [ThreadPool.step] at hstep
    split at hstep
    · cases hstep
    · next hc => exact hs.workerStep hc hstep

theorem sound_of_reachable (h : Reachable (system mainLcpu) (fun _ _ => True) s) :
    Sound mainLcpu s :=
  h.invariant (I := Sound mainLcpu) (fun _ hinit => sound_of_initial hinit)
    fun _ _ _ _ hs _ hstep => hs.step hstep

def WorkerPc.left : WorkerPc R A → ℕ
  | .await => 6
  | .setRunning => 5
  | .clearReady => 4
  | .loadRoutine => 3
  | .loadArg _ => 2
  | .call _ _ => 1
  | .executing _ _ | .clearRunning => 0

def Action.isWorker (c : C) : Action C R A → Bool
  | .worker c' => decide (c' = c)
  | _ => false

def workerSteps (c : C) (trace : List (State C R A × Action C R A)) : ℕ :=
  trace.countP fun e => e.2.isWorker c

theorem eq_worker {a : Action C R A} (h : a.isWorker c = true) : a = .worker c := by
  cases a <;> simp_all [Action.isWorker]

/-- The other threads leave a worker and what it has started, and they write to its slot only
while the main thread stores a create there. -/
theorem frame_of_other (hc : c ≠ mainLcpu) (hstep : step mainLcpu s a = some t) (ha : a.isWorker c = false) :
    t.worker c = s.worker c ∧ (t.log c).started = (s.log c).started ∧ (¬ s.main.Storing c → t.pool c = s.pool c) := by
  cases a with
  | call k =>
    simp only [step] at hstep
    split at hstep
    · obtain rfl := some.inj hstep
      cases k with
      | create lid routine arg =>
        by_cases hl : lid = mainLcpu
        · subst hl
          simp [enter, goto, setLog, hc]
        · by_cases hcl : c = lid
          · subst hcl
            simp [enter, goto, setLog, hl, History.create]
          · simp [enter, goto, setLog, hl, hcl]
      | join lid => exact ⟨rfl, rfl, fun _ => rfl⟩
    · cases hstep
  | main =>
    simp only [step, mainStep] at hstep
    cases hm : s.main with
    | outside => simp [hm] at hstep
    | createWait lid routine arg | awaitTaken lid | joinWait lid =>
      simp only [hm] at hstep
      split at hstep
      · cases hstep
      · obtain rfl := some.inj hstep
        exact ⟨rfl, rfl, fun _ => rfl⟩
    | storeArg lid routine arg | storeRoutine lid routine arg | setReady lid routine arg =>
      simp only [hm] at hstep
      obtain rfl := some.inj hstep
      refine ⟨rfl, rfl, fun hstore => ?_⟩
      have hcl : c ≠ lid := by
        rintro rfl
        exact hstore ⟨routine, arg, by simp⟩
      simp [goto, setSlot, hcl]
    | routine routine arg =>
      simp only [hm] at hstep
      obtain rfl := some.inj hstep
      simp [goto, setLog, hc]
  | worker c' =>
    have hcc : c ≠ c' := by
      rintro rfl
      simp [Action.isWorker] at ha
    simp only [step] at hstep
    split at hstep
    · cases hstep
    · unfold workerStep at hstep
      cases hw : s.worker c' <;> simp only [hw] at hstep
      case await =>
        split at hstep
        · obtain rfl := some.inj hstep
          simp [setWorker, hcc]
        · cases hstep
      all_goals
        obtain rfl := some.inj hstep
        simp [setWorker, setSlot, setLog, hcc]

theorem taken_of_other (hs : Sound mainLcpu s) (hc : c ≠ mainLcpu)
    (hstep : step mainLcpu s a = some t) (ha : a.isWorker c = false)
    (htaken : taken (s.pool c) (s.worker c) ≠ []) :
    t.worker c = s.worker c ∧ taken (t.pool c) (t.worker c) = taken (s.pool c) (s.worker c) ∧
      (t.log c).started = (s.log c).started := by
  obtain ⟨hworker, hstarted, hpool⟩ := frame_of_other hc hstep ha
  have hstore : ¬ s.main.Storing c := by
    intro hst
    have hw := (hs.slot c hc).storing hst
    have hm : s.main ≠ .awaitTaken c := by
      obtain ⟨routine, arg, h | h | h⟩ := hst <;> simp [h]
    simp [hw, taken, (hs.slot c hc).ready_clear hm] at htaken
  exact ⟨hworker, by rw [hpool hstore, hworker], hstarted⟩

theorem taken_of_worker (hc : c ≠ mainLcpu) (hstep : step mainLcpu s (.worker c) = some t)
    (htaken : taken (s.pool c) (s.worker c) ≠ []) :
    (t.log c).started = (s.log c).started ++ taken (s.pool c) (s.worker c) ∨
      ((t.log c).started = (s.log c).started ∧
        taken (t.pool c) (t.worker c) = taken (s.pool c) (s.worker c) ∧
        (t.worker c).left + 1 = (s.worker c).left) := by
  simp only [step, if_neg hc, workerStep] at hstep
  cases hw : s.worker c <;> simp only [hw] at hstep htaken
  case await =>
    split at hstep
    · next hready =>
      obtain rfl := some.inj hstep
      simp [setWorker, taken, hready, WorkerPc.left]
    · cases hstep
  all_goals
    obtain rfl := some.inj hstep
    simp_all [setWorker, setSlot, setLog, taken, WorkerPc.left, History.start]

theorem started_mono (hc : c ≠ mainLcpu) (hstep : step mainLcpu s a = some t) :
    (s.log c).started <+: (t.log c).started := by
  cases ha : a.isWorker c with
  | false => exact (frame_of_other hc hstep ha).2.1 ▸ prefix_rfl
  | true =>
    obtain rfl := eq_worker ha
    simp only [step, if_neg hc, workerStep] at hstep
    cases hw : s.worker c <;> simp only [hw] at hstep
    case await =>
      split at hstep
      · obtain rfl := some.inj hstep
        exact prefix_rfl
      · cases hstep
    all_goals
      obtain rfl := some.inj hstep
      simp [setWorker, setSlot, setLog, History.start, History.finish]

/-- Along any run the worker either has started what it had taken, or it still has
it and every step it made brought it closer. -/
theorem taken_along_run (hs : Sound mainLcpu s)
    (hc : c ≠ mainLcpu) (hrun : Run (system mainLcpu) (fun _ _ => True) s trace t)
    (htaken : taken (s.pool c) (s.worker c) ≠ []) :
    Sound mainLcpu t ∧ ((s.log c).started ++ taken (s.pool c) (s.worker c) <+: (t.log c).started ∨
        ((t.log c).started = (s.log c).started ∧
          taken (t.pool c) (t.worker c) = taken (s.pool c) (s.worker c) ∧
          (t.worker c).left + workerSteps c trace = (s.worker c).left)) := by
  induction hrun with
  | nil => exact ⟨hs, .inr ⟨rfl, rfl, by simp [workerSteps]⟩⟩
  | @snoc u v tr a hprev _ hstep ih =>
    obtain ⟨hu, hdone | ⟨hstarted, hkept, hleft⟩⟩ := ih
    · exact ⟨hu.step hstep, .inl (hdone.trans (started_mono hc hstep))⟩
    · refine ⟨hu.step hstep, ?_⟩
      have htu : taken (u.pool c) (u.worker c) ≠ [] := by rwa [hkept]
      cases ha : a.isWorker c with
      | false =>
        obtain ⟨hw, htk, hst⟩ := taken_of_other hu hc hstep ha htu
        refine .inr ⟨hst.trans hstarted, htk.trans hkept, ?_⟩
        simp only [workerSteps, countP_append, countP_singleton, ha] at hleft ⊢
        simpa [hw] using hleft
      | true =>
        obtain rfl := eq_worker ha
        rcases taken_of_worker hc hstep htu with hst | ⟨hst, htk, hl⟩
        · rw [hstarted, hkept] at hst
          exact .inl (hst ▸ prefix_rfl)
        · refine .inr ⟨hst.trans hstarted, htk.trans hkept, ?_⟩
          simp only [workerSteps, countP_append, countP_singleton, ha] at hleft ⊢
          simp only [if_true]
          omega

theorem worker_enabled (hc : c ≠ mainLcpu) (htaken : taken (s.pool c) (s.worker c) ≠ []) :
    (step mainLcpu s (.worker c)).isSome := by
  simp only [step, if_neg hc, workerStep]
  cases hw : s.worker c with
  | await =>
    have hready : (s.pool c).ready = true := by
      simpa [hw, taken] using htaken
    simp [hready]
  | _ => rfl

theorem worker_enabled_of_running (hs : Sound mainLcpu s) (hc : c ≠ mainLcpu)
    (hrun : (s.pool c).running = true) : (step mainLcpu s (.worker c)).isSome := by
  have hw := (hs.slot c hc).running
  rw [hrun] at hw
  simp only [step, if_neg hc, workerStep]
  generalize s.worker c = w at hw
  cases w <;> simp [WorkerPc.isRunning] at hw ⊢

/-- Somebody can move as long as a create has not led to its execution. -/
theorem enabled_of_outstanding (hs : Sound mainLcpu s) (hc : c ≠ mainLcpu)
    (hne : (s.log c).started ≠ (s.log c).created) :
    (step mainLcpu s (.worker c)).isSome ∨
      (s.main.lid? = some c ∧ (step mainLcpu s .main).isSome) := by
  by_cases htaken : taken (s.pool c) (s.worker c) = []
  · have hoffer : offered c s.main ≠ [] := by
      intro hnil
      apply hne
      rw [(hs.slot c hc).created, htaken, hnil, append_nil, append_nil]
    have hlid : s.main.lid? = some c := by
      by_contra hlid
      exact hoffer (Handshake.offered_eq_nil hlid)
    cases hrun : (s.pool c).running with
    | true => exact .inl (worker_enabled_of_running hs hc hrun)
    | false =>
      refine .inr ⟨hlid, ?_⟩
      simp only [step, mainStep]
      cases hm : s.main <;> simp_all [offered, MainPc.lid?]
  · exact .inl (worker_enabled hc htaken)

theorem left_pos (h : taken e w ≠ []) : 1 ≤ w.left := by
  cases w <;> simp_all [taken, WorkerPc.left]

theorem left_le_three (hs : Sound mainLcpu s) (hc : c ≠ mainLcpu)
    (hlid : s.main.lid? ≠ some c) (htaken : taken (s.pool c) (s.worker c) ≠ []) :
    (s.worker c).left ≤ 3 := by
  have hready : (s.pool c).ready = false :=
    (hs.slot c hc).ready_clear (by rintro h; simp [h, MainPc.lid?] at hlid)
  have hclaimed := (hs.slot c hc).claimed
  cases hw : s.worker c <;> simp_all [taken, WorkerPc.left]

theorem created_started_of_steps
    (hs : Sound mainLcpu s) (hc : c ≠ mainLcpu) (hlid : s.main.lid? ≠ some c)
    (hrun : Run (system mainLcpu) (fun _ _ => True) s trace t) (hsteps : 3 ≤ workerSteps c trace) :
    (s.log c).created <+: (t.log c).started := by
  rw [(hs.slot c hc).created_of_elsewhere hlid]
  by_cases htaken : taken (s.pool c) (s.worker c) = []
  · rw [htaken, append_nil]
    clear hsteps
    induction hrun with
    | nil => exact prefix_rfl
    | snoc _ _ hstep ih => exact ih.trans (started_mono hc hstep)
  · obtain ⟨-, hdone | ⟨-, hkept, hleft⟩⟩ := taken_along_run hs hc hrun htaken
    · exact hdone
    · have hpos := left_pos (hkept ▸ htaken)
      have hle := left_le_three hs hc hlid htaken
      omega

theorem finished_of_join (hs : Sound mainLcpu s) (hjoin : s.main = .joinWait lid)
    (hstep : step mainLcpu s .main = some t) : (s.log lid).finished = (s.log lid).created := by
  have hrun : (s.pool lid).running = false := by
    simp only [step, mainStep, hjoin] at hstep
    split at hstep
    · cases hstep
    · next h => simpa using h
  by_cases hl : lid = mainLcpu
  · subst hl
    rw [hs.created, hs.started, hjoin]
    simp [ownRoutine]
  · have h := hs.slot lid hl
    obtain ⟨hw, hready⟩ := h.await_of_not_running hrun (by simp [hjoin])
    rw [h.created, h.started, hw, hjoin]
    simp [taken, hready, active, offered]

/-- The hand-shake of the pool. On a slot with a worker the executions are those
of the creates, each once and in their order: never more than were created, and
some thread can move until all of them have started. Once a create has returned
its worker starts the routine at the latest with its third step from there. A
join returns when all executions of its slot have. -/
theorem creates_executed_once (h : Reachable (system mainLcpu) (fun _ _ => True) s) :
    (∀ c, c ≠ mainLcpu → (s.log c).started <+: (s.log c).created ∧
      ((s.log c).started ≠ (s.log c).created → (step mainLcpu s (.worker c)).isSome ∨
          (s.main.lid? = some c ∧ (step mainLcpu s .main).isSome)) ∧
      (s.main.lid? ≠ some c → ∀ trace t, Run (system mainLcpu) (fun _ _ => True) s trace t →
        3 ≤ workerSteps c trace → (s.log c).created <+: (t.log c).started)) ∧
    ∀ lid t, s.main = .joinWait lid → step mainLcpu s .main = some t →
      (s.log lid).finished = (s.log lid).created := by
  have hs := sound_of_reachable h
  refine ⟨fun c hc => ⟨?_, enabled_of_outstanding hs hc, ?_⟩, fun lid t => finished_of_join hs⟩
  · rw [(hs.slot c hc).created, append_assoc]
    exact prefix_append _ _
  · intro hlid trace t hrun hsteps
    exact created_started_of_steps hs hc hlid hrun hsteps

end Runs

def idlePool : State Bool ℕ ℕ where
  pool _ := ⟨0, 0, false, false⟩
  main := .outside
  worker _ := .await
  log _ := ⟨[], [], []⟩

/-- A join right after a create, while the worker has not loaded the routine yet. -/
theorem creates_executed_once_joined :
    ∃ s, Reachable (system (A := ℕ) (R := ℕ) false) (fun _ _ => True) s ∧
      (s.main = .joinWait true ∧ (s.log true).created = [(1, 10)]) ∧
      ∀ lid t, s.main = .joinWait lid → step false s .main = some t →
        (s.log lid).finished = (s.log lid).created := by
  obtain ⟨s, hs, hq⟩ := exists_reachable (system (A := ℕ) (R := ℕ) false) (fun _ _ => True)
    (fun s => s.main = .joinWait true ∧ (s.log true).created = [(1, 10)]) (s := idlePool)
    [.call (.create true 1 10), .main, .main, .main, .main, .worker true, .worker true, .worker true,
      .main, .call (.join true)]
    ⟨fun _ => ⟨rfl, rfl⟩, rfl, fun _ => rfl, fun _ => rfl⟩ (by decide +kernel)
  exact ⟨s, hs, hq, (creates_executed_once hs).2⟩

end Mosbench.Metis.ThreadPool
