import Mosbench.Lib.Transition
import Mathlib.Data.Nat.Basic
import Mathlib.Logic.Function.Basic

/-!
The barrier of the parallel sort (psrs_barrier in psrs.c). The main CPU opens it
with START, collects the ready flags of the others, closes it with STOP and waits
until the flags are clear again.

Memory is sequentially consistent; one step is one access of the shared state or
one test of a loop. Every CPU calls the barrier `calls` times, one call after the
other, and does something else in between.
-/
namespace Mosbench.Metis.Barrier

open Option Transition

inductive Status
  | stop
  | start
  deriving DecidableEq

def mainLcpu : ℕ := 0

/-- Where a CPU is. From setStart on these are the accesses of the main CPU, with
the index of its loops. -/
inductive Pc
  | outside
  | awaitStart
  | setReady
  | awaitStop
  | clearReady
  | setStart
  | collect (i : ℕ)
  | setStop
  | drain (i : ℕ)
  deriving DecidableEq

structure Cpu where
  pc : Pc
  done : ℕ
  deriving DecidableEq

structure Shared where
  status : Status
  ready : ℕ → Bool

structure State where
  shared : Shared
  cpu : ℕ → Cpu

inductive Action
  | call (lcpu : ℕ)
  | step (lcpu : ℕ)
  deriving DecidableEq

structure Initial (s : State) : Prop where
  status : s.shared.status = .stop
  ready : ∀ c, s.shared.ready c = false
  cpu : ∀ c, s.cpu c = ⟨.outside, 0⟩

def Cpu.entered (c : Cpu) : ℕ := if c.pc = .outside then c.done else c.done + 1

def Cpu.leave (c : Cpu) : Cpu := ⟨.outside, c.done + 1⟩

namespace State

def goto (s : State) (c : ℕ) (pc : Pc) : State :=
  { s with cpu := Function.update s.cpu c { s.cpu c with pc := pc } }

def leave (s : State) (c : ℕ) : State :=
  { s with cpu := Function.update s.cpu c (s.cpu c).leave }

def setStatus (s : State) (status : Status) : State :=
  { s with shared := { s.shared with status := status } }

def setReady (s : State) (c : ℕ) (v : Bool) : State :=
  { s with shared := { s.shared with ready := Function.update s.shared.ready c v } }

end State

def entry (lcpu : ℕ) : Pc := if lcpu = mainLcpu then .setStart else .awaitStart

section Steps

variable (ncpus calls : ℕ)

def next (s : State) (lcpu : ℕ) : Option State :=
  match (s.cpu lcpu).pc with
  | .outside => none
  | .awaitStart => if s.shared.status = .start then some (s.goto lcpu .setReady) else none
  | .setReady => some ((s.setReady lcpu true).goto lcpu .awaitStop)
  | .awaitStop => if s.shared.status = .stop then some (s.goto lcpu .clearReady) else none
  | .clearReady => some ((s.setReady lcpu false).leave lcpu)
  | .setStart => some ((s.setStatus .start).goto lcpu (.collect 0))
  | .collect i =>
    if i < ncpus then
      if i = mainLcpu ∨ s.shared.ready i = true then some (s.goto lcpu (.collect (i + 1))) else none
    else some (s.goto lcpu .setStop)
  | .setStop => some ((s.setStatus .stop).goto lcpu (.drain 0))
  | .drain i =>
    if i < ncpus then
      if i = mainLcpu ∨ s.shared.ready i = false then some (s.goto lcpu (.drain (i + 1))) else none
    else some (s.leave lcpu)

def step (s : State) : Action → Option State
  | .call lcpu =>
    if lcpu < ncpus ∧ (s.cpu lcpu).pc = .outside ∧ (s.cpu lcpu).done < calls then
      some (s.goto lcpu (entry lcpu))
    else none
  | .step lcpu => if lcpu < ncpus then next ncpus s lcpu else none

def system : System State Action where
  initial := Initial
  step := step ncpus calls

end Steps

/-- Some steps of the CPU `c` alone, of which the last one changes the shared state
or returns from the barrier and the others do neither. -/
inductive MayMove (ncpus calls : ℕ) (c : ℕ) : State → Prop
  | last {s t : State} : step ncpus calls s (.step c) = some t →
      t.shared ≠ s.shared ∨ (t.cpu c).pc = .outside → MayMove ncpus calls c s
  | own {s t : State} : step ncpus calls s (.step c) = some t →
      MayMove ncpus calls c t → MayMove ncpus calls c s

def callBelow (ncpus calls : ℕ) : ℕ → State → State
  | 0, s => s
  | n + 1, s =>
    let t := callBelow ncpus calls n s
    (step ncpus calls t (.call n)).getD t

def callAll (ncpus calls : ℕ) (s : State) : State := callBelow ncpus calls ncpus s

/-- What one of the other CPUs may do in the round of the main CPU, which has
returned from `d` calls: `status` is open while the flags are collected. -/
inductive Place (d : ℕ) : Status → Bool → Cpu → Prop
  | outside {st : Status} : Place d st false ⟨.outside, d⟩
  | awaitStart {st : Status} : Place d st false ⟨.awaitStart, d⟩
  | setReady : Place d .start false ⟨.setReady, d⟩
  | awaitStop {st : Status} : Place d st true ⟨.awaitStop, d⟩
  | clearReady : Place d .stop true ⟨.clearReady, d⟩

def Pc.status : Pc → Status
  | .collect _ | .setStop => .start
  | _ => .stop

def Pc.round (d : ℕ) : Pc → ℕ
  | .drain _ => d + 1
  | _ => d

def Pc.IsMain : Pc → Prop
  | .outside | .setStart | .collect _ | .setStop | .drain _ => True
  | _ => False

/-- What the flag `r` and the state `x` of the CPU `c` can be while the main CPU is
at `m`, having returned from `d` calls. No flag is set before the round and after
it. While the main CPU drains the flags, some of the others have finished the
round and some have not. -/
def Party (d c : ℕ) (r : Bool) (x : Cpu) : Pc → Prop
  | .collect i => Place d .start r x ∧ (c < i → r = true)
  | .setStop => Place d .start r x ∧ r = true
  | .drain i => (Place d .stop r x ∧ r = true ∧ i ≤ c) ∨ (Place (d + 1) .stop r x ∧ r = false)
  | _ => Place d .stop r x ∧ r = false

namespace Place

theorem call (h : Place d st r x) (hout : x.pc = .outside) : Place d st r ⟨.awaitStart, x.done⟩ := by
  cases h <;> simp_all [Place.awaitStart]

theorem reopen (h : Place d .stop false x) : Place d .start false x := by
  cases h
  · exact .outside
  · exact .awaitStart

theorem close (h : Place d .start true x) : Place d .stop true x := by
  cases h
  exact .awaitStop

theorem done_eq (h : Place d st r x) : x.done = d := by
  cases h <;> rfl

theorem inside (h : Place d st true x) : x.pc ≠ .outside := by
  cases h <;> simp

end Place

structure Inv (ncpus calls : ℕ) (s : State) : Prop where
  main : (s.cpu mainLcpu).pc.IsMain
  status : s.shared.status = (s.cpu mainLcpu).pc.status
  party : ∀ c, c < ncpus → c ≠ mainLcpu →
    Party (s.cpu mainLcpu).done c (s.shared.ready c) (s.cpu c) (s.cpu mainLcpu).pc
  le : ∀ c, (s.cpu c).done ≤ calls
  lt : ∀ c, (s.cpu c).pc ≠ .outside → (s.cpu c).done < calls

theorem inv_of_initial (h : Initial s) : Inv ncpus calls s where
  main := by simp [h.cpu, Pc.IsMain]
  status := by simp [h.cpu, h.status, Pc.status]
  party c _ _ := by
    rw [h.cpu c, h.cpu mainLcpu, h.ready c]
    exact ⟨.outside, rfl⟩
  le c := by simp [h.cpu]
  lt c hc := by simp [h.cpu] at hc

namespace Party

theorem call (h : Party d c r x m) (hout : x.pc = .outside) :
    Party d c r ⟨.awaitStart, x.done⟩ m := by
  cases m with
  | collect i | setStop => exact ⟨h.1.call hout, h.2⟩
  | drain i => exact h.imp (fun h => ⟨h.1.call hout, h.2⟩) fun h => ⟨h.1.call hout, h.2⟩
  | _ => exact ⟨h.1.call hout, h.2⟩

theorem see_start (h : Party d c r ⟨.awaitStart, n⟩ m) (hst : m.status = .start) :
    Party d c r ⟨.setReady, n⟩ m := by
  cases m with
  | collect i =>
    obtain ⟨hp, hi⟩ := h
    cases hp
    exact ⟨.setReady, hi⟩
  | setStop =>
    obtain ⟨hp, hr⟩ := h
    cases hp
    cases hr
  | _ => simp [Pc.status] at hst

theorem set_ready (h : Party d c r ⟨.setReady, n⟩ m) : Party d c true ⟨.awaitStop, n⟩ m := by
  cases m with
  | collect i =>
    obtain ⟨hp, -⟩ := h
    cases hp
    exact ⟨.awaitStop, fun _ => rfl⟩
  | setStop =>
    obtain ⟨hp, hr⟩ := h
    cases hp
    cases hr
  | drain i => obtain ⟨hp, -⟩ | ⟨hp, -⟩ := h <;> cases hp
  | _ => obtain ⟨hp, -⟩ := h; cases hp

theorem see_stop (h : Party d c r ⟨.awaitStop, n⟩ m) (hst : m.status = .stop) :
    Party d c r ⟨.clearReady, n⟩ m := by
  cases m with
  | drain i =>
    obtain ⟨hp, hr, hi⟩ | ⟨hp, hr⟩ := h
    · cases hp
      exact .inl ⟨.clearReady, rfl, hi⟩
    · cases hp
      cases hr
  | collect i | setStop => simp [Pc.status] at hst
  | _ =>
    obtain ⟨hp, hr⟩ := h
    cases hp
    cases hr

theorem clear_ready (h : Party d c r ⟨.clearReady, n⟩ m) : Party d c false ⟨.outside, n + 1⟩ m := by
  cases m with
  | collect i | setStop => obtain ⟨hp, -⟩ := h; cases hp
  | drain i =>
    obtain ⟨hp, -, -⟩ | ⟨hp, hr⟩ := h
    · cases hp
      exact .inr ⟨.outside, rfl⟩
    · cases hp
      cases hr
  | _ =>
    obtain ⟨hp, hr⟩ := h
    cases hp
    cases hr

theorem place (h : Party d c r x m) : ∃ n st, Place n st r x := by
  cases m with
  | drain i =>
    obtain ⟨hp, -, -⟩ | ⟨hp, -⟩ := h
    · exact ⟨d, .stop, hp⟩
    · exact ⟨d + 1, .stop, hp⟩
  | _ => exact ⟨d, _, h.1⟩

theorem between (h : Party d c r x m) : x.done ≤ m.round d ∧ m.round d ≤ x.entered := by
  have houter : ∀ {n st}, Place n st r x → x.done = n ∧ n ≤ x.entered := by
    intro n st hp
    refine ⟨hp.done_eq, ?_⟩
    rw [Cpu.entered, hp.done_eq]
    split <;> omega
  cases m with
  | drain i =>
    obtain ⟨hp, rfl, -⟩ | ⟨hp, -⟩ := h
    · rw [Cpu.entered, if_neg hp.inside, hp.done_eq]
      exact ⟨Nat.le_succ d, le_rfl⟩
    · exact (houter hp).imp_left le_of_eq
  | _ => exact (houter h.1).imp_left le_of_eq

end Party

def State.moveOther (s : State) (c : ℕ) (r : Bool) (x : Cpu) : State where
  shared := { s.shared with ready := Function.update s.shared.ready c r }
  cpu := Function.update s.cpu c x

open State

theorem Inv.moveOther (hs : Inv ncpus calls s) (hc : c ≠ mainLcpu) (hparty : c < ncpus →
      Party (s.cpu mainLcpu).done c (s.shared.ready c) (s.cpu c) (s.cpu mainLcpu).pc →
      Party (s.cpu mainLcpu).done c r x (s.cpu mainLcpu).pc)
    (hle : x.done ≤ calls) (hlt : x.pc ≠ .outside → x.done < calls) :
    Inv ncpus calls (s.moveOther c r x) where
  main := by simpa [State.moveOther, hc.symm] using hs.main
  status := by simpa [State.moveOther, hc.symm] using hs.status
  party c' hc' hne := by
    by_cases hcc : c' = c
    · subst hcc
      simpa [State.moveOther, hc.symm] using hparty hc' (hs.party c' hc' hne)
    · simpa [State.moveOther, hc.symm, hcc] using hs.party c' hc' hne
  le c' := by
    by_cases hcc : c' = c
    · simpa [State.moveOther, hcc] using hle
    · simpa [State.moveOther, hcc] using hs.le c'
  lt c' := by
    by_cases hcc : c' = c
    · simpa [State.moveOther, hcc] using hlt
    · simpa [State.moveOther, hcc] using hs.lt c'

theorem Inv.moveMain (st : Status) (hs : Inv ncpus calls s) (hmain : x.pc.IsMain)
    (hst : st = x.pc.status)
    (hparty : ∀ c, c < ncpus → c ≠ mainLcpu →
      Party (s.cpu mainLcpu).done c (s.shared.ready c) (s.cpu c) (s.cpu mainLcpu).pc →
      Party x.done c (s.shared.ready c) (s.cpu c) x.pc)
    (hle : x.done ≤ calls) (hlt : x.pc ≠ .outside → x.done < calls) :
    Inv ncpus calls ⟨{ s.shared with status := st }, Function.update s.cpu mainLcpu x⟩ where
  main := by simpa using hmain
  status := by simpa using hst
  party c hc hne := by simpa [hne] using hparty c hc hne (hs.party c hc hne)
  le c := by
    by_cases hcm : c = mainLcpu
    · simpa [hcm] using hle
    · simpa [hcm] using hs.le c
  lt c := by
    by_cases hcm : c = mainLcpu
    · simpa [hcm] using hlt
    · simpa [hcm] using hs.lt c

theorem Inv.call (hs : Inv ncpus calls s)
    (hstep : step ncpus calls s (.call lcpu) = some t) : Inv ncpus calls t := by
  simp only [step] at hstep
  split at hstep
  · next h =>
    obtain ⟨-, hout, hlt⟩ := h
    obtain rfl := some.inj hstep
    by_cases hmain : lcpu = mainLcpu
    · subst hmain
      have hst := hs.status
      rw [hout] at hst
      simpa [goto, entry, ← hst] using
        hs.moveMain s.shared.status (x := ⟨.setStart, (s.cpu mainLcpu).done⟩) trivial hst
          (fun c _ _ hp => by simpa [hout, Party] using hp) (hs.le _) fun _ => hlt
    · simpa [State.goto, entry, hmain, State.moveOther] using
        hs.moveOther (r := s.shared.ready lcpu) (x := ⟨.awaitStart, (s.cpu lcpu).done⟩) hmain
          (fun _ hp => hp.call hout) (hs.le _) fun _ => hlt
  · cases hstep

theorem Inv.next_main (hs : Inv ncpus calls s) (hstep : next ncpus s mainLcpu = some t) :
    Inv ncpus calls t := by
  have hmain := hs.main
  have hst := hs.status
  have hle := hs.le mainLcpu
  have hlt := hs.lt mainLcpu
  have hmove := fun st x => hs.moveMain st (x := x)
  unfold next at hstep
  cases hm : (s.cpu mainLcpu).pc with
  | outside => simp [hm] at hstep
  | setStart =>
    simp only [hm] at hstep hmove hlt
    obtain rfl := some.inj hstep
    refine hmove .start ⟨.collect 0, (s.cpu mainLcpu).done⟩ trivial rfl ?_ hle fun _ => hlt (by simp)
    rintro c - - ⟨hp, hr⟩
    rw [hr] at hp ⊢
    exact ⟨hp.reopen, by simp⟩
  | collect i =>
    simp only [hm] at hstep hmove hlt hst
    split at hstep
    · split at hstep
      · next hr =>
        obtain rfl := some.inj hstep
        refine hmove s.shared.status ⟨.collect (i + 1), (s.cpu mainLcpu).done⟩ trivial hst ?_ hle
          fun _ => hlt (by simp)
        rintro c - hne ⟨hp, hi⟩
        refine ⟨hp, fun hlt => ?_⟩
        rcases Nat.lt_succ_iff_lt_or_eq.mp hlt with hlt | rfl
        · exact hi hlt
        · exact hr.resolve_left hne
      · cases hstep
    · next hi =>
      obtain rfl := some.inj hstep
      refine hmove s.shared.status ⟨.setStop, (s.cpu mainLcpu).done⟩ trivial hst ?_ hle
        fun _ => hlt (by simp)
      rintro c hc - ⟨hp, hr⟩
      exact ⟨hp, hr (by omega)⟩
  | setStop =>
    simp only [hm] at hstep hmove hlt
    obtain rfl := some.inj hstep
    refine hmove .stop ⟨.drain 0, (s.cpu mainLcpu).done⟩ trivial rfl ?_ hle fun _ => hlt (by simp)
    rintro c - - ⟨hp, hr⟩
    rw [hr] at hp ⊢
    exact .inl ⟨hp.close, rfl, Nat.zero_le c⟩
  | drain i =>
    simp only [hm] at hstep hmove hlt hst
    split at hstep
    · split at hstep
      · next hr =>
        obtain rfl := some.inj hstep
        refine hmove s.shared.status ⟨.drain (i + 1), (s.cpu mainLcpu).done⟩ trivial hst ?_ hle
          fun _ => hlt (by simp)
        rintro c - hne (⟨hp, hc, hi⟩ | hp)
        · refine .inl ⟨hp, hc, Nat.lt_of_le_of_ne hi ?_⟩
          rintro rfl
          simp [hne, hc] at hr
        · exact .inr hp
      · cases hstep
    · next hi =>
      obtain rfl := some.inj hstep
      refine hmove s.shared.status ⟨.outside, (s.cpu mainLcpu).done + 1⟩ trivial hst ?_
        (hlt (by simp)) (by simp)
      rintro c hc - (⟨-, -, hic⟩ | hp)
      · omega
      · exact hp
  | _ => simp [hm, Pc.IsMain] at hmain

theorem Inv.next_other (hs : Inv ncpus calls s) (hlt : c < ncpus) (hc : c ≠ mainLcpu)
    (hstep : next ncpus s c = some t) : Inv ncpus calls t := by
  have hp := hs.party c hlt hc
  have hst := hs.status
  have hle := hs.le c
  have hdone := hs.lt c
  have hmove := fun r x hparty => hs.moveOther (r := r) (x := x) hc fun _ _ => hparty
  unfold next at hstep
  rcases hx : s.cpu c with ⟨pc, n⟩
  simp only [hx] at hp hle hdone hstep
  cases pc with
  | outside => cases hstep
  | awaitStart =>
    simp only at hstep
    split at hstep
    · next hopen =>
      obtain rfl := some.inj hstep
      simpa [State.goto, State.moveOther, hx] using
        hmove _ _ (hp.see_start (hst.symm.trans hopen)) hle fun _ => hdone (by simp)
    · cases hstep
  | setReady =>
    obtain rfl := some.inj hstep
    simpa [State.goto, State.setReady, State.moveOther, hx] using
      hmove _ _ hp.set_ready hle fun _ => hdone (by simp)
  | awaitStop =>
    simp only at hstep
    split at hstep
    · next hclosed =>
      obtain rfl := some.inj hstep
      simpa [State.goto, State.moveOther, hx] using
        hmove _ _ (hp.see_stop (hst.symm.trans hclosed)) hle fun _ => hdone (by simp)
    · cases hstep
  | clearReady =>
    obtain rfl := some.inj hstep
    simpa [State.leave, Cpu.leave, State.setReady, State.moveOther, hx] using
      hmove _ _ hp.clear_ready (hdone (by simp)) (by simp)
  | _ =>
    obtain ⟨_, _, hplace⟩ := hp.place
    generalize s.shared.ready c = r at hplace
    cases hplace

theorem Inv.step (hs : Inv ncpus calls s) (hstep : step ncpus calls s a = some t) :
    Inv ncpus calls t := by
  cases a with
  | call lcpu => exact hs.call hstep
  | step lcpu =>
    simp only [Barrier.step] at hstep
    split at hstep
    · next hlt =>
      by_cases hmain : lcpu = mainLcpu
      · subst hmain
        exact hs.next_main hstep
      · exact hs.next_other hlt hmain hstep
    · cases hstep

theorem inv_of_reachable (h : Reachable (system ncpus calls) (fun _ _ => True) s) :
    Inv ncpus calls s :=
  h.invariant (I := Inv ncpus calls) (fun _ hinit => inv_of_initial hinit)
    fun _ _ _ _ hs _ hstep => hs.step hstep

theorem Inv.done_le_entered (hs : Inv ncpus calls s) (hc : c < ncpus) (hc' : c' < ncpus) :
    (s.cpu c).done ≤ (s.cpu c').entered := by
  have hbetween : ∀ c, c < ncpus → (s.cpu c).done ≤ (s.cpu mainLcpu).pc.round (s.cpu mainLcpu).done ∧
      (s.cpu mainLcpu).pc.round (s.cpu mainLcpu).done ≤ (s.cpu c).entered := by
    intro c hc
    by_cases hmain : c = mainLcpu
    · subst hmain
      cases hm : (s.cpu mainLcpu).pc <;> simp [Pc.round, Cpu.entered, hm]
    · exact (hs.party c hc hmain).between
  exact Nat.le_trans (hbetween c hc).1 (hbetween c' hc').2

theorem entry_ne_outside (c : ℕ) : entry c ≠ .outside := by
  unfold entry
  split <;> simp

theorem callBelow_done (n c : ℕ) : ((callBelow ncpus calls n s).cpu c).done = (s.cpu c).done := by
  induction n with
  | zero => rfl
  | succ n ih =>
    simp only [callBelow, step]
    split
    · by_cases hc : c = n
      · subst hc
        simpa [goto] using ih
      · simpa [goto, hc] using ih
    · exact ih

theorem callBelow_inside (hn : n ≤ ncpus) (hc : c < n) :
    ((callBelow ncpus calls n s).cpu c).pc ≠ .outside ∨
      calls ≤ ((callBelow ncpus calls n s).cpu c).done := by
  induction n with
  | zero => omega
  | succ n ih =>
    simp only [callBelow, step]
    split
    · by_cases hcn : c = n
      · simp [goto, hcn, entry_ne_outside]
      · simpa [goto, hcn] using ih (by omega) (by omega)
    · next hnot =>
      by_cases hcn : c = n
      · subst hcn
        by_cases hout : ((callBelow ncpus calls c s).cpu c).pc = .outside
        · right
          by_contra hlt
          exact hnot ⟨by omega, hout, by simpa using hlt⟩
        · exact .inl hout
      · exact ih (by omega) (by omega)

theorem callBelow_reachable (h : Reachable (system ncpus calls) (fun _ _ => True) s) (n : ℕ) :
    Reachable (system ncpus calls) (fun _ _ => True) (callBelow ncpus calls n s) := by
  induction n with
  | zero => exact h
  | succ n ih =>
    simp only [callBelow]
    cases hstep : step ncpus calls (callBelow ncpus calls n s) (.call n) with
    | none => exact ih
    | some t => exact ih.step (a := .call n) trivial hstep

theorem step_eq_next (hc : c < ncpus) : step ncpus calls s (.step c) = next ncpus s c :=
  if_pos hc

theorem mayMove_setStop (hpos : 0 < ncpus) (hpc : (s.cpu mainLcpu).pc = .setStop)
    (hst : s.shared.status = .start) : MayMove ncpus calls mainLcpu s := by
  refine .last (t := (s.setStatus .stop).goto mainLcpu (.drain 0)) ?_ (.inl fun h => ?_)
  · simp only [step_eq_next (c := mainLcpu) hpos, next, hpc]
  · have hstop : s.shared.status = .stop := by rw [← h]; rfl
    simp [hst] at hstop

theorem mayMove_collect (k : ℕ) (hk : ncpus - i = k) (hpos : 0 < ncpus)
    (hpc : (s.cpu mainLcpu).pc = .collect i) (hst : s.shared.status = .start)
    (hready : ∀ c, c < ncpus → c ≠ mainLcpu → s.shared.ready c = true) :
    MayMove ncpus calls mainLcpu s := by
  induction k generalizing i s with
  | zero =>
    refine .own (t := s.goto mainLcpu .setStop) ?_ ?_
    · simp only [step_eq_next (c := mainLcpu) hpos, next, hpc, if_neg (show ¬ i < ncpus by omega)]
    · exact mayMove_setStop hpos (by simp [goto]) hst
  | succ k ih =>
    have hi : i < ncpus := by omega
    refine .own (t := s.goto mainLcpu (.collect (i + 1))) ?_ ?_
    · have hflag : i = mainLcpu ∨ s.shared.ready i = true := by
        by_cases him : i = mainLcpu
        · exact .inl him
        · exact .inr (hready i hi him)
      simp only [step_eq_next (c := mainLcpu) hpos, next, hpc, if_pos hi, if_pos hflag]
    · exact ih (i := i + 1) (by omega) (by simp [goto]) hst hready

theorem mayMove_drain (k : ℕ) (hk : ncpus - i = k) (hpos : 0 < ncpus)
    (hpc : (s.cpu mainLcpu).pc = .drain i)
    (hready : ∀ c, c < ncpus → c ≠ mainLcpu → s.shared.ready c = false) :
    MayMove ncpus calls mainLcpu s := by
  induction k generalizing i s with
  | zero =>
    refine .last (t := s.leave mainLcpu) ?_ (.inr ?_)
    · simp only [step_eq_next (c := mainLcpu) hpos, next, hpc, if_neg (show ¬ i < ncpus by omega)]
    · simp [leave, Cpu.leave]
  | succ k ih =>
    have hi : i < ncpus := by omega
    refine .own (t := s.goto mainLcpu (.drain (i + 1))) ?_ ?_
    · have hflag : i = mainLcpu ∨ s.shared.ready i = false := by
        by_cases him : i = mainLcpu
        · exact .inl him
        · exact .inr (hready i hi him)
      simp only [step_eq_next (c := mainLcpu) hpos, next, hpc, if_pos hi, if_pos hflag]
    · exact ih (i := i + 1) (by omega) (by simp [goto]) hready

theorem mayMove_raise (hc : c < ncpus) (hst : s.shared.status = .start)
    (hready : s.shared.ready c = false)
    (hpc : (s.cpu c).pc = .awaitStart ∨ (s.cpu c).pc = .setReady) : MayMove ncpus calls c s := by
  have hraise : ∀ u : State, u.shared = s.shared → (u.cpu c).pc = .setReady →
      MayMove ncpus calls c u := by
    intro u hu hupc
    refine .last (t := (u.setReady c true).goto c .awaitStop) ?_ (.inl fun h => ?_)
    · simp only [step_eq_next hc, next, hupc]
    · have hup : u.shared.ready c = true := by
        rw [← h]
        simp [goto, setReady]
      simp [hu, hready] at hup
  rcases hpc with hpc | hpc
  · refine .own (t := s.goto c .setReady) ?_ (hraise _ rfl (by simp [goto]))
    simp only [step_eq_next hc, next, hpc, if_pos hst]
  · exact hraise s rfl hpc

theorem mayMove_leave (hc : c < ncpus) (hst : s.shared.status = .stop)
    (hpc : (s.cpu c).pc = .awaitStop ∨ (s.cpu c).pc = .clearReady) : MayMove ncpus calls c s := by
  have hleave : ∀ u : State, (u.cpu c).pc = .clearReady → MayMove ncpus calls c u := by
    intro u hupc
    refine .last (t := (u.setReady c false).leave c) ?_ (.inr (by simp [leave, Cpu.leave]))
    simp only [step_eq_next hc, next, hupc]
  rcases hpc with hpc | hpc
  · refine .own (t := s.goto c .clearReady) ?_ (hleave _ (by simp [goto]))
    simp only [step_eq_next hc, next, hpc, if_pos hst]
  · exact hleave s hpc

theorem Inv.exists_mayMove (hs : Inv ncpus calls s)
    (hin : ∀ c, c < ncpus → (s.cpu c).pc ≠ .outside ∨ calls ≤ (s.cpu c).done)
    (hleft : ∃ c, c < ncpus ∧ (s.cpu c).done < calls) :
    ∃ c, c < ncpus ∧ MayMove ncpus calls c s := by
  obtain ⟨c₀, hc₀, hleft⟩ := hleft
  have hpos : 0 < ncpus := by omega
  have hst := hs.status
  have hmain := hs.main
  have hlt := hs.lt mainLcpu
  have hparty := hs.party
  cases hm : (s.cpu mainLcpu).pc with
  | outside =>
    exfalso
    simp only [hm] at hparty
    have hall : calls ≤ (s.cpu mainLcpu).done := (hin mainLcpu hpos).resolve_left (by simp [hm])
    by_cases hc : c₀ = mainLcpu
    · subst hc
      omega
    · have := (hparty c₀ hc₀ hc).1.done_eq
      omega
  | setStart =>
    refine ⟨mainLcpu, hpos, .last (t := (s.setStatus .start).goto mainLcpu (.collect 0)) ?_
      (.inl fun h => ?_)⟩
    · simp only [step_eq_next (c := mainLcpu) hpos, next, hm]
    · have hstart : s.shared.status = .start := by rw [← h]; rfl
      simp [hst, hm, Pc.status] at hstart
  | collect i =>
    simp only [hm] at hst hparty hlt
    by_cases hall : ∀ c, c < ncpus → c ≠ mainLcpu → s.shared.ready c = true
    · exact ⟨mainLcpu, hpos, mayMove_collect _ rfl hpos hm hst hall⟩
    · simp only [not_forall, exists_prop, Bool.not_eq_true] at hall
      obtain ⟨c, hc, hne, hready⟩ := hall
      refine ⟨c, hc, mayMove_raise hc hst hready ?_⟩
      obtain ⟨hp, -⟩ := hparty c hc hne
      have hdone := hp.done_eq
      have hlt := hlt (by simp)
      have hin := hin c hc
      rw [hready] at hp
      generalize s.cpu c = x at hp hdone hin
      cases hp with
      | outside => simp at hin; omega
      | awaitStart => exact .inl rfl
      | setReady => exact .inr rfl
  | setStop =>
    simp only [hm] at hst
    exact ⟨mainLcpu, hpos, mayMove_setStop hpos hm hst⟩
  | drain i =>
    simp only [hm] at hst hparty
    by_cases hall : ∀ c, c < ncpus → c ≠ mainLcpu → s.shared.ready c = false
    · exact ⟨mainLcpu, hpos, mayMove_drain _ rfl hpos hm hall⟩
    · simp only [not_forall, exists_prop, Bool.not_eq_false] at hall
      obtain ⟨c, hc, hne, hready⟩ := hall
      refine ⟨c, hc, mayMove_leave hc hst ?_⟩
      obtain ⟨hp, -, -⟩ | ⟨-, hclear⟩ := hparty c hc hne
      · rw [hready] at hp
        generalize s.cpu c = x at hp
        cases hp with
        | awaitStop => exact .inl rfl
        | clearReady => exact .inr rfl
      · simp [hready] at hclear
  | _ => simp [hm, Pc.IsMain] at hmain

/-- The barrier of the parallel sort. No CPU has returned from its k-th call before
every CPU has begun its k-th call. As long as some CPU has a call to finish, let
those outside call the barrier: then some CPU inside, by its own steps alone,
changes the shared state or leaves. -/
theorem barrier_rounds (h : Reachable (system ncpus calls) (fun _ _ => True) s) :
    (∀ k c c', c < ncpus → c' < ncpus → k ≤ (s.cpu c).done → k ≤ (s.cpu c').entered) ∧
    ((∃ c, c < ncpus ∧ (s.cpu c).done < calls) →
      ∃ c, c < ncpus ∧ ((callAll ncpus calls s).cpu c).pc ≠ .outside ∧
        MayMove ncpus calls c (callAll ncpus calls s)) := by
  constructor
  · intro k c c' hc hc' hk
    exact Nat.le_trans hk ((inv_of_reachable h).done_le_entered hc hc')
  · rintro ⟨c₀, hc₀, hleft⟩
    have hall := inv_of_reachable (callBelow_reachable h ncpus)
    obtain ⟨c, hc, hmove⟩ := hall.exists_mayMove (fun c hc => callBelow_inside le_rfl hc)
      ⟨c₀, hc₀, by rwa [callBelow_done]⟩
    refine ⟨c, hc, ?_, hmove⟩
    intro hout
    have hstuck : step ncpus calls (callAll ncpus calls s) (.step c) = none := by
      rw [step_eq_next hc, next, hout]
    rcases hmove with ⟨hstep, -⟩ | ⟨hstep, -⟩ <;> exact absurd (hstuck.symm.trans hstep) (by simp)

def idle : State := ⟨⟨.stop, fun _ => false⟩, fun _ => ⟨.outside, 0⟩⟩

/-- Of two CPUs that call the barrier twice, the second has returned from its first
call and the main CPU has not: it has entered it, and the round ends. -/
theorem barrier_rounds_two : ∃ s, Reachable (system 2 2) (fun _ _ => True) s ∧
      ((s.cpu 1).done = 1 ∧ (s.cpu 0).done = 0) ∧ 1 ≤ (s.cpu 0).entered ∧
      ∃ c, c < 2 ∧ ((callAll 2 2 s).cpu c).pc ≠ .outside ∧ MayMove 2 2 c (callAll 2 2 s) := by
  obtain ⟨s, hs, hq⟩ := exists_reachable (system 2 2) (fun _ _ => True)
    (fun s => (s.cpu 1).done = 1 ∧ (s.cpu 0).done = 0) (s := idle)
    [.call 1, .call 0, .step 0, .step 1, .step 1, .step 0, .step 0, .step 0, .step 0, .step 1, .step 1]
    ⟨rfl, fun _ => rfl, fun _ => rfl⟩ (by decide +kernel)
  have h := barrier_rounds hs
  exact ⟨s, hs, hq, h.1 1 1 0 (by decide) (by decide) (by omega), h.2 ⟨0, by decide, by omega⟩⟩

end Mosbench.Metis.Barrier
