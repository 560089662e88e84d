import Mosbench.Lib.Tally
import Mosbench.Lib.Tickets
import Mosbench.Lib.Transition

/-!
How Metis hands out work: the splits of the input to the map workers
(presplitter.c, mr_map_worker and mr_sample in mr-sched.c) and the reduce tasks to
the reduce workers (mr_reduce_worker). Both are a shared int that every worker
increments with atomic_add32_ret until it gets a number past the end.

The int has 32 bits. The number of splits has 64 and is compared as an unsigned
number, the number of reduce tasks is an int. mr_run_task joins all workers of a
phase before the next one begins.
-/
namespace Mosbench.Metis.Splitter

open Finset BitVec List Option Transition Fintype

variable {C : Type} [Fintype C] [DecidableEq C]

structure Presplitter where
  idx : BitVec 32
  nsplits : BitVec 64
  nsplitsBak : BitVec 64
  deriving DecidableEq

def presplitter (ps : Presplitter) : Option ℤ × Presplitter :=
  let i := ps.idx
  (if ps.nsplits ≤ i.signExtend 64 then none else some i.toInt, { ps with idx := ps.idx + 1 })

def presplitterInit (nsplits : BitVec 64) : Presplitter := ⟨0, nsplits, 0⟩

def presplitterPrepSample (ps : Presplitter) (ntasks : BitVec 64) : Presplitter :=
  { ps with nsplitsBak := ps.nsplits, nsplits := ntasks }

def presplitterDoneSample (ps : Presplitter) : Presplitter :=
  { ps with idx := ps.nsplits.setWidth 32, nsplits := ps.nsplitsBak }

def samplePercent : BitVec 64 := 5

def nsampled (nrCpus ntotal : BitVec 64) : BitVec 64 :=
  let n := samplePercent * ntotal / 100
  let n := if n < nrCpus then (if nrCpus > ntotal then ntotal else nrCpus) else n
  if n = 0 then 1 else n

/-- A run of mr_run_scheduler: its input has a split, as presplitter_init asserts,
and its number of reduce tasks is not negative. -/
structure Job where
  nsplits : BitVec 64
  pos : 0 < nsplits.toNat
  sampling : Bool
  tasks : BitVec 32
  nonneg : 0 ≤ tasks.toInt

inductive Phase
  | sample
  | map
  | reduce
  | finished
  deriving DecidableEq

/-- `maps` and `reduces` record which worker got which split and task, in order. -/
structure State (C : Type) where
  phase : Phase
  ps : Presplitter
  taskPos : BitVec 32
  exited : C → Bool
  maps : List (C × ℤ)
  reduces : List (C × ℤ)

inductive Action (C : Type)
  | draw (c : C)
  | advance
  deriving DecidableEq

def nrCpus (C : Type) [Fintype C] : BitVec 64 := BitVec.ofNat 64 (card C)

def start (j : Job) : State C where
  phase := if j.sampling then .sample else .map
  ps :=
    if j.sampling then
      presplitterPrepSample (presplitterInit j.nsplits) (nsampled (nrCpus C) j.nsplits)
    else presplitterInit j.nsplits
  taskPos := 0
  exited _ := false
  maps := []
  reduces := []

namespace State

def exit (s : State C) (c : C) : State C := { s with exited := Function.update s.exited c true }

def mapTurn (s : State C) (c : C) : State C :=
  match presplitter s.ps with
  | (some i, ps) => { s with ps := ps, maps := s.maps ++ [(c, i)] }
  | (none, ps) => { s.exit c with ps := ps }

def reduceTurn (j : Job) (s : State C) (c : C) : State C :=
  let curTask := s.taskPos
  let s := { s with taskPos := s.taskPos + 1 }
  if j.tasks.toInt ≤ curTask.toInt then s.exit c
  else { s with reduces := s.reduces ++ [(c, curTask.toInt)] }

end State

/-- A worker takes a turn, or the main thread has joined all of them. -/
def step (j : Job) (s : State C) : Action C → Option (State C)
  | .draw c =>
    if s.exited c then none else
      match s.phase with
      | .sample | .map => some (s.mapTurn c)
      | .reduce => some (s.reduceTurn j c)
      | .finished => none
  | .advance =>
    if ∀ c, s.exited c = true then
      match s.phase with
      | .sample =>
        some { s with phase := .map, ps := presplitterDoneSample s.ps, exited := fun _ => false }
      | .map => some { s with phase := .reduce, taskPos := 0, exited := fun _ => false }
      | .reduce => some { s with phase := .finished, exited := fun _ => false }
      | .finished => none
    else none

def system (j : Job) : System (State C) (Action C) where
  initial s := s = start j
  step := step j

def Drawn (limit : ℕ) (counter : BitVec 32) (log : List (C × ℤ)) (exited : C → Bool) : Prop :=
  ∃ t : Tickets limit, counter = BitVec.ofNat 32 t.next ∧
    log.map Prod.snd = (List.range t.issued).map Int.ofNat ∧
    t.refused = ∑ c, (exited c).toNat

namespace Drawn

variable {log : List (C × ℤ)} {exited : C → Bool}

omit [DecidableEq C] in
theorem refused_lt (hc : exited c = false) : ∑ c, (exited c).toNat < card C := by
  classical
  have hle : ∑ q ∈ univ.erase c, (exited q).toNat ≤ (univ.erase c).card := by
    calc ∑ q ∈ univ.erase c, (exited q).toNat
        ≤ ∑ _q ∈ univ.erase c, 1 := sum_le_sum fun q _ => Bool.toNat_le _
      _ = _ := by simp
  rw [← add_sum_erase _ _ (mem_univ c), hc]
  rw [card_erase_of_mem (mem_univ c), card_univ] at hle
  have hpos : 0 < card C := card_pos_iff.mpr ⟨c⟩
  simp only [Bool.toNat_false]
  omega

theorem sum_exit (hc : exited c = false) :
    ∑ q, (Function.update exited c true q).toNat = ∑ q, (exited q).toNat + 1 := by
  have h := Tally.sum_add_of_agree (p := c) (f := fun q => (exited q).toNat)
    (g := fun q => (Function.update exited c true q).toNat) fun q hq => by simp [hq]
  simpa [hc] using h

omit [DecidableEq C] in
theorem starting (h : n ≤ limit) (hlog : log.map Prod.snd = (List.range n).map Int.ofNat) :
    Drawn limit (BitVec.ofNat 32 n) log (fun _ => false) :=
  ⟨.starting n h, rfl, hlog, by simp [Tickets.starting]⟩

omit [DecidableEq C] in
theorem issue (t : Tickets limit) (ht : t.next < limit)
    (hlog : log.map Prod.snd = (List.range t.issued).map Int.ofNat)
    (hex : t.refused = ∑ c, (exited c).toNat) :
    Drawn limit (BitVec.ofNat 32 t.next + 1) (log ++ [(c, (t.next : ℤ))]) exited := by
  refine ⟨t.issue ht, ?_, ?_, hex⟩
  · rw [Tickets.next_issue, ofNat_add]
    rfl
  · rw [map_append, hlog, t.next_eq_issued ht]
    simp [Tickets.issue, range_succ]

theorem refuse (t : Tickets limit) (ht : limit ≤ t.next) (hc : exited c = false)
    (hlog : log.map Prod.snd = (List.range t.issued).map Int.ofNat)
    (hex : t.refused = ∑ c, (exited c).toNat) :
    Drawn limit (BitVec.ofNat 32 t.next + 1) log (Function.update exited c true) := by
  refine ⟨t.refuse ht, ?_, hlog, ?_⟩
  · rw [Tickets.next_refuse, ofNat_add]
    rfl
  · rw [sum_exit hc, ← hex]
    rfl

omit [DecidableEq C] in
theorem complete [Nonempty C] (h : Drawn limit counter log exited) (hall : ∀ c, exited c = true) :
    log.map Prod.snd = (List.range limit).map Int.ofNat := by
  obtain ⟨t, -, hlog, hex⟩ := h
  have hpos : 0 < t.refused := by
    rw [hex]
    simp [hall, Fintype.card_pos]
  rwa [t.full hpos] at hlog

omit [DecidableEq C] in
theorem next_lt (t : Tickets limit) (hc : exited c = false)
    (hex : t.refused = ∑ c, (exited c).toNat) : t.next < limit + card C := by
  have hlt := refused_lt hc
  have hle := t.le
  simp only [Tickets.next]
  omega

end Drawn

theorem toNat_signExtend_ofNat (h : n < 2 ^ 32) :
    ((BitVec.ofNat 32 n).signExtend 64).toNat = if n < 2 ^ 31 then n else n + (2 ^ 64 - 2 ^ 32) := by
  rw [toNat_signExtend, msb_eq_decide]
  simp only [toNat_setWidth, toNat_ofNat, Nat.mod_eq_of_lt h]
  split <;> split <;> simp at * <;> omega

theorem toInt_ofNat (h : n < 2 ^ 31) : (BitVec.ofNat 32 n).toInt = n := by
  rw [toInt_eq_toNat_of_lt] <;> simp <;> omega

/-- With at most 2^31 splits the comparison with the sign-extended index is right,
also for the indices past the end that are negative as an int. -/
theorem presplitter_ofNat (hsplits : nsplits.toNat ≤ 2 ^ 31) (hn : n < 2 ^ 32) :
    presplitter ⟨BitVec.ofNat 32 n, nsplits, bak⟩ =
      (if n < nsplits.toNat then some (n : ℤ) else none, ⟨BitVec.ofNat 32 n + 1, nsplits, bak⟩) := by
  have hcmp : nsplits ≤ (BitVec.ofNat 32 n).signExtend 64 ↔ ¬ n < nsplits.toNat := by
    rw [le_def, toNat_signExtend_ofNat hn]
    split <;> omega
  simp only [presplitter, hcmp, Prod.mk.injEq, and_true]
  by_cases h : n < nsplits.toNat
  · rw [if_neg (by simpa using h), if_pos h, toInt_ofNat (by omega)]
  · rw [if_pos h, if_neg h]

theorem nsampled_le (cpus : BitVec 64) (hpos : 0 < ntotal.toNat) :
    (nsampled cpus ntotal).toNat ≤ ntotal.toNat := by
  have hpercent : (samplePercent * ntotal / 100).toNat ≤ ntotal.toNat := by
    have hmod := Nat.mod_le (5 * ntotal.toNat) (2 ^ 64)
    have hfive : BitVec.toNat (5 : BitVec 64) = 5 := rfl
    have hhundred : BitVec.toNat (100 : BitVec 64) = 100 := rfl
    rw [samplePercent, toNat_udiv, toNat_mul, hfive, hhundred]
    exact Nat.div_le_of_le_mul (by omega)
  have hcpus : (if cpus > ntotal then ntotal else cpus).toNat ≤ ntotal.toNat := by
    split
    · exact le_rfl
    · next h => simpa [lt_def] using h
  have hone : ∀ n : BitVec 64, n.toNat ≤ ntotal.toNat → (if n = 0 then 1 else n).toNat ≤ ntotal.toNat := by
    intro n hn
    split
    · exact hpos
    · exact hn
  apply hone
  split
  · exact hcpus
  · exact hpercent

/-- The counters do not run over: at most 2^31 splits, and neither the splits nor the
reduce tasks come within the number of workers of the end of the range. -/
structure Job.InRange (j : Job) (ncpus : ℕ) : Prop where
  splits : j.nsplits.toNat ≤ 2 ^ 31
  draws : j.nsplits.toNat + ncpus ≤ 2 ^ 32
  tasks : j.tasks.toInt + ncpus ≤ 2 ^ 31

def Complete (n : ℕ) (log : List (C × ℤ)) : Prop :=
  log.map Prod.snd = (List.range n).map Int.ofNat

def Inv (j : Job) (s : State C) : Prop :=
  match s.phase with
  | .sample => s.ps.nsplits = nsampled (nrCpus C) j.nsplits ∧ s.ps.nsplitsBak = j.nsplits ∧
      Drawn (nsampled (nrCpus C) j.nsplits).toNat s.ps.idx s.maps s.exited ∧ s.reduces = []
  | .map => s.ps.nsplits = j.nsplits ∧ Drawn j.nsplits.toNat s.ps.idx s.maps s.exited ∧ s.reduces = []
  | .reduce => Complete j.nsplits.toNat s.maps ∧
      Drawn j.tasks.toInt.toNat s.taskPos s.reduces s.exited
  | .finished => Complete j.nsplits.toNat s.maps ∧ Complete j.tasks.toInt.toNat s.reduces

variable {j : Job} {s : State C}

omit [DecidableEq C] in
theorem inv_start : Inv j (start j : State C) := by
  cases hj : j.sampling with
  | true =>
    simp only [Inv, start, hj, if_true]
    exact ⟨rfl, rfl, Drawn.starting (Nat.zero_le _) rfl, trivial⟩
  | false =>
    simp only [Inv, start, hj]
    exact ⟨rfl, Drawn.starting (Nat.zero_le _) rfl, trivial⟩

open State

theorem drawn_mapTurn (hsplits : s.ps.nsplits.toNat ≤ 2 ^ 31)
    (hdraws : s.ps.nsplits.toNat + card C ≤ 2 ^ 32) (hc : s.exited c = false)
    (h : Drawn s.ps.nsplits.toNat s.ps.idx s.maps s.exited) :
    Drawn s.ps.nsplits.toNat (s.mapTurn c).ps.idx (s.mapTurn c).maps (s.mapTurn c).exited ∧
      (s.mapTurn c).ps.nsplits = s.ps.nsplits ∧ (s.mapTurn c).ps.nsplitsBak = s.ps.nsplitsBak ∧
      (s.mapTurn c).phase = s.phase ∧ (s.mapTurn c).reduces = s.reduces := by
  obtain ⟨t, hidx, hlog, hex⟩ := h
  have hlt := Drawn.next_lt t hc hex
  have hps : presplitter s.ps = (if t.next < s.ps.nsplits.toNat then some (t.next : ℤ) else none,
      ⟨BitVec.ofNat 32 t.next + 1, s.ps.nsplits, s.ps.nsplitsBak⟩) := by
    rw [← presplitter_ofNat hsplits (by omega), ← hidx]
  by_cases ht : t.next < s.ps.nsplits.toNat
  · rw [if_pos ht] at hps
    rw [mapTurn, hps]
    exact ⟨Drawn.issue t ht hlog hex, rfl, rfl, rfl, rfl⟩
  · rw [if_neg ht] at hps
    rw [mapTurn, hps]
    exact ⟨Drawn.refuse t (by omega) hc hlog hex, rfl, rfl, rfl, rfl⟩

theorem drawn_reduceTurn (htasks : j.tasks.toInt + card C ≤ 2 ^ 31)
    (hc : s.exited c = false) (h : Drawn j.tasks.toInt.toNat s.taskPos s.reduces s.exited) :
    Drawn j.tasks.toInt.toNat (s.reduceTurn j c).taskPos (s.reduceTurn j c).reduces
        (s.reduceTurn j c).exited ∧
      (s.reduceTurn j c).phase = s.phase ∧ (s.reduceTurn j c).maps = s.maps := by
  obtain ⟨t, hpos, hlog, hex⟩ := h
  have hlt := Drawn.next_lt t hc hex
  have hcur : s.taskPos.toInt = t.next := by
    rw [hpos]
    apply toInt_ofNat
    have := j.nonneg
    omega
  by_cases ht : t.next < j.tasks.toInt.toNat
  · have hnot : ¬ j.tasks.toInt ≤ s.taskPos.toInt := by omega
    rw [reduceTurn, if_neg hnot, hcur, hpos]
    exact ⟨Drawn.issue t ht hlog hex, rfl, rfl⟩
  · have hle : j.tasks.toInt ≤ s.taskPos.toInt := by omega
    rw [reduceTurn, if_pos hle, hpos]
    exact ⟨Drawn.refuse t (by omega) hc hlog hex, rfl, rfl⟩

theorem Inv.draw (hj : j.InRange (card C)) (hs : Inv j s)
    (hstep : step j s (.draw c) = some t) : Inv j t := by
  simp only [step] at hstep
  split at hstep
  · cases hstep
  · next hc =>
    have hc : s.exited c = false := by simpa using hc
    have hsplits := hj.splits
    have hdraws := hj.draws
    cases hphase : s.phase <;> simp only [hphase, some.injEq, reduceCtorEq] at hstep
    all_goals
      subst hstep
      simp only [Inv, hphase] at hs
    case sample =>
      obtain ⟨hn, hbak, hdrawn, hred⟩ := hs
      have hle := nsampled_le (nrCpus C) j.pos
      rw [← hn] at hdrawn hle
      obtain ⟨hdrawn', hn', hbak', hphase', hred'⟩ :=
        drawn_mapTurn (by omega) (by omega) hc hdrawn
      simp only [Inv, hphase', hphase]
      refine ⟨hn'.trans hn, hbak'.trans hbak, ?_, hred'.trans hred⟩
      rwa [← hn]
    case map =>
      obtain ⟨hn, hdrawn, hred⟩ := hs
      rw [← hn] at hdrawn hsplits hdraws
      obtain ⟨hdrawn', hn', -, hphase', hred'⟩ := drawn_mapTurn hsplits hdraws hc hdrawn
      simp only [Inv, hphase', hphase]
      refine ⟨hn'.trans hn, ?_, hred'.trans hred⟩
      rwa [← hn]
    case reduce =>
      obtain ⟨hdrawn', hphase', hmaps'⟩ := drawn_reduceTurn hj.tasks hc hs.2
      simp only [Inv, hphase', hphase]
      exact ⟨by rw [hmaps']; exact hs.1, hdrawn'⟩

theorem setWidth_eq_ofNat (x : BitVec 64) : x.setWidth 32 = BitVec.ofNat 32 x.toNat := by
  apply eq_of_toNat_eq
  simp

theorem Inv.advance [Nonempty C] (hs : Inv j s) (hstep : step j s .advance = some t) : Inv j t := by
  simp only [step] at hstep
  split at hstep
  · next hall =>
    cases hphase : s.phase <;> simp only [hphase, some.injEq, reduceCtorEq] at hstep
    all_goals
      subst hstep
      simp only [Inv, hphase] at hs
    case sample =>
      obtain ⟨hn, hbak, hdrawn, hred⟩ := hs
      refine ⟨hbak, ?_, hred⟩
      simp only [presplitterDoneSample, hn, setWidth_eq_ofNat]
      exact Drawn.starting (nsampled_le _ j.pos) (hdrawn.complete hall)
    case map =>
      obtain ⟨hn, hdrawn, hred⟩ := hs
      refine ⟨hdrawn.complete hall, Drawn.starting (Nat.zero_le _) ?_⟩
      simp [hred]
    case reduce =>
      exact ⟨hs.1, hs.2.complete hall⟩
  · cases hstep

theorem inv_of_reachable [Nonempty C] (hj : j.InRange (card C))
    (h : Reachable (system j) (fun _ _ => True) s) : Inv j s := by
  refine h.invariant (I := Inv j) (fun _ hinit => hinit ▸ inv_start) ?_
  intro s a t _ hs _ hstep
  cases a with
  | draw c => exact hs.draw hj hstep
  | advance => exact hs.advance hstep

theorem enabled_of_not_finished (h : s.phase ≠ .finished) : ∃ a, (step j s a).isSome := by
  by_cases hall : ∀ c, s.exited c = true
  · refine ⟨.advance, ?_⟩
    simp only [step, if_pos hall]
    cases hphase : s.phase <;> simp_all
  · simp only [not_forall, Bool.not_eq_true] at hall
    obtain ⟨c, hc⟩ := hall
    refine ⟨.draw c, ?_⟩
    simp only [step, hc]
    cases hphase : s.phase <;> simp_all

def Phase.index : Phase → ℕ
  | .sample => 0
  | .map => 1
  | .reduce => 2
  | .finished => 3

def rank (s : State C) : ℕ :=
  s.maps.length + s.reduces.length + ∑ c, (s.exited c).toNat + s.phase.index * (card C + 1)

theorem rank_mapTurn (hc : s.exited c = false) : rank (s.mapTurn c) = rank s + 1 := by
  rcases hps : presplitter s.ps with ⟨_ | i, ps⟩
  · simp only [mapTurn, hps, rank, exit, Drawn.sum_exit hc]
    omega
  · simp only [mapTurn, hps, rank, length_append, length_singleton]
    omega

theorem rank_reduceTurn (hc : s.exited c = false) : rank (s.reduceTurn j c) = rank s + 1 := by
  simp only [reduceTurn]
  split
  · simp only [rank, exit, Drawn.sum_exit hc]
    omega
  · simp only [rank, length_append, length_singleton]
    omega

theorem rank_step (hstep : step j s a = some t) : rank t = rank s + 1 := by
  cases a with
  | draw c =>
    simp only [step] at hstep
    split at hstep
    · cases hstep
    · next hc =>
      have hc : s.exited c = false := by simpa using hc
      cases hphase : s.phase <;> simp only [hphase, some.injEq, reduceCtorEq] at hstep
      case reduce => exact hstep ▸ rank_reduceTurn hc
      all_goals exact hstep ▸ rank_mapTurn hc
  | advance =>
    simp only [step] at hstep
    split at hstep
    · next hall =>
      have hsum : ∑ c, (s.exited c).toNat = card C := by simp [hall]
      cases hphase : s.phase <;> simp only [hphase, some.injEq, reduceCtorEq] at hstep
      all_goals
        subst hstep
        simp only [rank, hsum, hphase, Phase.index, Bool.toNat_false, sum_const_zero]
        omega
    · cases hstep

theorem rank_run (hrun : Run (system j) ok s trace t) : rank t = rank s + trace.length := by
  induction hrun with
  | nil => rfl
  | snoc _ _ hstep ih =>
    rw [rank_step hstep, ih]
    simp
    omega

omit [Fintype C] [DecidableEq C] in
theorem Complete.count (h : Complete n log) (i : ℤ) :
    (log.map Prod.snd).count i = if 0 ≤ i ∧ i < n then 1 else 0 := by
  have hnodup : ((List.range n).map Int.ofNat).Nodup :=
    nodup_range.map fun _ _ => Int.ofNat.inj
  have hmem : i ∈ (List.range n).map Int.ofNat ↔ 0 ≤ i ∧ i < n := by
    simp only [List.mem_map, List.mem_range]
    constructor
    · rintro ⟨k, hk, rfl⟩
      exact ⟨Int.natCast_nonneg k, by simpa using hk⟩
    · rintro ⟨h0, hi⟩
      exact ⟨i.toNat, by omega, by simpa using h0⟩
  rw [h, Nodup.count hnodup]
  simp only [hmem]

omit [Fintype C] [DecidableEq C] in
theorem Complete.length_eq (h : Complete n log) : log.length = n := by
  simpa using congrArg length h

omit [DecidableEq C] in
theorem Inv.handed (hs : Inv j s) :
    ∃ m ≤ j.nsplits.toNat, ∃ r ≤ j.tasks.toInt.toNat, Complete m s.maps ∧ Complete r s.reduces := by
  have hempty : ∀ {log : List (C × ℤ)}, log = [] → Complete 0 log := by
    rintro log rfl
    rfl
  cases hphase : s.phase with
  | sample =>
    simp only [Inv, hphase] at hs
    obtain ⟨-, -, ⟨t, -, hlog, -⟩, hred⟩ := hs
    exact ⟨t.issued, t.le.trans (nsampled_le _ j.pos), 0, Nat.zero_le _, hlog, hempty hred⟩
  | map =>
    simp only [Inv, hphase] at hs
    obtain ⟨-, ⟨t, -, hlog, -⟩, hred⟩ := hs
    exact ⟨t.issued, t.le, 0, Nat.zero_le _, hlog, hempty hred⟩
  | reduce =>
    simp only [Inv, hphase] at hs
    obtain ⟨hmaps, t, -, hlog, -⟩ := hs
    exact ⟨_, le_rfl, t.issued, t.le, hmaps, hlog⟩
  | finished =>
    simp only [Inv, hphase] at hs
    exact ⟨_, le_rfl, _, le_rfl, hs.1, hs.2⟩

omit [DecidableEq C] in
theorem rank_le (hs : Inv j s) :
    rank s ≤ j.nsplits.toNat + j.tasks.toInt.toNat + 4 * (card C + 1) := by
  obtain ⟨m, hm, r, hr, hmaps, hreduces⟩ := hs.handed
  have hsum : ∑ c, (s.exited c).toNat ≤ card C := Tally.sum_le_card fun c => Bool.toNat_le _
  have hphase : s.phase.index * (card C + 1) ≤ 3 * (card C + 1) := by
    apply Nat.mul_le_mul_right
    cases s.phase <;> simp [Phase.index]
  simp only [rank, hmaps.length_eq, hreduces.length_eq]
  omega

/-- Work is handed out once. At no time has a split or a task gone to two workers; when
the map phase is over each split has gone to one, with or without a sampling phase
before it, and when the reduce phase is over so has each task. Every run gets there:
some worker can go on until the job is finished, and the number of steps is bounded. -/
theorem work_handed_out_once [Nonempty C] (hj : j.InRange (Fintype.card C))
    {trace : List (State C × Action C)} (hrun : Run (system j) (fun _ _ => True) (start j) trace s) :
    (∀ i : ℤ, (s.maps.map Prod.snd).count i ≤ 1 ∧ (s.reduces.map Prod.snd).count i ≤ 1) ∧
    (s.phase = .reduce ∨ s.phase = .finished → ∀ i : ℤ,
      (s.maps.map Prod.snd).count i = if 0 ≤ i ∧ i < j.nsplits.toNat then 1 else 0) ∧
    (s.phase = .finished → ∀ i : ℤ,
      (s.reduces.map Prod.snd).count i = if 0 ≤ i ∧ i < j.tasks.toInt then 1 else 0) ∧
    (s.phase ≠ .finished → ∃ a, (step j s a).isSome) ∧
    trace.length ≤ j.nsplits.toNat + j.tasks.toInt.toNat + 4 * (Fintype.card C + 1) := by
  have hs : Inv j s := inv_of_reachable hj ⟨_, trace, rfl, hrun⟩
  refine ⟨?_, ?_, ?_, enabled_of_not_finished, ?_⟩
  · obtain ⟨m, -, r, -, hmaps, hreduces⟩ := hs.handed
    intro i
    rw [hmaps.count, hreduces.count]
    constructor <;> split <;> simp
  · intro hphase
    have hmaps : Complete j.nsplits.toNat s.maps := by
      rcases hphase with hphase | hphase <;> simp only [Inv, hphase] at hs <;> exact hs.1
    exact hmaps.count
  · intro hphase i
    simp only [Inv, hphase] at hs
    rw [hs.2.count, Int.toNat_of_nonneg j.nonneg]
  · have hrank := rank_run hrun
    have hle := rank_le hs
    omega

def smallJob : Job := ⟨3, by decide, true, 2, by decide⟩

theorem work_handed_out_once_small : smallJob.InRange (Fintype.card Bool) ∧
      ∃ trace s, Run (system smallJob) (fun _ _ => True) (start smallJob : State Bool) trace s ∧
        s.phase = .finished ∧
        (∀ i : ℤ, (s.maps.map Prod.snd).count i = if 0 ≤ i ∧ i < 3 then 1 else 0) ∧
        ∀ i : ℤ, (s.reduces.map Prod.snd).count i = if 0 ≤ i ∧ i < 2 then 1 else 0 := by
  have hj : smallJob.InRange (card Bool) := ⟨by decide, by decide, by decide⟩
  obtain ⟨s, ⟨s₀, trace, rfl, hrun⟩, hfin⟩ := exists_reachable (system smallJob) (fun _ _ => True)
    (fun s : State Bool => s.phase = .finished) (s := start smallJob)
    [.draw true, .draw false, .draw true, .draw false, .advance, .draw true, .draw true, .draw false,
      .advance, .draw true, .draw false, .draw false, .draw true, .advance] rfl (by decide +kernel)
  have h := work_handed_out_once hj hrun
  exact ⟨hj, trace, s, hrun, hfin, h.2.1 (.inr hfin), h.2.2.1 hfin⟩

/-- With more splits than the index can count, the splits below 2^31 are handed out as
long as nobody leaves. -/
theorem exists_handed (j : Job) (hj : j.sampling = false) (hmany : 2 ^ 31 < j.nsplits.toNat) (c : C)
    (m : ℕ) (hm : m ≤ 2 ^ 31) :
    ∃ s : State C, Reachable (system j) (fun _ _ => True) s ∧ s.phase = .map ∧
      (∀ c, s.exited c = false) ∧ s.ps.idx = BitVec.ofNat 32 m ∧ s.ps.nsplits = j.nsplits ∧
      Complete m s.maps := by
  induction m with
  | zero =>
    refine ⟨start j, Reachable.of_initial rfl, ?_, fun _ => rfl, ?_, ?_, rfl⟩ <;>
      simp [start, hj, presplitterInit]
  | succ m ih =>
    obtain ⟨s, hs, hphase, hex, hidx, hn, hmaps⟩ := ih (by omega)
    have hps : presplitter s.ps = (some (m : ℤ), { s.ps with idx := s.ps.idx + 1 }) := by
      have hcmp : ¬ s.ps.nsplits ≤ s.ps.idx.signExtend 64 := by
        rw [hn, hidx, le_def, toNat_signExtend_ofNat (by omega), if_pos (by omega)]
        omega
      rw [presplitter, if_neg hcmp, hidx, toInt_ofNat (by omega)]
    refine ⟨s.mapTurn c, hs.step (a := .draw c) trivial ?_, ?_, ?_, ?_, ?_, ?_⟩
    · simp [system, step, hex, hphase]
    all_goals simp only [mapTurn, hps]
    · exact hphase
    · exact hex
    · rw [hidx, ofNat_add]
      rfl
    · exact hn
    · have h : s.maps.map Prod.snd = (List.range m).map Int.ofNat := hmaps
      simp [Complete, h, range_succ]

/-- One CPU and one split more than 2^31: the map phase ends and the last split has
gone to nobody. -/
theorem last_split_not_handed_out :
    ∃ (j : Job) (s : State Unit), Reachable (system j) (fun _ _ => True) s ∧
      j.nsplits.toNat = 2 ^ 31 + 1 ∧ s.phase = .reduce ∧
      (s.maps.map Prod.snd).count (2 ^ 31) = 0 := by
  let j : Job := ⟨BitVec.ofNat 64 (2 ^ 31 + 1), by decide, false, 0, by decide⟩
  obtain ⟨s, hs, hphase, hex, hidx, hn, hmaps⟩ :=
    exists_handed j rfl (by decide) () (2 ^ 31) le_rfl
  have hps : presplitter s.ps = (none, { s.ps with idx := s.ps.idx + 1 }) := by
    have hcmp : s.ps.nsplits ≤ s.ps.idx.signExtend 64 := by
      rw [hn, hidx]
      decide
    rw [presplitter, if_pos hcmp]
  have hturn : s.mapTurn () = { s.exit () with ps := { s.ps with idx := s.ps.idx + 1 } } := by
    simp only [mapTurn, hps]
  have hdrawn : Reachable (system j) (fun _ _ => True) (s.mapTurn ()) :=
    hs.step (a := .draw ()) trivial (by simp [system, step, hex, hphase])
  refine ⟨j, { s.mapTurn () with phase := .reduce, taskPos := 0, exited := fun _ => false },
    hdrawn.step (a := .advance) trivial ?_, by decide, rfl, ?_⟩
  · simp [system, step, hturn, exit, hphase]
  · rw [hturn]
    exact (hmaps.count _).trans (by simp)

end Mosbench.Metis.Splitter
