import Mosbench.Lib.Keyed
import Mathlib.Data.List.Perm.Basic

/-!
The orders in which CPUs are used. cpu-sequences groups them by package (seq) or takes one of each
package in every round (rr); pedsort.C computes the second order again, up to `ncore` CPUs.
-/
namespace Mosbench.Support.CpuOrder

open List

structure Cpu where
  processor : ℕ
  physical : Option ℤ
  deriving DecidableEq

/-- What is yielded in one round, and the list for the next one. -/
def rrRound : List ℤ → List Cpu → List Cpu × List Cpu
  | _, [] => ([], [])
  | phys, cpu :: cpuinfo =>
    match cpu.physical with
    | none => (cpu :: (rrRound phys cpuinfo).1, (rrRound phys cpuinfo).2)
    | some p =>
      if p ∈ phys then ((rrRound phys cpuinfo).1, cpu :: (rrRound phys cpuinfo).2)
      else (cpu :: (rrRound (p :: phys) cpuinfo).1, (rrRound (p :: phys) cpuinfo).2)

theorem rrRound_perm (phys : List ℤ) (cpuinfo : List Cpu) :
    ((rrRound phys cpuinfo).1 ++ (rrRound phys cpuinfo).2).Perm cpuinfo := by
  fun_induction rrRound with
  | case1 => rfl
  | case2 phys cpu cpuinfo h ih => exact ih.cons cpu
  | case3 phys cpu cpuinfo p h hp ih => exact perm_middle.trans (ih.cons cpu)
  | case4 phys cpu cpuinfo p h hp ih => exact ih.cons cpu

theorem length_rrRound_lt (cpu : Cpu) (cpuinfo : List Cpu) :
    (rrRound [] (cpu :: cpuinfo)).2.length < (cpu :: cpuinfo).length := by
  have hlen := (rrRound_perm [] (cpu :: cpuinfo)).length_eq
  have hpos : 0 < (rrRound [] (cpu :: cpuinfo)).1.length := by
    rw [rrRound]
    split <;> simp
  rw [length_append] at hlen
  omega

def rounds : List Cpu → List (List Cpu)
  | [] => []
  | cpu :: cpuinfo => (rrRound [] (cpu :: cpuinfo)).1 :: rounds (rrRound [] (cpu :: cpuinfo)).2
termination_by cpuinfo => cpuinfo.length
decreasing_by exact length_rrRound_lt cpu cpuinfo

def rr (cpuinfo : List Cpu) : List Cpu := (rounds cpuinfo).flatten

theorem rr_perm (cpuinfo : List Cpu) : (rr cpuinfo).Perm cpuinfo := by
  rw [rr]
  fun_induction rounds with
  | case1 => rfl
  | case2 cpu cpuinfo ih => exact (ih.append_left _).trans (rrRound_perm _ _)

def package (p : Option ℤ) (cpuinfo : List Cpu) : List Cpu :=
  cpuinfo.filter fun cpu => cpu.physical = p

theorem package_rrRound (p : ℤ) (phys : List ℤ) (cpuinfo : List Cpu) :
    (package (some p) (rrRound phys cpuinfo).1, package (some p) (rrRound phys cpuinfo).2) =
      (package (some p) cpuinfo).splitAt (if p ∈ phys then 0 else 1) := by
  fun_induction rrRound with
  | case1 => split_ifs <;> rfl
  | case2 phys cpu cpuinfo h ih => simpa [package, h] using ih
  | case3 phys cpu cpuinfo q h hq ih =>
    by_cases hp : q = p
    · subst q
      simp_all [package]
    · simpa [package, h, hp] using ih
  | case4 phys cpu cpuinfo q h hq ih =>
    by_cases hp : q = p
    · subst q
      simp_all [package]
    · simpa [package, h, hp, Ne.symm hp] using ih

theorem rrRound_sublist (phys : List ℤ) (cpuinfo : List Cpu) :
    (rrRound phys cpuinfo).1 <+ cpuinfo ∧ (rrRound phys cpuinfo).2 <+ cpuinfo ∧
      package none (rrRound phys cpuinfo).1 = package none cpuinfo ∧
      package none (rrRound phys cpuinfo).2 = [] := by
  fun_induction rrRound with
  | case1 => simp [package]
  | case2 phys cpu cpuinfo h ih => simp_all [package]
  | case3 phys cpu cpuinfo q h hq ih => simp_all [package, Sublist.cons]
  | case4 phys cpu cpuinfo q h hq ih => simp_all [package, Sublist.cons]

theorem rounds_spec (cpuinfo : List Cpu) (j : ℕ) : (rounds cpuinfo).getD j [] <+ cpuinfo ∧
    (∀ p, package (some p) ((rounds cpuinfo).getD j []) = ((package (some p) cpuinfo)[j]?).toList) ∧
    package none ((rounds cpuinfo).getD j []) = if j = 0 then package none cpuinfo else [] := by
  fun_induction rounds generalizing j with
  | case1 => simp [package]
  | case2 cpu cpuinfo ih =>
    obtain ⟨hnow, hlater, hnone, hnone'⟩ := rrRound_sublist [] (cpu :: cpuinfo)
    have hpackage (p : ℤ) := package_rrRound p [] (cpu :: cpuinfo)
    simp only [not_mem_nil, if_false, splitAt_eq, Prod.mk.injEq] at hpackage
    cases j with
    | zero =>
      refine ⟨hnow, fun p => (hpackage p).1.trans ?_, hnone⟩
      cases package (some p) (cpu :: cpuinfo) <;> rfl
    | succ j =>
      obtain ⟨hsub, hsome, hno⟩ := ih j
      refine ⟨hsub.trans hlater, fun p => (hsome p).trans ?_, hno.trans (by simp [hnone'])⟩
      rw [(hpackage p).2, getElem?_drop, Nat.add_comm]

/-- The dictionary is kept in the order in which its keys are read. -/
def addPackage (cpu : Cpu) (p : ℤ) (packages : List (ℤ × List Cpu)) : List (ℤ × List Cpu) :=
  Keyed.upsert Prod.fst p (p, [cpu]) (fun package => (package.1, package.2 ++ [cpu])) packages

def seqLoop : List Cpu → List (ℤ × List Cpu) → List Cpu
  | [], packages => packages.flatMap Prod.snd
  | cpu :: cpuinfo, packages =>
    match cpu.physical with
    | none => cpu :: seqLoop cpuinfo packages
    | some p => seqLoop cpuinfo (addPackage cpu p packages)

def seq (cpuinfo : List Cpu) : List Cpu := seqLoop cpuinfo []

theorem addPackage_perm (cpu : Cpu) (p : ℤ) (packages : List (ℤ × List Cpu)) :
    ((addPackage cpu p packages).flatMap Prod.snd).Perm (cpu :: packages.flatMap Prod.snd) := by
  induction packages with
  | nil => rfl
  | cons package packages ih =>
    rw [addPackage, Keyed.upsert]
    split_ifs
    · rfl
    · rw [flatMap_cons, append_assoc]
      exact perm_middle
    · exact (ih.append_left _).trans perm_middle

theorem seqLoop_perm (cpuinfo : List Cpu) (packages : List (ℤ × List Cpu)) :
    (seqLoop cpuinfo packages).Perm (cpuinfo ++ packages.flatMap Prod.snd) := by
  fun_induction seqLoop with
  | case1 => rfl
  | case2 cpu _ _ _ ih => exact ih.cons cpu
  | case3 cpu _ packages p _ ih =>
    exact ih.trans (((addPackage_perm cpu p packages).append_left _).trans perm_middle)

/-- A CPU of a package is followed by CPUs of packages only, and not of smaller ones. -/
def Grouped (cpus : List Cpu) : Prop :=
  cpus.Pairwise fun a b => ∀ p, a.physical = some p → ∃ q, b.physical = some q ∧ p ≤ q

def Packaged (packages : List (ℤ × List Cpu)) : Prop :=
  ∀ package ∈ packages, ∀ cpu ∈ package.2, cpu.physical = some package.1

theorem packaged_addPackage (hcpu : cpu.physical = some p) (h : Packaged packages) :
    Packaged (addPackage cpu p packages) :=
  Keyed.forall_mem_upsert (by simpa using hcpu)
    (fun package hp hmem => forall_mem_append.mpr ⟨hmem, by simpa [hp] using hcpu⟩) h

theorem seqLoop_grouped (h : Keyed.Sorted Prod.fst packages) (hmem : Packaged packages)
    (cpuinfo : List Cpu) : Grouped (seqLoop cpuinfo packages) := by
  induction cpuinfo generalizing packages with
  | nil =>
    refine pairwise_flatMap.mpr ⟨fun package hp => ?_,
      h.imp_of_mem fun {x y} hx hy hlt a ha b hb p hp => ?_⟩
    · refine pairwise_of_forall_mem_list fun a ha b hb p hpa => ⟨p, ?_, le_rfl⟩
      rw [hmem package hp b hb, ← hmem package hp a ha, hpa]
    · rw [hmem x hx a ha] at hp
      exact ⟨y.1, hmem y hy b hb, Option.some.inj hp ▸ hlt.le⟩
  | cons cpu cpuinfo ih =>
    rw [seqLoop]
    split
    · next hcpu =>
      refine pairwise_cons.mpr ⟨fun b _ p hp => ?_, ih h hmem⟩
      rw [hcpu] at hp
      cases hp
    · next p hcpu => exact ih (h.upsert rfl fun _ => rfl) (packaged_addPackage hcpu hmem)

structure Chip where
  proc : ℕ
  phys : ℤ

def Chip.cpu (c : Chip) : Cpu := ⟨c.proc, some c.phys⟩

inductive Stop
  | returned (seq : List ℕ)
  | outOfBounds
  | assertion
  deriving DecidableEq

/-- One round of get_cpu_sequence over an array of `ncore` numbers. -/
def chipRound (ncore : ℕ) : List ℤ → List Chip → List ℕ → Except Stop (List Chip × List ℕ)
  | _, [], seq => .ok ([], seq)
  | phys, it :: cpus, seq =>
    if it.phys ∈ phys then do
      let (cpus, seq) ← chipRound ncore phys cpus seq
      return (it :: cpus, seq)
    else if ncore ≤ seq.length then .error .outOfBounds
    else if seq.length + 1 = ncore then .error (.returned (seq ++ [it.proc]))
    else chipRound ncore (it.phys :: phys) cpus (seq ++ [it.proc])

theorem chipRound_spec (phys : List ℤ) (cpus : List Chip) (out : List ℕ)
    (hout : out.length < ncore) :
    ∃ rest, rest.map Chip.cpu = (rrRound phys (cpus.map Chip.cpu)).2 ∧
      chipRound ncore phys cpus out =
        let all := out ++ (rrRound phys (cpus.map Chip.cpu)).1.map Cpu.processor
        if ncore ≤ all.length then .error (.returned (all.take ncore)) else .ok (rest, all) := by
  induction cpus generalizing phys out with
  | nil =>
    refine ⟨[], rfl, ?_⟩
    simp [rrRound, chipRound, hout]
  | cons it cpus ih =>
    rw [map_cons, rrRound, chipRound]
    by_cases hin : it.phys ∈ phys
    · obtain ⟨rest, hrest, heq⟩ := ih phys out hout
      refine ⟨it :: rest, by simp [Chip.cpu, hin, hrest], ?_⟩
      rw [if_pos hin, heq]
      simp only [Chip.cpu, hin, if_true]
      split_ifs <;> rfl
    · simp only [Chip.cpu, hin, if_false, map_cons]
      rw [if_neg (Nat.not_le.mpr hout)]
      by_cases hlast : out.length + 1 = ncore
      · obtain ⟨rest, hrest, -⟩ := ih (it.phys :: phys) out hout
        refine ⟨rest, hrest, ?_⟩
        have htake (l : List ℕ) : (out ++ it.proc :: l).take ncore = out ++ [it.proc] := by
          rw [append_cons, take_left' (by simpa using hlast)]
        rw [if_pos hlast, if_pos (by simp; omega), htake]
      · obtain ⟨rest, hrest, heq⟩ := ih (it.phys :: phys) (out ++ [it.proc]) (by simp; omega)
        refine ⟨rest, hrest, ?_⟩
        rw [if_neg hlast, heq, ← append_cons]

/-- The loop of get_cpu_sequence, for a number of rounds. -/
def getCpuSequence (ncore : ℕ) : ℕ → List Chip → List ℕ → Option Stop
  | 0, _, _ => none
  | _ + 1, [], _ => some .assertion
  | n + 1, it :: cpus, seq =>
    match chipRound ncore [] (it :: cpus) seq with
    | .error stop => some stop
    | .ok (cpus, seq) => getCpuSequence ncore n cpus seq

theorem getCpuSequence_spec (n : ℕ) (cpus : List Chip) (out : List ℕ) (hn : cpus.length ≤ n)
    (hout : out.length < ncore) (hle : ncore ≤ out.length + cpus.length) :
    getCpuSequence ncore n cpus out =
      some (.returned ((out ++ (rr (cpus.map Chip.cpu)).map Cpu.processor).take ncore)) := by
  induction n generalizing cpus out with
  | zero => omega
  | succ n ih =>
    cases cpus with
    | nil => exact absurd hle (Nat.not_le.mpr hout)
    | cons it cpus =>
      obtain ⟨rest, hrest, heq⟩ := chipRound_spec [] (it :: cpus) out hout
      have hlen := (rrRound_perm [] ((it :: cpus).map Chip.cpu)).length_eq
      have hlt := length_rrRound_lt it.cpu (cpus.map Chip.cpu)
      rw [length_append, ← hrest, length_map, length_map] at hlen
      rw [← map_cons, ← hrest, length_map, length_map] at hlt
      rw [getCpuSequence, heq, map_cons, rr, rounds, flatten_cons, map_append, ← append_assoc, ← rr,
        ← map_cons, ← hrest]
      generalize hall : out ++ (rrRound [] ((it :: cpus).map Chip.cpu)).1.map Cpu.processor = all
      have hlength : all.length + rest.length = out.length + (it :: cpus).length := by
        rw [← hall, length_append, length_map, Nat.add_assoc, hlen]
      by_cases hdone : ncore ≤ all.length
      · simp only [hdone, if_true, take_append_of_le_length hdone]
      · simp only [hdone, if_false]
        exact ih rest all (by omega) (by omega) (by omega)

theorem getCpuSequence_zero (n : ℕ) (cpus : List Chip) (l : List ℕ) :
    getCpuSequence 0 n cpus [] ≠ some (.returned l) := by
  cases n with
  | zero => simp [getCpuSequence]
  | succ n => cases cpus <;> simp [getCpuSequence, chipRound]

/-- rr gives all CPUs, the `j`-th of each package in round `j`, those without a package in the first
round, and each round in the given order. seq gives all CPUs by package. get_cpu_sequence gives a
prefix of rr, in at most as many rounds as there are CPUs, exactly when a CPU is asked for. -/
theorem cpu_orders (cpuinfo : List Cpu) (cpus : List Chip) (ncore : ℕ)
    (hle : ncore ≤ cpus.length) :
    (rr cpuinfo).Perm cpuinfo ∧
    (∀ j, (rounds cpuinfo).getD j [] <+ cpuinfo ∧
      (∀ p, package (some p) ((rounds cpuinfo).getD j []) =
        ((package (some p) cpuinfo)[j]?).toList) ∧
      package none ((rounds cpuinfo).getD j []) = if j = 0 then package none cpuinfo else []) ∧
    (seq cpuinfo).Perm cpuinfo ∧ Grouped (seq cpuinfo) ∧
    ((∃ n ≤ cpus.length, getCpuSequence ncore n cpus [] =
      some (.returned (((rr (cpus.map Chip.cpu)).map Cpu.processor).take ncore))) ↔ 0 < ncore) ∧
    (ncore = 0 → ∀ n l, getCpuSequence ncore n cpus [] ≠ some (.returned l)) := by
  refine ⟨rr_perm cpuinfo, rounds_spec cpuinfo, ?_,
    seqLoop_grouped .nil (by simp [Packaged]) cpuinfo, ⟨?_, fun hpos => ?_⟩, ?_⟩
  · simpa [seq] using seqLoop_perm cpuinfo []
  · rintro ⟨n, -, hn⟩
    refine Nat.pos_of_ne_zero fun hzero => ?_
    subst hzero
    exact getCpuSequence_zero n cpus _ hn
  · exact ⟨_, le_rfl, getCpuSequence_spec _ cpus [] le_rfl hpos (by simpa using hle)⟩
  · rintro rfl n l
    exact getCpuSequence_zero n cpus l

/-- Two packages and a CPU without one. -/
theorem cpu_orders_two :
    (rr [⟨0, some 0⟩, ⟨1, some 0⟩, ⟨2, some 1⟩, ⟨3, none⟩]).Perm
      [⟨0, some 0⟩, ⟨1, some 0⟩, ⟨2, some 1⟩, ⟨3, none⟩] ∧
    Grouped (seq [⟨0, some 0⟩, ⟨1, some 0⟩, ⟨2, some 1⟩, ⟨3, none⟩]) ∧
    (∃ n ≤ 3, getCpuSequence 2 n [⟨0, 0⟩, ⟨1, 0⟩, ⟨2, 1⟩] [] =
      some (.returned (((rr [⟨0, some 0⟩, ⟨1, some 0⟩, ⟨2, some 1⟩]).map Cpu.processor).take 2))) ∧
    ∀ n l, getCpuSequence 0 n [⟨0, 0⟩, ⟨1, 0⟩, ⟨2, 1⟩] [] ≠ some (.returned l) := by
  obtain ⟨hrr, -, -, hseq, hprefix, -⟩ := cpu_orders
    [⟨0, some 0⟩, ⟨1, some 0⟩, ⟨2, some 1⟩, ⟨3, none⟩] [⟨0, 0⟩, ⟨1, 0⟩, ⟨2, 1⟩] 2 (by decide)
  obtain ⟨-, -, -, -, -, hnone⟩ := cpu_orders [] [⟨0, 0⟩, ⟨1, 0⟩, ⟨2, 1⟩] 0 (by decide)
  exact ⟨hrr, hseq, hprefix.mpr (by decide), hnone rfl⟩

/-- For no CPU at all (`-c 0`) a number is written behind the end of the empty array. -/
theorem no_cores_out_of_bounds : getCpuSequence 0 1 [⟨0, 0⟩] [] = some .outOfBounds := rfl

end Mosbench.Support.CpuOrder
