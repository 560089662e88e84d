import Mathlib.NumberTheory.Bertrand

/-!
How Metis estimates the number of keys from the splits that were sampled (estimation.c), and how
many reduce tasks it takes for them (kvst_sample_finished in kvstore.c).
-/
namespace Mosbench.Metis

open List

structure MState where
  curNkeys : ℕ := 0
  curNpairs : ℕ := 0
  lastNkeys : ℕ := 0
  lastNpairs : ℕ := 0
  keyRate : ℕ := 0
  pairRate : ℕ := 0
  nsampled : ℕ := 0

namespace MState

def estInterval : ℕ := 1000

def intervalPassed (m : MState) : MState :=
  { m with
    keyRate := if m.lastNkeys = 0 then m.curNkeys else m.keyRate / 2 + (m.curNkeys - m.lastNkeys) / 2
    lastNkeys := m.curNkeys }

def newPair (newkey : Bool) (m : MState) : MState :=
  let m := { m with curNkeys := if newkey then m.curNkeys + 1 else m.curNkeys, curNpairs := m.curNpairs + 1 }
  if m.curNpairs % estInterval = 0 then m.intervalPassed else m

def taskFinished (m : MState) : MState :=
  { m with
    pairRate := if m.lastNpairs = 0 then m.curNpairs else m.pairRate / 2 + (m.curNpairs - m.lastNpairs) / 2
    lastNpairs := m.curNpairs
    nsampled := m.nsampled + 1 }

def estimate (m : MState) (ntotal : ℕ) : ℕ × ℕ :=
  let npairs := m.pairRate * (ntotal - m.nsampled) + m.curNpairs
  (m.keyRate * (npairs - m.curNpairs) / estInterval + m.curNkeys, npairs)

end MState

def nkeysPerBkt : ℕ := 10

/-- The loop over `q`: a divisor below the square root was found. -/
def composite (ntasks : ℕ) : Bool :=
  (List.range ntasks).any fun q => decide (2 ≤ q) && decide (q * q < ntasks) && decide (ntasks % q = 0)

def nextTasks : ℕ → ℕ → ℕ
  | 0, ntasks => ntasks
  | fuel + 1, ntasks => if composite ntasks then nextTasks fuel (ntasks + 1) else ntasks

/-- The tasks for a number of keys. There is a prime before the double of a number, so that the
search is over by then. -/
def estimatedTasks (nkeys : ℕ) : ℕ := nextTasks (nkeys / nkeysPerBkt) (nkeys / nkeysPerBkt)

theorem composite_of_prime (hp : p.Prime) : composite p = false := by
  rw [composite, any_eq_false]
  intro q hq hand
  simp only [Bool.and_eq_true, decide_eq_true_eq] at hand
  obtain ⟨⟨htwo, -⟩, hmod⟩ := hand
  rcases (Nat.dvd_prime hp).mp (Nat.dvd_of_mod_eq_zero hmod) with rfl | rfl
  · omega
  · exact absurd (mem_range.mp hq) (lt_irrefl _)

theorem composite_nextTasks (hp : composite p = false) (hn : n ≤ p) (hfuel : p ≤ n + fuel) :
    composite (nextTasks fuel n) = false := by
  induction fuel generalizing n with
  | zero =>
    obtain rfl : n = p := by omega
    exact hp
  | succ fuel ih =>
    rw [nextTasks]
    split_ifs with hc
    · have hne : n ≠ p := fun heq => by simp [heq, hp] at hc
      exact ih (by omega) (by omega)
    · simpa using hc

theorem composite_estimatedTasks (nkeys : ℕ) : composite (estimatedTasks nkeys) = false := by
  rcases Nat.eq_zero_or_pos (nkeys / nkeysPerBkt) with hzero | hpos
  · rw [estimatedTasks, hzero]
    rfl
  · obtain ⟨p, hp, hlt, hle⟩ := Nat.exists_prime_lt_and_le_two_mul _ hpos.ne'
    exact composite_nextTasks (composite_of_prime hp) hlt.le (by omega)

theorem le_nextTasks (fuel n : ℕ) : n ≤ nextTasks fuel n := by
  induction fuel generalizing n with
  | zero => exact le_rfl
  | succ fuel ih =>
    rw [nextTasks]
    split_ifs
    · exact (Nat.le_succ n).trans (ih (n + 1))
    · exact le_rfl

theorem composite_of_lt_nextTasks (hn : n ≤ k) (hk : k < nextTasks fuel n) : composite k = true := by
  induction fuel generalizing n with
  | zero => exact absurd hk (not_lt.mpr hn)
  | succ fuel ih =>
    rw [nextTasks] at hk
    split_ifs at hk with hc
    · rcases hn.eq_or_lt with rfl | hlt
      · exact hc
      · exact ih hlt hk
    · exact absurd hk (not_lt.mpr hn)

theorem composite_mul_self (hq : q.Prime) : composite (q * q) = false := by
  rw [composite, any_eq_false]
  intro d hd hand
  simp only [Bool.and_eq_true, decide_eq_true_eq] at hand
  obtain ⟨⟨htwo, hlt⟩, hmod⟩ := hand
  have hdvd : d ∣ q ^ 2 := sq q ▸ Nat.dvd_of_mod_eq_zero hmod
  obtain ⟨i, hi, rfl⟩ := (Nat.dvd_prime_pow hq).mp hdvd
  have hrange := mem_range.mp hd
  -- the divisors of a square of a prime are 1, the prime and the square
  interval_cases i
  · rw [pow_zero] at htwo
    omega
  · rw [pow_one] at hlt
    exact absurd hlt (lt_irrefl _)
  · rw [sq] at hrange
    exact absurd hrange (lt_irrefl _)

def Settles (n : ℕ) : Prop := n ≤ 1 ∨ n.Prime ∨ ∃ q, q.Prime ∧ n = q * q

/-- The search for a divisor stops before the square root, so that it passes squares of primes, and it
passes 0 and 1. -/
theorem composite_eq_false_iff : composite n = false ↔ Settles n := by
  constructor
  · intro h
    by_contra hnot
    rw [Settles] at hnot
    push Not at hnot
    obtain ⟨hone, hprime, hsquare⟩ := hnot
    have hq : n.minFac.Prime := Nat.minFac_prime (by omega)
    have hle : n.minFac * n.minFac ≤ n := by
      rw [← sq]
      exact Nat.minFac_sq_le_self (by omega) hprime
    have hlt : n.minFac * n.minFac < n := lt_of_le_of_ne hle fun heq => hsquare _ hq heq.symm
    have hmem : n.minFac ∈ List.range n := by
      rw [mem_range]
      exact (Nat.le_mul_self _).trans_lt hlt
    rw [composite, any_eq_false] at h
    refine h _ hmem ?_
    simp only [Bool.and_eq_true, decide_eq_true_eq]
    exact ⟨⟨hq.two_le, hlt⟩, Nat.mod_eq_zero_of_dvd (Nat.minFac_dvd n)⟩
  · rintro (hone | hprime | ⟨q, hq, rfl⟩)
    · interval_cases n <;> rfl
    · exact composite_of_prime hprime
    · exact composite_mul_self hq

theorem isLeast_estimatedTasks (nkeys : ℕ) :
    IsLeast {n | nkeys / nkeysPerBkt ≤ n ∧ Settles n} (estimatedTasks nkeys) := by
  refine ⟨⟨le_nextTasks _ _, composite_eq_false_iff.mp (composite_estimatedTasks nkeys)⟩, ?_⟩
  rintro n ⟨hle, hn⟩
  by_contra hlt
  have hcomposite := composite_of_lt_nextTasks hle (not_le.mp hlt)
  rw [composite_eq_false_iff.mpr hn] at hcomposite
  exact Bool.false_ne_true hcomposite

theorem isLeast_prime_iff (h : IsLeast {k | m ≤ k ∧ Settles k} n) :
    IsLeast {k | m ≤ k ∧ k.Prime} n ↔ 2 ≤ m ∧ ∀ q, q.Prime → m ≤ q * q → ∃ r, r.Prime ∧ m ≤ r ∧ r < q * q := by
  obtain ⟨⟨hmn, hn⟩, hleast⟩ := h
  constructor
  · rintro ⟨⟨-, hprime⟩, -⟩
    refine ⟨?_, fun q hq hle => ⟨n, hprime, hmn, ?_⟩⟩
    · by_contra hm
      have hnm := hleast ⟨le_refl m, .inl (by omega)⟩
      have := hprime.two_le
      omega
    · refine lt_of_le_of_ne (hleast ⟨hle, .inr (.inr ⟨q, hq, rfl⟩)⟩) fun heq => ?_
      exact Nat.not_prime_mul hq.ne_one hq.ne_one (heq ▸ hprime)
  · rintro ⟨hm, hsquares⟩
    have hprime : n.Prime := by
      rcases hn with hone | hprime | ⟨q, hq, rfl⟩
      · omega
      · exact hprime
      · obtain ⟨r, hr, hmr, hlt⟩ := hsquares q hq hmn
        exact absurd (hleast ⟨hmr, .inr (.inl hr)⟩) (not_le.mpr hlt)
    exact ⟨⟨hmn, hprime⟩, fun k hk => hleast ⟨hk.1, .inr (.inl hk.2)⟩⟩

end Mosbench.Metis
