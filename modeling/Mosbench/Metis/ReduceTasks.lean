import Mosbench.Lib.Doubles
import Mosbench.Metis.Runs

/-!
The number of reduce tasks that kvst_sample_finished takes. The loop tries divisors below a square
root that is computed with doubles; that makes no difference for the numbers it can meet. But it
leaves out the root itself, so that the square of a prime passes for a prime.
-/
namespace Mosbench.Metis

open Doubles Runs

section Root

variable {n : ℕ}

theorem lt_root_iff (hn : n < 2 ^ 62) (hq : 2 ≤ q) (hdvd : q ∣ n) (hx : Nearest n x) (hs : Nearest (√x) s) :
    (q : ℝ) < s ↔ q * q < n := by
  have herror := abs_le.mp (hx.error (Nat.cast_nonneg n))
  have hn' : (n : ℝ) < 2 ^ 62 := by exact_mod_cast hn
  have hq' : (2 : ℝ) ≤ q := by exact_mod_cast hq
  constructor
  · intro hlt
    by_contra hle
    refine absurd hlt (not_lt.mpr ?_)
    have hle' : (n : ℝ) ≤ q * q := by exact_mod_cast not_lt.mp hle
    rcases Nat.lt_or_ge q (2 ^ 53) with hsmall | hlarge
    · exact hs.sqrt_le hsmall (by linarith [herror.1])
    · refine (hs.le_of_le (natCast_mem_double le_rfl) (Real.sqrt_le_iff.mpr ⟨by positivity, ?_⟩)).trans (Nat.cast_le.mpr hlarge)
      push_cast
      linarith [herror.1]
  · intro hlt
    -- the other divisor is greater, so that the root is not close to `q`
    obtain ⟨m, rfl⟩ := hdvd
    have hm : (q : ℝ) + 1 ≤ m := by exact_mod_cast Nat.lt_of_mul_lt_mul_left hlt
    have hsmall : q < 2 ^ 31 := by
      by_contra hge
      have : 2 ^ 31 * 2 ^ 31 ≤ q * q := Nat.mul_le_mul (not_lt.mp hge) (not_lt.mp hge)
      omega
    have hsmall' : (q : ℝ) ≤ 2 ^ 31 := by exact_mod_cast hsmall.le
    have hquarter : (q : ℝ) + 1 / 4 ∈ Double := by
      refine ⟨4 * q + 1, -2, ?_, ?_⟩
      · rw [abs_of_nonneg (by positivity)]
        norm_cast
        omega
      · push_cast
        rw [zpow_neg]
        norm_num
        ring
    have hge : (q : ℝ) + 1 / 4 ≤ √x := by
      refine Real.le_sqrt_of_sq_le ?_
      have hprod : (q : ℝ) * (q + 1) ≤ q * m := by gcongr
      push_cast at herror
      nlinarith [herror.2]
    linarith [hs.ge_of_ge hquarter hge]

/-- A count of keys with 64 bits leads only to numbers for which the root is good enough. -/
theorem estimatedTasks_lt (h : nkeys < 2 ^ 64) : estimatedTasks nkeys < 2 ^ 62 := by
  have hleast := (isLeast_estimatedTasks nkeys).2
  rcases Nat.eq_zero_or_pos (nkeys / nkeysPerBkt) with hzero | hpos
  · have hle := hleast (a := 0) ⟨hzero.le, .inl (Nat.zero_le 1)⟩
    exact hle.trans_lt (by norm_num)
  · obtain ⟨p, hp, hlt, hle⟩ := Nat.exists_prime_lt_and_le_two_mul _ hpos.ne'
    have hle' := hleast ⟨hlt.le, .inr (.inl hp)⟩
    rw [nkeysPerBkt] at hle
    omega

/-- The loop that stops at the root of `n`, computed with doubles, finds a divisor exactly if
`composite` does. -/
theorem composite_iff_root (h : nkeys < 2 ^ 64) (hle : n ≤ estimatedTasks nkeys) (hx : Nearest n x) (hs : Nearest (√x) s) :
    composite n = true ↔ ∃ q : ℕ, 2 ≤ q ∧ (q : ℝ) < s ∧ n % q = 0 := by
  have hn := hle.trans_lt (estimatedTasks_lt h)
  rw [composite, List.any_eq_true]
  simp only [Bool.and_eq_true, decide_eq_true_eq, List.mem_range]
  constructor
  · rintro ⟨q, -, ⟨htwo, hlt⟩, hmod⟩
    exact ⟨q, htwo, (lt_root_iff hn htwo (Nat.dvd_of_mod_eq_zero hmod) hx hs).mpr hlt, hmod⟩
  · rintro ⟨q, htwo, hlt, hmod⟩
    have hsq := (lt_root_iff hn htwo (Nat.dvd_of_mod_eq_zero hmod) hx hs).mp hlt
    exact ⟨q, (Nat.le_mul_self q).trans_lt hsq, ⟨htwo, hsq⟩, hmod⟩

/-- The computed root of 4 is 2, which the loop does not try. -/
theorem composite_iff_root_four : composite 4 = true ↔ ∃ q : ℕ, 2 ≤ q ∧ (q : ℝ) < (2 : ℕ) ∧ 4 % q = 0 := by
  have hexact : ∀ n ≤ 4, Nearest (n : ℕ) n := fun n hn => ⟨natCast_mem_double (hn.trans (by norm_num)), by simp⟩
  have hroot : √(4 : ℕ) = (2 : ℕ) := by norm_num [Real.sqrt_eq_iff_mul_self_eq]
  exact composite_iff_root (show 40 < 2 ^ 64 by norm_num) (by decide +kernel) (hexact 4 le_rfl) (hroot ▸ hexact 2 (by norm_num))

end Root

def wantedTasks {S K V R : Type} (p : Params S K V R) (st : Store K V R) : ℕ :=
  meanEstimate p st st.nkeysPerMapper Prod.fst / nkeysPerBkt

/-- When some worker has finished a split, the loop ends with the first number from the quotient on
that is at most 1, a prime or the square of a prime. That is the first prime if and only if the
quotient is at least 2 and there is a prime before the next square of a prime. -/
theorem sampleFinished_tasks {S K V R : Type} (p : Params S K V R) (st : Store K V R) (hrows : validRows p st ≠ []) :
    ∃ st' n, sampleFinished p st = some (st', n) ∧
      IsLeast {k | wantedTasks p st ≤ k ∧ (k ≤ 1 ∨ k.Prime ∨ ∃ q, q.Prime ∧ k = q * q)} n ∧
      (IsLeast {k | wantedTasks p st ≤ k ∧ k.Prime} n ↔ 2 ≤ wantedTasks p st ∧
        ∀ q, q.Prime → wantedTasks p st ≤ q * q → ∃ r, r.Prime ∧ wantedTasks p st ≤ r ∧ r < q * q) := by
  have hleast := isLeast_estimatedTasks (meanEstimate p st st.nkeysPerMapper Prod.fst)
  exact ⟨_, _, if_neg hrows, hleast, isLeast_prime_iff hleast⟩

def sampledKeys (n : ℕ) : Store ℕ ℕ (ℕ × ℕ) :=
  { (Store.fresh : Store ℕ ℕ (ℕ × ℕ)) with mstate := fun _ => ((MState.newPair true)^[n] {}).taskFinished }

/-- 70 keys: seven tasks. -/
theorem sampleFinished_tasks_seventy :
    ∃ st' n, sampleFinished (oneSplit .mapreduce 0) (sampledKeys 70) = some (st', n) ∧ IsLeast {k | 7 ≤ k ∧ k.Prime} n := by
  have hwanted : wantedTasks (oneSplit .mapreduce 0) (sampledKeys 70) = 7 := by decide +kernel
  obtain ⟨st', n, hrun, -, hiff⟩ := sampleFinished_tasks (oneSplit .mapreduce 0) (sampledKeys 70) (by decide +kernel)
  rw [hwanted] at hiff
  refine ⟨st', n, hrun, hiff.mpr ⟨by norm_num, fun q hq hle => ⟨7, by norm_num, le_rfl, ?_⟩⟩⟩
  refine lt_of_le_of_ne hle fun heq => ?_
  have hprime : Nat.Prime (q * q) := heq ▸ (by norm_num : Nat.Prime 7)
  exact Nat.not_prime_mul hq.ne_one hq.ne_one hprime

/-- 40 keys: four tasks. 5 keys: none. -/
theorem sampleFinished_four_tasks :
    ((sampleFinished (oneSplit .mapreduce 0) (sampledKeys 40)).map Prod.snd = some 4 ∧ ¬ Nat.Prime 4) ∧
      (sampleFinished (oneSplit .mapreduce 0) (sampledKeys 5)).map Prod.snd = some 0 :=
  ⟨⟨by decide +kernel, by norm_num⟩, by decide +kernel⟩

end Mosbench.Metis
