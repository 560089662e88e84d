import Mosbench.Lib.Fallible
import Mosbench.Psearchy.Posting
import Mathlib.Data.Nat.Prime.Basic

/-!
The size of the hash table of an indexing thread (find_prime in pedsort.C): the number of
buckets that fit into the memory is looked up in a table of primes.
-/
namespace Mosbench.Psearchy

open List Fallible

def readPrime (primes : List ℕ) (i : ℕ) : Except Fault ℕ :=
  match primes[i]? with
  | some p => .ok p
  | none => .error .range

/-- The bisection; the first argument bounds its depth. -/
def findPrimeRecurse (primes : List ℕ) : ℕ → ℕ → ℕ → ℕ → Except Fault ℕ
  | 0, _, _, _ => .error .fuel
  | fuel + 1, l, u, n => do
    let i := (u - l) / 2 + l
    let p ← readPrime primes i
    -- the entry behind p is only read in the first case
    if p ≤ n then
      let q ← readPrime primes (i + 1)
      if n ≤ q then return q else findPrimeRecurse primes fuel i u n
    else findPrimeRecurse primes fuel l i n

def findPrime (primes : List ℕ) (fuel n : ℕ) : Except Fault ℕ := findPrimeRecurse primes fuel 0 (primes.length - 1) n

structure PrimeTable (primes : List ℕ) : Prop where
  two : 2 ≤ primes.length
  ascending : primes.Pairwise (· < ·)
  prime : ∀ p ∈ primes, p.Prime
  complete : ∀ p, p.Prime → (∃ q ∈ primes, p ≤ q) → p ∈ primes

theorem readPrime_eq (h : i < primes.length) : readPrime primes i = .ok primes[i] := by
  rw [readPrime, getElem?_eq_getElem h]

def NextPrime (n p : ℕ) : Prop := p.Prime ∧ n ≤ p ∧ ∀ q, q.Prime → ¬(n < q ∧ q < p)

theorem PrimeTable.nextPrime (h : PrimeTable primes) (hi : i + 1 < primes.length) (hle : primes[i] ≤ n)
    (hn : n ≤ primes[i + 1]) : NextPrime n primes[i + 1] := by
  refine ⟨h.prime _ (getElem_mem hi), hn, fun q hq hbetween => ?_⟩
  obtain ⟨j, hj, rfl⟩ := getElem_of_mem (h.complete q hq ⟨_, getElem_mem hi, hbetween.2.le⟩)
  have hsorted := pairwise_iff_getElem.mp h.ascending
  rcases Nat.lt_or_ge j (i + 1) with hlt | hge
  · rcases (Nat.lt_succ_iff.mp hlt).lt_or_eq with hlt | rfl
    · have := hsorted j i hj (by omega) hlt
      omega
    · omega
  · rcases hge.lt_or_eq with hlt | rfl
    · have := hsorted (i + 1) j hi hj hlt
      omega
    · omega

theorem findPrimeRecurse_spec (h : PrimeTable primes) (hlu : l < u) (hu : u < primes.length)
    (hl : primes[l] ≤ n) (hn : n ≤ primes[u]) (hfuel : u - l ≤ fuel) :
    ∃ p, findPrimeRecurse primes fuel l u n = .ok p ∧ NextPrime n p := by
  induction fuel generalizing l u with
  | zero => omega
  | succ fuel ih =>
    rw [findPrimeRecurse]
    generalize hi : (u - l) / 2 + l = i
    rw [readPrime_eq (by omega), ok_bind]
    by_cases hp : primes[i] ≤ n
    · rw [if_pos hp, readPrime_eq (by omega), ok_bind]
      by_cases hq : n ≤ primes[i + 1]
      · rw [if_pos hq]
        exact ⟨_, rfl, h.nextPrime (by omega) hp hq⟩
      · rw [if_neg hq]
        -- a single step would have ended the search
        have hne : i + 1 ≠ u := by
          rintro rfl
          exact hq hn
        exact ih (by omega) hu hp hn (by omega)
    · have hne : l ≠ i := by
        rintro rfl
        exact hp hl
      rw [if_neg hp]
      exact ih (by omega) (by omega) hl (not_le.mp hp).le (by omega)

/-- find_prime ends, stays inside the table and returns the next prime. -/
theorem findPrime_next (primes : List ℕ) (h : PrimeTable primes) (fuel n : ℕ) (hfuel : primes.length ≤ fuel) (htwo : 2 ≤ n)
    (hn : ∃ last ∈ primes.getLast?, n ≤ last) : ∃ p, findPrime primes fuel n = .ok p ∧ NextPrime n p := by
  have hlen := h.two
  obtain ⟨last, hlast, hn⟩ := hn
  rw [getLast?_eq_getElem?, Option.mem_def, getElem?_eq_getElem (by omega)] at hlast
  have hfirst : primes[0] ≤ n := by
    obtain ⟨j, hj, htwo'⟩ := getElem_of_mem (h.complete 2 Nat.prime_two ⟨_, getElem_mem (show 0 < primes.length by omega),
      (h.prime _ (getElem_mem _)).two_le⟩)
    rcases j.eq_zero_or_pos with rfl | hpos
    · omega
    · have := pairwise_iff_getElem.mp h.ascending 0 j (by omega) hj hpos
      omega
  refine findPrimeRecurse_spec h (by omega) (by omega) hfirst ?_ (by omega)
  exact hn.trans (Option.some.inj hlast).ge

theorem findPrime_next_eight : ∃ p, findPrime [2, 3, 5, 7, 11] 5 8 = .ok p ∧ NextPrime 8 p := by
  have htable : PrimeTable [2, 3, 5, 7, 11] := by
    have hall : ∀ p ≤ 11, p.Prime → p ∈ [2, 3, 5, 7, 11] := by decide
    refine ⟨by decide, by decide, by decide, fun p hp hle => ?_⟩
    obtain ⟨q, hq, hle⟩ := hle
    have hbound : ∀ q ∈ [2, 3, 5, 7, 11], q ≤ 11 := by decide
    exact hall p (hle.trans (hbound q hq)) hp
  exact findPrime_next _ htable 5 8 (by decide) (by decide) ⟨11, rfl, by decide⟩

end Mosbench.Psearchy
