import Mathlib.Data.Fintype.EquivFin
import Mathlib.Data.Nat.ModEq
import Mathlib.Data.Nat.Prime.Basic

/-!
Hash tables with open addressing. Every key has a sequence of places. A key is looked
for along its sequence up to the first place that has it or is free, and is put there
if the place is free. Nothing is removed.

With double hashing the places of a key are a fixed step apart. In a table of prime
size the sequence then comes to every place.
-/
namespace Mosbench.Probing

open Function

section Table

variable {K : Type}

def Passed (seq : K → ℕ → ℕ) (t : ℕ → Option K) (k : K) (i : ℕ) : Prop :=
  ∀ j < i, ∃ k', t (seq k j) = some k' ∧ k' ≠ k

def Placed (seq : K → ℕ → ℕ) (t : ℕ → Option K) : Prop :=
  ∀ a k, t a = some k → ∃ i, seq k i = a ∧ Passed seq t k i

theorem Placed.of_free (h : ∀ a, t a = none) : Placed seq t := fun a _ hk => nomatch (h a).symm.trans hk

theorem Passed.ne (h : Passed seq t k i) (hj : j < i) : t (seq k j) ≠ none ∧ t (seq k j) ≠ some k := by
  obtain ⟨k', hk', hne⟩ := h j hj
  rw [hk']
  exact ⟨nofun, fun heq => hne (Option.some.inj heq)⟩

theorem Placed.absent (h : Placed seq t) (hpass : Passed seq t k i) (hfree : t (seq k i) = none) : t a ≠ some k := by
  intro ha
  obtain ⟨j, rfl, hpass'⟩ := h a k ha
  rcases lt_trichotomy i j with hlt | rfl | hlt
  · exact (hpass'.ne hlt).1 hfree
  · exact nomatch hfree.symm.trans ha
  · exact (hpass.ne hlt).2 ha

theorem Placed.unique (h : Placed seq t) (ha : t a = some k) (hb : t b = some k) : a = b := by
  obtain ⟨i, rfl, hi⟩ := h a k ha
  obtain ⟨j, rfl, hj⟩ := h b k hb
  rcases lt_trichotomy i j with hlt | rfl | hlt
  · exact absurd ha (hj.ne hlt).2
  · rfl
  · exact absurd hb (hi.ne hlt).2

theorem Placed.insert (h : Placed seq t) (hpass : Passed seq t k i) (hfree : t (seq k i) = none) :
    Placed seq (update t (seq k i) (some k)) := by
  have hkeep : ∀ {k' j}, Passed seq t k' j → Passed seq (update t (seq k i) (some k)) k' j := by
    intro k' j hpass' m hm
    obtain ⟨k'', hk'', hne⟩ := hpass' m hm
    have hother : seq k' m ≠ seq k i := fun heq => nomatch (heq ▸ hfree).symm.trans hk''
    exact ⟨k'', by rw [update_of_ne hother, hk''], hne⟩
  intro a k' ha
  by_cases hak : a = seq k i
  · subst hak
    rw [update_self] at ha
    obtain rfl := Option.some.inj ha
    exact ⟨i, rfl, hkeep hpass⟩
  · rw [update_of_ne hak] at ha
    obtain ⟨j, hj, hpass'⟩ := h a k' ha
    exact ⟨j, hj, hkeep hpass'⟩

end Table

def place (n h o i : ℕ) : ℕ := (h + i * o) % n

theorem place_zero (hh : h < n) : place n h o 0 = h := by
  rw [place, Nat.zero_mul, Nat.add_zero, Nat.mod_eq_of_lt hh]

theorem place_lt (hn : 0 < n) (i : ℕ) : place n h o i < n := Nat.mod_lt _ hn

theorem place_succ (ho : o ≤ n) (hn : 0 < n) (i : ℕ) :
    place n h o (i + 1) = if place n h o i + o ≥ n then place n h o i + o - n else place n h o i + o := by
  have hlt : place n h o i < n := place_lt hn i
  have hmod : place n h o (i + 1) = (place n h o i + o) % n := by
    rw [place, place, Nat.mod_add_mod, Nat.succ_mul, Nat.add_assoc]
  rw [hmod]
  split_ifs with hge
  · rw [Nat.mod_eq_sub_mod hge, Nat.mod_eq_of_lt (by omega)]
  · exact Nat.mod_eq_of_lt (by omega)

theorem exists_place_eq (hp : n.Prime) (hpos : 0 < o) (ho : o < n) (hr : r < n) : ∃ i < n, place n h o i = r := by
  have hn : 0 < n := hp.pos
  have hcoprime : Nat.gcd n o = 1 := (hp.coprime_iff_not_dvd).mpr fun hdvd => absurd (Nat.le_of_dvd hpos hdvd) (by omega)
  let f : Fin n → Fin n := fun i => ⟨place n h o i, place_lt hn i⟩
  have hinj : Injective f := by
    intro i j hij
    have hmod : Nat.ModEq n (h + i.val * o) (h + j.val * o) := congrArg Fin.val hij
    have hmul := Nat.ModEq.cancel_right_of_coprime hcoprime (Nat.ModEq.add_left_cancel' h hmod)
    exact Fin.ext (Nat.ModEq.eq_of_lt_of_lt hmul i.isLt j.isLt)
  obtain ⟨i, hi⟩ := Finite.surjective_of_injective hinj ⟨r, hr⟩
  exact ⟨i, i.isLt, congrArg Fin.val hi⟩

end Mosbench.Probing
