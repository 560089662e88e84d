import Mathlib.Data.Nat.Basic

/-!
A ticket counter that several parties draw from. Numbers below the limit are
issued, each once and in order; a party that draws a number from the limit on
is refused and draws no more.
-/
namespace Mosbench

structure Tickets (limit : ℕ) where
  issued : ℕ
  refused : ℕ
  le : issued ≤ limit
  full : 0 < refused → issued = limit

namespace Tickets

variable (t : Tickets limit)

def starting (n : ℕ) (h : n ≤ limit) : Tickets limit := ⟨n, 0, h, by simp⟩

def next : ℕ := t.issued + t.refused

theorem next_eq_issued (h : t.next < limit) : t.next = t.issued := by
  rcases Nat.eq_zero_or_pos t.refused with h0 | hpos
  · simp [next, h0]
  · have hfull := t.full hpos
    simp only [next] at h
    omega

def issue (h : t.next < limit) : Tickets limit where
  issued := t.issued + 1
  refused := t.refused
  le := by
    have := t.next_eq_issued h
    omega
  full hpos := by
    have := t.full hpos
    simp only [next] at h
    omega

def refuse (h : limit ≤ t.next) : Tickets limit where
  issued := t.issued
  refused := t.refused + 1
  le := t.le
  full _ := by
    rcases Nat.eq_zero_or_pos t.refused with h0 | hpos
    · have hle := t.le
      simp only [next, h0] at h
      omega
    · exact t.full hpos

@[simp] theorem next_issue (h : t.next < limit) : (t.issue h).next = t.next + 1 := by
  simp only [issue, next]
  omega

@[simp] theorem next_refuse (h : limit ≤ t.next) : (t.refuse h).next = t.next + 1 := rfl

end Tickets

end Mosbench
