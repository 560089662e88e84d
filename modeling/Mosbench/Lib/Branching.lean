import Mathlib.Data.List.Nodup

/-!
Systems that branch: in a state there is a list of choices, and a choice leads to another state.
`leaves` lists the sequences of choices that cannot be continued, in the order in which a
depth-first search meets them.
-/
namespace Mosbench.Branching

open List

variable {S P : Type} (choices : S → List P) (next : S → P → S)

def Follows : S → List P → Prop
  | _, [] => True
  | s, p :: ps => p ∈ choices s ∧ Follows (next s p) ps

def Maximal (s : S) (ps : List P) : Prop := Follows choices next s ps ∧ choices (ps.foldl next s) = []

def leaves : ℕ → S → List (List P)
  | 0, _ => []
  | k + 1, s =>
    if (choices s).isEmpty then [[]]
    else (choices s).flatMap fun p => (leaves k (next s p)).map (p :: ·)

variable {choices next}

theorem Maximal.cons_iff :
    Maximal choices next s (p :: ps) ↔ p ∈ choices s ∧ Maximal choices next (next s p) ps := by
  rw [Maximal, Maximal, Follows, foldl_cons, and_assoc]

theorem Maximal.nil_iff : Maximal choices next s [] ↔ choices s = [] := by
  rw [Maximal, Follows, foldl_nil, true_and]

theorem leaves_of_nil (h : choices s = []) : leaves choices next (k + 1) s = [[]] := by
  rw [leaves, h, if_pos isEmpty_nil]

theorem leaves_of_ne_nil (h : choices s ≠ []) :
    leaves choices next (k + 1) s = (choices s).flatMap fun p => (leaves choices next k (next s p)).map (p :: ·) := by
  rw [leaves, if_neg (by simpa using h)]

theorem mem_leaves : ps ∈ leaves choices next k s ↔ Maximal choices next s ps ∧ ps.length < k := by
  induction k generalizing s ps with
  | zero => simp [leaves]
  | succ k ih =>
    by_cases h : choices s = []
    · rw [leaves_of_nil h, mem_singleton]
      constructor
      · rintro rfl
        exact ⟨Maximal.nil_iff.mpr h, Nat.succ_pos k⟩
      · rintro ⟨hmax, -⟩
        cases ps with
        | nil => rfl
        | cons p ps =>
          have hp := (Maximal.cons_iff.mp hmax).1
          rw [h] at hp
          exact absurd hp not_mem_nil
    · rw [leaves_of_ne_nil h, mem_flatMap]
      constructor
      · rintro ⟨p, hp, hps⟩
        obtain ⟨qs, hqs, rfl⟩ := mem_map.mp hps
        obtain ⟨hmax, hlen⟩ := ih.mp hqs
        exact ⟨Maximal.cons_iff.mpr ⟨hp, hmax⟩, Nat.succ_lt_succ hlen⟩
      · rintro ⟨hmax, hlen⟩
        cases ps with
        | nil => exact absurd (Maximal.nil_iff.mp hmax) h
        | cons p ps =>
          obtain ⟨hp, hmax'⟩ := Maximal.cons_iff.mp hmax
          exact ⟨p, hp, mem_map.mpr ⟨ps, ih.mpr ⟨hmax', Nat.lt_of_succ_lt_succ hlen⟩, rfl⟩⟩

theorem nodup_leaves (hchoices : ∀ s, (choices s).Nodup) (k : ℕ) (s : S) : (leaves choices next k s).Nodup := by
  induction k generalizing s with
  | zero => exact nodup_nil
  | succ k ih =>
    by_cases h : choices s = []
    · rw [leaves_of_nil h]
      exact nodup_singleton _
    · rw [leaves_of_ne_nil h, nodup_flatMap]
      refine ⟨fun p _ => (ih (next s p)).map cons_injective, (hchoices s).imp fun {p q} hpq => ?_⟩
      intro ps hp hq
      obtain ⟨qs, -, rfl⟩ := mem_map.mp hp
      obtain ⟨qs', -, heq⟩ := mem_map.mp hq
      exact hpq (List.cons.inj heq).1.symm

end Mosbench.Branching
