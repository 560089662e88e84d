import Mathlib.Data.List.Nodup

/-!
Sums of words, as lists: a word is a product of letters, and sums are multiplied out
from left to right. Products associate and distribute from the right also as lists;
from the left the summands come in another order.

A product has no word twice if the letters of its factors can be told apart.
-/
namespace Mosbench.FormalSums

open List

variable {A : Type} {a : List A}

def mul (l m : List (List A)) : List (List A) := l.flatMap fun a => m.map fun b => a ++ b

theorem mem_mul : w ∈ mul l m ↔ ∃ a ∈ l, ∃ b ∈ m, a ++ b = w := by
  simp only [mul, mem_flatMap, mem_map]

theorem nil_mul (m : List (List A)) : mul [] m = [] := rfl

theorem cons_mul (a : List A) (l m : List (List A)) : mul (a :: l) m = (m.map fun b => a ++ b) ++ mul l m := rfl

theorem mul_nil (l : List (List A)) : mul l [] = [] := by
  induction l with
  | nil => rfl
  | cons a l ih =>
    rw [cons_mul, ih]
    rfl

theorem one_mul (m : List (List A)) : mul [[]] m = m := by
  rw [cons_mul, nil_mul, append_nil]
  exact map_id m

theorem mul_one (l : List (List A)) : mul l [[]] = l := by
  induction l with
  | nil => rfl
  | cons a l ih =>
    rw [cons_mul, ih, map_singleton, append_nil]
    rfl

theorem append_mul (l m n : List (List A)) : mul (l ++ m) n = mul l n ++ mul m n := flatMap_append

theorem map_append_mul (a : List A) (m n : List (List A)) :
    mul (m.map fun b => a ++ b) n = (mul m n).map fun w => a ++ w := by
  induction m with
  | nil => rfl
  | cons b m ih =>
    rw [map_cons, cons_mul, ih, cons_mul, map_append, map_map]
    congr 2
    funext c
    exact append_assoc a b c

theorem mul_assoc (l m n : List (List A)) : mul (mul l m) n = mul l (mul m n) := by
  induction l with
  | nil => rfl
  | cons a l ih => rw [cons_mul, append_mul, map_append_mul, ih, cons_mul]

theorem mem_mul_append : w ∈ mul l (m ++ n) ↔ w ∈ mul l m ++ mul l n := by
  simp only [mem_append, mem_mul]
  constructor
  · rintro ⟨a, ha, b, hb | hb, rfl⟩
    · exact .inl ⟨a, ha, b, hb, rfl⟩
    · exact .inr ⟨a, ha, b, hb, rfl⟩
  · rintro (⟨a, ha, b, hb, rfl⟩ | ⟨a, ha, b, hb, rfl⟩)
    · exact ⟨a, ha, b, .inl hb, rfl⟩
    · exact ⟨a, ha, b, .inr hb, rfl⟩

structure Separates (P : A → Prop) (l m : List (List A)) : Prop where
  left : ∀ a ∈ l, ∀ x ∈ a, P x
  right : ∀ b ∈ m, ∀ x ∈ b, ¬P x

theorem append_inj_of_separated {P : A → Prop} (h : a ++ b = a' ++ b') (ha : ∀ x ∈ a, P x) (ha' : ∀ x ∈ a', P x)
    (hb : ∀ x ∈ b, ¬P x) (hb' : ∀ x ∈ b', ¬P x) : a = a' ∧ b = b' := by
  induction a generalizing a' with
  | nil =>
    cases a' with
    | nil => exact ⟨rfl, h⟩
    | cons x a' =>
      rw [nil_append, cons_append] at h
      exact absurd (ha' x mem_cons_self) (hb x (h ▸ mem_cons_self))
  | cons x a ih =>
    cases a' with
    | nil =>
      rw [nil_append, cons_append] at h
      exact absurd (ha x mem_cons_self) (hb' x (h ▸ mem_cons_self))
    | cons y a' =>
      rw [cons_append, cons_append, List.cons.injEq] at h
      obtain ⟨heq, hrest⟩ := ih h.2 (fun z hz => ha z (mem_cons_of_mem x hz))
        fun z hz => ha' z (mem_cons_of_mem y hz)
      exact ⟨by rw [h.1, heq], hrest⟩

theorem Separates.inj (h : Separates P l m) (h' : Separates P l n) (ha : a ∈ l) (ha' : a' ∈ l) (hb : b ∈ m) (hb' : b' ∈ n)
    (heq : a ++ b = a' ++ b') : a = a' ∧ b = b' :=
  append_inj_of_separated heq (h.left a ha) (h.left a' ha') (h.right b hb) (h'.right b' hb')

theorem Separates.nodup_mul (h : Separates P l m) (hl : l.Nodup) (hm : m.Nodup) : (mul l m).Nodup := by
  refine nodup_flatMap.mpr ⟨fun a _ => hm.map fun b b' => append_cancel_left, ?_⟩
  refine hl.imp_of_mem fun {a a'} ha ha' hne => ?_
  intro w hw hw'
  obtain ⟨b, hb, rfl⟩ := mem_map.mp hw
  obtain ⟨b', hb', heq⟩ := mem_map.mp hw'
  exact hne (h.inj h ha' ha hb' hb heq).1.symm

theorem Separates.disjoint_mul (h : Separates P l m) (h' : Separates P l n) (hmn : m.Disjoint n) :
    (mul l m).Disjoint (mul l n) := by
  intro w hw hw'
  obtain ⟨a, ha, b, hb, rfl⟩ := mem_mul.mp hw
  obtain ⟨a', ha', b', hb', heq⟩ := mem_mul.mp hw'
  obtain ⟨-, rfl⟩ := h'.inj h ha' ha hb' hb heq
  exact hmn hb hb'

end Mosbench.FormalSums
