import Mathlib.Data.List.Basic
import Mathlib.Data.List.Nodup
import Mathlib.Logic.Function.Basic

/-!
Intrusive singly linked lists. A list has a head cell and every element owns
a link cell; cells hold the next element or null. `Chain cell l xs` says that
following the links from cell `l` visits exactly `xs` and then reaches null.
The writes are those of a queue edited through cell addresses: push at the
head, append through a tail address, and unlink through the address of the
cell that points at the element.
-/
namespace Mosbench.Links

open List Function

/-- The address of a link cell: the list head, or the link owned by `p`. -/
inductive Cell (P : Type*)
  | head
  | next (p : P)
  deriving DecidableEq

abbrev Memory (P : Type*) := Cell P → Option P

def Chain (cell : Memory P) : Cell P → List P → Prop
  | l, [] => cell l = none
  | l, x :: xs => cell l = some x ∧ Chain cell (.next x) xs

def lastCell (l : Cell P) : List P → Cell P
  | [] => l
  | x :: xs => lastCell (.next x) xs

def ChainFrom (cell : Memory P) : Option P → List P → Prop
  | start, [] => start = none
  | start, x :: xs => start = some x ∧ Chain cell (.next x) xs

@[simp] theorem chain_nil (cell : Memory P) (l : Cell P) :
    Chain cell l [] ↔ cell l = none := Iff.rfl

@[simp] theorem chain_cons (cell : Memory P) (l : Cell P) (x : P) (xs : List P) :
    Chain cell l (x :: xs) ↔ cell l = some x ∧ Chain cell (.next x) xs := Iff.rfl

@[simp] theorem lastCell_append_singleton (l : Cell P) (xs : List P) (x : P) :
    lastCell l (xs ++ [x]) = .next x := by
  induction xs generalizing l with
  | nil => rfl
  | cons y ys ih => exact ih _

theorem lastCell_append (l : Cell P) (xs ys : List P) :
    lastCell l (xs ++ ys) = lastCell (lastCell l xs) ys := by
  induction xs generalizing l with
  | nil => rfl
  | cons y ys ih => exact ih _

theorem lastCell_of_ne_nil (l k : Cell P) (h : xs ≠ []) : lastCell l xs = lastCell k xs := by
  cases xs with
  | nil => exact absurd rfl h
  | cons x xs => rfl

theorem lastCell_eq_head (h : lastCell .head xs = .head) : xs = [] := by
  rcases eq_nil_or_concat xs with rfl | ⟨ys, x, rfl⟩
  · rfl
  · simp at h

theorem lastCell_cases (l : Cell P) (xs : List P) :
    (xs = [] ∧ lastCell l xs = l) ∨ ∃ ys x, xs = ys ++ [x] ∧ lastCell l xs = .next x := by
  rcases eq_nil_or_concat xs with rfl | ⟨ys, x, rfl⟩
  · exact Or.inl ⟨rfl, rfl⟩
  · exact Or.inr ⟨ys, x, by simp, by simp⟩

namespace Chain

variable {cell : Memory P}

theorem unique (h : Chain cell l xs) (h' : Chain cell l ys) : xs = ys := by
  induction xs generalizing l ys with
  | nil =>
    cases ys with
    | nil => rfl
    | cons y ys => simp_all
  | cons x xs ih =>
    cases ys with
    | nil => simp_all
    | cons y ys =>
      obtain ⟨hx, hxs⟩ := h
      obtain ⟨hy, hys⟩ := h'
      obtain rfl : x = y := Option.some.inj (hx.symm.trans hy)
      rw [ih hxs hys]

theorem drop (h : Chain cell l (xs ++ ys)) : Chain cell (lastCell l xs) ys := by
  induction xs generalizing l with
  | nil => exact h
  | cons x xs ih => exact ih h.2

theorem nodup (h : Chain cell l xs) : xs.Nodup := by
  induction xs generalizing l with
  | nil => exact nodup_nil
  | cons x xs ih =>
    refine nodup_cons.mpr ⟨?_, ih h.2⟩
    intro hmem
    obtain ⟨us, vs, rfl⟩ := append_of_mem hmem
    have htail : Chain cell (lastCell l (x :: us)) (x :: vs) := drop h
    have heq := congrArg List.length (unique h.2 htail.2)
    simp only [length_append, length_cons] at heq
    omega

theorem congr (h : Chain cell l xs) (hl : cell' l = cell l)
    (hxs : ∀ x ∈ xs, cell' (.next x) = cell (.next x)) : Chain cell' l xs := by
  induction xs generalizing l with
  | nil => exact hl.trans h
  | cons x xs ih =>
    refine ⟨hl.trans h.1, ih h.2 (hxs x (mem_cons_self ..)) ?_⟩
    intro y hy
    exact hxs y (mem_cons_of_mem x hy)

theorem splice (h : Chain cell l (xs ++ ys)) (hl : ∀ x ∈ xs, l ≠ .next x)
    (hagree : ∀ k, k ≠ lastCell l xs → (k = l ∨ ∃ x ∈ xs, k = .next x) → cell' k = cell k)
    (hz : Chain cell' (lastCell l xs) zs) : Chain cell' l (xs ++ zs) := by
  induction xs generalizing l with
  | nil => exact hz
  | cons x xs ih =>
    have hx : x ∉ xs := fun hmem =>
      (nodup_cons.mp (nodup h)).1 (mem_append_left ys hmem)
    have hlast : l ≠ lastCell l (x :: xs) := by
      change l ≠ lastCell (.next x) xs
      rcases lastCell_cases (.next x) xs with ⟨_, heq⟩ | ⟨us, y, rfl, heq⟩
      · rw [heq]
        exact hl x (mem_cons_self ..)
      · rw [heq]
        exact hl y (by simp)
    refine ⟨(hagree l hlast (Or.inl rfl)).trans h.1, ih h.2 ?_ ?_ hz⟩
    · intro y hy heq
      obtain rfl : x = y := Cell.next.inj heq
      exact hx hy
    · intro k hk hmem
      refine hagree k hk (Or.inr ?_)
      rcases hmem with rfl | ⟨y, hy, rfl⟩
      · exact ⟨x, mem_cons_self .., rfl⟩
      · exact ⟨y, mem_cons_of_mem x hy, rfl⟩

end Chain

theorem chain_iff_chainFrom : Chain cell l xs ↔ ChainFrom cell (cell l) xs := by
  cases xs <;> rfl

namespace ChainFrom

variable {cell : Memory P}

theorem congr (h : ChainFrom cell start xs)
    (hxs : ∀ x ∈ xs, cell' (.next x) = cell (.next x)) : ChainFrom cell' start xs := by
  cases xs with
  | nil => exact h
  | cons x xs =>
    refine ⟨h.1, h.2.congr (hxs x (mem_cons_self ..)) ?_⟩
    intro y hy
    exact hxs y (mem_cons_of_mem x hy)

theorem follow (h : ChainFrom cell (some x) xs) :
    ∃ ys, xs = x :: ys ∧ ChainFrom cell (cell (.next x)) ys := by
  cases xs with
  | nil => cases h
  | cons y ys =>
    obtain ⟨hy, hys⟩ := h
    cases hy
    exact ⟨ys, rfl, chain_iff_chainFrom.mp hys⟩

theorem nodup (h : ChainFrom cell start xs) : xs.Nodup := by
  -- put the pointer into the head cell, which the links never come back to
  have hchain : Chain (fun k => match k with
      | .head => start
      | .next p => cell (.next p)) .head xs :=
    chain_iff_chainFrom.mpr (h.congr fun _ _ => rfl)
  exact hchain.nodup

end ChainFrom

theorem Chain.insert_behind {cell : Memory P}
    (h : Chain cell l (xs ++ x :: ys)) (hl : cell' l = cell l) (hx : cell' (.next x) = some p)
    (hp : cell' (.next p) = cell (.next x))
    (hkeep : ∀ y ∈ xs ++ ys, cell' (.next y) = cell (.next y)) :
    Chain cell' l (xs ++ x :: p :: ys) := by
  induction xs generalizing l with
  | nil =>
    refine ⟨hl.trans h.1, hx, ?_⟩
    have hrest : Chain cell (.next x) ys := h.2
    rw [chain_iff_chainFrom] at hrest ⊢
    rw [hp]
    exact hrest.congr hkeep
  | cons y xs ih =>
    refine ⟨hl.trans h.1, ih h.2 (hkeep y mem_cons_self) ?_⟩
    intro z hz
    exact hkeep z (mem_cons_of_mem y hz)

namespace Chain

variable {cell : Memory P}

section Writes

variable [DecidableEq P]

theorem write_outside (h : Chain cell .head xs) (hp : p ∉ xs) (v : Option P) :
    Chain (update cell (.next p) v) .head xs := by
  refine congr h (update_of_ne (by simp) _ _) ?_
  intro x hx
  exact update_of_ne (by rintro ⟨⟩; exact hp hx) _ _

theorem push (h : Chain cell .head xs) (hp : p ∉ xs) :
    Chain (update (update cell (.next p) (cell .head)) .head (some p)) .head (p :: xs) := by
  refine ⟨update_self .., ?_⟩
  suffices hnew : Chain (update cell (.next p) (cell .head)) (.next p) xs from
    congr hnew (update_of_ne (by simp) _ _) fun x _ => update_of_ne (by simp) _ _
  cases xs with
  | nil => exact (update_self ..).trans h
  | cons x xs =>
    refine ⟨(update_self ..).trans h.1, ?_⟩
    have hne : ∀ y ∈ x :: xs, Cell.next y ≠ Cell.next p := by
      rintro y hy ⟨⟩
      exact hp hy
    refine congr h.2 (update_of_ne (hne x (mem_cons_self ..)) _ _) ?_
    intro y hy
    exact update_of_ne (hne y (mem_cons_of_mem x hy)) _ _

theorem append_at (h : Chain cell .head (xs ++ ys)) (hp : p ∉ xs) :
    Chain (update (update cell (lastCell .head xs) (some p)) (.next p) none) .head (xs ++ [p]) := by
  have hlast : lastCell .head xs ≠ .next p := by
    rcases lastCell_cases (.head : Cell P) xs with ⟨_, heq⟩ | ⟨us, y, rfl, heq⟩
    · rw [heq]
      simp
    · rw [heq]
      rintro ⟨⟩
      exact hp (by simp)
  refine splice h (fun _ _ => by simp) ?_ ?_
  · rintro k hk (rfl | ⟨x, hx, rfl⟩)
    · rw [update_of_ne (by simp), update_of_ne hk]
    · rw [update_of_ne (by rintro ⟨⟩; exact hp hx), update_of_ne hk]
  · refine ⟨?_, update_self ..⟩
    rw [update_of_ne hlast, update_self]

/-- Appending through an arbitrary address: the new element may get lost and
others may be cut off, but nothing else enters the list. -/
theorem append_through (h : Chain cell .head xs) (hp : p ∉ xs) (k : Cell P) :
    ∃ zs, Chain (update (update cell k (some p)) (.next p) none) .head zs ∧
      ∀ z ∈ zs, z ∈ xs ∨ z = p := by
  have hcut : ∀ us vs, xs = us ++ vs → k = lastCell .head us →
      ∃ zs, Chain (update (update cell k (some p)) (.next p) none) .head zs ∧
        ∀ z ∈ zs, z ∈ xs ∨ z = p := by
    rintro us vs rfl rfl
    have hus : p ∉ us := fun hmem => hp (mem_append_left vs hmem)
    refine ⟨us ++ [p], append_at h hus, ?_⟩
    intro z hz
    rcases mem_append.mp hz with hz | hz
    · exact Or.inl (mem_append_left vs hz)
    · exact Or.inr (by simpa using hz)
  cases k with
  | head => exact hcut [] xs rfl rfl
  | next y =>
    by_cases hy : y ∈ xs
    · obtain ⟨us, vs, rfl⟩ := append_of_mem hy
      exact hcut (us ++ [y]) vs (by simp) (by simp)
    · exact ⟨xs, write_outside (write_outside h hy _) hp _, fun z hz => Or.inl hz⟩

theorem unlink (h : Chain cell .head (xs ++ x :: ys)) :
    Chain (update (update cell (lastCell .head xs) (cell (.next x)))
      (.next x) none) .head (xs ++ ys) := by
  have hnodup := nodup h
  rw [nodup_append] at hnodup
  obtain ⟨-, htail, hdisj⟩ := hnodup
  have hx : x ∉ xs := fun hmem => hdisj x hmem x (mem_cons_self ..) rfl
  have hxy : x ∉ ys := (nodup_cons.mp htail).1
  have hlast : ∀ y ∉ xs, lastCell .head xs ≠ .next y := by
    intro y hy
    rcases lastCell_cases (.head : Cell P) xs with ⟨_, heq⟩ | ⟨us, z, rfl, heq⟩
    · rw [heq]
      simp
    · rw [heq]
      rintro ⟨⟩
      exact hy (by simp)
  have hback : Chain cell (.next x) ys := (drop h).2
  refine splice h (fun _ _ => by simp) ?_ ?_
  · rintro k hk (rfl | ⟨y, hy, rfl⟩)
    · rw [update_of_ne (by simp), update_of_ne hk]
    · rw [update_of_ne (by rintro ⟨⟩; exact hx hy), update_of_ne hk]
  · have hrest : ∀ y ∈ ys, update (update cell (lastCell .head xs)
        (cell (.next x))) (.next x) none (.next y) = cell (.next y) := by
      intro y hy
      have hyx : y ∉ xs := fun hmem => hdisj y hmem y (mem_cons_of_mem x hy) rfl
      rw [update_of_ne (by rintro ⟨⟩; exact hxy hy), update_of_ne (hlast y hyx).symm]
    cases ys with
    | nil =>
      rw [chain_nil, update_of_ne (hlast x hx), update_self]
      exact hback
    | cons y ys =>
      refine ⟨?_, congr hback.2 (hrest y (mem_cons_self ..)) ?_⟩
      · rw [update_of_ne (hlast x hx), update_self]
        exact hback.1
      · intro z hz
        exact hrest z (mem_cons_of_mem y hz)

theorem cut (h : Chain cell .head (xs ++ x :: ys)) :
    Chain (update (update cell .head (cell (.next x))) (.next x) none) .head ys ∧
      ChainFrom (update (update cell .head (cell (.next x))) (.next x) none)
        (cell .head) (xs ++ [x]) := by
  have hback : Chain cell (.next x) ys := (drop h).2
  have hx : x ∉ ys := by
    have hnodup := nodup h
    rw [nodup_append] at hnodup
    exact (nodup_cons.mp hnodup.2.1).1
  constructor
  · rw [chain_iff_chainFrom] at hback ⊢
    rw [update_of_ne (by simp), update_self]
    refine hback.congr ?_
    intro y hy
    rw [update_of_ne (by rintro ⟨⟩; exact hx hy), update_of_ne (by simp)]
  · have hfront : Chain (update cell (.next x) none) .head ((xs ++ [x]) ++ []) := by
      rw [append_cons] at h
      refine splice h (fun _ _ => by simp) ?_ ?_
      · intro k hk _
        rw [lastCell_append_singleton] at hk
        exact update_of_ne hk _ _
      · rw [lastCell_append_singleton]
        exact update_self ..
    rw [append_nil, chain_iff_chainFrom, update_of_ne (by simp)] at hfront
    refine hfront.congr ?_
    intro y _
    by_cases hy : y = x
    · rw [hy, update_self, update_self]
    · rw [update_of_ne (by simpa using hy), update_of_ne (by simp),
        update_of_ne (by simpa using hy)]

end Writes

end Chain

end Mosbench.Links
