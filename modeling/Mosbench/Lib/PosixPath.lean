import Mathlib.Data.List.Basic

/-!
Paths of a POSIX file system as lists of characters: joining them, the names of the
directories on the way, and whether one directory is above another.
-/
namespace Mosbench.PosixPath

open List

abbrev Path := List Char

def join (path b : Path) : Path :=
  if b.head? = some '/' then b
  else if path = [] ∨ path.getLast? = some '/' then path ++ b
  else path ++ '/' :: b

def components (path : Path) : List Path := (path.splitOn '/').filter fun name => name ≠ []

def Contains (path path' : Path) : Prop := components path <+: components path'

instance (path path' : Path) : Decidable (Contains path path') := inferInstanceAs (Decidable (components path <+: components path'))

def IsName (b : Path) : Prop := b ≠ [] ∧ '/' ∉ b

theorem IsName.components_eq (hb : IsName b) : components b = [b] := by
  rw [components, splitOn_eq_singleton hb.2]
  exact filter_cons_of_pos (by simpa using hb.1)

theorem components_append_slash (path b : Path) : components (path ++ '/' :: b) = components path ++ components b := by
  rw [components, splitOn_append_cons_self, filter_append]
  rfl

theorem components_join (path : Path) (hb : b.head? ≠ some '/') :
    components (join path b) = components path ++ components b := by
  rw [join, if_neg hb]
  split_ifs with hpath
  · rcases hpath with rfl | hlast
    · rfl
    · -- the slash at the end is the one that separates
      obtain ⟨front, rfl⟩ := List.getLast?_eq_some_iff.mp hlast
      rw [append_assoc, singleton_append, components_append_slash, components_append_slash front []]
      exact congrArg (· ++ components b) (append_nil _).symm
  · exact components_append_slash path b

theorem components_foldl_join {bs : List Path} (h : ∀ b ∈ bs, b.head? ≠ some '/') (path : Path) :
    components (bs.foldl join path) = components path ++ bs.flatMap components := by
  induction bs generalizing path with
  | nil => exact (append_nil _).symm
  | cons b bs ih =>
    obtain ⟨hb, h⟩ := forall_mem_cons.mp h
    rw [foldl_cons, ih h, components_join path hb, append_assoc]
    rfl

/-- Both go on after a common beginning, and not in the same way. -/
def Part (l l' : List Path) : Prop :=
  ∃ front b rest b' rest', l = front ++ b :: rest ∧ l' = front ++ b' :: rest' ∧ b ≠ b'

theorem Part.symm {l l' : List Path} (h : Part l l') : Part l' l := by
  obtain ⟨front, b, rest, b', rest', hl, hl', hne⟩ := h
  exact ⟨front, b', rest', b, rest, hl', hl, hne.symm⟩

theorem part_iff {l l' : List Path} : Part l l' ↔ ¬l <+: l' ∧ ¬l' <+: l := by
  constructor
  · rintro ⟨front, b, rest, b', rest', rfl, rfl, hne⟩
    simp [prefix_append_right_inj, cons_prefix_cons, hne, hne.symm]
  · rintro ⟨h, h'⟩
    induction l generalizing l' with
    | nil => exact absurd nil_prefix h
    | cons b l ih =>
      cases l' with
      | nil => exact absurd nil_prefix h'
      | cons b' l' =>
        by_cases hb : b = b'
        · subst hb
          simp only [cons_prefix_cons, true_and] at h h'
          obtain ⟨front, a, rest, a', rest', rfl, rfl, hne⟩ := ih h h'
          exact ⟨b :: front, a, rest, a', rest', rfl, rfl, hne⟩
        · exact ⟨[], b, l, b', l', rfl, rfl, hb⟩

end Mosbench.PosixPath
