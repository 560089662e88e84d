import Mosbench.Mparts.ConfigSpace

/-!
What the operations do to variable maps: the values of a variable after them, and the
variables. A sum, a product or a merge only adds values, so the terms that a map covers
stay covered.
-/
namespace Mosbench.Mparts

open List

namespace Varmap

variable {varmap : Varmap V}

theorem mem_of_mem_values (h : x ∈ varmap.values name) : name ∈ varmap := by
  by_contra hnot
  rw [values, AList.lookup_eq_none.mpr hnot] at h
  exact absurd h (Finset.notMem_empty x)

theorem lookup_of_mem_values (h : x ∈ varmap.values name) : varmap.lookup name = some (varmap.values name) := by
  obtain ⟨vals, hvals⟩ := Option.isSome_iff_exists.mp (AList.lookup_isSome.mpr (mem_of_mem_values h))
  rw [values, hvals]
  rfl

structure Extends (varmap varmap' : Varmap V) : Prop where
  vars : ∀ name ∈ varmap, name ∈ varmap'
  values : ∀ name, varmap.values name ⊆ varmap'.values name

def Covers (varmap : Varmap V) (term : Term V) : Prop := ∀ atom ∈ term, some atom.val ∈ varmap.values atom.name

theorem Extends.rfl : Extends varmap varmap := ⟨fun _ => id, fun _ => Finset.Subset.refl _⟩

theorem Extends.trans (h : Extends varmap varmap') (h' : Extends varmap' varmap'') :
    Extends varmap varmap'' :=
  ⟨fun name hname => h'.vars name (h.vars name hname), fun name => (h.values name).trans (h'.values name)⟩

theorem Extends.covers (h : Extends varmap varmap') (hc : Covers varmap term) : Covers varmap' term :=
  fun atom hatom => h.values atom.name (hc atom hatom)

theorem Covers.append (h : Covers varmap term) (h' : Covers varmap term') :
    Covers varmap (term ++ term') := by
  intro atom hatom
  rcases mem_append.mp hatom with hatom | hatom
  · exact h atom hatom
  · exact h' atom hatom

theorem Covers.mem (h : Covers varmap term) (hatom : atom ∈ term) : atom.name ∈ varmap :=
  mem_of_mem_values (h atom hatom)

variable [DecidableEq V]

theorem values_add (varmap : Varmap V) (var name : Name) (vals : Finset (Option V)) :
    (add varmap var vals).values name = if name = var then varmap.values name ∪ vals else varmap.values name := by
  unfold add
  split_ifs with h
  · subst h
    rw [values, AList.lookup_insert]
    rfl
  · rw [values, AList.lookup_insert_ne h, values]

theorem mem_add : name ∈ add varmap var vals ↔ name = var ∨ name ∈ varmap := AList.mem_insert varmap

variable {entries : List (Sigma fun _ : Name => Finset (Option V))}

theorem values_foldl (h : entries.NodupKeys) (p : Varmap V × Option Name) (name : Name) :
    (entries.foldl updateEntry p).1.values name = p.1.values name ∪ (entries.dlookup name).getD ∅ := by
  induction entries generalizing p with
  | nil => exact (Finset.union_empty _).symm
  | cons entry entries ih =>
    obtain ⟨hnot, h⟩ := nodupKeys_cons.mp h
    rw [foldl_cons]
    refine (ih h _).trans ?_
    rw [updateEntry, values_add]
    split_ifs with hname
    · -- the other entries have other variables
      subst hname
      rw [dlookup_eq_none.mpr hnot, dlookup_cons_eq]
      exact Finset.union_empty _
    · rw [dlookup_cons_ne _ _ hname]

theorem mem_foldl : name ∈ (entries.foldl updateEntry p).1 ↔ name ∈ p.1 ∨ name ∈ entries.keys := by
  induction entries generalizing p with
  | nil => simp
  | cons entry entries ih =>
    rw [foldl_cons]
    refine ih.trans ?_
    rw [updateEntry, mem_add, keys_cons, mem_cons]
    tauto

theorem overlap_foldl (h : entries.NodupKeys) :
    (entries.foldl updateEntry p).2.getD [] = [] ↔ p.2.getD [] = [] ∧ ∀ name ∈ p.1, name ∈ entries.keys → name = [] := by
  induction entries generalizing p with
  | nil => simp
  | cons entry entries ih =>
    obtain ⟨hnot, h⟩ := nodupKeys_cons.mp h
    -- what the entry adds to the map is not in the others
    have hadd : (∀ name ∈ add p.1 entry.1 entry.2, name ∈ entries.keys → name = []) ↔
        ∀ name ∈ p.1, name ∈ entries.keys → name = [] := by
      constructor
      · intro hall name hname
        exact hall name (mem_add.mpr (.inr hname))
      · intro hall name hname hkey
        rcases mem_add.mp hname with rfl | hname
        · exact absurd hkey hnot
        · exact hall name hname hkey
    rw [foldl_cons]
    refine (ih h).trans ?_
    rw [updateEntry, hadd, keys_cons]
    simp only [mem_cons]
    split_ifs with hoverlap
    · constructor
      · rintro ⟨hentry, hall⟩
        refine ⟨hoverlap.1, fun name hname hkey => ?_⟩
        rcases hkey with rfl | hkey
        · exact hentry
        · exact hall name hname hkey
      · rintro ⟨-, hall⟩
        exact ⟨hall entry.1 hoverlap.2 (.inl rfl), fun name hname hkey => hall name hname (.inr hkey)⟩
    · constructor
      · rintro ⟨hnil, hall⟩
        refine ⟨hnil, fun name hname hkey => ?_⟩
        rcases hkey with rfl | hkey
        · exact absurd ⟨hnil, hname⟩ hoverlap
        · exact hall name hname hkey
      · rintro ⟨hnil, hall⟩
        exact ⟨hnil, fun name hname hkey => hall name hname (.inr hkey)⟩

theorem values_update (varmap other : Varmap V) (name : Name) :
    (varmapUpdate varmap other).1.values name = varmap.values name ∪ other.values name :=
  values_foldl other.nodupKeys (varmap, none) name

theorem mem_update : name ∈ (varmapUpdate varmap other).1 ↔ name ∈ varmap ∨ name ∈ other :=
  mem_foldl

/-- No overlap is reported if the maps have no variable in common, or only the one whose
name is empty. -/
theorem overlap_update :
    (varmapUpdate varmap other).2.getD [] = [] ↔ ∀ name ∈ varmap, name ∈ other → name = [] :=
  (overlap_foldl other.nodupKeys).trans (and_iff_right rfl)

theorem extends_add (varmap : Varmap V) (var : Name) (vals : Finset (Option V)) : Extends varmap (add varmap var vals) := by
  refine ⟨fun name hname => mem_add.mpr (.inr hname), fun name => ?_⟩
  rw [values_add]
  split_ifs
  · exact Finset.subset_union_left
  · exact Finset.Subset.refl _

theorem extends_update_left (varmap other : Varmap V) : Extends varmap (varmapUpdate varmap other).1 := by
  refine ⟨fun name hname => mem_update.mpr (.inl hname), fun name => ?_⟩
  rw [values_update]
  exact Finset.subset_union_left

theorem extends_update_right (varmap other : Varmap V) : Extends other (varmapUpdate varmap other).1 := by
  refine ⟨fun name hname => mem_update.mpr (.inr hname), fun name => ?_⟩
  rw [values_update]
  exact Finset.subset_union_right

end Varmap

end Mosbench.Mparts
