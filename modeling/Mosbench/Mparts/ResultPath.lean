import Mosbench.Lib.PosixPath
import Mosbench.Mparts.Built

/-!
The directories of the results (generateManagers in manager.py). Every configuration has a
directory, with one level for each variable that is not constant. The analysis stops at the first
directory with results, so no directory may be in another one.

The values are given by their string forms; progress messages, the managers themselves and the
final renaming of the directory are left out.
-/
namespace Mosbench.Mparts

open List PosixPath ConfigSpace

variable {V : Type} {str : V → Path}

def component (str : V → Path) (cfgName : Name) (cfgVal : V) : Path := cfgName ++ '-' :: str cfgVal

def resultPath (str : V → Path) (basepath : Path) (config : Config V) : Path :=
  config.foldl (fun path (cfgName, cfgVal, cfgConst) =>
    if cfgConst then path else join path (component str cfgName cfgVal)) basepath

def basepath (resultRoot ts : Path) : Path := join (join resultRoot "incomplete".toList) ts

def generateManagers (str : V → Path) (resultRoot ts : Path) (configSpace : ConfigSpace V) :
    Except Error (List (Path × Config V)) :=
  configSpace.iter.map fun configs => configs.map fun config => (resultPath str (basepath resultRoot ts) config, config)

def ConfigSpace.constant (s : ConfigSpace V) (name : Name) : Bool := decide ((s.varmap.values name).card = 1)

def levels (str : V → Path) (s : ConfigSpace V) (t : Term V) : List Path :=
  (t.filter fun atom => !s.constant atom.name).map fun atom => component str atom.name atom.val

theorem levels_cons (hx : s.constant x.name = false) (t : Term V) :
    levels str s (x :: t) = component str x.name x.val :: levels str s t := by
  rw [levels, filter_cons_of_pos (by rw [hx]; rfl)]
  rfl

theorem levels_cons_constant (hx : s.constant x.name = true) (t : Term V) :
    levels str s (x :: t) = levels str s t := by
  rw [levels, filter_cons_of_neg (by rw [hx]; exact Bool.false_ne_true)]
  rfl

theorem resultPath_config (str : V → Path) (s : ConfigSpace V) (t : Term V) (path : Path) :
    resultPath str path (s.config t) = (levels str s t).foldl join path := by
  induction t generalizing path with
  | nil => rfl
  | cons x t ih =>
    change resultPath str (if s.constant x.name then path else join path (component str x.name x.val)) (s.config t) = _
    rw [ih]
    cases hx : s.constant x.name with
    | true =>
      rw [levels_cons_constant hx]
      rfl
    | false =>
      rw [levels_cons hx, foldl_cons]
      rfl

/-- Joined to a directory, the path leads into it. -/
def Below (b : Path) : Prop := b.head? ≠ some '/' ∧ ['.'] ∉ components b ∧ ['.', '.'] ∉ components b

instance (b : Path) : Decidable (Below b) := inferInstanceAs (Decidable (_ ∧ _ ∧ _))

theorem components_resultPath (hbelow : ∀ x ∈ t, Below (component str x.name x.val)) (path : Path) :
    components (resultPath str path (s.config t)) =
      components path ++ (levels str s t).flatMap components := by
  rw [resultPath_config]
  refine components_foldl_join (fun b hb => ?_) path
  obtain ⟨x, hx, rfl⟩ := mem_map.mp hb
  exact (hbelow x (mem_of_mem_filter hx)).1

/-- Two configurations have paths that do not contain each other exactly if both have an
assignment where their paths part. -/
theorem separate_iff (hbelow : ∀ x ∈ t, Below (component str x.name x.val))
    (hbelow' : ∀ x ∈ t', Below (component str x.name x.val)) (path : Path) :
    (resultPath str path (s.config t) ≠ resultPath str path (s.config t') ∧
      ¬Contains (resultPath str path (s.config t)) (resultPath str path (s.config t')) ∧
      ¬Contains (resultPath str path (s.config t')) (resultPath str path (s.config t))) ↔
    Part ((levels str s t).flatMap components) ((levels str s t').flatMap components) := by
  rw [part_iff, Contains, Contains, components_resultPath hbelow, components_resultPath hbelow',
    prefix_append_right_inj, prefix_append_right_inj]
  refine and_iff_right_of_imp fun hpart heq => hpart.1 ?_
  have hcomponents := congrArg components heq
  rw [components_resultPath hbelow, components_resultPath hbelow', append_cancel_left_eq] at hcomponents
  rw [hcomponents]

section

variable [DecidableEq V]

end

def digit (n : ℕ) : Path := [Char.ofNat (48 + n)]

def spaceAB : ConfigSpace ℕ := value (product spaceA spaceB)

def spaceBs : ConfigSpace ℕ := value (mk false ['b'] (.inr [1, 2]))

/-- The values have different string forms without a slash. -/
structure SafeValues (str : V → Path) (s : ConfigSpace V) : Prop where
  inj : ∀ t ∈ s.terms, ∀ t' ∈ s.terms, ∀ x ∈ t, ∀ y ∈ t', str x.val = str y.val → x.val = y.val
  slash : ∀ t ∈ s.terms, ∀ x ∈ t, '/' ∉ str x.val

end Mosbench.Mparts
