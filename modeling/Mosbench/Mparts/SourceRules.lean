import Mathlib.Data.List.Induction
import Mosbench.Lib.PosixPath

/-!
The include rules of rsync for the source files (__sendSourceFiles in host.py). A path in normal
form has one slash in front of its names, or the two that a normal form may keep. Each source gets
a rule, and the directories above it get one each, from the nearest one up to the first that has
its rule already.
-/
namespace Mosbench.Mparts

open List PosixPath

/-- An absolute path in normal form; the last name comes first. -/
structure AbsPath where
  twoSlashes : Bool
  names : List Path
  deriving DecidableEq

/-- The directories above, and the root they are in. -/
def AbsPath.Above (dir p : AbsPath) : Prop :=
  dir.twoSlashes = p.twoSlashes ∧ dir.names <:+ p.names ∧ dir.names ≠ p.names

/-- The text of an include rule: a path, or one that ends with a slash. -/
inductive Rule
  | path (p : AbsPath)
  | directory (p : AbsPath)
  deriving DecidableEq

/-- The loop over the directories above. It ends at `/`; the directory above `//` is `//`. -/
def addParents (two : Bool) : List Path → List Rule → List AbsPath → List Rule × List AbsPath
  | [], cmd, parents =>
    if two = false ∨ ⟨two, []⟩ ∈ parents then (cmd, parents)
    else (cmd ++ [.directory ⟨two, []⟩], ⟨two, []⟩ :: parents)
  | _ :: names, cmd, parents =>
    if ⟨two, names⟩ ∈ parents then (cmd, parents)
    else addParents two names (cmd ++ [.directory ⟨two, names⟩]) (⟨two, names⟩ :: parents)

/-- A directory is sent with everything in it. -/
def pattern (isdir : AbsPath → Bool) (sf : AbsPath) : AbsPath :=
  if isdir sf then ⟨sf.twoSlashes, ['*', '*'] :: sf.names⟩ else sf

def addSource (isdir : AbsPath → Bool) (st : List Rule × List AbsPath) (sf : AbsPath) : List Rule × List AbsPath :=
  addParents sf.twoSlashes (pattern isdir sf).names (st.1 ++ [.path (pattern isdir sf)]) st.2

/-- The rules in the order of the command line. -/
def includes (isdir : AbsPath → Bool) (sfs : List AbsPath) : List Rule := (sfs.foldl (addSource isdir) ([], [])).1

theorem above_cons_iff {dir : AbsPath} :
    dir.Above ⟨two, name :: names⟩ ↔ dir = ⟨two, names⟩ ∨ dir.Above ⟨two, names⟩ := by
  obtain ⟨two', names'⟩ := dir
  simp only [AbsPath.Above, suffix_cons_iff, AbsPath.mk.injEq]
  have hself : name :: names ≠ names := by simp
  have hlong : ¬name :: names <:+ names := fun h => absurd h.length_le (by simp)
  constructor
  · rintro ⟨htwo, rfl | hsuf, hne⟩
    · exact absurd rfl hne
    · exact (em (names' = names)).imp (⟨htwo, ·⟩) (⟨htwo, hsuf, ·⟩)
  · rintro (⟨htwo, rfl⟩ | ⟨htwo, hsuf, hne⟩)
    · exact ⟨htwo, .inr suffix_rfl, hself.symm⟩
    · refine ⟨htwo, .inr hsuf, ?_⟩
      rintro rfl
      exact hlong hsuf

theorem not_above_root {dir : AbsPath} : ¬dir.Above ⟨two, []⟩ := by
  rintro ⟨-, hsuf, hne⟩
  exact hne (suffix_nil.mp hsuf)

theorem AbsPath.Above.trans {a : AbsPath} (h : a.Above b) (h' : b.Above c) : a.Above c := by
  refine ⟨h.1.trans h'.1, h.2.1.trans h'.2.1, fun heq => h.2.2 (h.2.1.eq_of_length_le ?_)⟩
  rw [heq]
  exact h'.2.1.length_le

/-- The walk adds the directories above that have no rule yet: all above the first one that has
a rule have one. -/
theorem addParents_spec (two : Bool) (names : List Path) (cmd : List Rule) (parents : List AbsPath)
    (hcount : ∀ dir, cmd.count (.directory dir) = if dir ∈ parents then 1 else 0)
    (hclosed : ∀ dir ∈ parents, dir ≠ ⟨two, names⟩ → ¬AbsPath.Above ⟨two, names⟩ dir → ∀ dir', dir'.Above dir → dir' ∈ parents)
    (hroot : names ≠ [] ∨ ⟨two, names⟩ ∈ parents) :
    (∀ dir, (addParents two names cmd parents).1.count (.directory dir) =
      if dir ∈ (addParents two names cmd parents).2 then 1 else 0) ∧
    (∀ p, .path p ∈ (addParents two names cmd parents).1 ↔ .path p ∈ cmd) ∧
    ∀ dir, dir ∈ (addParents two names cmd parents).2 ↔ dir ∈ parents ∨ dir.Above ⟨two, names⟩ := by
  induction names generalizing cmd parents with
  | nil =>
    have hstop := hroot.resolve_left (not_not.mpr rfl)
    rw [addParents, if_pos (.inr hstop)]
    exact ⟨hcount, fun _ => Iff.rfl, fun dir => (or_iff_left not_above_root).symm⟩
  | cons name names ih =>
    have hup : AbsPath.Above ⟨two, names⟩ ⟨two, name :: names⟩ := above_cons_iff.mpr (.inl rfl)
    rw [addParents]
    split_ifs with hstop
    · refine ⟨hcount, fun _ => Iff.rfl, fun dir => (or_iff_left_of_imp fun habove => ?_).symm⟩
      rcases above_cons_iff.mp habove with rfl | habove
      · exact hstop
      · exact hclosed _ hstop (by simp) (fun hdown => (hup.trans hdown).2.2 rfl) dir habove
    · have hcount' : ∀ dir, (cmd ++ [Rule.directory ⟨two, names⟩]).count (.directory dir) =
          if dir ∈ ⟨two, names⟩ :: parents then 1 else 0 := by
        intro dir
        rw [count_append, hcount]
        by_cases hdir : dir = ⟨two, names⟩
        · simp [hdir, hstop]
        · simp [hdir, Ne.symm hdir]
      have hrest := ih (cmd ++ [.directory ⟨two, names⟩]) (⟨two, names⟩ :: parents) hcount' ?_ (.inr mem_cons_self)
      · refine ⟨hrest.1, by simpa using hrest.2.1, fun dir => ?_⟩
        rw [hrest.2.2, mem_cons, above_cons_iff]
        tauto
      · intro dir hdir hother hbelow dir' habove
        have hdir := (mem_cons.mp hdir).resolve_left hother
        refine mem_cons_of_mem _ (hclosed dir hdir ?_ (fun hdown => hbelow (hup.trans hdown)) dir' habove)
        rintro rfl
        exact hbelow hup

theorem above_pattern (isdir : AbsPath → Bool) (sf dir : AbsPath) :
    dir.Above ⟨sf.twoSlashes, (pattern isdir sf).names⟩ ↔ dir.Above sf ∨ isdir sf = true ∧ dir = sf := by
  rw [pattern]
  split_ifs with hdir
  · simp [above_cons_iff, hdir, or_comm]
  · simp [hdir]

theorem includes_spec (isdir : AbsPath → Bool) (sfs : List AbsPath) (hsfs : ∀ sf ∈ sfs, sf.names ≠ []) :
    (∀ dir, (includes isdir sfs).count (.directory dir) =
      if dir ∈ (sfs.foldl (addSource isdir) ([], [])).2 then 1 else 0) ∧
    (∀ p, .path p ∈ includes isdir sfs ↔ ∃ sf ∈ sfs, p = pattern isdir sf) ∧
    ∀ dir, dir ∈ (sfs.foldl (addSource isdir) ([], [])).2 ↔ ∃ sf ∈ sfs, dir.Above sf ∨ isdir sf = true ∧ dir = sf := by
  induction sfs using reverseRecOn with
  | nil => simp [includes]
  | append_singleton sfs sf ih =>
    obtain ⟨hcount, hpaths, hdirs⟩ := ih fun sf hsf => hsfs sf (mem_append_left _ hsf)
    rw [includes] at hcount hpaths ⊢
    rw [foldl_append]
    generalize sfs.foldl (addSource isdir) ([], []) = st at *
    have hnames : (pattern isdir sf).names ≠ [] := by
      rw [pattern]
      split_ifs
      · exact cons_ne_nil _ _
      · exact hsfs sf (by simp)
    have hwalk := addParents_spec sf.twoSlashes (pattern isdir sf).names (st.1 ++ [.path (pattern isdir sf)]) st.2
      (by simpa using hcount) ?_ (.inl hnames)
    · obtain ⟨hcount', hpaths', hdirs'⟩ := hwalk
      refine ⟨hcount', fun p => (hpaths' p).trans ?_, fun dir => (hdirs' dir).trans ?_⟩
      · simp [hpaths, or_and_right, exists_or]
      · simp [hdirs, above_pattern, or_and_right, exists_or]
    · intro dir hdir _ _ dir' habove
      obtain ⟨sf', hsf', hsource⟩ := (hdirs dir).mp hdir
      refine (hdirs dir').mpr ⟨sf', hsf', .inl ?_⟩
      rcases hsource with hsource | ⟨-, rfl⟩
      · exact habove.trans hsource
      · exact habove

/-- Each source has its rule, each directory above one exactly one rule, and no other directory
has a rule but a source itself. -/
theorem rules_exact (isdir : AbsPath → Bool) (sfs : List AbsPath) (hsfs : ∀ sf ∈ sfs, sf.names ≠ []) :
    (∀ p, .path p ∈ includes isdir sfs ↔ ∃ sf ∈ sfs, p = pattern isdir sf) ∧
      ∀ dir, ((includes isdir sfs).count (.directory dir) ≤ 1) ∧
        (.directory dir ∈ includes isdir sfs ↔ ∃ sf ∈ sfs, dir.Above sf ∨ isdir sf = true ∧ dir = sf) := by
  obtain ⟨hcount, hpaths, hdirs⟩ := includes_spec isdir sfs hsfs
  refine ⟨hpaths, fun dir => ⟨?_, ?_⟩⟩
  · rw [hcount]
    split_ifs <;> decide
  · rw [← hdirs, ← count_pos_iff, hcount]
    split_ifs with hdir <;> simp [hdir]

theorem rules_exact_two : .directory ⟨false, []⟩ ∈ includes (fun _ => false) [⟨false, [['b'], ['a']]⟩, ⟨false, [['c']]⟩] :=
  (((rules_exact _ _ (by decide)).2 ⟨false, []⟩).2).mpr ⟨⟨false, [['c']]⟩, by simp, .inl (by simp [AbsPath.Above])⟩

end Mosbench.Mparts
