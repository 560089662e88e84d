import Mosbench.Lib.PosixPath

/-!
The check of the paths that a remote host may write (server.py). A path is accepted when its
normal form starts with the text of the root directory. The text of a directory is also the
start of the names next to it.
-/
namespace Mosbench.Mparts

open List PosixPath

/-- A turn of the loop of os.path.normpath; the names so far, the last one first. -/
def normStep (absolute : Bool) (comps : List Path) (comp : Path) : List Path :=
  if comp = [] ∨ comp = ['.'] then comps
  else if comp ≠ ['.', '.'] ∨ (absolute = false ∧ comps = []) ∨ comps.head? = some ['.', '.'] then comp :: comps
  else comps.tail

/-- How many slashes the normal form starts with: two are kept, three or more are one. -/
def initialSlashes (path : Path) : ℕ :=
  if path.head? ≠ some '/' then 0
  else if ['/', '/'] <+: path ∧ ¬['/', '/', '/'] <+: path then 2 else 1

def normpath (path : Path) : Path :=
  let comps := (path.splitOn '/').foldl (normStep (initialSlashes path ≠ 0)) []
  let norm := replicate (initialSlashes path) '/' ++ ['/'].intercalate comps.reverse
  if norm = [] then ['.'] else norm

def safePath (rootDir p : Path) : Option Path := if rootDir <+: normpath p then some p else none

/-- The file that is opened for writing, by `writeFile` and, where `~` is expanded, by
`__toOutFile`. -/
def openedFile (expanduser : Path → Path) (rootDir desc : Path) (noCheck : Bool) : Option Path :=
  if noCheck then some (expanduser desc) else safePath rootDir (expanduser desc)

theorem exists_last (hslash : '/' ∈ path) (hend : path.getLast? ≠ some '/') :
    ∃ front last, path = front ++ '/' :: last ∧ IsName last := by
  obtain ⟨as, bs, hsplit, has⟩ := eq_append_cons_of_mem (mem_reverse.mpr hslash)
  have hpath : path = bs.reverse ++ '/' :: as.reverse := by
    rw [← reverse_reverse path, hsplit]
    simp
  refine ⟨bs.reverse, as.reverse, hpath, ?_, by simpa using has⟩
  intro hnil
  rw [hpath, hnil] at hend
  simp at hend

theorem contains_append_name (hlast : IsName last) :
    Contains (front ++ '/' :: last) (front ++ '/' :: (last ++ rest)) ↔ rest = [] ∨ rest.head? = some '/' := by
  rw [Contains, components_append_slash, components_append_slash, prefix_append_right_inj, hlast.components_eq]
  have hword : ∀ word : Path, '/' ∉ word → components (last ++ word) = [last ++ word] := fun word hword =>
    IsName.components_eq ⟨by simp [hlast.1], by simp [hlast.2, hword]⟩
  by_cases hslash : '/' ∈ rest
  · obtain ⟨word, tail, rfl, hnot⟩ := eq_append_cons_of_mem hslash
    rw [← append_assoc, components_append_slash, hword word hnot, singleton_append, cons_prefix_cons]
    cases word with
    | nil => simp
    | cons c word => simp [ne_of_not_mem_cons hnot |>.symm]
  · rw [hword rest hslash, cons_prefix_cons]
    cases rest with
    | nil => simp
    | cons c rest => simp [ne_of_not_mem_cons hslash |>.symm]

/-- What the names of a normal form of an absolute path are. -/
def Plain (comp : Path) : Prop := IsName comp ∧ comp ≠ ['.'] ∧ comp ≠ ['.', '.']

theorem notMem_of_mem_splitOn (path : Path) : ∀ comp ∈ path.splitOn '/', '/' ∉ comp := by
  by_cases hslash : '/' ∈ path
  · obtain ⟨as, bs, rfl, has⟩ := eq_append_cons_of_mem hslash
    rw [splitOn_append_cons_self_of_not_mem has]
    exact forall_mem_cons.mpr ⟨has, notMem_of_mem_splitOn bs⟩
  · rw [splitOn_eq_singleton hslash]
    exact forall_mem_singleton.mpr hslash
termination_by path.length
decreasing_by simp [*]; omega

theorem plain_foldl_normStep (pieces comps : List Path) (hpieces : ∀ comp ∈ pieces, '/' ∉ comp)
    (h : ∀ comp ∈ comps, Plain comp) : ∀ comp ∈ pieces.foldl (normStep true) comps, Plain comp := by
  induction pieces generalizing comps with
  | nil => exact h
  | cons piece pieces ih =>
    obtain ⟨hpiece, hpieces⟩ := forall_mem_cons.mp hpieces
    refine ih _ hpieces ?_
    rw [normStep]
    split_ifs with hskip hpush
    · exact h
    · refine forall_mem_cons.mpr ⟨⟨⟨fun hnil => hskip (.inl hnil), hpiece⟩, fun hdot => hskip (.inr hdot), ?_⟩, h⟩
      rcases hpush with hne | ⟨hfalse, -⟩ | hhead
      · exact hne
      · exact absurd hfalse (by decide)
      · exact absurd rfl (h _ (mem_of_mem_head? hhead)).2.2
    · exact fun comp hcomp => h comp (mem_of_mem_tail hcomp)

theorem foldl_normStep_of_plain (pieces comps : List Path) (h : ∀ comp ∈ pieces, Plain comp) :
    pieces.foldl (normStep true) comps = pieces.reverse ++ comps := by
  induction pieces generalizing comps with
  | nil => rfl
  | cons piece pieces ih =>
    obtain ⟨⟨hname, hdot, hdots⟩, h⟩ := forall_mem_cons.mp h
    have hstep : normStep true comps piece = piece :: comps := by simp [normStep, hname.1, hdot, hdots]
    rw [foldl_cons, hstep, ih _ h, reverse_cons, append_assoc, singleton_append]

theorem normpath_of_plain (hk : k = 1 ∨ k = 2) (hne : names ≠ []) (h : ∀ comp ∈ names, Plain comp) :
    normpath (replicate k '/' ++ ['/'].intercalate names) = replicate k '/' ++ ['/'].intercalate names := by
  have hsplit : (['/'].intercalate names).splitOn '/' = names :=
    splitOn_intercalate '/' (fun comp hcomp => (h comp hcomp).1.2) hne
  obtain ⟨c, text, htext, hc⟩ : ∃ c text, ['/'].intercalate names = c :: text ∧ c ≠ '/' := by
    obtain ⟨name, rest, rfl⟩ := exists_cons_of_ne_nil hne
    obtain ⟨⟨hnil, hslash⟩, -⟩ := h name mem_cons_self
    obtain ⟨c, name, rfl⟩ := exists_cons_of_ne_nil hnil
    refine ⟨c, ?_, ?_, fun hc => hslash (hc ▸ mem_cons_self)⟩
    · exact (['/'].intercalate ((c :: name) :: rest)).tail
    · cases rest <;> rfl
  have hslashes : initialSlashes (replicate k '/' ++ ['/'].intercalate names) = k := by
    rcases hk with rfl | rfl <;> simp [initialSlashes, htext, Ne.symm hc, replicate]
  have hcomps : ((replicate k '/' ++ ['/'].intercalate names).splitOn '/').foldl (normStep true) [] = names.reverse := by
    have hrest : ∀ path : Path, ('/' :: path).splitOn '/' = [] :: path.splitOn '/' := fun path =>
      splitOn_append_cons_self [] path
    have hskip : normStep true [] [] = [] := by simp [normStep]
    rcases hk with rfl | rfl <;>
      simp [replicate, hrest, hsplit, hskip, foldl_normStep_of_plain names [] h]
  have hpos : (decide (k ≠ 0)) = true := by rcases hk with rfl | rfl <;> rfl
  rw [normpath]
  simp only [hslashes, hpos, hcomps, reverse_reverse]
  rw [if_neg (by rcases hk with rfl | rfl <;> simp [replicate])]

/-- The root in normal form, if it does not end with a slash, and the name that goes on after it. -/
theorem normpath_append (habs : rootDir.head? = some '/') (hnorm : normpath rootDir = rootDir)
    (hend : rootDir.getLast? ≠ some '/') : normpath (rootDir ++ ['x']) = rootDir ++ ['x'] := by
  obtain ⟨k, hk, hslashes⟩ : ∃ k, (k = 1 ∨ k = 2) ∧ initialSlashes rootDir = k := by
    refine ⟨_, ?_, rfl⟩
    rw [initialSlashes, if_neg (not_not.mpr habs)]
    split_ifs <;> simp
  have hplain := plain_foldl_normStep (rootDir.splitOn '/') [] (notMem_of_mem_splitOn rootDir) (by simp)
  have hpos : (decide (k ≠ 0)) = true := by rcases hk with rfl | rfl <;> rfl
  rw [normpath] at hnorm
  simp only [hslashes, hpos] at hnorm
  rw [if_neg (by rcases hk with rfl | rfl <;> simp [replicate])] at hnorm
  cases hcomps : (rootDir.splitOn '/').foldl (normStep true) [] with
  | nil =>
    rw [hcomps] at hnorm
    refine absurd ?_ hend
    rcases hk with rfl | rfl <;> simp [← hnorm, replicate]
  | cons comp comps =>
    rw [hcomps] at hnorm hplain
    obtain ⟨hcomp, hplain⟩ := forall_mem_cons.mp hplain
    have hlonger : ['/'].intercalate (comps.reverse ++ [comp ++ ['x']]) =
        ['/'].intercalate (comps.reverse ++ [comp]) ++ ['x'] := by
      induction comps.reverse with
      | nil => simp
      | cons a l ih => cases l <;> simp_all
    have hnew : Plain (comp ++ ['x']) := by
      refine ⟨⟨by simp, by simp [hcomp.1.2]⟩, ?_, ?_⟩ <;> intro heq <;> have hlast := congrArg getLast? heq <;> simp at hlast
    rw [← hnorm, reverse_cons, append_assoc, ← hlonger]
    refine normpath_of_plain hk (by simp) fun c hc => ?_
    rcases mem_append.mp hc with hc | hc
    · exact hplain c (mem_reverse.mp hc)
    · exact mem_singleton.mp hc ▸ hnew

/-- All paths that are accepted are in the root if and only if its text ends with a slash. -/
theorem accepted_contained_iff (expanduser : Path → Path)
    (hexpand : ∀ path : Path, path.head? = some '/' → expanduser path = path) (rootDir : Path)
    (habs : rootDir.head? = some '/') (hnorm : normpath rootDir = rootDir) :
    (∀ desc path, openedFile expanduser rootDir desc false = some path → Contains rootDir (normpath path)) ↔
      rootDir.getLast? = some '/' := by
  constructor
  · intro hall
    by_contra hend
    have hnext := normpath_append habs hnorm hend
    have hopen : openedFile expanduser rootDir (rootDir ++ ['x']) false = some (rootDir ++ ['x']) := by
      have hhead : (rootDir ++ ['x']).head? = some '/' := by rw [head?_append, habs]; rfl
      rw [openedFile, if_neg Bool.false_ne_true, hexpand _ hhead, safePath, hnext, if_pos (prefix_append ..)]
    have hcontains := hall _ _ hopen
    obtain ⟨front, last, rfl, hlast⟩ := exists_last (mem_of_mem_head? habs) hend
    rw [hnext, append_assoc, cons_append, contains_append_name hlast] at hcontains
    simp at hcontains
  · intro hend desc path hopen
    rw [openedFile, if_neg Bool.false_ne_true, safePath, Option.ite_none_right_eq_some] at hopen
    obtain ⟨⟨rest, hrest⟩, hpath⟩ := hopen
    obtain ⟨front, rfl⟩ := getLast?_eq_some_iff.mp hend
    rw [← Option.some.inj hpath, ← hrest, append_assoc, singleton_append, Contains, components_append_slash,
      components_append_slash]
    exact (prefix_append_right_inj _).mpr nil_prefix

theorem accepted_contained_iff_slash :
    (∀ desc path, openedFile id "/".toList desc false = some path → Contains "/".toList (normpath path)) ∧
      ¬∀ desc path, openedFile id "/r".toList desc false = some path → Contains "/r".toList (normpath path) :=
  ⟨(accepted_contained_iff id (fun _ _ => rfl) "/".toList rfl (by decide)).mpr rfl, fun hall =>
    absurd ((accepted_contained_iff id (fun _ _ => rfl) "/r".toList rfl (by decide)).mp hall) (by decide)⟩

/-- The directory next to the root that its name is the start of. -/
theorem sibling_accepted : openedFile id "/r".toList "/r/../root".toList false = some "/r/../root".toList ∧
    ¬Contains "/r".toList (normpath "/r/../root".toList) := by
  decide

end Mosbench.Mparts
