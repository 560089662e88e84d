import Mosbench.Lib.Branching
import Mosbench.Parex.Explorer

/-!
The explorer executes every maximal schedule once, in the order of a depth-first search.
-/
namespace Mosbench.Parex

open List Function

variable {n : ℕ} {U : Type} {procs : Procs n U} {maxSwitches : ℤ}

theorem Runs.det (h : Runs procs maxSwitches p σ σ₁)
    (h' : Runs procs maxSwitches p σ σ₂) : σ₁ = σ₂ := by
  induction h with
  | yields hyields =>
    cases h' with
    | yields _ => rfl
    | stays hstays _ => exact absurd hstays hyields
  | stays hstays _ ih =>
    cases h' with
    | yields hyields => exact absurd hstays hyields
    | stays _ hruns => exact ih hruns

theorem Step.det (h : Step procs maxSwitches σ p σ₁)
    (h' : Step procs maxSwitches σ p σ₂) : σ₁ = σ₂ := h.2.det h'.2

theorem Schedule.snoc
    (h : Schedule procs maxSwitches σ ps σ') (hstep : Step procs maxSwitches σ' p σ'') :
    Schedule procs maxSwitches σ (ps ++ [p]) σ'' := by
  induction h with
  | nil σ => exact .cons hstep (.nil _)
  | cons hfirst _ ih => exact .cons hfirst (ih hstep)

def choices (σ : Point n U) : List (Fin n) := (finRange n).filter fun i => σ.state i = .runnable

theorem mem_choices : p ∈ choices σ ↔ σ.state p = .runnable := by
  simp [choices]

theorem choices_eq_nil : choices σ = [] ↔ ∀ i, σ.state i ≠ .runnable := by
  rw [eq_nil_iff_forall_not_mem]
  exact forall_congr' fun i => not_congr mem_choices

variable (procs maxSwitches) in
open Classical in
noncomputable def next (σ : Point n U) (p : Fin n) : Point n U :=
  if h : ∃ σ', Step procs maxSwitches σ p σ' then h.choose else σ

theorem next_eq (h : Step procs maxSwitches σ p σ') : next procs maxSwitches σ p = σ' := by
  have hex : ∃ σ', Step procs maxSwitches σ p σ' := ⟨σ', h⟩
  rw [next, dif_pos hex]
  exact hex.choose_spec.det h

abbrev At (procs : Procs n U) (maxSwitches : ℤ) (pre : List (Fin n)) (σ : Point n U) : Prop :=
  Schedule procs maxSwitches (.procReset procs) pre σ

namespace Finite

variable (fin : Finite procs maxSwitches)

include fin

theorem step_next (hat : At procs maxSwitches pre σ)
    (hp : p ∈ choices σ) : Step procs maxSwitches σ p (next procs maxSwitches σ p) := by
  obtain ⟨σ', hstep⟩ := fin.ends pre σ p hat (mem_choices.mp hp)
  rwa [next_eq hstep]

theorem at_next (hat : At procs maxSwitches pre σ)
    (hp : p ∈ choices σ) : At procs maxSwitches (pre ++ [p]) (next procs maxSwitches σ p) :=
  hat.snoc (fin.step_next hat hp)

theorem schedule_iff (hat : At procs maxSwitches pre σ) : Schedule procs maxSwitches σ ps σ' ↔
      Branching.Follows choices (next procs maxSwitches) σ ps ∧ ps.foldl (next procs maxSwitches) σ = σ' := by
  induction ps generalizing pre σ with
  | nil =>
    constructor
    · intro h
      cases h
      exact ⟨trivial, rfl⟩
    · rintro ⟨-, rfl⟩
      exact .nil _
  | cons p ps ih =>
    constructor
    · intro h
      cases h with
      | cons hstep hrest =>
        have hp : p ∈ choices σ := mem_choices.mpr hstep.1
        obtain rfl := next_eq hstep
        obtain ⟨hfollows, hlast⟩ := (ih (fin.at_next hat hp)).mp hrest
        exact ⟨⟨hp, hfollows⟩, hlast⟩
    · rintro ⟨⟨hp, hfollows⟩, hlast⟩
      exact .cons (fin.step_next hat hp) ((ih (fin.at_next hat hp)).mpr ⟨hfollows, hlast⟩)

theorem maximalSchedule_iff : MaximalSchedule procs maxSwitches ps ↔
      Branching.Maximal choices (next procs maxSwitches) (.procReset procs) ps := by
  have hat : At procs maxSwitches [] (.procReset procs) := .nil _
  rw [Branching.Maximal, choices_eq_nil]
  constructor
  · rintro ⟨σ, hschedule, hnone⟩
    obtain ⟨hfollows, rfl⟩ := (fin.schedule_iff hat).mp hschedule
    exact ⟨hfollows, hnone⟩
  · rintro ⟨hfollows, hnone⟩
    exact ⟨_, (fin.schedule_iff hat).mpr ⟨hfollows, rfl⟩, hnone⟩

end Finite

theorem Reaches.head (c' : Config n U) (h : step procs maxSwitches c = .ok c')
    (h' : Reaches procs maxSwitches c' c'') : Reaches procs maxSwitches c c'' :=
  Relation.ReflTransGen.head h h'

theorem Reaches.trans (h : Reaches procs maxSwitches c c')
    (h' : Reaches procs maxSwitches c' c'') : Reaches procs maxSwitches c c'' :=
  Relation.ReflTransGen.trans h h'

theorem Runs.reaches (h : Runs procs maxSwitches p σ σ') (c : Config n U)
    (hcontrol : c.control = .running i p) (hpoint : c.point = σ) :
    Reaches procs maxSwitches c { c with control := .procYield (i + 1), point := σ' } := by
  induction h generalizing c with
  | yields hyields =>
    refine .head _ ?_ .refl
    simp only [step, hcontrol, hpoint, if_neg hyields]
  | @stays σ σ' hstays _ ih =>
    refine .head { c with point := σ.run procs p } ?_ (ih _ hcontrol rfl)
    simp only [step, hcontrol, hpoint, if_pos hstays]

theorem Schedule.reaches (h : Schedule procs maxSwitches σ ps σ')
    (c : Config n U) (hcontrol : c.control = .procYield i) (hpoint : c.point = σ)
    (hlen : c.pathLength = i + ps.length) (hpath : ∀ k (hk : k < ps.length), c.path (i + k) = some ps[k]) :
    Reaches procs maxSwitches c { c with control := .call, point := σ', current := c.current ++ ps } := by
  induction h generalizing c i with
  | nil σ =>
    refine .head _ ?_ .refl
    have hend : ¬ i < c.pathLength := by simp [hlen]
    simp only [step, hcontrol, if_neg hend, hpoint, append_nil]
  | @cons σ σ₁ σ' p ps hstep _ ih =>
    have hlt : i < c.pathLength := by
      rw [hlen, length_cons]
      omega
    have hp : c.path i = some p := hpath 0 (Nat.succ_pos _)
    have hrun : σ.state p = .runnable := hstep.1
    have hlen' : c.pathLength = i + 1 + ps.length := by
      rw [hlen, length_cons]
      omega
    have hpath' : ∀ k (hk : k < ps.length), c.path (i + 1 + k) = some ps[k] := by
      intro k hk
      have h := hpath (k + 1) (Nat.succ_lt_succ hk)
      rwa [show i + (k + 1) = i + 1 + k by omega] at h
    refine .head { c with control := .running i p, point := σ.select p, current := c.current ++ [p] } ?_ ?_
    · simp only [step, hcontrol, if_pos hlt, hp, hpoint, if_pos hrun]
    · refine (hstep.2.reaches _ rfl rfl).trans ?_
      have hrest := ih { c with control := .procYield (i + 1), point := σ₁, current := c.current ++ [p] } rfl rfl
        hlen' hpath'
      rw [append_assoc, singleton_append] at hrest
      exact hrest

structure OnPath (c : Config n U) (pre : List (Fin n)) : Prop where
  initPath : ∀ k, c.initPath k = 0
  path : ∀ k (hk : k < pre.length), c.path k = some pre[k]

/-- procSearchRec is called at the point `σ`, which the last steps have reached. -/
structure Entering (c : Config n U) (stack : List (Frame n)) (pre : List (Fin n)) (σ : Point n U)
    (E : List (List (Fin n))) : Prop extends OnPath c pre where
  control : c.control = .call
  frames : c.stack = stack
  depth : stack.length = pre.length
  backtracked : c.backtracked = false
  point : c.point = σ
  past : c.past = E
  current : c.current = pre

structure Returned (c : Config n U) (stack : List (Frame n)) (pre : List (Fin n))
    (E : List (List (Fin n))) : Prop extends OnPath c pre where
  control : c.control = .ret
  frames : c.stack = stack
  executed : c.executed = E

/-- The head of its loop. Before the first branch the point is still `σ`; after a branch the
flag is set and the snapshot is all that is left of `σ`. -/
structure Looping (c : Config n U) (f : Frame n) (stack : List (Frame n)) (pre : List (Fin n))
    (σ : Point n U) (E : List (List (Fin n))) : Prop extends OnPath c pre where
  control : c.control = .loop
  frames : c.stack = f :: stack
  depth : stack.length = pre.length
  states : f.states = σ.world.states
  anyRunnable : f.anyRunnable = c.backtracked
  ready : (c.backtracked = true ∧ c.executed = E) ∨
    (c.backtracked = false ∧ c.past = E ∧ c.current = pre ∧ c.point = σ)

theorem OnPath.of_snoc (h : OnPath c (pre ++ [p])) : OnPath c pre where
  initPath := h.initPath
  path k hk := by
    have hk' : k < (pre ++ [p]).length := by
      rw [length_append]
      omega
    rw [h.path k hk', getElem_append_left hk]

variable {E : List (List (Fin n))}

theorem Looping.entering (fin : Finite procs maxSwitches) (h : Looping c f stack pre σ E)
    (hat : At procs maxSwitches pre σ) (hi : f.i < n) (hp : (⟨f.i, hi⟩ : Fin n) ∈ choices σ) :
    ∃ c', Reaches procs maxSwitches c c' ∧ Entering c' ({ f with anyRunnable := true } :: stack)
      (pre ++ [⟨f.i, hi⟩]) (next procs maxSwitches σ ⟨f.i, hi⟩) E := by
  have hrunnable : f.states ⟨f.i, hi⟩ = .runnable := by
    rw [h.states]
    exact mem_choices.mp hp
  generalize hpid : (⟨f.i, hi⟩ : Fin n) = p at hp hrunnable ⊢
  -- the search writes the process to the path and yields
  let c₁ : Config n U :=
    { c with
      control := .schedule
      stack := { f with anyRunnable := true } :: stack
      path := update c.path stack.length (some p)
      pathLength := stack.length + 1 }
  have hyield : step procs maxSwitches c = .ok c₁ := by
    simp only [step, h.control, h.frames, dif_pos hi, hpid, if_pos hrunnable, c₁]
  have hpath : ∀ k (hk : k < (pre ++ [p]).length), c₁.path k = some (pre ++ [p])[k] := by
    intro k hk
    rw [length_append, length_singleton] at hk
    rcases Nat.lt_or_ge k pre.length with hlt | hge
    · rw [getElem_append_left hlt, ← h.path k hlt]
      exact update_of_ne (by rw [h.depth]; omega) _ _
    · obtain rfl : k = pre.length := by omega
      rw [getElem_concat_length rfl, ← h.depth]
      exact update_self stack.length _ c.path
  have hdepth : ({ f with anyRunnable := true } :: stack).length = (pre ++ [p]).length := by
    rw [length_cons, length_append, length_singleton, h.depth]
  rcases h.ready with ⟨hback, hexec⟩ | ⟨hback, hpast, hcur, hpoint⟩
  · -- a branch was finished: everything is replayed
    let c₂ : Config n U :=
      { c₁ with
        control := .procYield 0
        backtracked := false
        point := .procReset procs
        past := c₁.executed
        current := [] }
    have hreset : step procs maxSwitches c₁ = .ok c₂ := by
      simp only [step, c₁, c₂, if_neg (Nat.succ_ne_zero _), hback, if_true]
    have hreplay := (fin.at_next hat hp).reaches c₂ rfl rfl
      (by rw [← hdepth, Nat.zero_add]; rfl) fun k hk => by rw [Nat.zero_add]; exact hpath k hk
    exact ⟨_, .head c₁ hyield (.head c₂ hreset hreplay), ⟨h.initPath, hpath⟩, rfl, rfl, hdepth, rfl, rfl,
      hexec, nil_append _⟩
  · -- the point is the one of the snapshot
    let c₂ : Config n U := { c₁ with control := .procYield stack.length }
    have hforward : step procs maxSwitches c₁ = .ok c₂ := by
      simp only [step, c₁, c₂, if_neg (Nat.succ_ne_zero _), hback, Bool.false_eq_true, if_false, Nat.add_sub_cancel]
    have hstep : Schedule procs maxSwitches σ [p] (next procs maxSwitches σ p) :=
      .cons (fin.step_next hat hp) (.nil _)
    have hone := hstep.reaches c₂ rfl hpoint rfl fun k hk => by
      obtain rfl : k = 0 := by simpa using hk
      exact update_self stack.length _ c.path
    refine ⟨_, .head c₁ hyield (.head c₂ hforward hone), ⟨h.initPath, hpath⟩, rfl, rfl, hdepth, hback, rfl,
      hpast, ?_⟩
    change c.current ++ [p] = pre ++ [p]
    rw [hcur]

/-- What comes of the schedules `L` from `σ`: all are executed and end with all processes done, or
the first of them that ends in a deadlock is the last one executed. -/
def Outcome (procs : Procs n U) (maxSwitches : ℤ) (c : Config n U) (stack : List (Frame n)) (pre : List (Fin n))
    (σ : Point n U) (E L : List (List (Fin n))) : Prop :=
  (∃ c', Reaches procs maxSwitches c c' ∧ Returned c' stack pre (E ++ L.map (pre ++ ·)) ∧
    ∀ ps ∈ L, (ps.foldl (next procs maxSwitches) σ).AllDone) ∨
  ∃ c' a ps b, Reaches procs maxSwitches c c' ∧ step procs maxSwitches c' = .error .deadlock ∧
    L = a ++ ps :: b ∧ (∀ qs ∈ a, (qs.foldl (next procs maxSwitches) σ).AllDone) ∧
    (ps.foldl (next procs maxSwitches) σ).Deadlocked ∧ c'.executed = E ++ (a ++ [ps]).map (pre ++ ·)

namespace Outcome

variable {E L L' : List (List (Fin n))}

theorem of_reaches (h : Reaches procs maxSwitches c c') (ho : Outcome procs maxSwitches c' stack pre σ E L) :
    Outcome procs maxSwitches c stack pre σ E L := by
  rcases ho with ⟨d, hd, hrest⟩ | ⟨d, a, ps, b, hd, hrest⟩
  · exact .inl ⟨d, h.trans hd, hrest⟩
  · exact .inr ⟨d, a, ps, b, h.trans hd, hrest⟩

theorem append (hdone : ∀ ps ∈ L, (ps.foldl (next procs maxSwitches) σ).AllDone)
    (ho : Outcome procs maxSwitches c stack pre σ (E ++ L.map (pre ++ ·)) L') :
    Outcome procs maxSwitches c stack pre σ E (L ++ L') := by
  rcases ho with ⟨d, hd, hret, hdone'⟩ | ⟨d, a, ps, b, hd, hstep, rfl, hdone', hdead, hexec⟩
  · refine .inl ⟨d, hd, ?_, fun ps hps => (mem_append.mp hps).elim (hdone ps) (hdone' ps)⟩
    rwa [map_append, ← append_assoc]
  · refine .inr ⟨d, L ++ a, ps, b, hd, hstep, by rw [append_assoc],
      fun qs hqs => (mem_append.mp hqs).elim (hdone qs) (hdone' qs), hdead, ?_⟩
    rw [hexec, append_assoc L, append_assoc E, ← map_append]

theorem of_deadlock (h : ∃ c' a ps b, Reaches procs maxSwitches c c' ∧ step procs maxSwitches c' = .error .deadlock ∧
      L = a ++ ps :: b ∧ (∀ qs ∈ a, (qs.foldl (next procs maxSwitches) σ).AllDone) ∧
      (ps.foldl (next procs maxSwitches) σ).Deadlocked ∧ c'.executed = E ++ (a ++ [ps]).map (pre ++ ·)) :
    Outcome procs maxSwitches c stack pre σ E (L ++ L') := by
  obtain ⟨d, a, ps, b, hd, hstep, rfl, hdone, hdead, hexec⟩ := h
  exact .inr ⟨d, a, ps, b ++ L', hd, hstep, by rw [append_assoc, cons_append], hdone, hdead, hexec⟩

end Outcome

theorem map_snoc_append (pre : List (Fin n)) (p : Fin n) (L : List (List (Fin n))) :
    L.map ((pre ++ [p]) ++ ·) = (L.map (p :: ·)).map (pre ++ ·) := by
  rw [map_map]
  refine map_congr_left fun ps _ => ?_
  simp

def choicesFrom (σ : Point n U) (i : ℕ) : List (Fin n) :=
  ((finRange n).drop i).filter fun i => σ.state i = .runnable

theorem choicesFrom_of_lt (σ : Point n U) (hi : i < n) :
    choicesFrom σ i = if σ.state ⟨i, hi⟩ = .runnable then ⟨i, hi⟩ :: choicesFrom σ (i + 1)
      else choicesFrom σ (i + 1) := by
  have hcons : (finRange n).drop i = ⟨i, hi⟩ :: (finRange n).drop (i + 1) := by
    rw [drop_eq_getElem_cons (by simpa using hi), getElem_finRange]
    rfl
  rw [choicesFrom, hcons, filter_cons, choicesFrom]
  simp only [decide_eq_true_eq]

theorem choicesFrom_of_le (σ : Point n U) (hi : n ≤ i) : choicesFrom σ i = [] := by
  rw [choicesFrom, drop_eq_nil_of_le (by simpa using hi), filter_nil]

variable (procs maxSwitches) in
theorem Looping.skip (h : Looping c f stack pre σ E) (hi : f.i < n)
    (hstopped : σ.state ⟨f.i, hi⟩ ≠ .runnable) :
    ∃ c', step procs maxSwitches c = .ok c' ∧ Looping c' { f with i := f.i + 1 } stack pre σ E ∧
      c'.backtracked = c.backtracked ∧ c'.executed = c.executed := by
  have hstopped' : f.states ⟨f.i, hi⟩ ≠ .runnable := by
    rw [h.states]
    exact hstopped
  refine ⟨{ c with stack := { f with i := f.i + 1 } :: stack }, ?_, ?_, rfl, rfl⟩
  · simp only [step, h.control, h.frames, dif_pos hi, if_neg hstopped']
  · exact ⟨⟨h.initPath, h.path⟩, h.control, rfl, h.depth, h.states, h.anyRunnable, h.ready⟩

variable (procs maxSwitches) in
theorem Looping.deadlock (m : ℕ) (h : Looping c f stack pre σ E) (hm : n - f.i = m)
    (hback : c.backtracked = false) (hnone : ∀ i, σ.state i ≠ .runnable) :
    ∃ c', Reaches procs maxSwitches c c' ∧ step procs maxSwitches c' = .error .deadlock ∧
      c'.executed = c.executed := by
  induction m generalizing c f with
  | zero =>
    refine ⟨c, .refl, ?_, rfl⟩
    have hi : ¬ f.i < n := by omega
    simp only [step, h.control, h.frames, dif_neg hi, h.anyRunnable, hback, Bool.false_eq_true, if_false]
  | succ m ih =>
    have hi : f.i < n := by omega
    obtain ⟨c₁, hstep, hloop, hback₁, hexec₁⟩ := h.skip procs maxSwitches hi (hnone _)
    obtain ⟨c', hreach, hdead, hexec⟩ := ih hloop (by change n - (f.i + 1) = m; omega) (hback₁.trans hback)
    exact ⟨c', .head c₁ hstep hreach, hdead, hexec.trans hexec₁⟩

noncomputable def leavesBelow (procs : Procs n U) (maxSwitches : ℤ) (k : ℕ) (σ : Point n U) (ps : List (Fin n)) :
    List (List (Fin n)) :=
  ps.flatMap fun p =>
    (Branching.leaves choices (next procs maxSwitches) k (next procs maxSwitches σ p)).map (p :: ·)

theorem Looping.outcome (fin : Finite procs maxSwitches) (k m : ℕ)
    (hat : At procs maxSwitches pre σ)
    (hcall : ∀ p ∈ choices σ, ∀ c stack E, Entering c stack (pre ++ [p]) (next procs maxSwitches σ p) E →
      Outcome procs maxSwitches c stack (pre ++ [p]) (next procs maxSwitches σ p) E
        (Branching.leaves choices (next procs maxSwitches) k (next procs maxSwitches σ p)))
    (h : Looping c f stack pre σ E) (hm : n - f.i = m)
    (hany : c.backtracked = true ∨ choicesFrom σ f.i ≠ []) :
    Outcome procs maxSwitches c stack pre σ E (leavesBelow procs maxSwitches k σ (choicesFrom σ f.i)) := by
  induction m generalizing c f E with
  | zero =>
    have hnil : choicesFrom σ f.i = [] := choicesFrom_of_le σ (by omega)
    have hback : c.backtracked = true := hany.resolve_right (not_not.mpr hnil)
    have hexec : c.executed = E := by
      rcases h.ready with ⟨-, hexec⟩ | ⟨hfalse, -⟩
      · exact hexec
      · exact absurd (hback.symm.trans hfalse) Bool.noConfusion
    have hi : ¬ f.i < n := by omega
    rw [hnil]
    refine .inl ⟨{ c with control := .ret, stack }, .head _ ?_ .refl, ⟨⟨h.initPath, h.path⟩, rfl, rfl, ?_⟩, ?_⟩
    · simp only [step, h.control, h.frames, dif_neg hi, h.anyRunnable, hback, if_true]
    · rw [leavesBelow, flatMap_nil, map_nil, append_nil]
      exact hexec
    · intro ps hps
      exact absurd hps not_mem_nil
  | succ m ih =>
    have hi : f.i < n := by omega
    rw [choicesFrom_of_lt σ hi] at hany ⊢
    by_cases hrun : σ.state ⟨f.i, hi⟩ = .runnable
    · rw [if_pos hrun]
      have hp := mem_choices.mpr hrun
      obtain ⟨c₁, hreach, hentering⟩ := h.entering fin hat hi hp
      refine .of_reaches hreach ?_
      rw [leavesBelow, flatMap_cons, ← leavesBelow]
      rcases hcall _ hp c₁ _ E hentering with
        ⟨c₂, hreach₂, hret, hdone⟩ | ⟨c₂, a, ps, b, hreach₂, hdead, hleaves, hdone, hlock, hexec⟩
      · -- the branch is finished; the loop goes on with the next process
        have hdone' : ∀ ps ∈ (Branching.leaves choices (next procs maxSwitches) k
            (next procs maxSwitches σ ⟨f.i, hi⟩)).map (⟨f.i, hi⟩ :: ·),
            (ps.foldl (next procs maxSwitches) σ).AllDone := by
          intro ps hps
          obtain ⟨qs, hqs, rfl⟩ := mem_map.mp hps
          exact hdone qs hqs
        refine .of_reaches hreach₂ (.append hdone' (.of_reaches (.head _ ?_ .refl)
          (ih (c := { c₂ with
              control := .loop
              stack := { f with i := f.i + 1, anyRunnable := true } :: stack
              backtracked := true })
            (f := { f with i := f.i + 1, anyRunnable := true }) ?_ (by change n - (f.i + 1) = m; omega)
            (.inl rfl))))
        · simp only [step, hret.control, hret.frames]
        · rw [← map_snoc_append]
          exact ⟨⟨hret.initPath, hret.toOnPath.of_snoc.path⟩, rfl, rfl, h.depth, h.states, rfl, .inl ⟨rfl, hret.executed⟩⟩
      · refine .of_reaches hreach₂ (.of_deadlock ⟨c₂, a.map (⟨f.i, hi⟩ :: ·), ⟨f.i, hi⟩ :: ps, b.map (⟨f.i, hi⟩ :: ·),
          .refl, hdead, by rw [hleaves, map_append, map_cons], ?_, hlock, ?_⟩)
        · intro qs hqs
          obtain ⟨qs', hqs', rfl⟩ := mem_map.mp hqs
          exact hdone qs' hqs'
        · rw [hexec, map_snoc_append, map_append, map_singleton]
    · rw [if_neg hrun] at hany ⊢
      obtain ⟨c₁, hstep, hloop, hback, -⟩ := h.skip procs maxSwitches hi hrun
      exact .of_reaches (.head c₁ hstep .refl)
        (ih hloop (by change n - (f.i + 1) = m; omega) (hback ▸ hany))

theorem Entering.outcome (fin : Finite procs maxSwitches) (k : ℕ) (hat : At procs maxSwitches pre σ)
    (hk : k + pre.length = maxDepth) (h : Entering c stack pre σ E) :
    Outcome procs maxSwitches c stack pre σ E (Branching.leaves choices (next procs maxSwitches) k σ) := by
  induction k generalizing c stack pre σ E with
  | zero =>
    have hshort := fin.short pre σ hat
    omega
  | succ k ih =>
    have hdepth : ¬ maxDepth ≤ c.stack.length := by
      rw [h.frames, h.depth]
      omega
    have hinit : ∀ d, update c.initPath c.stack.length 0 d = 0 := by
      intro d
      by_cases hd : d = c.stack.length
      · rw [hd, update_self]
      · rw [update_of_ne hd, h.initPath]
    have hexec : c.executed = E ++ [pre] := by rw [Config.executed, h.past, h.current]
    by_cases hall : σ.AllDone
    · have hnil : choices σ = [] := choices_eq_nil.mpr fun i hi => by
        rw [hall i] at hi
        exact ProcState.noConfusion hi
      rw [Branching.leaves_of_nil hnil]
      refine .inl ⟨{ c with control := .ret, initPath := update c.initPath c.stack.length 0 },
        .head _ ?_ .refl, ⟨⟨hinit, h.path⟩, rfl, h.frames, ?_⟩, ?_⟩
      · simp only [step, h.control, if_neg hdepth, h.point, if_pos hall]
      · rw [map_singleton, append_nil]
        exact hexec
      · intro ps hps
        rw [mem_singleton.mp hps]
        exact hall
    · -- the snapshot is taken and the loop entered
      let c₁ : Config n U :=
        { c with
          control := .loop
          initPath := update c.initPath c.stack.length 0
          stack := ⟨σ.world.states, 0, false⟩ :: c.stack }
      have hstep : step procs maxSwitches c = .ok c₁ := by
        simp only [step, h.control, if_neg hdepth, h.point, if_neg hall, h.initPath, c₁]
      have hloop : Looping c₁ ⟨σ.world.states, 0, false⟩ stack pre σ E :=
        ⟨⟨hinit, h.path⟩, rfl, by simp only [c₁, h.frames], h.depth, rfl, h.backtracked.symm,
          .inr ⟨h.backtracked, h.past, h.current, h.point⟩⟩
      refine .of_reaches (.head c₁ hstep .refl) ?_
      by_cases hnil : choices σ = []
      · have hnone := choices_eq_nil.mp hnil
        obtain ⟨c', hreach, hdead, hexec'⟩ := hloop.deadlock procs maxSwitches n rfl h.backtracked hnone
        rw [Branching.leaves_of_nil hnil]
        refine .inr ⟨c', [], [], [], hreach, hdead, rfl, by simp, ⟨hall, hnone⟩, ?_⟩
        rw [hexec', nil_append, map_singleton, append_nil]
        exact hexec
      · rw [Branching.leaves_of_ne_nil hnil]
        have hfirst : choicesFrom σ 0 = choices σ := by rw [choicesFrom, drop_zero, choices]
        have houtcome := hloop.outcome fin k n hat (fun p hp c' stack' E' hentering =>
          ih (fin.at_next hat hp) (by rw [length_append, length_singleton]; omega) hentering) rfl
          (.inr (by rwa [hfirst]))
        rwa [hfirst] at houtcome

def Recorded (procs : Procs n U) (maxSwitches : ℤ) (c : Config n U) : Prop :=
  match c.control with
  | .running _ p => ∃ qs σ, c.current = qs ++ [p] ∧ At procs maxSwitches qs σ ∧ σ.state p = .runnable ∧
      ∀ σ', Runs procs maxSwitches p c.point σ' → Runs procs maxSwitches p (σ.select p) σ'
  | _ => At procs maxSwitches c.current c.point

theorem Recorded.step (h : Recorded procs maxSwitches c)
    (hstep : Parex.step procs maxSwitches c = .ok c') : Recorded procs maxSwitches c' := by
  unfold Parex.step at hstep
  unfold Recorded at h
  split at hstep
  · -- call
    next hcontrol =>
    rw [hcontrol] at h
    split_ifs at hstep <;> cases hstep <;> exact h
  · -- loop
    next hcontrol =>
    rw [hcontrol] at h
    split at hstep
    · cases hstep
    · split_ifs at hstep <;> cases hstep <;> first | exact h | (unfold Recorded; rw [hcontrol]; exact h)
  · -- ret
    next hcontrol =>
    rw [hcontrol] at h
    split at hstep <;> cases hstep <;> exact h
  · -- schedule
    next hcontrol =>
    rw [hcontrol] at h
    split_ifs at hstep
    · cases hstep
      exact Schedule.nil _
    · cases hstep
      exact h
  · -- procYield
    next i hcontrol =>
    rw [hcontrol] at h
    split_ifs at hstep
    · split at hstep
      · cases hstep
      · split_ifs at hstep with hrun
        cases hstep
        exact ⟨c.current, c.point, rfl, h, hrun, fun σ' hruns => hruns⟩
    · cases hstep
      exact h
  · -- running
    next i p hcontrol =>
    rw [hcontrol] at h
    obtain ⟨qs, σ, hcur, hat, hrun, hruns⟩ := h
    dsimp only at hstep
    split_ifs at hstep with hstays
    · cases hstep
      unfold Recorded
      rw [hcontrol]
      exact ⟨qs, σ, hcur, hat, hrun, fun σ' h => hruns σ' (.stays hstays h)⟩
    · cases hstep
      change At procs maxSwitches c.current _
      rw [hcur]
      exact hat.snoc ⟨hrun, hruns _ (.yields hstays)⟩

theorem Reaches.recorded (h : Reaches procs maxSwitches (start procs) c) :
    Recorded procs maxSwitches c := by
  induction h with
  | refl => exact Schedule.nil _
  | tail _ hstep ih => exact ih.step hstep

theorem Reaches.at_current (h : Reaches procs maxSwitches (start procs) c)
    (hcontrol : ∀ i p, c.control ≠ .running i p) : At procs maxSwitches c.current c.point := by
  have hrecorded := h.recorded
  unfold Recorded at hrecorded
  split at hrecorded
  · next i p hrunning => exact absurd hrunning (hcontrol i p)
  · exact hrecorded

theorem entering_start (procs : Procs n U) : Entering (start procs) [] [] (.procReset procs) [] :=
  ⟨⟨fun _ => rfl, fun _ hk => absurd hk (Nat.not_lt_zero _)⟩, rfl, rfl, rfl, rfl, rfl, rfl, rfl⟩

theorem nodup_choices (σ : Point n U) : (choices σ).Nodup := (nodup_finRange n).filter _

theorem Finite.foldl_of_at (fin : Finite procs maxSwitches)
    (hat : At procs maxSwitches ps σ) : ps.foldl (next procs maxSwitches) (.procReset procs) = σ :=
  ((fin.schedule_iff (.nil _)).mp hat).2

theorem Finite.mem_leaves_iff (fin : Finite procs maxSwitches) :
    ps ∈ Branching.leaves choices (next procs maxSwitches) maxDepth (.procReset procs) ↔
      MaximalSchedule procs maxSwitches ps := by
  rw [Branching.mem_leaves, fin.maximalSchedule_iff, and_iff_left_iff_imp]
  intro hmax
  obtain ⟨σ, hat, -⟩ := fin.maximalSchedule_iff.mpr hmax
  exact fin.short ps σ hat

/-- While procRun runs, the processes are where the steps since the last reset lead to. It comes
to an end, and reports a deadlock exactly if some schedule reaches one. What it has executed,
each time from the reset state, are different maximal schedules, and all of them if it returns. -/
theorem explorer_exhaustive (procs : Procs n U) (maxSwitches : ℤ) (fin : Finite procs maxSwitches) :
    (∀ c, Reaches procs maxSwitches (start procs) c → (∀ i p, c.control ≠ .running i p) →
      Schedule procs maxSwitches (.procReset procs) c.current c.point) ∧
    ∃ c, Reaches procs maxSwitches (start procs) c ∧
      (step procs maxSwitches c = .error .exhausted ∨ step procs maxSwitches c = .error .deadlock) ∧
      (step procs maxSwitches c = .error .deadlock ↔
        ∃ ps σ, Schedule procs maxSwitches (.procReset procs) ps σ ∧ σ.Deadlocked) ∧
      c.executed.Nodup ∧ (∀ ps ∈ c.executed, MaximalSchedule procs maxSwitches ps) ∧
      (step procs maxSwitches c = .error .exhausted →
        ∀ ps, MaximalSchedule procs maxSwitches ps → ps ∈ c.executed) := by
  refine ⟨fun c hreach => hreach.at_current, ?_⟩
  have hnodup : (Branching.leaves choices (next procs maxSwitches) maxDepth (.procReset procs)).Nodup :=
    Branching.nodup_leaves nodup_choices _ _
  have hmap : ∀ L : List (List (Fin n)), L.map (([] : List (Fin n)) ++ ·) = L := fun L => by simp
  rcases (entering_start procs).outcome fin maxDepth (.nil _) (Nat.add_zero _) with
    ⟨c, hreach, hret, hdone⟩ | ⟨c, a, ps, b, hreach, hdead, hleaves, -, hlock, hexec⟩
  · have hexec := hret.executed
    rw [nil_append, hmap] at hexec
    let c' : Config n U := { c with control := .schedule, pathLength := 0 }
    have hlast : step procs maxSwitches c = .ok c' := by simp only [step, hret.control, hret.frames, c']
    have hhalt : step procs maxSwitches c' = .error .exhausted := by simp only [step, c', if_true]
    refine ⟨c', hreach.trans (.head c' hlast .refl), .inl hhalt, ?_, ?_, ?_, ?_⟩
    · rw [hhalt]
      refine iff_of_false (by simp) ?_
      rintro ⟨ps, σ, hat, hlock⟩
      have hps := hdone ps (fin.mem_leaves_iff.mpr ⟨σ, hat, hlock.2⟩)
      rw [fin.foldl_of_at hat] at hps
      exact hlock.1 hps
    · change c.executed.Nodup
      rwa [hexec]
    · intro ps hps
      change ps ∈ c.executed at hps
      rw [hexec] at hps
      exact fin.mem_leaves_iff.mp hps
    · intro _ ps hps
      change ps ∈ c.executed
      rw [hexec]
      exact fin.mem_leaves_iff.mpr hps
  · rw [nil_append, hmap] at hexec
    have hsplit : a ++ ps :: b = (a ++ [ps]) ++ b := by rw [append_assoc, singleton_append]
    have hmem : ∀ qs ∈ c.executed, MaximalSchedule procs maxSwitches qs := by
      intro qs hqs
      rw [hexec] at hqs
      refine fin.mem_leaves_iff.mp ?_
      rw [hleaves, hsplit]
      exact mem_append_left b hqs
    refine ⟨c, hreach, .inr hdead, iff_of_true hdead ?_, ?_, hmem, fun hfalse => ?_⟩
    · obtain ⟨σ, hat, -⟩ := hmem ps (by rw [hexec]; simp)
      rw [fin.foldl_of_at hat] at hlock
      exact ⟨ps, σ, hat, hlock⟩
    · rw [hleaves, hsplit] at hnodup
      rw [hexec]
      exact (nodup_append.mp hnodup).1
    · rw [hdead] at hfalse
      exact absurd (Except.error.inj hfalse) (by decide)

def twoProcs : Procs 2 Unit where
  resetFn := ()
  segment p w := ⟨update w.states p .done, ()⟩

theorem twoProcs_runs (h : Runs twoProcs 0 p σ σ') :
    σ' = σ.run twoProcs p := by
  cases h with
  | yields _ => rfl
  | stays hstays _ =>
    have hdone : (σ.run twoProcs p).state p = .done := update_self p _ σ.world.states
    rw [Point.Stays, hdone] at hstays
    exact absurd hstays.1 (by decide)

theorem twoProcs_schedule (h : Schedule twoProcs 0 σ ps σ') :
    ps.length ≤ (choices σ).length := by
  induction h with
  | nil σ => exact Nat.zero_le _
  | @cons σ σ₁ σ' p ps hstep _ ih =>
    have hrun := twoProcs_runs hstep.2
    have hsub : ∀ q ∈ choices σ₁, q ∈ (choices σ).erase p := by
      intro q hq
      rw [mem_choices, hrun] at hq
      have hne : q ≠ p := by
        rintro rfl
        have hdone : ((σ.select q).run twoProcs q).state q = .done := update_self q _ σ.world.states
        rw [hdone] at hq
        exact ProcState.noConfusion hq
      refine (mem_erase_of_ne hne).mpr (mem_choices.mpr ?_)
      rw [← hq]
      exact (update_of_ne hne _ σ.world.states).symm
    have hle := (subperm_of_subset (nodup_choices σ₁) hsub).length_le
    rw [length_erase_of_mem (mem_choices.mpr hstep.1)] at hle
    have hpos := length_pos_of_mem (mem_choices.mpr hstep.1)
    rw [length_cons]
    omega

theorem explorer_exhaustive_two : ∃ c, Reaches twoProcs 0 (start twoProcs) c ∧
    (step twoProcs 0 c = .error .exhausted → ∀ ps, MaximalSchedule twoProcs 0 ps → ps ∈ c.executed) := by
  have hfin : Finite twoProcs 0 := by
    refine ⟨fun ps σ p _ hp => ⟨(σ.select p).run twoProcs p, hp, .yields ?_⟩, fun ps σ hat => ?_⟩
    · have hdone : ((σ.select p).run twoProcs p).state p = .done := update_self p _ σ.world.states
      rw [Point.Stays, hdone]
      exact fun h => absurd h.1 (by decide)
    · refine Nat.lt_of_le_of_lt ((twoProcs_schedule hat).trans (length_filter_le _ _)) ?_
      rw [length_finRange]
      decide
  obtain ⟨-, c, hreach, -, -, -, -, hall⟩ := explorer_exhaustive twoProcs 0 hfin
  exact ⟨c, hreach, hall⟩

end Mosbench.Parex
