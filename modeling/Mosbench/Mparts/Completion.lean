import Mosbench.Mparts.Built

/-!
What merge returns: the terms of the left side in their order, each followed by the
assignments of every default that it does not have itself, without repetitions.
-/
namespace Mosbench.Mparts

open List ConfigSpace

variable {right right' : Term V}

theorem newAtoms_eq_nil (h : ∀ n ∈ right.names, n ∈ left.names) : newAtoms left right = [] := by
  rw [newAtoms, filter_eq_nil_iff]
  intro atom hatom
  simpa using h atom.name (mem_map_of_mem hatom)

theorem names_completion (h : ∀ n ∈ right'.names, n ∈ right.names) :
    ∀ n ∈ right'.names, n ∈ (left ++ newAtoms left right).names := by
  intro n hn
  rw [Term.names, map_append, mem_append]
  by_cases hleft : n ∈ left.names
  · exact .inl hleft
  · obtain ⟨atom, hatom, rfl⟩ := mem_map.mp (h n hn)
    exact .inr (mem_map_of_mem (mem_filter.mpr ⟨hatom, decide_eq_true hleft⟩))

variable [DecidableEq V] {a : ConfigSpace V}

theorem mergeTerm_of_complete (hne : rights ≠ []) (h : ∀ right ∈ rights, ∀ n ∈ right.names, n ∈ left.names)
    (varmap : Varmap V) : mergeTerm left rights ∅ varmap = ([left], varmap) := by
  have hrest : ∀ rights', (∀ right ∈ rights', ∀ n ∈ right.names, n ∈ left.names) →
      mergeTerm left rights' {left} varmap = ([], varmap) := by
    intro rights' h
    induction rights' with
    | nil => rfl
    | cons right rights' ih =>
      obtain ⟨hright, h⟩ := forall_mem_cons.mp h
      rw [mergeTerm, newAtoms_eq_nil hright, append_nil, if_pos (Finset.mem_singleton_self left), ih h]
  cases rights with
  | nil => exact absurd rfl hne
  | cons right rights =>
    obtain ⟨hright, h⟩ := forall_mem_cons.mp h
    rw [mergeTerm, newAtoms_eq_nil hright, append_nil, if_neg (Finset.notMem_empty left), foldl_nil]
    dsimp only
    rw [insert_empty_eq, hrest rights h]

theorem mergeTerms_of_complete (hne : rights ≠ [])
    (h : ∀ left ∈ lefts, ∀ right ∈ rights, ∀ n ∈ right.names, n ∈ left.names) (varmap : Varmap V) :
    mergeTerms lefts rights varmap = (lefts, varmap) := by
  induction lefts with
  | nil => rfl
  | cons left lefts ih =>
    obtain ⟨hleft, h⟩ := forall_mem_cons.mp h
    rw [mergeTerms, mergeTerm_of_complete hne hleft]
    dsimp only
    rw [ih h]
    rfl

def ConfigSpace.SameVariables (s : ConfigSpace V) : Prop := ∀ t ∈ s.terms, ∀ t' ∈ s.terms, ∀ n ∈ t.names, n ∈ t'.names

theorem merge_merge (h : b.SameVariables) : (a.merge b).merge b = a.merge b := by
  by_cases hne : b.terms = []
  · have hnil : ∀ lefts varmap, mergeTerms lefts b.terms varmap = ([], varmap) := by
      intro lefts varmap
      rw [hne]
      induction lefts with
      | nil => rfl
      | cons left lefts ih =>
        rw [mergeTerms, mergeTerm]
        dsimp only
        rw [ih]
        rfl
    simp only [ConfigSpace.merge, hnil]
  · have hcomplete : ∀ t ∈ (a.merge b).terms, ∀ right ∈ b.terms, ∀ n ∈ right.names, n ∈ t.names := by
      intro t ht right' hright'
      obtain ⟨left, -, right, hright, rfl⟩ := mem_mergeTerms.mp ht
      exact names_completion (h right' hright' right hright)
    conv_lhs => rw [ConfigSpace.merge]
    rw [mergeTerms_of_complete hne hcomplete]
    rfl

/-- The configurations of a merge are the completions of the left side's, in its order. A
completion starts with the configuration it completes and changes no value of it. Merging
with the same defaults again changes nothing if they all assign the same variables. -/
theorem merge_completes (a b : ConfigSpace V) (ha : Built (fun _ => True) (fun _ _ => True) a)
    (hb : Built (fun _ => True) (fun _ _ => True) b) :
    (∃ cs, (a.merge b).iter = .ok cs ∧ cs.map Config.assignments = a.terms.flatMap (completions b.terms)) ∧
      (∀ left ∈ a.terms, ∀ t ∈ completions b.terms left,
        left <+: t ∧ ∀ atom ∈ t, atom.name ∈ left.names → atom ∈ left) ∧
      (b.terms ≠ [] → ∀ left ∈ a.terms, completions b.terms left ≠ []) ∧
      (b.SameVariables → ((a.merge b).merge b).iter = (a.merge b).iter) := by
  refine ⟨⟨_, (ha.wellFormed.merge hb.wellFormed).iter_eq, ?_⟩, fun left _ t ht => ?_, fun hne left _ => ?_, fun h => ?_⟩
  · rw [map_map, show Config.assignments ∘ (a.merge b).config = id from funext (assignments_config _), map_id]
    exact mergeTerms_eq a.varmap
  · obtain ⟨right, -, rfl⟩ := mem_completions.mp ht
    refine ⟨prefix_append _ _, fun atom hatom hname => ?_⟩
    rcases mem_append.mp hatom with hleft | hnew
    · exact hleft
    · exact absurd hname (of_decide_eq_true (mem_filter.mp hnew).2)
  · obtain ⟨right, hright⟩ := exists_mem_of_ne_nil _ hne
    exact ne_nil_of_mem (mem_completions.mpr ⟨right, hright, rfl⟩)
  · rw [merge_merge h]

theorem merge_completes_ab : (∃ cs, (spaceA.merge spaceB).iter = .ok cs ∧
        cs.map Config.assignments = spaceA.terms.flatMap (completions spaceB.terms)) ∧
      (∀ left ∈ spaceA.terms, ∀ t ∈ completions spaceB.terms left,
        left <+: t ∧ ∀ atom ∈ t, atom.name ∈ left.names → atom ∈ left) ∧
      (spaceB.terms ≠ [] → ∀ left ∈ spaceA.terms, completions spaceB.terms left ≠ []) ∧
      (spaceB.SameVariables → ((spaceA.merge spaceB).merge spaceB).iter = (spaceA.merge spaceB).iter) :=
  merge_completes spaceA spaceB (built_spaceA trivial) (built_spaceB trivial)

end Mosbench.Mparts
