import Mosbench.Mparts.Operations

/-!
The spaces that can be built, and what holds for all of them. A product whose factors have the
variable with the empty name in common is not refused, and merge does not look for duplicates
between the terms of different left sides.
-/
namespace Mosbench.Mparts

open List Fallible FormalSums ConfigSpace

def ConfigSpace.config (s : ConfigSpace V) (t : Term V) : Config V :=
  t.map fun atom => (atom.name, atom.val, decide ((s.varmap.values atom.name).card = 1))

def Config.assignments (c : Config V) : Term V := c.map fun v => ⟨v.1, v.2.1⟩

theorem assignments_config (s : ConfigSpace V) (t : Term V) : Config.assignments (s.config t) = t := by
  rw [Config.assignments, config, map_map]
  exact map_id t

variable [DecidableEq V]

/-- The spaces built from assignments to variables with certain names, with merges of
certain operands. -/
inductive Built (names : Name → Prop) (merges : ConfigSpace V → ConfigSpace V → Prop) : ConfigSpace V → Prop
  | single (hname : names name)
      (h : ConfigSpace.single name val nonConst = .ok s) : Built names merges s
  | zero : Built names merges .zero
  | unit : Built names merges .unit
  | union {mixed : Bool} {summands : List (ConfigSpace V)} {s : ConfigSpace V}
      (hsummands : ∀ s ∈ summands, Built names merges s) (h : ConfigSpace.union mixed summands = .ok s) : Built names merges s
  | product (ha : Built names merges a) (hb : Built names merges b)
      (h : ConfigSpace.product a b = .ok s) : Built names merges s
  | merge (ha : Built names merges a) (hb : Built names merges b) (h : merges a b) :
      Built names merges (a.merge b)

structure ConfigSpace.WellFormed (s : ConfigSpace V) : Prop where
  proper : s.Proper
  covers : ∀ t ∈ s.terms, s.varmap.Covers t
  alone : [] ∈ s.terms → s.terms = [[]]

namespace ConfigSpace.WellFormed

variable {a s : ConfigSpace V}

theorem single (h : ConfigSpace.single name val nonConst = .ok s) : s.WellFormed := by
  rw [single_eq_ok h]
  refine ⟨fun set hset => ?_, fun t ht atom hatom => ?_, fun hmem => ?_⟩
  · cases hset
  · rw [mem_singleton.mp ht] at hatom
    rw [mem_singleton.mp hatom]
    have hvalues : Varmap.values (.singleton name (if nonConst then {some val, none} else {some val})) name =
        if nonConst then {some val, none} else {some val} := by
      rw [Varmap.values, AList.lookup, AList.singleton_entries, dlookup_cons_eq]
      rfl
    rw [hvalues]
    split_ifs
    · exact Finset.mem_insert_self _ _
    · exact Finset.mem_singleton_self _
  · cases mem_singleton.mp hmem

theorem zero : (ConfigSpace.zero : ConfigSpace V).WellFormed := ⟨nofun, nofun, nofun⟩

theorem unit : (ConfigSpace.unit : ConfigSpace V).WellFormed := by
  refine ⟨nofun, fun t ht atom hatom => ?_, fun _ => rfl⟩
  rw [mem_singleton.mp ht] at hatom
  exact absurd hatom not_mem_nil

theorem nil_notMem_union {mixed : Bool} (hs : ∀ s ∈ summands, s.WellFormed) (h : ConfigSpace.union mixed summands = .ok s) :
    [] ∉ s.terms := by
  obtain ⟨-, hcheck, -, varmap, hvarmap, rfl⟩ := (union_eq_ok fun s hs' => (hs s hs').proper).mp h
  intro hmem
  obtain ⟨summand, hsummand, hmem⟩ := mem_flatMap.mp hmem
  cases hmixed : anyMixed mixed summands with
  | true => exact (unionVarmap_spec hvarmap).2.2 hmixed summand hsummand [] hmem rfl
  | false =>
    obtain ⟨n, -, hfirst⟩ := checkLeftmost_eq_ok.mp (hcheck hmixed)
    have hhead : [] ∈ summand.terms.head? := by
      rw [(hs summand hsummand).alone hmem]
      rfl
    exact getLeftmostName_eq_ok (hfirst summand hsummand [] hhead) rfl

theorem union {mixed : Bool} (hs : ∀ s ∈ summands, s.WellFormed) (h : ConfigSpace.union mixed summands = .ok s) :
    s.WellFormed := by
  have hnil := nil_notMem_union hs h
  obtain ⟨-, -, hnodup, varmap, hvarmap, rfl⟩ := (union_eq_ok fun s hs' => (hs s hs').proper).mp h
  refine ⟨fun set hset => ⟨(Option.some.inj hset).symm, hnodup⟩, fun t ht => ?_, fun hmem => absurd hmem hnil⟩
  obtain ⟨summand, hsummand, ht⟩ := mem_flatMap.mp ht
  exact ((unionVarmap_spec hvarmap).2.1 summand hsummand).covers ((hs summand hsummand).covers t ht)

theorem product (ha : a.WellFormed) (hb : b.WellFormed) (h : ConfigSpace.product a b = .ok s) : s.WellFormed := by
  obtain ⟨-, rfl⟩ := product_eq_ok.mp h
  refine ⟨nofun, fun t ht => ?_, fun hmem => ?_⟩
  · obtain ⟨ta, hta, tb, htb, rfl⟩ := mem_mul.mp ht
    exact ((Varmap.extends_update_left _ _).covers (ha.covers ta hta)).append
      ((Varmap.extends_update_right _ _).covers (hb.covers tb htb))
  · obtain ⟨ta, hta, tb, htb, hnil⟩ := mem_mul.mp hmem
    obtain ⟨rfl, rfl⟩ := append_eq_nil_iff.mp hnil
    change mul a.terms b.terms = [[]]
    rw [ha.alone hta, hb.alone htb]
    rfl

theorem merge (ha : a.WellFormed) (hb : b.WellFormed) : (a.merge b).WellFormed := by
  refine ⟨nofun, (mergeTerms_varmap ha.covers b.terms).2, fun hmem => ?_⟩
  obtain ⟨left, hleft, right, hright, hnil⟩ := mem_mergeTerms.mp hmem
  obtain ⟨rfl, hnew⟩ := append_eq_nil_iff.mp hnil
  have hempty : right = [] := by
    rw [← hnew, newAtoms]
    exact (filter_eq_self.mpr fun atom _ => by simp [Term.names]).symm
  subst hempty
  change (mergeTerms a.terms b.terms a.varmap).1 = [[]]
  rw [ha.alone hleft, hb.alone hright]
  rfl

end ConfigSpace.WellFormed

namespace Built

variable {s : ConfigSpace V}

theorem wellFormed (h : Built names merges s) : s.WellFormed := by
  induction h with
  | single _ h => exact .single h
  | zero => exact .zero
  | unit => exact .unit
  | union _ h ih => exact .union ih h
  | product _ _ h iha ihb => exact .product iha ihb h
  | merge _ _ _ iha ihb => exact .merge iha ihb

theorem mk (hname : names name)
    (h : ConfigSpace.mk nonConst name arg = .ok s) : Built names merges s := by
  cases arg with
  | inl val => exact .single hname h
  | inr vals =>
    obtain ⟨terms, hterms, h⟩ := bind_eq_ok.mp h
    refine .union (fun s hs => ?_) h
    obtain ⟨val, -, hval⟩ := exists_of_mem_right (forall₂_of_mapM_eq_ok hterms) hs
    exact .single hname hval

theorem names_of_mem (h : Built names merges s) : ∀ t ∈ s.terms, ∀ atom ∈ t, names atom.name := by
  induction h with
  | single hname h =>
    rw [single_eq_ok h]
    intro t ht atom hatom
    rw [mem_singleton.mp ht] at hatom
    rwa [mem_singleton.mp hatom]
  | zero => exact nofun
  | unit =>
    intro t ht atom hatom
    rw [mem_singleton.mp ht] at hatom
    exact absurd hatom not_mem_nil
  | union hs h ih =>
    obtain ⟨-, -, -, varmap, -, rfl⟩ := (union_eq_ok fun s hs' => (hs s hs').wellFormed.proper).mp h
    intro t ht
    obtain ⟨summand, hsummand, ht⟩ := mem_flatMap.mp ht
    exact ih summand hsummand t ht
  | product _ _ h iha ihb =>
    obtain ⟨-, rfl⟩ := product_eq_ok.mp h
    intro t ht atom hatom
    obtain ⟨ta, hta, tb, htb, rfl⟩ := mem_mul.mp ht
    rcases mem_append.mp hatom with hatom | hatom
    · exact iha ta hta atom hatom
    · exact ihb tb htb atom hatom
  | merge _ _ _ iha ihb =>
    intro t ht atom hatom
    obtain ⟨left, hleft, right, hright, rfl⟩ := mem_mergeTerms.mp ht
    rcases mem_append.mp hatom with hatom | hatom
    · exact iha left hleft atom hatom
    · exact ihb right hright atom (mem_of_mem_filter hatom)

end Built

namespace Built

variable {s : ConfigSpace V}

theorem disjoint_names (hne : ∀ n, names n → n ≠ []) (ha : Built names merges a) (hb : Built names merges b)
    (h : ConfigSpace.product a b = .ok s) :
    ∀ ta ∈ a.terms, ∀ tb ∈ b.terms, ∀ x ∈ ta, ∀ y ∈ tb, x.name ≠ y.name := by
  intro ta hta tb htb x hx y hy heq
  have hmema := (ha.wellFormed.covers ta hta).mem hx
  have hmemb := (hb.wellFormed.covers tb htb).mem hy
  rw [heq] at hmema
  exact hne _ (hb.names_of_mem tb htb y hy) ((product_eq_ok.mp h).1 y.name hmema hmemb)

theorem nodup_names (hne : ∀ n, names n → n ≠ []) (h : Built names merges s) : ∀ t ∈ s.terms, t.names.Nodup := by
  induction h with
  | single _ h =>
    rw [single_eq_ok h]
    intro t ht
    rw [mem_singleton.mp ht]
    exact nodup_singleton _
  | zero => exact nofun
  | unit =>
    intro t ht
    rw [mem_singleton.mp ht]
    exact nodup_nil
  | union hs h ih =>
    obtain ⟨-, -, -, varmap, -, rfl⟩ := (union_eq_ok fun s hs' => (hs s hs').wellFormed.proper).mp h
    intro t ht
    obtain ⟨summand, hsummand, ht⟩ := mem_flatMap.mp ht
    exact ih summand hsummand t ht
  | product ha hb h iha ihb =>
    have hdisjoint := disjoint_names hne ha hb h
    obtain ⟨-, rfl⟩ := product_eq_ok.mp h
    intro t ht
    obtain ⟨ta, hta, tb, htb, rfl⟩ := mem_mul.mp ht
    rw [Term.names, map_append]
    refine nodup_append'.mpr ⟨iha ta hta, ihb tb htb, fun n hn hn' => ?_⟩
    obtain ⟨x, hx, rfl⟩ := mem_map.mp hn
    obtain ⟨y, hy, heq⟩ := mem_map.mp hn'
    exact hdisjoint ta hta tb htb x hx y hy heq.symm
  | merge _ _ _ iha ihb =>
    intro t ht
    obtain ⟨left, hleft, right, hright, rfl⟩ := mem_mergeTerms.mp ht
    rw [Term.names, map_append]
    refine nodup_append'.mpr ⟨iha left hleft, ?_, fun n hn hn' => ?_⟩
    · exact (ihb right hright).sublist (filter_sublist.map Atom.name)
    · obtain ⟨atom, hatom, rfl⟩ := mem_map.mp hn'
      exact of_decide_eq_true (mem_filter.mp hatom).2 hn

end Built

theorem ConfigSpace.WellFormed.iter_eq {s : ConfigSpace V} (h : s.WellFormed) : s.iter = .ok (s.terms.map s.config) := by
  refine mapM_eq_ok (forall₂_map_right_iff.mpr (forall₂_same.mpr fun t ht => ?_))
  refine mapM_eq_ok (forall₂_map_right_iff.mpr (forall₂_same.mpr fun atom hatom => ?_))
  rw [Varmap.lookup_of_mem_values (h.covers t ht atom hatom)]

/-- No configuration assigns to a variable twice, the variable map has all variables with
all their values, and iteration does not fail. -/
theorem configurations_wellFormed (s : ConfigSpace V) (h : Built (fun n => n ≠ []) (fun _ _ => True) s) :
    (∀ t ∈ s.terms, t.names.Nodup) ∧
      (∀ t ∈ s.terms, ∀ atom ∈ t, ∃ vals, s.varmap.lookup atom.name = some vals ∧ some atom.val ∈ vals) ∧
      ∃ cs, s.iter = .ok cs ∧ cs.map Config.assignments = s.terms := by
  refine ⟨h.nodup_names fun _ => id, fun t ht atom hatom => ?_, s.terms.map s.config, h.wellFormed.iter_eq, ?_⟩
  · have hmem := h.wellFormed.covers t ht atom hatom
    exact ⟨_, Varmap.lookup_of_mem_values hmem, hmem⟩
  · rw [map_map]
    exact map_id'' (assignments_config s) s.terms

def ConfigSpace.value (x : Except Error (ConfigSpace V)) : ConfigSpace V := x.toOption.getD .zero

def spaceA : ConfigSpace ℕ := value (mk false ['a'] (.inr [1, 2]))

def spaceB : ConfigSpace ℕ := value (mk false ['b'] (.inl 1))

theorem built_spaceA (h : names ['a']) : Built names merges spaceA := by
  have hmk : mk false ['a'] (.inr [1, 2]) = .ok spaceA := rfl
  exact .mk h hmk

theorem built_spaceB (h : names ['b']) : Built names merges spaceB := by
  have hmk : mk false ['b'] (.inl 1) = .ok spaceB := rfl
  exact .mk h hmk

theorem configurations_wellFormed_merge : (∀ t ∈ (spaceA.merge spaceB).terms, t.names.Nodup) ∧
      (∀ t ∈ (spaceA.merge spaceB).terms, ∀ atom ∈ t,
        ∃ vals, (spaceA.merge spaceB).varmap.lookup atom.name = some vals ∧ some atom.val ∈ vals) ∧
      ∃ cs, (spaceA.merge spaceB).iter = .ok cs ∧ cs.map Config.assignments = (spaceA.merge spaceB).terms :=
  configurations_wellFormed _ (.merge (built_spaceA (by decide)) (built_spaceB (by decide)) trivial)

/-- No term of the left side goes on where another one ends. -/
def ConfigSpace.Ends (a : ConfigSpace V) : Prop := ∀ t ∈ a.terms, ∀ t' ∈ a.terms, t <+: t' → t = t'

theorem ConfigSpace.WellFormed.separates {a b s : ConfigSpace V} (ha : a.WellFormed) (hb : b.WellFormed)
    (h : ConfigSpace.product a b = .ok s)
    (hne : [] ∈ a.varmap → ∀ tb ∈ b.terms, ∀ y ∈ tb, Atom.name y ≠ []) :
    Separates (fun x : Atom V => x.name ∈ a.varmap) a.terms b.terms := by
  refine ⟨fun ta hta x hx => (ha.covers ta hta).mem hx, fun tb htb y hy hmem => ?_⟩
  have hnil := (product_eq_ok.mp h).1 y.name hmem ((hb.covers tb htb).mem hy)
  rw [hnil] at hmem
  exact hne hmem tb htb y hy hnil

namespace Built

variable {s : ConfigSpace V}

theorem separates (hne : ∀ n, names n → n ≠ []) (ha : Built names merges a) (hb : Built names merges b)
    (h : ConfigSpace.product a b = .ok s) : Separates (fun x : Atom V => x.name ∈ a.varmap) a.terms b.terms :=
  ha.wellFormed.separates hb.wellFormed h fun _ tb htb y hy => hne _ (hb.names_of_mem tb htb y hy)

theorem nodup_terms (hne : ∀ n, names n → n ≠ []) (hends : ∀ a b, merges a b → a.Ends) (h : Built names merges s) :
    s.terms.Nodup := by
  induction h with
  | single _ h =>
    rw [single_eq_ok h]
    exact nodup_singleton _
  | zero => exact nodup_nil
  | unit => exact nodup_singleton _
  | union hs h ih =>
    obtain ⟨-, -, hnodup, varmap, -, rfl⟩ := (union_eq_ok fun s hs' => (hs s hs').wellFormed.proper).mp h
    exact hnodup
  | product ha hb h iha ihb =>
    have hseparates := separates hne ha hb h
    obtain ⟨-, rfl⟩ := product_eq_ok.mp h
    exact hseparates.nodup_mul iha ihb
  | merge _ _ hmerge iha _ => exact nodup_mergeTerms iha (hends _ _ hmerge) _ _

end Built

/-- The terms of a space are different, so are its configurations, and the assertions hold
also when the space is put in a sum: if no variable has the empty name and in every merge
no term of the left side goes on where another one ends. -/
theorem configurations_different (s : ConfigSpace V) (h : Built (fun n => n ≠ []) (fun a _ => a.Ends) s) :
    s.terms.Nodup ∧ (∃ cs, s.iter = .ok cs ∧ (cs.map Config.assignments).Nodup) ∧ (∃ set, s.getTermset = .ok set) ∧
      ∀ mixed others, (∀ o ∈ others, Built (fun n => n ≠ []) (fun a _ => a.Ends) o) →
        ConfigSpace.union mixed (s :: others) ≠ .error .assertion := by
  have hnodup : ∀ {o : ConfigSpace V}, Built (fun n => n ≠ []) (fun a _ => a.Ends) o → o.terms.Nodup := fun ho =>
    ho.nodup_terms (fun _ => id) fun _ _ => id
  refine ⟨hnodup h, ⟨s.terms.map s.config, h.wellFormed.iter_eq, ?_⟩,
    ⟨_, (getTermset_eq_ok h.wellFormed.proper).mpr ⟨hnodup h, rfl⟩⟩, fun mixed others hothers => ?_⟩
  · rw [map_map, show Config.assignments ∘ s.config = id from funext (assignments_config s), map_id]
    exact hnodup h
  · refine union_ne_assertion (forall_mem_cons.mpr ⟨⟨h.wellFormed.proper, hnodup h⟩, fun o ho => ?_⟩) mixed
    exact ⟨(hothers o ho).wellFormed.proper, hnodup (hothers o ho)⟩

theorem configurations_different_merge : (spaceA.merge spaceB).terms.Nodup ∧
      (∃ cs, (spaceA.merge spaceB).iter = .ok cs ∧ (cs.map Config.assignments).Nodup) ∧
      (∃ set, (spaceA.merge spaceB).getTermset = .ok set) ∧
      ∀ mixed others, (∀ o ∈ others, Built (fun n => n ≠ []) (fun a _ => a.Ends) o) →
        ConfigSpace.union mixed (spaceA.merge spaceB :: others) ≠ .error .assertion := by
  have hends : spaceA.Ends := by
    unfold ConfigSpace.Ends
    decide
  exact configurations_different _ (.merge (built_spaceA (by decide)) (built_spaceB (by decide)) hends)

def spaceOne : ConfigSpace ℕ := value (mk false ['a'] (.inl 1))

def spaceWithOrWithout (b : ConfigSpace ℕ) : ConfigSpace ℕ :=
  value (ConfigSpace.union false [spaceOne, value (product spaceOne b)])

theorem built_withOrWithout
    (ha : names ['a']) (hb : Built names merges b) (hproduct : product spaceOne b = .ok (value (product spaceOne b)))
    (hunion : ConfigSpace.union false [spaceOne, value (product spaceOne b)] = .ok (spaceWithOrWithout b)) :
    Built names merges (spaceWithOrWithout b) := by
  have hmk : mk false ['a'] (.inl 1) = .ok spaceOne := rfl
  have hone : Built names merges spaceOne := .mk ha hmk
  exact .union (forall_mem_cons.mpr ⟨hone, forall_mem_singleton.mpr (.product hone hb hproduct)⟩) hunion

def spaceNameless : ConfigSpace ℕ := value (mk false [] (.inl 1))

def spaceTwice : ConfigSpace ℕ := value (product spaceNameless spaceNameless)

def spaceOnceOrTwice : ConfigSpace ℕ := value (ConfigSpace.union false [spaceNameless, spaceTwice])

section

theorem built_nameless : Built (fun _ => True) merges spaceNameless := by
  have hmk : mk false [] (.inl 1) = .ok spaceNameless := rfl
  exact .mk trivial hmk

theorem built_twice : Built (fun _ => True) merges spaceTwice := by
  have hproduct : product spaceNameless spaceNameless = .ok spaceTwice := rfl
  exact .product built_nameless built_nameless hproduct

theorem built_onceOrTwice : Built (fun _ => True) merges spaceOnceOrTwice := by
  have hunion : ConfigSpace.union false [spaceNameless, spaceTwice] = .ok spaceOnceOrTwice := rfl
  exact .union (forall_mem_cons.mpr ⟨built_nameless, forall_mem_singleton.mpr built_twice⟩) hunion

end

/-- `a=1 + a=1*b=1` with the default `b=1` has the configuration `a=1*b=1` twice, and a sum
with it fails. With the empty name a product can have a configuration twice, too. -/
theorem merge_repeats :
    (∃ s : ConfigSpace ℕ, Built (fun n => n ≠ []) (fun _ _ => True) s ∧ ¬s.terms.Nodup ∧
        ConfigSpace.sum s .zero = .error .assertion) ∧
      ∃ s : ConfigSpace ℕ, Built (fun _ => True) (fun _ _ => False) s ∧ ¬s.terms.Nodup := by
  constructor
  · have hB : Built (fun n => n ≠ []) (fun _ _ => True) spaceB := built_spaceB (by decide)
    exact ⟨_, .merge (built_withOrWithout (by decide) hB rfl rfl) hB trivial, by decide, rfl⟩
  · exact ⟨_, .product built_onceOrTwice built_onceOrTwice rfl, by decide⟩

end Mosbench.Mparts
