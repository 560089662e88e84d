import Mosbench.Mparts.Built

/-!
The variables that configurations start with. A sum that is not mixed only compares the first
variables of its summands' first terms. Neither a product nor a merge is mixed, whatever its
left side starts with, so that a mixed sum can become part of one that is not.
-/
namespace Mosbench.Mparts

open List Fallible FormalSums ConfigSpace

def ConfigSpace.Uniform (s : ConfigSpace V) : Prop := ∃ n, ∀ t ∈ s.terms, Term.getLeftmostName t = .ok n

variable [DecidableEq V]

/-- The spaces that expressions return. The left operands of products and merges may be
restricted. -/
inductive Formed (lefts : ConfigSpace V → Prop) : ConfigSpace V → Prop
  | single (h : ConfigSpace.single name val nonConst = .ok s) : Formed lefts s
  | union {mixed : Bool} {summands : List (ConfigSpace V)} (hsummands : ∀ a ∈ summands, Formed lefts a)
      (h : ConfigSpace.union mixed summands = .ok s) : Formed lefts s
  | product (ha : Formed lefts a) (hb : Formed lefts b) (hleft : lefts a)
      (h : ConfigSpace.product a b = .ok s) : Formed lefts s
  | merge (ha : Formed lefts a) (hb : Formed lefts b) (hleft : lefts a) : Formed lefts (a.merge b)

namespace Formed

variable {lefts : ConfigSpace V → Prop}

theorem mk (h : ConfigSpace.mk nonConst name arg = .ok s) : Formed lefts s := by
  cases arg with
  | inl val => exact .single h
  | inr vals =>
    obtain ⟨singles, hsingles, h⟩ := bind_eq_ok.mp h
    refine .union (fun a ha => ?_) h
    obtain ⟨val, -, hval⟩ := exists_of_mem_right (forall₂_of_mapM_eq_ok hsingles) ha
    exact .single hval

theorem built (h : Formed lefts s) : Built (fun _ => True) (fun _ _ => True) s := by
  induction h with
  | single h => exact .single trivial h
  | union _ h ih => exact .union ih h
  | product _ _ _ h iha ihb => exact .product iha ihb h
  | merge _ _ _ iha ihb => exact .merge iha ihb trivial

end Formed

theorem uniform_union {mixed : Bool} {s : ConfigSpace V} (hs : ∀ a ∈ summands, a.Proper ∧ (a.mixed = false → a.Uniform))
    (h : ConfigSpace.union mixed summands = .ok s) (hmixed : s.mixed = false) : s.Uniform := by
  obtain ⟨-, hcheck, -, varmap, -, rfl⟩ := (union_eq_ok fun a ha => (hs a ha).1).mp h
  obtain ⟨n, -, hfirst⟩ := checkLeftmost_eq_ok.mp (hcheck hmixed)
  have hnone : ∀ a ∈ summands, a.mixed = false := by
    intro a ha
    have hany := (Bool.or_eq_false_iff.mp hmixed).2
    simpa using any_eq_false.mp hany a ha
  refine ⟨n, fun t ht => ?_⟩
  obtain ⟨a, ha, ht⟩ := mem_flatMap.mp ht
  obtain ⟨n', hn'⟩ := (hs a ha).2 (hnone a ha)
  cases hterms : a.terms with
  | nil => simp [hterms] at ht
  | cons first rest =>
    have hhead : first ∈ a.terms.head? := by simp [hterms]
    have hn := (hn' first (by simp [hterms])).symm.trans (hfirst a ha first hhead)
    exact (hn' t ht).trans hn

theorem Formed.uniform {s : ConfigSpace V} (h : Formed Uniform s) : s.mixed = false → s.Uniform := by
  have hgrow : ∀ {n} {t t' : Term V}, t.getLeftmostName = .ok n → Term.getLeftmostName (t ++ t') = .ok n := by
    intro n t t' ht
    cases t with
    | nil => cases ht
    | cons atom t => exact ht
  induction h with
  | @single name _ _ _ h =>
    rw [single_eq_ok h]
    exact fun _ => ⟨name, forall_mem_singleton.mpr rfl⟩
  | union hsummands h ih => exact uniform_union (fun a ha => ⟨(hsummands a ha).built.wellFormed.proper, ih a ha⟩) h
  | product _ _ hleft h =>
    intro _
    obtain ⟨-, rfl⟩ := product_eq_ok.mp h
    obtain ⟨n, hn⟩ := hleft
    refine ⟨n, fun t ht => ?_⟩
    obtain ⟨ta, hta, tb, -, rfl⟩ := mem_mul.mp ht
    exact hgrow (hn ta hta)
  | merge _ _ hleft =>
    intro _
    obtain ⟨n, hn⟩ := hleft
    refine ⟨n, fun t ht => ?_⟩
    obtain ⟨left, hl, right, -, rfl⟩ := mem_mergeTerms.mp ht
    exact hgrow (hn left hl)

/-- A sum that is not called mixed and is not flagged so starts with one variable, if the
left sides of all products and merges do. -/
theorem sum_uniform (summands : List (ConfigSpace V)) (s : ConfigSpace V) (hs : ∀ a ∈ summands, Formed Uniform a)
    (h : ConfigSpace.union false summands = .ok s) (hmixed : s.mixed = false) : s.Uniform :=
  uniform_union (fun a ha => ⟨(hs a ha).built.wellFormed.proper, (hs a ha).uniform⟩) h hmixed

theorem sum_uniform_ab : ConfigSpace.Uniform (value (ConfigSpace.union false [value (product spaceA spaceB)])) := by
  have hA : mk false ['a'] (.inr [1, 2]) = .ok spaceA := rfl
  have hB : mk false ['b'] (.inl 1) = .ok spaceB := rfl
  have hproduct : product spaceA spaceB = .ok (value (product spaceA spaceB)) := rfl
  have huniform : spaceA.Uniform := ⟨['a'], by decide⟩
  exact sum_uniform _ _ (forall_mem_singleton.mpr (.product (.mk hA) (.mk hB) huniform hproduct)) rfl rfl

def spaceC : ConfigSpace ℕ := value (mk false ['c'] (.inl 1))

def spaceMixed : ConfigSpace ℕ := value (product (value (ConfigSpace.union true [spaceOne, spaceB])) spaceC)

/-- `(a=1 + b=1)*c=1` is not flagged mixed, so that it can be added to `a=1`. -/
theorem sum_not_uniform :
    ∃ s, (∀ a ∈ [spaceMixed, spaceOne], Formed (fun _ => True) a) ∧
      ConfigSpace.union false [spaceMixed, spaceOne] = .ok s ∧ s.mixed = false ∧ ¬s.Uniform := by
  have hA : mk false ['a'] (.inl 1) = .ok spaceOne := rfl
  have hB : mk false ['b'] (.inl 1) = .ok spaceB := rfl
  have hC : mk false ['c'] (.inl 1) = .ok spaceC := rfl
  have hsum : ConfigSpace.union true [spaceOne, spaceB] = .ok (value (ConfigSpace.union true [spaceOne, spaceB])) := rfl
  have hmixed : product (value (ConfigSpace.union true [spaceOne, spaceB])) spaceC = .ok spaceMixed := rfl
  have hsummands : ∀ a ∈ [spaceOne, spaceB], Formed (fun _ => True) a :=
    forall_mem_cons.mpr ⟨.mk hA, forall_mem_singleton.mpr (.mk hB)⟩
  refine ⟨_, forall_mem_cons.mpr ⟨.product (.union hsummands hsum) (.mk hC) trivial hmixed,
    forall_mem_singleton.mpr (.mk hA)⟩, rfl, rfl, ?_⟩
  rintro ⟨n, hn⟩
  have ha := hn [⟨['a'], 1⟩, ⟨['c'], 1⟩] (by decide)
  have hb := hn [⟨['b'], 1⟩, ⟨['c'], 1⟩] (by decide)
  cases ha
  cases hb

end Mosbench.Mparts
