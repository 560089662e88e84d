import Mosbench.Mparts.Built

/-!
The laws of configuration spaces. An expression that does not fail denotes the formal sum of its
terms, and the laws are those of formal sums.
-/
namespace Mosbench.Mparts

open List Fallible FormalSums ConfigSpace

theorem map_assignments (s : ConfigSpace V) : (s.terms.map s.config).map Config.assignments = s.terms := by
  rw [map_map, show Config.assignments ∘ s.config = id from funext (assignments_config s), map_id]

theorem getLeftmostName_mul {l : List (Term V)} (hhead : l.head? = some t)
    (hname : t.getLeftmostName = .ok n) (m : List (Term V)) :
    ∀ t' ∈ (mul l m).head?, Term.getLeftmostName t' = .ok n := by
  intro t' ht'
  cases t with
  | nil => exact nomatch hname
  | cons x t =>
    obtain ⟨terms, hterms⟩ := List.head?_eq_some_iff.mp hhead
    cases m with
    | nil =>
      rw [mul_nil] at ht'
      exact nomatch ht'
    | cons u m =>
      rw [hterms, cons_mul, map_cons, cons_append] at ht'
      obtain rfl := Option.some.inj ht'
      exact hname

variable [DecidableEq V]

namespace SpaceExpr

variable {m : List (Term V)}

def add (x y : Except Error (ConfigSpace V)) : Except Error (ConfigSpace V) := do
  let a ← x
  let b ← y
  ConfigSpace.sum a b

def times (x y : Except Error (ConfigSpace V)) : Except Error (ConfigSpace V) := do
  let a ← x
  let b ← y
  ConfigSpace.product a b

def SameList (x y : Except Error (ConfigSpace V)) : Prop :=
  ∀ s s', x = .ok s → y = .ok s' →
    ∃ cs cs', s.iter = .ok cs ∧ s'.iter = .ok cs' ∧ cs.map Config.assignments = cs'.map Config.assignments

def SameSet (x y : Except Error (ConfigSpace V)) : Prop :=
  ∀ s s', x = .ok s → y = .ok s' → ∃ cs cs', s.iter = .ok cs ∧ s'.iter = .ok cs' ∧
      ∀ t, t ∈ cs.map Config.assignments ↔ t ∈ cs'.map Config.assignments

def Denotes (x : Except Error (ConfigSpace V)) (l : List (Term V)) : Prop := ∀ s, x = .ok s → s.WellFormed ∧ s.terms = l

theorem denotes_ok {s : ConfigSpace V} (h : s.WellFormed) : Denotes (.ok s) s.terms := by
  intro s' hs'
  obtain rfl := Except.ok.inj hs'
  exact ⟨h, rfl⟩

theorem Denotes.add (hx : Denotes x l) (hy : Denotes y m) : Denotes (add x y) (l ++ m) := by
  intro s hs
  obtain ⟨a, ha, hs⟩ := bind_eq_ok.mp hs
  obtain ⟨b, hb, hs⟩ := bind_eq_ok.mp hs
  obtain ⟨hwa, rfl⟩ := hx a ha
  obtain ⟨hwb, rfl⟩ := hy b hb
  have hall : ∀ s ∈ [a, b], s.WellFormed := forall_mem_cons.mpr ⟨hwa, forall_mem_singleton.mpr hwb⟩
  refine ⟨.union hall hs, ?_⟩
  obtain ⟨-, -, -, varmap, -, rfl⟩ := (union_eq_ok fun s hs => (hall s hs).proper).mp hs
  simp

theorem Denotes.times (hx : Denotes x l) (hy : Denotes y m) : Denotes (times x y) (mul l m) := by
  intro s hs
  obtain ⟨a, ha, hs⟩ := bind_eq_ok.mp hs
  obtain ⟨b, hb, hs⟩ := bind_eq_ok.mp hs
  obtain ⟨hwa, rfl⟩ := hx a ha
  obtain ⟨hwb, rfl⟩ := hy b hb
  refine ⟨.product hwa hwb hs, ?_⟩
  obtain ⟨-, rfl⟩ := product_eq_ok.mp hs
  rfl

theorem Denotes.sameList (hx : Denotes x l) (hy : Denotes y m) (h : l = m) : SameList x y := by
  intro s s' hs hs'
  obtain ⟨hw, rfl⟩ := hx s hs
  obtain ⟨hw', rfl⟩ := hy s' hs'
  refine ⟨_, _, hw.iter_eq, hw'.iter_eq, ?_⟩
  rw [map_assignments, map_assignments, h]

theorem Denotes.sameSet (hx : Denotes x l) (hy : Denotes y m) (h : ∀ t, t ∈ l ↔ t ∈ m) : SameSet x y := by
  intro s s' hs hs'
  obtain ⟨hw, rfl⟩ := hx s hs
  obtain ⟨hw', rfl⟩ := hy s' hs'
  refine ⟨_, _, hw.iter_eq, hw'.iter_eq, ?_⟩
  rw [map_assignments, map_assignments]
  exact h

end SpaceExpr

open SpaceExpr

section

variable {B : ConfigSpace V}

theorem exists_sum (hA : A.Proper) (hB : B.Proper) (hmixedA : A.mixed = false) (hmixedB : B.mixed = false)
    (hleftA : ∀ t ∈ A.terms.head?, Term.getLeftmostName t = .ok n)
    (hleftB : ∀ t ∈ B.terms.head?, Term.getLeftmostName t = .ok n) (hnodup : (A.terms ++ B.terms).Nodup) :
    ∃ s, ConfigSpace.sum A B = .ok s := by
  have hproper : ∀ s ∈ [A, B], s.Proper := forall_mem_cons.mpr ⟨hA, forall_mem_singleton.mpr hB⟩
  have hmixed : anyMixed false [A, B] = false := by simp [anyMixed, hmixedA, hmixedB]
  obtain ⟨varmap, hvarmap⟩ := exists_unionVarmap ∅ [A, B]
  refine ⟨_, (union_eq_ok hproper).mpr ⟨by simp, fun _ => checkLeftmost_eq_ok.mpr ⟨n, nofun, ?_⟩, ?_, varmap, ?_, rfl⟩⟩
  · exact forall_mem_cons.mpr ⟨hleftA, forall_mem_singleton.mpr hleftB⟩
  · simpa using hnodup
  · rw [hmixed, hvarmap]

/-- Both factors assign to the variable with the empty name, which `product` does not see. -/
def Overlooked (a b : ConfigSpace V) : Prop := [] ∈ a.varmap ∧ [] ∈ b.varmap

/-- The spaces built from assignments, sums and products in which no product overlooks a
variable that both factors assign to. -/
inductive Apart : ConfigSpace V → Prop
  | single {s : ConfigSpace V} (h : ConfigSpace.single name val nonConst = .ok s) : Apart s
  | zero : Apart .zero
  | unit : Apart .unit
  | union {mixed : Bool} {summands : List (ConfigSpace V)} {s : ConfigSpace V}
      (hsummands : ∀ s ∈ summands, Apart s) (h : ConfigSpace.union mixed summands = .ok s) : Apart s
  | product {a b s : ConfigSpace V} (ha : Apart a) (hb : Apart b) (hnames : ¬Overlooked a b)
      (h : ConfigSpace.product a b = .ok s) : Apart s

namespace Apart

variable {a b s : ConfigSpace V}

theorem built (h : Apart s) : Built (fun _ => True) (fun _ _ => False) s := by
  induction h with
  | single h => exact .single trivial h
  | zero => exact .zero
  | unit => exact .unit
  | union _ h ih => exact .union ih h
  | product _ _ _ h iha ihb => exact .product iha ihb h

theorem separates (ha : Apart a) (hb : Apart b) (hnames : ¬Overlooked a b)
    (h : ConfigSpace.product a b = .ok s) :
    Separates (fun x : Atom V => x.name ∈ a.varmap) a.terms b.terms := by
  have hwb := hb.built.wellFormed
  refine ha.built.wellFormed.separates hwb h fun hmem tb htb y hy hnil => hnames ⟨hmem, ?_⟩
  rw [← hnil]
  exact (hwb.covers tb htb).mem hy

theorem nodup_terms (h : Apart s) : s.terms.Nodup := by
  induction h with
  | single h =>
    rw [single_eq_ok h]
    exact nodup_singleton _
  | zero => exact nodup_nil
  | unit => exact nodup_singleton _
  | union hs h ih =>
    obtain ⟨-, -, hnodup, varmap, -, rfl⟩ :=
      (union_eq_ok fun s hs' => (hs s hs').built.wellFormed.proper).mp h
    exact hnodup
  | product ha hb hnames h iha ihb =>
    have hseparates := ha.separates hb hnames h
    obtain ⟨-, rfl⟩ := product_eq_ok.mp h
    exact hseparates.nodup_mul iha ihb

end Apart

theorem distributes (hA : Apart A) (hB : Apart B) (hC : Apart C) (hAB : ¬Overlooked A B)
    (hAC : ¬Overlooked A C) (hsome : A.terms ≠ []) (hunit : A.terms ≠ [[]])
    (h : times (.ok A) (add (.ok B) (.ok C)) = .ok s) :
    ∃ s', add (times (.ok A) (.ok B)) (times (.ok A) (.ok C)) = .ok s' := by
  have hwA := hA.built.wellFormed
  have hwB := hB.built.wellFormed
  have hwC := hC.built.wellFormed
  rw [times, ok_bind] at h
  obtain ⟨bc, hbc, hs⟩ := bind_eq_ok.mp h
  have hbc : ConfigSpace.union false [B, C] = .ok bc := hbc
  have hproper : ∀ s ∈ [B, C], s.Proper :=
    forall_mem_cons.mpr ⟨hwB.proper, forall_mem_singleton.mpr hwC.proper⟩
  obtain ⟨-, -, hnodup, varmap, hvarmap, rfl⟩ := (union_eq_ok hproper).mp hbc
  have hfresh := (product_eq_ok.mp hs).1
  obtain ⟨-, hext, -⟩ := unionVarmap_spec hvarmap
  -- both products exist
  have hab := product_eq_ok.mpr ⟨fun n hn hn' => hfresh n hn ((hext B (by simp)).vars n hn'), rfl⟩
  have hac := product_eq_ok.mpr ⟨fun n hn hn' => hfresh n hn ((hext C (by simp)).vars n hn'), rfl⟩
  -- and their terms are different
  have hdisjoint : B.terms.Disjoint C.terms := by
    rw [flatMap_cons, flatMap_singleton] at hnodup
    exact (nodup_append'.mp hnodup).2.2
  have hsepB := hA.separates hB hAB hab
  have hsepC := hA.separates hC hAC hac
  have hnodup' : (mul A.terms B.terms ++ mul A.terms C.terms).Nodup := by
    refine nodup_append'.mpr ⟨hsepB.nodup_mul hA.nodup_terms hB.nodup_terms,
      hsepC.nodup_mul hA.nodup_terms hC.nodup_terms, hsepB.disjoint_mul hsepC hdisjoint⟩
  obtain ⟨t, ht⟩ := Option.isSome_iff_exists.mp (isSome_head?.mpr hsome)
  have hleft : ∃ n, t.getLeftmostName = .ok n := by
    cases t with
    | nil => exact absurd (hwA.alone (mem_of_mem_head? ht)) hunit
    | cons x t => exact ⟨x.name, rfl⟩
  obtain ⟨n, hn⟩ := hleft
  have hsum := exists_sum (WellFormed.product hwA hwB hab).proper (WellFormed.product hwA hwC hac).proper
    rfl rfl (getLeftmostName_mul ht hn _) (getLeftmostName_mul ht hn _) hnodup'
  change ∃ s', (ConfigSpace.product A B >>= fun ab =>
    ConfigSpace.product A C >>= fun ac => ConfigSpace.sum ab ac) = .ok s'
  rw [hab, hac]
  exact hsum

end

/-- The laws of a semiring. Both sides have the same configurations if they are defined,
and `A*B + A*C` is defined if `A*(B+C)` is and `A` is neither empty nor the unit. -/
structure SemiringLaws (A B C : ConfigSpace V) : Prop where
  times_assoc : SameList (times (times (.ok A) (.ok B)) (.ok C)) (times (.ok A) (times (.ok B) (.ok C)))
  add_assoc : SameList (add (add (.ok A) (.ok B)) (.ok C)) (add (.ok A) (add (.ok B) (.ok C)))
  add_times : SameList (times (add (.ok A) (.ok B)) (.ok C)) (add (times (.ok A) (.ok C)) (times (.ok B) (.ok C)))
  times_unit : SameList (times (.ok A) (.ok .unit)) (.ok A)
  unit_times : SameList (times (.ok .unit) (.ok A)) (.ok A)
  times_zero : SameList (times (.ok A) (.ok .zero)) (.ok .zero)
  zero_times : SameList (times (.ok .zero) (.ok A)) (.ok .zero)
  add_zero : SameList (add (.ok A) (.ok .zero)) (.ok A)
  times_add : SameSet (times (.ok A) (add (.ok B) (.ok C))) (add (times (.ok A) (.ok B)) (times (.ok A) (.ok C)))
  times_add_defined : A.terms ≠ [] → A.terms ≠ [[]] → (∃ s, times (.ok A) (add (.ok B) (.ok C)) = .ok s) →
    ∃ s, add (times (.ok A) (.ok B)) (times (.ok A) (.ok C)) = .ok s

/-- The laws hold as long as there is no product whose factors both assign to the variable with
the empty name: neither in the spaces nor in `A*B` and `A*C`. -/
theorem semiring_laws (A B C : ConfigSpace V) (hA : Apart A) (hB : Apart B) (hC : Apart C)
    (hAB : ¬Overlooked A B) (hAC : ¬Overlooked A C) : SemiringLaws A B C := by
  have hdA := denotes_ok hA.built.wellFormed
  have hdB := denotes_ok hB.built.wellFormed
  have hdC := denotes_ok hC.built.wellFormed
  have hzero : Denotes (.ok .zero) ([] : List (Term V)) := denotes_ok .zero
  have hunit : Denotes (.ok .unit) ([[]] : List (Term V)) := denotes_ok .unit
  refine ⟨?_, ?_, ?_, ?_, ?_, ?_, ?_, ?_, ?_, ?_⟩
  · exact ((hdA.times hdB).times hdC).sameList (hdA.times (hdB.times hdC)) (mul_assoc _ _ _)
  · exact ((hdA.add hdB).add hdC).sameList (hdA.add (hdB.add hdC)) (append_assoc _ _ _)
  · exact ((hdA.add hdB).times hdC).sameList ((hdA.times hdC).add (hdB.times hdC)) (append_mul _ _ _)
  · exact (hdA.times hunit).sameList hdA (mul_one _)
  · exact (hunit.times hdA).sameList hdA (one_mul _)
  · exact (hdA.times hzero).sameList hzero (mul_nil _)
  · exact (hzero.times hdA).sameList hzero (nil_mul _)
  · exact (hdA.add hzero).sameList hdA (append_nil _)
  · exact (hdA.times (hdB.add hdC)).sameSet ((hdA.times hdB).add (hdA.times hdC)) fun t => mem_mul_append
  · intro hsome hnotUnit ⟨s, hs⟩
    exact distributes hA hB hC hAB hAC hsome hnotUnit hs

def spaceBTwo : ConfigSpace ℕ := value (mk false ['b'] (.inl 2))

/-- The left factor may assign to the variable with the empty name. -/
theorem semiring_laws_nameless :
    (∃ s, times (.ok spaceNameless) (add (.ok spaceB) (.ok spaceBTwo)) = .ok s) ∧
      SemiringLaws spaceNameless spaceB spaceBTwo := by
  have hA : ConfigSpace.single [] 1 false = .ok spaceNameless := rfl
  have hB : ConfigSpace.single ['b'] 1 false = .ok spaceB := rfl
  have hC : ConfigSpace.single ['b'] 2 false = .ok spaceBTwo := rfl
  refine ⟨⟨_, rfl⟩, ?_⟩
  exact semiring_laws spaceNameless spaceB spaceBTwo (.single hA) (.single hB) (.single hC)
    (by unfold Overlooked; decide) (by unfold Overlooked; decide)

/-- With X assigning to the variable with the empty name, `(X + X*X)*(X*X + X)` is defined,
but `(X + X*X)*(X*X) + (X + X*X)*X` has the configuration `X*X*X` on both sides. -/
theorem distributes_fails :
    ∃ A B C : ConfigSpace ℕ, Built (fun _ => True) (fun _ _ => False) A ∧ Built (fun _ => True) (fun _ _ => False) B ∧
      Built (fun _ => True) (fun _ _ => False) C ∧ A.terms ≠ [] ∧ A.terms ≠ [[]] ∧
      (∃ s, times (.ok A) (add (.ok B) (.ok C)) = .ok s) ∧
      add (times (.ok A) (.ok B)) (times (.ok A) (.ok C)) = .error .duplicateConfiguration := by
  refine ⟨spaceOnceOrTwice, spaceTwice, spaceNameless, built_onceOrTwice, built_twice, built_nameless, ?_⟩
  exact ⟨by decide, by decide, ⟨_, rfl⟩, rfl⟩

end Mosbench.Mparts
