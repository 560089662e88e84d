import Mosbench.Lib.FormalSums
import Mosbench.Mparts.Varmap

/-!
When the operations on configuration spaces succeed, and what they return then.
-/
namespace Mosbench.Mparts.ConfigSpace

open List Option Fallible FormalSums Except

variable {summands : List (ConfigSpace V)}

theorem getLeftmostName_eq_ok {t : Term V} (h : t.getLeftmostName = .ok name) : t ≠ [] := by
  rintro rfl
  exact nomatch h

theorem checkLeftmost_eq_ok : checkLeftmost name summands = .ok () ↔
      ∃ n, (∀ n' ∈ name, n' = n) ∧ ∀ s ∈ summands, ∀ t ∈ s.terms.head?, Term.getLeftmostName t = .ok n := by
  induction summands generalizing name with
  | nil => exact ⟨fun _ => ⟨name.getD [], fun n' hn' => by rw [mem_def.mp hn']; rfl, nofun⟩, fun _ => rfl⟩
  | cons s summands ih =>
    rw [checkLeftmost]
    simp only [forall_mem_cons]
    cases hterms : s.terms with
    | nil => simp [ih]
    | cons t terms =>
      dsimp only
      cases hleft : Term.getLeftmostName t with
      | error e => simp [hleft]
      | ok sname =>
        rw [ok_bind]
        constructor
        · intro h
          split_ifs at h with hname
          obtain ⟨n, hn, hall⟩ := ih.mp h
          rw [not_not] at hname
          obtain rfl := hn _ rfl
          refine ⟨_, fun n' hn' => ?_, fun t' ht' => ?_, hall⟩
          · rw [mem_def.mp hn']
            rfl
          · rw [← some.inj ht', hleft, hname]
        · rintro ⟨n, hn, hfirst, hall⟩
          obtain rfl := ok.inj (hleft.symm.trans (hfirst t rfl))
          have hname : name.getD sname = sname := by
            cases name with
            | none => rfl
            | some n' => exact hn n' rfl
          rw [hname, if_neg (not_not.mpr rfl)]
          exact ih.mpr ⟨sname, fun n' hn' => (some.inj hn').symm, hall⟩

theorem checkLeftmost_ne_assertion (name : Option Name) : checkLeftmost name summands ≠ .error .assertion := by
  induction summands generalizing name with
  | nil => exact nofun
  | cons s summands ih =>
    rw [checkLeftmost]
    cases s.terms with
    | nil => exact ih name
    | cons t terms =>
      cases t with
      | nil => exact nofun
      | cons atom t =>
        dsimp only [Term.getLeftmostName]
        rw [ok_bind]
        split_ifs
        · exact nofun
        · exact ih _

variable [DecidableEq V] {s : ConfigSpace V}

theorem single_eq_ok (h : single name val nonConst = .ok s) :
    s = ⟨[[⟨name, val⟩]], none, .singleton name (if nonConst then {some val, none} else {some val}), false⟩ := by
  unfold single at h
  by_cases hname : name.head? = some '_'
  · rw [if_pos hname] at h
    exact nomatch h
  · rw [if_neg hname] at h
    exact (ok.inj h).symm

theorem product_eq_ok : product a b = .ok s ↔ (∀ name ∈ a.varmap, name ∈ b.varmap → name = []) ∧
      s = ⟨mul a.terms b.terms, none, (varmapUpdate a.varmap b.varmap).1, false⟩ := by
  unfold product
  dsimp only
  split_ifs with hoverlap
  · refine ⟨nofun, fun ⟨h, _⟩ => absurd (Varmap.overlap_update.mpr h) hoverlap⟩
  · rw [not_not] at hoverlap
    refine ⟨fun h => ⟨Varmap.overlap_update.mp hoverlap, (ok.inj h).symm⟩, fun ⟨_, h⟩ => ?_⟩
    rw [h]
    rfl

def Proper (s : ConfigSpace V) : Prop := ∀ set, s.termset = some set → set = s.terms.toFinset ∧ s.terms.Nodup

theorem card_toFinset_eq {terms : List (Term V)} : terms.toFinset.card = terms.length ↔ terms.Nodup :=
  Multiset.toFinset_card_eq_card_iff_nodup.trans Multiset.coe_nodup

theorem getTermset_eq_ok (h : Proper s) {set : Finset (Term V)} :
    s.getTermset = .ok set ↔ s.terms.Nodup ∧ set = s.terms.toFinset := by
  unfold getTermset
  cases hset : s.termset with
  | some set' =>
    obtain ⟨rfl, hnodup⟩ := h set' hset
    exact ⟨fun heq => ⟨hnodup, (ok.inj heq).symm⟩, fun ⟨_, heq⟩ => by rw [heq]⟩
  | none =>
    dsimp only
    by_cases hnodup : s.terms.Nodup
    · rw [if_pos (card_toFinset_eq.mpr hnodup)]
      exact ⟨fun heq => ⟨hnodup, (ok.inj heq).symm⟩, fun ⟨_, heq⟩ => by rw [heq]⟩
    · rw [if_neg (mt card_toFinset_eq.mp hnodup)]
      exact ⟨nofun, fun ⟨hnot, _⟩ => absurd hnot hnodup⟩

theorem unionTermset_eq_ok (h : ∀ s ∈ summands, Proper s) {termset set : Finset (Term V)} :
    unionTermset termset summands = .ok set ↔ (summands.flatMap fun s => s.terms).Nodup ∧
      (∀ t ∈ summands.flatMap fun s => s.terms, t ∉ termset) ∧
      set = termset ∪ (summands.flatMap fun s => s.terms).toFinset := by
  induction summands generalizing termset with
  | nil =>
    rw [unionTermset, ok.injEq]
    simp [eq_comm]
  | cons s summands ih =>
    obtain ⟨hs, h⟩ := forall_mem_cons.mp h
    rw [unionTermset, bind_eq_ok, flatMap_cons, nodup_append', toFinset_append, ← Finset.union_assoc]
    constructor
    · rintro ⟨own, hown, hrest⟩
      obtain ⟨hnodup, rfl⟩ := (getTermset_eq_ok hs).mp hown
      split_ifs at hrest with hinter
      rw [not_not] at hinter
      obtain ⟨hnodup', hnew, rfl⟩ := (ih h).mp hrest
      refine ⟨⟨hnodup, hnodup', fun t ht ht' => ?_⟩, fun t ht => ?_, rfl⟩
      · exact hnew t ht' (Finset.mem_union_right _ (mem_toFinset.mpr ht))
      · rcases mem_append.mp ht with ht | ht
        · intro hmem
          have hboth := Finset.mem_inter.mpr ⟨hmem, mem_toFinset.mpr ht⟩
          rw [hinter] at hboth
          exact absurd hboth (Finset.notMem_empty t)
        · exact fun hmem => hnew t ht (Finset.mem_union_left _ hmem)
    · rintro ⟨⟨hnodup, hnodup', hdisjoint⟩, hnew, rfl⟩
      refine ⟨s.terms.toFinset, (getTermset_eq_ok hs).mpr ⟨hnodup, rfl⟩, ?_⟩
      have hinter : termset ∩ s.terms.toFinset = ∅ := by
        rw [Finset.eq_empty_iff_forall_notMem]
        intro t ht
        obtain ⟨hmem, ht⟩ := Finset.mem_inter.mp ht
        exact hnew t (mem_append_left _ (mem_toFinset.mp ht)) hmem
      rw [if_neg (not_not.mpr hinter)]
      refine (ih h).mpr ⟨hnodup', fun t ht hmem => ?_, rfl⟩
      rcases Finset.mem_union.mp hmem with hmem | hmem
      · exact hnew t (mem_append_right _ ht) hmem
      · exact hdisjoint (mem_toFinset.mp hmem) ht

theorem markLeftmost_spec {terms : List (Term V)} {varmap : Varmap V} (h : markLeftmost terms varmap = .ok varmap') :
    varmap.Extends varmap' ∧ ∀ t ∈ terms, t ≠ [] := by
  induction terms generalizing varmap with
  | nil => exact ⟨ok.inj h ▸ .rfl, nofun⟩
  | cons t terms ih =>
    rw [markLeftmost] at h
    obtain ⟨name, hname, h⟩ := bind_eq_ok.mp h
    split_ifs at h
    obtain ⟨hext, hall⟩ := ih h
    exact ⟨(Varmap.extends_add varmap name {none}).trans hext, forall_mem_cons.mpr ⟨getLeftmostName_eq_ok hname, hall⟩⟩

theorem unionVarmap_spec {mixed : Bool} {varmap : Varmap V} (h : unionVarmap mixed varmap summands = .ok varmap') :
    varmap.Extends varmap' ∧ (∀ s ∈ summands, s.varmap.Extends varmap') ∧
      (mixed = true → ∀ s ∈ summands, ∀ t ∈ s.terms, t ≠ []) := by
  induction summands generalizing varmap with
  | nil => exact ⟨ok.inj h ▸ .rfl, nofun, nofun⟩
  | cons s summands ih =>
    rw [unionVarmap] at h
    obtain ⟨marked, hmarked, h⟩ := bind_eq_ok.mp h
    obtain ⟨hext, hsummands, hterms⟩ := ih h
    have hstep : (varmapUpdate varmap s.varmap).1.Extends marked ∧ (mixed = true → ∀ t ∈ s.terms, t ≠ []) := by
      split_ifs at hmarked with hmixed
      · exact ⟨(markLeftmost_spec hmarked).1, fun _ => (markLeftmost_spec hmarked).2⟩
      · exact ⟨ok.inj hmarked ▸ .rfl, fun htrue => absurd htrue hmixed⟩
    have hmarkedExt := hstep.1.trans hext
    refine ⟨(Varmap.extends_update_left varmap s.varmap).trans hmarkedExt,
      forall_mem_cons.mpr ⟨(Varmap.extends_update_right varmap s.varmap).trans hmarkedExt, hsummands⟩,
      fun hmixed => forall_mem_cons.mpr ⟨hstep.2 hmixed, hterms hmixed⟩⟩

theorem exists_unionVarmap (varmap : Varmap V) (summands : List (ConfigSpace V)) :
    ∃ varmap', unionVarmap false varmap summands = .ok varmap' := by
  induction summands generalizing varmap with
  | nil => exact ⟨varmap, rfl⟩
  | cons s summands ih => exact ih _

theorem union_eq_ok {mixed : Bool} (h : ∀ s ∈ summands, Proper s) :
    union mixed summands = .ok s ↔ summands ≠ [] ∧ (anyMixed mixed summands = false → checkLeftmost none summands = .ok ()) ∧
      (summands.flatMap fun s => s.terms).Nodup ∧ ∃ varmap, unionVarmap (anyMixed mixed summands) ∅ summands = .ok varmap ∧
        s = ⟨summands.flatMap fun s => s.terms, some (summands.flatMap fun s => s.terms).toFinset, varmap,
          anyMixed mixed summands⟩ := by
  unfold union
  by_cases hnil : summands = []
  · rw [if_pos (isEmpty_iff.mpr hnil)]
    exact ⟨nofun, fun ⟨hne, _⟩ => absurd hnil hne⟩
  · rw [if_neg (mt List.isEmpty_iff.mp hnil)]
    constructor
    · intro hunion
      obtain ⟨⟨⟩, hcheck, hunion⟩ := bind_eq_ok.mp hunion
      obtain ⟨termset, htermset, hunion⟩ := bind_eq_ok.mp hunion
      obtain ⟨varmap, hvarmap, hunion⟩ := bind_eq_ok.mp hunion
      obtain ⟨hnodup, -, rfl⟩ := (unionTermset_eq_ok h).mp htermset
      refine ⟨hnil, fun hmixed => ?_, hnodup, varmap, hvarmap, ?_⟩
      · rwa [hmixed, if_neg Bool.false_ne_true] at hcheck
      · rw [Finset.empty_union] at hunion
        rw [init, if_pos (card_toFinset_eq.mpr hnodup)] at hunion
        exact (ok.inj hunion).symm
    · rintro ⟨-, hcheck, hnodup, varmap, hvarmap, rfl⟩
      have hchecked : (if anyMixed mixed summands then .ok () else checkLeftmost none summands) = .ok () := by
        split_ifs with hmixed
        · rfl
        · exact hcheck (by simpa using hmixed)
      have htermset : unionTermset ∅ summands = .ok (∅ ∪ (summands.flatMap fun s => s.terms).toFinset) :=
        (unionTermset_eq_ok h).mpr ⟨hnodup, fun t _ => Finset.notMem_empty t, rfl⟩
      rw [hchecked, ok_bind, htermset, ok_bind, hvarmap, ok_bind, Finset.empty_union, init]
      exact if_pos (card_toFinset_eq.mpr hnodup)

/-! The assertions of a sum are about the sets of terms. -/

theorem unionTermset_ne_assertion (h : ∀ s ∈ summands, s.Proper ∧ s.terms.Nodup) (termset : Finset (Term V)) :
    unionTermset termset summands ≠ .error .assertion := by
  induction summands generalizing termset with
  | nil => exact nofun
  | cons s summands ih =>
    obtain ⟨⟨hproper, hnodup⟩, h⟩ := forall_mem_cons.mp h
    rw [unionTermset, (getTermset_eq_ok hproper).mpr ⟨hnodup, rfl⟩, ok_bind]
    split_ifs
    · exact nofun
    · exact ih h _

theorem markLeftmost_ne_assertion (terms : List (Term V)) (varmap : Varmap V) :
    markLeftmost terms varmap ≠ .error .assertion := by
  induction terms generalizing varmap with
  | nil => exact nofun
  | cons t terms ih =>
    rw [markLeftmost]
    cases t with
    | nil => exact nofun
    | cons atom t =>
      dsimp only [Term.getLeftmostName]
      rw [ok_bind]
      split_ifs
      · exact ih _
      · exact nofun

theorem unionVarmap_ne_assertion (mixed : Bool) (varmap : Varmap V) :
    unionVarmap mixed varmap summands ≠ .error .assertion := by
  induction summands generalizing varmap with
  | nil => exact nofun
  | cons s summands ih =>
    rw [unionVarmap]
    intro h
    rcases bind_eq_error.mp h with h | ⟨varmap', -, h⟩
    · split_ifs at h
      exact markLeftmost_ne_assertion _ _ h
    · exact ih varmap' h

theorem union_ne_assertion (h : ∀ s ∈ summands, s.Proper ∧ s.terms.Nodup) (mixed : Bool) :
    union mixed summands ≠ .error .assertion := by
  unfold union
  by_cases hnil : summands.isEmpty = true
  · rw [if_pos hnil]
    exact nofun
  · rw [if_neg hnil]
    intro hassert
    rcases bind_eq_error.mp hassert with hcheck | ⟨⟨⟩, -, hassert⟩
    · split_ifs at hcheck
      exact checkLeftmost_ne_assertion none hcheck
    rcases bind_eq_error.mp hassert with hset | ⟨termset, hset, hassert⟩
    · exact unionTermset_ne_assertion h ∅ hset
    rcases bind_eq_error.mp hassert with hvarmap | ⟨varmap, -, hassert⟩
    · exact unionVarmap_ne_assertion _ _ hvarmap
    obtain ⟨hnodup, -, rfl⟩ := (unionTermset_eq_ok fun s hs => (h s hs).1).mp hset
    rw [Finset.empty_union, init, if_pos (card_toFinset_eq.mpr hnodup)] at hassert
    exact nomatch hassert

variable {rights : List (Term V)}

theorem addAtoms_spec (atoms : Term V) (varmap : Varmap V) :
    varmap.Extends (atoms.foldl (fun varmap atom => Varmap.add varmap atom.name {some atom.val}) varmap) ∧
      (atoms.foldl (fun varmap atom => Varmap.add varmap atom.name {some atom.val}) varmap).Covers atoms := by
  induction atoms generalizing varmap with
  | nil => exact ⟨.rfl, nofun⟩
  | cons atom atoms ih =>
    obtain ⟨hext, hcovers⟩ := ih (Varmap.add varmap atom.name {some atom.val})
    rw [foldl_cons]
    refine ⟨(Varmap.extends_add _ _ _).trans hext, forall_mem_cons.mpr ⟨hext.values atom.name ?_, hcovers⟩⟩
    rw [Varmap.values_add, if_pos rfl]
    exact Finset.mem_union_right _ (Finset.mem_singleton_self _)

/-- A term with each of the defaults; a completion that comes again is left out. -/
def completions (rights : List (Term V)) (left : Term V) : List (Term V) :=
  (rights.map fun right => left ++ newAtoms left right).eraseDups

theorem nodup_completions (rights : List (Term V)) (left : Term V) : (completions rights left).Nodup := by
  have hnodup : ∀ (k : ℕ) (l : List (Term V)), l.length = k → l.eraseDups.Nodup := by
    intro k
    induction k using Nat.strong_induction_on with
    | _ k ih =>
      intro l hl
      cases l with
      | nil => exact nodup_nil
      | cons t l =>
        rw [eraseDups_cons, nodup_cons, mem_eraseDups]
        exact ⟨by simp, ih _ (hl ▸ Nat.lt_succ_of_le (length_filter_le _ _)) _ rfl⟩
  exact hnodup _ _ rfl

theorem mem_completions : t ∈ completions rights left ↔ ∃ right ∈ rights, left ++ newAtoms left right = t := by
  rw [completions, mem_eraseDups, List.mem_map]

theorem mergeTerm_eq (newTermSet : Finset (Term V)) (varmap : Varmap V) :
    (mergeTerm left rights newTermSet varmap).1 =
      ((rights.map fun right => left ++ newAtoms left right).filter fun t => t ∉ newTermSet).eraseDups := by
  induction rights generalizing newTermSet varmap with
  | nil => rfl
  | cons right rights ih =>
    rw [mergeTerm, map_cons]
    by_cases hmem : left ++ newAtoms left right ∈ newTermSet
    · rw [if_pos hmem, ih, filter_cons_of_neg (by simpa using hmem)]
    · rw [if_neg hmem, filter_cons_of_pos (by simpa using hmem), eraseDups_cons, List.filter_filter]
      dsimp only
      rw [ih]
      congr 3
      funext t
      rw [Bool.eq_iff_iff]
      simp [Finset.mem_insert, not_or]

theorem mergeTerms_eq (varmap : Varmap V) : (mergeTerms lefts rights varmap).1 = lefts.flatMap (completions rights) := by
  induction lefts generalizing varmap with
  | nil => rfl
  | cons left lefts ih =>
    rw [mergeTerms, flatMap_cons]
    dsimp only
    rw [ih, mergeTerm_eq]
    simp [completions]

theorem mem_mergeTerms {varmap : Varmap V} :
    t ∈ (mergeTerms lefts rights varmap).1 ↔ ∃ left ∈ lefts, ∃ right ∈ rights, left ++ newAtoms left right = t := by
  simp only [mergeTerms_eq, mem_flatMap, mem_completions]

theorem mergeTerm_varmap {varmap : Varmap V} (hleft : varmap.Covers left) (rights : List (Term V))
    (newTermSet : Finset (Term V)) :
    varmap.Extends (mergeTerm left rights newTermSet varmap).2 ∧
      ∀ t ∈ (mergeTerm left rights newTermSet varmap).1, (mergeTerm left rights newTermSet varmap).2.Covers t := by
  induction rights generalizing newTermSet varmap with
  | nil => exact ⟨.rfl, nofun⟩
  | cons right rights ih =>
    unfold mergeTerm
    dsimp only
    split_ifs
    · exact ih hleft newTermSet
    · obtain ⟨hadd, hnew⟩ := addAtoms_spec (newAtoms left right) varmap
      obtain ⟨hext, hcovers⟩ := ih (hadd.covers hleft) (insert (left ++ newAtoms left right) newTermSet)
      refine ⟨hadd.trans hext, forall_mem_cons.mpr ⟨?_, hcovers⟩⟩
      exact hext.covers ((hadd.covers hleft).append hnew)

theorem mergeTerms_varmap {varmap : Varmap V} (hlefts : ∀ left ∈ lefts, varmap.Covers left) (rights : List (Term V)) :
    varmap.Extends (mergeTerms lefts rights varmap).2 ∧
      ∀ t ∈ (mergeTerms lefts rights varmap).1, (mergeTerms lefts rights varmap).2.Covers t := by
  induction lefts generalizing varmap with
  | nil => exact ⟨.rfl, nofun⟩
  | cons left lefts ih =>
    obtain ⟨hleft, hlefts⟩ := forall_mem_cons.mp hlefts
    unfold mergeTerms
    dsimp only
    obtain ⟨hext, hcovers⟩ := mergeTerm_varmap hleft rights ∅
    obtain ⟨hext', hcovers'⟩ := ih fun l hl => hext.covers (hlefts l hl)
    refine ⟨hext.trans hext', fun t ht => ?_⟩
    rcases mem_append.mp ht with ht | ht
    · exact hext'.covers (hcovers t ht)
    · exact hcovers' t ht

/-- The terms of different left sides are different if none goes on where another ends. -/
theorem nodup_mergeTerms (hnodup : lefts.Nodup) (hends : ∀ t ∈ lefts, ∀ t' ∈ lefts, t <+: t' → t = t')
    (rights : List (Term V)) (varmap : Varmap V) : (mergeTerms lefts rights varmap).1.Nodup := by
  rw [mergeTerms_eq, nodup_flatMap]
  refine ⟨fun left _ => nodup_completions rights left, hnodup.imp_of_mem fun {left left'} hleft hleft' hne t ht ht' => hne ?_⟩
  obtain ⟨right, -, rfl⟩ := mem_completions.mp ht
  obtain ⟨right', -, heq⟩ := mem_completions.mp ht'
  rcases prefix_or_prefix_of_prefix (prefix_append left _) ⟨_, heq⟩ with h | h
  · exact hends left hleft left' hleft' h
  · exact (hends left' hleft' left hleft h).symm

end Mosbench.Mparts.ConfigSpace
