import Mathlib.Data.List.Forall2
import Mathlib.Data.List.Induction

/-!
Loops over lists whose body may fail: what a loop returns, and the rule that carries an
invariant through it.
-/
namespace Mosbench.Fallible

open List Except

theorem mapM_eq_some {f : β → Option γ} {g : β → γ} {l : List β}
    (h : ∀ x ∈ l, f x = some (g x)) : l.mapM f = some (l.map g) := by
  induction l with
  | nil => rfl
  | cons x l ih =>
    rw [mapM_cons, h x (by simp), ih fun y hy => h y (by simp [hy])]
    rfl

theorem mapM_forall₂ {f : β → Option γ} {P : β → γ → Prop} {l : List β}
    (h : ∀ x ∈ l, ∃ y, f x = some y ∧ P x y) : ∃ ys, l.mapM f = some ys ∧ Forall₂ P l ys := by
  induction l with
  | nil => exact ⟨[], rfl, .nil⟩
  | cons x l ih =>
    obtain ⟨y, hy, hP⟩ := h x (by simp)
    obtain ⟨ys, hys, hall⟩ := ih fun z hz => h z (by simp [hz])
    refine ⟨y :: ys, ?_, .cons hP hall⟩
    rw [mapM_cons, hy, hys]
    rfl

theorem forall₂_of_mapM_eq_some {f : β → Option γ} (h : l.mapM f = some ys) :
    Forall₂ (fun x y => f x = some y) l ys := by
  induction l generalizing ys with
  | nil => exact Option.some.inj h ▸ .nil
  | cons x l ih =>
    rw [mapM_cons] at h
    obtain ⟨y, hy, h⟩ := Option.bind_eq_some_iff.mp h
    obtain ⟨zs, hzs, h⟩ := Option.bind_eq_some_iff.mp h
    exact Option.some.inj h ▸ .cons hy (ih hzs)

theorem mapM_of_forall₂ {P : A → B → Prop} {Q : A → C → Prop} {f : B → Option C} {l : List A}
    {bs : List B} (h : Forall₂ P l bs) (hf : ∀ a b, P a b → ∃ c, f b = some c ∧ Q a c) :
    ∃ cs, bs.mapM f = some cs ∧ Forall₂ Q l cs := by
  induction h with
  | nil => exact ⟨[], rfl, .nil⟩
  | cons hP _ ih =>
    obtain ⟨c, hc, hQ⟩ := hf _ _ hP
    obtain ⟨cs, hcs, hall⟩ := ih
    refine ⟨c :: cs, ?_, .cons hQ hall⟩
    rw [mapM_cons, hc, hcs]
    rfl

theorem mapM_range {f : ℕ → Option γ} {ys : List γ}
    (h : ∀ i (hi : i < ys.length), f i = some ys[i]) : (range ys.length).mapM f = some ys := by
  obtain ⟨zs, hzs, hall⟩ := mapM_forall₂ (f := f) (l := range ys.length) (P := fun i y => ys[i]? = some y)
    fun i hi => ⟨ys.get ⟨i, mem_range.mp hi⟩, h i (mem_range.mp hi), getElem?_eq_getElem _⟩
  have hlen : zs.length = ys.length := by rw [← hall.length_eq, length_range]
  rw [hzs, Option.some.injEq]
  refine ext_getElem hlen fun i hi hi' => ?_
  have hget := hall.get (i := i) (by simpa using hi') hi
  simpa [getElem?_eq_getElem hi', eq_comm] using hget

theorem exists_of_mem_right {P : β → γ → Prop} {l : List β} {ys : List γ}
    (h : Forall₂ P l ys) {y : γ} (hy : y ∈ ys) : ∃ x ∈ l, P x y := by
  induction h with
  | nil => simp at hy
  | @cons x z _ _ hP _ ih =>
    rcases mem_cons.mp hy with rfl | hy
    · exact ⟨x, by simp, hP⟩
    · obtain ⟨x', hx', hP'⟩ := ih hy
      exact ⟨x', by simp [hx'], hP'⟩

theorem forall₂_join {P : A → B → Prop} {Q : A → C → Prop} {R : B → C → Prop} {l : List A}
    {l₁ : List B} {l₂ : List C} (h₁ : Forall₂ P l l₁) (h₂ : Forall₂ Q l l₂)
    (hR : ∀ a b c, P a b → Q a c → R b c) : Forall₂ R l₁ l₂ := by
  induction h₁ generalizing l₂ with
  | nil =>
    cases h₂
    exact .nil
  | cons hP _ ih =>
    cases h₂ with
    | cons hQ h₂ => exact .cons (hR _ _ _ hP hQ) (ih h₂)

section Loops

theorem foldlM_invariant (I : List E → A → Prop) (l : List E) (hinit : I [] a)
    (hstep : ∀ seen e rest a, l = seen ++ e :: rest → I seen a → ∃ a', f a e = some a' ∧ I (seen ++ [e]) a') :
    ∃ a', l.foldlM f a = some a' ∧ I l a' := by
  induction l using reverseRecOn with
  | nil => exact ⟨a, rfl, hinit⟩
  | append_singleton l e ih =>
    obtain ⟨a₁, hrun, hI⟩ := ih fun seen x rest b heq => hstep seen x (rest ++ [e]) b (by rw [heq]; simp)
    obtain ⟨a₂, hlast, hI'⟩ := hstep l e [] a₁ rfl hI
    refine ⟨a₂, ?_, hI'⟩
    rw [foldlM_append, hrun]
    simpa using hlast

theorem foldlM_range (I : ℕ → A → Prop) (n : ℕ) (hinit : I 0 a)
    (hstep : ∀ i < n, ∀ a, I i a → ∃ a', f a i = some a' ∧ I (i + 1) a') :
    ∃ a', (range n).foldlM f a = some a' ∧ I n a' := by
  induction n with
  | zero => exact ⟨a, rfl, hinit⟩
  | succ n ih =>
    obtain ⟨a₁, hrun, hI⟩ := ih fun i hi => hstep i (Nat.lt_succ_of_lt hi)
    obtain ⟨a₂, hlast, hI'⟩ := hstep n (Nat.lt_succ_self n) a₁ hI
    refine ⟨a₂, ?_, hI'⟩
    rw [range_succ, foldlM_append, hrun]
    simpa using hlast

end Loops

section Errors

@[simp] theorem ok_bind (a : A) (f : A → Except E B) : (ok a >>= f) = f a := rfl

@[simp] theorem error_bind (e : E) (f : A → Except E B) : (error e >>= f) = .error e := rfl

theorem bind_eq_ok {x : Except E A} : x >>= f = .ok b ↔ ∃ a, x = .ok a ∧ f a = .ok b := by
  cases x with
  | error e => exact ⟨nofun, fun ⟨_, h, _⟩ => nomatch h⟩
  | ok a => exact ⟨fun h => ⟨a, rfl, h⟩, fun ⟨_, h, h'⟩ => ok.inj h ▸ h'⟩

theorem bind_eq_error {x : Except E A} :
    x >>= f = .error e ↔ x = .error e ∨ ∃ a, x = .ok a ∧ f a = .error e := by
  cases x with
  | error e' =>
    constructor
    · intro h
      exact .inl (congrArg error (error.inj h))
    · rintro (h | ⟨_, h, _⟩)
      · exact congrArg error (error.inj h)
      · exact nomatch h
  | ok a => exact ⟨fun h => .inr ⟨a, rfl, h⟩, fun h => h.elim nofun fun ⟨_, h, h'⟩ => ok.inj h ▸ h'⟩

theorem map_eq_ok {x : Except E A} : x.map g = .ok b ↔ ∃ a, x = .ok a ∧ g a = b := by
  cases x with
  | error e => exact ⟨nofun, fun ⟨_, h, _⟩ => nomatch h⟩
  | ok a => exact ⟨fun h => ⟨a, rfl, ok.inj h⟩, fun ⟨_, h, h'⟩ => by rw [← h', ← ok.inj h]; rfl⟩

theorem mapM_eq_ok {f : A → Except E B} (h : Forall₂ (fun x y => f x = .ok y) l ys) :
    l.mapM f = .ok ys := by
  induction h with
  | nil => rfl
  | cons hx _ ih =>
    rw [mapM_cons, hx, ih]
    rfl

theorem forall₂_of_mapM_eq_ok {f : A → Except E B} (h : l.mapM f = .ok ys) :
    Forall₂ (fun x y => f x = .ok y) l ys := by
  induction l generalizing ys with
  | nil => exact ok.inj h ▸ .nil
  | cons x l ih =>
    rw [mapM_cons] at h
    obtain ⟨y, hy, h⟩ := bind_eq_ok.mp h
    obtain ⟨ys', hys', h⟩ := bind_eq_ok.mp h
    exact ok.inj h ▸ .cons hy (ih hys')

end Errors

end Mosbench.Fallible
