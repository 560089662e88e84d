import Mathlib.Init

/-!
Computations that change a state and may raise an exception. A raised exception leaves the
state as it was when it was raised. `Keeps I x` says that `x` keeps the invariant `I`,
whichever way it ends.
-/
namespace Mosbench.Raising

variable {ε σ α : Type}

theorem bind_of_ok (h : x s = .ok a t) (f : α → EStateM ε σ β) : (x >>= f) s = f a t := by
  change EStateM.bind x f s = f a t
  unfold EStateM.bind
  rw [h]

theorem bind_of_error (h : x s = .error e t) (f : α → EStateM ε σ β) :
    (x >>= f) s = .error e t := by
  change EStateM.bind x f s = .error e t
  unfold EStateM.bind
  rw [h]

theorem tryCatch_of_ok (h : x s = .ok a t) (handle : ε → EStateM ε σ α) :
    tryCatch x handle s = .ok a t := by
  change EStateM.tryCatch x handle s = .ok a t
  unfold EStateM.tryCatch
  rw [h]

theorem tryCatch_of_error (h : x s = .error e t) (handle : ε → EStateM ε σ α) :
    tryCatch x handle s = handle e t := by
  change EStateM.tryCatch x handle s = handle e t
  unfold EStateM.tryCatch
  rw [h]
  rfl

def final : EStateM.Result ε σ α → σ
  | .ok _ s => s
  | .error _ s => s

@[simp] theorem final_ok : final (.ok a s : EStateM.Result ε σ α) = s := rfl

@[simp] theorem final_error : final (.error e s : EStateM.Result ε σ α) = s := rfl

def Keeps (I : σ → Prop) (x : EStateM ε σ α) : Prop := ∀ s, I s → I (final (x s))

theorem Keeps.bind (hx : Keeps I x)
    (hf : ∀ a, Keeps I (f a)) : Keeps I (x >>= f) := by
  intro s hs
  have hfinal := hx s hs
  cases hres : x s with
  | ok a t =>
    rw [hres] at hfinal
    rw [bind_of_ok hres]
    exact hf a t hfinal
  | error e t =>
    rw [hres] at hfinal
    rw [bind_of_error hres]
    exact hfinal

theorem Keeps.pure (a : α) : Keeps I (Pure.pure a : EStateM ε σ α) := by
  intro s hs
  exact hs

theorem Keeps.get : Keeps I (MonadState.get : EStateM ε σ σ) := by
  intro s hs
  exact hs

theorem Keeps.throw (e : ε) : Keeps I (MonadExcept.throw e : EStateM ε σ α) := by
  intro s hs
  exact hs

theorem Keeps.forM {l : List α} (hf : ∀ a ∈ l, Keeps I (f a)) :
    Keeps I (l.forM f) := by
  induction l with
  | nil => exact Keeps.pure ()
  | cons a l ih =>
    apply Keeps.bind
    · exact hf a (by simp)
    · intro _
      exact ih fun b hb => hf b (by simp [hb])

end Mosbench.Raising
