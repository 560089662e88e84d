import Mathlib.Logic.Relation

/-!
Labelled transition systems given by a guarded, executable step function. A run records the state
before each step together with its label, and every step of it meets a side condition on that
pair. Safety arguments go through `Reachable.invariant`: an invariant holds initially and every
allowed step keeps it.
-/
namespace Mosbench.Transition

open List

/-- `step s a` is `none` when the label `a` is not enabled in `s`. -/
structure System (σ α : Type*) where
  initial : σ → Prop
  step : σ → α → Option σ

variable {σ α : Type*}

/-- The trace lists the pre-state and the label of each step, oldest first. -/
inductive Run (M : System σ α) (ok : σ → α → Prop) : σ → List (σ × α) → σ → Prop
  | nil (s : σ) : Run M ok s [] s
  | snoc {s t u : σ} {trace : List (σ × α)} {a : α} :
      Run M ok s trace t → ok t a → M.step t a = some u →
      Run M ok s (trace ++ [(t, a)]) u

def Reachable (M : System σ α) (ok : σ → α → Prop) (s : σ) : Prop :=
  ∃ s₀ trace, M.initial s₀ ∧ Run M ok s₀ trace s

namespace Run

theorem append (h : Run M ok s tr t)
    (h' : Run M ok t tr' u) : Run M ok s (tr ++ tr') u := by
  induction h' with
  | nil => simpa using h
  | snoc _ hok hstep ih =>
    rw [← append_assoc]
    exact Run.snoc ih hok hstep

theorem mono (hmono : ∀ s a, ok s a → ok' s a)
    (h : Run M ok s tr t) : Run M ok' s tr t := by
  induction h with
  | nil => exact Run.nil _
  | snoc _ hok hstep ih => exact Run.snoc ih (hmono _ _ hok) hstep

theorem single (hok : ok s a) (hstep : M.step s a = some t) :
    Run M ok s [(s, a)] t :=
  Run.snoc (Run.nil s) hok hstep

theorem length_le {I : σ → Prop} (f : σ → Nat) (hstep : ∀ v a w, I v → ok v a → M.step v a = some w → I w ∧ f w < f v)
    {tr : List (σ × α)} (h : Run M ok s tr t) (hs : I s) : tr.length + f t ≤ f s := by
  suffices hboth : I t ∧ tr.length + f t ≤ f s from hboth.2
  induction h with
  | nil => exact ⟨hs, by simp⟩
  | snoc _ hok hone ih =>
    obtain ⟨hI, hle⟩ := ih
    obtain ⟨hI', hlt⟩ := hstep _ _ _ hI hok hone
    refine ⟨hI', ?_⟩
    rw [length_append, length_singleton]
    omega

/-- An invariant that is kept by the steps with `C` and gives them `D`: when every
step of a run has `C`, every step has `D`. -/
theorem guarantee {I : σ → Prop} {C D : σ → α → Prop}
    (hstep : ∀ v a w, I v → ok v a → C v a → M.step v a = some w → D v a ∧ I w)
    (h : Run M ok s tr t) (hs : I s)
    (hC : ∀ e ∈ tr, C e.1 e.2) : (∀ e ∈ tr, D e.1 e.2) ∧ I t := by
  induction h with
  | nil => exact ⟨by simp, hs⟩
  | @snoc u v tr a hprev hok hone ih =>
    obtain ⟨hD, hI⟩ := ih fun e he => hC e (mem_append_left _ he)
    obtain ⟨hlast, hv⟩ := hstep _ a _ hI hok (hC (_, a) (by simp)) hone
    refine ⟨?_, hv⟩
    intro e he
    rcases mem_append.mp he with he | he
    · exact hD e he
    · rw [mem_singleton.mp he]
      exact hlast

end Run

namespace Reachable

variable {M : System σ α}

theorem of_initial (h : M.initial s) : Reachable M ok s :=
  ⟨s, [], h, Run.nil s⟩

theorem step {s t : σ} {a : α} (h : Reachable M ok s) (hok : ok s a)
    (hstep : M.step s a = some t) : Reachable M ok t := by
  obtain ⟨s₀, trace, hinit, hrun⟩ := h
  exact ⟨s₀, _, hinit, Run.snoc hrun hok hstep⟩

theorem invariant {I : σ → Prop} (hinit : ∀ s, M.initial s → I s)
    (hstep : ∀ s a t, Reachable M ok s → I s → ok s a → M.step s a = some t → I t)
    {s : σ} (h : Reachable M ok s) : I s := by
  obtain ⟨s₀, trace, hs₀, hrun⟩ := h
  induction hrun with
  | nil => exact hinit _ hs₀
  | snoc hprev hok hone ih => exact hstep _ _ _ ⟨_, _, hs₀, hprev⟩ ih hok hone

theorem strengthen {I : σ → Prop} (hI : ∀ s, Reachable M ok s → I s)
    (h : Reachable M ok s) : Reachable M (fun s a => I s ∧ ok s a) s := by
  obtain ⟨s₀, trace, hs₀, hrun⟩ := h
  induction hrun with
  | nil => exact of_initial hs₀
  | snoc hprev hok hone ih => exact ih.step ⟨hI _ ⟨_, _, hs₀, hprev⟩, hok⟩ hone

theorem mono (hmono : ∀ s a, ok s a → ok' s a)
    (h : Reachable M ok s) : Reachable M ok' s := by
  obtain ⟨s₀, trace, hs₀, hrun⟩ := h
  exact ⟨s₀, trace, hs₀, hrun.mono hmono⟩

end Reachable

/-- Execute a list of labels; `none` when one is not enabled or not allowed. -/
def exec (M : System σ α) (ok : σ → α → Prop) [∀ s a, Decidable (ok s a)] :
    σ → List α → Option σ
  | s, [] => some s
  | s, a :: as => if ok s a then (M.step s a).bind fun t => exec M ok t as else none

theorem Reachable.exec [∀ s a, Decidable (ok s a)]
    (h : Reachable M ok s) (hexec : exec M ok s as = some t) :
    Reachable M ok t := by
  induction as generalizing s with
  | nil => exact Option.some.inj hexec ▸ h
  | cons a as ih =>
    simp only [Transition.exec] at hexec
    split at hexec
    · next hok =>
      obtain ⟨u, hu, hrest⟩ := Option.bind_eq_some_iff.mp hexec
      exact ih (h.step hok hu) hrest
    · cases hexec

theorem exec_rel {τ : Type*} (M : System σ α) (M' : System τ α) {R : σ → τ → Prop}
    (hstep : ∀ s t a, R s t → Option.Rel R (M.step s a) (M'.step t a)) {t : τ} (h : R s t) (as : List α) :
    Option.Rel R (exec M (fun _ _ => True) s as) (exec M' (fun _ _ => True) t as) := by
  induction as generalizing s t with
  | nil => exact .some h
  | cons a as ih =>
    have hrel := hstep s t a h
    simp only [exec, if_true]
    cases hs : M.step s a with
    | none =>
      cases ht : M'.step t a with
      | none => exact .none
      | some t' =>
        rw [hs, ht] at hrel
        cases hrel
    | some s' =>
      cases ht : M'.step t a with
      | none =>
        rw [hs, ht] at hrel
        cases hrel
      | some t' =>
        rw [hs, ht] at hrel
        cases hrel with
        | some h' => exact ih h'

theorem exists_reachable (M : System σ α) (ok : σ → α → Prop) [∀ s a, Decidable (ok s a)]
    (Q : σ → Prop) [DecidablePred Q] (as : List α) (hs : M.initial s)
    (h : (Transition.exec M ok s as).any (fun t => decide (Q t)) = true) :
    ∃ t, Reachable M ok t ∧ Q t := by
  obtain ⟨t, ht, hQ⟩ := (Option.any_eq_true _ _).mp h
  exact ⟨t, (Reachable.of_initial hs).exec ht, of_decide_eq_true hQ⟩

end Mosbench.Transition
