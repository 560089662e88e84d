import Mathlib.Data.List.Basic

/-!
Iterators as a function that gives the next element and the state behind it. Both the
function and what is done with an element may fail. `Yields next s l` says that the calls
of `next` from state `s` on give the elements of `l` and then report the end.
-/
namespace Mosbench.Iterator

open Option

variable {S E A : Type}

inductive Yields (next : S → Option (Option (E × S))) : S → List E → Prop
  | nil {s : S} (h : next s = some none) : Yields next s []
  | cons {s s' : S} {e : E} {l : List E} (h : next s = some (some (e, s'))) (rest : Yields next s' l) :
      Yields next s (e :: l)

def forEach (next : S → Option (Option (E × S))) (body : A → E → Option A) : ℕ → S → A → Option A
  | 0, _, _ => none
  | fuel + 1, s, a =>
    (next s).bind fun e =>
    match e with
    | none => some a
    | some (e, s) => (body a e).bind (forEach next body fuel s)

def toList (next : S → Option (Option (E × S))) (fuel : ℕ) (s : S) : Option (List E) :=
  forEach next (fun l e => some (l ++ [e])) fuel s []

variable {next : S → Option (Option (E × S))}

theorem Yields.forEach_eq (h : Yields next s l) (body : A → E → Option A) (hfuel : l.length < fuel)
    (a : A) : forEach next body fuel s a = l.foldlM body a := by
  induction h generalizing fuel a with
  | nil h =>
    cases fuel with
    | zero => simp at hfuel
    | succ fuel => rw [forEach, h, bind_some, List.foldlM_nil, pure_def]
  | cons h _ ih =>
    cases fuel with
    | zero => simp at hfuel
    | succ fuel =>
      rw [forEach, h, bind_some, List.foldlM_cons, bind_eq_bind]
      exact congrArg (Option.bind _) (funext fun a => ih (by simpa using hfuel) a)

theorem foldlM_append (l acc : List E) : l.foldlM (fun l e => some (l ++ [e])) acc = some (acc ++ l) := by
  induction l generalizing acc with
  | nil => simp
  | cons e l ih => simp [ih]

theorem Yields.toList_eq (h : Yields next s l) (hfuel : l.length < fuel) :
    toList next fuel s = some l := by
  rw [toList, h.forEach_eq _ hfuel, foldlM_append, List.nil_append]

end Mosbench.Iterator
