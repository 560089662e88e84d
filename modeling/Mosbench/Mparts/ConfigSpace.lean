import Mosbench.Lib.Fallible
import Mathlib.Data.Finset.Card
import Mathlib.Data.Finset.Union
import Mathlib.Data.List.AList

/-!
Configuration spaces of the benchmark driver (configspace.py). A space is a list of
terms, a term is a list of assignments of variables to values. The variable map of a
space has the values that each variable takes, so that variables with one value can be
left out of the paths of the results.

Sets of Python are finite sets, dictionaries are association lists. The order of their
entries only decides which name is in the message of an error. The set of terms that is built on
demand is not kept; it would be the same one again.
-/
namespace Mosbench.Mparts

abbrev Name := List Char

/-- What can be raised. TypeError, IndexError, KeyError and AssertionError come from the
interpreter, the others are a ValueError. -/
inductive Error
  | startsWithUnderscore (name : Name)
  | mixesAssignments (name sname : Name)
  | duplicateConfiguration
  | multipleAssignments (var : Name)
  | typeError
  | indexError
  | keyError
  | assertion
  deriving DecidableEq

@[ext] structure Atom (V : Type) where
  name : Name
  val : V
  deriving DecidableEq

/-- A product of assignments (ConfigTerm). -/
abbrev Term (V : Type) := List (Atom V)

/-- The variables with their values. `none` stands for NONCONST_NONCE. -/
abbrev Varmap (V : Type) := AList fun _ : Name => Finset (Option V)

namespace Term

def getLeftmostName (term : Term V) : Except Error Name :=
  match term with
  | [] => .error .indexError
  | atom :: _ => .ok atom.name

def names (term : Term V) : List Name := term.map Atom.name

end Term

section

variable [DecidableEq V]

def Varmap.values (varmap : Varmap V) (var : Name) : Finset (Option V) := (varmap.lookup var).getD ∅

/-- `varmap.setdefault(var, set()).update(vals)` -/
def Varmap.add (varmap : Varmap V) (var : Name) (vals : Finset (Option V)) : Varmap V :=
  varmap.insert var (varmap.values var ∪ vals)

/-- One turn of varmapUpdate. An overlap in a variable whose name is empty counts as false
and does not last. -/
def Varmap.updateEntry (p : Varmap V × Option Name) (entry : Sigma fun _ : Name => Finset (Option V)) :
    Varmap V × Option Name :=
  (Varmap.add p.1 entry.1 entry.2, if p.2.getD [] = [] ∧ entry.1 ∈ p.1 then some entry.1 else p.2)

/-- Add the entries of `other` and return a variable of both. -/
def varmapUpdate (varmap other : Varmap V) : Varmap V × Option Name := other.entries.foldl Varmap.updateEntry (varmap, none)

end

/-- A sum of terms. `termset` may be None. -/
structure ConfigSpace (V : Type) where raw ::
  terms : List (Term V)
  termset : Option (Finset (Term V))
  varmap : Varmap V
  mixed : Bool

abbrev Config (V : Type) := List (Name × V × Bool)

namespace ConfigSpace

def single (name : Name) (val : V) (nonConst : Bool) [DecidableEq V] : Except Error (ConfigSpace V) :=
  if name.head? = some '_' then .error (.startsWithUnderscore name)
  else .ok ⟨[[⟨name, val⟩]], none, .singleton name (if nonConst then {some val, none} else {some val}), false⟩

def zero : ConfigSpace V := ⟨[], none, ∅, false⟩

def unit : ConfigSpace V := ⟨[[]], none, ∅, false⟩

variable [DecidableEq V]

def init (terms : List (Term V)) (termset : Option (Finset (Term V))) (varmap : Varmap V) (mixed : Bool) :
    Except Error (ConfigSpace V) :=
  match termset with
  | none => .ok ⟨terms, none, varmap, mixed⟩
  | some set => if set.card = terms.length then .ok ⟨terms, some set, varmap, mixed⟩ else .error .assertion

def getTermset (space : ConfigSpace V) : Except Error (Finset (Term V)) :=
  match space.termset with
  | some set => .ok set
  | none => if space.terms.toFinset.card = space.terms.length then .ok space.terms.toFinset else .error .assertion

def iter (space : ConfigSpace V) : Except Error (List (Config V)) :=
  space.terms.mapM fun term => term.mapM fun atom =>
    match space.varmap.lookup atom.name with
    | none => .error .keyError
    | some vals => .ok (atom.name, atom.val, decide (vals.card = 1))

def checkLeftmost : Option Name → List (ConfigSpace V) → Except Error Unit
  | _, [] => .ok ()
  | name, summand :: summands =>
    match summand.terms with
    | [] => checkLeftmost name summands
    | term :: _ => do
      let sname ← term.getLeftmostName
      let name := name.getD sname
      if name ≠ sname then .error (.mixesAssignments name sname)
      else checkLeftmost (some name) summands

def unionTermset : Finset (Term V) → List (ConfigSpace V) → Except Error (Finset (Term V))
  | termset, [] => .ok termset
  | termset, summand :: summands => do
    let set ← summand.getTermset
    if termset ∩ set ≠ ∅ then .error .duplicateConfiguration
    else unionTermset (termset ∪ set) summands

def markLeftmost : List (Term V) → Varmap V → Except Error (Varmap V)
  | [], varmap => .ok varmap
  | term :: terms, varmap => do
    let name ← term.getLeftmostName
    if name ∈ varmap then markLeftmost terms (Varmap.add varmap name {none})
    else .error .keyError

def unionVarmap (mixed : Bool) : Varmap V → List (ConfigSpace V) → Except Error (Varmap V)
  | varmap, [] => .ok varmap
  | varmap, summand :: summands => do
    let varmap := (varmapUpdate varmap summand.varmap).1
    let varmap ← (if mixed then markLeftmost summand.terms varmap else .ok varmap)
    unionVarmap mixed varmap summands

def anyMixed (mixed : Bool) (summands : List (ConfigSpace V)) : Bool := mixed || summands.any fun s => s.mixed

/-- The method needs at least one summand to be called on. -/
def union (mixed : Bool) (summands : List (ConfigSpace V)) : Except Error (ConfigSpace V) :=
  if summands.isEmpty then .error .typeError
  else do
    (if anyMixed mixed summands then .ok () else checkLeftmost none summands)
    let termset ← unionTermset ∅ summands
    let varmap ← unionVarmap (anyMixed mixed summands) ∅ summands
    init (summands.flatMap fun s => s.terms) (some termset) varmap (anyMixed mixed summands)

def sum (a b : ConfigSpace V) : Except Error (ConfigSpace V) := union false [a, b]

def mk (nonConst : Bool) (name : Name) : V ⊕ List V → Except Error (ConfigSpace V)
  | .inl val => single name val nonConst
  | .inr vals => do
    let terms ← vals.mapM fun x => single name x nonConst
    union false terms

def product (a b : ConfigSpace V) : Except Error (ConfigSpace V) :=
  let (varmap, overlap) := varmapUpdate a.varmap b.varmap
  if overlap.getD [] ≠ [] then .error (.multipleAssignments (overlap.getD []))
  else init (a.terms.flatMap fun ta => b.terms.map fun tb => ta ++ tb) none varmap false

def newAtoms (left right : Term V) : Term V := right.filter fun atom => atom.name ∉ left.names

def mergeTerm (left : Term V) : List (Term V) → Finset (Term V) → Varmap V → List (Term V) × Varmap V
  | [], _, varmap => ([], varmap)
  | right :: rights, newTermSet, varmap =>
    let newTerm := left ++ newAtoms left right
    if newTerm ∈ newTermSet then mergeTerm left rights newTermSet varmap
    else
      let varmap := (newAtoms left right).foldl (fun varmap atom => Varmap.add varmap atom.name {some atom.val}) varmap
      let (terms, varmap) := mergeTerm left rights (insert newTerm newTermSet) varmap
      (newTerm :: terms, varmap)

def mergeTerms : List (Term V) → List (Term V) → Varmap V → List (Term V) × Varmap V
  | [], _, varmap => ([], varmap)
  | left :: lefts, rights, varmap =>
    let (terms, varmap) := mergeTerm left rights ∅ varmap
    let (terms', varmap) := mergeTerms lefts rights varmap
    (terms ++ terms', varmap)

def merge (a b : ConfigSpace V) : ConfigSpace V :=
  let (terms, varmap) := mergeTerms a.terms b.terms a.varmap
  ⟨terms, none, varmap, false⟩

end ConfigSpace

end Mosbench.Mparts
