import ProofKernel.Term.Basic

/-!
# The names of a term

* `Term.freeNames`: the names that occur unbound, constants included;
* `Term.allNames`: the names that occur anywhere, binders included;
* `Term.hasFree`: whether a name occurs unbound.

Lists of names hold a name as often as it occurs; `Name.sorted` shows them as a set.
-/

namespace ProofKernel.Term

variable {ι : Type}

/-- The names that occur unbound, constants included. -/
def freeNames : Term ι → List Name
  | .var a => [a.name]
  | .app _ f x => f.freeNames ++ x.freeNames
  | .abs _ b body => body.freeNames.filter (· ≠ b.name)

/-- The logic variables that occur unbound. -/
def freeVariables (m : Term ι) : List Name := m.freeNames.filter Name.isVariable

/-- The names that occur anywhere, binders included. -/
def allNames : Term ι → List Name
  | .var a => [a.name]
  | .app _ f x => f.allNames ++ x.allNames
  | .abs _ b body => b.name :: body.allNames

/-- The number of abstractions. -/
def binders : Term ι → Nat
  | .var _ => 0
  | .app _ f x => f.binders + x.binders
  | .abs _ _ body => body.binders + 1

/-- Whether the name occurs unbound. -/
def hasFree (name : Name) : Term ι → Bool
  | .var a => a.name == name
  | .app _ f x => f.hasFree name || x.hasFree name
  | .abs _ b body => b.name != name && body.hasFree name

end ProofKernel.Term
