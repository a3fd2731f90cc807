import Std.Data.ExtTreeSet
import ProofKernel.Scope
import ProofKernel.Term.Names

/-!
# Sets of names

The names of a term, put into a set one after the other on a walk through it.

* `NameSet`: sets of names, which list them in the order of their characters;
* `Term.addFreeNames`, `Term.freeNameSet`: the names that occur unbound; the walk keeps a frame for
  each binder around it;
* `Term.addNames`, `Term.nameSet`: the names that occur anywhere, binders included.
-/

namespace ProofKernel

/-- Sets of names. Two sets are equal if they have the same names, however they came to have them. -/
abbrev NameSet := Std.ExtTreeSet Name

namespace Term

variable {ι : Type}

/-- The names with those that occur unbound in a term under binders. -/
def addFreeNames (names : NameSet) (scope : Scope Unit) : Term ι → NameSet
  | .var a => if (scope.lookup? a.name).isNone then names.insert a.name else names
  | .app _ f x => x.addFreeNames (f.addFreeNames names scope) scope
  | .abs _ b body => body.addFreeNames names ((b.name, ()) :: scope)

/-- The set of the names that occur unbound, constants included. -/
def freeNameSet (m : Term ι) : NameSet := m.addFreeNames ∅ []

/-- The names with those that occur anywhere in a term, binders included. -/
def addNames (names : NameSet) : Term ι → NameSet
  | .var a => names.insert a.name
  | .app _ f x => x.addNames (f.addNames names)
  | .abs _ b body => body.addNames (names.insert b.name)

/-- The set of the names that occur anywhere, binders included. -/
def nameSet (m : Term ι) : NameSet := m.addNames ∅

end Term

end ProofKernel
