import ProofKernel.Scope
import ProofKernel.Term.Names
import ProofKernel.Term.Node

/-!
# Normal forms

The normal form of a term has its binders named `$1`, `$2`, … in the order in which they are met, so
that terms that differ in bound names only have equal normal forms. The numbers begin after the
largest one of a free name of this form.

* `Node.normalStart`: the largest number of a free name `$k`;
* `Node.normalDraft`: the term with its binders numbered;
* `Node.normalized?`: the normal form; `none` where its numbers would take more than 64 bits.
-/

namespace ProofKernel.Node

/-- The largest number that 64 bits hold. -/
def numberLimit : Nat := wordSize - 1

/-- The number of a name that is a dollar sign followed by digits. Numbers that take more than 64
bits do not count. -/
def numberOf? (name : Name) : Option Nat :=
  match name.toList with
  | '$' :: cs => (Name.natural? cs).filter (· ≤ numberLimit)
  | _ => none

/-- The largest number of a free name of the form `$k`, or zero. -/
def normalStart (m : Node) : Nat := (m.freeNames.filterMap numberOf?).foldl max 0

/-- The name of the binder with the given number. -/
def numberedName (k : Nat) : Name := "$" ++ toString k

/-- The term with new binders, numbered after `counter` in the order in which they are met. The
scope holds the new binders. All calls are made anew. -/
def normalDraft : Node → Scope (Atom Nat) → (counter : Nat) → Build (Draft × Nat)
  | .var a, scope, counter => return (.keep (.var ((scope.lookup? a.name).getD a)), counter)
  | .app _ f x, scope, counter => do
    let (f, counter) ← normalDraft f scope counter
    let (x, counter) ← normalDraft x scope counter
    return (.app f x, counter)
  | .abs _ b body, scope, counter => do
    let fresh ← newAtom (Atom.plain (numberedName (counter + 1)))
    let (body, counter) ← normalDraft body ((b.name, fresh) :: scope) (counter + 1)
    return (.abs fresh body, counter)

/-- The term with its binders numbered. -/
def normalized (m : Node) : Build Node := do
  let (draft, _) ← normalDraft m [] m.normalStart
  draft.build

/-- The term with its binders numbered, where the last number takes no more than 64 bits. -/
def normalized? (m : Node) : Build (Option Node) := do
  if m.normalStart + m.binders ≤ numberLimit then return some (← m.normalized) else return none

end ProofKernel.Node
