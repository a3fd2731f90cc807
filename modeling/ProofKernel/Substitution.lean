import ProofKernel.Fresh
import ProofKernel.Scope
import ProofKernel.Term.Names
import ProofKernel.Term.Node

/-!
# Substitution without capture

* `Naming`: the state of a substitution, the names in use and the supplies of names and nodes;
* `Substitution.draft?`: the term with nodes put in for free names; a binder whose name is free in
  one of them is renamed where something changes under it;
* `Substitution.apply`: the simultaneous substitution of several names;
* `Node.decapture`: the term with every binder renamed whose name is free in another term.

Parts that a substitution does not touch stay the very same nodes.
-/

namespace ProofKernel

/-- The names that fresh names must avoid, and the supplies of names and of nodes. -/
structure Naming where
  used : List Name
  names : NameSupply
  nodes : Nat

/-- Computations that draw fresh names. -/
abbrev Rename := StateM Naming

/-- A new binder with a fresh name built on `name`. -/
def freshAtom (name : Name) : Rename (Atom Nat) := fun s =>
  let (fresh, names) := s.names.fresh name s.used
  (⟨s.nodes, fresh, none⟩, ⟨fresh :: s.used, names, s.nodes + 1⟩)

/-- Runs a computation with its own names in use, and makes its draft. -/
def Rename.build (names : NameSupply) (used : List Name) (m : Node) (draft : Rename (Option Draft)) :
    Build (Node × NameSupply) := fun nodes =>
  let (draft, s) := draft.run ⟨used, names, nodes⟩
  let (m, nodes) := (Draft.buildOr m draft).run s.nodes
  ((m, s.names), nodes)

/-! ## Renaming one name -/

/-- The term with the free occurrences of a name replaced by an atom. -/
def Node.relabel? (name : Name) (new : Atom Nat) : Node → Option Draft
  | .var a => if a.name = name then some (.keep (.var new)) else none
  | .app _ f x => Draft.call? f x (relabel? name new f) (relabel? name new x)
  | .abs _ b body => if b.name = name then none else (relabel? name new body).map (.abs b)

/-- The draft with the free occurrences of a name replaced by an atom; what was put in stays. -/
def Draft.relabel (name : Name) (new : Atom Nat) : Draft → Draft
  | .keep m => (Node.relabel? name new m).getD (.keep m)
  | .slot m => .slot m
  | .app f x => .app (f.relabel name new) (x.relabel name new)
  | .abs b body => if b.name = name then .abs b body else .abs b (body.relabel name new)

/-! ## Substituting -/

/-- Names with the nodes to put in for them; the first node of a name counts. -/
abbrev Substitution := List (Name × Node)

namespace Substitution

/-- Whether a name is to be replaced by a leaf of the same name. -/
def isIdle (entry : Name × Node) : Bool := entry.2.isNamed entry.1

/-- The names free in the nodes that are put in. -/
def freeNames (σ : Substitution) : List Name := σ.flatMap fun entry => entry.2.freeNames

/-- The names that occur in the nodes that are put in. -/
def allNames (σ : Substitution) : List Name := σ.flatMap fun entry => entry.2.allNames

/-- The term with nodes put in for its free names, if it has such names. `captured` are the names
that no binder around a node put in may have. -/
def draft? (captured : List Name) : Node → Substitution → Rename (Option Draft)
  | .var a, σ => return (Scope.lookup? σ a.name).map .slot
  | .app _ f x, σ => do
    let f' ← draft? captured f σ
    let x' ← draft? captured x σ
    return Draft.call? f x f' x'
  | .abs _ b body, σ => do
    match ← draft? captured body (σ.filter fun entry => entry.1 ≠ b.name) with
    | none => return none
    | some body =>
      if captured.contains b.name then
        let fresh ← freshAtom b.name
        return some (.abs fresh (body.relabel b.name fresh))
      else return some (.abs b body)

/-- The simultaneous substitution of several names. -/
def apply (σ : Substitution) (names : NameSupply) (target : Node) : Build (Node × NameSupply) :=
  let active : Substitution := σ.filter fun entry => !isIdle entry
  Rename.build names (target.allNames ++ active.allNames) target
    (draft? active.freeNames target active)

end Substitution

/-! ## Renaming binders -/

/-- The term with every binder renamed whose name is among the given ones. The scope holds the new
binders. -/
def Node.decapture? (captured : List Name) : Node → Scope (Atom Nat) → Rename (Option Draft)
  | .var a, scope => return (scope.lookup? a.name).map fun b => .keep (.var b)
  | .app _ f x, scope => do
    let f' ← decapture? captured f scope
    let x' ← decapture? captured x scope
    return Draft.call? f x f' x'
  | .abs _ b body, scope => do
    if captured.contains b.name then
      let fresh ← freshAtom b.name
      let body' ← decapture? captured body ((b.name, fresh) :: scope)
      return some (.abs fresh (body'.getD (.keep body)))
    else
      return (← decapture? captured body scope).map (.abs b)

/-- The term with every binder renamed whose name is free in the replacement. -/
def Node.decapture (replacement : Node) (names : NameSupply) (target : Node) :
    Build (Node × NameSupply) :=
  Rename.build names (target.allNames ++ replacement.allNames) target
    (target.decapture? replacement.freeNames [])

end ProofKernel
