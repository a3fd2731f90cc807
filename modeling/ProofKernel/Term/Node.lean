import ProofKernel.Term.Basic

/-!
# Terms with an identity

A node is a term whose tags are numbers. Every new node gets a number of its own, so that two nodes
are the same one exactly if they are equal with their tags. A transformation that changes nothing
gives its argument back.

* `Term.root`: the number of a node;
* `Build`: computations that make new nodes;
* `Node.ofPlain`: a term with a new node for each call, abstraction and atom;
* `Node.dup`, `Node.copy`: a new top node over the same parts, and a copy with new nodes only;
* `Draft`: a term under construction out of nodes that are kept and nodes that are still to be made.
-/

namespace ProofKernel

/-- A term whose tags tell its nodes apart. An atom may be the node of a leaf and of a binder. -/
abbrev Node := Term Nat

/-- The number of the top node. -/
def Term.root : Node → Nat
  | .var a => a.tag
  | .app tag _ _ => tag
  | .abs tag _ _ => tag

/-- Computations that make new nodes; the state is the number of nodes made so far. -/
abbrev Build := StateM Nat

/-- A number that no node has yet. -/
def newTag : Build Nat := fun n => (n, n + 1)

namespace Node

/-- A new leaf or binder. -/
def newAtom {ι : Type} (a : Atom ι) : Build (Atom Nat) := do return a.retag (← newTag)

/-- A new call. -/
def newApp (fn arg : Node) : Build Node := do return .app (← newTag) fn arg

/-- A new abstraction. -/
def newAbs (bound : Atom Nat) (body : Node) : Build Node := do return .abs (← newTag) bound body

/-- The term with new nodes throughout. -/
def ofPlain {ι : Type} : Term ι → Build Node
  | .var a => do return .var (← newAtom a)
  | .app _ f x => do
    let f ← ofPlain f
    let x ← ofPlain x
    newApp f x
  | .abs _ b body => do
    let b ← newAtom b
    let body ← ofPlain body
    newAbs b body

/-- A new top node over the same parts. -/
def dup : Node → Build Node
  | .var a => do return .var (← newAtom a)
  | .app _ f x => newApp f x
  | .abs _ b body => newAbs b body

/-- A copy that has no node in common with the term. -/
def copy (m : Node) : Build Node := ofPlain m

end Node

theorem Term.root_dup (m : Node) (nodes : Nat) : (m.dup nodes).1.root = nodes := by
  cases m <;> rfl

/-- A term under construction. -/
inductive Draft where
  /-- A node that is kept. -/
  | keep (m : Node)
  /-- A node put in for a name. -/
  | slot (m : Node)
  /-- A call to be made. -/
  | app (fn arg : Draft)
  /-- An abstraction to be made. -/
  | abs (bound : Atom Nat) (body : Draft)

namespace Draft

/-- Makes the calls and abstractions of the draft. -/
def build : Draft → Build Node
  | .keep m => return m
  | .slot m => return m
  | .app f x => do
    let f ← f.build
    let x ← x.build
    Node.newApp f x
  | .abs b body => do
    let body ← body.build
    Node.newAbs b body

/-- The call of `f` and `x` with changed parts, if a part has changed. -/
def call? (f x : Node) (f' x' : Option Draft) : Option Draft :=
  match f', x' with
  | none, none => none
  | f', x' => some (.app (f'.getD (.keep f)) (x'.getD (.keep x)))

/-- The node of a draft, or the given node where nothing has changed. -/
def buildOr (m : Node) : Option Draft → Build Node
  | none => return m
  | some d => d.build

end Draft

end ProofKernel
