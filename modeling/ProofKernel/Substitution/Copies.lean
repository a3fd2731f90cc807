import ProofKernel.Substitution

/-!
# Substitution with copies

The substitution of several names on nodes that are told apart by their numbers alone. Each node that
is put in gets a new top node, its copy, so that what was put in can be told from the parts of the
target. Copies are put in for the free names; where a binder is renamed after that, a pass over its
body leaves the copies alone; and a last pass puts the nodes themselves in place of their copies. All
three passes give back a node whose parts are still the same nodes.

* `Node.isSame`: whether two nodes are one and the same;
* `Node.relabelAround`: the term with a name replaced outside the copies;
* `Node.restore`: the term with nodes in place of their copies;
* `Substitution.insert`: the term with copies put in for its free names;
* `Substitution.applyWithCopies`: the simultaneous substitution of several names.
-/

namespace ProofKernel

namespace Node

/-- Whether two nodes are one and the same. -/
def isSame (m n : Node) : Bool := m.root == n.root

/-- The call `m` of `f` and `x` if these parts are what they were, else a new call. -/
def callAgain (m f x f' x' : Node) : Build Node :=
  if f'.isSame f && x'.isSame x then return m else newApp f' x'

/-- The abstraction `m` over `body` if this part is what it was, else a new abstraction. -/
def absAgain (m : Node) (b : Atom Nat) (body body' : Node) : Build Node :=
  if body'.isSame body then return m else newAbs b body'

/-- The term with the free occurrences of a name replaced by an atom. Copies are left alone. -/
def relabelAround (copies : List Node) (name : Name) (new : Atom Nat) (m : Node) : Build Node :=
  if copies.any m.isSame then return m
  else match m with
    | .var a => return .var (if a.name = name then new else a)
    | .app t f x => do
      let f' ← relabelAround copies name new f
      let x' ← relabelAround copies name new x
      callAgain (.app t f x) f x f' x'
    | .abs t b body =>
      if b.name = name then return .abs t b body
      else do
        let body' ← relabelAround copies name new body
        absAgain (.abs t b body) b body body'

/-- The node that a node is the copy of. -/
def original? (copies : List (Node × Node)) (m : Node) : Option Node :=
  (copies.find? fun pair => m.isSame pair.1).map (·.2)

/-- The term with nodes in place of their copies. Nothing is replaced in what is put back. -/
def restore (copies : List (Node × Node)) (m : Node) : Build Node :=
  match original? copies m with
  | some n => return n
  | none => match m with
    | .var a => return .var a
    | .app t f x => do
      let f' ← restore copies f
      let x' ← restore copies x
      callAgain (.app t f x) f x f' x'
    | .abs t b body => do
      let body' ← restore copies body
      absAgain (.abs t b body) b body body'

end Node

/-- A computation that makes nodes, among names in use. -/
def Rename.ofBuild {β : Type} (m : Build β) : Rename β := fun s =>
  let (b, nodes) := m.run s.nodes
  (b, { s with nodes := nodes })

namespace Substitution

/-- The names with copies of their nodes. -/
def dupAll : Substitution → Build Substitution
  | [] => return []
  | (name, m) :: σ => do
    let copy ← m.dup
    let copies ← dupAll σ
    return (name, copy) :: copies

/-- The term with copies put in for its free names. `captured` are the names that no binder around a
copy may have; `active` are the copies for the names that are not bound around the term. -/
def insert (copies : List Node) (captured : List Name) : Node → (active : Substitution) → Rename Node
  | .var a, active => return (Scope.lookup? active a.name).getD (.var a)
  | .app t f x, active => do
    let f' ← insert copies captured f active
    let x' ← insert copies captured x active
    Rename.ofBuild (Node.callAgain (.app t f x) f x f' x')
  | .abs t b body, active => do
    let active := active.filter fun entry => entry.1 ≠ b.name
    if active.isEmpty then return .abs t b body
    let body' ← insert copies captured body active
    if body'.isSame body then return .abs t b body
    if captured.contains b.name then
      let fresh ← freshAtom b.name
      let body' ← Rename.ofBuild (Node.relabelAround copies b.name fresh body')
      Rename.ofBuild (Node.newAbs fresh body')
    else Rename.ofBuild (Node.newAbs b body')

/-- The simultaneous substitution of several names. -/
def applyWithCopies (σ : Substitution) (names : NameSupply) (target : Node) :
    Build (Node × NameSupply) := do
  let active : Substitution := σ.filter fun entry => !isIdle entry
  if active.isEmpty then return (target, names)
  let copies ← dupAll active
  fun nodes =>
    let (m, s) := (insert (copies.map (·.2)) active.freeNames target copies).run
      ⟨target.allNames ++ active.allNames, names, nodes⟩
    let (m, nodes) := (Node.restore ((copies.map (·.2)).zip (active.map (·.2))) m).run s.nodes
    ((m, s.names), nodes)

end Substitution

end ProofKernel
