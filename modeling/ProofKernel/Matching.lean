import ProofKernel.Scope
import ProofKernel.Substitution

/-!
# Matching

* `Term.alike`: equality of terms up to the names of their binders;
* `Assignment`: nodes for names, in the order in which they were found;
* `Node.matchSchema?`: the assignment for the variables of a schema that makes it a given term;
* `Node.matchRenaming?`: the same where the assignment is an injective renaming of variables.
-/

namespace ProofKernel

/-- Pairs of names bound at corresponding places, innermost first. -/
abbrev Correspondence := Scope Name

/-- Two names correspond if the innermost pair that has either of them has both, or if no pair has
either and they are one name. -/
def Correspondence.relates (c : Correspondence) (x y : Name) : Bool :=
  match c.find? fun pair => pair.1 = x || pair.2 = y with
  | some pair => pair.1 = x && pair.2 = y
  | none => x = y

/-- Equality up to the names of binders, which correspond as given. -/
def Term.alikeIn {ι : Type} [DecidableEq ι] (c : Correspondence) (m n : Term ι) : Bool :=
  if c = [] ∧ m = n then true
  else match m, n with
    | .var a, .var b => c.relates a.name b.name
    | .app _ f x, .app _ g y => f.alikeIn c g && x.alikeIn c y
    | .abs _ a body, .abs _ b body' => body.alikeIn ((a.name, b.name) :: c) body'
    | _, _ => false

/-- Equality up to the names of binders. -/
def Term.alike {ι : Type} [DecidableEq ι] (m n : Term ι) : Bool := m.alikeIn [] n

/-! ## Assignments -/

/-- Nodes for names, each name once, in the order in which they were found. -/
structure Assignment where
  entries : List (Name × Node)

namespace Assignment

/-- The assignment without names. -/
def empty : Assignment := ⟨[]⟩

/-- The node of a name. -/
def get? (s : Assignment) (name : Name) : Option Node := Scope.lookup? s.entries name

/-- The assignment with a node for a name that has none yet. -/
def insert (s : Assignment) (name : Name) (m : Node) : Assignment :=
  match s.get? name with
  | some _ => s
  | none => ⟨s.entries ++ [(name, m)]⟩

/-- The assignment of a list; the first node of a name counts. -/
def ofList (entries : List (Name × Node)) : Assignment :=
  entries.foldl (fun s entry => s.insert entry.1 entry.2) empty

/-- The schema with each variable replaced by its node. -/
def instantiate (s : Assignment) (names : NameSupply) (schema : Node) : Build (Node × NameSupply) :=
  Substitution.apply s.entries names schema

end Assignment

/-! ## Schemas -/

namespace Node

/-- Extends an assignment so that the schema becomes the target. Constants match themselves only. A
variable stands for no term with a name that is bound around it in the target. -/
def matchIn? (c : Correspondence) (schema target : Node) (s : Assignment) : Option Assignment :=
  match schema with
  | .var v =>
    if v.name.isConstant || c.binds v.name then
      match target with
      | .var w => if c.relates v.name w.name then some s else none
      | _ => none
    else if c.any fun pair => target.hasFree pair.2 then none
    else match s.get? v.name with
      | some existing => if existing.alike target then some s else none
      | none => some (s.insert v.name target)
  | .app _ f x =>
    match target with
    | .app _ g y => do matchIn? c x y (← matchIn? c f g s)
    | _ => none
  | .abs _ a body =>
    match target with
    | .abs _ b body' => matchIn? ((a.name, b.name) :: c) body body' s
    | _ => none

/-- The assignment for the free variables of the schema that makes it the target. -/
def matchSchema? (schema target : Node) : Option Assignment := matchIn? [] schema target .empty

/-- Whether the nodes of an assignment are variables, no two of one name. -/
def isRenaming (ms : List Node) : Bool :=
  ms.all Term.isVariable && decide (ms.map Term.name?).Nodup

/-- The renaming of the free variables of `m` that makes it `n`: a match whose nodes are distinct
variables. -/
def matchRenaming? (m n : Node) : Option Assignment :=
  (matchSchema? m n).filter fun s => isRenaming (s.entries.map (·.2))

end Node

end ProofKernel
