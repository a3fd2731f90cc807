import ProofKernel.Scope
import ProofKernel.SimpleType.Compact
import ProofKernel.SimpleType.Unify
import ProofKernel.Term.Names

/-!
# Type inference

The type variables of a run are numbered from one, and shown as `t1`, `t2`, …

* `TypeError`: why a term has no type, or a name cannot be declared or defined;
* `TypeEnv`: the declared types of constants, and definitions;
* `Inference`: the state of a run, the types of free and bound variables and the store;
* `inferWith`: the type of a term, given the types of constants;
* `TypeEnv.constantType`: a new instance of the type of a constant. A definition is read in the
  definitions that are older than itself;
* `TypeEnv.infer`: the type of a term, and the state after the run;
* `TypeEnv.declare`, `TypeEnv.define`: environments with one more name.
-/

namespace ProofKernel

/-- The text of the type variable with a number. -/
def typeLabel (n : Nat) : String := "t" ++ toString n

/-- Why a name cannot be defined. -/
inductive DefinitionFault where
  | isVariable
  | alreadyDefined
  | freeVariable (name : Name)
deriving DecidableEq, Repr

/-- The message of a fault. -/
def DefinitionFault.message : DefinitionFault → String
  | .isVariable => "a variable cannot be defined"
  | .alreadyDefined => "already defined"
  | .freeVariable name => s!"free variable `{name}`"

/-- Why a term has no type, or a name cannot be declared or defined. -/
inductive TypeError where
  | clash (c : TypeClash Nat)
  | unknownConstant (name : Name)
  | untyped (name : Name)
  | badDefinition (name : Name) (fault : DefinitionFault)
  | badType (e : TypeSyntaxError)

/-- The message of an error. -/
def TypeError.message : TypeError → String
  | .clash c => c.message typeLabel
  | .unknownConstant name => s!"cannot find type of constant `{name}`"
  | .untyped name => s!"no type for `{name}`"
  | .badDefinition name fault => s!"bad definition of `{name}`: {fault.message}"
  | .badType e => e.message

/-! ## Environments -/

/-- The declared types of constants, whose variables stand for any types, and definitions; the
newest come first. -/
structure TypeEnv where
  declared : List (Name × Ty Name)
  defined : List (Name × PlainTerm)

namespace TypeEnv

/-- The environment without names. -/
def empty : TypeEnv := ⟨[], []⟩

/-- The declared type of a constant. -/
def declared? (env : TypeEnv) (name : Name) : Option (Ty Name) := Scope.lookup? env.declared name

/-- The definition of a constant. -/
def definition? (env : TypeEnv) (name : Name) : Option PlainTerm := Scope.lookup? env.defined name

/-- Whether a name is declared or defined. -/
def knows (env : TypeEnv) (name : Name) : Bool :=
  (env.declared? name).isSome || (env.definition? name).isSome

/-- The constants of the logic and of real arithmetic. -/
def standard : TypeEnv :=
  let a : Ty Name := .var "A"
  let o : Ty Name := .truth
  let i : Ty Name := .individual
  let relation : Ty Name := .fn a (.fn a o)
  let operation : Ty Name := .fn a (.fn a a)
  let function : Ty Name := .fn a a
  let connective : Ty Name := .fn o (.fn o o)
  { defined := []
    declared :=
      [("T", o), ("F", o), ("=", relation), ("the", .fn (.fn a o) a), ("R", .fn i o)] ++
      ["!=", "<", "<=", ">", ">="].map (·, relation) ++
      ["+", "-", "*", "/", "**"].map (·, operation) ++
      ["neg", "recip", "sqrt", "abs", "sin", "cos", "tan", "arcsin", "arccos", "arctan", "ln",
        "log10"].map (·, function) ++
      [("pi", i), ("ee", i)] ++
      ["&&", "||", "-->"].map (·, connective) ++
      [("not", .fn o o)] }

end TypeEnv

/-! ## Runs -/

/-- The state of a run: the number of the next type variable, the types of the free variables met so
far, the types of the variables bound around the present term, and the bindings made. -/
structure Inference where
  next : Nat
  free : List (Name × Ty Nat)
  scope : Scope (Ty Nat)
  store : TypeStore Nat

namespace Inference

/-- The state before a run. -/
def start : Inference := ⟨1, [], [], []⟩

/-- The bindings made in a run, in the order in which they were made. -/
def trace (s : Inference) : List String := s.store.trace typeLabel

end Inference

/-- Computations of a run; the state stays where they fail. -/
abbrev Infer := ExceptT TypeError (StateM Inference)

namespace Infer

/-- A new type variable. -/
def newVar : Infer (Ty Nat) := fun s => (.ok (.var s.next), { s with next := s.next + 1 })

/-- The type of a free variable: the one it has in the run, or a new type variable. -/
def freeType (name : Name) : Infer (Ty Nat) := fun s =>
  (.ok (.var s.next), { s with next := s.next + 1, free := s.free ++ [(name, .var s.next)] })

/-- The type that a name has in the run, bound or free. -/
def known? (name : Name) : Infer (Option (Ty Nat)) := fun s =>
  (.ok ((s.scope.lookup? name).or (Scope.lookup? s.free name)), s)

/-- Makes two types equal. -/
def unify (a b : Ty Nat) : Infer Unit := fun s =>
  let (store, clash?) := s.store.unify a b
  (match clash? with
    | some c => .error (.clash c)
    | none => .ok (), { s with store := store })

/-- Runs a computation under a binder. -/
def under {β : Type} (name : Name) (t : Ty Nat) (m : Infer β) : Infer β := fun s =>
  let (r, s') := m.run { s with scope := (name, t) :: s.scope }
  (r, { s' with scope := s'.scope.tail })

/-- Runs a computation for a closed term, apart from the variables of the run. -/
def apart {β : Type} (m : Infer β) : Infer β := fun s =>
  let (r, s') := m.run { s with free := [], scope := [] }
  (r, { s' with free := s.free, scope := s.scope })

/-- An instance of a type, with a new type variable for each of its variables. -/
def instantiate (t : Ty Name) : Infer (Ty Nat) := fun s =>
  let names := t.vars.eraseDups
  (.ok (t.bind fun name => .var (s.next + names.idxOf name)),
    { s with next := s.next + names.length })

end Infer

/-- The type of a term, given the types of constants. Every call has a new type variable for its
result. -/
def inferWith {ι : Type} (constant : Name → Infer (Ty Nat)) : Term ι → Infer (Ty Nat)
  | .var a => do
    match ← Infer.known? a.name with
    | some t => return t
    | none => match a.literal? with
      | some (.int _) => return .individual
      | some (.str _) => throw (.untyped a.name)
      | none => if a.isVariable then Infer.freeType a.name else constant a.name
  | .app _ f x => do
    let fn ← inferWith constant f
    let arg ← inferWith constant x
    let result ← Infer.newVar
    Infer.unify (.fn arg result) fn
    return result
  | .abs _ b body => do
    let bound ← Infer.newVar
    let result ← Infer.under b.name bound (inferWith constant body)
    return .fn bound result

namespace TypeEnv

/-- A new instance of the type of a constant: of its declared type, or else the type of its
definition, whose constants are looked up among the older definitions. -/
def constantType (declared? : Name → Option (Ty Name)) :
    List (Name × PlainTerm) → Name → Infer (Ty Nat)
  | [], name => match declared? name with
    | some t => Infer.instantiate t
    | none => throw (.unknownConstant name)
  | (defined, definition) :: older, name => match declared? name with
    | some t => Infer.instantiate t
    | none =>
      if defined = name then Infer.apart (inferWith (constantType declared? older) definition)
      else constantType declared? older name

/-- The type of a term in a run. -/
def inferIn {ι : Type} (env : TypeEnv) (m : Term ι) : Infer (Ty Nat) :=
  inferWith (constantType env.declared? env.defined) m

/-- The type of a term, with the bindings made so far put in, and the state after the run. -/
def infer {ι : Type} (env : TypeEnv) (m : Term ι) (s : Inference) :
    Except TypeError (Ty Nat) × Inference :=
  let (r, s) := (env.inferIn m).run s
  (r.map s.store.expand, s)

/-- The environment with a declared constant, whose type is given in the compact form. -/
def declare (env : TypeEnv) (name : Name) (type : String) : Except TypeError TypeEnv :=
  match Ty.read type with
  | .ok t => .ok { env with declared := (name, t) :: env.declared }
  | .error e => .error (.badType e)

/-- Why a name cannot have a definition, whatever the types. -/
def definitionFault? (env : TypeEnv) (name : Name) (definition : PlainTerm) :
    Option DefinitionFault :=
  if name.isVariable then some .isVariable
  else if env.knows name then some .alreadyDefined
  else (Name.sorted definition.freeVariables).head?.map .freeVariable

/-- The environment with a defined constant. The definition must be closed and have a type. The
second result is the state of the run that finds the type. -/
def define (env : TypeEnv) (name : Name) (definition : PlainTerm) :
    Except TypeError TypeEnv × Inference :=
  match env.definitionFault? name definition with
  | some fault => (.error (.badDefinition name fault), .start)
  | none =>
    let (r, s) := env.infer definition .start
    (r.map fun _ => { env with defined := (name, definition) :: env.defined }, s)

end TypeEnv

end ProofKernel
