import ProofKernel.SimpleType.Infer

/-!
# Types with shared variables

A type variable is a cell that holds the type it is bound to, and all types in which it occurs share
it. Looking at a type follows the cells, and makes each cell on the way hold the type at its end. The
types in cells are not put into each other: they may have bound variables.

* `CellM`: computations on cells, without a result where they do not end;
* `Ty.resolve`, `Ty.occurs`, `Ty.equal`, `Ty.readOut`: looking at types;
* `Ty.unify`: makes two types equal;
* `CellInfer`, `TypeEnv.inferOnCells`: type inference on cells;
* `TypeRequest`, `TypeRequest.reply`: what is asked for, one request after the other.
-/

namespace ProofKernel

variable {α : Type}

namespace TypeStore

variable [DecidableEq α]

/-- The type that a variable is bound to. -/
def get? (σ : TypeStore α) (v : α) : Option (Ty α) := (σ.find? fun b => b.1 = v).map (·.2)

/-- The bindings with one for a variable, instead of the one that it has. -/
def put (σ : TypeStore α) (v : α) (t : Ty α) : TypeStore α := (v, t) :: σ.filter fun b => b.1 ≠ v

end TypeStore

/-- Computations on the cells of type variables. There is no result where a computation does not
end. -/
abbrev CellM (α β : Type) := StateT (TypeStore α) Option β

/-! ## Looking at types -/

namespace Ty

variable [DecidableEq α]

/-- The type that a type stands for at present, after all bound variables. The cells on the way are
made to hold it. -/
def resolve : Ty α → CellM α (Ty α)
  | .var v => do
    match (← get).get? v with
    | some t =>
      let r ← t |>.resolve
      modify fun σ => σ.put v r
      return r
    | none => return .var v
  | .const x => return .const x
  | .op f ps => return .op f ps
partial_fixpoint

/-- Whether a variable occurs in a type. -/
def occurs (v : α) (t : Ty α) : CellM α Bool := do
  match ← t.resolve with
  | .var w => return v = w
  | .const _ => return false
  | .op _ ps => ps.anyM fun p => p |>.occurs v
partial_fixpoint

/-- Whether two types are the same. -/
def equal (a b : Ty α) : CellM α Bool := do
  let a ← a.resolve
  let b ← b.resolve
  match a, b with
  | .var v, .var w => return v = w
  | .const x, .const y => return x = y
  | .op f ps, .op g qs =>
    if f = g ∧ ps.length = qs.length then (ps.zip qs).allM fun e => e.1 |>.equal e.2
    else return false
  | _, _ => return false
partial_fixpoint

/-- The type as its text shows it, without bound variables. -/
def readOut (t : Ty α) : CellM α (Ty α) := do
  match ← t.resolve with
  | .op f ps => return .op f (← ps.mapM fun p => p |>.readOut)
  | t => return t
partial_fixpoint

end Ty

/-! ## Unification -/

namespace CellM

variable [DecidableEq α]

/-- Two types that differ, as they are shown. -/
def mismatch (a b : Ty α) : CellM α (Option (TypeClash α)) := do
  let a ← a.readOut
  let b ← b.readOut
  return some (.mismatch a b)

/-- Makes the text of a type, if bindings are logged. -/
def showIf (logs : Bool) (t : Ty α) : CellM α Unit := do
  if logs then let _ ← t.readOut

/-- Binds a variable to a resolved type, in which it must not occur. -/
def bindTo (logs : Bool) (v : α) (t : Ty α) : CellM α (Option (TypeClash α)) := do
  if t = .var v then return none
  else if ← t.occurs v then return some (.recursive v (← t.readOut))
  else
    showIf logs t
    modify fun σ => σ.put v t
    return none

end CellM

namespace Ty

open CellM

variable [DecidableEq α]

mutual

/-- Makes two types equal, if that is possible. The bindings made stay also where it is not. -/
def unify (logs : Bool) (a b : Ty α) : CellM α (Option (TypeClash α)) := do
  let a ← a.resolve
  let b ← b.resolve
  a |>.unifyResolved logs b
partial_fixpoint

/-- Makes two resolved types equal, and the parts of two with the same operator one after the other,
up to the first clash. -/
def unifyResolved (logs : Bool) : Ty α → Ty α → CellM α (Option (TypeClash α))
  | .var v, b => bindTo logs v b
  | a, .var v => Ty.var v |>.unify logs a
  | .const x, .const y => if x = y then return none else mismatch (.const x) (.const y)
  | .op f ps, .op g qs =>
    if f = g ∧ ps.length = qs.length then
      (ps.zip qs).findSomeM? fun e => e.1 |>.unify logs e.2
    else mismatch (.op f ps) (.op g qs)
  | a, b => mismatch a b
partial_fixpoint

end

end Ty

/-! ## Inference -/

/-- Computations of a run on cells; the state stays where they fail. -/
abbrev CellInfer := ExceptT TypeError (StateT Inference Option)

/-- A computation on the cells of a run. -/
def Inference.onCells {β : Type} (m : CellM Nat β) : StateT Inference Option β := fun s => do
  let (b, store) ← m.run s.store
  return (b, { s with store := store })

namespace CellInfer

/-- A step that looks at no cell. -/
def step {β : Type} (m : Infer β) : CellInfer β := fun s => some (m.run s)

/-- Makes two types equal. -/
def unify (logs : Bool) (a b : Ty Nat) : CellInfer Unit := do
  match ← ExceptT.lift (Inference.onCells (a.unify logs b)) with
  | some clash => throw (.clash clash)
  | none => return

/-- Runs a computation under a binder. -/
def under {β : Type} (name : Name) (t : Ty Nat) (m : CellInfer β) : CellInfer β := fun s => do
  let (r, s') ← m.run { s with scope := (name, t) :: s.scope }
  return (r, { s' with scope := s'.scope.tail })

/-- Runs a computation for a closed term, apart from the variables of the run. -/
def apart {β : Type} (m : CellInfer β) : CellInfer β := fun s => do
  let (r, s') ← m.run { s with free := [], scope := [] }
  return (r, { s' with free := s.free, scope := s.scope })

/-- The type of a term, given the types of constants. -/
def inferWith {ι : Type} (logs : Bool) (constant : Name → CellInfer (Ty Nat)) :
    Term ι → CellInfer (Ty Nat)
  | .var a => do
    match ← step (Infer.known? a.name) with
    | some t => return t
    | none => match a.literal? with
      | some (.int _) => return .individual
      | some (.str _) => throw (.untyped a.name)
      | none => if a.isVariable then step (Infer.freeType a.name) else constant a.name
  | .app _ f x => do
    let fn ← inferWith logs constant f
    let arg ← inferWith logs constant x
    let result ← step Infer.newVar
    unify logs (.fn arg result) fn
    return result
  | .abs _ b body => do
    let bound ← step Infer.newVar
    let result ← under b.name bound (inferWith logs constant body)
    return .fn bound result

/-- A new instance of the type of a constant. -/
def constantType (logs : Bool) (declared? : Name → Option (Ty Name)) :
    List (Name × PlainTerm) → Name → CellInfer (Ty Nat)
  | [], name => match declared? name with
    | some t => step (Infer.instantiate t)
    | none => throw (.unknownConstant name)
  | (defined, definition) :: older, name => match declared? name with
    | some t => step (Infer.instantiate t)
    | none =>
      if defined = name then
        apart (inferWith logs (constantType logs declared? older) definition)
      else constantType logs declared? older name

end CellInfer

/-- The type of a term in a run on cells, resolved. -/
def TypeEnv.inferOnCells {ι : Type} (logs : Bool) (env : TypeEnv) (m : Term ι) :
    CellInfer (Ty Nat) := do
  let t ← CellInfer.inferWith logs (CellInfer.constantType logs env.declared? env.defined) m
  ExceptT.lift (Inference.onCells t.resolve)

/-! ## Requests -/

/-- The type of a text, with a new variable for each of its variables. -/
def Infer.parse (text : String) : Infer (Ty Nat) :=
  match Ty.read text with
  | .ok t => Infer.instantiate t
  | .error e => throw (.badType e)

/-- What is asked for, one request after the other: new variables, the type of a text, and what can
be done with types. A run of inference brings the types of the free variables that it has met. -/
inductive TypeRequest where
  | newVar
  | parse (text : String)
  | unify (a b : Ty Nat)
  | resolve (t : Ty Nat)
  | occurs (v : Nat) (t : Ty Nat)
  | equal (a b : Ty Nat)
  | display (t : Ty Nat)
  | infer (env : TypeEnv) (free : List (Name × Ty Nat)) (m : PlainTerm)

/-- What comes back. -/
inductive TypeReply where
  | typed (r : Except TypeError (Ty Nat))
  | unified (clash? : Option (TypeClash Nat))
  | resolved (t : Ty Nat)
  | truth (b : Bool)
  | text (s : String)
  | inferred (r : Except TypeError (Ty Nat)) (free : List (Name × Ty Nat))

namespace TypeRequest

open Inference

/-- Whether a request only looks at types. -/
def looks : TypeRequest → Bool
  | .resolve _ | .occurs _ _ | .equal _ _ | .display _ => true
  | _ => false

/-- The reply to a request. -/
def reply (logs : Bool) (label : Nat → String) : TypeRequest → StateT Inference Option TypeReply
  | .newVar => do return .typed (← (CellInfer.step Infer.newVar).run)
  | .parse text => do return .typed (← (CellInfer.step (Infer.parse text)).run)
  | .unify a b => do return .unified (← onCells (a.unify logs b))
  | .resolve t => do return .resolved (← onCells t.resolve)
  | .occurs v t => do return .truth (← onCells (t.occurs v))
  | .equal a b => do return .truth (← onCells (a.equal b))
  | .display t => do return .text ((← onCells t.readOut).render label)
  | .infer env free m => fun s => do
    let (r, s') ← (env.inferOnCells logs m).run { s with free := free, scope := [] }
    return (.inferred r s'.free, { s' with free := s.free, scope := s.scope })

end TypeRequest

end ProofKernel
