import ProofKernel.SimpleType.Cells

/-!
# Cells with names

Two type variables are the same if they are one cell; what a text shows of a cell is its name. A run
gives the names `t1`, `t2`, … to the cells that it makes for terms. A declared type is read wherever
it is used, each time into new cells that have the names in its text, and then gets cells of the run
instead of them.

* `CellName`: how a cell has got its name;
* `NamedRun`: a run on cells with names;
* `NamedInfer.renew`: a type with new cells for its variables;
* `TypeEnv.inferNamed`: the type of a term;
* `NamedRun.readOut`, `NamedRun.text`, `NamedRun.same`: what types show, and whether they are equal.
-/

namespace ProofKernel

/-- How a cell has got its name: by the run, or from the text of a declared type. -/
inductive CellName where
  | minted (number : Nat)
  | read (text : Name)
deriving DecidableEq, Repr

/-- The name itself. -/
def CellName.label : CellName → String
  | .minted number => typeLabel number
  | .read text => text

/-- A run on cells with names. The cells are numbered in the order in which they are made, and
`minted` is the number of the next name that the run gives. -/
structure NamedRun where
  cells : Inference
  minted : Nat
  name : Nat → CellName

namespace NamedRun

/-- The state before a run. There are no cells, so that their names are of no importance. -/
def start : NamedRun := ⟨.start, 1, fun _ => .read "_"⟩

/-- The type that a type shows. -/
def readOut (s : NamedRun) (t : Ty Nat) : Option (Ty Nat) := do
  let (t, _) ← t.readOut.run s.cells.store
  return t

/-- The text of a type. -/
def text (s : NamedRun) (t : Ty Nat) : Option String := do
  return (← s.readOut t).render fun v => (s.name v).label

/-- Whether two types are equal. -/
def same (s : NamedRun) (a b : Ty Nat) : Option Bool := do
  let (r, _) ← (a.equal b).run s.cells.store
  return r

end NamedRun

/-- Computations of a run on cells with names; the state stays where they fail. -/
abbrev NamedInfer := ExceptT TypeError (StateT NamedRun Option)

namespace NamedInfer

/-- A computation on cells that has nothing to do with their names. -/
def onCells {β : Type} (m : CellInfer β) : NamedInfer β := fun s => do
  let (r, cells) ← m.run s.cells
  return (r, { s with cells := cells })

/-- A new cell. -/
def newCell (name : CellName) : NamedInfer (Ty Nat) := fun s =>
  some (.ok (.var s.cells.next),
    { s with
      cells := { s.cells with next := s.cells.next + 1 }
      name := fun v => if v = s.cells.next then name else s.name v })

/-- A new cell with a name that the run gives. -/
def mint : NamedInfer (Ty Nat) := fun s =>
  (newCell (.minted s.minted)).run { s with minted := s.minted + 1 }

/-- A type with a new cell for each of its variables. -/
def renew {α : Type} [DecidableEq α] (cell : α → NamedInfer (Ty Nat)) (t : Ty α) :
    NamedInfer (Ty Nat) := do
  let vars := t.vars.eraseDups
  let cells ← vars.mapM cell
  return t.bind fun v => cells.getD (vars.idxOf v) .individual

/-- A declared type: read, and then with cells of the run. -/
def declaredType (t : Ty Name) : NamedInfer (Ty Nat) := do
  let t ← renew (fun name => newCell (.read name)) t
  let t ← onCells (ExceptT.lift (Inference.onCells t.readOut))
  renew (fun _ => mint) t

/-- The type of a free variable: the one it has in the run, or a new cell. -/
def freeType (name : Name) : NamedInfer (Ty Nat) := do
  let t ← mint
  onCells (CellInfer.step fun s => (.ok t, { s with free := s.free ++ [(name, t)] }))

/-- Runs a computation under a binder. -/
def under {β : Type} (name : Name) (t : Ty Nat) (m : NamedInfer β) : NamedInfer β := fun s => do
  let (r, s') ← m.run { s with cells := { s.cells with scope := (name, t) :: s.cells.scope } }
  return (r, { s' with cells := { s'.cells with scope := s'.cells.scope.tail } })

/-- Runs a computation for a closed term, apart from the variables of the run. -/
def apart {β : Type} (m : NamedInfer β) : NamedInfer β := fun s => do
  let (r, s') ← m.run { s with cells := { s.cells with free := [], scope := [] } }
  return (r, { s' with cells := { s'.cells with free := s.cells.free, scope := s.cells.scope } })

/-- The type of a term, given the types of constants. -/
def inferWith {ι : Type} (logs : Bool) (constant : Name → NamedInfer (Ty Nat)) :
    Term ι → NamedInfer (Ty Nat)
  | .var a => do
    match ← onCells (CellInfer.step (Infer.known? a.name)) with
    | some t => return t
    | none => match a.literal? with
      | some (.int _) => return .individual
      | some (.str _) => throw (.untyped a.name)
      | none => if a.isVariable then freeType a.name else constant a.name
  | .app _ f x => do
    let fn ← inferWith logs constant f
    let arg ← inferWith logs constant x
    let result ← mint
    onCells (CellInfer.unify logs (.fn arg result) fn)
    return result
  | .abs _ b body => do
    let bound ← mint
    let result ← under b.name bound (inferWith logs constant body)
    return .fn bound result

/-- A new instance of the type of a constant. -/
def constantType (logs : Bool) (declared? : Name → Option (Ty Name)) :
    List (Name × PlainTerm) → Name → NamedInfer (Ty Nat)
  | [], name => match declared? name with
    | some t => declaredType t
    | none => throw (.unknownConstant name)
  | (defined, definition) :: older, name => match declared? name with
    | some t => declaredType t
    | none =>
      if defined = name then
        apart (inferWith logs (constantType logs declared? older) definition)
      else constantType logs declared? older name

end NamedInfer

/-- The type of a term in a run on cells with names, resolved. -/
def TypeEnv.inferNamed {ι : Type} (logs : Bool) (env : TypeEnv) (m : Term ι) :
    NamedInfer (Ty Nat) := do
  let t ← NamedInfer.inferWith logs (NamedInfer.constantType logs env.declared? env.defined) m
  NamedInfer.onCells (ExceptT.lift (Inference.onCells t.resolve))

end ProofKernel
