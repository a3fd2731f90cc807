import ProofKernel.Proof.Failure
import ProofKernel.Proof.Step
import ProofKernel.Term.Pretty
import ProofKernel.Text.Quoted

/-!
# Encoded proofs

A row of steps is written `(steps (1 rule argument …) (2 …) …)`. An argument that is a step of the
row, or the term of one, is written as a reference `(s k)`.

* `RuleArgument.encode`: the text of an argument;
* `Step.encodeAll`: the text of a row of steps.
-/

namespace ProofKernel

/-- A reference to the step at a place, counted from zero. -/
def stepReference (place : Nat) : String := s!"(s {place + 1})"

/-- The text of a term as an argument: operators and negative numerals stand in brackets. -/
def Term.encode {ι : Type} (table : OperatorTable) (m : Term ι) : String :=
  let text := m.pretty table
  match m with
  | .var a => if table.isOperator a || m.isNegative then Style.bracket text else text
  | _ => text

/-- The text of a term that is not the term of a step. -/
def embedded (table : OperatorTable) (m : Node) : String := "(t " ++ m.encode table ++ ")"

/-- The text of an argument in a row of steps. Names must be identifiers. -/
def RuleArgument.encode (table : OperatorTable) (steps : List Step) :
    RuleArgument → Except AssertionFailure String
  | .int n => .ok (if n < 0 then Style.bracket (toString n) else toString n)
  | .name n =>
    if n.isIdentifier then .ok n
    else .error ⟨s!"rule argument `{n}` is not an identifier", none⟩
  | .str text => .ok (Text.quote text)
  | .path p => .ok ("(path " ++ Text.quote p.render ++ ")")
  | .step s => .ok (match steps.findIdx? fun t => t.isSame s with
    | some place => stepReference place
    | none => embedded table s.term)
  | .term m => .ok (match steps.findIdx? fun t => t.term = m with
    | some place => stepReference place
    | none => embedded table m)

namespace Step

/-- The text of the step at a place, counted from zero. -/
def encode (table : OperatorTable) (steps : List Step) (place : Nat) (s : Step) :
    Except AssertionFailure String := do
  match s.rule? with
  | none => throw ⟨s!"step {place + 1} is not justified: {s.term.display}", none⟩
  | some rule =>
    let args ← s.args.mapM (RuleArgument.encode table steps)
    return s!"({place + 1} {rule}" ++ String.join (args.map fun text => " " ++ text) ++ ")"

/-- The text of a row of steps, each of which must follow by a rule. -/
def encodeAll (table : OperatorTable) (steps : List Step) : Except AssertionFailure String := do
  let entries ← (steps.zipIdx).mapM fun (s, place) => s.encode table steps place
  return "(steps" ++ String.join (entries.map fun text => " " ++ text) ++ ")"

end Step

end ProofKernel
