import ProofKernel.Proof.Session

/-!
# Replaying encoded proofs

* `Rule`, `RuleCatalogue`: rules by name;
* `RuleArgument.decode`: the argument that a term stands for;
* `Session.decodeSteps`: applies the rule of each step of an encoded proof, in order.
-/

namespace ProofKernel

/-- A rule makes a step of its arguments, or fails. -/
abbrev Rule := List RuleArgument → Attempt Failure Step

/-- Rules by name. -/
abbrev RuleCatalogue := Name → Option Rule

/-- The step that a reference stands for; steps are counted from one. -/
def Step.referenced? {ι : Type} (steps : List Step) (m : Term ι) : Option Step :=
  match m.number? with
  | some k => if 1 ≤ k then steps[k.toNat - 1]? else none
  | none => none

/-- The argument that a term stands for, among the steps replayed so far. -/
def RuleArgument.decode (steps : List Step) (m : Node) : Except DecodeError RuleArgument :=
  match m with
  | .var a => match a.literal? with
    | some (.int n) => .ok (.int n)
    | some (.str text) => .ok (.str text)
    | none => if a.name.isIdentifier then .ok (.name a.name) else .error (.malformed m.display)
  | .app .. => match m.args with
    | [x] =>
      if m.head.isNamed "s" then match Step.referenced? steps x with
        | some s => .ok (.step s)
        | none => .error (.badStepReference x.display)
      else if m.head.isNamed "t" then .ok (.term x)
      else if m.head.isNamed "path" then match x.string? with
        | some text => ((Path.read false text).mapError .address).map .path
        | none => .error (.malformed m.display)
      else .error (.malformed m.display)
    | _ => .error (.malformed m.display)
  | .abs .. => .error (.malformed m.display)

namespace Session

/-- Applies the rule of one encoded step. -/
def decodeStep (rules : RuleCatalogue) (steps : List Step) (entry : Node) :
    Attempt DecodeError Step := do
  let index := steps.length + 1
  unless entry.head.number? = some (index : Int) do
    throw (.stepNumber index entry.head.display)
  match entry.args with
  | .var a :: args =>
    match rules a.name with
    | none => throw (.unknownRule a.name)
    | some rule =>
      let args ← lift (args.mapM (RuleArgument.decode steps))
      record .debug s!"replaying step {index}: {a.name}"
      (rule args).mapError (.ruleFailed a.name index)
  | _ => throw (.malformed s!"step {index} names no rule")

/-- Applies the rules of encoded steps, after the steps replayed so far. -/
def decodeEntries (rules : RuleCatalogue) (steps : List Step) :
    List Node → Attempt DecodeError (List Step)
  | [] => return steps
  | entry :: entries => do
    let step ← decodeStep rules steps entry
    decodeEntries rules (steps ++ [step]) entries

/-- Replays an encoded proof. -/
def decodeSteps (rules : RuleCatalogue) (text : String) : Attempt DecodeError (List Step) := do
  let encoded ← (parse text).mapError DecodeError.parse
  unless encoded.head.isNamed "steps" do
    throw (.malformed "expected (steps ...)")
  decodeEntries rules [] encoded.args

end Session

end ProofKernel
