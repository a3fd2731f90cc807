import ProofKernel.Term.Locate

/-!
# Proof steps

* `Step`: a term, alone or with the rule it follows by;
* `RuleArgument`: what a rule is applied to;
* `Step.base`: the first of a chain of steps that justify each other anew;
* `Step.hyps?`, `Step.main`: the parts of a step that has hypotheses.
-/

namespace ProofKernel

mutual

/-- A term in a proof. Every step has a number of its own; steps that follow by a rule also have an
ordinal. The left operand of a step that has hypotheses is displayed as these. -/
inductive Step where
  /-- A term alone. -/
  | bare (tag : Nat) (term : Node) (hasHyps : Bool)
  /-- A term that follows by a rule, from arguments and earlier steps. `details?` is the step that is
  justified anew, if any. -/
  | proved (tag : Nat) (term : Node) (hasHyps : Bool) (rule : Name) (args : List RuleArgument)
      (deps : List Step) (ordinal : Nat) (details? : Option Step)

/-- What a rule is applied to. -/
inductive RuleArgument where
  | int (n : Int)
  | name (name : Name)
  | str (text : String)
  | term (m : Node)
  | step (s : Step)
  | path (p : Path)

end

namespace Step

/-- The number that tells steps apart. -/
def tag : Step → Nat
  | .bare tag .. => tag
  | .proved tag .. => tag

/-- The term of a step. -/
def term : Step → Node
  | .bare _ term _ => term
  | .proved _ term .. => term

/-- Whether the term has the form of hypotheses and a conclusion. -/
def hasHyps : Step → Bool
  | .bare _ _ hasHyps => hasHyps
  | .proved _ _ hasHyps .. => hasHyps

/-- Whether the step follows by a rule. -/
def isProved : Step → Bool
  | .bare .. => false
  | .proved .. => true

/-- The rule that the step follows by. -/
def rule? : Step → Option Name
  | .bare .. => none
  | .proved _ _ _ rule .. => some rule

/-- The arguments of the rule. -/
def args : Step → List RuleArgument
  | .bare .. => []
  | .proved _ _ _ _ args .. => args

/-- The steps that the rule uses. -/
def deps : Step → List Step
  | .bare .. => []
  | .proved _ _ _ _ _ deps .. => deps

/-- The place of the step among all that follow by a rule. -/
def ordinal? : Step → Option Nat
  | .bare .. => none
  | .proved _ _ _ _ _ _ ordinal _ => some ordinal

/-- The step that is justified anew. -/
def details? : Step → Option Step
  | .bare .. => none
  | .proved _ _ _ _ _ _ _ details? => details?

/-- Whether two steps are the same one. -/
def isSame (s t : Step) : Bool := s.tag == t.tag

/-- The first of the chain of steps that justify each other anew. -/
def base : Step → Step
  | .proved _ _ _ _ _ _ _ (some details) => details.base
  | s => s

/-- The hypotheses. -/
def hyps? (s : Step) : Option Node := if s.hasHyps then s.term.left? else none

/-- The conclusion: what stands right of the hypotheses, if there are any. -/
def main (s : Step) : Node := if s.hasHyps then s.term.right?.getD s.term else s.term

/-- The part of the term at a path, in which `main` skips the hypotheses. -/
def locate (s : Step) (path : String) : Except AddressError Node := do
  s.term.locate (← Path.read s.hasHyps path)

end Step

end ProofKernel
