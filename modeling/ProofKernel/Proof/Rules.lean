import ProofKernel.Proof.Decode

/-!
# Basic rules

A small catalogue of rules that read, compare and transform steps, for replaying proofs.

* `BasicRules.all`: the rules by name, given what replays the proof in an argument;
* `BasicRules.catalogue`: the rules for proofs nested to a given depth, and `BasicRules.deepest`;
* `Session.replay`: replays an encoded proof with these rules.
-/

namespace ProofKernel

namespace BasicRules

open Session

/-- The term of a text. -/
def read (text : String) : Attempt Failure Node := (Session.parse text).mapError .parse

/-- Fails since the arguments have a wrong shape. -/
def refuse (text : String) : Attempt Failure Step := (fail text none).mapError .assertion

/-- The new step that a term follows by a rule. -/
def conclude (m : Node) (rule : Name) (args : List RuleArgument) (deps : List Step) :
    Attempt Failure Step := do
  let target ← (bareStep m false : SessionM Step)
  justify target rule args deps

/-- Follows from nothing. -/
def ruleA : Rule := fun _ => do conclude (← read "T") "rule_a" [] []

/-- Follows from any step. -/
def ruleB : Rule := fun
  | [.step d] => do conclude (← read "T = T") "rule_b" [.step d] [d]
  | _ => refuse "rule_b takes one step"

/-- Keeps its arguments. -/
def echo : Rule := fun args => do conclude (← read "T") "echo" args []

/-- Any term. -/
def assume : Rule := fun
  | [.term m] => conclude m "assume" [.term m] []
  | _ => refuse "assume takes one term"

/-- Any term, with hypotheses. -/
def hyp : Rule := fun
  | [.term m] => do
    let target ← (bareStep m true : SessionM Step)
    justify target "hyp" [.term m] []
  | _ => refuse "hyp takes one term"

/-- A step with a term put in for a name. -/
def subst : Rule := fun
  | [.step d, .name n, .term r] => do
    let m ← (substitute [(n, r)] d.term : SessionM Node)
    conclude m "subst" [.step d, .name n, .term r] [d]
  | _ => refuse "subst takes a step, a name and a term"

/-- A step justified anew. -/
def rejust : Rule := fun
  | [.step d] => justify d "rejust" [.step d] []
  | _ => refuse "rejust takes one step"

/-- A step as it is. -/
def noop : Rule := fun
  | [.step d] => justify d "noop" [.step d] [d]
  | _ => refuse "noop takes one step"

/-- The part of a step at a path. -/
def part : Rule := fun
  | [.step d, .path p] => do
    let m ← (lift (d.term.locate p)).mapError .address
    conclude m "at" [.step d, .path p] [d]
  | _ => refuse "at takes a step and a path"

/-- Any term that has a type. -/
def typed : Rule := fun
  | [.term m] => do
    let _ ← (inferType m).mapError Failure.type
    conclude m "typed" [.term m] []
  | _ => refuse "typed takes one term"

/-- The term of a text. -/
def readText : Rule := fun
  | [.str t] => do conclude (← read t) "read" [.str t] []
  | _ => refuse "read takes one string"

/-- Adds an operator. The precedence is a number of 64 bits. -/
def addInfix : Rule := fun
  | [.str symbol, .int prec] => do
    (addOperator (.between symbol (prec % wordSize).toNat)).mapError .operator
    conclude (← read "T") "infix" [.str symbol, .int prec] []
  | _ => refuse "infix takes a string and a number"

/-- The last step of an encoded proof. -/
def replay (decode : String → Attempt DecodeError (List Step)) : Rule := fun
  | [.str text] => do
    let steps ← (decode text).mapError .decode
    let m ← match steps.getLast? with
      | some last => pure last.term
      | none => read "T"
    conclude m "replay" [.str text] steps.head?.toList
  | _ => refuse "replay takes one string"

/-- The rules by name, given what replays the proof in an argument. -/
def all (decode : String → Attempt DecodeError (List Step)) : List (Name × Rule) :=
  [ ("rule_a", ruleA), ("rule_b", ruleB), ("echo", echo), ("assume", assume), ("hyp", hyp),
    ("subst", subst), ("rejust", rejust), ("noop", noop), ("at", part), ("typed", typed),
    ("read", readText), ("infix", addInfix), ("replay", replay decode) ]

/-- The rules for proofs that are nested to the given depth. -/
def catalogue : Nat → RuleCatalogue
  | 0, name => Scope.lookup? (all fun _ => throw (.malformed "nested too deeply")) name
  | depth + 1, name => Scope.lookup? (all (decodeSteps (catalogue depth))) name

/-- The depth to which proofs may be nested. An argument may be the name of an operator whose entity
is a proof, even the proof that it stands in, so the length of a text is no bound on the nesting:
the depth is one that no run reaches. -/
def deepest : Nat := wordSize

end BasicRules

/-- Replays an encoded proof with the basic rules. -/
def Session.replay (text : String) : Attempt DecodeError (List Step) :=
  decodeSteps (BasicRules.catalogue BasicRules.deepest) text

end ProofKernel
