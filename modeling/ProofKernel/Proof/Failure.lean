import ProofKernel.Path
import ProofKernel.SimpleType.Infer
import ProofKernel.Term.Parse

/-!
# Failures

* `AssertionFailure`: a rule was applied where it does not apply;
* `Failure`: anything that a rule may fail with;
* `DecodeError`: why an encoded proof cannot be replayed.
-/

namespace ProofKernel

/-- A rule was applied where it does not apply. `ordinal?` is the ordinal of the step it concerns. -/
structure AssertionFailure where
  text : String
  ordinal? : Option Nat
deriving DecidableEq, Repr

/-- The message of a failure. -/
def AssertionFailure.message (e : AssertionFailure) : String := s!"assertion failed: {e.text}"

mutual

/-- Anything that a rule may fail with. -/
inductive Failure where
  | parse (e : ParseError)
  | address (e : AddressError)
  | type (e : TypeError)
  | assertion (e : AssertionFailure)
  | decode (e : DecodeError)
  | operator (e : OperatorError)

/-- Why an encoded proof cannot be replayed. -/
inductive DecodeError where
  | parse (e : ParseError)
  | address (e : AddressError)
  | malformed (text : String)
  | stepNumber (expected : Nat) (found : String)
  | badStepReference (text : String)
  | unknownRule (name : Name)
  | ruleFailed (rule : Name) (index : Nat) (cause : Failure)

end

/-- The message of an error. -/
def DecodeError.message : DecodeError → String
  | .parse e => e.message
  | .address e => e.message
  | .malformed text => s!"malformed step encoding: {text}"
  | .stepNumber expected found => s!"step numbered {found} where {expected} was expected"
  | .badStepReference text => s!"reference to undefined step {text}"
  | .unknownRule name => s!"unknown rule `{name}`"
  | .ruleFailed rule index _ => s!"rule `{rule}` failed replaying step {index}"

/-- The message of a failure. -/
def Failure.message : Failure → String
  | .parse e => e.message
  | .address e => e.message
  | .type e => e.message
  | .assertion e => e.message
  | .decode e => e.message
  | .operator e => e.message

end ProofKernel
