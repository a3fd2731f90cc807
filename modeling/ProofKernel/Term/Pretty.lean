import ProofKernel.Operator

/-!
# Printing terms

A call is printed in brackets with its arguments side by side; an infix operator stands between its
first two arguments, or after its only one. Operators that stand alone as operands, and negative
numerals that are arguments, get brackets of their own, so that the text reads back.

* `Style`: the operators in use, and which of their spellings is shown;
* `Style.print`: the text of a term;
* `Term.display`: the text with the standard operators.
-/

namespace ProofKernel

/-- The operators in use, and whether their second spellings are shown. -/
structure Style where
  table : OperatorTable
  unicode : Bool

namespace Style

variable {ι : Type}

/-- The text of an atom. -/
def atomText (s : Style) (a : Atom ι) : String :=
  match s.unicode, (s.table.operatorOf? a).bind Operator.unicode? with
  | true, some text => text
  | _, _ => a.shown

/-- The two texts of an argument: beside an infix operator, and among other arguments. -/
structure Piece where
  operand : String
  argument : String

/-- A text in brackets. -/
def bracket (text : String) : String := "(" ++ text ++ ")"

/-- The two texts of an argument, from its own text. -/
def piece (s : Style) (m : Term ι) (text : String) : Piece :=
  let operand := match m with
    | .var a => if s.table.isOperator a then bracket text else text
    | _ => text
  ⟨operand, if m.isNegative then bracket text else operand⟩

/-- Each argument after a blank. -/
def spread (pieces : List Piece) : String :=
  String.join (pieces.map fun p => " " ++ p.argument)

/-- The text of a term applied to arguments whose texts are known. -/
def printApplied (s : Style) : Term ι → List Piece → String
  | .var a, [] => s.atomText a
  | .var a, [p] =>
    if s.table.isInfix a then bracket (p.operand ++ " " ++ s.atomText a)
    else bracket (s.atomText a ++ spread [p])
  | .var a, p :: q :: rest =>
    if s.table.isInfix a then
      let core := p.operand ++ " " ++ s.atomText a ++ " " ++ q.operand
      bracket (if rest.isEmpty then core else bracket core ++ spread rest)
    else bracket (s.atomText a ++ spread (p :: q :: rest))
  | .app _ f x, pieces => s.printApplied f (s.piece x (s.printApplied x []) :: pieces)
  | .abs _ b body, pieces =>
    let text := "\x7b" ++ b.shown ++ ". " ++ s.printApplied body [] ++ "\x7d"
    if pieces.isEmpty then text else bracket (text ++ spread pieces)

/-- The text of a term. -/
def print (s : Style) (m : Term ι) : String := s.printApplied m []

end Style

namespace Term

variable {ι : Type}

/-- The text of a term with the operators of a table. -/
def pretty (table : OperatorTable) (m : Term ι) : String := Style.print ⟨table, false⟩ m

/-- The text of a term with the standard operators. -/
def display (m : Term ι) : String := m.pretty .standard

end Term

end ProofKernel
