import ProofKernel.Term.Basic
import ProofKernel.Token

/-!
# Operators

* `Operator`: a symbol with its fixity, its precedence and the name it stands for;
* `OperatorTable`: the operators that reading and printing know, by symbol;
* `OperatorTable.add`: a table with one more operator, or the reason why there is none;
* `OperatorTable.standard`: the operators of logic and arithmetic;
* `OperatorTable.power`: how tightly a name binds.
-/

namespace ProofKernel

/-- Where an operator stands: between its operands or before its only one. -/
inductive Fixity where
  | between
  | before
deriving DecidableEq, Repr

/-! ## Binding powers -/

/-- The power of closing brackets and of the end of the text. -/
def endPower : Nat := 0

/-- The power of symbols that no table has; they stand between operands. -/
def symbolPower : Nat := 70

/-- The power of names and literals that are no operators. -/
def namePower : Nat := 100

/-- The power of operators that stand before their operand. -/
def beforePower : Nat := 200

/-- The power of opening brackets. -/
def bracketPower : Nat := 1000

/-! ## Tables -/

/-- A symbol with its fixity, its precedence and the name it stands for. `unicode?` is another
spelling, for input and for display. -/
structure Operator where
  symbol : String
  fixity : Fixity
  prec : Nat
  entity : Name
  unicode? : Option String
deriving DecidableEq, Repr

namespace Operator

/-- An operator between its operands that stands for its own symbol. -/
def between (symbol : String) (prec : Nat) : Operator := ⟨symbol, .between, prec, symbol, none⟩

/-- An operator before its operand that stands for its own symbol. -/
def before (symbol : String) : Operator := ⟨symbol, .before, beforePower, symbol, none⟩

/-- The operator as a spelling of another name. -/
def spelling (op : Operator) (entity : Name) : Operator := { op with entity := entity }

/-- The operator with a second spelling. -/
def withUnicode (op : Operator) (unicode : String) : Operator :=
  { op with unicode? := some unicode }

/-- The spellings that a table finds the operator by. -/
def keys (op : Operator) : List String := op.symbol :: op.unicode?.toList

end Operator

/-- Why a table does not take an operator. -/
inductive OperatorError where
  | alreadyDefined (symbol : String)
  | badPrecedence (symbol : String) (prec : Nat)
deriving DecidableEq, Repr

/-- The message of an error. -/
def OperatorError.message : OperatorError → String
  | .alreadyDefined symbol => s!"symbol `{symbol}` already defined"
  | .badPrecedence symbol prec =>
    s!"precedence {prec} of `{symbol}` is outside the infix range"

/-- Operators by spelling, each spelling once. -/
structure OperatorTable where
  entries : List (String × Operator)
deriving DecidableEq, Repr

namespace OperatorTable

/-- The table without operators. -/
def empty : OperatorTable := ⟨[]⟩

/-- The operator of a spelling. -/
def get? (t : OperatorTable) (symbol : String) : Option Operator :=
  (t.entries.find? fun entry => entry.1 = symbol).map (·.2)

/-- Precedences that an operator between its operands may have. -/
def isInfixPower (power : Nat) : Bool := endPower < power && power < namePower

/-- The table with one more operator. All its spellings must be new. -/
def add (t : OperatorTable) (op : Operator) : Except OperatorError OperatorTable :=
  if op.fixity = .between ∧ !isInfixPower op.prec then .error (.badPrecedence op.symbol op.prec)
  else match op.keys.find? fun key => (t.get? key).isSome with
    | some key => .error (.alreadyDefined key)
    | none => .ok ⟨t.entries ++ op.keys.map fun key => (key, op)⟩

/-- The operators of logic and arithmetic, in no order that matters. -/
def standardOperators : List Operator :=
  [ (Operator.between "==" 2).spelling "=",
    (Operator.between "-->" 11).withUnicode "⇒",
    (Operator.between "=>" 11).spelling "-->",
    (Operator.between "||" 13).withUnicode "∨",
    (Operator.between "&&" 14).withUnicode "∧",
    Operator.between "=" 20,
    (Operator.between "!=" 20).withUnicode "≠",
    Operator.between "<" 20,
    (Operator.between "<=" 20).withUnicode "≤",
    Operator.between ">" 20,
    (Operator.between ">=" 20).withUnicode "≥",
    Operator.between "+" 30,
    Operator.between "-" 30,
    (Operator.between "*" 40).withUnicode "·",
    Operator.between "/" 40,
    Operator.between "**" 50,
    (Operator.before "not").withUnicode "¬",
    Operator.before "neg" ]

/-- The table of `standardOperators`. -/
def standard : OperatorTable :=
  ⟨standardOperators.flatMap fun op => op.keys.map fun key => (key, op)⟩

/-! ## What the table says of a name -/

/-- The operator that an atom denotes, by its spelling or by its name. -/
def operatorOf? {ι : Type} (t : OperatorTable) (a : Atom ι) : Option Operator :=
  (t.get? a.shown).or (t.get? a.name)

/-- The precedence of an operator; other identifiers and literals have the power of names, other
symbols stand between operands. -/
def power (t : OperatorTable) (name : Name) : Nat :=
  match t.get? name with
  | some op => op.prec
  | none => if name.isIdentifier || name.isInteger || name.isString then namePower else symbolPower

/-- Whether an atom is shown between its two arguments. -/
def isInfix {ι : Type} (t : OperatorTable) (a : Atom ι) : Bool :=
  match t.operatorOf? a with
  | some op => op.fixity == .between && isInfixPower op.prec
  | none => isInfixPower (t.power a.shown)

/-- Whether an atom must stand in brackets to stand alone. -/
def isOperator {ι : Type} (t : OperatorTable) (a : Atom ι) : Bool :=
  (t.operatorOf? a).isSome || t.isInfix a

/-- Whether a term is a call of an infix operator on two arguments. -/
def isInfixCall {ι : Type} (t : OperatorTable) (m : Term ι) : Bool :=
  match m.operator? with
  | some (.var a) => t.isInfix a
  | _ => false

/-- Whether a spelling is that of an operator before its operand. -/
def isBefore (t : OperatorTable) (symbol : String) : Bool :=
  (t.get? symbol).any fun op => op.fixity == .before

/-- How tightly a token binds. -/
def tokenPower (t : OperatorTable) (token : Token) : Nat :=
  match token.kind with
  | .opening => bracketPower
  | .closing => endPower
  | .number | .quoted => namePower
  | .ident | .symbol => t.power token.text

/-- The leaf that a token denotes. A second spelling reads as the symbol. -/
def leaf (t : OperatorTable) (text : String) : PlainTerm :=
  match t.get? text with
  | some op => .aliased op.entity (if op.unicode? = some text then op.symbol else text)
  | none => .named text

end OperatorTable

end ProofKernel
