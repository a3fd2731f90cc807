import ProofKernel.Text.Quoted

/-!
# Names

A name is any text; its spelling decides what it stands for.

* `Name.isVariable`: the spellings of logic variables, all others are constants;
* `Name.isInteger`, `Name.isString`, `Name.isIdentifier`: the lexical classes of a whole name;
* `Literal.ofName?`: the value of a name that spells a literal;
* `Name.sorted`: the names of a list, each once, in the order of their characters.
-/

namespace ProofKernel

/-- A name: any text. -/
abbrev Name := String

/-- Characters that begin an identifier. -/
def isIdentStart (c : Char) : Bool := c.isAlpha || c == '_' || c == '$'

/-- Characters that continue an identifier. -/
def isIdentRest (c : Char) : Bool := c.isAlphanum || c == '_'

namespace Name

/-- A logic variable is one lower-case letter or `$`, then digits and underscores only; or anything
that begins with an underscore. -/
def isVariable (n : Name) : Bool :=
  match n.toList with
  | [] => false
  | c :: cs => c == '_' || ((c.isLower || c == '$') && cs.all fun d => d.isDigit || d == '_')

/-- Every other name is a constant. -/
def isConstant (n : Name) : Bool := !isVariable n

/-- An identifier from end to end. -/
def isIdentifier (n : Name) : Bool :=
  match n.toList with
  | [] => false
  | c :: cs => isIdentStart c && cs.all isIdentRest

/-- The number that digits spell. -/
def digitsValue (cs : List Char) : Nat :=
  cs.foldl (fun n c => 10 * n + (c.toNat - '0'.toNat)) 0

/-- The number that a non-empty row of digits spells. -/
def natural? (cs : List Char) : Option Nat :=
  if cs ≠ [] ∧ cs.all Char.isDigit then some (digitsValue cs) else none

/-- The number that digits, after at most one minus sign, spell. -/
def integer? (n : Name) : Option Int :=
  match n.toList with
  | '-' :: cs => (natural? cs).map fun k => -(k : Int)
  | cs => (natural? cs).map fun k => (k : Int)

/-- Digits, after at most one minus sign. -/
def isInteger (n : Name) : Bool := (integer? n).isSome

/-- One string literal from end to end. -/
def isString (n : Name) : Bool := Text.isQuoted n.toList

/-- The names of a list, each once, in the order of their characters. -/
def sorted (ns : List Name) : List Name := (ns.mergeSort fun a b => decide (a ≤ b)).eraseDups

end Name

/-- The value of a name that spells a literal. -/
inductive Literal where
  | int (n : Int)
  | str (content : String)
deriving DecidableEq, Repr

/-- The number of values that 64 bits can hold. -/
def wordSize : Nat := 18446744073709551616

/-- Whether a signed number of 64 bits holds the value. -/
def fitsWord (n : Int) : Bool := -(wordSize / 2) ≤ n && n < wordSize / 2

/-- The literal that a name spells. Numerals too large for a signed number of 64 bits stay plain
names. -/
def Literal.ofName? (n : Name) : Option Literal :=
  match n.integer? with
  | some k => if fitsWord k then some (.int k) else none
  | none =>
    if n.isString then (Text.content? n.toList).map fun cs => .str (.ofList cs) else none

end ProofKernel
