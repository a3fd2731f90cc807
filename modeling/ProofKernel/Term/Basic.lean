import ProofKernel.Name

/-!
# Terms

The terms of a lambda-calculus with names: variables, calls and abstractions. Every node carries a
tag. With `Unit` tags a term is its text's meaning and nothing else; with numbers as tags (module
`ProofKernel.Term.Node`) it is a graph of nodes with an identity.

* `Atom`: a name with the spelling it is shown by;
* `Term`, `PlainTerm`: terms, and terms without tags;
* `Term.bare`, `Term.equal`: a term without tags and spellings, and equality up to these;
* `Term.dump`: the fully bracketed text;
* `Term.head`, `Term.args`: the head of a chain of calls and its arguments.
-/

namespace ProofKernel

/-- A name in a term. `shown?` is the spelling it was read from, where that is another one: `==`
is read as `=` but shown as written. -/
structure Atom (ι : Type) where
  tag : ι
  name : Name
  shown? : Option Name
deriving DecidableEq, Repr

/-- Variables and constants, calls, and abstractions. -/
inductive Term (ι : Type) where
  | var (a : Atom ι)
  | app (tag : ι) (fn arg : Term ι)
  | abs (tag : ι) (bound : Atom ι) (body : Term ι)
deriving DecidableEq, Repr

/-- Terms without tags. -/
abbrev PlainTerm := Term Unit

namespace Atom

variable {ι : Type}

/-- The spelling of the name. -/
def shown (a : Atom ι) : Name := a.shown?.getD a.name

/-- Whether the name is that of a logic variable. -/
def isVariable (a : Atom ι) : Bool := a.name.isVariable

/-- The literal that the name spells. -/
def literal? (a : Atom ι) : Option Literal := Literal.ofName? a.name

/-- The atom with another tag. -/
def retag {κ : Type} (tag : κ) (a : Atom ι) : Atom κ := ⟨tag, a.name, a.shown?⟩

/-- An atom shown as it is named. -/
def plain (name : Name) : Atom Unit := ⟨(), name, none⟩

/-- An atom shown by a spelling; the spelling is kept only where it is another than the name. -/
def aliased (name shown : Name) : Atom Unit := ⟨(), name, if shown = name then none else some shown⟩

end Atom

namespace Term

variable {ι κ : Type}

/-! ## Building plain terms -/

/-- The variable or constant of a name. -/
def named (name : Name) : PlainTerm := .var (.plain name)

/-- The variable or constant of a name, shown by a spelling. -/
def aliased (name shown : Name) : PlainTerm := .var (.aliased name shown)

/-- The call of a function. -/
def call (fn arg : PlainTerm) : PlainTerm := .app () fn arg

/-- The call of an operator on its two operands. -/
def callBetween (left op right : PlainTerm) : PlainTerm := call (call op left) right

/-- The abstraction over a name. -/
def lambda (bound : Name) (body : PlainTerm) : PlainTerm := .abs () (.plain bound) body

/-! ## Comparing -/

/-- The term without tags. -/
def plain : Term ι → PlainTerm
  | .var a => .var (a.retag ())
  | .app _ f x => .app () f.plain x.plain
  | .abs _ b body => .abs () (b.retag ()) body.plain

/-- The term without tags and spellings. -/
def bare : Term ι → PlainTerm
  | .var a => named a.name
  | .app _ f x => call f.bare x.bare
  | .abs _ b body => lambda b.name body.bare

/-- Equality that ignores tags and spellings: a spelling denotes the name that it stands for. -/
def equal (m : Term ι) (n : Term κ) : Bool := m.bare == n.bare

/-! ## Text -/

/-- The fully bracketed text, with the names as shown. -/
def dump : Term ι → String
  | .var a => a.shown
  | .app _ f x => "(" ++ f.dump ++ " " ++ x.dump ++ ")"
  | .abs _ b body => "\x7b" ++ b.shown ++ ". " ++ body.dump ++ "\x7d"

/-- The atoms in the order of `dump`, a binder before its body. -/
def atoms : Term ι → List (Atom ι)
  | .var a => [a]
  | .app _ f x => f.atoms ++ x.atoms
  | .abs _ b body => b :: body.atoms

/-! ## Chains of calls -/

/-- The term that a chain of calls applies. -/
def head : Term ι → Term ι
  | .app _ f _ => f.head
  | m => m

/-- The arguments of a chain of calls, after those given. -/
def argsAnd : Term ι → List (Term ι) → List (Term ι)
  | .app _ f x, rest => f.argsAnd (x :: rest)
  | _, rest => rest

/-- The arguments of a chain of calls. -/
def args (m : Term ι) : List (Term ι) := m.argsAnd []

/-- Whether the term is a call with at least `n` arguments. -/
def hasArgs : Term ι → Nat → Bool
  | _, 0 => true
  | .app _ f _, n + 1 => f.hasArgs n
  | _, _ => false

/-! ## Kinds of terms -/

/-- The name of a leaf. -/
def name? : Term ι → Option Name
  | .var a => some a.name
  | _ => none

/-- A logic variable. -/
def isVariable : Term ι → Bool
  | .var a => a.isVariable
  | _ => false

/-- A name that is no logic variable. -/
def isConst : Term ι → Bool
  | .var a => !a.isVariable
  | _ => false

/-- The given name. -/
def isNamed (name : Name) : Term ι → Bool
  | .var a => a.name == name
  | _ => false

/-- The number that a numeral stands for. -/
def number? : Term ι → Option Int
  | .var a => match a.literal? with
    | some (.int n) => some n
    | _ => none
  | _ => none

/-- The content of a string literal. -/
def string? : Term ι → Option String
  | .var a => match a.literal? with
    | some (.str s) => some s
    | _ => none
  | _ => none

/-- A numeral. -/
def isNumeral (m : Term ι) : Bool := m.number?.isSome

/-- A negative numeral. -/
def isNegative (m : Term ι) : Bool := m.number?.any (· < 0)

/-- A call of a named function; of the given name, if one is given. -/
def isCall (name : Option Name) : Term ι → Bool
  | .app _ (.var f) _ => name.all (f.name == ·)
  | _ => false

/-- A call of a named function on two arguments; of the given name, if one is given. -/
def isCallOnTwo (name : Option Name) : Term ι → Bool
  | .app _ f _ => f.isCall name
  | _ => false

/-- The operator, the left and the right operand of a call of a call. -/
def between? : Term ι → Option (Term ι × Term ι × Term ι)
  | .app _ (.app _ op left) right => some (op, left, right)
  | _ => none

/-- A call of a call. -/
def isBetween (m : Term ι) : Bool := m.between?.isSome

/-- What a call of a call applies. -/
def operator? (m : Term ι) : Option (Term ι) := m.between?.map (·.1)

/-- The left operand of a call of a call. -/
def left? (m : Term ι) : Option (Term ι) := m.between?.map (·.2.1)

/-- The right operand of a call of a call. -/
def right? (m : Term ι) : Option (Term ι) := m.between?.map (·.2.2)

end Term

end ProofKernel
