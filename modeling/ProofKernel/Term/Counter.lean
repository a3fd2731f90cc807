import ProofKernel.Term.Parse

/-!
# Reading with a counter

The two readers as they run in place, on a cursor that holds the tokens that are left and a counter of
the levels that are open. The counter is raised before what takes a level is read. It is lowered by
one after a bracket or an operand, and after a chain by the number of its links. Nothing in these
readers says that they end, or that the counter comes back to where it was.

* `Parser.Cursor`, `Parser.Halt`, `Parser.Counted`: the state, why a reading breaks off, and readings;
* `Parser.enter`, `Parser.leave`: raising and lowering the counter;
* `OperatorTable.countedOperand`, `OperatorTable.countedBracket`, `OperatorTable.countedSubterm`,
  `OperatorTable.countedLinks`: the readers;
* `OperatorTable.countedWhole`: the term that all tokens of a stream make up.
-/

namespace ProofKernel

namespace Parser

/-- How many levels are open, and the tokens that are left. -/
structure Cursor where
  depth : Nat
  tokens : List Token

/-- Why a reading breaks off: for a fault of the text, or because the counter would fall below
zero. -/
inductive Halt where
  | fault (f : Fault)
  | underflow

/-- Readings with a counter. There is no result where a reading does not end. -/
abbrev Counted := StateT Cursor (ExceptT Halt Option)

/-- A reader of tokens alone. -/
def uncounted {β : Type} (f : Reader β) : Counted β := fun s =>
  match f s.tokens with
  | .ok (b, ts) => pure (b, { s with tokens := ts })
  | .error e => throw (.fault e)

/-- What the tokens that are left say; they all stay. -/
def look {β : Type} (f : List Token → Except Fault β) : Counted β := fun s =>
  match f s.tokens with
  | .ok b => pure (b, s)
  | .error e => throw (.fault e)

/-- The token after the next `n` ones. -/
def ahead (stuck : Bool) (n : Nat) : Counted (Option Token) := look fun ts => peek stuck (ts.drop n)

/-- Opens a level, which must be within the limit. -/
def enter (limit : Nat) (t : Token) : Counted Unit := fun s =>
  if limit < s.depth + 1 then throw (.fault (.refused .tooDeep t))
  else pure ((), { s with depth := s.depth + 1 })

/-- Closes levels. -/
def leave (levels : Nat) : Counted Unit := fun s =>
  if s.depth < levels then throw .underflow
  else pure ((), { s with depth := s.depth - levels })

/-- The operator that stands alone before a closing bracket, if the next two tokens are such ones. -/
def loneOperator? (T : OperatorTable) (op? close? : Option Token) : Option Token :=
  match op?, close? with
  | some op, some close => if isBareOperator T op && close.text == ")" then some op else none
  | _, _ => none

end Parser

namespace OperatorTable

open ProofKernel.Parser

mutual

/-- One operand, if the next token can start one. -/
def countedOperand (T : OperatorTable) (stuck : Bool) (limit : Nat) :
    Counted (Option PlainTerm) := do
  match ← ahead stuck 0 with
  | none => return none
  | some t => match t.kind with
    | .opening => do
      enter limit t
      let m ← T |>.countedBracket stuck limit t
      leave 1
      return some m
    | .closing => return none
    | .number | .quoted => do
      let _ ← uncounted (next stuck)
      return some (.named t.text)
    | .ident | .symbol => T |>.countedWord stuck limit t
partial_fixpoint

/-- The operand that an identifier or a symbol, which is the next token, starts, if it can start
one. -/
def countedWord (T : OperatorTable) (stuck : Bool) (limit : Nat) (t : Token) :
    Counted (Option PlainTerm) :=
  if T.isBefore t.text then do
    let _ ← uncounted (next stuck)
    T |>.countedOperation stuck limit (T.leaf t.text) t
  else if t.text = "-" then do
    let _ ← uncounted (next stuck)
    let u? ← ahead stuck 0
    match u?.filter fun u => u.kind = .number ∧ u.offset = t.offset + 1 with
    | some u => do
      let _ ← uncounted (next stuck)
      return some (.named ("-" ++ u.text))
    | none => T |>.countedOperation stuck limit (.named "neg") t
  else if T.tokenPower t = namePower then do
    let _ ← uncounted (next stuck)
    return some (T.leaf t.text)
  else return none
partial_fixpoint

/-- The call of an operator on the operand that it stands before. -/
def countedOperation (T : OperatorTable) (stuck : Bool) (limit : Nat) (op : PlainTerm) (t : Token) :
    Counted (Option PlainTerm) := do
  enter limit t
  let m ← T |>.countedSubterm stuck limit beforePower true
  leave 1
  return some (.call op m)
partial_fixpoint

/-- What an opening bracket, which is the next token, encloses. -/
def countedBracket (T : OperatorTable) (stuck : Bool) (limit : Nat) (opening : Token) :
    Counted PlainTerm := do
  let _ ← uncounted (next stuck)
  if opening.text = "(" then do
    let op? ← ahead stuck 0
    let close? ← ahead stuck 1
    match loneOperator? T op? close? with
    | some op => do
      let _ ← uncounted (next stuck)
      let _ ← uncounted (next stuck)
      return T.leaf op.text
    | none => do
      let m ← T |>.countedSubterm stuck limit endPower false
      uncounted (expect stuck .closing ")")
      return m
  else if opening.text = "\x7b" then do
    let bound ← uncounted (next stuck)
    if bound.kind = .ident ∧ Name.isVariable bound.text then do
      uncounted (expect stuck .symbol ".")
      let m ← T |>.countedSubterm stuck limit endPower false
      uncounted (expect stuck .closing "\x7d")
      return .lambda bound.text m
    else throw (.fault (.refused .expectedVariable bound))
  else throw (.fault (.refused .unexpectedBracket opening))
partial_fixpoint

/-- An operand, which must be there, and its chain. -/
def countedSubterm (T : OperatorTable) (stuck : Bool) (limit : Nat) (power : Nat)
    (afterBefore : Bool) : Counted PlainTerm := do
  match ← T |>.countedOperand stuck limit with
  | some left => T |>.countedLinks stuck limit power afterBefore 0 left
  | none => match ← ahead stuck 0 with
    | some t => throw (.fault (.refused .expectedTerm t))
    | none => throw (.fault .ended)
partial_fixpoint

/-- What a chain goes on with after so many links. Its levels are closed together at its end. -/
def countedLinks (T : OperatorTable) (stuck : Bool) (limit : Nat) (power : Nat)
    (afterBefore : Bool) (links : Nat) (left : PlainTerm) : Counted PlainTerm := do
  match ← ahead stuck 0 with
  | none => do
    leave links
    return left
  | some t =>
    let own := chainPower T afterBefore t
    if own ≤ power then do
      leave links
      return left
    else do
      enter limit t
      if own < namePower && !T.isBefore t.text then do
        let _ ← uncounted (next stuck)
        if ← look (endsOperand stuck) then
          T |>.countedLinks stuck limit power afterBefore (links + 1) (.call (T.leaf t.text) left)
        else do
          let right ← T |>.countedSubterm stuck limit own false
          T |>.countedLinks stuck limit power afterBefore (links + 1)
            (.callBetween left (T.leaf t.text) right)
      else do
        match ← T |>.countedOperand stuck limit with
        | some arg => T |>.countedLinks stuck limit power afterBefore (links + 1) (.call left arg)
        | none => do
          leave (links + 1)
          return left
partial_fixpoint

end

/-- The term that all tokens of a stream make up, read from a counter at zero. -/
def countedWhole (T : OperatorTable) (limit : Nat) (stream : TokenStream) :
    Option (Except Halt PlainTerm) :=
  let run : Counted PlainTerm := do
    let m ← T.countedSubterm stream.stuck.isSome limit endPower false
    look (finish stream.stuck.isSome)
    return m
  run.run' ⟨0, stream.tokens⟩

end OperatorTable

end ProofKernel
