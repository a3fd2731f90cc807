import ProofKernel.Operator

/-!
# Reading terms

Reading climbs precedences: an operand is followed by a chain of arguments and operators that bind
tighter than a given power. Nesting is limited: each bracket, each operator before its operand and
each link of a chain takes one level of the room that is left. So the room bounds the recursion.

* `ParseCause`, `ParseError`: why and where reading fails;
* `Parser.operand`, `Parser.chain`: the two mutually recursive readers;
* `Parser.subterm`: an operand with its chain;
* `Term.parse`: the term of a whole text.
-/

namespace ProofKernel

/-- What is wrong with a token. -/
inductive ParseCause where
  | expectedTerm
  | expectedText (text : String)
  | expectedVariable
  | unexpectedBracket
  | tokensRemain
  | tooDeep
deriving DecidableEq, Repr

/-- The message of a cause. -/
def ParseCause.message : ParseCause → String
  | .expectedTerm => "expected term"
  | .expectedText text => s!"expected '{text}'"
  | .expectedVariable => "expected variable"
  | .unexpectedBracket => "unexpected bracket"
  | .tokensRemain => "expected EOF but tokens remain"
  | .tooDeep => "expression nested too deeply"

/-- Why and where a text is no term. -/
inductive ParseError where
  | lex (e : LexError)
  | refused (cause : ParseCause) (place : Excerpt)
  | atEnd (place : Excerpt)
deriving DecidableEq, Repr

namespace ParseError

/-- The offset at which the error was detected. -/
def offset : ParseError → Nat
  | .lex e => e.place.start
  | .refused _ place => place.start
  | .atEnd place => place.start

/-- The message of an error, with its place. -/
def message : ParseError → String
  | .lex e => s!"tokenize error: {e.message}"
  | .refused cause place => s!"parse error: {cause.message} at {place.render}"
  | .atEnd place => s!"unexpected end of input at {place.render}"

end ParseError

namespace Parser

/-- Why reading a row of tokens fails: at a token, at their end, or at the text that no token begins
with after them. -/
inductive Fault where
  | stuck
  | ended
  | refused (cause : ParseCause) (token : Token)
deriving DecidableEq, Repr

/-- The error of a fault in a source. -/
def Fault.toError (source : Source) (stream : TokenStream) : Fault → ParseError
  | .stuck => match stream.error? source with
    | some e => .lex e
    | none => .atEnd (.atEnd source)
  | .ended => .atEnd (.atEnd source)
  | .refused cause token => .refused cause (token.excerpt source)

/-- A reader takes tokens and leaves the rest of them. -/
abbrev Reader (α : Type) := List Token → Except Fault (α × List Token)

/-- What comes after the last token: the end, or text that no token begins with. -/
def atLast (stuck : Bool) : Fault := if stuck then .stuck else .ended

/-- The next token, which stays. -/
def peek (stuck : Bool) : List Token → Except Fault (Option Token)
  | t :: _ => .ok (some t)
  | [] => if stuck then .error .stuck else .ok none

/-- The next token. -/
def next (stuck : Bool) : Reader Token
  | t :: ts => .ok (t, ts)
  | [] => .error (atLast stuck)

/-- The next token, which must have the given kind and text. -/
def expect (stuck : Bool) (kind : TokenKind) (text : String) : Reader Unit := fun ts => do
  let (t, ts) ← next stuck ts
  if t.kind = kind ∧ t.text = text then return ((), ts)
  throw (.refused (.expectedText text) t)

/-- The names that a token in brackets of its own may stand for. -/
def isBareOperator (table : OperatorTable) (t : Token) : Bool :=
  match t.kind with
  | .symbol => true
  | .ident => (table.get? t.text).isSome
  | _ => false

/-- An operand, which must be there, and its chain. -/
def sequence (stuck : Bool) (operand : Reader (Option PlainTerm))
    (chain : PlainTerm → Reader PlainTerm) : Reader PlainTerm := fun ts => do
  match ← operand ts with
  | (some left, ts) => chain left ts
  | (none, ts) => match ← peek stuck ts with
    | some t => throw (.refused .expectedTerm t)
    | none => throw .ended

/-- A term and the bracket that closes it. -/
def grouped (stuck : Bool) (inner : Reader PlainTerm) : Reader PlainTerm := fun ts => do
  let (m, ts) ← inner ts
  let ((), ts) ← expect stuck .closing ")" ts
  return (m, ts)

/-- The bound name, the dot, the body and the bracket of an abstraction. -/
def abstraction (stuck : Bool) (inner : Reader PlainTerm) : Reader PlainTerm := fun ts => do
  let (bound, ts) ← next stuck ts
  unless bound.kind = .ident ∧ Name.isVariable bound.text do
    throw (.refused .expectedVariable bound)
  let ((), ts) ← expect stuck .symbol "." ts
  let (body, ts) ← inner ts
  let ((), ts) ← expect stuck .closing "\x7d" ts
  return (.lambda bound.text body, ts)

/-- What follows an opening bracket: an operator on its own, a term or an abstraction. -/
def bracketed (table : OperatorTable) (stuck : Bool) (inner : Reader PlainTerm) (opening : Token) :
    Reader PlainTerm := fun ts =>
  if opening.text = "(" then
    match ts with
    | op :: close :: rest =>
      if isBareOperator table op && close.text == ")" then .ok (table.leaf op.text, rest)
      else grouped stuck inner ts
    | _ => if stuck then .error .stuck else grouped stuck inner ts
  else if opening.text = "\x7b" then abstraction stuck inner ts
  else .error (.refused .unexpectedBracket opening)

/-- The numeral that directly follows a minus sign. -/
def adjacentNumber (minus : Token) : List Token → Option (Token × List Token)
  | t :: ts => if t.kind = .number ∧ t.offset = minus.offset + 1 then some (t, ts) else none
  | [] => none

/-- The power of a token after an operator that stands before its operand: another such operator
is one of its operands. -/
def chainPower (table : OperatorTable) (afterBefore : Bool) (t : Token) : Nat :=
  let power := table.tokenPower t
  if afterBefore && power == beforePower then power + 1 else power

/-- Whether no operand can follow: the tokens end, or a bracket closes. -/
def endsOperand (stuck : Bool) (ts : List Token) : Except Fault Bool := do
  match ← peek stuck ts with
  | some t => return t.kind == .closing
  | none => return true

mutual

/-- One operand, if the next token can start one. -/
def operand (table : OperatorTable) (stuck : Bool) (room : Nat) : Reader (Option PlainTerm)
  | [] => if stuck then .error .stuck else .ok (none, [])
  | t :: ts =>
    /- The operand of an operator that stands before it. -/
    let applied (op : PlainTerm) : Except Fault (Option PlainTerm × List Token) :=
      match room with
      | 0 => .error (.refused .tooDeep t)
      | room + 1 => do
        let (m, ts) ←
          sequence stuck (operand table stuck room) (chain table stuck room beforePower true) ts
        return (some (.call op m), ts)
    match t.kind with
    | .opening =>
      match room with
      | 0 => .error (.refused .tooDeep t)
      | room + 1 => do
        let inner := sequence stuck (operand table stuck room) (chain table stuck room endPower false)
        let (m, ts) ← bracketed table stuck inner t ts
        return (some m, ts)
    | .closing => .ok (none, t :: ts)
    | .number | .quoted => .ok (some (.named t.text), ts)
    | .ident | .symbol =>
      if table.isBefore t.text then applied (table.leaf t.text)
      else if t.text = "-" then
        match adjacentNumber t ts with
        | some (n, ts) => .ok (some (.named ("-" ++ n.text)), ts)
        | none => if ts.isEmpty && stuck then .error .stuck else applied (.named "neg")
      else if table.tokenPower t = namePower then .ok (some (table.leaf t.text), ts)
      else .ok (none, t :: ts)

/-- The arguments and operators after an operand that bind tighter than a power. An operator
without a right operand is called on its left one. -/
def chain (table : OperatorTable) (stuck : Bool) (room : Nat) (power : Nat) (afterBefore : Bool)
    (left : PlainTerm) : Reader PlainTerm
  | [] => if stuck then .error .stuck else .ok (left, [])
  | t :: ts =>
    let own := chainPower table afterBefore t
    if own ≤ power then .ok (left, t :: ts)
    else match room with
      | 0 => .error (.refused .tooDeep t)
      | room + 1 =>
        if own < namePower && !table.isBefore t.text then do
          let op := table.leaf t.text
          if ← endsOperand stuck ts then chain table stuck room power afterBefore (.call op left) ts
          else
            let (right, ts) ←
              sequence stuck (operand table stuck room) (chain table stuck room own false) ts
            chain table stuck room power afterBefore (.callBetween left op right) ts
        else do
          match ← operand table stuck room (t :: ts) with
          | (some arg, ts) => chain table stuck room power afterBefore (.call left arg) ts
          | (none, ts) => return (left, ts)

end

/-- A term whose operators bind tighter than a power. -/
def subterm (table : OperatorTable) (stuck : Bool) (room power : Nat) : Reader PlainTerm :=
  sequence stuck (operand table stuck room) (chain table stuck room power false)

/-- Fails at the first token that is left. -/
def finish (stuck : Bool) (ts : List Token) : Except Fault Unit := do
  match ← peek stuck ts with
  | some t => throw (.refused .tokensRemain t)
  | none => return ()

/-- The term that all tokens of a stream make up. -/
def whole (table : OperatorTable) (room : Nat) (stream : TokenStream) : Except Fault PlainTerm := do
  let (m, ts) ← subterm table stream.stuck.isSome room endPower stream.tokens
  finish stream.stuck.isSome ts
  return m

end Parser

namespace Term

/-- The term of a source, nested no deeper than the limit. -/
def parseSource (table : OperatorTable) (limit : Nat) (source : Source) :
    Except ParseError PlainTerm :=
  let stream := Token.scan source.text
  (Parser.whole table limit stream).mapError (·.toError source stream)

/-- The term of a text, nested no deeper than the limit. -/
def parse (table : OperatorTable) (limit : Nat) (text : String) : Except ParseError PlainTerm :=
  parseSource table limit ⟨"<input>", text⟩

end Term

end ProofKernel
