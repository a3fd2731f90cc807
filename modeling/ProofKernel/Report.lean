import ProofKernel.Proof.Session

/-!
# Reports on texts of terms

A text holds one term per line; blank lines and lines that begin with `#` are skipped. Its report
gives each term with its type.

* `ReportError`: the first line that is no term, or has no type;
* `Report.lineOf`: the report of one line, in a session;
* `Report.process`: the report of a text, and the session after it.
-/

namespace ProofKernel

/-- What is wrong with a line. -/
inductive LineError where
  | parse (e : ParseError)
  | type (e : TypeError)

/-- The first line that is no term, or has no type. -/
structure ReportError where
  line : Nat
  cause : LineError

namespace ReportError

/-- The line that is wrong. -/
def context (e : ReportError) : String :=
  match e.cause with
  | .parse _ => s!"parse error on line {e.line}"
  | .type _ => s!"type error on line {e.line}"

/-- The line that is wrong, the error in it, and what caused that. -/
def chain (e : ReportError) : List String :=
  e.context :: match e.cause with
    | .parse (.lex l) => [(ParseError.lex l).message, l.message]
    | .parse p => [p.message]
    | .type t => [t.message]

/-- The messages of the chain in one line of text. -/
def message (e : ReportError) : String := ": ".intercalate e.chain

end ReportError

namespace Report

/-- Whether a line, without the blanks around it, is skipped. -/
def isSkipped (line : String) : Bool := line.isEmpty || line.front == '#'

/-- The report of a term. -/
def lineOf (line : String) : Attempt LineError String := do
  let m ← (Session.parse line).mapError LineError.parse
  let t ← (Session.inferType m).mapError LineError.type
  let { table, .. } ← get
  return s!"{m.pretty table} : {t.render typeLabel}"

/-- The report of the lines from a number on. -/
def linesFrom (number : Nat) : List (List Char) → Attempt ReportError (List String)
  | [] => return []
  | cs :: rest => do
    let line := String.ofList (Text.trim cs)
    if isSkipped line then linesFrom (number + 1) rest
    else
      let first ← (lineOf line).mapError (ReportError.mk number)
      return first :: (← linesFrom (number + 1) rest)

/-- The report of a text, and the session after it. -/
def process (text : String) : Except ReportError (List String) × Session :=
  (linesFrom 1 (Text.lines text.toList)).run (Session.start .standard)

end Report

end ProofKernel
