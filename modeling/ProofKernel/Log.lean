import ProofKernel.Text.Blank

/-!
# Log records

* `LogLevel`, `LogRecord`: records and how much they matter;
* `LogFilter`: the level that records must have to be shown;
* `LogFilter.read`: the filter of a text;
* `LogFilter.render`: the lines of the records that a filter shows.
-/

namespace ProofKernel

/-- How much a record matters, from most to least. -/
inductive LogLevel where
  | error
  | warn
  | info
  | debug
  | trace
deriving DecidableEq, Repr

namespace LogLevel

/-- The word for a level. -/
def word : LogLevel → String
  | .error => "ERROR"
  | .warn => "WARN"
  | .info => "INFO"
  | .debug => "DEBUG"
  | .trace => "TRACE"

/-- The levels from one on: the more, the less a record matters. -/
def rank : LogLevel → Nat
  | .error => 1
  | .warn => 2
  | .info => 3
  | .debug => 4
  | .trace => 5

/-- All levels. -/
def all : List LogLevel := [.error, .warn, .info, .debug, .trace]

end LogLevel

/-- A message with its level. -/
structure LogRecord where
  level : LogLevel
  message : String
deriving DecidableEq, Repr

/-- The least level that is shown; `none` shows nothing. -/
abbrev LogFilter := Option LogLevel

namespace LogFilter

/-- The word for a filter. -/
def word : LogFilter → String
  | none => "OFF"
  | some level => level.word

/-- The filter that a text names, in any case of letters and between blanks. Other texts, and no
text, stand for warnings. -/
def read (text : Option String) : LogFilter :=
  match text with
  | none => some .warn
  | some text =>
    let word := (Text.trimString text).map Char.toUpper
    if word = "OFF" then none
    else some ((LogLevel.all.find? fun level => level.word = word).getD .warn)

/-- Whether a filter shows records of a level. -/
def admits (f : LogFilter) (level : LogLevel) : Bool := f.any fun least => level.rank ≤ least.rank

/-- The lines of the records that a filter shows. -/
def render (f : LogFilter) (records : List LogRecord) : List String :=
  (records.filter fun r => f.admits r.level).map fun r => s!"[{r.level.word}] {r.message}"

end LogFilter

end ProofKernel
