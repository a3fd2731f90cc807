/-!
# Source texts and positions in them

Offsets count bytes of the UTF-8 form, columns count characters.

* `Source`: a named text;
* `upTo`: the characters that end at or before an offset;
* `Source.position`, `Source.line`: the line and column of an offset, the text of a line;
* `Excerpt`: a range of a source, shown with its position, its line and a row of carets.
-/

namespace ProofKernel

namespace Text

/-- The number of bytes of a text. -/
def byteSize : List Char → Nat
  | [] => 0
  | c :: cs => c.utf8Size + byteSize cs

/-- The characters that end at or before the offset. -/
def upTo : List Char → Nat → List Char
  | [], _ => []
  | c :: cs, offset => if c.utf8Size ≤ offset then c :: upTo cs (offset - c.utf8Size) else []

/-- Whether the offset lies between two characters, or at an end of the text. -/
def isBoundary (cs : List Char) (offset : Nat) : Bool := byteSize (upTo cs offset) == offset

/-- The characters between two boundaries. -/
def slice? (cs : List Char) (start stop : Nat) : Option (List Char) :=
  if start ≤ stop ∧ isBoundary cs start ∧ isBoundary cs stop then
    some ((upTo cs stop).drop (upTo cs start).length)
  else none

/-- The pieces of a text between its newlines. -/
def lines : List Char → List (List Char)
  | [] => [[]]
  | c :: cs =>
    if c = '\n' then [] :: lines cs
    else match lines cs with
      | [] => [[c]]
      | first :: rest => (c :: first) :: rest

end Text

/-- A named text. -/
structure Source where
  name : String
  text : String
deriving DecidableEq, Repr

namespace Source

/-- The number of bytes of the text. -/
def size (s : Source) : Nat := Text.byteSize s.text.toList

/-- Line and column of an offset, both from one: the newlines before it, and the characters since
the last of them. -/
def position (s : Source) (offset : Nat) : Nat × Nat :=
  let before := Text.upTo s.text.toList offset
  (before.count '\n' + 1, (before.reverse.takeWhile (· ≠ '\n')).length + 1)

/-- `position`, where the offset is a boundary or past the end. -/
def position? (s : Source) (offset : Nat) : Option (Nat × Nat) :=
  if Text.isBoundary s.text.toList (min offset s.size) then some (s.position offset) else none

/-- The text of a line, counted from one; empty where there is no such line. -/
def line (s : Source) (n : Nat) : String :=
  match n with
  | 0 => ""
  | n + 1 => .ofList ((Text.lines s.text.toList)[n]?.getD [])

end Source

/-- A range of a source, from one offset to another. -/
structure Excerpt where
  source : Source
  start : Nat
  stop : Nat
deriving DecidableEq, Repr

namespace Excerpt

/-- The empty range at the end of a source. -/
def atEnd (s : Source) : Excerpt := ⟨s, s.size, s.size⟩

/-- The text of the range; empty where the range is none of the source. -/
def text (e : Excerpt) : String :=
  .ofList ((Text.slice? e.source.text.toList e.start e.stop).getD [])

/-- Position, blank line, the line's text, and carets under the range. -/
def render (e : Excerpt) : String :=
  let (line, column) := e.source.position e.start
  s!"{e.source.name}:{line}:{column}\n\n{e.source.line line}\n" ++
    "".pushn ' ' (column - 1) ++ "".pushn '^' (max 1 e.text.length) ++ "\n"

/-- `render`, where the range starts at a boundary or past the end. -/
def render? (e : Excerpt) : Option String :=
  if (e.source.position? e.start).isSome then some e.render else none

end Excerpt

end ProofKernel
