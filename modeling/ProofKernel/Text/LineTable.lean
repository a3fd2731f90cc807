import ProofKernel.Text.Source

/-!
# Positions by a table of lines

A source keeps the offsets at which its lines begin, so that no position needs a walk over the whole
text.

* `binarySearch`: where in a part of an array a number is, or would have to be put;
* `LineTable`: a source with the offsets at which its lines begin;
* `LineTable.position?`, `LineTable.line?`: the line and column of an offset, and the text of a
  line, found by the table.
-/

namespace ProofKernel

/-- How a search ends: at an index that holds the number, or at the index before which the number
would have to be put. -/
inductive SearchEnd where
  | found (index : Nat)
  | absent (index : Nat)
deriving DecidableEq, Repr

/-- Halves the part of the array from index `lo` up to index `hi` until the number is found or
nothing is left of the part. -/
def binarySearch (xs : Array Nat) (x lo hi : Nat) (hhi : hi ≤ xs.size) : SearchEnd :=
  if hlo : lo < hi then
    let mid := lo + (hi - lo) / 2
    have hmid : mid < hi := by omega
    if xs[mid] = x then .found mid
    else if xs[mid] < x then binarySearch xs x (mid + 1) hi hhi
    else binarySearch xs x lo mid (Nat.le_trans (Nat.le_of_lt hmid) hhi)
  else .absent lo
termination_by hi - lo

/-- The offsets behind the newlines of a text that begins at an offset. -/
def Text.newlineEnds (offset : Nat) : List Char → List Nat
  | [] => []
  | c :: cs =>
    if c = '\n' then (offset + c.utf8Size) :: newlineEnds (offset + c.utf8Size) cs
    else newlineEnds (offset + c.utf8Size) cs

/-- A source with the offsets at which its lines begin: the first one, and each one behind a
newline. -/
structure LineTable where
  source : Source
  starts : Array Nat
  starts_eq : starts.toList = 0 :: Text.newlineEnds 0 source.text.toList

/-- The table of a source. -/
def Source.lineTable (s : Source) : LineTable :=
  ⟨s, (0 :: Text.newlineEnds 0 s.text.toList).toArray, rfl⟩

namespace LineTable

/-- The index of the line that an offset is in: the line that begins there, or the last one that
begins before. -/
def lineIndex (t : LineTable) (offset : Nat) : Nat :=
  match binarySearch t.starts offset 0 t.starts.size (Nat.le_refl _) with
  | .found index => index
  | .absent index => index - 1

/-- Line and column of an offset, both from one. Offsets past the end count as the end; there is no
position within a character. -/
def position? (t : LineTable) (offset : Nat) : Option (Nat × Nat) := do
  let offset := min offset t.source.size
  let index := t.lineIndex offset
  let start ← t.starts[index]?
  let before ← Text.slice? t.source.text.toList start offset
  return (index + 1, before.length + 1)

/-- The text of a line, counted from one: up to the newline before the next line, or to the end.
Empty where there is no such line. -/
def line? (t : LineTable) (n : Nat) : Option String :=
  if n = 0 ∨ t.starts.size < n then some ""
  else do
    let start ← t.starts[n - 1]?
    let stop := match t.starts[n]? with
      | some next => if start < next then next - 1 else next
      | none => t.source.size
    let line ← Text.slice? t.source.text.toList start stop
    return .ofList line

end LineTable

end ProofKernel
