import ProofKernel.Name

/-!
# Paths

* `Segment`: a step from a term to one of its parts;
* `Path`: a row of segments, the route from a term to a part of it;
* `Path.read`: the path of a text, in which some words stand for two segments and `main` stands for
  the part of a step after its hypotheses;
* `Path.render`: the text of a path;
* `Path.concat`: a path followed by another one.
-/

namespace ProofKernel

/-- A step from a call to its function or argument, from an abstraction to its binder or body. -/
inductive Segment where
  | fn
  | arg
  | bound
  | body
deriving DecidableEq, Repr

/-- The word for a segment. -/
def Segment.word : Segment → String
  | .fn => "fn"
  | .arg => "arg"
  | .bound => "bound"
  | .body => "body"

/-- Why a path leads nowhere. `found` is the text of the term that the segment does not apply to. -/
inductive AddressError where
  | unknownSegment (word : String)
  | mismatch (segment : Segment) (found : String)
  | notAVariable (found : String)
deriving DecidableEq, Repr

/-- The message of an error. -/
def AddressError.message : AddressError → String
  | .unknownSegment word => s!"unknown path segment `{word}`"
  | .mismatch segment found => s!"path segment `{segment.word}` does not apply to {found}"
  | .notAVariable found => s!"only a variable can replace a binding occurrence, got {found}"

/-- The route from a term to a part of it. -/
abbrev Path := List Segment

namespace Path

/-- The pieces of a text between its slashes, without the empty ones. -/
def words (cs : List Char) : List (List Char) :=
  (go cs).filter (· ≠ [])
where
  /-- The pieces of a text between its slashes. -/
  go : List Char → List (List Char)
    | [] => [[]]
    | c :: cs =>
      if c = '/' then [] :: go cs
      else match go cs with
        | [] => [[c]]
        | first :: rest => (c :: first) :: rest

/-- The segments that a word stands for. `left`, `right` and `binop` are the parts of a call of a
call; `main` skips the hypotheses of a step that has some. -/
def ofWord (hasHyps : Bool) (word : String) : Except AddressError Path :=
  match word with
  | "fn" => .ok [.fn]
  | "arg" => .ok [.arg]
  | "bound" => .ok [.bound]
  | "body" => .ok [.body]
  | "left" => .ok [.fn, .arg]
  | "right" => .ok [.arg]
  | "binop" => .ok [.fn, .fn]
  | "main" => .ok (if hasHyps then [.arg] else [])
  | word => .error (.unknownSegment word)

/-- The path of a text, for a step that has hypotheses or not. -/
def read (hasHyps : Bool) (text : String) : Except AddressError Path := do
  let parts ← (words text.toList).mapM fun word => ofWord hasHyps (.ofList word)
  return parts.flatten

/-- The text of a path: each segment after a slash. -/
def render (p : Path) : String := String.join (p.map fun s => "/" ++ s.word)

/-- A path followed by another one, which gets the segments put in front of it, the last one first. -/
def concat (p q : Path) : Path :=
  if q.isEmpty then p else p.reverse.foldl (fun rest segment => segment :: rest) q

/-- The rest of a path that begins with the given segment. -/
def rest? (p : Path) (segment : Segment) : Option Path :=
  match p with
  | s :: p => if s = segment then some p else none
  | [] => none

end Path

end ProofKernel
