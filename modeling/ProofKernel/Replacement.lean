import ProofKernel.Substitution.Copies
import ProofKernel.Term.Locate

/-!
# Replacing a part on the way back

The replacement of a part as one walk down a path and back, on nodes that are told apart by their
numbers alone. What takes the place of the part is made when the walk gets there, and may be a new
node. On the way back a node whose part is still the same one is given back, and any other one is
made anew.

* `Node.replaceWith`: the term with another part at a path.
-/

namespace ProofKernel.Node

/-- The term with what `f` makes of its part at a path in the place of that part. -/
def replaceWith (f : Node → Build Node) (m : Node) : Path → ExceptT AddressError Build Node
  | [] => f m
  | segment :: path =>
    match m, segment with
    | .app t g x, .fn => do
      let g' ← replaceWith f g path
      callAgain (.app t g x) g x g' x
    | .app t g x, .arg => do
      let x' ← replaceWith f x path
      callAgain (.app t g x) g x g x'
    | .abs t b body, .body => do
      let body' ← replaceWith f body path
      absAgain (.abs t b body) b body body'
    | .abs t b body, .bound => do
      let old : Node := .var b
      let new ← replaceWith f old path
      if new.isSame old then return .abs t b body
      match new with
      | .var c => newAbs c body
      | other => throw (.notAVariable other.dump)
    | m, segment => throw (.mismatch segment m.dump)

end ProofKernel.Node
