import ProofKernel.Name

/-!
# Fresh names

* `NameSupply`: a counter that only moves forward;
* `NameSupply.fresh`: a name built on another one that is not among given names.
-/

namespace ProofKernel

/-- A source of fresh names. The counter only moves forward, so that no two names it gives are
equal. -/
structure NameSupply where
  next : Nat
deriving DecidableEq, Repr

namespace NameSupply

/-- The supply that no name was drawn from. -/
def start : NameSupply := ⟨1⟩

/-- The name without an underscore and digits at its end. -/
def baseOf (name : Name) : Name :=
  let back := name.toList.reverse
  match back.takeWhile Char.isDigit, back.dropWhile Char.isDigit with
  | _ :: _, '_' :: rest => .ofList rest.reverse
  | _, _ => name

/-- The candidate with the given number. -/
def candidate (base : Name) (k : Nat) : Name := base ++ "_" ++ toString k

/-- The least number, from `k` on, whose candidate is not among the names. As many candidates as
there are names, and one more, are tried: one of them is new. -/
def firstNew (base : Name) (existing : List Name) (k : Nat) : Nat :=
  ((List.range' k (existing.length + 1)).find? fun i => !existing.contains (candidate base i)).getD k

/-- A new name built on `name` that is not among the names. -/
def fresh (s : NameSupply) (name : Name) (existing : List Name) : Name × NameSupply :=
  let base := baseOf name
  let k := firstNew base existing s.next
  (candidate base k, ⟨k + 1⟩)

end NameSupply

end ProofKernel
