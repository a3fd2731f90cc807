import ProofKernel.Fresh

/-!
# Drawing fresh names

The search for a fresh name as it runs: one candidate after the other is looked up among the names
that exist, and the counter is moved on before each look. The counter has 64 bits. Nothing in the
loop says that it ends.

* `NameSupply.Halt`, `NameSupply.Drawing`: why a drawing breaks off, and drawings from a supply;
* `NameSupply.Call`, `NameSupply.Drawn`: what a fresh name is asked for, and what is given for it;
* `NameSupply.search`: the loop;
* `NameSupply.draw`, `NameSupply.drawAll`: one call, and a row of calls on one supply.
-/

namespace ProofKernel.NameSupply

/-- Why a drawing breaks off: the counter would need more than 64 bits. -/
inductive Halt where
  | exhausted
deriving DecidableEq, Repr

/-- Computations that draw names from a supply. There is no result where a drawing does not end. -/
abbrev Drawing := StateT NameSupply (ExceptT Halt Option)

/-- A call for a fresh name: what it is to be built on, and the names that exist. -/
structure Call where
  name : Name
  existing : List Name
deriving DecidableEq, Repr

/-- What a call gives: the fresh name, and the names that exist with it. -/
structure Drawn where
  fresh : Name
  existing : List Name
deriving DecidableEq, Repr

/-- The loop: the first candidate from the number of the supply on that does not exist, and the supply
after it. -/
def search (s : NameSupply) (base : Name) (existing : List Name) :
    ExceptT Halt Option (Name × NameSupply) :=
  if s.next + 1 < wordSize then
    let after : NameSupply := ⟨s.next + 1⟩
    if existing.contains (candidate base s.next) then after |>.search base existing
    else pure (candidate base s.next, after)
  else throw .exhausted
partial_fixpoint

/-- Draws a fresh name and adds it to the names that exist. -/
def draw (call : Call) : Drawing Drawn := fun s => do
  let (fresh, s) ← s.search (baseOf call.name) call.existing
  return (⟨fresh, fresh :: call.existing⟩, s)

/-- Draws a fresh name for each call of a row, all from one supply. -/
def drawAll (calls : List Call) : Drawing (List Drawn) := calls.mapM draw

end ProofKernel.NameSupply
