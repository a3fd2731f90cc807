import ProofKernel.Log
import ProofKernel.Scope
import ProofKernel.Term.Node

/-!
# Remembered parses

* `ParseCache`: the terms of texts read before, as a queue with the oldest first;
* `ParseCache.insert`: the queue with a new text at its end, and the texts that had to go.
-/

namespace ProofKernel

/-- A queue of texts with their terms, the oldest first. -/
structure ParseCache where
  capacity : Nat
  entries : List (String × Node)

namespace ParseCache

/-- The cache without entries. -/
def empty (capacity : Nat) : ParseCache := ⟨capacity, []⟩

/-- The term of a text. -/
def get? (c : ParseCache) (text : String) : Option Node := Scope.lookup? c.entries text

/-- The number of texts. -/
def size (c : ParseCache) : Nat := c.entries.length

/-- The cache without its entries. -/
def clear (c : ParseCache) : ParseCache := { c with entries := [] }

/-- The number of entries that must go before one more fits. -/
def excess (c : ParseCache) : Nat := c.size + 1 - c.capacity

/-- Puts a new text at the end, and drops as many of the oldest as needed. Texts that are there stay
as they are, and a cache without capacity takes nothing. The second result are the texts dropped. -/
def insert (c : ParseCache) (text : String) (m : Node) : ParseCache × List String :=
  if c.capacity = 0 ∨ (c.get? text).isSome then (c, [])
  else
    ({ c with entries := c.entries.drop c.excess ++ [(text, m)] },
      (c.entries.take c.excess).map (·.1))

/-- The records of an insertion that drops the given texts. -/
def evictions (dropped : List String) : List LogRecord :=
  dropped.map fun text => ⟨.trace, s!"parse cache evicts: {text}"⟩

end ParseCache

end ProofKernel
