import Mathlib.Data.List.Nodup
import ProofKernel.ParseCache

/-!
# Remembered parses in a map

The texts read before in two parts: a map that finds the term of a text at once, and a queue of the
texts that says which of them came first.

* `IndexedCache`: a map from texts to terms, with the texts in the order in which they came;
* `IndexedCache.makeRoom`: drops the oldest texts until one more fits;
* `IndexedCache.insert`: the cache with a new text, and the texts that had to go.
-/

namespace ProofKernel

/-- A map from texts to their terms, and its texts, the oldest first. -/
structure IndexedCache where
  capacity : Nat
  entries : Std.HashMap String Node
  order : List String

namespace IndexedCache

/-- The cache without entries. -/
def empty (capacity : Nat) : IndexedCache := ⟨capacity, ∅, []⟩

/-- The term of a text. -/
def get? (c : IndexedCache) (text : String) : Option Node := c.entries[text]?

/-- The number of texts. -/
def size (c : IndexedCache) : Nat := c.entries.size

/-- Whether there are no texts. -/
def isEmpty (c : IndexedCache) : Bool := c.entries.isEmpty

/-- The cache without its entries. -/
def clear (c : IndexedCache) : IndexedCache := { c with entries := ∅, order := [] }

/-- Drops the oldest texts, one at a time, until the map has room for one more or there is no text
left to drop. The second result are the texts dropped. -/
def makeRoom (capacity : Nat) (entries : Std.HashMap String Node) :
    List String → IndexedCache × List String
  | [] => (⟨capacity, entries, []⟩, [])
  | oldest :: order =>
    if capacity ≤ entries.size then
      let (c, dropped) := makeRoom capacity (entries.erase oldest) order
      (c, oldest :: dropped)
    else (⟨capacity, entries, oldest :: order⟩, [])

/-- Puts a new text into the map and at the end of the order, when there is room for it. Texts that
are there stay as they are, and a cache without capacity takes nothing. The second result are the
texts dropped. -/
def insert (c : IndexedCache) (text : String) (m : Node) : IndexedCache × List String :=
  if c.capacity = 0 ∨ text ∈ c.entries then (c, [])
  else
    let (c, dropped) := makeRoom c.capacity c.entries c.order
    ({ c with entries := c.entries.insert text m, order := c.order ++ [text] }, dropped)

end IndexedCache

end ProofKernel
