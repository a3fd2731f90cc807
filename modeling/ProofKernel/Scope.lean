/-!
# Scopes

* `Scope`: an association list used while walking under binders, innermost frame first;
* `Scope.lookup?`: the value of the innermost frame of a name;
* `Scope.outward`: the scope from that frame outward.
-/

namespace ProofKernel

/-- Frames of names with their values, innermost first: inner frames shadow outer ones. -/
abbrev Scope (β : Type) := List (String × β)

namespace Scope

variable {β : Type}

/-- The scope from the innermost frame of a name outward; empty where the name has none. -/
def outward (s : Scope β) (name : String) : Scope β := s.dropWhile fun frame => frame.1 ≠ name

/-- The value of the innermost frame of a name. -/
def lookup? (s : Scope β) (name : String) : Option β := (s.find? fun frame => frame.1 = name).map (·.2)

/-- Whether a name has a frame. -/
def binds (s : Scope β) (name : String) : Bool := s.any fun frame => frame.1 = name

@[simp] theorem lookup?_nil (name : String) : lookup? ([] : Scope β) name = none := rfl

theorem lookup?_cons (x name : String) (b : β) (s : Scope β) :
    lookup? ((x, b) :: s) name = if x = name then some b else lookup? s name := by
  by_cases h : x = name <;> simp [lookup?, h]

end Scope

end ProofKernel
