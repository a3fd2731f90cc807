/-!
# Simple types

* `Ty`: types over a set of type variables: variables, named types, and operators on types such as
  the arrow;
* `TypeVariable`: variables with a name of their own, or none;
* `Ty.bind`: the type with types put in for its variables;
* `Ty.vars`, `Ty.size`: the variables of a type and the number of its nodes;
* `Ty.render`: the text of a type.
-/

namespace ProofKernel

/-- Types with variables from `α`. -/
inductive Ty (α : Type) where
  | var (v : α)
  | const (name : String)
  | op (name : String) (params : List (Ty α))
deriving Repr, Inhabited

/-- A type variable: its number tells it apart from others, its name is how it is shown. -/
structure TypeVariable where
  tag : Nat
  name? : Option String
deriving DecidableEq, Repr

/-- The text of a variable; one without a name shows as an underscore. -/
def TypeVariable.label (v : TypeVariable) : String := v.name?.getD "_"

namespace Ty

variable {α β : Type}

/-- The type of functions. -/
@[match_pattern] def fn (dom cod : Ty α) : Ty α := .op "->" [dom, cod]

/-- The type of individuals. -/
def individual : Ty α := .const "i"

/-- The type of truth values. -/
def truth : Ty α := .const "o"

/-! ## Equality -/

mutual

/-- Decides equality of types. -/
def decEq [DecidableEq α] : (a b : Ty α) → Decidable (a = b)
  | .var v, .var w => if h : v = w then isTrue (by rw [h]) else isFalse (by simp [h])
  | .const x, .const y => if h : x = y then isTrue (by rw [h]) else isFalse (by simp [h])
  | .op f ps, .op g qs =>
    if h : f = g then
      match decEqs ps qs with
      | isTrue hs => isTrue (by rw [h, hs])
      | isFalse hs => isFalse (by simp [hs])
    else isFalse (by simp [h])
  | .var _, .const _ | .var _, .op .. | .const _, .var _ | .const _, .op .. | .op .., .var _
  | .op .., .const _ => isFalse (by simp)

/-- Decides equality of lists of types. -/
def decEqs [DecidableEq α] : (as bs : List (Ty α)) → Decidable (as = bs)
  | [], [] => isTrue rfl
  | a :: as, b :: bs =>
    match decEq a b with
    | isTrue h =>
      match decEqs as bs with
      | isTrue hs => isTrue (by rw [h, hs])
      | isFalse hs => isFalse (by simp [hs])
    | isFalse h => isFalse (by simp [h])
  | [], _ :: _ | _ :: _, [] => isFalse (by simp)

end

instance [DecidableEq α] : DecidableEq (Ty α) := decEq

/-! ## Variables and substitution -/

mutual

/-- The type with types put in for its variables. -/
def bind (f : α → Ty β) : Ty α → Ty β
  | .var v => f v
  | .const x => .const x
  | .op g ps => .op g (bindAll f ps)

/-- `bind` on each type of a list. -/
def bindAll (f : α → Ty β) : List (Ty α) → List (Ty β)
  | [] => []
  | p :: ps => bind f p :: bindAll f ps

end

mutual

/-- The variables of a type, in the order in which they occur. -/
def vars : Ty α → List α
  | .var v => [v]
  | .const _ => []
  | .op _ ps => varsAll ps

/-- The variables of the types of a list. -/
def varsAll : List (Ty α) → List α
  | [] => []
  | p :: ps => vars p ++ varsAll ps

end

mutual

/-- The number of nodes of a type. -/
def size : Ty α → Nat
  | .var _ => 1
  | .const _ => 1
  | .op _ ps => 1 + sizeAll ps

/-- The number of nodes of the types of a list. -/
def sizeAll : List (Ty α) → Nat
  | [] => 0
  | p :: ps => size p + sizeAll ps

end

/-- The type with `u` in place of the variable `v`. -/
def subst [DecidableEq α] (t : Ty α) (v : α) (u : Ty α) : Ty α :=
  t.bind fun w => if w = v then u else .var w

/-! ## Text -/

mutual

/-- The text of a type: arrows between their two sides, other operators before their arguments, all
in brackets. -/
def render (label : α → String) : Ty α → String
  | .var v => label v
  | .const x => x
  | .op "->" [dom, cod] => "(" ++ render label dom ++ " -> " ++ render label cod ++ ")"
  | .op f [] => f
  | .op f ps => "(" ++ f ++ renderAll label ps ++ ")"

/-- The texts of types, each after a blank. -/
def renderAll (label : α → String) : List (Ty α) → String
  | [] => ""
  | p :: ps => " " ++ render label p ++ renderAll label ps

end

/-! ## Small lemmas -/

theorem bindAll_eq_map (f : α → Ty β) (ps : List (Ty α)) : bindAll f ps = ps.map (bind f) := by
  induction ps with
  | nil => rfl
  | cons p ps ih => simp [bindAll, ih]

theorem varsAll_eq_flatMap (ps : List (Ty α)) : varsAll ps = ps.flatMap vars := by
  induction ps with
  | nil => rfl
  | cons p ps ih => simp [varsAll, ih]

mutual

theorem mem_vars_bind {f : α → Ty β} {w : β} :
    ∀ {t : Ty α}, w ∈ (t.bind f).vars ↔ ∃ v ∈ t.vars, w ∈ (f v).vars
  | .var v => by simp [bind, vars]
  | .const x => by simp [bind, vars]
  | .op g ts => by simpa [bind, vars] using mem_varsAll_bindAll (l := ts)

theorem mem_varsAll_bindAll {f : α → Ty β} {w : β} :
    ∀ {l : List (Ty α)}, w ∈ varsAll (bindAll f l) ↔ ∃ v ∈ varsAll l, w ∈ (f v).vars
  | [] => by simp [bindAll, varsAll]
  | p :: ps => by
    simp only [bindAll, varsAll, List.mem_append, mem_vars_bind (t := p),
      mem_varsAll_bindAll (l := ps)]
    grind

end

/-- The variables of a type after a substitution: those of `u` where `v` occurs, and the others. -/
theorem mem_vars_subst [DecidableEq α] {v w : α} {u t : Ty α} :
    w ∈ (t.subst v u).vars ↔ (v ∈ t.vars ∧ w ∈ u.vars) ∨ (w ∈ t.vars ∧ w ≠ v) := by
  rw [subst, mem_vars_bind]
  constructor
  · rintro ⟨x, hx, hw⟩
    split at hw
    · subst x; exact .inl ⟨hx, hw⟩
    · simp only [vars, List.mem_singleton] at hw
      subst w; exact .inr ⟨hx, ‹_›⟩
  · rintro (⟨hv, hw⟩ | ⟨hw, hne⟩)
    · exact ⟨v, hv, by simpa using hw⟩
    · exact ⟨w, hw, by simp [hne, vars]⟩

end Ty

end ProofKernel
