import ProofKernel.SimpleType.Basic

/-!
# Unification

A store binds type variables to types. A binding's type holds no variable that is bound in the store
when the binding is made; it may hold variables that are bound later.

* `TypeStore`: bindings, newest first;
* `TypeStore.expand`: the type that a type stands for;
* `Equations.solve`: solves equations one after the other, and extends the store;
* `TypeStore.unify`: makes two types equal.
-/

namespace ProofKernel

/-- Why two types cannot be made equal. -/
inductive TypeClash (α : Type) where
  | mismatch (left right : Ty α)
  | recursive (v : α) (t : Ty α)

/-- The message of a clash. -/
def TypeClash.message {α : Type} (label : α → String) : TypeClash α → String
  | .mismatch left right => s!"type mismatch: {left.render label} vs {right.render label}"
  | .recursive v t => s!"recursive unification: {label v} occurs in {t.render label}"

/-- Bindings of type variables, newest first. -/
abbrev TypeStore (α : Type) := List (α × Ty α)

/-- Pairs of types to be made equal. -/
abbrev Equations (α : Type) := List (Ty α × Ty α)

variable {α : Type}

/-! ## Equations -/

namespace Equations

/-- The equations with a type put in for a variable. -/
def subst [DecidableEq α] (es : Equations α) (v : α) (u : Ty α) : Equations α :=
  es.map fun e => (e.1.subst v u, e.2.subst v u)

/-- The variables of the equations. -/
def vars (es : Equations α) : List α := es.flatMap fun e => e.1.vars ++ e.2.vars

/-- The number of nodes of the equations. -/
def size : Equations α → Nat
  | [] => 0
  | (a, b) :: es => a.size + b.size + size es

theorem size_append (es fs : Equations α) : size (es ++ fs) = size es + size fs := by
  induction es with
  | nil => simp [size]
  | cons e es ih => simp only [List.cons_append, size, ih]; omega

end Equations

/-- The number of different elements of a list. -/
def distinct [DecidableEq α] : List α → Nat
  | [] => 0
  | x :: xs => if x ∈ xs then distinct xs else distinct xs + 1

section Distinct

variable [DecidableEq α]

theorem distinct_filter_of_not_mem {v : α} {xs : List α} (h : v ∉ xs) :
    distinct (xs.filter (· ≠ v)) = distinct xs := by
  rw [List.filter_eq_self.2]
  grind

theorem distinct_filter_of_mem {v : α} {xs : List α} (h : v ∈ xs) :
    distinct (xs.filter (· ≠ v)) + 1 = distinct xs := by
  induction xs with
  | nil => simp at h
  | cons x xs ih =>
    by_cases hx : x = v
    · subst x
      by_cases hv : v ∈ xs
      · simp [distinct, hv, ← ih hv]
      · simpa [distinct, hv] using distinct_filter_of_not_mem hv
    · have hv : v ∈ xs := by grind
      have := ih hv
      have hm : x ∈ xs.filter (· ≠ v) ↔ x ∈ xs := by simp [hx]
      rw [List.filter_cons_of_pos (by simpa using hx)]
      simp only [distinct, hm]
      split <;> omega

theorem distinct_le_of_subset {xs ys : List α} (h : ∀ x ∈ xs, x ∈ ys) : distinct xs ≤ distinct ys := by
  induction xs generalizing ys with
  | nil => simp [distinct]
  | cons x xs ih =>
    by_cases hx : x ∈ xs
    · simpa [distinct, hx] using ih fun y hy => h y (List.mem_cons_of_mem _ hy)
    · have hxy : x ∈ ys := h x List.mem_cons_self
      have hsub : ∀ y ∈ xs, y ∈ ys.filter (· ≠ x) := by
        intro y hy
        have : y ≠ x := fun e => hx (e ▸ hy)
        simpa [this] using h y (List.mem_cons_of_mem _ hy)
      have := ih hsub
      have := distinct_filter_of_mem hxy
      simp [distinct, hx]
      omega

/-- A list whose elements are other ones of `ys` has fewer elements than `ys`. -/
theorem distinct_lt {v : α} {xs ys : List α} (hv : v ∈ ys) (h : ∀ x ∈ xs, x ∈ ys ∧ x ≠ v) :
    distinct xs < distinct ys := by
  have hsub : ∀ x ∈ xs, x ∈ ys.filter (· ≠ v) := fun x hx => by simpa using h x hx
  have := distinct_le_of_subset hsub
  have := distinct_filter_of_mem hv
  omega

end Distinct

namespace Equations

/-- Eliminating a variable that does not occur in its own type takes it out of the equations. -/
theorem distinct_vars_subst_lt [DecidableEq α] {v : α} {u : Ty α} {es : Equations α} {ws : List α}
    (hu : v ∉ u.vars) (hv : v ∈ ws) (huw : ∀ x ∈ u.vars, x ∈ ws) (hes : ∀ x ∈ es.vars, x ∈ ws) :
    distinct (es.subst v u).vars < distinct ws := by
  refine distinct_lt hv fun x hx => ?_
  simp only [vars, subst, List.flatMap_map, List.mem_flatMap, List.mem_append,
    Ty.mem_vars_subst] at hx
  obtain ⟨e, he, hx⟩ := hx
  have hmem : ∀ y, y ∈ e.1.vars ∨ y ∈ e.2.vars → y ∈ ws := fun y hy =>
    hes y (by simpa [vars] using ⟨e.1, e.2, he, hy⟩)
  rcases hx with (⟨_, hx⟩ | ⟨hx, hne⟩) | ⟨_, hx⟩ | ⟨hx, hne⟩
  · exact ⟨huw x hx, fun h => hu (h ▸ hx)⟩
  · exact ⟨hmem x (.inl hx), hne⟩
  · exact ⟨huw x hx, fun h => hu (h ▸ hx)⟩
  · exact ⟨hmem x (.inr hx), hne⟩

theorem vars_zip_subset {x : α} {ps qs : List (Ty α)} (h : x ∈ vars (ps.zip qs)) :
    x ∈ Ty.varsAll ps ∨ x ∈ Ty.varsAll qs := by
  simp only [vars, List.mem_flatMap, List.mem_append] at h
  obtain ⟨⟨p, q⟩, he, h⟩ := h
  have := List.of_mem_zip he
  simp only [Ty.varsAll_eq_flatMap, List.mem_flatMap]
  rcases h with h | h
  · exact .inl ⟨p, this.1, h⟩
  · exact .inr ⟨q, this.2, h⟩

theorem size_zip_le (ps qs : List (Ty α)) : size (ps.zip qs) ≤ Ty.sizeAll ps + Ty.sizeAll qs := by
  induction ps generalizing qs with
  | nil => simp [size]
  | cons p ps ih =>
    cases qs with
    | nil => simp [size]
    | cons q qs =>
      have := ih qs
      simp only [size, List.zip_cons_cons, Ty.sizeAll] at this ⊢
      omega

theorem lex_of_vars_subset [DecidableEq α] {es fs : Equations α} (h : ∀ x ∈ es.vars, x ∈ fs.vars)
    (hs : es.size < fs.size) :
    Prod.Lex (· < ·) (· < ·) (distinct es.vars, es.size) (distinct fs.vars, fs.size) := by
  rcases Nat.lt_or_eq_of_le (distinct_le_of_subset h) with hlt | heq
  · exact .left _ _ hlt
  · rw [heq]; exact .right _ hs

/-- Solves equations one after the other. A variable is bound to the other side where it does not
occur in it; equal operators are compared argument by argument. The first clash ends the run; the
bindings made before it stay. -/
def solve [DecidableEq α] (es : Equations α) (σ : TypeStore α) :
    TypeStore α × Option (TypeClash α) :=
  match es with
  | [] => (σ, none)
  | (.var v, b) :: rest =>
    if b = .var v then solve rest σ
    else if v ∈ b.vars then (σ, some (.recursive v b))
    else solve (subst rest v b) ((v, b) :: σ)
  | (a, .var v) :: rest =>
    if v ∈ a.vars then (σ, some (.recursive v a))
    else solve (subst rest v a) ((v, a) :: σ)
  | (.const x, .const y) :: rest =>
    if x = y then solve rest σ else (σ, some (.mismatch (.const x) (.const y)))
  | (.op f ps, .op g qs) :: rest =>
    if f = g ∧ ps.length = qs.length then solve (ps.zip qs ++ rest) σ
    else (σ, some (.mismatch (.op f ps) (.op g qs)))
  | (a, b) :: _ => (σ, some (.mismatch a b))
termination_by (distinct es.vars, es.size)
decreasing_by
  · exact lex_of_vars_subset (by grind [vars]) (by simp only [size, Ty.size]; omega)
  · refine .left _ _ (distinct_vars_subst_lt ‹_› ?_ ?_ ?_) <;> simp +contextual [vars, Ty.vars]
  · refine .left _ _ (distinct_vars_subst_lt ‹_› ?_ ?_ ?_) <;> simp +contextual [vars, Ty.vars]
  · exact lex_of_vars_subset (by simp [vars, Ty.vars]) (by simp [size, Ty.size])
  · refine lex_of_vars_subset (fun x hx => ?_) ?_
    · rw [vars, List.flatMap_append, List.mem_append] at hx
      rcases hx with hx | hx
      · simpa [vars, Ty.vars] using (vars_zip_subset hx).elim .inl (.inr ∘ .inl)
      · simp only [vars, List.flatMap_cons, List.mem_append]
        exact .inr hx
    · have := size_zip_le ps qs
      simp only [size_append, size, Ty.size]
      omega

end Equations

/-! ## Stores -/

namespace TypeStore

/-- The type that a type stands for: the bindings are put in, the oldest first. -/
def expand [DecidableEq α] (σ : TypeStore α) (t : Ty α) : Ty α :=
  σ.foldr (fun binding t => t.subst binding.1 binding.2) t

/-- Makes two types equal, if that is possible. The bindings made stay also where it is not. -/
def unify [DecidableEq α] (σ : TypeStore α) (a b : Ty α) : TypeStore α × Option (TypeClash α) :=
  Equations.solve [(σ.expand a, σ.expand b)] σ

/-- Whether two types stand for the same one. -/
def same [DecidableEq α] (σ : TypeStore α) (a b : Ty α) : Bool := σ.expand a == σ.expand b

/-- The text of the type that a type stands for. -/
def render [DecidableEq α] (σ : TypeStore α) (label : α → String) (t : Ty α) : String :=
  (σ.expand t).render label

/-- The bindings of a store, the oldest first. -/
def trace (σ : TypeStore α) (label : α → String) : List String :=
  σ.reverse.map fun (v, t) => s!"bind {label v} := {t.render label}"

end TypeStore

end ProofKernel
