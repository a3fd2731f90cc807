import ProofKernel.Matching
import ProofKernel.Term.Names

/-!
# Nameless terms

A nameless term has the distance to its binder in place of a bound name; a free name stays a name.

* `Nameless.subst`: simultaneous substitution for free names;
* `Term.namelessIn`, `Term.nameless`: the nameless form of a term under binders, and on its own;
* `Term.namelessIn_congr`: it depends on what the scope says of the free names only;
* `Term.namelessIn_closed`: a term under binders that is closed but for free names has none of
  their names free;
* `Term.alike_iff`: terms are alike exactly if their nameless forms are equal.
-/

namespace ProofKernel

/-- Terms with the distance to its binder in place of each bound name. -/
inductive Nameless where
  | free (name : Name)
  | bound (k : Nat)
  | app (fn arg : Nameless)
  | abs (body : Nameless)
deriving DecidableEq, Repr

namespace Nameless

/-- The names of a nameless term. -/
def freeNames : Nameless → List Name
  | .free x => [x]
  | .bound _ => []
  | .app f x => f.freeNames ++ x.freeNames
  | .abs body => body.freeNames

/-- **Simultaneous substitution without capture.** A nameless form put in for a free name has no
distance that leads out of it, so that it is the same one under any number of binders, and none of
its free names becomes a bound one. Nothing is substituted in what is put in. -/
def subst (θ : Name → Option Nameless) : Nameless → Nameless
  | .free x => (θ x).getD (.free x)
  | .bound k => .bound k
  | .app f x => .app (f.subst θ) (x.subst θ)
  | .abs body => .abs (body.subst θ)

theorem subst_congr {θ ψ : Name → Option Nameless} {t : Nameless}
    (h : ∀ x ∈ t.freeNames, (θ x).getD (.free x) = (ψ x).getD (.free x)) :
    t.subst θ = t.subst ψ := by
  induction t with
  | free x => exact h x (by simp [freeNames])
  | bound k => rfl
  | app f x ihf ihx =>
    simp only [subst]
    rw [ihf fun y hy => h y (by simp [freeNames, hy]),
      ihx fun y hy => h y (by simp [freeNames, hy])]
  | abs body ih =>
    simp only [subst]
    rw [ih h]

@[simp] theorem subst_none (t : Nameless) : t.subst (fun _ => none) = t := by
  induction t with
  | free x => rfl
  | bound k => rfl
  | app f x ihf ihx => rw [subst, ihf, ihx]
  | abs body ih => rw [subst, ih]

/-- Substitution that leaves every free name as it is. -/
theorem subst_eq_self {θ : Name → Option Nameless} {t : Nameless}
    (h : ∀ x ∈ t.freeNames, (θ x).getD (.free x) = .free x) : t.subst θ = t :=
  (subst_congr h).trans (subst_none t)

/-- The free names of a substituted term are those of what stands for its free names. -/
theorem mem_freeNames_subst {θ : Name → Option Nameless} {t : Nameless} {x : Name} :
    x ∈ (t.subst θ).freeNames ↔ ∃ y ∈ t.freeNames, x ∈ ((θ y).getD (.free y)).freeNames := by
  induction t with
  | free y => simp [subst, freeNames]
  | bound k => simp [subst, freeNames]
  | app f a ihf iha =>
    simp only [subst, freeNames, List.mem_append, ihf, iha]
    constructor
    · rintro (⟨y, hy, hx⟩ | ⟨y, hy, hx⟩)
      · exact ⟨y, .inl hy, hx⟩
      · exact ⟨y, .inr hy, hx⟩
    · rintro ⟨y, hy | hy, hx⟩
      · exact .inl ⟨y, hy, hx⟩
      · exact .inr ⟨y, hy, hx⟩
  | abs body ih => exact ih

/-- All distances of a term lead to binders in it or to one of `n` binders around it. -/
def ClosedAt (n : Nat) : Nameless → Prop
  | .free _ => True
  | .bound k => k < n
  | .app f x => f.ClosedAt n ∧ x.ClosedAt n
  | .abs body => body.ClosedAt (n + 1)

end Nameless

/-! ## Names in a scope -/

/-- What a name stands for under binders, the innermost first: the nearest binder of that name, or
the name itself. -/
def resolve (scope : List Name) (x : Name) : Nameless :=
  match scope.idxOf? x with
  | some k => .bound k
  | none => .free x

@[simp] theorem resolve_nil (x : Name) : resolve [] x = .free x := rfl

@[simp] theorem resolve_cons_self (scope : List Name) (x : Name) :
    resolve (x :: scope) x = .bound 0 := by
  simp [resolve, List.idxOf?_cons]

theorem resolve_of_not_mem {scope : List Name} {x : Name} (h : x ∉ scope) :
    resolve scope x = .free x := by
  simp [resolve, List.idxOf?_eq_none_iff.2 h]

/-- A name with a binder resolves to a distance within the scope. -/
theorem resolve_of_mem {scope : List Name} {x : Name} (h : x ∈ scope) :
    ∃ k < scope.length, resolve scope x = .bound k := by
  unfold resolve
  cases hk : scope.idxOf? x with
  | none => exact absurd h (List.idxOf?_eq_none_iff.1 hk)
  | some k =>
    obtain ⟨hlt, -⟩ := List.idxOf?_eq_some_iff.1 hk
    exact ⟨k, hlt, rfl⟩

theorem resolve_cons_of_ne {y x : Name} (scope : List Name) (h : y ≠ x) :
    resolve (y :: scope) x = match resolve scope x with
      | .bound k => .bound (k + 1)
      | t => t := by
  simp only [resolve, List.idxOf?_cons, beq_iff_eq, h, if_false]
  cases scope.idxOf? x <;> rfl

/-- A binder keeps what two scopes say of two names alike, if it is that of both or of neither. -/
theorem resolve_cons_congr {Γ Δ : List Name} {x y a b : Name} (hab : a = x ↔ b = y)
    (h : resolve Γ x = resolve Δ y) : resolve (a :: Γ) x = resolve (b :: Δ) y := by
  by_cases ha : a = x
  · have hb : b = y := hab.1 ha
    subst ha hb
    simp
  · have hb : b ≠ y := fun hb => ha (hab.2 hb)
    rw [resolve_cons_of_ne Γ ha, resolve_cons_of_ne Δ hb, h]

/-- Scopes that say different things of two names still do so under a binder of neither. -/
theorem resolve_cons_inj {Γ Δ : List Name} {x y a b : Name} (ha : a ≠ x) (hb : b ≠ y)
    (h : resolve (a :: Γ) x = resolve (b :: Δ) y) : resolve Γ x = resolve Δ y := by
  rw [resolve_cons_of_ne Γ ha, resolve_cons_of_ne Δ hb] at h
  unfold resolve at h ⊢
  cases hx : Γ.idxOf? x <;> cases hy : Δ.idxOf? y <;> simp_all

theorem resolve_ne_app (scope : List Name) (x : Name) (f a : Nameless) :
    resolve scope x ≠ .app f a := by
  unfold resolve
  split <;> simp

theorem resolve_ne_abs (scope : List Name) (x : Name) (body : Nameless) :
    resolve scope x ≠ .abs body := by
  unfold resolve
  split <;> simp

/-! ## The nameless form of a term -/

namespace Term

variable {ι κ : Type}

/-- The nameless form of a term under binders, the innermost first. -/
def namelessIn (scope : List Name) : Term ι → Nameless
  | .var a => resolve scope a.name
  | .app _ f x => .app (f.namelessIn scope) (x.namelessIn scope)
  | .abs _ b body => .abs (body.namelessIn (b.name :: scope))

/-- The nameless form of a term. -/
def nameless (m : Term ι) : Nameless := m.namelessIn []

/-- The nameless form depends on what the scope says of the free names only. -/
theorem namelessIn_congr {m : Term ι} {Γ Δ : List Name}
    (h : ∀ x ∈ m.freeNames, resolve Γ x = resolve Δ x) : m.namelessIn Γ = m.namelessIn Δ := by
  induction m generalizing Γ Δ with
  | var a => exact h a.name (by simp [freeNames])
  | app t f x ihf ihx =>
    simp only [namelessIn]
    rw [ihf fun y hy => h y (by simp [freeNames, hy]),
      ihx fun y hy => h y (by simp [freeNames, hy])]
  | abs t b body ih =>
    simp only [namelessIn]
    rw [ih]
    intro x hx
    by_cases hb : b.name = x
    · subst hb; simp
    · exact resolve_cons_congr Iff.rfl (h x (by simp [freeNames, hx, Ne.symm hb]))

/-- Binders whose names are not free in a term do not change its nameless form. -/
theorem namelessIn_eq_nameless {m : Term ι} {Γ : List Name} (h : ∀ x ∈ m.freeNames, x ∉ Γ) :
    m.namelessIn Γ = m.nameless :=
  namelessIn_congr fun x hx => by rw [resolve_of_not_mem (h x hx), resolve_nil]

theorem eq_app_of_namelessIn {m : Term ι} {Γ : List Name} {f a : Nameless}
    (h : m.namelessIn Γ = .app f a) :
    ∃ tag g y, m = .app tag g y ∧ g.namelessIn Γ = f ∧ y.namelessIn Γ = a := by
  cases m with
  | var b => exact absurd h (resolve_ne_app _ _ _ _)
  | app tag g y =>
    simp only [namelessIn, Nameless.app.injEq] at h
    exact ⟨tag, g, y, rfl, h⟩
  | abs tag b body => simp [namelessIn] at h

theorem eq_abs_of_namelessIn {m : Term ι} {Γ : List Name} {t : Nameless}
    (h : m.namelessIn Γ = .abs t) :
    ∃ tag b body, m = .abs tag b body ∧ body.namelessIn (b.name :: Γ) = t := by
  cases m with
  | var b => exact absurd h (resolve_ne_abs _ _ _)
  | app tag g y => simp [namelessIn] at h
  | abs tag b body =>
    simp only [namelessIn, Nameless.abs.injEq] at h
    exact ⟨tag, b, body, rfl, h⟩

theorem mem_freeNames_namelessIn {m : Term ι} {Γ : List Name} {x : Name} :
    x ∈ (m.namelessIn Γ).freeNames ↔ x ∈ m.freeNames ∧ x ∉ Γ := by
  induction m generalizing Γ with
  | var a =>
    by_cases ha : a.name ∈ Γ
    · obtain ⟨k, -, hk⟩ := resolve_of_mem ha
      simp only [namelessIn, hk, Nameless.freeNames, freeNames, List.mem_singleton]
      constructor
      · simp
      · rintro ⟨rfl, hx⟩
        exact absurd ha hx
    · simp only [namelessIn, resolve_of_not_mem ha, Nameless.freeNames, freeNames,
        List.mem_singleton]
      exact ⟨fun h => ⟨h, h ▸ ha⟩, And.left⟩
  | app t f x ihf ihx =>
    simp only [namelessIn, Nameless.freeNames, freeNames, List.mem_append, ihf, ihx, or_and_right]
  | abs t b body ih =>
    simp only [namelessIn, Nameless.freeNames, freeNames, ih, List.mem_cons, not_or,
      List.mem_filter, decide_eq_true_eq]
    constructor
    · rintro ⟨h, hb, hΓ⟩
      exact ⟨⟨h, hb⟩, hΓ⟩
    · rintro ⟨⟨h, hb⟩, hΓ⟩
      exact ⟨h, hb, hΓ⟩

theorem mem_freeNames_nameless {m : Term ι} {x : Name} :
    x ∈ m.nameless.freeNames ↔ x ∈ m.freeNames := by
  simp [nameless, mem_freeNames_namelessIn]

theorem hasFree_iff {m : Term ι} {x : Name} : m.hasFree x = true ↔ x ∈ m.freeNames := by
  induction m with
  | var a =>
    simp only [hasFree, freeNames, beq_iff_eq, List.mem_singleton]
    exact eq_comm
  | app t f y ihf ihy => simp [hasFree, freeNames, ihf, ihy]
  | abs t b body ih =>
    simp only [hasFree, freeNames, Bool.and_eq_true, bne_iff_ne, ih, List.mem_filter,
      decide_eq_true_eq]
    exact ⟨fun ⟨hb, hx⟩ => ⟨hx, Ne.symm hb⟩, fun ⟨hx, hb⟩ => ⟨Ne.symm hb, hx⟩⟩

/-! ### Distances that lead out -/

/-- A name leads to one of the first binders, or out of all of them. -/
theorem closedAt_resolve {Ξ Γ : List Name} {x : Name} :
    (resolve (Ξ ++ Γ) x).ClosedAt Ξ.length ↔ (x ∉ Ξ → x ∉ Γ) := by
  induction Ξ with
  | nil =>
    by_cases hx : x ∈ Γ
    · obtain ⟨k, -, hk⟩ := resolve_of_mem hx
      simp [hk, Nameless.ClosedAt, hx]
    · simp [resolve_of_not_mem hx, Nameless.ClosedAt, hx]
  | cons y Ξ ih =>
    by_cases hy : y = x
    · subst hy
      simp [Nameless.ClosedAt]
    · rw [List.cons_append, resolve_cons_of_ne _ hy, List.mem_cons, not_or]
      have hne : ¬ x = y := fun h => hy h.symm
      rw [show ((¬ x = y ∧ x ∉ Ξ) → x ∉ Γ) ↔ (x ∉ Ξ → x ∉ Γ) by simp [hne], ← ih]
      unfold resolve
      cases List.idxOf? x (Ξ ++ Γ) <;> simp [Nameless.ClosedAt]

/-- Under `Ξ ++ Γ`, a term whose distances all lead to the binders of `Ξ` has no other name of `Γ`
free. -/
theorem closedAt_namelessIn {m : Term ι} {Ξ Γ : List Name} :
    (m.namelessIn (Ξ ++ Γ)).ClosedAt Ξ.length ↔ ∀ x ∈ m.freeNames, x ∉ Ξ → x ∉ Γ := by
  induction m generalizing Ξ with
  | var a => simp only [namelessIn, closedAt_resolve, freeNames, List.mem_singleton, forall_eq]
  | app t f x ihf ihx =>
    simp only [namelessIn, Nameless.ClosedAt, ihf, ihx, freeNames, List.mem_append]
    constructor
    · rintro ⟨hf, hx⟩ y hy
      exact hy.elim (hf y) (hx y)
    · intro h
      exact ⟨fun y hy => h y (.inl hy), fun y hy => h y (.inr hy)⟩
  | abs t b body ih =>
    have := ih (Ξ := b.name :: Ξ)
    simp only [List.cons_append, List.length_cons] at this
    simp only [namelessIn, Nameless.ClosedAt, this, freeNames, List.mem_filter, decide_eq_true_eq,
      List.mem_cons, not_or]
    constructor
    · rintro h x ⟨hx, hb⟩ hΞ
      exact h x hx ⟨hb, hΞ⟩
    · rintro h x hx ⟨hb, hΞ⟩
      exact h x ⟨hx, hb⟩ hΞ

theorem closedAt_nameless (m : Term ι) : m.nameless.ClosedAt 0 := by
  have := closedAt_namelessIn (m := m) (Ξ := []) (Γ := [])
  exact this.2 (by simp)

/-- A term that has under binders the nameless form of a whole term has none of their names free. -/
theorem namelessIn_closed {m : Term ι} {n : Term κ} {Γ : List Name}
    (h : m.namelessIn Γ = n.nameless) : ∀ x ∈ m.freeNames, x ∉ Γ := by
  have hc := closedAt_nameless n
  rw [← h] at hc
  intro x hx
  exact closedAt_namelessIn (Ξ := []) |>.1 hc x hx (by simp)

end Term

/-! ## Terms that are alike -/

/-- Corresponding names are those that resolve to the same binder, or to one free name. -/
theorem Correspondence.relates_iff {c : Correspondence} {x y : Name} :
    c.relates x y = true ↔ resolve (c.map (·.1)) x = resolve (c.map (·.2)) y := by
  induction c with
  | nil => simp [Correspondence.relates]
  | cons pair c ih =>
    obtain ⟨p, q⟩ := pair
    simp only [List.map_cons]
    by_cases hp : p = x <;> by_cases hq : q = y
    · subst hp hq
      simp [Correspondence.relates]
    · subst hp
      simp only [Correspondence.relates, decide_true, Bool.true_or, List.find?_cons_of_pos,
        Bool.true_and, decide_eq_true_eq, hq, false_iff, resolve_cons_self]
      rw [resolve_cons_of_ne _ hq]
      cases resolve (List.map (·.2) c) y <;> simp
    · subst hq
      simp only [Correspondence.relates, decide_true, Bool.or_true, List.find?_cons_of_pos,
        Bool.and_true, decide_eq_true_eq, hp, false_iff, resolve_cons_self]
      rw [resolve_cons_of_ne _ hp]
      cases resolve (List.map (·.1) c) x <;> simp
    · have hskip : Correspondence.relates ((p, q) :: c) x y = Correspondence.relates c x y := by
        simp [Correspondence.relates, hp, hq]
      rw [hskip, ih]
      exact ⟨resolve_cons_congr (by simp [hp, hq]), resolve_cons_inj hp hq⟩

namespace Term

variable {ι : Type} [DecidableEq ι]

/-- Terms are alike under corresponding binders exactly if their nameless forms are equal. The short
cut for one and the same term agrees with this. -/
theorem alikeIn_iff {c : Correspondence} {m n : Term ι} :
    m.alikeIn c n = true ↔ m.namelessIn (c.map (·.1)) = n.namelessIn (c.map (·.2)) := by
  induction m generalizing c n with
  | var a =>
    unfold alikeIn
    split
    next h => simp [h.1, h.2]
    next h =>
      cases n with
      | var b => exact Correspondence.relates_iff
      | app t f x => simp [namelessIn, resolve_ne_app]
      | abs t b body => simp [namelessIn, resolve_ne_abs]
  | app t f x ihf ihx =>
    unfold alikeIn
    split
    next h => simp [h.1, h.2]
    next h =>
      cases n with
      | app u g y => simp [namelessIn, ihf, ihx]
      | var b => simp [namelessIn, (resolve_ne_app _ _ _ _).symm]
      | abs u b body => simp [namelessIn]
  | abs t b body ih =>
    unfold alikeIn
    split
    next h => simp [h.1, h.2]
    next h =>
      cases n with
      | abs u b' body' => simp [namelessIn, ih]
      | var b => simp [namelessIn, (resolve_ne_abs _ _ _).symm]
      | app u g y => simp [namelessIn]

/-- **Terms are alike exactly if their nameless forms are equal.** -/
theorem alike_iff {m n : Term ι} : m.alike n = true ↔ m.nameless = n.nameless := alikeIn_iff

end Term

end ProofKernel
