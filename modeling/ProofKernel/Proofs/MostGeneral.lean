import ProofKernel.Proofs.Unification

/-!
# Unification loses no solution

* `Ty.size_le_size_bind`, `Ty.bind_ne_of_mem_vars`: a variable is not equal to a type around it,
  whatever is put in for the variables;
* `Equations.solve_general`: types under which the bindings of a store and some equations hold still
  do so after a run on the equations, and the run does not fail;
* `Equations.solve_keeps`: a run keeps what parts of types and substitutions keep;
* `Equations.solve_below`: so it brings in no other variables;
* `TypeStore.unify_general`, `TypeStore.Below.unify`: the same of making two types equal.
-/

namespace ProofKernel

namespace Ty

variable {α β : Type}

/-! ## A variable and a type around it -/

mutual

/-- What is put in for a variable of a type is no larger than the type that comes out. -/
theorem size_le_size_bind (ρ : α → Ty β) {v : α} :
    ∀ {t : Ty α}, v ∈ t.vars → (ρ v).size ≤ (t.bind ρ).size
  | .var w, h => by
    have hvw : v = w := by simpa [vars] using h
    rw [hvw]
    exact Nat.le_refl _
  | .const _, h => by cases h
  | .op g ps, h => Nat.le_add_left_of_le (size_le_sizeAll_bindAll ρ (l := ps) h)

theorem size_le_sizeAll_bindAll (ρ : α → Ty β) {v : α} :
    ∀ {l : List (Ty α)}, v ∈ varsAll l → (ρ v).size ≤ sizeAll (bindAll ρ l)
  | [], h => by cases h
  | p :: ps, h => by
    rw [bindAll, sizeAll]
    rcases List.mem_append.1 h with h | h
    · exact Nat.le_add_right_of_le (size_le_size_bind ρ h)
    · exact Nat.le_add_left_of_le (size_le_sizeAll_bindAll ρ h)

end

/-- A variable is not equal to a type around it, whatever is put in for the variables. -/
theorem bind_ne_of_mem_vars {v : α} {t : Ty α} (h : v ∈ t.vars) (hne : t ≠ .var v) (ρ : α → Ty β) :
    ρ v ≠ t.bind ρ := by
  intro heq
  cases t with
  | var w =>
    have hvw : v = w := by simpa [vars] using h
    exact hne (by rw [hvw])
  | const x => cases h
  | op g ps =>
    have hle := size_le_sizeAll_bindAll ρ h
    rw [heq, bind, size] at hle
    omega

/-! ## What parts and substitutions keep -/

/-- **What parts of types and substitutions keep**: if a type is of the kind, then so are its parts,
and it still is with another such type in place of a variable. -/
structure Hereditary [DecidableEq α] (K : Ty α → Prop) : Prop where
  part {f : String} {ps : List (Ty α)} {p : Ty α} (h : K (.op f ps)) (hp : p ∈ ps) : K p
  subst {t u : Ty α} (ht : K t) (hu : K u) (v : α) : K (t.subst v u)

/-! ## Numbers of variables -/

/-- All variables of a type have a number below `n`. -/
def Below (n : Nat) (t : Ty Nat) : Prop := ∀ v ∈ t.vars, v < n

theorem Below.mono {n k : Nat} {t : Ty Nat} (h : t.Below n) (hnk : n ≤ k) : t.Below k :=
  fun v hv => Nat.lt_of_lt_of_le (h v hv) hnk

/-- Types for the variables below `n` are all that a type with such variables needs. -/
theorem Below.bind_congr {n : Nat} {t : Ty Nat} (h : t.Below n) {ρ ψ : Nat → Ty β}
    (hρ : ∀ v < n, ψ v = ρ v) : t.bind ψ = t.bind ρ :=
  Ty.bind_congr fun v hv => hρ v (h v hv)

theorem below_var {n v : Nat} : (Ty.var v).Below n ↔ v < n := by
  simp [Below, vars]

theorem below_fn {n : Nat} {a b : Ty Nat} : (Ty.fn a b).Below n ↔ a.Below n ∧ b.Below n := by
  simp [Below, vars, varsAll, or_imp, forall_and]

theorem hereditary_below (n : Nat) : Hereditary (Below n) where
  part {f ps p} h hp := by
    intro v hv
    refine h v ?_
    rw [vars, varsAll_eq_flatMap]
    exact List.mem_flatMap.2 ⟨p, hp, hv⟩
  subst {t u} ht hu v := by
    intro w hw
    rcases mem_vars_subst.1 hw with ⟨-, hw⟩ | ⟨hw, -⟩
    · exact hu w hw
    · exact ht w hw

end Ty

/-! ## Runs on equations -/

namespace Equations

open TypeStore

section General

variable {α β : Type} [DecidableEq α]

omit [DecidableEq α] in
theorem equated_zip {ρ : α → Ty β} {ps qs : List (Ty α)} (h : Ty.bindAll ρ ps = Ty.bindAll ρ qs) :
    ∀ e ∈ ps.zip qs, e.1.bind ρ = e.2.bind ρ := by
  induction ps generalizing qs with
  | nil => simp
  | cons p ps ih =>
    cases qs with
    | nil => simp
    | cons q qs =>
      rw [Ty.bindAll, Ty.bindAll, List.cons.injEq] at h
      exact List.forall_mem_cons.2 ⟨h.1, ih h.2⟩

theorem equated_subst {ρ : α → Ty β} {v : α} {u : Ty α} {es : Equations α} (hv : ρ v = u.bind ρ)
    (h : ∀ e ∈ es, e.1.bind ρ = e.2.bind ρ) : ∀ e ∈ es.subst v u, e.1.bind ρ = e.2.bind ρ := by
  intro e he
  obtain ⟨f, hf, rfl⟩ := List.mem_map.1 he
  rw [Ty.bind_subst hv, Ty.bind_subst hv]
  exact h f hf

omit [DecidableEq α] in
theorem length_bindAll (ρ : α → Ty β) (ps : List (Ty α)) : (Ty.bindAll ρ ps).length = ps.length := by
  rw [Ty.bindAll_eq_map, List.length_map]

/-- **A run on equations loses no solution**, and it does not fail if there is one. -/
theorem solve_general {ρ : α → Ty β} (es : Equations α) (σ : TypeStore α) (hσ : Satisfies ρ σ)
    (hes : ∀ e ∈ es, e.1.bind ρ = e.2.bind ρ) :
    (solve es σ).2 = none ∧ Satisfies ρ (solve es σ).1 := by
  fun_induction solve es σ with
  | case1 σ => exact ⟨rfl, hσ⟩
  | case2 σ v rest ih => exact ih hσ (List.forall_mem_cons.1 hes).2
  | case3 σ v b rest hb hvb =>
    exact absurd (List.forall_mem_cons.1 hes).1 (Ty.bind_ne_of_mem_vars hvb hb ρ)
  | case4 σ v b rest hb hvb ih =>
    obtain ⟨hv, hrest⟩ := List.forall_mem_cons.1 hes
    exact ih (satisfies_cons.2 ⟨hv, hσ⟩) (equated_subst hv hrest)
  | case5 σ a v rest ha hva =>
    have hne : a ≠ .var v := fun h => ha v h
    exact absurd (List.forall_mem_cons.1 hes).1.symm (Ty.bind_ne_of_mem_vars hva hne ρ)
  | case6 σ a v rest ha hva ih =>
    obtain ⟨hv, hrest⟩ := List.forall_mem_cons.1 hes
    exact ih (satisfies_cons.2 ⟨hv.symm, hσ⟩) (equated_subst hv.symm hrest)
  | case7 σ x rest ih => exact ih hσ (List.forall_mem_cons.1 hes).2
  | case8 σ x y rest hxy =>
    have h := (List.forall_mem_cons.1 hes).1
    exact absurd (Ty.const.inj h) hxy
  | case9 σ f ps g qs rest h ih =>
    obtain ⟨hop, hrest⟩ := List.forall_mem_cons.1 hes
    have hargs : Ty.bindAll ρ ps = Ty.bindAll ρ qs := (Ty.op.inj hop).2
    exact ih hσ (List.forall_mem_append.2 ⟨equated_zip hargs, hrest⟩)
  | case10 σ f ps g qs rest h =>
    obtain ⟨hfg, hargs⟩ := Ty.op.inj (List.forall_mem_cons.1 hes).1
    have hlen := congrArg List.length hargs
    rw [length_bindAll, length_bindAll] at hlen
    exact absurd ⟨hfg, hlen⟩ h
  | case11 σ a b rest h₁ h₂ h₃ h₄ =>
    have h := (List.forall_mem_cons.1 hes).1
    cases a with
    | var v => exact absurd rfl (h₁ v)
    | const x =>
      cases b with
      | var v => exact absurd rfl (h₂ v)
      | const y => exact absurd rfl (h₃ x y rfl)
      | op g qs => cases h
    | op f ps =>
      cases b with
      | var v => exact absurd rfl (h₂ v)
      | const y => cases h
      | op g qs => exact absurd rfl (h₄ f ps g qs rfl)

/-! ### What a run keeps -/

variable {K : Ty α → Prop}

theorem forall_mem_subst (hK : Ty.Hereditary K) {es : Equations α} (hes : ∀ e ∈ es, K e.1 ∧ K e.2)
    {u : Ty α} (hu : K u) (v : α) : ∀ e ∈ es.subst v u, K e.1 ∧ K e.2 := by
  intro e he
  obtain ⟨f, hf, rfl⟩ := List.mem_map.1 he
  exact ⟨hK.subst (hes f hf).1 hu v, hK.subst (hes f hf).2 hu v⟩

/-- **A run keeps what parts of types and substitutions keep**: the types of its equations are parts of
those that it started with, with some of them in place of variables. -/
theorem solve_keeps (hK : Ty.Hereditary K) (es : Equations α) (σ : TypeStore α)
    (hσ : ∀ b ∈ σ, K (.var b.1) ∧ K b.2) (hes : ∀ e ∈ es, K e.1 ∧ K e.2) :
    ∀ b ∈ (solve es σ).1, K (.var b.1) ∧ K b.2 := by
  fun_induction solve es σ with
  | case1 | case3 | case5 | case8 | case10 | case11 => exact hσ
  | case2 σ v rest ih => exact ih hσ (List.forall_mem_cons.1 hes).2
  | case4 σ v b rest hb hvb ih =>
    obtain ⟨⟨hv, hu⟩, hrest⟩ := List.forall_mem_cons.1 hes
    exact ih (List.forall_mem_cons.2 ⟨⟨hv, hu⟩, hσ⟩) (forall_mem_subst hK hrest hu v)
  | case6 σ a v rest ha hva ih =>
    obtain ⟨⟨hu, hv⟩, hrest⟩ := List.forall_mem_cons.1 hes
    exact ih (List.forall_mem_cons.2 ⟨⟨hv, hu⟩, hσ⟩) (forall_mem_subst hK hrest hu v)
  | case7 σ x rest ih => exact ih hσ (List.forall_mem_cons.1 hes).2
  | case9 σ f ps g qs rest h ih =>
    obtain ⟨⟨hps, hqs⟩, hrest⟩ := List.forall_mem_cons.1 hes
    refine ih hσ (List.forall_mem_append.2 ⟨fun e he => ?_, hrest⟩)
    have hmem := List.of_mem_zip he
    exact ⟨hK.part hps hmem.1, hK.part hqs hmem.2⟩

end General

/-! ### The variables of a run -/

/-- All variables of some equations have a number below `n`. -/
def Below (n : Nat) (es : Equations Nat) : Prop := ∀ e ∈ es, e.1.Below n ∧ e.2.Below n

end Equations

namespace TypeStore

theorem expand_keeps {α : Type} [DecidableEq α] {K : Ty α → Prop} (hK : Ty.Hereditary K)
    {σ : TypeStore α} (hσ : ∀ b ∈ σ, K b.2) {t : Ty α} (ht : K t) : K (σ.expand t) := by
  induction σ with
  | nil => exact ht
  | cons b σ ih =>
    obtain ⟨hb, hσ⟩ := List.forall_mem_cons.1 hσ
    exact hK.subst (ih hσ) hb b.1

/-- All variables of a store have a number below `n`, those bound and those in their types. -/
def Below (n : Nat) (σ : TypeStore Nat) : Prop := ∀ b ∈ σ, b.1 < n ∧ b.2.Below n

theorem below_iff {n : Nat} {σ : TypeStore Nat} :
    Below n σ ↔ ∀ b ∈ σ, (Ty.var b.1).Below n ∧ b.2.Below n := by
  simp only [Below, Ty.below_var]

theorem Below.mono {n k : Nat} {σ : TypeStore Nat} (h : Below n σ) (hnk : n ≤ k) : Below k σ :=
  fun b hb => ⟨Nat.lt_of_lt_of_le (h b hb).1 hnk, (h b hb).2.mono hnk⟩

theorem Below.expand {n : Nat} {σ : TypeStore Nat} {t : Ty Nat} (hσ : Below n σ)
    (ht : t.Below n) : (σ.expand t).Below n :=
  expand_keeps (Ty.hereditary_below n) (fun b hb => (hσ b hb).2) ht

end TypeStore

/-- A run on equations brings in no other variables. -/
theorem Equations.solve_below {n : Nat} (es : Equations Nat) (σ : TypeStore Nat)
    (hσ : TypeStore.Below n σ) (hes : Below n es) : TypeStore.Below n (solve es σ).1 :=
  TypeStore.below_iff.2 (solve_keeps (Ty.hereditary_below n) es σ (TypeStore.below_iff.1 hσ) hes)

/-! ## Making two types equal -/

namespace TypeStore

/-- **Making two types equal is most general**: types that satisfy the store and make the two equal
satisfy the store after the run, and the run does not fail if there are such types. -/
theorem unify_general {α β : Type} [DecidableEq α] {ρ : α → Ty β} {σ : TypeStore α} {a b : Ty α}
    (hσ : Satisfies ρ σ) (h : a.bind ρ = b.bind ρ) :
    (σ.unify a b).2 = none ∧ Satisfies ρ (σ.unify a b).1 := by
  refine Equations.solve_general _ σ hσ ?_
  rw [List.forall_mem_singleton, bind_expand hσ, bind_expand hσ]
  exact h

theorem Below.unify {n : Nat} {σ : TypeStore Nat} {a b : Ty Nat} (hσ : Below n σ) (ha : a.Below n)
    (hb : b.Below n) : Below n (σ.unify a b).1 :=
  Equations.solve_below _ σ hσ (List.forall_mem_singleton.2 ⟨hσ.expand ha, hσ.expand hb⟩)

end TypeStore

end ProofKernel
