import Mathlib.Data.Set.Finite.Lattice
import Mathlib.Order.WellFoundedSet
import Mathlib.Logic.Relation
import ProofKernel.Proofs.MostGeneral

/-!
# Acyclic stores

Bindings of type variables are acyclic if no variable leads back to itself through the types that
are bound. This says nothing of an order among the bindings; unification reads them in one, newest
first.

* `TypeStore.Acyclic`: acyclic bindings, in any order;
* `TypeStore.acyclic_iff_solved`: they are those that are solved when put in some order;
* `TypeStore.Solved.expand_perm`, `TypeStore.Solved.unify_perm`: which such order it is makes no
  difference, neither to what a type stands for nor to a run;
* `TypeStore.Acyclic.unify_most_general`: unification computes most general unifiers in acyclic
  stores.
-/

namespace ProofKernel

open Relation (TransGen)

variable {α β : Type}

namespace TypeStore

/-- A variable is bound to a type in which another one occurs. -/
def LeadsTo (σ : TypeStore α) (v w : α) : Prop := ∃ t, (v, t) ∈ σ ∧ w ∈ t.vars

/-- **Acyclic stores.** Each variable is bound at most once, and none leads back to itself. -/
structure Acyclic (σ : TypeStore α) : Prop where
  nodup : (bound σ).Nodup
  irrefl : ∀ v, ¬ TransGen (LeadsTo σ) v v

theorem mem_bound {σ : TypeStore α} {v : α} : v ∈ bound σ ↔ ∃ t, (v, t) ∈ σ := by
  simp [bound]

theorem bound_perm {σ τ : TypeStore α} (h : σ.Perm τ) : (bound σ).Perm (bound τ) := h.map _

theorem LeadsTo.mono {σ τ : TypeStore α} (h : σ ⊆ τ) {v w : α} : LeadsTo σ v w → LeadsTo τ v w :=
  fun ⟨t, ht, hw⟩ => ⟨t, h ht, hw⟩

/-- The order of the bindings makes no difference to whether they are acyclic. -/
theorem Acyclic.perm {σ τ : TypeStore α} (h : σ.Acyclic) (hp : σ.Perm τ) : τ.Acyclic where
  nodup := (bound_perm hp).nodup_iff.1 h.nodup
  irrefl v hv := h.irrefl v (TransGen.mono (fun _ _ => LeadsTo.mono hp.symm.subset) _ _ hv)

theorem Satisfies.perm {ρ : α → Ty β} {σ τ : TypeStore α} (h : Satisfies ρ σ) (hp : σ.Perm τ) :
    Satisfies ρ τ :=
  fun b hb => h b (hp.mem_iff.2 hb)

theorem Acyclic.of_cons {b : α × Ty α} {σ : TypeStore α} (h : Acyclic (b :: σ)) : σ.Acyclic where
  nodup := (List.nodup_cons.1 h.nodup).2
  irrefl v hv :=
    h.irrefl v (TransGen.mono (fun _ _ => LeadsTo.mono (List.subset_cons_self _ _)) _ _ hv)

/-! ### From acyclic to solved -/

/-- In acyclic bindings there is one whose type has no bound variable. -/
theorem Acyclic.exists_last {σ : TypeStore α} (h : σ.Acyclic) (hne : σ ≠ []) :
    ∃ b ∈ σ, ∀ w ∈ b.2.vars, w ∉ bound σ := by
  -- a bound variable from which no other bound one can be reached
  let back : α → α → Prop := fun w v => TransGen (LeadsTo σ) v w
  have : IsStrictOrder α back :=
    { irrefl := h.irrefl, trans := fun _ _ _ hab hbc => hbc.trans hab }
  have hwf : {v | v ∈ bound σ}.WellFoundedOn back := (List.finite_toSet (bound σ)).wellFoundedOn
  obtain ⟨⟨v, u⟩, hv⟩ := List.exists_mem_of_ne_nil σ hne
  have hbound : v ∈ bound σ := mem_bound.2 ⟨u, hv⟩
  obtain ⟨⟨m, hm⟩, -, hmin⟩ := WellFounded.has_min hwf Set.univ ⟨⟨v, hbound⟩, trivial⟩
  obtain ⟨t, ht⟩ := mem_bound.1 hm
  refine ⟨(m, t), ht, fun w hw hwb => ?_⟩
  exact hmin ⟨w, hwb⟩ trivial (.single ⟨t, ht, hw⟩)

/-- Acyclic bindings can be put in an order in which they are solved. -/
theorem Acyclic.exists_solved [DecidableEq α] {σ : TypeStore α} (h : σ.Acyclic) :
    ∃ τ : TypeStore α, τ.Perm σ ∧ τ.Solved := by
  -- the binding without bound variables goes in front; induction on how many there are
  induction hn : σ.length generalizing σ with
  | zero => exact ⟨[], by simp [List.length_eq_zero_iff.1 hn], .nil⟩
  | succ n ih =>
    have hne : σ ≠ [] := by
      rintro rfl
      simp at hn
    obtain ⟨⟨v, t⟩, hmem, hlast⟩ := h.exists_last hne
    have hp : σ.Perm ((v, t) :: σ.erase (v, t)) := List.perm_cons_erase hmem
    have hcons : Acyclic ((v, t) :: σ.erase (v, t)) := h.perm hp
    have hlen : (σ.erase (v, t)).length = n := by
      have := hp.length_eq
      rw [List.length_cons] at this
      omega
    obtain ⟨τ, hτ, hsolved⟩ := ih hcons.of_cons hlen
    have hbound : ∀ w, w ∈ bound τ ↔ w ∈ bound (σ.erase (v, t)) := fun w => (bound_perm hτ).mem_iff
    have hvτ : v ∉ bound τ := by
      rw [hbound]
      exact (List.nodup_cons.1 hcons.nodup).1
    refine ⟨(v, t) :: τ, (hτ.cons _).trans hp.symm, .cons hvτ (fun w hw => ?_) hsolved⟩
    have hwσ : w ∉ v :: bound (σ.erase (v, t)) := by
      rw [← bound_cons v t, ← (bound_perm hp).mem_iff]
      exact hlast w hw
    rw [hbound]
    exact not_or.1 (List.mem_cons.not.1 hwσ)

/-! ### From solved to acyclic -/

theorem Solved.nodup {σ : TypeStore α} (h : σ.Solved) : (bound σ).Nodup := by
  induction h with
  | nil => exact List.nodup_nil
  | cons new free older ih => exact List.nodup_cons.2 ⟨new, ih⟩

/-- The variables of a solved store have ranks that get smaller along the bindings: the older a
binding is, the higher its variable ranks, and those that are not bound come last. -/
theorem Solved.exists_rank {σ : TypeStore α} (h : σ.Solved) :
    ∃ rank : α → Nat, ∀ v w, LeadsTo σ v w → rank w < rank v := by
  classical
  induction h with
  | nil => exact ⟨fun _ => 0, fun v w ⟨t, ht, hw⟩ => by cases ht⟩
  | @cons v t σ new free older ih =>
    obtain ⟨rank, hrank⟩ := ih
    let rank' : α → Nat := fun x => if x ∈ bound σ then rank x + 2 else if x = v then 1 else 0
    have hv : rank' v = 1 := by simp [rank', new]
    have hle : ∀ y, rank' y ≤ rank y + 2 := by
      intro y
      simp only [rank']
      split_ifs <;> omega
    refine ⟨rank', ?_⟩
    rintro x y ⟨u, hu, hy⟩
    rcases List.mem_cons.1 hu with heq | hu
    · obtain ⟨rfl, rfl⟩ := Prod.mk.inj heq
      have hy0 : rank' y = 0 := by simp [rank', free y hy]
      omega
    · have hx : rank' x = rank x + 2 := if_pos (mem_bound.2 ⟨u, hu⟩)
      have hlt := hrank x y ⟨u, hu, hy⟩
      have := hle y
      omega

/-- Bindings are acyclic if ranks get smaller along them. -/
theorem Acyclic.of_rank {σ : TypeStore α} {rank : α → Nat} (hnodup : (bound σ).Nodup)
    (hrank : ∀ v w, LeadsTo σ v w → rank w < rank v) : σ.Acyclic := by
  refine ⟨hnodup, fun v hv => ?_⟩
  have hlt : ∀ {x y}, TransGen (LeadsTo σ) x y → rank y < rank x := by
    intro x y hxy
    induction hxy with
    | single hxy => exact hrank _ _ hxy
    | tail _ hyz ih => exact (hrank _ _ hyz).trans ih
  exact Nat.lt_irrefl _ (hlt hv)

theorem Solved.acyclic {σ : TypeStore α} (h : σ.Solved) : σ.Acyclic := by
  obtain ⟨rank, hrank⟩ := h.exists_rank
  exact .of_rank h.nodup hrank

/-- **Acyclic bindings are those that some order makes solved.** -/
theorem acyclic_iff_solved [DecidableEq α] {σ : TypeStore α} :
    σ.Acyclic ↔ ∃ τ : TypeStore α, τ.Perm σ ∧ τ.Solved :=
  ⟨Acyclic.exists_solved, fun ⟨_, hp, hτ⟩ => hτ.acyclic.perm hp⟩

end TypeStore

/-! ## The order of the bindings -/

variable [DecidableEq α]

open TypeStore

/-- A run does not look at the bindings that it starts from: it puts its own in front of them. -/
theorem Equations.solve_append (es : Equations α) (τ σ : TypeStore α) :
    solve es (τ ++ σ) = ((solve es τ).1 ++ σ, (solve es τ).2) := by
  fun_induction solve es τ with
  | case1 τ => rw [solve]
  | case2 τ v rest ih => rw [solve, if_pos rfl, ih]
  | case3 τ v b rest hb hvb => rw [solve, if_neg hb, if_pos hvb]
  | case4 τ v b rest hb hvb ih => rw [solve, if_neg hb, if_neg hvb, ← List.cons_append, ih]
  | case5 τ a v rest ha hva =>
    rw [solve, if_pos hva]
    exact ha
  | case6 τ a v rest ha hva ih =>
    rw [solve, if_neg hva, ← List.cons_append, ih]
    exact ha
  | case7 τ x rest ih => rw [solve, if_pos rfl, ih]
  | case8 τ x y rest hxy => rw [solve, if_neg hxy]
  | case9 τ f ps g qs rest h ih => rw [solve, if_pos h, ih]
  | case10 τ f ps g qs rest h => rw [solve, if_neg h]
  | case11 τ a b rest h₁ h₂ h₃ h₄ =>
    rw [solve]
    · exact h₁
    · exact h₂
    · exact h₃
    · exact h₄

namespace TypeStore

/-- **What a type stands for does not depend on the order** in which its bindings are solved. -/
theorem Solved.expand_perm {σ τ : TypeStore α} (hσ : σ.Solved) (hτ : τ.Solved) (hp : σ.Perm τ)
    (t : Ty α) : σ.expand t = τ.expand t := by
  have hself : τ.expand (σ.expand t) = σ.expand t := by
    refine expand_eq_self fun w hw => ?_
    rw [← (bound_perm hp).mem_iff]
    exact hσ.not_mem_bound hw
  calc σ.expand t
      = (σ.expand t).bind (fun v => τ.expand (.var v)) := by rw [← expand_eq_bind, hself]
    _ = t.bind (fun v => τ.expand (.var v)) := bind_expand (hτ.satisfies.perm hp.symm) t
    _ = τ.expand t := (expand_eq_bind τ t).symm

/-- **Neither does a run**: it gives the same outcome and makes the same bindings. -/
theorem Solved.unify_perm {σ τ : TypeStore α} (hσ : σ.Solved) (hτ : τ.Solved) (hp : σ.Perm τ)
    (a b : Ty α) :
    (σ.unify a b).2 = (τ.unify a b).2 ∧ (σ.unify a b).1.Perm (τ.unify a b).1 := by
  have hrun : ∀ υ : TypeStore α, Equations.solve [(σ.expand a, σ.expand b)] υ =
      ((Equations.solve [(σ.expand a, σ.expand b)] []).1 ++ υ,
        (Equations.solve [(σ.expand a, σ.expand b)] []).2) :=
    fun υ => Equations.solve_append _ [] υ
  unfold TypeStore.unify
  rw [← hσ.expand_perm hτ hp a, ← hσ.expand_perm hτ hp b, hrun σ, hrun τ]
  exact ⟨rfl, hp.append_left _⟩

/-! ## Most general unifiers -/

/-- Types that were made equal stand for the same type. -/
theorem Solved.same_unify {σ : TypeStore α} (h : σ.Solved) {a b : Ty α}
    (hok : (σ.unify a b).2 = none) : (σ.unify a b).1.same a b = true := by
  have heq := unify_equates hok (h.unify a b).satisfies
  rw [← expand_eq_bind, ← expand_eq_bind] at heq
  exact beq_iff_eq.2 heq

/-- A run succeeds if and only if some types for the variables extend the bindings and make the two
sides equal. -/
theorem Solved.unify_eq_none_iff {σ : TypeStore α} (h : σ.Solved) (a b : Ty α) :
    (σ.unify a b).2 = none ↔ ∃ ρ : α → Ty α, Satisfies ρ σ ∧ a.bind ρ = b.bind ρ := by
  constructor
  · intro hok
    have hnew := (h.unify a b).satisfies
    exact ⟨_, hnew.of_suffix (unify_suffix σ a b), unify_equates hok hnew⟩
  · rintro ⟨ρ, hρ, heq⟩
    exact (unify_general hρ heq).1

/-- **Unification computes most general unifiers.** Acyclic bindings have an order in which they are
solved. In every such order, a run on two types succeeds exactly when some types for the variables
extend the bindings and make the two types equal; then the two stand for the same type, and all such
types for the variables extend the new bindings, which are acyclic too. When a run fails, with either
of the two clashes, there are no such types. -/
theorem Acyclic.unify_most_general {σ₀ : TypeStore α} (h : σ₀.Acyclic) :
    (∃ σ : TypeStore α, σ.Perm σ₀ ∧ σ.Solved) ∧
      ∀ σ : TypeStore α, σ.Perm σ₀ → σ.Solved → ∀ a b : Ty α,
        ((σ.unify a b).2 = none ↔ ∃ ρ : α → Ty α, Satisfies ρ σ₀ ∧ a.bind ρ = b.bind ρ) ∧
        ((σ.unify a b).2 = none →
          (σ.unify a b).1.same a b = true ∧ (σ.unify a b).1.Acyclic ∧
          ∀ (β : Type) (ρ : α → Ty β), Satisfies ρ σ₀ → a.bind ρ = b.bind ρ →
            Satisfies ρ (σ.unify a b).1) ∧
        (∀ clash, (σ.unify a b).2 = some clash →
          ∀ (β : Type) (ρ : α → Ty β), Satisfies ρ σ₀ → a.bind ρ ≠ b.bind ρ) := by
  refine ⟨h.exists_solved, fun σ hp hσ a b => ?_⟩
  have hperm : ∀ {β : Type} {ρ : α → Ty β}, Satisfies ρ σ₀ → Satisfies ρ σ :=
    fun hρ => hρ.perm hp.symm
  refine ⟨?_, fun hok => ⟨hσ.same_unify hok, (hσ.unify a b).acyclic, ?_⟩, ?_⟩
  · rw [hσ.unify_eq_none_iff]
    exact exists_congr fun ρ => and_congr_left' ⟨fun hρ => hρ.perm hp, hperm⟩
  · intro β ρ hρ heq
    exact (unify_general (hperm hρ) heq).2
  · intro clash hclash β ρ hρ heq
    have hok := (unify_general (hperm hρ) heq).1
    rw [hok] at hclash
    cases hclash

/-- A variable that is bound to a type with a variable bound before, as the program leaves it when it
binds: `1` to `2 -> i` after `2` to `i`. Two functions can be made equal, and a variable and the type
around it cannot. -/
theorem Acyclic.unify_most_general_chained :
    let σ₀ : TypeStore Nat := [(1, .fn (.var 2) .individual), (2, .individual)]
    let σ : TypeStore Nat := [(2, .individual), (1, .fn (.var 2) .individual)]
    σ₀.Acyclic ∧
      (∀ (β : Type) (ρ : Nat → Ty β), Satisfies ρ σ₀ →
        (Ty.fn (.var 1) (.var 3)).bind ρ = (Ty.fn (.var 3) (.var 4)).bind ρ →
        Satisfies ρ (σ.unify (.fn (.var 1) (.var 3)) (.fn (.var 3) (.var 4))).1) ∧
      ∀ (β : Type) (ρ : Nat → Ty β), Satisfies ρ σ₀ →
        (Ty.var 3).bind ρ ≠ (Ty.fn (.var 3) (.var 1)).bind ρ := by
  intro σ₀ σ
  have hσ : σ.Solved := by
    refine .cons ?_ ?_ (.cons ?_ ?_ .nil) <;>
      simp [bound, Ty.vars, Ty.varsAll, Ty.individual, Ty.fn]
  have hp : σ.Perm σ₀ := .swap ..
  have hσ₀ : σ₀.Acyclic := hσ.acyclic.perm hp
  have h := hσ₀.unify_most_general.2 σ hp hσ
  have hclash : (σ.unify (.var 3) (.fn (.var 3) (.var 1))).2 =
      some (.recursive 3 (.fn (.var 3) (.fn .individual .individual))) := by
    simp [σ, unify, expand, Equations.solve, Ty.subst, Ty.bind, Ty.bindAll, Ty.fn, Ty.individual,
      Ty.vars, Ty.varsAll]
  refine ⟨hσ₀, ((h _ _).2.1 ?_).2.2, (h _ _).2.2 _ hclash⟩
  simp [σ, unify, expand, Equations.solve, Equations.subst, Ty.subst, Ty.bind, Ty.bindAll, Ty.fn,
    Ty.individual, Ty.vars, Ty.varsAll]

end TypeStore

end ProofKernel
