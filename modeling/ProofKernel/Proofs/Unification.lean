import ProofKernel.SimpleType.Unify

/-!
# What bindings say

* `TypeStore.Satisfies`: types for the variables under which every binding of a store holds;
* `TypeStore.bind_expand`: under such types a type and the one that it stands for are the same;
* `TypeStore.Solved`: no binding of a store leads back to a variable that was bound before;
* `TypeStore.Solved.satisfies`: what its variables stand for satisfies such a store;
* `Equations.solve_suffix`, `Equations.solve_solved`: a run only adds bindings, also where it fails,
  and the store stays solved;
* `TypeStore.unify_equates`: types that satisfy the store after a run make the two sides the same.
-/

namespace ProofKernel

namespace Ty

variable {α β γ : Type}

/-! ## Types put in for variables -/

mutual

theorem bind_congr {f g : α → Ty β} :
    ∀ {t : Ty α}, (∀ v ∈ t.vars, f v = g v) → t.bind f = t.bind g
  | .var v, h => h v (by simp [vars])
  | .const _, _ => rfl
  | .op c ps, h => congrArg (Ty.op c) (bindAll_congr (l := ps) h)

theorem bindAll_congr {f g : α → Ty β} :
    ∀ {l : List (Ty α)}, (∀ v ∈ varsAll l, f v = g v) → bindAll f l = bindAll g l
  | [], _ => rfl
  | p :: ps, h => by
    have hp := bind_congr (t := p) fun v hv => h v (by simp [varsAll, hv])
    have hps := bindAll_congr (l := ps) fun v hv => h v (by simp [varsAll, hv])
    rw [bindAll, bindAll, hp, hps]

end

mutual

theorem bind_bind (f : α → Ty β) (g : β → Ty γ) :
    ∀ t : Ty α, (t.bind f).bind g = t.bind fun v => (f v).bind g
  | .var _ => rfl
  | .const _ => rfl
  | .op c ps => congrArg (Ty.op c) (bindAll_bindAll f g ps)

theorem bindAll_bindAll (f : α → Ty β) (g : β → Ty γ) :
    ∀ l : List (Ty α), bindAll g (bindAll f l) = bindAll (fun v => (f v).bind g) l
  | [] => rfl
  | p :: ps => by rw [bindAll, bindAll, bindAll, bind_bind f g p, bindAll_bindAll f g ps]

end

mutual

theorem bind_var : ∀ t : Ty α, t.bind .var = t
  | .var _ => rfl
  | .const _ => rfl
  | .op c ps => congrArg (Ty.op c) (bindAll_var ps)

theorem bindAll_var : ∀ l : List (Ty α), bindAll .var l = l
  | [] => rfl
  | p :: ps => by rw [bindAll, bind_var p, bindAll_var ps]

end

section Subst

variable [DecidableEq α]

theorem subst_of_not_mem {t : Ty α} {v : α} (u : Ty α) (h : v ∉ t.vars) : t.subst v u = t := by
  refine Eq.trans (bind_congr ?_) (bind_var t)
  intro w hw
  have hne : w ≠ v := fun e => h (e ▸ hw)
  rw [if_neg hne]

/-- A type with `u` in place of `v` is the same under types that make `v` and `u` the same. -/
theorem bind_subst {f : α → Ty β} {v : α} {u : Ty α} (h : f v = u.bind f) (t : Ty α) :
    (t.subst v u).bind f = t.bind f := by
  unfold subst
  rw [bind_bind]
  refine bind_congr ?_
  intro w _
  split
  next hw => rw [hw, h]
  next => rfl

end Subst

end Ty

variable {α β : Type} [DecidableEq α]

/-! ## Stores -/

namespace TypeStore

/-- Types for the variables under which every binding holds. -/
def Satisfies (ρ : α → Ty β) (σ : TypeStore α) : Prop := ∀ b ∈ σ, ρ b.1 = b.2.bind ρ

omit [DecidableEq α] in
theorem Satisfies.of_suffix {ρ : α → Ty β} {σ σ' : TypeStore α} (h : Satisfies ρ σ')
    (hσ : σ <:+ σ') : Satisfies ρ σ :=
  fun b hb => h b (hσ.subset hb)

omit [DecidableEq α] in
theorem satisfies_cons {ρ : α → Ty β} {v : α} {t : Ty α} {σ : TypeStore α} :
    Satisfies ρ ((v, t) :: σ) ↔ ρ v = t.bind ρ ∧ Satisfies ρ σ := by
  simp [Satisfies]

@[simp] theorem expand_nil (t : Ty α) : expand [] t = t := rfl

@[simp] theorem expand_cons (v : α) (u : Ty α) (σ : TypeStore α) (t : Ty α) :
    expand ((v, u) :: σ) t = (expand σ t).subst v u := rfl

/-- Under types that satisfy the store, a type and the one that it stands for are the same. -/
theorem bind_expand {ρ : α → Ty β} {σ : TypeStore α} (h : Satisfies ρ σ) (t : Ty α) :
    (σ.expand t).bind ρ = t.bind ρ := by
  induction σ with
  | nil => rfl
  | cons b σ ih =>
    obtain ⟨v, u⟩ := b
    obtain ⟨hv, hσ⟩ := satisfies_cons.1 h
    rw [expand_cons, Ty.bind_subst hv, ih hσ]

/-- What a type stands for is the type with what its variables stand for. -/
theorem expand_eq_bind (σ : TypeStore α) (t : Ty α) :
    σ.expand t = t.bind fun v => σ.expand (.var v) := by
  induction σ with
  | nil => exact (Ty.bind_var t).symm
  | cons b σ ih =>
    obtain ⟨v, u⟩ := b
    rw [expand_cons, ih, Ty.subst, Ty.bind_bind]
    rfl

/-- The variables that are bound in a store. -/
def bound (σ : TypeStore α) : List α := σ.map Prod.fst

/-- **Solved stores.** Each variable is bound once, to a type without variables that were bound
before it, itself included. -/
inductive Solved : TypeStore α → Prop
  | nil : Solved []
  | cons {v : α} {t : Ty α} {σ : TypeStore α} (new : v ∉ bound σ)
      (free : ∀ w ∈ t.vars, w ≠ v ∧ w ∉ bound σ) (older : Solved σ) : Solved ((v, t) :: σ)

/-- What a type stands for has no variable that is bound. -/
theorem Solved.not_mem_bound {σ : TypeStore α} (h : σ.Solved) {t : Ty α} {w : α}
    (hw : w ∈ (σ.expand t).vars) : w ∉ bound σ := by
  induction h generalizing w with
  | nil => simp [bound]
  | @cons v u σ new free older ih =>
    have hmem : w ≠ v ∧ w ∉ bound σ := by
      rw [expand_cons, Ty.mem_vars_subst] at hw
      rcases hw with ⟨-, hw⟩ | ⟨hw, hne⟩
      · exact free w hw
      · exact ⟨hne, ih hw⟩
    simpa [bound] using hmem

omit [DecidableEq α] in
theorem bound_cons (v : α) (t : Ty α) (σ : TypeStore α) : bound ((v, t) :: σ) = v :: bound σ := rfl

/-- A type without bound variables stands for itself. -/
theorem expand_eq_self {σ : TypeStore α} {t : Ty α} (h : ∀ w ∈ t.vars, w ∉ bound σ) :
    σ.expand t = t := by
  induction σ with
  | nil => rfl
  | cons b σ ih =>
    obtain ⟨v, u⟩ := b
    have hσ : ∀ w ∈ t.vars, w ∉ bound σ := fun w hw hb => h w hw (by simp [bound_cons, hb])
    have hv : v ∉ t.vars := fun hv => h v hv (by simp [bound_cons])
    rw [expand_cons, ih hσ, Ty.subst_of_not_mem u hv]

/-- **What the variables stand for satisfies a solved store.** -/
theorem Solved.satisfies {σ : TypeStore α} (h : σ.Solved) :
    Satisfies (fun v => σ.expand (.var v)) σ := by
  intro b hb
  rw [← expand_eq_bind]
  show σ.expand (.var b.1) = σ.expand b.2
  induction h with
  | nil => cases hb
  | @cons v u σ new free older ih =>
    rcases List.mem_cons.1 hb with rfl | hb
    · have hv : σ.expand (.var v) = .var v := expand_eq_self (by simpa [Ty.vars] using new)
      have hu : σ.expand u = u := expand_eq_self fun w hw => (free w hw).2
      have hvu : v ∉ u.vars := fun hv => (free v hv).1 rfl
      rw [expand_cons, expand_cons, hv, hu, Ty.subst_of_not_mem u hvu]
      simp [Ty.subst, Ty.bind]
    · rw [expand_cons, expand_cons, ih hb]

end TypeStore

/-! ## Runs on equations -/

namespace Equations

open TypeStore

/-- A run only adds bindings, also where it fails. -/
theorem solve_suffix (es : Equations α) (σ : TypeStore α) : σ <:+ (solve es σ).1 := by
  fun_induction solve es σ <;>
    first
    | exact List.suffix_refl _
    | assumption
    | exact (List.suffix_cons _ _).trans ‹_›

omit [DecidableEq α] in
theorem vars_cons (a b : Ty α) (es : Equations α) :
    vars ((a, b) :: es) = a.vars ++ b.vars ++ vars es := by
  simp [vars]

/-- Binding a variable of the equations keeps the store solved and the other variables unbound. -/
theorem solved_bind {v : α} {u : Ty α} (rest : Equations α) {σ : TypeStore α} (hσ : σ.Solved)
    (hvu : v ∉ u.vars) (hv : v ∉ bound σ) (hu : ∀ w ∈ u.vars, w ∉ bound σ)
    (hrest : ∀ w ∈ rest.vars, w ∉ bound σ) :
    Solved ((v, u) :: σ) ∧ ∀ w ∈ (rest.subst v u).vars, w ∉ bound ((v, u) :: σ) := by
  have hne : ∀ w ∈ u.vars, w ≠ v := fun w hw e => hvu (e ▸ hw)
  refine ⟨.cons hv (fun w hw => ⟨hne w hw, hu w hw⟩) hσ, fun w hw => ?_⟩
  simp only [vars, subst, List.flatMap_map, List.mem_flatMap, List.mem_append,
    Ty.mem_vars_subst] at hw
  obtain ⟨e, he, hw⟩ := hw
  have hmem : ∀ x, x ∈ e.1.vars ∨ x ∈ e.2.vars → x ∉ bound σ := fun x hx =>
    hrest x (List.mem_flatMap.2 ⟨e, he, List.mem_append.2 hx⟩)
  rw [bound_cons, List.mem_cons, not_or]
  rcases hw with (⟨-, hw⟩ | ⟨hw, hwv⟩) | ⟨-, hw⟩ | ⟨hw, hwv⟩
  · exact ⟨hne w hw, hu w hw⟩
  · exact ⟨hwv, hmem w (.inl hw)⟩
  · exact ⟨hne w hw, hu w hw⟩
  · exact ⟨hwv, hmem w (.inr hw)⟩

/-- A run on equations without bound variables keeps the store solved. -/
theorem solve_solved (es : Equations α) (σ : TypeStore α) (hσ : σ.Solved)
    (hes : ∀ w ∈ es.vars, w ∉ bound σ) : (solve es σ).1.Solved := by
  fun_induction solve es σ with
  | case1 σ => exact hσ
  | case2 σ v rest ih => exact ih hσ fun w hw => hes w (by simp [vars_cons, hw])
  | case3 => exact hσ
  | case4 σ v b rest hb hvb ih =>
    have h := solved_bind rest hσ hvb (hes v (by simp [vars_cons, Ty.vars]))
      (fun w hw => hes w (by simp [vars_cons, hw])) (fun w hw => hes w (by simp [vars_cons, hw]))
    exact ih h.1 h.2
  | case5 => exact hσ
  | case6 σ a v rest ha hva ih =>
    have h := solved_bind rest hσ hva (hes v (by simp [vars_cons, Ty.vars]))
      (fun w hw => hes w (by simp [vars_cons, hw])) (fun w hw => hes w (by simp [vars_cons, hw]))
    exact ih h.1 h.2
  | case7 σ x rest ih => exact ih hσ fun w hw => hes w (by simp [vars_cons, hw])
  | case8 => exact hσ
  | case9 σ f ps g qs rest h ih =>
    refine ih hσ fun w hw => hes w ?_
    rw [vars, List.flatMap_append, List.mem_append] at hw
    rw [vars_cons, List.mem_append, List.mem_append]
    exact hw.imp_left vars_zip_subset
  | case10 => exact hσ
  | case11 => exact hσ

omit [DecidableEq α] in
theorem zip_equated {ρ : α → Ty β} {ps qs : List (Ty α)} (hlen : ps.length = qs.length)
    (h : ∀ e ∈ ps.zip qs, e.1.bind ρ = e.2.bind ρ) : Ty.bindAll ρ ps = Ty.bindAll ρ qs := by
  induction ps generalizing qs with
  | nil =>
    have hqs : qs = [] := List.length_eq_zero_iff.1 hlen.symm
    rw [hqs]
  | cons p ps ih =>
    cases qs with
    | nil => simp at hlen
    | cons q qs =>
      have hp := h (p, q) (by simp)
      have hps := ih (by simpa using hlen) fun e he => h e (by simp [he])
      rw [Ty.bindAll, Ty.bindAll, hps]
      exact congrArg (· :: _) hp

/-- **Types that satisfy the store after a run without a clash make the equations hold.** -/
theorem solve_equates {ρ : α → Ty β} (es : Equations α) (σ : TypeStore α)
    (hok : (solve es σ).2 = none) (hρ : Satisfies ρ (solve es σ).1) :
    ∀ e ∈ es, e.1.bind ρ = e.2.bind ρ := by
  -- what is put in for a variable is equal to it, as its binding is in the store at the end
  have hsubst : ∀ (v : α) (u : Ty α) (rest : Equations α), ρ v = u.bind ρ →
      (∀ e ∈ rest.subst v u, e.1.bind ρ = e.2.bind ρ) → ∀ e ∈ rest, e.1.bind ρ = e.2.bind ρ := by
    intro v u rest hv h e he
    have := h _ (List.mem_map.2 ⟨e, he, rfl⟩)
    rwa [Ty.bind_subst hv, Ty.bind_subst hv] at this
  have hbound : ∀ (v : α) (u : Ty α) (fs : Equations α) (σ : TypeStore α),
      Satisfies ρ (solve fs ((v, u) :: σ)).1 → ρ v = u.bind ρ := by
    intro v u fs σ h
    exact h _ ((solve_suffix fs _).subset List.mem_cons_self)
  fun_induction solve es σ with
  | case1 => simp
  | case2 σ v rest ih => exact List.forall_mem_cons.2 ⟨rfl, ih hok hρ⟩
  | case3 => simp at hok
  | case4 σ v b rest hb hvb ih =>
    have hv := hbound v b _ _ hρ
    exact List.forall_mem_cons.2 ⟨hv, hsubst v b rest hv (ih hok hρ)⟩
  | case5 => simp at hok
  | case6 σ a v rest ha hva ih =>
    have hv := hbound v a _ _ hρ
    exact List.forall_mem_cons.2 ⟨hv.symm, hsubst v a rest hv (ih hok hρ)⟩
  | case7 σ x rest ih => exact List.forall_mem_cons.2 ⟨rfl, ih hok hρ⟩
  | case8 => simp at hok
  | case9 σ f ps g qs rest h ih =>
    obtain ⟨rfl, hlen⟩ := h
    obtain ⟨hargs, hrest⟩ := List.forall_mem_append.1 (ih hok hρ)
    exact List.forall_mem_cons.2 ⟨congrArg (Ty.op f) (zip_equated hlen hargs), hrest⟩
  | case10 => simp at hok
  | case11 => simp at hok

end Equations

/-! ## Making two types equal -/

namespace TypeStore

theorem unify_suffix (σ : TypeStore α) (a b : Ty α) : σ <:+ (σ.unify a b).1 :=
  Equations.solve_suffix _ σ

theorem Solved.unify {σ : TypeStore α} (h : σ.Solved) (a b : Ty α) : (σ.unify a b).1.Solved := by
  refine Equations.solve_solved _ σ h ?_
  intro w hw
  simp only [Equations.vars_cons, List.mem_append] at hw
  rcases hw with (hw | hw) | hw
  · exact h.not_mem_bound hw
  · exact h.not_mem_bound hw
  · simp [Equations.vars] at hw

theorem unify_equates {ρ : α → Ty β} {σ : TypeStore α} {a b : Ty α} (hok : (σ.unify a b).2 = none)
    (hρ : Satisfies ρ (σ.unify a b).1) : a.bind ρ = b.bind ρ := by
  have hσ : Satisfies ρ σ := hρ.of_suffix (unify_suffix σ a b)
  have heq := Equations.solve_equates _ σ hok hρ _ List.mem_cons_self
  rwa [bind_expand hσ, bind_expand hσ] at heq

end TypeStore

end ProofKernel
