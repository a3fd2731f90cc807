import ProofKernel.Proofs.Fresh
import ProofKernel.Proofs.MostGeneral
import ProofKernel.Proofs.RenamedTypes
import ProofKernel.Proofs.TypeNotation

/-!
# The texts of types

The types of terms are made of variables, the two types of individuals and of truth values, and
functions. Their texts can be told apart: a text of such types is that of one type only.

* `Ty.Over`: such types, over variables of one kind;
* `TypeStore.Over.unify`: making two of them equal binds variables to such types only;
* `Ty.over_of_read`: the compact form has no other types;
* `Ty.render_label_injective`: types with the same text are the same.
-/

namespace ProofKernel

variable {α β : Type}

/-! ## Types of individuals, truth values and functions -/

namespace Ty

/-- **Types of individuals, truth values and functions**, with variables of one kind. -/
inductive Over (P : α → Prop) : Ty α → Prop
  | var {v : α} (hv : P v) : Over P (.var v)
  | const {x : String} (hx : x = "i" ∨ x = "o") : Over P (.const x)
  | fn {dom cod : Ty α} (hdom : Over P dom) (hcod : Over P cod) : Over P (.fn dom cod)

variable {P Q : α → Prop} {t u : Ty α}

theorem over_individual : Over P individual := .const (.inl rfl)

theorem over_truth : Over P truth := .const (.inr rfl)

theorem over_var_iff {v : α} : Over P (.var v) ↔ P v := by
  constructor
  · rintro ⟨hv⟩
    exact hv
  · exact .var

theorem over_fn_iff {dom cod : Ty α} : Over P (.fn dom cod) ↔ dom.Over P ∧ cod.Over P := by
  constructor
  · rintro (_ | _ | ⟨hdom, hcod⟩)
    exact ⟨hdom, hcod⟩
  · exact fun h => .fn h.1 h.2

/-- The two sides of an operator, which is the arrow. -/
theorem Over.of_op {f : String} {ps : List (Ty α)} (h : Over P (.op f ps)) :
    ∃ dom cod, f = "->" ∧ ps = [dom, cod] ∧ dom.Over P ∧ cod.Over P := by
  cases h with
  | fn hdom hcod => exact ⟨_, _, rfl, rfl, hdom, hcod⟩

theorem Over.bind {P : α → Prop} {Q : β → Prop} {f : α → Ty β} (h : t.Over P)
    (hf : ∀ v ∈ t.vars, P v → (f v).Over Q) : (t.bind f).Over Q := by
  induction h with
  | var hv => exact hf _ (by simp [vars]) hv
  | const hx => exact .const hx
  | fn _ _ ihdom ihcod =>
    exact .fn (ihdom fun v hv => hf v (by simp [vars, varsAll, hv]))
      (ihcod fun v hv => hf v (by simp [vars, varsAll, hv]))

theorem Over.mono (h : t.Over P) (hPQ : ∀ v, P v → Q v) : t.Over Q := by
  rw [← bind_var t]
  exact h.bind fun v _ hv => .var (hPQ v hv)

/-- The variables are of the kind. -/
theorem Over.of_mem_vars (h : t.Over P) {v : α} (hv : v ∈ t.vars) : P v := by
  induction h with
  | var hw => rwa [List.mem_singleton.1 hv]
  | const => cases hv
  | fn _ _ ihdom ihcod =>
    simp only [vars, varsAll, List.append_nil, List.mem_append] at hv
    exact hv.elim ihdom ihcod

theorem hereditary_over [DecidableEq α] (P : α → Prop) : Hereditary (Over P) where
  part {f ps p} h hp := by
    obtain ⟨dom, cod, -, rfl, hdom, hcod⟩ := h.of_op
    rcases List.mem_pair.1 hp with rfl | rfl
    · exact hdom
    · exact hcod
  subst {t u} ht hu v := by
    refine ht.bind fun w _ hw => ?_
    split
    next => exact hu
    next => exact .var hw

end Ty

/-! ## Making types equal -/

section Stores

variable [DecidableEq α] {P : α → Prop}

/-- Bindings of variables of one kind to types over such variables. -/
def TypeStore.Over (P : α → Prop) (σ : TypeStore α) : Prop := ∀ b ∈ σ, P b.1 ∧ b.2.Over P

/-- Equations between types over variables of one kind. -/
def Equations.Over (P : α → Prop) (es : Equations α) : Prop := ∀ e ∈ es, e.1.Over P ∧ e.2.Over P

namespace Equations

/-- Equations keep the kind of the variables in the store. -/
theorem Over.solve {es : Equations α} {σ : TypeStore α} (hes : es.Over P)
    (hσ : TypeStore.Over P σ) : TypeStore.Over P (solve es σ).1 := by
  have hkeeps := solve_keeps (Ty.hereditary_over P) es σ
  simp only [Ty.over_var_iff] at hkeeps
  exact hkeeps hσ hes

end Equations

namespace TypeStore

variable {σ : TypeStore α} {t u : Ty α}

omit [DecidableEq α] in
theorem Over.mono {Q : α → Prop} (h : TypeStore.Over P σ) (hPQ : ∀ v, P v → Q v) :
    TypeStore.Over Q σ :=
  fun b hb => ⟨hPQ _ (h b hb).1, (h b hb).2.mono hPQ⟩

theorem Over.expand (h : TypeStore.Over P σ) (ht : t.Over P) : (σ.expand t).Over P :=
  expand_keeps (Ty.hereditary_over P) (fun b hb => (h b hb).2) ht

theorem Over.unify (h : TypeStore.Over P σ) (ht : t.Over P) (hu : u.Over P) :
    TypeStore.Over P (σ.unify t u).1 :=
  Equations.Over.solve (List.forall_mem_singleton.2 ⟨h.expand ht, h.expand hu⟩) h

end TypeStore

end Stores

/-! ## The compact form -/

namespace Ty

theorem row_over {P : α → Prop} {first : Ty α} {rest : List (Ty α)}
    (h : ∀ t ∈ first :: rest, t.Over P) : (row first rest).Over P := by
  induction rest generalizing first with
  | nil => exact h first List.mem_cons_self
  | cons second rest ih =>
    obtain ⟨hfirst, hrest⟩ := List.forall_mem_cons.1 h
    exact .fn hfirst (ih hrest)

/-- The items of a row of the grammar. -/
theorem over_of_mem_row {single : Char → Prop} {cs : List Char} {items : List (Ty Name)}
    (h : TypeRow single cs items) : ∀ t ∈ items, t.Over fun _ => True := by
  induction h with
  | nil => simp
  | blank _ _ ih => exact ih
  | individual _ ih => exact List.forall_mem_cons.2 ⟨over_individual, ih⟩
  | truth _ ih => exact List.forall_mem_cons.2 ⟨over_truth, ih⟩
  | letter _ _ ih => exact List.forall_mem_cons.2 ⟨.var trivial, ih⟩
  | numbered _ _ _ ih => exact List.forall_mem_cons.2 ⟨.var trivial, ih⟩
  | group _ _ ihinner ih => exact List.forall_mem_cons.2 ⟨row_over ihinner, ih⟩

/-- **The compact form has no other types.** -/
theorem over_of_read {text : String} {T : Ty Name} (h : read text = .ok T) :
    T.Over fun _ => True := by
  obtain ⟨first, rest, hrow, rfl⟩ := read_eq_ok_iff.1 h
  exact row_over (over_of_mem_row hrow)

end Ty

/-! ## Texts -/

theorem toList_typeLabel (n : Nat) : (typeLabel n).toList = 't' :: n.repr.toList := by
  simp [typeLabel]

theorem typeLabel_injective : Function.Injective typeLabel := fun v w h => by
  have hlist := congrArg String.toList h
  rw [toList_typeLabel, toList_typeLabel] at hlist
  exact Nat.repr_injective (String.toList_injective (List.cons.inj hlist).2)

namespace Ty

theorem toList_render_fn (label : α → String) (dom cod : Ty α) :
    ((Ty.fn dom cod).render label).toList =
      '(' :: ((dom.render label).toList ++
        (" -> ".toList ++ ((cod.render label).toList ++ [')']))) := by
  rw [fn, render]
  simp

/-- **The text of a type can be told apart from what comes after it**, if this is no digit: two
types whose texts begin a text in this way are the same. By induction on the first one. -/
theorem render_label_append {P Q : Nat → Prop} {t u : Ty Nat} (ht : t.Over P) (hu : u.Over Q)
    {r s : List Char} (hr : startsWithDigit r = false) (hs : startsWithDigit s = false)
    (h : (t.render typeLabel).toList ++ r = (u.render typeLabel).toList ++ s) : t = u ∧ r = s := by
  induction ht generalizing u r s with
  | @var v hv =>
    rw [render, toList_typeLabel] at h
    cases hu with
    | @var w hw =>
      rw [render, toList_typeLabel, List.cons_append, List.cons_append] at h
      injection h with _ h
      have hdigits : v.repr.toList = w.repr.toList := by
        rw [← takeWhile_digits Name.isDigit_of_mem_repr hr, h,
          takeWhile_digits Name.isDigit_of_mem_repr hs]
      rw [hdigits] at h
      rw [Nat.repr_injective (String.toList_injective hdigits)]
      exact ⟨rfl, List.append_cancel_left h⟩
    | const hx => rcases hx with rfl | rfl <;> simp [render] at h
    | fn => simp [toList_render_fn] at h
  | const hx =>
    cases hu with
    | var => rcases hx with rfl | rfl <;> simp [render, toList_typeLabel] at h
    | const hy =>
      rcases hx with rfl | rfl <;> rcases hy with rfl | rfl <;> simp [render] at h ⊢
      · exact h
      · exact h
    | fn => rcases hx with rfl | rfl <;> simp [render, toList_render_fn] at h
  | @fn dom cod _ _ ihdom ihcod =>
    rw [toList_render_fn] at h
    cases hu with
    | var => simp [render, toList_typeLabel] at h
    | const hx => rcases hx with rfl | rfl <;> simp [render] at h
    | @fn dom' cod' hdom hcod =>
      rw [toList_render_fn, List.cons_append, List.cons_append] at h
      injection h with _ h
      simp only [List.append_assoc] at h
      obtain ⟨rfl, hrest⟩ := ihdom hdom rfl rfl h
      obtain ⟨rfl, hend⟩ := ihcod hcod rfl rfl (List.append_cancel_left hrest)
      injection hend with _ hend
      exact ⟨rfl, hend⟩

/-- The text of a type with other variables, if these are shown alike. -/
theorem Over.render_rename {P : α → Prop} {t : Ty α} (h : t.Over P) {e : α → β} {f : β → String}
    {g : α → String} (hfg : ∀ v, P v → f (e v) = g v) : (t.rename e).render f = t.render g := by
  induction h with
  | var hv => exact hfg _ hv
  | const hx => rfl
  | @fn dom cod _ _ ihdom ihcod =>
    refine String.toList_injective ?_
    rw [toList_render_fn, ← ihdom, ← ihcod]
    exact toList_render_fn f (dom.rename e) (cod.rename e)

/-- **Types with the same text are the same.** -/
theorem render_label_injective {P Q : Nat → Prop} {t u : Ty Nat} (ht : t.Over P) (hu : u.Over Q)
    (h : t.render typeLabel = u.render typeLabel) : t = u := by
  refine (render_label_append ht hu (show startsWithDigit [] = false from rfl)
    (show startsWithDigit [] = false from rfl) ?_).1
  rw [h]

end Ty

end ProofKernel
