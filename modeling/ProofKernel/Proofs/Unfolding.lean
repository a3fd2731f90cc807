import ProofKernel.Proofs.Expansion
import ProofKernel.Proofs.Substitution

/-!
# Unfolding definitions

A defined constant has the type of its definition, found apart from the term in which it occurs. The
definition put in for the constant is typed in place, under binders of the term that may have been
renamed; its constants have new instances of their types in the same order, so that nothing changes.

* `Nameless.infer_subst`: inference after a substitution is inference with the types of what was put
  in;
* `Infer.apart_eq`: what is done for a closed term can be done in place;
* `TypeEnv.Reachable.definition_type`: the type of a constant is that of the nameless form of its
  definition;
* `TypeEnv.infer_unfoldAll`, `TypeEnv.infer_unfold`: terms and what definitions make of them have the
  same types.
-/

namespace ProofKernel

open Infer

/-! ## Nameless terms -/

namespace Nameless

variable {name : Name → Infer (Ty Nat)} {t : Nameless}

/-- The types of binders to which no distance leads do not matter. -/
theorem infer_append {Δ : List (Ty Nat)} (h : t.ClosedAt Δ.length) (Δ' : List (Ty Nat)) :
    t.infer name (Δ ++ Δ') = t.infer name Δ := by
  induction t generalizing Δ with
  | free x => rfl
  | bound k =>
    rw [infer, infer, List.getD_append _ _ _ _ h]
  | app f x ihf ihx => rw [infer, infer, ihf h.1, ihx h.2]
  | abs body ih =>
    simp only [infer]
    have hbody : ∀ bound, body.infer name (bound :: (Δ ++ Δ')) = body.infer name (bound :: Δ) :=
      fun bound => ih (Δ := bound :: Δ) h
    simp only [hbody]

theorem infer_closed (h : t.ClosedAt 0) (Δ : List (Ty Nat)) : t.infer name Δ = t.infer name [] :=
  infer_append (Δ := []) h Δ

/-- **Inference after a substitution** is inference with the types of what was put in, if no distance
leads out of that. -/
theorem infer_subst {θ : Name → Option Nameless} (hθ : ∀ x u, θ x = some u → u.ClosedAt 0)
    (t : Nameless) (Δ : List (Ty Nat)) :
    (t.subst θ).infer name Δ =
      t.infer (fun x => ((θ x).getD (.free x)).infer name []) Δ := by
  induction t generalizing Δ with
  | free x =>
    rw [subst, infer]
    cases hx : θ x with
    | none => rfl
    | some u => exact infer_closed (hθ x u hx) Δ
  | bound k => rfl
  | app f x ihf ihx => rw [subst, infer, infer, ihf, ihx]
  | abs body ih => simp only [subst, infer, ih]

/-- A term whose names have to do with no variables has to do with none. -/
theorem detached_infer (h : ∀ x ∈ t.freeNames, Detached (name x)) (Δ : List (Ty Nat)) :
    Detached (t.infer name Δ) := by
  induction t generalizing Δ with
  | free x => exact h x List.mem_cons_self
  | bound k => exact detached_pure _
  | app f x ihf ihx =>
    refine (ihf (fun y hy => h y (List.mem_append_left _ hy)) Δ).bind fun fn => ?_
    refine (ihx (fun y hy => h y (List.mem_append_right _ hy)) Δ).bind fun arg => ?_
    exact detached_newVar.bind fun result =>
      (detached_unify _ _).bind fun _ => detached_pure result
  | abs body ih =>
    exact detached_newVar.bind fun bound => (ih h (bound :: Δ)).bind fun result => detached_pure _

end Nameless

/-- **What is done for a closed term can be done in place**, if it has to do with no variables. -/
theorem Infer.apart_eq {β : Type} {c c' : Infer β} (hc' : Detached c')
    (h : ∀ s : Inference, s.VariablesOnly → s.scope = [] →
      c s = ((c' s).1, { (c' s).2 with scope := [] })) : apart c = c' := by
  funext s
  have hrun := h { s with free := [], scope := [] } (s.variablesOnly_nil []) rfl
  have hself := hc' s s.free s.scope
  have hempty := hc' s [] []
  show ((c { s with free := [], scope := [] }).1,
    { (c { s with free := [], scope := [] }).2 with free := s.free, scope := s.scope }) = _
  rw [hrun, hempty]
  exact hself.symm

theorem Term.namelessIn_plain {ι : Type} (m : Term ι) (Γ : List Name) :
    m.plain.namelessIn Γ = m.namelessIn Γ := by
  induction m generalizing Γ with
  | var a => rfl
  | app tag f x ihf ihx => rw [plain, namelessIn, ihf, ihx, namelessIn]
  | abs tag b body ih => exact congrArg Nameless.abs (ih _)

namespace TypeEnv

variable {env : TypeEnv}

/-- A definition of a variable is not accepted. -/
theorem define_isVariable {env' : TypeEnv} {name : Name} {definition : PlainTerm}
    (h : (env.define name definition).1 = .ok env') : name.isVariable = false := by
  by_contra hv
  have hfault : env.definitionFault? name definition = some .isVariable := by
    rw [definitionFault?, if_pos (by simpa using hv)]
  rw [define, hfault] at h
  cases h

/-- Only constants are defined. -/
theorem Reachable.isVariable_eq_false (henv : env.Reachable) {name : Name} {d : PlainTerm}
    (hd : env.definition? name = some d) : name.isVariable = false := by
  induction henv with
  | empty => cases hd
  | standard => cases hd
  | declare _ hdeclare ih =>
    obtain ⟨t, rfl⟩ := declare_eq hdeclare
    exact ih hd
  | @define env env' x _ _ hdefine ih =>
    obtain ⟨rfl, -, -⟩ := define_eq hdefine
    rw [definition?, Scope.lookup?_cons] at hd
    split at hd
    next hx => exact hx ▸ define_isVariable hdefine
    next => exact ih hd

/-- **The type of a defined constant** is that of the nameless form of its definition. -/
theorem Reachable.definition_type (henv : env.Reachable) {c : Name} {d : PlainTerm}
    (hd : env.definition? c = some d) (hn : env.declared? c = none)
    (hl : Literal.ofName? c = none) : d.nameless.infer env.nameType [] = env.nameType c := by
  have hconst := constantType_detached env.declared? env.defined
  have hclosed := henv.defined_once.closed _ (Scope.mem_of_lookup? hd)
  have hdetached : Detached (d.nameless.infer env.nameType []) := by
    refine Nameless.detached_infer (fun x hx => ?_) []
    have hv : x.isVariable = false := by
      by_contra hv
      exact Term.not_mem_freeNames_of_closed hclosed (by simpa using hv)
        (Term.mem_freeNames_nameless.1 hx)
    rw [nameType, Infer.nameType, hv]
    exact detached_closedType hconst x
  have hc : env.nameType c = constantType env.declared? env.defined c := by
    rw [nameType, Infer.nameType, henv.isVariable_eq_false hd, closedType, hl]
    rfl
  rw [hc, constantType_eq henv.defined_once henv.layered, hn, hd]
  exact (apart_eq hdetached fun s hs hscope => env.inferIn_nameless d hs hscope).symm

/-- Definitions put in for any number of constants at once do not change the type. -/
theorem infer_unfoldAll (henv : env.Reachable) {σ : Substitution} (hσ : (σ.map Prod.fst).Nodup)
    (hdefs : ∀ entry ∈ σ, env.definition? entry.1 = some entry.2.plain ∧
      env.declared? entry.1 = none ∧ Literal.ofName? entry.1 = none)
    (t : Node) (names : NameSupply) (nodes : Nat) {s : Inference} (hs : s.VariablesOnly)
    (hscope : s.scope = []) :
    env.infer (σ.apply names t nodes).1.1 s = env.infer t s := by
  have hclosed : ∀ x u, σ.images x = some u → u.ClosedAt 0 := by
    intro x u hx
    obtain ⟨d, -, rfl⟩ := Option.map_eq_some_iff.1 hx
    exact d.closedAt_nameless
  have hsame : (fun x => ((σ.images x).getD (.free x)).infer env.nameType []) = env.nameType := by
    funext x
    cases hx : Scope.lookup? σ x with
    | none =>
      rw [Substitution.images, hx]
      rfl
    | some d =>
      obtain ⟨hd, hn, hl⟩ := hdefs _ (Scope.mem_of_lookup? hx)
      rw [Substitution.images, hx, ← henv.definition_type hd hn hl]
      show d.nameless.infer _ [] = (d.plain.namelessIn []).infer _ []
      rw [Term.namelessIn_plain]
      rfl
  refine env.infer_eq_of_nameless ?_ hs hscope
  rw [Substitution.nameless_apply hσ, Nameless.infer_subst hclosed, hsame]

/-- **Unfolding a definition does not change the type.** Where a constant has a definition and no
declared type, and is no literal, a new run gives a term the same type, or the same error, as the term
with the definition put in for the constant, whatever binders are renamed for this. -/
theorem infer_unfold (henv : env.Reachable) {c : Name} {d : Node}
    (hd : env.definition? c = some d.plain) (hn : env.declared? c = none)
    (hl : Literal.ofName? c = none) (t : Node) (names : NameSupply) (nodes : Nat) :
    env.infer (Substitution.apply [(c, d)] names t nodes).1.1 .start = env.infer t .start := by
  have hnodup : (([(c, d)] : Substitution).map Prod.fst).Nodup := List.nodup_singleton c
  have hdefs : ∀ entry ∈ ([(c, d)] : Substitution), env.definition? entry.1 = some entry.2.plain ∧
      env.declared? entry.1 = none ∧ Literal.ofName? entry.1 = none :=
    fun entry he => List.mem_singleton.1 he ▸ ⟨hd, hn, hl⟩
  exact infer_unfoldAll henv hnodup hdefs t names nodes Inference.variablesOnly_start rfl

/-- The binder in the term has the name of the constant in the definition, and is renamed. -/
theorem infer_unfold_under_constant_name :
    let d : Node := .var ⟨0, "K", none⟩
    let env : TypeEnv := ⟨[("K", .truth)], [("C", d.plain)]⟩
    let K : Atom Nat := ⟨1, "K", none⟩
    let t : Node := .abs 2 K (.app 3 (.var K) (.var ⟨4, "C", none⟩))
    env.Reachable ∧ env.definition? "C" = some d.plain ∧ env.declared? "C" = none ∧
      Literal.ofName? "C" = none ∧
      (Substitution.apply [("C", d)] .start t 5).1.1.plain =
        .lambda "K_1" (.call (.named "K_1") (.named "K")) ∧
      env.infer (Substitution.apply [("C", d)] .start t 5).1.1 .start = env.infer t .start ∧
      (env.infer t .start).1 = .ok (.fn (.fn .truth (.var 2)) (.var 2)) := by
  intro d env K t
  have hdeclare : TypeEnv.empty.declare "K" "o" = .ok ⟨[("K", .truth)], []⟩ := by cbv
  have hdefine : (TypeEnv.define ⟨[("K", .truth)], []⟩ "C" d.plain).1 = .ok env := by cbv
  have henv : env.Reachable := .define (.declare .empty hdeclare) hdefine
  have hl : Literal.ofName? "C" = none := by decide
  exact ⟨henv, rfl, rfl, hl, by cbv, infer_unfold henv rfl rfl hl t .start 5, by cbv⟩

/-- A literal can be defined, but keeps its own type. -/
example :
    let d : Node := .var ⟨0, "T", none⟩
    let five : Node := .var ⟨1, "5", none⟩
    let env : TypeEnv := ⟨[("T", .truth)], [("5", d.plain)]⟩
    (TypeEnv.define ⟨[("T", .truth)], []⟩ "5" d.plain).1 = .ok env ∧
      (env.infer five .start).1 = .ok .individual ∧
      (env.infer (Substitution.apply [("5", d)] .start five 2).1.1 .start).1 = .ok .truth := by
  cbv

end TypeEnv

end ProofKernel
