import ProofKernel.Proofs.Scope
import ProofKernel.SimpleType.Infer

/-!
# Typings

The typed system that inference is measured against, over any environment of constants.

* `HasType`: a term has a type, where each free variable has one type, bound variables have one type
  each, and every occurrence of a constant has an instance of its own;
* `TypeEnv.IsInstance`: the types of a constant in an environment;
* `HasType.congr_free`: only the types of the free variables of a term matter;
* `TypeEnv.Reachable`: environments made by declaring and defining names;
* `TypeEnv.Reachable.defined_once`: what declaring and defining keep of the definitions.
-/

namespace ProofKernel

/-- **Typings.** `HasType env F Γ m τ`: with the types `F` of the free variables and `Γ` of the bound
ones, the innermost first, the term `m` has the type `τ`. A definition is typed on its own, in the
whole environment; a declared type hides a definition. String literals have no type. -/
inductive HasType (env : TypeEnv) {β : Type} (F : Name → Ty β) :
    {ι : Type} → Scope (Ty β) → Term ι → Ty β → Prop
  | bound {ι : Type} {Γ : Scope (Ty β)} {a : Atom ι} {τ : Ty β} (hb : Γ.lookup? a.name = some τ) :
      HasType env F Γ (.var a) τ
  | free {ι : Type} {Γ : Scope (Ty β)} {a : Atom ι} (hb : Γ.lookup? a.name = none)
      (hl : a.literal? = none) (hv : a.isVariable = true) : HasType env F Γ (.var a) (F a.name)
  | int {ι : Type} {Γ : Scope (Ty β)} {a : Atom ι} {n : Int} (hb : Γ.lookup? a.name = none)
      (hl : a.literal? = some (.int n)) : HasType env F Γ (.var a) .individual
  | declared {ι : Type} {Γ : Scope (Ty β)} {a : Atom ι} {t : Ty Name} (hb : Γ.lookup? a.name = none)
      (hl : a.literal? = none) (hv : a.isVariable = false) (hd : env.declared? a.name = some t)
      (f : Name → Ty β) : HasType env F Γ (.var a) (t.bind f)
  | defined {ι : Type} {Γ : Scope (Ty β)} {a : Atom ι} {d : PlainTerm} {τ : Ty β}
      (hb : Γ.lookup? a.name = none) (hl : a.literal? = none) (hv : a.isVariable = false)
      (hn : env.declared? a.name = none) (hd : env.definition? a.name = some d)
      (h : HasType env F [] d τ) : HasType env F Γ (.var a) τ
  | app {ι : Type} {Γ : Scope (Ty β)} {tag : ι} {f x : Term ι} {σ τ : Ty β}
      (hf : HasType env F Γ f (.fn σ τ)) (hx : HasType env F Γ x σ) :
      HasType env F Γ (.app tag f x) τ
  | abs {ι : Type} {Γ : Scope (Ty β)} {tag : ι} {b : Atom ι} {body : Term ι} {σ τ : Ty β}
      (h : HasType env F ((b.name, σ) :: Γ) body τ) : HasType env F Γ (.abs tag b body) (.fn σ τ)

namespace TypeEnv

/-- The types of a constant: the instances of its declared type, or else the types of its
definition. -/
def IsInstance (env : TypeEnv) {β : Type} (F : Name → Ty β) (name : Name) (τ : Ty β) : Prop :=
  (∃ t f, env.declared? name = some t ∧ τ = t.bind f) ∨
    env.declared? name = none ∧ ∃ d, env.definition? name = some d ∧ HasType env F [] d τ

/-- Definitions are closed, and a name has one definition only. -/
structure DefinedOnce (env : TypeEnv) : Prop where
  nodup : (env.defined.map Prod.fst).Nodup
  closed : ∀ entry ∈ env.defined, entry.2.freeVariables = []

end TypeEnv

theorem HasType.constant {env : TypeEnv} {β ι : Type} {F : Name → Ty β} {Γ : Scope (Ty β)}
    {a : Atom ι} {τ : Ty β} (hb : Γ.lookup? a.name = none) (hl : a.literal? = none)
    (hv : a.isVariable = false) (h : env.IsInstance F a.name τ) : HasType env F Γ (.var a) τ := by
  rcases h with ⟨t, f, hd, rfl⟩ | ⟨hn, d, hd, h⟩
  · exact .declared hb hl hv hd f
  · exact .defined hb hl hv hn hd h

/-! ## Free variables -/

theorem Name.eq_nil_of_sorted_eq_nil {xs : List Name} (h : Name.sorted xs = []) : xs = [] := by
  cases xs with
  | nil => rfl
  | cons x xs =>
    have hx : x ∈ Name.sorted (x :: xs) := by
      simp [Name.sorted, List.mem_eraseDups]
    rw [h] at hx
    cases hx

theorem Term.not_mem_freeNames_of_closed {ι : Type} {m : Term ι} {x : Name}
    (hm : m.freeVariables = []) (hx : x.isVariable = true) : x ∉ m.freeNames := by
  intro h
  have hmem : x ∈ m.freeVariables := List.mem_filter.2 ⟨h, hx⟩
  rw [hm] at hmem
  cases hmem

/-- Only the types of the variables that are free and not bound around the term matter. -/
theorem HasType.congr_free {env : TypeEnv} (henv : env.DefinedOnce) {β ι : Type} {F G : Name → Ty β}
    {Γ : Scope (Ty β)} {m : Term ι} {τ : Ty β} (h : HasType env F Γ m τ)
    (hFG : ∀ x ∈ m.freeNames, x.isVariable = true → Γ.lookup? x = none → F x = G x) :
    HasType env G Γ m τ := by
  induction h with
  | bound hb => exact .bound hb
  | @free ι Γ a hb hl hv =>
    rw [hFG a.name (by simp [Term.freeNames]) hv hb]
    exact .free hb hl hv
  | int hb hl => exact .int hb hl
  | declared hb hl hv hd f => exact .declared hb hl hv hd f
  | defined hb hl hv hn hd h ih =>
    have hclosed := henv.closed _ (Scope.mem_of_lookup? hd)
    exact .defined hb hl hv hn hd
      (ih fun x hx hvar => absurd hx (Term.not_mem_freeNames_of_closed hclosed hvar))
  | app hf hx ihf ihx =>
    exact .app (ihf fun y hy => hFG y (by simp [Term.freeNames, hy]))
      (ihx fun y hy => hFG y (by simp [Term.freeNames, hy]))
  | @abs ι Γ tag b body σ τ h ih =>
    refine .abs (ih ?_)
    intro x hx hvar hb
    rw [Scope.lookup?_cons] at hb
    split at hb
    next => cases hb
    next hne => exact hFG x (by simp [Term.freeNames, hx, Ne.symm hne]) hvar hb

/-! ## Environments made by declaring and defining -/

namespace TypeEnv

/-- The environments that declaring and defining names make of the empty or the standard one. A call
that fails leaves the environment as it is. -/
inductive Reachable : TypeEnv → Prop
  | empty : Reachable .empty
  | standard : Reachable .standard
  | declare {env env' : TypeEnv} {name : Name} {type : String} (h : Reachable env)
      (hd : env.declare name type = .ok env') : Reachable env'
  | define {env env' : TypeEnv} {name : Name} {definition : PlainTerm} (h : Reachable env)
      (hd : (env.define name definition).1 = .ok env') : Reachable env'

theorem declare_eq {env env' : TypeEnv} {name : Name} {type : String}
    (h : env.declare name type = .ok env') :
    ∃ t, env' = { env with declared := (name, t) :: env.declared } := by
  unfold declare at h
  split at h
  next t _ =>
    cases h
    exact ⟨t, rfl⟩
  next => cases h

/-- A definition that is accepted is closed and that of a name without one. -/
theorem define_eq {env env' : TypeEnv} {name : Name} {definition : PlainTerm}
    (h : (env.define name definition).1 = .ok env') :
    env' = { env with defined := (name, definition) :: env.defined } ∧
      env.knows name = false ∧ definition.freeVariables = [] := by
  unfold define at h
  split at h
  next => cases h
  next hfault =>
    unfold definitionFault? at hfault
    split at hfault
    next => cases hfault
    next =>
      split at hfault
      next => cases hfault
      next hnew =>
        have hclosed : Name.sorted definition.freeVariables = [] := by simpa using hfault
        refine ⟨?_, by simpa using hnew, Name.eq_nil_of_sorted_eq_nil hclosed⟩
        cases hr : (env.infer definition .start).1 with
        | error e => simp [hr, Except.map] at h
        | ok t =>
          simp only [hr, Except.map] at h
          cases h
          rfl

theorem Reachable.defined_once {env : TypeEnv} (h : env.Reachable) : env.DefinedOnce := by
  induction h with
  | empty => exact ⟨by simp [TypeEnv.empty], by simp [TypeEnv.empty]⟩
  | standard => exact ⟨by simp [TypeEnv.standard], by simp [TypeEnv.standard]⟩
  | declare h hd ih =>
    obtain ⟨t, rfl⟩ := declare_eq hd
    exact ⟨ih.nodup, ih.closed⟩
  | @define env env' name definition h hd ih =>
    obtain ⟨rfl, hnew, hclosed⟩ := define_eq hd
    refine ⟨?_, List.forall_mem_cons.2 ⟨hclosed, ih.closed⟩⟩
    rw [List.map_cons, List.nodup_cons]
    refine ⟨?_, ih.nodup⟩
    intro hmem
    rw [knows, Bool.or_eq_false_iff] at hnew
    have hnone : env.definition? name = none := by simpa using hnew.2
    exact (Scope.lookup?_eq_none_iff.1 hnone) hmem

end TypeEnv

end ProofKernel
