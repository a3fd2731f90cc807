import ProofKernel.Proofs.Principality
import ProofKernel.Proofs.Substitution

/-!
# Substitution keeps types

What a term is named by its binders makes no difference to its types, so typings are carried over to
nameless terms, where substitution is that of nameless forms.

* `Nameless.HasType`: typings of nameless terms, over any types of the free names;
* `HasType.iff_nameless`: a term has the types of its nameless form;
* `HasType.alike`: so terms that are alike have the same types;
* `Nameless.HasType.subst`: the substitution lemma, for simultaneous substitution;
* `HasType.apply`: substitution in a term keeps its types, whatever binders it renames;
* `TypeEnv.infer_apply`: the type found for a redex is an instance of that found for its contraction.
-/

namespace ProofKernel

/-! ## Typings of nameless terms -/

section Nameless

variable {β : Type}

/-- **Typings of nameless terms.** `HasType P Δ t τ`: with types of free names as `P` says, and the
types `Δ` of the binders around it, the innermost first, the term `t` has the type `τ`. -/
inductive Nameless.HasType (P : Name → Ty β → Prop) : List (Ty β) → Nameless → Ty β → Prop
  | free {Δ : List (Ty β)} {x : Name} {τ : Ty β} (h : P x τ) : HasType P Δ (.free x) τ
  | bound {Δ : List (Ty β)} {k : Nat} {τ : Ty β} (h : Δ[k]? = some τ) : HasType P Δ (.bound k) τ
  | app {Δ : List (Ty β)} {f x : Nameless} {σ τ : Ty β} (hf : HasType P Δ f (.fn σ τ))
      (hx : HasType P Δ x σ) : HasType P Δ (.app f x) τ
  | abs {Δ : List (Ty β)} {body : Nameless} {σ τ : Ty β} (h : HasType P (σ :: Δ) body τ) :
      HasType P Δ (.abs body) (.fn σ τ)

namespace Nameless

variable {P Q : Name → Ty β → Prop} {Δ : List (Ty β)} {t : Nameless} {τ : Ty β}

/-- More binders around a term keep its types. -/
theorem HasType.weaken (h : t.HasType P Δ τ) (Ξ : List (Ty β)) : t.HasType P (Δ ++ Ξ) τ := by
  induction h with
  | free h => exact .free h
  | @bound Δ k τ h =>
    obtain ⟨hk, -⟩ := List.getElem?_eq_some_iff.1 h
    refine .bound ?_
    rw [List.getElem?_append_left hk]
    exact h
  | app hf hx ihf ihx => exact .app ihf ihx
  | abs h ih => exact .abs ih

/-- **The substitution lemma**: a term keeps its types if each of its free names is replaced by a
term that has on its own all the types of the name. -/
theorem HasType.subst {θ : Name → Option Nameless}
    (hθ : ∀ x σ, P x σ → ((θ x).getD (.free x)).HasType Q [] σ) (h : t.HasType P Δ τ) :
    (t.subst θ).HasType Q Δ τ := by
  induction h with
  | free h => exact (hθ _ _ h).weaken _
  | bound h => exact .bound h
  | app hf hx ihf ihx => exact .app ihf ihx
  | abs h ih => exact .abs ih

end Nameless

end Nameless

/-! ## Typings of terms -/

section Terms

variable {env : TypeEnv} {β : Type} {F : Name → Ty β}

/-- The types of a name under some binders. -/
def TypeEnv.NameTypes (env : TypeEnv) (F : Name → Ty β) (Γ : Scope (Ty β)) (x : Name) (τ : Ty β) :
    Prop :=
  HasType env F Γ (.named x) τ

/-- A name has the type of its binder, or, where it has none, the types that it has on its own. -/
theorem HasType.var_iff {ι : Type} {Γ : Scope (Ty β)} {a : Atom ι} {τ : Ty β} :
    HasType env F Γ (.var a) τ ↔ Γ.lookup? a.name = some τ ∨
      Γ.lookup? a.name = none ∧ env.NameTypes F [] a.name τ := by
  constructor
  · intro h
    cases h with
    | bound hb => exact .inl hb
    | free hb hl hv => exact .inr ⟨hb, .free rfl hl hv⟩
    | int hb hl => exact .inr ⟨hb, .int rfl hl⟩
    | declared hb hl hv hd f => exact .inr ⟨hb, .declared (a := .plain a.name) rfl hl hv hd f⟩
    | defined hb hl hv hn hd h => exact .inr ⟨hb, .defined rfl hl hv hn hd h⟩
  · rintro (hb | ⟨hb, h⟩)
    · exact .bound hb
    · cases h with
      | bound hb' => cases hb'
      | free _ hl hv => exact .free hb hl hv
      | int _ hl => exact .int hb hl
      | declared _ hl hv hd f => exact .declared hb hl hv hd f
      | defined _ hl hv hn hd h => exact .defined hb hl hv hn hd h

theorem TypeEnv.nameTypes_iff {Γ : Scope (Ty β)} {x : Name} {τ : Ty β} : env.NameTypes F Γ x τ ↔
    Γ.lookup? x = some τ ∨ Γ.lookup? x = none ∧ env.NameTypes F [] x τ :=
  HasType.var_iff

/-- A name with a frame in a scope resolves to its place there. -/
theorem resolve_of_lookup? {γ : Type} {Γ : Scope γ} {x : Name} {b : γ} (h : Γ.lookup? x = some b) :
    ∃ k : Nat, resolve (Γ.map Prod.fst) x = .bound k ∧ (Γ.map Prod.snd)[k]? = some b := by
  induction Γ with
  | nil => simp at h
  | cons frame Γ ih =>
    obtain ⟨y, c⟩ := frame
    rw [Scope.lookup?_cons] at h
    by_cases hy : y = x
    · rw [if_pos hy] at h
      subst hy
      exact ⟨0, resolve_cons_self _ _, h⟩
    · rw [if_neg hy] at h
      obtain ⟨k, hk, hb⟩ := ih h
      refine ⟨k + 1, ?_, hb⟩
      rw [List.map_cons, resolve_cons_of_ne _ hy, hk]

/-- A name has the types of what it stands for under some of its binders, the other ones counting as
types of free names. -/
theorem HasType.var_iff_resolve {ι : Type} {Γ Γ₀ : Scope (Ty β)} {a : Atom ι} {τ : Ty β} :
    HasType env F (Γ ++ Γ₀) (.var a) τ ↔ (resolve (Γ.map Prod.fst) a.name).HasType
      (env.NameTypes F Γ₀) (Γ.map Prod.snd) τ := by
  rw [HasType.var_iff, Scope.lookup?_append]
  cases hΓ : Γ.lookup? a.name with
  | some σ =>
    obtain ⟨k, hk, hσ⟩ := resolve_of_lookup? hΓ
    rw [hk]
    constructor
    · rintro (h | ⟨h, -⟩)
      · exact .bound (hσ.trans h)
      · cases h
    · rintro (_ | h)
      exact .inl (hσ.symm.trans h)
  | none =>
    rw [resolve_of_not_mem (Scope.lookup?_eq_none_iff.1 hΓ), Option.none_or]
    constructor
    · intro h
      exact .free (TypeEnv.nameTypes_iff.2 h)
    · rintro (h | _)
      exact TypeEnv.nameTypes_iff.1 h

/-- **A term has the types of its nameless form**, where the types of some binders around it count as
types of free names, by induction on the term. -/
theorem HasType.iff_nameless {ι : Type} {Γ Γ₀ : Scope (Ty β)} {m : Term ι} {τ : Ty β} :
    HasType env F (Γ ++ Γ₀) m τ ↔ (m.namelessIn (Γ.map Prod.fst)).HasType
      (env.NameTypes F Γ₀) (Γ.map Prod.snd) τ := by
  induction m generalizing Γ τ with
  | var a => exact HasType.var_iff_resolve
  | app tag f x ihf ihx =>
    constructor
    · rintro (_ | _ | _ | _ | _ | ⟨hf, hx⟩)
      exact .app (ihf.1 hf) (ihx.1 hx)
    · rintro (_ | _ | ⟨hf, hx⟩)
      exact .app (ihf.2 hf) (ihx.2 hx)
  | abs tag b body ih =>
    constructor
    · rintro (_ | _ | _ | _ | _ | _ | @⟨_, _, _, _, _, σ, τ, h⟩)
      exact .abs ((ih (Γ := (b.name, σ) :: Γ)).1 h)
    · rintro (_ | _ | _ | @⟨_, _, σ, τ, h⟩)
      exact .abs ((ih (Γ := (b.name, σ) :: Γ)).2 h)

/-- **Terms that are alike have the same types.** -/
theorem HasType.alike {ι : Type} [DecidableEq ι] {Γ : Scope (Ty β)} {m n : Term ι} {τ : Ty β}
    (h : HasType env F Γ m τ) (hmn : m.alike n = true) : HasType env F Γ n τ := by
  have hm : m.nameless.HasType _ _ _ := (HasType.iff_nameless (Γ := [])).1 h
  rw [Term.alike_iff.1 hmn] at hm
  exact (HasType.iff_nameless (Γ := [])).2 hm

/-! ## Substitution -/

/-- Frames with the types of the nodes that are put in for their names. -/
def Substitution.HasTypes (env : TypeEnv) (F : Name → Ty β) (σ : Substitution)
    (Γ : Scope (Ty β)) : Prop :=
  List.Forall₂ (fun entry frame => entry.1 = frame.1 ∧ HasType env F [] entry.2 frame.2) σ Γ

/-- What is put in for a name has the type of its frame, and a name without a frame stays. -/
theorem Substitution.HasTypes.images {σ : Substitution} {Γ : Scope (Ty β)}
    (h : σ.HasTypes env F Γ) {x : Name} {τ : Ty β} (hx : env.NameTypes F Γ x τ) :
    ((σ.images x).getD (.free x)).HasType (env.NameTypes F []) [] τ := by
  rw [TypeEnv.nameTypes_iff] at hx
  induction h with
  | nil =>
    rcases hx with hx | ⟨-, hx⟩
    · cases hx
    · exact .free hx
  | @cons entry frame σ Γ h _ ih =>
    obtain ⟨y, m⟩ := entry
    obtain ⟨y', υ⟩ := frame
    obtain ⟨rfl, hm⟩ := h
    rw [Scope.lookup?_cons] at hx
    rw [Substitution.images, Scope.lookup?_cons]
    by_cases hy : y = x
    · rw [if_pos hy] at hx ⊢
      rcases hx with hx | ⟨hx, -⟩
      · cases hx
        exact (HasType.iff_nameless (Γ := [])).1 hm
      · cases hx
    · rw [if_neg hy] at hx ⊢
      exact ih hx

/-- **Substitution in a term keeps its types**, whatever fresh names and nodes it draws: a term that
has a type under frames for the names replaced has it with the nodes put in, if these have the types
of the frames. -/
theorem HasType.apply {σ : Substitution} (hσ : (σ.map Prod.fst).Nodup) {Γ : Scope (Ty β)}
    (hΓ : σ.HasTypes env F Γ) {target : Node} {τ : Ty β} (h : HasType env F Γ target τ)
    (names : NameSupply) (nodes : Nat) :
    HasType env F [] (σ.apply names target nodes).1.1 τ := by
  have hnameless := (HasType.iff_nameless (Γ := [])).1 h
  refine (HasType.iff_nameless (Γ := [])).2 ?_
  show (Term.nameless _).HasType _ _ _
  rw [Substitution.nameless_apply hσ]
  exact hnameless.subst fun x υ hx => hΓ.images hx

end Terms

/-! ## Contracting a redex -/

namespace TypeEnv

variable {env : TypeEnv}

/-- **Contracting a redex keeps its type.** In any environment made by declaring and defining names,
if a new run gives a type to the call of an abstraction, then a new run gives a type to the body with
the argument put in for the binder, whatever fresh names and nodes this draws. The type of the redex
is an instance of that type, and so are the types of the free variables that are left. -/
theorem infer_apply (henv : env.Reachable) {tag tag' : Nat} {x : Atom Nat} {body arg : Node}
    {T : Ty Nat} (h : (env.infer (.app tag (.abs tag' x body) arg) .start).1 = .ok T)
    (names : NameSupply) (nodes : Nat) :
    let contracted := (Substitution.apply [(x.name, arg)] names body nodes).1.1
    ∃ (T' : Ty Nat) (θ : Nat → Ty Nat), (env.infer contracted .start).1 = .ok T' ∧
      T = T'.bind θ ∧ ∀ y ∈ contracted.freeVariables,
        (env.infer (.app tag (.abs tag' x body) arg) .start).2.typeOf y =
          ((env.infer contracted .start).2.typeOf y).bind θ := by
  intro contracted
  have hredex := infer_hasType henv.defined_once h
  rcases hredex with _ | _ | _ | _ | _ | @⟨_, _, _, _, _, σ, _, hfn, harg⟩
  rcases hfn with _ | _ | _ | _ | _ | _ | hbody
  have htypes : Substitution.HasTypes env
      (env.infer (.app tag (.abs tag' x body) arg) .start).2.typeOf [(x.name, arg)] [(x.name, σ)] :=
    .cons ⟨rfl, harg⟩ .nil
  have hnodup : ([(x.name, arg)].map Prod.fst).Nodup := List.nodup_singleton x.name
  have hcontracted := hbody.apply hnodup htypes names nodes
  obtain ⟨T', -, hT', -⟩ := infer_completes henv hcontracted
  obtain ⟨θ, hθ, hfree⟩ := infer_general henv hT' hcontracted
  exact ⟨T', θ, hT', hθ, hfree⟩

/-- The argument has the name of a binder of the body, which is renamed: `({x. {y. (x y)}} y)` and
what it contracts to, a function like `y`. -/
theorem infer_apply_captured :
    let x : Atom Nat := ⟨0, "x", none⟩
    let y : Atom Nat := ⟨1, "y", none⟩
    let body : Node := .abs 2 y (.app 3 (.var x) (.var y))
    let redex : Node := .app 4 (.abs 5 x body) (.var ⟨6, "y", none⟩)
    let contracted := (Substitution.apply [("x", .var ⟨6, "y", none⟩)] .start body 7).1.1
    TypeEnv.standard.Reachable ∧
      (TypeEnv.standard.infer redex .start).1 = .ok (.fn (.var 2) (.var 3)) ∧
      contracted.nameless = .abs (.app (.free "y") (.bound 0)) ∧
      ∃ (T' : Ty Nat) (θ : Nat → Ty Nat), (TypeEnv.standard.infer contracted .start).1 = .ok T' ∧
        .fn (.var 2) (.var 3) = T'.bind θ := by
  intro x y body redex contracted
  have hinfer : (TypeEnv.standard.infer redex .start).1 = .ok (.fn (.var 2) (.var 3)) := by cbv
  have hnameless : contracted.nameless = .abs (.app (.free "y") (.bound 0)) := by cbv
  obtain ⟨T', θ, hT', hθ, -⟩ := infer_apply .standard hinfer .start 7
  exact ⟨.standard, hinfer, hnameless, T', θ, hT', hθ⟩

end TypeEnv

end ProofKernel
