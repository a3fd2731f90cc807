import Mathlib
import ProofKernel.Proofs.Typing
import ProofKernel.Proofs.Unification

/-!
# Inferred types are types

* `Inference.Good`, `Inference.Extends`: what holds of every state of a run, and what each step keeps
  of the state before it, also where it fails;
* `Inference.Reads`: types for the type variables and the free variables that agree with a state;
* `inferWith_types`, `TypeEnv.constantType_isInstance`: a step that gives a type gives one that the
  term or the constant has, however the state after it is read;
* `TypeEnv.inferAll_sound`: all types found in a run are types of their terms at its end.
-/

namespace ProofKernel

/-- The scope with types put in for the type variables. -/
def Scope.bind {β : Type} (Γ : Scope (Ty Nat)) (ρ : Nat → Ty β) : Scope (Ty β) :=
  Γ.map fun frame => (frame.1, frame.2.bind ρ)

/-! ## The states of a run -/

namespace Inference

/-- **The invariant of a run.** The store is solved, and what has a type as a free variable is a
logic variable and no literal. -/
structure Good (s : Inference) : Prop where
  solved : s.store.Solved
  free : ∀ x t, Scope.lookup? s.free x = some t →
    Name.isVariable x = true ∧ Literal.ofName? x = none

theorem good_start : Good .start := ⟨.nil, by simp [start]⟩

/-- What a step of a run keeps: bindings and free variables are added only, and the variables bound
around the term are those of before. -/
structure Extends (s s' : Inference) : Prop where
  store : s.store <:+ s'.store
  free : s.free <+: s'.free
  scope : s'.scope = s.scope

theorem Extends.refl (s : Inference) : s.Extends s := ⟨List.suffix_refl _, List.prefix_refl _, rfl⟩

theorem Extends.trans {s s' s'' : Inference} (h : s.Extends s') (h' : s'.Extends s'') :
    s.Extends s'' :=
  ⟨h.store.trans h'.store, h.free.trans h'.free, h'.scope.trans h.scope⟩

/-- Types for the type variables under which all bindings hold, and the types that the free
variables have under them. -/
structure Reads {β : Type} (ρ : Nat → Ty β) (F : Name → Ty β) (s : Inference) : Prop where
  store : TypeStore.Satisfies ρ s.store
  free : ∀ x t, Scope.lookup? s.free x = some t → F x = t.bind ρ

theorem with_scope {s : Inference} {Γ : Scope (Ty Nat)} (h : s.scope = Γ) :
    { s with scope := Γ } = s := by
  rw [← h]

theorem Reads.mono {β : Type} {ρ : Nat → Ty β} {F : Name → Ty β} {s s' : Inference}
    (h : Reads ρ F s') (hs : s.Extends s') : Reads ρ F s :=
  ⟨h.store.of_suffix hs.store, fun x t hx => h.free x t (Scope.lookup?_of_prefix hs.free hx)⟩

end Inference

open Inference

/-! ## Steps -/

namespace Infer

variable {δ ε : Type}

/-- What a computation achieves from a state, whether it fails or not, and what holds of its result
and the state after it where it gives one. -/
structure Ensures (c : Infer δ) (s : Inference) (Q : δ → Inference → Prop) : Prop where
  good : (c s).2.Good
  ext : s.Extends (c s).2
  result : ∀ b, (c s).1 = .ok b → Q b (c s).2

theorem Ensures.mono {c : Infer δ} {s : Inference} {P Q : δ → Inference → Prop} (h : Ensures c s P)
    (hPQ : ∀ b s', s.Extends s' → P b s' → Q b s') : Ensures c s Q :=
  ⟨h.good, h.ext, fun b hb => hPQ b _ h.ext (h.result b hb)⟩

theorem bind_eq (c : Infer δ) (k : δ → Infer ε) (s : Inference) :
    (c >>= k) s = match c s with
      | (.ok b, s') => k b s'
      | (.error e, s') => (.error e, s') := by
  show (ExceptT.bindCont k (c s).1) (c s).2 = _
  rcases c s with ⟨_ | _, _⟩ <;> rfl

theorem Ensures.bind {c : Infer δ} {k : δ → Infer ε} {s : Inference} {P : δ → Inference → Prop}
    {Q : ε → Inference → Prop} (h : Ensures c s P)
    (hk : ∀ b s', s'.Good → s.Extends s' → P b s' → Ensures (k b) s' Q) :
    Ensures (c >>= k) s Q := by
  obtain ⟨hgood, hext, hresult⟩ := h
  cases hc : c s with
  | mk r s' =>
    rw [hc] at hgood hext hresult
    cases r with
    | error e => constructor <;> rw [bind_eq, hc] <;> simp_all
    | ok b =>
      obtain ⟨hgood', hext', hresult'⟩ := hk b s' hgood hext (hresult b rfl)
      constructor <;> rw [bind_eq, hc]
      · exact hgood'
      · exact hext.trans hext'
      · exact hresult'

theorem Ensures.pure {s : Inference} {Q : δ → Inference → Prop} {b : δ} (hs : s.Good) (h : Q b s) :
    Ensures (pure b) s Q := by
  refine ⟨hs, .refl s, ?_⟩
  intro b' hb
  cases hb
  exact h

theorem Ensures.throw {s : Inference} {Q : δ → Inference → Prop} {e : TypeError} (hs : s.Good) :
    Ensures (throw e) s Q :=
  ⟨hs, .refl s, fun _ hb => nomatch hb⟩

/-! ### The steps of inference -/

theorem newVar_ensures {s : Inference} (hs : s.Good) : Ensures newVar s fun _ _ => True :=
  ⟨⟨hs.solved, hs.free⟩, ⟨List.suffix_refl _, List.prefix_refl _, rfl⟩, fun _ _ => trivial⟩

theorem freeType_ensures {s : Inference} (hs : s.Good) {x : Name} (hv : x.isVariable = true)
    (hl : Literal.ofName? x = none) (hx : Scope.lookup? s.free x = none) :
    Ensures (freeType x) s fun t s' => Scope.lookup? s'.free x = some t := by
  have hself : Scope.lookup? (s.free ++ [(x, .var s.next)]) x = some (.var s.next) := by
    rw [Scope.lookup?_append, hx, Scope.lookup?_cons, if_pos rfl]
    rfl
  have hother : ∀ y t, Scope.lookup? (s.free ++ [(x, .var s.next)]) y = some t →
      Scope.lookup? s.free y = some t ∨ y = x := by
    intro y t hy
    by_cases hxy : x = y
    · exact .inr hxy.symm
    · rw [Scope.lookup?_append, Scope.lookup?_cons, if_neg hxy, Scope.lookup?_nil,
        Option.or_none] at hy
      exact .inl hy
  refine ⟨⟨hs.solved, ?_⟩, ⟨List.suffix_refl _, List.prefix_append .., rfl⟩, ?_⟩
  · intro y t hy
    rcases hother y t hy with hy | rfl
    · exact hs.free y t hy
    · exact ⟨hv, hl⟩
  · rintro t ht
    cases ht
    exact hself

theorem instantiate_ensures {s : Inference} (hs : s.Good) (t : Ty Name) :
    Ensures (instantiate t) s fun u _ => ∃ f : Name → Ty Nat, u = t.bind f := by
  refine ⟨⟨hs.solved, hs.free⟩, ⟨List.suffix_refl _, List.prefix_refl _, rfl⟩, ?_⟩
  intro u hu
  cases hu
  exact ⟨_, rfl⟩

theorem unify_ensures {s : Inference} (hs : s.Good) (a b : Ty Nat) :
    Ensures (unify a b) s fun _ s' =>
      ∀ (β : Type) (ρ : Nat → Ty β), TypeStore.Satisfies ρ s'.store → a.bind ρ = b.bind ρ := by
  refine ⟨⟨hs.solved.unify a b, hs.free⟩,
    ⟨TypeStore.unify_suffix s.store a b, List.prefix_refl _, rfl⟩, fun _ hok β ρ hρ => ?_⟩
  cases hclash : (s.store.unify a b).2 with
  | none => exact TypeStore.unify_equates hclash hρ
  | some c =>
    have herr : (unify a b s).1 = .error (.clash c) := by
      simp [unify, hclash]
    rw [herr] at hok
    cases hok

theorem Ensures.under {c : Infer δ} {s : Inference} {x : Name} {t : Ty Nat}
    {Q : δ → Inference → Prop} (h : Ensures c { s with scope := (x, t) :: s.scope } Q) :
    Ensures (under x t c) s fun b s' => Q b { s' with scope := (x, t) :: s'.scope } := by
  have hscope : (Infer.under x t c s).2.scope = s.scope := congrArg List.tail h.ext.scope
  refine ⟨⟨h.good.solved, h.good.free⟩, ⟨h.ext.store, h.ext.free, hscope⟩, ?_⟩
  intro b hb
  have hQ := h.result b hb
  rw [← with_scope h.ext.scope] at hQ
  rwa [hscope]

/-- What holds after a computation for a closed term, but for its own free and bound variables. -/
theorem Ensures.apart {c : Infer δ} {s : Inference} {Q : δ → Inference → Prop} (hs : s.Good)
    (h : Ensures c { s with free := [], scope := [] } Q) :
    Ensures (apart c) s fun b s' => ∃ free, Q b { s' with free := free, scope := [] } := by
  refine ⟨⟨h.good.solved, hs.free⟩, ⟨h.ext.store, List.prefix_refl _, rfl⟩, ?_⟩
  intro b hb
  refine ⟨(c { s with free := [], scope := [] }).2.free, ?_⟩
  have hQ := h.result b hb
  rwa [← with_scope h.ext.scope] at hQ

end Infer

/-! ## Terms and constants -/

/-- The types that a term has, however the state after it is read. -/
def Term.TypesIn {ι : Type} (env : TypeEnv) (m : Term ι) (s : Inference) (t : Ty Nat)
    (s' : Inference) : Prop :=
  ∀ (β : Type) (ρ : Nat → Ty β) (F : Name → Ty β), Reads ρ F s' →
    HasType env F (s.scope.bind ρ) m (t.bind ρ)

/-- The types that a constant has, however the state after it is read. -/
def ConstantIn (env : TypeEnv) (name : Name) (t : Ty Nat) (s' : Inference) : Prop :=
  ∀ (β : Type) (ρ : Nat → Ty β) (F : Name → Ty β), Reads ρ F s' → env.IsInstance F name (t.bind ρ)

theorem Scope.bind_lookup? {β : Type} (Γ : Scope (Ty Nat)) (ρ : Nat → Ty β) (x : Name) :
    (Γ.bind ρ).lookup? x = (Γ.lookup? x).map (Ty.bind ρ) :=
  Scope.lookup?_map Γ (Ty.bind ρ) x

section Step

variable {env : TypeEnv} {constant : Name → Infer (Ty Nat)} {ι : Type}

theorem inferWith_var (hconst : ∀ name s, s.Good →
    (constant name).Ensures s (ConstantIn env name)) (a : Atom ι) {s : Inference} (hs : s.Good) :
    (inferWith constant (.var a)).Ensures s ((Term.var a).TypesIn env s) := by
  unfold inferWith
  have hknown : (Infer.known? a.name).Ensures s fun t? s' =>
      t? = (s.scope.lookup? a.name).or (Scope.lookup? s.free a.name) ∧ s' = s :=
    ⟨hs, .refl s, fun b hb => by cases hb; exact ⟨rfl, rfl⟩⟩
  refine hknown.bind fun t? s' hs' _ ⟨ht, hsame⟩ => ?_
  subst hsame
  have hscope : ∀ (β : Type) (ρ : Nat → Ty β),
      (s'.scope.bind ρ).lookup? a.name = (s'.scope.lookup? a.name).map (Ty.bind ρ) :=
    fun β ρ => Scope.bind_lookup? ..
  cases hb : s'.scope.lookup? a.name with
  | some t =>
    rw [hb, Option.some_or] at ht
    subst ht
    refine .pure hs' fun β ρ F _ => .bound ?_
    rw [hscope, hb]
    rfl
  | none =>
    -- no binder has the name, whatever is put in for the type variables
    have hb : ∀ (β : Type) (ρ : Nat → Ty β), (s'.scope.bind ρ).lookup? a.name = none := by
      intro β ρ
      rw [hscope, hb]
      rfl
    rw [‹s'.scope.lookup? a.name = none›, Option.none_or] at ht
    cases t? with
    | some t =>
      obtain ⟨hv, hl⟩ := hs'.free _ t ht.symm
      refine .pure hs' ?_
      intro β ρ F hρ
      rw [← hρ.free _ t ht.symm]
      exact .free (hb β ρ) hl hv
    | none =>
      cases hl : a.literal? with
      | some l =>
        cases l with
        | int n => exact .pure hs' fun β ρ F _ => .int (hb β ρ) hl
        | str content => exact .throw hs'
      | none =>
        cases hv : a.isVariable with
        | true =>
          refine (Infer.freeType_ensures hs' hv hl ht.symm).mono ?_
          intro t s₁ _ ht β ρ F hρ
          rw [← hρ.free _ t ht]
          exact .free (hb β ρ) hl hv
        | false =>
          exact (hconst a.name s' hs').mono fun t s₁ _ ht β ρ F hρ =>
            .constant (hb β ρ) hl hv (ht β ρ F hρ)

/-- **One step over a term**, by induction on the term. -/
theorem inferWith_types (hconst : ∀ name s, s.Good →
    (constant name).Ensures s (ConstantIn env name)) (m : Term ι) {s : Inference} (hs : s.Good) :
    (inferWith constant m).Ensures s (m.TypesIn env s) := by
  induction m generalizing s with
  | var a => exact inferWith_var hconst a hs
  | app tag f x ihf ihx =>
    refine (ihf hs).bind ?_
    intro fn s₁ hs₁ h₁ hfn
    refine (ihx hs₁).bind ?_
    intro arg s₂ hs₂ h₂ harg
    refine (Infer.newVar_ensures hs₂).bind ?_
    intro result s₃ hs₃ h₃ _
    refine (Infer.unify_ensures hs₃ (.fn arg result) fn).bind ?_
    intro _ s₄ hs₄ h₄ hunify
    refine .pure hs₄ ?_
    intro β ρ F hρ
    have hf := hfn β ρ F (hρ.mono (h₂.trans (h₃.trans h₄)))
    have hx := harg β ρ F (hρ.mono (h₃.trans h₄))
    have heq := hunify β ρ hρ.store
    rw [h₁.scope] at hx
    rw [← heq] at hf
    exact .app hf hx
  | abs tag b body ih =>
    refine (Infer.newVar_ensures hs).bind ?_
    intro bound s₁ hs₁ h₁ _
    have hbody := ih (s := { s₁ with scope := (b.name, bound) :: s₁.scope }) ⟨hs₁.solved, hs₁.free⟩
    refine hbody.under.bind ?_
    intro result s₂ hs₂ h₂ hresult
    refine .pure hs₂ ?_
    intro β ρ F hρ
    have hbody := hresult β ρ F ⟨hρ.store, hρ.free⟩
    rw [← h₁.scope]
    exact .abs hbody

end Step

namespace TypeEnv

variable {env : TypeEnv}

theorem instantiate_isInstance {name : Name} {t : Ty Name} (hd : env.declared? name = some t)
    {s : Inference} (hs : s.Good) : (Infer.instantiate t).Ensures s (ConstantIn env name) := by
  refine (Infer.instantiate_ensures hs t).mono ?_
  intro u s' _ hu β ρ F _
  obtain ⟨f, rfl⟩ := hu
  exact .inl ⟨t, fun v => (f v).bind ρ, hd, Ty.bind_bind f ρ t⟩

/-- A type of a definition, found apart from the run, is one of its types in the run: a definition
has no free variable. -/
theorem definition_isInstance (henv : env.DefinedOnce) {name : Name} {d : PlainTerm}
    (hn : env.declared? name = none) (hd : env.definition? name = some d)
    {constant : Name → Infer (Ty Nat)}
    (hconst : ∀ name s, s.Good → (constant name).Ensures s (ConstantIn env name))
    {s : Inference} (hs : s.Good) :
    (Infer.apart (inferWith constant d)).Ensures s (ConstantIn env name) := by
  have hempty : Good { s with free := [], scope := [] } := ⟨hs.solved, by simp⟩
  refine (Infer.Ensures.apart hs (inferWith_types hconst d hempty)).mono ?_
  rintro t s' - ⟨free, ht⟩ β ρ F hρ
  refine .inr ⟨hn, d, hd, ?_⟩
  let G : Name → Ty β := fun x => ((Scope.lookup? free x).map (Ty.bind ρ)).getD (F x)
  have hG : Reads ρ G { s' with free := free, scope := [] } :=
    ⟨hρ.store, fun x u hx => by simp only [G]; rw [hx]; rfl⟩
  have hclosed := henv.closed _ (Scope.mem_of_lookup? hd)
  exact (ht β ρ G hG).congr_free henv fun x hx hv =>
    absurd hx (Term.not_mem_freeNames_of_closed hclosed hv)

/-- **One step over a constant**, by induction on the definitions that it is looked up among. -/
theorem constantType_isInstance (henv : env.DefinedOnce) {defs : List (Name × PlainTerm)}
    (hdefs : defs <:+ env.defined) (name : Name) {s : Inference} (hs : s.Good) :
    (constantType env.declared? defs name).Ensures s (ConstantIn env name) := by
  induction defs generalizing name s with
  | nil =>
    unfold constantType
    cases hd : env.declared? name with
    | some t => exact instantiate_isInstance hd hs
    | none => exact .throw hs
  | cons entry older ih =>
    obtain ⟨defined, d⟩ := entry
    have holder : older <:+ env.defined := (List.suffix_cons _ _).trans hdefs
    unfold constantType
    cases hd : env.declared? name with
    | some t => exact instantiate_isInstance hd hs
    | none =>
      by_cases hname : defined = name
      · have hdef : env.definition? name = some d :=
          Scope.lookup?_of_suffix hdefs henv.nodup (by rw [Scope.lookup?_cons, if_pos hname])
        simp only [if_pos hname]
        exact definition_isInstance henv hd hdef (fun x s hs => ih holder x hs) hs
      · simp only [if_neg hname]
        exact ih holder name hs

theorem inferIn_types {ι : Type} (henv : env.DefinedOnce) (m : Term ι) {s : Inference}
    (hs : s.Good) : (env.inferIn m).Ensures s (m.TypesIn env s) :=
  inferWith_types (fun name _ hs => constantType_isInstance henv (List.suffix_refl _) name hs) m hs

/-! ## Runs -/

/-- The results for terms that are inferred one after the other in one run, and the state at its
end. -/
def inferAll {ι : Type} (env : TypeEnv) :
    List (Term ι) → Inference → List (Except TypeError (Ty Nat)) × Inference
  | [], s => ([], s)
  | m :: ms, s =>
    let (r, s) := env.infer m s
    let (rs, s) := env.inferAll ms s
    (r :: rs, s)

section Run

variable {ι : Type}

theorem inferAll_cons (env : TypeEnv) (m : Term ι) (ms : List (Term ι)) (s : Inference) :
    env.inferAll (m :: ms) s = ((env.infer m s).1 :: (env.inferAll ms (env.infer m s).2).1,
      (env.inferAll ms (env.infer m s).2).2) := rfl

/-- A type that is found is the one found for the term, with the bindings put in. -/
theorem infer_ok {m : Term ι} {s : Inference} {T : Ty Nat} (h : (env.infer m s).1 = .ok T) :
    ∃ t, (env.inferIn m s).1 = .ok t ∧ T = (env.infer m s).2.store.expand t := by
  unfold infer at h ⊢
  show ∃ t, (env.inferIn m s).1 = .ok t ∧ T = (env.inferIn m s).2.store.expand t
  cases hr : (env.inferIn m s).1 with
  | error e =>
    have h : ((env.inferIn m s).1.map (env.inferIn m s).2.store.expand) = .ok T := h
    rw [hr] at h
    cases h
  | ok t =>
    have h : ((env.inferIn m s).1.map (env.inferIn m s).2.store.expand) = .ok T := h
    rw [hr] at h
    cases h
    exact ⟨t, rfl, rfl⟩

/-- The states of a run only grow, and stay good. -/
theorem inferAll_extends (henv : env.DefinedOnce) (ms : List (Term ι)) {s : Inference}
    (hs : s.Good) : s.Extends (env.inferAll ms s).2 ∧ (env.inferAll ms s).2.Good := by
  induction ms generalizing s with
  | nil => exact ⟨.refl s, hs⟩
  | cons m ms ih =>
    have hm := inferIn_types henv m hs
    obtain ⟨hext, hgood⟩ := ih hm.good
    exact ⟨hm.ext.trans hext, hgood⟩

/-- Each type that a run finds is a type of its term, however the state at the end is read. -/
theorem inferAll_types (henv : env.DefinedOnce) (ms : List (Term ι)) {s : Inference} (hs : s.Good)
    {β : Type} {ρ : Nat → Ty β} {F : Name → Ty β} (hρ : Reads ρ F (env.inferAll ms s).2) :
    ∀ p ∈ ms.zip (env.inferAll ms s).1, ∀ T, p.2 = .ok T →
      HasType env F (s.scope.bind ρ) p.1 (T.bind ρ) := by
  induction ms generalizing s with
  | nil => simp
  | cons m ms ih =>
    have hm := inferIn_types henv m hs
    have hrest := ih hm.good hρ
    have hread := hρ.mono (inferAll_extends henv ms hm.good).1
    rw [inferAll_cons]
    refine List.forall_mem_cons.2 ⟨?_, ?_⟩
    · intro T hT
      obtain ⟨t, ht, rfl⟩ := infer_ok hT
      have htype := hm.result t ht β ρ F hread
      rwa [← TypeStore.bind_expand hread.store] at htype
    · intro p hp T hT
      have htype := hrest p hp T hT
      rwa [hm.ext.scope] at htype

end Run

/-- **Soundness of whole runs.** In any environment made by declaring and defining names, there are
types for the free variables under which each call that gave a type gave one of its term, read with
the bindings that the run has made at its end. Calls that failed may stand between. -/
theorem inferAll_sound {ι : Type} (henv : env.Reachable) (ms : List (Term ι)) :
    ∃ F : Name → Ty Nat, ∀ p ∈ ms.zip (env.inferAll ms .start).1, ∀ T, p.2 = .ok T →
      HasType env F [] p.1 ((env.inferAll ms .start).2.store.expand T) := by
  have hgood := (inferAll_extends henv.defined_once ms good_start).2
  generalize hend : (env.inferAll ms .start).2 = s at hgood ⊢
  let ρ : Nat → Ty Nat := fun v => s.store.expand (.var v)
  let F : Name → Ty Nat := fun x => ((Scope.lookup? s.free x).map (Ty.bind ρ)).getD (.var 0)
  have hρ : Reads ρ F s :=
    ⟨hgood.solved.satisfies, fun x t hx => by simp only [F]; rw [hx]; rfl⟩
  refine ⟨F, ?_⟩
  intro p hp T hT
  rw [TypeStore.expand_eq_bind]
  rw [← hend] at hρ
  exact inferAll_types henv.defined_once ms good_start hρ p hp T hT

/-- A call that fails, and one that binds the type that an earlier call gave. -/
theorem inferAll_sound_identity :
    let x : PlainTerm := .named "x"
    let idOf : PlainTerm → PlainTerm := .call (.named "id")
    let env : TypeEnv := ⟨[], [("id", .lambda "x" x)]⟩
    env.Reachable ∧ ∃ F : Name → Ty Nat, HasType env F [] (idOf x) (.var 6) ∧
      HasType env F [] (.call (idOf (.named "id")) x) (.var 6) := by
  intro x idOf env
  have hdef : (TypeEnv.define .empty "id" (.lambda "x" x)).1 = .ok env := by cbv
  have henv : env.Reachable := .define .empty hdef
  let ms := [idOf x, .call x x, .call (idOf (.named "id")) x]
  obtain ⟨F, hF⟩ := inferAll_sound henv ms
  have hresults : (env.inferAll ms .start).1 =
      [.ok (.var 1), .error (.clash (.recursive 1 (.fn (.var 1) (.var 4)))), .ok (.var 6)] := by cbv
  have hfirst : (env.inferAll ms .start).2.store.expand (.var 1) = .var 6 := by cbv
  have hlast : (env.inferAll ms .start).2.store.expand (.var 6) = .var 6 := by cbv
  rw [hresults] at hF
  refine ⟨henv, F, ?_, ?_⟩
  · rw [← hfirst]
    exact hF (idOf x, .ok (.var 1)) (by simp [ms]) _ rfl
  · rw [← hlast]
    exact hF (.call (idOf (.named "id")) x, .ok (.var 6)) (by simp [ms]) _ rfl

end TypeEnv

end ProofKernel
