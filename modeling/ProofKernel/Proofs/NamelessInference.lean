import ProofKernel.Proofs.Nameless
import ProofKernel.Proofs.Principality

/-!
# Inference without the names of binders

Inference looks bound variables up by name. It does what inference on nameless terms does, which looks
them up by the distance to their binder, so that the names of binders cannot matter.

* `Infer.Detached`: computations that have to do with no variables of terms, such as all that
  constants need;
* `Infer.Matches`: a computation that does under bound variables what another one does without them;
* `Nameless.infer`: the type of a nameless term;
* `inferWith_matches`: inference does what it does on the nameless form of the term;
* `TypeEnv.inferAll_alike`, `TypeEnv.infer_alike`: terms that are alike have the same types, and the
  same errors.
-/

namespace ProofKernel

/-- Only logic variables have types as free variables. -/
def Inference.VariablesOnly (s : Inference) : Prop :=
  ∀ (x : Name) (t : Ty Nat), Scope.lookup? s.free x = some t → x.isVariable = true

theorem Inference.variablesOnly_nil (s : Inference) (scope : Scope (Ty Nat)) :
    VariablesOnly { s with free := [], scope := scope } :=
  fun _ _ hx => nomatch hx

theorem Inference.variablesOnly_start : start.VariablesOnly := fun _ _ hx => nomatch hx

theorem Inference.VariablesOnly.free_eq_none {s : Inference} (hs : s.VariablesOnly) {x : Name}
    (hx : x.isVariable = false) : Scope.lookup? s.free x = none := by
  by_contra hsome
  obtain ⟨t, ht⟩ := Option.ne_none_iff_exists'.1 hsome
  rw [hs x t ht] at hx
  cases hx

namespace Infer

variable {β γ : Type}

/-! ## Computations without variables of terms -/

/-- **A computation that has to do with no variables of terms**: whatever types they have, it does the
same and leaves those as they are. -/
def Detached (c : Infer β) : Prop :=
  ∀ (s : Inference) (free : List (Name × Ty Nat)) (scope : Scope (Ty Nat)),
    c { s with free := free, scope := scope } =
      ((c s).1, { (c s).2 with free := free, scope := scope })

theorem detached_pure (b : β) : Detached (pure b) := fun _ _ _ => rfl

theorem detached_throw (e : TypeError) : Detached (throw e : Infer β) := fun _ _ _ => rfl

theorem detached_newVar : Detached newVar := fun _ _ _ => rfl

theorem detached_unify (a b : Ty Nat) : Detached (unify a b) := fun _ _ _ => rfl

theorem detached_instantiate (t : Ty Name) : Detached (instantiate t) := fun _ _ _ => rfl

/-- What is done for a closed term is done without the variables of the run. -/
theorem detached_apart (c : Infer β) : Detached (apart c) := fun _ _ _ => rfl

/-- Computations that agree where no variables have types agree apart. -/
theorem apart_congr {c c' : Infer β}
    (h : ∀ s : Inference, s.VariablesOnly → s.scope = [] → c s = c' s) : apart c = apart c' := by
  funext s
  have hrun := h { s with free := [], scope := [] } (s.variablesOnly_nil []) rfl
  show ((c { s with free := [], scope := [] }).1, _) = _
  rw [hrun]
  rfl

theorem Detached.bind {c : Infer β} {k : β → Infer γ} (h : Detached c)
    (hk : ∀ b, Detached (k b)) : Detached (c >>= k) := by
  intro s free scope
  rw [bind_eq, bind_eq, h s free scope]
  rcases c s with ⟨_ | b, s'⟩
  · rfl
  · exact hk b s' free scope

theorem Detached.free_eq {c : Infer β} (h : Detached c) (s : Inference) : (c s).2.free = s.free := by
  have hsame := congrArg (fun r => r.2.free) (h s s.free s.scope)
  exact hsame

/-! ## Computations under bound variables -/

/-- **A computation that does under bound variables what another one does without them.** -/
def Matches (Γ : Scope (Ty Nat)) (c c' : Infer β) : Prop :=
  ∀ s : Inference, s.VariablesOnly →
    c { s with scope := Γ } = ((c' s).1, { (c' s).2 with scope := Γ }) ∧ (c' s).2.VariablesOnly

variable {Γ : Scope (Ty Nat)}

theorem Detached.matches {c : Infer β} (h : Detached c) : Matches Γ c c := by
  intro s hs
  have hfree := h.free_eq s
  refine ⟨?_, fun x t hx => hs x t (hfree ▸ hx)⟩
  have hrun := h s s.free Γ
  rw [← hfree] at hrun
  rw [← hrun, hfree]

theorem Matches.bind {c c' : Infer β} {k k' : β → Infer γ} (h : Matches Γ c c')
    (hk : ∀ b, Matches Γ (k b) (k' b)) : Matches Γ (c >>= k) (c' >>= k') := by
  intro s hs
  obtain ⟨hrun, hs'⟩ := h s hs
  rw [bind_eq, bind_eq, hrun]
  revert hs'
  rcases c' s with ⟨e | b, s'⟩ <;> intro hs'
  · exact ⟨rfl, hs'⟩
  · exact hk b s' hs'

theorem Matches.under {c c' : Infer β} {x : Name} {t : Ty Nat}
    (h : Matches ((x, t) :: Γ) c c') : Matches Γ (under x t c) c' := by
  intro s hs
  obtain ⟨hrun, hs'⟩ := h s hs
  refine ⟨?_, hs'⟩
  have hunder : Infer.under x t c { s with scope := Γ } =
      ((c { s with scope := (x, t) :: Γ }).1,
        { (c { s with scope := (x, t) :: Γ }).2 with
          scope := (c { s with scope := (x, t) :: Γ }).2.scope.tail }) := rfl
  rw [hunder, hrun]
  rfl

/-! ## Free names -/

/-- The type of a free variable: the one that it has, or a new type variable. -/
def variableType (x : Name) : Infer (Ty Nat) := fun s => match Scope.lookup? s.free x with
  | some t => (.ok t, s)
  | none => freeType x s

/-- The type of a name that is no variable, given the types of constants. -/
def closedType (constant : Name → Infer (Ty Nat)) (x : Name) : Infer (Ty Nat) :=
  match Literal.ofName? x with
  | some (.int _) => return .individual
  | some (.str _) => throw (.untyped x)
  | none => constant x

/-- The type of a name that no binder has, given the types of constants. -/
def nameType (constant : Name → Infer (Ty Nat)) (x : Name) : Infer (Ty Nat) :=
  if x.isVariable then variableType x else closedType constant x

section FreeNames

variable {constant : Name → Infer (Ty Nat)} (hconst : ∀ x, Detached (constant x))
include hconst

theorem detached_closedType (x : Name) : Detached (closedType constant x) := by
  unfold closedType
  split
  · exact detached_pure _
  · exact detached_throw _
  · exact hconst x

omit hconst in
theorem variableType_keeps {x : Name} (hx : x.isVariable = true) {s : Inference}
    (hs : s.VariablesOnly) : (variableType x s).2.VariablesOnly := by
  unfold variableType
  split
  · exact hs
  · intro y t hy
    rw [show (freeType x s).2.free = s.free ++ [(x, .var s.next)] from rfl, Scope.lookup?_append,
      Scope.lookup?_cons] at hy
    by_cases hxy : x = y
    · exact hxy ▸ hx
    · rw [if_neg hxy, Scope.lookup?_nil, Option.or_none] at hy
      exact hs y t hy

/-- A name that no binder has gets the type of a free name. -/
theorem nameType_matches {ι : Type} {a : Atom ι} (ha : Γ.lookup? a.name = none) :
    Matches Γ (inferWith constant (.var a)) (nameType constant a.name) := by
  intro s hs
  have hliteral : a.literal? = Literal.ofName? a.name := rfl
  have hvariable : a.isVariable = a.name.isVariable := rfl
  unfold nameType
  cases hv : a.name.isVariable with
  | true =>
    rw [if_pos rfl]
    refine ⟨?_, variableType_keeps hv hs⟩
    unfold variableType
    cases hfree : Scope.lookup? s.free a.name with
    | some t => exact inferWith_known (s := { s with scope := Γ }) (by rw [ha, hfree]; rfl)
    | none =>
      rw [inferWith_new (s := { s with scope := Γ }) ha hfree, hliteral,
        Name.ofName?_eq_none_of_isVariable hv, hvariable, hv]
      rfl
  | false =>
    rw [if_neg (by simp)]
    rw [inferWith_new (s := { s with scope := Γ }) ha (hs.free_eq_none hv), hliteral, hvariable, hv]
    have hclosed := (detached_closedType hconst a.name).matches (Γ := Γ) s hs
    refine ⟨?_, hclosed.2⟩
    rw [← hclosed.1, closedType]
    rfl

end FreeNames

end Infer

open Infer

/-! ## Nameless terms -/

/-- The type of a nameless term, given the types of names and those of the binders around it, the
innermost first. -/
def Nameless.infer (name : Name → Infer (Ty Nat)) : Nameless → List (Ty Nat) → Infer (Ty Nat)
  | .free x, _ => name x
  | .bound k, Δ => return Δ.getD k .individual
  | .app f x, Δ => do
    let fn ← f.infer name Δ
    let arg ← x.infer name Δ
    let result ← newVar
    Infer.unify (.fn arg result) fn
    return result
  | .abs body, Δ => do
    let bound ← newVar
    let result ← body.infer name (bound :: Δ)
    return .fn bound result

/-- The type of a nameless term depends on the types of its free names only. -/
theorem Nameless.infer_congr {name name' : Name → Infer (Ty Nat)} {t : Nameless}
    (h : ∀ x ∈ t.freeNames, name x = name' x) (Δ : List (Ty Nat)) :
    t.infer name Δ = t.infer name' Δ := by
  induction t generalizing Δ with
  | free x => exact h x List.mem_cons_self
  | bound k => rfl
  | app f x ihf ihx =>
    rw [infer, infer, ihf fun y hy => h y (List.mem_append_left _ hy),
      ihx fun y hy => h y (List.mem_append_right _ hy)]
  | abs body ih => simp only [infer, ih h]

/-- The distance to the nearest binder of a name leads to its type. -/
theorem Scope.lookup?_resolve {β : Type} (Γ : Scope β) (x : Name) :
    (∃ k b, Γ.lookup? x = some b ∧ resolve (Γ.map Prod.fst) x = .bound k ∧
        (Γ.map Prod.snd)[k]? = some b) ∨
      Γ.lookup? x = none ∧ resolve (Γ.map Prod.fst) x = .free x := by
  induction Γ with
  | nil => exact .inr ⟨rfl, rfl⟩
  | cons frame Γ ih =>
    obtain ⟨y, c⟩ := frame
    rw [lookup?_cons, List.map_cons, List.map_cons]
    by_cases hy : y = x
    · subst hy
      exact .inl ⟨0, c, if_pos rfl, resolve_cons_self .., rfl⟩
    · rw [if_neg hy, resolve_cons_of_ne _ hy]
      rcases ih with ⟨k, b, hb, hk, hget⟩ | ⟨hb, hk⟩
      · exact .inl ⟨k + 1, b, hb, by rw [hk], hget⟩
      · exact .inr ⟨hb, by rw [hk]⟩

section Terms

variable {ι : Type} {constant : Name → Infer (Ty Nat)} (hconst : ∀ x, Detached (constant x))
include hconst

/-- **Inference does what it does on the nameless form**, by induction on the term: each binder adds
its name and its type at the same place. -/
theorem inferWith_matches (m : Term ι) (Γ : Scope (Ty Nat)) :
    Matches Γ (inferWith constant m)
      ((m.namelessIn (Γ.map Prod.fst)).infer (nameType constant) (Γ.map Prod.snd)) := by
  induction m generalizing Γ with
  | var a =>
    rw [Term.namelessIn]
    rcases Γ.lookup?_resolve a.name with ⟨k, t, ht, hk, hget⟩ | ⟨hnone, hfree⟩
    · rw [hk, Nameless.infer, List.getD_eq_getElem?_getD, hget]
      intro s hs
      exact ⟨inferWith_known (s := { s with scope := Γ }) (by rw [ht]; rfl), hs⟩
    · rw [hfree]
      exact nameType_matches hconst hnone
  | app tag f x ihf ihx =>
    rw [Term.namelessIn, Nameless.infer, inferWith]
    refine (ihf Γ).bind fun fn => (ihx Γ).bind fun arg => ?_
    refine detached_newVar.matches.bind fun result => ?_
    exact (detached_unify _ _).matches.bind fun _ => (detached_pure result).matches
  | abs tag b body ih =>
    rw [Term.namelessIn, Nameless.infer, inferWith]
    refine detached_newVar.matches.bind fun bound => ?_
    exact (ih ((b.name, bound) :: Γ)).under.bind fun result => (detached_pure _).matches

/-- Outside all binders, inference is that of the nameless form. -/
theorem inferWith_nameless (m : Term ι) {s : Inference} (hs : s.VariablesOnly)
    (hscope : s.scope = []) :
    inferWith constant m s =
      ((m.nameless.infer (nameType constant) [] s).1,
        { (m.nameless.infer (nameType constant) [] s).2 with scope := [] }) := by
  have hrun := (inferWith_matches hconst m [] s hs).1
  rwa [Inference.with_scope hscope] at hrun

/-- Of the types of constants those matter that are free in the term. -/
theorem inferWith_congr {constant' : Name → Infer (Ty Nat)}
    (hconst' : ∀ x, Detached (constant' x)) {m : Term ι}
    (h : m.Knows (fun x => constant x = constant' x) []) {s : Inference} (hs : s.VariablesOnly)
    (hscope : s.scope = []) : inferWith constant m s = inferWith constant' m s := by
  have hname : ∀ x ∈ m.nameless.freeNames, nameType constant x = nameType constant' x := by
    intro x hx
    have hx : x ∈ m.freeNames := Term.mem_freeNames_nameless.1 hx
    unfold nameType closedType
    split
    · rfl
    next hv =>
      cases hl : Literal.ofName? x with
      | some l => cases l <;> rfl
      | none => exact h x hx List.not_mem_nil (by simpa using hv) hl
  rw [inferWith_nameless hconst m hs hscope, inferWith_nameless hconst' m hs hscope,
    Nameless.infer_congr hname]

end Terms

namespace TypeEnv

/-- What is done for a constant is done without variables. -/
theorem constantType_detached (declared? : Name → Option (Ty Name))
    (defined : List (Name × PlainTerm)) (name : Name) :
    Detached (constantType declared? defined name) := by
  induction defined generalizing name with
  | nil =>
    unfold constantType
    split
    · exact detached_instantiate _
    · exact detached_throw _
  | cons entry older ih =>
    unfold constantType
    split
    · exact detached_instantiate _
    · split
      · exact detached_apart _
      · exact ih name

/-- The type of a name that no binder has, in an environment. -/
def nameType (env : TypeEnv) : Name → Infer (Ty Nat) :=
  Infer.nameType (constantType env.declared? env.defined)

section Runs

variable {ι κ : Type} (env : TypeEnv) {s : Inference}

/-- Outside all binders, inference in an environment is that of the nameless form. -/
theorem inferIn_nameless (m : Term ι) (hs : s.VariablesOnly) (hscope : s.scope = []) :
    env.inferIn m s = ((m.nameless.infer env.nameType [] s).1,
      { (m.nameless.infer env.nameType [] s).2 with scope := [] }) :=
  inferWith_nameless (constantType_detached env.declared? env.defined) m hs hscope

/-- Between two terms of a run, nothing is bound and only variables have types. -/
theorem infer_keeps (m : Term ι) (hs : s.VariablesOnly) (hscope : s.scope = []) :
    (env.infer m s).2.VariablesOnly ∧ (env.infer m s).2.scope = [] := by
  have hmatches := inferWith_matches (constantType_detached env.declared? env.defined) m [] s hs
  have hstate : (env.infer m s).2 = (env.inferIn m s).2 := rfl
  rw [hstate, env.inferIn_nameless m hs hscope]
  exact ⟨hmatches.2, rfl⟩

/-- Terms have the same types where their nameless forms have. -/
theorem infer_eq_of_nameless {a : Term ι} {b : Term κ}
    (h : a.nameless.infer env.nameType [] = b.nameless.infer env.nameType [])
    (hs : s.VariablesOnly) (hscope : s.scope = []) : env.infer a s = env.infer b s := by
  have hrun : env.inferIn a s = env.inferIn b s := by
    rw [env.inferIn_nameless a hs hscope, env.inferIn_nameless b hs hscope, h]
  show ((env.inferIn a s).1.map (env.inferIn a s).2.store.expand, (env.inferIn a s).2) = _
  rw [hrun]
  rfl

variable [DecidableEq ι]

/-- A term has in a run what each term has that is alike, and leaves the same state. -/
theorem infer_eq_of_alike {a b : Term ι} (h : a.alike b = true) (hs : s.VariablesOnly)
    (hscope : s.scope = []) : env.infer a s = env.infer b s :=
  env.infer_eq_of_nameless (by rw [Term.alike_iff.1 h]) hs hscope

/-- Rows of terms that are alike have the same results in a run, by induction on the row. -/
theorem inferAll_alike {as bs : List (Term ι)} (h : List.Forall₂ (fun a b => a.alike b = true) as bs)
    (hs : s.VariablesOnly) (hscope : s.scope = []) : env.inferAll as s = env.inferAll bs s := by
  induction h generalizing s with
  | nil => rfl
  | @cons a b as bs hab _ ih =>
    obtain ⟨hs', hscope'⟩ := env.infer_keeps b hs hscope
    rw [inferAll_cons, inferAll_cons, env.infer_eq_of_alike hab hs hscope, ih hs' hscope']

/-- **Terms that are alike have the same types**: a new run gives them the same type with the same
type variables, or the same error, and makes the same bindings. -/
theorem infer_alike {a b : Term ι} (h : a.alike b = true) :
    env.infer a .start = env.infer b .start :=
  env.infer_eq_of_alike h Inference.variablesOnly_start rfl

end Runs

/-- A binder may have the name of a literal or of a constant, and hides an outer one of its name. -/
theorem infer_alike_under_constant_names :
    let a : PlainTerm := .lambda "5" (.lambda "T" (.call (.call (.named "&&")
      (.call (.lambda "T" (.named "T")) (.named "T"))) (.call (.named "5") (.named "T"))))
    let b : PlainTerm := .lambda "x" (.lambda "y" (.call (.call (.named "&&")
      (.call (.lambda "z" (.named "z")) (.named "y"))) (.call (.named "x") (.named "y"))))
    a.alike b = true ∧ standard.infer a .start = standard.infer b .start ∧
      (standard.infer b .start).1 = .ok (.fn (.fn .truth .truth) (.fn .truth .truth)) :=
  ⟨by decide, standard.infer_alike (by decide), by cbv⟩

end TypeEnv

end ProofKernel
