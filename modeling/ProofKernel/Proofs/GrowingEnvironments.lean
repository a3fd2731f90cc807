import ProofKernel.Proofs.Unfolding

/-!
# Environments that grow

Definitions are typed anew wherever they are used, in the environment of that time. Still, names that
are added later make no difference to the terms that have a type already.

* `TypeEnv.GrowsTo`: an environment with the names of another one, as they are there, and with more;
* `TypeEnv.Adds`: calls that define names, or declare names that are new when they are declared;
* `TypeEnv.Adds.growsTo`: what such calls do to an environment;
* `TypeEnv.GrowsTo.constantType_eq`: known constants keep their types;
* `TypeEnv.infer_conservative`: terms that have a type keep it, and so do defined constants.
-/

namespace ProofKernel

open Infer

namespace TypeEnv

variable {env env' env'' : TypeEnv}

/-! ## Growing -/

/-- **An environment that has all names of another one as they are there**: its older definitions are
those of the other one, and names that the other one knows have the declared types that they have
there, if any. -/
structure GrowsTo (env env' : TypeEnv) : Prop where
  defined : env.defined <:+ env'.defined
  declared : ∀ x, env.knows x = true → env'.declared? x = env.declared? x

theorem GrowsTo.refl (env : TypeEnv) : env.GrowsTo env := ⟨List.suffix_refl _, fun _ _ => rfl⟩

/-- What is known with the definitions of the smaller environment. -/
theorem GrowsTo.knows_older (h : env.GrowsTo env') {x : Name} (hx : env.knows x = true) :
    ({ env' with defined := env.defined } : TypeEnv).knows x = true := by
  have hdeclared := h.declared x hx
  rw [declared?] at hdeclared
  rw [knows, declared?, hdeclared]
  exact hx

theorem GrowsTo.knows (h : env.GrowsTo env') {x : Name} (hx : env.knows x = true) :
    env'.knows x = true := by
  have holder := h.knows_older hx
  rw [TypeEnv.knows, Bool.or_eq_true] at holder ⊢
  refine holder.imp_right fun hdefined => ?_
  obtain ⟨d, hd⟩ := Option.isSome_iff_exists.1 hdefined
  have hmem : x ∈ env'.defined.map Prod.fst :=
    List.mem_map.2 ⟨_, h.defined.subset (Scope.mem_of_lookup? hd), rfl⟩
  rw [Option.isSome_iff_ne_none]
  exact fun hnone => Scope.lookup?_eq_none_iff.1 hnone hmem

theorem GrowsTo.trans (h : env.GrowsTo env') (h' : env'.GrowsTo env'') : env.GrowsTo env'' :=
  ⟨h.defined.trans h'.defined, fun x hx =>
    (h'.declared x (h.knows hx)).trans (h.declared x hx)⟩

/-- Older definitions grow to all of them. -/
theorem growsTo_of_suffix {defs : List (Name × PlainTerm)} (h : defs <:+ env.defined) :
    ({ env with defined := defs } : TypeEnv).GrowsTo env :=
  ⟨h, fun _ _ => rfl⟩

/-- Declaring a name that is not known. -/
theorem growsTo_declare {name : Name} {type : String} (hnew : env.knows name = false)
    (h : env.declare name type = .ok env') : env.GrowsTo env' := by
  obtain ⟨t, rfl⟩ := declare_eq h
  refine ⟨List.suffix_refl _, fun x hx => ?_⟩
  have hne : name ≠ x := by
    rintro rfl
    rw [hnew] at hx
    cases hx
  rw [declared?, Scope.lookup?_cons, if_neg hne]
  rfl

theorem growsTo_define {name : Name} {definition : PlainTerm}
    (h : (env.define name definition).1 = .ok env') : env.GrowsTo env' := by
  obtain ⟨rfl, -, -⟩ := define_eq h
  exact ⟨List.suffix_cons _ _, fun _ _ => rfl⟩

/-- **Calls that add names**: each declares a name that is not known at its time, or defines one. All
of them may fail. -/
def Adds (env : TypeEnv) : List Change → Prop
  | [] => True
  | .declare name type :: calls =>
    env.knows name = false ∧ (env.after (.declare name type)).Adds calls
  | .define name definition :: calls => (env.after (.define name definition)).Adds calls

/-- **Calls that add names make an environment grow**, by induction on the calls. -/
theorem Adds.growsTo {calls : List Change} (h : env.Adds calls) :
    env.GrowsTo (env.afterAll calls) := by
  induction calls generalizing env with
  | nil => exact .refl env
  | cons call calls ih =>
    have hafter : env.GrowsTo (env.after call) ∧ (env.after call).Adds calls := by
      cases call with
      | declare name type =>
        refine ⟨?_, h.2⟩
        rw [after]
        split
        next env' hdeclare => exact growsTo_declare h.1 hdeclare
        next => exact .refl env
      | define name definition =>
        refine ⟨?_, h⟩
        rw [after]
        split
        next env' hdefine => exact growsTo_define hdefine
        next => exact .refl env
    exact hafter.1.trans (ih hafter.2)

/-! ## Types -/

/-- Names that are known among older definitions have the same types there, by induction on the
definitions: those that a definition uses were known before it. -/
theorem GrowsTo.constantType_older (h : env.GrowsTo env') (hlayers : env.Layered)
    {defs : List (Name × PlainTerm)} (hdefs : defs <:+ env.defined) {x : Name}
    (hx : ({ env with defined := defs } : TypeEnv).knows x = true) :
    constantType env'.declared? defs x = constantType env.declared? defs x := by
  have hknown : ∀ {defs : List (Name × PlainTerm)}, defs <:+ env.defined → ∀ {x : Name},
      ({ env with defined := defs } : TypeEnv).knows x = true →
        env'.declared? x = env.declared? x :=
    fun hsuffix x hx => h.declared x ((growsTo_of_suffix hsuffix).knows hx)
  induction defs generalizing x with
  | nil => rw [constantType, constantType, hknown hdefs hx]
  | cons entry older ih =>
    obtain ⟨defined, d⟩ := entry
    have holder : older <:+ env.defined := (List.suffix_cons _ _).trans hdefs
    rw [constantType, constantType, hknown hdefs hx]
    cases hdeclared : env.declared? x with
    | some t => rfl
    | none =>
      by_cases hname : defined = x
      · simp only [if_pos hname]
        have hsame : d.Knows (fun y => constantType env'.declared? older y =
            constantType env.declared? older y) [] :=
          (hlayers defined d older hdefs).mono fun y hy => ih holder hy
        exact Infer.apart_congr fun s hs hscope => inferWith_congr
          (constantType_detached env'.declared? older) (constantType_detached env.declared? older)
          hsame hs hscope
      · simp only [if_neg hname]
        refine ih holder ?_
        simp only [TypeEnv.knows, declared?, definition?, Scope.lookup?_cons, if_neg hname] at hx ⊢
        exact hx

/-- **Known constants keep their types.** -/
theorem GrowsTo.constantType_eq (h : env.GrowsTo env') (hlayers : env.Layered)
    (henv' : env'.DefinedOnce) {x : Name} (hx : env.knows x = true) :
    constantType env'.declared? env'.defined x = constantType env.declared? env.defined x := by
  rw [← constantType_of_suffix henv' h.defined (h.knows_older hx)]
  exact h.constantType_older hlayers (List.suffix_refl _) hx

/-- Terms whose constants are known keep their types, and their errors. -/
theorem GrowsTo.infer_eq {ι : Type} (h : env.GrowsTo env') (hlayers : env.Layered)
    (henv' : env'.DefinedOnce) {m : Term ι} (hm : m.Knows (env.knows · = true) []) {s : Inference}
    (hs : s.VariablesOnly) (hscope : s.scope = []) : env'.infer m s = env.infer m s := by
  have hsame : m.Knows (fun x => constantType env'.declared? env'.defined x =
      constantType env.declared? env.defined x) [] :=
    hm.mono fun x hx => h.constantType_eq hlayers henv' hx
  have hrun : env'.inferIn m s = env.inferIn m s := inferWith_congr
    (constantType_detached env'.declared? env'.defined)
    (constantType_detached env.declared? env.defined) hsame hs hscope
  show ((env'.inferIn m s).1.map (env'.inferIn m s).2.store.expand, (env'.inferIn m s).2) = _
  rw [hrun]
  rfl

/-- A definition has the type that it had when it was accepted, and the constant has it too, if it is
no literal. -/
theorem GrowsTo.infer_defined {c : Name} {d : PlainTerm} (hdefine : (env.define c d).1 = .ok env')
    (h : env'.GrowsTo env'') (henv : env.Reachable) (henv'' : env''.Reachable)
    (hl : Literal.ofName? c = none) :
    (env''.infer (.named c) .start).1 = (env.infer d .start).1 := by
  have hgrows := (growsTo_define hdefine).trans h
  obtain ⟨T, hT⟩ := define_infers hdefine
  obtain ⟨rfl, hnew, -⟩ := define_eq hdefine
  have hd : env''.definition? c = some d :=
    Scope.lookup?_of_suffix h.defined henv''.defined_once.nodup
      (by rw [Scope.lookup?_cons, if_pos rfl])
  have hn : env''.declared? c = none := by
    rw [TypeEnv.knows, Bool.or_eq_false_iff] at hnew
    have hknown : (TypeEnv.mk env.declared ((c, d) :: env.defined)).knows c = true := by
      simp [TypeEnv.knows, definition?, Scope.lookup?_cons]
    rw [h.declared c hknown]
    exact Option.not_isSome_iff_eq_none.1 (ne_true_of_eq_false hnew.1)
  have hnamed : env''.infer (.named c) .start = env''.infer d .start :=
    env''.infer_eq_of_nameless (henv''.definition_type hd hn hl).symm
      Inference.variablesOnly_start rfl
  rw [hnamed, hgrows.infer_eq henv.layered henv''.defined_once
    (infer_hasType henv.defined_once hT).knows Inference.variablesOnly_start rfl]

/-- The type of a name that spells a literal: numbers are individuals, strings have no type. -/
def literalType (name : Name) : Literal → Except TypeError (Ty Nat)
  | .int _ => .ok .individual
  | .str _ => .error (.untyped name)

/-- A constant that is a literal has the type of the literal, in every environment. -/
theorem infer_literal (env : TypeEnv) {c : Name} {l : Literal} (hl : Literal.ofName? c = some l) :
    (env.infer (.named c) .start).1 = literalType c l := by
  have hv : c.isVariable = false := by
    by_contra hv
    rw [Name.ofName?_eq_none_of_isVariable (by simpa using hv)] at hl
    cases hl
  have hname : (env.nameType c .start).1 = literalType c l := by
    rw [nameType, Infer.nameType, hv]
    show (closedType _ c .start).1 = _
    rw [closedType, hl]
    cases l <;> rfl
  show (env.inferIn (.named c) .start).1.map _ = _
  rw [env.inferIn_nameless (.named c) Inference.variablesOnly_start rfl]
  show (env.nameType c .start).1.map _ = _
  rw [hname]
  cases l with
  | int n => exact congrArg Except.ok ((TypeStore.expand_eq_bind _ _).trans rfl)
  | str content => rfl

/-- **Adding names is conservative.** In an environment made by declaring and defining names, let any
calls follow that define names, or declare names which are not known at their time, and that may
fail. A new run gives each term that had a type the same one as before, with the same type variables.
So each constant keeps the type that its definition had when this was accepted, but for literals:
these can be defined, and have the type of literals all the same. -/
theorem infer_conservative (henv : env.Reachable) :
    (∀ (ι : Type) (m : Term ι) (T : Ty Nat), (env.infer m .start).1 = .ok T →
      ∀ calls, env.Adds calls → (env.afterAll calls).infer m .start = env.infer m .start) ∧
    ∀ c d env', (env.define c d).1 = .ok env' → ∃ T, (env.infer d .start).1 = .ok T ∧
      ∀ calls, env'.Adds calls → ((env'.afterAll calls).infer (.named c) .start).1 =
        match Literal.ofName? c with
          | none => .ok T
          | some l => literalType c l := by
  refine ⟨fun ι m T hT calls hcalls => ?_, fun c d env' hdefine => ?_⟩
  · exact hcalls.growsTo.infer_eq henv.layered (henv.afterAll calls).defined_once
      (infer_hasType henv.defined_once hT).knows Inference.variablesOnly_start rfl
  · obtain ⟨T, hT⟩ := define_infers hdefine
    refine ⟨T, hT, fun calls hcalls => ?_⟩
    have henv' := (henv.define hdefine).afterAll calls
    cases hl : Literal.ofName? c with
    | none => rw [hcalls.growsTo.infer_defined hdefine henv henv' hl, hT]
    | some l => exact infer_literal _ hl

/-- The type of a definition that uses an older one, kept over a declaration and a definition that
fail, over a new declared name, and over a definition of which the new name is a part. -/
theorem infer_conservative_twice :
    let x : PlainTerm := .named "x"
    let twice : PlainTerm := .call (.named "id") (.named "id")
    let env : TypeEnv := ⟨[], [("id", .lambda "x" x)]⟩
    let env' : TypeEnv := ⟨[], [("twice", twice), ("id", .lambda "x" x)]⟩
    let calls : List Change := [.declare "K" "(o", .declare "K" "(A o)", .define "id" (.named "K"),
      .define "L" (.call (.named "twice") (.named "K"))]
    env.Reachable ∧ (env.define "twice" twice).1 = .ok env' ∧ env'.Adds calls ∧
      env'.afterAll calls = ⟨[("K", .fn (.var "A") .truth)],
        [("L", .call (.named "twice") (.named "K")), ("twice", twice), ("id", .lambda "x" x)]⟩ ∧
      (env.infer twice .start).1 = .ok (.fn (.var 2) (.var 2)) ∧
      ((env'.afterAll calls).infer (.named "twice") .start).1 = .ok (.fn (.var 2) (.var 2)) ∧
      (env'.afterAll calls).infer (.named "twice") .start = env'.infer (.named "twice") .start := by
  intro x twice env env' calls
  have hid : (TypeEnv.define .empty "id" (.lambda "x" x)).1 = .ok env := by cbv
  have htwice : (env.define "twice" twice).1 = .ok env' := by cbv
  have henv : env.Reachable := .define .empty hid
  have henv' : env'.Reachable := henv.define htwice
  have hcalls : env'.Adds calls := ⟨by cbv, by cbv, trivial⟩
  have htype : (env.infer twice .start).1 = .ok (.fn (.var 2) (.var 2)) := by cbv
  obtain ⟨T, hT, hkept⟩ := (infer_conservative henv).2 _ _ _ htwice
  have hnamed : (env'.infer (.named "twice") .start).1 = .ok T := hkept [] trivial
  refine ⟨henv, htwice, hcalls, by cbv, htype, ?_,
    (infer_conservative henv').1 Unit (.named "twice") T hnamed calls hcalls⟩
  rw [hkept calls hcalls, ← htype, hT]
  rfl

end TypeEnv

end ProofKernel
