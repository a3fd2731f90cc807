import ProofKernel.Proofs.CellInference
import ProofKernel.Proofs.NamelessInference

/-!
# Definitions are expanded in layers

The type of a defined constant is that of its definition, found in the whole environment. Nothing
guards this against going on for ever; that it ends is due to the order in which names are declared and
defined.

* `TypeEnv.Expands`: the constants that are looked up while the type of another one is found;
* `TypeEnv.Reachable.expands_wf`: this is well-founded;
* `TypeEnv.constantType_eq`: the type of a constant by recursion on this;
* `Term.inferUnguarded`: inference that looks definitions up in the whole environment;
* `TypeEnv.Reachable.inferUnguarded_eq`: it does what inference does;
* `TypeEnv.Change`, `TypeEnv.afterAll`: environments after calls that may fail;
* `TypeEnv.inference_ends`: inference always ends.
-/

namespace ProofKernel

namespace TypeEnv

variable {env : TypeEnv}

/-! ## Expanding -/

/-- While the type of one constant is found, another one is looked up: it occurs in the definition of
the first, free and not as a literal. -/
def Expands (env : TypeEnv) (name x : Name) : Prop :=
  env.declared? name = none ∧ ∃ d, env.definition? name = some d ∧
    x ∈ d.freeNames ∧ x.isVariable = false ∧ Literal.ofName? x = none

/-- The number of the layer of a name: how many definitions there are up to its own, and zero if its
type is declared. -/
def layer (env : TypeEnv) (name : Name) : Nat :=
  if (env.declared? name).isSome then 0 else (Scope.outward env.defined name).length

/-- A name that is known among older definitions is declared, or has the same definition there, with
the same older ones. -/
theorem DefinedOnce.known_outward (henv : env.DefinedOnce) {older : List (Name × PlainTerm)}
    (holder : older <:+ env.defined) {x : Name}
    (hx : ({ env with defined := older } : TypeEnv).knows x = true) :
    (∃ t, env.declared? x = some t) ∨
      Scope.outward env.defined x = Scope.outward older x := by
  rw [knows, Bool.or_eq_true, Option.isSome_iff_exists, Option.isSome_iff_exists] at hx
  rcases hx with hdeclared | ⟨d, hd⟩
  · exact .inl hdeclared
  · exact .inr (Scope.outward_of_suffix holder henv.nodup hd)

/-- **A constant expands into constants of lower layers**: they were known before it was defined, and
are in the lowest layer if they are declared. -/
theorem Layered.layer_lt (hlayers : env.Layered) (henv : env.DefinedOnce) {name x : Name}
    (h : env.Expands name x) : env.layer x < env.layer name := by
  obtain ⟨hn, d, hd, hx, hv, hl⟩ := h
  obtain ⟨older, houtward, hsuffix⟩ := Scope.exists_outward_of_lookup? hd
  have hname : env.layer name = older.length + 1 := by
    rw [layer, hn, houtward]
    rfl
  have hknown := hlayers name d older hsuffix x hx List.not_mem_nil hv hl
  rw [hname, layer]
  rcases henv.known_outward ((List.suffix_cons _ _).trans hsuffix) hknown with ⟨t, ht⟩ | hsame
  · rw [ht]
    exact Nat.succ_pos _
  · split
    next => exact Nat.succ_pos _
    next =>
      rw [hsame]
      exact Nat.lt_succ_of_le (List.dropWhile_sublist _).length_le

/-- **Expanding definitions is well-founded** in the environments that declaring and defining names
make. -/
theorem Reachable.expands_wf (henv : env.Reachable) :
    WellFounded fun x name => env.Expands name x :=
  Subrelation.wf (fun h => henv.layered.layer_lt henv.defined_once h)
    (InvImage.wf env.layer Nat.lt_wfRel.wf)

/-! ## The type of a constant -/

/-- The constants of a definition are looked up in the older ones. -/
theorem constantType_outward (declared? : Name → Option (Ty Name))
    (defined : List (Name × PlainTerm)) (name : Name) :
    constantType declared? defined name = match declared? name with
      | some t => Infer.instantiate t
      | none => match Scope.outward defined name with
        | [] => throw (.unknownConstant name)
        | (_, d) :: older => Infer.apart (inferWith (constantType declared? older) d) := by
  induction defined with
  | nil => rfl
  | cons entry older ih =>
    obtain ⟨x, d⟩ := entry
    rw [constantType, Scope.outward_cons, ih]
    cases declared? name with
    | some t => rfl
    | none => by_cases hx : x = name <;> simp only [hx, if_true, if_false]

/-- A name that is known among older definitions has the type that it has among all. -/
theorem constantType_of_suffix (henv : env.DefinedOnce) {older : List (Name × PlainTerm)}
    (holder : older <:+ env.defined) {x : Name}
    (hx : ({ env with defined := older } : TypeEnv).knows x = true) :
    constantType env.declared? older x = constantType env.declared? env.defined x := by
  rw [constantType_outward, constantType_outward]
  rcases henv.known_outward holder hx with ⟨t, ht⟩ | hsame
  · rw [ht]
  · rw [hsame]

/-- **The type of a constant**: a new instance of its declared type, or else the type of its
definition in the whole environment. -/
theorem constantType_eq (henv : env.DefinedOnce) (hlayers : env.Layered) (name : Name) :
    constantType env.declared? env.defined name = match env.declared? name with
      | some t => Infer.instantiate t
      | none => match env.definition? name with
        | some d => Infer.apart (env.inferIn d)
        | none => throw (.unknownConstant name) := by
  rw [constantType_outward]
  cases env.declared? name with
  | some t => rfl
  | none =>
    cases hd : env.definition? name with
    | none => rw [Scope.outward_eq_nil hd]
    | some d =>
      obtain ⟨older, houtward, hsuffix⟩ := Scope.exists_outward_of_lookup? hd
      have holder : older <:+ env.defined := (List.suffix_cons _ _).trans hsuffix
      have hsame : d.Knows (fun x => constantType env.declared? older x =
          constantType env.declared? env.defined x) [] :=
        (hlayers name d older hsuffix).mono fun x hx => constantType_of_suffix henv holder hx
      rw [houtward]
      exact Infer.apart_congr fun s hs hscope => inferWith_congr
        (constantType_detached env.declared? older)
        (constantType_detached env.declared? env.defined) hsame hs hscope

end TypeEnv

/-! ## Inference without a guard -/

/-- **Inference without a guard**: the type of a constant that is not declared is that of its
definition, whose constants are looked up in the whole environment in their turn. There is no result
where this does not end. -/
def Term.inferUnguarded (logs : Bool) (env : TypeEnv) {ι : Type} : Term ι → CellInfer (Ty Nat)
  | .var a => do
    match ← CellInfer.step (Infer.known? a.name) with
    | some t => return t
    | none => match a.literal? with
      | some (.int _) => return .individual
      | some (.str _) => throw (.untyped a.name)
      | none =>
        if a.isVariable then CellInfer.step (Infer.freeType a.name)
        else match env.declared? a.name with
          | some t => CellInfer.step (Infer.instantiate t)
          | none => match env.definition? a.name with
            -- `CellInfer.apart`, written out for the recursion to be seen as monotone
            | some d => fun s => do
              let (r, s') ← d |>.inferUnguarded logs env { s with free := [], scope := [] }
              return (r, { s' with free := s.free, scope := s.scope })
            | none => throw (.unknownConstant a.name)
  | .app _ f x => do
    let fn ← f |>.inferUnguarded logs env
    let arg ← x |>.inferUnguarded logs env
    let result ← CellInfer.step Infer.newVar
    CellInfer.unify logs (.fn arg result) fn
    return result
  | .abs _ b body => do
    let bound ← CellInfer.step Infer.newVar
    -- `CellInfer.under` likewise
    let result ← fun s => do
      let (r, s') ← body |>.inferUnguarded logs env { s with scope := (b.name, bound) :: s.scope }
      return (r, { s' with scope := s'.scope.tail })
    return .fn bound result
partial_fixpoint

namespace CellInfer

variable {β γ ι : Type} {logs : Bool} {env : TypeEnv}

/-- The type of a constant in inference without a guard. -/
def constantUnguarded (logs : Bool) (env : TypeEnv) (name : Name) : CellInfer (Ty Nat) :=
  match env.declared? name with
  | some t => step (Infer.instantiate t)
  | none => match env.definition? name with
    | some d => apart (d.inferUnguarded logs env)
    | none => throw (.unknownConstant name)

theorem inferUnguarded_eq_inferWith (m : Term ι) :
    m.inferUnguarded logs env = inferWith logs (constantUnguarded logs env) m := by
  induction m with
  | var a => rw [Term.inferUnguarded, inferWith]; rfl
  | app tag f x ihf ihx => rw [Term.inferUnguarded, inferWith, ihf, ihx]
  | abs tag b body ih => rw [Term.inferUnguarded, inferWith, ih]; rfl

/-! ### Constants under binders -/

/-- Computations that leave the bound variables as they are. -/
def KeepsScope (m : CellInfer β) : Prop :=
  ∀ s r s', m.run s = some (r, s') → s'.scope = s.scope

/-- **Computations that agree under binders of given names**, and keep the names. -/
def AgreeUnder (Γ : List Name) (m m' : CellInfer β) : Prop :=
  ∀ s : Inference, s.scope.map Prod.fst = Γ → m.run s = m'.run s ∧
    ∀ r s', m.run s = some (r, s') → s'.scope.map Prod.fst = Γ

variable {Γ : List Name}

theorem KeepsScope.agree {m : CellInfer β} (h : KeepsScope m) : AgreeUnder Γ m m :=
  fun s hs => ⟨rfl, fun r s' hrun => (h s r s' hrun) ▸ hs⟩

theorem run_bind_none {m : CellInfer β} {s : Inference} (h : m.run s = none)
    (f : β → CellInfer γ) : (m >>= f).run s = none := by
  rw [ExceptT.run_bind]
  show (m.run s >>= _) = _
  rw [h]
  rfl

theorem AgreeUnder.bind {m m' : CellInfer β} {f f' : β → CellInfer γ} (h : AgreeUnder Γ m m')
    (hf : ∀ b, AgreeUnder Γ (f b) (f' b)) : AgreeUnder Γ (m >>= f) (m' >>= f') := by
  intro s hs
  obtain ⟨hrun, hkeep⟩ := h s hs
  rcases hm : m.run s with _ | ⟨e | b, s₁⟩
  · rw [run_bind_none hm, run_bind_none (hrun ▸ hm)]
    exact ⟨rfl, nofun⟩
  · rw [run_bind_error hm, run_bind_error (hrun ▸ hm)]
    refine ⟨rfl, fun r s' hr => ?_⟩
    cases hr
    exact hkeep _ _ hm
  · rw [run_bind_ok hm, run_bind_ok (hrun ▸ hm)]
    exact hf b s₁ (hkeep _ _ hm)

theorem AgreeUnder.under {m m' : CellInfer β} {x : Name} {t : Ty Nat}
    (h : AgreeUnder (x :: Γ) m m') : AgreeUnder Γ (under x t m) (under x t m') := by
  intro s hs
  let inner : Inference := { s with scope := (x, t) :: s.scope }
  obtain ⟨hrun, hkeep⟩ := h inner (congrArg (x :: ·) hs)
  have hunder : ∀ m : CellInfer β, (CellInfer.under x t m).run s =
      (m.run inner).map fun r => (r.1, { r.2 with scope := r.2.scope.tail }) := by
    intro m
    show (m.run inner >>= _) = _
    cases m.run inner <;> rfl
  rw [hunder, hunder, hrun]
  refine ⟨rfl, fun r s' hr => ?_⟩
  obtain ⟨⟨r', s₁⟩, hr', heq⟩ := Option.map_eq_some_iff.1 hr
  cases heq
  rw [List.map_tail, hkeep r' s₁ (hrun.trans hr'), List.tail_cons]

theorem keepsScope_pure (b : β) : KeepsScope (pure b) := by
  intro s r s' hrun
  cases hrun
  rfl

theorem keepsScope_throw (e : TypeError) : KeepsScope (throw e : CellInfer β) := by
  intro s r s' hrun
  cases hrun
  rfl

theorem keepsScope_step {m : Infer β} (h : ∀ s, (m s).2.scope = s.scope) : KeepsScope (step m) := by
  intro s r s' hrun
  have heq : m s = (r, s') := Option.some.inj hrun
  rw [← h s, heq]

theorem keepsScope_onCells (c : CellM Nat β) :
    KeepsScope (ExceptT.lift (Inference.onCells c) : CellInfer β) := by
  intro s r s' hrun
  have hcells : (ExceptT.lift (Inference.onCells c) : CellInfer β).run s =
      (c.run s.store).map fun r => (.ok r.1, { s with store := r.2 }) := by
    show ((c.run s.store >>= _) >>= _) = _
    cases c.run s.store <;> rfl
  rw [hcells] at hrun
  obtain ⟨r', -, heq⟩ := Option.map_eq_some_iff.1 hrun
  cases heq
  rfl

theorem keepsScope_apart (m : CellInfer β) : KeepsScope (apart m) := by
  intro s r s' hrun
  have hapart : (apart m).run s = (m.run { s with free := [], scope := [] }).map
      fun r => (r.1, { r.2 with free := s.free, scope := s.scope }) := by
    show (m.run _ >>= _) = _
    cases m.run { s with free := [], scope := [] } <;> rfl
  rw [hapart] at hrun
  obtain ⟨r', -, heq⟩ := Option.map_eq_some_iff.1 hrun
  cases heq
  rfl

theorem agreeUnder_unify (a b : Ty Nat) :
    AgreeUnder Γ (unify logs a b) (unify logs a b) := by
  refine (keepsScope_onCells _).agree.bind fun clash? => ?_
  cases clash? with
  | some clash => exact (keepsScope_throw _).agree
  | none => exact (keepsScope_pure ()).agree

theorem run_bound {constant : Name → CellInfer (Ty Nat)} {a : Atom ι} {s : Inference} {t : Ty Nat}
    (h : s.scope.lookup? a.name = some t) :
    (inferWith logs constant (.var a)).run s = some (.ok t, s) := by
  have hknown : (step (Infer.known? a.name)).run s = some (.ok (some t), s) := by
    show some ((Infer.known? a.name).run s) = _
    rw [show (Infer.known? a.name).run s = (Infer.known? a.name) s from rfl, Infer.known?, h]
    rfl
  rw [inferWith, run_bind_ok hknown]
  rfl

/-- A name has a type of its own in the scope, or its type is that of a name that is not bound. -/
theorem inferWith_var_agree {constant constant' : Name → CellInfer (Ty Nat)}
    (hkeep : ∀ x, KeepsScope (constant' x)) {a : Atom ι}
    (h : (Term.var a).Knows (fun x => constant x = constant' x) Γ) :
    AgreeUnder Γ (inferWith logs constant (.var a)) (inferWith logs constant' (.var a)) := by
  by_cases ha : a.name ∈ Γ
  · intro s hs
    obtain ⟨t, ht⟩ := Option.ne_none_iff_exists'.1
      fun hnone => Scope.lookup?_eq_none_iff.1 hnone (hs.symm ▸ ha)
    rw [run_bound ht, run_bound ht]
    refine ⟨rfl, fun r s' hr => ?_⟩
    cases hr
    exact hs
  · rw [inferWith, inferWith]
    refine (keepsScope_step fun _ => rfl).agree.bind fun known => ?_
    cases known with
    | some t => exact (keepsScope_pure t).agree
    | none =>
      cases hl : a.literal? with
      | some l => cases l with
        | int n => exact (keepsScope_pure _).agree
        | str content => exact (keepsScope_throw _).agree
      | none =>
        cases hv : a.isVariable with
        | true => exact (keepsScope_step fun _ => rfl).agree
        | false =>
          have hsame : constant a.name = constant' a.name := h a.name List.mem_cons_self ha hv hl
          show AgreeUnder Γ (constant a.name) (constant' a.name)
          rw [hsame]
          exact (hkeep a.name).agree

/-- The types of the constants of a term decide on its type, by induction on the term. -/
theorem inferWith_agree {constant constant' : Name → CellInfer (Ty Nat)}
    (hkeep : ∀ x, KeepsScope (constant' x)) (m : Term ι)
    (h : m.Knows (fun x => constant x = constant' x) Γ) :
    AgreeUnder Γ (inferWith logs constant m) (inferWith logs constant' m) := by
  induction m generalizing Γ with
  | var a => exact inferWith_var_agree hkeep h
  | app tag f x ihf ihx =>
    obtain ⟨hf, hx⟩ := Term.knows_app.1 h
    rw [inferWith, inferWith]
    refine (ihf hf).bind fun fn => (ihx hx).bind fun arg => ?_
    refine (keepsScope_step fun _ => rfl).agree.bind fun result => ?_
    exact (agreeUnder_unify _ _).bind fun _ => (keepsScope_pure result).agree
  | abs tag b body ih =>
    rw [inferWith, inferWith]
    refine (keepsScope_step fun _ => rfl).agree.bind fun bound => ?_
    exact (ih (Term.knows_abs.1 h)).under.bind fun result => (keepsScope_pure _).agree

/-- Definitions whose constants have the same types have the same type. -/
theorem apart_eq {constant constant' : Name → CellInfer (Ty Nat)}
    (hkeep : ∀ x, KeepsScope (constant' x)) {d : Term ι}
    (h : d.Knows (fun x => constant x = constant' x) []) :
    apart (inferWith logs constant d) = apart (inferWith logs constant' d) := by
  funext s
  have hagree : AgreeUnder [] (inferWith logs constant d) (inferWith logs constant' d) :=
    inferWith_agree hkeep d h
  have hrun := (hagree { s with free := [], scope := [] } rfl).1
  show ((inferWith logs constant d).run { s with free := [], scope := [] } >>= _) = _
  rw [hrun]
  rfl

/-! ### The guard makes no difference -/

section Constants

variable (declared? : Name → Option (Ty Name)) (defined : List (Name × PlainTerm))

/-- The constants of a definition are looked up in the older ones. -/
theorem constantType_outward (name : Name) :
    constantType logs declared? defined name = match declared? name with
      | some t => step (Infer.instantiate t)
      | none => match Scope.outward defined name with
        | [] => throw (.unknownConstant name)
        | (_, d) :: older => apart (inferWith logs (constantType logs declared? older) d) := by
  induction defined with
  | nil => rfl
  | cons entry older ih =>
    obtain ⟨x, d⟩ := entry
    rw [constantType, Scope.outward_cons, ih]
    cases declared? name with
    | some t => rfl
    | none => by_cases hx : x = name <;> simp only [hx, if_true, if_false]

theorem constantType_keepsScope (name : Name) :
    KeepsScope (constantType logs declared? defined name) := by
  rw [constantType_outward]
  split
  · exact keepsScope_step fun _ => rfl
  · split
    · exact keepsScope_throw _
    · exact keepsScope_apart _

end Constants

/-- A name that is known among older definitions has the type that it has among all. -/
theorem constantType_of_suffix (henv : env.DefinedOnce) {older : List (Name × PlainTerm)}
    (holder : older <:+ env.defined) {x : Name}
    (hx : ({ env with defined := older } : TypeEnv).knows x = true) :
    constantType logs env.declared? older x = constantType logs env.declared? env.defined x := by
  rw [constantType_outward, constantType_outward]
  rcases henv.known_outward holder hx with ⟨t, ht⟩ | hsame
  · rw [ht]
  · rw [hsame]

/-- **The type of a constant without a guard** is the one that is found with definitions looked up in
older ones only, by induction on what the constant expands into. -/
theorem constantUnguarded_eq (henv : env.Reachable) (name : Name) :
    constantUnguarded logs env name = constantType logs env.declared? env.defined name := by
  induction name using henv.expands_wf.induction with
  | _ name ih =>
    rw [constantUnguarded, constantType_outward]
    cases hn : env.declared? name with
    | some t => rfl
    | none =>
      cases hd : env.definition? name with
      | none => rw [Scope.outward_eq_nil hd]
      | some d =>
        obtain ⟨older, houtward, hsuffix⟩ := Scope.exists_outward_of_lookup? hd
        have holder : older <:+ env.defined := (List.suffix_cons _ _).trans hsuffix
        rw [houtward]
        show apart (d.inferUnguarded logs env) = apart (inferWith logs _ d)
        rw [inferUnguarded_eq_inferWith]
        refine apart_eq (constantType_keepsScope env.declared? older) fun x hx hb hv hl => ?_
        have hknown := henv.layered name d older hsuffix x hx hb hv hl
        show constantUnguarded logs env x = constantType logs env.declared? older x
        rw [ih x ⟨hn, d, hd, hx, hv, hl⟩, constantType_of_suffix henv.defined_once holder hknown]

end CellInfer

namespace TypeEnv

variable {env : TypeEnv}

/-- The type of a term in a run on cells, resolved, without a guard against going on for ever. -/
def inferUnguarded {ι : Type} (logs : Bool) (env : TypeEnv) (m : Term ι) : CellInfer (Ty Nat) := do
  let t ← m.inferUnguarded logs env
  ExceptT.lift (Inference.onCells t.resolve)

/-- **Inference needs no guard**: it may look definitions up in the whole environment. -/
theorem Reachable.inferUnguarded_eq {ι : Type} (henv : env.Reachable) (logs : Bool) (m : Term ι) :
    env.inferUnguarded logs m = env.inferOnCells logs m := by
  have hconstant : CellInfer.constantUnguarded logs env =
      CellInfer.constantType logs env.declared? env.defined :=
    funext fun name => CellInfer.constantUnguarded_eq henv name
  rw [inferUnguarded, inferOnCells, CellInfer.inferUnguarded_eq_inferWith, hconstant]

/-! ## Inference ends -/

/-- A term in any run whose cells have no cycles: inference ends, and makes no cycle. -/
theorem Reachable.inferUnguarded_ends {ι : Type} (henv : env.Reachable) (logs : Bool) (m : Term ι)
    {s : Inference} (hs : s.store.Acyclic) :
    ∃ r s', (env.inferUnguarded logs m).run s = some (r, s') ∧ s'.store.Acyclic := by
  obtain ⟨rank, σ, hσ⟩ := hs.exists_represents
  have hrepresents : s.Represents { s with store := σ } := ⟨rfl, rank, hσ⟩
  obtain ⟨r, s', hrun, hs', -⟩ := CellInfer.inferOnCells_run logs env m hrepresents
  exact ⟨r, s', henv.inferUnguarded_eq logs m ▸ hrun, hs'.acyclic⟩

/-- Terms one after the other in one run, by induction on the terms. -/
theorem Reachable.inferUnguarded_run_ends {ι : Type} (henv : env.Reachable) (logs : Bool)
    (ms : List (Term ι)) {s : Inference} (hs : s.store.Acyclic) :
    ∃ rs s', (ms.mapM fun m => (env.inferUnguarded logs m).run).run s = some (rs, s') ∧
      s'.store.Acyclic := by
  induction ms generalizing s with
  | nil => exact ⟨[], s, rfl, hs⟩
  | cons m ms ih =>
    obtain ⟨r, s₁, hrun, hs₁⟩ := henv.inferUnguarded_ends logs m hs
    obtain ⟨rs, s₂, hruns, hs₂⟩ := ih hs₁
    refine ⟨r :: rs, s₂, ?_, hs₂⟩
    rw [List.mapM_cons]
    show ((env.inferUnguarded logs m).run s >>= _) = _
    rw [hrun]
    show ((ms.mapM fun m => (env.inferUnguarded logs m).run).run s₁ >>= _) = _
    rw [hruns]
    rfl

/-- A call that adds a name to an environment. -/
inductive Change where
  | declare (name : Name) (type : String)
  | define (name : Name) (definition : PlainTerm)

/-- The environment after a call: the same one, if the call fails. -/
def after (env : TypeEnv) : Change → TypeEnv
  | .declare name type => match env.declare name type with
    | .ok env' => env'
    | .error _ => env
  | .define name definition => match (env.define name definition).1 with
    | .ok env' => env'
    | .error _ => env

/-- The environment after calls, one after the other. -/
def afterAll (env : TypeEnv) (calls : List Change) : TypeEnv := calls.foldl after env

theorem Reachable.after (henv : env.Reachable) (call : Change) : (env.after call).Reachable := by
  cases call with
  | declare name type =>
    rw [TypeEnv.after]
    split
    next env' h => exact .declare henv h
    next => exact henv
  | define name definition =>
    rw [TypeEnv.after]
    split
    next env' h => exact .define henv h
    next => exact henv

theorem Reachable.afterAll (henv : env.Reachable) (calls : List Change) :
    (env.afterAll calls).Reachable := by
  induction calls generalizing env with
  | nil => exact henv
  | cons call calls ih => exact ih (henv.after call)

/-- **Inference always ends.** Whatever calls have declared and defined names, failing ones included,
constants expand into constants in a well-founded way; so inference ends on any terms, one after the
other in any run whose cells have no cycles, though nothing keeps it from looking into definitions for
ever. It makes no cycle, and does what it would do with a guard. -/
theorem inference_ends {start : TypeEnv} (hstart : start = .empty ∨ start = .standard)
    (calls : List Change) :
    let env := start.afterAll calls
    (WellFounded fun x name => env.Expands name x) ∧
      ∀ (ι : Type) (logs : Bool) (ms : List (Term ι)) (s : Inference), s.store.Acyclic →
        ∃ rs s', (ms.mapM fun m => (env.inferUnguarded logs m).run).run s = some (rs, s') ∧
          s'.store.Acyclic ∧
          (ms.mapM fun m => (env.inferOnCells logs m).run).run s = some (rs, s') := by
  intro env
  have henv : env.Reachable := by
    rcases hstart with rfl | rfl
    · exact Reachable.empty.afterAll calls
    · exact Reachable.standard.afterAll calls
  refine ⟨henv.expands_wf, fun ι logs ms s hs => ?_⟩
  obtain ⟨rs, s', hrun, hs'⟩ := henv.inferUnguarded_run_ends logs ms hs
  refine ⟨rs, s', hrun, hs', ?_⟩
  rw [← hrun]
  exact congrArg (fun f => (ms.mapM fun m => (f m).run).run s)
    (funext fun m => (henv.inferUnguarded_eq logs m).symm)

/-- A circle of two names is not closed: the one that the first definition needs is known already, and
can be declared anew only. -/
theorem inference_ends_beside_circle :
    let calls : List Change := [.declare "P" "o", .define "Q" (.named "P"),
      .define "P" (.named "Q"), .declare "P" "(A A)"]
    let env := TypeEnv.empty.afterAll calls
    (TypeEnv.empty = .empty ∨ TypeEnv.empty = .standard) ∧ Inference.start.store.Acyclic ∧
      env.Expands "Q" "P" ∧ ¬ env.Expands "P" "Q" ∧
      ∃ rs s', ([.named "Q", .named "P"].mapM fun m : PlainTerm =>
        (env.inferUnguarded true m).run).run .start = some (rs, s') := by
  intro calls env
  have hacyclic : Inference.start.store.Acyclic := Inference.represents_start.acyclic
  have henv : env = ⟨[("P", .fn (.var "A") (.var "A")), ("P", .truth)], [("Q", .named "P")]⟩ := by
    unfold env calls
    cbv
  obtain ⟨-, hends⟩ := inference_ends (.inl rfl) calls
  obtain ⟨rs, s', hrun, -⟩ := hends Unit true [.named "Q", .named "P"] .start hacyclic
  have hneeds : env.Expands "Q" "P" := by
    rw [henv]
    exact ⟨rfl, .named "P", rfl, by decide, by decide, by decide⟩
  have hback : ¬ env.Expands "P" "Q" := by
    rw [henv]
    rintro ⟨hnone, -⟩
    cases hnone
  exact ⟨.inl rfl, hacyclic, hneeds, hback, rs, s', hrun⟩

end TypeEnv

end ProofKernel
