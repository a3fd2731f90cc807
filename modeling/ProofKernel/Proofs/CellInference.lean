import ProofKernel.Proofs.CellUnification
import ProofKernel.Proofs.TypeSoundness

/-!
# Types and inference, one request after the other

What is asked of types and of inference on cells has the replies that it has on a store, whatever has
been asked before and however that has ended. All requests are answered, the cells stay without
cycles, and requests that only look at types leave what the cells say as it is.

* `Inference.Represents`: a run on cells that is where a run on a store is;
* `CellInfer.Follows`: a computation on cells that does what one on a store does;
* `CellInfer.inferWith_follows`, `CellInfer.constantType_follows`: inference;
* `TypeRequest.replyOnStore`: the replies on a store;
* `TypeRequest.reply_agrees`: what a request does;
* `TypeRequest.run_represents`: what any number of requests do.
-/

namespace ProofKernel

open TypeStore

variable {β γ : Type}

namespace Inference

/-- **A run on cells is where a run on a store is**: the two differ in the bindings only, which
represent the store. -/
structure Represents (s s₀ : Inference) : Prop where
  rest : s = { s₀ with store := s.store }
  store : ∃ rank, s.store.Represents rank s₀.store

section Represents

variable {s s₀ : Inference}

theorem represents_start : start.Represents start where
  rest := rfl
  store := ⟨fun _ => 0, List.nodup_nil, .nil, fun _ => Iff.rfl, nofun, nofun⟩

theorem Represents.solved (h : s.Represents s₀) : s₀.store.Solved := by
  obtain ⟨rank, hstore⟩ := h.store
  exact hstore.solved

theorem Represents.acyclic (h : s.Represents s₀) : s.store.Acyclic := by
  obtain ⟨rank, hstore⟩ := h.store
  exact hstore.acyclic

theorem Represents.reads_iff (h : s.Represents s₀) {ρ : Nat → Ty Nat} :
    s.store.Reads ρ ↔ ρ = fun v => s₀.store.expand (.var v) := by
  obtain ⟨rank, hstore⟩ := h.store
  exact hstore.reads_iff

theorem Represents.free_eq (h : s.Represents s₀) : s.free = s₀.free := by rw [h.rest]

theorem Represents.scope_eq (h : s.Represents s₀) : s.scope = s₀.scope := by rw [h.rest]

/-- What types the variables of terms have makes no difference to the bindings. -/
theorem Represents.within (h : s.Represents s₀) {free free₀ : List (Name × Ty Nat)}
    {scope scope₀ : Scope (Ty Nat)} (hfree : free = free₀) (hscope : scope = scope₀) :
    Represents { s with free := free, scope := scope }
      { s₀ with free := free₀, scope := scope₀ } where
  rest := by rw [h.rest, hfree, hscope]
  store := h.store

end Represents

/-! ### Computations on the cells of a run -/

section OnCells

variable {s s₀ : Inference} {m : CellM Nat β}

theorem run_onCells {b : β} {c : TypeStore Nat} (h : m.run s.store = some (b, c)) :
    (onCells m).run s = some (b, { s with store := c }) := by
  show (m.run s.store >>= fun r => some (r.1, { s with store := r.2 })) = _
  rw [h]
  rfl

theorem onCells_gives {P : β → Prop} (h : ∀ rank, CellM.Gives rank s₀.store m P)
    (hs : s.Represents s₀) :
    ∃ b s', (onCells m).run s = some (b, s') ∧ s'.Represents s₀ ∧ P b := by
  obtain ⟨rank, hstore⟩ := hs.store
  obtain ⟨b, c, hrun, hc, hb⟩ := h rank s.store hstore
  refine ⟨b, _, run_onCells hrun, ⟨?_, rank, hc⟩, hb⟩
  rw [hs.rest]

theorem onCells_follows {r : TypeStore Nat × β} (h : CellM.Follows m s₀.store r)
    (hs : s.Represents s₀) :
    ∃ s', (onCells m).run s = some (r.2, s') ∧ s'.Represents { s₀ with store := r.1 } := by
  obtain ⟨rank, hstore⟩ := hs.store
  obtain ⟨c, rank', hrun, hc⟩ := h s.store rank hstore
  refine ⟨_, run_onCells hrun, ⟨?_, rank', hc⟩⟩
  rw [hs.rest]

end OnCells

end Inference

/-! ## Inference -/

namespace CellInfer

/-- **A computation on cells does what one on a store does**: it ends with the same result, where
the other is. -/
def Follows (m : CellInfer β) (m₀ : Infer β) : Prop :=
  ∀ s s₀ : Inference, s.Represents s₀ →
    ∃ s', m.run s = some ((m₀ s₀).1, s') ∧ s'.Represents (m₀ s₀).2

/-! How computations run that may fail and leave a state, or that do not end. -/

section Bind

variable {σ : Type} {m : ExceptT TypeError (StateT σ Option) β} {s s' : σ}

theorem run_bind_ok {b : β} (h : m.run s = some (.ok b, s'))
    (f : β → ExceptT TypeError (StateT σ Option) γ) : (m >>= f).run s = (f b).run s' := by
  rw [ExceptT.run_bind]
  show (m.run s >>= _) = _
  rw [h]
  rfl

theorem run_bind_error {e : TypeError} (h : m.run s = some (.error e, s'))
    (f : β → ExceptT TypeError (StateT σ Option) γ) :
    (m >>= f).run s = some (.error e, s') := by
  rw [ExceptT.run_bind]
  show (m.run s >>= _) = _
  rw [h]
  rfl

theorem run_lift {c : StateT σ Option β} {b : β} (h : c.run s = some (b, s')) :
    (ExceptT.lift c : ExceptT TypeError (StateT σ Option) β).run s = some (.ok b, s') := by
  show (c.run s >>= _) = _
  rw [h]
  rfl

end Bind

theorem follows_pure (b : β) : Follows (pure b) (pure b) := fun s _ hs => ⟨s, rfl, hs⟩

theorem follows_throw (e : TypeError) : Follows (throw e : CellInfer β) (throw e) :=
  fun s _ hs => ⟨s, rfl, hs⟩

theorem Follows.bind {m : CellInfer β} {m₀ : Infer β} {f : β → CellInfer γ} {f₀ : β → Infer γ}
    (h : Follows m m₀) (hf : ∀ b, Follows (f b) (f₀ b)) : Follows (m >>= f) (m₀ >>= f₀) := by
  intro s s₀ hs
  obtain ⟨s', hrun, hs'⟩ := h s s₀ hs
  rw [Infer.bind_eq]
  generalize m₀ s₀ = r at hrun hs' ⊢
  obtain ⟨e | b, s₁⟩ := r
  · exact ⟨s', run_bind_error hrun f, hs'⟩
  · rw [run_bind_ok hrun]
    exact hf b s' s₁ hs'

/-- Steps that do not depend on the bindings, and leave them as they are. -/
theorem step_follows {m : Infer β}
    (h : ∀ s store, m { s with store := store } = ((m s).1, { (m s).2 with store := store }))
    (hstore : ∀ s, (m s).2.store = s.store) : Follows (step m) m := by
  intro s s₀ hs
  refine ⟨{ (m s₀).2 with store := s.store }, ?_, rfl, ?_⟩
  · show some (m s) = _
    rw [hs.rest, h]
  · rw [hstore]
    exact hs.store

theorem known?_follows (name : Name) : Follows (step (Infer.known? name)) (Infer.known? name) :=
  step_follows (fun _ _ => rfl) fun _ => rfl

theorem freeType_follows (name : Name) :
    Follows (step (Infer.freeType name)) (Infer.freeType name) :=
  step_follows (fun _ _ => rfl) fun _ => rfl

theorem newVar_follows : Follows (step Infer.newVar) Infer.newVar :=
  step_follows (fun _ _ => rfl) fun _ => rfl

theorem instantiate_follows (t : Ty Name) :
    Follows (step (Infer.instantiate t)) (Infer.instantiate t) :=
  step_follows (fun _ _ => rfl) fun _ => rfl

theorem parse_follows (text : String) : Follows (step (Infer.parse text)) (Infer.parse text) := by
  unfold Infer.parse
  cases Ty.read text with
  | ok t => exact instantiate_follows t
  | error e => exact step_follows (fun _ _ => rfl) fun _ => rfl

theorem unify_follows (logs : Bool) (a b : Ty Nat) :
    Follows (unify logs a b) (Infer.unify a b) := by
  intro s s₀ hs
  have hfollows := CellM.unify_follows logs a b hs.solved
  unfold Infer.unify
  generalize s₀.store.unify a b = r at hfollows ⊢
  obtain ⟨store, clash?⟩ := r
  obtain ⟨s', hrun, hs'⟩ := Inference.onCells_follows hfollows hs
  refine ⟨s', ?_, hs'⟩
  rw [unify, run_bind_ok (run_lift hrun)]
  cases clash? <;> rfl

theorem Follows.under {m : CellInfer β} {m₀ : Infer β} (h : Follows m m₀) (name : Name)
    (t : Ty Nat) : Follows (under name t m) (Infer.under name t m₀) := by
  intro s s₀ hs
  obtain ⟨s', hrun, hs'⟩ :=
    h _ _ (hs.within hs.free_eq (congrArg ((name, t) :: ·) hs.scope_eq))
  refine ⟨{ s' with scope := s'.scope.tail }, ?_, ?_⟩
  · show (m.run { s with scope := (name, t) :: s.scope } >>= _) = _
    rw [hrun]
    rfl
  · exact hs'.within hs'.free_eq (congrArg List.tail hs'.scope_eq)

theorem Follows.apart {m : CellInfer β} {m₀ : Infer β} (h : Follows m m₀) :
    Follows (apart m) (Infer.apart m₀) := by
  intro s s₀ hs
  obtain ⟨s', hrun, hs'⟩ := h _ _ (hs.within (rfl : [] = []) (rfl : [] = []))
  refine ⟨{ s' with free := s.free, scope := s.scope }, ?_, ?_⟩
  · show (m.run { s with free := [], scope := [] } >>= _) = _
    rw [hrun]
    rfl
  · exact hs'.within hs.free_eq hs.scope_eq

section Terms

variable {ι : Type} (logs : Bool)

/-- **The type of a term** is the one that it has on a store, if this is so of constants. By
induction on the term. -/
theorem inferWith_follows {constant : Name → CellInfer (Ty Nat)}
    {constant₀ : Name → Infer (Ty Nat)} (h : ∀ name, Follows (constant name) (constant₀ name))
    (m : Term ι) : Follows (inferWith logs constant m) (ProofKernel.inferWith constant₀ m) := by
  induction m with
  | var a =>
    rw [inferWith, ProofKernel.inferWith]
    refine (known?_follows a.name).bind fun known => ?_
    cases known with
    | some t => exact follows_pure t
    | none =>
      rcases a.literal? with _ | ⟨_ | _⟩
      · cases a.isVariable
        · exact h a.name
        · exact freeType_follows a.name
      · exact follows_pure _
      · exact follows_throw _
  | app _ f x ihf ihx =>
    rw [inferWith, ProofKernel.inferWith]
    refine ihf.bind fun fn => ihx.bind fun arg => newVar_follows.bind fun result => ?_
    exact (unify_follows logs _ _).bind fun _ => follows_pure result
  | abs _ b body ih =>
    rw [inferWith, ProofKernel.inferWith]
    refine newVar_follows.bind fun bound => ?_
    exact (ih.under b.name bound).bind fun result => follows_pure _

/-- **The type of a constant**, by induction on the definitions. -/
theorem constantType_follows (declared? : Name → Option (Ty Name))
    (defined : List (Name × PlainTerm)) (name : Name) :
    Follows (constantType logs declared? defined name)
      (TypeEnv.constantType declared? defined name) := by
  induction defined generalizing name with
  | nil =>
    rw [constantType, TypeEnv.constantType]
    cases declared? name with
    | some t => exact instantiate_follows t
    | none => exact follows_throw _
  | cons d older ih =>
    rw [constantType, TypeEnv.constantType]
    cases declared? name with
    | some t => exact instantiate_follows t
    | none =>
      by_cases hd : d.1 = name
      · simp only [if_pos hd]
        exact (inferWith_follows logs ih d.2).apart
      · simp only [if_neg hd]
        exact ih name

/-- **Inference on cells** has the result of inference on a store, but for the bindings, which it
does not put in. -/
theorem inferOnCells_run (env : TypeEnv) (m : Term ι) {s s₀ : Inference} (hs : s.Represents s₀) :
    ∃ r s', (env.inferOnCells logs m).run s = some (r, s') ∧ s'.Represents (env.infer m s₀).2 ∧
      r.map (env.infer m s₀).2.store.expand = (env.infer m s₀).1 := by
  have hinfer : env.infer m s₀ =
    ((env.inferIn m s₀).1.map (env.inferIn m s₀).2.store.expand, (env.inferIn m s₀).2) := rfl
  have hconstant := constantType_follows logs env.declared? env.defined
  have hfollows : Follows _ (env.inferIn m) := inferWith_follows logs hconstant m
  obtain ⟨s', hrun, hs'⟩ := hfollows s s₀ hs
  rw [TypeEnv.inferOnCells, hinfer]
  generalize env.inferIn m s₀ = r at hrun hs' ⊢
  obtain ⟨e | t, s₁⟩ := r
  · exact ⟨.error e, s', run_bind_error hrun _, hs', rfl⟩
  · obtain ⟨t', s'', hrun', hs'', ht'⟩ :=
      Inference.onCells_gives (fun rank => CellM.resolve_gives t) hs'
    refine ⟨.ok t', s'', ?_, hs'', congrArg Except.ok ht'.expand_eq⟩
    rw [run_bind_ok hrun, run_lift hrun']

end Terms

end CellInfer

/-! ## Requests -/

namespace TypeReply

/-- The reply with the bindings put in. -/
def expand (σ : TypeStore Nat) : TypeReply → TypeReply
  | .resolved t => .resolved (σ.expand t)
  | .inferred r free => .inferred (r.map σ.expand) free
  | r => r

end TypeReply

namespace TypeRequest

open Inference

/-- The reply to a request in a run on a store. -/
def replyOnStore (label : Nat → String) (request : TypeRequest) (s : Inference) :
    TypeReply × Inference :=
  match request with
  | .newVar => let (r, s) := Infer.newVar.run s; (.typed r, s)
  | .parse text => let (r, s) := (Infer.parse text).run s; (.typed r, s)
  | .unify a b =>
    let (store, clash?) := s.store.unify a b
    (.unified clash?, { s with store := store })
  | .resolve t => (.resolved (s.store.expand t), s)
  | .occurs v t => (.truth (v ∈ (s.store.expand t).vars), s)
  | .equal a b => (.truth (s.store.same a b), s)
  | .display t => (.text (s.store.render label t), s)
  | .infer env free m =>
    let (r, s') := env.infer m { s with free := free, scope := [] }
    (.inferred r s'.free, { s' with free := s.free, scope := s.scope })

/-- Requests that only look at types leave the bindings as they are. -/
theorem replyOnStore_of_looks (label : Nat → String) {request : TypeRequest}
    (h : request.looks = true) (s : Inference) : (request.replyOnStore label s).2 = s := by
  cases request with
  | resolve | occurs | equal | display => rfl
  | newVar | parse | unify | infer => cases h

theorem run_map {m : StateT Inference Option β} {s s' : Inference} {b : β}
    (h : m.run s = some (b, s')) (f : β → TypeReply) :
    (do return f (← m) : StateT Inference Option TypeReply).run s = some (f b, s') := by
  show (m.run s >>= _) = _
  rw [h]
  rfl

/-- **A request is answered** as it is on a store, but for the bindings that are not put in, and
what the cells say afterwards is what the store says. -/
theorem reply_agrees (logs : Bool) (label : Nat → String) (request : TypeRequest)
    {s s₀ : Inference} (hs : s.Represents s₀) :
    ∃ answer s', (request.reply logs label).run s = some (answer, s') ∧
      s'.Represents (request.replyOnStore label s₀).2 ∧
      answer.expand (request.replyOnStore label s₀).2.store = (request.replyOnStore label s₀).1 := by
  cases request with
  | newVar =>
    obtain ⟨s', hrun, hs'⟩ := CellInfer.newVar_follows s s₀ hs
    exact ⟨_, s', run_map hrun _, hs', rfl⟩
  | parse text =>
    obtain ⟨s', hrun, hs'⟩ := CellInfer.parse_follows text s s₀ hs
    exact ⟨_, s', run_map hrun _, hs', rfl⟩
  | unify a b =>
    obtain ⟨s', hrun, hs'⟩ := onCells_follows (CellM.unify_follows logs a b hs.solved) hs
    exact ⟨_, s', run_map hrun _, hs', rfl⟩
  | resolve t =>
    obtain ⟨t', s', hrun, hs', ht'⟩ := onCells_gives (fun rank => CellM.resolve_gives t) hs
    exact ⟨_, s', run_map hrun _, hs', congrArg TypeReply.resolved ht'.expand_eq⟩
  | occurs v t =>
    obtain ⟨b, s', hrun, hs', hb⟩ := onCells_gives (fun rank => CellM.occurs_gives v t) hs
    exact ⟨_, s', run_map hrun _, hs', congrArg TypeReply.truth hb⟩
  | equal a b =>
    obtain ⟨r, s', hrun, hs', hr⟩ := onCells_gives (fun rank => CellM.equal_gives a b) hs
    exact ⟨_, s', run_map hrun _, hs', congrArg TypeReply.truth hr⟩
  | display t =>
    obtain ⟨t', s', hrun, hs', ht'⟩ := onCells_gives (fun rank => CellM.readOut_gives t) hs
    exact ⟨_, s', run_map hrun (fun t => .text (t.render label)), hs',
      congrArg (fun t : Ty Nat => TypeReply.text (t.render label)) ht'⟩
  | infer env free m =>
    obtain ⟨r, s', hrun, hs', hr⟩ :=
      CellInfer.inferOnCells_run logs env m (hs.within (rfl : free = free) (rfl : [] = []))
    refine ⟨.inferred r s'.free, { s' with free := s.free, scope := s.scope }, ?_, ?_, ?_⟩
    · show ((env.inferOnCells logs m).run { s with free := free, scope := [] } >>= _) = _
      rw [hrun]
      rfl
    · exact hs'.within hs.free_eq hs.scope_eq
    · exact congrArg₂ TypeReply.inferred hr hs'.free_eq

/-- The state after requests in a run on a store, where nothing is ever put into a binding. -/
def stateOnStore (label : Nat → String) (requests : List TypeRequest) (s : Inference) : Inference :=
  requests.foldl (fun s request => (request.replyOnStore label s).2) s

/-- **All requests are answered**, one after the other, and the cells say what the store says. -/
theorem run_represents (logs : Bool) (label : Nat → String) (requests : List TypeRequest)
    {s s₀ : Inference} (hs : s.Represents s₀) :
    ∃ answers s', (requests.mapM (reply logs label)).run s = some (answers, s') ∧
      s'.Represents (stateOnStore label requests s₀) := by
  induction requests generalizing s s₀ with
  | nil => exact ⟨[], s, rfl, hs⟩
  | cons request requests ih =>
    obtain ⟨answer, s₁, hrun, hs₁, -⟩ := reply_agrees logs label request hs
    obtain ⟨answers, s', hruns, hs'⟩ := ih hs₁
    refine ⟨answer :: answers, s', ?_, hs'⟩
    rw [List.mapM_cons, StateT.run_bind, hrun]
    show (StateT.run (requests.mapM (reply logs label)) s₁ >>= _) = _
    rw [hruns]
    rfl

/-- **Cells never become cyclic.** Whatever is asked, and whether unification and inference succeed
or fail, every request is answered, no variable leads back to itself, and the cells say of each
variable what the store says, into whose bindings nothing is ever put. Requests that only look at
types do not change what the cells say. -/
theorem replies_acyclic (logs : Bool) (label : Nat → String) (requests : List TypeRequest) :
    ∃ answers s, (requests.mapM (reply logs label)).run .start = some (answers, s) ∧
      s.store.Acyclic ∧
      (∀ ρ, s.store.Reads ρ ↔
        ρ = fun v => (stateOnStore label requests .start).store.expand (.var v)) ∧
      ∀ request : TypeRequest, ∃ answer s', (request.reply logs label).run s = some (answer, s') ∧
        s'.store.Acyclic ∧
        (request.looks = true → ∀ ρ, s'.store.Reads ρ ↔ s.store.Reads ρ) := by
  obtain ⟨answers, s, hrun, hs⟩ := run_represents logs label requests represents_start
  refine ⟨answers, s, hrun, hs.acyclic, fun ρ => hs.reads_iff, fun request => ?_⟩
  obtain ⟨answer, s', hanswer, hs', -⟩ := reply_agrees logs label request hs
  refine ⟨answer, s', hanswer, hs'.acyclic, fun hlooks ρ => ?_⟩
  rw [replyOnStore_of_looks label hlooks] at hs'
  rw [hs'.reads_iff, hs.reads_iff]

end TypeRequest

end ProofKernel
