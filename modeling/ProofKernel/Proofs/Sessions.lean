import ProofKernel.Proof.Decode
import ProofKernel.Proofs.Substitution

/-!
# Steps of a session

* `Session.Grows`: one session comes after another: nodes and ordinals are used up, never given back,
  and operators are added only;
* `Session.Advances`: computations that move a session forward so; every operation does;
* `Session.Made`: runs of a session, with the steps that follow by a rule in the order in which they
  were made;
* `Session.Made.recorded`: each of them is newer than its arguments, and than the steps before it;
* `Session.Made.tag_lt`: so of two steps the one with the smaller ordinal has the smaller nodes.
-/

namespace ProofKernel

/-! ## Nodes are used up -/

namespace Build

variable {β γ ι : Type}

/-- A computation that gives no node back. -/
def Grows (m : Build β) : Prop := ∀ nodes, nodes ≤ (m nodes).2

theorem grows_pure (b : β) : Grows (pure b) := fun _ => Nat.le_refl _

theorem Grows.bind {m : Build β} {k : β → Build γ} (hm : Grows m) (hk : ∀ b, Grows (k b)) :
    Grows (m >>= k) :=
  fun nodes => Nat.le_trans (hm nodes) (hk (m nodes).1 (m nodes).2)

theorem newTag_grows : Grows newTag := fun nodes => Nat.le_succ nodes

theorem newAtom_grows (a : Atom ι) : Grows (Node.newAtom a) := newTag_grows.bind fun _ => grows_pure _

theorem newApp_grows (f x : Node) : Grows (Node.newApp f x) := newTag_grows.bind fun _ => grows_pure _

theorem newAbs_grows (b : Atom Nat) (body : Node) : Grows (Node.newAbs b body) :=
  newTag_grows.bind fun _ => grows_pure _

theorem ofPlain_grows (m : Term ι) : Grows (Node.ofPlain m) := by
  induction m with
  | var a => exact (newAtom_grows a).bind fun _ => grows_pure _
  | app tag f x ihf ihx => exact ihf.bind fun f => ihx.bind fun x => newApp_grows f x
  | abs tag b body ih => exact (newAtom_grows b).bind fun b => ih.bind fun body => newAbs_grows b body

theorem draft_grows (d : Draft) : Grows d.build := by
  induction d with
  | keep m => exact grows_pure m
  | slot m => exact grows_pure m
  | app f x ihf ihx => exact ihf.bind fun f => ihx.bind fun x => newApp_grows f x
  | abs b d ih => exact ih.bind fun body => newAbs_grows b body

theorem buildOr_grows (m : Node) (d? : Option Draft) : Grows (Draft.buildOr m d?) := by
  cases d? with
  | none => exact grows_pure m
  | some d => exact draft_grows d

end Build

/-- A renaming that gives no node back. -/
def Rename.Grows {β : Type} (m : Rename β) : Prop := ∀ s, s.nodes ≤ (m s).2.nodes

namespace Rename

variable {β γ : Type}

theorem grows_pure (b : β) : Grows (pure b) := fun _ => Nat.le_refl _

theorem Grows.bind {m : Rename β} {k : β → Rename γ} (hm : Grows m) (hk : ∀ b, Grows (k b)) :
    Grows (m >>= k) :=
  fun s => Nat.le_trans (hm s) (hk (m s).1 (m s).2)

theorem freshAtom_grows (name : Name) : Grows (freshAtom name) := fun s => Nat.le_succ s.nodes

theorem draft?_grows (captured : List Name) (m : Node) (σ : Substitution) :
    Grows (Substitution.draft? captured m σ) := by
  induction m generalizing σ with
  | var a => exact grows_pure _
  | app tag f x ihf ihx => exact (ihf σ).bind fun f' => (ihx σ).bind fun x' => grows_pure _
  | abs tag b body ih =>
    refine (ih _).bind fun body' => ?_
    cases body' with
    | none => exact grows_pure none
    | some body' =>
      dsimp only
      split
      · exact (freshAtom_grows b.name).bind fun fresh => grows_pure _
      · exact grows_pure _

theorem decapture?_grows (captured : List Name) (m : Node) (scope : Scope (Atom Nat)) :
    Grows (Node.decapture? captured m scope) := by
  induction m generalizing scope with
  | var a => exact grows_pure _
  | app tag f x ihf ihx => exact (ihf scope).bind fun f' => (ihx scope).bind fun x' => grows_pure _
  | abs tag b body ih =>
    unfold Node.decapture?
    split
    · exact (freshAtom_grows b.name).bind fun fresh => (ih _).bind fun body' => grows_pure _
    · exact (ih scope).bind fun body' => grows_pure _

theorem Grows.build {draft : Rename (Option Draft)} (h : Grows draft) (names : NameSupply)
    (used : List Name) (m : Node) : Build.Grows (Rename.build names used m draft) :=
  fun nodes => Nat.le_trans (h ⟨used, names, nodes⟩) (Build.buildOr_grows m _ _)

end Rename

/-! ## Sessions move forward -/

/-- One session comes after another: it has used no fewer nodes and ordinals, and has all
operators. -/
structure Session.Grows (s s' : Session) : Prop where
  nodes : s.nodes ≤ s'.nodes
  ordinal : s.ordinal ≤ s'.ordinal
  table : s.table.entries <+: s'.table.entries

namespace Session

variable {β γ ε ε' : Type} {s s' s'' : Session}

theorem Grows.refl (s : Session) : s.Grows s := ⟨Nat.le_refl _, Nat.le_refl _, List.prefix_refl _⟩

theorem Grows.trans (h : s.Grows s') (h' : s'.Grows s'') : s.Grows s'' :=
  ⟨Nat.le_trans h.nodes h'.nodes, Nat.le_trans h.ordinal h'.ordinal, h.table.trans h'.table⟩

/-- A computation after which no node, ordinal or operator is given back. -/
def Advances (m : SessionM β) : Prop := ∀ s : Session, s.Grows (m s).2

theorem advances_pure (b : β) : Advances (pure b) := fun s => .refl s

theorem Advances.bind {m : SessionM β} {k : β → SessionM γ} (hm : Advances m)
    (hk : ∀ b, Advances (k b)) : Advances (m >>= k) :=
  fun s => (hm s).trans (hk (m s).1 (m s).2)

/-- The same where the first computation may fail. -/
theorem Advances.attempt {m : Attempt ε β} {k : β → Attempt ε γ} (hm : Advances m.run)
    (hk : ∀ b, Advances (k b).run) : Advances (m >>= k).run := by
  rw [ExceptT.run_bind]
  refine hm.bind fun r => ?_
  cases r with
  | error e => exact advances_pure _
  | ok b => exact hk b

theorem Advances.liftM {m : SessionM β} (h : Advances m) : Advances (liftM m : Attempt ε β).run :=
  h.bind fun _ => advances_pure _

theorem advances_get : Advances get := .refl

theorem advances_modify {f : Session → Session} (h : ∀ s : Session, s.Grows (f s)) :
    Advances (modify f) := h

theorem advances_amend {f : Session → Session} (h : ∀ s : Session, s.Grows (f s)) :
    Advances (modify f : Attempt ε PUnit).run :=
  (advances_modify h).liftM

theorem advances_lift (r : Except ε β) : Advances (lift r : Attempt ε β).run := .refl

theorem advances_record (level : LogLevel) (message : String) : Advances (record level message) :=
  advances_modify fun _ => ⟨Nat.le_refl _, Nat.le_refl _, List.prefix_refl _⟩

theorem advances_recordAll (records : List LogRecord) : Advances (recordAll records) :=
  advances_modify fun _ => ⟨Nat.le_refl _, Nat.le_refl _, List.prefix_refl _⟩

theorem advances_build {m : Build β} (h : Build.Grows m) : Advances (build m) :=
  fun s => ⟨h s.nodes, Nat.le_refl _, List.prefix_refl _⟩

theorem advances_buildNamed {m : NameSupply → Build (β × NameSupply)}
    (h : ∀ names, Build.Grows (m names)) : Advances (buildNamed m) :=
  fun s => ⟨h s.names s.nodes, Nat.le_refl _, List.prefix_refl _⟩

/-! ### Operations -/

section Bind

variable {σ : Type} {m : ExceptT ε (StateM σ) β} {k : β → ExceptT ε (StateM σ) γ} {s s' : σ}

theorem run_bind_ok {b : β} (h : m.run s = (.ok b, s')) : (m >>= k).run s = (k b).run s' := by
  show ExceptT.bindCont k (m.run s).1 (m.run s).2 = _
  rw [h]
  rfl

theorem run_bind_error {e : ε} (h : m.run s = (.error e, s')) :
    (m >>= k).run s = (.error e, s') := by
  show ExceptT.bindCont k (m.run s).1 (m.run s).2 = _
  rw [h]
  rfl

end Bind

theorem run_mapError {m : Attempt ε β} {r : Except ε β} (h : m.run s = (r, s')) (f : ε → ε') :
    (Attempt.mapError f m).run s = (r.mapError f, s') := by
  show ((m.run s).1.mapError f, (m.run s).2) = _
  rw [h]

theorem run_lift {r : Except ε β} {b : Except ε β} (h : r = b) (s : Session) :
    (lift r : Attempt ε β).run s = (b, s) := congrArg (·, s) h

/-- A text that the session does not remember is read, and remembered with its new node. -/
theorem parse_unknown {text : String} {m : PlainTerm} (hcache : s.cache.get? text = none)
    (h : Term.parse s.table s.maxDepth text = .ok m) :
    ∃ log, (parse text).run s = (.ok (Node.ofPlain m s.nodes).1,
      { s with
        nodes := (Node.ofPlain m s.nodes).2
        cache := (s.cache.insert text (Node.ofPlain m s.nodes).1).1
        log := log }) := by
  have hget : (get : Attempt ParseError Session).run s = (.ok s, s) := rfl
  rw [parse, run_bind_ok hget, hcache]
  dsimp only
  rw [run_bind_ok (run_lift h s)]
  exact ⟨_, rfl⟩

/-- A text that the session does not remember is read with its operators, and its nodes are new. -/
theorem parse_of_ok {text : String} {m : PlainTerm} (hcache : s.cache.get? text = none)
    (h : Term.parse s.table s.maxDepth text = .ok m) :
    ((parse text).run s).1 = .ok (Node.ofPlain m s.nodes).1 := by
  obtain ⟨log, hrun⟩ := parse_unknown hcache h
  rw [hrun]

theorem parse_of_error {text : String} {e : ParseError} (hcache : s.cache.get? text = none)
    (h : Term.parse s.table s.maxDepth text = .error e) : (parse text).run s = (.error e, s) := by
  have hget : (get : Attempt ParseError Session).run s = (.ok s, s) := rfl
  rw [parse, run_bind_ok hget, hcache]
  dsimp only
  rw [run_bind_error (run_lift h s)]

theorem advances_parse (text : String) : Advances (parse text).run := by
  refine advances_get.liftM.attempt fun s => ?_
  cases s.cache.get? text with
  | some m => exact (advances_record _ _).liftM.attempt fun _ => advances_pure _
  | none =>
    refine (advances_lift _).attempt fun term => ?_
    refine (advances_build (Build.ofPlain_grows term)).liftM.attempt fun m => ?_
    refine (advances_recordAll _).liftM.attempt fun _ => ?_
    refine Advances.attempt ?_ fun _ => advances_pure _
    exact advances_amend fun _ => ⟨Nat.le_refl _, Nat.le_refl _, List.prefix_refl _⟩

theorem entries_add {t t' : OperatorTable} {op : Operator} (h : t.add op = .ok t') :
    t.entries <+: t'.entries := by
  unfold OperatorTable.add at h
  split at h
  · cases h
  · split at h
    · cases h
    · cases h
      exact List.prefix_append _ _

theorem advances_addOperator (op : Operator) : Advances (addOperator op).run := by
  intro s
  show s.Grows (((lift (s.table.add op) : Attempt OperatorError OperatorTable) >>= fun table =>
    (set { s with table := table, cache := s.cache.clear } : Attempt OperatorError Unit)).run s).2
  cases h : s.table.add op with
  | error e => exact .refl s
  | ok table => exact ⟨Nat.le_refl _, Nat.le_refl _, entries_add h⟩

theorem advances_declare (name : Name) (type : String) : Advances (declare name type).run := by
  intro s
  show s.Grows (((lift (s.types.declare name type) : Attempt TypeError TypeEnv) >>= fun types =>
    (set { s with types := types } : Attempt TypeError Unit)).run s).2
  cases s.types.declare name type <;> exact ⟨Nat.le_refl _, Nat.le_refl _, List.prefix_refl _⟩

theorem advances_substitute (σ : Substitution) (target : Node) : Advances (substitute σ target) := by
  refine (advances_buildNamed fun names => (Rename.draft?_grows _ _ _).build _ _ _).bind fun m => ?_
  split
  · exact (advances_record _ _).bind fun _ => advances_pure _
  · exact advances_pure _

theorem advances_decapture (replacement target : Node) : Advances (decapture replacement target) :=
  advances_buildNamed fun _ => (Rename.decapture?_grows _ _ _).build _ _ _

theorem advances_instantiate (a : Assignment) (schema : Node) : Advances (instantiate a schema) :=
  advances_buildNamed fun _ => (Rename.draft?_grows _ _ _).build _ _ _

theorem advances_fresh (name : Name) (existing : List Name) : Advances (fresh name existing) :=
  fun _ => ⟨Nat.le_refl _, Nat.le_refl _, List.prefix_refl _⟩

theorem advances_inferType (m : Node) : Advances (inferType m).run :=
  advances_get.liftM.attempt fun _ => (advances_recordAll _).liftM.attempt fun _ => advances_lift _

theorem advances_define (name : Name) (definition : Node) :
    Advances (define name definition).run := by
  refine advances_get.liftM.attempt fun s => (advances_recordAll _).liftM.attempt fun _ => ?_
  refine (advances_lift _).attempt fun types => ?_
  exact advances_amend fun _ => ⟨Nat.le_refl _, Nat.le_refl _, List.prefix_refl _⟩

theorem advances_bareStep (m : Node) (hasHyps : Bool) : Advances (bareStep m hasHyps) :=
  advances_build (Build.newTag_grows.bind fun _ => Build.grows_pure _)

theorem advances_fail (text : String) (ordinal? : Option Nat) :
    Advances (fail text ordinal? : Attempt AssertionFailure β).run := by
  refine (advances_record _ _).liftM.attempt fun _ => Advances.attempt ?_ fun _ => advances_pure _
  exact advances_amend fun _ => ⟨Nat.le_refl _, Nat.le_refl _, List.prefix_refl _⟩

theorem advances_assert (condition : Bool) (text : String) (ordinal? : Option Nat) :
    Advances (assert condition text ordinal?).run := by
  unfold assert
  split
  · exact advances_pure _
  · exact advances_fail text ordinal?

theorem advances_takeDiagnostics : Advances takeDiagnostics :=
  fun _ => ⟨Nat.le_refl _, Nat.le_refl _, List.prefix_refl _⟩

/-! ### Justifying -/

section Justify

variable {target : Step} {rule : Name} {args : List RuleArgument} {deps : List Step} {hasHyps : Bool}

/-- A dependency with the term of the target is the result, and nothing changes. -/
theorem justifyWith_known {dep : Step} (h : deps.find? (fun dep => dep.term = target.term) = some dep)
    (s : Session) : justifyWith target rule args deps hasHyps s = (dep, s) := by
  rw [justifyWith, h]
  rfl

/-- Otherwise the result is a new step over a new node. -/
theorem justifyWith_new (h : ∀ dep ∈ deps, dep.term ≠ target.term) (s : Session) :
    ∃ log, justifyWith target rule args deps hasHyps s =
      (.proved (s.nodes + 1) (target.term.dup s.nodes).1 hasHyps rule args deps s.ordinal
          (if target.isProved then some target else none),
        { s with ordinal := s.ordinal + 1, nodes := s.nodes + 2, log := log }) := by
  have hnone : deps.find? (fun dep => dep.term = target.term) = none :=
    List.find?_eq_none.2 fun dep hdep => by simpa using h dep hdep
  rw [justifyWith, hnone]
  cases target.term <;> exact ⟨_, rfl⟩

theorem advances_justifyWith : Advances (justifyWith target rule args deps hasHyps) := by
  intro s
  cases hfind : deps.find? (fun dep => dep.term = target.term) with
  | some dep =>
    rw [justifyWith_known hfind]
    exact .refl s
  | none =>
    have hnew : ∀ dep ∈ deps, dep.term ≠ target.term := by simpa using hfind
    obtain ⟨log, heq⟩ := @justifyWith_new _ rule args _ hasHyps hnew s
    rw [heq]
    exact ⟨Nat.le_add_right _ 2, Nat.le_succ _, List.prefix_refl _⟩

end Justify

end Session

/-! ## The order of steps -/

/-- An argument that exists before the node with the given number is made. -/
def RuleArgument.Before (nodes : Nat) : RuleArgument → Prop
  | .term m => m.root < nodes
  | .step s => s.tag < nodes
  | _ => True

/-- Two steps that follow by a rule, the first one with the smaller ordinal. -/
def Step.IsOlder (a b : Step) : Prop :=
  ∃ i j, a.ordinal? = some i ∧ b.ordinal? = some j ∧ i < j

theorem Step.not_isOlder_self (a : Step) : ¬ a.IsOlder a := by
  rintro ⟨i, j, hi, hj, hij⟩
  rw [hi] at hj
  cases hj
  exact absurd hij (Nat.lt_irrefl i)

theorem Step.IsOlder.asymm {a b : Step} (h : a.IsOlder b) : ¬ b.IsOlder a := by
  obtain ⟨i, j, hi, hj, hij⟩ := h
  rintro ⟨j', i', hj', hi', hji⟩
  rw [hi] at hi'
  rw [hj] at hj'
  cases hi'
  cases hj'
  omega

namespace Session

/-- Runs of a session up to a state, with the steps that were justified as new ones. Arguments exist
before the step that uses them. -/
inductive Made : Session → List Step → Prop
  | start (config : SessionConfig) : Made (.start config) []
  | advance {s s' : Session} {made : List Step} (h : Made s made) (hs : s.Grows s') : Made s' made
  | justify {s : Session} {made : List Step} {target : Step} {rule : Name} {args : List RuleArgument}
      {deps : List Step} {hasHyps : Bool} (h : Made s made) (hargs : ∀ arg ∈ args, arg.Before s.nodes)
      (hdeps : ∀ dep ∈ deps, dep.term ≠ target.term) :
      Made (justifyWith target rule args deps hasHyps s).2
        (made ++ [(justifyWith target rule args deps hasHyps s).1])

/-- What a session knows of a step that follows by a rule: its ordinal was given, its nodes were
made, the top node first, and the arguments existed before. -/
structure Records (s : Session) (st : Step) : Prop where
  ordinal : ∃ i, st.ordinal? = some i ∧ i < s.ordinal
  root : st.term.root < st.tag
  tag : st.tag < s.nodes
  args : ∀ arg ∈ st.args, arg.Before st.term.root

theorem Records.mono {s s' : Session} {st : Step} (h : s.Records st) (hs : s.Grows s') :
    s'.Records st := by
  obtain ⟨i, hi, hlt⟩ := h.ordinal
  exact ⟨⟨i, hi, Nat.lt_of_lt_of_le hlt hs.ordinal⟩, h.root, Nat.lt_of_lt_of_le h.tag hs.nodes,
    h.args⟩

/-- **Every step of a run is recorded, and the steps made later are newer**, by induction on the
run. -/
theorem Made.recorded {s : Session} {made : List Step} (h : Made s made) :
    (∀ st ∈ made, s.Records st) ∧
      made.Pairwise fun a b => a.IsOlder b ∧ a.tag < b.term.root := by
  induction h with
  | start config => exact ⟨nofun, .nil⟩
  | advance h hs ih => exact ⟨fun st hst => (ih.1 st hst).mono hs, ih.2⟩
  | @justify s made target rule args deps hasHyps h hargs hdeps ih =>
    obtain ⟨log, heq⟩ := @justifyWith_new _ rule args _ hasHyps hdeps s
    have hgrows : s.Grows (justifyWith target rule args deps hasHyps s).2 := advances_justifyWith s
    rw [heq] at hgrows ⊢
    have hroot := Term.root_dup target.term s.nodes
    constructor
    · intro st hst
      rw [List.mem_append, List.mem_singleton] at hst
      rcases hst with hst | rfl
      · exact (ih.1 st hst).mono hgrows
      · refine ⟨⟨s.ordinal, rfl, Nat.lt_succ_self _⟩, ?_, Nat.lt_succ_self _, ?_⟩
        · show (target.term.dup s.nodes).1.root < s.nodes + 1
          omega
        · show ∀ arg ∈ args, arg.Before (target.term.dup s.nodes).1.root
          rw [hroot]
          exact hargs
    · refine List.pairwise_append.2 ⟨ih.2, List.pairwise_singleton _ _, ?_⟩
      intro st hst new hnew
      rw [List.mem_singleton] at hnew
      subst hnew
      obtain ⟨i, hi, hlt⟩ := (ih.1 st hst).ordinal
      refine ⟨⟨i, s.ordinal, hi, rfl, hlt⟩, ?_⟩
      show st.tag < (target.term.dup s.nodes).1.root
      rw [hroot]
      exact (ih.1 st hst).tag

/-- **Of two steps of a run the one with the smaller ordinal has the smaller nodes.** -/
theorem Made.tag_lt {s : Session} {made : List Step} (h : Made s made) {a b : Step} (ha : a ∈ made)
    (hb : b ∈ made) (hab : a.IsOlder b) : a.tag < b.term.root := by
  obtain ⟨i, hi, rfl⟩ := List.getElem_of_mem ha
  obtain ⟨j, hj, rfl⟩ := List.getElem_of_mem hb
  have hpair := List.pairwise_iff_getElem.1 h.recorded.2
  rcases Nat.lt_trichotomy i j with hij | rfl | hji
  · exact (hpair i j hi hj hij).2
  · exact absurd hab (Step.not_isOlder_self _)
  · exact absurd hab (hpair j i hj hi hji).1.asymm

/-- The operators of the start are there in every state of a run. -/
theorem Made.table {s : Session} {made : List Step} (h : Made s made) :
    OperatorTable.standard.entries <+: s.table.entries := by
  induction h with
  | start config => exact List.prefix_refl _
  | advance h hs ih => exact ih.trans hs.table
  | justify h hargs hdeps ih => exact ih.trans (advances_justifyWith _).table

end Session

end ProofKernel
