import ProofKernel.Proofs.Replay

/-!
# Saved proofs come back

* `Rule.Justifies`: rules that justify a new term from exactly the arguments that they are given;
* `Step.Restored`: how a row of steps comes back;
* `Session.decodeSteps_encodeAll`: a saved proof comes back step by step;
* `Session.decodeSteps_standard`: in a session that asks for nothing, exactly the rows come back whose
  texts take no more than 512 levels.
-/

namespace ProofKernel

open ProofKernel.Parser

/-! ## Rules and their steps -/

/-- A rule that justifies, under a name, a new term from exactly the arguments that it is given. What
else it does leaves the session in order. -/
def Rule.Justifies (rule : Rule) (name : Name) : Prop :=
  ∀ args (s : Session), ∃ target deps hasHyps before last, s.Grows before ∧
    (∀ dep ∈ deps, dep.term ≠ target.term) ∧
    (rule args).run s =
      (.ok (Session.justifyWith target name args deps hasHyps before).1, last) ∧
    (Session.justifyWith target name args deps hasHyps before).2.Grows last

theorem Rule.Justifies.accepts {rule : Rule} {name : Name} (h : rule.Justifies name) :
    rule.Accepts := by
  intro args s
  obtain ⟨target, deps, hasHyps, before, last, -, -, hrun, -⟩ := h args s
  exact ⟨_, last, hrun⟩

/-- Steps that come back as others: one for each, by the same rules from the arguments that come back,
in the order of their ordinals. -/
structure Step.Restored (steps steps' : List Step) : Prop where
  steps : List.Forall₂ (fun st st' => st'.rule? = st.rule? ∧
    List.Forall₂ (RuleArgument.Restores steps steps') st.args st'.args) steps steps'
  ordinals : steps'.Pairwise Step.IsOlder

namespace Session

/-- **Rules that justify what they are given restore the steps replayed so far**, by induction on the
run. Each new step takes the next ordinal. -/
theorem Replays.restored {rules : RuleCatalogue} {steps done : List Step} {s s₁ : Session}
    (hjustifies : ∀ st ∈ steps, ∀ name rule, st.rule? = some name → rules name = some rule →
      rule.Justifies name) (h : Replays rules steps s done s₁) :
    (∀ st ∈ done, ∃ i, st.ordinal? = some i ∧ i < s₁.ordinal) ∧ done.Pairwise Step.IsOlder ∧
      List.Forall₂ (fun st st' => st'.rule? = st.rule? ∧
        List.Forall₂ (RuleArgument.Restores steps done) st.args st'.args)
        (steps.take done.length) done := by
  induction h with
  | start h => exact ⟨nofun, .nil, .nil⟩
  | @step done s₁ s₂ s₃ st new name rule args h hst hname hrule hargs hgrows hnew ih =>
    obtain ⟨hordinals, hsorted, hrestored⟩ := ih
    obtain ⟨target, deps, hasHyps, before, last, hbefore, hdeps, hrun, hlast⟩ :=
      hjustifies st (List.mem_of_getElem? hst) name rule hname hrule args s₂
    obtain ⟨log, heq⟩ := @justifyWith_new _ name args _ hasHyps hdeps before
    rw [heq] at hrun hlast
    rw [hnew] at hrun
    cases hrun
    have hle := Nat.le_trans hgrows.ordinal hbefore.ordinal
    have hlt := hlast.ordinal
    dsimp only at hlt
    refine ⟨?_, ?_, ?_⟩
    · intro st hst
      rw [List.mem_append, List.mem_singleton] at hst
      rcases hst with hst | rfl
      · obtain ⟨i, hi, hi'⟩ := hordinals st hst
        exact ⟨i, hi, by omega⟩
      · exact ⟨_, rfl, by omega⟩
    · refine List.pairwise_append.2 ⟨hsorted, List.pairwise_singleton _ _, ?_⟩
      intro st hst new hnew
      rw [List.mem_singleton] at hnew
      subst hnew
      obtain ⟨i, hi, hi'⟩ := hordinals st hst
      exact ⟨i, before.ordinal, hi, rfl, by omega⟩
    · rw [List.length_append, List.length_singleton, List.take_add_one, hst]
      refine List.rel_append ?_ (.cons ⟨hname.symm, ?_⟩ .nil)
      · exact hrestored.imp fun old old' hold => ⟨hold.1, hold.2.imp fun _ _ harg => harg.mono _⟩
      · exact hargs.imp fun _ _ harg => harg.mono _

/-! ### A rule that keeps its arguments -/

/-- A rule that follows from anything and keeps its arguments. -/
def keepRule : Rule := fun args => do
  let m ← (build (Node.ofPlain (.named "T")) : SessionM Node)
  let target ← (bareStep m false : SessionM Step)
  justify target "keep" args []

theorem keepRule_justifies : keepRule.Justifies "keep" := by
  intro args s
  refine ⟨.bare (s.nodes + 1) (.var ⟨s.nodes, "T", none⟩) false, [], false,
    { s with nodes := s.nodes + 2 }, _, ⟨Nat.le_add_right _ 2, Nat.le_refl _, List.prefix_refl _⟩,
    nofun, rfl, .refl _⟩

/-- A run of a new session in which a leaf, which is no step yet, follows by a rule. -/
theorem Made.keep {s : Session} {made : List Step} (h : Made s made) (leaf : Atom Nat)
    {args : List RuleArgument} (hargs : ∀ arg ∈ args, arg.Before s.nodes) :
    ∃ s', Made s' (made ++ [.proved (s.nodes + 1) (.var ⟨s.nodes, leaf.name, leaf.shown?⟩) false
      "keep" args [] s.ordinal none]) ∧
      s'.nodes = s.nodes + 2 ∧ s'.ordinal = s.ordinal + 1 ∧ s'.table = s.table := by
  have hmade := @Made.justify s made (.bare leaf.tag (.var leaf) false) "keep" args [] false h hargs
    (List.forall_mem_nil _)
  exact ⟨_, hmade, rfl, rfl, rfl⟩

/-- The first step of a session, from given arguments. -/
def firstKept (args : List RuleArgument) : Step :=
  .proved 11 (.var ⟨10, "T", none⟩) false "keep" args [] 1 none

theorem keptRule_ok {args : List RuleArgument} {name : Name}
    (h : (firstKept args).rule? = some name) :
    name.isIdentifier = true ∧ OperatorTable.standard.get? name = none := by
  cases h
  decide

theorem made_firstKept {args : List RuleArgument} (hargs : ∀ arg ∈ args, arg.Before 10) :
    ∃ s, Made s [firstKept args] ∧ s.nodes = 12 ∧ s.ordinal = 2 ∧ s.table = .standard := by
  have hbegin : Made { start .standard with nodes := 10 } [] :=
    .advance (.start .standard) ⟨by decide, Nat.le_refl _, List.prefix_refl _⟩
  exact hbegin.keep ⟨0, "T", none⟩ hargs

/-- A number, a string, a name and a path. -/
def plainArgs : List RuleArgument := [.int (-5), .str "a b", .name "foo", .path [.fn, .arg]]

theorem before_plainArgs : ∀ arg ∈ plainArgs, arg.Before 10 := by
  simp [plainArgs, RuleArgument.Before]

/-- Two steps: from plain arguments, then from the first step, its term and another term. -/
def keptSteps : List Step :=
  [firstKept plainArgs, .proved 13 (.var ⟨12, "T", none⟩) false "keep"
    [.step (firstKept plainArgs), .term (.var ⟨10, "T", none⟩),
      .term (.app 4 (.var ⟨2, "f", none⟩) (.var ⟨3, "x", none⟩))] [] 2 none]

theorem made_keptSteps : ∃ s, Made s keptSteps ∧ s.table = .standard := by
  obtain ⟨s₁, hfirst, hnodes, hordinal, htable⟩ := made_firstKept before_plainArgs
  have hbefore : ∀ arg ∈ keptSteps[1].args, arg.Before s₁.nodes := by
    rw [hnodes]
    refine List.forall_mem_cons.2 ⟨?_, List.forall_mem_cons.2 ⟨?_, List.forall_mem_singleton.2 ?_⟩⟩
    · show 11 < 12
      decide
    · show 10 < 12
      decide
    · show 4 < 12
      decide
  obtain ⟨s₂, hsecond, -, -, htable'⟩ := hfirst.keep ⟨0, "T", none⟩ hbefore
  rw [hnodes, hordinal] at hsecond
  exact ⟨s₂, hsecond, htable'.trans htable⟩

/-! ### Sessions with the same operators -/

/-- A new session with the operators of a table. -/
def startWith (config : SessionConfig) (table : OperatorTable) : Session :=
  { start config with table := table }

/-- **A saved proof comes back step by step.** The steps of a run of a session, in the order of their
ordinals, are written as a text if the names of their rules are no operators and their arguments can
be saved. References in it point backwards. A new session with the same operators replays the text
with rules that justify what they are given, and gets a step for each step, if the text takes no more
levels than the session reads; otherwise it is nested too deeply. The numbers of the entries fit 64
bits, as the length of every list in memory does. -/
theorem decodeSteps_encodeAll {s : Session} {made steps : List Step} (hmade : Made s made)
    (hwords : ∀ word ∈ formatWords, s.table.get? word = none)
    (hsteps : ∀ st ∈ steps, st ∈ made) (hsorted : steps.Pairwise Step.IsOlder)
    (hrules : ∀ st ∈ steps, ∀ name, st.rule? = some name →
      name.isIdentifier = true ∧ s.table.get? name = none)
    (hargs : ∀ st ∈ steps, ∀ arg ∈ st.args, arg.Storable s.table steps)
    (hsize : steps.length < wordSize / 2) :
    ∃ text, Step.encodeAll s.table steps = .ok text ∧
      (∀ place (st : Step), steps[place]? = some st → ∀ arg ∈ st.args, ∀ k,
        arg.encode s.table steps = .ok (stepReference k) → k < place) ∧
      ∀ (config : SessionConfig) (rules : RuleCatalogue),
        (∀ st ∈ steps, ∀ name, st.rule? = some name →
          ∃ rule, rules name = some rule ∧ rule.Justifies name) →
        ((Step.nestAll steps).levels ≤ config.maxDepth →
          ∃ steps' s', (decodeSteps rules text).run (startWith config s.table) =
            (.ok steps', s') ∧ Step.Restored steps steps') ∧
        (config.maxDepth < (Step.nestAll steps).levels →
          ∃ place, (decodeSteps rules text).run (startWith config s.table) =
            (.error (.parse (.refused .tooDeep place)), startWith config s.table)) := by
  have hstorable : ∀ place (st : Step), steps[place]? = some st → st.Storable s.table steps place :=
    fun place st hst => hmade.storable hsteps hsorted hrules hargs hst
  obtain ⟨text, htext, hspells⟩ :=
    Step.encodeAll_spells (hmade.readsFormat hwords) hstorable
  refine ⟨text, htext, ?_, ?_⟩
  · intro place st hst arg harg k hk
    exact hmade.place_lt hsteps hsorted hst harg (RuleArgument.place?_of_encode hk)
  · intro config rules hjustifies
    refine ⟨fun hlevels => ?_, fun hlevels => decodeSteps_tooDeep hspells rfl hlevels⟩
    have haccepts : ∀ st ∈ steps, ∀ name, st.rule? = some name →
        ∃ rule, rules name = some rule ∧ rule.Accepts := by
      intro st hst name hname
      obtain ⟨rule, hrule, hjustify⟩ := hjustifies st hst name hname
      exact ⟨rule, hrule, hjustify.accepts⟩
    obtain ⟨steps', s', hrun, hreplays, hlength⟩ :=
      decodeSteps_replays (s := startWith config s.table) (hmade.savable hsteps hsize hstorable)
        haccepts hspells rfl rfl hlevels
    obtain ⟨-, hsorted', hrestored⟩ := hreplays.restored fun st hst name rule hname hrule => by
      obtain ⟨rule', hrule', hjustify⟩ := hjustifies st hst name hname
      rw [hrule] at hrule'
      cases hrule'
      exact hjustify
    rw [hlength, List.take_length] at hrestored
    exact ⟨steps', s', hrun, hrestored, hsorted'⟩

theorem decodeSteps_encodeAll_keptSteps :
    ∃ text, Step.encodeAll .standard keptSteps = .ok text ∧
      ∃ steps' s', (decodeSteps (fun _ => some keepRule) text).run (start .standard) =
        (.ok steps', s') ∧ Step.Restored keptSteps steps' := by
  obtain ⟨s, hmade, htable⟩ := made_keptSteps
  have hsorted : keptSteps.Pairwise Step.IsOlder :=
    .cons (List.forall_mem_singleton.2 ⟨1, 2, rfl, rfl, by decide⟩) (List.pairwise_singleton _ _)
  have hrules : ∀ st ∈ keptSteps, ∀ name, st.rule? = some name →
      name.isIdentifier = true ∧ s.table.get? name = none := by
    rw [htable]
    refine List.forall_mem_cons.2 ⟨?_, List.forall_mem_singleton.2 ?_⟩ <;>
      (rintro _ ⟨⟩; decide)
  have hargs : ∀ st ∈ keptSteps, ∀ arg ∈ st.args, arg.Storable s.table keptSteps := by
    have hfirst : firstKept plainArgs ∈ keptSteps := List.mem_cons_self
    have hterm : (Term.app 4 (.var ⟨2, "f", none⟩) (.var ⟨3, "x", none⟩)).Simple s.table := by
      rw [htable]
      exact ⟨⟨rfl, by decide, by decide⟩, ⟨rfl, by decide, by decide⟩⟩
    have hget : s.table.get? "foo" = none := by
      rw [htable]
      decide
    refine List.forall_mem_cons.2 ⟨?_, List.forall_mem_singleton.2 ?_⟩
    · exact List.forall_mem_cons.2 ⟨.int (by decide), List.forall_mem_cons.2 ⟨.str _,
        List.forall_mem_cons.2 ⟨.name (by decide) hget, List.forall_mem_singleton.2 (.path _)⟩⟩⟩
    · exact List.forall_mem_cons.2 ⟨.step hfirst, List.forall_mem_cons.2 ⟨.node hfirst,
        List.forall_mem_singleton.2 (.term hterm)⟩⟩
  have hwords : ∀ word ∈ formatWords, s.table.get? word = none := by
    rw [htable]
    decide
  obtain ⟨text, htext, -, hdecode⟩ := decodeSteps_encodeAll hmade hwords (fun _ => id) hsorted hrules
    hargs (by decide)
  have hrestore := hdecode .standard (fun _ => some keepRule) ?_
  · rw [htable] at htext hrestore
    exact ⟨text, htext, hrestore.1 (by decide)⟩
  · refine List.forall_mem_cons.2 ⟨?_, List.forall_mem_singleton.2 ?_⟩ <;>
      (rintro _ ⟨⟩; exact ⟨keepRule, rfl, keepRule_justifies⟩)

end Session

/-! ## Sessions that ask for nothing -/

namespace RuleArgument

/-- Arguments without terms: numbers of 64 bits, names, strings, paths and steps of the row. -/
inductive Flat (steps : List Step) : RuleArgument → Prop
  | int {n : Int} (h : fitsWord n = true) : Flat steps (.int n)
  | name {n : Name} (h : n.isIdentifier = true) : Flat steps (.name n)
  | str (text : String) : Flat steps (.str text)
  | path (p : Path) : Flat steps (.path p)
  | step {st : Step} (h : st ∈ steps) : Flat steps (.step st)

theorem Flat.storable {T : OperatorTable} {steps : List Step} {arg : RuleArgument}
    (h : arg.Flat steps) (hname : ∀ n, arg = .name n → T.get? n = none) : arg.Storable T steps := by
  cases h with
  | int h => exact .int h
  | name h => exact .name h (hname _ rfl)
  | str text => exact .str text
  | path p => exact .path p
  | step h => exact .step h

end RuleArgument

namespace Session

/-- **In a new session exactly the rows come back whose texts take no more than 512 levels.** The
steps of a run without operators of its own, in the order of their ordinals, are written with names
that are no operators and with arguments other than terms. Another such session replays the text with
rules that accept any arguments, if each bracket and each link of a row of arguments finds its level;
otherwise the text is nested too deeply. -/
theorem decodeSteps_standard {s : Session} {made steps : List Step} (hmade : Made s made)
    (hsteps : ∀ st ∈ steps, st ∈ made) (hsorted : steps.Pairwise Step.IsOlder)
    (hrules : ∀ st ∈ steps, ∀ name, st.rule? = some name →
      name.isIdentifier = true ∧ OperatorTable.standard.get? name = none)
    (hargs : ∀ st ∈ steps, ∀ arg ∈ st.args, arg.Flat steps)
    (hnames : ∀ st ∈ steps, ∀ n, .name n ∈ st.args → OperatorTable.standard.get? n = none)
    {text : String} (htext : Step.encodeAll .standard steps = .ok text) (rules : RuleCatalogue)
    (haccepts : ∀ st ∈ steps, ∀ name, st.rule? = some name →
      ∃ rule, rules name = some rule ∧ rule.Accepts) :
    ((Step.nestAll steps).levels ≤ SessionConfig.standard.maxDepth →
      ∃ steps' s', (decodeSteps rules text).run (start .standard) = (.ok steps', s') ∧
        steps'.length = steps.length) ∧
    (SessionConfig.standard.maxDepth < (Step.nestAll steps).levels →
      ∃ place, (decodeSteps rules text).run (start .standard) =
        (.error (.parse (.refused .tooDeep place)), start .standard)) := by
  have hstorable : ∀ place (st : Step), steps[place]? = some st →
      st.Storable .standard steps place := fun place st hst =>
    hmade.storable hsteps hsorted hrules (fun st hst arg harg =>
      (hargs st hst arg harg).storable fun n hn => hnames st hst n (hn ▸ harg)) hst
  obtain ⟨text', htext', hspells⟩ := Step.encodeAll_spells readsFormat_standard hstorable
  obtain rfl : text' = text := Except.ok.inj (htext'.symm.trans htext)
  refine ⟨fun hlevels => ?_, fun hlevels => ?_⟩
  · have hsize : steps.length < wordSize / 2 :=
      Nat.lt_of_lt_of_le (Step.length_lt_levels steps) (Nat.le_trans hlevels (by decide))
    obtain ⟨steps', s', hrun, -, hlength⟩ := decodeSteps_replays (s := start .standard)
      (hmade.savable hsteps hsize hstorable) haccepts hspells rfl rfl hlevels
    exact ⟨steps', s', hrun, hlength⟩
  · exact decodeSteps_tooDeep (s := start .standard) hspells rfl hlevels

theorem decodeSteps_standard_plainArgs :
    ∃ text, Step.encodeAll .standard [firstKept plainArgs] = .ok text ∧
      ∃ steps' s', (decodeSteps (fun _ => some keepRule) text).run (start .standard) =
        (.ok steps', s') ∧ steps'.length = 1 := by
  obtain ⟨s, hmade, -⟩ := made_firstKept before_plainArgs
  have hflat : ∀ arg ∈ plainArgs, arg.Flat [firstKept plainArgs] :=
    List.forall_mem_cons.2 ⟨.int (by decide), List.forall_mem_cons.2 ⟨.str _,
      List.forall_mem_cons.2 ⟨.name (by decide), List.forall_mem_singleton.2 (.path _)⟩⟩⟩
  have hnames : ∀ n, .name n ∈ plainArgs → OperatorTable.standard.get? n = none := by
    intro n hn
    have hfoo : n = "foo" := by simpa [plainArgs] using hn
    rw [hfoo]
    decide
  obtain ⟨text, htext⟩ : ∃ text, Step.encodeAll .standard [firstKept plainArgs] = .ok text :=
    ⟨_, rfl⟩
  have hrestore := decodeSteps_standard hmade (fun _ => id) (List.pairwise_singleton _ _)
    (List.forall_mem_singleton.2 fun name => keptRule_ok) (List.forall_mem_singleton.2 hflat)
    (List.forall_mem_singleton.2 hnames) htext (fun _ => some keepRule)
    (List.forall_mem_singleton.2 fun name _ => ⟨keepRule, rfl, keepRule_justifies.accepts⟩)
  exact ⟨text, htext, hrestore.1 (by decide)⟩

/-- A step from more arguments than there are levels. -/
def wideStep : Step := firstKept (List.replicate 512 (.int 0))

theorem wideStep_args : ∀ arg ∈ wideStep.args, arg = .int 0 :=
  fun _ harg => List.eq_of_mem_replicate harg

theorem wideStep_flat : ∀ arg ∈ wideStep.args, arg.Flat [wideStep] := by
  intro arg harg
  rw [wideStep_args arg harg]
  exact .int (by decide)

theorem before_wideStep : ∀ arg ∈ wideStep.args, arg.Before 10 := by
  intro arg harg
  rw [wideStep_args arg harg]
  trivial

/-- Its text is nested too deeply. -/
theorem decodeSteps_wideStep (rules : RuleCatalogue) :
    ∃ text, Step.encodeAll .standard [wideStep] = .ok text ∧
      ∃ place, (decodeSteps rules text).run (start .standard) =
        (.error (.parse (.refused .tooDeep place)), start .standard) := by
  obtain ⟨s, hmade, -⟩ := made_firstKept before_wideStep
  have hstorable : ∀ place (st : Step), [wideStep][place]? = some st →
      st.Storable .standard [wideStep] place := fun place st hst =>
    hmade.storable (fun _ => id) (List.pairwise_singleton _ _)
      (List.forall_mem_singleton.2 fun name => keptRule_ok)
      (List.forall_mem_singleton.2 fun arg harg => (wideStep_flat arg harg).storable fun n hn => by
        rw [wideStep_args arg harg] at hn
        cases hn) hst
  obtain ⟨text, htext, hspells⟩ := Step.encodeAll_spells readsFormat_standard hstorable
  have hlevels : SessionConfig.standard.maxDepth < (Step.nestAll [wideStep]).levels := by
    have hargs : wideStep.args.length = SessionConfig.standard.maxDepth := List.length_replicate
    have hplace : [wideStep][0]? = some wideStep := rfl
    rw [← hargs]
    exact Step.args_lt_levels hplace
  exact ⟨text, htext, decodeSteps_tooDeep hspells rfl hlevels⟩

/-- The name of an operator is written as it is, and then lacks its operand. -/
theorem decodeSteps_operatorName (rules : RuleCatalogue) :
    ∃ text, Step.encodeAll .standard [firstKept [.name "not"]] = .ok text ∧
      ∃ e, (decodeSteps rules text).run (start .standard) = (.error e, start .standard) := by
  refine ⟨"(steps (1 keep not))", by decide +kernel, ?_⟩
  obtain ⟨e, hparse⟩ : ∃ e, Term.parse .standard 512 "(steps (1 keep not))" = .error e := by
    have hnone : (Term.parse .standard 512 "(steps (1 keep not))").toOption = none := by
      decide +kernel
    cases hparse : Term.parse .standard 512 "(steps (1 keep not))" with
    | error e => exact ⟨e, rfl⟩
    | ok m =>
      rw [hparse] at hnone
      cases hnone
  have hread : (parse "(steps (1 keep not))").run (start .standard) = (.error e, start .standard) :=
    parse_of_error rfl hparse
  exact ⟨_, by rw [decodeSteps, run_bind_error (run_mapError hread DecodeError.parse)]⟩

/-- A step of a new session, by a rule and from arguments that a text can hold, that is written but
does not come back. -/
structure Lost (st : Step) : Prop where
  made : ∃ s, Made s [st] ∧ s.table = .standard
  rule : ∀ name, st.rule? = some name →
    name.isIdentifier = true ∧ OperatorTable.standard.get? name = none
  args : ∀ arg ∈ st.args, arg.Flat [st]
  text : ∃ text, Step.encodeAll .standard [st] = .ok text ∧
    ∀ steps' s', (decodeSteps (fun _ => some keepRule) text).run (start .standard) ≠ (.ok steps', s')

theorem lost_steps : keepRule.Accepts ∧ Lost wideStep ∧ Lost (firstKept [.name "not"]) := by
  have hfails : ∀ {text : String} {e : DecodeError},
      (decodeSteps (fun _ => some keepRule) text).run (start .standard) =
        (.error e, start .standard) →
      ∀ steps' s', (decodeSteps (fun _ => some keepRule) text).run (start .standard) ≠
        (.ok steps', s') := by
    intro text e herror steps' s' hok
    rw [herror] at hok
    cases hok
  refine ⟨keepRule_justifies.accepts, ⟨?_, fun name => keptRule_ok, wideStep_flat, ?_⟩,
    ⟨?_, fun name => keptRule_ok, List.forall_mem_singleton.2 (.name (by decide)), ?_⟩⟩
  · obtain ⟨s, hmade, -, -, htable⟩ := made_firstKept before_wideStep
    exact ⟨s, hmade, htable⟩
  · obtain ⟨text, htext, e, hrun⟩ := decodeSteps_wideStep fun _ => some keepRule
    exact ⟨text, htext, hfails hrun⟩
  · have hbefore : ∀ arg ∈ [RuleArgument.name "not"], arg.Before 10 :=
      List.forall_mem_singleton.2 trivial
    obtain ⟨s, hmade, -, -, htable⟩ := made_firstKept hbefore
    exact ⟨s, hmade, htable⟩
  · obtain ⟨text, htext, e, hrun⟩ := decodeSteps_operatorName fun _ => some keepRule
    exact ⟨text, htext, hfails hrun⟩

end Session

end ProofKernel
