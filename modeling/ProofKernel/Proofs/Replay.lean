import Mathlib.Data.List.Induction
import ProofKernel.Proof.Decode
import ProofKernel.Proofs.Encoding

/-!
# Replaying what was written

* `Path.read_render`: the text of a path is read as the path;
* `RuleArgument.Restores`: how an argument of a saved step comes back among the steps replayed so far;
* `RuleArgument.decode_restores`: an argument is read back so from what it was written as;
* `Session.Replays`: rules applied one after another to the arguments that come back;
* `Session.decodeSteps_replays`, `Session.decodeSteps_tooDeep`: the text of a row of steps is replayed
  if it takes no more levels than the session reads; otherwise it is nested too deeply.
-/

namespace ProofKernel

open ProofKernel.Parser

/-! ## Paths -/

namespace Path

theorem go_append {w cs : List Char} {ws : List (List Char)} (hw : '/' ∉ w)
    (hcs : words.go cs = [] :: ws) : words.go (w ++ cs) = w :: ws := by
  induction w with
  | nil => exact hcs
  | cons c w ih =>
    rw [List.mem_cons, not_or] at hw
    rw [List.cons_append, words.go, if_neg (Ne.symm hw.1), ih hw.2]

theorem go_render (p : Path) :
    words.go (render p).toList = [] :: p.map fun s => s.word.toList := by
  induction p with
  | nil => rfl
  | cons s p ih =>
    have hcons : (render (s :: p)).toList = '/' :: (s.word.toList ++ (render p).toList) := by
      simp [render, String.toList_append]
    have hslash : '/' ∉ s.word.toList := by cases s <;> decide
    rw [hcons, words.go, if_pos rfl, go_append hslash ih, List.map_cons]

theorem words_render (p : Path) : words (render p).toList = p.map fun s => s.word.toList := by
  rw [words, go_render, List.filter_cons_of_neg (by simp), List.filter_eq_self]
  intro w hw
  obtain ⟨s, -, rfl⟩ := List.mem_map.1 hw
  cases s <;> decide

/-- **The text of a path is read as the path**, whether there are hypotheses or not. -/
theorem read_render (hasHyps : Bool) (p : Path) : read hasHyps p.render = .ok p := by
  have hsegment : ∀ s ∈ p, ofWord hasHyps (.ofList s.word.toList) = .ok [s] := by
    intro s _
    cases s <;> rfl
  obtain ⟨parts, hparts, hflat⟩ := exists_mapM (f := fun word => ofWord hasHyps (.ofList word))
    (P := fun s part => part = [s])
    (List.forall₂_map_left_iff.2 (List.forall₂_same.2 fun s hs => ⟨_, hsegment s hs, rfl⟩))
  have hflatten : parts.flatten = p := by
    clear hparts hsegment
    induction hflat with
    | nil => rfl
    | cons hs _ ih => rw [hs, List.flatten_cons, ih]; rfl
  rw [read, words_render, hparts]
  show Except.ok parts.flatten = _
  rw [hflatten]

end Path

/-! ## Terms that are equal without tags -/

namespace Term

variable {ι : Type}

theorem eq_var_of_bare {m : Term ι} {name : Name} (h : m.bare = named name) :
    ∃ a, m = .var a ∧ a.name = name := by
  cases m with
  | var a =>
    cases h
    exact ⟨a, rfl, rfl⟩
  | _ => cases h

theorem eq_app_of_bare {m : Term ι} {f x : PlainTerm} (h : m.bare = call f x) :
    ∃ tag g y, m = .app tag g y ∧ g.bare = f ∧ y.bare = x := by
  cases m with
  | app tag g y =>
    cases h
    exact ⟨tag, g, y, rfl, rfl, rfl⟩
  | _ => cases h

theorem number?_of_bare {m : Term ι} {k : Nat} (hk : k < wordSize / 2) (h : m.bare = named k.repr) :
    m.number? = some (k : Int) := by
  have hfits : fitsWord (k : Int) = true := by
    unfold wordSize at hk
    unfold fitsWord wordSize
    simp
    omega
  obtain ⟨a, rfl, ha⟩ := eq_var_of_bare h
  simp only [number?, Atom.literal?, ha, Literal.ofName?_repr hfits]

theorem bare_bare (m : Term ι) : m.bare.bare = m.bare := by
  induction m with
  | var a => rfl
  | app tag f x ihf ihx => exact congrArg₂ call ihf ihx
  | abs tag b body ih => exact congrArg (lambda b.name) ih

theorem ofPlain_bare (m : Term ι) (nodes : Nat) : (Node.ofPlain m nodes).1.bare = m.bare := by
  induction m generalizing nodes with
  | var a => rfl
  | app tag f x ihf ihx => exact congrArg₂ call (ihf _) (ihx _)
  | abs tag b body ih => exact congrArg (lambda b.name) (ih _)

theorem argsAnd_eq (m : Term ι) (rest : List (Term ι)) : m.argsAnd rest = m.args ++ rest := by
  induction m generalizing rest with
  | var a => rfl
  | abs tag b body ih => rfl
  | app tag f x ihf ihx =>
    show f.argsAnd (x :: rest) = f.argsAnd [x] ++ rest
    rw [ihf, ihf, List.append_assoc]
    rfl

theorem args_app (tag : ι) (f x : Term ι) : (Term.app tag f x).args = f.args ++ [x] :=
  argsAnd_eq f [x]

theorem applyAll_concat (f x : PlainTerm) (xs : List PlainTerm) :
    f.applyAll (xs ++ [x]) = call (f.applyAll xs) x := by
  simp [applyAll]

/-- The head and the arguments of a term that is a name on arguments. -/
theorem args_of_bare {m : Term ι} {name : Name} {xs : List PlainTerm}
    (h : m.bare = ((named name).applyAll xs).bare) :
    (∃ a, m.head = .var a ∧ a.name = name) ∧
      List.Forall₂ (fun y x => Term.bare y = Term.bare x) m.args xs := by
  induction xs using List.reverseRecOn generalizing m with
  | nil =>
    obtain ⟨a, rfl, ha⟩ := eq_var_of_bare h
    exact ⟨⟨a, rfl, ha⟩, .nil⟩
  | append_singleton xs x ih =>
    rw [applyAll_concat] at h
    obtain ⟨tag, g, y, rfl, hg, hy⟩ := eq_app_of_bare h
    obtain ⟨hhead, hargs⟩ := ih hg
    refine ⟨hhead, ?_⟩
    rw [args_app]
    exact List.rel_append hargs (.cons hy .nil)

end Term

/-! ## Arguments -/

/-- How an argument comes back among the steps replayed so far: numbers, names, strings and paths as
they are, a step of the row and the term of one as the step replayed at the same place, any other term
as an equal one. -/
inductive RuleArgument.Restores (steps done : List Step) : RuleArgument → RuleArgument → Prop
  | int (n : Int) : Restores steps done (.int n) (.int n)
  | name (n : Name) : Restores steps done (.name n) (.name n)
  | str (text : String) : Restores steps done (.str text) (.str text)
  | path (p : Path) : Restores steps done (.path p) (.path p)
  | step {k : Nat} {st st' : Step} (h : steps[k]? = some st) (h' : done[k]? = some st') :
    Restores steps done (.step st) (.step st')
  | node {k : Nat} {st st' : Step} (h : steps[k]? = some st) (h' : done[k]? = some st') :
    Restores steps done (.term st.term) (.step st')
  | term {m m' : Node} (hnew : ∀ st ∈ steps, st.term ≠ m) (h : m'.equal m = true) :
    Restores steps done (.term m) (.term m')

namespace RuleArgument

variable {T : OperatorTable} {steps done : List Step} {arg : RuleArgument}

theorem Restores.mono {arg' : RuleArgument} (h : arg.Restores steps done arg') (more : List Step) :
    arg.Restores steps (done ++ more) arg' := by
  have hkeeps : ∀ {k : Nat} {st : Step}, done[k]? = some st → (done ++ more)[k]? = some st := by
    intro k st h
    rw [List.getElem?_append_left (List.getElem?_eq_some_iff.1 h).1, h]
  cases h with
  | step h h' => exact .step h (hkeeps h')
  | node h h' => exact .node h (hkeeps h')
  | term hnew h => exact .term hnew h
  | _ => constructor

/-- A word of the format with one argument. -/
theorem decode_call {m : Node} {word : Name} {n : Nest}
    (hm : m.bare = (Nest.call (.word word) [n]).term.bare) :
    ∃ tag a x, m = .app tag (.var a) x ∧ a.name = word ∧ x.bare = n.term.bare := by
  obtain ⟨tag, g, x, rfl, hg, hx⟩ := Term.eq_app_of_bare hm
  obtain ⟨a, rfl, ha⟩ := Term.eq_var_of_bare hg
  exact ⟨tag, a, x, rfl, ha, hx⟩

theorem decode_literal {m : Node} {text : Name} {l : Literal} (hm : m.bare = .named text)
    (hl : Literal.ofName? text = some l) :
    decode done m = .ok (match l with | .int n => .int n | .str content => .str content) := by
  obtain ⟨a, rfl, rfl⟩ := Term.eq_var_of_bare hm
  cases l <;> simp [decode, Atom.literal?, hl]

/-- A reference is read back as the step at its place. -/
theorem decode_reference {m : Node} {k : Nat} {st : Step} (hk : k + 1 < wordSize / 2)
    (hm : m.bare = (Nest.reference k).term.bare) (hst : done[k]? = some st) :
    decode done m = .ok (.step st) := by
  obtain ⟨tag, a, x, rfl, ha, hx⟩ := decode_call hm
  have hreferenced : Step.referenced? done x = some st := by
    rw [Step.referenced?, Term.number?_of_bare hk hx]
    dsimp only
    rw [if_pos (by omega)]
    exact hst
  simp only [decode, Term.args, Term.argsAnd, Term.head, Term.isNamed, ha, beq_self_eq_true, if_true,
    hreferenced]

/-- A reference of an argument is read back as the step replayed at its place. -/
theorem decode_place (hrow : Step.Savable T steps) (hmem : ∀ st, arg = .step st → st ∈ steps)
    {k : Nat} (hk : arg.place? steps = some k) (hlt : k < done.length) {m : Node}
    (hm : m.bare = (arg.nest steps).term.bare) :
    ∃ arg', decode done m = .ok arg' ∧ arg.Restores steps done arg' := by
  rw [nest_of_place hk] at hm
  obtain ⟨old, hold, hrefers⟩ := place?_spec hk
  have hlength := (List.getElem?_eq_some_iff.1 hold).1
  have hsize := hrow.size
  have hdone : done[k]? = some done[k] := List.getElem?_eq_getElem hlt
  refine ⟨_, decode_reference (by omega) hm hdone, ?_⟩
  rcases hrefers with ⟨st, rfl, htag⟩ | rfl
  · rw [← hrow.distinct old (List.mem_of_getElem? hold) st (hmem st rfl) htag]
    exact .step hold hdone
  · exact .node hold hdone

/-- **An argument is read back from what it was written as.** Steps are told apart by their numbers,
and references go to steps replayed before. -/
theorem decode_restores (hrow : Step.Savable T steps) (harg : arg.Storable T steps)
    (hplace : ∀ k, arg.place? steps = some k → k < done.length) {m : Node}
    (hm : m.bare = (arg.nest steps).term.bare) :
    ∃ arg', decode done m = .ok arg' ∧ arg.Restores steps done arg' := by
  cases harg with
  | @int n hfits =>
    refine ⟨.int n, ?_, .int n⟩
    cases n with
    | ofNat k => exact decode_literal hm (Literal.ofName?_repr hfits)
    | negSucc k =>
      have hneg : Int.negSucc k = -((k + 1 : Nat) : Int) := rfl
      rw [nest, if_pos (Int.negSucc_lt_zero k)] at hm
      rw [hneg] at hfits ⊢
      exact decode_literal hm (Literal.ofName?_minus hfits)
  | @name n hident hget =>
    refine ⟨.name n, ?_, .name n⟩
    obtain ⟨a, rfl, ha⟩ := Term.eq_var_of_bare hm
    have ha : a.name = n := ha
    simp [decode, Atom.literal?, ha, Literal.ofName?_identifier hident, hident]
  | str text => exact ⟨.str text, decode_literal hm (Literal.ofName?_quote text), .str text⟩
  | path p =>
    refine ⟨.path p, ?_, .path p⟩
    obtain ⟨tag, a, x, rfl, ha, hx⟩ := decode_call hm
    obtain ⟨b, rfl, hb⟩ := Term.eq_var_of_bare hx
    have hb : b.name = Text.quote p.render := hb
    have hstring : (Term.var b).string? = some p.render := by
      simp only [Term.string?, Atom.literal?, hb, Literal.ofName?_quote]
    simp [decode, Term.args, Term.argsAnd, Term.head, Term.isNamed, ha, hstring, Path.read_render,
      Except.mapError, Except.map]
  | @step st hst =>
    obtain ⟨k, hk⟩ := place?_step_of_mem hst
    exact decode_place hrow (fun t ht => by cases ht; exact hst) hk (hplace k hk) hm
  | node hst =>
    obtain ⟨k, hk⟩ := place?_node_of_mem hst
    exact decode_place hrow (fun t ht => by cases ht) hk (hplace k hk) hm
  | @term t ht =>
    cases hk : (RuleArgument.term t).place? steps with
    | some k => exact decode_place hrow (fun t ht => by cases ht) hk (hplace k hk) hm
    | none =>
      have hnest : (RuleArgument.term t).nest steps = .embedded t := by simp [nest, hk]
      rw [hnest] at hm
      obtain ⟨tag, a, x, rfl, ha, hx⟩ := decode_call hm
      refine ⟨.term x, ?_, .term ?_ ?_⟩
      · simp [decode, Term.args, Term.argsAnd, Term.head, Term.isNamed, ha]
      · intro st hst hterm
        obtain ⟨k, hk'⟩ := place?_node_of_mem hst
        rw [hterm, hk] at hk'
        cases hk'
      · rw [Term.nestOn_term, List.map_nil, Term.applyAll_nil, Term.bare_bare] at hx
        simp [Term.equal, hx]

end RuleArgument

/-! ## Replaying -/

/-- A rule that makes a step of any arguments. -/
def Rule.Accepts (rule : Rule) : Prop := ∀ args s, ∃ step s', (rule args).run s = (.ok step, s')

namespace Session

/-- From one session to another, rules are applied one after another to the arguments of the steps of
a row as they come back. -/
inductive Replays (rules : RuleCatalogue) (steps : List Step) (s : Session) :
    List Step → Session → Prop
  | start {s₁ : Session} (h : s.Grows s₁) : Replays rules steps s [] s₁
  | step {done : List Step} {s₁ s₂ s₃ : Session} {st new : Step} {name : Name} {rule : Rule}
      {args : List RuleArgument} (h : Replays rules steps s done s₁)
      (hst : steps[done.length]? = some st) (hname : st.rule? = some name)
      (hrule : rules name = some rule)
      (hargs : List.Forall₂ (RuleArgument.Restores steps done) st.args args) (hgrows : s₁.Grows s₂)
      (hnew : (rule args).run s₂ = (.ok new, s₃)) : Replays rules steps s (done ++ [new]) s₃

section Replay

variable {rules : RuleCatalogue} {steps done : List Step} {T : OperatorTable} {s s₁ : Session}

/-- An entry that has its number, the name of a rule and arguments applies the rule. -/
theorem decodeStep_run {entry : Node} {a : Atom Nat} {xs : List Node} {args : List RuleArgument}
    {rule : Rule} (hhead : entry.head.number? = some ((done.length + 1 : Nat) : Int))
    (hargs : entry.args = .var a :: xs) (hrule : rules a.name = some rule)
    (hdecode : xs.mapM (RuleArgument.decode done) = .ok args) (s : Session) :
    ∃ s₁, s.Grows s₁ ∧ (decodeStep rules done entry).run s =
      (Attempt.mapError (.ruleFailed a.name (done.length + 1)) (rule args)).run s₁ := by
  have hrecord := advances_record .debug s!"replaying step {done.length + 1}: {a.name}" s
  refine ⟨_, hrecord, ?_⟩
  rw [decodeStep, if_pos hhead, hargs]
  dsimp only
  rw [hrule]
  dsimp only
  rw [run_bind_ok (run_lift hdecode s)]
  rfl

section Run

variable (hrow : Step.Savable T steps) (haccepts : ∀ st ∈ steps, ∀ name, st.rule? = some name →
  ∃ rule, rules name = some rule ∧ rule.Accepts)

include hrow haccepts

/-- **One entry**: a storable step is read back from what it was written as, and its rule is
applied. -/
theorem decodeStep_replays {st : Step} (hst : steps[done.length]? = some st) {entry : Node}
    (hentry : entry.bare = (st.nest steps done.length).term.bare)
    (h : Replays rules steps s done s₁) :
    ∃ new s₂, (decodeStep rules done entry).run s₁ = (.ok new, s₂) ∧
      Replays rules steps s (done ++ [new]) s₂ := by
  have hstorable := hrow.storable _ _ hst
  obtain ⟨name, hname, -, -⟩ := hstorable.rule
  obtain ⟨rule, hrule, haccept⟩ := haccepts st (List.mem_of_getElem? hst) name hname
  rw [Step.nest, hname] at hentry
  obtain ⟨⟨a, hhead, ha⟩, hparts⟩ := Term.args_of_bare hentry
  obtain ⟨x, xs, hx, hxs, hentryArgs⟩ := List.forall₂_cons_right_iff.1 hparts
  obtain ⟨b, rfl, hb⟩ := Term.eq_var_of_bare hx
  have hwritten : List.Forall₂ (fun arg (y : Node) => y.bare = (arg.nest steps).term.bare)
      st.args xs :=
    (List.forall₂_map_right_iff.1 (List.forall₂_map_right_iff.1 hxs)).flip
  have hread : List.Forall₂ (fun (y : Node) arg => ∃ arg', RuleArgument.decode done y = .ok arg' ∧
      arg.Restores steps done arg') xs st.args :=
    ((List.forall₂_and_left (p := (· ∈ st.args)) _ _).2 ⟨fun _ harg => harg, hwritten⟩).flip.imp
      fun y arg harg => RuleArgument.decode_restores hrow (hstorable.args arg harg.1)
        (hstorable.places arg harg.1) harg.2
  obtain ⟨args, hdecode, hargs⟩ := exists_mapM hread
  have hnumber : entry.head.number? = some ((done.length + 1 : Nat) : Int) := by
    have hlength := (List.getElem?_eq_some_iff.1 hst).1
    have hsize := hrow.size
    rw [hhead]
    exact Term.number?_of_bare (by omega) (congrArg Term.named ha)
  have hb : b.name = name := hb
  obtain ⟨s₂, hgrows, hrun⟩ := decodeStep_run hnumber hentryArgs (hb ▸ hrule) hdecode s₁
  obtain ⟨new, s₃, hnew⟩ := haccept args s₂
  refine ⟨new, s₃, ?_, .step h hst hname hrule hargs hgrows hnew⟩
  rw [hrun, run_mapError hnew]
  rfl

/-- **All entries**, by induction on those that are left. The replay so far says at which place the
next one stands. -/
theorem decodeEntries_replays {entries : List Node}
    (hlength : done.length + entries.length = steps.length)
    (hentries : ∀ i (entry : Node) st, entries[i]? = some entry →
      steps[done.length + i]? = some st → entry.bare = (st.nest steps (done.length + i)).term.bare)
    (h : Replays rules steps s done s₁) :
    ∃ steps' s', (decodeEntries rules done entries).run s₁ = (.ok steps', s') ∧
      Replays rules steps s steps' s' ∧ steps'.length = steps.length := by
  induction entries generalizing done s₁ with
  | nil => exact ⟨done, s₁, rfl, h, hlength⟩
  | cons entry entries ih =>
    rw [List.length_cons] at hlength
    have hst : steps[done.length]? = some steps[done.length] := List.getElem?_eq_getElem (by omega)
    obtain ⟨new, s₂, hrun, hreplays⟩ :=
      decodeStep_replays hrow haccepts hst (hentries 0 entry _ rfl hst) h
    have hsucc : (done ++ [new]).length = done.length + 1 := by simp
    obtain ⟨steps', s', hrun', hreplays', hlength'⟩ := ih (by omega) (fun i entry' st hi hst => by
      rw [hsucc, Nat.add_assoc, Nat.add_comm 1 i] at hst ⊢
      exact hentries (i + 1) entry' st hi hst) hreplays
    refine ⟨steps', s', ?_, hreplays', hlength'⟩
    rw [decodeEntries, run_bind_ok hrun]
    exact hrun'

/-- **A saved row of steps is replayed** by a session that reads its text with the same operators,
with rules that accept the arguments, if the text takes no more levels than the session reads. -/
theorem decodeSteps_replays {text : String}
    (htext : T.Spells text (Step.nestAll steps)) (htable : s.table = T)
    (hcache : s.cache.get? text = none) (hlevels : (Step.nestAll steps).levels ≤ s.maxDepth) :
    ∃ steps' s', (decodeSteps rules text).run s = (.ok steps', s') ∧
      Replays rules steps s steps' s' ∧ steps'.length = steps.length := by
  subst htable
  have hparse := (htext.parse s.maxDepth).1 hlevels
  obtain ⟨encoded, hencoded, hread⟩ : ∃ encoded : Node,
      encoded.bare = (Step.nestAll steps).term.bare ∧
        (parse text).run s = (.ok encoded, ((parse text).run s).2) :=
    ⟨_, Term.ofPlain_bare _ _, Prod.ext (parse_of_ok hcache hparse) rfl⟩
  obtain ⟨⟨a, hhead, ha⟩, hargs⟩ := Term.args_of_bare hencoded
  obtain ⟨hlength, hget⟩ := List.forall₂_iff_get.1 hargs
  have hnamed : encoded.head.isNamed "steps" = true := by simp [hhead, Term.isNamed, ha]
  have hentries : ∀ i (entry : Node) st, encoded.args[i]? = some entry →
      steps[([] : List Step).length + i]? = some st →
      entry.bare = (st.nest steps (([] : List Step).length + i)).term.bare := by
    intro i entry st hentry hst
    rw [List.length_nil, Nat.zero_add] at hst ⊢
    obtain ⟨hi, rfl⟩ := List.getElem?_eq_some_iff.1 hentry
    obtain ⟨hi', rfl⟩ := List.getElem?_eq_some_iff.1 hst
    have hi := hget i hi (by simpa using hi')
    simpa using hi
  obtain ⟨steps', s', hrun, hreplays, hlength'⟩ := decodeEntries_replays hrow haccepts
    (by simpa using hlength) hentries (.start (advances_parse text s))
  refine ⟨steps', s', ?_, hreplays, hlength'⟩
  rw [decodeSteps, run_bind_ok (run_mapError hread _), if_pos hnamed]
  exact hrun

end Run

/-- A text that takes more levels is nested too deeply. -/
theorem decodeSteps_tooDeep {text : String} (htext : s.table.Spells text (Step.nestAll steps))
    (hcache : s.cache.get? text = none) (hlevels : s.maxDepth < (Step.nestAll steps).levels) :
    ∃ place, (decodeSteps rules text).run s = (.error (.parse (.refused .tooDeep place)), s) := by
  obtain ⟨place, hparse⟩ := (htext.parse s.maxDepth).2 hlevels
  refine ⟨place, ?_⟩
  have hread := run_mapError (parse_of_error hcache hparse) DecodeError.parse
  rw [decodeSteps, run_bind_error hread]

end Replay

end Session

end ProofKernel
