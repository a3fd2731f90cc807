import ProofKernel.Proof.Encode
import ProofKernel.Proofs.Levels
import ProofKernel.Proofs.Sessions

/-!
# What a saved proof is written as

* `Term.Simple`: terms of names that are no operators; `Term.Simple.spells` is about their texts;
* `RuleArgument.nest`, `Step.nest`, `Step.nestAll`: the terms that an argument, an entry and a row of
  steps are written as, with the levels that their texts take;
* `RuleArgument.Storable`, `Step.Storable`, `Step.Savable`: the arguments, steps and rows that can be
  saved;
* `Step.encodeAll_spells`: the text of a row of such steps is read as `Step.nestAll`.
-/

namespace ProofKernel

open ProofKernel.Parser ProofKernel.Token ProofKernel.Style

/-! ## Terms of names -/

/-- A name that is no operator, shown as it is named. -/
structure Atom.Simple {ι : Type} (T : OperatorTable) (a : Atom ι) : Prop where
  shown? : a.shown? = none
  ident : a.name.isIdentifier = true
  get? : T.get? a.name = none

/-- Terms of names that are no operators. -/
def Term.Simple {ι : Type} (T : OperatorTable) : Term ι → Prop
  | .var a => a.Simple T
  | .app _ f x => f.Simple T ∧ x.Simple T
  | .abs _ b body =>
    b.shown? = none ∧ b.name.isIdentifier = true ∧ b.isVariable = true ∧ body.Simple T

/-- A head with its arguments, in brackets if it has some. -/
def Parser.Nest.on (head : Nest) : List Nest → Nest
  | [] => head
  | n :: ns => .call head (n :: ns)

theorem Parser.Nest.on_term (head : Nest) (ns : List Nest) :
    (head.on ns).term = head.term.applyAll (ns.map Nest.term) := by
  cases ns <;> rfl

/-- The term as it is printed on arguments: one pair of brackets for each chain of calls. -/
def Term.nestOn {ι : Type} : Term ι → List Nest → Nest
  | .var a, ns => (Nest.word a.name).on ns
  | .app _ f x, ns => f.nestOn (x.nestOn [] :: ns)
  | .abs _ b body, ns => (Nest.lambda b.name (body.nestOn [])).on ns

section Simple

variable {ι : Type} {T : OperatorTable}

theorem Term.nestOn_term (m : Term ι) (ns : List Nest) :
    (m.nestOn ns).term = m.bare.applyAll (ns.map Nest.term) := by
  induction m generalizing ns with
  | var a => exact Nest.on_term _ ns
  | app tag f x ihf ihx =>
    rw [Term.nestOn, ihf, List.map_cons, ihx]
    rfl
  | abs tag b body ih =>
    rw [Term.nestOn, Nest.on_term, Nest.lambda, ih]
    rfl

namespace Atom.Simple

variable {a : Atom ι} (ha : a.Simple T)

include ha

theorem shown_eq : a.shown = a.name := by simp [Atom.shown, ha.shown?]

theorem operatorOf?_eq : T.operatorOf? a = none := by
  simp [OperatorTable.operatorOf?, ha.shown_eq, ha.get?]

theorem isInfix_eq : T.isInfix a = false := by
  have hpower : T.power a.name = namePower := by simp [OperatorTable.power, ha.get?, ha.ident]
  simp [OperatorTable.isInfix, ha.operatorOf?_eq, ha.shown_eq, hpower, OperatorTable.isInfixPower]

theorem isOperator_eq : T.isOperator a = false := by
  simp [OperatorTable.isOperator, ha.operatorOf?_eq, ha.isInfix_eq]

theorem atomText_eq : Style.atomText ⟨T, false⟩ a = a.name := by
  simp [Style.atomText, ha.shown_eq]

theorem isNegative_eq : (Term.var a).isNegative = false := by
  simp [Term.isNegative, Term.number?, Atom.literal?, Literal.ofName?_identifier ha.ident]

end Atom.Simple

theorem piece_argument {m : Term ι} (hm : m.Simple T) (text : String) :
    (Style.piece ⟨T, false⟩ m text).argument = text := by
  cases m with
  | var a =>
    have ha : a.Simple T := hm
    simp [Style.piece, ha.isOperator_eq, ha.isNegative_eq]
  | app tag f x => rfl
  | abs tag b body => rfl

theorem spread_eq (ps : List Piece) : spread ps = spreadTexts (ps.map Piece.argument) := by
  simp [spread, spreadTexts, Function.comp_def]

theorem forall₂_nil : List.Forall₂ T.Spells (([] : List Piece).map Piece.argument) [] := .nil

/-- **A term of names on arguments is printed as `Term.nestOn` says**, by induction on the term. -/
theorem Term.Simple.spells_applied {m : Term ι} (hm : m.Simple T) {ps : List Piece} {ns : List Nest}
    (h : List.Forall₂ T.Spells (ps.map Piece.argument) ns) :
    T.Spells (Style.printApplied ⟨T, false⟩ m ps) (m.nestOn ns) := by
  induction m generalizing ps ns with
  | var a =>
    have ha : a.Simple T := hm
    have hhead := OperatorTable.spells_identifier ha.ident ha.get?
    cases ps with
    | nil =>
      cases h
      rw [printApplied, ha.atomText_eq]
      exact hhead
    | cons p ps =>
      cases h with
      | cons hp hps =>
        rw [printApplied_leaf ha.isInfix_eq (List.cons_ne_nil p ps), ha.atomText_eq, spread_eq]
        exact hhead.call (.cons hp hps) (List.cons_ne_nil _ _)
  | app tag f x ihf ihx =>
    refine ihf hm.1 (.cons ?_ h)
    rw [piece_argument hm.2]
    exact ihx hm.2 .nil
  | abs tag b body ih =>
    obtain ⟨hshown, hident, hvariable, hbody⟩ := hm
    have hlambda := (ih hbody forall₂_nil).lambda hident hvariable
    have hb : b.shown = b.name := by simp [Atom.shown, hshown]
    cases ps with
    | nil =>
      cases h
      have htext : Style.printApplied ⟨T, false⟩ (.abs tag b body) [] =
          "\x7b" ++ b.name ++ ". " ++ Style.printApplied ⟨T, false⟩ body [] ++ "\x7d" := by
        simp [printApplied, hb]
      rw [htext]
      exact hlambda
    | cons p ps =>
      have htext : Style.printApplied ⟨T, false⟩ (.abs tag b body) (p :: ps) =
          bracket ("\x7b" ++ b.name ++ ". " ++ Style.printApplied ⟨T, false⟩ body [] ++ "\x7d" ++
            spreadTexts ((p :: ps).map Piece.argument)) := by
        simp [printApplied, hb, spread_eq]
      rw [htext]
      cases h with
      | cons hp hps => exact hlambda.call (.cons hp hps) (List.cons_ne_nil _ _)

theorem Term.Simple.spells {m : Term ι} (hm : m.Simple T) : T.Spells (m.pretty T) (m.nestOn []) :=
  hm.spells_applied forall₂_nil

end Simple

/-! ## Arguments -/

/-- The words that saved proofs are written with. -/
def formatWords : List Name := ["steps", "s", "t", "path"]

/-- A table that saved proofs can be read with: the minus sign is the usual one, and none of the words
of the format is an operator. -/
structure OperatorTable.ReadsFormat (T : OperatorTable) : Prop where
  minus : HasMinus T
  words : ∀ word ∈ formatWords, T.get? word = none

/-- A reference to the step at a place. -/
def Parser.Nest.reference (place : Nat) : Nest := .call (.word "s") [.word (place + 1).repr]

/-- A term that is not the term of a step. -/
def Parser.Nest.embedded (m : Node) : Nest := .call (.word "t") [m.nestOn []]

namespace RuleArgument

/-- The place of the step that an argument refers to, counted from zero. -/
def place? (steps : List Step) : RuleArgument → Option Nat
  | .step st => steps.findIdx? fun t => t.isSame st
  | .term m => steps.findIdx? fun t => t.term = m
  | _ => none

/-- The term that an argument is written as. -/
def nest (steps : List Step) : RuleArgument → Nest
  | .int n => if n < 0 then ⟨1, .named ("-" ++ n.natAbs.repr)⟩ else .word n.natAbs.repr
  | .name n => .word n
  | .str text => .word (Text.quote text)
  | .path p => .call (.word "path") [.word (Text.quote p.render)]
  | .step st => (((RuleArgument.step st).place? steps).map Nest.reference).getD (.embedded st.term)
  | .term m => (((RuleArgument.term m).place? steps).map Nest.reference).getD (.embedded m)

/-- Arguments that a row of steps can be saved with: signed numbers of 64 bits, names that are no
operators, strings, paths, steps of the row, their terms, and terms of names. -/
inductive Storable (T : OperatorTable) (steps : List Step) : RuleArgument → Prop
  | int {n : Int} (h : fitsWord n = true) : Storable T steps (.int n)
  | name {n : Name} (hident : n.isIdentifier = true) (hget : T.get? n = none) :
    Storable T steps (.name n)
  | str (text : String) : Storable T steps (.str text)
  | path (p : Path) : Storable T steps (.path p)
  | step {st : Step} (h : st ∈ steps) : Storable T steps (.step st)
  | node {st : Step} (h : st ∈ steps) : Storable T steps (.term st.term)
  | term {m : Node} (h : m.Simple T) : Storable T steps (.term m)

end RuleArgument

section Texts

theorem spreadTexts_eq_cons (text : String) (texts : List String) :
    spreadTexts (text :: texts) = " " ++ text ++ spreadTexts texts := by
  apply String.toList_injective
  rw [spreadTexts_cons]
  simp [String.toList_append]

theorem bracket_word (word text : String) :
    bracket (word ++ spreadTexts [text]) = "(" ++ word ++ " " ++ text ++ ")" := by
  apply String.toList_injective
  simp [bracket, spreadTexts, String.toList_append]

theorem stepReference_eq (place : Nat) :
    stepReference place = bracket ("s" ++ spreadTexts [(place + 1).repr]) := by
  rw [bracket_word]
  rfl

theorem embedded_eq {T : OperatorTable} {m : Node} (hm : m.Simple T) :
    embedded T m = bracket ("t" ++ spreadTexts [m.pretty T]) := by
  have hencode : m.encode T = m.pretty T := by
    cases m with
    | var a =>
      have ha : a.Simple T := hm
      simp [Term.encode, ha.isOperator_eq, ha.isNegative_eq]
    | app tag f x => rfl
    | abs tag b body => rfl
  rw [bracket_word, embedded, hencode]
  rfl

end Texts

theorem readsFormat_standard : OperatorTable.standard.ReadsFormat :=
  ⟨OperatorTable.legible_standard.minus, by decide⟩

namespace OperatorTable.ReadsFormat

variable {T : OperatorTable} (hT : T.ReadsFormat)

include hT

theorem spells_word {word : Name} (hword : word ∈ formatWords) : T.Spells word (.word word) := by
  refine spells_identifier ?_ (hT.words word hword)
  revert word
  decide

/-- A word of the format with one argument, in brackets. -/
theorem spells_call (word : Name) (hword : word ∈ formatWords) {text : String} {n : Nest}
    (h : T.Spells text n) :
    T.Spells (bracket (word ++ spreadTexts [text])) (.call (.word word) [n]) :=
  (hT.spells_word hword).call (.cons h .nil) (List.cons_ne_nil _ _)

theorem spells_reference (place : Nat) : T.Spells (stepReference place) (.reference place) := by
  rw [stepReference_eq]
  exact hT.spells_call "s" (by decide) (spells_repr _)

theorem spells_int (n : Int) : T.Spells (if n < 0 then bracket (toString n) else toString n)
    (if n < 0 then ⟨1, .named ("-" ++ n.natAbs.repr)⟩ else .word n.natAbs.repr) := by
  cases n with
  | ofNat k => exact spells_repr k
  | negSucc k =>
    have hneg : Int.negSucc k < 0 := Int.negSucc_lt_zero k
    rw [if_pos hneg, if_pos hneg]
    exact spells_negative hT.minus (k + 1)

end OperatorTable.ReadsFormat

namespace RuleArgument

variable {T : OperatorTable} {steps : List Step} {arg : RuleArgument} {k : Nat}

theorem encode_of_place (T : OperatorTable) (h : arg.place? steps = some k) :
    arg.encode T steps = .ok (stepReference k) := by
  cases arg with
  | step st =>
    simp only [place?] at h
    simp only [encode, h]
  | term m =>
    simp only [place?] at h
    simp only [encode, h]
  | _ => cases h

theorem nest_of_place (h : arg.place? steps = some k) : arg.nest steps = .reference k := by
  cases arg with
  | step st => simp [nest, h]
  | term m => simp [nest, h]
  | _ => cases h

theorem place?_step_of_mem {st : Step} (h : st ∈ steps) :
    ∃ k, (RuleArgument.step st).place? steps = some k := by
  refine Option.isSome_iff_exists.1 ?_
  rw [place?, List.findIdx?_isSome, List.any_eq_true]
  exact ⟨st, h, by simp [Step.isSame]⟩

theorem place?_node_of_mem {st : Step} (h : st ∈ steps) :
    ∃ k, (RuleArgument.term st.term).place? steps = some k := by
  refine Option.isSome_iff_exists.1 ?_
  rw [place?, List.findIdx?_isSome, List.any_eq_true]
  exact ⟨st, h, by simp⟩

/-- **A storable argument is written as one argument.** -/
theorem Storable.encode_spells (hT : T.ReadsFormat) (h : arg.Storable T steps) :
    ∃ text, arg.encode T steps = .ok text ∧ T.Spells text (arg.nest steps) := by
  have hreference : ∀ k, arg.place? steps = some k →
      ∃ text, arg.encode T steps = .ok text ∧ T.Spells text (arg.nest steps) := by
    intro k hk
    refine ⟨stepReference k, encode_of_place T hk, ?_⟩
    rw [nest_of_place hk]
    exact hT.spells_reference k
  cases h with
  | @int n hfits => exact ⟨_, rfl, hT.spells_int n⟩
  | @name n hident hget =>
    exact ⟨n, by simp [encode, hident], OperatorTable.spells_identifier hident hget⟩
  | str text => exact ⟨_, rfl, OperatorTable.spells_quote text⟩
  | path p =>
    refine ⟨_, rfl, ?_⟩
    have hcall := hT.spells_call "path" (by decide) (OperatorTable.spells_quote p.render)
    rw [bracket_word] at hcall
    exact hcall
  | step hst => exact hreference _ (place?_step_of_mem hst).choose_spec
  | node hst => exact hreference _ (place?_node_of_mem hst).choose_spec
  | @term m hm =>
    cases hplace : (RuleArgument.term m).place? steps with
    | some k => exact hreference k hplace
    | none =>
      refine ⟨embedded T m, ?_, ?_⟩
      · simp only [place?] at hplace
        simp only [encode, hplace]
      · have hcall := hT.spells_call "t" (by decide) hm.spells
        rw [embedded_eq hm, nest, hplace]
        exact hcall

theorem stepReference_toList (place : Nat) :
    (stepReference place).toList = '(' :: 's' :: ' ' :: ((place + 1).repr.toList ++ [')']) := by
  show ("(s " ++ (place + 1).repr ++ ")").toList = _
  rw [String.toList_append, String.toList_append]
  rfl

theorem stepReference_injective : Function.Injective stepReference := by
  intro i j h
  have hlist := congrArg String.toList h
  rw [stepReference_toList, stepReference_toList] at hlist
  have hdigits : (i + 1).repr = (j + 1).repr := String.toList_injective (by simpa using hlist)
  exact Nat.succ_injective (Nat.repr_injective hdigits)

theorem embedded_ne_stepReference (T : OperatorTable) (m : Node) (k : Nat) :
    embedded T m ≠ stepReference k := by
  intro h
  have hlist := congrArg String.toList h
  rw [stepReference_toList, embedded, String.toList_append, String.toList_append] at hlist
  cases hlist

theorem int_ne_stepReference (n : Int) (k : Nat) :
    (if n < 0 then bracket (toString n) else toString n) ≠ stepReference k := by
  intro h
  have hlist := congrArg String.toList h
  rw [stepReference_toList] at hlist
  cases n with
  | ofNat m =>
    obtain ⟨d, ds, hm, hdigit, -⟩ := Name.exists_cons_repr m
    have hcons : d :: ds = '(' :: _ := hm.symm.trans hlist
    cases hcons
    revert hdigit
    decide
  | negSucc m =>
    have hminus : ("-" ++ (m + 1).repr).toList = '-' :: (m + 1).repr.toList := by
      rw [String.toList_append]
      rfl
    rw [if_pos (Int.negSucc_lt_zero m), bracket_toList] at hlist
    have hcons : '(' :: (("-" ++ (m + 1).repr).toList ++ _) = '(' :: 's' :: _ := hlist
    rw [hminus] at hcons
    cases hcons

/-- **Only references are written as references.** The texts of other arguments differ from them in
the first two characters. -/
theorem place?_of_encode (h : arg.encode T steps = .ok (stepReference k)) :
    arg.place? steps = some k := by
  cases hplace : arg.place? steps with
  | some i =>
    rw [encode_of_place T hplace] at h
    rw [stepReference_injective (Except.ok.inj h)]
  | none =>
    exfalso
    cases arg with
    | int n => exact int_ne_stepReference n k (Except.ok.inj h)
    | name n =>
      simp only [encode] at h
      split at h
      · rename_i hident
        have hn : n.toList = _ := congrArg String.toList (Except.ok.inj h)
        rw [stepReference_toList] at hn
        rw [Name.isIdentifier, hn] at hident
        simp [isIdentStart] at hident
      · cases h
    | str text =>
      have hlist := congrArg String.toList (Except.ok.inj h)
      rw [stepReference_toList, Text.quote_toList] at hlist
      cases hlist
    | path p =>
      have hlist := congrArg String.toList (Except.ok.inj h)
      rw [stepReference_toList, String.toList_append, String.toList_append] at hlist
      cases hlist
    | step st =>
      simp only [place?] at hplace
      simp only [encode, hplace] at h
      exact embedded_ne_stepReference T _ k (Except.ok.inj h)
    | term m =>
      simp only [place?] at hplace
      simp only [encode, hplace] at h
      exact embedded_ne_stepReference T _ k (Except.ok.inj h)

end RuleArgument

/-! ## Rows of steps -/

/-- A monadic map gives a list if the function gives its elements. -/
theorem exists_mapM {α β γ ε : Type} {f : α → Except ε β} {P : γ → β → Prop} {as : List α}
    {cs : List γ} (h : List.Forall₂ (fun a c => ∃ b, f a = .ok b ∧ P c b) as cs) :
    ∃ bs, as.mapM f = .ok bs ∧ List.Forall₂ P cs bs := by
  induction h with
  | nil => exact ⟨[], rfl, .nil⟩
  | cons ha has ih =>
    obtain ⟨b, hb, hP⟩ := ha
    obtain ⟨bs, hbs, hPs⟩ := ih
    refine ⟨b :: bs, ?_, .cons hP hPs⟩
    rw [List.mapM_cons, hb]
    show (do let bs ← List.mapM f _; pure (b :: bs) : Except ε (List β)) = _
    rw [hbs]
    rfl

namespace Step

variable {T : OperatorTable} {steps : List Step}

/-- The term that the step at a place, counted from zero, is written as. -/
def nest (steps : List Step) (place : Nat) (st : Step) : Nest :=
  .call (.word (place + 1).repr) (.word (st.rule?.getD "") :: st.args.map (RuleArgument.nest steps))

/-- The term that a row of steps is written as. -/
def nestAll (steps : List Step) : Nest :=
  .call (.word "steps") (steps.zipIdx.map fun (st, place) => st.nest steps place)

/-- Steps that can be saved at a place of a row: they follow by a rule whose name is no operator, from
storable arguments that refer to steps before that place. -/
structure Storable (T : OperatorTable) (steps : List Step) (place : Nat) (st : Step) : Prop where
  rule : ∃ rule, st.rule? = some rule ∧ rule.isIdentifier = true ∧ T.get? rule = none
  args : ∀ arg ∈ st.args, arg.Storable T steps
  places : ∀ arg ∈ st.args, ∀ k, arg.place? steps = some k → k < place

/-- A row of steps that can be saved: their numbers tell them apart, a text can count them, and each
one can be saved at its place. -/
structure Savable (T : OperatorTable) (steps : List Step) : Prop where
  distinct : ∀ a ∈ steps, ∀ b ∈ steps, a.tag = b.tag → a = b
  size : steps.length < wordSize / 2
  storable : ∀ place (st : Step), steps[place]? = some st → st.Storable T steps place

theorem Storable.encode_spells (hT : T.ReadsFormat) {place : Nat} {st : Step}
    (h : st.Storable T steps place) :
    ∃ text, st.encode T steps place = .ok text ∧ T.Spells text (st.nest steps place) := by
  obtain ⟨rule, hrule, hident, hget⟩ := h.rule
  obtain ⟨texts, htexts, hspells⟩ := exists_mapM (f := RuleArgument.encode T steps)
    (List.forall₂_same.2 fun arg harg => (h.args arg harg).encode_spells hT)
  have hargs : List.Forall₂ T.Spells texts (st.args.map (RuleArgument.nest steps)) :=
    List.forall₂_map_right_iff.2 hspells.flip
  have hname : T.Spells rule (.word rule) := OperatorTable.spells_identifier hident hget
  refine ⟨bracket ((place + 1).repr ++ spreadTexts (rule :: texts)), ?_, ?_⟩
  · have htext : bracket ((place + 1).repr ++ spreadTexts (rule :: texts)) =
        s!"({place + 1} {rule}" ++ spreadTexts texts ++ ")" := by
      show _ = "(" ++ (place + 1).repr ++ " " ++ rule ++ spreadTexts texts ++ ")"
      rw [spreadTexts_eq_cons, bracket]
      apply String.toList_injective
      simp [String.toList_append]
    rw [htext, encode, hrule]
    dsimp only
    rw [htexts]
    rfl
  · rw [nest, hrule]
    exact (OperatorTable.spells_repr _).call (.cons hname hargs) (List.cons_ne_nil _ _)

/-- **A row of storable steps is written as `Step.nestAll`.** -/
theorem encodeAll_spells (hT : T.ReadsFormat)
    (h : ∀ place (st : Step), steps[place]? = some st → st.Storable T steps place) :
    ∃ text, encodeAll T steps = .ok text ∧ T.Spells text (nestAll steps) := by
  have hentries : ∀ entry ∈ steps.zipIdx, ∃ text, entry.1.encode T steps entry.2 = .ok text ∧
      T.Spells text (entry.1.nest steps entry.2) := fun entry hentry =>
    (h entry.2 entry.1 (List.mem_zipIdx_iff_getElem?.1 hentry)).encode_spells hT
  obtain ⟨texts, htexts, hspells⟩ := exists_mapM (List.forall₂_same.2 hentries)
  have hargs : List.Forall₂ T.Spells texts
      (steps.zipIdx.map fun entry => entry.1.nest steps entry.2) :=
    List.forall₂_map_right_iff.2 hspells.flip
  refine ⟨bracket ("steps" ++ spreadTexts texts), ?_, ?_⟩
  · have htext : bracket ("steps" ++ spreadTexts texts) = "(steps" ++ spreadTexts texts ++ ")" := by
      apply String.toList_injective
      simp [bracket, String.toList_append]
    rw [htext, encodeAll, htexts]
    rfl
  · rw [nestAll]
    cases hsteps : steps.zipIdx.map fun entry => entry.1.nest steps entry.2 with
    | nil =>
      rw [hsteps] at hargs
      cases hargs
      have halone := OperatorTable.spells_alone (by decide) (hT.words "steps" (by decide))
      simpa [spreadTexts] using halone
    | cons n ns =>
      rw [hsteps] at hargs
      exact (hT.spells_word (by decide)).call hargs (List.cons_ne_nil _ _)

/-- A row takes more levels than it has steps. -/
theorem length_lt_levels (steps : List Step) : steps.length < (nestAll steps).levels := by
  simpa [nestAll] using
    Nest.length_lt_levels (.word "steps") (steps.zipIdx.map fun entry => entry.1.nest steps entry.2)

/-- A row takes more levels than a step of it has arguments. -/
theorem args_lt_levels {steps : List Step} {place : Nat} {st : Step}
    (h : steps[place]? = some st) : st.args.length < (nestAll steps).levels := by
  have hargs : st.args.length + 1 < (st.nest steps place).levels := by
    simpa [nest] using Nest.length_lt_levels (.word (place + 1).repr)
      (.word (st.rule?.getD "") :: st.args.map (RuleArgument.nest steps))
  have hentry : (st.nest steps place).levels < (nestAll steps).levels :=
    Nest.levels_lt_levels (.word "steps")
      (List.mem_map.2 ⟨(st, place), List.mem_zipIdx_iff_getElem?.2 h, rfl⟩)
  omega

end Step

/-! ## Rows of one session -/

namespace RuleArgument

/-- The step that an argument refers to. -/
theorem place?_spec {steps : List Step} {arg : RuleArgument} {k : Nat}
    (h : arg.place? steps = some k) :
    ∃ old, steps[k]? = some old ∧
      ((∃ st, arg = .step st ∧ old.tag = st.tag) ∨ arg = .term old.term) := by
  cases arg with
  | step st =>
    obtain ⟨hk, hsame, -⟩ := List.findIdx?_eq_some_iff_getElem.1 h
    exact ⟨steps[k], List.getElem?_eq_getElem hk, .inl ⟨st, rfl, eq_of_beq hsame⟩⟩
  | term m =>
    obtain ⟨hk, hsame, -⟩ := List.findIdx?_eq_some_iff_getElem.1 h
    exact ⟨steps[k], List.getElem?_eq_getElem hk, .inr (by rw [of_decide_eq_true hsame])⟩
  | _ => cases h

end RuleArgument

namespace Session.Made

variable {s : Session} {made steps : List Step} (h : s.Made made)

include h

/-- The number of a step tells it apart. -/
theorem eq_of_tag_eq {a b : Step} (ha : a ∈ made) (hb : b ∈ made) (hab : a.tag = b.tag) : a = b := by
  obtain ⟨i, hi, rfl⟩ := List.getElem_of_mem ha
  obtain ⟨j, hj, rfl⟩ := List.getElem_of_mem hb
  have hpair := List.pairwise_iff_getElem.1 h.recorded.2
  have hroot := fun (k : Nat) (hk : k < made.length) =>
    (h.recorded.1 made[k] (List.getElem_mem hk)).root
  rcases Nat.lt_trichotomy i j with hij | rfl | hji
  · have hlt := (hpair i j hi hj hij).2
    have hj' := hroot j hj
    omega
  · rfl
  · have hlt := (hpair j i hj hi hji).2
    have hi' := hroot i hi
    omega

/-- **References point backwards**: what an argument refers to existed before the step, and so did
its nodes. -/
theorem place_lt (hsteps : ∀ st ∈ steps, st ∈ made) (hsorted : steps.Pairwise Step.IsOlder)
    {i k : Nat} {st : Step} {arg : RuleArgument} (hst : steps[i]? = some st) (harg : arg ∈ st.args)
    (hplace : arg.place? steps = some k) : k < i := by
  obtain ⟨old, hold, hrefers⟩ := RuleArgument.place?_spec hplace
  have hst' := h.recorded.1 st (hsteps st (List.mem_of_getElem? hst))
  have hold' := h.recorded.1 old (hsteps old (List.mem_of_getElem? hold))
  have hbefore := hst'.args arg harg
  have hroot : old.term.root < st.term.root := by
    rcases hrefers with ⟨t, rfl, htag⟩ | rfl
    · have ht : t.tag < st.term.root := hbefore
      have hle := hold'.root
      omega
    · exact hbefore
  by_contra hle
  rcases Nat.lt_or_eq_of_le (Nat.le_of_not_lt hle) with hlt | rfl
  · -- a later step is made after this one, its nodes too
    obtain ⟨hi, rfl⟩ := List.getElem?_eq_some_iff.1 hst
    obtain ⟨hk, rfl⟩ := List.getElem?_eq_some_iff.1 hold
    have holder := List.pairwise_iff_getElem.1 hsorted i k hi hk hlt
    have htag := h.tag_lt (hsteps _ (List.getElem_mem hi)) (hsteps _ (List.getElem_mem hk)) holder
    have hle := hst'.root
    omega
  · rw [hst] at hold
    cases hold
    exact absurd hroot (Nat.lt_irrefl _)

theorem readsFormat (hwords : ∀ word ∈ formatWords, s.table.get? word = none) :
    s.table.ReadsFormat := by
  refine ⟨?_, hwords⟩
  obtain ⟨more, hmore⟩ := h.table
  have hfind : OperatorTable.standard.entries.find? (fun entry => entry.1 = "-") =
      some ("-", .between "-" 30) := by decide
  have hget : s.table.entries.find? (fun entry => entry.1 = "-") = some ("-", .between "-" 30) := by
    rw [← hmore, List.find?_append, hfind]
    rfl
  rw [HasMinus, OperatorTable.get?, hget]
  rfl

/-- The steps of a run, taken in the order of their ordinals, can be saved if their rule names and
arguments can. -/
theorem storable (hsteps : ∀ st ∈ steps, st ∈ made) (hsorted : steps.Pairwise Step.IsOlder)
    {T : OperatorTable} (hrules : ∀ st ∈ steps, ∀ rule, st.rule? = some rule →
      rule.isIdentifier = true ∧ T.get? rule = none)
    (hargs : ∀ st ∈ steps, ∀ arg ∈ st.args, arg.Storable T steps) {place : Nat} {st : Step}
    (hst : steps[place]? = some st) : st.Storable T steps place := by
  have hmem := List.mem_of_getElem? hst
  refine ⟨?_, hargs st hmem, fun arg harg k hk => h.place_lt hsteps hsorted hst harg hk⟩
  obtain ⟨i, hi, -⟩ := (h.recorded.1 st (hsteps st hmem)).ordinal
  cases st with
  | bare tag term hasHyps => cases hi
  | proved tag term hasHyps rule args deps ordinal details? =>
    exact ⟨rule, rfl, hrules _ hmem rule rfl⟩

theorem savable (hsteps : ∀ st ∈ steps, st ∈ made) (hsize : steps.length < wordSize / 2)
    {T : OperatorTable}
    (hstorable : ∀ place (st : Step), steps[place]? = some st → st.Storable T steps place) :
    Step.Savable T steps :=
  ⟨fun a ha b hb hab => h.eq_of_tag_eq (hsteps a ha) (hsteps b hb) hab, hsize, hstorable⟩

end Session.Made

end ProofKernel
