import Mathlib.Data.List.Forall2
import ProofKernel.Proofs.Written

/-!
# Printed terms are read back

* `OperatorTable.reread`: the term that a printed term is read as, if it is read as a term at all;
* `Style.printApplied_reads`: printed calls and abstractions are read as that term;
* `Style.parse_print`, `Style.reread_of_parse`: a whole printed text is read as that term, and as no
  other.
-/

namespace ProofKernel

open ProofKernel.Token ProofKernel.Parser

/-! ## What a printed term is read as -/

/-- How a printed argument is read: beside an infix operator, and among other arguments. -/
structure Heard where
  operand : Option PlainTerm
  item : Item

/-- Whether a term is a name, a literal or an operator. -/
def Term.isLeaf : PlainTerm → Bool
  | .var _ => true
  | _ => false

namespace OperatorTable

/-- How an argument is read whose own text is read as a given term. -/
def heard (T : OperatorTable) (x : PlainTerm) (r? : Option PlainTerm) : Heard :=
  match x with
  | .var a => match T.role a with
    | .name => ⟨some x, .unit false (some x)⟩
    | .numeral _ true => ⟨some x, .unit true (some x)⟩
    | .numeral digits false => ⟨some x, .minus digits⟩
    | .between | .before => ⟨some x, .unit true (some x)⟩
  | _ => ⟨r?, .unit true r?⟩

/-- **What a printed term is read as**, with arguments that are read in a given way. An operator
alone is no term, a numeral with a minus sign and no brackets is a subtraction after other operands,
and an operator before its operand takes in the arguments in brackets that come next. -/
def reread (T : OperatorTable) : PlainTerm → List Heard → Option PlainTerm
  | .var a, [] => if T.isOperator a then none else some (.var a)
  | .var a, h :: hs => match T.role a, hs with
    | .between, [] => h.operand.map (.call (.var a))
    | .between, k :: hs => h.operand.bind fun l => k.operand.bind fun r =>
      rowTerm none (.callBetween l (.var a) r) (hs.map Heard.item)
    | .before, hs =>
      (h.operand.bind fun r => absorb beforePower r (hs.map Heard.item)).bind fun q =>
        rowTerm none (.call (.var a) q.1) q.2
    | _, hs => rowTerm none (.var a) ((h :: hs).map Heard.item)
  | .app _ f x, hs => T.reread f (T.heard x (T.reread x []) :: hs)
  | .abs _ b body, hs => (T.reread body []).bind fun m =>
    rowTerm none (.lambda b.name m) (hs.map Heard.item)

end OperatorTable

/-! ## Printed arguments -/

namespace Style

variable {T : OperatorTable} (hT : T.Legible) (unicode : Bool)

/-- The texts of an argument are read as they are heard. -/
structure Spoken (T : OperatorTable) (p : Piece) (h : Heard) : Prop where
  operand : Scans p.operand.toList fun ts => ReadsOperand T ts h.operand
  argument : Scans p.argument.toList fun ts => h.item.Reads T ts ∧ ReadsOperand T ts h.operand

theorem spread_cons (p : Piece) (ps : List Piece) :
    (spread (p :: ps)).toList = ' ' :: p.argument.toList ++ (spread ps).toList := by
  simp [spread, String.toList_append]

/-- Arguments begin with a blank. -/
theorem apart_spread (ps : List Piece) {rest : List Char} (h : Apart rest) :
    Apart ((spread ps).toList ++ rest) := by
  cases ps with
  | nil => exact h
  | cons p ps =>
    rw [spread_cons]
    exact apart_blank _

theorem spread_reads {ps : List Piece} {hs : List Heard} (h : List.Forall₂ (Spoken T) ps hs) :
    Scans (spread ps).toList (ReadsRow T (hs.map Heard.item)) := by
  induction h with
  | nil => exact scans_nil.mono fun ts hts => hts
  | @cons p k ps ks hp hps ih =>
    have hrow := hp.argument.blank.append ih fun rest hrest => apart_spread ps hrest
    rw [spread_cons]
    refine hrow.mono ?_
    rintro _ ⟨us, vs, hus, hvs, rfl⟩
    exact ⟨us, vs, hus.1, hvs, rfl⟩

theorem bracket_toList (text : String) :
    (bracket text).toList = "(".toList ++ (text.toList ++ ")".toList) := by
  simp [bracket, String.toList_append]

theorem bracket_reads {text : String} {r? : Option PlainTerm}
    (h : Scans text.toList fun ts => ReadsGroup T ts r?) :
    Scans (bracket text).toList fun ts => ReadsUnit T ts true r? := by
  have henclose := h.enclose (o := "(") (c := ")") (by decide) (by decide) apart_parenthesis
  rw [bracket_toList]
  refine henclose.mono ?_
  rintro _ ⟨o, c, us, hus, rfl⟩
  exact hus.readsUnit o c

/-- An operator in brackets of its own. -/
theorem bracket_operator {a : Atom Unit} {kind : TokenKind} {text : String}
    (h : OperatorWord T a kind text) :
    Scans (bracket text).toList fun ts => ReadsUnit T ts true (some (.var a)) := by
  have henclose := (scans_word h.word).enclose (o := "(") (c := ")") (by decide) (by decide)
    apart_parenthesis
  rw [bracket_toList]
  refine henclose.mono ?_
  rintro _ ⟨o, c, _, ⟨offset, rfl⟩, rfl⟩
  rw [← h.leaf]
  exact readsUnit_operator (h.bare offset) o c

theorem symbol_of_minus {text : String} {kind : TokenKind} (h : kind? text = some kind) :
    text = "-" → kind = .symbol := by
  rintro rfl
  have hsymbol : kind? "-" = some .symbol := by decide
  rw [hsymbol] at h
  cases h
  rfl

theorem numeral_reads (hT : T.Legible) {digits : String} (h : kind? digits = some .number) :
    Scans ("-" ++ digits).toList fun ts =>
      (Item.minus digits).Reads T ts ∧ ReadsOperand T ts (some (.named ("-" ++ digits))) := by
  refine (scans_minus h).mono ?_
  rintro _ ⟨offset, rfl⟩
  exact ⟨⟨offset, rfl⟩, readsOperand_numeral hT.minus (ne_bracket h (by decide)) offset⟩

theorem bracket_numeral (hT : T.Legible) {digits : String} (h : kind? digits = some .number) :
    Scans (bracket ("-" ++ digits)).toList fun ts =>
      ReadsUnit T ts true (some (.named ("-" ++ digits))) := by
  refine bracket_reads ((scans_minus h).mono ?_)
  rintro _ ⟨offset, rfl⟩
  exact readsGroup_numeral hT.minus (ne_bracket h (by decide)) offset

/-! ### The two texts of an argument -/

/-- A text that is read as one argument in every place. -/
theorem spoken_of_unit {text : String} {opens : Bool} {r? : Option PlainTerm}
    (h : Scans text.toList fun ts => ReadsUnit T ts opens r?) :
    Spoken T ⟨text, text⟩ ⟨r?, .unit opens r?⟩ :=
  ⟨h.mono fun _ hts => hts.toReadsOperand, h.mono fun _ hts => ⟨hts, hts.toReadsOperand⟩⟩

theorem piece_leaf (s : Style) (a : Atom Unit) (text : String) : s.piece (.var a) text =
    ⟨if s.table.isOperator a then bracket text else text,
      if (Term.var a).isNegative then bracket text
      else if s.table.isOperator a then bracket text else text⟩ := rfl

theorem leaf_spoken (hT : T.Legible) {a : Atom Unit} (ha : T.Leaf a) (r? : Option PlainTerm) :
    Spoken T (piece ⟨T, unicode⟩ (.var a) (atomText ⟨T, unicode⟩ a)) (T.heard (.var a) r?) := by
  have hshows := ha.shows hT unicode
  have hop : (Style.mk T unicode).table.isOperator a = _ := T.isOperator_eq a
  rw [piece_leaf, hop, OperatorTable.heard]
  generalize T.role a = role at hshows
  cases hshows with
  | name hkind hreads hnegative =>
    rw [hnegative]
    exact spoken_of_unit ((scans_word hkind).mono fun ts ⟨offset, hts⟩ => hts ▸ hreads offset)
  | @numeral digits hkind ha htext =>
    rw [htext]
    subst ha
    have hplain := numeral_reads hT hkind
    have hbracket := bracket_numeral hT hkind
    cases hnegative : (Term.var (Atom.plain ("-" ++ digits))).isNegative with
    | true => exact ⟨hplain.mono fun _ hts => hts.2,
        hbracket.mono fun _ hts => ⟨hts, hts.toReadsOperand⟩⟩
    | false => exact ⟨hplain.mono fun _ hts => hts.2, hplain⟩
  | between hword hpower hbefore =>
    have hunit := spoken_of_unit (bracket_operator hword)
    cases (Term.var a).isNegative <;> exact hunit
  | before hword hbefore =>
    have hunit := spoken_of_unit (bracket_operator hword)
    cases (Term.var a).isNegative <;> exact hunit

/-! ### Calls and abstractions -/

/-- The text of a leaf, where a term ends. -/
theorem leaf_reads (hT : T.Legible) {a : Atom Unit} (ha : T.Leaf a) :
    Scans (atomText ⟨T, unicode⟩ a).toList fun ts => ReadsTerm T ts (T.reread (.var a) []) := by
  have hshows := ha.shows hT unicode
  have hop := T.isOperator_eq a
  rw [OperatorTable.reread]
  generalize T.role a = role at hshows hop
  cases hshows with
  | name hkind hreads hnegative =>
    rw [hop]
    exact (scans_word hkind).mono fun ts ⟨offset, hts⟩ => hts ▸ (hreads offset).readsTerm
  | @numeral digits hkind ha htext =>
    rw [hop, htext, ha]
    exact (numeral_reads hT hkind).mono fun ts hts => hts.2.readsTerm
  | @between kind hword hpower hbefore =>
    rw [hop]
    refine (scans_word hword.word).mono ?_
    rintro _ ⟨offset, rfl⟩
    exact readsTerm_operator hT.minus hword.name (symbol_of_minus hword.word)
      (.inr (hpower offset).2)
  | @before kind hword hbefore =>
    rw [hop]
    refine (scans_word hword.word).mono ?_
    rintro _ ⟨offset, rfl⟩
    exact readsTerm_operator hT.minus hword.name (symbol_of_minus hword.word) (.inl hbefore)

/-- An operand and the arguments after it, in brackets. -/
theorem call_reads (hT : T.Legible) {text : String} {r? : Option PlainTerm}
    (hhead : Scans text.toList fun ts => ReadsOperand T ts r?) {ps : List Piece} {hs : List Heard}
    (h : List.Forall₂ (Spoken T) ps hs) (hps : ps ≠ []) :
    Scans (bracket (text ++ spread ps)).toList fun ts =>
      ReadsUnit T ts true (r?.bind fun r => rowTerm none r (hs.map Heard.item)) := by
  have hne : hs.map Heard.item ≠ [] := by
    cases h with
    | nil => exact absurd rfl hps
    | cons _ _ => simp
  refine bracket_reads ?_
  rw [String.toList_append]
  refine (hhead.append (spread_reads h) fun rest hrest => apart_spread ps hrest).mono ?_
  rintro _ ⟨us, vs, hus, hvs, rfl⟩
  exact readsGroup_row hT.minus hus hvs hne

/-- Without an operator between its arguments, a leaf stands before them. -/
theorem printApplied_leaf {ι : Type} {s : Style} {a : Atom ι} (hinf : s.table.isInfix a = false)
    {ps : List Piece} (hps : ps ≠ []) :
    s.printApplied (.var a) ps = bracket (s.atomText a ++ spread ps) := by
  match ps with
  | [] => exact absurd rfl hps
  | [p] => simp [printApplied, hinf]
  | p :: q :: rest => simp [printApplied, hinf]

/-- An operator before its arguments. -/
theorem before_reads (hT : T.Legible) {a : Atom Unit} {kind : TokenKind} {text : String}
    (hword : OperatorWord T a kind text) (hbefore : T.isBefore text = true) {p : Piece} {h : Heard}
    (hp : Spoken T p h) {ps : List Piece} {hs : List Heard} (hps : List.Forall₂ (Spoken T) ps hs) :
    Scans (bracket (text ++ spread (p :: ps))).toList fun ts => ReadsUnit T ts true
      ((h.operand.bind fun r => absorb beforePower r (hs.map Heard.item)).bind fun q =>
        rowTerm none (.call (.var a) q.1) q.2) := by
  refine bracket_reads ?_
  rw [String.toList_append, spread_cons]
  have hrest := hp.argument.blank.append (spread_reads hps) fun rest hrest => apart_spread ps hrest
  refine ((scans_word hword.word).append hrest fun rest _ => apart_blank _).mono ?_
  · rintro _ ⟨_, _, ⟨offset, rfl⟩, ⟨us, vs, hus, hvs, rfl⟩, rfl⟩
    have hgroup := readsGroup_before (t := ⟨kind, text, offset⟩) hT.minus hword.name hbefore hus.2
      hvs
    rwa [hword.leaf] at hgroup

/-- An operator between two arguments, without the brackets. -/
theorem core_reads {a : Atom Unit} {kind : TokenKind} {text : String}
    (hword : OperatorWord T a kind text)
    (hpower : ∀ offset, endPower < T.tokenPower ⟨kind, text, offset⟩ ∧
      T.tokenPower ⟨kind, text, offset⟩ < namePower)
    (hbefore : T.isBefore text = false) {p q : Piece} {h k : Heard} (hp : Spoken T p h)
    (hq : Spoken T q k) :
    Scans (bracket (p.operand ++ " " ++ text ++ " " ++ q.operand)).toList fun ts =>
      ReadsUnit T ts true (h.operand.bind fun l => k.operand.map fun r => .callBetween l (.var a) r) := by
  refine bracket_reads ?_
  have hlist : (p.operand ++ " " ++ text ++ " " ++ q.operand).toList =
      p.operand.toList ++ ' ' :: (text.toList ++ ' ' :: q.operand.toList) := by
    simp [String.toList_append]
  have hright := (scans_word hword.word).append hq.operand.blank fun rest _ => apart_blank _
  rw [hlist]
  refine (hp.operand.append hright.blank fun rest _ => apart_blank _).mono ?_
  rintro _ ⟨us, _, hus, ⟨_, vs, ⟨offset, rfl⟩, hvs, rfl⟩, rfl⟩
  have hgroup := readsGroup_between (t := ⟨kind, text, offset⟩) hus hvs
    (ne_bracket hword.word hword.not_closing) (hpower offset).1 (hpower offset).2 hbefore
  rwa [hword.leaf] at hgroup

/-- An operator between its arguments. -/
theorem between_reads (hT : T.Legible) {a : Atom Unit}
    (hshows : Shows ⟨T, unicode⟩ a .between) (hrole : T.role a = .between) {ps : List Piece}
    {hs : List Heard} (h : List.Forall₂ (Spoken T) ps hs) (hps : ps ≠ []) :
    Scans (printApplied ⟨T, unicode⟩ (.var a) ps).toList fun ts =>
      ReadsUnit T ts true (T.reread (.var a) hs) := by
  have hinf : (Style.mk T unicode).table.isInfix a = true := OperatorTable.role_eq_between.1 hrole
  obtain ⟨⟩ | ⟨⟩ | @⟨kind, hword, hpower, hbefore⟩ | ⟨⟩ := hshows
  cases h with
  | nil => exact absurd rfl hps
  | @cons p h ps hs hp hrest =>
  cases hrest with
  | nil =>
    simp only [printApplied, hinf, if_true, OperatorTable.reread, hrole]
    refine bracket_reads ?_
    have hlist : (p.operand ++ " " ++ atomText ⟨T, unicode⟩ a).toList =
        p.operand.toList ++ ' ' :: (atomText ⟨T, unicode⟩ a).toList := by
      simp [String.toList_append]
    rw [hlist]
    refine (hp.operand.append (scans_word hword.word).blank fun rest _ => apart_blank _).mono ?_
    rintro _ ⟨us, _, hus, ⟨offset, rfl⟩, rfl⟩
    have hgroup := readsGroup_section (t := ⟨kind, atomText ⟨T, unicode⟩ a, offset⟩) hus
      (ne_bracket hword.word hword.not_closing) (hpower offset).1 (hpower offset).2 hbefore
    rwa [hword.leaf] at hgroup
  | @cons q k ps hs hq hrest =>
    have hcore := core_reads hword hpower hbefore hp hq
    simp only [printApplied, hinf, if_true, OperatorTable.reread, hrole]
    cases hrest with
    | nil =>
      refine hcore.mono ?_
      intro ts hts
      cases hl : h.operand <;> cases hr : k.operand <;>
        simpa [hl, hr, rowTerm, subtract] using hts
    | cons hx hxs =>
      have hcall := call_reads hT (hcore.mono fun ts hts => hts.toReadsOperand) (.cons hx hxs)
        (List.cons_ne_nil _ _)
      refine hcall.mono ?_
      intro ts hts
      cases hl : h.operand <;> cases hr : k.operand <;> simpa [hl, hr] using hts

/-- A call of a leaf. -/
theorem leaf_call_reads (hT : T.Legible) {a : Atom Unit} (ha : T.Leaf a) {ps : List Piece}
    {hs : List Heard} (h : List.Forall₂ (Spoken T) ps hs) (hps : ps ≠ []) :
    Scans (printApplied ⟨T, unicode⟩ (.var a) ps).toList fun ts =>
      ReadsUnit T ts true (T.reread (.var a) hs) := by
  have hshows := ha.shows hT unicode
  have hne : hs ≠ [] := by
    rintro rfl
    cases h
    exact hps rfl
  obtain ⟨k, ks, rfl⟩ := List.exists_cons_of_ne_nil hne
  by_cases hrole : T.role a = .between
  · rw [hrole] at hshows
    exact between_reads unicode hT hshows hrole h hps
  · have hinf : (Style.mk T unicode).table.isInfix a = false := by
      rw [OperatorTable.role_eq_between] at hrole
      simpa using hrole
    rw [printApplied_leaf hinf hps]
    generalize hown : T.role a = role at hshows
    cases hshows with
    | name hkind hreads hnegative =>
      have hhead := (scans_word hkind).mono (Q := fun ts => ReadsOperand T ts (some (.var a)))
        fun ts ⟨offset, hts⟩ => hts ▸ (hreads offset).toReadsOperand
      simp only [OperatorTable.reread, hown]
      exact call_reads hT hhead h hps
    | @numeral digits hkind ha htext =>
      have hhead := (numeral_reads hT hkind).mono fun ts hts => hts.2
      simp only [OperatorTable.reread, hown]
      rw [htext, ha]
      exact call_reads hT hhead h hps
    | between => exact absurd hown hrole
    | before hword hbefore =>
      simp only [OperatorTable.reread, hown]
      cases h with
      | cons hp hrest => exact before_reads hT hword hbefore hp hrest

/-- The tokens of an abstraction are those of its body behind the binder. -/
theorem scans_brace {b : String} (hkind : kind? b = some .ident) {text : List Char}
    {P : List Token → Prop} (h : Scans text P) :
    Scans ("\x7b".toList ++ (b.toList ++ (".".toList ++ ' ' :: text) ++ "\x7d".toList)) fun ts =>
      ∃ o i d c us, P us ∧ ts = ⟨.opening, "\x7b", o⟩ :: ⟨.ident, b, i⟩ :: ⟨.symbol, ".", d⟩ ::
        (us ++ [⟨.closing, "\x7d", c⟩]) := by
  have hsymbol : kind? "." = some .symbol := by decide
  have hdot := Scans.cons_word hsymbol h.blank fun rest _ c hc => by
    cases hc
    decide
  have hbinder := Scans.cons_word hkind hdot fun rest _ c hc => by
    cases hc
    decide
  refine (hbinder.enclose (o := "\x7b") (c := "\x7d") (by decide) (by decide) apart_brace).mono ?_
  rintro _ ⟨o, c, _, ⟨i, _, ⟨d, us, hus, rfl⟩, rfl⟩, rfl⟩
  exact ⟨o, i, d, c, us, hus, rfl⟩

theorem brace_toList (b text : String) : ("\x7b" ++ b ++ ". " ++ text ++ "\x7d").toList =
    "\x7b".toList ++ (b.toList ++ (".".toList ++ ' ' :: text.toList) ++ "\x7d".toList) := by
  simp [String.toList_append]

/-- A text behind a binder. -/
theorem brace_reads {b : Atom Unit} (hb : b.IsBinder) {text : String} {r? : Option PlainTerm}
    (h : Scans text.toList fun ts => ReadsTerm T ts r?) :
    Scans ("\x7b" ++ b.shown ++ ". " ++ text ++ "\x7d").toList fun ts =>
      ReadsUnit T ts true (r?.map fun r => .lambda b.name r) := by
  obtain ⟨hplain, hkind, hvariable⟩ := hb
  have hshown : b.shown = b.name := by rw [hplain]; rfl
  rw [brace_toList, hshown]
  refine (scans_brace hkind h).mono ?_
  rintro _ ⟨o, i, d, c, us, hus, rfl⟩
  exact readsUnit_brace hvariable hus o i d c

/-- **What a printed term is read as**, by induction on the term. -/
theorem printApplied_reads (hT : T.Legible) {m : PlainTerm} (hm : m.Written T) {ps : List Piece}
    {hs : List Heard} (h : List.Forall₂ (Spoken T) ps hs) (hps : m.isLeaf → ps ≠ []) :
    Scans (printApplied ⟨T, unicode⟩ m ps).toList fun ts =>
      ReadsUnit T ts true (T.reread m hs) := by
  induction m generalizing ps hs with
  | var a => exact leaf_call_reads unicode hT hm h (hps rfl)
  | app tag f x ihf ihx =>
    -- a call adds its argument to those that its function is printed with
    refine ihf hm.1 (.cons ?_ h) (by simp)
    cases x with
    | var a => exact leaf_spoken unicode hT hm.2 _
    | app tag g y => exact spoken_of_unit (ihx hm.2 .nil nofun)
    | abs tag b body => exact spoken_of_unit (ihx hm.2 .nil nofun)
  | abs tag b body ih =>
    have hbody : Scans (printApplied ⟨T, unicode⟩ body []).toList fun ts =>
        ReadsTerm T ts (T.reread body []) := by
      -- a leaf is read up to the closing brace, all else is in brackets of its own
      cases body with
      | var a => exact leaf_reads unicode hT hm.2
      | app tag f x => exact (ih hm.2 .nil nofun).mono fun ts hts => hts.readsTerm
      | abs tag c n => exact (ih hm.2 .nil nofun).mono fun ts hts => hts.readsTerm
    have hbrace := brace_reads hm.1 hbody
    cases h with
    | nil =>
      refine hbrace.mono ?_
      intro ts hts
      cases hr : T.reread body [] <;> simpa [hr, OperatorTable.reread, rowTerm, subtract] using hts
    | cons hp hrest =>
      have hcall := call_reads hT (hbrace.mono fun ts hts => hts.toReadsOperand) (.cons hp hrest)
        (List.cons_ne_nil _ _)
      refine hcall.mono ?_
      intro ts hts
      cases hr : T.reread body [] <;> simpa [hr, OperatorTable.reread] using hts

/-! ### Whole texts -/

theorem print_reads (hT : T.Legible) {m : PlainTerm} (hm : m.Written T) :
    Scans (print ⟨T, unicode⟩ m).toList fun ts => ReadsTerm T ts (T.reread m []) := by
  cases m with
  | var a => exact leaf_reads unicode hT hm
  | app tag f x =>
    exact (printApplied_reads unicode hT hm .nil nofun).mono fun ts hts => hts.readsTerm
  | abs tag b body =>
    exact (printApplied_reads unicode hT hm .nil nofun).mono fun ts hts => hts.readsTerm

theorem eq_ok_of_toOption {β : Type} {x : Except Fault β} {b : β} (h : x.toOption = some b) :
    x = .ok b := by
  cases x with
  | error e => cases h
  | ok b' =>
    cases h
    rfl

/-- A whole text is read as a term wherever there is enough room. -/
theorem whole_print (hT : T.Legible) {m : PlainTerm} (hm : m.Written T) :
    Settles (fun n => whole T n (scan (print ⟨T, unicode⟩ m))) (T.reread m []) := by
  obtain ⟨ts, hts, hscan⟩ := print_reads unicode hT hm 0 [] nofun
  have hstream : scan (print ⟨T, unicode⟩ m) = ⟨ts, none⟩ := by
    rw [List.append_nil] at hscan
    rw [scan, hscan, scanFrom_nil]
    simp
  have hterm := hts [] nofun
  rw [List.append_nil] at hterm
  have hwhole := hterm.bind (g := fun _ b => do
    finish false b.2
    return b.1) (q := fun b => some b.1) ?_
  · rw [hstream]
    cases hr : T.reread m [] <;> rw [hr] at hwhole <;> exact hwhole
  · rintro b hb
    obtain ⟨r, -, rfl⟩ := Option.map_eq_some_iff.1 hb
    exact settles_pure r

/-- **A printed term is read as what it is reread as**, under every limit that is high enough. -/
theorem parse_print (hT : T.Legible) {m r : PlainTerm} (hm : m.Written T)
    (hr : T.reread m [] = some r) :
    ∃ least, ∀ limit ≥ least, Term.parse T limit (print ⟨T, unicode⟩ m) = .ok r := by
  obtain ⟨least, hleast⟩ := whole_print unicode hT hm
  refine ⟨least, fun limit hlimit => Term.parse_eq_ok.2 ?_⟩
  exact eq_ok_of_toOption (by rw [hleast limit hlimit, hr])

/-- A printed term is read as no other term under any limit. -/
theorem reread_of_parse (hT : T.Legible) {m r : PlainTerm} (hm : m.Written T) {limit : Nat}
    (h : Term.parse T limit (print ⟨T, unicode⟩ m) = .ok r) : T.reread m [] = some r := by
  have hsettles : Settles (fun n => whole T n (scan (print ⟨T, unicode⟩ m))) (some r) := by
    refine ⟨limit, ?_⟩
    intro room hroom
    have hroom := Term.parse_eq_ok.1 (Term.parse_mono h hroom)
    exact congrArg Except.toOption hroom
  exact (whole_print unicode hT hm).unique hsettles

end Style

end ProofKernel
