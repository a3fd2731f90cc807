import Mathlib.Algebra.Group.Prod
import Mathlib.Algebra.Order.Group.Multiset
import Mathlib.Tactic.Abel
import ProofKernel.Proofs.Precedence
import ProofKernel.Proofs.Readers

/-!
# Words of texts and names of terms

Reading loses no word and makes none up: the words of a text are the names that its term shows and a
dot for each abstraction. A minus sign where an operand is due is no word of its own, but one with the
digits that it touches, or the negation.

* `OperatorTable.Position`: where a token stands, as the tokens before it say;
* `OperatorTable.words`: the words of a row of tokens;
* `OperatorTable.account`, `Term.account`: the words and opening braces of a row, and what a term has
  of them;
* `Parser.keepsWords`: the readers account for the tokens that they take;
* `Term.parse_words`: so the words of a text are those of its term.
-/

namespace ProofKernel

open ProofKernel.Token ProofKernel.Parser

namespace OperatorTable

variable (T : OperatorTable)

/-! ## Words -/

/-- Where a token stands, as the tokens before it say. -/
inductive Position where
  /-- Where an operand is due: at the start, or after an operator or the dot of an abstraction. -/
  | due
  /-- After an opening parenthesis. -/
  | parenthesis
  /-- After an opening brace, where a bound name stands. -/
  | brace
  /-- After a bound name, where its dot stands. -/
  | bound
  /-- After the minus sign of a number. -/
  | sign
  /-- After an operand. -/
  | behind
deriving DecidableEq, Repr

/-- The position after an opening bracket. -/
def afterOpening (text : String) : Position :=
  if text = "(" then .parenthesis else if text = "\x7b" then .brace else .due

/-- The position after an identifier or a symbol: an operand is due after operators. -/
def afterWord (text : String) : Position :=
  if T.isBefore text || T.power text < namePower then .due else .behind

/-- The text that an identifier or a symbol is shown as: the symbol of an operator in place of its
second spelling. -/
def spelling (text : String) : Name :=
  match T.get? text with
  | some op => if op.unicode? = some text then op.symbol else text
  | none => text

/-- A minus sign that is no operator before its operand is one of a number, or the negation, where an
operand is due and it does not stand alone in parentheses. -/
def isSign (p : Position) (t : Token) (ts : List Token) : Bool :=
  t.text == "-" && !T.isBefore "-" &&
    (p == .due || p == .parenthesis && !ts.head?.any fun u => u.text == ")")

/-- What a token adds to the words, before other tokens, and the position after it. Brackets add
nothing, and bound names and their dots are not looked up. -/
def wordStep (p : Position) (t : Token) (ts : List Token) : List Name × Position :=
  match t.kind with
  | .opening => ([], afterOpening t.text)
  | .closing => ([], .behind)
  | .number => ([if p = .sign then "-" ++ t.text else t.text], .behind)
  | .quoted => ([t.text], .behind)
  | .ident | .symbol =>
    match p with
    | .brace => ([t.text], .bound)
    | .bound => ([t.text], .due)
    | p =>
      if T.isSign p t ts then
        if (adjacentNumber t ts).isSome then ([], .sign) else (["neg"], .due)
      else ([T.spelling t.text], T.afterWord t.text)

/-- The words of a row of tokens: identifiers, numerals, string literals and symbols as they are
shown. The minus sign of an operand makes one word with the number that directly follows it, and is
the negation if none does. -/
def words : Position → List Token → List Name
  | _, [] => []
  | p, t :: ts => (T.wordStep p t ts).1 ++ words (T.wordStep p t ts).2 ts

/-- Opening braces, one for each abstraction. -/
def isBrace (t : Token) : Bool := t.kind = .opening ∧ t.text = "\x7b"

/-! ## Accounts -/

/-- The words and the number of opening braces of a row of tokens. -/
def account (p : Position) (ts : List Token) : Multiset Name × Nat :=
  (T.words p ts, ts.countP isBrace)

end OperatorTable

/-- The names that a term shows with one dot for each abstraction, and the number of abstractions. -/
def Term.account (m : PlainTerm) : Multiset Name × Nat :=
  (m.atoms.map Atom.shown + Multiset.replicate m.binders ".", m.binders)

section Terms

variable (f x m : PlainTerm)

theorem Term.account_call : (call f x).account = f.account + x.account := by
  simp only [account, call, atoms, binders, List.map_append, Prod.mk_add_mk, Multiset.replicate_add,
    ← Multiset.coe_add]
  exact Prod.ext (add_add_add_comm ..) rfl

theorem Term.account_callBetween (op : PlainTerm) :
    (callBetween f op x).account = f.account + op.account + x.account := by
  rw [callBetween, account_call, account_call, add_comm op.account]

theorem Term.account_lambda (b : Name) :
    (lambda b m).account = ({b}, 0) + ({"."}, 0) + (0, 1) + m.account := by
  have hcons : (((lambda b m).atoms.map Atom.shown : List Name) : Multiset Name) =
      {b} + (m.atoms.map Atom.shown : List Name) := rfl
  have hbinders : (lambda b m).binders = 1 + m.binders := Nat.add_comm ..
  simp only [account, hcons, hbinders, Multiset.replicate_add, Multiset.replicate_one,
    Prod.mk_add_mk]
  refine Prod.ext ?_ (by simp)
  simp only [add_zero]
  exact add_add_add_comm ..

theorem Term.account_var (a : Atom Unit) : (Term.var a).account = ({a.shown}, 0) := rfl

theorem Term.account_leaf (T : OperatorTable) (text : String) :
    (T.leaf text).account = ({T.spelling text}, 0) := by
  unfold OperatorTable.leaf OperatorTable.spelling
  cases T.get? text with
  | some op =>
    dsimp only
    rw [aliased, account_var, OperatorTable.shown_aliased]
  | none => rfl

end Terms

/-! ### The account of a row -/

namespace OperatorTable

variable {T : OperatorTable} {p : Position} {t : Token} {ts : List Token}

theorem account_cons : T.account p (t :: ts) =
    (((T.wordStep p t ts).1 : Multiset Name), if isBrace t then 1 else 0) +
      T.account (T.wordStep p t ts).2 ts := by
  simp only [account, words, List.countP_cons, Prod.mk_add_mk, Multiset.coe_add, Nat.add_comm]

/-- Tokens that are no opening brackets are no braces. -/
theorem account_word {q : Position} {ws : List Name} (hkind : t.kind ≠ .opening)
    (h : T.wordStep p t ts = (ws, q)) :
    T.account p (t :: ts) = ((ws : Multiset Name), 0) + T.account q ts := by
  have hbrace : isBrace t = false := by simp [isBrace, hkind]
  simp [account_cons, h, hbrace]

theorem account_opening (h : t.kind = .opening) : T.account p (t :: ts) =
    (0, if t.text = "\x7b" then 1 else 0) + T.account (afterOpening t.text) ts := by
  simp [account_cons, wordStep, isBrace, h]

theorem account_closing (h : t.kind = .closing) :
    T.account p (t :: ts) = T.account .behind ts := by
  have hstep : T.wordStep p t ts = ([], .behind) := by simp [wordStep, h]
  rw [account_word (by simp [h]) hstep]
  exact zero_add _

theorem account_literal (h : t.kind = .number ∨ t.kind = .quoted) (hp : p ≠ .sign) :
    T.account p (t :: ts) = ({t.text}, 0) + T.account .behind ts := by
  have hstep : T.wordStep p t ts = ([t.text], .behind) := by
    rcases h with h | h <;> simp [wordStep, h, hp]
  exact account_word (by rcases h with h | h <;> simp [h]) hstep

section Names

variable (h : IsName t)

include h

theorem account_bound : T.account .brace (t :: ts) = ({t.text}, 0) + T.account .bound ts := by
  have hstep : T.wordStep .brace t ts = ([t.text], .bound) := by
    rcases h with h | h <;> simp [wordStep, h]
  exact account_word h.ne_opening hstep

theorem account_dot : T.account .bound (t :: ts) = ({t.text}, 0) + T.account .due ts := by
  have hstep : T.wordStep .bound t ts = ([t.text], .due) := by
    rcases h with h | h <;> simp [wordStep, h]
  exact account_word h.ne_opening hstep

theorem account_name (hp : p ≠ .brace ∧ p ≠ .bound) (hsign : T.isSign p t ts = false) :
    T.account p (t :: ts) = ({T.spelling t.text}, 0) + T.account (T.afterWord t.text) ts := by
  have hstep : T.wordStep p t ts = ([T.spelling t.text], T.afterWord t.text) := by
    rcases h with h | h <;> cases p <;> simp_all [wordStep]
  exact account_word h.ne_opening hstep

theorem account_negation (hp : p ≠ .brace ∧ p ≠ .bound) (hsign : T.isSign p t ts = true)
    (hnumber : adjacentNumber t ts = none) :
    T.account p (t :: ts) = ({"neg"}, 0) + T.account .due ts := by
  have hstep : T.wordStep p t ts = (["neg"], .due) := by
    rcases h with h | h <;> cases p <;> simp_all [wordStep]
  exact account_word h.ne_opening hstep

theorem account_numeral {u : Token} {us : List Token} (hp : p ≠ .brace ∧ p ≠ .bound)
    (hsign : T.isSign p t ts = true) (hnumber : adjacentNumber t ts = some (u, us)) :
    T.account p (t :: ts) = ({"-" ++ u.text}, 0) + T.account .behind us := by
  obtain ⟨rfl, hkind⟩ := adjacentNumber_eq_some hnumber
  have hsigned : T.wordStep p t (u :: us) = ([], .sign) := by
    rcases h with h | h <;> cases p <;> simp_all [wordStep]
  have hstep : T.wordStep .sign u us = (["-" ++ u.text], .behind) := by simp [wordStep, hkind]
  rw [account_word h.ne_opening hsigned, account_word (by simp [hkind]) hstep]
  exact zero_add _

end Names

/-- Behind an operand and where one is due, a token that is no minus sign adds the same. -/
theorem account_behind (h : T.isSign .due t ts = false) :
    T.account .behind (t :: ts) = T.account .due (t :: ts) := by
  have hstep : T.wordStep .behind t ts = T.wordStep .due t ts := by
    have hbehind : T.isSign .behind t ts = false := by simp [isSign]
    cases hkind : t.kind <;> simp [wordStep, hkind, h, hbehind]
  rw [account_cons, account_cons, hstep]

/-- A minus sign that is no operator before its operand binds less tightly than names. -/
theorem Built.power_minus (hT : T.Built) (h : T.isBefore "-" = false) : T.power "-" < namePower := by
  have hlink : T.IsLink ⟨.symbol, "-", 0⟩ := by
    cases hget : T.get? "-" with
    | none => exact .inr ⟨rfl, hget⟩
    | some op =>
      refine .inl ⟨.inr rfl, op, hget, ?_⟩
      cases hfixity : op.fixity with
      | between => rfl
      | before => simp [isBefore, hget, hfixity] at h
  exact (hlink.power (by decide +kernel) hT).2.2.1

end OperatorTable

namespace Parser

open OperatorTable

/-! ## The parts of the readers -/

/-- Where an operand may begin. -/
def IsDue (p : Position) : Prop := p = .due ∨ p = .parenthesis

/-- With what was there before, the tokens from a position on account for what a reader gives and for
the tokens that it leaves. -/
def Keeps (T : OperatorTable) (before : Multiset Name × Nat) (p : Position) (f : Reader PlainTerm) :
    Prop :=
  ∀ ts, Lexed ts → Holds (f ts) fun b =>
    before + T.account p ts = b.1.account + T.account .behind b.2 ∧ Lexed b.2

/-- A reader of operands gives a term that accounts for the tokens that it takes from a position, or
none and takes no token. -/
def Takes (T : OperatorTable) (p : Position) (ts : List Token) :
    Option PlainTerm × List Token → Prop
  | (some m, us) => T.account p ts = m.account + T.account .behind us ∧ Lexed us
  | (none, us) => us = ts

section Parts

variable {T : OperatorTable} {stuck : Bool} {p : Position} {ts : List Token}

theorem sequence_keeps {o : Reader (Option PlainTerm)} {c : PlainTerm → Reader PlainTerm}
    (ho : ∀ ts, Lexed ts → Holds (o ts) (Takes T p ts))
    (hc : ∀ m : PlainTerm, Keeps T m.account .behind (c m)) : Keeps T 0 p (sequence stuck o c) := by
  intro ts hts
  refine sequence_rule ((ho ts hts).mono ?_)
  rintro ⟨_, us⟩ htakes left rfl
  rw [zero_add, htakes.1]
  exact hc left us htakes.2

variable {inner : Reader PlainTerm}

theorem grouped_keeps (h : Keeps T 0 p inner) : Keeps T 0 p (grouped stuck inner) := by
  intro ts hts
  refine (h ts hts).bind ?_
  rintro ⟨m, us⟩ ⟨hm, hus⟩
  refine (expect_holds .closing ")").bind ?_
  rintro ⟨⟨⟩, vs⟩ ⟨t, rfl, hkind, -⟩
  rw [account_closing hkind] at hm
  exact holds_ok ⟨hm, (List.forall_mem_cons.1 hus).2⟩

/-- A bound name has been read, and the brace before it. -/
theorem body_keeps (h : Keeps T 0 .due inner) (bound : Name) :
    Keeps T (({bound}, 0) + (0, 1)) .bound (body stuck inner bound) := by
  intro ts hts
  refine (expect_holds .symbol ".").bind ?_
  rintro ⟨⟨⟩, us⟩ ⟨dot, rfl, hdot, htext⟩
  refine (h us (List.forall_mem_cons.1 hts).2).bind ?_
  rintro ⟨m, vs⟩ ⟨hm, hvs⟩
  refine (expect_holds .closing "\x7d").bind ?_
  rintro ⟨⟨⟩, ws⟩ ⟨close, rfl, hclose, -⟩
  refine holds_ok ⟨?_, (List.forall_mem_cons.1 hvs).2⟩
  rw [zero_add, account_closing hclose] at hm
  dsimp only at hm ⊢
  rw [account_dot (.inr hdot), htext, hm, Term.account_lambda]
  abel

theorem kind_of_close {t : Token} (htext : t.text = ")") (h : kind? t.text = some t.kind) :
    t.kind = .closing := by
  rw [htext] at h
  exact (Option.some.inj h).symm

/-- After an opening brace: a bound name, its dot and the body. -/
theorem abstraction_keeps (h : Keeps T 0 .due inner) :
    Keeps T (0, 1) .brace (abstraction stuck inner) := by
  intro ts hts
  refine abstraction_rule ?_
  rintro bound us rfl hkind -
  rw [account_bound (.inl hkind), ← add_assoc, add_comm (0, 1)]
  exact body_keeps h bound.text us (List.forall_mem_cons.1 hts).2

/-- What an opening bracket encloses: an operator on its own, a term or an abstraction. -/
theorem bracketed_keeps (t : Token) (h : ∀ p, IsDue p → Keeps T 0 p inner) :
    Keeps T (0, if t.text = "\x7b" then 1 else 0) (afterOpening t.text)
      (bracketed T stuck inner t) := by
  intro ts hts
  refine bracketed_rule ?lone ?group ?brace
  case lone =>
    rintro op close us htext rfl hop hclose
    obtain ⟨-, hts⟩ := List.forall_mem_cons.1 hts
    obtain ⟨hword, hus⟩ := List.forall_mem_cons.1 hts
    have hkind : close.kind = .closing := kind_of_close hclose hword
    have hsign : T.isSign .parenthesis op (close :: us) = false := by simp [isSign, hclose]
    have haccount : T.account .parenthesis (op :: close :: us) =
        (T.leaf op.text).account + T.account .behind us := by
      rw [account_name (isName_of_bare hop) (by decide) hsign, account_closing hkind,
        Term.account_leaf]
    refine ⟨?_, hus⟩
    rw [htext, if_neg (by decide), afterOpening, if_pos rfl, haccount]
    exact zero_add _
  case group =>
    intro htext
    rw [htext, if_neg (by decide), afterOpening, if_pos rfl]
    exact grouped_keeps (h .parenthesis (.inr rfl)) ts hts
  case brace =>
    intro htext
    rw [htext, if_pos rfl, afterOpening, if_neg (by decide), if_pos rfl]
    exact abstraction_keeps (h .due (.inl rfl)) ts hts

end Parts

/-! ## The two readers -/

/-- With room for so many levels the two readers account for the tokens that they take. -/
structure KeepsWords (T : OperatorTable) (stuck : Bool) (n : Nat) : Prop where
  operand : ∀ p, IsDue p → ∀ ts, Lexed ts → Holds (operand T stuck n ts) (Takes T p ts)
  chain : ∀ q after (left : PlainTerm), Keeps T left.account .behind (chain T stuck n q after left)

section Step

variable {T : OperatorTable} {stuck : Bool} {n : Nat} {p : Position} {t : Token} {ts : List Token}

theorem KeepsWords.subterm (h : KeepsWords T stuck n) (hp : IsDue p) (q : Nat) :
    Keeps T 0 p (subterm T stuck n q) :=
  sequence_keeps (h.operand p hp) (h.chain q false)

/-- An operator before its operand has been read. -/
theorem KeepsWords.operation (h : KeepsWords T stuck n) {op : PlainTerm} (hts : Lexed ts)
    (hop : T.account p (t :: ts) = op.account + T.account .due ts) :
    Holds (operation T stuck op n ts) (Takes T p (t :: ts)) := by
  refine (sequence_keeps (h.operand .due (.inl rfl)) (h.chain beforePower true) ts hts).bind ?_
  rintro ⟨m, us⟩ ⟨hm, hus⟩
  refine holds_ok ⟨?_, hus⟩
  rw [zero_add] at hm
  rw [hop, hm, Term.account_call, add_assoc]

/-- No operand begins with a closing bracket. -/
theorem operation_closing (op : PlainTerm) (h : t.kind = .closing) :
    operation T stuck op n (t :: ts) = .error (.refused .expectedTerm t) := by
  unfold Parser.operation sequence
  rw [operand_closing h]
  rfl

/-- Where an operand may begin, a minus sign that is no operator before its operand is followed by a
closing parenthesis if it is no sign. -/
theorem isSign_or_close (ts : List Token) (hp : IsDue p) (hminus : t.text = "-")
    (hbefore : T.isBefore "-" = false) :
    T.isSign p t ts = true ∨ ∃ u us, ts = u :: us ∧ u.text = ")" := by
  rcases hp with rfl | rfl
  · exact .inl (by simp [isSign, hminus, hbefore])
  · cases ts with
    | nil => exact .inl (by simp [isSign, hminus, hbefore])
    | cons u us =>
      by_cases htext : u.text = ")"
      · exact .inr ⟨u, us, rfl, htext⟩
      · exact .inl (by simp [isSign, hminus, hbefore, htext])

variable (ih : ∀ k, n = k + 1 → KeepsWords T stuck k)

include ih

/-- A minus sign that is no operator before its operand has been read. -/
theorem minus_keeps (hp : IsDue p) (hts : Lexed ts) (hname : IsName t) (hminus : t.text = "-")
    (hbefore : T.isBefore "-" = false) : Holds (minus T stuck t n ts) (Takes T p (t :: ts)) := by
  have hplace : p ≠ .brace ∧ p ≠ .bound := by rcases hp with rfl | rfl <;> decide
  -- a closing parenthesis is no number and begins no operand
  rcases isSign_or_close ts hp hminus hbefore with hsign | ⟨u, us, rfl, htext⟩
  · refine minus_rule ?_ ?_
    · rintro u us rfl - hnumber
      have hus := (List.forall_mem_cons.1 hts).2
      exact ⟨account_numeral hname hplace hsign hnumber, hus⟩
    · intro k hnumber hk
      exact (ih k hk).operation hts (account_negation hname hplace hsign hnumber)
  · have hkind : u.kind = .closing := kind_of_close htext (List.forall_mem_cons.1 hts).1
    refine minus_rule ?_ ?_
    · rintro _ _ ⟨⟩ hnumber -
      rw [hkind] at hnumber
      cases hnumber
    · intro k _ _
      rw [operation_closing _ hkind]
      exact holds_error

theorem operand_keeps (hp : IsDue p) (ts : List Token) (hts : Lexed ts) :
    Holds (operand T stuck n ts) (Takes T p ts) := by
  have hplace : p ≠ .brace ∧ p ≠ .bound := by rcases hp with rfl | rfl <;> decide
  refine operand_rule ?none ?enclosed ?literal ?before ?minus ?leaf
  case none => exact rfl
  case enclosed =>
    rintro t us k rfl hkind hk
    have hus := (List.forall_mem_cons.1 hts).2
    refine (bracketed_keeps t (fun p hp => (ih k hk).subterm hp endPower) us hus).bind ?_
    rintro ⟨m, vs⟩ ⟨hm, hvs⟩
    refine holds_ok ⟨?_, hvs⟩
    rw [account_opening hkind, hm]
  case literal =>
    rintro t us rfl hkind
    have hsign : p ≠ .sign := by rcases hp with rfl | rfl <;> decide
    exact ⟨account_literal hkind hsign, (List.forall_mem_cons.1 hts).2⟩
  case before =>
    rintro t us k rfl hname hbefore hk
    refine (ih k hk).operation (List.forall_mem_cons.1 hts).2 ?_
    have hsign : T.isSign p t us = false := by
      by_contra hsign
      simp only [isSign, Bool.not_eq_false, Bool.and_eq_true, beq_iff_eq] at hsign
      simp [hsign.1.1 ▸ hbefore] at hsign
    rw [account_name hname hplace hsign, afterWord, if_pos (by simp [hbefore]), Term.account_leaf]
  case minus =>
    rintro t us rfl hname hminus hbefore
    exact minus_keeps ih hp (List.forall_mem_cons.1 hts).2 hname hminus hbefore
  case leaf =>
    rintro t us rfl hname hbefore hminus hpower
    rw [tokenPower_name hname] at hpower
    have hsign : T.isSign p t us = false := by simp [isSign, hminus]
    refine ⟨?_, (List.forall_mem_cons.1 hts).2⟩
    rw [account_name hname hplace hsign, afterWord, if_neg (by simp [hbefore, hpower]),
      Term.account_leaf]

omit ih in
/-- Where no operand can follow, it makes no difference whether one is due. -/
theorem endsOperand_holds : Holds (endsOperand stuck ts) fun ends =>
    ends = true → T.account .due ts = T.account .behind ts := by
  intro ends hends hclosing
  cases ts with
  | nil => rfl
  | cons t ts =>
    cases hends
    rw [account_closing (beq_iff_eq.1 hclosing), account_closing (beq_iff_eq.1 hclosing)]

omit ih in
/-- An operator between operands has been read, after its left one. -/
theorem KeepsWords.link (h : KeepsWords T stuck n) (q : Nat) (after : Bool) (left : PlainTerm)
    (hts : Lexed ts) : Holds (link T stuck q after left t n ts) fun b =>
      left.account + (({T.spelling t.text}, 0) + T.account .due ts) =
        b.1.account + T.account .behind b.2 ∧ Lexed b.2 := by
  refine (endsOperand_holds (T := T)).bind ?_
  intro ends hends
  split
  next hclosing =>
    rw [hends hclosing, ← add_assoc, add_comm left.account, ← Term.account_leaf,
      ← Term.account_call]
    exact h.chain q after _ ts hts
  next =>
    refine (h.subterm (.inl rfl) _ ts hts).bind ?_
    rintro ⟨right, us⟩ ⟨hright, hus⟩
    rw [zero_add] at hright
    rw [hright, ← Term.account_leaf, ← add_assoc, ← add_assoc, ← Term.account_callBetween]
    exact h.chain q after _ us hus

omit ih in
/-- An argument of the operand before it: another operator between operands would be a link. -/
theorem KeepsWords.argument (h : KeepsWords T stuck n) (hT : T.Built) {q : Nat} {after : Bool}
    (left : PlainTerm) (hts : Lexed (t :: ts))
    (hargument : namePower ≤ chainPower T after t ∨ T.isBefore t.text = true) :
    Holds (argument T stuck q after left n (t :: ts)) fun b =>
      left.account + T.account .behind (t :: ts) = b.1.account + T.account .behind b.2 ∧
        Lexed b.2 := by
  have hsign : T.isSign .due t ts = false := by
    by_contra hsign
    simp only [isSign, Bool.not_eq_false, Bool.and_eq_true, beq_iff_eq, Bool.not_eq_true'] at hsign
    obtain ⟨⟨hminus, hbefore⟩, -⟩ := hsign
    have hkind := (List.forall_mem_cons.1 hts).1
    rw [hminus] at hkind
    have hpower : T.tokenPower t < namePower := by
      rw [tokenPower_name (.inr (Option.some.inj hkind).symm), hminus]
      exact hT.power_minus hbefore
    have hne : T.tokenPower t ≠ beforePower := (hpower.trans (by decide)).ne
    have hlow : chainPower T after t < namePower := by simpa [chainPower, hne] using hpower
    rw [hminus, hbefore] at hargument
    exact hargument.elim (fun hhigh => hhigh.not_gt hlow) Bool.false_ne_true
  refine (h.operand .due (.inl rfl) _ hts).bind ?_
  rintro ⟨_ | arg, us⟩ htakes
  · cases htakes
    exact holds_ok ⟨rfl, hts⟩
  · rw [account_behind hsign, htakes.1, ← add_assoc, ← Term.account_call]
    exact h.chain q after _ us htakes.2

theorem chain_keeps (hT : T.Built) (q : Nat) (after : Bool) (left : PlainTerm) :
    Keeps T left.account .behind (chain T stuck n q after left) := by
  intro ts hts
  refine chain_rule ⟨rfl, hts⟩ ?link ?argument
  case link =>
    rintro t us k rfl hname hpower - hk
    have hlow : T.power t.text < namePower := by
      rw [← tokenPower_name hname]
      exact (tokenPower_le_chainPower T after t).trans_lt hpower
    have hafter : T.afterWord t.text = .due := by simp [afterWord, hlow]
    rw [account_name hname (by decide) (by simp [isSign]), hafter]
    exact (ih k hk).link q after left (List.forall_mem_cons.1 hts).2
  case argument =>
    rintro t us k rfl hargument hk
    exact (ih k hk).argument hT left hts hargument

end Step

/-- **The readers account for the tokens that they take**, by induction on the room. -/
theorem keepsWords {T : OperatorTable} (hT : T.Built) (stuck : Bool) (n : Nat) :
    KeepsWords T stuck n := by
  induction n using room_induction with
  | step n ih => exact ⟨fun p hp => operand_keeps ih hp, chain_keeps ih hT⟩

end Parser

/-- **Reading loses no word and makes none up**: the names that a term shows, with a dot for each
abstraction, are the words of its text, and each opening brace makes one abstraction. -/
theorem Term.parse_words {T : OperatorTable} (hT : T.Built) {limit : Nat} {text : String}
    {m : PlainTerm} (h : Term.parse T limit text = .ok m) :
    (m.atoms.map Atom.shown ++ List.replicate m.binders ".").Perm
      (T.words .due (Token.scan text).tokens) ∧
    m.binders = (Token.scan text).tokens.countP OperatorTable.isBrace := by
  have hwhole := Term.parse_eq_ok.1 h
  have hlexed : Lexed (Token.scan text).tokens := fun t ht => kind?_of_mem_scanFrom ht
  have haccount : Holds (whole T limit (Token.scan text)) fun m =>
      m.account = T.account .due (Token.scan text).tokens := by
    refine ((keepsWords hT _ limit).subterm (.inl rfl) endPower _ hlexed).bind ?_
    rintro ⟨m, us⟩ ⟨hm, -⟩
    refine finish_holds.bind ?_
    rintro - rfl
    rw [zero_add] at hm
    exact holds_ok (hm.trans (add_zero m.account)).symm
  have hm := haccount m hwhole
  refine ⟨Multiset.coe_eq_coe.1 ?_, congrArg Prod.snd hm⟩
  rw [← Multiset.coe_add, Multiset.coe_replicate]
  exact congrArg Prod.fst hm

/-- The negation, a negative numeral and a minus sign on its own; the conjunction is spelled out. -/
theorem Term.parse_words_signs :
    let T := OperatorTable.standard
    let text := "\x7bx. - x ∧ -5\x7d (-)"
    let m : PlainTerm := .call (.lambda "x" (.callBetween (.call (.named "neg") (.named "x"))
      (T.leaf "∧") (.named "-5"))) (T.leaf "-")
    T.Built ∧ Term.parse T 512 text = .ok m ∧
      T.words .due (Token.scan text).tokens = ["x", ".", "neg", "x", "&&", "-5", "-"] ∧
      (m.atoms.map Atom.shown ++ ["."]).Perm ["x", ".", "neg", "x", "&&", "-5", "-"] ∧
      (Token.scan text).tokens.countP OperatorTable.isBrace = 1 := by
  intro T text m
  have hread : Term.parse T 512 text = .ok m := by decide +kernel
  have hwords : T.words .due (Token.scan text).tokens = ["x", ".", "neg", "x", "&&", "-5", "-"] := by
    decide +kernel
  obtain ⟨hperm, hbraces⟩ := Term.parse_words OperatorTable.built_standard hread
  rw [hwords] at hperm
  exact ⟨OperatorTable.built_standard, hread, hwords, hperm, hbraces.symm⟩

end ProofKernel
