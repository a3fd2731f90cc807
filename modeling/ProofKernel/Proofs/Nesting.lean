import Mathlib.Tactic.Ring
import ProofKernel.Proofs.ReadingBack

/-!
# How deep terms are nested that are read

The limit is one of brackets and operators. What it means for the term is another matter: the room
that an operand takes is given back after it, and the links of a chain nest the operand on the left
once more each.

* `Term.nesting`: the most calls and abstractions on a way from the root to a leaf;
* `Parser.Builds`: how terms are built with room for a number of levels, without their tokens;
* `Parser.givesBuilt`: what the readers give is built so;
* `Parser.Builds.nesting_le`: an operand is nested at most as deep as the square of its room;
* `Term.parse_nesting`: the greatest nesting of the terms that are read under a limit.
-/

namespace ProofKernel

/-- The most calls and abstractions on a way from the root of a term to a leaf. -/
def Term.nesting {ι : Type} : Term ι → Nat
  | .var _ => 0
  | .app _ f x => max f.nesting x.nesting + 1
  | .abs _ _ body => body.nesting + 1

theorem Term.nesting_call (f x : PlainTerm) :
    (call f x).nesting = max f.nesting x.nesting + 1 :=
  rfl

theorem Term.nesting_callBetween (left right : PlainTerm) (op : Atom Unit) :
    (callBetween left (.var op) right).nesting = max (left.nesting + 1) right.nesting + 1 := by
  show max (max 0 left.nesting + 1) right.nesting + 1 = _
  rw [Nat.zero_max]

namespace Parser

/-! ## How terms are built -/

/-- What can be built with room for so many levels: an operand, if nothing stands before it, and
otherwise the term that a chain makes of what stands before it. -/
inductive Builds : Nat → Option PlainTerm → PlainTerm → Prop
  | leaf {n : Nat} (a : Atom Unit) : Builds n none (.var a)
  | brackets {n : Nat} {left m : PlainTerm} :
    Builds n none left → Builds n (some left) m → Builds (n + 1) none m
  | lambda {n : Nat} {left m : PlainTerm} (b : Name) :
    Builds n none left → Builds n (some left) m → Builds (n + 1) none (.lambda b m)
  | before {n : Nat} {left m : PlainTerm} (op : Atom Unit) :
    Builds n none left → Builds n (some left) m → Builds (n + 1) none (.call (.var op) m)
  | done {n : Nat} (m : PlainTerm) : Builds n (some m) m
  | after {n : Nat} {left m : PlainTerm} (op : Atom Unit) :
    Builds n (some (.call (.var op) left)) m → Builds (n + 1) (some left) m
  | between {n : Nat} {left first right m : PlainTerm} (op : Atom Unit) :
    Builds n none first → Builds n (some first) right →
    Builds n (some (.callBetween left (.var op) right)) m → Builds (n + 1) (some left) m
  | argument {n : Nat} {left arg m : PlainTerm} :
    Builds n none arg → Builds n (some (.call left arg)) m → Builds (n + 1) (some left) m

/-- An operand with its chain. -/
def BuildsTerm (n : Nat) (m : PlainTerm) : Prop :=
  ∃ left, Builds n none left ∧ Builds n (some left) m

/-- **The nesting of what is built**, by induction on how it is built. The room of the chain bounds
how much deeper its links nest what stands before it, that of an operand the whole of it. -/
theorem Builds.nesting_le {n : Nat} {start : Option PlainTerm} {m : PlainTerm}
    (h : Builds n start m) : match start with
      | none => m.nesting ≤ n * n
      | some left => ∀ k, left.nesting ≤ k → n * n ≤ k + 2 → m.nesting ≤ k + 2 * n := by
  have hsquare : ∀ n : Nat, (n + 1) * (n + 1) = n * n + 2 * n + 1 := fun n => by ring
  induction h with
  | leaf a => exact Nat.zero_le _
  | @brackets n left m _ _ ihleft ih =>
    have hm : m.nesting ≤ n * n + 2 * n := ih (n * n) ihleft (by omega)
    have hsquare := hsquare n
    show m.nesting ≤ (n + 1) * (n + 1)
    omega
  | @lambda n left m b _ _ ihleft ih =>
    have hm : m.nesting ≤ n * n + 2 * n := ih (n * n) ihleft (by omega)
    have hsquare := hsquare n
    show m.nesting + 1 ≤ (n + 1) * (n + 1)
    omega
  | @before n left m op _ _ ihleft ih =>
    have hm : m.nesting ≤ n * n + 2 * n := ih (n * n) ihleft (by omega)
    have hsquare := hsquare n
    show max 0 m.nesting + 1 ≤ (n + 1) * (n + 1)
    omega
  | done m => exact fun k hk _ => Nat.le_add_right_of_le hk
  | @after n left m op _ ih =>
    intro k hk hroom
    have hsquare := hsquare n
    have hlink : (Term.call (.var op) left).nesting ≤ k + 2 := by
      show max 0 left.nesting + 1 ≤ k + 2
      omega
    have := ih (k + 2) hlink (by omega)
    omega
  | @between n left first right m op _ _ _ ihfirst ihright ih =>
    intro k hk hroom
    have hsquare := hsquare n
    have hright : right.nesting ≤ n * n + 2 * n := ihright (n * n) ihfirst (by omega)
    have hlink : (Term.callBetween left (.var op) right).nesting ≤ k + 2 := by
      rw [Term.nesting_callBetween]
      omega
    have := ih (k + 2) hlink (by omega)
    omega
  | @argument n left arg m _ _ iharg ih =>
    intro k hk hroom
    have hsquare := hsquare n
    have harg : arg.nesting ≤ n * n := iharg
    have hlink : (Term.call left arg).nesting ≤ k + 2 := by
      rw [Term.nesting_call]
      omega
    have := ih (k + 2) hlink (by omega)
    omega

theorem BuildsTerm.nesting_le {n : Nat} {m : PlainTerm} (h : BuildsTerm n m) :
    m.nesting ≤ n * (n + 2) := by
  obtain ⟨left, hleft, hm⟩ := h
  have hle : m.nesting ≤ n * n + 2 * n := hm.nesting_le (n * n) hleft.nesting_le (by omega)
  have hproduct : n * (n + 2) = n * n + 2 * n := by ring
  omega

/-! ## What is read is built so -/

section Readers

variable {T : OperatorTable} {stuck : Bool} {P : PlainTerm → Prop}

theorem sequence_holds {o : Reader (Option PlainTerm)} {c : PlainTerm → Reader PlainTerm}
    {Q : PlainTerm → Prop} (ho : ∀ ts, Holds (o ts) fun b => ∀ m ∈ b.1, Q m)
    (hc : ∀ left, Q left → ∀ ts, Holds (c left ts) fun b => P b.1) (ts : List Token) :
    Holds (sequence stuck o c ts) fun b => P b.1 := by
  refine sequence_rule ((ho ts).mono ?_)
  intro b hb left hleft
  exact hc left (hb left hleft) b.2

variable {inner : Reader PlainTerm} (h : ∀ ts, Holds (inner ts) fun b => P b.1)

include h

theorem grouped_holds (ts : List Token) : Holds (grouped stuck inner ts) fun b => P b.1 := by
  refine (h ts).bind ?_
  intro m hm
  exact holds_true.bind fun _ _ => holds_ok hm

theorem abstraction_holds (ts : List Token) : Holds (abstraction stuck inner ts) fun b =>
    ∃ name body, b.1 = .lambda name body ∧ P body := by
  refine abstraction_rule ?_
  intro bound us _ _ _
  refine holds_true.bind ?_
  intro dot _
  refine (h dot.2).bind ?_
  intro m hm
  exact holds_true.bind fun _ _ => holds_ok ⟨bound.text, m.1, rfl, hm⟩

/-- In brackets stands an operator, a term or an abstraction. -/
theorem bracketed_holds (opening : Token) (ts : List Token) :
    Holds (bracketed T stuck inner opening ts) fun b =>
      (∃ a, b.1 = .var a) ∨ P b.1 ∨ ∃ name body, b.1 = .lambda name body ∧ P body := by
  refine bracketed_rule ?_ ?_ ?_
  · exact fun op _ _ _ _ _ _ => .inl (T.exists_leaf op.text)
  · exact fun _ b hb => .inr (.inl (grouped_holds h ts b hb))
  · exact fun _ b hb => .inr (.inr (abstraction_holds h ts b hb))

end Readers

/-- What the two readers give is built with their room. -/
structure GivesBuilt (T : OperatorTable) (stuck : Bool) (n : Nat) : Prop where
  operand : ∀ ts, Holds (operand T stuck n ts) fun b => ∀ m ∈ b.1, Builds n none m
  chain : ∀ p after left ts, Holds (chain T stuck n p after left ts) fun b =>
    Builds n (some left) b.1

section Step

variable {T : OperatorTable} {stuck : Bool} {n : Nat}

theorem GivesBuilt.sequence (h : GivesBuilt T stuck n) (p : Nat) (after : Bool) (ts : List Token) :
    Holds (Parser.sequence stuck (Parser.operand T stuck n) (Parser.chain T stuck n p after) ts)
      fun b => BuildsTerm n b.1 :=
  sequence_holds h.operand
    (fun left hleft us b hb => ⟨left, hleft, h.chain p after left us b hb⟩) ts

theorem holds_some {m : PlainTerm} (h : Builds n none m) (ts : List Token) :
    Holds (.ok (some m, ts)) fun b : Option PlainTerm × List Token =>
      ∀ m ∈ b.1, Builds n none m := by
  refine holds_ok ?_
  rintro _ ⟨⟩
  exact h

/-- An operator before its operand has been read. -/
theorem GivesBuilt.operation (h : GivesBuilt T stuck n) (op : Atom Unit) (ts : List Token) :
    Holds (operation T stuck (.var op) n ts) fun b => ∀ m ∈ b.1, Builds (n + 1) none m := by
  refine (h.sequence beforePower true ts).bind ?_
  rintro m ⟨left, hleft, hm⟩
  exact holds_some (.before op hleft hm) m.2

theorem GivesBuilt.enclosed (h : GivesBuilt T stuck n) (t : Token) (ts : List Token) :
    Holds (enclosed T stuck t n ts) fun b => ∀ m ∈ b.1, Builds (n + 1) none m := by
  refine (bracketed_holds (h.sequence endPower false) t ts).bind ?_
  rintro ⟨m, us⟩ (⟨a, rfl⟩ | ⟨left, hleft, hm⟩ | ⟨name, body, rfl, left, hleft, hbody⟩)
  · exact holds_some (.leaf a) us
  · exact holds_some (.brackets hleft hm) us
  · exact holds_some (.lambda name hleft hbody) us

theorem GivesBuilt.link (h : GivesBuilt T stuck n) (p : Nat) (after : Bool) (left : PlainTerm)
    (t : Token) (ts : List Token) :
    Holds (link T stuck p after left t n ts) fun b => Builds (n + 1) (some left) b.1 := by
  obtain ⟨op, hop⟩ := T.exists_leaf t.text
  refine holds_true.bind ?_
  intro ends _
  rw [hop]
  split
  next => exact fun b hb => .after op (h.chain p after _ ts b hb)
  next =>
    refine (h.sequence _ false ts).bind ?_
    rintro right ⟨first, hfirst, hright⟩
    exact fun b hb => .between op hfirst hright (h.chain p after _ right.2 b hb)

theorem GivesBuilt.argument (h : GivesBuilt T stuck n) (p : Nat) (after : Bool) (left : PlainTerm)
    (ts : List Token) :
    Holds (argument T stuck p after left n ts) fun b => Builds (n + 1) (some left) b.1 := by
  refine (h.operand ts).bind ?_
  rintro ⟨_ | arg, us⟩ hb
  · exact holds_ok (.done left)
  · exact fun b' hb' => .argument (hb arg rfl) (h.chain p after _ us b' hb')

variable (ih : ∀ k, n = k + 1 → GivesBuilt T stuck k)

include ih

theorem operand_built (ts : List Token) :
    Holds (operand T stuck n ts) fun b => ∀ m ∈ b.1, Builds n none m := by
  refine operand_rule ?none ?enclosed ?literal ?before ?minus ?leaf
  case none => exact nofun
  case enclosed =>
    rintro t us k - - rfl
    exact (ih k rfl).enclosed t us
  case literal =>
    rintro t us - - _ ⟨⟩
    exact .leaf _
  case before =>
    rintro t us k - - - rfl
    obtain ⟨leaf, hleaf⟩ := T.exists_leaf t.text
    rw [hleaf]
    exact (ih k rfl).operation leaf us
  case minus =>
    intro t us _ _ _ _
    refine minus_rule ?_ ?_
    · rintro u vs - - - _ ⟨⟩
      exact .leaf _
    · rintro k - rfl
      exact (ih k rfl).operation (.plain "neg") us
  case leaf =>
    rintro t us - - - - - _ ⟨⟩
    obtain ⟨leaf, hleaf⟩ := T.exists_leaf t.text
    rw [hleaf]
    exact .leaf leaf

theorem chain_built (p : Nat) (after : Bool) (left : PlainTerm) (ts : List Token) :
    Holds (chain T stuck n p after left ts) fun b => Builds n (some left) b.1 := by
  refine chain_rule (.done left) ?link ?argument
  case link =>
    rintro t us k - - - - rfl
    exact (ih k rfl).link p after left t us
  case argument =>
    rintro t us k - - rfl
    exact (ih k rfl).argument p after left (t :: us)

end Step

/-- **What is read is built with the room of its reader**, by induction on the room. -/
theorem givesBuilt (T : OperatorTable) (stuck : Bool) (n : Nat) : GivesBuilt T stuck n := by
  induction n using room_induction with
  | step n ih => exact ⟨operand_built ih, chain_built ih⟩

end Parser

theorem Term.builds_of_parse {T : OperatorTable} {limit : Nat} {text : String} {m : PlainTerm}
    (h : parse T limit text = .ok m) : Parser.BuildsTerm limit m := by
  have hread := (Parser.givesBuilt T (Token.scan text).stuck.isSome limit).sequence endPower
    false (Token.scan text).tokens
  have hresult : Parser.Holds (Parser.whole T limit (Token.scan text))
      (Parser.BuildsTerm limit) := by
    refine hread.bind ?_
    intro b hb
    exact Parser.holds_true.bind fun _ _ => Parser.holds_ok hb
  exact hresult m (Term.parse_eq_ok.1 h)

/-! ## Texts of the deepest terms -/

namespace Nesting

/-- More operands of a sum. -/
def links : Nat → List Char
  | 0 => []
  | n + 1 => ' ' :: ("+".toList ++ ' ' :: ("x".toList ++ links n))

/-- A term with more operands. -/
def addLinks : Nat → PlainTerm → PlainTerm
  | 0, m => m
  | n + 1, m => addLinks n (.callBetween m (.named "+") (.named "x"))

/-- A text under a limit. The braces take one level of the room of the text in them, and give it
back to the links after them, each of which nests the whole abstraction. -/
def text : Nat → List Char
  | 0 => "x".toList
  | n + 1 => "\x7b".toList ++ ("x".toList ++ (".".toList ++ ' ' :: text n) ++ "\x7d".toList) ++
      links (n + 1)

/-- What the text is read as. -/
def term : Nat → PlainTerm
  | 0 => .named "x"
  | n + 1 => addLinks (n + 1) (.lambda "x" (term n))

theorem nesting_addLinks (n : Nat) (m : PlainTerm) :
    (addLinks n m).nesting = m.nesting + 2 * n := by
  induction n generalizing m with
  | zero => rfl
  | succ n ih =>
    have hlink : (Term.callBetween m (.named "+") (.named "x")).nesting = m.nesting + 2 := by
      rw [Term.named, Term.nesting_callBetween]
      show max (m.nesting + 1) 0 + 1 = _
      omega
    rw [addLinks, ih, hlink]
    omega

theorem nesting_term (n : Nat) : (term n).nesting = n * (n + 2) := by
  induction n with
  | zero => rfl
  | succ n ih =>
    have habs : (Term.lambda "x" (term n)).nesting = (term n).nesting + 1 := rfl
    rw [term, nesting_addLinks, habs, ih]
    ring

/-! ### Reading them -/

open ProofKernel.Parser ProofKernel.Token

/-- The tokens of links. -/
inductive Links : Nat → List Token → Prop
  | nil : Links 0 []
  | cons {n : Nat} {ts : List Token} (o i : Nat) (h : Links n ts) :
    Links (n + 1) (⟨.symbol, "+", o⟩ :: ⟨.ident, "x", i⟩ :: ts)

theorem links_scans (n : Nat) : Scans (links n) (Links n) := by
  induction n with
  | zero => exact scans_nil.mono fun ts hts => hts ▸ .nil
  | succ n ih =>
    have hident : kind? "x" = some .ident := by decide
    have hsymbol : kind? "+" = some .symbol := by decide
    have hapart : ∀ rest, Apart rest → Apart (links n ++ rest) := by
      intro rest hrest
      cases n with
      | zero => exact hrest
      | succ n => exact apart_blank _
    have hx := (scans_word hident).append ih hapart
    refine ((scans_word hsymbol).append hx.blank fun rest _ => apart_blank _).blank.mono ?_
    rintro _ ⟨_, _, ⟨o, rfl⟩, ⟨_, us, ⟨i, rfl⟩, hus, rfl⟩, rfl⟩
    exact .cons o i hus

theorem operand_x (i n : Nat) (ts : List Token) :
    operand .standard false n (⟨.ident, "x", i⟩ :: ts) = .ok (some (.named "x"), ts) := by
  have hbefore : OperatorTable.standard.isBefore "x" = false := by decide
  have hpower : OperatorTable.standard.power "x" = namePower := by decide
  have hminus : "x" ≠ "-" := by decide
  exact operand_name (t := ⟨.ident, "x", i⟩) (.inl rfl) hbefore hminus hpower n

theorem plus_power (o : Nat) : OperatorTable.standard.tokenPower ⟨.symbol, "+", o⟩ = 30 := by
  show OperatorTable.standard.power "+" = 30
  decide

/-- Links are read with as much room as there are. -/
theorem Links.chain {n : Nat} {ts : List Token} (h : Links n ts) (left : PlainTerm)
    {rest : List Token} (hrest : Closes rest) :
    Parser.chain .standard false n endPower false left (ts ++ rest) =
      .ok (addLinks n left, rest) := by
  induction h generalizing left with
  | nil => exact chain_closes hrest 0
  | @cons n ts o i h ih =>
    -- the right operand ends at the next link, which binds no tighter
    have hstop : Parser.chain .standard false n 30 false (.named "x") (ts ++ rest) =
        .ok (.named "x", ts ++ rest) := by
      cases h with
      | nil => exact chain_closes hrest 0
      | cons o' i' h =>
        have hpower : chainPower .standard false ⟨.symbol, "+", o'⟩ ≤ 30 := (plus_power o').le
        exact chain_stop hpower _
    have hright : Parser.sequence false (operand .standard false n)
        (Parser.chain .standard false n 30 false)
        (⟨.ident, "x", i⟩ :: (ts ++ rest)) = .ok (.named "x", ts ++ rest) := by
      rw [Parser.sequence, operand_x]
      exact hstop
    have hlow : endPower < 30 ∧ 30 < namePower := by decide
    have hoperand : TokenKind.ident ≠ .closing := by decide
    have hbefore : OperatorTable.standard.isBefore "+" = false := by decide
    have hleaf : OperatorTable.standard.leaf "+" = .named "+" := by decide
    rw [List.cons_append, List.cons_append, chain_between (by rw [plus_power]; exact hlow.1)
      (by rw [plus_power]; exact hlow.2) hbefore hoperand, plus_power, hright, hleaf]
    exact ih _

/-- **The text is read under its limit.** -/
theorem text_scans (n : Nat) : Scans (text n) fun ts => ∀ rest, Closes rest →
    subterm .standard false n endPower (ts ++ rest) = .ok (term n, rest) := by
  induction n with
  | zero =>
    have hident : kind? "x" = some .ident := by decide
    refine (scans_word hident).mono ?_
    rintro _ ⟨i, rfl⟩ rest hrest
    rw [subterm, Parser.sequence, List.singleton_append, operand_x]
    exact chain_closes hrest 0
  | succ n ih =>
    have hident : kind? "x" = some .ident := by decide
    refine ((Style.scans_brace hident ih).append (links_scans (n + 1)) fun rest _ =>
      apart_blank _).mono ?_
    rintro _ ⟨_, vs, ⟨o, i, d, c, us, hus, rfl⟩, hvs, rfl⟩ rest hrest
    have hcloses : Closes (⟨.closing, "\x7d", c⟩ :: (vs ++ rest)) := closes_cons rfl
    have hbrace : bracketed .standard false (subterm .standard false n endPower)
        ⟨.opening, "\x7b", o⟩ (⟨.ident, "x", i⟩ :: ⟨.symbol, ".", d⟩ ::
          (us ++ ⟨.closing, "\x7d", c⟩ :: (vs ++ rest))) =
        .ok (.lambda "x" (term n), vs ++ rest) := by
      show abstraction false _ _ = _
      rw [abstraction_eq (by decide), hus _ hcloses]
      rfl
    have hoperand : operand .standard false (n + 1) (⟨.opening, "\x7b", o⟩ :: ⟨.ident, "x", i⟩ ::
        ⟨.symbol, ".", d⟩ :: (us ++ ⟨.closing, "\x7d", c⟩ :: (vs ++ rest))) =
          .ok (some (.lambda "x" (term n)), vs ++ rest) := by
      simp only [operand]
      rw [← subterm, hbrace]
      rfl
    simp only [List.cons_append, List.append_assoc, List.nil_append]
    rw [subterm, Parser.sequence, hoperand]
    exact hvs.chain _ hrest

theorem parse_text (n : Nat) :
    Term.parse .standard n (.ofList (text n)) = .ok (term n) := by
  have hapart : Apart [] := by rintro c ⟨⟩
  obtain ⟨ts, hts, hscan⟩ := text_scans n 0 [] hapart
  have hstream : scan (.ofList (text n)) = ⟨ts, none⟩ := by
    rw [List.append_nil] at hscan
    rw [scan, String.toList_ofList, hscan, scanFrom_nil]
    simp
  have hterm := hts [] closes_nil
  rw [List.append_nil] at hterm
  rw [Term.parse_eq_ok, hstream, whole]
  show (subterm _ false _ _ ts >>= fun b => _) = _
  rw [hterm]
  rfl

end Nesting

/-- **How deep the terms are that are read** under a limit: nested no deeper than the limit times two
more than itself, whatever the operators are. With the standard operators some term is as deep as
this, so that twice the limit bounds them only if the limit is zero. -/
theorem Term.parse_nesting (limit : Nat) :
    (∀ (T : OperatorTable) (text : String) (m : PlainTerm), parse T limit text = .ok m →
      m.nesting ≤ limit * (limit + 2)) ∧
    (∃ text m, parse .standard limit text = .ok m ∧ m.nesting = limit * (limit + 2)) ∧
    ((∀ text m, parse .standard limit text = .ok m → m.nesting ≤ 2 * limit) ↔ limit = 0) := by
  have hbound : ∀ (T : OperatorTable) (text : String) (m : PlainTerm),
      parse T limit text = .ok m → m.nesting ≤ limit * (limit + 2) :=
    fun T text m h => (builds_of_parse h).nesting_le
  refine ⟨hbound, ⟨_, _, Nesting.parse_text limit, Nesting.nesting_term limit⟩, ?_, ?_⟩
  · intro hlinear
    have hle : (Nesting.term limit).nesting ≤ 2 * limit := hlinear _ _ (Nesting.parse_text limit)
    have hproduct : limit * (limit + 2) = limit * limit + 2 * limit := by ring
    rw [Nesting.nesting_term, hproduct] at hle
    exact mul_self_eq_zero.1 (by omega)
  · rintro rfl text m h
    exact hbound .standard text m h

/-- A sum of four with its first two operands in brackets, under the limit two. Without the brackets
the same term is refused. -/
theorem Term.parse_nesting_brackets :
    parse .standard 2 "(x + x) + x + x" = .ok (Nesting.addLinks 3 (named "x")) ∧
      (Nesting.addLinks 3 (named "x")).nesting = 6 ∧
      (Nesting.addLinks 3 (named "x")).nesting ≤ 2 * (2 + 2) ∧
      (parse .standard 2 "x + x + x + x").isOk = false := by
  have hread : parse .standard 2 "(x + x) + x + x" = .ok (Nesting.addLinks 3 (named "x")) := by
    decide +kernel
  exact ⟨hread, rfl, (parse_nesting 2).1 _ _ _ hread, by decide +kernel⟩

end ProofKernel
