import ProofKernel.Proofs.Leaves
import ProofKernel.Proofs.Readers
import ProofKernel.Proofs.Room

/-!
# The terms that are read

* `Term.Written`: terms with the leaves that a table reads, and logic variables as binders;
* `Parser.Yields`: what a reader gives of tokens that are words, if it gives a result;
* `Parser.givesWritten`: the readers give such terms, with room for any number of levels;
* `Term.written_of_parse`: every term that is read is such a term.
-/

namespace ProofKernel

open ProofKernel.Token ProofKernel.Parser

/-- The binders of terms that are read. -/
def Atom.IsBinder (b : Atom Unit) : Prop :=
  b = .plain b.name ∧ kind? b.name = some .ident ∧ b.isVariable = true

/-- Terms as they are read: with leaves that the table reads, and logic variables as binders. -/
def Term.Written (T : OperatorTable) : PlainTerm → Prop
  | .var a => T.Leaf a
  | .app _ f x => f.Written T ∧ x.Written T
  | .abs _ b body => b.IsBinder ∧ body.Written T

theorem OperatorTable.exists_leaf (T : OperatorTable) (text : String) :
    ∃ a, T.leaf text = .var a := by
  unfold leaf
  split <;> exact ⟨_, rfl⟩

namespace Parser

/-! ## Readers of written terms -/

/-- Tokens that are words of their kinds. -/
def Lexed (ts : List Token) : Prop := ∀ t ∈ ts, kind? t.text = some t.kind

/-- A reader of tokens that are words gives what is wanted and leaves such tokens. -/
def Yields {β : Type} (f : Reader β) (P : β → Prop) : Prop :=
  ∀ ts, Lexed ts → Holds (f ts) fun b => P b.1 ∧ Lexed b.2

section Readers

variable {T : OperatorTable} {stuck : Bool}

theorem expect_yields (kind : TokenKind) (text : String) :
    Yields (expect stuck kind text) fun _ => True := by
  intro ts hts b hb
  obtain ⟨t, rfl, -⟩ := expect_holds kind text b hb
  exact ⟨trivial, (List.forall_mem_cons.1 hts).2⟩

theorem sequence_yields (stuck : Bool) {o : Reader (Option PlainTerm)}
    {c : PlainTerm → Reader PlainTerm} (ho : Yields o fun m? => ∀ m ∈ m?, m.Written T)
    (hc : ∀ m : PlainTerm, m.Written T → Yields (c m) (Term.Written T)) :
    Yields (sequence stuck o c) (Term.Written T) := by
  intro ts hts
  refine sequence_rule ((ho ts hts).mono ?_)
  intro b hb left hleft
  exact hc left (hb.1 left hleft) b.2 hb.2

/-- An identifier or a symbol is read as a leaf. -/
theorem leaf_written {t : Token} (ht : kind? t.text = some t.kind) (hname : IsName t) :
    (T.leaf t.text).Written T := by
  obtain ⟨a, ha⟩ := T.exists_leaf t.text
  rcases hname with hkind | hkind
  · cases hget : T.get? t.text with
    | none =>
      rw [OperatorTable.leaf_unlisted hget]
      exact .word (.inl ⟨by rw [ht, hkind], hget⟩)
    | some op =>
      rw [ha]
      exact .operator (.inl ⟨by rw [ht, hkind], by simp [hget]⟩) ha
  · rw [ha]
    exact .operator (.inr (by rw [ht, hkind])) ha

variable {inner : Reader PlainTerm} (h : Yields inner (Term.Written T))

include h

theorem grouped_yields : Yields (grouped stuck inner) (Term.Written T) := by
  intro ts hts
  refine (h ts hts).bind ?_
  intro m hm
  exact (expect_yields .closing ")" m.2 hm.2).bind fun b hb => holds_ok ⟨hm.1, hb.2⟩

theorem abstraction_yields : Yields (abstraction stuck inner) (Term.Written T) := by
  intro ts hts
  refine abstraction_rule ?_
  rintro bound us rfl hkind hvariable
  obtain ⟨hword, hus⟩ := List.forall_mem_cons.1 hts
  refine (expect_yields .symbol "." us hus).bind ?_
  intro dot hdot
  refine (h dot.2 hdot.2).bind ?_
  intro m hm
  refine (expect_yields .closing "\x7d" m.2 hm.2).bind ?_
  intro close hclose
  have hident : kind? bound.text = some .ident := by rw [hword, hkind]
  exact holds_ok ⟨⟨⟨rfl, hident, hvariable⟩, hm.1⟩, hclose.2⟩

theorem bracketed_yields (opening : Token) :
    Yields (bracketed T stuck inner opening) (Term.Written T) := by
  intro ts hts
  refine bracketed_rule ?_ (fun _ => grouped_yields h ts hts) fun _ => abstraction_yields h ts hts
  rintro op close us - rfl hbare -
  obtain ⟨hop, hts⟩ := List.forall_mem_cons.1 hts
  exact ⟨leaf_written hop (isName_of_bare hbare), (List.forall_mem_cons.1 hts).2⟩

end Readers

section Run

variable {T : OperatorTable} {stuck : Bool}

theorem neg_written (hT : T.Legible) : (Term.named "neg").Written T := by
  have hkind : kind? "neg" = some .ident ∧ (T.get? "neg").isSome := ⟨by decide, by simp [hT.neg]⟩
  refine .operator (.inl hkind) ?_
  simp only [OperatorTable.leaf, hT.neg, Operator.before]
  rfl

/-- With room for so many levels the two readers give written terms. -/
structure GivesWritten (T : OperatorTable) (stuck : Bool) (n : Nat) : Prop where
  operand : Yields (operand T stuck n) fun m? => ∀ m ∈ m?, m.Written T
  chain : ∀ p after (left : PlainTerm), left.Written T →
    Yields (chain T stuck n p after left) (Term.Written T)

section Step

variable {n : Nat}

theorem GivesWritten.sequence (h : GivesWritten T stuck n) (p : Nat) (after : Bool) :
    Yields (sequence stuck (Parser.operand T stuck n) (Parser.chain T stuck n p after))
      (Term.Written T) :=
  sequence_yields stuck h.operand (h.chain p after)

/-- An operator before its operand has been read. -/
theorem GivesWritten.operation (h : GivesWritten T stuck n) {op : PlainTerm} (hop : op.Written T) :
    Yields (operation T stuck op n) fun m? => ∀ m ∈ m?, m.Written T := by
  intro ts hts
  refine (h.sequence beforePower true ts hts).bind ?_
  intro m hm
  refine holds_ok ⟨?_, hm.2⟩
  rintro _ ⟨⟩
  exact And.intro hop hm.1

theorem GivesWritten.enclosed (h : GivesWritten T stuck n) (t : Token) :
    Yields (enclosed T stuck t n) fun m? => ∀ m ∈ m?, m.Written T := by
  intro ts hts
  refine (bracketed_yields (h.sequence endPower false) t ts hts).bind ?_
  intro m hm
  refine holds_ok ⟨?_, hm.2⟩
  rintro _ ⟨⟩
  exact hm.1

theorem GivesWritten.link (h : GivesWritten T stuck n) (p : Nat) (after : Bool) {left : PlainTerm}
    (hleft : left.Written T) {t : Token} (hop : (T.leaf t.text).Written T) :
    Yields (link T stuck p after left t n) (Term.Written T) := by
  intro ts hts
  refine holds_true.bind ?_
  intro ends _
  split
  next => exact h.chain p after (.call (T.leaf t.text) left) (And.intro hop hleft) ts hts
  next =>
    refine (h.sequence _ false ts hts).bind ?_
    intro right hright
    exact h.chain p after (.callBetween left (T.leaf t.text) right.1)
      (And.intro (And.intro hop hleft) hright.1) right.2 hright.2

theorem GivesWritten.argument (h : GivesWritten T stuck n) (p : Nat) (after : Bool)
    {left : PlainTerm} (hleft : left.Written T) :
    Yields (argument T stuck p after left n) (Term.Written T) := by
  intro ts hts
  refine (h.operand ts hts).bind ?_
  rintro ⟨_ | arg, us⟩ hb
  · exact holds_ok ⟨hleft, hb.2⟩
  · exact h.chain p after (.call left arg) (And.intro hleft (hb.1 arg rfl)) us hb.2

variable (ih : ∀ k, n = k + 1 → GivesWritten T stuck k)

include ih

theorem operand_yields (hT : T.Legible) :
    Yields (operand T stuck n) fun m? => ∀ m ∈ m?, m.Written T := by
  intro ts hts
  refine operand_rule ?none ?enclosed ?literal ?before ?minus ?leaf
  case none => exact ⟨nofun, hts⟩
  case enclosed =>
    rintro t us k rfl - hk
    exact (ih k hk).enclosed t us (List.forall_mem_cons.1 hts).2
  case literal =>
    rintro t us rfl hkind
    obtain ⟨ht, hus⟩ := List.forall_mem_cons.1 hts
    refine ⟨?_, hus⟩
    rintro _ ⟨⟩
    refine .word (.inr ?_)
    rwa [ht, Option.some.injEq, Option.some.injEq]
  case before =>
    rintro t us k rfl hname - hk
    obtain ⟨ht, hus⟩ := List.forall_mem_cons.1 hts
    exact (ih k hk).operation (leaf_written ht hname) us hus
  case minus =>
    rintro t us rfl - - -
    have hus := (List.forall_mem_cons.1 hts).2
    refine minus_rule ?_ fun k _ hk => (ih k hk).operation (neg_written hT) us hus
    rintro u vs rfl hnumber -
    obtain ⟨hu, hvs⟩ := List.forall_mem_cons.1 hus
    refine ⟨?_, hvs⟩
    rintro _ ⟨⟩
    exact OperatorTable.Leaf.numeral (by rw [hu, hnumber])
  case leaf =>
    rintro t us rfl hname - - -
    obtain ⟨ht, hus⟩ := List.forall_mem_cons.1 hts
    refine ⟨?_, hus⟩
    rintro _ ⟨⟩
    exact leaf_written ht hname

theorem chain_yields (p : Nat) (after : Bool) {left : PlainTerm} (hleft : left.Written T) :
    Yields (chain T stuck n p after left) (Term.Written T) := by
  intro ts hts
  refine chain_rule ⟨hleft, hts⟩ ?link ?argument
  case link =>
    rintro t us k rfl hname - - hk
    obtain ⟨ht, hus⟩ := List.forall_mem_cons.1 hts
    exact (ih k hk).link p after hleft (leaf_written ht hname) us hus
  case argument =>
    rintro t us k rfl - hk
    exact (ih k hk).argument p after hleft (t :: us) hts

end Step

/-- **What is read is written**, by induction on the room. -/
theorem givesWritten (hT : T.Legible) (stuck : Bool) (n : Nat) : GivesWritten T stuck n := by
  induction n using room_induction with
  | step n ih => exact ⟨operand_yields ih hT, fun p after _ => chain_yields ih p after⟩

end Run

end Parser

/-- **Every term that is read is written**: its leaves are those that the table reads. -/
theorem Term.written_of_parse {T : OperatorTable} (hT : T.Legible) {limit : Nat} {text : String}
    {m : PlainTerm} (h : Term.parse T limit text = .ok m) : m.Written T := by
  have hwhole := Term.parse_eq_ok.1 h
  have hlexed : Lexed (Token.scan text).tokens := fun t ht => kind?_of_mem_scanFrom ht
  have hread := (givesWritten hT (Token.scan text).stuck.isSome limit).sequence endPower false _ hlexed
  have hresult : Holds (whole T limit (Token.scan text)) (Term.Written T) := by
    refine hread.bind ?_
    intro b hb
    exact holds_true.bind fun _ _ => holds_ok hb.1
  exact hresult m hwhole

end ProofKernel
