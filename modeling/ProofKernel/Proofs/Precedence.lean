import ProofKernel.Proofs.ExtendedTables

/-!
# Operators between operands

Reading climbs precedences. What comes of it can be said without that: of a row of operands with
operators between them, the operator that binds least tightly is called last, and of several such
operators the rightmost one.

* `OperatorTable.Built`: tables made of the empty one by adding operators;
* `OperatorTable.IsAtom`, `OperatorTable.IsLink`: tokens that are operands on their own, and those
  that stand between operands;
* `Operand`, `Operand.row`: atoms side by side, and the tokens of a row of operands;
* `OperatorTable.Groups`: the term that a row stands for, by its weakest operator;
* `OperatorTable.Groups.reads`: reading a row gives this term;
* `Term.parse_groups`: so does reading a text that is such a row.
-/

namespace ProofKernel

open ProofKernel.Parser ProofKernel.Token

namespace OperatorTable

variable {T : OperatorTable}

/-! ## Tables -/

/-- Tables made of the empty one by adding operators. -/
inductive Built : OperatorTable → Prop
  | empty : Built .empty
  | add {T T' : OperatorTable} {op : Operator} (h : Built T) (hadd : T.add op = .ok T') : Built T'

theorem Built.addAll {T' : OperatorTable} (h : T.Built) (ops : List Operator)
    (hadd : ops.foldlM OperatorTable.add T = .ok T') : T'.Built := by
  induction ops generalizing T with
  | nil =>
    cases hadd
    exact h
  | cons op ops ih =>
    rw [List.foldlM_cons] at hadd
    cases hop : T.add op with
    | error e =>
      rw [hop] at hadd
      cases hadd
    | ok T₁ =>
      rw [hop] at hadd
      exact ih (.add h hop) hadd

theorem built_standard : Built .standard :=
  Built.empty.addAll standardOperators (by decide +kernel)

/-- Operators between their operands bind less tightly than names. -/
theorem Built.isInfixPower (h : T.Built) {key : String} {op : Operator}
    (hget : T.get? key = some op) (hfixity : op.fixity = .between) :
    OperatorTable.isInfixPower op.prec = true := by
  induction h with
  | empty => cases hget
  | @add T T' new h hadd ih =>
    rw [get?_add hadd] at hget
    split at hget
    next =>
      cases hget
      exact (add_eq_ok hadd).2.1 hfixity
    next => exact ih hget

/-! ## Tokens -/

/-- Tokens that are operands on their own: identifiers that the table does not have, numerals and
string literals. -/
def IsAtom (T : OperatorTable) (t : Token) : Prop :=
  t.kind = .ident ∧ T.get? t.text = none ∨ t.kind = .number ∨ t.kind = .quoted

/-- Tokens that stand between operands: identifiers and symbols that are operators between their
operands, and symbols that the table does not have. -/
def IsLink (T : OperatorTable) (t : Token) : Prop :=
  ((t.kind = .ident ∨ t.kind = .symbol) ∧ ∃ op ∈ T.get? t.text, op.fixity = .between) ∨
    t.kind = .symbol ∧ T.get? t.text = none

instance (t : Token) : Decidable (T.IsAtom t) := inferInstanceAs (Decidable (_ ∧ _ ∨ _ ∨ _))

instance (t : Token) : Decidable (T.IsLink t) := inferInstanceAs (Decidable (_ ∧ _ ∨ _ ∧ _))

/-- How tightly a token between operands binds: as its operator does, or as symbols do that the
table does not have. -/
def linkPower (T : OperatorTable) (t : Token) : Nat :=
  match T.get? t.text with
  | some op => op.prec
  | none => symbolPower

end OperatorTable

/-! ## Rows of operands -/

/-- One or more atoms side by side: the first one is called on the others. -/
structure Operand where
  head : Token
  args : List Token

namespace Operand

/-- The atoms. -/
def tokens (o : Operand) : List Token := o.head :: o.args

/-- The first atom, called on the others one after the other. -/
def term (o : Operand) : PlainTerm :=
  (Term.named o.head.text).applyAll (o.args.map fun t => .named t.text)

/-- The tokens of an operand and of those that follow it, each after the token that stands before
it. -/
def row (first : Operand) (links : List (Token × Operand)) : List Token :=
  first.tokens ++ links.flatMap fun link => link.1 :: link.2.tokens

theorem row_append (first : Operand) (before : List (Token × Operand)) (op : Token)
    (second : Operand) (behind : List (Token × Operand)) :
    first.row (before ++ (op, second) :: behind) = first.row before ++ op :: second.row behind := by
  simp [row]

end Operand

namespace OperatorTable

variable {T : OperatorTable}

/-- **What a row of operands stands for.** The last call is that of the operator which binds least
tightly: those before it bind at least as tightly, those behind it more tightly. Its operands are
what the rows on its two sides stand for. -/
inductive Groups (T : OperatorTable) : Operand → List (Token × Operand) → PlainTerm → Prop
  | single (o : Operand) : Groups T o [] o.term
  | split {first second : Operand} {before behind : List (Token × Operand)} {op : Token}
      {left right : PlainTerm}
      (hbefore : ∀ link ∈ before, T.linkPower op ≤ T.linkPower link.1)
      (hbehind : ∀ link ∈ behind, T.linkPower op < T.linkPower link.1)
      (hleft : Groups T first before left) (hright : Groups T second behind right) :
      Groups T first (before ++ (op, second) :: behind) (.callBetween left (T.leaf op.text) right)

/-- A row that is not empty has a weakest element such that those behind it are stronger. -/
theorem exists_weakest {β : Type} (power : β → Nat) {bs : List β} (h : bs ≠ []) :
    ∃ before b behind, bs = before ++ b :: behind ∧ (∀ c ∈ before, power b ≤ power c) ∧
      ∀ c ∈ behind, power b < power c := by
  induction bs with
  | nil => exact absurd rfl h
  | cons c bs ih =>
    cases bs with
    | nil => exact ⟨[], c, [], rfl, by simp, by simp⟩
    | cons d ds =>
      obtain ⟨before, b, behind, heq, hbefore, hbehind⟩ := ih (List.cons_ne_nil d ds)
      by_cases hc : power b ≤ power c
      · refine ⟨c :: before, b, behind, by rw [heq]; rfl, ?_, hbehind⟩
        exact List.forall_mem_cons.2 ⟨hc, hbefore⟩
      · refine ⟨[], c, d :: ds, rfl, by simp, ?_⟩
        intro e he
        rw [heq, List.mem_append, List.mem_cons] at he
        rcases he with he | rfl | he
        · have := hbefore e he
          omega
        · omega
        · have := hbehind e he
          omega

/-- Every row stands for a term, by induction on its length. -/
theorem exists_groups (T : OperatorTable) (first : Operand) (links : List (Token × Operand)) :
    ∃ m, T.Groups first links m := by
  induction hn : links.length using Nat.strong_induction_on generalizing first links with
  | _ n ih =>
    by_cases hlinks : links = []
    · rw [hlinks]
      exact ⟨_, .single first⟩
    · obtain ⟨before, ⟨op, second⟩, behind, rfl, hbefore, hbehind⟩ :=
        exists_weakest (fun link => T.linkPower link.1) hlinks
      rw [List.length_append, List.length_cons] at hn
      obtain ⟨left, hleft⟩ := ih before.length (by omega) first before rfl
      obtain ⟨right, hright⟩ := ih behind.length (by omega) second behind rfl
      exact ⟨_, .split hbefore hbehind hleft hright⟩

/-! ## Reading rows -/

theorem IsAtom.kind_ne_closing {t : Token} (h : T.IsAtom t) : t.kind ≠ .closing := by
  rcases h with ⟨h, -⟩ | h | h <;> simp [h]

section Tokens

variable {t : Token} (hword : kind? t.text = some t.kind)

include hword

/-- An atom is read as one argument wherever it stands. -/
theorem IsAtom.readsUnit (h : T.IsAtom t) :
    ReadsUnit T [t] false (some (.named t.text)) := by
  have hkind := h.kind_ne_closing
  have htext : t.text ≠ ")" := by
    intro htext
    rw [htext, show kind? ")" = some .closing by decide] at hword
    exact hkind (Option.some.inj hword).symm
  have hisWord : T.IsWord t.text := by
    unfold IsWord
    rw [hword, Option.some.injEq, Option.some.injEq, Option.some.injEq]
    exact h
  refine readsUnit_token hkind htext ?_ fun n rest => ?_
  · rcases h with ⟨hident, hget⟩ | hnumber | hquoted
    · simp [tokenPower, hident, power_word hget hisWord]
    · simp [tokenPower, hnumber]
    · simp [tokenPower, hquoted]
  · rcases h with ⟨hident, hget⟩ | hliteral
    · have hpower : T.tokenPower t = namePower := by
        simp [tokenPower, hident, power_word hget hisWord]
      have hminus : t.text ≠ "-" := fun htext =>
        ne_minus_of_word hisWord [] (by rw [htext]; rfl)
      rw [operand_name (.inl hident) (isBefore_unlisted hget) hminus hpower, leaf_unlisted hget]
      rfl
    · exact operand_literal hliteral n

/-- A token between operands has its power, which is one of those between the end and names. -/
theorem IsLink.power (hT : T.Built) (h : T.IsLink t) :
    T.tokenPower t = T.linkPower t ∧ endPower < T.tokenPower t ∧ T.tokenPower t < namePower ∧
      T.isBefore t.text = false := by
  unfold linkPower isBefore
  rcases h with ⟨hkind, op, hget, hfixity⟩ | ⟨hkind, hget⟩
  · have hget : T.get? t.text = some op := hget
    have hpower : T.tokenPower t = op.prec := by
      rcases hkind with hkind | hkind <;> simp [tokenPower, hkind, OperatorTable.power, hget]
    have hbetween := hT.isInfixPower hget hfixity
    simp only [OperatorTable.isInfixPower, Bool.and_eq_true, decide_eq_true_eq] at hbetween
    rw [hget, hpower]
    exact ⟨rfl, hbetween.1, hbetween.2, by simp [hfixity]⟩
  · rw [hkind] at hword
    obtain ⟨hident, hinteger, hstring⟩ := symbol_classes hword
    have hpower : T.tokenPower t = symbolPower := by
      simp [tokenPower, hkind, OperatorTable.power, hget, hident, hinteger, hstring]
    rw [hget, hpower]
    exact ⟨rfl, by decide, by decide, rfl⟩

end Tokens

/-- The tokens of an operand are atoms, each a word of its kind. -/
def IsOperand (T : OperatorTable) (o : Operand) : Prop :=
  ∀ t ∈ o.tokens, T.IsAtom t ∧ kind? t.text = some t.kind

/-- Atoms after an operand are its arguments, by induction on the atoms. -/
theorem chain_atoms {atoms : List Token}
    (h : ∀ t ∈ atoms, T.IsAtom t ∧ kind? t.text = some t.kind) {p : Nat} (hp : p < namePower)
    {left : PlainTerm} {rest : List Token} {r : Option (PlainTerm × List Token)}
    (hrest : Settles (fun n => chain T false n p false
      (left.applyAll (atoms.map fun t => .named t.text)) rest) r) :
    Settles (fun n => chain T false n p false left (atoms ++ rest)) r := by
  induction atoms generalizing left with
  | nil => exact hrest
  | cons t atoms ih =>
    obtain ⟨⟨hatom, hword⟩, hatoms⟩ := List.forall_mem_cons.1 h
    have hunit := (hatom.readsUnit hword).chain (atoms ++ rest) (p := p) hp false left
      (q := fun _ => r)
    refine hunit fun m hm => ?_
    cases hm
    exact ih hatoms hrest

/-- **Reading a row gives the term that it stands for**, where all operators of the row bind more
tightly than the power that is read at, and what follows binds no more tightly than any of them.
By induction on the grouping: the left row is read first, the operator ends it, and reading at the
power of the operator takes in the right row and no more. -/
theorem Groups.reads (hT : T.Built) {first : Operand} {links : List (Token × Operand)}
    {m : PlainTerm} (h : T.Groups first links m) (hfirst : T.IsOperand first)
    (hlinks : ∀ link ∈ links, (T.IsLink link.1 ∧ kind? link.1.text = some link.1.kind) ∧
      T.IsOperand link.2) {p : Nat} (hp : p < namePower)
    (htighter : ∀ link ∈ links, p < T.linkPower link.1) {rest : List Token}
    (hrest : ∀ t ∈ rest.head?, ∀ link ∈ links, T.tokenPower t ≤ T.linkPower link.1)
    {r : Option (PlainTerm × List Token)}
    (hchain : Settles (fun n => chain T false n p false m rest) r) :
    Settles (fun n => sequence false (operand T false n) (chain T false n p false)
      (first.row links ++ rest)) r := by
  induction h generalizing p rest r with
  | single o =>
    obtain ⟨⟨hatom, hword⟩, hargs⟩ := List.forall_mem_cons.1 hfirst
    have hrow : o.row [] ++ rest = [o.head] ++ (o.args ++ rest) := by
      simp [Operand.row, Operand.tokens]
    rw [hrow]
    refine (hatom.readsUnit hword).sequence (o.args ++ rest) p false (q := fun _ => r) ?_
    intro left hleft
    cases hleft
    exact chain_atoms hargs hp hchain
  | @split first second before behind op left right hbefore hbehind hleft hright ihl ihr =>
    obtain ⟨hlinksBefore, hlinksBehind⟩ := List.forall_mem_append.1 hlinks
    obtain ⟨⟨⟨hop, hopWord⟩, hsecond⟩, hlinksBehind⟩ := List.forall_mem_cons.1 hlinksBehind
    obtain ⟨htighterBefore, htighterBehind⟩ := List.forall_mem_append.1 htighter
    have htighterOp : p < T.linkPower op := htighterBehind (op, second) List.mem_cons_self
    obtain ⟨hpower, -, hlow, hnotBefore⟩ := hop.power hopWord hT
    have hmem : (op, second) ∈ before ++ (op, second) :: behind :=
      List.mem_append_right _ List.mem_cons_self
    -- the right row, up to what follows the whole row
    have hrightReads : Settles (fun n => sequence false (operand T false n)
        (chain T false n (T.tokenPower op) false) (second.row behind ++ rest))
        (some (right, rest)) := by
      refine ihr hsecond hlinksBehind hlow (fun link hlink => hpower ▸ hbehind link hlink) ?_ ?_
      · intro t ht link hlink
        exact hrest t ht link (List.mem_append_right _ (List.mem_cons_of_mem _ hlink))
      · refine (settles_pure (right, rest)).congr fun n => ?_
        cases rest with
        | nil => exact chain_closes closes_nil n
        | cons t ts =>
          refine chain_stop ?_ n
          have hle := hrest t rfl (op, second) hmem
          simpa [chainPower, hpower] using hle
    have hafter : Settles (fun n => chain T false n p false left
        (op :: (second.row behind ++ rest))) r := by
      have hbind := hrightReads.bind (g := fun n q =>
        chain T false n p false (.callBetween left (T.leaf op.text) q.1) q.2) (q := fun _ => r) ?_
      · exact hbind.succ fun n => chain_between (hpower ▸ htighterOp) hlow hnotBefore
          (hsecond second.head List.mem_cons_self).1.kind_ne_closing n
      · rintro q hq
        cases hq
        exact hchain
    have hrow : first.row (before ++ (op, second) :: behind) ++ rest =
        first.row before ++ (op :: (second.row behind ++ rest)) := by
      rw [Operand.row_append, List.append_assoc, List.cons_append]
    rw [hrow]
    refine ihl hfirst hlinksBefore hp htighterBefore ?_ hafter
    intro t ht link hlink
    cases ht
    rw [hpower]
    exact hbefore link hlink

end OperatorTable

/-! ## Texts -/

/-- A text is read as the term that its tokens settle on, under every limit that is high enough. -/
theorem Term.parse_of_settles {T : OperatorTable} {text : String} {ts : List Token} {m : PlainTerm}
    (hscan : scan text = ⟨ts, none⟩)
    (h : Settles (fun n => subterm T false n endPower ts) (some (m, []))) :
    ∃ least, ∀ limit ≥ least, parse T limit text = .ok m := by
  obtain ⟨least, hleast⟩ := h
  refine ⟨least, fun limit hlimit => parse_eq_ok.2 ?_⟩
  have hsubterm : subterm T false limit endPower ts = .ok (m, []) :=
    Style.eq_ok_of_toOption (hleast limit hlimit)
  rw [hscan, whole, Option.isSome_none, hsubterm]
  rfl

/-- **Reading groups operands by the weakest operator.** With a table made by adding operators, a
text that is a row of operands with operators between them stands for one term only, by its weakest
operators from the right, and is read as this term under every limit that is high enough. -/
theorem Term.parse_groups {T : OperatorTable} (hT : T.Built) {text : String} {first : Operand}
    {links : List (Token × Operand)} (htext : scan text = ⟨first.row links, none⟩)
    (hfirst : ∀ t ∈ first.tokens, T.IsAtom t)
    (hlinks : ∀ link ∈ links, T.IsLink link.1 ∧ ∀ t ∈ link.2.tokens, T.IsAtom t) :
    ∃ m, (∀ m', T.Groups first links m' ↔ m' = m) ∧
      ∃ least, ∀ limit ≥ least, parse T limit text = .ok m := by
  have hword : ∀ t ∈ first.row links, kind? t.text = some t.kind := by
    intro t ht
    have hscanned : t ∈ (scanFrom 0 text.toList).tokens := by
      rw [scan] at htext
      rw [htext]
      exact ht
    exact kind?_of_mem_scanFrom hscanned
  have hmem : ∀ link ∈ links, ∀ t ∈ link.1 :: link.2.tokens, t ∈ first.row links :=
    fun link hlink t ht => List.mem_append_right _ (List.mem_flatMap.2 ⟨link, hlink, ht⟩)
  have hoperand : T.IsOperand first := fun t ht =>
    ⟨hfirst t ht, hword t (List.mem_append_left _ ht)⟩
  have hrow : ∀ link ∈ links, (T.IsLink link.1 ∧ kind? link.1.text = some link.1.kind) ∧
      T.IsOperand link.2 := fun link hlink =>
    ⟨⟨(hlinks link hlink).1, hword _ (hmem link hlink _ List.mem_cons_self)⟩, fun t ht =>
      ⟨(hlinks link hlink).2 t ht, hword t (hmem link hlink t (List.mem_cons_of_mem _ ht))⟩⟩
  have hreads : ∀ m, T.Groups first links m →
      Settles (fun n => subterm T false n endPower (first.row links)) (some (m, [])) := by
    intro m hm
    have hpositive : ∀ link ∈ links, endPower < T.linkPower link.1 := fun link hlink => by
      obtain ⟨hpower, hpositive, -⟩ := (hrow link hlink).1.1.power (hrow link hlink).1.2 hT
      rwa [← hpower]
    have hends : Settles (fun n => chain T false n endPower false m []) (some (m, [])) :=
      (settles_pure (m, [])).congr fun n => chain_closes closes_nil n
    have hsettles := hm.reads hT hoperand hrow (by decide) hpositive (by simp) hends
    rwa [List.append_nil] at hsettles
  obtain ⟨m, hm⟩ := T.exists_groups first links
  refine ⟨m, fun m' => ⟨fun hm' => ?_, fun h => h ▸ hm⟩, parse_of_settles htext (hreads m hm)⟩
  have hsame := (hreads m' hm').unique (hreads m hm)
  exact congrArg Prod.fst (Option.some.inj hsame)

/-- Two operators of one power and a symbol that the table does not have: of the two the right one is
called last, and the symbol first. -/
theorem Term.parse_groups_tie :
    let T : OperatorTable := ⟨OperatorTable.standard.entries ++ [("mod", .between "mod" 40)]⟩
    let text := "a b + c mod 2 * d <> \"s\""
    let first : Operand := ⟨⟨.ident, "a", 0⟩, [⟨.ident, "b", 2⟩]⟩
    let plus : Token × Operand := (⟨.symbol, "+", 4⟩, ⟨⟨.ident, "c", 6⟩, []⟩)
    let modulo : Token × Operand := (⟨.ident, "mod", 8⟩, ⟨⟨.number, "2", 12⟩, []⟩)
    let times : Token × Operand := (⟨.symbol, "*", 14⟩, ⟨⟨.ident, "d", 16⟩, []⟩)
    let diamond : Token × Operand := (⟨.symbol, "<>", 18⟩, ⟨⟨.quoted, "\"s\"", 21⟩, []⟩)
    let product := callBetween (callBetween (named "c") (named "mod") (named "2")) (named "*")
      (callBetween (named "d") (named "<>") (named "\"s\""))
    T.Built ∧ scan text = ⟨first.row [plus, modulo, times, diamond], none⟩ ∧
      (∀ t ∈ first.tokens, T.IsAtom t) ∧
      (∀ link ∈ [plus, modulo, times, diamond],
        T.IsLink link.1 ∧ ∀ t ∈ link.2.tokens, T.IsAtom t) ∧
      ∃ least, ∀ limit ≥ least, parse T limit text =
        .ok (callBetween (call (named "a") (named "b")) (named "+") product) := by
  intro T text first plus modulo times diamond product
  have hadd : OperatorTable.add .standard (.between "mod" 40) = .ok T := by decide
  have hT : T.Built := .add OperatorTable.built_standard hadd
  have htext : scan text = ⟨first.row [plus, modulo, times, diamond], none⟩ := by decide +kernel
  have hfirst : ∀ t ∈ first.tokens, T.IsAtom t := by decide
  have hlinks : ∀ link ∈ [plus, modulo, times, diamond],
      T.IsLink link.1 ∧ ∀ t ∈ link.2.tokens, T.IsAtom t := by decide
  obtain ⟨m, hm, hparse⟩ := parse_groups hT htext hfirst hlinks
  have hleft : T.Groups plus.2 ([] ++ modulo :: [])
      (callBetween (named "c") (named "mod") (named "2")) :=
    .split (by decide) (by decide) (.single plus.2) (.single modulo.2)
  have hright : T.Groups times.2 ([] ++ diamond :: [])
      (callBetween (named "d") (named "<>") (named "\"s\"")) :=
    .split (by decide) (by decide) (.single times.2) (.single diamond.2)
  have hproduct : T.Groups plus.2 ([modulo] ++ times :: [diamond]) product :=
    .split (by decide) (by decide) hleft hright
  have hsum : T.Groups first ([] ++ plus :: [modulo, times, diamond])
      (callBetween (call (named "a") (named "b")) (named "+") product) :=
    .split (by decide) (by decide) (.single first) hproduct
  rw [← (hm _).1 hsum] at hparse
  exact ⟨hT, htext, hfirst, hlinks, hparse⟩

end ProofKernel
