import ProofKernel.Proofs.Literals
import ProofKernel.Proofs.Reading
import ProofKernel.Proofs.ReadingBack
import ProofKernel.Proofs.RoundTrip

/-!
# The levels that a bracketed text takes

A text in which every call stands in brackets of its own, and no operator occurs, is read in the
same way with every table. These lemmas also say how much room it takes, to the level.

* `Parser.Needs`: what a reader gives with enough room, and that with less the nesting is too deep;
* `Parser.ReadsHead`, `Parser.ReadsNest`: tokens that are one operand, or one argument wherever they
  stand, and take so many levels;
* `OperatorTable.Spells`: texts that consist of such tokens: names, literals, negative numerals in
  brackets, calls in brackets, abstractions;
* `OperatorTable.Spells.parse`: such a text is read as its term under every limit that is no lower
  than its levels, and is nested too deeply for every lower one.
-/

namespace ProofKernel

namespace Parser

/-! ## Exactly enough room -/

section Needs

variable {β γ : Type}

/-- A reader gives a result with some number of levels, or more; with less the nesting is too
deep. -/
structure Needs (f : Nat → Except Fault β) (least : Nat) (b : β) : Prop where
  enough : ∀ room ≥ least, f room = .ok b
  short : ∀ room < least, ∃ t, f room = .error (.refused .tooDeep t)

theorem needs_of_eq {f : Nat → Except Fault β} {b : β} (h : ∀ room, f room = .ok b) :
    Needs f 0 b :=
  ⟨fun room _ => h room, fun room hroom => absurd hroom (Nat.not_lt_zero room)⟩

theorem Needs.congr {f g : Nat → Except Fault β} {least : Nat} {b : β} (h : Needs f least b)
    (hg : ∀ room, g room = f room) : Needs g least b :=
  ⟨fun room hroom => by rw [hg, h.enough room hroom],
    fun room hroom => by rw [hg]; exact h.short room hroom⟩

/-- A reader that takes one level of the room. -/
theorem Needs.succ {f g : Nat → Except Fault β} {least : Nat} {b : β} (h : Needs f least b)
    (hg : ∀ room, g (room + 1) = f room) (h₀ : ∃ t, g 0 = .error (.refused .tooDeep t)) :
    Needs g (least + 1) b := by
  constructor
  · intro room hroom
    obtain ⟨n, rfl⟩ : ∃ n, room = n + 1 := ⟨room - 1, by omega⟩
    rw [hg]
    exact h.enough n (by omega)
  · intro room hroom
    cases room with
    | zero => exact h₀
    | succ n =>
      rw [hg]
      exact h.short n (by omega)

theorem Needs.bind {f : Nat → Except Fault β} {g : Nat → β → Except Fault γ} {n m : Nat} {b : β}
    {c : γ} (hf : Needs f n b) (hg : Needs (fun room => g room b) m c) :
    Needs (fun room => f room >>= g room) (max n m) c := by
  constructor
  · intro room hroom
    rw [hf.enough room (by omega)]
    exact hg.enough room (by omega)
  · intro room hroom
    by_cases hn : room < n
    · obtain ⟨t, ht⟩ := hf.short room hn
      exact ⟨t, by rw [ht]; rfl⟩
    · rw [hf.enough room (by omega)]
      exact hg.short room (by omega)

end Needs

/-! ## Arguments -/

/-- A term with the levels that its text takes. -/
structure Nest where
  levels : Nat
  term : PlainTerm

namespace Nest

/-- The levels of a row of arguments: each one takes a link of the chain. -/
def chainLevels : List Nest → Nat
  | [] => 0
  | n :: ns => max n.levels (chainLevels ns) + 1

/-- A row of arguments after a head, in brackets. -/
def call (head : Nest) (args : List Nest) : Nest :=
  ⟨max head.levels (chainLevels args) + 1, head.term.applyAll (args.map term)⟩

/-- An abstraction. -/
def lambda (bound : Name) (body : Nest) : Nest := ⟨body.levels + 1, .lambda bound body.term⟩

/-- A name or a literal. -/
def word (text : String) : Nest := ⟨0, .named text⟩

/-- Each argument takes a level of its own. -/
theorem length_le_chainLevels (ns : List Nest) : ns.length ≤ chainLevels ns := by
  induction ns with
  | nil => exact Nat.le_refl 0
  | cons n ns ih =>
    rw [List.length_cons, chainLevels]
    omega

theorem levels_lt_chainLevels {n : Nest} {ns : List Nest} (h : n ∈ ns) :
    n.levels < chainLevels ns := by
  induction ns with
  | nil => cases h
  | cons k ns ih =>
    rw [chainLevels]
    rcases List.mem_cons.1 h with rfl | h
    · omega
    · have hlt := ih h
      omega

theorem length_lt_levels (head : Nest) (ns : List Nest) : ns.length < (head.call ns).levels := by
  have hle := length_le_chainLevels ns
  show ns.length < max head.levels (chainLevels ns) + 1
  omega

theorem levels_lt_levels (head : Nest) {n : Nest} {ns : List Nest} (h : n ∈ ns) :
    n.levels < (head.call ns).levels := by
  have hlt := levels_lt_chainLevels h
  show n.levels < max head.levels (chainLevels ns) + 1
  omega

end Nest

variable {T : OperatorTable}

/-- Tokens that are read as one operand, whatever follows, and take so many levels. -/
structure ReadsHead (T : OperatorTable) (ts : List Token) (n : Nest) : Prop where
  first : ∃ t us, ts = t :: us ∧ t.kind ≠ .closing ∧ t.text ≠ ")"
  lone : ∀ rest, (∀ t ∈ rest.head?, t.text ≠ ")") → isLone T (ts ++ rest) = false
  reads : ∀ rest, Needs (fun room => operand T false room (ts ++ rest)) n.levels (some n.term, rest)

/-- Tokens that are one argument, also after other operands. -/
structure ReadsNest (T : OperatorTable) (ts : List Token) (n : Nest) : Prop extends
    ReadsHead T ts n where
  power : ∀ t ∈ ts.head?, namePower ≤ T.tokenPower t

/-- The tokens of a row of arguments. -/
def ReadsNests (T : OperatorTable) : List Nest → List Token → Prop
  | [], ts => ts = []
  | n :: ns, ts => ∃ us vs, ReadsNest T us n ∧ ReadsNests T ns vs ∧ ts = us ++ vs

theorem readsNests_nil : ReadsNests T [] [] := rfl

/-- Without room a chain takes no link. -/
theorem chain_short {t : Token} {p : Nat} {after : Bool} (h : p < chainPower T after t)
    (left : PlainTerm) (ts : List Token) :
    chain T false 0 p after left (t :: ts) = .error (.refused .tooDeep t) := by
  have hpower : ¬ chainPower T after t ≤ p := by omega
  simp only [chain]
  exact if_neg hpower

/-- **A row of arguments takes as many levels as its links**, by induction on the row. -/
theorem ReadsNests.chain {ns : List Nest} {ts rest : List Token} (h : ReadsNests T ns ts)
    (hrest : Closes rest) (left : PlainTerm) :
    Needs (fun room => Parser.chain T false room endPower false left (ts ++ rest))
      (Nest.chainLevels ns) (left.applyAll (ns.map Nest.term), rest) := by
  induction ns generalizing ts left with
  | nil =>
    cases h
    exact needs_of_eq fun room => chain_closes hrest room
  | cons n ns ih =>
    obtain ⟨us, vs, hus, hvs, rfl⟩ := h
    obtain ⟨t, us', rfl, -, -⟩ := hus.first
    have hpower : namePower ≤ chainPower T false t := by
      simpa [chainPower] using hus.power t rfl
    have hlow : endPower < chainPower T false t := Nat.lt_of_lt_of_le (by decide) hpower
    rw [List.append_assoc]
    exact ((hus.reads (vs ++ rest)).bind (ih hvs (.call left n.term))).succ
      (fun room => chain_argument hlow hpower room) ⟨t, chain_short hlow left _⟩

theorem ReadsNests.first {n : Nest} {ns : List Nest} {ts : List Token}
    (h : ReadsNests T (n :: ns) ts) : ∃ t us, ts = t :: us ∧ t.text ≠ ")" := by
  obtain ⟨us, vs, hus, -, rfl⟩ := h
  obtain ⟨t, us', rfl, -, htext⟩ := hus.first
  exact ⟨t, us' ++ vs, rfl, htext⟩

/-! ## Brackets -/

/-- What is read between brackets is one argument together with them. -/
theorem readsNest_opening {text : String} {o n : Nat} {m : PlainTerm} {ts : List Token}
    (htext : text ≠ ")")
    (h : ∀ rest, Needs (fun room =>
      bracketed T false (subterm T false room endPower) ⟨.opening, text, o⟩ (ts ++ rest)) n
      (m, rest)) : ReadsNest T (⟨.opening, text, o⟩ :: ts) ⟨n + 1, m⟩ := by
  refine ⟨⟨⟨_, _, rfl, by simp, htext⟩, ?_, ?_⟩, ?_⟩
  · intro rest _
    rw [List.cons_append]
    cases ts ++ rest <;> simp [isLone, isBareOperator]
  · intro rest
    have hbind := (h rest).bind (g := fun _ b => pure (some b.1, b.2))
      (needs_of_eq (b := (some m, rest)) fun _ => rfl)
    rw [Nat.max_zero] at hbind
    refine hbind.succ ?_ ⟨⟨.opening, text, o⟩, by simp [operand]⟩
    intro room
    simp only [List.cons_append, operand]
    rfl
  · rintro t ht
    cases ht
    show namePower ≤ bracketPower
    decide

/-- A head and a row of arguments, up to the closing bracket. -/
theorem subterm_needs {us vs rest : List Token} {head : Nest} {args : List Nest}
    (hhead : ReadsHead T us head) (hargs : ReadsNests T args vs) (hrest : Closes rest) :
    Needs (fun room => subterm T false room endPower (us ++ (vs ++ rest)))
      (max head.levels (Nest.chainLevels args)) (head.term.applyAll (args.map Nest.term), rest) :=
  (hhead.reads (vs ++ rest)).bind (hargs.chain hrest head.term)

/-- **A call in brackets takes one level more than what stands in them.** -/
theorem ReadsHead.call {us vs : List Token} {head : Nest} {args : List Nest}
    (hhead : ReadsHead T us head) (hargs : ReadsNests T args vs)
    (hlone : ∀ c rest, isLone T (us ++ (vs ++ ⟨.closing, ")", c⟩ :: rest)) = false) (o c : Nat) :
    ReadsNest T (⟨.opening, "(", o⟩ :: (us ++ vs ++ [⟨.closing, ")", c⟩])) (.call head args) := by
  refine readsNest_opening (by decide) ?_
  intro rest
  have hcloses : Closes (⟨.closing, ")", c⟩ :: rest) := closes_cons rfl
  have hinner := subterm_needs hhead hargs hcloses
  have hgroup := hinner.bind (g := fun _ b => expect false .closing ")" b.2 >>= fun e =>
    pure (b.1, e.2)) (needs_of_eq (b := (head.term.applyAll (args.map Nest.term), rest))
      fun room => by simp [expect, next]; rfl)
  rw [Nat.max_zero] at hgroup
  rw [List.append_assoc, List.append_assoc, List.singleton_append]
  exact hgroup.congr fun room => bracketed_of_not_lone (hlone c rest) _ rfl

/-- **An abstraction takes one level more than its body.** -/
theorem ReadsNest.lambda {b : String} (hb : Name.isVariable b = true) {us : List Token} {body : Nest}
    (h : ReadsNest T us body) (o i d c : Nat) :
    ReadsNest T (⟨.opening, "\x7b", o⟩ :: ⟨.ident, b, i⟩ :: ⟨.symbol, ".", d⟩ ::
      (us ++ [⟨.closing, "\x7d", c⟩])) (.lambda b body) := by
  refine readsNest_opening (by decide) ?_
  intro rest
  have hcloses : Closes (⟨.closing, "\x7d", c⟩ :: rest) := closes_cons rfl
  have hinner := subterm_needs h.toReadsHead readsNests_nil hcloses
  have hbody := hinner.bind (g := fun _ m => do
    let closed ← expect false .closing "\x7d" m.2
    return (Term.lambda b m.1, closed.2)) (needs_of_eq (b := (.lambda b body.term, rest))
      fun room => by simp [expect, next]; rfl)
  simp only [Nest.chainLevels, Nat.max_zero] at hbody
  simp only [List.cons_append, List.append_assoc, List.nil_append]
  exact hbody.congr fun room => abstraction_eq hb _ i d _

/-- A token that is an operand is an argument. -/
theorem readsNest_token {t : Token} {m : PlainTerm} (hkind : t.kind ≠ .closing) (htext : t.text ≠ ")")
    (hpower : T.tokenPower t = namePower)
    (hread : ∀ room rest, operand T false room (t :: rest) = .ok (some m, rest)) :
    ReadsNest T [t] ⟨0, m⟩ := by
  have hunit := readsUnit_token hkind htext hpower hread
  refine ⟨⟨hunit.first, hunit.lone, fun rest => needs_of_eq fun room => hread room rest⟩, ?_⟩
  rintro u hu
  cases hu
  exact Nat.le_of_eq hpower.symm

end Parser

open ProofKernel.Parser ProofKernel.Token ProofKernel.Style

/-! ## Texts -/

/-- Texts side by side, each after a blank. -/
def spreadTexts (texts : List String) : String := String.join (texts.map fun text => " " ++ text)

theorem spreadTexts_cons (text : String) (texts : List String) :
    (spreadTexts (text :: texts)).toList = ' ' :: text.toList ++ (spreadTexts texts).toList := by
  simp [spreadTexts, String.toList_append]

theorem apart_spreadTexts (texts : List String) {rest : List Char} (h : Apart rest) :
    Apart ((spreadTexts texts).toList ++ rest) := by
  cases texts with
  | nil => exact h
  | cons text texts =>
    rw [spreadTexts_cons]
    exact apart_blank _

namespace OperatorTable

/-- A text is one argument that takes so many levels, wherever it stands. -/
def Spells (T : OperatorTable) (text : String) (n : Nest) : Prop :=
  Scans text.toList fun ts => ReadsNest T ts n

variable {T : OperatorTable}

/-- A name that is no operator. -/
theorem readsNest_identifier {name : Name} (hident : name.isIdentifier = true)
    (hget : T.get? name = none) (offset : Nat) :
    ReadsNest T [⟨.ident, name, offset⟩] (.word name) := by
  have hkind := kind?_identifier hident
  have hminus : name ≠ "-" := by
    rintro rfl
    revert hident
    decide
  have hpower : T.power name = namePower := by
    simp [power, hget, hident]
  refine readsNest_token (by simp) (ne_bracket hkind (by decide)) hpower fun room rest => ?_
  rw [operand_name (t := ⟨.ident, name, offset⟩) (.inl rfl) (isBefore_unlisted hget) hminus hpower,
    leaf_unlisted hget]
  rfl

theorem spells_identifier {name : Name} (hident : name.isIdentifier = true)
    (hget : T.get? name = none) : T.Spells name (.word name) := by
  refine (scans_word (kind?_identifier hident)).mono ?_
  rintro _ ⟨offset, rfl⟩
  exact readsNest_identifier hident hget offset

/-- Such a name in brackets. -/
theorem spells_alone {name : Name} (hident : name.isIdentifier = true) (hget : T.get? name = none) :
    T.Spells (bracket name) (.call (.word name) []) := by
  have henclose := (scans_word (kind?_identifier hident)).enclose (o := "(") (c := ")") (by decide)
    (by decide) apart_parenthesis
  rw [Spells, bracket_toList]
  refine henclose.mono ?_
  rintro _ ⟨o, c, _, ⟨offset, rfl⟩, rfl⟩
  refine (readsNest_identifier hident hget offset).toReadsHead.call readsNests_nil ?_ o c
  intro c rest
  simp [isLone, isBareOperator, hget]

/-- A number or a quoted string. -/
theorem spells_literal {text : String} {kind : TokenKind} (hkind : kind? text = some kind)
    (h : kind = .number ∨ kind = .quoted) : T.Spells text (.word text) := by
  have hclosing : kind ≠ .closing := by
    rcases h with rfl | rfl <;> decide
  refine (scans_word hkind).mono ?_
  rintro _ ⟨offset, rfl⟩
  refine readsNest_token hclosing (ne_bracket hkind hclosing) ?_ fun room rest =>
    operand_literal h room
  rcases h with rfl | rfl <;> rfl

theorem spells_repr (n : Nat) : T.Spells n.repr (.word n.repr) :=
  spells_literal (kind?_repr n) (.inl rfl)

theorem spells_quote (s : String) : T.Spells (Text.quote s) (.word (Text.quote s)) :=
  spells_literal (kind?_quote s) (.inr rfl)

/-- A negative numeral in brackets. -/
theorem spells_negative (hminus : HasMinus T) (n : Nat) :
    T.Spells (bracket ("-" ++ n.repr)) ⟨1, .named ("-" ++ n.repr)⟩ := by
  have hkind := kind?_repr n
  have hdigits := ne_bracket hkind (by decide)
  have henclose := (scans_minus hkind).enclose (o := "(") (c := ")") (by decide) (by decide)
    apart_parenthesis
  rw [Spells, bracket_toList]
  refine henclose.mono ?_
  rintro _ ⟨o, c, _, ⟨offset, rfl⟩, rfl⟩
  have hoperand := readsOperand_numeral hminus hdigits offset
  have hnumeral : ReadsHead T [⟨.symbol, "-", offset⟩, ⟨.number, n.repr, offset + 1⟩]
      (.word ("-" ++ n.repr)) :=
    ⟨hoperand.first, hoperand.lone, fun rest => needs_of_eq fun room =>
      operand_numeral hminus n.repr offset room⟩
  exact hnumeral.call readsNests_nil (fun c rest => by simp [isLone, hdigits]) o c

/-- Texts side by side that are one argument each. -/
theorem spells_row {texts : List String} {ns : List Nest} (h : List.Forall₂ T.Spells texts ns) :
    Scans (spreadTexts texts).toList (ReadsNests T ns) := by
  induction h with
  | nil => exact scans_nil.mono fun ts hts => hts
  | @cons text n texts ns hn hns ih =>
    have hrow := Scans.append (Scans.blank hn) ih fun rest hrest => apart_spreadTexts texts hrest
    rw [spreadTexts_cons]
    exact hrow.mono fun ts ⟨us, vs, hus, hvs, hts⟩ => ⟨us, vs, hus, hvs, hts⟩

/-- **A call in brackets.** -/
theorem Spells.call {text : String} {texts : List String} {head : Nest} {args : List Nest}
    (hhead : T.Spells text head) (hargs : List.Forall₂ T.Spells texts args)
    (hne : args ≠ []) :
    T.Spells (bracket (text ++ spreadTexts texts)) (.call head args) := by
  have hinner := Scans.append hhead (spells_row hargs) fun rest hrest => apart_spreadTexts texts hrest
  have henclose := hinner.enclose (o := "(") (c := ")") (by decide) (by decide) apart_parenthesis
  rw [Spells, bracket_toList, String.toList_append]
  refine henclose.mono ?_
  rintro _ ⟨o, c, _, ⟨us, vs, hus, hvs, rfl⟩, rfl⟩
  refine hus.call hvs ?_ o c
  intro c rest
  obtain ⟨n, ns, rfl⟩ := List.exists_cons_of_ne_nil hne
  obtain ⟨t, vs', rfl, htext⟩ := hvs.first
  exact hus.lone _ fun u hu => by cases hu; exact htext

/-- **An abstraction.** -/
theorem Spells.lambda {b : Name} {text : String} (hident : b.isIdentifier = true)
    (hb : b.isVariable = true) {n : Nest} (h : T.Spells text n) :
    T.Spells ("\x7b" ++ b ++ ". " ++ text ++ "\x7d") (.lambda b n) := by
  rw [Spells, brace_toList]
  refine (scans_brace (kind?_identifier hident) h).mono ?_
  rintro _ ⟨o, i, d, c, us, hus, rfl⟩
  exact hus.lambda hb o i d c

/-- **A text is read as its term under every limit that is no lower than its levels**, and is nested
too deeply for every lower one. -/
theorem Spells.parse {text : String} {n : Nest} (h : T.Spells text n) (limit : Nat) :
    (n.levels ≤ limit → Term.parse T limit text = .ok n.term) ∧
      (limit < n.levels → ∃ place, Term.parse T limit text = .error (.refused .tooDeep place)) := by
  obtain ⟨ts, hts, hscan⟩ := h 0 [] nofun
  have hstream : scan text = ⟨ts, none⟩ := by
    rw [List.append_nil] at hscan
    rw [scan, hscan, scanFrom_nil]
    simp
  have hterm := subterm_needs hts.toReadsHead readsNests_nil closes_nil
  have hwhole : Needs (fun room => whole T room (scan text)) n.levels n.term := by
    have hbind := hterm.bind (g := fun _ b => do
      finish false b.2
      return b.1) (needs_of_eq (b := n.term) fun _ => rfl)
    simp only [List.append_nil, Nest.chainLevels, Nat.max_zero] at hbind
    rw [hstream]
    exact hbind
  refine ⟨fun hle => Term.parse_eq_ok.2 (hwhole.enough limit hle), fun hlt => ?_⟩
  obtain ⟨t, ht⟩ := hwhole.short limit hlt
  refine ⟨t.excerpt ⟨"<input>", text⟩, ?_⟩
  show (whole T limit (scan text)).mapError _ = _
  rw [ht]
  rfl

end OperatorTable

end ProofKernel
