import ProofKernel.Proofs.Lexing
import ProofKernel.Proofs.Reading
import ProofKernel.Term.Pretty

/-!
# Leaves and how they are shown

* `OperatorTable.Legible`: tables whose spellings are tokens, read as what they are shown for;
* `OperatorTable.Leaf`: the leaves of terms that are read;
* `OperatorTable.role`: how a leaf is shown beside other terms;
* `Style.Shows`, `OperatorTable.Leaf.shows`: the text of a leaf is read as the leaf, as its role
  says.
-/

namespace ProofKernel

open ProofKernel.Token ProofKernel.Parser

/-! ## The classes of words -/

section Words

variable {text : String}

theorem isIdentifier_of_kind? (h : kind? text = some .ident) : Name.isIdentifier text = true := by
  obtain ⟨c, cs, htext, hc, hcs⟩ := ident_characters h
  simpa [Name.isIdentifier, htext, hc] using hcs

theorem natural?_of_kind? (h : kind? text = some .number) :
    ∃ n, Name.natural? text.toList = some n := by
  obtain ⟨c, cs, htext, hc, hcs⟩ := number_characters h
  have hall : text.toList ≠ [] ∧ text.toList.all Char.isDigit = true := by
    rw [htext]
    simpa [hc] using hcs
  exact ⟨_, if_pos hall⟩

theorem isInteger_of_kind? (h : kind? text = some .number) : Name.isInteger text = true := by
  obtain ⟨n, hn⟩ := natural?_of_kind? h
  obtain ⟨c, cs, htext, hc, -⟩ := number_characters h
  have hminus : c ≠ '-' := by
    rintro rfl
    exact absurd hc (by decide)
  rw [htext] at hn
  unfold Name.isInteger Name.integer?
  rw [htext]
  split
  next ds hds =>
    cases hds
    exact absurd rfl hminus
  next => simp [hn]

theorem isString_of_kind? (h : kind? text = some .quoted) : Name.isString text = true := by
  obtain ⟨cs, body, htext, hbody⟩ := quoted_characters h
  simp [Name.isString, Text.isQuoted, htext, hbody]

/-- A symbol is none of the other classes. -/
theorem symbol_classes (h : kind? text = some .symbol) :
    Name.isIdentifier text = false ∧ Name.isInteger text = false ∧ Name.isString text = false := by
  obtain ⟨c, cs, htext, hc, hcs⟩ := symbol_characters h
  have hnot : ∀ d, isSymbolic d = true → isIdentStart d = false ∧ d.isDigit = false ∧ d ≠ '"' := by
    intro d hd
    simp only [isSymbolic, Bool.not_eq_true', Bool.or_eq_false_iff, beq_eq_false_iff_ne] at hd
    exact ⟨hd.1.1.1.1.1, hd.1.1.1.1.2, hd.2⟩
  obtain ⟨hident, hdigit, hquote⟩ := hnot c hc
  have hnatural : ∀ ds : List Char, (∀ d ∈ ds, isSymbolic d = true) → Name.natural? ds = none := by
    intro ds hds
    unfold Name.natural?
    rw [if_neg]
    rintro ⟨hne, hall⟩
    obtain ⟨d, ds', rfl⟩ := List.exists_cons_of_ne_nil hne
    have hd := (hnot d (hds d List.mem_cons_self)).2.1
    simp [hd] at hall
  refine ⟨by simp [Name.isIdentifier, htext, hident], ?_, ?_⟩
  · unfold Name.isInteger Name.integer?
    rw [htext]
    split
    next ds hds =>
      cases hds
      simp [hnatural cs hcs]
    next =>
      rw [hnatural (c :: cs) (List.forall_mem_cons.2 ⟨hc, hcs⟩)]
      rfl
  · simp only [Name.isString, Text.isQuoted, htext]
    split
    next ds hds =>
      cases hds
      exact absurd rfl hquote
    next => rfl

end Words

/-- Only a numeral with a minus sign is negative. -/
theorem isNegative_eq_false {text : String} (h : ∀ cs, text.toList ≠ '-' :: cs) :
    (Term.var (Atom.plain text)).isNegative = false := by
  have hinteger : Name.integer? text = (Name.natural? text.toList).map Int.ofNat := by
    unfold Name.integer?
    split
    next cs hcs => exact absurd hcs (h cs)
    next => cases Name.natural? text.toList <;> rfl
  have hliteral : ∀ n, Literal.ofName? text = some (.int n) → 0 ≤ n := by
    intro n hn
    unfold Literal.ofName? at hn
    rw [hinteger] at hn
    cases hnat : Name.natural? text.toList with
    | some k =>
      have hn : fitsWord k = true ∧ (k : Int) = n := by simpa [hnat] using hn
      omega
    | none => simp [hnat] at hn
  simp only [Term.isNegative, Term.number?]
  split
  next n hn =>
    have := hliteral n hn
    simpa using this
  next => rfl

/-! ## Tables -/

namespace OperatorTable

/-- **Legible tables.** Every spelling is an identifier or a symbol, both spellings of an operator
find it, and operators between their operands bind less tightly than names. The minus sign and its
negation are the usual ones. -/
structure Legible (T : OperatorTable) : Prop where
  kind : ∀ key op, T.get? key = some op → kind? key = some .ident ∨ kind? key = some .symbol
  symbol : ∀ key op, T.get? key = some op → T.get? op.symbol = some op
  unicode : ∀ key op text, T.get? key = some op → op.unicode? = some text → T.get? text = some op
  spelled : ∀ key op, T.get? key = some op → key = op.symbol ∨ op.unicode? = some key
  power : ∀ key op, T.get? key = some op → op.fixity = .between → isInfixPower op.prec = true
  minus : HasMinus T
  neg : T.get? "neg" = some (.before "neg")

theorem mem_of_get? {T : OperatorTable} {key : String} {op : Operator} (h : T.get? key = some op) :
    (key, op) ∈ T.entries := by
  obtain ⟨entry, hfind, rfl⟩ := Option.map_eq_some_iff.1 h
  have hkey : entry.1 = key := by simpa using List.find?_some hfind
  subst hkey
  exact List.mem_of_find?_eq_some hfind

theorem legible_standard : Legible .standard := by
  have hall : ∀ entry ∈ standard.entries,
      (kind? entry.1 = some .ident ∨ kind? entry.1 = some .symbol) ∧
      standard.get? entry.2.symbol = some entry.2 ∧
      (∀ text ∈ entry.2.unicode?, standard.get? text = some entry.2) ∧
      (entry.1 = entry.2.symbol ∨ entry.2.unicode? = some entry.1) ∧
      (entry.2.fixity = .between → isInfixPower entry.2.prec = true) := by
    decide
  refine ⟨fun key op h => ?_, fun key op h => ?_, fun key op text h htext => ?_, fun key op h => ?_,
    fun key op h hfixity => ?_, rfl, rfl⟩
  all_goals have hentry := hall (key, op) (mem_of_get? h)
  · exact hentry.1
  · exact hentry.2.1
  · exact hentry.2.2.1 text htext
  · exact hentry.2.2.2.1
  · exact hentry.2.2.2.2 hfixity

/-- Words that are no operators: identifiers that a table does not have, numbers and literals. -/
def IsWord (T : OperatorTable) (text : String) : Prop :=
  kind? text = some .ident ∧ T.get? text = none ∨ kind? text = some .number ∨
    kind? text = some .quoted

/-- The leaves of terms that are read: words that are no operators, negated numerals, and operators
as a table reads them. -/
inductive Leaf (T : OperatorTable) : Atom Unit → Prop
  | word {text : String} (hword : T.IsWord text) : Leaf T (.plain text)
  | numeral {digits : String} (hkind : kind? digits = some .number) :
    Leaf T (.plain ("-" ++ digits))
  | operator {text : String} {a : Atom Unit}
      (hkind : kind? text = some .ident ∧ (T.get? text).isSome ∨ kind? text = some .symbol)
      (ha : T.leaf text = .var a) : Leaf T a

end OperatorTable

/-! ## Roles -/

/-- How a leaf is shown: as it is, as a numeral with a minus sign, which may need brackets, between
its arguments, or before them. -/
inductive Role where
  | name
  | numeral (digits : String) (negative : Bool)
  | between
  | before
deriving DecidableEq, Repr

/-- The role of a leaf. -/
def OperatorTable.role (T : OperatorTable) {ι : Type} (a : Atom ι) : Role :=
  if T.isInfix a then .between
  else if (T.operatorOf? a).isSome then .before
  else match a.name.toList with
    | '-' :: digits => .numeral (.ofList digits) (Term.var a).isNegative
    | _ => .name

theorem OperatorTable.role_eq_between {T : OperatorTable} {ι : Type} {a : Atom ι} :
    T.role a = .between ↔ T.isInfix a = true := by
  unfold role
  split
  next h => simp [h]
  next h =>
    simp only [h]
    split
    next => simp
    next => split <;> simp

theorem OperatorTable.isOperator_eq {T : OperatorTable} {ι : Type} (a : Atom ι) :
    T.isOperator a = decide (T.role a = .between ∨ T.role a = .before) := by
  unfold isOperator role
  split
  next h => simp [h]
  next h =>
    have h : T.isInfix a = false := by simpa using h
    split
    next hop => simp [hop]
    next hop =>
      have hop : (T.operatorOf? a).isSome = false := by simpa using hop
      rw [h, hop]
      split <;> simp

/-- A word that is read as an operator of a role. -/
structure OperatorWord (T : OperatorTable) (a : Atom Unit) (kind : TokenKind) (text : String) :
    Prop where
  word : kind? text = some kind
  name : kind = .ident ∨ kind = .symbol
  leaf : T.leaf text = .var a
  bare : ∀ offset, isBareOperator T ⟨kind, text, offset⟩ = true

theorem OperatorWord.not_closing {T : OperatorTable} {a : Atom Unit} {kind : TokenKind}
    {text : String} (h : OperatorWord T a kind text) : kind ≠ .closing := by
  rcases h.name with rfl | rfl <;> decide

/-- The text of a leaf is read as the leaf, as its role says. -/
inductive Style.Shows (s : Style) (a : Atom Unit) : Role → Prop
  | name {kind : TokenKind} (hkind : kind? (s.atomText a) = some kind)
      (hreads : ∀ offset, ReadsUnit s.table [⟨kind, s.atomText a, offset⟩] false (some (.var a)))
      (hnegative : (Term.var a).isNegative = false) : Shows s a .name
  | numeral {digits : String} (hkind : kind? digits = some .number)
      (ha : a = .plain ("-" ++ digits)) (htext : s.atomText a = "-" ++ digits) :
      Shows s a (.numeral digits (Term.var a).isNegative)
  | between {kind : TokenKind} (hword : OperatorWord s.table a kind (s.atomText a))
      (hpower : ∀ offset, endPower < s.table.tokenPower ⟨kind, s.atomText a, offset⟩ ∧
        s.table.tokenPower ⟨kind, s.atomText a, offset⟩ < namePower)
      (hbefore : s.table.isBefore (s.atomText a) = false) : Shows s a .between
  | before {kind : TokenKind} (hword : OperatorWord s.table a kind (s.atomText a))
      (hbefore : s.table.isBefore (s.atomText a) = true) : Shows s a .before

namespace OperatorTable

/-! ### Words that a table does not have -/

section Unlisted

variable {T : OperatorTable} {text : String} (hget : T.get? text = none)

include hget

theorem operatorOf?_unlisted : T.operatorOf? (.plain text) = none := by
  simp [operatorOf?, Atom.plain, Atom.shown, hget]

theorem leaf_unlisted : T.leaf text = .var (.plain text) := by
  simp [leaf, hget, Term.named]

theorem isBefore_unlisted : T.isBefore text = false := by
  simp [isBefore, hget]

theorem atomText_unlisted (unicode : Bool) : Style.atomText ⟨T, unicode⟩ (.plain text) = text := by
  rw [Style.atomText, operatorOf?_unlisted hget]
  cases unicode <;> rfl

theorem isInfix_unlisted : T.isInfix (.plain text) = isInfixPower (T.power text) := by
  rw [isInfix, operatorOf?_unlisted hget]
  rfl

/-- A word with the power of names is a name, or a numeral with a minus sign. -/
theorem role_unlisted (hpower : T.power text = namePower) :
    T.role (.plain text) = match text.toList with
      | '-' :: digits => .numeral (.ofList digits) (Term.var (.plain text)).isNegative
      | _ => .name := by
  have hlow : T.isInfix (.plain text) = false := by
    rw [isInfix_unlisted hget, hpower]
    decide
  unfold role
  rw [hlow, operatorOf?_unlisted hget]
  rfl

end Unlisted

section Shows

variable {T : OperatorTable} (hT : T.Legible) (unicode : Bool)

include hT

theorem Legible.get?_eq_none {text : String} (hident : kind? text ≠ some .ident)
    (hsymbol : kind? text ≠ some .symbol) : T.get? text = none := by
  cases hget : T.get? text with
  | none => rfl
  | some op => exact ((hT.kind text op hget).elim hident hsymbol).elim

theorem Legible.get?_word {text : String} (h : T.IsWord text) : T.get? text = none := by
  rcases h with ⟨-, hget⟩ | hkind | hkind
  · exact hget
  · exact hT.get?_eq_none (by simp [hkind]) (by simp [hkind])
  · exact hT.get?_eq_none (by simp [hkind]) (by simp [hkind])

omit hT in
theorem power_word {text : String} (hget : T.get? text = none) (h : T.IsWord text) :
    T.power text = namePower := by
  rcases h with ⟨hkind, -⟩ | hkind | hkind
  · simp [power, hget, isIdentifier_of_kind? hkind]
  · simp [power, hget, isInteger_of_kind? hkind]
  · simp [power, hget, isString_of_kind? hkind]

omit hT in
theorem ne_minus_of_word {text : String} (h : T.IsWord text) (cs : List Char) :
    text.toList ≠ '-' :: cs := by
  intro hcs
  rcases h with ⟨hkind, -⟩ | hkind | hkind
  · obtain ⟨c, ds, htext, hc, -⟩ := ident_characters hkind
    rw [hcs] at htext
    cases htext
    exact absurd hc (by decide)
  · obtain ⟨c, ds, htext, hc, -⟩ := number_characters hkind
    rw [hcs] at htext
    cases htext
    exact absurd hc (by decide)
  · obtain ⟨ds, body, htext, -⟩ := quoted_characters hkind
    rw [hcs] at htext
    cases htext

omit hT in
/-- A token with the power of names that is read as itself is shown as a name. -/
theorem shows_name {text : String} {kind : TokenKind} (hget : T.get? text = none)
    (hrole : T.role (.plain text) = .name) (hminus : ∀ cs, text.toList ≠ '-' :: cs)
    (hkind : kind? text = some kind) (hclosing : kind ≠ .closing)
    (hpower : ∀ offset, T.tokenPower ⟨kind, text, offset⟩ = namePower)
    (hread : ∀ offset n rest, operand T false n (⟨kind, text, offset⟩ :: rest) =
      .ok (some (.var (.plain text)), rest)) :
    Style.Shows ⟨T, unicode⟩ (.plain text) (T.role (.plain text)) := by
  have htext := atomText_unlisted hget unicode
  rw [hrole]
  refine .name (by rw [htext, hkind]) ?_ (isNegative_eq_false hminus)
  intro offset
  rw [htext]
  exact readsUnit_token hclosing (ne_bracket hkind hclosing) (hpower offset) (hread offset)

theorem role_word {text : String} (h : T.IsWord text) : T.role (.plain text) = .name := by
  have hget := hT.get?_word h
  rw [role_unlisted hget (power_word hget h)]
  split
  next cs hcs => exact absurd hcs (ne_minus_of_word h cs)
  next => rfl

theorem shows_word {text : String} (h : T.IsWord text) :
    Style.Shows ⟨T, unicode⟩ (.plain text) (T.role (.plain text)) := by
  have hget := hT.get?_word h
  have hpower := power_word hget h
  have hminus := ne_minus_of_word h
  have hrole := role_word hT h
  rcases h with ⟨hkind, -⟩ | hkind | hkind
  · have hsign : text ≠ "-" := by
      rintro rfl
      exact hminus [] rfl
    refine shows_name unicode hget hrole hminus hkind (by decide) (fun _ => hpower) ?_
    intro offset n rest
    rw [← leaf_unlisted hget]
    exact operand_name (t := ⟨.ident, text, offset⟩) (.inl rfl) (isBefore_unlisted hget) hsign
      hpower n
  · exact shows_name unicode hget hrole hminus hkind (by decide) (fun _ => rfl)
      fun _ n _ => operand_literal (.inl rfl) n
  · exact shows_name unicode hget hrole hminus hkind (by decide) (fun _ => rfl)
      fun _ n _ => operand_literal (.inr rfl) n

/-- No table has a numeral with a minus sign: it is no token. -/
theorem Legible.get?_numeral {digits : String} (hkind : kind? digits = some .number) :
    T.get? ("-" ++ digits) = none := by
  have hlist : ("-" ++ digits).toList = '-' :: digits.toList := String.toList_append
  refine hT.get?_eq_none (fun h => ?_) fun h => ?_
  · obtain ⟨c, cs, htext, hc, -⟩ := ident_characters h
    rw [hlist] at htext
    cases htext
    exact absurd hc (by decide)
  · obtain ⟨c, cs, htext, -, hcs⟩ := symbol_characters h
    rw [hlist] at htext
    cases htext
    obtain ⟨d, ds, hdigits, hd, -⟩ := number_characters hkind
    have hsymbolic := hcs d (by simp [hdigits])
    simp [isSymbolic, hd] at hsymbolic

theorem role_numeral {digits : String} (hkind : kind? digits = some .number) :
    T.role (.plain ("-" ++ digits)) =
      .numeral digits (Term.var (Atom.plain ("-" ++ digits))).isNegative := by
  have hlist : ("-" ++ digits).toList = '-' :: digits.toList := String.toList_append
  have hget := hT.get?_numeral hkind
  have hinteger : Name.isInteger ("-" ++ digits) = true := by
    obtain ⟨n, hn⟩ := natural?_of_kind? hkind
    simp [Name.isInteger, Name.integer?, hlist, hn]
  have hpower : T.power ("-" ++ digits) = namePower := by
    simp [power, hget, hinteger]
  have hrole := role_unlisted hget hpower
  rw [hlist] at hrole
  simpa only [String.ofList_toList] using hrole

theorem shows_numeral {digits : String} (hkind : kind? digits = some .number) :
    Style.Shows ⟨T, unicode⟩ (.plain ("-" ++ digits)) (T.role (.plain ("-" ++ digits))) := by
  rw [role_numeral hT hkind]
  exact .numeral hkind rfl (atomText_unlisted (hT.get?_numeral hkind) unicode)

/-- Both spellings of an operator are read as its name, shown by its symbol. -/
theorem leaf_listed {text : String} {op : Operator} (hop : T.get? text = some op) :
    T.leaf text = .var (.aliased op.entity op.symbol) := by
  have hshown : (if op.unicode? = some text then op.symbol else text) = op.symbol := by
    split
    next => rfl
    next hne => exact (hT.spelled text op hop).resolve_right hne
  simp only [leaf, hop, hshown, Term.aliased]

omit hT in
theorem shown_aliased (name shown : Name) : (Atom.aliased name shown).shown = shown := by
  rw [Atom.shown, Atom.aliased]
  split
  next h => exact h.symm
  next => rfl

theorem operatorOf?_listed {text : String} {op : Operator} (hop : T.get? text = some op) :
    T.operatorOf? (.aliased op.entity op.symbol) = some op := by
  have hsymbol : T.get? op.symbol = some op := hT.symbol text op hop
  simp [operatorOf?, shown_aliased, hsymbol]

/-- The text of an operator is one of its spellings. -/
theorem atomText_listed {text : String} {op : Operator} (hop : T.get? text = some op) :
    T.get? (Style.atomText ⟨T, unicode⟩ (.aliased op.entity op.symbol)) = some op := by
  have hsymbol : T.get? op.symbol = some op := hT.symbol text op hop
  rw [Style.atomText, operatorOf?_listed hT hop, shown_aliased]
  cases unicode with
  | false => exact hsymbol
  | true =>
    cases hunicode : op.unicode? with
    | none => simpa [hunicode] using hsymbol
    | some u => simpa [hunicode] using hT.unicode text op u hop hunicode

/-- Every spelling of an operator is a word for it. -/
theorem operatorWord_listed {text : String} {op : Operator} (hop : T.get? text = some op) :
    ∃ kind, OperatorWord T (.aliased op.entity op.symbol) kind text := by
  have hleaf := leaf_listed hT hop
  rcases hT.kind _ op hop with hkind | hkind
  · exact ⟨.ident, hkind, .inl rfl, hleaf, fun _ => by simp [isBareOperator, hop]⟩
  · exact ⟨.symbol, hkind, .inr rfl, hleaf, fun _ => rfl⟩

/-- An operator stands where its fixity says. -/
theorem role_listed {text : String} {op : Operator} (hop : T.get? text = some op) :
    T.role (.aliased op.entity op.symbol) = match op.fixity with
      | .between => .between
      | .before => .before := by
  have hoperator := operatorOf?_listed hT hop
  cases hfixity : op.fixity with
  | between =>
    rw [role_eq_between]
    simp [isInfix, hoperator, hfixity, hT.power text op hop hfixity]
  | before => simp [role, isInfix, hoperator, hfixity]

theorem shows_listed {text : String} {op : Operator} (hop : T.get? text = some op) :
    Style.Shows ⟨T, unicode⟩ (.aliased op.entity op.symbol)
      (T.role (.aliased op.entity op.symbol)) := by
  have hget := atomText_listed hT unicode hop
  obtain ⟨kind, hword⟩ := operatorWord_listed hT hget
  rw [role_listed hT hop]
  cases hfixity : op.fixity with
  | between =>
    have hlow := hT.power text op hop hfixity
    refine .between hword ?_ ?_
    · intro offset
      have hpower : T.tokenPower ⟨kind, Style.atomText ⟨T, unicode⟩
          (.aliased op.entity op.symbol), offset⟩ = op.prec := by
        rcases hword.name with rfl | rfl <;> simp [tokenPower, power, hget]
      show endPower < T.tokenPower _ ∧ T.tokenPower _ < namePower
      rw [hpower]
      simpa [isInfixPower] using hlow
    · simp [isBefore, hget, hfixity]
  | before => exact .before hword (by simp [isBefore, hget, hfixity])

omit hT in
theorem power_symbol {text : String} (hkind : kind? text = some .symbol)
    (hget : T.get? text = none) : T.power text = symbolPower := by
  simp [power, hget, symbol_classes hkind]

omit hT in
/-- A symbol that no table has stands between its operands. -/
theorem role_symbol {text : String} (hkind : kind? text = some .symbol)
    (hget : T.get? text = none) : T.role (.plain text) = .between := by
  rw [role_eq_between, isInfix_unlisted hget, power_symbol hkind hget]
  decide

omit hT in
theorem shows_symbol {text : String} (hkind : kind? text = some .symbol)
    (hget : T.get? text = none) :
    Style.Shows ⟨T, unicode⟩ (.plain text) (T.role (.plain text)) := by
  have hpower := power_symbol hkind hget
  have htext := atomText_unlisted hget unicode
  have hword :
      OperatorWord T (.plain text) .symbol (Style.atomText ⟨T, unicode⟩ (.plain text)) := by
    rw [htext]
    exact ⟨hkind, .inr rfl, leaf_unlisted hget, fun _ => rfl⟩
  rw [role_symbol hkind hget]
  refine .between hword ?_ ?_
  · intro offset
    have htoken : T.tokenPower ⟨.symbol, text, offset⟩ = symbolPower := hpower
    rw [htext, htoken]
    decide
  · rw [htext]
    exact isBefore_unlisted hget

/-- **The text of a leaf is read as the leaf.** -/
theorem Leaf.shows {a : Atom Unit} (ha : T.Leaf a) : Style.Shows ⟨T, unicode⟩ a (T.role a) := by
  cases ha with
  | word hword => exact shows_word hT unicode hword
  | numeral hkind => exact shows_numeral hT unicode hkind
  | @operator text _ hkind ha =>
    cases hop : T.get? text with
    | some op =>
      rw [leaf_listed hT hop] at ha
      cases ha
      exact shows_listed hT unicode hop
    | none =>
      have hsymbol : kind? text = some .symbol := by simpa [hop] using hkind
      have hplain : a = .plain text := by
        rw [leaf_unlisted hop] at ha
        cases ha
        rfl
      rw [hplain]
      exact shows_symbol unicode hsymbol hop

end Shows

end OperatorTable

end ProofKernel
