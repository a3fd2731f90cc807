import ProofKernel.Proofs.Lexing
import ProofKernel.Term.Basic

/-!
# Spellings of literals

* `Name.natural?_repr`: the digits of a number spell the number;
* `Literal.ofName?_repr`, `Literal.ofName?_minus`: the decimal text of a number of 64 bits is the
  literal of the number;
* `Text.closing_escape`, `Literal.ofName?_quote`: a quoted string ends where its content does, and
  is the literal of its content;
* `Literal.ofName?_identifier`: an identifier spells no literal;
* `Token.kind?_repr`, `Token.kind?_quote`, `Token.kind?_identifier`: each of them is one token;
* `Token.scan_quote`: quoting is undone by lexing, whatever follows the quoted string.
-/

namespace ProofKernel

open ProofKernel.Token

/-! ## Numbers -/

namespace Name

theorem digitsValue_toDigits (n : Nat) : digitsValue (Nat.toDigits 10 n) = n := by
  unfold digitsValue
  rw [← Nat.ofDigitChars_eq_foldl]
  exact Nat.ofDigitChars_ten_toDigits

theorem isDigit_of_mem_repr {n : Nat} : ∀ c ∈ n.repr.toList, c.isDigit = true := by
  intro c hc
  rw [Nat.toList_repr] at hc
  exact Nat.isDigit_of_mem_toDigits (by decide) (by decide) hc

theorem exists_cons_repr (n : Nat) : ∃ d ds, n.repr.toList = d :: ds ∧ d.isDigit = true ∧
    ∀ e ∈ ds, e.isDigit = true := by
  have hne : n.repr.toList ≠ [] := by
    rw [Nat.toList_repr]
    exact Nat.toDigits_ne_nil
  obtain ⟨d, ds, hlist⟩ := List.exists_cons_of_ne_nil hne
  have hdigits := isDigit_of_mem_repr (n := n)
  rw [hlist] at hdigits
  obtain ⟨hd, hds⟩ := List.forall_mem_cons.1 hdigits
  exact ⟨d, ds, hlist, hd, hds⟩

/-- **The digits of a number spell the number.** -/
theorem natural?_repr (n : Nat) : natural? n.repr.toList = some n := by
  obtain ⟨d, ds, hlist, hd, hds⟩ := exists_cons_repr n
  have hall : n.repr.toList ≠ [] ∧ n.repr.toList.all Char.isDigit = true := by
    rw [hlist]
    exact ⟨List.cons_ne_nil _ _, List.all_eq_true.2 (List.forall_mem_cons.2 ⟨hd, hds⟩)⟩
  rw [natural?, if_pos hall, Nat.toList_repr, digitsValue_toDigits]

theorem integer?_of_digit {text : Name} {d : Char} {ds : List Char} (h : text.toList = d :: ds)
    (hd : d ≠ '-') : integer? text = (natural? text.toList).map Int.ofNat := by
  unfold integer?
  split
  next cs hcs =>
    rw [h] at hcs
    cases hcs
    exact absurd rfl hd
  next => cases natural? text.toList <;> rfl

theorem integer?_repr (n : Nat) : integer? n.repr = some (n : Int) := by
  obtain ⟨d, ds, hlist, hd, -⟩ := exists_cons_repr n
  have hminus : d ≠ '-' := by
    rintro rfl
    exact absurd hd (by decide)
  rw [integer?_of_digit hlist hminus, natural?_repr]
  rfl

theorem integer?_minus (n : Nat) : integer? ("-" ++ n.repr) = some (-(n : Int)) := by
  have hlist : ("-" ++ n.repr).toList = '-' :: n.repr.toList := String.toList_append
  unfold integer?
  rw [hlist]
  simp only [natural?_repr]
  rfl

end Name

/-! ## Quoted strings -/

namespace Text

theorem unescape_cons {c : Char} (h : c ≠ '\\') (cs : List Char) :
    unescape (c :: cs) = c :: unescape cs := by
  rw [unescape]
  · exact fun hc => absurd hc h
  · exact fun _ _ hc => absurd hc h

theorem unescape_escape (cs : List Char) : unescape (escape cs) = cs := by
  induction cs with
  | nil => rfl
  | cons c cs ih =>
    unfold escape
    split
    next => rw [unescape, ih]
    next h =>
      have hc : c ≠ '\\' := by simpa using (not_or.1 (by simpa using h)).2
      rw [unescape_cons hc, ih]

theorem body_escape (cs : List Char) : Body (escape cs) := by
  induction cs with
  | nil => exact .nil
  | cons c cs ih =>
    unfold escape
    split
    next h =>
      have hline : c ≠ '\n' := by
        rintro rfl
        simp at h
      exact .escaped hline ih
    next h =>
      have hc : c ≠ '"' ∧ c ≠ '\\' := by simpa using h
      exact .plain hc.1 hc.2 ih

/-- **An escaped content ends at the quote after it**, whatever follows. -/
theorem closing_escape (cs rest : List Char) :
    closing (escape cs ++ '"' :: rest) = some (escape cs, rest) :=
  (body_escape cs).closing rest

theorem quote_toList (s : String) : (quote s).toList = '"' :: (escape s.toList ++ ['"']) :=
  String.toList_ofList

theorem content?_quote (s : String) : content? (quote s).toList = some s.toList := by
  rw [quote_toList]
  -- the first and the last character are quotes, of one byte each
  have hne : escape s.toList ++ ['"'] ≠ [] := by simp
  obtain ⟨c, cs, hlist⟩ := List.exists_cons_of_ne_nil hne
  have hlast : (c :: cs).getLast (by simp) = '"' := by
    simp only [← hlist]
    simp
  have hinit : (c :: cs).dropLast = escape s.toList := by
    rw [← hlist]
    simp
  rw [hlist, content?, hlast, hinit, unescape_escape]
  exact if_pos (by decide)

end Text

/-! ## Tokens -/

namespace Token

theorem isBlank_eq_false {c : Char} (h : 33 ≤ c.toNat ∧ c.toNat ≤ 126) : Text.isBlank c = false := by
  simp only [Text.isBlank, Bool.or_eq_false_iff, Bool.and_eq_false_iff, decide_eq_false_iff_not,
    beq_eq_false_iff_ne]
  omega

theorem isDigit_range {c : Char} (h : c.isDigit = true) : 48 ≤ c.toNat ∧ c.toNat ≤ 57 := by
  simpa [Char.isDigit, UInt32.le_iff_toNat_le] using h

theorem isIdentStart_range {c : Char} (h : isIdentStart c = true) : c.toNat = 36 ∨
    c.toNat = 95 ∨ (65 ≤ c.toNat ∧ c.toNat ≤ 90) ∨ (97 ≤ c.toNat ∧ c.toNat ≤ 122) := by
  have hletter : c.isAlpha = (decide (c.val ≥ 'A'.val ∧ c.val ≤ 'Z'.val) ||
      (decide (c.val ≥ 'a'.val) && decide (c.val ≤ 'z'.val))) := rfl
  simp only [isIdentStart, hletter, Bool.or_eq_true, Bool.and_eq_true, decide_eq_true_eq,
    beq_iff_eq, UInt32.le_iff_toNat_le, ge_iff_le] at h
  rcases h with ((⟨h, h'⟩ | ⟨h, h'⟩) | rfl) | rfl
  · exact .inr (.inr (.inl ⟨h, h'⟩))
  · exact .inr (.inr (.inr ⟨h, h'⟩))
  · exact .inr (.inl rfl)
  · exact .inl rfl

theorem isOpening_eq_false {c : Char} (h : c.toNat ≠ 40 ∧ c.toNat ≠ 91 ∧ c.toNat ≠ 123) :
    isOpening c = false := by
  simp only [isOpening, Bool.or_eq_false_iff, beq_eq_false_iff_ne]
  refine ⟨⟨?_, ?_⟩, ?_⟩ <;> rintro rfl <;> simp at h

theorem isClosing_eq_false {c : Char} (h : c.toNat ≠ 41 ∧ c.toNat ≠ 93 ∧ c.toNat ≠ 125) :
    isClosing c = false := by
  simp only [isClosing, Bool.or_eq_false_iff, beq_eq_false_iff_ne]
  refine ⟨⟨?_, ?_⟩, ?_⟩ <;> rintro rfl <;> simp at h

theorem lexeme_number {d : Char} (h : d.isDigit = true) (cs : List Char) :
    lexeme d cs = some (.number, cs.takeWhile Char.isDigit, cs.dropWhile Char.isDigit) := by
  have hrange := isDigit_range h
  have hopening := isOpening_eq_false (c := d) (by omega)
  have hclosing := isClosing_eq_false (c := d) (by omega)
  have hident : ¬ isIdentStart d = true := by
    intro hident
    have := isIdentStart_range hident
    omega
  rw [lexeme, if_neg (by simp [hopening]), if_neg (by simp [hclosing]), if_neg hident, if_pos h]

theorem lexeme_ident {c : Char} (h : isIdentStart c = true) (cs : List Char) :
    lexeme c cs = some (.ident, cs.takeWhile isIdentRest, cs.dropWhile isIdentRest) := by
  have hrange := isIdentStart_range h
  have hopening := isOpening_eq_false (c := c) (by omega)
  have hclosing := isClosing_eq_false (c := c) (by omega)
  rw [lexeme, if_neg (by simp [hopening]), if_neg (by simp [hclosing]), if_pos h]

theorem kind?_repr (n : Nat) : kind? n.repr = some .number := by
  obtain ⟨d, ds, hlist, hd, hds⟩ := Name.exists_cons_repr n
  have hrange := isDigit_range hd
  refine kind?_eq_some.2 ⟨d, ds, hlist, isBlank_eq_false (by omega), ?_⟩
  rw [lexeme_number hd, List.takeWhile_eq_self_iff.2 hds, List.dropWhile_eq_nil_iff.2 hds]

theorem kind?_quote (s : String) : kind? (Text.quote s) = some .quoted := by
  refine kind?_eq_some.2 ⟨'"', Text.escape s.toList ++ ['"'], Text.quote_toList s, by decide, ?_⟩
  have hquote : ∀ cs, lexeme '"' cs =
      (Text.closing cs).map fun r => (.quoted, r.1 ++ ['"'], r.2) := fun cs => rfl
  rw [hquote, Text.closing_escape]
  rfl

/-- An identifier is one token. -/
theorem kind?_identifier {name : Name} (h : name.isIdentifier = true) : kind? name = some .ident := by
  unfold Name.isIdentifier at h
  split at h
  next => cases h
  next c cs hlist =>
    obtain ⟨hc, hcs⟩ := Bool.and_eq_true_iff.1 h
    have hrange := isIdentStart_range hc
    have hcs := List.all_eq_true.1 hcs
    refine kind?_eq_some.2 ⟨c, cs, hlist, isBlank_eq_false (by omega), ?_⟩
    rw [lexeme_ident hc, List.takeWhile_eq_self_iff.2 hcs, List.dropWhile_eq_nil_iff.2 hcs]

end Token

/-! ## Literals -/

namespace Literal

theorem ofName?_repr {n : Nat} (h : fitsWord n = true) : ofName? n.repr = some (.int n) := by
  rw [ofName?, Name.integer?_repr]
  exact if_pos h

theorem ofName?_minus {n : Nat} (h : fitsWord (-(n : Int)) = true) :
    ofName? ("-" ++ n.repr) = some (.int (-(n : Int))) := by
  rw [ofName?, Name.integer?_minus]
  exact if_pos h

/-- A name that begins neither with a digit, a minus sign nor a quote spells no literal. -/
theorem ofName?_eq_none {name : Name} {c : Char} {cs : List Char} (h : name.toList = c :: cs)
    (hdigit : c.isDigit = false) (hminus : c ≠ '-') (hquote : c ≠ '"') : ofName? name = none := by
  have hinteger : name.integer? = none := by
    rw [Name.integer?_of_digit h hminus, Name.natural?, h]
    simp [hdigit]
  have hstring : name.isString = false := by
    unfold Name.isString Text.isQuoted
    rw [h]
    split
    next hcs =>
      cases hcs
      exact absurd rfl hquote
    next => rfl
  simp [ofName?, hinteger, hstring]

/-- A name that begins as an identifier does spells no literal. -/
theorem ofName?_of_identStart {name : Name} {c : Char} {cs : List Char} (h : name.toList = c :: cs)
    (hc : isIdentStart c = true) : ofName? name = none := by
  have hrange := isIdentStart_range hc
  refine ofName?_eq_none h ?_ ?_ ?_
  · cases hdigit : c.isDigit with
    | false => rfl
    | true =>
      have := isDigit_range hdigit
      omega
  · rintro rfl
    simp at hrange
  · rintro rfl
    simp at hrange

/-- **An identifier spells no literal.** -/
theorem ofName?_identifier {name : Name} (h : name.isIdentifier = true) : ofName? name = none := by
  obtain ⟨c, cs, hlist, hc, -⟩ := ident_characters (kind?_identifier h)
  exact ofName?_of_identStart hlist hc

/-- **A quoted string is the literal of its content.** -/
theorem ofName?_quote (s : String) : ofName? (Text.quote s) = some (.str s) := by
  have hinteger : Name.integer? (Text.quote s) = none := by
    rw [Name.integer?_of_digit (Text.quote_toList s) (by decide), Name.natural?, Text.quote_toList]
    simp
  have hstring : Name.isString (Text.quote s) = true := by
    simp [Name.isString, Text.isQuoted, Text.quote_toList, Text.closing_escape]
  rw [ofName?, hinteger]
  simp [hstring, Text.content?_quote]

end Literal

/-- **Quoting is undone by lexing.** What a quoted string has between its quotes stands for the
string. In front of any text, the quoted string from end to end is the first token, and the others
are those of that text; and the leaf that this token is read as is the literal of the string. -/
theorem Token.scan_quote (s rest : String) :
    let t : Token := ⟨.quoted, Text.quote s, 0⟩
    let after := scanFrom (Text.byteSize t.text.toList) rest.toList
    (Text.content? t.text.toList).map String.ofList = some s ∧
    scan (t.text ++ rest) = ⟨t :: after.tokens, after.stuck⟩ ∧
    (Term.named t.text).string? = some s := by
  intro t after
  have hcontent : (Text.content? t.text.toList).map String.ofList = some s := by
    rw [Text.content?_quote, Option.map_some, String.ofList_toList]
  have hscan : scan (t.text ++ rest) = ⟨t :: after.tokens, after.stuck⟩ := by
    have hstop : ∀ c ∈ rest.toList.head?, continues .quoted c = false := fun _ _ => rfl
    have hword := scanFrom_word (kind?_quote s) 0 hstop
    rw [scan, String.toList_append, hword, Nat.zero_add]
  have hstring : (Term.named t.text).string? = some s := by
    have hliteral : (Atom.plain t.text).literal? = some (.str s) := Literal.ofName?_quote s
    rw [Term.named, Term.string?, hliteral]
  exact ⟨hcontent, hscan, hstring⟩

end ProofKernel
