import ProofKernel.Proofs.Layout
import ProofKernel.Proofs.Leaves
import ProofKernel.Proofs.Literals

/-!
# The two spellings of an operator

Operators that have a second spelling may be written by either. A text in which any tokens are written
by the other spelling, in blanks, is read alike.

* `OperatorTable.otherSpelling?`: the spelling for which another one stands;
* `Token.respell`: a text with some of its tokens spelled otherwise;
* `Parser.LooksAlike.of_otherSpelling`: readers cannot tell the two spellings of an operator of the
  standard table apart;
* `Token.respellFrom_rows`: what a text is cut up into when some of its tokens are spelled otherwise;
* `Term.parse_respell`: so it has the same outcome.
-/

namespace ProofKernel

open ProofKernel.Token

/-- The other spelling of an operator that has two. -/
def OperatorTable.otherSpelling? (T : OperatorTable) (text : String) : Option String :=
  (T.get? text).bind fun op => op.unicode?.map fun unicode =>
    if text = unicode then op.symbol else unicode

namespace Token

/-- A text from its token number `i` on, with those of the chosen tokens that have another spelling
written by it, between two blanks. -/
def respellFrom (T : OperatorTable) (chosen : Nat → Bool) (i : Nat) (cs : List Char) : List Char :=
  match cs with
  | [] => []
  | c :: rest =>
    if Text.isBlank c then c :: respellFrom T chosen i rest
    else match _h : lexeme c rest with
      | none => c :: rest
      | some (_, word, after) =>
        let rest := respellFrom T chosen (i + 1) after
        match if chosen i then T.otherSpelling? (.ofList (c :: word)) else none with
        | some other => ' ' :: (other.toList ++ ' ' :: rest)
        | none => c :: (word ++ rest)
termination_by cs.length
decreasing_by
  · simp
  · exact Nat.lt_succ_of_le (length_le_of_lexeme ‹_›)

/-- A text with those of the chosen tokens that have another spelling written by it. -/
def respell (T : OperatorTable) (chosen : Nat → Bool) (text : String) : String :=
  .ofList (respellFrom T chosen 0 text.toList)

end Token

/-! ## Readers and spellings -/

section Standard

variable {text other : String} (h : OperatorTable.standard.otherSpelling? text = some other)

include h

/-- The spellings of the standard table: words that find the same operator and are read as the same
leaf, and that mean nothing else to a reader. -/
theorem OperatorTable.standard_otherSpelling : standard.get? other = standard.get? text ∧
    standard.leaf other = standard.leaf text ∧
    ∀ key ∈ [text, other], (kind? key = some .ident ∨ kind? key = some .symbol) ∧
      (standard.get? key).isSome ∧ Name.isVariable key = false ∧ key ≠ "-" ∧ key ≠ "." := by
  have hall : ∀ entry ∈ standard.entries, ∀ other ∈ standard.otherSpelling? entry.1,
      standard.get? other = standard.get? entry.1 ∧
      standard.leaf other = standard.leaf entry.1 ∧
      ∀ key ∈ [entry.1, other], (kind? key = some .ident ∨ kind? key = some .symbol) ∧
        (standard.get? key).isSome ∧ Name.isVariable key = false ∧ key ≠ "-" ∧ key ≠ "." := by
    decide +kernel
  obtain ⟨op, hop, -⟩ := Option.bind_eq_some_iff.1 h
  exact hall (text, op) (mem_of_get? hop) other h

/-- **Readers cannot tell the two spellings of an operator apart.** -/
theorem Parser.LooksAlike.of_otherSpelling {t t' : Token} (ht : kind? t.text = some t.kind)
    (ht' : kind? t'.text = some t'.kind) (htext : t.text = text) (htext' : t'.text = other) :
    LooksAlike .standard .standard t t' := by
  subst htext htext'
  obtain ⟨hget, hleaf, hkeys⟩ := OperatorTable.standard_otherSpelling h
  obtain ⟨hkind, hsome, hvariable, hminus, hdot⟩ := hkeys t.text (by simp)
  obtain ⟨hkind', hsome', hvariable', hminus', hdot'⟩ := hkeys t'.text (by simp)
  rw [ht, Option.some.injEq, Option.some.injEq] at hkind
  rw [ht', Option.some.injEq, Option.some.injEq] at hkind'
  have hbare : ∀ u : Token, IsName u → (OperatorTable.standard.get? u.text).isSome = true →
      isBareOperator .standard u = true := by
    rintro u (hu | hu) hsome <;> simp [isBareOperator, hu, hsome]
  refine ⟨.inr ⟨hkind, hkind'⟩, fun hname => absurd hkind hname, fun _ => hleaf.symm, ?_, ?_, ?_,
    iff_of_false hminus hminus', ?_, ?_, iff_of_false (fun hd => hdot hd.2) fun hd => hdot' hd.2⟩
  · simp only [OperatorTable.isBefore, hget]
  · obtain ⟨op, hop⟩ := Option.isSome_iff_exists.1 hsome
    rw [tokenPower_name hkind, tokenPower_name hkind']
    simp only [OperatorTable.power, hget, hop]
  · rw [hbare t hkind hsome, hbare t' hkind' hsome']
  · exact iff_of_false (ne_bracket ht (IsName.ne_closing hkind))
      (ne_bracket ht' (IsName.ne_closing hkind'))
  · have hfalse : ∀ u : Token, Name.isVariable u.text = false →
        ¬ (u.kind = .ident ∧ Name.isVariable u.text = true) := by
      rintro u hu ⟨-, hv⟩
      rw [hu] at hv
      cases hv
    exact ⟨iff_of_false (hfalse t hvariable) (hfalse t' hvariable'),
      fun hb => absurd hb (hfalse t hvariable)⟩

end Standard

/-! ## Tokens spelled otherwise -/

namespace Token

section Words

variable {c : Char} {cs word after : List Char} {kind : TokenKind} (hblank : ¬ Text.isBlank c = true)
  (hlex : lexeme c cs = some (kind, word, after))

include hblank hlex

/-- What is cut off as a token is a word. -/
theorem kind?_of_lexeme : kind? (.ofList (c :: word)) = some kind :=
  kind?_eq_some.2 ⟨c, word, String.toList_ofList, by simpa using hblank, lexeme_self hlex⟩

theorem isDigit_of_lexeme (hkind : kind = .number) : c.isDigit = true := by
  subst hkind
  obtain ⟨d, ds, htext, hd, -⟩ := number_characters (kind?_of_lexeme hblank hlex)
  rw [String.toList_ofList] at htext
  cases htext
  exact hd

end Words

/-- A number directly follows a minus sign if a digit does. -/
theorem adjacentNumber_scanFrom (minus : Token) (cs : List Char) :
    (Parser.adjacentNumber minus (scanFrom (minus.offset + 1) cs).tokens).isSome =
      cs.head?.any Char.isDigit := by
  cases cs with
  | nil =>
    rw [scanFrom_nil]
    rfl
  | cons c rest =>
    rw [scanFrom_cons]
    by_cases hblank : Text.isBlank c = true
    · have hdigit : ¬ c.isDigit = true := by
        intro hdigit
        have hrange := isDigit_range hdigit
        rw [isBlank_eq_false (by omega)] at hblank
        cases hblank
      rw [if_pos hblank]
      cases hts : (scanFrom (minus.offset + 1 + c.utf8Size) rest).tokens with
      | nil => simpa [Parser.adjacentNumber] using hdigit
      | cons t ts =>
        have hle := offset_le_of_mem (hts ▸ List.mem_cons_self)
        have hc := c.utf8Size_pos
        have hoffset : t.offset ≠ minus.offset + 1 := by omega
        simpa [Parser.adjacentNumber, hoffset] using hdigit
    · rw [if_neg hblank]
      cases hlex : lexeme c rest with
      | none =>
        have hdigit : ¬ c.isDigit = true := by
          intro hdigit
          rw [lexeme_number hdigit] at hlex
          cases hlex
        simpa [Parser.adjacentNumber] using hdigit
      | some lexed =>
        obtain ⟨kind, word, after⟩ := lexed
        by_cases hkind : kind = .number
        · simp [Parser.adjacentNumber, hkind, isDigit_of_lexeme hblank hlex hkind]
        · have hdigit : ¬ c.isDigit = true := by
            intro hdigit
            rw [lexeme_number hdigit] at hlex
            cases hlex
            exact hkind rfl
          simpa [Parser.adjacentNumber, hkind] using hdigit

section Respell

variable {chosen : Nat → Bool} {i : Nat}

theorem respellFrom_nil (T : OperatorTable) : respellFrom T chosen i [] = [] := by
  rw [respellFrom]

theorem respellFrom_cons (T : OperatorTable) (c : Char) (rest : List Char) :
    respellFrom T chosen i (c :: rest) =
      if Text.isBlank c then c :: respellFrom T chosen i rest
      else match lexeme c rest with
        | none => c :: rest
        | some (_, word, after) =>
          match if chosen i then T.otherSpelling? (.ofList (c :: word)) else none with
          | some other => ' ' :: (other.toList ++ ' ' :: respellFrom T chosen (i + 1) after)
          | none => c :: (word ++ respellFrom T chosen (i + 1) after) := by
  rw [respellFrom]
  split
  next => rfl
  next =>
    split
    next hlex => rw [hlex]
    next hlex => rw [hlex]

/-- The text begins with the same character, or with a blank before an operator. -/
theorem head?_respellFrom (T : OperatorTable) (cs : List Char) :
    (respellFrom T chosen i cs).head? = cs.head? ∨
    (respellFrom T chosen i cs).head? = some ' ' ∧ ∃ c rest kind word after other,
      cs = c :: rest ∧ ¬ Text.isBlank c = true ∧ lexeme c rest = some (kind, word, after) ∧
        T.otherSpelling? (.ofList (c :: word)) = some other := by
  cases cs with
  | nil => exact .inl (by rw [respellFrom_nil])
  | cons c rest =>
    rw [respellFrom_cons]
    split
    next => exact .inl rfl
    next hblank =>
      split
      next => exact .inl rfl
      next kind word after hlex =>
        split
        next other hother =>
          exact .inr ⟨rfl, c, rest, kind, word, after, other, rfl, hblank, hlex,
            (Option.ite_none_right_eq_some.1 hother).2⟩
        next => exact .inl rfl

/-- A number stays what it is, and nothing else becomes one. -/
theorem head?_respellFrom_digit (cs : List Char) :
    (respellFrom .standard chosen i cs).head?.any Char.isDigit = cs.head?.any Char.isDigit := by
  rcases head?_respellFrom .standard cs with hsame | ⟨hblank, c, rest, kind, word, after, other, rfl,
    hc, hlex, hother⟩
  · rw [hsame]
  · have hdigit : c.isDigit = false := by
      rw [← Bool.not_eq_true]
      intro hdigit
      obtain ⟨-, -, hkeys⟩ := OperatorTable.standard_otherSpelling hother
      have hkind := (hkeys (.ofList (c :: word)) (by simp)).1
      rw [kind?_of_lexeme hc hlex] at hkind
      rw [lexeme_number hdigit] at hlex
      cases hlex
      rcases hkind with hkind | hkind <;> cases hkind
    rw [hblank, List.head?_cons, Option.any_some, Option.any_some, hdigit]
    decide

/-- No token goes on where the next one is spelled otherwise. -/
theorem not_continues_respellFrom (T : OperatorTable) {kind : TokenKind} {cs : List Char}
    (h : ∀ d ∈ cs.head?, continues kind d = false) :
    ∀ d ∈ (respellFrom T chosen i cs).head?, continues kind d = false := by
  rcases head?_respellFrom T cs with hsame | ⟨hblank, -⟩
  · rwa [hsame]
  · rw [hblank]
    rintro d ⟨⟩
    cases kind <;> decide

/-- **A text with some tokens spelled otherwise is cut up into tokens that correspond**, by induction on
the tokens of the text. -/
theorem respellFrom_rows (chosen : Nat → Bool) (i offset offset' : Nat) (cs : List Char) :
    Parser.Rows (Parser.LooksAlike .standard .standard) (scanFrom offset cs).tokens
      (scanFrom offset' (respellFrom .standard chosen i cs)).tokens ∧
    (scanFrom offset cs).stuck.isSome =
      (scanFrom offset' (respellFrom .standard chosen i cs)).stuck.isSome := by
  fun_induction scanFrom offset cs generalizing i offset' with
  | case1 offset =>
    rw [respellFrom_nil, scanFrom_nil]
    exact ⟨.nil, rfl⟩
  | case2 offset c rest hblank ih =>
    rw [respellFrom_cons, if_pos hblank, scanFrom_cons offset', if_pos hblank]
    exact ih i _
  | case3 offset c rest hblank hlex =>
    rw [respellFrom_cons, if_neg hblank, hlex]
    dsimp only
    rw [scanFrom_cons, if_neg hblank, hlex]
    exact ⟨.nil, rfl⟩
  | case4 offset c rest hblank kind word after hlex stream ih =>
    have hword := kind?_of_lexeme hblank hlex
    rw [respellFrom_cons, if_neg hblank, hlex]
    dsimp only
    split
    next other hchosen =>
      have hother := (Option.ite_none_right_eq_some.1 hchosen).2
      obtain ⟨-, -, hkeys⟩ := OperatorTable.standard_otherSpelling hother
      have hminus : String.ofList (c :: word) ≠ "-" := (hkeys _ (by simp)).2.2.2.1
      obtain ⟨kind', hkind'⟩ : ∃ kind', kind? other = some kind' :=
        (hkeys other (by simp)).1.elim (fun h => ⟨_, h⟩) fun h => ⟨_, h⟩
      have hstop : ∀ d ∈ (' ' :: respellFrom .standard chosen (i + 1) after).head?,
          continues kind' d = false := by
        rintro d ⟨⟩
        cases kind' <;> decide
      rw [scanFrom_blank, scanFrom_word hkind' _ hstop, scanFrom_blank]
      obtain ⟨hrows, hstuck⟩ := ih (i + 1) (offset' + 1 + Text.byteSize other.toList + 1)
      exact ⟨.cons (.of_otherSpelling hother hword hkind' rfl rfl) (fun h => absurd h hminus) hrows,
        hstuck⟩
    next =>
      have hstop : ∀ d ∈ (respellFrom .standard chosen (i + 1) after).head?,
          continues kind d = false := not_continues_respellFrom .standard (lexeme_stops hlex)
      rw [scanFrom_cons, if_neg hblank, lexeme_append (lexeme_self hlex) hstop]
      obtain ⟨hrows, hstuck⟩ := ih (i + 1) (offset' + Text.byteSize (c :: word))
      refine ⟨.cons (.of_word _ rfl rfl) (fun hminus : String.ofList (c :: word) = "-" => ?_) hrows,
        hstuck⟩
      have hsize : Text.byteSize (c :: word) = 1 := by
        rw [Text.byteSize_ofList, hminus]
        decide
      have htouches := adjacentNumber_scanFrom ⟨kind, .ofList (c :: word), offset⟩ after
      have htouches' := adjacentNumber_scanFrom ⟨kind, .ofList (c :: word), offset'⟩
        (respellFrom .standard chosen (i + 1) after)
      have hstream : stream = scanFrom (offset + 1) after := by rw [← hsize]
      rw [head?_respellFrom_digit] at htouches'
      rw [hstream, hsize]
      exact htouches.trans htouches'.symm

end Respell

end Token

/-- **The second spelling is only a spelling.** A text in which any tokens that are operators of the
standard table are written by their other spelling, set off by blanks, has the same outcome: the same
term, with the names as shown, or the same kind of error and the same message at the token of the same
index. -/
theorem Term.parse_respell (chosen : Nat → Bool) (limit : Nat) (text : String) :
    outcome .standard limit (Token.respell .standard chosen text) =
      outcome .standard limit text := by
  obtain ⟨hrows, hstuck⟩ := Token.respellFrom_rows chosen 0 0 0 text.toList
  have hscan : Token.scan (Token.respell .standard chosen text) =
      Token.scanFrom 0 (Token.respellFrom .standard chosen 0 text.toList) := by
    rw [Token.scan, Token.respell, String.toList_ofList]
  refine (outcome_congr (fun _ _ h => h) ?_ ?_ limit).symm
  · rw [hscan]
    exact hrows
  · rw [hscan]
    exact hstuck

/-- Three of five operators written otherwise, in a text with a literal that looks like one of them. -/
example : Token.respell .standard (fun i => i < 6) "not p&&q ⇒ \"&&\" != ¬r" =
    " ¬  p ∧ q  -->  \"&&\" != ¬r" := by decide +kernel

end ProofKernel
