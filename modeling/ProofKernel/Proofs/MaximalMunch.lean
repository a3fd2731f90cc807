import ProofKernel.Proofs.ErrorPlaces
import ProofKernel.Proofs.Literals

/-!
# Tokens are the longest words

What a text is cut up into, said without the scanner.

* `Token.Word`: the words of each kind of token;
* `Token.Longest`: the word that a text begins with, where no other word begins;
* `Token.Lexes`: texts with the tokens that blanks and longest words cut them up into;
* `Token.lexes_iff`: the scanner finds these tokens and no others;
* `Token.tokenize_eq_error_iff_quote`: a text has an error where a quote begins no literal, behind a
  text that tokens make up;
* `Token.scanFrom_spaced`: words with a blank between each two are read as themselves;
* `Token.scan_lossless`: so nothing of a text is lost but blanks.
-/

namespace ProofKernel

namespace Token

/-! ## Words -/

/-- The words of each kind: one bracket; a letter, an underscore or a dollar sign, then letters,
digits and underscores; digits; a literal; other characters. -/
inductive Word : TokenKind → List Char → Prop
  | opening {c : Char} (hc : isOpening c = true) : Word .opening [c]
  | closing {c : Char} (hc : isClosing c = true) : Word .closing [c]
  | ident {c : Char} {cs : List Char} (hc : isIdentStart c = true)
      (hcs : ∀ d ∈ cs, isIdentRest d = true) : Word .ident (c :: cs)
  | number {c : Char} {cs : List Char} (hc : c.isDigit = true)
      (hcs : ∀ d ∈ cs, d.isDigit = true) : Word .number (c :: cs)
  | quoted {body : List Char} (h : Text.Body body) : Word .quoted ('"' :: (body ++ ['"']))
  | symbol {c : Char} {cs : List Char} (hc : isSymbolic c = true)
      (hcs : ∀ d ∈ cs, isSymbolic d = true) : Word .symbol (c :: cs)

section Classes

variable {c : Char}

theorem lexeme_opening (h : isOpening c = true) (cs : List Char) :
    lexeme c cs = some (.opening, [], cs) := by
  rw [lexeme, if_pos h]

theorem isOpening_range (h : isOpening c = true) : c.toNat = 40 ∨ c.toNat = 91 ∨ c.toNat = 123 := by
  simp only [isOpening, Bool.or_eq_true, beq_iff_eq] at h
  rcases h with (rfl | rfl) | rfl <;> simp

theorem isClosing_range (h : isClosing c = true) : c.toNat = 41 ∨ c.toNat = 93 ∨ c.toNat = 125 := by
  simp only [isClosing, Bool.or_eq_true, beq_iff_eq] at h
  rcases h with (rfl | rfl) | rfl <;> simp

theorem lexeme_closing (h : isClosing c = true) (cs : List Char) :
    lexeme c cs = some (.closing, [], cs) := by
  have hrange := isClosing_range h
  have hopening := isOpening_eq_false (c := c) (by omega)
  rw [lexeme, if_neg (by simp [hopening]), if_pos h]

theorem lexeme_symbol (h : isSymbolic c = true) (cs : List Char) :
    lexeme c cs = some (.symbol, cs.takeWhile isSymbolic, cs.dropWhile isSymbolic) := by
  simp only [isSymbolic, Bool.not_eq_true', Bool.or_eq_false_iff, beq_eq_false_iff_ne] at h
  obtain ⟨⟨⟨⟨⟨hident, hdigit⟩, hopening⟩, hclosing⟩, -⟩, hquote⟩ := h
  simp [lexeme, hopening, hclosing, hident, hdigit, hquote]

end Classes

/-- Words begin with no blank, and are read again from end to end. -/
theorem Word.lexeme {kind : TokenKind} {word : List Char} (h : Word kind word) :
    ∃ c cs, word = c :: cs ∧ Text.isBlank c = false ∧ Token.lexeme c cs = some (kind, cs, []) := by
  cases h with
  | @opening c hc =>
    have hrange := isOpening_range hc
    exact ⟨c, [], rfl, isBlank_eq_false (by omega), lexeme_opening hc []⟩
  | @closing c hc =>
    have hrange := isClosing_range hc
    exact ⟨c, [], rfl, isBlank_eq_false (by omega), lexeme_closing hc []⟩
  | @ident c cs hc hcs =>
    have hrange := isIdentStart_range hc
    refine ⟨c, cs, rfl, isBlank_eq_false (by omega), ?_⟩
    rw [lexeme_ident hc, List.takeWhile_eq_self_iff.2 hcs, List.dropWhile_eq_nil_iff.2 hcs]
  | @number c cs hc hcs =>
    have hrange := isDigit_range hc
    refine ⟨c, cs, rfl, isBlank_eq_false (by omega), ?_⟩
    rw [lexeme_number hc, List.takeWhile_eq_self_iff.2 hcs, List.dropWhile_eq_nil_iff.2 hcs]
  | @quoted body hbody =>
    refine ⟨'"', body ++ ['"'], rfl, by decide, ?_⟩
    show (Text.closing (body ++ ['"'])).map _ = _
    rw [hbody.closing []]
    rfl
  | @symbol c cs hc hcs =>
    refine ⟨c, cs, rfl, ?_, ?_⟩
    · simp only [isSymbolic, Bool.not_eq_true', Bool.or_eq_false_iff] at hc
      exact hc.1.2
    · rw [lexeme_symbol hc, List.takeWhile_eq_self_iff.2 hcs, List.dropWhile_eq_nil_iff.2 hcs]

/-- What the scanner cuts off is a word. -/
theorem word_of_lexeme {c : Char} {cs word rest : List Char} {kind : TokenKind}
    (hblank : Text.isBlank c = false) (h : lexeme c cs = some (kind, word, rest)) :
    Word kind (c :: word) := by
  have hrun : ∀ p : Char → Bool, ∀ d ∈ cs.takeWhile p, p d = true := fun p d =>
    List.mem_takeWhile_imp
  rcases lexeme_cases c with ⟨hc, hl⟩ | ⟨hc, hl⟩ | ⟨hc, hl⟩ | ⟨hc, hl⟩ | ⟨rfl, hl⟩ | ⟨hc, hl⟩ <;>
    rw [hl] at h
  · cases h
    exact .opening hc
  · cases h
    exact .closing hc
  · cases h
    exact .ident hc (hrun _)
  · cases h
    exact .number hc (hrun _)
  · obtain ⟨⟨body, after⟩, hbody, he⟩ := Option.map_eq_some_iff.1 h
    cases he
    exact .quoted (Text.body_of_closing hbody)
  · cases h
    exact .symbol (hc hblank) (hrun _)

/-- Where the scanner cuts off nothing, a quote begins no literal. -/
theorem lexeme_eq_none_iff {c : Char} {cs : List Char} : lexeme c cs = none ↔
    c = '"' ∧ ∀ word, Word .quoted word → ¬ word <+: c :: cs := by
  constructor
  · intro h
    rcases lexeme_cases c with ⟨-, hl⟩ | ⟨-, hl⟩ | ⟨-, hl⟩ | ⟨-, hl⟩ | ⟨rfl, hl⟩ | ⟨-, hl⟩ <;>
      rw [hl] at h
    · cases h
    · cases h
    · cases h
    · cases h
    · refine ⟨rfl, ?_⟩
      rintro word hword ⟨rest, hrest⟩
      cases hword with
      | @quoted body hbody =>
        rw [List.cons_append] at hrest
        obtain ⟨-, rfl⟩ := List.cons.inj hrest
        rw [List.append_assoc, List.singleton_append, hbody.closing rest] at h
        cases h
    · cases h
  · rintro ⟨rfl, hnone⟩
    show (Text.closing cs).map _ = none
    cases hclosing : Text.closing cs with
    | none => rfl
    | some lexed =>
      obtain ⟨body, rest⟩ := lexed
      obtain ⟨rfl, hbody⟩ := Text.closing_eq_some_iff.1 hclosing
      exact absurd ⟨rest, by simp⟩ (hnone _ (.quoted hbody))

/-! ## The longest word -/

/-- **The longest word at the beginning of a text.** No word of another kind begins there, and no
longer one of this kind. -/
structure Longest (kind : TokenKind) (word rest : List Char) : Prop where
  isWord : Word kind word
  longest : ∀ kind' word', Word kind' word' → word' <+: word ++ rest →
    kind' = kind ∧ word'.length ≤ word.length

/-- A run of characters at the beginning of a text is within the longest one. -/
theorem length_le_takeWhile {p : Char → Bool} {run rest : List Char}
    (h : run.takeWhile p = run) : run.length ≤ ((run ++ rest).takeWhile p).length := by
  rw [List.takeWhile_append_of_pos (List.takeWhile_eq_self_iff.1 h), List.length_append]
  exact Nat.le_add_right _ _

/-- What the scanner cuts off is the longest word. -/
theorem longest_of_lexeme {c : Char} {cs word rest : List Char} {kind : TokenKind}
    (hblank : Text.isBlank c = false) (h : lexeme c cs = some (kind, word, rest)) :
    Longest kind (c :: word) rest := by
  refine ⟨word_of_lexeme hblank h, ?_⟩
  rintro kind' word' hword' ⟨after, hafter⟩
  obtain ⟨c', run, rfl, -, hrun⟩ := hword'.lexeme
  rw [List.cons_append, List.cons_append, ← lexeme_eq h] at hafter
  obtain ⟨rfl, rfl⟩ := List.cons.inj hafter
  -- the first character decides on the kind of both
  rcases lexeme_cases c' with ⟨-, hl⟩ | ⟨-, hl⟩ | ⟨-, hl⟩ | ⟨-, hl⟩ | ⟨-, hl⟩ | ⟨-, hl⟩ <;>
    rw [hl] at h hrun
  · cases h
    cases hrun
    exact ⟨rfl, Nat.le_refl _⟩
  · cases h
    cases hrun
    exact ⟨rfl, Nat.le_refl _⟩
  · cases h
    simp only [Option.some.injEq, Prod.mk.injEq] at hrun
    exact ⟨hrun.1.symm, Nat.succ_le_succ (length_le_takeWhile hrun.2.1)⟩
  · cases h
    simp only [Option.some.injEq, Prod.mk.injEq] at hrun
    exact ⟨hrun.1.symm, Nat.succ_le_succ (length_le_takeWhile hrun.2.1)⟩
  · obtain ⟨⟨body, last⟩, hbody, he⟩ := Option.map_eq_some_iff.1 hrun
    simp only [Prod.mk.injEq] at he
    obtain ⟨rfl, rfl, rfl⟩ := he
    rw [List.append_assoc, List.singleton_append, Text.closing_body hbody] at h
    cases h
    exact ⟨rfl, Nat.le_refl _⟩
  · cases h
    simp only [Option.some.injEq, Prod.mk.injEq] at hrun
    exact ⟨hrun.1.symm, Nat.succ_le_succ (length_le_takeWhile hrun.2.1)⟩

/-- The longest word is what the scanner cuts off. -/
theorem Longest.lexeme {kind : TokenKind} {word rest : List Char} (h : Longest kind word rest) :
    ∃ c cs, word = c :: cs ∧ Text.isBlank c = false ∧
      Token.lexeme c (cs ++ rest) = some (kind, cs, rest) := by
  obtain ⟨c, cs, rfl, hblank, hself⟩ := h.isWord.lexeme
  refine ⟨c, cs, rfl, hblank, ?_⟩
  cases hlex : Token.lexeme c (cs ++ rest) with
  | none =>
    -- a quote begins a literal here, the word itself
    obtain ⟨rfl, hnone⟩ := lexeme_eq_none_iff.1 hlex
    have hkind : kind = .quoted := by
      obtain ⟨_, -, he⟩ := Option.map_eq_some_iff.1 hself
      exact (congrArg Prod.fst he).symm
    subst hkind
    exact absurd ⟨rest, rfl⟩ (hnone _ h.isWord)
  | some lexed =>
    obtain ⟨kind', word', rest'⟩ := lexed
    have heq := lexeme_eq hlex
    have hword' : Word kind' (c :: word') := word_of_lexeme hblank hlex
    obtain ⟨rfl, hle⟩ := h.longest kind' (c :: word') hword' ⟨rest', by simp [heq]⟩
    have hge := ((longest_of_lexeme hblank hlex).longest _ _ h.isWord ⟨rest, by simp [heq]⟩).2
    have hlength : cs.length = word'.length := by
      simp only [List.length_cons] at hle hge
      omega
    obtain ⟨rfl, rfl⟩ := List.append_inj heq hlength
    rfl

/-! ## Texts and their tokens -/

/-- **What a text is cut up into**: blanks are skipped, and each token is the longest word of the
text that begins at its offset. Tokens end where the text does, or at a quote that begins no
literal. -/
inductive Lexes : Nat → List Char → TokenStream → Prop
  | ended {offset : Nat} : Lexes offset [] ⟨[], none⟩
  | blank {offset : Nat} {c : Char} {cs : List Char} {s : TokenStream}
      (hc : Text.isBlank c = true) (h : Lexes (offset + c.utf8Size) cs s) :
      Lexes offset (c :: cs) s
  | word {offset : Nat} {kind : TokenKind} {word rest : List Char} {s : TokenStream}
      (hword : Longest kind word rest) (h : Lexes (offset + Text.byteSize word) rest s) :
      Lexes offset (word ++ rest) ⟨⟨kind, .ofList word, offset⟩ :: s.tokens, s.stuck⟩
  | stuck {offset : Nat} {rest : List Char}
      (h : ∀ word, Word .quoted word → ¬ word <+: '"' :: rest) :
      Lexes offset ('"' :: rest) ⟨[], some (offset, '"')⟩

theorem lexes_scanFrom (offset : Nat) (cs : List Char) : Lexes offset cs (scanFrom offset cs) := by
  fun_induction scanFrom offset cs with
  | case1 offset => exact .ended
  | case2 offset c rest hblank ih => exact .blank hblank ih
  | case3 offset c rest hblank hlex =>
    obtain ⟨rfl, hnone⟩ := lexeme_eq_none_iff.1 hlex
    exact .stuck hnone
  | case4 offset c rest hblank kind word after hlex stream ih =>
    have hlongest := longest_of_lexeme (by simpa using hblank) hlex
    rw [lexeme_eq hlex]
    exact .word hlongest ih

theorem Lexes.eq_scanFrom {offset : Nat} {cs : List Char} {s : TokenStream}
    (h : Lexes offset cs s) : s = scanFrom offset cs := by
  induction h with
  | ended => rw [scanFrom_nil]
  | blank hc _ ih => rw [scanFrom_cons, if_pos hc, ih]
  | word hword _ ih =>
    obtain ⟨c, cs, rfl, hblank, hlex⟩ := hword.lexeme
    rw [List.cons_append, scanFrom_cons, if_neg (by simp [hblank]), hlex, ih]
  | stuck h => rw [scanFrom_cons, if_neg (by decide), lexeme_eq_none_iff.2 ⟨rfl, h⟩]

/-- **The scanner finds the longest words of a text, and there is one way only to do so.** -/
theorem lexes_iff {offset : Nat} {cs : List Char} {s : TokenStream} :
    Lexes offset cs s ↔ s = scanFrom offset cs :=
  ⟨Lexes.eq_scanFrom, fun h => h ▸ lexes_scanFrom offset cs⟩

/-! ## Errors -/

/-- What stands before the place that no token begins at is a text that tokens make up. -/
theorem exists_split_of_stuck {offset : Nat} {cs : List Char} {place : Nat × Char}
    (h : (scanFrom offset cs).stuck = some place) :
    ∃ before rest, cs = before ++ '"' :: rest ∧ place = (offset + Text.byteSize before, '"') ∧
      (scanFrom offset before).stuck = none ∧
      ∀ word, Word .quoted word → ¬ word <+: '"' :: rest := by
  fun_induction scanFrom offset cs with
  | case1 => cases h
  | case2 offset c rest hblank ih =>
    obtain ⟨before, rest, rfl, hplace, hstuck, hnone⟩ := ih h
    refine ⟨c :: before, rest, rfl, ?_, ?_, hnone⟩
    · rw [hplace, Text.byteSize, Nat.add_assoc]
    · rw [scanFrom_cons, if_pos hblank, hstuck]
  | case3 offset c rest hblank hlex =>
    obtain ⟨rfl, hnone⟩ := lexeme_eq_none_iff.1 hlex
    cases h
    exact ⟨[], rest, rfl, rfl, by rw [scanFrom_nil], hnone⟩
  | case4 offset c rest hblank kind word after hlex stream ih =>
    obtain ⟨before, rest', rfl, hplace, hstuck, hnone⟩ := ih h
    refine ⟨c :: word ++ before, rest', ?_, ?_, ?_, hnone⟩
    · rw [lexeme_eq hlex, List.append_assoc, List.cons_append]
    · rw [hplace, byteSize_append, Nat.add_assoc]
    · -- the token ends in the text before the place where it ends in the whole text
      have hstops : ∀ d ∈ before.head?, continues kind d = false := by
        intro d hd
        refine lexeme_stops hlex d ?_
        rw [Option.mem_def] at hd ⊢
        rw [List.head?_append, hd, Option.some_or]
      rw [List.cons_append, scanFrom_cons, if_neg hblank, lexeme_append (lexeme_self hlex) hstops,
        hstuck]

/-- A quote continues no token. -/
theorem not_continues_quote (kind : TokenKind) (cs : List Char) :
    ∀ d ∈ ('"' :: cs).head?, continues kind d = false := by
  rintro d ⟨⟩
  cases kind <;> decide

/-- **A text has an error where a quote begins no literal**, if tokens make up what stands before
it. -/
theorem tokenize_eq_error_iff_quote {source : Source} {e : LexError} :
    tokenize source = .error e ↔ ∃ before rest, source.text.toList = before ++ '"' :: rest ∧
      (scan (.ofList before)).stuck = none ∧
      (∀ word, Word .quoted word → ¬ word <+: '"' :: rest) ∧
      e = ⟨⟨source, Text.byteSize before, Text.byteSize before + 1⟩⟩ := by
  rw [tokenize_eq_error_iff, TokenStream.error?, Option.map_eq_some_iff]
  constructor
  · rintro ⟨place, hplace, rfl⟩
    obtain ⟨before, rest, htext, rfl, hstuck, hnone⟩ := exists_split_of_stuck hplace
    refine ⟨before, rest, htext, ?_, hnone, ?_⟩
    · rw [scan, String.toList_ofList, hstuck]
    · rw [Nat.zero_add]
      rfl
  · rintro ⟨before, rest, htext, hstuck, hnone, rfl⟩
    refine ⟨(Text.byteSize before, '"'), ?_, rfl⟩
    rw [scan, String.toList_ofList] at hstuck
    rw [scan, htext, scanFrom_append (fun kind => not_continues_quote kind rest) hstuck,
      scanFrom_cons, if_neg (by decide), lexeme_eq_none_iff.2 ⟨rfl, hnone⟩, Nat.zero_add]

/-! ## Words with a blank between each two -/

/-- The kind and the text of a token. -/
def spelling (t : Token) : TokenKind × String := (t.kind, t.text)

/-- Words with a blank between each two are read as themselves. -/
theorem scanFrom_spaced {ts : List Token} (h : ∀ t ∈ ts, kind? t.text = some t.kind)
    (offset : Nat) :
    let s := scanFrom offset ([' '].intercalate (ts.map fun t => t.text.toList))
    s.tokens.map spelling = ts.map spelling ∧ s.stuck = none := by
  induction ts generalizing offset with
  | nil =>
    rw [List.map_nil, List.intercalate_nil, scanFrom_nil]
    exact ⟨rfl, rfl⟩
  | cons t ts ih =>
    obtain ⟨ht, hts⟩ := List.forall_mem_cons.1 h
    cases ts with
    | nil =>
      have hstop : ∀ d ∈ ([] : List Char).head?, continues t.kind d = false :=
        fun _ hd => by cases hd
      have hword := scanFrom_word ht offset hstop
      rw [List.append_nil, scanFrom_nil] at hword
      rw [List.map_singleton, List.intercalate_singleton, hword]
      exact ⟨rfl, rfl⟩
    | cons u us =>
      obtain ⟨htokens, hstuck⟩ := ih hts (offset + Text.byteSize t.text.toList + 1)
      rw [List.map_cons, List.map_cons, List.intercalate_cons_cons, List.append_assoc,
        List.singleton_append, scanFrom_word ht offset ((apart_blank _).not_continues t.kind),
        scanFrom_blank]
      exact ⟨congrArg (spelling t :: ·) htokens, hstuck⟩

/-- **Lexing is lossless and takes the longest words.** A text is cut up into blanks and tokens,
each of which is the longest word that begins at its offset, and nothing else of the text is left,
in one way only. An error is where a quote that is in no token begins no literal. The texts of the
tokens, with a blank between each two, have the same tokens again. -/
theorem scan_lossless (source : Source) :
    (∀ s, Lexes 0 source.text.toList s ↔ s = scan source.text) ∧
    (∀ e, tokenize source = .error e ↔ ∃ before rest,
      source.text.toList = before ++ '"' :: rest ∧ (scan (.ofList before)).stuck = none ∧
      (∀ word, Word .quoted word → ¬ word <+: '"' :: rest) ∧
      e = ⟨⟨source, Text.byteSize before, Text.byteSize before + 1⟩⟩) ∧
    let s := scan (" ".intercalate ((scan source.text).tokens.map Token.text))
    s.tokens.map spelling = (scan source.text).tokens.map spelling ∧ s.stuck = none := by
  refine ⟨fun s => lexes_iff, fun e => tokenize_eq_error_iff_quote, ?_⟩
  rw [scan, String.toList_intercalate, List.map_map]
  exact scanFrom_spaced (fun t ht => kind?_of_mem_scanFrom ht) 0

end Token

end ProofKernel
