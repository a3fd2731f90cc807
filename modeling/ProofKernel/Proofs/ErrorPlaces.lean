import ProofKernel.Proofs.AlikeRows
import ProofKernel.Proofs.Lexing
import ProofKernel.Proofs.Room

/-!
# Where errors are

* `Token.exists_split_of_mem_scanFrom`, `Token.le_of_stuck`: tokens stand in the text at their
  offsets, before the place that no token begins at;
* `Parser.whole_fault`: the faults of reading a row are at its tokens or at what comes after them;
* `Term.parse_error_place`: so errors of lexing, of the end and of a token are where they say.
-/

namespace ProofKernel

theorem Text.byteSize_ofList (cs : List Char) : byteSize cs = (String.ofList cs).utf8ByteSize := by
  induction cs with
  | nil => rfl
  | cons c cs ih =>
    rw [byteSize, ih, ← String.utf8ByteSize_singleton, ← String.utf8ByteSize_append]
    congr 1
    simp

theorem Text.byteSize_toList (text : String) : byteSize text.toList = text.utf8ByteSize := by
  rw [byteSize_ofList, String.ofList_toList]

/-! ## Tokens in a text -/

namespace Token

variable {offset : Nat} {cs : List Char} {t : Token}

/-- A token stands in the text at its offset. -/
theorem exists_split_of_mem_scanFrom (h : t ∈ (scanFrom offset cs).tokens) :
    ∃ before after, cs = before ++ t.text.toList ++ after ∧
      t.offset = offset + Text.byteSize before := by
  fun_induction scanFrom offset cs with
  | case1 => cases h
  | case2 offset c rest hblank ih =>
    obtain ⟨before, after, rfl, hoffset⟩ := ih h
    exact ⟨c :: before, after, rfl, by rw [hoffset, Text.byteSize, Nat.add_assoc]⟩
  | case3 => cases h
  | case4 offset c rest hblank kind word after hlex stream ih =>
    have hrest := lexeme_eq hlex
    rcases List.mem_cons.1 h with rfl | h
    · exact ⟨[], after, by simp [hrest], by simp [Text.byteSize]⟩
    · obtain ⟨before, after', rfl, hoffset⟩ := ih h
      refine ⟨c :: word ++ before, after', by simp [hrest], ?_⟩
      rw [hoffset, byteSize_append, Nat.add_assoc]

theorem offset_le_of_stuck {place : Nat × Char} (h : (scanFrom offset cs).stuck = some place) :
    offset ≤ place.1 := by
  fun_induction scanFrom offset cs with
  | case1 => cases h
  | case2 offset c rest hblank ih => exact (Nat.le_add_right _ _).trans (ih h)
  | case3 =>
    cases h
    exact Nat.le_refl _
  | case4 offset c rest hblank kind word after hlex stream ih =>
    exact (Nat.le_add_right _ _).trans (ih h)

/-- Tokens end before the place that no token begins at. -/
theorem le_of_stuck {place : Nat × Char} (h : t ∈ (scanFrom offset cs).tokens)
    (hstuck : (scanFrom offset cs).stuck = some place) :
    t.offset + t.text.utf8ByteSize ≤ place.1 := by
  fun_induction scanFrom offset cs with
  | case1 => cases h
  | case2 offset c rest hblank ih => exact ih h hstuck
  | case3 => cases h
  | case4 offset c rest hblank kind word after hlex stream ih =>
    rcases List.mem_cons.1 h with rfl | h
    · rw [← Text.byteSize_ofList]
      exact offset_le_of_stuck hstuck
    · exact ih h hstuck

end Token

/-! ## Faults -/

namespace Parser

/-- Faults that the reading of a row may have: at its tokens, or at what comes after them, which is
the text that no token begins with, or the end. -/
def Fault.Occurs (s : TokenStream) : Fault → Prop
  | .stuck => s.stuck.isSome = true
  | .ended => s.stuck = none
  | .refused _ t => t ∈ s.tokens

theorem whole_fault {T : OperatorTable} {n : Nat} {s : TokenStream} {f : Fault}
    (h : whole T n s = .error f) : f.Occurs s := by
  -- the reading of the row agrees with itself, with its own tokens as those that correspond
  have hlook : ∀ t t', t = t' ∧ t ∈ s.tokens → LooksAlike T T t t' := by
    rintro t _ ⟨rfl, -⟩
    exact .refl T t
  have hagrees := whole_agrees hlook n (.refl fun t ht => ⟨rfl, ht⟩) rfl
  rw [h] at hagrees
  cases hagrees with
  | error hmatches =>
    cases hmatches with
    | stuck hstuck => exact hstuck
    | ended hstuck => simpa [Fault.Occurs] using hstuck
    | refused cause htoken => exact htoken.2

/-- What is read to the end has no text that no token begins with. -/
theorem stuck_of_whole {T : OperatorTable} {n : Nat} {s : TokenStream} {m : PlainTerm}
    (h : whole T n s = .ok m) : s.stuck = none := by
  have hread : Holds (whole T n s) fun _ => s.stuck = none := by
    refine holds_true.bind ?_
    rintro ⟨m, us⟩ -
    have hfinish : Holds (finish s.stuck.isSome us) fun _ => s.stuck = none := by
      cases us with
      | nil => cases hstuck : s.stuck with
        | none => exact fun _ _ => rfl
        | some place => exact holds_error
      | cons t us => exact holds_error
    exact hfinish.bind fun _ hnone => holds_ok hnone
  exact hread m h

end Parser

/-! ## Errors -/

theorem Token.tokenize_eq_error_iff {source : Source} {e : LexError} :
    tokenize source = .error e ↔ (scan source.text).error? source = some e := by
  unfold tokenize
  dsimp only
  split <;> simp_all

section Errors

variable {T : OperatorTable} {limit : Nat} {text : String}

theorem Term.parse_eq_error_iff {e : ParseError} :
    parse T limit text = .error e ↔ ∃ f, Parser.whole T limit (Token.scan text) = .error f ∧
      f.toError ⟨"<input>", text⟩ (Token.scan text) = e := by
  show (Parser.whole T limit (Token.scan text)).mapError _ = .error e ↔ _
  cases Parser.whole T limit (Token.scan text) with
  | error f => exact ⟨fun h => ⟨f, rfl, Except.error.inj h⟩, by rintro ⟨_, ⟨⟩, rfl⟩; rfl⟩
  | ok m => exact ⟨nofun, nofun⟩

/-- The errors that reading a text may end with. -/
theorem Term.parse_error_cases {e : ParseError} (h : parse T limit text = .error e) :
    (∃ l, (Token.scan text).error? ⟨"<input>", text⟩ = some l ∧ e = .lex l) ∨
    ((Token.scan text).stuck = none ∧ e = .atEnd (.atEnd ⟨"<input>", text⟩)) ∨
    ∃ cause, ∃ t ∈ (Token.scan text).tokens, e = .refused cause (t.excerpt ⟨"<input>", text⟩) := by
  obtain ⟨f, hf, rfl⟩ := parse_eq_error_iff.1 h
  have hoccurs : f.Occurs (Token.scan text) := Parser.whole_fault hf
  cases f with
  | stuck =>
    obtain ⟨place, hplace⟩ := Option.isSome_iff_exists.1 hoccurs
    simp [Parser.Fault.toError, TokenStream.error?, hplace]
  | ended => exact .inr (.inl ⟨hoccurs, rfl⟩)
  | refused cause t => exact .inr (.inr ⟨cause, t, hoccurs, rfl⟩)

end Errors

/-- **Errors are where they say.** An error of lexing is the one that the text has, and one at the end
comes of texts that tokens make up, at their last byte; every other one is at a token of the text,
before the place that no token begins at. A text that tokens do not make up is no term. -/
theorem Term.parse_error_place (T : OperatorTable) (limit : Nat) (text : String) :
    let source : Source := ⟨"<input>", text⟩
    (∀ e, parse T limit text = .error (.lex e) → Token.tokenize source = .error e) ∧
    (∀ place, parse T limit text = .error (.atEnd place) →
      (∃ words, Token.tokenize source = .ok words) ∧ place.start = text.utf8ByteSize) ∧
    (∀ cause place, parse T limit text = .error (.refused cause place) →
      ∃ t ∈ (Token.scan text).tokens, place.start = t.offset ∧
        (∃ before after, text.toList = before ++ t.text.toList ++ after ∧
          t.offset = Text.byteSize before) ∧
        ∀ e, Token.tokenize source = .error e → t.offset + t.text.utf8ByteSize ≤ e.place.start) ∧
    ∀ e, Token.tokenize source = .error e → ∃ e', parse T limit text = .error e' := by
  intro source
  refine ⟨fun e h => ?_, fun place h => ?_, fun cause place h => ?_, fun e he => ?_⟩
  · rcases parse_error_cases h with ⟨l, hl, he⟩ | ⟨-, he⟩ | ⟨cause, t, -, he⟩ <;> cases he
    exact Token.tokenize_eq_error_iff.2 hl
  · rcases parse_error_cases h with ⟨l, -, he⟩ | ⟨hnone, he⟩ | ⟨cause, t, -, he⟩ <;> cases he
    refine ⟨⟨(Token.scan text).tokens.map Token.text, ?_⟩, Text.byteSize_toList text⟩
    simp [Token.tokenize, TokenStream.error?, source, hnone]
  · rcases parse_error_cases h with ⟨l, -, he⟩ | ⟨-, he⟩ | ⟨cause, t, ht, he⟩ <;> cases he
    obtain ⟨before, after, htext, hoffset⟩ := Token.exists_split_of_mem_scanFrom ht
    refine ⟨t, ht, rfl, ⟨before, after, htext, by simpa using hoffset⟩, fun e he => ?_⟩
    obtain ⟨place, hplace, rfl⟩ := Option.map_eq_some_iff.1 (Token.tokenize_eq_error_iff.1 he)
    exact Token.le_of_stuck ht hplace
  · cases hread : parse T limit text with
    | error e' => exact ⟨e', rfl⟩
    | ok m =>
      have hstuck := Parser.stuck_of_whole (Term.parse_eq_ok.1 hread)
      have he := Token.tokenize_eq_error_iff.1 he
      simp [TokenStream.error?, source, hstuck] at he

/-- One error of each kind: at a quote that begins no literal, at the end behind a wide character, and
at an operator in the place of an operand, before such a quote. -/
theorem Term.parse_error_place_each :
    let T := OperatorTable.standard
    let quote : LexError := ⟨⟨"<input>", "x \"y"⟩, 2, 3⟩
    let last : Excerpt := .atEnd ⟨"<input>", "(p ∧ q"⟩
    let times : Excerpt := ⟨⟨"<input>", "x + * \"y"⟩, 4, 5⟩
    (parse T 512 "x \"y" = .error (.lex quote) ∧
      Token.tokenize ⟨"<input>", "x \"y"⟩ = .error quote) ∧
    (parse T 512 "(p ∧ q" = .error (.atEnd last) ∧ last.start = "(p ∧ q".utf8ByteSize) ∧
    parse T 512 "x + * \"y" = .error (.refused .expectedTerm times) ∧
      ∃ t ∈ (Token.scan "x + * \"y").tokens, times.start = t.offset := by
  intro T quote last times
  have hquote : parse T 512 "x \"y" = .error (.lex quote) := by decide +kernel
  have hlast : parse T 512 "(p ∧ q" = .error (.atEnd last) := by decide +kernel
  have htimes : parse T 512 "x + * \"y" = .error (.refused .expectedTerm times) := by
    decide +kernel
  obtain ⟨t, ht, hoffset, -⟩ := (parse_error_place T 512 "x + * \"y").2.2.1 _ _ htimes
  exact ⟨⟨hquote, (parse_error_place T 512 "x \"y").1 _ hquote⟩,
    ⟨hlast, ((parse_error_place T 512 "(p ∧ q").2.1 _ hlast).2⟩, htimes, t, ht, hoffset⟩

end ProofKernel
