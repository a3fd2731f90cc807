import Mathlib.Data.List.TakeWhile
import ProofKernel.Token

/-!
# Texts and their tokens

* `Text.Body`: what may stand between the quotes of a literal, which ends behind it;
* `Token.kind?`: the kind of a text that is one token from end to end;
* `Token.lexeme_append`: such a token is read again before any character that does not continue it;
* `Token.word_characters`: the characters of a word but a literal are those of its kind;
* `Token.Scans`: a text is read as certain tokens wherever something that ends a token follows;
* `Token.Scans.append`, `Token.Scans.enclose`: texts made of such texts.
-/

namespace ProofKernel

/-! ## Bodies of literals -/

namespace Text

/-- What may stand between the quotes of a literal: characters that are no quote and no backslash,
and backslashes each with a character after it that is no newline. -/
inductive Body : List Char → Prop
  | nil : Body []
  | plain {c : Char} {cs : List Char} (hquote : c ≠ '"') (hslash : c ≠ '\\') (h : Body cs) :
      Body (c :: cs)
  | escaped {c : Char} {cs : List Char} (hline : c ≠ '\n') (h : Body cs) : Body ('\\' :: c :: cs)

theorem closing_cons {c : Char} (hquote : c ≠ '"') (hslash : c ≠ '\\') (cs : List Char) :
    closing (c :: cs) = (closing cs).map fun r => (c :: r.1, r.2) := by
  rw [closing]
  · exact fun hc => absurd hc hquote
  · exact fun hc => absurd hc hslash
  · exact fun _ _ hc => absurd hc hslash

theorem body_of_closing {cs body rest : List Char} (h : closing cs = some (body, rest)) :
    Body body := by
  fun_induction closing cs generalizing body rest with
  | case1 => cases h
  | case2 cs =>
    cases h
    exact .nil
  | case3 => cases h
  | case4 => cases h
  | case5 c cs hline ih =>
    obtain ⟨⟨b, r⟩, hb, he⟩ := Option.map_eq_some_iff.1 h
    cases he
    exact .escaped hline (ih hb)
  | case6 c cs hquote hlast hpair ih =>
    obtain ⟨⟨b, r⟩, hb, he⟩ := Option.map_eq_some_iff.1 h
    cases he
    have hslash : c ≠ '\\' := by
      rintro rfl
      cases cs with
      | nil => exact hlast rfl rfl
      | cons d ds => exact hpair d ds rfl rfl
    exact .plain hquote hslash (ih hb)

theorem Body.closing {body : List Char} (h : Body body) (rest : List Char) :
    Text.closing (body ++ '"' :: rest) = some (body, rest) := by
  induction h with
  | nil =>
    rw [List.nil_append, Text.closing]
  | plain hquote hslash _ ih =>
    rw [List.cons_append, closing_cons hquote hslash, ih]
    rfl
  | escaped hline _ ih =>
    rw [List.cons_append, List.cons_append, Text.closing, if_neg hline, ih]
    rfl

/-- A literal ends at its first quote that is not escaped, whatever follows. -/
theorem closing_body {cs body after : List Char} (h : closing cs = some (body, after))
    (rest : List Char) : closing (body ++ '"' :: rest) = some (body, rest) :=
  (body_of_closing h).closing rest

/-- **A literal ends at its first quote that is not escaped.** -/
theorem closing_eq_some_iff {cs body rest : List Char} :
    closing cs = some (body, rest) ↔ cs = body ++ '"' :: rest ∧ Body body := by
  constructor
  · exact fun h => ⟨closing_eq h, body_of_closing h⟩
  · rintro ⟨rfl, hbody⟩
    exact hbody.closing rest

end Text

namespace Token

/-! ## Words -/

/-- The kind of a text that is one token from end to end. -/
def kind? (text : String) : Option TokenKind :=
  match text.toList with
  | [] => none
  | c :: cs =>
    if Text.isBlank c then none
    else match lexeme c cs with
      | some (kind, _, []) => some kind
      | _ => none

theorem kind?_eq_some {text : String} {kind : TokenKind} :
    kind? text = some kind ↔ ∃ c cs, text.toList = c :: cs ∧ Text.isBlank c = false ∧
      lexeme c cs = some (kind, cs, []) := by
  unfold kind?
  constructor
  · intro h
    split at h
    next => cases h
    next c cs htext =>
      split at h
      next => cases h
      next hblank =>
        split at h
        next k word hlex =>
          cases h
          have hword := lexeme_eq hlex
          rw [List.append_nil] at hword
          exact ⟨c, cs, htext, by simpa using hblank, by rw [hlex, hword]⟩
        next => cases h
  · rintro ⟨c, cs, htext, hblank, hlex⟩
    rw [htext]
    simp [hblank, hlex]

/-- The characters that a token of a kind goes on with. -/
def continues : TokenKind → Char → Bool
  | .ident, c => isIdentRest c
  | .number, c => c.isDigit
  | .symbol, c => isSymbolic c
  | _, _ => false

/-- The characters that a token of a kind begins with. -/
def starts : TokenKind → Char → Bool
  | .opening, c => isOpening c
  | .closing, c => isClosing c
  | .ident, c => isIdentStart c
  | .number, c => c.isDigit
  | .quoted, c => c == '"'
  | .symbol, c => isSymbolic c

/-- A run of characters that goes on to the end of a text ends there before any other character. -/
theorem run_append {p : Char → Bool} {cs rest : List Char} {k kind : TokenKind}
    (h : some (k, cs.takeWhile p, cs.dropWhile p) = some (kind, cs, [])) (hp : continues k = p)
    (hrest : ∀ d ∈ rest.head?, continues kind d = false) :
    some (k, (cs ++ rest).takeWhile p, (cs ++ rest).dropWhile p) = some (kind, cs, rest) := by
  simp only [Option.some.injEq, Prod.mk.injEq] at h
  obtain ⟨rfl, -, hdrop⟩ := h
  have hall := List.dropWhile_eq_nil_iff.1 hdrop
  rw [List.takeWhile_append_of_pos hall, List.dropWhile_append_of_pos hall]
  cases rest with
  | nil => simp
  | cons d rest =>
    have hd : p d = false := hp ▸ hrest d (by simp)
    simp [hd]

/-- The six ways in which the first character of a token decides on it. -/
theorem lexeme_cases (c : Char) :
    (isOpening c = true ∧ ∀ cs, lexeme c cs = some (.opening, [], cs)) ∨
    (isClosing c = true ∧ ∀ cs, lexeme c cs = some (.closing, [], cs)) ∨
    (isIdentStart c = true ∧
      ∀ cs, lexeme c cs = some (.ident, cs.takeWhile isIdentRest, cs.dropWhile isIdentRest)) ∨
    (c.isDigit = true ∧
      ∀ cs, lexeme c cs = some (.number, cs.takeWhile Char.isDigit, cs.dropWhile Char.isDigit)) ∨
    (c = '"' ∧ ∀ cs, lexeme c cs =
      (Text.closing cs).map fun (body, rest) => (.quoted, body ++ ['"'], rest)) ∨
    ((Text.isBlank c = false → isSymbolic c = true) ∧
      ∀ cs, lexeme c cs = some (.symbol, cs.takeWhile isSymbolic, cs.dropWhile isSymbolic)) := by
  unfold lexeme
  by_cases ho : isOpening c = true
  · exact .inl ⟨ho, fun cs => by rw [if_pos ho]⟩
  by_cases hc : isClosing c = true
  · exact .inr (.inl ⟨hc, fun cs => by rw [if_neg ho, if_pos hc]⟩)
  by_cases hi : isIdentStart c = true
  · exact .inr (.inr (.inl ⟨hi, fun cs => by rw [if_neg ho, if_neg hc, if_pos hi]⟩))
  by_cases hd : c.isDigit = true
  · refine .inr (.inr (.inr (.inl ⟨hd, ?_⟩)))
    intro cs
    rw [if_neg ho, if_neg hc, if_neg hi, if_pos hd]
  by_cases hq : c = '"'
  · refine .inr (.inr (.inr (.inr (.inl ⟨hq, ?_⟩))))
    intro cs
    rw [if_neg ho, if_neg hc, if_neg hi, if_neg hd, if_pos hq]
  · refine .inr (.inr (.inr (.inr (.inr ⟨?_, ?_⟩))))
    · intro hb
      simp [isSymbolic, ho, hc, hi, hd, hq, hb]
    · intro cs
      rw [if_neg ho, if_neg hc, if_neg hi, if_neg hd, if_neg hq]

/-- A token is read again before any character that does not continue it. -/
theorem lexeme_append {c : Char} {cs rest : List Char} {kind : TokenKind}
    (h : lexeme c cs = some (kind, cs, [])) (hrest : ∀ d ∈ rest.head?, continues kind d = false) :
    lexeme c (cs ++ rest) = some (kind, cs, rest) := by
  rcases lexeme_cases c with ⟨-, hl⟩ | ⟨-, hl⟩ | ⟨-, hl⟩ | ⟨-, hl⟩ | ⟨-, hl⟩ | ⟨-, hl⟩ <;>
    rw [hl] at h ⊢
  · simp only [Option.some.injEq, Prod.mk.injEq] at h
    obtain ⟨rfl, rfl, -⟩ := h
    rfl
  · simp only [Option.some.injEq, Prod.mk.injEq] at h
    obtain ⟨rfl, rfl, -⟩ := h
    rfl
  · exact run_append h rfl hrest
  · exact run_append h rfl hrest
  · obtain ⟨⟨body, after⟩, hbody, he⟩ := Option.map_eq_some_iff.1 h
    simp only [Prod.mk.injEq] at he
    obtain ⟨rfl, rfl, rfl⟩ := he
    rw [List.append_assoc, List.singleton_append, Text.closing_body hbody]
    rfl
  · exact run_append h rfl hrest

/-- A token is a word of its kind. -/
theorem lexeme_self {c : Char} {cs word after : List Char} {kind : TokenKind}
    (h : lexeme c cs = some (kind, word, after)) : lexeme c word = some (kind, word, []) := by
  have hrun : ∀ p : Char → Bool, (cs.takeWhile p).dropWhile p = [] := fun p =>
    List.dropWhile_eq_nil_iff.2 fun _ => List.mem_takeWhile_imp
  rcases lexeme_cases c with ⟨-, hl⟩ | ⟨-, hl⟩ | ⟨-, hl⟩ | ⟨-, hl⟩ | ⟨-, hl⟩ | ⟨-, hl⟩ <;>
    rw [hl] at h ⊢
  · cases h
    rfl
  · cases h
    rfl
  · cases h
    rw [hrun, List.takeWhile_idem]
  · cases h
    rw [hrun, List.takeWhile_idem]
  · obtain ⟨⟨body, after⟩, hbody, he⟩ := Option.map_eq_some_iff.1 h
    cases he
    rw [Text.closing_body hbody []]
    rfl
  · cases h
    rw [hrun, List.takeWhile_idem]

/-- A token ends before a character that does not continue it. -/
theorem lexeme_stops {c : Char} {cs word after : List Char} {kind : TokenKind}
    (h : lexeme c cs = some (kind, word, after)) : ∀ d ∈ after.head?, continues kind d = false := by
  have hrun : ∀ p : Char → Bool, ∀ d ∈ (cs.dropWhile p).head?, p d = false := by
    intro p d hd
    have hnot := List.head?_dropWhile_not p cs
    rw [Option.mem_def.1 hd] at hnot
    exact hnot
  rcases lexeme_cases c with ⟨-, hl⟩ | ⟨-, hl⟩ | ⟨-, hl⟩ | ⟨-, hl⟩ | ⟨-, hl⟩ | ⟨-, hl⟩ <;>
    rw [hl] at h
  · cases h
    exact fun _ _ => rfl
  · cases h
    exact fun _ _ => rfl
  · cases h
    exact hrun isIdentRest
  · cases h
    exact hrun Char.isDigit
  · obtain ⟨⟨body, after⟩, hbody, he⟩ := Option.map_eq_some_iff.1 h
    cases he
    exact fun _ _ => rfl
  · cases h
    exact hrun isSymbolic

/-! ### The characters of a word -/

section Characters

variable {text : String}

/-- Every word but a literal begins and goes on with characters of its kind. -/
theorem word_characters {kind : TokenKind} (h : kind? text = some kind) (hkind : kind ≠ .quoted) :
    ∃ c cs, text.toList = c :: cs ∧ starts kind c = true ∧ ∀ d ∈ cs, continues kind d = true := by
  obtain ⟨c, cs, htext, hblank, hlex⟩ := kind?_eq_some.1 h
  refine ⟨c, cs, htext, ?_⟩
  rcases lexeme_cases c with ⟨hc, hl⟩ | ⟨hc, hl⟩ | ⟨hc, hl⟩ | ⟨hc, hl⟩ | ⟨-, hl⟩ | ⟨hc, hl⟩ <;>
    rw [hl] at hlex <;> simp only [Option.some.injEq, Prod.mk.injEq] at hlex
  · obtain ⟨rfl, rfl, -⟩ := hlex
    exact ⟨hc, List.forall_mem_nil _⟩
  · obtain ⟨rfl, rfl, -⟩ := hlex
    exact ⟨hc, List.forall_mem_nil _⟩
  · obtain ⟨rfl, hrun, -⟩ := hlex
    exact ⟨hc, List.takeWhile_eq_self_iff.1 hrun⟩
  · obtain ⟨rfl, hrun, -⟩ := hlex
    exact ⟨hc, List.takeWhile_eq_self_iff.1 hrun⟩
  · obtain ⟨⟨body, after⟩, -, he⟩ := Option.map_eq_some_iff.1 hlex
    cases he
    exact absurd rfl hkind
  · obtain ⟨rfl, hrun, -⟩ := hlex
    exact ⟨hc hblank, List.takeWhile_eq_self_iff.1 hrun⟩

theorem ident_characters (h : kind? text = some .ident) :
    ∃ c cs, text.toList = c :: cs ∧ isIdentStart c = true ∧ ∀ d ∈ cs, isIdentRest d = true :=
  word_characters h (by decide)

theorem number_characters (h : kind? text = some .number) :
    ∃ c cs, text.toList = c :: cs ∧ c.isDigit = true ∧ ∀ d ∈ cs, d.isDigit = true :=
  word_characters h (by decide)

theorem symbol_characters (h : kind? text = some .symbol) :
    ∃ c cs, text.toList = c :: cs ∧ isSymbolic c = true ∧ ∀ d ∈ cs, isSymbolic d = true :=
  word_characters h (by decide)

theorem quoted_characters (h : kind? text = some .quoted) :
    ∃ cs body, text.toList = '"' :: cs ∧ Text.closing cs = some (body, []) := by
  obtain ⟨c, cs, htext, hblank, hlex⟩ := kind?_eq_some.1 h
  rcases lexeme_cases c with ⟨-, hl⟩ | ⟨-, hl⟩ | ⟨-, hl⟩ | ⟨-, hl⟩ | ⟨rfl, hl⟩ | ⟨-, hl⟩ <;>
    rw [hl] at hlex <;> simp at hlex
  obtain ⟨body, hbody, -⟩ := hlex
  exact ⟨cs, body, htext, hbody⟩

end Characters

theorem ne_bracket {text : String} {kind : TokenKind} (h : kind? text = some kind)
    (hkind : kind ≠ .closing) : text ≠ ")" := by
  rintro rfl
  have hbracket : kind? ")" = some .closing := by decide
  rw [hbracket] at h
  cases h
  exact hkind rfl

/-! ## Texts in front of other texts -/

/-- A text that begins with something that ends every token: a blank or a closing bracket. -/
def Apart (rest : List Char) : Prop := ∀ c ∈ rest.head?, c = ' ' ∨ c = ')' ∨ c = '\x7d'

theorem Apart.not_continues {rest : List Char} (h : Apart rest) (kind : TokenKind) :
    ∀ c ∈ rest.head?, continues kind c = false := by
  intro c hc
  rcases h c hc with rfl | rfl | rfl <;> cases kind <;> decide

theorem apart_nil : Apart [] := nofun

theorem apart_blank (rest : List Char) : Apart (' ' :: rest) := by
  rintro c ⟨⟩
  exact .inl rfl

theorem apart_parenthesis (rest : List Char) : Apart (')' :: rest) := by
  rintro c ⟨⟩
  exact .inr (.inl rfl)

theorem apart_brace (rest : List Char) : Apart ('\x7d' :: rest) := by
  rintro c ⟨⟩
  exact .inr (.inr rfl)

theorem scanFrom_nil (offset : Nat) : scanFrom offset [] = ⟨[], none⟩ := by
  rw [scanFrom.eq_def]

theorem scanFrom_cons (offset : Nat) (c : Char) (rest : List Char) : scanFrom offset (c :: rest) =
    if Text.isBlank c then scanFrom (offset + c.utf8Size) rest
    else match lexeme c rest with
      | none => ⟨[], some (offset, c)⟩
      | some (kind, word, after) =>
        ⟨⟨kind, .ofList (c :: word), offset⟩ ::
          (scanFrom (offset + Text.byteSize (c :: word)) after).tokens,
          (scanFrom (offset + Text.byteSize (c :: word)) after).stuck⟩ := by
  rw [scanFrom.eq_def]
  dsimp only
  split
  next => rfl
  next =>
    split
    next hlex => rw [hlex]
    next hlex => rw [hlex]

theorem scanFrom_blank (offset : Nat) (cs : List Char) :
    scanFrom offset (' ' :: cs) = scanFrom (offset + 1) cs := by
  rw [scanFrom_cons, if_pos (by decide)]
  rfl

theorem scanFrom_word {text : String} {kind : TokenKind} (h : kind? text = some kind) (offset : Nat)
    {rest : List Char} (hrest : ∀ c ∈ rest.head?, continues kind c = false) :
    scanFrom offset (text.toList ++ rest) =
      ⟨⟨kind, text, offset⟩ :: (scanFrom (offset + Text.byteSize text.toList) rest).tokens,
        (scanFrom (offset + Text.byteSize text.toList) rest).stuck⟩ := by
  obtain ⟨c, cs, htext, hblank, hlex⟩ := kind?_eq_some.1 h
  have hofList : String.ofList (c :: cs) = text := by rw [← htext, String.ofList_toList]
  rw [htext, List.cons_append, scanFrom_cons, if_neg (by simp [hblank]), lexeme_append hlex hrest,
    ← hofList]

/-- Every token of a text is a word of its kind. -/
theorem kind?_of_mem_scanFrom {offset : Nat} {cs : List Char} {t : Token}
    (h : t ∈ (scanFrom offset cs).tokens) : kind? t.text = some t.kind := by
  fun_induction scanFrom offset cs with
  | case1 => cases h
  | case2 offset c rest hblank ih => exact ih h
  | case3 => cases h
  | case4 offset c rest hblank kind word after hlex stream ih =>
    rcases List.mem_cons.1 h with rfl | h
    · have hself := lexeme_self hlex
      exact kind?_eq_some.2 ⟨c, word, String.toList_ofList, by simpa using hblank, hself⟩
    · exact ih h

/-- A text is read as tokens of a kind of list, wherever it stands and whatever it stands before, if
that begins with something that ends every token. -/
def Scans (text : List Char) (P : List Token → Prop) : Prop :=
  ∀ (offset : Nat) (rest : List Char), Apart rest → ∃ ts, P ts ∧
    scanFrom offset (text ++ rest) =
      ⟨ts ++ (scanFrom (offset + Text.byteSize text) rest).tokens,
        (scanFrom (offset + Text.byteSize text) rest).stuck⟩

theorem Scans.mono {text : List Char} {P Q : List Token → Prop} (h : Scans text P)
    (hPQ : ∀ ts, P ts → Q ts) : Scans text Q := by
  intro offset rest hrest
  obtain ⟨ts, hts, hscan⟩ := h offset rest hrest
  exact ⟨ts, hPQ ts hts, hscan⟩

theorem scans_nil : Scans [] (· = []) := fun _ _ _ => ⟨[], rfl, rfl⟩

theorem scans_word {text : String} {kind : TokenKind} (h : kind? text = some kind) :
    Scans text.toList fun ts => ∃ offset, ts = [⟨kind, text, offset⟩] := by
  intro offset rest hrest
  exact ⟨_, ⟨offset, rfl⟩, scanFrom_word h offset (hrest.not_continues kind)⟩

theorem byteSize_append (cs ds : List Char) :
    Text.byteSize (cs ++ ds) = Text.byteSize cs + Text.byteSize ds := by
  induction cs with
  | nil => simp [Text.byteSize]
  | cons c cs ih => simp [Text.byteSize, ih, Nat.add_assoc]

/-- The tokens of a text that tokens make up stay when something that continues none of them
follows. -/
theorem scanFrom_append {offset : Nat} {cs rest : List Char}
    (hrest : ∀ kind, ∀ d ∈ rest.head?, continues kind d = false)
    (h : (scanFrom offset cs).stuck = none) : scanFrom offset (cs ++ rest) =
      ⟨(scanFrom offset cs).tokens ++ (scanFrom (offset + Text.byteSize cs) rest).tokens,
        (scanFrom (offset + Text.byteSize cs) rest).stuck⟩ := by
  fun_induction scanFrom offset cs with
  | case1 offset => rfl
  | case2 offset c cs hblank ih =>
    rw [List.cons_append, scanFrom_cons, if_pos hblank, ih h]
    simp [Text.byteSize, Nat.add_assoc]
  | case3 => cases h
  | case4 offset c cs hblank kind word after hlex stream ih =>
    have hstops : ∀ d ∈ (after ++ rest).head?, continues kind d = false := by
      cases after with
      | nil => exact hrest kind
      | cons d after => exact fun e he => lexeme_stops hlex e he
    have hagain : lexeme c (cs ++ rest) = some (kind, word, after ++ rest) := by
      rw [lexeme_eq hlex, List.append_assoc]
      exact lexeme_append (lexeme_self hlex) hstops
    have hsize : Text.byteSize (c :: cs) = Text.byteSize (c :: word) + Text.byteSize after := by
      rw [lexeme_eq hlex, ← List.cons_append, byteSize_append]
    rw [List.cons_append, scanFrom_cons, if_neg hblank, hagain]
    dsimp only
    rw [ih h, hsize, ← Nat.add_assoc]
    rfl

/-- A text in front of one that begins with a blank or a closing bracket. -/
theorem Scans.append {text text' : List Char} {P Q : List Token → Prop} (h : Scans text P)
    (h' : Scans text' Q) (hapart : ∀ rest, Apart rest → Apart (text' ++ rest)) :
    Scans (text ++ text') fun ts => ∃ us vs, P us ∧ Q vs ∧ ts = us ++ vs := by
  intro offset rest hrest
  obtain ⟨us, hus, hscan⟩ := h offset (text' ++ rest) (hapart rest hrest)
  obtain ⟨vs, hvs, hscan'⟩ := h' (offset + Text.byteSize text) rest hrest
  refine ⟨us ++ vs, ⟨us, vs, hus, hvs, rfl⟩, ?_⟩
  rw [List.append_assoc, hscan, hscan', byteSize_append, Nat.add_assoc, List.append_assoc]

theorem Scans.blank {text : List Char} {P : List Token → Prop} (h : Scans text P) :
    Scans (' ' :: text) P := by
  intro offset rest hrest
  obtain ⟨ts, hts, hscan⟩ := h (offset + 1) rest hrest
  refine ⟨ts, hts, ?_⟩
  have hsize : Text.byteSize (' ' :: text) = 1 + Text.byteSize text := rfl
  rw [List.cons_append, scanFrom_blank, hscan, hsize, Nat.add_assoc]

/-- A word in front of a text that does not continue it. -/
theorem Scans.cons_word {word : String} {kind : TokenKind} {text : List Char}
    {P : List Token → Prop} (hword : kind? word = some kind) (h : Scans text P)
    (hstop : ∀ rest, Apart rest → ∀ c ∈ (text ++ rest).head?, continues kind c = false) :
    Scans (word.toList ++ text) fun ts =>
      ∃ offset us, P us ∧ ts = ⟨kind, word, offset⟩ :: us := by
  intro offset rest hrest
  obtain ⟨us, hus, hscan⟩ := h (offset + Text.byteSize word.toList) rest hrest
  refine ⟨⟨kind, word, offset⟩ :: us, ⟨offset, us, hus, rfl⟩, ?_⟩
  rw [List.append_assoc, scanFrom_word hword offset (hstop rest hrest), hscan, byteSize_append,
    Nat.add_assoc]
  rfl

/-- A minus sign directly before digits is a token of its own. -/
theorem scans_minus {digits : String} (h : kind? digits = some .number) :
    Scans ("-" ++ digits).toList fun ts =>
      ∃ offset, ts = [⟨.symbol, "-", offset⟩, ⟨.number, digits, offset + 1⟩] := by
  intro offset rest hrest
  have hstop : ∀ c ∈ (digits.toList ++ rest).head?, continues .symbol c = false := by
    obtain ⟨d, ds, hdigits, hd, -⟩ := number_characters h
    rw [hdigits]
    intro c hc
    cases hc
    simp [continues, isSymbolic, hd]
  have hsymbol : kind? "-" = some .symbol := by decide
  have hminus := scanFrom_word hsymbol offset hstop
  have hdigits := scanFrom_word h (offset + 1) (hrest.not_continues .number)
  have hsize : Text.byteSize ("-" ++ digits).toList = 1 + Text.byteSize digits.toList := by
    rw [String.toList_append, byteSize_append]
    rfl
  refine ⟨_, ⟨offset, rfl⟩, ?_⟩
  have hone : Text.byteSize "-".toList = 1 := by decide
  rw [hone, hdigits] at hminus
  rw [hsize, String.toList_append, List.append_assoc, hminus, Nat.add_assoc]
  rfl

/-- A text between two brackets. -/
theorem Scans.enclose {o c : String} {text : List Char} {P : List Token → Prop}
    (ho : kind? o = some .opening) (hc : kind? c = some .closing)
    (hapart : ∀ rest, Apart (c.toList ++ rest)) (h : Scans text P) :
    Scans (o.toList ++ (text ++ c.toList)) fun ts => ∃ i j us, P us ∧
      ts = ⟨.opening, o, i⟩ :: (us ++ [⟨.closing, c, j⟩]) := by
  have hinner := h.append (scans_word hc) fun rest _ => hapart rest
  refine (Scans.cons_word ho hinner fun _ _ _ _ => rfl).mono ?_
  rintro _ ⟨i, _, ⟨us, _, hus, ⟨j, rfl⟩, rfl⟩, rfl⟩
  exact ⟨i, j, us, hus, rfl⟩

end Token

end ProofKernel
