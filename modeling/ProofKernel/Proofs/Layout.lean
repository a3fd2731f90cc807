import ProofKernel.Proofs.ErrorPlaces

/-!
# Layout does not matter

Where tokens stand matters to reading in one way only: whether a number directly follows a minus sign.
All else that is read of a text is decided by the kinds and texts of its tokens, if errors are told by
the index of a token and not by its place.

* `Token.indexFrom`: the index of a token in its text, found from its offset;
* `Term.outcome`: the term of a text, or the error without its place;
* `Term.outcome_congr`: texts whose tokens correspond have the same outcome;
* `Token.SameRow`: texts that differ in their layout only;
* `Term.parse_layout`: so they are read alike.
-/

namespace ProofKernel

/-! ## Indices of tokens -/

namespace Token

variable {offset : Nat} {cs : List Char} {t : Token} {text : String}

theorem offset_le_of_mem (h : t ∈ (scanFrom offset cs).tokens) : offset ≤ t.offset := by
  obtain ⟨before, after, -, ht⟩ := exists_split_of_mem_scanFrom h
  omega

/-- Tokens have characters. -/
theorem text_size_pos {kind : TokenKind} (h : kind? text = some kind) : 0 < text.utf8ByteSize := by
  obtain ⟨c, cs, htext, -⟩ := kind?_eq_some.1 h
  have hc := c.utf8Size_pos
  rw [← Text.byteSize_toList, htext, Text.byteSize]
  omega

/-- Tokens begin before the end of the text. -/
theorem offset_lt_of_mem (h : t ∈ (scan text).tokens) : t.offset < text.utf8ByteSize := by
  obtain ⟨before, after, htext, ht⟩ := exists_split_of_mem_scanFrom h
  have hpos := text_size_pos (kind?_of_mem_scanFrom h)
  have hsize := congrArg Text.byteSize htext
  rw [Text.byteSize_toList, byteSize_append, byteSize_append, Text.byteSize_toList] at hsize
  omega

/-- Tokens stand one after the other. -/
theorem pairwise_offset : (scanFrom offset cs).tokens.Pairwise fun t u => t.offset < u.offset := by
  fun_induction scanFrom offset cs with
  | case1 => exact .nil
  | case2 offset c rest hblank ih => exact ih
  | case3 => exact .nil
  | case4 offset c rest hblank kind word after hlex stream ih =>
    refine .cons (fun u hu => ?_) ih
    have hle := offset_le_of_mem hu
    have hc := c.utf8Size_pos
    rw [Text.byteSize] at hle
    dsimp only
    omega

/-- The index of the first token of a text from an offset on; the number of its tokens if there is
none. -/
def indexFrom (text : String) (offset : Nat) : Nat :=
  (scan text).tokens.findIdx fun t => offset ≤ t.offset

theorem indexFrom_token {i : Nat} (h : (scan text).tokens[i]? = some t) :
    indexFrom text t.offset = i := by
  obtain ⟨hi, rfl⟩ := List.getElem?_eq_some_iff.1 h
  refine (List.findIdx_eq hi).2 ⟨by simp, fun j hj => ?_⟩
  have hlt := List.pairwise_iff_getElem.1 pairwise_offset j i (hj.trans hi) hi hj
  exact decide_eq_false (Nat.not_le.2 hlt)

theorem indexFrom_end (h : ∀ t ∈ (scan text).tokens, t.offset < offset) :
    indexFrom text offset = (scan text).tokens.length := by
  refine List.findIdx_eq_length.2 fun t ht => ?_
  simpa using h t ht

end Token

/-! ## Outcomes -/

/-- Kinds of errors, with the message about a token. -/
inductive Complaint where
  | lexing
  | refused (cause : ParseCause)
  | ended
deriving DecidableEq, Repr

/-- Kind and message of an error. -/
def ParseError.complaint : ParseError → Complaint
  | .lex _ => .lexing
  | .refused cause _ => .refused cause
  | .atEnd _ => .ended

/-- What is read of a text: its term, or what is wrong and the index of the token at which it is. -/
def Term.outcome (T : OperatorTable) (limit : Nat) (text : String) :
    Except (Complaint × Nat) PlainTerm :=
  (parse T limit text).mapError fun e => (e.complaint, Token.indexFrom text e.offset)

/-- What is wrong with a text, and the index of the token at which it is. -/
def Parser.Fault.told (text : String) (f : Fault) : Complaint × Nat :=
  let e := f.toError ⟨"<input>", text⟩ (Token.scan text)
  (e.complaint, Token.indexFrom text e.offset)

section Outcomes

variable {T T' : OperatorTable} {text text' : String}

theorem Term.outcome_eq (T : OperatorTable) (limit : Nat) (text : String) :
    outcome T limit text =
      (Parser.whole T limit (Token.scan text)).mapError (Parser.Fault.told text) := by
  show ((Parser.whole T limit (Token.scan text)).mapError _).mapError _ = _
  cases Parser.whole T limit (Token.scan text) <;> rfl

theorem Parser.Fault.told_stuck (h : (Token.scan text).stuck.isSome = true) :
    Fault.told text .stuck = (.lexing, (Token.scan text).tokens.length) := by
  obtain ⟨place, hplace⟩ := Option.isSome_iff_exists.1 h
  have hindex : Token.indexFrom text place.1 = (Token.scan text).tokens.length := by
    refine Token.indexFrom_end fun t ht => ?_
    have hle := Token.le_of_stuck ht hplace
    have hpos := Token.text_size_pos (Token.kind?_of_mem_scanFrom ht)
    omega
  rw [← hindex]
  simp only [told, toError, TokenStream.error?, hplace, Option.map_some]
  rfl

theorem Parser.Fault.told_ended :
    Fault.told text .ended = (.ended, (Token.scan text).tokens.length) := by
  have hsize : (⟨"<input>", text⟩ : Source).size = text.utf8ByteSize := Text.byteSize_toList text
  have hindex : Token.indexFrom text text.utf8ByteSize = (Token.scan text).tokens.length :=
    Token.indexFrom_end fun _ => Token.offset_lt_of_mem
  rw [← hindex, ← hsize]
  rfl

theorem Parser.Fault.told_refused (cause : ParseCause) {t : Token} {i : Nat}
    (h : (Token.scan text).tokens[i]? = some t) :
    Fault.told text (.refused cause t) = (.refused cause, i) := by
  rw [← Token.indexFrom_token h]
  rfl

/-- **Texts whose tokens correspond have the same outcome.** -/
theorem Term.outcome_congr {R : Token → Token → Prop}
    (hR : ∀ t t', R t t' → Parser.LooksAlike T T' t t')
    (hrows : Parser.Rows R (Token.scan text).tokens (Token.scan text').tokens)
    (hstuck : (Token.scan text).stuck.isSome = (Token.scan text').stuck.isSome) (limit : Nat) :
    outcome T limit text = outcome T' limit text' := by
  have hlength := hrows.length_eq
  have hagrees := Parser.whole_agrees (fun t t' h => hR t t' h.1) limit hrows.indexed hstuck
  rw [outcome_eq, outcome_eq]
  revert hagrees
  generalize Parser.whole T limit (Token.scan text) = x
  generalize Parser.whole T' limit (Token.scan text') = x'
  intro hagrees
  cases hagrees with
  | ok hm =>
    cases hm
    rfl
  | error hmatches =>
    refine congrArg Except.error ?_
    cases hmatches with
    | stuck hsome =>
      rw [Parser.Fault.told_stuck hsome, Parser.Fault.told_stuck (hstuck ▸ hsome), hlength]
    | ended => rw [Parser.Fault.told_ended, Parser.Fault.told_ended, hlength]
    | refused cause htoken =>
      obtain ⟨-, i, ht, ht'⟩ := htoken
      rw [Parser.Fault.told_refused cause ht, Parser.Fault.told_refused cause ht']

end Outcomes

/-! ## Layout -/

namespace Token

/-- Whether a token is a minus sign that a number directly follows, with no blank between them. -/
def touchesNumber (t : Token) (ts : List Token) : Bool :=
  t.kind == .symbol && t.text == "-" && ts.head?.any fun u =>
    u.kind == .number && u.offset == t.offset + t.text.utf8ByteSize

/-- Which tokens of a row are such signs. -/
def signs : List Token → List Bool
  | [] => []
  | t :: ts => touchesNumber t ts :: signs ts

/-- **Texts that differ in their layout only.** Their tokens are of the same kinds and have the same
texts, one after the other, and both texts end after these, or both go on with what no token begins
with. Numbers directly follow the same minus signs. -/
structure SameRow (text text' : String) : Prop where
  words : (scan text).tokens.map (fun t => (t.kind, t.text)) =
    (scan text').tokens.map fun t => (t.kind, t.text)
  stuck : (scan text).stuck.isSome = (scan text').stuck.isSome
  signs : signs (scan text).tokens = signs (scan text').tokens

/-- A reader finds the number that directly follows a minus sign. -/
theorem touchesNumber_eq {t : Token} (hkind : t.kind = .symbol) (htext : t.text = "-")
    (ts : List Token) : touchesNumber t ts = (Parser.adjacentNumber t ts).isSome := by
  have hsize : t.text.utf8ByteSize = 1 := by
    rw [htext]
    decide
  unfold touchesNumber
  rw [hsize, hkind, htext]
  cases ts with
  | nil => rfl
  | cons u us =>
    by_cases hnumber : u.kind = .number ∧ u.offset = t.offset + 1
    · simp [Parser.adjacentNumber, hnumber]
    · have hnone : Parser.adjacentNumber t (u :: us) = none := if_neg hnumber
      rw [hnone]
      simpa using hnumber

/-- Rows of the same words, with the same signs, correspond. -/
theorem rows_of_words {ts ts' : List Token} (hts : ∀ t ∈ ts, kind? t.text = some t.kind)
    (hwords : ts.map (fun t => (t.kind, t.text)) = ts'.map fun t => (t.kind, t.text))
    (hsigns : signs ts = signs ts') :
    Parser.Rows (fun t t' => t.kind = t'.kind ∧ t.text = t'.text) ts ts' := by
  induction ts generalizing ts' with
  | nil =>
    rw [List.map_nil, eq_comm, List.map_eq_nil_iff] at hwords
    subst hwords
    exact .nil
  | cons t ts ih =>
    obtain ⟨ht, hts⟩ := List.forall_mem_cons.1 hts
    cases ts' with
    | nil => cases hwords
    | cons t' ts' =>
      simp only [List.map_cons, List.cons.injEq, Prod.mk.injEq] at hwords
      obtain ⟨⟨hkind, htext⟩, hwords⟩ := hwords
      obtain ⟨hsign, hsigns⟩ := List.cons.inj hsigns
      refine .cons ⟨hkind, htext⟩ (fun hminus => ?_) (ih hts hwords hsigns)
      have hsymbol : t.kind = .symbol := by
        rw [hminus] at ht
        exact (Option.some.inj ht).symm
      rwa [← touchesNumber_eq hsymbol hminus, ← touchesNumber_eq (hkind ▸ hsymbol) (htext ▸ hminus)]

end Token

/-- **Layout does not matter.** Texts that differ in their layout only are read alike with every table
and under every limit: as the same term, with the names as shown, or with the same kind of error and
the same message at the token of the same index. -/
theorem Term.parse_layout {text text' : String} (h : Token.SameRow text text') (T : OperatorTable)
    (limit : Nat) : outcome T limit text = outcome T limit text' := by
  have hrows := Token.rows_of_words (fun _ => Token.kind?_of_mem_scanFrom) h.words h.signs
  exact outcome_congr (fun t t' hword => Parser.LooksAlike.of_word T hword.1 hword.2) hrows h.stuck
    limit

/-- A term and an error at a number, with other blanks than before; blanks after the minus sign before
the number would make it another term. -/
theorem Term.parse_layout_signs :
    let T := OperatorTable.standard
    Token.SameRow "f(-5)x" "f ( -5 )\n\tx" ∧ ¬ Token.SameRow "f(-5)x" "f(- 5)x" ∧
      outcome T 9 "f(-5)x" = outcome T 9 "f ( -5 )\n\tx" ∧
      outcome T 9 "f(-5)x" ≠ outcome T 9 "f(- 5)x" ∧
    Token.SameRow "x + {5. y} \"" "x+{ 5 . y }\"" ∧
      outcome T 9 "x + {5. y} \"" = outcome T 9 "x+{ 5 . y }\"" ∧
      outcome T 9 "x + {5. y} \"" = .error (.refused .expectedVariable, 3) := by
  intro T
  have hterm : Token.SameRow "f(-5)x" "f ( -5 )\n\tx" :=
    ⟨by decide +kernel, by decide +kernel, by decide +kernel⟩
  have hother : ¬ Token.SameRow "f(-5)x" "f(- 5)x" := fun h => absurd h.signs (by decide +kernel)
  have herror : Token.SameRow "x + {5. y} \"" "x+{ 5 . y }\"" :=
    ⟨by decide +kernel, by decide +kernel, by decide +kernel⟩
  exact ⟨hterm, hother, parse_layout hterm T 9, by decide +kernel, herror, parse_layout herror T 9,
    by decide +kernel⟩

end ProofKernel
