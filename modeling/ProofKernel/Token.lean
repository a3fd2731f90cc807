import ProofKernel.Name
import ProofKernel.Text.Blank
import ProofKernel.Text.Source

/-!
# Tokens

* `Token`: a piece of text with its kind and its offset;
* `Token.scan`: the tokens of a text, each the longest run of its kind, up to the end of the text or
  to a quote that begins no string literal;
* `Token.tokenize`: the token texts, or the excerpt that no token begins with.
-/

namespace ProofKernel

/-- What a token is, by the characters it consists of. -/
inductive TokenKind where
  /-- One of `(`, `[`, `{`. -/
  | opening
  /-- One of `)`, `]`, `}`. -/
  | closing
  /-- A letter, an underscore or a dollar sign, then letters, digits and underscores. -/
  | ident
  /-- Digits. -/
  | number
  /-- A string literal. -/
  | quoted
  /-- Any other characters. -/
  | symbol
deriving DecidableEq, Repr

/-- The name of a kind in a token's text. -/
def TokenKind.label : TokenKind → String
  | .opening => "Open"
  | .closing => "Close"
  | .ident => "Ident"
  | .number => "NumLit"
  | .quoted => "StrLit"
  | .symbol => "Symbol"

/-- A piece of text with its kind and its offset in bytes. -/
structure Token where
  kind : TokenKind
  text : String
  offset : Nat
deriving DecidableEq, Repr

/-- The tokens of a text. `stuck` is the place that no token begins at, if the text has one. -/
structure TokenStream where
  tokens : List Token
  stuck : Option (Nat × Char)
deriving DecidableEq, Repr

namespace Token

/-- Opening brackets. -/
def isOpening (c : Char) : Bool := c == '(' || c == '[' || c == '{'

/-- Closing brackets. -/
def isClosing (c : Char) : Bool := c == ')' || c == ']' || c == '}'

/-- Characters of symbol tokens: all that no other kind takes. -/
def isSymbolic (c : Char) : Bool :=
  !(isIdentStart c || c.isDigit || isOpening c || isClosing c || Text.isBlank c || c == '"')

/-- The kind of the token that begins with the character `c`, its other characters, and the text
after it. Only a quote may begin no token. -/
def lexeme (c : Char) (cs : List Char) : Option (TokenKind × List Char × List Char) :=
  if isOpening c then some (.opening, [], cs)
  else if isClosing c then some (.closing, [], cs)
  else if isIdentStart c then some (.ident, cs.takeWhile isIdentRest, cs.dropWhile isIdentRest)
  else if c.isDigit then some (.number, cs.takeWhile Char.isDigit, cs.dropWhile Char.isDigit)
  else if c = '"' then (Text.closing cs).map fun (body, rest) => (.quoted, body ++ ['"'], rest)
  else some (.symbol, cs.takeWhile isSymbolic, cs.dropWhile isSymbolic)

end Token

/-- A literal's body and what follows it are parts of the text. -/
theorem Text.closing_eq {cs body rest : List Char} (h : Text.closing cs = some (body, rest)) :
    cs = body ++ '"' :: rest := by
  fun_induction Text.closing cs generalizing body rest with
  | case1 => simp at h
  | case2 cs => simp at h; simp [← h.1, ← h.2]
  | case3 => simp at h
  | case4 => simp at h
  | case5 cs c hc ih =>
    obtain ⟨⟨b, r⟩, hb, he⟩ := Option.map_eq_some_iff.1 h
    simp only [Prod.mk.injEq] at he
    simp [← he.1, ← he.2, ih hb]
  | case6 cs c h₁ h₂ h₃ ih =>
    obtain ⟨⟨b, r⟩, hb, he⟩ := Option.map_eq_some_iff.1 h
    simp only [Prod.mk.injEq] at he
    simp [← he.1, ← he.2, ih hb]

namespace Token

/-- A token and the text after it make up the text. -/
theorem lexeme_eq {c : Char} {cs word rest : List Char} {kind : TokenKind}
    (h : lexeme c cs = some (kind, word, rest)) : cs = word ++ rest := by
  unfold lexeme at h
  split at h
  · simp only [Option.some.injEq, Prod.mk.injEq] at h
    simp [← h.2.1, ← h.2.2]
  split at h
  · simp only [Option.some.injEq, Prod.mk.injEq] at h
    simp [← h.2.1, ← h.2.2]
  split at h
  · simp only [Option.some.injEq, Prod.mk.injEq] at h
    simp [← h.2.1, ← h.2.2]
  split at h
  · simp only [Option.some.injEq, Prod.mk.injEq] at h
    simp [← h.2.1, ← h.2.2]
  split at h
  · obtain ⟨⟨b, r⟩, hb, he⟩ := Option.map_eq_some_iff.1 h
    simp only [Prod.mk.injEq] at he
    simp [← he.2.1, ← he.2.2, Text.closing_eq hb]
  · simp only [Option.some.injEq, Prod.mk.injEq] at h
    simp [← h.2.1, ← h.2.2]

theorem length_le_of_lexeme {c : Char} {cs word rest : List Char} {kind : TokenKind}
    (h : lexeme c cs = some (kind, word, rest)) : rest.length ≤ cs.length := by
  simp [lexeme_eq h]

/-- The tokens of a text that begins at an offset: blanks are skipped, and each token ends before
the next one begins. -/
def scanFrom (offset : Nat) (cs : List Char) : TokenStream :=
  match cs with
  | [] => ⟨[], none⟩
  | c :: rest =>
    if Text.isBlank c then scanFrom (offset + c.utf8Size) rest
    else match _h : lexeme c rest with
      | none => ⟨[], some (offset, c)⟩
      | some (kind, word, after) =>
        let stream := scanFrom (offset + Text.byteSize (c :: word)) after
        ⟨⟨kind, .ofList (c :: word), offset⟩ :: stream.tokens, stream.stuck⟩
termination_by cs.length
decreasing_by
  · simp
  · exact Nat.lt_succ_of_le (length_le_of_lexeme ‹_›)

/-- The tokens of a text. -/
def scan (text : String) : TokenStream := scanFrom 0 text.toList

/-- The range of a token in its source. -/
def excerpt (source : Source) (t : Token) : Excerpt :=
  ⟨source, t.offset, t.offset + t.text.utf8ByteSize⟩

/-- Kind and text of a token, with its place. -/
def render (source : Source) (t : Token) : String :=
  s!"{t.kind.label} {t.text}\n{(t.excerpt source).render}"

end Token

/-- A place that no token begins at. -/
structure LexError where
  place : Excerpt
deriving DecidableEq, Repr

/-- Tells the place. -/
def LexError.message (e : LexError) : String := s!"unrecognizable character at {e.place.render}"

/-- The first place of a source that no token begins at. -/
def TokenStream.error? (source : Source) (s : TokenStream) : Option LexError :=
  s.stuck.map fun (offset, c) => ⟨source, offset, offset + c.utf8Size⟩

/-- The token texts of a source, if tokens make up all of it. -/
def Token.tokenize (source : Source) : Except LexError (List String) :=
  let stream := Token.scan source.text
  match stream.error? source with
  | some e => .error e
  | none => .ok (stream.tokens.map Token.text)

end ProofKernel
