/-!
# Quoted strings

A string literal stands between double quotes; inside it a backslash takes the next character as
it is.

* `quote`: the literal of a content;
* `closing`: the part of a text up to the first quote that is not escaped, and what follows it;
* `isQuoted`: whether a text is one whole literal;
* `content?`: the content of a text that begins and ends with a one-byte character.
-/

namespace ProofKernel.Text

/-- Writes a backslash before each quote and each backslash. -/
def escape : List Char → List Char
  | [] => []
  | c :: cs => if c = '"' || c = '\\' then '\\' :: c :: escape cs else c :: escape cs

/-- Drops each backslash and takes the character after it as it is. -/
def unescape : List Char → List Char
  | [] => []
  | ['\\'] => []
  | '\\' :: c :: cs => c :: unescape cs
  | c :: cs => c :: unescape cs

/-- The literal of a content. -/
def quoteChars (cs : List Char) : List Char := '"' :: (escape cs ++ ['"'])

/-- `quoteChars` on strings. -/
def quote (s : String) : String := .ofList (quoteChars s.toList)

/-- What stands before the first quote that is not escaped, and what stands after it. A backslash
escapes any character but a newline; before a newline it makes the literal ill-formed. -/
def closing : List Char → Option (List Char × List Char)
  | [] => none
  | '"' :: cs => some ([], cs)
  | ['\\'] => none
  | '\\' :: c :: cs =>
    if c = '\n' then none else (closing cs).map fun (body, rest) => ('\\' :: c :: body, rest)
  | c :: cs => (closing cs).map fun (body, rest) => (c :: body, rest)

/-- Whether the text is one string literal from end to end. -/
def isQuoted : List Char → Bool
  | '"' :: cs => match closing cs with
    | some (_, []) => true
    | _ => false
  | _ => false

/-- The content of a text without its first and its last byte; `none` where such a byte is not a
character of its own. -/
def content? : List Char → Option (List Char)
  | first :: second :: cs =>
    if first.utf8Size = 1 ∧ ((second :: cs).getLast (by simp)).utf8Size = 1 then
      some (unescape (second :: cs).dropLast)
    else none
  | _ => none

end ProofKernel.Text
