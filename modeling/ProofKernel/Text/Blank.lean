/-!
# White space

* `isBlank`: the characters with the Unicode property `White_Space`;
* `trimStart`, `trim`: a text without the blanks at its start, at both ends.
-/

namespace ProofKernel.Text

/-- The twenty-five characters with the Unicode property `White_Space`. -/
def isBlank (c : Char) : Bool :=
  let n := c.toNat
  (9 ≤ n && n ≤ 13) || n == 0x20 || n == 0x85 || n == 0xA0 || n == 0x1680 ||
    (0x2000 ≤ n && n ≤ 0x200A) || n == 0x2028 || n == 0x2029 || n == 0x202F || n == 0x205F ||
    n == 0x3000

/-- The text from its first character that is not blank. -/
def trimStart (cs : List Char) : List Char := cs.dropWhile isBlank

/-- The text between its first and its last character that are not blank. -/
def trim (cs : List Char) : List Char := (trimStart (trimStart cs).reverse).reverse

/-- `trim` on strings. -/
def trimString (s : String) : String := .ofList (trim s.toList)

end ProofKernel.Text
