import ProofKernel.Name
import ProofKernel.SimpleType.Basic
import ProofKernel.Text.Blank
import ProofKernel.Text.Source

/-!
# The compact form of types

`i` and `o` are the types of individuals and of truth values; a capital letter, or `t` followed by
digits, is a type variable; a row of items is the type of functions from the first ones to the last;
round brackets group.

* `TypeToken.scan`: the tokens of a text;
* `Ty.readItems`: the type of a row of tokens, with a stack for the open brackets;
* `Ty.read`: the type of a text. Its variables are their own spellings.
-/

namespace ProofKernel

/-- What is wrong with the compact form of a type. -/
inductive TypeSyntaxCause where
  | empty
  | unbalanced
  | unexpected (token : String)
deriving DecidableEq, Repr

/-- The message of a cause. -/
def TypeSyntaxCause.message : TypeSyntaxCause → String
  | .empty => "empty type"
  | .unbalanced => "unbalanced parenthesis"
  | .unexpected token => s!"unexpected `{token}`"

/-- What is wrong with the compact form of a type, and where. -/
structure TypeSyntaxError where
  offset : Nat
  cause : TypeSyntaxCause
deriving DecidableEq, Repr

/-- The message of an error, with its offset. -/
def TypeSyntaxError.message (e : TypeSyntaxError) : String :=
  s!"type parse error: {e.cause.message} at offset {e.offset}"

/-- A token of the compact form, with its offset in bytes. -/
structure TypeToken where
  offset : Nat
  text : List Char
deriving DecidableEq, Repr

namespace TypeToken

/-- The offset at which the token ends. -/
def stop (t : TypeToken) : Nat := t.offset + Text.byteSize t.text

/-- The tokens of a text that begins at an offset: a `t` takes the digits after it, any other
character that is not blank is a token. -/
def scan (offset : Nat) (cs : List Char) : List TypeToken :=
  match cs with
  | [] => []
  | c :: rest =>
    if Text.isBlank c then scan (offset + c.utf8Size) rest
    else
      let digits := if c = 't' then rest.takeWhile Char.isDigit else []
      let token : TypeToken := ⟨offset, c :: digits⟩
      token :: scan token.stop (rest.drop digits.length)
termination_by cs.length

/-- The type that a token other than a bracket stands for. -/
def item? (t : TypeToken) : Option (Ty Name) :=
  match t.text with
  | ['i'] => some .individual
  | ['o'] => some .truth
  | text =>
    if 1 < Text.byteSize text ∨ text.all Char.isUpper then some (.var (.ofList text)) else none

end TypeToken

namespace Ty

/-- The type of functions that take arguments of the given types, the last one first. -/
def arrows {α : Type} (result : Ty α) (doms : List (Ty α)) : Ty α := doms.foldl (fun t dom => .fn dom t) result

/-- Reads tokens. `last` is the offset at which the token before them ends, `items` are the items of
the innermost open row, the last one first, and `outer` holds the offset of each open bracket with
the items before it. -/
def readItems (last : Nat) (items : List (Ty Name)) (outer : List (Nat × List (Ty Name))) :
    List TypeToken → Except TypeSyntaxError (Ty Name)
  | [] =>
    match items, outer with
    | [], _ => .error ⟨last, .empty⟩
    | _ :: _, (opening, _) :: _ => .error ⟨opening, .unbalanced⟩
    | result :: doms, [] => .ok (arrows result doms)
  | t :: ts =>
    if t.text = ['('] then readItems t.stop [] ((t.offset, items) :: outer) ts
    else if t.text = [')'] then
      match items, outer with
      | [], _ => .error ⟨last, .empty⟩
      | result :: doms, (_, before) :: outer =>
        readItems t.stop (arrows result doms :: before) outer ts
      | _ :: _, [] => .error ⟨t.offset, .unexpected ")"⟩
    else match t.item? with
      | some item => readItems t.stop (item :: items) outer ts
      | none => .error ⟨t.offset, .unexpected (.ofList t.text)⟩

/-- The type of a text. -/
def read (text : String) : Except TypeSyntaxError (Ty Name) :=
  readItems 0 [] [] (TypeToken.scan 0 text.toList)

end Ty

end ProofKernel
