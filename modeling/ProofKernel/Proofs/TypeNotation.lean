import Mathlib.Data.List.Basic
import ProofKernel.Proofs.Literals
import ProofKernel.SimpleType.Cells

/-!
# The grammar of the compact form of types

A text is read by looking at one character after the other, with a stack for the open brackets. It has
a type exactly if a grammar has it: a text is a row of items, blanks may stand between them, and an
item is `i`, `o`, a variable, or a row in brackets that is not empty.

* `Ty.row`: the type of the functions that a row of types stands for;
* `TypeRow`: the grammar, over the characters that are a variable on their own;
* `Completes`: what is still to be read when some brackets are open;
* `Ty.readItems_sound`, `TypeRow.readsTo`: tokens are read as the grammar has it, and the grammar
  is all of what is read;
* `TypeRow.capitals_iff`: texts whose variables on their own are capital letters;
* `Ty.read_grammar`: the texts that have a type, and which one, with new variables for its variables.
-/

namespace ProofKernel

open Token (isBlank_eq_false isDigit_range)

/-! ## Rows -/

/-- The type of functions that take arguments of the types of a row but its last one, which is the
type of the result. -/
def Ty.row {α : Type} (first : Ty α) : List (Ty α) → Ty α
  | [] => first
  | second :: rest => .fn first (Ty.row second rest)

/-- **The grammar of the compact form**: the rows of types that texts stand for. A numbered variable
is `t` with digits after it, and `single` are the characters that are a variable on their own. -/
inductive TypeRow (single : Char → Prop) : List Char → List (Ty Name) → Prop
  | nil : TypeRow single [] []
  | blank {c : Char} {cs : List Char} {items : List (Ty Name)} (hc : Text.isBlank c = true)
      (h : TypeRow single cs items) : TypeRow single (c :: cs) items
  | individual {cs : List Char} {items : List (Ty Name)} (h : TypeRow single cs items) :
      TypeRow single ('i' :: cs) (.individual :: items)
  | truth {cs : List Char} {items : List (Ty Name)} (h : TypeRow single cs items) :
      TypeRow single ('o' :: cs) (.truth :: items)
  | letter {c : Char} {cs : List Char} {items : List (Ty Name)} (hc : single c)
      (h : TypeRow single cs items) : TypeRow single (c :: cs) (.var (.ofList [c]) :: items)
  | numbered {digits cs : List Char} {items : List (Ty Name)} (hne : digits ≠ [])
      (hdigits : ∀ d ∈ digits, d.isDigit = true) (h : TypeRow single cs items) :
      TypeRow single ('t' :: digits ++ cs) (.var (.ofList ('t' :: digits)) :: items)
  | group {inner cs : List Char} {first : Ty Name} {rest items : List (Ty Name)}
      (hinner : TypeRow single inner (first :: rest)) (h : TypeRow single cs items) :
      TypeRow single ('(' :: inner ++ ')' :: cs) (Ty.row first rest :: items)

/-- Characters of more than one byte that are not blank. -/
def isWide (c : Char) : Bool := 1 < c.utf8Size && !Text.isBlank c

/-- The characters that are read as a variable on their own: capital letters, and all that are
longer than one byte. -/
def isTypeLetter (c : Char) : Bool := c.isUpper || isWide c

namespace Ty

variable {α : Type}

/-- Types taken from the right, one after the other, make the type of their row. -/
theorem arrows_row {doms rest : List (Ty α)} {last first : Ty α} (more : List (Ty α))
    (h : doms.reverse ++ last :: more = first :: rest) :
    arrows (row last more) doms = row first rest := by
  induction doms generalizing last more with
  | nil =>
    cases h
    rfl
  | cons dom doms ih => exact ih (last :: more) (by simpa using h)

/-- The row of the items read, the last one first. -/
theorem exists_arrows_row (result : Ty α) (doms : List (Ty α)) :
    ∃ first rest, (result :: doms).reverse = first :: rest ∧
      arrows result doms = row first rest := by
  obtain ⟨first, rest, hrow⟩ := List.exists_cons_of_ne_nil
    (List.reverse_ne_nil_iff.2 (List.cons_ne_nil result doms))
  exact ⟨first, rest, hrow, arrows_row [] (by rw [← hrow, List.reverse_cons])⟩

/-- The items read of a row, the last one first. -/
theorem exists_row_arrows (first : Ty α) (rest : List (Ty α)) :
    ∃ result doms, (first :: rest).reverse = result :: doms ∧
      arrows result doms = row first rest := by
  obtain ⟨result, doms, hdoms⟩ := List.exists_cons_of_ne_nil
    (List.reverse_ne_nil_iff.2 (List.cons_ne_nil first rest))
  obtain ⟨first', rest', hreverse, harrows⟩ := exists_arrows_row result doms
  rw [← hdoms, List.reverse_reverse] at hreverse
  cases hreverse
  exact ⟨result, doms, hdoms, harrows⟩

end Ty

/-! ## Characters and tokens -/

/-- Whether a text begins with a digit. -/
def startsWithDigit (cs : List Char) : Bool := (cs.head?.map Char.isDigit).getD false

theorem takeWhile_digits {digits cs : List Char} (hdigits : ∀ d ∈ digits, d.isDigit = true)
    (hcs : startsWithDigit cs = false) : (digits ++ cs).takeWhile Char.isDigit = digits := by
  rw [List.takeWhile_append_of_pos hdigits]
  cases cs with
  | nil => simp
  | cons c cs => simpa [startsWithDigit] using hcs

theorem isUpper_range {c : Char} (h : c.isUpper = true) : 65 ≤ c.toNat ∧ c.toNat ≤ 90 := by
  have hupper : c.isUpper = decide ('A'.val ≤ c.val ∧ c.val ≤ 'Z'.val) := rfl
  rw [hupper, decide_eq_true_eq, UInt32.le_iff_toNat_le, UInt32.le_iff_toNat_le] at h
  exact h

theorem utf8Size_eq_one {c : Char} (h : c.toNat ≤ 127) : c.utf8Size = 1 :=
  Char.utf8Size_eq_one_iff.2 (UInt32.le_iff_toNat_le.2 h)

theorem isWide_eq_false {c : Char} (h : c.toNat ≤ 127) : isWide c = false := by
  rw [isWide, utf8Size_eq_one h]
  rfl

theorem isBlank_of_isTypeLetter {c : Char} (h : isTypeLetter c = true) :
    Text.isBlank c = false := by
  rw [isTypeLetter, isWide, Bool.or_eq_true, Bool.and_eq_true, Bool.not_eq_true'] at h
  refine h.elim (fun hupper => ?_) And.right
  have hrange := isUpper_range hupper
  exact isBlank_eq_false ⟨by omega, by omega⟩

theorem isDigit_of_isTypeLetter {c : Char} (h : isTypeLetter c = true) : c.isDigit = false := by
  by_contra hdigit
  have hrange := isDigit_range (by simpa using hdigit)
  rw [isTypeLetter, isWide, Bool.or_eq_true, Bool.and_eq_true, decide_eq_true_eq] at h
  rcases h with hupper | ⟨hwide, -⟩
  · have := isUpper_range hupper
    omega
  · have := utf8Size_eq_one (c := c) (by omega)
    omega

theorem isDigit_of_isBlank {c : Char} (h : Text.isBlank c = true) : c.isDigit = false := by
  by_contra hdigit
  have hrange := isDigit_range (by simpa using hdigit)
  simp only [Text.isBlank, Bool.or_eq_true, Bool.and_eq_true, decide_eq_true_eq, beq_iff_eq] at h
  omega

namespace TypeToken

theorem scan_blank {c : Char} (hc : Text.isBlank c = true) (offset : Nat) (cs : List Char) :
    scan offset (c :: cs) = scan (offset + c.utf8Size) cs := by
  rw [scan, if_pos hc]

/-- Characters that are a token on their own. -/
theorem scan_single {c : Char} (hc : Text.isBlank c = false) (ht : c ≠ 't') (offset : Nat)
    (cs : List Char) :
    scan offset (c :: cs) = ⟨offset, [c]⟩ :: scan (TypeToken.stop ⟨offset, [c]⟩) cs := by
  rw [scan, if_neg (by simp [hc])]
  simp [ht]

/-- A `t` takes all digits after it. -/
theorem scan_numbered {digits cs : List Char} (hdigits : ∀ d ∈ digits, d.isDigit = true)
    (hcs : startsWithDigit cs = false) (offset : Nat) :
    scan offset ('t' :: digits ++ cs) =
      ⟨offset, 't' :: digits⟩ :: scan (TypeToken.stop ⟨offset, 't' :: digits⟩) cs := by
  rw [List.cons_append, scan, if_neg (by decide)]
  simp [takeWhile_digits hdigits hcs]

theorem item?_of_isTypeLetter {c : Char} (h : isTypeLetter c = true) (offset : Nat) :
    item? ⟨offset, [c]⟩ = some (.var (.ofList [c])) := by
  have hsize : 1 < Text.byteSize [c] ∨ [c].all Char.isUpper = true := by
    rw [isTypeLetter, isWide, Bool.or_eq_true, Bool.and_eq_true, decide_eq_true_eq] at h
    exact h.symm.imp And.left (fun hupper => by simp [hupper])
  unfold item?
  split
  next heq =>
    cases heq
    exact absurd h (by decide)
  next heq =>
    cases heq
    exact absurd h (by decide)
  next => exact if_pos hsize

theorem item?_numbered {digits : List Char} (hne : digits ≠ []) (offset : Nat) :
    item? ⟨offset, 't' :: digits⟩ = some (.var (.ofList ('t' :: digits))) := by
  obtain ⟨d, ds, rfl⟩ := List.exists_cons_of_ne_nil hne
  refine if_pos (.inl ?_)
  have := d.utf8Size_pos
  show 1 < 1 + (d.utf8Size + Text.byteSize ds)
  omega

/-- Tokens with a type, other than the two names of types: letters, and numbered variables. -/
theorem item?_single {c : Char} {offset : Nat} {item : Ty Name} (hblank : Text.isBlank c = false)
    (h : item? ⟨offset, [c]⟩ = some item) :
    (c = 'i' ∧ item = .individual) ∨ (c = 'o' ∧ item = .truth) ∨
      (isTypeLetter c = true ∧ item = .var (.ofList [c])) := by
  unfold item? at h
  split at h
  next heq =>
    cases heq
    exact .inl ⟨rfl, (Option.some.inj h).symm⟩
  next heq =>
    cases heq
    exact .inr (.inl ⟨rfl, (Option.some.inj h).symm⟩)
  next =>
    split at h
    next hcond =>
      refine .inr (.inr ⟨?_, (Option.some.inj h).symm⟩)
      rw [isTypeLetter, isWide, hblank]
      simpa [Text.byteSize, or_comm] using hcond
    next => cases h

end TypeToken

/-! ## Reading what the grammar has -/

/-- What comes after the rows of the grammar is no digit, unless they are empty. -/
theorem TypeRow.startsWithDigit {cs tail : List Char} {items : List (Ty Name)}
    (h : TypeRow (isTypeLetter · = true) cs items) (htail : startsWithDigit tail = false) :
    startsWithDigit (cs ++ tail) = false := by
  cases h with
  | nil => exact htail
  | blank hc => exact isDigit_of_isBlank hc
  | individual | truth | numbered | group => rfl
  | letter hc => exact isDigit_of_isTypeLetter hc

namespace Ty

/-- A token with a type goes to the items of the innermost open row. -/
theorem readItems_item {t : TypeToken} {item : Ty Name} (h : t.item? = some item) (last : Nat)
    (items : List (Ty Name)) (outer : List (Nat × List (Ty Name))) (ts : List TypeToken) :
    readItems last items outer (t :: ts) = readItems t.stop (item :: items) outer ts := by
  have hne : t.text ≠ ['('] ∧ t.text ≠ [')'] := by
    constructor <;> intro htext <;> rw [TypeToken.item?, htext] at h <;> cases h
  rw [readItems.eq_def]
  simp only [if_neg hne.1, if_neg hne.2, h]

/-- **A text is read as a row of types, up to its tail**: they go to the items of the innermost open
row, whatever was read before. -/
def ReadsTo (text : List Char) (row : List (Ty Name)) (tail : List Char) : Prop :=
  ∀ (last offset : Nat) (items : List (Ty Name)) (outer : List (Nat × List (Ty Name))),
    ∃ last' offset', readItems last items outer (TypeToken.scan offset text) =
      readItems last' (row.reverse ++ items) outer (TypeToken.scan offset' tail)

variable {text tail cs : List Char} {row : List (Ty Name)}

/-- One more item, of one token, in front. -/
theorem ReadsTo.item (h : ReadsTo cs row tail) {item : Ty Name} {token : List Char}
    (hitem : ∀ offset, TypeToken.item? ⟨offset, token⟩ = some item)
    (hscan : ∀ offset, TypeToken.scan offset text =
      ⟨offset, token⟩ :: TypeToken.scan (TypeToken.stop ⟨offset, token⟩) cs) :
    ReadsTo text (item :: row) tail := by
  intro last offset items outer
  obtain ⟨last', offset', heq⟩ := h (TypeToken.stop ⟨offset, token⟩)
    (TypeToken.stop ⟨offset, token⟩) (item :: items) outer
  refine ⟨last', offset', ?_⟩
  rw [hscan, readItems_item (hitem offset), heq]
  simp

/-- A row in brackets that is not empty, in front. -/
theorem ReadsTo.group {inner : List Char} {first : Ty Name} {rest : List (Ty Name)}
    (hinner : ReadsTo (inner ++ ')' :: cs) (first :: rest) (')' :: cs)) (h : ReadsTo cs row tail) :
    ReadsTo ('(' :: inner ++ ')' :: cs) (Ty.row first rest :: row) tail := by
  intro last offset items outer
  obtain ⟨last', offset', heq⟩ := hinner (TypeToken.stop ⟨offset, ['(']⟩)
    (TypeToken.stop ⟨offset, ['(']⟩) [] ((offset, items) :: outer)
  obtain ⟨result, doms, hdoms, hrow⟩ := exists_row_arrows first rest
  obtain ⟨last'', offset'', heq'⟩ := h (TypeToken.stop ⟨offset', [')']⟩)
    (TypeToken.stop ⟨offset', [')']⟩) (Ty.row first rest :: items) outer
  refine ⟨last'', offset'', ?_⟩
  calc readItems last items outer (TypeToken.scan offset ('(' :: inner ++ ')' :: cs))
      = readItems (TypeToken.stop ⟨offset, ['(']⟩) [] ((offset, items) :: outer)
          (TypeToken.scan (TypeToken.stop ⟨offset, ['(']⟩) (inner ++ ')' :: cs)) := by
        rw [List.cons_append, TypeToken.scan_single (by decide) (by decide), readItems.eq_def]
        simp only [if_pos]
    _ = readItems last' (result :: doms) ((offset, items) :: outer)
          (TypeToken.scan offset' (')' :: cs)) := by
        rw [heq, hdoms, List.append_nil]
    _ = readItems (TypeToken.stop ⟨offset', [')']⟩) (Ty.row first rest :: items) outer
          (TypeToken.scan (TypeToken.stop ⟨offset', [')']⟩) cs) := by
        rw [TypeToken.scan_single (by decide) (by decide), readItems.eq_def]
        simp [hrow]
    _ = _ := by
        rw [heq']
        simp

end Ty

/-- **A row of the grammar is read**, by induction on the grammar. -/
theorem TypeRow.readsTo {cs tail : List Char} {row : List (Ty Name)}
    (h : TypeRow (isTypeLetter · = true) cs row)
    (htail : ProofKernel.startsWithDigit tail = false) : Ty.ReadsTo (cs ++ tail) row tail := by
  induction h generalizing tail with
  | nil => exact fun last offset items outer => ⟨last, offset, rfl⟩
  | blank hc _ ih =>
    intro last offset items outer
    rw [List.cons_append, TypeToken.scan_blank hc]
    exact ih htail _ _ _ _
  | individual _ ih =>
    exact (ih htail).item (fun _ => rfl) fun _ => TypeToken.scan_single (by decide) (by decide) _ _
  | truth _ ih =>
    exact (ih htail).item (fun _ => rfl) fun _ => TypeToken.scan_single (by decide) (by decide) _ _
  | letter hc _ ih =>
    refine (ih htail).item (TypeToken.item?_of_isTypeLetter hc) fun _ =>
      TypeToken.scan_single (isBlank_of_isTypeLetter hc) ?_ _ _
    rintro rfl
    exact absurd hc (by decide)
  | numbered hne hdigits h ih =>
    refine (ih htail).item (TypeToken.item?_numbered hne) fun _ => ?_
    rw [List.append_assoc]
    exact TypeToken.scan_numbered hdigits (h.startsWithDigit htail) _
  | group _ _ ihinner ih =>
    rw [List.append_assoc]
    exact .group (ihinner rfl) (ih htail)

/-! ## The grammar has what is read -/

/-- **What is still to be read**, when the types that were read since the last open bracket are given,
the last one first, and those before each open bracket: the rest of the innermost row, and all that
follows it. -/
inductive Completes : List (Ty Name) → List (List (Ty Name)) → List Char → Ty Name → Prop
  | last {items more : List (Ty Name)} {cs : List Char} {first : Ty Name} {rest : List (Ty Name)}
      (hrow : TypeRow (isTypeLetter · = true) cs more)
      (hitems : items.reverse ++ more = first :: rest) : Completes items [] cs (Ty.row first rest)
  | close {items more before : List (Ty Name)} {outer : List (List (Ty Name))}
      {inner cs : List Char} {first T : Ty Name} {rest : List (Ty Name)}
      (hrow : TypeRow (isTypeLetter · = true) inner more)
      (hitems : items.reverse ++ more = first :: rest)
      (h : Completes (Ty.row first rest :: before) outer cs T) :
      Completes items (before :: outer) (inner ++ ')' :: cs) T

namespace Completes

variable {items : List (Ty Name)} {outer : List (List (Ty Name))} {cs : List Char} {T : Ty Name}

/-- Text in front of a row, and the types that it stands for. -/
theorem prepend (text : List Char) (row : List (Ty Name))
    (htext : ∀ {cs more}, TypeRow (isTypeLetter · = true) cs more →
      TypeRow (isTypeLetter · = true) (text ++ cs) (row ++ more))
    (h : Completes (row.reverse ++ items) outer cs T) : Completes items outer (text ++ cs) T := by
  cases h with
  | last hrow hitems => exact .last (htext hrow) (by simpa using hitems)
  | close hrow hitems h =>
    rw [← List.append_assoc]
    exact .close (htext hrow) (by simpa using hitems) h

/-- An open bracket. -/
theorem opened (h : Completes [] (items :: outer) cs T) : Completes items outer ('(' :: cs) T := by
  cases h with
  | @close _ _ _ _ inner cs first _ rest hrow hitems h =>
    cases hitems
    have hgroup : Completes items outer (('(' :: inner ++ [')']) ++ cs) T :=
      prepend ('(' :: inner ++ [')']) [Ty.row first rest]
        (fun h => by simpa using TypeRow.group hrow h) h
    simpa using hgroup

/-- A closing bracket. -/
theorem closed {result : Ty Name} {doms before : List (Ty Name)}
    (h : Completes (Ty.arrows result doms :: before) outer cs T) :
    Completes (result :: doms) (before :: outer) (')' :: cs) T := by
  obtain ⟨first, rest, hreverse, hrow⟩ := Ty.exists_arrows_row result doms
  rw [hrow] at h
  exact .close .nil (by rw [List.append_nil, hreverse]) h

end Completes

namespace Ty

/-- How reading goes on after a token, if it ends with a type. -/
theorem readItems_cases {last : Nat} {items : List (Ty Name)} {outer : List (Nat × List (Ty Name))}
    {t : TypeToken} {ts : List TypeToken} {T : Ty Name}
    (h : readItems last items outer (t :: ts) = .ok T) :
    (t.text = ['('] ∧ readItems t.stop [] ((t.offset, items) :: outer) ts = .ok T) ∨
    (t.text = [')'] ∧ ∃ result doms opening before outer', items = result :: doms ∧
      outer = (opening, before) :: outer' ∧
      readItems t.stop (arrows result doms :: before) outer' ts = .ok T) ∨
    ∃ item, t.item? = some item ∧ readItems t.stop (item :: items) outer ts = .ok T := by
  rw [readItems.eq_def] at h
  simp only at h
  split at h
  next hopen => exact .inl ⟨hopen, h⟩
  next =>
    split at h
    next hclose =>
      split at h
      next => cases h
      next result doms opening before outer =>
        exact .inr (.inl ⟨hclose, _, _, _, _, _, rfl, rfl, h⟩)
      next => cases h
    next =>
      split at h
      next item hitem => exact .inr (.inr ⟨item, hitem, h⟩)
      next => cases h

/-- **What is read is in the grammar**, by induction on the characters. -/
theorem readItems_sound {offset : Nat} {cs : List Char} {last : Nat} {items : List (Ty Name)}
    {outer : List (Nat × List (Ty Name))} {T : Ty Name}
    (h : readItems last items outer (TypeToken.scan offset cs) = .ok T) :
    Completes items (outer.map Prod.snd) cs T := by
  induction offset, cs using TypeToken.scan.induct generalizing last items outer with
  | case1 offset =>
    rw [TypeToken.scan, readItems.eq_def] at h
    simp only at h
    split at h
    next => cases h
    next => cases h
    next result doms =>
      cases h
      obtain ⟨first, rest, hreverse, hrow⟩ := exists_arrows_row result doms
      rw [hrow]
      exact .last .nil (by rw [List.append_nil, hreverse])
  | case2 offset c cs hc ih =>
    rw [TypeToken.scan_blank hc] at h
    exact Completes.prepend [c] [] (fun h => .blank hc h) (ih h)
  | case3 offset c cs hc digits =>
    rename_i token ih
    have hblank : Text.isBlank c = false := by simpa using hc
    by_cases ht : c = 't'
    · subst ht
      have hdigits : digits = cs.takeWhile Char.isDigit := dif_pos rfl
      have hcs : cs = digits ++ cs.drop digits.length := by
        rw [hdigits]
        exact (List.prefix_iff_eq_append.1 (List.takeWhile_prefix _)).symm
      have hscan : TypeToken.scan offset ('t' :: cs) =
          token :: TypeToken.scan token.stop (cs.drop digits.length) := by
        rw [TypeToken.scan, if_neg hc, if_pos rfl, ← hdigits]
      rw [hscan] at h
      obtain ⟨hopen, -⟩ | ⟨hclose, -⟩ | ⟨item, hitem, h⟩ := readItems_cases h
      · cases hopen
      · cases hclose
      · have hne : digits ≠ [] := by
          intro hnil
          simp only [token, hnil] at hitem
          cases hitem
        rw [TypeToken.item?_numbered hne] at hitem
        cases hitem
        rw [hcs]
        refine Completes.prepend ('t' :: digits) [_] (fun h => .numbered hne ?_ h)
          (ih h)
        rw [hdigits]
        exact fun d hd => List.mem_takeWhile_imp hd
    · have hdigits : digits = [] := dif_neg ht
      simp only [token, hdigits, List.length_nil, List.drop_zero] at ih
      rw [TypeToken.scan_single hblank ht] at h
      obtain ⟨hopen, h⟩ | ⟨hclose, result, doms, opening, before, outer, rfl, rfl, h⟩ |
        ⟨item, hitem, h⟩ := readItems_cases h
      · cases hopen
        exact (ih h).opened
      · cases hclose
        exact (ih h).closed
      · obtain ⟨rfl, rfl⟩ | ⟨rfl, rfl⟩ | ⟨hletter, rfl⟩ := TypeToken.item?_single hblank hitem
        · exact Completes.prepend ['i'] [_] (fun h => .individual h) (ih h)
        · exact Completes.prepend ['o'] [_] (fun h => .truth h) (ih h)
        · exact Completes.prepend [c] [_] (fun h => .letter hletter h) (ih h)

/-- A text has a type exactly if it is a row of the grammar. -/
theorem read_eq_ok_iff {text : String} {T : Ty Name} :
    read text = .ok T ↔ ∃ first rest,
      TypeRow (isTypeLetter · = true) text.toList (first :: rest) ∧ T = row first rest := by
  constructor
  · intro h
    cases readItems_sound h with
    | @last _ more _ first rest hrow hitems =>
      rw [List.reverse_nil, List.nil_append] at hitems
      exact ⟨first, rest, hitems ▸ hrow, rfl⟩
  · rintro ⟨first, rest, hrow, rfl⟩
    have hreads : ReadsTo (text.toList ++ []) (first :: rest) [] := hrow.readsTo rfl
    obtain ⟨last, offset, heq⟩ := hreads 0 0 [] []
    obtain ⟨result, doms, hdoms, harrows⟩ := exists_row_arrows first rest
    rw [List.append_nil, List.append_nil, hdoms, TypeToken.scan] at heq
    calc read text = readItems last (result :: doms) [] [] := heq
      _ = .ok (arrows result doms) := by rw [readItems.eq_def]
      _ = .ok (row first rest) := congrArg Except.ok harrows

end Ty

/-- Rows of the grammar whose variables on their own are capital letters: those that have no other
character of more than one byte but blanks. -/
theorem TypeRow.capitals_iff {cs : List Char} {row : List (Ty Name)} :
    TypeRow (·.isUpper = true) cs row ↔
      TypeRow (isTypeLetter · = true) cs row ∧ ∀ c ∈ cs, isWide c = false := by
  constructor
  · intro h
    induction h with
    | nil => exact ⟨.nil, by simp⟩
    | blank hc _ ih => exact ⟨.blank hc ih.1, List.forall_mem_cons.2 ⟨by simp [isWide, hc], ih.2⟩⟩
    | individual _ ih => exact ⟨.individual ih.1, List.forall_mem_cons.2 ⟨by decide, ih.2⟩⟩
    | truth _ ih => exact ⟨.truth ih.1, List.forall_mem_cons.2 ⟨by decide, ih.2⟩⟩
    | letter hc _ ih =>
      have hrange := isUpper_range hc
      exact ⟨.letter (by rw [isTypeLetter, hc, Bool.true_or]) ih.1,
        List.forall_mem_cons.2 ⟨isWide_eq_false (by omega), ih.2⟩⟩
    | numbered hne hdigits _ ih =>
      refine ⟨.numbered hne hdigits ih.1, List.forall_mem_append.2
        ⟨List.forall_mem_cons.2 ⟨by decide, fun d hd => ?_⟩, ih.2⟩⟩
      have hrange := isDigit_range (hdigits d hd)
      exact isWide_eq_false (by omega)
    | group _ _ ihinner ih =>
      exact ⟨.group ihinner.1 ih.1, List.forall_mem_append.2
        ⟨List.forall_mem_cons.2 ⟨by decide, ihinner.2⟩, List.forall_mem_cons.2 ⟨by decide, ih.2⟩⟩⟩
  · rintro ⟨h, hcs⟩
    induction h with
    | nil => exact .nil
    | blank hc _ ih => exact .blank hc (ih (List.forall_mem_cons.1 hcs).2)
    | individual _ ih => exact .individual (ih (List.forall_mem_cons.1 hcs).2)
    | truth _ ih => exact .truth (ih (List.forall_mem_cons.1 hcs).2)
    | letter hc _ ih =>
      obtain ⟨hwide, hcs⟩ := List.forall_mem_cons.1 hcs
      rw [isTypeLetter, hwide, Bool.or_false] at hc
      exact .letter hc (ih hcs)
    | numbered hne hdigits _ ih =>
      exact .numbered hne hdigits (ih (List.forall_mem_append.1 hcs).2)
    | group _ _ ihinner ih =>
      obtain ⟨hinner, hcs⟩ := List.forall_mem_append.1 hcs
      exact .group (ihinner (List.forall_mem_cons.1 hinner).2) (ih (List.forall_mem_cons.1 hcs).2)

namespace Ty

/-- **The compact form of types.** A text has a type exactly if it is a row of items that is not empty,
with blanks anywhere between them, an item being `i`, `o`, a letter, `t` with digits after it, or such
a row in brackets; it is the type of functions from the first items to the last one. Letters are the
capital ones and all characters of more than one byte but blanks: without the latter, only capital
letters are variables on their own. Each variable of the type is its own text, and two of them become
the same type variable of a run, which is a new one, exactly if they have the same text. -/
theorem read_grammar (text : String) :
    (∀ T, read text = .ok T ↔ ∃ first rest,
      TypeRow (isTypeLetter · = true) text.toList (first :: rest) ∧ T = row first rest) ∧
    (∀ T, (read text = .ok T ∧ ∀ c ∈ text.toList, isWide c = false) ↔ ∃ first rest,
      TypeRow (·.isUpper = true) text.toList (first :: rest) ∧ T = row first rest) ∧
    ∀ s : Inference, ∃ number : Name → Nat,
      (Infer.parse text s).1 =
        ((read text).map fun T => T.bind fun x => .var (number x)).mapError .badType ∧
      ∀ T, read text = .ok T → ∀ x ∈ T.vars, s.next ≤ number x ∧
        number x < (Infer.parse text s).2.next ∧ ∀ y ∈ T.vars, number x = number y → x = y := by
  refine ⟨fun T => read_eq_ok_iff, fun T => ?_, fun s => ?_⟩
  · simp only [read_eq_ok_iff, TypeRow.capitals_iff]
    exact ⟨fun ⟨⟨first, rest, hrow, hT⟩, hcs⟩ => ⟨first, rest, ⟨hrow, hcs⟩, hT⟩,
      fun ⟨first, rest, ⟨hrow, hcs⟩, hT⟩ => ⟨⟨first, rest, hrow, hT⟩, hcs⟩⟩
  · unfold Infer.parse
    cases hread : read text with
    | error e => exact ⟨fun _ => 0, rfl, fun T hT => nomatch hT⟩
    | ok T =>
      refine ⟨fun x => s.next + T.vars.eraseDups.idxOf x, rfl, ?_⟩
      rintro T' ⟨⟩ x hx
      have hmem : x ∈ T.vars.eraseDups := List.mem_eraseDups.2 hx
      refine ⟨Nat.le_add_right _ _, Nat.add_lt_add_left (List.idxOf_lt_length_of_mem hmem) _,
        fun y hy heq => ?_⟩
      exact (List.idxOf_inj hmem).1 (Nat.add_left_cancel heq)

/-- Any character of two bytes is a variable. -/
example : read "é (É é)" = .ok (.fn (.var "é") (.fn (.var "É") (.var "é"))) := by cbv

end Ty

end ProofKernel
