import ProofKernel.Proofs.Written

/-!
# Bracketed texts tell terms apart

The fully bracketed text of a term that was read is that of no other such term: leaves end before a
blank or a closing bracket, string literals at their own quote, and what a leaf is shown by says which
leaf it is.

* `Token.word_append_inj`: words in front of what does not continue them;
* `OperatorTable.Leaf.eq_leaf`: what a leaf is shown by is read as the leaf;
* `OperatorTable.Leaf.shown_append_inj`: leaves in front of what ends them;
* `Term.Written.dump_append_inj`: terms in front of what ends them;
* `Term.dump_key`: so terms that are read are the same if they have the same bracketed text.
-/

namespace ProofKernel

open ProofKernel.Token

/-! ## Words -/

/-- A word in front of what does not continue it can be told from what follows. -/
theorem Token.word_append_inj {w w' : String} {kind kind' : TokenKind} (h : kind? w = some kind)
    (h' : kind? w' = some kind') {rest rest' : List Char}
    (hrest : ∀ d ∈ rest.head?, continues kind d = false)
    (hrest' : ∀ d ∈ rest'.head?, continues kind' d = false)
    (heq : w.toList ++ rest = w'.toList ++ rest') : w = w' ∧ kind = kind' ∧ rest = rest' := by
  obtain ⟨c, cs, hw, -, hlex⟩ := kind?_eq_some.1 h
  obtain ⟨c', cs', hw', -, hlex'⟩ := kind?_eq_some.1 h'
  have hagain := lexeme_append hlex hrest
  have hagain' := lexeme_append hlex' hrest'
  rw [hw, hw', List.cons_append, List.cons_append] at heq
  obtain ⟨rfl, htail⟩ := List.cons.inj heq
  rw [htail, hagain'] at hagain
  simp only [Option.some.injEq, Prod.mk.injEq] at hagain
  obtain ⟨rfl, rfl, rfl⟩ := hagain
  exact ⟨String.toList_inj.1 (hw.trans hw'.symm), rfl, rfl⟩

/-- Digits with a minus sign are told apart from words that something ends. -/
theorem Token.word_append_ne {w digits : String} {kind : TokenKind} (h : kind? w = some kind)
    (hdigits : kind? digits = some .number) {rest : List Char} (hrest : Apart rest)
    (rest' : List Char) : w.toList ++ rest ≠ ("-" ++ digits).toList ++ rest' := by
  intro heq
  obtain ⟨d, ds, htext, hd, -⟩ := number_characters hdigits
  have hstop : ∀ c ∈ (digits.toList ++ rest').head?, continues .symbol c = false := by
    rw [htext]
    rintro c ⟨⟩
    simp [continues, isSymbolic, hd]
  have hminus : kind? "-" = some .symbol := by decide
  rw [String.toList_append, List.append_assoc] at heq
  obtain ⟨-, -, rfl⟩ := word_append_inj h hminus (hrest.not_continues kind) hstop heq
  rw [htext] at hrest
  rcases hrest d rfl with rfl | rfl | rfl <;> cases hd

/-! ## Leaves -/

namespace OperatorTable

variable {T : OperatorTable} {a b : Atom Unit} (hT : T.Legible)

include hT

/-- What a leaf is shown by: a word that is no bracket, or digits with a minus sign. -/
theorem Leaf.shown_cases (h : T.Leaf a) :
    (∃ kind, kind? a.shown = some kind ∧ kind ≠ .opening) ∨
    ∃ digits, kind? digits = some .number ∧ a.shown = "-" ++ digits := by
  cases h with
  | word hword =>
    rcases hword with ⟨hkind, -⟩ | hkind | hkind <;> exact .inl ⟨_, hkind, by decide⟩
  | numeral hkind => exact .inr ⟨_, hkind, rfl⟩
  | @operator text a hkind ha =>
    cases hget : T.get? text with
    | none =>
      rw [leaf_unlisted hget] at ha
      cases ha
      rcases hkind with ⟨hkind, -⟩ | hkind <;> exact .inl ⟨_, hkind, by decide⟩
    | some op =>
      rw [leaf_listed hT hget] at ha
      cases ha
      rw [shown_aliased]
      rcases hT.kind _ _ (hT.symbol text op hget) with hkind | hkind <;>
        exact .inl ⟨_, hkind, by decide⟩

/-- **What a leaf is shown by is read as the leaf.** -/
theorem Leaf.eq_leaf (h : T.Leaf a) : T.leaf a.shown = .var a := by
  cases h with
  | word hword => exact leaf_unlisted (hT.get?_word hword)
  | numeral hkind => exact leaf_unlisted (hT.get?_numeral hkind)
  | @operator text a hkind ha =>
    cases hget : T.get? text with
    | none =>
      rw [leaf_unlisted hget] at ha
      cases ha
      exact leaf_unlisted hget
    | some op =>
      rw [leaf_listed hT hget] at ha
      cases ha
      rw [shown_aliased]
      exact leaf_listed hT (hT.symbol text op hget)

/-- **Leaves in front of what ends them are told apart**, from each other and from what follows. -/
theorem Leaf.shown_append_inj (ha : T.Leaf a) (hb : T.Leaf b) {rest rest' : List Char}
    (hrest : Apart rest) (hrest' : Apart rest')
    (heq : a.shown.toList ++ rest = b.shown.toList ++ rest') : a = b ∧ rest = rest' := by
  have hshown : a.shown = b.shown ∧ rest = rest' := by
    -- Negative numerals are apart from the other leaves: their texts are two tokens.
    rcases ha.shown_cases hT with ⟨kind, hkind, -⟩ | ⟨digits, hdigits, hshown⟩ <;>
      rcases hb.shown_cases hT with ⟨kind', hkind', -⟩ | ⟨digits', hdigits', hshown'⟩
    · obtain ⟨hw, -, hrests⟩ := word_append_inj hkind hkind' (hrest.not_continues kind)
        (hrest'.not_continues kind') heq
      exact ⟨hw, hrests⟩
    · rw [hshown'] at heq
      exact absurd heq (word_append_ne hkind hdigits' hrest rest')
    · rw [hshown] at heq
      exact absurd heq.symm (word_append_ne hkind' hdigits hrest' rest)
    · rw [hshown, hshown', String.toList_append, String.toList_append, List.append_assoc,
        List.append_assoc] at heq
      obtain ⟨hw, -, hrests⟩ := word_append_inj hdigits hdigits' (hrest.not_continues .number)
        (hrest'.not_continues .number) (List.append_cancel_left heq)
      exact ⟨by rw [hshown, hshown', hw], hrests⟩
  refine ⟨?_, hshown.2⟩
  have hleaf : Term.var a = Term.var b := by
    rw [← ha.eq_leaf hT, ← hb.eq_leaf hT, hshown.1]
  exact Term.var.inj hleaf

/-- A leaf is not shown as something in brackets. -/
theorem Leaf.shown_ne_bracket (ha : T.Leaf a) {c : Char} (hc : isOpening c = true)
    (rest rest' : List Char) : a.shown.toList ++ rest ≠ c :: rest' := by
  intro heq
  rcases ha.shown_cases hT with ⟨kind, hkind, hopening⟩ | ⟨digits, -, hshown⟩
  · obtain ⟨d, ds, htext, -, hlex⟩ := kind?_eq_some.1 hkind
    rw [htext] at heq
    cases heq
    rw [lexeme, if_pos hc] at hlex
    cases hlex
    exact hopening rfl
  · rw [hshown, String.toList_append] at heq
    cases heq
    exact absurd hc (by decide)

end OperatorTable

/-! ## Terms -/

namespace Term

theorem dump_app (f x : PlainTerm) (rest : List Char) : (app () f x).dump.toList ++ rest =
    '(' :: (f.dump.toList ++ ' ' :: (x.dump.toList ++ ')' :: rest)) := by
  simp [dump]

theorem dump_abs (b : Atom Unit) (body : PlainTerm) (rest : List Char) :
    (abs () b body).dump.toList ++ rest =
      '\x7b' :: (b.shown.toList ++ '.' :: ' ' :: (body.dump.toList ++ '\x7d' :: rest)) := by
  simp [dump]

/-- **Terms in front of what ends them are told apart**, from each other and from what follows, by
induction on the term. -/
theorem Written.dump_append_inj {T : OperatorTable} (hT : T.Legible) {m n : PlainTerm}
    (hm : m.Written T) (hn : n.Written T) {rest rest' : List Char} (hrest : Apart rest)
    (hrest' : Apart rest') (heq : m.dump.toList ++ rest = n.dump.toList ++ rest') :
    m = n ∧ rest = rest' := by
  induction m generalizing n rest rest' with
  | var a =>
    cases n with
    | var b =>
      obtain ⟨rfl, hrests⟩ := OperatorTable.Leaf.shown_append_inj hT hm hn hrest hrest' heq
      exact ⟨rfl, hrests⟩
    | app tag g y =>
      rw [dump_app] at heq
      exact absurd heq (OperatorTable.Leaf.shown_ne_bracket hT hm (by decide) _ _)
    | abs tag b body =>
      rw [dump_abs] at heq
      exact absurd heq (OperatorTable.Leaf.shown_ne_bracket hT hm (by decide) _ _)
  | app tag f x ihf ihx =>
    rw [dump_app] at heq
    cases n with
    | var b =>
      exact absurd heq.symm (OperatorTable.Leaf.shown_ne_bracket hT hn (by decide) _ _)
    | app tag' g y =>
      rw [dump_app] at heq
      obtain ⟨rfl, hargument⟩ := ihf hm.1 hn.1 (apart_blank _) (apart_blank _) (List.cons.inj heq).2
      obtain ⟨rfl, hrests⟩ := ihx hm.2 hn.2 (apart_parenthesis _) (apart_parenthesis _)
        (List.cons.inj hargument).2
      exact ⟨rfl, (List.cons.inj hrests).2⟩
    | abs tag' b body =>
      rw [dump_abs] at heq
      exact absurd (List.cons.inj heq).1 (by decide)
  | abs tag b body ih =>
    rw [dump_abs] at heq
    cases n with
    | var c =>
      exact absurd heq.symm (OperatorTable.Leaf.shown_ne_bracket hT hn (by decide) _ _)
    | app tag' g y =>
      rw [dump_app] at heq
      exact absurd (List.cons.inj heq).1 (by decide)
    | abs tag' c body' =>
      rw [dump_abs] at heq
      obtain ⟨⟨hb, hident, -⟩, hbody⟩ := hm
      obtain ⟨⟨hc, hident', -⟩, hbody'⟩ := hn
      rw [hb, hc] at heq ⊢
      -- What is bound is an identifier, which ends at the dot.
      have hdot : ∀ cs : List Char, ∀ d ∈ ('.' :: cs).head?, continues .ident d = false := by
        rintro cs d ⟨⟩
        decide
      obtain ⟨hname, -, hrests⟩ := word_append_inj hident hident' (hdot _) (hdot _)
        (List.cons.inj heq).2
      obtain ⟨rfl, hbrace⟩ := ih hbody hbody' (apart_brace _) (apart_brace _)
        (List.cons.inj (List.cons.inj hrests).2).2
      exact ⟨by rw [hname], (List.cons.inj hbrace).2⟩

/-- **The bracketed text is a key.** Terms that are read of any texts, under any limits, with the
standard operators are equal if they have the same bracketed text; their names are then also shown
alike. -/
theorem dump_key {limit limit' : Nat} {text text' : String} {m n : PlainTerm}
    (hm : parse .standard limit text = .ok m) (hn : parse .standard limit' text' = .ok n)
    (h : m.dump = n.dump) : m.equal n = true ∧ m = n := by
  have hT := OperatorTable.legible_standard
  obtain ⟨rfl, -⟩ := (written_of_parse hT hm).dump_append_inj hT (written_of_parse hT hn) apart_nil
    apart_nil (congrArg (·.toList ++ []) h)
  exact ⟨beq_self_eq_true _, rfl⟩

/-- Two texts of a term with a string literal that holds brackets, an operator that is shown by another
name, one under both of its spellings, a numeral with a minus sign and an abstraction. -/
theorem dump_key_literal :
    let text := "\"(f x) \x7b\" == -5 ⇒ \x7bx. (x +)\x7d"
    let text' := "(\"(f x) \x7b\" == ((-5) --> \x7bx . ((+) (x))\x7d))"
    ∃ m n : PlainTerm, parse .standard 9 text = .ok m ∧ parse .standard 12 text' = .ok n ∧
      m.dump = "((== \"(f x) \x7b\") ((--> -5) \x7bx. (+ x)\x7d))" ∧ m.dump = n.dump ∧
      m.equal n = true ∧ m = n := by
  intro text text'
  let m : PlainTerm := callBetween (named "\"(f x) \x7b\"") (aliased "=" "==")
    (callBetween (named "-5") (named "-->") (lambda "x" (call (named "+") (named "x"))))
  have hm : parse .standard 9 text = .ok m := by decide +kernel
  have hn : parse .standard 12 text' = .ok m := by decide +kernel
  exact ⟨m, m, hm, hn, by decide +kernel, rfl, dump_key hm hn rfl⟩

end Term

end ProofKernel
