import ProofKernel.Proofs.RoundTrip
import ProofKernel.Proofs.Tags

/-!
# Printing with more operators

Operators with any symbols may be added to the standard ones, and terms over the longer table are
still printed so that they are read back, with either of the two spellings of operators.

* `OperatorTable.Extended`: tables made of the standard one by adding symbols;
* `OperatorTable.Extended.legible`: their spellings are read as what they are shown for;
* `Term.Printable`: terms that are told apart from what reading would take them for;
* `Term.Printable.readsBackOn`: they are read as themselves;
* `Term.parse_print_extended`: so their texts are read back.
-/

namespace ProofKernel

open ProofKernel.Token

/-! ## Tables with more operators -/

namespace OperatorTable

variable {T T' : OperatorTable} {op op' : Operator}

/-- Tables made of the standard one by adding operators, each spelling of which is a symbol. -/
inductive Extended : OperatorTable → Prop
  | standard : Extended .standard
  | add {T T' : OperatorTable} {op : Operator} (h : Extended T)
      (hkeys : ∀ key ∈ op.keys, kind? key = some .symbol) (hadd : T.add op = .ok T') : Extended T'

theorem find?_spellings (keys : List String) (op : Operator) (key : String) :
    (keys.map fun k => (k, op)).find? (fun entry => entry.1 = key) =
      if key ∈ keys then some (key, op) else none := by
  induction keys with
  | nil => rfl
  | cons k keys ih =>
    rw [List.map_cons]
    by_cases hk : k = key
    · rw [List.find?_cons_of_pos (by simpa using hk), if_pos (by simp [hk]), hk]
    · have hkey : key ∈ k :: keys ↔ key ∈ keys := by simp [Ne.symm hk]
      rw [List.find?_cons_of_neg (by simpa using hk), ih]
      simp only [hkey]

section Add

variable (h : T.add op = .ok T')

include h

/-- An operator that a table takes has new spellings, and the power of one if it stands between its
operands. -/
theorem add_eq_ok : (∀ key ∈ op.keys, T.get? key = none) ∧
    (op.fixity = .between → isInfixPower op.prec = true) ∧
    T' = ⟨T.entries ++ op.keys.map fun key => (key, op)⟩ := by
  unfold add at h
  split at h
  next => cases h
  next hpower =>
    split at h
    next => cases h
    next hnew =>
      cases h
      exact ⟨by simpa using hnew, by simpa using hpower, rfl⟩

/-- The table with one more operator has the operator for its spellings, and is as before for all
others. -/
theorem get?_add (key : String) : T'.get? key = if key ∈ op.keys then some op else T.get? key := by
  obtain ⟨hnew, -, rfl⟩ := add_eq_ok h
  unfold get?
  rw [List.find?_append, find?_spellings]
  by_cases hkey : key ∈ op.keys
  · have hnone : T.entries.find? (fun entry => entry.1 = key) = none :=
      Option.map_eq_none_iff.1 (hnew key hkey)
    rw [if_pos hkey, if_pos hkey, hnone]
    rfl
  · rw [if_neg hkey, if_neg hkey, Option.or_none]

theorem get?_add_of_some {key : String} (hget : T.get? key = some op') : T'.get? key = some op' := by
  rw [get?_add h, if_neg, hget]
  intro hkey
  rw [(add_eq_ok h).1 key hkey] at hget
  cases hget

theorem get?_add_self {key : String} (hkey : key ∈ op.keys) : T'.get? key = some op := by
  rw [get?_add h, if_pos hkey]

/-- **A table stays legible** as it takes an operator whose spellings are symbols. -/
theorem Legible.add (hT : T.Legible) (hkeys : ∀ key ∈ op.keys, kind? key = some .symbol) :
    T'.Legible := by
  obtain ⟨-, hpower, -⟩ := add_eq_ok h
  -- an operator of the longer table is the new one, or was there before
  have hcases : ∀ {key : String} {op' : Operator}, T'.get? key = some op' →
      key ∈ op.keys ∧ op' = op ∨ T.get? key = some op' := by
    intro key op' hget
    rw [get?_add h] at hget
    split at hget
    next hkey => exact .inl ⟨hkey, (Option.some.inj hget).symm⟩
    next => exact .inr hget
  refine ⟨fun key op' hget => ?_, fun key op' hget => ?_, fun key op' text hget htext => ?_,
    fun key op' hget => ?_, fun key op' hget hfixity => ?_, get?_add_of_some h hT.minus,
    get?_add_of_some h hT.neg⟩
  all_goals rcases hcases hget with ⟨hkey, rfl⟩ | hget
  · exact .inr (hkeys key hkey)
  · exact hT.kind key op' hget
  · exact get?_add_self h List.mem_cons_self
  · exact get?_add_of_some h (hT.symbol key op' hget)
  · exact get?_add_self h (List.mem_cons_of_mem _ (by simp [htext]))
  · exact get?_add_of_some h (hT.unicode key op' text hget htext)
  · simpa [Operator.keys] using hkey
  · exact hT.spelled key op' hget
  · exact hpower hfixity
  · exact hT.power key op' hget hfixity

end Add

theorem Extended.legible (h : T.Extended) : T.Legible := by
  induction h with
  | standard => exact legible_standard
  | add _ hkeys hadd ih => exact Legible.add hadd ih hkeys

/-! ## Leaves -/

/-- Leaves that stand alone: identifiers that a table does not have, numerals, those with a minus
sign only if they are numbers of 64 bits below zero, and string literals. -/
inductive StandsAlone (T : OperatorTable) : Atom Unit → Prop
  | identifier {text : String} (hkind : kind? text = some .ident) (hget : T.get? text = none) :
      StandsAlone T (.plain text)
  | numeral {digits : String} (hkind : kind? digits = some .number) : StandsAlone T (.plain digits)
  | negative {digits : String} {n : Int} (hkind : kind? digits = some .number)
      (hvalue : Literal.ofName? ("-" ++ digits) = some (.int n)) (hn : n < 0) :
      StandsAlone T (.plain ("-" ++ digits))
  | quoted {text : String} (hkind : kind? text = some .quoted) : StandsAlone T (.plain text)

/-- Leaves that stand beside others: operators as a table reads them, under their symbols, and
symbols that it does not have. -/
inductive Operates (T : OperatorTable) : Atom Unit → Prop
  | operator {key : String} {op : Operator} (hget : T.get? key = some op) :
      Operates T (.aliased op.entity op.symbol)
  | symbol {text : String} (hkind : kind? text = some .symbol) (hget : T.get? text = none) :
      Operates T (.plain text)

/-- A term that is one leaf which stands beside others. -/
def IsOperation (T : OperatorTable) : PlainTerm → Prop
  | .var a => T.Operates a
  | _ => False

/-- An operator that stands before its operand. -/
def IsPrefix (T : OperatorTable) (m : PlainTerm) : Prop :=
  ∃ key op, T.get? key = some op ∧ op.fixity = .before ∧ m = .var (.aliased op.entity op.symbol)

section Leaves

variable {a : Atom Unit}

theorem StandsAlone.leaf (h : T.StandsAlone a) : T.Leaf a := by
  cases h with
  | identifier hkind hget => exact .word (.inl ⟨hkind, hget⟩)
  | numeral hkind => exact .word (.inr (.inl hkind))
  | negative hkind hvalue hn => exact .numeral hkind
  | quoted hkind => exact .word (.inr (.inr hkind))

variable (hT : T.Legible)

include hT

theorem Operates.leaf (h : T.Operates a) : T.Leaf a := by
  cases h with
  | @operator key op hget =>
    have hleaf := leaf_listed hT hget
    rcases hT.kind key op hget with hkind | hkind
    · exact .operator (.inl ⟨hkind, by simp [hget]⟩) hleaf
    · exact .operator (.inr hkind) hleaf
  | symbol hkind hget => exact .operator (.inr hkind) (leaf_unlisted hget)

/-- A leaf that stands alone is a name, or a numeral that gets brackets among arguments. -/
theorem StandsAlone.role (h : T.StandsAlone a) :
    T.role a = .name ∨ ∃ digits, T.role a = .numeral digits true := by
  cases h with
  | identifier hkind hget => exact .inl (role_word hT (.inl ⟨hkind, hget⟩))
  | numeral hkind => exact .inl (role_word hT (.inr (.inl hkind)))
  | @negative digits n hkind hvalue hn =>
    have hnegative : (Term.var (Atom.plain ("-" ++ digits))).isNegative = true := by
      simpa [Term.isNegative, Term.number?, Atom.literal?, Atom.plain, hvalue] using hn
    rw [role_numeral hT hkind, hnegative]
    exact .inr ⟨digits, rfl⟩
  | quoted hkind => exact .inl (role_word hT (.inr (.inr hkind)))

/-- A leaf that stands beside others is between its operands, or an operator before its operand. -/
theorem Operates.role (h : T.Operates a) :
    T.role a = .between ∨ T.role a = .before ∧ T.IsPrefix (.var a) := by
  cases h with
  | @operator key op hget =>
    rw [role_listed hT hget]
    cases hfixity : op.fixity with
    | between => exact .inl rfl
    | before => exact .inr ⟨rfl, key, op, hget, hfixity, rfl⟩
  | symbol hkind hget => exact .inl (role_symbol hkind hget)

theorem IsPrefix.role (h : T.IsPrefix (.var a)) : T.role a = .before := by
  obtain ⟨key, op, hget, hfixity, ha⟩ := h
  cases ha
  rw [role_listed hT hget, hfixity]

end Leaves

end OperatorTable

/-! ## Terms -/

/-- **Printable terms.** Their leaves stand alone or beside others, their binders are logic
variables, no body is one leaf that stands beside others, and no operator before its operand is
called on more than one argument. -/
def Term.Printable (T : OperatorTable) : PlainTerm → Prop
  | .var a => T.StandsAlone a ∨ T.Operates a
  | .app _ f x => f.Printable T ∧ x.Printable T ∧ (1 ≤ f.arity → ¬ T.IsPrefix f.head)
  | .abs _ b body => b.IsBinder ∧ ¬ T.IsOperation body ∧ body.Printable T

namespace Term.Printable

variable {T : OperatorTable} {m : PlainTerm}

theorem not_isPrefix_head (hm : m.Printable T) (harity : 2 ≤ m.arity) : ¬ T.IsPrefix m.head := by
  cases m with
  | var a => simp [arity] at harity
  | app tag f x => exact hm.2.2 (by simpa [arity] using harity)
  | abs tag b body => simp [arity] at harity

variable (hT : T.Legible)

include hT

theorem written (hm : m.Printable T) : m.Written T := by
  induction m with
  | var a => exact hm.elim (fun h => h.leaf) fun h => h.leaf hT
  | app tag f x ihf ihx => exact ⟨ihf hm.1, ihx hm.2.1⟩
  | abs tag b body ih => exact ⟨hm.1, ih hm.2.2⟩

theorem not_loose (hm : m.Printable T) : T.isLoose m = false := by
  cases m with
  | var a =>
    rcases hm with h | h
    · rcases h.role hT with hrole | ⟨digits, hrole⟩ <;> simp [OperatorTable.isLoose, hrole]
    · rcases h.role hT with hrole | ⟨hrole, -⟩ <;> simp [OperatorTable.isLoose, hrole]
  | app tag f x => rfl
  | abs tag b body => rfl

/-- Printable leaves are told apart from their arguments, if these are no loose ones and at most one
where the leaf is an operator before its operand. -/
theorem setsApart {a : Atom Unit} (ha : (Term.var a).Printable T) {xs : List PlainTerm}
    (hxs : ∀ x ∈ xs, T.isLoose x = false) (hhead : 2 ≤ xs.length → ¬ T.IsPrefix (.var a)) :
    T.setsApart a xs = true := by
  unfold OperatorTable.setsApart
  rcases ha with h | h
  · rcases h.role hT with hrole | ⟨digits, hrole⟩ <;> rw [hrole] <;>
      exact OperatorTable.all_not_loose.2 hxs
  · rcases h.role hT with hrole | ⟨hrole, hbefore⟩ <;> rw [hrole]
    · exact OperatorTable.all_not_loose.2 fun x hx => hxs x (List.mem_of_mem_drop hx)
    · have hlength : xs.length ≤ 1 := by
        by_contra hlong
        exact hhead (by omega) hbefore
      rcases xs with _ | ⟨x, _ | ⟨y, ys⟩⟩
      · rfl
      · rfl
      · simp at hlength

/-- **Printable terms are read as themselves**, by induction on the term. -/
theorem readsBackOn (hm : m.Printable T) {xs : List PlainTerm} (halone : xs = [] → ¬ T.IsOperation m)
    (hxs : ∀ x ∈ xs, T.isLoose x = false)
    (hhead : 2 ≤ m.arity + xs.length → ¬ T.IsPrefix m.head) : T.readsBackOn m xs = true := by
  induction m generalizing xs with
  | var a =>
    cases xs with
    | nil =>
      have ha : T.StandsAlone a := hm.resolve_right (halone rfl)
      rw [OperatorTable.readsBackOn, OperatorTable.isOperator_eq]
      rcases ha.role hT with hrole | ⟨digits, hrole⟩ <;> simp [hrole]
    | cons x xs => exact setsApart hT hm hxs (by simpa [arity, head] using hhead)
  | app tag f x ihf ihx =>
    refine Bool.and_eq_true_iff.2 ⟨?_, ?_⟩
    · -- a leaf is read as itself among arguments, and any other argument as a term of its own
      cases x with
      | var a => rfl
      | app tag g y =>
        exact ihx hm.2.1 (fun _ => id) (List.forall_mem_nil _) (hm.2.1.not_isPrefix_head)
      | abs tag b body =>
        exact ihx hm.2.1 (fun _ => id) (List.forall_mem_nil _) (hm.2.1.not_isPrefix_head)
    · refine ihf hm.1 (fun h => absurd h (List.cons_ne_nil _ _))
        (List.forall_mem_cons.2 ⟨hm.2.1.not_loose hT, hxs⟩) fun hlength => hhead ?_
      rw [List.length_cons] at hlength
      rw [arity]
      omega
  | abs tag b body ih =>
    refine Bool.and_eq_true_iff.2 ⟨?_, OperatorTable.all_not_loose.2 hxs⟩
    exact ih hm.2.2 (fun _ => hm.2.1) (List.forall_mem_nil _) hm.2.2.not_isPrefix_head

end Term.Printable

/-! ## Texts -/

/-- **Printable terms are read back, in both forms.** With a table made of the standard one by adding
symbols, and with either of the two spellings of operators, the text of a printable term that is no
lone operator is read as this very term, under every limit that is high enough. -/
theorem Term.parse_print_extended {ι : Type} {T : OperatorTable} (hT : T.Extended) {m : Term ι}
    (hm : m.plain.Printable T) (halone : ¬ T.IsOperation m.plain) (unicode : Bool) :
    ∃ least, ∀ limit ≥ least,
      parse T limit (Style.print ⟨T, unicode⟩ m) = .ok m.plain ∧ m.plain.equal m = true := by
  have hlegible := hT.legible
  have hwritten := hm.written hlegible
  have hback : T.readsBackOn m.plain [] = true :=
    hm.readsBackOn hlegible (fun _ => halone) (List.forall_mem_nil _) hm.not_isPrefix_head
  have hread := OperatorTable.reread_of_readsBackOn hwritten hback (List.forall_mem_nil _)
  obtain ⟨least, hleast⟩ := Style.parse_print unicode hlegible hwritten hread
  refine ⟨least, fun limit hlimit => ⟨?_, ?_⟩⟩
  · have hparse := hleast limit hlimit
    rwa [Style.print, Style.printApplied_plain] at hparse
  · rw [equal, beq_iff_eq, bare_plain]

/-- Two operators more, one before its operand that stands for the minus sign: the two texts of a
term with both of them. -/
theorem Term.parse_print_extended_twice :
    let plus : Operator := ⟨"<+>", .between, 35, "plus", some "⊕"⟩
    let tilde : Operator := ⟨"~", .before, 20, "-", some "∼"⟩
    let T₁ : OperatorTable := ⟨OperatorTable.standard.entries ++ [("<+>", plus), ("⊕", plus)]⟩
    let T : OperatorTable := ⟨T₁.entries ++ [("~", tilde), ("∼", tilde)]⟩
    let m : PlainTerm := lambda "x" (callBetween (call (aliased "-" "~") (named "x"))
      (aliased "plus" "<+>") (named "-5"))
    T.Extended ∧
      (∃ least, ∀ limit ≥ least, parse T limit "\x7bx. ((~ x) <+> -5)\x7d" = .ok m) ∧
      ∃ least, ∀ limit ≥ least, parse T limit "\x7bx. ((∼ x) ⊕ -5)\x7d" = .ok m := by
  intro plus tilde T₁ T m
  have hplus : OperatorTable.standard.add plus = .ok T₁ := by decide
  have htilde : T₁.add tilde = .ok T := by decide
  have hT : T.Extended := .add (.add .standard (by decide) hplus) (by decide) htilde
  have hx : (named "x").Printable T := .inl (.identifier (by decide) (by decide))
  have htildeLeaf : (aliased "-" "~").Printable T :=
    .inr (@OperatorTable.Operates.operator T "~" tilde (by decide))
  have hplusLeaf : (aliased "plus" "<+>").Printable T :=
    .inr (@OperatorTable.Operates.operator T "<+>" plus (by decide))
  have hfive : (named "-5").Printable T :=
    .inl (@OperatorTable.StandsAlone.negative T "5" (-5) (by decide) (by decide) (by decide))
  have hbetween : ¬ T.IsPrefix (aliased "plus" "<+>") := fun h =>
    absurd (h.role hT.legible) (by decide)
  have hm : m.plain.Printable T :=
    ⟨⟨rfl, by decide, by decide⟩, id, ⟨hplusLeaf, ⟨htildeLeaf, hx, nofun⟩, nofun⟩, hfive,
      fun _ => hbetween⟩
  have halone : ¬ T.IsOperation m.plain := id
  have hascii : Style.print ⟨T, false⟩ m = "\x7bx. ((~ x) <+> -5)\x7d" := by decide
  have hunicode : Style.print ⟨T, true⟩ m = "\x7bx. ((∼ x) ⊕ -5)\x7d" := by decide
  have hread := parse_print_extended hT hm halone
  refine ⟨hT, ?_, ?_⟩
  · obtain ⟨least, hleast⟩ := hread false
    rw [hascii] at hleast
    exact ⟨least, fun limit hlimit => (hleast limit hlimit).1⟩
  · obtain ⟨least, hleast⟩ := hread true
    rw [hunicode] at hleast
    exact ⟨least, fun limit hlimit => (hleast limit hlimit).1⟩

end ProofKernel
