import ProofKernel.Proofs.Reading

/-!
# The two readers by the tokens before them

What an operand and a chain do is said here once for each kind of token, with names for the parts
that take a level of the room. What holds of the readers follows by induction on the room.

* `Parser.Holds`: what holds of a result, if there is one;
* `Parser.deeper`: what takes one level;
* `Parser.room_induction`: induction on the room;
* `Parser.enclosed`, `Parser.body`, `Parser.operation`, `Parser.minus`, `Parser.link`,
  `Parser.argument`: brackets, what follows a bound name, an operator with its operand, a minus sign,
  and the two kinds of links of a chain;
* `Parser.operand_opening`, `Parser.operand_word`, `Parser.chain_cons`: the two readers in these
  terms;
* `Parser.operand_rule`, `Parser.chain_rule`: what holds of what they give.
-/

namespace ProofKernel.Parser

/-! ## Results -/

section Results

variable {β γ : Type} {x : Except Fault β} {f : β → Except Fault γ}

theorem bind_eq_ok {c : γ} : x >>= f = .ok c ↔ ∃ b, x = .ok b ∧ f b = .ok c := by
  cases x with
  | error e => exact ⟨nofun, nofun⟩
  | ok b => exact ⟨fun h => ⟨b, rfl, h⟩, by rintro ⟨_, ⟨⟩, h⟩; exact h⟩

theorem bind_eq_error {e : Fault} :
    x >>= f = .error e ↔ x = .error e ∨ ∃ b, x = .ok b ∧ f b = .error e := by
  cases x with
  | error e' =>
    constructor
    · intro h
      cases h
      exact .inl rfl
    · rintro (h | ⟨_, ⟨⟩, _⟩)
      cases h
      rfl
  | ok b =>
    constructor
    · exact fun h => .inr ⟨b, rfl, h⟩
    · rintro (h | ⟨_, h, hf⟩)
      · cases h
      · cases h
        exact hf

/-- What holds of a result, if there is one. -/
def Holds (x : Except Fault β) (P : β → Prop) : Prop := ∀ b, x = .ok b → P b

theorem holds_ok {b : β} {P : β → Prop} (h : P b) : Holds (.ok b) P := by
  intro b' hb
  cases hb
  exact h

theorem holds_error {e : Fault} {P : β → Prop} : Holds (.error e) P := nofun

theorem holds_true : Holds x fun _ => True := fun _ _ => trivial

theorem Holds.mono {P Q : β → Prop} (h : Holds x P) (hPQ : ∀ b, P b → Q b) : Holds x Q :=
  fun b hb => hPQ b (h b hb)

theorem Holds.bind {P : β → Prop} {Q : γ → Prop} (h : Holds x P)
    (hf : ∀ b, P b → Holds (f b) Q) : Holds (x >>= f) Q := by
  cases x with
  | error e => exact holds_error
  | ok b => exact hf b (h b rfl)

end Results

variable {β : Type}

/-- What takes one level of the room. Without one, the nesting is too deep at the token. -/
def deeper (t : Token) (n : Nat) (f : Nat → Except Fault β) : Except Fault β :=
  match n with
  | 0 => .error (.refused .tooDeep t)
  | n + 1 => f n

section Deeper

variable {t : Token} {n : Nat} {f : Nat → Except Fault β}

theorem deeper_eq_ok {b : β} (h : deeper t n f = .ok b) : ∃ k < n, f k = .ok b := by
  cases n with
  | zero => cases h
  | succ n => exact ⟨n, Nat.lt_succ_self n, h⟩

theorem deeper_holds {P : β → Prop} (h : ∀ k, n = k + 1 → Holds (f k) P) :
    Holds (deeper t n f) P := by
  cases n with
  | zero => exact holds_error
  | succ n => exact h n rfl

end Deeper

/-- **Induction on the room.** Only what takes a level starts readers, with the room left. -/
theorem room_induction {P : Nat → Prop} (step : ∀ n, (∀ k, n = k + 1 → P k) → P n) (n : Nat) :
    P n := by
  induction n with
  | zero => exact step 0 fun k hk => absurd hk.symm (Nat.succ_ne_zero k)
  | succ n ih =>
    refine step (n + 1) fun k hk => ?_
    cases hk
    exact ih

variable (T : OperatorTable) (stuck : Bool)

/-- What an opening bracket encloses, as an operand. -/
def enclosed (opening : Token) (n : Nat) : Reader (Option PlainTerm) := fun ts => do
  let (m, ts) ← bracketed T stuck (subterm T stuck n endPower) opening ts
  return (some m, ts)

/-- The dot, the body and the bracket of an abstraction. -/
def body (inner : Reader PlainTerm) (bound : Name) : Reader PlainTerm := fun ts => do
  let ((), ts) ← expect stuck .symbol "." ts
  let (m, ts) ← inner ts
  let ((), ts) ← expect stuck .closing "\x7d" ts
  return (.lambda bound m, ts)

/-- The call of an operator on the operand that it stands before. -/
def operation (op : PlainTerm) (n : Nat) : Reader (Option PlainTerm) := fun ts => do
  let (m, ts) ← sequence stuck (operand T stuck n) (chain T stuck n beforePower true) ts
  return (some (.call op m), ts)

/-- A minus sign that is no operator before its operand: that of the number that it touches, or the
negation of what follows. -/
def minus (t : Token) (n : Nat) : Reader (Option PlainTerm) := fun ts =>
  match adjacentNumber t ts with
  | some (u, us) => .ok (some (.named ("-" ++ u.text)), us)
  | none =>
    if ts.isEmpty && stuck then .error .stuck
    else deeper t n fun n => operation T stuck (.named "neg") n ts

/-- A chain that goes on with an operator between operands, and with the right one unless none can
follow. -/
def link (p : Nat) (after : Bool) (left : PlainTerm) (t : Token) (n : Nat) : Reader PlainTerm :=
  fun ts => do
    if ← endsOperand stuck ts then chain T stuck n p after (.call (T.leaf t.text) left) ts
    else
      let (right, ts) ← subterm T stuck n (chainPower T after t) ts
      chain T stuck n p after (.callBetween left (T.leaf t.text) right) ts

/-- A chain that goes on with an argument. -/
def argument (p : Nat) (after : Bool) (left : PlainTerm) (n : Nat) : Reader PlainTerm := fun ts => do
  match ← operand T stuck n ts with
  | (some arg, ts) => chain T stuck n p after (.call left arg) ts
  | (none, ts) => return (left, ts)

variable {T stuck} {t : Token} {ts : List Token} {n : Nat}

/-! ## Tokens -/

theorem IsName.ne_opening (h : IsName t) : t.kind ≠ .opening := by
  rcases h with h | h <;> simp [h]

theorem IsName.ne_closing (h : IsName t) : t.kind ≠ .closing := by
  rcases h with h | h <;> simp [h]

/-- What the readers tell apart by the kind of a token. -/
inductive TokenCase (t : Token) : Prop
  | opening (h : t.kind = .opening)
  | closing (h : t.kind = .closing)
  | literal (h : t.kind = .number ∨ t.kind = .quoted)
  | name (h : IsName t)

theorem tokenCase (t : Token) : TokenCase t := by
  cases h : t.kind with
  | opening => exact .opening h
  | closing => exact .closing h
  | number => exact .literal (.inl h)
  | quoted => exact .literal (.inr h)
  | ident => exact .name (.inl h)
  | symbol => exact .name (.inr h)

theorem tokenPower_name (h : IsName t) : T.tokenPower t = T.power t.text := by
  rcases h with h | h <;> simp [OperatorTable.tokenPower, h]

theorem tokenPower_le_chainPower (T : OperatorTable) (after : Bool) (t : Token) :
    T.tokenPower t ≤ chainPower T after t := by
  unfold chainPower
  dsimp only
  split
  next => exact Nat.le_succ _
  next => exact Nat.le_refl _

/-- An operator of a chain is an identifier or a symbol. -/
theorem isName_of_power {p : Nat} {after : Bool} (h : ¬ chainPower T after t ≤ p)
    (hlt : chainPower T after t < namePower) : IsName t := by
  cases hkind : t.kind with
  | opening =>
    simp [chainPower, OperatorTable.tokenPower, hkind, bracketPower, namePower, beforePower] at hlt
  | closing => simp [chainPower, OperatorTable.tokenPower, hkind, endPower, beforePower] at h
  | number => simp [chainPower, OperatorTable.tokenPower, hkind, namePower, beforePower] at hlt
  | quoted => simp [chainPower, OperatorTable.tokenPower, hkind, namePower, beforePower] at hlt
  | ident => exact .inl hkind
  | symbol => exact .inr hkind

theorem adjacentNumber_eq_some {minus u : Token} {us : List Token}
    (h : adjacentNumber minus ts = some (u, us)) : ts = u :: us ∧ u.kind = .number := by
  cases ts with
  | nil => cases h
  | cons t ts =>
    simp only [adjacentNumber] at h
    split at h
    next hkind =>
      simp only [Option.some.injEq, Prod.mk.injEq] at h
      obtain ⟨rfl, rfl⟩ := h
      exact ⟨rfl, hkind.1⟩
    next => cases h

/-- Reading is finished where no token is left. -/
theorem finish_holds : Holds (finish stuck ts) fun _ => ts = [] := by
  cases ts with
  | nil => exact fun _ _ => rfl
  | cons t ts => exact holds_error

/-! ## Brackets -/

/-- A token that is called for is the next one. -/
theorem expect_holds (kind : TokenKind) (text : String) : Holds (expect stuck kind text ts) fun b =>
    ∃ t, ts = t :: b.2 ∧ t.kind = kind ∧ t.text = text := by
  cases ts with
  | nil => exact holds_error
  | cons t ts =>
    show Holds (if t.kind = kind ∧ t.text = text then .ok ((), ts) else _) _
    split
    next h => exact holds_ok ⟨t, rfl, h⟩
    next => exact holds_error

theorem isName_of_bare (h : isBareOperator T t = true) : IsName t := by
  unfold isBareOperator at h
  split at h
  next hkind => exact .inr hkind
  next hkind => exact .inl hkind
  next => cases h

theorem abstraction_cons (inner : Reader PlainTerm) : abstraction stuck inner (t :: ts) =
    if t.kind = .ident ∧ Name.isVariable t.text then body stuck inner t.text ts
    else .error (.refused .expectedVariable t) := by
  unfold abstraction
  by_cases h : t.kind = .ident ∧ Name.isVariable t.text = true
  · rw [if_pos h]
    simp only [next, h, bind, Except.bind]
    rfl
  · rw [if_neg h]
    simp only [next, h, bind, Except.bind]
    rfl

theorem bracketed_parenthesis (inner : Reader PlainTerm) (h : t.text = "(") :
    bracketed T stuck inner t ts = match ts with
      | op :: close :: rest =>
        if isBareOperator T op && close.text == ")" then .ok (T.leaf op.text, rest)
        else grouped stuck inner ts
      | _ => if stuck then .error .stuck else grouped stuck inner ts :=
  if_pos h

/-! ## Operands -/

theorem operand_nil : operand T stuck n [] = if stuck then .error .stuck else .ok (none, []) := by
  cases n <;> simp only [operand]

theorem operand_opening (h : t.kind = .opening) :
    operand T stuck n (t :: ts) = deeper t n fun n => enclosed T stuck t n ts := by
  cases n <;> simp only [operand, h] <;> rfl

theorem operand_closing (h : t.kind = .closing) :
    operand T stuck n (t :: ts) = .ok (none, t :: ts) := by
  cases n <;> simp only [operand, h]

theorem operand_ofLiteral (h : t.kind = .number ∨ t.kind = .quoted) :
    operand T stuck n (t :: ts) = .ok (some (.named t.text), ts) := by
  rcases h with h | h <;> cases n <;> simp only [operand, h]

theorem operand_word (h : IsName t) : operand T stuck n (t :: ts) =
    if T.isBefore t.text then deeper t n fun n => operation T stuck (T.leaf t.text) n ts
    else if t.text = "-" then minus T stuck t n ts
    else if T.tokenPower t = namePower then .ok (some (T.leaf t.text), ts)
    else .ok (none, t :: ts) := by
  rcases h with h | h <;> cases n <;> simp only [operand, h] <;> rfl

/-! ## Chains -/

variable {p : Nat} {after : Bool} {left : PlainTerm}

theorem chain_nil : chain T stuck n p after left [] =
    if stuck then .error .stuck else .ok (left, []) := by
  cases n <;> simp only [chain]

theorem chain_cons : chain T stuck n p after left (t :: ts) =
    if chainPower T after t ≤ p then .ok (left, t :: ts)
    else deeper t n fun n =>
      if chainPower T after t < namePower && !T.isBefore t.text then link T stuck p after left t n ts
      else argument T stuck p after left n (t :: ts) := by
  cases n <;> simp only [chain] <;> rfl

/-! ## Rules

What holds of a result, with one case for each way in which it comes about. -/

section Rules

variable {P : PlainTerm × List Token → Prop}

theorem sequence_rule {o : Reader (Option PlainTerm)} {c : PlainTerm → Reader PlainTerm}
    (h : Holds (o ts) fun b => ∀ left, b.1 = some left → Holds (c left b.2) P) :
    Holds (sequence stuck o c ts) P := by
  refine h.bind ?_
  rintro ⟨_ | left, us⟩ hnext
  · cases us <;> cases stuck <;> exact holds_error
  · exact hnext left rfl

section Brackets

variable {inner : Reader PlainTerm}

theorem abstraction_rule (h : ∀ bound us, ts = bound :: us → bound.kind = .ident →
      Name.isVariable bound.text = true → Holds (body stuck inner bound.text us) P) :
    Holds (abstraction stuck inner ts) P := by
  cases ts with
  | nil => exact holds_error
  | cons bound us =>
    rw [abstraction_cons]
    split
    next hbound => exact h bound us rfl hbound.1 hbound.2
    next => exact holds_error

theorem bracketed_rule
    (hlone : ∀ op close us, t.text = "(" → ts = op :: close :: us → isBareOperator T op = true →
      close.text = ")" → P (T.leaf op.text, us))
    (hgroup : t.text = "(" → Holds (grouped stuck inner ts) P)
    (hbrace : t.text = "\x7b" → Holds (abstraction stuck inner ts) P) :
    Holds (bracketed T stuck inner t ts) P := by
  by_cases hround : t.text = "("
  · rw [bracketed_parenthesis inner hround]
    match ts with
    | op :: close :: us =>
      dsimp only
      split
      next hbare =>
        obtain ⟨hop, hclose⟩ := Bool.and_eq_true_iff.1 hbare
        exact holds_ok (hlone op close us hround rfl hop (beq_iff_eq.1 hclose))
      next => exact hgroup hround
    | [_] | [] =>
      dsimp only
      split
      next => exact holds_error
      next => exact hgroup hround
  · unfold bracketed
    rw [if_neg hround]
    split
    next h => exact hbrace h
    next => exact holds_error

end Brackets

theorem minus_rule {P : Option PlainTerm × List Token → Prop}
    (hnumeral : ∀ u us, ts = u :: us → u.kind = .number → adjacentNumber t ts = some (u, us) →
      P (some (.named ("-" ++ u.text)), us))
    (hnegation : ∀ k, adjacentNumber t ts = none → n = k + 1 →
      Holds (operation T stuck (.named "neg") k ts) P) :
    Holds (minus T stuck t n ts) P := by
  unfold minus
  split
  next u us hnumber =>
    obtain ⟨hts, hkind⟩ := adjacentNumber_eq_some hnumber
    exact holds_ok (hnumeral u us hts hkind hnumber)
  next hnumber =>
    split
    next => exact holds_error
    next => exact deeper_holds fun k hk => hnegation k hnumber hk

theorem operand_rule {P : Option PlainTerm × List Token → Prop} (hnone : P (none, ts))
    (henclosed : ∀ t us k, ts = t :: us → t.kind = .opening → n = k + 1 →
      Holds (enclosed T stuck t k us) P)
    (hliteral : ∀ t us, ts = t :: us → t.kind = .number ∨ t.kind = .quoted →
      P (some (.named t.text), us))
    (hbefore : ∀ t us k, ts = t :: us → IsName t → T.isBefore t.text = true → n = k + 1 →
      Holds (operation T stuck (T.leaf t.text) k us) P)
    (hminus : ∀ t us, ts = t :: us → IsName t → t.text = "-" → T.isBefore "-" = false →
      Holds (minus T stuck t n us) P)
    (hleaf : ∀ t us, ts = t :: us → IsName t → T.isBefore t.text = false → t.text ≠ "-" →
      T.tokenPower t = namePower → P (some (T.leaf t.text), us)) :
    Holds (operand T stuck n ts) P := by
  cases ts with
  | nil =>
    rw [operand_nil]
    split
    next => exact holds_error
    next => exact holds_ok hnone
  | cons t us =>
    cases tokenCase t with
    | opening hkind =>
      rw [operand_opening hkind]
      exact deeper_holds fun k hk => henclosed t us k rfl hkind hk
    | closing hkind =>
      rw [operand_closing hkind]
      exact holds_ok hnone
    | literal hkind =>
      rw [operand_ofLiteral hkind]
      exact holds_ok (hliteral t us rfl hkind)
    | name hname =>
      rw [operand_word hname]
      split
      next hprefix => exact deeper_holds fun k hk => hbefore t us k rfl hname hprefix hk
      next hprefix =>
        rw [Bool.not_eq_true] at hprefix
        split
        next htext => exact hminus t us rfl hname htext (htext ▸ hprefix)
        next htext =>
          split
          next hpower => exact holds_ok (hleaf t us rfl hname hprefix htext hpower)
          next => exact holds_ok hnone

theorem chain_rule (hstop : P (left, ts))
    (hlink : ∀ t us k, ts = t :: us → IsName t → chainPower T after t < namePower →
      T.isBefore t.text = false → n = k + 1 → Holds (link T stuck p after left t k us) P)
    (hargument : ∀ t us k, ts = t :: us →
      namePower ≤ chainPower T after t ∨ T.isBefore t.text = true → n = k + 1 →
      Holds (argument T stuck p after left k (t :: us)) P) :
    Holds (chain T stuck n p after left ts) P := by
  cases ts with
  | nil =>
    rw [chain_nil]
    split
    next => exact holds_error
    next => exact holds_ok hstop
  | cons t us =>
    rw [chain_cons]
    split
    next => exact holds_ok hstop
    next hpower =>
      refine deeper_holds fun k hk => ?_
      split
      next h =>
        rw [Bool.and_eq_true, decide_eq_true_eq, Bool.not_eq_true'] at h
        exact hlink t us k rfl (isName_of_power hpower h.1) h.1 h.2 hk
      next h =>
        refine hargument t us k rfl ?_ hk
        rw [Bool.and_eq_true, decide_eq_true_eq, Bool.not_eq_true'] at h
        by_cases hlow : chainPower T after t < namePower
        · exact .inr (by simpa [hlow] using h)
        · exact .inl (Nat.le_of_not_lt hlow)

end Rules

end ProofKernel.Parser
