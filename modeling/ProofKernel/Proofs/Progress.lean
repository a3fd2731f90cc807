import ProofKernel.Proofs.Counter
import ProofKernel.Proofs.WordsKept

/-!
# Reading makes progress

An operand that is read takes tokens, and so does each pass through the loop of a chain. So the tokens
that are left bound the levels and the links of a reading, whatever its limit.

* `Parser.Fewer`: what is left of tokens of which some have been taken;
* `Parser.advances`: what the two readers leave;
* `Parser.operand_of_argument`: where a chain goes on with an argument, there is one;
* `Parser.Shallow`, `Parser.roomy`: room for as many levels as there are tokens is enough;
* `Parser.Pass`, `OperatorTable.countedPass`: one pass through the loop of a chain;
* `OperatorTable.reading_progresses`: the readers with a counter make progress, and so they end.
-/

namespace ProofKernel

namespace Parser

/-! ## Tokens that are taken -/

/-- The tokens that are left when at least one has been taken. -/
def Fewer (us ts : List Token) : Prop := us <:+ ts ∧ us.length < ts.length

section Fewer

variable {t : Token} {ts us vs : List Token}

theorem fewer_cons (h : us <:+ ts) : Fewer us (t :: ts) :=
  ⟨h.trans (List.suffix_cons t ts), Nat.lt_succ_of_le h.length_le⟩

theorem Fewer.trans_suffix (h : Fewer us ts) (h' : vs <:+ us) : Fewer vs ts :=
  ⟨h'.trans h.1, h'.length_le.trans_lt h.2⟩

end Fewer

/-- What an operand leaves: fewer tokens, or all of them if there is none. -/
def Advance (ts : List Token) (b : Option PlainTerm × List Token) : Prop :=
  match b.1 with
  | some _ => Fewer b.2 ts
  | none => b.2 = ts

/-- The two readers take tokens: an operand at least one, if there is an operand. -/
structure Advances (T : OperatorTable) (stuck : Bool) (n : Nat) : Prop where
  operand : ∀ ts, Holds (operand T stuck n ts) (Advance ts)
  chain : ∀ p after left ts, Holds (chain T stuck n p after left ts) fun b => b.2 <:+ ts

section Readers

variable {stuck : Bool} {inner : Reader PlainTerm}

theorem expect_suffix (kind : TokenKind) (text : String) (ts : List Token) :
    Holds (expect stuck kind text ts) fun b => b.2 <:+ ts := by
  refine (expect_holds kind text).mono ?_
  rintro b ⟨t, rfl, -⟩
  exact List.suffix_cons t b.2

variable (h : ∀ ts, Holds (inner ts) fun b => b.2 <:+ ts)

include h

theorem grouped_suffix (ts : List Token) : Holds (grouped stuck inner ts) fun b => b.2 <:+ ts := by
  refine (h ts).bind fun m hm => (expect_suffix _ _ m.2).bind fun close hclose => ?_
  exact holds_ok (hclose.trans hm)

theorem body_suffix (bound : Name) (ts : List Token) :
    Holds (body stuck inner bound ts) fun b => b.2 <:+ ts := by
  refine (expect_suffix _ _ ts).bind fun dot hdot => (h dot.2).bind fun m hm => ?_
  refine (expect_suffix _ _ m.2).bind fun close hclose => ?_
  exact holds_ok (hclose.trans (hm.trans hdot))

theorem bracketed_suffix (T : OperatorTable) (opening : Token) (ts : List Token) :
    Holds (bracketed T stuck inner opening ts) fun b => b.2 <:+ ts := by
  refine bracketed_rule ?lone ?group ?brace
  case lone =>
    rintro op close us - rfl - -
    exact (List.suffix_cons close us).trans (List.suffix_cons op _)
  case group => exact fun _ => grouped_suffix h ts
  case brace =>
    refine fun _ => abstraction_rule ?_
    rintro bound us rfl - -
    exact (body_suffix h bound.text us).mono fun b hb => hb.trans (List.suffix_cons bound us)

end Readers

section Step

variable {T : OperatorTable} {stuck : Bool} {n : Nat}

theorem Advances.sequence (h : Advances T stuck n) (p : Nat) (after : Bool) (ts : List Token) :
    Holds (sequence stuck (Parser.operand T stuck n) (Parser.chain T stuck n p after) ts)
      fun b => Fewer b.2 ts := by
  refine sequence_rule ((h.operand ts).mono ?_)
  rintro ⟨_, us⟩ hfirst left rfl
  exact (h.chain p after left us).mono fun b hb => hfirst.trans_suffix hb

theorem Advances.sequence_suffix (h : Advances T stuck n) (p : Nat) (after : Bool)
    (ts : List Token) :
    Holds (Parser.sequence stuck (Parser.operand T stuck n) (Parser.chain T stuck n p after) ts)
      fun b => b.2 <:+ ts :=
  (h.sequence p after ts).mono fun _ hb => hb.1

theorem Advances.operation (h : Advances T stuck n) (op : PlainTerm) (t : Token) (ts : List Token) :
    Holds (operation T stuck op n ts) (Advance (t :: ts)) :=
  (h.sequence_suffix beforePower true ts).bind fun _ hm => holds_ok (fewer_cons hm)

theorem Advances.enclosed (h : Advances T stuck n) (t : Token) (ts : List Token) :
    Holds (enclosed T stuck t n ts) (Advance (t :: ts)) :=
  (bracketed_suffix (h.sequence_suffix endPower false) T t ts).bind fun _ hm =>
    holds_ok (fewer_cons hm)

theorem Advances.link (h : Advances T stuck n) (p : Nat) (after : Bool) (left : PlainTerm)
    (t : Token) (ts : List Token) :
    Holds (link T stuck p after left t n ts) fun b => b.2 <:+ ts := by
  refine holds_true.bind fun ends _ => ?_
  split
  next => exact h.chain p after _ ts
  next =>
    refine (h.sequence_suffix _ false ts).bind fun right hright => ?_
    exact (h.chain p after _ right.2).mono fun b hb => hb.trans hright

theorem Advances.argument (h : Advances T stuck n) (p : Nat) (after : Bool) (left : PlainTerm)
    (ts : List Token) : Holds (argument T stuck p after left n ts) fun b => b.2 <:+ ts := by
  refine (h.operand ts).bind ?_
  rintro ⟨_ | arg, us⟩ htaken
  · exact holds_ok (htaken ▸ List.suffix_refl ts)
  · exact (h.chain p after _ us).mono fun b hb => hb.trans htaken.1

variable (ih : ∀ k, n = k + 1 → Advances T stuck k)

include ih

theorem operand_advances (ts : List Token) : Holds (operand T stuck n ts) (Advance ts) := by
  refine operand_rule rfl ?enclosed ?literal ?before ?minus ?leaf
  case enclosed =>
    rintro t us k rfl - hk
    exact (ih k hk).enclosed t us
  case literal =>
    rintro t us rfl -
    exact fewer_cons (List.suffix_refl us)
  case before =>
    rintro t us k rfl - - hk
    exact (ih k hk).operation _ t us
  case minus =>
    rintro t us rfl - - -
    refine minus_rule ?_ fun k _ hk => (ih k hk).operation _ t us
    rintro u vs rfl - -
    exact fewer_cons (List.suffix_cons u vs)
  case leaf =>
    rintro t us rfl - - - -
    exact fewer_cons (List.suffix_refl us)

theorem chain_advances (p : Nat) (after : Bool) (left : PlainTerm) (ts : List Token) :
    Holds (chain T stuck n p after left ts) fun b => b.2 <:+ ts := by
  refine chain_rule (List.suffix_refl ts) ?link ?argument
  case link =>
    rintro t us k rfl - - - hk
    exact ((ih k hk).link p after left t us).mono fun b hb => hb.trans (List.suffix_cons t us)
  case argument =>
    rintro t us k rfl - hk
    exact (ih k hk).argument p after left (t :: us)

end Step

/-- **The readers take tokens**, by induction on the room. -/
theorem advances (T : OperatorTable) (stuck : Bool) (n : Nat) : Advances T stuck n := by
  induction n using room_induction with
  | step n ih => exact ⟨operand_advances ih, chain_advances ih⟩

end Parser

/-! ## Where an argument follows -/

/-- A name that is no operator before its operand binds at most as tightly as names do. -/
theorem OperatorTable.Built.power_le {T : OperatorTable} (hT : T.Built) {name : Name}
    (h : T.isBefore name = false) : T.power name ≤ namePower := by
  unfold power
  cases hget : T.get? name with
  | none => dsimp only; split <;> decide
  | some op =>
    have hfixity : op.fixity = .between := by
      cases hfixity : op.fixity with
      | between => rfl
      | before => simp [isBefore, hget, hfixity] at h
    have hpower := hT.isInfixPower hget hfixity
    simp only [OperatorTable.isInfixPower, Bool.and_eq_true, decide_eq_true_eq] at hpower
    exact hpower.2.le

namespace Parser

section Argument

variable {T : OperatorTable} {stuck : Bool} {n : Nat} {t : Token}

theorem operation_some (op : PlainTerm) (ts : List Token) :
    Holds (operation T stuck op n ts) fun b => b.1 ≠ none :=
  holds_true.bind fun _ _ => holds_ok (Option.some_ne_none _)

/-- **Where a chain goes on with an argument, there is one**: of the names that start no operand none
binds as tightly as an argument does. -/
theorem operand_of_argument (hT : T.Built) {p : Nat} {after : Bool} (ts : List Token)
    (hpower : ¬ chainPower T after t ≤ p)
    (hargument : ¬ (chainPower T after t < namePower && !T.isBefore t.text) = true) :
    Holds (operand T stuck n (t :: ts)) fun b => b.1 ≠ none := by
  cases tokenCase t with
  | opening hkind =>
    rw [operand_opening hkind]
    exact deeper_holds fun k _ => holds_true.bind fun _ _ => holds_ok (Option.some_ne_none _)
  | closing hkind =>
    have hend : chainPower T after t = endPower := by
      simp [chainPower, OperatorTable.tokenPower, hkind, endPower, beforePower]
    exact absurd (hend ▸ Nat.zero_le p) hpower
  | literal hkind =>
    rw [operand_ofLiteral hkind]
    exact holds_ok (Option.some_ne_none _)
  | name hname =>
    rw [operand_word hname]
    split
    next => exact deeper_holds fun k _ => operation_some _ ts
    next hbefore =>
      rw [Bool.not_eq_true] at hbefore
      have hle := hT.power_le hbefore
      rw [← tokenPower_name hname] at hle
      have hown : chainPower T after t = T.tokenPower t := by
        have hne : T.tokenPower t ≠ beforePower := (hle.trans_lt (by decide)).ne
        simp [chainPower, hne]
      have hhigh : namePower ≤ T.tokenPower t := by simpa [hown, hbefore] using hargument
      split
      next htext =>
        have hlow := hT.power_minus (htext ▸ hbefore)
        rw [← htext, ← tokenPower_name hname] at hlow
        exact absurd hlow hhigh.not_gt
      next =>
        rw [if_pos (hle.antisymm hhigh)]
        exact holds_ok (Option.some_ne_none _)

end Argument

/-! ## Enough room -/

/-- Nothing is nested too deeply. -/
def Shallow {β : Type} (x : Except Fault β) : Prop := ∀ t, x ≠ .error (.refused .tooDeep t)

section Shallow

variable {β γ : Type} {x : Except Fault β} {f : β → Except Fault γ}

theorem shallow_ok (b : β) : Shallow (.ok b) := nofun

theorem Shallow.bind {P : β → Prop} (h : Shallow x) (hx : Holds x P)
    (hf : ∀ b, P b → Shallow (f b)) : Shallow (x >>= f) := by
  cases x with
  | error e =>
    intro t ht
    cases ht
    exact h t rfl
  | ok b => exact hf b (hx b rfl)

theorem Shallow.map (h : Shallow x) (f : β → γ) : Shallow (x >>= fun b => .ok (f b)) :=
  h.bind holds_true fun b _ => shallow_ok (f b)

theorem deeper_shallow {t : Token} {n : Nat} {f : Nat → Except Fault β} (hn : n ≠ 0)
    (h : ∀ k, n = k + 1 → Shallow (f k)) : Shallow (deeper t n f) := by
  cases n with
  | zero => exact absurd rfl hn
  | succ n => exact h n rfl

variable {stuck : Bool} {ts : List Token}

theorem stuck_shallow (h : Shallow x) : Shallow (if stuck then .error .stuck else x) := by
  split
  next => exact nofun
  next => exact h

theorem expect_shallow (kind : TokenKind) (text : String) (ts : List Token) :
    Shallow (expect stuck kind text ts) := by
  cases ts with
  | nil => cases stuck <;> exact nofun
  | cons t ts =>
    show Shallow (if t.kind = kind ∧ t.text = text then .ok ((), ts) else _)
    split <;> exact nofun

theorem endsOperand_shallow (ts : List Token) : Shallow (endsOperand stuck ts) := by
  cases ts with
  | nil => cases stuck <;> exact nofun
  | cons => exact nofun

theorem sequence_shallow {o : Reader (Option PlainTerm)} {c : PlainTerm → Reader PlainTerm}
    (ho : Shallow (o ts)) (hadvance : Holds (o ts) (Advance ts))
    (hc : ∀ left us, Fewer us ts → Shallow (c left us)) : Shallow (sequence stuck o c ts) := by
  refine ho.bind hadvance ?_
  rintro ⟨_ | left, us⟩ htaken
  · cases us <;> cases stuck <;> exact nofun
  · exact hc left us htaken

variable {inner : Reader PlainTerm}

theorem grouped_shallow (h : Shallow (inner ts)) : Shallow (grouped stuck inner ts) :=
  h.bind holds_true fun m _ => (expect_shallow _ _ m.2).map _

theorem body_shallow {bound : Name} (h : ∀ us, us <:+ ts → Shallow (inner us)) :
    Shallow (body stuck inner bound ts) := by
  refine (expect_shallow _ _ ts).bind (expect_suffix _ _ ts) fun dot hdot => ?_
  exact (h dot.2 hdot).bind holds_true fun m _ => (expect_shallow _ _ m.2).map _

theorem bracketed_shallow {T : OperatorTable} {opening : Token}
    (h : ∀ us, us <:+ ts → Shallow (inner us)) :
    Shallow (bracketed T stuck inner opening ts) := by
  have hgrouped : Shallow (grouped stuck inner ts) := grouped_shallow (h ts (List.suffix_refl ts))
  unfold bracketed
  split
  next =>
    split
    next =>
      split
      next => exact shallow_ok _
      next => exact hgrouped
    next => exact stuck_shallow hgrouped
  next =>
    split
    next =>
      cases ts with
      | nil => cases stuck <;> exact nofun
      | cons bound us =>
        rw [abstraction_cons]
        split
        next => exact body_shallow fun vs hvs => h vs (hvs.trans (List.suffix_cons bound us))
        next => exact nofun
    next => exact nofun

end Shallow

/-- Room for as many levels as there are tokens is enough for an operand, and one level more for a
chain. -/
structure Roomy (T : OperatorTable) (stuck : Bool) (n : Nat) : Prop where
  operand : ∀ ts, ts.length ≤ n → Shallow (operand T stuck n ts)
  chain : ∀ p after left ts, ts.length < n → Shallow (chain T stuck n p after left ts)

section Room

variable {T : OperatorTable} {stuck : Bool} {n : Nat}

theorem Roomy.sequence (h : Roomy T stuck n) (p : Nat) (after : Bool) {ts : List Token}
    (hts : ts.length ≤ n) :
    Shallow (sequence stuck (Parser.operand T stuck n) (Parser.chain T stuck n p after) ts) :=
  sequence_shallow (h.operand ts hts) ((advances T stuck n).operand ts) fun left us hus =>
    h.chain p after left us (hus.2.trans_le hts)

theorem Roomy.link (h : Roomy T stuck n) (p : Nat) (after : Bool) (left : PlainTerm) (t : Token)
    {ts : List Token} (hts : ts.length < n) : Shallow (link T stuck p after left t n ts) := by
  refine (endsOperand_shallow ts).bind holds_true fun ends _ => ?_
  split
  next => exact h.chain p after _ ts hts
  next =>
    refine (h.sequence _ false hts.le).bind ((advances T stuck n).sequence _ false ts) ?_
    exact fun right hright => h.chain p after _ right.2 (hright.2.trans hts)

theorem Roomy.argument (h : Roomy T stuck n) (p : Nat) (after : Bool) (left : PlainTerm)
    {ts : List Token} (hts : ts.length ≤ n) : Shallow (argument T stuck p after left n ts) := by
  refine (h.operand ts hts).bind ((advances T stuck n).operand ts) ?_
  rintro ⟨_ | arg, us⟩ htaken
  · exact shallow_ok _
  · exact h.chain p after _ us (htaken.2.trans_le hts)

variable (ih : ∀ k, n = k + 1 → Roomy T stuck k)

include ih

theorem operand_roomy (ts : List Token) (hts : ts.length ≤ n) :
    Shallow (operand T stuck n ts) := by
  cases ts with
  | nil =>
    rw [operand_nil]
    exact stuck_shallow (shallow_ok _)
  | cons t us =>
    have hroom : ∀ k, n = k + 1 → us.length ≤ k := by
      rintro k rfl
      exact Nat.le_of_succ_le_succ hts
    have hn : n ≠ 0 := (Nat.lt_of_lt_of_le (Nat.succ_pos _) hts).ne'
    have hoperation : ∀ op, Shallow (deeper t n fun k => operation T stuck op k us) := fun op =>
      deeper_shallow hn fun k hk => ((ih k hk).sequence beforePower true (hroom k hk)).map _
    cases tokenCase t with
    | opening hkind =>
      rw [operand_opening hkind]
      refine deeper_shallow hn fun k hk => (bracketed_shallow fun vs hvs => ?_).map _
      exact (ih k hk).sequence endPower false (hvs.length_le.trans (hroom k hk))
    | closing hkind =>
      rw [operand_closing hkind]
      exact shallow_ok _
    | literal hkind =>
      rw [operand_ofLiteral hkind]
      exact shallow_ok _
    | name hname =>
      rw [operand_word hname]
      split
      next => exact hoperation _
      next =>
        split
        next =>
          unfold minus
          split
          next => exact shallow_ok _
          next =>
            split
            next => exact nofun
            next => exact hoperation _
        next => split <;> exact shallow_ok _

theorem chain_roomy (p : Nat) (after : Bool) (left : PlainTerm) (ts : List Token)
    (hts : ts.length < n) : Shallow (chain T stuck n p after left ts) := by
  cases ts with
  | nil =>
    rw [chain_nil]
    exact stuck_shallow (shallow_ok _)
  | cons t us =>
    rw [chain_cons]
    split
    next => exact shallow_ok _
    next =>
      refine deeper_shallow (Nat.zero_lt_of_lt hts).ne' fun k hk => ?_
      have hroom : (t :: us).length ≤ k := by omega
      split
      next => exact (ih k hk).link p after left t (Nat.lt_of_succ_le hroom)
      next => exact (ih k hk).argument p after left hroom

end Room

/-- **A reading opens no more levels than there are tokens**, by induction on the room: a level that is
opened takes a token, or comes behind an operand that has taken one. -/
theorem roomy (T : OperatorTable) (stuck : Bool) (n : Nat) : Roomy T stuck n := by
  induction n using room_induction with
  | step n ih => exact ⟨operand_roomy ih, chain_roomy ih⟩

/-! ## Readings with a counter -/

/-- From a cursor a reading ends, and if it gives a result, then such a one. -/
def EndsIn {β : Type} (x : Counted β) (s : Cursor) (Q : β → Cursor → Prop) : Prop :=
  ∃ r, x.run s = some r ∧ ∀ b s', r = .ok (b, s') → Q b s'

section EndsIn

variable {β γ : Type} {x : Counted β} {f : β → Counted γ} {s : Cursor} {Q : γ → Cursor → Prop}

theorem endsIn_pure {c : γ} (h : Q c s) : EndsIn (pure c) s Q := by
  refine ⟨.ok (c, s), rfl, ?_⟩
  rintro _ _ ⟨⟩
  exact h

theorem EndsIn.bind {P : β → Cursor → Prop} (h : EndsIn x s P)
    (hf : ∀ b s', P b s' → EndsIn (f b) s' Q) : EndsIn (x >>= f) s Q := by
  obtain ⟨r, hrun, hr⟩ := h
  rw [EndsIn, run_bind, hrun]
  cases r with
  | error e => exact ⟨.error e, rfl, nofun⟩
  | ok b => exact hf b.1 b.2 (hr b.1 b.2 rfl)

theorem EndsIn.and {P Q : β → Cursor → Prop} (h : EndsIn x s P) (h' : EndsIn x s Q) :
    EndsIn x s fun b s' => P b s' ∧ Q b s' := by
  obtain ⟨r, hrun, hP⟩ := h
  obtain ⟨r', hrun', hQ⟩ := h'
  obtain rfl : r = r' := Option.some.inj (hrun.symm.trans hrun')
  exact ⟨r, hrun, fun b s' hr => ⟨hP b s' hr, hQ b s' hr⟩⟩

theorem Follows.endsIn {d d' : Nat} {ts : List Token} {y : Except Fault (γ × List Token)}
    {Q : γ → Cursor → Prop} {x : Counted γ} (h : Follows x d ts d' y)
    (hy : Holds y fun b => Q b.1 ⟨d', b.2⟩) : EndsIn x ⟨d, ts⟩ Q := by
  refine ⟨_, h, ?_⟩
  cases y with
  | error e => exact nofun
  | ok b =>
    rintro _ _ ⟨⟩
    exact hy b rfl

theorem endsIn_enter (limit : Nat) (t : Token) (s : Cursor) :
    EndsIn (enter limit t) s fun _ s' => s' = { s with depth := s.depth + 1 } := by
  rw [EndsIn, run_enter]
  split
  next => exact ⟨_, rfl, nofun⟩
  next =>
    refine ⟨_, rfl, ?_⟩
    rintro _ _ ⟨⟩
    rfl

theorem endsIn_look (g : List Token → Except Fault β) (s : Cursor) :
    EndsIn (look g) s fun b s' => g s.tokens = .ok b ∧ s' = s := by
  rw [EndsIn, run_look]
  cases g s.tokens with
  | error e => exact ⟨_, rfl, nofun⟩
  | ok b =>
    refine ⟨_, rfl, ?_⟩
    rintro _ _ ⟨⟩
    exact ⟨rfl, rfl⟩

theorem endsIn_next (stuck : Bool) (d : Nat) (t : Token) (ts : List Token) :
    EndsIn (uncounted (next stuck)) ⟨d, t :: ts⟩ fun _ s' => s' = ⟨d, ts⟩ :=
  (follows_uncounted (next stuck)).endsIn (holds_ok rfl)

end EndsIn

/-- What an operand does to the cursor: it takes tokens, or leaves it as it is if there is none. -/
def OperandTaken (s : Cursor) : Option PlainTerm → Cursor → Prop
  | some _, s' => Fewer s'.tokens s.tokens
  | none, s' => s' = s

/-- How a pass through the loop of a chain ends. -/
inductive Pass where
  /-- The chain ends before the next token. -/
  | ended
  /-- The next token binds tightly enough, but it starts no operand. -/
  | broken
  /-- The chain goes on, with its links up to here. -/
  | longer (m : PlainTerm)

/-- What a pass does to the cursor: it takes tokens, or it is the last one and leaves the cursor as it
is. No pass is broken off. -/
def PassTaken (s : Cursor) : Pass → Cursor → Prop
  | .ended, s' => s' = s
  | .broken, _ => False
  | .longer _, s' => Fewer s'.tokens s.tokens

end Parser

namespace OperatorTable

open ProofKernel.Parser

/-- One pass through the loop of a chain. -/
def countedPass (T : OperatorTable) (stuck : Bool) (limit : Nat) (power : Nat) (afterBefore : Bool)
    (left : PlainTerm) : Counted Pass := do
  match ← ahead stuck 0 with
  | none => return .ended
  | some t =>
    let own := chainPower T afterBefore t
    if own ≤ power then return .ended
    else do
      enter limit t
      if own < namePower && !T.isBefore t.text then do
        let _ ← uncounted (next stuck)
        if ← look (endsOperand stuck) then return .longer (.call (T.leaf t.text) left)
        else do
          let right ← T.countedSubterm stuck limit own false
          return .longer (.callBetween left (T.leaf t.text) right)
      else do
        match ← T.countedOperand stuck limit with
        | some arg => return .longer (.call left arg)
        | none => return .broken

section Progress

variable {T : OperatorTable} (stuck : Bool) (limit power : Nat) (after : Bool)

/-- A chain is a loop of passes. -/
theorem countedLinks_eq_passes (links : Nat) (left : PlainTerm) :
    T.countedLinks stuck limit power after links left = (do
      match ← T.countedPass stuck limit power after left with
      | .ended => do
        leave links
        return left
      | .broken => do
        leave (links + 1)
        return left
      | .longer m => T.countedLinks stuck limit power after (links + 1) m) := by
  conv_lhs => rw [countedLinks]
  unfold countedPass
  rw [bind_assoc]
  refine bind_congr fun t? => ?_
  cases t? with
  | none => rfl
  | some t =>
    dsimp only
    split
    next => rfl
    next =>
      rw [bind_assoc]
      refine bind_congr fun _ => ?_
      split
      next =>
        rw [bind_assoc]
        refine bind_congr fun _ => ?_
        rw [bind_assoc]
        refine bind_congr fun ends => ?_
        split
        next => rfl
        next =>
          rw [bind_assoc]
          rfl
      next =>
        rw [bind_assoc]
        refine bind_congr fun arg? => ?_
        cases arg? <;> rfl

theorem countedOperand_takes (s : Cursor) :
    EndsIn (T.countedOperand stuck limit) s (OperandTaken s) := by
  obtain ⟨d, ts⟩ := s
  refine ((counts T stuck limit _).operand d ts rfl).endsIn ?_
  refine ((advances T stuck _).operand ts).mono ?_
  rintro ⟨_ | m, us⟩ htaken
  · exact congrArg (Cursor.mk d) htaken
  · exact htaken

/-- A term that is read takes at least one token. -/
theorem countedSubterm_takes (s : Cursor) :
    EndsIn (T.countedSubterm stuck limit power after) s fun _ s' => Fewer s'.tokens s.tokens := by
  obtain ⟨d, ts⟩ := s
  exact (countedSubterm_follows T stuck limit power after d ts).endsIn
    ((advances T stuck _).sequence power after ts)

theorem countedPass_takes (hT : T.Built) (left : PlainTerm) (s : Cursor) :
    EndsIn (T.countedPass stuck limit power after left) s (PassTaken s) := by
  obtain ⟨d, ts⟩ := s
  refine (endsIn_look _ _).bind ?_
  rintro t? _ ⟨hpeek, rfl⟩
  cases ts with
  | nil =>
    cases stuck <;> cases hpeek
    exact endsIn_pure rfl
  | cons t us =>
    cases hpeek
    dsimp only
    split
    next => exact endsIn_pure rfl
    next hpower =>
      refine (endsIn_enter limit t _).bind ?_
      rintro _ _ rfl
      split
      next =>
        refine (endsIn_next stuck _ t us).bind ?_
        rintro _ _ rfl
        refine (endsIn_look _ _).bind ?_
        rintro ends _ ⟨-, rfl⟩
        split
        next => exact endsIn_pure (fewer_cons (List.suffix_refl us))
        next =>
          refine (countedSubterm_takes stuck limit _ false _).bind ?_
          exact fun right s' hright => endsIn_pure (fewer_cons hright.1)
      next hargument =>
        have hargued : EndsIn (T.countedOperand stuck limit) ⟨d + 1, t :: us⟩ fun m? _ => m? ≠ none :=
          ((counts T stuck limit _).operand (d + 1) (t :: us) rfl).endsIn
            (operand_of_argument hT us hpower hargument)
        refine (hargued.and (countedOperand_takes stuck limit _)).bind ?_
        rintro (_ | arg) s' ⟨hsome, htaken⟩
        · exact absurd rfl hsome
        · exact endsIn_pure (Q := PassTaken ⟨d, t :: us⟩) htaken

/-- A limit is not reached that leaves as many levels as there are tokens. -/
theorem countedSubterm_shallow (s : Cursor) (hlimit : s.depth + s.tokens.length ≤ limit) (t : Token) :
    (T.countedSubterm stuck limit power after).run s ≠
      some (.error (.fault (.refused .tooDeep t))) := by
  obtain ⟨d, ts⟩ := s
  rw [countedSubterm_follows T stuck limit power after d ts]
  intro ht
  have hroom : ts.length ≤ limit - d := Nat.le_sub_of_add_le' hlimit
  have hshallow := (roomy T stuck (limit - d)).sequence power after hroom
  cases hread : sequence stuck (operand T stuck (limit - d))
      (chain T stuck (limit - d) power after) ts with
  | error e =>
    rw [hread] at ht
    cases ht
    exact hshallow t hread
  | ok b =>
    rw [hread] at ht
    cases ht

end Progress

/-- **Reading makes progress**, over every table made by adding operators, from every cursor and under
every limit. An operand takes at least one token, or none if there is no operand. A chain is a loop of
passes: no pass is broken off, and each one that is not the last takes at least one token. So the
readers end, and the tokens that are left are a measure for this: each level that is open and each link
of a chain that is not over has taken one of its own, so that a limit with room for as many is never
reached. -/
theorem reading_progresses {T : OperatorTable} (hT : T.Built) (stuck : Bool) (limit : Nat) :
    (∀ s, EndsIn (T.countedOperand stuck limit) s (OperandTaken s)) ∧
    ∀ power after,
      (∀ links left, T.countedLinks stuck limit power after links left = (do
        match ← T.countedPass stuck limit power after left with
        | .ended => do
          leave links
          return left
        | .broken => do
          leave (links + 1)
          return left
        | .longer m => T.countedLinks stuck limit power after (links + 1) m)) ∧
      (∀ left s, EndsIn (T.countedPass stuck limit power after left) s (PassTaken s)) ∧
      (∀ s, EndsIn (T.countedSubterm stuck limit power after) s
        fun _ s' => Fewer s'.tokens s.tokens) ∧
      ∀ s, s.depth + s.tokens.length ≤ limit → ∀ t,
        (T.countedSubterm stuck limit power after).run s ≠
          some (.error (.fault (.refused .tooDeep t))) :=
  ⟨countedOperand_takes stuck limit, fun power after =>
    ⟨countedLinks_eq_passes stuck limit power after,
      countedPass_takes stuck limit power after hT, countedSubterm_takes stuck limit power after,
      countedSubterm_shallow stuck limit power after⟩⟩

/-- An operator before its operand may bind more weakly than any between operands. Behind a name it
starts an argument, so that the pass that meets it is not broken off. Four levels are enough for four
tokens. -/
theorem reading_progresses_weak_operator :
    let lift : Operator := ⟨"lift", .before, 1, "lift", none⟩
    let T : OperatorTable := ⟨standard.entries ++ [("lift", lift)]⟩
    let x : Token := ⟨.ident, "x", 0⟩
    let rest : List Token := [⟨.ident, "lift", 2⟩, ⟨.ident, "y", 7⟩, ⟨.ident, "z", 9⟩]
    let m : PlainTerm :=
      .call (.call (.named "x") (.call (.named "lift") (.named "y"))) (.named "z")
    T.Built ∧ Token.scan "x lift y z" = ⟨x :: rest, none⟩ ∧
      EndsIn (T.countedPass false 4 endPower false (.named "x")) ⟨0, rest⟩ (PassTaken ⟨0, rest⟩) ∧
      (∀ t, (T.countedSubterm false 4 endPower false).run ⟨0, x :: rest⟩ ≠
        some (.error (.fault (.refused .tooDeep t)))) ∧
      T.countedWhole 4 ⟨x :: rest, none⟩ = some (.ok m) := by
  intro lift T x rest m
  have hadd : standard.add lift = .ok T := by decide
  have hT : T.Built := .add built_standard hadd
  have htext : Token.scan "x lift y z" = ⟨x :: rest, none⟩ := by decide +kernel
  have hread : whole T 4 ⟨x :: rest, none⟩ = .ok m := by decide +kernel
  obtain ⟨-, hchain⟩ := reading_progresses hT false 4
  obtain ⟨-, hpass, -, hroom⟩ := hchain endPower false
  refine ⟨hT, htext, hpass (.named "x") ⟨0, rest⟩, hroom ⟨0, x :: rest⟩ (by decide), ?_⟩
  rw [countedWhole_eq, hread]
  rfl

end OperatorTable

end ProofKernel
