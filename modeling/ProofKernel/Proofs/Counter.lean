import ProofKernel.Proofs.ErrorPlaces
import ProofKernel.Term.Counter

/-!
# The counter of open levels

* `Parser.Follows`: a reading with a counter that ends, as a reader of tokens does from there, and that
  leaves the counter at a given depth;
* `Parser.counts`: the readers with a counter do what those with room do, and give back every level
  that they open;
* `Parser.Balanced`: readings that never lower the counter below zero and bring it back to where it was;
* `Term.parse_limit`: what a limit does not refuse for its depth is the same under every higher limit.
-/

namespace ProofKernel

namespace Parser

/-! ## Readings that follow a reader of tokens -/

/-- A result of a reader of tokens, with the counter at a depth. -/
def atDepth (d : Nat) {β : Type} : Except Fault (β × List Token) → Except Halt (β × Cursor)
  | .ok (b, ts) => .ok (b, ⟨d, ts⟩)
  | .error f => .error (.fault f)

/-- A reading from the depth `d` ends, with the result of a reader of tokens, and at the depth `d'` if
it gives one. -/
def Follows {β : Type} (x : Counted β) (d : Nat) (ts : List Token) (d' : Nat)
    (y : Except Fault (β × List Token)) : Prop :=
  x.run ⟨d, ts⟩ = some (atDepth d' y)

section Follows

variable {β γ : Type} {x : Counted β} {f : β → Counted γ} {d d' d'' : Nat} {ts : List Token}

theorem run_bind (x : Counted β) (f : β → Counted γ) (s : Cursor) :
    (x >>= f).run s = ExceptT.bind (x.run s) fun p => (f p.1).run p.2 := rfl

theorem run_uncounted (f : Reader β) (s : Cursor) : (uncounted f).run s =
    match f s.tokens with
    | .ok (b, ts) => pure (b, { s with tokens := ts })
    | .error e => throw (.fault e) := rfl

theorem run_look (f : List Token → Except Fault β) (s : Cursor) : (look f).run s =
    match f s.tokens with
    | .ok b => pure (b, s)
    | .error e => throw (.fault e) := rfl

theorem follows_pure (b : β) : Follows (pure b) d ts d (.ok (b, ts)) := rfl

theorem follows_throw (e : Fault) : Follows (throw (.fault e) : Counted β) d ts d' (.error e) := rfl

theorem Follows.bind_ok {b : β} {us : List Token} {y : Except Fault (γ × List Token)}
    (h : Follows x d ts d' (.ok (b, us))) (hf : Follows (f b) d' us d'' y) :
    Follows (x >>= f) d ts d'' y := by
  unfold Follows at h ⊢
  rw [run_bind, h]
  exact hf

theorem Follows.bind_error {e : Fault} (h : Follows x d ts d' (.error e)) :
    Follows (x >>= f) d ts d'' (.error e) := by
  unfold Follows at h ⊢
  rw [run_bind, h]
  rfl

theorem Follows.bind {y : Except Fault (β × List Token)}
    {g : β × List Token → Except Fault (γ × List Token)} (h : Follows x d ts d' y)
    (hf : ∀ b us, Follows (f b) d' us d'' (g (b, us))) : Follows (x >>= f) d ts d'' (y >>= g) := by
  cases y with
  | error e => exact h.bind_error
  | ok b => exact h.bind_ok (hf b.1 b.2)

theorem follows_uncounted (f : Reader β) : Follows (uncounted f) d ts d (f ts) := by
  unfold Follows
  rw [run_uncounted]
  cases f ts <;> rfl

theorem follows_look {g : List Token → Except Fault β} {k : β → Counted γ}
    {y : β → Except Fault (γ × List Token)}
    (h : ∀ b, g ts = .ok b → Follows (k b) d ts d' (y b)) :
    Follows (look g >>= k) d ts d' (g ts >>= y) := by
  have hlook : (look g).run ⟨d, ts⟩ = some (atDepth d (g ts >>= fun b => .ok (b, ts))) := by
    rw [run_look]
    cases g ts <;> rfl
  cases hg : g ts with
  | error e =>
    rw [hg] at hlook
    exact Follows.bind_error hlook
  | ok b =>
    rw [hg] at hlook
    exact Follows.bind_ok hlook (h b hg)

end Follows

/-! ## Levels -/

section Levels

variable {β : Type} {f : Unit → Counted β} {limit d d' : Nat} {t : Token} {ts : List Token}

theorem run_enter (s : Cursor) : (enter limit t).run s =
    if limit < s.depth + 1 then throw (.fault (.refused .tooDeep t))
    else pure ((), { s with depth := s.depth + 1 }) := rfl

theorem run_leave (n : Nat) (s : Cursor) : (leave n).run s =
    if s.depth < n then throw .underflow else pure ((), { s with depth := s.depth - n }) := rfl

/-- Opening a level takes one of those that the limit leaves. -/
theorem follows_enter {g : Nat → Except Fault (β × List Token)}
    (h : ∀ k, limit - d = k + 1 → Follows (f ()) (d + 1) ts d' (g k)) :
    Follows (enter limit t >>= f) d ts d' (deeper t (limit - d) g) := by
  unfold Follows
  rw [run_bind, run_enter]
  by_cases hlimit : limit < d + 1
  · have hroom : limit - d = 0 := by omega
    rw [if_pos hlimit, hroom]
    rfl
  · obtain ⟨k, hk⟩ : ∃ k, limit - d = k + 1 := ⟨limit - d - 1, by omega⟩
    rw [if_neg hlimit, hk]
    exact h k hk

/-- Closing levels that are open. -/
theorem follows_leave {n : Nat} {y : Except Fault (β × List Token)}
    (h : Follows (f ()) d ts d' y) : Follows (leave n >>= f) (d + n) ts d' y := by
  unfold Follows
  rw [run_bind, run_leave, if_neg (by simp), Nat.add_sub_cancel]
  exact h

end Levels

/-! ## Tokens that are looked at -/

section Tokens

variable {β : Type} {stuck : Bool} {d d' : Nat} {t : Token} {ts us : List Token}
  {y : Except Fault (β × List Token)}

theorem follows_next {f : Token → Counted β} (h : Follows (f t) d ts d' y) :
    Follows (uncounted (next stuck) >>= f) d (t :: ts) d' y :=
  (follows_uncounted (next stuck)).bind_ok h

variable {f : Option Token → Counted β} {n : Nat}

theorem follows_ahead_some (ht : ts.drop n = t :: us) (h : Follows (f (some t)) d ts d' y) :
    Follows (ahead stuck n >>= f) d ts d' y := by
  have hahead : Follows (ahead stuck n >>= f) d ts d' (peek stuck (ts.drop n) >>= fun _ => y) := by
    refine follows_look ?_
    rw [ht]
    rintro _ ⟨⟩
    exact h
  rwa [ht] at hahead

theorem follows_ahead_none (ht : ts.drop n = []) (h : stuck = false → Follows (f none) d ts d' y) :
    Follows (ahead stuck n >>= f) d ts d' (if stuck then .error .stuck else y) := by
  have hahead : Follows (ahead stuck n >>= f) d ts d' (peek stuck (ts.drop n) >>= fun _ => y) := by
    refine follows_look ?_
    rw [ht]
    cases stuck with
    | true => exact nofun
    | false =>
      rintro _ ⟨⟩
      exact h rfl
  rw [ht] at hahead
  cases stuck <;> exact hahead

end Tokens

/-! ## The readers -/

/-- With a limit that leaves so many levels, the two readers with a counter do what those with room for
as many levels do. The links of a chain are counted from where it began. -/
structure Counts (T : OperatorTable) (stuck : Bool) (limit n : Nat) : Prop where
  operand : ∀ d ts, limit - d = n →
    Follows (T.countedOperand stuck limit) d ts d (operand T stuck n ts)
  links : ∀ p after c d (left : PlainTerm) ts, limit - (d + c) = n →
    Follows (T.countedLinks stuck limit p after c left) (d + c) ts d
      (chain T stuck n p after left ts)

section Step

variable {T : OperatorTable} {stuck : Bool} {limit n d : Nat}

theorem Counts.sequence (h : Counts T stuck limit n) (hd : limit - d = n) (p : Nat) (after : Bool)
    (ts : List Token) : Follows (T.countedSubterm stuck limit p after) d ts d
      (sequence stuck (Parser.operand T stuck n) (Parser.chain T stuck n p after) ts) := by
  rw [OperatorTable.countedSubterm]
  refine (h.operand d ts hd).bind ?_
  intro m? us
  cases m? with
  | some left => exact h.links p after 0 d left us hd
  | none =>
    cases us with
    | nil =>
      cases stuck <;>
        exact follows_ahead_none (y := .error .ended) rfl fun _ => follows_throw .ended
    | cons t us => exact follows_ahead_some rfl (follows_throw _)

section Brackets

variable {inner : Reader PlainTerm}
  (hinner : ∀ ts, Follows (T.countedSubterm stuck limit endPower false) d ts d (inner ts))

include hinner

theorem follows_grouped (ts : List Token) : Follows (do
    let m ← T.countedSubterm stuck limit endPower false
    uncounted (expect stuck .closing ")")
    return m) d ts d (grouped stuck inner ts) :=
  (hinner ts).bind fun m _ => (follows_uncounted _).bind fun _ _ => follows_pure m

theorem follows_body (bound : Name) (ts : List Token) : Follows (do
    uncounted (expect stuck .symbol ".")
    let m ← T.countedSubterm stuck limit endPower false
    uncounted (expect stuck .closing "\x7d")
    return .lambda bound m) d ts d (body stuck inner bound ts) :=
  (follows_uncounted _).bind fun _ us => (hinner us).bind fun m _ =>
    (follows_uncounted _).bind fun _ _ => follows_pure (Term.lambda bound m)

/-- What an opening bracket encloses is read after it. -/
theorem countedBracket_follows (opening : Token) (ts : List Token) :
    Follows (T.countedBracket stuck limit opening) d ts d
      (next stuck ts >>= fun b => bracketed T stuck inner opening b.2) := by
  rw [OperatorTable.countedBracket]
  refine (follows_uncounted (next stuck)).bind ?_
  intro _ us
  by_cases hround : opening.text = "("
  · rw [if_pos hround, bracketed_parenthesis _ hround]
    have hgrouped := follows_grouped hinner us
    match us with
    | [] =>
      refine follows_ahead_none rfl ?_
      rintro rfl
      exact follows_ahead_none rfl fun _ => hgrouped
    | [op] => exact follows_ahead_some rfl (follows_ahead_none rfl fun _ => hgrouped)
    | op :: close :: us =>
      refine follows_ahead_some rfl (follows_ahead_some rfl ?_)
      by_cases hlone : (isBareOperator T op && close.text == ")") = true
      · simp only [loneOperator?, hlone, if_true]
        exact follows_next (follows_next (follows_pure _))
      · simp only [loneOperator?, hlone]
        exact hgrouped
  · rw [if_neg hround]
    unfold bracketed
    rw [if_neg hround]
    split
    next =>
      cases us with
      | nil => exact (follows_uncounted (next stuck)).bind_error
      | cons bound us =>
        rw [abstraction_cons]
        refine follows_next ?_
        split
        next => exact follows_body hinner bound.text us
        next => exact follows_throw _
    next => exact follows_throw _

end Brackets

/-- What takes a level is followed by closing it. -/
theorem level_follows {β γ : Type} {x : Counted β} {f : β → γ}
    {g : Nat → Except Fault (β × List Token)} {t : Token} {ts : List Token} (hd : limit - d = n)
    (h : ∀ k, n = k + 1 → Follows x (d + 1) ts (d + 1) (g k)) : Follows (do
      enter limit t
      let b ← x
      leave 1
      return f b) d ts d (deeper t n fun k => g k >>= fun b => .ok (f b.1, b.2)) := by
  subst hd
  refine follows_enter fun k hk => (h k hk).bind ?_
  intro b us
  exact follows_leave (follows_pure (f b))

variable (ih : ∀ k < n, Counts T stuck limit k)

include ih

theorem countedOperation_follows (hd : limit - d = n) (op : PlainTerm) (t : Token)
    (ts : List Token) : Follows (T.countedOperation stuck limit op t) d ts d
      (deeper t n fun k => operation T stuck op k ts) := by
  rw [OperatorTable.countedOperation]
  refine level_follows hd fun k hk => ?_
  exact (ih k (by omega)).sequence (by omega) beforePower true ts

theorem countedWord_follows (hd : limit - d = n) {t : Token} (hname : IsName t) (ts : List Token) :
    Follows (T.countedWord stuck limit t) d (t :: ts) d (operand T stuck n (t :: ts)) := by
  rw [OperatorTable.countedWord, operand_word hname]
  split
  next => exact follows_next (countedOperation_follows ih hd _ t ts)
  next =>
    split
    next =>
      refine follows_next ?_
      have hnegation := countedOperation_follows ih hd (.named "neg") t ts
      unfold minus
      cases ts with
      | nil =>
        simp only [adjacentNumber, List.isEmpty_nil, Bool.true_and]
        exact follows_ahead_none rfl fun _ => hnegation
      | cons u us =>
        refine follows_ahead_some rfl ?_
        by_cases hnumber : u.kind = .number ∧ u.offset = t.offset + 1
        · simp only [adjacentNumber, hnumber, and_self, if_true, Option.filter, decide_true]
          exact follows_next (follows_pure _)
        · simp only [adjacentNumber, hnumber, if_false, Option.filter, decide_false]
          exact hnegation
    next =>
      split
      next => exact follows_next (follows_pure _)
      next => exact follows_pure none

theorem countedOperand_follows (hd : limit - d = n) (ts : List Token) :
    Follows (T.countedOperand stuck limit) d ts d (operand T stuck n ts) := by
  rw [OperatorTable.countedOperand]
  cases ts with
  | nil =>
    rw [operand_nil]
    exact follows_ahead_none rfl fun _ => follows_pure none
  | cons t us =>
    refine follows_ahead_some rfl ?_
    cases tokenCase t with
    | opening hkind =>
      rw [operand_opening hkind]
      simp only [hkind]
      refine level_follows hd fun k hk => ?_
      exact countedBracket_follows
        ((ih k (by omega)).sequence (by omega) endPower false) t (t :: us)
    | closing hkind =>
      rw [operand_closing hkind]
      simp only [hkind]
      exact follows_pure none
    | literal hkind =>
      rw [operand_ofLiteral hkind]
      rcases hkind with hkind | hkind <;> simp only [hkind] <;>
        exact follows_next (follows_pure _)
    | name hname =>
      have hword := countedWord_follows ih hd hname us
      rcases hname with hkind | hkind <;> simp only [hkind] <;> exact hword

theorem countedLinks_follows {p : Nat} {after : Bool} {c : Nat} (hd : limit - (d + c) = n)
    (left : PlainTerm) (ts : List Token) :
    Follows (T.countedLinks stuck limit p after c left) (d + c) ts d
      (chain T stuck n p after left ts) := by
  have hstop : ∀ us : List Token, Follows (do
      leave c
      return left) (d + c) us d (.ok (left, us)) := fun us => follows_leave (follows_pure left)
  rw [OperatorTable.countedLinks]
  cases ts with
  | nil =>
    rw [chain_nil]
    exact follows_ahead_none rfl fun _ => hstop []
  | cons t us =>
    rw [chain_cons]
    refine follows_ahead_some rfl ?_
    dsimp only
    split
    next => exact hstop (t :: us)
    next =>
      -- The link takes one level, which stays open for what comes after it in the chain.
      subst hd
      refine follows_enter fun k hk => ?_
      have hk' : k < limit - (d + c) := by omega
      have hd' : limit - (d + (c + 1)) = k := by omega
      have hlinks := fun left vs => (ih k hk').links p after (c + 1) d left vs hd'
      split
      next =>
        refine follows_next (follows_look ?_)
        intro ends _
        split
        next => exact hlinks _ us
        next =>
          refine ((ih k hk').sequence hd' _ false us).bind ?_
          intro right vs
          exact hlinks _ vs
      next =>
        refine ((ih k hk').operand (d + c + 1) (t :: us) hd').bind ?_
        intro arg? vs
        cases arg? with
        | some arg => exact hlinks _ vs
        | none => exact follows_leave (follows_pure left)

end Step

/-- **The counter counts the levels that are open**, by induction on the room. -/
theorem counts (T : OperatorTable) (stuck : Bool) (limit n : Nat) : Counts T stuck limit n := by
  induction n using Nat.strongRecOn with
  | _ n ih =>
    exact ⟨fun d ts hd => countedOperand_follows ih hd ts,
      fun p after c d left ts hd => countedLinks_follows ih hd left ts⟩

/-! ## Balance -/

/-- **Balanced readings.** From every cursor they end, never lower the counter below zero, and bring it
back to where it was if they give a result. -/
def Balanced {β : Type} (x : Counted β) : Prop :=
  ∀ s, ∃ r, x.run s = some r ∧ r ≠ .error .underflow ∧
    ∀ b s', r = .ok (b, s') → s'.depth = s.depth

theorem balanced_of_follows {β : Type} {x : Counted β} {y : Nat → Reader β}
    (h : ∀ d ts, Follows x d ts d (y d ts)) : Balanced x := by
  intro s
  refine ⟨_, h s.depth s.tokens, ?_, ?_⟩
  · cases y s.depth s.tokens <;> exact nofun
  · intro b s' hr
    cases hy : y s.depth s.tokens with
    | error e =>
      rw [hy] at hr
      cases hr
    | ok b =>
      rw [hy] at hr
      cases hr
      rfl

section Balance

variable (T : OperatorTable) (stuck : Bool) (limit : Nat)

theorem countedOperand_balanced : Balanced (T.countedOperand stuck limit) :=
  balanced_of_follows fun d ts => (counts T stuck limit _).operand d ts rfl

theorem countedSubterm_follows (p : Nat) (after : Bool) (d : Nat) (ts : List Token) :
    Follows (T.countedSubterm stuck limit p after) d ts d
      (sequence stuck (operand T stuck (limit - d)) (chain T stuck (limit - d) p after) ts) :=
  (counts T stuck limit _).sequence rfl p after ts

theorem countedSubterm_balanced (p : Nat) (after : Bool) :
    Balanced (T.countedSubterm stuck limit p after) :=
  balanced_of_follows (countedSubterm_follows T stuck limit p after)

theorem countedBracket_balanced (opening : Token) :
    Balanced (T.countedBracket stuck limit opening) :=
  balanced_of_follows fun d =>
    countedBracket_follows (countedSubterm_follows T stuck limit endPower false d) opening

theorem countedLinks_balanced (p : Nat) (after : Bool) (left : PlainTerm) :
    Balanced (T.countedLinks stuck limit p after 0 left) :=
  balanced_of_follows fun d ts => (counts T stuck limit _).links p after 0 d left ts rfl

/-- Reading with a counter is reading with room for as many levels as the limit has. -/
theorem countedWhole_eq (stream : TokenStream) : T.countedWhole limit stream =
    some ((whole T limit stream).mapError .fault) := by
  have hread : Follows (do
      let m ← T.countedSubterm stream.stuck.isSome limit endPower false
      look (finish stream.stuck.isSome)
      return m) 0 stream.tokens 0 (subterm T stream.stuck.isSome limit endPower stream.tokens >>=
        fun b => finish stream.stuck.isSome b.2 >>= fun _ => .ok b) := by
    refine (countedSubterm_follows T _ limit endPower false 0 stream.tokens).bind ?_
    intro m us
    exact follows_look fun _ _ => follows_pure m
  unfold OperatorTable.countedWhole
  dsimp only
  rw [StateT.run'_eq, hread]
  unfold whole
  cases subterm T stream.stuck.isSome limit endPower stream.tokens with
  | error e => rfl
  | ok b =>
    obtain ⟨m, us⟩ := b
    show Prod.fst <$> (show ExceptT Halt Option (PlainTerm × Cursor) from some (atDepth 0
      (finish stream.stuck.isSome us >>= fun _ => .ok (m, us)))) =
        some ((finish stream.stuck.isSome us >>= fun _ => .ok m).mapError .fault)
    cases finish stream.stuck.isSome us <;> rfl

end Balance

end Parser

/-- **The limit only cuts.** A text that is read under a limit is read as the same term, with the names
as shown, under every higher one, and an error that is not one of nesting too deeply is the same error
at the same place. The counter of open levels with which a limit is kept is never lowered below zero
and is back where it was after every operand, bracket and chain that is read; and reading with it is
reading. -/
theorem Term.parse_limit (T : OperatorTable) (text : String) {limit limit' : Nat}
    (hle : limit ≤ limit') :
    (∀ m, parse T limit text = .ok m → parse T limit' text = .ok m) ∧
    (∀ e, parse T limit text = .error e → (∀ place, e ≠ .refused .tooDeep place) →
      parse T limit' text = .error e) ∧
    T.countedWhole limit (Token.scan text) =
      some ((Parser.whole T limit (Token.scan text)).mapError .fault) ∧
    ∀ stuck, Parser.Balanced (T.countedOperand stuck limit) ∧
      (∀ opening, Parser.Balanced (T.countedBracket stuck limit opening)) ∧
      ∀ p after, Parser.Balanced (T.countedSubterm stuck limit p after) ∧
        ∀ left, Parser.Balanced (T.countedLinks stuck limit p after 0 left) := by
  refine ⟨fun m hm => parse_mono hm hle, fun e he hdeep => ?_, Parser.countedWhole_eq T limit _,
    fun stuck => ⟨Parser.countedOperand_balanced T stuck limit,
      Parser.countedBracket_balanced T stuck limit, fun p after =>
        ⟨Parser.countedSubterm_balanced T stuck limit p after,
          Parser.countedLinks_balanced T stuck limit p after⟩⟩⟩
  obtain ⟨f, hf, rfl⟩ := parse_eq_error_iff.1 he
  rcases Parser.whole_cut hle (Token.scan text) with hsame | ⟨t, ht⟩
  · exact parse_eq_error_iff.2 ⟨f, hsame ▸ hf, rfl⟩
  · rw [hf] at ht
    cases ht
    exact absurd rfl (hdeep _)

/-- A term of three levels and an error on the third, which three levels and more of them do not
change, and the counter on the way to it. -/
theorem Term.parse_limit_three :
    let T := OperatorTable.standard
    let m : PlainTerm := call (named "f") (callBetween (named "x") (named "+") (named "y"))
    let times : Excerpt := ⟨⟨"<input>", "f (x + *)"⟩, 7, 8⟩
    3 ≤ 512 ∧
      (parse T 3 "f (x + y)" = .ok m ∧ parse T 512 "f (x + y)" = .ok m) ∧
      (parse T 3 "f (x + *)" = .error (.refused .expectedTerm times) ∧
        parse T 512 "f (x + *)" = .error (.refused .expectedTerm times)) ∧
      T.countedWhole 3 (Token.scan "f (x + y)") = some (.ok m) := by
  intro T m times
  have hterm : parse T 3 "f (x + y)" = .ok m := by decide +kernel
  have herror : parse T 3 "f (x + *)" = .error (.refused .expectedTerm times) := by decide +kernel
  have hle : 3 ≤ 512 := by decide
  have hcounted := (parse_limit T "f (x + y)" hle).2.2.1
  rw [parse_eq_ok.1 hterm] at hcounted
  exact ⟨hle, ⟨hterm, (parse_limit T _ hle).1 m hterm⟩,
    ⟨herror, (parse_limit T _ hle).2.1 _ herror fun _ => nofun⟩, hcounted⟩

end ProofKernel
