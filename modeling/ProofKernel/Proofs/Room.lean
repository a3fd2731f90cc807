import ProofKernel.Proofs.Readers

/-!
# Room

* `Parser.Cut`: what a reader gives with less room: the same, or that the nesting is too deep;
* `Parser.cuts`: one level of room less only cuts;
* `Parser.operand_cut`, `Parser.chain_cut`: so do any number of levels;
* `Term.parse_mono`: a term that is read is read again under every higher limit.
-/

namespace ProofKernel

namespace Parser

section Cut

variable {β γ : Type}

/-- With less room a reader gives the same, or that the nesting is too deep. -/
def Cut (x y : Except Fault β) : Prop := x = y ∨ ∃ t, x = .error (.refused .tooDeep t)

theorem Cut.refl (x : Except Fault β) : Cut x x := .inl rfl

theorem cut_tooDeep (t : Token) (y : Except Fault β) : Cut (.error (.refused .tooDeep t)) y :=
  .inr ⟨t, rfl⟩

theorem Cut.trans {x y z : Except Fault β} (h : Cut x y) (h' : Cut y z) : Cut x z := by
  rcases h with rfl | h
  · exact h'
  · exact .inr h

theorem Cut.bind {x y : Except Fault β} {f g : β → Except Fault γ} (h : Cut x y)
    (hfg : ∀ b, Cut (f b) (g b)) : Cut (x >>= f) (y >>= g) := by
  rcases h with rfl | ⟨t, rfl⟩
  · cases x with
    | error e => exact .refl _
    | ok b => exact hfg b
  · exact .inr ⟨t, rfl⟩

theorem Cut.ok {x y : Except Fault β} (h : Cut x y) {b : β} (hx : x = .ok b) : y = .ok b := by
  rcases h with rfl | ⟨t, rfl⟩
  · exact hx
  · cases hx

end Cut

/-! ## Readers made of readers -/

section Readers

variable (stuck : Bool)

theorem sequence_cut {o o' : Reader (Option PlainTerm)} {c c' : PlainTerm → Reader PlainTerm}
    (ho : ∀ ts, Cut (o ts) (o' ts)) (hc : ∀ m ts, Cut (c m ts) (c' m ts)) (ts : List Token) :
    Cut (sequence stuck o c ts) (sequence stuck o' c' ts) := by
  refine (ho ts).bind ?_
  intro b
  obtain ⟨m?, us⟩ := b
  cases m? with
  | some m => exact hc m us
  | none => exact .refl _

variable {inner inner' : Reader PlainTerm} (h : ∀ ts, Cut (inner ts) (inner' ts))

include h

theorem grouped_cut (ts : List Token) : Cut (grouped stuck inner ts) (grouped stuck inner' ts) :=
  (h ts).bind fun _ => .refl _

theorem body_cut (bound : Name) (ts : List Token) :
    Cut (body stuck inner bound ts) (body stuck inner' bound ts) :=
  (Cut.refl _).bind fun dot => (h dot.2).bind fun _ => .refl _

theorem abstraction_cut (ts : List Token) :
    Cut (abstraction stuck inner ts) (abstraction stuck inner' ts) := by
  cases ts with
  | nil => exact .refl _
  | cons bound ts =>
    rw [abstraction_cons, abstraction_cons]
    split
    next => exact body_cut stuck h bound.text ts
    next => exact .refl _

theorem bracketed_cut (T : OperatorTable) (opening : Token) (ts : List Token) :
    Cut (bracketed T stuck inner opening ts) (bracketed T stuck inner' opening ts) := by
  unfold bracketed
  split
  next =>
    split
    next =>
      split
      next => exact .refl _
      next => exact grouped_cut stuck h _
    next =>
      split
      next => exact .refl _
      next => exact grouped_cut stuck h _
  next =>
    split
    next => exact abstraction_cut stuck h ts
    next => exact .refl _

end Readers

/-! ## The two readers -/

/-- One level of room less only cuts what the two readers give. -/
structure Cuts (T : OperatorTable) (stuck : Bool) (n : Nat) : Prop where
  operand : ∀ ts, Cut (operand T stuck n ts) (operand T stuck (n + 1) ts)
  chain : ∀ p after left ts, Cut (chain T stuck n p after left ts)
    (chain T stuck (n + 1) p after left ts)

section Step

variable {T : OperatorTable} {stuck : Bool} {n : Nat}

theorem deeper_cut {β : Type} {t : Token} {f : Nat → Except Fault β}
    (h : ∀ k < n, Cut (f k) (f (k + 1))) : Cut (deeper t n f) (deeper t (n + 1) f) := by
  cases n with
  | zero => exact cut_tooDeep t _
  | succ n => exact h n (Nat.lt_succ_self n)

theorem Cuts.sequence (h : Cuts T stuck n) (p : Nat) (after : Bool) (ts : List Token) :
    Cut (sequence stuck (Parser.operand T stuck n) (Parser.chain T stuck n p after) ts)
      (sequence stuck (Parser.operand T stuck (n + 1)) (Parser.chain T stuck (n + 1) p after) ts) :=
  sequence_cut stuck h.operand (h.chain p after) ts

theorem Cuts.link (h : Cuts T stuck n) (p : Nat) (after : Bool) (left : PlainTerm) (t : Token)
    (ts : List Token) :
    Cut (link T stuck p after left t n ts) (link T stuck p after left t (n + 1) ts) := by
  refine (Cut.refl _).bind ?_
  intro ends
  split
  next => exact h.chain p after _ ts
  next => exact (h.sequence _ false ts).bind fun right => h.chain p after _ right.2

theorem Cuts.argument (h : Cuts T stuck n) (p : Nat) (after : Bool) (left : PlainTerm)
    (ts : List Token) :
    Cut (argument T stuck p after left n ts) (argument T stuck p after left (n + 1) ts) := by
  refine (h.operand ts).bind ?_
  rintro ⟨_ | arg, us⟩
  · exact .refl _
  · exact h.chain p after _ us

variable (ih : ∀ k < n, Cuts T stuck k)

include ih

theorem operand_step (ts : List Token) :
    Cut (operand T stuck n ts) (operand T stuck (n + 1) ts) := by
  cases ts with
  | nil =>
    rw [operand_nil, operand_nil]
    exact .refl _
  | cons t ts =>
    cases tokenCase t with
    | opening hkind =>
      rw [operand_opening hkind, operand_opening hkind]
      refine deeper_cut fun k hk => ?_
      exact (bracketed_cut stuck ((ih k hk).sequence endPower false) T t ts).bind fun _ => .refl _
    | closing hkind =>
      rw [operand_closing hkind, operand_closing hkind]
      exact .refl _
    | literal hkind =>
      rw [operand_ofLiteral hkind, operand_ofLiteral hkind]
      exact .refl _
    | name hname =>
      have hoperation : ∀ op, Cut (deeper t n fun k => operation T stuck op k ts)
          (deeper t (n + 1) fun k => operation T stuck op k ts) := fun op =>
        deeper_cut fun k hk => ((ih k hk).sequence beforePower true ts).bind fun _ => .refl _
      rw [operand_word hname, operand_word hname]
      split
      next => exact hoperation _
      next =>
        split
        next =>
          unfold minus
          split
          next => exact .refl _
          next =>
            split
            next => exact .refl _
            next => exact hoperation _
        next => exact .refl _

theorem chain_step (p : Nat) (after : Bool) (left : PlainTerm) (ts : List Token) :
    Cut (chain T stuck n p after left ts) (chain T stuck (n + 1) p after left ts) := by
  cases ts with
  | nil =>
    rw [chain_nil, chain_nil]
    exact .refl _
  | cons t ts =>
    rw [chain_cons, chain_cons]
    split
    next => exact .refl _
    next =>
      refine deeper_cut fun k hk => ?_
      split
      next => exact (ih k hk).link p after left t ts
      next => exact (ih k hk).argument p after left (t :: ts)

end Step

/-- **One level of room less only cuts**, by induction on the room. -/
theorem cuts (T : OperatorTable) (stuck : Bool) (n : Nat) : Cuts T stuck n := by
  induction n using Nat.strongRecOn with
  | _ n ih => exact ⟨operand_step ih, chain_step ih⟩

variable {T : OperatorTable} {stuck : Bool}

theorem operand_cut {n m : Nat} (h : n ≤ m) (ts : List Token) :
    Cut (operand T stuck n ts) (operand T stuck m ts) := by
  induction h with
  | refl => exact .refl _
  | step _ ih => exact ih.trans ((cuts T stuck _).operand ts)

theorem chain_cut {n m : Nat} (h : n ≤ m) (p : Nat) (after : Bool) (left : PlainTerm)
    (ts : List Token) :
    Cut (chain T stuck n p after left ts) (chain T stuck m p after left ts) := by
  induction h with
  | refl => exact .refl _
  | step _ ih => exact ih.trans ((cuts T stuck _).chain p after left ts)

/-- **Less room only cuts.** -/
theorem whole_cut {n m : Nat} (h : n ≤ m) (stream : TokenStream) :
    Cut (whole T n stream) (whole T m stream) :=
  (sequence_cut _ (operand_cut h) (chain_cut h endPower false) stream.tokens).bind fun _ => .refl _

end Parser

namespace Term

theorem parse_eq_ok {T : OperatorTable} {limit : Nat} {text : String} {m : PlainTerm} :
    parse T limit text = .ok m ↔ Parser.whole T limit (Token.scan text) = .ok m := by
  show (Parser.whole T limit (Token.scan text)).mapError _ = .ok m ↔ _
  cases Parser.whole T limit (Token.scan text) with
  | error e => exact ⟨nofun, nofun⟩
  | ok r => exact ⟨fun h => by cases h; rfl, fun h => by cases h; rfl⟩

/-- A term that is read is read again under every higher limit. -/
theorem parse_mono {T : OperatorTable} {limit limit' : Nat} {text : String} {m : PlainTerm}
    (h : parse T limit text = .ok m) (hle : limit ≤ limit') : parse T limit' text = .ok m :=
  parse_eq_ok.2 ((Parser.whole_cut hle _).ok (parse_eq_ok.1 h))

end Term

end ProofKernel
