import ProofKernel.Proofs.ErrorPlaces
import ProofKernel.Proofs.Levels

/-!
# Texts that end too early

Where reading fails at the end of a text, the text is the beginning of one that is read, with the same
table and no more room.

* `Parser.Completable`: rows that some words complete;
* `Parser.Extends`, `Parser.GoesOn`: readers that give the same when tokens are added, and that get
  to the end of a completed row;
* `Parser.readsOn`: the two readers are such readers;
* `Term.parse_completes`: so a text at whose end reading fails can be completed.
-/

namespace ProofKernel

open ProofKernel.Parser ProofKernel.Token

/-! ## Words behind a text -/

namespace Parser

/-- Tokens of given texts, each a word of its kind. -/
def Spelled (words : List String) (ts : List Token) : Prop := Lexed ts ∧ ts.map Token.text = words

/-- Words set apart by blanks are read as tokens of these texts. -/
theorem scans_spreadTexts {words : List String} (h : ∀ word ∈ words, (kind? word).isSome) :
    Scans (spreadTexts words).toList (Spelled words) := by
  induction words with
  | nil =>
    refine scans_nil.mono ?_
    rintro _ rfl
    exact ⟨nofun, rfl⟩
  | cons word words ih =>
    obtain ⟨hword, hwords⟩ := List.forall_mem_cons.1 h
    obtain ⟨kind, hkind⟩ := Option.isSome_iff_exists.1 hword
    rw [spreadTexts_cons]
    refine ((scans_word hkind).blank.append (ih hwords) fun rest hrest =>
      apart_spreadTexts words hrest).mono ?_
    rintro _ ⟨_, us, ⟨offset, rfl⟩, ⟨hlexed, htexts⟩, rfl⟩
    exact ⟨List.forall_mem_cons.2 ⟨hkind, hlexed⟩, congrArg (word :: ·) htexts⟩

/-- Words set apart behind a text add tokens of their own. -/
theorem scan_spreadTexts {text : String} (h : (scan text).stuck = none) {words : List String}
    (hwords : ∀ word ∈ words, (kind? word).isSome) :
    ∃ us, Spelled words us ∧
      scan (text ++ spreadTexts words) = ⟨(scan text).tokens ++ us, none⟩ := by
  obtain ⟨us, hus, hscan⟩ := scans_spreadTexts hwords (0 + Text.byteSize text.toList) [] nofun
  rw [List.append_nil, scanFrom_nil, List.append_nil] at hscan
  refine ⟨us, hus, ?_⟩
  have hapart : Apart ((spreadTexts words).toList ++ []) := apart_spreadTexts words apart_nil
  rw [List.append_nil] at hapart
  rw [scan, String.toList_append, scanFrom_append hapart.not_continues h, hscan]
  rfl

/-! ## Rows that words complete -/

/-- Some words complete a row: wherever a term ends behind them, a reader of the whole row gets to
there. -/
def Completable (ts : List Token) (P : List Token → List Token → Prop) : Prop :=
  ∃ words, (∀ word ∈ words, (kind? word).isSome) ∧
    ∀ us rest, Spelled words us → Closes rest → P (ts ++ (us ++ rest)) rest

section Completable

variable {ts us : List Token} {P Q : List Token → List Token → Prop}

/-- No words at all. -/
theorem completable_nil : Completable [] fun row rest => row = rest := by
  refine ⟨[], nofun, ?_⟩
  rintro us rest ⟨-, hus⟩ -
  rw [List.map_eq_nil_iff.1 hus]
  rfl

/-- The same words complete a row that goes on in the same way. -/
theorem Completable.map (h : Completable us P) (hPQ : ∀ tail rest, Closes rest →
    P (us ++ tail) rest → Q (ts ++ tail) rest) : Completable ts Q := by
  obtain ⟨words, hwords, hcompletes⟩ := h
  exact ⟨words, hwords, fun vs rest hvs hrest => hPQ _ rest hrest (hcompletes vs rest hvs hrest)⟩

/-- One more word before the others. -/
theorem Completable.word {word : String} {kind : TokenKind} (hword : kind? word = some kind)
    (h : Completable [] P) (hPQ : ∀ offset row rest, Closes rest → P row rest →
      Q (ts ++ ⟨kind, word, offset⟩ :: row) rest) : Completable ts Q := by
  obtain ⟨words, hwords, hcompletes⟩ := h
  refine ⟨word :: words, List.forall_mem_cons.2 ⟨by simp [hword], hwords⟩, ?_⟩
  rintro us rest ⟨hlexed, htexts⟩ hrest
  cases us with
  | nil => cases htexts
  | cons t us =>
    obtain ⟨rfl, hmap⟩ := List.cons_eq_cons.1 htexts
    obtain ⟨ht, hlexed⟩ := List.forall_mem_cons.1 hlexed
    rw [hword, Option.some.injEq] at ht
    subst ht
    exact hPQ t.offset (us ++ rest) rest hrest (hcompletes us rest ⟨hlexed, hmap⟩ hrest)

/-- A closing bracket behind the others. -/
theorem Completable.close {text : String} (htext : kind? text = some .closing)
    (h : Completable ts P) (hPQ : ∀ offset row rest,
      P row (⟨.closing, text, offset⟩ :: rest) → Q row rest) : Completable ts Q := by
  obtain ⟨words, hwords, hcompletes⟩ := h
  refine ⟨words ++ [text], ?_, ?_⟩
  · intro word hword
    rcases List.mem_append.1 hword with hword | hword
    · exact hwords word hword
    · simp [List.mem_singleton.1 hword, htext]
  · rintro us rest ⟨hlexed, htexts⟩ -
    obtain ⟨vs, ws, rfl, hvs, hws⟩ := List.map_eq_append_iff.1 htexts
    obtain ⟨t, rfl, rfl⟩ : ∃ t, ws = [t] ∧ t.text = text := by
      cases ws with
      | nil => cases hws
      | cons t ws =>
        obtain ⟨ht, hws⟩ := List.cons_eq_cons.1 hws
        exact ⟨t, by rw [List.map_eq_nil_iff.1 hws], ht⟩
    obtain ⟨hvs', ht⟩ := List.forall_mem_append.1 hlexed
    have hkind := List.forall_mem_singleton.1 ht
    rw [htext, Option.some.injEq] at hkind
    rw [List.append_assoc, List.singleton_append]
    refine hPQ t.offset _ rest ?_
    rw [hkind]
    exact hcompletes vs _ ⟨hvs', hvs⟩ (closes_cons hkind.symm)

end Completable

/-! ## Readers -/

/-- A reader gives the same when tokens are added. Where it takes all tokens, those that are added
must end a term. -/
def Extends {β : Type} (f : Reader β) : Prop :=
  ∀ ts b us rest, f ts = .ok (b, us) → (us = [] → Closes rest) → f (ts ++ rest) = .ok (b, us ++ rest)

/-- A reader of a row gets to what is left of it, with a result of a kind. -/
def Gives {β : Type} (f : Reader β) (P : β → Prop) (row rest : List Token) : Prop :=
  ∃ b, P b ∧ f row = .ok (b, rest)

/-- A reader gives the same when tokens are added, and rows at whose end it fails can be completed. -/
structure GoesOn {β : Type} (f : Reader β) (P : β → Prop) : Prop where
  more : Extends f
  ended : ∀ ts, f ts = .error .ended → Completable ts (Gives f P)

section GoesOn

variable {β γ : Type} {P : β → Prop} {Q : γ → Prop}

theorem goesOn_ok {b : β} : GoesOn (fun ts => .ok (b, ts)) P := by
  refine ⟨?_, fun ts h => nomatch h⟩
  rintro ts _ _ rest ⟨⟩ -
  rfl

theorem goesOn_refused (cause : ParseCause) (t : Token) :
    GoesOn (fun _ => .error (.refused cause t)) P := by
  refine ⟨?_, fun ts h => nomatch h⟩
  intro ts b us rest h
  cases h

/-- A token that stays. -/
theorem goesOn_stay {b : β} (t : Token) : GoesOn (fun ts => .ok (b, t :: ts)) P := by
  refine ⟨?_, fun ts h => nomatch h⟩
  rintro ts _ _ rest ⟨⟩ -
  rfl

/-- Rows that begin with a token. -/
theorem GoesOn.cons {f : Reader β} (h : GoesOn f P) (t : Token) : GoesOn (fun ts => f (t :: ts)) P :=
  ⟨fun ts => h.more (t :: ts), fun ts hts => (h.ended (t :: ts) hts).map fun _ _ _ hgives => hgives⟩

theorem deeper_goesOn {t : Token} {n : Nat} {f : Nat → Reader β} (h : ∀ k < n, GoesOn (f k) P) :
    GoesOn (fun ts => deeper t n fun k => f k ts) P := by
  cases n with
  | zero => exact goesOn_refused .tooDeep t
  | succ n => exact h n (Nat.lt_succ_self n)

/-- A reader of rows with a first token. -/
theorem goesOn_of_cons {f : Reader β} (hnil : ∀ b, f [] ≠ .ok b)
    (hended : f [] = .error .ended → Completable [] (Gives f P))
    (h : ∀ t, GoesOn (fun ts => f (t :: ts)) P) : GoesOn f P := by
  constructor
  · intro ts b us rest hb hrest
    cases ts with
    | nil => exact absurd hb (hnil _)
    | cons t ts => exact (h t).more ts b us rest hb hrest
  · intro ts hts
    cases ts with
    | nil => exact hended hts
    | cons t ts => exact ((h t).ended ts hts).map fun _ _ _ hgives => hgives

/-- A reader that gives a result where a term ends. -/
theorem goesOn_of_closes {f : Reader β} {b : β} (hcloses : ∀ rest, Closes rest → f rest = .ok (b, rest))
    (h : ∀ t, GoesOn (fun ts => f (t :: ts)) P) : GoesOn f P := by
  have hnil : f [] = .ok (b, []) := hcloses [] closes_nil
  constructor
  · intro ts b' us rest hb hrest
    cases ts with
    | nil =>
      rw [hnil] at hb
      cases hb
      exact hcloses rest (hrest rfl)
    | cons t ts => exact (h t).more ts b' us rest hb hrest
  · intro ts hts
    cases ts with
    | nil => simp [hnil] at hts
    | cons t ts => exact ((h t).ended ts hts).map fun _ _ _ hgives => hgives

theorem Extends.bind {f : Reader β} {g : β → Reader γ} (hf : Extends f) (hg : ∀ b, Extends (g b))
    (hnil : ∀ b c us, g b [] = .ok (c, us) → us = []) :
    Extends fun ts => f ts >>= fun b => g b.1 b.2 := by
  intro ts c us rest h hrest
  obtain ⟨⟨b, vs⟩, hb, hc⟩ := bind_eq_ok.1 h
  have hstays : vs = [] → Closes rest := by
    rintro rfl
    exact hrest (hnil b c us hc)
  show f (ts ++ rest) >>= _ = _
  rw [hf ts b vs rest hb hstays]
  exact hg b vs c us rest hc hrest

/-- A reader and another one that takes nothing where a term ends. -/
theorem GoesOn.bind {f : Reader β} {g : β → Reader γ} (hf : GoesOn f P) (hg : ∀ b, GoesOn (g b) Q)
    (hcloses : ∀ b rest, Closes rest → ∃ c, Q c ∧ g b rest = .ok (c, rest)) :
    GoesOn (fun ts => f ts >>= fun b => g b.1 b.2) Q := by
  have hnil : ∀ b, ∃ c, g b [] = .ok (c, []) := by
    intro b
    obtain ⟨c, -, hc⟩ := hcloses b [] closes_nil
    exact ⟨c, hc⟩
  constructor
  · refine hf.more.bind (fun b => (hg b).more) ?_
    intro b c us hc
    obtain ⟨c', hc'⟩ := hnil b
    rw [hc'] at hc
    cases hc
    rfl
  · intro ts h
    rcases bind_eq_error.1 h with hb | ⟨⟨b, us⟩, hb, hc⟩
    · refine (hf.ended ts hb).map ?_
      rintro tail rest hrest ⟨b, -, hb⟩
      obtain ⟨c, hQ, hc⟩ := hcloses b rest hrest
      refine ⟨c, hQ, ?_⟩
      dsimp only
      rw [hb]
      exact hc
    · refine ((hg b).ended us hc).map ?_
      rintro tail rest - ⟨c, hQ, hread⟩
      refine ⟨c, hQ, ?_⟩
      have hne : us ≠ [] := by
        rintro rfl
        obtain ⟨c', hc'⟩ := hnil b
        simp [hc'] at hc
      dsimp only
      rw [hf.more ts b us tail hb fun h => absurd h hne]
      exact hread

end GoesOn

/-! ### Brackets -/

/-- The literal of the empty string, which is an operand in any place. -/
def hole : String := "\"\""

theorem kind?_hole : kind? hole = some .quoted := by decide

/-- What brackets need of the reader of what they enclose. -/
structure Encloses (inner : Reader PlainTerm) : Prop extends GoesOn inner fun _ => True where
  nil : inner [] = .error .ended
  literal : ∀ offset rest, Closes rest →
    inner (⟨.quoted, hole, offset⟩ :: rest) = .ok (.named hole, rest)
  mem : ∀ ts m us, inner ts = .ok (m, us) → ∀ u ∈ us, u ∈ ts

section Brackets

variable {T : OperatorTable} {inner : Reader PlainTerm} {ts us : List Token}

/-- A word that is called for and does not come is added. -/
theorem expect_goesOn {kind : TokenKind} {text : String} (htext : kind? text = some kind) :
    GoesOn (expect false kind text) fun _ => True := by
  refine goesOn_of_cons nofun (fun _ => ?_) fun t => ?_
  · refine completable_nil.word htext ?_
    rintro offset row _ - rfl
    exact ⟨(), trivial, if_pos ⟨rfl, rfl⟩⟩
  · show GoesOn (fun ts => if t.kind = kind ∧ t.text = text then .ok ((), ts)
      else .error (.refused (.expectedText text) t)) _
    split
    next => exact goesOn_ok
    next => exact goesOn_refused _ t

/-- What brackets enclose, up to the closing one. -/
theorem Encloses.closed (h : Encloses inner) {text : String} (htext : kind? text = some .closing)
    (g : PlainTerm → PlainTerm) :
    GoesOn (fun ts => inner ts >>= fun m => expect false .closing text m.2 >>= fun c =>
      .ok (g m.1, c.2)) fun _ => True := by
  have hclose : ∀ m, GoesOn (fun ts => expect false .closing text ts >>= fun c => .ok (g m, c.2))
      fun _ => True := fun m =>
    (expect_goesOn htext).bind (g := fun _ ts => .ok (g m, ts)) (fun _ => goesOn_ok)
      fun _ rest _ => ⟨g m, trivial, rfl⟩
  constructor
  · exact h.more.bind (fun m => (hclose m).more) fun _ _ _ => nofun
  · intro ts hts
    rcases bind_eq_error.1 hts with hm | ⟨⟨m, us⟩, hm, hc⟩
    · refine (h.ended ts hm).close htext ?_
      rintro offset row rest ⟨m, -, hm⟩
      refine ⟨g m, trivial, ?_⟩
      have hread : expect false .closing text (⟨.closing, text, offset⟩ :: rest) = .ok ((), rest) :=
        if_pos ⟨rfl, rfl⟩
      dsimp only
      rw [hm]
      show expect false .closing text _ >>= _ = _
      rw [hread]
      rfl
    · refine ((hclose m).ended us hc).map ?_
      rintro tail rest - ⟨b, -, hb⟩
      refine ⟨b, trivial, ?_⟩
      -- the bracket is the first token behind
      have hcloses : us = [] → Closes tail := by
        rintro rfl
        obtain ⟨c, hc, -⟩ := bind_eq_ok.1 hb
        obtain ⟨t, htail, hkind, -⟩ := expect_holds .closing text c hc
        rw [List.nil_append] at htail
        rw [htail]
        exact closes_cons hkind
      dsimp only
      rw [h.more ts m us tail hm hcloses]
      exact hb

theorem grouped_goesOn (h : Encloses inner) : GoesOn (grouped false inner) fun _ => True :=
  h.closed rfl id

theorem body_goesOn (h : Encloses inner) (bound : Name) :
    GoesOn (body false inner bound) fun _ => True := by
  have hbrace : kind? "\x7d" = some .closing := rfl
  have hdot : kind? "." = some .symbol := by decide
  have hclosed := h.closed hbrace (Term.lambda bound)
  refine goesOn_of_cons nofun (fun _ => ?_) fun t => ?_
  · have hended : inner [] >>= (fun m => expect false .closing "\x7d" m.2 >>= fun c =>
        .ok (Term.lambda bound m.1, c.2)) = .error .ended := by
      rw [h.nil]
      rfl
    refine (hclosed.ended [] hended).word hdot ?_
    rintro offset row rest - hrow
    exact hrow
  · show GoesOn (fun ts => (if t.kind = .symbol ∧ t.text = "." then .ok ((), ts)
      else .error (.refused (.expectedText ".") t)) >>= _) _
    split
    next => exact hclosed
    next => exact goesOn_refused _ t

theorem abstraction_goesOn (h : Encloses inner) :
    GoesOn (abstraction false inner) fun _ => True := by
  refine goesOn_of_cons nofun (fun _ => ?_) fun t => ?_
  · have hident : kind? "x" = some .ident := by decide
    have hbound : Name.isVariable "x" = true := by decide
    refine ((body_goesOn h "x").ended [] rfl).word hident ?_
    rintro offset row rest - ⟨m, -, hm⟩
    refine ⟨m, trivial, ?_⟩
    rw [List.nil_append, abstraction_cons, if_pos ⟨rfl, hbound⟩]
    exact hm
  · simp only [abstraction_cons]
    split
    next => exact body_goesOn h t.text
    next => exact goesOn_refused _ t

section Parenthesis

variable {t : Token} (ht : t.text = "(")

include ht

theorem bracketed_lone {op close : Token} (hop : isBareOperator T op = true)
    (hclose : close.text = ")") (rest : List Token) :
    bracketed T false inner t (op :: close :: rest) = .ok (T.leaf op.text, rest) := by
  rw [bracketed_parenthesis inner ht]
  simp [hop, hclose]

/-- An operator on its own, or a term, stays what it is. -/
theorem parenthesis_extends (h : Encloses inner) : Extends (bracketed T false inner t) := by
  intro ts m us rest hm hrest
  by_cases hlone : isLone T ts = true
  · match ts with
    | [] | [_] => cases hlone
    | op :: close :: ts =>
      obtain ⟨hop, hclose⟩ := Bool.and_eq_true_iff.1 hlone
      rw [bracketed_lone ht hop (beq_iff_eq.1 hclose)] at hm
      cases hm
      exact bracketed_lone ht hop (beq_iff_eq.1 hclose) (us ++ rest)
  · rw [Bool.not_eq_true] at hlone
    rw [bracketed_of_not_lone hlone inner ht] at hm
    have hstays : isLone T (ts ++ rest) = false := by
      match ts with
      | [] =>
        obtain ⟨_, hinner, -⟩ := bind_eq_ok.1 hm
        simp [h.nil] at hinner
      | [op] =>
        -- the closing bracket of the term is this only token
        obtain ⟨⟨m, vs⟩, hinner, hc⟩ := bind_eq_ok.1 hm
        obtain ⟨c, hc, -⟩ := bind_eq_ok.1 hc
        obtain ⟨close, hvs, hkind, -⟩ := expect_holds .closing ")" c hc
        have hmem := h.mem _ _ _ hinner close (by simp_all)
        rw [List.mem_singleton.1 hmem] at hkind
        cases rest <;> simp [isLone, isBareOperator, hkind]
      | op :: close :: ts => exact hlone
    rw [bracketed_of_not_lone hstays inner ht]
    exact (grouped_goesOn h).more ts m us rest hm hrest

theorem parenthesis_completes (h : Encloses inner) {ts : List Token}
    (hts : bracketed T false inner t ts = .error .ended) :
    Completable ts (Gives (bracketed T false inner t) fun _ => True) := by
  have hround : kind? ")" = some .closing := rfl
  have hgrouped (hlone : isLone T ts = false) (hstays : ∀ tail, isLone T (ts ++ tail) = false) :
      Completable ts (Gives (bracketed T false inner t) fun _ => True) := by
    rw [bracketed_of_not_lone hlone inner ht] at hts
    refine ((grouped_goesOn h).ended ts hts).map ?_
    rintro tail rest - ⟨m, -, hm⟩
    exact ⟨m, trivial, by rw [bracketed_of_not_lone (hstays tail) inner ht, hm]⟩
  match ts with
  | [] =>
    have hclose : Completable [] fun row rest => ∃ offset, row = ⟨.closing, ")", offset⟩ :: rest := by
      refine completable_nil.close hround ?_
      rintro offset row rest rfl
      exact ⟨offset, rfl⟩
    refine hclose.word kind?_hole ?_
    rintro offset _ rest hrest ⟨c, rfl⟩
    refine ⟨.named hole, trivial, ?_⟩
    have hnone : isLone T (⟨.quoted, hole, offset⟩ :: ⟨.closing, ")", c⟩ :: rest) = false := rfl
    rw [List.nil_append, bracketed_of_not_lone hnone inner ht]
    show inner _ >>= _ = _
    rw [h.literal offset _ (closes_cons rfl)]
    rfl
  | [op] =>
    by_cases hop : isBareOperator T op = true
    · refine completable_nil.word hround ?_
      rintro offset row _ - rfl
      exact ⟨T.leaf op.text, trivial, bracketed_lone ht hop rfl _⟩
    · rw [Bool.not_eq_true] at hop
      refine hgrouped rfl fun tail => ?_
      cases tail <;> simp [isLone, hop]
  | op :: close :: ts =>
    by_cases hlone : isLone T (op :: close :: ts) = true
    · obtain ⟨hop, hclose⟩ := Bool.and_eq_true_iff.1 hlone
      simp [bracketed_lone ht hop (beq_iff_eq.1 hclose)] at hts
    · rw [Bool.not_eq_true] at hlone
      exact hgrouped hlone fun _ => hlone

end Parenthesis

theorem bracketed_goesOn (h : Encloses inner) (t : Token) :
    GoesOn (bracketed T false inner t) fun _ => True := by
  by_cases ht : t.text = "("
  · exact ⟨parenthesis_extends ht h, fun ts => parenthesis_completes ht h⟩
  · unfold bracketed
    simp only [ht, if_false]
    split
    next => exact abstraction_goesOn h
    next => exact goesOn_refused _ t

end Brackets

/-! ### Operands and chains -/

/-- With room for so many levels the two readers go on in the same way, and rows at whose end they
fail can be completed, to an operand if one is due. -/
structure ReadsOn (T : OperatorTable) (n : Nat) : Prop where
  operand : GoesOn (operand T false n) fun m? => m?.isSome = true
  chain : ∀ p after left, GoesOn (chain T false n p after left) fun _ => True

section Step

variable {T : OperatorTable} {n : Nat} {t : Token}

/-- Where there is no operand, no token is taken. -/
theorem operand_eq_none {ts us : List Token} (h : operand T false n ts = .ok (none, us)) :
    us = ts := by
  have htakes : Holds (operand T false n ts) fun b => b.1 = none → b.2 = ts := by
    have hoperation : ∀ op k vs, Holds (operation T false op k vs) fun b => b.1 = none → b.2 = ts :=
      fun _ _ _ => holds_true.bind fun _ _ => holds_ok nofun
    refine operand_rule ?none ?enclosed ?literal ?before ?minus ?leaf
    case none => exact fun _ => rfl
    case enclosed => exact fun _ _ _ _ _ _ => holds_true.bind fun _ _ => holds_ok nofun
    case literal => exact fun _ _ _ _ => nofun
    case before => exact fun _ _ _ _ _ _ _ => hoperation _ _ _
    case minus =>
      exact fun _ _ _ _ _ _ => minus_rule (fun _ _ _ _ _ => nofun) fun _ _ _ => hoperation _ _ _
    case leaf => exact fun _ _ _ _ _ _ _ => nofun
  exact htakes _ h rfl

theorem operand_hole (offset : Nat) (rest : List Token) :
    operand T false n (⟨.quoted, hole, offset⟩ :: rest) = .ok (some (.named hole), rest) :=
  operand_ofLiteral (.inr rfl)

theorem sequence_hole (p : Nat) (after : Bool) (offset : Nat) {rest : List Token}
    (hrest : Closes rest) : sequence false (operand T false n) (chain T false n p after)
      (⟨.quoted, hole, offset⟩ :: rest) = .ok (.named hole, rest) := by
  unfold sequence
  rw [operand_hole]
  exact chain_closes hrest n

/-- The readers leave tokens of the row that they read. -/
theorem mem_of_sequence {p : Nat} {after : Bool} {ts us : List Token} {m : PlainTerm}
    (h : sequence false (operand T false n) (chain T false n p after) ts = .ok (m, us)) :
    ∀ u ∈ us, u ∈ ts := by
  -- the reading of the row agrees with itself, with its own tokens as those that correspond
  have hlook : ∀ t t', t = t' ∧ t ∈ ts → LooksAlike T T t t' := by
    rintro t _ ⟨rfl, -⟩
    exact .refl T t
  have halike := alike hlook false n
  have hagrees := sequence_agrees halike.operand (halike.chain p after) ts ts
    (.refl fun t ht => ⟨rfl, ht⟩)
  rw [h] at hagrees
  cases hagrees with
  | ok hsame =>
    intro u hu
    obtain ⟨_, -, -, hmem⟩ := hsame.2.exists_of_mem hu
    exact hmem

/-- An operand and its chain. -/
theorem ReadsOn.sequence (h : ReadsOn T n) (p : Nat) (after : Bool) :
    Encloses (sequence false (Parser.operand T false n) (Parser.chain T false n p after)) where
  more := by
    intro ts m us rest hm hrest
    obtain ⟨⟨_ | left, vs⟩, ho, hc⟩ := bind_eq_ok.1 hm
    · cases vs <;> cases hc
    · have hstays : vs = [] → Closes rest := by
        rintro rfl
        have hend : Parser.chain T false n p after left [] = .ok (m, us) := hc
        rw [chain_nil] at hend
        cases hend
        exact hrest rfl
      show Parser.operand T false n (ts ++ rest) >>= _ = _
      rw [h.operand.more ts _ vs rest ho hstays]
      exact (h.chain p after left).more vs m us rest hc hrest
  ended := by
    intro ts hts
    rcases bind_eq_error.1 hts with ho | ⟨⟨_ | left, us⟩, ho, hc⟩
    · refine (h.operand.ended ts ho).map ?_
      rintro tail rest hrest ⟨_ | m, hm, hread⟩
      · cases hm
      · refine ⟨m, trivial, ?_⟩
        unfold Parser.sequence
        rw [hread]
        exact chain_closes hrest n
    · obtain rfl := operand_eq_none ho
      cases us with
      | nil =>
        refine completable_nil.word kind?_hole ?_
        rintro offset row _ hrow rfl
        exact ⟨.named hole, trivial, sequence_hole p after offset hrow⟩
      | cons t us => cases hc
    · have hne : us ≠ [] := by
        rintro rfl
        have hend : Parser.chain T false n p after left [] = .error .ended := hc
        rw [chain_nil] at hend
        cases hend
      refine ((h.chain p after left).ended us hc).map ?_
      rintro tail rest - ⟨m, -, hm⟩
      refine ⟨m, trivial, ?_⟩
      unfold Parser.sequence
      rw [h.operand.more ts _ us tail ho fun h => absurd h hne]
      exact hm
  nil := by
    unfold Parser.sequence
    rw [operand_nil]
    rfl
  literal offset _ hrest := sequence_hole p after offset hrest
  mem _ _ _ hm := mem_of_sequence hm

/-- An operator before its operand has been read. -/
theorem ReadsOn.operation (h : ReadsOn T n) (op : PlainTerm) :
    GoesOn (operation T false op n) fun m? => m?.isSome = true :=
  (h.sequence beforePower true).toGoesOn.bind (g := fun m ts => .ok (some (Term.call op m), ts))
    (fun _ => goesOn_ok) fun _ _ _ => ⟨_, rfl, rfl⟩

/-- A minus sign that is no operator before its operand has been read. -/
theorem minus_goesOn (ih : ∀ k < n, ReadsOn T k) :
    GoesOn (minus T false t n) fun m? => m?.isSome = true := by
  refine goesOn_of_cons ?_ ?_ fun u => ?_
  · intro b hb
    obtain ⟨k, hk, hread⟩ := deeper_eq_ok hb
    unfold Parser.operation at hread
    rw [((ih k hk).sequence beforePower true).nil] at hread
    cases hread
  · intro hended
    refine completable_nil.word kind?_hole ?_
    rintro offset row _ hrow rfl
    refine ⟨some (.call (.named "neg") (.named hole)), rfl, ?_⟩
    cases n with
    | zero => cases hended
    | succ n =>
      show Parser.operation T false (.named "neg") n (⟨.quoted, hole, offset⟩ :: row) = _
      unfold Parser.operation
      rw [sequence_hole beforePower true offset hrow]
      rfl
  · have hnegation := deeper_goesOn (t := t) fun k hk => (ih k hk).operation (.named "neg")
    by_cases hu : u.kind = .number ∧ u.offset = t.offset + 1
    · simp only [minus, adjacentNumber, hu, and_self, if_true]
      exact goesOn_ok
    · simpa [minus, adjacentNumber, hu] using hnegation.cons u

theorem operand_goesOn (ih : ∀ k < n, ReadsOn T k) :
    GoesOn (operand T false n) fun m? => m?.isSome = true := by
  refine goesOn_of_closes (b := none) ?_ fun t => ?_
  · intro rest hrest
    cases rest with
    | nil => rw [operand_nil]; rfl
    | cons t rest => exact operand_closing (hrest t rfl)
  · cases tokenCase t with
    | opening hkind =>
      simp only [operand_opening hkind]
      refine deeper_goesOn fun k hk => ?_
      exact (bracketed_goesOn ((ih k hk).sequence endPower false) t).bind
        (g := fun m ts => .ok (some m, ts)) (fun _ => goesOn_ok) fun _ _ _ => ⟨_, rfl, rfl⟩
    | closing hkind =>
      simp only [operand_closing hkind]
      exact goesOn_stay t
    | literal hkind =>
      simp only [operand_ofLiteral hkind]
      exact goesOn_ok
    | name hname =>
      simp only [operand_word hname]
      split
      next => exact deeper_goesOn fun k hk => (ih k hk).operation _
      next =>
        split
        next => exact minus_goesOn ih
        next =>
          split
          next => exact goesOn_ok
          next => exact goesOn_stay t

/-- An operator between operands has been read, after its left one. -/
theorem ReadsOn.link (h : ReadsOn T n) (p : Nat) (after : Bool) (left : PlainTerm) :
    GoesOn (link T false p after left t n) fun _ => True := by
  refine goesOn_of_closes (b := .call (T.leaf t.text) left) ?_ fun u => ?_
  · intro rest hrest
    unfold Parser.link
    rw [endsOperand_closes hrest]
    exact chain_closes hrest n
  · show GoesOn (fun ts => if u.kind == .closing then Parser.chain T false n p after _ (u :: ts)
      else subterm T false n (chainPower T after t) (u :: ts) >>= _) _
    split
    next => exact (h.chain p after _).cons u
    next =>
      have hright := (h.sequence (chainPower T after t) false).toGoesOn.bind
        (fun right => h.chain p after (.callBetween left (T.leaf t.text) right))
        fun right rest hrest => ⟨_, trivial, chain_closes hrest n⟩
      exact hright.cons u

/-- An argument of the operand before it. -/
theorem ReadsOn.argument (h : ReadsOn T n) (p : Nat) (after : Bool) (left : PlainTerm) :
    GoesOn (argument T false p after left n) fun _ => True := by
  let next (m? : Option PlainTerm) : Reader PlainTerm :=
    m?.elim (fun ts => .ok (left, ts)) fun arg => Parser.chain T false n p after (.call left arg)
  have hnext : ∀ m?, GoesOn (next m?) fun _ => True := by
    intro m?
    cases m? with
    | some arg => exact h.chain p after _
    | none => exact goesOn_ok
  have hcloses : ∀ m? rest, Closes rest → ∃ m, True ∧ next m? rest = .ok (m, rest) := by
    intro m? rest hrest
    cases m? with
    | some arg => exact ⟨_, trivial, chain_closes hrest n⟩
    | none => exact ⟨_, trivial, rfl⟩
  convert h.operand.bind hnext hcloses using 2 with ts
  unfold Parser.argument
  congr 1
  funext b
  obtain ⟨_ | arg, us⟩ := b <;> rfl

theorem chain_goesOn (ih : ∀ k < n, ReadsOn T k) (p : Nat) (after : Bool) (left : PlainTerm) :
    GoesOn (chain T false n p after left) fun _ => True := by
  refine goesOn_of_closes (b := left) (fun rest hrest => chain_closes hrest n) fun t => ?_
  simp only [chain_cons]
  split
  next => exact goesOn_stay t
  next =>
    refine deeper_goesOn fun k hk => ?_
    split
    next => exact (ih k hk).link p after left
    next => exact ((ih k hk).argument p after left).cons t

end Step

/-- **The readers go on in the same way behind a row, and rows at whose end they fail can be
completed**, by induction on the room. -/
theorem readsOn (T : OperatorTable) (n : Nat) : ReadsOn T n := by
  induction n using Nat.strongRecOn with
  | _ n ih => exact ⟨operand_goesOn ih, chain_goesOn ih⟩

end Parser

/-- A row at whose end its reading as a whole fails can be completed. -/
theorem Parser.whole_completes {T : OperatorTable} {n : Nat} {ts : List Token}
    (h : whole T n ⟨ts, none⟩ = .error .ended) :
    Completable ts fun row rest => rest = [] → ∃ m, whole T n ⟨row, none⟩ = .ok m := by
  have hterm : GoesOn (subterm T false n endPower) fun _ => True :=
    ((readsOn T n).sequence endPower false).toGoesOn
  rcases bind_eq_error.1 h with hread | ⟨⟨m, us⟩, -, hfinish⟩
  · refine (hterm.ended ts hread).map ?_
    rintro tail rest - ⟨m, -, hread⟩ rfl
    refine ⟨m, ?_⟩
    show subterm T false n endPower (ts ++ tail) >>= _ = _
    rw [hread]
    rfl
  · cases us <;> cases hfinish

/-- **A text at whose end reading fails can be completed**: with some text behind it, it is read with
the same table and under the same limit. -/
theorem Term.parse_completes {T : OperatorTable} {limit : Nat} {text : String} {place : Excerpt}
    (h : Term.parse T limit text = .error (.atEnd place)) :
    ∃ more m, Term.parse T limit (text ++ more) = .ok m := by
  obtain ⟨f, hf, he⟩ := Term.parse_eq_error_iff.1 h
  have hoccurs : f.Occurs (scan text) := whole_fault hf
  cases f with
  | stuck =>
    obtain ⟨place, hplace⟩ := Option.isSome_iff_exists.1 hoccurs
    simp [Fault.toError, TokenStream.error?, hplace] at he
  | refused cause t => cases he
  | ended =>
    have hstuck : (scan text).stuck = none := hoccurs
    have hstream : scan text = ⟨(scan text).tokens, none⟩ := by rw [← hstuck]
    rw [hstream] at hf
    obtain ⟨words, hwords, hcompletes⟩ := whole_completes hf
    obtain ⟨us, hus, hscan⟩ := scan_spreadTexts hstuck hwords
    obtain ⟨m, hm⟩ := hcompletes us [] hus closes_nil rfl
    rw [List.append_nil, ← hscan] at hm
    exact ⟨spreadTexts words, m, Term.parse_eq_ok.2 hm⟩

/-- The operand of an operator and two brackets are missing, and no level of room is left. -/
theorem Term.parse_completes_nested :
    let T := OperatorTable.standard
    let text := "\x7bx. f x = (¬"
    let last : Excerpt := .atEnd ⟨"<input>", text⟩
    (∃ place, Term.parse T 4 text = .error (.refused .tooDeep place)) ∧
      Term.parse T 5 text = .error (.atEnd last) ∧ ∃ more m, Term.parse T 5 (text ++ more) = .ok m := by
  intro T text last
  have hshort : Term.parse T 4 text =
      .error (.refused .tooDeep ⟨⟨"<input>", text⟩, 11, 13⟩) := by decide +kernel
  have hlast : Term.parse T 5 text = .error (.atEnd last) := by decide +kernel
  exact ⟨⟨_, hshort⟩, hlast, Term.parse_completes hlast⟩

end ProofKernel
