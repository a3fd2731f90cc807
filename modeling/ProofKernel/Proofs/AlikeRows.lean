import ProofKernel.Proofs.Readers

/-!
# Rows of tokens that are read alike

A reader looks at tokens in a few ways only. Two rows, each read with a table of its own, of which
these look alike are read alike: as the same term, or with the same fault at tokens that correspond.

* `Parser.LooksAlike`: what a reader can tell of a token, with a table each;
* `Parser.Rows`: rows of tokens that correspond, and in which the same minus signs touch a number;
* `Parser.Agrees`: results that are the same up to tokens that correspond;
* `Parser.whole_agrees`: what is read of such rows agrees.
-/

namespace ProofKernel.Parser

/-! ## Tokens and rows -/

/-- What a reader can tell of a token is the same of two tokens, each with its table. -/
structure LooksAlike (T T' : OperatorTable) (t t' : Token) : Prop where
  kind : t.kind = t'.kind ∨ IsName t ∧ IsName t'
  text : ¬ IsName t → t.text = t'.text
  leaf : IsName t → T.leaf t.text = T'.leaf t'.text
  before : T.isBefore t.text = T'.isBefore t'.text
  power : T.tokenPower t = T'.tokenPower t'
  bare : isBareOperator T t = isBareOperator T' t'
  minus : t.text = "-" ↔ t'.text = "-"
  closes : t.text = ")" ↔ t'.text = ")"
  binder : (t.kind = .ident ∧ Name.isVariable t.text ↔ t'.kind = .ident ∧ Name.isVariable t'.text) ∧
    (t.kind = .ident ∧ Name.isVariable t.text → t.text = t'.text)
  dot : t.kind = .symbol ∧ t.text = "." ↔ t'.kind = .symbol ∧ t'.text = "."

theorem LooksAlike.refl (T : OperatorTable) (t : Token) : LooksAlike T T t t :=
  ⟨.inl rfl, fun _ => rfl, fun _ => rfl, rfl, rfl, rfl, .rfl, .rfl, ⟨.rfl, fun _ => rfl⟩, .rfl⟩

/-- Readers look at kinds and texts, and not at offsets. -/
theorem LooksAlike.of_word (T : OperatorTable) {t t' : Token} (hkind : t.kind = t'.kind)
    (htext : t.text = t'.text) : LooksAlike T T t t' := by
  obtain ⟨kind, text, offset⟩ := t
  obtain ⟨kind', text', offset'⟩ := t'
  cases hkind
  cases htext
  exact ⟨.inl rfl, fun _ => rfl, fun _ => rfl, rfl, rfl, rfl, .rfl, .rfl, ⟨.rfl, fun _ => rfl⟩, .rfl⟩

section LooksAlike

variable {T T' : OperatorTable} {t t' : Token} (h : LooksAlike T T' t t')

include h

theorem LooksAlike.kind_eq (hname : ¬ IsName t) : t.kind = t'.kind :=
  h.kind.resolve_right fun hnames => hname hnames.1

theorem LooksAlike.isName_iff : IsName t ↔ IsName t' := by
  rcases h.kind with hkind | ⟨hname, hname'⟩
  · rw [IsName, IsName, hkind]
  · exact iff_of_true hname hname'

theorem LooksAlike.isClosing_eq : (t.kind == .closing) = (t'.kind == .closing) := by
  by_cases hname : IsName t
  · rw [beq_eq_false_iff_ne.2 hname.ne_closing,
      beq_eq_false_iff_ne.2 (h.isName_iff.1 hname).ne_closing]
  · rw [h.kind_eq hname]

/-- Closing brackets are the same. -/
theorem LooksAlike.closing_iff (text : String) :
    t.kind = .closing ∧ t.text = text ↔ t'.kind = .closing ∧ t'.text = text := by
  by_cases hname : IsName t
  · simp [hname.ne_closing, (h.isName_iff.1 hname).ne_closing]
  · rw [h.kind_eq hname, h.text hname]

end LooksAlike

/-- Rows of tokens that correspond, and in which the same minus signs touch a number. -/
inductive Rows (R : Token → Token → Prop) : List Token → List Token → Prop
  | nil : Rows R [] []
  | cons {t t' : Token} {ts ts' : List Token} (head : R t t')
      (touches : t.text = "-" → (adjacentNumber t ts).isSome = (adjacentNumber t' ts').isSome)
      (tail : Rows R ts ts') : Rows R (t :: ts) (t' :: ts')

/-- A row corresponds to itself by any relation that its tokens have to themselves. -/
theorem Rows.refl {R : Token → Token → Prop} {ts : List Token} (h : ∀ t ∈ ts, R t t) :
    Rows R ts ts := by
  induction ts with
  | nil => exact .nil
  | cons t ts ih =>
    obtain ⟨ht, hts⟩ := List.forall_mem_cons.1 h
    exact .cons ht (fun _ => rfl) (ih hts)

/-- Each token of a row corresponds to one of the other. -/
theorem Rows.exists_of_mem {R : Token → Token → Prop} {ts ts' : List Token} (h : Rows R ts ts')
    {t : Token} (ht : t ∈ ts) : ∃ t' ∈ ts', R t t' := by
  induction h with
  | nil => cases ht
  | cons head _ _ ih =>
    rcases List.mem_cons.1 ht with rfl | ht
    · exact ⟨_, List.mem_cons_self, head⟩
    · obtain ⟨t', ht', hR⟩ := ih ht
      exact ⟨t', List.mem_cons_of_mem _ ht', hR⟩

theorem Rows.mono {R R' : Token → Token → Prop} {ts ts' : List Token} (h : Rows R ts ts')
    (hR : ∀ t t', R t t' → R' t t') : Rows R' ts ts' := by
  induction h with
  | nil => exact .nil
  | cons head touches _ ih => exact .cons (hR _ _ head) touches ih

theorem Rows.length_eq {R : Token → Token → Prop} {ts ts' : List Token} (h : Rows R ts ts') :
    ts.length = ts'.length := by
  induction h with
  | nil => rfl
  | cons _ _ _ ih => simp [ih]

/-- Tokens correspond that stand at the same index. -/
theorem Rows.indexed {R : Token → Token → Prop} {ts ts' : List Token} (h : Rows R ts ts') :
    Rows (fun t t' => R t t' ∧ ∃ i : Nat, ts[i]? = some t ∧ ts'[i]? = some t') ts ts' := by
  induction h with
  | nil => exact .nil
  | cons head touches _ ih =>
    refine .cons ⟨head, 0, rfl, rfl⟩ touches (ih.mono ?_)
    rintro t t' ⟨hR, i, ht, ht'⟩
    exact ⟨hR, i + 1, ht, ht'⟩

/-! ## Results -/

/-- Faults that are the same up to tokens that correspond: at the end of the tokens, at the text that
no token begins with if there is one, or for the same cause at a token. -/
inductive Fault.Matches (stuck : Bool) (R : Token → Token → Prop) : Fault → Fault → Prop
  | stuck (h : stuck = true) : Matches stuck R .stuck .stuck
  | ended (h : stuck = false) : Matches stuck R .ended .ended
  | refused (cause : ParseCause) {t t' : Token} (h : R t t') :
    Matches stuck R (.refused cause t) (.refused cause t')

/-- Results that are related, and faults that are the same up to tokens that correspond. -/
inductive Agrees (stuck : Bool) (R : Token → Token → Prop) {β : Type} (Q : β → β → Prop) :
    Except Fault β → Except Fault β → Prop
  | ok {b b' : β} (h : Q b b') : Agrees stuck R Q (.ok b) (.ok b')
  | error {f f' : Fault} (h : f.Matches stuck R f') : Agrees stuck R Q (.error f) (.error f')

/-- The same result, and rows that correspond. -/
def Same (R : Token → Token → Prop) {β : Type} (b b' : β × List Token) : Prop :=
  b.1 = b'.1 ∧ Rows R b.2 b'.2

section Results

variable {stuck : Bool} {R : Token → Token → Prop} {β γ : Type} {Q : β → β → Prop}

theorem Agrees.bind {x x' : Except Fault β} {f f' : β → Except Fault γ} {Q' : γ → γ → Prop}
    (h : Agrees stuck R Q x x') (hf : ∀ b b', Q b b' → Agrees stuck R Q' (f b) (f' b')) :
    Agrees stuck R Q' (x >>= f) (x' >>= f') := by
  cases h with
  | ok h => exact hf _ _ h
  | error h => exact .error h

/-- After a reader: what goes on from the same result agrees. -/
theorem Agrees.andThen {x x' : Except Fault (β × List Token)}
    {f f' : β × List Token → Except Fault γ} {Q' : γ → γ → Prop}
    (h : Agrees stuck R (Same R) x x')
    (hf : ∀ b us us', Rows R us us' → Agrees stuck R Q' (f (b, us)) (f' (b, us'))) :
    Agrees stuck R Q' (x >>= f) (x' >>= f') := by
  refine h.bind ?_
  rintro ⟨b, us⟩ ⟨_, us'⟩ ⟨rfl, hus⟩
  exact hf b us us' hus

theorem agrees_ok (b : β) {ts ts' : List Token} (h : Rows R ts ts') :
    Agrees stuck R (Same R) (.ok (b, ts)) (.ok (b, ts')) :=
  .ok ⟨rfl, h⟩

theorem agrees_refused (cause : ParseCause) {t t' : Token} (h : R t t') :
    Agrees stuck R Q (.error (.refused cause t)) (.error (.refused cause t')) :=
  .error (.refused cause h)

theorem deeper_agrees {t t' : Token} (ht : R t t') {n : Nat} {f f' : Nat → Except Fault β}
    (h : ∀ k < n, Agrees stuck R Q (f k) (f' k)) :
    Agrees stuck R Q (deeper t n f) (deeper t' n f') := by
  cases n with
  | zero => exact agrees_refused .tooDeep ht
  | succ n => exact h n (Nat.lt_succ_self n)

end Results

/-! ## Readers -/

/-- Two readers of rows that correspond. -/
def ReadAlike (stuck : Bool) (R : Token → Token → Prop) {β : Type} (f f' : Reader β) : Prop :=
  ∀ ts ts', Rows R ts ts' → Agrees stuck R (Same R) (f ts) (f' ts')

section Readers

variable {T T' : OperatorTable} {stuck : Bool} {R : Token → Token → Prop}

/-- The end of the tokens, or text that no token begins with. -/
theorem atLast_matches : (atLast stuck).Matches stuck R (atLast stuck) := by
  cases stuck with
  | true => exact .stuck rfl
  | false => exact .ended rfl

theorem sequence_agrees {o o' : Reader (Option PlainTerm)} {c c' : PlainTerm → Reader PlainTerm}
    (ho : ReadAlike stuck R o o') (hc : ∀ m, ReadAlike stuck R (c m) (c' m)) :
    ReadAlike stuck R (sequence stuck o c) (sequence stuck o' c') := by
  intro ts ts' hts
  refine (ho ts ts' hts).andThen ?_
  intro m? us us' hus
  cases m? with
  | some left => exact hc left us us' hus
  | none =>
    cases hus with
    | nil => cases stuck <;> exact .error atLast_matches
    | cons ht _ _ => exact agrees_refused .expectedTerm ht

theorem expect_agrees {kind : TokenKind} {text : String}
    (h : ∀ t t', R t t' → (t.kind = kind ∧ t.text = text ↔ t'.kind = kind ∧ t'.text = text)) :
    ReadAlike stuck R (expect stuck kind text) (expect stuck kind text) := by
  intro ts ts' hts
  cases hts with
  | nil => exact .error atLast_matches
  | @cons t t' us us' ht _ hus =>
    show Agrees stuck R (Same R) (if t.kind = kind ∧ t.text = text then .ok ((), us) else
      .error (.refused (.expectedText text) t)) (if t'.kind = kind ∧ t'.text = text then
      .ok ((), us') else .error (.refused (.expectedText text) t'))
    simp only [h t t' ht]
    split
    next => exact agrees_ok () hus
    next => exact agrees_refused _ ht

variable (hR : ∀ t t', R t t' → LooksAlike T T' t t')

include hR

/-- A closing bracket that is called for. -/
theorem expect_closing_agrees (text : String) :
    ReadAlike stuck R (expect stuck .closing text) (expect stuck .closing text) :=
  expect_agrees fun t t' ht => (hR t t' ht).closing_iff text

variable {inner inner' : Reader PlainTerm} (hinner : ReadAlike stuck R inner inner')

include hinner

theorem grouped_agrees : ReadAlike stuck R (grouped stuck inner) (grouped stuck inner') := by
  intro ts ts' hts
  refine (hinner ts ts' hts).andThen ?_
  intro m us us' hus
  refine (expect_closing_agrees hR ")" us us' hus).andThen ?_
  intro _ vs vs' hvs
  exact agrees_ok m hvs

theorem body_agrees (bound : Name) :
    ReadAlike stuck R (body stuck inner bound) (body stuck inner' bound) := by
  intro ts ts' hts
  refine (expect_agrees (fun t t' ht => (hR t t' ht).dot) ts ts' hts).andThen ?_
  intro _ us us' hus
  refine (hinner us us' hus).andThen ?_
  intro m vs vs' hvs
  refine (expect_closing_agrees hR "\x7d" vs vs' hvs).andThen ?_
  intro _ ws ws' hws
  exact agrees_ok (Term.lambda bound m) hws

theorem abstraction_agrees :
    ReadAlike stuck R (abstraction stuck inner) (abstraction stuck inner') := by
  intro ts ts' hts
  cases hts with
  | nil => exact .error atLast_matches
  | @cons t t' us us' ht _ hus =>
    obtain ⟨hbinder, hname⟩ := (hR t t' ht).binder
    rw [abstraction_cons, abstraction_cons]
    simp only [hbinder]
    split
    next h =>
      rw [hname (hbinder.2 h)]
      exact body_agrees hR hinner t'.text us us' hus
    next => exact agrees_refused .expectedVariable ht

theorem bracketed_agrees {t t' : Token} (ht : R t t') (hkind : t.kind = .opening) :
    ReadAlike stuck R (bracketed T stuck inner t) (bracketed T' stuck inner' t') := by
  intro ts ts' hts
  have htext : t.text = t'.text := (hR t t' ht).text (by simp [IsName, hkind])
  by_cases hround : t.text = "("
  · have hgrouped := grouped_agrees hR hinner ts ts' hts
    have hshort : Agrees stuck R (Same R)
        (if stuck then .error .stuck else grouped stuck inner ts)
        (if stuck then .error .stuck else grouped stuck inner' ts') := by
      cases stuck with
      | true => exact .error (.stuck rfl)
      | false => exact hgrouped
    rw [bracketed_parenthesis inner hround, bracketed_parenthesis inner' (htext ▸ hround)]
    cases hts with
    | nil => exact hshort
    | @cons op op' us us' hop _ hus =>
      cases hus with
      | nil => exact hshort
      | @cons close close' vs vs' hclose _ hvs =>
        have hop := hR op op' hop
        have hclose : (close.text == ")") = (close'.text == ")") := by
          rw [Bool.eq_iff_iff, beq_iff_eq, beq_iff_eq, (hR close close' hclose).closes]
        dsimp only
        rw [hop.bare, hclose]
        split
        next hbare =>
          have hname : IsName op' := isName_of_bare (Bool.and_eq_true_iff.1 hbare).1
          rw [hop.leaf (hop.isName_iff.2 hname)]
          exact agrees_ok _ hvs
        next => exact hgrouped
  · unfold bracketed
    rw [← htext, if_neg hround, if_neg hround]
    split
    next => exact abstraction_agrees hR hinner ts ts' hts
    next => exact agrees_refused .unexpectedBracket ht

end Readers

/-! ## The two readers -/

/-- With room for so many levels the two readers read rows alike that correspond. -/
structure Alike (T T' : OperatorTable) (stuck : Bool) (R : Token → Token → Prop) (n : Nat) :
    Prop where
  operand : ReadAlike stuck R (operand T stuck n) (operand T' stuck n)
  chain : ∀ p after left,
    ReadAlike stuck R (chain T stuck n p after left) (chain T' stuck n p after left)

section Step

variable {T T' : OperatorTable} {stuck : Bool} {R : Token → Token → Prop}
  (hR : ∀ t t', R t t' → LooksAlike T T' t t') {n : Nat} {t t' : Token} {ts ts' : List Token}

theorem Alike.subterm (h : Alike T T' stuck R n) (p : Nat) :
    ReadAlike stuck R (subterm T stuck n p) (subterm T' stuck n p) :=
  sequence_agrees h.operand (h.chain p false)

theorem Alike.operation (h : Alike T T' stuck R n) (op : PlainTerm) :
    ReadAlike stuck R (operation T stuck op n) (operation T' stuck op n) := by
  intro ts ts' hts
  refine (sequence_agrees h.operand (h.chain beforePower true) ts ts' hts).andThen ?_
  intro m us us' hus
  exact agrees_ok (some (Term.call op m)) hus

theorem Alike.argument (h : Alike T T' stuck R n) (p : Nat) (after : Bool) (left : PlainTerm) :
    ReadAlike stuck R (argument T stuck p after left n) (argument T' stuck p after left n) := by
  intro ts ts' hts
  refine (h.operand ts ts' hts).andThen ?_
  intro m? us us' hus
  cases m? with
  | some arg => exact h.chain p after _ us us' hus
  | none => exact agrees_ok left hus

/-- A minus sign touches a number in both rows or in none. -/
theorem Rows.adjacent (hts : Rows R ts ts')
    (h : (adjacentNumber t ts).isSome = (adjacentNumber t' ts').isSome) :
    (adjacentNumber t ts = none ∧ adjacentNumber t' ts' = none) ∨
    ∃ u us u' us', adjacentNumber t ts = some (u, us) ∧ adjacentNumber t' ts' = some (u', us') ∧
      u.kind = .number ∧ R u u' ∧ Rows R us us' := by
  cases hnumber : adjacentNumber t ts with
  | none =>
    rw [hnumber] at h
    exact .inl ⟨rfl, by simpa using h.symm⟩
  | some b =>
    obtain ⟨u, us⟩ := b
    cases hnumber' : adjacentNumber t' ts' with
    | none => simp [hnumber, hnumber'] at h
    | some b' =>
      obtain ⟨u', us'⟩ := b'
      obtain ⟨rfl, hkind⟩ := adjacentNumber_eq_some hnumber
      obtain ⟨rfl, -⟩ := adjacentNumber_eq_some hnumber'
      cases hts with
      | cons hu _ hus => exact .inr ⟨u, us, u', us', rfl, rfl, hkind, hu, hus⟩

variable (ih : ∀ k < n, Alike T T' stuck R k)

include hR

theorem Alike.link (h : Alike T T' stuck R n) (p : Nat) (after : Bool) (left : PlainTerm)
    (ht : R t t') (hname : IsName t) :
    ReadAlike stuck R (link T stuck p after left t n) (link T' stuck p after left t' n) := by
  intro ts ts' hts
  have hlook := hR t t' ht
  have hends : Agrees stuck R (· = ·) (endsOperand stuck ts) (endsOperand stuck ts') := by
    cases hts with
    | nil => cases stuck with
      | true => exact .error (.stuck rfl)
      | false => exact .ok rfl
    | cons hu _ _ => exact .ok (by simpa using (hR _ _ hu).isClosing_eq)
  have hpower : chainPower T after t = chainPower T' after t' := by
    simp only [chainPower, hlook.power]
  refine hends.bind ?_
  rintro ends _ rfl
  rw [hlook.leaf hname, hpower]
  split
  next => exact h.chain p after _ ts ts' hts
  next =>
    refine (h.subterm _ ts ts' hts).andThen ?_
    intro right us us' hus
    exact h.chain p after _ us us' hus

include ih

theorem operand_alike : ReadAlike stuck R (operand T stuck n) (operand T' stuck n) := by
  intro ts ts' hts
  cases hts with
  | nil =>
    rw [operand_nil, operand_nil]
    cases stuck with
    | true => exact .error (.stuck rfl)
    | false => exact agrees_ok none .nil
  | @cons t t' us us' ht htouches hus =>
    have hlook := hR t t' ht
    have hall : Rows R (t :: us) (t' :: us') := .cons ht htouches hus
    have hkind : ¬ IsName t → t'.kind = t.kind := fun hname => (hlook.kind_eq hname).symm
    cases tokenCase t with
    | opening h =>
      have h' : t'.kind = .opening := by rw [hkind (by simp [IsName, h]), h]
      rw [operand_opening h, operand_opening h']
      refine deeper_agrees ht fun k hk => ?_
      refine (bracketed_agrees hR ((ih k hk).subterm endPower) ht h us us' hus).andThen ?_
      intro m vs vs' hvs
      exact agrees_ok (some m) hvs
    | closing h =>
      have h' : t'.kind = .closing := by rw [hkind (by simp [IsName, h]), h]
      rw [operand_closing h, operand_closing h']
      exact agrees_ok none hall
    | literal h =>
      have hname : ¬ IsName t := by rcases h with h | h <;> simp [IsName, h]
      have h' : t'.kind = .number ∨ t'.kind = .quoted := by rwa [hkind hname]
      rw [operand_ofLiteral h, operand_ofLiteral h', hlook.text hname]
      exact agrees_ok _ hus
    | name hname =>
      rw [operand_word hname, operand_word (hlook.isName_iff.1 hname)]
      have hoperation : ∀ op, Agrees stuck R (Same R)
          (deeper t n fun k => operation T stuck op k us)
          (deeper t' n fun k => operation T' stuck op k us') := fun op =>
        deeper_agrees ht fun k hk => (ih k hk).operation op us us' hus
      rw [← hlook.before, ← hlook.power, hlook.leaf hname]
      simp only [← hlook.minus]
      split
      next => exact hoperation _
      next =>
        split
        next hminus =>
          unfold minus
          rcases hus.adjacent (htouches hminus) with
            ⟨hnone, hnone'⟩ | ⟨u, vs, u', vs', hu, hu', hkind, hlike, hvs⟩
          · rw [hnone, hnone']
            cases hus with
            | nil => cases stuck with
              | true => exact .error (.stuck rfl)
              | false => exact hoperation _
            | cons _ _ _ => exact hoperation _
          · rw [hu, hu']
            have htext : u.text = u'.text := (hR u u' hlike).text (by simp [IsName, hkind])
            dsimp only
            rw [htext]
            exact agrees_ok _ hvs
        next =>
          split
          next => exact agrees_ok _ hus
          next => exact agrees_ok none hall

theorem chain_alike (p : Nat) (after : Bool) (left : PlainTerm) :
    ReadAlike stuck R (chain T stuck n p after left) (chain T' stuck n p after left) := by
  intro ts ts' hts
  cases hts with
  | nil =>
    rw [chain_nil, chain_nil]
    cases stuck with
    | true => exact .error (.stuck rfl)
    | false => exact agrees_ok left .nil
  | @cons t t' us us' ht htouches hus =>
    have hlook := hR t t' ht
    have hall : Rows R (t :: us) (t' :: us') := .cons ht htouches hus
    have hpower : chainPower T after t = chainPower T' after t' := by
      simp only [chainPower, hlook.power]
    rw [chain_cons, chain_cons, ← hpower, ← hlook.before]
    split
    next => exact agrees_ok left hall
    next hpower =>
      refine deeper_agrees ht fun k hk => ?_
      split
      next hlow =>
        rw [Bool.and_eq_true, decide_eq_true_eq] at hlow
        exact (ih k hk).link hR p after left ht (isName_of_power hpower hlow.1) us us' hus
      next => exact (ih k hk).argument p after left _ _ hall

end Step

/-- **Rows that correspond are read alike**, by induction on the room. -/
theorem alike {T T' : OperatorTable} {R : Token → Token → Prop}
    (hR : ∀ t t', R t t' → LooksAlike T T' t t') (stuck : Bool) (n : Nat) :
    Alike T T' stuck R n := by
  induction n using Nat.strongRecOn with
  | _ n ih => exact ⟨operand_alike hR ih, chain_alike hR ih⟩

/-- **What is read of rows that correspond agrees.** -/
theorem whole_agrees {T T' : OperatorTable} {R : Token → Token → Prop}
    (hR : ∀ t t', R t t' → LooksAlike T T' t t') (n : Nat) {s s' : TokenStream}
    (hrows : Rows R s.tokens s'.tokens) (hstuck : s.stuck.isSome = s'.stuck.isSome) :
    Agrees s.stuck.isSome R (· = ·) (whole T n s) (whole T' n s') := by
  unfold whole
  rw [← hstuck]
  generalize s.stuck.isSome = stuck
  refine ((alike hR stuck n).subterm endPower _ _ hrows).andThen ?_
  intro m us us' hus
  have hfinish : Agrees stuck R (· = ·) (finish stuck us) (finish stuck us') := by
    cases hus with
    | nil => cases stuck with
      | true => exact .error (.stuck rfl)
      | false => exact .ok rfl
    | cons hu _ _ => exact agrees_refused .tokensRemain hu
  exact hfinish.bind fun _ _ _ => .ok rfl

end ProofKernel.Parser
