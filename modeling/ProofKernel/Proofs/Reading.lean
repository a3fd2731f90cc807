import ProofKernel.Term.Parse

/-!
# What rows of tokens are read as

What is read of a row of tokens depends on the room only up to some least room. These lemmas say
what it is from there on, for the rows that printed terms consist of.

* `Parser.Settles`: what a reader gives wherever there is enough room;
* `Parser.ReadsOperand`, `Parser.ReadsUnit`: tokens that are one operand, and those that are one
  argument wherever they stand;
* `Parser.ReadsTerm`: tokens that are one term up to the end or a closing bracket;
* `Parser.Item`, `Parser.rowTerm`: what stands side by side, and the term that a row of it is read
  as.
-/

namespace ProofKernel.Parser

/-! ## Enough room -/

/-- What is read wherever there is enough room; `none` where it is an error. -/
def Settles {β : Type} (f : Nat → Except Fault β) (r : Option β) : Prop :=
  ∃ least, ∀ room ≥ least, (f room).toOption = r

section Settles

variable {β γ : Type}

theorem settles_of_eq {f : Nat → Except Fault β} {r : Option β}
    (h : ∀ room, (f room).toOption = r) : Settles f r :=
  ⟨0, fun room _ => h room⟩

theorem settles_pure (b : β) : Settles (fun _ => .ok b) (some b) := settles_of_eq fun _ => rfl

/-- A reader that takes one level of the room. -/
theorem Settles.succ {f g : Nat → Except Fault β} {r : Option β} (h : Settles f r)
    (hg : ∀ room, g (room + 1) = f room) : Settles g r := by
  obtain ⟨least, hleast⟩ := h
  refine ⟨least + 1, ?_⟩
  intro room hroom
  obtain ⟨n, rfl⟩ : ∃ n, room = n + 1 := ⟨room - 1, by omega⟩
  rw [hg]
  exact hleast n (by omega)

theorem Settles.congr {f g : Nat → Except Fault β} {r : Option β} (h : Settles f r)
    (hg : ∀ room, g room = f room) : Settles g r := by
  obtain ⟨least, hleast⟩ := h
  exact ⟨least, fun room hroom => by rw [hg, hleast room hroom]⟩

theorem toOption_bind (x : Except Fault β) (f : β → Except Fault γ) :
    (x >>= f).toOption = x.toOption.bind fun b => (f b).toOption := by
  cases x <;> rfl

theorem Settles.bind {f : Nat → Except Fault β} {g : Nat → β → Except Fault γ} {r : Option β}
    {q : β → Option γ} (hf : Settles f r) (hg : ∀ b, r = some b → Settles (fun n => g n b) (q b)) :
    Settles (fun n => f n >>= g n) (r.bind q) := by
  obtain ⟨least, hleast⟩ := hf
  cases r with
  | none =>
    refine ⟨least, ?_⟩
    intro room hroom
    rw [toOption_bind, hleast room hroom]
    rfl
  | some b =>
    obtain ⟨least', hleast'⟩ := hg b rfl
    refine ⟨max least least', ?_⟩
    intro room hroom
    rw [toOption_bind, hleast room (by omega)]
    exact hleast' room (by omega)

/-- What settles is one result. -/
theorem Settles.unique {f : Nat → Except Fault β} {r r' : Option β} (h : Settles f r)
    (h' : Settles f r') : r = r' := by
  obtain ⟨least, hleast⟩ := h
  obtain ⟨least', hleast'⟩ := h'
  rw [← hleast (max least least') (by omega), hleast' (max least least') (by omega)]

end Settles

/-! ## Operands -/

/-- Where a term ends: at the end of the tokens, or at a closing bracket. -/
def Closes (rest : List Token) : Prop := ∀ t ∈ rest.head?, t.kind = .closing

theorem closes_nil : Closes [] := by simp [Closes]

theorem closes_cons {t : Token} {rest : List Token} (h : t.kind = .closing) : Closes (t :: rest) := by
  simpa [Closes] using h

variable (T : OperatorTable)

/-- Whether tokens begin with what is read as an operator in brackets of its own. -/
def isLone : List Token → Bool
  | op :: close :: _ => isBareOperator T op && close.text == ")"
  | _ => false

/-- Tokens that are read as one operand, whatever follows. -/
structure ReadsOperand (ts : List Token) (r? : Option PlainTerm) : Prop where
  first : ∃ t us, ts = t :: us ∧ t.kind ≠ .closing ∧ t.text ≠ ")"
  lone : ∀ rest, (∀ t ∈ rest.head?, t.text ≠ ")") → isLone T (ts ++ rest) = false
  reads : ∀ rest, Settles (fun n => operand T false n (ts ++ rest)) (r?.map fun r => (some r, rest))

/-- The power of the first token of an argument: that of a bracket, or of a name. -/
def unitPower (opens : Bool) : Nat := if opens then bracketPower else namePower

/-- Tokens that are read as one argument, also after other operands. -/
structure ReadsUnit (ts : List Token) (opens : Bool) (r? : Option PlainTerm) : Prop extends
    ReadsOperand T ts r? where
  power : ∀ t ∈ ts.head?, T.tokenPower t = unitPower opens

/-- Tokens that are read as one term where it ends after them. -/
def ReadsTerm (ts : List Token) (r? : Option PlainTerm) : Prop :=
  ∀ rest, Closes rest →
    Settles (fun n => subterm T false n endPower (ts ++ rest)) (r?.map fun r => (r, rest))

/-- Tokens that are read as one term in brackets of their own. -/
structure ReadsGroup (ts : List Token) (r? : Option PlainTerm) : Prop where
  reads : ReadsTerm T ts r?
  lone : ∀ c rest, isLone T (ts ++ ⟨.closing, ")", c⟩ :: rest) = false

variable {T}

/-! ### One step of a chain -/

section Chain

variable {t : Token} {ts : List Token} {p : Nat} {after : Bool} {left : PlainTerm}

/-- A token that does not bind tighter than the power stays. -/
theorem chain_stop (h : chainPower T after t ≤ p) (n : Nat) :
    chain T false n p after left (t :: ts) = .ok (left, t :: ts) := by
  cases n <;> simp [chain, h]

theorem chain_closes {rest : List Token} (h : Closes rest) (n : Nat) :
    chain T false n p after left rest = .ok (left, rest) := by
  cases rest with
  | nil => cases n <;> simp [chain]
  | cons t rest =>
    have hkind : t.kind = .closing := h t rfl
    have hpower : chainPower T after t = 0 := by
      simp [chainPower, OperatorTable.tokenPower, hkind, endPower, beforePower]
    exact chain_stop (by omega) n

/-- A token that can start an operand is that of an argument. -/
theorem chain_argument (h : p < chainPower T after t) (hname : namePower ≤ chainPower T after t)
    (n : Nat) : chain T false (n + 1) p after left (t :: ts) = (do
      match ← operand T false n (t :: ts) with
      | (some arg, ts) => chain T false n p after (.call left arg) ts
      | (none, ts) => return (left, ts)) := by
  have hpower : ¬ chainPower T after t ≤ p := by omega
  have hnot : ¬ chainPower T after t < namePower := by omega
  simp only [chain]
  exact (if_neg hpower).trans (if_neg (by simp [hnot]))

/-- No operand can follow where a term ends. -/
theorem endsOperand_closes {rest : List Token} (h : Closes rest) : endsOperand false rest = .ok true := by
  cases rest with
  | nil => rfl
  | cons t rest => exact congrArg (fun b => Except.ok b) (by simpa using h t rfl)

/-- An operator without a right operand. -/
theorem chain_section (h : p < T.tokenPower t) (hlow : T.tokenPower t < namePower)
    (hbefore : T.isBefore t.text = false) {rest : List Token} (hrest : Closes rest) (n : Nat) :
    chain T false (n + 1) p false left (t :: rest) =
      chain T false n p false (.call (T.leaf t.text) left) rest := by
  have hown : chainPower T false t = T.tokenPower t := by simp [chainPower]
  simp only [chain]
  rw [hown, if_neg (by omega), hbefore, endsOperand_closes hrest]
  simp only [decide_eq_true hlow, Bool.not_false, Bool.and_self, if_true]
  rfl

/-- An operator between two operands. -/
theorem chain_between (h : p < T.tokenPower t) (hlow : T.tokenPower t < namePower)
    (hbefore : T.isBefore t.text = false) {u : Token} (hu : u.kind ≠ .closing) (n : Nat) :
    chain T false (n + 1) p false left (t :: u :: ts) = (do
      let (right, ts) ← sequence false (operand T false n) (chain T false n (T.tokenPower t) false)
        (u :: ts)
      chain T false n p false (.callBetween left (T.leaf t.text) right) ts) := by
  have hown : chainPower T false t = T.tokenPower t := by simp [chainPower]
  have hends : endsOperand false (u :: ts) = .ok false :=
    congrArg (fun b => Except.ok b) (by simpa using hu)
  simp only [chain]
  rw [hown, if_neg (by omega), hbefore, hends]
  simp only [decide_eq_true hlow, Bool.not_false, Bool.and_self, if_true]
  rfl

end Chain

/-! ## Operands and what follows -/

theorem operand_literal {t : Token} {ts : List Token} (h : t.kind = .number ∨ t.kind = .quoted)
    (n : Nat) : operand T false n (t :: ts) = .ok (some (.named t.text), ts) := by
  rcases h with h | h <;> cases n <;> simp [operand, h]

/-- What comes after an operand. -/
theorem Settles.bind_operand {γ : Type} {f : Nat → Except Fault (Option PlainTerm × List Token)}
    {rest : List Token} {r? : Option PlainTerm} (h : Settles f (r?.map fun r => (some r, rest)))
    {k : Nat → Option PlainTerm × List Token → Except Fault γ} {q : PlainTerm → Option γ}
    (hq : ∀ r, r? = some r → Settles (fun n => k n (some r, rest)) (q r)) :
    Settles (fun n => f n >>= k n) (r?.bind q) := by
  have hbind := h.bind (g := k) (q := fun b => b.1.bind q) ?_
  · cases r? <;> exact hbind
  · rintro b hb
    obtain ⟨r, hr, rfl⟩ := Option.map_eq_some_iff.1 hb
    exact hq r hr

theorem Settles.sequence {ts rest : List Token} {r? : Option PlainTerm}
    (h : Settles (fun n => operand T false n ts) (r?.map fun r => (some r, rest))) (p : Nat)
    (after : Bool) {q : PlainTerm → Option (PlainTerm × List Token)}
    (hq : ∀ r, r? = some r → Settles (fun n => chain T false n p after r rest) (q r)) :
    Settles (fun n => sequence false (operand T false n) (chain T false n p after) ts)
      (r?.bind q) :=
  h.bind_operand hq

theorem ReadsOperand.sequence {ts : List Token} {r? : Option PlainTerm} (h : ReadsOperand T ts r?)
    (rest : List Token) (p : Nat) (after : Bool)
    {q : PlainTerm → Option (PlainTerm × List Token)}
    (hq : ∀ r, r? = some r → Settles (fun n => chain T false n p after r rest) (q r)) :
    Settles (fun n => sequence false (operand T false n) (chain T false n p after) (ts ++ rest))
      (r?.bind q) :=
  (h.reads rest).sequence p after hq

theorem ReadsOperand.readsTerm {ts : List Token} {r? : Option PlainTerm}
    (h : ReadsOperand T ts r?) : ReadsTerm T ts r? := by
  intro rest hrest
  have hseq := h.sequence rest endPower false (q := fun r => some (r, rest))
    fun r _ => (settles_pure (r, rest)).congr fun n => chain_closes hrest n
  cases r? <;> exact hseq

/-! ## Rows of arguments -/

/-- An argument, and what is read after it. -/
theorem ReadsUnit.chain {us : List Token} {opens : Bool} {r? : Option PlainTerm}
    (h : ReadsUnit T us opens r?) (rest : List Token) {p : Nat} (hp : p < unitPower opens)
    (after : Bool) (left : PlainTerm) {q : PlainTerm → Option (PlainTerm × List Token)}
    (hq : ∀ r, r? = some r →
      Settles (fun n => Parser.chain T false n p after (.call left r) rest) (q r)) :
    Settles (fun n => Parser.chain T false n p after left (us ++ rest)) (r?.bind q) := by
  obtain ⟨t, us', rfl, -, -⟩ := h.first
  have hown : chainPower T after t = unitPower opens := by
    have hpower := h.power t rfl
    cases opens <;> simp [chainPower, hpower, unitPower, namePower, bracketPower, beforePower]
  have hname : namePower ≤ unitPower opens := by
    cases opens <;> simp [unitPower, namePower, bracketPower]
  rw [← hown] at hp hname
  exact Settles.succ ((h.reads rest).bind_operand hq) fun n => chain_argument hp hname n

/-- What stands beside other operands: an argument, read as a term or not at all, or a minus sign
with digits, which is read as a subtraction. -/
inductive Item where
  | unit (opens : Bool) (r? : Option PlainTerm)
  | minus (digits : String)

/-- The tokens of an item. -/
def Item.Reads (T : OperatorTable) : Item → List Token → Prop
  | .unit opens r?, ts => ReadsUnit T ts opens r?
  | .minus digits, ts =>
    ∃ offset, ts = [⟨.symbol, "-", offset⟩, ⟨.number, digits, offset + 1⟩]

/-- The tokens of a row of items. -/
def ReadsRow (T : OperatorTable) : List Item → List Token → Prop
  | [], ts => ts = []
  | i :: is, ts => ∃ us vs, i.Reads T us ∧ ReadsRow T is vs ∧ ts = us ++ vs

/-- The term so far: what stands left of the last minus sign, if there is one, and what stands after
it. -/
def subtract : Option PlainTerm → PlainTerm → PlainTerm
  | none, current => current
  | some left, current => .callBetween left (.named "-") current

/-- The term that a row is read as after an operand. -/
def rowTerm (left? : Option PlainTerm) (current : PlainTerm) : List Item → Option PlainTerm
  | [] => some (subtract left? current)
  | .unit _ r? :: is => r?.bind fun r => rowTerm left? (.call current r) is
  | .minus digits :: is => rowTerm (some (subtract left? current)) (.named digits) is

/-- What a chain takes in of a row if only what binds tighter than a power counts, no minus sign
among it, and what it leaves. -/
def absorb (power : Nat) (current : PlainTerm) : List Item → Option (PlainTerm × List Item)
  | .unit opens r? :: is =>
    if power < unitPower opens then r?.bind fun r => absorb power (.call current r) is
    else some (current, .unit opens r? :: is)
  | is => some (current, is)

theorem length_le_of_absorb {power : Nat} {current r : PlainTerm} {is rest : List Item}
    (h : absorb power current is = some (r, rest)) : rest.length ≤ is.length := by
  induction is generalizing current with
  | nil =>
    cases h
    exact Nat.le_refl _
  | cons i is ih =>
    cases i with
    | minus digits =>
      cases h
      exact Nat.le_refl _
    | unit opens r? =>
      unfold absorb at h
      split at h
      next =>
        obtain ⟨m, -, hm⟩ := Option.bind_eq_some_iff.1 h
        have := ih hm
        exact Nat.le_succ_of_le this
      next =>
        cases h
        exact Nat.le_refl _

/-- The right operand of a subtraction takes in all up to the next minus sign. -/
theorem rowTerm_subtract (left current : PlainTerm) (is : List Item) :
    rowTerm (some left) current is = (absorb 30 current is).bind fun p =>
      rowTerm none (.callBetween left (.named "-") p.1) p.2 := by
  induction is generalizing current with
  | nil => rfl
  | cons i is ih =>
    cases i with
    | minus digits => rfl
    | unit opens r? =>
      have hopens : 30 < unitPower opens := by
        cases opens <;> simp [unitPower, namePower, bracketPower]
      rw [rowTerm, absorb, if_pos hopens]
      cases r? with
      | none => rfl
      | some r => exact ih (.call current r)

/-- The minus sign is the usual operator. -/
def HasMinus (T : OperatorTable) : Prop := T.get? "-" = some (.between "-" 30)

section Minus

variable (hminus : HasMinus T)

include hminus

theorem minus_power (offset : Nat) : T.tokenPower ⟨.symbol, "-", offset⟩ = 30 := by
  have hminus : T.get? "-" = some (.between "-" 30) := hminus
  simp [OperatorTable.tokenPower, OperatorTable.power, hminus, Operator.between]

theorem minus_not_before : T.isBefore "-" = false := by
  have hminus : T.get? "-" = some (.between "-" 30) := hminus
  simp [OperatorTable.isBefore, hminus, Operator.between]

theorem minus_leaf : T.leaf "-" = .named "-" := by
  have hminus : T.get? "-" = some (.between "-" 30) := hminus
  simp [OperatorTable.leaf, hminus, Operator.between, Term.aliased, Term.named, Atom.aliased,
    Atom.plain]

end Minus

/-! ### What a chain takes in -/

/-- A chain takes in what `absorb` takes in of a row, and leaves the tokens of the items that it
leaves. -/
def Absorbs (T : OperatorTable) (p : Nat) (after : Bool) (current : PlainTerm) (is : List Item)
    (ts rest : List Token) : Prop :=
  ∃ vs, (∀ r is', absorb p current is = some (r, is') → ReadsRow T is' vs) ∧
    Settles (fun n => chain T false n p after current (ts ++ rest))
      ((absorb p current is).map fun q => (q.1, vs ++ rest))

section Absorbs

variable {p : Nat} {after : Bool} {current : PlainTerm} {is : List Item} {rest : List Token}

/-- Where a chain stops, the whole row is left. -/
theorem absorbs_stop {t : Token} {ts : List Token} (hrow : ReadsRow T is (t :: ts))
    (hpower : chainPower T after t ≤ p) (habsorb : absorb p current is = some (current, is)) :
    Absorbs T p after current is (t :: ts) rest := by
  refine ⟨t :: ts, ?_, ?_⟩
  · intro r is' h
    rw [habsorb] at h
    cases h
    exact hrow
  · rw [habsorb]
    exact (settles_pure _).congr fun n => chain_stop hpower n

theorem absorbs_nil (hrest : Closes rest) : Absorbs T p after current [] [] rest := by
  refine ⟨[], ?_, (settles_pure (current, rest)).congr fun n => chain_closes hrest n⟩
  intro r is' h
  cases h
  rfl

/-- An argument that binds tighter is taken in. -/
theorem absorbs_unit {us vs : List Token} {opens : Bool} {r? : Option PlainTerm}
    (hus : ReadsUnit T us opens r?) (hopens : p < unitPower opens)
    (h : ∀ r, r? = some r → Absorbs T p after (.call current r) is vs rest) :
    Absorbs T p after current (.unit opens r? :: is) (us ++ vs) rest := by
  unfold Absorbs
  rw [absorb, if_pos hopens, List.append_assoc]
  cases r? with
  | none =>
    have hunit := hus.chain (vs ++ rest) hopens after current (q := fun _ => none)
      fun r hr => by cases hr
    exact ⟨vs, nofun, hunit⟩
  | some m =>
    obtain ⟨ws, hws, hsettles⟩ := h m rfl
    have hunit := hus.chain (vs ++ rest) hopens after current
      (q := fun m => (absorb p (.call current m) is).map fun q => (q.1, ws ++ rest))
      fun r hr => by cases hr; exact hsettles
    exact ⟨ws, hws, hunit⟩

end Absorbs

/-- **What a chain takes in**, by induction on the row. -/
theorem chain_absorb (hminus : HasMinus T) {is : List Item} {ts rest : List Token}
    (hrow : ReadsRow T is ts) (hrest : Closes rest) {p : Nat} (hp : 30 ≤ p) (after : Bool)
    (current : PlainTerm) : Absorbs T p after current is ts rest := by
  induction is generalizing ts current with
  | nil =>
    cases hrow
    exact absorbs_nil hrest
  | cons i is ih =>
    have hrow' := hrow
    obtain ⟨us, vs, hus, hvs, rfl⟩ := hrow
    cases i with
    | minus digits =>
      obtain ⟨offset, rfl⟩ := hus
      refine absorbs_stop hrow' ?_ rfl
      simp [chainPower, minus_power hminus, beforePower, hp]
    | unit opens r? =>
      have hus : ReadsUnit T us opens r? := hus
      by_cases hopens : p < unitPower opens
      · exact absorbs_unit hus hopens fun r _ => ih hvs (.call current r)
      · obtain ⟨t, us', rfl, -, -⟩ := hus.first
        have hpower := hus.power t rfl
        have hown : chainPower T after t = unitPower opens := by
          cases opens <;>
            simp [chainPower, hpower, unitPower, namePower, bracketPower, beforePower]
        refine absorbs_stop hrow' (by omega) ?_
        rw [absorb, if_neg hopens]

/-- A minus sign with digits and what they take in, and the row that this leaves. -/
theorem chain_subtract (hminus : HasMinus T) {is : List Item} {vs rest : List Token}
    (hvs : ReadsRow T is vs) (hrest : Closes rest) (current : PlainTerm) (digits : String)
    (offset : Nat)
    (hnext : ∀ is' ws left, is'.length ≤ is.length → ReadsRow T is' ws →
      Settles (fun n => chain T false n endPower false left (ws ++ rest))
        ((rowTerm none left is').map fun r => (r, rest))) :
    Settles (fun n => chain T false n endPower false current
      (⟨.symbol, "-", offset⟩ :: ⟨.number, digits, offset + 1⟩ :: (vs ++ rest)))
      ((rowTerm (some current) (.named digits) is).map fun r => (r, rest)) := by
  obtain ⟨ws, hws, hright⟩ := chain_absorb hminus hvs hrest (Nat.le_refl 30) false (.named digits)
  have hpower := minus_power hminus offset
  have hseq : Settles (fun n => sequence false (operand T false n) (chain T false n 30 false)
      (⟨.number, digits, offset + 1⟩ :: (vs ++ rest)))
      ((absorb 30 (.named digits) is).map fun q => (q.1, ws ++ rest)) :=
    hright.congr fun n => by rw [sequence, operand_literal (.inl rfl)]; rfl
  have hleft : ∀ right, (absorb 30 (.named digits) is).map (fun q => (q.1, ws ++ rest)) =
      some right → Settles (fun n => chain T false n endPower false
        (.callBetween current (.named "-") right.1) right.2)
        ((rowTerm (some current) (.named digits) is).map fun r => (r, rest)) := by
    rintro _ h
    obtain ⟨⟨r, is'⟩, habsorb, rfl⟩ := Option.map_eq_some_iff.1 h
    rw [rowTerm_subtract, habsorb]
    exact hnext is' ws _ (length_le_of_absorb habsorb) (hws r is' habsorb)
  have hbind := hseq.bind hleft
  have hvalue : (((absorb 30 (.named digits) is).map fun q => (q.1, ws ++ rest)).bind
      fun _ => (rowTerm (some current) (.named digits) is).map fun r => (r, rest)) =
      (rowTerm (some current) (.named digits) is).map fun r => (r, rest) := by
    rw [rowTerm_subtract]
    cases absorb 30 (.named digits) is <;> rfl
  rw [hvalue] at hbind
  refine hbind.succ ?_
  intro n
  rw [chain_between (by rw [hpower]; decide) (by rw [hpower]; decide) (minus_not_before hminus)
    (by simp), hpower, minus_leaf hminus]

/-- **What a row is read as**, by induction on its length. -/
theorem chain_row (hminus : HasMinus T) {is : List Item} {ts rest : List Token}
    (hrow : ReadsRow T is ts) (hrest : Closes rest) (current : PlainTerm) :
    Settles (fun n => chain T false n endPower false current (ts ++ rest))
      ((rowTerm none current is).map fun r => (r, rest)) := by
  induction hlen : is.length using Nat.strongRecOn generalizing is ts current with
  | ind len ih =>
    subst hlen
    cases is with
    | nil =>
      cases hrow
      exact (settles_pure (current, rest)).congr fun n => chain_closes hrest n
    | cons i is =>
      obtain ⟨us, vs, hus, hvs, rfl⟩ := hrow
      rw [List.append_assoc]
      cases i with
      | unit opens r? =>
        have hus : ReadsUnit T us opens r? := hus
        have hopens : endPower < unitPower opens := by
          cases opens <;> simp [unitPower, namePower, bracketPower, endPower]
        have hunit := hus.chain (vs ++ rest) hopens false current
          fun r _ => ih is.length (Nat.lt_succ_self _) hvs (.call current r) rfl
        cases r? <;> exact hunit
      | minus digits =>
        obtain ⟨offset, rfl⟩ := hus
        refine chain_subtract hminus hvs hrest current digits offset ?_
        intro is' ws left hle hws
        exact ih is'.length (Nat.lt_succ_of_le hle) hws left rfl

/-- An operand and a row after it. -/
theorem ReadsOperand.row (hminus : HasMinus T) {us vs : List Token} {r? : Option PlainTerm}
    {is : List Item} (h : ReadsOperand T us r?) (hrow : ReadsRow T is vs) :
    ReadsTerm T (us ++ vs) (r?.bind fun r => rowTerm none r is) := by
  intro rest hrest
  have hseq := h.sequence _ endPower false fun r _ => chain_row hminus hrow hrest r
  rw [List.append_assoc]
  cases r? <;> exact hseq

/-! ## Operators -/

/-- A token that may be an operator. -/
def IsName (t : Token) : Prop := t.kind = .ident ∨ t.kind = .symbol

section Operators

variable {t : Token} {ts : List Token}

theorem operand_name (hkind : IsName t) (hbefore : T.isBefore t.text = false) (hminus : t.text ≠ "-")
    (hpower : T.tokenPower t = namePower) (n : Nat) :
    operand T false n (t :: ts) = .ok (some (T.leaf t.text), ts) := by
  rcases hkind with h | h <;> cases n <;> simp [operand, h, hbefore, hminus, hpower]

/-- An operator that stands between its operands starts none. -/
theorem operand_between (hkind : IsName t) (hbefore : T.isBefore t.text = false)
    (hminus : t.text ≠ "-") (hpower : T.tokenPower t < namePower) (n : Nat) :
    operand T false n (t :: ts) = .ok (none, t :: ts) := by
  have hne : T.tokenPower t ≠ namePower := by omega
  rcases hkind with h | h <;> cases n <;> simp [operand, h, hbefore, hminus, hne]

theorem operand_numeral (hminus : HasMinus T) (digits : String) (offset n : Nat) :
    operand T false n (⟨.symbol, "-", offset⟩ :: ⟨.number, digits, offset + 1⟩ :: ts) =
      .ok (some (.named ("-" ++ digits)), ts) := by
  have hbefore := minus_not_before hminus
  cases n <;> simp [operand, hbefore, adjacentNumber]

/-- An operator before its operand. -/
theorem operand_before (hkind : IsName t) (hbefore : T.isBefore t.text = true) (n : Nat) :
    operand T false (n + 1) (t :: ts) = (do
      let (m, ts) ← sequence false (operand T false n) (chain T false n beforePower true) ts
      return (some (.call (T.leaf t.text) m), ts)) := by
  rcases hkind with h | h <;> simp only [operand, h] <;> exact if_pos hbefore

/-- A minus sign that no digits follow directly is the negation. -/
theorem operand_negation (hminus : HasMinus T) (offset : Nat)
    (hnumber : adjacentNumber ⟨.symbol, "-", offset⟩ ts = none) (n : Nat) :
    operand T false (n + 1) (⟨.symbol, "-", offset⟩ :: ts) = (do
      let (m, ts) ← sequence false (operand T false n) (chain T false n beforePower true) ts
      return (some (.call (.named "neg") m), ts)) := by
  have hbefore := minus_not_before hminus
  simp [operand, hbefore, hnumber]

theorem operand_closes {rest : List Token} (hrest : Closes rest) (n : Nat) :
    operand T false n rest = .ok (none, rest) := by
  cases rest with
  | nil => cases n <;> simp [operand]
  | cons t rest =>
    have hkind : t.kind = .closing := hrest t rfl
    cases n <;> simp [operand, hkind]

/-- Without an operand nothing is read. -/
theorem sequence_none {p n : Nat} {after : Bool} (h : operand T false n ts = .ok (none, ts)) :
    (sequence false (operand T false n) (chain T false n p after) ts).toOption = none := by
  rw [sequence, h]
  cases ts <;> rfl

/-- **An operator that stands alone is no term.** -/
theorem readsTerm_operator (hminus : HasMinus T) (hkind : IsName t)
    (hsymbol : t.text = "-" → t.kind = .symbol)
    (hop : T.isBefore t.text = true ∨ T.tokenPower t < namePower) : ReadsTerm T [t] none := by
  intro rest hrest
  -- what follows is no operand of an operator before it
  have hno : ∀ op : PlainTerm, Settles (fun n => (do
      let (m, ts) ← sequence false (operand T false n) (chain T false n beforePower true) rest
      return (some (.call op m), ts) : Except Fault (Option PlainTerm × List Token))) none := by
    intro op
    refine settles_of_eq ?_
    intro n
    rw [toOption_bind, sequence_none (operand_closes hrest n)]
    rfl
  have hsubterm : Settles (fun n => operand T false n (t :: rest)) none →
      Settles (fun n => subterm T false n endPower (t :: rest)) none := by
    intro h
    exact h.bind (q := fun _ => none) fun b hb => by cases hb
  cases hbefore : T.isBefore t.text with
  | true => exact hsubterm ((hno _).succ fun n => operand_before hkind hbefore n)
  | false =>
    have hpower : T.tokenPower t < namePower := by simpa [hbefore] using hop
    by_cases hmark : t.text = "-"
    · have ht : t = ⟨.symbol, "-", t.offset⟩ := by
        rw [← hsymbol hmark, ← hmark]
      have hnumber : adjacentNumber ⟨.symbol, "-", t.offset⟩ rest = none := by
        cases rest with
        | nil => rfl
        | cons u rest =>
          have hu : u.kind = .closing := hrest u rfl
          simp [adjacentNumber, hu]
      rw [ht]
      rw [ht] at hsubterm
      exact hsubterm ((hno _).succ fun n => operand_negation hminus t.offset hnumber n)
    · exact settles_of_eq fun n => sequence_none (operand_between hkind hbefore hmark hpower n)

end Operators

/-! ## Brackets -/

section Brackets

variable {ts : List Token} {r? : Option PlainTerm}

theorem bracketed_of_not_lone (h : isLone T ts = false) (inner : Reader PlainTerm) {t : Token}
    (ht : t.text = "(") : bracketed T false inner t ts = grouped false inner ts := by
  unfold bracketed
  rw [if_pos ht]
  match ts with
  | [] => rfl
  | [_] => rfl
  | op :: close :: rest =>
    have h : (isBareOperator T op && close.text == ")") = false := h
    simp [h]

/-- What is read after an opening bracket is one argument together with it. -/
theorem readsUnit_opening {text : String} {o : Nat} (htext : text ≠ ")")
    (h : ∀ rest, Settles (fun n =>
      bracketed T false (subterm T false n endPower) ⟨.opening, text, o⟩ (ts ++ rest))
      (r?.map fun r => (r, rest))) : ReadsUnit T (⟨.opening, text, o⟩ :: ts) true r? := by
  have hstep : ∀ us n, operand T false (n + 1) (⟨.opening, text, o⟩ :: us) = (do
      let b ← bracketed T false (subterm T false n endPower) ⟨.opening, text, o⟩ us
      return (some b.1, b.2)) := by
    intro us n
    simp only [operand]
    rfl
  refine ⟨⟨⟨_, _, rfl, by simp, htext⟩, ?_, ?_⟩, ?_⟩
  · intro rest _
    rw [List.cons_append]
    cases ts ++ rest <;> simp [isLone, isBareOperator]
  · intro rest
    have hbind := (h rest).bind (g := fun _ b => pure (some b.1, b.2))
      (q := fun b => some (some b.1, b.2)) fun b _ => settles_of_eq fun _ => rfl
    have hsucc := hbind.succ (g := fun n => operand T false n (⟨.opening, text, o⟩ :: (ts ++ rest)))
      fun n => hstep (ts ++ rest) n
    cases r? <;> exact hsucc
  · rintro t ht
    cases ht
    rfl

theorem ReadsTerm.grouped (h : ReadsTerm T ts r?) (c : Nat) (rest : List Token) :
    Settles (fun n => grouped false (subterm T false n endPower) (ts ++ ⟨.closing, ")", c⟩ :: rest))
      (r?.map fun r => (r, rest)) := by
  have hcloses : Closes (⟨.closing, ")", c⟩ :: rest) := closes_cons rfl
  have hbind := (h _ hcloses).bind (g := fun _ b => expect false .closing ")" b.2 >>= fun e =>
    pure (b.1, e.2)) (q := fun b => some (b.1, rest)) ?_
  · cases r? <;> exact hbind
  · rintro b hb
    obtain ⟨r, -, rfl⟩ := Option.map_eq_some_iff.1 hb
    exact settles_of_eq fun n => by simp [expect, next]; rfl

/-- **A term in brackets is one argument.** -/
theorem ReadsGroup.readsUnit (h : ReadsGroup T ts r?) (o c : Nat) :
    ReadsUnit T (⟨.opening, "(", o⟩ :: (ts ++ [⟨.closing, ")", c⟩])) true r? := by
  refine readsUnit_opening (by decide) ?_
  intro rest
  rw [List.append_assoc, List.singleton_append]
  exact (h.reads.grouped c rest).congr fun n => bracketed_of_not_lone (h.lone c rest) _ rfl

theorem readsUnit_operator {t : Token} (hbare : isBareOperator T t = true) (o c : Nat) :
    ReadsUnit T [⟨.opening, "(", o⟩, t, ⟨.closing, ")", c⟩] true (some (T.leaf t.text)) := by
  refine readsUnit_opening (by decide) fun rest => settles_of_eq ?_
  intro n
  simp [bracketed, hbare]
  rfl

theorem abstraction_eq {b : String} (hb : Name.isVariable b = true) (inner : Reader PlainTerm)
    (i d : Nat) (us : List Token) :
    abstraction false inner (⟨.ident, b, i⟩ :: ⟨.symbol, ".", d⟩ :: us) = (do
      let m ← inner us
      let ((), us) ← expect false .closing "\x7d" m.2
      return (.lambda b m.1, us)) := by
  simp [abstraction, next, expect, hb, bind, Except.bind, pure, Except.pure]

/-- **An abstraction is one argument.** -/
theorem readsUnit_brace {b : String} (hb : Name.isVariable b = true) (h : ReadsTerm T ts r?)
    (o i d c : Nat) : ReadsUnit T (⟨.opening, "\x7b", o⟩ :: ⟨.ident, b, i⟩ :: ⟨.symbol, ".", d⟩ ::
      (ts ++ [⟨.closing, "\x7d", c⟩])) true (r?.map fun r => .lambda b r) := by
  refine readsUnit_opening (by decide) ?_
  intro rest
  have hcloses : Closes (⟨.closing, "\x7d", c⟩ :: rest) := closes_cons rfl
  have hbind := (h _ hcloses).bind (g := fun _ m => do
    let ((), us) ← expect false .closing "\x7d" m.2
    return (Term.lambda b m.1, us)) (q := fun m => some (.lambda b m.1, rest)) ?_
  · simp only [List.cons_append, List.append_assoc, List.nil_append]
    have hsettles := hbind.congr fun n =>
      abstraction_eq hb (subterm T false n endPower) i d (ts ++ ⟨.closing, "\x7d", c⟩ :: rest)
    cases r? <;> exact hsettles
  · rintro m hm
    obtain ⟨r, -, rfl⟩ := Option.map_eq_some_iff.1 hm
    exact settles_of_eq fun n => by simp [expect, next]; rfl

end Brackets

/-! ## What printed terms consist of -/

section Forms

variable {us vs : List Token} {l? r? : Option PlainTerm} {t : Token}

/-- A token that is an operand is an argument too. -/
theorem readsUnit_token {m : PlainTerm} (hkind : t.kind ≠ .closing) (htext : t.text ≠ ")")
    (hpower : T.tokenPower t = namePower)
    (hread : ∀ n rest, operand T false n (t :: rest) = .ok (some m, rest)) :
    ReadsUnit T [t] false (some m) := by
  refine ⟨⟨⟨t, [], rfl, hkind, htext⟩, ?_, ?_⟩, ?_⟩
  · intro rest hrest
    cases rest with
    | nil => rfl
    | cons u rest =>
      have hu : u.text ≠ ")" := hrest u rfl
      simp [isLone, hu]
  · intro rest
    exact settles_of_eq fun n => by rw [List.singleton_append, hread]; rfl
  · rintro u hu
    cases hu
    exact hpower

theorem readsOperand_numeral (hminus : HasMinus T) {digits : String} (hdigits : digits ≠ ")")
    (offset : Nat) : ReadsOperand T [⟨.symbol, "-", offset⟩, ⟨.number, digits, offset + 1⟩]
      (some (.named ("-" ++ digits))) := by
  refine ⟨⟨_, _, rfl, by simp, by simp⟩, ?_, ?_⟩
  · intro rest _
    simp [isLone, hdigits]
  · intro rest
    exact settles_of_eq fun n => by
      show (operand T false n
        (⟨.symbol, "-", offset⟩ :: ⟨.number, digits, offset + 1⟩ :: rest)).toOption = _
      rw [operand_numeral hminus]
      rfl

/-- A numeral in brackets. -/
theorem readsGroup_numeral (hminus : HasMinus T) {digits : String} (hdigits : digits ≠ ")")
    (offset : Nat) : ReadsGroup T [⟨.symbol, "-", offset⟩, ⟨.number, digits, offset + 1⟩]
      (some (.named ("-" ++ digits))) :=
  ⟨(readsOperand_numeral hminus hdigits offset).readsTerm, fun _ _ => by simp [isLone, hdigits]⟩

/-- An operator after its only operand. -/
theorem readsGroup_section (h : ReadsOperand T us l?) (htext : t.text ≠ ")")
    (hpower : endPower < T.tokenPower t) (hlow : T.tokenPower t < namePower)
    (hbefore : T.isBefore t.text = false) :
    ReadsGroup T (us ++ [t]) (l?.map fun l => .call (T.leaf t.text) l) := by
  constructor
  · intro rest hrest
    have hchain : ∀ l, Settles (fun n => chain T false n endPower false l (t :: rest))
        (some (.call (T.leaf t.text) l, rest)) := fun l =>
      ((settles_pure _).congr fun n => chain_closes hrest n).succ fun n =>
        chain_section hpower hlow hbefore hrest n
    have hseq := h.sequence _ endPower false fun l _ => hchain l
    rw [List.append_assoc]
    cases l? <;> exact hseq
  · intro c rest
    rw [List.append_assoc]
    exact h.lone _ fun u hu => by cases hu; exact htext

/-- An operator between its two operands. -/
theorem readsGroup_between (h : ReadsOperand T us l?) (h' : ReadsOperand T vs r?)
    (htext : t.text ≠ ")") (hpower : endPower < T.tokenPower t)
    (hlow : T.tokenPower t < namePower) (hbefore : T.isBefore t.text = false) :
    ReadsGroup T (us ++ t :: vs)
      (l?.bind fun l => r?.map fun r => .callBetween l (T.leaf t.text) r) := by
  constructor
  · intro rest hrest
    obtain ⟨u, vs', rfl, hu, -⟩ := h'.first
    have hchain : ∀ l, Settles (fun n => chain T false n endPower false l (t :: (u :: vs' ++ rest)))
        (r?.map fun r => (.callBetween l (T.leaf t.text) r, rest)) := by
      intro l
      have hright := h'.sequence rest (T.tokenPower t) false
        fun r _ => (settles_pure (r, rest)).congr fun n => chain_closes hrest n
      have hbind := hright.bind (g := fun n q => chain T false n endPower false
        (.callBetween l (T.leaf t.text) q.1) q.2)
        (q := fun q => some (.callBetween l (T.leaf t.text) q.1, rest)) ?_
      · have hsucc := hbind.succ
          (g := fun n => chain T false n endPower false l (t :: (u :: vs' ++ rest)))
          fun n => chain_between hpower hlow hbefore hu n
        cases r? <;> exact hsucc
      · rintro q hq
        obtain ⟨r, -, hr⟩ := Option.bind_eq_some_iff.1 hq
        cases hr
        exact (settles_pure _).congr fun n => chain_closes hrest n
    have hseq := h.sequence _ endPower false fun l _ => hchain l
    rw [List.append_assoc]
    cases l? with
    | none => exact hseq
    | some l => cases r? <;> exact hseq
  · intro c rest
    rw [List.append_assoc]
    exact h.lone _ fun u hu => by cases hu; exact htext

theorem ReadsRow.first {is : List Item} (h : ReadsRow T is us) (his : is ≠ []) :
    ∃ t us', us = t :: us' ∧ t.text ≠ ")" := by
  cases is with
  | nil => exact absurd rfl his
  | cons i is =>
    obtain ⟨vs, ws, hvs, -, rfl⟩ := h
    cases i with
    | unit opens r? =>
      have hvs : ReadsUnit T vs opens r? := hvs
      obtain ⟨t, vs', rfl, -, htext⟩ := hvs.first
      exact ⟨t, vs' ++ ws, rfl, htext⟩
    | minus digits =>
      obtain ⟨offset, rfl⟩ := hvs
      exact ⟨_, _, rfl, by simp⟩

/-- An operand and arguments. -/
theorem readsGroup_row (hminus : HasMinus T) {is : List Item} (h : ReadsOperand T us r?)
    (hrow : ReadsRow T is vs) (his : is ≠ []) :
    ReadsGroup T (us ++ vs) (r?.bind fun r => rowTerm none r is) := by
  refine ⟨h.row hminus hrow, ?_⟩
  intro c rest
  obtain ⟨t, vs', rfl, htext⟩ := hrow.first his
  rw [List.append_assoc]
  exact h.lone _ fun u hu => by cases hu; exact htext

/-- An operator before what it takes in, and the row that this leaves. -/
theorem subterm_before (hminus : HasMinus T) (hkind : IsName t) (hbefore : T.isBefore t.text = true)
    {ts rest : List Token} (ws : List Token) (taken? : Option (PlainTerm × List Item))
    (htaken : Settles
      (fun n => sequence false (operand T false n) (chain T false n beforePower true) ts)
      (taken?.map fun q => (q.1, ws ++ rest)))
    (hrow : ∀ m is, taken? = some (m, is) → ReadsRow T is ws) (hrest : Closes rest) :
    Settles (fun n => subterm T false n endPower (t :: ts))
      ((taken?.bind fun q => rowTerm none (.call (T.leaf t.text) q.1) q.2).map
        fun r => (r, rest)) := by
  have hcall := htaken.bind (g := fun _ q => pure (some (Term.call (T.leaf t.text) q.1), q.2))
    (q := fun q => some (some (.call (T.leaf t.text) q.1), q.2))
    fun q _ => settles_of_eq fun _ => rfl
  have hoperand := hcall.succ (g := fun n => operand T false n (t :: ts))
    fun n => operand_before hkind hbefore n
  have hoperand : Settles (fun n => operand T false n (t :: ts))
      ((taken?.map fun q => .call (T.leaf t.text) q.1).map fun r => (some r, ws ++ rest)) := by
    cases taken? <;> exact hoperand
  have hsubterm := hoperand.sequence endPower false (q := fun _ =>
    (taken?.bind fun q => rowTerm none (.call (T.leaf t.text) q.1) q.2).map fun r => (r, rest)) ?_
  · cases taken? <;> exact hsubterm
  · rintro r hr
    obtain ⟨q, rfl, rfl⟩ := Option.map_eq_some_iff.1 hr
    exact chain_row hminus (hrow q.1 q.2 rfl) hrest _

/-- An operator before its operand, and more arguments: those in brackets are arguments of its
operand. -/
theorem readsGroup_before (hminus : HasMinus T) {is : List Item} (hkind : IsName t)
    (hbefore : T.isBefore t.text = true) (h : ReadsOperand T us r?) (hrow : ReadsRow T is vs) :
    ReadsGroup T (t :: (us ++ vs)) ((r?.bind fun r => absorb beforePower r is).bind fun q =>
      rowTerm none (.call (T.leaf t.text) q.1) q.2) := by
  constructor
  · intro rest hrest
    rw [List.cons_append, List.append_assoc]
    cases r? with
    | none =>
      have hnone := h.sequence (vs ++ rest) beforePower true
        (q := fun _ => none) fun r hr => by cases hr
      exact subterm_before hminus hkind hbefore [] none hnone nofun hrest
    | some r =>
      obtain ⟨ws, hws, habsorb⟩ :=
        chain_absorb hminus hrow hrest (p := beforePower) (by decide) true r
      have hsome := h.sequence _ beforePower true
        (q := fun r => (absorb beforePower r is).map fun q => (q.1, ws ++ rest))
        fun r' hr => by cases hr; exact habsorb
      exact subterm_before hminus hkind hbefore ws _ hsome hws hrest
  · intro c rest
    obtain ⟨u, us', rfl, -, htext⟩ := h.first
    simp [isLone, htext]

end Forms

end ProofKernel.Parser
