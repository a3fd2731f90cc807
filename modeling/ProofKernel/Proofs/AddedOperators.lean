import ProofKernel.Proofs.AlikeRows
import ProofKernel.Proofs.ExtendedTables

/-!
# Tables with one more operator

* `OperatorTable.addInPlace`: adding an operator to a table that is the state, one spelling after the
  other;
* `OperatorTable.addInPlace_of_error`, `OperatorTable.addInPlace_of_ok`: it is `OperatorTable.add`, and
  leaves the table as it is where that fails;
* `Term.parse_congr`: reading looks up the texts of tokens only;
* `Term.parse_conservative`: so an operator changes nothing for texts without its spellings.
-/

namespace ProofKernel

namespace OperatorTable

variable {T T' : OperatorTable} {op : Operator}

/-! ## Adding in place -/

/-- The table with an operator for a spelling, in place of the one that it may have had for it. -/
def insert (T : OperatorTable) (key : String) (op : Operator) : OperatorTable :=
  ⟨T.entries.filter (fun entry => entry.1 ≠ key) ++ [(key, op)]⟩

/-- Changes of a table that may fail; what they changed before stays changed. -/
abbrev Update := ExceptT OperatorError (StateM OperatorTable)

/-- Fails at the first spelling that the table has. -/
def checkNew (keys : List String) : Update Unit :=
  keys.forM fun key => do
    if ((← get).get? key).isSome then throw (.alreadyDefined key)

/-- Inserts an operator for each spelling. -/
def insertAll (op : Operator) (keys : List String) : Update Unit :=
  keys.forM fun key => modify fun T => T.insert key op

/-- Adds an operator: looks all its spellings up, and inserts them one after the other. -/
def addInPlace (op : Operator) : Update Unit := do
  if op.fixity = .between ∧ !isInfixPower op.prec then throw (.badPrecedence op.symbol op.prec)
  checkNew op.keys
  insertAll op op.keys

theorem get?_insert (T : OperatorTable) (key : String) (op : Operator) (key' : String) :
    (T.insert key op).get? key' = if key' = key then some op else T.get? key' := by
  unfold get? insert
  rw [List.find?_append, List.find?_filter]
  by_cases h : key' = key
  · have hnone : T.entries.find? (fun _ => false) = none :=
      List.find?_eq_none.2 fun _ _ => Bool.false_ne_true
    subst h
    simp [hnone]
  · have hentry : ∀ entry : String × Operator,
        entry.1 ≠ key ∧ entry.1 = key' ↔ entry.1 = key' := by
      intro entry
      constructor
      · exact And.right
      · rintro rfl
        exact ⟨h, rfl⟩
    simp only [decide_eq_true_eq, hentry]
    simp [h, Ne.symm h]

theorem get?_insertAll (T : OperatorTable) (keys : List String) (op : Operator) (key' : String) :
    (keys.foldl (fun T key => T.insert key op) T).get? key' =
      if key' ∈ keys then some op else T.get? key' := by
  induction keys generalizing T with
  | nil => rfl
  | cons key keys ih =>
    rw [List.foldl_cons, ih, get?_insert]
    by_cases hkeys : key' ∈ keys <;> by_cases hkey : key' = key <;> simp [hkeys, hkey]

theorem checkNew_run (keys : List String) : (checkNew keys).run T =
    (match keys.find? fun key => (T.get? key).isSome with
    | some key => .error (.alreadyDefined key)
    | none => .ok (), T) := by
  induction keys with
  | nil => rfl
  | cons key keys ih =>
    have hstep : (checkNew (key :: keys)).run T =
        ((if (T.get? key).isSome then throw (.alreadyDefined key) else pure () : Update Unit) >>=
          fun _ => checkNew keys).run T := rfl
    rw [hstep, List.find?_cons]
    cases (T.get? key).isSome with
    | true => rfl
    | false => exact ih

theorem insertAll_run (op : Operator) (keys : List String) :
    (insertAll op keys).run T = (.ok (), keys.foldl (fun T key => T.insert key op) T) := by
  induction keys generalizing T with
  | nil => rfl
  | cons key keys ih => exact ih

theorem andThen_run (x y : Update Unit) (T : OperatorTable) : (x >>= fun _ => y).run T =
    match x.run T with
    | (.error e, T) => (.error e, T)
    | (.ok (), T) => y.run T := by
  show ExceptT.bindCont (fun _ => y) (x.run T).1 (x.run T).2 = _
  rcases x.run T with ⟨_ | _, T₁⟩ <;> rfl

theorem addInPlace_run (op : Operator) : (addInPlace op).run T =
    if op.fixity = .between ∧ !isInfixPower op.prec then
      (.error (.badPrecedence op.symbol op.prec), T)
    else match op.keys.find? fun key => (T.get? key).isSome with
      | some key => (.error (.alreadyDefined key), T)
      | none => (.ok (), op.keys.foldl (fun T key => T.insert key op) T) := by
  have hrest : (checkNew op.keys >>= fun _ => insertAll op op.keys).run T =
      match op.keys.find? fun key => (T.get? key).isSome with
      | some key => (.error (.alreadyDefined key), T)
      | none => (.ok (), op.keys.foldl (fun T key => T.insert key op) T) := by
    rw [andThen_run, checkNew_run]
    cases op.keys.find? fun key => (T.get? key).isSome with
    | some key => rfl
    | none => exact insertAll_run op op.keys
  unfold addInPlace
  split
  next => rfl
  next => exact hrest

/-- Where an operator is not added, the table stays as it is. -/
theorem addInPlace_of_error {e : OperatorError} (h : T.add op = .error e) :
    (addInPlace op).run T = (.error e, T) := by
  rw [addInPlace_run]
  unfold add at h
  by_cases hpower : op.fixity = .between ∧ !isInfixPower op.prec
  · rw [if_pos hpower] at h
    cases h
    rw [if_pos hpower]
  · rw [if_neg hpower] at h
    rw [if_neg hpower]
    cases hkey : op.keys.find? fun key => (T.get? key).isSome with
    | some key =>
      rw [hkey] at h
      cases h
      rfl
    | none =>
      rw [hkey] at h
      cases h

/-- Where an operator is added, the table is the one with it. -/
theorem addInPlace_of_ok (h : T.add op = .ok T') :
    ∃ T₁, (addInPlace op).run T = (.ok (), T₁) ∧ ∀ key, T₁.get? key = T'.get? key := by
  obtain ⟨hnew, hpower, -⟩ := add_eq_ok h
  refine ⟨op.keys.foldl (fun T key => T.insert key op) T, ?_, fun key => ?_⟩
  · have hnone : op.keys.find? (fun key => (T.get? key).isSome) = none :=
      List.find?_eq_none.2 fun key hkey => by simp [hnew key hkey]
    rw [addInPlace_run, if_neg (by simpa using hpower), hnone]
  · rw [get?_insertAll, get?_add h]

end OperatorTable

/-! ## Reading with more operators -/

namespace Parser

variable {T T' : OperatorTable}

/-- A reader looks the texts of tokens up, and nothing else. -/
theorem LooksAlike.of_get? {t : Token} (h : T.get? t.text = T'.get? t.text) :
    LooksAlike T T' t t where
  kind := .inl rfl
  text := fun _ => rfl
  leaf := fun _ => by simp only [OperatorTable.leaf, h]
  before := by simp only [OperatorTable.isBefore, h]
  power := by simp only [OperatorTable.tokenPower, OperatorTable.power, h]
  bare := by simp only [isBareOperator, h]
  minus := .rfl
  closes := .rfl
  binder := ⟨.rfl, fun _ => rfl⟩
  dot := .rfl

/-- Tables that have the same operators for the tokens of a row read it the same way. -/
theorem whole_congr {n : Nat} {s : TokenStream}
    (h : ∀ t ∈ s.tokens, T.get? t.text = T'.get? t.text) : whole T n s = whole T' n s := by
  have hlook : ∀ t t', t = t' ∧ T.get? t.text = T'.get? t.text → LooksAlike T T' t t' := by
    rintro t _ ⟨rfl, hget⟩
    exact .of_get? hget
  have hagrees := whole_agrees hlook n (.refl fun t ht => ⟨rfl, h t ht⟩) rfl
  revert hagrees
  generalize whole T n s = x
  generalize whole T' n s = x'
  intro hagrees
  cases hagrees with
  | ok hm => rw [hm]
  | error hmatches =>
    cases hmatches with
    | stuck => rfl
    | ended => rfl
    | refused cause htoken => rw [htoken.1]

end Parser

theorem Term.parse_congr {T T' : OperatorTable} {text : String}
    (h : ∀ t ∈ (Token.scan text).tokens, T.get? t.text = T'.get? t.text) (limit : Nat) :
    parse T limit text = parse T' limit text := by
  show (Parser.whole T limit (Token.scan text)).mapError _ = _
  rw [Parser.whole_congr h]
  rfl

/-- **One more operator changes nothing else.** Where an operator is not added, the table stays as it
is. Where it is added, texts of which no token is one of its spellings are read as before: as the same
term, with the names as shown, or with the same error at the same place. -/
theorem Term.parse_conservative (T : OperatorTable) (op : Operator) :
    (∀ e, T.add op = .error e → (OperatorTable.addInPlace op).run T = (.error e, T)) ∧
    ∀ T', T.add op = .ok T' →
      (∃ T₁, (OperatorTable.addInPlace op).run T = (.ok (), T₁) ∧
        ∀ key, T₁.get? key = T'.get? key) ∧
      ∀ text, (∀ t ∈ (Token.scan text).tokens, t.text ∉ op.keys) →
        ∀ limit, parse T' limit text = parse T limit text := by
  refine ⟨fun e => OperatorTable.addInPlace_of_error, fun T' hadd =>
    ⟨OperatorTable.addInPlace_of_ok hadd, fun text htext limit => parse_congr ?_ limit⟩⟩
  intro t ht
  rw [OperatorTable.get?_add hadd, if_neg (htext t ht)]

/-- An operator whose second spelling is taken, which is not added under the first one either, and one
that is added: a text in which a symbol is not closed ends with the same error. -/
theorem Term.parse_conservative_both :
    let T := OperatorTable.standard
    let sum : Operator := ⟨"sum", .between, 35, "sum", some "+"⟩
    let division : Operator := ⟨"over", .between, 45, "/", some "÷"⟩
    let T' : OperatorTable := ⟨T.entries ++ [("over", division), ("÷", division)]⟩
    T.add sum = .error (.alreadyDefined "+") ∧
      (OperatorTable.addInPlace sum).run T = (.error (.alreadyDefined "+"), T) ∧
    T.add division = .ok T' ∧
      (∀ t ∈ (Token.scan "(x ∧ - 5").tokens, t.text ∉ division.keys) ∧
      parse T' 9 "(x ∧ - 5" = parse T 9 "(x ∧ - 5" := by
  intro T sum division T'
  have hsum : T.add sum = .error (.alreadyDefined "+") := by decide
  have hdivision : T.add division = .ok T' := by decide
  have htext : ∀ t ∈ (Token.scan "(x ∧ - 5").tokens, t.text ∉ division.keys := by decide +kernel
  exact ⟨hsum, (parse_conservative T sum).1 _ hsum, hdivision, htext,
    ((parse_conservative T division).2 T' hdivision).2 _ htext 9⟩

end ProofKernel
