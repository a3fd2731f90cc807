import ProofKernel.Proofs.ReadingBack

/-!
# Which terms are printed so that they are read back

Printing keeps a term apart from what reading would take it for, except in three places: an operator
that is the whole term or the body of an abstraction, a numeral with a minus sign that is no
negative number, among other arguments, and an operator before its operand whose second argument is
in brackets.

* `OperatorTable.readsBackOn`, `Term.readsBack`: the terms without these;
* `OperatorTable.reread_of_readsBackOn`: they are read as themselves;
* `OperatorTable.readsBackOn_of_reread`: no other term is read as one that is equal to it;
* `Term.parse_pretty`: so the texts of terms that are read are read back in exactly these cases.
-/

namespace ProofKernel

open ProofKernel.Token ProofKernel.Parser

/-! ## Terms that are read back -/

namespace OperatorTable

/-- A numeral with a minus sign that is no negative number: it is zero, or 64 bits do not hold it.
Among other arguments it gets no brackets. -/
def isLoose (T : OperatorTable) : PlainTerm → Bool
  | .var a => match T.role a with
    | .numeral _ negative => !negative
    | _ => false
  | _ => false

/-- A term that is in brackets among other arguments. -/
def isBracketed (T : OperatorTable) : PlainTerm → Bool
  | .var a => match T.role a with
    | .name => false
    | .numeral _ negative => negative
    | .between | .before => true
  | _ => true

/-- Whether a leaf and its arguments are told apart where they stand side by side. -/
def setsApart (T : OperatorTable) (a : Atom Unit) (xs : List PlainTerm) : Bool :=
  match T.role a with
  | .between => (xs.drop 2).all fun x => !T.isLoose x
  | .before =>
    (xs.tail.all fun x => !T.isLoose x) && xs.tail.head?.all fun x => !T.isBracketed x
  | _ => xs.all fun x => !T.isLoose x

/-- Whether a term that is called on arguments is read back, if they are. -/
def readsBackOn (T : OperatorTable) : PlainTerm → List PlainTerm → Bool
  | .var a, [] => !T.isOperator a
  | .var a, x :: xs => T.setsApart a (x :: xs)
  | .app _ f x, xs => (x.isLeaf || T.readsBackOn x []) && T.readsBackOn f (x :: xs)
  | .abs _ _ body, xs => T.readsBackOn body [] && xs.all fun x => !T.isLoose x

end OperatorTable

/-- Whether the text of a term is read as the term. -/
def Term.readsBack (T : OperatorTable) (m : PlainTerm) : Bool := T.readsBackOn m []

/-! ## Calls on several arguments -/

namespace Term

/-- The call on one argument after the other. -/
def applyAll (f : PlainTerm) (xs : List PlainTerm) : PlainTerm := xs.foldl call f

/-- The number of arguments of a chain of calls. -/
def arity : PlainTerm → Nat
  | .app _ f _ => f.arity + 1
  | _ => 0

@[simp] theorem applyAll_nil (f : PlainTerm) : f.applyAll [] = f := rfl

@[simp] theorem applyAll_cons (f x : PlainTerm) (xs : List PlainTerm) :
    f.applyAll (x :: xs) = (f.call x).applyAll xs := rfl

theorem head_bare {ι : Type} (m : Term ι) : m.bare.head = m.head.bare := by
  induction m with
  | var a => rfl
  | app tag f x ihf ihx => exact ihf
  | abs tag b body ih => rfl

theorem arity_bare (m : PlainTerm) : m.bare.arity = m.arity := by
  induction m with
  | var a => rfl
  | app tag f x ihf ihx => exact congrArg (· + 1) ihf
  | abs tag b body ih => rfl

theorem head_applyAll (f : PlainTerm) (xs : List PlainTerm) : (f.applyAll xs).head = f.head := by
  induction xs generalizing f with
  | nil => rfl
  | cons x xs ih => exact ih (f.call x)

theorem arity_applyAll (f : PlainTerm) (xs : List PlainTerm) :
    (f.applyAll xs).arity = f.arity + xs.length := by
  induction xs generalizing f with
  | nil => rfl
  | cons x xs ih =>
    have harity : (f.call x).arity = f.arity + 1 := rfl
    rw [applyAll_cons, ih, harity, List.length_cons]
    omega

/-- Equal calls on equally many arguments have equal heads and equal numbers of arguments. -/
theorem head_eq_of_bare_eq {m n : PlainTerm} (h : m.bare = n.bare) :
    m.head.bare = n.head.bare ∧ m.arity = n.arity := by
  have hhead := congrArg head h
  have harity := congrArg arity h
  rw [head_bare, head_bare] at hhead
  rw [arity_bare, arity_bare] at harity
  exact ⟨hhead, harity⟩

end Term

/-! ## How arguments are read -/

namespace OperatorTable

variable {T : OperatorTable}

/-- How an argument is read. -/
def hear (T : OperatorTable) (x : PlainTerm) : Heard := T.heard x (T.reread x [])

theorem hear_leaf (a : Atom Unit) : (T.hear (.var a)).operand = some (.var a) := by
  rw [hear, heard]
  split <;> rfl

theorem hear_of_not_leaf {x : PlainTerm} (h : x.isLeaf = false) :
    (T.hear x).operand = T.reread x [] := by
  cases x with
  | var a => cases h
  | app tag f y => rfl
  | abs tag b body => rfl

theorem item_of_loose {x : PlainTerm} (h : T.isLoose x = true) :
    ∃ digits, (T.hear x).item = .minus digits := by
  cases x with
  | var a =>
    rw [hear, heard]
    cases hrole : T.role a with
    | numeral digits negative =>
      have hnegative : negative = false := by simpa [isLoose, hrole] using h
      rw [hnegative]
      exact ⟨digits, rfl⟩
    | _ => simp [isLoose, hrole] at h
  | app tag f y => cases h
  | abs tag b body => cases h

theorem item_of_not_loose {x : PlainTerm} (h : T.isLoose x = false) :
    (T.hear x).item = .unit (T.isBracketed x) (T.hear x).operand := by
  cases x with
  | var a =>
    rw [hear, heard, isBracketed]
    cases hrole : T.role a with
    | numeral digits negative =>
      have hnegative : negative = true := by simpa [isLoose, hrole] using h
      rw [hnegative]
    | name => rfl
    | between => rfl
    | before => rfl
  | app tag f y => rfl
  | abs tag b body => rfl

theorem items_hear (xs : List PlainTerm) :
    (xs.map T.hear).map Heard.item = xs.map fun x => (T.hear x).item := List.map_map

theorem all_not_loose {xs : List PlainTerm} :
    (xs.all fun x => !T.isLoose x) = true ↔ ∀ x ∈ xs, T.isLoose x = false := by
  simp [List.all_eq_true]

/-! ## Rows of arguments -/

/-- Arguments that are read as themselves, none of them loose, make up a call on them. -/
theorem rowTerm_of_heard {xs : List PlainTerm} (hloose : ∀ x ∈ xs, T.isLoose x = false)
    (hxs : ∀ x ∈ xs, (T.hear x).operand = some x) (f : PlainTerm) :
    rowTerm none f (xs.map fun x => (T.hear x).item) = some (f.applyAll xs) := by
  induction xs generalizing f with
  | nil => rfl
  | cons x xs ih =>
    obtain ⟨hx, hloose⟩ := List.forall_mem_cons.1 hloose
    obtain ⟨hheard, hxs⟩ := List.forall_mem_cons.1 hxs
    rw [List.map_cons, item_of_not_loose hx, rowTerm, hheard]
    exact ih hloose hxs (f.call x)

/-- What is read of arguments is equal to them. -/
def Hears (T : OperatorTable) (x : PlainTerm) : Prop :=
  ∃ y, (T.hear x).operand = some y ∧ y.bare = x.bare

theorem hears_of_rowTerm {xs : List PlainTerm} (hloose : ∀ x ∈ xs, T.isLoose x = false)
    {f g r : PlainTerm} (hr : rowTerm none f (xs.map fun x => (T.hear x).item) = some r)
    (hbare : r.bare = (g.applyAll xs).bare) : f.bare = g.bare ∧ ∀ x ∈ xs, T.Hears x := by
  induction xs generalizing f g with
  | nil =>
    cases hr
    exact ⟨hbare, List.forall_mem_nil _⟩
  | cons x xs ih =>
    obtain ⟨hx, hloose⟩ := List.forall_mem_cons.1 hloose
    rw [List.map_cons, item_of_not_loose hx, rowTerm] at hr
    obtain ⟨y, hy, hr⟩ := Option.bind_eq_some_iff.1 hr
    obtain ⟨hcall, hxs⟩ := ih hloose hr hbare
    have hparts : f.bare = g.bare ∧ y.bare = x.bare := by
      simpa [Term.bare, Term.call] using hcall
    exact ⟨hparts.1, List.forall_mem_cons.2 ⟨⟨y, hy, hparts.2⟩, hxs⟩⟩

theorem rowTerm_some {is : List Item} {left current r : PlainTerm}
    (h : rowTerm (some left) current is = some r) :
    ∃ l c, r = .callBetween l (.named "-") c := by
  induction is generalizing left current with
  | nil =>
    cases h
    exact ⟨left, current, rfl⟩
  | cons i is ih =>
    cases i with
    | minus digits => exact ih h
    | unit opens r? =>
      obtain ⟨y, -, h⟩ := Option.bind_eq_some_iff.1 h
      exact ih h

/-- A row is read as a call on all of it, or as a subtraction; as a subtraction if it has a minus
sign. -/
theorem rowTerm_none {is : List Item} {current r : PlainTerm}
    (h : rowTerm none current is = some r) :
    (∃ l c, r = .callBetween l (.named "-") c) ∨
      (∀ digits, .minus digits ∉ is) ∧ r.arity = current.arity + is.length := by
  induction is generalizing current with
  | nil =>
    cases h
    exact .inr ⟨fun _ => List.not_mem_nil, rfl⟩
  | cons i is ih =>
    cases i with
    | minus digits => exact .inl (rowTerm_some h)
    | unit opens r? =>
      obtain ⟨y, -, h⟩ := Option.bind_eq_some_iff.1 h
      refine (ih h).imp id fun ⟨hminus, harity⟩ => ⟨fun digits hmem => ?_, ?_⟩
      · rcases List.mem_cons.1 hmem with hhead | hmem
        · cases hhead
        · exact hminus digits hmem
      · have hcall : (current.call y).arity = current.arity + 1 := rfl
        rw [harity, hcall, List.length_cons]
        omega

/-- A subtraction is no call of anything else, and no call on more than two arguments. -/
theorem callBetween_ne {l c g : PlainTerm} {xs : List PlainTerm}
    (hg : g.head.bare ≠ .named "-" ∨ 2 < g.arity + xs.length) :
    (Term.callBetween l (.named "-") c).bare ≠ (g.applyAll xs).bare := by
  intro hbare
  obtain ⟨hhead, harity⟩ := Term.head_eq_of_bare_eq hbare
  rw [Term.head_applyAll] at hhead
  rw [Term.arity_applyAll] at harity
  rcases hg with hg | hg
  · exact hg hhead.symm
  · have htwo : (Term.callBetween l (.named "-") c).arity = 2 := rfl
    omega

/-- A row that is read as something equal to a call has no loose arguments. -/
theorem row_reads {xs : List PlainTerm} {f g r : PlainTerm}
    (hg : g.head.bare ≠ .named "-" ∨ 2 ≤ g.arity)
    (hr : rowTerm none f (xs.map fun x => (T.hear x).item) = some r)
    (hbare : r.bare = (g.applyAll xs).bare) :
    f.bare = g.bare ∧ (∀ x ∈ xs, T.isLoose x = false) ∧ ∀ x ∈ xs, T.Hears x := by
  have hloose : ∀ x ∈ xs, T.isLoose x = false := by
    intro x hx
    rcases rowTerm_none hr with ⟨l, c, rfl⟩ | ⟨hminus, -⟩
    · refine absurd hbare (callBetween_ne (hg.imp id ?_))
      intro harity
      have := List.length_pos_of_mem hx
      omega
    · by_contra hne
      obtain ⟨digits, hdigits⟩ := item_of_loose (by simpa using hne)
      exact hminus digits (List.mem_map.2 ⟨x, hx, hdigits⟩)
  obtain ⟨hhead, hxs⟩ := hears_of_rowTerm hloose hr hbare
  exact ⟨hhead, hloose, hxs⟩

/-- An operator before its operand takes in nothing more if the next argument has no brackets. -/
theorem absorb_of_not_bracketed {xs : List PlainTerm}
    (h : (xs.head?.all fun x => !T.isBracketed x) = true) (f : PlainTerm) :
    absorb beforePower f (xs.map fun x => (T.hear x).item) =
      some (f, xs.map fun x => (T.hear x).item) := by
  cases xs with
  | nil => rfl
  | cons x xs =>
    have hbracketed : T.isBracketed x = false := by simpa using h
    rw [List.map_cons]
    cases hloose : T.isLoose x with
    | true =>
      obtain ⟨digits, hdigits⟩ := item_of_loose hloose
      rw [hdigits]
      rfl
    | false =>
      rw [item_of_not_loose hloose, hbracketed]
      rfl

theorem not_loose_of_bracketed {x : PlainTerm} (h : T.isBracketed x = true) :
    T.isLoose x = false := by
  cases x with
  | var a =>
    cases hrole : T.role a with
    | numeral digits negative =>
      have hnegative : negative = true := by simpa [isBracketed, hrole] using h
      simp [isLoose, hrole, hnegative]
    | _ => simp [isLoose, hrole]
  | app tag f y => rfl
  | abs tag b body => rfl

/-- If the next argument is in brackets, it is taken in. -/
theorem length_of_absorb {x : PlainTerm} {xs : List PlainTerm} (h : T.isBracketed x = true)
    {f : PlainTerm} {q : PlainTerm × List Item}
    (hq : absorb beforePower f ((x :: xs).map fun x => (T.hear x).item) = some q) :
    q.2.length ≤ xs.length := by
  have hpower : beforePower < unitPower true := by decide
  rw [List.map_cons, item_of_not_loose (not_loose_of_bracketed h), h, absorb, if_pos hpower] at hq
  obtain ⟨y, -, hq⟩ := Option.bind_eq_some_iff.1 hq
  have hlength := length_le_of_absorb hq
  rwa [List.length_map] at hlength

/-! ## Calls of leaves -/

/-- Tables in which no operator before its operand stands for the minus sign. -/
class MinusBetween (T : OperatorTable) : Prop where
  entity_ne : ∀ key op, T.get? key = some op → op.fixity = .before → op.entity ≠ "-"

instance : MinusBetween .standard where
  entity_ne key op h := by
    have hall : ∀ entry ∈ standard.entries, entry.2.fixity = .before → entry.2.entity ≠ "-" := by
      decide
    exact hall (key, op) (mem_of_get? h)

/-- Only an operator between its operands may be the minus sign. -/
theorem head_ne_minus [T.MinusBetween] (hT : T.Legible) {a : Atom Unit} (ha : T.Leaf a)
    (hrole : T.role a ≠ .between) : (Term.var a).bare ≠ .named "-" := by
  intro hbare
  -- an operator with this name is in the table, so that the leaf is one before its operand
  have hname : a.name = "-" := by
    simpa [Term.bare, Term.named, Atom.plain] using hbare
  have hminus : T.get? "-" = some (.between "-" 30) := hT.minus
  have hop : (T.operatorOf? a).isSome = true := by
    simp [operatorOf?, hname, hminus]
  have hinf : T.isInfix a = false := by
    rw [Ne, role_eq_between] at hrole
    simpa using hrole
  have hbefore : T.role a = .before := by
    simp [role, hinf, hop]
  have hshows := ha.shows hT false
  rw [hbefore] at hshows
  obtain ⟨⟩ | ⟨⟩ | ⟨⟩ | @⟨kind, hword, hisBefore⟩ := hshows
  obtain ⟨op, hget, hfixity⟩ : ∃ op, T.get? (Style.atomText ⟨T, false⟩ a) = some op ∧
      op.fixity = .before := by
    simpa [isBefore, Option.any_eq_true] using hisBefore
  have hleaf := hword.leaf
  rw [leaf_listed hT hget] at hleaf
  cases hleaf
  exact MinusBetween.entity_ne _ op hget hfixity hname

theorem setsApart_reads {a : Atom Unit} {x : PlainTerm} {xs : List PlainTerm}
    (h : T.setsApart a (x :: xs) = true) (hxs : ∀ y ∈ x :: xs, (T.hear y).operand = some y) :
    T.reread (.var a) ((x :: xs).map T.hear) = some ((Term.var a).applyAll (x :: xs)) := by
  obtain ⟨hx, htail⟩ := List.forall_mem_cons.1 hxs
  unfold setsApart at h
  cases hrole : T.role a with
  | between =>
    rw [hrole] at h
    cases xs with
    | nil => simp [reread, hrole, hx]
    | cons y ys =>
      obtain ⟨hy, hys⟩ := List.forall_mem_cons.1 htail
      have hrow := rowTerm_of_heard (all_not_loose.1 h) hys (.callBetween x (.var a) y)
      simp only [reread, hrole, List.map_cons, hx, hy, items_hear, Option.bind_some]
      exact hrow
  | before =>
    rw [hrole] at h
    obtain ⟨hloose, hbracketed⟩ := Bool.and_eq_true_iff.1 h
    have hrow := rowTerm_of_heard (all_not_loose.1 hloose) htail (.call (.var a) x)
    have hbracketed : (xs.head?.all fun y => !T.isBracketed y) = true := hbracketed
    have habsorb := absorb_of_not_bracketed hbracketed x
    simp only [reread, hrole, List.map_cons, hx, items_hear, Option.bind_some, habsorb]
    exact hrow
  | _ =>
    rw [hrole] at h
    have hrow := rowTerm_of_heard (all_not_loose.1 h) hxs (.var a)
    simp only [reread, hrole, List.map_cons, items_hear]
    exact hrow

section Calls

variable {a : Atom Unit} {x r : PlainTerm} {xs : List PlainTerm}
  (hr : T.reread (.var a) ((x :: xs).map T.hear) = some r)
  (hbare : r.bare = ((Term.var a).applyAll (x :: xs)).bare)

include hr hbare

/-- Arguments that an operator stands between are no loose ones from the third on. -/
theorem between_of_reread (hrole : T.role a = .between) :
    T.setsApart a (x :: xs) = true ∧ ∀ y ∈ x :: xs, T.Hears y := by
  cases xs with
  | nil =>
    obtain ⟨y, hy, rfl⟩ : ∃ y, (T.hear x).operand = some y ∧ Term.call (.var a) y = r := by
      simpa [reread, hrole] using hr
    have hx : y.bare = x.bare := by simpa [Term.bare, Term.call] using hbare
    refine ⟨?_, List.forall_mem_cons.2 ⟨⟨y, hy, hx⟩, List.forall_mem_nil _⟩⟩
    rw [setsApart, hrole]
    rfl
  | cons z zs =>
    simp only [reread, hrole, List.map_cons, items_hear] at hr
    obtain ⟨y, hy, hr⟩ := Option.bind_eq_some_iff.1 hr
    obtain ⟨y', hy', hr⟩ := Option.bind_eq_some_iff.1 hr
    have harity : 2 ≤ (Term.callBetween x (.var a) z).arity := Nat.le_refl 2
    obtain ⟨hcall, hloose, hzs⟩ := row_reads (.inr harity) hr hbare
    obtain ⟨hx, hz⟩ : y.bare = x.bare ∧ y'.bare = z.bare := by
      simpa [Term.bare, Term.call, Term.callBetween] using hcall
    refine ⟨?_, List.forall_mem_cons.2
      ⟨⟨y, hy, hx⟩, List.forall_mem_cons.2 ⟨⟨y', hy', hz⟩, hzs⟩⟩⟩
    rw [setsApart, hrole]
    exact all_not_loose.2 hloose

variable (hhead : (Term.var a).bare ≠ .named "-")

include hhead

/-- The second argument of an operator before its operand is in no brackets: otherwise too few
arguments would be left to the operator. -/
theorem before_of_reread (hrole : T.role a = .before) :
    T.setsApart a (x :: xs) = true ∧ ∀ y ∈ x :: xs, T.Hears y := by
  simp only [reread, hrole, List.map_cons, items_hear] at hr
  obtain ⟨q, htaken, hrow⟩ := Option.bind_eq_some_iff.1 hr
  obtain ⟨y, hy, hq⟩ := Option.bind_eq_some_iff.1 htaken
  cases hbracketed : xs.head?.all fun x => !T.isBracketed x with
  | true =>
    rw [absorb_of_not_bracketed hbracketed] at hq
    cases hq
    obtain ⟨hcall, hloose, hxs⟩ := row_reads (g := .call (.var a) x) (.inl hhead) hrow hbare
    have hx : y.bare = x.bare := by simpa [Term.bare, Term.call] using hcall
    refine ⟨?_, List.forall_mem_cons.2 ⟨⟨y, hy, hx⟩, hxs⟩⟩
    rw [setsApart, hrole]
    exact Bool.and_eq_true_iff.2 ⟨all_not_loose.2 hloose, hbracketed⟩
  | false =>
    exfalso
    obtain ⟨z, zs, rfl, hz⟩ : ∃ z zs, xs = z :: zs ∧ T.isBracketed z = true := by
      cases xs with
      | nil => cases hbracketed
      | cons z zs => exact ⟨z, zs, rfl, by simpa using hbracketed⟩
    have hlength := length_of_absorb hz hq
    rcases rowTerm_none hrow with ⟨l, c, rfl⟩ | ⟨-, harity⟩
    · exact callBetween_ne (g := .var a) (.inl hhead) hbare
    · have hcount := (Term.head_eq_of_bare_eq hbare).2
      rw [Term.arity_applyAll] at hcount
      simp only [Term.arity, Term.call, List.length_cons] at harity hcount
      omega

end Calls

theorem setsApart_of_reread [T.MinusBetween] (hT : T.Legible) {a : Atom Unit} (ha : T.Leaf a)
    {x r : PlainTerm} {xs : List PlainTerm} (hr : T.reread (.var a) ((x :: xs).map T.hear) = some r)
    (hbare : r.bare = ((Term.var a).applyAll (x :: xs)).bare) :
    T.setsApart a (x :: xs) = true ∧ ∀ y ∈ x :: xs, T.Hears y := by
  have hhead : T.role a ≠ .between → (Term.var a).bare ≠ .named "-" := head_ne_minus hT ha
  cases hrole : T.role a with
  | between => exact between_of_reread hr hbare hrole
  | before => exact before_of_reread hr hbare (hhead (by simp [hrole])) hrole
  | _ =>
    have hitems : rowTerm none (.var a) ((x :: xs).map fun y => (T.hear y).item) = some r := by
      simpa only [reread, hrole, List.map_cons, items_hear] using hr
    have hne : (Term.var a).head.bare ≠ .named "-" := hhead (by simp [hrole])
    obtain ⟨-, hloose, hxs⟩ := row_reads (.inl hne) hitems hbare
    refine ⟨?_, hxs⟩
    rw [setsApart, hrole]
    exact all_not_loose.2 hloose

/-! ## Terms -/

/-- **Terms that are read back are read as themselves**, by induction on the term. -/
theorem reread_of_readsBackOn {m : PlainTerm} (hm : m.Written T)
    {xs : List PlainTerm} (h : T.readsBackOn m xs = true)
    (hxs : ∀ x ∈ xs, (T.hear x).operand = some x) :
    T.reread m (xs.map T.hear) = some (m.applyAll xs) := by
  induction m generalizing xs with
  | var a =>
    cases xs with
    | nil =>
      have hop : T.isOperator a = false := by simpa [readsBackOn] using h
      simp [reread, hop]
    | cons x xs => exact setsApart_reads h hxs
  | app tag f x ihf ihx =>
    obtain ⟨hx, hf⟩ := Bool.and_eq_true_iff.1 h
    have hheard : (T.hear x).operand = some x := by
      cases hleaf : x.isLeaf with
      | false =>
        have hread : T.reread x ([].map T.hear) = some (x.applyAll []) :=
          ihx hm.2 (by simpa [hleaf] using hx) (List.forall_mem_nil _)
        rwa [hear_of_not_leaf hleaf]
      | true =>
        cases x with
        | var a => exact hear_leaf a
        | app tag f y => cases hleaf
        | abs tag b body => cases hleaf
    exact ihf hm.1 hf (List.forall_mem_cons.2 ⟨hheard, hxs⟩)
  | abs tag b body ih =>
    obtain ⟨hbody, hloose⟩ := Bool.and_eq_true_iff.1 h
    have hread : T.reread body ([].map T.hear) = some (body.applyAll []) :=
      ih hm.2 hbody (List.forall_mem_nil _)
    have hlambda : Term.lambda b.name body = .abs tag b body := by
      rw [Term.lambda, ← hm.1.1]
    have hrow := rowTerm_of_heard (all_not_loose.1 hloose) hxs (.abs tag b body)
    rw [List.map_nil, Term.applyAll_nil] at hread
    rw [reread, hread, Option.bind_some, hlambda, items_hear]
    exact hrow

/-- **No other term is read as one that is equal to it**, by induction on the term. -/
theorem readsBackOn_of_reread [T.MinusBetween] (hT : T.Legible) {m : PlainTerm} (hm : m.Written T)
    {xs : List PlainTerm} {r : PlainTerm} (hr : T.reread m (xs.map T.hear) = some r)
    (hbare : r.bare = (m.applyAll xs).bare) :
    T.readsBackOn m xs = true ∧ ∀ x ∈ xs, T.Hears x := by
  induction m generalizing xs r with
  | var a =>
    cases xs with
    | nil =>
      cases hop : T.isOperator a with
      | true => simp [reread, hop] at hr
      | false => exact ⟨by simp [readsBackOn, hop], List.forall_mem_nil _⟩
    | cons x xs => exact setsApart_of_reread hT hm hr hbare
  | app tag f x ihf ihx =>
    have hcall : T.reread f ((x :: xs).map T.hear) = some r := hr
    obtain ⟨hf, hall⟩ := ihf hm.1 hcall hbare
    obtain ⟨⟨y, hy, hyx⟩, hxs⟩ := List.forall_mem_cons.1 hall
    refine ⟨Bool.and_eq_true_iff.2 ⟨?_, hf⟩, hxs⟩
    -- a leaf is always read as itself among arguments, also one that is none alone
    cases hleaf : x.isLeaf with
    | true => rfl
    | false =>
      have hread : T.reread x ([].map T.hear) = some y := by rwa [hear_of_not_leaf hleaf] at hy
      exact (ihx hm.2 hread hyx).1
  | abs tag b body ih =>
    rw [reread, items_hear] at hr
    obtain ⟨n, hn, hr⟩ := Option.bind_eq_some_iff.1 hr
    have hn : T.reread body ([].map T.hear) = some n := hn
    obtain ⟨hlambda, hloose, hxs⟩ := row_reads (g := .abs tag b body)
      (.inl (by simp [Term.head, Term.bare, Term.lambda, Term.named])) hr hbare
    obtain ⟨-, hbody⟩ : _ ∧ n.bare = body.bare := by
      simpa only [Term.bare, Term.lambda, Term.abs.injEq, true_and] using hlambda
    have hreads := (ih hm.2 hn hbody).1
    exact ⟨Bool.and_eq_true_iff.2 ⟨hreads, all_not_loose.2 hloose⟩, hxs⟩

end OperatorTable

/-! ## Texts -/

namespace Term

/-- **Which terms are printed so that they are read back.** The text of a term that was read is read
as the same term, under every limit that is high enough, if no operator in it is the whole term or
the body of an abstraction, no numeral with a minus sign that is no negative number stands among
other arguments, and no operator before its operand has a second argument in brackets; otherwise the
text is under no limit read as a term that is equal to it. -/
theorem parse_pretty {limit : Nat} {text : String} {m : PlainTerm}
    (h : parse .standard limit text = .ok m) :
    (m.readsBack .standard = true →
      ∃ least, ∀ limit ≥ least, parse .standard limit (m.pretty .standard) = .ok m) ∧
    ((∃ limit n, parse .standard limit (m.pretty .standard) = .ok n ∧ n.equal m = true) →
      m.readsBack .standard = true) := by
  have hT := OperatorTable.legible_standard
  have hm := written_of_parse hT h
  constructor
  · intro hback
    have hread := OperatorTable.reread_of_readsBackOn hm hback (List.forall_mem_nil _)
    exact Style.parse_print false hT hm hread
  · rintro ⟨limit, n, hn, hequal⟩
    have hread : OperatorTable.standard.reread m ([].map OperatorTable.standard.hear) = some n :=
      Style.reread_of_parse false hT hm hn
    have hbare : n.bare = (m.applyAll []).bare := by simpa [equal] using hequal
    exact (OperatorTable.readsBackOn_of_reread hT hm hread hbare).1

/-- A call on zero with a minus sign is printed as a subtraction. -/
theorem parse_pretty_negative_zero :
    parse .standard 9 "f (-0)" = .ok (call (named "f") (named "-0")) ∧
      ¬ ∃ limit n,
        parse .standard limit (pretty .standard (call (named "f") (named "-0"))) = .ok n ∧
        n.equal (call (named "f") (named "-0")) = true := by
  have hread : parse .standard 9 "f (-0)" = .ok (call (named "f") (named "-0")) := by
    decide +kernel
  refine ⟨hread, ?_⟩
  intro hback
  have hreads := (parse_pretty hread).2 hback
  exact absurd hreads (by decide)

-- The other two places: an operator as a body, and a second argument in brackets.

example : readsBack .standard (lambda "x" (named "+")) = false := by decide

example : readsBack .standard
    (call (call (named "not") (call (named "f") (named "x"))) (call (named "g") (named "y"))) =
      false := by decide

end Term

end ProofKernel
