import ProofKernel.Proofs.Nameless

/-!
# Terms up to the names of binders

* `Term.parts`: the parts of a term;
* `Term.alikeWith`: the comparison of terms with another short cut, or with none;
* `Term.alikeWith_iff`: it compares nameless forms, if the short cut is taken for such parts only;
* `Term.alike_equivalence`: so terms are alike exactly if their nameless forms are equal, and a short
  cut for one and the same node makes no difference.
-/

namespace ProofKernel.Term

variable {ι : Type}

/-- The parts of a term, itself first. Binders are no parts. -/
def parts : Term ι → List (Term ι)
  | .var a => [.var a]
  | .app t f x => .app t f x :: (f.parts ++ x.parts)
  | .abs t b body => .abs t b body :: body.parts

theorem self_mem_parts (m : Term ι) : m ∈ m.parts := by
  cases m <;> simp [parts]

/-- Equality up to the names of binders, which correspond as given. Where none correspond, parts for
which the short cut holds are not looked into. -/
def alikeWith (same : Term ι → Term ι → Bool) (c : Correspondence) (m n : Term ι) : Bool :=
  if c.isEmpty && same m n then true
  else match m, n with
    | .var a, .var b => c.relates a.name b.name
    | .app _ f x, .app _ g y => f.alikeWith same c g && x.alikeWith same c y
    | .abs _ a body, .abs _ b body' => body.alikeWith same ((a.name, b.name) :: c) body'
    | _, _ => false

/-- Where the short cut is taken no names correspond, so that the terms stand on their own. -/
theorem namelessIn_of_shortCut {same : Term ι → Term ι → Bool} {c : Correspondence} {m n : Term ι}
    (h : ∀ p ∈ m.parts, ∀ q ∈ n.parts, same p q = true → p.nameless = q.nameless)
    (hc : (c.isEmpty && same m n) = true) :
    m.namelessIn (c.map (·.1)) = n.namelessIn (c.map (·.2)) := by
  obtain ⟨hempty, hsame⟩ := Bool.and_eq_true_iff.1 hc
  rw [List.isEmpty_iff.1 hempty]
  exact h m m.self_mem_parts n n.self_mem_parts hsame

/-- A comparison whose short cut is taken only for parts with one nameless form compares nameless
forms, by induction on the term: under binders, what corresponds is what resolves alike. -/
theorem alikeWith_iff {same : Term ι → Term ι → Bool} {c : Correspondence} {m n : Term ι}
    (h : ∀ p ∈ m.parts, ∀ q ∈ n.parts, same p q = true → p.nameless = q.nameless) :
    m.alikeWith same c n = true ↔ m.namelessIn (c.map (·.1)) = n.namelessIn (c.map (·.2)) := by
  induction m generalizing c n with
  | var a =>
    unfold alikeWith
    split
    next hc => simp [namelessIn_of_shortCut h hc]
    next hc =>
      cases n with
      | var b => exact Correspondence.relates_iff
      | app t f x => simp [namelessIn, resolve_ne_app]
      | abs t b body => simp [namelessIn, resolve_ne_abs]
  | app t f x ihf ihx =>
    unfold alikeWith
    split
    next hc => simp [namelessIn_of_shortCut h hc]
    next hc =>
      cases n with
      | var b => simp [namelessIn, (resolve_ne_app _ _ _ _).symm]
      | app u g y =>
        have hf := ihf (c := c) (n := g) fun p hp q hq =>
          h p (by simp [parts, hp]) q (by simp [parts, hq])
        have hx := ihx (c := c) (n := y) fun p hp q hq =>
          h p (by simp [parts, hp]) q (by simp [parts, hq])
        simp [namelessIn, hf, hx]
      | abs u b body => simp [namelessIn]
  | abs t b body ih =>
    unfold alikeWith
    split
    next hc => simp [namelessIn_of_shortCut h hc]
    next hc =>
      cases n with
      | var a => simp [namelessIn, (resolve_ne_abs _ _ _).symm]
      | app u g y => simp [namelessIn]
      | abs u b' body' =>
        have hbody := ih (c := (b.name, b'.name) :: c) (n := body') fun p hp q hq =>
          h p (by simp [parts, hp]) q (by simp [parts, hq])
        simp [namelessIn, hbody]

variable [DecidableEq ι]

/-- **Being alike is having one nameless form**: bound names are compared by the distance to their
binder, free ones as names. So it is an equivalence; and the short cut for one and the same node does
not change it: whatever test is made in its place gives the same answer, if among the parts of the two
terms it finds none to be one that are not. -/
theorem alike_equivalence :
    (∀ m n : Term ι, m.alike n = true ↔ m.nameless = n.nameless) ∧
      Equivalence (fun m n : Term ι => m.alike n = true) ∧
      ∀ (same : Term ι → Term ι → Bool) (m n : Term ι),
        (∀ p ∈ m.parts, ∀ q ∈ n.parts, same p q = true → p = q) →
          m.alikeWith same [] n = m.alike n := by
  refine ⟨fun m n => alike_iff, ⟨fun m => ?_, fun h => ?_, fun h h' => ?_⟩, fun same m n h => ?_⟩
  · exact alike_iff.2 rfl
  · exact alike_iff.2 (alike_iff.1 h).symm
  · exact alike_iff.2 ((alike_iff.1 h).trans (alike_iff.1 h'))
  · rw [Bool.eq_iff_iff, alike_iff]
    exact alikeWith_iff fun p hp q hq hsame => congrArg nameless (h p hp q hq hsame)

/-- The pair of `z` and `w` hides that of `x` and `y`, though it has other names: the first pair that
has either name decides. -/
example :
    let x : PlainTerm := .named "x"
    let y : PlainTerm := .named "y"
    (lambda "x" (lambda "z" x)).alike (lambda "y" (lambda "y" y)) = false ∧
      (lambda "x" (lambda "y" (call x y))).alike (lambda "y" (lambda "x" (call y x))) = true := by
  decide

end ProofKernel.Term
