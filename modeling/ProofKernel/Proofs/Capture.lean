import ProofKernel.Proofs.Replacement

/-!
# What a place captures

The names bound around a place are those that it captures: a term that is put there keeps its other
free names, whatever it is.

* `Term.boundNames_fn`, `Term.boundNames_arg`, `Term.boundNames_body`: the names a segment adds;
* `Term.boundNames_error_iff`: where there are no such names;
* `Term.namesBeside`: the free names of a term without those of the part at a path;
* `Term.Replaced.mem_freeNames`: the free names of a term with another part at a path;
* `Node.boundNames_captures`: this is what a replacement gives.
-/

namespace ProofKernel

namespace Term

variable {ι : Type} {m r f y body w : Term ι} {t : ι} {b : Atom ι} {p : Path} {x : Name}
  {names : List Name} {e : AddressError}

/-! ## The names around a place -/

theorem boundNames_fn : (Term.app t f y).boundNames (.fn :: p) = f.boundNames p := by
  show (do return [] ++ (← f.boundNames p)) = _
  cases f.boundNames p <;> rfl

theorem boundNames_arg : (Term.app t f y).boundNames (.arg :: p) = y.boundNames p := by
  show (do return [] ++ (← y.boundNames p)) = _
  cases y.boundNames p <;> rfl

theorem boundNames_body (h : (Term.abs t b body).boundNames (.body :: p) = .ok names) :
    ∃ inner, body.boundNames p = .ok inner ∧ names = b.name :: inner := by
  change (do return [b.name] ++ (← body.boundNames p)) = _ at h
  cases hbody : body.boundNames p with
  | error e => rw [hbody] at h; cases h
  | ok inner =>
    rw [hbody] at h
    cases h
    exact ⟨inner, rfl, rfl⟩

/-- There are names around each place, and nowhere else. -/
theorem boundNames_error_iff : m.boundNames p = .error e ↔ m.locate p = .error e := by
  induction p generalizing m with
  | nil => simp [boundNames, locate]
  | cons s p ih =>
    rw [boundNames, locate]
    cases m.step s with
    | error e' =>
      show Except.error e' = Except.error e ↔ Except.error e' = Except.error e
      simp only [Except.error.injEq]
    | ok part =>
      show (do return m.boundAt s ++ (← part.boundNames p)) = .error e ↔ part.locate p = .error e
      rw [← ih]
      cases part.boundNames p with
      | error e' =>
        show Except.error e' = Except.error e ↔ Except.error e' = Except.error e
        simp only [Except.error.injEq]
      | ok names =>
        show Except.ok (m.boundAt s ++ names) = .error e ↔ Except.ok names = .error e
        simp only [reduceCtorEq]

/-! ## The free names beside a place -/

/-- The free names of a term without those of the part at a path. -/
def namesBeside : Term ι → Path → List Name
  | .app _ f y, .fn :: p => f.namesBeside p ++ y.freeNames
  | .app _ f y, .arg :: p => f.freeNames ++ y.namesBeside p
  | .abs _ b body, .body :: p => (body.namesBeside p).filter (· ≠ b.name)
  | _, _ => []

/-- **The free names of a term with another part at a path**: those beside the place, and those of
the part that are not bound around it. By induction on the way there; an abstraction takes its name
from both. -/
theorem Replaced.mem_freeNames (h : Replaced w p m r) (hp : ¬p.EndsAtBinder)
    (hnames : m.boundNames p = .ok names) :
    x ∈ r.freeNames ↔ x ∈ m.namesBeside p ∨ x ∈ w.freeNames ∧ x ∉ names := by
  induction h generalizing names with
  | here m =>
    cases hnames
    simp [namesBeside]
  | fn t t' y h ih =>
    rw [boundNames_fn] at hnames
    have hp := mt (Path.endsAtBinder_cons (by decide)).2 hp
    simp only [freeNames, namesBeside, List.mem_append, ih hp hnames]
    exact or_right_comm
  | arg t t' f h ih =>
    rw [boundNames_arg] at hnames
    have hp := mt (Path.endsAtBinder_cons (by decide)).2 hp
    simp only [freeNames, namesBeside, List.mem_append, ih hp hnames]
    exact or_assoc.symm
  | bound t t' b body h => exact absurd rfl hp
  | body t t' b h ih =>
    have hp := mt (Path.endsAtBinder_cons (by decide)).2 hp
    obtain ⟨inner, hinner, rfl⟩ := boundNames_body hnames
    simp only [freeNames, namesBeside, List.mem_filter, ih hp hinner, List.mem_cons, not_or,
      decide_eq_true_eq]
    tauto

end Term

namespace Node

variable {m w : Node} {p : Path} {x : Name} {names : List Name}

/-- The free names of `r` are the others, and those of `w` that are not among the names. -/
def FreeBut (names others : List Name) (w r : Node) : Prop :=
  ∀ x, x ∈ r.freeNames ↔ x ∈ others ∨ x ∈ w.freeNames ∧ x ∉ names

/-- Away from binders a replacement gives a term, and the names around the place are captured. -/
theorem replaceAt_freeNames {f : Node → Node} {n : Node} (hp : m.locate p = .ok n)
    (hend : ¬p.EndsAtBinder) (hnames : m.boundNames p = .ok names) (k : Nat) :
    ∃ r, ((m.replaceAt f p).run k).1 = .ok r ∧ FreeBut names (m.namesBeside p) (f n) r := by
  rcases replaceAt_cases f m p k with ⟨e, hp', -⟩ | ⟨n', -, hrefused, -⟩ |
    ⟨n', r, l, hp', -, hrun, hreplaced, -⟩
  · cases hp.symm.trans hp'
  · exact absurd hrefused.1 hend
  · cases hp.symm.trans hp'
    exact ⟨r, congrArg Prod.fst hrun, fun x => hreplaced.mem_freeNames hend hnames⟩

/-- **The names bound around a place are what it captures**: there are names that are free in the
term with any part there, and beside them exactly those that are free in the part and not bound around
the place. Where there is no place, there are no names around it, for the same reason. -/
theorem boundNames_captures (m : Node) (p : Path) :
    (∀ e, m.boundNames p = .error e ↔ m.locate p = .error e) ∧
      (¬p.EndsAtBinder → ∃ others, ∀ names, m.boundNames p = .ok names →
        (∀ w nodes, ∃ r, ((m.replaceAt (fun _ => w) p).run nodes).1 = .ok r ∧
          FreeBut names others w r) ∧
        ∀ h n nodes, m.Within nodes → m.locate p = .ok n → Told nodes n (h n nodes) →
          ∃ r, ((m.replaceWith h p).run nodes).1 = .ok r ∧
            FreeBut names others (h n nodes).1 r) := by
  refine ⟨fun e => Term.boundNames_error_iff, fun hend => ⟨m.namesBeside p, fun names hnames => ?_⟩⟩
  cases hp : m.locate p with
  | error e => cases hnames.symm.trans (Term.boundNames_error_iff.2 hp)
  | ok n =>
    refine ⟨fun w nodes => replaceAt_freeNames hp hend hnames nodes, fun h n' nodes hm hn hh => ?_⟩
    cases hn
    rw [replaceWith_eq hm hp hh]
    exact replaceAt_freeNames hp hend hnames _

/-- In `λx. x y` the place of the function captures `x`, and beside it `y` is free. -/
example :
    let m : PlainTerm := .abs () (.plain "x") (.app () (.var (.plain "x")) (.var (.plain "y")))
    m.boundNames [.body, .fn] = .ok ["x"] ∧ m.namesBeside [.body, .fn] = ["y"] := by decide

end Node

end ProofKernel
