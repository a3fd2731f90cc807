import ProofKernel.Proofs.Replay
import ProofKernel.Proofs.Sharing

/-!
# Paths are a monoid that acts on terms

* `Path.concat_eq_append`: a path followed by another one;
* `Path.read_slash`: the path of two texts with a slash between them;
* `Term.locate_concat`: a path followed by another one leads where the second one leads from the end
  of the first;
* `Path.acts`: the text of a path is read as the path, reading takes slashes to `Path.concat`, and
  paths act on terms;
* `Step.locate_slash`, `Step.locate_main_iff`: the part of a step after its hypotheses, by its path
  and by itself.
-/

namespace ProofKernel

namespace Path

/-! ## One path after another -/

theorem concat_eq_append (p q : Path) : concat p q = p ++ q := by
  unfold concat
  split
  next hq => rw [List.isEmpty_iff.1 hq, List.append_nil]
  next => rw [List.foldl_reverse, List.foldr_cons_eq_append, List.map_id']

/-! ## Texts with a slash between them -/

theorem go_ne_nil (cs : List Char) : words.go cs ≠ [] := by
  cases cs with
  | nil => exact List.cons_ne_nil _ _
  | cons c cs =>
    rw [words.go]
    split
    next => exact List.cons_ne_nil _ _
    next => split <;> exact List.cons_ne_nil _ _

theorem go_slash (as bs : List Char) :
    words.go (as ++ '/' :: bs) = words.go as ++ words.go bs := by
  induction as with
  | nil => rfl
  | cons a as ih =>
    rw [List.cons_append, words.go, words.go, ih]
    split
    next => rfl
    next =>
      obtain ⟨first, rest, hgo⟩ := List.exists_cons_of_ne_nil (go_ne_nil as)
      rw [hgo]
      rfl

theorem words_slash (as bs : List Char) : words (as ++ '/' :: bs) = words as ++ words bs := by
  rw [words, go_slash, List.filter_append]
  rfl

variable (hasHyps : Bool)

/-- **The path of two texts with a slash between them** is the path of the one followed by that of
the other. Of two errors the first one counts. -/
theorem read_slash (a b : String) : read hasHyps (a ++ "/" ++ b) = do
    let p ← read hasHyps a
    let q ← read hasHyps b
    return concat p q := by
  have htext : (a ++ "/" ++ b).toList = a.toList ++ '/' :: b.toList := by
    simp [String.toList_append]
  simp only [read, htext, words_slash, List.mapM_append, bind_assoc, pure_bind, List.flatten_append,
    concat_eq_append]

end Path

/-! ## Parts of parts -/

/-- **A path followed by another one** leads to the part, at the other one, of the part that the first
one leads to. Where one of them leads nowhere, the error is that of the first such one. -/
theorem Term.locate_concat {ι : Type} (m : Term ι) (p q : Path) :
    m.locate (Path.concat p q) = m.locate p >>= fun n => n.locate q := by
  rw [Path.concat_eq_append]
  induction p generalizing m with
  | nil => rfl
  | cons segment p ih =>
    rw [List.cons_append, locate, locate, bind_assoc]
    exact bind_congr fun part => ih part

/-- **Paths are a monoid that acts on terms.** The empty path is the unit of `Path.concat`, which is
associative; it leads to the term itself, and one path after another leads to parts of parts. The
text of a path is read as the path, and the text of two paths with a slash between them as the one
followed by the other; so reading is a map of monoids. -/
theorem Path.acts :
    (∀ p : Path, concat [] p = p ∧ concat p [] = p) ∧
    (∀ p q r : Path, concat (concat p q) r = concat p (concat q r)) ∧
    (∀ (hasHyps : Bool) (p : Path), read hasHyps (render p) = .ok p) ∧
    (∀ (hasHyps : Bool) (a b : String), read hasHyps (a ++ "/" ++ b) = do
      let p ← read hasHyps a
      let q ← read hasHyps b
      return concat p q) ∧
    ∀ (ι : Type) (m : Term ι), m.locate [] = .ok m ∧
      ∀ p q : Path, m.locate (concat p q) = m.locate p >>= fun n => n.locate q := by
  refine ⟨fun p => ?unit, fun p q r => ?assoc, read_render, read_slash,
    fun ι m => ⟨rfl, m.locate_concat⟩⟩
  case unit => rw [concat_eq_append, concat_eq_append, List.append_nil]; exact ⟨rfl, rfl⟩
  case assoc => simp only [concat_eq_append, List.append_assoc]

/-- The macros of the first text, a word of the second one that is no segment. -/
example : Path.read true "main//left" = .ok [.arg, .fn, .arg] ∧
    Path.read true "main//left/up/down" = .error (.unknownSegment "up") := by decide +kernel

/-! ## The part after the hypotheses -/

/-- The argument of a term is what stands right of an operator, or else the term itself, exactly if
something stands left of an operator. -/
theorem Term.step_arg_iff {ι : Type} (m : Term ι) :
    m.step .arg = .ok (m.right?.getD m) ↔ m.left?.isSome = true := by
  cases m with
  | var a => exact ⟨nofun, nofun⟩
  | abs t b body => exact ⟨nofun, nofun⟩
  | app t f x =>
    cases f with
    | app t' op left => exact ⟨fun _ => rfl, fun _ => rfl⟩
    | var | abs =>
      -- no term is its own argument
      refine ⟨fun h => ?_, nofun⟩
      have hself : x = .app t _ x := Except.ok.inj h
      have hsize := congrArg sizeOf hself
      simp only [Term.app.sizeOf_spec] at hsize
      omega

namespace Step

variable (s : Step)

/-- What is at a path after `main`: the flag of the step alone decides whether the argument of its term
comes first. -/
theorem locate_slash (q : String) : s.locate ("/main/" ++ q) =
    Path.read s.hasHyps q >>= fun q =>
      (if s.hasHyps then s.term.step .arg else .ok s.term) >>= fun main => main.locate q := by
  have hmain : Path.read s.hasHyps "/main" = .ok (if s.hasHyps then [.arg] else []) := by
    cases s.hasHyps <;> decide +kernel
  have htext : "/main/" ++ q = "/main" ++ "/" ++ q := rfl
  rw [locate, htext, Path.read_slash, hmain]
  show (Path.read s.hasHyps q >>= fun q =>
    pure (Path.concat (if s.hasHyps then [.arg] else []) q)) >>= s.term.locate = _
  rw [bind_assoc]
  refine bind_congr fun q => ?_
  show s.term.locate (Path.concat (if s.hasHyps then [.arg] else []) q) = _
  rw [Term.locate_concat]
  cases s.hasHyps with
  | true => exact congrArg (· >>= fun main => main.locate q) (bind_pure (s.term.step .arg))
  | false => rfl

/-- The path `main` leads to the main part exactly if the flag of the step says truly whether there
are hypotheses. -/
theorem main_iff : (if s.hasHyps then s.term.step .arg else .ok s.term) = .ok s.main ↔
    s.hyps?.isSome = s.hasHyps := by
  unfold main hyps?
  cases s.hasHyps with
  | true => exact s.term.step_arg_iff
  | false => exact ⟨fun _ => rfl, fun _ => rfl⟩

/-- **The two readings of the main part agree** for every path behind `main`, with the same part or the
same error, exactly if the flag of the step says truly whether there are hypotheses: a step without
the flag, or one whose term is a call of a call. Otherwise the flag alone decides: behind `main` are
the parts of the argument of the term, or there is no argument, and the main part is the whole term. -/
theorem locate_main_iff :
    ((∀ q, s.locate ("/main/" ++ q) = Path.read s.hasHyps q >>= s.main.locate) ↔
      s.hyps?.isSome = s.hasHyps) ∧
    (s.hyps?.isSome = s.hasHyps ∨ s.main = s.term ∧ ∀ q, s.locate ("/main/" ++ q) =
      Path.read true q >>= fun q => s.term.step .arg >>= fun main => main.locate q) := by
  refine ⟨⟨fun h => ?forward, fun h q => ?backward⟩, ?otherwise⟩
  case forward =>
    have hempty := h ""
    rw [locate_slash, show Path.read s.hasHyps "" = .ok [] from rfl] at hempty
    refine s.main_iff.1 (Eq.trans ?_ hempty)
    exact (bind_pure _).symm
  case backward => rw [locate_slash, s.main_iff.2 h]; rfl
  case otherwise =>
    by_cases h : s.hyps?.isSome = s.hasHyps
    · exact .inl h
    · have hflag : s.hasHyps = true := by
        by_contra hflag
        rw [Bool.not_eq_true] at hflag
        exact h (by simp [hyps?, hflag])
      have hnone : s.term.between? = none := by simpa [hyps?, hflag, Term.left?] using h
      refine .inr ⟨by simp [main, hflag, Term.right?, hnone], fun q => ?_⟩
      rw [locate_slash, hflag]
      rfl

/-- A step with the flag whose term is a leaf: the main part is the leaf, and `main` leads nowhere. -/
example : let s : Step := .bare 0 (.var ⟨0, "x", none⟩) true
    Path.read s.hasHyps "" >>= s.main.locate = .ok s.term ∧
      s.locate "/main/" = .error (.mismatch .arg "x") := by decide +kernel

end Step

end ProofKernel
