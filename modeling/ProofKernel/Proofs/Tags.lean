import ProofKernel.SimpleType.Infer
import ProofKernel.Term.Locate
import ProofKernel.Term.Node
import ProofKernel.Term.Pretty

/-!
# Tags do not show

The numbers of nodes tell nodes apart and nothing else: a term and the same term without its tags
are printed, compared and typed alike.

* `Term.plain_ofPlain`: the nodes made for a term are those of the term;
* `Style.printApplied_plain`, `Term.bare_plain`, `TypeEnv.infer_plain`: texts, comparing and types;
* `Term.locate_plain`: the parts at paths.
-/

namespace ProofKernel

variable {ι : Type}

/-- The nodes made for a term are those of the term. -/
theorem Term.plain_ofPlain (m : PlainTerm) (nodes : Nat) : (Node.ofPlain m nodes).1.plain = m := by
  induction m generalizing nodes with
  | var a => rfl
  | app tag f x ihf ihx =>
    show Term.app tag (Node.ofPlain f nodes).1.plain (Node.ofPlain x _).1.plain = _
    rw [ihf, ihx]
  | abs tag b body ih => exact congrArg (Term.abs tag b) (ih _)

theorem Term.bare_plain (m : Term ι) : m.plain.bare = m.bare := by
  induction m with
  | var a => rfl
  | app tag f x ihf ihx => rw [plain, bare, ihf, ihx, bare]
  | abs tag b body ih =>
    rw [plain, bare, ih, bare]
    rfl

theorem Term.dump_plain (m : Term ι) : m.plain.dump = m.dump := by
  induction m with
  | var a => rfl
  | app tag f x ihf ihx => rw [plain, dump, ihf, ihx, dump]
  | abs tag b body ih =>
    rw [plain, dump, ih, dump]
    rfl

theorem Term.step_plain (m : Term ι) (s : Segment) : m.plain.step s = (m.step s).map plain := by
  have htext : Except.error (AddressError.mismatch s m.plain.dump) =
      (Except.error (.mismatch s m.dump)).map (plain (ι := ι)) := by rw [dump_plain]; rfl
  cases m with
  | var a => exact htext
  | app tag f x =>
    cases s with
    | fn => rfl
    | arg => rfl
    | bound => exact htext
    | body => exact htext
  | abs tag b body =>
    cases s with
    | fn => exact htext
    | arg => exact htext
    | bound => rfl
    | body => rfl

theorem Term.locate_plain (m : Term ι) (p : Path) : m.plain.locate p = (m.locate p).map plain := by
  induction p generalizing m with
  | nil => rfl
  | cons s p ih =>
    rw [locate, step_plain, locate]
    cases m.step s with
    | error e => rfl
    | ok part => exact ih part

theorem Style.piece_plain (s : Style) (m : Term ι) (text : String) :
    s.piece m.plain text = s.piece m text := by
  cases m <;> rfl

theorem Style.printApplied_plain (s : Style) (m : Term ι) (ps : List Style.Piece) :
    s.printApplied m.plain ps = s.printApplied m ps := by
  induction m generalizing ps with
  | var a => rcases ps with _ | ⟨p, _ | ⟨q, ps⟩⟩ <;> rfl
  | app tag f x ihf ihx =>
    show s.printApplied f.plain (s.piece x.plain (s.printApplied x.plain []) :: ps) = _
    rw [ihf, ihx, piece_plain]
    rfl
  | abs tag b body ih =>
    simp only [Term.plain, printApplied, ih]
    rfl

theorem Term.pretty_plain (T : OperatorTable) (m : Term ι) : m.plain.pretty T = m.pretty T :=
  Style.printApplied_plain _ m []

theorem inferWith_plain (constant : Name → Infer (Ty Nat)) (m : Term ι) :
    inferWith constant m.plain = inferWith constant m := by
  induction m with
  | var a => rfl
  | app tag f x ihf ihx => rw [Term.plain, inferWith, ihf, ihx, inferWith]
  | abs tag b body ih =>
    rw [Term.plain, inferWith, ih, inferWith]
    rfl

theorem TypeEnv.infer_plain (env : TypeEnv) (m : Term ι) (s : Inference) :
    env.infer m.plain s = env.infer m s := by
  rw [infer, infer, inferIn, inferIn, inferWith_plain]

end ProofKernel
