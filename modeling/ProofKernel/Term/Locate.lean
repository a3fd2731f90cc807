import ProofKernel.Path
import ProofKernel.Term.Node

/-!
# Parts of terms

* `Term.locate`: the part of a term at a path;
* `Term.boundNames`: the names bound around it;
* `Term.pathTo?`, `Term.pathToBinding?`: the first part, or the first abstraction, that satisfies a
  test;
* `Node.replaceAt`: the term with another part at a path.
-/

namespace ProofKernel

namespace Term

variable {ι : Type}

/-- The part that a segment leads to. -/
def step : Term ι → Segment → Except AddressError (Term ι)
  | .app _ f _, .fn => .ok f
  | .app _ _ x, .arg => .ok x
  | .abs _ b _, .bound => .ok (.var b)
  | .abs _ _ body, .body => .ok body
  | m, segment => .error (.mismatch segment m.dump)

/-- The part at a path. -/
def locate (m : Term ι) : Path → Except AddressError (Term ι)
  | [] => .ok m
  | segment :: path => do (← m.step segment).locate path

/-- The name that a segment goes under. -/
def boundAt : Term ι → Segment → List Name
  | .abs _ b _, .body => [b.name]
  | _, _ => []

/-- The names bound by the abstractions around the part at a path. -/
def boundNames (m : Term ι) : Path → Except AddressError (List Name)
  | [] => .ok []
  | segment :: path => do
    let part ← m.step segment
    return m.boundAt segment ++ (← part.boundNames path)

/-- The path to the first part that satisfies a test: a term comes before its parts, a function
before its argument, and binders are no parts. -/
def pathTo? (p : Term ι → Bool) : Term ι → Option Path
  | .var a => if p (.var a) then some [] else none
  | .app t f x =>
    if p (.app t f x) then some []
    else ((f.pathTo? p).map (.fn :: ·)).or ((x.pathTo? p).map (.arg :: ·))
  | .abs t b body =>
    if p (.abs t b body) then some [] else (body.pathTo? p).map (.body :: ·)

/-- The path to the first abstraction whose binder satisfies a test. -/
def pathToBinding? (p : Term ι → Bool) : Term ι → Option Path
  | .var _ => none
  | .app _ f x =>
    ((f.pathToBinding? p).map (.fn :: ·)).or ((x.pathToBinding? p).map (.arg :: ·))
  | .abs _ b body =>
    if p (.var b) then some [] else (body.pathToBinding? p).map (.body :: ·)

end Term

namespace Node

/-- What takes the place of a part: the part itself, or another draft. Off the path all nodes are
kept; `none` says that nothing changes. -/
def replaceDraft? (f : Node → Node) (m : Node) : Path → Except AddressError (Option Draft)
  | [] => .ok (if f m = m then none else some (.slot (f m)))
  | segment :: path =>
    match m, segment with
    | .app _ g x, .fn => do return Draft.call? g x (← replaceDraft? f g path) none
    | .app _ g x, .arg => do return Draft.call? g x none (← replaceDraft? f x path)
    | .abs _ b body, .body => do return (← replaceDraft? f body path).map (.abs b)
    | .abs _ b body, .bound => do
      let old ← Term.locate (.var b) path
      if f old = old then return none
      match f old with
      | .var v => return some (.abs v (.keep body))
      | other => throw (.notAVariable other.dump)
    | m, segment => .error (.mismatch segment m.dump)

/-- The term with `f` of its part at a path in the place of that part. -/
def replaceAt (f : Node → Node) (m : Node) (path : Path) : ExceptT AddressError Build Node :=
  fun nodes => match replaceDraft? f m path with
    | .error e => (.error e, nodes)
    | .ok draft => let (m, nodes) := (Draft.buildOr m draft).run nodes; (.ok m, nodes)

end Node

end ProofKernel
