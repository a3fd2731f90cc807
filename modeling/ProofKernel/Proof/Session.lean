import ProofKernel.Matching
import ProofKernel.ParseCache
import ProofKernel.Proof.Failure
import ProofKernel.Proof.Step
import ProofKernel.Term.Pretty

/-!
# Sessions

* `Session`: all that changes as a proof is built;
* `Session.parse`: reads a term, the same node for the same text;
* `Session.substitute`, `Session.decapture`, `Session.instantiate`: substitution with the names of
  the session;
* `Session.inferType`, `Session.declare`, `Session.define`: types;
* `Session.justify`: a new step that follows by a rule;
* `Session.assert`: fails where a condition does not hold, and records the failure.
-/

namespace ProofKernel

/-- How many parses are remembered, and how deep terms may be nested. -/
structure SessionConfig where
  cacheCapacity : Nat
  maxDepth : Nat
deriving DecidableEq, Repr

/-- The configuration of a session that asks for none. -/
def SessionConfig.standard : SessionConfig := ⟨1024, 512⟩

/-- All that changes as a proof is built: the number of the next step, the supplies of names and
nodes, operators, remembered parses, types of constants, failed assertions and log records, the
newest record first. -/
structure Session where
  maxDepth : Nat
  ordinal : Nat
  names : NameSupply
  nodes : Nat
  table : OperatorTable
  types : TypeEnv
  cache : ParseCache
  diagnostics : List AssertionFailure
  log : List LogRecord

/-- Computations in a session. -/
abbrev SessionM := StateM Session

/-- Computations in a session that may fail; what they changed before stays changed. -/
abbrev Attempt (ε : Type) := ExceptT ε SessionM

/-- The computation with another kind of failure. -/
def Attempt.mapError {ε ε' β : Type} (f : ε → ε') (m : Attempt ε β) : Attempt ε' β := fun s =>
  let (r, s) := m.run s
  (r.mapError f, s)

namespace Session

/-- A session at its begin. -/
def start (config : SessionConfig) : Session :=
  { maxDepth := config.maxDepth
    ordinal := 1
    names := .start
    nodes := 0
    table := .standard
    types := .standard
    cache := .empty config.cacheCapacity
    diagnostics := []
    log := [] }

/-- Makes nodes of the session. -/
def build {β : Type} (m : Build β) : SessionM β := fun s =>
  let (r, nodes) := m.run s.nodes
  (r, { s with nodes := nodes })

/-- Makes nodes of the session with its fresh names. -/
def buildNamed {β : Type} (m : NameSupply → Build (β × NameSupply)) : SessionM β := fun s =>
  let ((r, names), nodes) := (m s.names).run s.nodes
  (r, { s with names := names, nodes := nodes })

/-- Adds a record to the log. -/
def record (level : LogLevel) (message : String) : SessionM Unit :=
  modify fun s => { s with log := ⟨level, message⟩ :: s.log }

/-- Adds records to the log, in their order. -/
def recordAll (records : List LogRecord) : SessionM Unit :=
  modify fun s => { s with log := records.reverse ++ s.log }

/-- Turns a result into one that may fail. -/
def lift {ε β : Type} (r : Except ε β) : Attempt ε β := fun s => (r, s)

/-! ## Reading and operators -/

/-- The term of a text. Reading the same text twice gives the very same node, as long as the session
remembers it. -/
def parse (text : String) : Attempt ParseError Node := do
  let s ← get
  match s.cache.get? text with
  | some m =>
    record .trace s!"parse cache hit: {text}"
    return m
  | none =>
    let term ← lift (Term.parse s.table s.maxDepth text)
    let m ← (build (Node.ofPlain term) : SessionM Node)
    let (cache, dropped) := s.cache.insert text m
    recordAll (ParseCache.evictions dropped)
    modify fun s => { s with cache := cache }
    return m

/-- Adds an operator. Remembered parses may read differently now, so they are forgotten. -/
def addOperator (op : Operator) : Attempt OperatorError Unit := do
  let s ← get
  let table ← lift (s.table.add op)
  set { s with table := table, cache := s.cache.clear }

/-! ## Substitution -/

/-- The simultaneous substitution of several names. -/
def substitute (σ : Substitution) (target : Node) : SessionM Node := do
  let result ← buildNamed fun names => Substitution.apply σ names target
  if result ≠ target then
    record .debug s!"substituted in {target.display}: {result.display}"
  return result

/-- The term with every binder renamed whose name is free in the replacement. -/
def decapture (replacement target : Node) : SessionM Node :=
  buildNamed fun names => Node.decapture replacement names target

/-- The schema with each variable replaced by its node. -/
def instantiate (a : Assignment) (schema : Node) : SessionM Node :=
  buildNamed fun names => a.instantiate names schema

/-- A name built on another one that is not among given names. -/
def fresh (name : Name) (existing : List Name) : SessionM Name := fun s =>
  let (name, names) := s.names.fresh name existing
  (name, { s with names := names })

/-! ## Types -/

/-- The records of the bindings made in a run of type inference. -/
def typeRecords (run : Inference) : List LogRecord := run.trace.map fun text => ⟨.trace, text⟩

/-- The type of a term. -/
def inferType (m : Node) : Attempt TypeError (Ty Nat) := do
  let (r, run) := (← get).types.infer m .start
  recordAll (typeRecords run)
  lift r

/-- Declares a constant with a type in the compact form. -/
def declare (name : Name) (type : String) : Attempt TypeError Unit := do
  let s ← get
  let types ← lift (s.types.declare name type)
  set { s with types := types }

/-- Defines a constant. -/
def define (name : Name) (definition : Node) : Attempt TypeError Unit := do
  let (r, run) := (← get).types.define name definition.plain
  recordAll (typeRecords run)
  let types ← lift r
  modify fun s => { s with types := types }

/-! ## Steps -/

/-- A step that is a term alone. -/
def bareStep (m : Node) (hasHyps : Bool) : SessionM Step :=
  build do return .bare (← newTag) m hasHyps

/-- A new step that follows by a rule. A rule that gives back the term of a step it uses proves
nothing: that step is the result. -/
def justifyWith (target : Step) (rule : Name) (args : List RuleArgument) (deps : List Step)
    (hasHyps : Bool) : SessionM Step := do
  match deps.find? fun dep => dep.term = target.term with
  | some dep => return dep
  | none =>
    let { ordinal, table, .. } ← get
    modify fun s => { s with ordinal := ordinal + 1 }
    let term ← build target.term.dup
    let tag ← build newTag
    let details? := if target.isProved then some target else none
    record .debug s!"#{ordinal} {rule}: {term.pretty table}"
    return .proved tag term hasHyps rule args deps ordinal details?

/-- `justifyWith` that keeps whether the target has hypotheses. -/
def justify (target : Step) (rule : Name) (args : List RuleArgument) (deps : List Step) :
    SessionM Step :=
  justifyWith target rule args deps target.hasHyps

/-! ## Assertions -/

/-- Fails, and records the failure. -/
def fail {β : Type} (text : String) (ordinal? : Option Nat) : Attempt AssertionFailure β := do
  let failure : AssertionFailure := ⟨text, ordinal?⟩
  record .error failure.message
  modify fun s => { s with diagnostics := s.diagnostics ++ [failure] }
  throw failure

/-- Fails where a condition does not hold, and records the failure. -/
def assert (condition : Bool) (text : String) (ordinal? : Option Nat) :
    Attempt AssertionFailure Unit :=
  if condition then return () else fail text ordinal?

/-- The failures recorded so far, which are forgotten. -/
def takeDiagnostics : SessionM (List AssertionFailure) := fun s =>
  (s.diagnostics, { s with diagnostics := [] })

end Session

end ProofKernel
