import ProofKernel.Proofs.Scope
import ProofKernel.Proofs.Sessions
import ProofKernel.Proofs.Tags

/-!
# Remembered parses

A session that has read a text before gives the same node again. Its answers do not show it: they
are those of a reader that remembers nothing.

* `Session.Faithful`: every remembered term is what its text is read as with the operators of now;
* `Session.Faithful.parse`, `Session.Faithful.addOperator`: one request gives what it would give
  without any memory, and keeps the memory faithful;
* `Session.Request`, `Session.reply`, `OperatorTable.reply`: requests to a session, and to a reader
  that keeps nothing but the operators;
* `Session.replies_transparent`: the replies to a row of requests are the same.
-/

namespace ProofKernel

/-- What a cache holds after an insertion it held before, or it is the new entry. -/
theorem ParseCache.mem_insert {c : ParseCache} {text : String} {m : Node} {entry : String × Node}
    (h : entry ∈ (c.insert text m).1.entries) : entry = (text, m) ∨ entry ∈ c.entries := by
  unfold ParseCache.insert at h
  split at h
  · exact .inr h
  · rcases List.mem_append.1 h with h | h
    · exact .inr (List.mem_of_mem_drop h)
    · exact .inl (List.mem_singleton.1 h)

namespace Session

variable {s s' : Session}

/-! ## One request -/

/-- **Faithful memories.** Every remembered term is what its text is read as now. -/
def Faithful (s : Session) : Prop :=
  ∀ entry ∈ s.cache.entries, Term.parse s.table s.maxDepth entry.1 = .ok entry.2.plain

/-- A session that reads and types as another one does. -/
structure Alike (s s' : Session) : Prop where
  table : s'.table = s.table
  maxDepth : s'.maxDepth = s.maxDepth
  types : s'.types = s.types

theorem Alike.trans {s'' : Session} (h : s.Alike s') (h' : s'.Alike s'') : s.Alike s'' :=
  ⟨h'.table.trans h.table, h'.maxDepth.trans h.maxDepth, h'.types.trans h.types⟩

theorem faithful_start (config : SessionConfig) : (start config).Faithful := nofun

/-- A text that the session remembers is not read again. -/
theorem parse_remembered {text : String} {m : Node} (h : s.cache.get? text = some m) :
    ∃ log, (parse text).run s = (.ok m, { s with log := log }) := by
  have hget : (get : Attempt ParseError Session).run s = (.ok s, s) := rfl
  rw [parse, run_bind_ok hget, h]
  exact ⟨_, rfl⟩

/-- **Reading gives what the text is read as now**, from memory or not, and keeps the memory
faithful. -/
theorem Faithful.parse (h : s.Faithful) (text : String) :
    ((Session.parse text).run s).1.map Term.plain = Term.parse s.table s.maxDepth text ∧
      ((Session.parse text).run s).2.Faithful ∧ s.Alike ((Session.parse text).run s).2 := by
  cases hcache : s.cache.get? text with
  | some m =>
    obtain ⟨log, hrun⟩ := parse_remembered hcache
    have hmem : (text, m) ∈ s.cache.entries := Scope.mem_of_lookup? hcache
    have hm : Term.parse s.table s.maxDepth text = .ok m.plain := h (text, m) hmem
    rw [hrun, hm]
    exact ⟨rfl, h, ⟨rfl, rfl, rfl⟩⟩
  | none =>
    cases hread : Term.parse s.table s.maxDepth text with
    | error e =>
      rw [parse_of_error hcache hread]
      exact ⟨rfl, h, ⟨rfl, rfl, rfl⟩⟩
    | ok m =>
      obtain ⟨log, hrun⟩ := parse_unknown hcache hread
      have hplain := Term.plain_ofPlain m s.nodes
      rw [hrun]
      refine ⟨congrArg Except.ok hplain, fun entry hentry => ?_, ⟨rfl, rfl, rfl⟩⟩
      rcases ParseCache.mem_insert hentry with rfl | hentry
      · exact hread.trans (congrArg Except.ok hplain.symm)
      · exact h entry hentry

/-- A new operator empties the memory, a refused one changes nothing. -/
theorem addOperator_run (op : Operator) (s : Session) : (addOperator op).run s =
    match s.table.add op with
    | .ok table => (.ok (), { s with table := table, cache := s.cache.clear })
    | .error e => (.error e, s) := by
  show (((lift (s.table.add op) : Attempt OperatorError OperatorTable) >>= fun table =>
    (set { s with table := table, cache := s.cache.clear } : Attempt OperatorError Unit)).run s) = _
  cases s.table.add op <;> rfl

/-! ## Rows of requests -/

/-- What is asked of a session that only reads: the term of a text, or to take one more operator. -/
inductive Request where
  | parse (text : String)
  | addOperator (op : Operator)

/-- What comes back: a term with its names as they are spelled, or why there is none; or whether the
operator was taken. -/
inductive Reply where
  | term (r : Except ParseError PlainTerm)
  | operator (r : Except OperatorError Unit)

/-- The reply of a session to a request. -/
def reply : Request → SessionM Reply
  | .parse text => do return .term ((← (parse text).run).map Term.plain)
  | .addOperator op => do return .operator (← (addOperator op).run)

end Session

/-- The reply of a reader that keeps nothing but the operators. -/
def OperatorTable.reply (limit : Nat) : Session.Request → StateM OperatorTable Session.Reply
  | .parse text => fun T => (.term (Term.parse T limit text), T)
  | .addOperator op => fun T => match T.add op with
    | .ok T' => (.operator (.ok ()), T')
    | .error e => (.operator (.error e), T)

namespace Session

variable {s : Session}

/-- The step: a request gets the reply that it would get without any memory. -/
theorem Faithful.reply (h : s.Faithful) (r : Request) :
    ((Session.reply r).run s).1 = ((OperatorTable.reply s.maxDepth r).run s.table).1 ∧
      ((Session.reply r).run s).2.table = ((OperatorTable.reply s.maxDepth r).run s.table).2 ∧
      ((Session.reply r).run s).2.maxDepth = s.maxDepth ∧ ((Session.reply r).run s).2.Faithful := by
  cases r with
  | parse text =>
    obtain ⟨hresult, hfaithful, halike⟩ := h.parse text
    exact ⟨congrArg Reply.term hresult, halike.table, halike.maxDepth, hfaithful⟩
  | addOperator op =>
    have hrun : (Session.reply (.addOperator op)).run s =
      (.operator ((addOperator op).run s).1, ((addOperator op).run s).2) := rfl
    have hplain : (OperatorTable.reply s.maxDepth (.addOperator op)).run s.table =
      match s.table.add op with
      | .ok T => (.operator (.ok ()), T)
      | .error e => (.operator (.error e), s.table) := rfl
    rw [hrun, hplain, addOperator_run]
    cases s.table.add op with
    | ok T => exact ⟨rfl, rfl, rfl, nofun⟩
    | error e => exact ⟨rfl, rfl, rfl, h⟩

/-- The run: so do all requests of a row, by induction on the row. -/
theorem Faithful.replies (h : s.Faithful) (requests : List Request) :
    ((requests.mapM Session.reply).run s).1 =
        ((requests.mapM (OperatorTable.reply s.maxDepth)).run s.table).1 ∧
      ((requests.mapM Session.reply).run s).2.table =
        ((requests.mapM (OperatorTable.reply s.maxDepth)).run s.table).2 := by
  induction requests generalizing s with
  | nil => exact ⟨rfl, rfl⟩
  | cons r requests ih =>
    obtain ⟨hreply, htable, hdepth, hfaithful⟩ := h.reply r
    obtain ⟨hreplies, htables⟩ := ih hfaithful
    rw [hdepth, htable] at hreplies htables
    rw [List.mapM_cons, List.mapM_cons]
    exact ⟨congrArg₂ List.cons hreply hreplies, htables⟩

/-- **The memory of a session is transparent.** Whatever number of parses a session remembers, it
replies to every row of requests, failing ones included, as a reader that remembers nothing: each
text gives the term, or the error, that it is read as with the operators of that moment and the
limit of the configuration. Both have the same operators after it. -/
theorem replies_transparent (config : SessionConfig) (requests : List Request) :
    ((requests.mapM reply).run (start config)).1 =
        ((requests.mapM (OperatorTable.reply config.maxDepth)).run .standard).1 ∧
      ((requests.mapM reply).run (start config)).2.table =
        ((requests.mapM (OperatorTable.reply config.maxDepth)).run .standard).2 :=
  (faithful_start config).replies requests

end Session

end ProofKernel
