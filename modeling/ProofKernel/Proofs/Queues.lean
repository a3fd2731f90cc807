import Mathlib.Data.List.Induction
import ProofKernel.IndexedCache
import ProofKernel.Proofs.Scope

/-!
# Caches are queues

A cache that has a map and, apart from it, the order of its texts replies to every row of requests
as a plain queue of entries does: the first text to come is the first one to go.

* `Memory`, `Memory.run`: what remembers terms, and its replies to a row of requests;
* `Memory.Refines.run`: a memory that replies to each request as another one replies so to rows;
* `Queue.memory`: the queue of entries, which drops the oldest one when it is full;
* `Queue.lookup?_run`: an entry comes from the insertion since which its text is there;
* `IndexedCache.InStep`: a map and an order with the entries of a queue;
* `IndexedCache.InStep.makeRoom`, `IndexedCache.InStep.insert`: what goes out of the queue goes out
  of both;
* `IndexedCache.fifo`: the cache is the queue.
-/

namespace ProofKernel

/-! ## Memories -/

/-- What remembers the terms of texts: how it is asked for a text, given a term and emptied. An
insertion also says which texts had to go. -/
structure Memory (σ : Type) where
  get? : σ → String → Option Node
  insert : σ → String → Node → σ × List String
  clear : σ → σ

namespace Memory

variable {σ τ : Type}

/-- What is asked of a memory. -/
inductive Request where
  | insert (text : String) (m : Node)
  | get (text : String)
  | clear

/-- What comes back: the texts that had to go, or the term of the text. -/
inductive Reply where
  | dropped (texts : List String)
  | term (m : Option Node)
  | cleared

/-- The reply of a memory to a request. -/
def reply (M : Memory σ) : Request → StateM σ Reply
  | .insert text m => fun s => (.dropped (M.insert s text m).2, (M.insert s text m).1)
  | .get text => fun s => (.term (M.get? s text), s)
  | .clear => fun s => (.cleared, M.clear s)

/-- The replies to a row of requests, and what is remembered after it. -/
def run (M : Memory σ) (s : σ) (requests : List Request) : List Reply × σ :=
  (requests.mapM M.reply).run s

/-- What is remembered after one more request. -/
def next (M : Memory σ) (s : σ) (r : Request) : σ := ((M.reply r).run s).2

/-- A text has a term since an insertion of the row: the text was not there before it, and has been
there after it and after each request since. -/
def HasSince (M : Memory σ) (s : σ) (requests : List Request) (text : String) (m : Node) : Prop :=
  ∃ before after, requests = before ++ .insert text m :: after ∧
    M.get? (M.run s before).2 text = none ∧
    ∀ part, part <+: after → M.get? (M.run s (before ++ .insert text m :: part)).2 text ≠ none

variable {M : Memory σ} {N : Memory τ} {R : σ → τ → Prop} {s : σ} {t : τ}

theorem run_cons (r : Request) (requests : List Request) :
    M.run s (r :: requests) = (((M.reply r).run s).1 :: (M.run (M.next s r) requests).1,
      (M.run (M.next s r) requests).2) := by
  rw [run, List.mapM_cons]
  rfl

theorem run_concat (requests : List Request) (r : Request) :
    (M.run s (requests ++ [r])).2 = M.next (M.run s requests).2 r := by
  rw [run, List.mapM_append]
  rfl

/-- A text has a term since an insertion of a longer row exactly if it has one at the end, and
either had it since an insertion before or gets it by the last request. -/
theorem hasSince_concat {requests : List Request} {r : Request} {text : String} {m : Node} :
    M.HasSince s (requests ++ [r]) text m ↔ M.get? (M.run s (requests ++ [r])).2 text ≠ none ∧
      (M.HasSince s requests text m ∨
        r = .insert text m ∧ M.get? (M.run s requests).2 text = none) := by
  constructor
  · rintro ⟨before, after, hrow, habsent, hthere⟩
    refine ⟨hrow ▸ hthere after List.prefix_rfl, ?_⟩
    cases after using List.reverseRecOn with
    | nil =>
      obtain ⟨rfl, ⟨⟩⟩ := List.append_inj' hrow rfl
      exact .inr ⟨rfl, habsent⟩
    | append_singleton after r' =>
      rw [← List.cons_append, ← List.append_assoc] at hrow
      obtain ⟨rfl, ⟨⟩⟩ := List.append_inj' hrow rfl
      exact .inl ⟨before, after, rfl, habsent,
        fun part hpart => hthere part (hpart.trans (List.prefix_append _ _))⟩
  · rintro ⟨hend, ⟨before, after, rfl, habsent, hthere⟩ | ⟨rfl, habsent⟩⟩
    · have hrow : before ++ .insert text m :: after ++ [r] =
          before ++ .insert text m :: (after ++ [r]) := List.append_assoc _ _ _
      refine ⟨before, after ++ [r], hrow, habsent, fun part hpart => ?_⟩
      rcases List.prefix_concat_iff.1 hpart with rfl | hpart
      · exact hrow ▸ hend
      · exact hthere part hpart
    · refine ⟨requests, [], rfl, habsent, fun part hpart => ?_⟩
      rw [List.prefix_nil.1 hpart]
      exact hend

theorem hasSince_congr {requests : List Request} {text : String} {m : Node}
    (hget : ∀ row, M.get? (M.run s row).2 text = N.get? (N.run t row).2 text) :
    M.HasSince s requests text m ↔ N.HasSince t requests text m := by
  simp only [HasSince, hget]

/-- **A refinement.** From states that are related, the one memory replies as the other one does,
and the states stay related. -/
structure Refines (M : Memory σ) (N : Memory τ) (R : σ → τ → Prop) : Prop where
  get : ∀ {s t}, R s t → ∀ text, M.get? s text = N.get? t text
  insert : ∀ {s t}, R s t → ∀ text m, (M.insert s text m).2 = (N.insert t text m).2 ∧
    R (M.insert s text m).1 (N.insert t text m).1
  clear : ∀ {s t}, R s t → R (M.clear s) (N.clear t)

/-- The step: one request gets the same reply. -/
theorem Refines.reply (h : M.Refines N R) (hs : R s t) (r : Request) :
    ((M.reply r).run s).1 = ((N.reply r).run t).1 ∧ R (M.next s r) (N.next t r) := by
  cases r with
  | insert text m =>
    obtain ⟨hdropped, hs'⟩ := h.insert hs text m
    exact ⟨congrArg Reply.dropped hdropped, hs'⟩
  | get text => exact ⟨congrArg Reply.term (h.get hs text), hs⟩
  | clear => exact ⟨rfl, h.clear hs⟩

/-- **The run**: so do all requests of a row, by induction on the row. -/
theorem Refines.run (h : M.Refines N R) (hs : R s t) (requests : List Request) :
    (M.run s requests).1 = (N.run t requests).1 ∧ R (M.run s requests).2 (N.run t requests).2 := by
  induction requests generalizing s t with
  | nil => exact ⟨rfl, hs⟩
  | cons r requests ih =>
    obtain ⟨hreply, hs'⟩ := h.reply hs r
    obtain ⟨hreplies, hend⟩ := ih hs'
    rw [run_cons, run_cons]
    exact ⟨congrArg₂ List.cons hreply hreplies, hend⟩

end Memory

/-! ## The queue -/

/-- Entries in the order in which they came, the oldest first. -/
abbrev Queue := List (String × Node)

namespace Queue

variable {capacity : Nat} {q rest : Queue} {text : String} {m : Node}

/-- Nothing changes where the text is there or the queue may have no entries. Else the new entry
comes to the end, and if the queue is full, its oldest entry goes. -/
def insert (capacity : Nat) (q : Queue) (text : String) (m : Node) : Queue × List String :=
  if capacity = 0 ∨ text ∈ q.map Prod.fst then (q, [])
  else if q.length = capacity then (q.tail ++ [(text, m)], (q.take 1).map Prod.fst)
  else (q ++ [(text, m)], [])

/-- The memory that is nothing but a queue. -/
def memory (capacity : Nat) : Memory Queue where
  get? := Scope.lookup?
  insert := insert capacity
  clear _ := []

/-- A queue has each text once, and no more of them than it may. -/
structure Fits (capacity : Nat) (q : Queue) : Prop where
  distinct : (q.map Prod.fst).Nodup
  length_le : q.length ≤ capacity

theorem fits_nil : Fits capacity [] := ⟨List.nodup_nil, Nat.zero_le _⟩

/-- A new text at the end of a part of the queue. -/
theorem nodup_concat (h : (rest.map Prod.fst).Nodup) (hnew : text ∉ rest.map Prod.fst) :
    ((rest ++ [(text, m)]).map Prod.fst).Nodup := by
  rw [List.map_append]
  exact h.append (List.nodup_singleton _) (List.disjoint_singleton.2 hnew)

theorem Fits.insert (h : Fits capacity q) (text : String) (m : Node) :
    Fits capacity (q.insert capacity text m).1 := by
  have hlength := h.length_le
  unfold Queue.insert
  split
  next => exact h
  next hnew =>
    obtain ⟨hcapacity, hnew⟩ := not_or.1 hnew
    split
    next hfull =>
      have hsub : (q.tail.map Prod.fst).Sublist (q.map Prod.fst) := q.tail_sublist.map _
      refine ⟨nodup_concat (h.distinct.sublist hsub) fun hmem => hnew (hsub.mem hmem), ?_⟩
      rw [List.length_append, List.length_tail, List.length_singleton]
      omega
    next hroom =>
      refine ⟨nodup_concat h.distinct hnew, ?_⟩
      rw [List.length_append, List.length_singleton]
      omega

/-- What a text has in a part of the queue without its oldest entries. -/
theorem lookup?_suffix (hrest : rest <:+ q) (hq : (q.map Prod.fst).Nodup) (text : String) :
    Scope.lookup? rest text = none ∨ Scope.lookup? rest text = Scope.lookup? q text := by
  cases h : Scope.lookup? rest text with
  | none => exact .inl rfl
  | some m => exact .inr (Scope.lookup?_of_suffix hrest hq h).symm

/-- What a text has when a new entry has come to the end and some of the oldest have gone: nothing,
or what it had before, or, if it is the new text, the new term. -/
theorem lookup?_concat (hrest : rest <:+ q) (hq : (q.map Prod.fst).Nodup)
    (hnew : text ∉ q.map Prod.fst) (other : String) :
    Scope.lookup? (rest ++ [(text, m)]) other = none ∨
      Scope.lookup? (rest ++ [(text, m)]) other = Scope.lookup? q other ∨
      ∃ m', Memory.Request.insert text m = .insert other m' ∧ Scope.lookup? q other = none ∧
        Scope.lookup? (rest ++ [(text, m)]) other = some m' := by
  rw [Scope.lookup?_append, Scope.lookup?_cons, Scope.lookup?_nil]
  by_cases hother : text = other
  · subst hother
    have habsent := Scope.lookup?_eq_none_iff.2 hnew
    have hgone : Scope.lookup? rest text = none :=
      (lookup?_suffix hrest hq text).elim id fun h => h.trans habsent
    rw [hgone, if_pos rfl]
    exact .inr (.inr ⟨m, rfl, habsent, rfl⟩)
  · rw [if_neg hother, Option.or_none]
    exact (lookup?_suffix hrest hq other).imp_right .inl

/-- **What one request does to the term of a text**: it goes, or it stays, or it comes with an
insertion of the text, which was not there. -/
theorem lookup?_next (h : Fits capacity q) (r : Memory.Request) (text : String) :
    Scope.lookup? ((memory capacity).next q r) text = none ∨
      Scope.lookup? ((memory capacity).next q r) text = Scope.lookup? q text ∨
      ∃ m, r = .insert text m ∧ Scope.lookup? q text = none ∧
        Scope.lookup? ((memory capacity).next q r) text = some m := by
  cases r with
  | get other => exact .inr (.inl rfl)
  | clear => exact .inl rfl
  | insert other m =>
    have hnext : (memory capacity).next q (.insert other m) = (q.insert capacity other m).1 := rfl
    rw [hnext]
    unfold Queue.insert
    split
    next => exact .inr (.inl rfl)
    next hnew =>
      have hnew := (not_or.1 hnew).2
      split
      next => exact lookup?_concat q.tail_suffix h.distinct hnew text
      next => exact lookup?_concat List.suffix_rfl h.distinct hnew text

theorem fits_next (h : Fits capacity q) (r : Memory.Request) :
    Fits capacity ((memory capacity).next q r) := by
  cases r with
  | insert text m => exact h.insert text m
  | get text => exact h
  | clear => exact fits_nil

theorem fits_run (requests : List Memory.Request) :
    Fits capacity ((memory capacity).run [] requests).2 := by
  induction requests using List.reverseRecOn with
  | nil => exact fits_nil
  | append_singleton requests r ih =>
    rw [Memory.run_concat]
    exact fits_next ih r

/-- **Where entries come from.** The queue has a term for a text exactly if the text has been there
since an insertion with this term, by induction on the row from its end. -/
theorem lookup?_run (requests : List Memory.Request) (text : String) (m : Node) :
    Scope.lookup? ((memory capacity).run [] requests).2 text = some m ↔
      (memory capacity).HasSince [] requests text m := by
  induction requests using List.reverseRecOn generalizing m with
  | nil =>
    refine iff_of_false (Option.some_ne_none m).symm ?_
    rintro ⟨before, after, hrow, -⟩
    exact List.append_ne_nil_of_right_ne_nil _ (List.cons_ne_nil _ _) hrow.symm
  | append_singleton requests r ih =>
    have hfits : Fits capacity ((memory capacity).run [] requests).2 := fits_run requests
    have hnext := lookup?_next hfits r text
    rw [← Memory.run_concat] at hnext
    rw [Memory.hasSince_concat, ← ih]
    show _ ↔ Scope.lookup? _ text ≠ none ∧ (_ ∨ _ ∧ Scope.lookup? _ text = none)
    rcases hnext with hgone | hstays | ⟨m', rfl, habsent, hcome⟩
    · rw [hgone]
      exact iff_of_false (Option.some_ne_none m).symm fun h => h.1 rfl
    · rw [hstays]
      constructor
      · intro h
        exact ⟨fun habsent => Option.some_ne_none m (h.symm.trans habsent), .inl h⟩
      · rintro ⟨hthere, h | ⟨-, habsent⟩⟩
        · exact h
        · exact absurd habsent hthere
    · rw [hcome, habsent]
      constructor
      · rintro ⟨⟩
        exact ⟨Option.some_ne_none _, .inr ⟨rfl, rfl⟩⟩
      · rintro ⟨-, h | ⟨⟨⟩, -⟩⟩
        · cases h
        · rfl

/-! ### The list of remembered parses -/

/-- The list that a session keeps drops one entry where it is full, and none where it is not. -/
theorem insert_eq (h : Fits capacity q) (text : String) (m : Node) :
    ParseCache.insert ⟨capacity, q⟩ text m =
      (⟨capacity, (q.insert capacity text m).1⟩, (q.insert capacity text m).2) := by
  have hthere : (ParseCache.get? ⟨capacity, q⟩ text).isSome ↔ text ∈ q.map Prod.fst := by
    rw [← not_iff_not, Option.not_isSome_iff_eq_none]
    exact Scope.lookup?_eq_none_iff
  have hexcess : ParseCache.excess ⟨capacity, q⟩ = q.length + 1 - capacity := rfl
  have hlength := h.length_le
  rw [ParseCache.insert, Queue.insert, hexcess]
  by_cases hkeep : capacity = 0 ∨ text ∈ q.map Prod.fst
  · rw [if_pos hkeep, if_pos (hkeep.imp_right hthere.2)]
  · rw [if_neg hkeep, if_neg (mt (Or.imp_right hthere.1) hkeep)]
    split
    next hfull => rw [show q.length + 1 - capacity = 1 by omega, List.drop_one]
    next hroom =>
      rw [show q.length + 1 - capacity = 0 by omega]
      rfl

end Queue

/-- The memory of a session. -/
def ParseCache.memory : Memory ParseCache := ⟨get?, insert, clear⟩

/-- The list that a session keeps is the queue. -/
theorem ParseCache.refines_queue (capacity : Nat) :
    ParseCache.memory.Refines (Queue.memory capacity)
      fun p q => p = ⟨capacity, q⟩ ∧ Queue.Fits capacity q where
  get := by
    rintro p q ⟨rfl, -⟩ text
    rfl
  insert := by
    rintro p q ⟨rfl, hq⟩ text m
    have h := Queue.insert_eq hq text m
    exact ⟨congrArg Prod.snd h, congrArg Prod.fst h, hq.insert text m⟩
  clear := by
    rintro p q ⟨rfl, -⟩
    exact ⟨rfl, Queue.fits_nil⟩

/-- The list of a session replies to every row of requests as the queue does. -/
theorem ParseCache.run_eq (capacity : Nat) (requests : List Memory.Request) :
    ParseCache.memory.run (.empty capacity) requests =
      (((Queue.memory capacity).run [] requests).1,
        ⟨capacity, ((Queue.memory capacity).run [] requests).2⟩) :=
  have h := (refines_queue capacity).run ⟨rfl, Queue.fits_nil⟩ requests
  Prod.ext h.1 h.2.1

example (a b c : Node) :
    ParseCache.memory.run (.empty 2) [.insert "x" a, .insert "y" b, .insert "x" c, .insert "z" c] =
      ([.dropped [], .dropped [], .dropped [], .dropped ["x"]], ⟨2, [("y", b), ("z", c)]⟩) := rfl

/-! ## The map and the order -/

namespace IndexedCache

variable {capacity : Nat} {entries : Std.HashMap String Node} {order : List String}
  {c : IndexedCache} {p : ParseCache} {text : String} {m : Node}

/-- **In step.** A map and an order have the entries of a list, which has each text once. -/
structure InStep (c : IndexedCache) (p : ParseCache) : Prop where
  capacity : c.capacity = p.capacity
  order : c.order = p.entries.map Prod.fst
  distinct : (p.entries.map Prod.fst).Nodup
  get : ∀ text, c.entries[text]? = Scope.lookup? p.entries text
  size : c.entries.size = p.entries.length

namespace InStep

theorem empty (capacity : Nat) : InStep (.empty capacity) (.empty capacity) where
  capacity := rfl
  order := rfl
  distinct := List.nodup_nil
  get _ := Std.HashMap.getElem?_empty
  size := Std.HashMap.size_empty

theorem mem_iff (h : InStep c p) (text : String) :
    text ∈ c.entries ↔ text ∈ p.entries.map Prod.fst := by
  rw [Std.HashMap.mem_iff_isSome_getElem?, h.get, ← not_iff_not, ← Scope.lookup?_eq_none_iff,
    Option.not_isSome_iff_eq_none]

theorem isEmpty (h : InStep c p) : c.isEmpty = p.entries.isEmpty := by
  rw [IndexedCache.isEmpty, Std.HashMap.isEmpty_eq_size_eq_zero, h.size]
  cases p.entries <;> rfl

/-- Without its oldest text. -/
theorem dropOldest {q : List (String × Node)} {x : String} {b : Node}
    (h : InStep ⟨capacity, entries, x :: order⟩ ⟨capacity, (x, b) :: q⟩) :
    InStep ⟨capacity, entries.erase x, order⟩ ⟨capacity, q⟩ := by
  have hx : x ∈ entries := (h.mem_iff x).2 List.mem_cons_self
  obtain ⟨hnew, hdistinct⟩ := List.nodup_cons.1 h.distinct
  refine ⟨rfl, (List.cons.inj h.order).2, hdistinct, fun text => ?_, ?_⟩
  · have hget := h.get text
    rw [Scope.lookup?_cons] at hget
    show (entries.erase x)[text]? = _
    rw [Std.HashMap.getElem?_erase, hget]
    by_cases htext : x = text
    · subst htext
      rw [if_pos (beq_self_eq_true x)]
      exact (Scope.lookup?_eq_none_iff.2 hnew).symm
    · rw [if_neg (by simpa using htext), if_neg htext]
  · have hsize : entries.size = q.length + 1 := h.size
    show (entries.erase x).size = q.length
    rw [Std.HashMap.size_erase, if_pos hx, hsize, Nat.add_sub_cancel]

/-- With one more text. -/
theorem push (h : InStep c p) (hnew : text ∉ p.entries.map Prod.fst) (m : Node) :
    InStep { c with entries := c.entries.insert text m, order := c.order ++ [text] }
      { p with entries := p.entries ++ [(text, m)] } where
  capacity := h.capacity
  order := by
    rw [List.map_append, ← h.order]
    rfl
  distinct := Queue.nodup_concat h.distinct hnew
  get other := by
    show (c.entries.insert text m)[other]? = _
    rw [Std.HashMap.getElem?_insert, h.get, Scope.lookup?_append, Scope.lookup?_cons,
      Scope.lookup?_nil]
    by_cases hother : text = other
    · subst hother
      rw [Scope.lookup?_eq_none_iff.2 hnew, if_pos (beq_self_eq_true text), if_pos rfl]
      rfl
    · rw [if_neg (by simpa using hother), if_neg hother, Option.or_none]
  size := by
    have hmem : text ∉ c.entries := mt (h.mem_iff text).1 hnew
    show (c.entries.insert text m).size = _
    rw [Std.HashMap.size_insert, if_neg hmem, h.size, List.length_append]
    rfl

/-- **The loop.** It drops as many of the oldest texts as are too many, by induction on the list. -/
theorem makeRoom {q : List (String × Node)} (h : InStep ⟨capacity, entries, order⟩ ⟨capacity, q⟩) :
    InStep (IndexedCache.makeRoom capacity entries order).1
        ⟨capacity, q.drop (q.length + 1 - capacity)⟩ ∧
      (IndexedCache.makeRoom capacity entries order).2 =
        (q.take (q.length + 1 - capacity)).map Prod.fst := by
  induction q generalizing entries order with
  | nil =>
    obtain rfl : order = [] := h.order
    rw [List.drop_nil, List.take_nil]
    exact ⟨h, rfl⟩
  | cons entry q ih =>
    obtain ⟨x, b⟩ := entry
    obtain rfl : order = x :: q.map Prod.fst := h.order
    have hsize : entries.size = q.length + 1 := h.size
    rw [IndexedCache.makeRoom, hsize, List.length_cons]
    split
    next hfull =>
      obtain ⟨hroom, hdropped⟩ := ih h.dropOldest
      rw [show q.length + 1 + 1 - capacity = q.length + 1 - capacity + 1 by omega]
      exact ⟨hroom, congrArg (x :: ·) hdropped⟩
    next hroom =>
      rw [show q.length + 1 + 1 - capacity = 0 by omega]
      exact ⟨h, rfl⟩

/-- **An insertion** does to the map and the order what it does to the list. -/
theorem insert (h : InStep c p) (text : String) (m : Node) :
    (c.insert text m).2 = (p.insert text m).2 ∧
      InStep (c.insert text m).1 (p.insert text m).1 := by
  obtain ⟨capacity, entries, order⟩ := c
  obtain ⟨_, q⟩ := p
  obtain rfl : capacity = _ := h.capacity
  obtain ⟨hroom, hdropped⟩ := h.makeRoom
  have hthere : (ParseCache.get? ⟨capacity, q⟩ text).isSome ↔ text ∈ entries := by
    rw [Std.HashMap.mem_iff_isSome_getElem?]
    exact iff_of_eq (congrArg (·.isSome = true) (h.get text).symm)
  rw [IndexedCache.insert, ParseCache.insert]
  by_cases hkeep : capacity = 0 ∨ text ∈ entries
  · rw [if_pos hkeep, if_pos (hkeep.imp_right hthere.2)]
    exact ⟨rfl, h⟩
  · rw [if_neg hkeep, if_neg (mt (Or.imp_right hthere.1) hkeep)]
    have hnew : text ∉ (q.drop (q.length + 1 - capacity)).map Prod.fst := by
      intro hmem
      have hsub : ((q.drop (q.length + 1 - capacity)).map Prod.fst).Sublist (q.map Prod.fst) :=
        (q.drop_sublist _).map _
      exact hkeep (.inr ((h.mem_iff text).2 (hsub.mem hmem)))
    exact ⟨hdropped, hroom.push hnew m⟩

theorem clear (h : InStep c p) : InStep c.clear p.clear :=
  { empty c.capacity with capacity := h.capacity }

end InStep

/-- The memory that is a map with an order. -/
def memory : Memory IndexedCache := ⟨get?, insert, clear⟩

theorem refines_parseCache : memory.Refines ParseCache.memory InStep where
  get h text := h.get text
  insert h text m := h.insert text m
  clear h := h.clear

/-- After each row of requests the map and the order have the entries of the queue. -/
theorem run_inStep (capacity : Nat) (requests : List Memory.Request) :
    (memory.run (empty capacity) requests).1 = ((Queue.memory capacity).run [] requests).1 ∧
      InStep (memory.run (empty capacity) requests).2
        ⟨capacity, ((Queue.memory capacity).run [] requests).2⟩ := by
  have h := refines_parseCache.run (.empty capacity) requests
  rw [ParseCache.run_eq] at h
  exact h

/-- The term of a text is the one that it was put in with. -/
theorem get?_run (capacity : Nat) (requests : List Memory.Request) (text : String) (m : Node) :
    (memory.run (empty capacity) requests).2.get? text = some m ↔
      memory.HasSince (empty capacity) requests text m := by
  have hget : ∀ row, memory.get? (memory.run (empty capacity) row).2 text =
      (Queue.memory capacity).get? ((Queue.memory capacity).run [] row).2 text :=
    fun row => (run_inStep capacity row).2.get text
  rw [Memory.hasSince_congr hget, ← Queue.lookup?_run]
  exact iff_of_eq (congrArg (· = some m) (hget requests))

/-- **The cache is a queue.** Whatever row of requests it gets, it replies as the queue does, and
has the entries of the queue after it: the order lists the texts of the map once each, the oldest
first, and the map has for each of them the term that it was put in with. There are never more of
them than the capacity. The list that a session keeps is this queue as well. -/
theorem fifo (capacity : Nat) (requests : List Memory.Request) :
    let cache := memory.run (empty capacity) requests
    let queue := (Queue.memory capacity).run [] requests
    cache.1 = queue.1 ∧
      cache.2.order = queue.2.map Prod.fst ∧ cache.2.order.Nodup ∧
      (∀ text, text ∈ cache.2.entries ↔ text ∈ cache.2.order) ∧
      (∀ text, cache.2.get? text = Scope.lookup? queue.2 text) ∧
      (∀ text m,
        cache.2.get? text = some m ↔ memory.HasSince (empty capacity) requests text m) ∧
      cache.2.size = queue.2.length ∧ cache.2.isEmpty = queue.2.isEmpty ∧
      cache.2.size ≤ capacity ∧
      ParseCache.memory.run (.empty capacity) requests = (queue.1, ⟨capacity, queue.2⟩) := by
  intro cache queue
  obtain ⟨hreplies, hstep⟩ := run_inStep capacity requests
  have hfits : Queue.Fits capacity queue.2 := Queue.fits_run requests
  have hsize : cache.2.size ≤ capacity := Nat.le_trans (Nat.le_of_eq hstep.size) hfits.length_le
  exact ⟨hreplies, hstep.order, hstep.order ▸ hstep.distinct,
    fun text => hstep.order ▸ hstep.mem_iff text, hstep.get, get?_run capacity requests,
    hstep.size, hstep.isEmpty, hsize, ParseCache.run_eq capacity requests⟩

end IndexedCache

end ProofKernel
