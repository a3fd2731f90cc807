import ProofKernel.Proofs.Literals
import ProofKernel.Proofs.Substitution
import ProofKernel.Term.Normal

/-!
# Normal forms tell terms apart up to the names of binders

* `Nameless.number`: the term of a nameless form whose binders are numbered as they are met;
* `Node.normalized_bare`: the normal form of a term is its nameless form, numbered;
* `Nameless.namelessIn_number`: a numbered term has the nameless form that it was made of, if its
  numbers are those of no free name (`Nameless.Numbered`);
* `Node.normalized?_equal_iff_alike`: so normal forms are equal exactly if the terms are alike.
-/

namespace ProofKernel

namespace Nameless

/-- The number of abstractions. -/
def binders : Nameless → Nat
  | .free _ => 0
  | .bound _ => 0
  | .app f x => f.binders + x.binders
  | .abs body => body.binders + 1

/-- The term of a nameless form under binders, the innermost first: its own binders are numbered
after the counter, in the order in which they are met. -/
def number : Nameless → (scope : List Name) → (counter : Nat) → PlainTerm × Nat
  | .free x, _, counter => (.named x, counter)
  | .bound k, scope, counter => (.named (scope.getD k ""), counter)
  | .app f x, scope, counter =>
    let (f, counter) := f.number scope counter
    let (x, counter) := x.number scope counter
    (.call f x, counter)
  | .abs body, scope, counter =>
    let fresh := Node.numberedName (counter + 1)
    let (body, counter) := body.number (fresh :: scope) (counter + 1)
    (.lambda fresh body, counter)

theorem number_counter (t : Nameless) (scope : List Name) (counter : Nat) :
    (t.number scope counter).2 = counter + t.binders := by
  induction t generalizing scope counter with
  | free x => rfl
  | bound k => rfl
  | app f x ihf ihx =>
    show (x.number scope (f.number scope counter).2).2 = counter + (f.binders + x.binders)
    rw [ihx, ihf, Nat.add_assoc]
  | abs body ih =>
    show (body.number (_ :: scope) (counter + 1)).2 = counter + (body.binders + 1)
    rw [ih]
    omega

end Nameless

/-! ## The normal form of a term -/

/-- The term of a draft without tags and spellings. -/
def Draft.bare : Draft → PlainTerm
  | .keep m => m.bare
  | .slot m => m.bare
  | .app f x => .call f.bare x.bare
  | .abs b d => .lambda b.name d.bare

theorem Draft.build_bare (d : Draft) (nodes : Nat) : (d.build nodes).1.bare = d.bare := by
  induction d generalizing nodes with
  | keep m => rfl
  | slot m => rfl
  | app f x ihf ihx =>
    show Term.call (f.build nodes).1.bare (x.build (f.build nodes).2).1.bare = _
    rw [ihf, ihx]
    rfl
  | abs b d ih =>
    show Term.lambda b.name (d.build nodes).1.bare = _
    rw [ih]
    rfl

namespace Node

/-- A name is numbered as its innermost binder is. -/
theorem number_resolve (scope : Scope (Atom Nat)) (x : Name) (counter : Nat) :
    (resolve (scope.map (·.1)) x).number (scope.map (·.2.name)) counter =
      (.named (((scope.lookup? x).map Atom.name).getD x), counter) := by
  induction scope with
  | nil => rfl
  | cons frame scope ih =>
    obtain ⟨y, b⟩ := frame
    rw [Scope.lookup?_cons]
    by_cases hy : y = x
    · subst hy
      simp [Nameless.number]
    · rw [if_neg hy, ← ih, List.map_cons, List.map_cons, resolve_cons_of_ne _ hy]
      unfold resolve
      cases (scope.map (·.1)).idxOf? x <;> rfl

/-- The draft of a normal form is the nameless form of the term, numbered. -/
theorem normalDraft_bare (m : Node) (scope : Scope (Atom Nat)) (counter nodes : Nat) :
    ((normalDraft m scope counter nodes).1.1.bare, (normalDraft m scope counter nodes).1.2) =
      (m.namelessIn (scope.map (·.1))).number (scope.map (·.2.name)) counter := by
  induction m generalizing scope counter nodes with
  | var a =>
    rw [Term.namelessIn, number_resolve]
    show (Term.named ((scope.lookup? a.name).getD a).name, counter) = _
    cases scope.lookup? a.name <;> rfl
  | app tag f x ihf ihx =>
    have hf := ihf scope counter nodes
    have hx := ihx scope (normalDraft f scope counter nodes).1.2
      (normalDraft f scope counter nodes).2
    rw [Term.namelessIn, Nameless.number, ← hf]
    dsimp only
    rw [← hx]
    rfl
  | abs tag b body ih =>
    have hbody := ih ((b.name, ⟨nodes, numberedName (counter + 1), none⟩) :: scope) (counter + 1)
      (nodes + 1)
    rw [List.map_cons, List.map_cons] at hbody
    rw [Term.namelessIn, Nameless.number]
    dsimp only
    rw [← hbody]
    rfl

/-- **The normal form of a term is its nameless form, numbered.** -/
theorem normalized_bare (m : Node) (nodes : Nat) :
    (m.normalized nodes).1.bare = (m.nameless.number [] m.normalStart).1 := by
  have h := normalDraft_bare m [] m.normalStart nodes
  show ((normalDraft m [] m.normalStart nodes).1.1.build _).1.bare = _
  rw [Draft.build_bare]
  exact congrArg Prod.fst h

/-! ## Where the numbers begin -/

theorem numberedName_injective {j k : Nat} (h : numberedName j = numberedName k) : j = k := by
  have h : "$" ++ j.repr = "$" ++ k.repr := h
  exact Nat.repr_injective ((String.append_right_inj "$").1 h)

theorem numberOf?_numberedName {k : Nat} (h : k ≤ numberLimit) :
    numberOf? (numberedName k) = some k := by
  have hlist : (numberedName k).toList = '$' :: k.repr.toList := by
    show ("$" ++ k.repr).toList = _
    rw [String.toList_append]
    rfl
  rw [numberOf?, hlist]
  show (Name.natural? k.repr.toList).filter (· ≤ numberLimit) = _
  rw [Name.natural?_repr, Option.filter_some, if_pos (by simpa using h)]

theorem foldl_max_le {ks : List Nat} {j k : Nat} :
    ks.foldl max j ≤ k ↔ j ≤ k ∧ ∀ i ∈ ks, i ≤ k := by
  induction ks generalizing j with
  | nil => simp
  | cons i ks ih =>
    rw [List.foldl_cons, ih, Nat.max_le, List.forall_mem_cons, and_assoc]

theorem normalStart_le_iff {m : Node} {k : Nat} :
    m.normalStart ≤ k ↔ ∀ x ∈ m.freeNames, ∀ j, numberOf? x = some j → j ≤ k := by
  rw [normalStart, foldl_max_le]
  simp only [Nat.zero_le, true_and, List.mem_filterMap, forall_exists_index, and_imp]
  exact ⟨fun h x hx j hj => h j x hx hj, fun h j x hx hj => h x hx j hj⟩

/-- Terms that are alike have the same free names, so that their numbers begin with the same one. -/
theorem normalStart_congr {m n : Node} (h : m.nameless = n.nameless) :
    m.normalStart = n.normalStart := by
  have hfree : ∀ x, x ∈ m.freeNames ↔ x ∈ n.freeNames := fun x => by
    rw [← Term.mem_freeNames_nameless, h, Term.mem_freeNames_nameless]
  refine le_antisymm (normalStart_le_iff.2 fun x hx => ?_) (normalStart_le_iff.2 fun x hx => ?_)
  · exact normalStart_le_iff.1 le_rfl x ((hfree x).1 hx)
  · exact normalStart_le_iff.1 le_rfl x ((hfree x).2 hx)

end Node

/-! ## The nameless form of a numbered term -/

namespace Nameless

/-- What the numbering of a term under binders relies on. The binders are numbered after `start`, up
to the counter, with one number each; and no name that is free has a number after `start`, up to the
last one that the term's own binders take. -/
structure Numbered (start : Nat) (t : Nameless) (scope : List Name) (counter : Nat) : Prop where
  closed : t.ClosedAt scope.length
  distinct : scope.Nodup
  after : start ≤ counter
  numbered : ∀ x ∈ scope, ∃ j, start < j ∧ j ≤ counter ∧ x = Node.numberedName j
  free : ∀ j, start < j → j ≤ counter + t.binders → Node.numberedName j ∉ t.freeNames

/-- A distance leads back to its binder where the binders have different names. -/
theorem resolve_getD {scope : List Name} (h : scope.Nodup) {k : Nat} (hk : k < scope.length) :
    resolve scope (scope.getD k "") = .bound k := by
  have hidx : scope.idxOf? scope[k] = some k :=
    List.idxOf?_eq_some_iff.2 ⟨hk, rfl, fun j hj e =>
      absurd ((List.Nodup.getElem_inj_iff h).1 e) (Nat.ne_of_lt hj)⟩
  have hget : scope.getD k "" = scope[k] := by simp [hk]
  rw [hget, resolve, hidx]

/-- A new number is that of no binder around. -/
theorem Numbered.fresh {start : Nat} {t : Nameless} {scope : List Name} {counter : Nat}
    (h : Numbered start t scope counter) : Node.numberedName (counter + 1) ∉ scope := by
  intro hmem
  obtain ⟨j, -, hj, he⟩ := h.numbered _ hmem
  have := Node.numberedName_injective he
  omega

/-- **A numbered term has the nameless form that it was made of.** -/
theorem namelessIn_number {start : Nat} {t : Nameless} {scope : List Name} {counter : Nat}
    (h : Numbered start t scope counter) : (t.number scope counter).1.namelessIn scope = t := by
  induction t generalizing scope counter with
  | free x =>
    refine resolve_of_not_mem fun hx => ?_
    obtain ⟨j, hlt, hle, rfl⟩ := h.numbered x hx
    exact h.free j hlt (by omega) List.mem_cons_self
  | bound k => exact resolve_getD h.distinct h.closed
  | app f x ihf ihx =>
    have hf : Numbered start f scope counter :=
      { h with
        closed := h.closed.1
        free := fun j hlt hle hmem =>
          h.free j hlt (by simp only [binders]; omega) (List.mem_append_left _ hmem) }
    have hx : Numbered start x scope (f.number scope counter).2 := by
      rw [number_counter]
      exact
        { closed := h.closed.2
          distinct := h.distinct
          after := by have := h.after; omega
          numbered := fun y hy => by
            obtain ⟨j, hlt, hle, e⟩ := h.numbered y hy
            exact ⟨j, hlt, by omega, e⟩
          free := fun j hlt hle hmem =>
            h.free j hlt (by simp only [binders]; omega) (List.mem_append_right _ hmem) }
    show Nameless.app ((f.number scope counter).1.namelessIn scope)
      ((x.number scope (f.number scope counter).2).1.namelessIn scope) = _
    rw [ihf hf, ihx hx]
  | abs body ih =>
    have hbody : Numbered start body (Node.numberedName (counter + 1) :: scope) (counter + 1) :=
      { closed := h.closed
        distinct := List.nodup_cons.2 ⟨h.fresh, h.distinct⟩
        after := by have := h.after; omega
        numbered := fun y hy => by
          rcases List.mem_cons.1 hy with rfl | hy
          · exact ⟨counter + 1, by have := h.after; omega, le_rfl, rfl⟩
          · obtain ⟨j, hlt, hle, e⟩ := h.numbered y hy
            exact ⟨j, hlt, by omega, e⟩
        free := fun j hlt hle hmem => h.free j hlt (by simp only [binders]; omega) hmem }
    exact congrArg Nameless.abs (ih hbody)

end Nameless

/-! ## Normal forms and likeness -/

namespace Term

variable {ι : Type}

theorem namelessIn_bare (m : Term ι) (scope : List Name) :
    m.bare.namelessIn scope = m.namelessIn scope := by
  induction m generalizing scope with
  | var a => rfl
  | app tag f x ihf ihx =>
    show Nameless.app (f.bare.namelessIn scope) (x.bare.namelessIn scope) = _
    rw [ihf, ihx]
    rfl
  | abs tag b body ih =>
    show Nameless.abs (body.bare.namelessIn (b.name :: scope)) = _
    rw [ih]
    rfl

theorem binders_namelessIn (m : Term ι) (scope : List Name) :
    (m.namelessIn scope).binders = m.binders := by
  induction m generalizing scope with
  | var a =>
    rw [namelessIn, resolve]
    cases scope.idxOf? a.name <;> rfl
  | app tag f x ihf ihx =>
    show (f.namelessIn scope).binders + (x.namelessIn scope).binders = _
    rw [ihf, ihx]
    rfl
  | abs tag b body ih =>
    show (body.namelessIn (b.name :: scope)).binders + 1 = _
    rw [ih]
    rfl

end Term

namespace Node

/-- The binders of the normal form have numbers that are those of no free name. -/
theorem numbered_nameless {m : Node} (h : m.normalStart + m.binders ≤ numberLimit) :
    Nameless.Numbered m.normalStart m.nameless [] m.normalStart where
  closed := Term.closedAt_nameless m
  distinct := List.nodup_nil
  after := le_rfl
  numbered := by simp
  free := fun j hlt hle hmem => by
    have hj : j ≤ numberLimit := by
      rw [Term.nameless, Term.binders_namelessIn] at hle
      omega
    have := normalStart_le_iff.1 le_rfl _ (Term.mem_freeNames_nameless.1 hmem) j
      (numberOf?_numberedName hj)
    omega

/-- The normal form of a term is alike to it. -/
theorem normalized_nameless {m : Node} (h : m.normalStart + m.binders ≤ numberLimit) (nodes : Nat) :
    (m.normalized nodes).1.nameless = m.nameless := by
  rw [Term.nameless, ← Term.namelessIn_bare, normalized_bare]
  exact Nameless.namelessIn_number (numbered_nameless h)

theorem normalized_equal_iff {m n : Node} (hm : m.normalStart + m.binders ≤ numberLimit)
    (hn : n.normalStart + n.binders ≤ numberLimit) (i j : Nat) :
    (m.normalized i).1.equal (n.normalized j).1 = true ↔ m.alike n = true := by
  rw [Term.equal, beq_iff_eq, Term.alike_iff]
  constructor
  · intro h
    rw [← normalized_nameless hm i, ← normalized_nameless hn j, Term.nameless, Term.nameless,
      ← Term.namelessIn_bare, h, Term.namelessIn_bare]
  · intro h
    rw [normalized_bare, normalized_bare, h, normalStart_congr h]

/-- Normalizing takes as many numbers for the normal form as for the term. -/
theorem fits_congr {m n : Node} (h : m.nameless = n.nameless) :
    m.normalStart + m.binders = n.normalStart + n.binders := by
  rw [normalStart_congr h, ← Term.binders_namelessIn m [], ← Term.binders_namelessIn n []]
  exact congrArg (n.normalStart + Nameless.binders ·) h

theorem normalized?_eq {m : Node} (h : m.normalStart + m.binders ≤ numberLimit) (nodes : Nat) :
    (m.normalized? nodes).1 = some (m.normalized nodes).1 := by
  rw [normalized?, if_pos h]
  rfl

/-- **Normal forms are equal exactly if the terms are alike**, for terms whose numbers take no more
than 64 bits: these have a normal form, which is alike to the term, and whose own normal form is
equal to it. -/
theorem normalized?_equal_iff_alike {a b : Node} (ha : a.normalStart + a.binders ≤ numberLimit)
    (hb : b.normalStart + b.binders ≤ numberLimit) (i j k : Nat) :
    ∃ a' b' a'' : Node, (a.normalized? i).1 = some a' ∧ (b.normalized? j).1 = some b' ∧
      (a'.equal b' = true ↔ a.alike b = true) ∧ a'.alike a = true ∧
      (a'.normalized? k).1 = some a'' ∧ a''.equal a' = true := by
  have hlike : (a.normalized i).1.nameless = a.nameless := normalized_nameless ha i
  have ha' : (a.normalized i).1.normalStart + (a.normalized i).1.binders ≤ numberLimit := by
    rw [fits_congr hlike]
    exact ha
  refine ⟨_, _, _, normalized?_eq ha i, normalized?_eq hb j, normalized_equal_iff ha hb i j,
    Term.alike_iff.2 hlike, normalized?_eq ha' k, ?_⟩
  exact (normalized_equal_iff ha' ha k i).2 (Term.alike_iff.2 hlike)

/-- Binders may be called as the new ones are, and shadow each other; the free name sets the start. -/
theorem normalized?_equal_iff_alike_shadowed :
    let free : Node := .var ⟨9, "$3", none⟩
    let inner (x : Name) : Node := .abs 2 ⟨3, x, none⟩ (.app 4 (.var ⟨5, x, none⟩) free)
    let a : Node := .abs 0 ⟨1, "$4", none⟩ (inner "$4")
    let b : Node := .abs 0 ⟨1, "x", none⟩ (inner "$1")
    a.normalStart = 3 ∧ a.normalStart + a.binders ≤ numberLimit ∧
      b.normalStart + b.binders ≤ numberLimit ∧
      ∃ a' b' a'' : Node, (a.normalized? 10).1 = some a' ∧ (b.normalized? 20).1 = some b' ∧
        (a'.equal b' = true ↔ a.alike b = true) ∧ a'.alike a = true ∧
        (a'.normalized? 30).1 = some a'' ∧ a''.equal a' = true ∧ a.alike b = true := by
  intro free inner a b
  have ha : a.normalStart + a.binders ≤ numberLimit := by decide
  have hb : b.normalStart + b.binders ≤ numberLimit := by decide
  obtain ⟨a', b', a'', ha', hb', hiff, hlike, ha'', hequal⟩ :=
    normalized?_equal_iff_alike ha hb 10 20 30
  exact ⟨by decide, ha, hb, a', b', a'', ha', hb', hiff, hlike, ha'', hequal, by decide⟩

end Node

end ProofKernel
