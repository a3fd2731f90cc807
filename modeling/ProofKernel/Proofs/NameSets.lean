import Mathlib.Data.List.Sort
import Mathlib.Data.String.Basic
import ProofKernel.Proofs.Decapture
import ProofKernel.Term.NameSets

/-!
# The names of a term agree

A term is asked for its names in three ways: whether one name occurs unbound, which names do, and
which names occur at all. The first question stops at a binder of the name; the second one keeps a row
of all binders on the way.

* `Name.pairwise_sorted`, `NameSet.toList_ofList`: a set lists its names in order, each once;
* `Term.addFreeNames_eq`, `Term.addNames_eq`: what the walks put into a set, by the nameless form and
  by the row of all names;
* `Term.LeafAt`, `Term.FreeLeafAt`, `Term.BoundLeafAt`: leaves, and whether an abstraction around them
  binds them;
* `Term.mem_freeNames_iff_leaf`, `Term.mem_allNames_iff_leaf`: the names that occur, by the leaves;
* `Term.names_agree`: all answers agree.
-/

namespace ProofKernel

/-! ## Sets in order -/

/-- In a row in order only the first of equal names is kept, so that the order becomes strict. -/
theorem Name.pairwise_eraseDups {ns : List Name} (h : ns.Pairwise (· ≤ ·)) :
    ns.eraseDups.Pairwise (· < ·) := by
  induction hlength : ns.length using Nat.strongRecOn generalizing ns with
  | ind n ih =>
    cases ns with
    | nil => exact List.Pairwise.nil
    | cons x ns =>
      obtain ⟨hx, hns⟩ := List.pairwise_cons.1 h
      have hshorter : (ns.filter fun y => !y == x).length < n :=
        hlength ▸ Nat.lt_succ_of_le (List.length_filter_le _ ns)
      rw [List.eraseDups_cons, List.pairwise_cons]
      refine ⟨fun y hy => ?_, ih _ hshorter (hns.filter _) rfl⟩
      obtain ⟨hmem, hne⟩ := List.mem_filter.1 (List.mem_eraseDups.1 hy)
      exact lt_of_le_of_ne (hx y hmem) fun heq => by simp [heq] at hne

theorem Name.pairwise_sorted (ns : List Name) : (Name.sorted ns).Pairwise (· < ·) := by
  refine Name.pairwise_eraseDups ((List.pairwise_mergeSort ?_ ?_ ns).imp of_decide_eq_true)
  · intro x y z hxy hyz
    exact decide_eq_true ((of_decide_eq_true hxy).trans (of_decide_eq_true hyz))
  · intro x y
    simpa using le_total x y

theorem Name.mem_sorted {ns : List Name} {x : Name} : x ∈ Name.sorted ns ↔ x ∈ ns := by
  rw [Name.sorted, List.mem_eraseDups, List.mem_mergeSort]

theorem NameSet.mem_ofList {ns : List Name} {x : Name} :
    x ∈ (Std.ExtTreeSet.ofList ns : NameSet) ↔ x ∈ ns := by
  rw [Std.ExtTreeSet.mem_ofList, List.contains_iff_mem]

/-- A set lists its names as they are shown: in order, each once. -/
theorem NameSet.toList_ofList (ns : List Name) :
    (Std.ExtTreeSet.ofList ns : NameSet).toList = Name.sorted ns := by
  have hordered : (Std.ExtTreeSet.ofList ns : NameSet).toList.Pairwise (· < ·) :=
    Std.ExtTreeSet.ordered_toList.imp compare_lt_iff_lt.1
  refine hordered.eq_of_mem_iff (Name.pairwise_sorted ns) fun x => ?_
  rw [Std.ExtTreeSet.mem_toList, NameSet.mem_ofList, Name.mem_sorted]

namespace Term

variable {ι : Type} {m f y body : Term ι} {t : ι} {a b : Atom ι} {x : Name} {p : Path}

/-! ## The walks -/

/-- **A walk that keeps its binders** puts the free leaves of the nameless form into the set: a name has
no frame exactly if it stays a name there. -/
theorem addFreeNames_eq (m : Term ι) (names : NameSet) (scope : Scope Unit) :
    m.addFreeNames names scope =
      names.insertMany (m.namelessIn (scope.map Prod.fst)).freeNames := by
  induction m generalizing names scope with
  | var a =>
    by_cases ha : scope.lookup? a.name = none
    · have hfree := resolve_of_not_mem (Scope.lookup?_eq_none_iff.1 ha)
      rw [addFreeNames, ha, namelessIn, hfree]
      exact Std.ExtTreeSet.insertMany_list_singleton.symm
    · obtain ⟨k, -, hk⟩ := resolve_of_mem (not_not.1 fun h => ha (Scope.lookup?_eq_none_iff.2 h))
      rw [addFreeNames, if_neg (by simpa using ha), namelessIn, hk]
      exact Std.ExtTreeSet.insertMany_nil.symm
  | app t f y ihf ihy =>
    rw [addFreeNames, ihf, ihy, namelessIn, Nameless.freeNames, Std.ExtTreeSet.insertMany_append]
  | abs t b body ih => exact ih names ((b.name, ()) :: scope)

theorem freeNameSet_eq (m : Term ι) : m.freeNameSet = .ofList m.nameless.freeNames := by
  rw [freeNameSet, addFreeNames_eq, Std.ExtTreeSet.ofList_eq_insertMany_empty]
  rfl

theorem mem_freeNameSet : x ∈ m.freeNameSet ↔ x ∈ m.freeNames := by
  rw [freeNameSet_eq, NameSet.mem_ofList, mem_freeNames_nameless]

/-- **A walk through all parts** puts the row of all names into the set. -/
theorem addNames_eq (m : Term ι) (names : NameSet) :
    m.addNames names = names.insertMany m.allNames := by
  induction m generalizing names with
  | var a => exact Std.ExtTreeSet.insertMany_list_singleton.symm
  | app t f y ihf ihy => rw [addNames, ihf, ihy, allNames, Std.ExtTreeSet.insertMany_append]
  | abs t b body ih => rw [addNames, ih, allNames, Std.ExtTreeSet.insertMany_cons]

theorem nameSet_eq (m : Term ι) : m.nameSet = .ofList m.allNames := by
  rw [nameSet, addNames_eq, Std.ExtTreeSet.ofList_eq_insertMany_empty]

theorem mem_nameSet : x ∈ m.nameSet ↔ x ∈ m.allNames := by
  rw [nameSet_eq, NameSet.mem_ofList]

/-- The sets list their names as the rows of names are shown. -/
theorem toList_freeNameSet (m : Term ι) : m.freeNameSet.toList = Name.sorted m.freeNames := by
  rw [← NameSet.toList_ofList]
  refine congrArg _ (Std.ExtTreeSet.ext_mem fun x => ?_)
  rw [mem_freeNameSet, NameSet.mem_ofList]

theorem toList_nameSet (m : Term ι) : m.nameSet.toList = Name.sorted m.allNames := by
  rw [nameSet_eq, NameSet.toList_ofList]

/-! ## Leaves -/

/-- A leaf of the name is at the path. Binders are no leaves. -/
def LeafAt (m : Term ι) (x : Name) (p : Path) : Prop :=
  ∃ a, m.locate p = .ok (.var a) ∧ .bound ∉ p ∧ a.name = x

/-- A leaf of the name is at the path, and no abstraction around it binds the name. -/
def FreeLeafAt (m : Term ι) (x : Name) (p : Path) : Prop := m.LeafAt x p ∧ m.binderOf? x p = none

/-- A leaf of the name is at the path, and an abstraction around it binds the name. -/
def BoundLeafAt (m : Term ι) (x : Name) (p : Path) : Prop := m.LeafAt x p ∧ m.binderOf? x p ≠ none

theorem leafAt_var : (Term.var a).LeafAt x p ↔ p = [] ∧ a.name = x := by
  constructor
  · rintro ⟨c, hp, -, rfl⟩
    obtain ⟨rfl, heq⟩ := locate_var hp
    cases heq
    exact ⟨rfl, rfl⟩
  · rintro ⟨rfl, rfl⟩
    exact ⟨a, rfl, List.not_mem_nil, rfl⟩

/-- The leaves of a call are those of its parts. -/
theorem leafAt_app : (Term.app t f y).LeafAt x p ↔
    (∃ q, f.LeafAt x q ∧ .fn :: q = p) ∨ ∃ q, y.LeafAt x q ∧ .arg :: q = p := by
  constructor
  · rintro ⟨a, hp, hleaf, rfl⟩
    rcases locate_app hp with ⟨-, heq⟩ | ⟨q, rfl, hq⟩ | ⟨q, rfl, hq⟩
    · cases heq
    · exact .inl ⟨q, ⟨a, hq, List.not_mem_of_not_mem_cons hleaf, rfl⟩, rfl⟩
    · exact .inr ⟨q, ⟨a, hq, List.not_mem_of_not_mem_cons hleaf, rfl⟩, rfl⟩
  · rintro (⟨q, ⟨a, hq, hleaf, rfl⟩, rfl⟩ | ⟨q, ⟨a, hq, hleaf, rfl⟩, rfl⟩)
    · exact ⟨a, hq, by simpa using hleaf, rfl⟩
    · exact ⟨a, hq, by simpa using hleaf, rfl⟩

/-- The leaves of an abstraction are those of its body. -/
theorem leafAt_abs : (Term.abs t b body).LeafAt x p ↔ ∃ q, body.LeafAt x q ∧ .body :: q = p := by
  constructor
  · rintro ⟨a, hp, hleaf, rfl⟩
    rcases locate_abs hp with ⟨-, heq⟩ | ⟨rfl, -⟩ | ⟨q, rfl, hq⟩
    · cases heq
    · exact absurd List.mem_cons_self hleaf
    · exact ⟨q, ⟨a, hq, List.not_mem_of_not_mem_cons hleaf, rfl⟩, rfl⟩
  · rintro ⟨q, ⟨a, hq, hleaf, rfl⟩, rfl⟩
    exact ⟨a, hq, by simpa using hleaf, rfl⟩

/-- **The names that occur unbound** are those of the leaves that no abstraction around them binds. -/
theorem mem_freeNames_iff_leaf : x ∈ m.freeNames ↔ ∃ p, m.FreeLeafAt x p := by
  induction m with
  | var a =>
    simp only [freeNames, List.mem_singleton, FreeLeafAt, leafAt_var, binderOf?, and_true,
      exists_eq_left]
    exact eq_comm
  | app t f y ihf ihy =>
    simp only [freeNames, List.mem_append, ihf, ihy, FreeLeafAt, leafAt_app, or_and_right, exists_or,
      exists_exists_and_eq_and, binderOf?, Option.map_eq_none_iff]
  | abs t b body ih =>
    -- a leaf that is free in the body is bound here exactly if it has the name of the binder
    simp only [freeNames, List.mem_filter, decide_eq_true_eq, ih, FreeLeafAt, leafAt_abs,
      exists_exists_and_eq_and, binderOf?_body_eq_none, ← and_assoc, exists_and_right, ne_comm]

/-- **The names that occur anywhere** are those of binders and of leaves. -/
theorem mem_allNames_iff_leaf : x ∈ m.allNames ↔ x ∈ m.binderNames ∨ ∃ p, m.LeafAt x p := by
  induction m with
  | var a =>
    simp only [allNames, binderNames, List.mem_singleton, List.not_mem_nil, false_or, leafAt_var,
      exists_eq_left]
    exact eq_comm
  | app t f y ihf ihy =>
    have hleaves : (∃ p, (app t f y).LeafAt x p) ↔
        (∃ p, f.LeafAt x p) ∨ ∃ p, y.LeafAt x p := by
      simp only [leafAt_app, exists_or, @exists_comm Path, exists_and_left, exists_eq', and_true]
    rw [hleaves, allNames, binderNames, List.mem_append, List.mem_append, ihf, ihy]
    exact or_or_or_comm
  | abs t b body ih =>
    have hleaves : (∃ p, (abs t b body).LeafAt x p) ↔ ∃ p, body.LeafAt x p := by
      simp only [leafAt_abs, @exists_comm Path, exists_and_left, exists_eq', and_true]
    rw [hleaves, allNames, binderNames, List.mem_cons, List.mem_cons, ih, or_assoc]

/-- A leaf is bound or not. -/
theorem mem_allNames_iff :
    x ∈ m.allNames ↔ x ∈ m.freeNames ∨ x ∈ m.binderNames ∨ ∃ p, m.BoundLeafAt x p := by
  rw [mem_allNames_iff_leaf, mem_freeNames_iff_leaf]
  constructor
  · rintro (hx | ⟨p, hp⟩)
    · exact .inr (.inl hx)
    · by_cases hfree : m.binderOf? x p = none
      · exact .inl ⟨p, hp, hfree⟩
      · exact .inr (.inr ⟨p, hp, hfree⟩)
  · rintro (⟨p, hp, -⟩ | hx | ⟨p, hp, -⟩)
    · exact .inr ⟨p, hp⟩
    · exact .inl hx
    · exact .inr ⟨p, hp⟩

/-! ## Agreement -/

variable [DecidableEq ι]

/-- **The names of a term agree.** A name is said to occur unbound exactly if it is in the set of the
names that do, exactly if it is a free leaf of the nameless form, and exactly if some leaf has it that
no abstraction around it binds. Terms that are alike have one such set. The set of all names has these
names and those of binders and of bound leaves. And both sets list what the rows of names show. -/
theorem names_agree (m : Term ι) :
    (∀ x, (m.hasFree x = true ↔ x ∈ m.freeNameSet) ∧
      (x ∈ m.freeNameSet ↔ x ∈ m.nameless.freeNames) ∧
      (x ∈ m.freeNameSet ↔ ∃ p, m.FreeLeafAt x p)) ∧
    (∀ n : Term ι, m.alike n = true → m.freeNameSet = n.freeNameSet) ∧
    (∀ x, x ∈ m.nameSet ↔
      x ∈ m.freeNameSet ∨ x ∈ m.binderNames ∨ ∃ p, m.BoundLeafAt x p) ∧
    m.freeNameSet.toList = Name.sorted m.freeNames ∧ m.nameSet.toList = Name.sorted m.allNames := by
  refine ⟨fun x => ⟨?_, ?_, ?_⟩, fun n h => ?_, fun x => ?_, m.toList_freeNameSet, m.toList_nameSet⟩
  · rw [hasFree_iff, mem_freeNameSet]
  · rw [mem_freeNameSet, mem_freeNames_nameless]
  · rw [mem_freeNameSet, mem_freeNames_iff_leaf]
  · rw [freeNameSet_eq, freeNameSet_eq, alike_iff.1 h]
  · rw [mem_nameSet, mem_freeNameSet, mem_allNames_iff]

/-- In `(λx. (λx. x y) x) x` the name `x` is bound twice and free beside that. -/
theorem names_agree_shadowed :
    let x : PlainTerm := named "x"
    let m := call (lambda "x" (call (lambda "x" (call x (named "y"))) x)) x
    let n := call (lambda "u" (call (lambda "v" (call (named "v") (named "y"))) (named "u"))) x
    m.alike n = true ∧ m.freeNameSet = n.freeNameSet ∧ m.freeNameSet.toList = ["x", "y"] ∧
      n.nameSet.toList = ["u", "v", "x", "y"] := by
  intro x m n
  have halike : m.alike n = true := by decide
  obtain ⟨-, hsets, -⟩ := names_agree m
  exact ⟨halike, hsets n halike, by decide +kernel, by decide +kernel⟩

end Term

end ProofKernel
