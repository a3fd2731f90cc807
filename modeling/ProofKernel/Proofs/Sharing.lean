import Mathlib.Logic.Function.Basic
import ProofKernel.Proofs.Copies
import ProofKernel.Term.Locate

/-!
# What a substitution leaves alone

A substitution gives back nodes of its target wherever it can. What becomes of a part is decided by
what becomes of the names that are free in it: under the binders around the part a name stays, is
replaced, or gets a new binder.

* `Term.locate_app`, `Term.locate_abs`: where the parts of a term are;
* `Term.binderOf?`: the abstraction that binds a name around a part of a term;
* `Fates`, `Rebuilt`: what becomes of the free names of a term, and a draft in which it has happened;
* `Rebuilt.relabel`, `Substitution.draft?_drafts`: renaming a binder carries a draft from one to the
  other, and the draft of a substitution is one in which names are replaced;
* `Substitution.Shares`: the parts of the target that come back as the very same nodes, where the
  nodes put in stand, and which binders are renamed;
* `Substitution.apply_shares`: both ways to substitute share their results with the target.
-/

namespace ProofKernel

/-! ## Parts at paths -/

namespace Term

variable {ι : Type} {x : Name} {t : ι} {f y body m n : Term ι} {a b : Atom ι} {p q : Path}

/-- Only the term itself is at a path into a leaf. -/
theorem locate_var (h : (Term.var a).locate p = .ok n) : p = [] ∧ n = .var a := by
  cases p with
  | nil => cases h; exact ⟨rfl, rfl⟩
  | cons segment p => cases segment <;> cases h

theorem locate_app (h : (Term.app t f y).locate p = .ok n) :
    (p = [] ∧ n = .app t f y) ∨ (∃ q, p = .fn :: q ∧ f.locate q = .ok n) ∨
      ∃ q, p = .arg :: q ∧ y.locate q = .ok n := by
  cases p with
  | nil => cases h; exact .inl ⟨rfl, rfl⟩
  | cons segment p =>
    cases segment with
    | fn => exact .inr (.inl ⟨p, rfl, h⟩)
    | arg => exact .inr (.inr ⟨p, rfl, h⟩)
    | bound => cases h
    | body => cases h

theorem locate_abs (h : (Term.abs t b body).locate p = .ok n) :
    (p = [] ∧ n = .abs t b body) ∨ (p = [.bound] ∧ n = .var b) ∨
      ∃ q, p = .body :: q ∧ body.locate q = .ok n := by
  cases p with
  | nil => cases h; exact .inl ⟨rfl, rfl⟩
  | cons segment p =>
    cases segment with
    | fn => cases h
    | arg => cases h
    | bound =>
      obtain ⟨rfl, rfl⟩ := locate_var (a := b) h
      exact .inr (.inl ⟨rfl, rfl⟩)
    | body => exact .inr (.inr ⟨p, rfl, h⟩)

theorem locate_append (h : m.locate p = .ok n) (q : Path) : m.locate (p ++ q) = n.locate q := by
  induction m generalizing p with
  | var a =>
    obtain ⟨rfl, rfl⟩ := locate_var h
    rfl
  | app t f y ihf ihy =>
    rcases locate_app h with ⟨rfl, rfl⟩ | ⟨p, rfl, hp⟩ | ⟨p, rfl, hp⟩
    · rfl
    · exact ihf hp
    · exact ihy hp
  | abs t b body ih =>
    rcases locate_abs h with ⟨rfl, rfl⟩ | ⟨rfl, rfl⟩ | ⟨p, rfl, hp⟩
    · rfl
    · rfl
    · exact ih hp

/-- The path to the innermost abstraction that binds a name around the part at a path, or whose
binder is that part. -/
def binderOf? (x : Name) : Term ι → Path → Option Path
  | .app _ f _, .fn :: p => (f.binderOf? x p).map (.fn :: ·)
  | .app _ _ y, .arg :: p => (y.binderOf? x p).map (.arg :: ·)
  | .abs _ b _, .bound :: _ => if b.name = x then some [] else none
  | .abs _ b body, .body :: p =>
    ((body.binderOf? x p).map (.body :: ·)).or (if b.name = x then some [] else none)
  | _, _ => none

theorem binderOf?_body_eq_none :
    (Term.abs t b body).binderOf? x (.body :: p) = none ↔
      body.binderOf? x p = none ∧ b.name ≠ x := by
  rw [binderOf?, Option.or_eq_none_iff, Option.map_eq_none_iff]
  by_cases hb : b.name = x <;> simp [hb]

/-- The name of a binder has one around it: the abstraction itself. -/
theorem binderOf?_bound (h : m.locate p = .ok (.abs t b body)) :
    m.binderOf? b.name (p ++ [.bound]) = some p := by
  induction m generalizing p with
  | var a => exact nomatch (locate_var h).2
  | app t' f y ihf ihy =>
    rcases locate_app h with ⟨-, heq⟩ | ⟨q, rfl, hq⟩ | ⟨q, rfl, hq⟩
    · cases heq
    · exact congrArg (Option.map _) (ihf hq)
    · exact congrArg (Option.map _) (ihy hq)
  | abs t' c body' ih =>
    rcases locate_abs h with ⟨rfl, heq⟩ | ⟨-, heq⟩ | ⟨q, rfl, hq⟩
    · cases heq
      exact if_pos rfl
    · cases heq
    · rw [List.cons_append, binderOf?, ih hq]
      rfl

/-- A leaf in an abstraction that no abstraction binds is in the body and has another name than the
binder. -/
theorem locate_abs_of_free (h : (Term.abs t b body).locate p = .ok (.var a))
    (hfree : (Term.abs t b body).binderOf? a.name p = none) :
    ∃ q, p = .body :: q ∧ body.locate q = .ok (.var a) ∧ body.binderOf? a.name q = none ∧
      a.name ≠ b.name := by
  rcases locate_abs h with ⟨-, heq⟩ | ⟨rfl, heq⟩ | ⟨q, rfl, hq⟩
  · cases heq
  · cases heq
    simp [binderOf?] at hfree
  · obtain ⟨hfree, hne⟩ := binderOf?_body_eq_none.1 hfree
    exact ⟨q, rfl, hq, hfree, Ne.symm hne⟩

/-- A name that is free in a part and not bound around it is free in the term. -/
theorem mem_freeNames_of_locate (h : m.locate p = .ok n) (hx : x ∈ n.freeNames)
    (hfree : m.binderOf? x p = none) : x ∈ m.freeNames := by
  induction m generalizing p with
  | var a =>
    obtain ⟨-, rfl⟩ := locate_var h
    exact hx
  | app t f y ihf ihy =>
    rcases locate_app h with ⟨-, rfl⟩ | ⟨q, rfl, hq⟩ | ⟨q, rfl, hq⟩
    · exact hx
    · exact List.mem_append_left _ (ihf hq (Option.map_eq_none_iff.1 hfree))
    · exact List.mem_append_right _ (ihy hq (Option.map_eq_none_iff.1 hfree))
  | abs t b body ih =>
    rcases locate_abs h with ⟨-, rfl⟩ | ⟨rfl, rfl⟩ | ⟨q, rfl, hq⟩
    · exact hx
    · have hx : x = b.name := List.mem_singleton.1 hx
      simp [binderOf?, hx] at hfree
    · obtain ⟨hfree, hne⟩ := binderOf?_body_eq_none.1 hfree
      exact List.mem_filter.2 ⟨ih hq hfree, by simpa using Ne.symm hne⟩

end Term

/-- The binder of the abstraction at a path has another name in another term. -/
def Node.Renamed (m r : Node) (q : Path) : Prop :=
  ∃ t b body t' b' body', m.locate q = .ok (.abs t b body) ∧ r.locate q = .ok (.abs t' b' body') ∧
    b'.name ≠ b.name

/-! ## What becomes of names -/

/-- What becomes of the free occurrences of a name. -/
inductive Fate where
  /-- They stay. -/
  | stays
  /-- A node is put in for them. -/
  | slot (n : Node)
  /-- They get a new binder. -/
  | new (z : Atom Nat)

/-- What becomes of each name. -/
abbrev Fates := Name → Fate

namespace Fates

variable (E : Fates) (b : Name) (z : Atom Nat) {x : Name} {n : Node}

/-- A name that would have stayed gets a new binder. -/
def relabel : Fates := fun x =>
  match E x with
  | .stays => if x = b then .new z else .stays
  | fate => fate

variable {E b z}

theorem relabel_of_ne (h : x ≠ b) : E.relabel b z x = E x := by
  unfold relabel
  cases E x with
  | stays => exact if_neg h
  | slot n => rfl
  | new z => rfl

theorem relabel_of_changed (h : E x ≠ .stays) : E.relabel b z x = E x := by
  unfold relabel
  cases hx : E x with
  | stays => exact absurd hx h
  | slot n => rfl
  | new z => rfl

theorem relabel_self (h : E b = .stays) : E.relabel b z b = .new z := by
  unfold relabel
  rw [h]
  exact if_pos rfl

theorem relabel_eq_slot : E.relabel b z x = .slot n ↔ E x = .slot n := by
  by_cases h : E x = .stays
  · unfold relabel
    rw [h]
    by_cases hx : x = b <;> simp [hx]
  · rw [relabel_of_changed h]

/-- Under a binder of the name nothing is renamed. -/
theorem relabel_update_self (fate : Fate) :
    Function.update (E.relabel b z) b fate = Function.update E b fate := by
  funext x
  by_cases h : x = b
  · subst h; simp
  · rw [Function.update_of_ne h, Function.update_of_ne h, relabel_of_ne h]

/-- Under any other binder the name is renamed all the same. -/
theorem relabel_update_of_ne {c : Name} (fate : Fate) (h : c ≠ b ∨ fate ≠ .stays) :
    relabel (Function.update E c fate) b z = Function.update (E.relabel b z) c fate := by
  funext x
  by_cases hx : x = c
  · subst hx
    rcases h with h | h
    · rw [relabel_of_ne h, Function.update_self, Function.update_self]
    · have hx : Function.update E x fate x ≠ .stays := by rwa [Function.update_self]
      rw [relabel_of_changed hx, Function.update_self, Function.update_self]
  · unfold relabel
    rw [Function.update_of_ne hx, Function.update_of_ne hx]

end Fates

/-! ## Drafts in which it has happened -/

/-- All free names of a term stay. -/
def Untouched (E : Fates) (m : Node) : Prop := ∀ x ∈ m.freeNames, E x = .stays

/-- **A draft in which the fates of the free names have happened**: only parts in which all names
stay are kept. A binder gets a new name, none of the given ones, exactly if it is among the captured
names and a node is put in under it. -/
inductive Rebuilt (captured N : List Name) : Fates → Node → Draft → Prop
  | keep {E : Fates} {m : Node} (h : Untouched E m) : Rebuilt captured N E m (.keep m)
  | slot {E : Fates} {a : Atom Nat} {n : Node} (h : E a.name = .slot n) :
      Rebuilt captured N E (.var a) (.slot n)
  | new {E : Fates} {a z : Atom Nat} (h : E a.name = .new z) :
      Rebuilt captured N E (.var a) (.keep (.var z))
  | app {E : Fates} {t : Nat} {f x : Node} {df dx : Draft} (h : ¬ Untouched E (.app t f x))
      (hf : Rebuilt captured N E f df) (hx : Rebuilt captured N E x dx) :
      Rebuilt captured N E (.app t f x) (.app df dx)
  | abs {E : Fates} {t : Nat} {b : Atom Nat} {body : Node} {d : Draft}
      (h : ¬ Untouched E (.abs t b body))
      (hcalm : b.name ∈ captured → ∀ x ∈ (Term.abs t b body).freeNames, ∀ n, E x ≠ .slot n)
      (hbody : Rebuilt captured N (Function.update E b.name .stays) body d) :
      Rebuilt captured N E (.abs t b body) (.abs b d)
  | absNew {E : Fates} {t : Nat} {b z : Atom Nat} {body : Node} {d : Draft}
      (hcap : b.name ∈ captured)
      (hhit : ∃ x ∈ (Term.abs t b body).freeNames, ∃ n, E x = .slot n) (hz : z.name ∉ N)
      (hb : b.name ∈ N) (hbody : Rebuilt captured N (Function.update E b.name (.new z)) body d) :
      Rebuilt captured N E (.abs t b body) (.abs z d)

/-- A draft that is made, or else the term is kept: in the draft the fates have happened, and the
term is kept exactly if all its free names stay. -/
structure Drafts (captured N : List Name) (E : Fates) (m : Node) (d? : Option Draft) : Prop where
  rebuilt : Rebuilt captured N E m (d?.getD (.keep m))
  none_iff : d? = none ↔ Untouched E m

section Drafts

variable {captured N : List Name} {E : Fates} {t : Nat} {f x m body : Node} {a b z : Atom Nat}
  {df? dx? d? : Option Draft}

theorem untouched_app : Untouched E (.app t f x) ↔ Untouched E f ∧ Untouched E x :=
  List.forall_mem_append

theorem untouched_abs :
    Untouched E (.abs t b body) ↔ Untouched (Function.update E b.name .stays) body := by
  constructor
  · intro h y hy
    by_cases hyb : y = b.name
    · rw [hyb, Function.update_self]
    · rw [Function.update_of_ne hyb]
      exact h y (List.mem_filter.2 ⟨hy, by simpa using hyb⟩)
  · intro h y hy
    obtain ⟨hy, hyb⟩ := List.mem_filter.1 hy
    have hyb : y ≠ b.name := by simpa using hyb
    have := h y hy
    rwa [Function.update_of_ne hyb] at this

theorem Drafts.kept (h : Untouched E m) : Drafts captured N E m none :=
  ⟨.keep h, iff_of_true rfl h⟩

theorem Drafts.changed {d : Draft} (h : Rebuilt captured N E m d) (hm : ¬ Untouched E m) :
    Drafts captured N E m (some d) :=
  ⟨h, iff_of_false (fun e => nomatch e) hm⟩

theorem Drafts.app (hf : Drafts captured N E f df?) (hx : Drafts captured N E x dx?) :
    Drafts captured N E (.app t f x) (Draft.call? f x df? dx?) := by
  by_cases h : Untouched E (.app t f x)
  · obtain ⟨huf, hux⟩ := untouched_app.1 h
    rw [hf.none_iff.2 huf, hx.none_iff.2 hux]
    exact .kept h
  · rw [Draft.call?_eq_some fun hnone =>
      h (untouched_app.2 ⟨hf.none_iff.1 hnone.1, hx.none_iff.1 hnone.2⟩)]
    exact .changed (.app h hf.rebuilt hx.rebuilt) h

theorem Drafts.abs
    (hcalm : b.name ∈ captured → ∀ x ∈ (Term.abs t b body).freeNames, ∀ n, E x ≠ .slot n)
    (h : Drafts captured N (Function.update E b.name .stays) body d?) :
    Drafts captured N E (.abs t b body) (d?.map (.abs b)) := by
  cases d? with
  | none => exact .kept (untouched_abs.2 (h.none_iff.1 rfl))
  | some d =>
    have hm : ¬ Untouched E (.abs t b body) :=
      fun hu => nomatch h.none_iff.2 (untouched_abs.1 hu)
    exact .changed (.abs hm hcalm h.rebuilt) hm

end Drafts

/-! ## Renaming a binder -/

section Relabel

variable {captured N : List Name} {E : Fates} {b : Name} {z : Atom Nat} {m : Node} {d : Draft}

theorem Untouched.relabel (h : Untouched E m) (hb : b ∉ m.freeNames) :
    Untouched (E.relabel b z) m := by
  intro x hx
  have hxb : x ≠ b := by
    rintro rfl
    exact hb hx
  rw [Fates.relabel_of_ne hxb]
  exact h x hx

theorem not_untouched_relabel (h : ¬ Untouched E m) : ¬ Untouched (E.relabel b z) m := by
  intro hall
  refine h fun x hx => ?_
  by_contra hne
  have := hall x hx
  rw [Fates.relabel_of_changed hne] at this
  exact hne this

/-- In a part that is kept the name gets its new binder. -/
theorem Untouched.relabel_drafts (h : Untouched E m) :
    Drafts captured N (E.relabel b z) m (m.relabel? b z) := by
  induction m generalizing E with
  | var a =>
    have ha : E a.name = .stays := h a.name List.mem_cons_self
    rw [Node.relabel?]
    split
    next hb =>
      have hnew : E.relabel b z a.name = .new z := by rw [hb] at ha ⊢; exact Fates.relabel_self ha
      refine .changed (.new hnew) fun hu => ?_
      have := hu a.name List.mem_cons_self
      rw [hnew] at this
      cases this
    next hb => exact .kept (h.relabel (by simpa [Term.freeNames] using Ne.symm hb))
  | app t f x ihf ihx =>
    obtain ⟨hf, hx⟩ := untouched_app.1 h
    exact .app (ihf hf) (ihx hx)
  | abs t c body ih =>
    rw [Node.relabel?]
    split
    next hc => exact .kept (h.relabel (by simp [Term.freeNames, hc]))
    next hc =>
      refine .abs (fun _ x hx n => ?_) ?_
      · rw [Ne, Fates.relabel_eq_slot, h x hx]
        exact Fate.noConfusion
      · rw [← Fates.relabel_update_of_ne .stays (.inl hc)]
        exact ih (untouched_abs.1 h)

/-- **Renaming in a draft**: a name that stays gets its new binder, by induction on what has happened
in the draft. New binders have other names, and nodes that are put in are left alone. -/
theorem Rebuilt.relabel (h : Rebuilt captured N E m d) (hb : b ∈ N)
    (hE : ∀ x z', E x = .new z' → z'.name ≠ b) :
    Rebuilt captured N (E.relabel b z) m (d.relabel b z) := by
  induction h with
  | keep h => exact h.relabel_drafts.rebuilt
  | slot h => exact .slot (Fates.relabel_eq_slot.2 h)
  | @new E a z' h =>
    have hkeep : Draft.relabel b z (.keep (.var z')) = .keep (.var z') := by
      rw [Draft.relabel, Node.relabel?, if_neg (hE a.name z' h)]
      rfl
    rw [hkeep]
    refine .new ?_
    rw [Fates.relabel_of_changed (by rw [h]; exact Fate.noConfusion), h]
  | app h hf hx ihf ihx => exact .app (not_untouched_relabel h) (ihf hE) (ihx hE)
  | @abs E t c body d h hcalm hbody ih =>
    have hcalm : c.name ∈ captured → ∀ x ∈ (Term.abs t c body).freeNames, ∀ n,
        E.relabel b z x ≠ .slot n := by
      intro hcap x hx n
      rw [Ne, Fates.relabel_eq_slot]
      exact hcalm hcap x hx n
    rw [Draft.relabel]
    split
    next hc =>
      subst hc
      exact .abs (not_untouched_relabel h) hcalm (by rwa [Fates.relabel_update_self])
    next hc =>
      refine .abs (not_untouched_relabel h) hcalm ?_
      rw [← Fates.relabel_update_of_ne .stays (.inl hc)]
      refine ih fun x z' hx => ?_
      by_cases hxc : x = c.name
      · rw [hxc, Function.update_self] at hx
        cases hx
      · rw [Function.update_of_ne hxc] at hx
        exact hE x z' hx
  | @absNew E t c z' body d hcap hhit hz hc hbody ih =>
    have hne : z'.name ≠ b := by
      rintro rfl
      exact hz hb
    rw [Draft.relabel, if_neg hne]
    refine .absNew hcap ?_ hz hc ?_
    · obtain ⟨x, hx, n, hn⟩ := hhit
      exact ⟨x, hx, n, Fates.relabel_eq_slot.2 hn⟩
    · rw [← Fates.relabel_update_of_ne (.new z') (.inr Fate.noConfusion)]
      refine ih fun x z'' hx => ?_
      by_cases hxc : x = c.name
      · rw [hxc, Function.update_self] at hx
        cases hx
        exact hne
      · rw [Function.update_of_ne hxc] at hx
        exact hE x z'' hx

end Relabel

/-! ## The draft of a substitution -/

namespace Substitution

/-- What a substitution does to names. -/
def fates (σ : Substitution) : Fates := fun x => (Scope.lookup? σ x).elim .stays .slot

section Draft

variable {N : List Name} {σ : Substitution} {m : Node} {s : Naming} {x : Name} {n : Node}

theorem fates_eq_stays : σ.fates x = .stays ↔ Scope.lookup? σ x = none := by
  unfold fates
  cases Scope.lookup? σ x <;> simp

theorem fates_eq_slot : σ.fates x = .slot n ↔ Scope.lookup? σ x = some n := by
  unfold fates
  cases Scope.lookup? σ x <;> simp

theorem fates_ne_new {z : Atom Nat} : σ.fates x ≠ .new z := by
  unfold fates
  cases Scope.lookup? σ x <;> simp

theorem exists_slot_of_touched (h : ¬ Untouched σ.fates m) :
    ∃ x ∈ m.freeNames, ∃ n, σ.fates x = .slot n := by
  by_contra hnone
  refine h fun x hx => ?_
  cases hfate : σ.fates x with
  | stays => rfl
  | slot n => exact absurd ⟨x, hx, n, hfate⟩ hnone
  | new z => exact absurd hfate fates_ne_new

/-- Under a binder its name is not replaced. -/
theorem fates_filter (σ : Substitution) (b : Name) :
    fates (σ.filter fun entry => entry.1 ≠ b) = Function.update σ.fates b .stays := by
  funext x
  by_cases hx : x = b
  · rw [hx, Function.update_self, fates_eq_stays, Scope.lookup?_eq_none_iff]
    intro hmem
    obtain ⟨entry, hentry, heq⟩ := List.mem_map.1 hmem
    have := (List.mem_filter.1 hentry).2
    simp [heq] at this
  · rw [Function.update_of_ne hx, fates, Scope.lookup?_filter_ne σ hx, fates]

/-- **In the draft of a substitution names are replaced**, by induction on the term: a binder is
renamed after its body has been drafted, to a name that was not in use. If nothing is replaced, no
name is drawn. -/
theorem draft?_drafts (captured : List Name) (hm : m.allNames ⊆ N) (hs : N ⊆ s.used) :
    Drafts captured N σ.fates m (draft? captured m σ s).1 ∧ N ⊆ (draft? captured m σ s).2.used ∧
      ((draft? captured m σ s).1 = none → (draft? captured m σ s).2 = s) := by
  induction m generalizing σ s with
  | var a =>
    refine ⟨?_, hs, fun _ => rfl⟩
    show Drafts captured N σ.fates (.var a) ((Scope.lookup? σ a.name).map .slot)
    cases hget : Scope.lookup? σ a.name with
    | none =>
      refine .kept fun x hx => ?_
      rw [List.mem_singleton.1 hx]
      exact fates_eq_stays.2 hget
    | some n =>
      have hslot := fates_eq_slot.2 hget
      refine .changed (.slot hslot) fun hu => ?_
      rw [hu a.name List.mem_cons_self] at hslot
      cases hslot
  | app t f x ihf ihx =>
    obtain ⟨hmf, hmx⟩ := List.append_subset.1 hm
    obtain ⟨hf, hsf, hkf⟩ := ihf (σ := σ) hmf hs
    obtain ⟨hx, hsx, hkx⟩ := ihx (σ := σ) hmx hsf
    rw [draft?_app]
    refine ⟨hf.app hx, hsx, fun hnone => ?_⟩
    obtain ⟨huf, hux⟩ := untouched_app.1 ((hf.app (t := t) hx).none_iff.1 hnone)
    simp only
    rw [hkx (hx.none_iff.2 hux), hkf (hf.none_iff.2 huf)]
  | abs t b body ih =>
    obtain ⟨hb, hbody⟩ := List.cons_subset.1 hm
    obtain ⟨hd, hs', hk⟩ := ih (σ := σ.filter fun entry => entry.1 ≠ b.name) hbody hs
    rw [fates_filter] at hd
    rw [draft?_abs]
    rcases hrun : draft? captured body (σ.filter fun entry => entry.1 ≠ b.name) s with ⟨_ | d, s'⟩
    · rw [hrun] at hd hs' hk
      exact ⟨.kept (untouched_abs.2 (hd.none_iff.1 rfl)), hs', hk⟩
    · rw [hrun] at hd hs'
      have htouched : ¬ Untouched σ.fates (.abs t b body) :=
        fun hu => nomatch hd.none_iff.2 (untouched_abs.1 hu)
      simp only
      split
      next hcap =>
        have hfresh : (freshAtom b.name s').1.name ∉ N :=
          fun hmem => s'.names.fresh_not_mem b.name s'.used (hs' hmem)
        refine ⟨.changed (.absNew (by simpa using hcap) (exists_slot_of_touched htouched) hfresh hb
          ?_) htouched, fun x hx => List.mem_cons_of_mem _ (hs' hx), fun h => nomatch h⟩
        have hrelabel := hd.rebuilt.relabel (b := b.name) (z := (freshAtom b.name s').1) hb
          fun x z' hx => by
            by_cases hxb : x = b.name
            · rw [hxb, Function.update_self] at hx
              cases hx
            · rw [Function.update_of_ne hxb] at hx
              exact absurd hx fates_ne_new
        -- the binder's own name stayed under it, so that all of it is renamed
        have hfates : Fates.relabel (Function.update σ.fates b.name .stays) b.name
            (freshAtom b.name s').1 =
              Function.update σ.fates b.name (.new (freshAtom b.name s').1) := by
          funext x
          by_cases hx : x = b.name
          · rw [hx, Function.update_self, Fates.relabel_self (Function.update_self ..)]
          · rw [Fates.relabel_of_ne hx, Function.update_of_ne hx, Function.update_of_ne hx]
        rwa [hfates] at hrelabel
      next hcap =>
        refine ⟨.changed (.abs htouched (fun hmem => ?_) hd.rebuilt) htouched, hs',
          fun h => nomatch h⟩
        exact absurd (by simpa using hmem) hcap

end Draft

end Substitution

/-! ## Where the parts are -/

section Paths

variable {captured N : List Name} {E : Fates} {lo : Nat} {m n r f x f' x' body body' : Node}
  {d : Draft} {p q : Path} {t t' : Nat} {b b' : Atom Nat} {y : Name}

theorem Draft.Makes.keep_eq (h : (Draft.keep m).Makes lo r) (hm : m.Within lo) : r = m := by
  cases h with
  | keep => rfl
  | leaf h => exact absurd h.tag (Nat.not_le_of_lt hm)

/-- The new binder has another name than the one in its place. -/
theorem name_ne_of_new {z z' : Atom Nat} (hz' : z' = z ∨ z.Renewed lo z') (hz : z.name ∉ N)
    (hb : b.name ∈ N) : z'.name ≠ b.name := by
  have hname : z'.name = z.name := by
    rcases hz' with rfl | hz'
    · rfl
    · exact hz'.name
  rw [hname]
  exact fun heq => hz (heq ▸ hb)

/-- A name at a path does not stay: it is free and has another fate, or its binder is renamed. -/
def Disturbed (E : Fates) (m r : Node) (p : Path) (y : Name) : Prop :=
  match m.binderOf? y p with
  | none => E y ≠ .stays
  | some q => m.Renamed r q

theorem disturbed_fn :
    Disturbed E (.app t f x) (.app t' f' x') (.fn :: p) y ↔ Disturbed E f f' p y := by
  unfold Disturbed
  rw [Term.binderOf?]
  cases f.binderOf? y p <;> exact Iff.rfl

theorem disturbed_arg :
    Disturbed E (.app t f x) (.app t' f' x') (.arg :: p) y ↔ Disturbed E x x' p y := by
  unfold Disturbed
  rw [Term.binderOf?]
  cases x.binderOf? y p <;> exact Iff.rfl

theorem not_renamed_self : ¬ m.Renamed m q := by
  rintro ⟨_, _, _, _, _, _, hm, hm', hne⟩
  rw [hm] at hm'
  cases hm'
  exact hne rfl

theorem renamed_nil :
    Node.Renamed (.abs t b body) (.abs t' b' body') [] ↔ b'.name ≠ b.name := by
  constructor
  · rintro ⟨_, _, _, _, _, _, hm, hr, hne⟩
    cases hm
    cases hr
    exact hne
  · exact fun hne => ⟨t, b, body, t', b', body', rfl, rfl, hne⟩

theorem renamed_body :
    Node.Renamed (.abs t b body) (.abs t' b' body') (.body :: q) ↔ body.Renamed body' q := Iff.rfl

/-- Under a binder its own name stays exactly if the binder keeps its name. -/
theorem disturbed_body (fate : Fate) (hfate : fate = .stays ↔ b'.name = b.name) :
    Disturbed E (.abs t b body) (.abs t' b' body') (.body :: p) y ↔
      Disturbed (Function.update E b.name fate) body body' p y := by
  unfold Disturbed
  rw [Term.binderOf?]
  cases body.binderOf? y p with
  | some q => exact Iff.rfl
  | none =>
    by_cases hb : b.name = y
    · subst hb
      simp only [Option.map_none, Option.none_or, if_true, Function.update_self, ne_eq, hfate,
        renamed_nil]
    · simp only [Option.map_none, Option.none_or, if_neg hb, Function.update_of_ne (Ne.symm hb)]

/-- Under a binder a name is replaced if it is another one and is replaced around the binder. -/
theorem slot_under_iff (fate : Fate) (hfate : ∀ n, fate ≠ .slot n) :
    (body.binderOf? y p = none ∧ ∃ n, Function.update E b.name fate y = .slot n) ↔
      (Term.abs t b body).binderOf? y (.body :: p) = none ∧ ∃ n, E y = .slot n := by
  rw [Term.binderOf?_body_eq_none]
  by_cases hb : b.name = y
  · subst hb
    simp [hfate]
  · simp [hb, Function.update_of_ne (Ne.symm hb)]

/-- **A part whose free names all stay is the very same node**, by induction on what has happened:
each binder around the part either keeps its name, or the name is not free in the part. -/
theorem Rebuilt.locate_kept (h : Rebuilt captured N E m d) (hr : d.Makes lo r) (hm : m.Within lo)
    (hp : m.locate p = .ok n) (hn : ∀ y ∈ n.freeNames, ¬ Disturbed E m r p y) :
    r.locate p = .ok n := by
  induction h generalizing r p with
  | keep h =>
    rw [hr.keep_eq hm]
    exact hp
  | @slot E a n' h =>
    obtain ⟨rfl, rfl⟩ := Term.locate_var hp
    have hstays : E a.name = .stays := not_not.1 (hn a.name List.mem_cons_self)
    rw [h] at hstays
    cases hstays
  | @new E a z h =>
    obtain ⟨rfl, rfl⟩ := Term.locate_var hp
    have hstays : E a.name = .stays := not_not.1 (hn a.name List.mem_cons_self)
    rw [h] at hstays
    cases hstays
  | @app E t f x df dx h hf hx ihf ihx =>
    cases hr with
    | @app _ _ f' x' t' hrf hrx =>
      rcases Term.locate_app hp with ⟨rfl, rfl⟩ | ⟨q, rfl, hq⟩ | ⟨q, rfl, hq⟩
      · exact absurd (fun y hy => not_not.1 (hn y hy)) h
      · show f'.locate q = .ok n
        exact ihf hrf hm.2.1 hq fun y hy => mt disturbed_fn.2 (hn y hy)
      · show x'.locate q = .ok n
        exact ihx hrx hm.2.2 hq fun y hy => mt disturbed_arg.2 (hn y hy)
  | @abs E t b body d h hcalm hbody ih =>
    cases hr with
    | @abs _ b' _ body' t' hb hrd =>
      have hb : b' = b := hb.resolve_right fun hb => Nat.not_le_of_lt hm.2.1 hb.tag
      subst hb
      rcases Term.locate_abs hp with ⟨rfl, rfl⟩ | ⟨rfl, rfl⟩ | ⟨q, rfl, hq⟩
      · exact absurd (fun y hy => not_not.1 (hn y hy)) h
      · rfl
      · show body'.locate q = .ok n
        refine ih hrd hm.2.2 hq fun y hy => mt ?_ (hn y hy)
        exact (disturbed_body _ (iff_of_true rfl rfl)).2
  | @absNew E t b z body d hcap hhit hz hb hbody ih =>
    cases hr with
    | @abs _ z' _ body' t' hz' hrd =>
      have hne := name_ne_of_new hz' hz hb
      rcases Term.locate_abs hp with ⟨rfl, rfl⟩ | ⟨rfl, rfl⟩ | ⟨q, rfl, hq⟩
      · obtain ⟨y, hy, n, hslot⟩ := hhit
        have hstays : E y = .stays := not_not.1 (hn y hy)
        rw [hslot] at hstays
        cases hstays
      · refine absurd ?_ (hn b.name List.mem_cons_self)
        unfold Disturbed
        rw [Term.binderOf?, if_pos rfl]
        exact renamed_nil.2 hne
      · show body'.locate q = .ok n
        refine ih hrd hm.2.2 hq fun y hy => mt ?_ (hn y hy)
        exact (disturbed_body _ (iff_of_false Fate.noConfusion hne)).2

/-- **Where a name is replaced stands the node that is put in for it.** -/
theorem Rebuilt.locate_slot {a : Atom Nat} (h : Rebuilt captured N E m d) (hr : d.Makes lo r)
    (hp : m.locate p = .ok (.var a)) (hfree : m.binderOf? a.name p = none)
    (ha : E a.name = .slot n) : r.locate p = .ok n := by
  induction h generalizing r p with
  | keep h =>
    have hstays := h a.name (Term.mem_freeNames_of_locate hp List.mem_cons_self hfree)
    rw [ha] at hstays
    cases hstays
  | @slot E a' n' h =>
    obtain ⟨rfl, hvar⟩ := Term.locate_var hp
    cases hvar
    rw [h] at ha
    cases ha
    cases hr with
    | slot => rfl
  | @new E a' z h =>
    obtain ⟨rfl, hvar⟩ := Term.locate_var hp
    cases hvar
    rw [h] at ha
    cases ha
  | @app E t f x df dx h hf hx ihf ihx =>
    cases hr with
    | @app _ _ f' x' t' hrf hrx =>
      rcases Term.locate_app hp with ⟨-, heq⟩ | ⟨q, rfl, hq⟩ | ⟨q, rfl, hq⟩
      · cases heq
      · show f'.locate q = .ok n
        exact ihf hrf hq (Option.map_eq_none_iff.1 hfree) ha
      · show x'.locate q = .ok n
        exact ihx hrx hq (Option.map_eq_none_iff.1 hfree) ha
  | @abs E t b body d h hcalm hbody ih =>
    cases hr with
    | @abs _ b' _ body' t' hb hrd =>
      obtain ⟨q, rfl, hq, hfree, hne⟩ := Term.locate_abs_of_free hp hfree
      show body'.locate q = .ok n
      exact ih hrd hq hfree (by rwa [Function.update_of_ne hne])
  | @absNew E t b z body d hcap hhit hz hb hbody ih =>
    cases hr with
    | @abs _ z' _ body' t' hz' hrd =>
      obtain ⟨q, rfl, hq, hfree, hne⟩ := Term.locate_abs_of_free hp hfree
      show body'.locate q = .ok n
      exact ih hrd hq hfree (by rwa [Function.update_of_ne hne])

/-- **Which binders are renamed**: those with a captured name around a name that is replaced. -/
theorem Rebuilt.renamed_iff {c : Atom Nat} {part : Node} (h : Rebuilt captured N E m d)
    (hr : d.Makes lo r) (hm : m.Within lo) (hq : m.locate q = .ok (.abs t c part)) :
    m.Renamed r q ↔ c.name ∈ captured ∧ ∃ y ∈ (Term.abs t c part).freeNames,
      m.binderOf? y q = none ∧ ∃ n, E y = .slot n := by
  induction h generalizing r q with
  | @keep E m h =>
    rw [hr.keep_eq hm]
    refine iff_of_false not_renamed_self ?_
    rintro ⟨-, y, hy, hfree, n, hslot⟩
    rw [h y (Term.mem_freeNames_of_locate hq hy hfree)] at hslot
    cases hslot
  | slot h => exact nomatch (Term.locate_var hq).2
  | new h => exact nomatch (Term.locate_var hq).2
  | @app E t f x df dx h hf hx ihf ihx =>
    cases hr with
    | @app _ _ f' x' t' hrf hrx =>
      rcases Term.locate_app hq with ⟨-, heq⟩ | ⟨q, rfl, hq⟩ | ⟨q, rfl, hq⟩
      · cases heq
      · simp only [Term.binderOf?, Option.map_eq_none_iff]
        exact ihf hrf hm.2.1 hq
      · simp only [Term.binderOf?, Option.map_eq_none_iff]
        exact ihx hrx hm.2.2 hq
  | @abs E t b body d h hcalm hbody ih =>
    cases hr with
    | @abs _ b' _ body' t' hb hrd =>
      have hb : b' = b := hb.resolve_right fun hb => Nat.not_le_of_lt hm.2.1 hb.tag
      subst hb
      rcases Term.locate_abs hq with ⟨rfl, heq⟩ | ⟨-, heq⟩ | ⟨q, rfl, hq⟩
      · cases heq
        refine iff_of_false (fun hrenamed => renamed_nil.1 hrenamed rfl) ?_
        rintro ⟨hcap, y, hy, -, n, hslot⟩
        exact hcalm hcap y hy n hslot
      · cases heq
      · rw [renamed_body, ih hrd hm.2.2 hq]
        exact and_congr_right fun _ => exists_congr fun y => and_congr_right fun _ =>
          slot_under_iff .stays fun _ => Fate.noConfusion
  | @absNew E t b z body d hcap hhit hz hb hbody ih =>
    cases hr with
    | @abs _ z' _ body' t' hz' hrd =>
      have hne := name_ne_of_new hz' hz hb
      rcases Term.locate_abs hq with ⟨rfl, heq⟩ | ⟨-, heq⟩ | ⟨q, rfl, hq⟩
      · cases heq
        refine iff_of_true (renamed_nil.2 hne) ⟨hcap, ?_⟩
        obtain ⟨y, hy, hslot⟩ := hhit
        exact ⟨y, hy, rfl, hslot⟩
      · cases heq
      · rw [renamed_body, ih hrd hm.2.2 hq]
        exact and_congr_right fun _ => exists_congr fun y => and_congr_right fun _ =>
          slot_under_iff (.new z) fun _ => Fate.noConfusion

end Paths

/-! ## What is shared -/

namespace Substitution

/-- A substitution has a node for a name, and it is not a leaf of that name. -/
def Replaces (σ : Substitution) (x : Name) (n : Node) : Prop := (x, n) ∈ σ ∧ n.isNamed x = false

/-- A name is free in a node that is put in for another name. -/
def Captures (σ : Substitution) (x : Name) : Prop := ∃ y n, σ.Replaces y n ∧ x ∈ n.freeNames

/-- A name that is free in the part at a path is not left alone: in the whole target it is free and
replaced, or the abstraction that binds it gets a binder of another name. -/
def Touches (σ : Substitution) (target result : Node) (p : Path) (x : Name) : Prop :=
  match target.binderOf? x p with
  | none => ∃ n, σ.Replaces x n
  | some q => target.Renamed result q

/-- **What a substitution shares**, with `r` the result and the name supply after it. Binders that
are inside a part need no mention: they are renamed only around names that are replaced. -/
structure Shares (σ : Substitution) (names : NameSupply) (target : Node) (r : Node × NameSupply) :
    Prop where
  /-- A part without a name that is touched comes back as the very same node. -/
  kept : ∀ p m, target.locate p = .ok m →
    (∀ x ∈ m.freeNames, ¬ σ.Touches target r.1 p x) → r.1.locate p = .ok m
  /-- Where a name is free in the target and is replaced stands the node for it. -/
  placed : ∀ p (a : Atom Nat) n, target.locate p = .ok (.var a) →
    target.binderOf? a.name p = none → σ.Replaces a.name n → r.1.locate p = .ok n
  /-- A binder is renamed if it would capture something and a name is replaced under it. -/
  renamed : ∀ q t (b : Atom Nat) body, target.locate q = .ok (.abs t b body) →
    (target.Renamed r.1 q ↔ σ.Captures b.name ∧ ∃ x ∈ (Term.abs t b body).freeNames,
      target.binderOf? x q = none ∧ ∃ n, σ.Replaces x n)
  /-- Without a name that is replaced the result is the target, and no name is drawn. -/
  untouched : (∀ x ∈ target.freeNames, ∀ n, ¬ σ.Replaces x n) → r = (target, names)

section Shares

variable {σ : Substitution} {names : NameSupply} {target : Node} {nodes : Nat}
  {r : Node × NameSupply} {p : Path} {x : Name} {n : Node}

theorem replaces_iff (hσ : (σ.map Prod.fst).Nodup) :
    σ.Replaces x n ↔ σ.active.fates x = .slot n := by
  have hactive : (σ.active.map Prod.fst).Nodup :=
    hσ.sublist (List.Sublist.map Prod.fst List.filter_sublist)
  have hmem : σ.Replaces x n ↔ (x, n) ∈ σ.active := by
    simp [Replaces, active, isIdle]
  rw [fates_eq_slot, hmem]
  exact ⟨Scope.lookup?_of_mem hactive, Scope.mem_of_lookup?⟩

theorem exists_replaces_iff (hσ : (σ.map Prod.fst).Nodup) :
    (∃ n, σ.Replaces x n) ↔ σ.active.fates x ≠ .stays := by
  simp only [replaces_iff hσ]
  cases hfate : σ.active.fates x with
  | stays => simp
  | slot n => simp
  | new z => exact absurd hfate fates_ne_new

theorem captures_iff : σ.Captures x ↔ x ∈ σ.active.freeNames := by
  simp [Captures, Replaces, active, isIdle, freeNames, and_assoc]

theorem touches_iff (hσ : (σ.map Prod.fst).Nodup) {result : Node} :
    σ.Touches target result p x ↔ Disturbed σ.active.fates target result p x := by
  unfold Touches Disturbed
  cases target.binderOf? x p with
  | none => exact exists_replaces_iff hσ
  | some q => exact Iff.rfl

/-- What the draft of a substitution says of its parts is so of what comes of it. -/
theorem Results.shares (h : σ.Results names target nodes r) (hσ : (σ.map Prod.fst).Nodup) :
    σ.Shares names target r := by
  obtain ⟨lo, hlo, hmakes⟩ := h.makes
  obtain ⟨hdrafts, -, hstate⟩ := draft?_drafts σ.active.freeNames (σ := σ.active)
    (s := ⟨target.allNames ++ σ.active.allNames, names, nodes⟩)
    (List.subset_append_left target.allNames σ.active.allNames) (List.Subset.refl _)
  have hrebuilt := hdrafts.rebuilt
  refine ⟨?_, ?_, ?_, ?_⟩
  · intro p m hp hm
    exact hrebuilt.locate_kept hmakes hlo hp fun x hx => mt (touches_iff hσ).2 (hm x hx)
  · intro p a n hp hfree hn
    exact hrebuilt.locate_slot hmakes hp hfree ((replaces_iff hσ).1 hn)
  · intro q t b body hq
    rw [hrebuilt.renamed_iff hmakes hlo hq, captures_iff]
    simp only [replaces_iff hσ]
  · intro hnone
    have hdraft : (σ.drafted names target nodes).1 = none := by
      refine hdrafts.none_iff.2 fun x hx => ?_
      by_contra hne
      obtain ⟨n, hn⟩ := (exists_replaces_iff hσ).2 hne
      exact hnone x hx n hn
    have hnames : r.2 = names := by
      rw [h.names, drafted, hstate hdraft]
    exact Prod.ext (h.kept hdraft) hnames

/-- **Both ways to substitute share the target's nodes**, also the one that compares nodes by number,
on nodes whose numbers have been given out. -/
theorem apply_shares (hσ : (σ.map Prod.fst).Nodup) (hnodes : ∀ entry ∈ σ, entry.2.Within nodes)
    (ht : target.Within nodes) (names : NameSupply) :
    σ.Shares names target (σ.apply names target nodes).1 ∧
      σ.Shares names target (σ.applyWithCopies names target nodes).1 :=
  ⟨(apply_results σ names target nodes).shares hσ,
    (applyWithCopies_results names hnodes ht).shares hσ⟩

/-- With `y` put in for `x` in `λy. x y (λz. z)`, the binder is renamed and `λz. z` is kept. -/
theorem apply_shares_beside_renamed :
    let y : Atom Nat := ⟨0, "y", none⟩
    let z : Atom Nat := ⟨1, "z", none⟩
    let identity : Node := .abs 2 z (.var z)
    let target : Node := .abs 6 y (.app 5 (.app 4 (.var ⟨3, "x", none⟩) (.var y)) identity)
    let σ : Substitution := [("x", .var ⟨7, "y", none⟩)]
    let r := (σ.applyWithCopies .start target 8).1.1
    (σ.map Prod.fst).Nodup ∧ (∀ entry ∈ σ, entry.2.Within 8) ∧ target.Within 8 ∧
      target.Renamed r [] ∧ r.locate [.body, .arg] = .ok identity ∧
        r.locate [.body, .fn, .fn] = .ok (.var ⟨7, "y", none⟩) := by
  intro y z identity target σ r
  have hσ : (σ.map Prod.fst).Nodup := by decide
  have hnodes : ∀ entry ∈ σ, entry.2.Within 8 := by simp [σ, Node.Within]
  have ht : target.Within 8 := by simp [target, identity, y, z, Node.Within]
  have hx : σ.Replaces "x" (.var ⟨7, "y", none⟩) := ⟨List.mem_cons_self, by decide⟩
  have h := (apply_shares hσ hnodes ht .start).2
  refine ⟨hσ, hnodes, ht, ?_, ?_, ?_⟩
  · refine (h.renamed [] 6 y _ rfl).2 ⟨⟨"x", _, hx, by decide⟩, "x", by decide, rfl, _, hx⟩
  · refine h.kept _ identity rfl fun x hx => ?_
    have hclosed : identity.freeNames = [] := by decide
    rw [hclosed] at hx
    cases hx
  · exact h.placed _ ⟨3, "x", none⟩ _ rfl rfl hx

end Shares

end Substitution

end ProofKernel
