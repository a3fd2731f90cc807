import ProofKernel.Proofs.NormalForm
import ProofKernel.Proofs.Sharing

/-!
# What a normal form leaves alone

A normal form is made anew. Its binders are new, and so are all its calls and abstractions, also those
in which no binder occurs. What it shares with the term are the leaves that no abstraction binds.

* `Node.Remade`: a term made anew from another one, with new binders;
* `Node.normalDraft_remade`: the normal form is the term made anew;
* `Node.Remade.locate_iff`, `Node.Remade.locate_plain`: the parts that are the very same nodes, and
  those that are equal;
* `Node.normalized?_shares_leaves`: what a normal form shares with the term.
-/

namespace ProofKernel

theorem Draft.le_build (d : Draft) (nodes : Nat) : nodes ≤ (d.build nodes).2 := by
  induction d generalizing nodes with
  | keep m => exact Nat.le_refl nodes
  | slot m => exact Nat.le_refl nodes
  | app f x ihf ihx => exact ((ihf nodes).trans (ihx _)).trans (Nat.le_succ _)
  | abs b d ih => exact (ih nodes).trans (Nat.le_succ _)

namespace Node

/-- **A term made anew**, under binders with the given names: leaves that they do not bind are kept,
and all other nodes have numbers from `lo` on. -/
inductive Remade (lo : Nat) : List Name → Node → Node → Prop
  | free {Γ : List Name} {a : Atom Nat} (h : a.name ∉ Γ) : Remade lo Γ (.var a) (.var a)
  | bound {Γ : List Name} {a z : Atom Nat} (h : a.name ∈ Γ) (hz : lo ≤ z.tag) :
      Remade lo Γ (.var a) (.var z)
  | app {Γ : List Name} {t t' : Nat} {f f' x x' : Node} (ht : lo ≤ t') (hf : Remade lo Γ f f')
      (hx : Remade lo Γ x x') : Remade lo Γ (.app t f x) (.app t' f' x')
  | abs {Γ : List Name} {t t' : Nat} {b z : Atom Nat} {body body' : Node} (ht : lo ≤ t')
      (hz : lo ≤ z.tag) (h : Remade lo (b.name :: Γ) body body') :
      Remade lo Γ (.abs t b body) (.abs t' z body')

/-! ## The normal form -/

section NormalDraft

variable {lo : Nat} (m : Node) (scope : Scope (Atom Nat)) (counter nodes : Nat)

theorem le_normalDraft : nodes ≤ (normalDraft m scope counter nodes).2 := by
  induction m generalizing scope counter nodes with
  | var a => exact Nat.le_refl nodes
  | app t f x ihf ihx => exact (ihf scope counter nodes).trans (ihx scope _ _)
  | abs t b body ih => exact (Nat.le_succ nodes).trans (ih _ (counter + 1) (nodes + 1))

/-- **The draft of a normal form is the term, made anew**, whenever it is built: binders are numbered
as nodes while the draft is made, calls and abstractions when it is built. -/
theorem normalDraft_remade (hnodes : lo ≤ nodes) (hscope : ∀ frame ∈ scope, lo ≤ frame.2.tag)
    {k : Nat} (hk : lo ≤ k) :
    Remade lo (scope.map Prod.fst) m ((normalDraft m scope counter nodes).1.1.build k).1 := by
  induction m generalizing scope counter nodes k with
  | var a =>
    show Remade lo _ (.var a) (.var ((scope.lookup? a.name).getD a))
    cases ha : scope.lookup? a.name with
    | none => exact .free (Scope.lookup?_eq_none_iff.1 ha)
    | some z =>
      have hmem : (a.name, z) ∈ scope := Scope.mem_of_lookup? ha
      exact .bound (List.mem_map.2 ⟨_, hmem, rfl⟩) (hscope _ hmem)
  | app t f x ihf ihx =>
    let f' := normalDraft f scope counter nodes
    have hk' : lo ≤ (f'.1.1.build k).2 := hk.trans (f'.1.1.le_build k)
    have hnodes' : lo ≤ f'.2 := hnodes.trans (le_normalDraft f scope counter nodes)
    exact .app (hk'.trans (Draft.le_build _ _)) (ihf scope counter nodes hnodes hscope hk)
      (ihx scope f'.1.2 f'.2 hnodes' hscope hk')
  | abs t b body ih =>
    let z : Atom Nat := ⟨nodes, numberedName (counter + 1), none⟩
    have hscope' : ∀ frame ∈ (b.name, z) :: scope, lo ≤ frame.2.tag :=
      List.forall_mem_cons.2 ⟨hnodes, hscope⟩
    exact .abs (hk.trans (Draft.le_build _ _)) hnodes
      (ih ((b.name, z) :: scope) (counter + 1) (nodes + 1) (Nat.le_succ_of_le hnodes) hscope' hk)

theorem normalized_remade {m : Node} {nodes : Nat} :
    Remade nodes [] m (m.normalized nodes).1 :=
  normalDraft_remade m [] m.normalStart nodes (Nat.le_refl nodes) (fun _ h => nomatch h)
    (le_normalDraft m [] m.normalStart nodes)

end NormalDraft

/-! ## Parts at paths -/

section Paths

variable {lo : Nat} {Γ : List Name} {m r n : Node} {p : Path}

/-- **The parts that are the very same nodes are the leaves that no abstraction binds**, by induction
on how the term was made anew. -/
theorem Remade.locate_iff (h : Remade lo Γ m r) (hm : m.Within lo) (hp : m.locate p = .ok n) :
    r.locate p = .ok n ↔ ∃ a, n = .var a ∧ m.binderOf? a.name p = none ∧ a.name ∉ Γ := by
  induction h generalizing p with
  | @free Γ a h =>
    obtain ⟨rfl, rfl⟩ := Term.locate_var hp
    exact iff_of_true rfl ⟨a, rfl, rfl, h⟩
  | @bound Γ a z h hz =>
    obtain ⟨rfl, rfl⟩ := Term.locate_var hp
    refine iff_of_false ?_ ?_
    · intro heq
      cases heq
      exact Nat.not_le_of_lt hm hz
    · rintro ⟨a', heq, -, ha⟩
      cases heq
      exact ha h
  | @app Γ t t' f f' x x' ht hf hx ihf ihx =>
    rcases Term.locate_app hp with ⟨rfl, rfl⟩ | ⟨q, rfl, hq⟩ | ⟨q, rfl, hq⟩
    · refine iff_of_false ?_ (by rintro ⟨a, heq, -⟩; cases heq)
      intro heq
      cases heq
      exact Nat.not_le_of_lt hm.1 ht
    · simp only [Term.binderOf?, Option.map_eq_none_iff]
      exact ihf hm.2.1 hq
    · simp only [Term.binderOf?, Option.map_eq_none_iff]
      exact ihx hm.2.2 hq
  | @abs Γ t t' b z body body' ht hz h ih =>
    rcases Term.locate_abs hp with ⟨rfl, rfl⟩ | ⟨rfl, rfl⟩ | ⟨q, rfl, hq⟩
    · refine iff_of_false ?_ (by rintro ⟨a, heq, -⟩; cases heq)
      intro heq
      cases heq
      exact Nat.not_le_of_lt hm.1 ht
    · refine iff_of_false ?_ ?_
      · intro heq
        cases heq
        exact Nat.not_le_of_lt hm.2.1 hz
      · rintro ⟨a, heq, ha, -⟩
        cases heq
        simp [Term.binderOf?] at ha
    · have hbody := ih hm.2.2 hq
      simp only [List.mem_cons, not_or] at hbody
      simp only [Term.binderOf?_body_eq_none, and_assoc, ne_comm (a := b.name)]
      exact hbody

/-- A term without abstractions and bound names is made anew as an equal one. -/
theorem Remade.plain_eq (h : Remade lo Γ m r) (hm : m.binders = 0)
    (hfree : ∀ x ∈ m.freeNames, x ∉ Γ) : r.plain = m.plain := by
  induction h with
  | free h => rfl
  | @bound Γ a z h hz => exact absurd h (hfree a.name List.mem_cons_self)
  | app ht hf hx ihf ihx =>
    obtain ⟨hmf, hmx⟩ := Nat.add_eq_zero_iff.1 hm
    rw [Term.plain, Term.plain, ihf hmf fun y hy => hfree y (List.mem_append_left _ hy),
      ihx hmx fun y hy => hfree y (List.mem_append_right _ hy)]
  | abs ht hz h ih => exact absurd hm (Nat.succ_ne_zero _)

/-- In the place of a part without abstractions and bound names stands an equal one. -/
theorem Remade.locate_plain (h : Remade lo Γ m r) (hp : m.locate p = .ok n) (hn : n.binders = 0)
    (hfree : ∀ x ∈ n.freeNames, m.binderOf? x p = none ∧ x ∉ Γ) :
    ∃ n', r.locate p = .ok n' ∧ n'.plain = n.plain := by
  induction h generalizing p with
  | free h =>
    obtain ⟨rfl, rfl⟩ := Term.locate_var hp
    exact ⟨_, rfl, rfl⟩
  | @bound Γ a z h hz =>
    obtain ⟨rfl, rfl⟩ := Term.locate_var hp
    exact absurd h (hfree a.name List.mem_cons_self).2
  | app ht hf hx ihf ihx =>
    rcases Term.locate_app hp with ⟨rfl, rfl⟩ | ⟨q, rfl, hq⟩ | ⟨q, rfl, hq⟩
    · exact ⟨_, rfl, (Remade.app ht hf hx).plain_eq hn fun x hx => (hfree x hx).2⟩
    · simp only [Term.binderOf?, Option.map_eq_none_iff] at hfree
      exact ihf hq hfree
    · simp only [Term.binderOf?, Option.map_eq_none_iff] at hfree
      exact ihx hq hfree
  | @abs Γ t t' b z body body' ht hz h ih =>
    rcases Term.locate_abs hp with ⟨rfl, rfl⟩ | ⟨rfl, rfl⟩ | ⟨q, rfl, hq⟩
    · exact absurd hn (Nat.succ_ne_zero _)
    · have hbound := (hfree b.name List.mem_cons_self).1
      simp [Term.binderOf?] at hbound
    · refine ih hq fun x hx => ?_
      obtain ⟨hbody, hΓ⟩ := hfree x hx
      obtain ⟨hbody, hne⟩ := Term.binderOf?_body_eq_none.1 hbody
      exact ⟨hbody, fun hx => (List.mem_cons.1 hx).elim (Ne.symm hne) hΓ⟩

end Paths

/-! ## What is shared -/

/-- **A normal form shares leaves and nothing else.** Of the parts of a term, those come back as the
very same nodes that are leaves no abstraction binds. So a call in which there is no abstraction and no
bound name is made anew as well, and what stands in its place is equal to it; and a term is its own
normal form only if it is a leaf. -/
theorem normalized?_shares_leaves {m : Node} (hfits : m.normalStart + m.binders ≤ numberLimit)
    {nodes : Nat} (hm : m.Within nodes) :
    ∃ r, (m.normalized? nodes).1 = some r ∧ (r = m ↔ ∃ a, m = .var a) ∧
      ∀ p n, m.locate p = .ok n →
        (r.locate p = .ok n ↔ ∃ a, n = .var a ∧ m.binderOf? a.name p = none) ∧
        (n.binders = 0 → (∀ x ∈ n.freeNames, m.binderOf? x p = none) →
          ∃ n', r.locate p = .ok n' ∧ n'.plain = n.plain) := by
  have h : Remade nodes [] m (m.normalized nodes).1 := normalized_remade
  have hiff : ∀ p n, m.locate p = .ok n →
      ((m.normalized nodes).1.locate p = .ok n ↔ ∃ a, n = .var a ∧ m.binderOf? a.name p = none) :=
    fun p n hp => by simpa using h.locate_iff hm hp
  refine ⟨_, normalized?_eq hfits nodes, ?_, fun p n hp => ⟨hiff p n hp, fun hn hfree => ?_⟩⟩
  · have hself := hiff [] m rfl
    constructor
    · intro heq
      obtain ⟨a, ha, -⟩ := hself.1 (congrArg Except.ok heq)
      exact ⟨a, ha⟩
    · rintro ⟨a, rfl⟩
      exact Except.ok.inj (hself.2 ⟨a, rfl, rfl⟩)
  · exact h.locate_plain hp hn fun x hx => ⟨hfree x hx, List.not_mem_nil⟩

/-- The call of `f` on `x`, beside a bound name: the leaves are shared, the call is not. -/
theorem normalized?_shares_leaves_of_call :
    let f : Atom Nat := ⟨0, "f", none⟩
    let x : Atom Nat := ⟨1, "x", none⟩
    let y : Atom Nat := ⟨2, "y", none⟩
    let call : Node := .app 3 (.var f) (.var x)
    let m : Node := .abs 5 y (.app 4 (.var y) call)
    m.normalStart + m.binders ≤ numberLimit ∧ m.Within 6 ∧ call.binders = 0 ∧
      (∀ n ∈ call.freeNames, m.binderOf? n [.body, .arg] = none) ∧
      ∃ r, (m.normalized? 6).1 = some r ∧ r.locate [.body, .arg] ≠ .ok call ∧
        (∃ n, r.locate [.body, .arg] = .ok n ∧ n.plain = call.plain) ∧
        r.locate [.body, .arg, .fn] = .ok (.var f) ∧ r.locate [.body, .arg, .arg] = .ok (.var x) := by
  intro f x y call m
  have hfits : m.normalStart + m.binders ≤ numberLimit := by decide
  have hm : m.Within 6 := by simp [m, call, f, x, y, Within]
  have hbinders : call.binders = 0 := rfl
  have hfree : ∀ n ∈ call.freeNames, m.binderOf? n [.body, .arg] = none := by decide
  obtain ⟨r, hr, -, hparts⟩ := normalized?_shares_leaves hfits hm
  obtain ⟨hcall, hequal⟩ := hparts [.body, .arg] call rfl
  refine ⟨hfits, hm, hbinders, hfree, r, hr, ?_, hequal hbinders hfree, ?_, ?_⟩
  · intro hsame
    obtain ⟨a, ha, -⟩ := hcall.1 hsame
    simp [call] at ha
  · exact (hparts [.body, .arg, .fn] (.var f) rfl).1.2 ⟨f, rfl, rfl⟩
  · exact (hparts [.body, .arg, .arg] (.var x) rfl).1.2 ⟨x, rfl, rfl⟩

end Node

end ProofKernel
