import ProofKernel.Proofs.Fresh
import ProofKernel.Proofs.Nameless
import ProofKernel.Proofs.Scope
import ProofKernel.Substitution

/-!
# Substitution is capture-avoiding

A draft has a nameless form of its own: what is kept is read under the binders around it, what was
put in is read on its own.

* `Draft.build_nameless`: the node that is made has this form, if no binder of the draft has a name
  that is free in something put in under it (`Draft.Clear`);
* `Draft.relabel_nameless`: renaming a binder to a name that the draft does not have keeps the form;
* `Substitution.Drafted`, `Substitution.draft?_spec`: what each call of the substitution achieves;
* `Substitution.nameless_apply`: the result of a substitution is the simultaneous substitution of
  nameless terms.
-/

namespace ProofKernel

theorem Term.mem_allNames_of_mem_freeNames {ι : Type} {m : Term ι} {x : Name}
    (h : x ∈ m.freeNames) : x ∈ m.allNames := by
  induction m with
  | var a => exact h
  | app t f y ihf ihy =>
    simp only [freeNames, allNames, List.mem_append] at h ⊢
    exact h.imp ihf ihy
  | abs t b body ih =>
    simp only [freeNames, allNames, List.mem_filter, List.mem_cons] at h ⊢
    exact .inr (ih h.1)

/-! ## The nameless form of a draft -/

namespace Draft

/-- The nameless form of a draft under binders. A node put in is read without them. -/
def namelessIn (Γ : List Name) : Draft → Nameless
  | .keep m => m.namelessIn Γ
  | .slot m => m.nameless
  | .app f x => .app (f.namelessIn Γ) (x.namelessIn Γ)
  | .abs b d => .abs (d.namelessIn (b.name :: Γ))

/-- No free name of a node put in has a binder around it. -/
def Clear (Γ : List Name) : Draft → Prop
  | .keep _ => True
  | .slot m => ∀ x ∈ m.freeNames, x ∉ Γ
  | .app f x => f.Clear Γ ∧ x.Clear Γ
  | .abs b d => d.Clear (b.name :: Γ)

/-- The names in a draft outside the nodes put in, binders included. -/
def ownNames : Draft → List Name
  | .keep m => m.allNames
  | .slot _ => []
  | .app f x => f.ownNames ++ x.ownNames
  | .abs b d => b.name :: d.ownNames

/-- The nameless form depends on what the scope says of the draft's own names only. -/
theorem namelessIn_congr {d : Draft} {Γ Δ : List Name}
    (h : ∀ x ∈ d.ownNames, resolve Γ x = resolve Δ x) : d.namelessIn Γ = d.namelessIn Δ := by
  induction d generalizing Γ Δ with
  | keep m => exact Term.namelessIn_congr fun x hx => h x (Term.mem_allNames_of_mem_freeNames hx)
  | slot m => rfl
  | app f x ihf ihx =>
    simp only [namelessIn]
    rw [ihf fun y hy => h y (by simp [ownNames, hy]), ihx fun y hy => h y (by simp [ownNames, hy])]
  | abs b d ih =>
    simp only [namelessIn]
    rw [ih fun y hy => resolve_cons_congr Iff.rfl (h y (by simp [ownNames, hy]))]

/-- The node that is made of a draft has the nameless form of the draft. -/
theorem build_nameless {d : Draft} {Γ : List Name} (h : d.Clear Γ) (nodes : Nat) :
    (d.build nodes).1.namelessIn Γ = d.namelessIn Γ := by
  induction d generalizing Γ nodes with
  | keep m => rfl
  | slot m => exact Term.namelessIn_eq_nameless h
  | app f x ihf ihx =>
    show Nameless.app ((f.build nodes).1.namelessIn Γ)
      ((x.build (f.build nodes).2).1.namelessIn Γ) = _
    rw [ihf h.1, ihx h.2]
    rfl
  | abs b d ih =>
    show Nameless.abs ((d.build nodes).1.namelessIn (b.name :: Γ)) = _
    rw [ih h]
    rfl

theorem buildOr_eq (m : Node) (d? : Option Draft) : buildOr m d? = (d?.getD (.keep m)).build := by
  cases d? <;> rfl

/-! ### Calls and abstractions with changed parts -/

section Changed

variable (tag : Nat) (b : Atom Nat) (f x body : Node) (f' x' body' : Option Draft)

theorem call?_nameless (Γ : List Name) :
    ((call? f x f' x').getD (.keep (.app tag f x))).namelessIn Γ =
      .app ((f'.getD (.keep f)).namelessIn Γ) ((x'.getD (.keep x)).namelessIn Γ) := by
  cases f' <;> cases x' <;> rfl

theorem call?_clear (Γ : List Name) :
    ((call? f x f' x').getD (.keep (.app tag f x))).Clear Γ ↔
      (f'.getD (.keep f)).Clear Γ ∧ (x'.getD (.keep x)).Clear Γ := by
  cases f' <;> cases x' <;> simp [call?, Clear]

theorem call?_ownNames :
    ((call? f x f' x').getD (.keep (.app tag f x))).ownNames =
      (f'.getD (.keep f)).ownNames ++ (x'.getD (.keep x)).ownNames := by
  cases f' <;> cases x' <;> rfl

theorem abs?_nameless (Γ : List Name) :
    ((body'.map (Draft.abs b)).getD (.keep (.abs tag b body))).namelessIn Γ =
      .abs ((body'.getD (.keep body)).namelessIn (b.name :: Γ)) := by
  cases body' <;> rfl

theorem abs?_clear (Γ : List Name) :
    ((body'.map (Draft.abs b)).getD (.keep (.abs tag b body))).Clear Γ ↔
      (body'.getD (.keep body)).Clear (b.name :: Γ) := by
  cases body' <;> simp [Clear]

theorem abs?_ownNames :
    ((body'.map (Draft.abs b)).getD (.keep (.abs tag b body))).ownNames =
      b.name :: (body'.getD (.keep body)).ownNames := by
  cases body' <;> rfl

end Changed

end Draft

/-! ## Renaming a name -/

/-- Scopes that say the same of each name after `b` has become `z`. -/
def Renames (b z : Name) (Γ Δ : List Name) : Prop :=
  ∀ x, x ≠ z → resolve Γ (if x = b then z else x) = resolve Δ x

theorem renames_cons (b z : Name) (Γ : List Name) : Renames b z (z :: Γ) (b :: Γ) := by
  intro x hx
  split
  next h => rw [h]; simp
  next h => exact resolve_cons_congr ⟨fun e => absurd e.symm hx, fun e => absurd e.symm h⟩ rfl

theorem Renames.cons {b z c : Name} {Γ Δ : List Name} (h : Renames b z Γ Δ) (hb : c ≠ b)
    (hz : c ≠ z) : Renames b z (c :: Γ) (c :: Δ) := by
  intro x hx
  refine resolve_cons_congr ?_ (h x hx)
  split
  next e => subst e; exact ⟨fun e => absurd e hz, fun e => absurd e hb⟩
  next => exact Iff.rfl

/-- A binder of the name shadows it, so that nothing is renamed under it. -/
theorem Renames.shadow {b z x : Name} {Γ Δ : List Name} (h : Renames b z Γ Δ) (hx : x ≠ z) :
    resolve (b :: Γ) x = resolve (b :: Δ) x := by
  by_cases hb : b = x
  · subst hb; simp
  · have := h x hx
    rw [if_neg (Ne.symm hb)] at this
    exact resolve_cons_congr Iff.rfl this

/-- Renaming a name to one that the term does not have keeps the nameless form. -/
theorem Node.relabel?_nameless {b : Name} {z : Atom Nat} {m : Node} {Γ Δ : List Name}
    (hz : z.name ∉ m.allNames) (h : Renames b z.name Γ Δ) :
    ((m.relabel? b z).getD (.keep m)).namelessIn Γ = m.namelessIn Δ := by
  induction m generalizing Γ Δ with
  | var a =>
    have ha := h a.name fun e => hz (by simp [Term.allNames, e])
    by_cases hb : a.name = b
    · rw [if_pos hb] at ha
      simpa [relabel?, hb, Draft.namelessIn, Term.namelessIn] using ha
    · rw [if_neg hb] at ha
      simpa [relabel?, hb, Draft.namelessIn, Term.namelessIn] using ha
  | app t f x ihf ihx =>
    simp only [Term.allNames, List.mem_append, not_or] at hz
    rw [relabel?, Draft.call?_nameless, ihf hz.1 h, ihx hz.2 h]
    rfl
  | abs t c body ih =>
    simp only [Term.allNames, List.mem_cons, not_or] at hz
    rw [relabel?]
    split
    next hc =>
      refine congrArg Nameless.abs (Term.namelessIn_congr ?_)
      intro x hx
      subst hc
      exact h.shadow fun e => hz.2 (e ▸ Term.mem_allNames_of_mem_freeNames hx)
    next hc =>
      rw [Draft.abs?_nameless, ih hz.2 (h.cons hc (Ne.symm hz.1))]
      rfl

theorem Node.relabel?_clear {b : Name} {z : Atom Nat} {m : Node} (Γ : List Name) :
    ((m.relabel? b z).getD (.keep m)).Clear Γ := by
  induction m generalizing Γ with
  | var a => unfold relabel?; split <;> trivial
  | app t f x ihf ihx => exact (Draft.call?_clear ..).2 ⟨ihf Γ, ihx Γ⟩
  | abs t c body ih =>
    unfold relabel?
    split
    next => trivial
    next => exact (Draft.abs?_clear ..).2 (ih (c.name :: Γ))

theorem Node.relabel?_ownNames {b : Name} {z : Atom Nat} {m : Node} :
    ∀ x ∈ ((m.relabel? b z).getD (.keep m)).ownNames, x = z.name ∨ x ∈ m.allNames := by
  induction m with
  | var a =>
    unfold relabel?
    split
    next => intro x hx; exact .inl (List.mem_singleton.1 hx)
    next => intro x hx; exact .inr hx
  | app t f y ihf ihy =>
    intro x hx
    rw [relabel?, Draft.call?_ownNames, List.mem_append] at hx
    simp only [Term.allNames, List.mem_append]
    rcases hx with hx | hx
    · exact (ihf x hx).imp_right .inl
    · exact (ihy x hx).imp_right .inr
  | abs t c body ih =>
    unfold relabel?
    split
    next => intro x hx; exact .inr hx
    next =>
      intro x hx
      rw [Draft.abs?_ownNames, List.mem_cons] at hx
      simp only [Term.allNames, List.mem_cons]
      rcases hx with hx | hx
      · exact .inr (.inl hx)
      · exact (ih x hx).imp_right .inr

namespace Draft

/-- Renaming a name to one that the draft does not have keeps the nameless form. -/
theorem relabel_nameless {b : Name} {z : Atom Nat} {d : Draft} {Γ Δ : List Name}
    (hz : z.name ∉ d.ownNames) (h : Renames b z.name Γ Δ) :
    (d.relabel b z).namelessIn Γ = d.namelessIn Δ := by
  induction d generalizing Γ Δ with
  | keep m => exact Node.relabel?_nameless hz h
  | slot m => rfl
  | app f x ihf ihx =>
    simp only [ownNames, List.mem_append, not_or] at hz
    simp only [relabel, namelessIn]
    rw [ihf hz.1 h, ihx hz.2 h]
  | abs c d ih =>
    simp only [ownNames, List.mem_cons, not_or] at hz
    rw [relabel]
    split
    next hc =>
      subst hc
      exact congrArg Nameless.abs (namelessIn_congr fun x hx => h.shadow fun e => hz.2 (e ▸ hx))
    next hc => exact congrArg Nameless.abs (ih hz.2 (h.cons hc (Ne.symm hz.1)))

theorem relabel_clear {b : Name} {z : Atom Nat} {d : Draft} {Γ : List Name} (h : d.Clear Γ) :
    (d.relabel b z).Clear Γ := by
  induction d generalizing Γ with
  | keep m => exact Node.relabel?_clear Γ
  | slot m => exact h
  | app f x ihf ihx => exact ⟨ihf h.1, ihx h.2⟩
  | abs c d ih =>
    rw [relabel]
    split
    next => exact h
    next => exact ih (Γ := c.name :: Γ) h

theorem relabel_ownNames {b : Name} {z : Atom Nat} {d : Draft} :
    ∀ x ∈ (d.relabel b z).ownNames, x = z.name ∨ x ∈ d.ownNames := by
  induction d with
  | keep m => exact Node.relabel?_ownNames
  | slot m => intro x hx; exact .inr hx
  | app f y ihf ihy =>
    intro x hx
    simp only [relabel, ownNames, List.mem_append] at hx ⊢
    rcases hx with hx | hx
    · exact (ihf x hx).imp_right .inl
    · exact (ihy x hx).imp_right .inr
  | abs c d ih =>
    rw [relabel]
    split
    next => intro x hx; exact .inr hx
    next =>
      intro x hx
      simp only [ownNames, List.mem_cons] at hx ⊢
      rcases hx with hx | hx
      · exact .inr (.inl hx)
      · exact (ih x hx).imp_right .inr

end Draft

/-! ## Substituting -/

namespace Substitution

/-- The nameless forms that a substitution puts in for names. -/
def images (σ : Substitution) (x : Name) : Option Nameless :=
  (Scope.lookup? σ x).map Term.nameless

/-- What putting in nodes for names in a term achieves, from one state to another: the draft is the
substituted term, whatever is bound around it; nothing put in is captured by binders that avoid the
captured names; and the names in use grow by those of the draft. -/
structure Drafted (captured : List Name) (m : Node) (σ : Substitution) (before : Naming) (d : Draft)
    (after : Naming) : Prop where
  nameless : ∀ Γ, (∀ entry ∈ σ, entry.1 ∉ Γ) → d.namelessIn Γ = (m.namelessIn Γ).subst (images σ)
  clear : ∀ Γ, (∀ x ∈ Γ, x ∉ captured) → d.Clear Γ
  used : ∀ x ∈ d.ownNames, x ∈ after.used
  grows : ∀ x ∈ before.used, x ∈ after.used

/-- The run of a substitution in an abstraction. -/
theorem draft?_abs (captured : List Name) (t : Nat) (b : Atom Nat) (body : Node) (σ : Substitution)
    (s : Naming) :
    draft? captured (.abs t b body) σ s =
      match draft? captured body (σ.filter fun entry => entry.1 ≠ b.name) s with
      | (none, s') => (none, s')
      | (some d, s') =>
        if captured.contains b.name then
          let fresh := (freshAtom b.name s').1
          (some (.abs fresh (d.relabel b.name fresh)), (freshAtom b.name s').2)
        else (some (.abs b d), s') := by
  rw [draft?]
  simp only [bind, StateT.bind, pure]
  generalize draft? captured body _ s = r
  obtain ⟨_ | d, s'⟩ := r
  · rfl
  · by_cases hc : captured.contains b.name = true
    · simp only [hc, if_true]
      rfl
    · simp only [hc]
      rfl

section Drafted

variable {captured : List Name} {σ : Substitution} {s s' : Naming}

theorem drafted_var {a : Atom Nat} (ha : a.name ∈ s.used)
    (hσ : ∀ entry ∈ σ, ∀ x ∈ entry.2.freeNames, x ∈ captured) :
    Drafted captured (.var a) σ s (((Scope.lookup? σ a.name).map .slot).getD (.keep (.var a)))
      s := by
  cases hget : Scope.lookup? σ a.name with
  | none =>
    refine ⟨?_, fun _ _ => trivial, ?_, fun x hx => hx⟩
    · intro Γ hΓ
      refine (Nameless.subst_eq_self ?_).symm
      intro x hx
      have hx : x = a.name := by
        simpa [Term.freeNames] using (Term.mem_freeNames_namelessIn.1 hx).1
      rw [hx, images, hget]
      rfl
    · intro x hx
      rw [List.mem_singleton.1 hx]
      exact ha
  | some n =>
    have hmem := Scope.mem_of_lookup? hget
    refine ⟨?_, ?_, by simp [Draft.ownNames], fun x hx => hx⟩
    · intro Γ hΓ
      simp only [Option.map_some, Option.getD_some, Draft.namelessIn, Term.namelessIn]
      rw [resolve_of_not_mem (hΓ _ hmem)]
      simp [Nameless.subst, images, hget]
    · intro Γ hΓ x hx hin
      exact hΓ x hin (hσ _ hmem x hx)

theorem Drafted.app {t : Nat} {f x : Node} {df? dx? : Option Draft} {s₁ s₂ : Naming}
    (hf : Drafted captured f σ s (df?.getD (.keep f)) s₁)
    (hx : Drafted captured x σ s₁ (dx?.getD (.keep x)) s₂) :
    Drafted captured (.app t f x) σ s ((Draft.call? f x df? dx?).getD (.keep (.app t f x))) s₂ := by
  refine ⟨?_, ?_, ?_, fun y hy => hx.grows y (hf.grows y hy)⟩
  · intro Γ hΓ
    rw [Draft.call?_nameless, hf.nameless Γ hΓ, hx.nameless Γ hΓ]
    rfl
  · intro Γ hΓ
    exact (Draft.call?_clear ..).2 ⟨hf.clear Γ hΓ, hx.clear Γ hΓ⟩
  · intro y hy
    rw [Draft.call?_ownNames, List.mem_append] at hy
    exact hy.elim (fun hy => hx.grows y (hf.used y hy)) (hx.used y)

section Binder

variable {t : Nat} {b : Atom Nat} {body : Node} {d : Draft}
  (h : Drafted captured body (σ.filter fun entry => entry.1 ≠ b.name) s d s')

include h

/-- The binder's own name is not free under it, so that it may be replaced there or not. -/
theorem Drafted.nameless_abs {Γ : List Name} (hΓ : ∀ entry ∈ σ, entry.1 ∉ Γ) :
    .abs (d.namelessIn (b.name :: Γ)) = ((Term.abs t b body).namelessIn Γ).subst (images σ) := by
  have hunder : ∀ entry ∈ σ.filter fun entry => entry.1 ≠ b.name, entry.1 ∉ b.name :: Γ := by
    intro entry he
    obtain ⟨he, hne⟩ := List.mem_filter.1 he
    simpa using ⟨by simpa using hne, hΓ entry he⟩
  have hsame : (body.namelessIn (b.name :: Γ)).subst
      (images (σ.filter fun entry => entry.1 ≠ b.name)) =
        (body.namelessIn (b.name :: Γ)).subst (images σ) := by
    refine Nameless.subst_congr ?_
    intro x hx
    have hne : x ≠ b.name := fun e => (Term.mem_freeNames_namelessIn.1 hx).2 (by simp [e])
    rw [images, Scope.lookup?_filter_ne σ hne, images]
  rw [h.nameless _ hunder, hsame]
  rfl

theorem Drafted.used_abs (hb : b.name ∈ s.used) : ∀ x ∈ b.name :: d.ownNames, x ∈ s'.used := by
  intro x hx
  rcases List.mem_cons.1 hx with rfl | hx
  · exact h.grows _ hb
  · exact h.used x hx

/-- A binder that captures nothing stays. -/
theorem Drafted.abs (hb : b.name ∈ s.used) (hcap : b.name ∉ captured) :
    Drafted captured (.abs t b body) σ s (.abs b d) s' := by
  refine ⟨fun _ hΓ => h.nameless_abs hΓ, ?_, h.used_abs hb, h.grows⟩
  intro Γ hΓ
  refine h.clear _ ?_
  intro x hx
  rcases List.mem_cons.1 hx with rfl | hx
  · exact hcap
  · exact hΓ x hx

/-- A binder with a new name captures nothing. -/
theorem Drafted.abs_fresh (hc : ∀ x ∈ captured, x ∈ s.used) :
    Drafted captured (.abs t b body) σ s
      (.abs (freshAtom b.name s').1 (d.relabel b.name (freshAtom b.name s').1))
      (freshAtom b.name s').2 := by
  have hnew : (freshAtom b.name s').1.name ∉ s'.used := s'.names.fresh_not_mem b.name s'.used
  refine ⟨?_, ?_, ?_, fun x hx => List.mem_cons_of_mem _ (h.grows x hx)⟩
  · intro Γ hΓ
    rw [← h.nameless_abs hΓ]
    refine congrArg Nameless.abs ?_
    exact Draft.relabel_nameless (fun hown => hnew (h.used _ hown)) (renames_cons b.name _ Γ)
  · intro Γ hΓ
    refine Draft.relabel_clear (h.clear _ ?_)
    intro x hx
    rcases List.mem_cons.1 hx with rfl | hx
    · exact fun hcap => hnew (h.grows _ (hc _ hcap))
    · exact hΓ x hx
  · intro x hx
    rcases List.mem_cons.1 hx with rfl | hx
    · exact List.mem_cons_self
    · rcases Draft.relabel_ownNames x hx with rfl | hx
      · exact List.mem_cons_self
      · exact List.mem_cons_of_mem _ (h.used x hx)

end Binder

/-- An abstraction whose body is kept is kept. -/
theorem Drafted.abs_keep {t : Nat} {b : Atom Nat} {body : Node}
    (h : Drafted captured body (σ.filter fun entry => entry.1 ≠ b.name) s (.keep body) s')
    (hb : b.name ∈ s.used) :
    Drafted captured (.abs t b body) σ s (.keep (.abs t b body)) s' :=
  ⟨fun _ hΓ => h.nameless_abs hΓ, fun _ _ => trivial, h.used_abs hb, h.grows⟩

end Drafted

/-- **What the substitution in a term achieves**, by induction on the term: under each binder its
own name is no longer replaced, and a renamed binder has a name that nothing else has. -/
theorem draft?_spec {captured : List Name} {m : Node} {σ : Substitution} {s : Naming}
    (hm : ∀ x ∈ m.allNames, x ∈ s.used) (hc : ∀ x ∈ captured, x ∈ s.used)
    (hσ : ∀ entry ∈ σ, ∀ x ∈ entry.2.freeNames, x ∈ captured) :
    Drafted captured m σ s ((draft? captured m σ s).1.getD (.keep m))
      (draft? captured m σ s).2 := by
  induction m generalizing σ s with
  | var a => exact drafted_var (hm a.name List.mem_cons_self) hσ
  | app t f x ihf ihx =>
    have hf := ihf (fun y hy => hm y (by simp [Term.allNames, hy])) hc hσ
    have hx := ihx (fun y hy => hf.grows y (hm y (by simp [Term.allNames, hy])))
      (fun y hy => hf.grows y (hc y hy)) hσ
    exact hf.app hx
  | abs t b body ih =>
    have hbody := ih (σ := σ.filter fun entry => entry.1 ≠ b.name)
      (fun x hx => hm x (by simp [Term.allNames, hx])) hc
      fun entry he => hσ entry (List.mem_filter.1 he).1
    have hb : b.name ∈ s.used := hm b.name (by simp [Term.allNames])
    rw [draft?_abs]
    rcases hr : draft? captured body (σ.filter fun entry => entry.1 ≠ b.name) s with ⟨_ | d, s'⟩
    · rw [hr] at hbody
      exact hbody.abs_keep hb
    · rw [hr] at hbody
      have hbody : Drafted captured body (σ.filter fun entry => entry.1 ≠ b.name) s d s' := hbody
      simp only
      split
      next hcap => exact hbody.abs_fresh hc
      next hcap => exact hbody.abs hb (by simpa using hcap)

/-! ### The whole substitution -/

/-- Leaving out entries that replace a name by itself changes nothing, where each name has one
entry. -/
theorem images_filter_idle {σ : Substitution} (hσ : (σ.map Prod.fst).Nodup) (x : Name) :
    ((images (σ.filter fun entry => !isIdle entry) x).getD (.free x)) =
      (images σ x).getD (.free x) := by
  induction σ with
  | nil => rfl
  | cons entry σ ih =>
    obtain ⟨y, m⟩ := entry
    simp only [List.map_cons, List.nodup_cons] at hσ
    have ih := ih hσ.2
    by_cases hidle : isIdle (y, m) = true
    · rw [List.filter_cons_of_neg (by simp [hidle])]
      by_cases hy : y = x
      · subst hy
        -- no later entry has the name, and the idle one puts in the name itself
        have hnone : Scope.lookup? σ y = none := by
          simp only [Scope.lookup?, Option.map_eq_none_iff, List.find?_eq_none]
          intro entry he
          have : entry.1 ≠ y := fun e => hσ.1 (List.mem_map.2 ⟨entry, he, e⟩)
          simpa using this
        rw [ih, images, images, hnone, Scope.lookup?_cons, if_pos rfl]
        cases m with
        | var a =>
          have ha : a.name = y := by simpa [isIdle, Term.isNamed] using hidle
          simp [Term.nameless, Term.namelessIn, ha]
        | app t f x => simp [isIdle, Term.isNamed] at hidle
        | abs t b body => simp [isIdle, Term.isNamed] at hidle
      · rw [ih, images, images, Scope.lookup?_cons, if_neg hy]
    · rw [List.filter_cons_of_pos (by simp [hidle])]
      by_cases hy : y = x
      · simp [images, Scope.lookup?_cons, hy]
      · simpa [images, Scope.lookup?_cons, hy] using ih

/-- **The result of a substitution has the nameless form of the target with the nameless forms of
the nodes put in.** -/
theorem nameless_apply {σ : Substitution} (hσ : (σ.map Prod.fst).Nodup) (names : NameSupply)
    (target : Node) (nodes : Nat) :
    (σ.apply names target nodes).1.1.nameless = target.nameless.subst σ.images := by
  set active : Substitution := σ.filter fun entry => !isIdle entry with hactive
  have hown : ∀ x ∈ target.allNames, x ∈ target.allNames ++ active.allNames :=
    fun x hx => List.mem_append_left _ hx
  have hfree : ∀ x ∈ active.freeNames, x ∈ target.allNames ++ active.allNames := by
    intro x hx
    obtain ⟨entry, he, hx⟩ := List.mem_flatMap.1 hx
    exact List.mem_append_right _
      (List.mem_flatMap.2 ⟨entry, he, Term.mem_allNames_of_mem_freeNames hx⟩)
  have hdraft := draft?_spec (s := ⟨target.allNames ++ active.allNames, names, nodes⟩) hown hfree
    fun entry he x hx => List.mem_flatMap.2 ⟨entry, he, hx⟩
  show (Draft.buildOr target _ _).1.namelessIn [] = _
  rw [Draft.buildOr_eq, Draft.build_nameless (hdraft.clear [] (by simp)),
    hdraft.nameless [] (by simp)]
  exact Nameless.subst_congr fun x _ => images_filter_idle hσ x

/-- **Substitution is simultaneous and captures nothing**, whatever fresh names and nodes it draws.
In nameless form the result is the target with the nodes put in for the free occurrences of the
names and nothing else changed; so its free names are those of the target that stay and those of the
nodes put in; and targets that are alike give results that are alike. -/
theorem apply_simultaneous {σ : Substitution} (hσ : (σ.map Prod.fst).Nodup) (names : NameSupply)
    (target : Node) (nodes : Nat) :
    (σ.apply names target nodes).1.1.nameless = target.nameless.subst σ.images ∧
      (∀ x, x ∈ (σ.apply names target nodes).1.1.freeNames ↔
        (x ∈ target.freeNames ∧ Scope.lookup? σ x = none) ∨
          ∃ y ∈ target.freeNames, ∃ m, Scope.lookup? σ y = some m ∧ x ∈ m.freeNames) ∧
      ∀ (target' : Node) (names' : NameSupply) (nodes' : Nat), target.alike target' = true →
        (σ.apply names target nodes).1.1.alike (σ.apply names' target' nodes').1.1 = true := by
  refine ⟨nameless_apply hσ names target nodes, ?_, ?_⟩
  · intro x
    rw [← Term.mem_freeNames_nameless, nameless_apply hσ, Nameless.mem_freeNames_subst]
    constructor
    · rintro ⟨y, hy, hx⟩
      rw [Term.mem_freeNames_nameless] at hy
      cases hm : Scope.lookup? σ y with
      | none =>
        have hxy : x = y := by simpa [images, hm, Nameless.freeNames] using hx
        exact .inl ⟨hxy ▸ hy, hxy ▸ hm⟩
      | some m =>
        exact .inr ⟨y, hy, m, hm, by simpa [images, hm, Term.mem_freeNames_nameless] using hx⟩
    · rintro (⟨hx, hnone⟩ | ⟨y, hy, m, hm, hx⟩)
      · exact ⟨x, Term.mem_freeNames_nameless.2 hx, by simp [images, hnone, Nameless.freeNames]⟩
      · exact ⟨y, Term.mem_freeNames_nameless.2 hy,
          by simpa [images, hm, Term.mem_freeNames_nameless] using hx⟩
  · intro target' names' nodes' h
    rw [Term.alike_iff] at h ⊢
    rw [nameless_apply hσ, nameless_apply hσ, h]

/-- Putting in the name of a binder renames the binder. -/
theorem apply_simultaneous_under_binder :
    let y : Atom Nat := ⟨0, "y", none⟩
    let σ : Substitution := [("x", .var ⟨1, "y", none⟩), ("z", .var ⟨2, "x", none⟩)]
    let target : Node := .abs 3 y (.app 4 (.app 5 (.var ⟨6, "x", none⟩) (.var y)) (.var ⟨7, "z", none⟩))
    (σ.map Prod.fst).Nodup ∧ (σ.apply .start target 8).1.1.nameless =
      .abs (.app (.app (.free "y") (.bound 0)) (.free "x")) :=
  ⟨by decide, (apply_simultaneous (by decide) .start _ 8).1.trans (by decide)⟩

end Substitution

end ProofKernel
