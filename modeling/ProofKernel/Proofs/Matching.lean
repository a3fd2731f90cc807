import ProofKernel.Matching
import ProofKernel.Proofs.Nameless
import ProofKernel.Proofs.Substitution

/-!
# Schema matching

* `Node.IsInstance`: terms for the variables of a schema make it the target, in nameless form;
* `Node.matchIn?_sound`: an assignment that is found extends the given one by exactly the free
  variables of the schema, and makes the schema the target;
* `Node.matchIn?_complete`: if any terms make the schema the target, an assignment is found, and it
  agrees with them;
* `Node.matchSchema?_most_general`: both for a whole schema.
-/

namespace ProofKernel

namespace Assignment

/-- The nameless forms that an assignment puts in for names. -/
def images (s : Assignment) : Name → Option Nameless := Substitution.images s.entries

theorem images_eq (s : Assignment) (x : Name) : s.images x = (s.get? x).map Term.nameless := rfl

theorem get?_insert_self {s : Assignment} {x : Name} (m : Node) (h : s.get? x = none) :
    (s.insert x m).get? x = some m := by
  have hfind : s.entries.find? (fun frame => frame.1 = x) = none := by
    simpa [get?, Scope.lookup?] using h
  simp only [insert, h]
  simp [get?, Scope.lookup?, List.find?_append, hfind]

theorem get?_insert_of_ne {s : Assignment} {x y : Name} (m : Node) (hxy : y ≠ x) :
    (s.insert x m).get? y = s.get? y := by
  unfold insert
  cases hs : s.get? x with
  | some _ => rfl
  | none => simp [get?, Scope.lookup?, List.find?_append, Ne.symm hxy]

theorem get?_isSome_iff {s : Assignment} {x : Name} :
    (s.get? x).isSome ↔ x ∈ s.entries.map Prod.fst := by
  simp [get?, Scope.lookup?, List.find?_isSome]

theorem insert_nodup {s : Assignment} (h : (s.entries.map Prod.fst).Nodup) (x : Name) (m : Node) :
    ((s.insert x m).entries.map Prod.fst).Nodup := by
  unfold insert
  cases hs : s.get? x with
  | some _ => exact h
  | none =>
    have hx : x ∉ s.entries.map Prod.fst := by
      rw [← get?_isSome_iff, hs]
      simp
    rw [List.map_append, List.nodup_append]
    refine ⟨h, by simp, fun y hy z hz hyz => hx ?_⟩
    have hz : z = x := by simpa using hz
    rw [← hz, ← hyz]
    exact hy

/-- Only logic variables have a node. -/
def OnVariables (s : Assignment) : Prop := ∀ x, (s.get? x).isSome → x.isVariable = true

theorem OnVariables.get?_eq_none {s : Assignment} (h : s.OnVariables) {x : Name}
    (hx : x.isVariable = false) : s.get? x = none := by
  cases hs : s.get? x with
  | none => rfl
  | some m =>
    have := h x (by simp [hs])
    simp [hx] at this

/-- Each name of the first assignment has the same node in the second. -/
def Extends (s t : Assignment) : Prop := ∀ x m, s.get? x = some m → t.get? x = some m

theorem Extends.refl (s : Assignment) : s.Extends s := fun _ _ h => h

theorem Extends.trans {s t u : Assignment} (h : s.Extends t) (h' : t.Extends u) : s.Extends u :=
  fun x m hx => h' x m (h x m hx)

theorem extends_insert (s : Assignment) (x : Name) (m : Node) : s.Extends (s.insert x m) := by
  intro y n hy
  by_cases hxy : y = x
  · subst hxy
    rw [insert, hy]
    exact hy
  · rw [get?_insert_of_ne m hxy]
    exact hy

end Assignment

namespace Node

/-- Nameless forms for the logic variables; no other name stands for another term. -/
def variableImages (θ : Name → Node) (x : Name) : Option Nameless :=
  if x.isVariable then some (θ x).nameless else none

/-- **Instances.** The terms make the schema the target, up to the names of binders: the
capture-avoiding instance of the schema and the target have the same nameless form. -/
def IsInstance (schema target : Node) (θ : Name → Node) : Prop :=
  schema.nameless.subst (variableImages θ) = target.nameless

/-! ## What is found makes the schema the target -/

/-- What matching achieves, from one assignment to the next: the second extends the first by the
free variables of the schema and by nothing else, and makes the schema the target under the
corresponding binders. -/
structure Matched (c : Correspondence) (schema target : Node) (s t : Assignment) : Prop where
  ext : s.Extends t
  names : ∀ x, (t.get? x).isSome ↔
    (s.get? x).isSome ∨ x ∈ schema.freeVariables ∧ x ∉ c.map (·.1)
  nodup : (s.entries.map Prod.fst).Nodup → (t.entries.map Prod.fst).Nodup
  instance_eq : s.OnVariables →
    (schema.namelessIn (c.map (·.1))).subst t.images = target.namelessIn (c.map (·.2))

theorem mem_freeVariables {m : Node} {x : Name} :
    x ∈ m.freeVariables ↔ x ∈ m.freeNames ∧ x.isVariable = true := by
  simp [Term.freeVariables]

theorem Matched.onVariables {c : Correspondence} {schema target : Node} {s t : Assignment}
    (h : Matched c schema target s t) (hs : s.OnVariables) : t.OnVariables := by
  intro x hx
  rcases (h.names x).1 hx with hx | hx
  · exact hs x hx
  · exact (mem_freeVariables.1 hx.1).2

/-- What makes a part of the schema the target still does so after more names are assigned. -/
theorem Matched.instance_mono {c : Correspondence} {schema target : Node} {s t u : Assignment}
    (h : Matched c schema target s t) (hs : s.OnVariables) (hext : t.Extends u)
    (hu : u.OnVariables) :
    (schema.namelessIn (c.map (·.1))).subst u.images = target.namelessIn (c.map (·.2)) := by
  rw [← h.instance_eq hs]
  refine Nameless.subst_congr ?_
  intro x hx
  obtain ⟨hfree, hc⟩ := Term.mem_freeNames_namelessIn.1 hx
  rw [Assignment.images_eq, Assignment.images_eq]
  cases hv : x.isVariable with
  | true =>
    have hsome : (t.get? x).isSome := (h.names x).2 (.inr ⟨mem_freeVariables.2 ⟨hfree, hv⟩, hc⟩)
    obtain ⟨m, hm⟩ := Option.isSome_iff_exists.1 hsome
    rw [hm, hext x m hm]
  | false => rw [(h.onVariables hs).get?_eq_none hv, hu.get?_eq_none hv]

/-- The names of the correspondence on the target's side are not free in the target exactly if the
check for escaping names passes. -/
theorem escapes_iff {c : Correspondence} {target : Node} :
    (c.any fun pair => target.hasFree pair.2) = false ↔
      ∀ x ∈ target.freeNames, x ∉ c.map (·.2) := by
  simp only [List.any_eq_false, List.mem_map, not_exists, not_and]
  constructor
  · rintro h x hx pair hp rfl
    exact h pair hp (Term.hasFree_iff.2 hx)
  · intro h pair hp hfree
    exact h pair.2 (Term.hasFree_iff.1 hfree) pair hp rfl

theorem binds_iff {c : Correspondence} {x : Name} : c.binds x = true ↔ x ∈ c.map (·.1) := by
  simp [Scope.binds]

/-- A substitution for logic variables leaves constants and bound names as they are. -/
theorem resolve_subst_fixed {c : Correspondence} {v : Name} {θ : Name → Option Nameless}
    (hv : (v.isConstant || c.binds v) = true) (hθ : ∀ x, x.isVariable = false → θ x = none) :
    (resolve (c.map (·.1)) v).subst θ = resolve (c.map (·.1)) v := by
  by_cases hc : v ∈ c.map (·.1)
  · obtain ⟨k, -, hk⟩ := resolve_of_mem hc
    rw [hk, Nameless.subst]
  · rw [Bool.or_eq_true, binds_iff] at hv
    have hconst : v.isVariable = false := by simpa [Name.isConstant, hc] using hv
    rw [resolve_of_not_mem hc, Nameless.subst, hθ v hconst]
    rfl

/-- Every other leaf is a free variable. -/
theorem variable_of_not_fixed {c : Correspondence} {v : Name}
    (hv : (v.isConstant || c.binds v) = false) : v.isVariable = true ∧ v ∉ c.map (·.1) := by
  obtain ⟨hconst, hbinds⟩ := Bool.or_eq_false_iff.1 hv
  constructor
  · simpa [Name.isConstant] using hconst
  · rw [← binds_iff, hbinds]
    simp

/-- Matching at a leaf that is no free variable: the target is the corresponding leaf. -/
theorem matchIn?_fixed {c : Correspondence} {v : Atom Nat} {target : Node} {s t : Assignment}
    (hv : (v.name.isConstant || c.binds v.name) = true) :
    matchIn? c (.var v) target s = some t ↔
      t = s ∧ resolve (c.map (·.1)) v.name = target.namelessIn (c.map (·.2)) := by
  unfold matchIn?
  rw [if_pos hv]
  cases target with
  | var w =>
    by_cases hr : c.relates v.name w.name = true
    · simp [hr, Term.namelessIn, Correspondence.relates_iff.1 hr, eq_comm]
    · have hne := mt Correspondence.relates_iff.2 hr
      simp only [hr, Bool.false_eq_true, if_false, reduceCtorEq, Term.namelessIn, false_iff,
        not_and]
      exact fun _ => hne
  | app t' f x => simp [Term.namelessIn, resolve_ne_app]
  | abs t' b body => simp [Term.namelessIn, resolve_ne_abs]

/-- Matching at a free variable: the target has no bound name, and is what the variable already
stands for or becomes that. -/
theorem matchIn?_variable {c : Correspondence} {v : Atom Nat} {target : Node} {s t : Assignment}
    (hv : (v.name.isConstant || c.binds v.name) = false) :
    matchIn? c (.var v) target s = some t ↔
      (∀ x ∈ target.freeNames, x ∉ c.map (·.2)) ∧
        ((∃ m, s.get? v.name = some m ∧ m.nameless = target.nameless ∧ t = s) ∨
          s.get? v.name = none ∧ t = s.insert v.name target) := by
  unfold matchIn?
  rw [if_neg (by simp [hv]), ← escapes_iff]
  cases hesc : (c.any fun pair => target.hasFree pair.2) with
  | true => simp
  | false =>
    cases hs : s.get? v.name with
    | none => simp [eq_comm]
    | some m =>
      simp only [Bool.false_eq_true, if_false, true_and, Option.some.injEq, exists_eq_left',
        reduceCtorEq, false_and, or_false]
      rw [← Term.alike_iff]
      split
      next h => simp [h, eq_comm]
      next h => simp [h]

theorem matchIn?_app {c : Correspondence} {tag : Nat} {f x target : Node} {s t : Assignment} :
    matchIn? c (.app tag f x) target s = some t ↔
      ∃ tag' g y r, target = .app tag' g y ∧ matchIn? c f g s = some r ∧
        matchIn? c x y r = some t := by
  cases target with
  | var w => simp [matchIn?]
  | app tag' g y => simp [matchIn?, Option.bind_eq_some_iff]
  | abs tag' b body => simp [matchIn?]

theorem matchIn?_abs {c : Correspondence} {tag : Nat} {a : Atom Nat} {body target : Node}
    {s t : Assignment} :
    matchIn? c (.abs tag a body) target s = some t ↔
      ∃ tag' b body', target = .abs tag' b body' ∧
        matchIn? ((a.name, b.name) :: c) body body' s = some t := by
  cases target with
  | var w => simp [matchIn?]
  | app tag' g y => simp [matchIn?]
  | abs tag' b body' => simp [matchIn?]

theorem mem_freeVariables_var {v : Atom Nat} {x : Name} :
    x ∈ Term.freeVariables (.var v : Node) ↔ x = v.name ∧ x.isVariable = true := by
  simp [mem_freeVariables, Term.freeNames]

/-- A leaf that is no free variable has no part in an assignment. -/
theorem matched_fixed {c : Correspondence} {v : Atom Nat} {target : Node} {s : Assignment}
    (hv : (v.name.isConstant || c.binds v.name) = true)
    (h : resolve (c.map (·.1)) v.name = target.namelessIn (c.map (·.2))) :
    Matched c (.var v) target s s := by
  refine ⟨.refl _, ?_, id, ?_⟩
  · intro x
    constructor
    · exact .inl
    · rintro (hx | ⟨hx, hc⟩)
      · exact hx
      · obtain ⟨rfl, hvar⟩ := mem_freeVariables_var.1 hx
        rw [Bool.or_eq_true, binds_iff] at hv
        simp [Name.isConstant, hvar, hc] at hv
  · intro hs
    refine Eq.trans (resolve_subst_fixed hv ?_) h
    intro x hx
    rw [Assignment.images_eq, hs.get?_eq_none hx]
    rfl

/-- A free variable gets one node, a target without bound names. -/
theorem matched_variable {c : Correspondence} {v : Atom Nat} {target : Node} {s t : Assignment}
    (hvar : v.name.isVariable = true) (hc : v.name ∉ c.map (·.1))
    (hclosed : ∀ x ∈ target.freeNames, x ∉ c.map (·.2)) (hext : s.Extends t)
    (hnames : ∀ x, x ≠ v.name → t.get? x = s.get? x)
    (hnodup : (s.entries.map Prod.fst).Nodup → (t.entries.map Prod.fst).Nodup) {m : Node}
    (hget : t.get? v.name = some m) (hm : m.nameless = target.nameless) :
    Matched c (.var v) target s t := by
  refine ⟨hext, ?_, hnodup, ?_⟩
  · intro x
    by_cases hxv : x = v.name
    · subst hxv
      simp [hget, mem_freeVariables_var.2 ⟨rfl, hvar⟩, hc]
    · simp [hnames x hxv, mem_freeVariables_var, hxv]
  · intro hs
    show (resolve _ v.name).subst _ = _
    rw [resolve_of_not_mem hc, Nameless.subst, Assignment.images_eq, hget,
      Term.namelessIn_eq_nameless hclosed, ← hm]
    rfl

/-- **An assignment that is found** extends the given one as `Matched` says, by induction on the
schema. -/
theorem matchIn?_sound {c : Correspondence} {schema target : Node} {s t : Assignment}
    (h : matchIn? c schema target s = some t) : Matched c schema target s t := by
  induction schema generalizing c target s t with
  | var v =>
    cases hv : v.name.isConstant || c.binds v.name with
    | true =>
      obtain ⟨rfl, heq⟩ := (matchIn?_fixed hv).1 h
      exact matched_fixed hv heq
    | false =>
      obtain ⟨hclosed, hcase⟩ := (matchIn?_variable hv).1 h
      obtain ⟨hvar, hc⟩ := variable_of_not_fixed hv
      rcases hcase with ⟨m, hget, hm, rfl⟩ | ⟨hnone, rfl⟩
      · exact matched_variable hvar hc hclosed (.refl _) (fun _ _ => rfl) id hget hm
      · exact matched_variable hvar hc hclosed (Assignment.extends_insert s v.name target)
          (fun x hx => Assignment.get?_insert_of_ne target hx)
          (fun hs => Assignment.insert_nodup hs ..) (Assignment.get?_insert_self target hnone) rfl
  | app tag f x ihf ihx =>
    obtain ⟨tag', g, y, r, rfl, hf, hx⟩ := matchIn?_app.1 h
    have hf := ihf hf
    have hx := ihx hx
    refine ⟨hf.ext.trans hx.ext, ?_, fun hs => hx.nodup (hf.nodup hs), ?_⟩
    · intro z
      rw [hx.names, hf.names, or_assoc, ← or_and_right]
      simp [mem_freeVariables, Term.freeNames, or_and_right]
    · intro hs
      have hr := hf.onVariables hs
      exact congrArg₂ Nameless.app (hf.instance_mono hs hx.ext (hx.onVariables hr))
        (hx.instance_eq hr)
  | abs tag a body ih =>
    obtain ⟨tag', b, body', rfl, hbody⟩ := matchIn?_abs.1 h
    have hbody := ih hbody
    refine ⟨hbody.ext, fun x => ?_, hbody.nodup,
      fun hs => congrArg Nameless.abs (hbody.instance_eq hs)⟩
    rw [hbody.names]
    simp only [mem_freeVariables, Term.freeNames, List.map_cons, List.mem_cons, not_or,
      List.mem_filter, decide_eq_true_eq]
    tauto

/-! ## If any terms make the schema the target, an assignment is found -/

/-- The nodes of an assignment are those of the terms, up to the names of binders. -/
def Agrees (s : Assignment) (θ : Name → Node) : Prop :=
  ∀ x m, s.get? x = some m → m.nameless = (θ x).nameless

theorem matchIn?_complete {c : Correspondence} {schema target : Node} {s : Assignment}
    {θ : Name → Node} (hs : Agrees s θ)
    (h : (schema.namelessIn (c.map (·.1))).subst (variableImages θ) =
      target.namelessIn (c.map (·.2))) :
    ∃ t, matchIn? c schema target s = some t ∧ Agrees t θ := by
  induction schema generalizing c target s with
  | var v =>
    cases hv : v.name.isConstant || c.binds v.name with
    | true =>
      refine ⟨s, (matchIn?_fixed hv).2 ⟨rfl, ?_⟩, hs⟩
      exact (resolve_subst_fixed hv fun x hx => by simp [variableImages, hx]).symm.trans h
    | false =>
      obtain ⟨hvar, hc⟩ := variable_of_not_fixed hv
      have himage : (θ v.name).nameless = target.namelessIn (c.map (·.2)) := by
        rw [← h, Term.namelessIn, resolve_of_not_mem hc]
        simp [Nameless.subst, variableImages, hvar]
      -- what a variable stands for has no name that is bound around it
      have hclosed := Term.namelessIn_closed himage.symm
      rw [Term.namelessIn_eq_nameless hclosed] at himage
      cases hget : s.get? v.name with
      | some m =>
        exact ⟨s,
          (matchIn?_variable hv).2 ⟨hclosed, .inl ⟨m, hget, (hs _ _ hget).trans himage, rfl⟩⟩,
          hs⟩
      | none =>
        refine ⟨_, (matchIn?_variable hv).2 ⟨hclosed, .inr ⟨hget, rfl⟩⟩, ?_⟩
        intro x m hx
        by_cases hxv : x = v.name
        · subst hxv
          rw [Assignment.get?_insert_self target hget] at hx
          cases hx
          exact himage.symm
        · rw [Assignment.get?_insert_of_ne target hxv] at hx
          exact hs x m hx
  | app tag f x ihf ihx =>
    obtain ⟨tag', g, y, rfl, hf, hx⟩ := Term.eq_app_of_namelessIn h.symm
    obtain ⟨r, hr, hagree⟩ := ihf hs hf.symm
    obtain ⟨t, ht, hagree⟩ := ihx hagree hx.symm
    exact ⟨t, matchIn?_app.2 ⟨tag', g, y, r, rfl, hr, ht⟩, hagree⟩
  | abs tag a body ih =>
    obtain ⟨tag', b, body', rfl, hbody⟩ := Term.eq_abs_of_namelessIn h.symm
    obtain ⟨t, ht, hagree⟩ := ih (c := (a.name, b.name) :: c) hs hbody.symm
    exact ⟨t, matchIn?_abs.2 ⟨tag', b, body', rfl, ht⟩, hagree⟩

/-! ## Whole schemas -/

theorem matchSchema?_sound {schema target : Node} {s : Assignment}
    (h : matchSchema? schema target = some s) : Matched [] schema target .empty s :=
  matchIn?_sound h

theorem onVariables_empty : Assignment.empty.OnVariables := by
  intro x hx
  simp [Assignment.get?, Assignment.empty] at hx

/-- **Matching a schema.** An assignment is found exactly if some terms for the variables of the
schema make it the target. It has a node for exactly the free variables of the schema, instantiating
the schema with it gives the target whatever the fresh names, and it agrees with all such terms. -/
theorem matchSchema?_most_general (schema target : Node) :
    ((matchSchema? schema target).isSome ↔ ∃ θ, IsInstance schema target θ) ∧
      ∀ s, matchSchema? schema target = some s →
        (s.entries.map Prod.fst).Nodup ∧
        (∀ x, (s.get? x).isSome ↔ x ∈ schema.freeVariables) ∧
        (∀ names nodes, (s.instantiate names schema nodes).1.1.alike target = true) ∧
        ∀ θ, IsInstance schema target θ →
          ∀ x m, s.get? x = some m → m.alike (θ x) = true := by
  have hcomplete : ∀ θ, IsInstance schema target θ →
      ∃ s, matchSchema? schema target = some s ∧ Agrees s θ := by
    intro θ hθ
    refine matchIn?_complete (c := []) ?_ hθ
    intro x m hx
    simp [Assignment.get?, Assignment.empty] at hx
  refine ⟨⟨?_, fun ⟨θ, hθ⟩ => ?_⟩, ?_⟩
  · intro h
    obtain ⟨s, hs⟩ := Option.isSome_iff_exists.1 h
    have hm := matchSchema?_sound hs
    refine ⟨fun x => (s.get? x).getD (.var ⟨0, x, none⟩), ?_⟩
    refine Eq.trans (Nameless.subst_congr fun x hx => ?_) (hm.instance_eq onVariables_empty)
    have hfree : x ∈ schema.freeNames := Term.mem_freeNames_nameless.1 hx
    rw [Assignment.images_eq, variableImages]
    cases hv : x.isVariable with
    | true =>
      have hsome : (s.get? x).isSome := by
        rw [hm.names]
        exact .inr ⟨mem_freeVariables.2 ⟨hfree, hv⟩, by simp⟩
      obtain ⟨m, hget⟩ := Option.isSome_iff_exists.1 hsome
      simp [hget]
    | false => simp [(hm.onVariables onVariables_empty).get?_eq_none hv]
  · obtain ⟨s, hs, -⟩ := hcomplete θ hθ
    simp [hs]
  · intro s hs
    have hm := matchSchema?_sound hs
    have hnodup := hm.nodup (by simp [Assignment.empty])
    refine ⟨hnodup, fun x => ?_, fun names nodes => ?_, fun θ hθ x m hx => ?_⟩
    · rw [hm.names]
      simp [Assignment.get?, Assignment.empty]
    · rw [Term.alike_iff, Assignment.instantiate, Substitution.nameless_apply hnodup]
      exact hm.instance_eq onVariables_empty
    · obtain ⟨s', hs', hagree⟩ := hcomplete θ hθ
      rw [hs] at hs'
      cases hs'
      exact Term.alike_iff.2 (hagree x m hx)

end Node

end ProofKernel
