import ProofKernel.Proofs.Sharing

/-!
# Renaming binders ahead of a substitution

Renaming binders from the outside in, before anything is put in, does the same as renaming them from
the inside out while something is put in.

* `Term.binderNames`: the names of the binders of a term;
* `Opens`, `Follows`: what is so of the scope of new binders during the run;
* `Decaptured`, `Node.decapture?_spec`: what each call of the run achieves;
* `Node.decapture?_eq_none`, `Substitution.draft?_state`: without a binder of a captured name nothing
  is renamed;
* `Node.decapture_prepares`: what is renamed is alike, captures nothing, and can then be substituted in
  without renaming.
-/

namespace ProofKernel

/-! ## The names of binders -/

namespace Term

variable {ι : Type}

/-- The names of the binders. -/
def binderNames : Term ι → List Name
  | .var _ => []
  | .app _ f x => f.binderNames ++ x.binderNames
  | .abs _ b body => b.name :: body.binderNames

theorem mem_binderNames_of_locate {m body : Term ι} {p : Path} {t : ι} {b : Atom ι}
    (h : m.locate p = .ok (.abs t b body)) : b.name ∈ m.binderNames := by
  induction m generalizing p with
  | var a => exact nomatch (locate_var h).2
  | app t' f x ihf ihx =>
    rcases locate_app h with ⟨-, heq⟩ | ⟨q, -, hq⟩ | ⟨q, -, hq⟩
    · cases heq
    · exact List.mem_append_left _ (ihf hq)
    · exact List.mem_append_right _ (ihx hq)
  | abs t' c body' ih =>
    rcases locate_abs h with ⟨-, heq⟩ | ⟨-, heq⟩ | ⟨q, -, hq⟩
    · cases heq
      exact List.mem_cons_self
    · cases heq
    · exact List.mem_cons_of_mem _ (ih hq)

end Term

namespace Draft

/-- The names of the binders of a draft. -/
def binderNames : Draft → List Name
  | .keep m => m.binderNames
  | .slot m => m.binderNames
  | .app f x => f.binderNames ++ x.binderNames
  | .abs b d => b.name :: d.binderNames

theorem build_binderNames (d : Draft) (nodes : Nat) :
    (d.build nodes).1.binderNames = d.binderNames := by
  induction d generalizing nodes with
  | keep m => rfl
  | slot m => rfl
  | app f x ihf ihx =>
    show (f.build nodes).1.binderNames ++ (x.build (f.build nodes).2).1.binderNames = _
    rw [ihf, ihx]
    rfl
  | abs b d ih =>
    show b.name :: (d.build nodes).1.binderNames = _
    rw [ih]
    rfl

theorem call?_binderNames (tag : Nat) (f x : Node) (f' x' : Option Draft) :
    ((call? f x f' x').getD (.keep (.app tag f x))).binderNames =
      (f'.getD (.keep f)).binderNames ++ (x'.getD (.keep x)).binderNames := by
  cases f' <;> cases x' <;> rfl

theorem abs?_binderNames (tag : Nat) (b : Atom Nat) (body : Node) (body' : Option Draft) :
    ((body'.map (Draft.abs b)).getD (.keep (.abs tag b body))).binderNames =
      b.name :: (body'.getD (.keep body)).binderNames := by
  cases body' <;> rfl

end Draft

/-! ## Scopes of new binders -/

/-- The name of the new binder of a name, or the name itself. -/
def newName (scope : Scope (Atom Nat)) (x : Name) : Name :=
  ((scope.lookup? x).map (·.name)).getD x

/-- The new binders in a scope are those of captured names. Their names are in use, but are none of
the names `N` of before. -/
def Opens (captured N used : List Name) (scope : Scope (Atom Nat)) : Prop :=
  ∀ x z, scope.lookup? x = some z → x ∈ captured ∧ z.name ∈ used ∧ z.name ∉ N

/-- Scopes that say the same of each name of before, with new binders in the first one. -/
def Follows (N : List Name) (scope : Scope (Atom Nat)) (Γ Δ : List Name) : Prop :=
  ∀ x ∈ N, resolve Γ (newName scope x) = resolve Δ x

section Scopes

variable {captured N used used' : List Name} {scope : Scope (Atom Nat)} {b : Name} {z : Atom Nat}
  {x : Name} {Γ Δ : List Name}

theorem newName_cons_self : newName ((b, z) :: scope) b = z.name := by
  rw [newName, Scope.lookup?_cons, if_pos rfl]
  rfl

theorem newName_cons_of_ne (h : x ≠ b) : newName ((b, z) :: scope) x = newName scope x := by
  rw [newName, Scope.lookup?_cons, if_neg (Ne.symm h), newName]

/-- A name that is not captured has no new binder. -/
theorem Opens.newName_eq (h : Opens captured N used scope) (hx : x ∉ captured) :
    newName scope x = x := by
  rw [newName]
  cases hget : scope.lookup? x with
  | none => rfl
  | some z => exact absurd (h x z hget).1 hx

/-- The names after renaming are those of before, and names in use that are none of them. -/
theorem Opens.newName_cases (h : Opens captured N used scope) (x : Name) :
    newName scope x = x ∨ newName scope x ∈ used ∧ newName scope x ∉ N := by
  rw [newName]
  cases hget : scope.lookup? x with
  | none => exact .inl rfl
  | some z => exact .inr (h x z hget).2

theorem Opens.mono (h : Opens captured N used scope) (hle : used ⊆ used') :
    Opens captured N used' scope :=
  fun x z hget => ⟨(h x z hget).1, hle (h x z hget).2.1, (h x z hget).2.2⟩

theorem Opens.cons (h : Opens captured N used scope) (hb : b ∈ captured) (hz : z.name ∉ N) :
    Opens captured N (z.name :: used) ((b, z) :: scope) := by
  intro x z' hget
  rw [Scope.lookup?_cons] at hget
  split at hget
  next heq =>
    cases hget
    exact ⟨heq ▸ hb, List.mem_cons_self, hz⟩
  next =>
    obtain ⟨hx, hused, hnew⟩ := h x z' hget
    exact ⟨hx, List.mem_cons_of_mem _ hused, hnew⟩

/-- Under a binder that gets a name that was not in use. -/
theorem Follows.cons_new (h : Follows N scope Γ Δ) (hscope : Opens captured N used scope)
    (hz : z.name ∉ used) (hN : N ⊆ used) :
    Follows N ((b, z) :: scope) (z.name :: Γ) (b :: Δ) := by
  intro x hx
  by_cases hxb : x = b
  · rw [hxb, newName_cons_self, resolve_cons_self, resolve_cons_self]
  · rw [newName_cons_of_ne hxb]
    have hne : z.name ≠ newName scope x := by
      rcases hscope.newName_cases x with heq | ⟨hused, -⟩
      · rw [heq]
        exact fun heq => hz (heq ▸ hN hx)
      · exact fun heq => hz (heq ▸ hused)
    exact resolve_cons_congr (iff_of_false hne (Ne.symm hxb)) (h x hx)

/-- Under a binder that stays, since its name is not captured. -/
theorem Follows.cons_kept (h : Follows N scope Γ Δ) (hscope : Opens captured N used scope)
    (hb : b ∉ captured) (hbN : b ∈ N) : Follows N scope (b :: Γ) (b :: Δ) := by
  intro x hx
  by_cases hxb : x = b
  · rw [hxb, hscope.newName_eq hb, resolve_cons_self, resolve_cons_self]
  · have hne : b ≠ newName scope x := by
      rcases hscope.newName_cases x with heq | ⟨-, hnew⟩
      · rw [heq]
        exact Ne.symm hxb
      · exact fun heq => hnew (heq ▸ hbN)
    exact resolve_cons_congr (iff_of_false hne (Ne.symm hxb)) (h x hx)

end Scopes

/-! ## The run -/

/-- What renaming the binders of captured names achieves, from some names in use to others: the
draft is the term, with new binders in the scope around it; nothing is put in; and no binder of the
draft has a captured name. -/
structure Decaptured (captured N : List Name) (m : Node) (scope : Scope (Atom Nat))
    (used : List Name) (d : Draft) (used' : List Name) : Prop where
  nameless : ∀ Γ Δ, Follows N scope Γ Δ → d.namelessIn Γ = m.namelessIn Δ
  clear : ∀ Γ, d.Clear Γ
  binders : ∀ x ∈ d.binderNames, x ∉ captured
  grows : used ⊆ used'

namespace Node

variable {captured N : List Name} {m : Node} {scope : Scope (Atom Nat)} {s : Naming}

theorem decapture?_abs (t : Nat) (b : Atom Nat) (body : Node) :
    decapture? captured (.abs t b body) scope s =
      if captured.contains b.name then
        let fresh := freshAtom b.name s
        let run := decapture? captured body ((b.name, fresh.1) :: scope) fresh.2
        (some (.abs fresh.1 (run.1.getD (.keep body))), run.2)
      else
        let run := decapture? captured body scope s
        (run.1.map (.abs b), run.2) := by
  rw [decapture?]
  split <;> rfl

/-- **What the run achieves**, by induction on the term: a new binder has a name that nothing else
has, and a binder that stays has a name that no new binder stands for. -/
theorem decapture?_spec (hcap : captured ⊆ N) (hm : m.allNames ⊆ N) (hs : N ⊆ s.used)
    (hscope : Opens captured N s.used scope) :
    Decaptured captured N m scope s.used ((decapture? captured m scope s).1.getD (.keep m))
      (decapture? captured m scope s).2.used := by
  induction m generalizing scope s with
  | var a =>
    have ha : a.name ∈ N := hm List.mem_cons_self
    show Decaptured captured N (.var a) scope s.used
      (((scope.lookup? a.name).map fun b => .keep (.var b)).getD (.keep (.var a))) s.used
    cases hget : scope.lookup? a.name with
    | none =>
      refine ⟨fun Γ Δ hΓ => ?_, fun _ => trivial, nofun, List.Subset.refl _⟩
      have hsame := hΓ a.name ha
      rw [newName, hget] at hsame
      exact hsame
    | some z =>
      refine ⟨fun Γ Δ hΓ => ?_, fun _ => trivial, nofun, List.Subset.refl _⟩
      have hsame := hΓ a.name ha
      rw [newName, hget] at hsame
      exact hsame
  | app t f x ihf ihx =>
    obtain ⟨hmf, hmx⟩ := List.append_subset.1 hm
    have hf := ihf hmf hs hscope
    have hx := ihx hmx (List.Subset.trans hs hf.grows) (hscope.mono hf.grows)
    refine ⟨fun Γ Δ hΓ => ?_, fun Γ => ?_, ?_, List.Subset.trans hf.grows hx.grows⟩
    · show ((Draft.call? f x _ _).getD (.keep (.app t f x))).namelessIn Γ = _
      rw [Draft.call?_nameless, hf.nameless Γ Δ hΓ, hx.nameless Γ Δ hΓ]
      rfl
    · exact (Draft.call?_clear ..).2 ⟨hf.clear Γ, hx.clear Γ⟩
    · show ∀ y ∈ ((Draft.call? f x _ _).getD (.keep (.app t f x))).binderNames, y ∉ captured
      rw [Draft.call?_binderNames]
      exact List.forall_mem_append.2 ⟨hf.binders, hx.binders⟩
  | abs t b body ih =>
    obtain ⟨hb, hbody⟩ := List.cons_subset.1 hm
    rw [decapture?_abs]
    split
    next hmem =>
      have hmem : b.name ∈ captured := by simpa using hmem
      have hnew : (freshAtom b.name s).1.name ∉ s.used := s.names.fresh_not_mem b.name s.used
      have hnewN : (freshAtom b.name s).1.name ∉ N := fun h => hnew (hs h)
      have hr := ih (s := (freshAtom b.name s).2) hbody
        (fun x hx => List.mem_cons_of_mem _ (hs hx)) (hscope.cons hmem hnewN)
      refine ⟨fun Γ Δ hΓ => ?_, fun Γ => hr.clear _, ?_,
        fun x hx => hr.grows (List.mem_cons_of_mem _ hx)⟩
      · exact congrArg Nameless.abs (hr.nameless _ _ (hΓ.cons_new hscope hnew hs))
      · exact List.forall_mem_cons.2 ⟨fun h => hnewN (hcap h), hr.binders⟩
    next hmem =>
      have hmem : b.name ∉ captured := by simpa using hmem
      have hr := ih hbody hs hscope
      refine ⟨fun Γ Δ hΓ => ?_, fun Γ => ?_, ?_, hr.grows⟩
      · rw [Draft.abs?_nameless]
        exact congrArg Nameless.abs (hr.nameless _ _ (hΓ.cons_kept hscope hmem hb))
      · exact (Draft.abs?_clear ..).2 (hr.clear _)
      · rw [Draft.abs?_binderNames]
        exact List.forall_mem_cons.2 ⟨hmem, hr.binders⟩

/-- Without a binder of a captured name nothing is renamed, and no name is drawn. -/
theorem decapture?_eq_none (h : ∀ x ∈ m.binderNames, x ∉ captured) :
    decapture? captured m [] s = (none, s) := by
  induction m generalizing s with
  | var a => rfl
  | app t f x ihf ihx =>
    obtain ⟨hf, hx⟩ := List.forall_mem_append.1 h
    rw [decapture?]
    simp only [bind, StateT.bind, ihf hf, ihx hx]
    rfl
  | abs t b body ih =>
    obtain ⟨hb, hbody⟩ := List.forall_mem_cons.1 h
    rw [decapture?_abs, if_neg (by simpa using hb), ih hbody]
    rfl

end Node

/-- Substituting draws no name where no binder has a captured name. -/
theorem Substitution.draft?_state {captured : List Name} {m : Node} {σ : Substitution} {s : Naming}
    (h : ∀ x ∈ m.binderNames, x ∉ captured) : (draft? captured m σ s).2 = s := by
  induction m generalizing σ s with
  | var a => rfl
  | app t f x ihf ihx =>
    obtain ⟨hf, hx⟩ := List.forall_mem_append.1 h
    rw [draft?_app]
    simp only
    rw [ihx hx, ihf hf]
  | abs t b body ih =>
    obtain ⟨hb, hbody⟩ := List.forall_mem_cons.1 h
    have hrun := ih (σ := σ.filter fun entry => entry.1 ≠ b.name) (s := s) hbody
    rw [draft?_abs]
    rcases hd : draft? captured body (σ.filter fun entry => entry.1 ≠ b.name) s with ⟨_ | d, s'⟩
    · rw [hd] at hrun
      exact hrun
    · rw [hd] at hrun
      simp only
      rw [if_neg (by simpa using hb)]
      exact hrun

/-! ## Renaming, then substituting -/

namespace Node

variable (replacement : Node) (names : NameSupply) (target : Node) (nodes : Nat)

/-- The term with its new binders is alike, and none of its binders has a captured name. -/
theorem decapture_avoids :
    (decapture replacement names target nodes).1.1.nameless = target.nameless ∧
      ∀ x ∈ (decapture replacement names target nodes).1.1.binderNames,
        x ∉ replacement.freeNames := by
  have hcap : replacement.freeNames ⊆ target.allNames ++ replacement.allNames :=
    fun x hx => List.mem_append_right _ (Term.mem_allNames_of_mem_freeNames hx)
  have hstart : Opens replacement.freeNames (target.allNames ++ replacement.allNames)
      (target.allNames ++ replacement.allNames) [] := nofun
  have hr := decapture?_spec (s := ⟨target.allNames ++ replacement.allNames, names, nodes⟩) hcap
    (List.subset_append_left target.allNames _) (List.Subset.refl _) hstart
  constructor
  · show (Draft.buildOr target _ _).1.namelessIn [] = _
    rw [Draft.buildOr_eq, Draft.build_nameless (hr.clear [])]
    exact hr.nameless [] [] fun x _ => rfl
  · show ∀ x ∈ (Draft.buildOr target _ _).1.binderNames, _
    rw [Draft.buildOr_eq, Draft.build_binderNames]
    exact hr.binders

variable {replacement target}

/-- A term without a binder of a captured name is given back. -/
theorem decapture_eq_self (h : ∀ x ∈ target.binderNames, x ∉ replacement.freeNames) :
    decapture replacement names target nodes = ((target, names), nodes) := by
  unfold decapture Rename.build
  simp only [StateT.run, decapture?_eq_none h]
  rfl

end Node

namespace Substitution

variable {replacement m : Node}

theorem active_freeNames_subset (name : Name) (replacement : Node) :
    (active [(name, replacement)]).freeNames ⊆ replacement.freeNames := by
  intro x hx
  obtain ⟨y, n, ⟨hmem, -⟩, hx⟩ := captures_iff.2 hx
  cases List.mem_singleton.1 hmem
  exact hx

/-- **Where no binder has a captured name no binder is renamed**: no name is drawn, and each binder
is at its place in the result. -/
theorem apply_keeps_binders (h : ∀ x ∈ m.binderNames, x ∉ replacement.freeNames) (name : Name)
    (names : NameSupply) (nodes : Nat) :
    (apply [(name, replacement)] names m nodes).1.2 = names ∧
      ∀ q t b body, m.locate q = .ok (.abs t b body) →
        (apply [(name, replacement)] names m nodes).1.1.locate (q ++ [.bound]) = .ok (.var b) := by
  have hcalm : ∀ x ∈ m.binderNames, x ∉ (active [(name, replacement)]).freeNames :=
    fun x hx hmem => h x hx (active_freeNames_subset name replacement hmem)
  constructor
  · show (drafted [(name, replacement)] names m nodes).2.names = names
    rw [drafted, draft?_state hcalm]
  · intro q t b body hq
    have hshares := (apply_results [(name, replacement)] names m nodes).shares (by simp)
    refine hshares.kept (q ++ [.bound]) (.var b) (Term.locate_append hq [.bound]) ?_
    intro x hx htouch
    cases List.mem_singleton.1 hx
    rw [Touches, Term.binderOf?_bound hq] at htouch
    have hcaptures := ((hshares.renamed q t b body hq).1 htouch).1
    exact hcalm b.name (Term.mem_binderNames_of_locate hq) (captures_iff.1 hcaptures)

end Substitution

/-- **Renaming binders ahead of a substitution.** The term with its new binders is alike the target,
and no binder has a name that is free in the replacement; it is the target itself, and no name is
drawn, if no binder of the target has such a name. So the replacement can be put in for any name
without a binder being renamed: no name is drawn, each binder stays at its place, and the result is
alike what comes of the target. -/
theorem Node.decapture_prepares (replacement : Node) (names : NameSupply) (target : Node) (nodes : Nat) :
    let r := (decapture replacement names target nodes).1
    r.1.alike target = true ∧ (∀ x ∈ r.1.binderNames, x ∉ replacement.freeNames) ∧
      ((∀ x ∈ target.binderNames, x ∉ replacement.freeNames) → r = (target, names)) ∧
      ∀ (name : Name) (names' : NameSupply) (nodes' : Nat),
        let r' := (Substitution.apply [(name, replacement)] names' r.1 nodes').1
        r'.2 = names' ∧
          (∀ q t b body, r.1.locate q = .ok (.abs t b body) →
            r'.1.locate (q ++ [.bound]) = .ok (.var b)) ∧
          ∀ (names'' : NameSupply) (nodes'' : Nat), r'.1.alike
            (Substitution.apply [(name, replacement)] names'' target nodes'').1.1 = true := by
  obtain ⟨hnameless, havoid⟩ := decapture_avoids replacement names target nodes
  refine ⟨Term.alike_iff.2 hnameless, havoid, fun h => ?_, fun name names' nodes' => ?_⟩
  · rw [decapture_eq_self names nodes h]
  · obtain ⟨hnames, hbinders⟩ := Substitution.apply_keeps_binders havoid name names' nodes'
    refine ⟨hnames, hbinders, fun names'' nodes'' => ?_⟩
    rw [Term.alike_iff, Substitution.nameless_apply (by simp), Substitution.nameless_apply (by simp),
      hnameless]

example :
    let y : Atom Nat := ⟨0, "y", none⟩
    let target : Node := .abs 3 y (.app 2 (.var ⟨1, "x", none⟩) (.var y))
    (Node.decapture (.var ⟨4, "y", none⟩) .start target 5).1.1.binderNames = ["y_1"] := by decide

end ProofKernel
