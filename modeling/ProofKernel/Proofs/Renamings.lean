import Mathlib.Data.List.Nodup
import ProofKernel.Proofs.Matching

/-!
# Renamings of variables

* `Nameless.rename`: the renaming of the free names of a nameless term;
* `Node.RenamesTo`: an injective renaming of the variables of a term that makes it another one; such
  renamings have inverses and can be composed;
* `Node.matchRenaming?_isSome_iff`: matching finds a renaming exactly if there is one;
* `Node.matchRenaming?_equivalence`: so having one is an equivalence, and what is found is one.
-/

namespace ProofKernel

/-! ## Renaming free names -/

namespace Nameless

/-- The term with other free names. -/
def rename (ρ : Name → Name) : Nameless → Nameless
  | .free x => .free (ρ x)
  | .bound k => .bound k
  | .app f x => .app (f.rename ρ) (x.rename ρ)
  | .abs body => .abs (body.rename ρ)

theorem freeNames_rename (ρ : Name → Name) (t : Nameless) :
    (t.rename ρ).freeNames = t.freeNames.map ρ := by
  induction t with
  | free x => rfl
  | bound k => rfl
  | app f x ihf ihx => simp [rename, freeNames, ihf, ihx]
  | abs body ih => exact ih

theorem rename_rename (ρ τ : Name → Name) (t : Nameless) :
    (t.rename ρ).rename τ = t.rename (τ ∘ ρ) := by
  induction t with
  | free x => rfl
  | bound k => rfl
  | app f x ihf ihx => simp [rename, ihf, ihx]
  | abs body ih => simp [rename, ih]

theorem subst_free (ρ : Name → Name) (t : Nameless) :
    t.subst (fun x => some (.free (ρ x))) = t.rename ρ := by
  induction t with
  | free x => rfl
  | bound k => rfl
  | app f x ihf ihx => rw [subst, rename, ihf, ihx]
  | abs body ih => rw [subst, rename, ih]

/-- Putting in names for names is renaming. -/
theorem subst_eq_rename {θ : Name → Option Nameless} {ρ : Name → Name} {t : Nameless}
    (h : ∀ x ∈ t.freeNames, (θ x).getD (.free x) = .free (ρ x)) : t.subst θ = t.rename ρ :=
  (subst_congr h).trans (subst_free ρ t)

theorem rename_eq_self {ρ : Name → Name} {t : Nameless} (h : ∀ x ∈ t.freeNames, ρ x = x) :
    t.rename ρ = t := by
  rw [← subst_free]
  exact subst_eq_self fun x hx => congrArg Nameless.free (h x hx)

end Nameless

namespace Node

/-! ## Renamings that make a term another one -/

/-- The renaming sends the free variables of the first term to variables, no two to the same one,
keeps all constants, and makes the first term the second, up to the names of binders. -/
structure RenamesTo (m : Node) (ρ : Name → Name) (n : Node) : Prop where
  isVariable : ∀ x ∈ m.freeVariables, (ρ x).isVariable = true
  injective : ∀ x ∈ m.freeVariables, ∀ y ∈ m.freeVariables, ρ x = ρ y → x = y
  constant : ∀ x, x.isVariable = false → ρ x = x
  nameless : m.nameless.rename ρ = n.nameless

variable {m n o : Node} {ρ τ : Name → Name}

theorem RenamesTo.refl (m : Node) : m.RenamesTo id m where
  isVariable _ hx := (mem_freeVariables.1 hx).2
  injective _ _ _ _ h := h
  constant _ _ := rfl
  nameless := Nameless.rename_eq_self fun _ _ => rfl

/-- The free variables of the second term are those that the first one's are sent to. -/
theorem RenamesTo.mem_freeVariables (h : m.RenamesTo ρ n) {y : Name} :
    y ∈ n.freeVariables ↔ ∃ x ∈ m.freeVariables, ρ x = y := by
  rw [Node.mem_freeVariables, ← Term.mem_freeNames_nameless, ← h.nameless,
    Nameless.freeNames_rename, List.mem_map]
  constructor
  · rintro ⟨⟨x, hx, rfl⟩, hy⟩
    rw [Term.mem_freeNames_nameless] at hx
    cases hv : x.isVariable with
    | true => exact ⟨x, Node.mem_freeVariables.2 ⟨hx, hv⟩, rfl⟩
    | false => rw [h.constant x hv, hv] at hy; cases hy
  · rintro ⟨x, hx, rfl⟩
    exact ⟨⟨x, Term.mem_freeNames_nameless.2 (Node.mem_freeVariables.1 hx).1, rfl⟩,
      h.isVariable x hx⟩

theorem RenamesTo.trans (h : m.RenamesTo ρ n) (h' : n.RenamesTo τ o) : m.RenamesTo (τ ∘ ρ) o where
  isVariable x hx := h'.isVariable _ (h.mem_freeVariables.2 ⟨x, hx, rfl⟩)
  injective x hx y hy hxy := by
    have hx' := h.mem_freeVariables.2 ⟨x, hx, rfl⟩
    have hy' := h.mem_freeVariables.2 ⟨y, hy, rfl⟩
    exact h.injective x hx y hy (h'.injective _ hx' _ hy' hxy)
  constant x hx := by
    show τ (ρ x) = x
    rw [h.constant x hx, h'.constant x hx]
  nameless := by rw [← Nameless.rename_rename, h.nameless, h'.nameless]

/-- The variable of a term that a renaming sends to a name; the name itself, if there is none. -/
def preimage (m : Node) (ρ : Name → Name) (y : Name) : Name :=
  (m.freeVariables.find? fun x => ρ x = y).getD y

theorem RenamesTo.preimage_image (h : m.RenamesTo ρ n) {x : Name} (hx : x ∈ m.freeVariables) :
    m.preimage ρ (ρ x) = x := by
  unfold preimage
  cases hfind : m.freeVariables.find? fun z => ρ z = ρ x with
  | none => simpa using List.find?_eq_none.1 hfind x hx
  | some z =>
    have hz := List.mem_of_find?_eq_some hfind
    exact h.injective z hz x hx (by simpa using List.find?_some hfind)

theorem RenamesTo.preimage_constant (h : m.RenamesTo ρ n) {x : Name} (hx : x.isVariable = false) :
    m.preimage ρ x = x := by
  have hnone : (m.freeVariables.find? fun z => ρ z = x) = none := by
    refine List.find?_eq_none.2 fun z hz hzx => ?_
    have hz := h.isVariable z hz
    rw [of_decide_eq_true hzx, hx] at hz
    cases hz
  rw [preimage, hnone, Option.getD_none]

theorem RenamesTo.symm (h : m.RenamesTo ρ n) : n.RenamesTo (m.preimage ρ) m where
  isVariable y hy := by
    obtain ⟨x, hx, rfl⟩ := h.mem_freeVariables.1 hy
    rw [h.preimage_image hx]
    exact (Node.mem_freeVariables.1 hx).2
  injective y hy z hz hyz := by
    obtain ⟨x, hx, rfl⟩ := h.mem_freeVariables.1 hy
    obtain ⟨x', hx', rfl⟩ := h.mem_freeVariables.1 hz
    rw [h.preimage_image hx, h.preimage_image hx'] at hyz
    rw [hyz]
  constant _ hx := h.preimage_constant hx
  nameless := by
    rw [← h.nameless, Nameless.rename_rename]
    refine Nameless.rename_eq_self fun x hx => ?_
    have hfree : x ∈ m.freeNames := Term.mem_freeNames_nameless.1 hx
    show m.preimage ρ (ρ x) = x
    cases hv : x.isVariable with
    | true => exact h.preimage_image (Node.mem_freeVariables.2 ⟨hfree, hv⟩)
    | false => rw [h.constant x hv, h.preimage_constant hv]

/-! ## Renamings that are found -/

theorem matchRenaming?_eq_some_iff {s : Assignment} :
    m.matchRenaming? n = some s ↔
      m.matchSchema? n = some s ∧ isRenaming (s.entries.map (·.2)) = true := by
  simp [matchRenaming?, Option.filter_eq_some_iff]

/-- The nodes of an assignment are a renaming if they are variables, those of different names with
different names. -/
theorem isRenaming_iff {s : Assignment} (hnodup : (s.entries.map Prod.fst).Nodup) :
    isRenaming (s.entries.map (·.2)) = true ↔
      (∀ x r, s.get? x = some r → r.isVariable = true) ∧
        ∀ x y r r', s.get? x = some r → s.get? y = some r' → r.name? = r'.name? → x = y := by
  have hget : ∀ x r, s.get? x = some r ↔ (x, r) ∈ s.entries :=
    fun x r => ⟨Scope.mem_of_lookup?, Scope.lookup?_of_mem hnodup⟩
  simp only [hget, isRenaming, Bool.and_eq_true, List.all_eq_true, decide_eq_true_eq, List.map_map]
  refine and_congr ?_ ⟨fun h x y r r' hx hy hname => ?_, fun h => ?_⟩
  · constructor
    · intro h x r hx
      exact h r (List.mem_map.2 ⟨_, hx, rfl⟩)
    · intro h r hr
      obtain ⟨entry, hentry, rfl⟩ := List.mem_map.1 hr
      exact h entry.1 entry.2 hentry
  · exact congrArg Prod.fst (List.inj_on_of_nodup_map h hx hy hname)
  · refine List.Nodup.map_on (fun entry he entry' he' hname => ?_) (List.Nodup.of_map _ hnodup)
    have hkeys := h entry.1 entry'.1 entry.2 entry'.2 he he' hname
    exact List.inj_on_of_nodup_map hnodup he he' hkeys

theorem eq_var_of_isVariable {r : Node} (h : r.isVariable = true) :
    ∃ v : Atom Nat, r = .var v ∧ v.name.isVariable = true := by
  cases r with
  | var v => exact ⟨v, rfl, h⟩
  | app t f x => cases h
  | abs t b body => cases h

/-- A term whose nameless form is a free name is a leaf of that name. -/
theorem eq_var_of_nameless {r : Node} {x : Name} (h : r.nameless = .free x) :
    ∃ v : Atom Nat, r = .var v ∧ v.name = x := by
  cases r with
  | var v => exact ⟨v, rfl, by simpa [Term.nameless, Term.namelessIn] using h⟩
  | app t f y => simp [Term.nameless, Term.namelessIn] at h
  | abs t b body => simp [Term.nameless, Term.namelessIn] at h

/-- The names of the variables that an assignment has for names; other names stay. -/
def renamingOf (s : Assignment) (x : Name) : Name := ((s.get? x).bind Term.name?).getD x

/-- What is found is a renaming that makes the first term the second. -/
theorem renamesTo_of_matchRenaming? {s : Assignment} (h : m.matchRenaming? n = some s) :
    m.RenamesTo (renamingOf s) n := by
  obtain ⟨hs, hrenaming⟩ := matchRenaming?_eq_some_iff.1 h
  have hm := matchSchema?_sound hs
  have hon := hm.onVariables onVariables_empty
  obtain ⟨hvars, hinj⟩ := (isRenaming_iff (hm.nodup List.nodup_nil)).1 hrenaming
  have hget : ∀ x ∈ m.freeVariables,
      ∃ v, s.get? x = some (.var v) ∧ v.name.isVariable = true ∧ renamingOf s x = v.name := by
    intro x hx
    obtain ⟨r, hr⟩ := Option.isSome_iff_exists.1 ((hm.names x).2 (.inr ⟨hx, by simp⟩))
    obtain ⟨v, rfl, hv⟩ := eq_var_of_isVariable (hvars x r hr)
    exact ⟨v, hr, hv, by simp [renamingOf, hr, Term.name?]⟩
  have hconstant : ∀ x, x.isVariable = false → renamingOf s x = x := fun x hx => by
    simp [renamingOf, hon.get?_eq_none hx]
  refine ⟨fun x hx => ?_, fun x hx y hy hxy => ?_, hconstant, ?_⟩
  · obtain ⟨v, -, hv, hname⟩ := hget x hx
    rw [hname]
    exact hv
  · obtain ⟨v, hv, -, hname⟩ := hget x hx
    obtain ⟨w, hw, -, hname'⟩ := hget y hy
    rw [hname, hname'] at hxy
    exact hinj x y _ _ hv hw (congrArg some hxy)
  · rw [← Nameless.subst_eq_rename fun x hx => ?_]
    · exact hm.instance_eq onVariables_empty
    · have hfree : x ∈ m.freeNames := Term.mem_freeNames_nameless.1 hx
      cases hv : x.isVariable with
      | true =>
        obtain ⟨v, hr, -, hname⟩ := hget x (Node.mem_freeVariables.2 ⟨hfree, hv⟩)
        rw [Assignment.images_eq, hr, hname]
        rfl
      | false =>
        rw [Assignment.images_eq, hon.get?_eq_none hv, hconstant x hv]
        rfl

/-- If a renaming makes the first term the second, one is found. -/
theorem matchRenaming?_complete (h : m.RenamesTo ρ n) : (m.matchRenaming? n).isSome := by
  have hinstance : IsInstance m n (fun x => .var ⟨0, ρ x, none⟩) := by
    refine Eq.trans (Nameless.subst_eq_rename fun x hx => ?_) h.nameless
    cases hv : x.isVariable with
    | true => simp [variableImages, hv, Term.nameless, Term.namelessIn]
    | false => simp [variableImages, hv, h.constant x hv]
  obtain ⟨s, hs, hagree⟩ := matchIn?_complete (c := []) (s := .empty)
    (fun x r hr => by simp [Assignment.get?, Assignment.empty] at hr) hinstance
  have hm := matchSchema?_sound hs
  have hget : ∀ x r, s.get? x = some r →
      x ∈ m.freeVariables ∧ ∃ v, r = .var v ∧ v.name = ρ x := by
    intro x r hr
    have hx := (hm.names x).1 (by simp [hr])
    simp only [Assignment.get?, Assignment.empty, Scope.lookup?_nil, Option.isSome_none,
      Bool.false_eq_true, false_or] at hx
    exact ⟨hx.1, eq_var_of_nameless (hagree x r hr)⟩
  have hrenaming : isRenaming (s.entries.map (·.2)) = true := by
    refine (isRenaming_iff (hm.nodup List.nodup_nil)).2 ⟨fun x r hr => ?_, ?_⟩
    · obtain ⟨hx, v, rfl, hv⟩ := hget x r hr
      show v.name.isVariable = true
      rw [hv]
      exact h.isVariable x hx
    · intro x y r r' hr hr' hname
      obtain ⟨hx, v, rfl, hv⟩ := hget x r hr
      obtain ⟨hy, w, rfl, hw⟩ := hget y r' hr'
      exact h.injective x hx y hy (hv.symm.trans ((Option.some.inj hname).trans hw))
  have hsome : m.matchRenaming? n = some s := matchRenaming?_eq_some_iff.2 ⟨hs, hrenaming⟩
  rw [hsome]
  rfl

/-- A renaming is found exactly if there is one. -/
theorem matchRenaming?_isSome_iff : (m.matchRenaming? n).isSome ↔ ∃ ρ, m.RenamesTo ρ n := by
  constructor
  · intro h
    obtain ⟨s, hs⟩ := Option.isSome_iff_exists.1 h
    exact ⟨renamingOf s, renamesTo_of_matchRenaming? hs⟩
  · rintro ⟨ρ, h⟩
    exact matchRenaming?_complete h

/-- **Having a renaming of variables that makes one term the other is an equivalence.** What is found
has a variable for each free variable of the first term and for nothing else, no two of one name, and
instantiating the first term with it gives the second, whatever the fresh names. -/
theorem matchRenaming?_equivalence :
    Equivalence (fun m n : Node => (m.matchRenaming? n).isSome = true) ∧
      ∀ (m n : Node) (s : Assignment), m.matchRenaming? n = some s →
        (s.entries.map Prod.fst).Nodup ∧
        (∀ x, (s.get? x).isSome ↔ x ∈ m.freeVariables) ∧
        (∀ x r, s.get? x = some r → ∃ v : Atom Nat, r = .var v ∧ v.name.isVariable = true) ∧
        (∀ x y v w, s.get? x = some (.var v) → s.get? y = some (.var w) → v.name = w.name → x = y) ∧
        ∀ names nodes, (s.instantiate names m nodes).1.1.alike n = true := by
  refine ⟨⟨fun m => ?_, fun h => ?_, fun h h' => ?_⟩, fun m n s h => ?_⟩
  · exact matchRenaming?_complete (.refl m)
  · obtain ⟨ρ, hρ⟩ := matchRenaming?_isSome_iff.1 h
    exact matchRenaming?_complete hρ.symm
  · obtain ⟨ρ, hρ⟩ := matchRenaming?_isSome_iff.1 h
    obtain ⟨τ, hτ⟩ := matchRenaming?_isSome_iff.1 h'
    exact matchRenaming?_complete (hρ.trans hτ)
  · obtain ⟨hs, hrenaming⟩ := matchRenaming?_eq_some_iff.1 h
    have hm := matchSchema?_sound hs
    have hnodup := hm.nodup List.nodup_nil
    obtain ⟨hvars, hinj⟩ := (isRenaming_iff hnodup).1 hrenaming
    refine ⟨hnodup, fun x => ?_, fun x r hr => ?_, fun x y v w hx hy hname => ?_,
      fun names nodes => ?_⟩
    · rw [hm.names]
      simp [Assignment.get?, Assignment.empty]
    · exact eq_var_of_isVariable (hvars x r hr)
    · exact hinj x y _ _ hx hy (congrArg some hname)
    · rw [Term.alike_iff, Assignment.instantiate, Substitution.nameless_apply hnodup]
      exact hm.instance_eq onVariables_empty

/-- Two variables can change places, but not become one. -/
example :
    let x : Node := .var ⟨0, "x", none⟩
    let y : Node := .var ⟨1, "y", none⟩
    (matchRenaming? (.app 2 x y) (.app 3 y x)).isSome = true ∧
      (matchRenaming? (.app 2 x y) (.app 4 x x)).isSome = false := by decide

end Node

end ProofKernel
