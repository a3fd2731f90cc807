import ProofKernel.Proofs.Literals
import ProofKernel.Proofs.MostGeneral
import ProofKernel.Proofs.TypeSoundness

/-!
# Inferred types are most general

* `Inference.Fits`: types for the type variables under which a state of a run can be read, and whose
  variables the run has all drawn;
* `Infer.Completes`: from such a state a computation succeeds, and the types that its new variables
  stand for can be chosen so that it gives what is asked for; one lemma a step of inference;
* `inferWith_completes`, `TypeEnv.constantType_completes`: a term or a constant that has a type gets
  one that stands for it;
* `TypeEnv.Reachable.layered`: definitions only use constants that were known before them;
* `TypeEnv.infer_general`, `TypeEnv.infer_principal`: a term that has a type gets one of which all its
  types are instances.
-/

namespace ProofKernel

namespace Inference

/-! ## Reading a state -/

/-- All type variables of a state were drawn in the run. -/
structure Drawn (s : Inference) : Prop where
  store : TypeStore.Below s.next s.store
  free : ∀ entry ∈ s.free, entry.2.Below s.next
  scope : ∀ entry ∈ s.scope, entry.2.Below s.next

/-- A good state with types for its type variables and its free variables. -/
structure Fits {β : Type} (ρ : Nat → Ty β) (F : Name → Ty β) (s : Inference) : Prop where
  good : s.Good
  drawn : s.Drawn
  reads : Reads ρ F s

variable {β : Type} {ρ ψ : Nat → Ty β} {F : Name → Ty β} {s : Inference}

/-- A state can be read with other types for the variables that are not yet drawn. -/
theorem Fits.reads_congr (h : Fits ρ F s) (hψ : ∀ v < s.next, ψ v = ρ v) : Reads ψ F s where
  store b hb := by
    rw [hψ b.1 (h.drawn.store b hb).1, h.reads.store b hb]
    exact ((h.drawn.store b hb).2.bind_congr hψ).symm
  free x t hx := by
    rw [h.reads.free x t hx]
    exact ((h.drawn.free _ (Scope.mem_of_lookup? hx)).bind_congr hψ).symm

/-- Drawing variables leaves the choice of their types. -/
theorem Fits.draw (h : Fits ρ F s) (hψ : ∀ v < s.next, ψ v = ρ v) {n : Nat} (hn : s.next ≤ n) :
    Fits ψ F { s with next := n } where
  good := ⟨h.good.solved, h.good.free⟩
  drawn :=
    { store := h.drawn.store.mono hn
      free := fun entry he => (h.drawn.free entry he).mono hn
      scope := fun entry he => (h.drawn.scope entry he).mono hn }
  reads := ⟨(h.reads_congr hψ).store, (h.reads_congr hψ).free⟩

/-- The state for a closed term. -/
theorem Fits.closed (h : Fits ρ F s) : Fits ρ F { s with free := [], scope := [] } where
  good := ⟨h.good.solved, by simp⟩
  drawn := ⟨h.drawn.store, by simp, by simp⟩
  reads := ⟨h.reads.store, by simp⟩

/-- The bound variables of a state have the same types under types that agree on what is drawn. -/
theorem Fits.scope_bind (h : Fits ρ F s) (hψ : ∀ v < s.next, ψ v = ρ v) :
    s.scope.bind ψ = s.scope.bind ρ :=
  List.map_congr_left fun entry he => by rw [(h.drawn.scope entry he).bind_congr hψ]

/-- How a computation moves a state and the types that it is read with: variables are drawn, and
those of before keep their types. -/
structure Moves (ρ : Nat → Ty β) (s : Inference) (ψ : Nat → Ty β) (s' : Inference) : Prop where
  next : s.next ≤ s'.next
  scope : s'.scope = s.scope
  types : ∀ v < s.next, ψ v = ρ v

theorem Moves.refl (ρ : Nat → Ty β) (s : Inference) : Moves ρ s ρ s :=
  ⟨Nat.le_refl _, rfl, fun _ _ => rfl⟩

theorem Moves.trans {ρ ψ φ : Nat → Ty β} {s s' s'' : Inference} (h : Moves ρ s ψ s')
    (h' : Moves ψ s' φ s'') : Moves ρ s φ s'' where
  next := h.next.trans h'.next
  scope := h'.scope.trans h.scope
  types v hv := (h'.types v (Nat.lt_of_lt_of_le hv h.next)).trans (h.types v hv)

/-- A type that stands for `τ`, and whose variables are drawn. -/
def StandsFor (τ : Ty β) (t : Ty Nat) (ψ : Nat → Ty β) (n : Nat) : Prop :=
  t.Below n ∧ t.bind ψ = τ

theorem StandsFor.moves {τ : Ty β} {t : Ty Nat} {s' : Inference} (h : StandsFor τ t ρ s.next)
    (hm : Moves ρ s ψ s') : StandsFor τ t ψ s'.next :=
  ⟨h.1.mono hm.next, (h.1.bind_congr hm.types).trans h.2⟩

end Inference

open Inference

/-! ## Steps -/

namespace Infer

variable {β δ ε : Type} {ρ : Nat → Ty β} {F : Name → Ty β} {s : Inference}

/-- A computation succeeds from a state, and there are types for the variables that it draws with
which the state after it can be read and its result is as asked for. -/
def Completes (c : Infer δ) (ρ : Nat → Ty β) (F : Name → Ty β) (s : Inference)
    (Q : δ → (Nat → Ty β) → Nat → Prop) : Prop :=
  ∃ b s' ψ, c s = (.ok b, s') ∧ Moves ρ s ψ s' ∧ Fits ψ F s' ∧ Q b ψ s'.next

theorem Completes.bind {c : Infer δ} {k : δ → Infer ε} {P : δ → (Nat → Ty β) → Nat → Prop}
    {Q : ε → (Nat → Ty β) → Nat → Prop} (h : c.Completes ρ F s P)
    (hk : ∀ b s' ψ, Moves ρ s ψ s' → Fits ψ F s' → P b ψ s'.next → (k b).Completes ψ F s' Q) :
    (c >>= k).Completes ρ F s Q := by
  obtain ⟨b, s', ψ, hc, hmoves, hfits, hb⟩ := h
  obtain ⟨d, s'', φ, hkb, hmoves', hfits', hd⟩ := hk b s' ψ hmoves hfits hb
  refine ⟨d, s'', φ, ?_, hmoves.trans hmoves', hfits', hd⟩
  rw [bind_eq, hc]
  exact hkb

theorem Completes.pure {Q : δ → (Nat → Ty β) → Nat → Prop} {b : δ} (hs : Fits ρ F s)
    (h : Q b ρ s.next) : (pure b : Infer δ).Completes ρ F s Q :=
  ⟨b, s, ρ, rfl, .refl ρ s, hs, h⟩

/-- A new variable can stand for any type. -/
theorem newVar_completes (hs : Fits ρ F s) (τ : Ty β) :
    newVar.Completes ρ F s (StandsFor τ) := by
  have hψ : ∀ v < s.next, Function.update ρ s.next τ v = ρ v := fun v hv =>
    Function.update_of_ne (Nat.ne_of_lt hv) ..
  refine ⟨_, _, Function.update ρ s.next τ, rfl, ⟨Nat.le_succ _, rfl, hψ⟩,
    hs.draw hψ (Nat.le_succ _), Ty.below_var.2 (Nat.lt_succ_self _), ?_⟩
  exact Function.update_self ..

theorem freeType_completes (hs : Fits ρ F s) {x : Name} (hv : x.isVariable = true)
    (hl : Literal.ofName? x = none) (hx : Scope.lookup? s.free x = none) :
    (freeType x).Completes ρ F s (StandsFor (F x)) := by
  have hψ : ∀ v < s.next, Function.update ρ s.next (F x) v = ρ v := fun v hv =>
    Function.update_of_ne (Nat.ne_of_lt hv) ..
  have hself : Function.update ρ s.next (F x) s.next = F x := Function.update_self ..
  have hdraw := hs.draw hψ (Nat.le_succ s.next)
  refine ⟨_, _, Function.update ρ s.next (F x), rfl, ⟨Nat.le_succ _, rfl, hψ⟩,
    ⟨(freeType_ensures hs.good hv hl hx).good, ⟨hdraw.drawn.store, ?_, hdraw.drawn.scope⟩,
      ⟨hdraw.reads.store, ?_⟩⟩, Ty.below_var.2 (Nat.lt_succ_self _), hself⟩
  · intro entry he
    rcases List.mem_append.1 he with he | he
    · exact hdraw.drawn.free entry he
    · rw [List.mem_singleton.1 he]
      exact Ty.below_var.2 (Nat.lt_succ_self _)
  · intro y t hy
    rw [Scope.lookup?_append] at hy
    cases hold : Scope.lookup? s.free y with
    | some _ =>
      rw [hold] at hy
      cases hy
      exact hdraw.reads.free y t hold
    | none =>
      rw [hold, Option.none_or, Scope.lookup?_cons] at hy
      split at hy
      next hxy =>
        cases hy
        rw [← hxy]
        exact hself.symm
      next => cases hy

/-- A new instance of a type can stand for any instance of it. -/
theorem instantiate_completes (hs : Fits ρ F s) (t : Ty Name) (f : Name → Ty β) :
    (instantiate t).Completes ρ F s (StandsFor (t.bind f)) := by
  let names := t.vars.eraseDups
  let ψ : Nat → Ty β := fun v => if v < s.next then ρ v else f (names.getD (v - s.next) "")
  have hψ : ∀ v < s.next, ψ v = ρ v := fun v hv => if_pos hv
  have hidx : ∀ x ∈ t.vars, names.idxOf x < names.length := fun x hx =>
    List.idxOf_lt_length_of_mem (List.mem_eraseDups.2 hx)
  refine ⟨_, _, ψ, rfl, ⟨Nat.le_add_right .., rfl, hψ⟩, hs.draw hψ (Nat.le_add_right ..), ?_, ?_⟩
  · intro v hv
    obtain ⟨x, hx, hv⟩ := Ty.mem_vars_bind.1 hv
    rw [List.mem_singleton.1 hv]
    exact Nat.add_lt_add_left (hidx x hx) _
  · rw [Ty.bind_bind]
    refine Ty.bind_congr fun x hx => ?_
    have hget : names.getD (names.idxOf x) "" = x := by
      rw [List.getD_eq_getElem?_getD, List.getElem?_eq_getElem (hidx x hx)]
      exact List.getElem_idxOf (hidx x hx)
    show (if s.next + names.idxOf x < s.next then _ else f _) = f x
    rw [if_neg (Nat.not_lt.2 (Nat.le_add_right ..)), Nat.add_sub_cancel_left, hget]

/-- Types that stand for one and the same type can be made equal. -/
theorem unify_completes (hs : Fits ρ F s) {τ : Ty β} {a b : Ty Nat} (ha : StandsFor τ a ρ s.next)
    (hb : StandsFor τ b ρ s.next) : (unify a b).Completes ρ F s fun _ _ _ => True := by
  obtain ⟨hok, hstore⟩ := TypeStore.unify_general hs.reads.store (ha.2.trans hb.2.symm)
  refine ⟨(), { s with store := (s.store.unify a b).1 }, ρ, ?_, ⟨Nat.le_refl _, rfl, fun _ _ => rfl⟩,
    ⟨(unify_ensures hs.good a b).good, ⟨hs.drawn.store.unify ha.1 hb.1, hs.drawn.free,
      hs.drawn.scope⟩, ⟨hstore, hs.reads.free⟩⟩, trivial⟩
  simp only [unify, hok]

theorem Completes.under {c : Infer δ} {x : Name} {t : Ty Nat} {Q : δ → (Nat → Ty β) → Nat → Prop}
    (h : c.Completes ρ F { s with scope := (x, t) :: s.scope } Q) :
    (under x t c).Completes ρ F s Q := by
  obtain ⟨b, s', ψ, hc, hmoves, hfits, hb⟩ := h
  have hscope : s'.scope.tail = s.scope := congrArg List.tail hmoves.scope
  refine ⟨b, { s' with scope := s'.scope.tail }, ψ, ?_, ⟨hmoves.next, hscope, hmoves.types⟩,
    ⟨⟨hfits.good.solved, hfits.good.free⟩, ⟨hfits.drawn.store, hfits.drawn.free, ?_⟩,
      ⟨hfits.reads.store, hfits.reads.free⟩⟩, hb⟩
  · show ((c _).1, _) = _
    rw [hc]
  · exact fun entry he => hfits.drawn.scope entry (List.mem_of_mem_tail he)

/-- A computation for a closed term leaves the variables of the run as they are. -/
theorem Completes.apart {c : Infer δ} {Q : δ → (Nat → Ty β) → Nat → Prop} (hs : Fits ρ F s)
    (h : c.Completes ρ F { s with free := [], scope := [] } Q) : (apart c).Completes ρ F s Q := by
  obtain ⟨b, s', ψ, hc, hmoves, hfits, hb⟩ := h
  have hdraw := hs.draw hmoves.types hmoves.next
  refine ⟨b, { s' with free := s.free, scope := s.scope }, ψ, ?_,
    ⟨hmoves.next, rfl, hmoves.types⟩,
    ⟨⟨hfits.good.solved, hs.good.free⟩, ⟨hfits.drawn.store, hdraw.drawn.free, hdraw.drawn.scope⟩,
      ⟨hfits.reads.store, hdraw.reads.free⟩⟩, hb⟩
  show ((c _).1, _) = _
  rw [hc]

end Infer

/-! ## The constants of a term -/

/-- The constants of a term that no binder around it has are all known. -/
def Term.Knows {ι : Type} (known : Name → Prop) (bound : List Name) (m : Term ι) : Prop :=
  ∀ x ∈ m.freeNames, x ∉ bound → x.isVariable = false → Literal.ofName? x = none → known x

section Knows

variable {ι : Type} {known : Name → Prop} {bound : List Name}

theorem Term.knows_app {tag : ι} {f x : Term ι} :
    (Term.app tag f x).Knows known bound ↔ f.Knows known bound ∧ x.Knows known bound := by
  constructor
  · intro h
    exact ⟨fun y hy => h y (List.mem_append_left _ hy), fun y hy => h y (List.mem_append_right _ hy)⟩
  · rintro ⟨hf, hx⟩ y hy
    exact (List.mem_append.1 hy).elim (hf y) (hx y)

theorem Term.knows_abs {tag : ι} {b : Atom ι} {body : Term ι} :
    (Term.abs tag b body).Knows known bound ↔ body.Knows known (b.name :: bound) := by
  simp only [Knows, freeNames, List.mem_filter, decide_eq_true_eq, List.mem_cons, not_or, and_imp]

theorem Term.Knows.mono {m : Term ι} {known' : Name → Prop} (h : m.Knows known bound)
    (hk : ∀ x, known x → known' x) : m.Knows known' bound :=
  fun x hx hb hv hl => hk x (h x hx hb hv hl)

end Knows

theorem TypeEnv.IsInstance.knows {env : TypeEnv} {β : Type} {F : Name → Ty β} {name : Name}
    {τ : Ty β} (h : env.IsInstance F name τ) : env.knows name = true := by
  rcases h with ⟨t, f, hd, -⟩ | ⟨-, d, hd, -⟩
  · simp [TypeEnv.knows, hd]
  · simp [TypeEnv.knows, hd]

/-- The constants of a term that has a type are declared or defined. -/
theorem HasType.knows {env : TypeEnv} {β ι : Type} {F : Name → Ty β} {Γ : Scope (Ty β)} {m : Term ι}
    {τ : Ty β} (h : HasType env F Γ m τ) : m.Knows (env.knows · = true) (Γ.map Prod.fst) := by
  induction h with
  | @bound _ Γ a τ hb =>
    intro x hx hnew
    rw [List.mem_singleton.1 hx] at hnew
    exact absurd (Scope.lookup?_eq_none_iff.2 hnew) (by rw [hb]; simp)
  | free hb hl hv =>
    intro x hx _ hvar
    rw [List.mem_singleton.1 hx] at hvar
    exact absurd hvar (by rw [show Name.isVariable _ = true from hv]; simp)
  | int hb hl =>
    intro x hx _ _ hlit
    rw [List.mem_singleton.1 hx] at hlit
    exact absurd hlit (by rw [show Literal.ofName? _ = _ from hl]; simp)
  | declared hb hl hv hd f =>
    intro x hx _ _ _
    rw [List.mem_singleton.1 hx]
    exact TypeEnv.IsInstance.knows (F := F) (.inl ⟨_, f, hd, rfl⟩)
  | defined hb hl hv hn hd h ih =>
    intro x hx _ _ _
    rw [List.mem_singleton.1 hx]
    exact TypeEnv.IsInstance.knows (.inr ⟨hn, _, hd, h⟩)
  | app hf hx ihf ihx => exact Term.knows_app.2 ⟨ihf, ihx⟩
  | abs h ih => exact Term.knows_abs.2 ih

/-! ## Terms and constants -/

section Step

variable {env : TypeEnv} {constant : Name → Infer (Ty Nat)} {β ι : Type} {known : Name → Prop}
  {F : Name → Ty β}

theorem inferWith_known {a : Atom ι} {s : Inference} {t : Ty Nat}
    (h : (s.scope.lookup? a.name).or (Scope.lookup? s.free a.name) = some t) :
    inferWith constant (.var a) s = (.ok t, s) := by
  have hknown : Infer.known? a.name s = (.ok (some t), s) := by rw [Infer.known?, h]
  rw [inferWith, Infer.bind_eq, hknown]
  rfl

theorem inferWith_new {a : Atom ι} {s : Inference}
    (hb : s.scope.lookup? a.name = none) (hf : Scope.lookup? s.free a.name = none) :
    inferWith constant (.var a) s = (match a.literal? with
      | some (.int _) => pure .individual
      | some (.str _) => throw (.untyped a.name)
      | none => if a.isVariable then Infer.freeType a.name else constant a.name : Infer _) s := by
  have hknown : Infer.known? a.name s = (.ok none, s) := by rw [Infer.known?, hb, hf]; rfl
  rewrite [inferWith, Infer.bind_eq, hknown]
  rfl

/-- A name that is a literal or a constant has no type as a free variable. -/
theorem Inference.Good.free_eq_none {s : Inference} (hs : s.Good) {x : Name}
    (h : x.isVariable = false ∨ Literal.ofName? x ≠ none) : Scope.lookup? s.free x = none := by
  cases hx : Scope.lookup? s.free x with
  | none => rfl
  | some t =>
    obtain ⟨hv, hl⟩ := hs.free x t hx
    rcases h with h | h
    · rw [hv] at h
      cases h
    · exact absurd hl h

/-- A constant of a term, which no binder around it has, gets its type. -/
theorem constant_completes (hconst : ∀ name, known name → ∀ ρ s τ, Fits ρ F s →
      env.IsInstance F name τ → (constant name).Completes ρ F s (StandsFor τ)) {a : Atom ι}
    {ρ : Nat → Ty β} {s : Inference} (hs : Fits ρ F s)
    (hknown : (Term.var a).Knows known (s.scope.map Prod.fst))
    (hb : s.scope.lookup? a.name = none) (hl : a.literal? = none) (hv : a.isVariable = false)
    {τ : Ty β} (h : env.IsInstance F a.name τ) :
    (inferWith constant (.var a)).Completes ρ F s (StandsFor τ) := by
  have hnew := hs.good.free_eq_none (x := a.name) (.inl hv)
  have hk : known a.name :=
    hknown a.name (List.mem_singleton_self _) (Scope.lookup?_eq_none_iff.1 hb) hv hl
  rw [Infer.Completes, inferWith_new hb hnew, hl, if_neg (by rw [hv]; simp)]
  exact hconst a.name hk ρ s τ hs h

theorem inferWith_var_completes (hconst : ∀ name, known name → ∀ ρ s τ, Fits ρ F s →
      env.IsInstance F name τ → (constant name).Completes ρ F s (StandsFor τ)) {a : Atom ι}
    {ρ : Nat → Ty β} {s : Inference} (hs : Fits ρ F s)
    (hknown : (Term.var a).Knows known (s.scope.map Prod.fst)) {τ : Ty β}
    (h : HasType env F (s.scope.bind ρ) (.var a) τ) :
    (inferWith constant (.var a)).Completes ρ F s (StandsFor τ) := by
  have hfree : ∀ {x : Name}, (s.scope.bind ρ).lookup? x = none → s.scope.lookup? x = none := by
    intro x hx
    rw [Scope.bind_lookup?, Option.map_eq_none_iff] at hx
    exact hx
  cases h with
  | bound hb =>
    rw [Scope.bind_lookup?, Option.map_eq_some_iff] at hb
    obtain ⟨t, hb, rfl⟩ := hb
    have ht : t.Below s.next := hs.drawn.scope _ (Scope.mem_of_lookup? hb)
    exact ⟨t, s, ρ, inferWith_known (by rw [hb]; rfl), .refl ρ s, hs, ht, rfl⟩
  | free hb hl hv =>
    have hb := hfree hb
    cases hf : Scope.lookup? s.free a.name with
    | some t =>
      have ht : t.Below s.next := hs.drawn.free _ (Scope.mem_of_lookup? hf)
      exact ⟨t, s, ρ, inferWith_known (by rw [hb, hf]; rfl), .refl ρ s, hs, ht,
        (hs.reads.free _ t hf).symm⟩
    | none =>
      rw [Infer.Completes, inferWith_new hb hf, hl, if_pos hv]
      exact Infer.freeType_completes hs hv hl hf
  | int hb hl =>
    have hnew := hs.good.free_eq_none (x := a.name) (.inr (by
      rw [show Literal.ofName? a.name = _ from hl]
      simp))
    rw [Infer.Completes, inferWith_new (hfree hb) hnew, hl]
    exact Infer.Completes.pure hs ⟨by simp [Ty.Below, Ty.individual, Ty.vars], rfl⟩
  | declared hb hl hv hd f =>
    exact constant_completes hconst hs hknown (hfree hb) hl hv (.inl ⟨_, f, hd, rfl⟩)
  | defined hb hl hv hn hd h =>
    exact constant_completes hconst hs hknown (hfree hb) hl hv (.inr ⟨hn, _, hd, h⟩)

/-- **A term that has a type gets one that stands for it**, by induction on the term. -/
theorem inferWith_completes (hconst : ∀ name, known name → ∀ ρ s τ, Fits ρ F s →
      env.IsInstance F name τ → (constant name).Completes ρ F s (StandsFor τ)) {m : Term ι}
    {ρ : Nat → Ty β} {s : Inference} (hs : Fits ρ F s)
    (hknown : m.Knows known (s.scope.map Prod.fst)) {τ : Ty β}
    (h : HasType env F (s.scope.bind ρ) m τ) :
    (inferWith constant m).Completes ρ F s (StandsFor τ) := by
  induction m generalizing ρ s τ with
  | var a => exact inferWith_var_completes hconst hs hknown h
  | app tag f x ihf ihx =>
    obtain ⟨hkf, hkx⟩ := Term.knows_app.1 hknown
    cases h with
    | @app _ _ _ _ _ σ _ hf hx =>
      refine (ihf hs hkf hf).bind ?_
      intro fn s₁ ρ₁ hm₁ hs₁ hfn
      rw [← hs.scope_bind hm₁.types, ← hm₁.scope] at hx
      rw [← hm₁.scope] at hkx
      refine (ihx hs₁ hkx hx).bind ?_
      intro arg s₂ ρ₂ hm₂ hs₂ harg
      refine (Infer.newVar_completes hs₂ τ).bind ?_
      intro result s₃ ρ₃ hm₃ hs₃ hresult
      have hfn := hfn.moves (hm₂.trans hm₃)
      have harg := harg.moves hm₃
      have hcall : StandsFor (.fn σ τ) (.fn arg result) ρ₃ s₃.next :=
        ⟨Ty.below_fn.2 ⟨harg.1, hresult.1⟩, congrArg₂ Ty.fn harg.2 hresult.2⟩
      refine (Infer.unify_completes hs₃ hcall hfn).bind ?_
      intro _ s₄ ρ₄ hm₄ hs₄ _
      exact .pure hs₄ (hresult.moves hm₄)
  | abs tag b body ih =>
    cases h with
    | @abs _ _ _ _ _ σ τ h =>
      refine (Infer.newVar_completes hs σ).bind ?_
      intro bound s₁ ρ₁ hm₁ hs₁ hbound
      -- the state under the binder, read with the type of the bound variable
      let inner : Inference := { s₁ with scope := (b.name, bound) :: s₁.scope }
      have hinner : Fits ρ₁ F inner :=
        ⟨⟨hs₁.good.solved, hs₁.good.free⟩, ⟨hs₁.drawn.store, hs₁.drawn.free,
          List.forall_mem_cons.2 ⟨hbound.1, hs₁.drawn.scope⟩⟩, ⟨hs₁.reads.store, hs₁.reads.free⟩⟩
      have hscope : inner.scope.bind ρ₁ = (b.name, σ) :: s.scope.bind ρ := by
        show (b.name, bound.bind ρ₁) :: s₁.scope.bind ρ₁ = _
        rw [hbound.2, hm₁.scope, hs.scope_bind hm₁.types]
      have hk : body.Knows known (inner.scope.map Prod.fst) := by
        show body.Knows known (b.name :: s₁.scope.map Prod.fst)
        rw [hm₁.scope]
        exact Term.knows_abs.1 hknown
      rw [← hscope] at h
      refine (Infer.Completes.under (ih hinner hk h)).bind ?_
      intro result s₂ ρ₂ hm₂ hs₂ hresult
      have hbound := hbound.moves hm₂
      exact .pure hs₂ ⟨Ty.below_fn.2 ⟨hbound.1, hresult.1⟩, congrArg₂ Ty.fn hbound.2 hresult.2⟩

end Step

namespace TypeEnv

variable {env : TypeEnv}

/-! ## Environments -/

/-- The constants of each definition are declared, or defined before it. -/
def Layered (env : TypeEnv) : Prop :=
  ∀ name d older, (name, d) :: older <:+ env.defined →
    d.Knows (({ env with defined := older } : TypeEnv).knows · = true) []

theorem knows_declare {declared : List (Name × Ty Name)} {defs : List (Name × PlainTerm)}
    (entry : Name × Ty Name) {x : Name} (hx : (TypeEnv.mk declared defs).knows x = true) :
    (TypeEnv.mk (entry :: declared) defs).knows x = true := by
  obtain ⟨y, t⟩ := entry
  simp only [knows, declared?, definition?, Scope.lookup?_cons, Bool.or_eq_true] at hx ⊢
  split
  · exact .inl rfl
  · exact hx

/-- **A constant that has a type gets one that stands for it**, by induction on the definitions that
it is looked up among. -/
theorem constantType_completes (henv : env.DefinedOnce) (hlayers : env.Layered)
    {defs : List (Name × PlainTerm)} (hdefs : defs <:+ env.defined) {β : Type} {F : Name → Ty β}
    (name : Name) (hknown : ({ env with defined := defs } : TypeEnv).knows name = true)
    (ρ : Nat → Ty β) (s : Inference) (τ : Ty β) (hs : Fits ρ F s)
    (h : env.IsInstance F name τ) :
    (constantType env.declared? defs name).Completes ρ F s (StandsFor τ) := by
  induction defs generalizing name ρ s τ with
  | nil =>
    unfold constantType
    rcases h with ⟨t, f, hd, rfl⟩ | ⟨hn, -⟩
    · simp only [hd]
      exact Infer.instantiate_completes hs t f
    · rw [declared?] at hn
      simp [knows, declared?, definition?, hn] at hknown
  | cons entry older ih =>
    obtain ⟨defined, d⟩ := entry
    have holder : older <:+ env.defined := (List.suffix_cons _ _).trans hdefs
    unfold constantType
    rcases h with ⟨t, f, hd, rfl⟩ | ⟨hn, d', hd', h⟩
    · simp only [hd]
      exact Infer.instantiate_completes hs t f
    · simp only [hn]
      by_cases hname : defined = name
      · rw [if_pos hname]
        have hdef : env.definition? name = some d :=
          Scope.lookup?_of_suffix hdefs henv.nodup (by rw [Scope.lookup?_cons, if_pos hname])
        obtain rfl : d = d' := Option.some.inj (hdef.symm.trans hd')
        exact Infer.Completes.apart hs (inferWith_completes (ih holder) hs.closed
          (hlayers defined d older hdefs) h)
      · rw [if_neg hname]
        refine ih holder name ?_ ρ s τ hs (.inr ⟨hn, d', hd', h⟩)
        simp only [knows, declared?, definition?, Scope.lookup?_cons, if_neg hname] at hknown ⊢
        exact hknown

/-- A term that has a type gets one that stands for it. -/
theorem inferIn_completes {ι : Type} (henv : env.DefinedOnce) (hlayers : env.Layered) {m : Term ι}
    {β : Type} {F : Name → Ty β} {ρ : Nat → Ty β} {s : Inference} {τ : Ty β} (hs : Fits ρ F s)
    (h : HasType env F (s.scope.bind ρ) m τ) :
    (env.inferIn m).Completes ρ F s (StandsFor τ) := by
  refine inferWith_completes (constantType_completes henv hlayers (List.suffix_refl _)) hs ?_ h
  have hscope : (s.scope.bind ρ).map Prod.fst = s.scope.map Prod.fst := by
    simp [Scope.bind]
  rw [← hscope]
  exact h.knows

end TypeEnv

/-! ## The types of free variables -/

/-- The type that a free variable has in a state, with the bindings put in. -/
def Inference.typeOf (s : Inference) (x : Name) : Ty Nat :=
  s.store.expand ((Scope.lookup? s.free x).getD .individual)

theorem Inference.Good.reads {s : Inference} (hs : s.Good) :
    Reads (fun v => s.store.expand (.var v)) s.typeOf s where
  store := hs.solved.satisfies
  free x t hx := by
    rw [typeOf, hx, ← TypeStore.expand_eq_bind]
    rfl

/-- Free variables are logic variables, which are no literals. -/
theorem Name.ofName?_eq_none_of_isVariable {x : Name} (h : x.isVariable = true) :
    Literal.ofName? x = none := by
  unfold Name.isVariable at h
  split at h
  next => cases h
  next c cs hx =>
    refine Literal.ofName?_of_identStart hx ?_
    simp only [isIdentStart, Char.isAlpha, Bool.or_eq_true, Bool.and_eq_true, beq_iff_eq] at h ⊢
    rcases h with h | ⟨h | h, -⟩
    · exact .inl (.inr h)
    · exact .inl (.inl (.inr h))
    · exact .inr h

section Free

variable {env : TypeEnv} {constant : Name → Infer (Ty Nat)} {ι : Type}

/-- After a run over a term, its free variables have types. -/
theorem inferWith_free (hconst : ∀ name s, s.Good →
    (constant name).Ensures s (ConstantIn env name)) (m : Term ι) {s : Inference} (hs : s.Good) :
    (inferWith constant m).Ensures s fun _ s' =>
      ∀ x ∈ m.freeVariables, s.scope.lookup? x = none → (Scope.lookup? s'.free x).isSome := by
  induction m generalizing s with
  | var a =>
    have hvar := inferWith_var hconst a hs
    refine ⟨hvar.good, hvar.ext, fun t ht x hx hb => ?_⟩
    obtain ⟨hmem, hv⟩ := List.mem_filter.1 hx
    obtain rfl : x = a.name := List.mem_singleton.1 hmem
    cases hf : Scope.lookup? s.free a.name with
    | some u =>
      rw [Scope.lookup?_of_prefix hvar.ext.free hf]
      rfl
    | none =>
      have hl : a.literal? = none := Name.ofName?_eq_none_of_isVariable hv
      have heq : inferWith constant (.var a) s = Infer.freeType a.name s := by
        rw [inferWith_new hb hf, hl, if_pos (show a.isVariable = true from hv)]
      rw [heq] at ht ⊢
      rw [(Infer.freeType_ensures hs hv hl hf).result t ht]
      rfl
  | app tag f x ihf ihx =>
    refine (ihf hs).bind ?_
    intro fn s₁ hs₁ h₁ hf
    refine (ihx hs₁).bind ?_
    intro arg s₂ hs₂ h₂ hx
    refine (Infer.newVar_ensures hs₂).bind ?_
    intro result s₃ hs₃ h₃ _
    refine (Infer.unify_ensures hs₃ (.fn arg result) fn).bind ?_
    intro _ s₄ hs₄ h₄ _
    refine .pure hs₄ fun y hy hb => ?_
    have hkeep : ∀ {s s' : Inference}, s.Extends s' → (Scope.lookup? s.free y).isSome →
        (Scope.lookup? s'.free y).isSome := by
      intro s s' hext hsome
      obtain ⟨t, ht⟩ := Option.isSome_iff_exists.1 hsome
      rw [Scope.lookup?_of_prefix hext.free ht]
      rfl
    rw [Term.freeVariables, Term.freeNames, List.filter_append, List.mem_append] at hy
    rcases hy with hy | hy
    · exact hkeep (h₂.trans (h₃.trans h₄)) (hf y hy hb)
    · rw [← h₁.scope] at hb
      exact hkeep (h₃.trans h₄) (hx y hy hb)
  | abs tag b body ih =>
    refine (Infer.newVar_ensures hs).bind ?_
    intro bound s₁ hs₁ h₁ _
    have hbody := ih (s := { s₁ with scope := (b.name, bound) :: s₁.scope }) ⟨hs₁.solved, hs₁.free⟩
    refine hbody.under.bind ?_
    intro result s₂ hs₂ h₂ hfree
    refine .pure hs₂ fun x hx hb => ?_
    obtain ⟨hx, hv⟩ := List.mem_filter.1 hx
    obtain ⟨hx, hne⟩ := List.mem_filter.1 hx
    refine hfree x (List.mem_filter.2 ⟨hx, hv⟩) ?_
    rw [Scope.lookup?_cons, if_neg (Ne.symm (of_decide_eq_true hne)), h₁.scope]
    exact hb

end Free

namespace TypeEnv

variable {env : TypeEnv}

/-! ## Whole runs -/

/-- A type that is found is a type of the term, with the types found for the free variables. -/
theorem infer_hasType {ι : Type} (henv : env.DefinedOnce) {m : Term ι} {T : Ty Nat}
    (h : (env.infer m .start).1 = .ok T) : HasType env (env.infer m .start).2.typeOf [] m T := by
  have htypes := inferIn_types henv m good_start
  obtain ⟨t, ht, rfl⟩ := infer_ok h
  have hs : (env.infer m .start).2.Good := htypes.good
  rw [TypeStore.expand_eq_bind]
  exact htypes.result t ht _ _ _ hs.reads

/-- A definition that is accepted has a type. -/
theorem define_infers {env' : TypeEnv} {name : Name} {definition : PlainTerm}
    (h : (env.define name definition).1 = .ok env') :
    ∃ T, (env.infer definition .start).1 = .ok T := by
  unfold define at h
  split at h
  next => cases h
  next =>
    cases hr : (env.infer definition .start).1 with
    | error e => simp [hr, Except.map] at h
    | ok T => exact ⟨T, rfl⟩

/-- **Definitions only use constants that were known before them**, in environments made by
declaring and defining names. -/
theorem Reachable.layered (h : env.Reachable) : env.Layered := by
  induction h with
  | empty => intro name d older hd; simp [TypeEnv.empty] at hd
  | standard => intro name d older hd; simp [TypeEnv.standard] at hd
  | declare h hd ih =>
    obtain ⟨t, rfl⟩ := declare_eq hd
    intro name d older hsuffix
    exact (ih name d older hsuffix).mono fun x hx => knows_declare _ hx
  | @define env env' defined definition h hd ih =>
    obtain ⟨rfl, -, -⟩ := define_eq hd
    intro name d older hsuffix
    rcases List.suffix_cons_iff.1 hsuffix with heq | hsuffix
    · cases heq
      obtain ⟨T, hT⟩ := define_infers hd
      exact (infer_hasType h.defined_once hT).knows
    · exact ih name d older hsuffix

/-- A new run gives a type to a term that has one, and there are types for the type variables with
which it is that one. -/
theorem infer_completes {ι : Type} (henv : env.Reachable) {m : Term ι} {β : Type} {F : Name → Ty β}
    {τ : Ty β} (h : HasType env F [] m τ) :
    ∃ T θ, (env.infer m .start).1 = .ok T ∧ T.bind θ = τ ∧ Reads θ F (env.infer m .start).2 := by
  have hstart : Fits (fun _ => Ty.individual) F .start :=
    ⟨good_start, ⟨by simp [start, TypeStore.Below], by simp [start], by simp [start]⟩,
      ⟨by simp [start, TypeStore.Satisfies], by simp [start]⟩⟩
  obtain ⟨t, s, θ, hrun, -, hs, ht⟩ := inferIn_completes henv.defined_once henv.layered hstart h
  have hinfer : env.infer m .start = (.ok (s.store.expand t), s) := by
    show ((env.inferIn m .start).1.map (env.inferIn m .start).2.store.expand,
      (env.inferIn m .start).2) = _
    rw [hrun]
    rfl
  refine ⟨s.store.expand t, θ, by rw [hinfer], ?_, by rw [hinfer]; exact hs.reads⟩
  rw [TypeStore.bind_expand hs.reads.store, ht.2]

/-- After a run that finds a type every free variable has one. -/
theorem infer_assigns {ι : Type} (henv : env.DefinedOnce) {m : Term ι} {T : Ty Nat}
    (h : (env.infer m .start).1 = .ok T) {x : Name} (hx : x ∈ m.freeVariables) :
    (Scope.lookup? (env.infer m .start).2.free x).isSome := by
  obtain ⟨t, ht, -⟩ := infer_ok h
  have hrun := inferWith_free (fun name _ hs =>
    constantType_isInstance henv (List.suffix_refl _) name hs) m good_start
  exact hrun.result t ht x hx rfl

/-- With one substitution of type variables the type that is found becomes any other type of the
term, and the types of the free variables become those that they have there. -/
theorem infer_general {ι : Type} (henv : env.Reachable) {m : Term ι} {T : Ty Nat}
    (hT : (env.infer m .start).1 = .ok T) {β : Type} {F : Name → Ty β} {τ : Ty β}
    (h : HasType env F [] m τ) :
    ∃ θ : Nat → Ty β, τ = T.bind θ ∧
      ∀ x ∈ m.freeVariables, F x = ((env.infer m .start).2.typeOf x).bind θ := by
  obtain ⟨T', θ, hT', hθ, hreads⟩ := infer_completes henv h
  obtain rfl : T = T' := Except.ok.inj (hT.symm.trans hT')
  refine ⟨θ, hθ.symm, fun x hx => ?_⟩
  obtain ⟨t, ht⟩ := Option.isSome_iff_exists.1 (infer_assigns henv.defined_once hT hx)
  rw [hreads.free x t ht, Inference.typeOf, ht, TypeStore.bind_expand hreads.store]
  rfl

/-- **Inference is complete, and its types are most general.** In any environment made by declaring
and defining names, a new run gives a type to each term that has one, over whatever type variables.
Each free variable has a type after the run, with which the term has the type that was found; and
with one substitution of type variables this type becomes any other type that the term has, and the
types of the free variables become those that they have there. -/
theorem infer_principal {ι : Type} (henv : env.Reachable) (m : Term ι) :
    ((∃ (β : Type) (F : Name → Ty β) (τ : Ty β), HasType env F [] m τ) ↔
        ∃ T, (env.infer m .start).1 = .ok T) ∧
      ∀ T, (env.infer m .start).1 = .ok T →
        HasType env (env.infer m .start).2.typeOf [] m T ∧
        (∀ x ∈ m.freeVariables, (Scope.lookup? (env.infer m .start).2.free x).isSome) ∧
        ∀ (β : Type) (F : Name → Ty β) (τ : Ty β), HasType env F [] m τ →
          ∃ θ : Nat → Ty β, τ = T.bind θ ∧
            ∀ x ∈ m.freeVariables, F x = ((env.infer m .start).2.typeOf x).bind θ := by
  refine ⟨⟨?_, ?_⟩, ?_⟩
  · rintro ⟨β, F, τ, h⟩
    obtain ⟨T, -, hT, -⟩ := infer_completes henv h
    exact ⟨T, hT⟩
  · rintro ⟨T, hT⟩
    exact ⟨Nat, _, T, infer_hasType henv.defined_once hT⟩
  · intro T hT
    exact ⟨infer_hasType henv.defined_once hT, fun x hx => infer_assigns henv.defined_once hT hx,
      fun β F τ h => infer_general henv hT h⟩

/-- Each occurrence of a definition has a type of its own: one is used on a function, the other on
its argument, so that the free variable can be any function, and no more is known of the term. -/
theorem infer_principal_compose :
    let x : PlainTerm := .named "x"
    let env : TypeEnv := ⟨[], [("id", .lambda "x" x)]⟩
    let m : PlainTerm := .lambda "x" (.call (.call (.named "id") (.named "f")) (.call (.named "id") x))
    env.Reachable ∧ (env.infer m .start).1 = .ok (.fn (.var 5) (.var 7)) ∧
      ∀ (β : Type) (F : Name → Ty β) (τ : Ty β), HasType env F [] m τ →
        ∃ a b : Ty β, τ = .fn a b ∧ F "f" = .fn a b := by
  intro x env m
  have hdef : (TypeEnv.define .empty "id" (.lambda "x" x)).1 = .ok env := by cbv
  have henv : env.Reachable := .define .empty hdef
  have hinfer : (env.infer m .start).1 = .ok (.fn (.var 5) (.var 7)) := by cbv
  have htypeOf : (env.infer m .start).2.typeOf "f" = .fn (.var 5) (.var 7) := by cbv
  refine ⟨henv, hinfer, ?_⟩
  intro β F τ h
  obtain ⟨-, -, hgeneral⟩ := (infer_principal henv m).2 _ hinfer
  obtain ⟨θ, hτ, hfree⟩ := hgeneral β F τ h
  have hf := hfree "f" (by decide)
  rw [htypeOf] at hf
  exact ⟨θ 5, θ 7, hτ, hf⟩

end TypeEnv

end ProofKernel
