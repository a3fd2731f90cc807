import Mathlib.Data.Finset.Lattice.Fold
import ProofKernel.Proofs.CellReading

/-!
# Unification on cells

A run on cells makes the bindings that a run on a solved store makes, with other types in them, and
has the same outcome. So it ends, and cells without cycles stay so, also where it fails.

* `TypeStore.Represents.bind`: a new binding, after the occurs check;
* `CellM.Follows`: a run on cells that does what a run on a store does;
* `CellM.unifyAll_follows`, `CellM.unify_follows`: unification.
-/

namespace ProofKernel

open TypeStore

variable {α β : Type} [DecidableEq α]

namespace TypeStore

variable {c σ : TypeStore α} {rank : α → Nat}

theorem mem_vars_expand {w : α} {t : Ty α} :
    w ∈ (σ.expand t).vars ↔ ∃ x ∈ t.vars, w ∈ (σ.expand (.var x)).vars := by
  rw [expand_eq_bind, Ty.mem_vars_bind]

theorem expand_var_of_not_mem {v : α} (h : v ∉ bound σ) : σ.expand (.var v) = .var v :=
  expand_eq_self fun w hw => by
    have hvw : w = v := by simpa [Ty.vars] using hw
    rwa [hvw]

theorem Solved.bind (h : σ.Solved) {v : α} {t : Ty α} (hv : v ∉ bound σ)
    (ht : v ∉ (σ.expand t).vars) : Solved ((v, σ.expand t) :: σ) :=
  .cons hv (fun _ hw => ⟨fun e => ht (e ▸ hw), h.not_mem_bound hw⟩) h

/-- **A new binding.** A variable that is not bound, and does not occur in what a type stands for,
may be bound to this type. The variables that stand for a type around it rank above all of those. -/
theorem Represents.bind (h : c.Represents rank σ) {v : α} {t : Ty α} (hv : v ∉ bound σ)
    (ht : v ∉ (σ.expand t).vars) :
    ∃ rank', (c.put v t).Represents rank' ((v, σ.expand t) :: σ) := by
  let top : Nat := t.vars.toFinset.sup rank + 1
  let rank' : α → Nat := fun x => if v ∈ (σ.expand (.var x)).vars then rank x + top else rank x
  have hvself : σ.expand (.var v) = .var v := expand_var_of_not_mem hv
  refine ⟨rank', nodup_put h.nodup, h.solved.bind hv ht, fun w => ?_, fun w u hu => ?_, ?_⟩
  · rw [mem_bound_put, h.bound_iff, bound_cons, List.mem_cons]
  · rw [expand_cons, expand_cons]
    rcases mem_put.1 hu with heq | ⟨hu, -⟩
    · obtain ⟨rfl, rfl⟩ := Prod.mk.inj heq
      rw [hvself, Ty.subst_of_not_mem _ ht]
      simp [Ty.subst, Ty.bind]
    · rw [h.expand_eq w u hu]
  · rintro w x ⟨u, hu, hx⟩
    rcases mem_put.1 hu with heq | ⟨hu, -⟩
    · obtain ⟨rfl, rfl⟩ := Prod.mk.inj heq
      have hw : rank' w = rank w + top := if_pos (by simp [hvself, Ty.vars])
      have hx' : rank' x = rank x := if_neg fun hmem => ht (mem_vars_expand.2 ⟨x, hx, hmem⟩)
      have hle : rank x ≤ u.vars.toFinset.sup rank := Finset.le_sup (List.mem_toFinset.2 hx)
      omega
    · have hlt := h.rank_lt w x ⟨u, hu, hx⟩
      have hup : v ∈ (σ.expand (.var x)).vars → v ∈ (σ.expand (.var w)).vars := fun hmem => by
        rw [h.expand_eq w u hu]
        exact mem_vars_expand.2 ⟨x, hx, hmem⟩
      simp only [rank']
      split_ifs <;> first | omega | exact absurd (hup ‹_›) ‹_›

end TypeStore

namespace CellM

variable {rank : α → Nat} {σ σ' : TypeStore α} {t u : Ty α}

/-! ## Heads of resolved types -/

theorem Resolved.eq_var {v : α} (h : Resolved σ t u) (ht : σ.expand t = .var v) :
    u = .var v := by
  cases u with
  | var w => rw [← h.expand_var, ht]
  | const x => exact absurd (ht.symm.trans h.expand_const) nofun
  | op f ps => exact absurd (ht.symm.trans h.expand_op) nofun

theorem Resolved.eq_const {x : String} (h : Resolved σ t u) (ht : σ.expand t = .const x) :
    u = .const x := by
  cases u with
  | var w => exact absurd (ht.symm.trans h.expand_var) nofun
  | const y => rw [← h.expand_const, ht]
  | op f ps => exact absurd (ht.symm.trans h.expand_op) nofun

theorem Resolved.eq_op {f : String} {us : List (Ty α)} (h : Resolved σ t u)
    (ht : σ.expand t = .op f us) : ∃ ps, u = .op f ps ∧ us = ps.map σ.expand := by
  cases u with
  | var w => exact absurd (ht.symm.trans h.expand_var) nofun
  | const x => exact absurd (ht.symm.trans h.expand_const) nofun
  | op g ps =>
    obtain ⟨rfl, rfl⟩ := Ty.op.inj (ht.symm.trans h.expand_op)
    exact ⟨ps, rfl, rfl⟩

/-! ## Runs -/

/-- **A run on cells does what a run on a store does**, which ends with a store and an outcome. -/
def Follows (m : CellM α β) (σ : TypeStore α) (r : TypeStore α × β) : Prop :=
  ∀ (c : TypeStore α) (rank : α → Nat), c.Represents rank σ →
    ∃ c' rank', m.run c = some (r.2, c') ∧ c'.Represents rank' r.1

theorem follows_pure (b : β) : Follows (pure b) σ (σ, b) :=
  fun c rank hc => ⟨c, rank, rfl, hc⟩

theorem Follows.bind {γ : Type} {m : CellM α γ} {f : γ → CellM α β} {σ' : TypeStore α} {b : γ}
    {r : TypeStore α × β} (h : Follows m σ (σ', b)) (hf : Follows (f b) σ' r) :
    Follows (m >>= f) σ r := by
  intro c rank hc
  obtain ⟨c', rank', hrun, hc'⟩ := h c rank hc
  rw [run_bind hrun]
  exact hf c' rank' hc'

/-- Looking does not change what cells say. -/
theorem Follows.of_gives {γ : Type} {m : CellM α γ} {f : γ → CellM α β} {r : TypeStore α × β}
    {P : γ → Prop} (h : ∀ rank, Gives rank σ m P) (hf : ∀ b, P b → Follows (f b) σ r) :
    Follows (m >>= f) σ r := by
  intro c rank hc
  obtain ⟨b, c', hrun, hc', hb⟩ := h rank c hc
  rw [run_bind hrun]
  exact hf b hb c' rank hc'

theorem mismatch_follows (a b : Ty α) :
    Follows (mismatch a b) σ (σ, some (.mismatch (σ.expand a) (σ.expand b))) := by
  unfold mismatch
  refine .of_gives (fun rank => readOut_gives a) fun a' ha => ?_
  refine .of_gives (fun rank => readOut_gives b) fun b' hb => ?_
  rw [ha, hb]
  exact follows_pure _

/-- What binding a variable to a type does to a store. -/
def bindStore (σ : TypeStore α) (v : α) (u : Ty α) : TypeStore α × Option (TypeClash α) :=
  if u = .var v then (σ, none)
  else if v ∈ u.vars then (σ, some (.recursive v u))
  else ((v, u) :: σ, none)

theorem showIf_gives (logs : Bool) (t : Ty α) : Gives rank σ (showIf logs t) fun _ => True := by
  cases logs with
  | false => exact gives_pure trivial
  | true => exact (readOut_gives t).bind fun _ _ => gives_pure trivial

theorem put_follows {v : α} (hv : v ∉ bound σ) (ht : v ∉ (σ.expand t).vars) :
    Follows (modify fun σ : TypeStore α => σ.put v t) σ ((v, σ.expand t) :: σ, ()) := by
  intro c rank hc
  obtain ⟨rank', hc'⟩ := hc.bind hv ht
  exact ⟨c.put v t, rank', rfl, hc'⟩

/-- Binding a variable that is not bound to a resolved type. -/
theorem bindTo_follows (logs : Bool) {v : α} (hv : v ∉ bound σ) (h : Resolved σ u t) :
    Follows (bindTo logs v t) σ (bindStore σ v (σ.expand u)) := by
  rw [← h.expand_eq, bindTo, bindStore]
  by_cases hvar : t = .var v
  · have hself : σ.expand t = .var v := by rw [hvar, expand_var_of_not_mem hv]
    rw [if_pos hvar, if_pos hself]
    exact follows_pure _
  · have hne : σ.expand t ≠ .var v := fun e => hvar (h.eq_var (h.expand_eq.symm.trans e))
    rw [if_neg hvar, if_neg hne]
    refine .of_gives (fun rank => occurs_gives v t) fun occurs hoccurs => ?_
    by_cases hmem : v ∈ (σ.expand t).vars
    · rw [hoccurs, if_pos (decide_eq_true hmem), if_pos hmem]
      refine .of_gives (fun rank => readOut_gives t) fun t' ht => ?_
      rw [ht]
      exact follows_pure _
    · rw [hoccurs, if_neg (by simp [hmem]), if_neg hmem]
      refine .of_gives (fun rank => showIf_gives logs t) fun _ _ => ?_
      exact (put_follows hv hmem).bind (follows_pure none)

/-! ## Unification -/

variable (logs : Bool)

/-- Two types are made equal by what their resolved types are. -/
theorem unify_follows_of {a b : Ty α} {r : TypeStore α × Option (TypeClash α)}
    (h : ∀ a' b', Resolved σ a a' → Resolved σ b b' → Follows (a'.unifyResolved logs b') σ r) :
    Follows (a.unify logs b) σ r := by
  rw [Ty.unify]
  exact .of_gives (fun rank => resolve_gives a) fun a' ha =>
    .of_gives (fun rank => resolve_gives b) fun b' hb => h a' b' ha hb

/-- A variable on the left. -/
theorem unify_var_follows {a b : Ty α} {v : α} (hv : v ∉ bound σ) (ha : σ.expand a = .var v) :
    Follows (a.unify logs b) σ (bindStore σ v (σ.expand b)) := by
  refine unify_follows_of logs fun a' b' ha' hb' => ?_
  rw [ha'.eq_var ha, Ty.unifyResolved]
  exact bindTo_follows logs hv hb'

/-- A variable on the right only: the two sides are exchanged. -/
theorem unify_swap_follows {a b : Ty α} {v : α} (hv : v ∉ bound σ) (hb : σ.expand b = .var v)
    (ha : ∀ w, σ.expand a ≠ .var w) :
    Follows (a.unify logs b) σ (bindStore σ v (σ.expand a)) := by
  refine unify_follows_of logs fun a' b' ha' hb' => ?_
  have hne : ∀ w, a' = .var w → False := fun w e => ha w (e ▸ ha').expand_var
  rw [hb'.eq_var hb, Ty.unifyResolved.eq_2 logs a' v hne, ← ha'.expand_eq]
  exact unify_var_follows logs hv (expand_var_of_not_mem hv)

/-- Makes the two types of each pair equal, up to the first clash. -/
def unifyAll (es : Equations α) : CellM α (Option (TypeClash α)) :=
  es.findSomeM? fun e => e.1.unify logs e.2

theorem unifyAll_nil : unifyAll logs ([] : Equations α) = pure none := rfl

theorem unifyAll_cons (p q : Ty α) (es : Equations α) : unifyAll logs ((p, q) :: es) = (do
    match ← p.unify logs q with
    | some clash => return some clash
    | none => unifyAll logs es) := by
  rw [unifyAll, List.findSomeM?_cons]
  refine bind_congr fun clash? => ?_
  cases clash? <;> rfl

theorem unifyAll_next {p q : Ty α} {es : Equations α} {r : TypeStore α × Option (TypeClash α)}
    (h : Follows (p.unify logs q) σ (σ', none)) (h' : Follows (unifyAll logs es) σ' r) :
    Follows (unifyAll logs ((p, q) :: es)) σ r := by
  rw [unifyAll_cons]
  exact h.bind h'

theorem unifyAll_clash {p q : Ty α} {clash : TypeClash α} (es : Equations α)
    (h : Follows (p.unify logs q) σ (σ', some clash)) :
    Follows (unifyAll logs ((p, q) :: es)) σ (σ', some clash) := by
  rw [unifyAll_cons]
  exact h.bind (follows_pure _)

theorem unifyAll_append (es fs : Equations α) : unifyAll logs (es ++ fs) = (do
    match ← unifyAll logs es with
    | some clash => return some clash
    | none => unifyAll logs fs) := by
  induction es with
  | nil =>
    rw [List.nil_append, unifyAll_nil, pure_bind]
  | cons e es ih =>
    obtain ⟨p, q⟩ := e
    rw [List.cons_append, unifyAll_cons, unifyAll_cons, bind_assoc]
    refine bind_congr fun clash? => ?_
    cases clash? with
    | some clash => rw [pure_bind]
    | none => exact ih

/-- Operators are compared argument by argument, before all else. -/
theorem unifyAll_op {a b : Ty α} {f : String} {us ws : List (Ty α)} {es : Equations α}
    {r : TypeStore α × Option (TypeClash α)} (ha : σ.expand a = .op f us)
    (hb : σ.expand b = .op f ws) (hlen : us.length = ws.length)
    (h : ∀ ps qs : List (Ty α), us = ps.map σ.expand → ws = qs.map σ.expand →
      Follows (unifyAll logs (ps.zip qs ++ es)) σ r) :
    Follows (unifyAll logs ((a, b) :: es)) σ r := by
  rw [unifyAll_cons, Ty.unify, bind_assoc]
  refine .of_gives (fun rank => resolve_gives a) fun a' ha' => ?_
  rw [bind_assoc]
  refine .of_gives (fun rank => resolve_gives b) fun b' hb' => ?_
  obtain ⟨ps, rfl, hps⟩ := ha'.eq_op ha
  obtain ⟨qs, rfl, hqs⟩ := hb'.eq_op hb
  have hlen' : ps.length = qs.length := by simpa [hps, hqs] using hlen
  have hall := h ps qs hps hqs
  rw [unifyAll_append] at hall
  rw [Ty.unifyResolved, if_pos ⟨rfl, hlen'⟩]
  exact hall

/-- The equations with what their sides stand for. -/
def expandAll (σ : TypeStore α) (es : Equations α) : Equations α :=
  es.map fun e => (σ.expand e.1, σ.expand e.2)

theorem expandAll_eq_cons {es rest : Equations α} {u w : Ty α}
    (h : expandAll σ es = (u, w) :: rest) :
    ∃ a b fs, es = (a, b) :: fs ∧ σ.expand a = u ∧ σ.expand b = w ∧ expandAll σ fs = rest := by
  obtain ⟨⟨a, b⟩, fs, rfl, heq, hfs⟩ := List.map_eq_cons_iff.1 h
  obtain ⟨ha, hb⟩ := Prod.mk.inj heq
  exact ⟨a, b, fs, rfl, ha, hb, hfs⟩

theorem expandAll_subst (v : α) (u : Ty α) (es : Equations α) :
    expandAll ((v, u) :: σ) es = (expandAll σ es).subst v u := by
  simp [expandAll, Equations.subst]

theorem expandAll_zip (ps qs : List (Ty α)) :
    expandAll σ (ps.zip qs) = (ps.map σ.expand).zip (qs.map σ.expand) := by
  rw [List.zip_map]
  rfl

/-- **A run on cells follows the run on the store**, by the cases of the latter. -/
theorem unifyAll_follows (es : Equations α) (hσ : σ.Solved) :
    Follows (unifyAll logs es) σ (Equations.solve (expandAll σ es) σ) := by
  -- what types stand for has no bound variables
  have hfree : ∀ {σ : TypeStore α} {t : Ty α} {v : α}, σ.Solved → σ.expand t = .var v →
      v ∉ bound σ := fun h ht => h.not_mem_bound (by rw [ht]; exact List.mem_singleton_self _)
  generalize hus : expandAll σ es = us
  fun_induction Equations.solve us σ generalizing es with
  | case1 σ =>
    rw [List.map_eq_nil_iff.1 hus, unifyAll_nil]
    exact follows_pure none
  | case2 σ v rest ih =>
    obtain ⟨a, b, fs, rfl, ha, hb, hfs⟩ := expandAll_eq_cons hus
    have hstep := unify_var_follows logs (b := b) (hfree hσ ha) ha
    rw [hb, bindStore, if_pos rfl] at hstep
    exact unifyAll_next logs hstep (ih fs hσ hfs)
  | case3 σ v u rest hu hvu =>
    obtain ⟨a, b, fs, rfl, ha, rfl, hfs⟩ := expandAll_eq_cons hus
    have hstep := unify_var_follows logs (b := b) (hfree hσ ha) ha
    rw [bindStore, if_neg hu, if_pos hvu] at hstep
    exact unifyAll_clash logs fs hstep
  | case4 σ v u rest hu hvu ih =>
    obtain ⟨a, b, fs, rfl, ha, rfl, rfl⟩ := expandAll_eq_cons hus
    have hstep := unify_var_follows logs (b := b) (hfree hσ ha) ha
    rw [bindStore, if_neg hu, if_neg hvu] at hstep
    exact unifyAll_next logs hstep (ih fs (hσ.bind (hfree hσ ha) hvu) (expandAll_subst v _ fs))
  | case5 σ u v rest hu hvu =>
    obtain ⟨a, b, fs, rfl, rfl, hb, hfs⟩ := expandAll_eq_cons hus
    have hstep := unify_swap_follows logs (hfree hσ hb) hb hu
    rw [bindStore, if_neg (hu v), if_pos hvu] at hstep
    exact unifyAll_clash logs fs hstep
  | case6 σ u v rest hu hvu ih =>
    obtain ⟨a, b, fs, rfl, rfl, hb, rfl⟩ := expandAll_eq_cons hus
    have hstep := unify_swap_follows logs (hfree hσ hb) hb hu
    rw [bindStore, if_neg (hu v), if_neg hvu] at hstep
    exact unifyAll_next logs hstep (ih fs (hσ.bind (hfree hσ hb) hvu) (expandAll_subst v _ fs))
  | case7 σ x rest ih =>
    obtain ⟨a, b, fs, rfl, ha, hb, hfs⟩ := expandAll_eq_cons hus
    refine unifyAll_next logs (unify_follows_of logs fun a' b' ha' hb' => ?_) (ih fs hσ hfs)
    rw [ha'.eq_const ha, hb'.eq_const hb, Ty.unifyResolved, if_pos rfl]
    exact follows_pure none
  | case8 σ x y rest hxy =>
    obtain ⟨a, b, fs, rfl, ha, hb, hfs⟩ := expandAll_eq_cons hus
    refine unifyAll_clash logs fs (unify_follows_of logs fun a' b' ha' hb' => ?_)
    rw [← ha, ← hb, ← ha'.expand_eq, ← hb'.expand_eq, ha'.eq_const ha, hb'.eq_const hb,
      Ty.unifyResolved, if_neg hxy]
    exact mismatch_follows _ _
  | case9 σ f us g ws rest h ih =>
    obtain ⟨a, b, fs, rfl, ha, hb, rfl⟩ := expandAll_eq_cons hus
    obtain ⟨rfl, hlen⟩ := h
    refine unifyAll_op logs ha hb hlen fun ps qs hps hqs => ih (ps.zip qs ++ fs) hσ ?_
    rw [expandAll, List.map_append, hps, hqs, ← expandAll_zip]
    rfl
  | case10 σ f us g ws rest h =>
    obtain ⟨a, b, fs, rfl, ha, hb, hfs⟩ := expandAll_eq_cons hus
    refine unifyAll_clash logs fs (unify_follows_of logs fun a' b' ha' hb' => ?_)
    obtain ⟨ps, rfl, hps⟩ := ha'.eq_op ha
    obtain ⟨qs, rfl, hqs⟩ := hb'.eq_op hb
    have hne : ¬ (f = g ∧ ps.length = qs.length) := by simpa [hps, hqs] using h
    rw [← ha, ← hb, ← ha'.expand_eq, ← hb'.expand_eq, Ty.unifyResolved, if_neg hne]
    exact mismatch_follows _ _
  | case11 σ u w rest hu hw hconst hop =>
    obtain ⟨a, b, fs, rfl, rfl, rfl, hfs⟩ := expandAll_eq_cons hus
    refine unifyAll_clash logs fs (unify_follows_of logs fun a' b' ha hb => ?_)
    rw [Ty.unifyResolved.eq_5 logs a' b', ← ha.expand_eq, ← hb.expand_eq]
    · exact mismatch_follows _ _
    · exact fun v e => hu v (e ▸ ha).expand_var
    · exact fun v e => hw v (e ▸ hb).expand_var
    · exact fun x y e e' => hconst x y (e ▸ ha).expand_const (e' ▸ hb).expand_const
    · exact fun f ps g qs e e' => hop f _ g _ (e ▸ ha).expand_op (e' ▸ hb).expand_op

theorem unifyAll_singleton (a b : Ty α) : unifyAll logs [(a, b)] = a.unify logs b := by
  rw [unifyAll_cons]
  refine Eq.trans (bind_congr fun clash? => ?_) (bind_pure _)
  cases clash? <;> rfl

/-- **Unification on cells** ends, with the outcome and the bindings of the run on the store. -/
theorem unify_follows (a b : Ty α) (hσ : σ.Solved) :
    Follows (a.unify logs b) σ (σ.unify a b) := by
  rw [← unifyAll_singleton]
  exact unifyAll_follows logs [(a, b)] hσ

end CellM

end ProofKernel
