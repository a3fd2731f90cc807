import ProofKernel.Proofs.AcyclicStores
import ProofKernel.SimpleType.Cells

/-!
# What cells say of types

Cells hold types with bound variables, in no order, and looking at a type changes them. If no
variable leads back to itself, they say of every type which one it is, and looking ends and does not
change this.

* `TypeStore.Reads`: the types of the variables according to cells;
* `TypeStore.Represents`: cells that say the same as a solved store, with ranks of the variables
  that get smaller along the cells;
* `TypeStore.Acyclic.existsUnique_reads`: acyclic cells have one reading;
* `CellM.Gives`: what a computation on such cells gives, which it leaves saying the same;
* `CellM.resolve_gives`, `CellM.occurs_gives`, `CellM.equal_gives`, `CellM.readOut_gives`: looking at
  types.
-/

namespace ProofKernel

variable {α β γ : Type} [DecidableEq α]

namespace TypeStore

/-! ## Cells -/

section Cells

variable {c : TypeStore α} {v w : α} {t : Ty α}

theorem mem_of_get? (h : c.get? v = some t) : (v, t) ∈ c := by
  obtain ⟨⟨w, u⟩, hfind, rfl⟩ := Option.map_eq_some_iff.1 h
  have hw : w = v := by simpa using List.find?_some hfind
  exact hw ▸ List.mem_of_find?_eq_some hfind

theorem get?_eq_none_iff : c.get? v = none ↔ v ∉ bound c := by
  simp only [get?, Option.map_eq_none_iff, List.find?_eq_none, decide_eq_true_eq, mem_bound]
  exact ⟨fun h ⟨t, ht⟩ => h (v, t) ht rfl, fun h b hb hv => h ⟨b.2, hv ▸ hb⟩⟩

theorem mem_put {b : α × Ty α} : b ∈ c.put v t ↔ b = (v, t) ∨ b ∈ c ∧ b.1 ≠ v := by
  simp [put]

theorem mem_bound_put : w ∈ bound (c.put v t) ↔ w = v ∨ w ∈ bound c := by
  by_cases h : w = v <;> simp [put, bound, h]

theorem nodup_put (h : (bound c).Nodup) : (bound (c.put v t)).Nodup := by
  have hsub : (bound (c.filter fun b => b.1 ≠ v)).Sublist (bound c) :=
    List.filter_sublist.map Prod.fst
  refine List.nodup_cons.2 ⟨?_, h.sublist hsub⟩
  simp

end Cells

/-! ## Readings -/

/-- **What cells say of the types of variables**: a bound variable has the type in its cell, and the
others stand for themselves. -/
structure Reads (c : TypeStore α) (ρ : α → Ty α) : Prop where
  holds : Satisfies ρ c
  free : ∀ v, v ∉ bound c → ρ v = .var v

/-- **Cells that represent a solved store**: they bind the same variables to the same types, up to
the bindings, and ranks get smaller along them. -/
structure Represents (c : TypeStore α) (rank : α → Nat) (σ : TypeStore α) : Prop where
  nodup : (bound c).Nodup
  solved : σ.Solved
  bound_iff : ∀ v, v ∈ bound c ↔ v ∈ bound σ
  expand_eq : ∀ v t, (v, t) ∈ c → σ.expand (.var v) = σ.expand t
  rank_lt : ∀ v w, LeadsTo c v w → rank w < rank v

section Represents

variable {c σ : TypeStore α} {rank : α → Nat}

theorem Represents.acyclic (h : c.Represents rank σ) : c.Acyclic := .of_rank h.nodup h.rank_lt

/-- Acyclic cells represent a solved store: their own in some order. -/
theorem Acyclic.exists_represents (h : c.Acyclic) : ∃ rank σ, c.Represents rank σ := by
  obtain ⟨σ, hp, hσ⟩ := h.exists_solved
  obtain ⟨rank, hrank⟩ := hσ.exists_rank
  refine ⟨rank, σ, h.nodup, hσ, fun v => (bound_perm hp).mem_iff.symm, fun v t hvt => ?_,
    fun v w hvw => hrank v w (hvw.mono hp.symm.subset)⟩
  have hsatisfies := hσ.satisfies (v, t) (hp.mem_iff.2 hvt)
  rwa [← expand_eq_bind] at hsatisfies

theorem Represents.reads (h : c.Represents rank σ) : c.Reads fun v => σ.expand (.var v) where
  holds b hb := by
    rw [← expand_eq_bind]
    exact h.expand_eq b.1 b.2 hb
  free v hv := expand_eq_self fun w hw => by
    have hvw : w = v := by simpa [Ty.vars] using hw
    rwa [hvw, ← h.bound_iff]

/-- Cells say one thing, by induction on the ranks. -/
theorem Represents.reads_unique (h : c.Represents rank σ) {ρ ψ : α → Ty α} (hρ : c.Reads ρ)
    (hψ : c.Reads ψ) : ρ = ψ := by
  funext v
  induction hn : rank v using Nat.strong_induction_on generalizing v with
  | _ n ih =>
    by_cases hv : v ∈ bound c
    · obtain ⟨t, ht⟩ := mem_bound.1 hv
      have hvars : ∀ w ∈ t.vars, ρ w = ψ w := fun w hw =>
        ih (rank w) (hn ▸ h.rank_lt v w ⟨t, ht, hw⟩) w rfl
      calc ρ v = t.bind ρ := hρ.holds (v, t) ht
        _ = t.bind ψ := Ty.bind_congr hvars
        _ = ψ v := (hψ.holds (v, t) ht).symm
    · rw [hρ.free v hv, hψ.free v hv]

theorem Represents.reads_iff (h : c.Represents rank σ) {ρ : α → Ty α} :
    c.Reads ρ ↔ ρ = fun v => σ.expand (.var v) :=
  ⟨fun hρ => h.reads_unique hρ h.reads, fun hρ => hρ ▸ h.reads⟩

/-- **Acyclic cells have one reading.** -/
theorem Acyclic.existsUnique_reads (h : c.Acyclic) : ∃! ρ, c.Reads ρ := by
  obtain ⟨rank, σ, hσ⟩ := h.exists_represents
  exact ⟨_, hσ.reads, fun ρ hρ => hσ.reads_iff.1 hρ⟩

/-- A cell may hold any type that says the same and leads to smaller ranks. -/
theorem Represents.put (h : c.Represents rank σ) {v : α} {t : Ty α} (hv : v ∈ bound σ)
    (ht : σ.expand (.var v) = σ.expand t) (hrank : ∀ w ∈ t.vars, rank w < rank v) :
    (c.put v t).Represents rank σ where
  nodup := nodup_put h.nodup
  solved := h.solved
  bound_iff w := by
    rw [mem_bound_put, h.bound_iff]
    exact ⟨fun hw => hw.elim (fun e => e ▸ hv) id, .inr⟩
  expand_eq w u hu := by
    rcases mem_put.1 hu with heq | ⟨hu, -⟩
    · obtain ⟨rfl, rfl⟩ := Prod.mk.inj heq
      exact ht
    · exact h.expand_eq w u hu
  rank_lt := by
    rintro w x ⟨u, hu, hx⟩
    rcases mem_put.1 hu with heq | ⟨hu, -⟩
    · obtain ⟨rfl, rfl⟩ := Prod.mk.inj heq
      exact hrank x hx
    · exact h.rank_lt w x ⟨u, hu, hx⟩

end Represents

/-! ### What types stand for -/

theorem expand_const (σ : TypeStore α) (x : String) : σ.expand (.const x) = .const x := by
  rw [expand_eq_bind, Ty.bind]

theorem expand_op (σ : TypeStore α) (f : String) (ps : List (Ty α)) :
    σ.expand (.op f ps) = .op f (ps.map σ.expand) := by
  rw [expand_eq_bind, Ty.bind, Ty.bindAll_eq_map]
  exact congrArg (Ty.op f) (List.map_congr_left fun p _ => (expand_eq_bind σ p).symm)

theorem size_expand_lt (σ : TypeStore α) (f : String) {p : Ty α} {ps : List (Ty α)} (hp : p ∈ ps) :
    (σ.expand p).size < (σ.expand (.op f ps)).size := by
  have hle : ∀ qs : List (Ty α), p ∈ qs → (σ.expand p).size ≤ Ty.sizeAll (qs.map σ.expand) := by
    intro qs hqs
    induction qs with
    | nil => cases hqs
    | cons q qs ih =>
      rw [List.map_cons, Ty.sizeAll]
      rcases List.mem_cons.1 hqs with rfl | hqs
      · omega
      · have := ih hqs
        omega
  have := hle ps hp
  rw [expand_op, Ty.size]
  omega

end TypeStore

namespace CellM

open TypeStore

/-! ## Looking at types -/

omit [DecidableEq α] in
theorem run_bind {m : CellM α β} {c c' : TypeStore α} {b : β} (h : m.run c = some (b, c'))
    (f : β → CellM α γ) : (m >>= f).run c = (f b).run c' := by
  rw [StateT.run_bind, h]
  rfl

variable {rank : α → Nat} {σ : TypeStore α}

/-- **What a computation gives** on cells that represent a store: it ends with such a result, and
the cells represent the same store. -/
def Gives (rank : α → Nat) (σ : TypeStore α) (m : CellM α β) (P : β → Prop) : Prop :=
  ∀ c : TypeStore α, c.Represents rank σ →
    ∃ b c', m.run c = some (b, c') ∧ c'.Represents rank σ ∧ P b

theorem gives_pure {b : β} {P : β → Prop} (h : P b) : Gives rank σ (pure b) P :=
  fun c hc => ⟨b, c, rfl, hc, h⟩

theorem Gives.bind {m : CellM α β} {f : β → CellM α γ} {P : β → Prop} {Q : γ → Prop}
    (h : Gives rank σ m P) (hf : ∀ b, P b → Gives rank σ (f b) Q) : Gives rank σ (m >>= f) Q := by
  intro c hc
  obtain ⟨b, c', hrun, hc', hb⟩ := h c hc
  rw [run_bind hrun]
  exact hf b hb c' hc'

theorem Gives.mono {m : CellM α β} {P Q : β → Prop} (h : Gives rank σ m P) (hPQ : ∀ b, P b → Q b) :
    Gives rank σ m Q := by
  intro c hc
  obtain ⟨b, c', hrun, hc', hb⟩ := h c hc
  exact ⟨b, c', hrun, hc', hPQ b hb⟩

/-- A resolved type: it stands for the same type as before, and is no bound variable. -/
structure Resolved (σ : TypeStore α) (t r : Ty α) : Prop where
  expand_eq : σ.expand r = σ.expand t
  unbound : ∀ v, r = .var v → v ∉ bound σ

theorem resolve_self {t : Ty α} (hresolve : t.resolve = pure t)
    (h : ∀ v, t = .var v → v ∉ bound σ) : Gives rank σ t.resolve fun r =>
      Resolved σ t r ∧ ∀ w ∈ r.vars, ∃ x ∈ t.vars, rank w ≤ rank x := by
  rw [hresolve]
  exact gives_pure ⟨⟨rfl, h⟩, fun w hw => ⟨w, hw, Nat.le_refl _⟩⟩

/-- Resolving ends, as the ranks get smaller on the way. -/
theorem resolve_ranked (t : Ty α) : Gives rank σ t.resolve fun r =>
    Resolved σ t r ∧ ∀ w ∈ r.vars, ∃ x ∈ t.vars, rank w ≤ rank x := by
  cases t with
  | const x => exact resolve_self (by rw [Ty.resolve]) (by rintro w ⟨⟩)
  | op f ps => exact resolve_self (by rw [Ty.resolve]) (by rintro w ⟨⟩)
  | var v =>
    induction hn : rank v using Nat.strong_induction_on generalizing v with
    | _ n ih =>
    intro c hc
    rw [Ty.resolve, run_bind (rfl : (get : CellM α _).run c = some (c, c))]
    cases hget : c.get? v with
    | none =>
      have hv : v ∉ bound σ := by rwa [← hc.bound_iff, ← get?_eq_none_iff]
      refine ⟨.var v, c, rfl, hc, ⟨rfl, ?_⟩, fun w hw => ⟨w, hw, Nat.le_refl _⟩⟩
      rintro w ⟨⟩
      exact hv
    | some t =>
      have hmem := mem_of_get? hget
      have hbound : v ∈ bound σ := (hc.bound_iff v).1 (mem_bound.2 ⟨t, hmem⟩)
      have ht : Gives rank σ t.resolve fun r =>
          Resolved σ t r ∧ ∀ w ∈ r.vars, ∃ x ∈ t.vars, rank w ≤ rank x := by
        cases t with
        | const x => exact resolve_self (by rw [Ty.resolve]) (by rintro w ⟨⟩)
        | op f ps => exact resolve_self (by rw [Ty.resolve]) (by rintro w ⟨⟩)
        | var w =>
          have hlt : rank w < rank v := hc.rank_lt v w ⟨_, hmem, List.mem_singleton_self w⟩
          exact ih (rank w) (hn ▸ hlt) w rfl
      obtain ⟨r, c', hrun, hc', hr, hle⟩ := ht c hc
      have hexpand : σ.expand (.var v) = σ.expand r :=
        (hc.expand_eq v t hmem).trans hr.expand_eq.symm
      have hrank : ∀ w ∈ r.vars, rank w < rank v := by
        intro w hw
        obtain ⟨x, hx, hle⟩ := hle w hw
        exact Nat.lt_of_le_of_lt hle (hc.rank_lt v x ⟨t, hmem, hx⟩)
      refine ⟨r, c'.put v r, ?_, hc'.put hbound hexpand hrank, ⟨hexpand.symm, hr.unbound⟩, ?_⟩
      · dsimp only
        rw [run_bind hrun]
        rfl
      · exact fun w hw => ⟨v, List.mem_singleton_self v, (hrank w hw).le⟩

/-- **Resolving** ends, with a resolved type. -/
theorem resolve_gives (t : Ty α) : Gives rank σ t.resolve (Resolved σ t) :=
  (resolve_ranked t).mono fun _ h => h.1

section Resolved

variable {t : Ty α}

theorem Resolved.expand_var {v : α} (h : Resolved σ t (.var v)) : σ.expand t = .var v := by
  rw [← h.expand_eq]
  refine expand_eq_self fun w hw => ?_
  have hvw : w = v := by simpa [Ty.vars] using hw
  rw [hvw]
  exact h.unbound v rfl

theorem Resolved.expand_const {x : String} (h : Resolved σ t (.const x)) :
    σ.expand t = .const x := by
  rw [← h.expand_eq, TypeStore.expand_const]

theorem Resolved.expand_op {f : String} {ps : List (Ty α)} (h : Resolved σ t (.op f ps)) :
    σ.expand t = .op f (ps.map σ.expand) := by
  rw [← h.expand_eq, TypeStore.expand_op]

theorem Resolved.size_lt {f : String} {ps : List (Ty α)} (h : Resolved σ t (.op f ps))
    {p : Ty α} (hp : p ∈ ps) : (σ.expand p).size < (σ.expand t).size := by
  rw [← h.expand_eq]
  exact size_expand_lt σ f hp

end Resolved

theorem anyM_gives {v : α} {ps : List (Ty α)}
    (h : ∀ p ∈ ps, Gives rank σ (p.occurs v) (· = decide (v ∈ (σ.expand p).vars))) :
    Gives rank σ (ps.anyM fun p => p.occurs v) (· = decide (v ∈ Ty.varsAll (ps.map σ.expand))) := by
  induction ps with
  | nil =>
    rw [List.anyM]
    exact gives_pure rfl
  | cons p ps ih =>
    obtain ⟨hp, hps⟩ := List.forall_mem_cons.1 h
    rw [List.anyM]
    refine hp.bind fun b hb => ?_
    rw [List.map_cons, Ty.varsAll]
    cases b with
    | true =>
      have hv : v ∈ (σ.expand p).vars := of_decide_eq_true hb.symm
      exact gives_pure (by simp [hv])
    | false =>
      have hv : v ∉ (σ.expand p).vars := of_decide_eq_false hb.symm
      refine (ih hps).mono fun b hb => ?_
      rw [hb]
      simp [hv]

/-- **The occurs check** ends, by induction on the size of the type that the type stands for. -/
theorem occurs_gives (v : α) (t : Ty α) :
    Gives rank σ (t.occurs v) (· = decide (v ∈ (σ.expand t).vars)) := by
  induction hn : (σ.expand t).size using Nat.strong_induction_on generalizing t with
  | _ n ih =>
    rw [Ty.occurs]
    refine (resolve_gives t).bind fun r hr => ?_
    cases r with
    | var w =>
      rw [hr.expand_var]
      exact gives_pure (by simp [Ty.vars])
    | const x =>
      rw [hr.expand_const]
      exact gives_pure rfl
    | op f ps =>
      rw [hr.expand_op]
      exact anyM_gives fun p hp => ih _ (hn ▸ hr.size_lt hp) p rfl

theorem allM_gives {es : Equations α}
    (h : ∀ e ∈ es, Gives rank σ (e.1.equal e.2) (· = decide (σ.expand e.1 = σ.expand e.2))) :
    Gives rank σ (es.allM fun e => e.1.equal e.2)
      (· = decide (∀ e ∈ es, σ.expand e.1 = σ.expand e.2)) := by
  induction es with
  | nil =>
    rw [List.allM]
    exact gives_pure (by simp)
  | cons e es ih =>
    obtain ⟨he, hes⟩ := List.forall_mem_cons.1 h
    obtain ⟨p, q⟩ := e
    rw [List.allM]
    refine he.bind fun b hb => ?_
    cases b with
    | false =>
      have hne : σ.expand p ≠ σ.expand q := of_decide_eq_false hb.symm
      exact gives_pure (by simp [hne])
    | true =>
      have heq : σ.expand p = σ.expand q := of_decide_eq_true hb.symm
      refine (ih hes).mono fun b hb => ?_
      rw [hb]
      simp [heq]

omit [DecidableEq α] in
theorem forall_mem_zip_iff {f : Ty α → Ty β} {ps qs : List (Ty α)} (h : ps.length = qs.length) :
    (∀ e ∈ ps.zip qs, f e.1 = f e.2) ↔ ps.map f = qs.map f := by
  induction ps generalizing qs with
  | nil =>
    rw [List.length_eq_zero_iff.1 h.symm]
    simp
  | cons p ps ih =>
    cases qs with
    | nil => cases h
    | cons q qs => simpa using fun _ => ih (Nat.succ.inj h)

/-- **Comparing** ends, and tells whether the two types stand for the same one. -/
theorem equal_gives (a b : Ty α) :
    Gives rank σ (a.equal b) (· = decide (σ.expand a = σ.expand b)) := by
  induction hn : (σ.expand a).size using Nat.strong_induction_on generalizing a b with
  | _ n ih =>
    rw [Ty.equal]
    refine (resolve_gives a).bind fun a' ha => (resolve_gives b).bind fun b' hb => ?_
    cases a' with
    | var v =>
      rw [ha.expand_var]
      cases b' with
      | var w => rw [hb.expand_var]; exact gives_pure (by simp)
      | const y => rw [hb.expand_const]; exact gives_pure (by simp)
      | op g qs => rw [hb.expand_op]; exact gives_pure (by simp)
    | const x =>
      rw [ha.expand_const]
      cases b' with
      | var w => rw [hb.expand_var]; exact gives_pure (by simp)
      | const y => rw [hb.expand_const]; exact gives_pure (by simp)
      | op g qs => rw [hb.expand_op]; exact gives_pure (by simp)
    | op f ps =>
      rw [ha.expand_op]
      cases b' with
      | var w => rw [hb.expand_var]; exact gives_pure (by simp)
      | const y => rw [hb.expand_const]; exact gives_pure (by simp)
      | op g qs =>
        rw [hb.expand_op]
        dsimp only
        split
        next h =>
          refine (allM_gives fun e he => ih _ ?_ e.1 e.2 rfl).mono fun b hb => ?_
          · exact hn ▸ ha.size_lt (List.of_mem_zip he).1
          · rw [hb, decide_eq_decide, forall_mem_zip_iff h.2]
            simp [h.1]
        next h =>
          refine gives_pure ?_
          simp only [Ty.op.injEq]
          refine (decide_eq_false fun heq => h ⟨heq.1, ?_⟩).symm
          simpa using congrArg List.length heq.2

theorem mapM_gives {ps : List (Ty α)} (h : ∀ p ∈ ps, Gives rank σ p.readOut (· = σ.expand p)) :
    Gives rank σ (ps.mapM fun p => p.readOut) (· = ps.map σ.expand) := by
  induction ps with
  | nil =>
    rw [List.mapM_nil]
    exact gives_pure rfl
  | cons p ps ih =>
    obtain ⟨hp, hps⟩ := List.forall_mem_cons.1 h
    rw [List.mapM_cons]
    refine hp.bind fun p' hp' => (ih hps).bind fun ps' hps' => gives_pure ?_
    rw [hp', hps', List.map_cons]

/-- **Reading in full** ends, and gives the type that the type stands for. -/
theorem readOut_gives (t : Ty α) : Gives rank σ t.readOut (· = σ.expand t) := by
  induction hn : (σ.expand t).size using Nat.strong_induction_on generalizing t with
  | _ n ih =>
    rw [Ty.readOut]
    refine (resolve_gives t).bind fun r hr => ?_
    cases r with
    | var w => exact gives_pure hr.expand_var.symm
    | const x => exact gives_pure hr.expand_const.symm
    | op f ps =>
      refine (mapM_gives fun p hp => ih _ (hn ▸ hr.size_lt hp) p rfl).bind fun ps' hps' => ?_
      rw [hr.expand_op, hps']
      exact gives_pure rfl

end CellM

end ProofKernel
