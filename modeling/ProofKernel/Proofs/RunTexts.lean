import ProofKernel.Proofs.NamedCells
import ProofKernel.Proofs.TypeSoundness

/-!
# The texts of the types of a run

A text shows the names of type variables, while types are equal if they have the same variables.
What inference gives can be told apart by its texts all the same: all its variables are cells to which
the run has given names.

* `TypeEnv.Reachable.declared_over`: what the declared types are;
* `Shows`: what a call has given, on cells with names and in inference;
* `TypeEnv.inferNamed_follows`, `TypeEnv.inferNamedAll_follows`: calls, one after the other;
* `Shows.text`, `Shows.same`: what the text of a type is, and when two types are equal;
* `TypeEnv.inferNamed_unambiguous`: types are equal exactly if they have the same text.
-/

namespace ProofKernel

open TypeStore NamedRun

namespace TypeEnv

variable {env : TypeEnv}

/-! ## Environments -/

theorem standard_over : ∀ entry ∈ standard.declared, entry.2.Over fun _ => True := by
  simp [standard, Ty.over_fn_iff, Ty.over_var_iff, Ty.over_truth, Ty.over_individual]

/-- The declared types. -/
theorem Reachable.declared_over (henv : env.Reachable) :
    ∀ entry ∈ env.declared, entry.2.Over fun _ => True := by
  induction henv with
  | empty => exact nofun
  | standard => exact standard_over
  | @declare env env' name type h hd ih =>
    unfold TypeEnv.declare at hd
    split at hd
    next t hread =>
      cases hd
      exact List.forall_mem_cons.2 ⟨Ty.over_of_read hread, ih⟩
    next => cases hd
  | define h hd ih =>
    obtain ⟨rfl, -, -⟩ := define_eq hd
    exact ih

end TypeEnv

/-! ## The types that calls give -/

/-- A type on cells that a call has given, and the one that the call gives in inference: the second
one is the first one with bindings put in. -/
def Shows (e : Nat → Nat) (s₀ : Inference) (T T₀ : Ty Nat) : Prop :=
  T₀.Over (IsMinted s₀.next) ∧
    ∃ T₁ : Ty Nat, T = T₁.rename e ∧ (∀ v ∈ T₁.vars, v < s₀.next) ∧
      s₀.store.expand T₁ = s₀.store.expand T₀

/-- What a call has given stays so, whatever is bound later. -/
theorem Shows.grows {e e' : Nat → Nat} {s₀ s₀' : Inference} {T T₀ : Ty Nat}
    (h : Shows e s₀ T T₀) (hgrows : Grows e s₀.next e' s₀'.next) (hext : s₀.Extends s₀')
    (hsolved : s₀'.store.Solved) : Shows e' s₀' T T₀ := by
  obtain ⟨hover, T₁, rfl, hvars, hexpand⟩ := h
  have hlater : ∀ t, s₀'.store.expand t =
      (s₀.store.expand t).bind fun v => s₀'.store.expand (.var v) := fun t => by
    rw [bind_expand (hsolved.satisfies.of_suffix hext.store), ← expand_eq_bind]
  refine ⟨hover.mono fun _ hv => hv.mono hgrows.next, T₁, ?_, fun v hv => ?_, ?_⟩
  · exact (Ty.rename_congr fun v hv => hgrows.places v (hvars v hv)).symm
  · exact (hvars v hv).trans_le hgrows.next
  · rw [hlater, hexpand, ← hlater]

section Run

variable {env : TypeEnv} {ι : Type} {e : Nat → Nat} {s : NamedRun} {s₀ : Inference}

/-- A resolved type has variables of the run only. -/
theorem NamedRun.Mirrors.shows (hs : Mirrors e s s₀) (hsolved : s₀.store.Solved)
    {t₀ T : Ty Nat} (ht : t₀.Over (IsMinted s₀.next))
    (hT : CellM.Resolved (s₀.store.rename e) (t₀.rename e) T) :
    Shows e s₀ T (s₀.store.expand t₀) := by
  have hinjective := hs.places.mono.injective
  have hover : (s₀.store.expand t₀).Over (IsMinted s₀.next) := hs.known.store.expand ht
  have hexpand : (s₀.store.rename e).expand T = (s₀.store.expand t₀).rename e :=
    hT.expand_eq.trans (TypeStore.expand_rename hinjective _ _)
  have hplace : ∀ w ∈ T.vars, ∃ v, v < s₀.next ∧ w = e v := by
    intro w hw
    by_cases hbound : w ∈ bound (s₀.store.rename e)
    · obtain ⟨u, hu⟩ := mem_bound.1 hbound
      obtain ⟨b, hb, heq⟩ := List.mem_map.1 hu
      exact ⟨b.1, (hs.known.store b hb).1.2, (congrArg Prod.fst heq).symm⟩
    · have hmem : w ∈ ((s₀.store.rename e).expand T).vars := by
        refine mem_vars_expand.2 ⟨w, hw, ?_⟩
        rw [expand_var_of_not_mem hbound]
        exact List.mem_singleton_self w
      rw [hexpand, Ty.vars_rename] at hmem
      obtain ⟨v, hv, rfl⟩ := List.mem_map.1 hmem
      exact ⟨v, (hover.of_mem_vars hv).2, rfl⟩
  obtain ⟨T₁, rfl, hvars⟩ := Ty.exists_rename hplace
  refine ⟨hover, T₁, rfl, hvars, ?_⟩
  rw [TypeStore.expand_rename hinjective] at hexpand
  rw [Ty.rename_injective hinjective hexpand]
  exact (expand_eq_self fun w hw => hsolved.not_mem_bound hw).symm

/-- **A call** gives what it gives in inference, on cells of the run. -/
theorem TypeEnv.inferNamed_follows (henv : env.Reachable) (logs : Bool) (m : Term ι)
    (hs : Mirrors e s s₀) (hgood : s₀.Good) :
    ∃ e' r s', (env.inferNamed logs m).run s = some (r, s') ∧ Mirrors e' s' (env.infer m s₀).2 ∧
      Grows e s₀.next e' (env.infer m s₀).2.next ∧
      NamedInfer.Agree (Shows e' (env.infer m s₀).2) r (env.infer m s₀).1 := by
  have hdeclared : ∀ name t, env.declared? name = some t → t.Over fun _ => True :=
    fun name t h => henv.declared_over _ (Scope.mem_of_lookup? h)
  have hsolved := (TypeEnv.inferIn_types henv.defined_once m hgood).good.solved
  have hinfer : env.infer m s₀ =
    ((env.inferIn m s₀).1.map (env.inferIn m s₀).2.store.expand, (env.inferIn m s₀).2) := rfl
  obtain ⟨e', r, s₁, hrun, hs₁, hgrows, hr⟩ := NamedInfer.inferWith_follows logs
    (NamedInfer.constantType_follows logs hdeclared env.defined) m hs
  rw [TypeEnv.inferNamed, hinfer]
  change Mirrors e' s₁ (env.inferIn m s₀).2 at hs₁
  change Grows e s₀.next e' (env.inferIn m s₀).2.next at hgrows
  change NamedInfer.Agree (Renamed e' (env.inferIn m s₀).2.next) r (env.inferIn m s₀).1 at hr
  generalize env.inferIn m s₀ = r₀ at hs₁ hgrows hr hsolved
  obtain ⟨err₀ | t₀, s₁₀⟩ := r₀ <;> obtain err | t := r
  · exact ⟨e', .error err, s₁, CellInfer.run_bind_error hrun _, hs₁, hgrows, trivial⟩
  · exact hr.elim
  · exact hr.elim
  · obtain ⟨rfl, ht⟩ := hr
    obtain ⟨T, s', hresolve, hs', hT⟩ :=
      hs₁.onCells fun rank => CellM.resolve_gives (t₀.rename e')
    exact ⟨e', .ok T, s', (CellInfer.run_bind_ok hrun _).trans hresolve, hs', hgrows,
      hs'.shows hsolved ht hT⟩

/-- **Calls one after the other**: what each of them has given is, in the state at the end, what it
has given in inference. By induction on the calls. -/
theorem TypeEnv.inferNamedAll_follows (henv : env.Reachable) (logs : Bool) (ms : List (Term ι))
    (hs : Mirrors e s s₀) (hgood : s₀.Good) :
    ∃ e' rs s', (ms.mapM fun m => (env.inferNamed logs m).run).run s = some (rs, s') ∧
      Mirrors e' s' (env.inferAll ms s₀).2 ∧ Grows e s₀.next e' (env.inferAll ms s₀).2.next ∧
      List.Forall₂ (NamedInfer.Agree (Shows e' (env.inferAll ms s₀).2)) rs
        (env.inferAll ms s₀).1 := by
  induction ms generalizing e s s₀ with
  | nil => exact ⟨e, [], s, rfl, hs, .refl e s₀.next, .nil⟩
  | cons m ms ih =>
    obtain ⟨e₁, r, s₁, hrun, hs₁, hgrows₁, hr⟩ := TypeEnv.inferNamed_follows henv logs m hs hgood
    have hgood₁ := (TypeEnv.inferIn_types henv.defined_once m hgood).good
    obtain ⟨e', rs, s', hruns, hs', hgrows', hrs⟩ := ih hs₁ hgood₁
    obtain ⟨hext, hgood'⟩ := TypeEnv.inferAll_extends henv.defined_once ms hgood₁
    refine ⟨e', r :: rs, s', ?_, hs', hgrows₁.trans hgrows', .cons ?_ hrs⟩
    · rw [List.mapM_cons]
      show ((env.inferNamed logs m).run.run s >>= _) = _
      rw [show (env.inferNamed logs m).run.run s = _ from hrun]
      show ((ms.mapM fun m => (env.inferNamed logs m).run).run s₁ >>= _) = _
      rw [hruns]
      rfl
    · exact hr.mono fun T T₀ h => h.grows hgrows' hext hgood'.solved

/-- What a type shows that a call has given. -/
theorem Shows.readOut {T T₀ : Ty Nat} (hs : Mirrors e s s₀) (h : Shows e s₀ T T₀) :
    s.readOut T = some ((s₀.store.expand T₀).rename e) := by
  obtain ⟨-, T₁, rfl, -, hexpand⟩ := h
  obtain ⟨rank, hstore⟩ := hs.cells.store
  obtain ⟨T', c, hrun, -, hT'⟩ := CellM.readOut_gives (T₁.rename e) _ hstore
  rw [NamedRun.readOut, show (T₁.rename e).readOut.run s.cells.store = _ from hrun, hT']
  show some ((s₀.store.rename e).expand (T₁.rename e)) = _
  rw [TypeStore.expand_rename hs.places.mono.injective, hexpand]

/-- The variables of what a type shows that a call has given. -/
theorem Shows.over {T T₀ : Ty Nat} (hs : Mirrors e s s₀) (h : Shows e s₀ T T₀) :
    (s₀.store.expand T₀).Over (IsMinted s₀.next) := hs.known.store.expand h.1

/-- The text of a type that a call has given is the one that it has in inference. -/
theorem Shows.text {T T₀ : Ty Nat} (hs : Mirrors e s s₀) (h : Shows e s₀ T T₀) :
    s.text T = some (s₀.store.render typeLabel T₀) := by
  rw [NamedRun.text, h.readOut hs]
  refine congrArg some ((h.over hs).render_rename fun v hv => ?_)
  rw [hs.name v hv]
  rfl

/-- Two types that calls have given are equal if they show the same type of inference. -/
theorem Shows.same {T T₀ U U₀ : Ty Nat} (hs : Mirrors e s s₀) (hT : Shows e s₀ T T₀)
    (hU : Shows e s₀ U U₀) :
    s.same T U = some (decide (s₀.store.expand T₀ = s₀.store.expand U₀)) := by
  obtain ⟨-, T₁, rfl, -, hT⟩ := hT
  obtain ⟨-, U₁, rfl, -, hU⟩ := hU
  obtain ⟨rank, hstore⟩ := hs.cells.store
  obtain ⟨r, c, hrun, -, hr⟩ := CellM.equal_gives (T₁.rename e) (U₁.rename e) _ hstore
  have hinjective := hs.places.mono.injective
  rw [NamedRun.same, show ((T₁.rename e).equal (U₁.rename e)).run s.cells.store = _ from hrun, hr]
  show some (decide ((s₀.store.rename e).expand (T₁.rename e) =
    (s₀.store.rename e).expand (U₁.rename e))) = _
  simp only [TypeStore.expand_rename hinjective, Ty.rename_eq_iff hinjective, hT, hU]

/-- **The texts of the types of a run can be told apart.** Let terms be inferred one after the other in
one run on cells with names, calls that fail included. The types that the calls have given show, at
the end, the texts that they have in inference. Each type variable in them is a cell that the run has
given a name, and none of a declared type; different ones have different names. So two of the types
are equal exactly if they have the same text. -/
theorem TypeEnv.inferNamed_unambiguous (henv : env.Reachable) (logs : Bool) (ms : List (Term ι)) :
    ∃ results s, (ms.mapM fun m => (env.inferNamed logs m).run).run .start = some (results, s) ∧
      List.Forall₂ (NamedInfer.Agree fun T T₀ =>
          s.text T = some ((env.inferAll ms .start).2.store.render typeLabel T₀))
        results (env.inferAll ms .start).1 ∧
      ∀ T U, .ok T ∈ results → .ok U ∈ results →
        ∃ T' U', s.readOut T = some T' ∧ s.readOut U = some U' ∧
          (∀ v ∈ T'.vars, ∃ n, IsMinted s.minted n ∧ s.name v = .minted n) ∧
          (∀ v ∈ T'.vars, ∀ w ∈ U'.vars, (s.name v).label = (s.name w).label → v = w) ∧
          ∃ a b, s.text T = some a ∧ s.text U = some b ∧ s.same T U = some (decide (a = b)) := by
  obtain ⟨e, results, s, hrun, hs, -, hresults⟩ :=
    TypeEnv.inferNamedAll_follows henv logs ms mirrors_start Inference.good_start
  generalize (env.inferAll ms .start).2 = s₀ at hs hresults ⊢
  refine ⟨results, s, hrun, hresults.imp fun r r₀ h => h.mono fun T T₀ h => h.text hs, ?_⟩
  intro T U hT hU
  obtain ⟨T₀, hT⟩ := NamedInfer.exists_of_agree hresults hT
  obtain ⟨U₀, hU⟩ := NamedInfer.exists_of_agree hresults hU
  -- the variables of what a type shows are the cells of variables of the run
  have hvars : ∀ {T T₀ : Ty Nat}, Shows e s₀ T T₀ → ∀ v ∈ ((s₀.store.expand T₀).rename e).vars,
      ∃ n, IsMinted s₀.next n ∧ e n = v ∧ s.name v = .minted n := by
    intro T T₀ h v hv
    rw [Ty.vars_rename] at hv
    obtain ⟨n, hn, rfl⟩ := List.mem_map.1 hv
    have hminted := (h.over hs).of_mem_vars hn
    exact ⟨n, hminted, rfl, hs.name n hminted⟩
  refine ⟨_, _, hT.readOut hs, hU.readOut hs, fun v hv => ?_, fun v hv w hw hlabel => ?_,
    _, _, hT.text hs, hU.text hs, ?_⟩
  · obtain ⟨n, hn, -, hname⟩ := hvars hT v hv
    exact ⟨n, hs.minted ▸ hn, hname⟩
  · obtain ⟨n, -, rfl, hname⟩ := hvars hT v hv
    obtain ⟨k, -, rfl, hname'⟩ := hvars hU w hw
    rw [hname, hname'] at hlabel
    rw [typeLabel_injective hlabel]
  · have hiff : s₀.store.expand T₀ = s₀.store.expand U₀ ↔
        s₀.store.render typeLabel T₀ = s₀.store.render typeLabel U₀ :=
      ⟨congrArg (Ty.render typeLabel), Ty.render_label_injective (hT.over hs) (hU.over hs)⟩
    rw [hT.same hs hU, decide_eq_decide.2 hiff]

/-- A declared type whose variables have the names of variables of the run, in two calls with one that
fails between them. -/
theorem TypeEnv.inferNamed_unambiguous_declared :
    let env : TypeEnv := ⟨[("K", .fn (.var "t2") (.var "t1"))], []⟩
    let ms : List PlainTerm := [.named "K", .call (.named "x") (.named "x"), .named "K"]
    env.Reachable ∧ ∃ T U err s, (ms.mapM fun m => (env.inferNamed false m).run).run .start =
        some ([.ok T, .error err, .ok U], s) ∧
      s.text T = some "(t1 -> t2)" ∧ s.text U = some "(t5 -> t6)" ∧ s.same T U = some false := by
  intro env ms
  have hdeclare : TypeEnv.empty.declare "K" "t2 t1" = .ok env := by cbv
  have henv : env.Reachable := .declare .empty hdeclare
  obtain ⟨results, s, hrun, htexts, hsame⟩ := TypeEnv.inferNamed_unambiguous henv false ms
  have hinfer : (env.inferAll ms .start).1 = [.ok (.fn (.var 1) (.var 2)),
      .error (.clash (.recursive 3 (.fn (.var 3) (.var 4)))), .ok (.fn (.var 5) (.var 6))] := by cbv
  have hfirst : (env.inferAll ms .start).2.store.render typeLabel (.fn (.var 1) (.var 2)) =
      "(t1 -> t2)" := by cbv
  have hlast : (env.inferAll ms .start).2.store.render typeLabel (.fn (.var 5) (.var 6)) =
      "(t5 -> t6)" := by cbv
  rw [hinfer] at htexts
  obtain _ | ⟨hT, _ | ⟨herr, _ | ⟨hU, ⟨⟩⟩⟩⟩ := htexts
  rename_i r₁ r₂ r₃
  obtain _ | T := r₁
  · exact hT.elim
  obtain err | _ := r₂
  · obtain _ | U := r₃
    · exact hU.elim
    obtain ⟨-, -, -, -, -, -, a, b, ha, hb, hab⟩ := hsame T U (by simp) (by simp)
    change s.text T = _ at hT
    change s.text U = _ at hU
    rw [hfirst] at hT
    rw [hlast] at hU
    cases ha.symm.trans hT
    cases hb.symm.trans hU
    exact ⟨henv, T, U, err, s, hrun, hT, hU, hab⟩
  · exact herr.elim

end Run

end ProofKernel
