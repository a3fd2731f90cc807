import Mathlib.Data.List.Basic
import Mathlib.Tactic.Choose
import ProofKernel.Proofs.Unification

/-!
# Types with other variables

What is done with types does not depend on which variables they have, but only on which of them are
the same: it commutes with putting other variables in for all of them, different ones for different
ones.

* `Ty.rename`, `TypeStore.rename`, `TypeClash.rename`: other variables in place of those of a type, a
  store, a clash;
* `TypeStore.expand_rename`: the types that types stand for;
* `Equations.solve_rename`, `TypeStore.unify_rename`: unification.
-/

namespace ProofKernel

variable {α β : Type}

/-! ## Lists with other elements -/

section Lists

variable [BEq α] [LawfulBEq α] [BEq β] [LawfulBEq β]

theorem idxOf_map {f : α → β} {x : α} {l : List α} (h : ∀ y ∈ l, f y = f x → y = x) :
    (l.map f).idxOf (f x) = l.idxOf x := by
  induction l with
  | nil => rfl
  | cons y l ih =>
    rw [List.map_cons, List.idxOf_cons, List.idxOf_cons,
      ih fun z hz => h z (List.mem_cons_of_mem _ hz)]
    by_cases hyx : y = x
    · rw [hyx, beq_self_eq_true, beq_self_eq_true]
    · have hne : f y ≠ f x := fun heq => hyx (h y List.mem_cons_self heq)
      rw [beq_eq_false_iff_ne.2 hyx, beq_eq_false_iff_ne.2 hne]

theorem eraseDups_map {f : α → β} {l : List α} (h : ∀ x ∈ l, ∀ y ∈ l, f x = f y → x = y) :
    (l.map f).eraseDups = l.eraseDups.map f := by
  induction hn : l.length using Nat.strongRecOn generalizing l with
  | _ n ih =>
    cases l with
    | nil => rfl
    | cons x l =>
      have hfilter : (l.map f).filter (fun y => !y == f x) = (l.filter fun y => !y == x).map f := by
        rw [List.filter_map]
        congr 1
        refine List.filter_congr fun y hy => ?_
        have hiff : f y = f x ↔ y = x :=
          ⟨h y (List.mem_cons_of_mem _ hy) x List.mem_cons_self, congrArg f⟩
        simp [Function.comp, hiff]
      rw [List.map_cons, List.eraseDups_cons, List.eraseDups_cons, List.map_cons, hfilter]
      refine congrArg _ (ih _ ?_ (fun y hy z hz => h y ?_ z ?_) rfl)
      · subst hn
        exact Nat.lt_succ_of_le (List.length_filter_le _ _)
      · exact List.mem_cons_of_mem _ (List.mem_filter.1 hy).1
      · exact List.mem_cons_of_mem _ (List.mem_filter.1 hz).1

end Lists

/-! ## Types -/

namespace Ty

/-- The type with other variables in place of its own. -/
def rename (e : α → β) (t : Ty α) : Ty β := t.bind fun v => .var (e v)

@[simp] theorem rename_var (e : α → β) (v : α) : (Ty.var v).rename e = .var (e v) := rfl

@[simp] theorem rename_const (e : α → β) (x : String) : (Ty.const x).rename e = .const x := rfl

@[simp] theorem rename_op (e : α → β) (f : String) (ps : List (Ty α)) :
    (Ty.op f ps).rename e = .op f (ps.map (rename e)) := by
  rw [rename, bind, bindAll_eq_map]
  rfl

theorem rename_congr {e e' : α → β} {t : Ty α} (h : ∀ v ∈ t.vars, e' v = e v) :
    t.rename e' = t.rename e :=
  bind_congr fun v hv => congrArg Ty.var (h v hv)

variable {e : α → β}

mutual

theorem vars_rename : ∀ t : Ty α, (t.rename e).vars = t.vars.map e
  | .var _ => rfl
  | .const _ => rfl
  | .op f ps => by rw [rename_op, vars, vars, varsAll_rename ps]

theorem varsAll_rename : ∀ ts : List (Ty α), varsAll (ts.map (rename e)) = (varsAll ts).map e
  | [] => rfl
  | t :: ts => by
    rw [List.map_cons, varsAll, varsAll, vars_rename t, varsAll_rename ts, List.map_append]

end

mutual

/-- Types with different variables stay different. -/
theorem rename_injective (he : Function.Injective e) :
    ∀ {t u : Ty α}, t.rename e = u.rename e → t = u
  | .var _, .var _, h => by simpa [he.eq_iff] using h
  | .const _, .const _, h => by simpa using h
  | .op f ps, .op g qs, h => by
    rw [rename_op, rename_op] at h
    injection h with hf hps
    rw [hf, map_rename_injective he hps]
  | .var _, .const _, h | .var _, .op .., h | .const _, .var _, h | .const _, .op .., h
  | .op .., .var _, h | .op .., .const _, h => by simp at h

theorem map_rename_injective (he : Function.Injective e) :
    ∀ {ts us : List (Ty α)}, ts.map (rename e) = us.map (rename e) → ts = us
  | [], [], _ => rfl
  | [], _ :: _, h | _ :: _, [], h => by simp at h
  | t :: ts, u :: us, h => by
    rw [List.map_cons, List.map_cons] at h
    injection h with ht hts
    rw [rename_injective he ht, map_rename_injective he hts]

end

theorem mem_vars_rename_iff (he : Function.Injective e) {v : α} {t : Ty α} :
    e v ∈ (t.rename e).vars ↔ v ∈ t.vars := by
  rw [vars_rename, List.mem_map]
  exact ⟨fun ⟨w, hw, heq⟩ => he heq ▸ hw, fun hv => ⟨v, hv, rfl⟩⟩

theorem rename_eq_var_iff (he : Function.Injective e) {v : α} {t : Ty α} :
    t.rename e = .var (e v) ↔ t = .var v := by
  constructor
  · exact fun h => rename_injective he h
  · rintro rfl
    rfl

theorem rename_eq_iff (he : Function.Injective e) {t u : Ty α} :
    t.rename e = u.rename e ↔ t = u :=
  ⟨rename_injective he, congrArg _⟩

theorem rename_ne_var {t : Ty α} (h : ∀ v, t ≠ .var v) : ∀ w, t.rename e ≠ .var w := by
  cases t with
  | var v => exact absurd rfl (h v)
  | const | op => simp

theorem rename_eq_const {t : Ty α} {x : String} (h : t.rename e = .const x) : t = .const x := by
  cases t with
  | const => simpa using h
  | var | op => simp at h

theorem exists_of_rename_eq_op {t : Ty α} {f : String} {ps : List (Ty β)}
    (h : t.rename e = .op f ps) : ∃ qs, t = .op f qs := by
  cases t with
  | op g qs =>
    rw [rename_op] at h
    injection h with hg
    exact ⟨qs, by rw [hg]⟩
  | var | const => simp at h

/-- A type whose variables are all put in for other ones. -/
theorem exists_rename [Inhabited α] {P : α → Prop} {t : Ty β}
    (h : ∀ w ∈ t.vars, ∃ v, P v ∧ w = e v) : ∃ u : Ty α, t = u.rename e ∧ ∀ v ∈ u.vars, P v := by
  choose! f hf using h
  refine ⟨t.rename f, ?_, fun v hv => ?_⟩
  · rw [rename, rename, bind_bind]
    refine (bind_var t).symm.trans (bind_congr fun w hw => ?_)
    exact congrArg var (hf w hw).2
  · rw [vars_rename] at hv
    obtain ⟨w, hw, rfl⟩ := List.mem_map.1 hv
    exact (hf w hw).1

variable [DecidableEq α] [DecidableEq β]

theorem subst_rename (he : Function.Injective e) (t : Ty α) (v : α) (u : Ty α) :
    (t.rename e).subst (e v) (u.rename e) = (t.subst v u).rename e := by
  rw [rename, subst, subst, rename, rename, bind_bind, bind_bind]
  refine bind_congr fun w _ => ?_
  by_cases hw : w = v
  · simp [bind, hw]
  · have hne : e w ≠ e v := fun h => hw (he h)
    simp [bind, hw, hne]

end Ty

/-! ## Stores -/

/-- The clash with other variables. -/
def TypeClash.rename (e : α → β) : TypeClash α → TypeClash β
  | .mismatch left right => .mismatch (left.rename e) (right.rename e)
  | .recursive v t => .recursive (e v) (t.rename e)

/-- The store with other variables. -/
def TypeStore.rename (e : α → β) (σ : TypeStore α) : TypeStore β :=
  σ.map fun binding => (e binding.1, binding.2.rename e)

/-- The equations with other variables. -/
def Equations.rename (e : α → β) (es : Equations α) : Equations β :=
  es.map fun equation => (equation.1.rename e, equation.2.rename e)

variable [DecidableEq α] [DecidableEq β] {e : α → β}

namespace Equations

theorem subst_rename (he : Function.Injective e) (es : Equations α) (v : α) (u : Ty α) :
    (es.rename e).subst (e v) (u.rename e) = (es.subst v u).rename e := by
  simp [rename, subst, Ty.subst_rename he, Function.comp_def]

omit [DecidableEq α] [DecidableEq β] in
theorem zip_rename (ps qs : List (Ty α)) :
    (ps.map (Ty.rename e)).zip (qs.map (Ty.rename e)) = rename e (ps.zip qs) := by
  rw [List.zip_map]
  rfl

omit [DecidableEq α] [DecidableEq β] in
theorem rename_cons (a b : Ty α) (es : Equations α) :
    rename e ((a, b) :: es) = (a.rename e, b.rename e) :: es.rename e := rfl

/-- **Solving equations with other variables**, by induction on the run. -/
theorem solve_rename (he : Function.Injective e) (es : Equations α) (σ : TypeStore α) :
    solve (es.rename e) (σ.rename e) =
      ((solve es σ).1.rename e, (solve es σ).2.map (TypeClash.rename e)) := by
  fun_induction solve es σ with
  | case1 σ =>
    rw [rename, List.map_nil, solve]
    rfl
  | case2 σ v rest ih => rw [rename_cons, Ty.rename_var, solve, if_pos rfl, ih]
  | case3 σ v b rest hb hvb =>
    rw [rename_cons, Ty.rename_var, solve, if_neg (mt (Ty.rename_eq_var_iff he).1 hb),
      if_pos ((Ty.mem_vars_rename_iff he).2 hvb)]
    rfl
  | case4 σ v b rest hb hvb ih =>
    rw [rename_cons, Ty.rename_var, solve, if_neg (mt (Ty.rename_eq_var_iff he).1 hb),
      if_neg (mt (Ty.mem_vars_rename_iff he).1 hvb), subst_rename he]
    exact ih
  | case5 σ a v rest ha hva =>
    rw [rename_cons, Ty.rename_var, solve, if_pos ((Ty.mem_vars_rename_iff he).2 hva)]
    · rfl
    · exact Ty.rename_ne_var ha
  | case6 σ a v rest ha hva ih =>
    rw [rename_cons, Ty.rename_var, solve, if_neg (mt (Ty.mem_vars_rename_iff he).1 hva),
      subst_rename he]
    · exact ih
    · exact Ty.rename_ne_var ha
  | case7 σ x rest ih => rw [rename_cons, Ty.rename_const, solve, if_pos rfl, ih]
  | case8 σ x rest y hne =>
    rw [rename_cons, Ty.rename_const, Ty.rename_const, solve, if_neg hne]
    rfl
  | case9 σ f ps g qs rest h ih =>
    rw [rename_cons, Ty.rename_op, Ty.rename_op, solve, if_pos (by simpa using h), zip_rename,
      rename, rename, ← List.map_append]
    exact ih
  | case10 σ f ps g qs rest h =>
    rw [rename_cons, Ty.rename_op, Ty.rename_op, solve, if_neg (by simpa using h)]
    simp [TypeClash.rename]
  | case11 σ a b rest ha hb hconst hop =>
    rw [rename_cons, solve]
    · rfl
    · exact Ty.rename_ne_var ha
    · exact Ty.rename_ne_var hb
    · intro x y hx hy
      obtain ⟨rfl, rfl⟩ := And.intro (Ty.rename_eq_const hx) (Ty.rename_eq_const hy)
      exact hconst x y rfl rfl
    · intro f ps g qs hf hg
      obtain ⟨ps, rfl⟩ := Ty.exists_of_rename_eq_op hf
      obtain ⟨qs, rfl⟩ := Ty.exists_of_rename_eq_op hg
      exact hop f ps g qs rfl rfl

end Equations

namespace TypeStore

theorem expand_rename (he : Function.Injective e) (σ : TypeStore α) (t : Ty α) :
    (σ.rename e).expand (t.rename e) = (σ.expand t).rename e := by
  induction σ with
  | nil => rfl
  | cons binding σ ih =>
    obtain ⟨v, u⟩ := binding
    show ((TypeStore.rename e σ).expand (t.rename e)).subst (e v) (u.rename e) = _
    rw [ih, Ty.subst_rename he]
    rfl

/-- **Unification with other variables.** -/
theorem unify_rename (he : Function.Injective e) (σ : TypeStore α) (a b : Ty α) :
    (σ.rename e).unify (a.rename e) (b.rename e) =
      ((σ.unify a b).1.rename e, (σ.unify a b).2.map (TypeClash.rename e)) := by
  rw [unify, unify, expand_rename he, expand_rename he]
  exact Equations.solve_rename he [(σ.expand a, σ.expand b)] σ

end TypeStore

end ProofKernel
