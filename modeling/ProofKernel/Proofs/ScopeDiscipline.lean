import ProofKernel.Proofs.Expansion

/-!
# Inference keeps its scopes in order

Types of bound variables are pushed and popped around a body, and all types of variables are put away
around a definition. An error may end a computation anywhere between.

* `Inference.known?`, `Inference.AgreesOn`: the types that a run knows;
* `Infer.Enters`: what a computation enters as new free variables, and that it depends on the types of
  certain names only;
* `Infer.Local`: computations that do so from every state;
* `inferWith_local`: inference is one of them, for the free names of its term;
* `TypeEnv.Visits`: the terms of a run with the states in which they are typed;
* `TypeEnv.inference_leaves_scopes`: what each of them leaves.
-/

namespace ProofKernel

/-! ## The types that a run knows -/

/-- The type that a name has in a run, bound or free. -/
def Inference.known? (s : Inference) (x : Name) : Option (Ty Nat) :=
  (s.scope.lookup? x).or (Scope.lookup? s.free x)

/-- Two states that differ in the variables that have types at most, and not in the types of some
names. -/
structure Inference.AgreesOn (N : List Name) (t s : Inference) : Prop where
  next : t.next = s.next
  store : t.store = s.store
  types : ∀ x ∈ N, t.known? x = s.known? x

namespace Inference

variable {N N' : List Name} {s t : Inference}

theorem AgreesOn.mono (h : AgreesOn N' t s) (hN : ∀ x ∈ N, x ∈ N') : AgreesOn N t s :=
  ⟨h.next, h.store, fun x hx => h.types x (hN x hx)⟩

theorem AgreesOn.refl (N : List Name) (s : Inference) : AgreesOn N s s := ⟨rfl, rfl, fun _ _ => rfl⟩

theorem AgreesOn.eq_with (h : AgreesOn N t s) : t = { s with free := t.free, scope := t.scope } := by
  obtain ⟨next, free, scope, store⟩ := t
  obtain ⟨rfl, rfl, -⟩ := h
  rfl

theorem known?_bind (s : Inference) (b : Name) (σ : Ty Nat) (x : Name) :
    Inference.known? { s with scope := (b, σ) :: s.scope } x = if b = x then some σ else s.known? x := by
  rw [Inference.known?, Scope.lookup?_cons]
  split <;> rfl

theorem known?_enter (s : Inference) (added : List (Name × Ty Nat)) (x : Name) :
    Inference.known? { s with free := s.free ++ added } x =
      (s.known? x).or (Scope.lookup? added x) := by
  rw [Inference.known?, Scope.lookup?_append, Inference.known?, Option.or_assoc]

/-- Under a binder, states agree on its name too. -/
theorem AgreesOn.bind {b : Name} (h : AgreesOn (N.filter (· ≠ b)) t s) (σ : Ty Nat) :
    AgreesOn N { t with scope := (b, σ) :: t.scope } { s with scope := (b, σ) :: s.scope } := by
  refine ⟨h.next, h.store, fun x hx => ?_⟩
  rw [known?_bind, known?_bind]
  split
  next => rfl
  next hne => exact h.types x (List.mem_filter.2 ⟨hx, by simpa using Ne.symm hne⟩)

end Inference

open Inference

namespace Infer

variable {β γ : Type}

/-! ## Computations that enter free variables -/

/-- **What a computation enters**: new free variables at the end, each one once and one of the names
`N`. Nothing is left bound, whether there is an error or not; and all that the computation depends on
is the types of the names `N`. -/
structure Enters (N : List Name) (c : Infer β) (s : Inference) (added : List (Name × Ty Nat)) :
    Prop where
  nodup : (added.map Prod.fst).Nodup
  new : ∀ entry ∈ added, entry.1 ∈ N ∧ entry.1.isVariable = true ∧ s.known? entry.1 = none
  run : ∀ t, AgreesOn N t s →
    c t = ((c s).1, { (c s).2 with free := t.free ++ added, scope := t.scope })

section Enters

variable {N N' : List Name} {c c' : Infer β} {k : β → Infer γ} {s : Inference} {b : β}
  {added added₁ : List (Name × Ty Nat)}

theorem Enters.scope_eq (h : Enters N c s added) : (c s).2.scope = s.scope :=
  congrArg (fun r => r.2.scope) (h.run s (.refl N s))

theorem Enters.free_eq (h : Enters N c s added) : (c s).2.free = s.free ++ added :=
  congrArg (fun r => r.2.free) (h.run s (.refl N s))

theorem Enters.mono (h : Enters N c s added) (hN : ∀ x ∈ N, x ∈ N') : Enters N' c s added :=
  ⟨h.nodup, fun entry hentry => ⟨hN _ (h.new entry hentry).1, (h.new entry hentry).2⟩,
    fun t ht => h.run t (ht.mono hN)⟩

/-- What has been entered is known, and nothing else that was not known before. -/
theorem Enters.known?_eq (h : Enters N c s added) (x : Name) :
    (c s).2.known? x = (s.known? x).or (Scope.lookup? added x) := by
  rw [← known?_enter, Inference.known?, h.scope_eq, h.free_eq]
  rfl

/-- States that agree before a computation agree after it. -/
theorem Enters.agreesOn (h : Enters N c s added) {t : Inference} (ht : AgreesOn N t s) :
    AgreesOn N (c t).2 (c s).2 := by
  rw [h.run t ht]
  refine ⟨rfl, rfl, fun x hx => ?_⟩
  rw [h.known?_eq, ← ht.types x hx]
  exact known?_enter t added x

theorem Enters.congr (h : Enters N c' s added) (hc : ∀ t, AgreesOn N t s → c t = c' t) :
    Enters N c s added := by
  refine ⟨h.nodup, h.new, fun t ht => ?_⟩
  rw [hc t ht, hc s (.refl N s)]
  exact h.run t ht

theorem Detached.enters (h : Detached c) (N : List Name) (s : Inference) : Enters N c s [] := by
  refine ⟨List.nodup_nil, nofun, fun t ht => ?_⟩
  rw [List.append_nil, ← h s t.free t.scope, ← ht.eq_with]

theorem Enters.bind_error (h : Enters N c s added) {e : TypeError} (he : (c s).1 = .error e) :
    Enters N (c >>= k) s added := by
  have hrun : ∀ t, AgreesOn N t s → (c >>= k) t = (.error e, (c t).2) := by
    intro t ht
    rw [bind_eq, h.run t ht, he]
  refine ⟨h.nodup, h.new, fun t ht => ?_⟩
  rw [hrun t ht, hrun s (.refl N s), h.run t ht]

/-- **One computation after the other**: the second one enters what the first one has not. -/
theorem Enters.bind_ok (h : Enters N c s added) (hb : (c s).1 = .ok b)
    (hk : Enters N (k b) (c s).2 added₁) : Enters N (c >>= k) s (added ++ added₁) := by
  have hrun : ∀ t, AgreesOn N t s → (c >>= k) t = k b (c t).2 := by
    intro t ht
    rw [bind_eq, h.run t ht, hb]
  have hnew : ∀ entry ∈ added₁,
      s.known? entry.1 = none ∧ Scope.lookup? added entry.1 = none := by
    intro entry hentry
    rw [← Option.or_eq_none_iff, ← h.known?_eq]
    exact (hk.new entry hentry).2.2
  refine ⟨Scope.nodup_append h.nodup hk.nodup fun entry hentry => (hnew entry hentry).2,
    ?new, fun t ht => ?run⟩
  case new =>
    intro entry hentry
    rcases List.mem_append.1 hentry with hentry | hentry
    · exact h.new entry hentry
    · obtain ⟨hN, hv, -⟩ := hk.new entry hentry
      exact ⟨hN, hv, (hnew entry hentry).1⟩
  case run =>
    -- the second computation begins in states that agree, but with other variables in front
    have hfree : (c t).2.free = t.free ++ added := congrArg (fun r => r.2.free) (h.run t ht)
    have hscope : (c t).2.scope = t.scope := congrArg (fun r => r.2.scope) (h.run t ht)
    rw [hrun t ht, hrun s (.refl N s), hk.run _ (h.agreesOn ht), hfree, hscope, List.append_assoc]

/-- Under a binder, its name is known and so is not entered. -/
theorem Enters.under {x : Name} {σ : Ty Nat}
    (h : Enters N c { s with scope := (x, σ) :: s.scope } added) :
    Enters (N.filter (· ≠ x)) (under x σ c) s added := by
  refine ⟨h.nodup, fun entry hentry => ?new, fun t ht => ?run⟩
  case new =>
    obtain ⟨hN, hv, hnone⟩ := h.new entry hentry
    rw [known?_bind] at hnone
    split at hnone
    next => cases hnone
    next hne => exact ⟨List.mem_filter.2 ⟨hN, by simpa using Ne.symm hne⟩, hv, hnone⟩
  case run =>
    have hrun := h.run _ (ht.bind σ)
    have hunder : ∀ t : Inference, Infer.under x σ c t =
        ((c { t with scope := (x, σ) :: t.scope }).1,
          { (c { t with scope := (x, σ) :: t.scope }).2 with
            scope := (c { t with scope := (x, σ) :: t.scope }).2.scope.tail }) := fun _ => rfl
    rw [hunder, hunder, hrun]
    rfl

theorem freeType_enters {x : Name} (hx : x.isVariable = true) (hnone : s.known? x = none) :
    Enters [x] (freeType x) s [(x, .var s.next)] := by
  refine ⟨List.nodup_singleton x, ?_, fun t ht => ?_⟩
  · rintro entry (_ | ⟨_, ⟨⟩⟩)
    exact ⟨List.mem_singleton_self x, hx, hnone⟩
  · rw [ht.eq_with]
    rfl

end Enters

/-- **Computations that depend on the types of certain names only**, and enter these only. -/
def Local (N : List Name) (c : Infer β) : Prop := ∀ s, ∃ added, Enters N c s added

section Local

variable {N N' : List Name} {c : Infer β} {k : β → Infer γ}

theorem Local.mono (h : Local N c) (hN : ∀ x ∈ N, x ∈ N') : Local N' c := fun s =>
  (h s).imp fun _ hs => hs.mono hN

theorem Detached.local (h : Detached c) (N : List Name) : Local N c := fun s => ⟨[], h.enters N s⟩

theorem Local.bind (h : Local N c) (hk : ∀ b, Local N (k b)) : Local N (c >>= k) := by
  intro s
  obtain ⟨added, hs⟩ := h s
  cases hb : (c s).1 with
  | error e => exact ⟨added, hs.bind_error hb⟩
  | ok b =>
    obtain ⟨added₁, hs₁⟩ := hk b (c s).2
    exact ⟨added ++ added₁, hs.bind_ok hb hs₁⟩

theorem Local.under (h : Local N c) (x : Name) (σ : Ty Nat) :
    Local (N.filter (· ≠ x)) (under x σ c) := fun s =>
  (h { s with scope := (x, σ) :: s.scope }).imp fun _ hs => hs.under

end Local

end Infer

open Infer

/-! ## Inference -/

section Terms

variable {ι : Type} {constant : Name → Infer (Ty Nat)} (hconst : ∀ x, Detached (constant x))

include hconst

/-- A name enters itself, if it is a variable without a type. -/
theorem inferWith_var_local (a : Atom ι) : Local [a.name] (inferWith constant (.var a)) := by
  intro s
  cases hs : s.known? a.name with
  | some σ =>
    refine ⟨[], ((detached_pure σ).enters [a.name] s).congr fun t ht => ?_⟩
    exact inferWith_known ((ht.types a.name List.mem_cons_self).trans hs)
  | none =>
    -- what kind of name it is decides, and this in all states that agree
    have hnone : ∀ t, AgreesOn [a.name] t s →
        t.scope.lookup? a.name = none ∧ Scope.lookup? t.free a.name = none := by
      intro t ht
      rw [← Option.or_eq_none_iff]
      exact (ht.types a.name List.mem_cons_self).trans hs
    have hnew := fun t ht => @inferWith_new constant ι a t (hnone t ht).1 (hnone t ht).2
    refine Exists.imp (fun _ h => Enters.congr h hnew) ?_
    split
    next => exact (detached_pure _).local _ s
    next => exact (detached_throw _).local _ s
    next =>
      split
      next hv => exact ⟨_, freeType_enters hv hs⟩
      next => exact (hconst a.name).local _ s

/-- **Inference keeps its scopes in order**, by induction on the term: it enters free names of the term
only, and depends on the types of these only. -/
theorem inferWith_local (m : Term ι) : Local m.freeNames (inferWith constant m) := by
  induction m with
  | var a => exact inferWith_var_local hconst a
  | app tag f x ihf ihx =>
    rw [inferWith]
    refine (ihf.mono fun y hy => List.mem_append_left _ hy).bind fun fn => ?_
    refine (ihx.mono fun y hy => List.mem_append_right _ hy).bind fun arg => ?_
    refine (detached_newVar.local _).bind fun result => ?_
    exact ((detached_unify _ _).bind fun _ => detached_pure result).local _
  | abs tag b body ih =>
    rw [inferWith]
    refine (detached_newVar.local _).bind fun bound => ?_
    exact (ih.under b.name bound).bind fun result => (detached_pure _).local _

end Terms

/-! ## Runs -/

namespace TypeEnv

variable {env : TypeEnv}

theorem inferIn_local {ι : Type} (env : TypeEnv) (m : Term ι) : Local m.freeNames (env.inferIn m) :=
  inferWith_local (constantType_detached env.declared? env.defined) m

/-- **The terms of a run with the states in which they are typed.** A term may come after others, and
errors among them; its parts are typed where inference comes to them, and so is the definition of a
constant, with nothing bound and no free variables. -/
inductive Visits (env : TypeEnv) : {ι : Type} → Term ι → Inference → Prop
  | run {ι : Type} (ms : List (Term ι)) (m : Term ι) : Visits env m (env.inferAll ms .start).2
  | fn {ι : Type} {tag : ι} {f x : Term ι} {s : Inference} (h : Visits env (.app tag f x) s) :
      Visits env f s
  | arg {ι : Type} {tag : ι} {f x : Term ι} {s s' : Inference} {t : Ty Nat}
      (h : Visits env (.app tag f x) s) (hf : env.inferIn f s = (.ok t, s')) : Visits env x s'
  | body {ι : Type} {tag : ι} {b : Atom ι} {body : Term ι} {s : Inference}
      (h : Visits env (.abs tag b body) s) :
      Visits env body { s with next := s.next + 1, scope := (b.name, .var s.next) :: s.scope }
  | definition {ι : Type} {a : Atom ι} {d : PlainTerm} {s : Inference} (h : Visits env (.var a) s)
      (hs : s.known? a.name = none) (hl : a.literal? = none) (hv : a.isVariable = false)
      (hn : env.declared? a.name = none) (hd : env.definition? a.name = some d) :
      Visits env d { s with free := [], scope := [] }

/-- A term lists no free variable twice, if none is listed twice before it. -/
theorem inferIn_nodup {ι : Type} (env : TypeEnv) (m : Term ι) {s : Inference}
    (hs : (s.free.map Prod.fst).Nodup) : ((env.inferIn m s).2.free.map Prod.fst).Nodup := by
  obtain ⟨added, h⟩ := env.inferIn_local m s
  rw [h.free_eq]
  refine Scope.nodup_append hs h.nodup fun entry hentry => ?_
  have hnone := (h.new entry hentry).2.2
  rw [Inference.known?, Option.or_eq_none_iff] at hnone
  exact hnone.2

theorem inferAll_nodup {ι : Type} (env : TypeEnv) (ms : List (Term ι)) {s : Inference}
    (hs : (s.free.map Prod.fst).Nodup) : ((env.inferAll ms s).2.free.map Prod.fst).Nodup := by
  induction ms generalizing s with
  | nil => exact hs
  | cons m ms ih => exact ih (env.inferIn_nodup m hs)

/-- **No free variable is listed twice**, wherever a run comes to. -/
theorem Visits.nodup {ι : Type} {m : Term ι} {s : Inference} (h : env.Visits m s) :
    (s.free.map Prod.fst).Nodup := by
  induction h with
  | run ms m => exact env.inferAll_nodup ms List.nodup_nil
  | fn h ih => exact ih
  | @arg ι tag f x s s' t h hf ih =>
    have hafter := env.inferIn_nodup f ih
    rwa [hf] at hafter
  | body h ih => exact ih
  | definition => exact List.nodup_nil

/-- **Inference leaves its scopes in order**, wherever a run comes to and whether there is an error or
not. Bound variables are those that were bound before. Free variables come to the end: the earlier ones
keep their places and types, no name is listed twice, and what is new are free variables of the term
that had no type. Of the types that variables have, only those of the free names of the term matter. In
particular, a definition is typed with nothing bound and no free variables, and enters none, whatever
variables have types where its constant occurs. -/
theorem inference_leaves_scopes (henv : env.Reachable) {ι : Type} {m : Term ι} {s : Inference}
    (h : env.Visits m s) :
    ((env.inferIn m s).2.free.map Prod.fst).Nodup ∧ (env.inferIn m s).2.scope = s.scope ∧
      (∃ added, (env.inferIn m s).2.free = s.free ++ added ∧
        (∀ entry ∈ added, entry.1 ∈ m.freeVariables ∧ s.known? entry.1 = none) ∧
        ∀ t, AgreesOn m.freeNames t s → env.inferIn m t = ((env.inferIn m s).1,
          { (env.inferIn m s).2 with free := t.free ++ added, scope := t.scope })) ∧
      ∀ name d, env.declared? name = none → env.definition? name = some d →
        let inner := { s with free := [], scope := [] }
        (env.inferIn d inner).2.free = [] ∧
          constantType env.declared? env.defined name s = ((env.inferIn d inner).1,
            { (env.inferIn d inner).2 with free := s.free, scope := s.scope }) := by
  obtain ⟨added, hm⟩ := env.inferIn_local m s
  refine ⟨env.inferIn_nodup m h.nodup, hm.scope_eq, ⟨added, hm.free_eq, ?new, hm.run⟩, ?definition⟩
  case new =>
    intro entry hentry
    obtain ⟨hfree, hv, hnone⟩ := hm.new entry hentry
    exact ⟨List.mem_filter.2 ⟨hfree, hv⟩, hnone⟩
  case definition =>
    intro name d hn hd inner
    obtain ⟨entered, hinner⟩ := env.inferIn_local d inner
    have hclosed : d.freeVariables = [] := henv.defined_once.closed _ (Scope.mem_of_lookup? hd)
    have hnothing : entered = [] := by
      refine List.eq_nil_iff_forall_not_mem.2 fun entry hentry => ?_
      obtain ⟨hfree, hv, -⟩ := hinner.new entry hentry
      exact Term.not_mem_freeNames_of_closed hclosed hv hfree
    refine ⟨by rw [hinner.free_eq, hnothing]; rfl, ?_⟩
    rw [constantType_eq henv.defined_once henv.layered, hn, hd]
    rfl

/-- An error under a binder, and then a term that is typed under one of the same name, where a
definition is expanded that binds this name as well. The free variable keeps the type that it had before
the error. -/
theorem inference_leaves_scopes_after_error :
    let f : PlainTerm := .named "f"
    let x : PlainTerm := .named "x"
    let first : PlainTerm := .lambda "x" (.lambda "f" x)
    let env : TypeEnv := ⟨[], [("first", first)]⟩
    let failing : PlainTerm := .lambda "x" (.call (.call f x) (.named "\"s\""))
    let body : PlainTerm := .call (.call (.named "first") f) x
    let s : Inference := ⟨5, [("f", .var 2)], [("x", .var 4)], [(2, .fn (.var 1) (.var 3))]⟩
    env.Reachable ∧ (env.inferAll [failing] .start).1 = [.error (.untyped "\"s\"")] ∧
      env.Visits body s ∧ (env.inferIn first { s with free := [], scope := [] }).2.free = [] ∧
      (env.inferIn body s).1 = .ok (.var 8) ∧ (env.inferIn body s).2.free = [("f", .var 2)] ∧
      (env.inferIn body s).2.scope = [("x", .var 4)] := by
  intro f x first env failing body s
  have hdefine : (TypeEnv.empty.define "first" first).1 = .ok env := by cbv
  have henv : env.Reachable := .define .empty hdefine
  have hfailed : env.inferAll [failing] .start = ([.error (.untyped "\"s\"")],
      ⟨4, [("f", .var 2)], [], [(2, .fn (.var 1) (.var 3))]⟩) := by cbv
  have hrun : env.Visits (.lambda "x" body) (env.inferAll [failing] .start).2 := .run [failing] _
  rw [hfailed] at hrun
  have hvisits : env.Visits body s := hrun.body
  obtain ⟨-, hscope, -, hdefinition⟩ := inference_leaves_scopes henv hvisits
  have htyped : Prod.map id Inference.free ((env.inferIn body).run s) =
      (.ok (.var 8), [("f", .var 2)]) := by cbv
  obtain ⟨htype, hfree⟩ := Prod.mk.inj htyped
  have hinner := (hdefinition "first" first rfl rfl).1
  exact ⟨henv, congrArg Prod.fst hfailed, hvisits, hinner, htype, hfree, hscope⟩

end TypeEnv

end ProofKernel
