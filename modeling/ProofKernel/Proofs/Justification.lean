import Mathlib.Logic.Relation
import ProofKernel.Proofs.Sessions

/-!
# What steps rest on

A rule is applied to steps that a session has: bare ones, and those that it gave back before.

* `Session.Run`: runs of a session, with the steps that it gave back, in this order;
* `Session.Consistent`: what holds of these steps;
* `Session.Makes`: what a call makes, and `Session.Consistent.justifyWith`: one call keeps them so;
* `Session.Run.consistent`: so they are in every run;
* `Session.Run.uses_isOlder`: all that a step rests on, directly or not, is older;
* `Session.Run.base_mem`: so is the step at which the chain of its re-justifications ends;
* `Session.Run.justified`: what a run gives back, by calls and by steps.
-/

namespace ProofKernel

open Relation (TransGen)

/-! ## What a step uses -/

namespace Step

/-- A step uses another one: as a dependency, as an argument of its rule, or as what it justifies
anew. -/
inductive Uses (a b : Step) : Prop
  | dep (h : b ∈ a.deps)
  | arg (h : .step b ∈ a.args)
  | details (h : a.details? = some b)

/-- Only steps that follow by a rule use others. -/
theorem Uses.isProved {a b : Step} (h : a.Uses b) : a.isProved = true := by
  cases a with
  | proved => rfl
  | bare => rcases h with h | h | h <;> cases h

theorem isProved_iff {a : Step} : a.isProved = true ↔ ∃ i, a.ordinal? = some i := by
  cases a <;> simp [isProved, ordinal?]

theorem IsOlder.trans {a b c : Step} (hab : a.IsOlder b) (hbc : b.IsOlder c) : a.IsOlder c := by
  obtain ⟨i, j, hi, hj, hij⟩ := hab
  obtain ⟨j', k, hj', hk, hjk⟩ := hbc
  rw [hj] at hj'
  cases hj'
  exact ⟨i, k, hi, hk, Nat.lt_trans hij hjk⟩

/-! ### The base of a step -/

theorem base_of_details {a d : Step} (h : a.details? = some d) : a.base = d.base := by
  cases a with
  | bare => cases h
  | proved tag term hasHyps rule args deps ordinal details? =>
    cases h
    rw [base]

theorem base_of_details_none {a : Step} (h : a.details? = none) : a.base = a := by
  cases a with
  | bare => rw [base]; simp
  | proved tag term hasHyps rule args deps ordinal details? =>
    cases h
    rw [base]
    simp

/-- The chain of re-justifications ends at a step that justifies none anew. -/
theorem details?_base (a : Step) : a.base.details? = none := by
  fun_induction base a with
  | case1 tag term hasHyps rule args deps ordinal details ih => exact ih
  | case2 a h =>
    cases a with
    | bare => rfl
    | proved tag term hasHyps rule args deps ordinal details? =>
      cases details? with
      | none => rfl
      | some d => exact absurd rfl (h _ _ _ _ _ _ _ d)

end Step

/-! ## Runs -/

/-- A step that can be handed to a session: one that it gave back, or a bare one that it made. -/
def Step.Available (s : Session) (returned : List Step) (st : Step) : Prop :=
  st ∈ returned ∨ st.isProved = false ∧ st.tag < s.nodes ∧ st.term.root < s.nodes

/-- One that follows by a rule was given back. -/
theorem Step.Available.mem {s : Session} {returned : List Step} {st : Step}
    (h : st.Available s returned) (hp : st.isProved = true) : st ∈ returned := by
  rcases h with h | ⟨hbare, -⟩
  · exact h
  · rw [hbare] at hp
    cases hp

/-- An argument with such a step or with a node of the session, or with neither. -/
def RuleArgument.Available (s : Session) (returned : List Step) : RuleArgument → Prop
  | .term m => m.root < s.nodes
  | .step st => st.Available s returned
  | _ => True

namespace Session

/-- Runs of a session up to a state, with the steps that were given back. Between two calls the
session may do anything that gives back no node, ordinal or operator. -/
inductive Run : Session → List Step → Prop
  | start (config : SessionConfig) : Run (.start config) []
  | advance {s s' : Session} {returned : List Step} (h : Run s returned) (hs : s.Grows s') :
      Run s' returned
  | justify {s : Session} {returned : List Step} {target : Step} {rule : Name}
      {args : List RuleArgument} {deps : List Step} {hasHyps : Bool} (h : Run s returned)
      (htarget : target.Available s returned) (hargs : ∀ arg ∈ args, arg.Available s returned)
      (hdeps : ∀ dep ∈ deps, dep.Available s returned) :
      Run (justifyWith target rule args deps hasHyps s).2
        (returned ++ [(justifyWith target rule args deps hasHyps s).1])

/-- The session made the step: it has used its numbers. -/
structure Has (s : Session) (st : Step) : Prop where
  tag : st.tag < s.nodes
  root : st.term.root < s.nodes
  ordinal : ∀ i, st.ordinal? = some i → i < s.ordinal

theorem Has.mono {s s' : Session} {st : Step} (h : s.Has st) (hs : s.Grows s') : s'.Has st :=
  ⟨Nat.lt_of_lt_of_le h.tag hs.nodes, Nat.lt_of_lt_of_le h.root hs.nodes,
    fun i hi => Nat.lt_of_lt_of_le (h.ordinal i hi) hs.ordinal⟩

/-- **What holds of the steps that a session gave back.** It made them. What they use is older and
was given back as well, unless it is bare; only steps that follow by a rule are justified anew; and
of these no two have the same node. -/
structure Consistent (s : Session) (returned : List Step) : Prop where
  has : ∀ st ∈ returned, s.Has st
  uses : ∀ st ∈ returned, ∀ b, st.Uses b →
    b.tag < st.tag ∧ (b.isProved = true → b ∈ returned ∧ b.IsOlder st)
  details : ∀ st ∈ returned, ∀ d, st.details? = some d → d.isProved = true
  unique : ∀ a ∈ returned, ∀ b ∈ returned, a.isProved = true → b.isProved = true →
    a.term.root = b.term.root → a = b

section Consistent

variable {s s' : Session} {returned : List Step} {st : Step}

theorem Consistent.mono (h : Consistent s returned) (hs : s.Grows s') : Consistent s' returned where
  has st hst := (h.has st hst).mono hs
  uses := h.uses
  details := h.details
  unique := h.unique

/-- Steps that can be handed to a session were made by it. -/
theorem Consistent.has_of_available (h : Consistent s returned) (hst : st.Available s returned) :
    s.Has st := by
  rcases hst with hst | ⟨hbare, htag, hroot⟩
  · exact h.has st hst
  · refine ⟨htag, hroot, fun i hi => ?_⟩
    have hproved := Step.isProved_iff.2 ⟨i, hi⟩
    rw [hbare] at hproved
    cases hproved

/-- Steps stay consistent when one more is given back, if it was made and if it is bare, was given
back before, or is over a node that none of them has, and newer than what it uses. -/
theorem Consistent.append (h : Consistent s returned) (hhas : s.Has st)
    (huses : ∀ b, st.Uses b →
      b.tag < st.tag ∧ (b.isProved = true → b ∈ returned ∧ b.IsOlder st))
    (hdetails : ∀ d, st.details? = some d → d.isProved = true)
    (hunique : ∀ a ∈ returned, a.isProved = true → st.isProved = true →
      a.term.root = st.term.root → a = st) :
    Consistent s (returned ++ [st]) where
  has := List.forall_mem_append.2 ⟨h.has, List.forall_mem_singleton.2 hhas⟩
  uses := by
    have hall := List.forall_mem_append.2 ⟨h.uses, List.forall_mem_singleton.2 huses⟩
    intro a ha b hb
    obtain ⟨htag, hold⟩ := hall a ha b hb
    exact ⟨htag, fun hp => ⟨List.mem_append_left _ (hold hp).1, (hold hp).2⟩⟩
  details := List.forall_mem_append.2 ⟨h.details, List.forall_mem_singleton.2 hdetails⟩
  unique a ha b hb hpa hpb hroot := by
    rcases List.mem_append.1 ha with ha | ha <;> rcases List.mem_append.1 hb with hb | hb
    · exact h.unique a ha b hb hpa hpb hroot
    · rw [List.mem_singleton.1 hb] at hpb hroot ⊢
      exact hunique a ha hpa hpb hroot
    · rw [List.mem_singleton.1 ha] at hpa hroot ⊢
      exact (hunique b hb hpb hpa hroot.symm).symm
    · rw [List.mem_singleton.1 ha, List.mem_singleton.1 hb]

/-- Giving back a step that was handed over changes nothing. -/
theorem Consistent.append_available (h : Consistent s returned) (hst : st.Available s returned) :
    Consistent s (returned ++ [st]) := by
  refine h.append (h.has_of_available hst) (fun b hb => h.uses st (hst.mem hb.isProved) b hb)
    (fun d hd => ?_) fun a ha hpa hp hroot => h.unique a ha st (hst.mem hp) hpa hp hroot
  have huse : st.Uses d := .details hd
  exact h.details st (hst.mem huse.isProved) d hd

end Consistent

/-! ### One call -/

/-- What a call makes that finds no dependency over the node of its target: a step with the next
numbers, which keeps what it was made from. -/
structure Makes (s : Session) (target : Step) (args : List RuleArgument) (deps : List Step)
    (st : Step) (s' : Session) : Prop where
  grows : s.Grows s'
  nodes : s'.nodes = s.nodes + 2
  next : s'.ordinal = s.ordinal + 1
  tag : st.tag = s.nodes + 1
  root : st.term.root = s.nodes
  ordinal : st.ordinal? = some s.ordinal
  args : st.args = args
  deps : st.deps = deps
  details : st.details? = if target.isProved then some target else none

section Call

variable {s s' : Session} {returned : List Step} {target st : Step} {rule : Name}
  {args : List RuleArgument} {deps : List Step} {hasHyps : Bool}

/-- A call with no dependency over the node of its target makes a step. -/
theorem justifyWith_makes (h : ∀ dep ∈ deps, dep.term ≠ target.term) (s : Session) :
    s.Makes target args deps (justifyWith target rule args deps hasHyps s).1
      (justifyWith target rule args deps hasHyps s).2 := by
  have hgrows : s.Grows (justifyWith target rule args deps hasHyps s).2 := advances_justifyWith s
  obtain ⟨log, heq⟩ := @justifyWith_new _ rule args _ hasHyps h s
  rw [heq] at hgrows ⊢
  exact ⟨hgrows, rfl, rfl, rfl, Term.root_dup _ _, rfl, rfl, rfl, rfl⟩

theorem Makes.details?_eq_some {d : Step} (h : s.Makes target args deps st s') :
    st.details? = some d ↔ target.isProved = true ∧ target = d := by
  rw [h.details, Option.ite_none_right_eq_some, Option.some.injEq]

/-- What the new step uses was handed to the session. -/
theorem Makes.available {b : Step} (h : s.Makes target args deps st s') (hb : st.Uses b)
    (htarget : target.Available s returned) (hargs : ∀ arg ∈ args, arg.Available s returned)
    (hdeps : ∀ dep ∈ deps, dep.Available s returned) : b.Available s returned := by
  rcases hb with hb | hb | hb
  · exact hdeps b (h.deps ▸ hb)
  · exact hargs _ (h.args ▸ hb)
  · obtain ⟨-, rfl⟩ := h.details?_eq_some.1 hb
    exact htarget

/-- The new step is newer than all steps given back before. -/
theorem Makes.isOlder {a : Step} (h : s.Makes target args deps st s')
    (hc : Consistent s returned) (ha : a ∈ returned) (hp : a.isProved = true) : a.IsOlder st := by
  obtain ⟨i, hi⟩ := Step.isProved_iff.1 hp
  exact ⟨i, s.ordinal, hi, h.ordinal, (hc.has a ha).ordinal i hi⟩

/-- Where the target was justified before, the new step has its base; otherwise it is its own. -/
theorem Makes.base_eq (h : s.Makes target args deps st s') :
    st.base = if target.isProved then target.base else st := by
  by_cases hp : target.isProved = true
  · rw [if_pos hp]
    exact Step.base_of_details (h.details?_eq_some.2 ⟨hp, rfl⟩)
  · rw [if_neg hp]
    exact Step.base_of_details_none (by rw [h.details, if_neg hp])

/-- **A new step keeps the steps consistent.** -/
theorem Consistent.append_new (hc : Consistent s returned) (h : s.Makes target args deps st s')
    (htarget : target.Available s returned) (hargs : ∀ arg ∈ args, arg.Available s returned)
    (hdeps : ∀ dep ∈ deps, dep.Available s returned) : Consistent s' (returned ++ [st]) := by
  have htag := h.tag
  have hroot := h.root
  refine (hc.mono h.grows).append ⟨?_, ?_, fun i hi => ?_⟩ (fun b hb => ?_) (fun d hd => ?_) ?_
  · rw [h.nodes]
    omega
  · rw [h.nodes]
    omega
  · rw [h.ordinal] at hi
    cases hi
    rw [h.next]
    exact Nat.lt_succ_self _
  · have havailable := h.available hb htarget hargs hdeps
    have hlt := (hc.has_of_available havailable).tag
    refine ⟨by omega, fun hp => ?_⟩
    have hmem := havailable.mem hp
    exact ⟨hmem, h.isOlder hc hmem hp⟩
  · obtain ⟨hproved, rfl⟩ := h.details?_eq_some.1 hd
    exact hproved
  · -- the node of the new step has a number that no step before it has
    intro a ha _ _ hroots
    have hlt := (hc.has a ha).root
    omega

/-- **One call keeps the steps consistent**: it gives back a dependency, or a new step. -/
theorem Consistent.justifyWith (hc : Consistent s returned) (htarget : target.Available s returned)
    (hargs : ∀ arg ∈ args, arg.Available s returned)
    (hdeps : ∀ dep ∈ deps, dep.Available s returned) :
    Consistent (justifyWith target rule args deps hasHyps s).2
      (returned ++ [(justifyWith target rule args deps hasHyps s).1]) := by
  cases hfind : deps.find? (fun dep => dep.term = target.term) with
  | some dep =>
    rw [justifyWith_known hfind]
    exact hc.append_available (hdeps dep (List.mem_of_find?_eq_some hfind))
  | none =>
    have hdiff : ∀ dep ∈ deps, dep.term ≠ target.term := by simpa using hfind
    exact hc.append_new (justifyWith_makes hdiff s) htarget hargs hdeps

end Call

/-! ### Whole runs -/

section Runs

variable {s : Session} {returned : List Step} {a b : Step}

/-- **The steps that a run gives back are consistent**, by induction on the run. -/
theorem Run.consistent (h : Run s returned) : Consistent s returned := by
  induction h with
  | start config => exact ⟨nofun, nofun, nofun, nofun⟩
  | advance h hs ih => exact ih.mono hs
  | justify h htarget hargs hdeps ih => exact ih.justifyWith htarget hargs hdeps

/-- **All that a step rests on is older**, and has smaller numbers. -/
theorem Run.uses_isOlder (h : Run s returned) (ha : a ∈ returned) (hab : TransGen Step.Uses a b) :
    b.tag < a.tag ∧ (b.isProved = true → b ∈ returned ∧ b.IsOlder a) := by
  induction hab with
  | single hab => exact h.consistent.uses a ha _ hab
  | @tail b c _ hbc ih =>
    -- a step that uses another one follows by a rule, so it was given back
    obtain ⟨hb, hba⟩ := ih.2 hbc.isProved
    obtain ⟨htag, hc⟩ := h.consistent.uses b hb c hbc
    exact ⟨Nat.lt_trans htag ih.1, fun hp => ⟨(hc hp).1, (hc hp).2.trans hba⟩⟩

/-- The chain of re-justifications of a step of the run ends at a step of the run. -/
theorem Run.base_mem (h : Run s returned) (ha : a ∈ returned) : a.base ∈ returned := by
  fun_induction Step.base a with
  | case1 tag term hasHyps rule args deps ordinal details ih =>
    have hproved := h.consistent.details _ ha details rfl
    exact ih ((h.consistent.uses _ ha details (.details rfl)).2 hproved).1
  | case2 a _ => exact ha

/-- **What a run of justifications gives back.**

Every call gives back the first dependency over the node of its target, and then the session is as it
was; or, where there is none, a new step: it takes the next ordinal, is newer than all steps given
back before, keeps the dependencies, and justifies the target anew if that is no bare step, with the
same base.

Of the steps given back, none rests on itself, and what one rests on, through dependencies, arguments
and what is justified anew, is older, unless it is bare. The base of a step is one of them and
justifies none anew. Steps that follow by a rule and have the same node are the same. -/
theorem Run.justified (h : Run s returned) :
    (∀ (target : Step) (rule : Name) (args : List RuleArgument) (deps : List Step) (hasHyps : Bool),
      (∃ before dep after, deps = before ++ dep :: after ∧ dep.term = target.term ∧
        (∀ d ∈ before, d.term ≠ target.term) ∧
        justifyWith target rule args deps hasHyps s = (dep, s)) ∨
      ((∀ dep ∈ deps, dep.term ≠ target.term) ∧
        ∃ st s', justifyWith target rule args deps hasHyps s = (st, s') ∧
          st.ordinal? = some s.ordinal ∧ s'.ordinal = s.ordinal + 1 ∧
          (∀ old ∈ returned, old.isProved = true → old.IsOlder st) ∧ st.deps = deps ∧
          st.details? = (if target.isProved then some target else none) ∧
          st.base = (if target.isProved then target.base else st))) ∧
    (∀ a ∈ returned, ∀ b, TransGen Step.Uses a b →
      a.isSame b = false ∧ (b.isProved = true → b.IsOlder a)) ∧
    (∀ a ∈ returned, a.base ∈ returned ∧ a.base.details? = none ∧
      ∀ d, a.details? = some d → d.isProved = true ∧ a.base = d.base) ∧
    ∀ a ∈ returned, ∀ b ∈ returned, a.isProved = true → b.isProved = true → a.term = b.term →
      a = b := by
  refine ⟨fun target rule args deps hasHyps => ?_, fun a ha b hab => ?_, fun a ha => ?_, ?_⟩
  · cases hfind : deps.find? (fun dep => dep.term = target.term) with
    | some dep =>
      obtain ⟨hterm, before, after, rfl, hbefore⟩ := List.find?_eq_some_iff_append.1 hfind
      refine .inl ⟨before, dep, after, rfl, by simpa using hterm, by simpa using hbefore, ?_⟩
      exact justifyWith_known hfind s
    | none =>
      have hdiff : ∀ dep ∈ deps, dep.term ≠ target.term := by simpa using hfind
      have hnew := @justifyWith_makes target rule args deps hasHyps hdiff s
      exact .inr ⟨hdiff, _, _, rfl, hnew.ordinal, hnew.next,
        fun old hold hp => hnew.isOlder h.consistent hold hp, hnew.deps, hnew.details, hnew.base_eq⟩
  · obtain ⟨htag, hold⟩ := h.uses_isOlder ha hab
    refine ⟨?_, fun hp => (hold hp).2⟩
    unfold Step.isSame
    rw [beq_eq_false_iff_ne]
    omega
  · exact ⟨h.base_mem ha, a.details?_base, fun d hd =>
      ⟨h.consistent.details a ha d hd, Step.base_of_details hd⟩⟩
  · exact fun a ha b hb hpa hpb hterm =>
      h.consistent.unique a ha b hb hpa hpb (congrArg Term.root hterm)

/-- An assumption, the same step justified anew, and a rule that gives back what it was given: three
calls and two steps. The second step is newer than the assumption, at which its chain ends; the third
call gives the second step back and draws no ordinal. -/
theorem Run.justified_noop :
    let assumed : Step := .bare 1 (.var ⟨0, "p", none⟩) false
    let s₀ : Session := { Session.start .standard with nodes := 2 }
    let r₁ := Session.justify assumed "assume" [] [] s₀
    let r₂ := Session.justify r₁.1 "rename" [.step r₁.1] [assumed] r₁.2
    let r₃ := Session.justify r₂.1 "noop" [] [r₁.1, r₂.1] r₂.2
    Run r₃.2 [r₁.1, r₂.1, r₃.1] ∧ r₁.1.IsOlder r₂.1 ∧ r₂.1.base = r₁.1 ∧ r₃ = (r₂.1, r₂.2) := by
  intro assumed s₀ r₁ r₂ r₃
  have h₀ : Run s₀ [] := .advance (.start .standard) ⟨by decide, Nat.le_refl _, List.prefix_refl _⟩
  have h₁ : Run r₁.2 [r₁.1] :=
    h₀.justify (.inr ⟨rfl, by decide, by decide⟩) nofun nofun
  have hfirst : r₁.1.Available r₁.2 [r₁.1] := .inl List.mem_cons_self
  have h₂ : Run r₂.2 [r₁.1, r₂.1] := by
    refine h₁.justify hfirst (List.forall_mem_singleton.2 hfirst) (List.forall_mem_singleton.2 ?_)
    exact .inr ⟨rfl, by decide, by decide⟩
  have hmem₁ : r₁.1 ∈ [r₁.1, r₂.1] := List.mem_cons_self
  have hmem₂ : r₂.1 ∈ [r₁.1, r₂.1] := List.mem_cons_of_mem _ List.mem_cons_self
  have h₃ : Run r₃.2 [r₁.1, r₂.1, r₃.1] :=
    h₂.justify (.inl hmem₂) nofun
      (List.forall_mem_cons.2 ⟨.inl hmem₁, List.forall_mem_singleton.2 (.inl hmem₂)⟩)
  have hproved : ∀ st ∈ [r₁.1, r₂.1], st.isProved = true :=
    List.forall_mem_cons.2 ⟨rfl, List.forall_mem_singleton.2 rfl⟩
  obtain ⟨hcall, hrests, hbase, hsame⟩ := h₂.justified
  have hdetails : r₂.1.details? = some r₁.1 := rfl
  refine ⟨h₃, (hrests _ hmem₂ _ (.single (.details hdetails))).2 rfl, ?_, ?_⟩
  · exact ((hbase _ hmem₂).2.2 _ hdetails).2.trans (Step.base_of_details_none rfl)
  · rcases hcall r₂.1 "noop" [] [r₁.1, r₂.1] r₂.1.hasHyps with
      ⟨before, dep, after, hdeps, hterm, hbefore, heq⟩ | ⟨hnone, -⟩
    · have hdep : dep ∈ [r₁.1, r₂.1] := by
        rw [hdeps]
        exact List.mem_append_right _ List.mem_cons_self
      rw [← hsame dep hdep _ hmem₂ (hproved dep hdep) rfl hterm]
      exact heq
    · exact absurd rfl (hnone _ hmem₂)

end Runs

end Session

end ProofKernel
