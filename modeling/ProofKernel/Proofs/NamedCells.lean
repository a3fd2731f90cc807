import Mathlib.Order.Monotone.Basic
import ProofKernel.Proofs.CellInference
import ProofKernel.Proofs.RenamedTypes
import ProofKernel.Proofs.TypeTexts
import ProofKernel.SimpleType.NamedCells

/-!
# Inference on cells with names

Inference numbers the type variables of a run, and a variable is its number. On cells with names a
variable is a cell, wherever that is, and other cells are made besides, for the variables of declared
types. Both do the same: the variables of inference have cells with their names, and no type of the
run has a cell of another kind.

* `Inference.Minted`: states whose type variables were all made in the run;
* `Places`: where the cells of the variables are;
* `NamedRun.Mirrors`: a run on cells with names that is where a run of inference is;
* `NamedInfer.FollowsFrom`: a computation on cells with names that does what one of inference does;
* `NamedInfer.declaredType_follows`: none of the cells into which a declared type is read stays;
* `NamedInfer.inferWith_follows`, `NamedInfer.constantType_follows`: inference.
-/

namespace ProofKernel

open TypeStore

/-! ## Variables of a run -/

/-- The numbers of the variables that a run has made. -/
def IsMinted (n v : Nat) : Prop := 1 ≤ v ∧ v < n

theorem IsMinted.mono {n k v : Nat} (h : IsMinted n v) (hnk : n ≤ k) : IsMinted k v :=
  ⟨h.1, h.2.trans_le hnk⟩

namespace Inference

/-- **All type variables of a state were made in the run**, and its types are those of individuals,
truth values and functions. -/
structure Minted (s : Inference) : Prop where
  next : 1 ≤ s.next
  store : TypeStore.Over (IsMinted s.next) s.store
  free : ∀ entry ∈ s.free, entry.2.Over (IsMinted s.next)
  scope : ∀ entry ∈ s.scope, entry.2.Over (IsMinted s.next)

/-- What the next variable is makes no difference to the bindings. -/
theorem Represents.next {s s₀ : Inference} (h : s.Represents s₀) (n : Nat) :
    Represents { s with next := n } { s₀ with next := n } :=
  ⟨by rw [h.rest], h.store⟩

theorem minted_start : Minted .start := ⟨Nat.le_refl 1, nofun, nofun, nofun⟩

/-- The types of variables with other type variables. -/
def renameAll (e : Nat → Nat) (entries : List (Name × Ty Nat)) : List (Name × Ty Nat) :=
  entries.map fun entry => (entry.1, entry.2.rename e)

/-- The state with other type variables, and with another next one. -/
def rename (e : Nat → Nat) (next : Nat) (s : Inference) : Inference :=
  ⟨next, renameAll e s.free, renameAll e s.scope, s.store.rename e⟩

theorem lookup?_renameAll (e : Nat → Nat) (entries : List (Name × Ty Nat)) (name : Name) :
    Scope.lookup? (renameAll e entries) name = (Scope.lookup? entries name).map (Ty.rename e) :=
  Scope.lookup?_map entries (Ty.rename e) name

variable {s : Inference} {n : Nat}

theorem renameAll_congr {e e' : Nat → Nat} {entries : List (Name × Ty Nat)}
    (h : ∀ entry ∈ entries, entry.2.Over (IsMinted n)) (he : ∀ v < n, e' v = e v) :
    renameAll e' entries = renameAll e entries :=
  List.map_congr_left fun entry hentry => by
    rw [Ty.rename_congr fun v hv => he v ((h entry hentry).of_mem_vars hv).2]

/-- Where the variables that are not yet made are has no importance. -/
theorem Minted.rename_congr (h : s.Minted) {e e' : Nat → Nat} (he : ∀ v < s.next, e' v = e v) :
    s.rename e' n = s.rename e n := by
  have hstore : s.store.rename e' = s.store.rename e :=
    List.map_congr_left fun b hb => by
      obtain ⟨hv, ht⟩ := h.store b hb
      rw [he b.1 hv.2, Ty.rename_congr fun w hw => he w (ht.of_mem_vars hw).2]
  rw [rename, rename, hstore, renameAll_congr h.free he, renameAll_congr h.scope he]

/-- More variables. -/
theorem Minted.draw (h : s.Minted) (hn : s.next ≤ n) : Minted { s with next := n } where
  next := h.next.trans hn
  store := h.store.mono fun _ hv => hv.mono hn
  free := fun entry hentry => (h.free entry hentry).mono fun _ hv => hv.mono hn
  scope := fun entry hentry => (h.scope entry hentry).mono fun _ hv => hv.mono hn

end Inference

/-- **Where the cells of the variables of a run are.** There are `n` variables and `c` cells, each
variable has a cell of its own, and the variables that the run has still to make have those that
come next. -/
structure Places (e : Nat → Nat) (n c : Nat) : Prop where
  mono : StrictMono e
  rest : ∀ v, n ≤ v → e v = c + (v - n)

namespace Places

variable {e : Nat → Nat} {n c : Nat}

theorem lt (h : Places e n c) {v : Nat} (hv : v < n) : e v < c := by
  have hlt := h.mono hv
  rwa [h.rest n (Nat.le_refl n), Nat.sub_self, Nat.add_zero] at hlt

/-- Cells for variables. -/
theorem draw (h : Places e n c) (k : Nat) : Places e (n + k) (c + k) where
  mono := h.mono
  rest v hv := by
    rw [h.rest v (by omega)]
    omega

/-- Cells for other things. -/
theorem skip (h : Places e n c) (k : Nat) :
    Places (fun v => if v < n then e v else e v + k) n (c + k) where
  mono v w hvw := by
    have hlt := h.mono hvw
    by_cases hw : w < n
    · simp only [if_pos (hvw.trans hw), if_pos hw]
      exact hlt
    · by_cases hv : v < n
      · simp only [if_pos hv, if_neg hw]
        omega
      · simp only [if_neg hv, if_neg hw]
        omega
  rest v hv := by
    rw [if_neg (Nat.not_lt.2 hv), h.rest v hv]
    omega

end Places

/-- How a run moves on: variables are made, and those of before keep their cells. -/
structure Grows (e : Nat → Nat) (n : Nat) (e' : Nat → Nat) (n' : Nat) : Prop where
  next : n ≤ n'
  places : ∀ v < n, e' v = e v

theorem Grows.refl (e : Nat → Nat) (n : Nat) : Grows e n e n := ⟨Nat.le_refl n, fun _ _ => rfl⟩

theorem Grows.trans {e e' e'' : Nat → Nat} {n n' n'' : Nat} (h : Grows e n e' n')
    (h' : Grows e' n' e'' n'') : Grows e n e'' n'' :=
  ⟨h.next.trans h'.next, fun v hv =>
    (h'.places v (hv.trans_le h.next)).trans (h.places v hv)⟩

/-- A type on cells, and the one on variables that it is. -/
def Renamed (e : Nat → Nat) (n : Nat) (t t₀ : Ty Nat) : Prop :=
  t = t₀.rename e ∧ t₀.Over (IsMinted n)

theorem Renamed.grows {e e' : Nat → Nat} {n n' : Nat} {t t₀ : Ty Nat} (h : Renamed e n t t₀)
    (hgrows : Grows e n e' n') : Renamed e' n' t t₀ := by
  refine ⟨?_, h.2.mono fun _ hv => hv.mono hgrows.next⟩
  rw [h.1, Ty.rename_congr fun v hv => hgrows.places v (h.2.of_mem_vars hv).2]

/-! ## Runs on cells with names -/

namespace NamedRun

/-- **A run on cells with names is where a run of inference is**: the variables have cells with their
names, in which the types are that they have there. -/
structure Mirrors (e : Nat → Nat) (s : NamedRun) (s₀ : Inference) : Prop where
  cells : s.cells.Represents (s₀.rename e s.cells.next)
  minted : s.minted = s₀.next
  places : Places e s₀.next s.cells.next
  name : ∀ v, IsMinted s₀.next v → s.name (e v) = .minted v
  known : s₀.Minted

theorem mirrors_start : Mirrors id .start .start where
  cells := Inference.represents_start
  minted := rfl
  places := ⟨strictMono_id, fun v hv => by
    show v = 1 + (v - 1)
    have : 1 ≤ v := hv
    omega⟩
  name v hv := absurd hv.2 (Nat.not_lt.2 hv.1)
  known := Inference.minted_start

variable {e : Nat → Nat} {s : NamedRun} {s₀ : Inference}

/-- The variable that the run makes next. -/
theorem Mirrors.mint (h : Mirrors e s s₀) :
    ∃ s', NamedInfer.mint.run s = some (.ok (.var (e s₀.next)), s') ∧
      Mirrors e s' { s₀ with next := s₀.next + 1 } := by
  have hcell : e s₀.next = s.cells.next := by
    rw [h.places.rest _ (Nat.le_refl _), Nat.sub_self, Nat.add_zero]
  have hname : ∀ v, IsMinted (s₀.next + 1) v →
      (if e v = s.cells.next then CellName.minted s.minted else s.name (e v)) = .minted v := by
    intro v hv
    by_cases hnew : v = s₀.next
    · rw [hnew, if_pos hcell, h.minted]
    · have hold : IsMinted s₀.next v := ⟨hv.1, Nat.lt_of_le_of_ne (Nat.le_of_lt_succ hv.2) hnew⟩
      rw [if_neg (Nat.ne_of_lt (h.places.lt hold.2)), h.name v hold]
  refine ⟨_, by rw [hcell]; rfl, ?_⟩
  exact
    { cells := h.cells.next _
      minted := congrArg (· + 1) h.minted
      places := h.places.draw 1
      name := hname
      known := h.known.draw (Nat.le_succ _) }

/-- A cell that is no variable of the run. -/
theorem Mirrors.newCell (h : Mirrors e s s₀) (name : CellName) :
    ∃ e' s', (NamedInfer.newCell name).run s = some (.ok (.var s.cells.next), s') ∧
      s'.cells.next = s.cells.next + 1 ∧ Mirrors e' s' s₀ ∧
      Grows e s₀.next e' s₀.next := by
  have hplaces := h.places.skip 1
  have hgrows : ∀ v < s₀.next, (fun v => if v < s₀.next then e v else e v + 1) v = e v :=
    fun v hv => if_pos hv
  generalize (fun v => if v < s₀.next then e v else e v + 1) = e' at hplaces hgrows
  refine ⟨e', _, rfl, rfl, ?_, Nat.le_refl _, hgrows⟩
  exact
    { cells := by
        rw [h.known.rename_congr hgrows]
        exact h.cells.next _
      minted := h.minted
      places := hplaces
      name := fun v hv => by
        show (if e' v = s.cells.next then name else s.name (e' v)) = _
        rw [hgrows v hv.2, if_neg (Nat.ne_of_lt (h.places.lt hv.2))]
        exact h.name v hv
      known := h.known }

/-- Other bindings and other types of the variables of terms, over the same type variables. -/
theorem Mirrors.within (h : Mirrors e s s₀) {cells s₀' : Inference}
    (hcells : cells.Represents (s₀'.rename e s.cells.next)) (hnext : s₀'.next = s₀.next)
    (hknown : s₀'.Minted) : Mirrors e { s with cells := cells } s₀' := by
  have hcellsNext : cells.next = s.cells.next := by rw [hcells.rest]; rfl
  exact
    { cells := by rwa [hcellsNext]
      minted := h.minted.trans hnext.symm
      places := by
        rw [hcellsNext, hnext]
        exact h.places
      name := by
        rw [hnext]
        exact h.name
      known := hknown }

/-- Looking at the cells leaves the run where it is. -/
theorem Mirrors.onCells {β : Type} {m : CellM Nat β} {P : β → Prop} (h : Mirrors e s s₀)
    (hm : ∀ rank, CellM.Gives rank (s₀.store.rename e) m P) :
    ∃ b s', (NamedInfer.onCells (ExceptT.lift (Inference.onCells m))).run s = some (.ok b, s') ∧
      Mirrors e s' s₀ ∧ P b := by
  obtain ⟨b, cells, hrun, hcells, hb⟩ := Inference.onCells_gives hm h.cells
  refine ⟨b, { s with cells := cells }, ?_, h.within hcells rfl h.known, hb⟩
  show ((ExceptT.lift (Inference.onCells m)).run s.cells >>= _) = _
  rw [CellInfer.run_lift hrun]
  rfl

end NamedRun

open NamedRun
open CellInfer (run_bind_ok run_bind_error)

namespace NamedInfer

variable {β γ δ : Type}

/-- Two results that are both errors, or that are as asked for. -/
def Agree (R : β → γ → Prop) : Except TypeError β → Except TypeError γ → Prop
  | .ok b, .ok c => R b c
  | .error _, .error _ => True
  | _, _ => False

theorem Agree.mono {R Q : β → γ → Prop} {r : Except TypeError β} {r₀ : Except TypeError γ}
    (h : Agree R r r₀) (hRQ : ∀ b c, R b c → Q b c) : Agree Q r r₀ := by
  cases r <;> cases r₀
  · trivial
  · exact h
  · exact h
  · exact hRQ _ _ h

theorem exists_of_agree {R : β → γ → Prop} {rs : List (Except TypeError β)}
    {rs₀ : List (Except TypeError γ)} (h : List.Forall₂ (Agree R) rs rs₀) {b : β}
    (hb : .ok b ∈ rs) : ∃ c, R b c := by
  induction h with
  | nil => cases hb
  | @cons r r₀ rs rs₀ hr _ ih =>
    rcases List.mem_cons.1 hb with rfl | hb
    · obtain _ | c := r₀
      · exact hr.elim
      · exact ⟨c, hr⟩
    · exact ih hb

/-- **A computation on cells with names does what one of inference does**, from a state where that
one is: it ends, where the other one is, and with a result that is related to its result. -/
def FollowsFrom (m : NamedInfer β) (m₀ : Infer γ) (e : Nat → Nat) (s : NamedRun) (s₀ : Inference)
    (R : (Nat → Nat) → Nat → β → γ → Prop) : Prop :=
  ∃ e' r s', m.run s = some (r, s') ∧ Mirrors e' s' (m₀ s₀).2 ∧
    Grows e s₀.next e' (m₀ s₀).2.next ∧ Agree (R e' (m₀ s₀).2.next) r (m₀ s₀).1

section Steps

variable {e : Nat → Nat} {s : NamedRun} {s₀ : Inference} {R : (Nat → Nat) → Nat → β → γ → Prop}

theorem FollowsFrom.bind {δ' : Type} {Q : (Nat → Nat) → Nat → δ → δ' → Prop} {m : NamedInfer β}
    {m₀ : Infer γ} {k : β → NamedInfer δ} {k₀ : γ → Infer δ'} (h : FollowsFrom m m₀ e s s₀ R)
    (hk : ∀ e' s' s₀' b c, Mirrors e' s' s₀' → Grows e s₀.next e' s₀'.next →
      R e' s₀'.next b c → FollowsFrom (k b) (k₀ c) e' s' s₀' Q) :
    FollowsFrom (m >>= k) (m₀ >>= k₀) e s s₀ Q := by
  obtain ⟨e', r, s', hrun, hs', hgrows, hr⟩ := h
  rw [FollowsFrom, Infer.bind_eq]
  generalize m₀ s₀ = r₀ at hs' hgrows hr ⊢
  obtain ⟨err₀ | c, s₀'⟩ := r₀ <;> obtain err | b := r
  · exact ⟨e', _, s', run_bind_error hrun k, hs', hgrows, trivial⟩
  · exact hr.elim
  · exact hr.elim
  · obtain ⟨e'', r', s'', hrun', hs'', hgrows', hr'⟩ := hk e' s' s₀' b c hs' hgrows hr
    exact ⟨e'', r', s'', (run_bind_ok hrun k).trans hrun', hs'', hgrows.trans hgrows', hr'⟩

theorem followsFrom_pure {b : β} {c : γ} (hs : Mirrors e s s₀) (h : R e s₀.next b c) :
    FollowsFrom (pure b) (pure c) e s s₀ R :=
  ⟨e, .ok b, s, rfl, hs, .refl e s₀.next, h⟩

theorem followsFrom_throw (err : TypeError) (hs : Mirrors e s s₀) :
    FollowsFrom (throw err : NamedInfer β) (throw err) e s s₀ R :=
  ⟨e, .error err, s, rfl, hs, .refl e s₀.next, trivial⟩

/-- A computation on cells that makes no variables. -/
theorem onCells_follows {m : CellInfer β} {m' : Infer β} {m₀ : Infer γ}
    (hm : CellInfer.Follows m m') (hs : Mirrors e s s₀)
    (hstate : (m' (s₀.rename e s.cells.next)).2 = (m₀ s₀).2.rename e s.cells.next)
    (hnext : (m₀ s₀).2.next = s₀.next) (hknown : (m₀ s₀).2.Minted)
    (hr : Agree (R e s₀.next) (m' (s₀.rename e s.cells.next)).1 (m₀ s₀).1) :
    FollowsFrom (onCells m) m₀ e s s₀ R := by
  obtain ⟨cells, hrun, hcells⟩ := hm _ _ hs.cells
  rw [hstate] at hcells
  refine ⟨e, (m' (s₀.rename e s.cells.next)).1, { s with cells := cells }, ?_,
    hs.within hcells hnext hknown, ?_, ?_⟩
  · show (m.run s.cells >>= _) = _
    rw [hrun]
    rfl
  · rw [hnext]
    exact .refl e s₀.next
  · rw [hnext]
    exact hr

theorem mint_follows (hs : Mirrors e s s₀) : FollowsFrom mint Infer.newVar e s s₀ Renamed := by
  obtain ⟨s', hrun, hs'⟩ := hs.mint
  exact ⟨e, _, s', hrun, hs', ⟨Nat.le_succ _, fun _ _ => rfl⟩, rfl,
    .var ⟨hs.known.next, Nat.lt_succ_self _⟩⟩

theorem known?_follows (name : Name) (hs : Mirrors e s s₀) :
    FollowsFrom (onCells (CellInfer.step (Infer.known? name))) (Infer.known? name) e s s₀
      fun e n => Option.Rel (Renamed e n) := by
  refine onCells_follows (CellInfer.known?_follows name) hs rfl rfl hs.known ?_
  show Option.Rel (Renamed e s₀.next)
    ((Scope.lookup? (Inference.renameAll e s₀.scope) name).or
      (Scope.lookup? (Inference.renameAll e s₀.free) name))
    ((Scope.lookup? s₀.scope name).or (Scope.lookup? s₀.free name))
  rw [Inference.lookup?_renameAll, Inference.lookup?_renameAll]
  cases hscope : Scope.lookup? s₀.scope name with
  | some t => exact .some ⟨rfl, hs.known.scope _ (Scope.mem_of_lookup? hscope)⟩
  | none =>
    cases hfree : Scope.lookup? s₀.free name with
    | some t => exact .some ⟨rfl, hs.known.free _ (Scope.mem_of_lookup? hfree)⟩
    | none => exact .none

theorem unify_eq (a b : Ty Nat) (s : Inference) :
    Infer.unify a b s = ((s.store.unify a b).2.elim (.ok ()) fun c => .error (.clash c),
      { s with store := (s.store.unify a b).1 }) := by
  unfold Infer.unify
  generalize s.store.unify a b = r
  obtain ⟨store, _ | _⟩ := r <;> rfl

theorem unify_follows (logs : Bool) {a b a₀ b₀ : Ty Nat} (hs : Mirrors e s s₀)
    (ha : Renamed e s₀.next a a₀) (hb : Renamed e s₀.next b b₀) :
    FollowsFrom (onCells (CellInfer.unify logs a b)) (Infer.unify a₀ b₀) e s s₀
      fun _ _ _ _ => True := by
  have hrename := TypeStore.unify_rename hs.places.mono.injective s₀.store a₀ b₀
  rw [← ha.1, ← hb.1] at hrename
  have hstep : Infer.unify a b (s₀.rename e s.cells.next) =
      ((s₀.store.unify a₀ b₀).2.elim (.ok ()) fun c => .error (.clash (c.rename e)),
        { s₀ with store := (s₀.store.unify a₀ b₀).1 }.rename e s.cells.next) := by
    rw [unify_eq]
    simp only [Inference.rename, hrename, Option.elim_map]
    rfl
  refine onCells_follows (CellInfer.unify_follows logs a b) hs ?_ ?_ ?_ ?_
  · rw [hstep, unify_eq]
  · rw [unify_eq]
  · rw [unify_eq]
    exact ⟨hs.known.next, hs.known.store.unify ha.2 hb.2, hs.known.free, hs.known.scope⟩
  · rw [hstep, unify_eq]
    cases (s₀.store.unify a₀ b₀).2 <;> trivial

theorem freeType_follows (name : Name) (hs : Mirrors e s s₀) :
    FollowsFrom (freeType name) (Infer.freeType name) e s s₀ Renamed := by
  show FollowsFrom _ (Infer.newVar >>= fun t s =>
    (.ok t, { s with free := s.free ++ [(name, t)] })) e s s₀ Renamed
  refine (mint_follows hs).bind fun e' s' s₀' t t₀ hs' _ ht => ?_
  refine onCells_follows (CellInfer.step_follows (fun _ _ => rfl) fun _ => rfl) hs' ?_ rfl ?_ ht
  · have hfree : Inference.renameAll e' (s₀'.free ++ [(name, t₀)]) =
        Inference.renameAll e' s₀'.free ++ [(name, t)] := by
      rw [ht.1]
      exact List.map_append
    simp only [Inference.rename, hfree]
  · exact ⟨hs'.known.next, hs'.known.store,
      List.forall_mem_append.2 ⟨hs'.known.free, List.forall_mem_singleton.2 ht.2⟩,
      hs'.known.scope⟩

theorem under_follows {m : NamedInfer β} {m₀ : Infer γ} {name : Name} {t t₀ : Ty Nat}
    (hs : Mirrors e s s₀) (ht : Renamed e s₀.next t t₀)
    (h : ∀ s s₀, Mirrors e s s₀ → FollowsFrom m m₀ e s s₀ R) :
    FollowsFrom (under name t m) (Infer.under name t₀ m₀) e s s₀ R := by
  have hin : Mirrors e { s with cells := { s.cells with scope := (name, t) :: s.cells.scope } }
      { s₀ with scope := (name, t₀) :: s₀.scope } := by
    refine hs.within (hs.cells.within hs.cells.free_eq ?_) rfl
      ⟨hs.known.next, hs.known.store, hs.known.free,
        List.forall_mem_cons.2 ⟨ht.2, hs.known.scope⟩⟩
    rw [ht.1, hs.cells.scope_eq]
    rfl
  obtain ⟨e', r, s', hrun, hs', hgrows, hr⟩ := h _ _ hin
  refine ⟨e', r, { s' with cells := { s'.cells with scope := s'.cells.scope.tail } }, ?_, ?_,
    hgrows, hr⟩
  · show (m.run _ >>= _) = _
    rw [hrun]
    rfl
  · refine hs'.within (hs'.cells.within hs'.cells.free_eq ?_) rfl
      ⟨hs'.known.next, hs'.known.store, hs'.known.free,
        fun entry hentry => hs'.known.scope entry (List.mem_of_mem_tail hentry)⟩
    rw [hs'.cells.scope_eq]
    exact (List.map_tail ..).symm

/-- A computation for a closed term leaves the variables of the run as they are. -/
theorem apart_follows {m : NamedInfer β} {m₀ : Infer γ} (hs : Mirrors e s s₀)
    (h : ∀ s s₀, Mirrors e s s₀ → FollowsFrom m m₀ e s s₀ R) :
    FollowsFrom (apart m) (Infer.apart m₀) e s s₀ R := by
  have hin : Mirrors e { s with cells := { s.cells with free := [], scope := [] } }
      { s₀ with free := [], scope := [] } :=
    hs.within (hs.cells.within rfl rfl) rfl ⟨hs.known.next, hs.known.store, nofun, nofun⟩
  obtain ⟨e', r, s', hrun, hs', hgrows, hr⟩ := h _ _ hin
  refine ⟨e', r, { s' with
    cells := { s'.cells with free := s.cells.free, scope := s.cells.scope } }, ?_, ?_, hgrows, hr⟩
  · show (m.run _ >>= _) = _
    rw [hrun]
    rfl
  · have hold := hs.known.draw hgrows.next
    refine hs'.within (hs'.cells.within ?_ ?_) rfl
      ⟨hs'.known.next, hs'.known.store, hold.free, hold.scope⟩
    · rw [hs.cells.free_eq]
      exact (Inference.renameAll_congr hs.known.free hgrows.places).symm
    · rw [hs.cells.scope_eq]
      exact (Inference.renameAll_congr hs.known.scope hgrows.places).symm

end Steps

/-! ### Declared types -/

section Declared

variable {α : Type} {e : Nat → Nat} {s : NamedRun} {s₀ : Inference}

theorem newCells_run (name : α → CellName) (xs : List α) (hs : Mirrors e s s₀) :
    ∃ e' s', (xs.mapM fun x => newCell (name x)).run s =
        some (.ok ((List.range' s.cells.next xs.length).map .var), s') ∧
      Mirrors e' s' s₀ ∧ Grows e s₀.next e' s₀.next := by
  induction xs generalizing e s with
  | nil => exact ⟨e, s, rfl, hs, .refl e s₀.next⟩
  | cons x xs ih =>
    obtain ⟨e₁, s₁, hrun, hnext, hs₁, hgrows⟩ := hs.newCell (name x)
    obtain ⟨e', s', hruns, hs', hgrows'⟩ := ih hs₁
    refine ⟨e', s', ?_, hs', hgrows.trans hgrows'⟩
    rw [List.mapM_cons, run_bind_ok hrun, run_bind_ok hruns, hnext]
    rfl

theorem mintAll_run (xs : List α) (hs : Mirrors e s s₀) :
    ∃ s', (xs.mapM fun _ => mint).run s =
        some (.ok ((List.range' s₀.next xs.length).map fun v => .var (e v)), s') ∧
      Mirrors e s' { s₀ with next := s₀.next + xs.length } := by
  induction xs generalizing s s₀ with
  | nil => exact ⟨s, rfl, hs⟩
  | cons x xs ih =>
    obtain ⟨s₁, hrun, hs₁⟩ := hs.mint
    obtain ⟨s', hruns, hs'⟩ := ih hs₁
    refine ⟨s', ?_, ?_⟩
    · rw [List.mapM_cons, run_bind_ok hrun, run_bind_ok hruns]
      rfl
    · rw [List.length_cons, Nat.add_comm xs.length 1, ← Nat.add_assoc]
      exact hs'

/-- What variables are renewed with: the cells made for them, in the order in which they occur. -/
theorem renew_run [DecidableEq α] {cell : α → NamedInfer (Ty Nat)} {t : Ty α} {s s' : NamedRun}
    {start : Nat} {f : Nat → Ty Nat}
    (h : (t.vars.eraseDups.mapM cell).run s =
      some (.ok ((List.range' start t.vars.eraseDups.length).map f), s')) :
    (renew cell t).run s =
      some (.ok (t.bind fun v => f (start + t.vars.eraseDups.idxOf v)), s') := by
  have hcells : (t.bind fun v => ((List.range' start t.vars.eraseDups.length).map f).getD
      (t.vars.eraseDups.idxOf v) .individual) =
      t.bind fun v => f (start + t.vars.eraseDups.idxOf v) := by
    refine Ty.bind_congr fun v hv => ?_
    have hlt := List.idxOf_lt_length_of_mem (List.mem_eraseDups.2 hv)
    rw [List.getD_eq_getElem?_getD, List.getElem?_map, List.getElem?_range' hlt, Nat.one_mul]
    rfl
  rw [renew, run_bind_ok h, ← hcells]
  rfl

/-- Renewing the variables of a type whose variables have been renewed. -/
theorem renewed_renamed {t : Ty Name} {place : Name → Nat} (f : Nat → Ty Nat)
    (hplace : ∀ x ∈ t.vars, ∀ y ∈ t.vars, place x = place y → x = y) :
    (t.rename place).vars.eraseDups.length = t.vars.eraseDups.length ∧
    ((t.rename place).bind fun v => f ((t.rename place).vars.eraseDups.idxOf v)) =
      t.bind fun x => f (t.vars.eraseDups.idxOf x) := by
  have hvars : (t.rename place).vars.eraseDups = t.vars.eraseDups.map place := by
    rw [Ty.vars_rename, eraseDups_map hplace]
  refine ⟨by rw [hvars, List.length_map], ?_⟩
  rw [hvars, Ty.rename, Ty.bind_bind]
  refine Ty.bind_congr fun x hx => congrArg f (idxOf_map fun y hy => ?_)
  exact hplace y (List.mem_eraseDups.1 hy) x hx

/-- **A declared type gets variables of the run only**: it is read into cells of its own, and these
are all replaced. -/
theorem declaredType_follows {t : Ty Name} (ht : t.Over fun _ => True) (hs : Mirrors e s s₀) :
    FollowsFrom (declaredType t) (Infer.instantiate t) e s s₀ Renamed := by
  let place : Name → Nat := fun x => s.cells.next + t.vars.eraseDups.idxOf x
  have hplace : ∀ x ∈ t.vars, ∀ y ∈ t.vars, place x = place y → x = y := fun x hx y _ heq =>
    (List.idxOf_inj (List.mem_eraseDups.2 hx)).1 (Nat.add_left_cancel heq)
  obtain ⟨e₁, s₁, hread, hs₁, hgrows⟩ :=
    newCells_run (fun x => CellName.read x) t.vars.eraseDups hs
  have hunbound : ∀ v ∈ (t.rename place).vars, v ∉ bound (s₀.store.rename e₁) := by
    intro v hv hbound
    rw [Ty.vars_rename] at hv
    obtain ⟨x, -, rfl⟩ := List.mem_map.1 hv
    obtain ⟨u, hu⟩ := mem_bound.1 hbound
    obtain ⟨b, hb, heq⟩ := List.mem_map.1 hu
    have hold := (hs.known.store b hb).1.2
    have hlt := hs.places.lt hold
    rw [← hgrows.places _ hold, show e₁ b.1 = place x from congrArg Prod.fst heq] at hlt
    exact absurd hlt (Nat.not_lt.2 (Nat.le_add_right ..))
  obtain ⟨u, s₂, hshown, hs₂, hu⟩ := hs₁.onCells fun rank => CellM.readOut_gives (t.rename place)
  rw [expand_eq_self hunbound] at hu
  subst hu
  obtain ⟨s', hmint, hs'⟩ := mintAll_run (t.rename place).vars.eraseDups hs₂
  obtain ⟨hlength, hrenewed⟩ := renewed_renamed (fun i => .var (e₁ (s₀.next + i))) hplace
  have hresult : (renew (fun _ => mint) (t.rename place)).run s₂ =
      some (.ok (t.bind fun x => .var (e₁ (s₀.next + t.vars.eraseDups.idxOf x))), s') := by
    rw [← hrenewed]
    exact renew_run hmint
  rw [hlength] at hs'
  have hrenamed : Renamed e₁ (s₀.next + t.vars.eraseDups.length)
      (t.bind fun x => .var (e₁ (s₀.next + t.vars.eraseDups.idxOf x)))
      (t.bind fun x => .var (s₀.next + t.vars.eraseDups.idxOf x)) := by
    refine ⟨by rw [Ty.rename, Ty.bind_bind]; rfl, ht.bind fun x hx _ => .var ?_⟩
    exact ⟨hs.known.next.trans (Nat.le_add_right ..),
      Nat.add_lt_add_left (List.idxOf_lt_length_of_mem (List.mem_eraseDups.2 hx)) _⟩
  refine ⟨e₁, .ok _, s', ?_, hs', ⟨Nat.le_add_right .., hgrows.places⟩, hrenamed⟩
  rw [declaredType, run_bind_ok (renew_run hread)]
  exact (run_bind_ok hshown _).trans hresult

end Declared

/-! ### Terms and constants -/

section Terms

variable {ι : Type} (logs : Bool)

/-- **The type of a term** has the variables of the run that it has in inference, if this is so of
constants. By induction on the term. -/
theorem inferWith_follows {constant : Name → NamedInfer (Ty Nat)}
    {constant₀ : Name → Infer (Ty Nat)}
    (h : ∀ name e s s₀, Mirrors e s s₀ →
      FollowsFrom (constant name) (constant₀ name) e s s₀ Renamed)
    (m : Term ι) {e : Nat → Nat} {s : NamedRun} {s₀ : Inference} (hs : Mirrors e s s₀) :
    FollowsFrom (inferWith logs constant m) (ProofKernel.inferWith constant₀ m) e s s₀
      Renamed := by
  induction m generalizing e s s₀ with
  | var a =>
    rw [inferWith, ProofKernel.inferWith]
    refine (known?_follows a.name hs).bind fun e' s' s₀' t? t₀? hs' _ ht => ?_
    cases ht with
    | some ht => exact followsFrom_pure hs' ht
    | none =>
      rcases a.literal? with _ | ⟨_ | _⟩
      · cases a.isVariable
        · exact h a.name _ _ _ hs'
        · exact freeType_follows a.name hs'
      · exact followsFrom_pure hs' ⟨rfl, Ty.over_individual⟩
      · exact followsFrom_throw _ hs'
  | app _ f x ihf ihx =>
    rw [inferWith, ProofKernel.inferWith]
    refine (ihf hs).bind fun e₁ s₁ s₁₀ fn fn₀ hs₁ _ hfn => ?_
    refine (ihx hs₁).bind fun e₂ s₂ s₂₀ arg arg₀ hs₂ hgrows₂ harg => ?_
    refine (mint_follows hs₂).bind fun e₃ s₃ s₃₀ result result₀ hs₃ hgrows₃ hresult => ?_
    have hfn := hfn.grows (hgrows₂.trans hgrows₃)
    have harg := harg.grows hgrows₃
    have hcall : Renamed e₃ s₃₀.next (.fn arg result) (.fn arg₀ result₀) :=
      ⟨by rw [harg.1, hresult.1]; rfl, .fn harg.2 hresult.2⟩
    refine (unify_follows logs hs₃ hcall hfn).bind fun e₄ s₄ s₄₀ _ _ hs₄ hgrows₄ _ => ?_
    exact followsFrom_pure hs₄ (hresult.grows hgrows₄)
  | abs _ b body ih =>
    rw [inferWith, ProofKernel.inferWith]
    refine (mint_follows hs).bind fun e₁ s₁ s₁₀ bound bound₀ hs₁ _ hbound => ?_
    refine (under_follows hs₁ hbound fun s s₀ hs => ih hs).bind
      fun e₂ s₂ s₂₀ result result₀ hs₂ hgrows₂ hresult => ?_
    have hbound := hbound.grows hgrows₂
    exact followsFrom_pure hs₂
      ⟨by rw [hbound.1, hresult.1]; rfl, .fn hbound.2 hresult.2⟩

/-- **The type of a constant**, by induction on the definitions. -/
theorem constantType_follows {declared? : Name → Option (Ty Name)}
    (hdeclared : ∀ name t, declared? name = some t → t.Over fun _ => True)
    (defined : List (Name × PlainTerm)) (name : Name) (e : Nat → Nat) (s : NamedRun)
    (s₀ : Inference) (hs : Mirrors e s s₀) :
    FollowsFrom (constantType logs declared? defined name)
      (TypeEnv.constantType declared? defined name) e s s₀ Renamed := by
  induction defined generalizing name e s s₀ with
  | nil =>
    rw [constantType, TypeEnv.constantType]
    cases hname : declared? name with
    | some t => exact declaredType_follows (hdeclared name t hname) hs
    | none => exact followsFrom_throw _ hs
  | cons d older ih =>
    rw [constantType, TypeEnv.constantType]
    cases hname : declared? name with
    | some t => exact declaredType_follows (hdeclared name t hname) hs
    | none =>
      by_cases hd : d.1 = name
      · simp only [if_pos hd]
        exact apart_follows hs fun s s₀ hs => inferWith_follows logs ih d.2 hs
      · simp only [if_neg hd]
        exact ih name e s s₀ hs

end Terms

end NamedInfer

end ProofKernel
