import Mathlib.Data.List.Forall2
import ProofKernel.Proofs.Substitution
import ProofKernel.Substitution.Copies

/-!
# Substitution with copies makes what was drafted

* `Node.Within`: nodes that were made before a number was reached;
* `Node.Pass`: what a pass over a node gives, where nodes are compared by number;
* `Draft.Makes`: what is made of a draft, up to the numbers of what is new;
* `Draft.Holds`, `Redone`: the same with copies in place of the nodes put in, and where the numbers
  lie;
* `Substitution.insert_redone`, `Node.relabelAround_holds`, `Node.restore_makes`: what each of the
  three passes does;
* `Substitution.applyWithCopies_results`: together they make the draft of the substitution, so that
  both ways to substitute give the same (`Substitution.applyWithCopies_plain`).
-/

namespace ProofKernel

/-! ## Numbers of nodes -/

namespace Node

/-- All numbers in a node are smaller than the given one. -/
def Within (k : Nat) : Node → Prop
  | .var a => a.tag < k
  | .app t f x => t < k ∧ Within k f ∧ Within k x
  | .abs t b body => t < k ∧ b.tag < k ∧ Within k body

variable {m m' f x f' x' body body' : Node} {b : Atom Nat} {t k l : Nat}

theorem Within.mono (h : m.Within k) (hkl : k ≤ l) : m.Within l := by
  induction m with
  | var a => exact Nat.lt_of_lt_of_le h hkl
  | app t f x ihf ihx => exact ⟨Nat.lt_of_lt_of_le h.1 hkl, ihf h.2.1, ihx h.2.2⟩
  | abs t b body ih =>
    exact ⟨Nat.lt_of_lt_of_le h.1 hkl, Nat.lt_of_lt_of_le h.2.1 hkl, ih h.2.2⟩

theorem Within.root_lt (h : m.Within k) : m.root < k := by
  cases m with
  | var a => exact h
  | app t f x => exact h.1
  | abs t b body => exact h.1

theorem exists_within (m : Node) : ∃ k, m.Within k := by
  induction m with
  | var a => exact ⟨a.tag + 1, Nat.lt_succ_self _⟩
  | app t f x ihf ihx =>
    obtain ⟨k, hf⟩ := ihf
    obtain ⟨l, hx⟩ := ihx
    exact ⟨t + 1 + k + l, by omega, hf.mono (by omega), hx.mono (by omega)⟩
  | abs t b body ih =>
    obtain ⟨k, hbody⟩ := ih
    exact ⟨t + 1 + b.tag + k, by omega, by omega, hbody.mono (by omega)⟩

theorem dup_within (h : m.Within k) (hkl : k ≤ l) : (m.dup l).1.Within (l + 1) := by
  have hle : k ≤ l + 1 := Nat.le_succ_of_le hkl
  cases m with
  | var a => exact Nat.lt_succ_self l
  | app t f x => exact ⟨Nat.lt_succ_self l, h.2.1.mono hle, h.2.2.mono hle⟩
  | abs t b body =>
    exact ⟨Nat.lt_succ_self l, Nat.lt_of_lt_of_le h.2.1 hle, h.2.2.mono hle⟩

/-- Numbers tell nodes apart where a changed node has another number. -/
theorem isSame_iff (h : m' = m ∨ m'.root ≠ m.root) : m'.isSame m = true ↔ m' = m := by
  rw [isSame, beq_iff_eq]
  exact ⟨fun heq => h.resolve_right fun hne => hne heq, fun heq => heq ▸ rfl⟩

/-- A call is the same node if its parts are, and a new one otherwise. -/
theorem callAgain_eq (hf : f' = f ∨ f'.root ≠ f.root) (hx : x' = x ∨ x'.root ≠ x.root) :
    callAgain m f x f' x' k = if f' = f ∧ x' = x then (m, k) else (.app k f' x', k + 1) := by
  unfold callAgain
  simp only [Bool.and_eq_true, isSame_iff hf, isSame_iff hx]
  split <;> rfl

theorem absAgain_eq (h : body' = body ∨ body'.root ≠ body.root) :
    absAgain m b body body' k = if body' = body then (m, k) else (.abs k b body', k + 1) := by
  unfold absAgain
  simp only [isSame_iff h]
  split <;> rfl

end Node

/-! ## Passes over a node -/

/-- What a pass over a node gives: a node of some kind, the very same one or one with another number;
all its numbers have been given out by then. -/
structure Node.Pass (P : Node → Prop) (k : Nat) (m : Node) (r : Node × Nat) : Prop where
  result : P r.1
  same_or_new : r.1 = m ∨ r.1.root ≠ m.root
  within : r.1.Within r.2
  grows : k ≤ r.2

namespace Node.Pass

variable {P P₁ P₂ : Node → Prop} {k l t : Nat} {m f x body body' : Node} {b b' : Atom Nat}
  {r₁ r₂ : Node × Nat}

/-- A node that is left alone. -/
theorem same (hm : m.Within k) (h : P m) : Pass P k m (m, k) := ⟨h, .inl rfl, hm, Nat.le_refl k⟩

/-- A pass over the parts of a call: the call is the same node if its parts are. -/
theorem app (hm : Within k (.app t f x)) (hf : Pass P₁ k f r₁) (hx : Pass P₂ r₁.2 x r₂)
    (hsame : P₁ f → P₂ x → P (.app t f x))
    (hnew : ∀ u, k ≤ u → P₁ r₁.1 → P₂ r₂.1 → ¬(r₁.1 = f ∧ r₂.1 = x) → P (.app u r₁.1 r₂.1)) :
    Pass P k (.app t f x) (callAgain (.app t f x) f x r₁.1 r₂.1 r₂.2) := by
  have hk : k ≤ r₂.2 := Nat.le_trans hf.grows hx.grows
  have ht := hm.1
  rw [callAgain_eq hf.same_or_new hx.same_or_new]
  split
  next h => exact ⟨hsame (h.1 ▸ hf.result) (h.2 ▸ hx.result), .inl rfl, hm.mono hk, hk⟩
  next h =>
    refine ⟨hnew r₂.2 hk hf.result hx.result h, .inr ?_, ?_, Nat.le_succ_of_le hk⟩
    · show r₂.2 ≠ t
      omega
    · exact ⟨Nat.lt_succ_self _, hf.within.mono (Nat.le_succ_of_le hx.grows),
        hx.within.mono (Nat.le_succ _)⟩

/-- An abstraction that is made anew. -/
theorem newAbs (hm : Within k (.abs t b body)) (hk : k ≤ l) (hb' : b'.tag < l)
    (hbody : body'.Within l) (h : P (.abs l b' body')) :
    Pass P k (.abs t b body) (Node.newAbs b' body' l) := by
  have ht := hm.1
  refine ⟨h, .inr ?_, ?_, Nat.le_succ_of_le hk⟩
  · show l ≠ t
    omega
  · exact ⟨Nat.lt_succ_self l, Nat.lt_succ_of_lt hb', hbody.mono (Nat.le_succ l)⟩

/-- A pass over the body of an abstraction: the abstraction is the same node if its body is. -/
theorem abs (hm : Within k (.abs t b body)) (hbody : Pass P₁ k body r₁)
    (hsame : P₁ body → P (.abs t b body))
    (hnew : ∀ u, k ≤ u → P₁ r₁.1 → r₁.1 ≠ body → P (.abs u b r₁.1)) :
    Pass P k (.abs t b body) (absAgain (.abs t b body) b body r₁.1 r₁.2) := by
  rw [absAgain_eq hbody.same_or_new]
  split
  next h =>
    exact ⟨hsame (h ▸ hbody.result), .inl rfl, hm.mono hbody.grows, hbody.grows⟩
  next h =>
    exact newAbs hm hbody.grows (Nat.lt_of_lt_of_le hm.2.1 hbody.grows) hbody.within
      (hnew r₁.2 hbody.grows hbody.result h)

end Node.Pass

/-! ## What is made of a draft -/

/-- An atom that is not older than `lo` stands for another one of the same name. -/
structure Atom.Renewed (lo : Nat) (a a' : Atom Nat) : Prop where
  tag : lo ≤ a.tag
  name : a'.name = a.name
  shown : a'.shown? = a.shown?

/-- **What is made of a draft**: nodes that are kept and nodes that are put in are the very same ones,
and the others are new. The draft's own atoms with numbers from `lo` on are new as well, so that they
may have other numbers. -/
inductive Draft.Makes (lo : Nat) : Draft → Node → Prop
  | keep (m : Node) : Makes lo (.keep m) m
  | leaf {a a' : Atom Nat} (h : a.Renewed lo a') : Makes lo (.keep (.var a)) (.var a')
  | slot (m : Node) : Makes lo (.slot m) m
  | app {f x : Draft} {f' x' : Node} (t : Nat) (hf : Makes lo f f') (hx : Makes lo x x') :
      Makes lo (.app f x) (.app t f' x')
  | abs {b b' : Atom Nat} {d : Draft} {n : Node} (t : Nat) (hb : b' = b ∨ b.Renewed lo b')
      (h : Makes lo d n) : Makes lo (.abs b d) (.abs t b' n)

namespace Draft

variable {lo lo' : Nat} {d : Draft} {n n' : Node}

theorem build_makes (lo : Nat) (d : Draft) (k : Nat) : d.Makes lo (d.build k).1 := by
  induction d generalizing k with
  | keep m => exact .keep m
  | slot m => exact .slot m
  | app f x ihf ihx => exact .app _ (ihf k) (ihx _)
  | abs b d ih => exact .abs _ (.inl rfl) (ih k)

theorem Renewed.retag {a a' : Atom Nat} (h : a' = a ∨ a.Renewed lo a') : a'.retag () = a.retag () := by
  rcases h with rfl | h
  · rfl
  · rw [Atom.retag, Atom.retag, h.name, h.shown]

/-- A call with a changed part is made anew. -/
theorem call?_eq_some {f x : Node} {df? dx? : Option Draft} (h : ¬(df? = none ∧ dx? = none)) :
    call? f x df? dx? = some (.app (df?.getD (.keep f)) (dx?.getD (.keep x))) := by
  cases df? with
  | some df => rfl
  | none =>
    cases dx? with
    | some dx => rfl
    | none => exact absurd ⟨rfl, rfl⟩ h

/-- What is made of a draft is the same but for the numbers. -/
theorem Makes.plain_eq (h : d.Makes lo n) (h' : d.Makes lo' n') : n.plain = n'.plain := by
  induction h generalizing n' with
  | keep m =>
    cases h' with
    | keep => rfl
    | leaf h' => exact congrArg Term.var (Renewed.retag (.inr h')).symm
  | leaf h =>
    cases h' with
    | keep => exact congrArg Term.var (Renewed.retag (.inr h))
    | leaf h' =>
      exact congrArg Term.var ((Renewed.retag (.inr h)).trans (Renewed.retag (.inr h')).symm)
  | slot m => cases h' with | slot => rfl
  | app t hf hx ihf ihx =>
    cases h' with
    | app t' hf' hx' => rw [Term.plain, ihf hf', ihx hx', Term.plain]
  | abs t hb h ih =>
    cases h' with
    | abs t' hb' h' =>
      rw [Term.plain, ih h', Renewed.retag hb, Term.plain, Renewed.retag hb']

end Draft

/-! ## Copies -/

/-- Copies, each with the node that it is a copy of: the copies' numbers lie between `lo` and `hi`,
where no other node has its number, and tell them apart. -/
structure Copied (lo hi : Nat) (copies : List (Node × Node)) : Prop where
  le : lo ≤ hi
  range : ∀ pair ∈ copies, lo ≤ pair.1.root ∧ pair.1.Within hi
  older : ∀ pair ∈ copies, pair.2.Within lo
  unique : ∀ pair ∈ copies, ∀ pair' ∈ copies, pair.1.root = pair'.1.root → pair = pair'

namespace Copied

variable {lo hi : Nat} {copies : List (Node × Node)} {m n : Node}

theorem original?_eq (h : Copied lo hi copies) (hmem : (n, m) ∈ copies) :
    Node.original? copies n = some m := by
  unfold Node.original?
  cases hfind : copies.find? fun pair => n.isSame pair.1 with
  | none =>
    have := List.find?_eq_none.1 hfind (n, m) hmem
    simp [Node.isSame] at this
  | some pair =>
    have hroot : n.root = pair.1.root := by simpa [Node.isSame] using List.find?_some hfind
    rw [h.unique pair (List.mem_of_find?_eq_some hfind) (n, m) hmem hroot.symm]
    rfl

/-- Nodes with other numbers are no copies. -/
theorem ne_root (h : Copied lo hi copies) (hn : n.root < lo ∨ hi ≤ n.root) :
    ∀ pair ∈ copies, n.isSame pair.1 = false := by
  intro pair hpair
  obtain ⟨hle, hlt⟩ := h.range pair hpair
  have hlt := hlt.root_lt
  rw [Node.isSame, beq_eq_false_iff_ne]
  omega

theorem original?_eq_none (h : Copied lo hi copies) (hn : n.root < lo ∨ hi ≤ n.root) :
    Node.original? copies n = none := by
  rw [Node.original?, Option.map_eq_none_iff, List.find?_eq_none]
  intro pair hpair
  simp [h.ne_root hn pair hpair]

theorem any_eq_false (h : Copied lo hi copies) (hn : n.root < lo ∨ hi ≤ n.root) :
    (copies.map (·.1)).any n.isSame = false := by
  rw [List.any_eq_false]
  intro m hm
  obtain ⟨pair, hpair, rfl⟩ := List.mem_map.1 hm
  simp [h.ne_root hn pair hpair]

theorem any_eq_true (hmem : (n, m) ∈ copies) : (copies.map (·.1)).any n.isSame = true :=
  List.any_eq_true.2 ⟨n, List.mem_map.2 ⟨_, hmem, rfl⟩, by simp [Node.isSame]⟩

end Copied

/-- **What a run with copies makes of a draft** before the copies are replaced. Nodes that are kept
are older than the copies, and new calls and abstractions are newer. -/
inductive Draft.Holds (lo hi : Nat) (copies : List (Node × Node)) : Draft → Node → Prop
  | keep {m : Node} (h : m.Within lo) : Holds lo hi copies (.keep m) m
  | leaf {a a' : Atom Nat} (h : a.Renewed lo a') (hnew : hi ≤ a'.tag) :
      Holds lo hi copies (.keep (.var a)) (.var a')
  | slot {n m : Node} (h : (n, m) ∈ copies) : Holds lo hi copies (.slot m) n
  | app {f x : Draft} {f' x' : Node} {t : Nat} (ht : hi ≤ t) (hf : Holds lo hi copies f f')
      (hx : Holds lo hi copies x x') : Holds lo hi copies (.app f x) (.app t f' x')
  | abs {b b' : Atom Nat} {d : Draft} {n : Node} {t : Nat} (ht : hi ≤ t)
      (hb : b' = b ∨ b.Renewed lo b') (h : Holds lo hi copies d n) :
      Holds lo hi copies (.abs b d) (.abs t b' n)

/-! ## The nodes in place of their copies -/

namespace Node

variable {lo hi k : Nat} {copies : List (Node × Node)} {m n : Node} {d : Draft}

theorem restore_app {t : Nat} {f x : Node} (h : original? copies (.app t f x) = none) :
    restore copies (.app t f x) k =
      callAgain (.app t f x) f x (restore copies f k).1
        (restore copies x (restore copies f k).2).1 (restore copies x (restore copies f k).2).2 := by
  rw [restore, h]
  rfl

theorem restore_abs {t : Nat} {b : Atom Nat} {body : Node}
    (h : original? copies (.abs t b body) = none) :
    restore copies (.abs t b body) k =
      absAgain (.abs t b body) b body (restore copies body k).1 (restore copies body k).2 := by
  rw [restore, h]
  rfl

/-- Older nodes have no copies in them. -/
theorem restore_within (hc : Copied lo hi copies) (hm : m.Within lo) (k : Nat) :
    restore copies m k = (m, k) := by
  have hroot := hc.original?_eq_none (.inl hm.root_lt)
  induction m generalizing k with
  | var a => rw [restore, hroot]; rfl
  | app t f x ihf ihx =>
    have hf := ihf hm.2.1 k (hc.original?_eq_none (.inl hm.2.1.root_lt))
    have hx := ihx hm.2.2 k (hc.original?_eq_none (.inl hm.2.2.root_lt))
    rw [restore_app hroot, hf, hx, callAgain_eq (.inl rfl) (.inl rfl), if_pos ⟨rfl, rfl⟩]
  | abs t b body ih =>
    have hbody := ih hm.2.2 k (hc.original?_eq_none (.inl hm.2.2.root_lt))
    rw [restore_abs hroot, hbody, absAgain_eq (.inl rfl), if_pos rfl]

/-- **The last pass makes the draft**, by induction on what the node holds. -/
theorem restore_makes (hc : Copied lo hi copies) (h : d.Holds lo hi copies n) {k : Nat}
    (hn : n.Within k) : Pass (d.Makes lo) k n (restore copies n k) := by
  induction h generalizing k with
  | @keep m hm =>
    rw [restore_within hc hm]
    exact .same hn (.keep m)
  | @leaf a a' ha hnew =>
    have hroot : original? copies (.var a') = none := hc.original?_eq_none (.inr hnew)
    have hrun : restore copies (.var a') k = (.var a', k) := by rw [restore, hroot]; rfl
    rw [hrun]
    exact .same hn (.leaf ha)
  | @slot n m hmem =>
    have hrun : restore copies n k = (m, k) := by
      unfold restore
      rw [hc.original?_eq hmem]
      rfl
    have hold := hc.older _ hmem
    have hlt : m.root < lo := hold.root_lt
    have hle : lo ≤ n.root := (hc.range _ hmem).1
    have hk := hn.root_lt
    rw [hrun]
    exact ⟨.slot m, .inr (by show m.root ≠ n.root; omega), hold.mono (by omega), Nat.le_refl k⟩
  | @app fd xd f x t ht hf hx ihf ihx =>
    have hpf := ihf hn.2.1
    have hpx := ihx (hn.2.2.mono hpf.grows)
    rw [restore_app (hc.original?_eq_none (.inr ht))]
    exact .app hn hpf hpx (.app t) fun u _ hf hx _ => .app u hf hx
  | @abs b b' bodyd body t ht hb hbody ih =>
    rw [restore_abs (hc.original?_eq_none (.inr ht))]
    exact .abs hn (ih hn.2.2) (.abs t hb) fun u _ hbody _ => .abs u hb hbody

end Node

/-! ## Changed or kept -/

/-- What a run with copies gives for an older node that a draft keeps or changes. -/
structure Redone (lo hi : Nat) (copies : List (Node × Node)) (m : Node) (d? : Option Draft)
    (r : Node) : Prop where
  holds : (d?.getD (.keep m)).Holds lo hi copies r
  kept_iff : r = m ↔ d? = none

namespace Redone

variable {lo hi u t : Nat} {copies : List (Node × Node)} {m f x f' x' body body' : Node}
  {d? df? dx? : Option Draft} {d : Draft} {b b' : Atom Nat}

theorem keep (hm : m.Within lo) : Redone lo hi copies m none m := ⟨.keep hm, iff_of_true rfl rfl⟩

theorem change (h : d.Holds lo hi copies f') (hne : f' ≠ m) : Redone lo hi copies m (some d) f' :=
  ⟨h, iff_of_false hne (fun h => nomatch h)⟩

theorem app_same (hm : Node.Within lo (.app t f x)) (hf : Redone lo hi copies f df? f)
    (hx : Redone lo hi copies x dx? x) :
    Redone lo hi copies (.app t f x) (Draft.call? f x df? dx?) (.app t f x) := by
  rw [hf.kept_iff.1 rfl, hx.kept_iff.1 rfl]
  exact .keep hm

theorem app_new (hu : hi ≤ u) (hf : Redone lo hi copies f df? f') (hx : Redone lo hi copies x dx? x')
    (hne : ¬(f' = f ∧ x' = x)) :
    Redone lo hi copies (.app t f x) (Draft.call? f x df? dx?) (.app u f' x') := by
  rw [Draft.call?_eq_some fun h => hne ⟨hf.kept_iff.2 h.1, hx.kept_iff.2 h.2⟩]
  refine .change (.app hu hf.holds hx.holds) fun heq => hne ?_
  cases heq
  exact ⟨rfl, rfl⟩

theorem abs_same (hm : Node.Within lo (.abs t b body)) (h : Redone lo hi copies body d? body) :
    Redone lo hi copies (.abs t b body) (d?.map (.abs b)) (.abs t b body) := by
  rw [h.kept_iff.1 rfl]
  exact .keep hm

theorem abs_new (hu : hi ≤ u) (h : Redone lo hi copies body d? body') (hne : body' ≠ body) :
    Redone lo hi copies (.abs t b body) (d?.map (.abs b)) (.abs u b body') := by
  cases d? with
  | none => exact absurd (h.kept_iff.2 rfl) hne
  | some d =>
    refine .change (.abs hu (.inl rfl) h.holds) fun heq => hne ?_
    cases heq
    rfl

end Redone

/-! ## Renaming around copies -/

namespace Node

variable {lo hi k : Nat} {copies : List (Node × Node)} {m n : Node} {b : Name} {z z' : Atom Nat}

theorem relabelAround_app {copies : List Node} {t : Nat} {f x : Node}
    (h : copies.any (isSame (.app t f x)) = false) :
    relabelAround copies b z (.app t f x) k =
      callAgain (.app t f x) f x (relabelAround copies b z f k).1
        (relabelAround copies b z x (relabelAround copies b z f k).2).1
        (relabelAround copies b z x (relabelAround copies b z f k).2).2 := by
  rw [relabelAround, h]
  rfl

theorem relabelAround_abs {copies : List Node} {t : Nat} {c : Atom Nat} {body : Node}
    (h : copies.any (isSame (.abs t c body)) = false) :
    relabelAround copies b z (.abs t c body) k =
      if c.name = b then (.abs t c body, k)
      else absAgain (.abs t c body) c body (relabelAround copies b z body k).1
        (relabelAround copies b z body k).2 := by
  rw [relabelAround, h]
  by_cases hc : c.name = b
  · simp only [hc, if_true]
    rfl
  · simp only [hc, if_false]
    rfl

section Relabel

variable (hc : Copied lo hi copies) (hz : z.Renewed lo z') (hz' : hi ≤ z'.tag)

include hc hz hz'

/-- In older nodes, which have no copies in them, what is renamed is what the draft says. -/
theorem relabelAround_redone (hm : m.Within lo) (hk : z'.tag < k) :
    Pass (Redone lo hi copies m (m.relabel? b z)) k m
      (relabelAround (copies.map (·.1)) b z' m k) := by
  have hlo := hc.le
  have hany := hc.any_eq_false (.inl hm.root_lt)
  have hmk : m.Within k := hm.mono (by omega)
  induction m generalizing k with
  | var a =>
    rw [relabelAround, hany, relabel?]
    by_cases ha : a.name = b
    · simp only [ha, if_true]
      have hne : z'.tag ≠ a.tag := by
        have := hm.root_lt
        simp only [Term.root] at this
        omega
      exact ⟨.change (.leaf hz hz') fun heq => by cases heq; exact hne rfl, .inr hne, hk,
        Nat.le_refl k⟩
    · simp only [ha, if_false]
      exact .same hmk (.keep hm)
  | app t f x ihf ihx =>
    have hf := ihf hm.2.1 hk (hc.any_eq_false (.inl hm.2.1.root_lt)) hmk.2.1
    have hx := ihx hm.2.2 (Nat.lt_of_lt_of_le hk hf.grows)
      (hc.any_eq_false (.inl hm.2.2.root_lt)) (hmk.2.2.mono hf.grows)
    rw [relabelAround_app hany]
    exact .app hmk hf hx (Redone.app_same hm) fun u hu => Redone.app_new (by omega)
  | abs t c body ih =>
    have hbody := ih hm.2.2 hk (hc.any_eq_false (.inl hm.2.2.root_lt)) hmk.2.2
    rw [relabelAround_abs hany, relabel?]
    split
    next => exact .same hmk (.keep hm)
    next => exact .abs hmk hbody (Redone.abs_same hm) fun u hu => Redone.abs_new (by omega)

/-- **The pass over the body of a renamed binder** does what the draft says, by induction on what the
body holds. -/
theorem relabelAround_holds {d : Draft} (h : d.Holds lo hi copies n) (hn : n.Within z'.tag) {k : Nat}
    (hk : z'.tag < k) :
    Pass ((d.relabel b z).Holds lo hi copies) k n (relabelAround (copies.map (·.1)) b z' n k) := by
  have hnk : n.Within k := hn.mono (Nat.le_of_lt hk)
  induction h generalizing k with
  | @keep m hm =>
    have hr := relabelAround_redone (b := b) hc hz hz' hm hk
    exact ⟨hr.result.holds, hr.same_or_new, hr.within, hr.grows⟩
  | @leaf a a' ha hnew =>
    have hname : a'.name = a.name := ha.name
    have hany : (copies.map (·.1)).any (isSame (.var a')) = false := hc.any_eq_false (.inr hnew)
    rw [relabelAround, hany, Draft.relabel, relabel?, hname]
    by_cases hb : a.name = b
    · simp only [hb, if_true]
      exact ⟨.leaf hz hz', .inr (Nat.ne_of_gt hn), hk, Nat.le_refl k⟩
    · simp only [hb, if_false]
      exact .same hnk (.leaf ha hnew)
  | @slot n m hmem =>
    have hrun : relabelAround (copies.map (·.1)) b z' n k = (n, k) := by
      unfold relabelAround
      rw [Copied.any_eq_true hmem]
      rfl
    rw [hrun]
    exact .same hnk (.slot hmem)
  | @app fd xd f x t ht hf hx ihf ihx =>
    have hpf := ihf hn.2.1 hk hnk.2.1
    have hpx := ihx hn.2.2 (Nat.lt_of_lt_of_le hk hpf.grows) (hnk.2.2.mono hpf.grows)
    rw [relabelAround_app (hc.any_eq_false (.inr ht))]
    exact .app hnk hpf hpx (.app ht) fun u hu hf hx _ => .app (by omega) hf hx
  | @abs c c' bodyd body t ht hb hbody ih =>
    have hname : c'.name = c.name := by
      rcases hb with rfl | hb
      · rfl
      · exact hb.name
    rw [relabelAround_abs (hc.any_eq_false (.inr ht)), Draft.relabel, hname]
    split
    next => exact .same hnk (.abs ht hb hbody)
    next =>
      exact .abs hnk (ih hn.2.2 hk hnk.2.2) (.abs ht hb) fun u hu h _ => .abs (by omega) hb h

end Relabel

end Node

/-! ## Putting copies in -/

/-- Two states with the same names, one with numbers from `lo` on and the other with numbers from
`hi` on still to come. -/
structure Naming.Beside (lo hi : Nat) (s s' : Naming) : Prop where
  used : s'.used = s.used
  names : s'.names = s.names
  ge : lo ≤ s.nodes
  ge' : hi ≤ s'.nodes

theorem Naming.Beside.freshAtom {lo hi : Nat} {s s' : Naming} (h : s.Beside lo hi s') (name : Name) :
    (freshAtom name s).1.Renewed lo (freshAtom name s').1 ∧
      (freshAtom name s).2.Beside lo hi (freshAtom name s').2 := by
  unfold ProofKernel.freshAtom
  rw [h.used, h.names]
  exact ⟨⟨h.ge, rfl, rfl⟩, rfl, rfl, Nat.le_succ_of_le h.ge, Nat.le_succ_of_le h.ge'⟩

namespace Substitution

/-- The names with the copies of their nodes. -/
def Inserts (copies : List (Node × Node)) (σ active : Substitution) : Prop :=
  List.Forall₂ (fun entry copy => copy.1 = entry.1 ∧ (copy.2, entry.2) ∈ copies) σ active

namespace Inserts

variable {copies : List (Node × Node)} {σ active : Substitution}

theorem lookup? (h : Inserts copies σ active) (x : Name) :
    (Scope.lookup? σ x = none ∧ Scope.lookup? active x = none) ∨
      ∃ m n, Scope.lookup? σ x = some m ∧ Scope.lookup? active x = some n ∧ (n, m) ∈ copies := by
  induction h with
  | nil => exact .inl ⟨rfl, rfl⟩
  | @cons entry copy σ active hhead htail ih =>
    obtain ⟨y, m⟩ := entry
    obtain ⟨y', n⟩ := copy
    obtain ⟨rfl, hmem⟩ := hhead
    rw [Scope.lookup?_cons, Scope.lookup?_cons]
    split
    next => exact .inr ⟨m, n, rfl, rfl, hmem⟩
    next => exact ih

theorem filter (h : Inserts copies σ active) (b : Name) :
    Inserts copies (σ.filter fun entry => entry.1 ≠ b) (active.filter fun entry => entry.1 ≠ b) := by
  induction h with
  | nil => exact .nil
  | @cons entry copy σ active hhead htail ih =>
    rw [List.filter_cons, List.filter_cons, hhead.1]
    split
    next => exact .cons hhead ih
    next => exact ih

theorem isEmpty (h : Inserts copies σ active) : active.isEmpty = σ.isEmpty := by
  cases h <;> rfl

theorem cons (h : Inserts copies σ active) (x : Name) (m n : Node) :
    Inserts ((n, m) :: copies) ((x, m) :: σ) ((x, n) :: active) :=
  List.Forall₂.cons ⟨rfl, List.mem_cons_self⟩
    (List.Forall₂.imp (fun _ _ hpair => ⟨hpair.1, List.mem_cons_of_mem _ hpair.2⟩) h)

end Inserts

/-- Without names to replace nothing changes. -/
theorem draft?_nil (captured : List Name) (m : Node) (s : Naming) :
    draft? captured m [] s = (none, s) := by
  induction m generalizing s with
  | var a => rfl
  | app t f x ihf ihx =>
    rw [draft?]
    simp only [bind, StateT.bind, ihf, ihx]
    rfl
  | abs t b body ih => rw [draft?_abs, List.filter_nil, ih]

theorem draft?_app (captured : List Name) (t : Nat) (f x : Node) (σ : Substitution) (s : Naming) :
    draft? captured (.app t f x) σ s =
      (Draft.call? f x (draft? captured f σ s).1
        (draft? captured x σ (draft? captured f σ s).2).1,
       (draft? captured x σ (draft? captured f σ s).2).2) := rfl

theorem insert_app (copies : List Node) (captured : List Name) (t : Nat) (f x : Node)
    (active : Substitution) (s : Naming) :
    insert copies captured (.app t f x) active s =
      let run := insert copies captured f active s
      let run' := insert copies captured x active run.2
      let call := Node.callAgain (.app t f x) f x run.1 run'.1 run'.2.nodes
      (call.1, { run'.2 with nodes := call.2 }) := rfl

theorem insert_abs (copies : List Node) (captured : List Name) (t : Nat) (b : Atom Nat) (body : Node)
    (active : Substitution) (s : Naming) :
    insert copies captured (.abs t b body) active s =
      if (active.filter fun entry => entry.1 ≠ b.name).isEmpty then (.abs t b body, s)
      else
        let run := insert copies captured body (active.filter fun entry => entry.1 ≠ b.name) s
        if run.1.isSame body then (.abs t b body, run.2)
        else if captured.contains b.name then
          let fresh := freshAtom b.name run.2
          let inner := Node.relabelAround copies b.name fresh.1 run.1 fresh.2.nodes
          let abs := Node.newAbs fresh.1 inner.1 inner.2
          (abs.1, { fresh.2 with nodes := abs.2 })
        else
          let abs := Node.newAbs b run.1 run.2.nodes
          (abs.1, { run.2 with nodes := abs.2 }) := by
  rw [insert]
  simp only []
  split
  next => rfl
  next =>
    simp only [bind, StateT.bind]
    generalize insert copies captured body _ s = run
    obtain ⟨body', s'⟩ := run
    by_cases hsame : body'.isSame body = true
    · simp only [hsame, if_true]
      rfl
    · by_cases hcap : captured.contains b.name = true
      · simp only [hsame, hcap, if_true]
        rfl
      · simp only [hsame, hcap]
        rfl

section Insert

variable {lo hi : Nat} {copies : List (Node × Node)} {m : Node} {σ active : Substitution}
  {s s' : Naming}

/-- **The pass that puts copies in** keeps and changes what the draft keeps and changes, and draws
the same names. -/
theorem insert_redone (captured : List Name) (hc : Copied lo hi copies) (hm : m.Within lo)
    (hσ : Inserts copies σ active) (h : s.Beside lo hi s') :
    Node.Pass (Redone lo hi copies m (draft? captured m σ s).1) s'.nodes m
        ((insert (copies.map (·.1)) captured m active s').1,
          (insert (copies.map (·.1)) captured m active s').2.nodes) ∧
      (draft? captured m σ s).2.Beside lo hi (insert (copies.map (·.1)) captured m active s').2 := by
  have hle := hc.le
  induction m generalizing σ active s s' with
  | var a =>
    have hge := h.ge'
    refine ⟨?_, h⟩
    show Node.Pass (Redone lo hi copies (.var a) ((Scope.lookup? σ a.name).map .slot)) s'.nodes (.var a)
      ((Scope.lookup? active a.name).getD (.var a), s'.nodes)
    rcases hσ.lookup? a.name with ⟨hnone, hnone'⟩ | ⟨m, n, hsome, hsome', hmem⟩
    · rw [hnone, hnone']
      exact .same (hm.mono (by omega)) (.keep hm)
    · rw [hsome, hsome']
      obtain ⟨hroot, hw⟩ := hc.range _ hmem
      have hlt := hm.root_lt
      have hne : n.root ≠ Term.root (.var a) := by
        simp only at hroot
        omega
      exact ⟨.change (.slot hmem) fun heq => hne (heq ▸ rfl), .inr hne, hw.mono hge, Nat.le_refl _⟩
  | app t f x ihf ihx =>
    have hge := h.ge'
    obtain ⟨hf, hs⟩ := ihf hm.2.1 hσ h
    obtain ⟨hx, hs'⟩ := ihx hm.2.2 hσ hs
    have hcall := Node.Pass.app (hm.mono (by omega)) hf hx (Redone.app_same hm)
      fun u hu => Redone.app_new (by omega)
    rw [draft?_app, insert_app]
    exact ⟨hcall, hs'.used, hs'.names, hs'.ge, Nat.le_trans hge hcall.grows⟩
  | abs t b body ih =>
    have hge := h.ge'
    have hmk : Node.Within s'.nodes (.abs t b body) := hm.mono (by omega)
    have hunder := hσ.filter b.name
    rw [draft?_abs, insert_abs, hunder.isEmpty]
    by_cases hempty : (σ.filter fun entry => entry.1 ≠ b.name) = []
    · rw [if_pos (by rw [hempty]; rfl), hempty, draft?_nil]
      exact ⟨.same hmk (.keep hm), h⟩
    rw [if_neg (by simpa [List.isEmpty_iff] using hempty)]
    obtain ⟨hbody, hs⟩ := ih hm.2.2 hunder h
    have hsame := Node.isSame_iff hbody.same_or_new
    generalize draft? captured body _ s = run at *
    generalize insert (copies.map (·.1)) captured body _ s' = run' at *
    obtain ⟨d?, sd⟩ := run
    obtain ⟨body', si⟩ := run'
    have hgrows : s'.nodes ≤ si.nodes := hbody.grows
    have hge' : hi ≤ si.nodes := hs.ge'
    cases d? with
    | none =>
      rw [if_pos (hsame.2 (hbody.result.kept_iff.2 rfl))]
      exact ⟨⟨.keep hm, .inl rfl, hmk.mono hgrows, hgrows⟩, hs⟩
    | some d =>
      have hne : body' ≠ body := fun heq => nomatch hbody.result.kept_iff.1 heq
      -- a new abstraction has another number
      have hdiffer {b' : Atom Nat} {body'' : Node} {u : Nat} (hu : hi ≤ u) :
          (Term.abs u b' body'' : Node) ≠ .abs t b body := by
        rintro heq
        cases heq
        have := hm.1
        omega
      rw [if_neg fun e => hne (hsame.1 e)]
      by_cases hcap : captured.contains b.name = true
      · obtain ⟨hfresh, hs'⟩ := hs.freshAtom b.name
        have hheld := Node.relabelAround_holds (b := b.name) hc hfresh hge' hbody.result.holds
          hbody.within (Nat.lt_succ_self si.nodes)
        have hg := hheld.grows
        simp only [hcap, if_true]
        have habs := Node.Pass.newAbs hmk (by omega) (Nat.lt_of_succ_le hg) hheld.within
          (Redone.change (.abs (by omega) (.inr hfresh) hheld.result) (hdiffer (by omega)))
        exact ⟨habs, hs'.used, hs'.names, hs'.ge, Nat.le_trans hge habs.grows⟩
      · simp only [hcap]
        have habs := Node.Pass.newAbs hmk hgrows (Nat.lt_of_lt_of_le hmk.2.1 hgrows) hbody.within
          (Redone.change (.abs hge' (.inl rfl) hbody.result.holds) (hdiffer hge'))
        exact ⟨habs, hs.used, hs.names, hs.ge, Nat.le_trans hge habs.grows⟩

end Insert

/-! ## The three passes together -/

/-- The copies of the nodes that are put in, each with its node. -/
theorem dupAll_spec (σ : Substitution) {k : Nat} (hσ : ∀ entry ∈ σ, entry.2.Within k) :
    Copied k (dupAll σ k).2 (((dupAll σ k).1.map (·.2)).zip (σ.map (·.2))) ∧
      Inserts (((dupAll σ k).1.map (·.2)).zip (σ.map (·.2))) σ (dupAll σ k).1 := by
  induction σ generalizing k with
  | nil => exact ⟨⟨Nat.le_refl k, nofun, nofun, nofun⟩, .nil⟩
  | cons entry σ ih =>
    obtain ⟨x, m⟩ := entry
    have hm : m.Within k := hσ _ List.mem_cons_self
    have hrest : ∀ entry ∈ σ, entry.2.Within k := fun e he => hσ e (List.mem_cons_of_mem _ he)
    have hroot : (m.dup k).1.root = k := Term.root_dup m k
    have hnext : (m.dup k).2 = k + 1 := by cases m <;> rfl
    have hrun : dupAll ((x, m) :: σ) k =
        ((x, (m.dup k).1) :: (dupAll σ (k + 1)).1, (dupAll σ (k + 1)).2) := by
      rw [← hnext]
      rfl
    obtain ⟨hc, hi⟩ := ih (k := k + 1) fun e he => (hrest e he).mono (Nat.le_succ k)
    rw [hrun]
    simp only [List.map_cons, List.zip_cons_cons]
    refine ⟨⟨Nat.le_of_succ_le hc.le, ?_, ?_, ?_⟩, hi.cons x m (m.dup k).1⟩
    · rintro pair hpair
      rcases List.mem_cons.1 hpair with rfl | hpair
      · exact ⟨Nat.le_of_eq hroot.symm, (Node.dup_within hm (Nat.le_refl k)).mono hc.le⟩
      · exact ⟨Nat.le_of_succ_le (hc.range pair hpair).1, (hc.range pair hpair).2⟩
    · rintro pair hpair
      rcases List.mem_cons.1 hpair with rfl | hpair
      · exact hm
      · obtain ⟨entry, hentry, heq⟩ := List.mem_map.1 (List.of_mem_zip hpair).2
        exact heq ▸ hrest entry hentry
    · -- the first copy has the smallest number
      rintro pair hpair pair' hpair' heq
      rcases List.mem_cons.1 hpair with rfl | hpair <;> rcases List.mem_cons.1 hpair' with rfl | hpair'
      · rfl
      · have hlt := (hc.range pair' hpair').1
        rw [← heq, hroot] at hlt
        omega
      · have hlt := (hc.range pair hpair).1
        rw [heq, hroot] at hlt
        omega
      · exact hc.unique pair hpair pair' hpair' heq

/-- The names that a substitution replaces by something else, with their nodes. -/
def active (σ : Substitution) : Substitution := σ.filter fun entry => !isIdle entry

/-- The draft of a substitution, and the state after it. -/
def drafted (σ : Substitution) (names : NameSupply) (target : Node) (nodes : Nat) :
    Option Draft × Naming :=
  draft? σ.active.freeNames target σ.active ⟨target.allNames ++ σ.active.allNames, names, nodes⟩

/-- A node and a name supply that come of a substitution: the node is made of the draft, with new
nodes that are not in the target, and the very target if the draft has no changes; and the supply is
what the draft has left. -/
structure Results (σ : Substitution) (names : NameSupply) (target : Node) (nodes : Nat)
    (r : Node × NameSupply) : Prop where
  makes : ∃ lo, target.Within lo ∧
    ((σ.drafted names target nodes).1.getD (.keep target)).Makes lo r.1
  kept : (σ.drafted names target nodes).1 = none → r.1 = target
  names : r.2 = (σ.drafted names target nodes).2.names

variable (σ : Substitution) (names : NameSupply) (target : Node) (nodes : Nat)

theorem apply_results : σ.Results names target nodes (σ.apply names target nodes).1 := by
  refine ⟨?_, fun hnone => ?_, rfl⟩
  · obtain ⟨lo, hlo⟩ := target.exists_within
    refine ⟨lo, hlo, ?_⟩
    show Draft.Makes lo _ (Draft.buildOr target (σ.drafted names target nodes).1 _).1
    rw [Draft.buildOr_eq]
    exact Draft.build_makes ..
  · show (Draft.buildOr target (σ.drafted names target nodes).1 _).1 = target
    rw [hnone]
    rfl

variable {σ target nodes}

/-- **Nodes that are compared by number suffice**: the substitution with copies makes the draft of the
substitution, on nodes whose numbers have been given out. -/
theorem applyWithCopies_results (hσ : ∀ entry ∈ σ, entry.2.Within nodes)
    (ht : target.Within nodes) :
    σ.Results names target nodes (σ.applyWithCopies names target nodes).1 := by
  by_cases hempty : σ.active = []
  · have hrun : σ.applyWithCopies names target nodes = ((target, names), nodes) := by
      unfold applyWithCopies
      rw [← active, hempty]
      rfl
    have hdraft : σ.drafted names target nodes =
        (none, ⟨target.allNames ++ σ.active.allNames, names, nodes⟩) := by
      rw [drafted, hempty, draft?_nil]
    rw [hrun]
    exact ⟨⟨nodes, ht, by rw [hdraft]; exact .keep target⟩, fun _ => rfl, by rw [hdraft]⟩
  · obtain ⟨hc, hi⟩ := dupAll_spec σ.active (k := nodes)
      fun entry hentry => hσ entry (List.mem_of_mem_filter hentry)
    have hrun : σ.applyWithCopies names target nodes =
        let dup := dupAll σ.active nodes
        let run := insert (dup.1.map (·.2)) σ.active.freeNames target dup.1
          ⟨target.allNames ++ σ.active.allNames, names, dup.2⟩
        let last := Node.restore ((dup.1.map (·.2)).zip (σ.active.map (·.2))) run.1 run.2.nodes
        ((last.1, run.2.names), last.2) := by
      unfold applyWithCopies
      rw [← active, if_neg (by simpa [List.isEmpty_iff] using hempty)]
      rfl
    have hfst : (((dupAll σ.active nodes).1.map (·.2)).zip (σ.active.map (·.2))).map (·.1) =
        (dupAll σ.active nodes).1.map (·.2) := by
      have hlen := List.Forall₂.length_eq hi
      exact List.map_fst_zip (by simp only [List.length_map]; omega)
    have hstart : Naming.Beside nodes (dupAll σ.active nodes).2
        ⟨target.allNames ++ σ.active.allNames, names, nodes⟩
        ⟨target.allNames ++ σ.active.allNames, names, (dupAll σ.active nodes).2⟩ :=
      ⟨rfl, rfl, Nat.le_refl _, Nat.le_refl _⟩
    obtain ⟨hredone, hbeside⟩ := insert_redone σ.active.freeNames hc ht hi hstart
    rw [hfst] at hredone hbeside
    rw [hrun]
    refine ⟨⟨nodes, ht, (Node.restore_makes hc hredone.result.holds hredone.within).result⟩,
      fun hnone => ?_, hbeside.names⟩
    have hkept := hredone.result.kept_iff.2 hnone
    simp only at hkept ⊢
    rw [hkept, Node.restore_within hc ht]

/-- The two ways to substitute give the same term and leave the same names. -/
theorem applyWithCopies_plain (hσ : ∀ entry ∈ σ, entry.2.Within nodes) (ht : target.Within nodes) :
    (σ.applyWithCopies names target nodes).1.1.plain = (σ.apply names target nodes).1.1.plain ∧
      (σ.applyWithCopies names target nodes).1.2 = (σ.apply names target nodes).1.2 := by
  have h := applyWithCopies_results names hσ ht
  have h' := apply_results σ names target nodes
  obtain ⟨_, -, hm⟩ := h.makes
  obtain ⟨_, -, hm'⟩ := h'.makes
  exact ⟨hm.plain_eq hm', h.names.trans h'.names.symm⟩

end Substitution

end ProofKernel
