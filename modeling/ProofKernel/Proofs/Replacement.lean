import ProofKernel.Proofs.Sessions
import ProofKernel.Proofs.Sharing
import ProofKernel.Proofs.Tags
import ProofKernel.Replacement

/-!
# Replacing parts

A replacement at a path gives back nodes of the term wherever it can. What comes of it has the other
part at the path and else the parts of the term, as the very same nodes.

* `Path.Parts`, `Path.EndsAtBinder`: paths that part, and paths that end at a binder;
* `Term.Replaced`: a term with another part at a path;
* `Term.Replaced.beside`, `Term.Replaced.again`: off the path nothing changes, and the second of two
  parts put at a path counts;
* `Node.replaceAt_cases`: how a replacement ends;
* `Node.replaceWith_walked`: the walk on nodes compared by number makes what a replacement drafts;
* `Node.replacements_lawful`: the laws of both.
-/

namespace ProofKernel

/-! ## Paths -/

/-- The error without the text of the term that it names. -/
def AddressError.untold : AddressError → AddressError
  | .unknownSegment word => .unknownSegment word
  | .mismatch segment _ => .mismatch segment ""
  | .notAVariable _ => .notAVariable ""

namespace Path

variable {p q : Path} {s : Segment}

/-- The two paths go on differently after a common beginning: none of them begins with the other. -/
def Parts (p q : Path) : Prop := ¬p <+: q ∧ ¬q <+: p

instance (p q : Path) : Decidable (p.Parts q) := inferInstanceAs (Decidable (_ ∧ _))

theorem not_nil_parts (q : Path) : ¬Parts [] q := fun h => h.1 List.nil_prefix

theorem not_parts_nil (p : Path) : ¬Parts p [] := fun h => h.2 List.nil_prefix

theorem parts_of_cons (h : Parts (s :: p) (s :: q)) : p.Parts q := by
  simpa [Parts, List.cons_prefix_cons] using h

/-- The path ends at a binder. -/
def EndsAtBinder (p : Path) : Prop := p.getLast? = some .bound

theorem not_endsAtBinder_nil : ¬EndsAtBinder [] := by simp [EndsAtBinder]

theorem endsAtBinder_cons (hs : s ≠ .bound) : EndsAtBinder (s :: p) ↔ p.EndsAtBinder := by
  cases p with
  | nil => simpa [EndsAtBinder] using hs
  | cons t p => simp [EndsAtBinder]

end Path

/-! ## Another part at a path -/

namespace Term

variable {ι : Type} {m r r' n v w : Term ι} {p q : Path}

/-- The term cannot take the place of what is at the path: a binder is no other term than a leaf. -/
def RefusedAt (p : Path) (v : Term ι) : Prop := p.EndsAtBinder ∧ ∀ a, v ≠ .var a

theorem not_refusedAt : ¬RefusedAt p v ↔ (p.EndsAtBinder → ∃ a, v = .var a) := by
  simp [RefusedAt]

/-- At a path that ends at a binder there is a leaf. -/
theorem exists_var_of_endsAtBinder (h : m.locate p = .ok n) (hp : p.EndsAtBinder) :
    ∃ a, n = .var a := by
  induction m generalizing p with
  | var a =>
    obtain ⟨rfl, -⟩ := locate_var h
    exact absurd hp Path.not_endsAtBinder_nil
  | app t f x ihf ihx =>
    rcases locate_app h with ⟨rfl, -⟩ | ⟨q, rfl, hq⟩ | ⟨q, rfl, hq⟩
    · exact absurd hp Path.not_endsAtBinder_nil
    · exact ihf hq ((Path.endsAtBinder_cons (by decide)).1 hp)
    · exact ihx hq ((Path.endsAtBinder_cons (by decide)).1 hp)
  | abs t b body ih =>
    rcases locate_abs h with ⟨rfl, -⟩ | ⟨rfl, rfl⟩ | ⟨q, rfl, hq⟩
    · exact absurd hp Path.not_endsAtBinder_nil
    · exact ⟨b, rfl⟩
    · exact ih hq ((Path.endsAtBinder_cons (by decide)).1 hp)

/-- **A term with `v` at a path.** The nodes on the way there may be other ones, all others are the
same. At a binder there is a leaf. -/
inductive Replaced (v : Term ι) : Path → Term ι → Term ι → Prop
  | here (m : Term ι) : Replaced v [] m v
  | fn {p : Path} {f f' : Term ι} (t t' : ι) (x : Term ι) (h : Replaced v p f f') :
      Replaced v (.fn :: p) (.app t f x) (.app t' f' x)
  | arg {p : Path} {x x' : Term ι} (t t' : ι) (f : Term ι) (h : Replaced v p x x') :
      Replaced v (.arg :: p) (.app t f x) (.app t' f x')
  | bound {c : Atom ι} (t t' : ι) (b : Atom ι) (body : Term ι) (h : v = .var c) :
      Replaced v [.bound] (.abs t b body) (.abs t' c body)
  | body {p : Path} {body body' : Term ι} (t t' : ι) (b : Atom ι) (h : Replaced v p body body') :
      Replaced v (.body :: p) (.abs t b body) (.abs t' b body')

/-- The two terms are the same but for the nodes on the way to the part at a path. -/
structure SameBut (p : Path) (r r' : Term ι) : Prop where
  plain : r.plain = r'.plain
  part : r.locate p = r'.locate p
  beside : ∀ q, p.Parts q → r.locate q = r'.locate q

/-- The same error, or terms that are the same but for the way to the part at a path. -/
inductive SameOutcome (p : Path) :
    Except AddressError (Term ι) → Except AddressError (Term ι) → Prop
  | failed (e : AddressError) : SameOutcome p (.error e) (.error e)
  | made {r r' : Term ι} (h : SameBut p r r') : SameOutcome p (.ok r) (.ok r')

namespace Replaced

theorem locate (h : Replaced v p m r) : r.locate p = .ok v := by
  induction h with
  | here m => rfl
  | fn t t' x h ih => exact ih
  | arg t t' f h ih => exact ih
  | bound t t' b body h => rw [h]; rfl
  | body t t' b h ih => exact ih

/-- A term has its own part at a path. -/
theorem self (h : m.locate p = .ok n) : Replaced n p m m := by
  induction m generalizing p with
  | var a =>
    obtain ⟨rfl, rfl⟩ := locate_var h
    exact .here _
  | app t f x ihf ihx =>
    rcases locate_app h with ⟨rfl, rfl⟩ | ⟨q, rfl, hq⟩ | ⟨q, rfl, hq⟩
    · exact .here _
    · exact .fn t t x (ihf hq)
    · exact .arg t t f (ihx hq)
  | abs t b body ih =>
    rcases locate_abs h with ⟨rfl, rfl⟩ | ⟨rfl, rfl⟩ | ⟨q, rfl, hq⟩
    · exact .here _
    · exact .bound t t b body rfl
    · exact .body t t b (ih hq)

/-- **Off the path nothing changes**: a path that parts from it leads to the same part, or nowhere for
the same reason, which may be told by the text of a changed term. -/
theorem beside (h : Replaced v p m r) (hq : p.Parts q) :
    (r.locate q).mapError AddressError.untold = (m.locate q).mapError AddressError.untold := by
  induction h generalizing q with
  | here m => exact absurd hq (Path.not_nil_parts q)
  | fn t t' x h ih =>
    cases q with
    | nil => exact absurd hq (Path.not_parts_nil _)
    | cons s q =>
      cases s with
      | fn => exact ih (Path.parts_of_cons hq)
      | _ => rfl
  | arg t t' f h ih =>
    cases q with
    | nil => exact absurd hq (Path.not_parts_nil _)
    | cons s q =>
      cases s with
      | arg => exact ih (Path.parts_of_cons hq)
      | _ => rfl
  | bound t t' b body h =>
    cases q with
    | nil => exact absurd hq (Path.not_parts_nil _)
    | cons s q =>
      cases s with
      | bound => exact absurd (Path.parts_of_cons hq) (Path.not_nil_parts q)
      | _ => rfl
  | body t t' b h ih =>
    cases q with
    | nil => exact absurd hq (Path.not_parts_nil _)
    | cons s q =>
      cases s with
      | body => exact ih (Path.parts_of_cons hq)
      | _ => rfl

/-- The second of two replacements at a path is what counts. -/
theorem again (h : Replaced v p m r) (h' : Replaced w p r r') : Replaced w p m r' := by
  induction h generalizing r' with
  | here m => cases h'; exact .here m
  | fn t t' x h ih => cases h' with | fn _ t'' _ h' => exact .fn t t'' x (ih h')
  | arg t t' f h ih => cases h' with | arg _ t'' _ h' => exact .arg t t'' f (ih h')
  | bound t t' b body h => cases h' with | bound _ t'' _ _ h' => exact .bound t t'' b body h'
  | body t t' b h ih => cases h' with | body _ t'' _ h' => exact .body t t'' b (ih h')

theorem plain_eq (h : Replaced v p m r) (h' : Replaced v p m r') : r.plain = r'.plain := by
  induction h generalizing r' with
  | here m => cases h'; rfl
  | fn t t' x h ih => cases h' with | fn _ t'' _ h' => rw [plain, ih h', plain]
  | arg t t' f h ih => cases h' with | arg _ t'' _ h' => rw [plain, ih h', plain]
  | bound t t' b body h =>
    cases h' with
    | bound _ t'' _ _ h' =>
      cases h.symm.trans h'
      rfl
  | body t t' b h ih => cases h' with | body _ t'' _ h' => rw [plain, ih h', plain]

/-- **What has the same part at a path is the same but for the way there.** Texts do not show numbers
of nodes, so that errors are the same as well. -/
theorem sameBut (h : Replaced v p m r) (h' : Replaced v p m r') : r.SameBut p r' := by
  have hplain := h.plain_eq h'
  refine ⟨hplain, h.locate.trans h'.locate.symm, fun q hq => ?_⟩
  have htold := (h.beside hq).trans (h'.beside hq).symm
  have hplain' : (r.locate q).map plain = (r'.locate q).map plain := by
    rw [← locate_plain, hplain, locate_plain]
  cases hr : r.locate q with
  | ok n =>
    rw [hr] at htold
    cases hr' : r'.locate q with
    | ok n' =>
      rw [hr'] at htold
      exact congrArg Except.ok (Except.ok.inj htold)
    | error e =>
      rw [hr'] at htold
      cases htold
  | error e =>
    rw [hr] at hplain'
    cases hr' : r'.locate q with
    | ok n' =>
      rw [hr'] at hplain'
      cases hplain'
    | error e' =>
      rw [hr'] at hplain'
      exact congrArg Except.error (Except.error.inj hplain')

end Replaced

end Term

/-! ## What a replacement drafts -/

namespace Node

variable {f : Node → Node} {m n v : Node} {p : Path} {e : AddressError} {k : Nat}

theorem replaceDraft?_error (h : m.locate p = .error e) : replaceDraft? f m p = .error e := by
  induction p generalizing m with
  | nil => cases h
  | cons s p ih =>
    cases m with
    | var a => cases s <;> cases h <;> rfl
    | app t g x =>
      cases s with
      | fn =>
        have hg : replaceDraft? f g p = .error e := ih h
        rw [replaceDraft?, hg]
        rfl
      | arg =>
        have hx : replaceDraft? f x p = .error e := ih h
        rw [replaceDraft?, hx]
        rfl
      | _ => cases h; rfl
    | abs t b body =>
      cases s with
      | body =>
        have hbody : replaceDraft? f body p = .error e := ih h
        rw [replaceDraft?, hbody]
        rfl
      | bound =>
        have hb : (Term.var b).locate p = .error e := h
        rw [replaceDraft?, hb]
        rfl
      | _ => cases h; rfl

theorem replaceDraft?_bound {t : Nat} {b : Atom Nat} {body : Node} :
    replaceDraft? f (.abs t b body) [.bound] =
      if f (.var b) = .var b then .ok none
      else match f (.var b) with
        | .var c => .ok (some (.abs c (.keep body)))
        | other => .error (.notAVariable other.dump) := rfl

/-- Only a leaf takes the place of a binder. -/
theorem replaceDraft?_refused (h : m.locate p = .ok n) (hrefused : (f n).RefusedAt p) :
    replaceDraft? f m p = .error (.notAVariable (f n).dump) := by
  obtain ⟨hp, hv⟩ := hrefused
  induction m generalizing p with
  | var a =>
    obtain ⟨rfl, -⟩ := Term.locate_var h
    exact absurd hp Path.not_endsAtBinder_nil
  | app t g x ihg ihx =>
    rcases Term.locate_app h with ⟨rfl, -⟩ | ⟨q, rfl, hq⟩ | ⟨q, rfl, hq⟩
    · exact absurd hp Path.not_endsAtBinder_nil
    · rw [replaceDraft?, ihg hq ((Path.endsAtBinder_cons (by decide)).1 hp)]
      rfl
    · rw [replaceDraft?, ihx hq ((Path.endsAtBinder_cons (by decide)).1 hp)]
      rfl
  | abs t b body ih =>
    rcases Term.locate_abs h with ⟨rfl, -⟩ | ⟨rfl, rfl⟩ | ⟨q, rfl, hq⟩
    · exact absurd hp Path.not_endsAtBinder_nil
    · rw [replaceDraft?_bound, if_neg (hv b)]
      cases hfb : f (.var b) with
      | var a => exact absurd hfb (hv a)
      | app t g x => rfl
      | abs t c body => rfl
    · rw [replaceDraft?, ih hq ((Path.endsAtBinder_cons (by decide)).1 hp)]
      rfl

theorem replaceDraft?_nil (f : Node → Node) (m : Node) :
    ∃ d?, replaceDraft? f m [] = .ok d? ∧ (d? = none ↔ f m = m) ∧
      ∀ k, Term.Replaced (f m) [] m (Draft.buildOr m d? k).1 := by
  refine ⟨if f m = m then none else some (.slot (f m)), by rw [replaceDraft?], ?_, fun k => ?_⟩
  · by_cases hm : f m = m <;> simp [hm]
  · by_cases hm : f m = m
    · rw [if_pos hm]
      exact .self (congrArg Except.ok hm.symm)
    · rw [if_neg hm]
      exact .here m

/-- **What a replacement drafts**: nothing if the part takes its own place, and else the term with
the other part. -/
theorem replaceDraft?_ok (h : m.locate p = .ok n) (hmade : ¬(f n).RefusedAt p) :
    ∃ d?, replaceDraft? f m p = .ok d? ∧ (d? = none ↔ f n = n) ∧
      ∀ k, Term.Replaced (f n) p m (Draft.buildOr m d? k).1 := by
  -- where the path ends is the same for its rest, and that is all that is needed of `hmade`
  have hv := Term.not_refusedAt.1 hmade
  clear hmade
  induction m generalizing p with
  | var a =>
    obtain ⟨rfl, rfl⟩ := Term.locate_var h
    exact replaceDraft?_nil f _
  | app t g x ihg ihx =>
    rcases Term.locate_app h with ⟨rfl, rfl⟩ | ⟨q, rfl, hq⟩ | ⟨q, rfl, hq⟩
    · exact replaceDraft?_nil f _
    · obtain ⟨d?, hdraft, hnone, hreplaced⟩ :=
        ihg hq fun hend => hv ((Path.endsAtBinder_cons (by decide)).2 hend)
      refine ⟨Draft.call? g x d? none, by rw [replaceDraft?, hdraft]; rfl, ?_, fun k => ?_⟩
      · rw [← hnone]
        cases d? <;> simp [Draft.call?]
      · cases d? with
        | none => exact .fn t t x (hreplaced k)
        | some d => exact .fn t _ x (hreplaced k)
    · obtain ⟨d?, hdraft, hnone, hreplaced⟩ :=
        ihx hq fun hend => hv ((Path.endsAtBinder_cons (by decide)).2 hend)
      refine ⟨Draft.call? g x none d?, by rw [replaceDraft?, hdraft]; rfl, ?_, fun k => ?_⟩
      · rw [← hnone]
        cases d? <;> simp [Draft.call?]
      · cases d? with
        | none => exact .arg t t g (hreplaced k)
        | some d => exact .arg t _ g (hreplaced k)
  | abs t b body ih =>
    rcases Term.locate_abs h with ⟨rfl, rfl⟩ | ⟨rfl, rfl⟩ | ⟨q, rfl, hq⟩
    · exact replaceDraft?_nil f _
    · obtain ⟨c, hc⟩ := hv rfl
      rw [replaceDraft?_bound, hc]
      by_cases hcb : Term.var c = .var b
      · cases hcb
        exact ⟨none, if_pos rfl, by simp, fun k => .bound t t b body rfl⟩
      · exact ⟨some (.abs c (.keep body)), if_neg hcb, by simp [hcb], fun k => .bound t _ b body rfl⟩
    · obtain ⟨d?, hdraft, hnone, hreplaced⟩ :=
        ih hq fun hend => hv ((Path.endsAtBinder_cons (by decide)).2 hend)
      refine ⟨d?.map (.abs b), by rw [replaceDraft?, hdraft]; rfl, ?_, fun k => ?_⟩
      · rw [← hnone]
        cases d? <;> simp
      · cases d? with
        | none => exact .body t t b (hreplaced k)
        | some d => exact .body t _ b (hreplaced k)

/-! ## How a replacement ends -/

variable {r : Node} {d? : Option Draft}

theorem replaceAt_of_ok (h : replaceDraft? f m p = .ok d?) (k : Nat) :
    (m.replaceAt f p).run k = (.ok (Draft.buildOr m d? k).1, (Draft.buildOr m d? k).2) := by
  unfold replaceAt
  rw [ExceptT.run, h]
  rfl

theorem replaceAt_of_error (h : replaceDraft? f m p = .error e) (k : Nat) :
    (m.replaceAt f p).run k = (.error e, k) := by
  unfold replaceAt
  rw [ExceptT.run, h]

/-- **How a replacement ends**: there is no part, no leaf takes the place of a binder, or there is a
draft of the term with the other part. -/
theorem replaceAt_cases (f : Node → Node) (m : Node) (p : Path) (k : Nat) :
    (∃ e, m.locate p = .error e ∧ (m.replaceAt f p).run k = (.error e, k)) ∨
      (∃ n, m.locate p = .ok n ∧ (f n).RefusedAt p ∧
        (m.replaceAt f p).run k = (.error (.notAVariable (f n).dump), k)) ∨
      ∃ n r l, m.locate p = .ok n ∧ ¬(f n).RefusedAt p ∧
        (m.replaceAt f p).run k = (.ok r, l) ∧ Term.Replaced (f n) p m r ∧ (f n = n → r = m) := by
  cases hp : m.locate p with
  | error e => exact .inl ⟨e, rfl, replaceAt_of_error (replaceDraft?_error hp) k⟩
  | ok n =>
    by_cases hrefused : (f n).RefusedAt p
    · exact .inr (.inl ⟨n, rfl, hrefused, replaceAt_of_error (replaceDraft?_refused hp hrefused) k⟩)
    · obtain ⟨d?, hdraft, hnone, hreplaced⟩ := replaceDraft?_ok hp hrefused
      refine .inr (.inr ⟨n, _, _, rfl, hrefused, replaceAt_of_ok hdraft k, hreplaced k, fun hn => ?_⟩)
      rw [hnone.2 hn]
      rfl

/-- **The laws of a replacement** of the part of `m` at a path by what `f` makes of it. -/
structure Lawful (f : Node → Node) (m : Node) (p : Path) (outcome : Except AddressError Node) :
    Prop where
  /-- It fails where there is no part, and where a binder would become a call or an abstraction. -/
  error_iff : ∀ e, outcome = .error e ↔ m.locate p = .error e ∨
    ∃ n, m.locate p = .ok n ∧ (f n).RefusedAt p ∧ e = .notAVariable (f n).dump
  /-- A part that takes its own place. -/
  self : ∀ n, m.locate p = .ok n → f n = n → outcome = .ok m
  /-- What is at the path is the very node that `f` gives. -/
  part : ∀ r, outcome = .ok r → ∃ n, m.locate p = .ok n ∧ r.locate p = .ok (f n)
  /-- What is at another path is the very same node, or missing for the same reason. -/
  beside : ∀ r, outcome = .ok r → ∀ q, p.Parts q →
    (r.locate q).mapError AddressError.untold = (m.locate q).mapError AddressError.untold

theorem replaceAt_laws (f : Node → Node) (m : Node) (p : Path) (k : Nat) :
    Lawful f m p ((m.replaceAt f p).run k).1 := by
  rcases replaceAt_cases f m p k with ⟨e, hp, hrun⟩ | ⟨n, hp, hrefused, hrun⟩ |
    ⟨n, r, l, hp, hmade, hrun, hreplaced, hself⟩
  all_goals rw [hrun]
  · refine ⟨fun e' => ?_, fun n hn => ?_, fun r hr => ?_, fun r hr => ?_⟩
    · simp [hp]
    · cases hp.symm.trans hn
    · cases hr
    · cases hr
  · refine ⟨fun e' => ?_, fun n' hn hself => ?_, fun r hr => ?_, fun r hr => ?_⟩
    · simp [hp, hrefused, eq_comm]
    · cases hp.symm.trans hn
      obtain ⟨a, ha⟩ := Term.exists_var_of_endsAtBinder hp hrefused.1
      exact absurd (hself.trans ha) (hrefused.2 a)
    · cases hr
    · cases hr
  · refine ⟨fun e' => ?_, fun n' hn hn' => ?_, fun r' hr => ?_, fun r' hr q hq => ?_⟩
    · simp [hp, hmade]
    · cases hp.symm.trans hn
      rw [hself hn']
    · cases hr
      exact ⟨n, hp, hreplaced.locate⟩
    · cases hr
      exact hreplaced.beside hq

/-- What a replacement gives has the other part at the path. -/
theorem replaceAt_replaced {k : Nat} (h : ((m.replaceAt f p).run k).1 = .ok r) :
    ∃ n, m.locate p = .ok n ∧ Term.Replaced (f n) p m r := by
  rcases replaceAt_cases f m p k with ⟨e, -, hrun⟩ | ⟨n, -, -, hrun⟩ |
    ⟨n, r', l, hp, -, hrun, hreplaced, -⟩
  all_goals
    rw [hrun] at h
    cases h
  exact ⟨n, hp, hreplaced⟩

/-- The second of two replacements at a path counts. -/
theorem replaceAt_replaceAt {g f' : Node → Node} (hp : m.locate p = .ok n)
    (hr : Term.Replaced (f n) p m r) (hf' : f' n = g (f n)) (k l : Nat) :
    Term.SameOutcome p ((r.replaceAt g p).run k).1 ((m.replaceAt f' p).run l).1 := by
  rcases replaceAt_cases f' m p l with ⟨e, hp', -⟩ | ⟨n', hp', hrefused, hrun⟩ |
    ⟨n', r', l', hp', hmade, hrun, hr', -⟩
  · cases hp.symm.trans hp'
  · cases hp.symm.trans hp'
    rw [hf'] at hrefused hrun
    rw [hrun, replaceAt_of_error (replaceDraft?_refused hr.locate hrefused)]
    exact .failed _
  · cases hp.symm.trans hp'
    rw [hf'] at hmade hr'
    obtain ⟨d?, hdraft, -, hagain⟩ := replaceDraft?_ok hr.locate hmade
    rw [hrun, replaceAt_of_ok hdraft]
    exact .made ((hr.again (hagain k)).sameBut hr')

/-! ## The walk on nodes compared by number -/

section Walk

open Session (run_bind_ok run_bind_error)

variable {h : Node → Build Node} {l : Nat}

theorem replaceWith_error (hp : m.locate p = .error e) (k : Nat) :
    (m.replaceWith h p).run k = (.error e, k) := by
  induction p generalizing m with
  | nil => cases hp
  | cons s p ih =>
    cases m with
    | var a => cases s <;> cases hp <;> rfl
    | app t g x =>
      cases s with
      | fn => exact run_bind_error (ih (m := g) hp)
      | arg => exact run_bind_error (ih (m := x) hp)
      | _ => cases hp; rfl
    | abs t b body =>
      cases s with
      | body => exact run_bind_error (ih (m := body) hp)
      | bound => exact run_bind_error (ih (m := .var b) hp)
      | _ => cases hp; rfl

/-- A node is told from another one by its number: it is the same one or has another number. All its
numbers have been given out by then. -/
abbrev Told (k : Nat) (m : Node) (r : Node × Nat) : Prop := Pass (fun _ => True) k m r

/-- A pass that gives a node back exactly where nothing is drafted. -/
def PassFor (m : Node) (d? : Option Draft) (k : Nat) (r : Node × Nat) : Prop :=
  Pass (fun r => r = m ↔ d? = none) k m r

section Parts

variable {t : Nat} {g x body : Node} {b : Atom Nat} {e? : Option Draft} {r₁ r₂ : Node × Nat}

theorem PassFor.kept (hm : m.Within k) (hkl : k ≤ l) : PassFor m none k (m, l) :=
  ⟨iff_of_true rfl rfl, .inl rfl, hm.mono hkl, hkl⟩

theorem PassFor.app (hm : Within k (.app t g x)) (hg : PassFor g d? k r₁)
    (hx : PassFor x e? r₁.2 r₂) :
    PassFor (.app t g x) (Draft.call? g x d? e?) k (callAgain (.app t g x) g x r₁.1 r₂.1 r₂.2) := by
  refine Pass.app hm hg hx (fun hd he => ?_) fun u hu hd he hne => iff_of_false ?_ ?_
  · rw [hd.1 rfl, he.1 rfl]
    exact iff_of_true rfl rfl
  · rintro ⟨⟩
    exact Nat.not_le_of_lt hm.1 hu
  · rw [Draft.call?_eq_some fun hnone => hne ⟨hd.2 hnone.1, he.2 hnone.2⟩]
    exact Option.some_ne_none _

theorem PassFor.abs (hm : Within k (.abs t b body)) (hbody : PassFor body d? k r₁) :
    PassFor (.abs t b body) (d?.map (.abs b)) k
      (absAgain (.abs t b body) b body r₁.1 r₁.2) := by
  refine Pass.abs hm hbody (fun hd => ?_) fun u hu hd hne => iff_of_false ?_ ?_
  · rw [hd.1 rfl]
    exact iff_of_true rfl rfl
  · rintro ⟨⟩
    exact Nat.not_le_of_lt hm.1 hu
  · rw [Option.map_eq_none_iff, ← hd]
    exact hne

end Parts

theorem replaceWith_nil (m : Node) (k : Nat) :
    (m.replaceWith h []).run k = (.ok (h m k).1, (h m k).2) := rfl

/-- A walk over a node makes what a replacement drafts of it, or fails as the replacement does. -/
def Walked (m : Node) (k l : Nat) (drafted : Except AddressError (Option Draft))
    (r : Except AddressError Node × Nat) : Prop :=
  (∃ e, drafted = .error e ∧ r = (.error e, l)) ∨
    ∃ d?, drafted = .ok d? ∧ r = (.ok (Draft.buildOr m d? l).1, (Draft.buildOr m d? l).2) ∧
      PassFor m d? k (Draft.buildOr m d? l)

/-- A walk over a part, and what is made of its result. -/
theorem Walked.made {part : Node} {drafted : Except AddressError (Option Draft)}
    {w : ExceptT AddressError Build Node} (hpart : Walked part k l drafted (w.run k))
    (change : Option Draft → Option Draft) (make : Node → Build Node)
    (hmake : ∀ d?, PassFor part d? k (Draft.buildOr part d? l) →
      make (Draft.buildOr part d? l).1 (Draft.buildOr part d? l).2 = Draft.buildOr m (change d?) l ∧
        PassFor m (change d?) k (make (Draft.buildOr part d? l).1 (Draft.buildOr part d? l).2)) :
    Walked m k l (do return change (← drafted))
      ((w >>= fun n => (make n : ExceptT AddressError Build Node)).run k) := by
  rcases hpart with ⟨e, rfl, hrun⟩ | ⟨d?, rfl, hrun, hpass⟩
  · rw [run_bind_error hrun]
    exact .inl ⟨e, rfl, rfl⟩
  · obtain ⟨hmade, hpass⟩ := hmake d? hpass
    rw [hmade] at hpass
    rw [run_bind_ok hrun]
    exact .inr ⟨_, rfl, congrArg (fun r : Node × Nat => (Except.ok r.1, r.2)) hmade, hpass⟩

section Parts

variable {t : Nat} {g x body : Node} {b : Atom Nat}

theorem walked_nil (hm : m.Within k) (hn : Told k m (h m k)) :
    Walked m k (h m k).2 (replaceDraft? (fun n => (h n k).1) m [])
      ((m.replaceWith h []).run k) := by
  rw [replaceDraft?, replaceWith_nil]
  refine .inr ⟨_, rfl, ?_⟩
  by_cases hsame : (h m k).1 = m
  · rw [if_pos hsame]
    exact ⟨Prod.ext (congrArg Except.ok hsame) rfl, .kept hm hn.grows⟩
  · rw [if_neg hsame]
    exact ⟨rfl, iff_of_false hsame (Option.some_ne_none _), hn.same_or_new, hn.within, hn.grows⟩

theorem walked_fn (hm : Within k (.app t g x))
    (hg : Walked g k l (replaceDraft? f g p) ((g.replaceWith h p).run k)) :
    Walked (.app t g x) k l (replaceDraft? f (.app t g x) (.fn :: p))
      ((replaceWith h (.app t g x) (.fn :: p)).run k) := by
  refine hg.made (Draft.call? g x · none) (callAgain (.app t g x) g x · x) fun d? hpass => ⟨?_, ?_⟩
  · rw [callAgain_eq hpass.same_or_new (.inl rfl)]
    cases d? with
    | none => exact if_pos ⟨rfl, rfl⟩
    | some d => exact if_neg fun hsame => Option.some_ne_none d (hpass.result.1 hsame.1)
  · exact PassFor.app hm hpass (.kept (hm.2.2.mono hpass.grows) (Nat.le_refl _))

theorem walked_arg (hm : Within k (.app t g x))
    (hx : Walked x k l (replaceDraft? f x p) ((x.replaceWith h p).run k)) :
    Walked (.app t g x) k l (replaceDraft? f (.app t g x) (.arg :: p))
      ((replaceWith h (.app t g x) (.arg :: p)).run k) := by
  refine hx.made (Draft.call? g x none) (callAgain (.app t g x) g x g) fun d? hpass => ⟨?_, ?_⟩
  · rw [callAgain_eq (.inl rfl) hpass.same_or_new]
    cases d? with
    | none => exact if_pos ⟨rfl, rfl⟩
    | some d => exact if_neg fun hsame => Option.some_ne_none d (hpass.result.1 hsame.2)
  · exact PassFor.app hm (.kept hm.2.1 (Nat.le_refl k)) hpass

theorem walked_body (hm : Within k (.abs t b body))
    (hbody : Walked body k l (replaceDraft? f body p) ((body.replaceWith h p).run k)) :
    Walked (.abs t b body) k l (replaceDraft? f (.abs t b body) (.body :: p))
      ((replaceWith h (.abs t b body) (.body :: p)).run k) := by
  refine hbody.made (Option.map (.abs b)) (absAgain (.abs t b body) b body) fun d? hpass => ⟨?_, ?_⟩
  · rw [absAgain_eq hpass.same_or_new]
    cases d? with
    | none => exact if_pos rfl
    | some d => exact if_neg fun hsame => Option.some_ne_none d (hpass.result.1 hsame)
  · exact PassFor.abs hm hpass

theorem walked_bound (hm : Within k (.abs t b body))
    (hn : Told k (.var b) (h (.var b) k)) :
    Walked (.abs t b body) k (h (.var b) k).2
      (replaceDraft? (fun n => (h n k).1) (.abs t b body) [.bound])
      ((replaceWith h (.abs t b body) [.bound]).run k) := by
  rw [replaceDraft?_bound, replaceWith, run_bind_ok (replaceWith_nil (.var b) k)]
  by_cases hsame : (h (.var b) k).1 = .var b
  · rw [if_pos hsame, if_pos ((isSame_iff hn.same_or_new).2 hsame)]
    exact .inr ⟨none, rfl, rfl, .kept hm hn.grows⟩
  · rw [if_neg hsame, if_neg (mt (isSame_iff hn.same_or_new).1 hsame)]
    have hwithin := hn.within
    have hgrows := hn.grows
    cases hnew : (h (.var b) k).1 with
    | app t' g x => exact .inl ⟨_, rfl, rfl⟩
    | abs t' c body' => exact .inl ⟨_, rfl, rfl⟩
    | var c =>
      rw [hnew] at hsame hwithin
      refine .inr ⟨_, rfl, rfl, ?_⟩
      refine Pass.newAbs hm hgrows hwithin (hm.2.2.mono hgrows)
        (iff_of_false ?_ (Option.some_ne_none _))
      rintro ⟨⟩
      exact hsame rfl

end Parts

/-- **The walk makes what a replacement drafts**, if the numbers of nodes tell them apart: where the
walk compares a part by its number, there is a draft of the part or none. By induction on the term. -/
theorem replaceWith_walked (hm : m.Within k) (hp : m.locate p = .ok n)
    (hn : Told k n (h n k)) :
    Walked m k (h n k).2 (replaceDraft? (fun n => (h n k).1) m p) ((m.replaceWith h p).run k) := by
  induction m generalizing p with
  | var a =>
    obtain ⟨rfl, rfl⟩ := Term.locate_var hp
    exact walked_nil hm hn
  | app t g x ihg ihx =>
    rcases Term.locate_app hp with ⟨rfl, rfl⟩ | ⟨q, rfl, hq⟩ | ⟨q, rfl, hq⟩
    · exact walked_nil hm hn
    · exact walked_fn hm (ihg hm.2.1 hq)
    · exact walked_arg hm (ihx hm.2.2 hq)
  | abs t b body ih =>
    rcases Term.locate_abs hp with ⟨rfl, rfl⟩ | ⟨rfl, rfl⟩ | ⟨q, rfl, hq⟩
    · exact walked_nil hm hn
    · exact walked_bound hm hn
    · exact walked_body hm (ih hm.2.2 hq)

/-- **The walk replaces by what it has made.** -/
theorem replaceWith_eq (hm : m.Within k) (hp : m.locate p = .ok n) (hn : Told k n (h n k)) :
    (m.replaceWith h p).run k = (m.replaceAt (fun n => (h n k).1) p).run (h n k).2 := by
  rcases replaceWith_walked hm hp hn with ⟨e, hdraft, hrun⟩ | ⟨d?, hdraft, hrun, -⟩
  · rw [hrun, replaceAt_of_error hdraft]
  · rw [hrun, replaceAt_of_ok hdraft]

/-- What the walk gives can be told from the term, and all its numbers have been given out. -/
theorem replaceWith_told (hm : m.Within k) (hp : m.locate p = .ok n) (hn : Told k n (h n k))
    (hr : (m.replaceWith h p).run k = (.ok r, l)) : Told k m (r, l) := by
  rcases replaceWith_walked hm hp hn with ⟨e, -, hrun⟩ | ⟨d?, -, hrun, hpass⟩
  · cases hr.symm.trans hrun
  · cases hr.symm.trans hrun
    exact ⟨trivial, hpass.same_or_new, hpass.within, hpass.grows⟩

/-- The second of two walks to a place counts. -/
theorem replaceWith_replaceWith {g : Node → Build Node} {w : Node} {j : Nat} (hm : m.Within k)
    (hp : m.locate p = .ok n) (hn : Told k n (h n k)) (hr : (m.replaceWith h p).run k = (.ok r, l))
    (hg : g (h n k).1 l = (w, j)) (hw : Told l (h n k).1 (w, j)) (hwn : Told j n (w, j)) :
    Term.SameOutcome p ((r.replaceWith g p).run l).1
      ((m.replaceWith (fun _ => pure w) p).run j).1 := by
  have hrl := replaceWith_told hm hp hn hr
  rw [replaceWith_eq hm hp hn] at hr
  obtain ⟨n', hp', hreplaced⟩ := replaceAt_replaced (congrArg Prod.fst hr)
  cases hp.symm.trans hp'
  rw [replaceWith_eq hrl.within hreplaced.locate (hg ▸ hw),
    replaceWith_eq (hm.mono (hrl.grows.trans hw.grows)) hp hwn]
  exact replaceAt_replaceAt (f := fun n => (h n k).1) (g := fun v => (g v l).1) hp hreplaced
    (congrArg Prod.fst hg).symm _ _

end Walk

/-! ## The laws of both -/

/-- **Replacing at a path is lawful**, with nodes compared as they are and with nodes compared by
number. Replacing twice is replacing by the second part. Numbers have to tell what is put in from what
was there. -/
theorem replacements_lawful (m : Node) (p : Path) :
    (∀ f nodes, Lawful f m p ((m.replaceAt f p).run nodes).1 ∧
      ∀ r g k l, ((m.replaceAt f p).run nodes).1 = .ok r →
        Term.SameOutcome p ((r.replaceAt g p).run k).1 ((m.replaceAt (g ∘ f) p).run l).1) ∧
    ∀ h nodes, m.Within nodes → (∀ n, m.locate p = .ok n → Told nodes n (h n nodes)) →
      Lawful (fun n => (h n nodes).1) m p ((m.replaceWith h p).run nodes).1 ∧
      ∀ n r l g w k, m.locate p = .ok n → (m.replaceWith h p).run nodes = (.ok r, l) →
        g (h n nodes).1 l = (w, k) → Told l (h n nodes).1 (w, k) → Told k n (w, k) →
        Term.SameOutcome p ((r.replaceWith g p).run l).1
          ((m.replaceWith (fun _ => pure w) p).run k).1 := by
  refine ⟨fun f nodes => ⟨replaceAt_laws f m p nodes, fun r g k l hr => ?_⟩,
    fun h nodes hm hh => ⟨?_, fun n r l g w k hp hr hg hw hwn => ?_⟩⟩
  · obtain ⟨n, hp, hreplaced⟩ := replaceAt_replaced hr
    exact replaceAt_replaceAt hp hreplaced rfl k l
  · cases hp : m.locate p with
    | ok n =>
      rw [replaceWith_eq hm hp (hh n hp)]
      exact replaceAt_laws _ m p _
    | error e =>
      have hlaws := replaceAt_laws (fun n => (h n nodes).1) m p nodes
      rw [replaceAt_of_error (replaceDraft?_error hp)] at hlaws
      rwa [replaceWith_error hp]
  · exact replaceWith_replaceWith hm hp (hh n hp) hr hg hw hwn

/-- In `λx. f x`, where one node is the binder and the leaf, another binder leaves the leaf alone. -/
theorem replacements_lawful_at_binder :
    let x : Atom Nat := ⟨0, "x", none⟩
    let y : Atom Nat := ⟨4, "y", none⟩
    let m : Node := .abs 3 x (.app 2 (.var ⟨1, "f", none⟩) (.var x))
    m.Within 5 ∧ Told 5 (.var x) (.var y, 5) ∧
      ∃ r, ((m.replaceWith (fun _ => pure (.var y)) [.bound]).run 5).1 = .ok r ∧
        r.locate [.bound] = .ok (.var y) ∧
        (r.locate [.body, .arg]).mapError AddressError.untold = .ok (.var x) := by
  intro x y m
  have hm : m.Within 5 := by simp [m, x, Node.Within]
  have hy : Told 5 (.var x) (.var y, 5) :=
    ⟨trivial, .inr (by decide), Nat.lt_succ_self 4, Nat.le_refl 5⟩
  have hlaws := ((replacements_lawful m [.bound]).2 (fun _ => pure (.var y)) 5 hm
    fun n hn => by cases hn; exact hy).1
  refine ⟨hm, hy, .abs 5 y (.app 2 (.var ⟨1, "f", none⟩) (.var x)), rfl, ?_, ?_⟩
  · obtain ⟨n, -, hpart⟩ := hlaws.part _ rfl
    exact hpart
  · exact hlaws.beside _ rfl [.body, .arg] (by decide)

end Node

end ProofKernel
