import Mathlib.Data.List.Pairwise
import ProofKernel.Proofs.AlphaEquivalence
import ProofKernel.Proofs.Sharing

/-!
# Searching in pre-order

* `Path.Before`: the order of places, a term before its parts and a function before its argument;
* `Term.places`: the parts of a term with their paths, in this order;
* `Term.mem_places_iff`: they are what paths lead to that end at no binder;
* `Term.pathTo?_eq`, `Term.pathToBinding?_eq`: a search goes through the places, and the search for
  a binder is the search for its abstraction;
* `Term.FirstAt`, `Term.searches_first`: so both searches find the first of the parts in question, if
  there is one.
-/

namespace ProofKernel

/-! ## The order of places -/

namespace Path

/-- One place comes before another in pre-order: a term before its parts, and a function with its
parts before its argument. -/
def Before (p q : Path) : Prop := List.Lex (fun s t => s = .fn ∧ t = .arg) p q

variable {p q : Path} {s : Segment}

theorem nil_before (s : Segment) (p : Path) : Before [] (s :: p) := .nil

theorem fn_before_arg (p q : Path) : Before (.fn :: p) (.arg :: q) := .rel ⟨rfl, rfl⟩

theorem Before.cons (h : p.Before q) (s : Segment) : Before (s :: p) (s :: q) := List.Lex.cons h

theorem Before.irrefl (p : Path) : ¬p.Before p := by
  refine List.lex_irrefl (fun s h => ?_) p
  cases h.1.symm.trans h.2

theorem Before.asymm (h : p.Before q) : ¬q.Before p := by
  intro h'
  refine irrefl p (List.lex_trans (fun h₁ h₂ => ?_) h h')
  cases h₁.2.symm.trans h₂.1

end Path

namespace Term

variable {ι : Type} {m n : Term ι} {p q : Path}

/-! ## Places -/

/-- A place of a part, as it is in the term that a segment leads from. -/
def under (s : Segment) (place : Path × Term ι) : Path × Term ι := (s :: place.1, place.2)

/-- The parts of a term with their paths, in pre-order. -/
def places : Term ι → List (Path × Term ι)
  | .var a => [([], .var a)]
  | .app t f x => ([], .app t f x) :: (f.places.map (under .fn) ++ x.places.map (under .arg))
  | .abs t b body => ([], .abs t b body) :: body.places.map (under .body)

/-- Without their paths they are the parts of the term. -/
theorem map_snd_places (m : Term ι) : m.places.map Prod.snd = m.parts := by
  have hunder : ∀ s : Segment, Prod.snd ∘ under (ι := ι) s = Prod.snd := fun _ => rfl
  induction m with
  | var a => rfl
  | app t f x ihf ihx => simp [places, parts, hunder, ihf, ihx]
  | abs t b body ih => simp [places, parts, hunder, ih]

theorem mem_map_under {places : List (Path × Term ι)} {s : Segment} :
    (p, n) ∈ places.map (under s) ↔ ∃ q, p = s :: q ∧ (q, n) ∈ places := by
  simp only [List.mem_map, under, Prod.mk.injEq, Prod.exists]
  constructor
  · rintro ⟨q, n', hmem, rfl, rfl⟩
    exact ⟨q, rfl, hmem⟩
  · rintro ⟨q, rfl, hmem⟩
    exact ⟨q, n, hmem, rfl, rfl⟩

/-- **Where the parts are**: at the paths that lead somewhere and not to a binder. -/
theorem mem_places_iff : (p, n) ∈ m.places ↔ m.locate p = .ok n ∧ .bound ∉ p := by
  constructor
  · intro h
    induction m generalizing p with
    | var a =>
      obtain ⟨rfl, rfl⟩ := Prod.mk.inj (List.mem_singleton.1 h)
      exact ⟨rfl, List.not_mem_nil⟩
    | app t f x ihf ihx =>
      rw [places, List.mem_cons, List.mem_append, mem_map_under, mem_map_under] at h
      rcases h with h | ⟨q, rfl, hq⟩ | ⟨q, rfl, hq⟩
      · obtain ⟨rfl, rfl⟩ := Prod.mk.inj h
        exact ⟨rfl, List.not_mem_nil⟩
      · exact (ihf hq).imp_right fun hfree => by simpa using hfree
      · exact (ihx hq).imp_right fun hfree => by simpa using hfree
    | abs t b body ih =>
      rw [places, List.mem_cons, mem_map_under] at h
      rcases h with h | ⟨q, rfl, hq⟩
      · obtain ⟨rfl, rfl⟩ := Prod.mk.inj h
        exact ⟨rfl, List.not_mem_nil⟩
      · exact (ih hq).imp_right fun hfree => by simpa using hfree
  · rintro ⟨hp, hfree⟩
    induction m generalizing p with
    | var a =>
      obtain ⟨rfl, rfl⟩ := locate_var hp
      exact List.mem_singleton_self _
    | app t f x ihf ihx =>
      rw [places, List.mem_cons, List.mem_append, mem_map_under, mem_map_under]
      rcases locate_app hp with ⟨rfl, rfl⟩ | ⟨q, rfl, hq⟩ | ⟨q, rfl, hq⟩
      · exact .inl rfl
      · exact .inr (.inl ⟨q, rfl, ihf hq (List.not_mem_of_not_mem_cons hfree)⟩)
      · exact .inr (.inr ⟨q, rfl, ihx hq (List.not_mem_of_not_mem_cons hfree)⟩)
    | abs t b body ih =>
      rw [places, List.mem_cons, mem_map_under]
      rcases locate_abs hp with ⟨rfl, rfl⟩ | ⟨rfl, rfl⟩ | ⟨q, rfl, hq⟩
      · exact .inl rfl
      · exact absurd List.mem_cons_self hfree
      · exact .inr ⟨q, rfl, ih hq (List.not_mem_of_not_mem_cons hfree)⟩

/-- The places are in pre-order. -/
theorem places_pairwise (m : Term ι) : m.places.Pairwise fun x y => x.1.Before y.1 := by
  have hunder : ∀ (places : List (Path × Term ι)) (s : Segment),
      places.Pairwise (fun x y => x.1.Before y.1) →
        (places.map (under s)).Pairwise fun x y => x.1.Before y.1 := fun places s h =>
    h.map (under s) fun _ _ hxy => hxy.cons s
  have hroot : ∀ (places : List (Path × Term ι)) (s : Segment),
      ∀ place ∈ places.map (under s), Path.Before [] place.1 := by
    intro places s place hmem
    obtain ⟨place, -, rfl⟩ := List.mem_map.1 hmem
    exact Path.nil_before s _
  induction m with
  | var a => exact List.pairwise_singleton _ _
  | app t f x ihf ihx =>
    rw [places, List.pairwise_cons, List.pairwise_append]
    refine ⟨fun place hmem => ?_, hunder _ _ ihf, hunder _ _ ihx, fun y hy z hz => ?_⟩
    · exact (List.mem_append.1 hmem).elim (hroot _ _ place) (hroot _ _ place)
    · obtain ⟨y, -, rfl⟩ := List.mem_map.1 hy
      obtain ⟨z, -, rfl⟩ := List.mem_map.1 hz
      exact Path.fn_before_arg _ _
  | abs t b body ih =>
    rw [places, List.pairwise_cons]
    exact ⟨hroot _ _, hunder _ _ ih⟩

/-! ## Searches -/

/-- **A search goes through the places.** -/
theorem pathTo?_eq (test : Term ι → Bool) (m : Term ι) :
    m.pathTo? test = (m.places.find? fun place => test place.2).map Prod.fst := by
  have hunder : ∀ (places : List (Path × Term ι)) (s : Segment),
      ((places.map (under s)).find? fun place => test place.2).map Prod.fst =
        ((places.find? fun place => test place.2).map Prod.fst).map (s :: ·) := by
    intro places s
    rw [List.find?_map, Option.map_map, Option.map_map]
    rfl
  induction m with
  | var a => cases h : test (.var a) <;> simp [pathTo?, places, h]
  | app t f x ihf ihx =>
    cases h : test (.app t f x) with
    | true => simp [pathTo?, places, h]
    | false => simp [pathTo?, places, h, List.find?_append, ihf, ihx, ← hunder, Option.map_or]
  | abs t b body ih =>
    cases h : test (.abs t b body) with
    | true => simp [pathTo?, places, h]
    | false => simp [pathTo?, places, h, ih, ← hunder]

/-- Whether the term is an abstraction whose binder satisfies the test. -/
def binds (test : Term ι → Bool) : Term ι → Bool
  | .abs _ b _ => test (.var b)
  | _ => false

/-- **The search for a binder is the search for its abstraction.** -/
theorem pathToBinding?_eq (test : Term ι → Bool) (m : Term ι) :
    m.pathToBinding? test = m.pathTo? (binds test) := by
  induction m with
  | var a => rfl
  | app t f x ihf ihx => rw [pathToBinding?, pathTo?, ihf, ihx]; rfl
  | abs t b body ih => rw [pathToBinding?, pathTo?, ih]; rfl

/-- **The first part that satisfies a test**: a path leads to a part that does, and no earlier place
has one. -/
structure FirstAt (test : Term ι → Bool) (m : Term ι) (path : Path) : Prop where
  found : ∃ n, m.locate path = .ok n ∧ test n = true
  part : .bound ∉ path
  first : ∀ q n, m.locate q = .ok n → .bound ∉ q → test n = true → ¬q.Before path

variable {test : Term ι → Bool}

/-- What the search gives is the first part that satisfies the test: those before it in the row of
places do not satisfy it, and those behind it come later in pre-order. -/
theorem firstAt_of_pathTo? (h : m.pathTo? test = some p) : FirstAt test m p := by
  rw [pathTo?_eq, Option.map_eq_some_iff] at h
  obtain ⟨⟨p', n⟩, hfind, rfl⟩ := h
  obtain ⟨hn, before, after, hsplit, hbefore⟩ := List.find?_eq_some_iff_append.1 hfind
  have hmem : (p', n) ∈ m.places := List.mem_of_find?_eq_some hfind
  obtain ⟨hlocate, hfree⟩ := mem_places_iff.1 hmem
  refine ⟨⟨n, hlocate, hn⟩, hfree, fun q n' hq hqfree hn' hearlier => ?_⟩
  have hq : (q, n') ∈ before ++ (p', n) :: after := hsplit ▸ mem_places_iff.2 ⟨hq, hqfree⟩
  rcases List.mem_append.1 hq with hq | hq
  · simpa [hn'] using hbefore _ hq
  · rcases List.mem_cons.1 hq with heq | hq
    · obtain ⟨rfl, -⟩ := Prod.mk.inj heq
      exact Path.Before.irrefl q hearlier
    · have hsorted := m.places_pairwise
      rw [hsplit, List.pairwise_append] at hsorted
      exact ((List.pairwise_cons.1 hsorted.2.1).1 _ hq).asymm hearlier

theorem pathTo?_isSome_iff : (m.pathTo? test).isSome = true ↔ ∃ n ∈ m.parts, test n = true := by
  rw [pathTo?_eq, Option.isSome_map, List.find?_isSome, ← map_snd_places]
  constructor
  · rintro ⟨place, hmem, htest⟩
    exact ⟨place.2, List.mem_map_of_mem hmem, htest⟩
  · rintro ⟨n, hn, htest⟩
    obtain ⟨place, hmem, rfl⟩ := List.mem_map.1 hn
    exact ⟨place, hmem, htest⟩

/-- Of two places one comes before the other. -/
theorem before_or_before {x y : Path × Term ι} (hx : x ∈ m.places) (hy : y ∈ m.places)
    (hne : x ≠ y) : x.1.Before y.1 ∨ y.1.Before x.1 := by
  have hall : m.places.Pairwise fun x y => x.1.Before y.1 ∨ y.1.Before x.1 :=
    m.places_pairwise.imp Or.inl
  have hsymm : Std.Symm fun x y : Path × Term ι => x.1.Before y.1 ∨ y.1.Before x.1 :=
    ⟨fun _ _ => Or.symm⟩
  exact hall.forall hx hy hne

/-- There is one first part. -/
theorem FirstAt.unique (h : FirstAt test m p) (h' : FirstAt test m q) : p = q := by
  obtain ⟨n, hn, htest⟩ := h.found
  obtain ⟨n', hn', htest'⟩ := h'.found
  by_contra hne
  have hplaces : (p, n) ≠ (q, n') := fun heq => hne (Prod.mk.inj heq).1
  rcases before_or_before (mem_places_iff.2 ⟨hn, h.part⟩) (mem_places_iff.2 ⟨hn', h'.part⟩) hplaces
    with hearlier | hearlier
  · exact h'.first p n hn h.part htest hearlier
  · exact h.first q n' hn' h'.part htest' hearlier

theorem pathTo?_eq_some_iff : m.pathTo? test = some p ↔ FirstAt test m p := by
  refine ⟨firstAt_of_pathTo?, fun h => ?_⟩
  obtain ⟨n, hn, htest⟩ := h.found
  have hpart : n ∈ m.parts := by
    rw [← map_snd_places]
    exact List.mem_map.2 ⟨(p, n), mem_places_iff.2 ⟨hn, h.part⟩, rfl⟩
  obtain ⟨q, hq⟩ := Option.isSome_iff_exists.1 (pathTo?_isSome_iff.2 ⟨n, hpart, htest⟩)
  rw [hq, (firstAt_of_pathTo? hq).unique h]

theorem exists_binds_iff : (∃ n ∈ m.parts, binds test n = true) ↔
    ∃ t b body, .abs t b body ∈ m.parts ∧ test (.var b) = true := by
  constructor
  · rintro ⟨n, hn, htest⟩
    cases n with
    | var a => exact absurd htest Bool.false_ne_true
    | app t f x => exact absurd htest Bool.false_ne_true
    | abs t b body => exact ⟨t, b, body, hn, htest⟩
  · rintro ⟨t, b, body, hn, htest⟩
    exact ⟨.abs t b body, hn, htest⟩

/-- **Searches are sound, complete and first.** The search for a part finds a path exactly if some
part satisfies the test, and then the path to the first one in pre-order that does. The search for a
binder finds a path exactly if the binder of some abstraction satisfies the test, and then the path
to the first such abstraction. -/
theorem searches_first (test : Term ι → Bool) (m : Term ι) :
    ((m.pathTo? test).isSome = true ↔ ∃ n ∈ m.parts, test n = true) ∧
      (∀ p, m.pathTo? test = some p ↔ FirstAt test m p) ∧
      ((m.pathToBinding? test).isSome = true ↔
        ∃ t b body, .abs t b body ∈ m.parts ∧ test (.var b) = true) ∧
      ∀ p, m.pathToBinding? test = some p ↔ FirstAt (binds test) m p := by
  rw [pathToBinding?_eq, ← exists_binds_iff]
  exact ⟨pathTo?_isSome_iff, fun _ => pathTo?_eq_some_iff, pathTo?_isSome_iff,
    fun _ => pathTo?_eq_some_iff⟩

/-- In `(λx. x) x` the first `x` is in the function, and no binder is a part. -/
example :
    let x : Atom Unit := .plain "x"
    let m : PlainTerm := .app () (.abs () x (.var x)) (.var x)
    m.pathTo? (Term.isNamed "x") = some [.fn, .body] ∧
      m.pathToBinding? (Term.isNamed "x") = some [.fn] := by decide

end Term

end ProofKernel
