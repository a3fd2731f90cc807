import Mathlib.Data.List.TakeWhile
import ProofKernel.Scope

/-!
# Looking names up

* `Scope.lookup?_map`, `Scope.lookup?_filter_ne`: in scopes with other values, or with fewer frames;
* `Scope.lookup?_of_prefix`: in scopes that go on further out;
* `Scope.lookup?_eq_head?_outward`: a lookup reads the first frame of the scope outward;
* `Scope.outward_of_suffix`, `Scope.lookup?_of_suffix`, `Scope.lookup?_of_mem`: in scopes that have
  each name once, whatever frames are further in.
-/

namespace ProofKernel.Scope

variable {β γ : Type}

theorem lookup?_eq_none_iff {Γ : Scope β} {name : String} :
    Γ.lookup? name = none ↔ name ∉ Γ.map Prod.fst := by
  rw [lookup?, Option.map_eq_none_iff, List.find?_eq_none, List.mem_map, not_exists]
  exact forall_congr' fun frame => by simp

theorem lookup?_append (Γ Δ : Scope β) (name : String) :
    lookup? (Γ ++ Δ) name = (lookup? Γ name).or (lookup? Δ name) := by
  induction Γ with
  | nil => rfl
  | cons frame Γ ih =>
    obtain ⟨x, b⟩ := frame
    rw [List.cons_append, lookup?_cons, lookup?_cons, ih]
    split <;> rfl

theorem lookup?_filter_ne (Γ : Scope β) {b x : String} (h : x ≠ b) :
    lookup? (Γ.filter fun frame => frame.1 ≠ b) x = lookup? Γ x := by
  induction Γ with
  | nil => rfl
  | cons frame Γ ih =>
    obtain ⟨y, c⟩ := frame
    by_cases hy : y = b
    · subst hy
      rw [List.filter_cons_of_neg (by simp), ih, lookup?_cons, if_neg (Ne.symm h)]
    · rw [List.filter_cons_of_pos (by simpa using hy), lookup?_cons, lookup?_cons, ih]

theorem lookup?_map (Γ : Scope β) (f : β → γ) (name : String) :
    lookup? (Γ.map fun frame => (frame.1, f frame.2)) name = (lookup? Γ name).map f := by
  induction Γ with
  | nil => rfl
  | cons frame Γ ih =>
    obtain ⟨x, b⟩ := frame
    rw [List.map_cons, lookup?_cons, lookup?_cons, ih]
    split <;> rfl

/-- A lookup finds a frame of the name. -/
theorem lookup?_eq_some_iff {Γ : Scope β} {name : String} {b : β} :
    Γ.lookup? name = some b ↔ Γ.find? (fun frame => frame.1 = name) = some (name, b) := by
  rw [lookup?, Option.map_eq_some_iff]
  constructor
  · rintro ⟨⟨x, c⟩, hfind, rfl⟩
    obtain rfl : x = name := by simpa using List.find?_some hfind
    exact hfind
  · exact fun hfind => ⟨_, hfind, rfl⟩

theorem mem_of_lookup? {Γ : Scope β} {name : String} {b : β} (h : Γ.lookup? name = some b) :
    (name, b) ∈ Γ :=
  List.mem_of_find?_eq_some (lookup?_eq_some_iff.1 h)

/-- Each name stays once when only names come to the end that have no frame. -/
theorem nodup_append {Γ Δ : Scope β} (hΓ : (Γ.map Prod.fst).Nodup) (hΔ : (Δ.map Prod.fst).Nodup)
    (hnew : ∀ frame ∈ Δ, Γ.lookup? frame.1 = none) : ((Γ ++ Δ).map Prod.fst).Nodup := by
  rw [List.map_append, List.nodup_append]
  refine ⟨hΓ, hΔ, ?_⟩
  rintro name hname _ hmem rfl
  obtain ⟨frame, hframe, rfl⟩ := List.mem_map.1 hmem
  exact lookup?_eq_none_iff.1 (hnew frame hframe) hname

/-- A name keeps the value that it has in the first part of a scope. -/
theorem lookup?_of_prefix {Γ Δ : Scope β} {name : String} {b : β} (hΓ : Γ <+: Δ)
    (h : Γ.lookup? name = some b) : Δ.lookup? name = some b := by
  obtain ⟨rest, rfl⟩ := hΓ
  rw [lookup?_append, h]
  rfl

/-! ## From a frame outward -/

theorem outward_cons (x name : String) (b : β) (s : Scope β) :
    outward ((x, b) :: s) name = if x = name then (x, b) :: s else outward s name := by
  by_cases h : x = name <;> simp [outward, h]

/-- The frame that a lookup finds is the first one of the scope outward. -/
theorem find?_eq_head?_outward (s : Scope β) (name : String) :
    (s.find? fun frame => frame.1 = name) = (s.outward name).head? := by
  simp only [List.find?_eq_head?_dropWhile_not, outward, ne_eq, decide_not]

/-- **A lookup reads the first frame of the scope outward.** -/
theorem lookup?_eq_head?_outward (s : Scope β) (name : String) :
    s.lookup? name = (s.outward name).head?.map (·.2) := by
  rw [lookup?, find?_eq_head?_outward]

/-- A name that has a frame has it where its scope begins. -/
theorem exists_outward_of_lookup? {s : Scope β} {name : String} {b : β}
    (h : s.lookup? name = some b) : ∃ outer, s.outward name = (name, b) :: outer ∧
      (name, b) :: outer <:+ s := by
  rw [lookup?_eq_some_iff, find?_eq_head?_outward] at h
  obtain ⟨outer, houtward⟩ := List.head?_eq_some_iff.1 h
  exact ⟨outer, houtward, houtward ▸ List.dropWhile_suffix _⟩

theorem outward_eq_nil {s : Scope β} {name : String} (h : s.lookup? name = none) :
    s.outward name = [] := by
  rw [lookup?_eq_head?_outward, Option.map_eq_none_iff] at h
  exact List.head?_eq_none_iff.1 h

/-- Where each name has one frame, that of a name in the outer part has the same scope outward. -/
theorem outward_of_suffix {Γ Δ : Scope β} {name : String} {b : β} (hΓ : Γ <:+ Δ)
    (hΔ : (Δ.map Prod.fst).Nodup) (h : Γ.lookup? name = some b) :
    Δ.outward name = Γ.outward name := by
  obtain ⟨front, rfl⟩ := hΓ
  induction front with
  | nil => rfl
  | cons frame front ih =>
    obtain ⟨x, c⟩ := frame
    rw [List.cons_append, List.map_cons, List.nodup_cons] at hΔ
    have hx : x ≠ name := by
      rintro rfl
      exact hΔ.1 (List.mem_map.2 ⟨_, List.mem_append_right _ (mem_of_lookup? h), rfl⟩)
    rw [List.cons_append, outward_cons, if_neg hx]
    exact ih hΔ.2

/-- A name that a scope has once keeps the value that it has in the outer part. -/
theorem lookup?_of_suffix {Γ Δ : Scope β} {name : String} {b : β} (hΓ : Γ <:+ Δ)
    (hΔ : (Δ.map Prod.fst).Nodup) (h : Γ.lookup? name = some b) : Δ.lookup? name = some b := by
  rw [lookup?_eq_head?_outward, outward_of_suffix hΓ hΔ h, ← lookup?_eq_head?_outward, h]

/-- In a scope that has each name once, every frame counts. -/
theorem lookup?_of_mem {Γ : Scope β} (hΓ : (Γ.map Prod.fst).Nodup) {name : String} {b : β}
    (h : (name, b) ∈ Γ) : Γ.lookup? name = some b := by
  obtain ⟨inner, outer, rfl⟩ := List.append_of_mem h
  have hframe : lookup? ((name, b) :: outer) name = some b := by rw [lookup?_cons, if_pos rfl]
  exact lookup?_of_suffix (List.suffix_append _ _) hΓ hframe

end ProofKernel.Scope
