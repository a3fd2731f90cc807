import Mathlib.Data.List.Nodup
import Mathlib.Data.List.Perm.Subperm
import Std.Data.String.ToNat
import ProofKernel.Fresh.Search
import ProofKernel.Proofs.Literals

/-!
# Fresh names are new

* `NameSupply.candidate_injective`: candidates with different numbers are different names;
* `NameSupply.candidate_inj`: whatever they are built on;
* `NameSupply.isVariable_candidate`: a name built on that of a logic variable is one;
* `NameSupply.firstNew_spec`: among as many candidates as there are names, and one more, one is new,
  so that the search ends at a new one;
* `NameSupply.fresh_not_mem`: a fresh name is not among the given ones;
* `NameSupply.search_eq`: the loop ends where the search among boundedly many candidates does;
* `NameSupply.not_exhaustedBy`: the counter does not run out while it has more numbers left than names
  exist;
* `NameSupply.drawAll_fresh`: what a supply gives for a row of calls.
-/

namespace ProofKernel

/-- The characters of the name of a logic variable. -/
theorem Name.isVariable_iff {name : Name} : name.isVariable = true ↔
    ∃ c cs, name.toList = c :: cs ∧
      (c = '_' ∨ (c.isLower = true ∨ c = '$') ∧ ∀ d ∈ cs, d.isDigit = true ∨ d = '_') := by
  unfold Name.isVariable
  cases name.toList with
  | nil => simp
  | cons c cs => simp

namespace NameSupply

/-! ## Candidates -/

theorem candidate_injective {base : Name} {i j : Nat} (h : candidate base i = candidate base j) :
    i = j := by
  unfold candidate at h
  rw [String.append_right_inj] at h
  exact Nat.repr_injective h

theorem toList_candidate (base : Name) (k : Nat) :
    (candidate base k).toList = base.toList ++ '_' :: k.repr.toList := by
  simp [candidate]

/-- What is dropped from a name that ends in an underscore and digits. -/
theorem baseOf_of_toList {name : Name} {front digits : List Char}
    (h : name.toList = front ++ '_' :: digits) (hne : digits ≠ [])
    (hdigits : ∀ c ∈ digits, c.isDigit = true) : baseOf name = .ofList front := by
  have hback : name.toList.reverse = digits.reverse ++ '_' :: front.reverse := by
    rw [h, List.reverse_append, List.reverse_cons, List.append_assoc]
    rfl
  have hall : ∀ c ∈ digits.reverse, c.isDigit = true := fun c hc =>
    hdigits c (List.mem_reverse.1 hc)
  have htake : name.toList.reverse.takeWhile Char.isDigit = digits.reverse := by
    rw [hback, List.takeWhile_append_of_pos hall]
    simp
  have hdrop : name.toList.reverse.dropWhile Char.isDigit = '_' :: front.reverse := by
    rw [hback, List.dropWhile_append_of_pos hall]
    simp
  obtain ⟨d, ds, hds⟩ := List.exists_cons_of_ne_nil (mt List.reverse_eq_nil_iff.1 hne)
  simp only [baseOf, htake, hdrop, hds, List.reverse_reverse]

/-- The number of a candidate is what is dropped from it. -/
theorem baseOf_candidate (base : Name) (k : Nat) : baseOf (candidate base k) = base := by
  obtain ⟨d, ds, hdigits, -⟩ := Name.exists_cons_repr k
  rw [baseOf_of_toList (toList_candidate base k) (by simp [hdigits]) Name.isDigit_of_mem_repr,
    String.ofList_toList]

/-- **Candidates are the same only if they are built on the same name with the same number.** -/
theorem candidate_inj {base base' : Name} {i j : Nat} :
    candidate base i = candidate base' j ↔ base = base' ∧ i = j := by
  constructor
  · intro h
    obtain rfl : base = base' := by rw [← baseOf_candidate base i, h, baseOf_candidate]
    exact ⟨rfl, candidate_injective h⟩
  · rintro ⟨rfl, rfl⟩
    rfl

example : baseOf "x_1_2" = "x_1" ∧ baseOf "x_" = "x_" ∧ baseOf "_7" = "" := by decide

/-- Nothing but the end of a name is dropped. -/
theorem baseOf_prefix (name : Name) : (baseOf name).toList <+: name.toList := by
  rw [baseOf]
  split
  next d ds rest htake hdrop =>
    have hsplit := List.takeWhile_append_dropWhile (p := Char.isDigit) (l := name.toList.reverse)
    rw [htake, hdrop] at hsplit
    rw [String.toList_ofList, ← List.reverse_suffix, List.reverse_reverse, ← hsplit]
    exact (List.suffix_cons '_' rest).trans (List.suffix_append (d :: ds) _)
  next => exact List.prefix_refl _

/-- **A name built on that of a logic variable is one as well.** -/
theorem isVariable_candidate {name : Name} (h : name.isVariable = true) (k : Nat) :
    (candidate (baseOf name) k).isVariable = true := by
  obtain ⟨c, cs, hname, hc⟩ := Name.isVariable_iff.1 h
  have hbase := baseOf_prefix name
  rw [hname, List.prefix_cons_iff] at hbase
  rw [Name.isVariable_iff, toList_candidate]
  rcases hbase with hnil | ⟨front, hfront, hsub⟩
  · exact ⟨'_', k.repr.toList, by rw [hnil]; rfl, .inl rfl⟩
  · refine ⟨c, front ++ '_' :: k.repr.toList, by rw [hfront]; rfl, hc.imp_right ?_⟩
    rintro ⟨hstart, hrest⟩
    refine ⟨hstart, fun d hd => ?_⟩
    rcases List.mem_append.1 hd with hd | hd
    · exact hrest d (hsub.subset hd)
    · rcases List.mem_cons.1 hd with rfl | hd
      · exact .inr rfl
      · exact .inl (Name.isDigit_of_mem_repr d hd)

/-! ## The search -/

/-- Not all of more candidates than there are names can be among the names. -/
theorem exists_new_candidate (base : Name) (existing : List Name) (k : Nat) :
    ∃ i ∈ List.range' k (existing.length + 1), candidate base i ∉ existing := by
  by_contra hall
  have hsub : (List.range' k (existing.length + 1)).map (candidate base) ⊆ existing := by
    intro x hx
    obtain ⟨i, hi, rfl⟩ := List.mem_map.1 hx
    by_contra hnot
    exact hall ⟨i, hi, hnot⟩
  have hnodup : ((List.range' k (existing.length + 1)).map (candidate base)).Nodup :=
    List.Nodup.map (fun _ _ h => candidate_injective h) List.nodup_range'
  have hle := (List.subperm_of_subset hnodup hsub).length_le
  rw [List.length_map, List.length_range'] at hle
  omega

/-- The search ends at a new candidate whose number is not smaller than the first one tried. -/
theorem firstNew_spec (base : Name) (existing : List Name) (k : Nat) :
    k ≤ firstNew base existing k ∧ candidate base (firstNew base existing k) ∉ existing := by
  obtain ⟨j, hj, hnew⟩ := exists_new_candidate base existing k
  unfold firstNew
  cases hfind : (List.range' k (existing.length + 1)).find?
      fun i => !existing.contains (candidate base i) with
  | none =>
    have := List.find?_eq_none.1 hfind j hj
    simp [hnew] at this
  | some i =>
    have hmem := List.mem_range'_1.1 (List.mem_of_find?_eq_some hfind)
    have hpred := List.find?_some hfind
    exact ⟨hmem.1, by simpa using hpred⟩

/-- Each candidate before that is among the names. -/
theorem mem_of_lt_firstNew {base : Name} {existing : List Name} {i k : Nat} (hk : k ≤ i)
    (hi : i < firstNew base existing k) : candidate base i ∈ existing := by
  obtain ⟨j, hj, hnew⟩ := exists_new_candidate base existing k
  unfold firstNew at hi
  cases hfind : (List.range' k (existing.length + 1)).find?
      fun i => !existing.contains (candidate base i) with
  | none =>
    rw [hfind] at hi
    exact absurd hi (Nat.not_lt.2 hk)
  | some l =>
    rw [hfind] at hi
    have hold := (List.find?_range'_eq_some.1 hfind).2.2 i hk hi
    simpa using hold

theorem fresh_not_mem (s : NameSupply) (name : Name) (existing : List Name) :
    (s.fresh name existing).1 ∉ existing :=
  (firstNew_spec (baseOf name) existing s.next).2

/-! ## The loop -/

section Loop

variable {base : Name} {existing : List Name} {j k : Nat}

/-- The loop ends at a new candidate before which none is new, by induction on the numbers up to
it. -/
theorem search_of_first (hkj : k ≤ j) (hold : ∀ i, k ≤ i → i < j → candidate base i ∈ existing)
    (hnew : candidate base j ∉ existing) :
    search ⟨k⟩ base existing =
      if j + 1 < wordSize then pure (candidate base j, ⟨j + 1⟩) else throw .exhausted := by
  obtain ⟨d, rfl⟩ := Nat.exists_eq_add_of_le hkj
  induction d generalizing k with
  | zero =>
    have hlook : ¬existing.contains (candidate base k) = true := by simpa using hnew
    rw [search, if_neg hlook]
    rfl
  | succ d ih =>
    have hk : candidate base k ∈ existing := hold k (Nat.le_refl k) (by omega)
    have hlook : existing.contains (candidate base k) = true := by simpa using hk
    have hj : k + (d + 1) = k + 1 + d := by omega
    rw [hj] at hold hnew ⊢
    have hnext := ih (k := k + 1) (by omega) (fun i hi hlt => hold i (by omega) hlt) hnew
    rw [search, if_pos hlook, hnext]
    by_cases hroom : k + 1 < wordSize
    · rw [if_pos hroom]
    · rw [if_neg hroom, if_neg (by omega)]

/-- **The loop ends** with the name that the search among boundedly many candidates gives, if the
counter has numbers enough. -/
theorem search_eq (s : NameSupply) (name : Name) (existing : List Name) :
    s.search (baseOf name) existing = if (s.fresh name existing).2.next < wordSize
      then pure (s.fresh name existing) else throw .exhausted :=
  have hfirst := firstNew_spec (baseOf name) existing s.next
  search_of_first hfirst.1 (fun _ hk hi => mem_of_lt_firstNew hk hi) hfirst.2

end Loop

/-! ## Calls on one supply -/

namespace Drawing

variable {β γ : Type} {x : Drawing β} {s s' : NameSupply} {b : β} {e : Halt}

/-- How a drawing from a supply ends, if it ends. -/
def outcome? (x : Drawing β) (s : NameSupply) : Option (Except Halt (β × NameSupply)) := (x.run s).run

theorem outcome?_bind_ok (h : x.outcome? s = some (.ok (b, s'))) (f : β → Drawing γ) :
    outcome? (x >>= f) s = (f b).outcome? s' := by
  have hx : x.run s = pure (b, s') := h
  rw [outcome?, StateT.run_bind, hx, pure_bind]
  rfl

theorem outcome?_bind_error (h : x.outcome? s = some (.error e)) (f : β → Drawing γ) :
    outcome? (x >>= f) s = some (.error e) := by
  have hx : x.run s = throw e := h
  rw [outcome?, StateT.run_bind, hx]
  rfl

end Drawing

variable {s s' : NameSupply} {call : Call} {calls before after : List Call} {d : Drawn}
  {drawn : List Drawn}

/-- Every name that the numbers left to the counter give for a call exists. -/
def ExhaustedBy (s : NameSupply) (call : Call) : Prop :=
  ∀ k, s.next ≤ k → k + 1 < wordSize → candidate (baseOf call.name) k ∈ call.existing

/-- **What a call must give**: a name that does not exist, and the names that exist with this one. On
the name of a logic variable, it is such a name. -/
structure Call.Answered (call : Call) (d : Drawn) : Prop where
  new : d.fresh ∉ call.existing
  added : ∀ x, x ∈ d.existing ↔ x = d.fresh ∨ x ∈ call.existing
  isVariable : call.name.isVariable = true → d.fresh.isVariable = true

/-- A call ends, with the fresh name that the supply has for it. -/
theorem draw_eq (s : NameSupply) (call : Call) :
    let r := s.fresh call.name call.existing
    (draw call).outcome? s = some (if r.2.next < wordSize
      then .ok (⟨r.1, r.1 :: call.existing⟩, r.2) else .error .exhausted) := by
  intro r
  unfold Drawing.outcome? draw
  rw [StateT.run, search_eq]
  by_cases hroom : r.2.next < wordSize
  · rw [if_pos hroom, if_pos hroom]
    rfl
  · rw [if_neg hroom, if_neg hroom]
    rfl

theorem exhaustedBy_iff : s.ExhaustedBy call ↔
    ¬(s.fresh call.name call.existing).2.next < wordSize := by
  obtain ⟨hle, hnew⟩ := firstNew_spec (baseOf call.name) call.existing s.next
  constructor
  · intro h hroom
    exact hnew (h _ hle hroom)
  · intro h k hk hroom
    have hfull : ¬firstNew (baseOf call.name) call.existing s.next + 1 < wordSize := h
    exact mem_of_lt_firstNew hk (by omega)

/-- The numbers are enough where there are more of them than names. -/
theorem not_exhaustedBy (h : s.next + call.existing.length + 1 < wordSize) :
    ¬s.ExhaustedBy call := by
  intro hall
  obtain ⟨k, hk, hnew⟩ := exists_new_candidate (baseOf call.name) call.existing s.next
  obtain ⟨hle, hlt⟩ := List.mem_range'_1.1 hk
  exact hnew (hall k hle (by omega))

theorem draw_exhausted (h : s.ExhaustedBy call) :
    (draw call).outcome? s = some (.error .exhausted) := by
  exact (draw_eq s call).trans (congrArg some (if_neg (exhaustedBy_iff.1 h)))

/-- **One call.** It is answered, by a candidate whose number the counter passes. -/
theorem draw_answered (h : ¬s.ExhaustedBy call) :
    ∃ d s' k, (draw call).outcome? s = some (.ok (d, s')) ∧ call.Answered d ∧ s.next ≤ k ∧
      k < s'.next ∧ d.fresh = candidate (baseOf call.name) k := by
  rw [exhaustedBy_iff, not_not] at h
  obtain ⟨hle, hnew⟩ := firstNew_spec (baseOf call.name) call.existing s.next
  have hdraw := (draw_eq s call).trans (congrArg some (if_pos h))
  refine ⟨_, _, _, hdraw, ⟨hnew, fun x => List.mem_cons, fun hvar => ?_⟩, hle, Nat.lt_succ_self _,
    rfl⟩
  exact isVariable_candidate hvar _

/-! ## Rows of calls -/

theorem drawAll_cons (call : Call) (calls : List Call) :
    drawAll (call :: calls) =
      (do let d ← draw call; let drawn ← drawAll calls; return d :: drawn) :=
  List.mapM_cons

theorem drawAll_append (before after : List Call) :
    drawAll (before ++ after) =
      (do let drawn ← drawAll before; let drawn' ← drawAll after; return drawn ++ drawn') :=
  List.mapM_append

/-- **A row of calls ends** with all names drawn, or at the first call whose numbers are used up. -/
theorem drawAll_ends (s : NameSupply) (calls : List Call) :
    (∃ drawn s', (drawAll calls).outcome? s = some (.ok (drawn, s'))) ∨
      (drawAll calls).outcome? s = some (.error .exhausted) ∧
        ∃ before call after drawn s', calls = before ++ call :: after ∧
          (drawAll before).outcome? s = some (.ok (drawn, s')) ∧ s'.ExhaustedBy call := by
  induction calls generalizing s with
  | nil => exact .inl ⟨[], s, rfl⟩
  | cons call calls ih =>
    rw [drawAll_cons]
    by_cases hfull : s.ExhaustedBy call
    · refine .inr ⟨Drawing.outcome?_bind_error (draw_exhausted hfull) _, ?_⟩
      exact ⟨[], call, calls, [], s, rfl, rfl, hfull⟩
    · obtain ⟨d, s₁, k, hdraw, -⟩ := draw_answered hfull
      rw [Drawing.outcome?_bind_ok hdraw]
      rcases ih s₁ with ⟨drawn, s', hdrawn⟩ |
        ⟨hend, before, call', after, drawn, s', rfl, hdrawn, hcall⟩
      · rw [Drawing.outcome?_bind_ok hdrawn]
        exact .inl ⟨d :: drawn, s', rfl⟩
      · refine .inr ⟨Drawing.outcome?_bind_error hend _, ?_⟩
        refine ⟨call :: before, call', after, d :: drawn, s', rfl, ?_, hcall⟩
        rw [drawAll_cons, Drawing.outcome?_bind_ok hdraw, Drawing.outcome?_bind_ok hdrawn]
        rfl

/-- No call after one whose numbers are used up is answered. -/
theorem drawAll_exhausted (hbefore : (drawAll before).outcome? s = some (.ok (drawn, s')))
    (hcall : s'.ExhaustedBy call) (after : List Call) :
    (drawAll (before ++ call :: after)).outcome? s = some (.error .exhausted) := by
  rw [drawAll_append, Drawing.outcome?_bind_ok hbefore]
  apply Drawing.outcome?_bind_error
  rw [drawAll_cons, Drawing.outcome?_bind_error (draw_exhausted hcall)]

/-- **A row of answers**, by induction on the calls: the names are candidates with numbers that the
counter passes one after the other. -/
theorem drawAll_answered (h : (drawAll calls).outcome? s = some (.ok (drawn, s'))) :
    List.Forall₂ Call.Answered calls drawn ∧ (drawn.map Drawn.fresh).Nodup ∧
      ∀ d ∈ drawn, ∃ base k, s.next ≤ k ∧ d.fresh = candidate base k := by
  induction calls generalizing s drawn with
  | nil =>
    obtain ⟨rfl, rfl⟩ : [] = drawn ∧ s = s' := by
      simpa using Prod.mk.inj (Except.ok.inj (Option.some.inj h))
    exact ⟨.nil, List.nodup_nil, by simp⟩
  | cons call calls ih =>
    rw [drawAll_cons] at h
    have hcall : ¬s.ExhaustedBy call := by
      intro hfull
      rw [Drawing.outcome?_bind_error (draw_exhausted hfull)] at h
      cases h
    obtain ⟨d, s₁, k, hdraw, hanswer, hk, hpassed, hd⟩ := draw_answered hcall
    rw [Drawing.outcome?_bind_ok hdraw] at h
    rcases drawAll_ends s₁ calls with ⟨rest, s₂, hrest⟩ | ⟨hend, -⟩
    · rw [Drawing.outcome?_bind_ok hrest] at h
      obtain ⟨rfl, rfl⟩ : d :: rest = drawn ∧ s₂ = s' := by
        simpa using Prod.mk.inj (Except.ok.inj (Option.some.inj h))
      obtain ⟨hanswers, hnodup, hnumbers⟩ := ih hrest
      have hold : d.fresh ∉ rest.map Drawn.fresh := by
        intro hmem
        obtain ⟨d', hd', heq⟩ := List.mem_map.1 hmem
        obtain ⟨base, l, hl, hcandidate⟩ := hnumbers d' hd'
        rw [hcandidate, hd, candidate_inj] at heq
        omega
      refine ⟨.cons hanswer hanswers, List.nodup_cons.2 ⟨hold, hnodup⟩, fun d' hd' => ?_⟩
      rcases List.mem_cons.1 hd' with rfl | hd'
      · exact ⟨_, k, hk, hd⟩
      · obtain ⟨base, l, hl, hcandidate⟩ := hnumbers d' hd'
        exact ⟨base, l, by omega, hcandidate⟩
    · rw [Drawing.outcome?_bind_error hend] at h
      cases h

/-- **Fresh names are fresh for ever.** Whatever row of calls a supply gets, it comes to an end. It
breaks off exactly if at some call each number left to the counter gives a name that exists. If it
does not, each call is answered by a name that did not exist and that is the one name added to those
that exist, and by that of a logic variable if it was built on one; and no name is given twice,
whatever the names are built on. -/
theorem drawAll_fresh (s : NameSupply) (calls : List Call) :
    ∃ outcome, (drawAll calls).outcome? s = some outcome ∧
      (outcome = .error .exhausted ↔
        ∃ before call after drawn s', calls = before ++ call :: after ∧
          (drawAll before).outcome? s = some (.ok (drawn, s')) ∧ s'.ExhaustedBy call) ∧
      ∀ drawn s', outcome = .ok (drawn, s') →
        List.Forall₂ Call.Answered calls drawn ∧ (drawn.map Drawn.fresh).Nodup := by
  rcases drawAll_ends s calls with ⟨drawn, s', hdrawn⟩ | ⟨hend, hfull⟩
  · refine ⟨_, hdrawn, ⟨fun h => (nomatch h), ?_⟩, fun drawn' s'' h => ?_⟩
    · rintro ⟨before, call, after, drawn', s'', rfl, hbefore, hcall⟩
      rw [drawAll_exhausted hbefore hcall] at hdrawn
      cases hdrawn
    · cases h
      obtain ⟨hanswers, hnodup, -⟩ := drawAll_answered hdrawn
      exact ⟨hanswers, hnodup⟩
  · exact ⟨_, hend, ⟨fun _ => hfull, fun _ => rfl⟩, fun drawn s' h => (nomatch h)⟩

end NameSupply

end ProofKernel
