import Mathlib.Data.List.Induction
import ProofKernel.Proofs.Lexing
import ProofKernel.Text.LineTable

/-!
# Positions are exact

The table of a source's lines says of each offset what the text itself says: how many newlines are
before it, and how many characters since the last of them.

* `Text.isBoundary_iff`, `Text.slice?_middle`: offsets of characters, and the text between two of
  them;
* `binarySearch_says`: what a search in a sorted array finds;
* `Text.exists_of_lines`: the pieces of a text between its newlines;
* `LineTable.position?_line`, `LineTable.line?_middle`: the position of an offset, and the text of a
  line;
* `LineTable.position?_eq`, `LineTable.line?_eq`: they are those of the source;
* `LineTable.position_exact`: so positions are exact, and different offsets have different ones.
-/

namespace ProofKernel

/-! ## Offsets of characters -/

namespace Text

variable {cs before after front piece : List Char} {offset : Nat}

theorem upTo_byteSize (before after : List Char) :
    upTo (before ++ after) (byteSize before) = before := by
  induction before with
  | nil =>
    cases after with
    | nil => rfl
    | cons c after =>
      have hc := c.utf8Size_pos
      rw [List.nil_append, upTo, byteSize, if_neg (by omega)]
  | cons c before ih =>
    rw [List.cons_append, upTo, byteSize, if_pos (Nat.le_add_right _ _), Nat.add_sub_cancel_left,
      ih]

theorem upTo_of_size_le (h : byteSize cs ≤ offset) : upTo cs offset = cs := by
  induction cs generalizing offset with
  | nil => rfl
  | cons c cs ih =>
    rw [byteSize] at h
    rw [upTo, if_pos (by omega), ih (by omega)]

theorem upTo_min (cs : List Char) (offset : Nat) :
    upTo cs (min offset (byteSize cs)) = upTo cs offset := by
  rcases Nat.le_total offset (byteSize cs) with h | h
  · rw [Nat.min_eq_left h]
  · rw [Nat.min_eq_right h, upTo_of_size_le (Nat.le_refl _), upTo_of_size_le h]

theorem upTo_prefix (cs : List Char) (offset : Nat) : upTo cs offset <+: cs := by
  induction cs generalizing offset with
  | nil => exact List.prefix_refl _
  | cons c cs ih =>
    unfold upTo
    split
    next => exact (List.prefix_cons_inj c).2 (ih _)
    next => exact List.nil_prefix

/-- The offsets of a text are the sizes of its beginnings. -/
theorem isBoundary_iff : isBoundary cs offset = true ↔
    ∃ before after, cs = before ++ after ∧ offset = byteSize before := by
  rw [isBoundary, beq_iff_eq]
  constructor
  · intro h
    obtain ⟨after, hafter⟩ := upTo_prefix cs offset
    exact ⟨_, after, hafter.symm, h.symm⟩
  · rintro ⟨before, after, rfl, rfl⟩
    rw [upTo_byteSize]

/-- The text between two offsets. -/
theorem slice?_middle (front piece after : List Char) :
    slice? (front ++ piece ++ after) (byteSize front) (byteSize (front ++ piece)) = some piece := by
  have hfront : isBoundary (front ++ piece ++ after) (byteSize front) = true :=
    isBoundary_iff.2 ⟨front, piece ++ after, List.append_assoc _ _ _, rfl⟩
  have hstop : isBoundary (front ++ piece ++ after) (byteSize (front ++ piece)) = true :=
    isBoundary_iff.2 ⟨front ++ piece, after, rfl, rfl⟩
  have hle : byteSize front ≤ byteSize (front ++ piece) := by
    rw [Token.byteSize_append]
    exact Nat.le_add_right _ _
  have hfrom : upTo (front ++ piece ++ after) (byteSize front) = front := by
    rw [List.append_assoc, upTo_byteSize]
  rw [slice?, if_pos ⟨hle, hfront, hstop⟩, upTo_byteSize, hfrom, List.drop_left]

/-! ## Offsets behind newlines -/

theorem newlineEnds_append (offset : Nat) (cs ds : List Char) : newlineEnds offset (cs ++ ds) =
    newlineEnds offset cs ++ newlineEnds (offset + byteSize cs) ds := by
  induction cs generalizing offset with
  | nil => rfl
  | cons c cs ih =>
    rw [List.cons_append, newlineEnds, newlineEnds, ih, byteSize, Nat.add_assoc]
    split <;> rfl

theorem length_newlineEnds (offset : Nat) (cs : List Char) :
    (newlineEnds offset cs).length = cs.count '\n' := by
  induction cs generalizing offset with
  | nil => rfl
  | cons c cs ih =>
    rw [newlineEnds, List.count_cons]
    split
    next hc => rw [List.length_cons, ih, hc, if_pos (beq_self_eq_true _)]
    next hc => rw [ih, if_neg (by simpa using hc), Nat.add_zero]

theorem mem_newlineEnds {x : Nat} (h : x ∈ newlineEnds offset cs) :
    offset < x ∧ x ≤ offset + byteSize cs := by
  induction cs generalizing offset with
  | nil => cases h
  | cons c cs ih =>
    have hc := c.utf8Size_pos
    have hrest : x ∈ newlineEnds (offset + c.utf8Size) cs →
        offset < x ∧ x ≤ offset + byteSize (c :: cs) := by
      intro h
      obtain ⟨hlt, hle⟩ := ih h
      rw [byteSize]
      omega
    rw [newlineEnds] at h
    split at h
    next =>
      rcases List.mem_cons.1 h with rfl | h
      · rw [byteSize]
        omega
      · exact hrest h
    next => exact hrest h

theorem pairwise_newlineEnds (offset : Nat) (cs : List Char) :
    (newlineEnds offset cs).Pairwise (· < ·) := by
  induction cs generalizing offset with
  | nil => exact .nil
  | cons c cs ih =>
    rw [newlineEnds]
    split
    next => exact .cons (fun x hx => (mem_newlineEnds hx).1) (ih _)
    next => exact ih _

/-! ## Lines -/

/-- A text ends within a line, or where one begins. -/
theorem exists_line (before : List Char) : ∃ front piece, before = front ++ piece ∧ '\n' ∉ piece ∧
    ∀ c ∈ front.getLast?, c = '\n' := by
  induction before using List.reverseRecOn with
  | nil => exact ⟨[], [], rfl, List.not_mem_nil, nofun⟩
  | append_singleton before c ih =>
    by_cases hc : c = '\n'
    · refine ⟨before ++ [c], [], (List.append_nil _).symm, List.not_mem_nil, ?_⟩
      rw [List.getLast?_concat]
      rintro d ⟨⟩
      exact hc
    · obtain ⟨front, piece, rfl, hpiece, hfront⟩ := ih
      refine ⟨front, piece ++ [c], List.append_assoc _ _ _, ?_, hfront⟩
      rw [List.mem_append, List.mem_singleton, not_or]
      exact ⟨hpiece, Ne.symm hc⟩

/-- A text begins within a line, or where one ends. -/
theorem exists_line_end (after : List Char) : ∃ more behind, after = more ++ behind ∧ '\n' ∉ more ∧
    ∀ c ∈ behind.head?, c = '\n' := by
  induction after with
  | nil => exact ⟨[], [], rfl, List.not_mem_nil, nofun⟩
  | cons c after ih =>
    by_cases hc : c = '\n'
    · refine ⟨[], c :: after, rfl, List.not_mem_nil, ?_⟩
      rintro d ⟨⟩
      exact hc
    · obtain ⟨more, behind, rfl, hmore, hbehind⟩ := ih
      refine ⟨c :: more, behind, rfl, ?_, hbehind⟩
      rw [List.mem_cons, not_or]
      exact ⟨Ne.symm hc, hmore⟩

/-- What stands within a line adds no newlines. -/
theorem count_line (front : List Char) (h : '\n' ∉ piece) :
    (front ++ piece).count '\n' = front.count '\n' := by
  rw [List.count_append, List.count_eq_zero.2 h, Nat.add_zero]

theorem eq_nil_of_count_eq_zero (hfront : ∀ c ∈ front.getLast?, c = '\n')
    (h : front.count '\n' = 0) : front = [] := by
  rw [List.count_eq_zero] at h
  cases hlast : front.getLast? with
  | none => exact List.getLast?_eq_none_iff.1 hlast
  | some c =>
    obtain rfl := hfront c hlast
    exact absurd (List.mem_of_getLast? hlast) h

theorem lines_newline (cs : List Char) : lines ('\n' :: cs) = [] :: lines cs := by
  rw [lines, if_pos rfl]

/-- A character that is no newline belongs to the first piece. -/
theorem lines_cons {c : Char} (hc : c ≠ '\n') (cs : List Char) :
    ∃ first rest, lines cs = first :: rest ∧ lines (c :: cs) = (c :: first) :: rest := by
  have hne : lines cs ≠ [] := by
    unfold lines
    split
    next => exact List.cons_ne_nil _ _
    next =>
      split
      next => exact List.cons_ne_nil _ _
      next => split <;> exact List.cons_ne_nil _ _
  obtain ⟨first, rest, hlines⟩ := List.exists_cons_of_ne_nil hne
  exact ⟨first, rest, hlines, by rw [lines, if_neg hc, hlines]⟩

theorem length_lines (cs : List Char) : (lines cs).length = cs.count '\n' + 1 := by
  induction cs with
  | nil => rfl
  | cons c cs ih =>
    by_cases hc : c = '\n'
    · subst hc
      rw [lines_newline, List.length_cons, ih, List.count_cons_self]
    · obtain ⟨first, rest, hlines, hcons⟩ := lines_cons hc cs
      rw [hcons, List.length_cons, List.count_cons_of_ne hc, ← ih, hlines, List.length_cons]

/-- **The pieces of a text between its newlines** stand in the text with as many newlines before
them as their index says, each behind a newline or at the start, before a newline or at the end. -/
theorem exists_of_lines {n : Nat} (h : (lines cs)[n]? = some piece) :
    ∃ front after, cs = front ++ piece ++ after ∧ '\n' ∉ piece ∧ front.count '\n' = n ∧
      (∀ c ∈ front.getLast?, c = '\n') ∧ ∀ c ∈ after.head?, c = '\n' := by
  induction cs generalizing n piece with
  | nil =>
    obtain ⟨hn, rfl⟩ := List.getElem?_eq_some_iff.1 h
    obtain rfl : n = 0 := Nat.lt_one_iff.1 hn
    exact ⟨[], [], rfl, List.not_mem_nil, rfl, nofun, nofun⟩
  | cons c cs ih =>
    have hlater : ∀ {m}, (lines cs)[m]? = some piece → (m = 0 → c = '\n') →
        ∃ front after, c :: cs = c :: front ++ piece ++ after ∧ '\n' ∉ piece ∧
          front.count '\n' = m ∧ (∀ d ∈ (c :: front).getLast?, d = '\n') ∧
          ∀ d ∈ after.head?, d = '\n' := by
      intro m hm hc
      obtain ⟨front, after, rfl, hpiece, hcount, hfront, hafter⟩ := ih hm
      refine ⟨front, after, rfl, hpiece, hcount, ?_, hafter⟩
      cases front with
      | nil =>
        rintro d ⟨⟩
        exact hc hcount.symm
      | cons e front => exact hfront
    by_cases hc : c = '\n'
    · subst hc
      rw [lines_newline] at h
      cases n with
      | zero =>
        cases h
        exact ⟨[], '\n' :: cs, rfl, List.not_mem_nil, rfl, nofun, fun d hd => by cases hd; rfl⟩
      | succ n =>
        obtain ⟨front, after, hcs, hpiece, hcount, hfront, hafter⟩ := hlater h fun _ => rfl
        rw [← hcount, ← List.count_cons_self]
        exact ⟨'\n' :: front, after, hcs, hpiece, rfl, hfront, hafter⟩
    · obtain ⟨first, rest, hlines, hcons⟩ := lines_cons hc cs
      rw [hcons] at h
      cases n with
      | zero =>
        cases h
        have hfirst : (lines cs)[0]? = some first := by rw [hlines, List.getElem?_cons_zero]
        obtain ⟨front, after, hcs, hpiece, hcount, hfront, hafter⟩ := ih hfirst
        obtain rfl := eq_nil_of_count_eq_zero hfront hcount
        refine ⟨[], after, by rw [hcs]; rfl, ?_, rfl, nofun, hafter⟩
        rw [List.mem_cons, not_or]
        exact ⟨Ne.symm hc, hpiece⟩
      | succ n =>
        have hrest : (lines cs)[n + 1]? = some piece := by
          rw [hlines]
          exact h
        obtain ⟨front, after, hcs, hpiece, hcount, hfront, hafter⟩ := hlater hrest nofun
        refine ⟨c :: front, after, hcs, hpiece, ?_, hfront, hafter⟩
        rw [List.count_cons_of_ne hc, hcount]

theorem newline_not_mem_lines {line : List Char} (h : line ∈ lines cs) : '\n' ∉ line := by
  obtain ⟨n, hn⟩ := List.mem_iff_getElem?.1 h
  obtain ⟨-, -, -, hnewline, -⟩ := exists_of_lines hn
  exact hnewline

/-- The pieces are those that a list has between two newlines. -/
theorem lines_eq_splitOn (cs : List Char) : lines cs = cs.splitOn '\n' := by
  have hjoin : ['\n'].intercalate (lines cs) = cs := by
    induction cs with
    | nil => rfl
    | cons c cs ih =>
      by_cases hc : c = '\n'
      · subst hc
        obtain ⟨first, rest, hlines⟩ := List.exists_cons_of_length_eq_add_one (length_lines cs)
        rw [lines_newline, hlines, List.intercalate_cons_cons, ← hlines, ih]
        rfl
      · obtain ⟨first, rest, hlines, hcons⟩ := lines_cons hc cs
        rw [hlines] at ih
        rw [hcons, ← ih]
        cases rest with
        | nil => rw [List.intercalate_singleton, List.intercalate_singleton]
        | cons second rest =>
          rw [List.intercalate_cons_cons, List.intercalate_cons_cons]
          rfl
  have hne : lines cs ≠ [] := List.ne_nil_of_length_eq_add_one (length_lines cs)
  rw [← List.splitOn_intercalate '\n' (fun _ => newline_not_mem_lines) hne, hjoin]

end Text

/-! ## Searching -/

/-- What the end of a search for a number says of an array: where the number is, or up to which
index the entries are smaller and from which on they are greater. -/
inductive SearchEnd.Says (xs : Array Nat) (x : Nat) : SearchEnd → Prop
  | found {i : Nat} (h : xs[i]? = some x) : Says xs x (.found i)
  | absent {i : Nat} (hi : i ≤ xs.size) (hbelow : ∀ j y, xs[j]? = some y → j < i → y < x)
      (habove : ∀ j y, xs[j]? = some y → i ≤ j → x < y) : Says xs x (.absent i)

section Search

variable {xs : Array Nat} (hxs : xs.toList.Pairwise (· < ·))

include hxs

theorem entry_lt {i j y z : Nat} (hi : xs[i]? = some y) (hj : xs[j]? = some z) (h : i < j) :
    y < z := by
  obtain ⟨hisize, rfl⟩ := Array.getElem?_eq_some_iff.1 hi
  obtain ⟨hjsize, rfl⟩ := Array.getElem?_eq_some_iff.1 hj
  exact List.pairwise_iff_getElem.1 hxs i j hisize hjsize h

theorem entry_le {i j y z : Nat} (hi : xs[i]? = some y) (hj : xs[j]? = some z) (h : i ≤ j) :
    y ≤ z := by
  rcases Nat.eq_or_lt_of_le h with rfl | h
  · exact Nat.le_of_eq (Option.some.inj (hi.symm.trans hj))
  · exact (entry_lt hxs hi hj h).le

/-- **A search in an increasing array** finds the number if it is there. What is left of the array
has smaller entries before it and greater ones behind it. -/
theorem binarySearch_says {x lo hi : Nat} (hhi : hi ≤ xs.size) (hle : lo ≤ hi)
    (hbelow : ∀ j y, xs[j]? = some y → j < lo → y < x)
    (habove : ∀ j y, xs[j]? = some y → hi ≤ j → x < y) :
    (binarySearch xs x lo hi hhi).Says xs x := by
  fun_induction binarySearch xs x lo hi hhi with
  | case1 lo hi hhi hlo mid hmid heq =>
    exact .found ((Array.getElem?_eq_getElem (hmid.trans_le hhi)).trans (congrArg some heq))
  | case2 lo hi hhi hlo mid hmid hne hlt ih =>
    have hentry : xs[mid]? = some xs[mid] := Array.getElem?_eq_getElem _
    refine ih (by omega) (fun j y hj hjmid => ?_) habove
    exact (entry_le hxs hj hentry (Nat.le_of_lt_succ hjmid)).trans_lt hlt
  | case3 lo hi hhi hlo mid hmid hne hlt ih =>
    have hentry : xs[mid]? = some xs[mid] := Array.getElem?_eq_getElem _
    have hgt : x < xs[mid] := by omega
    exact ih (by omega) hbelow fun j y hj hjmid => hgt.trans_le (entry_le hxs hentry hj hjmid)
  | case4 lo hi hhi hlo =>
    obtain rfl : lo = hi := by omega
    exact .absent hhi hbelow habove

end Search

/-! ## The table of lines -/

namespace LineTable

open Text

variable (t : LineTable) {before after front piece : List Char}

theorem starts_increasing : t.starts.toList.Pairwise (· < ·) := by
  rw [t.starts_eq]
  exact .cons (fun x hx => (mem_newlineEnds hx).1) (pairwise_newlineEnds _ _)

theorem size_starts : t.starts.size = t.source.text.toList.count '\n' + 1 := by
  rw [← Array.length_toList, t.starts_eq, List.length_cons, length_newlineEnds]

theorem size_source : t.source.size = byteSize t.source.text.toList := rfl

/-- Behind a newline, or at the start of the text, a line begins. -/
theorem starts_line (h : t.source.text.toList = front ++ after)
    (hfront : ∀ c ∈ front.getLast?, c = '\n') :
    t.starts[front.count '\n']? = some (byteSize front) := by
  rw [← Array.getElem?_toList, t.starts_eq, h, newlineEnds_append, ← List.cons_append]
  cases front using List.reverseRecOn with
  | nil => rfl
  | append_singleton front c =>
    obtain rfl := hfront c (by rw [List.getLast?_concat]; rfl)
    have hlast : newlineEnds 0 (front ++ ['\n']) =
        newlineEnds 0 front ++ [byteSize (front ++ ['\n'])] := by
      rw [newlineEnds_append, Token.byteSize_append, Nat.zero_add]
      rfl
    have hcount : (front ++ ['\n']).count '\n' = (0 :: newlineEnds 0 front).length := by
      rw [List.count_append, List.length_cons, length_newlineEnds]
      rfl
    rw [hlast, hcount, ← List.cons_append, List.append_assoc,
      List.getElem?_append_right (Nat.le_refl _), Nat.sub_self]
    rfl

/-- The lines that begin at an offset or before it are as many as the newlines before it, and one.
-/
theorem starts_le_iff (h : t.source.text.toList = before ++ after) {i x : Nat}
    (hi : t.starts[i]? = some x) : x ≤ byteSize before ↔ i ≤ before.count '\n' := by
  have hlength : (0 :: newlineEnds 0 before).length = before.count '\n' + 1 := by
    rw [List.length_cons, length_newlineEnds]
  rw [← Array.getElem?_toList, t.starts_eq, h, newlineEnds_append, ← List.cons_append] at hi
  rcases Nat.lt_or_ge i (before.count '\n' + 1) with hlt | hge
  · rw [List.getElem?_append_left (by omega)] at hi
    have hx : x ≤ byteSize before := by
      rcases List.mem_cons.1 (List.mem_of_getElem? hi) with rfl | hx
      · exact Nat.zero_le _
      · have := (mem_newlineEnds hx).2
        omega
    exact iff_of_true hx (by omega)
  · rw [List.getElem?_append_right (by omega)] at hi
    have := (mem_newlineEnds (List.mem_of_getElem? hi)).1
    exact iff_of_false (by omega) (by omega)

/-- **The search finds the line of an offset.** -/
theorem lineIndex_eq (h : t.source.text.toList = before ++ after) :
    t.lineIndex (byteSize before) = before.count '\n' := by
  obtain ⟨front, piece, hbefore, hpiece, hfront⟩ := exists_line before
  have hcount : before.count '\n' = front.count '\n' := by
    rw [hbefore, count_line front hpiece]
  have hline : t.source.text.toList = front ++ (piece ++ after) := by
    rw [h, hbefore, List.append_assoc]
  have hstart := t.starts_line hline hfront
  rw [← hcount] at hstart
  have hle := (t.starts_le_iff h hstart).2 (Nat.le_refl _)
  have hsays := binarySearch_says t.starts_increasing (x := byteSize before) (Nat.le_refl _)
    (Nat.zero_le t.starts.size) (fun j _ _ hj => absurd hj (Nat.not_lt_zero j))
    (fun j y hj hsize => by
      obtain ⟨hlt, -⟩ := Array.getElem?_eq_some_iff.1 hj
      omega)
  unfold lineIndex
  generalize binarySearch t.starts (byteSize before) 0 t.starts.size (Nat.le_refl _) = e at hsays
  cases hsays with
  | @found i hi =>
    -- no line begins between the one found and the offset
    have hi' := (t.starts_le_iff h hi).1 (Nat.le_refl _)
    refine hi'.antisymm (Nat.le_of_not_lt fun hlt => ?_)
    have := entry_lt t.starts_increasing hi hstart hlt
    omega
  | @absent i hsize hbelow habove =>
    have hlt : before.count '\n' < i := by
      refine Nat.lt_of_not_le fun hi => ?_
      have := habove _ _ hstart hi
      omega
    have hge : i ≤ before.count '\n' + 1 := by
      refine Nat.le_of_not_lt fun hi => ?_
      have hentry : t.starts[before.count '\n' + 1]? = some t.starts[before.count '\n' + 1] :=
        Array.getElem?_eq_getElem (by omega)
      have hbefore := hbelow _ _ hentry hi
      have := (t.starts_le_iff h hentry).1 hbefore.le
      omega
    dsimp only
    omega

/-- **The position of an offset** is found by the line that it is in. -/
theorem position?_line (h : t.source.text.toList = front ++ piece ++ after) (hpiece : '\n' ∉ piece)
    (hfront : ∀ c ∈ front.getLast?, c = '\n') :
    t.position? (byteSize (front ++ piece)) = some (front.count '\n' + 1, piece.length + 1) := by
  have hcount := count_line front hpiece
  have hmin : min (byteSize (front ++ piece)) t.source.size = byteSize (front ++ piece) := by
    rw [size_source, h, Token.byteSize_append (front ++ piece)]
    exact Nat.min_eq_left (Nat.le_add_right _ _)
  have hindex : t.lineIndex (byteSize (front ++ piece)) = front.count '\n' :=
    (t.lineIndex_eq h).trans hcount
  have hstart := t.starts_line (h.trans (List.append_assoc _ _ _)) hfront
  have hslice : slice? t.source.text.toList (byteSize front) (byteSize (front ++ piece)) =
      some piece := by
    rw [h, slice?_middle]
  unfold position?
  dsimp only
  rw [hmin, hindex, hstart, Option.bind_eq_bind, Option.bind_some, hslice]
  rfl

/-- **The text of a line** is what stands between the newlines around it. -/
theorem line?_middle (h : t.source.text.toList = front ++ piece ++ after) (hpiece : '\n' ∉ piece)
    (hfront : ∀ c ∈ front.getLast?, c = '\n') (hafter : ∀ c ∈ after.head?, c = '\n') :
    t.line? (front.count '\n' + 1) = some (.ofList piece) := by
  have hcount := count_line front hpiece
  have hsize : t.starts.size = front.count '\n' + after.count '\n' + 1 := by
    rw [size_starts, h, List.count_append, hcount]
  have hstart := t.starts_line (h.trans (List.append_assoc _ _ _)) hfront
  have hslice : slice? t.source.text.toList (byteSize front) (byteSize (front ++ piece)) =
      some piece := by
    rw [h, slice?_middle]
  have hthere : ¬ (front.count '\n' + 1 = 0 ∨ t.starts.size < front.count '\n' + 1) := by omega
  rw [line?, if_neg hthere, Nat.add_sub_cancel, hstart, Option.bind_eq_bind, Option.bind_some]
  cases after with
  | nil =>
    have hnext : t.starts[front.count '\n' + 1]? = none :=
      Array.getElem?_eq_none (by rw [hsize]; exact Nat.le_refl _)
    have hend : t.source.size = byteSize (front ++ piece) := by
      rw [size_source, h, List.append_nil]
    rw [hnext]
    dsimp only
    rw [hend, hslice]
    rfl
  | cons c after =>
    obtain rfl := hafter c rfl
    have hnext : t.starts[front.count '\n' + 1]? = some (byteSize (front ++ piece) + 1) := by
      have hbehind : t.source.text.toList = (front ++ piece ++ ['\n']) ++ after := by
        rw [h, List.append_assoc _ ['\n'], List.singleton_append]
      have hnewline := t.starts_line hbehind (by simp)
      rw [List.count_append, hcount, Token.byteSize_append (front ++ piece)] at hnewline
      exact hnewline
    have hlt : byteSize front < byteSize (front ++ piece) + 1 := by
      rw [Token.byteSize_append]
      omega
    rw [hnext]
    dsimp only
    rw [if_pos hlt, Nat.add_sub_cancel, hslice]
    rfl

/-! ### The positions of the source -/

theorem position?_min (offset : Nat) :
    t.position? (min offset t.source.size) = t.position? offset := by
  unfold position?
  rw [Nat.min_assoc, Nat.min_self]

/-- **The table gives the positions of the source**, and none where there is none. -/
theorem position?_eq (offset : Nat) : t.position? offset = t.source.position? offset := by
  rw [← t.position?_min, Source.position?]
  cases hboundary : isBoundary t.source.text.toList (min offset t.source.size) with
  | false =>
    have hslice : ∀ start, slice? t.source.text.toList start (min offset t.source.size) = none := by
      intro start
      simp [slice?, hboundary]
    unfold position?
    dsimp only
    rw [Nat.min_assoc, Nat.min_self, if_neg Bool.false_ne_true]
    cases t.starts[t.lineIndex (min offset t.source.size)]? with
    | none => rfl
    | some start => rw [Option.bind_eq_bind, Option.bind_some, hslice]; rfl
  | true =>
    obtain ⟨before, after, hcs, hsize⟩ := isBoundary_iff.1 hboundary
    obtain ⟨front, piece, rfl, hpiece, hfront⟩ := exists_line before
    have hbefore : upTo t.source.text.toList offset = front ++ piece := by
      rw [← upTo_min, ← t.size_source, hsize, hcs, upTo_byteSize]
    have hcount := count_line front hpiece
    have hcolumn : (front ++ piece).reverse.takeWhile (· ≠ '\n') = piece.reverse := by
      have hline : ∀ c ∈ piece.reverse, decide (c ≠ '\n') = true := by
        intro c hc
        rw [decide_eq_true_eq]
        rintro rfl
        exact hpiece (List.mem_reverse.1 hc)
      have hstart : front.reverse.takeWhile (· ≠ '\n') = [] := by
        rw [List.takeWhile_eq_nil_iff]
        intro hlength
        have hlast := List.head?_eq_getElem? (l := front.reverse)
        rw [List.head?_reverse, List.getElem?_eq_getElem hlength] at hlast
        simpa using hfront _ hlast
      rw [List.reverse_append, List.takeWhile_append_of_pos hline, hstart, List.append_nil]
    rw [hsize, t.position?_line hcs hpiece hfront, if_pos rfl, Source.position, hbefore, hcount,
      hcolumn, List.length_reverse]

/-- **The table gives the lines of the source.** -/
theorem line?_eq (n : Nat) : t.line? n = some (t.source.line n) := by
  cases n with
  | zero => rfl
  | succ n =>
    have hsize : t.starts.size = (lines t.source.text.toList).length := by
      rw [size_starts, length_lines]
    rw [Source.line]
    cases hpiece : (lines t.source.text.toList)[n]? with
    | none =>
      have hlength := List.getElem?_eq_none_iff.1 hpiece
      rw [line?, if_pos (.inr (by omega))]
      rfl
    | some piece =>
      obtain ⟨front, after, hcs, hnewline, rfl, hfront, hafter⟩ := exists_of_lines hpiece
      exact t.line?_middle hcs hnewline hfront hafter

/-! ### Exactness -/

/-- An offset is at most behind the last character of its line. -/
theorem column_le (h : before <+: t.source.text.toList) {line column : Nat}
    (hposition : t.position? (byteSize before) = some (line, column)) :
    ∃ text, t.line? line = some text ∧ column ≤ text.length + 1 := by
  obtain ⟨after, hcs⟩ := h
  obtain ⟨front, piece, rfl, hpiece, hfront⟩ := exists_line before
  obtain ⟨more, behind, rfl, hmore, hbehind⟩ := exists_line_end after
  have hline : t.source.text.toList = front ++ (piece ++ more) ++ behind := by
    rw [← hcs, List.append_assoc, List.append_assoc, List.append_assoc]
  have hwhole : '\n' ∉ piece ++ more := by
    rw [List.mem_append, not_or]
    exact ⟨hpiece, hmore⟩
  rw [t.position?_line hcs.symm hpiece hfront] at hposition
  cases hposition
  refine ⟨_, t.line?_middle hline hwhole hfront hbehind, ?_⟩
  rw [String.length_ofList, List.length_append]
  omega

/-- No two offsets have the same position. -/
theorem position?_injective {before before' : List Char} (h : before <+: t.source.text.toList)
    (h' : before' <+: t.source.text.toList)
    (hposition : t.position? (byteSize before) = t.position? (byteSize before')) :
    before = before' := by
  obtain ⟨after, hcs⟩ := h
  obtain ⟨after', hcs'⟩ := h'
  obtain ⟨front, piece, rfl, hpiece, hfront⟩ := exists_line before
  obtain ⟨front', piece', rfl, hpiece', hfront'⟩ := exists_line before'
  rw [t.position?_line hcs.symm hpiece hfront, t.position?_line hcs'.symm hpiece' hfront']
    at hposition
  simp only [Option.some.injEq, Prod.mk.injEq, Nat.add_right_cancel_iff] at hposition
  obtain ⟨hline, hcolumn⟩ := hposition
  rw [List.append_assoc] at hcs hcs'
  -- both lines begin at the same offset
  have hstart := t.starts_line hcs.symm hfront
  have hstart' := t.starts_line hcs'.symm hfront'
  rw [hline, hstart'] at hstart
  have hfronts : front' = front := by
    rw [← upTo_byteSize front (piece ++ after), hcs, ← Option.some.inj hstart, ← hcs',
      upTo_byteSize]
  subst hfronts
  have hrest := List.append_cancel_left (hcs.trans hcs'.symm)
  rw [(List.append_inj hrest hcolumn).1]

/-- **Positions are exact.** An offset behind any characters of a source has as its line the number
of newlines before it, counted from one, and as its column the number of characters behind the last
of these newlines, or behind the start, counted from one. The text of a line is the piece of the
source of its number. A column is at most by one greater than the number of characters of its line,
no two offsets have the same position, and all this is said of the source's own positions and lines.
-/
theorem position_exact :
    (∀ before, before <+: t.source.text.toList → ∃ front piece, before = front ++ piece ∧
      (front = [] ∨ front.getLast? = some '\n') ∧ '\n' ∉ piece ∧
      t.position? (byteSize before) = some (1 + before.count '\n', 1 + piece.length)) ∧
    (∀ n, t.line? (n + 1) =
      some (.ofList ((t.source.text.toList.splitOn '\n')[n]?.getD []))) ∧
    (∀ before, before <+: t.source.text.toList → ∀ line column,
      t.position? (byteSize before) = some (line, column) →
        ∃ text, t.line? line = some text ∧ column ≤ text.length + 1) ∧
    (∀ before before', before <+: t.source.text.toList → before' <+: t.source.text.toList →
      byteSize before ≠ byteSize before' →
        t.position? (byteSize before) ≠ t.position? (byteSize before')) ∧
    (∀ offset, t.position? offset = t.source.position? offset) ∧
    ∀ n, t.line? n = some (t.source.line n) := by
  refine ⟨fun before h => ?_, fun n => ?_, fun before h line column => t.column_le h,
    fun before before' h h' hne hposition => ?_, t.position?_eq, t.line?_eq⟩
  · obtain ⟨after, hcs⟩ := h
    obtain ⟨front, piece, rfl, hpiece, hfront⟩ := exists_line before
    have hstart : front = [] ∨ front.getLast? = some '\n' := by
      cases hlast : front.getLast? with
      | none => exact .inl (List.getLast?_eq_none_iff.1 hlast)
      | some c => exact .inr (congrArg some (hfront c hlast))
    refine ⟨front, piece, rfl, hstart, hpiece, ?_⟩
    rw [t.position?_line hcs.symm hpiece hfront, count_line front hpiece, Nat.add_comm 1,
      Nat.add_comm 1]
  · rw [t.line?_eq, Source.line, lines_eq_splitOn]
  · exact hne (congrArg byteSize (t.position?_injective h h' hposition))

/-- Positions in a text with wide characters, an empty line and a newline at its end. -/
theorem position_exact_wide :
    let t := (⟨"<input>", "é→\n\nx\n"⟩ : Source).lineTable
    let before := "é→\n\n".toList
    let whole := "é→\n\nx\n".toList
    (before <+: whole ∧ whole <+: whole ∧ byteSize before ≠ byteSize whole) ∧
    t.position? (byteSize before) = some (3, 1) ∧ t.position? (byteSize whole) = some (4, 1) ∧
    t.position? (byteSize before) ≠ t.position? (byteSize whole) ∧
    ∃ text, t.line? 3 = some text ∧ 1 ≤ text.length + 1 := by
  intro t before whole
  have hbefore : before <+: whole := by decide
  have hposition : t.position? (byteSize before) = some (3, 1) := by decide +kernel
  have hsizes : byteSize before ≠ byteSize whole := by decide
  obtain ⟨-, -, hcolumn, hinjective, -⟩ := position_exact t
  exact ⟨⟨hbefore, List.prefix_refl _, hsizes⟩, hposition, by decide +kernel,
    hinjective before whole hbefore (List.prefix_refl _) hsizes,
    hcolumn before hbefore 3 1 hposition⟩

end LineTable

end ProofKernel
