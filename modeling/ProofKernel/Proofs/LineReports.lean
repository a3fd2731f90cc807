import Mathlib.Data.List.DropRight
import ProofKernel.Proofs.Positions
import ProofKernel.Proofs.RememberedParses
import ProofKernel.Report

/-!
# Reports line by line

The lines of a text share one session, which remembers what it has read. Still the report of a text
is made of the reports of its lines, each as if it were alone.

* `Report.entries`: the lines of a text that are not skipped, without the blanks around them, with
  their numbers;
* `Report.lineReport`: the report of a line, in no session;
* `Report.lineOf_run`, `Report.linesFrom_run`: a session gives this report for a line, and for each
  of several lines;
* `Report.process_eq`, `Report.process_entry`: a text gives the reports of its entries, and an entry
  alone gives its own;
* `Report.process_linewise`: so a text has a report if each of its entries has one, and it is made
  of theirs.
-/

namespace ProofKernel

/-! ## Results of lists -/

section Results

variable {ε β γ : Type} {f : β → Except ε γ} {xs : List β}

/-- A list has results if each element has. -/
theorem mapM_eq_ok_iff {ys : List γ} :
    xs.mapM f = .ok ys ↔ List.Forall₂ (fun x y => f x = .ok y) xs ys := by
  induction xs generalizing ys with
  | nil =>
    rw [List.mapM_nil, List.forall₂_nil_left_iff]
    exact ⟨fun h => by cases h; rfl, fun h => h ▸ rfl⟩
  | cons x xs ih =>
    rw [List.mapM_cons, List.forall₂_cons_left_iff]
    cases hx : f x with
    | error e => exact ⟨nofun, fun ⟨_, _, h, _⟩ => by cases h⟩
    | ok y =>
      cases hxs : xs.mapM f with
      | error e =>
        refine ⟨nofun, fun ⟨_, zs, _, h, _⟩ => ?_⟩
        rw [ih.2 h] at hxs
        cases hxs
      | ok zs =>
        constructor
        · intro h
          cases h
          exact ⟨y, zs, rfl, ih.1 hxs, rfl⟩
        · rintro ⟨_, zs', h, hzs, rfl⟩
          rw [ih.2 hzs] at hxs
          cases h
          cases hxs
          rfl

/-- Otherwise the error of the list is that of its first element without a result. -/
theorem mapM_eq_error_iff {e : ε} :
    xs.mapM f = .error e ↔ ∃ before x after, xs = before ++ x :: after ∧
      (∀ b ∈ before, ∃ y, f b = .ok y) ∧ f x = .error e := by
  induction xs with
  | nil => exact ⟨nofun, fun ⟨before, _, _, h, _⟩ => by cases before <;> cases h⟩
  | cons x xs ih =>
    rw [List.mapM_cons]
    cases hx : f x with
    | error e' =>
      constructor
      · intro h
        cases h
        exact ⟨[], x, xs, rfl, nofun, hx⟩
      · rintro ⟨before, y, after, heq, hbefore, hy⟩
        cases before with
        | nil =>
          cases heq
          exact congrArg Except.error (Except.error.inj (hx.symm.trans hy))
        | cons b before =>
          cases heq
          obtain ⟨z, hz⟩ := hbefore x List.mem_cons_self
          rw [hx] at hz
          cases hz
    | ok y =>
      have hrest : (do let y ← Except.ok y; let ys ← xs.mapM f; pure (y :: ys)) =
          (Except.error e : Except ε (List γ)) ↔ xs.mapM f = .error e := by
        cases xs.mapM f with
        | error e' => exact ⟨fun h => by cases h; rfl, fun h => by cases h; rfl⟩
        | ok ys => exact ⟨nofun, nofun⟩
      rw [hrest, ih]
      constructor
      · rintro ⟨before, z, after, rfl, hbefore, hz⟩
        exact ⟨x :: before, z, after, rfl, List.forall_mem_cons.2 ⟨⟨y, hx⟩, hbefore⟩, hz⟩
      · rintro ⟨before, z, after, heq, hbefore, hz⟩
        cases before with
        | nil =>
          cases heq
          rw [hx] at hz
          cases hz
        | cons b before =>
          cases heq
          exact ⟨before, z, after, rfl, (List.forall_mem_cons.1 hbefore).2, hz⟩

theorem mapM_congr {g : β → Except ε γ} (h : ∀ x ∈ xs, f x = g x) : xs.mapM f = xs.mapM g := by
  induction xs with
  | nil => rfl
  | cons x xs ih =>
    rw [List.mapM_cons, List.mapM_cons, h x List.mem_cons_self,
      ih fun y hy => h y (List.mem_cons_of_mem _ hy)]

theorem mapM_map {δ : Type} {g : γ → δ} :
    xs.mapM (fun x => (f x).map g) = (xs.mapM f).map (List.map g) := by
  induction xs with
  | nil => rfl
  | cons x xs ih =>
    rw [List.mapM_cons, List.mapM_cons, ih]
    cases f x with
    | error e => rfl
    | ok y => cases xs.mapM f <;> rfl

variable {r : Except ε β}

theorem map_eq_ok_iff {g : β → γ} {y : γ} : r.map g = .ok y ↔ ∃ x, r = .ok x ∧ y = g x := by
  cases r with
  | error e => exact ⟨nofun, nofun⟩
  | ok x =>
    refine ⟨fun h => ⟨x, rfl, (Except.ok.inj h).symm⟩, ?_⟩
    rintro ⟨_, h, rfl⟩
    cases h
    rfl

theorem map_eq_error_iff {g : β → γ} {e : ε} : r.map g = .error e ↔ r = .error e := by
  cases r with
  | error e' =>
    exact ⟨fun h => congrArg _ (Except.error.inj h), fun h => congrArg _ (Except.error.inj h)⟩
  | ok x => exact ⟨nofun, nofun⟩

theorem mapError_eq_ok_iff {g : ε → γ} {x : β} : r.mapError g = .ok x ↔ r = .ok x := by
  cases r with
  | error e => exact ⟨nofun, nofun⟩
  | ok x' => exact ⟨fun h => congrArg _ (Except.ok.inj h), fun h => congrArg _ (Except.ok.inj h)⟩

theorem mapError_eq_error_iff {g : ε → γ} {e : γ} :
    r.mapError g = .error e ↔ ∃ e', r = .error e' ∧ e = g e' := by
  cases r with
  | error e' =>
    refine ⟨fun h => ⟨e', rfl, (Except.error.inj h).symm⟩, ?_⟩
    rintro ⟨_, h, rfl⟩
    cases h
    rfl
  | ok x => exact ⟨nofun, nofun⟩

end Results

/-! ## Lines of texts -/

namespace Text

theorem lines_eq_singleton {cs : List Char} (h : '\n' ∉ cs) : lines cs = [cs] := by
  induction cs with
  | nil => rfl
  | cons c cs ih =>
    rw [List.mem_cons, not_or] at h
    rw [lines, if_neg (Ne.symm h.1), ih h.2]

theorem trim_eq (cs : List Char) : trim cs = (cs.dropWhile isBlank).rdropWhile isBlank := rfl

theorem trim_subset (cs : List Char) : trim cs ⊆ cs := fun _ h =>
  (List.dropWhile_suffix _).subset ((List.rdropWhile_prefix _ _).subset h)

/-- What is left without the blanks at both ends has none there. -/
theorem trim_trim (cs : List Char) : trim (trim cs) = trim cs := by
  -- the first character stays, as what is left is a prefix
  have hstart : (trim cs).dropWhile isBlank = trim cs := by
    rw [List.dropWhile_eq_self_iff]
    intro hlen
    have hprefix : trim cs <+: cs.dropWhile isBlank := List.rdropWhile_prefix _ _
    have hlen' : 0 < (cs.dropWhile isBlank).length := Nat.lt_of_lt_of_le hlen hprefix.length_le
    rw [List.IsPrefix.getElem hprefix hlen]
    exact List.dropWhile_get_zero_not _ _ hlen'
  rw [trim_eq (trim cs), hstart, trim_eq, List.rdropWhile_idempotent]

end Text

namespace Report

open Session

/-- The lines that are not skipped, without the blanks around them, numbered from a number on. -/
def entriesFrom (number : Nat) (lines : List (List Char)) : List (Nat × String) :=
  ((lines.zipIdx number).map fun (cs, n) => (n, String.ofList (Text.trim cs))).filter
    fun entry => !isSkipped entry.2

/-- **The entries of a text**: its lines that are neither blank nor comments, without the blanks
around them, each with its number, counted from one. -/
def entries (text : String) : List (Nat × String) := entriesFrom 1 (Text.lines text.toList)

theorem entriesFrom_cons (number : Nat) (cs : List Char) (rest : List (List Char)) :
    entriesFrom number (cs :: rest) = if isSkipped (String.ofList (Text.trim cs)) then
      entriesFrom (number + 1) rest
      else (number, String.ofList (Text.trim cs)) :: entriesFrom (number + 1) rest := by
  rw [entriesFrom, List.zipIdx_cons, List.map_cons, List.filter_cons]
  cases isSkipped (String.ofList (Text.trim cs)) <;> rfl

/-- An entry alone is the text with this entry only. -/
theorem entries_of_mem {text : String} {entry : Nat × String} (h : entry ∈ entries text) :
    entries entry.2 = [(1, entry.2)] := by
  obtain ⟨hmem, hskip⟩ := List.mem_filter.1 h
  obtain ⟨⟨cs, n⟩, hcs, rfl⟩ := List.mem_map.1 hmem
  have hline : cs ∈ Text.lines text.toList := List.fst_mem_of_mem_zipIdx hcs
  have hnewline : '\n' ∉ Text.trim cs := fun h =>
    Text.newline_not_mem_lines hline (Text.trim_subset cs h)
  have hkept : isSkipped (String.ofList (Text.trim cs)) = false := by simpa using hskip
  show entriesFrom 1 (Text.lines (String.ofList (Text.trim cs)).toList) = _
  rw [String.toList_ofList, Text.lines_eq_singleton hnewline, entriesFrom_cons, Text.trim_trim,
    if_neg (by simp [hkept])]
  rfl

/-! ## One line -/

/-- **The report of a line**, in no session: the term that it is read as with the standard
operators, and the type of this term alone. -/
def lineReport (line : String) : Except LineError String :=
  match Term.parse .standard SessionConfig.standard.maxDepth line with
  | .error e => .error (.parse e)
  | .ok m => match (TypeEnv.standard.infer m .start).1 with
    | .error e => .error (.type e)
    | .ok t => .ok s!"{m.pretty .standard} : {t.render typeLabel}"

/-- A session that reads and types as a new one does, whatever it remembers. -/
structure Ready (s : Session) : Prop where
  faithful : s.Faithful
  alike : (start .standard).Alike s

theorem ready_start : Ready (start .standard) := ⟨faithful_start _, ⟨rfl, rfl, rfl⟩⟩

variable {s : Session}

/-- Typing gives the type of the term alone, and changes nothing but the log. -/
theorem Ready.inferType (h : Ready s) (m : Node) : ∃ s', Ready s' ∧
    (Session.inferType m).run s = ((TypeEnv.standard.infer m.plain .start).1, s') := by
  refine ⟨((Session.inferType m).run s).2,
    ⟨h.faithful, ⟨h.alike.table, h.alike.maxDepth, h.alike.types⟩⟩, Prod.ext ?_ rfl⟩
  show (s.types.infer m .start).1 = _
  rw [TypeEnv.infer_plain, h.alike.types]
  rfl

/-- **A session gives the report of the line**, whatever it has read before, and stays ready. -/
theorem lineOf_run (h : Ready s) (line : String) :
    ((lineOf line).run s).1 = lineReport line ∧ Ready ((lineOf line).run s).2 := by
  obtain ⟨hread, hfaithful, halike⟩ := h.faithful.parse line
  cases hrun : (Session.parse line).run s with
  | mk r s₁ =>
  rw [hrun] at hread hfaithful halike
  have hready : Ready s₁ := ⟨hfaithful, h.alike.trans halike⟩
  rw [h.alike.table, h.alike.maxDepth] at hread
  have hparse := run_mapError hrun LineError.parse
  cases r with
  | error e =>
    have hterm : Term.parse .standard SessionConfig.standard.maxDepth line = .error e := hread.symm
    rw [lineOf, run_bind_error hparse, lineReport, hterm]
    exact ⟨rfl, hready⟩
  | ok m =>
    have hterm : Term.parse .standard SessionConfig.standard.maxDepth line = .ok m.plain :=
      hread.symm
    obtain ⟨s₂, hready', hinfer⟩ := hready.inferType m
    have htype := run_mapError hinfer LineError.type
    rw [lineOf, run_bind_ok hparse, lineReport, hterm]
    dsimp only
    cases ht : (TypeEnv.standard.infer m.plain .start).1 with
    | error e =>
      rw [ht] at htype
      rw [run_bind_error htype]
      exact ⟨rfl, hready'⟩
    | ok t =>
      rw [ht] at htype
      rw [run_bind_ok htype, Term.pretty_plain]
      refine ⟨?_, hready'⟩
      show Except.ok s!"{m.pretty s₂.table} : {t.render typeLabel}" = _
      rw [hready'.alike.table]
      rfl

/-- **A session gives each line its report**, under the number of the line, by induction on the
lines: after each of them the session is ready for the next one. -/
theorem linesFrom_run (h : Ready s) (number : Nat) (lines : List (List Char)) :
    ((linesFrom number lines).run s).1 = (entriesFrom number lines).mapM fun entry =>
      (lineReport entry.2).mapError (ReportError.mk entry.1) := by
  induction lines generalizing number s with
  | nil => rfl
  | cons cs rest ih =>
    rw [linesFrom, entriesFrom_cons]
    split
    next => exact ih h (number + 1)
    next =>
      obtain ⟨hresult, hready⟩ := lineOf_run h (String.ofList (Text.trim cs))
      cases hrun : (lineOf (String.ofList (Text.trim cs))).run s with
      | mk r s₁ =>
      rw [hrun] at hresult hready
      have hfirst := run_mapError hrun (ReportError.mk number)
      rw [List.mapM_cons, ← hresult]
      cases r with
      | error e =>
        rw [run_bind_error hfirst]
        rfl
      | ok out =>
        rw [run_bind_ok hfirst]
        show (((linesFrom (number + 1) rest) >>= fun outs => pure (out :: outs) :
          Attempt ReportError (List String)).run s₁).1 = _
        have hrest := ih hready (number + 1)
        cases hrun' : (linesFrom (number + 1) rest).run s₁ with
        | mk r' s₂ =>
        rw [hrun'] at hrest
        rw [← hrest]
        cases r' with
        | error e => rw [run_bind_error hrun']; rfl
        | ok outs => rw [run_bind_ok hrun']; rfl

/-! ## Texts -/

/-- The report of a text is made of the reports of its entries. -/
theorem process_eq (text : String) : (process text).1 = (entries text).mapM fun entry =>
    (lineReport entry.2).mapError (ReportError.mk entry.1) :=
  linesFrom_run ready_start 1 _

/-- The report of an entry alone is that of its line, which is the first one there. -/
theorem process_entry {text : String} {entry : Nat × String} (h : entry ∈ entries text) :
    (process entry.2).1 = ((lineReport entry.2).mapError (ReportError.mk 1)).map ([·]) := by
  rw [process_eq, entries_of_mem h, List.mapM_cons, List.mapM_nil]
  cases lineReport entry.2 <;> rfl

/-- The reports of the entries alone, each error under the number of its line, put together. -/
theorem process_eq_entries (text : String) : (process text).1 =
    ((entries text).mapM fun entry =>
      (process entry.2).1.mapError fun e => { e with line := entry.1 }).map List.flatten := by
  have halone : ∀ entry ∈ entries text,
      ((process entry.2).1.mapError fun e => { e with line := entry.1 }) =
        ((lineReport entry.2).mapError (ReportError.mk entry.1)).map ([·]) := fun entry h => by
    rw [process_entry h]
    cases lineReport entry.2 <;> rfl
  rw [mapM_congr halone, mapM_map, process_eq]
  cases (entries text).mapM fun entry => (lineReport entry.2).mapError (ReportError.mk entry.1) with
  | error e => rfl
  | ok outs => exact congrArg Except.ok (List.flatMap_singleton' outs).symm

/-- **The report of a text is line by line.** A text has a report exactly if each of its entries has
one alone, and then its report is theirs, one after the other. Otherwise its error is the one that
the first entry without a report has alone, under the number of its line. -/
theorem process_linewise (text : String) :
    (∀ outputs, (process text).1 = .ok outputs ↔
      ∃ parts, outputs = parts.flatten ∧
        List.Forall₂ (fun entry part => (process entry.2).1 = .ok part) (entries text) parts) ∧
    (∀ e, (process text).1 = .error e ↔
      ∃ before entry after alone, entries text = before ++ entry :: after ∧
        (∀ b ∈ before, ∃ part, (process b.2).1 = .ok part) ∧
        (process entry.2).1 = .error alone ∧ e = { alone with line := entry.1 }) := by
  rw [process_eq_entries]
  constructor
  · intro outputs
    rw [map_eq_ok_iff]
    simp only [mapM_eq_ok_iff, mapError_eq_ok_iff, and_comm]
  · intro e
    rw [map_eq_error_iff]
    simp only [mapM_eq_error_iff, mapError_eq_ok_iff, mapError_eq_error_iff]
    constructor
    · rintro ⟨before, entry, after, heq, hbefore, alone, h, rfl⟩
      exact ⟨before, entry, after, alone, heq, hbefore, h, rfl⟩
    · rintro ⟨before, entry, after, alone, heq, hbefore, h, rfl⟩
      exact ⟨before, entry, after, heq, hbefore, alone, h, rfl⟩

end Report

end ProofKernel
