import StagedJoin.Compiler
import StagedJoin.Diagnostic.Rendering
import StagedJoin.Proofs.Query.Reachable
import StagedJoin.Proofs.Text.Trimming

/-!
What the report on a located failure shows. The line printed for it is counted in the
invocation, which is written out anew for the report, but the place is one in the
caller's text: the report points at a part of the invocation only if the place happens
to lie inside it.
-/
namespace StagedJoin

/-! ## Lines of a text -/

namespace Text

variable {s : List Char}

theorem splitLines_cons {c : Char} (rest : List Char) (hnewline : c ≠ '\n')
    (hreturn : c = '\r' → rest.head? ≠ some '\n') :
    splitLines (c :: rest) = match splitLines rest with
      | [] => [[c]]
      | line :: lines => (c :: line) :: lines := by
  have hpair : ∀ tail, c = '\r' → rest = '\n' :: tail → False := by
    rintro tail hc rfl
    exact hreturn hc rfl
  exact splitLines.eq_4 c rest hnewline hpair

/-- A text without newlines is one line. -/
theorem splitLines_of_not_mem (hne : s ≠ []) (h : '\n' ∉ s) : splitLines s = [s] := by
  induction s with
  | nil => exact absurd rfl hne
  | cons c rest ih =>
    rw [List.mem_cons, not_or] at h
    have hreturn : c = '\r' → rest.head? ≠ some '\n' :=
      fun _ hhead => h.2 (List.mem_of_mem_head? hhead)
    rw [splitLines_cons rest (fun hc => h.1 hc.symm) hreturn]
    cases rest with
    | nil => rfl
    | cons d tail => rw [ih (List.cons_ne_nil d tail) h.2]

/-- The first line begins as the text does. -/
theorem exists_first_line {c : Char} (rest : List Char) (hnewline : c ≠ '\n') (hreturn : c ≠ '\r') :
    ∃ line, (splitLines (c :: rest))[0]? = some (c :: line) := by
  rw [splitLines_cons rest hnewline (fun h => absurd h hreturn)]
  cases splitLines rest with
  | nil => exact ⟨[], rfl⟩
  | cons line lines => exact ⟨line, rfl⟩

end Text

/-! ## Rows of a report -/

namespace Report

variable {r : Report} {text : String} {line column : Nat}

/-- The row with a line of source and the row that underlines a fragment of it. -/
def shownRows (line : Nat) (shown : String) (offset : Nat) (text : String) : List String :=
  let width := max (toString line).length 2
  [" " ++ Text.padLeft width (toString line) ++ " │ " ++ shown,
    " " ++ Text.padLeft width "" ++ " │ " ++ Text.spaces offset ++ marker text]

/-- The line of source is not blank, and what is underlined begins inside it. -/
def PointsInside (r : Report) : Prop :=
  ∃ text line column, r.fragment = .statement text line column ∧
    ¬ Text.Blank (r.sourceLine text line).toList ∧
    r.markerOffset column < (r.sourceLine text line).length

theorem shownRows_infix_lines (h : r.fragment = .statement text line column) :
    shownRows line (r.sourceLine text line) (r.markerOffset column) text <:+: r.lines := by
  have hrows : shownRows line (r.sourceLine text line) (r.markerOffset column) text <:+:
      r.fragmentLines := by
    rw [fragmentLines, h]
    exact ⟨[_], _, rfl⟩
  have hlines : r.fragmentLines <:+: r.lines := by
    rw [lines, List.append_assoc _ _ (List.map _ r.notes)]
    exact List.infix_append _ _ _
  exact hrows.trans hlines

end Report

namespace Diagnostic

/-- The lines of a report stand together, indented by its depth. -/
theorem infix_causeLines {causes : List Report} {r : Report} {k : Nat} (depth : Nat)
    (h : causes[k]? = some r) :
    r.lines.map (Text.spaces (2 * (depth + k)) ++ ·) <:+: causeLines depth causes := by
  induction causes generalizing depth k with
  | nil => cases h
  | cons first rest ih =>
    cases k with
    | zero =>
      cases h
      exact ⟨[_], _, rfl⟩
    | succ k =>
      have hrest := ih (depth + 1) h
      rw [Nat.add_assoc, Nat.add_comm 1 k] at hrest
      exact hrest.trans (List.suffix_append _ _).isInfix

theorem infix_lines {d : Diagnostic} {r : Report} {k : Nat} (h : d.reports[k]? = some r) :
    r.lines.map (Text.spaces (2 * k) ++ ·) <:+: d.lines := by
  cases k with
  | zero =>
    cases h
    have hid : d.report.lines.map (Text.spaces 0 ++ ·) = d.report.lines := by
      have hempty : Text.spaces 0 = "" := rfl
      simp [hempty]
    rw [Nat.mul_zero, hid]
    exact (List.prefix_append _ _).isInfix
  | succ k =>
    have hcauses : d.causes[k]? = some r := h
    have hlines := infix_causeLines 1 hcauses
    rw [Nat.add_comm 1 k] at hlines
    exact hlines.trans (List.suffix_append _ _).isInfix

end Diagnostic

/-! ## Failures of invocations -/

/-- A cause that is not handed on points at no place of its own. -/
theorem Failure.fragment_ne_statement {f : Failure} (h : ∀ d, f ≠ .reported d)
    {r : Report} (hr : r ∈ f.diagnostic.reports) (text : String) (line column : Nat) :
    r.fragment ≠ .statement text line column := by
  have hwording : ∀ w : Wording, r ∈ w.diagnostic.reports →
      r.fragment ≠ .statement text line column := by
    intro w hw
    cases List.mem_singleton.mp hw
    exact fun hfragment => nomatch hfragment
  have hwithout : ∀ report : Report, report.fragment = .absent → r ∈ [report] →
      r.fragment ≠ .statement text line column := by
    intro report habsent hreport
    cases List.mem_singleton.mp hreport
    rw [habsent]
    exact fun hfragment => nomatch hfragment
  cases f with
  | reported d => exact absurd rfl (h d)
  | config fault => exact hwithout _ rfl hr
  | layout fault => exact hwithout _ rfl hr
  | _ => exact hwording _ hr

theorem Compiler.invocation_of_join {c : Compiler} {q : Query} {i : Invocation}
    {f : InvocationFailure} (h : c.join q i = .error f) : f.invocation = i := by
  unfold join at h
  split at h
  · cases h
    rfl
  · rename_i j _
    cases hr : q.append j with
    | error cause =>
      rw [hr] at h
      cases h
      rfl
    | ok r =>
      rw [hr] at h
      cases h

namespace InvocationFailure

variable {f : InvocationFailure} {r : Report} {text : String} {line column line' column' : Nat}

theorem statement_of_mem (hr : r ∈ f.diagnostic.reports) :
    r.statement = some f.invocation.text := by
  rw [diagnostic, Diagnostic.withStatement, Diagnostic.reports_mapReports] at hr
  obtain ⟨cause, -, rfl⟩ := List.mem_map.mp hr
  rfl

/-- Located reports have the place that the invocation was given. -/
theorem place_of_mem (hloc : f.invocation.location = some (line, column))
    (hcause : ∀ d, f.cause ≠ .reported d) (hr : r ∈ f.diagnostic.reports)
    (hfragment : r.fragment = .statement text line' column') : line' = line ∧ column' = column := by
  rw [diagnostic, Diagnostic.withStatement, Diagnostic.reports_mapReports] at hr
  obtain ⟨located, hlocated, rfl⟩ := List.mem_map.mp hr
  have hcauseAt : f.locatedCause = f.cause.diagnostic.withLocation line column := by
    rw [locatedCause, hloc]
  rw [hcauseAt, Diagnostic.withLocation, Diagnostic.reports_mapReports] at hlocated
  obtain ⟨cause, hmem, rfl⟩ := List.mem_map.mp hlocated
  have hne := Failure.fragment_ne_statement hcause hmem
  cases hcause : cause.fragment with
  | absent => simp [hcause, Fragment.locate] at hfragment
  | statement text line column => exact absurd hcause (hne text line column)
  | internal text =>
    simp only [hcause, Fragment.locate, Fragment.statement.injEq] at hfragment
    exact ⟨hfragment.2.1.symm, hfragment.2.2.symm⟩

end InvocationFailure

theorem Invocation.text_eq_cons (i : Invocation) : ∃ rest, i.text.toList = 'j' :: rest := by
  have happend : ∀ s t : String, (∃ rest, s.toList = 'j' :: rest) →
      ∃ rest, (s ++ t).toList = 'j' :: rest := by
    rintro s t ⟨rest, hrest⟩
    exact ⟨rest ++ t.toList, by rw [String.toList_append, hrest, List.cons_append]⟩
  unfold text
  iterate 7 apply happend
  exact ⟨"oin(query, ".toList, rfl⟩

namespace Report

variable {r : Report} {statement text : String} {line column : Nat}

/-- A report with a statement points at a part of it where the statement has the line, with the
column inside it and something to see in it. -/
theorem pointsInside_iff (hs : r.statement = some statement)
    (h : r.fragment = .statement text line column) :
    r.PointsInside ↔ ∃ shown, (Text.splitLines statement.toList)[line - 1]? = some shown ∧
      ¬ Text.Blank shown ∧ column < shown.length := by
  have hsource : (r.sourceLine text line).toList =
      ((Text.splitLines statement.toList)[line - 1]?).getD [] := by
    rw [sourceLine, hs]
    show (Text.getLine statement line).toList = _
    rw [Text.getLine, String.toList_ofList, List.getD_eq_getElem?_getD]
  have hoffset : r.markerOffset column = column := by rw [markerOffset, hs]
  have hplace : r.PointsInside ↔ ¬ Text.Blank (r.sourceLine text line).toList ∧
      column < (r.sourceLine text line).toList.length := by
    constructor
    · rintro ⟨text', line', column', hfragment, hblank, hinside⟩
      cases h.symm.trans hfragment
      rw [hoffset, ← String.length_toList] at hinside
      exact ⟨hblank, hinside⟩
    · rintro ⟨hblank, hinside⟩
      rw [String.length_toList, ← hoffset] at hinside
      exact ⟨text, line, column, h, hblank, hinside⟩
  rw [hplace, hsource]
  cases (Text.splitLines statement.toList)[line - 1]? with
  | none => simp [Text.blank_nil]
  | some shown => simp

variable {c : Char} {tail : List Char}

/-- The first line is not blank if the statement does not begin with a blank. -/
theorem pointsInside_iff_of_first (hs : r.statement = some statement)
    (h : r.fragment = .statement text line column) (hc : statement.toList = c :: tail)
    (hblank : Text.isBlank c = false) (hfirst : line ≤ 1) :
    r.PointsInside ↔ column < (Text.getLine statement line).length := by
  have hzero : line - 1 = 0 := by omega
  have hnewline : c ≠ '\n' := by
    rintro rfl
    cases hblank
  have hreturn : c ≠ '\r' := by
    rintro rfl
    cases hblank
  obtain ⟨shown, hshown⟩ := Text.exists_first_line tail hnewline hreturn
  have hline : (Text.getLine statement line).length = (c :: shown).length := by
    rw [Text.getLine, hzero, hc, List.getD_eq_getElem?_getD, hshown, ← String.length_toList,
      String.toList_ofList]
    rfl
  rw [pointsInside_iff hs h, hzero, hc, hshown, hline]
  constructor
  · rintro ⟨_, heq, -, hinside⟩
    cases heq
    exact hinside
  · intro hinside
    exact ⟨c :: shown, rfl, Text.not_blank_cons hblank, hinside⟩

/-- A statement without newlines has no other line than the first. -/
theorem pointsInside_iff_of_one_line (hs : r.statement = some statement)
    (h : r.fragment = .statement text line column) (hc : statement.toList = c :: tail)
    (hblank : Text.isBlank c = false) (hnewline : '\n' ∉ statement.toList) :
    r.PointsInside ↔ line ≤ 1 ∧ column < statement.length := by
  have hlines : Text.splitLines statement.toList = [statement.toList] := by
    apply Text.splitLines_of_not_mem _ hnewline
    rw [hc]
    exact List.cons_ne_nil c tail
  rw [pointsInside_iff hs h, hlines, ← String.length_toList]
  constructor
  · rintro ⟨shown, hshown, -, hinside⟩
    rw [List.getElem?_singleton] at hshown
    split at hshown
    · cases hshown
      exact ⟨by omega, hinside⟩
    · cases hshown
  · rintro ⟨hfirst, hinside⟩
    refine ⟨statement.toList, ?_, ?_, hinside⟩
    · rw [Nat.sub_eq_zero_of_le hfirst]
      rfl
    · rw [hc]
      exact Text.not_blank_cons hblank

end Report

/-- A located failure of a join. Its report, like each of those below it, prints the line of the
invocation with the number of the place, right above the row that underlines the fragment; the
place is that of the invocation in the caller's text unless a compiler of conditions has reported
another. It points at a part of the invocation only where the invocation has that line, with
something to see in it and the column inside: on the first line if that is longer than the column,
and on no other line if the invocation is written on one. -/
theorem InvocationFailure.points_inside_iff {c : Compiler} {q : Query} {i : Invocation}
    {f : InvocationFailure} {line column : Nat} (hloc : i.location = some (line, column))
    (hfail : c.join q i = .error f) :
    ∀ k r text l col, f.diagnostic.reports[k]? = some r → r.fragment = .statement text l col →
      ((Report.shownRows l (Text.getLine i.text l) col text).map (Text.spaces (2 * k) ++ ·) <:+:
        f.diagnostic.lines) ∧
      ((∀ d, f.cause ≠ .reported d) → l = line ∧ col = column) ∧
      (r.PointsInside ↔ ∃ shown, (Text.splitLines i.text.toList)[l - 1]? = some shown ∧
        ¬ Text.Blank shown ∧ col < shown.length) ∧
      (l ≤ 1 → (r.PointsInside ↔ col < (Text.getLine i.text l).length)) ∧
      ('\n' ∉ i.text.toList → (r.PointsInside ↔ l ≤ 1 ∧ col < i.text.length)) := by
  intro k r text l col hr hfragment
  cases Compiler.invocation_of_join hfail
  have hmem := List.mem_of_getElem? hr
  have hs := statement_of_mem hmem
  have hinside := Report.pointsInside_iff hs hfragment
  obtain ⟨rest, hj⟩ := f.invocation.text_eq_cons
  refine ⟨?_, fun hcause => place_of_mem hloc hcause hmem hfragment, hinside,
    Report.pointsInside_iff_of_first hs hfragment hj rfl,
    Report.pointsInside_iff_of_one_line hs hfragment hj rfl⟩
  have hrows := Report.shownRows_infix_lines hfragment
  rw [Report.sourceLine, Report.markerOffset, hs] at hrows
  exact (hrows.map _).trans (Diagnostic.infix_lines hr)

namespace Sample

/-- `join(query, :inner, [p], c in "comments", as: 1)`, at a place of a text. -/
def commentsAsOne (line column : Nat) : Invocation where
  qualifier := .atom "inner"
  binding := .list [.var "p"]
  target := .binary .mem (.var "c") (.string "comments")
  options := some (.keyword [("as", .literal (.integer 1))])
  location := some (line, column)

/-- Where the caller's text is the invocation, the option that is wrong is underlined in it. -/
theorem points_inside_iff_commentsAsOne :
    ∃ f, compiler.join posts (commentsAsOne 1 46) = .error f ∧
      f.diagnostic.report.fragment = .statement "1" 1 46 ∧ f.diagnostic.report.PointsInside := by
  refine ⟨_, rfl, rfl, ?_⟩
  have h := InvocationFailure.points_inside_iff (c := compiler) (q := posts)
    (i := commentsAsOne 1 46) rfl rfl 0 _ "1" 1 46 rfl rfl
  rw [h.2.2.2.1 (Nat.le_refl 1)]
  decide

/-- On line 3 of a text the report shows an empty line, with nothing above the underline. -/
theorem blank_line_underlined :
    ∃ f, compiler.join posts (commentsAsOne 3 14) = .error f ∧
      f.diagnostic.report.fragment = .statement "1" 3 14 ∧
      f.diagnostic.lines = [
        "error[JOIN_004]: `as` must be a compile time atom or an interpolated value, got: `1`",
        "  --> line 3, column 14",
        "  3 │ ",
        "    │               ^",
        "    = invalid option value",
        "help: interpolate with `^` to supply the value at runtime"] ∧
      ¬ f.diagnostic.report.PointsInside := by
  refine ⟨_, rfl, rfl, rfl, ?_⟩
  intro hinside
  obtain ⟨shown, hshown, -⟩ := (Report.pointsInside_iff rfl rfl).mp hinside
  cases hshown

end Sample

end StagedJoin
