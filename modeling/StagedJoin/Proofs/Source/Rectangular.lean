import StagedJoin.Proofs.Outcome
import StagedJoin.Source.Values

/-!
Rectangular values lists. Rows and columns make a list exactly if there are rows and each
of them has just the fields of the columns, and its cells then stand row by row. Of several
reasons to refuse a list, that it has no rows is reported first, then the first field
without a column, then the first column without a field.
-/
namespace StagedJoin

variable {columns : Columns} {name : String} {fault : ValuesFault}

/-! ## Rows -/

namespace ValuesRow

variable {row : ValuesRow} {cells : List Param}

/-- Each field of the row is a column. -/
def Declared (columns : Columns) (row : ValuesRow) : Prop :=
  ∀ field ∈ row.keys, field ∈ columns.map Prod.fst

/-- Each column is a field of the row. -/
def Complete (columns : Columns) (row : ValuesRow) : Prop :=
  ∀ field ∈ columns.map Prod.fst, field ∈ row.keys

theorem undeclared?_eq_none_iff : row.undeclared? columns = none ↔ row.Declared columns := by
  simp [undeclared?, Declared]

/-- The first field without a column is found. -/
theorem undeclared?_eq_some_iff : row.undeclared? columns = some name ↔
    ∃ front back, row.keys = front ++ name :: back ∧
      (∀ field ∈ front, field ∈ columns.map Prod.fst) ∧ name ∉ columns.map Prod.fst := by
  have hany : ∀ field, columns.any (·.1 = field) = true ↔ field ∈ columns.map Prod.fst := by
    intro field
    simp
  rw [undeclared?, List.find?_eq_some_iff_append]
  simp only [Bool.not_eq_true', Bool.not_not, hany, ← Bool.not_eq_true]
  exact ⟨fun ⟨hname, front, back, hkeys, hfront⟩ => ⟨front, back, hkeys, hfront, hname⟩,
    fun ⟨front, back, hkeys, hfront, hname⟩ => ⟨hname, front, back, hkeys, hfront⟩⟩

/-- The cell of a row in a column. -/
def cell (row : ValuesRow) (column : String × ColumnType) : Except String Param :=
  match row.get? column.1 with
  | none => .error column.1
  | some value => .ok ⟨value, .type column.2⟩

theorem cell_eq_ok_iff {column : String × ColumnType} {p : Param} :
    row.cell column = .ok p ↔ row.get? column.1 = some p.value ∧ p.tag = .type column.2 := by
  obtain ⟨value, tag⟩ := p
  unfold cell
  cases row.get? column.1 <;> simp [eq_comm]

theorem cell_eq_error_iff {column : String × ColumnType} :
    row.cell column = .error name ↔ column.1 = name ∧ name ∉ row.keys := by
  rw [← OrderedMap.get?_eq_none_iff]
  unfold cell
  cases hvalue : row.get? column.1 with
  | none =>
    rw [Except.error.injEq, iff_self_and]
    rintro rfl
    exact hvalue
  | some value =>
    refine iff_of_false (by simp) ?_
    rintro ⟨rfl, hnone⟩
    cases hvalue.symm.trans hnone

theorem exists_cell_iff {column : String × ColumnType} :
    (∃ p, row.cell column = .ok p) ↔ column.1 ∈ row.keys := by
  cases hcell : row.cell column with
  | ok p =>
    refine iff_of_true ⟨p, rfl⟩ ?_
    by_contra hlacks
    cases hcell.symm.trans (cell_eq_error_iff.mpr ⟨rfl, hlacks⟩)
  | error name =>
    obtain ⟨rfl, hlacks⟩ := cell_eq_error_iff.mp hcell
    exact iff_of_false (by simp) hlacks

theorem cells_eq_mapM (row : ValuesRow) (columns : Columns) :
    row.cells columns = columns.mapM row.cell := by
  induction columns with
  | nil => rfl
  | cons column rest ih =>
    obtain ⟨field, type⟩ := column
    rw [ValuesRow.cells, List.mapM_cons, ← ih, cell]
    cases row.get? field with
    | none => rfl
    | some value => cases row.cells rest <;> rfl

/-- A row has a cell for each column, in the order of the columns. -/
theorem cells_eq_ok_iff : row.cells columns = .ok cells ↔
    List.Forall₂ (fun column cell => row.get? column.1 = some cell.value ∧
      cell.tag = .type column.2) columns cells := by
  simp only [cells_eq_mapM, mapM_eq_ok_iff, cell_eq_ok_iff]

/-- A row fails at the first column that it lacks. -/
theorem cells_eq_error_iff : row.cells columns = .error name ↔
    ∃ front type back, columns = front ++ (name, type) :: back ∧
      (∀ column ∈ front, column.1 ∈ row.keys) ∧ name ∉ row.keys := by
  rw [cells_eq_mapM, mapM_eq_error_iff]
  simp only [exists_cell_iff, cell_eq_error_iff]
  constructor
  · rintro ⟨front, ⟨_, type⟩, back, hcolumns, hfront, rfl, hname⟩
    exact ⟨front, type, back, hcolumns, hfront, hname⟩
  · rintro ⟨front, type, back, hcolumns, hfront, hname⟩
    exact ⟨front, (name, type), back, hcolumns, hfront, rfl, hname⟩

/-- A row has its cells if it has every column. -/
theorem exists_cells_iff : (∃ cells, row.cells columns = .ok cells) ↔ row.Complete columns := by
  rw [cells_eq_mapM, exists_mapM_eq_ok_iff, Complete, List.forall_mem_map]
  simp only [exists_cell_iff]

end ValuesRow

/-! ## Lists -/

namespace ValuesList

open ValuesRow

variable {rows : List ValuesRow} {index : Nat} {cells : List Param}

theorem undeclared?_eq_none_iff :
    undeclared? columns rows = none ↔ ∀ row ∈ rows, row.Declared columns := by
  simp [undeclared?, ValuesRow.undeclared?_eq_none_iff]

/-- The first row with a field that is no column is found. -/
theorem undeclared?_eq_some_iff : undeclared? columns rows = some name ↔
    ∃ front row back, rows = front ++ row :: back ∧ (∀ r ∈ front, r.Declared columns) ∧
      row.undeclared? columns = some name := by
  rw [undeclared?, List.findSome?_eq_some_iff]
  simp only [ValuesRow.undeclared?_eq_none_iff]
  exact ⟨fun ⟨front, row, back, hrows, hrow, hfront⟩ => ⟨front, row, back, hrows, hfront, hrow⟩,
    fun ⟨front, row, back, hrows, hfront, hrow⟩ => ⟨front, row, back, hrows, hrow, hfront⟩⟩

/-- The cells of a row, or the column that it lacks, reported with the number of the row. -/
def numberedCells (columns : Columns) (row : ValuesRow × Nat) : Except ValuesFault (List Param) :=
  (row.1.cells columns).mapError fun name => .missingField name row.2 row.1.text

theorem layOut_eq_mapM (columns : Columns) (index : Nat) (rows : List ValuesRow) :
    layOut columns index rows =
      ((rows.zipIdx index).mapM (numberedCells columns)).map List.flatten := by
  induction rows generalizing index with
  | nil => rfl
  | cons row rest ih =>
    rw [layOut, ih, List.zipIdx_cons, List.mapM_cons, numberedCells]
    cases row.cells columns with
    | error name => rfl
    | ok first => cases (rest.zipIdx (index + 1)).mapM (numberedCells columns) <;> rfl

/-- The cells of the rows stand one row behind the other. -/
theorem layOut_eq_ok_iff : layOut columns index rows = .ok cells ↔
    ∃ parts, List.Forall₂ (fun row part => row.cells columns = .ok part) rows parts ∧
      parts.flatten = cells := by
  simp only [layOut_eq_mapM, map_eq_ok, mapM_eq_ok_iff, numberedCells, mapError_eq_ok]
  conv_rhs => rw [← List.zipIdx_map_fst index rows]
  simp only [List.forall₂_map_left_iff]

theorem exists_numberedCells_iff {row : ValuesRow × Nat} :
    (∃ cells, numberedCells columns row = .ok cells) ↔ row.1.Complete columns := by
  simp only [numberedCells, mapError_eq_ok, exists_cells_iff]

/-- Laying rows out fails at the first row that lacks a column. -/
theorem layOut_eq_error_iff : layOut columns index rows = .error fault ↔
    ∃ front row back name, rows = front ++ row :: back ∧ (∀ r ∈ front, r.Complete columns) ∧
      row.cells columns = .error name ∧
      fault = .missingField name (index + front.length) row.text := by
  have hfailed : layOut columns index rows = .error fault ↔
      (rows.zipIdx index).mapM (numberedCells columns) = .error fault := by
    rw [layOut_eq_mapM]
    cases (rows.zipIdx index).mapM (numberedCells columns) <;> simp [Except.map]
  rw [hfailed, mapM_eq_error_iff]
  simp only [exists_numberedCells_iff]
  constructor
  · rintro ⟨numbered, row, _, hrows, hfront, hrow⟩
    obtain ⟨front, rest, rfl, rfl, hrest⟩ := List.zipIdx_eq_append_iff.mp hrows
    obtain ⟨row, back, rfl, rfl, -⟩ := List.zipIdx_eq_cons_iff.mp hrest.symm
    obtain ⟨name, hname, rfl⟩ := mapError_eq_error.mp hrow
    refine ⟨front, row, back, name, rfl, fun r hr => ?_, hname, rfl⟩
    rw [← List.zipIdx_map_fst index front] at hr
    obtain ⟨numbered, hnumbered, rfl⟩ := List.mem_map.mp hr
    exact hfront numbered hnumbered
  · rintro ⟨front, row, back, name, rfl, hfront, hname, rfl⟩
    refine ⟨front.zipIdx index, (row, index + front.length), _, List.zipIdx_append, ?_, ?_⟩
    · intro numbered hnumbered
      exact hfront _ (List.fst_mem_of_mem_zipIdx hnumbered)
    · exact mapError_eq_error.mpr ⟨name, hname, rfl⟩

/-- The items of lists of one length stand row by row. -/
theorem getElem?_flatten {α : Type} {parts : List (List α)} {width : Nat}
    (h : ∀ part ∈ parts, part.length = width) {r c : Nat} (hc : c < width) :
    parts.flatten[r * width + c]? = parts[r]?.bind (·[c]?) := by
  induction parts generalizing r with
  | nil => simp
  | cons part rest ih =>
    obtain ⟨hpart, hrest⟩ := List.forall_mem_cons.mp h
    rw [List.flatten_cons]
    cases r with
    | zero =>
      rw [Nat.zero_mul, Nat.zero_add, List.getElem?_append_left (by omega)]
      rfl
    | succ r =>
      have hle : part.length ≤ (r + 1) * width + c := by
        rw [hpart, Nat.succ_mul]
        omega
      have hsub : (r + 1) * width + c - part.length = r * width + c := by
        rw [hpart, Nat.succ_mul]
        omega
      rw [List.getElem?_append_right hle, hsub, ih hrest]
      rfl

theorem check_eq_ok_iff {list : ValuesList} : check rows columns = .ok list ↔
    rows ≠ [] ∧ (∀ row ∈ rows, row.Declared columns) ∧
      ∃ cells, layOut columns 0 rows = .ok cells ∧ ⟨columns, rows.length, cells⟩ = list := by
  rw [check, ← undeclared?_eq_none_iff]
  cases rows with
  | nil => simp
  | cons row rest =>
    cases undeclared? columns (row :: rest) with
    | some name => simp
    | none => cases layOut columns 0 (row :: rest) <;> simp

/-! ## Lists that are refused -/

/-- Why rows and columns make no list. -/
inductive Refused (rows : List ValuesRow) (columns : Columns) : ValuesFault → Prop
  | empty (h : rows = []) : Refused rows columns .empty
  | undeclaredType {front back : List ValuesRow} {row : ValuesRow} {fields rest : List String}
      {name : String} (hrows : rows = front ++ row :: back)
      (hfront : ∀ r ∈ front, r.Declared columns) (hkeys : row.keys = fields ++ name :: rest)
      (hfields : ∀ field ∈ fields, field ∈ columns.map Prod.fst)
      (hname : name ∉ columns.map Prod.fst) : Refused rows columns (.undeclaredType name)
  | missingField {front back : List ValuesRow} {row : ValuesRow} {present absent : Columns}
      {name : String} {type : ColumnType} (hdeclared : ∀ r ∈ rows, r.Declared columns)
      (hrows : rows = front ++ row :: back) (hfront : ∀ r ∈ front, r.Complete columns)
      (hcolumns : columns = present ++ (name, type) :: absent)
      (hpresent : ∀ column ∈ present, column.1 ∈ row.keys) (hname : name ∉ row.keys) :
      Refused rows columns (.missingField name front.length row.text)

theorem refused_of_check (h : check rows columns = .error fault) : Refused rows columns fault := by
  unfold check at h
  split at h
  · rename_i hempty
    cases h
    exact .empty (List.isEmpty_iff.mp hempty)
  · split at h
    · rename_i name hundeclared
      cases h
      obtain ⟨front, row, back, hrows, hfront, hrow⟩ := undeclared?_eq_some_iff.mp hundeclared
      obtain ⟨fields, rest, hkeys, hfields, hname⟩ := ValuesRow.undeclared?_eq_some_iff.mp hrow
      exact .undeclaredType hrows hfront hkeys hfields hname
    · rename_i hundeclared
      split at h
      · rename_i hlayOut
        cases h
        obtain ⟨front, row, back, name, hrows, hfront, hrow, rfl⟩ := layOut_eq_error_iff.mp hlayOut
        obtain ⟨present, type, absent, hcolumns, hpresent, hname⟩ := cells_eq_error_iff.mp hrow
        rw [Nat.zero_add]
        exact .missingField (undeclared?_eq_none_iff.mp hundeclared) hrows hfront hcolumns hpresent
          hname
      · cases h

theorem Refused.check_eq (h : Refused rows columns fault) : check rows columns = .error fault := by
  have hnonempty : ∀ {front back : List ValuesRow} {row : ValuesRow},
      rows = front ++ row :: back → rows.isEmpty = false := by
    rintro front back row rfl
    simp
  cases h with
  | empty h => rw [check, h, List.isEmpty_nil, if_pos rfl]
  | undeclaredType hrows hfront hkeys hfields hname =>
    have hrow := ValuesRow.undeclared?_eq_some_iff.mpr ⟨_, _, hkeys, hfields, hname⟩
    have hundeclared := undeclared?_eq_some_iff.mpr ⟨_, _, _, hrows, hfront, hrow⟩
    simp only [check, hnonempty hrows, hundeclared, Bool.false_eq_true, ↓reduceIte]
  | missingField hdeclared hrows hfront hcolumns hpresent hname =>
    have hundeclared := undeclared?_eq_none_iff.mpr hdeclared
    have hrow := cells_eq_error_iff.mpr ⟨_, _, _, hcolumns, hpresent, hname⟩
    have hlayOut : layOut columns 0 rows = .error _ :=
      layOut_eq_error_iff.mpr ⟨_, _, _, _, hrows, hfront, hrow, rfl⟩
    simp only [check, hnonempty hrows, hundeclared, hlayOut, Nat.zero_add, Bool.false_eq_true,
      ↓reduceIte]

/-- Rows are laid out if none of them lacks a column. -/
theorem exists_layOut_iff :
    (∃ cells, layOut columns index rows = .ok cells) ↔ ∀ row ∈ rows, row.Complete columns := by
  have hparts : (∃ cells, layOut columns index rows = .ok cells) ↔
      ∃ parts, (rows.zipIdx index).mapM (numberedCells columns) = .ok parts := by
    rw [layOut_eq_mapM]
    cases (rows.zipIdx index).mapM (numberedCells columns) <;> simp [Except.map]
  rw [hparts, exists_mapM_eq_ok_iff]
  simp only [exists_numberedCells_iff]
  conv_rhs => rw [← List.zipIdx_map_fst index rows]
  rw [List.forall_mem_map]

theorem exists_check_iff : (∃ list, check rows columns = .ok list) ↔
    rows ≠ [] ∧ ∀ row ∈ rows, ∀ name, name ∈ row.keys ↔ name ∈ columns.map Prod.fst := by
  simp only [check_eq_ok_iff]
  constructor
  · rintro ⟨_, hne, hdeclared, cells, hcells, -⟩
    have hcomplete := exists_layOut_iff.mp ⟨cells, hcells⟩
    exact ⟨hne, fun row hrow name => ⟨hdeclared row hrow name, hcomplete row hrow name⟩⟩
  · rintro ⟨hne, hfields⟩
    have hcomplete : ∀ row ∈ rows, row.Complete columns :=
      fun row hrow name => (hfields row hrow name).mpr
    obtain ⟨cells, hcells⟩ := exists_layOut_iff.mpr hcomplete
    exact ⟨_, hne, fun row hrow name => (hfields row hrow name).mp, cells, hcells, rfl⟩

/-- In the cells of a list, each row takes as many as there are columns. -/
theorem length_parts {parts : List (List Param)}
    (h : List.Forall₂ (fun row part => ValuesRow.cells row columns = .ok part) rows parts) :
    ∀ part ∈ parts, part.length = columns.length := by
  intro part hpart
  obtain ⟨row, -, hrow⟩ := exists_left_of_forall₂ h hpart
  exact (cells_eq_ok_iff.mp hrow).length_eq.symm

theorem length_of_layOut (h : layOut columns index rows = .ok cells) :
    cells.length = rows.length * columns.length := by
  obtain ⟨parts, hparts, rfl⟩ := layOut_eq_ok_iff.mp h
  have hlengths : parts.map List.length = List.replicate parts.length columns.length := by
    rw [List.eq_replicate_iff, List.length_map, List.forall_mem_map]
    exact ⟨rfl, length_parts hparts⟩
  rw [List.length_flatten, hlengths, List.sum_replicate_nat, hparts.length_eq]

/-- Where the cell of a row in a column stands. -/
theorem getElem?_of_layOut (h : layOut columns index rows = .ok cells) {r c : Nat} {row : ValuesRow}
    {type : ColumnType} (hrow : rows[r]? = some row) (hcolumn : columns[c]? = some (name, type)) :
    ∃ value, row.get? name = some value ∧
      cells[r * columns.length + c]? = some ⟨value, .type type⟩ := by
  obtain ⟨parts, hparts, rfl⟩ := layOut_eq_ok_iff.mp h
  obtain ⟨part, hpart, hcells⟩ := exists_getElem?_of_forall₂ hparts hrow
  obtain ⟨⟨value, tag⟩, hcell, hvalue, htag⟩ :=
    exists_getElem?_of_forall₂ (cells_eq_ok_iff.mp hcells) hcolumn
  obtain rfl : tag = .type type := htag
  have hc : c < columns.length := (List.getElem?_eq_some_iff.mp hcolumn).1
  refine ⟨value, hvalue, ?_⟩
  rw [getElem?_flatten (length_parts hparts) hc, hpart]
  exact hcell

/-- Rows and columns make a list exactly if there are rows and each has just the fields of the
columns. The list has them in their order, and the cell of a row in a column is the value that the
row has there, with the type of the column. Others are refused for the first reason that applies. -/
theorem accepts_exactly_rectangular (rows : List ValuesRow) (columns : Columns) :
    ((∃ list, check rows columns = .ok list) ↔
      rows ≠ [] ∧ ∀ row ∈ rows, ∀ name, name ∈ row.keys ↔ name ∈ columns.map Prod.fst) ∧
    (∀ list, check rows columns = .ok list →
      list.columns = columns ∧ list.rowCount = rows.length ∧
      list.cells.length = rows.length * columns.length ∧
      ∀ (r c : Nat) (row : ValuesRow) (name : String) (type : ColumnType),
        rows[r]? = some row → columns[c]? = some (name, type) →
        ∃ value, row.get? name = some value ∧
          list.cells[r * columns.length + c]? = some ⟨value, .type type⟩) ∧
    ∀ fault, check rows columns = .error fault ↔ Refused rows columns fault := by
  refine ⟨exists_check_iff, ?_, fun fault => ⟨refused_of_check, Refused.check_eq⟩⟩
  intro list hlist
  obtain ⟨-, -, cells, hcells, rfl⟩ := check_eq_ok_iff.mp hlist
  exact ⟨rfl, rfl, length_of_layOut hcells, fun r c row name type => getElem?_of_layOut hcells⟩

end ValuesList

end StagedJoin
